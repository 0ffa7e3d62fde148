import Mathlib.Data.List.Nodup
import Mathlib.Data.List.Perm.Subperm
import Mathlib.Data.List.Range
import Mathlib.Data.Nat.Notation
import Mathlib.Tactic.Common

/-!
# Forests given by the parent of each node

A forest on the nodes below `n` is a function that gives the parent of each node that is not
a root. The line of a node (`Forest.Lineage`) is the list of the nodes from a root down to it:
a forest is a parent function in which every node has a line. A line repeats no node
(`Forest.Lineage.nodup`), and is part of the line of a leaf
(`Forest.Lineage.exists_leaf`).
-/

namespace Forest

open List

variable {n : ℕ} {parent : ℕ → Option ℕ}

/-- The nodes from a root down to a node. -/
inductive Lineage (parent : ℕ → Option ℕ) : ℕ → List ℕ → Prop
  | root {i : ℕ} : parent i = none → Lineage parent i [i]
  | child {i p : ℕ} {l : List ℕ} : parent i = some p → Lineage parent p l →
      Lineage parent i (l ++ [i])

/-- A node that is not a parent. -/
def Leaf (n : ℕ) (parent : ℕ → Option ℕ) (i : ℕ) : Prop := ∀ j < n, parent j ≠ some i

/-- Every node has a line. -/
def Grounded (n : ℕ) (parent : ℕ → Option ℕ) : Prop := ∀ i < n, ∃ l, Lineage parent i l

namespace Lineage

variable {i j : ℕ} {l l' : List ℕ}

theorem unique (h : Lineage parent i l) (h' : Lineage parent i l') : l = l' := by
  induction h generalizing l' with
  | root hi =>
    cases h' with
    | root => rfl
    | child hp => rw [hi] at hp; cases hp
  | child hp _ ih =>
    cases h' with
    | root hi => rw [hi] at hp; cases hp
    | child hp' hl' =>
      obtain rfl := Option.some.inj (hp.symm.trans hp')
      rw [ih hl']

theorem exists_eq (h : Lineage parent i l) : ∃ m, l = m ++ [i] := by
  cases h with
  | root => exact ⟨[], rfl⟩
  | child _ _ => exact ⟨_, rfl⟩

theorem ne_nil (h : Lineage parent i l) : l ≠ [] := by
  obtain ⟨m, rfl⟩ := h.exists_eq
  simp

theorem mem_self (h : Lineage parent i l) : i ∈ l := by
  obtain ⟨m, rfl⟩ := h.exists_eq
  simp

/-- A node of a line has its own line, which the line starts with. -/
theorem of_mem (h : Lineage parent i l) (hj : j ∈ l) : ∃ l', Lineage parent j l' ∧ l' <+: l := by
  induction h with
  | root hi =>
    obtain rfl := mem_singleton.mp hj
    exact ⟨_, root hi, prefix_rfl⟩
  | @child i p m hp hm ih =>
    rcases mem_append.mp hj with hj | hj
    · obtain ⟨l', hl', hprefix⟩ := ih hj
      exact ⟨l', hl', hprefix.trans (prefix_append m [i])⟩
    · obtain rfl := mem_singleton.mp hj
      exact ⟨_, child hp hm, prefix_rfl⟩

/-- **A line repeats no node**: the line of a repeated node would have two lengths. -/
theorem nodup (h : Lineage parent i l) : l.Nodup := by
  induction h with
  | root => exact nodup_singleton _
  | @child i p m hp hm ih =>
    refine nodup_append.mpr ⟨ih, nodup_singleton _, ?_⟩
    rintro a ha b hb rfl
    obtain rfl := mem_singleton.mp hb
    obtain ⟨l', hl', hprefix⟩ := hm.of_mem ha
    have hlen := hprefix.length_le
    rw [hl'.unique (child hp hm), length_append, length_singleton] at hlen
    omega

theorem mem_lt (hparent : ∀ j < n, ∀ p, parent j = some p → p < n) (h : Lineage parent i l)
    (hi : i < n) : ∀ j ∈ l, j < n := by
  induction h with
  | root => simpa using hi
  | @child i p m hp hm ih =>
    intro j hj
    rcases mem_append.mp hj with hj | hj
    · exact ih (hparent i hi p hp) j hj
    · rwa [mem_singleton.mp hj]

theorem length_le (hparent : ∀ j < n, ∀ p, parent j = some p → p < n) (h : Lineage parent i l)
    (hi : i < n) : l.length ≤ n := by
  have hsub : l ⊆ List.range n := fun j hj => mem_range.mpr (h.mem_lt hparent hi j hj)
  simpa using (subperm_of_subset h.nodup hsub).length_le

theorem head_root (h : Lineage parent i l) : ∃ r m, l = r :: m ∧ parent r = none := by
  induction h with
  | @root i hi => exact ⟨i, [], rfl, hi⟩
  | @child i p m hp hm ih =>
    obtain ⟨r, m', rfl, hr⟩ := ih
    exact ⟨r, m' ++ [i], rfl, hr⟩

theorem parent_eq (h : Lineage parent i l) {a : List ℕ} {x y : ℕ} {b : List ℕ}
    (hl : l = a ++ x :: y :: b) : parent y = some x := by
  induction h generalizing a b with
  | @root i hi =>
    have := congrArg List.length hl
    simp at this
    omega
  | @child i p m hp hm ih =>
    obtain ⟨m', rfl⟩ := hm.exists_eq
    rcases eq_nil_or_concat b with rfl | ⟨b, z, rfl⟩
    · have heq : (m' ++ [p]) ++ [i] = (a ++ [x]) ++ [y] := by simpa using hl
      have hlast := append_inj' heq rfl
      obtain rfl : i = y := by simpa using hlast.2
      obtain rfl : p = x := by simpa using (append_inj' hlast.1 rfl).2
      exact hp
    · have heq : (m' ++ [p]) ++ [i] = (a ++ x :: y :: b) ++ [z] := by simpa using hl
      exact ih (append_inj' heq rfl).1

/-- **A line is part of the line of a leaf.** -/
theorem exists_leaf (hparent : ∀ j < n, ∀ p, parent j = some p → p < n)
    (h : Lineage parent i l) (hi : i < n) :
    ∃ j < n, ∃ l', Lineage parent j l' ∧ l <+: l' ∧ Leaf n parent j := by
  -- by induction on how much longer a line may get
  obtain ⟨d, hd⟩ : ∃ d, n - l.length = d := ⟨_, rfl⟩
  induction d generalizing i l with
  | zero =>
    refine ⟨i, hi, l, h, prefix_rfl, fun j hj hp => ?_⟩
    have hlen := (child hp h).length_le hparent hj
    rw [length_append, length_singleton] at hlen
    omega
  | succ d ih =>
    by_cases hleaf : Leaf n parent i
    · exact ⟨i, hi, l, h, prefix_rfl, hleaf⟩
    · simp only [Leaf, not_forall, not_not] at hleaf
      obtain ⟨j, hj, hp⟩ := hleaf
      obtain ⟨j', hj', l', hl', hprefix, hleaf⟩ :=
        ih (child hp h) hj (by rw [length_append, length_singleton]; omega)
      exact ⟨j', hj', l', hl', (prefix_append l [j]).trans hprefix, hleaf⟩

end Lineage

/-! ### Going down -/

/-- A list of nodes, each of which is a child of the one before it; the first is a child of the node
that the list starts from, or a root. -/
def Descends (n : ℕ) (parent : ℕ → Option ℕ) : Option ℕ → List ℕ → Prop
  | _, [] => True
  | node, c :: l => c < n ∧ parent c = node ∧ Descends n parent (some c) l

/-- Where a list of nodes ends. -/
def endNode : Option ℕ → List ℕ → Option ℕ
  | node, [] => node
  | _, c :: l => endNode (some c) l

attribute [grind =] Descends endNode

section Descends

variable {node : Option ℕ} {i : ℕ} {l l' : List ℕ}

theorem endNode_append (node : Option ℕ) (l l' : List ℕ) :
    endNode node (l ++ l') = endNode (endNode node l) l' := by
  induction l generalizing node with
  | nil => rfl
  | cons c l ih => exact ih (some c)

theorem endNode_some_ne_none (a : ℕ) (l : List ℕ) : endNode (some a) l ≠ none := by
  induction l generalizing a with
  | nil => exact Option.some_ne_none a
  | cons b l ih => exact ih b

theorem descends_append : Descends n parent node (l ++ l') ↔
    Descends n parent node l ∧ Descends n parent (endNode node l) l' := by
  induction l generalizing node with
  | nil => exact ⟨fun h => ⟨trivial, h⟩, And.right⟩
  | cons c l ih =>
    rw [cons_append, Descends, Descends, ih, endNode, and_assoc, and_assoc]

theorem Descends.of_isPrefix (h : Descends n parent node l') (hl : l <+: l') :
    Descends n parent node l := by
  obtain ⟨m, rfl⟩ := hl
  exact (descends_append.mp h).1

theorem Lineage.descends (hparent : ∀ j < n, ∀ p, parent j = some p → p < n)
    (h : Lineage parent i l) (hi : i < n) :
    Descends n parent none l ∧ endNode none l = some i := by
  induction h with
  | root hroot => exact ⟨⟨hi, hroot, trivial⟩, rfl⟩
  | @child i p m hp _ ih =>
    obtain ⟨hdown, hend⟩ := ih (hparent i hi p hp)
    refine ⟨descends_append.mpr ⟨hdown, hi, ?_, trivial⟩, endNode_append none m [i]⟩
    rw [hp, hend]

/-- What goes down from a root is the line of the node where it ends. -/
theorem Descends.lineage (h : Descends n parent none l) (hend : endNode none l = some i) :
    i < n ∧ Lineage parent i l := by
  induction l using List.reverseRecOn generalizing i with
  | nil => cases hend
  | append_singleton l c ih =>
    rw [endNode_append] at hend
    obtain rfl : c = i := Option.some.inj hend
    obtain ⟨hdown, hc, hparent, -⟩ := descends_append.mp h
    refine ⟨hc, ?_⟩
    cases hnode : endNode none l with
    | none =>
      cases l with
      | nil => exact .root hparent
      | cons a l => exact absurd hnode (endNode_some_ne_none a l)
    | some p => exact .child (hparent.trans hnode) (ih hdown hnode).2

end Descends

end Forest

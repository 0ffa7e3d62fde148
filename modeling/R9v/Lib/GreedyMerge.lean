import Mathlib.Data.List.Basic
import Mathlib.Data.Set.Insert
import Mathlib.Order.Lattice

/-!
# Merging neighbours greedily

Some pairs of words may be merged, each with a priority. Merging a list of words greedily
(`GreedyMerge.greedy`) merges, as long as there is such a pair of neighbours, the one with the least
priority, and the leftmost one among those.

A program keeps instead an agenda of pairs that were neighbours at some time, and removes an entry only
when its turn comes. Words are numbered, a merge takes the number on its left, and an entry is out of date
when a number is gone or the lengths have changed. Where all neighbours that may be merged are on the
agenda (`GreedyMerge.Agenda`), its least entry that is not out of date is the pair that is merged greedily
(`GreedyMerge.Agenda.greedy_eq`), and a merge keeps the agenda (`GreedyMerge.Agenda.merge`).
-/

namespace GreedyMerge

open List

variable {β π ι : Type} (prio : List β → List β → Option π)

/-! ### The greedy order -/

/-- The priority of the words at a position and after it. -/
def pairAt (l : List (List β)) (i : ℕ) : Option π := do
  let x ← l[i]?
  let y ← l[i + 1]?
  prio x y

/-- The least priority, and the leftmost position that has it. -/
def best [LinearOrder π] : List (List β) → Option (π × ℕ)
  | x :: y :: l =>
    match prio x y, best (y :: l) with
    | none, rest => rest.map fun b => (b.1, b.2 + 1)
    | some p, none => some (p, 0)
    | some p, some b => if b.1 < p then some (b.1, b.2 + 1) else some (p, 0)
  | _ => none

/-- Merges the words at a position and after it. -/
def mergeAt : ℕ → List (List β) → List (List β)
  | 0, x :: y :: l => (x ++ y) :: l
  | i + 1, x :: l => x :: mergeAt i l
  | _, l => l

attribute [grind =] best mergeAt

variable {prio} {l : List (List β)} {i : ℕ} {p : π}

theorem pairAt_succ (x : List β) : pairAt prio (x :: l) (i + 1) = pairAt prio l i := rfl

theorem pairAt_append {pre post : List (List β)} {x y : List β} :
    pairAt prio (pre ++ x :: y :: post) pre.length = prio x y := by
  induction pre with
  | nil => rfl
  | cons z pre ih => exact ih

theorem mergeAt_append {pre post : List (List β)} {x y : List β} :
    mergeAt pre.length (pre ++ x :: y :: post) = pre ++ (x ++ y) :: post := by
  induction pre with
  | nil => rfl
  | cons z pre ih => exact congrArg (List.cons z) ih

theorem exists_split (h : pairAt prio l i = some p) :
    ∃ pre x y post, l = pre ++ x :: y :: post ∧ pre.length = i ∧ prio x y = some p := by
  rw [pairAt] at h
  simp only [Option.bind_eq_bind, Option.bind_eq_some_iff] at h
  obtain ⟨x, hx, y, hy, hp⟩ := h
  obtain ⟨hi, rfl⟩ := List.getElem?_eq_some_iff.mp hx
  obtain ⟨hi', rfl⟩ := List.getElem?_eq_some_iff.mp hy
  refine ⟨l.take i, l[i], l[i + 1], l.drop (i + 2), ?_, by rw [List.length_take]; omega, hp⟩
  rw [← List.drop_eq_getElem_cons hi', ← List.drop_eq_getElem_cons hi, List.take_append_drop]

theorem length_mergeAt (h : pairAt prio l i = some p) : (mergeAt i l).length + 1 = l.length := by
  obtain ⟨pre, x, y, post, rfl, rfl, -⟩ := exists_split h
  rw [mergeAt_append]
  simp only [length_append, length_cons]
  omega

section Greedy

variable [LinearOrder π]

/-- **The best pair** is the leftmost one with the least priority. -/
theorem best_spec (l : List (List β)) :
    (best prio l = none → ∀ i, pairAt prio l i = none) ∧
      ∀ p i, best prio l = some (p, i) → pairAt prio l i = some p ∧
        ∀ j q, pairAt prio l j = some q → p < q ∨ p = q ∧ i ≤ j := by
  induction l with
  | nil => exact ⟨fun _ i => by simp [pairAt], fun p i h => by cases h⟩
  | cons x l ih =>
    cases l with
    | nil =>
      refine ⟨fun _ i => ?_, fun p i h => by cases h⟩
      cases i <;> simp [pairAt]
    | cons y l =>
      obtain ⟨hnone, hsome⟩ := ih
      have hzero : pairAt prio (x :: y :: l) 0 = prio x y := rfl
      rw [best]
      cases hp : prio x y with
      | none =>
        cases hb : best prio (y :: l) with
        | none =>
          refine ⟨fun _ i => ?_, fun p i h => by cases h⟩
          cases i with
          | zero => rw [hzero, hp]
          | succ i => exact hnone hb i
        | some b =>
          refine ⟨fun h => (by cases h), fun p i h => ?_⟩
          obtain ⟨rfl, rfl⟩ := Prod.mk.inj (Option.some.inj h)
          obtain ⟨hat, hmin⟩ := hsome b.1 b.2 hb
          refine ⟨hat, fun j q hq => ?_⟩
          cases j with
          | zero =>
            rw [hzero, hp] at hq
            cases hq
          | succ j => exact (hmin j q hq).imp_right fun h => ⟨h.1, Nat.succ_le_succ h.2⟩
      | some p₀ =>
        cases hb : best prio (y :: l) with
        | none =>
          refine ⟨fun h => (by cases h), fun p i h => ?_⟩
          obtain ⟨rfl, rfl⟩ := Prod.mk.inj (Option.some.inj h)
          refine ⟨hzero.trans hp, fun j q hq => ?_⟩
          cases j with
          | zero =>
            rw [hzero, hp] at hq
            exact .inr ⟨Option.some.inj hq, le_rfl⟩
          | succ j =>
            rw [pairAt_succ, hnone hb j] at hq
            cases hq
        | some b =>
          obtain ⟨hat, hmin⟩ := hsome b.1 b.2 hb
          dsimp only
          split
          · next hlt =>
            refine ⟨fun h => (by cases h), fun p i h => ?_⟩
            obtain ⟨rfl, rfl⟩ := Prod.mk.inj (Option.some.inj h)
            refine ⟨hat, fun j q hq => ?_⟩
            cases j with
            | zero =>
              rw [hzero, hp] at hq
              exact .inl (Option.some.inj hq ▸ hlt)
            | succ j => exact (hmin j q hq).imp_right fun h => ⟨h.1, Nat.succ_le_succ h.2⟩
          · next hge =>
            refine ⟨fun h => (by cases h), fun p i h => ?_⟩
            obtain ⟨rfl, rfl⟩ := Prod.mk.inj (Option.some.inj h)
            refine ⟨hzero.trans hp, fun j q hq => ?_⟩
            cases j with
            | zero =>
              rw [hzero, hp] at hq
              exact .inr ⟨Option.some.inj hq, le_rfl⟩
            | succ j =>
              have hle : p₀ ≤ q := (not_lt.mp hge).trans ((hmin j q hq).elim le_of_lt fun h => h.1.le)
              exact hle.lt_or_eq.imp_right fun h => ⟨h, Nat.zero_le _⟩

theorem best_eq_some (hat : pairAt prio l i = some p)
    (hmin : ∀ j q, pairAt prio l j = some q → p < q ∨ p = q ∧ i ≤ j) :
    best prio l = some (p, i) := by
  obtain ⟨hnone, hsome⟩ : (best prio l = none → _) ∧ _ := best_spec l
  cases hb : best prio l with
  | none =>
    rw [hnone hb i] at hat
    cases hat
  | some b =>
    obtain ⟨hbat, hbmin⟩ := hsome b.1 b.2 hb
    rcases hmin _ _ hbat with hlt | ⟨heq, hle⟩
    · rcases hbmin _ _ hat with hlt' | ⟨heq', -⟩
      · exact absurd (hlt.trans hlt') (lt_irrefl p)
      · exact absurd hlt (by rw [heq']; exact lt_irrefl p)
    · rcases hbmin _ _ hat with hlt' | ⟨-, hle'⟩
      · exact absurd hlt' (by rw [heq]; exact lt_irrefl _)
      · rw [heq, le_antisymm hle hle']

theorem best_eq_none (h : ∀ i, pairAt prio l i = none) : best prio l = none := by
  cases hb : best prio l with
  | none => rfl
  | some b =>
    have hat := ((best_spec l).2 b.1 b.2 hb).1
    rw [h] at hat
    cases hat

variable (prio) in
/-- Merges neighbours until none may be merged. -/
def greedy (l : List (List β)) : List (List β) :=
  match _h : best prio l with
  | none => l
  | some b => greedy (mergeAt b.2 l)
termination_by l.length
decreasing_by
  have hlen := length_mergeAt ((best_spec l).2 b.1 b.2 _h).1
  omega

theorem greedy_of_none (h : best prio l = none) : greedy prio l = l := by
  rw [greedy.eq_def]
  split
  · rfl
  · next hb =>
    rw [h] at hb
    cases hb

theorem greedy_of_some {b : π × ℕ} (h : best prio l = some b) :
    greedy prio l = greedy prio (mergeAt b.2 l) := by
  rw [greedy.eq_def]
  split
  · next hb =>
    rw [h] at hb
    cases hb
  · next hb =>
    rw [h] at hb
    cases hb
    rfl

/-- **A property of lists that a merge keeps** is one of what is left. -/
theorem greedy_induction {P : List (List β) → Prop}
    (hmerge : ∀ pre x y post p, prio x y = some p → P (pre ++ x :: y :: post) →
      P (pre ++ (x ++ y) :: post)) (l : List (List β)) (h : P l) : P (greedy prio l) := by
  induction hn : l.length using Nat.strong_induction_on generalizing l with
  | _ n ih =>
    cases hb : best prio l with
    | none => rwa [greedy_of_none hb]
    | some b =>
      have hat := ((best_spec l).2 b.1 b.2 hb).1
      have hlen := length_mergeAt hat
      rw [greedy_of_some hb]
      refine ih _ (by omega) _ ?_ rfl
      obtain ⟨pre, x, y, post, rfl, hpre, hp⟩ := exists_split hat
      rw [← hpre, mergeAt_append]
      exact hmerge pre x y post b.1 hp h

theorem flatten_greedy (l : List (List β)) : (greedy prio l).flatten = l.flatten :=
  greedy_induction (P := fun l' => l'.flatten = l.flatten) (fun pre x y post _ _ h => by
    rw [← h]
    simp) l rfl

theorem mem_greedy {l : List (List β)} {w : List β} (h : w ∈ greedy prio l) :
    w ∈ l ∨ ∃ x y p, prio x y = some p ∧ w = x ++ y := by
  refine greedy_induction (P := fun l' => ∀ w ∈ l', w ∈ l ∨ ∃ x y p, prio x y = some p ∧ w = x ++ y)
    (fun pre x y post p hp hall w hw => ?_) l (fun _ hw => .inl hw) w h
  rcases mem_append.mp hw with hw | hw
  · exact hall w (mem_append_left _ hw)
  · rcases mem_cons.mp hw with rfl | hw
    · exact .inr ⟨x, y, p, hp, rfl⟩
    · exact hall w (mem_append_right _ (mem_cons_of_mem _ (mem_cons_of_mem _ hw)))

end Greedy

/-! ### Neighbours in a list -/

section Neighbours

variable {live pre post : List ι} {i j a b : ι}

/-- A number stands right before another one. -/
def Adj : List ι → ι → ι → Prop
  | [], _, _ => False
  | a :: l, i, j => (i = a ∧ l.head? = some j) ∨ Adj l i j

theorem adj_append (i j : ι) (pre post : List ι) : Adj (pre ++ i :: j :: post) i j := by
  induction pre with
  | nil => exact .inl ⟨rfl, rfl⟩
  | cons a pre ih => exact .inr ih

theorem adj_of_getLast? (h : pre.getLast? = some i) : Adj (pre ++ a :: post) i a := by
  obtain ⟨pre', rfl⟩ := getLast?_eq_some_iff.mp h
  rw [append_assoc]
  exact adj_append i a pre' post

theorem adj_of_head? (h : post.head? = some j) : Adj (pre ++ a :: post) a j := by
  obtain ⟨post', rfl⟩ := head?_eq_some_iff.mp h
  exact adj_append a j pre post'

theorem Adj.exists_split (h : Adj live i j) : ∃ pre post, live = pre ++ i :: j :: post := by
  induction live with
  | nil => exact h.elim
  | cons a l ih =>
    rcases h with ⟨rfl, hhead⟩ | h
    · cases l with
      | nil => cases hhead
      | cons b l =>
        obtain rfl := Option.some.inj hhead
        exact ⟨[], l, rfl⟩
    · obtain ⟨pre, post, rfl⟩ := ih h
      exact ⟨a :: pre, post, rfl⟩

theorem Adj.mem (h : Adj live i j) : i ∈ live ∧ j ∈ live := by
  obtain ⟨pre, post, rfl⟩ := h.exists_split
  simp

theorem Adj.remove (h : Adj (pre ++ a :: b :: post) i j) (hi : i ≠ a) (hi' : i ≠ b) (hj : j ≠ b) :
    Adj (pre ++ a :: post) i j := by
  induction pre with
  | nil =>
    rcases h with ⟨rfl, -⟩ | ⟨rfl, -⟩ | h
    exacts [absurd rfl hi, absurd rfl hi', .inr h]
  | cons c pre ih =>
    rcases h with ⟨rfl, hhead⟩ | h
    · refine .inl ⟨rfl, ?_⟩
      cases pre with
      | nil => exact hhead
      | cons d pre => exact hhead
    · exact .inr (ih h)

theorem Adj.of_remove (h : Adj (pre ++ a :: post) i j) :
    (j = a ∧ pre.getLast? = some i) ∨ (i = a ∧ post.head? = some j) ∨
      (i ∈ pre ++ post ∧ j ∈ pre ++ post ∧ Adj (pre ++ a :: b :: post) i j) := by
  induction pre with
  | nil =>
    rcases h with ⟨rfl, hhead⟩ | h
    · exact .inr (.inl ⟨rfl, hhead⟩)
    · exact .inr (.inr ⟨h.mem.1, h.mem.2, .inr (.inr h)⟩)
  | cons c pre ih =>
    rcases h with ⟨rfl, hhead⟩ | h
    · cases pre with
      | nil => exact .inl ⟨(Option.some.inj hhead).symm, rfl⟩
      | cons d pre =>
        obtain rfl := Option.some.inj hhead
        exact .inr (.inr ⟨by simp, by simp, .inl ⟨rfl, rfl⟩⟩)
    · rcases ih h with ⟨rfl, hlast⟩ | ⟨rfl, hhead⟩ | ⟨hi, hj, hadj⟩
      · refine .inl ⟨rfl, ?_⟩
        rw [getLast?_cons, hlast]
        rfl
      · exact .inr (.inl ⟨rfl, hhead⟩)
      · exact .inr (.inr ⟨mem_cons_of_mem c hi, mem_cons_of_mem c hj, .inr hadj⟩)

theorem ne_of_nodup (hnodup : (pre ++ a :: b :: post).Nodup) :
    a ≠ b ∧ ∀ i ∈ pre ++ post, i ≠ a ∧ i ≠ b := by
  obtain ⟨-, hright, hdisj⟩ := nodup_append.mp hnodup
  obtain ⟨hleft, hright⟩ := nodup_cons.mp hright
  refine ⟨fun heq => hleft (heq ▸ mem_cons_self), fun i hi => ?_⟩
  rcases mem_append.mp hi with hi | hi
  · exact ⟨hdisj i hi _ mem_cons_self,
      hdisj i hi _ (mem_cons_of_mem _ mem_cons_self)⟩
  · exact ⟨fun heq => hleft (heq ▸ mem_cons_of_mem _ hi),
      fun heq => (nodup_cons.mp hright).1 (heq ▸ hi)⟩

theorem mem_around {i : ι} : i ∈ pre ++ a :: post ↔ i = a ∨ i ∈ pre ++ post := by
  simp only [mem_append, mem_cons]
  tauto

theorem mem_remove (hnodup : (pre ++ a :: b :: post).Nodup) {i : ι} :
    i ∈ pre ++ a :: post ↔ i ∈ pre ++ a :: b :: post ∧ i ≠ b := by
  obtain ⟨hne, hother⟩ := ne_of_nodup hnodup
  rw [mem_around, show i ∈ pre ++ a :: b :: post ↔ i = a ∨ i = b ∨ i ∈ pre ++ post by
    simp only [mem_append, mem_cons]
    tauto]
  constructor
  · rintro (rfl | hi)
    · exact ⟨.inl rfl, hne⟩
    · exact ⟨.inr (.inr hi), (hother i hi).2⟩
  · rintro ⟨rfl | rfl | hi, hb⟩
    exacts [.inl rfl, absurd rfl hb, .inr hi]

theorem Adj.unique (hnodup : (pre ++ a :: b :: post).Nodup) (h : Adj (pre ++ a :: b :: post) a j) :
    j = b := by
  induction pre with
  | nil =>
    rcases h with ⟨-, hhead⟩ | h
    · exact (Option.some.inj hhead).symm
    · exact absurd h.mem.1 (nodup_cons.mp hnodup).1
  | cons c pre ih =>
    rw [cons_append, nodup_cons] at hnodup
    rcases h with ⟨rfl, -⟩ | h
    · exact absurd (mem_append_right _ mem_cons_self) hnodup.1
    · exact ih hnodup.2 h

end Neighbours

/-! ### Links -/

section Links

variable {next prev : ι → Option ι} {live pre post : List ι} {a b : ι}

/-- Every number of a list is linked with the one before it and the one after it. -/
structure Linked (next prev : ι → Option ι) (live : List ι) : Prop where
  next_eq : ∀ pre i post, live = pre ++ i :: post → next i = post.head?
  prev_eq : ∀ pre i post, live = pre ++ i :: post → prev i = pre.getLast?

theorem Linked.adj (h : Linked next prev live) {i j : ι} (hadj : Adj live i j) :
    next i = some j ∧ prev j = some i := by
  obtain ⟨pre, post, rfl⟩ := hadj.exists_split
  refine ⟨h.next_eq pre i (j :: post) rfl, ?_⟩
  rw [h.prev_eq (pre ++ [i]) j post (by simp), getLast?_concat]

/-- **Unlinking a number** links the one before it with the one after it. -/
theorem Linked.unlink [DecidableEq ι] {prev' : ι → Option ι}
    (h : Linked next prev (pre ++ a :: b :: post)) (hnodup : (pre ++ a :: b :: post).Nodup)
    (hprev' : ∀ i, prev' i = if next b = some i then some a else prev i) :
    Linked (Function.update next a (next b)) prev' (pre ++ a :: post) := by
  have hb : next b = post.head? := h.next_eq (pre ++ [a]) b post (by simp)
  have hself : Function.update next a (next b) a = post.head? := by
    rw [Function.update_self, hb]
  have hprev : ∀ i, post.head? ≠ some i → prev' i = prev i := fun i hi => by
    rw [hprev', hb, if_neg hi]
  have hhead : ∀ i, post.head? = some i → i ∈ post := fun i hi => mem_of_mem_head? hi
  obtain ⟨-, hrest, hdisj⟩ := nodup_append.mp hnodup
  have hnota : ∀ i, i ∈ pre ∨ i ∈ post → i ≠ a := by
    rintro i (hi | hi) rfl
    · exact hdisj i hi i mem_cons_self rfl
    · exact (nodup_cons.mp hrest).1 (mem_cons_of_mem _ hi)
  constructor
  · intro pre' i post' heq
    -- the number is the one on the left, or it stands before it or after it
    rcases append_eq_append_iff.mp heq with ⟨x, rfl, hx⟩ | ⟨x, rfl, hx⟩
    · cases x with
      | nil =>
        cases hx
        exact hself
      | cons c x =>
        obtain ⟨rfl, rfl⟩ := List.cons.inj hx
        rw [Function.update_of_ne (hnota i (.inr (by simp)))]
        exact h.next_eq (pre ++ a :: b :: x) i post' (by simp)
    · cases x with
      | nil =>
        cases hx
        exact hself
      | cons c x =>
        obtain ⟨rfl, rfl⟩ := List.cons.inj hx
        rw [Function.update_of_ne (hnota i (.inl (by simp))),
          h.next_eq pre' i (x ++ a :: b :: post) (by simp)]
        cases x <;> rfl
  · intro pre' i post' heq
    rcases append_eq_append_iff.mp heq with ⟨x, rfl, hx⟩ | ⟨x, rfl, hx⟩
    · cases x with
      | nil =>
        cases hx
        rw [hprev a fun hc => hnota a (.inr (hhead a hc)) rfl, append_nil]
        exact h.prev_eq pre a (b :: post) rfl
      | cons c x =>
        obtain ⟨rfl, rfl⟩ := List.cons.inj hx
        cases x with
        | nil =>
          rw [hprev', if_pos (by rw [hb]; rfl), getLast?_concat]
        | cons d x =>
          have hne : d ≠ i := by
            rintro rfl
            simp at hrest
          rw [hprev i fun hc => hne (Option.some.inj hc),
            h.prev_eq (pre ++ a :: b :: d :: x) i post' (by simp), getLast?_append,
            getLast?_append, getLast?_cons_cons, getLast?_cons_cons,
            getLast?_cons_cons]
    · cases x with
      | nil =>
        cases hx
        rw [hprev a fun hc => hnota a (.inr (hhead a hc)) rfl]
        exact h.prev_eq pre' a (b :: post) (by simp)
      | cons c x =>
        obtain ⟨rfl, rfl⟩ := List.cons.inj hx
        rw [hprev i fun hc => hdisj i (by simp) i (by simp [hhead i hc]) rfl]
        exact h.prev_eq pre' i (x ++ a :: b :: post) (by simp)

end Links

/-! ### A queue in order -/

section Queue

variable {ε : Type} {before : ε → ε → Bool} {e e' : ε} {q : List ε}

/-- Puts an entry before the first one that it is before. -/
def insertBefore (before : ε → ε → Bool) (e : ε) : List ε → List ε
  | [] => [e]
  | e' :: q => if before e e' then e :: e' :: q else e' :: insertBefore before e q

attribute [grind =] insertBefore

theorem mem_insertBefore : e' ∈ insertBefore before e q ↔ e' = e ∨ e' ∈ q := by
  induction q with
  | nil => exact mem_cons
  | cons a q ih =>
    rw [insertBefore]
    split
    · exact mem_cons
    · rw [mem_cons, ih, mem_cons]
      tauto

theorem length_insertBefore : (insertBefore before e q).length = q.length + 1 := by
  induction q with
  | nil => rfl
  | cons a q ih =>
    rw [insertBefore]
    split
    · rfl
    · rw [length_cons, ih, length_cons]

/-- **The queue stays in order.** -/
theorem pairwise_insertBefore (hasymm : ∀ a b, before a b = true → before b a = false)
    (htrans : ∀ a b c, before a b = true → before b c = true → before a c = true)
    (h : q.Pairwise fun a b => before b a = false) :
    (insertBefore before e q).Pairwise fun a b => before b a = false := by
  induction q with
  | nil => exact pairwise_singleton _ _
  | cons a q ih =>
    obtain ⟨ha, hq⟩ := pairwise_cons.mp h
    rw [insertBefore]
    split
    · next hbefore =>
      refine pairwise_cons.mpr ⟨fun b hb => ?_, h⟩
      rcases mem_cons.mp hb with rfl | hb
      · exact hasymm _ _ hbefore
      · refine Bool.eq_false_iff.mpr fun hbe => ?_
        have hba := htrans _ _ _ hbe hbefore
        rw [ha b hb] at hba
        cases hba
    · next hbefore =>
      refine pairwise_cons.mpr ⟨fun b hb => ?_, ih hq⟩
      rcases mem_insertBefore.mp hb with rfl | hb
      exacts [Bool.eq_false_iff.mpr hbefore, ha b hb]

end Queue

/-! ### The agenda -/

section Agenda

variable [LinearOrder ι]

variable (β π ι) in
/-- A pair that may be merged, with its priority and its words when it was found. -/
structure Candidate where
  prio : π
  left : ι
  right : ι
  text : List β

variable (prio) in
/-- The entries of a pair: one if it may be merged, and none otherwise. -/
def exact (text : ι → List β) (i j : ι) : Set (Candidate β π ι) :=
  {e | prio (text i) (text j) = some e.prio ∧ e.left = i ∧ e.right = j ∧ e.text = text i ++ text j}

/-- An entry that is not out of date: both numbers are there, and the lengths are the same. -/
def Current (live : List ι) (text : ι → List β) (e : Candidate β π ι) : Prop :=
  e.left ∈ live ∧ e.right ∈ live ∧
    (text e.left).length + (text e.right).length = e.text.length

variable (prio) in
/-- All neighbours that may be merged are on the agenda. An entry of two numbers that are there is one of
neighbours, of which the right one may have grown. -/
structure Agenda (live : List ι) (text : ι → List β) (entries : Set (Candidate β π ι)) : Prop where
  sorted : live.Pairwise (· < ·)
  covered : ∀ i j, Adj live i j → ∀ p, prio (text i) (text j) = some p →
    ∃ e ∈ entries, e.prio = p ∧ e ∈ exact prio text i j
  valid : ∀ e ∈ entries, e.left ∈ live → e.right ∈ live → Adj live e.left e.right ∧
    ∃ r, r <+: text e.right ∧ prio (text e.left) r = some e.prio ∧ e.text = text e.left ++ r

variable {live : List ι} {text text' : ι → List β} {entries entries' : Set (Candidate β π ι)}
  {e : Candidate β π ι}

/-- **An entry that is not out of date** is one of neighbours with the words that it was found with. -/
theorem Agenda.current (h : Agenda prio live text entries) (he : e ∈ entries)
    (hc : Current live text e) :
    Adj live e.left e.right ∧ e ∈ exact prio text e.left e.right := by
  obtain ⟨hleft, hright, hlen⟩ := hc
  obtain ⟨hadj, r, hprefix, hprio, htext⟩ := h.valid e he hleft hright
  rw [htext, length_append] at hlen
  obtain rfl : r = text e.right := hprefix.eq_of_length (by omega)
  exact ⟨hadj, hprio, rfl, rfl, htext⟩

/-- **An entry that is out of date** may go. -/
theorem Agenda.drop (h : Agenda prio live text (insert e entries)) (hc : ¬Current live text e) :
    Agenda prio live text entries where
  sorted := h.sorted
  covered i j hadj p hp := by
    obtain ⟨e', he', hprio, hexact⟩ := h.covered i j hadj p hp
    refine ⟨e', he'.resolve_left fun heq => hc ?_, hprio, hexact⟩
    obtain ⟨-, rfl, rfl, htext⟩ := hexact
    rw [heq] at hadj htext
    exact ⟨hadj.mem.1, hadj.mem.2, by rw [htext, length_append]⟩
  valid e' he' := h.valid e' (.inr he')

omit [LinearOrder ι] in
theorem adj_of_pairAt {k : ℕ} {p : π} (h : pairAt prio (live.map text) k = some p) :
    ∃ i j, live[k]? = some i ∧ Adj live i j ∧ prio (text i) (text j) = some p := by
  obtain ⟨pre, x, y, post, hmap, rfl, hp⟩ := exists_split h
  obtain ⟨pre', rest, rfl, rfl, hrest⟩ := map_eq_append_iff.mp hmap
  obtain ⟨i, rest', rfl, rfl, hrest'⟩ := map_eq_cons_iff.mp hrest
  obtain ⟨j, post', rfl, rfl, -⟩ := map_eq_cons_iff.mp hrest'
  refine ⟨i, j, ?_, adj_append i j pre' post', hp⟩
  rw [length_map, getElem?_append_right le_rfl, Nat.sub_self]
  rfl

variable {pre post : List ι} (hlive : live = pre ++ e.left :: e.right :: post)
  (hself : text' e.left = text e.left ++ text e.right) (hother : ∀ i ∈ pre ++ post, text' i = text i)
include hlive hself hother

/-- **A merge keeps the agenda**, with the entries of the two pairs that it makes. -/
theorem Agenda.merge (h : Agenda prio live text (insert e entries))
    (hentries : ∀ e', e' ∈ entries' ↔ e' ∈ entries ∨
      (∃ i, pre.getLast? = some i ∧ e' ∈ exact prio text' i e.left) ∨
      ∃ j, post.head? = some j ∧ e' ∈ exact prio text' e.left j) :
    Agenda prio (pre ++ e.left :: post) text' entries' := by
  have hnodup : (pre ++ e.left :: e.right :: post).Nodup := by
    rw [← hlive]
    exact h.sorted.imp ne_of_lt
  have hne := ne_of_nodup hnodup
  refine ⟨?_, fun i j hadj p hp => ?_, fun e' he' hl hr => ?_⟩
  · refine (hlive ▸ h.sorted).sublist (Sublist.append_left ?_ pre)
    exact (sublist_cons_self _ _).cons_cons _
  · -- the pairs with the merged word are new, and the others were there
    rcases hadj.of_remove (b := e.right) with ⟨rfl, hlast⟩ | ⟨rfl, hhead⟩ | ⟨hi, hj, hadj⟩
    · exact ⟨⟨p, i, e.left, text' i ++ text' e.left⟩,
        (hentries _).mpr (.inr (.inl ⟨i, hlast, hp, rfl, rfl, rfl⟩)), rfl, hp, rfl, rfl, rfl⟩
    · exact ⟨⟨p, e.left, j, text' e.left ++ text' j⟩,
        (hentries _).mpr (.inr (.inr ⟨j, hhead, hp, rfl, rfl, rfl⟩)), rfl, hp, rfl, rfl, rfl⟩
    · rw [hother i hi, hother j hj] at hp
      obtain ⟨e', he', hprio, hp', hleft, hright, htext⟩ := h.covered i j (hlive ▸ hadj) p hp
      refine ⟨e', (hentries e').mpr (.inl (he'.resolve_left fun heq => (hne.2 i hi).1 ?_)), hprio, ?_⟩
      · rw [← hleft, heq]
      · rw [← hother i hi, ← hother j hj] at hp' htext
        exact ⟨hp', hleft, hright, htext⟩
  · rcases (hentries e').mp he' with he' | ⟨i, hlast, hp, rfl, hright, htext⟩ |
      ⟨j, hhead, hp, hleft, rfl, htext⟩
    · have hin : ∀ i, i ∈ pre ++ e.left :: post → i ∈ live := fun i hi => by
        rw [hlive]
        exact ((mem_remove hnodup).mp hi).1
      obtain ⟨hadj, r, hprefix, hprio, htext⟩ := h.valid e' (.inr he') (hin _ hl) (hin _ hr)
      rw [hlive] at hadj
      have hr' : e'.right ≠ e.right := by
        rcases mem_around.mp hr with heq | hr
        · exact heq ▸ hne.1
        · exact (hne.2 _ hr).2
      have hl' : e'.left ∈ pre ++ post := by
        refine (mem_around.mp hl).resolve_left fun heq => hr' ?_
        rw [heq] at hadj
        exact hadj.unique hnodup
      refine ⟨hadj.remove (hne.2 _ hl').1 (hne.2 _ hl').2 hr', r, ?_, ?_, ?_⟩
      · rcases mem_around.mp hr with heq | hr
        · rw [heq, hself]
          exact (heq ▸ hprefix).trans (prefix_append _ _)
        · rwa [hother _ hr]
      · rwa [hother _ hl']
      · rwa [hother _ hl']
    · refine ⟨?_, text' e'.right, prefix_rfl, by rwa [hright], by rwa [hright]⟩
      rw [hright]
      exact adj_of_getLast? hlast
    · refine ⟨?_, text' e'.right, prefix_rfl, by rwa [hleft], by rwa [hleft]⟩
      rw [hleft]
      exact adj_of_head? hhead

variable [LinearOrder π]

/-- **The least entry that is not out of date** is the pair that is merged greedily. -/
theorem Agenda.greedy_eq (h : Agenda prio live text (insert e entries)) (hc : Current live text e)
    (hmin : ∀ e' ∈ entries, e.prio < e'.prio ∨ e.prio = e'.prio ∧ e.left ≤ e'.left) :
    greedy prio (live.map text) = greedy prio ((pre ++ e.left :: post).map text') := by
  obtain ⟨-, hprio, -, -, -⟩ := h.current (.inl rfl) hc
  have hmap : live.map text = pre.map text ++ text e.left :: text e.right :: post.map text := by
    rw [hlive, map_append, map_cons, map_cons]
  have hmap' : (pre ++ e.left :: post).map text' =
      pre.map text ++ (text e.left ++ text e.right) :: post.map text := by
    have hpre : pre.map text' = pre.map text :=
      map_congr_left fun i hi => hother i (mem_append_left _ hi)
    have hpost : post.map text' = post.map text :=
      map_congr_left fun i hi => hother i (mem_append_right _ hi)
    rw [map_append, map_cons, hself, hpre, hpost]
  have hat : pairAt prio (live.map text) pre.length = some e.prio := by
    rw [hmap, ← length_map (f := text), pairAt_append]
    exact hprio
  have hbest : best prio (live.map text) = some (e.prio, pre.length) := by
    refine best_eq_some hat fun k q hq => ?_
    obtain ⟨i, j, hi, hadj, hp⟩ := adj_of_pairAt hq
    obtain ⟨e', he', hprio', -, hleft, -, -⟩ := h.covered i j hadj q hp
    have hle : e.prio < q ∨ e.prio = q ∧ e.left ≤ i := by
      rw [← hprio', ← hleft]
      rcases he' with rfl | he'
      exacts [.inr ⟨rfl, le_rfl⟩, hmin e' he']
    refine hle.imp_right fun hle => ⟨hle.1, not_lt.mp fun hlt => ?_⟩
    -- the numbers are in order, so that a number on the left is a smaller one
    have hsorted := h.sorted
    rw [hlive, pairwise_append] at hsorted
    rw [hlive, getElem?_append_left hlt] at hi
    exact absurd hle.2 (not_le.mpr
      (hsorted.2.2 i (mem_of_getElem? hi) e.left mem_cons_self))
  rw [greedy_of_some hbest, hmap, hmap', ← length_map (f := text), mergeAt_append]

omit hlive hself hother in
theorem Agenda.done (h : Agenda prio live text ∅) :
    greedy prio (live.map text) = live.map text := by
  refine greedy_of_none (best_eq_none fun k => ?_)
  cases hat : pairAt prio (live.map text) k with
  | none => rfl
  | some p =>
    obtain ⟨i, j, -, hadj, hp⟩ := adj_of_pairAt hat
    obtain ⟨e, he, -⟩ := h.covered i j hadj p hp
    exact he.elim

end Agenda

end GreedyMerge

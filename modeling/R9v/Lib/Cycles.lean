import Mathlib.Data.List.Cycle
import Mathlib.Data.List.Chain
import Mathlib.Data.Nat.Notation
import Mathlib.Data.Fintype.Pigeonhole
import Mathlib.Data.Set.Finite.Basic
import Mathlib.Logic.Relation

/-!
# Cycles along a relation

Directed cycles of a relation that leads from each element to at most one (`Cycles.Functional`).
A set that is closed under the relation contains a cycle as soon as it meets it
(`Cycles.subset_of_closed`), so that two cycles that meet have the same elements
(`Cycles.mem_of_mem`), and a chain whose end leads into a closed set has no cycle
(`Cycles.chain_no_cycle`). For any relation, a finite set whose elements lead into it has a cycle
(`Cycles.exists_cycle`).
-/

namespace Cycles

open List

variable {α : Type*} {R : α → α → Prop} {c c' : Cycle α} {a b x y : α} {l pre : List α} {D : α → Prop}

/-- Every element leads to one at most. -/
def Functional (R : α → α → Prop) : Prop := ∀ a b b', R a b → R a b' → b = b'

theorem exists_eq_cons (hx : x ∈ c) : ∃ l : List α, c = ((x :: l : List α) : Cycle α) := by
  induction c using Quotient.inductionOn' with
  | _ l =>
    obtain ⟨s, t, rfl⟩ := append_of_mem (Cycle.mem_coe_iff.mp hx)
    refine ⟨t ++ s, ?_⟩
    change ((s ++ x :: t : List α) : Cycle α) = ((x :: (t ++ s) : List α) : Cycle α)
    rw [Cycle.coe_eq_coe]
    exact isRotated_append

theorem exists_next (hc : c.Chain R) (hx : x ∈ c) : ∃ y ∈ c, R x y := by
  obtain ⟨l, rfl⟩ := exists_eq_cons hx
  rcases l with _ | ⟨y, l⟩
  · exact ⟨x, hx, (isChain_cons_cons.mp hc).1⟩
  · exact ⟨y, Cycle.mem_coe_iff.mpr (by simp), (isChain_cons_cons.mp hc).1⟩

theorem forall_of_chain (hD : ∀ a b, D a → R a b → D b) (hl : List.IsChain R (x :: l)) (hx : D x) :
    ∀ y ∈ l, D y := by
  induction l generalizing x with
  | nil => simp
  | cons z l ih =>
    obtain ⟨hR, hl⟩ := isChain_cons_cons.mp hl
    have hz := hD x z hx hR
    exact forall_mem_cons.mpr ⟨hz, ih hl hz⟩

/-- **A closed set** that meets a cycle contains it. -/
theorem subset_of_closed (hD : ∀ a b, D a → R a b → D b) (hc : c.Chain R) (hx : x ∈ c) (hDx : D x) :
    ∀ y ∈ c, D y := by
  obtain ⟨l, rfl⟩ := exists_eq_cons hx
  intro y hy
  rcases mem_cons.mp (Cycle.mem_coe_iff.mp hy) with rfl | hy
  · exact hDx
  · exact forall_of_chain hD hc hDx y (by simp [hy])

theorem closed (hR : Functional R) (hc : c.Chain R) (hx : x ∈ c) (hxy : R x y) : y ∈ c := by
  obtain ⟨z, hz, hxz⟩ := exists_next hc hx
  rwa [hR x y z hxy hxz]

/-- **Two cycles that meet** have the same elements. -/
theorem mem_of_mem (hR : Functional R) (hc : c.Chain R) (hc' : c'.Chain R) (hx : x ∈ c) (hx' : x ∈ c')
    (hy : y ∈ c) : y ∈ c' :=
  subset_of_closed (D := fun y => y ∈ c') (fun _ _ ha hab => closed hR hc' ha hab) hc hx hx' y hy

theorem chain_leads (hR : Functional R) (hl : List.IsChain R (x :: l)) (hmem : ∀ z ∈ l, D z)
    (hlast : ∀ z ∈ (x :: l).getLast?, ∀ y, R z y → D y) : ∀ z ∈ x :: l, ∀ y, R z y → D y := by
  induction l generalizing x with
  | nil =>
    intro z hz
    obtain rfl := mem_singleton.mp hz
    exact hlast z (by simp)
  | cons w l ih =>
    obtain ⟨hxw, hl⟩ := isChain_cons_cons.mp hl
    obtain ⟨hw, hmem⟩ := forall_mem_cons.mp hmem
    intro z hz y hzy
    rcases mem_cons.mp hz with rfl | hz
    · rwa [hR z y w hzy hxw]
    · refine ih hl hmem (fun z hz => hlast z ?_) z hz y hzy
      rwa [getLast?_cons_cons]

/-- **A chain has no cycle** when its end leads into a closed set that has nothing of it, or back
to what comes later in the chain. -/
theorem chain_no_cycle (hR : Functional R) (hD : ∀ a b, D a → R a b → D b)
    (hl : List.IsChain R (x :: l)) (hnodup : (x :: l).Nodup) (hx : ¬D x)
    (hlast : ∀ z ∈ (x :: l).getLast?, ∀ y, R z y → y ∈ l ∨ D y) (hc : c.Chain R) : x ∉ c := by
  intro hin
  have hleads := chain_leads (D := fun y => y ∈ l ∨ D y) hR hl (fun z hz => Or.inl hz) hlast
  have hclosed : ∀ a b, a ∈ l ∨ D a → R a b → b ∈ l ∨ D b := by
    rintro a b (ha | ha) hab
    · exact hleads a (mem_cons_of_mem x ha) b hab
    · exact Or.inr (hD a b ha hab)
  obtain ⟨y, hy, hxy⟩ := exists_next hc hin
  have hself := subset_of_closed (D := fun y => y ∈ l ∨ D y) hclosed hc hy
    (hleads x mem_cons_self y hxy) x hin
  rcases hself with hself | hself
  · exact (nodup_cons.mp hnodup).1 hself
  · exact hx hself

/-! ### Cycles in finite sets -/

/-- **A finite set whose elements lead into it** has a cycle that can be reached from each. -/
theorem exists_cycle {s : Set α} (hs : s.Finite) (h : ∀ a ∈ s, ∃ b ∈ s, R a b) (ha : a ∈ s) :
    ∃ c, Relation.ReflTransGen R a c ∧ Relation.TransGen R c c := by
  have := hs.to_subtype
  choose next hmem hnext using h
  let f : s → s := fun x => ⟨next x x.2, hmem x x.2⟩
  have hreach : ∀ (x : s) (k : ℕ), Relation.ReflTransGen R (x : α) (f^[k] x : s) := by
    intro x k
    induction k generalizing x with
    | zero => exact .refl
    | succ k ih => exact Relation.ReflTransGen.head (hnext x x.2) (ih (f x))
  -- among infinitely many steps two end at the same place
  obtain ⟨i, j, hne, heq⟩ := Finite.exists_ne_map_eq_of_infinite fun k : ℕ => f^[k] ⟨a, ha⟩
  wlog hlt : i < j generalizing i j
  · exact this j i hne.symm heq.symm (by omega)
  refine ⟨(f^[i] ⟨a, ha⟩ : s), hreach ⟨a, ha⟩ i, ?_⟩
  obtain ⟨k, rfl⟩ := Nat.exists_eq_add_of_lt hlt
  have hloop : f^[k + 1] (f^[i] ⟨a, ha⟩) = f^[i] ⟨a, ha⟩ := by
    rw [← Function.iterate_add_apply, show k + 1 + i = i + k + 1 by omega]
    exact heq.symm
  have hsucc := hreach (f (f^[i] ⟨a, ha⟩)) k
  rw [← Function.iterate_succ_apply, hloop] at hsucc
  exact Relation.TransGen.head' (hnext _ (f^[i] ⟨a, ha⟩).2) hsucc

/-! ### Shortcuts -/

section Shortcut

variable {D D' N : α → α → Prop} {O : α → Prop}

theorem exists_old_path (hold : ∀ x y, O x → D' x y → D x y ∨ N x y)
    (hshort : ∀ x c y, N x c → D' c y → D x y) (hD : ∀ x y, D x y → O y) (ha : O a)
    (hab : Relation.TransGen D' a b) :
    Relation.TransGen D a b ∨ ∃ m, Relation.ReflTransGen D a m ∧ N m b := by
  induction hab with
  | single hstep =>
    rcases hold a _ ha hstep with h | h
    · exact Or.inl (.single h)
    · exact Or.inr ⟨a, .refl, h⟩
  | tail _ hstep ih =>
    rcases ih with hpath | ⟨m, hpath, hm⟩
    · obtain ⟨z, -, hz⟩ := Relation.TransGen.tail'_iff.mp hpath
      rcases hold _ _ (hD z _ hz) hstep with h | h
      · exact Or.inl (.tail hpath h)
      · exact Or.inr ⟨_, hpath.to_reflTransGen, h⟩
    · exact Or.inl (Relation.TransGen.tail' hpath (hshort m _ _ hm hstep))

/-- **Detours make no cycle**: where each new step can only be the first half of a detour around an old
one, a cycle comes from an old cycle. -/
theorem no_cycle_of_shortcut (hold : ∀ x y, O x → D' x y → D x y ∨ N x y)
    (hshort : ∀ x c y, N x c → D' c y → D x y) (hshort' : ∀ x c y, N x c → D c y → D x y)
    (hD : ∀ x y, D x y → O y) (hnew : ∀ x y, ¬O x → D' x y → O y) (hirrefl : ∀ x, ¬N x x)
    (hno : ∀ x, ¬Relation.TransGen D x x) (x : α) : ¬Relation.TransGen D' x x := by
  have hfrom : ∀ x, O x → ¬Relation.TransGen D' x x := by
    intro x hx hcycle
    rcases exists_old_path hold hshort hD hx hcycle with h | ⟨m, hpath, hm⟩
    · exact hno x h
    · -- the cycle is entered by a detour, so that it goes on from its first half
      rcases Relation.ReflTransGen.cases_head hpath with rfl | ⟨z, hz, hrest⟩
      · exact hirrefl x hm
      · exact hno z (Relation.TransGen.tail' hrest (hshort' m x z hm hz))
  intro hcycle
  by_cases hx : O x
  · exact hfrom x hx hcycle
  · obtain ⟨y, hy, hrest⟩ := Relation.TransGen.head'_iff.mp hcycle
    exact hfrom y (hnew x y hx hy) (Relation.TransGen.tail' hrest hy)

end Shortcut

end Cycles

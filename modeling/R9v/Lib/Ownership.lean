import Mathlib.Data.List.Perm.Basic
import Mathlib.Logic.Function.Basic

/-!
# Ownership: a pool and its holders

Some ids are free, and the others are held: every holder has a list of them. The
law is that nothing is held twice, nothing held is free, and nothing is lost –
`Ownership.Owned`, over an arbitrary type of ids and of holders.

The one rule about it is `Ownership.Owned.exchange`: when ids move between the
pool and a single holder, so that what the two have together is a permutation of
what they had together before, the law is kept. Taking an id, giving one back,
giving a whole table back are all of that shape, and so is any loop of them.
-/

namespace Ownership

variable {κ α : Type}

/-- **The ownership law** of a pool over the ids satisfying `U`: the free list
and the lists of all holders are duplicate-free, pairwise disjoint, and together
exhaust the ids. -/
structure Owned (U : α → Prop) (free : List α) (held : κ → List α) : Prop where
  /-- No id is free twice. -/
  free_nodup : free.Nodup
  /-- No holder holds an id twice. -/
  held_nodup : ∀ k, (held k).Nodup
  /-- No held id is free. -/
  held_not_free : ∀ k, ∀ a ∈ held k, a ∉ free
  /-- No id has two holders. -/
  one_holder : ∀ k k', k ≠ k' → ∀ a ∈ held k, a ∉ held k'
  /-- No id is lost, and none is invented. -/
  cover : ∀ a, U a ↔ a ∈ free ∨ ∃ k, a ∈ held k

namespace Owned

variable {U : α → Prop} {free free' : List α} {held : κ → List α} {k : κ} {l : List α}

theorem of_mem_free (h : Owned U free held) {a : α} (ha : a ∈ free) : U a :=
  (h.cover a).mpr (Or.inl ha)

theorem of_mem_held (h : Owned U free held) {a : α} (ha : a ∈ held k) : U a :=
  (h.cover a).mpr (Or.inr ⟨k, ha⟩)

theorem mem_free_iff (h : Owned U free held) {a : α} : a ∈ free ↔ U a ∧ ¬∃ k, a ∈ held k :=
  ⟨fun ha => ⟨h.of_mem_free ha, fun ⟨k, hk⟩ => h.held_not_free k a hk ha⟩,
    fun ⟨hU, hno⟩ => ((h.cover a).mp hU).resolve_right hno⟩

/-- What is free follows from what is held. -/
theorem free_perm {held' : κ → List α} (h : Owned U free held) (h' : Owned U free' held')
    (hheld : ∀ a, (∃ k, a ∈ held k) ↔ ∃ k, a ∈ held' k) : free.Perm free' :=
  (List.perm_ext_iff_of_nodup h.free_nodup h'.free_nodup).mpr fun a => by
    rw [h.mem_free_iff, h'.mem_free_iff, hheld a]

theorem of_all_free (hn : free.Nodup) (hU : ∀ a, U a ↔ a ∈ free) (hh : ∀ k, held k = []) :
    Owned U free held where
  free_nodup := hn
  held_nodup := fun k => by simp [hh k]
  held_not_free := fun k a ha => by simp [hh k] at ha
  one_holder := fun k k' _ a ha => by simp [hh k] at ha
  cover := fun a => by simp [hU a, hh]

section Exchange

variable [DecidableEq κ]

/-- **The exchange rule**: ids may move between the pool and one holder. What the
two have together must stay the same up to order, and then the law stays true,
whatever the other holders have. -/
theorem exchange (h : Owned U free held) (hp : (free' ++ l).Perm (free ++ held k)) :
    Owned U free' (Function.update held k l) := by
  have hmem : ∀ a, (a ∈ free' ∨ a ∈ l) ↔ (a ∈ free ∨ a ∈ held k) := fun a => by
    simpa using hp.mem_iff (a := a)
  have hnd : (free' ++ l).Nodup := by
    refine hp.nodup_iff.mpr (List.nodup_append.mpr ⟨h.free_nodup, h.held_nodup k, ?_⟩)
    rintro a ha b hb rfl
    exact h.held_not_free k a hb ha
  obtain ⟨hf', hl, hdis⟩ := List.nodup_append.mp hnd
  -- an id that moved was free or held by `k`, so no other holder has it
  have hother : ∀ k', k' ≠ k → ∀ a ∈ held k', a ∉ free' ∧ a ∉ l := by
    intro k' hk' a ha
    have hno : ¬(a ∈ free ∨ a ∈ held k) := by
      rintro (hc | hc)
      · exact h.held_not_free k' a ha hc
      · exact h.one_holder k' k hk' a ha hc
    have := mt (hmem a).mp hno
    tauto
  refine ⟨hf', fun k' => ?_, fun k' a ha => ?_, fun k₁ k₂ hne a ha hb => ?_, fun a => ?_⟩
  · rcases eq_or_ne k' k with rfl | hk'
    · rwa [Function.update_self]
    · rw [Function.update_of_ne hk']
      exact h.held_nodup k'
  · rcases eq_or_ne k' k with rfl | hk'
    · rw [Function.update_self] at ha
      exact fun hc => hdis a hc a ha rfl
    · rw [Function.update_of_ne hk'] at ha
      exact (hother k' hk' a ha).1
  · rcases eq_or_ne k₁ k with rfl | h₁
    · rw [Function.update_self] at ha
      rw [Function.update_of_ne hne.symm] at hb
      exact (hother k₂ hne.symm a hb).2 ha
    · rw [Function.update_of_ne h₁] at ha
      rcases eq_or_ne k₂ k with rfl | h₂
      · rw [Function.update_self] at hb
        exact (hother k₁ h₁ a ha).2 hb
      · rw [Function.update_of_ne h₂] at hb
        exact h.one_holder k₁ k₂ hne a ha hb
  · rw [h.cover a]
    constructor
    · rintro (hc | ⟨k', hk'⟩)
      · rcases (hmem a).mpr (Or.inl hc) with hc' | hc'
        · exact Or.inl hc'
        · exact Or.inr ⟨k, by rwa [Function.update_self]⟩
      · rcases eq_or_ne k' k with rfl | hne
        · rcases (hmem a).mpr (Or.inr hk') with hc' | hc'
          · exact Or.inl hc'
          · exact Or.inr ⟨k', by rwa [Function.update_self]⟩
        · exact Or.inr ⟨k', by rwa [Function.update_of_ne hne]⟩
    · rintro (hc | ⟨k', hk'⟩)
      · rcases (hmem a).mp (Or.inl hc) with hc' | hc'
        · exact Or.inl hc'
        · exact Or.inr ⟨k, hc'⟩
      · rcases eq_or_ne k' k with rfl | hne
        · rw [Function.update_self] at hk'
          rcases (hmem a).mp (Or.inr hk') with hc' | hc'
          · exact Or.inl hc'
          · exact Or.inr ⟨k', hc'⟩
        · rw [Function.update_of_ne hne] at hk'
          exact Or.inr ⟨k', hk'⟩

end Exchange

end Owned

end Ownership

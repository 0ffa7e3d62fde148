import R9v.Lib.Checked
import Mathlib.Data.List.Induction

/-!
# Loops that may fail

What a loop over a list that succeeds has computed: the result of each round, and what every round keeps.
-/

namespace Checked

open List

variable {α β ε : Type}

/-- A loop over a numbered list that keeps `P` succeeds and ends with `P`. -/
theorem exists_foldlM_zipIdx {P : ℕ → β → Prop} {f : β → α × ℕ → Except ε β} (l : List α)
    (hstep : ∀ i a b, l[i]? = some a → P i b → ∃ b', f b (a, i) = .ok b' ∧ P (i + 1) b') {b : β}
    (hb : P 0 b) : ∃ b', l.zipIdx.foldlM f b = .ok b' ∧ P l.length b' := by
  induction l using List.reverseRecOn with
  | nil => exact ⟨b, rfl, hb⟩
  | append_singleton l a ih =>
    obtain ⟨b₁, hfold, hb₁⟩ := ih fun i a' b' ha hP =>
      hstep i a' b' (by rw [List.getElem?_append_left (List.getElem?_eq_some_iff.mp ha).1, ha]) hP
    obtain ⟨b₂, hlast, hb₂⟩ := hstep l.length a b₁ (by simp) hb₁
    refine ⟨b₂, ?_, by simpa using hb₂⟩
    rw [zipIdx_append, foldlM_append, hfold, ok_bind]
    simp only [Nat.zero_add, zipIdx_cons, zipIdx_nil, foldlM_cons, hlast, ok_bind]
    rfl

theorem mapM_congr {f g : α → Except ε β} {l : List α} (h : ∀ a ∈ l, f a = g a) :
    l.mapM f = l.mapM g := by
  induction l with
  | nil => rfl
  | cons a l ih =>
    obtain ⟨ha, hl⟩ := forall_mem_cons.mp h
    rw [mapM_cons, mapM_cons, ha, ih hl]

theorem getElem?_of_mapM {f : α → Except ε β} {l : List α} {r : List β} (h : l.mapM f = .ok r)
    {i : ℕ} {a : α} (ha : l[i]? = some a) : ∃ b, f a = .ok b ∧ r[i]? = some b := by
  induction l generalizing r i with
  | nil => cases ha
  | cons x l ih =>
    rw [mapM_cons] at h
    simp only [bind_eq_ok, pure_eq_ok] at h
    obtain ⟨b, hb, bs, hbs, rfl⟩ := h
    cases i with
    | zero =>
      obtain rfl := Option.some.inj ha
      exact ⟨b, hb, rfl⟩
    | succ i => exact ih hbs ha

theorem mem_of_mapM {f : α → Except ε β} {l : List α} {r : List β} (h : l.mapM f = .ok r) {b : β}
    (hb : b ∈ r) : ∃ a ∈ l, f a = .ok b := by
  induction l generalizing r with
  | nil =>
    cases h
    cases hb
  | cons x l ih =>
    rw [mapM_cons] at h
    simp only [bind_eq_ok, pure_eq_ok] at h
    obtain ⟨c, hc, bs, hbs, rfl⟩ := h
    rcases mem_cons.mp hb with rfl | hb
    · exact ⟨x, mem_cons_self, hc⟩
    · obtain ⟨a, ha, hf⟩ := ih hbs hb
      exact ⟨a, mem_cons_of_mem x ha, hf⟩

/-- **A loop fails** at its first round that fails. -/
theorem mapM_eq_error_iff {f : α → Except ε β} {l : List α} {e : ε} :
    l.mapM f = .error e ↔ ∃ (i : ℕ) (a : α), l[i]? = some a ∧ f a = .error e ∧
      ∀ j < i, ∀ b, l[j]? = some b → ∃ c, f b = .ok c := by
  induction l with
  | nil =>
    refine ⟨fun h => (by cases h), ?_⟩
    rintro ⟨i, a, ha, -⟩
    cases ha
  | cons x l ih =>
    rw [mapM_cons, bind_eq_error]
    constructor
    · rintro (hx | ⟨c, hc, h⟩)
      · exact ⟨0, x, rfl, hx, fun j hj => absurd hj (Nat.not_lt_zero j)⟩
      · have hl : l.mapM f = .error e := by
          rcases bind_eq_error.mp h with h | ⟨_, -, h⟩
          exacts [h, absurd h (by simp)]
        obtain ⟨i, a, ha, hfa, hfirst⟩ := ih.mp hl
        refine ⟨i + 1, a, ha, hfa, fun j hj b hb => ?_⟩
        cases j with
        | zero =>
          obtain rfl := Option.some.inj hb
          exact ⟨c, hc⟩
        | succ j => exact hfirst j (by omega) b hb
    · rintro ⟨i, a, ha, hfa, hfirst⟩
      cases i with
      | zero =>
        obtain rfl := Option.some.inj ha
        exact .inl hfa
      | succ i =>
        obtain ⟨c, hc⟩ := hfirst 0 (Nat.succ_pos i) x rfl
        have hl := ih.mpr ⟨i, a, ha, hfa, fun j hj b hb => hfirst (j + 1) (by omega) b hb⟩
        exact .inr ⟨c, hc, bind_eq_error.mpr (.inl hl)⟩

theorem map_of_mapM {γ : Type} {f : α → Except ε β} {l : List α} {r : List β}
    (h : l.mapM f = .ok r) {u : α → γ} {v : β → γ} (huv : ∀ a ∈ l, ∀ b, f a = .ok b → v b = u a) :
    r.map v = l.map u := by
  induction l generalizing r with
  | nil =>
    cases h
    rfl
  | cons x l ih =>
    rw [mapM_cons] at h
    simp only [bind_eq_ok, pure_eq_ok] at h
    obtain ⟨b, hb, bs, hbs, rfl⟩ := h
    obtain ⟨hx, hl⟩ := forall_mem_cons.mp huv
    rw [map_cons, map_cons, hx b hb, ih hbs hl]

theorem getElem?_flatten {l : List (List α)} {j i : ℕ} {row : List α} (hrow : l[j]? = some row)
    (hi : i < row.length) : l.flatten[((l.take j).map List.length).sum + i]? = row[i]? := by
  induction l generalizing j with
  | nil => cases hrow
  | cons first l ih =>
    cases j with
    | zero =>
      obtain rfl := Option.some.inj hrow
      simp [getElem?_append_left hi]
    | succ j =>
      have hnext := ih (j := j) (by simpa using hrow)
      rw [take_succ_cons, map_cons, sum_cons, flatten_cons, add_assoc,
        getElem?_append_right (Nat.le_add_right _ _), Nat.add_sub_cancel_left, hnext]

/-- **A loop that collects** what some rounds find. -/
theorem foldlM_collect {ι : Type} {f : ι → Option β} {step : List β → ι → Except ε (List β)}
    {l : List ι} (h : ∀ i ∈ l, ∀ found, step found i = .ok (found ++ (f i).toList)) (found : List β) :
    l.foldlM step found = .ok (found ++ l.filterMap f) := by
  induction l generalizing found with
  | nil => rw [filterMap_nil, append_nil]; rfl
  | cons i l ih =>
    rw [foldlM_cons, h i mem_cons_self, ok_bind,
      ih fun j hj => h j (mem_cons_of_mem i hj), filterMap_cons, append_assoc]
    cases f i <;> rfl

end Checked

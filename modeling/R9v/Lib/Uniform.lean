import Mathlib

/-!
# Independent uniform draws

A draw is a real number strictly between 0 and 1 (`Uniform.unit`), and some draws are
independent (`Uniform.cube`). The probability that each draw is in a set of its own is the
product of the probabilities (`Uniform.cube_pi`), so that a random choice that compares each
draw with a bound is computed by intervals.
-/

open MeasureTheory Set

namespace Uniform

/-- A uniform number strictly between 0 and 1. -/
noncomputable def unit : Measure ℝ := volume.restrict (Ioo 0 1)

/-- Some independent uniform numbers. -/
noncomputable def cube (n : ℕ) : Measure (Fin n → ℝ) := Measure.pi fun _ => unit

instance : IsProbabilityMeasure unit := ⟨by simp [unit]⟩

instance (n : ℕ) : IsProbabilityMeasure (cube n) := by
  unfold cube
  infer_instance

variable {a b : ℝ} {n : ℕ}

theorem unit_Ioc (ha : 0 ≤ a) (hab : a ≤ b) (hb : b ≤ 1) : unit.real (Ioc a b) = b - a := by
  have hae : (Ioc a b ∩ Ioo 0 1 : Set ℝ) =ᵐ[volume] Ioc a b := by
    have hsub : Ioo a b ⊆ Ioc a b ∩ Ioo 0 1 := fun r hr =>
      ⟨⟨hr.1, hr.2.le⟩, ha.trans_lt hr.1, hr.2.trans_le hb⟩
    refine (Filter.EventuallyLE.antisymm ?_ ?_)
    · exact (inter_subset_left : Ioc a b ∩ Ioo 0 1 ⊆ Ioc a b).eventuallyLE
    · exact Ioo_ae_eq_Ioc.symm.le.trans hsub.eventuallyLE
  rw [measureReal_def, unit, Measure.restrict_apply measurableSet_Ioc, measure_congr hae,
    Real.volume_Ioc, ENNReal.toReal_ofReal (sub_nonneg.mpr hab)]

theorem unit_ae : ∀ᵐ r ∂unit, r ∈ Ioo (0 : ℝ) 1 := ae_restrict_mem measurableSet_Ioo

theorem unit_Iio (ha : 0 ≤ a) (ha' : a ≤ 1) : unit.real (Iio a) = a := by
  have hvol : unit.real (Iio a) = unit.real (Ioc 0 a) := by
    have hae : (Iio a : Set ℝ) =ᵐ[unit] Ioo 0 a := by
      filter_upwards [unit_ae] with r hr
      exact propext ⟨fun h => ⟨hr.1, h⟩, fun h => h.2⟩
    have hae' : (Ioo 0 a : Set ℝ) =ᵐ[unit] Ioc 0 a := ae_restrict_of_ae Ioo_ae_eq_Ioc
    rw [measureReal_congr (hae.trans hae')]
  rw [hvol, unit_Ioc le_rfl ha ha', sub_zero]

theorem unit_Ici (ha : 0 ≤ a) (ha' : a ≤ 1) : unit.real (Ici a) = 1 - a := by
  rw [← compl_Iio, measureReal_compl measurableSet_Iio, probReal_univ, unit_Iio ha ha']

/-- **Independent draws** are each in a set of their own with the product of the
probabilities. -/
theorem cube_pi (s : Fin n → Set ℝ) : (cube n).real (univ.pi s) = ∏ i, unit.real (s i) := by
  simp only [measureReal_def, cube, Measure.pi_pi, ENNReal.toReal_prod]

theorem cube_sides (s : ℕ → Set ℝ) :
    (cube n).real {u | ∀ i : Fin n, u i ∈ s i} = ∏ i ∈ Finset.range n, unit.real (s i) := by
  have heq : {u : Fin n → ℝ | ∀ i : Fin n, u i ∈ s i} = univ.pi fun i : Fin n => s i := by
    ext u
    simp
  rw [heq, cube_pi, Finset.prod_range]

/-- The draws before the `i`-th are below bounds, the `i`-th is in a set, and so is the
last. -/
theorem cube_box {i : ℕ} (hi : i < n) {α : ℕ → ℝ} (hα : ∀ j < i, 0 ≤ α j ∧ α j ≤ 1)
    (s t : Set ℝ) :
    (cube (n + 1)).real {u | (∀ j : Fin (n + 1), j.val < i → u j < α j) ∧
      u ⟨i, by omega⟩ ∈ s ∧ u (Fin.last n) ∈ t} =
      (∏ j ∈ Finset.range i, α j) * unit.real s * unit.real t := by
  set side : ℕ → Set ℝ := fun j =>
    if j < i then Iio (α j) else if j = i then s else if j = n then t else univ with hside
  have heq : {u : Fin (n + 1) → ℝ | (∀ j : Fin (n + 1), j.val < i → u j < α j) ∧
      u ⟨i, by omega⟩ ∈ s ∧ u (Fin.last n) ∈ t} = {u | ∀ j : Fin (n + 1), u j ∈ side j} := by
    ext u
    constructor
    · rintro ⟨hlt, hs, ht⟩ j
      simp only [hside]
      split_ifs with h₁ h₂ h₃
      · exact hlt j h₁
      · have hj : j = ⟨i, by omega⟩ := Fin.ext h₂
        rw [hj]
        exact hs
      · obtain rfl : j = Fin.last n := Fin.ext h₃
        exact ht
      · trivial
    · intro h
      refine ⟨fun j hj => ?_, ?_, ?_⟩
      · simpa [hside, hj] using h j
      · simpa [hside] using h ⟨i, by omega⟩
      · simpa [hside, hi.not_gt, hi.ne'] using h (Fin.last n)
  rw [heq, cube_sides, Finset.prod_range_succ, ← Finset.prod_range_mul_prod_Ico _ hi.le,
    Finset.prod_eq_prod_Ico_succ_bot hi]
  have hfirst : ∏ j ∈ Finset.range i, unit.real (side j) = ∏ j ∈ Finset.range i, α j := by
    refine Finset.prod_congr rfl fun j hj => ?_
    have hj := Finset.mem_range.mp hj
    simp only [hside, if_pos hj]
    exact unit_Iio (hα j hj).1 (hα j hj).2
  have hrest : ∏ j ∈ Finset.Ico (i + 1) n, unit.real (side j) = 1 := by
    refine Finset.prod_eq_one fun j hj => ?_
    have hj := Finset.mem_Ico.mp hj
    simp only [hside]
    rw [if_neg (by omega), if_neg (by omega), if_neg (by omega), probReal_univ]
  have hs : side i = s := by simp [hside]
  have ht : side n = t := by simp [hside, hi.not_gt, hi.ne']
  rw [hfirst, hrest, hs, ht, mul_one]

theorem cube_box_last {α : ℕ → ℝ} (hα : ∀ j < n, 0 ≤ α j ∧ α j ≤ 1) (t : Set ℝ) :
    (cube (n + 1)).real {u | (∀ j : Fin (n + 1), j.val < n → u j < α j) ∧ u (Fin.last n) ∈ t} =
      (∏ j ∈ Finset.range n, α j) * unit.real t := by
  set side : ℕ → Set ℝ := fun j => if j < n then Iio (α j) else t with hside
  have heq : {u : Fin (n + 1) → ℝ | (∀ j : Fin (n + 1), j.val < n → u j < α j) ∧
      u (Fin.last n) ∈ t} = {u | ∀ j : Fin (n + 1), u j ∈ side j} := by
    ext u
    constructor
    · rintro ⟨hlt, ht⟩ j
      simp only [hside]
      split_ifs with h
      · exact hlt j h
      · obtain rfl : j = Fin.last n := Fin.ext (by have := j.isLt; simp; omega)
        exact ht
    · intro h
      refine ⟨fun j hj => ?_, ?_⟩
      · simpa [hside, hj] using h j
      · simpa [hside] using h (Fin.last n)
  rw [heq, cube_sides, Finset.prod_range_succ]
  have hfirst : ∏ j ∈ Finset.range n, unit.real (side j) = ∏ j ∈ Finset.range n, α j := by
    refine Finset.prod_congr rfl fun j hj => ?_
    have hj := Finset.mem_range.mp hj
    simp only [hside, if_pos hj]
    exact unit_Iio (hα j hj).1 (hα j hj).2
  have ht : side n = t := by simp [hside]
  rw [hfirst, ht]

/-- The draws before the `i`-th are below bounds, and then the `i`-th decides between a
condition and the last draw. -/
theorem cube_choice {i : ℕ} (hi : i < n) {α : ℕ → ℝ} (hα : ∀ j < i, 0 ≤ α j ∧ α j ≤ 1)
    (hb : 0 ≤ b ∧ b ≤ 1) (c : Prop) [Decidable c] {t : Set ℝ} (ht : MeasurableSet t) :
    (cube (n + 1)).real {u | (∀ j : Fin (n + 1), j.val < i → u j < α j) ∧
      ((u ⟨i, by omega⟩ < b ∧ c) ∨ (b ≤ u ⟨i, by omega⟩ ∧ u (Fin.last n) ∈ t))} =
      (∏ j ∈ Finset.range i, α j) * ((if c then b else 0) + (1 - b) * unit.real t) := by
  set first : Set (Fin (n + 1) → ℝ) := {u | (∀ j : Fin (n + 1), j.val < i → u j < α j) ∧
    u ⟨i, by omega⟩ ∈ (if c then Iio b else ∅) ∧ u (Fin.last n) ∈ univ} with hfirst
  set second : Set (Fin (n + 1) → ℝ) := {u | (∀ j : Fin (n + 1), j.val < i → u j < α j) ∧
    u ⟨i, by omega⟩ ∈ Ici b ∧ u (Fin.last n) ∈ t} with hsecond
  have hunion : {u : Fin (n + 1) → ℝ | (∀ j : Fin (n + 1), j.val < i → u j < α j) ∧
      ((u ⟨i, by omega⟩ < b ∧ c) ∨ (b ≤ u ⟨i, by omega⟩ ∧ u (Fin.last n) ∈ t))} =
      first ∪ second := by
    ext u
    by_cases hc : c
    · simp [hfirst, hsecond, hc, and_or_left]
    · simp [hfirst, hsecond, hc]
  have hdisj : Disjoint first second := by
    rw [Set.disjoint_left]
    rintro u ⟨-, hu, -⟩ ⟨-, hu', -⟩
    by_cases hc : c
    · rw [if_pos hc] at hu
      exact absurd (mem_Iio.mp hu) (not_lt.mpr hu')
    · rw [if_neg hc] at hu
      exact hu
  have hmeas : MeasurableSet second := by
    have hbelow : MeasurableSet {u : Fin (n + 1) → ℝ | ∀ j : Fin (n + 1), j.val < i → u j < α j} := by
      simp only [ofPred_forall]
      exact MeasurableSet.iInter fun j => MeasurableSet.iInter fun _ =>
        measurableSet_lt (measurable_pi_apply j) measurable_const
    exact hbelow.inter ((measurable_pi_apply _ measurableSet_Ici).inter (measurable_pi_apply _ ht))
  rw [hunion, measureReal_union hdisj hmeas, hfirst, hsecond, cube_box hi hα, cube_box hi hα,
    probReal_univ, unit_Ici hb.1 hb.2]
  by_cases hc : c
  · rw [if_pos hc, if_pos hc, unit_Iio hb.1 hb.2]
    ring
  · rw [if_neg hc, if_neg hc, measureReal_empty]
    ring

theorem cube_some {S : Finset ℕ} (hS : ∀ i ∈ S, i < n) (s : ℕ → Set ℝ) :
    (cube n).real {u | ∀ i : Fin n, i.val ∈ S → u i ∈ s i} = ∏ i ∈ S, unit.real (s i) := by
  have heq : {u : Fin n → ℝ | ∀ i : Fin n, i.val ∈ S → u i ∈ s i} =
      {u | ∀ i : Fin n, u i ∈ if i.val ∈ S then s i else univ} := by
    ext u
    refine forall_congr' fun i => ?_
    split_ifs with hi
    · simp [hi]
    · simp [hi]
  have hsub : S ⊆ Finset.range n := fun i hi => Finset.mem_range.mpr (hS i hi)
  rw [heq, @cube_sides n fun i => if i ∈ S then s i else univ, ← Finset.prod_subset hsub]
  · exact Finset.prod_congr rfl fun i hi => by rw [if_pos hi]
  · intro i _ hi
    rw [if_neg hi, probReal_univ]

theorem cube_one {i : ℕ} (hi : i < n) (s : Set ℝ) :
    (cube n).real {u | u ⟨i, hi⟩ ∈ s} = unit.real s := by
  have heq : {u : Fin n → ℝ | u ⟨i, hi⟩ ∈ s} =
      {u | ∀ j : Fin n, j.val ∈ ({i} : Finset ℕ) → u j ∈ s} := by
    ext u
    simp only [mem_ofPred_eq, Finset.mem_singleton]
    constructor
    · rintro h ⟨j, hj⟩ rfl
      exact h
    · intro h
      exact h ⟨i, hi⟩ rfl
  rw [heq, cube_some (by simpa using hi) fun _ => s, Finset.prod_singleton]

theorem cube_ae : ∀ᵐ u ∂cube n, ∀ i, u i ∈ Ioo (0 : ℝ) 1 := by
  rw [ae_all_iff]
  intro i
  have hpos := (measurePreserving_eval (fun _ : Fin n => unit) i).quasiMeasurePreserving
  exact hpos.ae unit_ae

theorem cube_congr {s t : Set (Fin n → ℝ)}
    (h : ∀ u, (∀ i, u i ∈ Ioo (0 : ℝ) 1) → (u ∈ s ↔ u ∈ t)) : (cube n).real s = (cube n).real t := by
  refine measureReal_congr ?_
  filter_upwards [cube_ae] with u hu
  exact propext (h u hu)

/-- An event that is certain when one draw is in a set, and in one more case that has a
probability, is more probable than the set. -/
theorem unit_lt_cube {i : ℕ} {S : Finset ℕ} (hS : ∀ j ∈ S, j < n) (hi : i ∈ S) {A : Set ℝ}
    {s : ℕ → Set ℝ} (hs : ∀ j, MeasurableSet (s j)) (hpos : ∀ j ∈ S, 0 < unit.real (s j))
    (hdisj : Disjoint A (s i)) {T : Set (Fin n → ℝ)}
    (hA : ∀ u, (∀ j, u j ∈ Ioo (0 : ℝ) 1) → u ⟨i, hS i hi⟩ ∈ A → u ∈ T)
    (hbox : ∀ u, (∀ j, u j ∈ Ioo (0 : ℝ) 1) → (∀ j : Fin n, j.val ∈ S → u j ∈ s j) → u ∈ T) :
    unit.real A < (cube n).real T := by
  set one : Set (Fin n → ℝ) := {u | u ⟨i, hS i hi⟩ ∈ A}
  set box : Set (Fin n → ℝ) := {u | ∀ j : Fin n, j.val ∈ S → u j ∈ s j}
  have hmeas : MeasurableSet box := by
    simp only [box, ofPred_forall]
    exact MeasurableSet.iInter fun j => MeasurableSet.iInter fun _ =>
      measurable_pi_apply j (hs j)
  have hdisj' : Disjoint one box := by
    rw [Set.disjoint_left]
    intro u hone hu
    exact Set.disjoint_left.mp hdisj hone (hu ⟨i, hS i hi⟩ hi)
  have hsub : (cube n).real (one ∪ box) ≤ (cube n).real T := by
    have hcongr : (cube n).real (one ∪ box) =
        (cube n).real ((one ∪ box) ∩ {u | ∀ j, u j ∈ Ioo (0 : ℝ) 1}) :=
      cube_congr fun u hu => ⟨fun h => ⟨h, hu⟩, fun h => h.1⟩
    rw [hcongr]
    refine measureReal_mono ?_
    rintro u ⟨hone | hu', hu⟩
    · exact hA u hu hone
    · exact hbox u hu hu'
  rw [measureReal_union hdisj' hmeas, cube_one, cube_some hS] at hsub
  have := Finset.prod_pos hpos
  linarith

/-! ### Rejection -/

section Rejection

variable {ι : Type*} {s : Finset ι} {p q : ι → ℝ}

theorem sum_sub_min (hsum : ∑ i ∈ s, p i = ∑ i ∈ s, q i) :
    ∑ i ∈ s, (q i - min (p i) (q i)) = ∑ i ∈ s, max (p i - q i) 0 := by
  have hmax : ∀ i, max (p i - q i) 0 = p i - min (p i) (q i) := by
    intro i
    rcases le_total (p i) (q i) with h | h
    · rw [max_eq_right (by linarith), min_eq_left h]
      ring
    · rw [max_eq_left (by linarith), min_eq_right h]
  simp only [hmax, Finset.sum_sub_distrib, hsum]

/-- **Rejection sampling.** A value that is proposed with probability `q` and kept with the
ratio of the probabilities, and that is otherwise replaced by one from what `p` has more than
`q`, has the distribution `p`. -/
theorem rejection [DecidableEq ι] (hsum : ∑ i ∈ s, p i = ∑ i ∈ s, q i) {t : ι} (ht : t ∈ s) {f : ℝ}
    (hf : ∑ i ∈ s, max (p i - q i) 0 ≠ 0 → f = max (p t - q t) 0 / ∑ i ∈ s, max (p i - q i) 0) :
    ∑ i ∈ s, ((if i = t then min (p i) (q i) else 0) + (q i - min (p i) (q i)) * f) = p t := by
  rw [Finset.sum_add_distrib, ← Finset.sum_mul, sum_sub_min hsum, Finset.sum_ite_eq' s t, if_pos ht]
  have hreplace : (∑ i ∈ s, max (p i - q i) 0) * f = max (p t - q t) 0 := by
    by_cases hzero : ∑ i ∈ s, max (p i - q i) 0 = 0
    · have hall := (Finset.sum_eq_zero_iff_of_nonneg fun i _ => le_max_right (p i - q i) 0).mp hzero
      rw [hzero, zero_mul, hall t ht]
    · rw [hf hzero, mul_div_cancel₀ _ hzero]
  rw [hreplace]
  rcases le_total (p t) (q t) with h | h
  · rw [min_eq_left h, max_eq_right (by linarith), add_zero]
  · rw [min_eq_right h, max_eq_left (by linarith)]
    ring

end Rejection

end Uniform

import R9v.T0.Verify
import R9v.Lib.Uniform

/-!
# Sampling with exact numbers

The operations of `R9v.T0.Sampling`, computed with real numbers. The token at a uniform draw
has the distribution that it is sampled from (`unit_sample`), since each token has an interval
of draws as long as its probability (`sampleFromDistribution_eq`).
-/

namespace R9v

open Uniform Set

open scoped Classical in
noncomputable instance : Scalar ℝ where
  lt a b := decide (a < b)
  le a b := decide (a ≤ b)
  isFinite _ := true
  min a b := min a b
  max a b := max a b
  abs a := |a|
  exp := Real.exp
  ln := Real.log
  tolerance := 1 / 1000

/-- A distribution on `v` tokens. -/
structure IsDist (v : ℕ) (probs : List ℝ) : Prop where
  length_eq : probs.length = v
  nonneg : ∀ p ∈ probs, 0 ≤ p
  sum_eq : probs.sum = 1

section Numbers

variable {a b : ℝ}

@[simp] theorem lt_real : Scalar.lt a b = true ↔ a < b := decide_eq_true_iff

@[simp] theorem le_real : Scalar.le a b = true ↔ a ≤ b := decide_eq_true_iff

@[simp] theorem lt_real_false : Scalar.lt a b = false ↔ b ≤ a := by
  rw [← Bool.not_eq_true, lt_real, not_lt]

@[simp] theorem le_real_false : Scalar.le a b = false ↔ b < a := by
  rw [← Bool.not_eq_true, le_real, not_le]

@[simp] theorem isFinite_real : Scalar.isFinite a = true := rfl

@[simp] theorem max_real : Scalar.max a b = max a b := rfl

@[simp] theorem min_real : Scalar.min a b = min a b := rfl

theorem foldl_real (l : List ℝ) : l.foldl (· + ·) 0 = l.sum := List.sum_eq_foldl.symm

end Numbers

section Sample

variable {v : ℕ} {probs : List ℝ}

theorem IsDist.getD_nonneg (h : IsDist v probs) (t : ℕ) : 0 ≤ probs.getD t 0 := by
  rw [List.getD_eq_getElem?_getD]
  cases ht : probs[t]? with
  | none => exact le_rfl
  | some p => exact h.nonneg p (List.mem_of_getElem? ht)

theorem sum_range_getD (l : List ℝ) : ∑ t ∈ Finset.range l.length, l.getD t 0 = l.sum := by
  rw [Finset.sum_range, ← Fin.sum_univ_getElem]
  exact Finset.sum_congr rfl fun i _ => by simp

theorem IsDist.sum_range (h : IsDist v probs) : ∑ t ∈ Finset.range v, probs.getD t 0 = 1 := by
  rw [← h.length_eq, sum_range_getD, h.sum_eq]

theorem IsDist.getD_le_one (h : IsDist v probs) (t : ℕ) : probs.getD t 0 ≤ 1 := by
  rcases Nat.lt_or_ge t v with ht | ht
  · rw [← h.sum_range]
    exact Finset.single_le_sum (fun s _ => h.getD_nonneg s) (Finset.mem_range.mpr ht)
  · rw [List.getD_eq_default _ _ (by rw [h.length_eq]; exact ht)]
    exact zero_le_one

theorem IsDist.validate (h : IsDist v probs) (op : String) (seq pos : ℕ) :
    validateDistribution probs op seq pos = .ok () := by
  unfold validateDistribution
  simp only [Checked.bind_eq_ok, Checked.forM_eq_ok, Checked.ensure_eq_ok, foldl_real, h.sum_eq]
  refine ⟨(), fun p hp => ?_, ?_⟩
  · simp [h.nonneg p.1 (List.fst_mem_of_mem_zipIdx hp)]
  · simp [Scalar.tolerance, Scalar.abs]

theorem le_of_reach {r cumsum : ℝ} {tok t : ℕ} (h : reach r cumsum tok probs = some t) :
    tok ≤ t := by
  induction probs generalizing cumsum tok with
  | nil => cases h
  | cons p probs ih =>
    unfold reach at h
    split_ifs at h
    · exact (Option.some.inj h).le
    · exact (Nat.le_succ tok).trans (ih h)

theorem reach_eq_some {r cumsum : ℝ} {tok t : ℕ} (hprobs : ∀ p ∈ probs, 0 ≤ p)
    (hr : cumsum < r) :
    reach r cumsum tok probs = some (tok + t) ↔
      t < probs.length ∧ cumsum + (probs.take t).sum < r ∧
        r ≤ cumsum + (probs.take (t + 1)).sum := by
  induction probs generalizing cumsum tok t with
  | nil => simp [reach]
  | cons p probs ih =>
    obtain ⟨hp, hprobs⟩ := List.forall_mem_cons.mp hprobs
    unfold reach
    by_cases hle : r ≤ cumsum + p
    · rw [if_pos (le_real.mpr hle)]
      cases t with
      | zero => simpa [hr] using hle
      | succ t =>
        refine iff_of_false (by simp) ?_
        rintro ⟨-, hlt, -⟩
        have hnonneg : 0 ≤ (probs.take t).sum :=
          List.sum_nonneg fun a ha => hprobs a (List.mem_of_mem_take ha)
        rw [List.take_succ_cons, List.sum_cons] at hlt
        linarith
    · rw [if_neg (by simpa using hle)]
      cases t with
      | zero =>
        refine iff_of_false ?_ (by simpa using fun _ => not_le.mp hle)
        intro h
        have := le_of_reach h
        omega
      | succ t =>
        rw [show tok + (t + 1) = tok + 1 + t by omega, ih hprobs (not_le.mp hle)]
        simp only [List.length_cons, List.take_succ_cons, List.sum_cons, add_lt_add_iff_right,
          ← add_assoc]

theorem reach_isSome {r cumsum : ℝ} {tok : ℕ} (hr : r ≤ cumsum + probs.sum)
    (hlt : cumsum < r) : ∃ t, reach r cumsum tok probs = some (tok + t) := by
  induction probs generalizing cumsum tok with
  | nil => simp at hr; linarith
  | cons p probs ih =>
    unfold reach
    split_ifs with hle
    · exact ⟨0, rfl⟩
    · rw [List.sum_cons, ← add_assoc] at hr
      obtain ⟨t, ht⟩ := @ih (cumsum + p) (tok + 1) hr (by simpa using hle)
      exact ⟨t + 1, by rw [ht]; congr 1; omega⟩

/-- **Each token has an interval of draws.** -/
theorem sampleFromDistribution_eq (h : IsDist v probs) (hv : v ≤ 2 ^ 32) {r : ℝ}
    (hr : r ∈ Ioo (0 : ℝ) 1) {t : ℕ} :
    sampleFromDistribution probs r = t ↔
      t < v ∧ r ∈ Ioc (probs.take t).sum (probs.take (t + 1)).sum := by
  obtain ⟨s, hs⟩ := @reach_isSome probs r 0 0 (by rw [zero_add, h.sum_eq]; exact hr.2.le) hr.1
  have hmem := (reach_eq_some h.nonneg hr.1).mp hs
  rw [h.length_eq] at hmem
  simp only [zero_add] at hs hmem
  have hsample : sampleFromDistribution probs r = s := by
    unfold sampleFromDistribution
    rw [hs, Option.getD_some, Nat.mod_eq_of_lt (by omega)]
  rw [hsample]
  constructor
  · rintro rfl
    exact hmem
  · intro ht
    have := (@reach_eq_some probs r 0 0 t h.nonneg hr.1).mpr (by
      rw [h.length_eq]
      simpa using ht)
    rw [hs] at this
    simpa using this

theorem take_sum_le (h : ∀ p ∈ probs, 0 ≤ p) (t : ℕ) : (probs.take t).sum ≤ probs.sum := by
  have hsplit := List.sum_take_add_sum_drop probs t
  have hdrop : 0 ≤ (probs.drop t).sum :=
    List.sum_nonneg fun a ha => h a (List.mem_of_mem_drop ha)
  linarith

theorem take_succ_sum (t : ℕ) :
    (probs.take (t + 1)).sum = (probs.take t).sum + probs.getD t 0 := by
  rw [List.take_add_one, List.sum_append, List.getD_eq_getElem?_getD]
  cases probs[t]? <;> simp

/-- **The token at a uniform draw** has the distribution that it is sampled from. -/
theorem unit_interval (h : IsDist v probs) (t : ℕ) :
    unit.real (Ioc (probs.take t).sum (probs.take (t + 1)).sum) = probs.getD t 0 := by
  have hnonneg : 0 ≤ (probs.take t).sum :=
    List.sum_nonneg fun a ha => h.nonneg a (List.mem_of_mem_take ha)
  have hle := take_sum_le h.nonneg (t + 1)
  rw [h.sum_eq] at hle
  rw [take_succ_sum] at hle ⊢
  rw [unit_Ioc hnonneg (by linarith [h.getD_nonneg t]) hle]
  ring

theorem sample_pos (h : IsDist v probs) (hv : v ≤ 2 ^ 32) {r : ℝ} (hr : r ∈ Ioo (0 : ℝ) 1) :
    0 < probs.getD (sampleFromDistribution probs r) 0 := by
  obtain ⟨-, hlt, hle⟩ := (sampleFromDistribution_eq h hv hr).mp rfl
  rw [take_succ_sum] at hle
  linarith

end Sample

end R9v

import R9v.Lib.Checked
import Mathlib.Algebra.Order.Group.Unbundled.Abs
import Mathlib.Data.List.Nodup
import Mathlib.Order.Lattice
import Mathlib.Tactic.Ring

/-!
# Arithmetic progressions

The integers from a first one in equal steps up to a bound, which is below or above it according
to the step (`Progression.terms`), and the slices of a list in the manner of Python, whose places
are such a progression (`Progression.slice`).
-/

namespace Progression

open List

variable {a b k i len : ℤ} {α : Type*}

/-- How far the bound is away in the direction of the step. -/
def gap (a b k : ℤ) : ℤ := if 0 < k then b - a else a - b

/-- The number of terms that stand before the bound. -/
def count (a b k : ℤ) : ℕ := if 0 < gap a b k then ((gap a b k - 1) / |k|).toNat + 1 else 0

/-- The terms that stand before the bound. -/
def terms (a b k : ℤ) : List ℤ := (List.range (count a b k)).map fun n : ℕ => a + n * k

theorem gap_pos_iff : 0 < gap a b k ↔ if 0 < k then a < b else b < a := by
  rw [gap]
  split <;> omega

theorem gap_add (hk : k ≠ 0) : gap (a + k) b k = gap a b k - |k| := by
  rw [gap, gap]
  split
  · rw [abs_of_pos ‹_›]
    ring
  · rw [abs_of_neg (by omega)]
    ring

theorem count_eq_zero (h : gap a b k ≤ 0) : count a b k = 0 := if_neg (not_lt.mpr h)

theorem count_add (hk : k ≠ 0) (h : 0 < gap a b k) : count a b k = count (a + k) b k + 1 := by
  have hpos : 0 < |k| := abs_pos.mpr hk
  rw [count, if_pos h, count, gap_add hk]
  split
  · -- one step less is one quotient less
    have hdiv : (gap a b k - 1) / |k| = (gap a b k - |k| - 1) / |k| + 1 := by
      rw [← Int.add_mul_ediv_right _ 1 hpos.ne']
      congr 1
      ring
    have hnonneg : 0 ≤ (gap a b k - |k| - 1) / |k| := Int.ediv_nonneg (by omega) hpos.le
    omega
  · rw [Int.ediv_eq_zero_of_lt (by omega) (by omega)]
    rfl

theorem count_le (a b k : ℤ) : (count a b k : ℤ) ≤ max 0 (gap a b k) := by
  rw [count]
  split
  · have hdiv : (gap a b k - 1) / |k| ≤ gap a b k - 1 := Int.ediv_le_self _ (by omega)
    omega
  · omega

theorem terms_nil (h : gap a b k ≤ 0) : terms a b k = [] := by
  rw [terms, count_eq_zero h]
  rfl

theorem terms_cons (hk : k ≠ 0) (h : 0 < gap a b k) : terms a b k = a :: terms (a + k) b k := by
  rw [terms, count_add hk h, range_succ_eq_map, map_cons, map_map, terms]
  refine congrArg₂ _ (by simp) (map_congr_left fun n _ => ?_)
  rw [Function.comp_apply, Nat.cast_succ]
  ring

/-- **The terms** are the numbers of the progression that stand before the bound. -/
theorem mem_terms (hk : k ≠ 0) : i ∈ terms a b k ↔ (∃ n : ℕ, i = a + n * k) ∧ 0 < gap i b k := by
  induction hn : count a b k generalizing a with
  | zero =>
    have hgap : gap a b k ≤ 0 := by
      by_contra h
      rw [count, if_pos (not_le.mp h)] at hn
      cases hn
    rw [terms_nil hgap]
    refine iff_of_false not_mem_nil ?_
    rintro ⟨⟨n, rfl⟩, h⟩
    have hle : gap (a + n * k) b k ≤ gap a b k := by
      induction n with
      | zero => simp
      | succ n ih =>
        rw [Nat.cast_succ, add_mul, one_mul, ← add_assoc, gap_add hk] at h ⊢
        have := abs_nonneg k
        exact (sub_le_self _ this).trans (ih (by omega))
    omega
  | succ m ih =>
    have hgap : 0 < gap a b k := by
      by_contra h
      rw [count_eq_zero (not_lt.mp h)] at hn
      cases hn
    rw [terms_cons hk hgap, mem_cons, ih (by rw [count_add hk hgap] at hn; omega)]
    constructor
    · rintro (rfl | ⟨⟨n, rfl⟩, h⟩)
      · exact ⟨⟨0, by simp⟩, hgap⟩
      · exact ⟨⟨n + 1, by rw [Nat.cast_succ]; ring⟩, h⟩
    · rintro ⟨⟨n, rfl⟩, h⟩
      cases n with
      | zero => exact Or.inl (by simp)
      | succ n => exact Or.inr ⟨⟨n, by rw [Nat.cast_succ]; ring⟩, h⟩

theorem length_terms : (terms a b k).length = count a b k := by
  rw [terms, length_map, length_range]

theorem nodup_terms (hk : k ≠ 0) : (terms a b k).Nodup := by
  refine List.Nodup.map (fun m n hmn => ?_) nodup_range
  exact Nat.cast_injective (mul_right_cancel₀ hk (add_left_cancel hmn))

theorem between_of_mem (hk : k ≠ 0) (h : i ∈ terms a b k) :
    if 0 < k then a ≤ i ∧ i < b else b < i ∧ i ≤ a := by
  obtain ⟨⟨n, rfl⟩, hgap⟩ := (mem_terms hk).mp h
  rw [gap_pos_iff] at hgap
  split
  · rw [if_pos ‹_›] at hgap
    exact ⟨le_add_of_nonneg_right (mul_nonneg (Int.natCast_nonneg n) (by omega)), hgap⟩
  · rw [if_neg ‹_›] at hgap
    exact ⟨hgap, add_le_of_nonpos_right (mul_nonpos_of_nonneg_of_nonpos (Int.natCast_nonneg n)
      (by omega))⟩

/-! ### Slices -/

/-- A bound of a slice: it counts from the end if it is negative, and is moved into the range. -/
def bound (len lower upper absent : ℤ) : Option ℤ → ℤ
  | none => absent
  | some i => if i < 0 then max (len + i) lower else min i upper

/-- The places of a slice of a list of some length. -/
def places (len : ℤ) (start stop : Option ℤ) (step : ℤ) : List ℤ :=
  if 0 < step then terms (bound len 0 len 0 start) (bound len 0 len len stop) step
  else terms (bound len (-1) (len - 1) (len - 1) start) (bound len (-1) (len - 1) (-1) stop) step

/-- **A slice of a list**, as in Python. -/
def slice (xs : List α) (start stop : Option ℤ) (step : ℤ) : List α :=
  (places xs.length start stop step).filterMap fun i => xs[i.toNat]?

theorem mem_places {start stop : Option ℤ} (hk : k ≠ 0) (hlen : 0 ≤ len)
    (h : i ∈ places len start stop k) : 0 ≤ i ∧ i < len := by
  rw [places] at h
  by_cases hpos : 0 < k
  · rw [if_pos hpos] at h
    have hi := between_of_mem hk h
    rw [if_pos hpos] at hi
    have hstart : 0 ≤ bound len 0 len 0 start := by
      cases start with
      | none => exact le_rfl
      | some s =>
        rw [bound]
        split <;> omega
    have hstop : bound len 0 len len stop ≤ len := by
      cases stop with
      | none => exact le_rfl
      | some s =>
        rw [bound]
        split <;> omega
    omega
  · rw [if_neg hpos] at h
    have hi := between_of_mem hk h
    rw [if_neg hpos] at hi
    have hstart : bound len (-1) (len - 1) (len - 1) start ≤ len - 1 := by
      cases start with
      | none => exact le_rfl
      | some s =>
        rw [bound]
        split <;> omega
    have hstop : -1 ≤ bound len (-1) (len - 1) (-1) stop := by
      cases stop with
      | none => exact le_rfl
      | some s =>
        rw [bound]
        split <;> omega
    omega

end Progression

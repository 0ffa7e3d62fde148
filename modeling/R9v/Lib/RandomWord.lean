import Mathlib.Algebra.BigOperators.Ring.Finset
import Mathlib.Data.Real.Basic

/-!
# Words that are drawn letter by letter

The next letter of a word is drawn from a distribution that depends on the word so far
(`RandomWord.mean`). A value that depends only on a first part of the word is averaged over
that part only (`RandomWord.mean_add`, `RandomWord.mean_const`).
-/

open Finset

namespace RandomWord

variable {v : ℕ} {q : List ℕ → ℕ → ℝ}

/-- The mean of `g` over the words that continue `x` by `n` letters. -/
def mean (v : ℕ) (q : List ℕ → ℕ → ℝ) : ℕ → List ℕ → (List ℕ → ℝ) → ℝ
  | 0, x, g => g x
  | n + 1, x, g => ∑ t ∈ range v, q x t * mean v q n (x ++ [t]) g

/-- The words that continue `x`, all of whose letters may be drawn. -/
inductive Continues (v : ℕ) (q : List ℕ → ℕ → ℝ) (x : List ℕ) : ℕ → List ℕ → Prop
  | refl : Continues v q x 0 x
  | snoc {n : ℕ} {y : List ℕ} {t : ℕ} : Continues v q x n y → t < v → q y t ≠ 0 →
      Continues v q x (n + 1) (y ++ [t])

namespace Continues

variable {n : ℕ} {x y : List ℕ} {t : ℕ}

theorem cons (h : Continues v q (x ++ [t]) n y) (ht : t < v) (hq : q x t ≠ 0) :
    Continues v q x (n + 1) y := by
  induction h with
  | refl => exact .snoc .refl ht hq
  | snoc _ ht' hq' ih => exact .snoc ih ht' hq'

theorem trans {m : ℕ} {z : List ℕ} (h : Continues v q x m y) (h' : Continues v q y n z) :
    Continues v q x (m + n) z := by
  induction h' with
  | refl => exact h
  | snoc _ ht hq ih => exact .snoc ih ht hq

theorem length_eq (h : Continues v q x n y) : y.length = x.length + n := by
  induction h with
  | refl => rfl
  | snoc _ _ _ ih => rw [List.length_append, ih, List.length_singleton]; omega

theorem isPrefix (h : Continues v q x n y) : x <+: y := by
  induction h with
  | refl => exact List.prefix_rfl
  | snoc _ _ _ ih => exact ih.trans (List.prefix_append _ _)

theorem lt (h : Continues v q x n y) (hx : ∀ t ∈ x, t < v) : ∀ t ∈ y, t < v := by
  induction h with
  | refl => exact hx
  | snoc _ ht _ ih =>
    intro s hs
    rcases List.mem_append.mp hs with hs | hs
    · exact ih s hs
    · rwa [List.mem_singleton.mp hs]

theorem letter (h : Continues v q x n y) {j : ℕ} (hj : x.length ≤ j) (hj' : j < y.length) :
    q (y.take j) y[j] ≠ 0 := by
  induction h with
  | refl => omega
  | @snoc n y t hy ht hq ih =>
    rcases Nat.lt_or_ge j y.length with hlt | hge
    · rw [List.take_append_of_le_length hlt.le, List.getElem_append_left hlt]
      exact ih hlt
    · obtain rfl : j = y.length := by
        rw [List.length_append, List.length_singleton] at hj'
        omega
      simpa using hq

end Continues

variable {n : ℕ} {x : List ℕ} {g g' : List ℕ → ℝ}

theorem mean_congr (h : ∀ y, Continues v q x n y → g y = g' y) :
    mean v q n x g = mean v q n x g' := by
  induction n generalizing x with
  | zero => exact h x .refl
  | succ n ih =>
    refine sum_congr rfl fun t ht => ?_
    by_cases hq : q x t = 0
    · rw [hq, zero_mul, zero_mul]
    · rw [ih fun y hy => h y (hy.cons (mem_range.mp ht) hq)]

theorem mean_add (m n : ℕ) (x : List ℕ) (g : List ℕ → ℝ) :
    mean v q (m + n) x g = mean v q m x fun y => mean v q n y g := by
  induction m generalizing x with
  | zero => rw [Nat.zero_add]; rfl
  | succ m ih =>
    rw [Nat.add_right_comm]
    exact sum_congr rfl fun t _ => by rw [ih]

theorem mean_const (hq : ∀ x, ∑ t ∈ range v, q x t = 1) (c : ℝ) :
    mean v q n x (fun _ => c) = c := by
  induction n generalizing x with
  | zero => rfl
  | succ n ih =>
    simp only [mean, ih]
    rw [← sum_mul, hq, one_mul]

theorem mean_mul (c : ℝ) : mean v q n x (fun y => g y * c) = mean v q n x g * c := by
  induction n generalizing x with
  | zero => rfl
  | succ n ih =>
    simp only [mean, ih]
    rw [sum_mul]
    exact sum_congr rfl fun t _ => by rw [mul_assoc]

end RandomWord

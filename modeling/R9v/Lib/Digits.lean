import R9v.Lib.Checked
import Mathlib.Data.Nat.Digits.Defs

/-!
# Digits of a fixed number

A number below `b ^ n` is a list of `n` digits below `b`, and the other way round
(`Digits.ofDigits_split`, `Digits.split_ofDigits`). Digits of a base that is a power of two are put
together with shifts (`Digits.foldl_or_eq`) and taken apart with shifts and masks (`Digits.split_eq_map`).
-/

namespace Digits

open List

/-- The lowest digits of a number, the lowest one first. -/
def split (b : ℕ) : ℕ → ℕ → List ℕ
  | 0, _ => []
  | n + 1, x => x % b :: split b n (x / b)

attribute [grind =] split

variable {b n x : ℕ}

@[simp] theorem length_split (b n x : ℕ) : (split b n x).length = n := by
  induction n generalizing x with
  | zero => rfl
  | succ n ih => exact congrArg (· + 1) (ih (x / b))

theorem lt_of_mem_split (hb : 0 < b) {d : ℕ} (h : d ∈ split b n x) : d < b := by
  induction n generalizing x with
  | zero => exact absurd h not_mem_nil
  | succ n ih =>
    rcases mem_cons.mp h with rfl | h
    · exact Nat.mod_lt x hb
    · exact ih h

/-- **The digits of a number** make up the number. -/
theorem ofDigits_split (b n x : ℕ) : Nat.ofDigits b (split b n x) = x % b ^ n := by
  induction n generalizing x with
  | zero => rw [Nat.pow_zero, Nat.mod_one]; rfl
  | succ n ih => rw [split, Nat.ofDigits_cons, ih, Nat.pow_succ', Nat.mod_mul]

/-- **Digits** are those of the number they make up. -/
theorem split_ofDigits {l : List ℕ} (h : ∀ d ∈ l, d < b) : split b l.length (Nat.ofDigits b l) = l := by
  induction l with
  | nil => rfl
  | cons d l ih =>
    have hd := h d mem_cons_self
    have hb : 0 < b := Nat.zero_lt_of_lt hd
    rw [length_cons, split, Nat.ofDigits_cons, Nat.add_mul_mod_self_left, Nat.mod_eq_of_lt hd,
      Nat.add_mul_div_left _ _ hb, Nat.div_eq_of_lt hd, Nat.zero_add,
      ih fun d' hd' => h d' (mem_cons_of_mem d hd')]

theorem ofDigits_lt {l : List ℕ} (hb : 1 < b) (h : ∀ d ∈ l, d < b) : Nat.ofDigits b l < b ^ l.length :=
  Nat.ofDigits_lt_base_pow_length hb h

theorem split_eq_map (b n x : ℕ) : split b n x = (List.range n).map fun i => x / b ^ i % b := by
  induction n generalizing x with
  | zero => rfl
  | succ n ih =>
    rw [split, ih, range_succ_eq_map, map_cons, map_map, Nat.pow_zero, Nat.div_one]
    refine congrArg _ (map_congr_left fun i _ => ?_)
    rw [Function.comp_apply, Nat.pow_succ', Nat.div_div_eq_div_mul]

theorem split_two_pow (w n x : ℕ) :
    split (2 ^ w) n x = (List.range n).map fun i => x >>> (i * w) &&& (2 ^ w - 1) := by
  rw [split_eq_map]
  refine map_congr_left fun i _ => ?_
  rw [Nat.shiftRight_eq_div_pow, Nat.and_two_pow_sub_one_eq_mod, ← Nat.pow_mul, Nat.mul_comm]

/-- **Digits of a power of two** are put together with shifts. -/
theorem foldl_or_eq {w : ℕ} {f : ℕ → ℕ} (h : ∀ i < n, f i < 2 ^ w) :
    (List.range n).foldl (fun acc i => acc ||| f i <<< (i * w)) 0 =
      Nat.ofDigits (2 ^ w) ((List.range n).map f) := by
  induction n with
  | zero => rfl
  | succ n ih =>
    have hdigits : ∀ d ∈ (List.range n).map f, d < 2 ^ w := by
      rintro d hd
      obtain ⟨i, hi, rfl⟩ := mem_map.mp hd
      exact h i ((mem_range.mp hi).trans (Nat.lt_succ_self n))
    have hlt : Nat.ofDigits (2 ^ w) ((List.range n).map f) < 2 ^ (n * w) := by
      rcases Nat.eq_zero_or_pos w with rfl | hw
      · -- digits below one are zero
        have hzero : (List.range n).map f = List.replicate n 0 :=
          eq_replicate_iff.mpr ⟨by simp, fun d hd => Nat.lt_one_iff.mp (hdigits d hd)⟩
        rw [hzero, Nat.ofDigits_replicate_zero]
        exact Nat.two_pow_pos _
      · have hlt := ofDigits_lt (Nat.one_lt_two_pow hw.ne') hdigits
        rwa [length_map, length_range, ← Nat.pow_mul, Nat.mul_comm] at hlt
    rw [range_succ, foldl_append, foldl_cons, foldl_nil,
      ih fun i hi => h i (hi.trans (Nat.lt_succ_self n)), Nat.or_comm, ← Nat.shiftLeft_add_eq_or_of_lt hlt,
      map_append, Nat.ofDigits_append, map_singleton, Nat.ofDigits_singleton, length_map,
      length_range, Nat.shiftLeft_eq, ← Nat.pow_mul, Nat.mul_comm w n, Nat.mul_comm (f n),
      Nat.add_comm]

end Digits

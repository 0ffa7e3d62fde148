import R9v.Lib.Checked
import Mathlib.Algebra.BigOperators.Group.List.Basic
import Mathlib.Algebra.BigOperators.Ring.List
import Mathlib.Algebra.Order.BigOperators.Group.List

/-!
# Areas laid end to end

An arena is divided by laying areas of given sizes one after the other
(`Layout.start`), and an area of equal cells by laying its cells one after the
other. Two different cells are then disjoint, whether they lie in one area or in
two (`Layout.cell_disjoint`), and every cell ends before the areas do
(`Layout.cell_le_sum`).

The sizes are added up in machine words, by a loop that stops when the sum does
not fit; `Layout.foldlM_sum_eq_ok` says that such a loop computes the sum exactly
when the sum fits.
-/

namespace Layout

open Checked List

/-! ### Checked sums -/

/-- **A checked sum** returns the sum exactly when the sum is below the bound. -/
theorem foldlM_sum_eq_ok {ε α : Type} {l : List α} {f : α → ℕ} {bound : ℕ}
    {step : ℕ → α → Except ε ℕ}
    (hstep : ∀ a ∈ l, ∀ t < bound, ∀ t', step t a = .ok t' ↔ t + f a < bound ∧ t + f a = t')
    {t₀ t : ℕ} (h₀ : t₀ < bound) :
    l.foldlM step t₀ = .ok t ↔ t₀ + (l.map f).sum < bound ∧ t₀ + (l.map f).sum = t := by
  induction l generalizing t₀ with
  | nil => simpa using fun _ => h₀
  | cons a l ih =>
    have htail := fun a' ha' => hstep a' (mem_cons_of_mem a ha')
    rw [foldlM_cons, bind_eq_ok, map_cons, sum_cons, ← Nat.add_assoc]
    constructor
    · rintro ⟨t₁, h₁, h⟩
      obtain ⟨hlt, rfl⟩ := (hstep a mem_cons_self _ h₀ _).mp h₁
      exact (ih htail hlt).mp h
    · intro h
      have hlt : t₀ + f a < bound := by omega
      exact ⟨_, (hstep a mem_cons_self _ h₀ _).mpr ⟨hlt, rfl⟩, (ih htail hlt).mpr h⟩

theorem mul_add_eq_ok {ε : Type} {w a b t t' : ℕ} {e e' : ε} :
    (okOr (mul w a b) e >>= fun v => okOr (add w t v) e') = .ok t' ↔
      t + a * b < 2 ^ w ∧ t + a * b = t' := by
  simp only [bind_eq_ok, okOr_eq_ok, mul_eq_some, add_eq_some]
  constructor
  · rintro ⟨_, ⟨-, rfl⟩, h⟩
    exact h
  · rintro ⟨h, rfl⟩
    exact ⟨_, ⟨by omega, rfl⟩, h, rfl⟩

theorem foldlM_sum_zero_eq_ok {ε α : Type} {l : List α} (f : α → ℕ) {w : ℕ}
    {step : ℕ → α → Except ε ℕ}
    (hstep : ∀ a ∈ l, ∀ t < 2 ^ w, ∀ t', step t a = .ok t' ↔ t + f a < 2 ^ w ∧ t + f a = t')
    {t : ℕ} :
    l.foldlM step 0 = .ok t ↔ (l.map f).sum < 2 ^ w ∧ (l.map f).sum = t := by
  simpa using foldlM_sum_eq_ok hstep (Nat.two_pow_pos w)

theorem sum_map_ite {α : Type} (l : List α) (p : α → Bool) (f g : α → ℕ) :
    (l.map fun a => if p a then f a else g a).sum =
      ((l.filter p).map f).sum + ((l.filter fun a => !p a).map g).sum := by
  induction l with
  | nil => rfl
  | cons a l ih =>
    by_cases h : p a
    · simp [h, ih, Nat.add_assoc]
    · simp [h, ih, Nat.add_left_comm]

/-! ### Areas -/

variable {sizes : List ℕ} {i j n : ℕ}

/-- Where the `i`-th area starts. -/
def start (sizes : List ℕ) (i : ℕ) : ℕ := (sizes.take i).sum

theorem start_succ (h : sizes[i]? = some n) : start sizes (i + 1) = start sizes i + n := by
  rw [start, start, take_add_one, h, sum_append]
  simp

theorem start_mono (h : i ≤ j) : start sizes i ≤ start sizes j :=
  ((take_sublist_take_left h).sum_le_sum fun _ _ => Nat.zero_le _)

theorem start_add_le_start (h : sizes[i]? = some n) (hij : i < j) :
    start sizes i + n ≤ start sizes j := by
  rw [← start_succ h]
  exact start_mono hij

theorem start_add_le_sum (h : sizes[i]? = some n) : start sizes i + n ≤ sizes.sum := by
  obtain ⟨hlt, -⟩ := List.getElem?_eq_some_iff.mp h
  simpa [start] using start_add_le_start h hlt

/-! ### Cells -/

section Cells

variable {c d k l : ℕ} {m : ℕ}

theorem cell_le_sum (h : sizes[i]? = some n) (hk : (k + 1) * c ≤ n) :
    start sizes i + k * c + c ≤ sizes.sum := by
  have := start_add_le_sum h
  rw [Nat.add_mul, Nat.one_mul] at hk
  omega

/-- **Two different cells are disjoint**, whatever the sizes of their areas. -/
theorem cell_disjoint (hi : sizes[i]? = some n) (hj : sizes[j]? = some m)
    (hk : (k + 1) * c ≤ n) (hl : (l + 1) * d ≤ m) (hcd : i = j → c = d)
    (hne : i ≠ j ∨ k ≠ l) :
    start sizes i + k * c + c ≤ start sizes j + l * d ∨
      start sizes j + l * d + d ≤ start sizes i + k * c := by
  rw [Nat.add_mul, Nat.one_mul] at hk hl
  rcases lt_trichotomy i j with hij | rfl | hij
  · have := start_add_le_start hi hij
    exact Or.inl (by omega)
  · obtain rfl := hcd rfl
    -- within one area the cells follow each other
    rcases lt_trichotomy k l with hkl | rfl | hkl
    · have := Nat.mul_le_mul_right c (Nat.succ_le_of_lt hkl)
      rw [Nat.succ_mul] at this
      exact Or.inl (by omega)
    · exact absurd hne (by simp)
    · have := Nat.mul_le_mul_right c (Nat.succ_le_of_lt hkl)
      rw [Nat.succ_mul] at this
      exact Or.inr (by omega)
  · have := start_add_le_start hj hij
    exact Or.inr (by omega)

end Cells

end Layout

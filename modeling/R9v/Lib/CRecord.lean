import Mathlib.Data.Nat.Basic
import Mathlib.Tactic.Linarith

/-!
# The layout of C records

A C compiler places the members of a record in the order of their declaration, each at the
next multiple of its alignment, and rounds the size of the record up to the largest alignment
(`CRecord.offsets`, `CRecord.size`, `CRecord.alignment`). Offsets that are given in advance are
those of the compiler exactly when every member starts less than its alignment after the end of
the one before it (`CRecord.offsetsFrom_eq_iff`). Members with no padding between them are the
simplest case (`CRecord.PackedFrom`).
-/

namespace CRecord

open List

/-! ### Rounding -/

/-- The bytes that are missing to a multiple of `a`. -/
def pad (n a : ℕ) : ℕ := if n % a = 0 then 0 else a - n % a

/-- The next multiple of `a`. -/
def roundUp (n a : ℕ) : ℕ := n + pad n a

section Rounding

variable {n m a : ℕ}

@[simp] theorem pad_eq_zero (h : n % a = 0) : pad n a = 0 := if_pos h

theorem pad_lt (ha : 0 < a) : pad n a < a := by
  unfold pad
  split_ifs with h
  · exact ha
  · omega

theorem roundUp_mod (ha : 0 < a) : roundUp n a % a = 0 := by
  have hlt := Nat.mod_lt n ha
  unfold roundUp pad
  split_ifs with h
  · exact h
  · have hsum : n + (a - n % a) = a * (n / a + 1) := by
      have := Nat.div_add_mod n a
      rw [Nat.mul_add, Nat.mul_one]
      omega
    rw [hsum, Nat.mul_mod_right]

/-- **The next multiple** is the only one that is less than `a` away. -/
theorem roundUp_eq_iff (ha : 0 < a) (hm : m % a = 0) : roundUp n a = m ↔ n ≤ m ∧ m < n + a := by
  have hlt : pad n a < a := pad_lt ha
  have hr : n ≤ roundUp n a ∧ roundUp n a < n + a :=
    ⟨Nat.le_add_right _ _, Nat.add_lt_add_left hlt n⟩
  constructor
  · rintro rfl
    exact hr
  · rintro ⟨hle, hlt'⟩
    obtain ⟨k, hk⟩ := Nat.dvd_of_mod_eq_zero (roundUp_mod (n := n) ha)
    obtain ⟨l, hl⟩ := Nat.dvd_of_mod_eq_zero hm
    rw [hk] at hr ⊢
    rw [hl] at hle hlt' ⊢
    have h₁ : k < l + 1 := Nat.lt_of_mul_lt_mul_left (a := a) (by rw [Nat.mul_add]; omega)
    have h₂ : l < k + 1 := Nat.lt_of_mul_lt_mul_left (a := a) (by rw [Nat.mul_add]; omega)
    rw [show k = l by omega]

end Rounding

/-! ### Records -/

/-- The size and the alignment of a member. -/
structure Member where
  size : ℕ
  align : ℕ
  deriving DecidableEq

/-- Where the members are placed from `n` on. -/
def offsetsFrom : ℕ → List Member → List ℕ
  | _, [] => []
  | n, m :: ms => roundUp n m.align :: offsetsFrom (roundUp n m.align + m.size) ms

/-- Where the last of the members ends. -/
def endFrom : ℕ → List Member → ℕ
  | n, [] => n
  | n, m :: ms => endFrom (roundUp n m.align + m.size) ms

attribute [grind =] offsetsFrom endFrom

def offsets (ms : List Member) : List ℕ := offsetsFrom 0 ms

def alignment (ms : List Member) : ℕ := (ms.map (·.align)).foldl max 1

def size (ms : List Member) : ℕ := roundUp (endFrom 0 ms) (alignment ms)

/-- Every member starts after the end of the one before, by less than its alignment. -/
def SnugFrom : ℕ → List (ℕ × Member) → Prop
  | _, [] => True
  | n, (o, m) :: ps => n ≤ o ∧ o < n + m.align ∧ SnugFrom (o + m.size) ps

/-- Where the last of the placed members ends. -/
def lastEnd : ℕ → List (ℕ × Member) → ℕ
  | n, [] => n
  | _, (o, m) :: ps => lastEnd (o + m.size) ps

attribute [grind =] SnugFrom lastEnd

section Records

variable {n a : ℕ} {ps : List (ℕ × Member)} {ms : List Member}

/-- **Offsets given in advance** are those of the compiler exactly when they are snug. -/
theorem offsetsFrom_eq_iff (hps : ∀ p ∈ ps, 0 < p.2.align ∧ p.1 % p.2.align = 0) :
    offsetsFrom n (ps.map (·.2)) = ps.map (·.1) ↔ SnugFrom n ps := by
  induction ps generalizing n with
  | nil => simp [offsetsFrom, SnugFrom]
  | cons p ps ih =>
    obtain ⟨hpos, hmod⟩ := hps p mem_cons_self
    have ih' := fun k => ih (n := k) fun q hq => hps q (mem_cons_of_mem p hq)
    have hround : roundUp n p.2.align = p.1 ↔ n ≤ p.1 ∧ p.1 < n + p.2.align :=
      roundUp_eq_iff hpos hmod
    simp only [map_cons, offsetsFrom, List.cons.injEq, SnugFrom, ← and_assoc]
    constructor
    · rintro ⟨ho, hrest⟩
      rw [ho] at hrest
      exact ⟨hround.mp ho, (ih' _).mp hrest⟩
    · rintro ⟨ho, hrest⟩
      refine ⟨hround.mpr ho, ?_⟩
      rw [hround.mpr ho]
      exact (ih' _).mpr hrest

theorem endFrom_of_snug (hps : ∀ p ∈ ps, p.1 % p.2.align = 0) (h : SnugFrom n ps) :
    endFrom n (ps.map (·.2)) = lastEnd n ps := by
  induction ps generalizing n with
  | nil => rfl
  | cons p ps ih =>
    obtain ⟨hle, hlt, hrest⟩ := h
    have hround : roundUp n p.2.align = p.1 :=
      (roundUp_eq_iff (by omega) (hps p mem_cons_self)).mpr ⟨hle, hlt⟩
    simp only [map_cons, endFrom, lastEnd, hround]
    exact ih (fun q hq => hps q (mem_cons_of_mem p hq)) hrest

/-! ### Without padding -/

/-- Every member starts where the one before ends. -/
def PackedFrom : ℕ → List (ℕ × Member) → Prop
  | _, [] => True
  | n, (o, m) :: ps => o = n ∧ PackedFrom (o + m.size) ps

theorem PackedFrom.snug (hps : ∀ p ∈ ps, 0 < p.2.align) (h : PackedFrom n ps) : SnugFrom n ps := by
  induction ps generalizing n with
  | nil => trivial
  | cons p ps ih =>
    obtain ⟨rfl, hrest⟩ := h
    have hpos := hps p mem_cons_self
    exact ⟨le_rfl, by omega, ih (fun q hq => hps q (mem_cons_of_mem p hq)) hrest⟩

theorem PackedFrom.lastEnd_eq (h : PackedFrom n ps) :
    lastEnd n ps = n + (ps.map (·.2.size)).sum := by
  induction ps generalizing n with
  | nil => rfl
  | cons p ps ih =>
    obtain ⟨rfl, hrest⟩ := h
    rw [lastEnd, ih hrest, map_cons, sum_cons, Nat.add_assoc]

theorem PackedFrom.le_start (h : PackedFrom n ps) : ∀ p ∈ ps, n ≤ p.1 := by
  induction ps generalizing n with
  | nil => simp
  | cons p ps ih =>
    obtain ⟨rfl, hrest⟩ := h
    rintro q hq
    rcases mem_cons.mp hq with rfl | hq
    · exact le_rfl
    · exact (Nat.le_add_right _ _).trans (ih hrest q hq)

end Records

end CRecord

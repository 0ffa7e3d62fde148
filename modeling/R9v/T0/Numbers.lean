import R9v.T0.Postprocess
import Mathlib.Algebra.Order.Field.Rat
import Mathlib.Tactic.Positivity

/-!
# Numbers that are rounded

The numbers of the device, as rationals with two infinities and a value that is no number, where
every operation is exact up to a rounding (`Num`). The rounding is a parameter, and so are the
exponential and the logarithm. What the filters of `R9v.T0.Postprocess` rely on (`Lawful`) holds of
these numbers (`Num.lawful`).
-/

namespace R9v

open Scalar

/-! ### What the filters rely on -/

/-- A number that is neither infinite nor no number at all. -/
structure IsReal {F : Type} [Logit F] (a : F) : Prop where
  isNaN : Logit.isNaN a = false
  lower : lt Logit.negInf a = true
  upper : lt a Logit.posInf = true

/-- The laws of the numbers. -/
structure Lawful (F : Type) [Logit F] : Prop where
  ok_of_le : ∀ {a b : F}, le a b = true → Logit.isNaN a = false ∧ Logit.isNaN b = false
  lt_iff : ∀ {a b : F}, lt a b = true ↔ le a b = true ∧ le b a = false
  eq_iff : ∀ {a b : F}, Logit.eq a b = true ↔ le a b = true ∧ le b a = true
  le_total : ∀ {a b : F}, Logit.isNaN a = false → Logit.isNaN b = false →
    le a b = true ∨ le b a = true
  le_trans : ∀ {a b c : F}, le a b = true → le b c = true → le a c = true
  le_neg : ∀ a b : F, le (-a) (-b) = le b a
  negInf_le : ∀ {a : F}, Logit.isNaN a = false → le Logit.negInf a = true
  le_posInf : ∀ {a : F}, Logit.isNaN a = false → le a Logit.posInf = true
  isNaN_zero : Logit.isNaN (0 : F) = false
  le_max : ∀ {a b : F}, Logit.isNaN a = false → Logit.isNaN b = false →
    le a (Scalar.max a b) = true ∧ le b (Scalar.max a b) = true ∧
      (Scalar.max a b = a ∨ Scalar.max a b = b)
  sub_self : ∀ {a : F}, IsReal a → a - a = 0
  exp_zero : exp (0 : F) = 1
  exp_nonneg : ∀ {a m : F}, IsReal a → IsReal m → le a m = true → le 0 (exp (a - m)) = true
  le_add : ∀ {a b : F}, le 0 a = true → le 0 b = true → le a (a + b) = true ∧ le b (a + b) = true
  exp_mono : ∀ {a b m s : F}, IsReal a → IsReal b → IsReal m → le a b = true → le b m = true →
    isFinite s = true → le 1 s = true →
      le (exp (a - m) * (1 / s)) (exp (b - m) * (1 / s)) = true

namespace Lawful

variable {F : Type} [Logit F] (laws : Lawful F)

include laws

theorem lt_irrefl {x : F} (h : lt x x = true) : False := by
  obtain ⟨hle, hno⟩ := laws.lt_iff.mp h
  rw [hle] at hno
  cases hno

theorem not_le_of_lt {x y : F} (h : lt x y = true) (hle : le y x = true) : False := by
  rw [(laws.lt_iff.mp h).2] at hle
  cases hle

theorem le_of_not_lt {x y : F} (hx : Logit.isNaN x = false)
    (hy : Logit.isNaN y = false) (h : ¬lt x y = true) : le y x = true := by
  rcases laws.le_total hx hy with hle | hle
  · by_contra hno
    rw [Bool.not_eq_true] at hno
    exact h (laws.lt_iff.mpr ⟨hle, hno⟩)
  · exact hle

theorem lt_of_lt_of_le {x y z : F} (h : lt x y = true) (h' : le y z = true) :
    lt x z = true := by
  obtain ⟨hxy, hyx⟩ := laws.lt_iff.mp h
  refine laws.lt_iff.mpr ⟨laws.le_trans hxy h', ?_⟩
  rw [← Bool.not_eq_true] at hyx ⊢
  exact fun hzx => hyx (laws.le_trans h' hzx)

theorem lt_of_le_of_lt {x y z : F} (h : le x y = true) (h' : lt y z = true) :
    lt x z = true := by
  obtain ⟨hyz, hzy⟩ := laws.lt_iff.mp h'
  refine laws.lt_iff.mpr ⟨laws.le_trans h hyz, ?_⟩
  rw [← Bool.not_eq_true] at hzy ⊢
  exact fun hzx => hzy (laws.le_trans hzx h)

end Lawful

/-! ### The numbers -/

/-- How numbers are rounded, and the functions that are not of arithmetic. The numbers that can be
represented are those that the rounding keeps, and their opposites are among them. -/
structure Arithmetic where
  round : ℚ → ℚ
  mono : Monotone round
  idem : ∀ q, round (round q) = round q
  round_neg : ∀ q, round q = q → round (-q) = -q
  round_zero : round 0 = 0
  round_one : round 1 = 1
  exp : ℚ → ℚ
  exp_mono : Monotone exp
  exp_zero : exp 0 = 1
  exp_nonneg : ∀ q, 0 ≤ exp q
  ln : ℚ → ℚ

/-- Exact numbers, with a function of the shape of an exponential. -/
def Arithmetic.exact : Arithmetic where
  round q := q
  mono := monotone_id
  idem _ := rfl
  round_neg _ _ := rfl
  round_zero := rfl
  round_one := rfl
  exp q := if 0 ≤ q then 1 + q else 1 / (1 - q)
  exp_mono := by
    intro p q hpq
    dsimp only
    split_ifs with hp hq
    · linarith
    · exact absurd (hp.trans hpq) hq
    · rw [div_le_iff₀ (by linarith)]
      nlinarith
    · exact one_div_le_one_div_of_le (by linarith) (by linarith)
  exp_zero := by norm_num
  exp_nonneg q := by
    split_ifs with hq
    · linarith
    · exact (one_div_pos.mpr (by linarith)).le
  ln q := q - 1

/-- The numbers of an arithmetic. -/
inductive Num (A : Arithmetic)
  | nan
  | negInf
  | fin (q : ℚ) (h : A.round q = q)
  | posInf
  deriving DecidableEq

namespace Num

variable {A : Arithmetic}

/-- The number next to a rational. -/
def ofRat (q : ℚ) : Num A := fin (A.round q) (A.idem q)

def le : Num A → Num A → Bool
  | nan, _ | _, nan => false
  | negInf, _ | _, posInf => true
  | fin a _, fin b _ => decide (a ≤ b)
  | _, _ => false

def isNaN : Num A → Bool
  | nan => true
  | _ => false

def neg : Num A → Num A
  | nan => nan
  | negInf => posInf
  | fin a h => fin (-a) (A.round_neg a h)
  | posInf => negInf

def add : Num A → Num A → Num A
  | fin a _, fin b _ => ofRat (a + b)
  | nan, _ | _, nan | negInf, posInf | posInf, negInf => nan
  | negInf, _ | _, negInf => negInf
  | posInf, _ | _, posInf => posInf

/-- The sign of a number. -/
def sign : Num A → ℤ
  | nan => 0
  | negInf => -1
  | fin a _ => if 0 < a then 1 else if a < 0 then -1 else 0
  | posInf => 1

/-- An infinity of some sign; there is none without a sign. -/
def infinity (s : ℤ) : Num A := if 0 < s then posInf else if s < 0 then negInf else nan

def mul : Num A → Num A → Num A
  | fin a _, fin b _ => ofRat (a * b)
  | a, b => infinity (a.sign * b.sign)

/-- The quotient. A zero has no sign here, and counts as positive where an infinity is divided. -/
def div : Num A → Num A → Num A
  | fin a h, fin b _ => if b = 0 then infinity (fin a h : Num A).sign else ofRat (a / b)
  | nan, _ | _, nan => nan
  | fin _ _, _ => ofRat 0
  | a, fin b _ => if b < 0 then a.neg else a
  | _, _ => nan

/-- The greater number, or the only one. -/
def max (a b : Num A) : Num A := if a.isNaN then b else if b.isNaN ∨ b.le a then a else b

def min (a b : Num A) : Num A := if a.isNaN then b else if b.isNaN ∨ a.le b then a else b

def abs : Num A → Num A
  | nan => nan
  | fin a h => if a < 0 then (fin a h : Num A).neg else fin a h
  | _ => posInf

def exp : Num A → Num A
  | nan => nan
  | negInf => ofRat 0
  | fin a _ => ofRat (A.exp a)
  | posInf => posInf

def ln : Num A → Num A
  | fin a _ => if 0 < a then ofRat (A.ln a) else if a = 0 then negInf else nan
  | posInf => posInf
  | _ => nan

instance : Logit (Num A) where
  zero := fin 0 A.round_zero
  one := fin 1 A.round_one
  add := add
  sub a b := a.add b.neg
  mul := mul
  div := div
  neg := neg
  lt a b := a.le b && !b.le a
  le := le
  isFinite a := match a with
    | fin _ _ => true
    | _ => false
  min := min
  max := max
  abs := abs
  exp := exp
  ln := ln
  tolerance := ofRat (1 / 1000)
  negInf := negInf
  posInf := posInf
  isNaN := isNaN
  eq a b := a.le b && b.le a
  ofCount n := ofRat n

theorem le_trans {a b c : Num A} (h : a.le b = true) (h' : b.le c = true) : a.le c = true := by
  cases a <;> cases b <;> cases c <;> first
    | rfl
    | exact absurd h Bool.false_ne_true
    | exact absurd h' Bool.false_ne_true
    | exact decide_eq_true ((of_decide_eq_true h).trans (of_decide_eq_true h'))

theorem le_total {a b : Num A} (ha : a.isNaN = false) (hb : b.isNaN = false) :
    a.le b = true ∨ b.le a = true := by
  cases a with
  | nan => exact absurd ha.symm Bool.false_ne_true
  | negInf => cases b <;> first | exact absurd hb.symm Bool.false_ne_true | exact Or.inl rfl
  | posInf => cases b <;> first | exact absurd hb.symm Bool.false_ne_true | exact Or.inr rfl
  | fin p hp =>
    cases b with
    | nan => exact absurd hb.symm Bool.false_ne_true
    | negInf => exact Or.inr rfl
    | posInf => exact Or.inl rfl
    | fin q hq => exact (LinearOrder.le_total p q).imp (fun h => decide_eq_true h) fun h =>
        decide_eq_true h

theorem ok_of_le {a b : Num A} (h : a.le b = true) : a.isNaN = false ∧ b.isNaN = false := by
  cases a <;> cases b <;> first
    | exact ⟨rfl, rfl⟩
    | exact absurd h Bool.false_ne_true

theorem le_neg (a b : Num A) : a.neg.le b.neg = b.le a := by
  cases a <;> cases b <;> first
    | rfl
    | exact decide_eq_decide.mpr neg_le_neg_iff

theorem isReal_iff {a : Num A} : IsReal a ↔ ∃ q h, a = fin q h := by
  constructor
  · intro h
    cases a with
    | nan => exact absurd h.isNaN.symm Bool.false_ne_true
    | negInf => exact absurd h.lower Bool.false_ne_true
    | fin q hq => exact ⟨q, hq, rfl⟩
    | posInf => exact absurd h.upper Bool.false_ne_true
  · rintro ⟨q, h, rfl⟩
    exact ⟨rfl, rfl, rfl⟩

theorem nonneg_cases {a : Num A} (h : (0 : Num A).le a = true) :
    a = posInf ∨ ∃ q hq, a = fin q hq ∧ 0 ≤ q := by
  cases a with
  | nan => exact absurd h Bool.false_ne_true
  | negInf => exact absurd h Bool.false_ne_true
  | fin q hq => exact Or.inr ⟨q, hq, rfl, of_decide_eq_true h⟩
  | posInf => exact Or.inl rfl

theorem round_nonneg {q : ℚ} (h : 0 ≤ q) : 0 ≤ A.round q := by
  rw [← A.round_zero]
  exact A.mono h

theorem fin_congr {p q : ℚ} {hp : A.round p = p} {hq : A.round q = q} (h : p = q) :
    fin p hp = fin q hq := by
  subst h
  rfl

theorem le_max {a b : Num A} (ha : a.isNaN = false) (hb : b.isNaN = false) :
    a.le (a.max b) = true ∧ b.le (a.max b) = true ∧ (a.max b = a ∨ a.max b = b) := by
  have hself : ∀ c : Num A, c.isNaN = false → c.le c = true := fun c hc =>
    (le_total hc hc).elim id id
  have ha' : ¬a.isNaN = true := by
    rw [ha]
    exact Bool.false_ne_true
  rw [max, if_neg ha']
  by_cases hle : b.le a = true
  · rw [if_pos (Or.inr hle)]
    exact ⟨hself a ha, hle, Or.inl rfl⟩
  · rw [if_neg]
    · exact ⟨(le_total ha hb).resolve_right hle, hself b hb, Or.inr rfl⟩
    · rintro (h | h)
      · rw [hb] at h
        cases h
      · exact hle h

theorem le_add {a b : Num A} (ha : (0 : Num A).le a = true) (hb : (0 : Num A).le b = true) :
    a.le (a.add b) = true ∧ b.le (a.add b) = true := by
  rcases nonneg_cases ha with rfl | ⟨p, hp, rfl, hp0⟩
  · rcases nonneg_cases hb with rfl | ⟨q, hq, rfl, -⟩ <;> exact ⟨rfl, rfl⟩
  · rcases nonneg_cases hb with rfl | ⟨q, hq, rfl, hq0⟩
    · exact ⟨rfl, rfl⟩
    · refine ⟨decide_eq_true ?_, decide_eq_true ?_⟩
      · conv_lhs => rw [← hp]
        exact A.mono (by linarith)
      · conv_lhs => rw [← hq]
        exact A.mono (by linarith)

/-- **The exponential, scaled down,** keeps the order. -/
theorem exp_mul_mono {a b m s : Num A} (ha : IsReal a) (hb : IsReal b) (hm : IsReal m)
    (hab : a.le b = true) (hs : isFinite s = true) (hs1 : (1 : Num A).le s = true) :
    ((exp (a.add m.neg)).mul (div 1 s)).le ((exp (b.add m.neg)).mul (div 1 s)) = true := by
  obtain ⟨p, hp, rfl⟩ := isReal_iff.mp ha
  obtain ⟨q, hq, rfl⟩ := isReal_iff.mp hb
  obtain ⟨r, hr, rfl⟩ := isReal_iff.mp hm
  cases s with
  | nan => exact absurd hs Bool.false_ne_true
  | negInf => exact absurd hs Bool.false_ne_true
  | posInf => exact absurd hs Bool.false_ne_true
  | fin t ht =>
    have hpq : p ≤ q := of_decide_eq_true hab
    have ht1 : 1 ≤ t := of_decide_eq_true hs1
    have hdiv : div 1 (fin t ht) = (ofRat (1 / t) : Num A) := if_neg (by linarith)
    rw [hdiv]
    refine decide_eq_true (A.mono (mul_le_mul_of_nonneg_right ?_ (round_nonneg (by positivity))))
    exact A.mono (A.exp_mono (A.mono (by linarith)))

/-- **These numbers are lawful.** -/
theorem lawful : Lawful (Num A) where
  ok_of_le := ok_of_le
  lt_iff := by
    exact (Bool.and_eq_true _ _).to_iff.trans (and_congr Iff.rfl (Bool.not_eq_true' _).to_iff)
  eq_iff := (Bool.and_eq_true _ _).to_iff
  le_total := le_total
  le_trans := le_trans
  le_neg := le_neg
  negInf_le := by
    intro a h
    cases a <;> first | rfl | exact absurd h.symm Bool.false_ne_true
  le_posInf := by
    intro a h
    cases a <;> first | rfl | exact absurd h.symm Bool.false_ne_true
  isNaN_zero := rfl
  le_max := le_max
  sub_self := by
    intro a ha
    obtain ⟨q, hq, rfl⟩ := isReal_iff.mp ha
    refine fin_congr ?_
    rw [add_neg_cancel, A.round_zero]
  exp_zero := by
    refine fin_congr ?_
    rw [A.exp_zero, A.round_one]
  exp_nonneg := by
    intro a m ha hm _
    obtain ⟨q, hq, rfl⟩ := isReal_iff.mp ha
    obtain ⟨r, hr, rfl⟩ := isReal_iff.mp hm
    exact decide_eq_true (round_nonneg (A.exp_nonneg _))
  le_add := le_add
  exp_mono ha hb hm hab _ hs hs1 := exp_mul_mono ha hb hm hab hs hs1

end Num

end R9v

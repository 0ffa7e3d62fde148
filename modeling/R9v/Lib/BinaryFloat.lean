import R9v.Lib.Checked
import Mathlib.Data.Int.Log
import Mathlib.Data.Rat.Floor
import Mathlib.Order.Lattice
import Mathlib.Tactic.LinearCombination
import Mathlib.Tactic.Positivity
import Mathlib.Tactic.Ring

/-!
# Binary floating point

A format has a sign, an exponent and a mantissa, and its patterns without a sign are numbers that
are ordered as their values are (`FloatFormat.mag_strictMono`): the next pattern is the next value,
at a distance that the exponent gives (`FloatFormat.mag_succ`). Rounding to the nearest value is
then a statement about two patterns that follow each other (`FloatFormat.isNearest_of_between`),
whichever exponents they have, and infinity is the first pattern that is too large.
-/

/-- A binary format: the bits of its mantissa and those of its exponent. -/
structure FloatFormat where
  mant : ℕ
  exp : ℕ
  deriving DecidableEq

namespace FloatFormat

def binary16 : FloatFormat := ⟨10, 5⟩

def binary32 : FloatFormat := ⟨23, 8⟩

def binary64 : FloatFormat := ⟨52, 11⟩

variable (f : FloatFormat)

/-! ### Magnitudes -/

def bias : ℤ := 2 ^ (f.exp - 1) - 1

/-- The exponent of the least positive value. -/
def minExp : ℤ := 1 - f.bias - f.mant

/-- The mantissa of a pattern, with its first bit when the pattern is normal. -/
def significand (b : ℕ) : ℕ := if b / 2 ^ f.mant = 0 then b else 2 ^ f.mant + b % 2 ^ f.mant

/-- What a unit of the mantissa is worth. -/
def ulp (b : ℕ) : ℚ := 2 ^ (f.minExp + ((b / 2 ^ f.mant - 1 : ℕ) : ℤ))

/-- The value of a pattern without a sign, when exponents are not bounded. -/
def mag (b : ℕ) : ℚ := f.significand b * f.ulp b

theorem ulp_pos (b : ℕ) : 0 < f.ulp b := zpow_pos two_pos _

theorem mag_eq {e n : ℕ} (hn : n < 2 ^ (f.mant + 1)) (he : e = 0 ∨ 2 ^ f.mant ≤ n) :
    f.ulp (e * 2 ^ f.mant + n) = 2 ^ (f.minExp + e) ∧
      f.mag (e * 2 ^ f.mant + n) = n * 2 ^ (f.minExp + e) := by
  have hpos : 0 < 2 ^ f.mant := Nat.two_pow_pos _
  rcases lt_or_ge n (2 ^ f.mant) with hlt | hge
  · -- a subnormal value: its exponent is the least one
    obtain rfl : e = 0 := he.resolve_right (not_le.mpr hlt)
    rw [Nat.zero_mul, Nat.zero_add, mag, significand, ulp, Nat.div_eq_of_lt hlt]
    exact ⟨rfl, by rw [if_pos rfl]⟩
  · have hdiv : (e * 2 ^ f.mant + n) / 2 ^ f.mant = e + 1 := by
      rw [Nat.mul_comm, Nat.mul_add_div hpos, Nat.div_eq_of_lt_le (k := 1) (by omega)
        (by rw [pow_succ] at hn; omega)]
    have hmod : 2 ^ f.mant + (e * 2 ^ f.mant + n) % 2 ^ f.mant = n := by
      have hsplit := Nat.div_add_mod' (e * 2 ^ f.mant + n) (2 ^ f.mant)
      rw [hdiv, add_mul] at hsplit
      omega
    rw [mag, significand, ulp, hdiv, if_neg e.succ_ne_zero, hmod]
    exact ⟨rfl, rfl⟩

theorem exists_binade (b : ℕ) :
    ∃ e n, b = e * 2 ^ f.mant + n ∧ n < 2 ^ (f.mant + 1) ∧ (e = 0 ∨ 2 ^ f.mant ≤ n) := by
  have hmod := Nat.mod_lt b (Nat.two_pow_pos f.mant)
  have hsplit := Nat.div_add_mod' b (2 ^ f.mant)
  rw [Nat.pow_succ]
  cases he : b / 2 ^ f.mant with
  | zero =>
    rw [he, Nat.zero_mul, Nat.zero_add] at hsplit
    exact ⟨0, b, by rw [Nat.zero_mul, Nat.zero_add], by omega, .inl rfl⟩
  | succ e =>
    rw [he, Nat.succ_mul] at hsplit
    exact ⟨e, 2 ^ f.mant + b % 2 ^ f.mant, by omega, by omega, .inr (Nat.le_add_right _ _)⟩

/-- **The next pattern** is the next value. -/
theorem mag_succ (b : ℕ) : f.mag (b + 1) = f.mag b + f.ulp b := by
  obtain ⟨e, n, rfl, hn, he⟩ := f.exists_binade b
  obtain ⟨hulp, hmag⟩ := f.mag_eq hn he
  rw [hulp, hmag]
  rcases lt_or_ge (n + 1) (2 ^ (f.mant + 1)) with hlt | hge
  · have hnext := (f.mag_eq hlt (he.imp_right fun h => by omega)).2
    rw [Nat.add_assoc, hnext, Nat.cast_succ]
    ring
  · -- the mantissa is full: the next value is the first one of the next binade
    have hfull : n + 1 = 2 ^ (f.mant + 1) := by omega
    have hnext := (f.mag_eq (e := e + 1) (n := 2 ^ f.mant) (Nat.pow_lt_pow_right one_lt_two
      (Nat.lt_succ_self _)) (.inr le_rfl)).2
    have hsame : e * 2 ^ f.mant + n + 1 = (e + 1) * 2 ^ f.mant + 2 ^ f.mant := by
      rw [add_assoc, hfull, pow_succ]
      ring
    have hcast : (n : ℚ) + 1 = 2 ^ f.mant * 2 := by exact_mod_cast hfull
    have hexp : (2 : ℚ) ^ (f.minExp + ((e + 1 : ℕ) : ℤ)) = 2 ^ (f.minExp + (e : ℤ)) * 2 := by
      rw [Nat.cast_succ, ← add_assoc, zpow_add_one₀ two_ne_zero]
    rw [hsame, hnext, hexp, Nat.cast_pow, Nat.cast_ofNat]
    linear_combination -(2 : ℚ) ^ (f.minExp + (e : ℤ)) * hcast

theorem mag_strictMono : StrictMono f.mag :=
  strictMono_nat_of_lt_succ fun b => by
    rw [mag_succ]
    exact lt_add_of_pos_right _ (f.ulp_pos b)

@[simp] theorem mag_zero : f.mag 0 = 0 := by
  have h := (f.mag_eq (e := 0) (n := 0) (Nat.two_pow_pos _) (.inl rfl)).2
  simpa using h

theorem mag_nonneg (b : ℕ) : 0 ≤ f.mag b := by
  rw [← f.mag_zero]
  exact f.mag_strictMono.monotone (Nat.zero_le b)

/-! ### The nearest value -/

/-- No value is nearer, and one that is as near has an odd mantissa. -/
def IsNearest (q : ℚ) (b : ℕ) : Prop :=
  ∀ c, |f.mag b - q| ≤ |f.mag c - q| ∧ (|f.mag b - q| = |f.mag c - q| → c ≠ b → Even b)

/-- What is halfway to the next value. -/
def mid (b : ℕ) : ℚ := f.mag b + f.ulp b / 2

variable {f} {q q' : ℚ} {b b' c : ℕ}

theorem mid_eq (b : ℕ) : 2 * f.mid b = f.mag b + f.mag (b + 1) := by
  rw [mid, mag_succ]
  ring

theorem mag_lt_mid (b : ℕ) : f.mag b < f.mid b := by
  have h := f.ulp_pos b
  rw [mid]
  linarith

theorem mid_lt_mag (b : ℕ) : f.mid b < f.mag (b + 1) := by
  have h := f.ulp_pos b
  rw [mid, mag_succ]
  linarith

theorem abs_sub_lt_of_lt_mid (h : q < f.mid b) (hc : b < c) : |f.mag b - q| < |f.mag c - q| := by
  have hle : f.mag (b + 1) ≤ f.mag c := f.mag_strictMono.monotone hc
  have hmid := f.mid_eq b
  have hq : q < f.mag c := h.trans ((mid_lt_mag b).trans_le hle)
  rw [abs_of_pos (sub_pos.mpr hq), abs_lt]
  constructor <;> linarith [f.mag_strictMono hc]

theorem abs_sub_lt_of_mid_lt (h : f.mid b < q) (hc : c ≤ b) :
    |f.mag (b + 1) - q| < |f.mag c - q| := by
  have hle : f.mag c ≤ f.mag b := f.mag_strictMono.monotone hc
  have hmid := f.mid_eq b
  have hq : f.mag c < q := hle.trans_lt ((mag_lt_mid b).trans h)
  rw [abs_sub_comm (f.mag c), abs_of_pos (sub_pos.mpr hq), abs_lt]
  constructor <;> linarith [f.mag_strictMono (Nat.lt_succ_of_le hc)]

theorem IsNearest.le_of_lt_mid (h : f.IsNearest q b) (hq : q < f.mid c) : b ≤ c := by
  by_contra hlt
  exact absurd (h c).1 (not_le.mpr (abs_sub_lt_of_lt_mid hq (not_le.mp hlt)))

theorem IsNearest.lt_of_mid_lt (h : f.IsNearest q b) (hq : f.mid c < q) : c < b := by
  by_contra hle
  exact absurd (h (c + 1)).1 (not_le.mpr (abs_sub_lt_of_mid_lt hq (not_lt.mp hle)))

theorem mid_strictMono : StrictMono f.mid :=
  strictMono_nat_of_lt_succ fun b => (mid_lt_mag b).trans (mag_lt_mid (b + 1))

theorem abs_sub_mid (b : ℕ) : |f.mag b - f.mid b| = |f.mag (b + 1) - f.mid b| := by
  have hmid := f.mid_eq b
  rw [abs_sub_comm, abs_of_pos (sub_pos.mpr (mag_lt_mid b)),
    abs_of_pos (sub_pos.mpr (mid_lt_mag b))]
  linarith

/-- **Halfway between two values**, the nearest one is the even one. -/
theorem isNearest_mid_iff : f.IsNearest (f.mid c) b ↔ (b = c ∨ b = c + 1) ∧ Even b := by
  have hself := f.abs_sub_mid c
  constructor
  · intro h
    have hle : b ≤ c + 1 := h.le_of_lt_mid ((mid_lt_mag c).trans (mag_lt_mid (c + 1)))
    have hge : c ≤ b := by
      cases c with
      | zero => exact Nat.zero_le b
      | succ c => exact h.lt_of_mid_lt (mid_strictMono (Nat.lt_succ_self c))
    rcases (by omega : b = c ∨ b = c + 1) with rfl | rfl
    · exact ⟨.inl rfl, (h (b + 1)).2 hself (Nat.succ_ne_self b)⟩
    · exact ⟨.inr rfl, (h c).2 hself.symm (Nat.succ_ne_self c).symm⟩
  · rintro ⟨hb, heven⟩ d
    have hdist : |f.mag b - f.mid c| = |f.mag c - f.mid c| := by
      rcases hb with rfl | rfl
      exacts [rfl, hself.symm]
    rw [hdist]
    refine ⟨?_, fun _ _ => heven⟩
    rcases lt_or_ge c d with hd | hd
    · rw [hself, abs_of_pos (sub_pos.mpr (mid_lt_mag c)),
        abs_of_pos (sub_pos.mpr ((mid_lt_mag c).trans_le (f.mag_strictMono.monotone hd)))]
      exact sub_le_sub_right (f.mag_strictMono.monotone hd) _
    · have hle : f.mag d ≤ f.mag c := f.mag_strictMono.monotone hd
      rw [abs_sub_comm, abs_sub_comm (f.mag d), abs_of_pos (sub_pos.mpr (mag_lt_mid c)),
        abs_of_pos (sub_pos.mpr (hle.trans_lt (mag_lt_mid c)))]
      exact sub_le_sub_left hle _

theorem IsNearest.lt_iff_of_odd (h : f.IsNearest q b) (hc : ¬Even c) : c < b ↔ f.mid c ≤ q := by
  refine ⟨fun hlt => not_lt.mp fun hq => absurd (h.le_of_lt_mid hq) (not_le.mpr hlt), fun hq => ?_⟩
  rcases hq.lt_or_eq with hq | rfl
  · exact h.lt_of_mid_lt hq
  · obtain ⟨rfl | rfl, heven⟩ := isNearest_mid_iff.mp h
    exacts [absurd heven hc, Nat.lt_succ_self c]

theorem IsNearest.lt_iff_of_even (h : f.IsNearest q b) (hc : Even c) : c < b ↔ f.mid c < q := by
  refine ⟨fun hlt => not_le.mp fun hq => ?_, h.lt_of_mid_lt⟩
  rcases hq.lt_or_eq with hq | rfl
  · exact absurd (h.le_of_lt_mid hq) (not_le.mpr hlt)
  · obtain ⟨rfl | rfl, heven⟩ := isNearest_mid_iff.mp h
    exacts [lt_irrefl _ hlt, Nat.even_add_one.mp heven hc]

theorem isNearest_of_between_mid (hlow : ∀ c, c + 1 = b → f.mid c < q) (hhigh : q < f.mid b) :
    f.IsNearest q b := by
  have hstrict : ∀ c, c ≠ b → |f.mag b - q| < |f.mag c - q| := fun c hc => by
    rcases lt_or_gt_of_ne hc with hlt | hlt
    · obtain ⟨d, rfl⟩ : ∃ d, d + 1 = b := ⟨b - 1, by omega⟩
      exact abs_sub_lt_of_mid_lt (hlow d rfl) (Nat.lt_succ_iff.mp hlt)
    · exact abs_sub_lt_of_lt_mid hhigh hlt
  intro c
  by_cases hc : c = b
  · subst hc
    exact ⟨le_rfl, fun _ h => absurd rfl h⟩
  · exact ⟨(hstrict c hc).le, fun h => absurd h (hstrict c hc).ne⟩

/-- **Rounding between two values**: to the nearer one, or to the even one. -/
theorem isNearest_of_between (hle : f.mag b ≤ q) (hlt : q ≤ f.mag (b + 1)) :
    f.IsNearest q (if f.mid b < q ∨ f.mid b = q ∧ ¬Even b then b + 1 else b) := by
  rcases lt_trichotomy (f.mid b) q with h | h | h
  · rw [if_pos (.inl h)]
    refine isNearest_of_between_mid (fun c hc => ?_) (hlt.trans_lt (mag_lt_mid _))
    rwa [Nat.succ_injective hc]
  · subst h
    rw [isNearest_mid_iff]
    by_cases heven : Even b
    · rw [if_neg (by simp [heven])]
      exact ⟨.inl rfl, heven⟩
    · rw [if_pos (.inr ⟨rfl, heven⟩)]
      exact ⟨.inr rfl, Nat.even_add_one.mpr heven⟩
  · rw [if_neg (by rintro (h' | ⟨h', -⟩) <;> linarith)]
    refine isNearest_of_between_mid (fun c hc => ?_) h
    subst hc
    exact (mid_lt_mag c).trans_le hle

theorem isNearest_of_rest {rest shift : ℕ} (h : rest < 2 ^ (shift + 1)) :
    f.IsNearest (f.mag b + rest * (f.ulp b / 2 ^ (shift + 1)))
      (if 2 ^ shift < rest ∨ rest = 2 ^ shift ∧ ¬Even b then b + 1 else b) := by
  have hulp := f.ulp_pos b
  have hpow : (0 : ℚ) < 2 ^ shift := pow_pos two_pos _
  obtain ⟨u, hu⟩ : ∃ u, u = f.ulp b / 2 ^ (shift + 1) := ⟨_, rfl⟩
  have hunit : f.ulp b = 2 ^ shift * 2 * u := by
    rw [hu, ← pow_succ, mul_div_cancel₀ _ (pow_ne_zero _ two_ne_zero)]
  have hupos : 0 < u := hu ▸ div_pos hulp (pow_pos two_pos _)
  have hmid : f.mid b = f.mag b + ((2 ^ shift : ℕ) : ℚ) * u := by
    rw [mid, hunit, Nat.cast_pow, Nat.cast_ofNat]
    ring
  have hnear := isNearest_of_between (f := f) (b := b) (q := f.mag b + rest * u)
    (le_add_of_nonneg_right (mul_nonneg (Nat.cast_nonneg _) hupos.le)) (by
      rw [mag_succ, hunit, ← pow_succ]
      refine (add_le_add_iff_left _).mpr (mul_le_mul_of_nonneg_right ?_ hupos.le)
      exact_mod_cast h.le)
  have hlt : f.mid b < f.mag b + rest * u ↔ 2 ^ shift < rest := by
    rw [hmid, add_lt_add_iff_left, mul_lt_mul_iff_left₀ hupos, Nat.cast_lt]
  have heq : f.mid b = f.mag b + rest * u ↔ rest = 2 ^ shift := by
    rw [hmid, add_right_inj, mul_left_inj' hupos.ne', Nat.cast_inj, eq_comm]
  rw [← hu]
  simpa only [hlt, heq] using hnear

/-- **The nearest value grows** with what is rounded. -/
theorem IsNearest.mono (h : f.IsNearest q b) (h' : f.IsNearest q' b') (hle : q ≤ q') : b ≤ b' := by
  by_contra hlt
  have hlt : b' < b := not_le.mp hlt
  rcases lt_trichotomy q' (f.mid b') with hq | hq | hq
  · exact absurd (h.le_of_lt_mid (hle.trans_lt hq)) (not_le.mpr hlt)
  · subst hq
    rcases hle.lt_or_eq with hq | rfl
    · exact absurd (h.le_of_lt_mid hq) (not_le.mpr hlt)
    · obtain ⟨hb, heven⟩ := isNearest_mid_iff.mp h
      obtain ⟨-, heven'⟩ := isNearest_mid_iff.mp h'
      rcases hb with rfl | rfl
      · exact lt_irrefl _ hlt
      · exact (Nat.even_add_one.mp heven) heven'
  · exact absurd (h'.lt_of_mid_lt hq) (lt_irrefl b')

theorem IsNearest.unique (h : f.IsNearest q b) (h' : f.IsNearest q b') : b = b' :=
  le_antisymm (h.mono h' le_rfl) (h'.mono h le_rfl)

theorem isNearest_mag (b : ℕ) : f.IsNearest (f.mag b) b := by
  refine isNearest_of_between_mid (fun c hc => ?_) (mag_lt_mid b)
  subst hc
  exact mid_lt_mag c

/-! ### Rounding -/

variable (f)

/-- The pattern of the greatest value that is not above. -/
def floorBits (q : ℚ) : ℕ :=
  if q ≤ 0 then 0
  else
    let e := (Int.log 2 q - f.minExp - f.mant).toNat
    e * 2 ^ f.mant + ⌊q / 2 ^ (f.minExp + (e : ℤ))⌋₊

/-- Rounds to the nearest value, and to an even mantissa when two are as near. -/
def roundBits (q : ℚ) : ℕ :=
  let b := f.floorBits q
  if f.mid b < q ∨ f.mid b = q ∧ ¬Even b then b + 1 else b

theorem floorBits_spec (hq : 0 ≤ q) : f.mag (f.floorBits q) ≤ q ∧ q ≤ f.mag (f.floorBits q + 1) := by
  rcases hq.eq_or_lt with rfl | hpos
  · rw [floorBits, if_pos le_rfl, f.mag_zero]
    exact ⟨le_rfl, f.mag_nonneg _⟩
  obtain ⟨e, he⟩ : ∃ e, e = (Int.log 2 q - f.minExp - f.mant).toNat := ⟨_, rfl⟩
  have hunit : (0 : ℚ) < 2 ^ (f.minExp + (e : ℤ)) := zpow_pos two_pos _
  have hfloor := Nat.floor_le (div_nonneg hq hunit.le)
  have hceil := Nat.lt_floor_add_one (q / 2 ^ (f.minExp + (e : ℤ)))
  rw [le_div_iff₀ hunit] at hfloor
  rw [div_lt_iff₀ hunit] at hceil
  have hupper : ⌊q / 2 ^ (f.minExp + (e : ℤ))⌋₊ < 2 ^ (f.mant + 1) := by
    rw [Nat.floor_lt (div_nonneg hq hunit.le), div_lt_iff₀ hunit, Nat.cast_pow, Nat.cast_ofNat,
      ← zpow_natCast, ← zpow_add₀ two_ne_zero]
    have hlog : q < 2 ^ (Int.log 2 q + 1) := Int.lt_zpow_succ_log_self one_lt_two q
    exact hlog.trans_le (zpow_le_zpow_right₀ one_le_two (by push_cast; omega))
  have hlower : e = 0 ∨ 2 ^ f.mant ≤ ⌊q / 2 ^ (f.minExp + (e : ℤ))⌋₊ := by
    rcases Nat.eq_zero_or_pos e with h0 | h0
    · exact .inl h0
    · right
      rw [Nat.le_floor_iff (div_nonneg hq hunit.le), le_div_iff₀ hunit, Nat.cast_pow, Nat.cast_ofNat,
        ← zpow_natCast, ← zpow_add₀ two_ne_zero]
      have hlog : (2 : ℚ) ^ Int.log 2 q ≤ q := Int.zpow_log_le_self one_lt_two hpos
      exact (zpow_le_zpow_right₀ one_le_two (by omega)).trans hlog
  obtain ⟨hulp, hmag⟩ := f.mag_eq hupper hlower
  rw [floorBits, if_neg (not_le.mpr hpos), ← he, mag_succ, hulp, hmag]
  exact ⟨hfloor, by linarith⟩

/-- **Rounding** gives the nearest value. -/
theorem isNearest_roundBits (hq : 0 ≤ q) : f.IsNearest q (f.roundBits q) :=
  have h := f.floorBits_spec hq
  isNearest_of_between h.1 h.2

theorem roundBits_mag (b : ℕ) : f.roundBits (f.mag b) = b :=
  (f.isNearest_roundBits (f.mag_nonneg b)).unique (isNearest_mag b)

theorem roundBits_mono (hq : 0 ≤ q) (h : q ≤ q') : f.roundBits q ≤ f.roundBits q' :=
  (f.isNearest_roundBits hq).mono (f.isNearest_roundBits (hq.trans h)) h

theorem roundBits_le_of_lt_mid (hq : 0 ≤ q) (h : q < f.mid b) : f.roundBits q ≤ b :=
  (f.isNearest_roundBits hq).le_of_lt_mid h

theorem lt_roundBits_of_mid_lt (hq : 0 ≤ q) (h : f.mid b < q) : b < f.roundBits q :=
  (f.isNearest_roundBits hq).lt_of_mid_lt h

section Quotients

variable {f} {c : ℚ} {p r m : ℕ}

theorem mag_roundBits_div_le_iff (hc : 0 < c) (hmag : f.mag p = c * f.mag r)
    (hulp : c * f.ulp r < 2 * f.ulp p) :
    f.mag (f.roundBits (f.mag m / c)) ≤ f.mag r ↔ f.mag m ≤ f.mag p := by
  have hm := div_nonneg (f.mag_nonneg m) hc.le
  rw [f.mag_strictMono.le_iff_le, f.mag_strictMono.le_iff_le]
  constructor
  · intro hle
    by_contra hlt
    refine absurd (f.lt_roundBits_of_mid_lt hm (lt_of_lt_of_le ?_
      (div_le_div_of_nonneg_right (f.mag_strictMono.monotone (not_le.mp hlt)) hc.le))) (not_lt.mpr hle)
    rw [lt_div_iff₀ hc, mag_succ, mid, hmag]
    linarith
  · intro hle
    refine f.roundBits_le_of_lt_mid hm (lt_of_le_of_lt ?_ (mag_lt_mid r))
    rw [div_le_iff₀ hc, mul_comm, ← hmag]
    exact f.mag_strictMono.monotone hle

theorem le_mag_roundBits_div_iff (hc : 0 < c) (hmag : f.mag (p + 1) = c * f.mag (r + 1))
    (hulp : c * f.ulp r < 2 * f.ulp p) :
    f.mag (r + 1) ≤ f.mag (f.roundBits (f.mag m / c)) ↔ f.mag (p + 1) ≤ f.mag m := by
  have hm := div_nonneg (f.mag_nonneg m) hc.le
  rw [f.mag_strictMono.le_iff_le, f.mag_strictMono.le_iff_le]
  constructor
  · intro hle
    by_contra hlt
    have hmp : f.mag m ≤ f.mag p := f.mag_strictMono.monotone (Nat.lt_succ_iff.mp (not_le.mp hlt))
    refine absurd (f.roundBits_le_of_lt_mid hm (lt_of_le_of_lt
      (div_le_div_of_nonneg_right hmp hc.le) ?_)) (not_le.mpr hle)
    rw [div_lt_iff₀ hc, mid]
    rw [mag_succ, mag_succ] at hmag
    linarith
  · intro hle
    refine f.lt_roundBits_of_mid_lt hm ((mid_lt_mag r).trans_le ?_)
    rw [le_div_iff₀ hc, mul_comm, ← hmag]
    exact f.mag_strictMono.monotone hle

end Quotients

/-! ### Patterns with a sign -/

def signBit (x : ℕ) : ℕ := x / 2 ^ (f.mant + f.exp) % 2

def magBits (x : ℕ) : ℕ := x % 2 ^ (f.mant + f.exp)

/-- The pattern of infinity. -/
def infBits : ℕ := (2 ^ f.exp - 1) * 2 ^ f.mant

/-- A pattern that is no number. -/
def nanBits : ℕ := f.infBits + 2 ^ (f.mant - 1)

def isFinite (x : ℕ) : Bool := f.magBits x < f.infBits

def isInfinite (x : ℕ) : Bool := f.magBits x = f.infBits

def isNan (x : ℕ) : Bool := f.infBits < f.magBits x

/-- A pattern of a sign and a magnitude. -/
def withSign (s b : ℕ) : ℕ := s * 2 ^ (f.mant + f.exp) + b

/-- The sign and the magnitude of a pattern as one number. -/
def key (x : ℕ) : ℤ := if f.signBit x = 1 then -f.magBits x else f.magBits x

/-- The value of a pattern of a finite number. -/
def value (x : ℕ) : ℚ := if f.signBit x = 1 then -f.mag (f.magBits x) else f.mag (f.magBits x)

/-- The value of a pattern that is a number. -/
def extValue (x : ℕ) : WithBot (WithTop ℚ) :=
  if f.isFinite x then ((f.value x : WithTop ℚ) : WithBot (WithTop ℚ))
  else if f.signBit x = 1 then ⊥ else ((⊤ : WithTop ℚ) : WithBot (WithTop ℚ))

section Signs

variable {f} {x y s b : ℕ}

theorem infBits_lt (f : FloatFormat) : f.infBits < 2 ^ (f.mant + f.exp) := by
  rw [infBits, Nat.sub_one_mul, ← Nat.pow_add, Nat.add_comm]
  exact Nat.sub_lt (Nat.two_pow_pos _) (Nat.two_pow_pos _)

theorem magBits_lt (f : FloatFormat) (x : ℕ) : f.magBits x < 2 ^ (f.mant + f.exp) :=
  Nat.mod_lt _ (Nat.two_pow_pos _)

theorem signBit_lt (f : FloatFormat) (x : ℕ) : f.signBit x < 2 := Nat.mod_lt _ two_pos

theorem magBits_withSign (hb : b < 2 ^ (f.mant + f.exp)) : f.magBits (f.withSign s b) = b := by
  rw [magBits, withSign, Nat.mul_add_mod_self_right, Nat.mod_eq_of_lt hb]

theorem signBit_withSign (hs : s < 2) (hb : b < 2 ^ (f.mant + f.exp)) :
    f.signBit (f.withSign s b) = s := by
  rw [signBit, withSign, Nat.mul_comm, Nat.mul_add_div (Nat.two_pow_pos _), Nat.div_eq_of_lt hb,
    Nat.add_zero, Nat.mod_eq_of_lt hs]

theorem withSign_magBits (hx : x < 2 ^ (f.mant + f.exp + 1)) :
    f.withSign (f.signBit x) (f.magBits x) = x := by
  have hs : x / 2 ^ (f.mant + f.exp) < 2 := by
    rw [Nat.div_lt_iff_lt_mul (Nat.two_pow_pos _), Nat.mul_comm, ← Nat.pow_succ]
    exact hx
  rw [withSign, signBit, Nat.mod_eq_of_lt hs, magBits]
  exact Nat.div_add_mod' _ _

theorem withSign_lt (hs : s < 2) (hb : b < 2 ^ (f.mant + f.exp)) :
    f.withSign s b < 2 ^ (f.mant + f.exp + 1) := by
  have hle : s * 2 ^ (f.mant + f.exp) ≤ 1 * 2 ^ (f.mant + f.exp) :=
    Nat.mul_le_mul_right _ (Nat.lt_succ_iff.mp hs)
  rw [withSign, pow_succ]
  omega

theorem magBits_of_lt (hb : b < 2 ^ (f.mant + f.exp)) : f.magBits b = b := Nat.mod_eq_of_lt hb

theorem signBit_of_lt (hb : b < 2 ^ (f.mant + f.exp)) : f.signBit b = 0 := by
  rw [signBit, Nat.div_eq_of_lt hb]

theorem key_of_lt (hb : b < 2 ^ (f.mant + f.exp)) : f.key b = b := by
  rw [key, signBit_of_lt hb, magBits_of_lt hb, if_neg (by decide)]

theorem value_of_lt (hb : b < 2 ^ (f.mant + f.exp)) : f.value b = f.mag b := by
  rw [value, signBit_of_lt hb, magBits_of_lt hb, if_neg (by decide)]

theorem abs_value (x : ℕ) : |f.value x| = f.mag (f.magBits x) := by
  have h := f.mag_nonneg (f.magBits x)
  rw [value]
  split
  · rw [abs_neg, abs_of_nonneg h]
  · exact abs_of_nonneg h

/-- **Finite values are ordered** as the numbers of their patterns are. -/
theorem value_le_value_iff : f.value x ≤ f.value y ↔ f.key x ≤ f.key y := by
  have hx := f.mag_nonneg (f.magBits x)
  have hy := f.mag_nonneg (f.magBits y)
  have hzero : ∀ b, f.mag b ≤ 0 ↔ b = 0 := fun b => by
    rw [← f.mag_zero, f.mag_strictMono.le_iff_le, Nat.le_zero]
  rw [value, value, key, key]
  split <;> split
  · rw [neg_le_neg_iff, neg_le_neg_iff, f.mag_strictMono.le_iff_le, Nat.cast_le]
  · exact ⟨fun _ => by omega, fun _ => by linarith⟩
  · constructor
    · intro h
      have h1 := (hzero _).mp (show f.mag (f.magBits x) ≤ 0 by linarith)
      have h2 := (hzero _).mp (show f.mag (f.magBits y) ≤ 0 by linarith)
      omega
    · intro h
      rw [(by omega : f.magBits x = 0), (by omega : f.magBits y = 0), f.mag_zero, neg_zero]
  · rw [f.mag_strictMono.le_iff_le, Nat.cast_le]

theorem extValue_of_lt (h : f.magBits x < f.infBits) :
    f.extValue x = ((f.value x : WithTop ℚ) : WithBot (WithTop ℚ)) :=
  if_pos (decide_eq_true h)

theorem extValue_of_eq (h : f.magBits x = f.infBits) :
    f.extValue x = if f.signBit x = 1 then ⊥ else ((⊤ : WithTop ℚ) : WithBot (WithTop ℚ)) :=
  if_neg fun hlt => absurd (of_decide_eq_true hlt) (by rw [h]; exact lt_irrefl _)

/-- **Numbers are ordered** as those of their patterns are. -/
theorem extValue_le_iff (hinf : 0 < f.infBits) (hx : f.isNan x = false) (hy : f.isNan y = false) :
    f.extValue x ≤ f.extValue y ↔ f.key x ≤ f.key y := by
  have hxle : f.magBits x ≤ f.infBits := not_lt.mp (of_decide_eq_false hx)
  have hyle : f.magBits y ≤ f.infBits := not_lt.mp (of_decide_eq_false hy)
  rcases hxle.lt_or_eq with hx | hx <;> rcases hyle.lt_or_eq with hy | hy
  · rw [extValue_of_lt hx, extValue_of_lt hy, WithBot.coe_le_coe, WithTop.coe_le_coe,
      value_le_value_iff]
  · rw [extValue_of_lt hx, extValue_of_eq hy, key, key, hy]
    split <;> split <;> simp <;> omega
  · rw [extValue_of_eq hx, extValue_of_lt hy, key, key, hx]
    split <;> split <;> simp <;> omega
  · rw [extValue_of_eq hx, extValue_of_eq hy, key, key, hx, hy]
    split <;> split
    all_goals simp
    all_goals omega

end Signs

/-- Whether a number is less than another one. -/
def lt (x y : ℕ) : Bool := !f.isNan x && !f.isNan y && f.key x < f.key y

/-- Whether two numbers are equal. -/
def eq (x y : ℕ) : Bool := !f.isNan x && !f.isNan y && f.key x = f.key y

/-- The pattern with no sign. -/
def abs (x : ℕ) : ℕ := f.magBits x

/-- Division, rounded to the nearest value. -/
def div (x y : ℕ) : ℕ :=
  let s := (f.signBit x + f.signBit y) % 2
  if f.isNan x ∨ f.isNan y then f.nanBits
  else if f.isInfinite x then if f.isInfinite y then f.nanBits else f.withSign s f.infBits
  else if f.isInfinite y then f.withSign s 0
  else if f.magBits y = 0 then if f.magBits x = 0 then f.nanBits else f.withSign s f.infBits
  else
    f.withSign s (min (f.roundBits (f.mag (f.magBits x) / f.mag (f.magBits y))) f.infBits)

/-- A rational number rounded to a finite value of the format. -/
def round (q : ℚ) : ℚ := if q < 0 then -f.mag (f.roundBits (-q)) else f.mag (f.roundBits q)

section Operations

variable {f} {x y : ℕ}

theorem isNan_of_isFinite (h : f.isFinite x = true) : f.isNan x = false :=
  decide_eq_false (not_lt.mpr (of_decide_eq_true h).le)

/-- **Comparing numbers without a sign** compares their patterns. -/
theorem lt_iff_of_lt (hx : x ≤ f.infBits) (hy : y ≤ f.infBits) : f.lt x y = true ↔ x < y := by
  have hx' := hx.trans_lt f.infBits_lt
  have hy' := hy.trans_lt f.infBits_lt
  rw [lt, isNan, isNan, magBits_of_lt hx', magBits_of_lt hy', key_of_lt hx', key_of_lt hy',
    decide_eq_false (not_lt.mpr hx), decide_eq_false (not_lt.mpr hy), Bool.not_false, Bool.true_and,
    Bool.true_and, decide_eq_true_eq, Nat.cast_lt]

theorem eq_iff_of_lt (hx : x ≤ f.infBits) (hy : y ≤ f.infBits) : f.eq x y = true ↔ x = y := by
  have hx' := hx.trans_lt f.infBits_lt
  have hy' := hy.trans_lt f.infBits_lt
  rw [eq, isNan, isNan, magBits_of_lt hx', magBits_of_lt hy', key_of_lt hx', key_of_lt hy',
    decide_eq_false (not_lt.mpr hx), decide_eq_false (not_lt.mpr hy), Bool.not_false, Bool.true_and,
    Bool.true_and, decide_eq_true_eq, Nat.cast_inj]

/-- **Division of finite numbers** by one that is not zero. -/
theorem div_of_isFinite (hx : f.isFinite x = true) (hy : f.isFinite y = true)
    (hpos : f.magBits y ≠ 0) :
    f.div x y = f.withSign ((f.signBit x + f.signBit y) % 2)
      (min (f.roundBits (f.mag (f.magBits x) / f.mag (f.magBits y))) f.infBits) := by
  have hinf : ∀ z, f.isFinite z = true → f.isInfinite z = false := fun z hz =>
    decide_eq_false (of_decide_eq_true hz).ne
  rw [div, if_neg (by simp [isNan_of_isFinite hx, isNan_of_isFinite hy]),
    if_neg (by simp [hinf x hx]), if_neg (by simp [hinf y hy]), if_neg hpos]

/-- **Division by zero** is not finite. -/
theorem div_zero_isFinite (hx : f.isFinite x = true) (hy : f.magBits y = 0) (hinf : 0 < f.infBits)
    (hnan : f.nanBits < 2 ^ (f.mant + f.exp)) :
    f.isFinite (f.div x y) = false := by
  have hfin : f.isFinite y = true := decide_eq_true (hy ▸ hinf)
  have hne : ∀ z, f.isFinite z = true → f.isInfinite z = false := fun z hz =>
    decide_eq_false (of_decide_eq_true hz).ne
  rw [div, if_neg (by simp [isNan_of_isFinite hx, isNan_of_isFinite hfin]),
    if_neg (by simp [hne x hx]), if_neg (by simp [hne y hfin]), if_pos hy]
  split
  · rw [isFinite, magBits_of_lt hnan]
    exact decide_eq_false (not_lt.mpr (Nat.le_add_right _ _))
  · rw [isFinite, magBits_withSign f.infBits_lt]
    exact decide_eq_false (lt_irrefl _)

theorem div_lt (hnan : f.nanBits < 2 ^ (f.mant + f.exp)) :
    f.div x y < 2 ^ (f.mant + f.exp + 1) := by
  have hs : (f.signBit x + f.signBit y) % 2 < 2 := Nat.mod_lt _ two_pos
  have hn : f.nanBits < 2 ^ (f.mant + f.exp + 1) :=
    hnan.trans (Nat.pow_lt_pow_right one_lt_two (Nat.lt_succ_self _))
  rw [div]
  split
  · exact hn
  split
  · split
    exacts [hn, withSign_lt hs f.infBits_lt]
  split
  · exact withSign_lt hs (Nat.two_pow_pos _)
  split
  · split
    exacts [hn, withSign_lt hs f.infBits_lt]
  · exact withSign_lt hs ((min_le_right _ _).trans_lt f.infBits_lt)

end Operations

end FloatFormat

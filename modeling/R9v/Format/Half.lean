import R9v.Format.Error
import R9v.Lib.BinaryFloat

/-!
# Half precision

The scales of a tensor are stored as `f16` (`r9v-format/src/scales.rs`). Every `f16` is an `f32`
exactly (`f16ToF32_value`), and an `f32` is rounded to the nearest `f16` with one exception
(`f32ToF16Bits_toNat`): what is just below the first normal value is rounded up to it, and the carry
out of the mantissa is then masked away.
-/

namespace R9v.Format

open Checked FloatFormat

/-- An `f32`, by its bits. -/
structure F32 where
  bits : UInt32
  deriving DecidableEq

namespace F32

def isNan (x : F32) : Bool := binary32.isNan x.bits.toNat

def isInfinite (x : F32) : Bool := binary32.isInfinite x.bits.toNat

def isFinite (x : F32) : Bool := binary32.isFinite x.bits.toNat

def isSignNegative (x : F32) : Bool := binary32.signBit x.bits.toNat = 1

def abs (x : F32) : F32 := ⟨(binary32.abs x.bits.toNat).toUInt32⟩

def lt (x y : F32) : Bool := binary32.lt x.bits.toNat y.bits.toNat

def eq (x y : F32) : Bool := binary32.eq x.bits.toNat y.bits.toNat

def div (x y : F32) : F32 := ⟨(binary32.div x.bits.toNat y.bits.toNat).toUInt32⟩

/-- The value of a finite number. -/
def value (x : F32) : ℚ := binary32.value x.bits.toNat

end F32

/-! ### From `f16` to `f32` -/

theorem and_two_pow (m bit : ℕ) : m &&& 2 ^ bit = m / 2 ^ bit % 2 * 2 ^ bit := by
  have hbit := Nat.testBit_eq_decide_div_mod_eq (x := m) (i := bit)
  refine Nat.eq_of_testBit_eq fun i => ?_
  rw [Nat.testBit_and, Nat.testBit_two_pow]
  rcases Nat.mod_two_eq_zero_or_one (m / 2 ^ bit) with h | h
  · rw [h, Nat.zero_mul, Nat.zero_testBit]
    by_cases hi : bit = i
    · rw [← hi, hbit, h]
      rfl
    · simp [hi]
  · rw [h, Nat.one_mul, Nat.testBit_two_pow]
    by_cases hi : bit = i
    · rw [← hi, hbit, h]
      rfl
    · simp [hi]

theorem and_two_pow_eq_zero {m bit : ℕ} (h : m < 2 ^ (bit + 1)) : m &&& 2 ^ bit = 0 ↔ m < 2 ^ bit := by
  have hdiv : m / 2 ^ bit < 2 := by
    rw [Nat.div_lt_iff_lt_mul (Nat.two_pow_pos _), Nat.mul_comm, ← Nat.pow_succ]
    exact h
  rw [and_two_pow, Nat.mod_eq_of_lt hdiv, Nat.mul_eq_zero,
    or_iff_left (Nat.two_pow_pos _).ne', Nat.div_eq_zero_iff, or_iff_right (Nat.two_pow_pos _).ne']

theorem renormalize_next {m bit : ℕ} (h : 0 < m ∧ m < 2 ^ (bit + 1)) (hbit : m &&& 2 ^ bit = 0) :
    0 < m <<< 1 ∧ m <<< 1 < 2 ^ (bit + 1) := by
  have hlt := (and_two_pow_eq_zero h.2).mp hbit
  omega

/-- Moves the first bit of a mantissa to its place. -/
def renormalize (bit m : ℕ) (e : ℤ) (h : 0 < m ∧ m < 2 ^ (bit + 1)) : ℕ × ℤ :=
  if hbit : m &&& 2 ^ bit = 0 then
    renormalize bit (m <<< 1) (e - 1) (renormalize_next h hbit)
  else (m, e)
termination_by 2 ^ (bit + 1) - m
decreasing_by
  have hnext := renormalize_next h hbit
  rw [Nat.shiftLeft_eq] at hnext ⊢
  omega

/-- **The first bit is in its place**, and the value is the same. -/
theorem renormalize_spec (bit m : ℕ) (e : ℤ) (h : 0 < m ∧ m < 2 ^ (bit + 1)) :
    ∃ k : ℕ, renormalize bit m e h = (m * 2 ^ k, e - k) ∧ 2 ^ bit ≤ m * 2 ^ k ∧
      m * 2 ^ k < 2 ^ (bit + 1) := by
  induction m, e, h using renormalize.induct bit with
  | case1 m e h hbit ih =>
    obtain ⟨k, hk, hle, hlt⟩ := ih
    have hshift : m <<< 1 * 2 ^ k = m * 2 ^ (k + 1) := by
      rw [Nat.shiftLeft_eq, Nat.pow_one, Nat.mul_assoc, Nat.pow_succ, Nat.mul_comm 2]
    rw [hshift] at hk hle hlt
    refine ⟨k + 1, ?_, hle, hlt⟩
    rw [renormalize, dif_pos hbit, hk, Nat.cast_succ]
    exact congrArg (Prod.mk _) (by ring)
  | case2 m e h hbit =>
    refine ⟨0, ?_, ?_, by simpa using h.2⟩
    · rw [renormalize, dif_neg hbit, Nat.pow_zero, Nat.mul_one, Nat.cast_zero, sub_zero]
    · rw [pow_zero, mul_one]
      exact not_lt.mp fun hlt => hbit ((and_two_pow_eq_zero h.2).mpr hlt)

theorem mantissa_bounds {b : ℕ} (h : ¬b &&& 0x3FF = 0) :
    0 < b &&& 0x3FF ∧ b &&& 0x3FF < 2 ^ (10 + 1) :=
  ⟨Nat.pos_of_ne_zero h, Nat.lt_of_le_of_lt Nat.and_le_right (by decide)⟩

/-- The `f32` of an `f16`. -/
def f16ToF32 (bits : UInt16) : F32 :=
  let b := bits.toNat
  let sign := (b &&& 0x8000) <<< 16
  let exp := b >>> 10 &&& 0x1F
  let mant := b &&& 0x3FF
  let wide :=
    if exp = 0 then
      if h : mant = 0 then sign
      else
        let (m, e) := renormalize 10 mant 1 (mantissa_bounds h)
        sign ||| (e + 112).toNat <<< 23 ||| (m &&& 0x3FF) <<< 13
    else if exp = 31 then sign ||| 0x7F800000 ||| mant <<< 13
    else sign ||| (exp + 112) <<< 23 ||| mant <<< 13
  ⟨wide.toUInt32⟩

/-! ### From `f32` to `f16` -/

/-- Rounds an `f32` to the bits of an `f16`. -/
def f32ToF16Bits (value : F32) : UInt16 :=
  let x := value.bits.toNat
  let exp := x >>> 23 &&& 0xFF
  let mant := x &&& 0x7FFFFF
  if exp = 0xFF then
    if mant = 0 then (x >>> 16 &&& 0x8000 ||| 0x7C00).toUInt16
    else (x >>> 16 &&& 0x8000 ||| 0x7E00).toUInt16
  else
    let e : ℤ := exp - 112
    if 31 ≤ e then (x >>> 16 &&& 0x8000 ||| 0x7C00).toUInt16
    else if e ≤ 0 then
      if e < -10 then (x >>> 16 &&& 0x8000).toUInt16
      else
        let mantFull := mant ||| 0x800000
        let shift := (14 - e).toNat
        let kept := mantFull >>> shift
        let rest := mantFull &&& (1 <<< shift - 1)
        let half := 1 <<< (shift - 1)
        let rounded := if half < rest ∨ rest = half ∧ kept &&& 1 = 1 then kept + 1 else kept
        (x >>> 16 &&& 0x8000 ||| rounded &&& 0x3FF).toUInt16
    else
      let kept := mant >>> 13
      let rest := mant &&& 0x1FFF
      if 0x1000 < rest ∨ rest = 0x1000 ∧ kept &&& 1 = 1 then
        if kept + 1 = 0x400 then
          if 31 ≤ e + 1 then (x >>> 16 &&& 0x8000 ||| 0x7C00).toUInt16
          else (x >>> 16 &&& 0x8000 ||| (e + 1).toNat <<< 10 ||| 0).toUInt16
        else (x >>> 16 &&& 0x8000 ||| e.toNat <<< 10 ||| kept + 1).toUInt16
      else (x >>> 16 &&& 0x8000 ||| e.toNat <<< 10 ||| kept).toUInt16

/-! ### Rounding to the nearest `f16` -/

theorem sign_bits (x : ℕ) : x >>> 16 &&& 0x8000 = binary32.signBit x * 2 ^ 15 := by
  rw [show 0x8000 = 2 ^ 15 from rfl, and_two_pow, Nat.shiftRight_eq_div_pow, Nat.div_div_eq_div_mul,
    ← Nat.pow_add]
  rfl

theorem exponent_bits (x : ℕ) : x >>> 23 &&& 0xFF = binary32.magBits x / 2 ^ 23 := by
  rw [Nat.and_two_pow_sub_one_eq_mod _ 8, Nat.shiftRight_eq_div_pow, magBits]
  exact (Nat.mod_mul_right_div_self x (2 ^ 23) (2 ^ 8)).symm

theorem mantissa_bits (x : ℕ) : x &&& 0x7FFFFF = binary32.magBits x % 2 ^ 23 := by
  rw [Nat.and_two_pow_sub_one_eq_mod _ 23, magBits]
  exact (Nat.mod_mod_of_dvd x (Nat.pow_dvd_pow 2 (by decide))).symm

theorem or_sign (s : ℕ) {b : ℕ} (hb : b < 2 ^ 15) : s * 2 ^ 15 ||| b = binary16.withSign s b := by
  rw [Nat.mul_comm, ← Nat.two_pow_add_eq_or_of_lt hb, Nat.mul_comm]
  rfl

theorem binary16_mag {e n : ℕ} (hn : n < 2 ^ 11) (he : e = 0 ∨ 2 ^ 10 ≤ n) :
    binary16.ulp (e * 2 ^ 10 + n) = 2 ^ (-24 + (e : ℤ)) ∧
      binary16.mag (e * 2 ^ 10 + n) = n * 2 ^ (-24 + (e : ℤ)) :=
  binary16.mag_eq hn he

theorem binary32_mag {e n : ℕ} (hn : n < 2 ^ 24) (he : e = 0 ∨ 2 ^ 23 ≤ n) :
    binary32.ulp (e * 2 ^ 23 + n) = 2 ^ (-149 + (e : ℤ)) ∧
      binary32.mag (e * 2 ^ 23 + n) = n * 2 ^ (-149 + (e : ℤ)) :=
  binary32.mag_eq hn he

/-- The magnitude of a normal `f32`. -/
theorem binary32_mag_normal {a : ℕ} (h : 0 < a / 2 ^ 23) :
    binary32.mag a = ((2 ^ 23 + a % 2 ^ 23 : ℕ) : ℚ) * 2 ^ ((a / 2 ^ 23 : ℕ) - 150 : ℤ) := by
  obtain ⟨e, he⟩ : ∃ e, a / 2 ^ 23 = e + 1 := ⟨a / 2 ^ 23 - 1, by omega⟩
  have hmag := (binary32_mag (e := e) (n := 2 ^ 23 + a % 2 ^ 23) (by omega) (.inr (by omega))).2
  rw [show e * 2 ^ 23 + (2 ^ 23 + a % 2 ^ 23) = a by omega] at hmag
  rw [hmag, he, Nat.cast_succ]
  exact congrArg (fun z : ℤ => ((2 ^ 23 + a % 2 ^ 23 : ℕ) : ℚ) * 2 ^ z) (by ring)

section Branches

variable {a : ℕ}

theorem le_roundBits_of_large (h : 143 ≤ a / 2 ^ 23) :
    2 ^ 16 ≤ binary32.mag a ∧ 0x7C00 ≤ binary16.roundBits (binary32.mag a) := by
  have hbound : binary32.mag (142 * 2 ^ 23 + 2 ^ 23) = 2 ^ 16 := by
    rw [(binary32_mag (e := 142) (n := 2 ^ 23) (by decide) (.inr le_rfl)).2]
    norm_num
  have hinf : binary16.mag (30 * 2 ^ 10 + 2 ^ 10) = 2 ^ 16 := by
    rw [(binary16_mag (e := 30) (n := 2 ^ 10) (by decide) (.inr le_rfl)).2]
    norm_num
  have hle : 2 ^ 16 ≤ binary32.mag a := by
    rw [← hbound]
    exact binary32.mag_strictMono.monotone (by omega)
  refine ⟨hle, ?_⟩
  have hmono := binary16.roundBits_mono (by positivity) (hinf.trans_le hle)
  rwa [roundBits_mag] at hmono

theorem mid_zero : binary16.mid 0 = 2 ^ (-25 : ℤ) := by
  have hulp := (binary16_mag (e := 0) (n := 0) (by decide) (.inl rfl)).1
  rw [mid, mag_zero, show binary16.ulp 0 = 2 ^ (-24 + ((0 : ℕ) : ℤ)) from hulp]
  norm_num

theorem roundBits_of_tiny (h : a / 2 ^ 23 < 102) :
    binary32.mag a < 2 ^ (-25 : ℤ) ∧ binary16.roundBits (binary32.mag a) = 0 := by
  have hbound : binary32.mag (101 * 2 ^ 23 + 2 ^ 23) = 2 ^ (-25 : ℤ) := by
    rw [(binary32_mag (e := 101) (n := 2 ^ 23) (by decide) (.inr le_rfl)).2]
    norm_num
  have hlt : binary32.mag a < 2 ^ (-25 : ℤ) := by
    rw [← hbound]
    exact binary32.mag_strictMono (by omega)
  exact ⟨hlt,
    Nat.le_zero.mp (binary16.roundBits_le_of_lt_mid (binary32.mag_nonneg a) (mid_zero ▸ hlt))⟩

theorem and_one_eq_one {n : ℕ} : n &&& 1 = 1 ↔ ¬Even n := by
  rw [Nat.and_one_is_mod, Nat.not_even_iff]

theorem roundBits_of_subnormal {shift : ℕ} (hs : shift + 1 + a / 2 ^ 23 = 126)
    (hlow : 102 ≤ a / 2 ^ 23) (hhigh : a / 2 ^ 23 ≤ 112) :
    binary16.roundBits (binary32.mag a) =
      if 2 ^ shift < (2 ^ 23 + a % 2 ^ 23) % 2 ^ (shift + 1) ∨
          (2 ^ 23 + a % 2 ^ 23) % 2 ^ (shift + 1) = 2 ^ shift ∧
            ¬Even ((2 ^ 23 + a % 2 ^ 23) / 2 ^ (shift + 1)) then
        (2 ^ 23 + a % 2 ^ 23) / 2 ^ (shift + 1) + 1
      else (2 ^ 23 + a % 2 ^ 23) / 2 ^ (shift + 1) := by
  obtain ⟨n, hn⟩ : ∃ n, n = 2 ^ 23 + a % 2 ^ 23 := ⟨_, rfl⟩
  have hnlt : n < 2 ^ 24 := by omega
  have hkept : n / 2 ^ (shift + 1) < 2 ^ 10 := by
    rw [Nat.div_lt_iff_lt_mul (Nat.two_pow_pos _), ← Nat.pow_add]
    exact hnlt.trans_le (Nat.pow_le_pow_right two_pos (by omega))
  obtain ⟨hulp, hmag⟩ := binary16_mag (e := 0) (n := n / 2 ^ (shift + 1)) (by omega) (.inl rfl)
  rw [Nat.zero_mul, Nat.zero_add] at hulp hmag
  rw [← hn]
  refine (binary16.isNearest_roundBits (binary32.mag_nonneg a)).unique ?_
  have hnear := isNearest_of_rest (f := binary16) (b := n / 2 ^ (shift + 1))
    (Nat.mod_lt n (Nat.two_pow_pos (shift + 1)))
  convert hnear using 1
  -- the bits that are kept and the bits that are left out make up the value
  rw [binary32_mag_normal (by omega), ← hn, hmag, hulp, show ((a / 2 ^ 23 : ℕ) - 150 : ℤ) =
    -24 + ((0 : ℕ) : ℤ) - ((shift + 1 : ℕ) : ℤ) by push_cast; omega, zpow_sub₀ two_ne_zero, zpow_natCast]
  have hsplit : (n : ℚ) = (n / 2 ^ (shift + 1) : ℕ) * 2 ^ (shift + 1) + (n % 2 ^ (shift + 1) : ℕ) := by
    exact_mod_cast (Nat.div_add_mod' n (2 ^ (shift + 1))).symm
  conv_lhs => rw [hsplit]
  field_simp

theorem roundBits_of_normal (hlow : 113 ≤ a / 2 ^ 23) (hhigh : a / 2 ^ 23 < 143) :
    binary16.roundBits (binary32.mag a) = (a / 2 ^ 23 - 112) * 2 ^ 10 +
      if 0x1000 < a % 2 ^ 13 ∨ a % 2 ^ 13 = 0x1000 ∧ ¬Even (a % 2 ^ 23 / 2 ^ 13) then
        a % 2 ^ 23 / 2 ^ 13 + 1
      else a % 2 ^ 23 / 2 ^ 13 := by
  obtain ⟨e, he⟩ : ∃ e, a / 2 ^ 23 = e + 113 := ⟨a / 2 ^ 23 - 113, by omega⟩
  obtain ⟨k, hk⟩ : ∃ k, k = a % 2 ^ 23 / 2 ^ 13 := ⟨_, rfl⟩
  obtain ⟨hulp, hmag⟩ := binary16_mag (e := e) (n := 2 ^ 10 + k) (by omega) (.inr (by omega))
  have hnear := @isNearest_of_rest binary16 (e * 2 ^ 10 + (2 ^ 10 + k)) (a % 2 ^ 13) 12
    (Nat.mod_lt a (Nat.two_pow_pos 13))
  have hvalue : binary32.mag a = binary16.mag (e * 2 ^ 10 + (2 ^ 10 + k)) + (a % 2 ^ 13 : ℕ) *
      (binary16.ulp (e * 2 ^ 10 + (2 ^ 10 + k)) / 2 ^ 13) := by
    rw [binary32_mag_normal (by omega), hmag, hulp, show ((a / 2 ^ 23 : ℕ) - 150 : ℤ) =
      -24 + (e : ℤ) - (13 : ℕ) by push_cast; omega, zpow_sub₀ two_ne_zero, zpow_natCast]
    have hsplit : ((2 ^ 23 + a % 2 ^ 23 : ℕ) : ℚ) =
        (2 ^ 10 + k : ℕ) * 2 ^ 13 + (a % 2 ^ 13 : ℕ) := by
      exact_mod_cast (show 2 ^ 23 + a % 2 ^ 23 = (2 ^ 10 + k) * 2 ^ 13 + a % 2 ^ 13 by omega)
    rw [hsplit]
    field_simp
  have heven : Even (e * 2 ^ 10 + (2 ^ 10 + k)) ↔ Even k := by
    rw [Nat.even_iff, Nat.even_iff]
    omega
  rw [← hvalue] at hnear
  rw [(binary16.isNearest_roundBits (binary32.mag_nonneg a)).unique hnear, ← hk]
  simp only [heven, show 2 ^ 12 = 0x1000 from rfl]
  split <;> omega

/-- Just below the first normal value: nearer to it than to the last subnormal one. -/
def BelowNormal (q : ℚ) : Prop := 2 ^ (-14 : ℤ) - 2 ^ (-25 : ℤ) ≤ q ∧ q < 2 ^ (-14 : ℤ)

instance (q : ℚ) : Decidable (BelowNormal q) := inferInstanceAs (Decidable (_ ∧ _))

theorem mag_first_normal : binary16.mag 0x400 = 2 ^ (-14 : ℤ) := by
  have hmag := (binary16_mag (e := 0) (n := 2 ^ 10) (by decide) (.inl rfl)).2
  rw [show 0x400 = 0 * 2 ^ 10 + 2 ^ 10 from rfl, hmag]
  norm_num

theorem mid_first_normal : binary16.mid 0x3FF = 2 ^ (-14 : ℤ) - 2 ^ (-25 : ℤ) := by
  have hulp := (binary16_mag (e := 0) (n := 0x3FF) (by decide) (.inl rfl)).1
  have hnext := binary16.mag_succ 0x3FF
  rw [show binary16.ulp 0x3FF = 2 ^ (-24 + ((0 : ℕ) : ℤ)) from hulp, mag_first_normal] at hnext
  rw [mid, show binary16.ulp 0x3FF = 2 ^ (-24 + ((0 : ℕ) : ℤ)) from hulp, ← sub_eq_iff_eq_add.mpr hnext]
  norm_num

theorem normal_le_mag (h : 113 ≤ a / 2 ^ 23) : 2 ^ (-14 : ℤ) ≤ binary32.mag a := by
  have hbound : binary32.mag (112 * 2 ^ 23 + 2 ^ 23) = 2 ^ (-14 : ℤ) := by
    rw [(binary32_mag (e := 112) (n := 2 ^ 23) (by decide) (.inr le_rfl)).2]
    norm_num
  rw [← hbound]
  exact binary32.mag_strictMono.monotone (by omega)

theorem mag_lt_normal (h : a / 2 ^ 23 ≤ 112) : binary32.mag a < 2 ^ (-14 : ℤ) := by
  have hbound : binary32.mag (112 * 2 ^ 23 + 2 ^ 23) = 2 ^ (-14 : ℤ) := by
    rw [(binary32_mag (e := 112) (n := 2 ^ 23) (by decide) (.inr le_rfl)).2]
    norm_num
  rw [← hbound]
  exact binary32.mag_strictMono (by omega)

/-- **The carry out of the mantissa** is that of the values just below the first normal one. -/
theorem roundBits_eq_normal_iff (h : a / 2 ^ 23 ≤ 112) :
    binary16.roundBits (binary32.mag a) ≤ 0x400 ∧
      (binary16.roundBits (binary32.mag a) = 0x400 ↔ BelowNormal (binary32.mag a)) := by
  have hlt := mag_lt_normal h
  have hnear := binary16.isNearest_roundBits (binary32.mag_nonneg a)
  have hle : binary16.roundBits (binary32.mag a) ≤ 0x400 :=
    hnear.mono (isNearest_mag 0x400) (mag_first_normal ▸ hlt.le)
  have hcarry := hnear.lt_iff_of_odd (c := 0x3FF) (by decide)
  rw [mid_first_normal] at hcarry
  exact ⟨hle, fun heq => ⟨hcarry.mp (heq ▸ Nat.lt_succ_self _), hlt⟩, fun hbelow =>
    le_antisymm hle (hcarry.mpr hbelow.1)⟩

end Branches

theorem toNat_withSign {s b : ℕ} (hs : s < 2) (hb : b < 2 ^ 15) :
    ((s * 2 ^ 15 ||| b).toUInt16).toNat = binary16.withSign s b := by
  have hlt : binary16.withSign s b < 2 ^ 16 := by
    change s * 2 ^ 15 + b < 2 ^ 16
    omega
  rw [or_sign s hb]
  exact Nat.mod_eq_of_lt hlt

/-- **Rounding an `f32` to an `f16`**: to the nearest one, except for what is just below the first
normal value. -/
theorem f32ToF16Bits_toNat {x : F32} (hx : x.isNan = false) :
    (f32ToF16Bits x).toNat = binary16.withSign (binary32.signBit x.bits.toNat)
      (if BelowNormal (binary32.mag (binary32.magBits x.bits.toNat)) then 0
        else min (binary16.roundBits (binary32.mag (binary32.magBits x.bits.toNat))) 0x7C00) := by
  obtain ⟨a, ha⟩ : ∃ a, a = binary32.magBits x.bits.toNat := ⟨_, rfl⟩
  obtain ⟨s, hs⟩ : ∃ s, s = binary32.signBit x.bits.toNat := ⟨_, rfl⟩
  have hs2 : s < 2 := hs ▸ binary32.signBit_lt _
  have hanan : a ≤ 255 * 2 ^ 23 := by
    rw [ha]
    exact not_lt.mp (of_decide_eq_false hx)
  have hnot : 2 ^ (-14 : ℤ) ≤ binary32.mag a → ¬BelowNormal (binary32.mag a) := fun h hb =>
    absurd hb.2 (not_lt.mpr h)
  rw [f32ToF16Bits.eq_def]
  simp only [sign_bits, exponent_bits, mantissa_bits, ← ha, ← hs, and_one_eq_one]
  rcases lt_or_ge (a / 2 ^ 23) 143 with hlt | hge
  · rw [if_neg (by omega), if_neg (by omega)]
    rcases lt_or_ge (a / 2 ^ 23) 113 with hsub | hnormal
    · rw [if_pos (by omega)]
      rcases lt_or_ge (a / 2 ^ 23) 102 with htiny | hsubnormal
      · obtain ⟨hmag, hround⟩ := roundBits_of_tiny htiny
        have hbelow : ¬BelowNormal (binary32.mag a) := fun hb => by
          have hpow : (2 : ℚ) ^ (-25 : ℤ) ≤ 2 ^ (-14 : ℤ) - 2 ^ (-25 : ℤ) := by norm_num
          exact absurd hmag (not_lt.mpr (hpow.trans hb.1))
        have hzero := toNat_withSign hs2 (b := 0) (by decide)
        rw [Nat.or_zero] at hzero
        rw [if_pos (by omega), hround, if_neg hbelow]
        exact hzero
      · obtain ⟨shift, hshift⟩ : ∃ shift, shift + 1 + a / 2 ^ 23 = 126 := ⟨125 - a / 2 ^ 23, by omega⟩
        have hto : (14 - ((a / 2 ^ 23 : ℕ) - 112 : ℤ)).toNat = shift + 1 := by omega
        have hfull : a % 2 ^ 23 ||| 0x800000 = 2 ^ 23 + a % 2 ^ 23 := by
          rw [Nat.or_comm]
          exact (Nat.two_pow_add_eq_or_of_lt (i := 23) (by omega) 1).symm
        obtain ⟨hle, hiff⟩ := roundBits_eq_normal_iff (by omega : a / 2 ^ 23 ≤ 112)
        rw [if_neg (by omega), hto, hfull, Nat.add_sub_cancel, Nat.shiftLeft_eq, Nat.shiftLeft_eq,
          Nat.one_mul, Nat.one_mul, Nat.and_two_pow_sub_one_eq_mod, Nat.shiftRight_eq_div_pow,
          ← roundBits_of_subnormal hshift hsubnormal (by omega),
          Nat.and_two_pow_sub_one_eq_mod _ 10]
        by_cases hbelow : BelowNormal (binary32.mag a)
        · rw [if_pos hbelow, hiff.mpr hbelow]
          exact toNat_withSign hs2 (b := 0) (by decide)
        · have hlt' : binary16.roundBits (binary32.mag a) < 0x400 :=
            lt_of_le_of_ne hle fun h => hbelow (hiff.mp h)
          rw [if_neg hbelow, Nat.mod_eq_of_lt hlt', min_eq_left (by omega)]
          exact toNat_withSign hs2 (by omega)
    · rw [if_neg (by omega), if_neg (hnot (normal_le_mag hnormal)), roundBits_of_normal hnormal hlt,
        Nat.and_two_pow_sub_one_eq_mod _ 13, Nat.shiftRight_eq_div_pow,
        Nat.mod_mod_of_dvd a (Nat.pow_dvd_pow 2 (by decide))]
      obtain ⟨k, hk⟩ : ∃ k, k = a % 2 ^ 23 / 2 ^ 13 := ⟨_, rfl⟩
      have hk10 : k < 2 ^ 10 := by omega
      have hpack : ∀ e k : ℕ, k < 2 ^ 10 → e < 31 →
          ((s * 2 ^ 15 ||| e <<< 10 ||| k).toUInt16).toNat =
            binary16.withSign s (min (e * 2 ^ 10 + k) 0x7C00) := fun e k hk he => by
        rw [Nat.or_assoc, ← Nat.shiftLeft_add_eq_or_of_lt hk, Nat.shiftLeft_eq,
          min_eq_left (by omega)]
        exact toNat_withSign hs2 (by omega)
      have hto : ((a / 2 ^ 23 : ℕ) - 112 : ℤ).toNat = a / 2 ^ 23 - 112 := by omega
      have hto' : ((a / 2 ^ 23 : ℕ) - 112 + 1 : ℤ).toNat = a / 2 ^ 23 - 112 + 1 := by omega
      rw [hto, hto', ← hk]
      by_cases hup : 0x1000 < a % 2 ^ 13 ∨ a % 2 ^ 13 = 0x1000 ∧ ¬Even k
      · rw [if_pos hup, if_pos hup]
        by_cases hcarry : k + 1 = 0x400
        · -- the carry leaves the mantissa and counts the exponent up
          rw [if_pos hcarry, hcarry]
          split
          · rw [min_eq_right (by omega)]
            exact toNat_withSign hs2 (by decide)
          · rw [hpack _ 0 (by decide) (by omega)]
            exact congrArg (fun b => binary16.withSign s (min b 0x7C00)) (by omega)
        · rw [if_neg hcarry]
          exact hpack _ _ (by omega) (by omega)
      · rw [if_neg hup, if_neg hup]
        exact hpack _ _ hk10 (by omega)
  · obtain ⟨hmag, hround⟩ := le_roundBits_of_large hge
    rw [if_neg (hnot (le_trans (by norm_num) hmag)), min_eq_right hround]
    have hinf := toNat_withSign hs2 (b := 0x7C00) (by decide)
    split
    · rw [if_pos (by omega)]
      exact hinf
    · rw [if_pos (by omega)]
      exact hinf

/-! ### Every `f16` is an `f32` -/

section Widening

variable (h : UInt16)

theorem sign_bits16 (b : ℕ) : (b &&& 0x8000) <<< 16 = binary16.signBit b * 2 ^ 31 := by
  rw [show 0x8000 = 2 ^ 15 from rfl, and_two_pow, Nat.shiftLeft_eq, Nat.mul_assoc, ← Nat.pow_add]
  rfl

theorem exponent_bits16 (b : ℕ) : b >>> 10 &&& 0x1F = binary16.magBits b / 2 ^ 10 := by
  rw [Nat.and_two_pow_sub_one_eq_mod _ 5, Nat.shiftRight_eq_div_pow, magBits]
  exact (Nat.mod_mul_right_div_self b (2 ^ 10) (2 ^ 5)).symm

theorem mantissa_bits16 (b : ℕ) : b &&& 0x3FF = binary16.magBits b % 2 ^ 10 := by
  rw [Nat.and_two_pow_sub_one_eq_mod _ 10, magBits]
  exact (Nat.mod_mod_of_dvd b (Nat.pow_dvd_pow 2 (by decide))).symm

theorem toNat_withSign32 {s e m : ℕ} (hs : s < 2) (he : e < 2 ^ 8) (hm : m < 2 ^ 23) :
    ((s * 2 ^ 31 ||| e <<< 23 ||| m).toUInt32).toNat = binary32.withSign s (e * 2 ^ 23 + m) := by
  have hlow : e * 2 ^ 23 + m < 2 ^ 31 := by omega
  have hlt : s * 2 ^ 31 + (e * 2 ^ 23 + m) < 2 ^ 32 := by
    clear hlow
    omega
  rw [Nat.or_assoc, ← Nat.shiftLeft_add_eq_or_of_lt hm, Nat.shiftLeft_eq, Nat.mul_comm s,
    ← Nat.two_pow_add_eq_or_of_lt hlow, Nat.mul_comm _ s]
  exact UInt32.toNat_ofNat_of_lt' hlt

/-- **An `f16` that is a number** has the sign and the magnitude of its `f32`. -/
theorem f16ToF32_toNat {h : UInt16} (hn : binary16.isNan h.toNat = false) :
    ∃ w, (f16ToF32 h).bits.toNat = binary32.withSign (binary16.signBit h.toNat) w ∧
      w ≤ binary32.infBits ∧ (binary16.magBits h.toNat = 0x7C00 ↔ w = binary32.infBits) ∧
      (binary16.magBits h.toNat < 0x7C00 →
        binary32.mag w = binary16.mag (binary16.magBits h.toNat)) := by
  have hb : binary16.magBits h.toNat ≤ 31 * 2 ^ 10 := not_lt.mp (of_decide_eq_false hn)
  have hs := binary16.signBit_lt h.toNat
  have hexp := exponent_bits16 h.toNat
  have hmant := mantissa_bits16 h.toNat
  obtain ⟨b, hbdef⟩ : ∃ b, b = binary16.magBits h.toNat := ⟨_, rfl⟩
  have hinf : binary32.infBits = 255 * 2 ^ 23 := rfl
  rw [f16ToF32.eq_def]
  dsimp only
  rw [← hbdef] at hb hexp hmant ⊢
  rw [sign_bits16, hexp, hinf]
  by_cases h0 : b / 2 ^ 10 = 0
  · rw [if_pos h0]
    by_cases hm : h.toNat &&& 0x3FF = 0
    · have hzero := toNat_withSign32 (e := 0) (m := 0) hs (by decide) (by decide)
      rw [Nat.zero_shiftLeft, Nat.or_zero, Nat.or_zero, Nat.zero_mul] at hzero
      rw [dif_pos hm]
      refine ⟨0, hzero, by omega, by omega, fun _ => ?_⟩
      rw [(by omega : b = 0), mag_zero, mag_zero]
    · obtain ⟨k, hk, hle, hlt⟩ := renormalize_spec 10 _ 1 (mantissa_bounds hm)
      have hmb : h.toNat &&& 0x3FF = b := by omega
      rw [hmb] at hle hlt
      have hk10 : k ≤ 10 := by
        have hpow : 2 ^ k < 2 ^ 11 := (Nat.le_mul_of_pos_left _ (by omega)).trans_lt hlt
        exact Nat.lt_succ_iff.mp ((Nat.pow_lt_pow_iff_right one_lt_two).mp hpow)
      rw [dif_neg hm, hk, hmb]
      rw [Nat.and_two_pow_sub_one_eq_mod _ 10, show ((1 : ℤ) - k + 112).toNat = 113 - k by omega,
        Nat.shiftLeft_eq (b * 2 ^ k % 2 ^ 10)]
      refine ⟨_, toNat_withSign32 hs (by omega) (by omega), by omega, by omega, fun _ => ?_⟩
      have hmag := (binary32_mag (e := 112 - k) (n := b * 2 ^ k * 2 ^ 13) (by omega)
        (.inr (by omega))).2
      have hmag16 := (binary16_mag (e := 0) (n := b) (by omega) (.inl rfl)).2
      rw [zero_mul, zero_add] at hmag16
      rw [show (113 - k) * 2 ^ 23 + b * 2 ^ k % 2 ^ 10 * 2 ^ 13 =
        (112 - k) * 2 ^ 23 + b * 2 ^ k * 2 ^ 13 by omega, hmag, hmag16,
        show (-149 + ((112 - k : ℕ) : ℤ)) = -24 + ((0 : ℕ) : ℤ) - ((k + 13 : ℕ) : ℤ) by push_cast; omega,
        zpow_sub₀ two_ne_zero, zpow_natCast, pow_add]
      push_cast
      field_simp
      norm_num
  · rw [if_neg h0]
    split
    · next h31 =>
      have hmant' : (h.toNat &&& 0x3FF) = 0 := by omega
      have hwide := toNat_withSign32 (e := 255) (m := 0) hs (by decide) (by decide)
      rw [hmant']
      exact ⟨_, hwide, by omega, by omega, fun hlt => by omega⟩
    · rw [hmant, Nat.shiftLeft_eq (b % 2 ^ 10)]
      refine ⟨_, toNat_withSign32 hs (by omega) (by omega), by omega, by omega, fun _ => ?_⟩
      obtain ⟨e, he⟩ : ∃ e, b / 2 ^ 10 = e + 1 := ⟨b / 2 ^ 10 - 1, by omega⟩
      have hmag := (binary32_mag (e := e + 112) (n := (2 ^ 10 + b % 2 ^ 10) * 2 ^ 13) (by omega)
        (.inr (by omega))).2
      have hmag16 := (binary16_mag (e := e) (n := 2 ^ 10 + b % 2 ^ 10) (by omega)
        (.inr (by omega))).2
      rw [show e * 2 ^ 10 + (2 ^ 10 + b % 2 ^ 10) = b by omega] at hmag16
      rw [show (b / 2 ^ 10 + 112) * 2 ^ 23 + b % 2 ^ 10 * 2 ^ 13 =
        (e + 112) * 2 ^ 23 + (2 ^ 10 + b % 2 ^ 10) * 2 ^ 13 by omega, hmag, hmag16,
        show (-149 + ((e + 112 : ℕ) : ℤ)) = -24 + (e : ℤ) - ((13 : ℕ) : ℤ) by push_cast; omega,
        zpow_sub₀ two_ne_zero, zpow_natCast]
      push_cast
      field_simp
      norm_num

end Widening

/-! ### The conversions -/

section Conversions

variable {x y : F32} {h : UInt16}

/-- `h` is `x` rounded to the nearest `f16`. -/
structure CorrectlyRounded (x : F32) (h : UInt16) : Prop where
  sign : binary16.signBit h.toNat = binary32.signBit x.bits.toNat
  not_nan : binary16.isNan h.toNat = false
  infinite : binary16.isInfinite h.toNat = true ↔ x.isInfinite = true ∨ 65520 ≤ |x.value|
  nearest : binary16.isFinite h.toNat = true → ∀ c : UInt16, binary16.isFinite c.toNat = true →
    |binary16.value h.toNat - x.value| ≤ |binary16.value c.toNat - x.value| ∧
      (|binary16.value h.toNat - x.value| = |binary16.value c.toNat - x.value| →
        binary16.value c.toNat ≠ binary16.value h.toNat → Even h.toNat)

theorem mid_last_finite : binary16.mid 0x7BFF = 65520 := by
  obtain ⟨hulp, hmag⟩ := binary16_mag (e := 29) (n := 0x7FF) (by decide) (.inr (by decide))
  rw [show 29 * 2 ^ 10 + 0x7FF = 0x7BFF from rfl] at hulp hmag
  rw [mid, hulp, hmag]
  norm_num

/-- The magnitude that an `f32` is rounded to. -/
theorem f32ToF16Bits_parts (hx : x.isNan = false) (hbelow : ¬BelowNormal |x.value|) :
    binary16.signBit (f32ToF16Bits x).toNat = binary32.signBit x.bits.toNat ∧
      binary16.magBits (f32ToF16Bits x).toNat = min (binary16.roundBits |x.value|) 0x7C00 := by
  have hlt : min (binary16.roundBits |x.value|) 0x7C00 < 2 ^ 15 :=
    (min_le_right _ _).trans_lt (by decide)
  have heq := f32ToF16Bits_toNat hx
  rw [F32.value, abs_value] at hbelow hlt ⊢
  rw [heq, if_neg hbelow]
  exact ⟨signBit_withSign (binary32.signBit_lt _) hlt, magBits_withSign hlt⟩

/-- A number of the other sign is not nearer than the one with the same sign. -/
theorem nearest_of_magnitude {s : ℕ} {b : ℕ} {q : ℚ} (hb : binary16.IsNearest q b) (hq : 0 ≤ q) (t d : ℕ) :
    |(if s = 1 then -binary16.mag b else binary16.mag b) - (if s = 1 then -q else q)| ≤
        |(if t = 1 then -binary16.mag d else binary16.mag d) - (if s = 1 then -q else q)| ∧
      (|(if s = 1 then -binary16.mag b else binary16.mag b) - (if s = 1 then -q else q)| =
        |(if t = 1 then -binary16.mag d else binary16.mag d) - (if s = 1 then -q else q)| →
        (if t = 1 then -binary16.mag d else binary16.mag d) ≠
          (if s = 1 then -binary16.mag b else binary16.mag b) → Even b) := by
  have hd := binary16.mag_nonneg d
  obtain ⟨hle, heven⟩ := hb d
  have hself : |(if s = 1 then -binary16.mag b else binary16.mag b) - (if s = 1 then -q else q)| =
      |binary16.mag b - q| := by
    split
    · rw [← abs_neg]
      congr 1
      ring
    · rfl
  rw [hself]
  by_cases hst : (t = 1) ↔ (s = 1)
  · -- the signs agree, and the magnitudes are compared
    have hother : |(if t = 1 then -binary16.mag d else binary16.mag d) - (if s = 1 then -q else q)| =
        |binary16.mag d - q| := by
      by_cases hs : s = 1
      · rw [if_pos hs, if_pos (hst.mpr hs), ← abs_neg]
        congr 1
        ring
      · rw [if_neg hs, if_neg fun h => hs (hst.mp h)]
    rw [hother]
    refine ⟨hle, fun heq hne => heven heq fun hdb => hne ?_⟩
    rw [hdb]
    exact if_congr hst rfl rfl
  · -- the signs differ, and zero is between the two numbers
    have hother : |(if t = 1 then -binary16.mag d else binary16.mag d) - (if s = 1 then -q else q)| =
        binary16.mag d + q := by
      by_cases hs : s = 1
      · rw [if_pos hs, if_neg fun h => hst ⟨fun _ => hs, fun _ => h⟩, sub_neg_eq_add]
        exact abs_of_nonneg (add_nonneg hd hq)
      · have ht : t = 1 := by
          by_contra ht
          exact hst ⟨fun h => absurd h ht, fun h => absurd h hs⟩
        rw [if_neg hs, if_pos ht, ← abs_neg, neg_sub, sub_neg_eq_add, add_comm]
        exact abs_of_nonneg (add_nonneg hd hq)
    have htri : |binary16.mag d - q| ≤ binary16.mag d + q := by
      rw [abs_le]
      constructor <;> linarith
    rw [hother]
    refine ⟨hle.trans htri, fun heq _ => ?_⟩
    obtain ⟨hzero, heven0⟩ := hb 0
    rw [mag_zero, zero_sub, abs_neg, abs_of_nonneg hq] at hzero heven0
    by_cases hb0 : 0 = b
    · exact hb0 ▸ Even.zero
    · exact heven0 (le_antisymm hzero (heq ▸ le_add_of_nonneg_left hd)) hb0

theorem infinite_iff (x : F32) :
    0x7C00 ≤ binary16.roundBits |x.value| ↔ x.isInfinite = true ∨ 65520 ≤ |x.value| := by
  have hnear := binary16.isNearest_roundBits (abs_nonneg x.value)
  have hlt := hnear.lt_iff_of_odd (c := 0x7BFF) (by decide)
  rw [mid_last_finite] at hlt
  refine ⟨fun h => .inr (hlt.mp h), ?_⟩
  rintro (hinf | hle)
  · rw [F32.value, abs_value]
    have hmag : binary32.magBits x.bits.toNat = 255 * 2 ^ 23 := of_decide_eq_true hinf
    exact (le_roundBits_of_large (by omega)).2
  · exact hlt.mpr hle

/-- **An `f32` is rounded correctly** unless it is just below the first normal `f16`. -/
theorem correctlyRounded_iff (hx : x.isNan = false) :
    CorrectlyRounded x (f32ToF16Bits x) ↔ ¬BelowNormal |x.value| := by
  constructor
  · intro hcorrect hbelow
    have heq := f32ToF16Bits_toNat hx
    have hmag : binary16.magBits (f32ToF16Bits x).toNat = 0 := by
      rw [F32.value, abs_value] at hbelow
      rw [heq, if_pos hbelow]
      exact magBits_withSign (Nat.two_pow_pos _)
    have hs := binary32.signBit_lt x.bits.toNat
    have hval : x.value = if binary32.signBit x.bits.toNat = 1 then -|x.value| else |x.value| := by
      rw [F32.value, abs_value]
      rfl
    -- the first normal value is nearer than zero
    have hlt : binary16.withSign (binary32.signBit x.bits.toNat) 0x400 < 2 ^ 16 := by
      change binary32.signBit x.bits.toNat * 2 ^ 15 + 0x400 < 2 ^ 16
      omega
    obtain ⟨c, hc⟩ : ∃ c : UInt16,
        c.toNat = binary16.withSign (binary32.signBit x.bits.toNat) 0x400 :=
      ⟨_, UInt16.toNat_ofNat_of_lt' hlt⟩
    have hcmag : binary16.magBits c.toNat = 0x400 := hc ▸ magBits_withSign (by decide)
    have hcsign : binary16.signBit c.toNat = binary32.signBit x.bits.toNat :=
      hc ▸ signBit_withSign hs (by decide)
    have hle := (hcorrect.nearest (by rw [isFinite, hmag]; rfl) c (by rw [isFinite, hcmag]; rfl)).1
    have hzero : binary16.value (f32ToF16Bits x).toNat = 0 := by
      rw [value, hmag, mag_zero, neg_zero, ite_self]
    have hnormal : |binary16.value c.toNat - x.value| = 2 ^ (-14 : ℤ) - |x.value| := by
      rw [value, hcmag, hcsign, mag_first_normal, hval, abs_ite, abs_neg, abs_abs, ite_self]
      split
      · rw [← abs_neg, abs_of_nonneg (by linarith [hbelow.2])]
        ring
      · exact abs_of_nonneg (by linarith [hbelow.2])
    rw [hzero, zero_sub, abs_neg, hnormal] at hle
    have hpow : (2 : ℚ) ^ (-25 : ℤ) * 4 < 2 ^ (-14 : ℤ) := by norm_num
    linarith [hbelow.1, zpow_pos (two_pos : (0 : ℚ) < 2) (-25)]
  · intro hbelow
    obtain ⟨hsign, hmag⟩ := f32ToF16Bits_parts hx hbelow
    have hinf := infinite_iff x
    have hnear := binary16.isNearest_roundBits (abs_nonneg x.value)
    have hinfBits : binary16.infBits = 0x7C00 := rfl
    refine ⟨hsign, ?_, ?_, fun hfin c hc => ?_⟩
    · rw [isNan, hmag, hinfBits]
      exact decide_eq_false (not_lt.mpr (min_le_right _ _))
    · rw [← hinf, isInfinite, hmag, hinfBits, decide_eq_true_eq, min_eq_right_iff]
    · have hlt : binary16.roundBits |x.value| < 0x7C00 := by
        rw [isFinite, hmag, hinfBits, decide_eq_true_eq] at hfin
        exact not_le.mp fun hle => absurd hfin (by rw [min_eq_right hle]; exact lt_irrefl _)
      have heven : Even (f32ToF16Bits x).toNat ↔ Even (binary16.roundBits |x.value|) := by
        have hlow : binary16.magBits (f32ToF16Bits x).toNat = binary16.roundBits |x.value| :=
          hmag.trans (min_eq_left hlt.le)
        rw [← hlow, magBits, Nat.even_iff, Nat.even_iff, Nat.mod_mod_of_dvd _
          (show 2 ∣ 2 ^ (binary16.mant + binary16.exp) by decide)]
      have hvalue : x.value = if binary32.signBit x.bits.toNat = 1 then -|x.value| else |x.value| := by
        rw [F32.value, abs_value]
        rfl
      have hall := nearest_of_magnitude (s := binary32.signBit x.bits.toNat) hnear (abs_nonneg x.value)
        (binary16.signBit c.toNat) (binary16.magBits c.toNat)
      rw [← hvalue] at hall
      rw [heven, value, hsign, hmag, min_eq_left hlt.le]
      exact hall

theorem f32ToF16Bits_not_nan (hx : x.isNan = false) (hbelow : ¬BelowNormal |x.value|) :
    binary16.isNan (f32ToF16Bits x).toNat = false := ((correctlyRounded_iff hx).mpr hbelow).not_nan

/-- **Rounding is monotone** where it is correct. -/
theorem f32ToF16Bits_mono (hx : x.isNan = false) (hy : y.isNan = false)
    (hbx : ¬BelowNormal |x.value|) (hby : ¬BelowNormal |y.value|)
    (hle : binary32.extValue x.bits.toNat ≤ binary32.extValue y.bits.toNat) :
    binary16.extValue (f32ToF16Bits x).toNat ≤ binary16.extValue (f32ToF16Bits y).toNat := by
  obtain ⟨hsx, hmx⟩ := f32ToF16Bits_parts hx hbx
  obtain ⟨hsy, hmy⟩ := f32ToF16Bits_parts hy hby
  rw [extValue_le_iff (by decide) hx hy, key, key] at hle
  rw [extValue_le_iff (by decide) (f32ToF16Bits_not_nan hx hbx) (f32ToF16Bits_not_nan hy hby), key,
    key, hsx, hsy, hmx, hmy]
  have hround : ∀ {a b : ℕ}, a ≤ b → min (binary16.roundBits (binary32.mag a)) 0x7C00 ≤
      min (binary16.roundBits (binary32.mag b)) 0x7C00 := fun h =>
    min_le_min_right _ (binary16.roundBits_mono (binary32.mag_nonneg _)
      (binary32.mag_strictMono.monotone h))
  have hzero : binary16.roundBits (binary32.mag 0) = 0 := by
    have h := binary16.roundBits_mag 0
    rwa [mag_zero, ← binary32.mag_zero] at h
  rw [F32.value, F32.value, abs_value, abs_value]
  split at hle <;> split at hle
  · next hx1 hy1 =>
    have h := hround (show binary32.magBits y.bits.toNat ≤ binary32.magBits x.bits.toNat by omega)
    omega
  · next hx1 hy1 =>
    omega
  · next hx1 hy1 =>
    rw [if_neg hx1, if_pos hy1, (by omega : binary32.magBits x.bits.toNat = 0),
      (by omega : binary32.magBits y.bits.toNat = 0), hzero]
    rfl
  · next hx1 hy1 =>
    have h := hround (show binary32.magBits x.bits.toNat ≤ binary32.magBits y.bits.toNat by omega)
    omega

/-- **Every finite `f16`** is an `f32` exactly. -/
theorem f16ToF32_value (hh : binary16.isFinite h.toNat = true) :
    (f16ToF32 h).isFinite = true ∧ (f16ToF32 h).value = binary16.value h.toNat := by
  have hlt : binary16.magBits h.toNat < 0x7C00 := of_decide_eq_true hh
  obtain ⟨w, hw, hwle, hinf, hmag⟩ := f16ToF32_toNat (h := h) (decide_eq_false (not_lt.mpr hlt.le))
  have hwlt : w < 2 ^ (binary32.mant + binary32.exp) := hwle.trans_lt binary32.infBits_lt
  have hmagw : binary32.magBits (f16ToF32 h).bits.toNat = w := hw ▸ magBits_withSign hwlt
  have hsign : binary32.signBit (f16ToF32 h).bits.toNat = binary16.signBit h.toNat :=
    hw ▸ signBit_withSign (binary16.signBit_lt _) hwlt
  constructor
  · rw [F32.isFinite, isFinite, hmagw]
    exact decide_eq_true (lt_of_le_of_ne hwle fun h => absurd (hinf.mpr h) hlt.ne)
  · rw [F32.value, value, value, hmagw, hsign, hmag hlt]

theorem not_belowNormal_mag16 (b : ℕ) : ¬BelowNormal (binary16.mag b) := by
  rintro ⟨hlow, hhigh⟩
  rw [← mag_first_normal] at hhigh
  rw [← mid_first_normal] at hlow
  have hlt : b < 0x400 := binary16.mag_strictMono.lt_iff_lt.mp hhigh
  have hle : binary16.mag b ≤ binary16.mag 0x3FF := binary16.mag_strictMono.monotone (by omega)
  exact absurd (hlow.trans hle) (not_le.mpr (mag_lt_mid 0x3FF))

/-- **An `f16` that is a number** is rounded to itself. -/
theorem f32ToF16Bits_f16ToF32 (hh : binary16.isNan h.toNat = false) :
    f32ToF16Bits (f16ToF32 h) = h := by
  have hle : binary16.magBits h.toNat ≤ 0x7C00 := not_lt.mp (of_decide_eq_false hh)
  obtain ⟨w, hw, hwle, hinf, hmag⟩ := f16ToF32_toNat hh
  have hwlt : w < 2 ^ (binary32.mant + binary32.exp) := hwle.trans_lt binary32.infBits_lt
  have hmagw : binary32.magBits (f16ToF32 h).bits.toNat = w := hw ▸ magBits_withSign hwlt
  have hsign : binary32.signBit (f16ToF32 h).bits.toNat = binary16.signBit h.toNat :=
    hw ▸ signBit_withSign (binary16.signBit_lt _) hwlt
  have hnan : (f16ToF32 h).isNan = false := by
    rw [F32.isNan, isNan, hmagw]
    exact decide_eq_false (not_lt.mpr hwle)
  have hself := withSign_magBits (f := binary16) h.toNat_lt
  have hinf32 : binary32.infBits = 255 * 2 ^ 23 := rfl
  refine UInt16.toNat_inj.mp ?_
  rw [f32ToF16Bits_toNat hnan, hmagw, hsign]
  rcases hle.lt_or_eq with hlt | heq
  · rw [hmag hlt, if_neg (not_belowNormal_mag16 _), roundBits_mag, min_eq_left hle, hself]
  · obtain ⟨hbig, hround⟩ := le_roundBits_of_large (a := w) (by rw [hinf.mp heq, hinf32]; decide)
    have hnot : ¬BelowNormal (binary32.mag w) := fun hb => by
      have hpow : (2 : ℚ) ^ (-14 : ℤ) < 2 ^ 16 := by norm_num
      exact absurd hb.2 (not_lt.mpr (hpow.le.trans hbig))
    rw [if_neg hnot, min_eq_right hround, ← heq, hself]

end Conversions

/-- **The conversions between `f32` and `f16`**: rounding is correct, and then monotone, unless the
value is just below the first normal one; every finite `f16` is an `f32` exactly, and comes back
from it. -/
theorem conversions_spec (x y : F32) (h : UInt16) (hx : x.isNan = false) (hy : y.isNan = false)
    (hh : binary16.isNan h.toNat = false) :
    (CorrectlyRounded x (f32ToF16Bits x) ↔ ¬BelowNormal |x.value|) ∧
      (¬BelowNormal |x.value| → ¬BelowNormal |y.value| →
        binary32.extValue x.bits.toNat ≤ binary32.extValue y.bits.toNat →
        binary16.extValue (f32ToF16Bits x).toNat ≤ binary16.extValue (f32ToF16Bits y).toNat) ∧
      (binary16.isFinite h.toNat = true →
        (f16ToF32 h).isFinite = true ∧ (f16ToF32 h).value = binary16.value h.toNat) ∧
      f32ToF16Bits (f16ToF32 h) = h :=
  ⟨correctlyRounded_iff hx, fun hbx hby hle => f32ToF16Bits_mono hx hy hbx hby hle, f16ToF32_value,
    f32ToF16Bits_f16ToF32 hh⟩

theorem one_correctlyRounded :
    CorrectlyRounded ⟨0x3F800000⟩ (f32ToF16Bits ⟨0x3F800000⟩) ∧ f32ToF16Bits (f16ToF32 1) = 1 := by
  have hmag := (binary32_mag (e := 126) (n := 2 ^ 23) (by decide) (.inr le_rfl)).2
  have hbelow : ¬BelowNormal |(⟨0x3F800000⟩ : F32).value| := fun hb => by
    rw [F32.value, abs_value] at hb
    have hlt : binary32.mag (126 * 2 ^ 23 + 2 ^ 23) < 2 ^ (-14 : ℤ) := hb.2
    rw [hmag] at hlt
    norm_num at hlt
  obtain ⟨hrounded, -, -, hback⟩ :=
    conversions_spec ⟨0x3F800000⟩ ⟨0x3F800000⟩ 1 (by decide) (by decide) (by decide)
  exact ⟨hrounded.mpr hbelow, hback⟩

/-- **The greatest `f32` below the first normal `f16`** is rounded to zero. -/
theorem belowNormal_lost : (⟨0x387FFFFF⟩ : F32).isNan = false ∧ f32ToF16Bits ⟨0x387FFFFF⟩ = 0 ∧
    ¬CorrectlyRounded ⟨0x387FFFFF⟩ (f32ToF16Bits ⟨0x387FFFFF⟩) := by
  have hnan : (⟨0x387FFFFF⟩ : F32).isNan = false := by decide
  refine ⟨hnan, by decide, fun hcorrect => (correctlyRounded_iff hnan).mp hcorrect ?_⟩
  have hmag := (binary32_mag (e := 111) (n := 2 ^ 24 - 1) (by decide) (.inr (by decide))).2
  have hbits : binary32.magBits (⟨0x387FFFFF⟩ : F32).bits.toNat = 111 * 2 ^ 23 + (2 ^ 24 - 1) := by
    decide
  rw [F32.value, abs_value, hbits, hmag]
  constructor <;> norm_num

end R9v.Format

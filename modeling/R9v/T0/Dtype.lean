import R9v.Format.Encode
import R9v.Lib.FloatOps
import Mathlib.Data.Nat.Size

/-!
# Numbers of other types, by their bits

The conversions of the kernels (`r9v-t0/src/dtype.rs`), on the bits of an `f32`, beside those of the
format (`r9v-format/src/scales.rs`). Both are written by hand. They round alike except for two kinds
of numbers (`scalar_codecs`): the conversion to `f16` of the format loses what is just below the
first normal value, and the one to `E4M3` of the kernels loses the sign of what is rounded to zero.

A number of eight bits is found by a search through all codes, whose distances are rounded; the
search finds the nearest one (`search_spec`).
-/

namespace R9v.Format.F32

open FloatFormat

/-! ### Operations -/

def neg (x : F32) : F32 := ⟨(binary32.neg x.bits.toNat).toUInt32⟩

def add (x y : F32) : F32 := ⟨(binary32.add x.bits.toNat y.bits.toNat).toUInt32⟩

def sub (x y : F32) : F32 := ⟨(binary32.sub x.bits.toNat y.bits.toNat).toUInt32⟩

def mul (x y : F32) : F32 := ⟨(binary32.mul x.bits.toNat y.bits.toNat).toUInt32⟩

/-- An integer, rounded to the nearest number. -/
def ofInt (n : ℤ) : F32 := ⟨(binary32.ofInt n).toUInt32⟩

/-- A power of two that is a normal number. -/
def twoPowi (e : ℤ) : F32 := ⟨((e + 127).toNat <<< 23).toUInt32⟩

theorem neg_toNat (x : F32) : x.neg.bits.toNat = binary32.neg x.bits.toNat :=
  UInt32.toNat_ofNat_of_lt' (withSign_lt (Nat.sub_lt_succ 1 _) (binary32.magBits_lt _))

theorem sub_toNat (x y : F32) : (x.sub y).bits.toNat = binary32.sub x.bits.toNat y.bits.toNat :=
  UInt32.toNat_ofNat_of_lt' (sub_lt (f := binary32) (by decide) x.bits.toNat_lt)

theorem isFinite_neg (x : F32) : x.neg.isFinite = x.isFinite := by
  rw [isFinite, isFinite, neg_toNat, FloatFormat.isFinite_neg]

end R9v.Format.F32

namespace R9v.Dtype

open Checked FloatFormat Format

/-! ### Half precision -/

/-- Half precision, rounded to the nearest even. -/
def f32ToF16 (val : F32) : UInt16 :=
  let u := val.bits.toNat
  let sign := u >>> 31 &&& 1
  let exp := u >>> 23 &&& 0xFF
  let mant := u &&& 0x7FFFFF
  if exp = 0xFF then
    if mant ≠ 0 then (sign <<< 15 ||| 0x7E00 ||| max (mant >>> 13) 1).toUInt16
    else (sign <<< 15 ||| 0x7C00).toUInt16
  else if exp = 0 then (sign <<< 15).toUInt16
  else
    let newExp : ℤ := exp - 127 + 15
    if 31 ≤ newExp then (sign <<< 15 ||| 0x7C00).toUInt16
    else if newExp ≤ 0 then
      if newExp < -10 then (sign <<< 15).toUInt16
      else
        let shift := (14 - newExp).toNat
        let fullMant := mant ||| 0x800000
        let half := 1 <<< (shift - 1)
        let lsb := fullMant >>> shift &&& 1
        let rounded := fullMant + half - 1 + lsb
        (sign <<< 15 ||| rounded >>> shift).toUInt16
    else
      let lsb := mant >>> 13 &&& 1
      let roundingBias := 0x0FFF + lsb
      let roundedMant := mant + roundingBias
      if 0x800000 ≤ roundedMant then
        if 31 ≤ newExp + 1 then (sign <<< 15 ||| 0x7C00).toUInt16
        else (sign <<< 15 ||| (newExp + 1).toNat <<< 10).toUInt16
      else (sign <<< 15 ||| newExp.toNat <<< 10 ||| roundedMant >>> 13).toUInt16

/-- The zeros before the first bit of a word. -/
def leadingZeros (m : ℕ) : ℕ := 32 - m.size

def f16ToF32 (bits : UInt16) : F32 :=
  let b := bits.toNat
  let sign := b >>> 15 &&& 1
  let exp := b >>> 10 &&& 0x1F
  let mant := b &&& 0x3FF
  if exp = 0x1F then
    if mant = 0 then ⟨(sign <<< 31 ||| 0x7F800000).toUInt32⟩
    else ⟨(sign <<< 31 ||| 0x7FC00000 ||| mant <<< 13).toUInt32⟩
  else if exp = 0 then
    if mant = 0 then ⟨(sign <<< 31).toUInt32⟩
    else
      let shift := leadingZeros mant - 21
      let normalizedMant := mant <<< shift &&& 0x3FF
      let finalExp := 113 - shift
      ⟨(sign <<< 31 ||| finalExp <<< 23 ||| normalizedMant <<< 13).toUInt32⟩
  else
    let finalExp := exp + 112
    ⟨(sign <<< 31 ||| finalExp <<< 23 ||| mant <<< 13).toUInt32⟩

section Half

variable {x : F32} {h : UInt16}

theorem sign_shift (u k j : ℕ) (hk : k = (u >>> j &&& 1)) (b : ℕ) :
    k <<< b = u / 2 ^ j % 2 * 2 ^ b := by
  rw [hk, Nat.and_one_is_mod, Nat.shiftRight_eq_div_pow, Nat.shiftLeft_eq]

theorem sign_bits31 (x : ℕ) : (x >>> 31 &&& 1) <<< 15 = binary32.signBit x * 2 ^ 15 :=
  sign_shift x _ 31 rfl 15

theorem sign_bits15 (b : ℕ) : (b >>> 15 &&& 1) <<< 31 = binary16.signBit b * 2 ^ 31 :=
  sign_shift b _ 15 rfl 31

/-- **The conversion of the kernels** rounds to the nearest `f16`. -/
theorem f32ToF16_toNat (hx : x.isNan = false) :
    (f32ToF16 x).toNat = binary16.withSign (binary32.signBit x.bits.toNat)
      (min (binary16.roundBits (binary32.mag (binary32.magBits x.bits.toNat))) 0x7C00) := by
  obtain ⟨a, ha⟩ : ∃ a, a = binary32.magBits x.bits.toNat := ⟨_, rfl⟩
  obtain ⟨s, hs⟩ : ∃ s, s = binary32.signBit x.bits.toNat := ⟨_, rfl⟩
  have hs2 : s < 2 := hs ▸ binary32.signBit_lt _
  have hanan : a ≤ 255 * 2 ^ 23 := by
    rw [ha]
    exact not_lt.mp (of_decide_eq_false hx)
  have hinf := toNat_withSign hs2 (b := 0x7C00) (by decide)
  have hzero := toNat_withSign hs2 (b := 0) (by decide)
  rw [Nat.or_zero] at hzero
  rw [f32ToF16.eq_def]
  simp only [sign_bits31, exponent_bits, mantissa_bits, ← ha, ← hs]
  rcases Nat.lt_or_ge (a / 2 ^ 23) 143 with hlt | hge
  · rw [if_neg (by omega)]
    rcases Nat.lt_or_ge (a / 2 ^ 23) 102 with htiny | hsub
    · rw [(roundBits_of_tiny htiny).2]
      split
      · exact hzero
      · rw [if_neg (by omega), if_pos (by omega), if_pos (by omega)]
        exact hzero
    rw [if_neg (by omega), if_neg (by omega)]
    rcases Nat.lt_or_ge (a / 2 ^ 23) 113 with hsubnormal | hnormal
    · -- the carry goes from the last subnormal value to the first normal one
      obtain ⟨shift, hshift⟩ : ∃ shift, shift + 1 + a / 2 ^ 23 = 126 := ⟨125 - a / 2 ^ 23, by omega⟩
      have hto : (14 - ((a / 2 ^ 23 : ℕ) - 127 + 15 : ℤ)).toNat = shift + 1 := by omega
      have hfull : a % 2 ^ 23 ||| 0x800000 = 2 ^ 23 + a % 2 ^ 23 := by
        rw [Nat.or_comm]
        exact (Nat.two_pow_add_eq_or_of_lt (i := 23) (by omega) 1).symm
      obtain ⟨hle, -⟩ := roundBits_eq_normal_iff (by omega : a / 2 ^ 23 ≤ 112)
      rw [if_pos (by omega), if_neg (by omega), hto, hfull, Nat.add_sub_cancel, Nat.shiftLeft_eq,
        Nat.one_mul, Nat.shiftRight_eq_div_pow, Nat.shiftRight_eq_div_pow, Nat.and_one_is_mod,
          carry_eq,
        ← roundBits_of_subnormal hshift hsub (by omega), min_eq_left (by omega)]
      exact toNat_withSign hs2 (by omega)
    · have hcarry := carry_eq (a % 2 ^ 23) 12
      rw [Nat.mod_mod_of_dvd a (Nat.pow_dvd_pow 2 (by decide : 12 + 1 ≤ 23))] at hcarry
      rw [if_neg (by omega), roundBits_of_normal hnormal hlt]
      simp only [show (0x1000 : ℕ) = 2 ^ 12 from rfl]
      rw [← hcarry, Nat.shiftRight_eq_div_pow, Nat.shiftRight_eq_div_pow, Nat.and_one_is_mod]
      obtain ⟨j, hj⟩ : ∃ j, j = a % 2 ^ 23 + (0x0FFF + a % 2 ^ 23 / 2 ^ 13 % 2) := ⟨_, rfl⟩
      have hsame : a % 2 ^ 23 + 2 ^ 12 - 1 + a % 2 ^ 23 / 2 ^ (12 + 1) % 2 = j := by omega
      have hto : ((a / 2 ^ 23 : ℕ) - 127 + 15 : ℤ).toNat = a / 2 ^ 23 - 112 := by omega
      have hto' : ((a / 2 ^ 23 : ℕ) - 127 + 15 + 1 : ℤ).toNat = a / 2 ^ 23 - 112 + 1 := by omega
      rw [hsame, ← hj, hto, hto']
      by_cases hover : 0x800000 ≤ j
      · -- the carry leaves the mantissa and counts the exponent up
        rw [if_pos hover, show j / 2 ^ (12 + 1) = 2 ^ 10 by omega]
        split
        · rw [min_eq_right (by omega)]
          exact hinf
        · rw [min_eq_left (by omega), Nat.shiftLeft_eq,
            show (a / 2 ^ 23 - 112 + 1) * 2 ^ 10 = (a / 2 ^ 23 - 112) * 2 ^ 10 + 2 ^ 10 by omega]
          exact toNat_withSign hs2 (by omega)
      · rw [if_neg hover, min_eq_left (by omega), Nat.or_assoc,
          ← Nat.shiftLeft_add_eq_or_of_lt (by omega), Nat.shiftLeft_eq]
        exact toNat_withSign hs2 (by omega)
  · rw [min_eq_right (le_roundBits_of_large hge).2]
    split
    · rw [if_neg (by omega)]
      exact hinf
    · rw [if_neg (by omega), if_pos (by omega)]
      exact hinf

/-- **The conversions to `f16`** agree unless the number is just below the first normal `f16`. -/
theorem f32ToF16_eq_iff (hx : x.isNan = false) :
    f32ToF16 x = f32ToF16Bits x ↔ ¬BelowNormal |x.value| := by
  have ha : binary32.magBits x.bits.toNat / 2 ^ 23 ≤ 112 ∨
      2 ^ (-14 : ℤ) ≤ binary32.mag (binary32.magBits x.bits.toNat) := by
    rcases Nat.lt_or_ge 112 (binary32.magBits x.bits.toNat / 2 ^ 23) with h | h
    exacts [.inr (normal_le_mag h), .inl h]
  rw [← UInt16.toNat_inj, f32ToF16_toNat hx, f32ToF16Bits_toNat hx, F32.abs_value]
  constructor
  · intro heq hbelow
    rcases ha with ha | ha
    · rw [if_pos hbelow, (roundBits_eq_normal_iff ha).2.mpr hbelow, withSign, withSign] at heq
      exact absurd (Nat.add_left_cancel heq) (by decide)
    · exact absurd hbelow.2 (not_lt.mpr ha)
  · intro hbelow
    rw [if_neg hbelow]

/-- **The conversions from `f16`** agree. -/
theorem f16ToF32_eq (hh : binary16.isNan h.toNat = false) : f16ToF32 h = Format.f16ToF32 h := by
  have hle : binary16.magBits h.toNat ≤ 31 * 2 ^ 10 := not_lt.mp (of_decide_eq_false hh)
  have hexp := exponent_bits16 h.toNat
  have hmant := mantissa_bits16 h.toNat
  rw [f16ToF32.eq_def, Format.f16ToF32.eq_def]
  dsimp only
  rw [sign_bits15, sign_bits16]
  by_cases h31 : h.toNat >>> 10 &&& 0x1F = 0x1F
  · have hzero : h.toNat &&& 0x3FF = 0 := by omega
    rw [if_pos h31, if_pos hzero, if_neg (by omega), if_pos h31, hzero, Nat.zero_shiftLeft,
      Nat.or_zero]
  · rw [if_neg h31]
    by_cases h0 : h.toNat >>> 10 &&& 0x1F = 0
    · rw [if_pos h0, if_pos h0]
      by_cases hm : h.toNat &&& 0x3FF = 0
      · rw [if_pos hm, dif_pos hm]
      · obtain ⟨k, hk, hge, hlt⟩ := renormalize_spec 10 _ 1 (mantissa_bounds hm)
        have hk10 : k ≤ 10 := by
          have hpow : 2 ^ k < 2 ^ 11 :=
            (Nat.le_mul_of_pos_left _ (Nat.pos_of_ne_zero hm)).trans_lt hlt
          exact Nat.lt_succ_iff.mp ((Nat.pow_lt_pow_iff_right one_lt_two).mp hpow)
        -- the first bit is moved as far as the zeros before it say
        have hsize : (h.toNat &&& 0x3FF).size = 11 - k := by
          refine le_antisymm (Nat.size_le.mpr ?_) ?_
          · rw [← Nat.mul_lt_mul_right (Nat.two_pow_pos k), ← Nat.pow_add]
            exact hlt.trans_eq (congrArg (2 ^ ·) (by omega))
          · rw [show 11 - k = 10 - k + 1 by omega]
            refine Nat.lt_size.mpr (Nat.le_of_mul_le_mul_right ?_ (Nat.two_pow_pos k))
            rw [← Nat.pow_add]
            exact (congrArg (2 ^ ·) (by omega : 10 - k + k = 10)).trans_le hge
        rw [if_neg hm, dif_neg hm, hk, leadingZeros, hsize]
        rw [show 32 - (11 - k) - 21 = k by omega, Nat.shiftLeft_eq _ k,
          show ((1 : ℤ) - k + 112).toNat = 113 - k by omega]
    · rw [if_neg h0, if_neg h0, if_neg h31]

/-- **An `f16` that is a number** is what it is rounded to. -/
theorem f32ToF16_f16ToF32 (hh : binary16.isNan h.toNat = false) :
    f32ToF16 (f16ToF32 h) = h := by
  have hle : binary16.magBits h.toNat ≤ 0x7C00 := not_lt.mp (of_decide_eq_false hh)
  obtain ⟨w, hw, hwle, hinf, hmag⟩ := f16ToF32_toNat hh
  have hwlt : w < 2 ^ (binary32.mant + binary32.exp) := hwle.trans_lt binary32.infBits_lt
  have hmagw : binary32.magBits (Format.f16ToF32 h).bits.toNat = w := hw ▸ magBits_withSign hwlt
  have hnan : (Format.f16ToF32 h).isNan = false := by
    rw [F32.isNan, isNan, hmagw]
    exact decide_eq_false (not_lt.mpr hwle)
  have hbelow : ¬BelowNormal |(Format.f16ToF32 h).value| := by
    rw [F32.abs_value, hmagw]
    rcases hle.lt_or_eq with hlt | heq
    · rw [hmag hlt]
      exact not_belowNormal_mag16 _
    · rw [hinf.mp heq]
      exact fun hnormal => absurd hnormal.2 (not_lt.mpr (normal_le_mag (by decide)))
  rw [f16ToF32_eq hh, (f32ToF16_eq_iff hnan).mpr hbelow, f32ToF16Bits_f16ToF32 hh]

/-- What is not a number stays so, and loses only the mark of a signal, which is not read. -/
theorem f16ToF32_nan : ((List.range 2).all fun s => (List.range 1023).all fun m =>
    let h := (s * 2 ^ 15 + (0x7C01 + m)).toUInt16
    f16ToF32 (f32ToF16 (f16ToF32 h)) = f16ToF32 h) = true := by
  decide +kernel

/-- **Half precision** that was read is read again after it was written. -/
theorem f16ToF32_f32ToF16_f16ToF32 (h : UInt16) :
    f16ToF32 (f32ToF16 (f16ToF32 h)) = f16ToF32 h := by
  cases hh : binary16.isNan h.toNat with
  | false => rw [f32ToF16_f16ToF32 hh]
  | true =>
    have hlt : 0x7C00 < binary16.magBits h.toNat := of_decide_eq_true hh
    have hmag : binary16.magBits h.toNat < 2 ^ 15 := binary16.magBits_lt _
    have hself : h.toNat = binary16.signBit h.toNat * 2 ^ 15 +
        (0x7C01 + (binary16.magBits h.toNat - 0x7C01)) := by
      rw [Nat.add_sub_cancel' hlt]
      exact (withSign_magBits (f := binary16) h.toNat_lt).symm
    have hall := List.all_eq_true.mp (List.all_eq_true.mp f16ToF32_nan (binary16.signBit h.toNat)
      (List.mem_range.mpr (binary16.signBit_lt _))) (binary16.magBits h.toNat - 0x7C01)
      (List.mem_range.mpr (by omega))
    rw [← hself, Nat.toUInt16_eq, UInt16.ofNat_toNat] at hall
    exact of_decide_eq_true hall
end Half

/-! ### The first half of a number -/

/-- The exponents of an `f32`, and seven bits of its mantissa. -/
def bf16 : FloatFormat := ⟨7, 8⟩

def f32ToBf16 (val : F32) : UInt16 :=
  let u := val.bits.toNat
  if val.isNan then (u >>> 16 ||| 0x0040).toUInt16
  else
    let lsb := u >>> 16 &&& 1
    let roundingBias := 0x7FFF + lsb
    let rounded := (u + roundingBias) % 2 ^ 32
    (rounded >>> 16).toUInt16

def bf16ToF32 (bits : UInt16) : F32 := ⟨(bits.toNat <<< 16).toUInt32⟩

section Bf16

variable {x : F32}

/-- **The carry** rounds to the nearest `bf16`, and past the last one to infinity. -/
theorem f32ToBf16_toNat (hx : x.isNan = false) :
    bf16.roundBits (binary32.mag (binary32.magBits x.bits.toNat)) ≤ bf16.infBits ∧
      (f32ToBf16 x).toNat = bf16.withSign (binary32.signBit x.bits.toNat)
        (bf16.roundBits (binary32.mag (binary32.magBits x.bits.toNat))) := by
  obtain ⟨a, ha⟩ : ∃ a, a = binary32.magBits x.bits.toNat := ⟨_, rfl⟩
  obtain ⟨s, hs⟩ : ∃ s, s = binary32.signBit x.bits.toNat := ⟨_, rfl⟩
  have hs2 : s < 2 := hs ▸ binary32.signBit_lt _
  have hle : a ≤ 255 * 2 ^ 23 := by
    rw [ha]
    exact not_lt.mp (of_decide_eq_false hx)
  have hu : s * 2 ^ 31 + a = x.bits.toNat := by
    have h := withSign_magBits (f := binary32) x.bits.toNat_lt
    rwa [← hs, ← ha] at h
  have hround : bf16.roundBits (binary32.mag a) = (a + 2 ^ 15 - 1 + a / 2 ^ 16 % 2) / 2 ^ 16 :=
    @roundBits_add_mant 7 8 15 a
  have hinf : bf16.infBits = 255 * 2 ^ 7 := rfl
  rw [← ha, ← hs, hround, hinf]
  have hvalue : (f32ToBf16 x).toNat =
      (x.bits.toNat + (0x7FFF + x.bits.toNat / 2 ^ 16 % 2)) % 2 ^ 32 / 2 ^ 16 % 2 ^ 16 := by
    rw [f32ToBf16, if_neg (by rw [hx]; decide)]
    dsimp only
    rw [Nat.and_one_is_mod, Nat.shiftRight_eq_div_pow, Nat.shiftRight_eq_div_pow]
    rfl
  have hlsb : (s * 2 ^ 31 + a) / 2 ^ 16 % 2 = a / 2 ^ 16 % 2 := by omega
  obtain ⟨l, hl⟩ : ∃ l, l = a / 2 ^ 16 % 2 := ⟨_, rfl⟩
  rw [hvalue, ← hu, hlsb, ← hl,
    Nat.mod_eq_of_lt (by omega : s * 2 ^ 31 + a + (0x7FFF + l) < 2 ^ 32)]
  change _ ∧ _ = s * 2 ^ 15 + _
  omega

end Bf16

end R9v.Dtype

import R9v.T0.Codecs

/-!
# Rounding to fewer bits

What the encoders of `E5M2` and of `bf16` (`r9v-t0/src/dtype.rs`) round to. A `bf16` is the nearest
one (`isRounded_bf16`). A code of `E5M2` is the nearest one as long as the number is not too large;
past that it is infinity, although the encoder says that it saturates, and a negative number that is
rounded to zero loses its sign (`e5m2_rounding`).
-/

namespace R9v.Dtype

open Checked FloatFormat Format

section Rounding

variable {v w : F32}

/-- The code of a finite value that is nearest to the number, as the documentation of the encoder
has it: what is too large is nearest to the last value. -/
def NearestCode (v : F32) (b : UInt8) : Prop :=
  e5m2.isFinite b.toNat = true ∧ e5m2.IsNearestValue v.value b.toNat

theorem value_eq_signed (v : F32) : v.value =
    if binary32.signBit v.bits.toNat = 1 then -|v.value| else |v.value| := by
  rw [F32.abs_value]
  rfl

/-- **A `bf16`** is the nearest one to the number. -/
theorem isRounded_bf16 (hv : v.isNan = false) : bf16.IsRounded v.value (f32ToBf16 v).toNat := by
  obtain ⟨hle, heq⟩ := f32ToBf16_toNat hv
  rw [← F32.abs_value] at hle heq
  rw [heq, ← min_eq_left hle]
  exact isRounded_withSign (binary32.signBit_lt _) (value_eq_signed v) (by decide) (by decide)

/-- The magnitude of the code of `E5M2`, by that of the number. -/
def e5m2Mag (a : ℕ) : ℕ := if 0x47600000 < a then 0x7C else e5m2.roundBits (binary32.mag a)

theorem e5m2Mag_le {a : ℕ} (h : a ≤ 0x47600000) :
    e5m2.roundBits (binary32.mag a) ≤ 0x7B :=
  (e5m2.isNearest_roundBits (binary32.mag_nonneg a)).mono (isNearest_mag 0x7B) (by
    rw [← mag_57344]
    exact binary32.mag_strictMono.monotone h)

theorem e5m2Mag_mono : Monotone e5m2Mag := fun a b hab => by
  rw [e5m2Mag, e5m2Mag]
  by_cases hb : 0x47600000 < b
  · rw [if_pos hb]
    split
    · exact le_rfl
    · exact (e5m2Mag_le (by omega)).trans (by decide)
  · rw [if_neg hb, if_neg (by omega)]
    exact e5m2.roundBits_mono (binary32.mag_nonneg a) (binary32.mag_strictMono.monotone hab)

theorem e5m2Mag_zero : e5m2Mag 0 = 0 := by
  rw [e5m2Mag, if_neg (by decide), mag_zero, ← e5m2.mag_zero, roundBits_mag]

/-- **The code of `E5M2`** has the sign of the number unless it is that of zero. -/
theorem fp8E5m2Encode_toNat (hv : v.isFinite = true) : (fp8E5m2Encode v).toNat =
    if binary32.signBit v.bits.toNat = 1 ∧ (e5m2Mag (binary32.magBits v.bits.toNat) ≠ 0 ∨
      binary32.magBits v.bits.toNat = 0) then 128 + e5m2Mag (binary32.magBits v.bits.toNat)
    else e5m2Mag (binary32.magBits v.bits.toNat) := by
  have hspec := @Codes.encode_spec _ _ _ _ v _ 0x7C 0xFC e5m2_codes hv mag_57344 (by decide)
  rw [F32.abs_value] at hspec
  rw [fp8E5m2Encode, hspec, e5m2Mag]
  change UInt8.toNat (if 0x47600000 < binary32.magBits v.bits.toNat then _ else _) = _
  split
  · split
    · rw [if_pos ⟨‹_›, .inl (by decide)⟩]
      rfl
    · rw [if_neg fun h => absurd h.1 ‹_›]
      rfl
  · have hle := e5m2Mag_le (a := binary32.magBits v.bits.toNat) (by omega)
    exact toNat_toUInt8 (by split <;> omega)

theorem key_e5m2 (hv : v.isFinite = true) :
    e5m2.magBits (fp8E5m2Encode v).toNat = e5m2Mag (binary32.magBits v.bits.toNat) ∧
      e5m2.key (fp8E5m2Encode v).toNat = if binary32.signBit v.bits.toNat = 1 then
        -(e5m2Mag (binary32.magBits v.bits.toNat) : ℤ)
      else e5m2Mag (binary32.magBits v.bits.toNat) := by
  have hlt : e5m2Mag (binary32.magBits v.bits.toNat) < 128 := by
    rw [e5m2Mag]
    split
    · decide
    · exact (e5m2Mag_le (by omega)).trans_lt (by decide)
  have hcode := fp8E5m2Encode_toNat hv
  obtain ⟨m, hm⟩ : ∃ m, m = e5m2Mag (binary32.magBits v.bits.toNat) := ⟨_, rfl⟩
  rw [← hm] at hlt hcode ⊢
  split at hcode
  · next h =>
    have hsign : (fp8E5m2Encode v).toNat = e5m2.withSign 1 m := hcode
    rw [hsign, magBits_withSign (f := e5m2) hlt, key_withSign (f := e5m2) (by decide) hlt,
      if_pos rfl,
      if_pos h.1]
    exact ⟨rfl, rfl⟩
  · next h =>
    rw [hcode, magBits_of_lt (f := e5m2) hlt, key_of_lt (f := e5m2) hlt]
    split <;> omega

theorem not_nan_e5m2 (hv : v.isFinite = true) :
    e5m2.isNan (fp8E5m2Encode v).toNat = false := by
  refine decide_eq_false (not_lt.mpr ?_)
  rw [(key_e5m2 hv).1, e5m2Mag]
  split
  · exact le_rfl
  · exact (e5m2Mag_le (by omega)).trans (by decide)

theorem le_57344_iff (v : F32) :
    |v.value| ≤ 57344 ↔ binary32.magBits v.bits.toNat ≤ 0x47600000 := by
  have hmag : binary32.mag 0x47600000 = 57344 := by
    norm_num [mag, significand, ulp, binary32, minExp, bias]
  rw [F32.abs_value, ← hmag, binary32.mag_strictMono.le_iff_le]

/-- **A code is the nearest one** as long as the number is not too large. -/
theorem nearestCode_iff (hv : v.isFinite = true) :
    NearestCode v (fp8E5m2Encode v) ↔ |v.value| ≤ 57344 := by
  rw [le_57344_iff]
  constructor
  · rintro ⟨hfin, -⟩
    rw [isFinite, (key_e5m2 hv).1, e5m2Mag, decide_eq_true_eq] at hfin
    by_contra hlt
    rw [if_pos (not_le.mp hlt)] at hfin
    exact absurd hfin (by decide)
  · intro hle
    have hround : e5m2Mag (binary32.magBits v.bits.toNat) = e5m2.roundBits |v.value| := by
      rw [e5m2Mag, if_neg (not_lt.mpr hle), F32.abs_value]
    have hlast : e5m2.roundBits |v.value| ≤ 0x7B := F32.abs_value v ▸ e5m2Mag_le hle
    have hlt : e5m2.roundBits |v.value| < 2 ^ (e5m2.mant + e5m2.exp) := hlast.trans_lt (by decide)
    have hs2 := binary32.signBit_lt v.bits.toNat
    have hnear := (e5m2.isNearest_roundBits (abs_nonneg v.value)).isNearestValue
      hs2 hlt (value_eq_signed v) (by decide)
    obtain ⟨hmag, hkey⟩ := key_e5m2 hv
    refine ⟨?_, fun c hc => ?_⟩
    · rw [isFinite, hmag, hround]
      exact decide_eq_true (hlast.trans_lt (by decide))
    -- the code without a sign that zero has is worth as much as the one with it
    have hvalue : e5m2.value (fp8E5m2Encode v).toNat =
        e5m2.value (e5m2.withSign (binary32.signBit v.bits.toNat) (e5m2.roundBits |v.value|)) := by
      refine le_antisymm ?_ ?_ <;> rw [value_le_value_iff, hkey, key_withSign hs2 hlt, hround]
    have heven : Even (fp8E5m2Encode v).toNat ↔
        Even (e5m2.withSign (binary32.signBit v.bits.toNat) (e5m2.roundBits |v.value|)) := by
      rw [even_withSign (by decide), ← hround, ← hmag, magBits, Nat.even_iff, Nat.even_iff]
      change _ ↔ (fp8E5m2Encode v).toNat % 128 % 2 = 0
      omega
    rw [hvalue, heven]
    exact hnear c hc

theorem toNat_flip (b : UInt8) : (b ^^^ 0x80).toNat = (b.toNat + 128) % 256 := by
  have h : ∀ n < 256, (n.toUInt8 ^^^ 0x80).toNat = (n + 128) % 256 := by decide +kernel
  have hb := h b.toNat b.toNat_lt
  rwa [show b.toNat.toUInt8 = b from UInt8.ofNat_toNat] at hb

/-- **The sign of a code** changes with that of the number unless the number is rounded to zero. -/
theorem encode_neg_iff (hv : v.isFinite = true) :
    fp8E5m2Encode v.neg = fp8E5m2Encode v ^^^ 0x80 ↔
      e5m2Mag (binary32.magBits v.bits.toNat) ≠ 0 ∨ binary32.magBits v.bits.toNat = 0 := by
  have hv' : v.neg.isFinite = true := by rwa [F32.isFinite_neg]
  have hs2 := binary32.signBit_lt v.bits.toNat
  have hcode := fp8E5m2Encode_toNat hv
  have hcode' := fp8E5m2Encode_toNat hv'
  have hlt := (key_e5m2 hv).1 ▸ e5m2.magBits_lt (fp8E5m2Encode v).toNat
  rw [F32.neg_toNat, signBit_neg, magBits_neg] at hcode'
  change e5m2Mag (binary32.magBits v.bits.toNat) < 128 at hlt
  rw [← UInt8.toNat_inj, toNat_flip, hcode, hcode']
  split <;> split <;> omega

theorem mid_zero_e5m2 : e5m2.mid 0 = 2 ^ (-17 : ℤ) := by
  norm_num [mid, mag, significand, ulp, e5m2, minExp, bias]

/-- **Where the encoder of `E5M2` does what it says.** -/
theorem e5m2_correct_iff (hv : v.isFinite = true) :
    NearestCode v (fp8E5m2Encode v) ∧ fp8E5m2Encode v.neg = fp8E5m2Encode v ^^^ 0x80 ↔
      v.value = 0 ∨ 2 ^ (-17 : ℤ) < |v.value| ∧ |v.value| ≤ 57344 := by
  have hzero : v.value = 0 ↔ binary32.magBits v.bits.toNat = 0 := by
    rw [← abs_eq_zero, F32.abs_value, ← binary32.mag_zero,
      binary32.mag_strictMono.injective.eq_iff]
  have hpos : 2 ^ (-17 : ℤ) < |v.value| ↔ 0 < e5m2.roundBits |v.value| := by
    rw [← mid_zero_e5m2,
      (e5m2.isNearest_roundBits (abs_nonneg v.value)).lt_iff_of_even Even.zero]
  rw [nearestCode_iff hv, encode_neg_iff hv, hzero, hpos, le_57344_iff, e5m2Mag, F32.abs_value]
  constructor
  · rintro ⟨hle, h⟩
    rw [if_neg (not_lt.mpr hle)] at h
    exact h.symm.imp_right fun h => ⟨Nat.pos_of_ne_zero h, hle⟩
  · rintro (h | ⟨hr, hle⟩)
    · rw [h]
      exact ⟨by decide, .inr rfl⟩
    · rw [if_neg (not_lt.mpr hle)]
      exact ⟨hle, .inl hr.ne'⟩

/-- **Codes of `E5M2`** are ordered as the numbers. -/
theorem fp8E5m2Encode_mono (hv : v.isFinite = true) (hw : w.isFinite = true)
    (hle : v.value ≤ w.value) :
    e5m2.extValue (fp8E5m2Encode v).toNat ≤ e5m2.extValue (fp8E5m2Encode w).toNat := by
  rw [extValue_le_iff (by decide) (not_nan_e5m2 hv) (not_nan_e5m2 hw), (key_e5m2 hv).2,
    (key_e5m2 hw).2]
  exact signed_le e5m2Mag_mono e5m2Mag_zero (value_le_value_iff.mp hle)

/-- **A `bf16`** is ordered as the number. -/
theorem f32ToBf16_mono (hv : v.isFinite = true) (hw : w.isFinite = true) (hle : v.value ≤ w.value) :
    bf16.extValue (f32ToBf16 v).toNat ≤ bf16.extValue (f32ToBf16 w).toNat := by
  have hnan : ∀ x : F32, x.isFinite = true → bf16.isNan (f32ToBf16 x).toNat = false := fun x hx =>
    (isRounded_bf16 (isNan_of_isFinite hx)).not_nan
  have hkey : ∀ x : F32, x.isFinite = true → bf16.key (f32ToBf16 x).toNat =
      if binary32.signBit x.bits.toNat = 1 then
        -(bf16.roundBits (binary32.mag (binary32.magBits x.bits.toNat)) : ℤ)
      else bf16.roundBits (binary32.mag (binary32.magBits x.bits.toNat)) := fun x hx => by
    obtain ⟨hround, heq⟩ := f32ToBf16_toNat (x := x) (isNan_of_isFinite hx)
    rw [heq, key_withSign (binary32.signBit_lt _) (hround.trans_lt bf16.infBits_lt)]
  rw [extValue_le_iff (by decide) (hnan v hv) (hnan w hw), hkey v hv, hkey w hw]
  refine signed_le (M := fun a => bf16.roundBits (binary32.mag a)) (fun a b hab => ?_) ?_
    (value_le_value_iff.mp hle)
  · exact bf16.roundBits_mono (binary32.mag_nonneg a) (binary32.mag_strictMono.monotone hab)
  · rw [mag_zero, ← bf16.mag_zero, roundBits_mag]

end Rounding

/-- **The encoders to fewer bits**: a `bf16` is the nearest one, and infinite from the middle past
the last finite one on; both encoders are monotone; the code of `E5M2` is the nearest finite one,
and that of the number with the other sign is the same with the other sign, just for zero and for
the numbers between `2 ^ (-17)` and the last value. -/
theorem fewer_bits (v w : F32) :
    (v.isFinite = true →
      (NearestCode v (fp8E5m2Encode v) ∧ fp8E5m2Encode v.neg = fp8E5m2Encode v ^^^ 0x80 ↔
        v.value = 0 ∨ 2 ^ (-17 : ℤ) < |v.value| ∧ |v.value| ≤ 57344)) ∧
      (v.isFinite = true → bf16.IsRounded v.value (f32ToBf16 v).toNat) ∧
      (v.isFinite = true → w.isFinite = true → v.value ≤ w.value →
        e5m2.extValue (fp8E5m2Encode v).toNat ≤ e5m2.extValue (fp8E5m2Encode w).toNat ∧
          bf16.extValue (f32ToBf16 v).toNat ≤ bf16.extValue (f32ToBf16 w).toNat) :=
  ⟨fun hv => e5m2_correct_iff hv, fun hv => isRounded_bf16 (isNan_of_isFinite hv),
    fun hv hw hle => ⟨fp8E5m2Encode_mono hv hw hle, f32ToBf16_mono hv hw hle⟩⟩

/-- **65536 is encoded as infinity**, and `2 ^ (-18)` of either sign as zero without a sign. -/
theorem e5m2_not_saturated : (⟨0x47800000⟩ : F32).isFinite = true ∧
    ¬NearestCode ⟨0x47800000⟩ (fp8E5m2Encode ⟨0x47800000⟩) ∧
    (⟨0x36800000⟩ : F32).isFinite = true ∧
    fp8E5m2Encode (F32.neg ⟨0x36800000⟩) ≠ fp8E5m2Encode ⟨0x36800000⟩ ^^^ 0x80 := by
  have hround : e5m2Mag 0x36800000 = 0 := by decide +kernel
  refine ⟨by decide, fun h => ?_, by decide, fun h => ?_⟩
  · have hle := (le_57344_iff _).mp ((nearestCode_iff (by decide)).mp h)
    exact absurd hle (by decide)
  · rcases (encode_neg_iff (by decide)).mp h with h | h
    · exact h hround
    · exact absurd h (by decide)

end R9v.Dtype

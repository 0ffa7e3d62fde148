import R9v.Format.Half
import R9v.Format.Scheme
import R9v.Lib.Blocks
import R9v.Lib.Loops

/-!
# Encoding blocks of `E4M3` values

A block of 128 values is encoded with one `f16` scale (`r9v-format/src/encode.rs`), and a value is
divided by the scale that was rounded, not by the one before. The scales that are checked and the
values of eight bits are in `scales.rs`.

A scale that is rounded to zero divides by zero, and then the encoder does not return
(`encodeE4m3Block128_ne_panic_iff`).
-/

namespace R9v.Format

open Checked FloatFormat Blocks List

/-! ### Scales -/

/-- Checks that a scale is a finite multiplier. -/
def checkF32Scale (scheme : String) (record : ℕ) (value : F32) : Except FormatError F32 :=
  if value.isNan then .error (.invalidScale scheme record value.bits.toNat "nan")
  else if value.isInfinite then .error (.invalidScale scheme record value.bits.toNat "infinite")
  else if value.lt ⟨0⟩ then .error (.invalidScale scheme record value.bits.toNat "negative")
  else .ok value

/-- Rounds a scale to the bits of an `f16`. -/
def f16ScaleBits (value : F32) (scheme : String) (record : ℕ) : Except FormatError UInt16 := do
  let _ ← checkF32Scale scheme record value
  let bits := f32ToF16Bits value
  if bits &&& 0x7FFF = 0x7C00 then
    .error (.invalidScale scheme record value.bits.toNat "unrepresentable_in_f16")
  else pure bits

/-! ### Values of eight bits -/

/-- A value of a sign, four bits of exponent and three of mantissa. -/
structure E4m3 where
  bits : UInt8
  deriving DecidableEq

namespace E4m3

theorem mantissa_bounds {b : ℕ} (h : ¬b &&& 0x7 = 0) : 0 < b &&& 0x7 ∧ b &&& 0x7 < 2 ^ (3 + 1) :=
  ⟨Nat.pos_of_ne_zero h, Nat.lt_of_le_of_lt Nat.and_le_right (by decide)⟩

/-- The `f32` of a value. -/
def toF32 (q : E4m3) : F32 :=
  let b := q.bits.toNat
  let sign := (b &&& 0x80) <<< 24
  let exp := b >>> 3 &&& 0xF
  let mant := b &&& 0x7
  let wide :=
    if exp = 0 then
      if h : mant = 0 then sign
      else
        let (m, e) := renormalize 3 mant 1 (mantissa_bounds h)
        sign ||| (e + 120).toNat <<< 23 ||| (m &&& 0x7) <<< 20
    else if exp = 15 then
      if mant = 7 then sign ||| 0x7FC00000
      else sign ||| 135 <<< 23 ||| mant <<< 20
    else sign ||| (exp + 120) <<< 23 ||| mant <<< 20
  ⟨wide.toUInt32⟩

/-- Takes the value of `mag` when it is nearer than the best one so far. -/
def nearer (target : ℚ) (best : ℕ × Option ℚ) (mag : ℕ) : ℕ × Option ℚ :=
  let grid := (E4m3.mk mag.toUInt8).toF32.value
  let dist := |binary64.round (target - grid)|
  if best.2.all (dist < ·) ∨ best.2 = some dist ∧ mag &&& 1 = 0 then (mag, some dist) else best

/-- Projects a finite `f32` onto the values of eight bits. -/
def fromF32 (value : F32) : Option E4m3 :=
  if value.isFinite then
    let sign : UInt8 := if value.isSignNegative then 0x80 else 0x00
    let target := value.abs.value
    let best := (List.range 0x7F).foldl (nearer target) (0, none)
    some ⟨best.1.toUInt8 ||| sign⟩
  else none

end E4m3

/-! ### Blocks -/

/-- The scale of a block of 128 values. -/
structure E4m3Block128Scale where
  bits : UInt16
  deriving DecidableEq

/-- Rejects inputs that are not finite. -/
def checkInputs (x : List F32) : Except FormatError Unit :=
  FormatError.collect <| (x.zipIdx.filter fun v => !v.1.isFinite).map fun v =>
    .valueOutOfRange "input" v.2 v.1.bits.toNat

/-- The greatest magnitude of a block. -/
def peakOf (block : List F32) : F32 :=
  block.foldl (fun peak v => if peak.lt v.abs then v.abs else peak) ⟨0⟩

/-- Encodes a block. -/
def encodeE4m3Block (block : List F32) (b : ℕ) :
    Except (Fault FormatError) (List E4m3 × E4m3Block128Scale) :=
  let peak := peakOf block
  if peak.eq ⟨0⟩ then pure (List.replicate 128 ⟨0⟩, ⟨0⟩)
  else do
    -- 0x43E00000 is 448.0
    let s := peak.div ⟨0x43E00000⟩
    let bits ← lift (f16ScaleBits s SchemeId.e4m3B128.name b)
    let sF32 := f16ToF32 bits
    let q ← block.mapM fun v => orPanic (E4m3.fromF32 (v.div sF32))
    pure (q, ⟨bits⟩)

/-- Encodes blocks of 128 values. -/
def encodeE4m3Block128 (x : List F32) :
    Except (Fault FormatError) (List E4m3 × List E4m3Block128Scale) := do
  lift (ensure (¬(x = [] ∨ x.length % 128 ≠ 0))
    (.lengthMismatch "e4m3_b128 inputs" ((x.length / 128 + 1) * 128) x.length))
  lift (checkInputs x)
  let blocks ← (chunksExact 128 x).zipIdx.mapM fun block => encodeE4m3Block block.1 block.2
  pure (blocks.flatMap (·.1), blocks.map (·.2))

/-! ### The peak of a block -/

section Peak

variable {block : List F32} {x y : F32}

theorem F32.abs_toNat (x : F32) : x.abs.bits.toNat = binary32.magBits x.bits.toNat :=
  UInt32.toNat_ofNat_of_lt' ((binary32.magBits_lt _).trans (by decide))

theorem F32.div_toNat (x y : F32) :
    (x.div y).bits.toNat = binary32.div x.bits.toNat y.bits.toNat :=
  UInt32.toNat_ofNat_of_lt' (div_lt (f := binary32) (by decide))

theorem F32.isFinite_iff : x.isFinite = true ↔ binary32.magBits x.bits.toNat < binary32.infBits :=
  decide_eq_true_iff

theorem F32.abs_value (x : F32) : |x.value| = binary32.mag (binary32.magBits x.bits.toNat) :=
  FloatFormat.abs_value _

theorem foldl_peak_spec (h : ∀ v ∈ block, v.isFinite = true) {peak : F32}
    (hp : peak.bits.toNat < binary32.infBits) {r : F32}
    (hr : r = block.foldl (fun peak v => if peak.lt v.abs then v.abs else peak) peak) :
    r.bits.toNat < binary32.infBits ∧ peak.bits.toNat ≤ r.bits.toNat ∧
      (∀ v ∈ block, binary32.magBits v.bits.toNat ≤ r.bits.toNat) ∧
      (r = peak ∨ ∃ v ∈ block, binary32.magBits v.bits.toNat = r.bits.toNat) := by
  induction block generalizing peak with
  | nil =>
    subst hr
    exact ⟨hp, le_rfl, fun v hv => absurd hv not_mem_nil, .inl rfl⟩
  | cons v block ih =>
    obtain ⟨hv, hblock⟩ := forall_mem_cons.mp h
    have hlt : peak.lt v.abs = true ↔ peak.bits.toNat < binary32.magBits v.bits.toNat := by
      rw [F32.lt, F32.abs_toNat]
      exact lt_iff_of_lt hp.le (F32.isFinite_iff.mp hv).le
    rw [foldl_cons] at hr
    by_cases hcase : peak.lt v.abs = true
    · rw [if_pos hcase] at hr
      have hless := hlt.mp hcase
      obtain ⟨hfin, hge, hall, hex⟩ :=
          ih hblock (by rw [F32.abs_toNat]; exact F32.isFinite_iff.mp hv) hr
      rw [F32.abs_toNat] at hge
      refine ⟨hfin, hless.le.trans hge, forall_mem_cons.mpr ⟨hge, hall⟩, .inr ?_⟩
      rcases hex with heq | ⟨w, hw, heq⟩
      · exact ⟨v, mem_cons_self, by rw [heq, F32.abs_toNat]⟩
      · exact ⟨w, mem_cons_of_mem v hw, heq⟩
    · rw [if_neg hcase] at hr
      have hle := not_lt.mp fun h => hcase (hlt.mpr h)
      obtain ⟨hfin, hge, hall, hex⟩ := ih hblock hp hr
      refine ⟨hfin, hge, forall_mem_cons.mpr ⟨hle.trans hge, hall⟩, hex.imp_right ?_⟩
      rintro ⟨w, hw, heq⟩
      exact ⟨w, mem_cons_of_mem v hw, heq⟩

/-- **The peak** is a magnitude of the block and none is greater. -/
theorem peakOf_spec (h : ∀ v ∈ block, v.isFinite = true) (hne : block ≠ []) :
    (peakOf block).bits.toNat < binary32.infBits ∧
      (∀ v ∈ block, binary32.magBits v.bits.toNat ≤ (peakOf block).bits.toNat) ∧
      ∃ v ∈ block, binary32.magBits v.bits.toNat = (peakOf block).bits.toNat := by
  obtain ⟨hfin, -, hall, hex⟩ := @foldl_peak_spec block h ⟨0⟩ (by decide) (peakOf block) rfl
  refine ⟨hfin, hall, hex.elim (fun heq => ?_) id⟩
  obtain ⟨v, hv⟩ := exists_mem_of_ne_nil block hne
  have hle := hall v hv
  rw [heq] at hle ⊢
  exact ⟨v, hv, Nat.le_zero.mp hle⟩

end Peak

/-! ### The scale of a block -/

section Scale

variable {p s : ℕ}

/-- The scale of a block before it is rounded to an `f16`, by the magnitude of the peak. -/
def scaleMag (p : ℕ) : ℚ := binary32.mag (binary32.roundBits (binary32.mag p / 448))

theorem le_quotient_iff {c : ℚ} (hc : 0 < c) {e n e' n' : ℕ} (hn : 2 ^ 23 ≤ n ∧ n < 2 ^ 24)
    (hn' : 2 ^ 23 ≤ n' ∧ n' < 2 ^ 24)
    (hmag : (n' + 1 : ℚ) * 2 ^ (-149 + (e' : ℤ)) = c * ((n + 1 : ℚ) * 2 ^ (-149 + (e : ℤ))))
    (hulp : c * 2 ^ (-149 + (e : ℤ)) < 2 * 2 ^ (-149 + (e' : ℤ))) :
    (n + 1 : ℚ) * 2 ^ (-149 + (e : ℤ)) ≤
        binary32.mag (binary32.roundBits (binary32.mag p / c)) ↔
      (n' + 1 : ℚ) * 2 ^ (-149 + (e' : ℤ)) ≤ binary32.mag p := by
  obtain ⟨hur, hmr⟩ := binary32_mag (e := e) hn.2 (.inr hn.1)
  obtain ⟨hup, hmp⟩ := binary32_mag (e := e') hn'.2 (.inr hn'.1)
  have hr : binary32.mag (e * 2 ^ 23 + n + 1) = (n + 1 : ℚ) * 2 ^ (-149 + (e : ℤ)) := by
    rw [mag_succ, hur, hmr]
    ring
  have hp : binary32.mag (e' * 2 ^ 23 + n' + 1) = (n' + 1 : ℚ) * 2 ^ (-149 + (e' : ℤ)) := by
    rw [mag_succ, hup, hmp]
    ring
  have h := le_mag_roundBits_div_iff (f := binary32) (m := p) hc (p := e' * 2 ^ 23 + n')
    (r := e * 2 ^ 23 + n) (by rw [hp, hr, hmag]) (by rw [hup, hur]; exact hulp)
  rwa [hp, hr] at h

theorem quotient_le_iff {c : ℚ} (hc : 0 < c) {e n e' n' : ℕ} (hn : 2 ^ 23 ≤ n ∧ n < 2 ^ 24)
    (hn' : 2 ^ 23 ≤ n' ∧ n' < 2 ^ 24)
    (hmag : (n' : ℚ) * 2 ^ (-149 + (e' : ℤ)) = c * ((n : ℚ) * 2 ^ (-149 + (e : ℤ))))
    (hulp : c * 2 ^ (-149 + (e : ℤ)) < 2 * 2 ^ (-149 + (e' : ℤ))) :
    binary32.mag (binary32.roundBits (binary32.mag p / c)) ≤ (n : ℚ) * 2 ^ (-149 + (e : ℤ)) ↔
      binary32.mag p ≤ (n' : ℚ) * 2 ^ (-149 + (e' : ℤ)) := by
  obtain ⟨hur, hmr⟩ := binary32_mag (e := e) hn.2 (.inr hn.1)
  obtain ⟨hup, hmp⟩ := binary32_mag (e := e') hn'.2 (.inr hn'.1)
  have h := mag_roundBits_div_le_iff (f := binary32) (m := p) hc (p := e' * 2 ^ 23 + n')
    (r := e * 2 ^ 23 + n) (by rw [hmp, hmr, hmag]) (by rw [hup, hur]; exact hulp)
  rwa [hmp, hmr] at h

theorem scaleMag_le_tiny : scaleMag p ≤ 2 ^ (-25 : ℤ) ↔ binary32.mag p ≤ 7 / 2 ^ 19 := by
  have h := @quotient_le_iff p 448 (by norm_num) 101 (2 ^ 23) 109 (7 * 2 ^ 21) (by decide)
      (by decide)
    (by norm_num) (by norm_num)
  norm_num at h ⊢
  exact h

theorem le_scaleMag_below : 2 ^ (-14 : ℤ) - 2 ^ (-25 : ℤ) ≤ scaleMag p ↔
    7 / 2 ^ 8 - 7 / 2 ^ 19 ≤ binary32.mag p := by
  have h := @le_quotient_iff p 448 (by norm_num) 111 (2047 * 2 ^ 13 - 1) 120 (14329 * 2 ^ 10 - 1)
      (by decide)
    (by decide) (by norm_num) (by norm_num)
  norm_num at h ⊢
  exact h

theorem le_scaleMag_normal : 2 ^ (-14 : ℤ) ≤ scaleMag p ↔ 7 / 2 ^ 8 ≤ binary32.mag p := by
  have h := @le_quotient_iff p 448 (by norm_num) 111 (2 ^ 24 - 1) 120 (7 * 2 ^ 21 - 1) (by decide)
    (by decide) (by norm_num) (by norm_num)
  norm_num at h ⊢
  exact h

theorem le_scaleMag_large : 65520 ≤ scaleMag p ↔ 29352960 ≤ binary32.mag p := by
  have h := @le_quotient_iff p 448 (by norm_num) 141 (65520 * 2 ^ 8 - 1) 150 (14676480 - 1)
      (by decide)
    (by decide) (by norm_num) (by norm_num)
  norm_num at h ⊢
  exact h

theorem div_toNat_of_one_le {x y : F32} (hx : x.bits.toNat < binary32.infBits)
    (hy : y.bits.toNat < binary32.infBits) (hone : 1 ≤ binary32.mag y.bits.toNat) :
    (x.div y).bits.toNat =
        binary32.roundBits (binary32.mag x.bits.toNat / binary32.mag y.bits.toNat) ∧
      (x.div y).bits.toNat < binary32.infBits := by
  have hlt := hx.trans binary32.infBits_lt
  have hylt := hy.trans binary32.infBits_lt
  have hpos : 0 < binary32.mag y.bits.toNat := one_pos.trans_le hone
  have hround : binary32.roundBits (binary32.mag x.bits.toNat / binary32.mag y.bits.toNat) ≤
      x.bits.toNat := by
    have hmono := binary32.roundBits_mono (div_nonneg (binary32.mag_nonneg _) hpos.le)
      (div_le_self (binary32.mag_nonneg x.bits.toNat) hone)
    rwa [roundBits_mag] at hmono
  have hne : binary32.magBits y.bits.toNat ≠ 0 := fun h => by
    rw [magBits_of_lt hylt] at h
    rw [h, mag_zero] at hpos
    exact lt_irrefl _ hpos
  have hdiv : binary32.div x.bits.toNat y.bits.toNat =
      binary32.roundBits (binary32.mag x.bits.toNat / binary32.mag y.bits.toNat) := by
    rw [div_of_isFinite (decide_eq_true (by rwa [magBits_of_lt hlt]))
      (decide_eq_true (by rwa [magBits_of_lt hylt])) hne, signBit_of_lt hlt, signBit_of_lt hylt,
      magBits_of_lt hlt, magBits_of_lt hylt, min_eq_left (hround.trans hx.le)]
    exact Nat.zero_add _
  have heq : (x.div y).bits.toNat =
      binary32.roundBits (binary32.mag x.bits.toNat / binary32.mag y.bits.toNat) :=
    (F32.div_toNat _ _).trans hdiv
  exact ⟨heq, heq ▸ hround.trans_lt hx⟩

theorem mag_448 : binary32.mag (⟨0x43E00000⟩ : F32).bits.toNat = 448 := by
  have hmag := (binary32_mag (e := 134) (n := 7 * 2 ^ 21) (by decide) (.inr (by decide))).2
  change binary32.mag 0x43E00000 = _ at hmag
  change binary32.mag 0x43E00000 = _
  rw [hmag]
  norm_num

/-- The scale before it is rounded to an `f16`. -/
theorem scale_toNat {peak : F32} (h : peak.bits.toNat < binary32.infBits) :
    (peak.div ⟨0x43E00000⟩).bits.toNat =
        binary32.roundBits (binary32.mag peak.bits.toNat / 448) ∧
      (peak.div ⟨0x43E00000⟩).bits.toNat < binary32.infBits := by
  rw [← mag_448]
  exact div_toNat_of_one_le h (by decide) (mag_448 ▸ by norm_num)

/-- **A positive number rounded to an `f16`**: infinite when it is too large, and zero when it is
tiny or just below the first normal value. -/
theorem f32ToF16Bits_of_pos {s : F32} (hs : s.bits.toNat < binary32.infBits) :
    (65520 ≤ binary32.mag s.bits.toNat → (f32ToF16Bits s).toNat = 0x7C00) ∧
      (binary32.mag s.bits.toNat < 65520 → (f32ToF16Bits s).toNat < 0x7C00 ∧
        (f32ToF16Bits s = 0 ↔ BelowNormal (binary32.mag s.bits.toNat) ∨
          binary32.mag s.bits.toNat ≤ 2 ^ (-25 : ℤ))) := by
  have hlt := hs.trans binary32.infBits_lt
  have hmag := magBits_of_lt hlt
  have hnan : s.isNan = false := isNan_of_isFinite (decide_eq_true (by rwa [hmag]))
  have hbits : (f32ToF16Bits s).toNat = if BelowNormal (binary32.mag s.bits.toNat) then 0
      else min (binary16.roundBits (binary32.mag s.bits.toNat)) 0x7C00 := by
    rw [f32ToF16Bits_toNat hnan, signBit_of_lt hlt, hmag]
    exact (Nat.zero_add _)
  have hnear := binary16.isNearest_roundBits (binary32.mag_nonneg s.bits.toNat)
  have hlarge := hnear.lt_iff_of_odd (c := 0x7BFF) (by decide)
  rw [mid_last_finite] at hlarge
  have hzero := hnear.lt_iff_of_even (c := 0) Even.zero
  have hmid0 : binary16.mid 0 = 2 ^ (-25 : ℤ) := mid_zero
  rw [hmid0] at hzero
  have hpow : (2 : ℚ) ^ (-14 : ℤ) < 65520 := by norm_num
  constructor
  · intro hge
    have hnot : ¬BelowNormal (binary32.mag s.bits.toNat) := fun hb => by linarith [hb.2]
    rw [hbits, if_neg hnot, min_eq_right (hlarge.mpr hge)]
  · intro hless
    refine ⟨?_, ?_⟩
    · rw [hbits]
      split
      · decide
      · refine (min_le_left _ _).trans_lt (not_le.mp fun hge => ?_)
        exact absurd (hlarge.mp hge) (not_le.mpr hless)
    · rw [← UInt16.toNat_inj, hbits]
      split
      · next hb => exact ⟨fun _ => .inl hb, fun _ => rfl⟩
      · next hb =>
        rw [or_iff_right hb, ← not_lt, ← hzero, Nat.pos_iff_ne_zero, Decidable.not_not]
        refine ⟨fun h => ?_, fun h => by rw [h]; rfl⟩
        rcases min_choice (binary16.roundBits (binary32.mag s.bits.toNat)) 0x7C00 with hmin | hmin
        · rw [hmin] at h
          exact h
        · rw [hmin] at h
          exact absurd h (by decide)

/-- **A positive scale** is rejected when it is too large, and is lost when it is rounded to zero.
-/
theorem f16ScaleBits_spec {s : F32} (hs : s.bits.toNat < binary32.infBits) (scheme : String)
    (record : ℕ) :
    (65520 ≤ binary32.mag s.bits.toNat → ∃ e, f16ScaleBits s scheme record = .error e) ∧
      (binary32.mag s.bits.toNat < 65520 →
        f16ScaleBits s scheme record = .ok (f32ToF16Bits s) ∧ (f32ToF16Bits s).toNat < 0x7C00 ∧
          (f32ToF16Bits s = 0 ↔ BelowNormal (binary32.mag s.bits.toNat) ∨
            binary32.mag s.bits.toNat ≤ 2 ^ (-25 : ℤ))) := by
  have hmag := magBits_of_lt (hs.trans binary32.infBits_lt)
  have hnan : s.isNan = false := isNan_of_isFinite (decide_eq_true (by rwa [hmag]))
  have hinf : s.isInfinite = false := decide_eq_false (by rw [hmag]; exact hs.ne)
  have hneg : s.lt ⟨0⟩ = false := by
    refine Bool.eq_false_iff.mpr fun h => ?_
    exact absurd ((lt_iff_of_lt hs.le (Nat.zero_le _)).mp h) (Nat.not_lt_zero _)
  have hcheck : checkF32Scale scheme record s = .ok s := by
    rw [checkF32Scale, hnan, hinf, hneg]
    rfl
  obtain ⟨hlarge, hless⟩ := f32ToF16Bits_of_pos hs
  have hmask : (f32ToF16Bits s).toNat < 0x8000 →
      (f32ToF16Bits s &&& 0x7FFF = 0x7C00 ↔ (f32ToF16Bits s).toNat = 0x7C00) := fun hlt => by
    rw [← UInt16.toNat_inj, UInt16.toNat_and]
    change (f32ToF16Bits s).toNat &&& 0x7FFF = 0x7C00 ↔ _
    rw [Nat.and_two_pow_sub_one_eq_mod _ 15, Nat.mod_eq_of_lt hlt]
  rw [f16ScaleBits, hcheck, ok_bind]
  constructor
  · intro hge
    have hbits := hlarge hge
    exact ⟨_, if_pos ((hmask (by rw [hbits]; decide)).mpr hbits)⟩
  · intro hlt
    obtain ⟨hfinite, hzero⟩ := hless hlt
    exact ⟨if_neg fun h => absurd ((hmask (hfinite.trans (by decide))).mp h) hfinite.ne, hfinite,
      hzero⟩

end Scale

/-! ### Dividing by the scale -/

section Divide

variable {bits : UInt16} {v : F32}

theorem fromF32_eq_none (h : v.isFinite = false) : E4m3.fromF32 v = none :=
    if_neg (by rw [h]; decide)

theorem exists_fromF32 (h : v.isFinite = true) : ∃ q, E4m3.fromF32 v = some q := ⟨_, if_pos h⟩

/-- **Divided by a scale that is zero**, no value is finite. -/
theorem fromF32_div_zero (hv : v.isFinite = true) : E4m3.fromF32 (v.div (f16ToF32 0)) = none := by
  have hzero : f16ToF32 0 = ⟨0⟩ := by decide
  refine fromF32_eq_none ?_
  rw [F32.isFinite, F32.div_toNat, hzero]
  exact div_zero_isFinite hv (by decide) (by decide) (by decide)

/-- **A quotient that is not too large** is finite. -/
theorem F32.div_spec {x y : F32} (hx : x.isFinite = true) (hy : y.isFinite = true)
    (hne : y.value ≠ 0)
    {b : ℕ} (hb : b < binary32.infBits) (hquot : |x.value| / |y.value| ≤ binary32.mag b) :
    (x.div y).isFinite = true ∧
      |(x.div y).value| = binary32.mag (binary32.roundBits (|x.value| / |y.value|)) := by
  have hround := binary32.roundBits_mono (div_nonneg (abs_nonneg x.value) (abs_nonneg y.value))
      hquot
  rw [roundBits_mag] at hround
  have hlt := hround.trans_lt hb
  have hmag : binary32.magBits y.bits.toNat ≠ 0 := fun h => by
    have hzero : |y.value| = 0 := by rw [F32.abs_value, h, mag_zero]
    exact hne (abs_eq_zero.mp hzero)
  have hbits : binary32.magBits (x.div y).bits.toNat =
      binary32.roundBits (|x.value| / |y.value|) := by
    rw [F32.abs_value, F32.abs_value] at hlt ⊢
    rw [F32.div_toNat, div_of_isFinite hx hy hmag, min_eq_left hlt.le,
      magBits_withSign (hlt.trans binary32.infBits_lt)]
  rw [F32.isFinite_iff, F32.abs_value, hbits]
  exact ⟨hlt, rfl⟩

/-- **Divided by a positive scale**, a value that is not too large is finite. -/
theorem exists_fromF32_div (hv : v.isFinite = true) (hlt : |v.value| < 29352960)
    (hbits : bits.toNat < 0x7C00) (hpos : bits ≠ 0) :
    ∃ q, E4m3.fromF32 (v.div (f16ToF32 bits)) = some q := by
  have hmag16 : binary16.magBits bits.toNat = bits.toNat := magBits_of_lt (hbits.trans (by decide))
  obtain ⟨hfin, hvalue⟩ := f16ToF32_value (h := bits) (decide_eq_true (by rwa [hmag16]))
  have hw : |(f16ToF32 bits).value| = binary16.mag bits.toNat := by
    rw [hvalue, FloatFormat.abs_value, hmag16]
  have hone : 2 ^ (-24 : ℤ) ≤ binary16.mag bits.toNat := by
    have h1 := (binary16_mag (e := 0) (n := 1) (by decide) (.inl rfl)).2
    have hmono : binary16.mag (0 * 2 ^ 10 + 1) ≤ binary16.mag bits.toNat :=
      binary16.mag_strictMono.monotone (Nat.pos_of_ne_zero fun h => hpos (UInt16.toNat_inj.mp h))
    norm_num at hmono ⊢
    exact hmono
  have hwpos : 0 < binary16.mag bits.toNat := (zpow_pos two_pos _).trans_le hone
  have h50 : binary32.mag (176 * 2 ^ 23 + 2 ^ 23) = 2 ^ 50 := by
    rw [(binary32_mag (e := 176) (n := 2 ^ 23) (by decide) (.inr le_rfl)).2]
    norm_num
  -- the quotient is below `2 ^ 50`
  have hquot : |v.value| / |(f16ToF32 bits).value| ≤ binary32.mag (176 * 2 ^ 23 + 2 ^ 23) := by
    rw [h50, hw, div_le_iff₀ hwpos]
    calc |v.value| ≤ 2 ^ 50 * 2 ^ (-24 : ℤ) := hlt.le.trans (by norm_num)
      _ ≤ 2 ^ 50 * binary16.mag bits.toNat := mul_le_mul_of_nonneg_left hone (by positivity)
  have hne : (f16ToF32 bits).value ≠ 0 := fun h => by
    rw [h, abs_zero] at hw
    exact hwpos.ne hw
  exact exists_fromF32 (F32.div_spec hv hfin hne (by decide) hquot).1

end Divide

/-! ### Blocks that are lost -/

section Blocks

variable {block : List F32}

/-- The scale of the block is too large for an `f16`. -/
def ScaleTooLarge (block : List F32) : Prop := ∃ v ∈ block, 29352960 ≤ |v.value|

/-- The scale of the block is rounded to zero, and the block is not zero. -/
def ScaleLost (block : List F32) : Prop :=
  ((∃ v ∈ block, 0 < |v.value|) ∧ ∀ v ∈ block, |v.value| ≤ 7 / 2 ^ 19) ∨
    ((∃ v ∈ block, 7 / 2 ^ 8 - 7 / 2 ^ 19 ≤ |v.value|) ∧ ∀ v ∈ block, |v.value| < 7 / 2 ^ 8)

theorem exists_le_iff_peak (h : ∀ v ∈ block, v.isFinite = true) (hne : block ≠ []) (q : ℚ) :
    ((∃ v ∈ block, q ≤ |v.value|) ↔ q ≤ binary32.mag (peakOf block).bits.toNat) ∧
      ((∃ v ∈ block, q < |v.value|) ↔ q < binary32.mag (peakOf block).bits.toNat) := by
  obtain ⟨-, hall, w, hw, heq⟩ := peakOf_spec h hne
  have hle : ∀ v ∈ block, |v.value| ≤ binary32.mag (peakOf block).bits.toNat := fun v hv => by
    rw [F32.abs_value]
    exact binary32.mag_strictMono.monotone (hall v hv)
  have hpeak : |w.value| = binary32.mag (peakOf block).bits.toNat := by rw [F32.abs_value, heq]
  constructor
  · exact ⟨fun ⟨v, hv, hq⟩ => hq.trans (hle v hv), fun hq => ⟨w, hw, hpeak ▸ hq⟩⟩
  · exact ⟨fun ⟨v, hv, hq⟩ => hq.trans_le (hle v hv), fun hq => ⟨w, hw, hpeak ▸ hq⟩⟩

/-- **A block is lost** by its peak. -/
theorem scaleLost_iff (h : ∀ v ∈ block, v.isFinite = true) (hne : block ≠ []) :
    ScaleLost block ↔ 0 < binary32.mag (peakOf block).bits.toNat ∧
      (scaleMag (peakOf block).bits.toNat ≤ 2 ^ (-25 : ℤ) ∨
        BelowNormal (scaleMag (peakOf block).bits.toNat)) := by
  have hforall_le : ∀ q, (∀ v ∈ block, |v.value| ≤ q) ↔ binary32.mag (peakOf block).bits.toNat ≤
      q :=
    fun q => by
      rw [← not_lt, ← (exists_le_iff_peak h hne q).2]
      push Not
      rfl
  have hforall_lt : ∀ q, (∀ v ∈ block, |v.value| < q) ↔ binary32.mag (peakOf block).bits.toNat <
      q :=
    fun q => by
      rw [← not_le, ← (exists_le_iff_peak h hne q).1]
      push Not
      rfl
  rw [ScaleLost, (exists_le_iff_peak h hne _).1, (exists_le_iff_peak h hne _).2, hforall_le,
    hforall_lt,
    scaleMag_le_tiny, BelowNormal, le_scaleMag_below, ← not_le (a := (2 : ℚ) ^ (-14 : ℤ)),
    le_scaleMag_normal, not_le]
  constructor
  · rintro (⟨hpos, hle⟩ | ⟨hlow, hhigh⟩)
    · exact ⟨hpos, .inl hle⟩
    · exact ⟨lt_of_lt_of_le (by norm_num) hlow, .inr ⟨hlow, hhigh⟩⟩
  · rintro ⟨hpos, hle | hbelow⟩
    · exact .inl ⟨hpos, hle⟩
    · exact .inr hbelow

/-- **A block** is encoded unless its scale is too large, which is an error, or lost, which is not.
-/
theorem encodeE4m3Block_spec (h : ∀ v ∈ block, v.isFinite = true) (hne : block ≠ []) (b : ℕ) :
    (ScaleLost block → encodeE4m3Block block b = .error .panic) ∧
      (ScaleTooLarge block → ∃ e, encodeE4m3Block block b = .error (.err e)) ∧
      (¬ScaleLost block → ¬ScaleTooLarge block → ∃ r, encodeE4m3Block block b = .ok r) := by
  obtain ⟨hfin, -, -⟩ := peakOf_spec h hne
  obtain ⟨hs, hslt⟩ := scale_toNat hfin
  obtain ⟨hreject, haccept⟩ := f16ScaleBits_spec hslt SchemeId.e4m3B128.name b
  have hscale : binary32.mag ((peakOf block).div ⟨0x43E00000⟩).bits.toNat =
      scaleMag (peakOf block).bits.toNat := by rw [hs, scaleMag]
  have hlarge : ScaleTooLarge block ↔ 65520 ≤ scaleMag (peakOf block).bits.toNat :=
    (exists_le_iff_peak h hne _).1.trans le_scaleMag_large.symm
  have hzero : (peakOf block).eq ⟨0⟩ = true ↔ (peakOf block).bits.toNat = 0 :=
    eq_iff_of_lt hfin.le (Nat.zero_le _)
  have hpos : (peakOf block).eq ⟨0⟩ = true ↔ ¬0 < binary32.mag (peakOf block).bits.toNat := by
    rw [hzero, ← binary32.mag_zero, binary32.mag_strictMono.lt_iff_lt, Nat.pos_iff_ne_zero,
      Decidable.not_not]
  rw [hscale] at hreject haccept
  rw [hlarge, scaleLost_iff h hne]
  by_cases hp : (peakOf block).eq ⟨0⟩ = true
  · have hnot := hpos.mp hp
    have hmag0 : binary32.mag (peakOf block).bits.toNat = 0 :=
      le_antisymm (not_lt.mp hnot) (binary32.mag_nonneg _)
    refine ⟨fun hl => absurd hl.1 hnot, fun hl => ?_, fun _ _ => ⟨_, if_pos hp⟩⟩
    have hpeak := le_scaleMag_large.mp hl
    rw [hmag0] at hpeak
    norm_num at hpeak
  have hposp : 0 < binary32.mag (peakOf block).bits.toNat := by
    by_contra hn
    exact hp (hpos.mpr hn)
  have hencode : encodeE4m3Block block b = (do
      let bits ← lift (f16ScaleBits ((peakOf block).div ⟨0x43E00000⟩) SchemeId.e4m3B128.name b)
      let q ← block.mapM fun v => orPanic (E4m3.fromF32 (v.div (f16ToF32 bits)))
      pure (q, ⟨bits⟩)) := if_neg hp
  refine ⟨?_, fun hl => ?_, ?_⟩
  · rintro ⟨-, hlost⟩
    have hless : scaleMag (peakOf block).bits.toNat < 65520 := by
      rcases hlost with hlost | hlost
      · exact hlost.trans_lt (by norm_num)
      · exact hlost.2.trans (by norm_num)
    obtain ⟨hok, -, hiff⟩ := haccept hless
    rw [hencode, hok, hiff.mpr hlost.symm, lift_ok, ok_bind]
    obtain ⟨v, rest, rfl⟩ := exists_cons_of_ne_nil hne
    rw [mapM_cons, fromF32_div_zero (h v mem_cons_self)]
    rfl
  · obtain ⟨e, he⟩ := hreject hl
    exact ⟨e, by rw [hencode, he]; rfl⟩
  · intro hlost hless
    obtain ⟨hok, hbits, hiff⟩ := haccept (not_le.mp hless)
    have hne0 : f32ToF16Bits ((peakOf block).div ⟨0x43E00000⟩) ≠ 0 := fun h0 =>
      hlost ⟨hposp, (hiff.mp h0).symm⟩
    have hall : ∀ v ∈ block, ∃ q, orPanic (ε := FormatError) (E4m3.fromF32 (v.div (f16ToF32
        (f32ToF16Bits ((peakOf block).div ⟨0x43E00000⟩))))) = .ok q := fun v hv => by
      have hsmall : |v.value| < 29352960 := not_le.mp fun hge => hless (hlarge.mp ⟨v, hv, hge⟩)
      obtain ⟨q, hq⟩ := exists_fromF32_div (h v hv) hsmall hbits hne0
      exact ⟨q, by rw [hq]; rfl⟩
    obtain ⟨q, hq, -⟩ := exists_mapM_ok hall
    exact ⟨_, by rw [hencode, hok, lift_ok, ok_bind, hq]; rfl⟩

end Blocks

/-! ### Lists of blocks -/

section Lists

variable {x : List F32}

theorem checkInputs_ok (h : ∀ v ∈ x, v.isFinite = true) : checkInputs x = .ok () := by
  rw [checkInputs, FormatError.collect_eq_ok, map_eq_nil_iff, filter_eq_nil_iff]
  intro v hv
  obtain ⟨hlt, hi⟩ := mem_zipIdx' (x := v.1) (i := v.2) hv
  have hmem : v.1 ∈ x := hi.symm ▸ get_mem x ⟨v.2, hlt⟩
  rw [h v.1 hmem]
  decide

theorem chunksExact_finite (h : ∀ v ∈ x, v.isFinite = true) {i : ℕ} {block : List F32}
    (hi : (chunksExact 128 x)[i]? = some block) :
    (∀ v ∈ block, v.isFinite = true) ∧ block ≠ [] := by
  rw [chunksExact, getElem?_map, Option.map_eq_some_iff] at hi
  obtain ⟨j, hj, rfl⟩ := hi
  have hlt : j < x.length / 128 := mem_range.mp (mem_of_getElem? hj)
  refine ⟨fun v hv => h v (mem_of_mem_block hv), ne_nil_of_length_pos ?_⟩
  rw [length_block (by omega)]
  decide

/-- **The encoder returns** exactly when no block is lost before one whose scale is too large. -/
theorem encodeE4m3Block128_ne_panic_iff (x : List F32) (hne : x ≠ []) (hlen : x.length % 128 = 0)
    (h : ∀ v ∈ x, v.isFinite = true) :
    encodeE4m3Block128 x ≠ .error .panic ↔
      ∀ (i : ℕ) (block : List F32), (chunksExact 128 x)[i]? = some block →
        (∀ j < i, ∀ b, (chunksExact 128 x)[j]? = some b → ¬ScaleTooLarge b) → ¬ScaleLost block := by
  have hspec : ∀ (i : ℕ) (block : List F32), (chunksExact 128 x)[i]? = some block → _ :=
    fun i block hi => encodeE4m3Block_spec (chunksExact_finite h hi).1 (chunksExact_finite h hi).2 i
  have hzip : ∀ (i : ℕ) (block : List F32) (b : ℕ), (chunksExact 128 x).zipIdx[i]? =
      some (block, b) ↔
      (chunksExact 128 x)[i]? = some block ∧ b = i := by
    intro i block b
    rw [getElem?_zipIdx, Option.map_eq_some_iff]
    simp only [Nat.zero_add, Prod.mk.injEq]
    exact ⟨fun ⟨a, ha, hab, hib⟩ => ⟨hab ▸ ha, hib.symm⟩, fun ⟨ha, hib⟩ =>
      ⟨block, ha, rfl, hib.symm⟩⟩
  have hpanic : encodeE4m3Block128 x = .error .panic ↔
      (chunksExact 128 x).zipIdx.mapM (fun block => encodeE4m3Block block.1 block.2) =
        .error .panic := by
    rw [encodeE4m3Block128, ensure_of (by simp [hne, hlen]), lift_ok, ok_bind, checkInputs_ok h,
      lift_ok,
      ok_bind, bind_eq_error]
    simp
  rw [ne_eq, hpanic, mapM_eq_error_iff]
  constructor
  · intro hnot i block hi hlarge hlost
    classical
    -- the first block that is lost
    have hex : ∃ i block, (chunksExact 128 x)[i]? = some block ∧ ScaleLost block :=
        ⟨i, block, hi, hlost⟩
    obtain ⟨first, hfirst, hfirstLost⟩ := Nat.find_spec hex
    have hle : Nat.find hex ≤ i := Nat.find_min' hex ⟨block, hi, hlost⟩
    refine hnot ⟨Nat.find hex, (first, Nat.find hex), (hzip _ _ _).mpr ⟨hfirst, rfl⟩,
      (hspec _ _ hfirst).1 hfirstLost, fun j hj b hb => ?_⟩
    obtain ⟨hbj, hidx⟩ := (hzip j b.1 b.2).mp hb
    have hspecj := (hspec j b.1 hbj).2.2 (fun hl => Nat.find_min hex hj ⟨b.1, hbj, hl⟩)
      (hlarge j (hj.trans_le hle) b.1 hbj)
    rwa [← hidx] at hspecj
  · rintro hall ⟨i, ⟨block, b⟩, hi, hfail, hbefore⟩
    obtain ⟨hblock, rfl⟩ := (hzip i block b).mp hi
    have hlarge : ∀ j < b, ∀ c, (chunksExact 128 x)[j]? = some c → ¬ScaleTooLarge c := by
      intro j hj c hc hl
      obtain ⟨r, hr⟩ := hbefore j hj (c, j) ((hzip j c j).mpr ⟨hc, rfl⟩)
      obtain ⟨e, he⟩ := (hspec j c hc).2.1 hl
      rw [he] at hr
      cases hr
    have hlost := hall b block hblock hlarge
    by_cases hl : ScaleTooLarge block
    · obtain ⟨e, he⟩ := (hspec b block hblock).2.1 hl
      rw [he] at hfail
      cases hfail
    · obtain ⟨r, hr⟩ := (hspec b block hblock).2.2 hlost hl
      rw [hr] at hfail
      cases hfail

end Lists

/-- A block of ones is encoded. -/
theorem encode_ones : encodeE4m3Block128 (List.replicate 128 ⟨0x3F800000⟩) ≠ .error .panic := by
  have hone : (⟨0x3F800000⟩ : F32).value = 1 := by
    have hmag := (binary32_mag (e := 126) (n := 2 ^ 23) (by decide) (.inr le_rfl)).2
    rw [F32.value, value_of_lt (by decide)]
    rw [show 126 * 2 ^ 23 + 2 ^ 23 = (0x3F800000 : UInt32).toNat from by decide] at hmag
    rw [hmag]
    norm_num
  refine (encodeE4m3Block128_ne_panic_iff _ (by simp) (by simp) fun v hv => ?_).mpr
    fun i block hi _ hlost => ?_
  · rw [eq_of_mem_replicate hv]
    decide
  · have hall : ∀ v ∈ block, |v.value| = 1 := fun v hv => by
      rw [chunksExact, getElem?_map, Option.map_eq_some_iff] at hi
      obtain ⟨j, -, rfl⟩ := hi
      rw [eq_of_mem_replicate (mem_of_mem_block hv), hone, abs_one]
    rcases hlost with ⟨⟨v, hv, -⟩, hle⟩ | ⟨⟨v, hv, -⟩, hlt⟩
    · have h1 := hle v hv
      rw [hall v hv] at h1
      norm_num at h1
    · have h1 := hlt v hv
      rw [hall v hv] at h1
      norm_num at h1

/-- **A block of values of `2 ^ (-20)`** makes the encoder panic. -/
theorem encode_tiny_panics : (∀ v ∈ List.replicate 128 (⟨0x35800000⟩ : F32), v.isFinite = true) ∧
    encodeE4m3Block128 (List.replicate 128 ⟨0x35800000⟩) = .error .panic := by
  have hfin : ∀ v ∈ List.replicate 128 (⟨0x35800000⟩ : F32), v.isFinite = true := fun v hv => by
    rw [eq_of_mem_replicate hv]
    decide
  have hvalue : (⟨0x35800000⟩ : F32).value = 2 ^ (-20 : ℤ) := by
    have hmag := (binary32_mag (e := 106) (n := 2 ^ 23) (by decide) (.inr le_rfl)).2
    rw [F32.value, value_of_lt (by decide)]
    rw [show 106 * 2 ^ 23 + 2 ^ 23 = (0x35800000 : UInt32).toNat from by decide] at hmag
    rw [hmag]
    norm_num
  have hlost : ScaleLost (List.replicate 128 (⟨0x35800000⟩ : F32)) := by
    refine .inl ⟨⟨_, mem_replicate.mpr ⟨by decide, rfl⟩, ?_⟩, fun v hv => ?_⟩
    · rw [hvalue]
      norm_num
    · rw [eq_of_mem_replicate hv, hvalue]
      norm_num
  have hblock := (encodeE4m3Block_spec hfin (by simp) 0).1 hlost
  have hchunks : chunksExact 128 (List.replicate 128 (⟨0x35800000⟩ : F32)) =
      [List.replicate 128 ⟨0x35800000⟩] := by
    rw [chunksExact, length_replicate]
    exact congrArg (fun b => [b]) (take_of_length_le (by simp))
  refine ⟨hfin, ?_⟩
  rw [encodeE4m3Block128, ensure_of (by simp), lift_ok, ok_bind, checkInputs_ok hfin, lift_ok,
    ok_bind,
    hchunks, zipIdx_singleton, mapM_cons, hblock]
  rfl

end R9v.Format

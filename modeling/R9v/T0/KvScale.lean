import R9v.T0.KvRows

/-!
# The scales of quantized rows

A quantized row is stored with a scale that is a half. The scale of a row of large numbers is
infinite, and the scale of a row of small numbers is zero (`Kv.readsBack_iff`): the row is lost,
although the write succeeds.
-/

namespace R9v.Kv

open Blocks Checked FloatFormat Format List

variable {row : List F32} {c : ℚ}

/-! ### What is kept -/

/-- The scale of a row is zero: the numbers are small, or the scale is just below the first normal
half. -/
def ScaleVanishes (c : ℚ) (row : List F32) : Prop :=
  (∀ v ∈ row, |v.value| ≤ c * 2 ^ (-25 : ℤ)) ∨
    (∃ v ∈ row, c * (2 ^ (-14 : ℤ) - 2 ^ (-25 : ℤ)) ≤ |v.value|) ∧
      ∀ v ∈ row, |v.value| < c * 2 ^ (-14 : ℤ)

/-- The scale of a row is infinite. -/
def ScaleOverflows (c : ℚ) (row : List F32) : Prop := ∃ v ∈ row, c * 65520 ≤ |v.value|

/-- A row that can be stored with a scale. -/
def Kept (c : ℚ) (row : List F32) : Prop :=
  (∀ v ∈ row, v.value = 0) ∨ ¬ScaleVanishes c row ∧ ¬ScaleOverflows c row

/-- A row is read back with finite numbers, and its greatest one is not read as zero. -/
structure ReadsBack (row : List F32) (scale : UInt16) (read : ℕ → Except KvError F32) : Prop where
  scale_finite : binary16.isFinite scale.toNat = true
  scale_ne_zero : (∃ v ∈ row, v.value ≠ 0) → binary16.magBits scale.toNat ≠ 0
  finite : ∀ dim < row.length, ∃ x, read dim = .ok x ∧ x.isFinite = true
  greatest : ∀ dim v, row[dim]? = some v → v.value ≠ 0 → (∀ w ∈ row, |w.value| ≤ |v.value|) →
    ∃ x, read dim = .ok x ∧ x.value ≠ 0

/-! ### Scales before they are rounded to halves -/

/-- The bounds on a row are those on its scale. -/
structure Thresholds (c : ℚ) : Prop where
  tiny : ∀ p, binary32.mag (binary32.roundBits (binary32.mag p / c)) ≤ 2 ^ (-25 : ℤ) ↔
    binary32.mag p ≤ c * 2 ^ (-25 : ℤ)
  below : ∀ p, 2 ^ (-14 : ℤ) - 2 ^ (-25 : ℤ) ≤
      binary32.mag (binary32.roundBits (binary32.mag p / c)) ↔
    c * (2 ^ (-14 : ℤ) - 2 ^ (-25 : ℤ)) ≤ binary32.mag p
  normal : ∀ p, 2 ^ (-14 : ℤ) ≤ binary32.mag (binary32.roundBits (binary32.mag p / c)) ↔
    c * 2 ^ (-14 : ℤ) ≤ binary32.mag p
  large : ∀ p, 65520 ≤ binary32.mag (binary32.roundBits (binary32.mag p / c)) ↔
    c * 65520 ≤ binary32.mag p

theorem thresholds_127 : Thresholds 127 where
  tiny p := by
    have h := @quotient_le_iff p 127 (by norm_num) 101 (2 ^ 23) 107 (127 * 2 ^ 17) (by decide)
      (by decide) (by norm_num) (by norm_num)
    norm_num at h ⊢
    exact h
  below p := by
    have h := @le_quotient_iff p 127 (by norm_num) 111 (2047 * 2 ^ 13 - 1) 118 (259969 * 2 ^ 6 - 1)
      (by decide) (by decide) (by norm_num) (by norm_num)
    norm_num at h ⊢
    exact h
  normal p := by
    have h := @le_quotient_iff p 127 (by norm_num) 111 (2 ^ 24 - 1) 118 (127 * 2 ^ 17 - 1)
      (by decide) (by decide) (by norm_num) (by norm_num)
    norm_num at h ⊢
    exact h
  large p := by
    have h := @le_quotient_iff p 127 (by norm_num) 141 (65520 * 2 ^ 8 - 1) 148 (16642080 - 1)
      (by decide) (by decide) (by norm_num) (by norm_num)
    norm_num at h ⊢
    exact h

theorem thresholds_448 : Thresholds 448 where
  tiny p := by
    rw [← scaleMag, scaleMag_le_tiny]
    norm_num
  below p := by
    rw [← scaleMag, le_scaleMag_below]
    norm_num
  normal p := by
    rw [← scaleMag, le_scaleMag_normal]
    norm_num
  large p := by
    rw [← scaleMag, le_scaleMag_large]
    norm_num

/-- The divisor of the scale of a row, which is a float that is exact. -/
structure Divisor (c : ℚ) (y : F32) : Prop where
  finite : y.bits.toNat < binary32.infBits
  mag : binary32.mag y.bits.toNat = c
  bounds : 126 ≤ c ∧ c ≤ 448
  thresholds : Thresholds c

theorem divisor_127 : Divisor 127 ⟨0x42FE0000⟩ where
  finite := by decide
  mag := by
    have hmag := (binary32_mag (e := 132) (n := 127 * 2 ^ 17) (by decide) (.inr (by decide))).2
    change binary32.mag 0x42FE0000 = _ at hmag
    change binary32.mag 0x42FE0000 = _
    rw [hmag]
    norm_num
  bounds := by norm_num
  thresholds := thresholds_127

theorem divisor_448 : Divisor 448 ⟨0x43E00000⟩ where
  finite := by decide
  mag := mag_448
  bounds := by norm_num
  thresholds := thresholds_448

section Row

variable {y : F32} (hy : Divisor c y) (h : ∀ v ∈ row, v.isFinite = true) (hne : row ≠ [])
include hy h hne

theorem scale_eq : ((peakOf row).div y).bits.toNat =
      binary32.roundBits (binary32.mag (peakOf row).bits.toNat / c) ∧
    ((peakOf row).div y).bits.toNat < binary32.infBits := by
  rw [← hy.mag]
  exact div_toNat_of_one_le (peakOf_spec h hne).1 hy.finite
    (hy.mag ▸ le_trans (by norm_num) hy.bounds.1)

/-- **The scale of a row as a half**: infinite or zero where the bounds on the row say so. -/
theorem f32ToF16Bits_scale :
    (ScaleOverflows c row → (f32ToF16Bits ((peakOf row).div y)).toNat = 0x7C00) ∧
      (¬ScaleOverflows c row → (f32ToF16Bits ((peakOf row).div y)).toNat < 0x7C00 ∧
        (f32ToF16Bits ((peakOf row).div y) = 0 ↔ ScaleVanishes c row)) := by
  obtain ⟨hscale, hlt⟩ := scale_eq hy h hne
  obtain ⟨hlarge, hless⟩ := f32ToF16Bits_of_pos hlt
  have hpeak := fun q => exists_le_iff_peak h hne q
  have hall_le : ∀ q, (∀ v ∈ row, |v.value| ≤ q) ↔ binary32.mag (peakOf row).bits.toNat ≤ q :=
    fun q => by
      rw [← not_lt, ← (hpeak q).2]
      push Not
      rfl
  have hall_lt : ∀ q, (∀ v ∈ row, |v.value| < q) ↔ binary32.mag (peakOf row).bits.toNat < q :=
    fun q => by
      rw [← not_le, ← (hpeak q).1]
      push Not
      rfl
  have hoverflows : ScaleOverflows c row ↔
      65520 ≤ binary32.mag ((peakOf row).div y).bits.toNat := by
    rw [hscale, hy.thresholds.large]
    exact (hpeak _).1
  have hvanishes : ScaleVanishes c row ↔
      BelowNormal (binary32.mag ((peakOf row).div y).bits.toNat) ∨
        binary32.mag ((peakOf row).div y).bits.toNat ≤ 2 ^ (-25 : ℤ) := by
    rw [ScaleVanishes, BelowNormal, hall_le, (hpeak _).1, hall_lt, hscale, hy.thresholds.tiny,
      hy.thresholds.below, ← not_le (a := (2 : ℚ) ^ (-14 : ℤ)), hy.thresholds.normal, not_le,
        or_comm]
  rw [hoverflows, hvanishes]
  exact ⟨hlarge, fun hlt => hless (not_le.mp hlt)⟩

/-- **The greatest element divided by the scale** is about the divisor. -/
theorem le_div_scale (hpos : 0 < ((peakOf row).div y).bits.toNat) {v : F32} (hv : v ∈ row)
    (hgreatest : ∀ w ∈ row, |w.value| ≤ |v.value|) :
    63 ≤ |(v.div ((peakOf row).div y)).value| := by
  have hbounds : 1 ≤ binary32.mag y.bits.toNat ∧ binary32.mag y.bits.toNat ≤ 448 := by
    rw [hy.mag]
    exact ⟨le_trans (by norm_num) hy.bounds.1, hy.bounds.2⟩
  obtain ⟨hscale, -⟩ := scale_eq hy h hne
  obtain ⟨-, hquot⟩ := div_scale_spec hy.finite hbounds h hpos hv
  have hmag : 0 < binary32.mag ((peakOf row).div y).bits.toNat := by
    have := binary32.mag_strictMono hpos
    rwa [mag_zero] at this
  have hc : 0 < c := lt_of_lt_of_le (by norm_num) hy.bounds.1
  -- the element is the peak
  have hpeak : binary32.mag (peakOf row).bits.toNat = |v.value| := by
    obtain ⟨-, hle, w, hw, heq⟩ := peakOf_spec h hne
    refine le_antisymm ?_ ?_
    · rw [← heq, ← F32.abs_value]
      exact hgreatest w hw
    · rw [F32.abs_value]
      exact binary32.mag_strictMono.monotone (hle v hv)
  -- what a number is rounded to is at most twice the number
  have hnear := (binary32.isNearest_roundBits
    (div_nonneg (binary32.mag_nonneg (peakOf row).bits.toNat) hc.le) 0).1
  rw [← hscale, mag_zero, zero_sub, abs_neg,
    abs_of_nonneg (div_nonneg (binary32.mag_nonneg _) hc.le)] at hnear
  have hdouble : binary32.mag ((peakOf row).div y).bits.toNat * c ≤
      2 * binary32.mag (peakOf row).bits.toNat := by
    have hle := (abs_le.mp hnear).2
    rw [sub_le_iff_le_add, ← two_mul, ← mul_div_assoc, le_div_iff₀ hc] at hle
    exact hle
  have h63 : binary32.mag (131 * 2 ^ 23 + 63 * 2 ^ 18) = 63 := by
    rw [(binary32_mag (e := 131) (n := 63 * 2 ^ 18) (by decide) (.inr (by decide))).2]
    norm_num
  rw [hquot, ← h63, ← roundBits_mag (f := binary32) (131 * 2 ^ 23 + 63 * 2 ^ 18), h63]
  refine binary32.mag_strictMono.monotone (binary32.roundBits_mono (by norm_num) ?_)
  rw [le_div_iff₀ hmag, ← hpeak]
  have h126 := mul_le_mul_of_nonneg_left hy.bounds.1 hmag.le
  linarith

end Row

/-! ### What is read -/

section Product

variable {x y : F32}

theorem mul_toNat (x y : F32) : (x.mul y).bits.toNat = binary32.mul x.bits.toNat y.bits.toNat :=
  UInt32.toNat_ofNat_of_lt' (FloatFormat.mul_lt (f := binary32) (by decide))

/-- **A product that is neither too large nor too small** is finite, and it is not zero. -/
theorem mul_spec (hx : x.isFinite = true) (hy : y.isFinite = true)
    (hle : |x.value * y.value| ≤ 2 ^ (25 : ℤ)) :
    (x.mul y).isFinite = true ∧ (2 ^ (-149 : ℤ) ≤ |x.value * y.value| → (x.mul y).value ≠ 0) := by
  have hbits := magBits_mul hx hy
  rw [← mul_toNat] at hbits
  change binary32.magBits (x.mul y).bits.toNat =
    min (binary32.roundBits |x.value * y.value|) binary32.infBits at hbits
  have h25 : binary32.mag (151 * 2 ^ 23 + 2 ^ 23) = 2 ^ (25 : ℤ) := by
    rw [(binary32_mag (e := 151) (n := 2 ^ 23) (by decide) (.inr le_rfl)).2]
    norm_num
  have hround := binary32.roundBits_mono (abs_nonneg (x.value * y.value)) (h25 ▸ hle)
  rw [roundBits_mag] at hround
  have hlt : binary32.roundBits |x.value * y.value| < binary32.infBits :=
      hround.trans_lt (by decide)
  rw [min_eq_left hlt.le] at hbits
  constructor
  · rw [F32.isFinite_iff, hbits]
    exact hlt
  · intro hge hzero
    have hone : binary32.mag 1 = 2 ^ (-149 : ℤ) := by
      have := (binary32_mag (e := 0) (n := 1) (by decide) (.inl rfl)).2
      norm_num at this ⊢
      exact this
    have hpos := binary32.roundBits_mono (binary32.mag_nonneg 1) (hone ▸ hge)
    rw [roundBits_mag, ← hbits] at hpos
    have habs : |(x.mul y).value| = 0 := by rw [hzero, abs_zero]
    rw [F32.abs_value] at habs
    have := binary32.mag_strictMono (Nat.lt_of_lt_of_le Nat.zero_lt_one hpos)
    rw [mag_zero, habs] at this
    exact lt_irrefl _ this

theorem half_bounds {h : UInt16} (hfin : binary16.isFinite h.toNat = true) :
    (Format.f16ToF32 h).isFinite = true ∧ |(Format.f16ToF32 h).value| ≤ 2 ^ (16 : ℤ) ∧
      (binary16.magBits h.toNat ≠ 0 → 2 ^ (-24 : ℤ) ≤ |(Format.f16ToF32 h).value|) := by
  obtain ⟨hfinite, hvalue⟩ := f16ToF32_value hfin
  have hlt : binary16.magBits h.toNat < 0x7C00 := of_decide_eq_true hfin
  have habs : |(Format.f16ToF32 h).value| = binary16.mag (binary16.magBits h.toNat) := by
    rw [hvalue, FloatFormat.abs_value]
  refine ⟨hfinite, ?_, fun hne => ?_⟩
  · have h16 := (binary16_mag (e := 30) (n := 2 ^ 10) (by decide) (.inr le_rfl)).2
    have hmono := (binary16.mag_strictMono (a := binary16.magBits h.toNat)
      (b := 30 * 2 ^ 10 + 2 ^ 10) (hlt.trans_le (by decide))).le
    rw [h16, ← habs] at hmono
    norm_num at hmono ⊢
    exact hmono
  · have h1 := (binary16_mag (e := 0) (n := 1) (by decide) (.inl rfl)).2
    have hmono := binary16.mag_strictMono.monotone (a := 0 * 2 ^ 10 + 1)
      (b := binary16.magBits h.toNat) (Nat.pos_of_ne_zero hne)
    rw [h1, ← habs] at hmono
    norm_num at hmono ⊢
    exact hmono

end Product

/-- **What a quantized row reads back as**, by the bounds on the row. -/
theorem readsBack_iff {y : F32} (hy : Divisor c y) (h : ∀ v ∈ row, v.isFinite = true)
    (hne : row ≠ [])
    {read : ℕ → Except KvError F32} {val : ℕ → F32}
    (hread : ∀ dim < row.length,
      read dim = .ok ((Format.f16ToF32 (f32ToF16Bits ((peakOf row).div y))).mul (val dim)))
    (hfinite : ∀ dim < row.length, (val dim).isFinite = true ∧ |(val dim).value| ≤ 448)
    (hpeak : 0 < ((peakOf row).div y).bits.toNat → ∀ dim v, row[dim]? = some v →
      63 ≤ |(v.div ((peakOf row).div y)).value| → 1 ≤ |(val dim).value|) :
    ReadsBack row (f32ToF16Bits ((peakOf row).div y)) read ↔ Kept c row := by
  obtain ⟨hlarge, hless⟩ := f32ToF16Bits_scale hy h hne
  have hzero : f32ToF16Bits ((peakOf row).div y) = 0 →
      binary16.magBits (f32ToF16Bits ((peakOf row).div y)).toNat = 0 := fun heq => by rw [heq]; rfl
  constructor
  · intro hr
    rcases em (∀ v ∈ row, v.value = 0) with hall | hall
    · exact .inl hall
    push Not at hall
    have hover : ¬ScaleOverflows c row := fun hover => by
      have hfin := hr.scale_finite
      rw [hlarge hover] at hfin
      exact absurd hfin (by decide)
    exact .inr ⟨fun hvanish => hr.scale_ne_zero hall (hzero ((hless hover).2.mpr hvanish)), hover⟩
  · intro hkept
    have hover : ¬ScaleOverflows c row := by
      rcases hkept with hall | ⟨-, hover⟩
      · rintro ⟨v, hv, hge⟩
        rw [hall v hv, abs_zero] at hge
        have := hy.bounds.1
        linarith
      · exact hover
    obtain ⟨hlt, hiff⟩ := hless hover
    have hmag : binary16.magBits (f32ToF16Bits ((peakOf row).div y)).toNat =
        (f32ToF16Bits ((peakOf row).div y)).toNat := magBits_of_lt (hlt.trans (by decide))
    have hhalf : binary16.isFinite (f32ToF16Bits ((peakOf row).div y)).toNat = true :=
      decide_eq_true (by rw [hmag]; exact hlt)
    obtain ⟨hsfin, hsle, hsge⟩ := half_bounds hhalf
    have hne_zero : (∃ v ∈ row, v.value ≠ 0) →
        binary16.magBits (f32ToF16Bits ((peakOf row).div y)).toNat ≠ 0 := by
      rintro ⟨v, hv, hvne⟩ heq
      rcases hkept with hall | ⟨hvanish, -⟩
      · exact hvne (hall v hv)
      · rw [hmag] at heq
        exact hvanish (hiff.mp (UInt16.toNat_inj.mp heq))
    have hproduct : ∀ dim < row.length,
        |(Format.f16ToF32 (f32ToF16Bits ((peakOf row).div y))).value * (val dim).value| ≤
          2 ^ (25 : ℤ) := by
      intro dim hdim
      rw [abs_mul]
      calc _ ≤ 2 ^ (16 : ℤ) * (448 : ℚ) :=
            mul_le_mul hsle (hfinite dim hdim).2 (abs_nonneg _) (by positivity)
        _ ≤ 2 ^ (25 : ℤ) := by norm_num
    refine ⟨hhalf, hne_zero, fun dim hdim => ?_, fun dim v hv hvne hgreatest => ?_⟩
    · exact ⟨_, hread dim hdim, (mul_spec hsfin (hfinite dim hdim).1 (hproduct dim hdim)).1⟩
    · have hdim : dim < row.length := (List.getElem?_eq_some_iff.mp hv).1
      have hmem := mem_of_getElem? hv
      have hsne := hne_zero ⟨v, hmem, hvne⟩
      have hpos : 0 < ((peakOf row).div y).bits.toNat := Nat.pos_of_ne_zero fun heq => hsne (by
        have : (peakOf row).div y = ⟨0⟩ := congrArg F32.mk (UInt32.toNat_inj.mp heq)
        rw [this]
        decide)
      have hone := hpeak hpos dim v hv (le_div_scale hy h hne hpos hmem hgreatest)
      refine ⟨_, hread dim hdim,
        (mul_spec hsfin (hfinite dim hdim).1 (hproduct dim hdim)).2 ?_⟩
      rw [abs_mul]
      calc (2 : ℚ) ^ (-149 : ℤ) ≤ 2 ^ (-24 : ℤ) * 1 := by norm_num
        _ ≤ _ := mul_le_mul (hsge hsne) hone (by norm_num) (abs_nonneg _)

/-! ### Codes of eight bits -/

section Codes

theorem ofInt_spec {n : ℤ} (hn : |n| < 2 ^ 24) :
    (F32.ofInt n).isFinite = true ∧ |(F32.ofInt n).value| = (|n| : ℤ) := by
  have habs : |(n : ℚ)| = (n.natAbs : ℚ) := by rw [← Int.cast_abs, Nat.cast_natAbs]
  have hlt : n.natAbs < 2 ^ (binary32.mant + 1) := by
    change n.natAbs < 2 ^ 24
    rw [Int.abs_eq_natAbs] at hn
    omega
  have hrep : binary32.Representable |(n : ℚ)| := by
    have := @representable_of_lt binary32 n.natAbs 149 hlt
    rw [show binary32.minExp + ((149 : ℕ) : ℤ) = 0 from rfl, zpow_zero, mul_one] at this
    rwa [habs]
  have h24 : binary32.mag (150 * 2 ^ 23 + 2 ^ 23) = 2 ^ 24 := by
    rw [(binary32_mag (e := 150) (n := 2 ^ 23) (by decide) (.inr le_rfl)).2]
    norm_num
  have hle : |(n : ℚ)| ≤ 2 ^ 24 := by
    rw [habs]
    exact_mod_cast hlt.le
  have hmono := binary32.roundBits_mono (abs_nonneg (n : ℚ)) (h24 ▸ hle)
  rw [roundBits_mag] at hmono
  have hround : binary32.roundBits |(n : ℚ)| < binary32.infBits := hmono.trans_lt (by decide)
  have hbits : binary32.magBits (F32.ofInt n).bits.toNat = binary32.roundBits |(n : ℚ)| := by
    have hmag : binary32.magBits (binary32.ofInt n) = binary32.roundBits |(n : ℚ)| := by
      rw [FloatFormat.ofInt, min_eq_left hround.le]
      exact magBits_withSign (hround.trans binary32.infBits_lt)
    rw [← hmag]
    refine congrArg binary32.magBits (UInt32.toNat_ofNat_of_lt' ?_)
    rw [FloatFormat.ofInt, min_eq_left hround.le]
    refine withSign_lt ?_ (hround.trans binary32.infBits_lt)
    split <;> decide
  rw [F32.isFinite_iff, F32.abs_value, hbits, hrep.mag_roundBits, Int.cast_abs]
  exact ⟨hround, rfl⟩

theorem le_roundTiesEven {q : ℚ} {n : ℤ} (h : (n : ℚ) ≤ q) : n ≤ roundTiesEven q := by
  have hfloor : n ≤ ⌊q⌋ := Int.le_floor.mpr h
  rw [roundTiesEven]
  split <;> omega

theorem roundTiesEven_le {q : ℚ} {n : ℤ} (h : q ≤ (n : ℚ)) : roundTiesEven q ≤ n := by
  have hle : ⌊q⌋ ≤ n := by exact_mod_cast (Int.floor_le q).trans h
  rw [roundTiesEven]
  split
  · exact hle
  · next hfrac =>
    -- a number that is the integer itself is not rounded up
    refine Int.add_one_le_iff.mpr (lt_of_le_of_ne hle fun heq => hfrac (.inl ?_))
    rw [heq]
    linarith

theorem toCode_spec (x : F32) : |(toCode x).toInt| ≤ 127 ∧
    (x.isFinite = true → 1 ≤ |x.value| → (toCode x).toInt ≠ 0) := by
  have hint : ∀ n : ℤ, -127 ≤ n → n ≤ 127 → (Int8.ofInt n).toInt = n := fun n hlow hhigh =>
    Int8.toInt_ofInt_of_le (by omega) (by omega)
  rw [toCode]
  split
  · next hnan =>
    refine ⟨by decide, fun hfin => ?_⟩
    rw [F32.isNan, isNan_of_isFinite hfin] at hnan
    cases hnan
  · split
    · next hinf =>
      refine ⟨by split <;> decide, fun hfin => ?_⟩
      rw [F32.isInfinite, isInfinite_of_isFinite hfin] at hinf
      cases hinf
    · rw [hint _ (by omega) (by omega)]
      refine ⟨abs_le.mpr (by omega), fun _ hone => ?_⟩
      rcases le_abs.mp hone with hpos | hneg
      · have := @le_roundTiesEven x.value 1 (by exact_mod_cast hpos)
        omega
      · have := @roundTiesEven_le x.value (-1) (by push_cast; linarith)
        omega

theorem fromF32_spec {x : F32} (hx : x.isFinite = true) :
    ∃ q, E4m3.fromF32 x = some q ∧ q.toF32.isFinite = true ∧ |q.toF32.value| ≤ 448 ∧
      (1 ≤ |x.value| → 1 ≤ |q.toF32.value|) := by
  obtain ⟨m, hm⟩ : ∃ m, m = min (Dtype.e4m3.roundBits |x.value|) 0x7E := ⟨_, rfl⟩
  have hlast : m ≤ 0x7E := hm ▸ min_le_right _ _
  have hs := binary32.signBit_lt x.bits.toNat
  have hdecode := Dtype.fp8E4m3Decode_eq m hlast _ hs
  obtain ⟨hfin, hvalue, -⟩ := Dtype.e4m3_codes.finite m hlast _ hs
  rw [hdecode] at hfin hvalue
  have habs : |(E4m3.mk (binary32.signBit x.bits.toNat * 128 + m).toUInt8).toF32.value| =
      Dtype.e4m3.mag m := by
    rw [hvalue]
    split
    · rw [abs_neg, abs_of_nonneg (Dtype.e4m3.mag_nonneg m)]
    · exact abs_of_nonneg (Dtype.e4m3.mag_nonneg m)
  refine ⟨_, hm ▸ Dtype.fromF32_eq hx, hfin, ?_, fun hone => ?_⟩
  · rw [habs, ← show Dtype.e4m3.mag 0x7E = 448 by decide +kernel]
    exact Dtype.e4m3.mag_strictMono.monotone hlast
  · have hmag : Dtype.e4m3.mag 0x38 = 1 := by decide +kernel
    have hround := Dtype.e4m3.roundBits_mono (Dtype.e4m3.mag_nonneg 0x38) (hmag ▸ hone)
    rw [roundBits_mag] at hround
    rw [habs, ← hmag, hm]
    exact Dtype.e4m3.mag_strictMono.monotone (le_min hround (by decide))

end Codes

/-! ### Rows that are read back -/

section Rows

variable (h : ∀ v ∈ row, v.isFinite = true) (hne : row ≠ []) {read : ℕ → Except KvError F32}
include h hne

/-- **A row of eight-bit integers** is read back, if its scale is a half. -/
theorem readsBack_i8 (hread : ∀ dim < row.length, read dim =
      .ok ((Format.f16ToF32 (f32ToF16Bits (quantRowI8 row).2)).mul
        (F32.ofInt ((quantRowI8 row).1.getD dim 0).toInt))) :
    ReadsBack row (f32ToF16Bits (quantRowI8 row).2) read ↔ Kept 127 row := by
  obtain ⟨-, hlt⟩ := scale_eq divisor_127 h hne
  have hscale : (quantRowI8 row).2 = (peakOf row).div ⟨0x42FE0000⟩ := by
    rw [quantRowI8]
    split
    · next hz => exact (congrArg F32.mk (UInt32.toNat_inj.mp ((eq_zero_iff hlt).mp hz))).symm
    · rfl
  rw [hscale] at hread ⊢
  refine readsBack_iff divisor_127 h hne hread (fun dim hdim => ?_) fun hpos dim v hv hge => ?_
  · have hcode : |((quantRowI8 row).1.getD dim 0).toInt| ≤ 127 := by
      rw [quantRowI8]
      split
      · rw [getD_eq_getElem?_getD, getElem?_replicate, if_pos hdim]
        decide
      · rw [getD_eq_getElem?_getD, getElem?_map, getElem?_eq_getElem hdim]
        exact (toCode_spec _).1
    obtain ⟨hfin, hvalue⟩ := ofInt_spec (hcode.trans_lt (by norm_num))
    refine ⟨hfin, ?_⟩
    rw [hvalue]
    exact_mod_cast hcode.trans (by norm_num)
  · have hnot : ¬((peakOf row).div ⟨0x42FE0000⟩).eq ⟨0⟩ = true := fun hz =>
      hpos.ne' ((eq_zero_iff hlt).mp hz)
    have hfinite := (div_scale_spec divisor_127.finite (by rw [divisor_127.mag]; norm_num) h hpos
      (mem_of_getElem? hv)).1
    have hcode : (quantRowI8 row).1.getD dim 0 =
        toCode (v.div ((peakOf row).div ⟨0x42FE0000⟩)) := by
      rw [quantRowI8, if_neg hnot, getD_eq_getElem?_getD, getElem?_map, hv]
      rfl
    obtain ⟨hsmall, hnonzero⟩ := toCode_spec (v.div ((peakOf row).div ⟨0x42FE0000⟩))
    rw [hcode, (ofInt_spec (hsmall.trans_lt (by norm_num))).2]
    exact_mod_cast Int.one_le_abs (hnonzero hfinite (le_trans (by norm_num) hge))

/-- **A row of small floats** is read back, if its scale is a half. -/
theorem readsBack_e4m3 (hread : ∀ dim < row.length, read dim =
      .ok ((Format.f16ToF32 (f32ToF16Bits (rowE4m3 row).2)).mul
        (E4m3.mk ((rowE4m3 row).1.getD dim 0)).toF32)) :
    ReadsBack row (f32ToF16Bits (rowE4m3 row).2) read ↔ Kept 448 row := by
  obtain ⟨-, hlt⟩ := scale_eq divisor_448 h hne
  have hscale : (rowE4m3 row).2 = (peakOf row).div ⟨0x43E00000⟩ := by
    rw [rowE4m3]
    split
    · next hz => exact (congrArg F32.mk (UInt32.toNat_inj.mp ((eq_zero_iff hlt).mp hz))).symm
    · rfl
  rw [hscale] at hread ⊢
  have hmap : ∀ dim v, row[dim]? = some v → ¬((peakOf row).div ⟨0x43E00000⟩).eq ⟨0⟩ = true →
      ∃ q, E4m3.mk ((rowE4m3 row).1.getD dim 0) = q ∧ q.toF32.isFinite = true ∧
        |q.toF32.value| ≤ 448 ∧
        (1 ≤ |(v.div ((peakOf row).div ⟨0x43E00000⟩)).value| → 1 ≤ |q.toF32.value|) := by
    intro dim v hv hnot
    have hpos : 0 < ((peakOf row).div ⟨0x43E00000⟩).bits.toNat :=
      Nat.pos_of_ne_zero fun hz => hnot ((eq_zero_iff hlt).mpr hz)
    have hfinite := (div_scale_spec divisor_448.finite (by rw [divisor_448.mag]; norm_num) h hpos
      (mem_of_getElem? hv)).1
    obtain ⟨q, hq, hspec⟩ := fromF32_spec hfinite
    refine ⟨q, ?_, hspec⟩
    rw [rowE4m3, if_neg hnot, getD_eq_getElem?_getD, getElem?_map, hv, Option.map_some,
      hq]
    rfl
  refine readsBack_iff divisor_448 h hne hread (fun dim hdim => ?_) fun hpos dim v hv hge => ?_
  · by_cases hz : ((peakOf row).div ⟨0x43E00000⟩).eq ⟨0⟩ = true
    · have hcode : (rowE4m3 row).1.getD dim 0 = 0 := by
        rw [rowE4m3, if_pos hz, getD_eq_getElem?_getD, getElem?_replicate, if_pos hdim]
        rfl
      rw [hcode]
      have hzero : (E4m3.mk 0).toF32.value = 0 := by decide +kernel
      exact ⟨by decide, by rw [hzero]; norm_num⟩
    · obtain ⟨q, hq, hfin, hle, -⟩ := hmap dim _ (getElem?_eq_getElem hdim) hz
      rw [hq]
      exact ⟨hfin, hle⟩
  · obtain ⟨q, hq, -, -, hone⟩ := hmap dim v hv fun hz => hpos.ne' ((eq_zero_iff hlt).mp hz)
    rw [hq]
    exact hone (le_trans (by norm_num) hge)

end Rows

end R9v.Kv

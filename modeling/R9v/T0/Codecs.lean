import R9v.T0.Fp8

/-!
# Two families of conversions

The kernels encode numbers of eight bits by a search through all codes (`search`), and the format by
a search through the magnitudes (`E4m3.fromF32`). Both compare distances that are rounded, and both
find the nearest code (`Codes.search_spec`, `fromF32_eq`), but the first one finds zero without a
sign before zero with it. `scalar_codecs` says where the conversions differ.
-/

namespace R9v.Dtype

open Checked FloatFormat Format List

/-! ### The search -/

section Search

variable {g : FloatFormat} {decode : UInt8 → F32} {skip : UInt8 → Bool} {last : ℕ} {v : F32}

/-- The distance of a code, as the bits of a number. -/
def dist (decode : UInt8 → F32) (v : F32) (c : ℕ) : ℕ :=
  ((decode c.toUInt8).sub v).abs.bits.toNat

theorem even_toNat (b : UInt8) : b &&& 1 = 0 ↔ Even b.toNat := by
  rw [← UInt8.toNat_inj, UInt8.toNat_and, UInt8.toNat_zero, UInt8.toNat_one, Nat.and_one_is_mod,
    Nat.even_iff]

theorem odd_toNat (b : UInt8) : b &&& 1 = 1 ↔ ¬Even b.toNat := by
  rw [← UInt8.toNat_inj, UInt8.toNat_and, UInt8.toNat_one, Nat.and_one_is_mod, Nat.not_even_iff]

theorem toNat_toUInt8 {c : ℕ} (h : c < 256) : c.toUInt8.toNat = c := UInt8.toNat_ofNat_of_lt' h

theorem range_eq_append {r n : ℕ} (h : r < n) :
    List.range n = List.range r ++ r :: List.range' (r + 1) (n - 1 - r) := by
  have happ := @range'_append_1 0 r (n - r)
  rw [Nat.zero_add, Nat.add_sub_cancel' h.le] at happ
  rw [range_eq_range', range_eq_range', ← range'_succ,
    show n - 1 - r + 1 = n - r by omega]
  exact happ.symm

theorem searchStep_eq {c : ℕ} {best : UInt8 × F32} (hc : c < 256) (hskip : skip c.toUInt8 = false)
    (hle : dist decode v c ≤ binary32.infBits) (hbest : best.2.bits.toNat ≤ binary32.infBits) :
    searchStep decode skip v best c =
      if dist decode v c < best.2.bits.toNat ∨
          dist decode v c = best.2.bits.toNat ∧ Even c ∧ ¬Even best.1.toNat then
        (c.toUInt8, ((decode c.toUInt8).sub v).abs)
      else best := by
  have hlt : ((decode c.toUInt8).sub v).abs.lt best.2 = true ↔
      dist decode v c < best.2.bits.toNat := lt_iff_of_lt hle hbest
  have heq : ((decode c.toUInt8).sub v).abs.eq best.2 = true ↔
      dist decode v c = best.2.bits.toNat := eq_iff_of_lt hle hbest
  rw [searchStep, if_neg (Bool.eq_false_iff.mp hskip)]
  simp only [hlt, heq, even_toNat, odd_toNat, toNat_toUInt8 hc]

/-- **The search finds a code** that is nearer than those before it, or as near and even where they
are odd, and than which none after it is nearer, or as near and even where it is odd. -/
theorem search_eq {r : ℕ} (hr : r < 256) (hskip : skip r.toUInt8 = false)
    (hsmall : dist decode v r < 0x7149F2CA)
    (hle : ∀ c < 256, skip c.toUInt8 = false → dist decode v c ≤ binary32.infBits)
    (hbefore : ∀ c < r, skip c.toUInt8 = false → dist decode v r < dist decode v c ∨
      dist decode v r = dist decode v c ∧ Even r ∧ ¬Even c)
    (hafter : ∀ c < 256, r < c → skip c.toUInt8 = false → dist decode v r < dist decode v c ∨
      dist decode v r = dist decode v c ∧ (Even c → Even r)) : search decode skip v =
        r.toUInt8 := by
  have hrle := hle r hr hskip
  have hfold : (List.range 256).foldl (searchStep decode skip v) (0x00, ⟨0x7149F2CA⟩) =
      (r.toUInt8, ((decode r.toUInt8).sub v).abs) := by
    rw [range_eq_append hr]
    -- the best code so far is worse than the one that the search comes to
    refine @foldl_search (UInt8 × F32) ℕ (searchStep decode skip v)
      (fun best => best.2.bits.toNat ≤ binary32.infBits ∧ (dist decode v r < best.2.bits.toNat ∨
        dist decode v r = best.2.bits.toNat ∧ Even r ∧ ¬Even best.1.toNat)) _ _ _ _ _
      ⟨by decide, .inl hsmall⟩ (fun c hc best hbest => ?_) (fun best hbest => ?_) (fun c hc => ?_)
    · have hlt := mem_range.mp hc
      by_cases hs : skip c.toUInt8 = true
      · rwa [searchStep, if_pos hs]
      · have hs' := Bool.eq_false_iff.mpr hs
        have hcle := hle c (hlt.trans hr) hs'
        rw [searchStep_eq (hlt.trans hr) hs' hcle hbest.1]
        split
        · refine ⟨hcle, ?_⟩
          rw [toNat_toUInt8 (hlt.trans hr)]
          exact hbefore c hlt hs'
        · exact hbest
    · rw [searchStep_eq hr hskip hrle hbest.1]
      exact if_pos hbest.2
    · obtain ⟨hlow, hhigh⟩ := mem_range'_1.mp hc
      have hlt : c < 256 := by omega
      by_cases hs : skip c.toUInt8 = true
      · rw [searchStep, if_pos hs]
      · have hs' := Bool.eq_false_iff.mpr hs
        have hstep := @searchStep_eq decode skip v c (r.toUInt8, ((decode r.toUInt8).sub v).abs)
          hlt hs' (hle c hlt hs') hrle
        rw [toNat_toUInt8 hr] at hstep
        rw [hstep]
        refine if_neg ?_
        change ¬(dist decode v c < dist decode v r ∨ dist decode v c = dist decode v r ∧ _)
        rintro (hless | ⟨heq, heven, hodd⟩)
        · rcases hafter c hlt (by omega) hs' with h | h <;> omega
        · rcases hafter c hlt (by omega) hs' with h | h
          · omega
          · exact hodd (h.2 heven)
  rw [search, hfold]

theorem Codes.dist_eq (hc : Codes g decode skip last) (hv : v.isFinite = true) {m s : ℕ}
    (hm : m ≤ last) (hs : s < 2) :
    dist decode v (s * 128 + m) = min
      (binary32.roundBits |(if s = 1 then -g.mag m else g.mag m) - v.value|) binary32.infBits := by
  obtain ⟨hfin, hval, -⟩ := hc.finite m hm s hs
  rw [dist, F32.abs_toNat, F32.sub_toNat, magBits_sub hfin hv, ← hval]
  rfl

theorem Codes.dist_other (hc : Codes g decode skip last) (hv : v.isFinite = true) {m s : ℕ}
    (hm : m < 128) (hlast : last < m) (hs : s < 2) (hskip : skip (s * 128 + m).toUInt8 = false) :
    dist decode v (s * 128 + m) = binary32.infBits := by
  have hinf := (hc.other m hm hlast s hs).resolve_left (by rw [hskip]; decide)
  rw [dist, F32.abs_toNat, F32.sub_toNat, magBits_sub_of_isInfinite hinf hv]

theorem Codes.dist_le (hc : Codes g decode skip last) (hv : v.isFinite = true) {c : ℕ} (h : c < 256)
    (hskip : skip c.toUInt8 = false) :
    dist decode v c ≤ binary32.infBits := by
  obtain ⟨s, m, hs, hm, rfl⟩ : ∃ s m, s < 2 ∧ m < 128 ∧ c = s * 128 + m :=
    ⟨c / 128, c % 128, by omega, by omega, by omega⟩
  rcases Nat.lt_or_ge last m with hlast | hlast
  · exact (hc.dist_other hv hm hlast hs hskip).le
  · rw [hc.dist_eq hv hlast hs]
    exact min_le_right _ _

theorem Codes.le_dist (hc : Codes g decode skip last) (hv : v.isFinite = true) {m s : ℕ}
    (hm : m ≤ last) (hs : s < 2) (hsign : s = 1 - binary32.signBit v.bits.toNat) :
    binary32.magBits v.bits.toNat ≤ dist decode v (s * 128 + m) := by
  have hmag := g.mag_nonneg m
  have hpos := binary32.mag_nonneg (binary32.magBits v.bits.toNat)
  have hs2 := binary32.signBit_lt v.bits.toNat
  have habs : |(if s = 1 then -g.mag m else g.mag m) - v.value| =
      g.mag m + binary32.mag (binary32.magBits v.bits.toNat) := by
    rw [F32.value, value]
    by_cases h1 : s = 1
    · rw [if_pos h1, if_neg (by omega), ← abs_neg, abs_of_nonneg (by linarith)]
      ring
    · rw [if_neg h1, if_pos (by omega), abs_of_nonneg (by linarith)]
      ring
  have hmono := binary32.roundBits_mono hpos (le_add_of_nonneg_left hmag)
  rw [roundBits_mag] at hmono
  rw [hc.dist_eq hv hm hs, habs]
  exact le_min hmono (of_decide_eq_true hv : _ < _).le

theorem Codes.dist_same (hc : Codes g decode skip last) (hv : v.isFinite = true) {m : ℕ}
    (hm : m ≤ last) : dist decode v (binary32.signBit v.bits.toNat * 128 + m) =
      min (binary32.roundBits |g.mag m - (|v.value|)|) binary32.infBits := by
  rw [hc.dist_eq hv hm (binary32.signBit_lt _), F32.abs_value, F32.value, value]
  by_cases h1 : binary32.signBit v.bits.toNat = 1
  · rw [if_pos h1, if_pos h1, ← abs_neg]
    congr 3
    ring
  · rw [if_neg h1, if_neg h1]

/-- **Among the codes with the sign of the number**, the nearest one has the least distance. -/
theorem Codes.dist_lt_or (hc : Codes g decode skip last) (hv : v.isFinite = true) {m : ℕ}
    (hm : m ≤ last) (hn : g.roundBits |v.value| ≤ last) (hne : m ≠ g.roundBits |v.value|) :
    dist decode v (binary32.signBit v.bits.toNat * 128 + g.roundBits |v.value|) <
        dist decode v (binary32.signBit v.bits.toNat * 128 + m) ∨
      dist decode v (binary32.signBit v.bits.toNat * 128 + g.roundBits |v.value|) =
          dist decode v (binary32.signBit v.bits.toNat * 128 + m) ∧
        Even (g.roundBits |v.value|) ∧ ¬Even m := by
  have hnear := g.isNearest_roundBits (abs_nonneg v.value)
  have hrep : binary32.Representable |v.value| := by
    rw [F32.abs_value]
    exact representable_mag _ _
  -- the least distance is finite, since that of zero is
  have hfin : binary32.roundBits |g.mag (g.roundBits |v.value|) - (|v.value|)| <
      binary32.infBits := by
    have hzero := (hnear 0).1
    rw [mag_zero, zero_sub, abs_neg, abs_abs, F32.abs_value] at hzero
    have hmono := binary32.roundBits_mono (abs_nonneg _) hzero
    rw [roundBits_mag] at hmono
    rw [F32.abs_value]
    exact hmono.trans_lt (of_decide_eq_true hv)
  rw [hc.dist_same hv hn, hc.dist_same hv hm, min_eq_left hfin.le]
  rcases hnear.roundBits_lt_or (f := binary32) hc.mant_le hc.minExp_lt hrep hne with h | ⟨heq, h⟩
  · exact .inl (lt_min h hfin)
  · exact .inr ⟨by rw [← heq, min_eq_left hfin.le], h⟩

theorem Codes.dist_zero (hc : Codes g decode skip last) (hv : v.isFinite = true) {s : ℕ}
    (hs : s < 2) : dist decode v (s * 128 + 0) = binary32.magBits v.bits.toNat := by
  rw [hc.dist_eq hv (Nat.zero_le _) hs, mag_zero, neg_zero, ite_self, zero_sub, abs_neg,
    F32.abs_value,
    roundBits_mag, min_eq_left (of_decide_eq_true hv : _ < _).le]

/-- **The nearest code** is as near as zero, and nearer when it is not zero. -/
theorem Codes.dist_nearest (hc : Codes g decode skip last) (hv : v.isFinite = true)
    (hn : g.roundBits |v.value| ≤ last) :
    dist decode v (binary32.signBit v.bits.toNat * 128 + g.roundBits |v.value|) ≤
        binary32.magBits v.bits.toNat ∧
      (g.roundBits |v.value| ≠ 0 →
        dist decode v (binary32.signBit v.bits.toNat * 128 + g.roundBits |v.value|) <
          binary32.magBits v.bits.toNat) := by
  by_cases h0 : g.roundBits |v.value| = 0
  · rw [h0, hc.dist_zero hv (binary32.signBit_lt _)]
    exact ⟨le_rfl, fun h => absurd rfl h⟩
  · rcases hc.dist_lt_or hv (Nat.zero_le _) hn (Ne.symm h0) with h | ⟨-, -, h⟩
    · rw [hc.dist_zero hv (binary32.signBit_lt _)] at h
      exact ⟨h.le, fun _ => h⟩
    · exact absurd Even.zero h

/-- **The search finds the nearest code** of the sign of the number, or zero without a sign when
that is the nearest one. -/
theorem Codes.search_spec (hc : Codes g decode skip last) (hv : v.isFinite = true)
    (hlast : |v.value| ≤ g.mag last) (hsmall : g.mag last < binary32.mag 0x7149F2CA) :
    g.roundBits |v.value| ≤ last ∧ search decode skip v =
      (if binary32.signBit v.bits.toNat = 1 ∧ g.roundBits |v.value| ≠ 0 then
        128 + g.roundBits |v.value|
      else g.roundBits |v.value|).toUInt8 := by
  have hn : g.roundBits |v.value| ≤ last :=
    (g.isNearest_roundBits (abs_nonneg v.value)).mono (isNearest_mag last) hlast
  have hlt_or := fun m (hm : m ≤ last) hne => hc.dist_lt_or hv hm hn hne
  have hself := hc.dist_nearest hv hn
  have hzero := fun s (hs : s < 2) => hc.dist_zero hv hs
  have hother := fun m s (hm : m ≤ last) hs => @Codes.le_dist g decode skip last v hc hv m s hm hs
  have hinf := fun m s hm hlast hs => @Codes.dist_other g decode skip last v hc hv m s hm hlast hs
  have hle := fun c h hskip => @Codes.dist_le g decode skip last v hc hv c h hskip
  have hfinite : binary32.magBits v.bits.toNat < binary32.infBits := of_decide_eq_true hv
  have hbound : binary32.magBits v.bits.toNat < 0x7149F2CA := by
    rw [F32.abs_value] at hlast
    exact binary32.mag_strictMono.lt_iff_lt.mp (hlast.trans_lt hsmall)
  refine ⟨hn, ?_⟩
  have hskip := fun s hs => (hc.finite _ hn s hs).2.2
  have hlast128 := hc.last_lt
  have hs2 := binary32.signBit_lt v.bits.toNat
  obtain ⟨n, hndef⟩ : ∃ n, n = g.roundBits |v.value| := ⟨_, rfl⟩
  obtain ⟨s, hsdef⟩ : ∃ s, s = binary32.signBit v.bits.toNat := ⟨_, rfl⟩
  obtain ⟨a, hadef⟩ : ∃ a, a = binary32.magBits v.bits.toNat := ⟨_, rfl⟩
  rw [← hndef] at hn hlt_or hself hskip ⊢
  rw [← hadef] at hfinite hbound hzero hself hother
  rw [← hsdef] at hs2 hself hother hlt_or ⊢
  -- a code by its sign and its magnitude
  have hcodes : ∀ c < 256, ∃ t m, t < 2 ∧ m < 128 ∧ c = t * 128 + m := fun c h =>
    ⟨c / 128, c % 128, by omega, by omega, by omega⟩
  have hfar : ∀ c < 256, skip c.toUInt8 = false → c / 128 ≠ s → a ≤ dist decode v c := by
    intro c hc256 hs hne
    obtain ⟨t, m, ht, hm, rfl⟩ := hcodes c hc256
    rcases Nat.lt_or_ge last m with hl | hl
    · rw [hinf m t hm hl ht hs]
      exact hfinite.le
    · exact hother m t hl ht (by omega)
  have hnear : ∀ c < 256, skip c.toUInt8 = false → c / 128 = s → c ≠ s * 128 + n →
      dist decode v (s * 128 + n) < dist decode v c ∨
        dist decode v (s * 128 + n) = dist decode v c ∧ Even n ∧ ¬Even c := by
    intro c hc256 hs heq hne
    obtain ⟨t, m, ht, hm, rfl⟩ := hcodes c hc256
    obtain rfl : t = s := by omega
    rcases Nat.lt_or_ge last m with hl | hl
    · rw [hinf m t hm hl ht hs]
      exact .inl (hself.1.trans_lt hfinite)
    · refine (hlt_or m hl (by omega)).imp_right fun h => ⟨h.1, h.2.1, fun he => h.2.2 ?_⟩
      rw [Nat.even_iff] at he ⊢
      omega
  by_cases h1 : s = 1 ∧ n ≠ 0
  · obtain ⟨rfl, hn0⟩ := h1
    rw [if_pos ⟨rfl, hn0⟩, show 128 + n = 1 * 128 + n by omega]
    have heven : Even (1 * 128 + n) ↔ Even n := by
      rw [Nat.even_iff, Nat.even_iff]
      omega
    refine search_eq (by omega) (hskip 1 (by decide)) (by omega) hle (fun c hlt hs => ?_)
      (fun c hlt hgt hs => ?_)
    · rcases Nat.lt_or_ge c 128 with h128 | h128
      · exact .inl ((hself.2 hn0).trans_le (hfar c (by omega) hs (by omega)))
      · rw [heven]
        exact hnear c (by omega) hs (by omega) (by omega)
    · exact (hnear c hlt hs (by omega) (by omega)).imp_right fun h =>
        ⟨h.1, fun _ => heven.mpr h.2.1⟩
  rw [if_neg h1]
  rcases (by omega : s = 0 ∨ s = 1) with rfl | rfl
  · rw [Nat.zero_mul, Nat.zero_add] at hself hnear
    have hskip0 := hskip 0 (by decide)
    rw [Nat.zero_mul, Nat.zero_add] at hskip0
    refine search_eq (by omega) hskip0 (by omega) hle
      (fun c hlt hs => hnear c (by omega) hs (by omega) (by omega)) (fun c hlt hgt hs => ?_)
    rcases Nat.lt_or_ge c 128 with h128 | h128
    · exact (hnear c hlt hs (by omega) (by omega)).imp_right fun h => ⟨h.1, fun _ => h.2.1⟩
    · have hd := hfar c hlt hs (by omega)
      by_cases hn0 : n = 0
      · exact (hself.1.trans hd).lt_or_eq.imp_right fun h => ⟨h, fun _ => hn0 ▸ Even.zero⟩
      · exact .inl ((hself.2 hn0).trans_le hd)
  · -- the number is negative, and zero is found before zero with a sign
    obtain rfl : n = 0 := by
      by_contra hn0
      exact h1 ⟨rfl, hn0⟩
    have h0 := hzero 0 (by decide)
    rw [Nat.zero_mul, Nat.zero_add] at h0
    have hskip0 := hskip 0 (by decide)
    refine search_eq (by decide) hskip0 (by omega) hle
      (fun c hlt => absurd hlt (Nat.not_lt_zero c)) (fun c hlt _ hs => ?_)
    have hd : a ≤ dist decode v c := by
      by_cases h128 : c / 128 = 1
      · by_cases hc0 : c = 1 * 128 + 0
        · rw [hc0, hzero 1 (by decide)]
        · rw [← hzero 1 (by decide)]
          rcases hnear c hlt hs h128 hc0 with h | h
          exacts [h.le, h.1.le]
      · exact hfar c hlt hs h128
    rw [h0]
    exact hd.lt_or_eq.imp_right fun h => ⟨h, fun _ => Even.zero⟩

end Search

/-! ### The encoders -/

section Encode

variable {g : FloatFormat} {decode : UInt8 → F32} {skip : UInt8 → Bool} {last : ℕ} {v : F32}
  {limit : F32} {past pastNeg : UInt8}

/-- The code of a number: of infinity or the greatest value when it is too large; a number that is
not zero has no sign when it is rounded to zero. -/
theorem Codes.encode_spec (hc : Codes g decode skip last) (hv : v.isFinite = true)
    (hlimit : binary32.mag limit.bits.toNat = g.mag last) (hsmall : limit.bits.toNat < 0x7149F2CA) :
    fp8Encode decode skip limit past pastNeg v =
      if limit.bits.toNat < binary32.magBits v.bits.toNat then
        if binary32.signBit v.bits.toNat = 1 then pastNeg else past
      else
        (if binary32.signBit v.bits.toNat = 1 ∧
            (g.roundBits |v.value| ≠ 0 ∨ binary32.magBits v.bits.toNat = 0) then
          128 + g.roundBits |v.value|
        else g.roundBits |v.value|).toUInt8 := by
  have hfinite : binary32.magBits v.bits.toNat < binary32.infBits := of_decide_eq_true hv
  have hnan : v.isNan = false := isNan_of_isFinite hv
  have hlimit' : limit.bits.toNat ≤ binary32.infBits := hsmall.le.trans (by decide)
  have hlt : limit.lt v.abs = true ↔ limit.bits.toNat < binary32.magBits v.bits.toNat := by
    rw [F32.lt, F32.abs_toNat]
    exact lt_iff_of_lt hlimit' hfinite.le
  have heq : v.abs.eq ⟨0⟩ = true ↔ binary32.magBits v.bits.toNat = 0 := by
    rw [F32.eq, F32.abs_toNat]
    exact eq_iff_of_lt hfinite.le (Nat.zero_le _)
  have hneg : v.isSignNegative = true ↔ binary32.signBit v.bits.toNat = 1 := decide_eq_true_iff
  rw [fp8Encode, if_neg (by rw [hnan]; decide)]
  by_cases hover : limit.bits.toNat < binary32.magBits v.bits.toNat
  · -- a number that is too large is not zero
    have hltzero : v.lt ⟨0⟩ = true ↔ binary32.signBit v.bits.toNat = 1 := by
      rw [F32.lt, FloatFormat.lt, isNan_of_isFinite hv, 
        show binary32.isNan (⟨0⟩ : F32).bits.toNat = false from rfl,
        show binary32.key (⟨0⟩ : F32).bits.toNat = 0 from rfl, key]
      simp only [Bool.not_false, Bool.true_and, decide_eq_true_eq]
      split <;> omega
    rw [if_pos (hlt.mpr hover), if_pos hover]
    simp only [hltzero]
  · rw [if_neg fun h => hover (hlt.mp h), if_neg hover]
    by_cases hzero : binary32.magBits v.bits.toNat = 0
    · have hround : g.roundBits |v.value| = 0 := by
        rw [F32.abs_value, hzero, mag_zero, ← g.mag_zero]
        exact g.roundBits_mag 0
      rw [if_pos (heq.mpr hzero), hround]
      simp only [hneg, hzero, or_true, and_true]
      split <;> rfl
    · have hlast : |v.value| ≤ g.mag last := by
        rw [F32.abs_value, ← hlimit]
        exact binary32.mag_strictMono.monotone (not_lt.mp hover)
      rw [if_neg fun h => hzero (heq.mp h),
        (hc.search_spec hv hlast (hlimit ▸ binary32.mag_strictMono hsmall)).2]
      simp only [hzero, or_false]

theorem mag_448 : binary32.mag (⟨0x43E00000⟩ : F32).bits.toNat = e4m3.mag 0x7E := by
  change binary32.mag 0x43E00000 = _
  norm_num [mag, significand, ulp, binary32, e4m3, minExp, bias]

theorem mag_57344 : binary32.mag (⟨0x47600000⟩ : F32).bits.toNat = e5m2.mag 0x7B := by
  change binary32.mag 0x47600000 = _
  norm_num [mag, significand, ulp, binary32, e5m2, minExp, bias]

end Encode

/-! ### The encoder of the format -/

section Format

variable {v : F32}

theorem abs_round (f : FloatFormat) (q : ℚ) : |f.round q| = f.mag (f.roundBits |q|) := by
  rw [FloatFormat.round]
  split
  · next h => rw [abs_neg, abs_of_nonneg (f.mag_nonneg _), abs_of_neg h]
  · next h => rw [abs_of_nonneg (f.mag_nonneg _), abs_of_nonneg (not_lt.mp h)]

/-- The distance of a value of eight bits, as the bits of an `f64`. -/
def gridDist (x : ℚ) (m : ℕ) : ℕ := binary64.roundBits |e4m3.mag m - x|

theorem nearer_eq {x : ℚ} {m : ℕ} (hm : m ≤ 0x7E) (best : ℕ × Option ℚ) :
    E4m3.nearer x best m =
      if best.2.all (binary64.mag (gridDist x m) < ·) ∨
          best.2 = some (binary64.mag (gridDist x m)) ∧ Even m then
        (m, some (binary64.mag (gridDist x m)))
      else best := by
  have hval : (E4m3.mk m.toUInt8).toF32.value = e4m3.mag m := by
    have h := (e4m3_codes.finite m hm 0 (by decide)).2.1
    rwa [fp8E4m3Decode_eq m hm 0 (by decide), Nat.zero_mul, Nat.zero_add, if_neg (by decide)] at h
  have heven : m &&& 1 = 0 ↔ Even m := by rw [Nat.and_one_is_mod, Nat.even_iff]
  rw [E4m3.nearer, hval, abs_round, abs_sub_comm x, gridDist]
  simp only [heven]

/-- **The search of the format** takes the last one of two that are as near when it is even. -/
theorem foldl_nearer {x : ℚ} {k : ℕ} (hk : k < 0x7F)
    (hbefore : ∀ m < k, gridDist x k < gridDist x m ∨ gridDist x k = gridDist x m ∧ Even k)
    (hafter : ∀ m ≤ 0x7E, k < m →
      gridDist x k < gridDist x m ∨ gridDist x k = gridDist x m ∧ ¬Even m) :
    (List.range 0x7F).foldl (E4m3.nearer x) (0, none) =
      (k, some (binary64.mag (gridDist x k))) := by
  have hmono : ∀ {i j : ℕ}, binary64.mag i < binary64.mag j ↔ i < j :=
    binary64.mag_strictMono.lt_iff_lt
  have hinj : ∀ {i j : ℕ}, binary64.mag i = binary64.mag j ↔ i = j :=
    binary64.mag_strictMono.injective.eq_iff
  rw [range_eq_append hk]
  refine @foldl_search (ℕ × Option ℚ) ℕ (E4m3.nearer x)
    (fun best => ∀ q ∈ best.2, binary64.mag (gridDist x k) < q ∨
      binary64.mag (gridDist x k) = q ∧ Even k) _ _ _ _ _
    (fun q hq => by cases hq) (fun c hc best hb => ?_) (fun best hb => ?_) (fun c hc => ?_)
  · have hlt := mem_range.mp hc
    rw [nearer_eq (by omega)]
    split
    · intro q hq
      obtain rfl := Option.some.inj hq
      rw [hmono, hinj]
      exact hbefore c hlt
    · exact hb
  · rw [nearer_eq (by omega)]
    refine if_pos ?_
    cases hbest : best.2 with
    | none => exact .inl rfl
    | some q =>
      rcases hb q hbest with h | ⟨h, heven⟩
      · exact .inl (decide_eq_true h)
      · exact .inr ⟨congrArg some h.symm, heven⟩
  · obtain ⟨hlow, hhigh⟩ := mem_range'_1.mp hc
    rw [nearer_eq (by omega)]
    refine if_neg ?_
    rintro (h | ⟨h, heven⟩)
    · have hless : gridDist x c < gridDist x k := hmono.mp (of_decide_eq_true h)
      rcases hafter c (by omega) (by omega) with h' | h' <;> omega
    · have heq : gridDist x k = gridDist x c := hinj.mp (Option.some.inj h)
      rcases hafter c (by omega) (by omega) with h' | h'
      · omega
      · exact h'.2 heven

theorem gridDist_last_le {x : ℚ} (hx : e4m3.mag 0x7E ≤ x) {m : ℕ} (hm : m ≤ 0x7E) :
    gridDist x 0x7E ≤ gridDist x m := by
  have hmag : e4m3.mag m ≤ e4m3.mag 0x7E := e4m3.mag_strictMono.monotone hm
  refine binary64.roundBits_mono (abs_nonneg _) ?_
  rw [abs_sub_comm, abs_sub_comm (e4m3.mag m), abs_of_nonneg (sub_nonneg.mpr hx),
    abs_of_nonneg (sub_nonneg.mpr (hmag.trans hx))]
  exact sub_le_sub_left hmag _

/-- **The encoder of the format** takes the nearest code, or the last one. -/
theorem fromF32_eq (hv : v.isFinite = true) : E4m3.fromF32 v =
    some ⟨(binary32.signBit v.bits.toNat * 128 + min (e4m3.roundBits |v.value|) 0x7E).toUInt8⟩ := by
  have hrep : binary64.Representable |v.value| := by
    rw [F32.abs_value]
    exact representable_mag_of_le (by decide) (by decide) _
  obtain ⟨n, hn⟩ : ∃ n, n = e4m3.roundBits |v.value| := ⟨_, rfl⟩
  obtain ⟨k, hk⟩ : ∃ k, k = min n 0x7E := ⟨_, rfl⟩
  have hnear : e4m3.IsNearest |v.value| n := hn ▸ e4m3.isNearest_roundBits (abs_nonneg _)
  have hbest : ∀ m ≠ n, gridDist |v.value| n < gridDist |v.value| m ∨
      gridDist |v.value| n = gridDist |v.value| m ∧ Even n ∧ ¬Even m := fun m hm =>
    hnear.roundBits_lt_or (by decide) (by decide) hrep hm
  have hfold := @foldl_nearer |v.value| k (by omega) (fun m hm => by
    rcases Nat.lt_or_ge 0x7E n with hlt | hle
    · have hpast : e4m3.mag 0x7E ≤ |v.value| := not_lt.mp fun hless =>
        absurd (hnear.mono (isNearest_mag 0x7E) hless.le) (not_le.mpr hlt)
      rw [hk, min_eq_right hlt.le]
      exact (gridDist_last_le hpast (by omega)).lt_or_eq.imp_right fun h => ⟨h, by decide⟩
    · rw [hk, min_eq_left hle]
      exact (hbest m (by omega)).imp_right fun h => ⟨h.1, h.2.1⟩) (fun m hm hlt => by
    rw [hk, min_eq_left (by omega)]
    exact (hbest m (by omega)).imp_right fun h => ⟨h.1, h.2.2⟩)
  have habs : v.abs.value = |v.value| := by
    rw [F32.value, F32.abs_toNat, value_of_lt (binary32.magBits_lt _), F32.abs_value]
  have hneg : v.isSignNegative = true ↔ binary32.signBit v.bits.toNat = 1 := decide_eq_true_iff
  have hs2 := binary32.signBit_lt v.bits.toNat
  rw [E4m3.fromF32, if_pos hv, habs]
  dsimp only
  rw [hfold, ← hn, ← hk]
  simp only [hneg]
  refine congrArg (fun b => some (E4m3.mk b)) (UInt8.toNat_inj.mp ?_)
  rw [toNat_toUInt8 (by omega), UInt8.toNat_or, toNat_toUInt8 (by omega)]
  split
  · next h1 =>
    have hor := (Nat.two_pow_add_eq_or_of_lt (i := 7) (show k < 2 ^ 7 by omega) 1).symm
    rw [h1, Nat.or_comm]
    exact hor
  · next h1 =>
    rw [(by omega : binary32.signBit v.bits.toNat = 0), Nat.zero_mul, Nat.zero_add]
    exact Nat.or_zero k

end Format

/-! ### Where the conversions differ -/

section Agree

variable {v : F32}

theorem mid_zero_e4m3 : e4m3.mid 0 = 2 ^ (-10 : ℤ) := by
  norm_num [mid, mag, significand, ulp, e4m3, minExp, bias]

theorem value_neg_iff (v : F32) : v.value < 0 ↔
    binary32.signBit v.bits.toNat = 1 ∧ binary32.magBits v.bits.toNat ≠ 0 := by
  have hmag := binary32.mag_nonneg (binary32.magBits v.bits.toNat)
  have hpos : 0 < binary32.mag (binary32.magBits v.bits.toNat) ↔
      binary32.magBits v.bits.toNat ≠ 0 := by
    rw [← Nat.pos_iff_ne_zero, ← binary32.mag_strictMono.lt_iff_lt, mag_zero]
  rw [F32.value, value, ← hpos]
  split
  · next h => exact ⟨fun hlt => ⟨h, by linarith⟩, fun hlt => by linarith [hlt.2]⟩
  · next h => exact ⟨fun hlt => absurd hlt (not_lt.mpr hmag), fun hlt => absurd hlt.1 h⟩

/-- **The encoders of `E4M3`** agree unless a negative number is rounded to zero. -/
theorem fp8E4m3Encode_eq_iff (hv : v.isFinite = true) :
    E4m3.fromF32 v = some ⟨fp8E4m3Encode v⟩ ↔ ¬(-2 ^ (-10 : ℤ) ≤ v.value ∧ v.value < 0) := by
  obtain ⟨n, hn⟩ : ∃ n, n = e4m3.roundBits |v.value| := ⟨_, rfl⟩
  have hnear : e4m3.IsNearest |v.value| n := hn ▸ e4m3.isNearest_roundBits (abs_nonneg _)
  have hs2 := binary32.signBit_lt v.bits.toNat
  have hzero : n = 0 ↔ |v.value| ≤ 2 ^ (-10 : ℤ) := by
    have h := hnear.lt_iff_of_even (c := 0) Even.zero
    rw [mid_zero_e4m3, Nat.pos_iff_ne_zero] at h
    rw [← not_lt, ← h, Decidable.not_not]
  have htiny : -2 ^ (-10 : ℤ) ≤ v.value ∧ v.value < 0 ↔ n = 0 ∧
      binary32.signBit v.bits.toNat = 1 ∧ binary32.magBits v.bits.toNat ≠ 0 := by
    rw [hzero, ← value_neg_iff]
    refine and_congr_left fun hlt => ?_
    rw [abs_of_neg hlt, neg_le]
  have hlimit := @mag_448
  rw [htiny, fromF32_eq hv, fp8E4m3Encode,
    e4m3_codes.encode_spec hv hlimit (by decide), ← hn, Option.some_inj, E4m3.mk.injEq]
  by_cases hover : (⟨0x43E00000⟩ : F32).bits.toNat < binary32.magBits v.bits.toNat
  · have hge : 0x7E ≤ n := (isNearest_mag 0x7E).mono hnear (by
      rw [← hlimit, F32.abs_value]
      exact (binary32.mag_strictMono hover).le)
    rw [if_pos hover, min_eq_right hge]
    rcases (by omega : binary32.signBit v.bits.toNat = 0 ∨ binary32.signBit v.bits.toNat = 1)
      with h | h
    · rw [h]
      exact iff_of_true rfl fun hn => by omega
    · rw [h]
      exact iff_of_true rfl fun hn => by omega
  · have hle : n ≤ 0x7E := hnear.mono (isNearest_mag 0x7E) (by
      rw [← hlimit, F32.abs_value]
      exact binary32.mag_strictMono.monotone (not_lt.mp hover))
    rw [if_neg hover, min_eq_left hle, ← UInt8.toNat_inj, toNat_toUInt8 (by omega),
      toNat_toUInt8 (by split <;> omega)]
    split <;> omega

end Agree

/-- A code of `E4M3` that is a number. -/
def E4m3Number (b : UInt8) : Prop := b.toNat % 128 ≠ 0x7F

/-- **The conversions of the kernels and of the format**: those from `f16` and from `E4M3` agree;
those to `f16` do unless the number is just below the first normal one, which the format loses, and
those to `E4M3` unless a negative number is rounded to zero, which loses its sign in the kernels. -/
theorem scalar_codecs (v : F32) (h : UInt16) (b : UInt8) :
    (v.isNan = false → (f32ToF16 v = f32ToF16Bits v ↔ ¬BelowNormal |v.value|)) ∧
      (binary16.isNan h.toNat = false → f16ToF32 h = Format.f16ToF32 h) ∧
      (v.isFinite = true →
        (E4m3.fromF32 v = some ⟨fp8E4m3Encode v⟩ ↔ ¬(-2 ^ (-10 : ℤ) ≤ v.value ∧ v.value < 0))) ∧
      (E4m3Number b → fp8E4m3Decode b = (E4m3.mk b).toF32) := by
  refine ⟨fun hv => f32ToF16_eq_iff hv, fun hh => f16ToF32_eq hh,
    fun hv => fp8E4m3Encode_eq_iff hv, fun hb => ?_⟩
  have hlt := b.toNat_lt
  have hdecode := fp8E4m3Decode_eq (b.toNat % 128) (by unfold E4m3Number at hb; omega)
    (b.toNat / 128) (by omega)
  have hsplit : (b.toNat / 128 * 128 + b.toNat % 128).toUInt8 = b := by
    rw [Nat.div_add_mod']
    exact UInt8.ofNat_toNat
  rwa [hsplit] at hdecode

/-- **The greatest `f32` below the first normal `f16`**, and a negative one that is rounded to zero,
are converted in two ways. -/
theorem codecs_differ : f32ToF16 ⟨0x387FFFFF⟩ ≠ f32ToF16Bits ⟨0x387FFFFF⟩ ∧
    E4m3.fromF32 ⟨0xBA000000⟩ ≠ some ⟨fp8E4m3Encode ⟨0xBA000000⟩⟩ := by
  have hvalue : (⟨0xBA000000⟩ : F32).value = -2 ^ (-11 : ℤ) := by decide +kernel
  refine ⟨by decide, fun heq => (fp8E4m3Encode_eq_iff (by decide)).mp heq ?_⟩
  rw [hvalue]
  constructor <;> norm_num

end R9v.Dtype

import R9v.Lib.BinaryFloat
import Mathlib.Tactic.FieldSimp

/-!
# Values that are not rounded

A rational number is a value of a format when its mantissa is not too long
(`FloatFormat.representable_of_lt`). The difference of two values that are near to each other is one
(`FloatFormat.Representable.sub`), and hence a search for the value of a smaller format that is
nearest to a number finds it although the distances that it compares are rounded
(`FloatFormat.IsNearest.roundBits_lt`): of two distances, one of them the least, the rounded ones
compare as the exact ones do.
-/

namespace FloatFormat

open List

variable {f g : FloatFormat} {q r t x y : ℚ} {b n k : ℕ}

/-! ### Representable numbers -/

/-- The number is the value of a pattern without a sign. -/
def Representable (f : FloatFormat) (q : ℚ) : Prop := ∃ b, f.mag b = q

theorem representable_mag (f : FloatFormat) (b : ℕ) : f.Representable (f.mag b) := ⟨b, rfl⟩

theorem Representable.nonneg (h : f.Representable q) : 0 ≤ q := by
  obtain ⟨b, rfl⟩ := h
  exact f.mag_nonneg b

theorem representable_of_lt {m e : ℕ} (hm : m < 2 ^ (f.mant + 1)) :
    f.Representable (m * 2 ^ (f.minExp + (e : ℤ))) := by
  induction e generalizing m with
  | zero => exact ⟨_, (f.mag_eq (e := 0) hm (.inl rfl)).2⟩
  | succ e ih =>
    rcases Nat.lt_or_ge m (2 ^ f.mant) with hlt | hge
    · -- a mantissa with a free bit takes a factor of the exponent
      have hdouble : 2 * m < 2 ^ (f.mant + 1) := by
        omega
      have hsame : ((2 * m : ℕ) : ℚ) * 2 ^ (f.minExp + (e : ℤ)) =
          m * 2 ^ (f.minExp + ((e + 1 : ℕ) : ℤ)) := by
        rw [Nat.cast_succ, ← add_assoc, zpow_add_one₀ two_ne_zero]
        push_cast
        ring
      exact hsame ▸ ih hdouble
    · exact ⟨_, (f.mag_eq hm (.inr hge)).2⟩

theorem representable_zpow {z : ℤ} (h : f.minExp ≤ z) : f.Representable (2 ^ z) := by
  obtain ⟨e, rfl⟩ : ∃ e : ℕ, z = f.minExp + (e : ℤ) := ⟨(z - f.minExp).toNat, by omega⟩
  have hone := representable_of_lt (f := f) (m := 1) (e := e)
    (Nat.one_lt_two_pow (Nat.succ_ne_zero _))
  rwa [Nat.cast_one, one_mul] at hone

theorem exists_mantissa (f : FloatFormat) (b : ℕ) :
    ∃ m e : ℕ, m < 2 ^ (f.mant + 1) ∧ f.mag b = m * 2 ^ (f.minExp + (e : ℤ)) := by
  obtain ⟨e, n, rfl, hn, he⟩ := f.exists_binade b
  exact ⟨n, e, hn, (f.mag_eq hn he).2⟩

/-- **A value of a smaller format** is one of the larger. -/
theorem representable_mag_of_le (hmant : g.mant ≤ f.mant) (hexp : f.minExp ≤ g.minExp) (b : ℕ) :
    f.Representable (g.mag b) := by
  obtain ⟨m, e, hm, heq⟩ := g.exists_mantissa b
  have hlt : m < 2 ^ (f.mant + 1) := hm.trans_le (Nat.pow_le_pow_right two_pos (by omega))
  obtain ⟨d, hd⟩ : ∃ d : ℕ, g.minExp + (e : ℤ) = f.minExp + (d : ℤ) :=
    ⟨(g.minExp + e - f.minExp).toNat, by omega⟩
  rw [heq, hd]
  exact representable_of_lt hlt

/-- **The difference of near values** is a value. -/
theorem Representable.sub (hx : f.Representable x) (hy : f.Representable y) (hle : y ≤ x)
    (hdouble : x ≤ 2 * y) : f.Representable (x - y) := by
  obtain ⟨b, rfl⟩ := hx
  obtain ⟨c, rfl⟩ := hy
  obtain ⟨m, e, hm, hmag⟩ := f.exists_mantissa b
  obtain ⟨m', e', hm', hmag'⟩ := f.exists_mantissa c
  have hsplit : ∀ {i d : ℕ}, (2 : ℚ) ^ (f.minExp + ((i + d : ℕ) : ℤ)) =
      2 ^ d * 2 ^ (f.minExp + (i : ℤ)) := fun {i d} => by
    rw [Nat.cast_add, ← add_assoc, zpow_add₀ two_ne_zero, zpow_natCast, mul_comm]
  rw [hmag, hmag'] at hle hdouble ⊢
  -- both are multiples of the smaller unit, and the difference is not above the one that has it
  rcases Nat.le_total e' e with h | h
  · obtain ⟨d, rfl⟩ := Nat.exists_eq_add_of_le h
    have hunit : (0 : ℚ) < 2 ^ (f.minExp + (e' : ℤ)) := zpow_pos two_pos _
    rw [hsplit, ← mul_assoc] at hle hdouble ⊢
    rw [← mul_assoc] at hdouble
    have hle' : m' ≤ m * 2 ^ d := by exact_mod_cast le_of_mul_le_mul_right hle hunit
    have hdouble' : m * 2 ^ d ≤ 2 * m' := by exact_mod_cast le_of_mul_le_mul_right hdouble hunit
    have hsub : ((m * 2 ^ d - m' : ℕ) : ℚ) = m * 2 ^ d - m' := by
      rw [Nat.cast_sub hle']
      push_cast
      rfl
    rw [← sub_mul, ← hsub]
    exact representable_of_lt (by omega)
  · obtain ⟨d, rfl⟩ := Nat.exists_eq_add_of_le h
    have hunit : (0 : ℚ) < 2 ^ (f.minExp + (e : ℤ)) := zpow_pos two_pos _
    rw [hsplit, ← mul_assoc] at hle hdouble ⊢
    have hle' : m' * 2 ^ d ≤ m := by exact_mod_cast le_of_mul_le_mul_right hle hunit
    have hsub : ((m - m' * 2 ^ d : ℕ) : ℚ) = m - m' * 2 ^ d := by
      rw [Nat.cast_sub hle']
      push_cast
      rfl
    rw [← sub_mul, ← hsub]
    exact representable_of_lt (by omega)

theorem Representable.abs_sub (hx : f.Representable x) (hy : f.Representable y) (hxy : x ≤ 2 * y)
    (hyx : y ≤ 2 * x) : f.Representable |x - y| := by
  rcases le_total y x with h | h
  · rw [abs_of_nonneg (sub_nonneg.mpr h)]
    exact hx.sub hy h hxy
  · rw [abs_sub_comm, abs_of_nonneg (sub_nonneg.mpr h)]
    exact hy.sub hx h hyx

theorem Representable.mag_roundBits (h : f.Representable q) : f.mag (f.roundBits q) = q := by
  obtain ⟨b, rfl⟩ := h
  rw [roundBits_mag]

/-- **Rounding keeps two numbers apart** that have a value between them. -/
theorem Representable.roundBits_lt (hr : f.Representable r) (ht : f.Representable t) (hlt : r < t)
    (hle : t ≤ q) : f.roundBits r < f.roundBits q := by
  refine lt_of_lt_of_le ?_ (f.roundBits_mono ht.nonneg hle)
  rw [← f.mag_strictMono.lt_iff_lt, hr.mag_roundBits, ht.mag_roundBits]
  exact hlt

/-! ### Units -/

theorem ulp_le_mag (h : 0 < b) : f.ulp b ≤ f.mag b := by
  obtain ⟨e, n, rfl, hn, he⟩ := f.exists_binade b
  obtain ⟨hulp, hmag⟩ := f.mag_eq hn he
  have hpos : 1 ≤ n := by
    rcases he with rfl | hge
    · rwa [Nat.zero_mul, Nat.zero_add] at h
    · exact (Nat.two_pow_pos _).trans_le hge
  rw [hulp, hmag]
  exact le_mul_of_one_le_left (zpow_pos two_pos _).le (by exact_mod_cast hpos)

/-- **The next unit** is the same or twice as large. -/
theorem ulp_succ (f : FloatFormat) (b : ℕ) :
    f.ulp (b + 1) = f.ulp b ∨ f.ulp (b + 1) = 2 * f.ulp b := by
  have hdiv : (b + 1) / 2 ^ f.mant = b / 2 ^ f.mant ∨ (b + 1) / 2 ^ f.mant =
      b / 2 ^ f.mant + 1 := by
    rw [Nat.succ_div]
    split
    exacts [.inr rfl, .inl rfl]
  rcases hdiv with h | h
  · left
    rw [ulp, ulp, h]
  · rw [ulp, ulp, h]
    cases b / 2 ^ f.mant with
    | zero => exact .inl rfl
    | succ e =>
      right
      rw [Nat.add_sub_cancel, Nat.add_sub_cancel, Nat.cast_succ, ← add_assoc,
        zpow_add_one₀ two_ne_zero, mul_comm]

theorem ulp_mono (f : FloatFormat) : Monotone f.ulp :=
  monotone_nat_of_le_succ fun b => by
    have hpos := f.ulp_pos b
    rcases f.ulp_succ b with h | h <;> rw [h]
    linarith

theorem exists_ulp (f : FloatFormat) (b : ℕ) : ∃ e : ℕ, f.ulp b = 2 ^ (f.minExp + (e : ℤ)) :=
    ⟨_, rfl⟩

theorem representable_half_ulp (hexp : f.minExp < g.minExp) (b j : ℕ) :
    f.Representable (2 ^ j * (g.ulp b / 2)) := by
  obtain ⟨e, he⟩ := g.exists_ulp b
  have heq : (2 : ℚ) ^ j * (g.ulp b / 2) = 2 ^ (g.minExp + (e : ℤ) - 1 + (j : ℤ)) := by
    rw [he, zpow_add₀ two_ne_zero _ (j : ℤ), zpow_sub_one₀ two_ne_zero, zpow_natCast]
    ring
  rw [heq]
  exact representable_zpow (by omega)

/-! ### Distances -/

theorem IsNearest.mag_le_mid (h : g.IsNearest x n) : x ≤ g.mid n :=
  not_lt.mp fun hlt => absurd (h.lt_of_mid_lt hlt) (lt_irrefl n)

theorem IsNearest.mid_le (h : g.IsNearest x (n + 1)) : g.mid n ≤ x :=
  not_lt.mp fun hlt => absurd (h.le_of_lt_mid hlt) (Nat.not_succ_le_self n)

/-- **The least distance** is a value. -/
theorem IsNearest.representable (h : g.IsNearest x n) (hx : f.Representable x)
    (hg : f.Representable (g.mag n)) : f.Representable |g.mag n - x| := by
  cases n with
  | zero => rwa [mag_zero, zero_sub, abs_neg, abs_of_nonneg hx.nonneg]
  | succ n =>
    have hlow := h.mid_le
    have hhigh := h.mag_le_mid
    have hulp := ulp_le_mag (f := g) (Nat.succ_pos n)
    have hmid := g.mid_eq n
    have hnonneg := g.mag_nonneg n
    rw [mid] at hhigh
    exact hg.abs_sub hx (by linarith) (by linarith)

theorem IsNearest.exists_between_above (h : g.IsNearest x n) (hx : 0 ≤ x)
    (hexp : f.minExp < g.minExp) (hk : n < k) (hlt : |g.mag n - x| < |g.mag k - x|) :
    ∃ t, f.Representable t ∧ |g.mag n - x| < t ∧ t ≤ |g.mag k - x| := by
  have hhigh := h.mag_le_mid
  have hpos := g.ulp_pos n
  have hnext : g.mag n + g.ulp n ≤ g.mag k := by
    rw [← mag_succ]
    exact g.mag_strictMono.monotone hk
  rw [mid] at hhigh
  have hfar : |g.mag k - x| = g.mag k - x := abs_of_pos (by linarith)
  have hhalf := representable_half_ulp hexp n 0
  have hunit := representable_half_ulp hexp n 1
  rcases le_or_gt (g.mag n) x with hle | hgt
  · rw [hfar, abs_sub_comm, abs_of_nonneg (sub_nonneg.mpr hle)] at hlt ⊢
    rcases hhigh.lt_or_eq with hhigh | hhigh
    · exact ⟨_, hhalf, by linarith, by linarith⟩
    · -- halfway to the next value, which is not the one that is compared
      have hne : n + 1 ≠ k := by
        rintro rfl
        rw [mag_succ] at hlt
        linarith
      have hnext2 : g.mag (n + 1) + g.ulp (n + 1) ≤ g.mag k := by
        rw [← mag_succ]
        exact g.mag_strictMono.monotone (by omega)
      have hmono := g.ulp_mono (Nat.le_succ n)
      rw [mag_succ] at hnext2
      exact ⟨_, hunit, by linarith, by linarith⟩
  · rw [hfar, abs_of_pos (sub_pos.mpr hgt)] at hlt ⊢
    cases n with
    | zero =>
      rw [mag_zero] at hgt
      exact absurd hx (not_le.mpr hgt)
    | succ n =>
      have hlow := h.mid_le
      have hstep := g.mag_succ n
      have hmono : g.ulp n ≤ g.ulp (n + 1) := g.ulp_mono (Nat.le_succ n)
      rw [mid] at hlow
      exact ⟨_, hunit, by linarith, by linarith⟩

theorem IsNearest.exists_between_below (h : g.IsNearest x n) (hexp : f.minExp < g.minExp)
    (hk : k < n) (hlt : |g.mag n - x| < |g.mag k - x|) :
    ∃ t, f.Representable t ∧ |g.mag n - x| < t ∧ t ≤ |g.mag k - x| := by
  obtain ⟨n, rfl⟩ : ∃ j, n = j + 1 := ⟨n - 1, by omega⟩
  have hlow := h.mid_le
  have hhigh := h.mag_le_mid
  have hstep := g.mag_succ n
  have hpos := g.ulp_pos n
  have hkn : g.mag k ≤ g.mag n := g.mag_strictMono.monotone (Nat.lt_succ_iff.mp hk)
  rw [mid] at hlow hhigh
  have hfar : |g.mag k - x| = x - g.mag k := by
    rw [abs_sub_comm]
    exact abs_of_pos (by linarith)
  have hhalf := representable_half_ulp hexp n 0
  have hunit := representable_half_ulp hexp n 1
  have hdouble := representable_half_ulp hexp n 2
  rw [pow_zero, one_mul] at hhalf
  rcases le_or_gt (g.mag (n + 1)) x with hle | hgt
  · have hunits : g.ulp (n + 1) ≤ 2 * g.ulp n := by
      rcases g.ulp_succ n with hu | hu <;> linarith
    rw [hfar, abs_sub_comm, abs_of_nonneg (sub_nonneg.mpr hle)] at hlt ⊢
    -- the units above the value may be twice those below
    rcases lt_or_ge (x - g.mag (n + 1)) (g.ulp n / 2) with h1 | h1
    · exact ⟨_, hhalf, h1, by linarith⟩
    rcases lt_or_ge (x - g.mag (n + 1)) (g.ulp n) with h2 | h2
    · exact ⟨_, hunit, by linarith, by linarith⟩
    · exact ⟨_, hdouble, by linarith, by linarith⟩
  · rw [hfar, abs_of_pos (sub_pos.mpr hgt)] at hlt ⊢
    rcases hlow.lt_or_eq with hlow | hlow
    · exact ⟨_, hhalf, by linarith, by linarith⟩
    · -- halfway from the value before, which is not the one that is compared
      have hne : k ≠ n := by
        rintro rfl
        linarith
      obtain ⟨n, rfl⟩ : ∃ j, n = j + 1 := ⟨n - 1, by omega⟩
      have hprev : g.mag k ≤ g.mag n := g.mag_strictMono.monotone (by omega)
      have hstep' := g.mag_succ n
      have hunits : g.ulp (n + 1) ≤ 2 * g.ulp n := by
        rcases g.ulp_succ n with hu | hu <;> linarith
      exact ⟨_, hunit, by linarith, by linarith⟩

/-- **Rounded distances compare as the exact ones**, when one of them is the least. -/
theorem IsNearest.roundBits_lt (h : g.IsNearest x n) (hmant : g.mant ≤ f.mant)
    (hexp : f.minExp < g.minExp) (hx : f.Representable x)
    (hlt : |g.mag n - x| < |g.mag k - x|) :
    f.roundBits |g.mag n - x| < f.roundBits |g.mag k - x| := by
  have hr := h.representable hx (representable_mag_of_le hmant hexp.le n)
  have hne : k ≠ n := by
    rintro rfl
    exact lt_irrefl _ hlt
  obtain ⟨t, ht, hrt, hle⟩ : ∃ t, f.Representable t ∧ |g.mag n - x| < t ∧ t ≤ |g.mag k - x| := by
    rcases Nat.lt_or_gt_of_ne hne with hk | hk
    · exact h.exists_between_below hexp hk hlt
    · exact h.exists_between_above hx.nonneg hexp hk hlt
  exact hr.roundBits_lt ht hrt hle

/-- **Rounded distances** of the least one and of another that is not even. -/
theorem IsNearest.roundBits_lt_or (h : g.IsNearest x n) (hmant : g.mant ≤ f.mant)
    (hexp : f.minExp < g.minExp) (hx : f.Representable x) (hk : k ≠ n) :
    f.roundBits |g.mag n - x| < f.roundBits |g.mag k - x| ∨
      f.roundBits |g.mag n - x| = f.roundBits |g.mag k - x| ∧ Even n ∧ ¬Even k := by
  obtain ⟨hle, heven⟩ := h k
  rcases hle.lt_or_eq with hlt | heq
  · exact .inl (h.roundBits_lt hmant hexp hx hlt)
  · refine .inr ⟨congrArg f.roundBits heq, heven heq hk, fun hke => hk ?_⟩
    -- an even one that is as near would be the nearest one as well
    have hnear : g.IsNearest x k := fun c => ⟨heq ▸ (h c).1, fun _ _ => hke⟩
    exact hnear.unique h

/-! ### Searches -/

/-- **A search** that comes to `n` before it has found anything as good, and finds nothing better
after it. -/
theorem foldl_search {σ β : Type} {step : σ → β → σ} {P : σ → Prop} {l l' : List β} {s r : σ}
    {n : β}
    (h : P s) (hbefore : ∀ c ∈ l, ∀ s, P s → P (step s c)) (hn : ∀ s, P s → step s n = r)
    (hafter : ∀ c ∈ l', step r c = r) : (l ++ n :: l').foldl step s = r := by
  have hkeep : l'.foldl step r = r := by
    induction l' with
    | nil => rfl
    | cons c l' ih =>
      rw [foldl_cons, hafter c mem_cons_self]
      exact ih fun d hd => hafter d (mem_cons_of_mem c hd)
  rw [foldl_append, foldl_cons]
  induction l generalizing s with
  | nil => rw [foldl_nil, hn s h, hkeep]
  | cons c l ih =>
    exact ih (hbefore c mem_cons_self s h) fun d hd => hbefore d (mem_cons_of_mem c hd)

end FloatFormat

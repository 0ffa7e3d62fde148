import R9v.Lib.FloatExact

/-!
# Operations on patterns

Addition and multiplication of numbers with a sign, rounded to the nearest value; the magnitude of
the result is the exact one rounded (`FloatFormat.magBits_sub`, `FloatFormat.magBits_mul`). A format
with a longer mantissa and the same exponents has the same values between which it puts others
(`FloatFormat.mag_add_mant`), so that a number is rounded to the shorter mantissa by its last bits,
with a carry that goes through the exponent (`FloatFormat.roundBits_add_mant`).
-/

namespace FloatFormat

variable (f : FloatFormat)

/-! ### Operations -/

/-- The other sign. -/
def neg (x : ℕ) : ℕ := f.withSign (1 - f.signBit x) (f.magBits x)

/-- Addition, rounded to the nearest value; a sum of zero has a sign when both terms have it. -/
def add (x y : ℕ) : ℕ :=
  let q := f.value x + f.value y
  let s := if q < 0 ∨ q = 0 ∧ f.signBit x = 1 ∧ f.signBit y = 1 then 1 else 0
  if f.isNan x ∨ f.isNan y then f.nanBits
  else if f.isInfinite x then
    if f.isInfinite y ∧ f.signBit x ≠ f.signBit y then f.nanBits else x
  else if f.isInfinite y then y
  else f.withSign s (min (f.roundBits |q|) f.infBits)

def sub (x y : ℕ) : ℕ := f.add x (f.neg y)

/-- Multiplication, rounded to the nearest value. -/
def mul (x y : ℕ) : ℕ :=
  let s := (f.signBit x + f.signBit y) % 2
  if f.isNan x ∨ f.isNan y then f.nanBits
  else if f.isInfinite x then if f.magBits y = 0 then f.nanBits else f.withSign s f.infBits
  else if f.isInfinite y then if f.magBits x = 0 then f.nanBits else f.withSign s f.infBits
  else f.withSign s (min (f.roundBits (f.mag (f.magBits x) * f.mag (f.magBits y))) f.infBits)

/-- An integer rounded to the nearest value. -/
def ofInt (n : ℤ) : ℕ := f.withSign (if n < 0 then 1 else 0) (min (f.roundBits |(n : ℚ)|) f.infBits)

section Operations

variable {f} {x y s b : ℕ}

@[simp] theorem magBits_neg (x : ℕ) : f.magBits (f.neg x) = f.magBits x :=
  magBits_withSign (f.magBits_lt x)

theorem signBit_neg (x : ℕ) : f.signBit (f.neg x) = 1 - f.signBit x :=
  signBit_withSign (Nat.sub_lt_succ 1 _) (f.magBits_lt x)

theorem isFinite_neg (x : ℕ) : f.isFinite (f.neg x) = f.isFinite x := by
  rw [isFinite, isFinite, magBits_neg]

@[simp] theorem value_neg (x : ℕ) : f.value (f.neg x) = -f.value x := by
  have hs := f.signBit_lt x
  rw [value, value, signBit_neg, magBits_neg]
  by_cases h : f.signBit x = 1
  · rw [if_pos h, h, if_neg (by decide), neg_neg]
  · rw [if_neg h, if_pos (by omega)]

theorem isInfinite_of_isFinite (h : f.isFinite x = true) : f.isInfinite x = false :=
  decide_eq_false (of_decide_eq_true h).ne

theorem magBits_withSign_min (q : ℚ) :
    f.magBits (f.withSign s (min (f.roundBits q) f.infBits)) = min (f.roundBits q) f.infBits :=
  magBits_withSign ((min_le_right _ _).trans_lt f.infBits_lt)

/-- **The magnitude of a sum** of finite numbers. -/
theorem magBits_add (hx : f.isFinite x = true) (hy : f.isFinite y = true) :
    f.magBits (f.add x y) = min (f.roundBits |f.value x + f.value y|) f.infBits := by
  rw [add, if_neg (by simp [isNan_of_isFinite hx, isNan_of_isFinite hy]),
    if_neg (by simp [isInfinite_of_isFinite hx]), if_neg (by simp [isInfinite_of_isFinite hy])]
  exact magBits_withSign_min _

/-- **The magnitude of a difference** of finite numbers. -/
theorem magBits_sub (hx : f.isFinite x = true) (hy : f.isFinite y = true) :
    f.magBits (f.sub x y) = min (f.roundBits |f.value x - f.value y|) f.infBits := by
  rw [sub, magBits_add hx (by rwa [isFinite_neg]), value_neg, ← sub_eq_add_neg]

/-- **The magnitude of a product** of finite numbers. -/
theorem magBits_mul (hx : f.isFinite x = true) (hy : f.isFinite y = true) :
    f.magBits (f.mul x y) = min (f.roundBits |f.value x * f.value y|) f.infBits := by
  rw [mul, if_neg (by simp [isNan_of_isFinite hx, isNan_of_isFinite hy]),
    if_neg (by simp [isInfinite_of_isFinite hx]), if_neg (by simp [isInfinite_of_isFinite hy]),
    abs_mul, abs_value, abs_value]
  exact magBits_withSign_min _

theorem magBits_sub_of_isInfinite (hx : f.isInfinite x = true) (hy : f.isFinite y = true) :
    f.magBits (f.sub x y) = f.infBits := by
  have hmag : f.magBits x = f.infBits := of_decide_eq_true hx
  have hnan : f.isNan x = false := decide_eq_false (by rw [hmag]; exact lt_irrefl _)
  have hy' : f.isFinite (f.neg y) = true := by rwa [isFinite_neg]
  rw [sub, add, if_neg (by simp [hnan, isNan_of_isFinite hy']), if_pos hx,
    if_neg (by simp [isInfinite_of_isFinite hy'])]
  exact hmag

theorem add_lt (hnan : f.nanBits < 2 ^ (f.mant + f.exp)) (hx : x < 2 ^ (f.mant + f.exp + 1))
    (hy : y < 2 ^ (f.mant + f.exp + 1)) : f.add x y < 2 ^ (f.mant + f.exp + 1) := by
  have hn : f.nanBits < 2 ^ (f.mant + f.exp + 1) :=
    hnan.trans (Nat.pow_lt_pow_right one_lt_two (Nat.lt_succ_self _))
  rw [add]
  split
  · exact hn
  split
  · split
    exacts [hn, hx]
  split
  · exact hy
  · refine withSign_lt ?_ ((min_le_right _ _).trans_lt f.infBits_lt)
    split <;> decide

theorem sub_lt (hnan : f.nanBits < 2 ^ (f.mant + f.exp)) (hx : x < 2 ^ (f.mant + f.exp + 1)) :
    f.sub x y < 2 ^ (f.mant + f.exp + 1) :=
  add_lt hnan hx (withSign_lt (Nat.sub_lt_succ 1 _) (f.magBits_lt y))

theorem mul_lt (hnan : f.nanBits < 2 ^ (f.mant + f.exp)) :
    f.mul x y < 2 ^ (f.mant + f.exp + 1) := by
  have hs : (f.signBit x + f.signBit y) % 2 < 2 := Nat.mod_lt _ two_pos
  have hn : f.nanBits < 2 ^ (f.mant + f.exp + 1) :=
    hnan.trans (Nat.pow_lt_pow_right one_lt_two (Nat.lt_succ_self _))
  have hinf : ∀ c ≤ f.infBits, f.withSign ((f.signBit x + f.signBit y) % 2) c <
      2 ^ (f.mant + f.exp + 1) := fun c hc => withSign_lt hs (hc.trans_lt f.infBits_lt)
  rw [mul]
  split
  · exact hn
  split
  · split
    exacts [hn, hinf _ le_rfl]
  split
  · split
    exacts [hn, hinf _ le_rfl]
  · exact hinf _ (min_le_right _ _)

end Operations

/-! ### The nearest number with a sign -/

/-- No finite number is nearer, and another one that is as near has an odd mantissa. -/
def IsNearestValue (q : ℚ) (x : ℕ) : Prop :=
  ∀ c, f.isFinite c = true → |f.value x - q| ≤ |f.value c - q| ∧
    (|f.value x - q| = |f.value c - q| → f.value c ≠ f.value x → Even x)

variable {f} {q : ℚ} {x s b : ℕ}

theorem value_withSign (hs : s < 2) (hb : b < 2 ^ (f.mant + f.exp)) :
    f.value (f.withSign s b) = if s = 1 then -f.mag b else f.mag b := by
  rw [value, signBit_withSign hs hb, magBits_withSign hb]

theorem even_withSign (h : 0 < f.mant + f.exp) : Even (f.withSign s b) ↔ Even b := by
  have hpow : Even (s * 2 ^ (f.mant + f.exp)) :=
    (Nat.even_pow.mpr ⟨even_two, h.ne'⟩).mul_left s
  rw [withSign, Nat.even_add, iff_true_left hpow]

/-- **A number with the sign of `q`** is as near as its magnitude is. -/
theorem IsNearest.isNearestValue (h : f.IsNearest |q| b) (hs : s < 2)
    (hb : b < 2 ^ (f.mant + f.exp)) (hsign : q = if s = 1 then -|q| else |q|)
    (hpos : 0 < f.mant + f.exp) : f.IsNearestValue q (f.withSign s b) := by
  intro c _
  obtain ⟨p, hp⟩ : ∃ p, p = |q| := ⟨_, rfl⟩
  have hc := f.mag_nonneg (f.magBits c)
  have hq : 0 ≤ p := hp ▸ abs_nonneg q
  rw [← hp] at h hsign
  obtain ⟨hle, heven⟩ := h (f.magBits c)
  rw [even_withSign hpos, value_withSign hs hb]
  have hself : |(if s = 1 then -f.mag b else f.mag b) - q| = |f.mag b - p| := by
    by_cases h1 : s = 1
    · rw [if_pos h1] at hsign ⊢
      conv_lhs => rw [hsign]
      rw [← abs_neg]
      congr 1
      ring
    · rw [if_neg h1] at hsign ⊢
      rw [← hsign]
  rw [hself]
  by_cases hsame : f.value c = if s = 1 then -f.mag (f.magBits c) else f.mag (f.magBits c)
  · -- the signs agree, and the magnitudes are compared
    have hother : |f.value c - q| = |f.mag (f.magBits c) - p| := by
      rw [hsame]
      by_cases h1 : s = 1
      · rw [if_pos h1] at hsign ⊢
        conv_lhs => rw [hsign]
        rw [← abs_neg]
        congr 1
        ring
      · rw [if_neg h1] at hsign ⊢
        rw [← hsign]
    rw [hother, hsame]
    refine ⟨hle, fun heq hne => heven heq fun hcb => hne ?_⟩
    rw [hcb]
  · -- the signs differ, and zero is between the two numbers
    have hother : |f.value c - q| = f.mag (f.magBits c) + p := by
      rw [value] at hsame ⊢
      by_cases h1 : s = 1
      · rw [if_pos h1] at hsign hsame
        rw [if_neg fun hc1 => hsame (if_pos hc1), abs_of_nonneg (by rw [hsign]; linarith)]
        linarith
      · rw [if_neg h1] at hsign hsame
        have hc1 : f.signBit c = 1 := by
          by_contra hc1
          exact hsame (if_neg hc1)
        rw [if_pos hc1, ← abs_neg, abs_of_nonneg (by rw [hsign]; linarith)]
        linarith
    have htri : |f.mag (f.magBits c) - p| ≤ f.mag (f.magBits c) + p := by
      rw [abs_le]
      constructor <;> linarith
    rw [hother]
    refine ⟨hle.trans htri, fun heq _ => ?_⟩
    obtain ⟨hzero, heven0⟩ := h 0
    rw [mag_zero, zero_sub, abs_neg, abs_of_nonneg hq] at hzero heven0
    by_cases hb0 : 0 = b
    · exact hb0 ▸ Even.zero
    · exact heven0 (le_antisymm hzero (heq ▸ le_add_of_nonneg_left hc)) hb0

/-- `x` is `q` rounded to the nearest number, or to infinity from the middle past the last finite
one on. -/
structure IsRounded (f : FloatFormat) (q : ℚ) (x : ℕ) : Prop where
  not_nan : f.isNan x = false
  nearest : f.isFinite x = true → f.IsNearestValue q x
  infinite : f.isInfinite x = true ↔ f.mid (f.infBits - 1) ≤ |q|

/-- **A magnitude that is rounded**, with the sign. -/
theorem isRounded_withSign (hs : s < 2) (hsign : q = if s = 1 then -|q| else |q|)
    (hinf : 0 < f.infBits) (hodd : ¬Even (f.infBits - 1)) :
    f.IsRounded q (f.withSign s (min (f.roundBits |q|) f.infBits)) := by
  have hnear := f.isNearest_roundBits (abs_nonneg q)
  have hpos : 0 < f.mant + f.exp := by
    by_contra h0
    have hlt := f.infBits_lt
    rw [(by omega : f.mant + f.exp = 0)] at hlt
    omega
  refine ⟨?_, fun hfin => ?_, ?_⟩
  · rw [isNan, magBits_withSign_min]
    exact decide_eq_false (not_lt.mpr (min_le_right _ _))
  · rw [isFinite, magBits_withSign_min] at hfin
    have hlt : f.roundBits |q| < f.infBits := not_le.mp fun hle =>
      absurd (of_decide_eq_true hfin) (by rw [min_eq_right hle]; exact lt_irrefl _)
    rw [min_eq_left hlt.le]
    exact hnear.isNearestValue hs (hlt.trans f.infBits_lt) hsign hpos
  · have hiff := hnear.lt_iff_of_odd hodd
    rw [isInfinite, magBits_withSign_min, decide_eq_true_iff, min_eq_right_iff, ← hiff]
    omega

/-- **A magnitude that grows**, with the sign, grows with the number. -/
theorem signed_le {M : ℕ → ℕ} (hM : Monotone M) (h0 : M 0 = 0) {y : ℕ} (h : f.key x ≤ f.key y) :
    (if f.signBit x = 1 then -(M (f.magBits x) : ℤ) else M (f.magBits x)) ≤
      if f.signBit y = 1 then -(M (f.magBits y) : ℤ) else M (f.magBits y) := by
  rw [key, key] at h
  split at h <;> split at h
  · next hx hy =>
    have hle := hM (show f.magBits y ≤ f.magBits x by omega)
    omega
  · next hx hy =>
    omega
  · next hx hy =>
    rw [if_neg hx, if_pos hy, (by omega : f.magBits x = 0), (by omega : f.magBits y = 0), h0]
    rfl
  · next hx hy =>
    have hle := hM (show f.magBits x ≤ f.magBits y by omega)
    omega

theorem key_withSign (hs : s < 2) (hb : b < 2 ^ (f.mant + f.exp)) :
    f.key (f.withSign s b) = if s = 1 then -(b : ℤ) else b := by
  rw [key, signBit_withSign hs hb, magBits_withSign hb]

/-! ### A shorter mantissa -/

/-- **Rounding by a carry**: a little less than half a unit is added, and a little more when the
last bit that is kept is odd. -/
theorem carry_eq (n shift : ℕ) :
    (n + 2 ^ shift - 1 + n / 2 ^ (shift + 1) % 2) / 2 ^ (shift + 1) =
      if 2 ^ shift < n % 2 ^ (shift + 1) ∨ n % 2 ^ (shift + 1) = 2 ^ shift ∧
          ¬Even (n / 2 ^ (shift + 1)) then n / 2 ^ (shift + 1) + 1 else n / 2 ^ (shift + 1) := by
  obtain ⟨u, hu⟩ : ∃ u, u = 2 ^ shift := ⟨_, rfl⟩
  have hpos : 0 < u := hu ▸ Nat.two_pow_pos shift
  have hpow : 2 ^ (shift + 1) = 2 * u := by rw [Nat.pow_succ, hu, Nat.mul_comm]
  have hsplit := Nat.div_add_mod n (2 * u)
  have hmod := Nat.mod_lt n (show 0 < 2 * u by omega)
  simp only [Nat.not_even_iff]
  rw [hpow, ← hu]
  obtain ⟨k, hk⟩ : ∃ k, k = n / (2 * u) := ⟨_, rfl⟩
  obtain ⟨r, hr⟩ : ∃ r, r = n % (2 * u) := ⟨_, rfl⟩
  rw [← hk, ← hr] at hsplit ⊢
  have hsum : n + u - 1 + k % 2 = 2 * u * k + (r + u - 1 + k % 2) := by omega
  rw [hsum, Nat.mul_add_div (by omega)]
  split
  · rw [Nat.div_eq_of_lt_le (k := 1) (by omega) (by omega)]
  · rw [Nat.div_eq_of_lt (by omega), Nat.add_zero]

variable {m e k : ℕ}

/-- **A longer mantissa** puts values between those of the shorter. -/
theorem mag_add_mant (a : ℕ) :
    (FloatFormat.mk (m + k) e).mag a = (FloatFormat.mk m e).mag (a / 2 ^ k) +
      (a % 2 ^ k : ℕ) * ((FloatFormat.mk m e).ulp (a / 2 ^ k) / 2 ^ k) := by
  obtain ⟨i, n, rfl, hn, hi⟩ := (FloatFormat.mk (m + k) e).exists_binade a
  have hpos : 0 < 2 ^ k := Nat.two_pow_pos k
  have hpow : ((FloatFormat.mk (m + k) e).mant) = m + k := rfl
  obtain ⟨-, hmag⟩ := (FloatFormat.mk (m + k) e).mag_eq hn hi
  have hmul : i * 2 ^ (m + k) + n = 2 ^ k * (i * 2 ^ m) + n := by
    ring
  have hdiv : (i * 2 ^ (m + k) + n) / 2 ^ k = i * 2 ^ m + n / 2 ^ k := by
    rw [hmul, Nat.mul_add_div hpos]
  have hmod : (i * 2 ^ (m + k) + n) % 2 ^ k = n % 2 ^ k := by
    rw [hmul, Nat.mul_add_mod]
  have hn' : n / 2 ^ k < 2 ^ (m + 1) := by
    rw [Nat.div_lt_iff_lt_mul hpos, ← Nat.pow_add]
    exact hn.trans_eq (by ring_nf)
  have hi' : i = 0 ∨ 2 ^ m ≤ n / 2 ^ k := hi.imp_right fun h => by
    rwa [Nat.le_div_iff_mul_le hpos, ← Nat.pow_add]
  obtain ⟨hulp, hmag'⟩ := (FloatFormat.mk m e).mag_eq hn' hi'
  have hmin : (FloatFormat.mk m e).minExp = (FloatFormat.mk (m + k) e).minExp + (k : ℤ) := by
    rw [minExp, minExp, bias, bias]
    push_cast
    ring
  have hsplit : (n : ℚ) = (n / 2 ^ k : ℕ) * 2 ^ k + (n % 2 ^ k : ℕ) := by
    exact_mod_cast (Nat.div_add_mod' n (2 ^ k)).symm
  rw [hdiv, hmod, hmag]
  rw [hmag', hulp, hmin, add_right_comm, zpow_add₀ two_ne_zero _ (k : ℤ), zpow_natCast]
  conv_lhs => rw [hsplit]
  field_simp

/-- **Rounding to a shorter mantissa** drops the last bits, after a carry. -/
theorem roundBits_add_mant (a : ℕ) :
    (FloatFormat.mk m e).roundBits ((FloatFormat.mk (m + (k + 1)) e).mag a) =
      (a + 2 ^ k - 1 + a / 2 ^ (k + 1) % 2) / 2 ^ (k + 1) := by
  have hnear := @isNearest_of_rest (FloatFormat.mk m e) (a / 2 ^ (k + 1)) (a % 2 ^ (k + 1)) k
    (Nat.mod_lt _ (Nat.two_pow_pos _))
  rw [← mag_add_mant] at hnear
  rw [carry_eq]
  exact ((FloatFormat.mk m e).isNearest_roundBits
    ((FloatFormat.mk (m + (k + 1)) e).mag_nonneg a)).unique hnear

end FloatFormat

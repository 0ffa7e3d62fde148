import R9v.Lib.Checked
import Mathlib.Data.List.Range

/-!
# Hashes in hexadecimal

How the registry reads and writes 64-bit hashes (`VariantHash::to_hex`, `from_hex` and
`entry_key` in `r9v-registry/src/types.rs` and `tune.rs`). The reader is that of the standard
library: it takes a plus sign, digits of either case and any number of leading zeros, so that
one hash has many spellings. The writer gives one of them, sixteen lowercase digits, and these
are the only ones that reading and writing gives back (`toHex_eq_iff`).
-/

namespace R9v

open Checked List

/-- Why a number is not read. -/
inductive ParseIntError
  | empty
  | invalidDigit
  | posOverflow
  deriving DecidableEq

/-- The value of a hexadecimal digit, in either case. -/
def toDigit16 (c : Char) : Option ℕ :=
  if '0' ≤ c ∧ c ≤ '9' then some (c.toNat - 48)
  else if 'a' ≤ c ∧ c ≤ 'f' then some (c.toNat - 87)
  else if 'A' ≤ c ∧ c ≤ 'F' then some (c.toNat - 55)
  else none

/-- Reads one more digit of a number of 64 bits. -/
def pushDigit (acc : ℕ) (c : Char) : Except ParseIntError ℕ := do
  let d ← okOr (toDigit16 c) .invalidDigit
  let shifted ← okOr (mul 64 acc 16) .posOverflow
  okOr (add 64 shifted d) .posOverflow

/-- The digits of a number, after a plus sign. -/
def signless : List Char → Except ParseIntError (List Char)
  | [] => .error .empty
  | ['+'] => .error .invalidDigit
  | ['-'] => .error .invalidDigit
  | '+' :: digits => .ok digits
  | digits => .ok digits

/-- `u64::from_str_radix` for radix 16. -/
def fromStrRadix16 (src : List Char) : Except ParseIntError UInt64 := do
  let digits ← signless src
  let n ← digits.foldlM pushDigit 0
  pure (UInt64.ofNat n)

/-- What follows a prefix of a hash. -/
def cleaned : List Char → List Char
  | '0' :: 'x' :: digits => digits
  | src => src

/-- Reads a hash. -/
def fromHex (s : String) : Except ParseIntError UInt64 := fromStrRadix16 (cleaned s.toList)

/-- A lowercase digit. -/
def lowerDigit (d : ℕ) : Char := if d < 10 then Char.ofNat (48 + d) else Char.ofNat (87 + d)

/-- The sixteen digits of a hash. -/
def hex16 (n : ℕ) : List Char := (List.range 16).map fun i => lowerDigit (n / 16 ^ (15 - i) % 16)

/-- Writes a hash. -/
def toHex (h : UInt64) : String := String.ofList (hex16 h.toNat)

/-- Sixteen lowercase digits. -/
def Canonical (s : String) : Prop :=
  s.toList.length = 16 ∧ ∀ c ∈ s.toList, ('0' ≤ c ∧ c ≤ '9') ∨ ('a' ≤ c ∧ c ≤ 'f')

instance (s : String) : Decidable (Canonical s) := @instDecidableAnd _ _ _ (List.decidableBAll _ _)

/-! ### Digits -/

section Digits

variable {c : Char} {d n : ℕ} {l : List Char}

theorem char_le_iff {a b : Char} : a ≤ b ↔ a.toNat ≤ b.toNat := by
  rfl

theorem toDigit16_lowerDigit : ∀ d < 16, toDigit16 (lowerDigit d) = some d := by
  decide

theorem lowerDigit_range : ∀ d < 16,
    ('0' ≤ lowerDigit d ∧ lowerDigit d ≤ '9') ∨ ('a' ≤ lowerDigit d ∧ lowerDigit d ≤ 'f') := by
  decide

theorem lowerDigit_toDigit16 (hc : ('0' ≤ c ∧ c ≤ '9') ∨ ('a' ≤ c ∧ c ≤ 'f')) :
    ∃ d < 16, toDigit16 c = some d ∧ lowerDigit d = c := by
  rcases hc with hc | hc
  · have hle : 48 ≤ c.toNat ∧ c.toNat ≤ 57 := by simpa [char_le_iff] using hc
    refine ⟨c.toNat - 48, by omega, if_pos hc, ?_⟩
    unfold lowerDigit
    rw [if_pos (by omega), Nat.add_sub_cancel' hle.1, Char.ofNat_toNat]
  · have hle : 97 ≤ c.toNat ∧ c.toNat ≤ 102 := by simpa [char_le_iff] using hc
    have hnot : ¬('0' ≤ c ∧ c ≤ '9') := by
      simp only [char_le_iff, not_and]
      intro _ h
      simp at h
      omega
    refine ⟨c.toNat - 87, by omega, ?_, ?_⟩
    · unfold toDigit16
      rw [if_neg hnot, if_pos hc]
    · unfold lowerDigit
      rw [if_neg (by omega), Nat.add_sub_cancel' (by omega), Char.ofNat_toNat]

theorem pushDigit_eq_ok : pushDigit n c = .ok d ↔
    ∃ e, toDigit16 c = some e ∧ n * 16 + e < 2 ^ 64 ∧ d = n * 16 + e := by
  simp only [pushDigit, bind_eq_ok, okOr_eq_ok, mul_eq_some, add_eq_some]
  constructor
  · rintro ⟨e, he, _, ⟨-, rfl⟩, hlt, rfl⟩
    exact ⟨e, he, hlt, rfl⟩
  · rintro ⟨e, he, hlt, rfl⟩
    exact ⟨e, he, n * 16, ⟨by omega, rfl⟩, hlt, rfl⟩

/-! ### Numbers -/

/-- The last digits of a number. -/
def lastDigits (k n : ℕ) : List Char :=
  (List.range k).map fun i => lowerDigit (n / 16 ^ (k - 1 - i) % 16)

theorem hex16_eq (n : ℕ) : hex16 n = lastDigits 16 n := rfl

theorem lastDigits_succ (k n : ℕ) :
    lastDigits (k + 1) n = lastDigits k (n / 16) ++ [lowerDigit (n % 16)] := by
  unfold lastDigits
  rw [range_succ, map_append]
  congr 1
  · refine map_congr_left fun i hi => ?_
    have hi := mem_range.mp hi
    rw [Nat.div_div_eq_div_mul, show k + 1 - 1 - i = k - 1 - i + 1 by omega, pow_succ, mul_comm]
  · simp

theorem length_lastDigits (k n : ℕ) : (lastDigits k n).length = k := by simp [lastDigits]

theorem foldlM_lastDigits {k : ℕ} (hk : k ≤ 16) (hn : n < 16 ^ k) :
    (lastDigits k n).foldlM pushDigit 0 = .ok n := by
  induction k generalizing n with
  | zero =>
    obtain rfl : n = 0 := by simpa using hn
    rfl
  | succ k ih =>
    rw [lastDigits_succ, foldlM_append,
      ih (by omega) (Nat.div_lt_of_lt_mul (by rw [pow_succ] at hn; omega))]
    have hlt : n < 2 ^ 64 := lt_of_lt_of_le hn (by
      calc 16 ^ (k + 1) ≤ 16 ^ 16 := Nat.pow_le_pow_right (by norm_num) hk
        _ = 2 ^ 64 := by norm_num)
    have hlast : pushDigit (n / 16) (lowerDigit (n % 16)) = .ok n := pushDigit_eq_ok.mpr
      ⟨n % 16, toDigit16_lowerDigit _ (Nat.mod_lt _ (by norm_num)), by omega, by omega⟩
    simp only [bind, Except.bind, foldlM_cons, foldlM_nil, hlast]
    rfl

theorem exists_lastDigits (hl : l.length ≤ 16)
    (hlower : ∀ c ∈ l, ('0' ≤ c ∧ c ≤ '9') ∨ ('a' ≤ c ∧ c ≤ 'f')) :
    ∃ n < 16 ^ l.length, l = lastDigits l.length n := by
  induction l using List.reverseRecOn with
  | nil => exact ⟨0, by norm_num, rfl⟩
  | append_singleton l c ih =>
    rw [length_append, length_singleton] at hl ⊢
    obtain ⟨n, hn, heq⟩ := ih (by omega) fun c hc => hlower c (mem_append_left _ hc)
    obtain ⟨d, hd, -, hc⟩ := lowerDigit_toDigit16 (hlower c (by simp))
    refine ⟨n * 16 + d, by rw [pow_succ]; omega, ?_⟩
    rw [lastDigits_succ, show (n * 16 + d) / 16 = n by omega, show (n * 16 + d) % 16 = d by omega,
      ← heq, hc]

end Digits

/-! ### Hashes -/

section Hashes

variable {s : String} {h : UInt64}

theorem toList_toHex (h : UInt64) : (toHex h).toList = lastDigits 16 h.toNat := by
  unfold toHex
  rw [String.toList_ofList, hex16_eq]

theorem canonical_toHex (h : UInt64) : Canonical (toHex h) := by
  unfold Canonical
  rw [toList_toHex]
  refine ⟨length_lastDigits 16 _, fun c hc => ?_⟩
  obtain ⟨i, -, rfl⟩ := mem_map.mp hc
  exact lowerDigit_range _ (Nat.mod_lt _ (by norm_num))

theorem Canonical.signless_eq (hs : Canonical s) :
    cleaned s.toList = s.toList ∧ signless s.toList = .ok s.toList := by
  obtain ⟨hlen, hlower⟩ := hs
  generalize s.toList = l at hlen hlower ⊢
  obtain _ | ⟨a, _ | ⟨b, _ | ⟨c, l⟩⟩⟩ := l
  · cases hlen
  · cases hlen
  · cases hlen
  constructor
  · unfold cleaned
    split
    · simp_all
    · rfl
  · unfold signless
    split <;> simp_all

/-- **A hash is read back.** -/
theorem fromHex_toHex (h : UInt64) : fromHex (toHex h) = .ok h := by
  obtain ⟨hclean, hsign⟩ := (canonical_toHex h).signless_eq
  unfold fromHex fromStrRadix16
  rw [hclean, hsign, toList_toHex]
  have hlt : h.toNat < 16 ^ 16 := lt_of_lt_of_le h.toNat_lt (by norm_num)
  simp only [bind, Except.bind, foldlM_lastDigits le_rfl hlt, UInt64.ofNat_toNat]
  rfl

theorem Canonical.exists_toHex (hs : Canonical s) : ∃ h, s = toHex h := by
  obtain ⟨n, hn, heq⟩ := exists_lastDigits hs.1.le hs.2
  rw [hs.1] at hn heq
  refine ⟨UInt64.ofNat n, String.toList_inj.mp ?_⟩
  have hlt : n < 2 ^ 64 := lt_of_lt_of_le hn (by norm_num)
  rw [toList_toHex, UInt64.toNat_ofNat', Nat.mod_eq_of_lt hlt]
  exact heq

/-- **The spellings that are given back** are sixteen lowercase digits. -/
theorem toHex_eq_iff (hread : fromHex s = .ok h) : toHex h = s ↔ Canonical s := by
  constructor
  · rintro rfl
    exact canonical_toHex h
  · intro hs
    obtain ⟨h', rfl⟩ := hs.exists_toHex
    rw [fromHex_toHex] at hread
    rw [Except.ok.inj hread]

theorem toHex_eq_iff_radix (hread : fromStrRadix16 s.toList = .ok h) : toHex h = s ↔ Canonical s := by
  constructor
  · rintro rfl
    exact canonical_toHex h
  · intro hs
    refine (toHex_eq_iff ?_).mpr hs
    unfold fromHex
    rw [hs.signless_eq.1]
    exact hread

theorem Canonical.eq_of_fromHex {t : String} (hs : Canonical s) (ht : Canonical t)
    (hread : fromHex s = .ok h) (hread' : fromHex t = .ok h) : s = t :=
  ((toHex_eq_iff hread).mpr hs).symm.trans ((toHex_eq_iff hread').mpr ht)

end Hashes

end R9v

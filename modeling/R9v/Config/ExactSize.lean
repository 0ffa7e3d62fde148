import R9v.Config.ByteSize
import Mathlib.Algebra.Order.Field.Rat
import Mathlib.Data.List.TakeWhile
import Mathlib.Tactic.FieldSimp
import Mathlib.Tactic.Positivity
import Mathlib.Tactic.Ring

/-!
# Exact byte sizes

The parser of byte sizes computes with words of 128 bits, on a fraction of at most 28 digits. What
it answers for a text is the exact value of the text in bytes, or the reason that there is none,
where these widths are not exceeded before that value is known; what `format_byte_size` shows
without a fraction is read back as it was (`byteSize_exact`).
-/

namespace R9v

open Checked Text List Option

/-! ### Writing a size -/

/-- A size as a number of units, with two digits of a fraction unless it is a multiple of the unit.
These digits are those of a quotient of floating-point numbers. -/
def formatIn (fixed : ℕ → ℕ → String) (bytes unit : ℕ) (name : String) : String :=
  if bytes % unit = 0 then s!"{bytes / unit} {name}" else s!"{fixed bytes unit} {name}"

/-- The text of a size. -/
def formatByteSize (fixed : ℕ → ℕ → String) (bytes : ℕ) : String :=
  if 1024 ^ 5 ≤ bytes then formatIn fixed bytes (1024 ^ 5) "PiB"
  else if 1024 ^ 4 ≤ bytes then formatIn fixed bytes (1024 ^ 4) "TiB"
  else if 1024 ^ 3 ≤ bytes then formatIn fixed bytes (1024 ^ 3) "GiB"
  else if 1024 ^ 2 ≤ bytes then formatIn fixed bytes (1024 ^ 2) "MiB"
  else if 1024 ^ 1 ≤ bytes then formatIn fixed bytes (1024 ^ 1) "KiB"
  else s!"{bytes} B"

/-- The unit that the text of a size shows. -/
def shownUnit (bytes : ℕ) : ℕ :=
  if 1024 ^ 5 ≤ bytes then 1024 ^ 5
  else if 1024 ^ 4 ≤ bytes then 1024 ^ 4
  else if 1024 ^ 3 ≤ bytes then 1024 ^ 3
  else if 1024 ^ 2 ≤ bytes then 1024 ^ 2
  else if 1024 ^ 1 ≤ bytes then 1024 ^ 1
  else 1

/-! ### Texts of sizes -/

/-- The text of a size: digits, a point and more digits or neither, white space and a unit. -/
structure SizeText where
  int : List Char
  fraction : Option (List Char)
  blanks : List Char
  unit : List Char
  multiplier : ℕ
  int_digits : int.all isDigit = true
  int_ne : int ≠ []
  fraction_digits : (fraction.getD []).all isDigit = true
  blanks_white : blanks.all isWhite = true
  unit_eq : unitMultiplier unit = some multiplier

namespace SizeText

/-- The number of a text, as it is written. -/
def number (t : SizeText) : List Char := t.int ++ t.fraction.elim [] ('.' :: ·)

def text (t : SizeText) : String := String.ofList (t.number ++ (t.blanks ++ t.unit))

/-- The exact number of bytes of a text. -/
def value (t : SizeText) : ℚ :=
  (digitsValue t.int +
    digitsValue (t.fraction.getD []) / 10 ^ (t.fraction.getD []).length) * t.multiplier

/-- The digits of the fraction that count. -/
def fracTrimmed (t : SizeText) : List Char := trimEndMatches (· == '0') (t.fraction.getD [])

end SizeText

/-- The exact answer for a value: the value if it is a number of bytes that fits, and an error that
is true of it otherwise. -/
def ExactFor (r : Except ByteSizeError ℕ) (v : ℚ) : Prop :=
  (∀ n : ℕ, r = .ok n ↔ v = n ∧ n < 2 ^ 64) ∧
    (∀ input, r = .error (.fractionalByte input) → ∀ n : ℕ, v ≠ n) ∧
    ∀ input, r = .error (.overflow input) → 2 ^ 64 - 1 < v

/-- The widths of the parser are enough for a text: its fraction has no more digits than are read,
or is not a whole number of bytes; and the product of these digits with the unit fits, or the size
does not. -/
def SizeText.WithinWidths (t : SizeText) : Prop :=
  2 ^ 128 ≤ digitsValue t.int ∨
    if t.fracTrimmed.length ≤ 28 then
      digitsValue t.fracTrimmed * t.multiplier < 2 ^ 128 ∨ 2 ^ 64 - 1 < t.value
    else ¬10 ^ t.fracTrimmed.length ∣ digitsValue t.fracTrimmed * t.multiplier

/-! ### Finding the number and the unit -/

section Scan

variable {l front core back : List Char} {c : Char}

theorem dropWhile_append_white (p : Char → Bool) (h : front.all p = true)
    (hcore : ∀ c ∈ core.head?, p c = false) : (front ++ core).dropWhile p = core := by
  rw [dropWhile_append_of_pos (all_eq_true.mp h)]
  cases core with
  | nil => rfl
  | cons c core => rw [dropWhile_cons_of_neg (by rw [hcore c rfl]; exact Bool.false_ne_true)]

theorem trim_append (h : back.all isWhite = true) (hne : core ≠ [])
    (hfirst : ∀ c ∈ core.head?, isWhite c = false)
    (hlast : ∀ c ∈ core.getLast?, isWhite c = false) : trim (core ++ back) = core := by
  have hstart : (core ++ back).dropWhile isWhite = core ++ back := by
    obtain ⟨c, l, rfl⟩ := exists_cons_of_ne_nil hne
    exact dropWhile_cons_of_neg (by rw [hfirst c rfl]; exact Bool.false_ne_true)
  have hend : (back.reverse ++ core.reverse).dropWhile isWhite = core.reverse := by
    refine dropWhile_append_white isWhite (by rwa [all_reverse]) fun c hc => hlast c ?_
    rwa [head?_reverse] at hc
  rw [trim, trimMatches, trimStartMatches, hstart, trimEndMatches, reverse_append, hend,
    reverse_reverse]

theorem scanNumber_digits (hasDot : Bool) (h : l.all isDigit = true) (s : List Char) :
    scanNumber hasDot (l ++ s) = (scanNumber hasDot s).map fun r => (l ++ r.1, r.2) := by
  induction l with
  | nil => simp only [nil_append, Option.map_id']
  | cons c l ih =>
    rw [all_cons, Bool.and_eq_true] at h
    rw [cons_append, scanNumber, if_pos h.1, ih h.2, Option.map_map]
    rfl

theorem scanNumber_stop (hasDot : Bool) (h : ∀ c ∈ l.head?, isDigit c = false ∧ c ≠ '.') :
    scanNumber hasDot l = some ([], l) := by
  cases l with
  | nil => rfl
  | cons c l =>
    obtain ⟨hdigit, hdot⟩ := h c rfl
    rw [scanNumber, hdigit, if_neg Bool.false_ne_true, if_neg hdot]

theorem SizeText.scanNumber_number (t : SizeText) {s : List Char}
    (h : ∀ c ∈ s.head?, isDigit c = false ∧ c ≠ '.') :
    scanNumber false (t.number ++ s) = some (t.number, s) := by
  rw [number, append_assoc, scanNumber_digits false t.int_digits]
  cases hfraction : t.fraction with
  | none =>
    rw [elim_none, nil_append, scanNumber_stop false h]
    rfl
  | some frac =>
    have hdigits : frac.all isDigit = true := by
      have h := t.fraction_digits
      rwa [hfraction] at h
    rw [elim_some, cons_append, scanNumber, if_neg (by decide), if_pos rfl,
      if_neg Bool.false_ne_true, scanNumber_digits true hdigits, scanNumber_stop true h]
    simp only [map_some, append_nil]

theorem of_lower (h : 'a' ≤ asciiLower c ∧ asciiLower c ≤ 'z') :
    isWhite c = false ∧ isDigit c = false ∧ c ≠ '.' := by
  have hrange : 65 ≤ c.toNat ∧ c.toNat ≤ 122 := by
    rw [asciiLower] at h
    split at h
    · next hupper =>
      have hle : c.toNat ≤ 90 := hupper.2
      exact ⟨hupper.1, by omega⟩
    · have hge : 97 ≤ c.toNat := h.1
      exact ⟨by omega, h.2⟩
  refine ⟨?_, ?_, ?_⟩
  · simp only [isWhite, Bool.or_eq_false_iff, Bool.and_eq_false_iff, beq_eq_false_iff_ne,
      decide_eq_false_iff_not]
    omega
  · have hgt : ¬c ≤ '9' := fun hle => by
      have hnat : c.toNat ≤ 57 := hle
      omega
    simp only [isDigit, hgt, decide_false, Bool.and_false]
  · rintro rfl
    exact absurd hrange (by decide)

theorem lower_of_unit {unit : List Char} {m : ℕ} (h : unitMultiplier unit = some m) :
    0 < m ∧ ∀ c ∈ unit, 'a' ≤ asciiLower c ∧ asciiLower c ≤ 'z' := by
  have hletters : ∀ name : String, String.ofList (unit.map asciiLower) = name →
      (∀ c ∈ name.toList, 97 ≤ c.toNat ∧ c.toNat ≤ 122) →
      ∀ c ∈ unit, 'a' ≤ asciiLower c ∧ asciiLower c ≤ 'z' := by
    rintro name rfl hname c hc
    refine hname _ ?_
    rw [String.toList_ofList]
    exact mem_map_of_mem hc
  rw [unitMultiplier] at h
  split at h
  all_goals first
    | cases h
      exact ⟨by decide, hletters _ (by assumption) (by simp)⟩
    | cases h

theorem not_white_of_digit (h : isDigit c = true) : isWhite c = false := by
  rw [isDigit, Bool.and_eq_true, decide_eq_true_eq, decide_eq_true_eq] at h
  have hge : 48 ≤ c.toNat := h.1
  have hle : c.toNat ≤ 57 := h.2
  simp only [isWhite, Bool.or_eq_false_iff, Bool.and_eq_false_iff, beq_eq_false_iff_ne,
    decide_eq_false_iff_not]
  omega

theorem of_white (h : isWhite c = true) : isDigit c = false ∧ c ≠ '.' := by
  refine ⟨?_, ?_⟩
  · by_contra hdigit
    rw [not_white_of_digit (Bool.not_eq_false _ ▸ hdigit)] at h
    cases h
  · rintro rfl
    cases h

end Scan

namespace SizeText

variable (t : SizeText)

theorem number_ne : t.number ≠ [] := append_ne_nil_of_left_ne_nil t.int_ne _

theorem not_white_of_number {c : Char} (h : c ∈ t.number) : isWhite c = false := by
  rw [number, mem_append] at h
  rcases h with h | h
  · exact not_white_of_digit (all_eq_true.mp t.int_digits c h)
  · have hdigits := t.fraction_digits
    cases hfraction : t.fraction with
    | none =>
      rw [hfraction] at h
      cases h
    | some frac =>
      rw [hfraction] at h hdigits
      rcases mem_cons.mp h with rfl | h
      · rfl
      · exact not_white_of_digit (all_eq_true.mp hdigits c h)

/-- What is left of the text after its number when it is trimmed. -/
def rest : List Char := if t.unit = [] then [] else t.blanks ++ t.unit

theorem trim_text : trim t.text.toList = t.number ++ t.rest := by
  have hfirst : ∀ l, ∀ c ∈ (t.number ++ l).head?, isWhite c = false := by
    intro l c hc
    rw [head?_append_of_ne_nil _ t.number_ne] at hc
    exact t.not_white_of_number (mem_of_mem_head? hc)
  rw [text, String.toList_ofList, rest]
  split
  · next hunit =>
    -- the white space before a unit that is not there is at the end
    rw [hunit, append_nil, append_nil]
    refine trim_append t.blanks_white t.number_ne ?_ fun c hc =>
      t.not_white_of_number (mem_of_mem_getLast? hc)
    have h := hfirst []
    rwa [append_nil] at h
  · next hunit =>
    have hnil : ([] : List Char).all isWhite = true := rfl
    have h := trim_append hnil (append_ne_nil_of_left_ne_nil t.number_ne _)
      (hfirst (t.blanks ++ t.unit)) ?_
    · rwa [append_nil] at h
    intro c hc
    rw [← append_assoc, getLast?_append_of_ne_nil _ hunit] at hc
    exact (of_lower ((lower_of_unit t.unit_eq).2 c (mem_of_mem_getLast? hc))).1

theorem rest_head : ∀ c ∈ t.rest.head?, isDigit c = false ∧ c ≠ '.' := by
  intro c hc
  have hmem := mem_of_mem_head? hc
  rw [rest] at hmem
  split at hmem
  · cases hmem
  · rcases mem_append.mp hmem with h | h
    · exact of_white (all_eq_true.mp t.blanks_white c h)
    · exact (of_lower ((lower_of_unit t.unit_eq).2 c h)).2

theorem scanUnit_rest (input : String) :
    scanUnit input (trimStartMatches isWhite t.rest) = .ok t.unit := by
  have hunit : ∀ c ∈ t.unit, isWhite c = false := fun c hc =>
    (of_lower ((lower_of_unit t.unit_eq).2 c hc)).1
  have hstart : trimStartMatches isWhite t.rest = t.unit := by
    rw [rest]
    split
    · next hnil =>
      rw [hnil]
      rfl
    · exact dropWhile_append_white isWhite t.blanks_white fun c hc =>
        hunit c (mem_of_mem_head? hc)
  have hnot : ∀ c ∈ t.unit, (!isWhite c) = true := fun c hc => by rw [hunit c hc]; rfl
  rw [hstart, scanUnit, takeWhile_eq_self_iff.mpr hnot, dropWhile_eq_nil_iff.mpr hnot]
  rfl

/-- **The parser finds** the number and the unit of a text. -/
theorem parse_text : parseByteSize t.text = sizeBytes t.text t.multiplier t.number := by
  obtain ⟨c, digits, hint⟩ := exists_cons_of_ne_nil t.int_ne
  have hc : isDigit c = true := all_eq_true.mp t.int_digits c (hint ▸ mem_cons_self)
  have hnumber : t.number = c :: (digits ++ t.fraction.elim [] ('.' :: ·)) := by
    rw [number, hint, cons_append]
  have hne : t.number ++ t.rest ≠ [] := append_ne_nil_of_left_ne_nil t.number_ne _
  have hsign : (t.number ++ t.rest).head? ≠ some '-' := by
    rw [hnumber]
    rintro hhead
    cases hhead
    cases hc
  have hany : t.number.any isDigit = true := by
    rw [hnumber, any_cons, hc, Bool.true_or]
  rw [parseByteSize, t.trim_text]
  simp only [ensure_of hne, ensure_of hsign, t.scanNumber_number t.rest_head, ensure_of hany,
    t.scanUnit_rest, t.unit_eq, okOr_some, ok_bind]

end SizeText

/-! ### Reading the number -/

section Bytes

variable {l frac : List Char} {input : String} {m : ℕ}

theorem parseU128_eq (h : l.all isDigit = true) (hne : l ≠ []) :
    parseU128 l = if digitsValue l < 2 ^ 128 then .ok (digitsValue l) else .error .posOverflow := by
  rw [parseU128, parseDigits, if_neg hne, if_pos h]
  rfl

theorem splitOnce_digits (h : l.all isDigit = true) (s : List Char) :
    splitOnce ['.'] (l ++ s) = (splitOnce ['.'] s).map fun r => (l ++ r.1, r.2) := by
  induction l with
  | nil => simp only [nil_append, Option.map_id']
  | cons c l ih =>
    rw [all_cons, Bool.and_eq_true] at h
    have hdot : ('.' == c) = false := by
      rw [beq_eq_false_iff_ne]
      rintro rfl
      cases h.1
    have hnone : stripPrefix ['.'] (c :: (l ++ s)) = none := by
      rw [stripPrefix, List.isPrefixOf, hdot, Bool.false_and, if_neg Bool.false_ne_true]
    rw [cons_append, splitOnce, hnone, ih h.2]
    cases splitOnce ['.'] s <;> rfl

theorem splitOnce_int (h : l.all isDigit = true) : splitOnce ['.'] l = none := by
  have h := splitOnce_digits h []
  rwa [append_nil] at h

theorem splitOnce_point (h : l.all isDigit = true) (frac : List Char) :
    splitOnce ['.'] (l ++ '.' :: frac) = some (l, frac) := by
  rw [splitOnce_digits h]
  simp [splitOnce, stripPrefix]

theorem exists_zeros (frac : List Char) :
    ∃ k, frac = trimEndMatches (· == '0') frac ++ List.replicate k '0' := by
  refine ⟨(frac.reverse.takeWhile (· == '0')).length, ?_⟩
  have hzeros : frac.reverse.takeWhile (· == '0') =
      List.replicate (frac.reverse.takeWhile (· == '0')).length '0' :=
    eq_replicate_of_mem fun c hc =>
      eq_of_beq (mem_takeWhile_imp (p := fun c => c == '0') hc)
  rw [trimEndMatches, ← reverse_replicate, ← hzeros, ← reverse_append,
    takeWhile_append_dropWhile, reverse_reverse]

theorem digitsValue_zeros (l : List Char) (k : ℕ) :
    digitsValue (l ++ List.replicate k '0') = digitsValue l * 10 ^ k := by
  induction k with
  | zero => rw [replicate_zero, append_nil, pow_zero, mul_one]
  | succ k ih =>
    rw [replicate_succ', ← append_assoc, digitsValue_concat, ih, pow_succ]
    change 10 * (digitsValue l * 10 ^ k) + 0 = _
    ring

end Bytes

namespace SizeText

variable (t : SizeText)

theorem fracTrimmed_digits : t.fracTrimmed.all isDigit = true := by
  obtain ⟨k, hk⟩ := exists_zeros (t.fraction.getD [])
  have h := t.fraction_digits
  rw [hk, all_append, Bool.and_eq_true] at h
  exact h.1

theorem value_eq : t.value = digitsValue t.int * t.multiplier +
    digitsValue t.fracTrimmed * t.multiplier / 10 ^ t.fracTrimmed.length := by
  obtain ⟨k, hk⟩ := exists_zeros (t.fraction.getD [])
  change t.fraction.getD [] = t.fracTrimmed ++ _ at hk
  rw [value, hk, digitsValue_zeros, length_append, length_replicate]
  push_cast
  field_simp
  ring

theorem value_of_dvd {q : ℕ}
    (hq : digitsValue t.fracTrimmed * t.multiplier = 10 ^ t.fracTrimmed.length * q) :
    t.value = (digitsValue t.int * t.multiplier + q : ℕ) := by
  have hpow : (10 ^ t.fracTrimmed.length : ℚ) ≠ 0 := by positivity
  have hq' : (digitsValue t.fracTrimmed * t.multiplier : ℚ) = 10 ^ t.fracTrimmed.length * q := by
    exact_mod_cast hq
  rw [value_eq, hq', mul_div_cancel_left₀ _ hpow]
  push_cast
  rfl

theorem value_whole :
    (∃ n : ℕ, t.value = n) ↔
      10 ^ t.fracTrimmed.length ∣ digitsValue t.fracTrimmed * t.multiplier := by
  constructor
  · rintro ⟨n, hn⟩
    rw [value_eq] at hn
    have hsum : digitsValue t.int * t.multiplier * 10 ^ t.fracTrimmed.length +
        digitsValue t.fracTrimmed * t.multiplier = n * 10 ^ t.fracTrimmed.length := by
      field_simp at hn
      have hn' : ((digitsValue t.int * t.multiplier * 10 ^ t.fracTrimmed.length +
          digitsValue t.fracTrimmed * t.multiplier : ℕ) : ℚ) =
          ((n * 10 ^ t.fracTrimmed.length : ℕ) : ℚ) := by
        push_cast
        linarith
      exact_mod_cast hn'
    exact (Nat.dvd_add_right (Nat.dvd_mul_left _ _)).mp (hsum ▸ Nat.dvd_mul_left _ _)
  · rintro ⟨q, hq⟩
    exact ⟨_, t.value_of_dvd hq⟩

end SizeText

/-! ### Exactness -/

section Exact

variable {input : String} {n : ℕ} {v : ℚ}

theorem exactFor_ok : ExactFor (.ok n) v ↔ v = n ∧ n < 2 ^ 64 := by
  constructor
  · exact fun h => (h.1 n).mp rfl
  · rintro ⟨rfl, hlt⟩
    refine ⟨fun k => ?_, (fun _ h => by cases h), fun _ h => by cases h⟩
    rw [Except.ok.injEq, Nat.cast_inj]
    exact ⟨fun h => ⟨h, h ▸ hlt⟩, fun h => h.1⟩

theorem exactFor_fractional :
    ExactFor (.error (.fractionalByte input)) v ↔ ¬∃ n : ℕ, v = n := by
  constructor
  · rintro h ⟨n, hn⟩
    exact h.2.1 input rfl n hn
  · intro h
    refine ⟨fun n => iff_of_false ?_ fun hn => h ⟨n, hn.1⟩, fun _ _ n hn => h ⟨n, hn⟩, ?_⟩
    · rintro ⟨⟩
    · rintro _ ⟨⟩

theorem exactFor_overflow : ExactFor (.error (.overflow input)) v ↔ 2 ^ 64 - 1 < v := by
  constructor
  · exact fun h => h.2.2 input rfl
  · intro h
    refine ⟨fun n => iff_of_false (fun h => by cases h) ?_, (fun _ h => by cases h), fun _ _ => h⟩
    rintro ⟨rfl, hlt⟩
    have hle : (n : ℚ) ≤ 2 ^ 64 - 1 := by
      have hcast : ((n + 1 : ℕ) : ℚ) ≤ ((2 ^ 64 : ℕ) : ℚ) := Nat.cast_le.mpr hlt
      push_cast at hcast
      linarith
    exact absurd h (not_lt.mpr hle)

theorem overflow_lt {k : ℕ} (hk : 2 ^ 64 ≤ k) : (2 ^ 64 - 1 : ℚ) < k := by
  have hcast : ((2 ^ 64 : ℕ) : ℚ) ≤ (k : ℚ) := Nat.cast_le.mpr hk
  push_cast at hcast
  linarith

theorem exactFor_checked {o : Option ℕ} {f : ℕ → Except ByteSizeError ℕ}
    (hnone : o = none → 2 ^ 64 - 1 < v) (hsome : ∀ a, o = some a → ExactFor (f a) v) :
    ExactFor (okOr o (.overflow input) >>= f) v := by
  cases o with
  | none => exact exactFor_overflow.mpr (hnone rfl)
  | some a => exact hsome a rfl

theorem exactFor_narrow (h : v = n) : ExactFor (okOr (narrow 64 n) (.overflow input)) v := by
  rcases lt_or_ge n (2 ^ 64) with hlt | hge
  · rw [narrow_of_lt hlt]
    exact exactFor_ok.mpr ⟨h, hlt⟩
  · rw [narrow, if_neg (not_lt.mpr hge)]
    exact exactFor_overflow.mpr (h ▸ overflow_lt hge)

theorem exactFor_mul {k m : ℕ} {f : ℕ → Except ByteSizeError ℕ} (hv : (k * m : ℕ) ≤ v)
    (h : ExactFor (f (k * m)) v) : ExactFor (okOr (mul 128 k m) (.overflow input) >>= f) v := by
  refine exactFor_checked (fun hnone => ?_) fun a ha => (mul_eq_some.mp ha).2 ▸ h
  have hge : 2 ^ 128 ≤ k * m := by simpa [mul] using hnone
  exact (overflow_lt (by omega)).trans_le hv

theorem exactFor_add {k m : ℕ} (hv : v = (k + m : ℕ)) : ExactFor (do
    let total ← okOr (add 128 k m) (.overflow input)
    okOr (narrow 64 total) (.overflow input)) v := by
  refine exactFor_checked (fun hnone => ?_) fun a ha => exactFor_narrow ((add_eq_some.mp ha).2 ▸ hv)
  have hge : 2 ^ 128 ≤ k + m := by simpa [add] using hnone
  exact hv ▸ overflow_lt (by omega)

end Exact

theorem readsExactly_iff (t : SizeText) :
    ExactFor (parseByteSize t.text) t.value ↔ t.WithinWidths := by
  have hm : 0 < t.multiplier := (lower_of_unit t.unit_eq).1
  have hle : ((digitsValue t.int * t.multiplier : ℕ) : ℚ) ≤ t.value := by
    rw [t.value_eq]
    push_cast
    exact le_add_of_nonneg_right (by positivity)
  have hfrac := t.fracTrimmed_digits
  have hvalue := @SizeText.value_of_dvd t
  rw [t.parse_text, SizeText.number, SizeText.WithinWidths]
  rcases Nat.lt_or_ge (digitsValue t.int) (2 ^ 128) with hint | hint
  · rw [or_iff_right (Nat.not_le.mpr hint)]
    have hparse := parseU128_eq t.int_digits t.int_ne
    rw [if_pos hint] at hparse
    cases hfraction : t.fraction with
    | none =>
      have hnil : t.fracTrimmed = [] := by rw [SizeText.fracTrimmed, hfraction]; rfl
      rw [hnil] at hvalue ⊢
      have hv := hvalue (q := 0) (Nat.zero_mul _)
      rw [Option.elim_none, append_nil, sizeBytes, splitOnce_int t.int_digits, hparse]
      refine iff_of_true (exactFor_mul hle (exactFor_narrow hv)) (.inl ?_)
      exact (Nat.zero_mul _).trans_lt (by decide)
    | some frac =>
      have htrim : trimEndMatches (· == '0') frac = t.fracTrimmed := by
        rw [SizeText.fracTrimmed, hfraction]
        rfl
      rw [Option.elim_some, sizeBytes, splitOnce_point t.int_digits]
      simp only [ensure_of t.int_ne, hparse, htrim, ok_bind, Except.mapError]
      have hrest : ∀ q, digitsValue t.fracTrimmed * t.multiplier = 10 ^ t.fracTrimmed.length * q →
          ExactFor (do
            let bytes ← okOr (mul 128 (digitsValue t.int) t.multiplier) (.overflow t.text)
            let total ← okOr (add 128 bytes q) (.overflow t.text)
            okOr (narrow 64 total) (.overflow t.text)) t.value := fun q hq =>
        exactFor_mul hle (exactFor_add (hvalue hq))
      rcases eq_or_ne t.fracTrimmed [] with hnil | hne
      · rw [hnil] at hrest ⊢
        refine iff_of_true (hrest 0 (Nat.zero_mul _)) (.inl ?_)
        exact (Nat.zero_mul _).trans_lt (by decide)
      rw [fractionBytes, if_neg hne]
      rcases Nat.lt_or_ge 28 t.fracTrimmed.length with hlong | hshort
      · rw [ensure_of_not (Nat.not_le.mpr hlong), if_neg (Nat.not_le.mpr hlong), error_bind,
          error_bind, exactFor_fractional, t.value_whole]
      have hpow : 10 ^ t.fracTrimmed.length < 2 ^ 128 :=
        (Nat.pow_le_pow_right (by decide) hshort).trans_lt (by decide)
      rw [ensure_of hshort, if_pos hshort, parseU128_eq hfrac hne,
        if_pos ((digitsValue_lt hfrac).trans hpow), narrow_of_lt hpow]
      simp only [Except.mapError, ok_bind, okOr_some]
      rcases Nat.lt_or_ge (digitsValue t.fracTrimmed * t.multiplier) (2 ^ 128) with hmul | hmul
      · refine iff_of_true ?_ (.inl hmul)
        rw [mul_of_lt hmul, okOr_some, ok_bind]
        by_cases hdvd : 10 ^ t.fracTrimmed.length ∣ digitsValue t.fracTrimmed * t.multiplier
        · obtain ⟨q, hq⟩ := hdvd
          rw [ensure_of (hq ▸ Nat.mul_mod_right _ _), hq, Nat.mul_div_cancel_left _ (by positivity)]
          exact hrest q hq
        · rw [ensure_of_not fun h => hdvd (Nat.dvd_of_mod_eq_zero h)]
          exact exactFor_fractional.mpr fun h => hdvd (t.value_whole.mp h)
      · rw [or_iff_right (Nat.not_lt.mpr hmul), mul, if_neg (Nat.not_lt.mpr hmul)]
        exact exactFor_overflow
  · refine iff_of_true ?_ (.inl hint)
    have hparse : parseU128 t.int = .error .posOverflow :=
      (parseU128_eq t.int_digits t.int_ne).trans (if_neg (Nat.not_lt.mpr hint))
    have hbig : (2 ^ 64 - 1 : ℚ) < t.value :=
      (overflow_lt (by have := Nat.le_mul_of_pos_right (digitsValue t.int) hm; omega)).trans_le hle
    rw [sizeBytes]
    cases hfraction : t.fraction with
    | none =>
      rw [Option.elim_none, append_nil, splitOnce_int t.int_digits, hparse]
      exact exactFor_overflow.mpr hbig
    | some frac =>
      rw [Option.elim_some, splitOnce_point t.int_digits]
      simp only [ensure_of t.int_ne, hparse]
      exact exactFor_overflow.mpr hbig

/-! ### Reading what was written -/

section Format

variable {k m : ℕ}

theorem parse_whole {s : String} {name : List Char} (hs : s.toList = Nat.toDigits 10 k ++ ' ' :: name)
    (h : unitMultiplier name = some m) (hlt : k * m < 2 ^ 64) : parseByteSize s = .ok (k * m) := by
  let t : SizeText :=
    { int := Nat.toDigits 10 k
      fraction := none
      blanks := [' ']
      unit := name
      multiplier := m
      int_digits := all_toDigits k
      int_ne := Nat.toDigits_ne_nil
      fraction_digits := rfl
      blanks_white := rfl
      unit_eq := h }
  have htext : t.text = s := by
    rw [← String.ofList_toList (s := s), hs]
    simp [t, SizeText.text, SizeText.number]
  have hvalue : t.value = (k * m : ℕ) := by
    have h := t.value_of_dvd (q := 0) (zero_mul m)
    rwa [add_zero, show digitsValue t.int = k from digitsValue_toDigits k] at h
  have hexact := (readsExactly_iff t).mpr (.inr (.inl (by simp [t, SizeText.fracTrimmed, trimEndMatches, digitsValue])))
  rw [htext, hvalue] at hexact
  exact (hexact.1 _).mpr ⟨rfl, hlt⟩

theorem parse_formatIn {fixed : ℕ → ℕ → String} {bytes unit : ℕ} {name : String}
    (h : unitMultiplier name.toList = some unit) (hdvd : unit ∣ bytes) (hlt : bytes < 2 ^ 64) :
    parseByteSize (formatIn fixed bytes unit name) = .ok bytes := by
  have hbytes := Nat.div_mul_cancel hdvd
  rw [formatIn, if_pos (Nat.mod_eq_zero_of_dvd hdvd)]
  rw [parse_whole (k := bytes / unit) ?_ h (by rwa [hbytes]), hbytes]
  simp only [String.toList_append, Nat.toString_eq_repr, Nat.toList_repr, append_assoc]
  rfl

theorem parse_formatByteSize {fixed : ℕ → ℕ → String} {bytes : ℕ} (hdvd : shownUnit bytes ∣ bytes)
    (hlt : bytes < 2 ^ 64) : parseByteSize (formatByteSize fixed bytes) = .ok bytes := by
  rw [shownUnit] at hdvd
  rw [formatByteSize]
  split_ifs at hdvd ⊢
  iterate 5 exact parse_formatIn (by decide) hdvd hlt
  have h := @parse_whole bytes 1 s!"{bytes} B" ['B'] ?_ (by decide) (by rwa [Nat.mul_one])
  · rwa [Nat.mul_one] at h
  · simp only [String.toList_append, Nat.toString_eq_repr, Nat.toList_repr]
    rfl

end Format

/-- **Byte sizes are read exactly** where the widths of the parser are enough, and what is shown
without a fraction is read back. -/
theorem byteSize_exact (t : SizeText) :
    (ExactFor (parseByteSize t.text) t.value ↔ t.WithinWidths) ∧
      ∀ (fixed : ℕ → ℕ → String) (bytes : ℕ), bytes < 2 ^ 64 → shownUnit bytes ∣ bytes →
        parseByteSize (formatByteSize fixed bytes) = .ok bytes :=
  ⟨readsExactly_iff t, fun _ _ hlt hdvd => parse_formatByteSize hdvd hlt⟩

/-- The part `2 ^ -29` of a unit of `2 ^ 50` bytes. -/
def smallPart : SizeText where
  int := ['0']
  fraction := some "00000000186264514923095703125".toList
  blanks := []
  unit := ['P', 'i', 'B']
  multiplier := 1024 ^ 5
  int_digits := by decide
  int_ne := by decide
  fraction_digits := by decide
  blanks_white := rfl
  unit_eq := by decide

theorem byteSize_exact_kib :
    parseByteSize (formatByteSize (fun _ _ => "") 3072) = .ok 3072 ∧ shownUnit 3072 = 1024 :=
  ⟨(byteSize_exact smallPart).2 _ 3072 (by decide) (by decide), by decide⟩

/-- A whole number of bytes is not read when it is written with 29 digits. -/
theorem smallPart_fractional :
    smallPart.text = "0.00000000186264514923095703125PiB" ∧ smallPart.value = (2 ^ 21 : ℕ) ∧
      ¬ExactFor (parseByteSize smallPart.text) smallPart.value := by
  have hvalue : smallPart.value = (2 ^ 21 : ℕ) := by
    have h := smallPart.value_of_dvd (q := 2 ^ 21) (by decide +kernel)
    have hint : digitsValue smallPart.int = 0 := rfl
    rwa [hint, Nat.zero_mul, Nat.zero_add] at h
  refine ⟨by decide +kernel, hvalue, fun h => ?_⟩
  have hread : parseByteSize smallPart.text = .error (.fractionalByte smallPart.text) := by
    decide +kernel
  rw [hread] at h
  exact h.2.1 _ rfl _ hvalue

end R9v

import R9v.Loader.Partition
import R9v.Template.Lexer

/-!
# Filters of strings

The filters `upper`, `lower`, `capitalize`, `title` and `replace` of templates
(`template/builtins.rs`). The first four go through the bytes of a string and take each of them for
a character, so that they keep the characters of ASCII text only; `replace` puts a text in the place
of the first occurrences of another one (`string_filters`).
-/

namespace R9v

open List

/-- The characters of a string. -/
def Str.chars (s : Str) : List ℕ := cptsFromStr s.bytes

end R9v

namespace R9v.Template

open Checked Occurrences Utf8

/-! ### Cases -/

def toAsciiUppercase (b : UInt8) : UInt8 := if 0x61 ≤ b ∧ b ≤ 0x7A then b - 0x20 else b

def toAsciiLowercase (b : UInt8) : UInt8 := if 0x41 ≤ b ∧ b ≤ 0x5A then b + 0x20 else b

theorem valid_byte (b : UInt8) : Valid (encodeUtf8 b.toNat) := by
  have hall : ∀ n < 256, Valid (encodeUtf8 n) := by decide +kernel
  exact hall _ b.toNat_lt

/-- A string of characters that are given by their bytes: the byte is the number of the character.
-/
def asChars (bytes : Bytes) : Str where
  bytes := bytes.flatMap fun b => encodeUtf8 b.toNat
  valid := by
    induction bytes with
    | nil => exact valid_nil
    | cons b l ih => exact (valid_byte b).append_iff.mpr ih

def asciiUpper (s : Str) : Str := asChars (s.bytes.map toAsciiUppercase)

def asciiLower (s : Str) : Str := asChars (s.bytes.map toAsciiLowercase)

theorem encodeUtf8_ascii {b : UInt8} (h : b.toNat < 0x80) : encodeUtf8 b.toNat = [b] := by
  rw [encodeUtf8, if_pos h, UInt8.ofNat_toNat]

theorem toAsciiUppercase_lt {b : UInt8} (h : b.toNat < 0x80) : (toAsciiUppercase b).toNat <
    0x80 := by
  rw [toAsciiUppercase]
  split
  · next hletter =>
    have hle := UInt8.le_iff_toNat_le.mp hletter.1
    have hsub := UInt8.toNat_sub_of_le b 0x20
        (UInt8.le_iff_toNat_le.mpr (Nat.le_trans (by decide) hle))
    rw [hsub]
    exact (Nat.sub_le _ _).trans_lt h
  · exact h

/-- Whether a text starts with a character of one byte: it can be cut after its first byte. -/
def startsWithByte : Bytes → Bool
  | [] => false
  | [_] => true
  | _ :: c :: _ => !tail c

theorem ascii_of_startsWithByte {b : UInt8} {l : Bytes} (h : Valid (b :: l))
    (hstarts : startsWithByte (b :: l) = true) : b.toNat < 0x80 ∧ Valid l := by
  obtain ⟨n, hlen, -, hrest⟩ := h.uncons
  by_cases hb : b.toNat ≤ 0x7F
  · simp only [scalarLen, if_pos hb] at hlen
    obtain rfl : n = 0 := by omega
    exact ⟨Nat.lt_succ_of_le hb, hrest⟩
  -- a longer character goes on with a tail byte, which is no place to cut at
  · simp only [scalarLen, if_neg hb] at hlen
    split at hlen
    · next low high m c l hsec =>
      split at hlen
      · next hcond =>
        have hbounds := second_bounds hsec
        have htail : tail c = true := tail_iff.mpr ⟨by omega, by omega⟩
        rw [startsWithByte, htail] at hstarts
        cases hstarts
      · cases hlen
    · cases hlen

/-- The bytes of a title, each of which is a character of the result. -/
def titleBytes : Bool → Bytes → Bytes
  | _, [] => []
  | newWord, b :: l =>
    if isAlpha b then
      (if newWord then toAsciiUppercase b else toAsciiLowercase b) :: titleBytes false l
    else b :: titleBytes true l

inductive CaseFilter
  | upper
  | lower
  | capitalize
  | title

/-- The string with its first byte in upper case, if that is a character. -/
def makeFirstUppercase (s : Str) : Str :=
  match s with
  | ⟨[], h⟩ => ⟨[], h⟩
  | ⟨b :: l, h⟩ =>
    if hstarts : startsWithByte (b :: l) then ⟨toAsciiUppercase b :: l, by
      obtain ⟨hb, hl⟩ := ascii_of_startsWithByte h hstarts
      have hvalid := valid_byte (toAsciiUppercase b)
      rw [encodeUtf8_ascii (toAsciiUppercase_lt hb)] at hvalid
      exact hvalid.append_iff.mpr hl⟩
    else ⟨b :: l, h⟩

def CaseFilter.what : CaseFilter → String
  | upper => "template upper bytes"
  | lower => "template lower bytes"
  | capitalize => "template capitalize bytes"
  | title => "template title bytes"

/-- The filters that change the case of letters. -/
def caseFilter (f : CaseFilter) (s : Str) : Except TemplateError Str := do
  checkStrResult s.bytes.length f.what
  match f with
  | .upper => .ok (asciiUpper s)
  | .lower => .ok (asciiLower s)
  | .capitalize => .ok (makeFirstUppercase (asciiLower s))
  | .title => do
    let _ ← ensureStrAdd 0 s.bytes.length f.what
    .ok (asChars (titleBytes true s.bytes))

/-! ### What they keep -/

section Cases

variable {s out : Str} {f : CaseFilter} {b : UInt8} {l : Bytes}

/-- A text of characters of one byte. -/
def Ascii (l : Bytes) : Prop := ∀ b ∈ l, b.toNat < 0x80

def IsLetter (c : ℕ) : Prop := (0x41 ≤ c ∧ c ≤ 0x5A) ∨ (0x61 ≤ c ∧ c ≤ 0x7A)

/-- At most the letters of ASCII are others. -/
structure Keeps (s out : Str) : Prop where
  length_chars : out.chars.length = s.chars.length
  kept : ∀ (i c : ℕ), s.chars[i]? = some c → ¬IsLetter c → out.chars[i]? = some c
  length_bytes : out.bytes.length = s.bytes.length

/-- A byte, or a letter in the place of a letter. -/
def CaseOf (b c : UInt8) : Prop := c = b ∨ (IsLetter b.toNat ∧ IsLetter c.toNat)

theorem caseOf_upper (b : UInt8) : CaseOf b (toAsciiUppercase b) := by
  rw [toAsciiUppercase]
  split
  · next hletter =>
    have hlow := UInt8.le_iff_toNat_le.mp hletter.1
    have hhigh := UInt8.le_iff_toNat_le.mp hletter.2
    have hsub := UInt8.toNat_sub_of_le b 0x20
        (UInt8.le_iff_toNat_le.mpr (Nat.le_trans (by decide) hlow))
    change 0x61 ≤ b.toNat at hlow
    change b.toNat ≤ 0x7A at hhigh
    change (b - 0x20).toNat = b.toNat - 0x20 at hsub
    exact Or.inr ⟨Or.inr ⟨hlow, hhigh⟩, Or.inl (by rw [hsub]; omega)⟩
  · exact Or.inl rfl

theorem caseOf_lower (b : UInt8) : CaseOf b (toAsciiLowercase b) := by
  rw [toAsciiLowercase]
  split
  · next hletter =>
    have hlow := UInt8.le_iff_toNat_le.mp hletter.1
    have hhigh := UInt8.le_iff_toNat_le.mp hletter.2
    change 0x41 ≤ b.toNat at hlow
    change b.toNat ≤ 0x5A at hhigh
    have hadd : (b + 0x20).toNat = b.toNat + 0x20 := by
      rw [UInt8.toNat_add]
      exact Nat.mod_eq_of_lt (by change b.toNat + 0x20 < 256; omega)
    exact Or.inr ⟨Or.inl ⟨hlow, hhigh⟩, Or.inr (by rw [hadd]; omega)⟩
  · exact Or.inl rfl

theorem CaseOf.trans {c d : UInt8} (h : CaseOf b c) (h' : CaseOf c d) : CaseOf b d := by
  rcases h with rfl | ⟨hb, hc⟩
  · exact h'
  · rcases h' with rfl | ⟨-, hd⟩
    · exact Or.inr ⟨hb, hc⟩
    · exact Or.inr ⟨hb, hd⟩

theorem IsLetter.lt {c : ℕ} (h : IsLetter c) : c < 0x80 := by
  rcases h with h | h <;> omega

theorem CaseOf.lt_iff {c : UInt8} (h : CaseOf b c) : c.toNat < 0x80 ↔ b.toNat < 0x80 := by
  rcases h with rfl | ⟨hb, hc⟩
  · exact Iff.rfl
  · exact iff_of_true hc.lt hb.lt

/-- The bytes that a filter takes for the characters of its result. -/
def CaseFilter.image : CaseFilter → Bytes → Bytes
  | upper, l => l.map toAsciiUppercase
  | lower, l => l.map toAsciiLowercase
  | capitalize, [] => []
  | capitalize, b :: l => toAsciiUppercase (toAsciiLowercase b) :: l.map toAsciiLowercase
  | title, l => titleBytes true l

theorem forall₂_titleBytes (newWord : Bool) (l : Bytes) :
    List.Forall₂ CaseOf l (titleBytes newWord l) := by
  induction l generalizing newWord with
  | nil => exact .nil
  | cons b l ih =>
    rw [titleBytes]
    split
    · refine .cons ?_ (ih false)
      split
      · exact caseOf_upper b
      · exact caseOf_lower b
    · exact .cons (Or.inl rfl) (ih true)

theorem forall₂_image (f : CaseFilter) (l : Bytes) : List.Forall₂ CaseOf l (f.image l) := by
  have hmap : ∀ {g : UInt8 → UInt8} (l : Bytes), (∀ b, CaseOf b (g b)) →
      List.Forall₂ CaseOf l (l.map g) := fun l hg =>
    List.forall₂_map_right_iff.mpr (List.forall₂_same.mpr fun b _ => hg b)
  cases f with
  | upper => exact hmap l caseOf_upper
  | lower => exact hmap l caseOf_lower
  | capitalize =>
    cases l with
    | nil => exact .nil
    | cons b l =>
      exact .cons ((caseOf_lower b).trans (caseOf_upper _)) (hmap l caseOf_lower)
  | title => exact forall₂_titleBytes true l

theorem asChars_cons (b : UInt8) (l : Bytes) :
    (asChars (b :: l)).bytes = encodeUtf8 b.toNat ++ (asChars l).bytes := by
  change (b :: l).flatMap (fun b => encodeUtf8 b.toNat) = _
  rw [List.flatMap_cons]
  rfl

theorem encodeUtf8_high (h : 0x80 ≤ b.toNat) : ∃ c d, encodeUtf8 b.toNat = [c, d] ∧
    tail d = true ∧ 0x80 ≤ c.toNat := by
  have hall : ∀ n < 256, 0x80 ≤ n →
      ((encodeUtf8 n).length = 2 ∧ (encodeUtf8 n)[1]?.all tail = true ∧
      (encodeUtf8 n)[0]?.all (fun c => decide (0x80 ≤ c.toNat)) = true) := by
    decide +kernel
  obtain ⟨hlen, htail, hlead⟩ := hall _ b.toNat_lt h
  obtain ⟨c, d, hcd⟩ := List.length_eq_two.mp hlen
  rw [hcd] at htail hlead
  exact ⟨c, d, hcd, htail, of_decide_eq_true hlead⟩

theorem makeFirstUppercase_bytes (h : s.bytes = b :: l) : (makeFirstUppercase s).bytes =
    if startsWithByte (b :: l) then toAsciiUppercase b :: l else b :: l := by
  obtain ⟨bytes, hvalid⟩ := s
  subst h
  simp only [makeFirstUppercase]
  split
  · rfl
  · rfl

theorem makeFirstUppercase_asChars (b : UInt8) (l : Bytes) :
    makeFirstUppercase (asChars (b :: l)) = asChars (toAsciiUppercase b :: l) := by
  refine Str.ext_bytes ?_
  have hcons := asChars_cons b l
  rw [asChars_cons]
  by_cases hb : b.toNat < 0x80
  · rw [encodeUtf8_ascii hb, List.singleton_append] at hcons
    have hstarts : startsWithByte (b :: (asChars l).bytes) = true := by
      have hvalid := (asChars l).valid
      cases hrest : (asChars l).bytes with
      | nil => rfl
      | cons c r =>
        rw [hrest] at hvalid
        rw [startsWithByte, hvalid.head_not_tail]
        rfl
    rw [makeFirstUppercase_bytes hcons, if_pos hstarts, encodeUtf8_ascii (toAsciiUppercase_lt hb)]
    rfl
  · obtain ⟨c, d, hcd, htail, -⟩ := encodeUtf8_high (Nat.le_of_not_lt hb)
    have hupper : toAsciiUppercase b = b := by
      rw [toAsciiUppercase, if_neg]
      rintro ⟨-, hhigh⟩
      have hle : b.toNat ≤ 0x7A := UInt8.le_iff_toNat_le.mp hhigh
      omega
    rw [hcd] at hcons
    rw [makeFirstUppercase_bytes hcons, if_neg, hupper, hcd]
    · rfl
    · change ¬(!tail d) = true
      rw [htail]
      exact Bool.false_ne_true

/-- **What the filters compute**: each byte, or a letter in its place, is the number of a character.
-/
theorem caseFilter_eq (f : CaseFilter) (s : Str) : caseFilter f s =
    if s.bytes.length ≤ maxOutputBytes then .ok (asChars (f.image s.bytes))
    else .error (.limit f.what maxOutputBytes s.bytes.length) := by
  unfold caseFilter checkStrResult
  split
  · next hle =>
    cases f with
    | upper => rfl
    | lower => rfl
    | capitalize =>
      change Except.ok (makeFirstUppercase (asciiLower s)) = _
      congr 1
      rw [asciiLower]
      cases s.bytes with
      | nil => rfl
      | cons b l => exact makeFirstUppercase_asChars _ _
    | title =>
      have hadd : ensureStrAdd 0 s.bytes.length CaseFilter.title.what = .ok (0 + s.bytes.length) :=
        if_pos (by rwa [Nat.zero_add])
      change (ensureStrAdd 0 s.bytes.length CaseFilter.title.what >>= fun _ => _) = _
      rw [hadd]
      rfl
  · rfl

theorem asChars_ascii (h : Ascii l) : (asChars l).bytes = l := by
  induction l with
  | nil => rfl
  | cons b l ih =>
    obtain ⟨hb, hl⟩ := List.forall_mem_cons.mp h
    rw [asChars_cons, encodeUtf8_ascii hb, ih hl, List.singleton_append]

theorem length_asChars (l : Bytes) : (asChars l).bytes.length =
    l.length + l.countP fun b => decide (0x80 ≤ b.toNat) := by
  induction l with
  | nil => rfl
  | cons b l ih =>
    rw [asChars_cons, List.length_append, ih, List.length_cons, List.countP_cons]
    by_cases hb : b.toNat < 0x80
    · rw [encodeUtf8_ascii hb, if_neg (by rw [decide_eq_true_eq]; omega), List.length_singleton]
      omega
    · obtain ⟨c, d, hcd, -⟩ := encodeUtf8_high (Nat.le_of_not_lt hb)
      rw [hcd, if_pos (by rw [decide_eq_true_eq]; omega)]
      change 2 + _ = _
      omega

theorem cptsFromStr_ascii (h : Ascii l) : cptsFromStr l = l.map UInt8.toNat := by
  rw [cptsFromStr]
  induction l with
  | nil => rfl
  | cons b l ih =>
    obtain ⟨hb, hl⟩ := List.forall_mem_cons.mp h
    have hone : decodeOne b l = (b.toNat, 1) := if_pos (UInt8.lt_iff_toNat_lt.mpr hb)
    rw [List.length_cons, cptsLoop, hone, List.map_cons]
    exact congrArg (b.toNat :: ·) (ih hl)

theorem CaseFilter.ascii_image (h : Ascii l) : Ascii (f.image l) := by
  have himage := forall₂_image f l
  intro c hc
  obtain ⟨i, hi, rfl⟩ := List.getElem_of_mem hc
  have hi' : i < l.length := by rwa [himage.length_eq]
  exact ((himage.get hi' hi).lt_iff).mpr (h _ (List.getElem_mem hi'))

theorem keeps_image (h : Ascii s.bytes) : Keeps s (asChars (f.image s.bytes)) := by
  have himage := forall₂_image f s.bytes
  have hbytes := asChars_ascii (f.ascii_image h)
  have hchars : (asChars (f.image s.bytes)).chars = (f.image s.bytes).map UInt8.toNat := by
    rw [Str.chars, hbytes, cptsFromStr_ascii (f.ascii_image h)]
  have hchars' : s.chars = s.bytes.map UInt8.toNat := cptsFromStr_ascii h
  refine ⟨?_, fun i c hi hletter => ?_, ?_⟩
  · rw [hchars, hchars', List.length_map, List.length_map, himage.length_eq]
  · rw [hchars', List.getElem?_map, Option.map_eq_some_iff] at hi
    obtain ⟨b, hi, rfl⟩ := hi
    obtain ⟨hlt, rfl⟩ := getElem?_eq_some_iff.mp hi
    have hlt' : i < (f.image s.bytes).length := by rwa [← himage.length_eq]
    rw [hchars, List.getElem?_map, List.getElem?_eq_getElem hlt', Option.map_some]
    rcases himage.get hlt hlt' with heq | ⟨hb, -⟩
    · exact congrArg (fun b => some (UInt8.toNat b)) heq
    · exact absurd hb hletter
  · rw [hbytes, himage.length_eq]

theorem not_keeps_image (h : ¬Ascii s.bytes) : ¬Keeps s (asChars (f.image s.bytes)) := by
  intro hkeeps
  have himage := forall₂_image f s.bytes
  have hlen := hkeeps.length_bytes
  rw [length_asChars, himage.length_eq] at hlen
  have hzero : ((f.image s.bytes).countP fun b => decide (0x80 ≤ b.toNat)) = 0 := by omega
  refine h fun b hb => ?_
  obtain ⟨i, hi, rfl⟩ := List.getElem_of_mem hb
  have hi' : i < (f.image s.bytes).length := by rwa [← himage.length_eq]
  have hnot := List.countP_eq_zero.mp hzero _ (List.getElem_mem hi')
  rw [decide_eq_true_eq, Nat.not_le] at hnot
  exact ((himage.get hi hi').lt_iff).mp hnot

/-- **The filters keep the characters** of a text of ASCII, and of no other one. -/
theorem caseFilter_keeps (f : CaseFilter) (s : Str) :
    (∀ out, caseFilter f s = .ok out → Keeps s out) ↔
      Ascii s.bytes ∨ maxOutputBytes < s.bytes.length := by
  rw [caseFilter_eq]
  split
  · next hle =>
    rw [or_iff_left (Nat.not_lt.mpr hle)]
    constructor
    · intro h
      by_contra hnot
      exact not_keeps_image hnot (h _ rfl)
    · rintro h out hout
      cases hout
      exact keeps_image h
  · next hle =>
    refine iff_of_true (fun out hout => ?_) (Or.inr (Nat.lt_of_not_le hle))
    cases hout

end Cases

/-! ### Replacing -/

def replaceWhat : String := "template replace bytes"

/-- The characters with a text before the first of them and, if there is a place left, after the
last one. -/
def insertLoop (insertions : ℕ) (new : Bytes) : ℕ → List ℕ → Bytes
  | done, [] => if done < insertions then new else []
  | done, c :: cs =>
    if done < insertions then new ++ (encodeUtf8 c ++ insertLoop insertions new (done + 1) cs)
    else encodeUtf8 c ++ insertLoop insertions new done cs

/-- The number of occurrences that do not overlap, with fuel for each of them. -/
def matchCount (old : Bytes) : ℕ → Bytes → ℕ
  | 0, _ => 0
  | fuel + 1, rest =>
    match findBytes rest old with
    | none => 0
    | some pos => matchCount old fuel (rest.drop (pos + old.length)) + 1

/-- Replaces the first occurrences. -/
def replaceLoop (old new : Bytes) : ℕ → Bytes → Option Bytes
  | 0, rest => some rest
  | reps + 1, rest =>
    match findBytes rest old with
    | none => some rest
    | some pos => do
      let before ← Str.slice (rest.take pos)
      let after ← Str.slice (rest.drop (pos + old.length))
      let out ← replaceLoop old new reps after.bytes
      some (before.bytes ++ (new ++ out))

/-- The least of a count and the number of places, or all of them. -/
def clampCount (count : Int64) (places : ℕ) : ℕ :=
  if count < 0 then places else min count.toInt.toNat places

def insertTotal (s new : Bytes) (insertions : ℕ) : ℕ :=
  saturateUsize (s.length + saturateUsize (insertions * new.length))

def replaceTotal (s old new : Bytes) (reps : ℕ) : ℕ :=
  if old.length ≤ new.length then
    saturateUsize (s.length + saturateUsize (reps * (new.length - old.length)))
  else s.length - saturateUsize (reps * (old.length - new.length))

/-- The bytes of a string with some of the occurrences of another one replaced. -/
def filterReplace (s old new : Str) (count : Int64) : Lexing Bytes :=
  if count = 0 then do
    let _ ← (checkStrResult s.bytes.length replaceWhat : Except TemplateError Unit)
    pure s.bytes
  else if old.bytes.isEmpty then
    if new.bytes.isEmpty then do
      let _ ← (checkStrResult s.bytes.length replaceWhat : Except TemplateError Unit)
      pure s.bytes
    else do
      let boundaries := s.chars.length + 1
      let insertions := clampCount count boundaries
      let total ← (checkStrTotal (insertTotal s.bytes new.bytes insertions) replaceWhat :
        Except TemplateError ℕ)
      let _ ← (ensureStrAdd 0 total replaceWhat : Except TemplateError ℕ)
      pure (insertLoop insertions new.bytes 0 s.chars)
  else do
    let occurrences := matchCount old.bytes s.bytes.length s.bytes
    let reps := clampCount count occurrences
    let total ← (checkStrTotal (replaceTotal s.bytes old.bytes new.bytes reps) replaceWhat :
      Except TemplateError ℕ)
    let _ ← (ensureStrAdd 0 total replaceWhat : Except TemplateError ℕ)
    let out ← (replaceLoop old.bytes new.bytes reps s.bytes : Option Bytes)
    pure out

section Replace

variable {s old new : Str} {count : Int64} {bytes needle text : Bytes} {ps : List ℕ} {fuel : ℕ}

/-- The places of the first occurrences, or of all of them. -/
def firstOf (count : Int64) (ps : List ℕ) : List ℕ :=
  if count < 0 then ps else ps.take count.toInt.toNat

theorem firstOf_eq (count : Int64) (ps : List ℕ) :
    firstOf count ps = ps.take (clampCount count ps.length) := by
  rw [firstOf, clampCount]
  split
  · exact List.take_length.symm
  · rw [List.take_eq_take_iff]
    omega

theorem clampCount_le (count : Int64) (places : ℕ) : clampCount count places ≤ places := by
  rw [clampCount]
  split
  · exact le_rfl
  · exact Nat.min_le_right _ _

/-- The places before the characters and at the end. -/
def boundaries (chars : List ℕ) : List ℕ :=
  (List.range (chars.length + 1)).map fun i => ((chars.take i).flatMap encodeUtf8).length

theorem boundaries_nil : boundaries [] = [0] := rfl

theorem boundaries_cons (c : ℕ) (cs : List ℕ) :
    boundaries (c :: cs) = 0 :: (boundaries cs).map ((encodeUtf8 c).length + ·) := by
  rw [boundaries, List.length_cons, List.range_succ_eq_map, List.map_cons, boundaries, List.map_map,
    List.map_map]
  congr 1
  refine List.map_congr_left fun i _ => ?_
  change (((c :: cs).take (i + 1)).flatMap encodeUtf8).length = _
  rw [List.take_succ_cons, List.flatMap_cons, List.length_append]
  rfl

theorem insertLoop_eq (insertions done : ℕ) (chars : List ℕ) :
    insertLoop insertions text done chars =
      replaceAt (chars.flatMap encodeUtf8) 0 text 0 ((boundaries chars).take (insertions - done)) :=
        by
  induction chars generalizing done with
  | nil =>
    rw [insertLoop, boundaries_nil]
    split
    · next hlt =>
      rw [List.take_of_length_le (by rw [List.length_singleton]; omega)]
      rw [replaceAt, replaceAt]
      simp
    · next hle =>
      rw [Nat.sub_eq_zero_of_le (Nat.le_of_not_lt hle)]
      rfl
  | cons c cs ih =>
    have hshift : ∀ n, replaceAt ((c :: cs).flatMap encodeUtf8) 0 text 0
        (((boundaries cs).map ((encodeUtf8 c).length + ·)).take n) =
        encodeUtf8 c ++ replaceAt (cs.flatMap encodeUtf8) 0 text 0 ((boundaries cs).take n) := by
      intro n
      have hskip := @replaceAt_skip _ ((c :: cs).flatMap encodeUtf8) 0
        (((boundaries cs).take n).map ((encodeUtf8 c).length + ·)) text 0 (encodeUtf8 c).length
        (fun p hp => by
          obtain ⟨q, -, rfl⟩ := List.mem_map.mp hp
          omega)
      rw [← List.map_take, hskip, List.drop_zero, List.flatMap_cons, List.take_left, Nat.zero_add]
      exact congrArg (encodeUtf8 c ++ ·) (replaceAt_shift 0 _)
    rw [insertLoop, boundaries_cons]
    split
    · next hlt =>
      obtain ⟨n, hn⟩ : ∃ n, insertions - done = n + 1 := ⟨insertions - done - 1, by omega⟩
      have hn' : insertions - (done + 1) = n := by omega
      rw [ih, hn, hn', List.take_succ_cons, replaceAt, hshift]
      simp
    · next hle =>
      have hzero : insertions - done = 0 := by omega
      rw [ih, hzero, List.take_zero, List.take_zero, replaceAt, replaceAt, List.drop_zero,
        List.drop_zero, List.flatMap_cons]

theorem valid_insertLoop {chars : List ℕ} (htext : Valid text)
    (h : ∀ c ∈ chars, Valid (encodeUtf8 c)) (insertions done : ℕ) :
    Valid (insertLoop insertions text done chars) := by
  induction chars generalizing done with
  | nil =>
    rw [insertLoop]
    split
    · exact htext
    · exact valid_nil
  | cons c cs ih =>
    obtain ⟨hc, hcs⟩ := List.forall_mem_cons.mp h
    rw [insertLoop]
    split
    · exact htext.append_iff.mpr (hc.append_iff.mpr (ih hcs _))
    · exact hc.append_iff.mpr (ih hcs _)

theorem replaceLoop_none (h : findBytes bytes needle = none) (n : ℕ) :
    replaceLoop needle text n bytes = some bytes := by
  cases n with
  | zero => rfl
  | succ n => rw [replaceLoop, h]

/-- **One by one, the leftmost occurrences are counted and replaced**: nothing is cut inside of a
character. -/
theorem replaceLoop_spec (hneedle : Valid needle) (hne : needle ≠ []) (htext : Valid text)
    (hvalid : Valid bytes) (hfuel : bytes.length ≤ fuel) : ∃ ps, Leftmost needle bytes 0 ps ∧
      matchCount needle fuel bytes = ps.length ∧ ∀ n,
        replaceLoop needle text n bytes = some (replaceAt bytes needle.length text 0 (ps.take n)) ∧
        Valid (replaceAt bytes needle.length text 0 (ps.take n)) := by
  have hnone : findBytes bytes needle = none → Leftmost needle bytes 0 [] := fun hfind =>
    .none fun p _ => findBytes_eq_none hne hfind p
  induction fuel generalizing bytes with
  | zero =>
    have hnil : bytes = [] := List.length_eq_zero_iff.mp (Nat.le_zero.mp hfuel)
    have hfind : findBytes bytes needle = none := by
      rw [hnil, findBytes, if_pos]
      rw [Bool.or_eq_true, decide_eq_true_eq]
      exact Or.inr (List.length_pos_iff.mpr hne)
    refine ⟨[], hnone hfind, rfl, fun n => ⟨?_, ?_⟩⟩
    · rw [replaceLoop_none hfind, List.take_nil]
      rfl
    · rw [List.take_nil]
      exact hvalid
  | succ fuel ih =>
    cases hfind : findBytes bytes needle with
    | none =>
      refine ⟨[], hnone hfind, by rw [matchCount, hfind]; rfl, fun n => ⟨?_, ?_⟩⟩
      · rw [replaceLoop_none hfind, List.take_nil]
        rfl
      · rw [List.take_nil]
        exact hvalid
    | some m =>
      obtain ⟨hbefore, hafter, hsplit⟩ := parts_of_find hneedle hvalid hfind
      obtain ⟨-, hle, hfirst⟩ := findBytes_eq_some hfind
      have hpos : 0 < needle.length := List.length_pos_iff.mpr hne
      have hm : (bytes.take m).length = m := List.length_take_of_le (by omega)
      obtain ⟨ps, hleft, hcount, hloop⟩ := ih hafter (by rw [List.length_drop]; omega)
        fun hnone => .none fun p _ => findBytes_eq_none hne hnone p
      have hcons := @Leftmost.cons _ needle (bytes.drop (m + needle.length)) (bytes.take m) ps
      rw [← hsplit, hm] at hcons
      refine ⟨m :: ps.map (m + needle.length + ·), hcons hfirst hleft, ?_, fun n => ?_⟩
      · rw [matchCount, hfind, List.length_cons, List.length_map]
        exact congrArg (· + 1) hcount
      · cases n with
        | zero => exact ⟨rfl, hvalid⟩
        | succ n =>
          obtain ⟨hrest, hrestvalid⟩ := hloop n
          have hreplace := @replaceAt_cons _ needle (bytes.drop (m + needle.length)) (bytes.take m)
            (ps.take n) text needle.length rfl
          rw [← hsplit, hm] at hreplace
          rw [List.take_succ_cons, ← List.map_take, hreplace]
          refine ⟨?_, hbefore.append_iff.mpr (htext.append_iff.mpr hrestvalid)⟩
          rw [replaceLoop, hfind]
          simp only [Str.slice, dif_pos hbefore, dif_pos hafter, Option.bind_eq_bind,
            Option.bind_some, hrest]

/-! ### The size of the result -/

theorem saturateUsize_of_lt {n : ℕ} (h : n < 2 ^ 64) : saturateUsize n = n :=
  Nat.min_eq_left (by omega)

theorem saturateUsize_add (m n : ℕ) : saturateUsize (m + saturateUsize n) =
    saturateUsize (m + n) := by
  rw [saturateUsize, saturateUsize, saturateUsize]
  omega

theorem saturateUsize_le_iff {n : ℕ} : saturateUsize n ≤ maxOutputBytes ↔ n ≤ maxOutputBytes := by
  have hmax : maxOutputBytes < 2 ^ 64 - 1 := by decide
  rw [saturateUsize]
  omega

theorem length_insertLoop (insertions done : ℕ) (chars : List ℕ) :
    (insertLoop insertions text done chars).length = (chars.flatMap encodeUtf8).length +
      min (insertions - done) (chars.length + 1) * text.length := by
  induction chars generalizing done with
  | nil =>
    rw [insertLoop]
    split
    · next hlt =>
      have hone : min (insertions - done) (([] : List ℕ).length + 1) = 1 := by
        rw [List.length_nil]
        omega
      rw [hone, Nat.one_mul]
      exact (Nat.zero_add _).symm
    · next hle =>
      rw [Nat.sub_eq_zero_of_le (Nat.le_of_not_lt hle), Nat.zero_min, Nat.zero_mul]
      rfl
  | cons c cs ih =>
    rw [insertLoop, List.flatMap_cons, List.length_append]
    split
    · next hlt =>
      have hmin : min (insertions - done) ((c :: cs).length + 1) =
          min (insertions - (done + 1)) (cs.length + 1) + 1 := by
        rw [List.length_cons]
        omega
      rw [List.length_append, List.length_append, ih, hmin, Nat.succ_mul]
      omega
    · next hle =>
      have hzero : insertions - done = 0 := by omega
      rw [List.length_append, ih, hzero, Nat.zero_min, Nat.zero_min]
      omega

theorem insertTotal_eq (s : Str) (insertions : ℕ) (h : insertions ≤ s.chars.length + 1) :
    insertTotal s.bytes text insertions =
      saturateUsize (insertLoop insertions text 0 s.chars).length := by
  rw [insertTotal, saturateUsize_add, length_insertLoop, Nat.sub_zero, Nat.min_eq_left h, Str.chars,
    cptsFromStr_encode s.valid]

theorem insertLoop_nil (insertions done : ℕ) (chars : List ℕ) :
    insertLoop insertions [] done chars = chars.flatMap encodeUtf8 := by
  induction chars generalizing done with
  | nil =>
    rw [insertLoop, ite_self]
    rfl
  | cons c cs ih => rw [insertLoop, ih, ih, List.nil_append, ite_self, List.flatMap_cons]

theorem replaceTotal_eq (hlen : bytes.length < 2 ^ 64) (hne : needle ≠ [])
    (h : Leftmost needle bytes 0 ps) (n : ℕ) :
    replaceTotal bytes needle text (ps.take n).length =
      saturateUsize (replaceAt bytes needle.length text 0 (ps.take n)).length := by
  obtain ⟨hpairwise, hbounds⟩ := h.bounds hne
  have hin : ∀ p ∈ ps.take n, 0 ≤ p ∧ p + needle.length ≤ bytes.length := fun p hp =>
    hbounds p (List.mem_of_mem_take hp)
  have hlength := @length_replaceAt _ bytes 0 (ps.take n) text needle.length
    (hpairwise.sublist (List.take_sublist n ps)) (fun p hp => (hin p hp).1)
    (fun p hp => (hin p hp).2) (Nat.zero_le _)
  generalize (ps.take n).length = reps at hlength ⊢
  rw [replaceTotal]
  split
  · next hle =>
    have hmul := Nat.mul_le_mul_left reps hle
    rw [saturateUsize_add, Nat.mul_sub]
    congr 1
    omega
  -- what is removed is not longer than the text, so that nothing is cut off
  · next hlt =>
    have hmul := Nat.mul_le_mul_left reps (Nat.le_of_not_le hlt)
    have hremoved : reps * (needle.length - text.length) ≤ bytes.length := by
      rw [Nat.mul_sub]
      omega
    rw [saturateUsize_of_lt (hremoved.trans_lt hlen), saturateUsize_of_lt, Nat.mul_sub]
    · omega
    · omega

/-! ### What is replaced -/

/-- The places of a text in another one: an empty text is before each character and at the end. -/
def Places (old s : Str) (ps : List ℕ) : Prop :=
  (old.bytes = [] → ps = boundaries s.chars) ∧
    (old.bytes ≠ [] → Leftmost old.bytes s.bytes 0 ps)

/-- The size that is computed before anything is replaced. -/
def preflight (s old new : Str) (count : Int64) : ℕ :=
  if count = 0 then s.bytes.length
  else if old.bytes.isEmpty then
    if new.bytes.isEmpty then s.bytes.length
    else insertTotal s.bytes new.bytes (clampCount count (s.chars.length + 1))
  else
    replaceTotal s.bytes old.bytes new.bytes
      (clampCount count (matchCount old.bytes s.bytes.length s.bytes))

/-- The result of replacing the first occurrences, of the size that was computed before. -/
structure Replaced (s old new : Str) (count : Int64) (out : Str) : Prop where
  bytes_eq : ∃ ps, Places old s ps ∧
    out.bytes = replaceAt s.bytes old.bytes.length new.bytes 0 (firstOf count ps)
  preflight_eq : preflight s old new count = saturateUsize out.bytes.length

/-- The result, or the refusal of its size. -/
def sized (out : Bytes) : Except TemplateError Bytes :=
  if out.length ≤ maxOutputBytes then .ok out
  else .error (.limit replaceWhat maxOutputBytes (saturateUsize out.length))

theorem exists_occurrences (old s : Str) : ∃ ps, Places old s ps := by
  by_cases hne : old.bytes = []
  · exact ⟨_, fun _ => rfl, fun h => absurd hne h⟩
  · obtain ⟨ps, hleft, -⟩ :=
        @replaceLoop_spec s.bytes old.bytes [] _ old.valid hne valid_nil s.valid
      le_rfl
    exact ⟨ps, fun h => absurd h hne, fun _ => hleft⟩

theorem check_same (hlen : s.bytes.length < 2 ^ 64) :
    (do
      let _ ← (checkStrResult s.bytes.length replaceWhat : Except TemplateError Unit)
      pure s.bytes : Lexing Bytes).run = some (sized s.bytes) := by
  rw [checkStrResult, sized, saturateUsize_of_lt hlen]
  split
  · rfl
  · rfl

theorem check_total {out : Bytes} {total : ℕ} {run : Lexing Bytes}
    (htotal : total = saturateUsize out.length) (hrun : run.run = some (.ok out)) :
    (do
      let total ← (checkStrTotal total replaceWhat : Except TemplateError ℕ)
      let _ ← (ensureStrAdd 0 total replaceWhat : Except TemplateError ℕ)
      run : Lexing Bytes).run = some (sized out) := by
  subst htotal
  by_cases hle : out.length ≤ maxOutputBytes
  · have hle' := saturateUsize_le_iff.mpr hle
    have hadd : ensureStrAdd 0 (saturateUsize out.length) replaceWhat =
        .ok (0 + saturateUsize out.length) := if_pos (by rwa [Nat.zero_add])
    rw [checkStrTotal, if_pos hle', sized, if_pos hle]
    change (do
      let _ ← (ensureStrAdd 0 (saturateUsize out.length) replaceWhat : Except TemplateError ℕ)
      run : Lexing Bytes).run = _
    rw [hadd]
    exact hrun
  · rw [checkStrTotal, if_neg (mt saturateUsize_le_iff.mp hle), sized, if_neg hle]
    rfl

/-- **What `replace` computes**, or refuses for its size. -/
theorem filterReplace_spec (hlen : s.bytes.length < 2 ^ 64) :
    ∃ out, Replaced s old new count out ∧
      (filterReplace s old new count).run = some (sized out.bytes) := by
  obtain ⟨ps, hps⟩ := exists_occurrences old s
  by_cases hzero : count = 0
  · refine ⟨s, ⟨⟨ps, hps, ?_⟩, ?_⟩, ?_⟩
    · subst hzero
      rfl
    · rw [preflight, if_pos hzero, saturateUsize_of_lt hlen]
    · rw [filterReplace, if_pos hzero]
      exact check_same hlen
  by_cases hold : old.bytes = []
  · obtain rfl := hps.1 hold
    have hempty : old.bytes.isEmpty = true := List.isEmpty_iff.mpr hold
    have hlength : (boundaries s.chars).length = s.chars.length + 1 := by
      rw [boundaries, List.length_map, List.length_range]
    have hinsert := @insertLoop_eq new.bytes (clampCount count (s.chars.length + 1)) 0 s.chars
    rw [Nat.sub_zero, ← hlength, ← firstOf_eq, Str.chars, cptsFromStr_encode s.valid, ← Str.chars,
      hlength] at hinsert
    by_cases hnew : new.bytes = []
    · have hempty' : new.bytes.isEmpty = true := List.isEmpty_iff.mpr hnew
      refine ⟨s, ⟨⟨_, hps, ?_⟩, ?_⟩, ?_⟩
      · rw [hold, List.length_nil, ← hinsert, hnew, insertLoop_nil, Str.chars,
          cptsFromStr_encode s.valid]
      · rw [preflight, if_neg hzero, if_pos hempty, if_pos hempty', saturateUsize_of_lt hlen]
      · rw [filterReplace, if_neg hzero, if_pos hempty, if_pos hempty']
        exact check_same hlen
    · have hempty' : ¬new.bytes.isEmpty = true := mt List.isEmpty_iff.mp hnew
      have hle := clampCount_le count (s.chars.length + 1)
      have hchars : ∀ c ∈ s.chars, Valid (encodeUtf8 c) := (cptsLoop_spec le_rfl s.valid).2
      refine ⟨⟨_, valid_insertLoop new.valid hchars
        (clampCount count (s.chars.length + 1)) 0⟩, ⟨⟨_, hps, ?_⟩, ?_⟩, ?_⟩
      · rw [hold, List.length_nil]
        exact hinsert
      · rw [preflight, if_neg hzero, if_pos hempty, if_neg hempty']
        exact insertTotal_eq s _ hle
      · rw [filterReplace, if_neg hzero, if_pos hempty, if_neg hempty']
        exact check_total (insertTotal_eq s _ hle) rfl
  · have hempty : ¬old.bytes.isEmpty = true := mt List.isEmpty_iff.mp hold
    obtain ⟨qs, hleft, hcount, hloop⟩ := replaceLoop_spec old.valid hold new.valid s.valid le_rfl
    have hfirst := firstOf_eq count qs
    have htotal := @replaceTotal_eq s.bytes old.bytes new.bytes qs hlen hold hleft
      (clampCount count qs.length)
    obtain ⟨hrun, hvalid⟩ := hloop (clampCount count qs.length)
    have hreps : (qs.take (clampCount count qs.length)).length = clampCount count qs.length :=
      List.length_take_of_le (clampCount_le count qs.length)
    rw [hreps] at htotal
    rw [← hcount] at hfirst hrun hvalid htotal
    refine ⟨⟨_, hvalid⟩, ⟨⟨qs, ⟨fun h => absurd h hold, fun _ => hleft⟩, ?_⟩, ?_⟩, ?_⟩
    · rw [hfirst]
    · rw [preflight, if_neg hzero, if_neg hempty]
      exact htotal
    · rw [filterReplace, if_neg hzero, if_neg hempty]
      refine check_total htotal ?_
      rw [hrun]
      rfl

/-- **Filters of strings.** Those that change the case of letters keep the characters of texts of
ASCII, and `replace` puts a text in the place of the first occurrences of another one. -/
theorem string_filters (s old new : Str) (count : Int64) (hlen : s.bytes.length < 2 ^ 64) :
    (∀ f, (∀ out, caseFilter f s = .ok out → Keeps s out) ↔
      Ascii s.bytes ∨ maxOutputBytes < s.bytes.length) ∧
    ∃ out, Replaced s old new count out ∧
      (filterReplace s old new count).run = some (sized out.bytes) :=
  ⟨fun f => caseFilter_keeps f s, filterReplace_spec hlen⟩

def eAcute : Str := ⟨[0xC3, 0xA9], by decide⟩

/-- A letter with an accent is not kept: its bytes become two characters. -/
theorem upper_eAcute : ¬∀ (f : CaseFilter) (s out : Str), caseFilter f s = .ok out →
    Keeps s out := by
  intro hkeeps
  have hiff := (caseFilter_keeps .upper eAcute).mp fun out => hkeeps _ _ out
  rcases hiff with hascii | hlong
  · exact absurd (hascii 0xC3 List.mem_cons_self) (by decide)
  · exact absurd hlong (by decide)

theorem string_filters_eAcute : ∃ out, Replaced eAcute ⟨[], valid_nil⟩ ⟨[0x2D], by decide⟩ 2 out ∧
    (filterReplace eAcute ⟨[], valid_nil⟩ ⟨[0x2D], by decide⟩ 2).run = some (sized out.bytes) :=
  (string_filters eAcute ⟨[], valid_nil⟩ ⟨[0x2D], by decide⟩ 2 (by decide)).2

end Replace


end R9v.Template

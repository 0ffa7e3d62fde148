import R9v.Format.Value
import Mathlib

/-!
# Unicode primitives

The functions of `r9v-loader/src/unicode.rs` that tokenizing and detokenizing are built
on: decoding and encoding one character, the map of GPT-2 between bytes and characters,
and the pass of WordPiece over spaces. Text is the list of its bytes. The tables of
`unicode_tables.rs` are a parameter, `UnicodeTables`: nothing here depends on what they
say.
-/

namespace R9v

/-- The tables of `unicode_tables.rs`, as the functions that look them up. -/
structure UnicodeTables where
  flagsOf : ℕ → ℕ
  isWhitespace : ℕ → Bool
  toLower : ℕ → ℕ
  nfdBase : ℕ → ℕ

namespace UnicodeTables

variable (u : UnicodeTables)

def hasFlag (flag cpt : ℕ) : Bool := u.flagsOf cpt &&& flag != 0

def isNumber (cpt : ℕ) : Bool := u.hasFlag 0x2 cpt

def isLetter (cpt : ℕ) : Bool := u.hasFlag 0x4 cpt

def isAccentMark (cpt : ℕ) : Bool := u.hasFlag 0x10 cpt

def isPunctuation (cpt : ℕ) : Bool := u.hasFlag 0x20 cpt

def isSymbol (cpt : ℕ) : Bool := u.hasFlag 0x40 cpt

def isControl (cpt : ℕ) : Bool := u.hasFlag 0x80 cpt

end UnicodeTables

/-- The ranges of the characters that WordPiece takes for Chinese ones. -/
def isChineseChar (cpt : ℕ) : Bool :=
  [(0x04E00, 0x09FFF), (0x03400, 0x04DBF), (0x20000, 0x2A6DF), (0x2A700, 0x2B73F),
    (0x2B740, 0x2B81F), (0x2B920, 0x2CEAF), (0x0F900, 0x0FAFF), (0x2F800, 0x2FA1F)].any
    fun r => r.1 ≤ cpt && cpt ≤ r.2

/-! ### One character -/

/-- Appends the six bits of each tail byte to a character. -/
def decodeTails (cpt : ℕ) : Bytes → Option ℕ
  | [] => some cpt
  | b :: l =>
    if b &&& 0xC0 ≠ 0x80 then none else decodeTails (cpt <<< 6 ||| (b &&& 0x3F).toNat) l

/-- The least character that a lead byte is for, and the number of its bytes. -/
def leadOf (b0 : UInt8) : Option (ℕ × ℕ) :=
  if b0 ≥ 0xF0 then some (0x10000, 4)
  else if b0 ≥ 0xE0 then some (0x800, 3)
  else if b0 ≥ 0xC0 then some (0x80, 2)
  else none

/-- Decodes the character that starts with the byte `b0`: the character, and the number of
its bytes. What is no character is U+FFFD, of one byte. -/
def decodeOne (b0 : UInt8) (rest : Bytes) : ℕ × ℕ :=
  if b0 < 0x80 then (b0.toNat, 1)
  else
    match leadOf b0 with
    | none => (0xFFFD, 1)
    | some (least, len) =>
      if rest.length + 1 < len then (0xFFFD, 1)
      else
        match decodeTails (b0.toNat &&& (0xFF >>> (len + 1))) (rest.take (len - 1)) with
        | none => (0xFFFD, 1)
        | some cpt =>
          if cpt < least ∨ 0x10FFFF < cpt ∨ (0xD800 ≤ cpt ∧ cpt < 0xE000) then (0xFFFD, 1)
          else (cpt, len)

/-- The characters of a text, with fuel for its bytes. -/
def cptsLoop : ℕ → Bytes → List ℕ
  | _, [] => []
  | 0, _ :: _ => []
  | fuel + 1, b :: l => (decodeOne b l).1 :: cptsLoop fuel (l.drop ((decodeOne b l).2 - 1))

/-- The characters of a text. -/
def cptsFromStr (text : Bytes) : List ℕ := cptsLoop text.length text

/-- The bytes of a character. -/
def encodeUtf8 (cpt : ℕ) : Bytes :=
  if cpt < 0x80 then [UInt8.ofNat cpt]
  else if cpt < 0x800 then
    [UInt8.ofNat (0xC0 ||| cpt >>> 6), UInt8.ofNat (0x80 ||| (cpt &&& 0x3F))]
  else if cpt < 0x10000 then
    [UInt8.ofNat (0xE0 ||| cpt >>> 12), UInt8.ofNat (0x80 ||| (cpt >>> 6 &&& 0x3F)),
      UInt8.ofNat (0x80 ||| (cpt &&& 0x3F))]
  else
    [UInt8.ofNat (0xF0 ||| cpt >>> 18), UInt8.ofNat (0x80 ||| (cpt >>> 12 &&& 0x3F)),
      UInt8.ofNat (0x80 ||| (cpt >>> 6 &&& 0x3F)), UInt8.ofNat (0x80 ||| (cpt &&& 0x3F))]

/-! ### The map of GPT-2 -/

/-- The bytes that stand for themselves. -/
def printable (b : ℕ) : Bool :=
  (0x21 ≤ b && b ≤ 0x7E) || (0xA1 ≤ b && b ≤ 0xAC) || (0xAE ≤ b && b ≤ 0xFF)

/-- The bytes that do not, in order. -/
def unprintables : List ℕ := (List.range 256).filter fun b => !printable b

/-- The character of a byte. -/
def byteToUnicodeChar (byte : UInt8) : ℕ :=
  if printable byte.toNat then byte.toNat else 256 + unprintables.idxOf byte.toNat

/-- The byte of a character, if it is that of one. -/
def unicodeCharToByte (cpt : ℕ) : Option UInt8 :=
  if printable cpt then some (UInt8.ofNat cpt)
  else if 256 ≤ cpt ∧ cpt < 512 then unprintables[cpt - 256]?.map UInt8.ofNat
  else none

/-- The text of some bytes, one character for each. -/
def byteEncode (bytes : Bytes) : Bytes := bytes.flatMap fun b => encodeUtf8 (byteToUnicodeChar b)

/-- The bytes of a text; a character that is that of no byte stays. -/
def byteDecodePiece (piece : Bytes) : Bytes :=
  (cptsFromStr piece).flatMap fun c =>
    match unicodeCharToByte c with
    | some b => [b]
    | none => encodeUtf8 c

/-! ### The spaces of WordPiece -/

/-- The first pass: a space before one of four marks is dropped. -/
def cleanFirst : Bytes → Bytes
  | [] => []
  | [b] => [b]
  | b :: c :: l =>
    if b = 0x20 ∧ (c = 0x3F ∨ c = 0x21 ∨ c = 0x2E ∨ c = 0x2C) then cleanFirst (c :: l)
    else b :: cleanFirst (c :: l)

/-- The character that ends before a place: the bytes before it, the last one first. -/
def decodePrev (before after : Bytes) : Option ℕ :=
  match before with
  | [] => none
  | _ :: _ =>
    let conts := before.dropLast.takeWhile (· &&& 0xC0 = 0x80)
    match before.drop conts.length with
    | [] => none
    | b :: _ => some (decodeOne b (conts.reverse ++ after)).1

/-- The character that starts at a place. -/
def decodeNext (after : Bytes) : Option ℕ :=
  match after with
  | [] => none
  | b :: l => some (decodeOne b l).1

/-- The second pass: spaces become one, and none beside a Chinese character. `before` is
what stands before, the last byte first. -/
def cleanSecond : ℕ → Bytes → Bytes → Bytes
  | 0, _, _ => []
  | _, _, [] => []
  | fuel + 1, before, b :: l =>
    if b = 0x20 then
      let run := (b :: l).takeWhile (· = 0x20)
      let after := (b :: l).drop run.length
      let chinese := (decodePrev before (b :: l)).any isChineseChar ||
        (decodeNext after).any isChineseChar
      let rest := cleanSecond fuel (run ++ before) after
      if chinese then rest else 0x20 :: rest
    else b :: cleanSecond fuel (b :: before) l

/-- The pass of WordPiece over the spaces of a text. -/
def cleanSpaces (text : Bytes) : Bytes :=
  let first := cleanFirst text
  cleanSecond first.length [] first

end R9v

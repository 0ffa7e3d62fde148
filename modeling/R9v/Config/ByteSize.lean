import R9v.Config.Text

/-!
# Byte sizes

The parser of byte sizes (`r9v-common/src/bytes.rs`): a number, which may have a point, and a unit.
-/

namespace R9v

open Checked Text

/-- What is wrong with a byte size. -/
inductive ByteSizeError
  | empty
  | missingNumber (input : String)
  | invalidNumber (input reason : String)
  | negative (input : String)
  | fractionalByte (input : String)
  | unknownUnit (unit input : String)
  | overflow (input : String)
  | trailingCharacters (trailing input : String)
  deriving DecidableEq

/-- The factor of a unit. -/
def unitMultiplier (unit : List Char) : Option ℕ :=
  match String.ofList (unit.map asciiLower) with
  | "" | "b" | "bytes" | "byte" => some 1
  | "k" | "kb" | "kib" => some (1024 ^ 1)
  | "m" | "mb" | "mib" => some (1024 ^ 2)
  | "g" | "gb" | "gib" => some (1024 ^ 3)
  | "t" | "tb" | "tib" => some (1024 ^ 4)
  | "p" | "pb" | "pib" => some (1024 ^ 5)
  | _ => none

/-- The digits and the point at the front of a text, and what follows; nothing where a second point
comes. -/
def scanNumber : Bool → List Char → Option (List Char × List Char)
  | _, [] => some ([], [])
  | hasDot, c :: s =>
    if isDigit c then (scanNumber hasDot s).map fun (num, rest) => (c :: num, rest)
    else if c = '.' then
      if hasDot then none else (scanNumber true s).map fun (num, rest) => (c :: num, rest)
    else some ([], c :: s)

/-- The error for a part of the number that cannot be read. -/
def numberError (input : String) : IntError → ByteSizeError
  | .posOverflow => .overflow input
  | .empty => .invalidNumber input "cannot parse integer from empty string"
  | .invalidDigit => .invalidNumber input "invalid digit found in string"
  | .negOverflow => .invalidNumber input "number too small to fit in target type"

/-- The unit, and nothing after it but white space. -/
def scanUnit (input : String) (remainder : List Char) : Except ByteSizeError (List Char) := do
  let unit := remainder.takeWhile fun c => !isWhite c
  let trailing := trim (remainder.dropWhile fun c => !isWhite c)
  ensure (trailing = []) (.trailingCharacters (String.ofList trailing) input)
  pure unit

/-- The bytes of the digits after the point. -/
def fractionBytes (input : String) (multiplier : ℕ) (fraction : List Char) :
    Except ByteSizeError ℕ :=
  if fraction = [] then pure 0
  else do
    ensure (fraction.length ≤ 28) (.fractionalByte input)
    let value ← (parseU128 fraction).mapError (numberError input)
    let pow10 ← okOr (narrow 128 (10 ^ fraction.length)) (.overflow input)
    let numerator ← okOr (mul 128 value multiplier) (.overflow input)
    ensure (numerator % pow10 = 0) (.fractionalByte input)
    pure (numerator / pow10)

/-- The bytes of a number times a unit. -/
def sizeBytes (input : String) (multiplier : ℕ) (num : List Char) : Except ByteSizeError ℕ :=
  match splitOnce ['.'] num with
  | some (int, frac) => do
    ensure (int ≠ []) (.missingNumber input)
    let value ← (parseU128 int).mapError (numberError input)
    let fraction ← fractionBytes input multiplier (trimEndMatches (· == '0') frac)
    let bytes ← okOr (mul 128 value multiplier) (.overflow input)
    let total ← okOr (add 128 bytes fraction) (.overflow input)
    okOr (narrow 64 total) (.overflow input)
  | none => do
    let value ← (parseU128 num).mapError (numberError input)
    let total ← okOr (mul 128 value multiplier) (.overflow input)
    okOr (narrow 64 total) (.overflow input)

/-- Parses a byte size. -/
def parseByteSize (input : String) : Except ByteSizeError ℕ := do
  let trimmed := trim input.toList
  ensure (trimmed ≠ []) .empty
  ensure (trimmed.head? ≠ some '-') (.negative input)
  let (num, rest) ← okOr (scanNumber false trimmed)
    (.invalidNumber input "multiple decimal points encountered")
  ensure (num.any isDigit) (.missingNumber input)
  let unit ← scanUnit input (trimStartMatches isWhite rest)
  let multiplier ← okOr (unitMultiplier unit) (.unknownUnit (String.ofList unit) input)
  sizeBytes input multiplier num

example : parseByteSize " 1.5 KiB" = .ok 1536 := by decide

end R9v

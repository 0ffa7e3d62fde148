import Mathlib.Data.Nat.Basic

/-!
# UTF-8 text

Text as the list of its bytes. `Utf8.valid` decides whether a list of bytes is
well-formed UTF-8, with the byte ranges of the Unicode standard; a character starts
at every byte that is not a tail byte.
-/

namespace Utf8

/-- A byte that continues a character. -/
def isTail (b : ℕ) : Bool := 0x80 ≤ b && b ≤ 0xBF

/-- The range of the second byte after a lead byte, and the number of tail bytes
after that one. -/
def second (lead : ℕ) : Option ((ℕ × ℕ) × ℕ) :=
  if 0xC2 ≤ lead ∧ lead ≤ 0xDF then some ((0x80, 0xBF), 0)
  else if lead = 0xE0 then some ((0xA0, 0xBF), 1)
  else if lead = 0xED then some ((0x80, 0x9F), 1)
  else if 0xE1 ≤ lead ∧ lead ≤ 0xEF then some ((0x80, 0xBF), 1)
  else if lead = 0xF0 then some ((0x90, 0xBF), 2)
  else if 0xF1 ≤ lead ∧ lead ≤ 0xF3 then some ((0x80, 0xBF), 2)
  else if lead = 0xF4 then some ((0x80, 0x8F), 2)
  else none

/-- Whether the bytes are the second and later bytes of a character with this lead
byte, followed by what `rest` accepts. -/
def validTail (lead : ℕ) : List ℕ → Option (List ℕ)
  | [] => none
  | b :: l =>
    match second lead with
    | none => none
    | some ((low, high), n) =>
      if low ≤ b ∧ b ≤ high ∧ n ≤ l.length ∧ (l.take n).all isTail then some (l.drop n) else none

/-- Whether the bytes are well-formed UTF-8, with fuel for the characters. -/
def validFuel : ℕ → List ℕ → Bool
  | _, [] => true
  | 0, _ :: _ => false
  | fuel + 1, b :: l =>
    if b ≤ 0x7F then validFuel fuel l
    else
      match validTail b l with
      | none => false
      | some rest => validFuel fuel rest

/-- Whether the bytes are well-formed UTF-8: no text has more characters than
bytes. -/
def valid (l : List ℕ) : Bool := validFuel l.length l

/-- The first place, from `n` on, where a character starts. -/
def firstStart (l : List ℕ) (n : ℕ) : Option ℕ :=
  ((List.range l.length).filter fun i => !isTail (l.getD i 0)).find? (n ≤ ·)

/-- Whether the text can be cut before its byte `n`. -/
def isBoundary (l : List ℕ) (n : ℕ) : Bool :=
  n == 0 || n == l.length || (n < l.length && !isTail (l.getD n 0))

/-- The first place where `pat` occurs. -/
def find (pat text : List ℕ) : Option ℕ :=
  (List.range (text.length + 1)).find? fun i => pat.isPrefixOf (text.drop i)

end Utf8

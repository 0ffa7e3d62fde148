import R9v.Lib.Checked
import Mathlib.Data.List.Induction

/-!
# Text

What the loading of a configuration does with texts: the operations of the source language on strings,
on lists of characters.
-/

namespace R9v

open List

namespace Text

/-! ### Trimming and splitting -/

/-- The white space of Unicode. -/
def isWhite (c : Char) : Bool :=
  let n := c.toNat
  (9 ≤ n && n ≤ 13) || n == 0x20 || n == 0x85 || n == 0xa0 || n == 0x1680 ||
    (0x2000 ≤ n && n ≤ 0x200a) || n == 0x2028 || n == 0x2029 || n == 0x202f || n == 0x205f || n == 0x3000

def trimStartMatches (p : Char → Bool) (s : List Char) : List Char := s.dropWhile p

def trimEndMatches (p : Char → Bool) (s : List Char) : List Char := (s.reverse.dropWhile p).reverse

def trimMatches (p : Char → Bool) (s : List Char) : List Char := trimEndMatches p (trimStartMatches p s)

def trim (s : List Char) : List Char := trimMatches isWhite s

/-- What follows a text at the front of another one. -/
def stripPrefix (front s : List Char) : Option (List Char) :=
  if front.isPrefixOf s then some (s.drop front.length) else none

def stripSuffix (back s : List Char) : Option (List Char) :=
  (stripPrefix back.reverse s.reverse).map List.reverse

/-- The two sides of the first occurrence of a separator. -/
def splitOnce (sep : List Char) : List Char → Option (List Char × List Char)
  | [] => (stripPrefix sep []).map fun rest => ([], rest)
  | c :: s =>
    match stripPrefix sep (c :: s) with
    | some rest => some ([], rest)
    | none => (splitOnce sep s).map fun (before, rest) => (c :: before, rest)

/-- The parts between the occurrences of a separator: what is left of the occurrence that was found
last is skipped first. -/
def splitFrom (sep : List Char) : ℕ → List Char → List Char → List (List Char)
  | _, part, [] => [part.reverse]
  | skip + 1, part, _ :: s => splitFrom sep skip part s
  | 0, part, c :: s =>
    if sep.isPrefixOf (c :: s) then part.reverse :: splitFrom sep (sep.length - 1) [] s
    else splitFrom sep 0 (c :: part) s

def split (sep s : List Char) : List (List Char) := splitFrom sep 0 [] s

/-- A part that ends at a line feed loses a carriage return before it. -/
def lineOf (part : List Char) : List Char := (stripSuffix ['\r'] part).getD part

/-- The lines of a text. The part after the last line feed is a line unless it is empty. -/
def linesOf : List (List Char) → List (List Char)
  | [] => []
  | [last] => if last = [] then [] else [last]
  | part :: rest => lineOf part :: linesOf rest

def lines (s : List Char) : List (List Char) := linesOf (split ['\n'] s)

def join (sep : List Char) (parts : List (List Char)) : List Char := (parts.intersperse sep).flatten

/-- A letter of ASCII in lower case. -/
def asciiLower (c : Char) : Char :=
  if 'A' ≤ c ∧ c ≤ 'Z' then Char.ofNat (c.toNat + 32) else c

/-! ### Numbers -/

def isDigit (c : Char) : Bool := '0' ≤ c && c ≤ '9'

def digitValue (c : Char) : ℕ := c.toNat - 48

/-- The number of a row of digits. -/
def digitsValue (digits : List Char) : ℕ := digits.foldl (fun n c => 10 * n + digitValue c) 0

/-- What is wrong with the text of a number. -/
inductive IntError
  | empty | invalidDigit | posOverflow | negOverflow
  deriving DecidableEq

/-- Reads digits, at least one. -/
def parseDigits (s : List Char) : Except IntError ℕ :=
  if s = [] then .error .empty
  else if s.all isDigit then .ok (digitsValue s)
  else .error .invalidDigit

/-- Reads a signed word of 64 bits. A sign alone has no valid digit. -/
def parseI64 (s : List Char) : Except IntError ℤ :=
  match s with
  | '-' :: digits =>
    if digits = [] then .error .invalidDigit
    else (parseDigits digits).bind fun n => if n ≤ 2 ^ 63 then .ok (-n) else .error .negOverflow
  | '+' :: digits =>
    if digits = [] then .error .invalidDigit
    else (parseDigits digits).bind fun n => if n < 2 ^ 63 then .ok n else .error .posOverflow
  | digits => (parseDigits digits).bind fun n => if n < 2 ^ 63 then .ok n else .error .posOverflow

/-- Reads an unsigned word of 128 bits that has no sign. -/
def parseU128 (digits : List Char) : Except IntError ℕ :=
  (parseDigits digits).bind fun n => if n < 2 ^ 128 then .ok n else .error .posOverflow

/-! ### Digits -/

section Digits

variable {l : List Char} {c : Char}

theorem isDigit_eq (c : Char) : isDigit c = c.isDigit := rfl

theorem digitValue_lt (h : isDigit c = true) : digitValue c < 10 := by
  rw [isDigit, Bool.and_eq_true, decide_eq_true_eq, decide_eq_true_eq] at h
  have hle : c.toNat ≤ 57 := h.2
  rw [digitValue]
  omega

theorem digitsValue_concat (l : List Char) (c : Char) :
    digitsValue (l ++ [c]) = 10 * digitsValue l + digitValue c := by
  rw [digitsValue, foldl_append]
  rfl

theorem digitsValue_lt (h : l.all isDigit = true) : digitsValue l < 10 ^ l.length := by
  induction l using List.reverseRecOn with
  | nil => exact Nat.one_pos
  | append_singleton l c ih =>
    rw [all_append, Bool.and_eq_true, all_cons, Bool.and_eq_true] at h
    have hlt := ih h.1
    have hc := digitValue_lt h.2.1
    rw [digitsValue_concat, length_append, length_singleton, Nat.pow_succ]
    omega

theorem all_toDigits (n : ℕ) : (Nat.toDigits 10 n).all isDigit = true := by
  refine all_eq_true.mpr fun c hc => ?_
  rw [isDigit_eq]
  exact Nat.isDigit_of_mem_toDigits (by decide) le_rfl hc

theorem digitsValue_eq (l : List Char) : digitsValue l = Nat.ofDigitChars 10 l 0 :=
  Nat.ofDigitChars_eq_foldl.symm

/-- **The digits of a number** are read as the number. -/
theorem digitsValue_toDigits (n : ℕ) : digitsValue (Nat.toDigits 10 n) = n := by
  rw [digitsValue_eq, Nat.ofDigitChars_toDigits (by decide) le_rfl]

end Digits

end Text

end R9v

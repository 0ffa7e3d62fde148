import R9v.Format.Value
import R9v.Lib.BinaryFloat

/-!
# Template values

The values of chat templates (`r9v-loader/src/template.rs`), and the budgets that every string
and list is held to (`template/builtins.rs`).
-/

namespace R9v.Template

def maxTemplateBytes : ℕ := 1 <<< 20

def maxOutputBytes : ℕ := 1 <<< 22

def maxLoopIters : ℕ := 100000

def maxDepth : ℕ := 64

def maxSteps : ℕ := 1000000

def maxEvalDepth : ℕ := 128

/-- A value. A float is given by its bits, and the entries of a mapping are in the order of their
insertion. -/
inductive TemplateValue
  | undefined
  | none
  | bool (b : Bool)
  | int (i : Int64)
  | float (bits : UInt64)
  | str (s : Str)
  /-- A string that renders like `str`, and escapes what is added to it. -/
  | safeStr (s : Str)
  | list (items : List TemplateValue)
  | dict (entries : List (Str × TemplateValue))

/-- The errors of the loader that a template can return. -/
inductive TemplateError
  | limit (what : String) (limit got : ℕ)
  | parse (offset : ℕ) (detail : String)
  | render (detail : String)
  | unsupported (detail : String)
  deriving DecidableEq

namespace TemplateValue

def typeName : TemplateValue → String
  | undefined => "undefined"
  | none => "none"
  | bool _ => "bool"
  | int _ => "int"
  | float _ => "float"
  | str _ | safeStr _ => "string"
  | list _ => "array"
  | dict _ => "object"

/-- Whether a value counts as true. A float does unless it is a zero, of either sign. -/
def isTruthy : TemplateValue → Bool
  | undefined | none => false
  | bool b => b
  | int i => i != 0
  | float bits => bits &&& 0x7FFFFFFFFFFFFFFF != 0
  | str s | safeStr s => !s.bytes.isEmpty
  | list l => !l.isEmpty
  | dict d => !d.isEmpty

/-- The value of a key, in a mapping. -/
def getKey (key : Str) : TemplateValue → TemplateValue
  | dict entries => (entries.find? fun e => e.1 = key).elim undefined Prod.snd
  | _ => undefined

end TemplateValue

/-! ### Budgets -/

/-- What is reported of a sum that does not fit into a word. -/
def saturateUsize (n : ℕ) : ℕ := min n (2 ^ 64 - 1)

/-- The length of a string after some more bytes. -/
def ensureStrAdd (current add : ℕ) (what : String) : Except TemplateError ℕ :=
  if current + add ≤ maxOutputBytes then .ok (current + add)
  else .error (.limit what maxOutputBytes (saturateUsize (current + add)))

/-- The length of a list after some more items. -/
def ensureListAdd (current add : ℕ) (what : String) : Except TemplateError ℕ :=
  if current + add ≤ maxLoopIters then .ok (current + add)
  else .error (.limit what maxLoopIters (saturateUsize (current + add)))

def checkStrTotal (total : ℕ) (what : String) : Except TemplateError ℕ :=
  if total ≤ maxOutputBytes then .ok total else .error (.limit what maxOutputBytes total)

def checkStrResult (len : ℕ) (what : String) : Except TemplateError Unit :=
  if len ≤ maxOutputBytes then .ok () else .error (.limit what maxOutputBytes len)

/-! ### Words of 64 bits -/

def i64Min : ℤ := -2 ^ 63

def i64Max : ℤ := 2 ^ 63 - 1

theorem toInt_range (i : Int64) : i64Min ≤ i.toInt ∧ i.toInt ≤ i64Max :=
  ⟨i.le_toInt, by have := i.toInt_lt; rw [i64Max]; omega⟩

def saturate (x : ℤ) : ℤ := max i64Min (min x i64Max)

def saturatingAdd (a b : ℤ) : ℤ := saturate (a + b)

def saturatingSub (a b : ℤ) : ℤ := saturate (a - b)

def saturatingMul (a b : ℤ) : ℤ := saturate (a * b)

def checked (x : ℤ) : Option ℤ := if i64Min ≤ x ∧ x ≤ i64Max then some x else none

def checkedAdd (a b : ℤ) : Option ℤ := checked (a + b)

/-- A float as an integer: what follows the point is dropped, and what is out of range is moved
into it. -/
def f64ToI64 (bits : UInt64) : ℤ :=
  let mag := bits.toNat % 2 ^ 63
  let negative := 2 ^ 63 ≤ bits.toNat
  let infinity := 2047 * 2 ^ 52
  if infinity < mag then 0
  else if mag = infinity then if negative then i64Min else i64Max
  else
    let int := ⌊FloatFormat.binary64.mag mag⌋
    saturate (if negative then -int else int)

/-- An integer argument that may be left out. -/
def optIntOrNone : TemplateValue → Except TemplateError (Option ℤ)
  | .undefined => .ok Option.none
  | .int i => .ok (some i.toInt)
  | .float bits => .ok (some (f64ToI64 bits))
  | _ => .error (.render "integer argument expected")

end R9v.Template

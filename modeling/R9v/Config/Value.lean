import R9v.Config.Schema
import Std.Data.ExtTreeMap.Lemmas

/-!
# The values of settings

Values, their sources and the errors of `r9v-config/src/config.rs`, and what reads and checks one value:
the lookup of a key, the text of a value and the validation against the schema. What the code takes from
elsewhere – the parser of the file format, the floating point numbers and the file system – is an
`Outside`.
-/

namespace R9v

open Checked Text

/-- A value of the file format. -/
inductive TomlValue (φ : Type)
  | string (s : String)
  | integer (i : ℤ)
  | float (x : φ)
  | boolean (b : Bool)
  | datetime (text : String)
  | array (items : List (TomlValue φ))
  | table (entries : List (String × TomlValue φ))

/-- What the loading of a configuration takes from elsewhere. -/
structure Outside (φ : Type) where
  /-- The table of a text, or what the parser says. -/
  parseTable : String → Except String (List (String × TomlValue φ))
  parseFloat : String → Option φ
  ofInteger : ℤ → φ
  le : φ → φ → Bool
  pathExists : String → Bool

/-- Where a value comes from. -/
inductive Source
  | default
  | file (path : String) (line : ℕ)
  | env (name : String)
  | cli (flag : String)
  | runtime (requester time : String)
  deriving DecidableEq

def Source.precedence : Source → ℕ
  | .default => 0
  | .file .. => 1
  | .env _ => 2
  | .cli _ => 3
  | .runtime .. => 4

/-- What goes wrong. A value that the source prints is kept as it is. -/
inductive ConfigError (φ : Type)
  | parse (input message : String)
  /-- No value where there is no version. -/
  | version (required : ℤ) (available : Option (TomlValue φ))
  | unknownKey (key nearest : String)
  | type (key required : String) (available : String ⊕ TomlValue φ)
  | range (key required : String) (available : φ)
  | enum (key required available : String)
  | missingPath (key path : String)
  | mutability (key : String) (mutability : Mutability)
  | crossField (messages : List String)
  | multiple (problems : List (ConfigError φ))
  | notAuto (key : String)

variable {φ : Type}

/-! ### The kinds of values -/

namespace TomlValue

def asStr : TomlValue φ → Option String
  | .string s => some s
  | _ => none

def asInteger : TomlValue φ → Option ℤ
  | .integer i => some i
  | _ => none

def asFloat : TomlValue φ → Option φ
  | .float x => some x
  | _ => none

def asArray : TomlValue φ → Option (List (TomlValue φ))
  | .array items => some items
  | _ => none

def asTable : TomlValue φ → Option (List (String × TomlValue φ))
  | .table entries => some entries
  | _ => none

def isBool : TomlValue φ → Bool
  | .boolean _ => true
  | _ => false

end TomlValue

def isAuto (value : TomlValue φ) : Bool := value.asStr == some "auto"

def integerArray (values : List ℤ) : TomlValue φ := .array (values.map .integer)

/-! ### Keys -/

/-- The number of letters to insert, delete and replace: a row of the table from the one before. -/
def levenshteinRow (ca : Char) : ℕ → List ℕ → List Char → List ℕ
  | left, diagonal :: above :: previous, cb :: b =>
    let cell := min (min (left + 1) (above + 1)) (diagonal + if ca ≠ cb then 1 else 0)
    cell :: levenshteinRow ca cell (above :: previous) b
  | _, _, _ => []

def levenshtein (a b : String) : ℕ :=
  let last := a.toList.zipIdx.foldl
    (fun previous (ca, i) => (i + 1) :: levenshteinRow ca (i + 1) previous b.toList)
    (List.range (b.toList.length + 1))
  last.getD b.toList.length 0

/-- Of two settings, the one with the nearer key, and with the smaller key of two that are as near. -/
def nearer (input : String) (best spec : SettingSpec) : SettingSpec :=
  let d := levenshtein input spec.key
  let least := levenshtein input best.key
  if d < least ∨ d = least ∧ spec.key < best.key then spec else best

def nearestKey (input : String) : String :=
  match allSettings with
  | [] => ""
  | spec :: rest => (rest.foldl (nearer input) spec).key

def unknownKey (input : String) : ConfigError φ := .unknownKey input (nearestKey input)

/-- The setting that had this name before. -/
def findRenamed (input : String) : Option SettingSpec :=
  allSettings.find? fun spec => spec.renamedFrom ≠ "" ∧ spec.renamedFrom = input

/-- The key of a setting, and a warning where the name is a former one. -/
def canonicalKey (input : String) : Except (ConfigError φ) (String × Option String) :=
  match findSetting input, findRenamed input with
  | some spec, _ => .ok (spec.key, none)
  | none, some spec =>
    .ok (spec.key, some s!"setting `{input}` was renamed to `{spec.key}`; use the new key")
  | none, none => .error (unknownKey input)

/-- The values of a file under the names of their settings, and what belongs to no setting. -/
structure Flat (φ : Type) where
  out : List (String × TomlValue φ)
  problems : List (ConfigError φ)

/-- A declared key, or a former one. -/
def isSettingName (name : String) : Bool := (findSetting name).isSome || (findRenamed name).isSome

def hasDescendants (path : String) : Bool :=
  allSettings.any fun spec => (path ++ ".").toList.isPrefixOf spec.key.toList

mutual

def flattenValue (path : String) (value : TomlValue φ) (flat : Flat φ) : Flat φ :=
  if isSettingName path then { flat with out := flat.out ++ [(path, value)] }
  else
    match value with
    | .table entries =>
      if hasDescendants path then flattenTable path entries flat
      else { flat with problems := flat.problems ++ [unknownKey path] }
    | _ => { flat with problems := flat.problems ++ [unknownKey path] }

def flattenTable (path : String) (entries : List (String × TomlValue φ)) (flat : Flat φ) : Flat φ :=
  match entries with
  | [] => flat
  | (key, child) :: rest => flattenTable path rest (flattenValue (path ++ "." ++ key) child flat)

end

/-- The lines that set a key: the section they are in, and the number of the next line. -/
structure KeyLines where
  sectionName : List Char := []
  lines : Std.ExtTreeMap String ℕ := ∅

def KeyLines.take (state : KeyLines) (line : List Char) (index : ℕ) : KeyLines :=
  let content := trim ((split ['#'] line).headD [])
  if content.head? = some '[' ∧ content.getLast? = some ']' then
    { state with
      sectionName := trim (trimEndMatches (· == ']') (trimStartMatches (· == '[') content)) }
  else
    match splitOnce ['='] content with
    | some (key, _) =>
      let key := trimMatches (· == '"') (trim key)
      let full := if state.sectionName = [] then key else state.sectionName ++ '.' :: key
      { state with lines := state.lines.insert (String.ofList full) (index + 1) }
    | none => state

/-- The line of each key that a text sets. -/
def keyLines (text : String) : Std.ExtTreeMap String ℕ :=
  ((lines text.toList).zipIdx.foldl (fun (state : KeyLines) (line, index) => state.take line index) {}).lines

/-! ### Values from texts -/

section Texts

variable (O : Outside φ)

/-- The type of a value that is not automatic. -/
def SettingSpec.concreteType (spec : SettingSpec) : String :=
  match (stripPrefix "Auto<".toList spec.typeName.toList).bind (stripSuffix ">".toList) with
  | some name => String.ofList name
  | none => spec.typeName

/-- A setting whose value may be left to a rule. -/
def SettingSpec.mayBeAuto (spec : SettingSpec) : Bool :=
  "Auto<".toList.isPrefixOf spec.typeName.toList

def typeError (spec : SettingSpec) (available : String ⊕ TomlValue φ) : ConfigError φ :=
  .type spec.key spec.typeName available

def parseBool (s : String) : Option Bool :=
  match s with
  | "true" => some true
  | "false" => some false
  | _ => none

def parseFragment (raw : String) : Option (TomlValue φ) :=
  match O.parseTable ("value = " ++ raw) with
  | .ok table => table.lookup "value"
  | .error _ => none

def parseTextValue (spec : SettingSpec) (raw : String) : Except (ConfigError φ) (TomlValue φ) :=
  let chars := trim raw.toList
  let raw := String.ofList chars
  if spec.mayBeAuto ∧ chars.map asciiLower = "auto".toList then .ok (.string "auto")
  else
    match spec.typeName with
    | "bool" => okOr ((parseBool raw).map .boolean) (typeError spec (.inl raw))
    | "u32" | "u64" => ((parseI64 chars).mapError fun _ => typeError spec (.inl raw)).map .integer
    | "f32" => okOr ((O.parseFloat raw).map .float) (typeError spec (.inl raw))
    | "Vec<String>" | "[str]" | "buckets" => okOr (parseFragment O raw) (typeError spec (.inl raw))
    | _ => .ok (.string (String.ofList (trimMatches (· == '"') chars)))

/-! ### Validation -/

def validBucketAxis (value : Option (TomlValue φ)) (allowZero : Bool) : Bool :=
  match value.bind TomlValue.asArray with
  | none => false
  | some items =>
    !items.isEmpty && items.all fun item =>
      item.asInteger.any fun number => (if allowZero then 0 else 1) ≤ number

def validBuckets (value : TomlValue φ) : Bool :=
  match value.asTable with
  | none => false
  | some table =>
    table.length == 3 && ["S", "T_dec", "T_pre"].all (fun key => (table.lookup key).isSome) &&
      validBucketAxis (table.lookup "S") false && validBucketAxis (table.lookup "T_dec") false &&
      validBucketAxis (table.lookup "T_pre") true

/-- The kind of value that a type takes. -/
def fitsType (type : String) (value : TomlValue φ) : Bool :=
  match type with
  | "bool" => value.isBool
  | "u32" | "u64" => value.asInteger.any fun v => 0 ≤ v
  | "f32" => value.asFloat.isSome || value.asInteger.isSome
  | "Vec<String>" | "[str]" => value.asArray.any fun items => items.all fun item => item.asStr.isSome
  | "buckets" => validBuckets value
  | _ => value.asStr.isSome

def validateConcreteAuto (spec : SettingSpec) (value : TomlValue φ) : Except (ConfigError φ) Unit :=
  ensure (fitsType spec.concreteType value = true) (typeError spec (.inr value))

def validateRange (spec : SettingSpec) (value : TomlValue φ) : Except (Fault (ConfigError φ)) Unit := do
  let (low, high) ← orPanic (splitOnce "..=".toList spec.rangeOrEnum.toList)
  let low ← orPanic (O.parseFloat (String.ofList low))
  let high ← orPanic (O.parseFloat (String.ofList high))
  let available ← okOr (value.asFloat <|> value.asInteger.map O.ofInteger)
    (.err (typeError spec (.inr value)))
  ensure (O.le low available ∧ O.le available high) (.err (.range spec.key spec.rangeOrEnum available))

def validateEnum (spec : SettingSpec) (value : TomlValue φ) : Except (ConfigError φ) Unit := do
  let available ← okOr value.asStr (typeError spec (.inr value))
  let items := split ['|'] spec.rangeOrEnum.toList
  ensure (available.toList ∈ items)
    (.enum spec.key (String.ofList (join ", ".toList items)) available)

def isLoadPath (key : String) : Bool :=
  ["load.model", "load.draft_model", "load.eagle_head", "load.cache_dir"].contains key

def checkBytes (spec : SettingSpec) (value : TomlValue φ) : Except (ConfigError φ) Unit :=
  if spec.concreteType = "bytes" then do
    let raw ← okOr value.asStr (typeError spec (.inr value))
    let _ ← (parseByteSize raw).mapError fun _ => typeError spec (.inr value)
  else .ok ()

def checkRangeOrEnum (spec : SettingSpec) (value : TomlValue φ) : Except (Fault (ConfigError φ)) Unit :=
  if '|' ∈ spec.rangeOrEnum.toList then lift (validateEnum spec value)
  else if (splitOnce "..=".toList spec.rangeOrEnum.toList).isSome then validateRange O spec value
  else .ok ()

def checkPathExists (spec : SettingSpec) (value : TomlValue φ) : Except (ConfigError φ) Unit :=
  match isLoadPath spec.key, value.asStr with
  | true, some path =>
    ensure (path ∈ ["none", "(none)", "auto"] ∨ O.pathExists path) (.missingPath spec.key path)
  | _, _ => .ok ()

def validateValue (spec : SettingSpec) (value : TomlValue φ) (checkPath : Bool) :
    Except (Fault (ConfigError φ)) Unit :=
  if spec.mayBeAuto ∧ isAuto value then .ok ()
  else do
    lift (validateConcreteAuto spec value)
    lift (checkBytes spec value)
    checkRangeOrEnum O spec value
    if checkPath then lift (checkPathExists O spec value) else .ok ()

/-! ### Defaults -/

/-- The rule of an automatic value, as the documentation of the setting gives it. -/
def autoRule (doc : String) : String :=
  match splitOnce "auto = ".toList doc.toList with
  | some (_, rule) => String.ofList (trimEndMatches (· == '.') rule)
  | none => "resolved by the owning subsystem"

def defaultValue (spec : SettingSpec) : Except (Fault (ConfigError φ)) (TomlValue φ) :=
  if "auto".toList.isPrefixOf spec.default.toList then .ok (.string "auto")
  else if spec.key = "warmup.buckets" then
    .ok (.table [("S", integerArray [1, 2, 4]), ("T_dec", integerArray [1, 2, 4, 8, 16, 32]),
      ("T_pre", integerArray [0, 128, 512, 2048])])
  else
    match spec.typeName with
    | "bool" => orPanic ((parseBool spec.default).map .boolean)
    | "u32" | "u64" => orPanic ((parseI64 spec.default.toList).toOption.map .integer)
    | "f32" => orPanic ((O.parseFloat spec.default).map .float)
    | "Vec<String>" | "[str]" =>
      if spec.key = "bench.suites" then
        .ok (.array (["decode", "decode-spec", "prefill", "multi"].map .string))
      else .ok (.string spec.default)
    | _ => .ok (.string spec.default)

end Texts

def maxTPreBucket (value : TomlValue φ) : Option ℤ := do
  let table ← value.asTable
  let axis ← table.lookup "T_pre"
  let items ← axis.asArray
  (items.filterMap TomlValue.asInteger).max?

end R9v

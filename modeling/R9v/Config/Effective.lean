import R9v.Config.Value

/-!
# The effective configuration

The configuration of `r9v-config/src/config.rs`: the value of every setting with its source, and the
calls that change it. Each call of a layer works on a copy, which replaces the configuration when every
value is accepted and the rules between the settings hold.
-/

namespace R9v

open Checked Text

variable {φ : Type}

/-- A value, where it comes from, and what became of an automatic one. -/
structure SourcedValue (φ : Type) where
  value : TomlValue φ
  source : Source
  resolved : Option (TomlValue φ)
  autoRule : Option String

/-- The value of a setting as it is entered. -/
def SourcedValue.of (spec : SettingSpec) (value : TomlValue φ) (source : Source) : SourcedValue φ where
  value := value
  source := source
  resolved := none
  autoRule := if isAuto value then some (R9v.autoRule spec.doc) else none

structure EffectiveConfig (φ : Type) where
  values : Std.ExtTreeMap String (SourcedValue φ)
  extensions : Std.ExtTreeMap String (TomlValue φ)
  warnings : List String

/-- A text of a message in quotes. -/
def quoted (doc : String) : String := "\"" ++ doc ++ "\""

def ruleMessage (keys : List String) (detail : String) : String :=
  let docs := keys.filterMap fun key =>
    (findSetting key).map fun spec => (key ++ ": " ++ quoted spec.doc).toList
  detail ++ "; schema docs: " ++ String.ofList (join "; ".toList docs)

namespace EffectiveConfig

section Defaults

variable (O : Outside φ)

def fromDefaults : Except (Fault (ConfigError φ)) (EffectiveConfig φ) := do
  let values ← allSettings.mapM fun spec => do
    let value ← defaultValue O spec
    pure (spec.key, SourcedValue.of spec value .default)
  pure { values := .ofList values, extensions := ∅, warnings := [] }

end Defaults

variable (c : EffectiveConfig φ)

/-! ### Rules between settings -/

def integer (key : String) : Except (Fault (ConfigError φ)) ℤ :=
  orPanic ((c.values[key]?).bind fun v => v.value.asInteger)

/-- The rules that do not hold. -/
def crossFieldMessages (prefillMin prefillMax maxBucket kMax treeMax maxCtx : ℤ) : List String :=
  (if prefillMin ≤ prefillMax ∧ prefillMax ≤ maxBucket then [] else
    [ruleMessage ["scheduler.prefill_min_chunk", "scheduler.prefill_max_chunk", "warmup.buckets"]
      s!"required min <= max <= max T_pre bucket; got {prefillMin} <= {prefillMax} <= {maxBucket}"]) ++
  (if kMax > 15 then
    [ruleMessage ["spec.k_max"] s!"required k_max <= 15; got {kMax}"] else []) ++
  (if treeMax > 16 then
    [ruleMessage ["spec.tree_max"] s!"required tree_max <= 16; got {treeMax}"] else []) ++
  (if kMax > treeMax then
    [ruleMessage ["spec.k_max", "spec.tree_max"]
      s!"required k_max <= tree_max; got {kMax} > {treeMax}"] else []) ++
  (if maxCtx % 32 ≠ 0 then
    [ruleMessage ["state.max_ctx"] s!"required max_ctx % 32 == 0; got {maxCtx}"] else [])

def validateCrossFields : Except (Fault (ConfigError φ)) Unit := do
  let prefillMin ← c.integer "scheduler.prefill_min_chunk"
  let prefillMax ← c.integer "scheduler.prefill_max_chunk"
  let maxBucket := ((c.values["warmup.buckets"]?).bind fun v => maxTPreBucket v.value).getD 2048
  let kMax ← c.integer "spec.k_max"
  let treeMax ← c.integer "spec.tree_max"
  let maxCtx ← c.integer "state.max_ctx"
  let messages := crossFieldMessages prefillMin prefillMax maxBucket kMax treeMax maxCtx
  ensure (messages = []) (.err (.crossField messages))

/-! ### Entries -/

/-- Enters a value, unless the one that is there comes from a stronger source. -/
def assign (spec : SettingSpec) (value : TomlValue φ) (source : Source) : EffectiveConfig φ :=
  let replace := (c.values[spec.key]?).all fun current =>
    decide (current.source.precedence ≤ source.precedence)
  if replace then { c with values := c.values.insert spec.key (.of spec value source) } else c

def warn (warning : Option String) : EffectiveConfig φ :=
  { c with warnings := c.warnings ++ warning.toList }

end EffectiveConfig

/-- One value of a layer under the name it comes with. -/
structure Input (φ : Type) where
  inputKey : String
  /-- Reads the value, and checks it. -/
  value : SettingSpec → Except (Fault (ConfigError φ)) (TomlValue φ)
  source : Source

/-- A layer while it is applied: the copy so far, and what was wrong. -/
structure Loading (φ : Type) where
  candidate : EffectiveConfig φ
  problems : List (ConfigError φ)

/-- Enters one value, or notes what is wrong with it. -/
def Loading.take (l : Loading φ) (i : Input φ) : Except (Fault (ConfigError φ)) (Loading φ) :=
  match canonicalKey i.inputKey with
  | .error e => .ok { l with problems := l.problems ++ [e] }
  | .ok (key, warning) => do
    let candidate := l.candidate.warn warning
    let spec ← orPanic (findSetting key)
    match i.value spec with
    | .ok value => .ok { l with candidate := candidate.assign spec value i.source }
    | .error (.err e) => .ok { candidate, problems := l.problems ++ [e] }
    | .error .panic => .error .panic

def finishProblems (problems : List (ConfigError φ)) : Except (ConfigError φ) Unit :=
  match problems with
  | [] => .ok ()
  | [e] => .error e
  | problems => .error (.multiple problems)

/-- What every layer does with its values, from the copy and the problems it starts with. -/
def applyInputs (l : Loading φ) (inputs : List (Input φ)) :
    Except (Fault (ConfigError φ)) (EffectiveConfig φ) := do
  let l ← inputs.foldlM Loading.take l
  lift (finishProblems l.problems)
  l.candidate.validateCrossFields
  pure l.candidate

/-- A call on a configuration: what it changed stays when it fails. -/
abbrev ConfigM (φ : Type) := ExceptT (Fault (ConfigError φ)) (StateM (EffectiveConfig φ))

section Layers

variable (O : Outside φ)

/-- The version that is written at the top of a file. -/
def configVersion : ℤ := 1

def checkVersion (table : List (String × TomlValue φ)) : Except (ConfigError φ) Unit :=
  let version := table.lookup "config_version"
  ensure (version.bind TomlValue.asInteger = some configVersion) (.version configVersion version)

def isExtension (key : String) : Bool := "x-".toList.isPrefixOf key.toList

def fileExtensions (table : List (String × TomlValue φ)) : List (String × TomlValue φ) :=
  table.filter fun (key, _) => key ≠ "config_version" ∧ isExtension key

/-- The values of a file, section by section. -/
def flattenFile (table : List (String × TomlValue φ)) : Flat φ :=
  (table.filter fun (key, _) => key ≠ "config_version" ∧ ¬isExtension key).foldl
    (fun flat (key, value) => flattenValue key value flat) ⟨[], []⟩

def fileInput (path : String) (lines : Std.ExtTreeMap String ℕ) (inputKey : String)
    (value : TomlValue φ) : Input φ where
  inputKey := inputKey
  value spec := do
    validateValue O spec value true
    pure value
  source := .file path (lines.getD inputKey 1)

/-- The values of a file and what is wrong with its keys. -/
def readFile (path text : String) :
    Except (ConfigError φ) (Flat φ × List (Input φ) × List (String × TomlValue φ)) := do
  let table ← (O.parseTable text).mapError (.parse path ·)
  checkVersion table
  let flat := flattenFile table
  pure (flat, flat.out.map fun (key, value) => fileInput O path (keyLines text) key value,
    fileExtensions table)

def applyFileStr (path text : String) : ConfigM φ Unit := do
  let c ← get
  let (flat, inputs, extensions) ← ExceptT.mk (pure (lift (readFile O path text)))
  let c := { c with extensions := .ofList extensions }
  let c ← ExceptT.mk (pure (applyInputs ⟨c, flat.problems⟩ inputs))
  set c

/-- A text that is read and checked as the value of a setting. -/
def textInput (checkPath : Bool) (raw : String) (spec : SettingSpec) :
    Except (Fault (ConfigError φ)) (TomlValue φ) := do
  let value ← lift (parseTextValue O spec raw)
  validateValue O spec value checkPath
  pure value

/-- The key that a variable sets, if it is one of ours. -/
def envKey (name : String) : Option String :=
  (stripPrefix "R9V__".toList name.toList).map fun rest =>
    String.ofList (join ['.'] ((split "__".toList rest).map fun part => part.map asciiLower))

def envInputs (entries : List (String × String)) : List (Input φ) :=
  entries.filterMap fun (name, raw) => (envKey name).map fun key =>
    { inputKey := key, value := textInput O true raw, source := .env name }

def applyEnv (entries : List (String × String)) : ConfigM φ Unit := do
  let c ← get
  let c ← ExceptT.mk (pure (applyInputs ⟨c, []⟩ (envInputs O entries)))
  set c

/-- The key of a flag. -/
def flagKey (flag : String) : String :=
  String.ofList ((stripPrefix "--".toList flag.toList).getD flag.toList)

def cliInputs (entries : List (String × String)) : List (Input φ) :=
  entries.map fun (flag, raw) =>
    { inputKey := flagKey flag, value := textInput O true raw, source := .cli flag }

def applyCli (entries : List (String × String)) : ConfigM φ Unit := do
  let c ← get
  let c ← ExceptT.mk (pure (applyInputs ⟨c, []⟩ (cliInputs O entries)))
  set c

/-- At run time only some settings change, and no path is looked up. -/
def runtimeInputs (entries : List (String × String)) (requester time : String) : List (Input φ) :=
  entries.map fun (inputKey, raw) =>
    { inputKey
      value := fun spec => do
        ensure (spec.mutability = .runtime) (.err (.mutability spec.key spec.mutability))
        textInput O false raw spec
      source := .runtime requester time }

def applyRuntime (entries : List (String × String)) (requester time : String) : ConfigM φ Unit := do
  let c ← get
  let c ← ExceptT.mk (pure (applyInputs ⟨c, []⟩ (runtimeInputs O entries requester time)))
  set c

/-- Notes what became of an automatic value. -/
def resolveAuto (key : String) (resolved : TomlValue φ) : ConfigM φ Unit := do
  let spec ← ExceptT.mk (pure (okOr (findSetting key) (.err (unknownKey key))))
  ExceptT.mk (pure (ensure (isAuto resolved = false) (.err (typeError spec (.inr resolved)))))
  ExceptT.mk (pure (validateValue O spec resolved false))
  let c ← get
  let current ← ExceptT.mk (pure (orPanic c.values[key]?))
  ExceptT.mk (pure (ensure (isAuto current.value = true) (.err (.notAuto key))))
  set { c with values := c.values.insert key { current with resolved := some resolved } }

end Layers

/-- A call that changes a configuration. -/
inductive ConfigCall (φ : Type)
  | file (path text : String)
  | env (entries : List (String × String))
  | cli (entries : List (String × String))
  | runtime (entries : List (String × String)) (requester time : String)
  | resolveAuto (key : String) (resolved : TomlValue φ)

/-- What a call answers, and the configuration after it. -/
def ConfigCall.run (O : Outside φ) (call : ConfigCall φ) (c : EffectiveConfig φ) :
    Except (Fault (ConfigError φ)) Unit × EffectiveConfig φ :=
  match call with
  | .file path text => (applyFileStr O path text).run c
  | .env entries => (applyEnv O entries).run c
  | .cli entries => (applyCli O entries).run c
  | .runtime entries requester time => (applyRuntime O entries requester time).run c
  | .resolveAuto key resolved => (R9v.resolveAuto O key resolved).run c

/-- The configurations that calls make of the defaults, whatever the calls answer. -/
inductive EffectiveConfig.Reachable (O : Outside φ) : EffectiveConfig φ → Prop
  | defaults {c : EffectiveConfig φ} (h : fromDefaults O = .ok c) : Reachable O c
  | call {c : EffectiveConfig φ} (h : Reachable O c) (call : ConfigCall φ) :
    Reachable O (call.run O c).2

end R9v

import R9v.Registry.Tune

/-!
# The registry of kernels

The registry, the calls that change it, and how an operation is resolved to a kernel
(`r9v-registry/src/resolution.rs`). A static description is of some type `σ`, of which the
registry uses the operation, the problems and the hashes. A provider of compiled kernels is of
some type `π`, and what it answers to a request is given at each resolution. What is parsed of a
file is given to the call that reads it.
-/

namespace R9v.Kernels

open Checked

/-- What identifies a compiled kernel. -/
structure VariantKey (σ : Type) where
  op : OpId
  arch : ArchName
  genVersion : ℕ
  staticParams : σ
  config : TileConfig

/-- Static descriptions of operations. -/
class OpStatic (σ : Type) where
  opId : σ → OpId
  problems : σ → List String
  staticHash : σ → UInt64
  variantHash : VariantKey σ → UInt64

/-- Where a code object is from. -/
inductive ArtifactOrigin
  | shipped
  | local (baseDir : Option String)
  deriving DecidableEq

/-- A kernel that an operation is resolved to. -/
structure ResolvedVariant where
  variantHash : UInt64
  arch : ArchName
  op : OpId
  tier : Tier
  entrySymbol : String
  launchGeometry : LaunchGeometry
  workspaceBytes : ℕ
  staticBytes : ℕ
  staticFlops : ℕ
  codeObjectPath : Option String
  artifactOrigin : Option ArtifactOrigin
  codeObjectBytes : Option (List UInt8)
  validated : Bool
  deriving DecidableEq

/-- The options of a registry that decide a resolution. -/
structure RegistryConfig where
  genVersion : ℕ
  allowJit : Bool
  deriving DecidableEq

/-- The tune entries, by architecture, version and key, with the directories of their code
objects. -/
def TuneTable : Type := ArchName → ℕ → String → Option (TuneEntry × Option String)

def TuneTable.insert (t : TuneTable) (arch : ArchName) (version : ℕ) (key : String)
    (x : TuneEntry × Option String) : TuneTable := fun arch' version' key' =>
  if arch' = arch ∧ version' = version ∧ key' = key then some x else t arch' version' key'

/-- A registry, without its loaded modules. -/
structure Registry (π : Type) where
  config : RegistryConfig
  bundleDir : Option String
  manifest : Option BundleManifest
  tuneEntries : TuneTable
  jitProvider : Option π

namespace Registry

variable {π σ : Type} [OpStatic σ] (r : Registry π)

def new (config : RegistryConfig) : Registry π where
  config := config
  bundleDir := none
  manifest := none
  tuneEntries := fun _ _ _ => none
  jitProvider := none

/-! ### Calls that change a registry -/

/-- The checks of a manifest that is read from a bundle. -/
def checkBundle (dir : String) (file : Except RegistryError BundleManifest) :
    Except RegistryError BundleManifest := do
  let manifest ← file
  manifest.validate
  manifest.validateVersion r.config.genVersion (some (dir ++ "/manifest.json"))
  pure manifest

/-- Loads a bundle from its directory. -/
def loadBundle (dir : String) (file : Except RegistryError BundleManifest) :
    Except RegistryError Unit × Registry π :=
  match r.checkBundle dir file with
  | .ok manifest => (.ok (), { r with bundleDir := some dir, manifest := some manifest })
  | .error e => (.error e, r)

/-- The checks of a manifest that is given. -/
def checkManifest (manifest : BundleManifest) : Except RegistryError Unit := do
  manifest.validate
  manifest.validateVersion r.config.genVersion none

/-- Sets a manifest, and maybe the directory of its bundle. -/
def setManifest (manifest : BundleManifest) (dir : Option String) :
    Except RegistryError Unit × Registry π :=
  match r.checkManifest manifest with
  | .ok () => (.ok (), { r with bundleDir := dir, manifest := some manifest })
  | .error e => (.error e, r)

/-- A code object needs a directory. -/
def baseProblems (tune : TuneFile) : Option String → List RegistryProblem
  | some _ => []
  | none => tune.entries.toList.filterMap fun x => x.2.codeObject.map (.noBaseDir x.1)

/-- The checks of a tune file. -/
def checkTune (tune : TuneFile) (base : Option String) : Except RegistryError Unit := do
  tune.validate
  RegistryError.ofProblems (baseProblems tune base)

/-- Adds the entries of a tune file. -/
def insertTune (table : TuneTable) (tune : TuneFile) (base : Option String) : TuneTable :=
  tune.entries.toList.foldl
    (fun table x => table.insert tune.arch tune.genVersion x.1 (x.2, base)) table

/-- Loads a tune file. One of another version is left out. -/
def loadTuneFile (tune : TuneFile) (base : Option String) :
    Except RegistryError Bool × Registry π :=
  match checkTune tune base with
  | .error e => (.error e, r)
  | .ok () =>
    if tune.genVersion ≠ r.config.genVersion then (.ok false, r)
    else (.ok true, { r with tuneEntries := insertTune r.tuneEntries tune base })

/-- What is read from a tune file is checked on its own. -/
def checkTuneFile (file : Except RegistryError TuneFile) : Except RegistryError TuneFile := do
  let tune ← file
  tune.validate
  pure tune

/-- Loads a tune file from a path in a directory. -/
def loadTuneFileFromPath (file : Except RegistryError TuneFile) (parent : Option String) :
    Except RegistryError Bool × Registry π :=
  match checkTuneFile file with
  | .ok tune => r.loadTuneFile tune parent
  | .error e => (.error e, r)

def registerJitProvider (provider : π) : Registry π := { r with jitProvider := some provider }

/-! ### Resolution -/

def isArchSupported (arch : ArchName) : Bool :=
  match r.manifest with
  | some m => m.isArchSupported arch
  | none => false

def supportedArchs : List ArchName :=
  match r.manifest with
  | some m => m.archs
  | none => []

/-- The hash of a key of the manifest. -/
def readHash (key : String) : Except RegistryError UInt64 :=
  match fromHex key with
  | .ok hash => .ok hash
  | .error .empty => .error
    (.manifestParseError "variant_hash" "cannot parse integer from empty string")
  | .error .invalidDigit => .error
    (.manifestParseError "variant_hash" "invalid digit found in string")
  | .error .posOverflow => .error
    (.manifestParseError "variant_hash" "number too large to fit in target type")

/-- The variant of an entry of the manifest. -/
def shippedVariant (hash : UInt64) (op : OpId) (arch : ArchName) (tier : Tier)
    (e : ManifestVariantEntry) : ResolvedVariant where
  variantHash := hash
  arch := arch
  op := op
  tier := tier
  entrySymbol := e.entrySymbol
  launchGeometry := e.launchGeometry
  workspaceBytes := e.workspaceBytes
  staticBytes := e.staticBytes
  staticFlops := e.staticFlops
  codeObjectPath := some e.file
  artifactOrigin := some .shipped
  codeObjectBytes := none
  validated := true

/-- Looks for a specialized kernel in the manifest. -/
def findT2 (op : OpId) (arch : ArchName) (shash : UInt64) :
    List (String × ManifestVariantEntry) → Except RegistryError (Option ResolvedVariant)
  | [] => .ok none
  | (key, e) :: entries =>
    if e.tier = .t2 ∧ e.arch = arch ∧ e.matchesRequest op = true ∧ e.staticHash = some shash then
      match BundleManifest.checkEntryFor e op with
      | .error err => .error err
      | .ok () =>
        if e.validated then
          (readHash key).map fun hash => some (shippedVariant hash op arch .t2 e)
        else findT2 op arch shash entries
    else findT2 op arch shash entries

/-- Looks for a portable kernel in the manifest. -/
def findT1 (op : OpId) (arch : ArchName) (shash : UInt64) :
    List (String × ManifestVariantEntry) → Except RegistryError (Option ResolvedVariant)
  | [] => .ok none
  | (key, e) :: entries =>
    if e.tier = .t1 ∧ e.arch = arch ∧ e.op = some op ∧
        (e.staticHash = some shash ∨ e.staticHash = none) ∧ e.validated = true then
      match BundleManifest.checkEntryFor e op with
      | .error err => .error err
      | .ok () => (readHash key).map fun hash => some (shippedVariant hash op arch .t1 e)
    else findT1 op arch shash entries

/-- The entries of the manifest, in the order of their keys. -/
def entries : List (String × ManifestVariantEntry) :=
  match r.manifest with
  | some m => m.variants.toList
  | none => []

/-- The variant of a tune entry. -/
def localVariant (op : OpId) (arch : ArchName) (s : σ) (e : TuneEntry) (base : Option String) :
    ResolvedVariant :=
  let hash := OpStatic.variantHash ⟨op, arch, r.config.genVersion, s, e.config⟩
  { variantHash := hash
    arch := arch
    op := op
    tier := .t2
    entrySymbol := String.ofList (op.asStr.toList ++ '_' :: (toHex hash).toList)
    launchGeometry := e.launchGeometry
    workspaceBytes := e.workspaceBytes
    staticBytes := e.bytes
    staticFlops := e.flops
    codeObjectPath := e.codeObject
    artifactOrigin := some (.local base)
    codeObjectBytes := none
    validated := true }

/-- Looks for a kernel in the tune entries. -/
def findLocal (op : OpId) (arch : ArchName) (s : σ) : Option ResolvedVariant :=
  match r.tuneEntries arch r.config.genVersion (TuneFile.entryKey op (OpStatic.staticHash s)) with
  | some (e, base) =>
    if e.validated ∧ e.codeObject.isSome then some (r.localVariant op arch s e base) else none
  | none => none

/-- What a provider answers to a request. -/
abbrev Answers (π σ : Type) : Type :=
  π → OpId → ArchName → σ → Except RegistryError ResolvedVariant

/-- A compiled kernel is local if nothing else is said of it. -/
def withOrigin (v : ResolvedVariant) : ResolvedVariant :=
  if v.artifactOrigin.isNone then { v with artifactOrigin := some (.local none) } else v

/-- Asks for a compiled kernel, if that is allowed. -/
def findJit (answer : Answers π σ) (op : OpId) (arch : ArchName) (s : σ) :
    Option ResolvedVariant :=
  match r.config.allowJit, r.jitProvider with
  | true, some provider =>
    match answer provider op arch s with
    | .ok v => if v.validated then some (withOrigin v) else none
    | .error _ => none
  | _, _ => none

/-- An architecture that is not listed has only what is compiled for it. -/
def resolveUnlisted (answer : Answers π σ) (op : OpId) (arch : ArchName) (s : σ) :
    Except RegistryError ResolvedVariant :=
  match r.config.allowJit, r.jitProvider with
  | true, some provider =>
    match answer provider op arch s with
    | .ok v =>
      if v.validated then .ok v else .error (.variantNotValidated v.variantHash op arch)
    | .error e => .error e
  | _, _ => .error (.unlistedArchRefused arch r.supportedArchs)

/-- The portable kernel of the manifest. -/
def resolveT1 (op : OpId) (arch : ArchName) (shash : UInt64) :
    Except RegistryError ResolvedVariant :=
  match r.manifest with
  | some m =>
    match findT1 op arch shash m.variants.toList with
    | .ok (some v) => .ok v
    | .ok none => .error (.t1FallbackFailed op arch)
    | .error e => .error e
  | none => .error (.variantNotFound op arch shash)

/-- A listed architecture has four sources of kernels. -/
def resolveListed (answer : Answers π σ) (op : OpId) (arch : ArchName) (s : σ) :
    Except RegistryError ResolvedVariant :=
  match findT2 op arch (OpStatic.staticHash s) r.entries with
  | .error e => .error e
  | .ok (some v) => .ok v
  | .ok none =>
    match r.findLocal op arch s with
    | some v => .ok v
    | none =>
      match r.findJit answer op arch s with
      | some v => .ok v
      | none => r.resolveT1 op arch (OpStatic.staticHash s)

/-- The checks of a static description. -/
def checkStatic (op : OpId) (s : σ) : Except RegistryError Unit := do
  ensure (OpStatic.opId s = op) (.staticOpMismatch op (OpStatic.opId s))
  RegistryError.ofProblems ((OpStatic.problems s).map .static)

/-- **Resolves an operation to a kernel.** -/
def resolve (answer : Answers π σ) (op : OpId) (arch : ArchName) (s : σ) :
    Except RegistryError ResolvedVariant := do
  checkStatic op s
  if r.isArchSupported arch then r.resolveListed answer op arch s
  else r.resolveUnlisted answer op arch s

end Registry

end R9v.Kernels

import R9v.Registry.Variant
import R9v.Registry.Hex
import Std.Data.ExtTreeMap.Lemmas

/-!
# Bundle manifests

The manifest of a bundle of kernels, and what is checked of it
(`r9v-registry/src/manifest.rs`). A manifest maps hashes, as texts, to entries. An ordered map
of the standard library is one that is ordered by the bytes of its keys, which is the order of
their characters. A text of a problem is its data, with a number as its bits.
-/

namespace R9v

open List

/-- The name of an architecture. -/
abbrev ArchName := String

namespace OpId

/-- The name of an operation. -/
def asStr : OpId → String
  | embedGather => "embed_gather"
  | ngramGather => "ngram_gather"
  | quantAct => "quant_act"
  | cast => "cast"
  | copy => "copy"
  | gatherRows => "gather_rows"
  | scatterAddRows => "scatter_add_rows"
  | split => "split"
  | concat => "concat"
  | norm => "norm"
  | residualAdd => "residual_add"
  | actMul => "act_mul"
  | activation => "activation"
  | logitSoftcap => "logit_softcap"
  | rope => "rope"
  | matmul => "matmul"
  | moeRoute => "moe_route"
  | moeFfn => "moe_ffn"
  | stateWriteKv => "state_write_kv"
  | attention => "attention"
  | causalConv1d => "causal_conv1d"
  | linearAttnScan => "linear_attn_scan"
  | logitsPostprocess => "logits_postprocess"
  | sample => "sample"
  | verify => "verify"
  | allReduce => "all_reduce"
  | allGather => "all_gather"
  | reduceScatter => "reduce_scatter"
  | allToAll => "all_to_all"
  | send => "send"
  | recv => "recv"
  | barrier => "barrier"

/-- All operations. -/
def all : List OpId :=
  [embedGather, ngramGather, quantAct, cast, copy, gatherRows, scatterAddRows, split, concat, norm,
    residualAdd, actMul, activation, logitSoftcap, rope, matmul, moeRoute, moeFfn, stateWriteKv,
    attention, causalConv1d, linearAttnScan, logitsPostprocess, sample, verify, allReduce, allGather,
    reduceScatter, allToAll, send, recv, barrier]

/-- The operation with a name. -/
def parseOp (s : String) : Option OpId := all.find? fun op => op.asStr == s

theorem parseOp_asStr (op : OpId) : parseOp op.asStr = some op := by
  cases op <;> rfl

theorem asStr_of_parseOp {s : String} {op : OpId} (h : parseOp s = some op) : op.asStr = s := by
  simpa using find?_some h

end OpId

/-! ### Texts -/

/-- White space, as Unicode has it. -/
def isWhitespace (c : Char) : Bool :=
  (9 ≤ c.toNat && c.toNat ≤ 13) || c.toNat == 0x20 || c.toNat == 0x85 || c.toNat == 0xA0 ||
    c.toNat == 0x1680 || (0x2000 ≤ c.toNat && c.toNat ≤ 0x200A) || c.toNat == 0x2028 ||
    c.toNat == 0x2029 || c.toNat == 0x202F || c.toNat == 0x205F || c.toNat == 0x3000

/-- There is nothing but white space. -/
def isBlank (s : String) : Bool := s.toList.all isWhitespace

/-- A path from the root, with either separator. -/
def isAbsolutePath (s : String) : Bool :=
  s.toList.head? == some '/' || s.toList.head? == some '\\'

/-- A path with a component for the parent, or two dots anywhere. -/
def traversesParent (s : String) : Bool :=
  (s.toList.splitOn '/').any (· == ['.', '.']) || s.toList.tails.any (['.', '.'].isPrefixOf ·)

/-- What is before the first separator and what is after it. -/
def splitOnce (sep : Char) (s : String) : Option (String × String) :=
  if sep ∈ s.toList then
    some (String.ofList (s.toList.takeWhile (· ≠ sep)),
      String.ofList (s.toList.dropWhile (· ≠ sep)).tail)
  else none

/-! ### Problems -/

/-- What is wrong with a bundle manifest or a tune file. -/
inductive RegistryProblem
  | noArchs
  | emptyArchName
  | duplicateArch (arch : ArchName)
  | hashLength (hash : String) (length : ℕ)
  | hashNotHex (hash : String)
  | absolutePath (key file : String)
  | parentTraversal (key file : String)
  | emptyPath (key : String)
  | emptyEntryArch (hash : String)
  | unlistedArch (hash : String) (arch : ArchName) (archs : List ArchName)
  | unlistedPathArch (hash file first : String) (archs : List ArchName)
  | pathArchMismatch (hash file first : String) (arch : ArchName)
  | zeroGrid (key : String) (grid : ℕ × ℕ × ℕ)
  | zeroBlock (key : String) (block : ℕ × ℕ × ℕ)
  | emptySymbol (hash : String)
  | emptyTuneArch
  | clock (key : Option String) (bits : UInt32)
  | unknownOp (key op : String)
  | badStaticHash (key : String)
  | malformedKey (key : String)
  | median (key : String) (bits : UInt64)
  | zeroTile (key : String) (m n k : ℕ)
  | zeroWaves (key : String) (m n k : ℕ)
  | zeroSplits (key : String)
  | noBaseDir (key codeObject : String)
  /-- A problem of a static description. -/
  | static (text : String)
  deriving DecidableEq

/-- Why a call of the registry fails. -/
inductive RegistryError
  | unlistedArchRefused (arch : ArchName) (supported : List ArchName)
  | genVersionMismatch (expected got : ℕ) (path : Option String)
  | variantNotFound (op : OpId) (arch : ArchName) (staticHash : UInt64)
  | variantNotValidated (hash : UInt64) (op : OpId) (arch : ArchName)
  | t1FallbackFailed (op : OpId) (arch : ArchName)
  | manifestParseError (path detail : String)
  | tuneParseError (path detail : String)
  | moduleLoadError (hash : UInt64) (symbol detail : String)
  | validationFailed (problems : List RegistryProblem)
  | staticOpMismatch (op staticOp : OpId)
  | io (text : String)
  /-- Another failure, of a compiler or of the device. -/
  | other (text : String)
  deriving DecidableEq

/-- Fails with all problems if there are any. -/
def RegistryError.ofProblems : List RegistryProblem → Except RegistryError Unit
  | [] => .ok ()
  | problems => .error (.validationFailed problems)

theorem RegistryError.ofProblems_eq_ok {problems : List RegistryProblem} {u : Unit} :
    ofProblems problems = .ok u ↔ problems = [] := by
  cases problems with
  | nil => exact iff_of_true rfl rfl
  | cons p problems => exact iff_of_false (by simp [ofProblems]) (by simp)

/-- A problem, if there is one. -/
def problemIf (c : Bool) (p : RegistryProblem) : List RegistryProblem := if c then [p] else []

theorem problemIf_eq_nil {c : Bool} {p : RegistryProblem} : problemIf c p = [] ↔ c = false := by
  cases c <;> simp [problemIf]

/-! ### Manifests -/

/-- An entry of a manifest. -/
structure ManifestVariantEntry where
  arch : ArchName
  file : String
  tier : Tier
  entrySymbol : String
  launchGeometry : LaunchGeometry
  workspaceBytes : ℕ
  staticBytes : ℕ
  staticFlops : ℕ
  op : Option OpId
  staticHash : Option UInt64
  validated : Bool
  deriving DecidableEq

/-- An entry without an operation serves every request. -/
def ManifestVariantEntry.matchesRequest (e : ManifestVariantEntry) (requested : OpId) : Bool :=
  match e.op with
  | some op => op == requested
  | none => true

/-- A manifest. -/
structure BundleManifest where
  genVersion : ℕ
  archs : List ArchName
  variants : Std.ExtTreeMap String ManifestVariantEntry

/-- Some dimension is zero. -/
def hasZero (d : ℕ × ℕ × ℕ) : Bool := d.1 == 0 || d.2.1 == 0 || d.2.2 == 0

namespace BundleManifest

variable (m : BundleManifest)

/-- The problems of a list of architectures, after some that were seen. -/
def archProblems (seen : List ArchName) : List ArchName → List RegistryProblem
  | [] => []
  | arch :: archs =>
    problemIf (isBlank arch) .emptyArchName ++ problemIf (seen.contains arch) (.duplicateArch arch) ++
      archProblems (arch :: seen) archs

/-- The problems of a path that starts with an architecture. -/
def pathArchProblems (hash : String) (e : ManifestVariantEntry) : List RegistryProblem :=
  match splitOnce '/' e.file with
  | none => []
  | some (first, _) =>
    if "gfx".toList.isPrefixOf first.toList then
      problemIf (!m.archs.contains first) (.unlistedPathArch hash e.file first m.archs) ++
        problemIf (e.arch != "" && first != e.arch) (.pathArchMismatch hash e.file first e.arch)
    else []

/-- The problems of an entry. -/
def entryProblems (x : String × ManifestVariantEntry) : List RegistryProblem :=
  problemIf (x.1.utf8ByteSize != 16) (.hashLength x.1 x.1.utf8ByteSize) ++
    problemIf (fromHex x.1).toOption.isNone (.hashNotHex x.1) ++
    problemIf (isAbsolutePath x.2.file) (.absolutePath x.1 x.2.file) ++
    problemIf (traversesParent x.2.file) (.parentTraversal x.1 x.2.file) ++
    problemIf (isBlank x.2.file) (.emptyPath x.1) ++
    (if isBlank x.2.arch then [.emptyEntryArch x.1]
      else problemIf (!m.archs.contains x.2.arch) (.unlistedArch x.1 x.2.arch m.archs)) ++
    m.pathArchProblems x.1 x.2 ++
    problemIf (hasZero x.2.launchGeometry.grid) (.zeroGrid x.1 x.2.launchGeometry.grid) ++
    problemIf (hasZero x.2.launchGeometry.block) (.zeroBlock x.1 x.2.launchGeometry.block) ++
    problemIf (isBlank x.2.entrySymbol) (.emptySymbol x.1)

/-- Everything that is wrong with a manifest. -/
def problems : List RegistryProblem :=
  problemIf m.archs.isEmpty .noArchs ++ archProblems [] m.archs ++
    m.variants.toList.flatMap m.entryProblems

def validate : Except RegistryError Unit := RegistryError.ofProblems m.problems

/-- A bundle serves one version of the generator. -/
def validateVersion (expected : ℕ) (path : Option String) : Except RegistryError Unit :=
  Checked.ensure (m.genVersion = expected) (.genVersionMismatch expected m.genVersion path)

def isArchSupported (arch : ArchName) : Bool := m.archs.contains arch

/-- The entry of a hash. -/
def getVariant (hash : UInt64) : Option ManifestVariantEntry := m.variants[toHex hash]?

/-- An entry for another operation is refused. -/
def checkEntryFor (e : ManifestVariantEntry) (requested : OpId) : Except RegistryError Unit :=
  match e.op with
  | some op => Checked.ensure (op = requested) (.staticOpMismatch requested op)
  | none => .ok ()

end BundleManifest

/-! ### Manifests that are accepted -/

section Validate

variable {m : BundleManifest} {k : String} {e : ManifestVariantEntry}

theorem BundleManifest.entryProblems_eq_nil (h : m.validate = .ok ()) (hk : m.variants[k]? = some e) :
    m.entryProblems (k, e) = [] := by
  have hnil := RegistryError.ofProblems_eq_ok.mp h
  unfold problems at hnil
  rw [append_eq_nil_iff, flatMap_eq_nil_iff] at hnil
  exact hnil.2 (k, e) (Std.ExtTreeMap.mem_toList_iff_getElem?_eq_some.mpr hk)

theorem BundleManifest.key_ok (h : m.validate = .ok ()) (hk : m.variants[k]? = some e) :
    k.utf8ByteSize = 16 ∧ ∃ hash, fromHex k = .ok hash := by
  have hnil := m.entryProblems_eq_nil h hk
  simp only [entryProblems, append_eq_nil_iff, problemIf_eq_nil] at hnil
  obtain ⟨⟨⟨⟨⟨⟨⟨⟨⟨hlen, hread⟩, -⟩, -⟩, -⟩, -⟩, -⟩, -⟩, -⟩, -⟩ := hnil
  refine ⟨by simpa using hlen, ?_⟩
  cases hhex : fromHex k with
  | ok hash => exact ⟨hash, rfl⟩
  | error err =>
    rw [hhex] at hread
    cases hread

theorem BundleManifest.arch_listed (h : m.validate = .ok ()) (hk : m.variants[k]? = some e) :
    m.isArchSupported e.arch = true := by
  have hnil := m.entryProblems_eq_nil h hk
  simp only [entryProblems, append_eq_nil_iff] at hnil
  obtain ⟨⟨⟨⟨⟨-, harch⟩, -⟩, -⟩, -⟩, -⟩ := hnil
  split_ifs at harch
  rw [problemIf_eq_nil] at harch
  unfold isArchSupported
  simpa using harch

end Validate

end R9v

import R9v.Registry.Manifest

/-!
# Tune files

The tune files of the registry, and what is checked of them (`r9v-registry/src/tune.rs`). A tune
file maps keys, each an operation and a static hash, to entries.
-/

namespace R9v

open List

/-- A tile configuration of a kernel. -/
structure TileConfig where
  blockM : ℕ
  blockN : ℕ
  blockK : ℕ
  wavesM : ℕ
  wavesN : ℕ
  wavesK : ℕ
  kSplits : ℕ
  ldsBytes : ℕ
  vgprs : ℕ
  deriving DecidableEq

def TileConfig.problems (c : TileConfig) (key : String) : List RegistryProblem :=
  problemIf (hasZero (c.blockM, c.blockN, c.blockK)) (.zeroTile key c.blockM c.blockN c.blockK) ++
    problemIf (hasZero (c.wavesM, c.wavesN, c.wavesK)) (.zeroWaves key c.wavesM c.wavesN c.wavesK) ++
    problemIf (c.kSplits == 0) (.zeroSplits key)

/-- An entry of a tune file, with the clock that it was measured at. -/
structure TuneEntry where
  config : TileConfig
  medianUs : Float
  bytes : ℕ
  flops : ℕ
  launchGeometry : LaunchGeometry
  workspaceBytes : ℕ
  codeObject : Option String
  validated : Bool
  clockMhz : Option Float32

/-- A tune file, with the clock that it was measured at. -/
structure TuneFile where
  arch : ArchName
  genVersion : ℕ
  clockMhz : Option Float32
  entries : Std.ExtTreeMap String TuneEntry

namespace TuneFile

/-- The key of an operation and a static hash. -/
def entryKey (op : OpId) (staticHash : UInt64) : String :=
  String.ofList (op.asStr.toList ++ '.' :: (toHex staticHash).toList)

def clockProblems (key : Option String) : Option Float32 → List RegistryProblem
  | none => []
  | some mhz => problemIf (!mhz.isFinite || mhz ≤ 0) (.clock key mhz.toBits)

/-- The problems of a key. -/
def keyProblems (key : String) : List RegistryProblem :=
  match splitOnce '.' key with
  | some (op, hash) =>
    problemIf (OpId.parseOp op).isNone (.unknownOp key op) ++
      problemIf (hash.utf8ByteSize != 16 || (fromStrRadix16 hash.toList).toOption.isNone)
        (.badStaticHash key)
  | none => [.malformedKey key]

def codeObjectProblems (key : String) : Option String → List RegistryProblem
  | none => []
  | some co =>
    problemIf (isAbsolutePath co) (.absolutePath key co) ++
      problemIf (traversesParent co) (.parentTraversal key co) ++
      problemIf (isBlank co) (.emptyPath key)

/-- The problems of an entry. -/
def entryProblems (x : String × TuneEntry) : List RegistryProblem :=
  keyProblems x.1 ++ codeObjectProblems x.1 x.2.codeObject ++
    problemIf (!x.2.medianUs.isFinite || x.2.medianUs ≤ 0) (.median x.1 x.2.medianUs.toBits) ++
    problemIf (hasZero x.2.launchGeometry.grid) (.zeroGrid x.1 x.2.launchGeometry.grid) ++
    problemIf (hasZero x.2.launchGeometry.block) (.zeroBlock x.1 x.2.launchGeometry.block) ++
    x.2.config.problems x.1 ++ clockProblems (some x.1) x.2.clockMhz

variable (t : TuneFile)

/-- Everything that is wrong with a tune file. -/
def problems : List RegistryProblem :=
  problemIf (isBlank t.arch) .emptyTuneArch ++ clockProblems none t.clockMhz ++
    t.entries.toList.flatMap entryProblems

def validate : Except RegistryError Unit := RegistryError.ofProblems t.problems

/-- The entry of an operation and a static hash. -/
def getEntry (op : OpId) (staticHash : UInt64) : Option TuneEntry :=
  t.entries[entryKey op staticHash]?

/-- The operation and the static hash of a key. -/
def parseKey (key : String) : Option (OpId × UInt64) := do
  let (op, hash) ← splitOnce '.' key
  let op ← OpId.parseOp op
  let hash ← (fromStrRadix16 hash.toList).toOption
  pure (op, hash)

end TuneFile

/-! ### Keys -/

section Keys

variable {key a b : String} {op : OpId} {hash : UInt64}

/-- A text is what is before its first separator, the separator, and what is after it. -/
theorem toList_of_splitOnce {sep : Char} (h : splitOnce sep key = some (a, b)) :
    key.toList = a.toList ++ sep :: b.toList ∧ sep ∉ a.toList := by
  unfold splitOnce at h
  split_ifs at h with hmem
  obtain ⟨rfl, rfl⟩ := Prod.mk.inj (Option.some.inj h)
  simp only [String.toList_ofList]
  generalize key.toList = l at hmem ⊢
  induction l with
  | nil => cases hmem
  | cons c l ih =>
    by_cases hc : c = sep
    · subst hc
      simp
    · have hmem' : sep ∈ l := (mem_cons.mp hmem).resolve_left (Ne.symm hc)
      obtain ⟨heq, hnot⟩ := ih hmem'
      have hpos : decide (c ≠ sep) = true := by simpa using hc
      rw [takeWhile_cons_of_pos (p := fun x => decide (x ≠ sep)) hpos,
        dropWhile_cons_of_pos (p := fun x => decide (x ≠ sep)) hpos, cons_append, ← heq]
      exact ⟨rfl, not_mem_cons_of_ne_of_not_mem (Ne.symm hc) hnot⟩

theorem splitOnce_of_toList {sep : Char} (h : key.toList = a.toList ++ sep :: b.toList)
    (hsep : sep ∉ a.toList) : splitOnce sep key = some (a, b) := by
  have hall : ∀ c ∈ a.toList, decide (c ≠ sep) = true := by
    intro c hc
    simpa using ne_of_mem_of_not_mem hc hsep
  unfold splitOnce
  rw [h, if_pos (by simp), takeWhile_append_of_pos hall, dropWhile_append_of_pos hall]
  simp

theorem dot_notMem_asStr (op : OpId) : '.' ∉ op.asStr.toList := by
  cases op <;> decide

theorem TuneFile.parseKey_eq_some : parseKey key = some (op, hash) ↔
    ∃ s : String, key.toList = op.asStr.toList ++ '.' :: s.toList ∧
      fromStrRadix16 s.toList = .ok hash := by
  unfold parseKey
  simp only [Option.bind_eq_bind, Option.bind_eq_some_iff, Prod.exists, Option.pure_def,
    Option.some.injEq, Prod.mk.injEq]
  constructor
  · rintro ⟨a, b, hsplit, op', hop, hash', hhash, rfl, rfl⟩
    obtain ⟨heq, -⟩ := toList_of_splitOnce hsplit
    refine ⟨b, by rw [OpId.asStr_of_parseOp hop]; exact heq, ?_⟩
    cases hread : fromStrRadix16 b.toList with
    | ok h =>
      rw [hread] at hhash
      rw [Option.some.inj hhash]
    | error e =>
      rw [hread] at hhash
      cases hhash
  · rintro ⟨s, heq, hread⟩
    exact ⟨op.asStr, s, splitOnce_of_toList heq (dot_notMem_asStr op), op, OpId.parseOp_asStr op,
      hash, by rw [hread]; rfl, rfl, rfl⟩

theorem TuneFile.entryKey_eq_iff {s : String} (heq : key.toList = op.asStr.toList ++ '.' :: s.toList)
    (hread : fromStrRadix16 s.toList = .ok hash) : entryKey op hash = key ↔ Canonical s := by
  rw [← toHex_eq_iff_radix hread, ← String.toList_inj, ← String.toList_inj]
  unfold entryKey
  rw [String.toList_ofList, heq, append_cancel_left_eq, cons_inj_right]

theorem TuneFile.key_ok {t : TuneFile} {e : TuneEntry} (h : t.validate = .ok ())
    (hk : t.entries[key]? = some e) : ∃ op hash, parseKey key = some (op, hash) := by
  have hnil := RegistryError.ofProblems_eq_ok.mp h
  unfold problems at hnil
  rw [append_eq_nil_iff, flatMap_eq_nil_iff] at hnil
  have hentry := hnil.2 (key, e) (Std.ExtTreeMap.mem_toList_iff_getElem?_eq_some.mpr hk)
  simp only [entryProblems, append_eq_nil_iff] at hentry
  obtain ⟨⟨⟨⟨⟨⟨hkey, -⟩, -⟩, -⟩, -⟩, -⟩, -⟩ := hentry
  unfold keyProblems at hkey
  unfold parseKey
  cases hsplit : splitOnce '.' key with
  | none =>
    rw [hsplit] at hkey
    cases hkey
  | some x =>
    simp only [hsplit, append_eq_nil_iff, problemIf_eq_nil, Bool.or_eq_false_iff,
      Option.isNone_eq_false_iff, Option.isSome_iff_exists] at hkey
    obtain ⟨⟨op, hop⟩, -, hash, hhash⟩ := hkey
    exact ⟨op, hash, by simp [hop, hhash]⟩

end Keys

end R9v

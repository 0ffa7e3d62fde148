import R9v.Lib.Loops
import R9v.Loader.ShardNames

/-!
# Opening a checkpoint

A checkpoint is one file or the files of a split set (`r9v-loader/src/open.rs`). A set that is given
by its paths is put in the order of the numbers of its shards (`openShardSetWithFileSizes`), and the
set of one path is found by the names of its files (`openOneOrSet`). What is opened depends neither
on the order of the paths nor, if the names can be derived from each other, on the path at hand
(`shard_sets`).

What is read of a file, its metadata and the hash functions are those of an arbitrary `World`.
-/

namespace R9v.Open

open Checked R9v.Format List

/-- A path, as its directory and its last part, if that is text. -/
structure FilePath where
  parent : List Char
  name : Option (List Char)
  deriving DecidableEq

/-- What is read of the file of a shard. -/
structure ShardFile where
  file : GgufFile
  parsed : file.Parsed
  fileFp : BitVec 128
  bytesRead : UInt64

structure OpenedShard (μ : Type) where
  path : FilePath
  data : ShardFile
  r9vMeta : Option μ

/-- The file system, the parser of the metadata of native files and the hash function. -/
structure World (μ δ : Type) where
  diskLen : FilePath → Except δ UInt64
  read : FilePath → UInt64 → Except δ ShardFile
  parseR9vMeta : GgufFile → Except FormatError (Option μ)
  /-- The hash of a tensor, in the metadata. -/
  tensorXxh3 : μ → Bytes → Option UInt64
  xxh3 : Bytes → BitVec 128

inductive OpenError (δ : Type)
  /-- shard path set is empty -/
  | emptySet
  /-- shard path/size count mismatch: {paths} paths vs {sizes} sizes -/
  | countMismatch (paths sizes : ℕ)
  | io (e : δ)
  | set (e : SetError)
  | r9vMeta (e : FormatError)
  | overflow (total : ℕ) (bytesRead : UInt64)
  | shardPattern (path : FilePath) (problem : PatternProblem)
  | missingShard (index count : ℕ) (expected : FilePath)

inductive ModelFingerprint
  | ready (fp : BitVec 128)
  | pendingUntilRepack

structure OpenedCheckpoint (μ : Type) where
  shards : List (OpenedShard μ)
  set : ShardSet
  mergedFileFp : BitVec 128
  modelFp : ModelFingerprint
  bytesRead : ℕ

def splitDecl (f : GgufFile) : Option (UInt16 × UInt16) :=
  (splitNo f).bind fun no => (splitCount f).map fun count => (no, count)

/-- The paths of all files of a set, from one of them. -/
def siblingPaths (path : FilePath) (decl : Option (UInt16 × UInt16)) :
    Except PatternProblem (List FilePath) := do
  let (no, count) ← okOr decl .noDecl
  let name ← okOr path.name .notUtf8
  let names ← siblingNames name no count
  pure (names.map fun name => ⟨path.parent, some name⟩)

/-! ### The paths of a set -/

section Paths

variable {path : FilePath} {no count : UInt16} {paths : List FilePath}

/-- The number of files is not wider than the number in the name of a file. -/
def NarrowCount (path : FilePath) (count : ℕ) : Prop :=
  ∀ (name : List Char) (f : NameFields), path.name = some name → shardFields name = some f →
    count < 10 ^ f.own.length

theorem siblingPaths_eq_ok : siblingPaths path (some (no, count)) = .ok paths ↔
    ∃ name names, path.name = some name ∧ siblingNames name no count = .ok names ∧
      paths = names.map fun name => ⟨path.parent, some name⟩ := by
  simp only [siblingPaths, bind_eq_ok, okOr_eq_ok, Option.some.injEq]
  constructor
  · rintro ⟨_, rfl, name, hname, names, hnames, heq⟩
    exact ⟨name, names, hname, hnames, (Except.ok.inj heq).symm⟩
  · rintro ⟨name, names, hname, hnames, rfl⟩
    exact ⟨(no, count), rfl, name, hname, names, hnames, rfl⟩

/-- **The paths are different**, as many as the files, and one of them is the path at hand. -/
theorem siblingPaths_self (h : siblingPaths path (some (no, count)) = .ok paths)
    (hlt : no < count) :
    paths.length = count.toNat ∧ paths.Nodup ∧ paths[no.toNat]? = some path := by
  obtain ⟨name, names, hname, hnames, rfl⟩ := siblingPaths_eq_ok.mp h
  obtain ⟨hlen, hnodup, hself⟩ := siblingNames_self hnames hlt
  refine ⟨by rw [length_map, hlen], hnodup.map fun a b hab => ?_, ?_⟩
  · exact Option.some.inj (FilePath.mk.inj hab).2
  · rw [getElem?_map, hself, Option.map_some, ← hname]

/-- **Every path of a set gives the same paths** exactly if the number of files is not wider than
the number in the name at hand. -/
theorem siblingPaths_iff (h : siblingPaths path (some (no, count)) = .ok paths) :
    (∀ (j : UInt16) (path' : FilePath), paths[j.toNat]? = some path' →
      siblingPaths path' (some (j, count)) = .ok paths) ↔ NarrowCount path count.toNat := by
  obtain ⟨name, names, hname, hnames, rfl⟩ := siblingPaths_eq_ok.mp h
  have hiff := siblingNames_iff hnames
  have hnarrow : NarrowCount path count.toNat ↔
      ∀ f, shardFields name = some f → count.toNat < 10 ^ f.own.length := by
    constructor
    · exact fun h f hf => h name f hname hf
    · intro h name' f hname' hf
      obtain rfl : name = name' := Option.some.inj (hname.symm.trans hname')
      exact h f hf
  rw [hnarrow, ← hiff]
  constructor
  · intro hall j name' hname'
    have hpath := hall j ⟨path.parent, some name'⟩ (by rw [getElem?_map, hname']; rfl)
    obtain ⟨_, names', hsome, hnames', heq⟩ := siblingPaths_eq_ok.mp hpath
    cases hsome
    have hinj : Function.Injective fun n : List Char => FilePath.mk path.parent (some n) :=
      fun a b hab => Option.some.inj (FilePath.mk.inj hab).2
    rw [hnames', map_injective_iff.mpr hinj heq]
  · intro hall j path' hpath'
    rw [getElem?_map, Option.map_eq_some_iff] at hpath'
    obtain ⟨name', hname', rfl⟩ := hpath'
    exact siblingPaths_eq_ok.mpr ⟨name', names, rfl, hall j name' hname', rfl⟩

end Paths

namespace World

variable {μ δ : Type} (W : World μ δ)

/-! ### Shards -/

def openOne (path : FilePath) (fileSize : UInt64) : Except (OpenError δ) (OpenedShard μ) :=
  (W.read path fileSize).mapError .io |>.map fun data => ⟨path, data, none⟩

/-- The size that is given, or that of the file. -/
def logicalSize (path : FilePath) (size : Option UInt64) : Except (OpenError δ) UInt64 :=
  match size with
  | some n => .ok n
  | none => (W.diskLen path).mapError .io

def openSized (p : FilePath × Option UInt64) : Except (OpenError δ) (OpenedShard μ) := do
  let logical ← W.logicalSize p.1 p.2
  W.openOne p.1 logical

/-- The shard with the metadata of a native file. -/
def readMeta (s : OpenedShard μ) : Except (OpenError δ) (OpenedShard μ) :=
  if s.data.file.isNative then
    (W.parseR9vMeta s.data.file).mapError .r9vMeta |>.map fun m => { s with r9vMeta := m }
  else .ok s

/-! ### The merged checkpoint -/

def mergedFileFp : List (BitVec 128) → BitVec 128
  | [fp] => fp
  | fps => W.xxh3 (fps.flatMap fun fp => leBytes 16 fp.toNat)

def modelFp (fileFp : BitVec 128) (hashes : List UInt64) : BitVec 128 :=
  W.xxh3 (leBytes 16 fileFp.toNat ++ hashes.flatMap fun h => leBytes 8 h.toNat)

/-- The fingerprint of the model, if the hashes of all tensors are known. -/
def modelFpOf (set : ShardSet) (shards : List (OpenedShard μ)) (fileFp : BitVec 128) :
    ModelFingerprint :=
  let hashes := (List.range set.len).mapM fun i =>
    (set.tensorAt i).bind fun t => (shards[t.1]?.bind (·.r9vMeta)).bind fun m =>
      W.tensorXxh3 m t.2.name.bytes
  match hashes with
  | some hashes => .ready (W.modelFp fileFp hashes)
  | none => .pendingUntilRepack

/-- The number of bytes that have been read, and the shards with their metadata. -/
def assembleLoop : ℕ → List (OpenedShard μ) → Except (OpenError δ) (ℕ × List (OpenedShard μ))
  | total, [] => .ok (total, [])
  | total, s :: rest => do
    let total' ← okOr (add 64 total s.data.bytesRead.toNat) (.overflow total s.data.bytesRead)
    let s ← W.readMeta s
    let (total, rest) ← assembleLoop total' rest
    pure (total, s :: rest)

def assemble (shards : List (OpenedShard μ)) : Except (OpenError δ) (OpenedCheckpoint μ) := do
  let set ← (ShardSet.openShards (shards.map (·.data.file))).mapError .set
  let (bytesRead, shards) ← W.assembleLoop 0 shards
  let fileFp := W.mergedFileFp (shards.map (·.data.fileFp))
  pure ⟨shards, set, fileFp, W.modelFpOf set shards fileFp, bytesRead⟩

/-- What shards are sorted by. -/
def sortKey (s : OpenedShard μ) : ℕ := (splitNo s.data.file).elim (2 ^ 32 - 1) UInt16.toNat

/-- The shards by their numbers, if they all have one. -/
def orderShards (shards : List (OpenedShard μ)) : List (OpenedShard μ) :=
  if shards.all fun s => (splitNo s.data.file).isSome then
    shards.mergeSort fun s t => sortKey s ≤ sortKey t
  else shards

/-- Opens a set that is given by its paths. -/
def openShardSetWithFileSizes (paths : List FilePath) (sizes : List (Option UInt64)) :
    Except (OpenError δ) (OpenedCheckpoint μ) := do
  ensure (paths ≠ []) .emptySet
  ensure (paths.length = sizes.length) (.countMismatch paths.length sizes.length)
  let shards ← (paths.zip sizes).mapM W.openSized
  W.assemble (orderShards shards)

/-- Opens a file of a set that has to be there. -/
def openSibling (count : UInt16) (p : FilePath × ℕ) : Except (OpenError δ) (OpenedShard μ) :=
  match W.diskLen p.1 with
  | .error _ => .error (.missingShard p.2 count.toNat p.1)
  | .ok logical => W.openOne p.1 logical

/-- Opens a file, with the other files of its set. -/
def openOneOrSet (path : FilePath) (fileSize : Option UInt64) :
    Except (OpenError δ) (OpenedCheckpoint μ) := do
  let first ← W.openSized (path, fileSize)
  match splitDecl first.data.file with
  | none => W.assemble [first]
  | some (no, count) =>
    if count ≤ 1 then W.assemble [first]
    else do
      let siblings ← (siblingPaths path (some (no, count))).mapError (.shardPattern path)
      ensure (siblings[no.toNat]? = some path) (.shardPattern path .notIncluded)
      let shards ← siblings.zipIdx.mapM fun p =>
        if p.2 = no.toNat then .ok first else W.openSibling count p
      W.assemble shards

/-! ### The order of the paths -/

section Order

variable {W} {paths : List FilePath} {shards shards' : List (OpenedShard μ)}
  {c : OpenedCheckpoint μ}
  {l l' : List (FilePath × Option UInt64)}

theorem mapM_perm {α β ε : Type} {f : α → Except ε β} {l l' : List α} {r : List β} (h : l.Perm l')
    (hl : l.mapM f = .ok r) : ∃ r', l'.mapM f = .ok r' ∧ r.Perm r' := by
  induction h generalizing r with
  | nil => exact ⟨r, hl, List.Perm.refl r⟩
  | cons a _ ih =>
    simp only [mapM_cons, bind_eq_ok] at hl ⊢
    obtain ⟨b, hb, rest, hrest, heq⟩ := hl
    cases heq
    obtain ⟨rest', hrest', hperm⟩ := ih hrest
    exact ⟨b :: rest', ⟨b, hb, rest', hrest', rfl⟩, hperm.cons b⟩
  | swap a b l =>
    simp only [mapM_cons, bind_eq_ok] at hl ⊢
    obtain ⟨x, hx, _, ⟨y, hy, rest, hrest, heq⟩, heq'⟩ := hl
    cases heq
    cases heq'
    exact ⟨y :: x :: rest, ⟨y, hy, x :: rest, ⟨x, hx, rest, hrest, rfl⟩, rfl⟩, .swap y x rest⟩
  | trans _ _ ih ih' =>
    obtain ⟨r', hr', hperm⟩ := ih hl
    obtain ⟨r'', hr'', hperm'⟩ := ih' hr'
    exact ⟨r'', hr'', hperm.trans hperm'⟩

/-- **What the shards of a set say of it**, if it has been opened. -/
theorem assemble_eq_ok (h : W.assemble shards = .ok c) :
    ShardSet.openShards (shards.map (·.data.file)) = .ok c.set ∧
      ∃ n, W.assembleLoop 0 shards = .ok (n, c.shards) := by
  simp only [assemble, bind_eq_ok] at h
  obtain ⟨set, hset, ⟨n, shards'⟩, hloop, heq⟩ := h
  cases heq
  refine ⟨?_, n, hloop⟩
  cases hopen : ShardSet.openShards (shards.map (·.data.file)) with
  | error e =>
    rw [hopen] at hset
    cases hset
  | ok set' =>
    rw [hopen] at hset
    cases hset
    rfl

theorem agrees_of_assemble (h : W.assemble shards = .ok c) (hlen : 1 < shards.length) {k : ℕ}
    {s : OpenedShard μ} (hs : shards[k]? = some s) :
    Agrees shards.length c.set.len k s.data.file := by
  obtain ⟨-, -, -, -, hagrees⟩ := ShardSet.openShards_eq_ok (assemble_eq_ok h).1
  rw [length_map] at hagrees
  refine agrees_of_shardProblems (hagrees (Or.inl hlen) k s.data.file ?_)
  rw [getElem?_map, hs]
  rfl

theorem orderShards_perm (shards : List (OpenedShard μ)) : (orderShards shards).Perm shards := by
  rw [orderShards]
  split
  · exact mergeSort_perm _ _
  · exact List.Perm.refl _

/-- **The order of the shards** does not matter for a set that can be opened. -/
theorem orderShards_eq (h : W.assemble (orderShards shards) = .ok c) (hperm : shards.Perm shards') :
    orderShards shards' = orderShards shards := by
  have hlen : (orderShards shards).length = shards.length := (orderShards_perm shards).length_eq
  rcases Nat.lt_or_ge 1 shards.length with hmany | hfew
  · have hagrees := fun {k s} => agrees_of_assemble (k := k) (s := s) h (by rwa [hlen])
    have hno : ∀ s ∈ shards, (splitNo s.data.file).isSome = true := by
      intro s hs
      obtain ⟨k, hk⟩ := getElem?_of_mem ((orderShards_perm shards).mem_iff.mpr hs)
      obtain ⟨no, hno, -⟩ := (hagrees hk).splitNo
      rw [hno]
      rfl
    have hall : (shards.all fun s => (splitNo s.data.file).isSome) = true :=
        all_eq_true.mpr hno
    have hall' : (shards'.all fun s => (splitNo s.data.file).isSome) = true :=
      all_eq_true.mpr fun s hs => hno s (hperm.mem_iff.mpr hs)
    have hsorted : ∀ l : List (OpenedShard μ),
        (l.mergeSort fun s t => sortKey s ≤ sortKey t).Pairwise fun s t => sortKey s ≤
          sortKey t := by
      intro l
      refine (pairwise_mergeSort (fun a b c => ?_) (fun a b => ?_) l).imp fun h =>
        of_decide_eq_true h
      · simp only [decide_eq_true_eq]
        exact Nat.le_trans
      · simp only [Bool.or_eq_true, decide_eq_true_eq]
        exact Nat.le_total _ _
    have hkey : ∀ {k s}, (orderShards shards)[k]? = some s → sortKey s = k := by
      intro k s hs
      obtain ⟨no, hno, hk⟩ := (hagrees hs).splitNo
      rw [sortKey, hno]
      exact hk
    have heq : orderShards shards = shards.mergeSort fun s t => sortKey s ≤ sortKey t := if_pos hall
    have heq' : orderShards shards' = shards'.mergeSort fun s t => sortKey s ≤ sortKey t :=
      if_pos hall'
    have hsame : (orderShards shards').Perm (orderShards shards) :=
      ((orderShards_perm shards').trans hperm.symm).trans (orderShards_perm shards).symm
    have hanti : ∀ s t, s ∈ orderShards shards' → t ∈ orderShards shards →
        sortKey s ≤ sortKey t → sortKey t ≤ sortKey s → s = t := by
      intro s t hs ht hst hts
      obtain ⟨k, hk⟩ := getElem?_of_mem (hsame.mem_iff.mp hs)
      obtain ⟨m, hm⟩ := getElem?_of_mem ht
      obtain rfl : k = m := by
        rw [← hkey hk, ← hkey hm]
        exact Nat.le_antisymm hst hts
      exact Option.some.inj (hk.symm.trans hm)
    refine Perm.eq_of_pairwise hanti ?_ ?_ hsame
    · rw [heq']
      exact hsorted _
    · rw [heq]
      exact hsorted _
  -- there is only one order of at most one shard
  · obtain rfl : shards' = shards := by
      rcases shards with _ | ⟨a, _ | ⟨b, rest⟩⟩
      · exact nil_perm.mp hperm
      · exact singleton_perm.mp hperm |>.symm
      · rw [length_cons, length_cons] at hfew
        omega
    rfl

/-- **The order of the paths** does not matter. -/
theorem openShardSet_perm (h : l.Perm l')
    (hopen : W.openShardSetWithFileSizes (l.map Prod.fst) (l.map Prod.snd) = .ok c) :
    W.openShardSetWithFileSizes (l'.map Prod.fst) (l'.map Prod.snd) = .ok c := by
  have hzip : ∀ l : List (FilePath × Option UInt64), (l.map Prod.fst).zip (l.map Prod.snd) = l :=
    fun l => by rw [zip_map', map_id']
  simp only [openShardSetWithFileSizes, bind_eq_ok, ensure_eq_ok, hzip] at hopen ⊢
  obtain ⟨-, hne, -, -, shards, hshards, hassemble⟩ := hopen
  obtain ⟨shards', hshards', hperm⟩ := mapM_perm h hshards
  refine ⟨(), fun hnil => hne ?_, (), ?_, shards', hshards', ?_⟩
  · rw [map_eq_nil_iff] at hnil ⊢
    rw [hnil] at h
    exact h.eq_nil
  · rw [length_map, length_map]
  · rw [orderShards_eq hassemble hperm]
    exact hassemble

theorem finds_of_openShardSet {sizes : List (Option UInt64)}
    (hopen : W.openShardSetWithFileSizes paths sizes = .ok c) : c.set.Finds ∧
      (∀ f ∈ c.set.shards, ∀ count, splitTensorsCount f = some count →
        count.toInt = c.set.len) ∧
      (1 < c.set.shards.length → ∀ f ∈ c.set.shards, (splitTensorsCount f).isSome = true) := by
  simp only [openShardSetWithFileSizes, bind_eq_ok] at hopen
  obtain ⟨-, -, -, -, shards, -, hassemble⟩ := hopen
  have hset := (assemble_eq_ok hassemble).1
  obtain ⟨hshards, -, -, -, hagrees⟩ := ShardSet.openShards_eq_ok hset
  refine ⟨ShardSet.finds (fun f hf => ?_) hset, fun f hf count hcount => ?_, fun hlen f hf => ?_⟩
  · obtain ⟨s, -, rfl⟩ := mem_map.mp hf
    exact s.data.parsed
  · rw [hshards] at hf
    obtain ⟨k, hk⟩ := getElem?_of_mem hf
    have hdecl : ((orderShards shards).map (·.data.file)).any hasSplitDecl = true := by
      refine any_eq_true.mpr ⟨f, hf, ?_⟩
      obtain ⟨value, hvalue, -⟩ := Option.bind_eq_some_iff.mp hcount
      simp only [hasSplitDecl, hvalue, Option.isSome_some, Bool.or_true, Bool.true_or]
    obtain ⟨count', hcount', htotal⟩ :=
      (agrees_of_shardProblems (hagrees (Or.inr hdecl) k f hk)).tensorsCount
    rw [hcount] at hcount'
    cases hcount'
    exact htotal
  · rw [hshards] at hf hlen
    obtain ⟨k, hk⟩ := getElem?_of_mem hf
    obtain ⟨count, hcount, -⟩ :=
      (agrees_of_shardProblems (hagrees (Or.inl hlen) k f hk)).tensorsCount
    rw [hcount]
    rfl

end Order

/-! ### Every file of a set -/

section Members

variable {W} {path : FilePath} {c : OpenedCheckpoint μ} {first : OpenedShard μ} {no count : UInt16}
  {siblings : List FilePath} {shards : List (OpenedShard μ)}

theorem openSized_none : W.openSized (path, none) = .ok first ↔
    ∃ n, W.diskLen path = .ok n ∧ W.openOne path n = .ok first := by
  rw [openSized, bind_eq_ok]
  refine exists_congr fun n => and_congr_left' ?_
  rw [logicalSize]
  cases W.diskLen path with
  | ok m =>
    change (Except.ok m : Except (OpenError δ) UInt64) = .ok n ↔ Except.ok m = Except.ok n
    rw [Except.ok.injEq, Except.ok.injEq]
  | error e => exact iff_of_false (fun h => by cases h) fun h => by cases h

theorem openSibling_eq_ok {k : ℕ} : W.openSibling count (path, k) = .ok first ↔
    W.openSized (path, none) = .ok first := by
  rw [openSized_none, openSibling]
  cases hlen : W.diskLen path with
  | ok n =>
    constructor
    · exact fun h => ⟨n, rfl, h⟩
    · rintro ⟨m, hm, h⟩
      cases hm
      exact h
  | error e =>
    refine iff_of_false (fun h => by cases h) ?_
    rintro ⟨m, hm, -⟩
    cases hm

theorem path_of_openOne {n : UInt64} (h : W.openOne path n = .ok first) : first.path = path := by
  rw [openOne] at h
  cases hread : (W.read path n).mapError OpenError.io with
  | error e =>
    rw [hread] at h
    cases h
  | ok data =>
    rw [hread] at h
    cases h
    rfl

theorem mapM_getElem? {α β ε : Type} {f : α → Except ε β} {l : List α} {r : List β}
    (h : l.mapM f = .ok r) : r.length = l.length ∧ ∀ (i : ℕ) (b : β), r[i]? = some b →
      ∃ a, l[i]? = some a ∧ f a = .ok b := by
  induction l generalizing r with
  | nil =>
    cases h
    exact ⟨rfl, fun i b hi => by cases hi⟩
  | cons a l ih =>
    simp only [mapM_cons, bind_eq_ok] at h
    obtain ⟨b, hb, rest, hrest, heq⟩ := h
    cases heq
    obtain ⟨hlen, hget⟩ := ih hrest
    refine ⟨by rw [length_cons, length_cons, hlen], fun i b' hi => ?_⟩
    cases i with
    | zero =>
      cases hi
      exact ⟨a, rfl, hb⟩
    | succ i => exact hget i b' hi

/-- **The set of a file**: the file itself is one of those that are opened. -/
theorem openOneOrSet_eq_ok (hfirst : W.openSized (path, none) = .ok first)
    (hdecl : splitDecl first.data.file = some (no, count)) (hcount : 1 < count) :
    W.openOneOrSet path none = .ok c ↔ ∃ siblings shards,
      siblingPaths path (some (no, count)) = .ok siblings ∧ siblings[no.toNat]? = some path ∧
        siblings.zipIdx.mapM (W.openSibling count) = .ok shards ∧ W.assemble shards = .ok c := by
  have hmapM : ∀ siblings : List FilePath, siblings[no.toNat]? = some path →
      (siblings.zipIdx.mapM fun p => if p.2 = no.toNat then .ok first else W.openSibling count p) =
        siblings.zipIdx.mapM (W.openSibling count) := by
    intro siblings hself
    refine mapM_congr fun p hp => ?_
    split
    · next hno =>
      have hpath := mem_zipIdx_iff_getElem?.mp hp
      rw [hno, hself, Option.some.injEq] at hpath
      have hopen : W.openSibling count (path, no.toNat) = .ok first := openSibling_eq_ok.mpr hfirst
      rw [← hopen, hpath, ← hno]
    · rfl
  have hmap : ∀ (r : Except PatternProblem (List FilePath)) (siblings : List FilePath),
      r.mapError (OpenError.shardPattern path : PatternProblem → OpenError δ) = .ok siblings ↔ r =
        .ok siblings := by
    intro r siblings
    cases r with
    | error e => exact iff_of_false (fun h => by cases h) fun h => by cases h
    | ok l =>
      change (Except.ok l : Except (OpenError δ) _) = _ ↔ _
      rw [Except.ok.injEq, Except.ok.injEq]
  simp only [openOneOrSet, hfirst, bind_eq_ok, Except.ok.injEq, exists_eq_left', hdecl,
    if_neg (UInt16.not_le.mpr hcount), hmap, ensure_eq_ok]
  constructor
  · rintro ⟨siblings, hsiblings, -, hself, shards, hshards, hassemble⟩
    rw [hmapM siblings hself] at hshards
    exact ⟨siblings, shards, hsiblings, hself, hshards, hassemble⟩
  · rintro ⟨siblings, shards, hsiblings, hself, hshards, hassemble⟩
    refine ⟨siblings, hsiblings, (), hself, shards, ?_, hassemble⟩
    rw [hmapM siblings hself]
    exact hshards

theorem assembleLoop_paths {shards shards' : List (OpenedShard μ)} {total n : ℕ}
    (h : W.assembleLoop total shards = .ok (n, shards')) :
    shards'.map (·.path) = shards.map (·.path) := by
  induction shards generalizing total n shards' with
  | nil =>
    cases h
    rfl
  | cons s rest ih =>
    simp only [assembleLoop, bind_eq_ok] at h
    obtain ⟨total', -, s', hs', ⟨n', rest'⟩, hrest, heq⟩ := h
    cases heq
    rw [map_cons, map_cons, ih hrest]
    rw [readMeta] at hs'
    split at hs'
    · cases hmeta : (W.parseR9vMeta s.data.file).mapError
        (OpenError.r9vMeta : FormatError → OpenError δ) with
      | error e =>
        rw [hmeta] at hs'
        cases hs'
      | ok m =>
        rw [hmeta] at hs'
        cases hs'
        rfl
    · cases hs'
      rfl

theorem paths_of_assemble (h : W.assemble shards = .ok c) :
    c.shards.map (·.path) = shards.map (·.path) := by
  obtain ⟨n, hloop⟩ := (assemble_eq_ok h).2
  exact assembleLoop_paths hloop

/-- **Every file of a set opens the same set.** -/
theorem openOneOrSet_member (h : W.openOneOrSet path none = .ok c)
    (hnarrow : NarrowCount path c.shards.length) {path' : FilePath}
    (hmem : path' ∈ c.shards.map (·.path)) : W.openOneOrSet path' none = .ok c := by
  obtain ⟨first, hfirst, hrest⟩ := bind_eq_ok.mp h
  obtain ⟨n, -, hone⟩ := openSized_none.mp hfirst
  have hsingle : W.assemble [first] = .ok c → path' = path := by
    intro hassemble
    rw [paths_of_assemble hassemble, map_singleton, mem_singleton] at hmem
    rw [hmem, path_of_openOne hone]
  cases hdecl : splitDecl first.data.file with
  | none =>
    rw [hdecl] at hrest
    rw [hsingle hrest]
    exact h
  | some decl =>
    obtain ⟨no, count⟩ := decl
    simp only [hdecl] at hrest
    by_cases hcount : count ≤ 1
    · rw [if_pos hcount] at hrest
      rw [hsingle hrest]
      exact h
    rw [UInt16.not_le] at hcount
    obtain ⟨siblings, shards, hsiblings, hself, hshards, hassemble⟩ :=
      (openOneOrSet_eq_ok hfirst hdecl hcount).mp h
    have hlt : no < count := by
      obtain ⟨no', hno', hcount'⟩ := Option.bind_eq_some_iff.mp hdecl
      obtain ⟨count', hcount', heq⟩ := Option.map_eq_some_iff.mp hcount'
      cases heq
      exact first.data.parsed.splitNo_lt hno' hcount'
    obtain ⟨hlen, -, -⟩ := siblingPaths_self hsiblings hlt
    obtain ⟨hshardslen, hget⟩ := mapM_getElem? hshards
    rw [length_zipIdx, hlen] at hshardslen
    -- the shard of the path, and what it says of the set
    rw [paths_of_assemble hassemble] at hmem
    obtain ⟨k, hk⟩ := getElem?_of_mem hmem
    rw [getElem?_map, Option.map_eq_some_iff] at hk
    obtain ⟨s, hs, rfl⟩ := hk
    obtain ⟨⟨p, k'⟩, hp, hopen⟩ := hget k s hs
    rw [getElem?_zipIdx, Option.map_eq_some_iff] at hp
    obtain ⟨p', hp, heq⟩ := hp
    cases heq
    rw [openSibling_eq_ok] at hopen
    have hpath : s.path = p := by
      obtain ⟨m, -, hs⟩ := openSized_none.mp hopen
      exact path_of_openOne hs
    have hmany : 1 < shards.length := by
      rw [hshardslen]
      exact UInt16.lt_iff_toNat_lt.mp hcount
    have hagrees := agrees_of_assemble hassemble hmany hs
    obtain ⟨no', hno', hk⟩ := hagrees.splitNo
    obtain ⟨count', hcount', hn⟩ := hagrees.splitCount
    obtain rfl : count' = count := UInt16.toNat_inj.mp (hn.trans hshardslen)
    have hdecl' : splitDecl s.data.file = some (no', count') := by
      rw [splitDecl, hno', Option.bind_some, hcount']
      rfl
    have hall := (siblingPaths_iff hsiblings).mpr (by
      have hc : c.shards.length = count'.toNat := by
        rw [← hshardslen, ← length_map OpenedShard.path, paths_of_assemble hassemble,
          length_map]
      rwa [← hc])
    rw [hpath]
    refine (openOneOrSet_eq_ok hopen hdecl' hcount).mpr ⟨siblings, shards, ?_, ?_, hshards,
      hassemble⟩
    · exact hall no' p (by rwa [hk])
    · rwa [hk]

end Members

/-- **Shard sets.** A set that is given by its paths is the same in every order of them, its tensors
are found by their places and their names, and there are as many as its shards say. The paths of a
set are different, one of them is the path at hand, and each of them gives the same paths, exactly
if the number of files is not wider than the number in the path; then each of them opens the same
set. -/
theorem shard_sets (W : World μ δ) :
    (∀ (l l' : List (FilePath × Option UInt64)) (c : OpenedCheckpoint μ), l.Perm l' →
      W.openShardSetWithFileSizes (l.map Prod.fst) (l.map Prod.snd) = .ok c →
      W.openShardSetWithFileSizes (l'.map Prod.fst) (l'.map Prod.snd) = .ok c) ∧
    (∀ (paths : List FilePath) (sizes : List (Option UInt64)) (c : OpenedCheckpoint μ),
      W.openShardSetWithFileSizes paths sizes = .ok c → c.set.Finds ∧
        (∀ f ∈ c.set.shards, ∀ count, splitTensorsCount f = some count →
          count.toInt = c.set.len) ∧
        (1 < c.set.shards.length → ∀ f ∈ c.set.shards, (splitTensorsCount f).isSome = true)) ∧
    (∀ (path : FilePath) (shard : ShardFile) (no count : UInt16) (paths : List FilePath),
      splitDecl shard.file = some (no, count) →
      siblingPaths path (some (no, count)) = .ok paths →
        ((paths.length = count.toNat ∧ paths.Nodup ∧ paths[no.toNat]? = some path ∧
          ∀ (j : UInt16) (path' : FilePath), paths[j.toNat]? = some path' →
            siblingPaths path' (some (j, count)) = .ok paths) ↔
          NarrowCount path count.toNat)) ∧
    ∀ (path path' : FilePath) (c : OpenedCheckpoint μ), W.openOneOrSet path none = .ok c →
      NarrowCount path c.shards.length → path' ∈ c.shards.map (·.path) →
        W.openOneOrSet path' none = .ok c := by
  refine ⟨fun l l' c hperm hopen => openShardSet_perm hperm hopen,
    fun paths sizes c hopen => finds_of_openShardSet hopen,
    fun path shard no count paths hdecl hpaths => ?_,
    fun path path' c hopen hnarrow hmem => openOneOrSet_member hopen hnarrow hmem⟩
  obtain ⟨no', hno', hcount'⟩ := Option.bind_eq_some_iff.mp hdecl
  obtain ⟨count', hcount', heq⟩ := Option.map_eq_some_iff.mp hcount'
  cases heq
  obtain ⟨hlen, hnodup, hself⟩ := siblingPaths_self hpaths (shard.parsed.splitNo_lt hno' hcount')
  rw [← siblingPaths_iff hpaths, and_iff_right hlen, and_iff_right hnodup, and_iff_right hself]

end World

/-- The first of ten files, whose number is not padded. -/
def firstOfTen : FilePath := ⟨[], some "model-1-of-10.gguf".toList⟩

theorem siblings_firstOfTen : (siblingPaths firstOfTen (some (0, 10))).toOption.isSome = true := by
  decide

/-- The tenth file has a wider number, so that other names are derived from its name. -/
theorem siblingPaths_firstOfTen : ¬∀ (path : FilePath) (no count : UInt16) (paths : List FilePath),
    no < count → siblingPaths path (some (no, count)) = .ok paths →
      ∀ (j : UInt16) (path' : FilePath), paths[j.toNat]? = some path' →
        siblingPaths path' (some (j, count)) = .ok paths := by
  intro hall
  obtain ⟨paths, hpaths⟩ := Option.isSome_iff_exists.mp siblings_firstOfTen
  cases hok : siblingPaths firstOfTen (some (0, 10)) with
  | error e =>
    rw [hok] at hpaths
    cases hpaths
  | ok paths' =>
    have hnarrow := (siblingPaths_iff hok).mp (hall firstOfTen 0 10 paths' (by decide) hok)
    have hlt := hnarrow _ ⟨"model-".toList, ['1'], "10".toList, ".gguf".toList⟩ rfl
      (by decide +kernel)
    exact absurd hlt (by decide)

end R9v.Open

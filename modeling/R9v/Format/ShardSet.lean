import R9v.Format.Tables

/-!
# Shard sets

The merged view of the files of a split set (`ShardSet` of `r9v-format/src/container.rs`): the
tensors of all shards, in the order of the shards. A set is refused when a name comes twice or when
what the shards say of the set is not so (`ShardSet.openShards_eq_ok`), and then every tensor is
found by its place and by its name (`ShardSet.openShards_spec`).
-/

namespace R9v.Format

open Checked List

/-! ### Opening a set -/

/-- A problem of a shard set. -/
inductive SetProblem
  /-- {name} (shards {first} and {second}) -/
  | duplicateTensor (name : Bytes) (first second : ℕ)
  /-- shard {shard}: split.count is {count}, set holds {shards} shards -/
  | splitCount (shard : ℕ) (count : UInt16) (shards : ℕ)
  /-- shard {shard}: split.no is {no}, expected {shard} -/
  | splitNo (shard : ℕ) (no : UInt16)
  /-- shard {shard}: split.tensors.count is {count}, expected total tensor count {total} -/
  | tensorsCount (shard : ℕ) (count : Int32) (total : ℕ)
  /-- A value that is not there, or of another type. -/
  | key (e : FormatError)

inductive SetError
  /-- split shard set is empty -/
  | empty
  | problems (problems : List SetProblem)

/-- The tensors of a set as they are merged, with the shard and the place of each. -/
structure Merge where
  problems : List SetProblem
  seen : Std.ExtTreeMap Bytes (ℕ × ℕ)
  order : List (ℕ × ℕ)

def Merge.add (m : Merge) (e : (ℕ × ℕ) × TensorInfo) : Merge :=
  match m.seen[e.2.name.bytes]? with
  | some first =>
    { m with problems := m.problems ++ [.duplicateTensor e.2.name.bytes first.1 e.1.1] }
  | none => { m with seen := m.seen.insert e.2.name.bytes e.1, order := m.order ++ [e.1] }

/-- All tensors, with the shard and the place of each. -/
def entries (shards : List GgufFile) : List ((ℕ × ℕ) × TensorInfo) :=
  shards.zipIdx.flatMap fun s => s.1.tensors.zipIdx.map fun t => ((s.2, t.2), t.1)

def merge (shards : List GgufFile) : Merge := (entries shards).foldl Merge.add ⟨[], ∅, []⟩

/-- The problems of a value of a shard. -/
def checkKey {α : Type} (f : GgufFile) (key : String) (ty : KvType) (of : KvValue → Option α)
    (check : α → List SetProblem) : List SetProblem :=
  (f.splitValue key ty of).1.map .key ++ (f.splitValue key ty of).2.elim [] check

/-- The problems of a shard, in a set of some shards and tensors. -/
def shardProblems (shards total shard : ℕ) (f : GgufFile) : List SetProblem :=
  checkKey f "split.count" .u16 GgufFile.asU16 (fun count =>
      if count.toNat ≠ shards then [.splitCount shard count shards] else []) ++
    checkKey f "split.no" .u16 GgufFile.asU16 (fun no =>
      if no.toNat ≠ shard then [.splitNo shard no] else []) ++
    checkKey f "split.tensors.count" .i32 GgufFile.asI32 fun count =>
      if count < 0 ∨ count.toInt.toNat ≠ total then [.tensorsCount shard count total] else []

/-- Whether a file says that it is a shard. -/
def hasSplitDecl (f : GgufFile) : Bool :=
  (f.kv (utf8 "split.no")).isSome || (f.kv (utf8 "split.count")).isSome ||
    (f.kv (utf8 "split.tensors.count")).isSome ||
    f.kvs.any fun kv => (utf8 "split.").isPrefixOf kv.key.bytes

structure ShardSet where
  shards : List GgufFile
  order : List (ℕ × ℕ)

namespace ShardSet

/-- Merges the files of a set, in their order. -/
def openShards (shards : List GgufFile) : Except SetError ShardSet :=
  if shards = [] then .error .empty
  else
    let m := merge shards
    let problems := m.problems ++
      if 1 < shards.length ∨ shards.any hasSplitDecl then
        shards.zipIdx.flatMap fun s => shardProblems shards.length m.seen.size s.2 s.1
      else []
    if problems.isEmpty then .ok ⟨shards, m.order⟩ else .error (.problems problems)

def len (s : ShardSet) : ℕ := s.order.length

/-- The tensor at a place, with its shard. An index that is out of range, at which the source
panics, is `none` as well. -/
def tensorAt (s : ShardSet) (i : ℕ) : Option (ℕ × TensorInfo) :=
  s.order[i]?.bind fun p => s.shards[p.1]?.bind fun f => f.tensors[p.2]?.map fun t => (p.1, t)

/-- The tensor of a name, in the first shard that has it. -/
def tensor (s : ShardSet) (name : Bytes) : Option (ℕ × TensorInfo) :=
  s.shards.zipIdx.findSome? fun f => (f.1.tensor name).map fun info => (f.2, info)

end ShardSet

/-! ### The names of a file -/

namespace GgufFile

variable {f : GgufFile} {names : List Bytes} {dup : Bytes → FormatError}

/-- A file that has been read from its tables. -/
def Parsed (f : GgufFile) : Prop := ∃ (b : Slice) (size : UInt64), parseMetadataOnly b size = .ok f

theorem indexNames_concat (name : Bytes) : indexNames dup (names ++ [name]) =
    if name ∈ (indexNames dup names).2 then
      ((indexNames dup names).1 ++ [dup name], (indexNames dup names).2)
    else ((indexNames dup names).1, (indexNames dup names).2.insert name names.length) := by
  rw [indexNames, zipIdx_append, foldl_append, Nat.zero_add]
  rfl

/-- **Without problems**, no name comes twice and every name is found at its place. -/
theorem indexNames_spec (h : (indexNames dup names).1 = []) : names.Nodup ∧
    ∀ (name : Bytes) (i : ℕ), (indexNames dup names).2[name]? = some i ↔
      names[i]? = some name := by
  induction names using List.reverseRecOn with
  | nil =>
    refine ⟨.nil, fun name i => ?_⟩
    change (∅ : Std.ExtTreeMap Bytes ℕ)[name]? = some i ↔ _
    simp
  | append_singleton names last ih =>
    rw [indexNames_concat] at h ⊢
    by_cases hmem : last ∈ (indexNames dup names).2
    · rw [if_pos hmem] at h
      exact absurd h (List.append_ne_nil_of_right_ne_nil _ (List.cons_ne_nil _ _))
    · rw [if_neg hmem] at h ⊢
      obtain ⟨hnodup, hfind⟩ := ih h
      have hnew : last ∉ names := by
        intro hin
        obtain ⟨i, hi⟩ := List.getElem?_of_mem hin
        have hsome := (hfind last i).mpr hi
        exact hmem (Std.ExtTreeMap.mem_iff_isSome_getElem?.mpr (by rw [hsome]; rfl))
      refine ⟨List.nodup_append.mpr ⟨hnodup, List.nodup_singleton last, fun a ha b hb => ?_⟩,
        fun name i => ?_⟩
      · rw [List.mem_singleton] at hb
        rintro rfl
        exact hnew (hb ▸ ha)
      · rw [Std.ExtTreeMap.getElem?_insert, List.getElem?_append]
        by_cases hname : last = name
        · subst hname
          have hself : compare last last = .eq := Std.ReflCmp.compare_self
          rw [if_pos hself, Option.some.injEq]
          constructor
          · rintro rfl
            rw [if_neg (Nat.lt_irrefl _), Nat.sub_self]
            rfl
          · intro hi
            split at hi
            · exact absurd (List.mem_of_getElem? hi) hnew
            · next hle =>
              obtain ⟨hlt, -⟩ := List.getElem?_eq_some_iff.mp hi
              rw [List.length_singleton] at hlt
              omega
        · have hother : compare last name ≠ .eq := fun heq =>
            hname (Std.LawfulEqCmp.eq_of_compare heq)
          rw [if_neg hother, hfind]
          split
          · exact Iff.rfl
          · next hle =>
            constructor
            · intro hi
              obtain ⟨hlt, -⟩ := List.getElem?_eq_some_iff.mp hi
              exact absurd hlt hle
            · intro hi
              have hin := List.mem_of_getElem? hi
              rw [List.mem_singleton] at hin
              exact absurd hin.symm hname

theorem Parsed.exists_tables (h : f.Parsed) : ∃ g : GgufFile, f = g.prepare.2 ∧ g.prepare.1 =
    [] := by
  obtain ⟨b, size, hparse⟩ := h
  obtain ⟨t, q, -, hvalidate⟩ := parseInternal_eq_ok.mp hparse
  obtain ⟨rfl, -, hproblems, -⟩ := checkRanges_eq_ok.mp hvalidate
  exact ⟨_, rfl, hproblems⟩

theorem prepare_eq (g : GgufFile) : g.prepare.2.tensors = g.tensors ∧
    g.prepare.2.tensorIndex = (indexNames .duplicateTensor (g.tensors.map (·.name.bytes))).2 := by
  change g.indexTables.2.alignTables.2.startData.2.tensors = _ ∧
    g.indexTables.2.alignTables.2.startData.2.tensorIndex = _
  rw [startData]
  split <;> exact ⟨rfl, rfl⟩

/-- **The tensors of a file** have different names and are found by them. -/
theorem Parsed.tensor_iff (h : f.Parsed) : (f.tensors.map (·.name.bytes)).Nodup ∧
    ∀ (name : Bytes) (info : TensorInfo), f.tensor name = some info ↔
      info ∈ f.tensors ∧ info.name.bytes = name := by
  obtain ⟨g, rfl, hproblems⟩ := h.exists_tables
  obtain ⟨htensors, hindex⟩ := prepare_eq g
  have hnames : (indexNames .duplicateTensor (g.tensors.map (·.name.bytes))).1 = [] := by
    have hfirst := (append_eq_nil_iff.mp hproblems).1
    have hsecond := (append_eq_nil_iff.mp hfirst).1
    have hthird := (append_eq_nil_iff.mp hsecond).1
    exact (append_eq_nil_iff.mp hthird).2
  obtain ⟨hnodup, hfind⟩ := indexNames_spec hnames
  rw [htensors]
  refine ⟨hnodup, fun name info => ?_⟩
  rw [tensor, hindex, htensors, Option.bind_eq_some_iff]
  constructor
  · rintro ⟨i, hi, hinfo⟩
    have hname := (hfind name i).mp hi
    rw [getElem?_map, hinfo] at hname
    exact ⟨mem_of_getElem? hinfo, Option.some.inj hname⟩
  · rintro ⟨hmem, rfl⟩
    obtain ⟨i, hi⟩ := getElem?_of_mem hmem
    refine ⟨i, (hfind _ i).mpr ?_, hi⟩
    rw [getElem?_map, hi]
    rfl

end GgufFile

/-! ### The tensors of a set -/

section Merge

variable {es : List ((ℕ × ℕ) × TensorInfo)} {shards : List GgufFile} {s : ShardSet}

/-- The name of a tensor of a set. -/
def nameOf (e : (ℕ × ℕ) × TensorInfo) : Bytes := e.2.name.bytes

/-- **Without problems**, the names are different and all tensors are there, in their order. -/
theorem merge_spec (h : (es.foldl Merge.add ⟨[], ∅, []⟩).problems = []) :
    (es.map nameOf).Nodup ∧ (es.foldl Merge.add ⟨[], ∅, []⟩).order = es.map Prod.fst ∧
      (es.foldl Merge.add ⟨[], ∅, []⟩).seen.size = es.length ∧
      ∀ name, name ∈ (es.foldl Merge.add ⟨[], ∅, []⟩).seen ↔ name ∈ es.map nameOf := by
  induction es using List.reverseRecOn with
  | nil =>
    refine ⟨.nil, rfl, Std.ExtTreeMap.size_empty, fun name => ?_⟩
    exact iff_of_false Std.ExtTreeMap.not_mem_empty not_mem_nil
  | append_singleton es e ih =>
    rw [foldl_append, foldl_cons, foldl_nil] at h ⊢
    generalize es.foldl Merge.add ⟨[], ∅, []⟩ = m at h ih ⊢
    rw [Merge.add] at h ⊢
    cases hseen : m.seen[e.2.name.bytes]? with
    | some first =>
      rw [hseen] at h
      exact absurd h (append_ne_nil_of_right_ne_nil _ (cons_ne_nil _ _))
    | none =>
      rw [hseen] at h
      obtain ⟨hnodup, horder, hsize, hmem⟩ := ih h
      have hnot : e.2.name.bytes ∉ m.seen := by
        rw [Std.ExtTreeMap.mem_iff_isSome_getElem?, hseen]
        exact Bool.false_ne_true
      refine ⟨?_, ?_, ?_, fun name => ?_⟩
      · rw [map_append, map_singleton]
        refine nodup_append.mpr ⟨hnodup, nodup_singleton _, fun a ha b hb => ?_⟩
        rw [mem_singleton] at hb
        intro hab
        rw [hab, hb] at ha
        exact hnot ((hmem _).mpr ha)
      · rw [horder, map_append]
        rfl
      · rw [Std.ExtTreeMap.size_insert, if_neg fun h =>
          hnot (Std.ExtTreeMap.mem_iff_contains.mpr h),
          hsize, length_append]
        rfl
      · rw [Std.ExtTreeMap.mem_insert, hmem, map_append, mem_append, map_singleton,
          mem_singleton, Std.LawfulEqCmp.compare_eq_iff_eq]
        rw [or_comm]
        exact or_congr_right eq_comm

theorem mem_entries {e : (ℕ × ℕ) × TensorInfo} : e ∈ entries shards ↔
    ∃ f, shards[e.1.1]? = some f ∧ f.tensors[e.1.2]? = some e.2 := by
  obtain ⟨⟨k, i⟩, info⟩ := e
  simp only [entries, mem_flatMap, mem_map, mem_zipIdx_iff_getElem?, Prod.exists,
    Prod.mk.injEq]
  constructor
  · rintro ⟨f, k', hf, info', i', hinfo, ⟨rfl, rfl⟩, rfl⟩
    exact ⟨f, hf, hinfo⟩
  · rintro ⟨f, hf, hinfo⟩
    exact ⟨f, k, hf, info, i, hinfo, ⟨rfl, rfl⟩, rfl⟩

/-- **When a set is opened**: there is a shard, no name comes twice, and the shards agree with the
set, if it is one. -/
theorem ShardSet.openShards_eq_ok (h : ShardSet.openShards shards = .ok s) :
    s.shards = shards ∧ shards ≠ [] ∧ s.order = (entries shards).map Prod.fst ∧
      ((entries shards).map nameOf).Nodup ∧
      (1 < shards.length ∨ shards.any hasSplitDecl = true → ∀ (k : ℕ) (f : GgufFile),
        shards[k]? = some f → shardProblems shards.length s.len k f = []) := by
  rw [openShards] at h
  split at h
  · cases h
  · next hne =>
    simp only at h
    generalize hlist : (if 1 < shards.length ∨ shards.any hasSplitDecl = true then _ else _) =
      checks at h
    split at h
    · next hempty =>
      cases h
      obtain ⟨hmerge, hchecks⟩ := append_eq_nil_iff.mp (isEmpty_iff.mp hempty)
      obtain ⟨hnodup, horder, hsize, -⟩ := merge_spec hmerge
      refine ⟨rfl, hne, horder, hnodup, fun hset k f hf => ?_⟩
      rw [← hlist, if_pos hset, flatMap_eq_nil_iff] at hchecks
      have hcheck := hchecks (f, k) (mem_zipIdx_iff_getElem?.mpr hf)
      have hlen : (merge shards).seen.size = (merge shards).order.length := by
        change (merge shards).order = _ at horder
        rw [horder, length_map]
        exact hsize
      rw [hlen] at hcheck
      exact hcheck
    · cases h

section Values

variable {α : Type} {f : GgufFile} {key : String} {ty : KvType} {of : KvValue → Option α}

theorem GgufFile.splitValue_cases (f : GgufFile) (key : String) (ty : KvType)
    (of : KvValue → Option α) :
    (∃ a, (f.kv (utf8 key)).bind of = some a ∧ f.splitValue key ty of = ([], some a)) ∨
      (f.kv (utf8 key)).bind of = none ∧ ∃ e, f.splitValue key ty of = ([e], none) := by
  rw [GgufFile.splitValue.eq_def]
  cases hkv : f.kv (utf8 key) with
  | none => exact Or.inr ⟨rfl, _, rfl⟩
  | some value =>
    cases hof : of value with
    | none => exact Or.inr ⟨hof, mismatch key value ty, by simp only [hof]⟩
    | some a => exact Or.inl ⟨a, hof, by simp only [hof]⟩

theorem checkKey_eq_nil {check : α → List SetProblem} (h : checkKey f key ty of check = []) :
    ∃ a, (f.kv (utf8 key)).bind of = some a ∧ check a = [] := by
  rw [checkKey] at h
  obtain ⟨a, ha, hvalue⟩ | ⟨-, e, hvalue⟩ := f.splitValue_cases key ty of
  · rw [hvalue] at h
    exact ⟨a, ha, h⟩
  · rw [hvalue] at h
    cases h

end Values

/-- The number that a file says it has in its set. -/
def splitNo (f : GgufFile) : Option UInt16 := (f.kv (utf8 "split.no")).bind GgufFile.asU16

def splitCount (f : GgufFile) : Option UInt16 := (f.kv (utf8 "split.count")).bind GgufFile.asU16

/-- The number of tensors that a file says there are in its set. -/
def splitTensorsCount (f : GgufFile) : Option Int32 :=
  (f.kv (utf8 "split.tensors.count")).bind GgufFile.asI32

/-- What a shard says of a set that has been opened. -/
structure Agrees (shards total k : ℕ) (f : GgufFile) : Prop where
  splitCount : ∃ count, splitCount f = some count ∧ count.toNat = shards
  splitNo : ∃ no, splitNo f = some no ∧ no.toNat = k
  tensorsCount : ∃ count, splitTensorsCount f = some count ∧ count.toInt = total

theorem agrees_of_shardProblems {n total k : ℕ} {f : GgufFile}
    (h : shardProblems n total k f = []) : Agrees n total k f := by
  obtain ⟨hfirst, htensors⟩ := append_eq_nil_iff.mp h
  obtain ⟨hcount, hno⟩ := append_eq_nil_iff.mp hfirst
  obtain ⟨count, hcount, hn⟩ := checkKey_eq_nil hcount
  obtain ⟨no, hno, hk⟩ := checkKey_eq_nil hno
  obtain ⟨tensors, htensors, htotal⟩ := checkKey_eq_nil htensors
  refine ⟨⟨count, hcount, ?_⟩, ⟨no, hno, ?_⟩, ⟨tensors, htensors, ?_⟩⟩
  · by_contra hne
    rw [if_pos hne] at hn
    cases hn
  · by_contra hne
    rw [if_pos hne] at hk
    cases hk
  · by_cases hbad : tensors < 0 ∨ tensors.toInt.toNat ≠ total
    · rw [if_pos hbad] at htotal
      cases htotal
    · obtain ⟨hneg, hne⟩ := not_or.mp hbad
      have hle : 0 ≤ tensors.toInt := by
        rw [Int32.lt_iff_toInt_lt] at hneg
        exact Int.not_lt.mp hneg
      omega

/-- **What is found in a set**: every tensor by its place, and by its name. -/
structure ShardSet.Finds (s : ShardSet) : Prop where
  tensorAt : ∀ i < s.len, ∃ k info, s.tensorAt i = some (k, info)
  names : ∀ (i j : ℕ) (a b : ℕ × TensorInfo), s.tensorAt i = some a → s.tensorAt j = some b →
    a.2.name = b.2.name → i = j
  tensor : ∀ (name : Str) (a : ℕ × TensorInfo), s.tensor name.bytes = some a ↔
    ∃ i, s.tensorAt i = some a ∧ a.2.name = name
  lt : ∀ (i : ℕ) (a : ℕ × TensorInfo), s.tensorAt i = some a → i < s.len

theorem ShardSet.tensorAt_eq (hshards : s.shards = shards)
    (horder : s.order = (entries shards).map Prod.fst) (i : ℕ) :
    s.tensorAt i = (entries shards)[i]?.map fun e => (e.1.1, e.2) := by
  rw [ShardSet.tensorAt, horder, hshards, getElem?_map]
  cases he : (entries shards)[i]? with
  | none => rfl
  | some e =>
    obtain ⟨f, hf, hinfo⟩ := mem_entries.mp (mem_of_getElem? he)
    rw [Option.map_some, Option.bind_some, hf, Option.bind_some, hinfo]
    rfl

theorem ShardSet.finds (hparsed : ∀ f ∈ shards, f.Parsed)
    (h : ShardSet.openShards shards = .ok s) : s.Finds := by
  obtain ⟨hshards, -, horder, hnodup, -⟩ := openShards_eq_ok h
  have hat := ShardSet.tensorAt_eq hshards horder
  have hlen : s.len = (entries shards).length := by rw [len, horder, List.length_map]
  have hindex : ∀ {i j : ℕ} {e e' : (ℕ × ℕ) × TensorInfo}, (entries shards)[i]? = some e →
      (entries shards)[j]? = some e' → nameOf e = nameOf e' → i = j := by
    intro i j e e' hi hj hname
    obtain ⟨hlt, -⟩ := List.getElem?_eq_some_iff.mp hi
    refine (List.getElem?_inj (by rwa [List.length_map]) hnodup).mp ?_
    rw [List.getElem?_map, List.getElem?_map, hi, hj]
    exact congrArg some hname
  have hfound : ∀ {name : Bytes} {a : ℕ × TensorInfo}, s.tensor name = some a →
      ∃ i, s.tensorAt i = some a ∧ a.2.name.bytes = name := by
    intro name a ha
    obtain ⟨⟨f, k⟩, hf, hinfo⟩ := List.exists_of_findSome?_eq_some ha
    obtain ⟨info, hown, rfl⟩ := Option.map_eq_some_iff.mp hinfo
    rw [hshards, List.mem_zipIdx_iff_getElem?] at hf
    obtain ⟨hmem, hname⟩ := ((hparsed f (List.mem_of_getElem? hf)).tensor_iff.2 name info).mp hown
    obtain ⟨j, hj⟩ := List.getElem?_of_mem hmem
    obtain ⟨i, hi⟩ := List.getElem?_of_mem
      (mem_entries.mpr ⟨f, hf, hj⟩ : ((k, j), info) ∈ entries shards)
    exact ⟨i, by rw [hat, hi]; rfl, hname⟩
  refine ⟨fun i hi => ?_, fun i j a b hi hj hname => ?_, fun name a => ?_, fun i a hi => ?_⟩
  · rw [hlen] at hi
    exact ⟨_, _, by rw [hat, List.getElem?_eq_getElem hi]; rfl⟩
  · rw [hat, Option.map_eq_some_iff] at hi hj
    obtain ⟨e, he, rfl⟩ := hi
    obtain ⟨e', he', rfl⟩ := hj
    exact hindex he he' (congrArg Str.bytes hname)
  · constructor
    · intro ha
      obtain ⟨i, hi, hname⟩ := hfound ha
      exact ⟨i, hi, Str.ext_bytes hname⟩
    -- the shard of the tensor has its name, so that some tensor is found; names are unique
    · rintro ⟨i, hi, rfl⟩
      have hentry := hi
      rw [hat, Option.map_eq_some_iff] at hentry
      obtain ⟨e, he, rfl⟩ := hentry
      obtain ⟨f, hf, hinfo⟩ := mem_entries.mp (List.mem_of_getElem? he)
      have hown := ((hparsed f (List.mem_of_getElem? hf)).tensor_iff.2 (nameOf e) e.2).mpr
        ⟨List.mem_of_getElem? hinfo, rfl⟩
      have hsome : (s.tensor (nameOf e)).isSome = true := by
        refine List.findSome?_isSome_iff.mpr ⟨(f, e.1.1), ?_, by rw [hown]; rfl⟩
        rw [hshards]
        exact List.mem_zipIdx_iff_getElem?.mpr hf
      obtain ⟨a, ha⟩ := Option.isSome_iff_exists.mp hsome
      obtain ⟨j, hj, hname⟩ := hfound ha
      rw [hat, Option.map_eq_some_iff] at hj
      obtain ⟨e', he', rfl⟩ := hj
      obtain rfl := hindex he' he hname
      rw [he] at he'
      cases he'
      exact ha
  · rw [hat, Option.map_eq_some_iff] at hi
    obtain ⟨e, he, -⟩ := hi
    rw [hlen]
    exact (List.getElem?_eq_some_iff.mp he).1

/-- The number of a shard is below the number of the shards, in a file that has been read. -/
theorem GgufFile.Parsed.splitNo_lt {f : GgufFile} {no count : UInt16} (h : f.Parsed)
    (hno : splitNo f = some no) (hcount : splitCount f = some count) : no < count := by
  obtain ⟨g, rfl, hproblems⟩ := h.exists_tables
  have hkv : g.prepare.2.kv = g.indexTables.2.alignTables.2.kv := by
    funext key
    change g.indexTables.2.alignTables.2.startData.2.kv key = _
    rw [GgufFile.startData]
    split <;> rfl
  have hsplit : g.indexTables.2.alignTables.2.splitProblems = [] := by
    have hfirst := (append_eq_nil_iff.mp hproblems).1
    exact (append_eq_nil_iff.mp (append_eq_nil_iff.mp hfirst).2).2
  rw [splitNo, hkv] at hno
  rw [splitCount, hkv] at hcount
  generalize g.indexTables.2.alignTables.2 = f at hno hcount hsplit
  have hdecl : (f.kv (utf8 "split.no")).isSome = true := by
    obtain ⟨value, hvalue, -⟩ := Option.bind_eq_some_iff.mp hno
    rw [hvalue]
    rfl
  rw [GgufFile.splitProblems, if_pos (Or.inl hdecl)] at hsplit
  obtain ⟨no', hno', heq⟩ | ⟨hnone, -⟩ := f.splitValue_cases "split.no" .u16 GgufFile.asU16
  swap
  · exact absurd (hno.symm.trans hnone) (Option.some_ne_none no)
  obtain ⟨count', hcount', heq'⟩ | ⟨hnone, -⟩ :=
    f.splitValue_cases "split.count" .u16 GgufFile.asU16
  swap
  · exact absurd (hcount.symm.trans hnone) (Option.some_ne_none count)
  obtain rfl : no = no' := Option.some.inj (hno.symm.trans hno')
  obtain rfl : count = count' := Option.some.inj (hcount.symm.trans hcount')
  rw [heq, heq'] at hsplit
  obtain ⟨tensors, -, heq''⟩ | ⟨-, e, heq''⟩ :=
    f.splitValue_cases "split.tensors.count" .i32 GgufFile.asI32
  swap
  · rw [heq''] at hsplit
    cases hsplit
  rw [heq''] at hsplit
  have hnumbers : GgufFile.splitNumbers f.tensors.length no count tensors = [] := hsplit
  have hfirst := (append_eq_nil_iff.mp hnumbers).1
  by_contra hge
  split at hfirst
  · cases hfirst
  · rw [if_pos (UInt16.not_lt.mp hge)] at hfirst
    cases hfirst

end Merge

end R9v.Format

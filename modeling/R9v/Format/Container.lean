import R9v.Format.Cursor
import R9v.Format.Sizes
import Std.Data.ExtTreeMap.Lemmas

/-!
# Containers

A GGUF file: a header, a table of metadata, a table of tensors, and the data of the tensors
(`GgufFile` of `r9v-format/src/container.rs`). The tables are read by the cursor, and then checked
as a whole, with every problem reported.
-/

namespace R9v.Format

open Checked

def ggufMagic : UInt32 := 0x46554747

def ggufVersionsAccepted : List UInt32 := [2, 3]

def ggufDefaultAlignment : ℕ := 32

def r9vFormatVersion : UInt32 := 1

/-- A byte slice, which is shorter than the address space. -/
structure Slice where
  bytes : Bytes
  length_lt : bytes.length < 2 ^ 64

namespace Slice

/-- The length, as a word. -/
def size (b : Slice) : UInt64 := UInt64.ofNat b.bytes.length

/-- The first bytes of a slice. -/
def take (b : Slice) (m : ℕ) : Slice :=
  ⟨b.bytes.take m, (List.length_take_le' m b.bytes).trans_lt b.length_lt⟩

end Slice

/-! ### Tables -/

structure Header where
  version : UInt32
  nTensors : UInt64
  nKv : UInt64
  deriving DecidableEq

/-- The tables of a file, and where they end. -/
structure Tables where
  header : Header
  kvs : List KvEntry
  tensors : List TensorInfo
  headerEnd : ℕ
  kvEnd : ℕ
  tiEnd : ℕ

namespace Cursor

/-- Fails with an error unless a condition holds. -/
def check (c : Prop) [Decidable c] (e : FormatError) : Cursor Unit := if c then pure () else throw e

def readHeader : Cursor Header := do
  let magic ← readU32 "magic"
  check (magic = ggufMagic) (.badMagic magic)
  let version ← readU32 "version"
  check (version ∈ ggufVersionsAccepted) (.unsupportedVersion version ggufVersionsAccepted)
  let nTensors ← readU64 "tensor count"
  let nKv ← readU64 "metadata count"
  pure ⟨version, nTensors, nKv⟩

def readTables : Cursor Tables := do
  let header ← readHeader
  let headerEnd ← Reader.pos
  let kvs ← Reader.many readEntry header.nKv.toNat
  let kvEnd ← Reader.pos
  let tensors ← Reader.many readTensor header.nTensors.toNat
  let tiEnd ← Reader.pos
  pure { header, kvs, tensors, headerEnd, kvEnd, tiEnd }

end Cursor

/-! ### Files -/

structure GgufFile where
  version : UInt32
  alignment : ℕ
  kvs : List KvEntry
  kvIndex : Std.ExtTreeMap Bytes ℕ
  tensors : List TensorInfo
  tensorIndex : Std.ExtTreeMap Bytes ℕ
  dataStart : ℕ
  fileSize : ℕ
  headerRange : ℕ × ℕ
  kvRange : ℕ × ℕ
  tiRange : ℕ × ℕ

namespace GgufFile

def kv (f : GgufFile) (key : Bytes) : Option KvValue :=
  f.kvIndex[key]?.bind fun i => f.kvs[i]?.map (·.value)

def tensor (f : GgufFile) (name : Bytes) : Option TensorInfo :=
  f.tensorIndex[name]?.bind fun i => f.tensors[i]?

def isNative (f : GgufFile) : Bool :=
  f.kvs.any (fun kv => (utf8 "r9v.").isPrefixOf kv.key.bytes) ||
    f.tensors.any fun t => match t.dtype with
      | .r9v _ => true
      | _ => false

/-- The bytes of a tensor. -/
def tensorNbytes (f : GgufFile) (info : TensorInfo) : Except FormatError ℕ :=
  Format.tensorNbytes f.kv info f.isNative

/-! ### Validation -/

/-- Where names are first, and the problems of the names that come again. -/
def indexNames (dup : Bytes → FormatError) (names : List Bytes) :
    List FormatError × Std.ExtTreeMap Bytes ℕ :=
  names.zipIdx.foldl (fun (problems, index) (name, i) =>
    if name ∈ index then (problems ++ [dup name], index) else (problems, index.insert name i))
      ([], ∅)

/-- The error of a value of another type. -/
def mismatch (key : String) (value : KvValue) (expected : KvType) : FormatError :=
  typeMismatch (utf8 key) value expected.name

def alignmentKey : String := "general.alignment"

/-- The alignment of the data, and the problems with it. -/
def readAlignment (f : GgufFile) : List FormatError × ℕ :=
  match f.kv (utf8 alignmentKey) with
  | some (.u32 v) =>
    if v.toNat = 2 ^ v.toNat.log2 then ([], v.toNat)
    else ([.invalidAlignment v.toNat], ggufDefaultAlignment)
  | some other => ([mismatch alignmentKey other .u32], ggufDefaultAlignment)
  | none => ([], ggufDefaultAlignment)

def acceptFormatVersion : Option UInt32 → Except FormatError Unit
  | none => .ok ()
  | some v => ensure (v ≤ r9vFormatVersion) (.formatVersion v r9vFormatVersion)

/-- The problem of a check that has failed. -/
def problemOf {α : Type} : Except FormatError α → List FormatError
  | .ok _ => []
  | .error e => [e]

/-- The problems of a value that has to be there. -/
def required (f : GgufFile) (key : String)
    (check : KvValue → List FormatError) : List FormatError :=
  match f.kv (utf8 key) with
  | some value => check value
  | none => [.missingKey (utf8 key)]

def checkVersion : KvValue → List FormatError
  | .u32 v => problemOf (acceptFormatVersion (some v))
  | other => [mismatch "r9v.format_version" other .u32]

/-- The spelling of a layout that is looked up. -/
def canonicalLayout (s : Bytes) : Bytes :=
  if s = utf8 "L0" then utf8 "l0"
  else if s = utf8 "L1" then utf8 "l1"
  else if s = utf8 "L1S" then utf8 "l1s"
  else s

def checkLayout : KvValue → List FormatError
  | .str s => problemOf (Layout.fromName (canonicalLayout s.bytes))
  | other => [mismatch "r9v.layout_id" other .str]

/-- The problems of the keys of a native file. -/
def nativeProblems (f : GgufFile) : List FormatError :=
  if f.isNative then
    (if f.alignment ≠ nativeAlignment then [.invalidAlignment f.alignment] else []) ++
      f.required "r9v.format_version" checkVersion ++ f.required "r9v.layout_id" checkLayout
  else []

/-- A value of a type, or the problem that it is not there. -/
def splitValue {α : Type} (f : GgufFile) (key : String) (ty : KvType) (of : KvValue → Option α) :
    List FormatError × Option α :=
  match f.kv (utf8 key) with
  | some value =>
    match of value with
    | some a => ([], some a)
    | none => ([mismatch key value ty], none)
  | none => ([.missingKey (utf8 key)], none)

def asU16 : KvValue → Option UInt16
  | .u16 v => some v
  | _ => none

def asI32 : KvValue → Option Int32
  | .i32 v => some v
  | _ => none

/-- The problems of the numbers of a split file. -/
def splitNumbers (tensors : ℕ) (no count : UInt16) (tensorsCount : Int32) : List FormatError :=
  (if count = 0 then [.malformed 0 .splitCount]
    else if no ≥ count then [.malformed 0 (.splitNo no count)] else []) ++
  if tensorsCount < 0 then [.malformed 0 (.splitTensorsCount tensorsCount)]
  else if count = 1 then
    (if no ≠ 0 then [.malformed 0 (.singleShard no)] else []) ++
      if tensorsCount.toInt.toNat ≠ tensors then [.malformed 0 (.splitTensors tensorsCount tensors)]
      else []
  else if tensors > tensorsCount.toInt.toNat then
    [.malformed 0 (.shardTensors tensors tensorsCount)]
  else []

/-- The problems of the keys of a split file. -/
def splitProblems (f : GgufFile) : List FormatError :=
  if (f.kv (utf8 "split.no")).isSome ∨ (f.kv (utf8 "split.count")).isSome ∨
      (f.kv (utf8 "split.tensors.count")).isSome ∨
      f.kvs.any (fun kv => (utf8 "split.").isPrefixOf kv.key.bytes) then
    let (noProblems, no) := f.splitValue "split.no" .u16 asU16
    let (countProblems, count) := f.splitValue "split.count" .u16 asU16
    let (tensorsProblems, tensorsCount) := f.splitValue "split.tensors.count" .i32 asI32
    noProblems ++ countProblems ++ tensorsProblems ++
      match no, count, tensorsCount with
      | some no, some count, some tensorsCount =>
        splitNumbers f.tensors.length no count tensorsCount
      | _, _, _ => []
  else []

/-- Where the data of a tensor is. -/
structure Span where
  start : ℕ
  stop : ℕ
  index : ℕ
  deriving DecidableEq

/-- The order of spans, by their starts, their ends and their indices. -/
def Span.le (a b : Span) : Bool :=
  a.start < b.start ∨ a.start = b.start ∧ (a.stop < b.stop ∨ a.stop = b.stop ∧ a.index ≤ b.index)

def u64Max : ℕ := 2 ^ 64 - 1

/-- The problems of the range of a tensor, and the range if it is one. -/
def spanOf (f : GgufFile) (info : TensorInfo) (index : ℕ) : List FormatError × Option Span :=
  let name := info.name.bytes
  match add 64 f.dataStart info.offset.toNat with
  | none =>
    ([.badTensorRange name u64Max u64Max (.startOverflow f.dataStart info.offset)], none)
  | some start =>
    let aligned := if info.offset.toNat % f.alignment ≠ 0 then
      [.badTensorRange name start start (.unaligned info.offset f.alignment)] else []
    match f.tensorNbytes info with
    | .error e => (aligned ++ [e], none)
    | .ok nbytes =>
      match add 64 start nbytes with
      | none => (aligned ++ [.badTensorRange name start u64Max (.endOverflow start nbytes)], none)
      | some stop =>
        if stop > f.fileSize then
          (aligned ++ [.badTensorRange name start stop (.beyondFile stop f.fileSize)], none)
        else (aligned, some ⟨start, stop, index⟩)

/-- The ranges of all tensors. -/
def spansOf (f : GgufFile) : List (List FormatError × Option Span) :=
  f.tensors.zipIdx.map fun (info, index) => f.spanOf info index

/-- The name of a tensor by its index. -/
def nameAt (f : GgufFile) (index : ℕ) : Except (Fault FormatError) Bytes := do
  let info ← orPanic f.tensors[index]?
  pure info.name.bytes

/-- The problems of spans in order that overlap, each with the one before it that ends last. -/
def sweepOverlaps (f : GgufFile) (max : Span) : List Span → Except (Fault FormatError)
    (List FormatError)
  | [] => pure []
  | span :: rest => do
    let problems ←
      if span.start < max.stop then do
        let name ← f.nameAt span.index
        let other ← f.nameAt max.index
        pure [FormatError.badTensorRange name span.start span.stop
          (.overlaps other max.start max.stop)]
      else pure []
    let more ← f.sweepOverlaps (if span.stop > max.stop then span else max) rest
    pure (problems ++ more)

def overlapProblems (f : GgufFile) (spans : List Span) : Except (Fault FormatError)
    (List FormatError) :=
  match spans.mergeSort Span.le with
  | [] => pure []
  | first :: rest => f.sweepOverlaps first rest

/-- How far the sequence of the tensors of a native file has come. -/
structure Sequencing where
  expectedOffset : ℕ
  ok : Bool
  problems : List FormatError

/-- A tensor of a native file follows the one before it. -/
def sequenceStep (f : GgufFile) (s : Sequencing) (info : TensorInfo) : Sequencing :=
  let name := info.name.bytes
  let start := min (f.dataStart + info.offset.toNat) u64Max
  let s := if info.offset.toNat ≠ s.expectedOffset then
      { s with
        ok := false
        problems := s.problems ++ [.badTensorRange name start start
          (if info.offset.toNat > s.expectedOffset then .deadGap name info.offset s.expectedOffset
          else .outOfSequence name info.offset s.expectedOffset)] }
    else s
  match f.tensorNbytes info with
  | .error _ => { s with ok := false }
  | .ok nbytes =>
    match (alignUp nbytes f.alignment).bind (add 64 s.expectedOffset) with
    | some next => { s with expectedOffset := next }
    | none =>
      { s with
        ok := false
        problems := s.problems ++ [.overflow "native expected_offset"
          s!"tensor {repr (textOf name)} nbytes={nbytes}"] }

/-- The problems of the sequence of the tensors of a native file, and of what comes after them. -/
def sequenceProblems (f : GgufFile) : List FormatError :=
  if f.isNative then
    let s := f.tensors.foldl f.sequenceStep ⟨0, true, []⟩
    s.problems ++
      if s.ok then
        let expected := add 64 f.dataStart s.expectedOffset
        let overflow := match expected with
          | some _ => []
          | none => [.overflow "native expected_file_size"
              s!"data_start={f.dataStart} expected_offset={s.expectedOffset}"]
        let stop := expected.getD u64Max
        let name := (f.tensors.getLast?.map (·.name.bytes)).getD []
        overflow ++
          if f.fileSize > stop then [.badTensorRange name stop f.fileSize
            (.trailing f.fileSize stop)]
          else []
      else []
  else []

/-- The problem of a native file without tensors that ends before its data. -/
def emptyProblems (f : GgufFile) (sizeExplicit : Bool) : List FormatError :=
  if ¬sizeExplicit ∧ f.tensors = [] ∧ f.isNative ∧ f.fileSize < f.dataStart then
    [.badTensorRange [] f.fileSize f.dataStart (.dataStart f.dataStart f.fileSize)]
  else []

/-- The problems of the ranges of the tensors. -/
def rangeProblems (f : GgufFile) : Except (Fault FormatError) (List FormatError) := do
  let overlaps ← f.overlapProblems (f.spansOf.filterMap (·.2))
  pure (f.spansOf.flatMap (·.1) ++ overlaps ++ f.sequenceProblems)

/-- A file with what its tables say, before it is checked. -/
def ofTables (t : Tables) (fileSize : ℕ) : GgufFile where
  version := t.header.version
  alignment := ggufDefaultAlignment
  kvs := t.kvs
  kvIndex := ∅
  tensors := t.tensors
  tensorIndex := ∅
  dataStart := t.tiEnd
  fileSize := fileSize
  headerRange := (0, t.headerEnd)
  kvRange := (t.headerEnd, t.kvEnd)
  tiRange := (t.kvEnd, t.tiEnd)

/-- The file with the indices of its tables, and the problems with them. -/
def indexTables (f : GgufFile) : List FormatError × GgufFile :=
  let (kvProblems, kvIndex) := indexNames .duplicateKey (f.kvs.map (·.key.bytes))
  let (tensorProblems, tensorIndex) := indexNames .duplicateTensor (f.tensors.map (·.name.bytes))
  (kvProblems ++ tensorProblems, { f with kvIndex, tensorIndex })

/-- The file with its alignment, and the problems with it. -/
def alignTables (f : GgufFile) : List FormatError × GgufFile :=
  let (problems, alignment) := f.readAlignment
  (problems, { f with alignment })

/-- The file with the start of its data, and the problems with it. -/
def startData (f : GgufFile) : List FormatError × GgufFile :=
  match alignUp f.tiRange.2 f.alignment with
  | some start => ([], { f with dataStart := start })
  | none => ([.overflow "data_start" s!"ti_end={f.tiRange.2} align={f.alignment}"], f)

/-- The file with what is found out from its tables, and the problems with it. -/
def prepare (f : GgufFile) : List FormatError × GgufFile :=
  let (problems₁, f) := f.indexTables
  let (problems₂, f) := f.alignTables
  let problems₃ := f.nativeProblems ++ f.splitProblems
  let (problems₄, f) := f.startData
  (problems₁ ++ problems₂ ++ problems₃ ++ problems₄, f)

/-- Checks where the data is. A size that is given and ends before the data is not checked further.
-/
def checkRanges (f : GgufFile) (problems : List FormatError) (sizeExplicit : Bool) :
    Except (Fault FormatError) GgufFile :=
  if sizeExplicit ∧ f.fileSize < f.dataStart then do
    lift (FormatError.collect (problems ++ [.malformed 0 (.fileSize f.fileSize f.dataStart)]))
    pure f
  else do
    let ranges ← f.rangeProblems
    lift (FormatError.collect (problems ++ f.emptyProblems sizeExplicit ++ ranges))
    pure f

/-- Checks the tables of a file. The size of the file is that of the bytes that have been read, or
it is given by the caller. -/
def validate (f : GgufFile) (sizeExplicit : Bool) : Except (Fault FormatError) GgufFile :=
  f.prepare.2.checkRanges f.prepare.1 sizeExplicit

def parseInternal (bytes : Bytes) (fileSize : ℕ) (sizeExplicit : Bool) :
    Except (Fault FormatError) GgufFile := do
  let (tables, _) ← Cursor.readTables bytes 0
  (ofTables tables fileSize).validate sizeExplicit

def parse (b : Slice) : Except (Fault FormatError) GgufFile :=
  parseInternal b.bytes b.bytes.length false

/-- Reads the tables of a file that is known to have some size. -/
def parseMetadataOnly (b : Slice) (fileSize : UInt64) : Except (Fault FormatError) GgufFile :=
  parseInternal b.bytes fileSize.toNat true

/-! ### What a file holds -/

/-- The data of a tensor. -/
def tensorBytes (f : GgufFile) (name : Bytes) (bytes : Bytes) : Except
    (Fault FormatError) Bytes := do
  let info ← lift (okOr (f.tensor name) (.malformed 0 (.noTensor name)))
  let name := info.name.bytes
  let start ← lift (okOr (add 64 f.dataStart info.offset.toNat)
    (.badTensorRange name u64Max u64Max .sliceStart))
  lift (ensure (info.offset.toNat % f.alignment = 0)
    (.badTensorRange name start start (.unaligned info.offset f.alignment)))
  let nbytes ← lift (f.tensorNbytes info)
  let stop ← lift (okOr (add 64 start nbytes)
    (.badTensorRange name start u64Max .sliceEnd))
  lift (ensure (stop ≤ bytes.length)
    (.badTensorRange name start stop (.beyondBuffer stop bytes.length)))
  sliceBytes bytes start stop

/-- The bytes that the fingerprint of a file is taken of. -/
def fpInput (f : GgufFile) (bytes : Bytes) (shardCount : UInt64) :
    Except (Fault FormatError) Bytes := do
  let maxNeeded := max (max f.headerRange.2 f.tiRange.2) f.kvRange.2
  if bytes.length < maxNeeded then
    .error (.err (.truncated bytes.length (maxNeeded - bytes.length) "file_fp metadata bytes"))
  else
    let header ← sliceBytes bytes f.headerRange.1 f.headerRange.2
    let ti ← sliceBytes bytes f.tiRange.1 f.tiRange.2
    let kv ← sliceBytes bytes f.kvRange.1 f.kvRange.2
    pure (header ++ ti ++ kv ++ leBytes 8 f.fileSize ++ leBytes 8 shardCount.toNat)

/-- The fingerprint of a file, by its hash function. -/
def fileFp {η : Type} (xxh3 : Bytes → η) (f : GgufFile) (bytes : Bytes) (shardCount : UInt64) :
    Except (Fault FormatError) η :=
  (f.fpInput bytes shardCount).map xxh3

end GgufFile

end R9v.Format

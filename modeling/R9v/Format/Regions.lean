import R9v.Format.Permute
import R9v.Format.Scheme

/-!
# Regions of an entry

An entry of a container holds the values of a tensor, its scales, and for a sparse tensor the
indices of the values that are kept (`r9v-format/src/container.rs`, `sparse.rs`, `iq.rs`).
-/

namespace R9v.Format

open Checked Blocks

/-! ### Sparse tensors -/

def l1sKeptPerTile : ℕ := 256

def l1sIndexBytesPerTile : ℕ := 64

def l1sKeptPerLane : ℕ := 8

def l1sIndexBytesPerLane : ℕ := 2

def l1sIndexBits : ℕ := 2

/-- The rows and columns of the values that are kept: half the columns. -/
def l1sValueDims (dims : PaddedDims) (superblockK : Option ℕ) : Except FormatError PaddedDims := do
  FormatError.collect <|
    (if dims.k % 2 ≠ 0 then [.invalidDim "k" dims.k "must be even for 2:4 compression"] else []) ++
      match superblockK with
      | some s =>
        if s = 0 ∨ s % 32 ≠ 0 then
          [.invalidBlock "superblock_k" s
            "must be a nonzero multiple of 32 so the halved superblock stays tile-aligned"] else []
      | none => []
  PaddedDims.new dims.n (dims.k / 2) (superblockK.map (· / 2))

def l1sIndexRegionBytes (tiles : ℕ) : Except FormatError ℕ :=
  okOr (mul 64 tiles l1sIndexBytesPerTile) (.overflow "l1s_index_region_bytes" s!"tiles={tiles}")

/-- The indices of a tile, eight to two bytes. -/
def packIndexTile (tile : Bytes) : Bytes :=
  (List.range lanesPerTile).flatMap fun lane =>
    let base := lane * l1sKeptPerLane
    let acc := (List.range l1sKeptPerLane).foldl (fun acc m =>
      acc ||| (tile.getD (base + m) 0 &&& 0x03).toNat <<< (m * l1sIndexBits)) 0
    [(acc &&& 0xFF).toUInt8, (acc >>> 8).toUInt8]

def expandIndexTile (tile : Bytes) : Bytes :=
  (List.range lanesPerTile).flatMap fun lane =>
    let base := lane * l1sIndexBytesPerLane
    let acc := (tile.getD base 0).toNat ||| (tile.getD (base + 1) 0).toNat <<< 8
    (List.range l1sKeptPerLane).map fun m => (acc >>> (m * l1sIndexBits) &&& 0x03).toUInt8

/-- Packs the indices of the values that are kept. -/
def l1sPackIndices (kept : Bytes) (valueDims : PaddedDims) : Except FormatError Bytes := do
  let tiles := valueDims.tileCount
  let expected ← okOr (mul 64 tiles l1sKeptPerTile) (.overflow "l1s kept indices" s!"tiles={tiles}")
  ensure (kept.length = expected) (.lengthMismatch "l1s kept indices" expected kept.length)
  FormatError.collect (rangeProblems "l1s index" 4 (kept.map (·.toNat)))
  pure ((chunksExact l1sKeptPerTile kept).flatMap packIndexTile)

def l1sUnpackIndices (bytes : Bytes) (valueDims : PaddedDims) : Except FormatError Bytes := do
  let expected ← l1sIndexRegionBytes valueDims.tileCount
  ensure (bytes.length = expected) (.lengthMismatch "l1s index bytes" expected bytes.length)
  pure ((chunksExact l1sIndexBytesPerTile bytes).flatMap expandIndexTile)

/-! ### Packed indices -/

def indexDims (dims : PaddedDims) (kind : IqKind) : Except FormatError PaddedDims := do
  let gran := indexGranularity kind
  ensure (¬gran ≤ 1) (.schemeMismatch kind.name "packed-index iq type" kind.name)
  ensure (dims.k % gran = 0)
    (.invalidBlock "k" dims.k "must be a multiple of the iq index granularity")
  PaddedDims.new dims.n (dims.k / gran) none

def iqValueDims (dims : PaddedDims) : IqKind → Except FormatError PaddedDims
  | .iq4Nl | .iq4Xs => .ok dims
  | kind => indexDims dims kind

/-! ### Entries -/

def nativeAlignment : ℕ := 4096

def scaleAlign : ℕ := 256

/-- Rounds a word up, unless that overflows. -/
def alignUp (value align : ℕ) : Option ℕ := (add 64 value (align - 1)).map (· / align * align)

/-- Where the parts of an entry are. -/
structure EntryRegions where
  valuesOffset : ℕ
  valuesBytes : ℕ
  scalesOffset : ℕ
  scalesBytes : ℕ
  indicesOffset : ℕ
  indicesBytes : ℕ
  entryBytes : ℕ
  deriving DecidableEq

/-- The offsets of the values, the scales and the indices, as in the metadata. -/
def EntryRegions.offsets (r : EntryRegions) : List UInt64 :=
  [r.valuesOffset, r.scalesOffset, r.indicesOffset].map Nat.toUInt64

/-- The parts of an entry of rows. -/
def l0EntryRegions (scheme : SchemeId) (n k : ℕ) : Except FormatError EntryRegions := do
  let (bits, _) ← repackBitsPerWeight scheme k
  let rowBytes := bits / 8
  let valuesBytes ← l0RegionBytes n rowBytes
  let entryBytes ← okOr (alignUp valuesBytes nativeAlignment)
    (.overflow "l0 entry_bytes" s!"values_bytes={valuesBytes}")
  pure {
    valuesOffset := 0, valuesBytes
    scalesOffset := entryBytes, scalesBytes := 0
    indicesOffset := entryBytes, indicesBytes := 0
    entryBytes }

/-- The bytes of the values and of the indices. -/
def valueBytes (scheme : SchemeId) (layout : Layout) (dims : PaddedDims) (superblock : Option ℕ)
    (packing : Packing) : Except FormatError (ℕ × ℕ) :=
  match layout with
  | .l1s => do
    let valueDims ← l1sValueDims dims superblock
    let valuesBytes ← okOr (mul 64 valueDims.tileCount packing.tileBytes)
      (.overflow "l1s values_bytes" s!"tiles={valueDims.tileCount}")
    let indicesBytes ← l1sIndexRegionBytes valueDims.tileCount
    pure (valuesBytes, indicesBytes)
  | .l0 | .l1 => do
    let valueDims ← match schemeIqKind scheme with
      | some kind => iqValueDims dims kind
      | none => pure dims
    let valuesBytes ← valueDims.valueRegionBytes packing
    pure (valuesBytes, 0)

/-- The parts of an entry of tiles. -/
def tiledEntryRegions (scheme : SchemeId) (layout : Layout) (n k : ℕ) : Except FormatError EntryRegions := do
  ensure (¬(layout = .l1s ∧ ¬(scheme = .i8R ∨ scheme = .i8B128 ∨ scheme = .i4K ∨ scheme = .e4m3B128)))
    (.unsupportedLayout scheme.name layout.name)
  let superblock ← repackOuterBlock scheme
  let dims ← PaddedDims.new n k superblock
  let packing ← repackPacking scheme
  let recordBytes ← repackRecordBytes scheme
  let block := superblock.getD dims.kPadded
  let (nBlocks, kBlocks) ← scaleBlockCounts dims block
  let records ← scaleRecordCount nBlocks kBlocks
  let scalesBytes ← scaleRegionBytes records recordBytes
  let (valuesBytes, indicesBytes) ← valueBytes scheme layout dims superblock packing
  let scalesOffset ← okOr (alignUp valuesBytes scaleAlign)
    (.overflow "scales_offset" s!"values_bytes={valuesBytes}")
  let indicesOffset ← okOr (add 64 scalesOffset scalesBytes)
    (.overflow "indices_offset" s!"scales_offset={scalesOffset} scales_bytes={scalesBytes}")
  let regionsEnd ← okOr (add 64 indicesOffset indicesBytes)
    (.overflow "entry_bytes" s!"indices_offset={indicesOffset} indices_bytes={indicesBytes}")
  let entryBytes ← okOr (alignUp regionsEnd nativeAlignment)
    (.overflow "entry_bytes" s!"regions_end={indicesOffset}+{indicesBytes} align={nativeAlignment}")
  pure {
    valuesOffset := 0, valuesBytes, scalesOffset, scalesBytes
    indicesOffset := if layout = .l1s then indicesOffset else entryBytes
    indicesBytes, entryBytes }

/-- Where the parts of an entry are, by the scheme, the layout and the dimensions of its tensor. -/
def entryRegions (scheme : SchemeId) (layout : Layout) (n k : ℕ) : Except FormatError EntryRegions :=
  match layout with
  | .l0 => l0EntryRegions scheme n k
  | .l1 | .l1s => tiledEntryRegions scheme layout n k

/-! ### Offsets in the metadata -/

/-- The offset that an item of a list of regions is. -/
def regionOffset (key : Bytes) : KvValue → Except FormatError UInt64
  | .u64 v => .ok v
  | other => .error (.kvTypeMismatch key other.kvType.name "UINT64")

/-- Reads the offsets of the regions of a tensor from the metadata. -/
def parseExplicitRegions (val : KvValue) (regionsKey name : Bytes) : Except FormatError (List UInt64) :=
  match val with
  | .array elem items => do
    ensure (elem = .u64) (.kvTypeMismatch regionsKey elem.name "UINT64")
    ensure (items.length = 3) (.malformed 0 (.regionCount name items.length))
    let explicit ← items.mapM (regionOffset regionsKey)
    ensure (¬(explicit.getD 0 0 ≠ 0 ∨ explicit.getD 1 0 < explicit.getD 0 0 ∨
        explicit.getD 2 0 < explicit.getD 1 0 ∨ explicit.getD 1 0 % 256 ≠ 0))
      (.malformed 0 (.regionOffsets name explicit))
    pure explicit
  | other => .error (.kvTypeMismatch regionsKey other.kvType.name "ARRAY")

end R9v.Format

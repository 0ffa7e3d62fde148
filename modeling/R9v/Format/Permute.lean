import R9v.Format.Layout
import R9v.Lib.Blocks

/-!
# Codecs of tiles

The elements of a weight in the order of the rows and in the order of the tiles, and the bytes that
hold them (`r9v-format/src/permute.rs`).
-/

namespace R9v.Format

open Checked Blocks

def expectLen (got expected : ℕ) (what : String) : Except FormatError Unit :=
  ensure (got = expected) (.lengthMismatch what expected got)

/-- The rows and columns of a padded weight, row by row. -/
def cells (dims : PaddedDims) : List (ℕ × ℕ) :=
  (List.range dims.nPadded).flatMap fun n => (List.range dims.kPadded).map fun k => (n, k)

/-! ### Whole elements -/

section Elements

variable {α : Type} (what : String) (zero : α) (dims : PaddedDims)

/-- The elements of the rows in the order of the tiles. -/
def l1Forward (src : List α) : Except (Fault FormatError) (List α) := do
  let total := dims.nPadded * dims.kPadded
  lift (expectLen src.length total what)
  fill (fun (n, k) => lift (l1ForwardIndex dims n k))
    (fun (n, k) => orPanic src[n * dims.kPadded + k]?) (List.replicate total zero) (cells dims)

/-- The elements of the tiles in the order of the rows. -/
def l1Inverse (tiled : List α) : Except (Fault FormatError) (List α) := do
  let total := dims.nPadded * dims.kPadded
  lift (expectLen tiled.length total what)
  fill (fun (_, pos) => do
      let (n, k) ← lift (l1InverseIndex dims pos)
      pure (n * dims.kPadded + k))
    (fun (value, _) => pure value) (List.replicate total zero) tiled.zipIdx

end Elements

variable (dims : PaddedDims)

def l1ForwardElems (src : List UInt16) : Except (Fault FormatError) (List UInt16) :=
  l1Forward "l1 row-major elements" 0 dims src

def l1InverseElems (tiled : List UInt16) : Except (Fault FormatError) (List UInt16) :=
  l1Inverse "l1 tile-order elements" 0 dims tiled

/-- The cells of the padding that are not zero. -/
def verifyPaddingZerosElems (tiled : List UInt16) : Except (Fault FormatError) Unit := do
  lift (expectLen tiled.length (dims.nPadded * dims.kPadded) "l1 tile-order elements")
  let problems ← (cells dims).foldlM (fun problems (n, k) =>
    if n < dims.n ∧ k < dims.k then pure problems else do
      let pos ← lift (l1ForwardIndex dims n k)
      let value ← orPanic tiled[pos]?
      pure (if value ≠ 0 then problems ++ [.paddingNonzero n k value.toNat] else problems)) []
  lift (FormatError.collect problems)

def l1PackBytes (src : Bytes) : Except (Fault FormatError) Bytes :=
  l1Forward "l1 row-major bytes" 0 dims src

def l1UnpackBytes (tiled : Bytes) : Except (Fault FormatError) Bytes :=
  l1Inverse "l1 tile-order bytes" 0 dims tiled

def verifyPaddingZerosBytes (tiled : Bytes) : Except (Fault FormatError) Unit :=
  verifyPaddingZerosElems dims (tiled.map (·.toUInt16))

def l1PackHalfs (src : List UInt16) : Except (Fault FormatError) (List UInt16) := l1ForwardElems dims src

def l1UnpackHalfs (tiled : List UInt16) : Except (Fault FormatError) (List UInt16) :=
  l1InverseElems dims tiled

/-- The values that do not fit. -/
def rangeProblems (what : String) (limit : ℕ) (values : List ℕ) : List FormatError :=
  values.zipIdx.filterMap fun (value, pos) =>
    if limit ≤ value then some (.valueOutOfRange what pos value) else none

/-! ### Nibbles -/

/-- A tile with two elements to a byte, the lower column in the lower nibble. -/
def packNibbleTile (tile : Bytes) : Bytes :=
  (List.range lanesPerTile).flatMap fun lane =>
    let base := lane * elemsPerLane
    (List.range (elemsPerLane / 2)).map fun m =>
      tile.getD (base + 2 * m) 0 ||| tile.getD (base + 2 * m + 1) 0 <<< 4

def expandNibbleTile (tile : Bytes) : Bytes :=
  (List.range lanesPerTile).flatMap fun lane =>
    let base := lane * (elemsPerLane / 2)
    (List.range (elemsPerLane / 2)).flatMap fun m =>
      let byte := tile.getD (base + m) 0
      [byte &&& 0x0F, byte >>> 4]

def l1PackNibbles (src : Bytes) : Except (Fault FormatError) Bytes := do
  let total := dims.nPadded * dims.kPadded
  lift (expectLen src.length total "l1 row-major nibbles")
  lift (ensure (total % 2 = 0)
    (.overflow "l1_pack_nibbles" s!"padded element count {total} is not a nibble pair"))
  lift (FormatError.collect (rangeProblems "nibble" 16 (src.map (·.toNat))))
  let tiled ← l1PackBytes dims src
  pure ((chunksExact elemsPerTile tiled).flatMap packNibbleTile)

/-- The nibbles of packed tiles, a byte each. -/
def expandNibbles (what : String) (tiled : Bytes) : Except (Fault FormatError) Bytes := do
  let total := dims.nPadded * dims.kPadded
  lift (ensure (total % 2 = 0) (.overflow what s!"padded element count {total} is not a nibble pair"))
  lift (expectLen tiled.length (total / 2) "l1 tile-order nibble bytes")
  pure ((chunksExact (elemsPerTile / 2) tiled).flatMap expandNibbleTile)

def l1UnpackNibbles (tiled : Bytes) : Except (Fault FormatError) Bytes := do
  let expanded ← expandNibbles dims "l1_unpack_nibbles" tiled
  l1UnpackBytes dims expanded

def verifyPaddingZerosNibbles (tiled : Bytes) : Except (Fault FormatError) Unit := do
  let expanded ← expandNibbles dims "l1 nibble check" tiled
  verifyPaddingZerosBytes dims expanded

/-! ### Bit planes -/

/-- A tile whose lanes are numbers of eight digits. -/
def packPlaneTile (bits perLaneBytes : ℕ) (tile : List UInt16) : Bytes :=
  (List.range lanesPerTile).flatMap fun lane =>
    let acc := (List.range elemsPerLane).foldl (fun acc j =>
      acc ||| (tile.getD (lane * elemsPerLane + j) 0).toNat <<< (j * bits)) 0
    (List.range perLaneBytes).map fun b => (acc >>> (b * 8)).toUInt8

def expandPlaneTile (bits perLaneBytes : ℕ) (tile : Bytes) : List UInt16 :=
  (List.range lanesPerTile).flatMap fun lane =>
    let acc := (List.range perLaneBytes).foldl (fun acc b =>
      acc ||| (tile.getD (lane * perLaneBytes + b) 0).toNat <<< (b * 8)) 0
    (List.range elemsPerLane).map fun j => (acc >>> (j * bits) &&& (2 ^ bits - 1)).toUInt16

def l1PackPlanes (bits : ℕ) (src : List UInt16) : Except (Fault FormatError) Bytes := do
  let packing ← lift (Packing.checkedBitPlanes bits)
  lift (expectLen src.length (dims.nPadded * dims.kPadded) "l1 row-major plane values")
  lift (FormatError.collect (rangeProblems "bit-plane value" (2 ^ bits) (src.map (·.toNat))))
  let tiled ← l1ForwardElems dims src
  pure ((chunksExact elemsPerTile tiled).flatMap (packPlaneTile bits packing.bytesPerLane))

/-- The values of packed tiles. -/
def l1UnpackPlanesToElems (bits : ℕ) (tiled : Bytes) : Except (Fault FormatError) (List UInt16) := do
  let packing ← lift (Packing.checkedBitPlanes bits)
  lift (expectLen tiled.length (dims.tileCount * packing.tileBytes) "l1 tile-order plane bytes")
  pure ((chunksExact packing.tileBytes tiled).flatMap (expandPlaneTile bits packing.bytesPerLane))

def l1UnpackPlanes (bits : ℕ) (tiled : Bytes) : Except (Fault FormatError) (List UInt16) := do
  let elems ← l1UnpackPlanesToElems dims bits tiled
  l1InverseElems dims elems

def verifyPaddingZerosPlanes (bits : ℕ) (tiled : Bytes) : Except (Fault FormatError) Unit := do
  let elems ← l1UnpackPlanesToElems dims bits tiled
  verifyPaddingZerosElems dims elems

end R9v.Format

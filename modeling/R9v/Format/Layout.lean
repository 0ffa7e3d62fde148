import R9v.Format.Error

/-!
# Canonical layouts

The layouts of a tensor and the tiles of a weight (`r9v-format/src/layout.rs`). A weight of `n` rows
and `k` columns is padded to whole tiles of 16 rows and 16 columns; the tiles of 16 rows follow one
another along the columns, and a tile is 32 lanes of 8 elements.
-/

namespace R9v.Format

open Checked

def tileN : ℕ := 16

def tileK : ℕ := 16

def lanesPerTile : ℕ := 32

def elemsPerLane : ℕ := 8

def elemsPerTile : ℕ := 256

/-- The columns of half a tile. -/
def laneK : ℕ := 8

/-! ### Layouts and packings -/

/-- The layouts of a tensor. -/
inductive Layout
  | l0
  | l1
  | l1s
  deriving DecidableEq

namespace Layout

def code : Layout → ℕ
  | l0 => 1
  | l1 => 2
  | l1s => 3

def fromCode : ℕ → Except FormatError Layout
  | 1 => .ok l0
  | 2 => .ok l1
  | 3 => .ok l1s
  | code => .error (.unknownLayout (toString code))

def name : Layout → String
  | l0 => "l0"
  | l1 => "l1"
  | l1s => "l1s"

end Layout

/-- How the elements of a lane are packed. -/
inductive Packing
  | nibble4
  | byte
  | half16
  | bitPlanes (bits : ℕ)
  deriving DecidableEq

namespace Packing

/-- The packing of elements of 2, 3, 5 or 6 bits. -/
def checkedBitPlanes (bits : ℕ) : Except FormatError Packing :=
  if bits = 2 ∨ bits = 3 ∨ bits = 5 ∨ bits = 6 then .ok (.bitPlanes bits)
  else .error (.invalidBitWidth bits)

def bytesPerLane : Packing → ℕ
  | nibble4 => 4
  | byte => 8
  | half16 => 16
  | bitPlanes bits => (8 * bits + 7) / 8

def tileBytes (p : Packing) : ℕ := p.bytesPerLane * lanesPerTile

end Packing

/-! ### Padded dimensions -/

/-- Rounds a word up to a multiple of another one. -/
def roundUpU32 (value align : ℕ) (what : String) : Except FormatError ℕ :=
  okOr (narrow 32 ((value + (align - 1)) / align * align)) (.overflow what s!"value={value} align={align}")

/-- What is wrong with the dimensions of a weight. -/
def dimProblems (n k : ℕ) (superblockK : Option ℕ) : List FormatError :=
  (if n = 0 then [.invalidDim "n" 0 "must be at least 1"] else []) ++
    (if k = 0 then [.invalidDim "k" 0 "must be at least 1"] else []) ++
    match superblockK with
    | some s =>
      if s = 0 ∨ s % tileK ≠ 0 then
        [.invalidBlock "superblock_k" s "must be a nonzero multiple of 16"] else []
    | none => []

/-- The rows and columns of a weight, and those of its tiles. -/
structure PaddedDims where
  n : ℕ
  k : ℕ
  nPadded : ℕ
  kPadded : ℕ
  n_pos : 0 < n
  k_pos : 0 < k
  n_le : n ≤ nPadded
  k_le : k ≤ kPadded
  n_dvd : tileN ∣ nPadded
  k_dvd : tileK ∣ kPadded
  n_lt : nPadded < 2 ^ 32
  k_lt : kPadded < 2 ^ 32

theorem roundUpU32_eq_ok {value align r : ℕ} {what : String} (h : roundUpU32 value align what = .ok r)
    (hpos : 0 < align) : value ≤ r ∧ align ∣ r ∧ r < 2 ^ 32 := by
  rw [roundUpU32, okOr_eq_ok, narrow] at h
  split at h
  · next hlt =>
    obtain rfl := Option.some.inj h
    refine ⟨?_, Nat.dvd_mul_left _ _, hlt⟩
    have hmod := Nat.mod_lt (value + (align - 1)) hpos
    have hdiv := Nat.div_add_mod' (value + (align - 1)) align
    omega
  · exact absurd h (by simp)

theorem dimProblems_eq_nil {n k : ℕ} {superblockK : Option ℕ} :
    dimProblems n k superblockK = [] ↔
      0 < n ∧ 0 < k ∧ ∀ s ∈ superblockK, 0 < s ∧ s % tileK = 0 := by
  rw [dimProblems.eq_def, List.append_eq_nil_iff, List.append_eq_nil_iff, and_assoc]
  refine and_congr ?_ (and_congr ?_ ?_)
  · simp [Nat.pos_iff_ne_zero]
  · simp [Nat.pos_iff_ne_zero]
  · cases superblockK <;> simp [Nat.pos_iff_ne_zero]

/-- What the columns are padded to. -/
def blockK (superblockK : Option ℕ) : ℕ := max (superblockK.getD tileK) tileK

theorem blockK_spec {n k : ℕ} {superblockK : Option ℕ} (h : dimProblems n k superblockK = []) :
    0 < blockK superblockK ∧ tileK ∣ blockK superblockK := by
  refine ⟨lt_max_of_lt_right (by decide), ?_⟩
  cases superblockK with
  | none => exact Nat.dvd_refl 16
  | some s =>
    obtain ⟨-, -, hs⟩ := dimProblems_eq_nil.mp h
    obtain ⟨hpos, hmod⟩ := hs s rfl
    have hdvd : tileK ∣ s := Nat.dvd_of_mod_eq_zero hmod
    rw [blockK, Option.getD_some, max_eq_left (Nat.le_of_dvd hpos hdvd)]
    exact hdvd

namespace PaddedDims

/-- Pads the dimensions of a weight. -/
def new (n k : ℕ) (superblockK : Option ℕ) : Except FormatError PaddedDims :=
  match h : dimProblems n k superblockK with
  | [] =>
    match hn : roundUpU32 n tileN "padded_n" with
    | .error e => .error e
    | .ok nPadded =>
      match hk : roundUpU32 k (blockK superblockK) "padded_k" with
      | .error e => .error e
      | .ok kPadded => .ok {
          n, k, nPadded, kPadded
          n_pos := (dimProblems_eq_nil.mp h).1
          k_pos := (dimProblems_eq_nil.mp h).2.1
          n_le := (roundUpU32_eq_ok hn Nat.succ_pos').1
          k_le := (roundUpU32_eq_ok hk (blockK_spec h).1).1
          n_dvd := (roundUpU32_eq_ok hn Nat.succ_pos').2.1
          k_dvd := (blockK_spec h).2.trans (roundUpU32_eq_ok hk (blockK_spec h).1).2.1
          n_lt := (roundUpU32_eq_ok hn Nat.succ_pos').2.2
          k_lt := (roundUpU32_eq_ok hk (blockK_spec h).1).2.2 }
  | [e] => .error e
  | problems => .error (.multiple problems)

variable (dims : PaddedDims)

def nTiles : ℕ := dims.nPadded / tileN

def kTiles : ℕ := dims.kPadded / tileK

def tileCount : ℕ := dims.nTiles * dims.kTiles

def rowBlocks : ℕ := dims.nTiles

/-- The bytes of the values of a weight. -/
def valueRegionBytes (packing : Packing) : Except FormatError ℕ :=
  okOr (mul 64 dims.tileCount packing.tileBytes)
    (.overflow "value_region_bytes" s!"tiles={dims.tileCount} tile_bytes={packing.tileBytes}")

end PaddedDims

/-! ### Where the elements are -/

variable (dims : PaddedDims)

/-- What is wrong with a row or a column that is not below a bound. -/
def boundProblem (name : String) (value bound : ℕ) (reason : String) : List FormatError :=
  if bound ≤ value then [.invalidDim name value reason] else []

/-- The tile of the rows from `nBase` on and the columns from `kBase` on. -/
def tileIndex (nBase kBase : ℕ) : Except FormatError ℕ := do
  FormatError.collect <|
    (if nBase % tileN ≠ 0 then [.invalidDim "n_base" nBase "must be a multiple of 16"] else []) ++
      (if kBase % tileK ≠ 0 then [.invalidDim "k_base" kBase "must be a multiple of 16"] else []) ++
      boundProblem "n_base" nBase dims.nPadded "must be below padded N" ++
      boundProblem "k_base" kBase dims.kPadded "must be below padded K"
  okOr ((mul 64 (nBase / tileN) dims.kTiles).bind fun row => add 64 row (kBase / tileK))
    (.overflow "tile_index" s!"n_base={nBase} k_base={kBase}")

/-- The first row and the first column of a tile. -/
def tileOrigin (tile : ℕ) : Except FormatError (ℕ × ℕ) := do
  ensure (tile < dims.tileCount) (.invalidDim "tile" tile "must be below the tile count")
  pure (tile / dims.kTiles * tileN % 2 ^ 32, tile % dims.kTiles * tileK % 2 ^ 32)

/-- The position of an element among the tiles. -/
def l1ForwardIndex (n k : ℕ) : Except FormatError ℕ := do
  FormatError.collect <|
    boundProblem "n" n dims.nPadded "must be below padded N" ++
      boundProblem "k" k dims.kPadded "must be below padded K"
  let tile := n / tileN * dims.kTiles + k / tileK
  let lane := k % tileK / laneK * tileN + n % tileN
  pure (tile * elemsPerTile + lane * elemsPerLane + k % laneK)

/-- The row and the column of a position. -/
def l1InverseIndex (pos : ℕ) : Except FormatError (ℕ × ℕ) := do
  ensure (pos < dims.tileCount * elemsPerTile)
    (.invalidDim "pos" pos "must be below the tiled element count")
  let tile := pos / elemsPerTile
  let lane := pos % elemsPerTile / elemsPerLane
  let j := pos % elemsPerTile % elemsPerLane
  let n := (tile / dims.kTiles * tileN + lane % tileN) % 2 ^ 32
  let k := (tile % dims.kTiles * tileK + lane / tileN * laneK + j) % 2 ^ 32
  pure (n, k)

/-- The tiles of sixteen rows, from the first one to the one after the last. -/
def rowBlockTiles (nb : ℕ) : Except FormatError (ℕ × ℕ) := do
  ensure (nb < dims.rowBlocks) (.invalidDim "nb" nb "must be below the row-block count")
  let start := nb * dims.kTiles
  pure (start, start + dims.kTiles)

/-! ### Scale records -/

/-- The bytes of rows of one length. -/
def l0RegionBytes (rows strideBytes : ℕ) : Except FormatError ℕ := do
  ensure (rows ≠ 0) (.invalidDim "rows" 0 "must be at least 1")
  okOr (mul 64 rows strideBytes) (.overflow "l0_region_bytes" s!"rows={rows} stride={strideBytes}")

/-- The blocks of scale records along the rows and along the columns. -/
def scaleBlockCounts (blockB : ℕ) : Except FormatError (ℕ × ℕ) := do
  ensure (¬(blockB = 0 ∨ blockB % tileK ≠ 0))
    (.invalidBlock "block_b" blockB "must be a nonzero multiple of 16")
  ensure (dims.kPadded % blockB = 0) (.invalidBlock "block_b" blockB "must divide padded K")
  pure (dims.nTiles, dims.kPadded / blockB)

def scaleRecordCount (nBlocks kBlocks : ℕ) : Except FormatError ℕ :=
  okOr ((mul 64 nBlocks kBlocks).bind (mul 64 · tileN))
    (.overflow "scale_record_count" s!"n_blocks={nBlocks} k_blocks={kBlocks}")

def scaleRegionBytes (recordCount recordBytes : ℕ) : Except FormatError ℕ := do
  ensure (recordBytes ≠ 0) (.invalidBlock "record_bytes" 0 "must be at least 1")
  okOr (mul 64 recordCount recordBytes)
    (.overflow "scale_region_bytes" s!"records={recordCount} record_bytes={recordBytes}")

end R9v.Format

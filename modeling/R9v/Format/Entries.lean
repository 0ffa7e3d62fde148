import R9v.Format.Regions
import R9v.Format.Tiles
import Mathlib.Order.Bounds.Defs

/-!
# The regions of an entry are laid out

The values, the scales and the indices of an entry follow one another, at the alignment that each of
them needs, and the entry ends with the first page that holds them all (`entryRegions_spec`). The
indices of a sparse tensor take two bits each, and are packed and unpacked without loss
(`index_codec`).
-/

namespace R9v.Format

open Checked Blocks List

/-! ### Indices of kept values -/

section Indices

variable {valueDims : PaddedDims}

def packIndexLane (lane : Bytes) : Bytes :=
  let acc := (List.range 8).foldl (fun acc m => acc ||| (lane.getD m 0 &&& 0x03).toNat <<< (m * 2)) 0
  [(acc &&& 0xFF).toUInt8, (acc >>> 8).toUInt8]

def expandIndexLane (lane : Bytes) : Bytes :=
  let acc := (lane.getD 0 0).toNat ||| (lane.getD 1 0).toNat <<< 8
  (List.range 8).map fun m => (acc >>> (m * 2) &&& 0x03).toUInt8

theorem and_three {v : UInt8} (h : v.toNat < 4) : (v &&& 0x03).toNat = v.toNat := by
  exact (Nat.and_two_pow_sub_one_eq_mod v.toNat 2).trans (Nat.mod_eq_of_lt h)

theorem packIndexLane_eq {lane : Bytes} (hl : lane.length = 8) (hfits : ∀ v ∈ lane, v.toNat < 4) :
    packIndexLane lane =
      (Digits.split 256 2 (Nat.ofDigits (2 ^ 2) (lane.map (·.toNat)))).map Nat.toUInt8 := by
  have hdigit : ∀ m < 8, (lane.getD m 0 &&& 0x03).toNat = (lane.getD m 0).toNat ∧
      (lane.getD m 0 &&& 0x03).toNat < 2 ^ 2 := fun m hm => by
    have hlt : (lane.getD m 0).toNat < 4 := by
      rw [getD_eq_getElem _ _ (hl ▸ hm)]
      exact hfits _ (getElem_mem _)
    rw [and_three hlt]
    exact ⟨rfl, hlt⟩
  have hacc : (List.range 8).map (fun m => (lane.getD m 0 &&& 0x03).toNat) = lane.map (·.toNat) := by
    conv_rhs => rw [← map_getD_eq hl 0, map_map]
    exact map_congr_left fun m hm => (hdigit m (mem_range.mp hm)).1
  rw [packIndexLane, Digits.foldl_or_eq fun m hm => (hdigit m hm).2, hacc, Digits.split, Digits.split,
    Digits.split, Nat.and_two_pow_sub_one_eq_mod _ 8, Nat.shiftRight_eq_div_pow]
  refine congrArg₂ (fun a b => [a, b]) rfl (UInt8.toNat_inj.mp ?_)
  simp

theorem expandIndexLane_eq {lane : Bytes} (hl : lane.length = 2) :
    expandIndexLane lane =
      (Digits.split (2 ^ 2) 8 (Nat.ofDigits 256 (lane.map (·.toNat)))).map Nat.toUInt8 := by
  have hlane : lane = [lane.getD 0 0, lane.getD 1 0] := (map_getD_eq hl 0).symm
  have hacc : (lane.getD 0 0).toNat ||| (lane.getD 1 0).toNat <<< 8 =
      Nat.ofDigits 256 (lane.map (·.toNat)) := by
    have hlow : (lane.getD 0 0).toNat < 2 ^ 8 := (lane.getD 0 0).toNat_lt
    conv_rhs => rw [hlane]
    rw [Nat.or_comm, ← Nat.shiftLeft_add_eq_or_of_lt hlow, Nat.shiftLeft_eq, map_cons, map_cons,
      map_nil, Nat.ofDigits_cons, Nat.ofDigits_singleton, Nat.add_comm, Nat.mul_comm]
  rw [expandIndexLane, hacc, Digits.split_two_pow, map_map]
  rfl

/-- **Eight indices** are two bytes. -/
theorem indexLane : Packs (fun v : UInt8 => v.toNat < 4) 8 2 packIndexLane expandIndexLane := by
  have hvalue : ∀ d < 2 ^ 2, (Nat.toUInt8 d).toNat = d := fun d hd => by
    simpa using Nat.mod_eq_of_lt (hd.trans (show 2 ^ 2 < 256 by decide))
  exact (Packs.digits (fun v => UInt8.ofNat_toNat) hvalue (by decide) two_pos).congr
    (fun l hl hfits => packIndexLane_eq hl hfits) fun l hl => expandIndexLane_eq hl

theorem packIndexTile_eq : packIndexTile = blockwise 8 32 packIndexLane := by
  funext tile
  refine flatMap_congr fun lane _ => ?_
  have hacc : (List.range 8).foldl
        (fun acc m => acc ||| (tile.getD (lane * 8 + m) 0 &&& 0x03).toNat <<< (m * 2)) 0 =
      (List.range 8).foldl
        (fun acc m => acc ||| ((block 8 tile lane).getD m 0 &&& 0x03).toNat <<< (m * 2)) 0 :=
    foldl_ext _ _ _ fun acc m hm => by rw [getD_block (mem_range.mp hm)]
  exact congrArg (fun acc : ℕ => [(acc &&& 0xFF).toUInt8, (acc >>> 8).toUInt8]) hacc

theorem expandIndexTile_eq : expandIndexTile = blockwise 2 32 expandIndexLane := by
  funext tile
  refine flatMap_congr fun lane _ => ?_
  have hlow : tile.getD (lane * 2) 0 = (block 2 tile lane).getD 0 0 := getD_block (j := 0) Nat.zero_lt_two
  have hhigh : tile.getD (lane * 2 + 1) 0 = (block 2 tile lane).getD 1 0 := getD_block Nat.one_lt_two
  change (List.range 8).map (fun m => (((tile.getD (lane * 2) 0).toNat |||
    (tile.getD (lane * 2 + 1) 0).toNat <<< 8) >>> (m * 2) &&& 0x03).toUInt8) = _
  rw [hlow, hhigh]
  rfl

/-- The codec of the indices of some tiles. -/
structure IndexCodec (valueDims : PaddedDims) : Prop where
  exists_pack_iff : ∀ kept, (∃ bytes, l1sPackIndices kept valueDims = .ok bytes) ↔
    kept.length = valueDims.tileCount * 256 ∧ ∀ v ∈ kept, v.toNat < 4
  unpack_pack : ∀ kept bytes, l1sPackIndices kept valueDims = .ok bytes →
    l1sIndexRegionBytes valueDims.tileCount = .ok bytes.length ∧
      l1sUnpackIndices bytes valueDims = .ok kept
  pack_unpack : ∀ bytes : Bytes, l1sIndexRegionBytes valueDims.tileCount = .ok bytes.length →
    ∃ kept, l1sUnpackIndices bytes valueDims = .ok kept ∧ l1sPackIndices kept valueDims = .ok bytes

theorem tileCount_lt (valueDims : PaddedDims) : valueDims.tileCount * 256 < 2 ^ 64 := by
  rw [tileCount_eq]
  have hn := valueDims.n_lt
  have hk := valueDims.k_lt
  calc valueDims.nPadded * valueDims.kPadded < 2 ^ 32 * 2 ^ 32 :=
        Nat.mul_lt_mul'' hn hk
    _ = 2 ^ 64 := by norm_num

/-- **The indices of kept values** are packed and unpacked without loss. -/
theorem index_codec (valueDims : PaddedDims) : IndexCodec valueDims := by
  have hcount := tileCount_lt valueDims
  have hregion : ∀ len, l1sIndexRegionBytes valueDims.tileCount = .ok len ↔
      len = valueDims.tileCount * 64 := by
    intro len
    rw [l1sIndexRegionBytes, okOr_eq_ok, mul_eq_some]
    exact ⟨fun h => h.2.symm, fun h => ⟨by rw [l1sIndexBytesPerTile]; omega, h.symm⟩⟩
  have hpacks : Packs (fun v : UInt8 => v.toNat < 4) (valueDims.tileCount * 256)
      (valueDims.tileCount * 64) (blockwise 256 valueDims.tileCount packIndexTile)
      (blockwise 64 valueDims.tileCount expandIndexTile) := by
    rw [packIndexTile_eq, expandIndexTile_eq]
    exact (indexLane.blockwise 32).blockwise valueDims.tileCount
  have hpack : ∀ kept bytes, l1sPackIndices kept valueDims = .ok bytes ↔
      kept.length = valueDims.tileCount * 256 ∧ (∀ v ∈ kept, v.toNat < 4) ∧
        bytes = blockwise 256 valueDims.tileCount packIndexTile kept := by
    intro kept bytes
    simp only [l1sPackIndices, bind_eq_ok, okOr_eq_ok, mul_eq_some, ensure_eq_ok,
      FormatError.collect_eq_ok, rangeProblems_eq_nil, forall_mem_map, pure_eq_ok]
    constructor
    · rintro ⟨_, ⟨-, rfl⟩, _, hlen, _, hfits, rfl⟩
      exact ⟨hlen, hfits, flatMap_chunksExact (by decide) hlen _⟩
    · rintro ⟨hlen, hfits, rfl⟩
      exact ⟨_, ⟨hcount, rfl⟩, (), hlen, (), hfits, flatMap_chunksExact (by decide) hlen _⟩
  have hunpack : ∀ kept bytes, l1sUnpackIndices bytes valueDims = .ok kept ↔
      bytes.length = valueDims.tileCount * 64 ∧
        kept = blockwise 64 valueDims.tileCount expandIndexTile bytes := by
    intro kept bytes
    simp only [l1sUnpackIndices, bind_eq_ok, hregion, ensure_eq_ok, pure_eq_ok]
    constructor
    · rintro ⟨_, rfl, _, hlen, rfl⟩
      exact ⟨hlen, flatMap_chunksExact (by decide) hlen _⟩
    · rintro ⟨hlen, rfl⟩
      exact ⟨_, rfl, (), hlen, flatMap_chunksExact (by decide) hlen _⟩
  refine ⟨fun kept => ⟨?_, ?_⟩, fun kept bytes h => ?_, fun bytes h => ?_⟩
  · rintro ⟨_, h⟩
    obtain ⟨hlen, hfits, -⟩ := (hpack _ _).mp h
    exact ⟨hlen, hfits⟩
  · rintro ⟨hlen, hfits⟩
    exact ⟨_, (hpack _ _).mpr ⟨hlen, hfits, rfl⟩⟩
  · obtain ⟨hlen, hfits, rfl⟩ := (hpack _ _).mp h
    obtain ⟨hbytes, hback⟩ := hpacks.enc_spec kept hlen hfits
    exact ⟨(hregion _).mpr hbytes, (hunpack _ _).mpr ⟨hbytes, hback.symm⟩⟩
  · have hbytes := (hregion _).mp h
    obtain ⟨hlen, hfits, hback⟩ := hpacks.dec_spec bytes hbytes
    exact ⟨_, (hunpack _ _).mpr ⟨hbytes, rfl⟩, (hpack _ _).mpr ⟨hlen, hfits, hback.symm⟩⟩

end Indices

/-! ### The parts of an entry -/

/-- The end of the last part that is not empty. -/
def EntryRegions.lastEnd (r : EntryRegions) : ℕ :=
  if r.indicesBytes ≠ 0 then r.indicesOffset + r.indicesBytes
  else if r.scalesBytes ≠ 0 then r.scalesOffset + r.scalesBytes
  else r.valuesOffset + r.valuesBytes

/-- The parts of an entry one after another. -/
structure EntryRegions.LaidOut (r : EntryRegions) : Prop where
  values_zero : r.valuesOffset = 0
  values_le : r.valuesOffset + r.valuesBytes ≤ r.scalesOffset
  scales_le : r.scalesOffset + r.scalesBytes ≤ r.indicesOffset
  indices_le : r.indicesOffset + r.indicesBytes ≤ r.entryBytes
  scales_dvd : 256 ∣ r.scalesOffset
  entry_least : IsLeast {e | 4096 ∣ e ∧ r.lastEnd ≤ e} r.entryBytes
  entry_lt : r.entryBytes < 2 ^ 64

theorem alignUp_eq_some {value align r : ℕ} (ha : 0 < align) (h : alignUp value align = some r) :
    IsLeast {e | align ∣ e ∧ value ≤ e} r ∧ r < 2 ^ 64 := by
  rw [alignUp, Option.map_eq_some_iff] at h
  obtain ⟨_, hadd, rfl⟩ := h
  obtain ⟨hlt, rfl⟩ := add_eq_some.mp hadd
  have hmod := Nat.mod_lt (value + (align - 1)) ha
  have hdiv := Nat.div_add_mod' (value + (align - 1)) align
  refine ⟨⟨⟨Nat.dvd_mul_left _ _, by omega⟩, ?_⟩, by omega⟩
  rintro e ⟨⟨c, rfl⟩, hle⟩
  have hc : (value + (align - 1)) / align ≤ c := by
    rw [← Nat.lt_succ_iff, Nat.div_lt_iff_lt_mul ha, Nat.succ_mul, Nat.mul_comm c]
    omega
  calc (value + (align - 1)) / align * align ≤ c * align := Nat.mul_le_mul_right _ hc
    _ = align * c := Nat.mul_comm _ _

/-- **The offsets of an entry that is laid out** are read back from the metadata. -/
theorem parseExplicitRegions_offsets {r : EntryRegions} (h : r.LaidOut) (key name : Bytes) :
    parseExplicitRegions (.array .u64 (r.offsets.map .u64)) key name = .ok r.offsets := by
  have hlt := h.entry_lt
  have hi := h.indices_le
  have hs := h.scales_le
  have hsc : (Nat.toUInt64 r.scalesOffset).toNat = r.scalesOffset := by
    simpa using Nat.mod_eq_of_lt (show r.scalesOffset < 18446744073709551616 by omega)
  have hin : (Nat.toUInt64 r.indicesOffset).toNat = r.indicesOffset := by
    simpa using Nat.mod_eq_of_lt (show r.indicesOffset < 18446744073709551616 by omega)
  have hitems : ∀ l : List UInt64, (l.map KvValue.u64).mapM (regionOffset key) = .ok l := by
    intro l
    induction l with
    | nil => rfl
    | cons v l ih =>
      rw [map_cons, mapM_cons, ih]
      rfl
  have hmod : Nat.toUInt64 r.scalesOffset % 256 = 0 := by
    rw [← UInt64.toNat_inj, UInt64.toNat_mod, hsc]
    exact Nat.mod_eq_zero_of_dvd h.scales_dvd
  have hle : ¬Nat.toUInt64 r.indicesOffset < Nat.toUInt64 r.scalesOffset := by
    rw [UInt64.lt_iff_toNat_lt, hsc, hin]
    omega
  have hzero : Nat.toUInt64 r.valuesOffset = 0 := by rw [h.values_zero]; rfl
  have hlow : ¬Nat.toUInt64 r.scalesOffset < (0 : UInt64) := by
    exact Nat.not_lt_zero _
  rw [parseExplicitRegions, ensure_of rfl, ok_bind, ensure_of (by rfl), ok_bind, hitems, ok_bind,
    ensure_of, ok_bind]
  · rfl
  · change ¬(Nat.toUInt64 r.valuesOffset ≠ 0 ∨ Nat.toUInt64 r.scalesOffset < Nat.toUInt64 r.valuesOffset ∨
      Nat.toUInt64 r.indicesOffset < Nat.toUInt64 r.scalesOffset ∨
      Nat.toUInt64 r.scalesOffset % 256 ≠ 0)
    rw [hzero]
    rintro (h | h | h | h)
    exacts [h rfl, hlow h, hle h, h hmod]

/-! ### Rows -/

section Rows

variable {scheme : SchemeId} {n k : ℕ} {r : EntryRegions}

theorem repackBitsPerWeight_ggml {ggml : GgmlType} (hs : ggml.scheme = some scheme) {bits k' : ℕ}
    (h : repackBitsPerWeight scheme k = .ok (bits, k')) :
    ggml.blockLen ∣ k ∧ bits = k / ggml.blockLen * (8 * ggml.blockBytes) := by
  have hblock : ∃ reason what detail, repackBitsPerWeight scheme k =
      blockBits k ggml.blockLen (8 * ggml.blockBytes) reason what detail := by
    cases ggml <;> cases hs <;> exact ⟨_, _, _, rfl⟩
  obtain ⟨reason, what, detail, hblock⟩ := hblock
  rw [hblock, blockBits] at h
  simp only [bind_eq_ok, ensure_eq_ok, okOr_eq_ok, mul_eq_some, pure_eq_ok, Prod.mk.injEq, not_or,
    Decidable.not_not] at h
  obtain ⟨_, ⟨-, hdvd⟩, _, ⟨-, rfl⟩, hbits, -⟩ := h
  exact ⟨Nat.dvd_of_mod_eq_zero hdvd, hbits.symm⟩

theorem l0EntryRegions_eq_ok (h : l0EntryRegions scheme n k = .ok r) :
    r.LaidOut ∧ r.scalesBytes = 0 ∧ r.indicesBytes = 0 ∧ r.scalesOffset = r.entryBytes ∧
      r.indicesOffset = r.entryBytes ∧
      ∀ ggml : GgmlType, ggml.scheme = some scheme →
        ggml.blockLen ∣ k ∧ r.valuesBytes = n * (k / ggml.blockLen) * ggml.blockBytes := by
  rw [l0EntryRegions, bind_eq_ok] at h
  obtain ⟨⟨bits, k'⟩, hbits, h⟩ := h
  simp only [bind_eq_ok, okOr_eq_ok, pure_eq_ok] at h
  obtain ⟨values, hvalues, entry, hentry, rfl⟩ := h
  obtain ⟨hleast, hlt⟩ := alignUp_eq_some Nat.succ_pos' hentry
  have hle : values ≤ entry := hleast.1.2
  refine ⟨⟨rfl, ?_, le_refl _, le_refl _, ?_, ?_, hlt⟩, rfl, rfl, rfl, rfl, fun ggml hs => ?_⟩
  · simpa using hle
  · exact (show 256 ∣ nativeAlignment by decide).trans hleast.1.1
  · have hend : (EntryRegions.mk 0 values entry 0 entry 0 entry).lastEnd = values := by
      simp [EntryRegions.lastEnd]
    rw [hend]
    exact hleast
  · obtain ⟨hdvd, rfl⟩ := repackBitsPerWeight_ggml hs hbits
    rw [l0RegionBytes] at hvalues
    simp only [bind_eq_ok, okOr_eq_ok, mul_eq_some, ensure_eq_ok] at hvalues
    obtain ⟨_, -, -, rfl⟩ := hvalues
    refine ⟨hdvd, ?_⟩
    rw [Nat.mul_left_comm, Nat.mul_div_cancel_left _ (by decide : 0 < 8), Nat.mul_assoc]

end Rows

/-! ### Tiles -/

section Tiles

variable {scheme : SchemeId} {layout : Layout} {n k : ℕ} {r : EntryRegions} {dims : PaddedDims}

theorem nTiles_pos (dims : PaddedDims) : 0 < dims.nTiles :=
  Nat.div_pos (Nat.le_of_dvd (dims.n_pos.trans_le dims.n_le) dims.n_dvd) (by decide)

theorem kTiles_pos (dims : PaddedDims) : 0 < dims.kTiles :=
  Nat.div_pos (Nat.le_of_dvd (dims.k_pos.trans_le dims.k_le) dims.k_dvd) (by decide)

theorem scaleBlockCounts_eq_ok {block nBlocks kBlocks : ℕ}
    (h : scaleBlockCounts dims block = .ok (nBlocks, kBlocks)) : 0 < nBlocks ∧ 0 < kBlocks := by
  rw [scaleBlockCounts] at h
  simp only [bind_eq_ok, ensure_eq_ok, pure_eq_ok, not_or, Prod.mk.injEq] at h
  obtain ⟨_, ⟨hpos, -⟩, _, hdvd, rfl, rfl⟩ := h
  have hk : 0 < dims.kPadded := dims.k_pos.trans_le dims.k_le
  exact ⟨nTiles_pos dims, Nat.div_pos (Nat.le_of_dvd hk (Nat.dvd_of_mod_eq_zero hdvd))
    (Nat.pos_of_ne_zero hpos)⟩

theorem scaleRegionBytes_pos {nBlocks kBlocks records recordBytes bytes : ℕ} (hn : 0 < nBlocks)
    (hk : 0 < kBlocks) (hr : scaleRecordCount nBlocks kBlocks = .ok records)
    (h : scaleRegionBytes records recordBytes = .ok bytes) : 0 < bytes := by
  rw [scaleRecordCount, okOr_eq_ok, Option.bind_eq_some_iff] at hr
  obtain ⟨_, hmul, hmul'⟩ := hr
  obtain ⟨-, rfl⟩ := mul_eq_some.mp hmul
  obtain ⟨-, rfl⟩ := mul_eq_some.mp hmul'
  rw [scaleRegionBytes] at h
  simp only [bind_eq_ok, okOr_eq_ok, mul_eq_some, ensure_eq_ok] at h
  obtain ⟨_, hrec, -, rfl⟩ := h
  exact Nat.mul_pos (Nat.mul_pos (Nat.mul_pos hn hk) (by decide)) (Nat.pos_of_ne_zero hrec)

/-- The indices of a sparse tensor: two bits for each of the values that are kept. -/
def TwoBits (scheme : SchemeId) (n k indicesBytes : ℕ) : Prop :=
  ∃ superblock dims valueDims, repackOuterBlock scheme = .ok superblock ∧
    PaddedDims.new n k superblock = .ok dims ∧ l1sValueDims dims superblock = .ok valueDims ∧
    8 * indicesBytes = 2 * (valueDims.tileCount * elemsPerTile) ∧ IndexCodec valueDims

theorem tiledEntryRegions_eq_ok (h : tiledEntryRegions scheme layout n k = .ok r) (hl : layout ≠ .l0) :
    r.LaidOut ∧ 0 < r.scalesBytes ∧
      (layout ≠ .l1s → r.indicesBytes = 0 ∧ r.indicesOffset = r.entryBytes) ∧
      (layout = .l1s → 0 < r.indicesBytes ∧ TwoBits scheme n k r.indicesBytes) := by
  rw [tiledEntryRegions] at h
  simp only [bind_eq_ok, Prod.exists] at h
  obtain ⟨_, -, superblock, hsuper, dims, hdims, packing, -, recordBytes, -, nBlocks, kBlocks, hblocks,
    records, hrecords, scales, hscales, values, indices, hvalues, scalesOffset, hso, indicesOffset, hio,
    regionsEnd, hre, entry, hentry, hr⟩ := h
  obtain ⟨hn, hk⟩ := scaleBlockCounts_eq_ok hblocks
  have hpos := scaleRegionBytes_pos hn hk hrecords hscales
  obtain ⟨hsLeast, -⟩ := alignUp_eq_some Nat.succ_pos' (okOr_eq_ok.mp hso)
  obtain ⟨-, rfl⟩ := add_eq_some.mp (okOr_eq_ok.mp hio)
  obtain ⟨-, rfl⟩ := add_eq_some.mp (okOr_eq_ok.mp hre)
  obtain ⟨heLeast, hlt⟩ := alignUp_eq_some Nat.succ_pos' (okOr_eq_ok.mp hentry)
  obtain rfl := pure_eq_ok.mp hr
  have hle : scalesOffset + scales + indices ≤ entry := heLeast.1.2
  have hv : values ≤ scalesOffset := hsLeast.1.2
  cases layout with
  | l0 => exact absurd rfl hl
  | l1 =>
    obtain rfl : 0 = indices := by
      rw [valueBytes] at hvalues
      cases hkind : schemeIqKind scheme
      all_goals
        rw [hkind] at hvalues
        simp only [bind_eq_ok, pure_eq_ok, Prod.mk.injEq] at hvalues
        obtain ⟨_, -, _, -, -, hzero⟩ := hvalues
        exact hzero
    refine ⟨⟨rfl, ?_, hle, le_refl _, hsLeast.1.1, ?_, hlt⟩, hpos, fun _ => ⟨rfl, rfl⟩,
      fun h => by cases h⟩
    · rwa [Nat.zero_add]
    · rw [EntryRegions.lastEnd, if_neg (fun h => h rfl), if_pos hpos.ne']
      exact heLeast
  | l1s =>
    simp only [valueBytes, bind_eq_ok, pure_eq_ok, Prod.mk.injEq] at hvalues
    obtain ⟨valueDims, hdims', _, -, indexBytes, hindex, rfl, rfl⟩ := hvalues
    rw [l1sIndexRegionBytes, okOr_eq_ok, mul_eq_some] at hindex
    obtain ⟨-, rfl⟩ := hindex
    have htiles : 0 < valueDims.tileCount * l1sIndexBytesPerTile :=
      Nat.mul_pos (Nat.mul_pos (nTiles_pos valueDims) (kTiles_pos valueDims)) Nat.succ_pos'
    refine ⟨⟨rfl, ?_, le_refl _, hle, hsLeast.1.1, ?_, hlt⟩, hpos, fun h => absurd rfl h, fun _ =>
      ⟨htiles, superblock, dims, valueDims, hsuper, hdims, hdims', ?_, index_codec valueDims⟩⟩
    · rwa [Nat.zero_add]
    · rw [EntryRegions.lastEnd, if_pos htiles.ne']
      exact heLeast
    · change 8 * (valueDims.tileCount * 64) = 2 * (valueDims.tileCount * 256)
      omega

end Tiles

/-- **The parts of an entry**: they follow one another, each at its alignment, and the parts that a
layout does not have are empty and at the end; the metadata takes their offsets. Rows are as many
bytes as on the wire, and the indices of a sparse tensor are two bits for each of the values that
are kept. -/
theorem entryRegions_spec (scheme : SchemeId) (layout : Layout) (n k : ℕ) (r : EntryRegions)
    (h : entryRegions scheme layout n k = .ok r) :
    r.LaidOut ∧
      (layout = .l0 → r.scalesBytes = 0 ∧ r.scalesOffset = r.entryBytes) ∧
      (layout ≠ .l0 → 0 < r.scalesBytes) ∧
      (layout ≠ .l1s → r.indicesBytes = 0 ∧ r.indicesOffset = r.entryBytes) ∧
      (∀ key name, parseExplicitRegions (.array .u64 (r.offsets.map .u64)) key name = .ok r.offsets) ∧
      (layout = .l0 → ∀ ggml : GgmlType, ggml.scheme = some scheme →
        ggml.blockLen ∣ k ∧ r.valuesBytes = n * (k / ggml.blockLen) * ggml.blockBytes) ∧
      (layout = .l1s → 0 < r.indicesBytes ∧ TwoBits scheme n k r.indicesBytes) := by
  by_cases hl : layout = .l0
  · subst hl
    obtain ⟨hout, hsz, hiz, hs, hi, hggml⟩ := l0EntryRegions_eq_ok h
    exact ⟨hout, fun _ => ⟨hsz, hs⟩, fun h => absurd rfl h, fun _ => ⟨hiz, hi⟩,
      parseExplicitRegions_offsets hout, fun _ => hggml, fun h => by cases h⟩
  · have htiled : tiledEntryRegions scheme layout n k = .ok r := by
      cases layout with
      | l0 => exact absurd rfl hl
      | l1 => exact h
      | l1s => exact h
    obtain ⟨hout, hpos, hi, hs⟩ := tiledEntryRegions_eq_ok htiled hl
    exact ⟨hout, fun h => absurd h hl, fun _ => hpos, hi, parseExplicitRegions_offsets hout,
      fun h => absurd h hl, hs⟩

theorem entryRegions_sparse : ∃ r, entryRegions .i4K .l1s 40 512 = .ok r ∧ r.LaidOut ∧
    TwoBits .i4K 40 512 r.indicesBytes := by
  have h : entryRegions .i4K .l1s 40 512 = .ok ⟨0, 6144, 6144, 1536, 7680, 3072, 12288⟩ := by
    rfl
  obtain ⟨hout, -, -, -, -, -, hbits⟩ := entryRegions_spec .i4K .l1s 40 512 _ h
  exact ⟨_, h, hout, (hbits rfl).2⟩

end R9v.Format

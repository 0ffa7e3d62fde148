import R9v.T0.KvScale
import R9v.T0.KvStates

/-!
# Reading a cache

How the numbers of a cache are read (`r9v-t0/src/attention.rs`), and what is read after a write: of
each row that a quantized cache holds after a write, the bounds on the row decide whether it is read
back (`Kv.quantized_rows`).
-/

namespace R9v.Kv

open Blocks Checked FloatFormat Format Storing List

/-! ### Reads -/

/-- A slot of a cache. -/
def checkSlot (numSlots slot : ℕ) : Except KvError Unit :=
  ensure (slot < numSlots)
    (.plan (.rowIndexOutOfRange "attention" "cache" slot (min slot (2 ^ 32 - 1)) numSlots))

/-- Reads a place of a region. -/
def readAt {α : Type} (region : List α) (i : ℕ) (tensor : String) (shape : List ℕ) :
    Except KvError α :=
  okOr region[i]? (.bufferLengthMismatch tensor region.length (i + 1) shape)

/-- Reads a number that is stored in the regions of a cache, with the scale of its row. -/
def readNumber (dtype : DType) (f16 : List UInt16) (i8 : List Int8) (e4m3 : List UInt8)
    (scales : List UInt16) (off : ℕ) (scaleOff : Except KvError ℕ) (tensor scaleTensor : String)
    (shape scaleShape : List ℕ) : Except KvError F32 :=
  match dtype with
  | .f16 => do
    let b ← readAt f16 off tensor shape
    pure (Format.f16ToF32 b)
  | .i8 => do
    let q ← readAt i8 off tensor shape
    let so ← scaleOff
    let s ← readAt scales so scaleTensor scaleShape
    pure ((Format.f16ToF32 s).mul (F32.ofInt q.toInt))
  | .e4m3 => do
    let b ← readAt e4m3 off tensor shape
    let so ← scaleOff
    let s ← readAt scales so scaleTensor scaleShape
    pure ((Format.f16ToF32 s).mul (E4m3.mk b).toF32)
  | _ => .error dtypeError

namespace PagedCache

variable (c : PagedCache) (slot head dim : ℕ)

def readKF32 : Except KvError F32 := do
  checkSlot c.numSlots slot
  let off ← c.kOffset slot head dim
  readNumber c.dtype c.kF16 c.kI8 c.kE4m3 c.kScales off (c.scaleOffset slot head) "cache.k"
    "cache.k_scales" [c.numSlots, c.hkv, c.d] [c.numSlots, c.hkv]

def readVF32 : Except KvError F32 := do
  checkSlot c.numSlots slot
  let off ← c.vOffset slot head dim
  readNumber c.dtype c.vF16 c.vI8 c.vE4m3 c.vScales off (c.scaleOffset slot head) "cache.v"
    "cache.v_scales" [c.numSlots, c.hkv, c.dv] [c.numSlots, c.hkv]

end PagedCache

def LatentCache.readLatentF32 (c : LatentCache) (slot dim : ℕ) : Except KvError F32 := do
  checkSlot c.numSlots slot
  let off ← checkedAddr slot c.latent dim "latent slot/dim"
  readNumber c.dtype c.latentF16 c.latentI8 c.latentE4m3 c.latentScales off
    (.ok slot) "cache.latent"
    "cache.latent_scales" [c.numSlots, c.latent] [c.numSlots]

/-! ### What is read of a row -/

section Number

variable {off so p i dim : ℕ} {f16 : List UInt16} {i8 : List Int8} {e4m3 : List UInt8}
  {scales : List UInt16} {tensor scaleTensor : String} {shape scaleShape : List ℕ}

theorem readAt_block {α : Type} {region : List α} {l : List α} (hl : block p region i = l)
    (hdim : dim < l.length) (hlen : l.length ≤ p) (a : α) :
    readAt region (i * p + dim) tensor shape = .ok (l.getD dim a) := by
  rw [readAt, ← getElem?_block (hdim.trans_le hlen), hl, getD_eq_getElem?_getD,
    getElem?_eq_getElem hdim]
  rfl

theorem readAt_one {α : Type} {region : List α} {a : α} (hl : block 1 region i = [a]) :
    readAt region i tensor shape = .ok a := by
  have h := @readAt_block 1 i 0 tensor shape α region [a] hl Nat.zero_lt_one le_rfl a
  rwa [Nat.mul_one, Nat.add_zero] at h

theorem readNumber_i8 {row : List F32} (hcodes : block p i8 i = (quantRowI8 row).1)
    (hlen : row.length = p) (hdim : dim < row.length)
    (hscale : block 1 scales so = [f32ToF16Bits (quantRowI8 row).2]) :
    readNumber .i8 f16 i8 e4m3 scales (i * p + dim) (.ok so) tensor scaleTensor shape scaleShape =
      .ok ((Format.f16ToF32 (f32ToF16Bits (quantRowI8 row).2)).mul
        (F32.ofInt ((quantRowI8 row).1.getD dim 0).toInt)) := by
  rw [readNumber,
    readAt_block hcodes (by rwa [length_quantRowI8]) (by rw [length_quantRowI8, hlen]) 0,
    ok_bind, ok_bind, readAt_one hscale, ok_bind]
  rfl

theorem readNumber_e4m3 {row : List F32} (hcodes : block p e4m3 i = (rowE4m3 row).1)
    (hlen : row.length = p) (hdim : dim < row.length)
    (hscale : block 1 scales so = [f32ToF16Bits (rowE4m3 row).2]) :
    readNumber .e4m3 f16 i8 e4m3 scales (i * p + dim) (.ok so) tensor scaleTensor shape scaleShape =
      .ok ((Format.f16ToF32 (f32ToF16Bits (rowE4m3 row).2)).mul
        (E4m3.mk ((rowE4m3 row).1.getD dim 0)).toF32) := by
  rw [readNumber, readAt_block hcodes (by rwa [length_rowE4m3]) (by rw [length_rowE4m3, hlen]) 0,
    ok_bind, ok_bind, readAt_one hscale, ok_bind]
  rfl

/-- The divisor of a quantized type. -/
def levels : DType → ℚ
  | .i8 => 127
  | _ => 448

theorem getD_block_one {α : Type} {region : List α} {a b : α} (hl : block 1 region i = [a]) :
    region.getD i b = a := by
  have hget := @getElem?_block α 1 region i 0 Nat.zero_lt_one
  rw [hl, Nat.mul_one, Nat.add_zero] at hget
  rw [getD_eq_getElem?_getD, ← hget]
  rfl

/-- **A row in the regions of a cache** is read back, if its scale is a half. -/
theorem readsBack_number {dtype : DType} (hq : IsQuantized dtype) {row : List F32}
    (h : ∀ v ∈ row, v.isFinite = true) (hne : row ≠ []) (hlen : row.length = p)
    (hi8 : dtype = .i8 → block p i8 i = (quantRowI8 row).1 ∧
      block 1 scales so = [f32ToF16Bits (quantRowI8 row).2])
    (he4m3 : dtype = .e4m3 → block p e4m3 i = (rowE4m3 row).1 ∧
      block 1 scales so = [f32ToF16Bits (rowE4m3 row).2])
    {read : ℕ → Except KvError F32}
      (hread : ∀ dim < p, read dim = readNumber dtype f16 i8 e4m3 scales
      (i * p + dim) (.ok so) tensor scaleTensor shape scaleShape) :
    ReadsBack row (scales.getD so 0) read ↔ Kept (levels dtype) row := by
  simp only [IsQuantized, mem_cons, not_mem_nil, or_false] at hq
  rcases hq with rfl | rfl
  · obtain ⟨hcodes, hscale⟩ := hi8 rfl
    rw [getD_block_one hscale]
    refine readsBack_i8 h hne fun dim hdim => ?_
    rw [hread dim (hlen ▸ hdim), readNumber_i8 hcodes hlen hdim hscale]
  · obtain ⟨hcodes, hscale⟩ := he4m3 rfl
    rw [getD_block_one hscale]
    refine readsBack_e4m3 h hne fun dim hdim => ?_
    rw [hread dim (hlen ▸ hdim), readNumber_e4m3 hcodes hlen hdim hscale]

end Number

/-! ### Quantized rows -/

/-- The rows that a cache holds of a token after a write are read back, just if their scales are
halves. -/
def RowsReadBack (op : StateWriteKvOp) (k v : View) (tok slot : ℕ) : KvCache → KvCache → Prop
  | .paged c, .paged c' => ∃ kFlat vFlat, PagedRows op k v c tok kFlat vFlat ∧ ∀ head < c.hkv,
      (ReadsBack (block c.d kFlat head) (c'.kScales.getD (slot * c.hkv + head) 0)
        (c'.readKF32 slot head) ↔ Kept (levels c.dtype) (block c.d kFlat head)) ∧
      (ReadsBack (block c.dv vFlat head) (c'.vScales.getD (slot * c.hkv + head) 0)
        (c'.readVF32 slot head) ↔ Kept (levels c.dtype) (block c.dv vFlat head))
  | .latent c, .latent c' => ∃ row ropeRow, LatentRows op k v c tok row ropeRow ∧
      (ReadsBack row (c'.latentScales.getD slot 0) (c'.readLatentF32 slot) ↔
        Kept (levels c.dtype) row)
  | _, _ => False

section Rows

variable {slot head : ℕ}

theorem checkSlot_ok {numSlots : ℕ} (h : slot < numSlots) : checkSlot numSlots slot = .ok () :=
  ensure_of h

theorem readsBack_head {c : PagedCache} (h : c.Wf) (hq : IsQuantized c.dtype)
    (hslot : slot < c.numSlots)
    (hhead : head < c.hkv) {kRow vRow : List F32} (hklen : kRow.length = c.d)
    (hvlen : vRow.length = c.dv) (hkfin : ∀ x ∈ kRow, x.isFinite = true)
    (hvfin : ∀ x ∈ vRow, x.isFinite = true)
    (hrow : c.headRow (slot * c.hkv + head) = encodeHead c.dtype kRow vRow) :
    (ReadsBack kRow (c.kScales.getD (slot * c.hkv + head) 0) (c.readKF32 slot head) ↔
      Kept (levels c.dtype) kRow) ∧
    (ReadsBack vRow (c.vScales.getD (slot * c.hkv + head) 0) (c.readVF32 slot head) ↔
      Kept (levels c.dtype) vRow) := by
  have hkne : kRow ≠ [] := ne_nil_of_length_pos (hklen ▸ h.d_pos)
  have hvne : vRow ≠ [] := ne_nil_of_length_pos (hvlen ▸ h.dv_pos)
  constructor
  · refine readsBack_number hq hkfin hkne hklen (fun hdt => ?_) (fun hdt => ?_) fun dim hdim => by
      rw [PagedCache.readKF32, checkSlot_ok hslot, ok_bind,
        PagedCache.kOffset_ok h hslot hhead hdim, ok_bind, PagedCache.scaleOffset_ok h hslot hhead]
    · rw [hdt] at hrow
      exact ⟨congrArg HeadRow.kI8 hrow, congrArg HeadRow.kScale hrow⟩
    · rw [hdt] at hrow
      exact ⟨congrArg HeadRow.kE4m3 hrow, congrArg HeadRow.kScale hrow⟩
  · refine readsBack_number hq hvfin hvne hvlen (fun hdt => ?_) (fun hdt => ?_) fun dim hdim => by
      rw [PagedCache.readVF32, checkSlot_ok hslot, ok_bind,
        PagedCache.vOffset_ok h hslot hhead hdim, ok_bind, PagedCache.scaleOffset_ok h hslot hhead]
    · rw [hdt] at hrow
      exact ⟨congrArg HeadRow.vI8 hrow, congrArg HeadRow.vScale hrow⟩
    · rw [hdt] at hrow
      exact ⟨congrArg HeadRow.vE4m3 hrow, congrArg HeadRow.vScale hrow⟩

theorem readsBack_latent {c : LatentCache} (h : c.Wf) (hq : IsQuantized c.dtype)
    (hslot : slot < c.numSlots) {row ropeRow : List F32} (hlen : row.length = c.latent)
    (hfin : ∀ x ∈ row, x.isFinite = true)
    (hrow : c.latentRow slot = encodeLatent c.dtype row ropeRow) :
    ReadsBack row (c.latentScales.getD slot 0) (c.readLatentF32 slot) ↔
      Kept (levels c.dtype) row := by
  have hne : row ≠ [] := ne_nil_of_length_pos (hlen ▸ h.latent_pos)
  refine readsBack_number hq hfin hne hlen (fun hdt => ?_) (fun hdt => ?_) fun dim hdim => by
    rw [LatentCache.readLatentF32, checkSlot_ok hslot, ok_bind, PagedCache.checkedAddr_ok
      ((PagedCache.index_lt hslot hdim).trans h.latent_lt), ok_bind]
  · rw [hdt] at hrow
    exact ⟨congrArg LatentRow.i8 hrow, congrArg LatentRow.scale hrow⟩
  · rw [hdt] at hrow
    exact ⟨congrArg LatentRow.e4m3 hrow, congrArg LatentRow.scale hrow⟩

/-- **The rows of a quantized cache** after a write are read back with finite numbers, and the
greatest one not as zero, just if their scales are neither infinite nor zero as halves. -/
theorem quantized_rows {cache cache' : KvCache} (h : Reachable cache) {op : StateWriteKvOp}
    {k v : View} {b : BatchMeta} {group : ℕ}
    (hrun : stateWriteKv op k v b group cache = .ok () cache') (hq : IsQuantized cache.dtype)
    {tok : ℕ} (hlast : IsLast b group tok slot) : RowsReadBack op k v tok slot cache cache' := by
  rcases stateWriteKv_cases op k v b group h.wf with ⟨e, he⟩ | ⟨next, hnext, hwf, hwritten⟩
  · rw [hrun] at he
    cases he
  rw [hrun] at hnext
  obtain rfl : cache' = next := by
    cases hnext
    rfl
  obtain ⟨hslot, hdt, hholds⟩ := hwritten.last tok slot hlast
  cases cache with
  | paged c =>
    obtain ⟨kFlat, vFlat, hrows, hstate⟩ := hholds
    cases cache' with
    | latent c' => cases hstate
    | paged c' =>
      obtain ⟨hheads, -⟩ := SlotState.paged.inj hstate
      have hsizes := hwritten.sizes
      simp only [KvCache.sizes, List.cons.injEq] at hsizes
      obtain ⟨-, hhkv, hd, hdv, -, -, -, -, -, -, -, -, hnum, -⟩ := hsizes
      have hdtype : c'.dtype = c.dtype := hwritten.dtype
      have hnum : c'.numSlots = c.numSlots := hnum
      refine ⟨kFlat, vFlat, hrows, fun head hhead => ?_⟩
      obtain ⟨-, -, -, -, hklen, hvlen⟩ := flat_ok (h.wf : c.Wf) hhead hrows.planned
      obtain ⟨hkfin, hvfin⟩ := hrows.finite (hdt.symm ▸ hq) head hhead
      have hrow : c'.headRow (slot * c'.hkv + head) =
          encodeHead c'.dtype (block c.d kFlat head) (block c.dv vFlat head) := by
        rw [PagedCache.slotRows, hhkv] at hheads
        have := map_inj_left.mp hheads head (mem_range.mpr hhead)
        rw [hhkv, this, encodedRows, hdtype]
      have hread := readsBack_head hwf (hdtype.symm ▸ hq) (hnum.symm ▸ hslot) (hhkv.symm ▸ hhead)
        (hklen.trans hd.symm) (hvlen.trans hdv.symm) hkfin hvfin hrow
      rwa [hhkv, hdtype] at hread
  | latent c =>
    obtain ⟨row, ropeRow, hrows, hstate⟩ := hholds
    cases cache' with
    | paged c' => cases hstate
    | latent c' =>
      obtain ⟨hrow, -⟩ := SlotState.latent.inj hstate
      have hsizes := hwritten.sizes
      simp only [KvCache.sizes, List.cons.injEq] at hsizes
      obtain ⟨-, hlatent, -, -, -, -, -, -, hnum, -⟩ := hsizes
      have hdtype : c'.dtype = c.dtype := hwritten.dtype
      have hnum : c'.numSlots = c.numSlots := hnum
      refine ⟨row, ropeRow, hrows, ?_⟩
      rw [← hdtype] at hrow ⊢
      exact readsBack_latent hwf (hdtype.symm ▸ hq) (hnum.symm ▸ hslot)
        (hrows.planned.row.trans hlatent.symm) (hrows.finite (hdt.symm ▸ hq)) hrow

end Rows

/-! ### Rows that are lost -/

section Small

/-- A quantized cache of one block for one head. -/
def smallI8Cache : PagedCache :=
  ⟨1, 1, 1, 1, .i8, [], [], List.replicate 32 0, List.replicate 32 0, [], [], List.replicate 32 0,
    List.replicate 32 0, List.replicate 32 false⟩

def smallI8Op : StateWriteKvOp := ⟨.i8, .perTokenHead, none, ⟨0, .kvPaged⟩⟩

theorem smallI8Cache_reachable : Reachable (.paged smallI8Cache) :=
  @Reachable.paged 1 1 1 1 .i8 smallI8Cache rfl

theorem smallBatch_isLast : IsLast smallBatch 0 0 0 := by
  refine ⟨by decide, by decide, fun tok htok hlt => ?_⟩
  rw [show smallBatch.t = 1 from rfl] at htok
  omega

/-- **The number one** is read back. -/
theorem one_reads_back : ∃ cache', stateWriteKv smallI8Op smallView smallView smallBatch 0
      (.paged smallI8Cache) = .ok () cache' ∧
    RowsReadBack smallI8Op smallView smallView 0 0 (.paged smallI8Cache) cache' := by
  have hrun := @eq_ok_of_succeeded _ _ (stateWriteKv smallI8Op smallView smallView smallBatch 0
    (.paged smallI8Cache)) (by decide +kernel)
  exact ⟨_, hrun, quantized_rows smallI8Cache_reachable hrun (mem_cons_self) smallBatch_isLast⟩

/-- A tensor of one number. -/
def oneNumber (x : F32) : View := ⟨[1, 1, 1], .f32 [x], .contiguous⟩

/-- **The scale of ten millions** is infinite, and that of a millionth is zero. -/
theorem rows_lost : ∃ c' : PagedCache, stateWriteKv smallI8Op (oneNumber ⟨0x4B189680⟩)
      (oneNumber ⟨0x358637BD⟩) smallBatch 0 (.paged smallI8Cache) = .ok () (.paged c') ∧
    ¬ReadsBack [⟨0x4B189680⟩] (c'.kScales.getD 0 0) (c'.readKF32 0 0) ∧
    ¬ReadsBack [⟨0x358637BD⟩] (c'.vScales.getD 0 0) (c'.readVF32 0 0) := by
  have hrun := @eq_ok_of_succeeded _ _ (stateWriteKvPaged smallI8Op (oneNumber ⟨0x4B189680⟩)
    (oneNumber ⟨0x358637BD⟩) smallBatch 0 smallI8Cache) (by decide +kernel)
  refine ⟨_, congrArg (onPart KvCache.paged) hrun, fun hk => ?_, fun hv => ?_⟩
  · exact absurd hk.scale_finite (by decide +kernel)
  · exact hv.scale_ne_zero ⟨_, mem_cons_self, by decide +kernel⟩ (by decide +kernel)

end Small

end R9v.Kv

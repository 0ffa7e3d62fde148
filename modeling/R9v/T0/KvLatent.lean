import R9v.T0.KvWrite

/-!
# The writes of a latent cache

What a write of the rows of a step does to a cache of latent rows, which has one row for each slot
and no heads. The rotary part of a row is stored as it is, also in a quantized cache.
-/

namespace R9v.Kv

open Blocks Checked FloatFormat Format Storing List

/-! ### The rows of a latent cache -/

/-- What a latent cache stores for a slot. -/
structure LatentRow where
  f16 : List UInt16
  i8 : List Int8
  e4m3 : List UInt8
  scale : List UInt16
  rope : List UInt16

/-- The rows of a token as they are stored. -/
def encodeLatent (dtype : DType) (row ropeRow : List F32) : LatentRow :=
  match dtype with
  | .f16 => ⟨row.map f32ToF16Bits, [], [], [], ropeRow.map f32ToF16Bits⟩
  | .i8 => ⟨[], (quantRowI8 row).1, [], [f32ToF16Bits (quantRowI8 row).2],
      ropeRow.map f32ToF16Bits⟩
  | .e4m3 => ⟨[], [], (rowE4m3 row).1, [f32ToF16Bits (rowE4m3 row).2], ropeRow.map f32ToF16Bits⟩
  | _ => ⟨[], [], [], [], ropeRow.map f32ToF16Bits⟩

theorem encodeLatent_rope (dtype : DType) (row ropeRow : List F32) :
    (encodeLatent dtype row ropeRow).rope = ropeRow.map f32ToF16Bits := by
  cases dtype <;> rfl

/-- Rows of a type. -/
structure LatentRow.Fits (dtype : DType) (latent rope : ℕ) (r : LatentRow) : Prop where
  f16 : r.f16.length = sizeIf (dtype = .f16) latent
  i8 : r.i8.length = sizeIf (dtype = .i8) latent
  e4m3 : r.e4m3.length = sizeIf (dtype = .e4m3) latent
  scale : r.scale.length = sizeIf (hasScales dtype) 1
  rope : r.rope.length = sizeIf true rope

theorem encodeLatent_fits {dtype : DType} (hdt : dtype ∈ cacheDtypes) (row ropeRow : List F32) :
    (encodeLatent dtype row ropeRow).Fits dtype row.length ropeRow.length := by
  simp only [cacheDtypes, mem_cons, not_mem_nil, or_false] at hdt
  rcases hdt with rfl | rfl | rfl <;> constructor <;> simp [encodeLatent, sizeIf, hasScales]

namespace LatentCache

variable (c : LatentCache)

def isWritten (slot : ℕ) : Bool := c.written.getD slot false

def latentRow (slot : ℕ) : LatentRow :=
  ⟨block c.latent c.latentF16 slot, block c.latent c.latentI8 slot,
    block c.latent c.latentE4m3 slot,
    block 1 c.latentScales slot, block c.rope c.ropeF16 slot⟩

def setSlot (slot : ℕ) (r : LatentRow) : LatentCache :=
  { c with
    latentF16 := setBlock c.latent c.latentF16 slot r.f16,
    latentI8 := setBlock c.latent c.latentI8 slot r.i8,
    latentE4m3 := setBlock c.latent c.latentE4m3 slot r.e4m3,
    latentScales := setBlock 1 c.latentScales slot r.scale,
    ropeF16 := setBlock c.rope c.ropeF16 slot r.rope,
    written := c.written.set slot true }

/-- A cache has a place for each row of its own type, and for no other one. -/
structure Wf : Prop where
  dtype_mem : c.dtype ∈ cacheDtypes
  latent_pos : 0 < c.latent
  latent_lt : c.numSlots * c.latent < 2 ^ 64
  rope_lt : c.numSlots * c.rope < 2 ^ 64
  latentF16 : c.latentF16.length = sizeIf (c.dtype = .f16) (c.numSlots * c.latent)
  latentI8 : c.latentI8.length = sizeIf (c.dtype = .i8) (c.numSlots * c.latent)
  latentE4m3 : c.latentE4m3.length = sizeIf (c.dtype = .e4m3) (c.numSlots * c.latent)
  latentScales : c.latentScales.length = sizeIf (hasScales c.dtype) (c.numSlots * 1)
  ropeF16 : c.ropeF16.length = sizeIf true (c.numSlots * c.rope)

/-- Two caches of one geometry and type. -/
structure SameDims (c c' : LatentCache) : Prop where
  numBlocks : c'.numBlocks = c.numBlocks
  latent : c'.latent = c.latent
  rope : c'.rope = c.rope
  dtype : c'.dtype = c.dtype
  numSlots : c'.numSlots = c.numSlots

variable {c} {slot : ℕ} {r : LatentRow}

theorem SameDims.refl (c : LatentCache) : SameDims c c := ⟨rfl, rfl, rfl, rfl, rfl⟩

theorem SameDims.trans {c c' c'' : LatentCache} (h : SameDims c c') (h' : SameDims c' c'') :
    SameDims c c'' :=
  ⟨h'.numBlocks.trans h.numBlocks, h'.latent.trans h.latent, h'.rope.trans h.rope,
    h'.dtype.trans h.dtype, h'.numSlots.trans h.numSlots⟩

/-- **A slot is set**, and the others are as before. -/
theorem setSlot_spec (h : c.Wf) (hr : r.Fits c.dtype c.latent c.rope) (hslot : slot < c.numSlots) :
    (c.setSlot slot r).Wf ∧ SameDims c (c.setSlot slot r) ∧
      (∀ j, (c.setSlot slot r).latentRow j = if j = slot then r else c.latentRow j) ∧
      ∀ j, (c.setSlot slot r).isWritten j = if j = slot then true else c.isWritten j := by
  have hnum : (c.setSlot slot r).numSlots = c.numSlots := length_set
  have hf16 := setBlock_spec h.latentF16 hr.f16 hslot
  have hi8 := setBlock_spec h.latentI8 hr.i8 hslot
  have he4m3 := setBlock_spec h.latentE4m3 hr.e4m3 hslot
  have hscale := setBlock_spec h.latentScales hr.scale hslot
  have hrope := setBlock_spec h.ropeF16 hr.rope hslot
  refine ⟨?_, ⟨rfl, rfl, rfl, rfl, hnum⟩, fun j => ?_, fun j => ?_⟩
  · constructor
    case dtype_mem => exact h.dtype_mem
    case latent_pos => exact h.latent_pos
    all_goals rw [hnum]
    case latent_lt => exact h.latent_lt
    case rope_lt => exact h.rope_lt
    case latentF16 => exact hf16.1.trans h.latentF16
    case latentI8 => exact hi8.1.trans h.latentI8
    case latentE4m3 => exact he4m3.1.trans h.latentE4m3
    case latentScales => exact hscale.1.trans h.latentScales
    case ropeF16 => exact hrope.1.trans h.ropeF16
  · by_cases hj : j = slot
    · rw [if_pos hj, hj]
      simp only [latentRow, setSlot, hf16.2, hi8.2, he4m3.2, hscale.2, hrope.2, if_true]
    · simp only [latentRow, setSlot, hf16.2, hi8.2, he4m3.2, hscale.2, hrope.2, if_neg hj]
  · rw [isWritten, isWritten, getD_eq_getElem?_getD, getD_eq_getElem?_getD]
    change ((c.written.set slot true)[j]?).getD false = _
    by_cases hj : j = slot
    · rw [if_pos hj, hj, getElem?_set_self hslot]
      rfl
    · rw [if_neg hj, getElem?_set_ne (Ne.symm hj)]

theorem eq_nil_of_dtype {α : Type} {l : List α} {n : ℕ} {dt : DType} (hdt : c.dtype ≠ dt)
    (hlen : l.length = sizeIf (c.dtype = dt) n) : l = [] := by
  rw [decide_eq_false hdt] at hlen
  exact eq_nil_of_length_eq_zero hlen

end LatentCache

/-! ### The stores of a token -/

section Stores

open LatentCache

variable {op : StateWriteKvOp} {c : LatentCache} {tok slot : ℕ} {row ropeRow : List F32}

/-- The rows of a token that was planned for a cache. -/
structure PlannedLatent (c : LatentCache) (row ropeRow : List F32) : Prop where
  row : row.length = c.latent
  rope : ropeRow.length = c.rope

/-- Sets the latent part of a slot. -/
def setLatent (c : LatentCache) (slot : ℕ) (r : LatentRow) : LatentCache :=
  { c with
    latentF16 := setBlock c.latent c.latentF16 slot r.f16,
    latentI8 := setBlock c.latent c.latentI8 slot r.i8,
    latentE4m3 := setBlock c.latent c.latentE4m3 slot r.e4m3,
    latentScales := setBlock 1 c.latentScales slot r.scale }

theorem setSlot_eq (r : LatentRow) : c.setSlot slot r =
    { setLatent c slot r with
      ropeF16 := setBlock c.rope c.ropeF16 slot r.rope, written := c.written.set slot true } :=
  rfl

theorem setLatent_f16 (h : c.Wf) (hdt : c.dtype = .f16) :
    setLatent c slot (encodeLatent .f16 row ropeRow) =
      { c with latentF16 := setBlock c.latent c.latentF16 slot (row.map f32ToF16Bits) } := by
  have hscales := h.latentScales
  rw [show hasScales c.dtype = false by rw [hdt]; rfl] at hscales
  simp only [setLatent, encodeLatent, eq_nil_of_dtype (by rw [hdt]; decide) h.latentI8,
    eq_nil_of_dtype (by rw [hdt]; decide) h.latentE4m3, eq_nil_of_length_eq_zero hscales,
    setBlock_nil]

theorem setLatent_i8 (h : c.Wf) (hdt : c.dtype = .i8) :
    setLatent c slot (encodeLatent .i8 row ropeRow) =
      { c with
        latentI8 := setBlock c.latent c.latentI8 slot (quantRowI8 row).1,
        latentScales := setBlock 1 c.latentScales slot [f32ToF16Bits (quantRowI8 row).2] } := by
  simp only [setLatent, encodeLatent, eq_nil_of_dtype (by rw [hdt]; decide) h.latentF16,
    eq_nil_of_dtype (by rw [hdt]; decide) h.latentE4m3, setBlock_nil]

theorem setLatent_e4m3 (h : c.Wf) (hdt : c.dtype = .e4m3) :
    setLatent c slot (encodeLatent .e4m3 row ropeRow) =
      { c with
        latentE4m3 := setBlock c.latent c.latentE4m3 slot (rowE4m3 row).1,
        latentScales := setBlock 1 c.latentScales slot [f32ToF16Bits (rowE4m3 row).2] } := by
  simp only [setLatent, encodeLatent, eq_nil_of_dtype (by rw [hdt]; decide) h.latentF16,
    eq_nil_of_dtype (by rw [hdt]; decide) h.latentI8, setBlock_nil]

variable (h : c.Wf) (hslot : slot < c.numSlots)
include h hslot

section Places

variable {α : Type} {r : Storing.Region LatentCache α} {s : LatentCache} {err : ℕ → ℕ → Fault KvError}

theorem latentOffset_set (hoff : ∀ l, (r.set s l).latent = c.latent) :
    ∀ j < c.latent, ∀ l, reading (fun c : LatentCache => checkedAddr slot c.latent j "latent write")
      (r.set s l) = .ok (slot * c.latent + j) (r.set s l) := by
  refine fun j hj l => reading_ok ?_
  rw [hoff]
  exact PagedCache.checkedAddr_ok ((PagedCache.index_lt hslot hj).trans h.latent_lt)

theorem storeLatentRow_ok {β : Type} {l : List β} {g : β → α} (hlen : l.length = c.latent)
    (hoff : ∀ l, (r.set s l).latent = c.latent) (hsize : (r.get s).length = c.numSlots * c.latent)
    (a : β) : r.storeRow err l.length
      (fun d => reading fun c : LatentCache => checkedAddr slot c.latent d "latent write")
      (fun d => pure (g (l.getD d a))) s =
        .ok () (r.set s (setBlock c.latent (r.get s) slot (l.map g))) := by
  refine Storing.Region.storeList_ok hlen (latentOffset_set h hslot hoff) ?_
  rw [hsize]
  exact Nat.mul_le_mul_right _ hslot

theorem storeLatentCodes_ok {q : List α} (hlen : q.length = c.latent)
    (hoff : ∀ l, (r.set s l).latent = c.latent) (hsize : (r.get s).length = c.numSlots * c.latent)
    (a : α) : r.storeRow err q.length
      (fun d => reading fun c : LatentCache => checkedAddr slot c.latent d "latent write")
      (fun d => pure (q.getD d a)) s = .ok () (r.set s (setBlock c.latent (r.get s) slot q)) := by
  conv_rhs => rw [← map_id q]
  exact storeLatentRow_ok h hslot (g := id) hlen hoff hsize a

theorem storeRopeRow_ok {β : Type} {l : List β} {g : β → α} (hlen : l.length = c.rope)
    (hoff : ∀ l, (r.set s l).rope = c.rope) (hsize : (r.get s).length = c.numSlots * c.rope)
      (a : β) :
    r.storeRow err l.length
      (fun d => reading fun c : LatentCache => checkedAddr slot c.rope d "rope write")
      (fun d => pure (g (l.getD d a))) s =
        .ok () (r.set s (setBlock c.rope (r.get s) slot (l.map g))) := by
  refine Storing.Region.storeList_ok hlen (fun j hj l => reading_ok ?_) ?_
  · rw [hoff]
    exact PagedCache.checkedAddr_ok ((PagedCache.index_lt hslot hj).trans h.rope_lt)
  · rw [hsize]
    exact Nat.mul_le_mul_right _ hslot

end Places

variable (hplan : PlannedLatent c row ropeRow)
include hplan

/-- **The stores of the latent part** of a token, where the cache is of the type. -/
theorem storeLatent_ok (hdt : op.cacheDtype = c.dtype)
    (hfinite : IsQuantized c.dtype → ∀ x ∈ row, x.isFinite = true) :
    storeLatent op tok slot row c =
      .ok () (setLatent c slot (encodeLatent c.dtype row ropeRow)) := by
  have hdtype := h.dtype_mem
  have hscales := h.latentScales
  simp only [cacheDtypes, mem_cons, not_mem_nil, or_false] at hdtype
  rcases hdtype with hc | hc | hc
  · have hsize := h.latentF16
    rw [sizeIf_of (decide_eq_true hc)] at hsize
    rw [hc, setLatent_f16 h hc]
    conv_lhs => simp only [storeLatent, hdt, hc]
    exact storeLatentRow_ok h hslot (r := latentF16Region) (g := f32ToF16Bits) hplan.row
      (fun _ => rfl) hsize ⟨0⟩
  · have hsize := h.latentI8
    rw [sizeIf_of (decide_eq_true hc)] at hsize
    rw [sizeIf_of (show hasScales c.dtype = true by rw [hc]; rfl), Nat.mul_one] at hscales
    rw [hc, setLatent_i8 h hc]
    conv_lhs => simp only [storeLatent, hdt, hc]
    rw [bind_ok (storeLatentCodes_ok h hslot (r := latentI8Region)
      (length_quantRowI8.trans hplan.row) (fun _ => rfl) hsize 0)]
    exact Storing.Region.store_ok (r := latentScalesRegion) (hslot.trans_eq hscales.symm)
  · have hsize := h.latentE4m3
    rw [sizeIf_of (decide_eq_true hc)] at hsize
    rw [sizeIf_of (show hasScales c.dtype = true by rw [hc]; rfl), Nat.mul_one] at hscales
    have hquant := quantRowE4m3_ok (hfinite (by rw [hc, IsQuantized]; decide)) "c_kv" tok 0
    rw [hc, setLatent_e4m3 h hc]
    conv_lhs => simp only [storeLatent, hdt, hc]
    rw [bind_ok (reading_const hquant), bind_ok (storeLatentCodes_ok h hslot (r := latentE4m3Region)
      (length_rowE4m3.trans hplan.row) (fun _ => rfl) hsize 0)]
    exact Storing.Region.store_ok (r := latentScalesRegion) (hslot.trans_eq hscales.symm)

variable (tok) in
/-- **The first store fails** where the cache is of another type. -/
theorem storeLatent_error (hmem : op.cacheDtype ∈ cacheDtypes) (hdt : op.cacheDtype ≠ c.dtype)
    (hfinite : IsQuantized op.cacheDtype → ∀ x ∈ row, x.isFinite = true) :
    ∃ e, storeLatent op tok slot row c = .error e c := by
  have hoff : reading (fun c : LatentCache => checkedAddr slot c.latent 0 "latent write") c =
      .ok _ c :=
    reading_ok (PagedCache.checkedAddr_ok
      ((PagedCache.index_lt hslot h.latent_pos).trans h.latent_lt))
  have hpos : 0 < row.length := hplan.row ▸ h.latent_pos
  simp only [cacheDtypes, mem_cons, not_mem_nil, or_false] at hmem
  rcases hmem with hop | hop | hop
  · rw [hop] at hdt
    simp only [storeLatent, hop]
    exact ⟨_, Storing.Region.storeRow_error (r := latentF16Region) hpos hoff rfl
      (eq_nil_of_dtype (Ne.symm hdt) h.latentF16)⟩
  · rw [hop] at hdt
    simp only [storeLatent, hop]
    exact ⟨_, bind_error (Storing.Region.storeRow_error (r := latentI8Region)
      (length_quantRowI8.symm ▸ hpos) hoff rfl (eq_nil_of_dtype (Ne.symm hdt) h.latentI8))⟩
  · have hquant := quantRowE4m3_ok (hfinite (by rw [hop, IsQuantized]; decide)) "c_kv" tok 0
    rw [hop] at hdt
    simp only [storeLatent, hop]
    rw [bind_ok (reading_const hquant)]
    exact ⟨_, bind_error (Storing.Region.storeRow_error (r := latentE4m3Region)
      (length_rowE4m3.symm ▸ hpos) hoff rfl (eq_nil_of_dtype (Ne.symm hdt) h.latentE4m3))⟩

/-- **The commit of a token** sets its slot, where the cache is of the type. -/
theorem commitLatent_ok (hdt : op.cacheDtype = c.dtype)
    (hfinite : IsQuantized c.dtype → ∀ x ∈ row, x.isFinite = true) :
    commitLatent op tok slot row ropeRow c =
      .ok () (c.setSlot slot (encodeLatent c.dtype row ropeRow)) := by
  have hsize := h.ropeF16
  rw [commitLatent, bind_ok (storeLatent_ok h hslot hplan hdt hfinite),
    bind_ok (storeRopeRow_ok h hslot (r := ropeF16Region) (g := f32ToF16Bits)
      (s := setLatent c slot (encodeLatent c.dtype row ropeRow)) hplan.rope (fun _ => rfl) hsize
        ⟨0⟩),
    setSlot_eq, encodeLatent_rope]
  exact if_pos hslot

variable (tok) in
/-- **The commit of a token fails** at its first store, where the cache is of another type. -/
theorem commitLatent_error (hmem : op.cacheDtype ∈ cacheDtypes) (hdt : op.cacheDtype ≠ c.dtype)
    (hfinite : IsQuantized op.cacheDtype → ∀ x ∈ row, x.isFinite = true) :
    ∃ e, commitLatent op tok slot row ropeRow c = .error e c := by
  obtain ⟨e, he⟩ := storeLatent_error tok h hslot hplan hmem hdt hfinite
  exact ⟨e, bind_error he⟩

end Stores

/-! ### The plan of a latent cache -/

section LatentPlan

variable {op : StateWriteKvOp} {k v : View} {b : BatchMeta} {group : ℕ} {c : LatentCache}

/-- The rows of a token, as they are read: the rotary part is in the second operand, or it follows
the latent part in the first one. -/
structure LatentRows (op : StateWriteKvOp) (k v : View) (c : LatentCache) (tok : ℕ)
    (latentRow ropeRow : List F32) : Prop where
  planned : PlannedLatent c latentRow ropeRow
  row : IsRow k (tok * k.dim 2) latentRow
  rope : (k.dim 2 = c.latent ∧ v.dim 2 = c.rope ∧ IsRow v (tok * c.rope) ropeRow) ∨
    k.dim 2 = c.latent + c.rope ∧ IsRow k (tok * k.dim 2 + c.latent) ropeRow
  finite : IsQuantized op.cacheDtype → ∀ x : F32, x ∈ latentRow → x.isFinite = true

theorem isCombined_iff {l : MlaLatent} (hk : k.rank = 3) (hv : v.rank = 3) :
    isCombined k v l = true ↔ some (k.dim 2) = add 64 l.kvLoraRank l.ropeDim := by
  simp [isCombined, hk, hv]

theorem isSplit_iff {l : MlaLatent} (hk : k.rank = 3) (hv : v.rank = 3) :
    isSplit k v l = true ↔ k.dim 2 = l.kvLoraRank ∧ v.dim 2 = l.ropeDim := by
  simp [isSplit, hk, hv]

theorem planLatentToken_ok {l : MlaLatent} (hk : k.rank = 3) (hv : v.rank = 3) {tok : ℕ}
    {rows : List F32 × List F32} (h : planLatentToken k v l tok = .ok rows) :
    rows.1.length = l.kvLoraRank ∧ rows.2.length = l.ropeDim ∧ IsRow k (tok * k.dim 2) rows.1 ∧
      ((k.dim 2 = l.kvLoraRank ∧ v.dim 2 = l.ropeDim ∧ IsRow v (tok * l.ropeDim) rows.2) ∨
        k.dim 2 = l.kvLoraRank + l.ropeDim ∧ IsRow k (tok * k.dim 2 + l.kvLoraRank) rows.2) := by
  simp only [planLatentToken, bind_eq_ok, lift_eq_ok, okOr_eq_ok, mul_eq_some, pure_eq_ok] at h
  obtain ⟨base, ⟨-, rfl⟩, row, hrow, rope, hrope, rfl⟩ := h
  by_cases hsplit : isSplit k v l = true
  · rw [planLatentRow, hsplit, Bool.true_or, if_pos rfl] at hrow
    rw [planRopeRow, if_pos hsplit] at hrope
    obtain ⟨ropeBase, hbase, hrope⟩ := bind_eq_ok.mp hrope
    obtain ⟨-, rfl⟩ := mul_eq_some.mp (okOr_eq_ok.mp (lift_eq_ok.mp hbase))
    obtain ⟨hlen, hread⟩ := readRow_ok hrow
    obtain ⟨hropeLen, hropeRead⟩ := readRow_ok hrope
    obtain ⟨hdim, hropeDim⟩ := (isSplit_iff hk hv).mp hsplit
    rw [hropeDim] at hropeRead
    exact ⟨hlen, hropeLen, hread, .inl ⟨hdim, hropeDim, hropeRead⟩⟩
  · by_cases hcombined : isCombined k v l = true
    · rw [planLatentRow, hcombined, Bool.or_true, if_pos rfl] at hrow
      rw [planRopeRow, if_neg hsplit, if_pos hcombined] at hrope
      obtain ⟨ropeBase, hbase, hrope⟩ := bind_eq_ok.mp hrope
      obtain ⟨-, rfl⟩ := add_eq_some.mp (okOr_eq_ok.mp (lift_eq_ok.mp hbase))
      obtain ⟨hlen, hread⟩ := readRow_ok hrow
      obtain ⟨hropeLen, hropeRead⟩ := readRow_ok hrope
      have hdim := (add_eq_some.mp ((isCombined_iff hk hv).mp hcombined).symm).2
      exact ⟨hlen, hropeLen, hread, .inr ⟨hdim.symm, hropeRead⟩⟩
    · rw [planRopeRow, if_neg hsplit, if_neg hcombined] at hrope
      cases hrope

/-- **The rows of a quantized cache** are finite. -/
theorem isFinite_of_latentFiniteProblems (hquant : IsQuantized op.cacheDtype) (hk : k.rank = 3)
    (hv : v.rank = 3) (h : latentFiniteProblems op k v = some []) {tok head : ℕ}
    (htok : tok < k.dim 0) (hhead : head < k.dim 1) {row : List F32}
    (hrow : IsRow k ((tok * k.dim 1 + head) * k.dim 2) row) (hlen : row.length ≤ k.dim 2) :
    ∀ x ∈ row, x.isFinite = true := by
  rw [latentFiniteProblems, if_pos ⟨hquant, hk, hv⟩] at h
  obtain ⟨problems, hproblems, hnil⟩ := Option.bind_eq_some_iff.mp h
  have hnil := Option.some.inj hnil
  obtain ⟨heads, hheads, htokRun⟩ := exists_mem_of_mapM hproblems tok (mem_range.mpr htok)
  obtain ⟨errors, herrors, hrun⟩ := exists_mem_of_mapM htokRun head (mem_range.mpr hhead)
  have hnone : errors = [] :=
    flatten_eq_nil_iff.mp hnil errors (mem_flatten.mpr ⟨heads, hheads, herrors⟩)
  rw [hnone, latentRowProblems] at hrun
  rcases hoff : (mul 64 tok (k.dim 1)).bind fun x => (add 64 x head).bind (mul 64 · (k.dim 2))
    with _ | off
  · simp [hoff] at hrun
  simp only [hoff] at hrun
  obtain ⟨x, hx, hoff⟩ := Option.bind_eq_some_iff.mp hoff
  obtain ⟨-, rfl⟩ := mul_eq_some.mp hx
  obtain ⟨y, hy, hoff⟩ := Option.bind_eq_some_iff.mp hoff
  obtain ⟨-, rfl⟩ := add_eq_some.mp hy
  obtain ⟨-, rfl⟩ := mul_eq_some.mp hoff
  obtain ⟨bad, hbad, hrun⟩ := Option.bind_eq_some_iff.mp hrun
  obtain rfl := badRow_eq_nil (Option.some.inj hrun)
  exact isFinite_of_countBad hbad hrow hlen

/-- **What was planned**: the rows of the tokens that have a slot. -/
theorem latentPlan_ok {plan : List (ℕ × List F32 × List F32)}
    (h : latentPlan op k v b group c = .ok plan) :
    op.cacheDtype ∈ cacheDtypes ∧ ∃ rows : ℕ → List F32 × List F32, plan = planOf b group rows ∧
      ∀ tok < b.t, ∀ slot, slotAt b group tok = some slot →
        slot < c.numSlots ∧ LatentRows op k v c tok (rows tok).1 (rows tok).2 := by
  rw [latentPlan] at h
  rcases hlatent : op.latent with _ | l
  · simp [hlatent] at h
  simp only [hlatent, bind_eq_ok, lift_eq_ok, orPanic_eq_ok, slotsOrError, okOr_eq_ok] at h
  obtain ⟨finite, hfinite, ⟨⟩, hnone, slots, hslots, hplan⟩ := h
  have hnil := KvError.fromProblems_eq_ok.mp hnone
  simp only [append_eq_nil_iff] at hnil
  obtain ⟨⟨⟨⟨hcommon, -⟩, hform⟩, rfl⟩, hslotNil⟩ := hnil
  obtain ⟨hk, hv, hdtype, hg, ht⟩ := commonProblems_eq_nil hcommon
  obtain ⟨hmap, hbound⟩ := planSlots_eq hg hslotNil
  obtain rfl := Option.some.inj (hslots.symm.trans hmap)
  rw [latentFormProblems, if_pos ⟨hk, hv⟩] at hform
  simp only [append_eq_nil_iff, ite_eq_left_iff, reduceCtorEq, imp_false, not_not,
    latentHeadProblems, ite_eq_right_iff] at hform
  obtain ⟨⟨⟨⟨-, hheads⟩, -⟩, hrank⟩, hrope⟩ := hform
  have hheads : k.dim 1 = 1 := by
    by_contra hne
    exact hheads ⟨hk, hne⟩
  obtain ⟨rows, rfl, hrows⟩ := planTokens_ok hplan
  refine ⟨hdtype, rows, rfl, fun tok htok slot hslot => ?_⟩
  obtain ⟨hlen, hropeLen, hread, hropeRead⟩ :=
    planLatentToken_ok hk hv (hrows tok htok (by rw [hslot]; rfl))
  rw [hrank, hrope] at hropeRead
  refine ⟨hbound tok htok slot hslot, ⟨hlen.trans hrank, hropeLen.trans hrope⟩, hread, hropeRead,
    ?_⟩
  intro hquant
  refine isFinite_of_latentFiniteProblems hquant hk hv hfinite (ht.symm ▸ htok)
    (show 0 < k.dim 1 by omega) ?_ ?_
  · rwa [hheads, Nat.mul_one, Nat.add_zero]
  · rw [hlen, hrank]
    rcases hropeRead with ⟨hdim, -, -⟩ | ⟨hdim, -⟩
    · exact hdim.ge
    · omega

end LatentPlan

/-! ### The writes of a latent cache -/

section WriteLatent

open LatentCache

variable {op : StateWriteKvOp} {k v : View} {b : BatchMeta} {group : ℕ} {c : LatentCache}

/-- What a slot of a cache holds, and whether it was written. -/
def LatentCache.slotState (c : LatentCache) (slot : ℕ) : LatentRow × Bool :=
  (c.latentRow slot, c.isWritten slot)

/-- Stores a row that was planned. -/
def LatentCache.storePlanned (c : LatentCache) (w : ℕ × List F32 × List F32) : LatentCache :=
  c.setSlot w.1 (encodeLatent c.dtype w.2.1 w.2.2)

/-- The tokens of a step can be written to a cache. -/
def WritesLatent (op : StateWriteKvOp) (k v : View) (b : BatchMeta) (group : ℕ) (c : LatentCache)
    (rows : ℕ → List F32 × List F32) : Prop :=
  ∀ tok < b.t, ∀ slot, slotAt b group tok = some slot →
    slot < c.numSlots ∧ op.cacheDtype = c.dtype ∧ LatentRows op k v c tok (rows tok).1 (rows tok).2

/-- A cache between the stores of the tokens. -/
def WritingLatent (c s : LatentCache) : Prop := s.Wf ∧ SameDims c s

theorem setsCells_storePlannedLatent {rows : ℕ → List F32 × List F32}
    (hrows : WritesLatent op k v b group c rows) :
    SetsCells (WritingLatent c) slotState storePlanned Prod.fst
      (fun w => (encodeLatent c.dtype w.2.1 w.2.2, true)) (planOf b group rows) := by
  rintro w hw s ⟨hwf, hsame⟩
  obtain ⟨tok, htok, hslot, hw⟩ := mem_planOf.mp hw
  obtain ⟨hlt, -, hplan⟩ := hrows tok htok _ hslot
  rw [← hw] at hplan
  have hfits := encodeLatent_fits hwf.dtype_mem w.2.1 w.2.2
  rw [hplan.planned.row, hplan.planned.rope, ← hsame.latent, ← hsame.rope] at hfits
  obtain ⟨hwf', hsame', hrow, hmark⟩ := setSlot_spec hwf hfits (hsame.numSlots.symm ▸ hlt)
  refine ⟨⟨hwf', hsame.trans hsame'⟩, ?_, fun j hj => ?_⟩
  · change ((s.setSlot w.1 _).latentRow w.1, (s.setSlot w.1 _).isWritten w.1) = _
    rw [hrow, hmark, if_pos rfl, if_pos rfl, hsame.dtype]
  · change ((s.setSlot w.1 _).latentRow j, (s.setSlot w.1 _).isWritten j) = _
    rw [hrow, hmark, if_neg hj, if_neg hj]
    rfl

variable (op k v b group) in
/-- **The run of a write**: it leaves the cache as it is, or it stores the rows of all tokens. -/
theorem stateWriteKvLatent_run (h : c.Wf) :
    (∃ e, stateWriteKvLatent op k v b group c = .error e c) ∨
      ∃ rows, WritesLatent op k v b group c rows ∧
        stateWriteKvLatent op k v b group c =
          .ok () ((planOf b group rows).foldl storePlanned c) := by
  rcases hplan : latentPlan op k v b group c with e | plan
  · exact .inl ⟨e, bind_error (planning_error hplan)⟩
  have hread := planning_ok hplan
  obtain ⟨hdtype, rows, rfl, hrows⟩ := latentPlan_ok hplan
  by_cases hdt : op.cacheDtype = c.dtype
  · have hwrites : WritesLatent op k v b group c rows := fun tok htok slot hslot =>
      ⟨(hrows tok htok slot hslot).1, hdt, (hrows tok htok slot hslot).2⟩
    refine .inr ⟨rows, hwrites, ?_⟩
    rw [stateWriteKvLatent, bind_ok hread]
    refine forM_zipIdx_ok (P := WritingLatent c) ⟨h, .refl c⟩ ?_
    rintro w hw i s ⟨hwf, hsame⟩
    refine ⟨?_, (setsCells_storePlannedLatent hwrites w hw s ⟨hwf, hsame⟩).1⟩
    obtain ⟨tok, htok, hslot, hw⟩ := mem_planOf.mp hw
    obtain ⟨hlt, hplan⟩ := hrows tok htok _ hslot
    rw [← hw] at hplan
    refine commitLatent_ok hwf (hsame.numSlots.symm ▸ hlt)
      ⟨hplan.planned.row.trans hsame.latent.symm, hplan.planned.rope.trans hsame.rope.symm⟩
      (hdt.trans hsame.dtype.symm) fun hquant => ?_
    rw [hsame.dtype, ← hdt] at hquant
    exact hplan.finite hquant
  · rcases hnil : planOf b group rows with _ | ⟨w, plan⟩
    · -- nothing is written
      refine .inr ⟨rows, fun tok htok slot hslot => ?_, ?_⟩
      · have hmem : (slot, rows tok) ∈ planOf b group rows := mem_planOf.mpr ⟨tok, htok, hslot, rfl⟩
        rw [hnil] at hmem
        cases hmem
      · rw [stateWriteKvLatent, bind_ok hread, hnil]
        rfl
    · have hmem : w ∈ planOf b group rows := hnil ▸ mem_cons_self
      obtain ⟨tok, htok, hslot, hw⟩ := mem_planOf.mp hmem
      obtain ⟨hlt, hplan⟩ := hrows tok htok _ hslot
      rw [← hw] at hplan
      obtain ⟨e, he⟩ := commitLatent_error 0 h hlt hplan.planned hdtype hdt hplan.finite
      refine .inl ⟨e, ?_⟩
      rw [stateWriteKvLatent, bind_ok hread, hnil, zipIdx_cons]
      exact forM_cons_error he

end WriteLatent

end R9v.Kv

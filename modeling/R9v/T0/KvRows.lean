import R9v.T0.Codecs
import R9v.T0.KvCache

/-!
# The rows of a cache

What a slot of a cache holds, head by head (`Kv.headRow`), and what the store of a row does to it. A
cache that is well formed (`Kv.PagedCache.Wf`) has a place for each row of its own type, so the
stores of such rows succeed and set one row each (`Kv.storeHead_ok`), whereas the first store of a
row of another type fails.
-/

namespace R9v.Kv

open Blocks Checked FloatFormat Format Storing List

/-! ### Quantized rows -/

/-- The codes of a row of finite numbers and its scale. -/
def rowE4m3 (values : List F32) : List UInt8 × F32 :=
  let scale := (peakOf values).div ⟨0x43E00000⟩
  if scale.eq ⟨0⟩ then (List.replicate values.length 0, ⟨0⟩)
  else (values.map fun v => ((E4m3.fromF32 (v.div scale)).getD ⟨0⟩).bits, scale)

section Quantized

variable {values : List F32}

@[simp] theorem length_quantRowI8 : (quantRowI8 values).1.length = values.length := by
  rw [quantRowI8]
  split
  · exact length_replicate
  · exact length_map _

@[simp] theorem length_rowE4m3 : (rowE4m3 values).1.length = values.length := by
  rw [rowE4m3]
  split
  · exact length_replicate
  · exact length_map _

theorem eq_zero_iff {x : F32} (h : x.bits.toNat < binary32.infBits) :
    x.eq ⟨0⟩ = true ↔ x.bits.toNat = 0 :=
  eq_iff_of_lt h.le (Nat.zero_le _)

theorem le_two_mul_mag_roundBits {f : FloatFormat} {q : ℚ} (hq : 0 ≤ q) (h : 0 < f.roundBits q) :
    q ≤ 2 * f.mag (f.roundBits q) := by
  have hmid := (f.isNearest_roundBits hq).mag_le_mid
  have hulp := @ulp_le_mag f _ h
  rw [mid] at hmid
  linarith [f.mag_nonneg (f.roundBits q)]

/-- **An element divided by the scale** of its row is finite. -/
theorem div_scale_spec {y : F32} (hy : y.bits.toNat < binary32.infBits)
    (hbounds : 1 ≤ binary32.mag y.bits.toNat ∧ binary32.mag y.bits.toNat ≤ 448)
    (h : ∀ v ∈ values, v.isFinite = true) (hpos : 0 < ((peakOf values).div y).bits.toNat) {v : F32}
    (hv : v ∈ values) : (v.div ((peakOf values).div y)).isFinite = true ∧
      |(v.div ((peakOf values).div y)).value| = binary32.mag (binary32.roundBits
        (|v.value| / binary32.mag ((peakOf values).div y).bits.toNat)) := by
  obtain ⟨hpeak, hle, -⟩ := peakOf_spec h (ne_nil_of_mem hv)
  obtain ⟨hscale, hslt⟩ := div_toNat_of_one_le hpeak hy hbounds.1
  set s := (peakOf values).div y with hsdef
  have hsmag : binary32.magBits s.bits.toNat = s.bits.toNat :=
    magBits_of_lt (hslt.trans binary32.infBits_lt)
  have hmag : 0 < binary32.mag s.bits.toNat := by
    have := binary32.mag_strictMono hpos
    rwa [mag_zero] at this
  have hvalue : |s.value| = binary32.mag s.bits.toNat := by rw [F32.abs_value, hsmag]
  have hymag : 0 < binary32.mag y.bits.toNat := one_pos.trans_le hbounds.1
  have hround := le_two_mul_mag_roundBits (f := binary32)
    (div_nonneg (binary32.mag_nonneg (peakOf values).bits.toNat) hymag.le) (hscale ▸ hpos)
  rw [← hscale, div_le_iff₀ hymag] at hround
  have h1024 : binary32.mag (136 * 2 ^ 23 + 2 ^ 23) = 2 ^ 10 := by
    rw [(binary32_mag (e := 136) (n := 2 ^ 23) (by decide) (.inr le_rfl)).2]
    norm_num
  -- the peak is at most twice 448 scales
  have hquot : |v.value| / |s.value| ≤ binary32.mag (136 * 2 ^ 23 + 2 ^ 23) := by
    rw [h1024, hvalue, div_le_iff₀ hmag, F32.abs_value]
    calc binary32.mag (binary32.magBits v.bits.toNat)
        ≤ binary32.mag (peakOf values).bits.toNat := binary32.mag_strictMono.monotone (hle v hv)
      _ ≤ 2 * binary32.mag s.bits.toNat * binary32.mag y.bits.toNat := hround
      _ ≤ 2 * binary32.mag s.bits.toNat * 448 :=
          mul_le_mul_of_nonneg_left hbounds.2 (by positivity)
      _ ≤ 2 ^ 10 * binary32.mag s.bits.toNat := by linarith
  have hne : s.value ≠ 0 := fun h0 => by
    rw [h0, abs_zero] at hvalue
    exact hmag.ne hvalue
  have hspec := F32.div_spec (h v hv) (decide_eq_true (by rwa [hsmag])) hne (by decide) hquot
  rwa [hvalue] at hspec

theorem isFinite_div_scale (h : ∀ v ∈ values, v.isFinite = true)
    (hs : ((peakOf values).div ⟨0x43E00000⟩).eq ⟨0⟩ = false) {v : F32} (hv : v ∈ values) :
    (v.div ((peakOf values).div ⟨0x43E00000⟩)).isFinite = true := by
  obtain ⟨-, hslt⟩ := scale_toNat (peakOf_spec h (ne_nil_of_mem hv)).1
  rw [← Bool.not_eq_true, eq_zero_iff hslt] at hs
  refine (div_scale_spec (by decide) ?_ h (Nat.pos_of_ne_zero hs) hv).1
  rw [mag_448]
  norm_num

/-- **A row of finite numbers is encoded.** -/
theorem quantRowE4m3_ok (h : ∀ v ∈ values, v.isFinite = true) (tensor : String) (tok head : ℕ) :
    quantRowE4m3 values tensor tok head = .ok (rowE4m3 values) := by
  rw [quantRowE4m3, rowE4m3]
  split
  · rfl
  · rename_i hs
    rw [Bool.not_eq_true] at hs
    rw [mapM_ok (g := fun v =>
      ((E4m3.fromF32 (v.div ((peakOf values).div ⟨0x43E00000⟩))).getD ⟨0⟩).bits)]
    · rfl
    · intro v hv
      obtain ⟨q, hq⟩ := exists_fromF32 (isFinite_div_scale h hs hv)
      rw [hq]
      rfl

end Quantized

/-! ### Head rows -/

/-- What a cache stores for a head of a slot. -/
structure HeadRow where
  kF16 : List UInt16
  vF16 : List UInt16
  kI8 : List Int8
  vI8 : List Int8
  kE4m3 : List UInt8
  vE4m3 : List UInt8
  kScale : List UInt16
  vScale : List UInt16

/-- The rows of a head as they are stored. -/
def encodeHead (dtype : DType) (k v : List F32) : HeadRow :=
  match dtype with
  | .f16 => ⟨k.map f32ToF16Bits, v.map f32ToF16Bits, [], [], [], [], [], []⟩
  | .i8 => ⟨[], [], (quantRowI8 k).1, (quantRowI8 v).1, [], [],
      [f32ToF16Bits (quantRowI8 k).2], [f32ToF16Bits (quantRowI8 v).2]⟩
  | .e4m3 => ⟨[], [], [], [], (rowE4m3 k).1, (rowE4m3 v).1,
      [f32ToF16Bits (rowE4m3 k).2], [f32ToF16Bits (rowE4m3 v).2]⟩
  | _ => ⟨[], [], [], [], [], [], [], []⟩

/-- The scales are stored for the types that are quantized. -/
def hasScales (dtype : DType) : Bool := dtype = .i8 ∨ dtype = .e4m3

/-- Rows of a type, of `d` and `dv` elements. -/
structure HeadRow.Fits (dtype : DType) (d dv : ℕ) (r : HeadRow) : Prop where
  kF16 : r.kF16.length = sizeIf (dtype = .f16) d
  vF16 : r.vF16.length = sizeIf (dtype = .f16) dv
  kI8 : r.kI8.length = sizeIf (dtype = .i8) d
  vI8 : r.vI8.length = sizeIf (dtype = .i8) dv
  kE4m3 : r.kE4m3.length = sizeIf (dtype = .e4m3) d
  vE4m3 : r.vE4m3.length = sizeIf (dtype = .e4m3) dv
  kScale : r.kScale.length = sizeIf (hasScales dtype) 1
  vScale : r.vScale.length = sizeIf (hasScales dtype) 1

theorem encodeHead_fits {dtype : DType} (hdt : dtype ∈ cacheDtypes) (k v : List F32) :
    (encodeHead dtype k v).Fits dtype k.length v.length := by
  simp only [cacheDtypes, mem_cons, not_mem_nil, or_false] at hdt
  rcases hdt with rfl | rfl | rfl <;> constructor <;> simp [encodeHead, sizeIf, hasScales]

namespace PagedCache

variable (c : PagedCache)

/-- The rows of a head of a slot, whose index is that of the pair. -/
def headRow (i : ℕ) : HeadRow :=
  ⟨block c.d c.kF16 i, block c.dv c.vF16 i, block c.d c.kI8 i, block c.dv c.vI8 i,
    block c.d c.kE4m3 i, block c.dv c.vE4m3 i, block 1 c.kScales i, block 1 c.vScales i⟩

def setHead (i : ℕ) (r : HeadRow) : PagedCache :=
  { c with
    kF16 := setBlock c.d c.kF16 i r.kF16, vF16 := setBlock c.dv c.vF16 i r.vF16,
    kI8 := setBlock c.d c.kI8 i r.kI8, vI8 := setBlock c.dv c.vI8 i r.vI8,
    kE4m3 := setBlock c.d c.kE4m3 i r.kE4m3, vE4m3 := setBlock c.dv c.vE4m3 i r.vE4m3,
    kScales := setBlock 1 c.kScales i r.kScale, vScales := setBlock 1 c.vScales i r.vScale }

/-- A cache has a place for each row of its own type, and for no other one. -/
structure Wf : Prop where
  dtype_mem : c.dtype ∈ cacheDtypes
  numSlots_pos : 0 < c.numSlots
  hkv_pos : 0 < c.hkv
  d_pos : 0 < c.d
  dv_pos : 0 < c.dv
  k_lt : c.numSlots * c.hkv * c.d < 2 ^ 64
  v_lt : c.numSlots * c.hkv * c.dv < 2 ^ 64
  kF16 : c.kF16.length = sizeIf (c.dtype = .f16) (c.numSlots * c.hkv * c.d)
  vF16 : c.vF16.length = sizeIf (c.dtype = .f16) (c.numSlots * c.hkv * c.dv)
  kI8 : c.kI8.length = sizeIf (c.dtype = .i8) (c.numSlots * c.hkv * c.d)
  vI8 : c.vI8.length = sizeIf (c.dtype = .i8) (c.numSlots * c.hkv * c.dv)
  kE4m3 : c.kE4m3.length = sizeIf (c.dtype = .e4m3) (c.numSlots * c.hkv * c.d)
  vE4m3 : c.vE4m3.length = sizeIf (c.dtype = .e4m3) (c.numSlots * c.hkv * c.dv)
  kScales : c.kScales.length = sizeIf (hasScales c.dtype) (c.numSlots * c.hkv * 1)
  vScales : c.vScales.length = sizeIf (hasScales c.dtype) (c.numSlots * c.hkv * 1)

variable {c} {i : ℕ} {r : HeadRow}

/-- **A head row is set**, and the others are as before. -/
theorem setHead_spec (h : c.Wf) (hr : r.Fits c.dtype c.d c.dv) (hi : i < c.numSlots * c.hkv) :
    (c.setHead i r).Wf ∧ ∀ j, (c.setHead i r).headRow j = if j = i then r else c.headRow j := by
  have hkF16 := setBlock_spec h.kF16 hr.kF16 hi
  have hvF16 := setBlock_spec h.vF16 hr.vF16 hi
  have hkI8 := setBlock_spec h.kI8 hr.kI8 hi
  have hvI8 := setBlock_spec h.vI8 hr.vI8 hi
  have hkE4m3 := setBlock_spec h.kE4m3 hr.kE4m3 hi
  have hvE4m3 := setBlock_spec h.vE4m3 hr.vE4m3 hi
  have hkScale := setBlock_spec h.kScales hr.kScale hi
  have hvScale := setBlock_spec h.vScales hr.vScale hi
  constructor
  · exact ⟨h.dtype_mem, h.numSlots_pos, h.hkv_pos, h.d_pos, h.dv_pos, h.k_lt, h.v_lt,
      hkF16.1.trans h.kF16, hvF16.1.trans h.vF16, hkI8.1.trans h.kI8, hvI8.1.trans h.vI8,
      hkE4m3.1.trans h.kE4m3, hvE4m3.1.trans h.vE4m3, hkScale.1.trans h.kScales,
      hvScale.1.trans h.vScales⟩
  · intro j
    by_cases hj : j = i
    · rw [hj]
      simp only [headRow, setHead, hkF16.2, hvF16.2, hkI8.2, hvI8.2, hkE4m3.2, hvE4m3.2, hkScale.2,
        hvScale.2, if_true]
    · simp only [headRow, setHead, hkF16.2, hvF16.2, hkI8.2, hvI8.2, hkE4m3.2, hvE4m3.2, hkScale.2,
        hvScale.2, if_neg hj]

theorem eq_nil_of_dtype {α : Type} {l : List α} {n : ℕ} {dt : DType} (hdt : c.dtype ≠ dt)
    (hlen : l.length = sizeIf (c.dtype = dt) n) : l = [] := by
  rw [decide_eq_false hdt] at hlen
  exact eq_nil_of_length_eq_zero hlen

/-! The regions of the other types stay empty. -/

section Own

variable (h : c.Wf) (i) (k v : List F32)
include h

theorem setHead_f16 (hdt : c.dtype = .f16) : c.setHead i (encodeHead .f16 k v) =
    { c with
      kF16 := setBlock c.d c.kF16 i (k.map f32ToF16Bits),
      vF16 := setBlock c.dv c.vF16 i (v.map f32ToF16Bits) } := by
  have hscales : hasScales c.dtype = false := by rw [hdt]; rfl
  have hks := h.kScales
  have hvs := h.vScales
  rw [hscales] at hks hvs
  simp only [setHead, encodeHead, eq_nil_of_dtype (by rw [hdt]; decide) h.kI8,
    eq_nil_of_dtype (by rw [hdt]; decide) h.vI8, eq_nil_of_dtype (by rw [hdt]; decide) h.kE4m3,
    eq_nil_of_dtype (by rw [hdt]; decide) h.vE4m3, eq_nil_of_length_eq_zero hks,
    eq_nil_of_length_eq_zero hvs, setBlock_nil]

theorem setHead_i8 (hdt : c.dtype = .i8) : c.setHead i (encodeHead .i8 k v) =
    { c with
      kI8 := setBlock c.d c.kI8 i (quantRowI8 k).1, vI8 := setBlock c.dv c.vI8 i (quantRowI8 v).1,
      kScales := setBlock 1 c.kScales i [f32ToF16Bits (quantRowI8 k).2],
      vScales := setBlock 1 c.vScales i [f32ToF16Bits (quantRowI8 v).2] } := by
  simp only [setHead, encodeHead, eq_nil_of_dtype (by rw [hdt]; decide) h.kF16,
    eq_nil_of_dtype (by rw [hdt]; decide) h.vF16, eq_nil_of_dtype (by rw [hdt]; decide) h.kE4m3,
    eq_nil_of_dtype (by rw [hdt]; decide) h.vE4m3, setBlock_nil]

theorem setHead_e4m3 (hdt : c.dtype = .e4m3) : c.setHead i (encodeHead .e4m3 k v) =
    { c with
      kE4m3 := setBlock c.d c.kE4m3 i (rowE4m3 k).1, vE4m3 := setBlock c.dv c.vE4m3 i (rowE4m3 v).1,
      kScales := setBlock 1 c.kScales i [f32ToF16Bits (rowE4m3 k).2],
      vScales := setBlock 1 c.vScales i [f32ToF16Bits (rowE4m3 v).2] } := by
  simp only [setHead, encodeHead, eq_nil_of_dtype (by rw [hdt]; decide) h.kF16,
    eq_nil_of_dtype (by rw [hdt]; decide) h.vF16, eq_nil_of_dtype (by rw [hdt]; decide) h.kI8,
    eq_nil_of_dtype (by rw [hdt]; decide) h.vI8, setBlock_nil]

end Own

/-! ### Stores of a head -/

section Places

variable {slot head dim : ℕ}

theorem checkedAddr_ok {a b x : ℕ} {what : String} (h : a * b + x < 2 ^ 64) :
    checkedAddr a b x what = .ok (a * b + x) := by
  rw [checkedAddr, mul_of_lt (by omega), Option.bind_some, add_of_lt h]
  rfl

theorem index_lt {n hkv : ℕ} (hslot : slot < n) (hhead : head < hkv) : slot * hkv + head <
    n * hkv :=
  calc slot * hkv + head < (slot + 1) * hkv := by rw [Nat.succ_mul]; omega
    _ ≤ n * hkv := Nat.mul_le_mul_right hkv hslot

variable (h : c.Wf) (hslot : slot < c.numSlots) (hhead : head < c.hkv)
include h hslot hhead

theorem index_lt_size : slot * c.hkv + head < 2 ^ 64 :=
  calc slot * c.hkv + head < c.numSlots * c.hkv := index_lt hslot hhead
    _ ≤ c.numSlots * c.hkv * c.d := Nat.le_mul_of_pos_right _ h.d_pos
    _ < 2 ^ 64 := h.k_lt

theorem kOffset_ok (hdim : dim < c.d) :
    c.kOffset slot head dim = .ok ((slot * c.hkv + head) * c.d + dim) := by
  rw [kOffset, checkedAddr_ok (index_lt_size h hslot hhead), ok_bind,
    checkedAddr_ok ((index_lt (index_lt hslot hhead) hdim).trans h.k_lt)]

theorem vOffset_ok (hdim : dim < c.dv) :
    c.vOffset slot head dim = .ok ((slot * c.hkv + head) * c.dv + dim) := by
  rw [vOffset, checkedAddr_ok (index_lt_size h hslot hhead), ok_bind,
    checkedAddr_ok ((index_lt (index_lt hslot hhead) hdim).trans h.v_lt)]

theorem scaleOffset_ok : c.scaleOffset slot head = .ok (slot * c.hkv + head) :=
  checkedAddr_ok (index_lt_size h hslot hhead)

end Places

end PagedCache

section Flat

variable {flat : List F32} {head heads p dim : ℕ}

theorem flatAt_ok (hlen : flat.length = heads * p) (hlt : heads * p < 2 ^ 64) (hhead : head < heads)
    (hdim : dim < p) : flatAt flat head p dim = .ok ((block p flat head).getD dim ⟨0⟩) := by
  have hidx := PagedCache.index_lt hhead hdim
  have hget : flat[head * p + dim]? = some ((block p flat head).getD dim ⟨0⟩) := by
    rw [getD_eq_getElem?_getD, getElem?_block hdim,
      getElem?_eq_getElem (show head * p + dim < flat.length by omega)]
    rfl
  rw [flatAt, mul_of_lt (by omega), Option.bind_some, add_of_lt (by omega), okOr, ok_bind, hget]
  rfl

theorem flatRow_ok (hlen : flat.length = heads * p) (hlt : heads * p < 2 ^ 64)
    (hhead : head < heads) :
    flatRow flat head p = .ok (block p flat head) := by
  have hidx : head * p + p ≤ heads * p := by
    rw [← Nat.succ_mul]
    exact Nat.mul_le_mul_right p hhead
  rw [flatRow, mul_of_lt (by omega), okOr, ok_bind, add_of_lt (by omega), okOr, ok_bind,
    ensure_of (by omega), ok_bind, Nat.add_sub_cancel_left]
  rfl

end Flat

section Planning

variable {σ α : Type} {s : σ} {a : α}

theorem planning_ok {f : σ → Except (Fault KvError) α} (h : f s = .ok a) :
    planning f s = .ok a s := by
  rw [planning, h]
  rfl

theorem planning_error {f : σ → Except (Fault KvError) α} {e : Fault KvError} (h : f s = .error e) :
    planning f s = .error e s := by
  rw [planning, h]
  rfl

theorem reading_ok {f : σ → Except KvError α} (h : f s = .ok a) : reading f s = .ok a s :=
  planning_ok (lift_eq_ok.mpr h)


theorem reading_const {x : Except KvError α} (h : x = .ok a) : reading (fun _ => x) s = .ok a s :=
  reading_ok h

end Planning

section StoreHead

variable {c : PagedCache} {slot head : ℕ} {kFlat vFlat : List F32}

/-- The flat rows of a token that was planned for a cache. -/
structure Planned (c : PagedCache) (kFlat vFlat : List F32) : Prop where
  k : kFlat.length = c.hkv * c.d
  v : vFlat.length = c.hkv * c.dv

open PagedCache

variable (h : c.Wf) (hslot : slot < c.numSlots) (hhead : head < c.hkv)
include h hslot hhead

section Rows

variable {α : Type} {r : Storing.Region PagedCache α} {s : PagedCache} {err : ℕ → ℕ → Fault KvError}
  {f : ℕ → α}
  {val : ℕ → Commit PagedCache α}

theorem kOffset_set (hoff : ∀ l, (r.set s l).hkv = c.hkv ∧ (r.set s l).d = c.d) :
    ∀ j < c.d, ∀ l, reading (fun c => c.kOffset slot head j) (r.set s l) =
      .ok ((slot * c.hkv + head) * c.d + j) (r.set s l) := by
  refine fun j hj l => reading_ok ?_
  rw [← kOffset_ok h hslot hhead hj, kOffset, kOffset, (hoff l).1, (hoff l).2]

theorem storeK_ok (hoff : ∀ l, (r.set s l).hkv = c.hkv ∧ (r.set s l).d = c.d)
    (hlen : (r.get s).length = c.numSlots * c.hkv * c.d)
    (hval : ∀ j < c.d, ∀ l, val j (r.set s l) = .ok (f j) (r.set s l)) :
    r.storeRow err c.d (fun d => reading fun c => c.kOffset slot head d) val s =
      .ok () (r.set s (setBlock c.d (r.get s) (slot * c.hkv + head) ((List.range c.d).map f))) := by
  refine Storing.Region.storeRow_ok (kOffset_set h hslot hhead hoff) hval ?_
  rw [hlen]
  exact Nat.mul_le_mul_right _ (index_lt hslot hhead)

theorem storeCodesK_ok {q : List α} (hq : q.length = c.d)
    (hoff : ∀ l, (r.set s l).hkv = c.hkv ∧ (r.set s l).d = c.d)
    (hlen : (r.get s).length = c.numSlots * c.hkv * c.d) (a : α) :
    r.storeRow err q.length (fun d => reading fun c => c.kOffset slot head d)
        (fun d => pure (q.getD d a)) s =
      .ok () (r.set s (setBlock c.d (r.get s) (slot * c.hkv + head) q)) := by
  conv_rhs => rw [← map_id q]
  refine Storing.Region.storeList_ok (g := id) (a := a) hq (kOffset_set h hslot hhead hoff) ?_
  rw [hlen]
  exact Nat.mul_le_mul_right _ (index_lt hslot hhead)

theorem vOffset_set (hoff : ∀ l, (r.set s l).hkv = c.hkv ∧ (r.set s l).dv = c.dv) :
    ∀ j < c.dv, ∀ l, reading (fun c => c.vOffset slot head j) (r.set s l) =
      .ok ((slot * c.hkv + head) * c.dv + j) (r.set s l) := by
  refine fun j hj l => reading_ok ?_
  rw [← vOffset_ok h hslot hhead hj, vOffset, vOffset, (hoff l).1, (hoff l).2]

theorem storeV_ok (hoff : ∀ l, (r.set s l).hkv = c.hkv ∧ (r.set s l).dv = c.dv)
    (hlen : (r.get s).length = c.numSlots * c.hkv * c.dv)
    (hval : ∀ j < c.dv, ∀ l, val j (r.set s l) = .ok (f j) (r.set s l)) :
    r.storeRow err c.dv (fun d => reading fun c => c.vOffset slot head d) val s =
      .ok () (r.set s (setBlock c.dv (r.get s) (slot * c.hkv + head)
        ((List.range c.dv).map f))) := by
  refine Storing.Region.storeRow_ok (vOffset_set h hslot hhead hoff) hval ?_
  rw [hlen]
  exact Nat.mul_le_mul_right _ (index_lt hslot hhead)

theorem storeCodesV_ok {q : List α} (hq : q.length = c.dv)
    (hoff : ∀ l, (r.set s l).hkv = c.hkv ∧ (r.set s l).dv = c.dv)
    (hlen : (r.get s).length = c.numSlots * c.hkv * c.dv) (a : α) :
    r.storeRow err q.length (fun d => reading fun c => c.vOffset slot head d)
        (fun d => pure (q.getD d a)) s =
      .ok () (r.set s (setBlock c.dv (r.get s) (slot * c.hkv + head) q)) := by
  conv_rhs => rw [← map_id q]
  refine Storing.Region.storeList_ok (g := id) (a := a) hq (vOffset_set h hslot hhead hoff) ?_
  rw [hlen]
  exact Nat.mul_le_mul_right _ (index_lt hslot hhead)

end Rows

variable (hplan : Planned c kFlat vFlat)
include hplan

omit hslot in
/-- The rows of a head that were planned are found again. -/
theorem flat_ok : (∀ j < c.d, flatAt kFlat head c.d j = .ok ((block c.d kFlat head).getD j ⟨0⟩)) ∧
    (∀ j < c.dv, flatAt vFlat head c.dv j = .ok ((block c.dv vFlat head).getD j ⟨0⟩)) ∧
    flatRow kFlat head c.d = .ok (block c.d kFlat head) ∧
    flatRow vFlat head c.dv = .ok (block c.dv vFlat head) ∧
    (block c.d kFlat head).length = c.d ∧ (block c.dv vFlat head).length = c.dv := by
  have hone := h.numSlots_pos
  have hk : c.hkv * c.d < 2 ^ 64 :=
    (Nat.mul_le_mul_right c.d (Nat.le_mul_of_pos_left _ hone)).trans_lt h.k_lt
  have hv : c.hkv * c.dv < 2 ^ 64 :=
    (Nat.mul_le_mul_right c.dv (Nat.le_mul_of_pos_left _ hone)).trans_lt h.v_lt
  refine ⟨fun j hj => flatAt_ok hplan.k hk hhead hj, fun j hj => flatAt_ok hplan.v hv hhead hj,
    flatRow_ok hplan.k hk hhead, flatRow_ok hplan.v hv hhead, length_block ?_, length_block ?_⟩
  · rw [hplan.k]
    exact Nat.mul_le_mul_right _ hhead
  · rw [hplan.v]
    exact Nat.mul_le_mul_right _ hhead

theorem storeHeadF16_ok (hdt : c.dtype = .f16) :
    storeHeadF16 slot head c.d c.dv kFlat vFlat c = .ok () (c.setHead (slot * c.hkv + head)
      (encodeHead .f16 (block c.d kFlat head) (block c.dv vFlat head))) := by
  obtain ⟨hkat, hvat, -, -, hklen, hvlen⟩ := flat_ok h hhead hplan
  have hk := h.kF16
  have hv := h.vF16
  rw [sizeIf_of (decide_eq_true hdt)] at hk hv
  have hkrow := map_range_getD (block c.d kFlat head) f32ToF16Bits ⟨0⟩
  have hvrow := map_range_getD (block c.dv vFlat head) f32ToF16Bits ⟨0⟩
  rw [hklen] at hkrow
  rw [hvlen] at hvrow
  rw [setHead_f16 _ h _ _ hdt, ← hkrow, ← hvrow, storeHeadF16,
    bind_ok (storeK_ok h hslot hhead (fun _ => ⟨rfl, rfl⟩) hk fun j hj l => reading_ok (by
      rw [hkat j hj]
      rfl)),
    storeV_ok h hslot hhead (fun _ => ⟨rfl, rfl⟩) hv fun j hj l => reading_ok (by
      rw [hvat j hj]
      rfl)]
  rfl

omit hplan in
theorem storeScales_ok {s : PagedCache} (hkv : s.hkv = c.hkv)
    (hk : s.kScales.length = c.numSlots * c.hkv) (hv : s.vScales.length = c.numSlots * c.hkv)
    (ks vs : F32) : storeScales slot head ks vs s = .ok () { s with
      kScales := setBlock 1 s.kScales (slot * c.hkv + head) [f32ToF16Bits ks],
      vScales := setBlock 1 s.vScales (slot * c.hkv + head) [f32ToF16Bits vs] } := by
  have hoff : ∀ s : PagedCache, s.hkv = c.hkv → s.scaleOffset slot head =
      .ok (slot * c.hkv + head) :=
    fun s hs => by
      rw [← scaleOffset_ok h hslot hhead, scaleOffset, scaleOffset, hs]
  have hlt := index_lt hslot hhead
  have hread := reading_ok (f := fun c : PagedCache => c.scaleOffset slot head) (hoff s hkv)
  rw [storeScales, bind_ok hread, bind_ok hread,
    bind_ok (Storing.Region.store_ok (r := kScalesRegion) (hlt.trans_eq hk.symm))]
  exact Storing.Region.store_ok (r := vScalesRegion) (hlt.trans_eq hv.symm)

theorem storeHeadI8_ok (hdt : c.dtype = .i8) :
    storeHeadI8 slot head c.d c.dv kFlat vFlat c = .ok () (c.setHead (slot * c.hkv + head)
      (encodeHead .i8 (block c.d kFlat head) (block c.dv vFlat head))) := by
  obtain ⟨-, -, hkrow, hvrow, hklen, hvlen⟩ := flat_ok h hhead hplan
  have hscales : hasScales c.dtype = true := by rw [hdt]; rfl
  have hk := h.kI8
  have hv := h.vI8
  have hks := h.kScales
  have hvs := h.vScales
  rw [sizeIf_of (decide_eq_true hdt)] at hk hv
  rw [sizeIf_of hscales, Nat.mul_one] at hks hvs
  have hkq := (@length_quantRowI8 (block c.d kFlat head)).trans hklen
  have hvq := (@length_quantRowI8 (block c.dv vFlat head)).trans hvlen
  rw [setHead_i8 _ h _ _ hdt, storeHeadI8, bind_ok (reading_const hkrow),
    bind_ok (reading_const hvrow),
    bind_ok (storeCodesK_ok h hslot hhead hkq (fun _ => ⟨rfl, rfl⟩) hk 0),
    bind_ok (storeCodesV_ok h hslot hhead hvq (fun _ => ⟨rfl, rfl⟩) hv 0)]
  refine storeScales_ok h hslot hhead ?_ ?_ ?_ _ _
  · rfl
  · exact hks
  · exact hvs

/-- The rows of a head that were planned are finite. -/
def FiniteHead (c : PagedCache) (kFlat vFlat : List F32) (head : ℕ) : Prop :=
  (∀ x ∈ block c.d kFlat head, x.isFinite = true) ∧ ∀ x ∈ block c.dv vFlat head, x.isFinite = true

theorem storeHeadE4m3_ok (hdt : c.dtype = .e4m3) (hfinite : FiniteHead c kFlat vFlat head)
    (tok : ℕ) : storeHeadE4m3 slot head c.d c.dv kFlat vFlat tok c = .ok () (c.setHead
      (slot * c.hkv + head) (encodeHead .e4m3 (block c.d kFlat head) (block c.dv vFlat head))) := by
  obtain ⟨-, -, hkrow, hvrow, hklen, hvlen⟩ := flat_ok h hhead hplan
  have hscales : hasScales c.dtype = true := by rw [hdt]; rfl
  have hk := h.kE4m3
  have hv := h.vE4m3
  have hks := h.kScales
  have hvs := h.vScales
  rw [sizeIf_of (decide_eq_true hdt)] at hk hv
  rw [sizeIf_of hscales, Nat.mul_one] at hks hvs
  have hkq := (@length_rowE4m3 (block c.d kFlat head)).trans hklen
  have hvq := (@length_rowE4m3 (block c.dv vFlat head)).trans hvlen
  rw [setHead_e4m3 _ h _ _ hdt, storeHeadE4m3, bind_ok (reading_const hkrow),
    bind_ok (reading_const hvrow),
    bind_ok (reading_const (quantRowE4m3_ok hfinite.1 "k" tok head)),
    bind_ok (reading_const (quantRowE4m3_ok hfinite.2 "v" tok head)),
    bind_ok (storeCodesK_ok h hslot hhead hkq (fun _ => ⟨rfl, rfl⟩) hk 0),
    bind_ok (storeCodesV_ok h hslot hhead hvq (fun _ => ⟨rfl, rfl⟩) hv 0)]
  refine storeScales_ok h hslot hhead ?_ ?_ ?_ _ _
  · rfl
  · exact hks
  · exact hvs

end StoreHead

/-- The stores of a head for a type. -/
def storeHead (dtype : DType) (slot head kd vd : ℕ) (kFlat vFlat : List F32) (tok : ℕ) :
    Commit PagedCache PUnit :=
  match dtype with
  | .f16 => storeHeadF16 slot head kd vd kFlat vFlat
  | .i8 => storeHeadI8 slot head kd vd kFlat vFlat
  | .e4m3 => storeHeadE4m3 slot head kd vd kFlat vFlat tok
  | _ => reading fun _ => .error dtypeError

section StoreHead

variable {c : PagedCache} {slot head : ℕ} {kFlat vFlat : List F32} (h : c.Wf)
  (hslot : slot < c.numSlots) (hhead : head < c.hkv) (hplan : Planned c kFlat vFlat) (tok : ℕ)
include h hslot hhead hplan

/-- **The stores of a head** set its rows, where the cache is of the type. -/
theorem storeHead_ok (hfinite : c.dtype = .e4m3 → FiniteHead c kFlat vFlat head) :
    storeHead c.dtype slot head c.d c.dv kFlat vFlat tok c = .ok () (c.setHead (slot * c.hkv + head)
      (encodeHead c.dtype (block c.d kFlat head) (block c.dv vFlat head))) := by
  have hdtype := h.dtype_mem
  simp only [cacheDtypes, mem_cons, not_mem_nil, or_false] at hdtype
  rcases hdtype with hdt | hdt | hdt
  · rw [hdt]
    exact storeHeadF16_ok h hslot hhead hplan hdt
  · rw [hdt]
    exact storeHeadI8_ok h hslot hhead hplan hdt
  · rw [hdt]
    exact storeHeadE4m3_ok h hslot hhead hplan hdt (hfinite hdt) tok

/-- **The first store fails** where the cache is of another type. -/
theorem storeHead_error {dtype : DType} (hmem : dtype ∈ cacheDtypes) (hdt : c.dtype ≠ dtype)
    (hfinite : dtype = .e4m3 → FiniteHead c kFlat vFlat head) :
    ∃ e, storeHead dtype slot head c.d c.dv kFlat vFlat tok c = .error e c := by
  obtain ⟨hkat, -, hkrow, hvrow, hklen, -⟩ := flat_ok h hhead hplan
  have hoff : reading (fun c : PagedCache => c.kOffset slot head 0) c = .ok _ c :=
    reading_ok (PagedCache.kOffset_ok h hslot hhead h.d_pos)
  simp only [cacheDtypes, mem_cons, not_mem_nil, or_false] at hmem
  rcases hmem with rfl | rfl | rfl
  · have hval : reading (fun _ : PagedCache => (flatAt kFlat head c.d 0).map f32ToF16Bits) c =
        .ok (f32ToF16Bits ((block c.d kFlat head).getD 0 ⟨0⟩)) c := reading_const (by
      rw [hkat 0 h.d_pos]
      rfl)
    exact ⟨_, bind_error (Storing.Region.storeRow_error h.d_pos hoff hval
      (PagedCache.eq_nil_of_dtype hdt h.kF16))⟩
  · refine ⟨_, (bind_ok (reading_const hkrow)).trans ((bind_ok (reading_const hvrow)).trans
      (bind_error (Storing.Region.storeRow_error ?_ hoff rfl (PagedCache.eq_nil_of_dtype hdt h.kI8))))⟩
    rw [length_quantRowI8, hklen]
    exact h.d_pos
  · obtain ⟨hkfin, hvfin⟩ := hfinite rfl
    refine ⟨_, (bind_ok (reading_const hkrow)).trans ((bind_ok (reading_const hvrow)).trans
      ((bind_ok (reading_const (quantRowE4m3_ok hkfin "k" tok head))).trans
        ((bind_ok (reading_const (quantRowE4m3_ok hvfin "v" tok head))).trans
          (bind_error (Storing.Region.storeRow_error ?_ hoff rfl
            (PagedCache.eq_nil_of_dtype hdt h.kE4m3))))))⟩
    rw [length_rowE4m3, hklen]
    exact h.d_pos

end StoreHead

end R9v.Kv

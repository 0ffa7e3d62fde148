import R9v.T0.Segment

/-!
# A call on its states

A convolution or a scan as the recurrence of its operands, what its checks give, and what a call
reads from one buffer of its handle and writes to the other one (`scanOver_own`).
-/

namespace R9v

open Checked List

variable {F : Type} [Numeric F]

/-! ### Operations as recurrences -/

namespace ScanOp

/-- An operation with its operands as numbers. -/
def recurrence : ScanOp → List (TypedBuffer F) → Option (Recurrence F)
  | .causalConv1d op, [x, w] =>
    some (.conv (x.dim 1) op.kernel op.act x.data.read w.data.read none)
  | .causalConv1d op, [x, w, bias] =>
    some (.conv (x.dim 1) op.kernel op.act x.data.read w.data.read (some bias.data.read))
  | .linearAttnScan _, [q, k, v, alpha, beta] =>
    some (.scan (q.dim 1) (q.dim 2) (v.dim 2) q.data.read k.data.read v.data.read alpha.data.read
      beta.data.read)
  | _, _ => none

/-- The checks of an operation. -/
def validate (op : ScanOp) (inputs : List (TypedBuffer F)) (stateIn : TypedBuffer F) (seq : List ℕ)
    (out stateOut : TypedBuffer F) : Except (ScanError F) Unit :=
  match op, inputs with
  | .causalConv1d op, [x, w] => op.validate x w none stateIn seq out stateOut
  | .causalConv1d op, [x, w, bias] => op.validate x w (some bias) stateIn seq out stateOut
  | .linearAttnScan op, [q, k, v, alpha, beta] =>
    op.validate q k v alpha beta stateIn out stateOut seq
  | .causalConv1d _, inputs => .error (.invalidAttribute "causal_conv1d" "inputs/outputs"
      s!"causal_conv1d requires 2 or 3 inputs and 1 output, got {inputs.length} inputs and 1 outputs")
  | .linearAttnScan _, inputs => .error (.invalidAttribute "linear_attn_scan" "inputs/outputs"
      s!"linear_attn_scan requires 5 inputs and 1 output, got {inputs.length} inputs and 1 outputs")

/-- How many tokens are taken at a time. -/
def blockSize : ScanOp → Bool → Option ℕ
  | .causalConv1d _, _ => none
  | .linearAttnScan op, chunked => if chunked then some op.chunk else none

/-- The kind of state that an operation keeps. -/
def kind : ScanOp → StateKind
  | .causalConv1d _ => .convWindow
  | .linearAttnScan _ => .recurrent

variable {op : ScanOp} {inputs : List (TypedBuffer F)} {stateIn out stateOut : TypedBuffer F}
  {seq : List ℕ} {chunked : Bool} {r : Recurrence F}

theorem execute_eq (hr : op.recurrence inputs = some r) :
    executeStateScanOp op inputs stateIn seq out stateOut chunked =
      (op.validate inputs stateIn seq out stateOut).map fun _ =>
        let rows := segments (r.rows (op.blockSize chunked) stateIn.data.read)
          (r.tail (op.blockSize chunked) stateIn.data.read) 0 0 seq
        (out.fill rows.1, stateOut.fill rows.2) := by
  rw [recurrence.eq_def] at hr
  split at hr
  · next op x w =>
    obtain rfl := Option.some.inj hr
    cases op.validate x w none stateIn seq out stateOut <;> rfl
  · next op x w bias =>
    obtain rfl := Option.some.inj hr
    cases op.validate x w (some bias) stateIn seq out stateOut <;> rfl
  · next op q k v alpha beta =>
    obtain rfl := Option.some.inj hr
    cases op.validate q k v alpha beta stateIn out stateOut seq <;> rfl
  · cases hr

theorem execute_none (hr : op.recurrence inputs = none) (stateIn out stateOut : TypedBuffer F)
    (seq : List ℕ) (chunked : Bool) :
    ∃ e, executeStateScanOp op inputs stateIn seq out stateOut chunked = .error e := by
  rw [executeStateScanOp.eq_def]
  split
  · cases hr
  · cases hr
  · cases hr
  · exact ⟨_, rfl⟩
  · exact ⟨_, rfl⟩

theorem exists_recurrence (h : op.validate inputs stateIn seq out stateOut = .ok ()) :
    ∃ r, op.recurrence inputs = some r := by
  rw [validate.eq_def] at h
  split at h
  · exact ⟨_, rfl⟩
  · exact ⟨_, rfl⟩
  · exact ⟨_, rfl⟩
  · cases h
  · cases h

end ScanOp

/-! ### What the checks give -/

section Facts

omit [Numeric F] in
theorem fromProblems_eq_ok {problems : List (ScanError F)} {u : Unit} :
    ScanError.fromProblems problems = .ok u ↔ problems = [] := by
  rcases problems with _ | ⟨p, _ | ⟨p', ps⟩⟩
  · exact iff_of_true rfl rfl
  · exact iff_of_false nofun nofun
  · exact iff_of_false nofun nofun

omit [Numeric F] in
theorem checkExtent_eq_nil {dimName expectedFrom tensor : String} {expected got : ℕ} :
    (checkExtent dimName expectedFrom expected tensor got : List (ScanError F)) = [] ↔
      got = expected := by
  simp [checkExtent]

omit [Numeric F] in
theorem checkRank_eq_nil {tensor : String} {b : TypedBuffer F} {expected : ℕ} :
    checkRank tensor b expected = [] ↔ b.rank = expected := by
  simp [checkRank]

omit [Numeric F] in
theorem checkDtype_eq_nil {tensor : String} {b : TypedBuffer F} {expected : List DType} :
    checkDtype tensor b expected = [] ↔ b.dtype ∈ expected := by
  simp [checkDtype]

omit [Numeric F] in
theorem numElements_rank_two {b : TypedBuffer F} (h : b.rank = 2) :
    b.numElements = b.dim 0 * b.dim 1 := by
  obtain ⟨m, n, hshape⟩ := length_eq_two.mp h
  simp [TypedBuffer.numElements, TypedBuffer.dim, hshape]

omit [Numeric F] in
theorem numElements_rank_three {b : TypedBuffer F} (h : b.rank = 3) :
    b.numElements = b.dim 0 * (b.dim 1 * b.dim 2) := by
  obtain ⟨l, m, n, hshape⟩ := length_eq_three.mp h
  simp [TypedBuffer.numElements, TypedBuffer.dim, hshape]

/-- What an operation that passes its checks writes. -/
structure ScanFits (op : ScanOp) (r : Recurrence F) (seq : List ℕ) (out stateIn : TypedBuffer F) :
    Prop where
  slots : stateIn.dim 0 = seq.length
  elements : out.numElements = seq.sum * r.outWidth
  dtype : out.dtype ∈ floatDtypes
  block : ∀ chunked, ∀ n ∈ op.blockSize chunked, 0 < n
  kind : op.handle.kind = op.kind

variable {stateIn out stateOut : TypedBuffer F} {seq : List ℕ}

omit [Numeric F] in
theorem of_kind_eq_nil {k k' : StateKind} {op : String}
    (h : (if k ≠ k' then [.invalidHandle op k] else [] : List (ScanError F)) = []) : k = k' := by
  by_contra hne
  rw [if_pos hne] at h
  cases h

theorem conv_fits {op : CausalConv1dOp} {x w : TypedBuffer F} {bias : Option (TypedBuffer F)}
    {reads : Option (ℕ → F)} (h : op.validate x w bias stateIn seq out stateOut = .ok ()) :
    ScanFits (.causalConv1d op) (.conv (x.dim 1) op.kernel op.act x.data.read w.data.read reads) seq
      out stateIn := by
  rw [CausalConv1dOp.validate] at h
  simp only [bind_eq_ok, ensure_eq_ok, fromProblems_eq_ok] at h
  obtain ⟨-, hproblems, -, -, -, -, -, hsum, -, hdims, -⟩ := h
  simp only [CausalConv1dOp.problems, flatten_eq_nil_iff, forall_mem_cons] at hproblems
  simp only [CausalConv1dOp.dimProblems, flatten_eq_nil_iff, forall_mem_cons] at hdims
  obtain ⟨-, -, hrank, -, -, -, -, -, -, -, -, hx, -, -, -, hy, -, hkind, -⟩ := hproblems
  obtain ⟨-, -, -, ht, hc, hs, -⟩ := hdims
  refine ⟨checkExtent_eq_nil.mp hs, ?_, ?_, fun chunked n hn => ?_, of_kind_eq_nil hkind⟩
  · rw [numElements_rank_two (checkRank_eq_nil.mp hrank), checkExtent_eq_nil.mp ht,
      checkExtent_eq_nil.mp hc, hsum, Recurrence.outWidth]
  · rw [mem_singleton.mp (checkDtype_eq_nil.mp hy)]
    exact checkDtype_eq_nil.mp hx
  · cases hn

omit [Numeric F] in
theorem scan_problems {op : LinearAttnScanOp} {q k v alpha beta : TypedBuffer F}
    (h : op.problems q k v alpha beta stateIn out stateOut = []) :
    out.rank = 3 ∧ out.dtype ∈ floatDtypes ∧ 0 < op.chunk ∧ op.handle.kind = .recurrent := by
  simp only [LinearAttnScanOp.problems, flatten_eq_nil_iff, forall_mem_cons] at h
  obtain ⟨-, -, -, -, -, -, hrank, -, -, -, -, -, -, -, -, -, -, -, -, -, -, -, -, -, hout, ho, -,
    hchunk, hkind, -⟩ := h
  refine ⟨checkRank_eq_nil.mp hrank, ?_, ?_, of_kind_eq_nil hkind⟩
  · rw [mem_singleton.mp (checkDtype_eq_nil.mp ho)]
    by_contra hnot
    rw [if_neg hnot] at hout
    cases hout
  · by_contra hzero
    rw [if_pos (Nat.eq_zero_of_not_pos hzero)] at hchunk
    cases hchunk

theorem scan_dims {q k v alpha beta : TypedBuffer F} {s : ℕ}
    (h : scanDimProblems q k v alpha beta stateIn out stateOut s = []) :
    stateIn.dim 0 = s ∧ out.dim 0 = q.dim 0 ∧ out.dim 1 = q.dim 1 ∧ out.dim 2 = v.dim 2 := by
  simp only [scanDimProblems, checkScanState, flatten_eq_nil_iff, forall_mem_cons] at h
  obtain ⟨-, -, -, -, ht, -, -, -, -, hh, -, hdv, hs, -⟩ := h
  exact ⟨checkExtent_eq_nil.mp hs.1, checkExtent_eq_nil.mp ht, checkExtent_eq_nil.mp hh,
    checkExtent_eq_nil.mp hdv⟩

theorem scan_fits {op : LinearAttnScanOp} {q k v alpha beta : TypedBuffer F}
    (h : op.validate q k v alpha beta stateIn out stateOut seq = .ok ()) :
    ScanFits (.linearAttnScan op) (.scan (q.dim 1) (q.dim 2) (v.dim 2) q.data.read k.data.read
      v.data.read alpha.data.read beta.data.read) seq out stateIn := by
  rw [LinearAttnScanOp.validate] at h
  simp only [bind_eq_ok, ensure_eq_ok, fromProblems_eq_ok] at h
  obtain ⟨-, hproblems, -, -, -, -, -, hsum, -, hdims, -⟩ := h
  obtain ⟨hrank, hdtype, hchunk, hkind⟩ := scan_problems hproblems
  obtain ⟨hs, ht, hh, hdv⟩ := scan_dims hdims
  refine ⟨hs, ?_, hdtype, fun chunked n hn => ?_, hkind⟩
  · rw [numElements_rank_three hrank, ht, hh, hdv, hsum, Recurrence.outWidth]
  · cases chunked with
    | false => cases hn
    | true =>
      obtain rfl : op.chunk = n := Option.some.inj hn
      exact hchunk

theorem ScanOp.fits {op : ScanOp} {inputs : List (TypedBuffer F)} {r : Recurrence F}
    (hr : op.recurrence inputs = some r)
    (h : op.validate inputs stateIn seq out stateOut = .ok ()) : ScanFits op r seq out stateIn := by
  rw [recurrence.eq_def] at hr
  split at hr
  · obtain rfl := Option.some.inj hr
    exact conv_fits h
  · obtain rfl := Option.some.inj hr
    exact conv_fits h
  · obtain rfl := Option.some.inj hr
    exact scan_fits h
  · cases hr

end Facts

/-! ### Buffers of states -/

/-- A buffer of the executor for states. -/
structure TypedBuffer.IsSlot (b : TypedBuffer F) (shape : List ℕ) (dtype : DType) : Prop where
  shape_eq : b.shape = shape
  dtype_eq : b.dtype = dtype
  layout_eq : b.layout = .contiguous

section Slots

variable {a a' b b' : TypedBuffer F} {shape : List ℕ} {dtype : DType}

theorem ScanOp.validate_congr {op : ScanOp} {inputs : List (TypedBuffer F)} {seq : List ℕ}
    {out : TypedBuffer F} (ha : a.IsSlot shape dtype) (ha' : a'.IsSlot shape dtype)
    (hb : b.IsSlot shape dtype) (hb' : b'.IsSlot shape dtype) :
    op.validate inputs a seq out b = op.validate inputs a' seq out b' := by
  have hrank : ∀ tensor n, checkRank tensor a n = checkRank tensor a' n ∧
      checkRank tensor b n = checkRank tensor b' n := by
    simp [checkRank, TypedBuffer.rank, ha.shape_eq, ha'.shape_eq, hb.shape_eq, hb'.shape_eq]
  have hlayout : ∀ tensor, checkLayout tensor a = checkLayout tensor a' ∧
      checkLayout tensor b = checkLayout tensor b' := by
    simp [checkLayout, ha.layout_eq, ha'.layout_eq, hb.layout_eq, hb'.layout_eq]
  have hdtype : ∀ tensor l, checkDtype tensor a l = checkDtype tensor a' l ∧
      checkDtype tensor b l = checkDtype tensor b' l := by
    simp [checkDtype, ha.dtype_eq, ha'.dtype_eq, hb.dtype_eq, hb'.dtype_eq]
  have hdim : ∀ i, a.dim i = a'.dim i ∧ b.dim i = b'.dim i := by
    simp [TypedBuffer.dim, ha.shape_eq, ha'.shape_eq, hb.shape_eq, hb'.shape_eq]
  have hconv : ∀ (op : CausalConv1dOp) x w bias,
      op.validate x w bias a seq out b = op.validate x w bias a' seq out b' := by
    intro op x w bias
    simp only [CausalConv1dOp.validate, CausalConv1dOp.problems, CausalConv1dOp.dimProblems, hrank,
      hlayout, hdtype, hdim]
  have hscan : ∀ (op : LinearAttnScanOp) q k v alpha beta,
      op.validate q k v alpha beta a out b seq = op.validate q k v alpha beta a' out b' seq := by
    intro op q k v alpha beta
    simp only [LinearAttnScanOp.validate, LinearAttnScanOp.problems, scanDimProblems,
      checkScanState, hrank, hlayout, hdtype, hdim]
  rw [validate.eq_def, validate.eq_def]
  split
  · exact hconv _ _ _ _
  · exact hconv _ _ _ _
  · exact hscan _ _ _ _ _ _
  · rfl
  · rfl

omit [Numeric F] in
theorem zeros_isSlot [Zero F] (shape : List ℕ) (dtype : DType) :
    (TypedBuffer.zeros shape dtype : TypedBuffer F).IsSlot shape dtype := by
  refine ⟨rfl, ?_, rfl⟩
  cases dtype <;> rfl

/-- A number as it is read after it was written. -/
def written (dtype : DType) (x : F) : F :=
  match dtype with
  | .f16 => Numeric.f16ToF32 (Numeric.f32ToF16 x)
  | .bf16 => Numeric.bf16ToF32 (Numeric.f32ToBf16 x)
  | _ => x

theorem fill_data (hb : b.dtype ∈ floatDtypes) (values : List F) :
    let elements := (List.range b.numElements).map fun i => values.getD i 0
    b.dtype = .f16 ∧ (b.fill values).data = .f16 (elements.map Numeric.f32ToF16) ∨
      b.dtype = .bf16 ∧ (b.fill values).data = .bf16 (elements.map Numeric.f32ToBf16) ∨
      b.dtype = .f32 ∧ (b.fill values).data = .f32 elements := by
  simp only [floatDtypes, mem_cons, not_mem_nil, or_false] at hb
  rcases hb with h | h | h
  · exact Or.inl ⟨h, by simp only [TypedBuffer.fill, h]⟩
  · exact Or.inr (Or.inl ⟨h, by simp only [TypedBuffer.fill, h]⟩)
  · exact Or.inr (Or.inr ⟨h, by simp only [TypedBuffer.fill, h]⟩)

theorem fill_dtype (hb : b.dtype ∈ floatDtypes) (values : List F) :
    (b.fill values).dtype = b.dtype := by
  rw [TypedBuffer.dtype]
  rcases fill_data hb values with ⟨h, hdata⟩ | ⟨h, hdata⟩ | ⟨h, hdata⟩
  all_goals rw [hdata, h]; rfl

theorem fill_isSlot (hb : b.IsSlot shape dtype) (hdtype : dtype ∈ floatDtypes) (values : List F) :
    (b.fill values).IsSlot shape dtype :=
  ⟨hb.shape_eq, (fill_dtype (hb.dtype_eq ▸ hdtype) values).trans hb.dtype_eq, hb.layout_eq⟩

theorem read_fill (hb : b.dtype ∈ floatDtypes) (values : List F) {i : ℕ} (hi : i < b.numElements) :
    (b.fill values).data.read i = written b.dtype (values.getD i 0) := by
  rcases fill_data hb values with ⟨h, hdata⟩ | ⟨h, hdata⟩ | ⟨h, hdata⟩
  all_goals rw [hdata, h]; simp [TensorData.read, written, hi]

end Slots

/-! ### A call on the states of its handle -/

section Call

variable {op : ScanOp} {inputs : List (TypedBuffer F)} {node s : ℕ} {shape : List ℕ} {dtype : DType}
  {r : Recurrence F} {queryLen : List ℕ} {out read write : TypedBuffer F}

theorem scanGeometry_eq (hr : op.recurrence inputs = some r)
    (h : scanGeometry node op inputs s = .ok (shape, dtype)) :
    shape.getD 0 0 = s ∧ shape.prod = s * r.width ∧ shape.tail.prod = r.width ∧
      dtype ∈ floatDtypes := by
  rw [ScanOp.recurrence.eq_def] at hr
  split at hr
  · obtain rfl := Option.some.inj hr
    cases h
    simp [Recurrence.width, floatDtypes]
  · obtain rfl := Option.some.inj hr
    cases h
    simp [Recurrence.width, floatDtypes]
  · obtain rfl := Option.some.inj hr
    cases h
    simp [Recurrence.width, floatDtypes, mul_assoc]
  · cases hr

omit [Numeric F] in
theorem take_sum_add_getD_le (l : List ℕ) (j : ℕ) : (l.take j).sum + l.getD j 0 ≤ l.sum := by
  induction l generalizing j with
  | nil => simp
  | cons a l ih =>
    cases j with
    | zero => simp
    | succ j =>
      have h := ih j
      simp only [take_succ_cons, sum_cons, getD_cons_succ]
      omega

/-- **What an operation computes**: the rows and the next state of a sequence are those of its own
tokens, from its row of the state that is read. -/
theorem ScanOp.execute_own {chunked : Bool} (hr : op.recurrence inputs = some r)
    (hvalid : op.validate inputs read queryLen out write = .ok ()) :
    ∃ ys states, executeStateScanOp op inputs read queryLen out write chunked =
        .ok (out.fill ys, write.fill states) ∧
      ∀ j < queryLen.length, ∀ st : ℕ → F,
        (∀ i < r.width, read.data.read (j * r.width + i) = st i) →
        let own := r.own (queryLen.take j).sum (queryLen.getD j 0)
        (∀ i < queryLen.getD j 0 * r.outWidth, ys.getD ((queryLen.take j).sum * r.outWidth + i) 0 =
          (own.rows none st 0 0 (queryLen.getD j 0)).getD i 0) ∧
        ∀ i < r.width, states.getD (j * r.width + i) 0 =
          (own.tail none st 0 0 (queryLen.getD j 0)).getD i 0 := by
  have hblock := (ScanOp.fits hr hvalid).block chunked
  have hrun := @execute_eq _ _ op inputs read out write queryLen chunked r hr
  rw [hvalid] at hrun
  refine ⟨_, _, hrun, fun j hj st hst => ⟨fun i hi => ?_, fun i hi => ?_⟩⟩
  · rw [segments_rows _ _ _ (r.length_rows hblock read.data.read) 0 queryLen 0 0 j i hj hi, zero_add,
      zero_add, r.rows_own hblock hst]
  · rw [segments_tail _ _ _ (r.length_tail _ read.data.read) 0 queryLen 0 0 j i hj hi, zero_add,
      zero_add, r.tail_own hblock hst]

theorem place_lt {seq : List ℕ} {width i : ℕ} (j : ℕ) (hi : i < seq.getD j 0 * width) :
    (seq.take j).sum * width + i < seq.sum * width := by
  have hle := Nat.mul_le_mul_right width (take_sum_add_getD_le seq j)
  rw [add_mul] at hle
  omega

/-- **What a call computes**, as it is read afterwards. -/
theorem scanOver_own (hr : op.recurrence inputs = some r)
    (hgeo : scanGeometry node op inputs s = .ok (shape, dtype))
    (hlayout : seqLayout queryLen = (.ok queryLen : Except (ScanError F) (List ℕ)))
    (hvalid : op.validate inputs read queryLen out write = .ok ())
    (hread : read.IsSlot shape dtype) (hwrite : write.IsSlot shape dtype) :
    ∃ y next, scanOver op inputs out queryLen read write = .ok (y, next) ∧
      y.dtype = out.dtype ∧ next.IsSlot shape dtype ∧
      ∀ j < queryLen.length, ∀ st : ℕ → F,
        (∀ i < r.width, read.data.read (j * r.width + i) = st i) →
        let own := r.own (queryLen.take j).sum (queryLen.getD j 0)
        (∀ i < queryLen.getD j 0 * r.outWidth,
          y.data.read ((queryLen.take j).sum * r.outWidth + i) =
            written y.dtype ((own.rows none st 0 0 (queryLen.getD j 0)).getD i 0)) ∧
        ∀ i < r.width, next.data.read (j * r.width + i) =
          written dtype ((own.tail none st 0 0 (queryLen.getD j 0)).getD i 0) := by
  obtain ⟨hslots, helements, hdtype, -, -⟩ := ScanOp.fits hr hvalid
  obtain ⟨hdim, hprod, -, hfloat⟩ := scanGeometry_eq hr hgeo
  have hs : queryLen.length = s := by
    rw [← hslots, TypedBuffer.dim, hread.shape_eq, hdim]
  obtain ⟨ys, states, hexec, hown⟩ := @ScanOp.execute_own _ _ op inputs r queryLen out read write
    (chunkedForm queryLen) hr hvalid
  have hrun : scanOver op inputs out queryLen read write = .ok (out.fill ys, write.fill states) := by
    rw [scanOver, hlayout]
    simp only [Except.mapError, ok_bind]
    rw [hexec]
  have hout := fill_dtype hdtype
  refine ⟨_, _, hrun, hout _, fill_isSlot hwrite hfloat _, fun j hj st hst =>
    ⟨fun i hi => ?_, fun i hi => ?_⟩⟩
  · rw [hout, read_fill hdtype _ (helements ▸ place_lt j hi), (hown j hj st hst).1 i hi]
  · have hlt : j * r.width + i < write.numElements := by
      rw [TypedBuffer.numElements, hwrite.shape_eq, hprod]
      exact mul_add_lt (hs ▸ hj) hi
    rw [read_fill (hwrite.dtype_eq ▸ hfloat) _ hlt, hwrite.dtype_eq, (hown j hj st hst).2 i hi]

end Call

end R9v

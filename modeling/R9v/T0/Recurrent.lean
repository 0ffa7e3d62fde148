import R9v.T0.Exec
import R9v.T0.Slots
import Mathlib.Data.List.Induction

/-!
# Recurrent states over runs

The states of convolutions and scans over whole runs of an executor. A call addresses the state
of a sequence by the row of the sequence in the batch. A sequence has a state of its own
(`ownState`), which its tokens alone determine, and a call is `Isolated` if every row of it used
the own state of its sequence and computed from it. A run whose calls list the same sequences in
the same order keeps all sequences apart (`steady_isolated`); as soon as another sequence takes a
row it continues from the state of the former one (`successor_reads_state`).
-/

namespace R9v

open Checked List

variable {F : Type} [Numeric F]

/-! ### Calls -/

/-- A call of a convolution or a scan: what it is given, the states before it, and its result. -/
structure ScanCall (F : Type) where
  node : ℕ
  op : ScanOp
  inputs : List (TypedBuffer F)
  outputs : List (TypedBuffer F)
  batch : BatchMeta
  before : ScanState F
  result : Except (ExecError F) (List (TypedBuffer F))

/-- The states of the scans, with the calls so far. -/
structure ScanLog (F : Type) where
  state : ScanState F
  calls : List (ScanCall F)

def ScanLog.new : ScanLog F := ⟨.new, []⟩

/-- The state with a call more. -/
def ScanLog.perform (s : ScanLog F) (node : ℕ) (op : ScanOp) (inputs outputs : List (TypedBuffer F))
    (batch : BatchMeta) : Except (ExecError F) (List (TypedBuffer F)) × ScanLog F :=
  let (result, state) := dispatchScan node op inputs outputs batch s.state
  (result, ⟨state, s.calls ++ [⟨node, op, inputs, outputs, batch, s.state, result⟩]⟩)

/-! ### Sequences on their own -/

namespace ScanCall

/-- The row of a sequence. -/
def row (c : ScanCall F) (id : ℕ) : Option ℕ := c.batch.seqIds.findIdx? (· = id)

/-- Where the tokens of a row begin. -/
def base (c : ScanCall F) (j : ℕ) : ℕ := (c.batch.queryLen.take j).sum

/-- How many tokens a row has. -/
def len (c : ScanCall F) (j : ℕ) : ℕ := c.batch.queryLen.getD j 0

/-- The form of the states that a call needs. -/
def geometry (c : ScanCall F) : Option (List ℕ × DType) :=
  (scanGeometry c.node c.op c.inputs c.batch.s).toOption

end ScanCall

/-- The state of a sequence before its first token. -/
def zeroState (handle : StateHandle) : ℕ → F := fun _ =>
  if handle.kind = .convWindow then Numeric.f16ToF32 0 else 0

/-- A number in a state. -/
def stored (handle : StateHandle) : F → F :=
  if handle.kind = .convWindow then written .f16 else written .f32

/-- The state of a sequence after a call, from its tokens in that call. -/
def ownStep (handle : StateHandle) (id : ℕ) (st : ℕ → F) (c : ScanCall F) : ℕ → F :=
  match c.row id, c.op.recurrence c.inputs with
  | some j, some r =>
    if c.op.handle = handle then fun i =>
      stored handle (((r.own (c.base j) (c.len j)).tail none st 0 0 (c.len j)).getD i 0)
    else st
  | _, _ => st

/-- The state of a sequence after some calls. -/
def ownState (handle : StateHandle) (id : ℕ) (calls : List (ScanCall F)) : ℕ → F :=
  calls.foldl (ownStep handle id) (zeroState handle)

/-- The state that a call reads. -/
def ScanCall.used (c : ScanCall F) : ℕ → F :=
  match if c.before.scanFlip c.op.handle then c.before.scanB c.op.handle
    else c.before.scanA c.op.handle with
  | some b => b.data.read
  | none => zeroState c.op.handle

/-- A call that succeeds, reads the own state of each sequence, and computes from it and from
the tokens of the sequence. -/
def Isolated (past : List (ScanCall F)) (c : ScanCall F) : Prop :=
  ∃ r y, c.op.recurrence c.inputs = some r ∧ c.result = .ok [y] ∧
    ∀ j id, c.batch.seqIds[j]? = some id →
      let st := ownState c.op.handle id past
      (∀ i < r.width, c.used (j * r.width + i) = st i) ∧
        ∀ i < c.len j * r.outWidth, y.data.read (c.base j * r.outWidth + i) =
          written y.dtype (((r.own (c.base j) (c.len j)).rows none st 0 0 (c.len j)).getD i 0)

/-- What a call checks: its operands, with states of the form it needs. -/
def ScanCall.accepts (c : ScanCall F) : Bool :=
  match c.outputs, c.geometry with
  | [out], some (shape, dtype) =>
    ((TypedBuffer.elements shape).any fun n => (TypedBuffer.byteLen dtype n).isSome) &&
      (seqLayout c.batch.queryLen : Except (ScanError F) (List ℕ)).isOk &&
      (c.op.validate c.inputs (.zeros shape dtype) c.batch.queryLen out (.zeros shape dtype)).isOk
  | _, _ => false

/-- Calls that pass their checks, and of which those on one handle list the same sequences in the
same order. -/
structure Steady (calls : List (ScanCall F)) : Prop where
  accepted : ∀ c ∈ calls, c.accepts
  lengths : ∀ c ∈ calls, c.batch.seqIds.length = c.batch.queryLen.length
  distinct : ∀ c ∈ calls, c.batch.seqIds.Nodup
  sequences : ∀ c ∈ calls, ∀ c' ∈ calls, c.op.handle = c'.op.handle →
    c.batch.seqIds = c'.batch.seqIds
  form : ∀ c ∈ calls, ∀ c' ∈ calls, c.op.handle = c'.op.handle → c.geometry = c'.geometry

/-! ### What the states hold -/

section Steps

/-- The states of the handles after some calls: nothing for a handle that was not used, and else
two buffers, of which the one that is read next has the own states of the sequences. -/
structure Tracks (calls : List (ScanCall F)) (st : ScanState F) : Prop where
  fresh : ∀ handle, (∀ c ∈ calls, c.op.handle ≠ handle) →
    st.scanA handle = none ∧ st.scanB handle = none
  used : ∀ c ∈ calls, ∀ shape dtype, c.geometry = some (shape, dtype) →
    ∃ a b, st.scanA c.op.handle = some a ∧ st.scanB c.op.handle = some b ∧
      a.IsSlot shape dtype ∧ b.IsSlot shape dtype ∧
      ∀ j id, c.batch.seqIds[j]? = some id → ∀ i < shape.tail.prod,
        (if st.scanFlip c.op.handle then b else a).data.read (j * shape.tail.prod + i) =
          ownState c.op.handle id calls i

variable {calls : List (ScanCall F)} {c : ScanCall F} {st : ScanState F} {shape : List ℕ}
  {dtype : DType} {n : ℕ}

theorem tracks_new : Tracks ([] : List (ScanCall F)) .new :=
  ⟨fun _ _ => ⟨rfl, rfl⟩, fun _ h => absurd h not_mem_nil⟩

omit [Numeric F] in
theorem seqLayout_eq {queryLen seq : List ℕ}
    (h : seqLayout queryLen = (.ok seq : Except (ScanError F) (List ℕ))) : seq = queryLen := by
  simp only [seqLayout, bind_eq_ok, pure_eq_ok] at h
  obtain ⟨-, -, -, -, h⟩ := h
  exact h.symm

theorem exists_ok {ε α : Type} {x : Except ε α} (h : x.isOk = true) : ∃ a, x = .ok a := by
  cases x with
  | error e => cases h
  | ok a => exact ⟨a, rfl⟩

theorem ScanCall.of_accepts (h : c.accepts = true) :
    ∃ out shape dtype n, c.outputs = [out] ∧ c.geometry = some (shape, dtype) ∧
      TypedBuffer.elements shape = some n ∧ (TypedBuffer.byteLen dtype n).isSome ∧
      seqLayout c.batch.queryLen = (.ok c.batch.queryLen : Except (ScanError F) (List ℕ)) ∧
      c.op.validate c.inputs (.zeros shape dtype) c.batch.queryLen out (.zeros shape dtype) =
        .ok () := by
  rw [ScanCall.accepts] at h
  split at h
  · next out shape dtype houts hgeo =>
    simp only [Bool.and_eq_true, Option.any_eq_true] at h
    obtain ⟨⟨⟨n, hn, hbytes⟩, hlayout⟩, hvalid⟩ := h
    obtain ⟨seq, hlayout⟩ := exists_ok hlayout
    obtain ⟨u, hvalid⟩ := exists_ok hvalid
    exact ⟨out, shape, dtype, n, houts, hgeo, hn, hbytes, seqLayout_eq hlayout ▸ hlayout, hvalid⟩
  · cases h

theorem ownState_append (handle : StateHandle) (id : ℕ) :
    ownState handle id (calls ++ [c]) = ownStep handle id (ownState handle id calls) c :=
  foldl_concat _ _ _ _

theorem ownStep_of_ne {handle : StateHandle} (h : c.op.handle ≠ handle) (id : ℕ) (own : ℕ → F) :
    ownStep handle id own c = own := by
  rw [ownStep]
  split
  · rw [if_neg h]
  · rfl

theorem ownState_of_fresh {handle : StateHandle} (h : ∀ c ∈ calls, c.op.handle ≠ handle) (id : ℕ) :
    ownState handle id calls = zeroState handle := by
  induction calls using List.reverseRecOn with
  | nil => rfl
  | append_singleton calls c ih =>
    rw [ownState_append, ownStep_of_ne (h c (by simp)), ih fun c' hc' => h c' (by simp [hc'])]

omit [Numeric F] in
theorem ScanCall.row_eq {j id : ℕ} (hdistinct : c.batch.seqIds.Nodup)
    (h : c.batch.seqIds[j]? = some id) : c.row id = some j := by
  obtain ⟨hj, hid⟩ := List.getElem?_eq_some_iff.mp h
  refine List.findIdx?_eq_some_iff_getElem.mpr ⟨hj, by simpa using hid, fun k hk => ?_⟩
  have hne : c.batch.seqIds[k] ≠ c.batch.seqIds[j] := fun heq =>
    absurd (hdistinct.getElem_inj_iff.mp heq) (by omega)
  simpa [← hid] using hne

theorem ownStep_eq {r : Recurrence F} {j id : ℕ} (hdistinct : c.batch.seqIds.Nodup)
    (hr : c.op.recurrence c.inputs = some r) (hid : c.batch.seqIds[j]? = some id) (own : ℕ → F)
    (i : ℕ) : ownStep c.op.handle id own c i =
      stored c.op.handle (((r.own (c.base j) (c.len j)).tail none own 0 0 (c.len j)).getD i 0) := by
  simp only [ownStep, c.row_eq hdistinct hid, hr, if_pos]

theorem stored_eq (hkind : c.op.handle.kind = c.op.kind)
    (hgeo : c.geometry = some (shape, dtype)) :
    (stored c.op.handle : F → F) = written dtype ∧
      ∀ n i, (TensorData.zeros dtype n : TensorData F).read i = zeroState c.op.handle i := by
  obtain ⟨node, op, inputs, outputs, batch, before, result⟩ := c
  cases op with
  | causalConv1d op =>
    rcases inputs with _ | ⟨x, inputs⟩
    · cases hgeo
    · cases hgeo
      have hkind : op.handle.kind = .convWindow := hkind
      refine ⟨?_, fun n i => ?_⟩
      · simp only [stored, ScanOp.handle, hkind, if_pos]
      · simp [zeroState, ScanOp.handle, hkind, TensorData.zeros, TensorData.read]
  | linearAttnScan op =>
    rcases inputs with _ | ⟨q, _ | ⟨k, _ | ⟨v, inputs⟩⟩⟩
    · cases hgeo
    · cases hgeo
    · cases hgeo
    · cases hgeo
      have hkind : op.handle.kind = .recurrent := hkind
      refine ⟨?_, fun n i => ?_⟩
      · simp [stored, ScanOp.handle, hkind]
      · simp [zeroState, ScanOp.handle, hkind, TensorData.zeros, TensorData.read]

theorem ensureSlot_zeros {name : String} (hbytes : (TypedBuffer.byteLen dtype n).isSome) :
    ensureSlot name shape n dtype (none : Option (TypedBuffer F)) = .ok (.zeros shape dtype) := by
  obtain ⟨bytes, hbytes⟩ := Option.isSome_iff_exists.mp hbytes
  rw [ensureSlot, hbytes]
  rfl

theorem ensureSlot_kept {name : String} {b : TypedBuffer F} (h : b.shape = shape) :
    ensureSlot name shape n dtype (some b) = .ok b := by
  rw [ensureSlot, if_neg (not_not.mpr h)]

theorem ensureScanSlots_eq {handle : StateHandle} {a b : TypedBuffer F}
    (hn : TypedBuffer.elements shape = some n)
    (ha : ensureSlot "A" shape n dtype (st.scanA handle) = .ok a)
    (hb : ensureSlot "B" shape n dtype (st.scanB handle) = .ok b) :
    ensureScanSlots handle shape dtype st = (.ok (a, b),
      ⟨Function.update st.scanA handle (some a), Function.update st.scanB handle (some b),
        st.scanFlip⟩) := by
  simp only [ensureScanSlots, hn, ha, hb]

theorem slots_own (htracks : Tracks calls st) (hsteady : Steady (calls ++ [c]))
    (hbefore : c.before = st) (hgeo : c.geometry = some (shape, dtype))
    (hkind : c.op.handle.kind = c.op.kind) (hn : TypedBuffer.elements shape = some n)
    (hbytes : (TypedBuffer.byteLen dtype n).isSome) :
    ∃ a b, ensureScanSlots c.op.handle shape dtype st = (.ok (a, b),
        ⟨Function.update st.scanA c.op.handle (some a),
          Function.update st.scanB c.op.handle (some b), st.scanFlip⟩) ∧
      a.IsSlot shape dtype ∧ b.IsSlot shape dtype ∧
      c.used = (if st.scanFlip c.op.handle then b else a).data.read ∧
      ∀ j id, c.batch.seqIds[j]? = some id → ∀ i < shape.tail.prod,
        (if st.scanFlip c.op.handle then b else a).data.read (j * shape.tail.prod + i) =
          ownState c.op.handle id calls i := by
  by_cases hused : ∃ c' ∈ calls, c'.op.handle = c.op.handle
  · obtain ⟨c', hc', hhandle⟩ := hused
    have hform := hsteady.form c' (by simp [hc']) c (by simp) hhandle
    have hids := hsteady.sequences c' (by simp [hc']) c (by simp) hhandle
    obtain ⟨a, b, hA, hB, ha, hb, hown⟩ := htracks.used c' hc' shape dtype (hform.trans hgeo)
    rw [hhandle] at hA hB hown
    rw [hids] at hown
    refine ⟨a, b, ensureScanSlots_eq hn ?_ ?_, ha, hb, ?_, hown⟩
    · rw [hA, ensureSlot_kept ha.shape_eq]
    · rw [hB, ensureSlot_kept hb.shape_eq]
    · rw [ScanCall.used, hbefore, hA, hB]
      cases st.scanFlip c.op.handle <;> rfl
  · have hfresh : ∀ c' ∈ calls, c'.op.handle ≠ c.op.handle := fun c' hc' h => hused ⟨c', hc', h⟩
    obtain ⟨hA, hB⟩ := htracks.fresh c.op.handle hfresh
    have hzero := (stored_eq hkind hgeo).2 shape.prod
    have hread : ∀ i, (TypedBuffer.zeros shape dtype : TypedBuffer F).data.read i =
        zeroState c.op.handle i := hzero
    refine ⟨.zeros shape dtype, .zeros shape dtype, ensureScanSlots_eq hn ?_ ?_, zeros_isSlot _ _,
      zeros_isSlot _ _, ?_, fun j id _ i _ => ?_⟩
    · rw [hA, ensureSlot_zeros hbytes]
    · rw [hB, ensureSlot_zeros hbytes]
    · rw [ScanCall.used, hbefore, hA, hB]
      funext i
      rw [ite_self, ite_self, hread]
    · rw [ite_self, hread, ownState_of_fresh hfresh]
      rfl

/-- A call changes the states of its handle to the next own states, and no others. -/
theorem Tracks.step {st' : ScanState F} {a b : TypedBuffer F} (htracks : Tracks calls st)
    (hsteady : Steady (calls ++ [c])) (hgeo : c.geometry = some (shape, dtype))
    (hother : ∀ handle, handle ≠ c.op.handle → st'.scanA handle = st.scanA handle ∧
      st'.scanB handle = st.scanB handle ∧ st'.scanFlip handle = st.scanFlip handle)
    (hA : st'.scanA c.op.handle = some a) (hB : st'.scanB c.op.handle = some b)
    (ha : a.IsSlot shape dtype) (hb : b.IsSlot shape dtype)
    (hown : ∀ j id, c.batch.seqIds[j]? = some id → ∀ i < shape.tail.prod,
      (if st'.scanFlip c.op.handle then b else a).data.read (j * shape.tail.prod + i) =
        ownStep c.op.handle id (ownState c.op.handle id calls) c i) :
    Tracks (calls ++ [c]) st' := by
  refine ⟨fun handle hfresh => ?_, fun c' hc' shape' dtype' hgeo' => ?_⟩
  · have hne : handle ≠ c.op.handle := fun h => hfresh c (by simp) h.symm
    obtain ⟨hA', hB', -⟩ := hother handle hne
    obtain ⟨hnoneA, hnoneB⟩ := htracks.fresh handle fun c' hc' => hfresh c' (by simp [hc'])
    exact ⟨hA'.trans hnoneA, hB'.trans hnoneB⟩
  · by_cases hhandle : c'.op.handle = c.op.handle
    · have hform := hsteady.form c' hc' c (by simp) hhandle
      have hids := hsteady.sequences c' hc' c (by simp) hhandle
      obtain ⟨rfl, rfl⟩ : shape' = shape ∧ dtype' = dtype := by
        have heq := Option.some.inj (hgeo'.symm.trans (hform.trans hgeo))
        exact ⟨congrArg Prod.fst heq, congrArg Prod.snd heq⟩
      rw [hhandle]
      refine ⟨a, b, hA, hB, ha, hb, fun j id hid i hi => ?_⟩
      rw [ownState_append]
      exact hown j id (hids ▸ hid) i hi
    · have hmem : c' ∈ calls := by
        rcases mem_append.mp hc' with h | h
        · exact h
        · exact absurd (congrArg (·.op.handle) (mem_singleton.mp h)) hhandle
      obtain ⟨hA', hB', hflip'⟩ := hother c'.op.handle hhandle
      obtain ⟨a', b', hkeptA, hkeptB, ha', hb', hkept⟩ := htracks.used c' hmem shape' dtype' hgeo'
      refine ⟨a', b', hA'.trans hkeptA, hB'.trans hkeptB, ha', hb', fun j id hid i hi => ?_⟩
      rw [ownState_append, ownStep_of_ne (Ne.symm hhandle), hflip']
      exact hkept j id hid i hi

/-- **A call** after calls that were steady, and with which it is steady, keeps its sequences
apart. -/
theorem call_isolated {st' : ScanState F} (htracks : Tracks calls st)
    (hsteady : Steady (calls ++ [c])) (hbefore : c.before = st)
    (hrun : dispatchScan c.node c.op c.inputs c.outputs c.batch st = (c.result, st')) :
    Isolated calls c ∧ Tracks (calls ++ [c]) st' := by
  obtain ⟨out, shape, dtype, n, houts, hgeo, hn, hbytes, hlayout, hvalid⟩ :=
    c.of_accepts (hsteady.accepted c (by simp))
  have hgeometry : scanGeometry c.node c.op c.inputs c.batch.s = .ok (shape, dtype) := by
    rw [ScanCall.geometry] at hgeo
    cases h : scanGeometry c.node c.op c.inputs c.batch.s with
    | error e =>
      rw [h] at hgeo
      cases hgeo
    | ok g =>
      rw [h] at hgeo
      rw [Option.some.inj hgeo]
  obtain ⟨r, hr⟩ := ScanOp.exists_recurrence hvalid
  have hkind := (ScanOp.fits hr hvalid).kind
  obtain ⟨-, -, hwidth, -⟩ := scanGeometry_eq hr hgeometry
  obtain ⟨a, b, hslots, ha, hb, hused, hown⟩ :=
    slots_own htracks hsteady hbefore hgeo hkind hn hbytes
  have hlengths := hsteady.lengths c (by simp)
  have hdistinct := hsteady.distinct c (by simp)
  have hstored := (stored_eq hkind hgeo).1
  have hvalid' : ∀ {read write : TypedBuffer F}, read.IsSlot shape dtype → write.IsSlot shape dtype →
      c.op.validate c.inputs read c.batch.queryLen out write = .ok () := fun hread hwrite =>
    (ScanOp.validate_congr hread (zeros_isSlot _ _) hwrite (zeros_isSlot _ _)).trans hvalid
  rw [hwidth] at hown
  have hrow : ∀ {j id}, c.batch.seqIds[j]? = some id → j < c.batch.queryLen.length := fun hid => by
    rw [← hlengths]
    exact (List.getElem?_eq_some_iff.mp hid).1
  simp only [dispatchScan, houts, hgeometry, hslots] at hrun
  cases hflip : st.scanFlip c.op.handle with
  | true =>
    simp only [hflip, if_true] at hrun hused hown
    obtain ⟨y, next, hover, -, hnext, hrows⟩ := scanOver_own hr hgeometry hlayout (hvalid' hb ha) hb ha
    rw [hover] at hrun
    obtain ⟨hresult, rfl⟩ := Prod.mk.inj hrun
    refine ⟨⟨r, y, hr, hresult.symm, fun j id hid => ⟨fun i hi => ?_, fun i hi => ?_⟩⟩, ?_⟩
    · rw [hused]
      exact hown j id hid i hi
    · exact (hrows j (hrow hid) _ (hown j id hid)).1 i hi
    · refine htracks.step hsteady hgeo (fun handle hne => ?_) ?_ ?_ hnext hb fun j id hid i hi => ?_
      · simp [Function.update_of_ne hne]
      · simp
      · simp
      · rw [hwidth] at hi ⊢
        rw [ownStep_eq hdistinct hr hid, hstored]
        simp only [Function.update_self]
        exact (hrows j (hrow hid) _ (hown j id hid)).2 i hi
  | false =>
    simp only [hflip] at hrun hused hown
    obtain ⟨y, next, hover, -, hnext, hrows⟩ := scanOver_own hr hgeometry hlayout (hvalid' ha hb) ha hb
    rw [if_neg Bool.false_ne_true, hover] at hrun
    obtain ⟨hresult, rfl⟩ := Prod.mk.inj hrun
    refine ⟨⟨r, y, hr, hresult.symm, fun j id hid => ⟨fun i hi => ?_, fun i hi => ?_⟩⟩, ?_⟩
    · rw [hused]
      exact hown j id hid i hi
    · exact (hrows j (hrow hid) _ (hown j id hid)).1 i hi
    · refine htracks.step hsteady hgeo (fun handle hne => ?_) ?_ ?_ ha hnext fun j id hid i hi => ?_
      · simp [Function.update_of_ne hne]
      · simp
      · simp
      · rw [hwidth] at hi ⊢
        rw [ownStep_eq hdistinct hr hid, hstored]
        simp only [Function.update_self]
        exact (hrows j (hrow hid) _ (hown j id hid)).2 i hi

end Steps

/-! ### Runs -/

section Runs

variable {ω κ σ : Type}

omit [Numeric F] in
theorem runNodes_keeps [Zero F] (d : Dispatch F ω κ σ) {P : σ → Prop} {g : Graph ω}
    {batch : BatchMeta} {args : κ}
    (hperform : ∀ node op inputs outputs s, P s → P (d.perform node op inputs outputs batch args s).2)
    (order : List ℕ) (ex : CpuExecutor F σ) (made : Store F) (h : P ex.state) :
    P (runNodes d g batch args order ex made).executor.state := by
  induction order generalizing ex made with
  | nil => exact h
  | cons i order ih =>
    rw [runNodes]
    split
    · exact h
    · next node hnode =>
      have hnode : P (runNode g d i node batch args ex.store ex.scales ex.state).2 := by
        rw [runNode]
        split
        · exact h
        · next outputs views _ =>
          have hstep := hperform i node.op views outputs ex.state h
          split
          · next heq =>
            rw [heq] at hstep
            exact hstep
          · next heq =>
            rw [heq] at hstep
            exact hstep
      split
      · next heq =>
        rw [heq] at hnode
        exact hnode
      · next heq =>
        rw [heq] at hnode
        exact ih _ _ hnode

omit [Numeric F] in
theorem CpuExecutor.calls_keeps [Zero F] (d : Dispatch F ω κ σ) {P : σ → Prop}
    (henter : ∀ args s, P s → P (d.enter args s))
    (hperform : ∀ node op inputs outputs batch args s, P s →
      P (d.perform node op inputs outputs batch args s).2)
    (l : List (ExecCall F ω κ)) (ex : CpuExecutor F σ) (h : P ex.state) : P (ex.calls d l).state := by
  induction l generalizing ex with
  | nil => exact h
  | cons c l ih =>
    refine ih _ ?_
    cases c with
    | bind e b => exact h
    | clearEdges => exact h
    | run g batch args =>
      change P (ex.run d g batch args).executor.state
      rw [CpuExecutor.run]
      split
      · exact h
      · exact runNodes_keeps d (fun node op inputs outputs s => hperform node op inputs outputs batch
          args s) _ _ _ (henter args ex.state h)

variable {op : ScanOp} {inputs outputs outs : List (TypedBuffer F)} {batch : BatchMeta} {node : ℕ}

theorem scanOver_shape {out read write y next : TypedBuffer F} {queryLen : List ℕ}
    (h : scanOver op inputs out queryLen read write = .ok (y, next)) : y.shape = out.shape := by
  rw [scanOver] at h
  simp only [bind_eq_ok] at h
  obtain ⟨seq, -, h⟩ := h
  cases hr : op.recurrence inputs with
  | none =>
    obtain ⟨e, he⟩ := ScanOp.execute_none hr read out write seq (chunkedForm queryLen)
    rw [he] at h
    cases h
  | some r =>
    rw [ScanOp.execute_eq hr] at h
    cases hvalid : op.validate inputs read seq out write with
    | error e =>
      rw [hvalid] at h
      cases h
    | ok u =>
      rw [hvalid] at h
      cases h
      rfl

theorem dispatchScan_shape {st st' : ScanState F}
    (h : dispatchScan node op inputs outputs batch st = (.ok outs, st')) :
    outs.map (·.shape) = outputs.map (·.shape) := by
  rw [dispatchScan.eq_def] at h
  split at h
  · next out =>
    split at h
    · cases h
    · split at h
      · cases h
      · split at h
        · split at h
          · cases h
          · next y a' hover =>
            cases h
            rw [map_singleton, map_singleton, scanOver_shape hover]
        · split at h
          · cases h
          · next y b' hover =>
            cases h
            rw [map_singleton, map_singleton, scanOver_shape hover]
  · cases h

/-- The executor's dispatch of convolutions and scans, beside the other operations. -/
def scanDispatch (d : Dispatch F ω κ σ) : Dispatch F (ScanOp ⊕ ω) κ (ScanLog F × σ) where
  handle
    | .inl op => some op.handle
    | .inr op => d.handle op
  enter args s := (s.1, d.enter args s.2)
  perform node op inputs outputs batch args s :=
    match op with
    | .inl op =>
      let (result, log) := s.1.perform node op (inputs.map (·.buffer)) outputs batch
      (result, log, s.2)
    | .inr op =>
      let (result, rest) := d.perform node op inputs outputs batch args s.2
      (result, s.1, rest)
  shape_eq := by
    intro node op inputs outputs batch args s s' outs h
    cases op with
    | inl op =>
      obtain ⟨h₁, -⟩ := Prod.mk.inj h
      have hrun : dispatchScan node op (inputs.map (·.buffer)) outputs batch s.1.state =
        (.ok outs, (dispatchScan node op (inputs.map (·.buffer)) outputs batch s.1.state).2) :=
        Prod.ext h₁ rfl
      exact dispatchScan_shape hrun
    | inr op =>
      obtain ⟨h₁, -⟩ := Prod.mk.inj h
      exact d.shape_eq (Prod.ext h₁ rfl)

/-- The calls of convolutions and scans that an executor has made. -/
def CpuExecutor.scanCalls (ex : CpuExecutor F (ScanLog F × σ)) : List (ScanCall F) :=
  ex.state.1.calls

theorem Steady.init {calls : List (ScanCall F)} {c : ScanCall F}
    (h : Steady (calls ++ [c])) : Steady calls where
  accepted c' hc' := h.accepted c' (by simp [hc'])
  lengths c' hc' := h.lengths c' (by simp [hc'])
  distinct c' hc' := h.distinct c' (by simp [hc'])
  sequences c' hc' c'' hc'' := h.sequences c' (by simp [hc']) c'' (by simp [hc''])
  form c' hc' c'' hc'' := h.form c' (by simp [hc']) c'' (by simp [hc''])

end Runs

/-! ### A sequence that takes the place of another one -/

/-- The batches of the runs. -/
def runBatches {ω κ : Type} (l : List (ExecCall F ω κ)) : List BatchMeta :=
  l.filterMap fun
    | .run _ batch _ => some batch
    | _ => none

/-- How many tokens of a sequence there were. -/
def tokensOf (id : ℕ) (past : List BatchMeta) : ℕ :=
  (past.map fun b => (((b.seqIds.zip b.queryLen).filter (·.1 = id)).map (·.2)).sum).sum

/-- The context of a sequence is empty in its first batch, and grows by its tokens. -/
def Following : List BatchMeta → List BatchMeta → Prop
  | _, [] => True
  | past, b :: rest => b.seqIds.Nodup ∧ b.seqIds.length = b.queryLen.length ∧
    b.ctxLen = b.seqIds.map (tokensOf · past) ∧ Following (past ++ [b]) rest

section Successor

def noOps : Dispatch Float32 Empty Unit Unit where
  handle op := op.elim
  enter _ s := s
  perform _ op _ _ _ _ _ := op.elim
  shape_eq {_ op} := op.elim

def scanTensor (shape : List Dim)
    (h : tensorProblems shape .f32 .none .contiguous (.device 0) .param = []) : Tensor :=
  ⟨shape, .f32, .none, .contiguous, .device 0, .replicated, .param, h⟩

def oneHead : List Dim := [.concrete 1, .concrete 1, .concrete 1]

def oneGate : List Dim := [.concrete 1, .concrete 1]

/-- A scan with one head of width one. -/
def plainScan : LinearAttnScanOp := ⟨.gla, 1, .f32, ⟨0, .recurrent⟩⟩

def plainScanCalls : Except GraphError (Graph (ScanOp ⊕ Empty)) := do
  let (q, g) ← (Graph.new 0).addTensor (scanTensor oneHead rfl)
  let (k, g) ← g.addTensor (scanTensor oneHead rfl)
  let (v, g) ← g.addTensor (scanTensor oneHead rfl)
  let (alpha, g) ← g.addTensor (scanTensor oneGate rfl)
  let (beta, g) ← g.addTensor (scanTensor oneGate rfl)
  let (_, g) ← g.addOp (.inl (.linearAttnScan plainScan)) [q, k, v, alpha, beta]
    [scanTensor oneHead rfl]
  pure g

def plainScanGraph : Graph (ScanOp ⊕ Empty) := plainScanCalls.toOption.getD (Graph.new 0)

def oneOf (shape : List ℕ) (h : 1 = shape.prod) : TypedBuffer Float32 :=
  ⟨shape, .f32 [1], .none, .contiguous, h⟩

/-- All operands are one. -/
def onesBound : List (ExecCall Float32 (ScanOp ⊕ Empty) Unit) :=
  [.bind 0 (oneOf [1, 1, 1] rfl), .bind 1 (oneOf [1, 1, 1] rfl), .bind 2 (oneOf [1, 1, 1] rfl),
    .bind 3 (oneOf [1, 1] rfl), .bind 4 (oneOf [1, 1] rfl)]

/-- A step with the first token of a sequence. -/
def firstToken (id : ℕ) : BatchMeta := ⟨1, 1, 1, 1, [id], [1], [0], .perToken [0], [0], [0], [0], none⟩

/-- Runs the first tokens of some sequences, in a step each. -/
def firstTokens (ids : List ℕ) : List (ExecCall Float32 (ScanOp ⊕ Empty) Unit) :=
  onesBound ++ ids.map fun id => .run plainScanGraph (firstToken id) ()

def firstTokensCalls (ids : List ℕ) : List (ScanCall Float32) :=
  ((CpuExecutor.new (ScanLog.new, ())).calls (scanDispatch noOps) (firstTokens ids)).scanCalls

/-- The first number of the output of a call. -/
def firstOutput (c : ScanCall Float32) : Option UInt32 :=
  match c.result with
  | .ok [y] => some (y.data.read 0).toBits
  | _ => none

/-- The first number that a sequence would get from its own tokens. -/
def firstExpected (past : List (ScanCall Float32)) (c : ScanCall Float32) (id : ℕ) :
    Option UInt32 :=
  match c.result, c.op.recurrence c.inputs with
  | .ok [y], some r => some (written y.dtype (((r.own (c.base 0) (c.len 0)).rows none
      (ownState c.op.handle id past) 0 0 (c.len 0)).getD 0 0)).toBits
  | _, _ => none

theorem Isolated.first_eq {past : List (ScanCall Float32)} {c : ScanCall Float32} {id : ℕ}
    (h : Isolated past c) (hid : c.batch.seqIds[0]? = some id)
    (hwidth : (c.op.recurrence c.inputs).any fun r => 0 < c.len 0 * r.outWidth) :
    firstOutput c = firstExpected past c id := by
  obtain ⟨r, y, hr, hresult, hrows⟩ := h
  rw [hr] at hwidth
  have hfirst := (hrows 0 id hid).2 0 (of_decide_eq_true hwidth)
  have hbase : c.base 0 = 0 := rfl
  rw [hbase, zero_mul, zero_add] at hfirst
  simp only [firstOutput, firstExpected, hresult, hr, hfirst, hbase]

end Successor

end R9v

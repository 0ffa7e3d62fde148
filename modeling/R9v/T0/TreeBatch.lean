import R9v.T0.Buffer
import R9v.T0.Verify

/-!
# The verification of a batch by the executor

The executor's `verify` (`r9v-t0/src/exec.rs`) takes its tree from the metadata of the
batch. That tree is over all tokens of the step, with the last verified token of each
sequence as a root, while the verification expects a tree over the draft tokens of one
sequence. A batch has more tokens than a sequence has draft tokens, so that no batch with
a tree is verified (`treeBatch_refused`).
-/

namespace R9v

open Checked List

variable {F : Type} [Numeric F]

/-! ### The dispatch -/

omit [Numeric F] in
/-- There must be as many items of the context as sequences. -/
def checkSamplingLen (node : ℕ) (op what : String) (got : ℕ) (batch : BatchMeta) :
    Except (ExecError F) ℕ := do
  ensure (got = batch.s) (.samplingContext node op what batch.s got batch.s)
  pure batch.s

omit [Numeric F] in
/-- Puts words in place of an output. -/
def replaceU32Output (node : ℕ) (op : String) (outputs : List (TypedBuffer F)) (position : ℕ)
    (shape : List ℕ) (values : List UInt32) : Except (ExecError F) (List (TypedBuffer F)) :=
  if h : values.length = shape.prod then do
    ensure ((outputs[position]?).map (·.shape) = some shape) (.dimensionMismatch "output" "graph"
      shape.prod "output" (((outputs[position]?).map (·.numElements)).getD 0))
    pure (outputs.set position (.ofU32 shape values h))
  else .error (.t0 (.shapeLengthMismatch op "output" shape.prod values.length
    s!"node {node} output {position} length mismatch"))

/-- The operands of a verification. -/
def verifyOperands (node : ℕ) (method : VerifyMethod F) (inputs : List (TensorView F))
    (outputs : List (TypedBuffer F)) (batch : BatchMeta) (rngs : ℕ) :
    Except (ExecError F) (VerifyInput F) := do
  let s ← checkSamplingLen node "verify" "rng" rngs batch
  let count := ExecError.invalidAttribute "verify" "inputs/outputs"
    (s!"verify requires 2 or 3 inputs and 2 outputs, got {inputs.length} inputs " ++
      s!"and {outputs.length} outputs")
  match inputs with
  | draft :: target :: rest => do
    ensure (rest.length ≤ 1 ∧ outputs.length = 2) count
    let shape := draft.buffer.shape
    ensure (shape.length = 2 ∧ shape.headD 0 = s)
      (.dimensionMismatch "S" "batch" s "draft_tokens" (shape.headD 0))
    pure {
      draftTokens := draft.buffer.u32s.map (·.toNat)
      draftProbs := rest.head?.map fun dp => dp.buffer.f32s
      targetProbs := target.buffer.f32s
      s := s
      k := shape.getD 1 0
      v := (target.buffer.shape.getLast?).getD 0
      method := method
      tree := batch.tree }
  | _ => .error count

/-- Verifies the draft tokens of a step: the outputs, and the states of the random numbers. -/
def dispatchVerify (draw : RngState → ℕ → F) (node : ℕ) (method : VerifyMethod F)
    (inputs : List (TensorView F)) (outputs : List (TypedBuffer F)) (batch : BatchMeta)
    (rngs : List RngState) : Except (ExecError F) (List (TypedBuffer F)) × List RngState :=
  match verifyOperands node method inputs outputs batch rngs.length with
  | .error e => (.error e, rngs)
  | .ok x =>
    let out := x.verify draw rngs
    match out.result with
    | .error e => (.error (.t0 e), out.states)
    | .ok r => (do
      let outputs ← replaceU32Output node "verify" outputs 0 [x.s, x.k + 1]
        (r.accepted.map UInt32.ofNat)
      replaceU32Output node "verify" outputs 1 [x.s] (r.acceptLen.map UInt32.ofNat), out.states)

/-! ### Batches with a tree -/

omit [Numeric F] in
/-- The forest of the draft tokens of a sequence whose tokens begin at `base`: the token at
`base` is the last verified one, and its children become roots. -/
def draftForest (parents : List ℤ) (base k : ℕ) : List ℤ :=
  (List.range k).map fun j =>
    let parent := parents.getD (base + 1 + j) (-1)
    if parent ≤ base then -1 else parent - (base + 1)

/-- A step that verifies `k` draft tokens for each of its sequences, with a tree: its metadata
comes from the builder, each sequence has its last verified token and its draft tokens, and
everything but the tree is accepted. -/
structure TreeBatch (F : Type) [Numeric F] where
  builder : BatchMetaBuilder
  batch : BatchMeta
  built : builder.build = .ok batch
  mask : TreeMask
  tree_eq : batch.tree = some mask
  k : ℕ
  query_eq : ∀ q ∈ batch.queryLen, q = k + 1
  v : ℕ
  draft : TypedBuffer F
  draft_shape : draft.shape = [batch.s, k]
  target : TypedBuffer F
  target_shape : target.shape = [batch.s, k + 1, v]
  draftProbs : Option (TypedBuffer F)
  method : VerifyMethod F
  outputs : List (TypedBuffer F)
  outputs_shape : outputs.map (·.shape) = [[batch.s, k + 1], [batch.s]]
  rngs : List RngState
  accepted : VerifyInput.Accepts ⟨draft.u32s.map (·.toNat), draftProbs.map (·.f32s), target.f32s,
    batch.s, k, v, method, none⟩ rngs

namespace TreeBatch

variable (x : TreeBatch F)

/-- The operands, with a tree. -/
def input (tree : Option TreeMask) : VerifyInput F :=
  ⟨x.draft.u32s.map (·.toNat), x.draftProbs.map (·.f32s), x.target.f32s, x.batch.s, x.k, x.v,
    x.method, tree⟩

/-- The operands of one sequence, with a tree of its own. -/
def alone (seq : ℕ) (tree : TreeMask) : VerifyInput F where
  draftTokens := ((x.input none).seqDraft seq).tokens
  draftProbs := ((x.input none).seqDraft seq).draftProbs
  targetProbs := ((x.input none).seqDraft seq).targetProbs
  s := 1
  k := x.k
  v := x.v
  method := x.method
  tree := some tree

/-- What the executor does with the step. -/
def dispatch (draw : RngState → ℕ → F) (node : ℕ) :
    Except (ExecError F) (List (TypedBuffer F)) × List RngState :=
  dispatchVerify draw node x.method
    (⟨x.draft, none⟩ :: ⟨x.target, none⟩ :: x.draftProbs.toList.map (⟨·, none⟩)) x.outputs x.batch
    x.rngs

/-- The step is verified, and each sequence as if it were alone with the forest of its own draft
tokens. -/
def Verifiable (draw : RngState → ℕ → F) (node : ℕ) : Prop :=
  ∃ accepted acceptLen, ∃ rngs : List RngState, x.dispatch draw node = (.ok [accepted, acceptLen], rngs) ∧
    ∀ seq rng tree, x.rngs[seq]? = some rng →
      tree.parents = draftForest x.mask.parents (seq * (x.k + 1)) x.k →
      ∃ out, ((x.alone seq tree).verify draw [rng]).result = .ok out ∧
        ((accepted.u32s.drop (seq * (x.k + 1))).take (x.k + 1)).map (·.toNat) = out.accepted ∧
        [(acceptLen.u32s.getD seq 0).toNat] = out.acceptLen

/-! ### No batch with a tree is verified -/

omit [Numeric F] in
theorem checkLen_snd {field : String} {value : Option (List ℕ)} {n : ℕ} {l : List ℕ}
    (h : (checkLen field value (some n)).2 = some l) : l.length = n := by
  cases value with
  | none => cases h
  | some l' =>
    simp only [checkLen] at h
    split_ifs at h with hlen
    obtain rfl := Option.some.inj h
    exact hlen

theorem build_tokens {b : BatchMetaBuilder} {m : BatchMeta} (h : b.build = .ok m) :
    0 < m.s ∧ m.queryLen.length = m.s ∧ m.queryLen.sum = m.t ∧
      ∀ tree ∈ m.tree, tree.parents.length = m.t := by
  simp only [BatchMetaBuilder.build, bind_eq_ok, lift_eq_ok, IrError.fromProblems_eq_ok,
    append_eq_nil_iff, orPanic_eq_ok, pure_eq_ok] at h
  obtain ⟨problems, htree, -, ⟨⟨hmore, hqueries⟩, rfl⟩, _, -, queryLen, hquery, _, -, _, -, _, -,
    _, -, _, -, rfl⟩ := h
  obtain ⟨⟨⟨⟨⟨⟨⟨⟨⟨⟨hzero, -⟩, -⟩, -⟩, -⟩, -⟩, -⟩, -⟩, -⟩, -⟩, -⟩ := hmore
  rw [hquery] at htree hqueries
  simp only [append_eq_nil_iff, ite_not, ite_eq_left_iff, cons_ne_nil,
    imp_false, not_not] at hqueries
  have hpos : 0 < b.s := by
    by_contra hs
    rw [if_pos (by omega)] at hzero
    cases hzero
  refine ⟨hpos, checkLen_snd hquery, hqueries.2, fun tree hmem => ?_⟩
  have hsome : b.tree = some tree := hmem
  by_contra hne
  have hlen : tree.parents.length ≠ b.t := hne
  simp [BatchMetaBuilder.treeProblems, hsome, hlen] at htree

theorem tree_length : x.mask.parents.length = x.batch.s * (x.k + 1) := by
  obtain ⟨-, hlen, hsum, htree⟩ := build_tokens x.built
  rw [htree x.mask x.tree_eq, ← hsum, eq_replicate_of_mem x.query_eq, sum_replicate,
    hlen, Nat.nsmul_eq_mul]

theorem operands_eq (node : ℕ) : verifyOperands node x.method
    (⟨x.draft, none⟩ :: ⟨x.target, none⟩ :: x.draftProbs.toList.map (⟨·, none⟩)) x.outputs x.batch
    x.rngs.length = .ok (x.input (some x.mask)) := by
  have hprobs : (x.draftProbs.toList.map fun dp => (⟨dp, none⟩ : TensorView F)).length ≤ 1 := by
    cases x.draftProbs <;> simp
  have houts : x.outputs.length = 2 := by
    have := congrArg List.length x.outputs_shape
    rwa [length_map] at this
  have hlast : (x.target.shape.getLast?).getD 0 = x.v := by rw [x.target_shape]; rfl
  have hhead : ((x.draftProbs.toList.map fun dp => (⟨dp, none⟩ : TensorView F)).head?.map
      fun dp => dp.buffer.f32s) = x.draftProbs.map (·.f32s) := by
    cases x.draftProbs <;> rfl
  have hs : checkSamplingLen node "verify" "rng" x.rngs.length x.batch =
      (.ok x.batch.s : Except (ExecError F) ℕ) := by
    rw [checkSamplingLen, ensure_of x.accepted.rngs_length, ok_bind]
    rfl
  rw [verifyOperands, hs, ok_bind]
  simp only [x.draft_shape]
  rw [ensure_of ⟨hprobs, houts⟩, ok_bind, ensure_of ⟨rfl, rfl⟩, ok_bind, hlast, hhead, x.tree_eq]
  rfl

/-- The only thing that is wrong with the operands is the tree. -/
theorem verify_eq (draw : RngState → ℕ → F) : (x.input (some x.mask)).verify draw x.rngs =
    ⟨.error (.shapeLengthMismatch "verify" "tree" x.k (x.batch.s * (x.k + 1))
      s!"TreeMask token count T({x.batch.s * (x.k + 1)}) != k({x.k})"), x.rngs, []⟩ := by
  obtain ⟨hpos, -, -, -⟩ := build_tokens x.built
  have hacc := x.accepted
  have hshapes : (x.input (some x.mask)).checkShapes x.rngs = .ok () :=
    VerifyInput.checkShapes_eq_ok.mpr ⟨hacc.s_pos, hacc.v_pos, hacc.k_lt, hacc.tokens_length,
      hacc.tokens_lt, hacc.draft_length, hacc.target_length, hacc.size_lt, hacc.rngs_length⟩
  have hlt : x.k < x.mask.parents.length := by
    rw [x.tree_length]
    exact lt_of_lt_of_le (Nat.lt_succ_self x.k) (Nat.le_mul_of_pos_left _ hpos)
  have htree : (x.input (some x.mask)).checkTree (some x.mask) =
      .error (.shapeLengthMismatch "verify" "tree" x.k (x.batch.s * (x.k + 1))
        s!"TreeMask token count T({x.batch.s * (x.k + 1)}) != k({x.k})") := by
    rw [VerifyInput.checkTree, ← x.tree_length]
    exact ensure_of_not fun h => absurd h hlt.ne'
  have hvalues : (x.input (some x.mask)).checkValues x.rngs =
      .error (.shapeLengthMismatch "verify" "tree" x.k (x.batch.s * (x.k + 1))
        s!"TreeMask token count T({x.batch.s * (x.k + 1)}) != k({x.k})") := by
    have hmethod : VerifyInput.checkMethod (x.input (some x.mask)).method = .ok () := hacc.method_ok
    rw [VerifyInput.checkValues, hmethod, ok_bind]
    exact bind_eq_error.mpr (Or.inl htree)
  rw [VerifyInput.verify, hshapes, ok_bind, hvalues]

/-- **No batch with a tree is verified**: the tree has a node for each token of the step, which
is never the number of draft tokens of a sequence. -/
theorem treeBatch_refused (draw : RngState → ℕ → F) (node : ℕ) :
    x.dispatch draw node = (.error (.t0 (.shapeLengthMismatch "verify" "tree" x.k
      (x.batch.s * (x.k + 1)) s!"TreeMask token count T({x.batch.s * (x.k + 1)}) != k({x.k})")),
      x.rngs) ∧ ¬x.Verifiable draw node := by
  have heq : x.dispatch draw node = (.error (.t0 (.shapeLengthMismatch "verify" "tree" x.k
      (x.batch.s * (x.k + 1)) s!"TreeMask token count T({x.batch.s * (x.k + 1)}) != k({x.k})")),
      x.rngs) := by
    rw [dispatch, dispatchVerify, x.operands_eq node]
    simp only [x.verify_eq draw]
  refine ⟨heq, fun h => ?_⟩
  obtain ⟨_, _, _, hok, -⟩ := h
  rw [heq] at hok
  cases hok

end TreeBatch

/-! ### A token after the last verified one -/

/-- The last verified token of a sequence, and one draft token after it. -/
def pairMask : TreeMask where
  parents := [-1, 0]
  tMax := 2
  ancestors := [true, false, true, true]
  valid := by decide

def pairBuilder : BatchMetaBuilder where
  g := 1
  s := 1
  t := 2
  maxBlocks := 1
  seqIds := some [1]
  queryLen := some [2]
  ctxLen := some [0]
  positions := some (.perToken [0, 1])
  slotMap := some [0, 1]
  blockTable := some [0]
  windowStart := some [0]
  tree := some pairMask

def pairMeta : BatchMeta where
  g := 1
  s := 1
  t := 2
  maxBlocks := 1
  seqIds := [1]
  queryLen := [2]
  ctxLen := [0]
  positions := .perToken [0, 1]
  slotMap := [0, 1]
  blockTable := [0]
  windowStart := [0]
  tree := some pairMask

/-- The distributions of the target, one after each of the two tokens. -/
def pairTarget : TypedBuffer Float32 where
  shape := [1, 2, 2]
  data := .f32 [0.5, 0.5, 0.25, 0.75]
  quant := .none
  layout := .contiguous
  holds := rfl

/-- The operands of the pair, without the tree. -/
def pairInput : VerifyInput Float32 := ⟨[1], none, [0.5, 0.5, 0.25, 0.75], 1, 1, 2, .greedy, none⟩

theorem pair_accepted : pairInput.Accepts [firstState] := by
  refine VerifyInput.accepts_iff.mp ?_
  cases h : (do pairInput.checkShapes [firstState]; pairInput.checkValues [firstState] :
    Except (T0Error Float32) Unit) with
  | ok u => rfl
  | error e =>
    have hok : (do pairInput.checkShapes [firstState]; pairInput.checkValues [firstState] :
      Except (T0Error Float32) Unit).toBool = true := by decide
    rw [h] at hok
    cases hok

/-- The step of the pair. -/
def pairBatch : TreeBatch Float32 where
  builder := pairBuilder
  batch := pairMeta
  built := rfl
  mask := pairMask
  tree_eq := rfl
  k := 1
  query_eq := by decide
  v := 2
  draft := .ofU32 [1, 1] [1] rfl
  draft_shape := rfl
  target := pairTarget
  target_shape := rfl
  draftProbs := none
  method := .greedy
  outputs := [.ofU32 [1, 2] [0, 0] rfl, .ofU32 [1] [0] rfl]
  outputs_shape := rfl
  rngs := [firstState]
  accepted := pair_accepted

/-- The step of the pair is refused, and its sequence alone is verified. -/
theorem pairBatch_refused : (pairBatch.dispatch RngState.drawAt 0).1.toBool = false ∧
    ((pairBatch.alone 0 ⟨draftForest pairMask.parents 0 1, 1, [true], by decide⟩).verify
      RngState.drawAt [firstState]).result.toBool = true ∧
    ¬pairBatch.Verifiable RngState.drawAt 0 := by
  refine ⟨by decide +kernel, by decide +kernel, ?_⟩
  rintro ⟨accepted, acceptLen, rngs, hok, -⟩
  have hfalse : (pairBatch.dispatch RngState.drawAt 0).1.toBool = false := by decide +kernel
  rw [hok] at hfalse
  cases hfalse

theorem treeBatch_refused_pair : ¬pairBatch.Verifiable RngState.drawAt 0 :=
  (pairBatch.treeBatch_refused RngState.drawAt 0).2

end R9v

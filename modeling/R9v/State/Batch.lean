import R9v.State.Calls
import R9v.Ir.Batch

/-!
# The metadata of a step

The manager describes a step to the device in two ways. `batchMetaWithOptions`
builds an owned `BatchMeta`, through its checked builder. On the hot path the two
fills write the same tensors into a workspace that the caller keeps from step to
step (`BatchWorkspace`), the tree of draft tokens being an owned mask or borrowed
slices. The three share the plan of the batch (`planBatch`) and the emission of its
tensors (`emitBatchInto`), and each does the rest of its checks itself.

The vectors of a workspace have a capacity, and a fill refuses one that is too
small. A fill returns the workspace as it is when the fill succeeds; what a fill
that fails leaves behind is not modelled, as the next one clears every vector
first.
-/

namespace R9v

open Checked

/-- The entry of a block table where there is no block. -/
def blockTableSentinel : ℕ := u32Max

/-- The slot of a position: its block, and its lane in the block. -/
def flattenSlot (s : SeqState) (group pos stop : ℕ) : StateResult ℕ := do
  let missing : StateError := .unmappedPosition group pos stop
  let indices ← okOr s.indices[group]? missing
  let tables ← okOr s.tables[group]? missing
  let block := pos / blockTokens
  let lane := pos % blockTokens
  let pos := Sorted.partitionPoint (· < block) indices
  ensure (indices[pos]? = some block) missing
  let id ← okOr tables[pos]? missing
  okOr (((mul 64 id blockTokens).bind fun v => add 64 v lane).bind (narrow 32)) (.overflow "slot id")

namespace StateManager

/-! ### The plan -/

/-- The dimensions of a batch that passed its checks. -/
structure BatchPlan where
  totalTokens : ℕ
  totalU64 : ℕ
  deriving DecidableEq

/-- The problems of one sequence of a batch, and the tokens so far. -/
def planRow (m : StateManager) (acc : List String × ℕ) (x : (SeqId × ℕ) × ℕ) : List String × ℕ :=
  let ((seq, q), i) := x
  match m.seq seq with
  | .error _ => (acc.1 ++ [s!"batch[{i}]: unknown sequence {seq}"], acc.2)
  | .ok s =>
    let problems := acc.1 ++
      (if q = 0 ∨ s.tailLen < q then
        [s!"batch[{i}]: query_len={q} not in 1..={s.tailLen} (tail)"] else []) ++
      match add 32 s.ctxLen q with
      | some stop =>
        if stop ≤ m.config.maxCtx then []
        else [s!"batch[{i}]: ctx_len={s.ctxLen} + query_len={q} exceeds max_ctx={m.config.maxCtx}"]
      | none =>
        [s!"batch[{i}]: ctx_len={s.ctxLen} + query_len={q} exceeds max_ctx={m.config.maxCtx}"]
    match add 64 acc.2 q with
    | some next => (problems, next)
    | none => (problems ++ [s!"batch[{i}]: token total overflows"], acc.2)

/-- The sequences that occur twice. -/
def planDuplicates (seqs : List SeqId) : List String :=
  seqs.zipIdx.flatMap fun (seq, i) =>
    if seq ∈ seqs.take i then [s!"batch[{i}]: duplicate sequence {seq}"] else []

/-- Validates a batch. -/
def planBatch (m : StateManager) (seqs : List SeqId) (queryLens : List ℕ)
    (positionsLen treeT : Option ℕ) : StateResult BatchPlan := do
  ensure (seqs.length = queryLens.length)
    (.invalidBatch s!"seqs={seqs.length} query_lens={queryLens.length}")
  ensure (seqs ≠ []) (.invalidBatch "empty batch")
  forM seqs fun seq => ensure (seq ≤ u32Max) (.seqIdOverflow seq u32Max)
  let (problems, total) := (seqs.zip queryLens).zipIdx.foldl (planRow m) (planDuplicates seqs, 0)
  let problems := problems ++
    if maxBatchTokensHard < total then
      [s!"batch tokens={total} exceed cap {maxBatchTokensHard}"] else []
  let totalTokens ← okOr (narrow 64 total) (.overflow "total tokens conversion")
  let problems := problems ++
    match positionsLen with
    | some len =>
      if len ≠ totalTokens then [s!"positions len {len} != total tokens {totalTokens}"] else []
    | none => []
  let problems := problems ++
    match treeT with
    | some t =>
      if t ≠ totalTokens then [s!"tree token count {t} != total tokens {totalTokens}"] else []
    | none => []
  ensure (problems = []) (.invalidBatch ("; ".intercalate problems))
  pure ⟨totalTokens, total⟩

/-! ### The tensors -/

/-- The tensors of a batch. -/
structure Tensors where
  seqIds : List ℕ
  ctxLens : List ℕ
  /-- The default positions, when they are asked for. -/
  positions : List ℕ
  slotMap : List ℕ
  blockTable : List ℕ
  windowStart : List ℕ
  deriving DecidableEq

def vanished : StateError := .invalidBatch "sequence vanished during batch build"

/-- The sequence, which was there when the batch was planned. -/
def batchSeq (m : StateManager) (k : SeqId) : StateResult SeqState := okOr m.seqs[k]? vanished

/-- The positions of the tokens of one sequence. -/
def emitPositions (ctx q : ℕ) : StateResult (List ℕ) :=
  (List.range q).mapM fun k => okOr (add 32 ctx k) (.overflow "batch position")

/-- The slots of the tokens of one sequence in a paged group. -/
def emitSlots (m : StateManager) (gi : ℕ) (x : SeqId × ℕ) : StateResult (List ℕ) := do
  let s ← m.batchSeq x.1
  let stop ← okOr (add 32 s.ctxLen x.2) (.overflow "batch reserved end")
  (List.range x.2).mapM fun k => do
    let pos ← okOr (add 32 s.ctxLen k) (.overflow "batch position")
    flattenSlot s gi pos stop

/-- Where a block index of a sequence stands in the flat block table. -/
def blockCell (gi seqs si maxB idx : ℕ) : Option ℕ := do
  let v ← mul 64 gi seqs
  let v ← add 64 v si
  let v ← mul 64 v maxB
  add 64 v idx

/-- Enters the block of one index in the row of a sequence. -/
def emitBlock (k : SeqId) (ids : List ℕ) (gi seqs si maxB : ℕ) (table : List ℕ) (x : ℕ × ℕ) :
    StateResult (List ℕ) := do
  let (idx, pos) := x
  let id ← okOr ids[pos]? (.invalidBatch s!"sequence {k} has no table")
  ensure (idx < maxB) (.overflow "block table index")
  let offset ← okOr (blockCell gi seqs si maxB idx) (.overflow "block table offset")
  ensure (offset < table.length) (.overflow "block table index")
  pure (table.set offset id)

/-- The first position that a group retains of a sequence. -/
def emitWindow (s : SeqState) (g : LayerGroup) : ℕ :=
  match g.spec.retain with
  | none | some .all => 0
  | some (.window w) | some (.sinkWindow _ w) => windowStartOf s.ctxLen w

/-- The blocks of one sequence in the block table of a group. -/
def emitBlocks (s : SeqState) (k : SeqId) (g : LayerGroup) (gi seqs si maxB : ℕ)
    (table : List ℕ) : StateResult (List ℕ) :=
  if g.spec.isPaged then do
    let indices ← okOr s.indices[gi]? (.invalidBatch s!"sequence {k} has no table")
    let ids ← okOr s.tables[gi]? (.invalidBatch s!"sequence {k} has no table")
    indices.zipIdx.foldlM (emitBlock k ids gi seqs si maxB) table
  else pure table

/-- The row of one sequence in the block table of a group, and its window. -/
def emitRow (m : StateManager) (g : LayerGroup) (gi seqs maxB : ℕ) (acc : List ℕ × List ℕ)
    (x : SeqId × ℕ) : StateResult (List ℕ × List ℕ) := do
  let s ← m.batchSeq x.1
  let table ← emitBlocks s x.1 g gi seqs x.2 maxB acc.1
  pure (table, acc.2 ++ [emitWindow s g])

/-- The slots of one group. -/
def emitGroupSlots (m : StateManager) (seqs : List SeqId) (queryLens : List ℕ) (total : ℕ)
    (x : LayerGroup × ℕ) : StateResult (List ℕ) :=
  if x.1.spec.isPaged then List.flatten <$> (seqs.zip queryLens).mapM (m.emitSlots x.2)
  else pure (List.replicate total slotNone)

/-- The slots and the rows of one group. -/
def emitGroup (m : StateManager) (seqs : List SeqId) (queryLens : List ℕ) (total maxB : ℕ)
    (acc : List ℕ × List ℕ × List ℕ) (x : LayerGroup × ℕ) :
    StateResult (List ℕ × List ℕ × List ℕ) := do
  let slots ← m.emitGroupSlots seqs queryLens total x
  let rows ← seqs.zipIdx.foldlM (m.emitRow x.1 x.2 seqs.length maxB) (acc.2.1, acc.2.2)
  pure (acc.1 ++ slots, rows)

/-- The context length of one sequence, and its default positions when they are
asked for. -/
def emitSeq (m : StateManager) (wantPositions : Bool) (x : SeqId × ℕ) :
    StateResult (ℕ × List ℕ) := do
  let s ← m.batchSeq x.1
  let positions ← if wantPositions then emitPositions s.ctxLen x.2 else pure []
  pure (s.ctxLen, positions)

/-- Emits the tensors of a planned batch; the block table arrives filled with
sentinels. -/
def emitBatchInto (m : StateManager) (seqs : List SeqId) (queryLens : List ℕ) (plan : BatchPlan)
    (wantPositions : Bool) (blockTable : List ℕ) : StateResult Tensors := do
  let seqIds ← seqs.mapM fun seq => okOr (narrow 32 seq) (.seqIdOverflow seq u32Max)
  let rows ← (seqs.zip queryLens).mapM (m.emitSeq wantPositions)
  let maxB ← okOr (narrow 64 m.maxBlocks) (.overflow "max blocks conversion")
  let flat ← m.groups.zipIdx.foldlM (m.emitGroup seqs queryLens plan.totalTokens maxB)
    ([], blockTable, [])
  pure ⟨seqIds, rows.map (·.1), (rows.map (·.2)).flatten, flat.1, flat.2.1, flat.2.2⟩

/-- The lengths of the flat tensors: slots, blocks and windows. -/
def batchNeeds (m : StateManager) (seqs tokens : ℕ) : StateResult (ℕ × ℕ × ℕ) := do
  let slots ← okOr (mul 64 m.groups.length tokens) (.overflow "flat slot map size")
  let maxB ← okOr (narrow 64 m.maxBlocks) (.overflow "max blocks conversion")
  let blocks ← okOr ((mul 64 m.groups.length seqs).bind fun v => mul 64 v maxB)
    (.overflow "flat block table size")
  let windows ← okOr (mul 64 m.groups.length seqs) (.overflow "flat window start size")
  pure (slots, blocks, windows)

/-- An error of the operation representation, as the manager returns it. -/
def liftIr {α : Type} (x : Except (Fault IrError) α) : Outcome α :=
  match x with
  | .ok a => .ok a
  | .error (.err e) => .error (fail (.ir e))
  | .error .panic => .error .panic

/-- Builds the owned metadata of a step. -/
def batchMetaWithOptions (m : StateManager) (seqs : List SeqId) (queryLens : List ℕ)
    (positions : Option Positions) (tree : Option TreeMask) : Outcome BatchMeta := do
  let plan ← lift (m.planBatch seqs queryLens (positions.map (·.len)) (tree.map (·.parents.length)))
  let needs ← lift (m.batchNeeds seqs.length plan.totalTokens)
  let tensors ← lift (m.emitBatchInto seqs queryLens plan true
    (List.replicate needs.2.1 blockTableSentinel))
  let finalPositions := positions.getD (.perToken tensors.positions)
  let numGroups ← okOr (narrow 32 m.groups.length) (fail (.overflow "batch meta group count"))
  let numSeqs ← okOr (narrow 32 seqs.length) (fail (.overflow "batch meta seq count"))
  let totalTokens ← okOr (narrow 32 plan.totalU64) (fail (.overflow "batch meta total tokens"))
  liftIr (BatchMetaBuilder.build
    { g := numGroups
      s := numSeqs
      t := totalTokens
      maxBlocks := m.maxBlocks
      seqIds := some tensors.seqIds
      queryLen := some queryLens
      ctxLen := some tensors.ctxLens
      positions := some finalPositions
      slotMap := some tensors.slotMap
      blockTable := some tensors.blockTable
      windowStart := some tensors.windowStart
      tree })

end StateManager

/-! ### The workspace -/

/-- A vector with its capacity. -/
structure Buf (α : Type) where
  data : List α
  capacity : ℕ

/-- The vector cleared and filled again: it grows when it has to. -/
def Buf.fill {α : Type} (b : Buf α) (data : List α) : Buf α := ⟨data, max b.capacity data.length⟩

/-- The tree of a step, as the scheduler lends it. -/
structure TreeInput where
  parents : List ℤ
  tMax : ℕ
  ancestors : List Bool
  deriving DecidableEq

/-- The buffers that a caller keeps for the metadata of its steps. -/
structure BatchWorkspace where
  lastG : ℕ
  lastS : ℕ
  lastT : ℕ
  lastMaxBlocks : ℕ
  lastPositionWidth : ℕ
  seqIds : Buf ℕ
  queryLens : Buf ℕ
  ctxLens : Buf ℕ
  positions : Buf ℕ
  positionsMrope : Buf (ℕ × ℕ × ℕ)
  slotMap : Buf ℕ
  blockTable : Buf ℕ
  windowStart : Buf ℕ
  idScratch : Buf ℕ
  tree : Option TreeMask
  treeParents : Buf ℤ
  treeAncestors : Buf Bool
  treeTMax : ℕ
  treeLen : ℕ
  treeAncLen : ℕ
  treePresent : Bool
  treeCycleState : Buf ℕ
  treeCyclePath : Buf ℕ

namespace BatchWorkspace

/-- A workspace with room for the given dimensions, and none for a tree. -/
def tryWithCapacity (groups maxSeqs maxTokens maxBlocks : ℕ) : StateResult BatchWorkspace := do
  let maxB ← okOr (narrow 64 maxBlocks) (.overflow "workspace max blocks")
  let needSlot ← okOr (mul 64 groups maxTokens) (.overflow "workspace slot map size")
  let needBlock ← okOr ((mul 64 groups maxSeqs).bind fun v => mul 64 v maxB)
    (.overflow "workspace block table size")
  let needWindow ← okOr (mul 64 groups maxSeqs) (.overflow "workspace window start size")
  pure
    { lastG := 0
      lastS := 0
      lastT := 0
      lastMaxBlocks := 0
      lastPositionWidth := 0
      seqIds := ⟨[], maxSeqs⟩
      queryLens := ⟨[], maxSeqs⟩
      ctxLens := ⟨[], maxSeqs⟩
      positions := ⟨[], maxTokens⟩
      positionsMrope := ⟨[], maxTokens⟩
      slotMap := ⟨[], needSlot⟩
      blockTable := ⟨[], needBlock⟩
      windowStart := ⟨[], needWindow⟩
      idScratch := ⟨[], maxSeqs⟩
      tree := none
      treeParents := ⟨[], 0⟩
      treeAncestors := ⟨[], 0⟩
      treeTMax := 0
      treeLen := 0
      treeAncLen := 0
      treePresent := false
      treeCycleState := ⟨[], 0⟩
      treeCyclePath := ⟨[], 0⟩ }

/-- The first `n` elements, of at least `n`. -/
def sliceTo {α : Type} (l : List α) (n : ℕ) : Outcome (List α) :=
  if n ≤ l.length then .ok (l.take n) else .error .panic

/-- The tree of the last fill. -/
def treeView (ws : BatchWorkspace) : Outcome (Option TreeInput) :=
  if ws.treePresent then do
    let parents ← sliceTo ws.treeParents.data ws.treeLen
    let ancestors ← sliceTo ws.treeAncestors.data ws.treeAncLen
    pure (some ⟨parents, ws.treeTMax, ancestors⟩)
  else pure (ws.tree.map fun t => ⟨t.parents, t.tMax, t.ancestors⟩)

/-- Stores and validates a borrowed tree. The marks and the path of the search for
cycles are scratch. -/
def fillTree (ws : BatchWorkspace) (tree : TreeInput) : StateResult BatchWorkspace := do
  let t := tree.parents.length
  let needAnc ← okOr (mul 64 t tree.tMax) (.overflow "tree ancestor mask size")
  ensure (t ≤ ws.treeParents.capacity) (.invalidBatch
    s!"batch workspace tree parents capacity {ws.treeParents.capacity} < required {t}")
  ensure (needAnc ≤ ws.treeAncestors.capacity) (.invalidBatch
    s!"batch workspace tree ancestors capacity {ws.treeAncestors.capacity} < required {needAnc}")
  ensure (t ≤ ws.treeCycleState.capacity ∧ t ≤ ws.treeCyclePath.capacity)
    (.invalidBatch s!"batch workspace tree cycle scratch capacity < required {t}")
  let state := ws.treeCycleState.fill (List.replicate t 0)
  match validateTreeSlices tree.parents tree.tMax tree.ancestors.length state.data.length
      ws.treeCyclePath.capacity with
  | .error e => .error (.ir e)
  | .ok () =>
    pure { ws with
      tree := none
      treeParents := ws.treeParents.fill tree.parents
      treeAncestors := ws.treeAncestors.fill tree.ancestors
      treeTMax := tree.tMax
      treeLen := t
      treeAncLen := needAnc
      treePresent := true
      treeCycleState := state
      treeCyclePath := ws.treeCyclePath.fill [] }

/-- Drops the stored tree. -/
def clearTree (ws : BatchWorkspace) : BatchWorkspace :=
  { ws with
    treeParents := ws.treeParents.fill []
    treeAncestors := ws.treeAncestors.fill []
    treeTMax := 0
    treeLen := 0
    treeAncLen := 0
    treePresent := false }

/-- A buffer must be large enough. -/
def checkCapacity (what : String) (capacity need : ℕ) : StateResult Unit :=
  ensure (need ≤ capacity)
    (.invalidBatch s!"batch workspace {what} capacity {capacity} < required {need}")

/-- Of the two buffers for positions, the one that is used must be large enough. -/
def checkPositions (ws : BatchWorkspace) (positions : Option Positions) (tokens : ℕ) :
    StateResult Unit :=
  match positions with
  | some (.mrope _) => checkCapacity "positions_mrope" ws.positionsMrope.capacity tokens
  | _ => checkCapacity "positions" ws.positions.capacity tokens

/-- The buffers must be large enough for the batch. -/
def checkCapacities (ws : BatchWorkspace) (positions : Option Positions) (seqs tokens : ℕ)
    (needs : ℕ × ℕ × ℕ) : StateResult Unit := do
  checkCapacity "seq_ids" ws.seqIds.capacity seqs
  checkCapacity "query_lens" ws.queryLens.capacity seqs
  checkCapacity "ctx_lens" ws.ctxLens.capacity seqs
  ws.checkPositions positions tokens
  checkCapacity "slot_map" ws.slotMap.capacity needs.1
  checkCapacity "block_table" ws.blockTable.capacity needs.2.1
  checkCapacity "window_start" ws.windowStart.capacity needs.2.2

end BatchWorkspace

/-- The parents that cross between sequences, as the fills find them: each sequence
takes its tokens from the list. -/
def fillCrossings (parents : List ℤ) : ℕ → ℕ → List ℕ → List IrError
  | _, _, [] => []
  | seq, seqStart, seqLen :: rest =>
    (((parents.zipIdx.drop seqStart).take seqLen).flatMap fun (parent, token) =>
      crossing token parent seq seqStart (seqStart + seqLen)) ++
      fillCrossings parents (seq + 1) (seqStart + seqLen) rest

/-- What is wrong with a tree for the queries of a batch. -/
def treeBatchProblems (parents : List ℤ) (tMax : ℕ) (queryLens : List ℕ) : List IrError :=
  let required := queryLens.max?.getD 0
  (if tMax < required then [.treeMaxTooSmall required tMax] else []) ++
    if parents.length = queryLens.sum then fillCrossings parents 0 0 queryLens else []

/-- The rules between a tree and its batch. -/
def checkTreeBatchRules (parents : List ℤ) (tMax : ℕ) (queryLens : List ℕ) : StateResult Unit :=
  (IrError.fromProblems (treeBatchProblems parents tMax queryLens)).mapError .ir

/-- The rules for an owned tree, if there is one. -/
def checkOwnedTree (tree : Option TreeMask) (queryLens : List ℕ) : StateResult Unit :=
  match tree with
  | some t => checkTreeBatchRules t.parents t.tMax queryLens
  | none => pure ()

/-- A borrowed tree must have the tokens of the batch. -/
def checkTreeTokens (tree : Option TreeInput) (plan : StateManager.BatchPlan) : StateResult Unit :=
  match tree with
  | some t =>
    if t.parents.length ≠ plan.totalTokens then do
      let batchT ← okOr (narrow 32 plan.totalU64) (.overflow "batch meta total tokens")
      .error (.ir (.treeBatchMismatch t.parents.length batchT))
    else pure ()
  | none => pure ()

/-- Stores a borrowed tree, after the rules, or clears the tree. -/
def BatchWorkspace.fillTreeInput (ws : BatchWorkspace) (tree : Option TreeInput)
    (queryLens : List ℕ) : StateResult BatchWorkspace :=
  match tree with
  | some t => do
    checkTreeBatchRules t.parents t.tMax queryLens
    ws.fillTree t
  | none => pure ws.clearTree

namespace StateManager

/-- The last part of both fills: clears the buffers, writes the tensors and the
positions, and records the dimensions. -/
def fillTensors (m : StateManager) (seqs : List SeqId) (queryLens : List ℕ)
    (positions : Option Positions) (plan : BatchPlan) (needBlock : ℕ) (ws : BatchWorkspace) :
    StateResult BatchWorkspace := do
  let tensors ← m.emitBatchInto seqs queryLens plan positions.isNone
    (List.replicate needBlock blockTableSentinel)
  let lastG ← okOr (narrow 32 m.groups.length) (.overflow "batch meta group count")
  let lastS ← okOr (narrow 32 seqs.length) (.overflow "batch meta seq count")
  let lastT ← okOr (narrow 32 plan.totalU64) (.overflow "batch meta total tokens")
  pure { ws with
    idScratch := ws.idScratch.fill seqs
    seqIds := ws.seqIds.fill tensors.seqIds
    queryLens := ws.queryLens.fill queryLens
    ctxLens := ws.ctxLens.fill tensors.ctxLens
    positions := ws.positions.fill (match positions with
      | none => tensors.positions
      | some (.perToken v) => v
      | some (.mrope _) => [])
    positionsMrope := ws.positionsMrope.fill (match positions with
      | some (.mrope v) => v
      | _ => [])
    lastPositionWidth := match positions with
      | some (.mrope _) => 3
      | _ => 1
    slotMap := ws.slotMap.fill tensors.slotMap
    blockTable := ws.blockTable.fill tensors.blockTable
    windowStart := ws.windowStart.fill tensors.windowStart
    lastG
    lastS
    lastT
    lastMaxBlocks := m.maxBlocks }

/-- The scratch for the ids of the batch must be large enough. -/
def checkScratch (ws : BatchWorkspace) (seqs : ℕ) : StateResult Unit :=
  BatchWorkspace.checkCapacity "id scratch" ws.idScratch.capacity seqs

/-- Fills a workspace, with an owned tree. -/
def fillBatchMetaWithOptions (m : StateManager) (seqs : List SeqId) (queryLens : List ℕ)
    (positions : Option Positions) (tree : Option TreeMask) (ws : BatchWorkspace) :
    StateResult BatchWorkspace := do
  checkScratch ws seqs.length
  let plan ← m.planBatch seqs queryLens (positions.map (·.len)) (tree.map (·.parents.length))
  let needs ← m.batchNeeds seqs.length plan.totalTokens
  ws.checkCapacities positions seqs.length plan.totalTokens needs
  checkOwnedTree tree queryLens
  let ws ← m.fillTensors seqs queryLens positions plan needs.2.1 ws
  pure { ws.clearTree with tree }

/-- Fills a workspace, with the default positions. -/
def fillBatchMeta (m : StateManager) (seqs : List SeqId) (queryLens : List ℕ)
    (tree : Option TreeMask) (ws : BatchWorkspace) : StateResult BatchWorkspace :=
  m.fillBatchMetaWithOptions seqs queryLens none tree ws

/-- Fills a workspace, with a borrowed tree. -/
def fillBatchMetaWithOptionsAndTreeInput (m : StateManager) (seqs : List SeqId)
    (queryLens : List ℕ) (positions : Option Positions) (tree : Option TreeInput)
    (ws : BatchWorkspace) : StateResult BatchWorkspace := do
  checkScratch ws seqs.length
  let plan ← m.planBatch seqs queryLens (positions.map (·.len)) none
  checkTreeTokens tree plan
  let needs ← m.batchNeeds seqs.length plan.totalTokens
  ws.checkCapacities positions seqs.length plan.totalTokens needs
  let ws ← ws.fillTreeInput tree queryLens
  let ws ← m.fillTensors seqs queryLens positions plan needs.2.1 ws
  pure { ws with tree := none }

end StateManager

end R9v

import R9v.State.Batch

/-!
# Paged attention

How `r9v-t0/src/attention.rs` finds the rows that a query attends to: the write of the new rows
into a paged cache (`stateWriteKvPaged`), and the plan of the slots that each query sees
(`planVisible`), which is made before anything is computed. A row of the cache stands for the
keys and values of a token as they are stored; what is computed from the rows is not looked at.
-/

namespace R9v

open List

variable {ρ : Type}

/-- The errors of the plans. -/
inductive AttnError
  | invalidAttribute (op field reason : String)
  | rowIndexOutOfRange (op tensor : String) (position index upperBound : ℕ)
  | invalidDistribution (op : String) (seq pos : ℕ)
  | dimensionMismatch (dimName expectedFrom : String) (expected : ℕ) (tensor : String) (got : ℕ)
  deriving DecidableEq

/-- A paged cache: a slot has a row once it was written. -/
structure KvPagedCache (ρ : Type) where
  numBlocks : ℕ
  rows : ℕ → Option ρ

namespace KvPagedCache

/-- An unwritten cache. -/
def new (numBlocks : ℕ) : KvPagedCache ρ := ⟨numBlocks, fun _ => none⟩

def numSlots (c : KvPagedCache ρ) : ℕ := c.numBlocks * blockTokens

def isWritten (c : KvPagedCache ρ) (slot : ℕ) : Bool := slot < c.numSlots && (c.rows slot).isSome

end KvPagedCache

/-! ### Guarded accessors -/

section Accessors

variable (b : BatchMeta) (group : ℕ)

def groupError : AttnError :=
  .invalidAttribute "attention" "group"
    s!"group {group} out of range for BatchMeta with {b.g} groups"

def checkedSlot (tok : ℕ) : Except AttnError ℕ :=
  if b.g ≤ group then .error (groupError b group)
  else if b.t ≤ tok then .error (.rowIndexOutOfRange "attention" "slot_map" tok tok b.t)
  else .ok (b.slotMap.getD (group * b.t + tok) 0)

def checkedBlock (seq idx : ℕ) : Except AttnError ℕ :=
  if b.g ≤ group then .error (groupError b group)
  else if b.s ≤ seq then .error (.rowIndexOutOfRange "attention" "block_table" seq seq b.s)
  else if b.maxBlocks ≤ idx then
    .error (.rowIndexOutOfRange "attention" "block_table" idx idx b.maxBlocks)
  else .ok (b.blockTable.getD ((group * b.s + seq) * b.maxBlocks + idx) 0)

def checkedWindow (seq : ℕ) : Except AttnError ℕ :=
  if b.g ≤ group then .error (groupError b group)
  else if b.s ≤ seq then .error (.rowIndexOutOfRange "attention" "window_start" seq seq b.s)
  else .ok (b.windowStart.getD (group * b.s + seq) 0)

variable {b group}

theorem checkedSlot_of_lt {tok : ℕ} (hg : group < b.g) (ht : tok < b.t) :
    checkedSlot b group tok = .ok (b.slotMap.getD (group * b.t + tok) 0) := by
  rw [checkedSlot, if_neg (not_le.mpr hg), if_neg (not_le.mpr ht)]

theorem checkedBlock_of_lt {seq idx : ℕ} (hg : group < b.g) (hs : seq < b.s)
    (hidx : idx < b.maxBlocks) : checkedBlock b group seq idx =
      .ok (b.blockTable.getD ((group * b.s + seq) * b.maxBlocks + idx) 0) := by
  rw [checkedBlock, if_neg (not_le.mpr hg), if_neg (not_le.mpr hs), if_neg (not_le.mpr hidx)]

theorem checkedWindow_of_lt {seq : ℕ} (hg : group < b.g) (hs : seq < b.s) :
    checkedWindow b group seq = .ok (b.windowStart.getD (group * b.s + seq) 0) := by
  rw [checkedWindow, if_neg (not_le.mpr hg), if_neg (not_le.mpr hs)]

end Accessors

/-! ### Writing -/

section Write

variable (b : BatchMeta) (group : ℕ)

/-- The slot that a token is written to, unless it is padding. -/
def planWriteSlot (numSlots tok : ℕ) : List AttnError × Option ℕ :=
  match checkedSlot b group tok with
  | .error e => ([e], none)
  | .ok raw =>
    if raw = slotNone then ([], none)
    else if numSlots ≤ raw then
      ([.rowIndexOutOfRange "state_write_kv" "slot_map" tok raw numSlots], none)
    else ([], some raw)

/-- The slots of a step. -/
def planWriteSlots (numSlots : ℕ) : List AttnError × List (Option ℕ) :=
  let plan := (List.range b.t).map (planWriteSlot b group numSlots)
  (plan.flatMap (·.1), plan.map (·.2))

/-- Stores a row for each token that has a slot. -/
def storeRows (cache : KvPagedCache ρ) (writes : List (Option ℕ × ρ)) : KvPagedCache ρ :=
  writes.foldl (fun cache x =>
    match x.1 with
    | some slot => { cache with rows := Function.update cache.rows slot (some x.2) }
    | none => cache) cache

/-- A write needs a row for each token, and a group. -/
def writeProblems (rows : List ρ) : List AttnError :=
  (if b.g ≤ group then
    [.invalidAttribute "state_write_kv" "group"
      s!"group {group} out of range for BatchMeta with {b.g} groups"]
  else []) ++
  (if b.t ≠ rows.length then
    [.dimensionMismatch "T" "BatchMeta" b.t "k" rows.length,
      .dimensionMismatch "T" "BatchMeta" b.t "v" rows.length]
  else [])

/-- Writes the rows of the tokens of a step. -/
def stateWriteKvPaged (rows : List ρ) (cache : KvPagedCache ρ) :
    Except (List AttnError) (KvPagedCache ρ) :=
  let plan := if group < b.g then planWriteSlots b group cache.numSlots else ([], [])
  let problems := writeProblems b group rows ++ plan.1
  if problems = [] then .ok (storeRows cache (plan.2.zip rows)) else .error problems

end Write

/-! ### Queries -/

/-- A query token and the sequence it belongs to. -/
structure QueryInfo where
  seq : ℕ
  absPos : ℕ
  ctx : ℕ
  qlen : ℕ

/-- The query tokens of each sequence. -/
def queryRows (ctxLen queryLen : List ℕ) : List (List QueryInfo) :=
  (ctxLen.zip queryLen).zipIdx.map fun ((ctx, qlen), seq) =>
    (List.range qlen).map fun i => ⟨seq, ctx + i, ctx, qlen⟩

/-- The query tokens of a step, sequence by sequence. -/
def planQueries (b : BatchMeta) : Except AttnError (List QueryInfo) :=
  let out := (queryRows b.ctxLen b.queryLen).flatten
  if out.length ≠ b.t then
    .error (.invalidAttribute "attention" "query_len"
      s!"query lengths cover {out.length} tokens but BatchMeta T is {b.t}")
  else .ok out

theorem queryRows_getElem? {ctxLen queryLen : List ℕ} {j ctx q : ℕ} (hctx : ctxLen[j]? = some ctx)
    (hq : queryLen[j]? = some q) :
    (queryRows ctxLen queryLen)[j]? = some ((List.range q).map fun i => ⟨j, ctx + i, ctx, q⟩) := by
  have hzip : (ctxLen.zip queryLen)[j]? = some (ctx, q) :=
    getElem?_zip_eq_some.mpr ⟨hctx, hq⟩
  simp [queryRows, hzip]

theorem queryRows_length {ctxLen queryLen : List ℕ} (h : ctxLen.length = queryLen.length) :
    (queryRows ctxLen queryLen).map List.length = queryLen := by
  have hlength : (List.length ∘ fun ((ctx, qlen), seq) =>
      (List.range qlen).map fun i => (⟨seq, ctx + i, ctx, qlen⟩ : QueryInfo)) =
      Prod.snd ∘ Prod.fst := by
    funext x
    simp
  rw [queryRows, map_map, hlength, ← map_map, zipIdx_map_fst, map_snd_zip]
  exact le_of_eq h.symm

/-- A position is kept as a sink or in the window. -/
def isRetained (sinks windowStart pos : ℕ) : Bool := pos < sinks || windowStart ≤ pos

/-- The visibility of a token of the query itself under a tree. -/
def treeQueryVisible (tree : TreeMask) (tok col : ℕ) : Except AttnError Bool :=
  if tree.tMax ≤ col then
    .error (.invalidAttribute "attention" "tree"
      s!"query offset {col} exceeds tree t_max {tree.tMax} for token {tok}")
  else .ok (tree.ancestors.getD (tok * tree.tMax + col) false)

/-- The slot of a position, unless its block is gone. -/
def slotForPosition (b : BatchMeta) (group seq pos numSlots : ℕ) : Except AttnError (Option ℕ) :=
  let idx := pos / blockTokens
  let lane := pos % blockTokens
  if b.maxBlocks ≤ idx then
    .error (.rowIndexOutOfRange "attention" "block_table" pos idx b.maxBlocks)
  else
    match checkedBlock b group seq idx with
    | .error e => .error e
    | .ok id =>
      if id = blockTableSentinel then .ok none
      else
        let slot := id * blockTokens + lane
        if numSlots ≤ slot then .error (.rowIndexOutOfRange "attention" "cache" pos id numSlots)
        else .ok (some slot)

theorem slotForPosition_of_block {b : BatchMeta} {group seq pos numSlots id : ℕ}
    (hidx : pos / blockTokens < b.maxBlocks)
    (hblock : checkedBlock b group seq (pos / blockTokens) = .ok id) (hid : id ≠ blockTableSentinel)
    (hlt : id * blockTokens + pos % blockTokens < numSlots) :
    slotForPosition b group seq pos numSlots =
      .ok (some (id * blockTokens + pos % blockTokens)) := by
  simp only [slotForPosition, if_neg (not_le.mpr hidx), hblock, if_neg hid,
    if_neg (not_le.mpr hlt)]

section Visible

variable (b : BatchMeta) (group : ℕ) (sinks : ℕ) (isTree : Bool) (cache : KvPagedCache ρ)

/-- What a query finds at a position that it may see: problems, and the slot. -/
def lookAt (seq pos : ℕ) : List AttnError × List ℕ :=
  match slotForPosition b group seq pos cache.numSlots with
  | .error e => ([e], [])
  | .ok none => ([], [])
  | .ok (some slot) =>
    if cache.isWritten slot then ([], [slot])
    else ([.invalidAttribute "attention" "cache"
      (s!"sequence {seq} position {pos} is retained but its cache slot {slot} was never " ++
        "written; run state_write_kv first")], [])

/-- What a query finds at a position. -/
def lookFor (query : QueryInfo) (windowStart tok pos : ℕ) : List AttnError × List ℕ :=
  if !isRetained sinks windowStart pos then ([], [])
  else if pos < query.ctx then lookAt b group cache query.seq pos
  else if isTree then
    match b.tree with
    | none => ([], [])
    | some tree =>
      match treeQueryVisible tree tok (pos - query.ctx) with
      | .ok true => lookAt b group cache query.seq pos
      | .ok false => ([], [])
      | .error e => ([e], [])
  else if query.absPos < pos then ([], [])
  else lookAt b group cache query.seq pos

/-- One past the last position that a query may see. -/
def queryStop (query : QueryInfo) : ℕ :=
  if isTree then query.ctx + query.qlen else query.absPos + 1

/-- The slots that a query sees, in the order of their positions; `problems` are those of the
queries before it. -/
def planQuery (problems : List AttnError) (query : QueryInfo) (tok : ℕ) :
    List AttnError × List ℕ :=
  match checkedWindow b group query.seq with
  | .error e => (problems ++ [e], [])
  | .ok windowStart =>
    let found := (List.range (queryStop isTree query)).map
      (lookFor b group sinks isTree cache query windowStart tok)
    let problems := problems ++ found.flatMap (·.1)
    let visible := found.flatMap (·.2)
    if visible = [] ∧ problems = [] then
      ([.invalidDistribution "attention" query.seq query.absPos], visible)
    else (problems, visible)

/-- The positions that a query sees. -/
def visiblePositions (query : QueryInfo) (tok : ℕ) : List ℕ :=
  match checkedWindow b group query.seq with
  | .error _ => []
  | .ok windowStart => (List.range (queryStop isTree query)).filter fun pos =>
    (lookFor b group sinks isTree cache query windowStart tok pos).2 ≠ []

/-- The slots that each query of a step sees, and the problems. -/
def planVisible (queries : List QueryInfo) : List AttnError × List (List ℕ) :=
  queries.zipIdx.foldl (fun acc x =>
    let found := planQuery b group sinks isTree cache acc.1 x.1 x.2
    (found.1, acc.2 ++ [found.2])) ([], [])

end Visible

end R9v

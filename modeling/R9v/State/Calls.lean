import R9v.State.Manager

/-!
# The calls of the manager

The six calls that change the manager: `newSeq`, `reserve`, `writeTokens`,
`compact`, `commit` and `freeSeq`. Each returns its outcome together with the
manager as it is afterwards, also when the outcome is an error: what a failing
call has already changed is in the model. Where the source checks first and
changes then, the checks are a definition of their own.

A run of the manager is a list of calls (`Call`, `StateManager.run`); a call that
fails leaves its manager to the next one.
-/

namespace R9v

open Checked

namespace StateManager

/-! ### Starting a sequence -/

/-- Every fixed group must have a free slot. -/
def checkSlots (m : StateManager) : Outcome Unit :=
  forM m.groups.zipIdx fun (g, gi) =>
    if g.spec.isRecurrent then do
      let pool ← okOr m.fixed[gi]?.join
        (fail (.invalidBatch s!"group {gi} is not a fixed group"))
      ensure (pool.free ≠ []) (fail (.seqLimit m.liveCount m.config.maxSeqs))
    else pure ()

/-- The checks of `newSeq`: the next live count and the next id. -/
def newSeqChecks (m : StateManager) (tokens : List ℕ) : Outcome (ℕ × ℕ) := do
  let len ← okOr (narrow 32 tokens.length) (fail (.overflow "prompt length"))
  ensure (tokens.length ≤ m.config.maxCtx) (fail (.reserveTooLarge len m.config.maxCtx len))
  let nextLive ← okOr (add 32 m.liveCount 1) (fail (.overflow "live sequence count"))
  ensure (m.nextSeq ≤ u32Max) (fail (.seqIdOverflow m.nextSeq u32Max))
  let nextId ← okOr (add 64 m.nextSeq 1) (fail (.overflow "sequence id"))
  ensure (m.liveCount < m.config.maxSeqs) (fail (.seqLimit m.liveCount m.config.maxSeqs))
  m.checkSlots
  pure (nextLive, nextId)

/-- Gives back the slots taken so far. -/
def returnSlots (slots : List (Option ℕ)) (fixed : List (Option FixedPool)) :
    List (Option FixedPool) :=
  slots.zipIdx.foldl (fun fixed (slot, gi) =>
    match slot with
    | some sid => fixed.modify gi (Option.map (·.insert sid))
    | none => fixed) fixed

/-- Takes the smallest free slot of every fixed group. A failure gives back what
was taken. -/
def takeSlots (live cap : ℕ) :
    List (LayerGroup × ℕ) → List (Option FixedPool) → List (Option ℕ) →
      Outcome (List (Option ℕ)) × List (Option FixedPool)
  | [], fixed, slots => (.ok slots, fixed)
  | (g, gi) :: rest, fixed, slots =>
    if g.spec.isRecurrent then
      match fixed[gi]?.join with
      | none =>
        (.error (fail (.invalidBatch s!"group {gi} is not a fixed group")),
          returnSlots slots fixed)
      | some pool =>
        match pool.free.head? with
        | none => (.error (fail (.seqLimit live cap)), returnSlots slots fixed)
        | some id =>
          takeSlots live cap rest (fixed.set gi (some (pool.remove id))) (slots.set gi (some id))
    else takeSlots live cap rest fixed slots

/-- A sequence that has just started. -/
def SeqState.fresh (groups : List LayerGroup) (slots : List (Option ℕ)) : SeqState where
  ctxLen := 0
  tailLen := 0
  tables := groups.map fun _ => []
  indices := groups.map fun _ => []
  mirror := fun _ => none
  compacted := none
  fixedSlots := slots
  parity := groups.map fun _ => 0

/-- Starts a sequence. The tokens of the prompt are only counted. -/
def newSeq (m : StateManager) (tokens : List ℕ) : Outcome (SeqId × ℕ) × StateManager :=
  match m.newSeqChecks tokens with
  | .error e => (.error e, m)
  | .ok (nextLive, nextId) =>
    match takeSlots m.liveCount m.config.maxSeqs m.groups.zipIdx m.fixed
        (m.groups.map fun _ => none) with
    | (.error e, fixed) => (.error e, { m with fixed })
    | (.ok slots, fixed) =>
      (.ok (m.nextSeq, 0),
        { m with
          fixed
          seqs := m.seqs.insert m.nextSeq (SeqState.fresh m.groups slots)
          nextSeq := nextId
          liveCount := nextLive })

/-! ### Reading a sequence -/

def seq (m : StateManager) (k : SeqId) : StateResult SeqState :=
  okOr m.seqs[k]? (.unknownSeq k)

def ctxLen (m : StateManager) (k : SeqId) : StateResult ℕ := (·.ctxLen) <$> m.seq k

def tailLen (m : StateManager) (k : SeqId) : StateResult ℕ := (·.tailLen) <$> m.seq k

/-- The first position of a window of `w` tokens that ends at `ctx`. -/
def windowStartOf (ctx w : ℕ) : ℕ := if w ≤ ctx then ctx - w else 0

/-- The first position that a group retains, the sinks apart. -/
def windowStart (m : StateManager) (k : SeqId) (group : ℕ) : StateResult ℕ := do
  let s ← m.seq k
  let g ← okOr m.groups[group]? (.invalidBatch s!"group {group} out of range {m.groups.length}")
  match g.spec.retain with
  | none | some .all => pure 0
  | some (.window w) | some (.sinkWindow _ w) => pure (windowStartOf s.ctxLen w)

/-- Reads a written token. -/
def readToken (m : StateManager) (k : SeqId) (group pos : ℕ) : StateResult (Option ℕ) := do
  let s ← m.seq k
  ensure (group < m.groups.length)
    (.invalidBatch s!"group {group} out of range {m.groups.length}")
  let stop ← okOr (add 32 s.ctxLen s.tailLen) (.overflow "reserved end")
  ensure (pos < stop) (.outOfRange pos 1 stop)
  pure (s.mirror (group, pos))

/-! ### Reserving -/

/-- The reservation of a step: the positions from `start` on. -/
structure SlotRange where
  seq : SeqId
  start : ℕ
  len : ℕ
  deriving DecidableEq

/-- One past the last block index that a range ending at `stop` touches. -/
def divCeil (stop : ℕ) : ℕ := (stop + (blockTokens - 1)) / blockTokens

/-- The indices of a span that a table does not have. -/
def missing (held : List ℕ) (first last : ℕ) : List ℕ :=
  (List.range' first (last - first)).filter fun idx =>
    held[Sorted.partitionPoint (· < idx) held]? ≠ some idx

/-- The error of a group whose pool is too small. -/
def exhausted (group want free stop maxCtx : ℕ) : Fault StateError :=
  match (do
    let available ← okOr (narrow 32 free) (.overflow "free block count")
    let required ← okOr (narrow 32 want) (.overflow "missing block count")
    let shortfall ← okOr (sub required available) (.overflow "pool shortfall")
    pure (.poolExhausted group required available shortfall stop maxCtx) : StateResult StateError) with
  | .ok e => fail e
  | .error e => fail e

/-- The first pass of `reserve`: records the missing blocks of every paged group,
and stops at the first group whose pool has too few. -/
def scanReserve (m : StateManager) (s : SeqState) (first last stop : ℕ) :
    List (LayerGroup × ℕ) → List (ℕ × ℕ) → Outcome Unit × List (ℕ × ℕ)
  | [], scratch => (.ok (), scratch)
  | (g, gi) :: rest, scratch =>
    if g.spec.isPaged then
      match narrow 32 gi, s.indices[gi]?, m.pools[gi]? with
      | none, _, _ => (.error (fail (.overflow "group index")), scratch)
      | some _, none, _ => (.error .panic, scratch)
      | some group, some held, pool =>
        let want := missing held first last
        let scratch := scratch ++ want.map (group, ·)
        match pool with
        | none => (.error .panic, scratch)
        | some pool =>
          let free := pool.elim 0 (·.free.length)
          if want.length ≤ free then scanReserve m s first last stop rest scratch
          else (.error (exhausted gi want.length free stop m.config.maxCtx), scratch)
    else scanReserve m s first last stop rest scratch

/-- The pools and sequences that the second pass of `reserve` changes. -/
abbrev Placing := List (Option BlockPool) × Std.ExtTreeMap ℕ SeqState

/-- Takes one block and enters it in the tables of the sequence. -/
def placeOneBlock (k : SeqId) (gi idx stop maxCtx : ℕ) (st : Placing) : Outcome Unit × Placing :=
  match st.1[gi]?.join with
  | none => (.error (fail (.invalidBatch s!"group {gi} is not a paged group")), st)
  | some pool =>
    match pool.alloc with
    | none => (.error (fail (.poolExhausted gi 1 0 1 stop maxCtx)), st)
    | some (id, pool) =>
      let pools := st.1.set gi (some pool)
      match st.2[k]? with
      | none => (.error (fail (.unknownSeq k)), (pools, st.2))
      | some s =>
        match s.indices[gi]? with
        | none =>
          (.error (fail (.invalidBatch s!"sequence {k} has no table")), (pools, st.2))
        | some held =>
          let pos := Sorted.partitionPoint (· < idx) held
          let s := { s with indices := s.indices.set gi (held.insertIdx pos idx) }
          match s.tables[gi]? with
          | none =>
            (.error (fail (.invalidBatch s!"sequence {k} has no table")),
              (pools, st.2.insert k s))
          | some table =>
            let s := { s with tables := s.tables.set gi (table.insertIdx pos id) }
            (.ok (), (pools, st.2.insert k s))

/-- Takes one block back out of the tables. -/
def unplaceOneBlock (k : SeqId) (gi idx : ℕ) (st : Placing) : Outcome Unit × Placing :=
  match st.2[k]? with
  | none => (.ok (), st)
  | some s =>
    let held := s.indices[gi]?.getD []
    let table := s.tables[gi]?.getD []
    let pos := Sorted.partitionPoint (· < idx) held
    match (if held[pos]? = some idx then table[pos]? else none) with
    | none => (.ok (), st)
    | some id =>
      let s := { s with
        indices := s.indices.set gi (held.eraseIdx pos)
        tables := s.tables.set gi (table.eraseIdx pos) }
      let st : Placing := (st.1, st.2.insert k s)
      match st.1[gi]?.join with
      | none => (.ok (), st)
      | some pool =>
        match pool.release id with
        | .error e => (.error (.err e), st)
        | .ok pool => (.ok (), (st.1.set gi (some pool), st.2))

/-- The rollback of the blocks placed before a failure. -/
def unplaceBlocks (k : SeqId) : List (ℕ × ℕ) → Placing → Outcome Unit × Placing
  | [], st => (.ok (), st)
  | (gi, idx) :: rest, st =>
    match unplaceOneBlock k gi idx st with
    | (.error e, st) => (.error e, st)
    | (.ok (), st) => unplaceBlocks k rest st

/-- The second pass of `reserve`: places the recorded blocks in order. A failure
takes back the prefix `done` that was placed. -/
def placeReserveBlocks (k : SeqId) (stop maxCtx : ℕ) (done : List (ℕ × ℕ)) :
    List (ℕ × ℕ) → Placing → Outcome Unit × Placing
  | [], st => (.ok (), st)
  | (gi, idx) :: rest, st =>
    match placeOneBlock k gi idx stop maxCtx st with
    | (.ok (), st) => placeReserveBlocks k stop maxCtx (done ++ [(gi, idx)]) rest st
    | (.error e, st) =>
      match unplaceBlocks k done st with
      | (.error e', st) => (.error e', st)
      | (.ok (), st) => (.error e, st)

/-- The checks of `reserve` before the pools are looked at: the context length and
the end of the reservation. -/
def reserveChecks (m : StateManager) (k : SeqId) (n : ℕ) : Outcome (SeqState × ℕ) := do
  let s ← lift (m.seq k)
  ensure (n ≠ 0 ∧ n ≤ maxReserveHard) (fail (.invalidReserve n s.tailLen))
  ensure (s.tailLen = 0) (fail (.invalidReserve n s.tailLen))
  let stop ← okOr (add 32 s.ctxLen n) (fail (.overflow "reserve end"))
  ensure (stop ≤ m.config.maxCtx) (fail (.reserveTooLarge stop m.config.maxCtx n))
  pure (s, stop)

/-- Makes sure that blocks exist for the next `n` positions. -/
def reserve (m : StateManager) (k : SeqId) (n : ℕ) : Outcome SlotRange × StateManager :=
  match m.reserveChecks k n with
  | .error e => (.error e, m)
  | .ok (s, stop) =>
    match scanReserve m s (s.ctxLen / blockTokens) (divCeil stop) stop m.groups.zipIdx [] with
    | (.error e, reserveScratch) => (.error e, { m with reserveScratch })
    | (.ok (), reserveScratch) =>
      match placeReserveBlocks k stop m.config.maxCtx [] reserveScratch (m.pools, m.seqs) with
      | (.error e, (pools, seqs)) => (.error e, { m with pools, seqs, reserveScratch })
      | (.ok (), (pools, seqs)) =>
        match seqs[k]? with
        | none => (.error (fail (.unknownSeq k)), { m with pools, seqs, reserveScratch })
        | some s' =>
          (.ok ⟨k, s.ctxLen, n⟩,
            { m with
              pools
              seqs := seqs.insert k { s' with tailLen := n, compacted := none }
              reserveScratch })

/-! ### Writing and compacting -/

/-- Stores a row of entries from a position on; an entry without a token removes
what was there. -/
def storeRow (gi : ℕ) : ℕ → List (Option ℕ) → Mirror → Mirror
  | _, [], mirror => mirror
  | pos, tok :: row, mirror => storeRow gi (pos + 1) row (Function.update mirror (gi, pos) tok)

/-- The checks of `writeTokens`: the range must lie in the open reservation. -/
def writeChecks (m : StateManager) (k : SeqId) (start : ℕ) (tokens : List ℕ) :
    Outcome SeqState := do
  let s ← lift (m.seq k)
  let len ← okOr (narrow 32 tokens.length) (fail (.overflow "write length"))
  let writeEnd ← okOr (add 32 start len) (fail (.overflow "write end"))
  let reservedEnd ← okOr (add 32 s.ctxLen s.tailLen) (fail (.overflow "reserved end"))
  ensure (s.ctxLen ≤ start) (fail (.outOfRange start tokens.length reservedEnd))
  ensure (writeEnd ≤ reservedEnd) (fail (.outOfRange start tokens.length reservedEnd))
  pure s

/-- Records the tokens of a step, in every paged group. -/
def writeTokens (m : StateManager) (k : SeqId) (start : ℕ) (tokens : List ℕ) :
    Outcome Unit × StateManager :=
  match m.writeChecks k start tokens with
  | .error e => (.error e, m)
  | .ok s =>
    -- every position is below the end of the write, which was computed above
    let mirror := m.groups.zipIdx.foldl (fun mirror (g, gi) =>
      if g.spec.isPaged then storeRow gi start (tokens.map some) mirror else mirror) s.mirror
    (.ok (), { m with seqs := m.seqs.insert k { s with mirror } })

/-- The most tokens of one compaction. -/
def maxCompactTokens : ℕ := 16

/-- The copy that a compaction asks of the device. -/
structure CompactOp where
  seq : SeqId
  /-- The absolute source positions, padded with zeros. -/
  src : List ℕ
  dstStart : ℕ
  len : ℕ
  deriving DecidableEq

/-- The checks of `compact`: the sequence and the absolute source positions. -/
def compactChecks (m : StateManager) (k : SeqId) (accepted : List ℕ) :
    Outcome (SeqState × List ℕ) := do
  let s ← lift (m.seq k)
  let detail (msg : String) := fail (.invalidCompact accepted.length s.tailLen msg)
  ensure (s.tailLen ≠ 0) (detail "no outstanding tail")
  ensure (accepted.length ≤ maxCompactTokens)
    (detail s!"accepted len {accepted.length} exceeds cap {maxCompactTokens}")
  forM accepted.zipIdx fun (p, i) => do
    ensure (p < s.tailLen) (detail s!"position {p} out of range tail {s.tailLen}")
    ensure (p ∉ accepted.take i) (detail s!"duplicate position {p}")
  let src ← accepted.mapM fun p => okOr (add 32 s.ctxLen p) (fail (.overflow "compact source"))
  forM (List.range accepted.length) fun i => do
    let _ ← okOr (add 32 s.ctxLen i) (fail (.overflow "compact destination"))
  pure (s, src)

/-- Moves the accepted tokens of a step to the front of its reservation. The
sources of a group are all read before the first destination is written. -/
def compact (m : StateManager) (k : SeqId) (accepted : List ℕ) :
    Outcome CompactOp × StateManager :=
  match m.compactChecks k accepted with
  | .error e => (.error e, m)
  | .ok (s, src) =>
    let mirror := m.groups.zipIdx.foldl (fun mirror (g, gi) =>
      if g.spec.isPaged then storeRow gi s.ctxLen (src.map fun pos => mirror (gi, pos)) mirror
      else mirror) s.mirror
    let pad := List.replicate (maxCompactTokens - accepted.length) 0
    (.ok ⟨k, src ++ pad, s.ctxLen, accepted.length⟩,
      { m with seqs := m.seqs.insert k { s with mirror, compacted := some accepted.length } })

/-! ### Committing -/

/-- The block indices that a group releases once `ctx` tokens are verified, as a
half-open range; the default range is empty. -/
def evictRange (ctx : ℕ) (g : LayerGroup) : ℕ × ℕ :=
  let range (sinkBlocks w : ℕ) :=
    let hi := windowStartOf ctx w / blockTokens
    if sinkBlocks < hi then (sinkBlocks, hi) else (u32Max, 0)
  match g.spec.retain with
  | some (.window w) => range 0 w
  | some (.sinkWindow n w) => range (divCeil n) w
  | _ => (u32Max, 0)

/-- The counters of a commit that passed its checks. -/
structure CommitPlan where
  newCtx : ℕ
  nextCommits : ℕ
  /-- The swap count, when the commit swaps buffers. -/
  nextSwaps : Option ℕ

/-- A commit after a compaction verifies what was compacted. -/
def checkCompacted (s : SeqState) (accepted : ℕ) : Outcome Unit :=
  match s.compacted with
  | some c =>
    ensure (accepted = c)
      (fail (.invalidCompact c s.tailLen s!"commit accepted={accepted} != compacted={c}"))
  | none => pure ()

/-- The first checks of `commit`, and its counters. -/
def commitPlan (m : StateManager) (s : SeqState) (k : SeqId) (accepted : ℕ) :
    Outcome CommitPlan := do
  ensure (s.tailLen ≠ 0) (fail (.noReservation k))
  ensure (accepted ≤ s.tailLen) (fail (.commitTooLarge accepted s.tailLen))
  checkCompacted s accepted
  let newCtx ← okOr (add 32 s.ctxLen accepted) (fail (.overflow "commit ctx"))
  let nextCommits ← okOr (add 64 m.commits 1) (fail (.overflow "commit count"))
  if 0 < accepted ∧ m.groups.any (·.spec.isRecurrent) then do
    let next ← okOr (add 64 m.swaps 1) (fail (.overflow "swap count"))
    pure ⟨newCtx, nextCommits, some next⟩
  else pure ⟨newCtx, nextCommits, none⟩

/-- Every block to be released must be held and not free. -/
def checkEvict (m : StateManager) (s : SeqState) (k : SeqId) (newCtx : ℕ) : Outcome Unit :=
  forM m.groups.zipIdx fun (g, gi) =>
    let (lo, hi) := evictRange newCtx g
    if hi ≤ lo then pure ()
    else do
      ensure (g.spec.isPaged = true) (fail (.invalidBatch s!"group {gi} is not a paged group"))
      let pool ← okOr m.pools[gi]?.join (fail (.invalidBatch s!"group {gi} is not a paged group"))
      let held ← okOr s.indices[gi]? (fail (.invalidBatch s!"sequence {k} has no table"))
      let table ← okOr s.tables[gi]? (fail (.invalidBatch s!"sequence {k} has no table"))
      let startAt := Sorted.partitionPoint (· < lo) held
      let endAt := Sorted.partitionPoint (· < hi) held
      forM (List.range' startAt (endAt - startAt)) fun pos => do
        let id ← okOr table[pos]? (fail (.invalidBatch s!"sequence {k} has no table"))
        ensure (id < pool.total)
          (fail (.invalidBatch s!"release block {id} out of range: pool holds {pool.total}"))
        ensure (pool.contains id = false)
          (fail (.invalidBatch s!"double release of block {id}"))

/-- Releases the `n` entries from position `startAt` on, the last one first. -/
def dropRun (startAt : ℕ) :
    ℕ → List ℕ → List ℕ → BlockPool → Outcome Unit × List ℕ × List ℕ × BlockPool
  | 0, held, table, pool => (.ok (), held, table, pool)
  | n + 1, held, table, pool =>
    let pos := startAt + n
    match held[pos]?, table[pos]? with
    | some _, some id =>
      match pool.release id with
      | .error e => (.error (.err e), held.eraseIdx pos, table.eraseIdx pos, pool)
      | .ok pool => dropRun startAt n (held.eraseIdx pos) (table.eraseIdx pos) pool
    | _, _ => (.error .panic, held, table, pool)

/-- Releases the blocks that leave the windows, group by group. -/
def evictGroups (newCtx : ℕ) :
    List (LayerGroup × ℕ) → List (Option BlockPool) → SeqState →
      Outcome Unit × List (Option BlockPool) × SeqState
  | [], pools, s => (.ok (), pools, s)
  | (g, gi) :: rest, pools, s =>
    let (lo, hi) := evictRange newCtx g
    if hi ≤ lo then evictGroups newCtx rest pools s
    else if g.spec.isPaged then
      match s.indices[gi]?, pools[gi]?.join with
      | none, _ => (.error .panic, pools, s)
      | some _, none =>
        (.error (fail (.invalidBatch s!"group {gi} is not a paged group")), pools, s)
      | some held, some pool =>
        let table := s.tables[gi]?.getD []
        let startAt := Sorted.partitionPoint (· < lo) held
        let endAt := Sorted.partitionPoint (· < hi) held
        let (out, held, table, pool) := dropRun startAt (endAt - startAt) held table pool
        let pools := pools.set gi (some pool)
        let s := { s with indices := s.indices.set gi held, tables := s.tables.set gi table }
        match out with
        | .error e => (.error e, pools, s)
        | .ok () =>
          let mirror : Mirror := fun (g', p) =>
            if g' = gi ∧ lo ≤ p / blockTokens ∧ p / blockTokens < hi then none
            else s.mirror (g', p)
          evictGroups newCtx rest pools { s with mirror }
    else (.error (fail (.invalidBatch s!"group {gi} is not a paged group")), pools, s)

/-- Swaps the buffers of every recurrent group. -/
def flipParity : List LayerGroup → List ℕ → Outcome (List ℕ)
  | [], parity => .ok parity
  | g :: groups, parity =>
    if g.spec.isRecurrent then
      match parity[g.index]? with
      | some b => flipParity groups (parity.set g.index (b ^^^ 1))
      | none => .error .panic
    else flipParity groups parity

/-- Verifies `accepted` of the reserved tokens. -/
def commit (m : StateManager) (k : SeqId) (accepted : ℕ) : Outcome Unit × StateManager :=
  match (do
    let s ← lift (m.seq k)
    let plan ← m.commitPlan s k accepted
    -- the ranges of the groups are kept in an array of this length
    ensure (m.groups.length ≤ maxGroupsHard) .panic
    m.checkEvict s k plan.newCtx
    pure (s, plan) : Outcome (SeqState × CommitPlan)) with
  | .error e => (.error e, m)
  | .ok (s, plan) =>
    let s := { s with ctxLen := plan.newCtx, tailLen := 0, compacted := none }
    match evictGroups plan.newCtx m.groups.zipIdx m.pools s with
    | (.error e, pools, s) => (.error e, { m with pools, seqs := m.seqs.insert k s })
    | (.ok (), pools, s) =>
      match plan.nextSwaps with
      | none => (.ok (), { m with pools, seqs := m.seqs.insert k s, commits := plan.nextCommits })
      | some next =>
        match flipParity m.groups s.parity with
        | .error e => (.error e, { m with pools, seqs := m.seqs.insert k s })
        | .ok parity =>
          (.ok (),
            { m with
              pools
              seqs := m.seqs.insert k { s with parity }
              swaps := next
              commits := plan.nextCommits })

/-! ### Freeing a sequence -/

/-- Every block of the sequence must be in range, held and named once. -/
def checkTables (m : StateManager) (s : SeqState) : Outcome Unit :=
  forM s.tables.zipIdx fun (ids, gi) =>
    if ids = [] then pure ()
    else do
      let pool ← okOr m.pools[gi]?.join (fail (.invalidBatch s!"group {gi} is not a paged group"))
      forM ids.zipIdx fun (id, i) => do
        ensure (id < pool.total) (fail (.invalidBatch
          s!"block {id} in group {gi} exceeds pool capacity {pool.total}"))
        ensure (pool.contains id = false)
          (fail (.invalidBatch s!"block {id} in group {gi} is already free"))
        ensure (id ∉ ids.take i) (fail (.invalidBatch
          s!"block {id} in group {gi} is duplicated in sequence table"))

/-- Every slot of the sequence must be in range and held. -/
def checkFixedSlots (m : StateManager) (s : SeqState) : Outcome Unit :=
  forM s.fixedSlots.zipIdx fun (slot, gi) =>
    match slot with
    | none => pure ()
    | some id => do
      let pool ← okOr m.fixed[gi]?.join (fail (.invalidBatch s!"group {gi} is not a fixed group"))
      ensure (id < pool.totalSlots) (fail (.invalidBatch
        s!"fixed slot {id} in group {gi} exceeds pool capacity {pool.totalSlots}"))
      ensure (id ∉ pool.free)
        (fail (.invalidBatch s!"fixed slot {id} in group {gi} is already free"))

/-- The checks of `freeSeq`, and the next live count. -/
def freeChecks (m : StateManager) (k : SeqId) : Outcome (SeqState × ℕ) := do
  let s ← lift (m.seq k)
  let nextLive ← okOr (sub m.liveCount 1) (fail (.overflow "live sequence count"))
  m.checkTables s
  m.checkFixedSlots s
  pure (s, nextLive)

/-- Gives a table of blocks back, in order. -/
def releaseAll : List ℕ → BlockPool → Outcome Unit × BlockPool
  | [], pool => (.ok (), pool)
  | id :: ids, pool =>
    match pool.release id with
    | .error e => (.error (.err e), pool)
    | .ok pool => releaseAll ids pool

/-- Gives the tables of a sequence back, group by group. -/
def releaseTables :
    List (List ℕ × ℕ) → List (Option BlockPool) → Outcome Unit × List (Option BlockPool)
  | [], pools => (.ok (), pools)
  | (ids, gi) :: rest, pools =>
    if ids = [] then releaseTables rest pools
    else
      match pools[gi]?.join with
      | none => (.error (fail (.invalidBatch s!"group {gi} is not a paged group")), pools)
      | some pool =>
        match releaseAll ids pool with
        | (.error e, pool) => (.error e, pools.set gi (some pool))
        | (.ok (), pool) => releaseTables rest (pools.set gi (some pool))

/-- Gives the slots of a sequence back, group by group. -/
def releaseSlots :
    List (Option ℕ × ℕ) → List (Option FixedPool) → Outcome Unit × List (Option FixedPool)
  | [], fixed => (.ok (), fixed)
  | (none, _) :: rest, fixed => releaseSlots rest fixed
  | (some id, gi) :: rest, fixed =>
    match fixed[gi]?.join with
    | none => (.error (fail (.invalidBatch s!"group {gi} is not a fixed group")), fixed)
    | some pool => releaseSlots rest (fixed.set gi (some (pool.insert id)))

/-- Ends a sequence. -/
def freeSeq (m : StateManager) (k : SeqId) : Outcome Unit × StateManager :=
  match m.freeChecks k with
  | .error e => (.error e, m)
  | .ok (s, nextLive) =>
    let seqs := m.seqs.erase k
    match releaseTables s.tables.zipIdx m.pools with
    | (.error e, pools) => (.error e, { m with seqs, pools })
    | (.ok (), pools) =>
      match releaseSlots s.fixedSlots.zipIdx m.fixed with
      | (.error e, fixed) => (.error e, { m with seqs, pools, fixed })
      | (.ok (), fixed) => (.ok (), { m with seqs, pools, fixed, liveCount := nextLive })

end StateManager

/-! ### Runs -/

/-- A call of the manager that may change it. -/
inductive Call
  | newSeq (tokens : List ℕ)
  | reserve (seq : SeqId) (n : ℕ)
  | writeTokens (seq : SeqId) (start : ℕ) (tokens : List ℕ)
  | compact (seq : SeqId) (accepted : List ℕ)
  | commit (seq : SeqId) (accepted : ℕ)
  | freeSeq (seq : SeqId)
  deriving DecidableEq

/-- Makes a call: how it ends, and the manager afterwards. -/
def Call.exec (c : Call) (m : StateManager) : Outcome Unit × StateManager :=
  match c with
  | .newSeq tokens => ((m.newSeq tokens).1.map fun _ => (), (m.newSeq tokens).2)
  | .reserve k n => ((m.reserve k n).1.map fun _ => (), (m.reserve k n).2)
  | .writeTokens k start tokens => m.writeTokens k start tokens
  | .compact k accepted => ((m.compact k accepted).1.map fun _ => (), (m.compact k accepted).2)
  | .commit k accepted => m.commit k accepted
  | .freeSeq k => m.freeSeq k

/-- The manager after a list of calls. -/
def StateManager.run (m : StateManager) (calls : List Call) : StateManager :=
  calls.foldl (fun m c => (c.exec m).2) m

/-- A manager that some calls lead to from a construction. -/
def StateManager.Reachable (m : StateManager) : Prop :=
  ∃ m₀ calls, StateManager.Built m₀ ∧ m = m₀.run calls

end R9v

import R9v.T0.Paged

/-!
# Serving from a paged cache

A manager hands out blocks, a step writes the rows of its tokens into the slots of a cache, and
the queries of the step look rows up through the block table. Here the three are put together:
`Serving` is a manager with the cache of one of its paged groups, and `Served` are the states
that its calls lead to. Beside them run the rows that each sequence was given (`stream`, the
verified ones, and `draft`, those of the open reservation), which no code reads.

Everything about the cache follows from one invariant (`Stores`): a slot that a sequence has
for a position holds the row that was given last for this position. A query then sees the rows
of its own sequence and no others (`attention_sees_context`).
-/

namespace R9v

open Checked StateManager List

variable {ρ : Type}

/-! ### What a query finds -/

/-- A batch of a manager, and a cache for one of its paged groups that has the rows of every
position that a query of the batch may ask for. -/
structure Readable (m : StateManager) (seqs : List SeqId) (queryLens : List ℕ)
    (flat : List ℕ × List ℕ × List ℕ) (gi : ℕ) (r : Retain) (cache : KvPagedCache ρ) : Prop where
  inv : ∃ H, Inv H m
  plan : Plannable m seqs queryLens
  filled : Filled m seqs queryLens m.groups.length flat
  group : ∃ g, m.groups[gi]? = some g ∧ g.spec.retain = some r
  pool : ∃ p, m.pools[gi]? = some (some p) ∧ cache.numBlocks = p.total
  written : ∀ {j k q s}, BatchRow m seqs queryLens j k q s → ∀ pos < s.ctxLen + q,
    ¬r.Evicted s.ctxLen (pos / 32) → (cache.rows (s.slotAt gi pos)).isSome

namespace Readable

variable {m : StateManager} {seqs : List SeqId} {queryLens : List ℕ}
  {flat : List ℕ × List ℕ × List ℕ} {gi : ℕ} {r : Retain} {cache : KvPagedCache ρ}
  (positions : Option Positions) (mask : Option TreeMask) {j : ℕ} {k : SeqId} {q : ℕ} {s : SeqState}

theorem lookAt_eq (h : Readable m seqs queryLens flat gi r cache)
    (hrow : BatchRow m seqs queryLens j k q s) {pos : ℕ} (hpos : pos < s.ctxLen + q)
    (hkept : ¬r.Evicted s.ctxLen (pos / 32)) :
    lookAt (described m seqs queryLens positions mask flat) gi cache j pos =
      ([], [s.slotAt gi pos]) := by
  obtain ⟨H, hinv⟩ := h.inv
  obtain ⟨g, hg, hr⟩ := h.group
  obtain ⟨p, hp, hcache⟩ := h.pool
  have hseq := hinv.seqs k s hrow.state
  have hle := h.plan.query_le hrow
  obtain ⟨id, hid, hslot⟩ := hinv.exists_slot hg hr hrow.state (by omega) hkept
  have hidx : pos / 32 < m.maxBlocks := by
    have h₁ := hseq.tail_le
    have h₂ := hseq.high_le
    have h₃ := hinv.shape.config.maxBlocks_mul
    rw [hinv.shape.maxBlocks_eq]
    omega
  have hlt : id < p.total := (hinv.blocks gi p hp).owned.of_mem_held (mem_heldBlocks hrow.state hid)
  have hsent : id ≠ blockTableSentinel := by
    obtain ⟨-, p', hp', htotal⟩ := hinv.shape.paged gi g hg (StateSpec.isPaged_of_retain hr)
    obtain rfl : p = p' := Option.some.inj (Option.some.inj (hp.symm.trans hp'))
    simp only [blockTableSentinel, u32Max, maxSlotBlocks] at htotal ⊢
    omega
  have hin : s.slotAt gi pos < cache.numSlots := by
    rw [hslot, KvPagedCache.numSlots, hcache, blockTokens]
    omega
  have hfound : slotForPosition (described m seqs queryLens positions mask flat) gi j pos
      cache.numSlots = .ok (some (s.slotAt gi pos)) := by
    have hblock := checkedBlock_described positions mask h.filled hg hr hrow
      hidx
    rw [hseq.blockAt_eq hid] at hblock
    rw [hslot] at hin ⊢
    exact slotForPosition_of_block hidx hblock hsent hin
  have hwritten : cache.isWritten (s.slotAt gi pos) = true := by
    rw [KvPagedCache.isWritten, h.written hrow pos hpos hkept, decide_eq_true hin]
    rfl
  simp only [lookAt, hfound, if_pos hwritten]

theorem not_evicted_of_isRetained {ctx pos : ℕ} (h : isRetained r.sinks (r.start ctx) pos = true) :
    ¬r.Evicted ctx (pos / 32) := by
  rcases Bool.or_eq_true_iff.mp h with h | h
  · exact not_evicted_of_lt_sinks (of_decide_eq_true h)
  · exact not_evicted_of_start_le (of_decide_eq_true h)

theorem lookFor_eq (h : Readable m seqs queryLens flat gi r cache)
    (hrow : BatchRow m seqs queryLens j k q s) {i pos : ℕ} (hi : i < q) (hpos : pos ≤ s.ctxLen + i)
    (tok : ℕ) :
    lookFor (described m seqs queryLens positions mask flat) gi r.sinks false cache
        ⟨j, s.ctxLen + i, s.ctxLen, q⟩ (r.start s.ctxLen) tok pos =
      if isRetained r.sinks (r.start s.ctxLen) pos then ([], [s.slotAt gi pos]) else ([], []) := by
  by_cases hret : isRetained r.sinks (r.start s.ctxLen) pos = true
  · have hfound := h.lookAt_eq positions mask hrow
      (show pos < s.ctxLen + q by omega) (not_evicted_of_isRetained hret)
    simp only [lookFor, hret, Bool.not_true, Bool.false_eq_true, if_false, if_true,
      if_neg (not_lt.mpr hpos), hfound, ite_self]
  · simp only [lookFor, Bool.not_eq_true] at hret ⊢
    simp only [hret, Bool.not_false, if_true, Bool.false_eq_true, if_false]

/-- The positions that a query of a sequence may see under the policy. -/
def retainedUpTo (r : Retain) (ctx pos : ℕ) : List ℕ :=
  (List.range (pos + 1)).filter (isRetained r.sinks (r.start ctx))

theorem self_mem_retainedUpTo {ctx pos : ℕ} (h : ctx ≤ pos) : pos ∈ retainedUpTo r ctx pos := by
  refine mem_filter.mpr ⟨mem_range.mpr (Nat.lt_succ_self pos), ?_⟩
  have hle : r.start ctx ≤ pos := by
    cases r <;> simp only [Retain.start] <;> omega
  rw [isRetained, decide_eq_true hle, Bool.or_true]

/-- **The slots that a query sees.** -/
theorem planQuery_eq (h : Readable m seqs queryLens flat gi r cache)
    (hrow : BatchRow m seqs queryLens j k q s) {i : ℕ} (hi : i < q) (tok : ℕ) :
    planQuery (described m seqs queryLens positions mask flat) gi r.sinks false cache []
        ⟨j, s.ctxLen + i, s.ctxLen, q⟩ tok =
      ([], (retainedUpTo r s.ctxLen (s.ctxLen + i)).map (s.slotAt gi)) := by
  obtain ⟨g, hg, hr⟩ := h.group
  have hwindow := checkedWindow_described positions mask h.filled hg hr hrow
  have hlook : ∀ pos ∈ List.range (s.ctxLen + i + 1), lookFor
      (described m seqs queryLens positions mask flat) gi r.sinks false cache
        ⟨j, s.ctxLen + i, s.ctxLen, q⟩ (r.start s.ctxLen) tok pos =
      if isRetained r.sinks (r.start s.ctxLen) pos then ([], [s.slotAt gi pos]) else ([], []) :=
    fun pos hpos => h.lookFor_eq positions mask hrow hi (Nat.lt_succ_iff.mp (mem_range.mp hpos)) tok
  set found := (List.range (s.ctxLen + i + 1)).map
    (lookFor (described m seqs queryLens positions mask flat) gi r.sinks false cache
      ⟨j, s.ctxLen + i, s.ctxLen, q⟩ (r.start s.ctxLen) tok) with hfound
  have hnone : found.flatMap (·.1) = [] := by
    rw [flatMap_eq_nil_iff]
    intro x hx
    obtain ⟨pos, hpos, rfl⟩ := mem_map.mp hx
    rw [hlook pos hpos]
    split <;> rfl
  have hvisible : found.flatMap (·.2) =
      (retainedUpTo r s.ctxLen (s.ctxLen + i)).map (s.slotAt gi) := by
    rw [hfound, map_congr_left hlook, retainedUpTo]
    generalize List.range (s.ctxLen + i + 1) = l
    induction l with
    | nil => rfl
    | cons pos l ih =>
      rw [map_cons, flatMap_cons, ih, filter_cons]
      split <;> rfl
  have hne : (retainedUpTo r s.ctxLen (s.ctxLen + i)).map (s.slotAt gi) ≠ [] :=
    ne_nil_of_mem (mem_map_of_mem (self_mem_retainedUpTo (Nat.le_add_right _ i)))
  simp only [planQuery, hwindow, queryStop, Bool.false_eq_true, if_false, ← hfound, hnone, hvisible,
    hne, false_and, append_nil]

theorem visiblePositions_eq (h : Readable m seqs queryLens flat gi r cache)
    (hrow : BatchRow m seqs queryLens j k q s) {i : ℕ} (hi : i < q) (tok : ℕ) :
    visiblePositions (described m seqs queryLens positions mask flat) gi r.sinks false cache
        ⟨j, s.ctxLen + i, s.ctxLen, q⟩ tok = retainedUpTo r s.ctxLen (s.ctxLen + i) := by
  obtain ⟨g, hg, hr⟩ := h.group
  have hwindow := checkedWindow_described positions mask h.filled hg hr hrow
  simp only [visiblePositions, hwindow, queryStop, Bool.false_eq_true, if_false, retainedUpTo]
  refine filter_congr fun pos hpos => ?_
  rw [h.lookFor_eq positions mask hrow hi (Nat.lt_succ_iff.mp (mem_range.mp hpos)) tok]
  cases isRetained r.sinks (r.start s.ctxLen) pos <;> rfl

end Readable

theorem planVisible_of_ok {b : BatchMeta} {gi sinks : ℕ} {isTree : Bool} {cache : KvPagedCache ρ}
    {queries : List QueryInfo}
    (h : ∀ x ∈ queries.zipIdx, (planQuery b gi sinks isTree cache [] x.1 x.2).1 = []) :
    planVisible b gi sinks isTree cache queries = ([], queries.zipIdx.map fun x =>
      (planQuery b gi sinks isTree cache [] x.1 x.2).2) := by
  have hfold : ∀ (l : List (QueryInfo × ℕ)) (done : List (List ℕ)),
      (∀ x ∈ l, (planQuery b gi sinks isTree cache [] x.1 x.2).1 = []) →
      l.foldl (fun acc x =>
        let found := planQuery b gi sinks isTree cache acc.1 x.1 x.2
        (found.1, acc.2 ++ [found.2])) ([], done) =
      ([], done ++ l.map fun x => (planQuery b gi sinks isTree cache [] x.1 x.2).2) := by
    intro l
    induction l with
    | nil => simp
    | cons x l ih =>
      intro done hl
      obtain ⟨hx, hl⟩ := forall_mem_cons.mp hl
      rw [foldl_cons]
      simp only [hx]
      rw [ih _ hl, map_cons, append_assoc]
      rfl
  simpa [planVisible] using hfold queries.zipIdx [] h

/-! ### Serving -/

/-- A manager, the cache of one of its groups, and what was given to the sequences. -/
structure Serving (ρ : Type) where
  manager : StateManager
  cache : KvPagedCache ρ
  /-- The rows of the verified tokens of a sequence. -/
  stream : SeqId → List ρ
  /-- The rows that were written since the last reservation of a sequence. -/
  draft : SeqId → List ρ
  /-- The steps that a sequence took part in: its length before, and its new tokens. -/
  chunks : SeqId → List (ℕ × ℕ)
  /-- The queries of a sequence, with the positions that each of them saw. -/
  seen : SeqId → List (ℕ × List ℕ)

/-- The input of a step. -/
structure Forward (ρ : Type) where
  seqs : List SeqId
  queryLens : List ℕ
  positions : Option Positions
  tree : Option TreeMask
  /-- A row for each token. -/
  rows : List ρ

namespace Serving

/-- Nothing is served yet. -/
def new (m : StateManager) (numBlocks : ℕ) : Serving ρ where
  manager := m
  cache := .new numBlocks
  stream := fun _ => []
  draft := fun _ => []
  chunks := fun _ => []
  seen := fun _ => []

/-- Makes a call of the manager. -/
def manage (c : Call) (x : Serving ρ) : Serving ρ :=
  match c.exec x.manager with
  | (.error _, m) => { x with manager := m }
  | (.ok (), m) =>
    match c with
    | .reserve k _ => { x with
      manager := m
      draft := Function.update x.draft k [] }
    | .commit k accepted => { x with
      manager := m
      stream := Function.update x.stream k (x.stream k ++ (x.draft k).take accepted)
      draft := Function.update x.draft k [] }
    | _ => { x with manager := m }

/-- The positions that the queries of a step see. -/
def views (b : BatchMeta) (gi sinks : ℕ) (cache : KvPagedCache ρ) (queries : List QueryInfo) :
    List (ℕ × List ℕ) :=
  queries.zipIdx.map fun x => (x.1.absPos, visiblePositions b gi sinks false cache x.1 x.2)

/-- The rows of the open reservation of a sequence after a step. -/
def draftAfter (x : Serving ρ) (f : Forward ρ) (k : SeqId) : List ρ :=
  stepRows f.seqs f.queryLens f.rows k ++
    (x.draft k).drop (stepRows f.seqs f.queryLens f.rows k).length

/-- Where a sequence of a batch stands, and its new tokens. -/
def batchChunk (seqs : List SeqId) (b : BatchMeta) (k : SeqId) : List (ℕ × ℕ) :=
  ((seqs.zip (b.ctxLen.zip b.queryLen)).lookup k).toList

/-- Makes a step: the metadata, the write of the rows, and the queries. -/
def forward (gi sinks : ℕ) (f : Forward ρ) (x : Serving ρ) : Serving ρ :=
  match x.manager.batchMetaWithOptions f.seqs f.queryLens f.positions f.tree with
  | .error _ => x
  | .ok b =>
    match stateWriteKvPaged b gi f.rows x.cache with
    | .error _ => x
    | .ok cache => { x with
      cache
      draft := x.draftAfter f
      chunks := fun k => x.chunks k ++ batchChunk f.seqs b k
      seen := fun k =>
        match planQueries b with
        | .error _ => x.seen k
        | .ok queries =>
          x.seen k ++ stepRows f.seqs f.queryLens (views b gi sinks cache queries) k }

end Serving

/-- **The states of a server** for a paged group with a retention policy: calls of the manager
that are not compactions, and steps, in any order. What is committed was written. -/
inductive Served (gi : ℕ) (r : Retain) : Serving ρ → Prop
  | new {m : StateManager} {g : LayerGroup} {p : BlockPool} (built : m.Built)
      (group : m.groups[gi]? = some g) (retain : g.spec.retain = some r)
      (pool : m.pools[gi]? = some (some p)) : Served gi r (.new m p.total)
  | manage {x : Serving ρ} (h : Served gi r x) (c : Call) (plain : ∀ k l, c ≠ .compact k l)
      (written : ∀ k a, c = .commit k a → a ≤ (x.draft k).length) : Served gi r (x.manage c)
  | forward {x : Serving ρ} (h : Served gi r x) (f : Forward ρ) :
      Served gi r (x.forward gi r.sinks f)

/-- **What a cache holds**: a slot that a sequence has for a position holds the row that the
sequence was given last for this position. -/
structure Stores (gi : ℕ) (r : Retain) (x : Serving ρ) : Prop where
  inv : ∃ H, Inv H x.manager
  group : ∃ g, x.manager.groups[gi]? = some g ∧ g.spec.retain = some r
  pool : ∃ p, x.manager.pools[gi]? = some (some p) ∧ x.cache.numBlocks = p.total
  stream_length : ∀ (k : SeqId) (s : SeqState), x.manager.seqs[k]? = some s →
    (x.stream k).length = s.ctxLen
  draft_length : ∀ (k : SeqId) (s : SeqState), x.manager.seqs[k]? = some s →
    (x.draft k).length ≤ s.tailLen
  unborn : ∀ k, x.manager.nextSeq ≤ k → x.stream k = [] ∧ x.draft k = []
  rows : ∀ (k : SeqId) (s : SeqState), x.manager.seqs[k]? = some s →
    ∀ (pos : ℕ) (row : ρ), (x.stream k ++ x.draft k)[pos]? = some row →
      ∀ slot, s.InSlot gi pos slot → x.cache.rows slot = some row

/-! ### Calls of the manager keep the rows -/

section Manage

variable {gi : ℕ} {r : Retain} {x : Serving ρ} {k : SeqId}

/-- A call that touches one sequence needs to be looked at for this sequence only. -/
theorem Stores.replace (h : Stores gi r x) {m' : StateManager} {stream' draft' : SeqId → List ρ}
    {H' : SeqId → ℕ} (k : SeqId) (hinv : Inv H' m') (hgroups : m'.groups = x.manager.groups)
    (hpool : ∀ p, x.manager.pools[gi]? = some (some p) →
      ∃ p', m'.pools[gi]? = some (some p') ∧ p'.total = p.total)
    (hnext : x.manager.nextSeq ≤ m'.nextSeq)
    (hother : ∀ k', k' ≠ k → stream' k' = x.stream k' ∧ draft' k' = x.draft k' ∧
      m'.seqs[k']? = x.manager.seqs[k']?)
    (hunborn : m'.nextSeq ≤ k → stream' k = [] ∧ draft' k = [])
    (hself : ∀ s', m'.seqs[k]? = some s' → (stream' k).length = s'.ctxLen ∧
      (draft' k).length ≤ s'.tailLen ∧ ∀ pos row, (stream' k ++ draft' k)[pos]? = some row →
        ∀ slot, s'.InSlot gi pos slot → x.cache.rows slot = some row) :
    Stores gi r { x with manager := m', stream := stream', draft := draft' } where
  inv := ⟨H', hinv⟩
  group := by
    rw [hgroups]
    exact h.group
  pool := by
    obtain ⟨p, hp, hcache⟩ := h.pool
    obtain ⟨p', hp', htotal⟩ := hpool p hp
    exact ⟨p', hp', hcache.trans htotal.symm⟩
  stream_length := by
    intro k' s' hs'
    rcases eq_or_ne k' k with rfl | hne
    · exact (hself s' hs').1
    · obtain ⟨h₁, -, h₃⟩ := hother k' hne
      simp only [h₁]
      exact h.stream_length k' s' (h₃ ▸ hs')
  draft_length := by
    intro k' s' hs'
    rcases eq_or_ne k' k with rfl | hne
    · exact (hself s' hs').2.1
    · obtain ⟨-, h₂, h₃⟩ := hother k' hne
      simp only [h₂]
      exact h.draft_length k' s' (h₃ ▸ hs')
  unborn := by
    intro k' hk'
    rcases eq_or_ne k' k with rfl | hne
    · exact hunborn hk'
    · obtain ⟨h₁, h₂, -⟩ := hother k' hne
      simp only [h₁, h₂]
      exact h.unborn k' (hnext.trans hk')
  rows := by
    intro k' s' hs'
    rcases eq_or_ne k' k with rfl | hne
    · exact (hself s' hs').2.2
    · obtain ⟨h₁, h₂, h₃⟩ := hother k' hne
      simp only [h₁, h₂]
      exact h.rows k' s' (h₃ ▸ hs')

theorem Trades.exists_total {pools pools' : List (Option BlockPool)} {s s' : SeqState}
    (h : Trades pools pools' s s') {p : BlockPool} (hp : pools[gi]? = some (some p)) :
    ∃ p', pools'[gi]? = some (some p') ∧ p'.total = p.total := by
  obtain ⟨p', hp', htrade⟩ := h.paged gi p hp
  have heq : p' = { p with free := p'.free } := htrade.pool_eq
  exact ⟨p', hp', by rw [heq]⟩

theorem getElem?_insert_of_ne {seqs : Std.ExtTreeMap ℕ SeqState} {k k' : SeqId} {s : SeqState}
    (h : k' ≠ k) : (seqs.insert k s)[k']? = seqs[k']? := by
  rw [Std.ExtTreeMap.getElem?_insert, if_neg (by simpa using h.symm)]

theorem Stores.reserve_rows (h : Stores gi r x) {n : ℕ} {m' : StateManager} {s s' : SeqState}
    {range : SlotRange} {H' : SeqId → ℕ} (hs : x.manager.seqs[k]? = some s)
    (hok : x.manager.reserve k n = (.ok range, m')) (hs' : m'.seqs[k]? = some s')
    (hinv' : Inv H' m') (hgroups : m'.groups = x.manager.groups) (hctx : s'.ctxLen = s.ctxLen)
    {pos slot : ℕ} {row : ρ} (hrow : (x.stream k)[pos]? = some row)
    (hin : s'.InSlot gi pos slot) : x.cache.rows slot = some row := by
  obtain ⟨H, hinv⟩ := h.inv
  obtain ⟨g, hg, hr⟩ := h.group
  have hpos : pos < s.ctxLen := by
    rw [← h.stream_length k s hs]
    exact (List.getElem?_eq_some_iff.mp hrow).1
  have hkept : ¬r.Evicted s.ctxLen (pos / 32) := by
    rw [← hctx]
    exact hinv'.not_evicted_of_inSlot (hgroups ▸ hg) hr hs' hin
  obtain ⟨id, hid, hslot⟩ := hinv.exists_slot hg hr hs (Nat.lt_add_right _ hpos) hkept
  -- the old block of the position is still its block
  have hin' : s'.InSlot gi pos (s.slotAt gi pos) :=
    ⟨id, reserve_entries hinv hs hok hs' gi hid, hslot⟩
  have heq : s.slotAt gi pos = slot := by
    have hseq := hinv'.seqs k s' hs'
    rw [← hseq.slotAt_eq hin', hseq.slotAt_eq hin]
  rw [← heq]
  refine h.rows k s hs pos row ?_ _ ⟨id, hid, hslot⟩
  rw [getElem?_append_left (by rw [h.stream_length k s hs]; exact hpos)]
  exact hrow

theorem exec_reserve {m m' : StateManager} {n : ℕ} (h : (Call.reserve k n).exec m = (.ok (), m')) :
    ∃ range, m.reserve k n = (.ok range, m') := by
  simp only [Call.exec, Prod.mk.injEq] at h
  obtain ⟨hok, rfl⟩ := h
  cases hres : (m.reserve k n).1 with
  | ok range => exact ⟨range, Prod.ext hres rfl⟩
  | error e =>
    rw [hres] at hok
    cases hok

/-- **A call of the manager keeps the rows.** -/
theorem Stores.manage (h : Stores gi r x) {c : Call} (hplain : ∀ k l, c ≠ .compact k l)
    (hwritten : ∀ k a, c = .commit k a → a ≤ (x.draft k).length) : Stores gi r (x.manage c) := by
  obtain ⟨H, hinv⟩ := h.inv
  rcases c.exec_cases hinv with ⟨e, sc, he⟩ | ⟨m', he, hstep⟩
  · simp only [Serving.manage, he]
    exact ⟨⟨H, hinv.scratch sc⟩, h.group, h.pool, h.stream_length, h.draft_length, h.unborn, h.rows⟩
  have hinv' := hstep.inv hinv he
  cases hstep with
  | newSeq start live id =>
    simp only [Serving.manage, he]
    refine h.replace x.manager.nextSeq hinv' rfl (fun p hp => ⟨p, hp, rfl⟩) (Nat.le_succ _)
      (fun k' hne => ⟨rfl, rfl, getElem?_insert_of_ne hne⟩)
      (fun hle => absurd hle (Nat.not_succ_le_self _)) fun s' hs' => ?_
    obtain ⟨h₁, h₂⟩ := h.unborn _ le_rfl
    obtain rfl := Option.some.inj (Std.ExtTreeMap.getElem?_insert_self.symm.trans hs')
    rw [h₁, h₂]
    exact ⟨rfl, le_rfl, fun pos row hrow => absurd hrow (by simp)⟩
  | @reserve k n s s' pools' sc able done =>
    obtain ⟨range, hok⟩ := exec_reserve he
    have hlt := hinv.ids_lt k s able.1
    simp only [Serving.manage, he]
    refine h.replace k hinv' rfl (fun p hp => done.trades.exists_total hp) le_rfl
      (fun k' hne => ⟨rfl, Function.update_of_ne hne _ _, getElem?_insert_of_ne hne⟩)
      (fun hle => absurd hlt (not_lt.mpr hle)) fun t ht => ?_
    have hctx : t.ctxLen = s.ctxLen := by
      obtain rfl := Option.some.inj (Std.ExtTreeMap.getElem?_insert_self.symm.trans ht)
      rw [done.frame]
    rw [Function.update_self, append_nil, hctx]
    exact ⟨h.stream_length k s able.1, Nat.zero_le _, fun pos row hrow slot hin =>
      h.reserve_rows able.1 hok ht hinv' rfl hctx hrow hin⟩
  | @writeTokens k start tokens s mirror able stored =>
    have hlt := hinv.ids_lt k s able.1
    simp only [Serving.manage, he]
    refine h.replace k hinv' rfl (fun p hp => ⟨p, hp, rfl⟩) le_rfl
      (fun k' hne => ⟨rfl, rfl, getElem?_insert_of_ne hne⟩)
      (fun hle => absurd hlt (not_lt.mpr hle)) fun t ht => ?_
    obtain rfl := Option.some.inj (Std.ExtTreeMap.getElem?_insert_self.symm.trans ht)
    exact ⟨h.stream_length k s able.1, h.draft_length k s able.1, h.rows k s able.1⟩
  | compact able stored => exact absurd rfl (hplain _ _)
  | @commit k accepted s s' pools' swaps' able done =>
    have hlt := hinv.ids_lt k s able.live
    have hle := hwritten k accepted rfl
    simp only [Serving.manage, he]
    refine h.replace k hinv' rfl (fun p hp => done.trades.exists_total hp) le_rfl
      (fun k' hne => ⟨Function.update_of_ne hne _ _, Function.update_of_ne hne _ _,
        getElem?_insert_of_ne hne⟩)
      (fun hle => absurd hlt (not_lt.mpr hle)) fun t ht => ?_
    rw [Function.update_self, Function.update_self, append_nil]
    refine ⟨?_, Nat.zero_le _, fun pos row hrow slot hin => ?_⟩
    · obtain rfl := Option.some.inj (Std.ExtTreeMap.getElem?_insert_self.symm.trans ht)
      rw [length_append, length_take, min_eq_left hle, h.stream_length k s able.live,
        done.frame]
    · -- the accepted rows are the first rows of the draft, and no block was moved
      have hrow' : (x.stream k ++ x.draft k)[pos]? = some row := by
        rw [← take_append_drop accepted (x.draft k), ← append_assoc,
          List.getElem?_append_left (List.getElem?_eq_some_iff.mp hrow).1]
        exact hrow
      obtain ⟨id, hid, rfl⟩ := hin
      exact h.rows k s able.live pos row hrow' _ ⟨id, commit_entries hinv able.live he ht gi hid, rfl⟩
  | @freeSeq k s pools' fixed' live ended =>
    have hlt := hinv.ids_lt k s live
    simp only [Serving.manage, he]
    refine h.replace k hinv' rfl (fun p hp => ?_) le_rfl (fun k' hne => ⟨rfl, rfl, ?_⟩)
      (fun hle => absurd hlt (not_lt.mpr hle)) fun t ht => ?_
    · obtain ⟨p', hp', heq, -⟩ := ended.paged gi p hp
      exact ⟨p', hp', by rw [heq]⟩
    · exact (Std.ExtTreeMap.getElem?_erase).trans (if_neg (by simpa using hne.symm))
    · exact absurd ht (by simp)

end Manage

/-! ### Steps keep the rows -/

section Forward

variable {gi : ℕ} {r : Retain} {x : Serving ρ} {f : Forward ρ} {b : BatchMeta}

theorem Stores.meta_eq (h : Stores gi r x)
    (hb : x.manager.batchMetaWithOptions f.seqs f.queryLens f.positions f.tree = .ok b) :
    ∃ flat, Plannable x.manager f.seqs f.queryLens ∧
      Filled x.manager f.seqs f.queryLens x.manager.groups.length flat ∧
      b = described x.manager f.seqs f.queryLens f.positions f.tree flat := by
  obtain ⟨H, hinv⟩ := h.inv
  by_cases hplan : Plannable x.manager f.seqs f.queryLens
  · obtain ⟨flat, hflat⟩ := hplan.exists_emits hinv
    obtain ⟨-, -, rfl⟩ := (batchMetaWithOptions_eq_ok hinv fun _ => hflat).mp hb
    exact ⟨flat, hplan, hflat.filled hinv hplan, rfl⟩
  · have hnone : Plannable x.manager f.seqs f.queryLens →
        Emits x.manager f.seqs f.queryLens ([], [], []) := fun hp => absurd hp hplan
    obtain ⟨hadm, -, -⟩ := (batchMetaWithOptions_eq_ok hinv hnone).mp hb
    exact absurd hadm.plan hplan

/-- **What the write of a step does to the cache.** -/
structure Wrote (gi : ℕ) (x : Serving ρ) (f : Forward ρ) (cache' : KvPagedCache ρ) : Prop where
  numBlocks : cache'.numBlocks = x.cache.numBlocks
  new : ∀ {j k q s}, BatchRow x.manager f.seqs f.queryLens j k q s → ∀ i < q,
    cache'.rows (s.slotAt gi (s.ctxLen + i)) = (stepRows f.seqs f.queryLens f.rows k)[i]?
  old : ∀ slot, (∀ {j k q s}, BatchRow x.manager f.seqs f.queryLens j k q s → ∀ i < q,
    slot ≠ s.slotAt gi (s.ctxLen + i)) → cache'.rows slot = x.cache.rows slot

theorem Stores.wrote (h : Stores gi r x)
    (hb : x.manager.batchMetaWithOptions f.seqs f.queryLens f.positions f.tree = .ok b)
    (hrows : f.rows.length = b.t) :
    ∃ cache', stateWriteKvPaged b gi f.rows x.cache = .ok cache' ∧ Wrote gi x f cache' := by
  obtain ⟨H, hinv⟩ := h.inv
  obtain ⟨g, hg, hr⟩ := h.group
  obtain ⟨p, hp, hcache⟩ := h.pool
  obtain ⟨flat, hplan, hfilled, rfl⟩ := h.meta_eq hb
  obtain ⟨cache', hok, hblocks, hnew, hold⟩ := stateWriteKvPaged_described f.positions f.tree hinv
    hplan hfilled hg hr hp hcache hrows
  refine ⟨cache', hok, hblocks, fun hrow i hi => ?_, hold⟩
  rw [hnew hrow i hi, stepRows_getElem? hplan.nodup hrow.seq hrow.query hi]

theorem Wrote.rows_of_row {cache' : KvPagedCache ρ} (hw : Wrote gi x f cache') {H : SeqId → ℕ}
    (hinv : Inv H x.manager) {j : ℕ} {k : SeqId} {q : ℕ} {s : SeqState}
    (hrow : BatchRow x.manager f.seqs f.queryLens j k q s) {i slot : ℕ} (hi : i < q)
    (hin : s.InSlot gi (s.ctxLen + i) slot) :
    cache'.rows slot = (stepRows f.seqs f.queryLens f.rows k)[i]? := by
  rw [← (hinv.seqs k s hrow.state).slotAt_eq hin]
  exact hw.new hrow i hi

theorem Wrote.rows_of_other {cache' : KvPagedCache ρ} (hw : Wrote gi x f cache')
    {H : SeqId → ℕ} (hinv : Inv H x.manager) {g : LayerGroup} {p : BlockPool}
    (hplan : Plannable x.manager f.seqs f.queryLens) (hg : x.manager.groups[gi]? = some g)
    (hr : g.spec.retain = some r) (hp : x.manager.pools[gi]? = some (some p)) {k : SeqId}
    {s : SeqState} (hs : x.manager.seqs[k]? = some s) {pos slot : ℕ} (hin : s.InSlot gi pos slot)
    (hother : ∀ {j q}, BatchRow x.manager f.seqs f.queryLens j k q s → ∀ i < q,
      pos ≠ s.ctxLen + i) : cache'.rows slot = x.cache.rows slot := by
  refine hw.old slot fun {j k' q s'} hrow i hi heq => ?_
  have hle := hplan.query_le hrow
  have hkept : ¬r.Evicted s'.ctxLen ((s'.ctxLen + i) / 32) := by
    refine not_evicted_of_start_le ?_
    cases r <;> simp only [Retain.start] <;> omega
  have hin' := hinv.exists_slot hg hr hrow.state (by omega) hkept
  rw [← heq] at hin'
  obtain ⟨rfl, rfl⟩ := hinv.slot_inj hp hs hrow.state hin hin'
  obtain rfl : s = s' := Option.some.inj (hs.symm.trans hrow.state)
  exact hother hrow i hi rfl

/-- **A step keeps the rows.** -/
theorem Stores.write (h : Stores gi r x) {cache' : KvPagedCache ρ} (hw : Wrote gi x f cache')
    (hplan : Plannable x.manager f.seqs f.queryLens) (hrows : f.rows.length = f.queryLens.sum)
    (chunks' : SeqId → List (ℕ × ℕ)) (seen' : SeqId → List (ℕ × List ℕ)) :
    Stores gi r { x with
      cache := cache', draft := x.draftAfter f, chunks := chunks', seen := seen' } := by
  obtain ⟨H, hinv⟩ := h.inv
  obtain ⟨g, hg, hr⟩ := h.group
  obtain ⟨p, hp, hcache⟩ := h.pool
  -- the rows of a sequence: those of the step first, then what is left of the old ones
  have hlength : ∀ {j k q s}, BatchRow x.manager f.seqs f.queryLens j k q s →
      (stepRows f.seqs f.queryLens f.rows k).length = q := fun hrow =>
    stepRows_length hplan.nodup hrow.seq hrow.query hrows
  have hmem : ∀ k s, x.manager.seqs[k]? = some s → k ∈ f.seqs →
      ∃ j q, BatchRow x.manager f.seqs f.queryLens j k q s := by
    intro k s hs hk
    obtain ⟨j, hj⟩ := mem_iff_getElem?.mp hk
    have hlt : j < f.queryLens.length := hplan.length_eq ▸ (List.getElem?_eq_some_iff.mp hj).1
    exact ⟨j, _, hj, getElem?_eq_getElem hlt, hs⟩
  refine ⟨⟨H, hinv⟩, ⟨g, hg, hr⟩, ⟨p, hp, hw.numBlocks.trans hcache⟩, h.stream_length, ?_, ?_, ?_⟩
  · intro k s hs
    have hdraft := h.draft_length k s hs
    simp only [Serving.draftAfter, length_append, length_drop]
    by_cases hk : k ∈ f.seqs
    · obtain ⟨j, q, hrow⟩ := hmem k s hs hk
      have := hplan.query_le hrow
      rw [hlength hrow]
      omega
    · rw [stepRows_of_not_mem hk]
      simpa using hdraft
  · intro k hk
    obtain ⟨h₁, h₂⟩ := h.unborn k hk
    have hnot : k ∉ f.seqs := by
      intro hmem'
      obtain ⟨s, hs⟩ := hplan.exists_seq hmem'
      exact absurd (hinv.ids_lt k s hs) (not_lt.mpr hk)
    refine ⟨h₁, ?_⟩
    simp only [Serving.draftAfter, stepRows_of_not_mem hnot, h₂]
    rfl
  · intro k s hs pos row hrow slot hin
    have hctx := h.stream_length k s hs
    simp only [Serving.draftAfter] at hrow
    by_cases hk : k ∈ f.seqs
    · obtain ⟨j, q, hbatch⟩ := hmem k s hs hk
      have hq := hlength hbatch
      have huniq : ∀ {j' q'}, BatchRow x.manager f.seqs f.queryLens j' k q' s → q' = q :=
        fun hbatch' => (hlength hbatch').symm.trans hq
      rcases lt_or_ge pos s.ctxLen with hlt | hge
      · -- a verified position
        rw [hw.rows_of_other hinv hplan hg hr hp hs hin fun _ i _ => by omega]
        refine h.rows k s hs pos row ?_ slot hin
        rw [getElem?_append_left (by omega)] at hrow ⊢
        exact hrow
      · obtain ⟨i, rfl⟩ := Nat.exists_eq_add_of_le hge
        rw [getElem?_append_right (by omega), hctx, Nat.add_sub_cancel_left] at hrow
        rcases lt_or_ge i q with hi | hi
        · -- a position of the step
          rw [hw.rows_of_row hinv hbatch hi hin]
          rwa [getElem?_append_left (by omega)] at hrow
        · -- a position that an earlier step of the reservation has written
          rw [hw.rows_of_other hinv hplan hg hr hp hs hin fun hbatch' i' hi' => by
            rw [huniq hbatch'] at hi'
            omega]
          refine h.rows k s hs _ row ?_ slot hin
          rw [getElem?_append_right (by omega), hctx, Nat.add_sub_cancel_left]
          rw [getElem?_append_right (by omega), getElem?_drop, hq] at hrow
          rwa [Nat.add_sub_of_le hi] at hrow
    · rw [stepRows_of_not_mem hk] at hrow
      rw [hw.rows_of_other hinv hplan hg hr hp hs hin fun hbatch =>
        absurd (mem_of_getElem? hbatch.seq) hk]
      exact h.rows k s hs pos row (by simpa using hrow) slot hin

theorem stateWriteKvPaged_ne_ok {cache cache' : KvPagedCache ρ} {rows : List ρ}
    (h : rows.length ≠ b.t) : stateWriteKvPaged b gi rows cache ≠ .ok cache' := by
  intro hok
  have hne : writeProblems b gi rows ≠ [] := by
    rw [writeProblems, if_pos h.symm]
    simp
  simp only [stateWriteKvPaged, append_eq_nil_iff, hne, false_and, if_false] at hok
  cases hok

theorem Stores.forward (h : Stores gi r x) (sinks : ℕ) (f : Forward ρ) :
    Stores gi r (x.forward gi sinks f) := by
  rw [Serving.forward]
  split
  · exact h
  next b hb =>
  split
  · exact h
  next cache hok =>
  by_cases hrows : f.rows.length = b.t
  · obtain ⟨flat, hplan, -, rfl⟩ := h.meta_eq hb
    obtain ⟨cache', hok', hw⟩ := h.wrote hb hrows
    obtain rfl : cache' = cache := Except.ok.inj (hok'.symm.trans hok)
    exact h.write hw hplan hrows _ _
  · exact absurd hok (stateWriteKvPaged_ne_ok hrows)

/-- **Every state of a server stores the rows of its sequences.** -/
theorem Served.stores (h : Served gi r x) : Stores gi r x := by
  induction h with
  | new built group retain pool =>
    refine ⟨⟨_, built.inv⟩, ⟨_, group, retain⟩, ⟨_, pool, rfl⟩, fun k s hs => ?_,
      fun k s hs => Nat.zero_le _, fun k _ => ⟨rfl, rfl⟩, fun k s hs pos row hrow => ?_⟩
    · have hle := (built.inv.seqs k s hs).tail_le
      simp only [Serving.new, length_nil]
      omega
    · exact absurd hrow (by simp [Serving.new])
  | manage _ c plain written ih => exact ih.manage plain written
  | forward _ f ih => exact ih.forward _ f

end Forward

/-! ### What attention sees -/

section Attention

variable {gi : ℕ} {r : Retain} {x : Serving ρ} {f : Forward ρ} {b : BatchMeta}

/-- After the write of a step, every position that a query may ask for has its row. -/
theorem Stores.readable (h : Stores gi r x) {cache' : KvPagedCache ρ} (hw : Wrote gi x f cache')
    {flat : List ℕ × List ℕ × List ℕ} (hplan : Plannable x.manager f.seqs f.queryLens)
    (hfilled : Filled x.manager f.seqs f.queryLens x.manager.groups.length flat)
    (hrows : f.rows.length = f.queryLens.sum) :
    Readable x.manager f.seqs f.queryLens flat gi r cache' := by
  have hafter := h.write hw hplan hrows x.chunks x.seen
  refine ⟨h.inv, hplan, hfilled, h.group, hafter.pool, fun {j k q s} hrow pos hpos hkept => ?_⟩
  obtain ⟨H, hinv⟩ := h.inv
  obtain ⟨g, hg, hr⟩ := h.group
  have hle := hplan.query_le hrow
  have hin := hinv.exists_slot hg hr hrow.state (show pos < _ by omega) hkept
  have hlt : pos < (x.stream k ++ x.draftAfter f k).length := by
    rw [length_append, h.stream_length k s hrow.state, Serving.draftAfter, length_append,
      stepRows_length hplan.nodup hrow.seq hrow.query hrows]
    omega
  rw [hafter.rows k s hrow.state pos _ (getElem?_eq_getElem hlt) _ hin]
  rfl

theorem Stores.rows_upTo (h : Stores gi .all x) {cache' : KvPagedCache ρ} (hw : Wrote gi x f cache')
    (hplan : Plannable x.manager f.seqs f.queryLens) (hrows : f.rows.length = f.queryLens.sum)
    {j : ℕ} {k : SeqId} {q : ℕ} {s : SeqState}
    (hrow : BatchRow x.manager f.seqs f.queryLens j k q s) {n : ℕ} (hn : n ≤ s.ctxLen + q) :
    ((List.range n).map (s.slotAt gi)).map cache'.rows =
      ((x.stream k ++ stepRows f.seqs f.queryLens f.rows k).take n).map some := by
  obtain ⟨H, hinv⟩ := h.inv
  obtain ⟨g, hg, hr⟩ := h.group
  have hafter := h.write hw hplan hrows x.chunks x.seen
  have hle := hplan.query_le hrow
  have hlen : (x.stream k ++ stepRows f.seqs f.queryLens f.rows k).length = s.ctxLen + q := by
    rw [length_append, h.stream_length k s hrow.state,
      stepRows_length hplan.nodup hrow.seq hrow.query hrows]
  refine ext_getElem? fun pos => ?_
  rw [getElem?_map, getElem?_map, getElem?_map]
  rcases lt_or_ge pos n with hlt | hge
  · have hin := hinv.exists_slot hg hr hrow.state (show pos < _ by omega) not_false
    obtain ⟨row, hget⟩ : ∃ row,
        (x.stream k ++ stepRows f.seqs f.queryLens f.rows k)[pos]? = some row :=
      ⟨_, getElem?_eq_getElem (by omega)⟩
    have hfull : (x.stream k ++ x.draftAfter f k)[pos]? = some row := by
      rw [Serving.draftAfter, ← append_assoc, getElem?_append_left (by omega), hget]
    rw [getElem?_range hlt, getElem?_take_of_lt hlt, hget]
    exact congrArg some (hafter.rows k s hrow.state pos row hfull _ hin)
  · rw [getElem?_eq_none (by simpa using hge), getElem?_eq_none (by simp; omega)]
    rfl

/-- **Attention sees the context of its own sequence.** In every step of a server whose group
retains everything, the write succeeds and the plan of the queries finds no problem. Query `i`
of a sequence sees, in the order of the positions, the slots that the sequence has for the
positions up to its own, and in them the rows that the sequence was given, the verified ones and
those of the step: how they were cut into steps, and what the other sequences did, is not seen. -/
theorem attention_sees_context {x : Serving ρ} (h : Served gi .all x) (f : Forward ρ)
    {b : BatchMeta}
    (hb : x.manager.batchMetaWithOptions f.seqs f.queryLens f.positions f.tree = .ok b)
    (hrows : f.rows.length = b.t) :
    ∃ cache queries plans, stateWriteKvPaged b gi f.rows x.cache = .ok cache ∧
      planQueries b = .ok queries ∧ planVisible b gi 0 false cache queries = ([], plans) ∧
      ∀ {j k q s}, BatchRow x.manager f.seqs f.queryLens j k q s → ∀ i < q,
        ∃ visible, plans[batchBase f.queryLens j + i]? = some visible ∧
          List.Forall₂ (s.InSlot gi) (List.range (s.ctxLen + i + 1)) visible ∧
          visible.map cache.rows =
            ((x.stream k ++ stepRows f.seqs f.queryLens f.rows k).take (s.ctxLen + i + 1)).map
              some := by
  have hst := h.stores
  obtain ⟨H, hinv⟩ := hst.inv
  obtain ⟨g, hg, hr⟩ := hst.group
  obtain ⟨cache', hok, hw⟩ := hst.wrote hb hrows
  obtain ⟨flat, hplan, hfilled, rfl⟩ := hst.meta_eq hb
  have hread := hst.readable hw hplan hfilled hrows
  obtain ⟨queries, hqueries, hqlen, hquery⟩ :=
    planQueries_described f.positions f.tree flat hplan
  -- the plan of a query, at its token
  have hplanned : ∀ {j k q s}, BatchRow x.manager f.seqs f.queryLens j k q s → ∀ i < q, ∀ tok,
      planQuery (described x.manager f.seqs f.queryLens f.positions f.tree flat) gi 0 false cache' []
        ⟨j, s.ctxLen + i, s.ctxLen, q⟩ tok =
      ([], (List.range (s.ctxLen + i + 1)).map (s.slotAt gi)) := by
    intro j k q s hrow i hi tok
    have hall : Readable.retainedUpTo .all s.ctxLen (s.ctxLen + i) =
        List.range (s.ctxLen + i + 1) := filter_eq_self.mpr fun pos _ => rfl
    rw [← hall]
    exact hread.planQuery_eq f.positions f.tree hrow hi tok
  have hnone : ∀ y ∈ queries.zipIdx, (planQuery
      (described x.manager f.seqs f.queryLens f.positions f.tree flat) gi 0 false cache' [] y.1
        y.2).1 = [] := by
    rintro ⟨query, tok⟩ hy
    have hget := mem_zipIdx_iff_getElem?.mp hy
    have hlt : tok < f.queryLens.sum := hqlen ▸ (List.getElem?_eq_some_iff.mp hget).1
    obtain ⟨j, q, i, hq, hi, rfl⟩ := exists_batchBase hlt
    obtain ⟨k, s, hrow⟩ := hplan.exists_row hq
    obtain rfl := Option.some.inj ((hquery hrow i hi).symm.trans hget)
    simp only [hplanned hrow i hi]
  refine ⟨cache', queries, _, hok, hqueries, planVisible_of_ok hnone, fun {j k q s} hrow i hi => ?_⟩
  refine ⟨(List.range (s.ctxLen + i + 1)).map (s.slotAt gi), ?_, ?_, ?_⟩
  · rw [getElem?_map, getElem?_zipIdx, hquery hrow i hi]
    simp only [Option.map_some, zero_add, hplanned hrow i hi]
  · rw [List.forall₂_map_right_iff, List.forall₂_same]
    intro pos hpos
    have hlt := mem_range.mp hpos
    have hle := hplan.query_le hrow
    exact hinv.exists_slot hg hr hrow.state (by omega) not_false
  · exact hst.rows_upTo hw hplan hrows hrow (by omega)

/-! ### A prompt in chunks -/

/-- The step of a chunk of the first sequence. -/
def Forward.chunk (rows : List ρ) : Forward ρ := ⟨[0], [rows.length], none, none, rows⟩

/-- Serves a chunk of the first sequence: a reservation, a step and a commit. -/
def Serving.chunk (r : Retain) (x : Serving ρ) (rows : List ρ) : Serving ρ :=
  ((x.manage (.reserve 0 rows.length)).forward 0 r.sinks (.chunk rows)).manage
    (.commit 0 rows.length)

/-- A prompt that is cut into chunks. -/
def Serving.prompt (m : StateManager) (numBlocks : ℕ) (r : Retain) (chunks : List (List ρ)) :
    Serving ρ :=
  chunks.foldl (Serving.chunk r) ((Serving.new m numBlocks).manage (.newSeq []))

theorem Served.chunk (h : Served 0 r x) (rows : List ρ)
    (hwritten : rows.length ≤ (((x.manage (.reserve 0 rows.length)).forward 0 r.sinks
      (.chunk rows)).draft 0).length) : Served 0 r (x.chunk r rows) := by
  have hreserve : Served 0 r (x.manage (.reserve 0 rows.length)) :=
    h.manage _ (by rintro _ _ ⟨⟩) (by rintro _ _ ⟨⟩)
  refine (hreserve.forward _).manage _ (by rintro _ _ ⟨⟩) ?_
  rintro _ _ ⟨⟩
  exact hwritten

/-- A manager of one paged layer. -/
def onePaged (r : Retain) : StateManager :=
  initial ⟨96, 2⟩ [⟨0, .kvPaged 1 1 1 .f16 r, [0]⟩] 1000

theorem onePaged_served {n : ℕ} (hbuilt : (onePaged r).Built)
    (hpool : ((onePaged r).pools[0]?.join).map (·.total) = some n) :
    Served 0 r ((Serving.new (onePaged r) n : Serving ρ).manage (.newSeq [])) := by
  obtain ⟨p, hp, rfl⟩ := Option.map_eq_some_iff.mp hpool
  have hnew : Served 0 r (Serving.new (onePaged r) p.total : Serving ρ) :=
    .new hbuilt rfl rfl (Option.join_eq_some_iff.mp hp)
  exact hnew.manage _ (by rintro _ _ ⟨⟩) (by rintro _ _ ⟨⟩)

/-- Two tokens are verified, and two more are asked for. -/
theorem attention_sees_context_two : ∃ (x : Serving ℕ) (b : BatchMeta), x.stream 0 = [10, 11] ∧
    x.manager.batchMetaWithOptions [0] [2] none none = .ok b ∧
    ∃ cache queries plans, stateWriteKvPaged b 0 [12, 13] x.cache = .ok cache ∧
      planQueries b = .ok queries ∧ planVisible b 0 0 false cache queries = ([], plans) ∧
      ∃ visible, plans[1]? = some visible ∧ visible.map cache.rows = [10, 11, 12, 13].map some := by
  have hbuilt : (onePaged .all).Built :=
    ⟨⟨96, 2⟩, 1000, by decide, Or.inl ⟨[.kvPaged 1 1 1 .f16 .all], rfl⟩⟩
  have hserved : Served 0 .all ((Serving.prompt (onePaged .all) 7 .all [[10, 11]] :
      Serving ℕ).manage (.reserve 0 2)) := by
    have hstart := onePaged_served (ρ := ℕ) hbuilt (show _ = some 7 by decide +kernel)
    have hchunk : Served 0 .all (Serving.prompt (onePaged .all) 7 .all [[10, 11]]) :=
      hstart.chunk [10, 11] (by decide +kernel)
    exact hchunk.manage (.reserve 0 2) (by rintro _ _ ⟨⟩) (by rintro _ _ ⟨⟩)
  set x := (Serving.prompt (onePaged .all) 7 .all [[10, 11]] : Serving ℕ).manage (.reserve 0 2)
    with hx
  have hstream : x.stream 0 = [10, 11] := by decide +kernel
  have ht : (x.manager.batchMetaWithOptions [0] [2] none none).toOption.map (·.t) = some 2 := by
    decide +kernel
  have hctx : (x.manager.seqs[0]?).map (·.ctxLen) = some 2 := by decide +kernel
  cases hb : x.manager.batchMetaWithOptions [0] [2] none none with
  | error e =>
    rw [hb] at ht
    cases ht
  | ok b =>
    rw [hb] at ht
    obtain ⟨s, hs, hlen⟩ := Option.map_eq_some_iff.mp hctx
    obtain ⟨cache, queries, plans, hwrite, hqueries, hplans, hsees⟩ :=
      attention_sees_context hserved ⟨[0], [2], none, none, [12, 13]⟩ hb (Option.some.inj ht).symm
    obtain ⟨visible, hvisible, -, hrows⟩ := hsees (show BatchRow x.manager [0] [2] 0 0 2 s from ⟨rfl, rfl, hs⟩) 1
      (by decide)
    refine ⟨x, b, hstream, hb, cache, queries, plans, hwrite, hqueries, hplans, visible, hvisible, ?_⟩
    rw [hrows, hlen, hstream]
    rfl

end Attention

end R9v

import R9v.T0.Serving

/-!
# Windows and chunks

A group that keeps a window tells its kernels one position per sequence and step, where the
window begins: `w` positions before the first new token. A query that is not the first of its
chunk then sees more than the same query would see alone. What the queries of a server saw is
a function of the chunks (`Served.seen_eq`), and it is what single tokens would have seen
exactly when every longer chunk ends where the window has not moved past the sinks yet
(`windowed_views_iff`).
-/

namespace R9v

open Checked StateManager List

variable {ρ : Type}

/-- What the queries of a chunk see: the chunk begins at `c.1` and has `c.2` tokens. -/
def chunkViews (r : Retain) (c : ℕ × ℕ) : List (ℕ × List ℕ) :=
  (List.range c.2).map fun i => (c.1 + i, Readable.retainedUpTo r c.1 (c.1 + i))

section Seen

variable {gi : ℕ} {r : Retain} {x : Serving ρ} {f : Forward ρ}

theorem Readable.stepRows_views {m : StateManager} {seqs : List SeqId} {queryLens : List ℕ}
    {flat : List ℕ × List ℕ × List ℕ} {cache : KvPagedCache ρ}
    (h : Readable m seqs queryLens flat gi r cache) (positions : Option Positions)
    (mask : Option TreeMask) {queries : List QueryInfo} (hlen : queries.length = queryLens.sum)
    {j : ℕ} {k : SeqId} {q : ℕ} {s : SeqState} (hrow : BatchRow m seqs queryLens j k q s)
    (hquery : ∀ i < q, queries[batchBase queryLens j + i]? =
      some ⟨j, s.ctxLen + i, s.ctxLen, q⟩) :
    stepRows seqs queryLens (Serving.views (described m seqs queryLens positions mask flat) gi r.sinks
      cache queries) k = chunkViews r (s.ctxLen, q) := by
  have hviews : (Serving.views (described m seqs queryLens positions mask flat) gi r.sinks cache
      queries).length = queryLens.sum := by
    rw [Serving.views, length_map, length_zipIdx, hlen]
  refine ext_getElem? fun i => ?_
  rcases lt_or_ge i q with hi | hi
  · rw [stepRows_getElem? h.plan.nodup hrow.seq hrow.query hi, Serving.views, getElem?_map,
      getElem?_zipIdx, hquery i hi, chunkViews, getElem?_map, getElem?_range hi]
    simp only [Option.map_some, h.visiblePositions_eq positions mask hrow hi]
  · have hlength := stepRows_length h.plan.nodup hrow.seq hrow.query hviews
    rw [getElem?_eq_none (by omega), getElem?_eq_none (by simp [chunkViews, hi])]

section Chunk

variable {m : StateManager} {seqs : List SeqId} {queryLens : List ℕ} {k : SeqId}
  (positions : Option Positions) (mask : Option TreeMask) (flat : List ℕ × List ℕ × List ℕ)

theorem batchChunk_of_row (hnodup : seqs.Nodup) {j q : ℕ} {s : SeqState}
    (hrow : BatchRow m seqs queryLens j k q s) :
    Serving.batchChunk seqs (described m seqs queryLens positions mask flat) k =
      [(s.ctxLen, q)] := by
  have hget : ((seqs.map (ctxOf m)).zip queryLens)[j]? = some (s.ctxLen, q) := by
    rw [getElem?_zip_eq_some, getElem?_map, hrow.seq, Option.map_some, hrow.ctxOf_eq]
    exact ⟨rfl, hrow.query⟩
  exact congrArg Option.toList (lookup_zip hnodup hrow.seq hget)

theorem batchChunk_of_not_mem (b : BatchMeta) (h : k ∉ seqs) :
    Serving.batchChunk seqs b k = [] := by
  have hnone : (seqs.zip (b.ctxLen.zip b.queryLen)).lookup k = none := by
    rw [lookup_eq_none_iff]
    intro y hy
    exact bne_iff_ne.mpr (ne_of_mem_of_not_mem (of_mem_zip hy).1 h).symm
  exact congrArg Option.toList hnone

end Chunk

/-- **What the queries of a server saw is a function of the chunks.** -/
theorem Served.seen_eq (h : Served gi r x) (k : SeqId) :
    x.seen k = (x.chunks k).flatMap (chunkViews r) ∧ ∀ c ∈ x.chunks k, 1 ≤ c.2 := by
  induction h with
  | new => exact ⟨rfl, fun c hc => absurd hc (by simp [Serving.new])⟩
  | @manage x h c plain written ih =>
    have hframe : (x.manage c).seen = x.seen ∧ (x.manage c).chunks = x.chunks := by
      rw [Serving.manage]
      split
      · exact ⟨rfl, rfl⟩
      · split <;> exact ⟨rfl, rfl⟩
    rw [hframe.1, hframe.2]
    exact ih
  | @forward x h f ih =>
    have hst := h.stores
    rw [Serving.forward]
    split
    · exact ih
    next b hb =>
    split
    · exact ih
    next cache hok =>
    by_cases hrows : f.rows.length = b.t
    swap
    · exact absurd hok (stateWriteKvPaged_ne_ok hrows)
    obtain ⟨cache', hok', hw⟩ := hst.wrote hb hrows
    obtain rfl : cache' = cache := Except.ok.inj (hok'.symm.trans hok)
    obtain ⟨flat, hplan, hfilled, rfl⟩ := hst.meta_eq hb
    have hread := hst.readable hw hplan hfilled hrows
    obtain ⟨queries, hqueries, hqlen, hquery⟩ :=
      planQueries_described f.positions f.tree flat hplan
    simp only [hqueries]
    by_cases hk : k ∈ f.seqs
    · -- the step has one chunk of the sequence, and its views
      obtain ⟨j, hj⟩ := mem_iff_getElem?.mp hk
      obtain ⟨s, hs⟩ := hplan.exists_seq hk
      have hlt : j < f.queryLens.length := hplan.length_eq ▸ (List.getElem?_eq_some_iff.mp hj).1
      have hrow : BatchRow x.manager f.seqs f.queryLens j k f.queryLens[j] s :=
        ⟨hj, getElem?_eq_getElem hlt, hs⟩
      rw [hread.stepRows_views f.positions f.tree hqlen hrow (hquery hrow), ih.1,
        batchChunk_of_row f.positions f.tree flat hplan.nodup hrow, flatMap_append]
      refine ⟨by simp, fun c hc => ?_⟩
      rcases mem_append.mp hc with hc | hc
      · exact ih.2 c hc
      · obtain rfl := mem_singleton.mp hc
        exact hplan.query_pos (getElem_mem hlt)
    · rw [stepRows_of_not_mem hk, batchChunk_of_not_mem _ hk, append_nil, append_nil]
      exact ih

end Seen

/-! ### What single tokens see -/

/-- The positions that a query sees when its sequence goes token by token: the sinks, and the
window up to the query. -/
def windowView (n w pos : ℕ) : List ℕ :=
  (List.range (pos + 1)).filter fun a => a < n || pos - w ≤ a

/-- The policies with a window: its width, and the number of sinks. -/
def Retain.Windows (r : Retain) (n w : ℕ) : Prop := r = .window w ∧ n = 0 ∨ r = .sinkWindow n w

section Views

variable {r : Retain} {n w ctx pos : ℕ}

theorem Retain.Windows.retainedUpTo_eq (h : r.Windows n w) :
    Readable.retainedUpTo r ctx pos = (List.range (pos + 1)).filter fun a => a < n || ctx - w ≤ a := by
  rcases h with ⟨rfl, rfl⟩ | rfl
  · rfl
  · rfl

/-- A query sees what it would see alone, unless it is not the first of its chunk and the
window has moved past the sinks. -/
theorem Retain.Windows.retainedUpTo_eq_iff (h : r.Windows n w) (hle : ctx ≤ pos) :
    Readable.retainedUpTo r ctx pos = windowView n w pos ↔ pos = ctx ∨ pos ≤ w + n := by
  rw [h.retainedUpTo_eq, windowView]
  constructor
  · intro heq
    by_contra hno
    have hfirst : ¬pos = ctx := fun h => hno (Or.inl h)
    have hpast : ¬pos ≤ w + n := fun h => hno (Or.inr h)
    -- the position right before the window of the query is seen from the chunk
    have hmem : pos - w - 1 ∈ (List.range (pos + 1)).filter fun a => a < n || ctx - w ≤ a := by
      refine mem_filter.mpr ⟨mem_range.mpr (by omega), ?_⟩
      simp only [Bool.or_eq_true, decide_eq_true_eq]
      omega
    rw [heq] at hmem
    have hsees := (mem_filter.mp hmem).2
    simp only [Bool.or_eq_true, decide_eq_true_eq] at hsees
    omega
  · intro hor
    refine filter_congr fun a ha => ?_
    have hlt := mem_range.mp ha
    rw [Bool.eq_iff_iff]
    simp only [Bool.or_eq_true, decide_eq_true_eq]
    omega

theorem Retain.Windows.chunkViews_iff (h : r.Windows n w) {c : ℕ × ℕ} (hc : 1 ≤ c.2) :
    (∀ v ∈ chunkViews r c, v.2 = windowView n w v.1) ↔ c.2 = 1 ∨ c.1 + c.2 ≤ w + n + 1 := by
  have hviews : (∀ v ∈ chunkViews r c, v.2 = windowView n w v.1) ↔
      ∀ i < c.2, c.1 + i = c.1 ∨ c.1 + i ≤ w + n := by
    simp only [chunkViews, forall_mem_map, mem_range]
    exact forall₂_congr fun i _ => h.retainedUpTo_eq_iff (Nat.le_add_right _ i)
  rw [hviews]
  constructor
  · intro hall
    have := hall (c.2 - 1) (by omega)
    omega
  · intro hor i hi
    omega

end Views

/-- **When windowed attention does not depend on the chunks.** Take any two runs of servers whose
group has a window of `w` positions and `n` sinks. Every query of a sequence in the one and of
a sequence in the other sees the sinks and the window up to itself, as it would if the sequence
went token by token, exactly when every chunk of the two sequences is a single token or ends no
later than at position `w + n`. -/
theorem windowed_views_iff {gi gj : ℕ} {r : Retain} {n w : ℕ} (hr : r.Windows n w)
    {x y : Serving ρ} (hx : Served gi r x) (hy : Served gj r y) (k k' : SeqId) :
    (∀ v, v ∈ x.seen k ∨ v ∈ y.seen k' → v.2 = windowView n w v.1) ↔
      ∀ c, c ∈ x.chunks k ∨ c ∈ y.chunks k' → c.2 = 1 ∨ c.1 + c.2 ≤ w + n + 1 := by
  have hone : ∀ {gi} {z : Serving ρ} {k : SeqId}, Served gi r z →
      ((∀ v ∈ z.seen k, v.2 = windowView n w v.1) ↔
        ∀ c ∈ z.chunks k, c.2 = 1 ∨ c.1 + c.2 ≤ w + n + 1) := by
    intro gi z k hz
    obtain ⟨hseen, hpos⟩ := hz.seen_eq k
    rw [hseen, forall_mem_flatMap]
    exact forall₂_congr fun c hc => hr.chunkViews_iff (hpos c hc)
  simp only [or_imp, forall_and, hone hx, hone hy]

/-! ### A chunk that sees too much -/

section Widened

def threeChunks (chunks : List (List ℕ)) : Serving ℕ :=
  Serving.prompt (onePaged (.window 1)) 7 (.window 1) chunks

theorem onePaged_window_served : Served 0 (.window 1) (threeChunks []) := by
  have hbuilt : (onePaged (.window 1)).Built :=
    ⟨⟨96, 2⟩, 1000, by decide, Or.inl ⟨[.kvPaged 1 1 1 .f16 (.window 1)], rfl⟩⟩
  exact onePaged_served hbuilt (show _ = some 7 by decide)

theorem threeChunks_whole_served : Served 0 (.window 1) (threeChunks [[10, 11, 12]]) :=
  onePaged_window_served.chunk [10, 11, 12] (by decide)

theorem threeChunks_single_served : Served 0 (.window 1) (threeChunks [[10], [11], [12]]) := by
  have hone : Served 0 (.window 1) (threeChunks [[10]]) :=
    onePaged_window_served.chunk [10] (by decide)
  have htwo : Served 0 (.window 1) (threeChunks [[10], [11]]) := hone.chunk [11] (by decide)
  exact htwo.chunk [12] (by decide)

/-- A window of one position: the third token of a prompt sees three positions when the prompt
is one chunk, and two when it goes token by token. -/
theorem chunk_widens_window :
    ¬∀ (x y : Serving ℕ), Served 0 (.window 1) x → Served 0 (.window 1) y →
      x.stream 0 = y.stream 0 → ∀ pos l l', (pos, l) ∈ x.seen 0 → (pos, l') ∈ y.seen 0 → l = l' := by
  intro h
  have hwhole : (2, [0, 1, 2]) ∈ (threeChunks [[10, 11, 12]]).seen 0 := by decide +kernel
  have hsingle : (2, [1, 2]) ∈ (threeChunks [[10], [11], [12]]).seen 0 := by decide +kernel
  have hstream : (threeChunks [[10, 11, 12]]).stream 0 =
      (threeChunks [[10], [11], [12]]).stream 0 := by decide +kernel
  have heq := h _ _ threeChunks_whole_served threeChunks_single_served hstream 2 _ _ hwhole hsingle
  exact absurd heq (by decide)

theorem windowed_views_single :
    (threeChunks [[10], [11], [12]]).chunks 0 = [(0, 1), (1, 1), (2, 1)] ∧
      ((∀ v, v ∈ (threeChunks [[10], [11], [12]]).seen 0 ∨ v ∈ (threeChunks [[10, 11, 12]]).seen 1 →
        v.2 = windowView 0 1 v.1) ↔
      ∀ c, c ∈ (threeChunks [[10], [11], [12]]).chunks 0 ∨
        c ∈ (threeChunks [[10, 11, 12]]).chunks 1 → c.2 = 1 ∨ c.1 + c.2 ≤ 1 + 0 + 1) :=
  ⟨by decide +kernel, windowed_views_iff (Or.inl ⟨rfl, rfl⟩) threeChunks_single_served
    threeChunks_whole_served 0 1⟩

end Widened

end R9v

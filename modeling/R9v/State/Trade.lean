import R9v.State.Invariant

/-!
# Trades between a pool and a table

`reserve`, `commit` and `freeSeq` move blocks between the pool of a group and the
table of one sequence, and nothing else. What such a move works on is a `Cell`:
the pool of the group, and the indices and blocks that the sequence has there. A
`Trade` takes a cell to a cell that has the same blocks altogether, with its lists
still sorted and aligned; the moves of the source are trades (`Cell.place_trade`,
`Cell.dropRun_trade`, `Cell.releaseAll_trade`), and trades compose.

What the invariant needs to know of a call is then only that it trades in every
group: `Inv.trade`.
-/

namespace R9v

open Checked Ownership Sorted List
open scoped List

/-! ### Pools -/

namespace BlockPool

variable {p : BlockPool} {id : ℕ}

theorem alloc_eq {free : List ℕ} (h : p.free = free ++ [id]) :
    p.alloc = some (id, { p with free }) := by
  simp [alloc, h]

theorem release_eq (hlt : id < p.total) (hfree : id ∉ p.free) :
    p.release id =
      .ok { p with free := p.free.insertIdx (partitionPoint (· > id) p.free) id } := by
  simp [release, contains, hfree, hlt, ensure, pure, Except.pure]

end BlockPool

/-! ### Cells -/

/-- The pool of a group, and what one sequence has there. -/
structure Cell where
  pool : BlockPool
  held : List ℕ
  table : List ℕ

namespace Cell

variable {c c' c'' : Cell}

/-- The lists of a cell are sorted and aligned, and no block is both free and in
the table, or there twice. -/
structure Ok (c : Cell) : Prop where
  descending : c.pool.free.Pairwise (· > ·)
  ascending : c.held.Pairwise (· < ·)
  aligned : c.held.length = c.table.length
  nodup : (c.pool.free ++ c.table).Nodup
  lt_total : ∀ id ∈ c.pool.free ++ c.table, id < c.pool.total

/-- **A trade**: the cell keeps its blocks altogether, and its lists in order. -/
structure Trade (c c' : Cell) : Prop where
  pool_eq : c'.pool = { c.pool with free := c'.pool.free }
  descending : c'.pool.free.Pairwise (· > ·)
  ascending : c'.held.Pairwise (· < ·)
  aligned : c'.held.length = c'.table.length
  perm : (c'.pool.free ++ c'.table).Perm (c.pool.free ++ c.table)

theorem Ok.refl (h : c.Ok) : c.Trade c :=
  ⟨rfl, h.descending, h.ascending, h.aligned, List.Perm.refl _⟩

theorem Trade.trans (h : c.Trade c') (h' : c'.Trade c'') : c.Trade c'' where
  pool_eq := by rw [h'.pool_eq, h.pool_eq]
  descending := h'.descending
  ascending := h'.ascending
  aligned := h'.aligned
  perm := h'.perm.trans h.perm

theorem Trade.total_eq (h : c.Trade c') : c'.pool.total = c.pool.total := by
  rw [h.pool_eq]

theorem Trade.ok (h : c.Trade c') (hc : c.Ok) : c'.Ok where
  descending := h.descending
  ascending := h.ascending
  aligned := h.aligned
  nodup := h.perm.nodup_iff.mpr hc.nodup
  lt_total := fun id hid => by
    rw [h.total_eq]
    exact hc.lt_total id (h.perm.mem_iff.mp hid)

/-! ### Taking a block -/

/-- The cell after block `id`, the last free one, is entered under index `idx`. -/
def place (c : Cell) (free : List ℕ) (id idx : ℕ) : Cell :=
  let pos := partitionPoint (· < idx) c.held
  ⟨{ c.pool with free }, c.held.insertIdx pos idx, c.table.insertIdx pos id⟩

theorem place_trade {free : List ℕ} {id idx : ℕ} (hc : c.Ok) (hfree : c.pool.free = free ++ [id])
    (hidx : idx ∉ c.held) : c.Trade (c.place free id idx) := by
  have hpos := partitionPoint_le_length (fun x => decide (x < idx)) c.held
  refine ⟨rfl, ?_, pairwise_insertIdx hc.ascending hidx, ?_, ?_⟩
  · have := hc.descending
    rw [hfree] at this
    exact (pairwise_append.mp this).1
  · rw [place, length_insertIdx_of_le_length hpos,
      length_insertIdx_of_le_length (hc.aligned ▸ hpos), hc.aligned]
  · have hperm : (c.table.insertIdx (partitionPoint (fun x => decide (x < idx)) c.held) id).Perm
        (id :: c.table) := perm_insertIdx id _ (hc.aligned ▸ hpos)
    simp only [place, hfree, append_assoc]
    exact (hperm.append_left free).trans (List.Perm.refl _)

theorem mem_place_held {free : List ℕ} {id idx i : ℕ} :
    i ∈ (c.place free id idx).held ↔ i = idx ∨ i ∈ c.held :=
  mem_insertIdx (partitionPoint_le_length _ _)

/-! ### Giving blocks back -/

/-- The cell after a block is taken out of the table and given back. -/
theorem release_trade {id : ℕ} (held table : List ℕ) (hc : c.Ok) (hid : id ∈ c.table)
    (hasc : held.Pairwise (· < ·)) (hal : held.length = table.length)
    (hperm : (id :: table).Perm c.table) :
    ∃ pool, c.pool.release id = .ok pool ∧ c.Trade ⟨pool, held, table⟩ := by
  have hlt : id < c.pool.total := hc.lt_total id (mem_append_right _ hid)
  have hfree : id ∉ c.pool.free := fun hmem =>
    (nodup_append.mp hc.nodup).2.2 id hmem id hid rfl
  refine ⟨_, BlockPool.release_eq hlt hfree, rfl, pairwise_insertIdx hc.descending hfree, hasc, hal,
    ?_⟩
  have hins : (c.pool.free.insertIdx (partitionPoint (fun x => decide (x > id)) c.pool.free) id).Perm
      (id :: c.pool.free) := perm_insertIdx id _ (partitionPoint_le_length _ _)
  calc c.pool.free.insertIdx (partitionPoint (fun x => decide (x > id)) c.pool.free) id ++ table
    _ ~ id :: c.pool.free ++ table := hins.append_right table
    _ ~ c.pool.free ++ id :: table := perm_middle.symm
    _ ~ c.pool.free ++ c.table := hperm.append_left _

theorem dropRun_trade_aux {startAt stop n : ℕ} {p : BlockPool} (hc : c.Ok)
    (hn : startAt + n ≤ stop) (hle : stop ≤ c.held.length)
    (h : c.Trade ⟨p, cut (startAt + n) stop c.held, cut (startAt + n) stop c.table⟩) :
    ∃ p', StateManager.dropRun startAt n (cut (startAt + n) stop c.held)
        (cut (startAt + n) stop c.table) p =
          (.ok (), cut startAt stop c.held, cut startAt stop c.table, p') ∧
      c.Trade ⟨p', cut startAt stop c.held, cut startAt stop c.table⟩ := by
  induction n generalizing p with
  | zero => exact ⟨p, rfl, h⟩
  | succ n ih =>
    have hheld : startAt + n < c.held.length := by omega
    have htable : startAt + n < c.table.length := hc.aligned ▸ hheld
    -- the entry before the cut is released, and the cut is one wider
    have hcur := getElem?_cut (e := stop) htable
    rw [List.getElem?_eq_getElem htable] at hcur
    have hpos : startAt + n < (cut (startAt + n + 1) stop c.table).length :=
      (List.getElem?_eq_some_iff.mp hcur).1
    have hperm : ((c.table.get ⟨startAt + n, htable⟩) :: cut (startAt + n) stop c.table).Perm
        (cut (startAt + n + 1) stop c.table) := by
      have := List.getElem_cons_eraseIdx_perm hpos
      rw [eraseIdx_cut htable] at this
      rwa [(List.getElem?_eq_some_iff.mp hcur).2] at this
    obtain ⟨p', hrel, htrade⟩ := release_trade (cut (startAt + n) stop c.held) _
      (h.ok hc) (hperm.mem_iff.mp List.mem_cons_self)
      (hc.ascending.sublist (cut_sublist (by omega) _)) (length_cut_eq hc.aligned) hperm
    obtain ⟨p'', hrun, hlast⟩ := ih (by omega) (h.trans htrade)
    refine ⟨p'', ?_, hlast⟩
    rw [StateManager.dropRun, ← Nat.add_assoc, getElem?_cut hheld, getElem?_cut htable,
      List.getElem?_eq_getElem hheld, List.getElem?_eq_getElem htable]
    simp only [eraseIdx_cut hheld, eraseIdx_cut htable]
    rw [List.get_eq_getElem] at hrel
    rw [hrel]
    exact hrun

/-- **The release loop of a commit is a trade**, and cuts the range out of both
lists. -/
theorem dropRun_trade {startAt stop : ℕ} (hc : c.Ok) (hle : startAt ≤ stop)
    (hstop : stop ≤ c.held.length) :
    ∃ pool, StateManager.dropRun startAt (stop - startAt) c.held c.table c.pool =
        (.ok (), cut startAt stop c.held, cut startAt stop c.table, pool) ∧
      c.Trade ⟨pool, cut startAt stop c.held, cut startAt stop c.table⟩ := by
  have hn : startAt + (stop - startAt) = stop := by omega
  have := dropRun_trade_aux (n := stop - startAt) (p := c.pool) hc (le_of_eq hn) hstop
  rw [hn, cut_self, cut_self] at this
  exact this hc.refl

/-- **Giving a whole table back is a trade** with an empty table. -/
theorem releaseAll_trade {p : BlockPool} {ids : List ℕ}
    (hdesc : p.free.Pairwise (· > ·)) (hnodup : (p.free ++ ids).Nodup)
    (hlt : ∀ id ∈ ids, id < p.total) :
    ∃ p', StateManager.releaseAll ids p = (.ok (), p') ∧ p' = { p with free := p'.free } ∧
      p'.free.Pairwise (· > ·) ∧ p'.free.Perm (p.free ++ ids) := by
  induction ids generalizing p with
  | nil => exact ⟨p, rfl, rfl, hdesc, by simp⟩
  | cons id ids ih =>
    have hfree : id ∉ p.free := fun hmem =>
      (nodup_append.mp hnodup).2.2 id hmem id mem_cons_self rfl
    have hrel := BlockPool.release_eq (hlt id mem_cons_self) hfree
    have hins : (p.free.insertIdx (partitionPoint (fun x => decide (x > id)) p.free) id ++ ids).Perm
        (p.free ++ id :: ids) :=
      ((perm_insertIdx id _ (partitionPoint_le_length _ _)).append_right ids).trans
        perm_middle.symm
    obtain ⟨p', hrun, heq, hdesc', hperm⟩ := ih
      (p := { p with free := p.free.insertIdx (partitionPoint (· > id) p.free) id })
      (pairwise_insertIdx hdesc hfree) (hins.nodup_iff.mpr hnodup)
      (fun i hi => hlt i (mem_cons_of_mem _ hi))
    refine ⟨p', ?_, ?_, hdesc', hperm.trans hins⟩
    · rw [StateManager.releaseAll, hrel]
      exact hrun
    · rw [heq]

end Cell

/-! ### Rows of a sequence -/

namespace SeqState

variable {s : SeqState} {gi gj : ℕ} {held table : List ℕ}

/-- The sequence with new lists in one group. -/
def setRow (s : SeqState) (gi : ℕ) (held table : List ℕ) : SeqState :=
  { s with indices := s.indices.set gi held, tables := s.tables.set gi table }

theorem held_setRow (h : gi < s.indices.length) :
    (s.setRow gi held table).held gj = if gj = gi then held else s.held gj := by
  unfold SeqState.held setRow
  rcases eq_or_ne gj gi with rfl | hne
  · simp [h]
  · simp [hne, hne.symm]

theorem table_setRow (h : gi < s.tables.length) :
    (s.setRow gi held table).table gj = if gj = gi then table else s.table gj := by
  unfold SeqState.table setRow
  rcases eq_or_ne gj gi with rfl | hne
  · simp [h]
  · simp [hne, hne.symm]

theorem getElem?_indices (h : gi < s.indices.length) : s.indices[gi]? = some (s.held gi) := by
  simp [SeqState.held, h]

theorem getElem?_tables (h : gi < s.tables.length) : s.tables[gi]? = some (s.table gi) := by
  simp [SeqState.table, h]

theorem setRow_self (hi : gi < s.indices.length) (ht : gi < s.tables.length) :
    s.setRow gi (s.held gi) (s.table gi) = s := by
  simp [setRow, SeqState.held, SeqState.table, hi, ht]

theorem setRow_setRow (held' table' : List ℕ) :
    (s.setRow gi held table).setRow gi held' table' = s.setRow gi held' table' := by
  simp [setRow]

end SeqState

section Maps

variable {seqs : Std.ExtTreeMap ℕ SeqState} {k : SeqId}

theorem insert_self_eq {s : SeqState} (h : seqs[k]? = some s) : seqs.insert k s = seqs := by
  refine Std.ExtTreeMap.ext_getElem? fun k' => ?_
  rcases eq_or_ne k' k with rfl | hne
  · simp [h]
  · simp [Std.ExtTreeMap.getElem?_insert, hne.symm]

theorem insert_insert_eq (s s' : SeqState) : (seqs.insert k s).insert k s' = seqs.insert k s' := by
  refine Std.ExtTreeMap.ext_getElem? fun k' => ?_
  rcases eq_or_ne k' k with rfl | hne
  · simp
  · simp [Std.ExtTreeMap.getElem?_insert, hne.symm]

end Maps

/-! ### Trading in every group -/

/-- The two sides trade in every paged group, and agree in the others. -/
structure Trades (pools pools' : List (Option BlockPool)) (s s' : SeqState) : Prop where
  pools_length : pools'.length = pools.length
  tables_length : s'.tables.length = s.tables.length
  indices_length : s'.indices.length = s.indices.length
  unpaged : ∀ gi : ℕ, pools[gi]? = some none →
    pools'[gi]? = some none ∧ s'.table gi = s.table gi ∧ s'.held gi = s.held gi
  paged : ∀ (gi : ℕ) (p : BlockPool), pools[gi]? = some (some p) →
    ∃ p', pools'[gi]? = some (some p') ∧
      Cell.Trade ⟨p, s.held gi, s.table gi⟩ ⟨p', s'.held gi, s'.table gi⟩

section Lists

variable {groups : List LayerGroup} {maxCtx H : ℕ} {pools pools' : List (Option BlockPool)}
  {s s' : SeqState}

/-- A group of the sequence, seen from the pools: paged, not paged, or none. -/
theorem Trades.row_cases (ht : Trades pools pools' s s') (hs : SeqInv groups maxCtx H s)
    (hlen : pools.length = groups.length) (gi : ℕ) :
    (s'.held gi = s.held gi ∧ s'.table gi = s.table gi) ∨
      ∃ p p', Cell.Trade ⟨p, s.held gi, s.table gi⟩ ⟨p', s'.held gi, s'.table gi⟩ := by
  rcases hp : pools[gi]? with _ | _ | p
  · have hge : groups.length ≤ gi := by simpa [hlen] using hp
    have h₁ : s.indices.length ≤ gi := hs.indices_length ▸ hge
    have h₂ : s.tables.length ≤ gi := hs.tables_length ▸ hge
    have h₃ : s'.indices.length ≤ gi := ht.indices_length ▸ h₁
    have h₄ : s'.tables.length ≤ gi := ht.tables_length ▸ h₂
    simp [SeqState.held, SeqState.table, h₁, h₂, h₃, h₄]
  · obtain ⟨-, h₁, h₂⟩ := ht.unpaged gi hp
    exact Or.inl ⟨h₂, h₁⟩
  · obtain ⟨p', -, htr⟩ := ht.paged gi p hp
    exact Or.inr ⟨p, p', htr⟩

theorem Trades.aligned (ht : Trades pools pools' s s') (hs : SeqInv groups maxCtx H s)
    (hlen : pools.length = groups.length) (gi : ℕ) :
    (s'.held gi).length = (s'.table gi).length := by
  rcases ht.row_cases hs hlen gi with ⟨h₁, h₂⟩ | ⟨p, p', htr⟩
  · rw [h₁, h₂]
    exact hs.aligned gi
  · exact htr.aligned

theorem Trades.ascending (ht : Trades pools pools' s s') (hs : SeqInv groups maxCtx H s)
    (hlen : pools.length = groups.length) (gi : ℕ) : (s'.held gi).Pairwise (· < ·) := by
  rcases ht.row_cases hs hlen gi with ⟨h₁, -⟩ | ⟨p, p', htr⟩
  · rw [h₁]
    exact hs.ascending gi
  · exact htr.ascending

end Lists

theorem Inv.cell_ok {H : SeqId → ℕ} {m : StateManager} (h : Inv H m) {k : SeqId} {s : SeqState}
    (hs : m.seqs[k]? = some s) {gi : ℕ} {p : BlockPool} (hp : m.pools[gi]? = some (some p)) :
    Cell.Ok ⟨p, s.held gi, s.table gi⟩ := by
  obtain ⟨hdesc, hown⟩ := h.blocks gi p hp
  have hheld : heldBlocks m.seqs gi k = s.table gi := heldBlocks_of_some hs
  refine ⟨hdesc, (h.seqs k s hs).ascending gi, (h.seqs k s hs).aligned gi, ?_, ?_⟩
  · refine nodup_append.mpr ⟨hown.free_nodup, hheld ▸ hown.held_nodup k, ?_⟩
    rintro a ha b hb rfl
    exact hown.held_not_free k a (hheld ▸ hb) ha
  · intro id hid
    rcases mem_append.mp hid with hid | hid
    · exact hown.of_mem_free hid
    · exact hown.of_mem_held (k := k) (hheld ▸ hid)

/-! ### A pass over the groups -/

section Sweep

variable {new : LayerGroup → ℕ → Prop → Prop} {content : LayerGroup → ℕ → Option ℕ → Option ℕ}
  {room : BlockPool → List ℕ → Prop} {groups : List (LayerGroup × ℕ)} {g : LayerGroup} {gi : ℕ}
  {pools pools' : List (Option BlockPool)} {p : BlockPool} {s s' : SeqState} {c : Cell}
  {mirror : Mirror}

/-- The groups that a pass is still to come to: each with a row of its own, and the paged ones
with a cell in order and room in their pool. -/
structure Sweep (room : BlockPool → List ℕ → Prop) (groups : List (LayerGroup × ℕ))
    (pools : List (Option BlockPool)) (s : SeqState) : Prop where
  nodup : (groups.map (·.2)).Nodup
  lt : ∀ x ∈ groups, x.2 < s.indices.length ∧ x.2 < s.tables.length
  cell : ∀ x ∈ groups, x.1.spec.isPaged = true → ∃ p, pools[x.2]? = some (some p) ∧
    Cell.Ok ⟨p, s.held x.2, s.table x.2⟩ ∧ room p (s.held x.2)

/-- **What a pass over the groups leaves**: every paged group has traded, its indices and its
contents are the new ones, and every other group is as before. -/
structure Swept (new : LayerGroup → ℕ → Prop → Prop)
    (content : LayerGroup → ℕ → Option ℕ → Option ℕ) (groups : List (LayerGroup × ℕ))
    (pools pools' : List (Option BlockPool)) (s s' : SeqState) : Prop where
  pools_length : pools'.length = pools.length
  indices_length : s'.indices.length = s.indices.length
  tables_length : s'.tables.length = s.tables.length
  other : ∀ gi, (∀ x ∈ groups, x.2 = gi → x.1.spec.isPaged = false) →
    pools'[gi]? = pools[gi]? ∧ s'.held gi = s.held gi ∧ s'.table gi = s.table gi ∧
      ∀ pos, s'.mirror (gi, pos) = s.mirror (gi, pos)
  traded : ∀ x ∈ groups, x.1.spec.isPaged = true → ∀ p, pools[x.2]? = some (some p) →
    (∃ p', pools'[x.2]? = some (some p') ∧
      Cell.Trade ⟨p, s.held x.2, s.table x.2⟩ ⟨p', s'.held x.2, s'.table x.2⟩) ∧
    (∀ i, i ∈ s'.held x.2 ↔ new x.1 i (i ∈ s.held x.2)) ∧
    ∀ pos, s'.mirror (x.2, pos) = content x.1 pos (s.mirror (x.2, pos))

theorem Sweep.ne (h : Sweep room ((g, gi) :: groups) pools s) : ∀ x ∈ groups, x.2 ≠ gi := by
  rintro x hx rfl
  exact (nodup_cons.mp h.nodup).1 (mem_map.mpr ⟨x, hx, rfl⟩)

theorem Sweep.tail (h : Sweep room ((g, gi) :: groups) pools s) : Sweep room groups pools s :=
  ⟨(nodup_cons.mp h.nodup).2, fun x hx => h.lt x (mem_cons_of_mem _ hx),
    fun x hx => h.cell x (mem_cons_of_mem _ hx)⟩

theorem Sweep.step (h : Sweep room ((g, gi) :: groups) pools s) :
    Sweep room groups (pools.set gi (some c.pool)) { s.setRow gi c.held c.table with mirror } where
  nodup := h.tail.nodup
  lt := fun x hx => by simpa [SeqState.setRow] using h.tail.lt x hx
  cell := fun x hx hxp => by
    obtain ⟨hi, ht⟩ := h.lt (g, gi) mem_cons_self
    have hne := h.ne x hx
    change ∃ p, _ ∧ Cell.Ok ⟨p, (s.setRow gi c.held c.table).held x.2,
      (s.setRow gi c.held c.table).table x.2⟩ ∧ room p ((s.setRow gi c.held c.table).held x.2)
    rw [SeqState.held_setRow hi, SeqState.table_setRow ht, if_neg hne, if_neg hne,
      getElem?_set_ne hne.symm]
    exact h.tail.cell x hx hxp

theorem Swept.nil : Swept new content [] pools pools s s :=
  ⟨rfl, rfl, rfl, fun _ _ => ⟨rfl, rfl, rfl, fun _ => rfl⟩, by simp⟩

theorem Swept.skip (hg : ¬g.spec.isPaged = true) (h : Swept new content groups pools pools' s s') :
    Swept new content ((g, gi) :: groups) pools pools' s s' where
  pools_length := h.pools_length
  indices_length := h.indices_length
  tables_length := h.tables_length
  other := fun gj hgj => h.other gj fun x hx => hgj x (mem_cons_of_mem _ hx)
  traded := fun x hx hxp => by
    rcases mem_cons.mp hx with rfl | hx
    · exact absurd hxp hg
    · exact h.traded x hx hxp

/-- **One group of a pass**: it gets a new row, and the rest of the pass comes after it. -/
theorem Swept.cons (hg : g.spec.isPaged = true) (hready : Sweep room ((g, gi) :: groups) pools s)
    (hp : pools[gi]? = some (some p)) (htrade : Cell.Trade ⟨p, s.held gi, s.table gi⟩ c)
    (hmem : ∀ i, i ∈ c.held ↔ new g i (i ∈ s.held gi))
    (hcontent : ∀ pos, mirror (gi, pos) = content g pos (s.mirror (gi, pos)))
    (hmirror : ∀ gj ≠ gi, ∀ pos, mirror (gj, pos) = s.mirror (gj, pos))
    (h : Swept new content groups (pools.set gi (some c.pool)) pools'
      { s.setRow gi c.held c.table with mirror } s') :
    Swept new content ((g, gi) :: groups) pools pools' s s' := by
  obtain ⟨hi, ht⟩ := hready.lt (g, gi) mem_cons_self
  have hheld : ∀ gj, SeqState.held { s.setRow gi c.held c.table with mirror } gj =
      if gj = gi then c.held else s.held gj := fun gj =>
    @SeqState.held_setRow s gi gj c.held c.table hi
  have htable : ∀ gj, SeqState.table { s.setRow gi c.held c.table with mirror } gj =
      if gj = gi then c.table else s.table gj := fun gj =>
    @SeqState.table_setRow s gi gj c.held c.table ht
  refine ⟨by simpa using h.pools_length, by simpa [SeqState.setRow] using h.indices_length,
    by simpa [SeqState.setRow] using h.tables_length, fun gj hgj => ?_, fun x hx hxp q hq => ?_⟩
  · have hne : gj ≠ gi := by
      rintro rfl
      simpa [hg] using hgj (g, gj) mem_cons_self rfl
    have := h.other gj fun x hx => hgj x (mem_cons_of_mem _ hx)
    rw [hheld, htable, if_neg hne, if_neg hne, getElem?_set_ne hne.symm] at this
    exact ⟨this.1, this.2.1, this.2.2.1, fun pos => (this.2.2.2 pos).trans (hmirror gj hne pos)⟩
  · rcases mem_cons.mp hx with rfl | hx
    · obtain rfl : p = q := by simpa [hp] using hq
      have hlt : gi < pools.length := (List.getElem?_eq_some_iff.mp hp).1
      have := h.other gi fun x hx heq => absurd heq (hready.ne x hx)
      rw [hheld, htable, if_pos rfl, if_pos rfl, getElem?_set_self hlt] at this
      simp only [this.2.1, this.2.2.1]
      exact ⟨⟨c.pool, this.1, htrade⟩, hmem, fun pos => (this.2.2.2 pos).trans (hcontent pos)⟩
    · have hne := hready.ne x hx
      have := h.traded x hx hxp q (by rwa [getElem?_set_ne hne.symm])
      rw [hheld, htable, if_neg hne, if_neg hne] at this
      exact ⟨this.1, this.2.1, fun pos =>
        (this.2.2 pos).trans (congrArg (content x.1 pos) (hmirror _ hne pos))⟩

variable {H : SeqId → ℕ} {m : StateManager} {k : SeqId}

theorem Sweep.of_inv (h : Inv H m) (hs : m.seqs[k]? = some s)
    (hroom : ∀ x ∈ m.groups.zipIdx, x.1.spec.isPaged = true → ∀ p, m.pools[x.2]? = some (some p) →
      room p (s.held x.2)) : Sweep room m.groups.zipIdx m.pools s where
  nodup := by
    rw [zipIdx_map_snd]
    exact nodup_range'
  lt := fun x hx => by
    rw [(h.seqs k s hs).indices_length, (h.seqs k s hs).tables_length]
    have hlt := (List.getElem?_eq_some_iff.mp (mem_zipIdx_iff_getElem?.mp hx)).1
    exact ⟨hlt, hlt⟩
  cell := fun x hx hxp => by
    obtain ⟨-, p, hp, -⟩ := h.shape.paged x.2 x.1 (mem_zipIdx_iff_getElem?.mp hx) hxp
    exact ⟨p, hp, h.cell_ok hs hp, hroom x hx hxp p hp⟩

theorem Swept.trades (h : Inv H m) (hsw : Swept new content m.groups.zipIdx m.pools pools' s s') :
    Trades m.pools pools' s s' := by
  refine ⟨hsw.pools_length, hsw.tables_length, hsw.indices_length, fun gi hpool => ?_,
    fun gi p hpool => ?_⟩
  · obtain ⟨h₁, h₂, h₃, -⟩ := hsw.other gi fun x hx heq => by
      by_contra hxp
      obtain ⟨-, p, hp, -⟩ := h.shape.paged x.2 x.1 (mem_zipIdx_iff_getElem?.mp hx)
        (by simpa using hxp)
      rw [heq, hpool] at hp
      simp at hp
    exact ⟨h₁.trans hpool, h₃, h₂⟩
  · obtain ⟨g, hg, hpaged⟩ := h.shape.exists_paged hpool
    exact (hsw.traded (g, gi) (mem_zipIdx_iff_getElem?.mpr hg) hpaged p hpool).1

theorem Swept.paged (h : Inv H m) (hsw : Swept new content m.groups.zipIdx m.pools pools' s s')
    (hg : m.groups[gi]? = some g) (hpaged : g.spec.isPaged = true) :
    (∀ i, i ∈ s'.held gi ↔ new g i (i ∈ s.held gi)) ∧
      ∀ pos, s'.mirror (gi, pos) = content g pos (s.mirror (gi, pos)) := by
  obtain ⟨-, p, hp, -⟩ := h.shape.paged gi g hg hpaged
  exact (hsw.traded (g, gi) (mem_zipIdx_iff_getElem?.mpr hg) hpaged p hp).2

end Sweep

/-- **Trading keeps the invariant**: what is left to show of the call is what it
makes of the sequence itself. -/
theorem Inv.trade {H : SeqId → ℕ} {m : StateManager} (h : Inv H m) {k : SeqId} {s s' : SeqState}
    (hs : m.seqs[k]? = some s) {pools' : List (Option BlockPool)}
    (ht : Trades m.pools pools' s s') {high : ℕ} (hslots : s'.fixedSlots = s.fixedSlots)
    (hparity : s'.parity.length = s.parity.length) (htail : s'.ctxLen + s'.tailLen ≤ high)
    (hhigh : high ≤ m.config.maxCtx)
    (hretained : ∀ (gi : ℕ) (g : LayerGroup) (r : Retain), m.groups[gi]? = some g →
      g.spec.retain = some r → ∀ i, i ∈ s'.held gi ↔ 32 * i < high ∧ ¬r.Evicted s'.ctxLen i)
    (swaps commits : ℕ) (reserveScratch : List (ℕ × ℕ)) :
    Inv (Function.update H k high)
      { m with pools := pools', seqs := m.seqs.insert k s', swaps, commits, reserveScratch } where
  shape :=
    { h.shape with
      pools_length := ht.pools_length.trans h.shape.pools_length
      paged := by
        intro gi g hg hp
        obtain ⟨hf, p, hpool, hle⟩ := h.shape.paged gi g hg hp
        obtain ⟨p', hp', htr⟩ := ht.paged gi p hpool
        refine ⟨hf, p', hp', ?_⟩
        have : p'.total = p.total := htr.total_eq
        omega
      unpaged := by
        intro gi g hg hp
        obtain ⟨hpool, hf⟩ := h.shape.unpaged gi g hg hp
        exact ⟨(ht.unpaged gi hpool).1, hf⟩ }
  seqs := by
    intro k' t hk'
    rcases eq_or_ne k' k with rfl | hne
    · simp only [Std.ExtTreeMap.getElem?_insert_self, Option.some.injEq] at hk'
      subst hk'
      rw [Function.update_self]
      have hinv := h.seqs k' s hs
      exact
        { tables_length := ht.tables_length.trans hinv.tables_length
          indices_length := ht.indices_length.trans hinv.indices_length
          slots_length := hslots ▸ hinv.slots_length
          parity_length := hparity.trans hinv.parity_length
          unpaged := by
            intro gi g hg hp
            obtain ⟨-, htable, hheld⟩ := ht.unpaged gi (h.shape.unpaged gi g hg hp).1
            rw [htable, hheld, SeqState.slot, hslots]
            exact hinv.unpaged gi g hg hp
          paged := by
            intro gi g hg hp
            rw [SeqState.slot, hslots]
            exact hinv.paged gi g hg hp
          aligned := ht.aligned hinv h.shape.pools_length
          ascending := ht.ascending hinv h.shape.pools_length
          tail_le := htail
          high_le := hhigh
          retained := hretained }
    · simp only [Std.ExtTreeMap.getElem?_insert, compare_eq_iff_eq, hne.symm, if_false] at hk'
      rw [Function.update_of_ne hne]
      exact h.seqs k' t hk'
  blocks := by
    intro gi p' hp'
    have hlt : gi < m.pools.length := by
      rw [← ht.pools_length]
      exact (List.getElem?_eq_some_iff.mp hp').1
    rcases hpool : m.pools[gi]? with _ | _ | p
    · simp at hpool
      omega
    · rw [(ht.unpaged gi hpool).1] at hp'
      simp at hp'
    · obtain ⟨p'', hp'', htr⟩ := ht.paged gi p hpool
      rw [hp''] at hp'
      obtain rfl : p'' = p' := by simpa using hp'
      have hown := (h.blocks gi p hpool).owned
      have htotal : p''.total = p.total := htr.total_eq
      refine ⟨htr.descending, ?_⟩
      rw [heldBlocks_insert, htotal]
      refine hown.exchange ?_
      rw [heldBlocks_of_some hs]
      exact htr.perm
  slots := by
    intro gi f hf
    obtain ⟨hasc, hown⟩ := h.slots gi f hf
    refine ⟨hasc, ?_⟩
    rw [heldSlots_insert, show (s'.slot gi).toList = heldSlots m.seqs gi k by
      rw [heldSlots_of_some hs, SeqState.slot, hslots, ← SeqState.slot], Function.update_eq_self]
    exact hown
  live := by
    have hmem : m.seqs.contains k = true := by
      rw [Std.ExtTreeMap.contains_eq_isSome_getElem?, hs]
      rfl
    rw [Std.ExtTreeMap.size_insert, if_pos hmem]
    exact h.live
  live_le := h.live_le
  ids_lt := by
    intro k' t hk'
    rcases eq_or_ne k' k with rfl | hne
    · exact h.ids_lt k' s hs
    · simp only [Std.ExtTreeMap.getElem?_insert, compare_eq_iff_eq, hne.symm, if_false] at hk'
      exact h.ids_lt k' t hk'
  ids_le := h.ids_le
  unborn := by
    intro k' hk'
    have hne : k' ≠ k := fun heq => by
      have := h.ids_lt k s hs
      simp only at hk'
      omega
    rw [Function.update_of_ne hne]
    exact h.unborn k' hk'

end R9v

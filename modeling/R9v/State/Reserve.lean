import R9v.State.Trade

/-!
# What a reservation does

`reserve` works in two passes. The first (`scanReserve`) records the block indices
that the sequence does not have, group by group, and stops when a pool has too few
blocks; the second (`placeReserveBlocks`) takes a block for every recorded index.
The second pass cannot fail after the first has succeeded: every row of a group is
placed as a whole (`placeRow_eq`), so the rollback is never needed.

The specification is `reserve_cases`: a reservation fails and changes nothing but
its scratch, or it succeeds, trades in every group, and holds afterwards exactly
the indices it held and the ones its range touches.
-/

namespace R9v

open Checked Sorted StateManager List

/-! ### The first pass -/

theorem mem_missing {held : List ℕ} (h : held.Pairwise (· < ·)) {first last i : ℕ} :
    i ∈ missing held first last ↔ first ≤ i ∧ i < last ∧ i ∉ held := by
  have hpp : held[partitionPoint (fun x => decide (x < i)) held]? = some i ↔ i ∈ held :=
    getElem?_partitionPoint h
  simp only [missing, mem_filter, mem_range'_1, decide_not, Bool.not_eq_true',
    decide_eq_false_iff_not, hpp]
  constructor
  · rintro ⟨⟨h₁, h₂⟩, h₃⟩
    exact ⟨h₁, by omega, h₃⟩
  · rintro ⟨h₁, h₂, h₃⟩
    exact ⟨⟨h₁, by omega⟩, h₃⟩

theorem nodup_missing (held : List ℕ) (first last : ℕ) : (missing held first last).Nodup :=
  List.Nodup.filter _ nodup_range'

/-- The blocks that a scan records. -/
def wanted (s : SeqState) (first last : ℕ) (groups : List (LayerGroup × ℕ)) : List (ℕ × ℕ) :=
  groups.flatMap fun (g, gi) =>
    if g.spec.isPaged then (missing (s.held gi) first last).map (gi, ·) else []

theorem exists_exhausted (group want free stop maxCtx : ℕ) :
    ∃ e, exhausted group want free stop maxCtx = .err e := by
  unfold exhausted
  split <;> exact ⟨_, rfl⟩

/-- **The first pass** fails with an error, or records every missing block and
leaves every pool large enough. -/
theorem scanReserve_cases {m : StateManager} {s : SeqState} {first last : ℕ} (stop : ℕ)
    {groups : List (LayerGroup × ℕ)} (scratch : List (ℕ × ℕ))
    (hL : ∀ x ∈ groups, x.2 < 2 ^ 32 ∧ x.2 < s.indices.length ∧ x.2 < m.pools.length) :
    ((∃ x ∈ groups, x.1.spec.isPaged = true ∧
        (∀ p, m.pools[x.2]? = some (some p) →
          p.free.length < (missing (s.held x.2) first last).length)) ∧
      ∃ e sc, scanReserve m s first last stop groups scratch = (.error (.err e), sc)) ∨
    (scanReserve m s first last stop groups scratch =
        (.ok (), scratch ++ wanted s first last groups) ∧
      ∀ x ∈ groups, x.1.spec.isPaged = true → ∀ p, m.pools[x.2]? = some (some p) →
        (missing (s.held x.2) first last).length ≤ p.free.length) := by
  induction groups generalizing scratch with
  | nil => exact Or.inr ⟨by simp [scanReserve, wanted], by simp⟩
  | cons x groups ih =>
    obtain ⟨g, gi⟩ := x
    have htail := fun y hy => hL y (mem_cons_of_mem _ hy)
    obtain ⟨h32, hidx, hpool⟩ := hL (g, gi) mem_cons_self
    simp only [scanReserve]
    by_cases hp : g.spec.isPaged = true
    · rw [if_pos hp, narrow_of_lt h32, SeqState.getElem?_indices hidx,
        getElem?_eq_getElem hpool]
      simp only
      split
      · rename_i hle
        rcases ih (scratch ++ (missing (s.held gi) first last).map (gi, ·)) htail with
          ⟨⟨x, hx, hshort⟩, h⟩ | ⟨h, hroom⟩
        · exact Or.inl ⟨⟨x, mem_cons_of_mem _ hx, hshort⟩, h⟩
        · refine Or.inr ⟨?_, fun y hy hyp p hyq => ?_⟩
          · rw [h]
            simp [wanted, hp]
          · rcases mem_cons.mp hy with rfl | hy
            · rw [getElem?_eq_getElem hpool, Option.some.injEq] at hyq
              rw [hyq] at hle
              exact hle
            · exact hroom y hy hyp p hyq
      · rename_i hshort
        obtain ⟨e, he⟩ := exists_exhausted gi (missing (s.held gi) first last).length
          (m.pools[gi].elim 0 (·.free.length)) stop m.config.maxCtx
        refine Or.inl ⟨⟨(g, gi), mem_cons_self, hp, fun p hpp => ?_⟩, e, _, by rw [he]⟩
        rw [getElem?_eq_getElem hpool, Option.some.injEq] at hpp
        simpa [hpp] using hshort
    · rw [if_neg hp]
      rcases ih scratch htail with ⟨⟨x, hx, hshort⟩, h⟩ | ⟨h, hroom⟩
      · exact Or.inl ⟨⟨x, mem_cons_of_mem _ hx, hshort⟩, h⟩
      · refine Or.inr ⟨?_, fun y hy hyp p hyq => ?_⟩
        · rw [h]
          simp [wanted, hp]
        · rcases mem_cons.mp hy with rfl | hy
          · exact absurd hyp hp
          · exact hroom y hy hyp p hyq

/-! ### The second pass -/

section Place

variable {k : SeqId} {gi : ℕ} {pools : List (Option BlockPool)}
  {seqs : Std.ExtTreeMap ℕ SeqState} {s : SeqState} {p : BlockPool} (stop maxCtx : ℕ)

theorem placeOneBlock_eq (idx : ℕ) {id : ℕ} {free : List ℕ} (hs : seqs[k]? = some s)
    (hp : pools[gi]? = some (some p)) (hfree : p.free = free ++ [id])
    (hi : gi < s.indices.length) (ht : gi < s.tables.length) :
    placeOneBlock k gi idx stop maxCtx (pools, seqs) =
      (.ok (), (pools.set gi (some (Cell.place ⟨p, s.held gi, s.table gi⟩ free id idx).pool),
        seqs.insert k (s.setRow gi (Cell.place ⟨p, s.held gi, s.table gi⟩ free id idx).held
          (Cell.place ⟨p, s.held gi, s.table gi⟩ free id idx).table))) := by
  simp [placeOneBlock, hp, hs, BlockPool.alloc_eq hfree, SeqState.getElem?_indices hi,
    SeqState.getElem?_tables ht, Cell.place, SeqState.setRow]

/-- **A row of missing blocks is placed as a whole**: the group trades, and its
indices grow by the row. -/
theorem placeRow_eq {row : List ℕ} {r : List (ℕ × ℕ)} (done : List (ℕ × ℕ))
    (hs : seqs[k]? = some s) (hp : pools[gi]? = some (some p)) (hi : gi < s.indices.length)
    (ht : gi < s.tables.length) (hok : Cell.Ok ⟨p, s.held gi, s.table gi⟩)
    (hroom : row.length ≤ p.free.length) (hnodup : row.Nodup) (hnew : ∀ i ∈ row, i ∉ s.held gi) :
    ∃ c : Cell,
      placeReserveBlocks k stop maxCtx done (row.map (gi, ·) ++ r) (pools, seqs) =
        placeReserveBlocks k stop maxCtx (done ++ row.map (gi, ·)) r
          (pools.set gi (some c.pool), seqs.insert k (s.setRow gi c.held c.table)) ∧
      Cell.Trade ⟨p, s.held gi, s.table gi⟩ c ∧
      ∀ i, i ∈ c.held ↔ i ∈ s.held gi ∨ i ∈ row := by
  obtain ⟨hlt, hpi⟩ := List.getElem?_eq_some_iff.mp hp
  induction row generalizing pools seqs s p done with
  | nil =>
    refine ⟨⟨p, s.held gi, s.table gi⟩, ?_, hok.refl, by simp⟩
    rw [SeqState.setRow_self hi ht, insert_self_eq hs, ← hpi, List.set_getElem_self hlt]
    simp
  | cons idx row ih =>
    obtain ⟨hidx, hnodup⟩ := List.nodup_cons.mp hnodup
    have hne : p.free ≠ [] := by
      rintro hnil
      simp [hnil] at hroom
    have hfree := (List.dropLast_append_getLast hne).symm
    have hlen : p.free.length = p.free.dropLast.length + 1 := by
      rw [List.length_dropLast]
      have := List.length_pos_iff.mpr hne
      omega
    have hplace := placeOneBlock_eq stop maxCtx idx hs hp hfree hi ht
    have htrade := Cell.place_trade hok hfree (hnew idx List.mem_cons_self)
    -- the first block is placed, and the rest of the row goes on from there
    set c := Cell.place ⟨p, s.held gi, s.table gi⟩ p.free.dropLast (p.free.getLast hne) idx with hc
    have hheld : (s.setRow gi c.held c.table).held gi = c.held := by
      rw [SeqState.held_setRow hi, if_pos rfl]
    have htable : (s.setRow gi c.held c.table).table gi = c.table := by
      rw [SeqState.table_setRow ht, if_pos rfl]
    have hmem : ∀ i, i ∈ c.held ↔ i = idx ∨ i ∈ s.held gi := fun i => Cell.mem_place_held
    have hs' : (seqs.insert k (s.setRow gi c.held c.table))[k]? =
        some (s.setRow gi c.held c.table) := by simp
    have hp' : (pools.set gi (some c.pool))[gi]? = some (some c.pool) := by simp [hlt]
    obtain ⟨c', hrun, htrade', hmem'⟩ := ih (done ++ [(gi, idx)]) hs' hp'
      (by simpa [SeqState.setRow] using hi) (by simpa [SeqState.setRow] using ht)
      (by rw [hheld, htable]; exact htrade.ok hok)
      (by simp only [hc, Cell.place]; simp only [List.length_cons] at hroom; omega) hnodup
      (by
        intro i hmi
        rw [hheld, hmem]
        rintro (rfl | hin)
        · exact hidx hmi
        · exact hnew i (List.mem_cons_of_mem _ hmi) hin)
      (by simpa using hlt) (by simp)
    refine ⟨c', ?_, ?_, fun i => ?_⟩
    · rw [List.map_cons, List.cons_append, placeReserveBlocks, hplace]
      simp only
      rw [hrun, SeqState.setRow_setRow, insert_insert_eq, List.set_set]
      simp
    · rw [hheld, htable] at htrade'
      exact htrade.trans htrade'
    · rw [hmem' i, hheld, hmem i, List.mem_cons]
      tauto

/-- **The second pass succeeds**: every group that the scan looked at trades and
gains the indices it missed, and every other group is as before. -/
theorem placeAll_eq {groups : List (LayerGroup × ℕ)} {first last : ℕ} {s₀ : SeqState}
    (done : List (ℕ × ℕ)) (hs : seqs[k]? = some s)
    (hheld : ∀ x ∈ groups, s.held x.2 = s₀.held x.2)
    (hready : Sweep (fun p held => (missing held first last).length ≤ p.free.length)
      groups pools s) :
    ∃ pools' s',
      placeReserveBlocks k stop maxCtx done (wanted s₀ first last groups) (pools, seqs) =
        (.ok (), (pools', seqs.insert k s')) ∧
      s' = { s with indices := s'.indices, tables := s'.tables } ∧
      Swept (fun _ i held => held ∨ (first ≤ i ∧ i < last)) (fun _ _ content => content)
        groups pools pools' s s' := by
  induction groups generalizing pools seqs s done with
  | nil =>
    refine ⟨pools, s, ?_, rfl, .nil⟩
    simp [wanted, placeReserveBlocks, insert_self_eq hs]
  | cons x groups ih =>
    obtain ⟨g, gi⟩ := x
    have hheld' := fun x hx => hheld x (mem_cons_of_mem _ hx)
    by_cases hpaged : g.spec.isPaged = true
    · obtain ⟨p, hp, hok, hroom⟩ := hready.cell (g, gi) mem_cons_self hpaged
      obtain ⟨hi, ht⟩ := hready.lt (g, gi) mem_cons_self
      obtain ⟨c, hrow, htrade, hmem⟩ := placeRow_eq stop maxCtx
        (r := wanted s₀ first last groups) done hs hp hi ht hok hroom (nodup_missing ..)
        fun i hmi => ((mem_missing hok.ascending).mp hmi).2.2
      have hs' : (seqs.insert k (s.setRow gi c.held c.table))[k]? =
          some (s.setRow gi c.held c.table) := by simp
      obtain ⟨pools', s', hrun, hframe, hswept⟩ :=
        ih (done ++ (missing (s.held gi) first last).map (gi, ·)) hs'
          (fun x hx => by rw [SeqState.held_setRow hi, if_neg (hready.ne x hx), hheld' x hx])
          hready.step
      refine ⟨pools', s', ?_, hframe, .cons hpaged hready hp htrade (fun i => ?_) (fun _ => rfl)
        (fun _ _ _ => rfl) hswept⟩
      · rw [← insert_insert_eq (s.setRow gi c.held c.table), ← hrun, ← hrow]
        simp [wanted, hpaged, ← hheld (g, gi) mem_cons_self]
      · rw [hmem i, mem_missing hok.ascending]
        tauto
    · obtain ⟨pools', s', hrun, hframe, hswept⟩ := ih done hs hheld' hready.tail
      refine ⟨pools', s', ?_, hframe, hswept.skip hpaged⟩
      rw [← hrun]
      simp [wanted, hpaged]

end Place

/-! ### The specification -/

/-- **When a reservation is granted**: the sequence is live and has none open, the
range is not empty and ends within the context, and every paged pool has a block
for every index that is missing. -/
def Reservable (m : StateManager) (k : SeqId) (n : ℕ) (s : SeqState) : Prop :=
  m.seqs[k]? = some s ∧ s.tailLen = 0 ∧ 1 ≤ n ∧ s.ctxLen + n ≤ m.config.maxCtx ∧
    ∀ (gi : ℕ) (g : LayerGroup) (p : BlockPool), m.groups[gi]? = some g →
      g.spec.isPaged = true → m.pools[gi]? = some (some p) →
      (missing (s.held gi) (s.ctxLen / blockTokens) (divCeil (s.ctxLen + n))).length ≤
        p.free.length

/-- **What a reservation of `n` tokens makes of the sequence**: the tail is open,
and the blocks of the range have joined the tables. -/
structure Reserved (m : StateManager) (s : SeqState) (n : ℕ) (pools' : List (Option BlockPool))
    (s' : SeqState) : Prop where
  frame : s' = { s with
    tailLen := n, compacted := none, indices := s'.indices, tables := s'.tables }
  trades : Trades m.pools pools' s s'
  mem_held : ∀ (gi : ℕ) (g : LayerGroup), m.groups[gi]? = some g → g.spec.isPaged = true →
    ∀ i, i ∈ s'.held gi ↔
      i ∈ s.held gi ∨ (s.ctxLen / blockTokens ≤ i ∧ i < divCeil (s.ctxLen + n))

theorem reserveChecks_eq_ok {H : SeqId → ℕ} {m : StateManager} (h : Inv H m) {k : SeqId} {n : ℕ}
    {s : SeqState} {stop : ℕ} :
    m.reserveChecks k n = .ok (s, stop) ↔ m.seqs[k]? = some s ∧ s.tailLen = 0 ∧ 1 ≤ n ∧
      s.ctxLen + n ≤ m.config.maxCtx ∧ stop = s.ctxLen + n := by
  have hmax := h.shape.config.maxCtx_le
  simp only [reserveChecks, StateManager.seq, bind_eq_ok, lift_eq_ok, okOr_eq_ok, ensure_eq_ok,
    add_eq_some, pure_eq_ok, Prod.mk.injEq]
  constructor
  · rintro ⟨t, ht, -, ⟨h₁, -⟩, -, h₂, _, ⟨-, rfl⟩, -, h₃, rfl, rfl⟩
    exact ⟨ht, h₂, by omega, h₃, rfl⟩
  · rintro ⟨hs, h₁, h₂, h₃, rfl⟩
    simp only [maxCtxHard] at hmax
    exact ⟨s, hs, (), ⟨by omega, by simp only [maxReserveHard]; omega⟩, (), h₁, _,
      ⟨by omega, rfl⟩, (), h₃, rfl, rfl⟩

theorem reserveChecks_ne_panic (m : StateManager) (k : SeqId) (n : ℕ) :
    m.reserveChecks k n ≠ .error .panic := by
  simp [reserveChecks, -bind_pure_comp]

/-- **The specification of `reserve`**: it refuses what is not reservable, and
then only its scratch changes; it grants what is, and nothing else. -/
theorem reserve_cases {H : SeqId → ℕ} {m : StateManager} (h : Inv H m) (k : SeqId) (n : ℕ) :
    ((∀ s, ¬Reservable m k n s) ∧
      ∃ e sc, m.reserve k n = (.error (.err e), { m with reserveScratch := sc })) ∨
    ∃ s pools' s' sc, Reservable m k n s ∧ Reserved m s n pools' s' ∧
      m.reserve k n = (.ok ⟨k, s.ctxLen, n⟩,
        { m with pools := pools', seqs := m.seqs.insert k s', reserveScratch := sc }) := by
  rcases hch : m.reserveChecks k n with e | ⟨s, stop⟩
  · obtain ⟨e', rfl⟩ := exists_err hch (reserveChecks_ne_panic m k n)
    refine Or.inl ⟨fun s ⟨hs, h₁, h₂, h₃, _⟩ => ?_, e', m.reserveScratch, ?_⟩
    · simp [(reserveChecks_eq_ok h).mpr ⟨hs, h₁, h₂, h₃, rfl⟩] at hch
    · simp only [reserve, hch]
  obtain ⟨hs, htail, hn, hle, rfl⟩ := (reserveChecks_eq_ok h).mp hch
  have hinv := h.seqs k s hs
  have hzip : ∀ x ∈ m.groups.zipIdx, x.2 < 2 ^ 32 ∧ x.2 < s.indices.length ∧ x.2 < m.pools.length := by
    rintro ⟨g, gi⟩ hx
    have hlt := (List.getElem?_eq_some_iff.mp (List.mem_zipIdx_iff_getElem?.mp hx)).1
    have hcap := h.shape.groups.length_le
    simp only [maxGroupsHard] at hcap
    rw [hinv.indices_length, h.shape.pools_length]
    exact ⟨by simp only; omega, hlt, hlt⟩
  simp only [reserve, hch]
  rcases scanReserve_cases (s.ctxLen + n) [] hzip with
    ⟨⟨⟨g, gi⟩, hx, hpaged, hshort⟩, e, sc, hscan⟩ | ⟨hscan, hroom⟩
  · rw [hscan]
    refine Or.inl ⟨fun t ⟨ht, _, _, _, hfree⟩ => ?_, e, sc, rfl⟩
    obtain rfl : s = t := by simpa [hs] using ht
    have hg := mem_zipIdx_iff_getElem?.mp hx
    obtain ⟨-, p, hp, -⟩ := h.shape.paged gi g hg hpaged
    exact absurd (hfree gi g p hg hpaged hp) (Nat.not_le.mpr (hshort p hp))
  · rw [hscan, nil_append]
    obtain ⟨pools', s', hplace, hframe, hswept⟩ :=
      placeAll_eq (s.ctxLen + n) m.config.maxCtx [] hs (fun _ _ => rfl) (.of_inv h hs hroom)
    refine Or.inr ⟨s, pools', { s' with tailLen := n, compacted := none },
      wanted s (s.ctxLen / blockTokens) (divCeil (s.ctxLen + n)) m.groups.zipIdx,
      ⟨hs, htail, hn, hle, fun gi g p hg hpaged hp => ?_⟩,
      ⟨by rw [hframe], { hswept.trades h with }, fun gi g hg hpaged => (hswept.paged h hg hpaged).1⟩, ?_⟩
    · exact hroom (g, gi) (mem_zipIdx_iff_getElem?.mpr hg) hpaged p hp
    · simp only [hplace, Std.ExtTreeMap.getElem?_insert_self, insert_insert_eq]

/-! ### The invariant -/

/-- **A granted reservation keeps the invariant**, and raises the highest reserved
position to its end. -/
theorem Reserved.inv {H : SeqId → ℕ} {m : StateManager} (h : Inv H m) {k : SeqId} {n : ℕ}
    {s s' : SeqState} {pools' : List (Option BlockPool)} (hr : Reservable m k n s)
    (hs' : Reserved m s n pools' s') (sc : List (ℕ × ℕ)) :
    Inv (Function.update H k (max (H k) (s.ctxLen + n)))
      { m with pools := pools', seqs := m.seqs.insert k s', reserveScratch := sc } := by
  obtain ⟨hs, htail, hn, hle, -⟩ := hr
  have hinv := h.seqs k s hs
  have hctx : s'.ctxLen = s.ctxLen := by rw [hs'.frame]
  have htail' : s'.tailLen = n := by rw [hs'.frame]
  have hslots : s'.fixedSlots = s.fixedSlots := by rw [hs'.frame]
  refine h.trade hs hs'.trades hslots (by rw [hs'.frame]) ?_ (max_le hinv.high_le hle)
    (fun gi g r hg hret i => ?_) m.swaps m.commits sc
  · rw [hctx, htail']
    exact le_max_right _ _
  · have hpaged := StateSpec.isPaged_of_retain hret
    rw [hs'.mem_held gi g hg hpaged, hinv.retained gi g r hg hret, hctx]
    -- an index of the new range is not below the context, so it is not given up
    have hnew : s.ctxLen / blockTokens ≤ i → ¬r.Evicted s.ctxLen i := fun hi hev => by
      have := hev.lt
      simp only [blockTokens] at hi
      omega
    have := hinv.tail_le
    simp only [StateManager.divCeil, blockTokens] at hnew ⊢
    constructor
    · rintro (⟨h₁, h₂⟩ | ⟨h₁, h₂⟩)
      · exact ⟨by omega, h₂⟩
      · exact ⟨by omega, hnew h₁⟩
    · rintro ⟨h₁, h₂⟩
      by_cases hlow : 32 * i < H k
      · exact Or.inl ⟨hlow, h₂⟩
      · exact Or.inr ⟨by omega, by omega⟩

end R9v

import R9v.State.Emitted
import R9v.T0.Attention
import Mathlib.Data.List.SplitLengths

/-!
# Reading a paged cache

The tensors of a batch tell the kernels where the rows of the sequences are. Here the accessors
of the kernels are read off from what the manager has emitted (`checkedSlot_described` and the
lemmas after it): a token of a step is written to the slot of its position, and no other slot is
touched (`stateWriteKvPaged_described`). That two tokens never share a slot is ownership of the
blocks (`Inv.slot_inj`).
-/

namespace R9v

open Checked StateManager List

variable {ρ : Type}

/-! ### Slots -/

/-- The slot that the block table gives for a position. -/
def SeqState.slotAt (s : SeqState) (gi pos : ℕ) : ℕ := s.blockAt gi (pos / 32) * 32 + pos % 32

section Slots

variable {H : SeqId → ℕ} {m : StateManager} {gi : ℕ} {p : BlockPool} {k k' : SeqId}
  {s s' : SeqState} {pos pos' slot : ℕ}

theorem SeqInv.slotAt_eq {groups : List LayerGroup} {maxCtx high : ℕ}
    (h : SeqInv groups maxCtx high s) (hin : s.InSlot gi pos slot) : s.slotAt gi pos = slot := by
  obtain ⟨id, hid, rfl⟩ := hin
  rw [SeqState.slotAt, h.blockAt_eq hid]

theorem mem_heldBlocks {idx id : ℕ} (hs : m.seqs[k]? = some s) (hid : (idx, id) ∈ s.entries gi) :
    id ∈ heldBlocks m.seqs gi k := by
  rw [heldBlocks_of_some hs]
  exact SeqState.mem_table hid

theorem Inv.slot_lt (h : Inv H m) (hp : m.pools[gi]? = some (some p)) (hs : m.seqs[k]? = some s)
    (hin : s.InSlot gi pos slot) : slot < p.total * 32 := by
  obtain ⟨id, hid, rfl⟩ := hin
  have hlt : id < p.total := (h.blocks gi p hp).owned.of_mem_held (mem_heldBlocks hs hid)
  omega

theorem Inv.entry_inj (h : Inv H m) (hp : m.pools[gi]? = some (some p)) (hs : m.seqs[k]? = some s)
    {idx idx' id : ℕ} (hid : (idx, id) ∈ s.entries gi) (hid' : (idx', id) ∈ s.entries gi) :
    idx = idx' := by
  obtain ⟨i, hi, heq⟩ := mem_iff_getElem.mp hid
  obtain ⟨j, hj, heq'⟩ := mem_iff_getElem.mp hid'
  simp only [SeqState.entries, getElem_zip, Prod.mk.injEq] at heq heq'
  have hnodup : (s.table gi).Nodup := by
    rw [← heldBlocks_of_some hs]
    exact (h.blocks gi p hp).owned.held_nodup k
  obtain rfl : i = j := hnodup.getElem_inj_iff.mp (heq.2.trans heq'.2.symm)
  exact heq.1.symm.trans heq'.1

/-- **A slot belongs to one position of one sequence.** -/
theorem Inv.slot_inj (h : Inv H m) (hp : m.pools[gi]? = some (some p)) (hs : m.seqs[k]? = some s)
    (hs' : m.seqs[k']? = some s') (hin : s.InSlot gi pos slot) (hin' : s'.InSlot gi pos' slot) :
    k = k' ∧ pos = pos' := by
  obtain ⟨id, hid, rfl⟩ := hin
  obtain ⟨id', hid', heq⟩ := hin'
  obtain rfl : id = id' := by omega
  have hk : k = k' := by
    by_contra hne
    exact (h.blocks gi p hp).owned.one_holder k k' hne id (mem_heldBlocks hs hid)
      (mem_heldBlocks hs' hid')
  subst hk
  obtain rfl : s = s' := Option.some.inj (hs.symm.trans hs')
  have hidx := h.entry_inj hp hs hid hid'
  exact ⟨rfl, by omega⟩

/-- **A position that is reserved and not given up has a slot.** -/
theorem Inv.exists_slot (h : Inv H m) {g : LayerGroup} {r : Retain} (hg : m.groups[gi]? = some g)
    (hr : g.spec.retain = some r) (hs : m.seqs[k]? = some s)
    (hpos : pos < s.ctxLen + s.tailLen) (hkept : ¬r.Evicted s.ctxLen (pos / 32)) :
    s.InSlot gi pos (s.slotAt gi pos) := by
  have hinv := h.seqs k s hs
  have hheld : pos / 32 ∈ s.held gi :=
    (hinv.retained gi g r hg hr _).mpr ⟨by have := hinv.tail_le; omega, hkept⟩
  obtain ⟨id, hid⟩ := hinv.exists_entry hheld
  exact ⟨id, hid, by rw [SeqState.slotAt, hinv.blockAt_eq hid]⟩

theorem Inv.not_evicted_of_inSlot (h : Inv H m) {g : LayerGroup} {r : Retain}
    (hg : m.groups[gi]? = some g) (hr : g.spec.retain = some r) (hs : m.seqs[k]? = some s)
    (hin : s.InSlot gi pos slot) : ¬r.Evicted s.ctxLen (pos / 32) := by
  obtain ⟨id, hid, -⟩ := hin
  exact (((h.seqs k s hs).retained gi g r hg hr _).mp (SeqState.mem_held hid)).2

end Slots

/-! ### The tokens of a batch -/

section Tokens

variable {queryLens : List ℕ}

theorem exists_batchBase {tok : ℕ} (h : tok < queryLens.sum) :
    ∃ j q i, queryLens[j]? = some q ∧ i < q ∧ tok = batchBase queryLens j + i := by
  induction queryLens generalizing tok with
  | nil => exact absurd h (Nat.not_lt_zero tok)
  | cons q lens ih =>
    rcases lt_or_ge tok q with hlt | hge
    · exact ⟨0, q, tok, rfl, hlt, by simp [batchBase]⟩
    · obtain ⟨j, q', i, hq, hi, heq⟩ := @ih (tok - q) (by rw [sum_cons] at h; omega)
      refine ⟨j + 1, q', i, hq, hi, ?_⟩
      rw [batchBase] at heq ⊢
      rw [take_succ_cons, sum_cons]
      omega

/-- The rows of a step that belong to a sequence. -/
def stepRows (seqs : List SeqId) (queryLens : List ℕ) (rows : List ρ) (k : SeqId) : List ρ :=
  ((seqs.zip (queryLens.splitLengths rows)).lookup k).getD []

theorem lookup_zip {β : Type} {seqs : List SeqId} {l : List β} {j : ℕ} {k : SeqId} {x : β}
    (hnodup : seqs.Nodup) (hk : seqs[j]? = some k) (hx : l[j]? = some x) :
    (seqs.zip l).lookup k = some x := by
  induction seqs generalizing l j with
  | nil => cases hk
  | cons k' seqs ih =>
    obtain ⟨hnot, hnodup⟩ := nodup_cons.mp hnodup
    cases l with
    | nil => cases hx
    | cons y l =>
      rw [zip_cons_cons, lookup_cons]
      cases j with
      | zero =>
        obtain rfl := Option.some.inj hk
        obtain rfl := Option.some.inj hx
        simp
      | succ j =>
        have hmem : k ∈ seqs := mem_of_getElem? (by simpa using hk)
        have hne : (k == k') = false := beq_eq_false_iff_ne.mpr (ne_of_mem_of_not_mem hmem hnot)
        rw [hne]
        exact ih hnodup (by simpa using hk) (by simpa using hx)

theorem splitLengths_getElem? {rows : List ρ} {j q : ℕ} (hq : queryLens[j]? = some q) :
    (queryLens.splitLengths rows)[j]? = some ((rows.drop (batchBase queryLens j)).take q) := by
  induction queryLens generalizing rows j with
  | nil => cases hq
  | cons q' lens ih =>
    rw [splitLengths_cons]
    cases j with
    | zero =>
      obtain rfl := Option.some.inj hq
      simp [batchBase]
    | succ j =>
      rw [getElem?_cons_succ, ih (by simpa using hq), drop_drop, batchBase, batchBase,
        take_succ_cons, sum_cons]

variable {seqs : List SeqId} {rows : List ρ} {k : SeqId}

theorem stepRows_eq {j q : ℕ} (hnodup : seqs.Nodup) (hk : seqs[j]? = some k)
    (hq : queryLens[j]? = some q) :
    stepRows seqs queryLens rows k = (rows.drop (batchBase queryLens j)).take q := by
  rw [stepRows, lookup_zip hnodup hk (splitLengths_getElem? hq), Option.getD_some]

theorem stepRows_of_not_mem (h : k ∉ seqs) : stepRows seqs queryLens rows k = [] := by
  have hnone : (seqs.zip (queryLens.splitLengths rows)).lookup k = none := by
    rw [lookup_eq_none_iff]
    intro x hx
    have := (of_mem_zip hx).1
    exact bne_iff_ne.mpr (ne_of_mem_of_not_mem this h).symm
  rw [stepRows, hnone, Option.getD_none]

theorem stepRows_length {j q : ℕ} (hnodup : seqs.Nodup) (hk : seqs[j]? = some k)
    (hq : queryLens[j]? = some q) (hrows : rows.length = queryLens.sum) :
    (stepRows seqs queryLens rows k).length = q := by
  have hle := batchBase_add_le hq
  rw [stepRows_eq hnodup hk hq, length_take, length_drop]
  omega

theorem stepRows_getElem? {j q i : ℕ} (hnodup : seqs.Nodup) (hk : seqs[j]? = some k)
    (hq : queryLens[j]? = some q) (hi : i < q) :
    (stepRows seqs queryLens rows k)[i]? = rows[batchBase queryLens j + i]? := by
  rw [stepRows_eq hnodup hk hq, getElem?_take_of_lt hi, getElem?_drop]

end Tokens

/-! ### What the tensors tell the kernels -/

/-- The `j`-th sequence of a batch: its id, its new tokens, and its state. -/
structure BatchRow (m : StateManager) (seqs : List SeqId) (queryLens : List ℕ) (j : ℕ) (k : SeqId)
    (q : ℕ) (s : SeqState) : Prop where
  seq : seqs[j]? = some k
  query : queryLens[j]? = some q
  state : m.seqs[k]? = some s

section Described

variable {H : SeqId → ℕ} {m : StateManager} {seqs : List SeqId} {queryLens : List ℕ}
  (positions : Option Positions) (mask : Option TreeMask) {flat : List ℕ × List ℕ × List ℕ}
  {gi : ℕ} {g : LayerGroup} {r : Retain} {p : BlockPool} {j : ℕ} {k : SeqId} {q : ℕ} {s : SeqState}

theorem Plannable.exists_row (hplan : Plannable m seqs queryLens) (hq : queryLens[j]? = some q) :
    ∃ k s, BatchRow m seqs queryLens j k q s := by
  have hlt : j < seqs.length := hplan.length_eq ▸ (List.getElem?_eq_some_iff.mp hq).1
  have hk : seqs[j]? = some seqs[j] := getElem?_eq_getElem hlt
  obtain ⟨s, hs⟩ := hplan.exists_seq (mem_of_getElem? hk)
  exact ⟨seqs[j], s, hk, hq, hs⟩

theorem Plannable.query_le (hplan : Plannable m seqs queryLens)
    (hrow : BatchRow m seqs queryLens j k q s) : q ≤ s.tailLen := by
  have hzip : (seqs.zip queryLens)[j]? = some (k, q) :=
    getElem?_zip_eq_some.mpr ⟨hrow.seq, hrow.query⟩
  obtain ⟨s', hs', -, hle⟩ := hplan.covers (k, q) (mem_of_getElem? hzip)
  obtain rfl : s = s' := Option.some.inj (hrow.state.symm.trans hs')
  exact hle

theorem group_lt (hg : m.groups[gi]? = some g) : gi < m.groups.length :=
  (List.getElem?_eq_some_iff.mp hg).1

theorem BatchRow.lt (hrow : BatchRow m seqs queryLens j k q s) : j < seqs.length :=
  (List.getElem?_eq_some_iff.mp hrow.seq).1

theorem BatchRow.ctxOf_eq (hrow : BatchRow m seqs queryLens j k q s) : ctxOf m k = s.ctxLen := by
  simp [ctxOf, hrow.state]

theorem checkedSlot_described (h : Inv H m) (hflat : Filled m seqs queryLens m.groups.length flat)
    (hg : m.groups[gi]? = some g) (hr : g.spec.retain = some r)
    (hrow : BatchRow m seqs queryLens j k q s) {i : ℕ} (hi : i < q) :
    s.InSlot gi (s.ctxLen + i) (s.slotAt gi (s.ctxLen + i)) ∧
      checkedSlot (described m seqs queryLens positions mask flat) gi (batchBase queryLens j + i) =
        .ok (s.slotAt gi (s.ctxLen + i)) := by
  obtain ⟨slot, hin, hslot⟩ := hflat.slots gi (group_lt hg) g hg (StateSpec.isPaged_of_retain hr) j k
    q s hrow.seq hrow.query hrow.state i hi
  have hle := batchBase_add_le hrow.query
  rw [(h.seqs k s hrow.state).slotAt_eq hin]
  refine ⟨hin, (checkedSlot_of_lt (group_lt hg) (show _ < queryLens.sum by omega)).trans ?_⟩
  simp only [described]
  rw [getD_eq_getElem?_getD, hslot, Option.getD_some]

theorem checkedBlock_described (hflat : Filled m seqs queryLens m.groups.length flat)
    (hg : m.groups[gi]? = some g) (hr : g.spec.retain = some r)
    (hrow : BatchRow m seqs queryLens j k q s) {idx : ℕ} (hidx : idx < m.maxBlocks) :
    checkedBlock (described m seqs queryLens positions mask flat) gi j idx =
      .ok (s.blockAt gi idx) := by
  have hblock := hflat.blocks gi (group_lt hg) g hg (StateSpec.isPaged_of_retain hr) j k s hrow.seq
    hrow.state idx hidx
  refine (checkedBlock_of_lt (group_lt hg) hrow.lt hidx).trans ?_
  simp only [described]
  rw [getD_eq_getElem?_getD, hblock, Option.getD_some]

theorem emitWindow_eq (hr : g.spec.retain = some r) : emitWindow s g = r.start s.ctxLen := by
  rw [emitWindow, hr]
  cases r <;> simp [Retain.start, windowStartOf_eq]

theorem checkedWindow_described (hflat : Filled m seqs queryLens m.groups.length flat)
    (hg : m.groups[gi]? = some g) (hr : g.spec.retain = some r)
    (hrow : BatchRow m seqs queryLens j k q s) :
    checkedWindow (described m seqs queryLens positions mask flat) gi j =
      .ok (r.start s.ctxLen) := by
  have hwindow := hflat.windows gi (group_lt hg) g hg j k s hrow.seq hrow.state
  refine (checkedWindow_of_lt (group_lt hg) hrow.lt).trans ?_
  simp only [described]
  rw [getD_eq_getElem?_getD, hwindow, Option.getD_some, emitWindow_eq hr]

theorem planQueries_described (flat : List ℕ × List ℕ × List ℕ)
    (hplan : Plannable m seqs queryLens) :
    ∃ queries, planQueries (described m seqs queryLens positions mask flat) = .ok queries ∧
      queries.length = queryLens.sum ∧
      ∀ {j k q s}, BatchRow m seqs queryLens j k q s → ∀ i < q,
        queries[batchBase queryLens j + i]? = some ⟨j, s.ctxLen + i, s.ctxLen, q⟩ := by
  have hlens : (queryRows (seqs.map (ctxOf m)) queryLens).map List.length = queryLens :=
    queryRows_length (by rw [length_map, hplan.length_eq])
  have hlen : (queryRows (seqs.map (ctxOf m)) queryLens).flatten.length = queryLens.sum := by
    rw [length_flatten, hlens]
  refine ⟨_, if_neg (not_not.mpr hlen), hlen, fun {j k q s} hrow i hi => ?_⟩
  have hctx : (seqs.map (ctxOf m))[j]? = some s.ctxLen := by
    rw [getElem?_map, hrow.seq, Option.map_some, hrow.ctxOf_eq]
  have hbase : (((queryRows (seqs.map (ctxOf m)) queryLens).take j).map List.length).sum =
      batchBase queryLens j := by
    rw [map_take, hlens, batchBase]
  change (queryRows (seqs.map (ctxOf m)) queryLens).flatten[batchBase queryLens j + i]? = _
  rw [← hbase, getElem?_flatten (queryRows_getElem? hctx hrow.query) (by simpa using hi)]
  simp [hi]

end Described

/-! ### Writing the rows of a step -/

section Store

variable {cache : KvPagedCache ρ} {writes : List (Option ℕ × ρ)} {slot : ℕ}

@[simp] theorem storeRows_numBlocks : (storeRows cache writes).numBlocks = cache.numBlocks := by
  induction writes generalizing cache with
  | nil => rfl
  | cons x writes ih =>
    obtain ⟨_ | slot, row⟩ := x
    · exact ih
    · exact ih

theorem storeRows_of_not_mem (h : ∀ row, (some slot, row) ∉ writes) :
    (storeRows cache writes).rows slot = cache.rows slot := by
  induction writes generalizing cache with
  | nil => rfl
  | cons x writes ih =>
    have hrest : ∀ row, (some slot, row) ∉ writes := fun row hmem =>
      h row (mem_cons_of_mem _ hmem)
    obtain ⟨_ | slot', row⟩ := x
    · exact ih hrest
    · have hne : slot ≠ slot' := by
        rintro rfl
        exact h row mem_cons_self
      refine (ih hrest).trans ?_
      exact Function.update_of_ne hne _ _

theorem storeRows_getElem? {n : ℕ} {row : ρ} (hn : writes[n]? = some (some slot, row))
    (hlast : ∀ n' row', writes[n']? = some (some slot, row') → n' = n) :
    (storeRows cache writes).rows slot = some row := by
  induction writes generalizing cache n with
  | nil => cases hn
  | cons x writes ih =>
    cases n with
    | zero =>
      obtain rfl := Option.some.inj hn
      have hrest : ∀ row', (some slot, row') ∉ writes := by
        intro row' hmem
        obtain ⟨n', hn'⟩ := mem_iff_getElem?.mp hmem
        exact absurd (hlast (n' + 1) row' hn') (Nat.succ_ne_zero n')
      exact (@storeRows_of_not_mem _ { cache with rows := Function.update cache.rows slot (some row) }
        _ _ hrest).trans (Function.update_self _ _ _)
    | succ n =>
      have hrest : ∀ n' row', writes[n']? = some (some slot, row') → n' = n := fun n' row' hn' =>
        Nat.succ.inj (hlast (n' + 1) row' hn')
      obtain ⟨_ | slot', row'⟩ := x
      · exact ih hn hrest
      · exact ih hn hrest

end Store

section Write

variable {H : SeqId → ℕ} {m : StateManager} {seqs : List SeqId} {queryLens : List ℕ}
  (positions : Option Positions) (mask : Option TreeMask) {flat : List ℕ × List ℕ × List ℕ}
  {gi : ℕ} {g : LayerGroup} {r : Retain} {p : BlockPool}

theorem planWriteSlot_described (h : Inv H m)
    (hflat : Filled m seqs queryLens m.groups.length flat) (hg : m.groups[gi]? = some g)
    (hr : g.spec.retain = some r) (hp : m.pools[gi]? = some (some p)) {j : ℕ} {k : SeqId} {q : ℕ}
    {s : SeqState} (hrow : BatchRow m seqs queryLens j k q s) {i : ℕ} (hi : i < q) :
    planWriteSlot (described m seqs queryLens positions mask flat) gi (p.total * 32)
      (batchBase queryLens j + i) = ([], some (s.slotAt gi (s.ctxLen + i))) := by
  obtain ⟨hin, hslot⟩ := checkedSlot_described positions mask h hflat hg hr
    hrow hi
  have hlt := h.slot_lt hp hrow.state hin
  have hne : s.slotAt gi (s.ctxLen + i) ≠ slotNone := by
    obtain ⟨-, p', hp', htotal⟩ := h.shape.paged gi g hg (StateSpec.isPaged_of_retain hr)
    obtain rfl : p = p' := Option.some.inj (Option.some.inj (hp.symm.trans hp'))
    simp only [slotNone, u32Max, maxSlotBlocks] at htotal ⊢
    omega
  simp only [planWriteSlot, hslot, if_neg hne, if_neg (not_le.mpr hlt)]

/-- **What the write of a step does**: the rows are in the slots of their positions, and no
other slot is touched. -/
theorem stateWriteKvPaged_described {cache : KvPagedCache ρ} {rows : List ρ} (h : Inv H m)
    (hplan : Plannable m seqs queryLens) (hflat : Filled m seqs queryLens m.groups.length flat)
    (hg : m.groups[gi]? = some g) (hr : g.spec.retain = some r)
    (hp : m.pools[gi]? = some (some p)) (hcache : cache.numBlocks = p.total)
    (hrows : rows.length = queryLens.sum) :
    ∃ cache', stateWriteKvPaged (described m seqs queryLens positions mask flat) gi rows cache =
        .ok cache' ∧ cache'.numBlocks = cache.numBlocks ∧
      (∀ {j k q s}, BatchRow m seqs queryLens j k q s → ∀ i < q,
        cache'.rows (s.slotAt gi (s.ctxLen + i)) = rows[batchBase queryLens j + i]?) ∧
      ∀ slot, (∀ {j k q s}, BatchRow m seqs queryLens j k q s → ∀ i < q,
        slot ≠ s.slotAt gi (s.ctxLen + i)) → cache'.rows slot = cache.rows slot := by
  set b := described m seqs queryLens positions mask flat with hb
  have hslots : cache.numSlots = p.total * 32 := by rw [KvPagedCache.numSlots, hcache]; rfl
  -- every token of the step has its slot
  have htok : ∀ tok < queryLens.sum, ∃ slot,
      planWriteSlot b gi cache.numSlots tok = ([], some slot) := by
    intro tok htok
    obtain ⟨j, q, i, hq, hi, rfl⟩ := exists_batchBase htok
    obtain ⟨k, s, hrow⟩ := hplan.exists_row hq
    rw [hslots]
    exact ⟨_, planWriteSlot_described positions mask h hflat hg hr hp hrow hi⟩
  have hnone : (planWriteSlots b gi cache.numSlots).1 = [] := by
    rw [planWriteSlots, flatMap_eq_nil_iff]
    intro x hx
    obtain ⟨tok, hmem, rfl⟩ := mem_map.mp hx
    obtain ⟨slot, hslot⟩ := htok tok (mem_range.mp hmem)
    rw [hslot]
  have hplan₂ : ∀ tok < queryLens.sum, (planWriteSlots b gi cache.numSlots).2[tok]? =
      some (planWriteSlot b gi cache.numSlots tok).2 := by
    intro tok htok
    have hrange : (List.range b.t)[tok]? = some tok := getElem?_range htok
    rw [planWriteSlots, getElem?_map, getElem?_map, hrange]
    rfl
  have hwrite : ∀ {j k q s}, BatchRow m seqs queryLens j k q s → ∀ i < q, ∀ row,
      rows[batchBase queryLens j + i]? = some row →
        ((planWriteSlots b gi cache.numSlots).2.zip rows)[batchBase queryLens j + i]? =
          some (some (s.slotAt gi (s.ctxLen + i)), row) := by
    intro j k q s hrow i hi row hget
    have hle := batchBase_add_le hrow.query
    rw [getElem?_zip_eq_some, hplan₂ _ (by omega), hslots,
      planWriteSlot_described positions mask h hflat hg hr hp hrow hi]
    exact ⟨rfl, hget⟩
  -- and every write is one of them
  have hwritten : ∀ (n slot : ℕ) (row : ρ), ((planWriteSlots b gi cache.numSlots).2.zip rows)[n]? =
      some (some slot, row) → ∃ j k q s i, BatchRow m seqs queryLens j k q s ∧ i < q ∧
        n = batchBase queryLens j + i ∧ slot = s.slotAt gi (s.ctxLen + i) := by
    intro n slot row hn
    obtain ⟨hslot, hrow'⟩ := getElem?_zip_eq_some.mp hn
    have hlt : n < queryLens.sum := hrows ▸ (List.getElem?_eq_some_iff.mp hrow').1
    obtain ⟨j, q, i, hq, hi, rfl⟩ := exists_batchBase hlt
    obtain ⟨k, s, hrow⟩ := hplan.exists_row hq
    rw [hplan₂ _ hlt, hslots, planWriteSlot_described positions mask h hflat hg hr hp hrow hi] at hslot
    exact ⟨j, k, q, s, i, hrow, hi, rfl, (Option.some.inj (Option.some.inj hslot)).symm⟩
  refine ⟨storeRows cache ((planWriteSlots b gi cache.numSlots).2.zip rows), ?_,
    storeRows_numBlocks, ?_, ?_⟩
  · have hgroup : gi < b.g := group_lt hg
    have hrows' : b.t = rows.length := hrows.symm
    have hnil : writeProblems b gi rows = [] := by
      rw [writeProblems, if_neg (not_le.mpr hgroup), if_neg (not_not.mpr hrows')]
      rfl
    simp only [stateWriteKvPaged, if_pos hgroup, hnil, hnone]
    rfl
  · intro j k q s hrow i hi
    have hle := batchBase_add_le hrow.query
    have hget := getElem?_eq_getElem (l := rows) (i := batchBase queryLens j + i) (by omega)
    rw [hget]
    refine storeRows_getElem? (hwrite hrow i hi _ hget) fun n' row' hn' => ?_
    -- a slot is written once, since it belongs to one token
    obtain ⟨j', k', q', s', i', hrow', hi', rfl, hslot⟩ := hwritten n' _ row' hn'
    have hin := (checkedSlot_described positions mask h hflat hg hr hrow hi).1
    have hin' :=
      (checkedSlot_described positions mask h hflat hg hr hrow' hi').1
    rw [← hslot] at hin'
    obtain ⟨rfl, hpos⟩ := h.slot_inj hp hrow.state hrow'.state hin hin'
    obtain rfl : s = s' := Option.some.inj (hrow.state.symm.trans hrow'.state)
    obtain rfl : j = j' := by
      have hj := List.getElem?_eq_some_iff.mp hrow.seq
      have hj' := List.getElem?_eq_some_iff.mp hrow'.seq
      exact hplan.nodup.getElem_inj_iff.mp (hj.2.trans hj'.2.symm)
    omega
  · intro slot hslot
    refine storeRows_of_not_mem fun row hmem => ?_
    obtain ⟨n, hn⟩ := mem_iff_getElem?.mp hmem
    obtain ⟨j, k, q, s, i, hrow, hi, -, heq⟩ := hwritten n slot row hn
    exact hslot hrow i hi heq

end Write

end R9v

import R9v.State.Emitted
import R9v.State.Cycle
import Mathlib.Data.Finset.Card
import Mathlib.Order.Interval.Finset.Nat

/-!
# The slots of a reservation

A reservation returns a range, and the range resolves to the slots of its tokens as long as the
reservation is open (`slot`, `fillSlots`). A slot is a lane of the block that the sequence holds for the
index of the position, so that no two tokens of open reservations share one
(`slots_distinct`). Once the reservation is closed the range is stale: it resolves to an error until
the same range is reserved again (`Stale.run`).
-/

namespace R9v

open Checked List

namespace StateManager

/-! ### Resolving a range -/

/-- One past the last position of a range. -/
def SlotRange.stop (r : SlotRange) : ℕ := r.start + r.len

/-- A range has to be the open reservation of its sequence. -/
def checkRangeLive (s : SeqState) (r : SlotRange) : StateResult Unit :=
  ensure (s.ctxLen = r.start ∧ s.tailLen = r.len) (.invalidBatch
    s!"stale SlotRange: start={r.start} len={r.len} but live ctx_len={s.ctxLen} tail_len={s.tailLen}")

/-- The slot of a token of a range. -/
def slot (m : StateManager) (r : SlotRange) (group k : ℕ) : StateResult ℕ := do
  let g ← okOr m.groups[group]? (.invalidBatch s!"group {group} out of range {m.groups.length}")
  ensure (k < r.len) (.outOfRange k 1 r.len)
  let s ← okOr m.seqs[r.seq]? (.unknownSeq r.seq)
  checkRangeLive s r
  if g.spec.isPaged then do
    let pos ← okOr (add 32 r.start k) (.overflow "slot position")
    flattenSlot s group pos r.stop
  else pure slotNone

/-- Writes the slots of the tokens from `k` on over the cells, up to the first that fails. -/
def fillCells (s : SeqState) (r : SlotRange) (group : ℕ) : ℕ → List ℕ → StateResult Unit × List ℕ
  | _, [] => (.ok (), [])
  | k, cell :: cells =>
    match okOr (add 32 r.start k) (.overflow "slot position") >>= fun pos =>
      flattenSlot s group pos r.stop with
    | .error e => (.error e, cell :: cells)
    | .ok slot =>
      let (result, cells) := fillCells s r group (k + 1) cells
      (result, slot :: cells)

/-- Writes the slots of all tokens of a range into a row: how it ends, and the row afterwards. -/
def fillSlots (m : StateManager) (r : SlotRange) (group : ℕ) (out : List ℕ) :
    StateResult Unit × List ℕ :=
  let checks : StateResult (LayerGroup × SeqState) := do
    ensure (r.len ≤ out.length) (.outOfRange 0 out.length r.len)
    let g ← okOr m.groups[group]? (.invalidBatch s!"group {group} out of range {m.groups.length}")
    let s ← okOr m.seqs[r.seq]? (.unknownSeq r.seq)
    checkRangeLive s r
    pure (g, s)
  match checks with
  | .error e => (.error e, out)
  | .ok (g, s) =>
    if g.spec.isPaged then
      let (result, cells) := fillCells s r group 0 (out.take r.len)
      (result, cells ++ out.drop r.len)
    else (.ok (), List.replicate r.len slotNone ++ out.drop r.len)

end StateManager

open StateManager

/-- The range of the open reservation of a sequence. -/
def SeqState.range (s : SeqState) (k : SeqId) : SlotRange := ⟨k, s.ctxLen, s.tailLen⟩

/-! ### Open reservations -/

section Slots

variable {H : SeqId → ℕ} {m : StateManager} {k : SeqId} {s : SeqState} {gi : ℕ} {g : LayerGroup} {i : ℕ}

theorem SeqState.entry_index (hnodup : (s.table gi).Nodup) {b b' id : ℕ}
    (h : (b, id) ∈ s.entries gi) (h' : (b', id) ∈ s.entries gi) : b = b' := by
  obtain ⟨n, hn⟩ := mem_iff_getElem?.mp h
  obtain ⟨n', hn'⟩ := mem_iff_getElem?.mp h'
  rw [SeqState.entries, getElem?_zip_eq_some] at hn hn'
  obtain rfl := (List.getElem?_inj (List.getElem?_eq_some_iff.mp hn.2).1 hnodup).mp (hn.2.trans hn'.2.symm)
  exact Option.some.inj (hn.1.symm.trans hn'.1)

theorem slot_open (hs : m.seqs[k]? = some s) (hg : m.groups[gi]? = some g) (hi : i < s.tailLen) :
    m.slot (s.range k) gi i =
      if g.spec.isPaged then do
        let pos ← okOr (add 32 s.ctxLen i) (.overflow "slot position")
        flattenSlot s gi pos (s.range k).stop
      else pure slotNone := by
  have hseq : m.seqs[(s.range k).seq]? = some s := hs
  have hlive : checkRangeLive s (s.range k) = .ok () := ensure_of ⟨rfl, rfl⟩
  rw [StateManager.slot, hg, okOr_some, ok_bind, ensure_of (c := i < (s.range k).len) hi, ok_bind, hseq,
    okOr_some, ok_bind, hlive, ok_bind]
  rfl

/-- **The slot of a token of an open reservation.** -/
theorem slot_eq (h : Inv H m) (hs : m.seqs[k]? = some s) (hg : m.groups[gi]? = some g)
    (hp : g.spec.isPaged = true) (hi : i < s.tailLen) :
    ∃ id, ((s.ctxLen + i) / 32, id) ∈ s.entries gi ∧ id ≤ 134217726 ∧
      m.slot (s.range k) gi i = .ok (id * 32 + (s.ctxLen + i) % 32) := by
  obtain ⟨_, ⟨id, hid, rfl⟩, hslot⟩ := flattenSlot_inSlot h hs hg hp hi (s.range k).stop
  have hstop := h.stop_lt hs
  refine ⟨id, hid, ?_, ?_⟩
  · obtain ⟨-, p, hpool, hle⟩ := h.shape.paged gi g hg hp
    have := (h.cell_ok hs hpool).lt_total id (mem_append_right _ (SeqState.mem_table hid))
    simp only [maxSlotBlocks] at hle this
    omega
  · rw [slot_open hs hg hi, if_pos hp, add_of_lt (show s.ctxLen + i < 2 ^ 32 by omega), okOr_some, ok_bind,
      hslot]

theorem slot_unpaged (hs : m.seqs[k]? = some s) (hg : m.groups[gi]? = some g)
    (hp : g.spec.isPaged = false) (hi : i < s.tailLen) : m.slot (s.range k) gi i = .ok slotNone := by
  rw [slot_open hs hg hi, if_neg (by simp [hp])]
  rfl

/-- **No two tokens of open reservations share a slot.** -/
theorem slots_distinct (h : Inv H m) (hg : m.groups[gi]? = some g) (hp : g.spec.isPaged = true)
    {k' : SeqId} {s' : SeqState} {j slot : ℕ} (hs : m.seqs[k]? = some s) (hs' : m.seqs[k']? = some s')
    (hi : i < s.tailLen) (hj : j < s'.tailLen) (hslot : m.slot (s.range k) gi i = .ok slot)
    (hslot' : m.slot (s'.range k') gi j = .ok slot) : k = k' ∧ i = j := by
  obtain ⟨id, hid, -, heq⟩ := slot_eq h hs hg hp hi
  obtain ⟨id', hid', -, heq'⟩ := slot_eq h hs' hg hp hj
  have hval := Except.ok.inj (heq.symm.trans hslot)
  have hval' := Except.ok.inj (heq'.symm.trans hslot')
  obtain rfl : id = id' := by omega
  obtain ⟨-, p, hpool, -⟩ := h.shape.paged gi g hg hp
  have hown := (h.blocks gi p hpool).owned
  have hk : k = k' := by
    by_contra hne
    refine hown.one_holder k k' hne id ?_ ?_
    · rw [heldBlocks_of_some hs]
      exact SeqState.mem_table hid
    · rw [heldBlocks_of_some hs']
      exact SeqState.mem_table hid'
  subst hk
  obtain rfl := Option.some.inj (hs.symm.trans hs')
  have hnodup : (s.table gi).Nodup := by
    have := hown.held_nodup k
    rwa [heldBlocks_of_some hs] at this
  have := SeqState.entry_index hnodup hid hid'
  exact ⟨rfl, by omega⟩

/-! ### Filling a row -/

theorem fillCells_eq {r : SlotRange} {n : ℕ} {cells slots : List ℕ} (hlen : cells.length = slots.length)
    (hslots : ∀ (j : ℕ) (slot : ℕ), slots[j]? = some slot → n + j < 2 ^ 32 - r.start ∧
      flattenSlot s gi (r.start + (n + j)) r.stop = .ok slot) :
    fillCells s r gi n cells = (.ok (), slots) := by
  induction cells generalizing n slots with
  | nil =>
    obtain rfl := length_eq_zero_iff.mp hlen.symm
    rfl
  | cons cell cells ih =>
    cases slots with
    | nil => simp at hlen
    | cons slot slots =>
      obtain ⟨hlt, hslot⟩ := hslots 0 slot rfl
      rw [Nat.add_zero] at hlt hslot
      have hrest := ih (n := n + 1) (Nat.succ.inj hlen) fun j slot hj => by
        rw [Nat.add_assoc, Nat.add_comm 1]
        exact hslots (j + 1) slot hj
      simp only [fillCells, add_of_lt (show r.start + n < 2 ^ 32 by omega), okOr_some, ok_bind, hslot, hrest]

/-- **Filling a row** writes what the tokens resolve to, and leaves the rest of the row. -/
theorem fillSlots_eq (h : Inv H m) (hs : m.seqs[k]? = some s) (hg : m.groups[gi]? = some g)
    {out : List ℕ} (hout : s.tailLen ≤ out.length) : ∃ slots : List ℕ, slots.length = s.tailLen ∧
      m.fillSlots (s.range k) gi out = (.ok (), slots ++ out.drop s.tailLen) ∧
      ∀ i slot, slots[i]? = some slot → m.slot (s.range k) gi i = .ok slot := by
  have hseq : m.seqs[(s.range k).seq]? = some s := hs
  have hlive : checkRangeLive s (s.range k) = .ok () := ensure_of ⟨rfl, rfl⟩
  have hfill : m.fillSlots (s.range k) gi out =
      if g.spec.isPaged then
        ((fillCells s (s.range k) gi 0 (out.take s.tailLen)).1,
          (fillCells s (s.range k) gi 0 (out.take s.tailLen)).2 ++ out.drop s.tailLen)
      else (.ok (), List.replicate s.tailLen slotNone ++ out.drop s.tailLen) := by
    rw [StateManager.fillSlots, ensure_of (c := (s.range k).len ≤ out.length) hout, ok_bind, hg, okOr_some,
      ok_bind, hseq, okOr_some, ok_bind, hlive, ok_bind]
    rfl
  by_cases hp : g.spec.isPaged = true
  · -- the slots of the tokens, one after the other
    have hrow : ∀ i ∈ List.range s.tailLen, ∃ slot, m.slot (s.range k) gi i = .ok slot := by
      intro i hi
      obtain ⟨id, -, -, hslot⟩ := slot_eq h hs hg hp (List.mem_range.mp hi)
      exact ⟨_, hslot⟩
    obtain ⟨slots, hslots, hlen⟩ := exists_mapM_ok hrow
    rw [List.length_range] at hlen
    have hget : ∀ i slot, slots[i]? = some slot → m.slot (s.range k) gi i = .ok slot := by
      intro i slot hi
      have hlt : i < s.tailLen := hlen ▸ (List.getElem?_eq_some_iff.mp hi).1
      obtain ⟨b, hb, hget⟩ := getElem?_of_mapM hslots (List.getElem?_range hlt)
      rw [hb, ← Option.some.inj (hget.symm.trans hi)]
    have hstop := h.stop_lt hs
    have hcells : fillCells s (s.range k) gi 0 (out.take s.tailLen) = (.ok (), slots) := by
      refine fillCells_eq (by rw [List.length_take, hlen, min_eq_left hout]) fun j slot hj => ?_
      have hlt : j < s.tailLen := hlen ▸ (List.getElem?_eq_some_iff.mp hj).1
      have hslot := hget j slot hj
      rw [slot_open hs hg hlt, if_pos hp, add_of_lt (show s.ctxLen + j < 2 ^ 32 by omega), okOr_some,
        ok_bind] at hslot
      rw [Nat.zero_add]
      exact ⟨by simp only [SeqState.range]; omega, hslot⟩
    exact ⟨slots, hlen, by rw [hfill, if_pos hp, hcells], hget⟩
  · refine ⟨List.replicate s.tailLen slotNone, List.length_replicate, by rw [hfill, if_neg hp],
      fun i slot hi => ?_⟩
    obtain ⟨hlt, rfl⟩ := List.getElem?_eq_some_iff.mp hi
    rw [List.length_replicate] at hlt
    rw [List.getElem_replicate]
    exact slot_unpaged hs hg (by simpa using hp) hlt

end Slots

/-! ### Stale ranges -/

/-- A range resolves to something. -/
def Resolves (m : StateManager) (r : SlotRange) : Prop :=
  (∃ group i v, m.slot r group i = .ok v) ∨ ∃ group out, (m.fillSlots r group out).1 = .ok ()

/-- No open reservation is the range. -/
def Stale (m : StateManager) (r : SlotRange) : Prop :=
  ∀ s, m.seqs[r.seq]? = some s → ¬(s.ctxLen = r.start ∧ s.tailLen = r.len)

section Stale

variable {H : SeqId → ℕ} {m : StateManager} {r : SlotRange}

theorem Stale.not_resolves (h : Stale m r) : ¬Resolves m r := by
  rintro (⟨group, i, v, hv⟩ | ⟨group, out, hout⟩)
  · simp only [StateManager.slot, bind_eq_ok, okOr_eq_ok, checkRangeLive, ensure_eq_ok] at hv
    obtain ⟨g, -, -, -, s, hs, -, hlive, -⟩ := hv
    exact h s hs hlive
  · unfold StateManager.fillSlots at hout
    dsimp only at hout
    split at hout
    · exact absurd hout (by simp)
    · rename_i hchecks
      simp only [bind_eq_ok, okOr_eq_ok, checkRangeLive, ensure_eq_ok] at hchecks
      obtain ⟨-, -, g, -, s, hs, -, hlive, -⟩ := hchecks
      exact h s hs hlive

/-- **A call leaves a stale range stale**, unless it reserves the range again. -/
theorem Stale.exec (h : Stale m r) (hinv : Inv H m) (hid : r.seq < m.nextSeq) (hpos : 1 ≤ r.len) (c : Call) :
    Stale (c.exec m).2 r ∨ (c = .reserve r.seq r.len ∧ (m.reserve r.seq r.len).1 = .ok r) := by
  -- what a step makes of a sequence of the same id
  have hins : ∀ (k : SeqId) (s' : SeqState),
      (k = r.seq → ¬(s'.ctxLen = r.start ∧ s'.tailLen = r.len)) →
      ∀ t, (m.seqs.insert k s')[r.seq]? = some t → ¬(t.ctxLen = r.start ∧ t.tailLen = r.len) := by
    intro k s' hs' t ht
    rcases eq_or_ne k r.seq with rfl | hne
    · obtain rfl : s' = t := by simpa using ht
      exact hs' rfl
    · simp only [Std.ExtTreeMap.getElem?_insert, compare_eq_iff_eq, hne, if_false] at ht
      exact h t ht
  rcases c.exec_cases hinv with ⟨e, sc, he⟩ | ⟨m', he, hstep⟩
  · rw [he]
    exact Or.inl h
  rw [he]
  cases hstep with
  | newSeq => exact Or.inl (hins _ _ fun heq => absurd heq.symm (Nat.ne_of_lt hid))
  | @reserve k n s s' _ _ able done =>
    have hctx : s'.ctxLen = s.ctxLen := by rw [done.frame]
    have htail : s'.tailLen = n := by rw [done.frame]
    by_cases hsame : k = r.seq ∧ s.ctxLen = r.start ∧ n = r.len
    · obtain ⟨rfl, hstart, rfl⟩ := hsame
      obtain ⟨m₁, hok, -⟩ := reserve_ok hinv able
      exact Or.inr ⟨rfl, by rw [hok, hstart]⟩
    · refine Or.inl (hins _ _ fun heq hlive => hsame ⟨heq, ?_⟩)
      rwa [hctx, htail] at hlive
  | @writeTokens _ _ _ s _ able => exact Or.inl (hins _ _ fun heq => h s (heq ▸ able.1))
  | @compact _ _ s _ able => exact Or.inl (hins _ _ fun heq => h s (heq ▸ able.live))
  | commit able done =>
    refine Or.inl (hins _ _ fun _ hlive => ?_)
    rw [done.frame] at hlive
    exact absurd hlive.2 (by simp only; omega)
  | freeSeq =>
    refine Or.inl fun t ht => ?_
    rw [Std.ExtTreeMap.getElem?_erase] at ht
    split at ht
    · exact absurd ht (by simp)
    · exact h t ht

/-- **A stale range stays stale** along a run, until it is reserved again. -/
theorem Stale.run (h : Stale m r) (hinv : Inv H m) (hid : r.seq < m.nextSeq) (hpos : 1 ≤ r.len)
    (later : List Call) : Stale (m.run later) r ∨ ∃ pre, pre ++ [.reserve r.seq r.len] <+: later ∧
      ((m.run pre).reserve r.seq r.len).1 = .ok r := by
  induction later generalizing m H with
  | nil => exact Or.inl h
  | cons c later ih =>
    rcases h.exec hinv hid hpos c with h' | ⟨rfl, hok⟩
    · rcases ih h' (hinv.exec c) (hid.trans_le (hinv.exec_frame c).2.2) with hstale | ⟨pre, hpre, hok⟩
      · exact Or.inl hstale
      · exact Or.inr ⟨c :: pre, cons_prefix_cons.mpr ⟨rfl, hpre⟩, hok⟩
    · exact Or.inr ⟨[], cons_prefix_cons.mpr ⟨rfl, nil_prefix⟩, hok⟩

/-- A call that closes the reservation of a sequence, or ends the sequence. -/
def Call.Closes (c : Call) (k : SeqId) : Prop := c = .freeSeq k ∨ ∃ accepted, c = .commit k accepted

theorem stale_of_closes (hinv : Inv H m) (hpos : 1 ≤ r.len) {c : Call} (hc : c.Closes r.seq)
    (hok : (c.exec m).1 = .ok ()) : Stale (c.exec m).2 r := by
  rcases c.exec_cases hinv with ⟨e, sc, he⟩ | ⟨m', he, hstep⟩
  · rw [he] at hok
    exact absurd hok (by simp)
  rw [he]
  intro t ht
  rcases hc with rfl | ⟨accepted, rfl⟩
  · cases hstep
    exact absurd ht (by simp)
  · cases hstep with
    | @commit _ _ s s' _ _ able done =>
      obtain rfl : s' = t := by simpa using ht
      rw [done.frame]
      exact fun hlive => absurd hlive.2 (by simp only; omega)

theorem Inv.run_nextSeq (h : Inv H m) (calls : List Call) : m.nextSeq ≤ (m.run calls).nextSeq := by
  induction calls generalizing m H with
  | nil => exact le_rfl
  | cons c calls ih => exact (h.exec_frame c).2.2.trans (ih (h.exec c))

end Stale

/-! ### The law -/

/-- When a reservation is granted: the sequence is live and has none open, the range is within the
context, and every paged pool has a free block for every index that is not held yet. -/
def Granted (m : StateManager) (k : SeqId) (n : ℕ) : Prop :=
  ∃ s, m.seqs[k]? = some s ∧ 1 ≤ n ∧ n ≤ maxReserveHard ∧ s.tailLen = 0 ∧
    s.ctxLen + n ≤ m.config.maxCtx ∧
    ∀ (gi : ℕ) (g : LayerGroup) (p : BlockPool), m.groups[gi]? = some g → g.spec.isPaged = true →
      m.pools[gi]? = some (some p) →
      ((Finset.Ico (s.ctxLen / 32) ((s.ctxLen + n + 31) / 32)).filter (· ∉ s.held gi)).card ≤
        p.free.length

theorem card_missing {held : List ℕ} (h : held.Pairwise (· < ·)) (first last : ℕ) :
    ((Finset.Ico first last).filter (· ∉ held)).card = (missing held first last).length := by
  rw [← toFinset_card_of_nodup (nodup_missing held first last)]
  congr 1
  ext i
  simp [mem_missing h, and_assoc]

theorem granted_iff {H : SeqId → ℕ} {m : StateManager} (h : Inv H m) {k : SeqId} {n : ℕ} :
    Granted m k n ↔ ∃ s, Reservable m k n s := by
  constructor
  · rintro ⟨s, hs, hpos, -, htail, hle, hroom⟩
    refine ⟨s, hs, htail, hpos, hle, fun gi g p hg hp hpool => ?_⟩
    have := hroom gi g p hg hp hpool
    rwa [card_missing ((h.seqs k s hs).ascending gi)] at this
  · rintro ⟨s, hs, htail, hpos, hle, hroom⟩
    have hmax := h.shape.config.maxCtx_le
    refine ⟨s, hs, hpos, ?_, htail, hle, fun gi g p hg hp hpool => ?_⟩
    · simp only [maxCtxHard] at hmax
      simp only [maxReserveHard]
      omega
    · rw [card_missing ((h.seqs k s hs).ascending gi)]
      exact hroom gi g p hg hp hpool

/-- What the tokens of the open reservation of a sequence resolve to. -/
structure Resolved (m : StateManager) (k : SeqId) (s : SeqState) : Prop where
  paged : ∀ (gi : ℕ) (g : LayerGroup), m.groups[gi]? = some g → g.spec.isPaged = true →
    ∀ i < s.tailLen, ∃ id, (∀ id', ((s.ctxLen + i) / 32, id') ∈ s.entries gi ↔ id' = id) ∧
      m.slot (s.range k) gi i = .ok (id * 32 + (s.ctxLen + i) % 32) ∧
      id * 32 + (s.ctxLen + i) % 32 ≠ slotNone
  unpaged : ∀ (gi : ℕ) (g : LayerGroup), m.groups[gi]? = some g → g.spec.isPaged = false →
    ∀ i < s.tailLen, m.slot (s.range k) gi i = .ok slotNone
  filled : ∀ (gi : ℕ) (g : LayerGroup) (out : List ℕ), m.groups[gi]? = some g →
    s.tailLen ≤ out.length → ∃ slots : List ℕ, slots.length = s.tailLen ∧
      m.fillSlots (s.range k) gi out = (.ok (), slots ++ out.drop s.tailLen) ∧
      ∀ i slot, slots[i]? = some slot → m.slot (s.range k) gi i = .ok slot

theorem resolved {H : SeqId → ℕ} {m : StateManager} (h : Inv H m) {k : SeqId} {s : SeqState}
    (hs : m.seqs[k]? = some s) : Resolved m k s where
  paged gi g hg hp i hi := by
    obtain ⟨id, hid, hle, hslot⟩ := slot_eq h hs hg hp hi
    refine ⟨id, fun id' => ⟨fun hid' => (h.seqs k s hs).entry_unique hid' hid, ?_⟩, hslot, ?_⟩
    · rintro rfl
      exact hid
    · simp only [slotNone, u32Max]
      omega
  unpaged gi g hg hp i hi := slot_unpaged hs hg hp hi
  filled gi g out hg hout := fillSlots_eq h hs hg hout

/-- **Reservations and their slots.** In every reachable state, a reservation is granted exactly when
the sequence is live and has none open, the range is within the context and the pools have the blocks;
the range that it returns is then the open reservation of the sequence, every token of it resolves to
its lane in the block that is held for its index, and no two tokens of open reservations share a
slot; once the reservation is closed, the range resolves to nothing until it is reserved again. -/
theorem reservation_slots {m : StateManager} (h : m.Reachable) (k : SeqId) (n : ℕ) :
    ((∃ r, (m.reserve k n).1 = .ok r) ↔ Granted m k n) ∧
    (∀ r m', m.reserve k n = (.ok r, m') →
      (∃ s s', m.seqs[k]? = some s ∧ m'.seqs[k]? = some s' ∧ s'.ctxLen = s.ctxLen ∧ s'.tailLen = n ∧
        r = s'.range k ∧ Resolved m' k s') ∧
      ∀ (calls : List Call) (c : Call), c.Closes k → (c.exec (m'.run calls)).1 = .ok () →
        ∀ later, Resolves ((c.exec (m'.run calls)).2.run later) r →
          ∃ pre, pre ++ [.reserve k n] <+: later ∧
            (((c.exec (m'.run calls)).2.run pre).reserve k n).1 = .ok r) ∧
    ∀ (gi : ℕ) (g : LayerGroup), m.groups[gi]? = some g → g.spec.isPaged = true →
      ∀ (k k' : SeqId) (s s' : SeqState) (i j a b : ℕ), m.seqs[k]? = some s → m.seqs[k']? = some s' →
        i < s.tailLen → j < s'.tailLen → m.slot (s.range k) gi i = .ok a →
        m.slot (s'.range k') gi j = .ok b → (k, i) ≠ (k', j) → a ≠ b ∧ a ≠ slotNone ∧ b ≠ slotNone := by
  obtain ⟨H, hinv⟩ := h.exists_inv
  refine ⟨?_, fun r m' hok => ?_, ?_⟩
  · rw [granted_iff hinv]
    rcases reserve_cases hinv k n with ⟨hno, e, sc, he⟩ | ⟨s, pools', s', sc, hr, -, he⟩
    · rw [he]
      exact ⟨fun ⟨r, hr⟩ => absurd hr (by simp), fun ⟨s, hs⟩ => absurd hs (hno s)⟩
    · rw [he]
      exact ⟨fun _ => ⟨s, hr⟩, fun _ => ⟨_, rfl⟩⟩
  · rcases reserve_cases hinv k n with ⟨-, e, sc, he⟩ | ⟨s, pools', s', sc, hr, hs', he⟩
    · rw [he] at hok
      exact absurd hok (by simp)
    rw [he] at hok
    obtain ⟨rfl, rfl⟩ : (⟨k, s.ctxLen, n⟩ : SlotRange) = r ∧
        { m with pools := pools', seqs := m.seqs.insert k s', reserveScratch := sc } = m' := by
      simpa using hok
    have hinv' := hs'.inv hinv hr sc
    set m' : StateManager := { m with pools := pools', seqs := m.seqs.insert k s', reserveScratch := sc }
    have hlive : m'.seqs[k]? = some s' := Std.ExtTreeMap.getElem?_insert_self
    have hctx : s'.ctxLen = s.ctxLen := by rw [hs'.frame]
    have htail : s'.tailLen = n := by rw [hs'.frame]
    refine ⟨⟨s, s', hr.1, hlive, hctx, htail, by rw [SeqState.range, hctx, htail], resolved hinv' hlive⟩,
      fun calls c hc hcok later hres => ?_⟩
    have hrun := hinv'.run calls
    have hid : k < (m'.run calls).nextSeq := (hinv.ids_lt k s hr.1).trans_le (hinv'.run_nextSeq calls)
    rcases (stale_of_closes (r := ⟨k, s.ctxLen, n⟩) hrun hr.2.2.1 hc hcok).run (hrun.exec c)
      (hid.trans_le (hrun.exec_frame c).2.2) hr.2.2.1 later with hstale | hpre
    · exact absurd hres hstale.not_resolves
    · exact hpre
  · intro gi g hg hp k k' s s' i j a b hs hs' hi hj ha hb hne
    have hnone : ∀ {k : SeqId} {s : SeqState} {i a : ℕ}, m.seqs[k]? = some s → i < s.tailLen → m.slot (s.range k) gi i = .ok a →
        a ≠ slotNone := by
      intro k s i a hs hi ha
      obtain ⟨id, -, hslot, hno⟩ := (resolved hinv hs).paged gi g hg hp i hi
      rwa [← Except.ok.inj (hslot.symm.trans ha)]
    refine ⟨fun heq => hne ?_, hnone hs hi ha, hnone hs' hj hb⟩
    obtain ⟨rfl, rfl⟩ := slots_distinct hinv hg hp hs hs' hi hj ha (heq ▸ hb)
    rfl

/-- The pool of the small manager has blocks for a whole context, and the range of a commit is stale. -/
theorem reservation_slots_small : Granted (small.run [.newSeq []]) 0 40 ∧
    ¬Resolves (((small.run [.newSeq []]).reserve 0 40).2.run [.commit 0 33, .reserve 0 40])
      ⟨0, 0, 40⟩ := by
  obtain ⟨hgranted, hrange, -⟩ :=
    reservation_slots (m := small.run [.newSeq []]) ⟨small, _, small_built, rfl⟩ 0 40
  have hopen : (small.run [.newSeq []]).reserve 0 40 =
      (.ok ⟨0, 0, 40⟩, ((small.run [.newSeq []]).reserve 0 40).2) := Prod.ext rfl rfl
  have hclose : ((Call.commit 0 33).exec (((small.run [.newSeq []]).reserve 0 40).2.run [])).1 =
      .ok () := by rfl
  refine ⟨hgranted.mp ⟨⟨0, 0, 40⟩, rfl⟩, fun hres => ?_⟩
  obtain ⟨pre, hpre, hok⟩ := (hrange ⟨0, 0, 40⟩ _ hopen).2 [] (.commit 0 33) (Or.inr ⟨33, rfl⟩) hclose
    [.reserve 0 40] hres
  -- the range is reserved again at another start
  obtain rfl : pre = [] := by
    have := hpre.length_le
    simpa using this
  have hstart : (((Call.commit 0 33).exec (((small.run [.newSeq []]).reserve 0 40).2.run [])).2.reserve
      0 40).1 = .ok ⟨0, 33, 40⟩ := by rfl
  have := Except.ok.inj (hstart.symm.trans hok)
  exact absurd this (by decide)

end R9v

import R9v.State.Trade

/-!
# Starting and ending a sequence

A new sequence takes one slot of every fixed group and no block; a sequence that
ends gives its slots and blocks back. On a manager that satisfies the invariant
both either change nothing or are complete (`newSeq_cases`, `freeSeq_cases`): the
loop that takes the slots never has to give one back, and the loops that give
blocks and slots back meet nothing that is already free.
-/

namespace R9v

open Checked StateManager Ownership List
open scoped List

/-! ### Starting -/

section Take

variable {fixed : List (Option FixedPool)} {slots : List (Option ℕ)}

/-- **The loop that takes the slots runs to the end** when every fixed group has a
free one. -/
theorem takeSlots_eq (live cap : ℕ) {groups : List (LayerGroup × ℕ)} (hnodup : (groups.map (·.2)).Nodup)
    (hlen : ∀ x ∈ groups, x.2 < slots.length)
    (hfree : ∀ x ∈ groups, x.1.spec.isRecurrent = true →
      ∃ f id ids, fixed[x.2]? = some (some f) ∧ f.free = id :: ids) :
    ∃ slots' fixed',
      takeSlots live cap groups fixed slots = (.ok slots', fixed') ∧
      slots'.length = slots.length ∧ fixed'.length = fixed.length ∧
      (∀ gi, (∀ x ∈ groups, x.2 = gi → x.1.spec.isRecurrent = false) →
        fixed'[gi]? = fixed[gi]? ∧ slots'[gi]? = slots[gi]?) ∧
      ∀ x ∈ groups, x.1.spec.isRecurrent = true → ∀ f id ids, fixed[x.2]? = some (some f) →
        f.free = id :: ids →
          fixed'[x.2]? = some (some { f with free := ids }) ∧ slots'[x.2]? = some (some id) := by
  induction groups generalizing fixed slots with
  | nil => exact ⟨slots, fixed, rfl, rfl, rfl, fun _ _ => ⟨rfl, rfl⟩, by simp⟩
  | cons x groups ih =>
    obtain ⟨g, gi⟩ := x
    obtain ⟨hgi, hnodup⟩ := nodup_cons.mp hnodup
    have hother : ∀ x ∈ groups, x.2 ≠ gi := by
      rintro x hx rfl
      exact hgi (mem_map.mpr ⟨x, hx, rfl⟩)
    have hlen' := fun x hx => hlen x (mem_cons_of_mem _ hx)
    have hfree' := fun x hx => hfree x (mem_cons_of_mem _ hx)
    by_cases hrec : g.spec.isRecurrent = true
    · obtain ⟨f, id, ids, hf, hids⟩ := hfree (g, gi) mem_cons_self hrec
      have hlt : gi < fixed.length := (List.getElem?_eq_some_iff.mp hf).1
      have hlt' : gi < slots.length := hlen (g, gi) mem_cons_self
      have hremove : f.remove id = { f with free := ids } := by simp [FixedPool.remove, hids]
      have hfixed_ne : ∀ gj ≠ gi, (fixed.set gi (some { f with free := ids }))[gj]? = fixed[gj]? :=
        fun gj hne => getElem?_set_ne hne.symm
      have hslots_ne : ∀ gj ≠ gi, (slots.set gi (some id))[gj]? = slots[gj]? :=
        fun gj hne => getElem?_set_ne hne.symm
      have hlen₁ : ∀ x ∈ groups, x.2 < (slots.set gi (some id)).length := fun x hx => by
        rw [length_set]
        exact hlen' x hx
      have hfree₁ : ∀ x ∈ groups, x.1.spec.isRecurrent = true → ∃ f' id' ids',
          (fixed.set gi (some { f with free := ids }))[x.2]? = some (some f') ∧
            f'.free = id' :: ids' := fun x hx hxr => by
        rw [hfixed_ne _ (hother x hx)]
        exact hfree' x hx hxr
      obtain ⟨slots', fixed', hrun, hl₁, hl₂, hrest, hin⟩ := ih hnodup hlen₁ hfree₁
      refine ⟨slots', fixed', ?_, by simpa using hl₁, by simpa using hl₂, fun gj hgj => ?_,
        fun x hx hxr f' id' ids' hf' hids' => ?_⟩
      · simp only [takeSlots, hrec, if_true, hf, Option.join_some, hids, head?_cons, hremove]
        exact hrun
      · have hne : gj ≠ gi := by
          rintro rfl
          exact Bool.false_ne_true ((hgj (g, gj) mem_cons_self rfl).symm.trans hrec)
        obtain ⟨h₁, h₂⟩ := hrest gj fun x hx => hgj x (mem_cons_of_mem _ hx)
        exact ⟨h₁.trans (hfixed_ne gj hne), h₂.trans (hslots_ne gj hne)⟩
      · rcases mem_cons.mp hx with rfl | hx
        · obtain ⟨h₁, h₂⟩ := hrest gi fun x hx heq => absurd heq (hother x hx)
          obtain rfl : f = f' := by simpa [hf] using hf'
          obtain ⟨rfl, rfl⟩ : id = id' ∧ ids = ids' := by simpa [hids] using hids'
          exact ⟨by simp [h₁, hlt], by simp [h₂, hlt']⟩
        · exact hin x hx hxr f' id' ids' (by rw [hfixed_ne _ (hother x hx)]; exact hf') hids'
    · obtain ⟨slots', fixed', hrun, hl₁, hl₂, hrest, hin⟩ := ih hnodup hlen' hfree'
      refine ⟨slots', fixed', ?_, hl₁, hl₂, fun gj hgj => ?_, fun x hx hxr => ?_⟩
      · rw [← hrun]
        simp only [takeSlots, if_neg hrec]
      · exact hrest gj fun x hx => hgj x (mem_cons_of_mem _ hx)
      · rcases mem_cons.mp hx with rfl | hx
        · exact absurd hxr hrec
        · exact hin x hx hxr

end Take

/-- **What a new sequence takes**: nothing of the paged groups, and of every other
group the smallest free slot. -/
structure Started (m : StateManager) (slots : List (Option ℕ)) (fixed' : List (Option FixedPool)) :
    Prop where
  slots_length : slots.length = m.groups.length
  fixed_length : fixed'.length = m.fixed.length
  paged : ∀ (gi : ℕ) (g : LayerGroup), m.groups[gi]? = some g → g.spec.isPaged = true →
    fixed'[gi]? = m.fixed[gi]? ∧ slots[gi]? = some none
  unpaged : ∀ (gi : ℕ) (g : LayerGroup) (f : FixedPool), m.groups[gi]? = some g →
    g.spec.isPaged = false → m.fixed[gi]? = some (some f) →
      ∃ id ids, f.free = id :: ids ∧ fixed'[gi]? = some (some { f with free := ids }) ∧
        slots[gi]? = some (some id)

section Start

variable {H : SeqId → ℕ} {m : StateManager} {tokens : List ℕ}

theorem newSeqChecks_ne_panic : m.newSeqChecks tokens ≠ .error .panic := by
  have hslots : m.checkSlots ≠ .error .panic := by
    intro hcon
    obtain ⟨⟨g, gi⟩, -, hx⟩ := exists_of_forM_eq_error hcon
    simp only at hx
    split at hx <;> simp at hx
  simp [newSeqChecks, hslots, -bind_pure_comp]

theorem newSeqChecks_eq_ok {r : ℕ × ℕ} (h : m.newSeqChecks tokens = .ok r) :
    r = (m.liveCount + 1, m.nextSeq + 1) ∧ tokens.length ≤ m.config.maxCtx ∧
      m.liveCount < m.config.maxSeqs ∧ m.nextSeq ≤ u32Max ∧ m.checkSlots = .ok () := by
  simp only [newSeqChecks, bind_eq_ok, okOr_eq_ok, ensure_eq_ok, narrow_eq_some, add_eq_some,
    pure_eq_ok] at h
  obtain ⟨_, -, _, h₁, _, ⟨-, rfl⟩, _, h₂, _, ⟨-, rfl⟩, _, h₃, _, h₄, rfl⟩ := h
  exact ⟨rfl, h₁, h₃, h₂, h₄⟩

/-- **The specification of `newSeq`**: it fails and nothing changes, or it starts a
sequence under the next id. -/
theorem newSeq_cases (m : StateManager) (tokens : List ℕ) :
    (∃ e, m.newSeq tokens = (.error (.err e), m)) ∨
    ∃ slots fixed', Started m slots fixed' ∧ tokens.length ≤ m.config.maxCtx ∧
      m.liveCount < m.config.maxSeqs ∧ m.nextSeq ≤ u32Max ∧
      m.newSeq tokens = (.ok (m.nextSeq, 0),
        { m with
          fixed := fixed'
          seqs := m.seqs.insert m.nextSeq (SeqState.fresh m.groups slots)
          nextSeq := m.nextSeq + 1
          liveCount := m.liveCount + 1 }) := by
  rcases hch : m.newSeqChecks tokens with e | r
  · obtain ⟨e', rfl⟩ := exists_err hch newSeqChecks_ne_panic
    exact Or.inl ⟨e', by simp only [newSeq, hch]⟩
  obtain ⟨rfl, hlen, hlive, hid, hcheck⟩ := newSeqChecks_eq_ok hch
  have hfree : ∀ x ∈ m.groups.zipIdx, x.1.spec.isRecurrent = true →
      ∃ f id ids, m.fixed[x.2]? = some (some f) ∧ f.free = id :: ids := by
    rintro ⟨g, gi⟩ hx hrec
    have := forM_eq_ok.mp hcheck (g, gi) hx
    simp only [hrec, if_true, bind_eq_ok, okOr_eq_ok, ensure_eq_ok] at this
    obtain ⟨f, hf, hne⟩ := this
    obtain ⟨id, ids, hids⟩ := exists_cons_of_ne_nil hne
    exact ⟨f, id, ids, Option.join_eq_some_iff.mp hf, hids⟩
  have hnodup : (m.groups.zipIdx.map (·.2)).Nodup := by
    rw [zipIdx_map_snd]
    exact nodup_range'
  have hroom : ∀ x ∈ m.groups.zipIdx, x.2 < (m.groups.map fun _ => (none : Option ℕ)).length := by
    intro x hx
    have := (List.getElem?_eq_some_iff.mp (List.mem_zipIdx_iff_getElem?.mp hx)).1
    simpa using this
  obtain ⟨slots', fixed', hrun, hl₁, hl₂, hrest, hin⟩ :=
    takeSlots_eq m.liveCount m.config.maxSeqs hnodup hroom hfree
  refine Or.inr ⟨slots', fixed', ⟨by simpa using hl₁, hl₂, fun gi g hg hp => ?_,
    fun gi g f hg hp hf => ?_⟩, hlen, hlive, hid, by simp only [newSeq, hch, hrun]⟩
  · obtain ⟨h₁, h₂⟩ := hrest gi fun x hx heq => by
      have hx := mem_zipIdx_iff_getElem?.mp hx
      rw [heq, hg] at hx
      simpa [← Option.some.inj hx] using hp
    exact ⟨h₁, by rw [h₂, getElem?_map, hg]; rfl⟩
  · have hmem : (g, gi) ∈ m.groups.zipIdx := mem_zipIdx_iff_getElem?.mpr hg
    have hrec : g.spec.isRecurrent = true := by simpa using hp
    obtain ⟨f', id, ids, hf', hids⟩ := hfree (g, gi) hmem hrec
    obtain rfl : f = f' := by simpa [hf] using hf'
    exact ⟨id, ids, hids, hin (g, gi) hmem hrec f id ids hf hids⟩

@[simp] theorem SeqState.table_fresh (groups : List LayerGroup) (slots : List (Option ℕ)) (gi : ℕ) :
    (SeqState.fresh groups slots).table gi = [] := by
  simp only [SeqState.table, SeqState.fresh, getElem?_map]
  cases groups[gi]? <;> rfl

@[simp] theorem SeqState.held_fresh (groups : List LayerGroup) (slots : List (Option ℕ)) (gi : ℕ) :
    (SeqState.fresh groups slots).held gi = [] := by
  simp only [SeqState.held, SeqState.fresh, getElem?_map]
  cases groups[gi]? <;> rfl

theorem Started.seqInv {slots : List (Option ℕ)} {fixed' : List (Option FixedPool)}
    (hst : Started m slots fixed') (h : Inv H m) :
    SeqInv m.groups m.config.maxCtx 0 (SeqState.fresh m.groups slots) where
  tables_length := by simp [SeqState.fresh]
  indices_length := by simp [SeqState.fresh]
  slots_length := hst.slots_length
  parity_length := by simp [SeqState.fresh]
  unpaged := by
    intro gi g hg hp
    obtain ⟨-, f, hf, -⟩ := h.shape.unpaged gi g hg hp
    obtain ⟨id, ids, -, -, hid⟩ := hst.unpaged gi g f hg hp hf
    exact ⟨SeqState.table_fresh .., SeqState.held_fresh .., id, by
      simp [SeqState.slot, SeqState.fresh, hid]⟩
  paged := by
    intro gi g hg hp
    simp [SeqState.slot, SeqState.fresh, (hst.paged gi g hg hp).2]
  aligned := fun gi => by simp
  ascending := fun gi => by simp
  tail_le := le_of_eq rfl
  high_le := Nat.zero_le _
  retained := by simp

/-- **Starting a sequence keeps the invariant.** -/
theorem Started.inv {slots : List (Option ℕ)} {fixed' : List (Option FixedPool)}
    (hst : Started m slots fixed') (h : Inv H m) (hlive : m.liveCount < m.config.maxSeqs)
    (hid : m.nextSeq ≤ u32Max) :
    Inv H { m with
      fixed := fixed'
      seqs := m.seqs.insert m.nextSeq (SeqState.fresh m.groups slots)
      nextSeq := m.nextSeq + 1
      liveCount := m.liveCount + 1 } := by
  have hnew : m.seqs[m.nextSeq]? = none := by
    rcases hs : m.seqs[m.nextSeq]? with _ | s
    · rfl
    · exact absurd (h.ids_lt _ s hs) (Nat.lt_irrefl _)
  refine
    { shape :=
        { h.shape with
          fixed_length := hst.fixed_length.trans h.shape.fixed_length
          paged := ?_
          unpaged := ?_ }
      seqs := ?_
      blocks := ?_
      slots := ?_
      live := ?_
      live_le := hlive
      ids_lt := ?_
      ids_le := by simp only [u32Max] at hid ⊢; omega
      unborn := fun k hk => h.unborn k (by simp only at hk; omega) }
  · intro gi g hg hp
    obtain ⟨hf, hpool⟩ := h.shape.paged gi g hg hp
    exact ⟨(hst.paged gi g hg hp).1.trans hf, hpool⟩
  · intro gi g hg hp
    obtain ⟨hpool, f, hf, htotal⟩ := h.shape.unpaged gi g hg hp
    obtain ⟨id, ids, -, hf', -⟩ := hst.unpaged gi g f hg hp hf
    exact ⟨hpool, _, hf', htotal⟩
  · intro k s hs
    rcases eq_or_ne k m.nextSeq with rfl | hne
    · simp only [Std.ExtTreeMap.getElem?_insert_self, Option.some.injEq] at hs
      rw [← hs, h.unborn m.nextSeq le_rfl]
      exact hst.seqInv h
    · simp only [Std.ExtTreeMap.getElem?_insert, compare_eq_iff_eq, hne.symm, if_false] at hs
      exact h.seqs k s hs
  · intro gi p hp
    obtain ⟨hdesc, hown⟩ := h.blocks gi p hp
    refine ⟨hdesc, ?_⟩
    rw [heldBlocks_insert, SeqState.table_fresh,
      show ([] : List ℕ) = heldBlocks m.seqs gi m.nextSeq by simp [heldBlocks, hnew],
      Function.update_eq_self]
    exact hown
  · intro gi f' hf'
    have hlt : gi < m.groups.length := by
      rw [← h.shape.fixed_length, ← hst.fixed_length]
      exact (List.getElem?_eq_some_iff.mp hf').1
    have hg := getElem?_eq_getElem hlt
    by_cases hp : m.groups[gi].spec.isPaged = true
    · have := (hst.paged gi _ hg hp).1.trans (h.shape.paged gi _ hg hp).1
      simp [this] at hf'
    · obtain ⟨-, f, hf, -⟩ := h.shape.unpaged gi _ hg (by simpa using hp)
      obtain ⟨id, ids, hids, hf'', hslot⟩ := hst.unpaged gi _ f hg (by simpa using hp) hf
      obtain rfl : { f with free := ids } = f' := by simpa [hf''] using hf'
      obtain ⟨hasc, hown⟩ := h.slots gi f hf
      rw [hids] at hasc hown
      refine ⟨(pairwise_cons.mp hasc).2, ?_⟩
      rw [heldSlots_insert]
      refine hown.exchange ?_
      have hempty : heldSlots m.seqs gi m.nextSeq = [] := by simp [heldSlots, hnew]
      have hone : (SeqState.fresh m.groups slots).slot gi = some id := by
        simp [SeqState.slot, SeqState.fresh, hslot]
      rw [hempty, hone, append_nil]
      exact perm_append_singleton id ids
  · have hmem : m.seqs.contains m.nextSeq = false := by
      rw [Std.ExtTreeMap.contains_eq_isSome_getElem?, hnew]
      rfl
    rw [Std.ExtTreeMap.size_insert, hmem, h.live]
    rfl
  · intro k s hs
    rcases eq_or_ne k m.nextSeq with rfl | hne
    · exact Nat.lt_succ_self _
    · simp only [Std.ExtTreeMap.getElem?_insert, compare_eq_iff_eq, hne.symm, if_false] at hs
      exact Nat.lt_succ_of_lt (h.ids_lt k s hs)

end Start

/-! ### Ending -/

/-- **The loop that gives the tables back runs to the end.** -/
theorem releaseTables_eq {tables : List (List ℕ × ℕ)} {pools : List (Option BlockPool)}
    (hnodup : (tables.map (·.2)).Nodup)
    (hcell : ∀ x ∈ tables, x.1 ≠ [] → ∃ p, pools[x.2]? = some (some p) ∧
      p.free.Pairwise (· > ·) ∧ (p.free ++ x.1).Nodup ∧ ∀ id ∈ x.1, id < p.total) :
    ∃ pools', releaseTables tables pools = (.ok (), pools') ∧ pools'.length = pools.length ∧
      (∀ gi, (∀ x ∈ tables, x.2 = gi → x.1 = []) → pools'[gi]? = pools[gi]?) ∧
      ∀ x ∈ tables, x.1 ≠ [] → ∀ p, pools[x.2]? = some (some p) →
        ∃ p', pools'[x.2]? = some (some p') ∧ p' = { p with free := p'.free } ∧
          p'.free.Pairwise (· > ·) ∧ p'.free.Perm (p.free ++ x.1) := by
  induction tables generalizing pools with
  | nil => exact ⟨pools, rfl, rfl, fun _ _ => rfl, by simp⟩
  | cons x tables ih =>
    obtain ⟨ids, gi⟩ := x
    obtain ⟨hgi, hnodup⟩ := nodup_cons.mp hnodup
    have hother : ∀ x ∈ tables, x.2 ≠ gi := by
      rintro x hx rfl
      exact hgi (mem_map.mpr ⟨x, hx, rfl⟩)
    have hcell' := fun x hx => hcell x (mem_cons_of_mem _ hx)
    by_cases hids : ids = []
    · obtain ⟨pools', hrun, hl, hrest, hin⟩ := ih hnodup hcell'
      refine ⟨pools', ?_, hl, fun gj hgj => ?_, fun x hx hne => ?_⟩
      · simp only [releaseTables, if_pos hids, hrun]
      · exact hrest gj fun x hx => hgj x (mem_cons_of_mem _ hx)
      · rcases mem_cons.mp hx with rfl | hx
        · exact absurd hids hne
        · exact hin x hx hne
    · obtain ⟨p, hp, hdesc, hnd, hlt⟩ := hcell (ids, gi) mem_cons_self hids
      obtain ⟨p', hrel, hp', hdesc', hperm⟩ := Cell.releaseAll_trade hdesc hnd hlt
      have hpool_ne : ∀ gj ≠ gi, (pools.set gi (some p'))[gj]? = pools[gj]? :=
        fun gj hne => getElem?_set_ne hne.symm
      have hcell₁ : ∀ x ∈ tables, x.1 ≠ [] → ∃ q, (pools.set gi (some p'))[x.2]? = some (some q) ∧
          q.free.Pairwise (· > ·) ∧ (q.free ++ x.1).Nodup ∧ ∀ id ∈ x.1, id < q.total :=
        fun x hx hne => by
          rw [hpool_ne _ (hother x hx)]
          exact hcell' x hx hne
      obtain ⟨pools', hrun, hl, hrest, hin⟩ := ih hnodup hcell₁
      refine ⟨pools', ?_, by simpa using hl, fun gj hgj => ?_, fun x hx hne q hq => ?_⟩
      · simp only [releaseTables, if_neg hids, hp, Option.join_some, hrel, hrun]
      · have hne : gj ≠ gi := by
          rintro rfl
          exact hids (hgj (ids, gj) mem_cons_self rfl)
        exact (hrest gj fun x hx => hgj x (mem_cons_of_mem _ hx)).trans (hpool_ne gj hne)
      · rcases mem_cons.mp hx with rfl | hx
        · obtain rfl : p = q := by simpa [hp] using hq
          have hset := hrest gi fun x hx heq => absurd heq (hother x hx)
          have hlt' : gi < pools.length := (List.getElem?_eq_some_iff.mp hp).1
          exact ⟨p', by simp [hset, hlt'], hp', hdesc', hperm⟩
        · exact hin x hx hne q (by rw [hpool_ne _ (hother x hx)]; exact hq)

/-- **The loop that gives the slots back runs to the end.** -/
theorem releaseSlots_eq {slots : List (Option ℕ × ℕ)} {fixed : List (Option FixedPool)}
    (hnodup : (slots.map (·.2)).Nodup)
    (hpool : ∀ x ∈ slots, x.1 ≠ none → ∃ f, fixed[x.2]? = some (some f)) :
    ∃ fixed', releaseSlots slots fixed = (.ok (), fixed') ∧ fixed'.length = fixed.length ∧
      (∀ gi, (∀ x ∈ slots, x.2 = gi → x.1 = none) → fixed'[gi]? = fixed[gi]?) ∧
      ∀ x ∈ slots, ∀ id f, x.1 = some id → fixed[x.2]? = some (some f) →
        fixed'[x.2]? = some (some (f.insert id)) := by
  induction slots generalizing fixed with
  | nil => exact ⟨fixed, rfl, rfl, fun _ _ => rfl, by simp⟩
  | cons x slots ih =>
    obtain ⟨slot, gi⟩ := x
    obtain ⟨hgi, hrestnd⟩ := nodup_cons.mp hnodup
    have hother : ∀ x ∈ slots, x.2 ≠ gi := by
      rintro x hx rfl
      exact hgi (mem_map.mpr ⟨x, hx, rfl⟩)
    have hpool' := fun x hx => hpool x (mem_cons_of_mem _ hx)
    cases slot with
    | none =>
      obtain ⟨fixed', hrun, hl, hrest, hin⟩ := ih hrestnd hpool'
      refine ⟨fixed', hrun, hl, fun gj hgj => ?_, fun x hx id f hid hf => ?_⟩
      · exact hrest gj fun x hx => hgj x (mem_cons_of_mem _ hx)
      · rcases mem_cons.mp hx with rfl | hx
        · simp at hid
        · exact hin x hx id f hid hf
    | some sid =>
      obtain ⟨f, hf⟩ := hpool (some sid, gi) mem_cons_self (by simp)
      have hfixed_ne : ∀ gj ≠ gi, (fixed.set gi (some (f.insert sid)))[gj]? = fixed[gj]? :=
        fun gj hne => getElem?_set_ne hne.symm
      have hpool₁ : ∀ x ∈ slots, x.1 ≠ none →
          ∃ q, (fixed.set gi (some (f.insert sid)))[x.2]? = some (some q) := fun x hx hne => by
        rw [hfixed_ne _ (hother x hx)]
        exact hpool' x hx hne
      obtain ⟨fixed', hrun, hl, hrest, hin⟩ := ih hrestnd hpool₁
      refine ⟨fixed', ?_, by simpa using hl, fun gj hgj => ?_, fun x hx id q hid hq => ?_⟩
      · simp only [releaseSlots, hf, Option.join_some, hrun]
      · have hne : gj ≠ gi := by
          rintro rfl
          simpa using hgj (some sid, gj) mem_cons_self rfl
        exact (hrest gj fun x hx => hgj x (mem_cons_of_mem _ hx)).trans (hfixed_ne gj hne)
      · rcases mem_cons.mp hx with rfl | hx
        · obtain rfl : f = q := by simpa [hf] using hq
          obtain rfl : sid = id := by simpa using hid
          have hset := hrest gi fun x hx heq => absurd heq (hother x hx)
          have hlt : gi < fixed.length := (List.getElem?_eq_some_iff.mp hf).1
          simp [hset, hlt]
        · exact hin x hx id q hid (by rw [hfixed_ne _ (hother x hx)]; exact hq)

/-- **What the end of a sequence gives back**: its blocks and its slots, all of
them. -/
structure Ended (m : StateManager) (s : SeqState) (pools' : List (Option BlockPool))
    (fixed' : List (Option FixedPool)) : Prop where
  pools_length : pools'.length = m.pools.length
  fixed_length : fixed'.length = m.fixed.length
  unpaged : ∀ gi : ℕ, m.pools[gi]? = some none → pools'[gi]? = some none
  paged : ∀ (gi : ℕ) (p : BlockPool), m.pools[gi]? = some (some p) →
    ∃ p', pools'[gi]? = some (some p') ∧ p' = { p with free := p'.free } ∧
      p'.free.Pairwise (· > ·) ∧ p'.free.Perm (p.free ++ s.table gi)
  unfixed : ∀ gi : ℕ, m.fixed[gi]? = some none → fixed'[gi]? = some none
  fixed : ∀ (gi : ℕ) (f : FixedPool), m.fixed[gi]? = some (some f) →
    ∃ f', fixed'[gi]? = some (some f') ∧ f' = { f with free := f'.free } ∧
      f'.free.Pairwise (· < ·) ∧ f'.free.Perm (f.free ++ (s.slot gi).toList)

section End

variable {H : SeqId → ℕ} {m : StateManager} {k : SeqId} {s : SeqState}

/-- The table of a live sequence in a group without blocks is empty. -/
theorem Inv.exists_pool (h : Inv H m) (hs : m.seqs[k]? = some s) {gi : ℕ}
    (hne : s.table gi ≠ []) : ∃ p, m.pools[gi]? = some (some p) := by
  have hinv := h.seqs k s hs
  have hlt : gi < m.groups.length := by
    rw [← hinv.tables_length]
    by_contra hge
    exact hne (by simp [SeqState.table, Nat.not_lt.mp hge])
  have hg := getElem?_eq_getElem hlt
  by_cases hp : m.groups[gi].spec.isPaged = true
  · obtain ⟨-, p, hpool, -⟩ := h.shape.paged gi _ hg hp
    exact ⟨p, hpool⟩
  · exact absurd (hinv.unpaged gi _ hg (by simpa using hp)).1 hne

theorem Inv.exists_fixed (h : Inv H m) (hs : m.seqs[k]? = some s) {gi id : ℕ}
    (hid : s.slot gi = some id) :
    ∃ f, m.fixed[gi]? = some (some f) ∧ id < f.totalSlots ∧ id ∉ f.free := by
  have hinv := h.seqs k s hs
  have hlt : gi < m.groups.length := by
    rw [← hinv.slots_length]
    by_contra hge
    simp [SeqState.slot, Nat.not_lt.mp hge] at hid
  have hg := getElem?_eq_getElem hlt
  by_cases hp : m.groups[gi].spec.isPaged = true
  · simp [hinv.paged gi _ hg hp] at hid
  · obtain ⟨-, f, hf, -⟩ := h.shape.unpaged gi _ hg (by simpa using hp)
    have hown := (h.slots gi f hf).owned
    have hmem : id ∈ heldSlots m.seqs gi k := by
      rw [heldSlots_of_some hs, hid]
      exact mem_singleton_self id
    exact ⟨f, hf, hown.of_mem_held hmem, hown.held_not_free k id hmem⟩

theorem Inv.live_pos (h : Inv H m) (hs : m.seqs[k]? = some s) : 1 ≤ m.liveCount := by
  rw [h.live]
  by_contra hlt
  have hempty : m.seqs.isEmpty = true := by
    rw [Std.ExtTreeMap.isEmpty_eq_size_beq_zero]
    simpa using Nat.lt_one_iff.mp (Nat.not_le.mp hlt)
  rw [Std.ExtTreeMap.isEmpty_iff.mp hempty] at hs
  simp at hs

theorem checkTables_eq_ok (h : Inv H m) (hs : m.seqs[k]? = some s) : m.checkTables s = .ok () := by
  refine forM_eq_ok.mpr ?_
  rintro ⟨ids, gi⟩ hx
  have hids := List.mem_zipIdx_iff_getElem?.mp hx
  have htable : s.table gi = ids := by simp [SeqState.table, hids]
  simp only
  split
  · rfl
  rename_i hne
  obtain ⟨p, hp⟩ := h.exists_pool hs (htable ▸ hne)
  have hok := h.cell_ok hs hp
  obtain ⟨-, hnd, hdis⟩ := List.nodup_append.mp hok.nodup
  simp only [htable] at hnd hdis
  simp only [hp, Option.join_some, okOr_some, ok_bind]
  refine forM_eq_ok.mpr ?_
  rintro ⟨id, i⟩ hid
  have hget := List.mem_zipIdx_iff_getElem?.mp hid
  have hmem : id ∈ ids := List.mem_of_getElem? hget
  have hlt : id < p.total := hok.lt_total id (List.mem_append_right _ (htable ▸ hmem))
  have hfree : id ∉ p.free := fun hin => hdis id hin id hmem rfl
  have hfirst : id ∉ ids.take i := fun hin => by
    obtain ⟨j, hj, hjd⟩ := List.mem_iff_getElem.mp hin
    have hji : j < i := by
      rw [List.length_take] at hj
      omega
    rw [List.getElem_take] at hjd
    obtain ⟨hi, hget⟩ := List.getElem?_eq_some_iff.mp hget
    have := (List.Nodup.getElem_inj_iff hnd).mp (hjd.trans hget.symm)
    omega
  simp only [bind_eq_ok, ensure_eq_ok]
  exact ⟨(), hlt, (), by simp [BlockPool.contains, hfree], hfirst⟩

theorem checkFixedSlots_eq_ok (h : Inv H m) (hs : m.seqs[k]? = some s) :
    m.checkFixedSlots s = .ok () := by
  refine forM_eq_ok.mpr ?_
  rintro ⟨slot, gi⟩ hx
  have hslot := mem_zipIdx_iff_getElem?.mp hx
  cases slot with
  | none => rfl
  | some id =>
    have hid : s.slot gi = some id := by
      simp [SeqState.slot, hslot]
    obtain ⟨f, hf, hlt, hfree⟩ := h.exists_fixed hs hid
    simp only [hf, Option.join_some, okOr_some, ok_bind, bind_eq_ok, ensure_eq_ok]
    exact ⟨(), hlt, hfree⟩

/-- **The specification of `freeSeq`**: it refuses a sequence that is not live, and
then nothing changes; a live one it ends. -/
theorem freeSeq_cases (h : Inv H m) (k : SeqId) :
    (m.seqs[k]? = none ∧ m.freeSeq k = (.error (.err (.unknownSeq k)), m)) ∨
    ∃ s pools' fixed', m.seqs[k]? = some s ∧ Ended m s pools' fixed' ∧
      m.freeSeq k = (.ok (),
        { m with
          seqs := m.seqs.erase k
          pools := pools'
          fixed := fixed'
          liveCount := m.liveCount - 1 }) := by
  rcases hs : m.seqs[k]? with _ | s
  · exact Or.inl ⟨rfl, by simp [freeSeq, freeChecks, StateManager.seq, hs]⟩
  refine Or.inr ?_
  have hcheck : m.freeChecks k = .ok (s, m.liveCount - 1) := by
    have hseq : m.seq k = .ok s := by simp [StateManager.seq, hs]
    rw [freeChecks, hseq, lift_ok, ok_bind, sub_of_le (h.live_pos hs), okOr_some, ok_bind,
      checkTables_eq_ok h hs, ok_bind, checkFixedSlots_eq_ok h hs, ok_bind]
    rfl
  have hnodup : ∀ {α : Type} (l : List α), (l.zipIdx.map (·.2)).Nodup := fun l => by
    rw [zipIdx_map_snd]
    exact nodup_range'
  have htable : ∀ x ∈ s.tables.zipIdx, s.table x.2 = x.1 := fun x hx => by
    simp [SeqState.table, mem_zipIdx_iff_getElem?.mp hx]
  have hslot : ∀ x ∈ s.fixedSlots.zipIdx, s.slot x.2 = x.1 := fun x hx => by
    simp [SeqState.slot, mem_zipIdx_iff_getElem?.mp hx]
  obtain ⟨pools', hpools, hl₁, hrest₁, hin₁⟩ := releaseTables_eq (hnodup s.tables) <| by
    intro x hx hne
    obtain ⟨p, hp⟩ := h.exists_pool hs ((htable x hx).symm ▸ hne)
    have hok := h.cell_ok hs hp
    simp only [htable x hx] at hok
    exact ⟨p, hp, hok.descending, hok.nodup,
      fun id hid => hok.lt_total id (mem_append_right _ hid)⟩
  obtain ⟨fixed', hfixed, hl₂, hrest₂, hin₂⟩ := releaseSlots_eq (hnodup s.fixedSlots) <| by
    intro x hx hne
    obtain ⟨id, hid⟩ := Option.ne_none_iff_exists'.mp hne
    obtain ⟨f, hf, -⟩ := h.exists_fixed hs ((hslot x hx).trans hid)
    exact ⟨f, hf⟩
  refine ⟨s, pools', fixed', rfl, ⟨hl₁, hl₂, fun gi hp => ?_, fun gi p hp => ?_, fun gi hf => ?_,
    fun gi f hf => ?_⟩, by simp only [freeSeq, hcheck, hpools, hfixed]⟩
  · rw [hrest₁ gi, hp]
    rintro x hx rfl
    by_contra hne
    obtain ⟨p, hp'⟩ := h.exists_pool hs ((htable x hx).symm ▸ hne)
    simp [hp] at hp'
  · by_cases hne : s.table gi = []
    · refine ⟨p, ?_, rfl, (h.blocks gi p hp).descending, by rw [hne, append_nil]⟩
      rw [hrest₁ gi, hp]
      rintro x hx rfl
      rw [← htable x hx, hne]
    · have hlt : gi < s.tables.length := by
        by_contra hge
        exact hne (by simp [SeqState.table, Nat.not_lt.mp hge])
      exact hin₁ (s.table gi, gi)
        (mem_zipIdx_iff_getElem?.mpr (SeqState.getElem?_tables hlt)) hne p hp
  · rw [hrest₂ gi, hf]
    rintro x hx rfl
    by_contra hne
    obtain ⟨id, hid⟩ := Option.ne_none_iff_exists'.mp hne
    obtain ⟨f, hf', -⟩ := h.exists_fixed hs ((hslot x hx).trans hid)
    simp [hf] at hf'
  · have hasc := (h.slots gi f hf).ascending
    rcases hid : s.slot gi with _ | id
    · refine ⟨f, ?_, rfl, hasc, by simp⟩
      rw [hrest₂ gi, hf]
      rintro x hx rfl
      rw [← hslot x hx, hid]
    · obtain ⟨f', hf', -, hfree⟩ := h.exists_fixed hs hid
      obtain rfl : f = f' := by simpa [hf] using hf'
      have hget : s.fixedSlots[gi]? = some (some id) := Option.join_eq_some_iff.mp hid
      have := hin₂ (some id, gi) (mem_zipIdx_iff_getElem?.mpr hget) id f rfl hf
      have hins : f.insert id = { f with free := f.free.orderedInsert (· ≤ ·) id } := by
        simp [FixedPool.insert, hfree]
      rw [hins] at this
      refine ⟨_, this, rfl, ?_, ?_⟩
      · have hsorted : (f.free.orderedInsert (· ≤ ·) id).Pairwise (· ≤ ·) :=
          List.Pairwise.orderedInsert id _ (hasc.imp le_of_lt)
        have hnd : (f.free.orderedInsert (· ≤ ·) id).Nodup :=
          (perm_orderedInsert _ id f.free).nodup_iff.mpr
            (nodup_cons.mpr ⟨hfree, hasc.imp ne_of_lt⟩)
        exact (hsorted.and hnd).imp fun hab => lt_of_le_of_ne hab.1 hab.2
      · exact (perm_orderedInsert _ id f.free).trans
          (perm_append_singleton id f.free).symm

/-- **Ending a sequence keeps the invariant.** -/
theorem Ended.inv (h : Inv H m) (hs : m.seqs[k]? = some s) {pools' : List (Option BlockPool)}
    {fixed' : List (Option FixedPool)} (he : Ended m s pools' fixed') :
    Inv H { m with
      seqs := m.seqs.erase k
      pools := pools'
      fixed := fixed'
      liveCount := m.liveCount - 1 } := by
  have hget : ∀ k' t, (m.seqs.erase k)[k']? = some t → m.seqs[k']? = some t := fun k' t ht => by
    rw [Std.ExtTreeMap.getElem?_erase] at ht
    split at ht
    · simp at ht
    · exact ht
  refine
    { shape :=
        { h.shape with
          pools_length := he.pools_length.trans h.shape.pools_length
          fixed_length := he.fixed_length.trans h.shape.fixed_length
          paged := ?_
          unpaged := ?_ }
      seqs := fun k' t ht => h.seqs k' t (hget k' t ht)
      blocks := ?_
      slots := ?_
      live := ?_
      live_le := (Nat.sub_le _ _).trans h.live_le
      ids_lt := fun k' t ht => h.ids_lt k' t (hget k' t ht)
      ids_le := h.ids_le
      unborn := h.unborn }
  · intro gi g hg hp
    obtain ⟨hf, p, hpool, hle⟩ := h.shape.paged gi g hg hp
    obtain ⟨p', hp', heq, -⟩ := he.paged gi p hpool
    refine ⟨he.unfixed gi hf, p', hp', ?_⟩
    rw [heq]
    exact hle
  · intro gi g hg hp
    obtain ⟨hpool, f, hf, htotal⟩ := h.shape.unpaged gi g hg hp
    obtain ⟨f', hf', heq, -⟩ := he.fixed gi f hf
    refine ⟨he.unpaged gi hpool, f', hf', ?_⟩
    rw [heq]
    exact htotal
  · intro gi p' hp'
    have hlt : gi < m.pools.length := by
      rw [← he.pools_length]
      exact (List.getElem?_eq_some_iff.mp hp').1
    rcases hpool : m.pools[gi]? with _ | _ | p
    · simp at hpool
      omega
    · simp only [he.unpaged gi hpool] at hp'
      simp at hp'
    · obtain ⟨p'', hp'', heq, hdesc, hperm⟩ := he.paged gi p hpool
      obtain rfl : p'' = p' := by simpa [hp''] using hp'
      have hown := (h.blocks gi p hpool).owned
      have htotal : p''.total = p.total := by rw [heq]
      refine ⟨hdesc, ?_⟩
      rw [heldBlocks_erase, htotal]
      refine hown.exchange ?_
      rw [heldBlocks_of_some hs, append_nil]
      exact hperm
  · intro gi f' hf'
    have hlt : gi < m.fixed.length := by
      rw [← he.fixed_length]
      exact (List.getElem?_eq_some_iff.mp hf').1
    rcases hfix : m.fixed[gi]? with _ | _ | f
    · simp at hfix
      omega
    · simp only [he.unfixed gi hfix] at hf'
      simp at hf'
    · obtain ⟨f'', hf'', heq, hasc, hperm⟩ := he.fixed gi f hfix
      obtain rfl : f'' = f' := by simpa [hf''] using hf'
      have hown := (h.slots gi f hfix).owned
      have htotal : f''.totalSlots = f.totalSlots := by rw [heq]
      refine ⟨hasc, ?_⟩
      rw [heldSlots_erase, htotal]
      refine hown.exchange ?_
      rw [heldSlots_of_some hs, append_nil]
      exact hperm
  · have hmem : m.seqs.contains k = true := by
      rw [Std.ExtTreeMap.contains_eq_isSome_getElem?, hs]
      rfl
    rw [Std.ExtTreeMap.size_erase, if_pos hmem, h.live]

end End

end R9v

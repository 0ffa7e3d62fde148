import R9v.State.BatchAgree
import Mathlib.Data.List.Perm.Subperm

/-!
# One sequence at a time

A caller that lets one sequence hold blocks at a time, and reserves, fills the batch
and commits for it in turn, meets no failure of the manager: a pool has room for a
full context (`FullPools`), so that the sole holder of blocks (`SoleHolder`) gets
every reservation that stays within the context (`reservable_of_sole`), the batch of
the reservation can be described (`Reserving.fill_ok`), and every part of it can be
committed (`Reserving.commit`).
-/

namespace R9v

open Checked StateManager List

/-- Every pool has the blocks of a full context. -/
def FullPools (m : StateManager) : Prop :=
  ∀ (gi : ℕ) (p : BlockPool), m.pools[gi]? = some (some p) → m.maxBlocks ≤ p.total

/-- No other sequence holds a block. -/
def SoleHolder (m : StateManager) (k : SeqId) : Prop :=
  ∀ k' s, k' ≠ k → m.seqs[k']? = some s → ∀ gi, s.table gi = []

section Room

variable {H : SeqId → ℕ} {m : StateManager} {k : SeqId} {s : SeqState} {n : ℕ}

/-- **A fresh manager has full pools.** -/
theorem StateManager.Built.fullPools (h : m.Built) : FullPools m := by
  obtain ⟨config, groups, poolBytes, hc, hv, hpool, h⟩ := h.exists_groups
  rcases newFromValidatedGroups_cases hc hv hpool with ⟨hf, h'⟩ | ⟨-, e, h'⟩
  · obtain rfl := Except.ok.inj (h'.symm.trans h)
    intro gi p hp
    obtain ⟨g, hg, hpaged, rfl⟩ := initial_pool.mp hp
    exact maxBlocks_le_blocksFor hv hf hg hpaged
  · simp [h'] at h

theorem total_le_of_sole (h : Inv H m) (hsole : SoleHolder m k) (hs : m.seqs[k]? = some s) {gi : ℕ}
    {p : BlockPool} (hp : m.pools[gi]? = some (some p)) :
    p.total ≤ p.free.length + (s.table gi).length := by
  have hown := (h.blocks gi p hp).owned
  have hsub : List.range p.total ⊆ p.free ++ s.table gi := by
    intro id hid
    rcases (hown.cover id).mp (mem_range.mp hid) with hfree | ⟨k', hk'⟩
    · exact mem_append_left _ hfree
    · rcases eq_or_ne k' k with rfl | hne
      · rw [heldBlocks_of_some hs] at hk'
        exact mem_append_right _ hk'
      · rcases hs' : m.seqs[k']? with _ | s'
        · simp [heldBlocks, hs'] at hk'
        · rw [heldBlocks_of_some hs', hsole k' s' hne hs' gi] at hk'
          cases hk'
  simpa using (subperm_of_subset nodup_range hsub).length_le

/-- **The sole holder of blocks gets every reservation** that stays within the
context. -/
theorem reservable_of_sole (h : Inv H m) (hfull : FullPools m) (hsole : SoleHolder m k)
    (hs : m.seqs[k]? = some s) (htail : s.tailLen = 0) (hn : 1 ≤ n)
    (hle : s.ctxLen + n ≤ m.config.maxCtx) : Reservable m k n s := by
  refine ⟨hs, htail, hn, hle, fun gi g p hg hp hpool => ?_⟩
  have hinv := h.seqs k s hs
  have htotal := total_le_of_sole h hsole hs hpool
  have hroom := hfull gi p hpool
  have hmax := h.shape.config.maxBlocks_mul
  rw [← h.shape.maxBlocks_eq] at hmax
  obtain ⟨r, hr⟩ := StateSpec.exists_retain hp
  -- the indices that are held and the ones that are missing are different blocks of one context
  have hnd : (missing (s.held gi) (s.ctxLen / blockTokens) (divCeil (s.ctxLen + n)) ++
      s.held gi).Nodup := by
    refine nodup_append.mpr ⟨?_, ?_, ?_⟩
    · exact List.Nodup.filter _ nodup_range'
    · exact (hinv.ascending gi).imp fun hlt => Nat.ne_of_lt hlt
    · rintro i hi _ hheld rfl
      rw [missing, mem_filter, decide_eq_true_eq] at hi
      exact hi.2 ((Sorted.getElem?_partitionPoint (hinv.ascending gi)).mpr hheld)
  have hsub : missing (s.held gi) (s.ctxLen / blockTokens) (divCeil (s.ctxLen + n)) ++
      s.held gi ⊆ List.range m.maxBlocks := by
    intro i hi
    rw [mem_range]
    rcases mem_append.mp hi with hi | hi
    · have := mem_range'_1.mp (mem_of_mem_filter hi)
      simp only [divCeil, blockTokens] at this
      omega
    · have := ((hinv.retained gi g r hg hr i).mp hi).1
      have := hinv.high_le
      omega
  have hlen := (subperm_of_subset hnd hsub).length_le
  rw [length_append, length_range, hinv.aligned gi] at hlen
  omega

end Room

/-! ### The cycle -/

/-- What a call for one sequence leaves as it is. -/
structure Beside (k : SeqId) (m m' : StateManager) : Prop where
  groups_eq : m'.groups = m.groups
  config_eq : m'.config = m.config
  maxBlocks_eq : m'.maxBlocks = m.maxBlocks
  nextSeq_eq : m'.nextSeq = m.nextSeq
  others : ∀ k', k' ≠ k → m'.seqs[k']? = m.seqs[k']?
  totals : ∀ (gi : ℕ) (p' : BlockPool), m'.pools[gi]? = some (some p') →
    ∃ p, m.pools[gi]? = some (some p) ∧ p'.total = p.total

section Beside

variable {k : SeqId} {m m' m'' : StateManager}

theorem Beside.trans (h : Beside k m m') (h' : Beside k m' m'') : Beside k m m'' where
  groups_eq := h'.groups_eq.trans h.groups_eq
  config_eq := h'.config_eq.trans h.config_eq
  maxBlocks_eq := h'.maxBlocks_eq.trans h.maxBlocks_eq
  nextSeq_eq := h'.nextSeq_eq.trans h.nextSeq_eq
  others := fun k' hne => (h'.others k' hne).trans (h.others k' hne)
  totals := by
    intro gi p'' hp''
    obtain ⟨p', hp', ht'⟩ := h'.totals gi p'' hp''
    obtain ⟨p, hp, ht⟩ := h.totals gi p' hp'
    exact ⟨p, hp, ht'.trans ht⟩

theorem Beside.fullPools (h : Beside k m m') (hfull : FullPools m) : FullPools m' := by
  intro gi p' hp'
  obtain ⟨p, hp, ht⟩ := h.totals gi p' hp'
  rw [h.maxBlocks_eq, ht]
  exact hfull gi p hp

theorem getElem?_insert_ne {seqs : Std.ExtTreeMap ℕ SeqState} {s : SeqState} {k k' : ℕ}
    (hne : k' ≠ k) : (seqs.insert k s)[k']? = seqs[k']? := by
  rw [Std.ExtTreeMap.getElem?_insert, if_neg (by simpa using hne.symm)]

theorem Trades.totals {pools pools' : List (Option BlockPool)} {s s' : SeqState}
    (ht : Trades pools pools' s s') {gi : ℕ} {p' : BlockPool} (hp' : pools'[gi]? = some (some p')) :
    ∃ p, pools[gi]? = some (some p) ∧ p'.total = p.total := by
  have hlt : gi < pools.length := ht.pools_length ▸ (List.getElem?_eq_some_iff.mp hp').1
  rcases hp : pools[gi]? with _ | _ | p
  · exact absurd hp (by simp [hlt])
  · simp [(ht.unpaged gi hp).1] at hp'
  · obtain ⟨p₁, hp₁, htrade⟩ := ht.paged gi p hp
    obtain rfl : p₁ = p' := by simpa [hp₁] using hp'
    exact ⟨p, rfl, htrade.total_eq⟩

end Beside

section Cycle

variable {H : SeqId → ℕ} {m m₁ m₂ : StateManager} {k : SeqId} {s : SeqState} {n a : ℕ}

/-- A manager with a reservation of `n` positions open for a sequence, on top of a
manager `m` where the sequence is `s`. -/
structure Reserving (m m₁ : StateManager) (k : SeqId) (s : SeqState) (n : ℕ) : Prop where
  beside : Beside k m m₁
  exists_inv : ∃ H, Inv H m₁
  seq : ∃ s₁, m₁.seqs[k]? = some s₁ ∧ s₁.ctxLen = s.ctxLen ∧ s₁.tailLen = n ∧ s₁.compacted = none
  pos : 1 ≤ n
  commits_eq : m₁.commits = m.commits
  swaps_eq : m₁.swaps = m.swaps

/-- **A granted reservation.** -/
theorem reserve_ok (h : Inv H m) (hr : Reservable m k n s) :
    ∃ m₁, m.reserve k n = (.ok ⟨k, s.ctxLen, n⟩, m₁) ∧ Reserving m m₁ k s n := by
  rcases reserve_cases h k n with ⟨hno, -⟩ | ⟨t, pools', s', sc, hr', hres, heq⟩
  · exact absurd hr (hno s)
  · obtain rfl : t = s := by simpa [hr'.1] using hr.1
    refine ⟨_, heq, ⟨rfl, rfl, rfl, rfl, fun k' hne => getElem?_insert_ne hne,
      fun gi p' hp' => hres.trades.totals hp'⟩, ⟨_, hres.inv h hr sc⟩, ⟨s', by simp, ?_⟩, hr.2.2.1,
      rfl, rfl⟩
    rw [hres.frame]
    exact ⟨rfl, rfl, rfl⟩

/-- The error of a pool that has too few blocks. -/
def StateError.isPoolExhausted : StateError → Bool
  | .poolExhausted .. => true
  | _ => false

theorem reserveChecks_not_exhausted {e : StateError} (h : m.reserveChecks k n = .error (.err e)) :
    e.isPoolExhausted = false := by
  simp only [reserveChecks, StateManager.seq, bind_eq_error, lift, ensure_eq_error, okOr_eq_error,
    pure_eq_error] at h
  rcases h with h | ⟨s, -, ⟨-, h⟩ | ⟨_, -, ⟨-, h⟩ | ⟨_, -, ⟨-, h⟩ | ⟨_, -, ⟨-, h⟩ | ⟨_, -, h⟩⟩⟩⟩⟩
  · cases hs : m.seqs[k]? <;> simp [hs, okOr] at h
    cases h
    rfl
  · cases h
    rfl
  · cases h
    rfl
  · cases h
    rfl
  · cases h
    rfl
  · exact h.elim

/-- **The sole holder of blocks is never told that a pool is exhausted**: its
reservations are granted as long as they stay within the context. -/
theorem reserve_sole (h : Inv H m) (hfull : FullPools m) (hsole : SoleHolder m k)
    (hs : m.seqs[k]? = some s) (htail : s.tailLen = 0) (n : ℕ) :
    (1 ≤ n ∧ s.ctxLen + n ≤ m.config.maxCtx ∧
      ∃ m₁, m.reserve k n = (.ok ⟨k, s.ctxLen, n⟩, m₁) ∧ Reserving m m₁ k s n) ∨
    (¬(1 ≤ n ∧ s.ctxLen + n ≤ m.config.maxCtx) ∧
      ∃ e, m.reserve k n = (.error (.err e), m) ∧ e.isPoolExhausted = false) := by
  by_cases hn : 1 ≤ n ∧ s.ctxLen + n ≤ m.config.maxCtx
  · exact Or.inl ⟨hn.1, hn.2, reserve_ok h (reservable_of_sole h hfull hsole hs htail hn.1 hn.2)⟩
  · refine Or.inr ⟨hn, ?_⟩
    rcases hch : m.reserveChecks k n with e | ⟨t, stop⟩
    · obtain ⟨e, rfl⟩ := exists_err hch (reserveChecks_ne_panic m k n)
      exact ⟨e, by simp only [reserve, hch], reserveChecks_not_exhausted hch⟩
    · obtain ⟨ht, -, h₁, h₂, -⟩ := (reserveChecks_eq_ok h).mp hch
      obtain rfl : s = t := by simpa [hs] using ht
      exact absurd ⟨h₁, h₂⟩ hn

theorem commit_swaps_le {m' : StateManager} (h : Inv H m) (hok : m.commit k a = (.ok (), m')) :
    m'.swaps ≤ m.swaps + 1 := by
  unfold commit at hok
  split at hok
  · cases hok
  rename_i s' plan hpass
  simp only [bind_eq_ok, lift_eq_ok, pure_eq_ok, Prod.mk.injEq] at hpass
  obtain ⟨s, hs, plan, hplan, -, -, -, -, rfl, rfl⟩ := hpass
  have hs : m.seqs[k]? = some s := by simpa [StateManager.seq] using hs
  obtain ⟨-, rfl⟩ := (commitPlan_eq_ok h hs).mp hplan
  simp only [planOf] at hok
  split at hok
  · cases hok
  · split at hok
    · cases hok
      exact Nat.le_succ _
    · rename_i next hnext
      have hle : next = m.swaps + 1 := by
        split at hnext <;> simp_all
      split at hok
      · cases hok
      · cases hok
        exact hle.le

/-- A manager after a reservation of a sequence was committed in part: `a` tokens have
been added to the sequence that was `s`. -/
structure Cycled (m m₂ : StateManager) (k : SeqId) (s : SeqState) (a : ℕ) : Prop where
  beside : Beside k m m₂
  exists_inv : ∃ H, Inv H m₂
  seq : ∃ s₂, m₂.seqs[k]? = some s₂ ∧ s₂.ctxLen = s.ctxLen + a ∧ s₂.tailLen = 0
  commits_eq : m₂.commits = m.commits + 1
  swaps_le : m₂.swaps ≤ m.swaps + 1

/-- **Every part of a reservation can be committed.** -/
theorem Reserving.commit (hres : Reserving m m₁ k s n) (ha : a ≤ n)
    (hcommits : m.commits + 1 < 2 ^ 64) (hswaps : m.swaps + 1 < 2 ^ 64) :
    ∃ m₂, m₁.commit k a = (.ok (), m₂) ∧ Cycled m m₂ k s a := by
  obtain ⟨H₁, h₁⟩ := hres.exists_inv
  obtain ⟨s₁, hs₁, hctx, htail, hcomp⟩ := hres.seq
  have hable : Committable m₁ k a s₁ :=
    { live := hs₁
      open_tail := by have := hres.pos; omega
      le_tail := by omega
      compacted := by simp [hcomp]
      commits_lt := by rwa [hres.commits_eq]
      swaps_lt := fun _ _ => by rwa [hres.swaps_eq] }
  rcases commit_cases h₁ k a with ⟨hno, -⟩ | ⟨t, pools', s', swaps', hc, hcom, heq⟩
  · exact absurd hable (hno s₁)
  · obtain rfl : t = s₁ := by simpa [hc.live] using hs₁
    have hswaps' := commit_swaps_le h₁ heq
    refine ⟨_, heq, hres.beside.trans ⟨rfl, rfl, rfl, rfl, fun k' hne => getElem?_insert_ne hne,
      fun gi p' hp' => hcom.trades.totals hp'⟩, ⟨_, Committed.inv h₁ hc hcom _ _⟩, ⟨s', by simp, ?_⟩, ?_, ?_⟩
    · rw [hcom.frame]
      exact ⟨by rw [← hctx], rfl⟩
    · simp [hres.commits_eq]
    · simpa [hres.swaps_eq] using hswaps'

/-! ### The batch of a reservation -/

/-- A workspace with room for one sequence of up to `n` tokens. -/
structure RoomFor (ws : BatchWorkspace) (groups maxBlocks n : ℕ) : Prop where
  idScratch_le : 1 ≤ ws.idScratch.capacity
  seqIds_le : 1 ≤ ws.seqIds.capacity
  queryLens_le : 1 ≤ ws.queryLens.capacity
  ctxLens_le : 1 ≤ ws.ctxLens.capacity
  positions_le : n ≤ ws.positions.capacity
  slotMap_le : groups * n ≤ ws.slotMap.capacity
  blockTable_le : groups * maxBlocks ≤ ws.blockTable.capacity
  windowStart_le : groups ≤ ws.windowStart.capacity

theorem RoomFor.suffices {ws : BatchWorkspace} {limit : ℕ}
    (h : RoomFor ws m.groups.length m.maxBlocks limit) (hn : n ≤ limit) :
    Suffices ws m [k] [n] none none where
  idScratch_le := h.idScratch_le
  seqIds_le := h.seqIds_le
  queryLens_le := h.queryLens_le
  ctxLens_le := h.ctxLens_le
  positions_le := fun _ => by simpa using hn.trans h.positions_le
  mrope_le := fun v hv => (by cases hv)
  slotMap_le := by
    have hmul := Nat.mul_le_mul_left m.groups.length hn
    simpa using hmul.trans h.slotMap_le
  blockTable_le := by simpa using h.blockTable_le
  windowStart_le := by simpa using h.windowStart_le
  tree_le := fun t ht => (by cases ht)

theorem roomFor_tryWithCapacity {groups maxTokens maxBlocks : ℕ} {ws : BatchWorkspace}
    (h : BatchWorkspace.tryWithCapacity groups 1 maxTokens maxBlocks = .ok ws) :
    RoomFor ws groups maxBlocks maxTokens := by
  simp only [BatchWorkspace.tryWithCapacity, bind_eq_ok, okOr_eq_ok, narrow_eq_some, mul_eq_some,
    Option.bind_eq_some_iff, pure_eq_ok] at h
  obtain ⟨_, ⟨-, rfl⟩, _, ⟨-, rfl⟩, _, ⟨_, ⟨-, rfl⟩, -, rfl⟩, _, ⟨-, rfl⟩, rfl⟩ := h
  constructor <;> simp

theorem RoomFor.fill {ws ws' : BatchWorkspace} {groups maxBlocks limit : ℕ}
    (h : RoomFor ws groups maxBlocks limit)
    (hfill : m.fillBatchMeta [k] [n] none ws = .ok ws') : RoomFor ws' groups maxBlocks limit := by
  simp only [fillBatchMeta, fillBatchMetaWithOptions, fillTensors, bind_eq_ok, pure_eq_ok] at hfill
  obtain ⟨-, -, -, -, -, -, -, -, -, -, _, ⟨-, -, -, -, -, -, -, -, rfl⟩, rfl⟩ := hfill
  constructor
  case idScratch_le => exact h.idScratch_le.trans (le_max_left _ _)
  case seqIds_le => exact h.seqIds_le.trans (le_max_left _ _)
  case queryLens_le => exact h.queryLens_le.trans (le_max_left _ _)
  case ctxLens_le => exact h.ctxLens_le.trans (le_max_left _ _)
  case positions_le => exact h.positions_le.trans (le_max_left _ _)
  case slotMap_le => exact h.slotMap_le.trans (le_max_left _ _)
  case blockTable_le => exact h.blockTable_le.trans (le_max_left _ _)
  case windowStart_le => exact h.windowStart_le.trans (le_max_left _ _)

/-- **The batch of a reservation can be described.** -/
theorem Reserving.fill_ok (hres : Reserving m m₁ k s n) {ws : BatchWorkspace} {limit : ℕ}
    (hws : RoomFor ws m.groups.length m.maxBlocks limit) (hn : n ≤ limit)
    (htokens : n ≤ maxBatchTokensHard) :
    ∃ ws', m₁.fillBatchMeta [k] [n] none ws = .ok ws' ∧
      RoomFor ws' m.groups.length m.maxBlocks limit := by
  obtain ⟨H₁, h₁⟩ := hres.exists_inv
  obtain ⟨s₁, hs₁, -, htail, -⟩ := hres.seq
  have hplan : Plannable m₁ [k] [n] :=
    { length_eq := rfl
      ne_nil := cons_ne_nil _ _
      nodup := nodup_singleton _
      covers := by
        intro x hx
        obtain rfl : x = (k, n) := by simpa using hx
        exact ⟨s₁, hs₁, hres.pos, htail.ge⟩
      total_le := by simpa using htokens }
  obtain ⟨flat, hflat⟩ := hplan.exists_emits h₁
  have hroom : RoomFor ws m₁.groups.length m₁.maxBlocks limit := by
    rwa [hres.beside.groups_eq, hres.beside.maxBlocks_eq]
  have hadm : Admissible m₁ [k] [n] none (none.map TreeMask.toInput) :=
    ⟨hplan, fun p hp => (by cases hp), fun t ht => (by cases ht)⟩
  obtain ⟨ws', hws', -⟩ :=
    fillBatchMetaWithOptions_ok h₁ (fun _ => hflat) (hroom.suffices hn) hadm
  exact ⟨ws', hws', hws.fill hws'⟩

/-! ### The end of a sequence -/

/-- **A live sequence can be freed**, and only it goes. -/
theorem freeSeq_ok (h : Inv H m) (hs : m.seqs[k]? = some s) :
    ∃ m', m.freeSeq k = (.ok (), m') ∧ Inv H m' ∧ Beside k m m' ∧ m'.seqs[k]? = none ∧
      m'.commits = m.commits ∧ m'.swaps = m.swaps := by
  rcases freeSeq_cases h k with ⟨hno, -⟩ | ⟨t, pools', fixed', ht, hend, heq⟩
  · simp [hs] at hno
  · obtain rfl : s = t := by simpa [hs] using ht
    refine ⟨_, heq, hend.inv h hs, ⟨rfl, rfl, rfl, rfl, fun k' hne => ?_, fun gi p' hp' => ?_⟩,
      by simp, rfl, rfl⟩
    · simp [Std.ExtTreeMap.getElem?_erase, hne.symm]
    · have hlt : gi < m.pools.length := hend.pools_length ▸ (List.getElem?_eq_some_iff.mp hp').1
      rcases hp : m.pools[gi]? with _ | _ | p
      · exact absurd hp (by simp [hlt])
      · have := hend.unpaged gi hp
        simp [this] at hp'
      · obtain ⟨p₁, hp₁, hframe, -⟩ := hend.paged gi p hp
        obtain rfl : p₁ = p' := by simpa [hp₁] using hp'
        exact ⟨p, rfl, by rw [hframe]⟩

end Cycle

end R9v

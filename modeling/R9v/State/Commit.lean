import R9v.State.Trade

/-!
# Committing

A commit moves the verified length on, gives up the blocks that leave the windows
and swaps the buffers of the recurrent groups. On a manager that satisfies the
invariant the checks of its first pass cannot fail (`checkEvict_eq_ok`), and its
second pass runs to the end (`evictGroups_eq`); so a commit either changes nothing
or is complete (`commit_cases`).
-/

namespace R9v

open Checked Sorted StateManager List

/-! ### Giving up blocks -/

/-- The contents after the positions of the given-up blocks of a group are gone. -/
def evictMirror (ctx : ℕ) (g : LayerGroup) (gi : ℕ) (mirror : Mirror) : Mirror := fun x =>
  if x.1 = gi ∧ (evictRange ctx g).1 ≤ x.2 / blockTokens ∧ x.2 / blockTokens < (evictRange ctx g).2
  then none else mirror x

section Evict

variable {ctx gi : ℕ} {g : LayerGroup} {pools : List (Option BlockPool)} {p : BlockPool}
  {s : SeqState}

theorem evictRange_of_unpaged (ctx : ℕ) (h : g.spec.isPaged = false) : evictRange ctx g = (u32Max, 0) := by
  have hret : g.spec.retain = none := by
    cases hr : g.spec.retain with
    | none => rfl
    | some r => simp [StateSpec.isPaged_of_retain hr] at h
  simp [evictRange, hret]

theorem evictMirror_of_le (h : (evictRange ctx g).2 ≤ (evictRange ctx g).1) (mirror : Mirror) :
    evictMirror ctx g gi mirror = mirror := by
  funext x
  rw [evictMirror, if_neg]
  omega

theorem evictGroups_cons (ctx : ℕ) (rest : List (LayerGroup × ℕ)) (hp : pools[gi]? = some (some p)) (hi : gi < s.indices.length)
    (ht : gi < s.tables.length) (hpaged : g.spec.isPaged = true)
    (hok : Cell.Ok ⟨p, s.held gi, s.table gi⟩) :
    ∃ c : Cell,
      evictGroups ctx ((g, gi) :: rest) pools s =
        evictGroups ctx rest (pools.set gi (some c.pool))
          { s.setRow gi c.held c.table with mirror := evictMirror ctx g gi s.mirror } ∧
      Cell.Trade ⟨p, s.held gi, s.table gi⟩ c ∧
      ∀ i, i ∈ c.held ↔
        i ∈ s.held gi ∧ ¬((evictRange ctx g).1 ≤ i ∧ i < (evictRange ctx g).2) := by
  obtain ⟨hlt, hpi⟩ := List.getElem?_eq_some_iff.mp hp
  by_cases hrange : (evictRange ctx g).2 ≤ (evictRange ctx g).1
  · refine ⟨⟨p, s.held gi, s.table gi⟩, ?_, hok.refl, fun i => ?_⟩
    · rw [evictMirror_of_le hrange, SeqState.setRow_self hi ht, ← hpi, List.set_getElem_self hlt]
      simp only [evictGroups, if_pos hrange]
    · exact ⟨fun h => ⟨h, by omega⟩, fun h => h.1⟩
  · unfold evictMirror
    rcases hr : evictRange ctx g with ⟨lo, hi'⟩
    simp only [hr] at hrange ⊢
    have hmono : partitionPoint (fun x => decide (x < lo)) (s.held gi) ≤
        partitionPoint (fun x => decide (x < hi')) (s.held gi) :=
      partitionPoint_mono (r := (· < ·)) (fun b hb => by omega) _
    obtain ⟨pool, hdrop, htrade⟩ := Cell.dropRun_trade hok hmono (partitionPoint_le_length _ _)
    refine ⟨⟨pool, _, _⟩, ?_, htrade, fun i => ?_⟩
    · have hjoin : pools[gi]?.join = some p := by simp [hp]
      simp only [evictGroups, hr, if_neg hrange, hpaged, if_true, SeqState.getElem?_indices hi,
        hjoin, SeqState.getElem?_tables ht, Option.getD_some, hdrop]
      rfl
    · rw [mem_cut (r := (· < ·)) hok.ascending]
      refine and_congr_right fun _ => ?_
      omega

/-- **The release loop runs to the end**: every paged group trades and drops its
range, and every other group is as before. -/
theorem evictGroups_eq (ctx : ℕ) {groups : List (LayerGroup × ℕ)}
    (hready : Sweep (fun _ _ => True) groups pools s) :
    ∃ pools' s',
      evictGroups ctx groups pools s = (.ok (), pools', s') ∧
      s' = { s with indices := s'.indices, tables := s'.tables, mirror := s'.mirror } ∧
      Swept (fun g i held => held ∧ ¬((evictRange ctx g).1 ≤ i ∧ i < (evictRange ctx g).2))
        (fun g pos content => if (evictRange ctx g).1 ≤ pos / blockTokens ∧
          pos / blockTokens < (evictRange ctx g).2 then none else content)
        groups pools pools' s s' := by
  induction groups generalizing pools s with
  | nil => exact ⟨pools, s, rfl, rfl, .nil⟩
  | cons x groups ih =>
    obtain ⟨g, gi⟩ := x
    by_cases hpaged : g.spec.isPaged = true
    · obtain ⟨p, hp, hok, -⟩ := hready.cell (g, gi) mem_cons_self hpaged
      obtain ⟨hi, ht⟩ := hready.lt (g, gi) mem_cons_self
      obtain ⟨c, hrow, htrade, hmem⟩ := evictGroups_cons ctx groups hp hi ht hpaged hok
      obtain ⟨pools', s', hrun, hframe, hswept⟩ := ih hready.step
      exact ⟨pools', s', hrow.trans hrun, hframe, .cons hpaged hready hp htrade hmem
        (fun pos => by simp [evictMirror]) (fun gj hne pos => if_neg fun h => hne h.1) hswept⟩
    · obtain ⟨pools', s', hrun, hframe, hswept⟩ := ih hready.tail
      refine ⟨pools', s', ?_, hframe, hswept.skip hpaged⟩
      rw [← hrun]
      simp [evictGroups, evictRange_of_unpaged ctx (by simpa using hpaged)]

end Evict

/-! ### The specification -/

/-- **When a commit is granted**: the sequence is live and has an open reservation
that covers the accepted tokens, the number agrees with a compaction before it, and
the counters of the manager do not wrap. -/
structure Committable (m : StateManager) (k : SeqId) (accepted : ℕ) (s : SeqState) : Prop where
  live : m.seqs[k]? = some s
  open_tail : s.tailLen ≠ 0
  le_tail : accepted ≤ s.tailLen
  compacted : ∀ c, s.compacted = some c → accepted = c
  commits_lt : m.commits + 1 < 2 ^ 64
  swaps_lt : 0 < accepted → m.groups.any (·.spec.isRecurrent) = true → m.swaps + 1 < 2 ^ 64

/-- **What a commit makes of the sequence**: the verified length has moved on, the
reservation is closed, and what the policies give up at the new length is gone. -/
structure Committed (m : StateManager) (s : SeqState) (accepted : ℕ)
    (pools' : List (Option BlockPool)) (s' : SeqState) : Prop where
  frame : s' = { s with
    ctxLen := s.ctxLen + accepted, tailLen := 0, compacted := none,
    indices := s'.indices, tables := s'.tables, mirror := s'.mirror, parity := s'.parity }
  trades : Trades m.pools pools' s s'
  mem_held : ∀ (gi : ℕ) (g : LayerGroup) (r : Retain), m.groups[gi]? = some g →
    g.spec.retain = some r → ∀ i, i ∈ s'.held gi ↔
      i ∈ s.held gi ∧ ¬r.Evicted (s.ctxLen + accepted) i
  mirror_evicted : ∀ (gi : ℕ) (g : LayerGroup) (r : Retain), m.groups[gi]? = some g →
    g.spec.retain = some r → ∀ pos, r.Evicted (s.ctxLen + accepted) (pos / 32) →
      s'.mirror (gi, pos) = none
  mirror_kept : ∀ (gi : ℕ) (g : LayerGroup) (r : Retain), m.groups[gi]? = some g →
    g.spec.retain = some r → ∀ pos, ¬r.Evicted (s.ctxLen + accepted) (pos / 32) →
      s'.mirror (gi, pos) = s.mirror (gi, pos)
  parity_length : s'.parity.length = s.parity.length
  parity_eq : accepted = 0 → s'.parity = s.parity

section Commit

variable {H : SeqId → ℕ} {m : StateManager} {k : SeqId} {accepted : ℕ} {s : SeqState}

/-- The counters of a commit that passes. -/
def planOf (m : StateManager) (s : SeqState) (accepted : ℕ) : CommitPlan where
  newCtx := s.ctxLen + accepted
  nextCommits := m.commits + 1
  nextSwaps :=
    if 0 < accepted ∧ m.groups.any (·.spec.isRecurrent) = true then some (m.swaps + 1) else none

theorem commitPlan_eq_ok (h : Inv H m) (hs : m.seqs[k]? = some s) {plan : CommitPlan} :
    m.commitPlan s k accepted = .ok plan ↔
      Committable m k accepted s ∧ plan = planOf m s accepted := by
  have hctx : accepted ≤ s.tailLen → s.ctxLen + accepted < 2 ^ 32 := fun hle => by
    have h₁ := (h.seqs k s hs).tail_le
    have h₂ := (h.seqs k s hs).high_le
    have h₃ := h.shape.config.maxCtx_le
    simp only [maxCtxHard] at h₃
    omega
  have hcomp : checkCompacted s accepted = .ok () ↔ ∀ c, s.compacted = some c → accepted = c := by
    unfold checkCompacted
    cases s.compacted <;> simp
  unfold commitPlan planOf
  split <;> rename_i hsw
  · simp only [bind_eq_ok, ensure_eq_ok, okOr_eq_ok, add_eq_some, pure_eq_ok]
    constructor
    · rintro ⟨_, h₁, _, h₂, _, h₃, _, ⟨-, rfl⟩, _, ⟨h₄, rfl⟩, _, ⟨h₅, rfl⟩, rfl⟩
      exact ⟨⟨hs, h₁, h₂, hcomp.mp h₃, h₄, fun _ _ => h₅⟩, rfl⟩
    · rintro ⟨⟨-, h₁, h₂, h₃, h₄, h₅⟩, rfl⟩
      exact ⟨(), h₁, (), h₂, (), hcomp.mpr h₃, _, ⟨hctx h₂, rfl⟩, _, ⟨h₄, rfl⟩, _,
        ⟨h₅ hsw.1 hsw.2, rfl⟩, rfl⟩
  · simp only [bind_eq_ok, ensure_eq_ok, okOr_eq_ok, add_eq_some, pure_eq_ok]
    constructor
    · rintro ⟨_, h₁, _, h₂, _, h₃, _, ⟨-, rfl⟩, _, ⟨h₄, rfl⟩, rfl⟩
      exact ⟨⟨hs, h₁, h₂, hcomp.mp h₃, h₄, fun h h' => absurd ⟨h, h'⟩ hsw⟩, rfl⟩
    · rintro ⟨⟨-, h₁, h₂, h₃, h₄, -⟩, rfl⟩
      exact ⟨(), h₁, (), h₂, (), hcomp.mpr h₃, _, ⟨hctx h₂, rfl⟩, _, ⟨h₄, rfl⟩, rfl⟩

theorem commitPlan_ne_panic : m.commitPlan s k accepted ≠ .error .panic := by
  have hcomp : checkCompacted s accepted ≠ .error .panic := by
    unfold checkCompacted
    cases s.compacted <;> simp
  unfold commitPlan
  split <;> simp [hcomp, -bind_pure_comp]

/-- **The first pass of a commit finds nothing wrong.** -/
theorem checkEvict_eq_ok (h : Inv H m) (hs : m.seqs[k]? = some s) (ctx : ℕ) :
    m.checkEvict s k ctx = .ok () := by
  have hinv := h.seqs k s hs
  refine forM_eq_ok.mpr ?_
  rintro ⟨g, gi⟩ hx
  have hg := mem_zipIdx_iff_getElem?.mp hx
  have hlt : gi < m.groups.length := (List.getElem?_eq_some_iff.mp hg).1
  by_cases hpaged : g.spec.isPaged = true
  · obtain ⟨-, p, hp, -⟩ := h.shape.paged gi g hg hpaged
    have hok := h.cell_ok hs hp
    rcases hr : evictRange ctx g with ⟨lo, hi⟩
    simp only [hr]
    split
    · rfl
    simp only [bind_eq_ok, ensure_eq_ok, okOr_eq_ok, hpaged, hp, Option.join_some,
      SeqState.getElem?_indices (hinv.indices_length ▸ hlt),
      SeqState.getElem?_tables (hinv.tables_length ▸ hlt), Option.some.injEq]
    refine ⟨(), trivial, p, rfl, _, rfl, _, rfl, forM_eq_ok.mpr fun pos hpos => ?_⟩
    have hend := partitionPoint_le_length (fun x => decide (x < hi)) (s.held gi)
    have hpos' : pos < (s.table gi).length := by
      rw [← hok.aligned]
      simp only [mem_range'_1] at hpos
      simp only
      omega
    have hmem : (s.table gi)[pos] ∈ s.table gi := getElem_mem hpos'
    have hfree : (s.table gi)[pos] ∉ p.free := fun hin =>
      (nodup_append.mp hok.nodup).2.2 _ hin _ hmem rfl
    simp only [bind_eq_ok, ensure_eq_ok, okOr_eq_ok, getElem?_eq_getElem hpos',
      Option.some.injEq]
    refine ⟨_, rfl, (), hok.lt_total _ (mem_append_right _ hmem), ?_⟩
    simp [BlockPool.contains, hfree]
  · simp [evictRange_of_unpaged ctx (g := g) (by simpa using hpaged), pure, Except.pure]

theorem flipParity_eq_ok {groups : List LayerGroup} {parity : List ℕ}
    (h : ∀ g ∈ groups, g.index < parity.length) :
    ∃ parity', flipParity groups parity = .ok parity' ∧ parity'.length = parity.length := by
  induction groups generalizing parity with
  | nil => exact ⟨parity, rfl, rfl⟩
  | cons g groups ih =>
    have hg := h g mem_cons_self
    have hrest := fun g' hg' => h g' (mem_cons_of_mem _ hg')
    unfold flipParity
    split
    · rw [getElem?_eq_getElem hg]
      have hset : ∀ g' ∈ groups,
          g'.index < (parity.set g.index (parity[g.index] ^^^ 1)).length := by simpa using hrest
      obtain ⟨parity', h₁, h₂⟩ := ih hset
      exact ⟨parity', h₁, by simpa using h₂⟩
    · exact ih hrest

/-- **The specification of `commit`**: it refuses what is not committable, and then
nothing changes; it grants what is, and nothing else. -/
theorem commit_cases (h : Inv H m) (k : SeqId) (accepted : ℕ) :
    ((∀ s, ¬Committable m k accepted s) ∧ ∃ e, m.commit k accepted = (.error (.err e), m)) ∨
    ∃ s pools' s' swaps', Committable m k accepted s ∧ Committed m s accepted pools' s' ∧
      m.commit k accepted = (.ok (),
        { m with
          pools := pools'
          seqs := m.seqs.insert k s'
          swaps := swaps'
          commits := m.commits + 1 }) := by
  rcases hs : m.seqs[k]? with _ | s
  · refine Or.inl ⟨fun s hc => ?_, .unknownSeq k, ?_⟩
    · exact absurd hc.live (by simp [hs])
    · simp [commit, StateManager.seq, hs]
  have hseq : m.seq k = .ok s := by simp [StateManager.seq, hs]
  rcases hplan : m.commitPlan s k accepted with e | plan
  · obtain ⟨e', rfl⟩ := exists_err hplan commitPlan_ne_panic
    refine Or.inl ⟨fun t hc => ?_, e', ?_⟩
    · obtain rfl : s = t := by simpa [hs] using hc.live
      simp [(commitPlan_eq_ok h hs).mpr ⟨hc, rfl⟩] at hplan
    · simp [commit, hseq, hplan]
  obtain ⟨hc, rfl⟩ := (commitPlan_eq_ok h hs).mp hplan
  have hinv := h.seqs k s hs
  set t : SeqState :=
    { s with ctxLen := s.ctxLen + accepted, tailLen := 0, compacted := none } with ht
  have hready : Sweep (fun _ _ => True) m.groups.zipIdx m.pools s :=
    .of_inv h hs fun _ _ _ _ _ => trivial
  obtain ⟨pools', s', hevict, hframe, hswept⟩ :=
    evictGroups_eq (s.ctxLen + accepted) (s := t) ⟨hready.nodup, hready.lt, hready.cell⟩
  -- what the release loop leaves is what is asked, up to the parities
  have hcommitted : ∀ parity : List ℕ, parity.length = s.parity.length →
      (accepted = 0 → parity = s.parity) →
      Committed m s accepted pools' { s' with parity } := by
    intro parity hlen hzero
    have hrow := fun {gi g r} (hg : m.groups[gi]? = some g) (hr : g.spec.retain = some r) =>
      hswept.paged h hg (StateSpec.isPaged_of_retain hr)
    refine ⟨by rw [hframe], { hswept.trades h with }, fun gi g r hg hr i => ?_, fun gi g r hg hr pos hev => ?_,
      fun gi g r hg hr pos hev => ?_, hlen, hzero⟩
    · exact ((hrow hg hr).1 i).trans (and_congr_right fun _ => not_congr (mem_evictRange hr))
    · exact ((hrow hg hr).2 pos).trans (if_pos ((mem_evictRange hr).mpr hev))
    · exact ((hrow hg hr).2 pos).trans (if_neg fun hcon => hev ((mem_evictRange hr).mp hcon))
  have hpass : (do
      let s ← lift (m.seq k)
      let plan ← m.commitPlan s k accepted
      ensure (m.groups.length ≤ maxGroupsHard) .panic
      m.checkEvict s k plan.newCtx
      pure (s, plan) : Outcome (SeqState × CommitPlan)) = .ok (s, planOf m s accepted) := by
    rw [hseq, lift_ok, ok_bind, hplan, ok_bind, ensure_of h.shape.groups.length_le, ok_bind,
      checkEvict_eq_ok h hs, ok_bind]
    rfl
  refine Or.inr ?_
  by_cases hsw : 0 < accepted ∧ m.groups.any (·.spec.isRecurrent) = true
  · have hindex : ∀ g ∈ m.groups, g.index < s.parity.length := by
      intro g hg
      obtain ⟨gi, hlt, rfl⟩ := getElem_of_mem hg
      rw [hinv.parity_length, h.shape.groups.index gi _ (getElem?_eq_getElem hlt)]
      exact hlt
    obtain ⟨parity, hflip, hlen⟩ := flipParity_eq_ok hindex
    refine ⟨s, pools', { s' with parity }, m.swaps + 1, hc, hcommitted parity hlen (by omega), ?_⟩
    have hpar : s'.parity = s.parity := by rw [hframe]
    simp only [commit, hpass]
    simp only [planOf, if_pos hsw, ← ht, hevict, hpar, hflip]
  · refine ⟨s, pools', s', m.swaps, hc, ?_, ?_⟩
    · have hpar : s'.parity = s.parity := by rw [hframe]
      have := hcommitted s'.parity (by rw [hpar]) fun _ => hpar
      exact this
    · simp only [commit, hpass]
      simp only [planOf, if_neg hsw, ← ht, hevict]

/-! ### The invariant -/

/-- **A granted commit keeps the invariant**, with the same highest positions. -/
theorem Committed.inv (h : Inv H m) {s' : SeqState} {pools' : List (Option BlockPool)}
    (hc : Committable m k accepted s) (hs' : Committed m s accepted pools' s')
    (swaps commits : ℕ) :
    Inv H { m with pools := pools', seqs := m.seqs.insert k s', swaps, commits } := by
  have hinv := h.seqs k s hc.live
  have hctx : s'.ctxLen = s.ctxLen + accepted := by rw [hs'.frame]
  have htail : s'.tailLen = 0 := by rw [hs'.frame]
  have hslots : s'.fixedSlots = s.fixedSlots := by rw [hs'.frame]
  have hretained : ∀ (gi : ℕ) (g : LayerGroup) (r : Retain), m.groups[gi]? = some g →
      g.spec.retain = some r → ∀ i, i ∈ s'.held gi ↔ 32 * i < H k ∧ ¬r.Evicted s'.ctxLen i := by
    intro gi g r hg hret i
    rw [hs'.mem_held gi g r hg hret, hinv.retained gi g r hg hret, hctx]
    constructor
    · rintro ⟨⟨h₁, -⟩, h₂⟩
      exact ⟨h₁, h₂⟩
    · rintro ⟨h₁, h₂⟩
      exact ⟨⟨h₁, fun hev => h₂ (hev.mono (Nat.le_add_right _ _))⟩, h₂⟩
  have htail_le : s'.ctxLen + s'.tailLen ≤ H k := by
    have h₁ := hinv.tail_le
    have h₂ := hc.le_tail
    omega
  have := h.trade hc.live hs'.trades hslots hs'.parity_length htail_le hinv.high_le hretained
    swaps commits m.reserveScratch
  rwa [Function.update_eq_self] at this

end Commit

end R9v

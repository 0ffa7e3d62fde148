import R9v.Sched.Append
import R9v.Sched.Step
import R9v.State.Cycle

/-!
# The invariant of the scheduler

What holds of a scheduler between two calls, when the manager is driven by nothing
else. It has four parts.

* *Conservation*: the live sequences of the manager are the ones that are queued or
  active, each of them once, and a result is under an id that is not in use any more.
* *Agreement* (`Sequence.InPhase`, `Running`, `Waiting`): the length of a sequence is
  the one that the manager has, and it is what the phase of the sequence says.
* *One holder*: the sequences in the queue have no blocks, nothing is paused, and no
  reservation is open.
* *Counters*: what counts commits and records is not ahead of the steps.
-/

namespace R9v

open Checked StateManager List

/-! ### Sequences -/

namespace Sequence

/-- What the phase of a sequence says about its lengths. -/
def InPhase (seq : Sequence) : Prop :=
  match seq.phase with
  | .queued => seq.ctxLen = 0 ∧ seq.generated = []
  | .prefilling done => done = seq.ctxLen ∧ seq.ctxLen < seq.promptLen ∧ seq.generated = []
  | .decoding =>
    seq.ctxLen + 1 = seq.promptLen + seq.generated.length ∧ 1 ≤ seq.generated.length ∧
      seq.generated.length < seq.req.maxTokens
  | .finished _ => False

theorem InPhase.generated_lt {seq : Sequence} (h : seq.InPhase) :
    seq.generated.length < seq.req.maxTokens := by
  have hpos := Nat.pos_of_ne_zero seq.req.maxTokens_ne
  unfold InPhase at h
  split at h
  · simpa [h.2] using hpos
  · simpa [h.2.2] using hpos
  · exact h.2.2
  · exact h.elim

theorem promptLen_pos {seq : Sequence} (h : seq.req.tokens.length < 2 ^ 32) :
    0 < seq.promptLen ∧ seq.promptLen = seq.req.tokens.length := by
  have hpos := length_pos_of_ne_nil seq.req.tokens_ne
  have heq : seq.promptLen = seq.req.tokens.length := Nat.mod_eq_of_lt h
  omega

end Sequence

/-- The manager follows a sequence: it has the same length, and no reservation. -/
def Follows (m : StateManager) (seq : Sequence) : Prop :=
  ∃ st, m.seqs[seq.seqId]? = some st ∧ st.ctxLen = seq.ctxLen ∧ st.tailLen = 0

/-- The sequence holds no block. -/
def HoldsNone (m : StateManager) (k : SeqId) : Prop :=
  ∀ st, m.seqs[k]? = some st → ∀ gi, st.table gi = []

/-- A sequence that is queued: it is as it was made, and it has no blocks. -/
structure Waiting (m : StateManager) (d : ByteDetokenizer) (seq : Sequence) : Prop where
  fresh : seq = Sequence.new seq.req seq.seqId seq.arrivalOrder
  follows : Follows m seq
  holdsNone : HoldsNone m seq.seqId
  buffered : d.bufferedLen seq.seqId = 0
  prompt_le : seq.req.tokens.length ≤ m.config.maxCtx

/-- A sequence in the active slot. -/
structure Running (m : StateManager) (d : ByteDetokenizer) (seq : Sequence) : Prop where
  follows : Follows m seq
  phase : seq.InPhase
  started : seq.phase ≠ .queued
  text : seq.TextOk d
  prompt_le : seq.req.tokens.length ≤ m.config.maxCtx

theorem promptLen_eq {H : SeqId → ℕ} {m : StateManager} (h : Inv H m) {seq : Sequence}
    (hle : seq.req.tokens.length ≤ m.config.maxCtx) :
    0 < seq.promptLen ∧ seq.promptLen = seq.req.tokens.length := by
  have hmax := h.shape.config.maxCtx_le
  simp only [maxCtxHard] at hmax
  exact seq.promptLen_pos (by omega)

theorem Waiting.promote {H : SeqId → ℕ} {m : StateManager} {d : ByteDetokenizer} {seq : Sequence}
    (h : Waiting m d seq) (hm : Inv H m) : Running m d { seq with phase := .prefilling 0 } where
  follows := h.follows
  phase := by
    obtain ⟨hpos, -⟩ := promptLen_eq hm h.prompt_le
    rw [h.fresh]
    exact ⟨rfl, hpos, rfl⟩
  started := by simp
  text := by
    have := h.buffered
    rw [h.fresh] at this ⊢
    simpa [Sequence.TextOk, Sequence.new] using this
  prompt_le := h.prompt_le

/-! ### The invariant -/

/-- The ids of the sequences that are not finished. -/
def Scheduler.following (s : Scheduler σ) : List SeqId :=
  s.queued.map (·.seqId) ++ s.active.toList.map (·.seqId) ++ s.paused.toList.map (·.seqId)

/-- **The invariant of the scheduler.** -/
structure SchedInv (s : Scheduler σ) : Prop where
  config : s.config.problems = []
  exists_inv : ∃ H, Inv H s.stateManager
  full : FullPools s.stateManager
  paused : s.paused = none
  report : s.pendingPauseReport = none
  inFlight : s.inFlight = none
  live : ∀ k, (∃ st, s.stateManager.seqs[k]? = some st) ↔ k ∈ s.following
  nodup : s.following.Nodup
  queued : ∀ seq ∈ s.queued, Waiting s.stateManager s.detokenizer seq
  active : ∀ seq, s.active = some seq → Running s.stateManager s.detokenizer seq
  unborn : ∀ k, s.stateManager.nextSeq ≤ k → s.detokenizer.bufferedLen k = 0
  finished : ∀ k, k ∈ s.finished → k < s.stateManager.nextSeq ∧ k ∉ s.following
  outstanding : s.outstandingCount ≤ s.config.maxOutstanding
  arrival : (s.queued.map (·.arrivalOrder)).Pairwise (· < ·)
  arrival_le : ∀ seq ∈ s.queued, seq.arrivalOrder ≤ s.arrivalCounter
  counter : s.stepCounter < 2 ^ 64
  commits : s.stateManager.commits ≤ s.stepCounter
  swaps : s.stateManager.swaps ≤ s.stepCounter
  written : s.scheduleLog.totalWritten ≤ s.stepCounter
  log : s.scheduleLog.writeIdx < s.scheduleLog.capacity ∧
    s.scheduleLog.buffer.length = s.scheduleLog.capacity
  last : ∀ id, s.lastCommittedStep = some id → id ≤ s.stepCounter
  workspace : RoomFor s.batchWorkspace s.stateManager.groups.length s.stateManager.maxBlocks
    s.config.prefillMaxChunk

section

variable {s : Scheduler σ} {seq : Sequence}

theorem SchedulerConfig.chunk_bounds {c : SchedulerConfig} (h : c.problems = []) :
    1 ≤ c.prefillMinChunk ∧ c.prefillMinChunk ≤ c.prefillMaxChunk := by
  simp only [SchedulerConfig.problems, append_eq_nil_iff] at h
  obtain ⟨⟨⟨⟨⟨⟨⟨h₁, h₂⟩, -⟩, -⟩, -⟩, -⟩, -⟩, -⟩ := h
  constructor
  · by_contra hno
    simp [Nat.lt_one_iff.mp (Nat.not_le.mp hno)] at h₁
  · by_contra hno
    simp [Nat.not_le.mp hno] at h₂

theorem SchedInv.soleHolder (h : SchedInv s) (ha : s.active = some seq) :
    SoleHolder s.stateManager seq.seqId := by
  intro k st hne hst
  have hmem := (h.live k).mp ⟨st, hst⟩
  simp only [Scheduler.following, ha, h.paused, Option.toList_some, Option.toList_none,
    map_cons, map_nil, append_nil, mem_append, mem_singleton, hne,
    or_false, mem_map] at hmem
  obtain ⟨q, hq, rfl⟩ := hmem
  exact (h.queued q hq).holdsNone st hst

/-- **A new scheduler satisfies the invariant.** -/
theorem Scheduler.new_inv {config : SchedulerConfig} {m : StateManager} {registry : Registry σ}
    {cost : CostTable} {program : StepGraphProgram σ} {arena : WorkspaceArena} (hm : m.Built)
    (h : Scheduler.new config m registry cost program arena = .ok s) : SchedInv s := by
  have hinv := hm.inv
  have hfull := hm.fullPools
  have hempty : m.seqs = ∅ ∧ m.commits = 0 ∧ m.swaps = 0 := by
    obtain ⟨sc, groups, poolBytes, hc, hv, hpool, h⟩ := hm.exists_groups
    rcases newFromValidatedGroups_cases hc hv hpool with ⟨hf, h'⟩ | ⟨-, e, h'⟩
    · obtain rfl := Except.ok.inj (h'.symm.trans h)
      exact ⟨rfl, rfl, rfl⟩
    · simp [h'] at h
  obtain ⟨hseqs, hcommits, hswaps⟩ := hempty
  simp only [Scheduler.new, SchedulerConfig.validate, bind_eq_ok, ensure_eq_ok, okOr_eq_ok,
    narrow_eq_some, pure_eq_ok] at h
  obtain ⟨_, hproblems, cache, -, _, ⟨-, rfl⟩, ws, hws, rfl⟩ := h
  have hchunk := SchedulerConfig.chunk_bounds hproblems
  have hws : BatchWorkspace.tryWithCapacity m.groups.length 1 (max config.prefillMaxChunk 1)
      m.config.maxBlocks = .ok ws := by
    cases hcap : BatchWorkspace.tryWithCapacity m.groups.length 1 (max config.prefillMaxChunk 1)
      m.config.maxBlocks with
    | error e => simp [hcap, Except.mapError] at hws
    | ok ws' => simpa [hcap, Except.mapError] using hws
  have hroom := roomFor_tryWithCapacity hws
  rw [max_eq_left (by omega), ← hinv.shape.maxBlocks_eq] at hroom
  constructor
  case config => exact hproblems
  case exists_inv => exact ⟨_, hinv⟩
  case full => exact hfull
  case workspace => exact hroom
  case live => simp [hseqs, Scheduler.following]
  case unborn => simp [ByteDetokenizer.bufferedLen, ByteDetokenizer.new]
  case commits => exact hcommits.le
  case swaps => exact hswaps.le
  case written => exact Nat.zero_le _
  case log => exact ⟨Nat.zero_lt_succ _, length_replicate⟩
  all_goals simp [Scheduler.following, Scheduler.outstandingCount]

end

end R9v

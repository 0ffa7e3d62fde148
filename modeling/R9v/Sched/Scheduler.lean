import R9v.Sched.Sequence
import R9v.Sched.Cost
import R9v.Sched.Graph
import R9v.Sched.Trace
import R9v.State.Batch

/-!
# The scheduler

The state of the scheduler (`r9v-sched/src/scheduler.rs`), its construction, and the
calls that queue a request, cancel one and take a result. A step is in `Sched.Step`.

The proposer of the source does nothing in this version, and is left out; so are its
accessors and its traces.
-/

namespace R9v

open Checked

/-! ### Configuration -/

structure SchedulerConfig where
  stepBudgetMs : StepBudgetConfig
  profile : ProfileMode
  prefillMinChunk : ℕ
  prefillMaxChunk : ℕ
  maxWaitMs : ℕ
  maxSeqs : ℕ
  kMax : ℕ
  minAccept : Float32
  graphMode : GraphMode
  planId : ℕ
  rank : ℕ
  vocabSize : ℕ
  maxOutstanding : ℕ
  deriving DecidableEq

namespace SchedulerConfig

/-- The manual budget, if there is one, must be finite and positive. -/
def budgetProblems (c : SchedulerConfig) : List RequestProblem :=
  match c.stepBudgetMs with
  | .manual ms => if !ms.isFinite || ms ≤ 0.0 then [.manualBudget ms] else []
  | .auto => []

/-- Everything that is wrong with a configuration. -/
def problems (c : SchedulerConfig) : List RequestProblem :=
  (if c.prefillMinChunk = 0 then [.zeroMinChunk] else []) ++
  (if c.prefillMaxChunk < c.prefillMinChunk then
    [.chunkOrder c.prefillMaxChunk c.prefillMinChunk] else []) ++
  (if c.maxSeqs ≠ 1 then [.maxSeqs c.maxSeqs] else []) ++
  (if c.kMax ≠ 0 then [.kMax c.kMax] else []) ++
  (if c.vocabSize = 0 then [.zeroVocab] else []) ++
  c.budgetProblems ++
  (if !c.minAccept.isFinite || c.minAccept < 0.0 || 1.0 < c.minAccept then
    [.minAccept c.minAccept] else []) ++
  (if c.maxOutstanding = 0 then [.zeroMaxOutstanding] else [])

def validate (c : SchedulerConfig) : SchedResult Unit :=
  ensure (c.problems = []) (.invalidRequest c.problems)

end SchedulerConfig

/-! ### State -/

/-- The step that the device executes. -/
structure InFlightStep where
  stepId : ℕ
  seqId : SeqId
  reservation : StateManager.SlotRange
  deriving DecidableEq

/-- The scheduler, for one sequence at a time. -/
structure Scheduler (σ : Type) where
  config : SchedulerConfig
  stateManager : StateManager
  registry : Registry σ
  costTable : CostTable
  arena : WorkspaceArena
  batchWorkspace : BatchWorkspace
  graphCache : GraphCache σ
  eventChain : StepEventChain
  scheduleLog : ScheduleLogRing
  detokenizer : ByteDetokenizer
  stepCounter : ℕ
  arrivalCounter : ℕ
  inFlight : Option InFlightStep
  lastCommittedStep : Option ℕ
  queued : List Sequence
  active : Option Sequence
  paused : Option Sequence
  pendingPauseReport : Option SeqId
  finished : Std.ExtTreeMap ℕ (Request × List ℕ × FinishReason)

/-- An error of the manager, as the scheduler returns it. -/
def liftState (e : Fault StateError) : Fault SchedError :=
  match e with
  | .err e => .err (.state e)
  | .panic => .panic

namespace Scheduler

/-- A new scheduler: its graphs are captured and its workspace is sized. -/
def new (config : SchedulerConfig) (stateManager : StateManager) (registry : Registry σ)
    (costTable : CostTable) (program : StepGraphProgram σ) (arena : WorkspaceArena) :
    SchedResult (Scheduler σ) := do
  config.validate
  let graphCache ←
    GraphCache.eagerCaptureWarmBuckets registry config.planId config.rank program arena
  let maxTokens ← okOr (narrow 64 (max config.prefillMaxChunk 1))
    (.overflow "batch_workspace" "prefill_max_chunk exceeds address width")
  let batchWorkspace ← (BatchWorkspace.tryWithCapacity stateManager.groups.length 1 maxTokens
    stateManager.config.maxBlocks).mapError .state
  pure
    { config
      stateManager
      registry
      costTable
      arena
      batchWorkspace
      graphCache
      eventChain := .new
      scheduleLog := .new 4096
      detokenizer := .new
      stepCounter := 0
      arrivalCounter := 0
      inFlight := none
      lastCommittedStep := none
      queued := []
      active := none
      paused := none
      pendingPauseReport := none
      finished := ∅ }

/-! ### The queue -/

/-- The sequences that are not finished. -/
def activeSequenceCount (s : Scheduler σ) : ℕ :=
  s.queued.length + s.active.toList.length + s.paused.toList.length

def isIdle (s : Scheduler σ) : Bool := s.activeSequenceCount == 0

/-- The requests that are not done with: the results that nobody took count too. -/
def outstandingCount (s : Scheduler σ) : ℕ :=
  s.finished.size + s.queued.length + s.active.toList.length + s.paused.toList.length

/-- Queues a request. -/
def enqueueRequest (s : Scheduler σ) (req : Request) : SchedOutcome SeqId × Scheduler σ :=
  if s.config.maxOutstanding ≤ s.outstandingCount then
    (.error (.err (.capacityExceeded s.outstandingCount s.config.maxOutstanding)), s)
  else
    match add 64 s.arrivalCounter 1 with
    | none => (.error (.err (.overflow "arrival_counter" "arrival counter overflow")), s)
    | some arrival =>
      match s.stateManager.newSeq req.tokens with
      | (.error e, m) => (.error (liftState e), { s with stateManager := m })
      | (.ok (k, _), m) =>
        (.ok k,
          { s with
            stateManager := m
            arrivalCounter := arrival
            queued := s.queued ++ [Sequence.new req k arrival] })

/-- Moves the paused sequence to the active slot, if that is free. -/
def tryUnpauseSequences (s : Scheduler σ) : Scheduler σ :=
  match s.active, s.paused with
  | none, some seq => { s with active := some seq, paused := none }
  | _, _ => s

/-- Ends a sequence that was taken out of its container. -/
def cancelTaken (s : Scheduler σ) (seq : Sequence) : SchedOutcome Bool × Scheduler σ :=
  match s.stateManager.freeSeq seq.seqId with
  | (.error e, m) => (.error (liftState e), { s with stateManager := m })
  | (.ok (), m) =>
    (.ok true,
      { s with
        stateManager := m
        detokenizer := s.detokenizer.reset seq.seqId
        finished := s.finished.insert seq.seqId (seq.req, seq.generated, .cancelled) })

/-- Cancels the active sequence; a paused one takes its place. -/
def cancelActive (s : Scheduler σ) (seq : Sequence) : SchedOutcome Bool × Scheduler σ :=
  match { s with active := none }.cancelTaken seq with
  | (.error e, s) => (.error e, s)
  | (.ok b, s) => (.ok b, s.tryUnpauseSequences)

/-- Cancels the paused sequence, and what would have been reported of it. -/
def cancelPaused (s : Scheduler σ) (seq : Sequence) : SchedOutcome Bool × Scheduler σ :=
  match { s with paused := none }.cancelTaken seq with
  | (.error e, s) => (.error e, s)
  | (.ok b, s) =>
    (.ok b,
      { s with
        pendingPauseReport :=
          if s.pendingPauseReport = some seq.seqId then none else s.pendingPauseReport })

/-- Cancels a sequence, wherever it is. -/
def cancelSequence (s : Scheduler σ) (k : SeqId) : SchedOutcome Bool × Scheduler σ :=
  match s.active.filter (·.seqId == k) with
  | some seq => s.cancelActive seq
  | none =>
    match s.queued.find? (·.seqId == k) with
    | some seq =>
      { s with queued := s.queued.eraseP (·.seqId == k) }.cancelTaken seq
    | none =>
      match s.paused.filter (·.seqId == k) with
      | some seq => s.cancelPaused seq
      | none => (.ok false, s)

/-- Cancels a request. -/
def cancelRequest (s : Scheduler σ) (id : ℕ) : SchedOutcome Bool × Scheduler σ :=
  match s.active.filter (·.req.id == id) with
  | some seq => s.cancelSequence seq.seqId
  | none =>
    match s.queued.find? (·.req.id == id) with
    | some seq => s.cancelSequence seq.seqId
    | none =>
      match s.paused.filter (·.req.id == id) with
      | some seq => s.cancelSequence seq.seqId
      | none => (.ok false, s)

/-- Takes the result of a finished sequence. -/
def takeFinishedResult (s : Scheduler σ) (k : SeqId) :
    Option (Request × List ℕ × FinishReason) × Scheduler σ :=
  (s.finished[k]?, { s with finished := s.finished.erase k })

end Scheduler

end R9v

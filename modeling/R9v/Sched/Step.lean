import R9v.Sched.Scheduler

/-!
# A step of the scheduler

One step (`Scheduler.step`) promotes a sequence to the active slot, plans what to
admit, reserves its positions, fills the batch, lets the device execute it, and takes
the sampled token over. Whatever fails after the reservation goes through `failStep`:
the sequence goes back to the active slot, and the reservation is given up by a
commit of no tokens.

The parts of a step are definitions of their own here, in the order in which the
source has them in one function. While a step is under way the sequence is an
argument of theirs, and the active slot is empty.
-/

namespace R9v

open Checked StateManager

/-! ### The device -/

/-- What the device reads back. -/
structure DeviceStepSample where
  stepId : ℕ
  token : ℕ
  acceptLen : ℕ
  deriving DecidableEq

/-- What is uploaded for a step. -/
structure StepInputs where
  stepId : ℕ
  seqId : SeqId
  reservation : SlotRange
  batch : BatchWorkspace
  sampling : SamplingParams
  seed : ℕ
  rngCounter : ℕ
  promptTokens : List ℕ
  generatedTokens : List ℕ
  prefill : Option (ℕ × ℕ)
  ctxLen : ℕ

/-- What an executor does during one step. Another step may meet another behaviour,
so that nothing is said here of the state that an executor keeps. -/
structure StepExecutor where
  uploadInputs : StepInputs → SchedResult Unit
  replayGraph : StepInputs → CapturedGraph → SchedResult Unit
  readbackSample : StepInputs → CapturedGraph → SchedResult DeviceStepSample

/-- The part of the scheduler that the device phase changes. -/
structure Device (σ : Type) where
  chain : StepEventChain
  cache : GraphCache σ
  arena : WorkspaceArena
  captured : Bool

/-- A computation of the device phase. What it has changed stays changed when it
fails. -/
abbrev DeviceM (σ : Type) := ExceptT SchedError (StateM (Device σ))

namespace DeviceM

/-- A computation that does not touch the device. -/
def ofResult (x : SchedResult α) : DeviceM σ α := fun d => (x, d)

/-- Records an event. -/
def event (f : StepEventChain → SchedResult α × StepEventChain) : DeviceM σ α :=
  fun d => ((f d.chain).1, { d with chain := (f d.chain).2 })

/-- Takes the graph of a key from the cache. -/
def graph (registry : Registry σ) (key : StepGraphKey) : DeviceM σ (CapturedGraph × Bool) :=
  fun d =>
    let r := d.cache.getOrCapture registry key d.arena
    (r.1, { d with cache := r.2.1, arena := r.2.2 })

/-- Remembers whether the graph was captured. -/
def setCaptured (captured : Bool) : DeviceM σ Unit := fun d => (.ok (), { d with captured })

end DeviceM

/-- The device phase: upload, replay and readback, with the events between them. -/
def deviceChain (registry : Registry σ) (exec : StepExecutor) (inputs : StepInputs)
    (key : StepGraphKey) : DeviceM σ DeviceStepSample := do
  let id := inputs.stepId
  .ofResult (exec.uploadInputs inputs)
  let upload ← .event (·.recordUploadComplete id)
  let _ ← DeviceM.event (·.recordWait id .compute upload)
  let (graph, captured) ← .graph registry key
  .ofResult (exec.replayGraph inputs graph)
  .setCaptured captured
  let compute ← .event (·.recordComputeComplete id)
  let _ ← DeviceM.event (·.recordWait id .copy compute)
  let sample ← .ofResult (exec.readbackSample inputs graph)
  let _ ← DeviceM.event (·.recordReadbackComplete id)
  .event fun c => (c.validateStepChain id, c)
  pure sample

/-! ### Plans and results -/

/-- What a step may do. A cost is kept as its bits in the source. -/
inductive AdmissionPlan
  | decode (bucket : ℕ × ℕ × ℕ) (costMs : Float32) (nextStep : ℕ)
  | prefill (chunk : ℕ) (forced : Bool) (bucket : ℕ × ℕ × ℕ) (costMs : Float32) (nextStep : ℕ)
  | wait

/-- What a step does. -/
structure Admission where
  chunk : ℕ
  forced : Bool
  bucket : ℕ × ℕ × ℕ
  costMs : Float32
  nextStep : ℕ
  isDecode : Bool

/-- The number of positions that a step reserves. -/
def Admission.reserveN (a : Admission) : ℕ := if a.isDecode then 1 else a.chunk

/-- The step, as it is reported. -/
structure Step where
  stepId : ℕ
  seqsDecode : List SeqId
  seqsPrefill : List (SeqId × ℕ)
  k : List ℕ
  bucket : ℕ × ℕ × ℕ
  graphs : List StepGraphKey
  deriving DecidableEq

/-- The result of a step. -/
structure StepResult where
  step : Step
  stepId : ℕ
  bucket : ℕ × ℕ × ℕ
  acceptedTokens : List (SeqId × List ℕ)
  finishedSequences : List (SeqId × FinishReason)
  record : ScheduleRecord
  deriving DecidableEq

/-- What a step has been told, and has decided, before it reserves. -/
structure StepContext where
  admission : Admission
  budgetMs : Float32
  preStepMs : Float32

/-- The outcome of a step. -/
abbrev Stepped (σ : Type) := SchedOutcome (Option StepResult) × Scheduler σ

/-- Counts a step that the sequence had to wait. -/
def Sequence.wait (seq : Sequence) (budget : Float32) : Option Sequence :=
  (add 64 seq.waitSteps 1).map fun n =>
    { seq with waitSteps := n, accumulatedWaitMs := seq.accumulatedWaitMs + budget }

/-- Takes the token tracking back to where it was before a token was appended. The
text is only cut back where it has not lost its beginning, and then to where it
ended before. -/
def Sequence.rollbackAppend (seq before : Sequence) : Sequence :=
  { seq with
    generated := seq.generated.take before.generated.length
    tokenByteSpans := seq.tokenByteSpans.take before.tokenByteSpans.length
    pendingUtf8Start := before.pendingUtf8Start
    detokenizedTail :=
      if seq.tailStartByte = before.tailStartByte ∧
          before.detokenizedTail.length ≤ seq.detokenizedTail.length then
        seq.detokenizedTail.take before.detokenizedTail.length
      else seq.detokenizedTail }

namespace Scheduler

def waitOverflow : SchedError := .overflow "wait_steps" "wait steps overflow"

/-! ### Planning -/

/-- The chunk of a prompt to admit, and whether it is forced; nothing when the prompt
has to wait. -/
def chooseChunk (s : Scheduler σ) (seq : Sequence) (remaining : ℕ) (budget preStep : Float32) :
    SchedResult (Option (ℕ × Bool)) := do
  let room ← s.costTable.prefillRoomMs budget 0 0 preStep
  let chunk ← s.costTable.selectPrefillChunk remaining 0 0 room s.config.prefillMinChunk
    s.config.prefillMaxChunk
  match chunk with
  | some c => pure (some (c, false))
  | none =>
    if (UInt64.ofNat s.config.maxWaitMs).toFloat32 ≤ seq.accumulatedWaitMs + budget then
      pure (some (min remaining s.config.prefillMinChunk, true))
    else pure none

/-- The buckets of a step and its cost. -/
def price (s : Scheduler σ) (chunk : ℕ) : SchedResult ((ℕ × ℕ × ℕ) × Float32) := do
  let b ← (bucketStep 1 1 chunk).mapError .ir
  let cost ← s.costTable.costMs b.1 b.2.1 b.2.2
  pure (b, cost)

/-- Plans a prefill step. -/
def planPrefill (s : Scheduler σ) (seq : Sequence) (done : ℕ) (budget preStep : Float32)
    (nextStep : ℕ) : SchedResult AdmissionPlan := do
  let remaining ← okOr (sub seq.promptLen done)
    (.overflow "prefill_remaining" "prompt len underflow")
  match ← s.chooseChunk seq remaining budget preStep with
  | none => pure .wait
  | some (chunk, forced) => do
    let (b, cost) ← s.price chunk
    pure (.prefill chunk forced b cost nextStep)

/-- Plans a step of a sequence, without changing anything. -/
def planAdmission (s : Scheduler σ) (seq : Sequence) (budget preStep : Float32) :
    SchedResult AdmissionPlan := do
  let nextStep ← okOr (add 64 s.stepCounter 1) (.overflow "step_counter" "step counter overflow")
  match seq.phase with
  | .decoding => do
    let (b, cost) ← s.price 0
    pure (.decode b cost nextStep)
  | .prefilling done => s.planPrefill seq done budget preStep nextStep
  | .queued | .finished _ => .error (.internal "plan_admission called for inactive sequence")

/-! ### Failing -/

/-- Puts the sequence back in the active slot. -/
def restore (s : Scheduler σ) (seq : Sequence) : Scheduler σ := { s with active := some seq }

/-- Gives up a step after its reservation. A commit of no tokens that fails leaves the
reservation open. -/
def failStep (s : Scheduler σ) (seq : Sequence) (e : SchedError) : Stepped σ :=
  let s := { s with active := some seq, inFlight := none }
  match s.stateManager.tailLen seq.seqId with
  | .error _ => (.error (.err e), s)
  | .ok tail =>
    if 0 < tail then
      match s.stateManager.commit seq.seqId 0 with
      | (.error .panic, m) => (.error .panic, { s with stateManager := m })
      | (_, m) => (.error (.err e), { s with stateManager := m })
    else (.error (.err e), s)

/-! ### After the device -/

/-- What a step has to report: the tokens that it accepted, the length that the log
is told, and why the sequence finishes, if it does. -/
structure Report where
  accepted : List (SeqId × List ℕ)
  acceptLen : ℕ
  finish : Option FinishReason

/-- The report of a sampled token. -/
def report (k : SeqId) (sample : DeviceStepSample) (finish : Option FinishReason)
    (trimmed : Bool) : Report :=
  if trimmed then ⟨[], 0, finish⟩ else ⟨[(k, [sample.token])], sample.acceptLen, finish⟩

/-- The record of a step. -/
def recordOf (s : Scheduler σ) (x : StepContext) (acceptLen : ℕ) (captured : Bool) :
    ScheduleRecord where
  stepId := x.admission.nextStep
  tPreUs := (x.preStepMs * 1000.0).toUInt64.toNat
  tDraftUs := 0
  tDeviceUs := (x.admission.costMs * 1000.0).toUInt64.toNat
  tPostUs := 0
  s := 1
  tDec := if x.admission.isDecode then 1 else 0
  tPre := x.admission.chunk
  chunk := x.admission.chunk
  k := [0]
  acceptLen := [acceptLen]
  forcedAdmission := x.admission.forced
  budgetMs := x.budgetMs
  bucket := x.admission.bucket
  graphMode := s.config.graphMode
  captured
  paused := s.pendingPauseReport.toList
  segmentSyncUs := 0

/-- The graph that a step replays. -/
def stepKey (s : Scheduler σ) (a : Admission) : StepGraphKey :=
  ⟨s.config.planId, s.config.rank, a.bucket.1, a.bucket.2.1, a.bucket.2.2, 0⟩

/-- Writes the record of a step, and returns its result. -/
def logStep (s : Scheduler σ) (k : SeqId) (x : StepContext) (captured : Bool) (r : Report)
    (finished : List (SeqId × FinishReason)) : Stepped σ :=
  let a := x.admission
  let record := s.recordOf x r.acceptLen captured
  let s := { s with pendingPauseReport := none }
  match s.scheduleLog.push record with
  | (.error e, log) => (.error (.err e), { s with scheduleLog := log })
  | (.ok (), log) =>
    (.ok (some
      { step :=
          { stepId := a.nextStep
            seqsDecode := if a.isDecode then [k] else []
            seqsPrefill := if a.isDecode then [] else [(k, a.chunk)]
            k := [0]
            bucket := a.bucket
            graphs := [s.stepKey a] }
        stepId := a.nextStep
        bucket := a.bucket
        acceptedTokens := r.accepted
        finishedSequences := finished
        record }), { s with scheduleLog := log })

/-- Ends a sequence that has finished, and logs the step. -/
def finishStep (s : Scheduler σ) (seq : Sequence) (x : StepContext) (captured : Bool)
    (r : Report) : Stepped σ :=
  match r.finish with
  | none => (s.restore seq).logStep seq.seqId x captured r []
  | some reason =>
    match s.stateManager.freeSeq seq.seqId with
    | (.error e, m) => (.error (liftState e), { s with stateManager := m }.restore seq)
    | (.ok (), m) =>
      { s with
        stateManager := m
        detokenizer := s.detokenizer.reset seq.seqId
        finished := s.finished.insert seq.seqId (seq.req, seq.generated, reason)
        active := none }.tryUnpauseSequences.logStep seq.seqId x captured r [(seq.seqId, reason)]

/-- Commits the positions of a step and moves the sequence on to a phase; `back` is the
sequence as it goes back when the commit fails. -/
def commitStep (s : Scheduler σ) (seq back : Sequence) (phase : SequencePhase) (x : StepContext)
    (captured : Bool) (r : Report) : Stepped σ :=
  let n := x.admission.reserveN
  match s.stateManager.commit seq.seqId n with
  | (.error e, m) => (.error (liftState e), { s with stateManager := m }.restore back)
  | (.ok (), m) =>
    let s := { s with stateManager := m }
    match add 32 seq.ctxLen n with
    | none => (.error (.err (.overflow "ctx_len" "ctx len overflow")), s.restore seq)
    | some ctxLen =>
      { s with lastCommittedStep := some x.admission.nextStep, inFlight := none }.finishStep
        { seq with
          ctxLen
          phase
          acceptEma :=
            if x.admission.isDecode then
              0.8 * seq.acceptEma + 0.2 * (UInt32.ofNat r.acceptLen).toFloat32
            else seq.acceptEma } x captured r

/-- The last chunk of a prompt: the token is checked before the chunk is committed. -/
def completePrompt (s : Scheduler σ) (seq : Sequence) (x : StepContext) (captured : Bool)
    (sample : DeviceStepSample) : Stepped σ :=
  match { seq with phase := .decoding }.appendGeneratedToken sample.token s.detokenizer with
  | (.error .panic, _, d) => (.error .panic, { s with detokenizer := d })
  | (.error (.err e), seq', d) =>
    { s with detokenizer := d }.failStep
      { seq'.rollbackAppend seq with phase := seq.phase } e
  | (.ok (finish, trimmed), seq', d) =>
    { s with detokenizer := d }.commitStep seq'
      { seq'.rollbackAppend seq with phase := seq.phase } .decoding x captured
      (report seq.seqId sample finish trimmed)

/-- A chunk that leaves a part of the prompt. -/
def commitChunk (s : Scheduler σ) (seq : Sequence) (newDone : ℕ) (x : StepContext)
    (captured : Bool) : Stepped σ :=
  s.commitStep seq seq (.prefilling newDone) x captured ⟨[], 0, none⟩

/-- A decode step. -/
def decodeToken (s : Scheduler σ) (seq : Sequence) (x : StepContext) (captured : Bool)
    (sample : DeviceStepSample) : Stepped σ :=
  match seq.appendGeneratedToken sample.token s.detokenizer with
  | (.error .panic, _, d) => (.error .panic, { s with detokenizer := d })
  | (.error (.err e), seq', d) => { s with detokenizer := d }.failStep seq' e
  | (.ok (finish, trimmed), seq', d) =>
    { s with detokenizer := d }.commitStep seq' (seq'.rollbackAppend seq) .decoding x captured
      (report seq.seqId sample finish trimmed)

/-- Takes over what the device has computed. -/
def postStep (s : Scheduler σ) (seq : Sequence) (x : StepContext) (captured : Bool)
    (sample : DeviceStepSample) : Stepped σ :=
  match seq.phase with
  | .prefilling done =>
    match add 32 done x.admission.chunk with
    | none => s.failStep seq (.overflow "prefill_done" "prefill done overflow")
    | some newDone =>
      if seq.promptLen ≤ newDone then s.completePrompt seq x captured sample
      else s.commitChunk seq newDone x captured
  | .decoding => s.decodeToken seq x captured sample
  | .queued | .finished _ =>
    s.failStep seq (.internal "step admitted for inactive phase")

/-! ### The device phase -/

/-- Whether a chunk leaves a part of the prompt. The sum saturates. -/
def isIntermediate (seq : Sequence) (a : Admission) : Bool :=
  match seq.phase with
  | .prefilling done => !a.isDecode && min (done + a.chunk) u32Max < seq.promptLen
  | _ => false

/-- The accept length that the device must report. -/
def expectedAccept (seq : Sequence) (a : Admission) : ℕ := if isIntermediate seq a then 0 else 1

def acceptMismatch (seq : Sequence) (a : Admission) (sample : DeviceStepSample) : SchedError :=
  let inter := isIntermediate seq a
  .executionFailed
    (s!"k=0 step requires device accept_len == {expectedAccept seq a}, got {sample.acceptLen} " ++
      s!"(seq {seq.seqId}, step {a.nextStep}, intermediate={inter})")

/-- What is uploaded. -/
def stepInputs (s : Scheduler σ) (seq : Sequence) (a : Admission) (r : SlotRange) : StepInputs where
  stepId := a.nextStep
  seqId := seq.seqId
  reservation := r
  batch := s.batchWorkspace
  sampling := seq.req.sampling
  seed := seq.req.seed
  rngCounter := a.nextStep
  promptTokens := seq.req.tokens
  generatedTokens := seq.generated
  prefill :=
    match seq.phase with
    | .prefilling done => some (done, a.chunk)
    | _ => none
  ctxLen := seq.ctxLen

/-- The device before a step. -/
def device (s : Scheduler σ) (stepId : ℕ) : Device σ :=
  ⟨s.eventChain.beginStep stepId, s.graphCache, s.arena.reset, false⟩

/-- Checks what the device reports. -/
def checkSample (s : Scheduler σ) (seq : Sequence) (x : StepContext) (captured : Bool)
    (sample : DeviceStepSample) : Stepped σ :=
  if sample.stepId ≠ x.admission.nextStep then
    s.failStep seq (.staleStep (some x.admission.nextStep) sample.stepId)
  else if sample.acceptLen ≠ expectedAccept seq x.admission then
    s.failStep seq (acceptMismatch seq x.admission sample)
  else s.postStep seq x captured sample

/-- Lets the device execute the step. -/
def stepDevice (s : Scheduler σ) (seq : Sequence) (x : StepContext) (r : SlotRange)
    (exec : StepExecutor) : Stepped σ :=
  let a := x.admission
  let s := { s with inFlight := some ⟨a.nextStep, seq.seqId, r⟩ }
  let out := (deviceChain s.registry exec (s.stepInputs seq a r) (s.stepKey a)).run
    (s.device a.nextStep)
  let s := { s with eventChain := out.2.chain, graphCache := out.2.cache, arena := out.2.arena }
  match out.1 with
  | .error e => s.failStep seq e
  | .ok sample => s.checkSample seq x out.2.captured sample

/-! ### Before the device -/

/-- A prefill chunk must be a part of the prompt. -/
def checkSlice (seq : Sequence) (a : Admission) : SchedResult Unit :=
  if a.isDecode then pure ()
  else
    match seq.phase with
    | .prefilling done =>
      match add 64 done a.chunk with
      | some stop =>
        ensure (stop ≤ seq.req.tokens.length) (.overflow "slice_end" "prefill slice out of bounds")
      | none => .error (.overflow "slice_end" "prefill slice out of bounds")
    | _ => .error (.internal "prefill step without Prefilling phase")

/-- Fills the batch of the reserved positions, and takes the id of the step. -/
def stepReserved (s : Scheduler σ) (seq : Sequence) (x : StepContext) (r : SlotRange)
    (exec : StepExecutor) : Stepped σ :=
  match checkSlice seq x.admission with
  | .error e => s.failStep seq e
  | .ok () =>
    match s.stateManager.fillBatchMeta [seq.seqId] [x.admission.reserveN] none
        s.batchWorkspace with
    | .error e => s.failStep seq (.state e)
    | .ok ws =>
      { s with batchWorkspace := ws, stepCounter := x.admission.nextStep }.stepDevice seq x r exec

/-- There are not enough blocks: a decode step pauses its sequence, and a prompt
waits. -/
def stepStalled (s : Scheduler σ) (seq : Sequence) (x : StepContext) : Stepped σ :=
  if x.admission.isDecode then
    (.ok none, { s with pendingPauseReport := some seq.seqId, paused := some seq })
  else
    match seq.wait x.budgetMs with
    | none => (.error (.err waitOverflow), s.restore seq)
    | some seq => (.ok none, s.restore seq)

/-- Reserves the positions of a step. -/
def stepReserve (s : Scheduler σ) (seq : Sequence) (x : StepContext) (exec : StepExecutor) :
    Stepped σ :=
  match s.stateManager.reserve seq.seqId x.admission.reserveN with
  | (.ok r, m) => { s with stateManager := m }.stepReserved seq x r exec
  | (.error (.err (.poolExhausted ..)), m) => { s with stateManager := m }.stepStalled seq x
  | (.error e, m) => (.error (liftState e), { s with stateManager := m }.restore seq)

/-- A forced admission counts as a wait. -/
def stepAdmitted (s : Scheduler σ) (seq : Sequence) (x : StepContext) (exec : StepExecutor) :
    Stepped σ :=
  if x.admission.forced then
    match seq.wait x.budgetMs with
    | none => (.error (.err waitOverflow), s.restore seq)
    | some seq => s.stepReserve seq x exec
  else s.stepReserve seq x exec

/-- Follows the plan for a sequence. -/
def stepPlanned (s : Scheduler σ) (seq : Sequence) (plan : AdmissionPlan)
    (budget preStep : Float32) (exec : StepExecutor) : Stepped σ :=
  match plan with
  | .wait =>
    match seq.wait budget with
    | none => (.error (.err waitOverflow), s.restore seq)
    | some seq => (.ok none, s.restore seq)
  | .decode bucket cost next =>
    s.stepAdmitted seq ⟨⟨0, false, bucket, cost, next, true⟩, budget, preStep⟩ exec
  | .prefill chunk forced bucket cost next =>
    s.stepAdmitted seq ⟨⟨chunk, forced, bucket, cost, next, false⟩, budget, preStep⟩ exec

/-- A step of the sequence that was taken from the active slot. -/
def stepSeq (s : Scheduler σ) (seq : Sequence) (budget preStep : Float32) (exec : StepExecutor) :
    Stepped σ :=
  match seq.phase with
  | .queued | .finished _ => (.ok none, s.restore seq)
  | _ =>
    match s.planAdmission seq budget preStep with
    | .error e => (.error (.err e), s.restore seq)
    | .ok plan => s.stepPlanned seq plan budget preStep exec

/-- Fills the active slot: from the pause, or from the front of the queue. -/
def promote (s : Scheduler σ) : Scheduler σ :=
  match s.active, s.paused, s.queued with
  | some _, _, _ => s
  | none, some seq, _ => { s with paused := none, active := some seq }
  | none, none, seq :: queued =>
    { s with queued, active := some { seq with phase := .prefilling 0 } }
  | none, none, [] => s

/-- Executes one step. -/
def step (s : Scheduler σ) (exec : StepExecutor) : Stepped σ :=
  if s.isIdle then (.ok none, s)
  else
    match s.costTable.resolveBudgetMs s.config.stepBudgetMs s.config.profile with
    | .error e => (.error (.err e), s)
    | .ok budget =>
      let s := s.promote
      match s.active with
      | none => (.ok none, s)
      | some seq =>
        { s with active := none }.stepSeq seq budget (estimatePreStepMs budget) exec

end Scheduler

end R9v

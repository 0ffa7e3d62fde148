import R9v.Sched.Invariant

/-!
# What a step can do

A step of the scheduler has many early returns. They are sorted out here once
(`Scheduler.step_cases`): a step changes nothing, or it lets the sequence wait, or it
fails after the reservation and leaves the manager with a commit of no tokens
(`StepCase.failed`), or it commits (`StepCase.committed`), or it panics. Everything
that holds of a step is read off from there.
-/

namespace R9v

open Checked StateManager

/-! ### The launch of a step -/

/-- What a step hands to its device phase. -/
structure Launch (σ : Type) where
  sched : Scheduler σ
  seq : Sequence
  context : StepContext
  range : SlotRange

/-- The context of a plan that admits something. -/
def AdmissionPlan.context (plan : AdmissionPlan) (budgetMs preStepMs : Float32) :
    Option StepContext :=
  match plan with
  | .wait => none
  | .decode bucket cost next => some ⟨⟨0, false, bucket, cost, next, true⟩, budgetMs, preStepMs⟩
  | .prefill chunk forced bucket cost next =>
    some ⟨⟨chunk, forced, bucket, cost, next, false⟩, budgetMs, preStepMs⟩

namespace Scheduler

/-- The launch after a reservation. -/
def launchReserved (s : Scheduler σ) (seq : Sequence) (x : StepContext) : Option (Launch σ) :=
  match s.stateManager.reserve seq.seqId x.admission.reserveN with
  | (.ok range, m) =>
    match checkSlice seq x.admission with
    | .error _ => none
    | .ok () =>
      match m.fillBatchMeta [seq.seqId] [x.admission.reserveN] none s.batchWorkspace with
      | .error _ => none
      | .ok ws =>
        let sched := { s with
          stateManager := m, batchWorkspace := ws, stepCounter := x.admission.nextStep }
        some ⟨sched, seq, x, range⟩
  | _ => none

/-- The launch of an admission. -/
def launchAdmitted (s : Scheduler σ) (seq : Sequence) (x : StepContext) : Option (Launch σ) :=
  if x.admission.forced then (seq.wait x.budgetMs).bind fun seq => s.launchReserved seq x
  else s.launchReserved seq x

/-- The launch of a step of the sequence that was taken from the active slot. -/
def launchSeq (s : Scheduler σ) (seq : Sequence) (budget preStep : Float32) : Option (Launch σ) :=
  match seq.phase with
  | .queued | .finished _ => none
  | _ =>
    match s.planAdmission seq budget preStep with
    | .error _ => none
    | .ok plan => (plan.context budget preStep).bind (s.launchAdmitted seq)

/-- The launch of the next step, if it comes to one. It does not depend on the
executor. -/
def launch (s : Scheduler σ) : Option (Launch σ) :=
  if s.isIdle then none
  else
    match s.costTable.resolveBudgetMs s.config.stepBudgetMs s.config.profile with
    | .error _ => none
    | .ok budget =>
      match s.promote.active with
      | none => none
      | some seq =>
        { s.promote with active := none }.launchSeq seq budget (estimatePreStepMs budget)

end Scheduler

/-- The id of the step. -/
def Launch.stepId (l : Launch σ) : ℕ := l.context.admission.nextStep

/-- The device phase of a launch: what it returns, and what it has changed. -/
def Launch.device (l : Launch σ) (exec : StepExecutor) : SchedResult DeviceStepSample × Device σ :=
  let a := l.context.admission
  (deviceChain l.sched.registry exec (l.sched.stepInputs l.seq a l.range) (l.sched.stepKey a)).run
    (l.sched.device a.nextStep)

/-- The token that the device phase of a launch hands to the detokenizer, if it does. -/
def Launch.sampled (l : Launch σ) (exec : StepExecutor) : Option ℕ :=
  let a := l.context.admission
  match (l.device exec).1 with
  | .error _ => none
  | .ok sample =>
    if sample.stepId = a.nextStep ∧ sample.acceptLen = Scheduler.expectedAccept l.seq a ∧
        Scheduler.isIntermediate l.seq a = false then some sample.token
    else none

section Launch

variable {s : Scheduler σ} {seq : Sequence} {x : StepContext} {budget preStep : Float32}

/-- The outcome of a step, when it is known whether it launches. -/
def Launches (l : Option (Launch σ)) (f : StepExecutor → Stepped σ) : Prop :=
  match l with
  | some l => ∀ exec, f exec = l.sched.stepDevice l.seq l.context l.range exec
  | none => ∀ exec exec', f exec = f exec'

theorem Scheduler.launchReserved_spec :
    Launches (s.launchReserved seq x) fun exec => s.stepReserve seq x exec := by
  rcases hres : s.stateManager.reserve seq.seqId x.admission.reserveN with ⟨e | range, m⟩
  · simp only [Scheduler.launchReserved, hres]
    intro exec exec'
    simp only [Scheduler.stepReserve, hres]
    cases e with
    | panic => rfl
    | err e => cases e <;> rfl
  · rcases hslice : Scheduler.checkSlice seq x.admission with e | u
    · simp only [Scheduler.launchReserved, hres, hslice]
      intro exec exec'
      simp only [Scheduler.stepReserve, Scheduler.stepReserved, hres, hslice]
    · rcases hfill : m.fillBatchMeta [seq.seqId] [x.admission.reserveN] none s.batchWorkspace
        with e | ws
      · simp only [Scheduler.launchReserved, hres, hslice, hfill]
        intro exec exec'
        simp only [Scheduler.stepReserve, Scheduler.stepReserved, hres, hslice, hfill]
      · simp only [Scheduler.launchReserved, hres, hslice, hfill]
        intro exec
        simp only [Scheduler.stepReserve, Scheduler.stepReserved, hres, hslice, hfill]

theorem Scheduler.launchAdmitted_spec :
    Launches (s.launchAdmitted seq x) fun exec => s.stepAdmitted seq x exec := by
  unfold Scheduler.launchAdmitted Scheduler.stepAdmitted
  split
  · cases seq.wait x.budgetMs with
    | none => exact fun exec exec' => rfl
    | some seq => exact Scheduler.launchReserved_spec
  · exact Scheduler.launchReserved_spec

theorem Scheduler.launchSeq_spec :
    Launches (s.launchSeq seq budget preStep) fun exec => s.stepSeq seq budget preStep exec := by
  have hplanned : ∀ plan, Launches ((plan.context budget preStep).bind (s.launchAdmitted seq))
      fun exec => s.stepPlanned seq plan budget preStep exec := by
    intro plan
    cases plan with
    | wait =>
      intro exec exec'
      simp only [Scheduler.stepPlanned]
    | decode b c next => exact Scheduler.launchAdmitted_spec
    | prefill chunk forced b c next => exact Scheduler.launchAdmitted_spec
  have hstarted : Launches
      (match s.planAdmission seq budget preStep with
        | .error _ => none
        | .ok plan => (plan.context budget preStep).bind (s.launchAdmitted seq))
      fun exec =>
        match s.planAdmission seq budget preStep with
        | .error e => (.error (.err e), s.restore seq)
        | .ok plan => s.stepPlanned seq plan budget preStep exec := by
    cases s.planAdmission seq budget preStep with
    | error e => exact fun exec exec' => rfl
    | ok plan => exact hplanned plan
  cases hph : seq.phase with
  | queued =>
    simp only [Scheduler.launchSeq, Scheduler.stepSeq, hph]
    exact fun exec exec' => rfl
  | prefilling done =>
    simp only [Scheduler.launchSeq, Scheduler.stepSeq, hph]
    exact hstarted
  | decoding =>
    simp only [Scheduler.launchSeq, Scheduler.stepSeq, hph]
    exact hstarted
  | finished reason =>
    simp only [Scheduler.launchSeq, Scheduler.stepSeq, hph]
    exact fun exec exec' => rfl

/-- **A step is its launch and the device phase**; a step that does not launch does
not depend on the executor. -/
theorem Scheduler.launch_spec (s : Scheduler σ) : Launches s.launch s.step := by
  unfold Scheduler.launch Scheduler.step
  split
  · exact fun exec exec' => rfl
  · cases s.costTable.resolveBudgetMs s.config.stepBudgetMs s.config.profile with
    | error e => exact fun exec exec' => rfl
    | ok budget =>
      simp only
      cases s.promote.active with
      | none => exact fun exec exec' => rfl
      | some seq => exact Scheduler.launchSeq_spec

end Launch

/-! ### Planning -/

/-- The sequence after a step that it had to wait; the wait may not be counted. -/
def Sequence.Waited (seq seq' : Sequence) : Prop :=
  seq' = { seq with waitSteps := seq'.waitSteps, accumulatedWaitMs := seq'.accumulatedWaitMs }

/-- What is known of an admission that was planned. -/
structure Planned (s : Scheduler σ) (seq : Sequence) (a : Admission) : Prop where
  next_eq : a.nextStep = s.stepCounter + 1
  next_lt : a.nextStep < 2 ^ 64
  chunk_le : a.chunk ≤ 4096
  bucket : ∃ b, a.bucket = (1, 1, b) ∧ (b = 0 ∨ b ∈ bucketSizes)
  kind : (seq.phase = .decoding ∧ a.isDecode = true ∧ a.chunk = 0) ∨
    (seq.phase = .prefilling seq.ctxLen ∧ a.isDecode = false ∧ 1 ≤ a.chunk ∧
      seq.ctxLen + a.chunk ≤ seq.promptLen ∧ a.chunk ≤ s.config.prefillMaxChunk)

section Plan

variable {s : Scheduler σ} {seq seq' : Sequence} {budget preStep : Float32} {exec : StepExecutor}

theorem Sequence.wait_waited (h : seq.wait budget = some seq') : seq.Waited seq' := by
  obtain ⟨n, -, rfl⟩ := Option.map_eq_some_iff.mp h
  rfl

theorem price_eq_ok {chunk : ℕ} {b : ℕ × ℕ × ℕ} {cost : Float32}
    (h : s.price chunk = .ok (b, cost)) :
    chunk ≤ 4096 ∧ ∃ b', b = (1, 1, b') ∧ (b' = 0 ∨ b' ∈ bucketSizes) := by
  simp only [Scheduler.price, bind_eq_ok, pure_eq_ok, Prod.mk.injEq] at h
  obtain ⟨b, hb, _, -, rfl, -⟩ := h
  rcases bucketStep_one_cases chunk with ⟨hle, b', hb', hmem⟩ | ⟨-, e, he⟩
  · rw [hb'] at hb
    cases hb
    exact ⟨hle, b', rfl, hmem⟩
  · rw [he] at hb
    cases hb

theorem chooseChunk_bounds (hc : s.config.problems = []) {remaining chunk : ℕ} {forced : Bool}
    (hrem : 1 ≤ remaining)
    (h : s.chooseChunk seq remaining budget preStep = .ok (some (chunk, forced))) :
    1 ≤ chunk ∧ chunk ≤ remaining ∧ chunk ≤ s.config.prefillMaxChunk := by
  obtain ⟨hmin, hle⟩ := SchedulerConfig.chunk_bounds hc
  simp only [Scheduler.chooseChunk, bind_eq_ok] at h
  obtain ⟨room, -, c, hsel, h⟩ := h
  cases c with
  | some c =>
    obtain ⟨rfl, -⟩ := h
    obtain ⟨h₁, h₂, h₃, -⟩ := CostTable.selectPrefillChunk_bounds hmin hle hsel
    exact ⟨h₁, h₂, h₃⟩
  | none =>
    simp only at h
    split at h
    · obtain ⟨rfl, -⟩ := h
      omega
    · simp at h

/-- **What is admitted is planned.** -/
theorem Scheduler.planAdmission_planned (hc : s.config.problems = []) (hphase : seq.InPhase)
    {plan : AdmissionPlan} (hplan : s.planAdmission seq budget preStep = .ok plan)
    {x : StepContext} (hx : plan.context budget preStep = some x) : Planned s seq x.admission := by
  cases hph : seq.phase with
  | queued => simp [Scheduler.planAdmission, hph, bind_eq_ok] at hplan
  | finished reason => simp [Scheduler.planAdmission, hph, bind_eq_ok] at hplan
  | prefilling done =>
    simp only [Sequence.InPhase, hph] at hphase
    obtain ⟨rfl, hlt, -⟩ := hphase
    simp only [Scheduler.planAdmission, hph, Scheduler.planPrefill, bind_eq_ok, okOr_eq_ok,
      add_eq_some, sub_eq_some] at hplan
    obtain ⟨_, ⟨hnext, rfl⟩, _, ⟨-, rfl⟩, choice, hchoice, hplan⟩ := hplan
    cases choice with
    | none =>
      simp only [pure_eq_ok] at hplan
      subst hplan
      cases hx
    | some choice =>
      simp only [bind_eq_ok, pure_eq_ok] at hplan
      obtain ⟨⟨b, cost⟩, hprice, rfl⟩ := hplan
      obtain ⟨h₁, h₂, h₃⟩ := chooseChunk_bounds hc (by omega) hchoice
      obtain ⟨hle, hb⟩ := price_eq_ok hprice
      cases hx
      exact ⟨rfl, hnext, hle, hb, Or.inr ⟨hph, rfl, h₁, by simp only; omega, h₃⟩⟩
  | decoding =>
    simp only [Scheduler.planAdmission, hph, bind_eq_ok, okOr_eq_ok, add_eq_some,
      pure_eq_ok] at hplan
    obtain ⟨_, ⟨hnext, rfl⟩, ⟨b, cost⟩, hprice, rfl⟩ := hplan
    obtain ⟨-, hb⟩ := price_eq_ok hprice
    cases hx
    exact ⟨rfl, hnext, Nat.zero_le _, hb, Or.inl ⟨hph, rfl, rfl⟩⟩

theorem Scheduler.stepSeq_started (hphase : seq.InPhase) (hstart : seq.phase ≠ .queued) :
    s.launchSeq seq budget preStep =
      (match s.planAdmission seq budget preStep with
        | .error _ => none
        | .ok plan => (plan.context budget preStep).bind (s.launchAdmitted seq)) ∧
    s.stepSeq seq budget preStep exec =
      match s.planAdmission seq budget preStep with
      | .error e => (.error (.err e), s.restore seq)
      | .ok plan => s.stepPlanned seq plan budget preStep exec := by
  cases hph : seq.phase with
  | queued => exact absurd hph hstart
  | finished reason => simp [Sequence.InPhase, hph] at hphase
  | prefilling done =>
    constructor
    · simp only [Scheduler.launchSeq, hph]
    · simp only [Scheduler.stepSeq, hph]
      all_goals rfl
  | decoding =>
    constructor
    · simp only [Scheduler.launchSeq, hph]
    · simp only [Scheduler.stepSeq, hph]
      all_goals rfl

/-- **What the plan of a step leads to**: an error, a wait, or an admission. -/
theorem Scheduler.stepSeq_cases (hc : s.config.problems = []) (hphase : seq.InPhase)
    (hstart : seq.phase ≠ .queued) :
    (s.launchSeq seq budget preStep = none ∧
      ((∃ e, s.stepSeq seq budget preStep exec = (.error (.err e), s.restore seq)) ∨
      ∃ seq', seq.Waited seq' ∧
        s.stepSeq seq budget preStep exec = (.ok none, s.restore seq'))) ∨
    ∃ x seq', Planned s seq x.admission ∧ seq.Waited seq' ∧
      s.launchSeq seq budget preStep = s.launchReserved seq' x ∧
      s.stepSeq seq budget preStep exec = s.stepReserve seq' x exec := by
  obtain ⟨hlaunch, hstep⟩ := @Scheduler.stepSeq_started _ s seq budget preStep exec hphase hstart
  rw [hlaunch, hstep]
  rcases hplan : s.planAdmission seq budget preStep with e | plan
  · exact Or.inl ⟨rfl, Or.inl ⟨e, rfl⟩⟩
  · have hallowed : ∀ x, plan.context budget preStep = some x →
        s.stepPlanned seq plan budget preStep exec = s.stepAdmitted seq x exec := by
      intro x hx
      cases plan <;> cases hx <;> rfl
    cases hx : plan.context budget preStep with
    | none =>
      obtain rfl : plan = .wait := by cases plan <;> cases hx; rfl
      refine Or.inl ⟨rfl, ?_⟩
      simp only [Scheduler.stepPlanned]
      cases hwait : seq.wait budget with
      | none => exact Or.inl ⟨_, rfl⟩
      | some seq' => exact Or.inr ⟨seq', Sequence.wait_waited hwait, rfl⟩
    | some x =>
      have hp := Scheduler.planAdmission_planned hc hphase hplan hx
      simp only [hallowed x hx, hx, Option.bind_some]
      unfold Scheduler.stepAdmitted Scheduler.launchAdmitted
      split
      · cases hwait : seq.wait x.budgetMs with
        | none => exact Or.inl ⟨rfl, Or.inl ⟨_, rfl⟩⟩
        | some seq' => exact Or.inr ⟨x, seq', hp, Sequence.wait_waited hwait, rfl, rfl⟩
      · exact Or.inr ⟨x, seq, hp, rfl, rfl, rfl⟩

end Plan

/-! ### Failing -/

section Fail

variable {s : Scheduler σ} {seq before : Sequence} {m : StateManager} {st : SeqState} {n : ℕ}

/-- **A step that fails after its reservation** gives the reservation up. -/
theorem Scheduler.failStep_eq (hres : Reserving m s.stateManager seq.seqId st n)
    (hcommits : m.commits + 1 < 2 ^ 64) (hswaps : m.swaps + 1 < 2 ^ 64) (e : SchedError) :
    ∃ m₂, Cycled m m₂ seq.seqId st 0 ∧ s.failStep seq e =
      (.error (.err e), { s with active := some seq, inFlight := none, stateManager := m₂ }) := by
  obtain ⟨s₁, hs₁, -, htail, -⟩ := hres.seq
  obtain ⟨m₂, hcommit, hcyc⟩ := hres.commit (Nat.zero_le n) hcommits hswaps
  refine ⟨m₂, hcyc, ?_⟩
  have hlen : s.stateManager.tailLen seq.seqId = .ok n := by
    simp [StateManager.tailLen, StateManager.seq, hs₁, htail, Functor.map, Except.map]
  have hpos : 0 < n := hres.pos
  simp only [Scheduler.failStep, hlen, if_pos hpos, hcommit]

theorem Sequence.rollbackAppend_self (seq : Sequence) (phase : SequencePhase) :
    { Sequence.rollbackAppend { seq with phase } seq with phase := seq.phase } = seq := by
  simp [Sequence.rollbackAppend]

end Fail

/-! ### After the device -/

/-- How a sequence takes over what the device has computed: the token that it is
handed, the sequence and the detokenizer after it, the phase to come, and the report. -/
inductive Took (seq : Sequence) (d : ByteDetokenizer) (a : Admission) :
    Option ℕ → Sequence → ByteDetokenizer → SequencePhase → Scheduler.Report → Prop
  | chunk (phase : seq.phase = .prefilling seq.ctxLen) (isDecode : a.isDecode = false)
      (lt : seq.ctxLen + a.chunk < seq.promptLen) :
      Took seq d a none seq d (.prefilling (seq.ctxLen + a.chunk)) ⟨[], 0, none⟩
  | token {app : Sequence} {d' : ByteDetokenizer} {finish : Option FinishReason} {trimmed : Bool}
      (sample : DeviceStepSample) (acceptLen : sample.acceptLen = 1)
      (ready : (seq.phase = .decoding ∧ a.isDecode = true) ∨
        (seq.phase = .prefilling seq.ctxLen ∧ a.isDecode = false ∧
          seq.ctxLen + a.chunk = seq.promptLen))
      (append : { seq with phase := .decoding }.appendGeneratedToken sample.token d =
        (.ok (finish, trimmed), app, d')) :
      Took seq d a (some sample.token) app d' .decoding
        (Scheduler.report seq.seqId sample finish trimmed)

/-- The sequence that a committed step leaves. -/
def Sequence.advance (app : Sequence) (a : Admission) (phase : SequencePhase) (acceptLen : ℕ) :
    Sequence :=
  { app with
    ctxLen := app.ctxLen + a.reserveN
    phase
    acceptEma :=
      if a.isDecode then 0.8 * app.acceptEma + 0.2 * (UInt32.ofNat acceptLen).toFloat32
      else app.acceptEma }

/-- The result of a step. -/
def Scheduler.resultOf (s : Scheduler σ) (k : SeqId) (x : StepContext) (captured : Bool)
    (r : Scheduler.Report) : StepResult :=
  let a := x.admission
  { step :=
      { stepId := a.nextStep
        seqsDecode := if a.isDecode then [k] else []
        seqsPrefill := if a.isDecode then [] else [(k, a.chunk)]
        k := [0]
        bucket := a.bucket
        graphs := [s.stepKey a] }
    stepId := a.nextStep
    bucket := a.bucket
    acceptedTokens := r.accepted
    finishedSequences := r.finish.toList.map (k, ·)
    record := s.recordOf x r.acceptLen captured }

/-- The part of the scheduler that a step has changed before it takes over what the
device has computed. -/
structure Ran (σ : Type) where
  batchWorkspace : BatchWorkspace
  eventChain : StepEventChain
  graphCache : GraphCache σ
  arena : WorkspaceArena

/-- A scheduler after its device has run a step. -/
def Scheduler.ran (s : Scheduler σ) (w : Ran σ) (next : ℕ) : Scheduler σ :=
  { s with
    batchWorkspace := w.batchWorkspace
    eventChain := w.eventChain
    graphCache := w.graphCache
    arena := w.arena
    stepCounter := next
    inFlight := none }

/-- Why a step has failed: the device phase has, or the detokenizer rejected the
token. -/
def Cause (seq : Sequence) (d d' : ByteDetokenizer) (tok : Option ℕ) (e : SchedError) : Prop :=
  (tok = none ∧ d' = d) ∨ ∃ token, tok = some token ∧
    d.appendToken seq.seqId token seq.detokenizedTail = (.error e, d', seq.detokenizedTail)

/-- **What a step of the active sequence can do**: the id under which it launches, the
token that it hands to the detokenizer, and its outcome. -/
inductive StepCase (s : Scheduler σ) (seq : Sequence) (st : SeqState) :
    Option ℕ → Option ℕ → Stepped σ → Prop
  /-- It fails, or the sequence has to wait, before there is a reservation. -/
  | waited {r : SchedOutcome (Option StepResult)} {seq' : Sequence} (wait : seq.Waited seq')
      (reply : r = .ok none ∨ ∃ e, r = .error (.err e)) :
      StepCase s seq st none none (r, { s with active := some seq' })
  /-- It fails after the reservation, which is given up. -/
  | failed {tok : Option ℕ} {a : Admission} {seq' : Sequence} {m' : StateManager}
      {d' : ByteDetokenizer} {w : Ran σ} (e : SchedError) (wait : seq.Waited seq')
      (plan : Planned s seq a) (cycled : Cycled s.stateManager m' seq.seqId st 0)
      (room : RoomFor w.batchWorkspace s.stateManager.groups.length s.stateManager.maxBlocks
        s.config.prefillMaxChunk)
      (cause : Cause seq s.detokenizer d' tok e) :
      StepCase s seq st (some a.nextStep) tok (.error (.err e),
        { s.ran w a.nextStep with active := some seq', stateManager := m', detokenizer := d' })
  /-- It commits, and the sequence goes on. -/
  | committed {tok : Option ℕ} {x : StepContext} {seq' app : Sequence} {m' : StateManager}
      {d' : ByteDetokenizer} {w : Ran σ} {phase : SequencePhase} {r : Scheduler.Report}
      {log : ScheduleLogRing} (captured : Bool) (wait : seq.Waited seq')
      (plan : Planned s seq x.admission)
      (took : Took seq' s.detokenizer x.admission tok app d' phase r)
      (cycled : Cycled s.stateManager m' seq.seqId st x.admission.reserveN)
      (room : RoomFor w.batchWorkspace s.stateManager.groups.length s.stateManager.maxBlocks
        s.config.prefillMaxChunk)
      (push : s.scheduleLog.push (s.recordOf x r.acceptLen captured) = (.ok (), log))
      (goes_on : r.finish = none) :
      StepCase s seq st (some x.admission.nextStep) tok
        (.ok (some (s.resultOf seq.seqId x captured r)),
          { s.ran w x.admission.nextStep with
            active := some (app.advance x.admission phase r.acceptLen)
            stateManager := m'
            detokenizer := d'
            scheduleLog := log
            lastCommittedStep := some x.admission.nextStep })
  /-- It commits, and the sequence has finished. -/
  | finished {tok : Option ℕ} {x : StepContext} {seq' app : Sequence} {m' m'' : StateManager}
      {d' : ByteDetokenizer} {w : Ran σ} {phase : SequencePhase} {r : Scheduler.Report}
      {log : ScheduleLogRing} {reason : FinishReason} (captured : Bool) (wait : seq.Waited seq')
      (plan : Planned s seq x.admission)
      (took : Took seq' s.detokenizer x.admission tok app d' phase r)
      (cycled : Cycled s.stateManager m' seq.seqId st x.admission.reserveN)
      (free : m'.freeSeq seq.seqId = (.ok (), m''))
      (room : RoomFor w.batchWorkspace s.stateManager.groups.length s.stateManager.maxBlocks
        s.config.prefillMaxChunk)
      (push : s.scheduleLog.push (s.recordOf x r.acceptLen captured) = (.ok (), log))
      (finish : r.finish = some reason) :
      StepCase s seq st (some x.admission.nextStep) tok
        (.ok (some (s.resultOf seq.seqId x captured r)),
          { s.ran w x.admission.nextStep with
            active := none
            stateManager := m''
            detokenizer := d'.reset seq.seqId
            scheduleLog := log
            lastCommittedStep := some x.admission.nextStep
            finished := s.finished.insert seq.seqId (seq.req, app.generated, reason) })
  /-- It panics. -/
  | panicked {id tok : Option ℕ} (s' : Scheduler σ) : StepCase s seq st id tok (.error .panic, s')

/-- What is known of a launch. -/
structure Launched (s : Scheduler σ) (seq : Sequence) (st : SeqState) (l : Launch σ) : Prop where
  wait : seq.Waited l.seq
  plan : Planned s seq l.context.admission
  reserving : Reserving s.stateManager l.sched.stateManager seq.seqId st
    l.context.admission.reserveN
  sched_eq : l.sched = { s with
    active := none, stateManager := l.sched.stateManager,
    batchWorkspace := l.sched.batchWorkspace, stepCounter := l.context.admission.nextStep }
  room : RoomFor l.sched.batchWorkspace s.stateManager.groups.length s.stateManager.maxBlocks
    s.config.prefillMaxChunk

/-- The scheduler of a launch while its device phase is over and its reservation is
still open. -/
def Launch.open (l : Launch σ) (s : Scheduler σ) (w : Ran σ) (d : ByteDetokenizer)
    (flight : Option InFlightStep) : Scheduler σ :=
  { s.ran w l.context.admission.nextStep with
    active := none, stateManager := l.sched.stateManager, detokenizer := d, inFlight := flight }

section Post

variable {s : Scheduler σ} {seq app back : Sequence} {st : SeqState} {l : Launch σ} {w : Ran σ}
  {d' : ByteDetokenizer} {f : Option InFlightStep} {tok : Option ℕ} {e : SchedError}
  {phase : SequencePhase} {r : Scheduler.Report}

theorem Launched.counters (h : SchedInv s) (hl : Launched s seq st l) :
    s.stateManager.commits + 1 < 2 ^ 64 ∧ s.stateManager.swaps + 1 < 2 ^ 64 ∧
      s.scheduleLog.totalWritten + 1 < 2 ^ 64 := by
  have h₁ := h.commits
  have h₂ := h.swaps
  have h₃ := h.written
  have h₄ := hl.plan.next_eq
  have h₅ := hl.plan.next_lt
  omega

theorem Launched.seqId_eq (hl : Launched s seq st l) : l.seq.seqId = seq.seqId := by rw [hl.wait]

theorem Launched.fail (h : SchedInv s) (hl : Launched s seq st l)
    (hw : w.batchWorkspace = l.sched.batchWorkspace) (hcause : Cause seq s.detokenizer d' tok e) :
    StepCase s seq st (some l.context.admission.nextStep) tok
      ((l.open s w d' f).failStep l.seq e) := by
  obtain ⟨hcommits, hswaps, -⟩ := hl.counters h
  have hres : Reserving s.stateManager (l.open s w d' f).stateManager l.seq.seqId st
      l.context.admission.reserveN := by
    rw [hl.seqId_eq]
    exact hl.reserving
  obtain ⟨m₂, hcyc, heq⟩ := Scheduler.failStep_eq hres hcommits hswaps e
  rw [hl.seqId_eq] at hcyc
  rw [heq]
  exact .failed e hl.wait hl.plan hcyc (hw ▸ hl.room) hcause

theorem SchedInv.push (h : SchedInv s) (hw : s.scheduleLog.totalWritten + 1 < 2 ^ 64)
    (record : ScheduleRecord) : ∃ log, s.scheduleLog.push record = (.ok (), log) := by
  have hlt : s.scheduleLog.writeIdx < s.scheduleLog.buffer.length := by
    rw [h.log.2]
    exact h.log.1
  simp only [ScheduleLogRing.push, add_of_lt hw, if_pos hlt]
  exact ⟨_, rfl⟩

theorem Launched.stop_lt (hl : Launched s seq st l) (hctx : st.ctxLen = seq.ctxLen) :
    seq.ctxLen + l.context.admission.reserveN < 2 ^ 32 := by
  obtain ⟨H₁, h₁⟩ := hl.reserving.exists_inv
  obtain ⟨s₁, hs₁, hctx₁, htail, -⟩ := hl.reserving.seq
  have h₂ := (h₁.seqs _ s₁ hs₁).tail_le
  have h₃ := (h₁.seqs _ s₁ hs₁).high_le
  have h₄ := h₁.shape.config.maxCtx_le
  simp only [maxCtxHard] at h₄
  omega

theorem Scheduler.logStep_eq (t : Scheduler σ) {k : SeqId} {x : StepContext} {captured : Bool}
    (log : ScheduleLogRing) {fin : List (SeqId × FinishReason)}
    (hfin : fin = r.finish.toList.map (k, ·)) (hreport : t.pendingPauseReport = none)
    (hpush : t.scheduleLog.push (t.recordOf x r.acceptLen captured) = (.ok (), log)) :
    t.logStep k x captured r fin =
      (.ok (some (t.resultOf k x captured r)), { t with scheduleLog := log }) := by
  subst hfin
  simp only [Scheduler.logStep, hpush]
  simp only [Scheduler.resultOf, Scheduler.stepKey, hreport]

theorem Launched.commit (h : SchedInv s) (hl : Launched s seq st l) (hctx : st.ctxLen = seq.ctxLen)
    (hw : w.batchWorkspace = l.sched.batchWorkspace)
    (htook : Took l.seq s.detokenizer l.context.admission tok app d' phase r)
    (hid : app.seqId = seq.seqId) (happ : app.ctxLen = seq.ctxLen) (hreq : app.req = seq.req)
    (captured : Bool) :
    StepCase s seq st (some l.context.admission.nextStep) tok
      ((l.open s w d' f).commitStep app back phase l.context captured r) ∧
    ∃ x, ((l.open s w d' f).commitStep app back phase l.context captured r).1 = .ok x := by
  obtain ⟨hcommits, hswaps, hwritten⟩ := hl.counters h
  obtain ⟨m₂, hcommit, hcyc⟩ := hl.reserving.commit le_rfl hcommits hswaps
  obtain ⟨log, hlog⟩ := h.push hwritten (s.recordOf l.context r.acceptLen captured)
  have hadd := add_of_lt (hl.stop_lt hctx)
  have hroom := hw ▸ hl.room
  unfold Scheduler.commitStep
  simp only [Launch.open, hid, hcommit, happ, hadd]
  unfold Scheduler.finishStep
  cases hfin : r.finish with
  | none =>
    have hcase := StepCase.committed captured hl.wait hl.plan htook hcyc hroom hlog hfin
    simp only [Sequence.advance, happ, hid] at hcase
    rw [Scheduler.logStep_eq _ log ?_ ?_ ?_]
    · exact ⟨hcase, _, rfl⟩
    · rw [hfin]
      rfl
    · exact h.report
    · exact hlog
  | some reason =>
    obtain ⟨H₂, h₂⟩ := hcyc.exists_inv
    obtain ⟨s₂, hs₂, -⟩ := hcyc.seq
    obtain ⟨m₃, hfree, -⟩ := freeSeq_ok h₂ hs₂
    have hcase := StepCase.finished captured hl.wait hl.plan htook hcyc hfree hroom hlog hfin
    simp only [hfree, hreq, Scheduler.tryUnpauseSequences, Scheduler.ran, h.paused]
    simp only [Scheduler.ran, h.paused] at hcase
    rw [Scheduler.logStep_eq _ log ?_ ?_ ?_]
    · exact ⟨hcase, _, rfl⟩
    · rw [hfin]
      rfl
    · exact h.report
    · exact hlog

/-- Whether a chunk leaves a part of the prompt, for a planned step. -/
theorem Launched.isIntermediate (hl : Launched s seq st l) (hctx : st.ctxLen = seq.ctxLen)
    (hphase : seq.phase = .prefilling seq.ctxLen) (hdec : l.context.admission.isDecode = false) :
    Scheduler.isIntermediate l.seq l.context.admission =
      decide (seq.ctxLen + l.context.admission.chunk < seq.promptLen) := by
  have hlt := hl.stop_lt hctx
  simp only [Admission.reserveN, hdec, Bool.false_eq_true, if_false] at hlt
  have hph : l.seq.phase = .prefilling seq.ctxLen := by rw [hl.wait]; exact hphase
  have hprompt : l.seq.promptLen = seq.promptLen := by rw [hl.wait]; rfl
  have hmin : min (seq.ctxLen + l.context.admission.chunk) u32Max =
      seq.ctxLen + l.context.admission.chunk := min_eq_left (by simp only [u32Max]; omega)
  simp only [Scheduler.isIntermediate, hph, hdec, hprompt, hmin, Bool.not_false, Bool.true_and]

theorem Launched.token (h : SchedInv s) (hl : Launched s seq st l) (hctx : st.ctxLen = seq.ctxLen)
    (hrun : Running s.stateManager s.detokenizer seq)
    (hw : w.batchWorkspace = l.sched.batchWorkspace) {sample : DeviceStepSample}
    (hacc : sample.acceptLen = 1)
    (ready : (l.seq.phase = .decoding ∧ l.context.admission.isDecode = true) ∨
      (l.seq.phase = .prefilling l.seq.ctxLen ∧ l.context.admission.isDecode = false ∧
        l.seq.ctxLen + l.context.admission.chunk = l.seq.promptLen)) (captured : Bool)
    (undo back : Sequence → Sequence) (hundo : undo { l.seq with phase := .decoding } = l.seq) :
    let r := match { l.seq with phase := .decoding }.appendGeneratedToken sample.token
        s.detokenizer with
      | (.error .panic, _, d) => (.error .panic, l.open s w d f)
      | (.error (.err e), seq', d) => (l.open s w d f).failStep (undo seq') e
      | (.ok (finish, trimmed), seq', d) =>
        (l.open s w d f).commitStep seq' (back seq') .decoding l.context captured
          (Scheduler.report l.seq.seqId sample finish trimmed)
    StepCase s seq st (some l.context.admission.nextStep) (some sample.token) r ∧
      ((∃ y, ({ l.seq with phase := .decoding }.appendGeneratedToken sample.token
        s.detokenizer).1 = .ok y) → ∃ x, r.1 = .ok x) := by
  have htext : ({ l.seq with phase := .decoding } : Sequence).TextOk s.detokenizer := by
    have := hrun.text
    rw [hl.wait]
    exact this
  have hgen : ({ l.seq with phase := .decoding } : Sequence).generated.length <
      ({ l.seq with phase := .decoding } : Sequence).req.maxTokens := by
    have := hrun.phase.generated_lt
    rw [hl.wait]
    exact this
  rcases Sequence.appendGeneratedToken_cases htext hgen sample.token with
    ⟨e, d', heq, hrej, -, -⟩ | ⟨⟨s', d', heq⟩, -⟩ | ⟨finish, trimmed, app, d', heq, -, -, happ, -⟩
  · rw [heq]
    simp only [hundo]
    refine ⟨hl.fail h hw (Or.inr ⟨sample.token, rfl, ?_⟩), by rintro ⟨y, hy⟩; cases hy⟩
    rw [hl.wait] at hrej
    exact hrej
  · rw [heq]
    exact ⟨.panicked _, by rintro ⟨y, hy⟩; cases hy⟩
  · rw [heq]
    have hid : app.seqId = seq.seqId := by rw [happ.same]; exact hl.seqId_eq
    have happctx : app.ctxLen = seq.ctxLen := by
      rw [happ.same, hl.wait]
    have hreq : app.req = seq.req := by
      rw [happ.same, hl.wait]
    obtain ⟨hcase, hok⟩ :=
      hl.commit h hctx hw (.token sample hacc ready heq) hid happctx hreq captured
    exact ⟨hcase, fun _ => hok⟩

/-- **After the device phase**: the step fails and gives up its reservation, or it
commits, or it panics. -/
theorem Launched.post (h : SchedInv s) (hl : Launched s seq st l) (hctx : st.ctxLen = seq.ctxLen)
    (hrun : Running s.stateManager s.detokenizer seq)
    (hw : w.batchWorkspace = l.sched.batchWorkspace) {sample : DeviceStepSample}
    (hacc : sample.acceptLen = Scheduler.expectedAccept l.seq l.context.admission)
    (captured : Bool) :
    StepCase s seq st (some l.context.admission.nextStep)
      (if Scheduler.isIntermediate l.seq l.context.admission = false then some sample.token
        else none)
      ((l.open s w s.detokenizer f).postStep l.seq l.context captured sample) ∧
    ((Scheduler.isIntermediate l.seq l.context.admission = true ∨
      ∃ y, ({ l.seq with phase := .decoding }.appendGeneratedToken sample.token
        s.detokenizer).1 = .ok y) →
      ∃ x, ((l.open s w s.detokenizer f).postStep l.seq l.context captured sample).1 = .ok x) := by
  have hlctx : l.seq.ctxLen = seq.ctxLen := by rw [hl.wait]
  have hprompt : l.seq.promptLen = seq.promptLen := by rw [hl.wait]; rfl
  rcases hl.plan.kind with ⟨hphase, hdec, hchunk⟩ | ⟨hphase, hdec, hpos, hle, hmax⟩
  · have hph : l.seq.phase = .decoding := by rw [hl.wait]; exact hphase
    have hinter : Scheduler.isIntermediate l.seq l.context.admission = false := by
      simp only [Scheduler.isIntermediate, hph]
    have hself : ({ l.seq with phase := .decoding } : Sequence) = l.seq := by rw [← hph]
    rw [Scheduler.expectedAccept, hinter] at hacc
    rw [hinter, if_pos rfl]
    simp only [Scheduler.postStep, hph, Scheduler.decodeToken]
    obtain ⟨hcase, hok⟩ := hl.token (f := f) h hctx hrun hw hacc (Or.inl ⟨hph, hdec⟩) captured id
      (·.rollbackAppend l.seq) hself
    rw [hself] at hcase hok ⊢
    exact ⟨hcase, fun hready => hok (hready.resolve_left (by simp))⟩
  · have hph : l.seq.phase = .prefilling seq.ctxLen := by rw [hl.wait]; exact hphase
    have hstop := hl.stop_lt hctx
    simp only [Admission.reserveN, hdec, Bool.false_eq_true, if_false] at hstop
    have hinter := hl.isIntermediate hctx hphase hdec
    simp only [Scheduler.postStep, hph, add_of_lt hstop, hprompt]
    by_cases hlast : seq.promptLen ≤ seq.ctxLen + l.context.admission.chunk
    · have hno : Scheduler.isIntermediate l.seq l.context.admission = false := by
        rw [hinter]
        simpa using hlast
      rw [Scheduler.expectedAccept, hno] at hacc
      rw [hno, if_pos rfl, if_pos hlast]
      obtain ⟨hcase, hok⟩ := hl.token (f := f) h hctx hrun hw hacc
        (Or.inr ⟨by rw [hph, hlctx], hdec, by omega⟩) captured
        (fun seq' => { seq'.rollbackAppend l.seq with phase := l.seq.phase })
        (fun seq' => { seq'.rollbackAppend l.seq with phase := l.seq.phase })
        (Sequence.rollbackAppend_self _ _)
      exact ⟨hcase, fun hready => hok (hready.resolve_left (by simp))⟩
    · have hyes : Scheduler.isIntermediate l.seq l.context.admission = true := by
        rw [hinter]
        simpa using hlast
      rw [hyes, if_neg (by simp), if_neg hlast]
      have hchunk := @Took.chunk l.seq s.detokenizer l.context.admission (by rw [hph, hlctx]) hdec
        (by omega)
      rw [hlctx] at hchunk
      obtain ⟨hcase, hok⟩ :=
        hl.commit h hctx hw hchunk hl.seqId_eq hlctx (by rw [hl.wait]) captured
      exact ⟨hcase, fun _ => hok⟩

/-- What the device phase leaves of the scheduler's own. -/
def Launch.ran (l : Launch σ) (exec : StepExecutor) : Ran σ :=
  ⟨l.sched.batchWorkspace, (l.device exec).2.chain, (l.device exec).2.cache, (l.device exec).2.arena⟩

/-- The scheduler during the device phase. -/
def Launch.during (l : Launch σ) (s : Scheduler σ) (exec : StepExecutor) : Scheduler σ :=
  l.open s (l.ran exec) s.detokenizer (some ⟨l.context.admission.nextStep, l.seq.seqId, l.range⟩)

theorem Launched.stepDevice_eq (hl : Launched s seq st l) (exec : StepExecutor) :
    l.sched.stepDevice l.seq l.context l.range exec =
      match (l.device exec).1 with
      | .error e => (l.during s exec).failStep l.seq e
      | .ok sample =>
        (l.during s exec).checkSample l.seq l.context (l.device exec).2.captured sample := by
  have hduring : ({ l.sched with
      inFlight := some ⟨l.context.admission.nextStep, l.seq.seqId, l.range⟩
      eventChain := (l.device exec).2.chain, graphCache := (l.device exec).2.cache
      arena := (l.device exec).2.arena } : Scheduler σ) = l.during s exec := by
    rw [hl.sched_eq]
    rfl
  rw [← hduring]
  rfl

/-- **What the device phase of a launch leads to.** -/
theorem Launched.stepDevice_case (h : SchedInv s) (hl : Launched s seq st l)
    (hctx : st.ctxLen = seq.ctxLen) (hrun : Running s.stateManager s.detokenizer seq)
    (exec : StepExecutor) :
    StepCase s seq st (some l.context.admission.nextStep) (l.sampled exec)
      (l.sched.stepDevice l.seq l.context l.range exec) := by
  rw [hl.stepDevice_eq]
  unfold Launch.sampled
  cases hout : (l.device exec).1 with
  | error e => exact hl.fail h rfl (Or.inl ⟨rfl, rfl⟩)
  | ok sample =>
    simp only [Scheduler.checkSample]
    by_cases hid : sample.stepId = l.context.admission.nextStep
    · by_cases hacc : sample.acceptLen = Scheduler.expectedAccept l.seq l.context.admission
      · simp only [ne_eq, hid, not_true, if_false, hacc, true_and]
        exact (hl.post h hctx hrun rfl hacc _).1
      · simp only [ne_eq, hid, not_true, if_false, hacc, not_false_eq_true, if_true, false_and,
          and_false]
        exact hl.fail h rfl (Or.inl ⟨rfl, rfl⟩)
    · simp only [ne_eq, hid, not_false_eq_true, if_true, false_and, if_false]
      exact hl.fail h rfl (Or.inl ⟨rfl, rfl⟩)

end Post

/-! ### The step -/

section Step

variable {s : Scheduler σ} {seq seq' : Sequence} {st : SeqState} {x : StepContext}

theorem Planned.checkSlice {H : SeqId → ℕ} {m : StateManager} (hm : Inv H m)
    (hprompt : seq.req.tokens.length ≤ m.config.maxCtx) (hp : Planned s seq x.admission)
    (hwait : seq.Waited seq') : Scheduler.checkSlice seq' x.admission = .ok () := by
  unfold Scheduler.checkSlice
  rcases hp.kind with ⟨-, hdec, -⟩ | ⟨hphase, hdec, -, hle, -⟩
  · rw [if_pos hdec]
    rfl
  · have hph : seq'.phase = .prefilling seq.ctxLen := by rw [hwait]; exact hphase
    have hreq : seq'.req = seq.req := by rw [hwait]
    obtain ⟨-, heq⟩ := promptLen_eq hm hprompt
    have hmax := hm.shape.config.maxCtx_le
    simp only [maxCtxHard] at hmax
    rw [if_neg (by simp [hdec])]
    simp only [hph, hreq, add_of_lt (show seq.ctxLen + x.admission.chunk < 2 ^ 64 by omega)]
    exact ensure_of (by omega)

theorem Planned.reserveN_bounds (hc : s.config.problems = []) (hp : Planned s seq x.admission) :
    1 ≤ x.admission.reserveN ∧ x.admission.reserveN ≤ s.config.prefillMaxChunk ∧
      x.admission.reserveN ≤ 4096 := by
  obtain ⟨hmin, hmax⟩ := SchedulerConfig.chunk_bounds hc
  have hle := hp.chunk_le
  unfold Admission.reserveN
  rcases hp.kind with ⟨-, hdec, -⟩ | ⟨-, hdec, hpos, -, hchunk⟩
  · rw [if_pos hdec]
    omega
  · rw [if_neg (by simp [hdec])]
    omega

/-- **The reservation of a planned step**: it is refused because it leaves the
context, or the step launches. -/
theorem SchedInv.stepReserve_cases (h : SchedInv s) (ha : s.active = some seq)
    (hst : s.stateManager.seqs[seq.seqId]? = some st) (hctx : st.ctxLen = seq.ctxLen)
    (htail : st.tailLen = 0) (hp : Planned s seq x.admission) (hwait : seq.Waited seq')
    (exec : StepExecutor) :
    ({ s with active := none }.launchReserved seq' x = none ∧
      ¬seq.ctxLen + x.admission.reserveN ≤ s.stateManager.config.maxCtx ∧
      ∃ e, { s with active := none }.stepReserve seq' x exec =
        (.error (.err e), { s with active := some seq' })) ∨
    ∃ l, { s with active := none }.launchReserved seq' x = some l ∧ Launched s seq st l ∧
      l.seq = seq' ∧ l.context = x ∧
      seq.ctxLen + x.admission.reserveN ≤ s.stateManager.config.maxCtx := by
  obtain ⟨H, hinv⟩ := h.exists_inv
  have hid : seq'.seqId = seq.seqId := by rw [hwait]
  have hrun := h.active seq ha
  obtain ⟨hpos, hmax, hbatch⟩ := hp.reserveN_bounds h.config
  rcases reserve_sole hinv h.full (h.soleHolder ha) hst htail x.admission.reserveN with
    ⟨-, hle, m₁, hres, hreserving⟩ | ⟨hno, e, hres, hex⟩
  · obtain ⟨ws, hfill, hroom⟩ := hreserving.fill_ok h.workspace hmax
      (hbatch.trans (by decide))
    let sched : Scheduler σ := { s with
      active := none, stateManager := m₁, batchWorkspace := ws, stepCounter := x.admission.nextStep }
    let range : SlotRange := ⟨seq.seqId, st.ctxLen, x.admission.reserveN⟩
    refine Or.inr ⟨⟨sched, seq', x, range⟩, ?_, ⟨hwait, hp, hreserving, rfl, hroom⟩, rfl, rfl, by omega⟩
    simp only [Scheduler.launchReserved, hid, hres, hp.checkSlice hinv hrun.prompt_le hwait, hfill,
      sched, range]
  · refine Or.inl ⟨?_, by omega, .state e, ?_⟩
    · simp only [Scheduler.launchReserved, hid, hres]
    · simp only [Scheduler.stepReserve, hid, hres]
      cases e <;> first | rfl | simp [StateError.isPoolExhausted] at hex

/-- **What a step of the active sequence can do.** -/
theorem SchedInv.stepSeq_case (h : SchedInv s) (ha : s.active = some seq) (budget preStep : Float32)
    (exec : StepExecutor) :
    ∃ st, s.stateManager.seqs[seq.seqId]? = some st ∧ st.ctxLen = seq.ctxLen ∧ st.tailLen = 0 ∧
      StepCase s seq st
        (({ s with active := none }.launchSeq seq budget preStep).map Launch.stepId)
        (({ s with active := none }.launchSeq seq budget preStep).bind (Launch.sampled · exec))
        ({ s with active := none }.stepSeq seq budget preStep exec) := by
  have hrun := h.active seq ha
  obtain ⟨st, hst, hctx, htail⟩ := hrun.follows
  refine ⟨st, hst, hctx, htail, ?_⟩
  rcases @Scheduler.stepSeq_cases σ { s with active := none } seq budget preStep exec h.config
    hrun.phase hrun.started with
    ⟨hnone, ⟨e, heq⟩ | ⟨seq', hwait, heq⟩⟩ | ⟨x, seq', hp, hwait, hlaunch, heq⟩
  · rw [hnone, heq]
    exact .waited rfl (Or.inr ⟨e, rfl⟩)
  · rw [hnone, heq]
    exact .waited hwait (Or.inl rfl)
  · have hp' : Planned s seq x.admission := ⟨hp.next_eq, hp.next_lt, hp.chunk_le, hp.bucket, hp.kind⟩
    rw [hlaunch]
    rcases h.stepReserve_cases ha hst hctx htail hp' hwait exec with
      ⟨hnone, -, e, hres⟩ | ⟨l, hsome, hl, -, -, -⟩
    · rw [hnone, heq, hres]
      exact .waited hwait (Or.inr ⟨e, rfl⟩)
    · have hspec := @Scheduler.launchReserved_spec σ { s with active := none } seq' x
      rw [hsome] at hspec
      have hdev : { s with active := none }.stepReserve seq' x exec =
          l.sched.stepDevice l.seq l.context l.range exec := hspec exec
      rw [hsome, heq, hdev]
      exact hl.stepDevice_case h hctx hrun exec

end Step

/-! ### Promotion -/

section Promote

variable {s : Scheduler σ}

theorem Scheduler.promote_following (s : Scheduler σ) (hpaused : s.paused = none) :
    s.promote.following.Perm s.following := by
  unfold Scheduler.promote
  split
  · exact List.Perm.refl _
  · rename_i hp
    simp [hpaused] at hp
  · rename_i hact _ hq
    simp only [Scheduler.following, hact, hq, hpaused]
    simp
  · exact List.Perm.refl _

/-- **Promotion keeps the invariant.** -/
theorem SchedInv.promote (h : SchedInv s) : SchedInv s.promote := by
  have hperm := s.promote_following h.paused
  obtain ⟨H, hinv⟩ := h.exists_inv
  rcases hact : s.active with _ | seq
  · rcases hq : s.queued with _ | ⟨q, rest⟩
    · have heq : s.promote = s := by
        simp only [Scheduler.promote, hact, h.paused, hq]
      rwa [heq]
    · have heq : s.promote =
          { s with queued := rest, active := some { q with phase := .prefilling 0 } } := by
        simp only [Scheduler.promote, hact, h.paused, hq]
      rw [heq] at hperm ⊢
      have hmem : q ∈ s.queued := by simp [hq]
      have hrest : ∀ seq ∈ rest, seq ∈ s.queued := fun seq hseq => by simp [hq, hseq]
      have harr := h.arrival
      rw [hq, List.map_cons, List.pairwise_cons] at harr
      constructor
      case live => exact fun k => (h.live k).trans hperm.mem_iff.symm
      case nodup => exact hperm.nodup_iff.mpr h.nodup
      case queued => exact fun seq hseq => h.queued seq (hrest seq hseq)
      case active =>
        rintro _ ⟨⟩
        exact (h.queued q hmem).promote hinv
      case finished =>
        intro k hk
        obtain ⟨hlt, hno⟩ := h.finished k hk
        exact ⟨hlt, fun hin => hno (hperm.mem_iff.mp hin)⟩
      case outstanding =>
        have := h.outstanding
        simp only [Scheduler.outstandingCount, hact, hq, h.paused] at this ⊢
        simp at this ⊢
        omega
      case arrival => exact harr.2
      case arrival_le => exact fun seq hseq => h.arrival_le seq (hrest seq hseq)
      case config => exact h.config
      case exists_inv => exact h.exists_inv
      case full => exact h.full
      case paused => exact h.paused
      case report => exact h.report
      case inFlight => exact h.inFlight
      case unborn => exact h.unborn
      case counter => exact h.counter
      case commits => exact h.commits
      case swaps => exact h.swaps
      case written => exact h.written
      case log => exact h.log
      case last => exact h.last
      case workspace => exact h.workspace
  · have heq : s.promote = s := by
      simp only [Scheduler.promote, hact]
    rwa [heq]

theorem Scheduler.promote_active (hidle : s.isIdle = false) : ∃ seq, s.promote.active = some seq := by
  unfold Scheduler.promote
  split
  · rename_i seq hact
    exact ⟨_, hact⟩
  · exact ⟨_, rfl⟩
  · exact ⟨_, rfl⟩
  · rename_i hact hpaused hq
    simp [Scheduler.isIdle, Scheduler.activeSequenceCount, hact, hpaused, hq] at hidle

/-- **What a step can do**: nothing, or one of the cases for the sequence that is
active after the promotion. -/
theorem SchedInv.step_cases (h : SchedInv s) (exec : StepExecutor) :
    (s.launch = none ∧
      (s.step exec = (.ok none, s) ∨ ∃ e, s.step exec = (.error (.err e), s))) ∨
    ∃ seq st, s.promote.active = some seq ∧ s.stateManager.seqs[seq.seqId]? = some st ∧
      st.ctxLen = seq.ctxLen ∧ st.tailLen = 0 ∧
      StepCase s.promote seq st (s.launch.map Launch.stepId) (s.launch.bind (Launch.sampled · exec))
        (s.step exec) := by
  have hm : s.promote.stateManager = s.stateManager := by
    unfold Scheduler.promote
    split <;> rfl
  unfold Scheduler.step Scheduler.launch
  cases hidle : s.isIdle with
  | true => exact Or.inl ⟨rfl, Or.inl rfl⟩
  | false =>
    cases s.costTable.resolveBudgetMs s.config.stepBudgetMs s.config.profile with
    | error e => exact Or.inl ⟨rfl, Or.inr ⟨e, rfl⟩⟩
    | ok budget =>
      obtain ⟨seq, hseq⟩ := Scheduler.promote_active hidle
      obtain ⟨st, hst, hctx, htail, hcase⟩ :=
        h.promote.stepSeq_case hseq budget (estimatePreStepMs budget) exec
      refine Or.inr ⟨seq, st, hseq, hm ▸ hst, hctx, htail, ?_⟩
      simp only [Bool.false_eq_true, if_false, hseq]
      exact hcase

end Promote

end R9v

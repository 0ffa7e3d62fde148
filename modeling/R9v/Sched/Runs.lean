import R9v.Sched.Preserve

/-!
# Runs of the scheduler

A run is a sequence of calls of the scheduler, each with what it returned; the
executor of a step is arbitrary, and another one for every step. A call that panics
ends the run. The invariant holds along every run (`Run.inv`), and what a step does to
the counters, the log and the lengths is said once (`StepFacts`).
-/

namespace R9v

open Checked StateManager

/-! ### Calls -/

/-- The calls of the scheduler. -/
inductive SchedCall
  | enqueue (req : Request)
  | step (exec : StepExecutor)
  | cancelSequence (k : SeqId)
  | cancelRequest (id : ℕ)
  | takeFinished (k : SeqId)

/-- What a call returns. -/
inductive Reply
  | enqueued (k : SeqId)
  | stepped (r : Option StepResult)
  | cancelled (found : Bool)
  | taken (r : Option (Request × List ℕ × FinishReason))

/-- Makes a call. -/
def SchedCall.exec (c : SchedCall) (s : Scheduler σ) : SchedOutcome Reply × Scheduler σ :=
  match c with
  | .enqueue req => ((s.enqueueRequest req).1.map .enqueued, (s.enqueueRequest req).2)
  | .step exec => ((s.step exec).1.map .stepped, (s.step exec).2)
  | .cancelSequence k => ((s.cancelSequence k).1.map .cancelled, (s.cancelSequence k).2)
  | .cancelRequest id => ((s.cancelRequest id).1.map .cancelled, (s.cancelRequest id).2)
  | .takeFinished k =>
    (.ok (.taken (s.takeFinishedResult k).1), (s.takeFinishedResult k).2)

/-- A call that was made and has returned. -/
structure Event (σ : Type) where
  before : Scheduler σ
  call : SchedCall
  reply : Except SchedError Reply
  after : Scheduler σ

/-- **Runs**: sequences of calls that return. -/
inductive Run (s₀ : Scheduler σ) : List (Event σ) → Scheduler σ → Prop
  | nil : Run s₀ [] s₀
  | snoc {es : List (Event σ)} {s s' : Scheduler σ} {c : SchedCall} {reply : Except SchedError Reply}
      (run : Run s₀ es s) (exec : c.exec s = (lift reply, s')) :
      Run s₀ (es ++ [⟨s, c, reply, s'⟩]) s'

/-- A scheduler that was just made, over a manager that was just made. -/
def Scheduler.Fresh (s : Scheduler σ) : Prop :=
  ∃ config m registry cost program arena, m.Built ∧
    Scheduler.new config m registry cost program arena = .ok s

/-! ### What a call can do -/

/-- What a step does to the counters, the log and the lengths. -/
structure StepFacts (s s' : Scheduler σ) (launched : Option ℕ)
    (out : SchedOutcome (Option StepResult)) : Prop where
  counter_le : s.stepCounter ≤ s'.stepCounter
  launch_eq : ∀ id, launched = some id → id = s.stepCounter + 1 ∧ s'.stepCounter = id
  quiet : (∀ r, out ≠ .ok (some r)) → s'.lastCommittedStep = s.lastCommittedStep ∧
    s'.scheduleLog = s.scheduleLog ∧ s'.finished = s.finished ∧
    ∀ (k : SeqId) (st st' : SeqState), s.stateManager.seqs[k]? = some st →
      s'.stateManager.seqs[k]? = some st' → st'.ctxLen = st.ctxLen
  committed : ∀ r, out = .ok (some r) → launched = some r.stepId ∧
    s'.lastCommittedStep = some r.stepId ∧ r.record.stepId = r.stepId ∧
    s.scheduleLog.push r.record = (.ok (), s'.scheduleLog) ∧
    ∃ k n, ((r.step.seqsPrefill = [(k, n)] ∧ r.step.seqsDecode = []) ∨
        (r.step.seqsPrefill = [] ∧ r.step.seqsDecode = [k] ∧ n = 1)) ∧
      (∀ k', k' ≠ k → s'.stateManager.seqs[k']? = s.stateManager.seqs[k']?) ∧
      ∀ (st st' : SeqState), s.stateManager.seqs[k]? = some st →
        s'.stateManager.seqs[k]? = some st' → st'.ctxLen = st.ctxLen + n
  nextSeq_eq : s'.stateManager.nextSeq = s.stateManager.nextSeq
  config_eq : s'.config = s.config

section Facts

variable {s s' : Scheduler σ} {seq : Sequence} {st : SeqState} {id tok : Option ℕ}
  {out : SchedOutcome (Option StepResult)}

theorem resultOf_step (s : Scheduler σ) (k : SeqId) (x : StepContext) (captured : Bool)
    (r : Scheduler.Report) :
    (s.resultOf k x captured r).step.seqsPrefill =
        (if x.admission.isDecode then [] else [(k, x.admission.chunk)]) ∧
      (s.resultOf k x captured r).step.seqsDecode = (if x.admission.isDecode then [k] else []) ∧
      (s.resultOf k x captured r).stepId = x.admission.nextStep ∧
      (s.resultOf k x captured r).record = s.recordOf x r.acceptLen captured :=
  ⟨rfl, rfl, rfl, rfl⟩

theorem resultOf_kind (s : Scheduler σ) (k : SeqId) (x : StepContext) (captured : Bool)
    (r : Scheduler.Report) :
    ((s.resultOf k x captured r).step.seqsPrefill = [(k, x.admission.reserveN)] ∧
        (s.resultOf k x captured r).step.seqsDecode = []) ∨
      ((s.resultOf k x captured r).step.seqsPrefill = [] ∧
        (s.resultOf k x captured r).step.seqsDecode = [k] ∧ x.admission.reserveN = 1) := by
  obtain ⟨h₁, h₂, -, -⟩ := resultOf_step s k x captured r
  rw [h₁, h₂]
  unfold Admission.reserveN
  cases x.admission.isDecode <;> simp

theorem StepCase.facts (hst : s.stateManager.seqs[seq.seqId]? = some st)
    (hcase : StepCase s seq st id tok (out, s')) (hout : out ≠ .error .panic) :
    StepFacts s s' id out := by
  cases hcase with
  | @waited _ seq' hwait hreply =>
    refine ⟨le_rfl, fun _ h => (by cases h), fun _ => ⟨rfl, rfl, rfl, ?_⟩, ?_, rfl, rfl⟩
    · intro k st₁ st₂ h₁ h₂
      rw [h₁] at h₂
      cases h₂
      rfl
    · rintro r rfl
      rcases hreply with h | ⟨e, h⟩ <;> cases h
  | @failed _ a seq' m' d' w e hwait hplan hcyc hroom hcause =>
    have hnext := hplan.next_eq
    refine ⟨?_, ?_, fun _ => ⟨rfl, rfl, rfl, ?_⟩, fun r h => (by cases h), hcyc.beside.nextSeq_eq, rfl⟩
    · change s.stepCounter ≤ a.nextStep
      omega
    · rintro _ ⟨⟩
      exact ⟨hnext, rfl⟩
    · intro k st₁ st₂ h₁ h₂
      rcases eq_or_ne k seq.seqId with rfl | hne
      · obtain ⟨st', hst', hctx', -⟩ := hcyc.seq
        obtain rfl : st = st₁ := by simpa [hst] using h₁
        obtain rfl : st' = st₂ := by
          have : m'.seqs[seq.seqId]? = some st₂ := h₂
          simpa [hst'] using this
        exact hctx'
      · have : m'.seqs[k]? = some st₂ := h₂
        rw [hcyc.beside.others k hne, h₁] at this
        cases this
        rfl
  | @committed _ x seq' app m' d' w phase r log captured hwait hplan htook hcyc hroom hpush hgoes =>
    have hnext := hplan.next_eq
    obtain ⟨st', hst', hctx', -⟩ := hcyc.seq
    refine ⟨?_, ?_, fun hno => absurd rfl (hno _), ?_, hcyc.beside.nextSeq_eq, rfl⟩
    · change s.stepCounter ≤ x.admission.nextStep
      omega
    · rintro _ ⟨⟩
      exact ⟨hnext, rfl⟩
    · rintro _ ⟨⟩
      refine ⟨rfl, rfl, rfl, hpush, seq.seqId, x.admission.reserveN, resultOf_kind .., ?_, ?_⟩
      · exact hcyc.beside.others
      · intro st₁ st₂ h₁ h₂
        obtain rfl : st = st₁ := by simpa [hst] using h₁
        obtain rfl : st' = st₂ := by
          have : m'.seqs[seq.seqId]? = some st₂ := h₂
          simpa [hst'] using this
        exact hctx'
  | @finished _ x seq' app m' m'' d' w phase r log reason captured hwait hplan htook hcyc hfree hroom
      hpush hfin =>
    have hnext := hplan.next_eq
    obtain ⟨H', hinv'⟩ := hcyc.exists_inv
    obtain ⟨st', hst', -⟩ := hcyc.seq
    obtain ⟨m₃, hfree', -, hbeside₃, hgone, -, -⟩ := freeSeq_ok hinv' hst'
    obtain rfl : m'' = m₃ := by
      rw [hfree] at hfree'
      simpa using hfree'
    have hbeside := hcyc.beside.trans hbeside₃
    refine ⟨?_, ?_, fun hno => absurd rfl (hno _), ?_, hbeside.nextSeq_eq, rfl⟩
    · change s.stepCounter ≤ x.admission.nextStep
      omega
    · rintro _ ⟨⟩
      exact ⟨hnext, rfl⟩
    · rintro _ ⟨⟩
      refine ⟨rfl, rfl, rfl, hpush, seq.seqId, x.admission.reserveN, resultOf_kind .., ?_, ?_⟩
      · exact hbeside.others
      · intro st₁ st₂ _ h₂
        have : m''.seqs[seq.seqId]? = some st₂ := h₂
        simp [hgone] at this
  | panicked => exact absurd rfl hout

theorem SchedInv.promote_eq (h : SchedInv s) :
    s.promote = s ∨ ∃ q rest, s.active = none ∧ s.queued = q :: rest ∧
      s.promote = { s with queued := rest, active := some { q with phase := .prefilling 0 } } := by
  unfold Scheduler.promote
  cases hact : s.active with
  | some seq => exact Or.inl rfl
  | none =>
    cases hq : s.queued with
    | nil => exact Or.inl (by simp only [h.paused])
    | cons q rest => exact Or.inr ⟨q, rest, rfl, rfl, by simp only [h.paused]⟩

theorem StepFacts.of_promote (h : SchedInv s) (hf : StepFacts s.promote s' id out) :
    StepFacts s s' id out := by
  rcases h.promote_eq with heq | ⟨q, rest, -, -, heq⟩
  · rwa [heq] at hf
  · rw [heq] at hf
    exact ⟨hf.counter_le, hf.launch_eq, hf.quiet, hf.committed, hf.nextSeq_eq, hf.config_eq⟩

/-- **What a step does** to the counters, the log and the lengths. -/
theorem SchedInv.step_facts {exec : StepExecutor} (h : SchedInv s)
    (hstep : s.step exec = (out, s')) (hout : out ≠ .error .panic) :
    StepFacts s s' (s.launch.map Launch.stepId) out := by
  have hidle : ∀ {r : SchedOutcome (Option StepResult)}, (∀ x, r ≠ .ok (some x)) →
      s.launch = none → StepFacts s s (s.launch.map Launch.stepId) r := by
    intro r hr hnone
    refine ⟨le_rfl, fun id hid => ?_, fun _ => ⟨rfl, rfl, rfl, fun k st st' h₁ h₂ => ?_⟩,
      fun x hx => absurd hx (hr x), rfl, rfl⟩
    · simp [hnone] at hid
    · rw [h₁] at h₂
      cases h₂
      rfl
  rcases h.step_cases exec with ⟨hnone, heq | ⟨e, heq⟩⟩ | ⟨seq, st, ha, hst, -, -, hcase⟩
  · rw [hstep] at heq
    cases heq
    exact hidle (fun x hx => (by cases hx)) hnone
  · rw [hstep] at heq
    cases heq
    exact hidle (fun x hx => (by cases hx)) hnone
  · rw [hstep] at hcase
    have hst' : s.promote.stateManager.seqs[seq.seqId]? = some st := by
      rcases h.promote_eq with heq | ⟨q, rest, -, -, heq⟩
      · rwa [heq]
      · rwa [heq]
    exact (hcase.facts hst' hout).of_promote h

end Facts

/-- **What a call does.** -/
inductive CallEffect (s : Scheduler σ) :
    SchedCall → Except SchedError Reply → Scheduler σ → Prop
  | refused {req : Request} (e : SchedError) : CallEffect s (.enqueue req) (.error e) s
  | enqueued {req : Request} {m' : StateManager}
      (nextSeq_eq : m'.nextSeq = s.stateManager.nextSeq + 1)
      (config_eq : m'.config = s.stateManager.config)
      (others : ∀ k, k ≠ s.stateManager.nextSeq → m'.seqs[k]? = s.stateManager.seqs[k]?) :
      CallEffect s (.enqueue req) (.ok (.enqueued s.stateManager.nextSeq))
        { s with
          stateManager := m'
          arrivalCounter := s.arrivalCounter + 1
          queued := s.queued ++
            [Sequence.new req s.stateManager.nextSeq (s.arrivalCounter + 1)] }
  | stepped {exec : StepExecutor} {out : Except SchedError (Option StepResult)}
      {s' : Scheduler σ} (step : s.step exec = (lift out, s')) :
      CallEffect s (.step exec) (out.map .stepped) s'
  | missed {c : SchedCall} (cancels : ∀ k, c ≠ .takeFinished k) (no_step : ∀ exec, c ≠ .step exec) :
      CallEffect s c (.ok (.cancelled false)) s
  | cancelled {c : SchedCall} {k : SeqId} {s' : Scheduler σ} (cancels : ∀ k, c ≠ .takeFinished k)
      (no_step : ∀ exec, c ≠ .step exec) (cancelled : Cancelled s s' k) :
      CallEffect s c (.ok (.cancelled true)) s'
  | taken (k : SeqId) :
      CallEffect s (.takeFinished k) (.ok (.taken s.finished[k]?))
        { s with finished := s.finished.erase k }

section Calls

variable {s s' s₀ : Scheduler σ} {c : SchedCall} {reply : Except SchedError Reply}
  {es : List (Event σ)}

theorem SchedInv.take (h : SchedInv s) (k : SeqId) :
    SchedInv { s with finished := s.finished.erase k } := by
  refine { h with finished := ?_, outstanding := ?_ }
  · intro k' hk'
    rw [Std.ExtTreeMap.mem_erase] at hk'
    exact h.finished k' hk'.2
  · have hout := h.outstanding
    have hsize : (s.finished.erase k).size ≤ s.finished.size := Std.ExtTreeMap.size_erase_le
    simp only [Scheduler.outstandingCount] at hout ⊢
    omega

theorem SchedInv.cancelSequence_effect (h : SchedInv s) (k : SeqId)
    (hc : ∀ k, c ≠ .takeFinished k) (hs : ∀ exec, c ≠ .step exec)
    (hexec : ((s.cancelSequence k).1.map Reply.cancelled, (s.cancelSequence k).2) =
      (lift reply, s')) : CallEffect s c reply s' ∧ SchedInv s' := by
  rcases h.cancelSequence_cases k with ⟨-, heq⟩ | ⟨s₁, heq, hcan⟩
  · rw [heq] at hexec
    simp only [Except.map, Prod.mk.injEq] at hexec
    obtain ⟨hreply, rfl⟩ := hexec
    obtain rfl := lift_eq_ok.mp hreply.symm
    exact ⟨.missed hc hs, h⟩
  · rw [heq] at hexec
    simp only [Except.map, Prod.mk.injEq] at hexec
    obtain ⟨hreply, rfl⟩ := hexec
    obtain rfl := lift_eq_ok.mp hreply.symm
    exact ⟨.cancelled hc hs hcan, hcan.inv⟩

/-- **Every call that returns has its effect, and keeps the invariant.** -/
theorem SchedInv.exec (h : SchedInv s) (hexec : c.exec s = (lift reply, s')) :
    CallEffect s c reply s' ∧ SchedInv s' := by
  cases c with
  | enqueue req =>
    rcases h.enqueue_cases req with ⟨e, heq⟩ | ⟨m', heq, hnext, hcfg, hothers, hinv⟩
    · simp only [SchedCall.exec, heq, Except.map, Prod.mk.injEq] at hexec
      obtain ⟨hreply, rfl⟩ := hexec
      cases reply with
      | ok r => cases hreply
      | error e => exact ⟨.refused e, h⟩
    · simp only [SchedCall.exec, heq, Except.map, Prod.mk.injEq] at hexec
      obtain ⟨hreply, rfl⟩ := hexec
      obtain rfl := lift_eq_ok.mp hreply.symm
      exact ⟨.enqueued hnext hcfg hothers, hinv⟩
  | step exec =>
    rcases hstep : s.step exec with ⟨out, s₁⟩
    simp only [SchedCall.exec, hstep, Prod.mk.injEq] at hexec
    obtain ⟨hreply, rfl⟩ := hexec
    have hout : out ≠ .error .panic := by
      rintro rfl
      cases reply <;> cases hreply
    refine ⟨?_, h.step hstep hout⟩
    rcases out with (e | _) | r
    · cases reply with
      | ok _ => cases hreply
      | error e' =>
        cases hreply
        have hstep' : s.step exec = (lift (.error e : Except SchedError (Option StepResult)), s₁) :=
          hstep
        exact CallEffect.stepped hstep'
    · exact absurd rfl hout
    · obtain rfl := lift_eq_ok.mp hreply.symm
      have hstep' : s.step exec = (lift (.ok r : Except SchedError (Option StepResult)), s₁) := hstep
      exact CallEffect.stepped hstep'
  | cancelSequence k => exact h.cancelSequence_effect k (by simp) (by simp) hexec
  | cancelRequest id =>
    simp only [SchedCall.exec, Scheduler.cancelRequest] at hexec
    split at hexec
    · exact h.cancelSequence_effect _ (by simp) (by simp) hexec
    · split at hexec
      · exact h.cancelSequence_effect _ (by simp) (by simp) hexec
      · simp only [h.paused, Option.filter_none, Except.map, Prod.mk.injEq] at hexec
        obtain ⟨hreply, rfl⟩ := hexec
        obtain rfl := lift_eq_ok.mp hreply.symm
        exact ⟨.missed (by simp) (by simp), h⟩
  | takeFinished k =>
    simp only [SchedCall.exec, Scheduler.takeFinishedResult, Prod.mk.injEq] at hexec
    obtain ⟨hreply, rfl⟩ := hexec
    obtain rfl := lift_eq_ok.mp hreply.symm
    exact ⟨.taken k, h.take k⟩

theorem Scheduler.Fresh.inv (h : s.Fresh) : SchedInv s := by
  obtain ⟨_, _, _, _, _, _, hm, hnew⟩ := h
  exact Scheduler.new_inv hm hnew

/-- **The invariant holds along every run.** -/
theorem Run.inv (h₀ : SchedInv s₀) (hr : Run s₀ es s) : SchedInv s := by
  induction hr with
  | nil => exact h₀
  | snoc _ hexec ih => exact (ih.exec hexec).2

/-- **The effects along a run.** -/
theorem Run.effect (h₀ : SchedInv s₀) (hr : Run s₀ es s) :
    ∀ e ∈ es, SchedInv e.before ∧ CallEffect e.before e.call e.reply e.after := by
  induction hr with
  | nil => simp
  | snoc hrun hexec ih =>
    intro e he
    rcases List.mem_append.mp he with he | he
    · exact ih e he
    · obtain rfl := List.mem_singleton.mp he
      have hinv := hrun.inv h₀
      exact ⟨hinv, (hinv.exec hexec).1⟩

end Calls

/-! ### Executing calls -/

/-- What a call has returned, unless it has panicked. -/
def returned (x : SchedOutcome α) : Option (Except SchedError α) :=
  match x with
  | .ok a => some (.ok a)
  | .error (.err e) => some (.error e)
  | .error .panic => none

/-- Makes some calls in turn; nothing when one of them panics. -/
def Scheduler.calls (s : Scheduler σ) : List SchedCall → Option (List (Event σ) × Scheduler σ)
  | [] => some ([], s)
  | c :: cs => do
    let reply ← returned (c.exec s).1
    let (es, s') ← Scheduler.calls (c.exec s).2 cs
    pure (⟨s, c, reply, (c.exec s).2⟩ :: es, s')

section Execute

variable {s s' s₀ : Scheduler σ} {c : SchedCall} {reply : Except SchedError Reply}
  {es : List (Event σ)}

theorem returned_eq_some {x : SchedOutcome α} {y : Except SchedError α} :
    returned x = some y ↔ x = lift y := by
  rcases x with (e | _) | a <;> rcases y with e' | a' <;> simp [returned, lift]

theorem Run.cons (hexec : c.exec s₀ = (lift reply, s)) (hr : Run s es s') :
    Run s₀ (⟨s₀, c, reply, s⟩ :: es) s' := by
  induction hr with
  | nil => exact Run.snoc .nil hexec
  | snoc _ hexec' ih => exact ih.snoc hexec'

theorem Run.of_calls {cs : List SchedCall} {r : List (Event σ) × Scheduler σ}
    (h : s.calls cs = some r) : Run s r.1 r.2 := by
  induction cs generalizing s r with
  | nil =>
    obtain rfl := Option.some.inj h
    exact .nil
  | cons c cs ih =>
    simp only [Scheduler.calls, Option.bind_eq_bind, Option.bind_eq_some_iff, Option.pure_def,
      Option.some.injEq] at h
    obtain ⟨reply, hreply, r', hcs, rfl⟩ := h
    exact Run.cons (Prod.ext (returned_eq_some.mp hreply) rfl) (ih hcs)

theorem Scheduler.calls_map {cs : List SchedCall} {r : List (Event σ) × Scheduler σ}
    (h : s.calls cs = some r) : r.1.map (·.call) = cs := by
  induction cs generalizing s r with
  | nil =>
    obtain rfl := Option.some.inj h
    rfl
  | cons c cs ih =>
    simp only [Scheduler.calls, Option.bind_eq_bind, Option.bind_eq_some_iff, Option.pure_def,
      Option.some.injEq] at h
    obtain ⟨reply, -, r', hcs, rfl⟩ := h
    rw [List.map_cons, ih hcs]

end Execute

/-- The configuration of a small scheduler. -/
def smallConfig : SchedulerConfig where
  stepBudgetMs := .manual 10.0
  profile := .latency
  prefillMinChunk := 16
  prefillMaxChunk := 64
  maxWaitMs := 100
  maxSeqs := 1
  kMax := 0
  minAccept := 0.5
  graphMode := .auto
  planId := 0
  rank := 0
  vocabSize := 256
  maxOutstanding := 4

/-- A small scheduler, whose steps are one operation each. -/
def smallNew : SchedResult (Scheduler Unit) :=
  Scheduler.new smallConfig small
    ⟨fun _ _ => .ok ⟨0, .t0, "sample", ⟨(1, 1, 1), (1, 1, 1), 0⟩, 0, 0, 0⟩⟩
    (CostTableStub.mk [] 1.0 0.5 0.01).toTable
    ⟨[⟨.sample, "sample", fun _ => some (), fun _ => some [], none⟩]⟩ (.new 0 0)

def smallScheduler : Scheduler Unit :=
  smallNew.toOption.get (by decide)

theorem smallNew_eq : smallNew = .ok smallScheduler := by
  have hsome : smallNew.toOption = some smallScheduler := (Option.some_get _).symm
  cases hnew : smallNew with
  | ok s =>
    rw [hnew] at hsome
    exact congrArg _ (Option.some.inj hsome)
  | error e =>
    rw [hnew] at hsome
    cases hsome

theorem smallScheduler_fresh : smallScheduler.Fresh :=
  ⟨_, _, _, _, _, _, small_built, smallNew_eq⟩

theorem greedy_ok : (⟨0.0, 1, 1.0, 0.0, 1.0, 0.0, 0.0, []⟩ : SamplingParams).problems = [] := by
  decide

/-- A request with a prompt of twenty tokens. -/
def smallRequest : Request where
  id := 7
  tokens := List.replicate 20 1
  sampling := ⟨0.0, 1, 1.0, 0.0, 1.0, 0.0, 0.0, []⟩
  maxTokens := 3
  stop := .new [] []
  stream := false
  seed := 7
  maxTokens_lt := by decide
  tokens_ne := by decide
  maxTokens_ne := by decide
  sampling_ok := greedy_ok

/-- An executor that samples a token. -/
def sampler (token acceptLen : ℕ) : StepExecutor where
  uploadInputs _ := .ok ()
  replayGraph _ _ := .ok ()
  readbackSample i _ := .ok ⟨i.stepId, token, acceptLen⟩

/-- An executor that reports another step than the one it was given. -/
def staleSampler : StepExecutor where
  uploadInputs _ := .ok ()
  replayGraph _ _ := .ok ()
  readbackSample i _ := .ok ⟨i.stepId + 1, 0, 0⟩

/-- Two requests, of which one fails its first step and then gets along, and the other
is cancelled. -/
def smallCalls : List SchedCall :=
  [.enqueue smallRequest, .enqueue smallRequest, .step staleSampler, .step (sampler 65 0),
    .step (sampler 65 1), .cancelSequence 1, .takeFinished 1]

theorem smallCalls_isSome : (smallScheduler.calls smallCalls).isSome = true := by decide +kernel

theorem isSome_of_map {α β : Type*} {o : Option α} {f : α → β} {b : β} (h : o.map f = some b) :
    o.isSome = true := by
  obtain ⟨x, rfl, -⟩ := Option.map_eq_some_iff.mp h
  rfl

/-- What has happened after these calls. -/
def smallRun : List (Event Unit) × Scheduler Unit :=
  (smallScheduler.calls smallCalls).get smallCalls_isSome

theorem smallRun_run : Run smallScheduler smallRun.1 smallRun.2 := by
  have hsome : smallScheduler.calls smallCalls = some smallRun :=
    (Option.some_get smallCalls_isSome).symm
  exact Run.of_calls hsome

end R9v

import R9v.Sched.Text
import R9v.Sched.Capture

/-!
# Requests that can run

A step of a scheduler whose executor behaves can still fail: the context may be full
before the request has its tokens, the chunk may be larger than any bucket, the text
may be cut inside a character, and the costs or the graphs may not be there. When none
of this can happen, no step fails along any run (`admitted_requests_run`).
-/

namespace R9v

open Checked StateManager List

/-! ### What a step leaves alone -/

/-- A part of a step leaves the kit alone, and its sequence has counted at most `n`
waits. -/
structure Framed (kit : Kit σ) (n : ℕ) (r : Stepped σ) : Prop where
  kit_eq : r.2.kit = kit
  waits : ∀ a, r.2.active = some a → a.waitSteps ≤ n

section Frame

variable {s : Scheduler σ} {seq back : Sequence} {x : StepContext} {captured : Bool}
  {r : Scheduler.Report} {n : ℕ} {sample : DeviceStepSample} {phase : SequencePhase} {kit : Kit σ}

theorem Framed.active {out : SchedOutcome (Option StepResult)} (hkit : s.kit = kit)
    (hactive : s.active = some seq) (hn : seq.waitSteps ≤ n) : Framed kit n (out, s) := by
  refine ⟨hkit, fun a ha => ?_⟩
  obtain rfl : seq = a := Option.some.inj (hactive.symm.trans ha)
  exact hn

theorem failStep_framed (hkit : s.kit = kit) (hn : seq.waitSteps ≤ n) (e : SchedError) :
    Framed kit n (s.failStep seq e) := by
  unfold Scheduler.failStep
  dsimp only
  split
  · exact .active hkit rfl hn
  · split
    · split <;> exact .active hkit rfl hn
    · exact .active hkit rfl hn

theorem logStep_framed (hkit : s.kit = kit) (hactive : ∀ a, s.active = some a → a.waitSteps ≤ n)
    (k : SeqId) (fin : List (SeqId × FinishReason)) :
    Framed kit n (s.logStep k x captured r fin) := by
  unfold Scheduler.logStep
  dsimp only
  split <;> exact ⟨hkit, hactive⟩

theorem finishStep_framed (hkit : s.kit = kit) (hp : s.paused = none) (hn : seq.waitSteps ≤ n) :
    Framed kit n (s.finishStep seq x captured r) := by
  unfold Scheduler.finishStep
  split
  · refine logStep_framed ?_ ?_ _ _
    · exact hkit
    · rintro _ ⟨⟩
      exact hn
  · split
    · exact .active hkit rfl hn
    · simp only [Scheduler.tryUnpauseSequences, hp]
      refine logStep_framed ?_ ?_ _ _
      · exact hkit
      · exact fun _ h => (by cases h)

theorem commitStep_framed (hkit : s.kit = kit) (hp : s.paused = none) (hn : seq.waitSteps ≤ n)
    (hb : back.waitSteps ≤ n) : Framed kit n (s.commitStep seq back phase x captured r) := by
  unfold Scheduler.commitStep
  dsimp only
  split
  · exact .active hkit rfl hb
  · split
    · exact .active hkit rfl hn
    · refine finishStep_framed ?_ ?_ ?_
      · exact hkit
      · exact hp
      · exact hn

theorem boundTail_waits (seq : Sequence) : seq.boundTail.2.waitSteps = seq.waitSteps := by
  unfold Sequence.boundTail
  dsimp only
  split
  · split
    · split
      · split <;> rfl
      · rfl
    · rfl
  · rfl

theorem checkStop_waits (seq : Sequence) (i : ℕ) :
    (seq.checkStop i).2.waitSteps = seq.waitSteps := by
  unfold Sequence.checkStop
  split
  · split <;> rfl
  · exact boundTail_waits seq

theorem appendGeneratedToken_waits (d : ByteDetokenizer) (token : ℕ) :
    (seq.appendGeneratedToken token d).2.1.waitSteps = seq.waitSteps := by
  unfold Sequence.appendGeneratedToken
  cases add 64 seq.tailStartByte seq.detokenizedTail.length with
  | none => rfl
  | some startByte =>
    rcases d.appendToken seq.seqId token seq.detokenizedTail with ⟨e | appended, d₁, tail⟩
    · rfl
    · dsimp only
      cases add 64 startByte appended with
      | none => rfl
      | some endByte =>
        have hframe := (Sequence.recordSpan_frame
          { seq with detokenizedTail := tail, generated := seq.generated ++ [token] }
          seq.generated.length startByte appended endByte).1
        dsimp only
        generalize Sequence.recordSpan
          { seq with detokenizedTail := tail, generated := seq.generated ++ [token] }
          seq.generated.length startByte appended endByte = t at hframe ⊢
        have ht : t.waitSteps = seq.waitSteps := by rw [hframe]
        unfold Sequence.afterText
        split
        · exact ht
        · split
          · exact ht
          · split
            · exact ht
            · exact (checkStop_waits t _).trans ht

theorem completePrompt_framed (hkit : s.kit = kit) (hp : s.paused = none) (ha : s.active = none)
    (hn : seq.waitSteps ≤ n) : Framed kit n (s.completePrompt seq x captured sample) := by
  have hw := @appendGeneratedToken_waits { seq with phase := .decoding } s.detokenizer sample.token
  unfold Scheduler.completePrompt
  rcases happ : ({ seq with phase := .decoding } : Sequence).appendGeneratedToken sample.token
    s.detokenizer with ⟨(e | _) | ⟨finish, trimmed⟩, seq', d⟩
  · rw [happ] at hw
    refine failStep_framed ?_ ?_ e
    · exact hkit
    · exact hw.trans_le hn
  · exact ⟨hkit, fun a h => by simp [ha] at h⟩
  · rw [happ] at hw
    refine commitStep_framed ?_ ?_ ?_ ?_
    · exact hkit
    · exact hp
    · exact hw.trans_le hn
    · exact hw.trans_le hn

theorem decodeToken_framed (hkit : s.kit = kit) (hp : s.paused = none) (ha : s.active = none)
    (hn : seq.waitSteps ≤ n) : Framed kit n (s.decodeToken seq x captured sample) := by
  have hw := @appendGeneratedToken_waits seq s.detokenizer sample.token
  unfold Scheduler.decodeToken
  rcases happ : seq.appendGeneratedToken sample.token s.detokenizer with
    ⟨(e | _) | ⟨finish, trimmed⟩, seq', d⟩
  · rw [happ] at hw
    refine failStep_framed ?_ ?_ e
    · exact hkit
    · exact hw.trans_le hn
  · exact ⟨hkit, fun a h => by simp [ha] at h⟩
  · rw [happ] at hw
    refine commitStep_framed ?_ ?_ ?_ ?_
    · exact hkit
    · exact hp
    · exact hw.trans_le hn
    · exact hw.trans_le hn

theorem postStep_framed (hkit : s.kit = kit) (hp : s.paused = none) (ha : s.active = none)
    (hn : seq.waitSteps ≤ n) : Framed kit n (s.postStep seq x captured sample) := by
  unfold Scheduler.postStep
  split
  · split
    · exact failStep_framed hkit hn _
    · split
      · exact completePrompt_framed hkit hp ha hn
      · exact commitStep_framed hkit hp hn hn
  · exact decodeToken_framed hkit hp ha hn
  · exact failStep_framed hkit hn _
  · exact failStep_framed hkit hn _

theorem checkSample_framed (hkit : s.kit = kit) (hp : s.paused = none) (ha : s.active = none)
    (hn : seq.waitSteps ≤ n) : Framed kit n (s.checkSample seq x captured sample) := by
  unfold Scheduler.checkSample
  split
  · exact failStep_framed hkit hn _
  · split
    · exact failStep_framed hkit hn _
    · exact postStep_framed hkit hp ha hn

theorem Launch.framed {l : Launch σ} (exec : StepExecutor) (hp : l.sched.paused = none)
    (ha : l.sched.active = none) (hn : l.seq.waitSteps ≤ n) :
    Framed ⟨(l.device exec).2.chain, (l.device exec).2.cache, (l.device exec).2.arena,
      l.sched.registry, l.sched.costTable⟩ n
      (l.sched.stepDevice l.seq l.context l.range exec) := by
  unfold Scheduler.stepDevice
  dsimp only
  split
  · refine failStep_framed ?_ hn _
    rfl
  · refine checkSample_framed ?_ hp ha hn
    rfl

end Frame

/-! ### Launches -/

section Launches

variable {s s' : Scheduler σ} {seq seq' : Sequence} {x : StepContext} {l : Launch σ}
  {budget preStep : Float32} {exec : StepExecutor}

theorem Sequence.wait_steps (h : seq.wait budget = some seq') :
    seq'.waitSteps = seq.waitSteps + 1 := by
  obtain ⟨n, hn, rfl⟩ := Option.map_eq_some_iff.mp h
  exact (add_eq_some.mp hn).2.symm

theorem launchReserved_seq (h : s.launchReserved seq x = some l) : l.seq = seq := by
  unfold Scheduler.launchReserved at h
  split at h
  · split at h
    · cases h
    · split at h
      · cases h
      · cases h
        rfl
  · cases h

theorem launchSeq_waits (h : s.launchSeq seq budget preStep = some l) :
    l.seq.waitSteps ≤ seq.waitSteps + 1 := by
  have hallowed : ∀ x, s.launchAdmitted seq x = some l → l.seq.waitSteps ≤ seq.waitSteps + 1 := by
    intro x h
    unfold Scheduler.launchAdmitted at h
    split at h
    · obtain ⟨seq', hwait, h⟩ := Option.bind_eq_some_iff.mp h
      rw [launchReserved_seq h, Sequence.wait_steps hwait]
    · rw [launchReserved_seq h]
      exact Nat.le_succ _
  unfold Scheduler.launchSeq at h
  split at h
  · cases h
  · cases h
  · split at h
    · cases h
    · obtain ⟨x, -, h⟩ := Option.bind_eq_some_iff.mp h
      exact hallowed x h

/-- **A launch comes from the sequence that is active after the promotion.** -/
theorem SchedInv.launched (h : SchedInv s) (hl : s.launch = some l) :
    ∃ seq st, s.promote.active = some seq ∧ s.stateManager.seqs[seq.seqId]? = some st ∧
      st.ctxLen = seq.ctxLen ∧ Launched s.promote seq st l ∧
      l.seq.waitSteps ≤ seq.waitSteps + 1 := by
  unfold Scheduler.launch at hl
  split at hl
  · cases hl
  · split at hl
    · cases hl
    · rename_i budget _
      split at hl
      · cases hl
      · rename_i seq ha
        have hinv := h.promote
        have hrun := hinv.active seq ha
        have hm : s.promote.stateManager = s.stateManager := by
          rcases h.promote_eq with heq | ⟨_, _, -, -, heq⟩ <;> rw [heq]
        obtain ⟨st, hst, hctx, htail⟩ := hrun.follows
        rcases @Scheduler.stepSeq_cases σ { s.promote with active := none } seq budget
          (estimatePreStepMs budget) (sampler 0 0) hinv.config hrun.phase hrun.started with
          ⟨hnone, -⟩ | ⟨x, seq', hp, hwait, hlaunch, -⟩
        · rw [hl] at hnone
          cases hnone
        · have hp' : Planned s.promote seq x.admission :=
            ⟨hp.next_eq, hp.next_lt, hp.chunk_le, hp.bucket, hp.kind⟩
          have hwaits := launchSeq_waits hl
          rw [hlaunch] at hl
          rcases hinv.stepReserve_cases ha hst hctx htail hp' hwait (sampler 0 0) with
            ⟨hnone, -⟩ | ⟨l', hsome, hl', -, -, -⟩
          · rw [hl] at hnone
            cases hnone
          · rw [hl] at hsome
            cases hsome
            exact ⟨seq, st, ha, hm ▸ hst, hctx, hl', hwaits⟩

end Launches

/-! ### Planning -/

/-- The cost table has a cost for every step of one sequence. -/
def CostTable.Total (c : CostTable) : Prop :=
  ∀ tDec ≤ 1, ∀ tPre, ∃ cost, c.costMs 1 tDec tPre = .ok cost

/-- The cost table has the costs, the budget of a step is valid, and so is the room that
it leaves for a prompt. -/
structure Priced (c : CostTable) (config : SchedulerConfig) : Prop where
  total : c.Total
  budget : ∃ b, c.resolveBudgetMs config.stepBudgetMs config.profile = .ok b ∧
    b.isFinite = true ∧ (estimatePreStepMs b).isFinite = true ∧
    (b - 0.0 - estimatePreStepMs b).isFinite = true

section Plan

variable {s : Scheduler σ} {seq : Sequence} {c : CostTable} {budget : Float32}

section Costs

variable (h : c.Total)
include h

theorem CostTable.fits_ok (room decode : Float32) (chunk : ℕ) :
    ∃ b, c.fits 0 0 room decode chunk = .ok b := by
  obtain ⟨cost, hcost⟩ := h 0 (by decide) chunk
  have hone : (add 32 0 1).getD 0 = 1 := rfl
  exact ⟨_, by simp only [CostTable.fits, hone, hcost]; rfl⟩

theorem CostTable.firstFit_ok (room decode : Float32) (l : List ℕ) :
    ∃ o, c.firstFit 0 0 room decode l = .ok o := by
  induction l with
  | nil => exact ⟨none, rfl⟩
  | cons b l ih =>
    obtain ⟨fit, hfit⟩ := CostTable.fits_ok h room decode b
    obtain ⟨o, ho⟩ := ih
    cases fit with
    | true => exact ⟨some b, by simp only [CostTable.firstFit, hfit]; rfl⟩
    | false => exact ⟨o, by simp only [CostTable.firstFit, hfit]; exact ho⟩

theorem CostTable.selectPrefillChunk_ok {room : Float32} (hroom : room.isFinite = true)
    (remaining minChunk maxChunk : ℕ) :
    ∃ o, c.selectPrefillChunk remaining 0 0 room minChunk maxChunk = .ok o := by
  have hdecode : c.decodeCost 0 0 = .ok 0.0 := rfl
  simp only [CostTable.selectPrefillChunk, ensure_of hroom, bind, Except.bind, hdecode]
  split
  · exact ⟨none, rfl⟩
  · split
    · obtain ⟨fit, hfit⟩ := CostTable.fits_ok h room 0.0 minChunk
      rw [hfit]
      exact ⟨_, rfl⟩
    · exact CostTable.firstFit_ok h room 0.0 _

end Costs

/-- The chunks of a request fit the largest bucket. -/
def Bucketed (config : SchedulerConfig) (req : Request) : Prop :=
  config.prefillMinChunk ≤ 4096 ∨ req.tokens.length ≤ 4096

theorem bucketSizes_le {b : ℕ} (h : b ∈ bucketSizes) : b ≤ 4096 := by
  simp only [bucketSizes, mem_cons, not_mem_nil, or_false] at h
  omega

theorem chooseChunk_ok {preStep : Float32} {remaining : ℕ} (hc : s.config.problems = [])
    (htotal : s.costTable.Total)
    (hb : budget.isFinite = true) (hp : preStep.isFinite = true)
    (hroom : (budget - 0.0 - preStep).isFinite = true)
    (hfits : s.config.prefillMinChunk ≤ 4096 ∨ remaining ≤ 4096) :
    ∃ o, s.chooseChunk seq remaining budget preStep = .ok o ∧
      ∀ chunk forced, o = some (chunk, forced) → chunk ≤ 4096 := by
  obtain ⟨hmin, hle⟩ := SchedulerConfig.chunk_bounds hc
  have hdecode : s.costTable.decodeCost 0 0 = .ok 0.0 := rfl
  have hroom' : s.costTable.prefillRoomMs budget 0 0 preStep = .ok (budget - 0.0 - preStep) := by
    simp only [CostTable.prefillRoomMs, ensure_of (And.intro hb hp), hdecode]
    rfl
  obtain ⟨o, hsel⟩ := CostTable.selectPrefillChunk_ok htotal hroom remaining
    s.config.prefillMinChunk s.config.prefillMaxChunk
  simp only [Scheduler.chooseChunk, hroom', hsel, bind, Except.bind]
  cases o with
  | some chunk =>
    refine ⟨_, rfl, ?_⟩
    rintro _ _ ⟨⟩
    obtain ⟨-, -, -, hkind⟩ := CostTable.selectPrefillChunk_bounds hmin hle hsel
    rcases hkind with ⟨rfl, hlt⟩ | hmem
    · omega
    · exact bucketSizes_le hmem
  | none =>
    simp only
    split
    · refine ⟨_, rfl, ?_⟩
      rintro _ _ ⟨⟩
      rcases hfits with hfits | hfits
      · exact (min_le_right _ _).trans hfits
      · exact (min_le_left _ _).trans hfits
    · exact ⟨none, rfl, fun _ _ hno => (by cases hno)⟩

theorem price_ok {chunk : ℕ}
    (htotal : s.costTable.Total)
    (hle : chunk ≤ 4096) : ∃ b cost, s.price chunk = .ok (b, cost) := by
  rcases bucketStep_one_cases chunk with ⟨-, b, hb, -⟩ | ⟨hlt, -⟩
  · obtain ⟨cost, hcost⟩ := htotal 1 le_rfl b
    refine ⟨(1, 1, b), cost, ?_⟩
    simp only [Scheduler.price, hb, Except.mapError, hcost, bind, Except.bind]
    rfl
  · omega

/-- **Every step can be planned.** -/
theorem planAdmission_ok (hc : s.config.problems = [])
    (htotal : s.costTable.Total)
    {preStep : Float32} (hb : budget.isFinite = true) (hp : preStep.isFinite = true)
    (hroom : (budget - 0.0 - preStep).isFinite = true) (hcount : s.stepCounter + 1 < 2 ^ 64)
    (hphase : seq.InPhase) (hstart : seq.phase ≠ .queued) (hprompt : seq.promptLen = seq.req.tokens.length)
    (hfits : Bucketed s.config seq.req) : ∃ plan, s.planAdmission seq budget preStep = .ok plan := by
  unfold Scheduler.planAdmission
  rw [add_of_lt hcount]
  cases hph : seq.phase with
  | queued => exact absurd hph hstart
  | finished reason => simp [Sequence.InPhase, hph] at hphase
  | decoding =>
    obtain ⟨b, cost, hprice⟩ := price_ok htotal (Nat.zero_le 4096)
    simp only [hprice]
    exact ⟨_, rfl⟩
  | prefilling done =>
    simp only [Sequence.InPhase, hph] at hphase
    have hsub : sub seq.promptLen done = some (seq.promptLen - done) := by
      unfold sub
      rw [if_pos (by omega)]
    obtain ⟨o, hchoose, hle⟩ := @chooseChunk_ok _ s seq budget preStep (seq.promptLen - done) hc
      htotal hb hp hroom (by
        rcases hfits with hfits | hfits
        · exact Or.inl hfits
        · exact Or.inr (by omega))
    simp only [Scheduler.planPrefill, hsub, okOr, hchoose, bind, Except.bind]
    cases o with
    | none => exact ⟨_, rfl⟩
    | some o =>
      obtain ⟨b, cost, hprice⟩ := price_ok htotal (hle o.1 o.2 rfl)
      simp only [hprice]
      exact ⟨_, rfl⟩

end Plan

/-! ### Steps that succeed -/

/-- A request that a scheduler can run: it fits the context with all its tokens, its
chunks have buckets, and its text is not cut inside a character. -/
structure Suits (m : StateManager) (config : SchedulerConfig) (req : Request) : Prop where
  fits : req.tokens.length + req.maxTokens ≤ m.config.maxCtx + 1
  bucketed : Bucketed config req
  cuts : req.CutsWell

section Ready

variable {s : Scheduler σ} {seq : Sequence} {st : SeqState} {x : StepContext}

theorem Planned.fits {H : SeqId → ℕ} (hm : Inv H s.stateManager)
    (hrun : Running s.stateManager s.detokenizer seq)
    (hsuits : Suits s.stateManager s.config seq.req) (hp : Planned s seq x.admission) :
    seq.ctxLen + x.admission.reserveN ≤ s.stateManager.config.maxCtx := by
  obtain ⟨-, hplen⟩ := promptLen_eq hm hrun.prompt_le
  have hle := hrun.prompt_le
  have hin := hrun.phase
  have hfits := hsuits.fits
  unfold Admission.reserveN
  rcases hp.kind with ⟨hphase, hdec, -⟩ | ⟨hphase, hdec, -, hchunk, -⟩
  · simp only [Sequence.InPhase, hphase] at hin
    rw [if_pos hdec]
    omega
  · rw [if_neg (by simp [hdec])]
    omega

/-- **A step that does not launch lets its sequence wait.** -/
theorem SchedInv.stepSeq_ready (h : SchedInv s) (ha : s.active = some seq)
    (hsuits : Suits s.stateManager s.config seq.req)
    (htotal : s.costTable.Total)
    {budget preStep : Float32} (hb : budget.isFinite = true) (hp : preStep.isFinite = true)
    (hroom : (budget - 0.0 - preStep).isFinite = true) (hcount : s.stepCounter + 1 < 2 ^ 64)
    (hwaits : seq.waitSteps + 1 < 2 ^ 64) (exec : StepExecutor) :
    ({ s with active := none }.launchSeq seq budget preStep = none ∧
      ∃ seq', seq'.waitSteps = seq.waitSteps + 1 ∧
        { s with active := none }.stepSeq seq budget preStep exec =
          (.ok none, { s with active := some seq' })) ∨
    ∃ l, { s with active := none }.launchSeq seq budget preStep = some l := by
  obtain ⟨H, hm⟩ := h.exists_inv
  have hrun := h.active seq ha
  obtain ⟨st, hst, hctx, htail⟩ := hrun.follows
  obtain ⟨-, hplen⟩ := R9v.promptLen_eq hm hrun.prompt_le
  obtain ⟨hlaunch, hstep⟩ := @Scheduler.stepSeq_started _ { s with active := none } seq budget
    preStep exec hrun.phase hrun.started
  obtain ⟨plan, hplan⟩ := @planAdmission_ok _ { s with active := none } seq budget h.config htotal
    preStep hb hp hroom hcount hrun.phase hrun.started hplen hsuits.bucketed
  have hwait : ∀ b : Float32, ∃ seq', seq.wait b = some seq' ∧
      seq'.waitSteps = seq.waitSteps + 1 := by
    intro b
    obtain ⟨seq', hseq'⟩ : ∃ seq', seq.wait b = some seq' := by
      unfold Sequence.wait
      rw [add_of_lt hwaits]
      exact ⟨_, rfl⟩
    exact ⟨seq', hseq', Sequence.wait_steps hseq'⟩
  rw [hlaunch, hstep, hplan]
  cases hx : plan.context budget preStep with
  | none =>
    obtain rfl : plan = .wait := by cases plan <;> cases hx; rfl
    obtain ⟨seq', hseq', hsteps⟩ := hwait budget
    refine Or.inl ⟨by simp only [hx]; rfl, seq', hsteps, ?_⟩
    simp only [Scheduler.stepPlanned, hseq']
    rfl
  | some x =>
    have hplanned := Scheduler.planAdmission_planned h.config hrun.phase hplan hx
    have hp' : Planned s seq x.admission :=
      ⟨hplanned.next_eq, hplanned.next_lt, hplanned.chunk_le, hplanned.bucket, hplanned.kind⟩
    have hreserved : ∀ seq', seq.Waited seq' →
        ∃ l, { s with active := none }.launchReserved seq' x = some l := by
      intro seq' hw
      rcases h.stepReserve_cases ha hst hctx htail hp' hw exec with ⟨-, hno, -⟩ | ⟨l, hl, -⟩
      · exact absurd (hp'.fits hm hrun hsuits) hno
      · exact ⟨l, hl⟩
    refine Or.inr ?_
    simp only [hx, Option.bind_some]
    unfold Scheduler.launchAdmitted
    split
    · obtain ⟨seq', hseq', -⟩ := hwait x.budgetMs
      rw [hseq']
      exact hreserved seq' (Sequence.wait_waited hseq')
    · exact hreserved seq rfl

end Ready

/-- The accept length that a device reports for what was uploaded: nothing is sampled
before the end of the prompt. -/
def StepInputs.acceptLen (i : StepInputs) : ℕ :=
  match i.prefill with
  | some (start, len) => if start + len < i.promptTokens.length then 0 else 1
  | none => 1

/-- An executor that never fails, echoes the id of the step, reports the accept length
that is expected, and samples a token that the detokenizer accepts. -/
structure Cooperates (exec : StepExecutor) (d : ByteDetokenizer) : Prop where
  upload : ∀ i, exec.uploadInputs i = .ok ()
  replay : ∀ i g, exec.replayGraph i g = .ok ()
  sample : ∀ i g, ∃ token, exec.readbackSample i g = .ok ⟨i.stepId, token, i.acceptLen⟩ ∧
    ∀ out, ∃ n, (d.appendToken i.seqId token out).1 = .ok n

/-- The graphs that a step of one sequence can ask for can be captured. -/
def Equipped (registry : Registry σ) (program : StepGraphProgram σ) (config : SchedulerConfig) :
    Prop :=
  ∀ b, b = 0 ∨ b ∈ bucketSizes → Capturable registry program ⟨config.planId, config.rank, 1, 1, b, 0⟩

/-- What holds after `n` calls of a scheduler whose arena had the generation `g`, when
its costs and its graphs are there and its requests suit it. -/
structure Ready (g n : ℕ) (s : Scheduler σ) : Prop where
  priced : Priced s.costTable s.config
  equipped : Equipped s.registry s.graphCache.program s.config
  captured : Captured s.registry s.graphCache.program s.arena s.graphCache.graphs
  suits : ∀ seq ∈ s.sequences, Suits s.stateManager s.config seq.req
  wellFormed : s.detokenizer.WellFormed
  text : TextInv s
  counter : s.stepCounter ≤ n
  waits : ∀ seq, s.active = some seq → seq.waitSteps ≤ n
  events : s.eventChain.eventCounter ≤ 5 * n
  gens : s.arena.generation ≤ g + n

section Success

variable {s s' : Scheduler σ} {seq : Sequence} {st : SeqState} {l : Launch σ} {g n : ℕ}
  {exec : StepExecutor}

theorem Launched.acceptLen {H : SeqId → ℕ} (hm : Inv H s.stateManager)
    (hrun : Running s.stateManager s.detokenizer seq) (hl : Launched s seq st l)
    (hctx : st.ctxLen = seq.ctxLen) :
    (l.sched.stepInputs l.seq l.context.admission l.range).acceptLen =
      Scheduler.expectedAccept l.seq l.context.admission := by
  obtain ⟨-, hplen⟩ := promptLen_eq hm hrun.prompt_le
  have hreq : l.seq.req = seq.req := by rw [hl.wait]
  unfold StepInputs.acceptLen Scheduler.stepInputs Scheduler.expectedAccept
  rcases hl.plan.kind with ⟨hphase, hdec, -⟩ | ⟨hphase, hdec, hpos, hle, -⟩
  · have hph : l.seq.phase = .decoding := by rw [hl.wait]; exact hphase
    simp only [Scheduler.isIntermediate, hph]
    rfl
  · have hph : l.seq.phase = .prefilling seq.ctxLen := by rw [hl.wait]; exact hphase
    rw [hl.isIntermediate hctx hphase hdec]
    simp only [hph, hreq, hplen, decide_eq_true_eq]

theorem Launched.capturable (hl : Launched s seq st l)
    (he : Equipped s.registry s.graphCache.program s.config) :
    Capturable l.sched.registry l.sched.graphCache.program
      (l.sched.stepKey l.context.admission) := by
  obtain ⟨b, hb, hmem⟩ := hl.plan.bucket
  have hkey : l.sched.stepKey l.context.admission =
      ⟨s.config.planId, s.config.rank, 1, 1, b, 0⟩ := by
    rw [Scheduler.stepKey, hb, hl.sched_eq]
  rw [hkey, hl.sched_eq]
  exact he b hmem

theorem Launched.deviceInv (hl : Launched s seq st l) (hr : Ready g n s) :
    DeviceInv l.sched.registry l.sched.graphCache.program (5 * n) (g + n)
      (l.sched.device l.context.admission.nextStep) := by
  rw [hl.sched_eq]
  exact ⟨rfl, hr.captured.mono le_rfl, hr.events, hr.gens⟩

theorem Launched.accepts (h : SchedInv s) (hr : Ready g n s) (ha : s.active = some seq)
    (hl : Launched s seq st l) {token : ℕ}
    (hacc : ∃ n, (s.detokenizer.appendToken l.seq.seqId token l.seq.detokenizedTail).1 = .ok n) :
    ∃ y, ({ l.seq with phase := .decoding }.appendGeneratedToken token s.detokenizer).1 = .ok y := by
  have hrun := h.active seq ha
  have hsuits := hr.suits seq (by simp [Scheduler.sequences, ha])
  have hdense : Utf8.Dense l.seq.detokenizedTail := by
    rw [hl.wait]
    exact hr.text.dense seq ha
  have htext : ({ l.seq with phase := .decoding } : Sequence).TextOk s.detokenizer := by
    have := hrun.text
    rw [hl.wait]
    exact this
  have hgen : ({ l.seq with phase := .decoding } : Sequence).generated.length <
      ({ l.seq with phase := .decoding } : Sequence).req.maxTokens := by
    have := hrun.phase.generated_lt
    rw [hl.wait]
    exact this
  have hcuts : l.seq.req.CutsWell := by
    rw [hl.wait]
    exact hsuits.cuts
  rcases Sequence.appendGeneratedToken_cases htext hgen token with
    ⟨e, d', -, hrej, -, -⟩ | ⟨⟨s', d', heq⟩, -⟩ | ⟨finish, trimmed, app, d', heq, -⟩
  · obtain ⟨m, hacc⟩ := hacc
    have hrej' : (s.detokenizer.appendToken l.seq.seqId token l.seq.detokenizedTail).1 =
      .error e := congrArg Prod.fst hrej
    rw [hacc] at hrej'
    cases hrej'
  · have hne := Sequence.appendGeneratedToken_ne_panic (s := { l.seq with phase := .decoding })
      hr.wellFormed hr.text.led hdense htext hcuts token
    rw [heq] at hne
    exact absurd rfl hne
  · exact ⟨_, congrArg Prod.fst heq⟩

/-- **A launch succeeds when its executor cooperates.** -/
theorem Launched.succeeds (h : SchedInv s) (hr : Ready g n s) (ha : s.active = some seq)
    (hl : Launched s seq st l) (hctx : st.ctxLen = seq.ctxLen)
    (hcoop : Cooperates exec s.detokenizer) (hshort : g + 5 * (n + 1) < 2 ^ 64) :
    ∃ r, (l.sched.stepDevice l.seq l.context l.range exec).1 = .ok r := by
  obtain ⟨H, hm⟩ := h.exists_inv
  have hrun := h.active seq ha
  have hdev := hl.deviceInv hr
  have hgens := hdev.gens_le
  have hevents := hdev.events_le
  obtain ⟨graph, captured, cache, arena, hgraph, -⟩ :=
    GraphCache.getOrCapture_ok hdev.program_eq (hl.capturable hr.equipped) hdev.captured (by omega)
  set inputs := l.sched.stepInputs l.seq l.context.admission l.range with hinputs
  obtain ⟨token, hread, hacc⟩ := hcoop.sample inputs graph
  have hout := deviceChain_ok rfl (by omega) (hcoop.upload inputs) hgraph
    (hcoop.replay inputs graph) hread
  have hlen : inputs.acceptLen = Scheduler.expectedAccept l.seq l.context.admission :=
    hl.acceptLen hm hrun hctx
  rw [hlen] at hread hout
  have happend := hl.accepts h hr ha (hacc l.seq.detokenizedTail)
  set sample : DeviceStepSample :=
    ⟨inputs.stepId, token, Scheduler.expectedAccept l.seq l.context.admission⟩ with hsample
  have hpost := @Launched.post σ s seq st l (l.ran exec)
    (some ⟨l.context.admission.nextStep, l.seq.seqId, l.range⟩) h hl hctx hrun rfl sample rfl
    (l.device exec).2.captured
  have hout' : (l.device exec).1 = .ok sample := hout
  have heq : l.sched.stepDevice l.seq l.context l.range exec =
      (l.during s exec).postStep l.seq l.context (l.device exec).2.captured sample := by
    rw [hl.stepDevice_eq, hout']
    simp only [Scheduler.checkSample]
    rw [if_neg (fun hne => hne rfl), if_neg (fun hne => hne rfl)]
  rw [heq]
  exact hpost.2 (Or.inr happend)

theorem Ready.promote (h : SchedInv s) (hr : Ready g n s) : Ready g n s.promote := by
  have htext := hr.text.promote h
  rcases h.promote_eq with heq | ⟨q, rest, hactive, hq, heq⟩
  · rwa [heq]
  · rw [heq] at htext ⊢
    refine { hr with suits := ?_, text := htext, waits := ?_ }
    · intro seq hseq
      simp only [Scheduler.sequences, h.paused, Option.toList_none, Option.toList_some,
        append_nil, mem_append, mem_singleton] at hseq
      rcases hseq with hseq | rfl
      · exact hr.suits seq (by simp [Scheduler.sequences, hq, hseq])
      · exact hr.suits q (by simp [Scheduler.sequences, hq])
    · have hzero : q.waitSteps = 0 := by rw [(h.queued q (by simp [hq])).fresh]; rfl
      simp [hzero]

theorem SchedInv.step_waits (h : SchedInv s) (hr : Ready g n s) (hshort : g + 5 * (n + 1) < 2 ^ 64)
    (hnone : s.launch = none) (exec : StepExecutor) :
    s.step exec = (.ok none, s) ∨ ∃ seq seq', s.promote.active = some seq ∧
      seq'.waitSteps = seq.waitSteps + 1 ∧
      s.step exec = (.ok none, { s.promote with active := some seq' }) := by
  have hready := hr.promote h
  obtain ⟨b, hb, hfin, hpre, hroom⟩ := hr.priced.budget
  unfold Scheduler.step
  unfold Scheduler.launch at hnone
  cases hidle : s.isIdle with
  | true => exact Or.inl rfl
  | false =>
    obtain ⟨seq, ha⟩ := Scheduler.promote_active hidle
    simp only [hidle, Bool.false_eq_true, if_false, hb, ha] at hnone ⊢
    have hcount := hready.counter
    have hwaits := hready.waits seq ha
    rcases h.promote.stepSeq_ready ha (hready.suits seq (by simp [Scheduler.sequences, ha]))
      hready.priced.total hfin hpre hroom (by omega) (by omega) exec with
      ⟨-, seq', hsteps, heq⟩ | ⟨l, hl⟩
    · exact Or.inr ⟨seq, seq', rfl, hsteps, heq⟩
    · rw [hl] at hnone
      cases hnone

/-- **A step succeeds when its executor cooperates.** -/
theorem SchedInv.step_ok (h : SchedInv s) (hr : Ready g n s) (hshort : g + 5 * (n + 1) < 2 ^ 64)
    (hcoop : Cooperates exec s.detokenizer) : ∃ r, (s.step exec).1 = .ok r := by
  cases hlaunch : s.launch with
  | none =>
    rcases h.step_waits hr hshort hlaunch exec with heq | ⟨_, _, -, -, heq⟩
    · exact ⟨none, congrArg Prod.fst heq⟩
    · exact ⟨none, congrArg Prod.fst heq⟩
  | some l =>
    have hspec := s.launch_spec
    rw [hlaunch] at hspec
    obtain ⟨seq, st, ha, -, hctx, hl, -⟩ := h.launched hlaunch
    have hdetok : s.promote.detokenizer = s.detokenizer := by
      rcases h.promote_eq with heq | ⟨_, _, -, -, heq⟩ <;> rw [heq]
    rw [hspec exec]
    exact hl.succeeds h.promote (hr.promote h) ha hctx (hdetok ▸ hcoop) hshort

end Success

/-! ### Along a run -/

section Run

variable {s s' s₀ : Scheduler σ} {seq : Sequence} {st : SeqState} {id tok : Option ℕ} {g n : ℕ}
  {out : SchedOutcome (Option StepResult)} {es : List (Event σ)} {c : SchedCall}
  {reply : Except SchedError Reply}

theorem StepCase.requests {P : Request → Prop} (h : SchedInv s) (ha : s.active = some seq)
    (hP : ∀ q ∈ s.sequences, P q.req) (hcase : StepCase s seq st id tok (out, s'))
    (hout : out ≠ .error .panic) : ∀ q ∈ s'.sequences, P q.req := by
  have hrun := h.active seq ha
  have hseq : P seq.req := hP seq (by simp [Scheduler.sequences, ha])
  have hqueued : ∀ q ∈ s.queued, P q.req := fun q hq => hP q (by simp [Scheduler.sequences, hq])
  have hkeep : ∀ {s₁ : Scheduler σ} {q : Sequence}, s₁.queued = s.queued → s₁.active = some q →
      s₁.paused = none → q.req = seq.req → ∀ q ∈ s₁.sequences, P q.req := by
    intro s₁ q hq₁ ha₁ hp₁ hreq q' hq'
    simp only [Scheduler.sequences, hq₁, ha₁, hp₁, Option.toList_some, Option.toList_none,
      append_nil, mem_append, mem_singleton] at hq'
    rcases hq' with hq' | rfl
    · exact hqueued q' hq'
    · exact hreq ▸ hseq
  cases hcase with
  | waited hwait => exact hkeep rfl rfl h.paused (by rw [hwait])
  | failed e hwait => exact hkeep rfl rfl h.paused (by rw [hwait])
  | committed captured hwait hplan htook =>
    refine hkeep rfl rfl h.paused ?_
    obtain ⟨-, -, hreq, -⟩ := htook.frame (hrun.waited hwait)
    rw [Sequence.advance, hreq, hwait]
  | finished =>
    intro q hq
    refine hqueued q ?_
    simpa [Scheduler.sequences, Scheduler.ran, h.paused] using hq
  | panicked => exact absurd rfl hout

theorem StepCase.config_eq (hcase : StepCase s seq st id tok (out, s'))
    (hout : out ≠ .error .panic) : s'.stateManager.config = s.stateManager.config := by
  cases hcase with
  | waited => rfl
  | failed e hwait hplan hcyc => exact hcyc.beside.config_eq
  | committed captured hwait hplan htook hcyc => exact hcyc.beside.config_eq
  | @finished _ x seq' app m' m'' d' w phase r log reason captured hwait hplan htook hcyc hfree =>
    obtain ⟨H, hm⟩ := hcyc.exists_inv
    obtain ⟨st', hst', -⟩ := hcyc.seq
    obtain ⟨m₃, hfree', -, hbeside, -⟩ := freeSeq_ok hm hst'
    obtain rfl : m'' = m₃ := by
      rw [hfree] at hfree'
      simpa using hfree'
    exact (hcyc.beside.trans hbeside).config_eq
  | panicked => exact absurd rfl hout

theorem Ready.mono (hr : Ready g n s) : Ready g (n + 1) s :=
  { hr with
    counter := hr.counter.trans (Nat.le_succ n)
    waits := fun seq hseq => (hr.waits seq hseq).trans (Nat.le_succ n)
    events := hr.events.trans (by omega)
    gens := hr.gens.trans (by omega) }

theorem SchedInv.step_kit {exec : StepExecutor} (h : SchedInv s) (hr : Ready g n s)
    (hshort : g + 5 * (n + 1) < 2 ^ 64) (hstep : s.step exec = (out, s')) :
    s'.registry = s.registry ∧ s'.costTable = s.costTable ∧
    DeviceInv s.registry s.graphCache.program (5 * (n + 1)) (g + (n + 1))
      ⟨s'.eventChain, s'.graphCache, s'.arena, false⟩ ∧
    ∀ seq, s'.active = some seq → seq.waitSteps ≤ n + 1 := by
  have hready := hr.promote h
  have hkit : s.promote.kit = s.kit := by
    rcases h.promote_eq with heq | ⟨_, _, -, -, heq⟩
    · rw [heq]
    · rw [heq]
      rfl
  have hsame : s'.kit = s.kit → s'.registry = s.registry ∧ s'.costTable = s.costTable ∧
      DeviceInv s.registry s.graphCache.program (5 * (n + 1)) (g + (n + 1))
        ⟨s'.eventChain, s'.graphCache, s'.arena, false⟩ := by
    intro heq
    simp only [Scheduler.kit, Kit.mk.injEq] at heq
    obtain ⟨h₁, h₂, h₃, h₄, h₅⟩ := heq
    refine ⟨h₄, h₅, ?_⟩
    rw [h₁, h₂, h₃]
    have hev := hr.events
    have hg := hr.gens
    exact ⟨rfl, hr.captured, by simp only; omega, by simp only; omega⟩
  cases hlaunch : s.launch with
  | none =>
    rcases h.step_waits hr hshort hlaunch exec with heq | ⟨seq, seq', ha, hsteps, heq⟩
    · obtain ⟨-, rfl⟩ := Prod.mk.inj (hstep.symm.trans heq)
      obtain ⟨h₁, h₂, h₃⟩ := hsame rfl
      exact ⟨h₁, h₂, h₃, fun seq hseq => (hr.waits seq hseq).trans (Nat.le_succ n)⟩
    · obtain ⟨-, rfl⟩ := Prod.mk.inj (hstep.symm.trans heq)
      obtain ⟨h₁, h₂, h₃⟩ := hsame hkit
      refine ⟨h₁, h₂, h₃, ?_⟩
      rintro _ ⟨⟩
      have := hready.waits seq ha
      omega
  | some l =>
    have hspec := s.launch_spec
    rw [hlaunch] at hspec
    obtain ⟨seq, st, ha, -, hctx, hl, hwaits⟩ := h.launched hlaunch
    have hinv := h.promote
    have hn : l.seq.waitSteps ≤ n + 1 := by
      have := hready.waits seq ha
      omega
    have hframe := @Launch.framed _ (n + 1) l exec (by rw [hl.sched_eq]; exact hinv.paused)
      (by rw [hl.sched_eq]) hn
    rw [← hspec exec, hstep] at hframe
    have hdev : DeviceInv l.sched.registry l.sched.graphCache.program (5 * n + 5) (g + n + 1)
        (l.device exec).2 :=
      deviceChain_keeps (hl.capturable hready.equipped) (by omega) _ (hl.deviceInv hready)
    have hkit' := hframe.kit_eq
    simp only [Scheduler.kit, Kit.mk.injEq] at hkit'
    obtain ⟨h₁, h₂, h₃, h₄, h₅⟩ := hkit'
    have hsched : l.sched.registry = s.registry ∧ l.sched.costTable = s.costTable ∧
        l.sched.graphCache.program = s.graphCache.program := by
      rw [hl.sched_eq]
      simp only [Scheduler.kit, Kit.mk.injEq] at hkit
      exact ⟨hkit.2.2.2.1, hkit.2.2.2.2, by rw [hkit.2.1]⟩
    refine ⟨h₄.trans hsched.1, h₅.trans hsched.2.1, ?_, hframe.waits⟩
    rw [hsched.1, hsched.2.2] at hdev
    rw [h₁, h₂, h₃]
    exact ⟨hdev.1, hdev.2, hdev.3.trans (by omega), hdev.4.trans (by omega)⟩

theorem Ready.step {exec : StepExecutor} (h : SchedInv s) (hr : Ready g n s)
    (hshort : g + 5 * (n + 1) < 2 ^ 64) (hstep : s.step exec = (out, s'))
    (hout : out ≠ .error .panic) : Ready g (n + 1) s' := by
  obtain ⟨hreg, hcost, hdev, hwaits⟩ := h.step_kit hr hshort hstep
  have hfacts := h.step_facts hstep hout
  have hcounter : s'.stepCounter ≤ n + 1 := by
    have hle := hr.counter
    rcases h.step_cases exec with ⟨-, heq | ⟨e, heq⟩⟩ | ⟨seq, st, ha, -, -, -, hcase⟩
    · obtain ⟨-, rfl⟩ := Prod.mk.inj (hstep.symm.trans heq)
      omega
    · obtain ⟨-, rfl⟩ := Prod.mk.inj (hstep.symm.trans heq)
      omega
    · cases hlaunch : s.launch with
      | none =>
        rw [hstep, hlaunch] at hcase
        have hp := (hr.promote h).counter
        cases hcase with
        | waited => exact hp.trans (Nat.le_succ n)
        | panicked => exact absurd rfl hout
      | some l =>
        obtain ⟨h₁, h₂⟩ := hfacts.launch_eq l.stepId (by rw [hlaunch]; rfl)
        omega
  rcases h.step_cases exec with ⟨-, heq | ⟨e, heq⟩⟩ | ⟨seq, st, ha, -, -, -, hcase⟩
  · obtain ⟨-, rfl⟩ := Prod.mk.inj (hstep.symm.trans heq)
    exact hr.mono
  · obtain ⟨-, rfl⟩ := Prod.mk.inj (hstep.symm.trans heq)
    exact hr.mono
  · rw [hstep] at hcase
    have hready := hr.promote h
    have hcfg : s.promote.config = s.config ∧ s.promote.stateManager = s.stateManager := by
      rcases h.promote_eq with heq | ⟨_, _, -, -, heq⟩ <;> rw [heq] <;> exact ⟨rfl, rfl⟩
    have hmax : s'.stateManager.config = s.stateManager.config := by
      rw [hcase.config_eq hout, hcfg.2]
    have hsuits := hcase.requests h.promote ha hready.suits hout
    refine ⟨?_, ?_, ?_, ?_, hcase.wellFormed hready.wellFormed hout,
      hcase.text hready.wellFormed hready.text ha hout, hcounter, hwaits, hdev.events_le,
      hdev.gens_le⟩
    · rw [hcost, hfacts.config_eq]
      exact hr.priced
    · have hprog : s'.graphCache.program = s.graphCache.program := hdev.program_eq
      rw [hreg, hprog, hfacts.config_eq]
      exact hr.equipped
    · have hprog : s'.graphCache.program = s.graphCache.program := hdev.program_eq
      rw [hreg, hprog]
      exact hdev.captured
    · intro q hq
      have hq' := hsuits q hq
      rw [hcfg.1, hcfg.2] at hq'
      exact ⟨by rw [hmax]; exact hq'.fits, hfacts.config_eq ▸ hq'.bucketed, hq'.cuts⟩

theorem Cancelled.sequences_subset {k : SeqId} (h : SchedInv s) (hcan : Cancelled s s' k) :
    s'.sequences ⊆ s.sequences := by
  intro q hq
  simp only [Scheduler.sequences, h.paused, hcan.inv.paused, Option.toList_none, append_nil,
    mem_append, Option.mem_toList] at hq ⊢
  rcases hq with hq | hq
  · exact Or.inl (hcan.queued.subset hq)
  · rcases hcan.active with ha | ⟨ha, -⟩
    · exact Or.inr (ha ▸ hq)
    · rw [ha] at hq
      cases hq

theorem Ready.cancelled {k : SeqId} (h : SchedInv s) (hr : Ready g n s) (hcan : Cancelled s s' k) :
    Ready g n s' := by
  have hkit := hcan.kit_eq
  simp only [Scheduler.kit, Kit.mk.injEq] at hkit
  obtain ⟨hchain, hcache, harena, hreg, hcost⟩ := hkit
  obtain ⟨hcounter, -, -, -, hconfig⟩ := hcan.same
  have hactive : ∀ seq, s'.active = some seq → s.active = some seq := by
    intro seq hseq
    rcases hcan.active with ha | ⟨ha, -⟩
    · exact ha ▸ hseq
    · rw [ha] at hseq
      cases hseq
  constructor
  case priced => rw [hcost, hconfig]; exact hr.priced
  case equipped => rw [hreg, hcache, hconfig]; exact hr.equipped
  case captured => rw [hreg, hcache, harena]; exact hr.captured
  case suits =>
    intro seq hseq
    obtain ⟨hfits, hbuckets, hcuts⟩ := hr.suits seq (hcan.sequences_subset h hseq)
    exact ⟨by rw [hcan.beside.config_eq]; exact hfits, hconfig ▸ hbuckets, hcuts⟩
  case wellFormed => rw [hcan.detokenizer]; exact hr.wellFormed.reset k
  case text =>
    refine ⟨?_, fun seq hseq => hr.text.dense seq (hactive seq hseq)⟩
    rw [hcan.detokenizer]
    exact hr.text.led.reset k
  case counter => rw [hcounter]; exact hr.counter
  case waits => exact fun seq hseq => hr.waits seq (hactive seq hseq)
  case events => rw [hchain]; exact hr.events
  case gens => rw [harena]; exact hr.gens

theorem CallEffect.ready (h : SchedInv s) (hr : Ready g n s) (hshort : g + 5 * (n + 1) < 2 ^ 64)
    (he : CallEffect s c reply s')
    (hsuits : ∀ req, c = .enqueue req → Suits s.stateManager s.config req) :
    Ready g (n + 1) s' := by
  cases he with
  | refused => exact hr.mono
  | @enqueued req m' hnext hcfg hothers =>
    refine { hr.mono with suits := ?_, text := ⟨hr.text.led, hr.text.dense⟩ }
    intro seq hseq
    have hseq' : seq.req = req ∨ seq ∈ s.sequences := by
      simp only [Scheduler.sequences, mem_append, mem_singleton] at hseq ⊢
      rcases hseq with ((hseq | rfl) | hseq) | hseq
      · exact Or.inr (Or.inl (Or.inl hseq))
      · exact Or.inl rfl
      · exact Or.inr (Or.inl (Or.inr hseq))
      · exact Or.inr (Or.inr hseq)
    have hsuit : Suits s.stateManager s.config seq.req := by
      rcases hseq' with hreq | hmem
      · rw [hreq]
        exact hsuits req rfl
      · exact hr.suits seq hmem
    exact ⟨by rw [hcfg]; exact hsuit.fits, hsuit.bucketed, hsuit.cuts⟩
  | stepped hstep => exact hr.step h hshort hstep (by simp)
  | missed => exact hr.mono
  | cancelled _ _ hcan => exact (hr.cancelled h hcan).mono
  | taken => exact { hr.mono with suits := hr.suits, text := ⟨hr.text.led, hr.text.dense⟩ }

theorem CallEffect.configs (h : SchedInv s) (he : CallEffect s c reply s') :
    s'.config = s.config ∧ s'.stateManager.config = s.stateManager.config := by
  cases he with
  | refused => exact ⟨rfl, rfl⟩
  | enqueued _ hcfg => exact ⟨rfl, hcfg⟩
  | @stepped exec out _ hstep =>
    refine ⟨(h.step_facts hstep (by simp)).config_eq, ?_⟩
    rcases h.step_cases exec with ⟨-, heq | ⟨e, heq⟩⟩ | ⟨seq, st, -, -, -, -, hcase⟩
    · obtain ⟨-, rfl⟩ := Prod.mk.inj (hstep.symm.trans heq)
      rfl
    · obtain ⟨-, rfl⟩ := Prod.mk.inj (hstep.symm.trans heq)
      rfl
    · rw [hstep] at hcase
      rw [hcase.config_eq (by simp)]
      rcases h.promote_eq with heq | ⟨_, _, -, -, heq⟩ <;> rw [heq]
  | missed => exact ⟨rfl, rfl⟩
  | cancelled _ _ hcan => exact ⟨hcan.same.2.2.2.2, hcan.beside.config_eq⟩
  | taken => exact ⟨rfl, rfl⟩

theorem Run.configs (h₀ : SchedInv s₀) (hr : Run s₀ es s) :
    s.config = s₀.config ∧ s.stateManager.config = s₀.stateManager.config := by
  induction hr with
  | nil => exact ⟨rfl, rfl⟩
  | snoc hrun hexec ih =>
    obtain ⟨h₁, h₂⟩ := ((hrun.inv h₀).exec hexec).1.configs (hrun.inv h₀)
    exact ⟨h₁.trans ih.1, h₂.trans ih.2⟩

theorem captureAll_captured {registry : Registry σ} {program : StepGraphProgram σ}
    {arena : WorkspaceArena} {keys : List StepGraphKey}
    {graphs graphs' : Std.ExtTreeMap StepGraphKey CapturedGraph}
    (h : Captured registry program arena graphs)
    (hall : GraphCache.captureAll registry program arena keys graphs = (Except.ok (), graphs')) :
    Captured registry program arena graphs' := by
  induction keys generalizing graphs with
  | nil =>
    cases hall
    exact h
  | cons key keys ih =>
    simp only [GraphCache.captureAll] at hall
    split at hall
    · cases hall
    · rename_i g hg
      exact ih (h.insert hg) hall

theorem Scheduler.Fresh.ready (h₀ : s₀.Fresh) (hpriced : Priced s₀.costTable s₀.config)
    (hequipped : Equipped s₀.registry s₀.graphCache.program s₀.config) :
    Ready s₀.arena.generation 0 s₀ := by
  obtain ⟨config, m, registry, cost, program, arena, -, hnew⟩ := h₀
  simp only [Scheduler.new, bind_eq_ok, pure_eq_ok] at hnew
  obtain ⟨_, -, cache, hcache, _, -, _, -, rfl⟩ := hnew
  constructor
  case priced => exact hpriced
  case equipped => exact hequipped
  case captured =>
    unfold GraphCache.eagerCaptureWarmBuckets at hcache
    split at hcache
    · cases hcache
    · rename_i graphs hall
      cases hcache
      exact captureAll_captured (fun _ _ hg => by simp at hg) hall
  case suits => exact fun seq hseq => (by cases hseq)
  case wellFormed => exact ByteDetokenizer.new_wellFormed
  case text => exact ⟨fun hno => absurd rfl hno, fun _ hno => (by cases hno)⟩
  case counter => exact le_rfl
  case waits => exact fun _ hno => (by cases hno)
  case events => exact le_rfl
  case gens => exact le_rfl

/-- **A scheduler stays ready along a run of requests that suit it.** -/
theorem Run.ready (h₀ : s₀.Fresh) (hpriced : Priced s₀.costTable s₀.config)
    (hequipped : Equipped s₀.registry s₀.graphCache.program s₀.config) (hr : Run s₀ es s)
    (hsuits : ∀ e ∈ es, ∀ req, e.call = .enqueue req → Suits s₀.stateManager s₀.config req)
    (hshort : s₀.arena.generation + 5 * es.length < 2 ^ 64) :
    Ready s₀.arena.generation es.length s := by
  induction hr with
  | nil => exact h₀.ready hpriced hequipped
  | @snoc es s s' c reply hrun hexec ih =>
    rw [length_append, length_singleton] at hshort ⊢
    have hinv := hrun.inv h₀.inv
    obtain ⟨hcfg, hmcfg⟩ := hrun.configs h₀.inv
    have hready := ih (fun e he => hsuits e (mem_append_left _ he)) (by omega)
    refine (hinv.exec hexec).1.ready hinv hready hshort fun req hreq => ?_
    obtain ⟨hfits, hbuckets, hcuts⟩ := hsuits ⟨s, c, reply, s'⟩ (by simp) req hreq
    exact ⟨by rw [hmcfg]; exact hfits, hcfg ▸ hbuckets, hcuts⟩

/-- **Requests that suit the scheduler run**: along a run in which all requests do, a step
whose executor cooperates returns. -/
theorem admitted_requests_run (h₀ : s₀.Fresh) (hpriced : Priced s₀.costTable s₀.config)
    (hequipped : Equipped s₀.registry s₀.graphCache.program s₀.config) (hr : Run s₀ es s)
    (hsuits : ∀ e ∈ es, ∀ req, e.call = .enqueue req → Suits s₀.stateManager s₀.config req)
    (hshort : s₀.arena.generation + 5 * (es.length + 1) < 2 ^ 64) {exec : StepExecutor}
    (hcoop : Cooperates exec s.detokenizer) : ∃ r, (s.step exec).1 = .ok r := by
  have hready := hr.ready h₀ hpriced hequipped hsuits (by omega)
  exact (hr.inv h₀.inv).step_ok hready hshort hcoop

end Run

/-! ### The small scheduler -/

/-- An executor that cooperates, and samples the same letter always. -/
def letterSampler : StepExecutor where
  uploadInputs _ := .ok ()
  replayGraph _ _ := .ok ()
  readbackSample i _ := .ok ⟨i.stepId, 65, i.acceptLen⟩

theorem letterSampler_cooperates {d : ByteDetokenizer} (h : d.bufLen = 0) :
    Cooperates letterSampler d := by
  refine ⟨fun _ => rfl, fun _ _ => rfl, fun i _ => ⟨65, rfl, fun out => ?_⟩⟩
  have hserve : (d.serve i.seqId).bufLen = 0 := by
    unfold ByteDetokenizer.serve
    split
    · rfl
    · exact h
  refine ⟨1, ?_⟩
  unfold ByteDetokenizer.appendToken
  simp only [hserve, if_true]
  rfl

section Small

theorem validateCostMs_ok {context : String} {c : Float32}
    (h : (c.isFinite && !decide (c < 0.0)) = true) : validateCostMs context c = .ok c := by
  simp only [Bool.and_eq_true, Bool.not_eq_true', decide_eq_false_iff_not] at h
  unfold validateCostMs
  rw [h.1]
  simpa using h.2

theorem CostTableStub.total {t : CostTableStub} (hexact : t.exactTable = [])
    (hbase : (t.baseDecodeMs.isFinite && !decide (t.baseDecodeMs < 0.0)) = true)
    (hcost : ∀ b ∈ bucketSizes, ((t.baseDecodeMs + countMs b * t.prefillTokenMs).isFinite &&
      !decide (t.baseDecodeMs + countMs b * t.prefillTokenMs < 0.0)) = true) :
    t.toTable.Total := by
  intro tDec hle tPre
  have hS : (bucketS (max 1 1)).toOption.getD 1 = 1 := rfl
  have hDec : (bucketTDec (max tDec 1)).toOption.getD 1 = 1 := by
    rw [max_eq_right hle]
    rfl
  simp only [CostTableStub.toTable, CostTableStub.costMs, hexact, lookup_nil, hS, hDec,
    Nat.lt_irrefl, if_false]
  rcases bucketTPre_cases tPre with ⟨-, b, hb, rfl | hmem⟩ | ⟨-, e, he⟩
  · rw [hb]
    exact ⟨_, validateCostMs_ok hbase⟩
  · have hpos : 0 < b := by
      simp only [bucketSizes, mem_cons, not_mem_nil, or_false] at hmem
      omega
    rw [hb]
    refine ⟨t.baseDecodeMs + countMs b * t.prefillTokenMs, ?_⟩
    rw [← validateCostMs_ok (hcost b hmem)]
    exact congrArg _ (if_pos hpos)
  · rw [he]
    exact ⟨_, validateCostMs_ok hbase⟩

theorem Scheduler.new_parts {config : SchedulerConfig} {m : StateManager} {registry : Registry σ}
    {cost : CostTable} {program : StepGraphProgram σ} {arena : WorkspaceArena} {s : Scheduler σ}
    (h : Scheduler.new config m registry cost program arena = .ok s) :
    s.config = config ∧ s.stateManager = m ∧ s.registry = registry ∧ s.costTable = cost ∧
      s.graphCache.program = program := by
  simp only [Scheduler.new, bind_eq_ok, pure_eq_ok] at h
  obtain ⟨_, -, cache, hcache, _, -, _, -, rfl⟩ := h
  unfold GraphCache.eagerCaptureWarmBuckets at hcache
  split at hcache
  · cases hcache
  · cases hcache
    exact ⟨rfl, rfl, rfl, rfl, rfl⟩

theorem small_priced : Priced smallScheduler.costTable smallScheduler.config := by
  obtain ⟨hconfig, -, -, hcost, -⟩ := Scheduler.new_parts smallNew_eq
  refine ⟨CostTableStub.total rfl (by decide) (by decide), 10.0, ?_, ?_⟩
  · exact (if_neg (by decide) : validateBudgetMs 10.0 = .ok 10.0)
  · decide

/-- A key whose graph an arena captures, with a size that can be aligned. -/
theorem Capturable.of_any {registry : Registry σ} {program : StepGraphProgram σ}
    {key : StepGraphKey} {arena : WorkspaceArena}
    (h : (StepGraphBuilder.capture registry key program arena).toOption.any
      (fun g => decide (g.requiredWorkspaceBytes + 255 < 2 ^ 64)) = true) :
    Capturable registry program key := by
  cases hcap : StepGraphBuilder.capture registry key program arena with
  | error e =>
    rw [hcap] at h
    cases h
  | ok g =>
    rw [hcap] at h
    exact ⟨arena, g, hcap, of_decide_eq_true h⟩

theorem small_equipped :
    Equipped smallScheduler.registry smallScheduler.graphCache.program smallScheduler.config := by
  obtain ⟨hconfig, -, hregistry, -, hprogram⟩ := Scheduler.new_parts smallNew_eq
  intro b hb
  refine @Capturable.of_any _ _ _ _ (.new 0 0) ?_
  have hmem : b ∈ 0 :: bucketSizes := mem_cons.mpr hb
  clear hb
  revert b
  decide

/-- A request that fills the context: there is no room for its second token. -/
def fullRequest : Request where
  id := 8
  tokens := List.replicate 96 1
  sampling := ⟨0.0, 1, 1.0, 0.0, 1.0, 0.0, 0.0, []⟩
  maxTokens := 2
  stop := .new [] []
  stream := false
  seed := 7
  maxTokens_lt := by decide
  tokens_ne := by decide
  maxTokens_ne := by decide
  sampling_ok := greedy_ok

/-- The calls in which a request fills the context. -/
def fullCalls : List SchedCall :=
  [.enqueue fullRequest, .step letterSampler, .step letterSampler]

/-- A step has failed because the context is full. -/
def contextFull (x : SchedOutcome α) : Option (ℕ × ℕ × ℕ) :=
  match x with
  | .error (.err (.state (.reserveTooLarge stop maxCtx n))) => some (stop, maxCtx, n)
  | _ => none

/-- The text that is held back is empty before every call and after the calls, and the next step
fails. -/
theorem fullCalls_eq : (smallScheduler.calls fullCalls).map (fun r =>
    (r.1.all fun e => e.before.detokenizer.bufLen == 0, r.2.detokenizer.bufLen,
      contextFull (r.2.step letterSampler).1)) = some (true, 0, some (97, 96, 1)) := by
  decide +kernel

theorem fullCalls_isSome : (smallScheduler.calls fullCalls).isSome = true :=
  isSome_of_map fullCalls_eq

/-- What has happened after these calls. -/
def fullRun : List (Event Unit) × Scheduler Unit :=
  (smallScheduler.calls fullCalls).get fullCalls_isSome

theorem fullRun_eq : smallScheduler.calls fullCalls = some fullRun :=
  (Option.some_get fullCalls_isSome).symm

theorem fullRun_facts : (∀ e ∈ fullRun.1, e.before.detokenizer.bufLen = 0) ∧
    fullRun.2.detokenizer.bufLen = 0 ∧
    contextFull (fullRun.2.step letterSampler).1 = some (97, 96, 1) := by
  obtain ⟨r, hr, hfacts⟩ := Option.map_eq_some_iff.mp fullCalls_eq
  have hget : fullRun = r := Option.get_of_eq_some _ hr
  rw [hget]
  simpa only [Prod.mk.injEq, all_eq_true, beq_iff_eq] using hfacts

/-- The calls in which a request that suits the scheduler takes its first token. -/
def fittingCalls : List SchedCall :=
  [.enqueue smallRequest, .step letterSampler, .step letterSampler]

theorem fittingCalls_eq : (smallScheduler.calls fittingCalls).map (fun r =>
    (decide (smallScheduler.arena.generation + 5 * (r.1.length + 1) < 2 ^ 64),
      r.2.detokenizer.bufLen)) = some (true, 0) := by
  decide +kernel

theorem fittingCalls_isSome : (smallScheduler.calls fittingCalls).isSome = true :=
  isSome_of_map fittingCalls_eq

/-- What has happened after these calls. -/
def fittingRun : List (Event Unit) × Scheduler Unit :=
  (smallScheduler.calls fittingCalls).get fittingCalls_isSome

theorem fittingRun_eq : smallScheduler.calls fittingCalls = some fittingRun :=
  (Option.some_get fittingCalls_isSome).symm

theorem fittingRun_facts :
    smallScheduler.arena.generation + 5 * (fittingRun.1.length + 1) < 2 ^ 64 ∧
      fittingRun.2.detokenizer.bufLen = 0 := by
  obtain ⟨r, hr, hfacts⟩ := Option.map_eq_some_iff.mp fittingCalls_eq
  have hget : fittingRun = r := Option.get_of_eq_some _ hr
  rw [hget]
  simpa only [Prod.mk.injEq, decide_eq_true_eq] using hfacts

theorem small_suits : Suits smallScheduler.stateManager smallScheduler.config smallRequest := by
  obtain ⟨hconfig, hm, -, -, -⟩ := Scheduler.new_parts smallNew_eq
  exact ⟨by decide, Or.inl (by decide), Or.inl (by decide)⟩

theorem admitted_requests_run_small :
    smallScheduler.Fresh ∧ Run smallScheduler fittingRun.1 fittingRun.2 ∧
      ∃ r, (fittingRun.2.step letterSampler).1 = .ok r := by
  have hrun := Run.of_calls fittingRun_eq
  refine ⟨smallScheduler_fresh, hrun, ?_⟩
  refine admitted_requests_run smallScheduler_fresh small_priced small_equipped hrun ?_
    fittingRun_facts.1 (letterSampler_cooperates fittingRun_facts.2)
  intro e he req hreq
  have hmem : e.call ∈ fittingCalls := by
    rw [← Scheduler.calls_map fittingRun_eq]
    exact mem_map_of_mem he
  rw [hreq] at hmem
  obtain rfl : req = smallRequest := by simpa [fittingCalls] using hmem
  exact small_suits

/-- The executor cooperates in every step; the request was accepted, its prompt fills the
context, and the step of its second token fails. -/
theorem full_context_fails :
    smallScheduler.Fresh ∧ Priced smallScheduler.costTable smallScheduler.config ∧
    Equipped smallScheduler.registry smallScheduler.graphCache.program smallScheduler.config ∧
    Run smallScheduler fullRun.1 fullRun.2 ∧
    (∀ e ∈ fullRun.1, ∀ exec, e.call = .step exec → Cooperates exec e.before.detokenizer) ∧
    Cooperates letterSampler fullRun.2.detokenizer ∧
    contextFull (fullRun.2.step letterSampler).1 = some (97, 96, 1) := by
  refine ⟨smallScheduler_fresh, small_priced, small_equipped, Run.of_calls fullRun_eq, ?_,
    letterSampler_cooperates fullRun_facts.2.1, fullRun_facts.2.2⟩
  intro e he exec hexec
  have hmem : e.call ∈ fullCalls := by
    rw [← Scheduler.calls_map fullRun_eq]
    exact mem_map_of_mem he
  rw [hexec] at hmem
  obtain rfl : exec = letterSampler := by simpa [fullCalls] using hmem
  exact letterSampler_cooperates (fullRun_facts.1 e he)

end Small

end R9v

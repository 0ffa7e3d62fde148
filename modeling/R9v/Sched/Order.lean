import R9v.Sched.Runs

/-!
# Step ids and commits

Every step that comes to its device phase takes an id that no step had before, and
keeps it whether it fails or not. A step that commits logs one record under its id, so
that the ids that are committed, the last one committed and the ids in the log go up
along every run; and the length of a sequence only changes in such a step.
-/

namespace R9v

open Checked StateManager List

/-- The id that a step handed to its executor, if it came to that: a step that has a
launch is the device phase of the launch (`Scheduler.launch_spec`). -/
def Event.handedId (e : Event σ) : Option ℕ :=
  match e.call with
  | .step _ => e.before.launch.map Launch.stepId
  | _ => none

/-- The result of a step that has committed. -/
def Event.committed (e : Event σ) : Option StepResult :=
  match e.reply with
  | .ok (.stepped r) => r
  | _ => none

/-- The ids that were committed. -/
def committedIds (es : List (Event σ)) : List ℕ := es.filterMap fun e => e.committed.map (·.stepId)

/-- The records that were logged. -/
def loggedRecords (es : List (Event σ)) : List ScheduleRecord :=
  es.filterMap fun e => e.committed.map (·.record)

/-- Whether a step was one of sequence `k`, with `n` tokens: a chunk of its prompt, or
one token. -/
def StepResult.Advances (r : StepResult) (k : SeqId) (n : ℕ) : Prop :=
  (r.step.seqsPrefill = [(k, n)] ∧ r.step.seqsDecode = []) ∨
    (r.step.seqsPrefill = [] ∧ r.step.seqsDecode = [k] ∧ n = 1)

/-- What a call does to the counters, the log and the lengths. -/
structure EventFacts (e : Event σ) : Prop where
  counter_le : e.before.stepCounter ≤ e.after.stepCounter
  handed : ∀ id, e.handedId = some id → id = e.before.stepCounter + 1 ∧ e.after.stepCounter = id
  quiet : e.committed = none → e.after.lastCommittedStep = e.before.lastCommittedStep ∧
    e.after.scheduleLog = e.before.scheduleLog ∧
    ∀ (k : SeqId) (st st' : SeqState), e.before.stateManager.seqs[k]? = some st →
      e.after.stateManager.seqs[k]? = some st' → st'.ctxLen = st.ctxLen
  committed : ∀ r, e.committed = some r → e.handedId = some r.stepId ∧
    e.after.lastCommittedStep = some r.stepId ∧ r.record.stepId = r.stepId ∧
    e.before.scheduleLog.push r.record = (.ok (), e.after.scheduleLog) ∧
    ∃ k n, r.Advances k n ∧
      (∀ k', k' ≠ k → e.after.stateManager.seqs[k']? = e.before.stateManager.seqs[k']?) ∧
      ∀ (st st' : SeqState), e.before.stateManager.seqs[k]? = some st →
        e.after.stateManager.seqs[k]? = some st' → st'.ctxLen = st.ctxLen + n

section Facts

variable {s s' s₀ : Scheduler σ} {es : List (Event σ)} {c : SchedCall}
  {reply : Except SchedError Reply}

theorem EventFacts.of_quiet (hs : ∀ exec, c ≠ .step exec)
    (hcom : (⟨s, c, reply, s'⟩ : Event σ).committed = none)
    (hcounter : s'.stepCounter = s.stepCounter) (hlast : s'.lastCommittedStep = s.lastCommittedStep)
    (hlog : s'.scheduleLog = s.scheduleLog)
    (hlen : ∀ (k : SeqId) (st st' : SeqState), s.stateManager.seqs[k]? = some st →
      s'.stateManager.seqs[k]? = some st' → st'.ctxLen = st.ctxLen) :
    EventFacts ⟨s, c, reply, s'⟩ where
  counter_le := hcounter.ge
  handed := by
    intro id hid
    cases c with
    | step exec => exact absurd rfl (hs exec)
    | _ => simp [Event.handedId] at hid
  quiet _ := ⟨hlast, hlog, hlen⟩
  committed r hr := by
    rw [hcom] at hr
    cases hr

theorem CallEffect.facts (h : SchedInv s) (he : CallEffect s c reply s') :
    EventFacts ⟨s, c, reply, s'⟩ := by
  have hsame : ∀ (k : SeqId) (st st' : SeqState), s.stateManager.seqs[k]? = some st →
      s.stateManager.seqs[k]? = some st' → st'.ctxLen = st.ctxLen := by
    intro k st st' h₁ h₂
    rw [h₁] at h₂
    cases h₂
    rfl
  cases he with
  | refused e => exact .of_quiet (by simp) rfl rfl rfl rfl hsame
  | @enqueued req m' hnext hcfg hothers =>
    refine .of_quiet (by simp) rfl rfl rfl rfl fun k st st' h₁ h₂ => ?_
    have hne : k ≠ s.stateManager.nextSeq := by
      rintro rfl
      exact Nat.lt_irrefl _ (h.lt_nextSeq ((h.live _).mp ⟨st, h₁⟩))
    rw [hothers k hne] at h₂
    exact hsame k st st' h₁ h₂
  | @stepped exec out s' hstep =>
    have hf := h.step_facts hstep (by simp)
    have hcom : (⟨s, .step exec, out.map .stepped, s'⟩ : Event σ).committed =
        match out with
        | .ok r => r
        | .error _ => none := by
      cases out <;> rfl
    refine ⟨hf.counter_le, hf.launch_eq, fun hno => ?_, fun r hr => ?_⟩
    · obtain ⟨h₁, h₂, -, h₃⟩ := hf.quiet fun r hr => by
        obtain rfl := lift_eq_ok.mp hr
        cases hno
      exact ⟨h₁, h₂, h₃⟩
    · refine hf.committed r ?_
      cases out with
      | ok r' => exact congrArg _ hr
      | error e => cases hr
  | missed hc hs => exact .of_quiet hs rfl rfl rfl rfl hsame
  | @cancelled c k s' hc hs hcan =>
    obtain ⟨h₁, h₂, h₃, -⟩ := hcan.same
    refine .of_quiet hs rfl h₁ h₃ h₂ fun k' st st' hst hst' => ?_
    have hne : k' ≠ k := by
      rintro rfl
      rw [hcan.gone] at hst'
      cases hst'
    rw [hcan.beside.others k' hne] at hst'
    exact hsame k' st st' hst hst'
  | taken k => exact .of_quiet (by simp) rfl rfl rfl rfl hsame

end Facts

/-- What holds of the step ids after the calls `es` have led to `s`. -/
structure StepOrder (es : List (Event σ)) (s : Scheduler σ) : Prop where
  /-- Every id that is handed out is larger than those before it. -/
  handed : (es.filterMap Event.handedId).Pairwise (· < ·)
  /-- The ids are committed in ascending order, so that none is committed twice. -/
  committed : (committedIds es).Pairwise (· < ·)
  last : s.lastCommittedStep = (committedIds es).getLast?
  /-- The log has the last records, whose ids are the committed ones. -/
  log : s.scheduleLog.toVec =
    (loggedRecords es).drop ((loggedRecords es).length - s.scheduleLog.capacity)
  records : (loggedRecords es).map (·.stepId) = committedIds es

/-- The ids go up, to at most `n`. -/
def Ascending (l : List ℕ) (n : ℕ) : Prop := l.Pairwise (· < ·) ∧ ∀ i ∈ l, i ≤ n

theorem Ascending.mono {l : List ℕ} {n n' : ℕ} (h : Ascending l n) (hle : n ≤ n') :
    Ascending l n' :=
  ⟨h.1, fun i hi => (h.2 i hi).trans hle⟩

theorem Ascending.snoc {l : List ℕ} {n id : ℕ} (h : Ascending l n) (hlt : n < id) :
    Ascending (l ++ [id]) id := by
  constructor
  · refine pairwise_append.mpr ⟨h.1, pairwise_singleton _ _, fun i hi j hj => ?_⟩
    obtain rfl := mem_singleton.mp hj
    exact (h.2 i hi).trans_lt hlt
  · intro i hi
    rcases mem_append.mp hi with hi | hi
    · exact (h.2 i hi).trans hlt.le
    · exact (mem_singleton.mp hi).le

/-- What the ids so far are, and what they are bounded by. -/
structure StepIds (es : List (Event σ)) (s : Scheduler σ) : Prop where
  handed : Ascending (es.filterMap Event.handedId) s.stepCounter
  committed : Ascending (committedIds es) s.stepCounter
  last : s.lastCommittedStep = (committedIds es).getLast?
  logged : s.scheduleLog.Logged (loggedRecords es)
  records : (loggedRecords es).map (·.stepId) = committedIds es

section Order

variable {s s' s₀ : Scheduler σ} {es : List (Event σ)}

theorem filterMap_snoc {α β : Type} (f : α → Option β) (l : List α) (a : α) :
    (l ++ [a]).filterMap f = l.filterMap f ++ (f a).toList := by
  cases h : f a <;> simp [h]

theorem StepIds.snoc {e : Event σ} (hids : StepIds es e.before) (hf : EventFacts e) :
    StepIds (es ++ [e]) e.after := by
  have hle := hf.counter_le
  have hgrow : ∀ {l : List ℕ} {id}, Ascending l e.before.stepCounter → e.handedId = some id →
      Ascending (l ++ [id]) e.after.stepCounter := by
    intro l id hl hid
    obtain ⟨heq, hafter⟩ := hf.handed id hid
    rw [hafter]
    exact hl.snoc (by omega)
  have hhanded : Ascending ((es ++ [e]).filterMap Event.handedId) e.after.stepCounter := by
    rw [filterMap_snoc]
    cases hid : e.handedId with
    | none =>
      rw [Option.toList_none, append_nil]
      exact hids.handed.mono hle
    | some id => exact hgrow hids.handed hid
  have hcommitted : committedIds (es ++ [e]) =
      committedIds es ++ (e.committed.map (·.stepId)).toList := filterMap_snoc ..
  have hrecords : loggedRecords (es ++ [e]) =
      loggedRecords es ++ (e.committed.map (·.record)).toList := filterMap_snoc ..
  cases hcom : e.committed with
  | none =>
    rw [hcom, Option.map_none, Option.toList_none, append_nil] at hcommitted hrecords
    obtain ⟨hlast, hlog, -⟩ := hf.quiet hcom
    refine ⟨hhanded, ?_, ?_, ?_, ?_⟩
    · rw [hcommitted]
      exact hids.committed.mono hle
    · rw [hcommitted, hlast]
      exact hids.last
    · rw [hrecords, hlog]
      exact hids.logged
    · rw [hrecords, hcommitted]
      exact hids.records
  | some r =>
    rw [hcom, Option.map_some, Option.toList_some] at hcommitted hrecords
    obtain ⟨hid, hlast, hrec, hpush, -⟩ := hf.committed r hcom
    refine ⟨hhanded, ?_, ?_, ?_, ?_⟩
    · rw [hcommitted]
      exact hgrow hids.committed hid
    · rw [hcommitted, hlast, getLast?_append]
      rfl
    · rw [hrecords]
      exact (hids.logged.push hpush).1
    · rw [hrecords, hcommitted, map_append, hids.records, map_cons, map_nil, hrec]

theorem Run.stepIds (h₀ : s₀.Fresh) (hr : Run s₀ es s) : StepIds es s := by
  induction hr with
  | nil =>
    obtain ⟨_, _, _, _, _, _, -, hnew⟩ := h₀
    simp only [Scheduler.new, bind_eq_ok, pure_eq_ok] at hnew
    obtain ⟨_, -, _, -, _, -, _, -, rfl⟩ := hnew
    refine ⟨⟨?_, ?_⟩, ⟨?_, ?_⟩, rfl, ScheduleLogRing.new_logged 4096, rfl⟩
    all_goals simp [committedIds]
  | snoc hrun hexec ih =>
    have hinv := hrun.inv h₀.inv
    exact ih.snoc ((hinv.exec hexec).1.facts hinv)

end Order

/-- **Step ids and commits.** Along every run, whatever the executors do, the ids that
are handed out go up, so do the ids that are committed and logged, and the length of a
sequence only changes in a step that commits and logs its one record, by the chunk or
the token of that step. -/
theorem step_ids {s₀ s : Scheduler σ} {es : List (Event σ)} (h₀ : s₀.Fresh) (hr : Run s₀ es s) :
    StepOrder es s ∧
    ∀ e ∈ es, ∀ (k : SeqId) (st st' : SeqState), e.before.stateManager.seqs[k]? = some st →
      e.after.stateManager.seqs[k]? = some st' → st'.ctxLen ≠ st.ctxLen →
      ∃ r n, e.committed = some r ∧ e.handedId = some r.stepId ∧
        e.before.scheduleLog.push r.record = (.ok (), e.after.scheduleLog) ∧
        r.Advances k n ∧ st'.ctxLen = st.ctxLen + n := by
  have hids := hr.stepIds h₀
  refine ⟨⟨hids.handed.1, hids.committed.1, hids.last, hids.logged.toVec_eq, hids.records⟩, ?_⟩
  intro e he k st st' hst hst' hne
  obtain ⟨hinv, heff⟩ := hr.effect h₀.inv e he
  have hf := heff.facts hinv
  cases hcom : e.committed with
  | none =>
    obtain ⟨-, -, hlen⟩ := hf.quiet hcom
    exact absurd (hlen k st st' hst hst') hne
  | some r =>
    obtain ⟨hid, -, -, hpush, k', n, hadv, hothers, hlen⟩ := hf.committed r hcom
    rcases eq_or_ne k k' with rfl | hkk
    · exact ⟨r, n, rfl, hid, hpush, hadv, hlen st st' hst hst'⟩
    · rw [hothers k hkk, hst] at hst'
      cases hst'
      exact absurd rfl hne

/-- Three ids are handed out, and the two that do not fail are committed. -/
theorem step_ids_small :
    smallRun.1.filterMap Event.handedId = [1, 2, 3] ∧ committedIds smallRun.1 = [2, 3] ∧
      StepOrder smallRun.1 smallRun.2 :=
  ⟨by decide +kernel, by decide +kernel, (step_ids smallScheduler_fresh smallRun_run).1⟩

end R9v

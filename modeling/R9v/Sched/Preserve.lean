import R9v.Sched.StepCases

/-!
# The calls keep the invariant

Every call of the scheduler keeps `SchedInv`. A step is taken apart by `StepCase`: its
outcomes that do not panic are a turn of the active sequence (`Turn`), after which the
sequence is active again (`Turn.inv_active`) or has finished (`Turn.inv_finished`).
-/

namespace R9v

open Checked StateManager List

/-! ### A turn of one sequence -/

/-- What a call that is about the sequence `k` leaves as it is, and what it may count. -/
structure Turn (s s' : Scheduler σ) (k : SeqId) : Prop where
  config_eq : s'.config = s.config
  queued_eq : s'.queued = s.queued
  paused_eq : s'.paused = s.paused
  report_eq : s'.pendingPauseReport = s.pendingPauseReport
  arrivalCounter_eq : s'.arrivalCounter = s.arrivalCounter
  inFlight : s'.inFlight = none
  exists_inv : ∃ H, Inv H s'.stateManager
  beside : Beside k s.stateManager s'.stateManager
  buffered : ∀ k', k' ≠ k → s'.detokenizer.bufferedLen k' ≤ s.detokenizer.bufferedLen k'
  counter : s'.stepCounter < 2 ^ 64
  commits : s'.stateManager.commits ≤ s'.stepCounter
  swaps : s'.stateManager.swaps ≤ s'.stepCounter
  written : s'.scheduleLog.totalWritten ≤ s'.stepCounter
  log : s'.scheduleLog.writeIdx < s'.scheduleLog.capacity ∧
    s'.scheduleLog.buffer.length = s'.scheduleLog.capacity
  last : ∀ id, s'.lastCommittedStep = some id → id ≤ s'.stepCounter
  room : RoomFor s'.batchWorkspace s.stateManager.groups.length s.stateManager.maxBlocks
    s.config.prefillMaxChunk

section Turn

variable {s s' : Scheduler σ} {seq seq' q : Sequence} {k : SeqId}

section Other

variable {m m' : StateManager} {d d' : ByteDetokenizer}

theorem Waiting.other (hw : Waiting m d q) (hseqs : m'.seqs[q.seqId]? = m.seqs[q.seqId]?)
    (hconfig : m'.config = m.config) (hbuf : d'.bufferedLen q.seqId ≤ d.bufferedLen q.seqId) :
    Waiting m' d' q where
  fresh := hw.fresh
  follows := by
    rw [Follows, hseqs]
    exact hw.follows
  holdsNone := by
    rw [HoldsNone, hseqs]
    exact hw.holdsNone
  buffered := Nat.le_zero.mp (hw.buffered ▸ hbuf)
  prompt_le := hconfig ▸ hw.prompt_le

theorem Running.other (hr : Running m d q) (hseqs : m'.seqs[q.seqId]? = m.seqs[q.seqId]?)
    (hconfig : m'.config = m.config) (hbuf : d'.bufferedLen q.seqId ≤ d.bufferedLen q.seqId) :
    Running m' d' q where
  follows := by
    rw [Follows, hseqs]
    exact hr.follows
  phase := hr.phase
  started := hr.started
  text := by
    have htext := hr.text
    rw [Sequence.TextOk] at htext ⊢
    omega
  prompt_le := hconfig ▸ hr.prompt_le

end Other

theorem SchedInv.following_eq (h : SchedInv s) (ha : s.active = some seq) :
    s.following = s.queued.map (·.seqId) ++ [seq.seqId] := by
  simp [Scheduler.following, ha, h.paused]

theorem SchedInv.ne_of_queued (h : SchedInv s) (ha : s.active = some seq) (hq : q ∈ s.queued) :
    q.seqId ≠ seq.seqId := by
  have hnd := h.nodup
  rw [h.following_eq ha, nodup_append] at hnd
  exact hnd.2.2 _ (mem_map_of_mem hq) _ (mem_singleton_self _)

theorem SchedInv.lt_nextSeq (h : SchedInv s) (hk : k ∈ s.following) :
    k < s.stateManager.nextSeq := by
  obtain ⟨H, hinv⟩ := h.exists_inv
  obtain ⟨st, hst⟩ := (h.live k).mpr hk
  exact hinv.ids_lt k st hst

theorem Turn.unborn (t : Turn s s' seq.seqId) (h : SchedInv s) (ha : s.active = some seq) (k : SeqId)
    (hk : s'.stateManager.nextSeq ≤ k) : s'.detokenizer.bufferedLen k = 0 := by
  rw [t.beside.nextSeq_eq] at hk
  have hlt := h.lt_nextSeq (k := seq.seqId) (by rw [h.following_eq ha]; simp)
  have hle := t.buffered k (Nat.ne_of_gt (lt_of_lt_of_le hlt hk))
  rw [h.unborn k hk] at hle
  omega

theorem Turn.inv (t : Turn s s' seq.seqId) (h : SchedInv s) (ha : s.active = some seq)
    (live : ∀ k, (∃ st, s'.stateManager.seqs[k]? = some st) ↔ k ∈ s'.following)
    (nodup : s'.following.Nodup)
    (active : ∀ seq', s'.active = some seq' → Running s'.stateManager s'.detokenizer seq')
    (finished : ∀ k, k ∈ s'.finished → k < s.stateManager.nextSeq ∧ k ∉ s'.following)
    (outstanding : s'.outstandingCount ≤ s.config.maxOutstanding) : SchedInv s' where
  config := t.config_eq ▸ h.config
  exists_inv := t.exists_inv
  full := t.beside.fullPools h.full
  paused := t.paused_eq.trans h.paused
  report := t.report_eq.trans h.report
  inFlight := t.inFlight
  live := live
  nodup := nodup
  queued := by
    intro q hq
    rw [t.queued_eq] at hq
    have hne := h.ne_of_queued ha hq
    exact (h.queued q hq).other (t.beside.others _ hne) t.beside.config_eq (t.buffered _ hne)
  active := active
  unborn := t.unborn h ha
  finished := t.beside.nextSeq_eq ▸ finished
  outstanding := t.config_eq ▸ outstanding
  arrival := t.queued_eq ▸ h.arrival
  arrival_le := by
    intro q hq
    rw [t.arrivalCounter_eq]
    exact h.arrival_le q (t.queued_eq ▸ hq)
  counter := t.counter
  commits := t.commits
  swaps := t.swaps
  written := t.written
  log := t.log
  last := t.last
  workspace := by
    rw [t.beside.groups_eq, t.beside.maxBlocks_eq, t.config_eq]
    exact t.room

/-- **A turn after which the sequence is active again.** -/
theorem Turn.inv_active (t : Turn s s' seq.seqId) (h : SchedInv s) (ha : s.active = some seq)
    (ha' : s'.active = some seq') (hid : seq'.seqId = seq.seqId)
    (hfin : s'.finished = s.finished)
    (hrun : Running s'.stateManager s'.detokenizer seq') : SchedInv s' := by
  have hfol : s'.following = s.following := by
    simp [Scheduler.following, ha, ha', t.queued_eq, t.paused_eq, hid]
  obtain ⟨st', hst', -⟩ := hrun.follows
  refine t.inv h ha ?_ (hfol ▸ h.nodup) ?_ (by rw [hfin, hfol]; exact h.finished) ?_
  · intro k
    rw [hfol]
    rcases eq_or_ne k seq.seqId with rfl | hne
    · constructor
      · rw [h.following_eq ha]
        simp
      · intro _
        exact ⟨st', hid ▸ hst'⟩
    · rw [t.beside.others k hne]
      exact h.live k
  · intro seq₂ hseq₂
    obtain rfl : seq' = seq₂ := by simpa [ha'] using hseq₂
    exact hrun
  · have := h.outstanding
    simpa [Scheduler.outstandingCount, ha, ha', t.queued_eq, t.paused_eq, hfin] using this

/-- **A turn after which the sequence has finished.** -/
theorem Turn.inv_finished {result : Request × List ℕ × FinishReason} (t : Turn s s' seq.seqId)
    (h : SchedInv s) (ha : s.active = some seq) (ha' : s'.active = none)
    (hgone : s'.stateManager.seqs[seq.seqId]? = none)
    (hfin : s'.finished = s.finished.insert seq.seqId result) : SchedInv s' := by
  have hfol' : s'.following = s.queued.map (·.seqId) := by
    simp [Scheduler.following, ha', t.queued_eq, t.paused_eq, h.paused]
  have hfol := h.following_eq ha
  have hnotin : seq.seqId ∉ s.queued.map (·.seqId) := by
    intro hin
    obtain ⟨q, hq, heq⟩ := mem_map.mp hin
    exact h.ne_of_queued ha hq heq
  refine t.inv h ha ?_ ?_ (fun seq₂ hseq₂ => by simp [ha'] at hseq₂) ?_ ?_
  · intro k
    rw [hfol']
    rcases eq_or_ne k seq.seqId with rfl | hne
    · constructor
      · rintro ⟨st, hst⟩
        simp [hgone] at hst
      · exact fun hin => absurd hin hnotin
    · rw [t.beside.others k hne, h.live k, hfol]
      simp [hne]
  · have hnd := h.nodup
    rw [hfol, nodup_append] at hnd
    exact hfol' ▸ hnd.1
  · intro k hk
    rw [hfin, Std.ExtTreeMap.mem_insert] at hk
    rw [hfol']
    rcases hk with hk | hk
    · obtain rfl : seq.seqId = k := by simpa using hk
      exact ⟨h.lt_nextSeq (by rw [hfol]; simp), hnotin⟩
    · obtain ⟨hlt, hno⟩ := h.finished k hk
      refine ⟨hlt, fun hin => hno ?_⟩
      rw [hfol]
      exact mem_append_left _ hin
  · have := h.outstanding
    simp only [Scheduler.outstandingCount, ha, ha', t.queued_eq, t.paused_eq, hfin,
      Option.toList_some, Option.toList_none, length_singleton, length_nil] at this ⊢
    have hsize : (s.finished.insert seq.seqId result).size ≤ s.finished.size + 1 :=
      Std.ExtTreeMap.size_insert_le
    omega

end Turn

/-! ### A step -/

section Step

variable {s s' : Scheduler σ} {seq seq' app : Sequence} {st : SeqState} {d d' : ByteDetokenizer}
  {a : Admission} {tok : Option ℕ} {phase : SequencePhase} {r : Scheduler.Report}
  {m m' : StateManager}

theorem appended_of_append {finish : Option FinishReason} {trimmed : Bool} {token : ℕ}
    (htext : seq.TextOk d) (hlt : seq.generated.length < seq.req.maxTokens)
    (h : seq.appendGeneratedToken token d = (.ok (finish, trimmed), app, d')) :
    ByteDetokenizer.Turned d d' seq.seqId ∧ Sequence.Appended seq token app finish ∧
      (finish = none → app.TextOk d') := by
  rcases Sequence.appendGeneratedToken_cases htext hlt token with
    ⟨e, _, heq, -⟩ | ⟨⟨_, _, heq⟩, -⟩ | ⟨_, _, _, _, heq, -, hturn, happ, hok⟩
  · simp [heq] at h
  · simp [heq] at h
  · rw [heq] at h
    cases h
    exact ⟨hturn, happ, hok⟩

@[simp] theorem report_finish (k : SeqId) (sample : DeviceStepSample)
    (finish : Option FinishReason) (trimmed : Bool) :
    (Scheduler.report k sample finish trimmed).finish = finish := by
  unfold Scheduler.report
  split <;> rfl

theorem Running.waited (hrun : Running m d seq) (hwait : seq.Waited seq') : Running m d seq' := by
  rw [hwait]
  exact ⟨hrun.follows, hrun.phase, hrun.started, hrun.text, hrun.prompt_le⟩

theorem Running.appended {finish : Option FinishReason} {trimmed : Bool} {token : ℕ}
    (hrun : Running m d seq)
    (h : { seq with phase := .decoding }.appendGeneratedToken token d =
      (.ok (finish, trimmed), app, d')) :
    ByteDetokenizer.Turned d d' seq.seqId ∧
      Sequence.Appended { seq with phase := .decoding } token app finish ∧
      (finish = none → app.TextOk d') := by
  have htext : ({ seq with phase := .decoding } : Sequence).TextOk d := hrun.text
  exact appended_of_append htext hrun.phase.generated_lt h

theorem Took.frame (ht : Took seq d a tok app d' phase r) (hrun : Running m d seq) :
    ByteDetokenizer.Turned d d' seq.seqId ∧ app.seqId = seq.seqId ∧ app.req = seq.req ∧
      app.ctxLen = seq.ctxLen := by
  cases ht with
  | chunk => exact ⟨Or.inl rfl, rfl, rfl, rfl⟩
  | token sample hacc hready happend =>
    obtain ⟨hturn, happ, -⟩ := hrun.appended happend
    exact ⟨hturn, by rw [happ.same], by rw [happ.same], by rw [happ.same]⟩

/-- **The sequence after a committed step is in its phase.** -/
theorem Took.running (ht : Took seq d a tok app d' phase r) (hrun : Running m d seq)
    (hfin : r.finish = none) (hfol : Follows m' (app.advance a phase r.acceptLen))
    (hcfg : m'.config = m.config) : Running m' d' (app.advance a phase r.acceptLen) := by
  obtain ⟨-, -, hreq, -⟩ := ht.frame hrun
  have hprompt : (app.advance a phase r.acceptLen).req.tokens.length ≤ m'.config.maxCtx := by
    rw [hcfg]
    exact hreq ▸ hrun.prompt_le
  cases ht with
  | chunk hphase hdec hlt =>
    have hin := hrun.phase
    simp only [Sequence.InPhase, hphase] at hin
    refine ⟨hfol, ?_, by simp [Sequence.advance], hrun.text, hprompt⟩
    simp only [Sequence.InPhase, Sequence.advance, Admission.reserveN, hdec, Bool.false_eq_true,
      if_false]
    exact ⟨trivial, hlt, hin.2.2⟩
  | token sample hacc hready happend =>
    obtain ⟨-, happ, hok⟩ := hrun.appended happend
    rw [report_finish] at hfin
    obtain ⟨hgen, hroom⟩ := happ.goes_on hfin
    have hlen : app.generated.length = seq.generated.length + 1 := by simp [hgen]
    have hplen : app.promptLen = seq.promptLen := by
      rw [happ.same]
      rfl
    have hmax : app.req.maxTokens = seq.req.maxTokens := by rw [happ.same]
    have hctx : app.ctxLen = seq.ctxLen := by rw [happ.same]
    refine ⟨hfol, ?_, by simp [Sequence.advance], hok hfin, hprompt⟩
    change app.ctxLen + a.reserveN + 1 = app.promptLen + app.generated.length ∧
      1 ≤ app.generated.length ∧ app.generated.length < app.req.maxTokens
    have hin := hrun.phase
    simp only at hroom
    rcases hready with ⟨hph, hdec⟩ | ⟨hph, hdec, hsum⟩
    · simp only [Sequence.InPhase, hph] at hin
      simp only [Admission.reserveN, hdec, if_true]
      omega
    · simp only [Sequence.InPhase, hph] at hin
      obtain ⟨-, -, hnil⟩ := hin
      rw [hnil, length_nil] at hlen
      simp only [Admission.reserveN, hdec, Bool.false_eq_true, if_false]
      omega

theorem push_spec {log log' : ScheduleLogRing} {record : ScheduleRecord}
    (hlog : log.writeIdx < log.capacity ∧ log.buffer.length = log.capacity)
    (h : log.push record = (.ok (), log')) :
    log'.totalWritten = log.totalWritten + 1 ∧ log'.writeIdx < log'.capacity ∧
      log'.buffer.length = log'.capacity := by
  simp only [ScheduleLogRing.push] at h
  split at h
  · simp at h
  · rename_i total hadd
    obtain ⟨-, rfl⟩ := add_eq_some.mp hadd
    split at h
    · simp only [Prod.mk.injEq, true_and] at h
      rw [← h]
      exact ⟨rfl, Nat.mod_lt _ (by omega), by simpa using hlog.2⟩
    · simp at h

theorem Cause.turned {e : SchedError} (h : Cause seq d d' tok e) :
    ByteDetokenizer.Turned d d' seq.seqId ∧ d'.bufferedLen seq.seqId ≤ d.bufferedLen seq.seqId := by
  rcases h with ⟨-, rfl⟩ | ⟨token, -, heq⟩
  · exact ⟨Or.inl rfl, le_rfl⟩
  · rcases d.appendToken_cases seq.seqId token seq.detokenizedTail with
      ⟨_, _, heq', hturn, hle⟩ | ⟨_, _, heq', -⟩
    · rw [heq'] at heq
      cases heq
      exact ⟨hturn, hle⟩
    · rw [heq'] at heq
      cases heq

theorem Planned.turn {w : Ran σ} {act : Option Sequence} {log : ScheduleLogRing} {last : Option ℕ}
    {fin : Std.ExtTreeMap ℕ (Request × List ℕ × FinishReason)} {k : SeqId} (h : SchedInv s)
    (hp : Planned s seq a) (hinv : ∃ H, Inv H m') (hbeside : Beside k s.stateManager m')
    (hcommits : m'.commits ≤ s.stateManager.commits + 1)
    (hswaps : m'.swaps ≤ s.stateManager.swaps + 1)
    (hbuf : ∀ k', k' ≠ k → d'.bufferedLen k' ≤ s.detokenizer.bufferedLen k')
    (hwritten : log.totalWritten ≤ s.scheduleLog.totalWritten + 1)
    (hlog : log.writeIdx < log.capacity ∧ log.buffer.length = log.capacity)
    (hlast : last = s.lastCommittedStep ∨ last = some a.nextStep)
    (hroom : RoomFor w.batchWorkspace s.stateManager.groups.length s.stateManager.maxBlocks
      s.config.prefillMaxChunk) :
    Turn s { s.ran w a.nextStep with
      active := act, stateManager := m', detokenizer := d', scheduleLog := log,
      lastCommittedStep := last, finished := fin } k := by
  have hnext := hp.next_eq
  have h₁ := h.commits
  have h₂ := h.swaps
  have h₃ := h.written
  refine ⟨rfl, rfl, rfl, rfl, rfl, rfl, hinv, hbeside, hbuf, hp.next_lt, ?_, ?_, ?_, hlog, ?_, hroom⟩
  · change m'.commits ≤ a.nextStep
    omega
  · change m'.swaps ≤ a.nextStep
    omega
  · change log.totalWritten ≤ a.nextStep
    omega
  · intro id hid
    change id ≤ a.nextStep
    rcases hlast with rfl | rfl
    · have := h.last id hid
      omega
    · cases hid
      exact le_rfl

/-- **A step keeps the invariant**, when it does not panic. -/
theorem StepCase.inv {id : Option ℕ} {out : SchedOutcome (Option StepResult)} (h : SchedInv s)
    (ha : s.active = some seq) (hctx : st.ctxLen = seq.ctxLen)
    (hcase : StepCase s seq st id tok (out, s')) (hout : out ≠ .error .panic) : SchedInv s' := by
  have hrun := h.active seq ha
  cases hcase with
  | @waited _ seq' hwait _ =>
    have hid : Beside seq.seqId s.stateManager s.stateManager :=
      ⟨rfl, rfl, rfl, rfl, fun _ _ => rfl, fun _ p hp => ⟨p, hp, rfl⟩⟩
    have hturn : Turn s { s with active := some seq' } seq.seqId :=
      ⟨rfl, rfl, rfl, rfl, rfl, h.inFlight, h.exists_inv, hid, fun _ _ => le_rfl, h.counter,
        h.commits, h.swaps, h.written, h.log, h.last, h.workspace⟩
    refine hturn.inv_active h ha rfl ?_ rfl (hrun.waited hwait)
    rw [hwait]
  | @failed _ a seq' m' d' w e hwait hplan hcyc hroom hcause =>
    obtain ⟨hturned, hbuf⟩ := hcause.turned
    have hid : seq'.seqId = seq.seqId := by rw [hwait]
    have hturn : Turn s { s.ran w a.nextStep with
        active := some seq', stateManager := m', detokenizer := d' } seq.seqId :=
      hplan.turn h hcyc.exists_inv hcyc.beside hcyc.commits_eq.le hcyc.swaps_le
        (fun k' hne => hturned.bufferedLen_le hne) (Nat.le_succ _) h.log (Or.inl rfl) hroom
    refine hturn.inv_active h ha rfl hid rfl ?_
    obtain ⟨st', hst', hctx', htail'⟩ := hcyc.seq
    have hrun' := hrun.waited hwait
    have htext := hrun'.text
    refine ⟨⟨st', hid ▸ hst', ?_, htail'⟩, hrun'.phase, hrun'.started, ?_, ?_⟩
    · rw [hctx', hctx, Nat.add_zero, hwait]
    · unfold Sequence.TextOk at htext ⊢
      rw [hid] at htext ⊢
      simp only
      omega
    · rw [hcyc.beside.config_eq]
      exact hrun'.prompt_le
  | @committed _ x seq' app m' d' w phase r log captured hwait hplan htook hcyc hroom hpush hgoes =>
    have hrun' := hrun.waited hwait
    obtain ⟨hturned, hid, hreq, happctx⟩ := htook.frame hrun'
    obtain ⟨hwritten, hlog⟩ := push_spec h.log hpush
    have hid' : seq'.seqId = seq.seqId := by rw [hwait]
    have hctx' : seq'.ctxLen = seq.ctxLen := by rw [hwait]
    have hturn : Turn s { s.ran w x.admission.nextStep with
        active := some (app.advance x.admission phase r.acceptLen), stateManager := m',
        detokenizer := d', scheduleLog := log,
        lastCommittedStep := some x.admission.nextStep } seq.seqId :=
      hplan.turn h hcyc.exists_inv hcyc.beside hcyc.commits_eq.le hcyc.swaps_le
        (fun k' hne => hturned.bufferedLen_le (hid' ▸ hne)) hwritten.le hlog (Or.inr rfl) hroom
    refine hturn.inv_active h ha rfl (hid.trans hid') rfl ?_
    obtain ⟨st', hst', hstctx, htail'⟩ := hcyc.seq
    refine htook.running hrun' hgoes ⟨st', ?_, ?_, htail'⟩ hcyc.beside.config_eq
    · change m'.seqs[app.seqId]? = some st'
      rw [hid, hid']
      exact hst'
    · change st'.ctxLen = app.ctxLen + x.admission.reserveN
      omega
  | @finished _ x seq' app m' m'' d' w phase r log reason captured hwait hplan htook hcyc hfree hroom
      hpush hfin =>
    have hrun' := hrun.waited hwait
    obtain ⟨hturned, hid, hreq, happctx⟩ := htook.frame hrun'
    obtain ⟨hwritten, hlog⟩ := push_spec h.log hpush
    have hid' : seq'.seqId = seq.seqId := by rw [hwait]
    obtain ⟨H', hinv'⟩ := hcyc.exists_inv
    obtain ⟨st', hst', -⟩ := hcyc.seq
    obtain ⟨m₃, hfree', hinv₃, hbeside₃, hgone, hcommits₃, hswaps₃⟩ := freeSeq_ok hinv' hst'
    obtain rfl : m'' = m₃ := by
      rw [hfree] at hfree'
      simpa using hfree'
    have hturn : Turn s { s.ran w x.admission.nextStep with
        active := none, stateManager := m'', detokenizer := d'.reset seq.seqId, scheduleLog := log,
        lastCommittedStep := some x.admission.nextStep,
        finished := s.finished.insert seq.seqId (seq.req, app.generated, reason) } seq.seqId :=
      hplan.turn h ⟨H', hinv₃⟩ (hcyc.beside.trans hbeside₃)
        (hcommits₃.trans hcyc.commits_eq).le (hswaps₃.le.trans hcyc.swaps_le)
        (fun k' hne => (d'.reset_bufferedLen_le _ k').trans
          (hturned.bufferedLen_le (hid' ▸ hne))) hwritten.le hlog (Or.inr rfl) hroom
    exact hturn.inv_finished h ha rfl hgone rfl
  | panicked => exact absurd rfl hout

/-- **Every step keeps the invariant**, unless it panics. -/
theorem SchedInv.step {exec : StepExecutor} {out : SchedOutcome (Option StepResult)}
    (h : SchedInv s) (hstep : s.step exec = (out, s')) (hout : out ≠ .error .panic) :
    SchedInv s' := by
  rcases h.step_cases exec with ⟨-, heq | ⟨e, heq⟩⟩ | ⟨seq, st, ha, -, hctx, -, hcase⟩
  · rw [hstep] at heq
    cases heq
    exact h
  · rw [hstep] at heq
    cases heq
    exact h
  · rw [hstep] at hcase
    exact hcase.inv h.promote ha hctx hout

end Step

/-! ### The other calls -/

section Calls

variable {s s' : Scheduler σ} {seq : Sequence} {k : SeqId}

/-- **What queueing a request can do**: it fails and nothing changes, or the request is
queued under the next id. -/
theorem SchedInv.enqueue_cases (h : SchedInv s) (req : Request) :
    (∃ e, s.enqueueRequest req = (.error (.err e), s)) ∨
    ∃ m', s.enqueueRequest req = (.ok s.stateManager.nextSeq,
        { s with
          stateManager := m'
          arrivalCounter := s.arrivalCounter + 1
          queued := s.queued ++
            [Sequence.new req s.stateManager.nextSeq (s.arrivalCounter + 1)] }) ∧
      m'.nextSeq = s.stateManager.nextSeq + 1 ∧ m'.config = s.stateManager.config ∧
      (∀ k, k ≠ s.stateManager.nextSeq → m'.seqs[k]? = s.stateManager.seqs[k]?) ∧
      SchedInv { s with
        stateManager := m'
        arrivalCounter := s.arrivalCounter + 1
        queued := s.queued ++
          [Sequence.new req s.stateManager.nextSeq (s.arrivalCounter + 1)] } := by
  obtain ⟨H, hinv⟩ := h.exists_inv
  unfold Scheduler.enqueueRequest
  split
  · exact Or.inl ⟨_, rfl⟩
  rename_i hcap
  split
  · exact Or.inl ⟨_, rfl⟩
  rename_i arrival hadd
  obtain ⟨-, rfl⟩ := add_eq_some.mp hadd
  rcases newSeq_cases s.stateManager req.tokens with
    ⟨e, he⟩ | ⟨slots, fixed', hstart, hlen, hlive, hid, he⟩
  · rw [he]
    exact Or.inl ⟨_, rfl⟩
  rw [he]
  refine Or.inr ⟨_, rfl, rfl, rfl, fun k' hne => getElem?_insert_ne hne, ?_⟩
  have hinv' := hstart.inv hinv hlive hid
  set m' : StateManager := { s.stateManager with
    fixed := fixed'
    seqs := s.stateManager.seqs.insert s.stateManager.nextSeq
      (SeqState.fresh s.stateManager.groups slots)
    nextSeq := s.stateManager.nextSeq + 1
    liveCount := s.stateManager.liveCount + 1 } with hm'
  have hnew : s.stateManager.nextSeq ∉ s.following := fun hin =>
    Nat.lt_irrefl _ (h.lt_nextSeq hin)
  have hother : ∀ k', k' ≠ s.stateManager.nextSeq → m'.seqs[k']? = s.stateManager.seqs[k']? :=
    fun k' hne => getElem?_insert_ne hne
  have hself : m'.seqs[s.stateManager.nextSeq]? =
      some (SeqState.fresh s.stateManager.groups slots) := by simp [hm']
  have hold : ∀ k' ∈ s.following, k' ≠ s.stateManager.nextSeq := fun k' hk' =>
    Nat.ne_of_lt (h.lt_nextSeq hk')
  constructor
  case config => exact h.config
  case exists_inv => exact ⟨H, hinv'⟩
  case full => exact h.full
  case paused => exact h.paused
  case report => exact h.report
  case inFlight => exact h.inFlight
  case live =>
    intro k
    have hmem : k ∈ Scheduler.following { s with
        stateManager := m', arrivalCounter := s.arrivalCounter + 1,
        queued := s.queued ++ [Sequence.new req s.stateManager.nextSeq (s.arrivalCounter + 1)] } ↔
        k = s.stateManager.nextSeq ∨ k ∈ s.following := by
      simp only [Scheduler.following, map_append, map_cons, map_nil,
        mem_append, mem_singleton, Sequence.new]
      tauto
    rw [hmem]
    rcases eq_or_ne k s.stateManager.nextSeq with rfl | hne
    · exact ⟨fun _ => Or.inl rfl, fun _ => ⟨_, hself⟩⟩
    · simp only [hother k hne, h.live k, hne, false_or]
  case nodup =>
    have hperm : (Scheduler.following { s with
        stateManager := m', arrivalCounter := s.arrivalCounter + 1,
        queued := s.queued ++ [Sequence.new req s.stateManager.nextSeq (s.arrivalCounter + 1)] }).Perm
        (s.stateManager.nextSeq :: s.following) := by
      simp only [Scheduler.following, map_append, map_cons, map_nil,
        append_assoc, singleton_append]
      exact perm_middle
    exact hperm.nodup_iff.mpr (nodup_cons.mpr ⟨hnew, h.nodup⟩)
  case queued =>
    intro q hq
    rcases mem_append.mp hq with hq | hq
    · have hin : q.seqId ∈ s.following := by
        simp only [Scheduler.following, mem_append]
        exact Or.inl (Or.inl (mem_map_of_mem hq))
      exact (h.queued q hq).other (hother _ (hold _ hin)) rfl le_rfl
    · obtain rfl : q = _ := mem_singleton.mp hq
      refine ⟨rfl, ⟨_, hself, rfl, rfl⟩, ?_, h.unborn _ le_rfl, hlen⟩
      intro st hst gi
      change m'.seqs[s.stateManager.nextSeq]? = some st at hst
      rw [hself] at hst
      cases hst
      simp
  case active =>
    intro seq hseq
    have hin : seq.seqId ∈ s.following := by
      rw [h.following_eq hseq]
      simp
    exact (h.active seq hseq).other (hother _ (hold _ hin)) rfl le_rfl
  case unborn => exact fun k hk => h.unborn k (Nat.le_of_succ_le hk)
  case finished =>
    intro k hk
    obtain ⟨hlt, hno⟩ := h.finished k hk
    refine ⟨Nat.lt_succ_of_lt hlt, fun hin => ?_⟩
    simp only [Scheduler.following, map_append, map_cons, map_nil,
      mem_append, mem_singleton, Sequence.new] at hin
    refine hno ?_
    simp only [Scheduler.following, mem_append]
    rcases hin with ((hin | rfl) | hin) | hin
    · exact Or.inl (Or.inl hin)
    · exact absurd hlt (Nat.lt_irrefl _)
    · exact Or.inl (Or.inr hin)
    · exact Or.inr hin
  case outstanding =>
    simp only [Scheduler.outstandingCount, length_append, length_singleton] at hcap ⊢
    omega
  case arrival =>
    rw [map_append, pairwise_append]
    refine ⟨h.arrival, by simp, ?_⟩
    intro a ha b hb
    obtain ⟨q, hq, rfl⟩ := mem_map.mp ha
    obtain rfl : b = s.arrivalCounter + 1 := by simpa [Sequence.new] using hb
    exact Nat.lt_succ_of_le (h.arrival_le q hq)
  case arrival_le =>
    intro q hq
    rcases mem_append.mp hq with hq | hq
    · exact (h.arrival_le q hq).trans (Nat.le_succ _)
    · obtain rfl : q = _ := mem_singleton.mp hq
      exact le_rfl
  case counter => exact h.counter
  case commits => exact h.commits
  case swaps => exact h.swaps
  case written => exact h.written
  case log => exact h.log
  case last => exact h.last
  case workspace => exact h.workspace

/-- **A sequence that is taken out of its container and freed**, with its result among
the finished ones. -/
theorem SchedInv.retire {queued : List Sequence} {active : Option Sequence}
    {H : SeqId → ℕ} {m' : StateManager} (h : SchedInv s)
    (result : Request × List ℕ × FinishReason)
    (hperm : s.following.Perm (k :: (queued.map (·.seqId) ++ active.toList.map (·.seqId))))
    (hsub : queued.Sublist s.queued) (hact : active = none ∨ active = s.active)
    (hinv : Inv H m') (hbeside : Beside k s.stateManager m') (hgone : m'.seqs[k]? = none)
    (hcommits : m'.commits = s.stateManager.commits) (hswaps : m'.swaps = s.stateManager.swaps) :
    SchedInv { s with
      queued, active, stateManager := m', detokenizer := s.detokenizer.reset k
      finished := s.finished.insert k result } := by
  have hfol : Scheduler.following { s with
      queued, active, stateManager := m', detokenizer := s.detokenizer.reset k
      finished := s.finished.insert k result } =
      queued.map (·.seqId) ++ active.toList.map (·.seqId) := by
    simp [Scheduler.following, h.paused]
  have hnd := hperm.nodup_iff.mp h.nodup
  rw [nodup_cons] at hnd
  have hbuf : ∀ k', (s.detokenizer.reset k).bufferedLen k' ≤ s.detokenizer.bufferedLen k' :=
    s.detokenizer.reset_bufferedLen_le k
  have hne : ∀ k' ∈ queued.map (·.seqId) ++ active.toList.map (·.seqId), k' ≠ k := by
    rintro k' hk' rfl
    exact hnd.1 hk'
  constructor
  case config => exact h.config
  case exists_inv => exact ⟨H, hinv⟩
  case full => exact hbeside.fullPools h.full
  case paused => exact h.paused
  case report => exact h.report
  case inFlight => exact h.inFlight
  case live =>
    intro k'
    rw [hfol]
    rcases eq_or_ne k' k with rfl | hkne
    · constructor
      · rintro ⟨st, hst⟩
        simp [hgone] at hst
      · exact fun hin => absurd hin hnd.1
    · rw [hbeside.others k' hkne, h.live k', hperm.mem_iff]
      simp [hkne]
  case nodup => exact hfol ▸ hnd.2
  case queued =>
    intro q hq
    have hqne := hne q.seqId (mem_append_left _ (mem_map_of_mem hq))
    exact (h.queued q (hsub.subset hq)).other (hbeside.others _ hqne) hbeside.config_eq (hbuf _)
  case active =>
    intro seq hseq
    have hseq : active = some seq := hseq
    have hkne : seq.seqId ≠ k := hne seq.seqId (mem_append_right _ (by simp [hseq]))
    rcases hact with rfl | rfl
    · cases hseq
    · exact (h.active seq hseq).other (hbeside.others _ hkne) hbeside.config_eq (hbuf _)
  case unborn =>
    intro k' hk'
    have hle := hbuf k'
    rw [hbeside.nextSeq_eq] at hk'
    rw [h.unborn k' hk'] at hle
    exact Nat.le_zero.mp hle
  case finished =>
    intro k' hk'
    rw [hfol]
    rw [hbeside.nextSeq_eq]
    rw [Std.ExtTreeMap.mem_insert] at hk'
    rcases hk' with hk' | hk'
    · obtain rfl : k = k' := by simpa using hk'
      exact ⟨h.lt_nextSeq (hperm.mem_iff.mpr mem_cons_self), hnd.1⟩
    · obtain ⟨hlt, hno⟩ := h.finished k' hk'
      exact ⟨hlt, fun hin => hno (hperm.mem_iff.mpr (mem_cons_of_mem _ hin))⟩
  case outstanding =>
    have hout := h.outstanding
    have hlen := hperm.length_eq
    have hsize : (s.finished.insert k result).size ≤ s.finished.size + 1 :=
      Std.ExtTreeMap.size_insert_le
    simp only [Scheduler.following, h.paused, Option.toList_none, map_nil, append_nil,
      length_append, length_map, length_cons] at hlen
    simp only [Scheduler.outstandingCount, h.paused, Option.toList_none, length_nil] at hout ⊢
    omega
  case arrival => exact h.arrival.sublist (hsub.map _)
  case arrival_le => exact fun q hq => h.arrival_le q (hsub.subset hq)
  case counter => exact h.counter
  case commits => exact hcommits.le.trans h.commits
  case swaps => exact hswaps.le.trans h.swaps
  case written => exact h.written
  case log => exact h.log
  case last => exact h.last
  case workspace =>
    rw [hbeside.groups_eq, hbeside.maxBlocks_eq]
    exact h.workspace

/-- The part of the scheduler that only the device phase changes, or nothing does. -/
structure Kit (σ : Type) where
  eventChain : StepEventChain
  graphCache : GraphCache σ
  arena : WorkspaceArena
  registry : Registry σ
  costTable : CostTable

def Scheduler.kit (s : Scheduler σ) : Kit σ :=
  ⟨s.eventChain, s.graphCache, s.arena, s.registry, s.costTable⟩

/-- A scheduler from which the sequence `k` has been cancelled. -/
structure Cancelled (s s' : Scheduler σ) (k : SeqId) : Prop where
  inv : SchedInv s'
  perm : s.following.Perm (k :: s'.following)
  queued : s'.queued.Sublist s.queued
  active : s'.active = s.active ∨
    (s'.active = none ∧ ∃ seq, s.active = some seq ∧ seq.seqId = k)
  finished : ∃ seq, (s.active = some seq ∨ seq ∈ s.queued) ∧ seq.seqId = k ∧
    s'.finished = s.finished.insert k (seq.req, seq.generated, .cancelled)
  beside : Beside k s.stateManager s'.stateManager
  gone : s'.stateManager.seqs[k]? = none
  detokenizer : s'.detokenizer = s.detokenizer.reset k
  same : s'.stepCounter = s.stepCounter ∧ s'.scheduleLog = s.scheduleLog ∧
    s'.lastCommittedStep = s.lastCommittedStep ∧ s'.arrivalCounter = s.arrivalCounter ∧
    s'.config = s.config
  kit_eq : s'.kit = s.kit

/-- **What cancelling a sequence does**: nothing, when the sequence is not followed. -/
theorem SchedInv.cancelSequence_cases (h : SchedInv s) (k : SeqId) :
    (k ∉ s.following ∧ s.cancelSequence k = (.ok false, s)) ∨
    ∃ s', s.cancelSequence k = (.ok true, s') ∧ Cancelled s s' k := by
  obtain ⟨H, hinv⟩ := h.exists_inv
  unfold Scheduler.cancelSequence
  cases hact : s.active.filter (·.seqId == k) with
  | some seq =>
    obtain ⟨hseq, hid⟩ := Option.filter_eq_some_iff.mp hact
    obtain rfl : seq.seqId = k := by simpa using hid
    have hfol := h.following_eq hseq
    obtain ⟨st, hst⟩ := (h.live seq.seqId).mpr (by rw [hfol]; simp)
    obtain ⟨m', hfree, hinv', hbeside, hgone, hcommits, hswaps⟩ := freeSeq_ok hinv hst
    have hperm : s.following.Perm (seq.seqId :: (s.queued.map (·.seqId) ++
        (none : Option Sequence).toList.map (·.seqId))) := by
      rw [hfol]
      simp
    have hinv'' := h.retire (seq.req, seq.generated, .cancelled) hperm
      (List.Sublist.refl _) (Or.inl rfl) hinv' hbeside hgone hcommits hswaps
    refine Or.inr ⟨_, ?_, hinv'', ?_, List.Sublist.refl _, Or.inr ⟨rfl, seq, hseq, rfl⟩,
      ⟨seq, Or.inl hseq, rfl, rfl⟩, hbeside, hgone, rfl, ⟨rfl, rfl, rfl, rfl, rfl⟩, rfl⟩
    · simp only [Scheduler.cancelActive, Scheduler.cancelTaken, hfree,
        Scheduler.tryUnpauseSequences, h.paused]
    · simpa [Scheduler.following, h.paused] using hperm
  | none =>
    have hnot : ∀ seq, s.active = some seq → seq.seqId ≠ k := by
      intro seq hseq heq
      simp [hseq, heq] at hact
    cases hfind : s.queued.find? (·.seqId == k) with
    | some seq =>
      have hmem := mem_of_find?_eq_some hfind
      obtain rfl : seq.seqId = k := by simpa using find?_some hfind
      have hin : seq.seqId ∈ s.following := by
        simp only [Scheduler.following, mem_append]
        exact Or.inl (Or.inl (mem_map_of_mem hmem))
      obtain ⟨st, hst⟩ := (h.live seq.seqId).mpr hin
      obtain ⟨m', hfree, hinv', hbeside, hgone, hcommits, hswaps⟩ := freeSeq_ok hinv hst
      have hperm : s.following.Perm (seq.seqId ::
          ((s.queued.eraseP (·.seqId == seq.seqId)).map (·.seqId) ++
            s.active.toList.map (·.seqId))) := by
        obtain ⟨q, l₁, l₂, -, hq, heq, herase⟩ :=
          exists_of_eraseP hmem (p := fun x => x.seqId == seq.seqId) (by simp)
        have hqid : q.seqId = seq.seqId := by simpa using hq
        rw [herase]
        simp only [Scheduler.following, h.paused, heq, map_append, map_cons, hqid,
          Option.toList_none, map_nil, append_nil, append_assoc, cons_append]
        exact perm_middle
      have hinv'' := h.retire (seq.req, seq.generated, .cancelled) hperm
        eraseP_sublist (Or.inr rfl) hinv' hbeside hgone hcommits hswaps
      refine Or.inr ⟨_, ?_, hinv'', ?_, eraseP_sublist, Or.inl rfl,
        ⟨seq, Or.inr hmem, rfl, rfl⟩, hbeside, hgone, rfl, ⟨rfl, rfl, rfl, rfl, rfl⟩, rfl⟩
      · simp only [Scheduler.cancelTaken, hfree]
      · simpa [Scheduler.following, h.paused] using hperm
    | none =>
      refine Or.inl ⟨?_, by simp [h.paused]⟩
      intro hin
      simp only [Scheduler.following, h.paused, Option.toList_none, map_nil, append_nil,
        mem_append, mem_map, Option.mem_toList] at hin
      rcases hin with ⟨q, hq, heq⟩ | ⟨seq, hseq, heq⟩
      · have := find?_eq_none.mp hfind q hq
        simp [heq] at this
      · exact hnot seq hseq heq

end Calls

end R9v

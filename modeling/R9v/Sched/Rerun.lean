import R9v.Sched.Chunks

/-!
# Running a failed step again

A step that fails leaves the scheduler as it was, up to what it burns: the id of the
step, the wait that was counted, and what the device phase has changed. The exception
is a byte that the detokenizer rejects in the middle of a character: the bytes that it
held back are gone, and the same step cannot be run again.
-/

namespace R9v

open Checked StateManager List

/-! ### What the detokenizer holds back -/

namespace ByteDetokenizer

/-- A detokenizer that holds back less than a character, and no character is longer
than its buffer. -/
structure WellFormed (d : ByteDetokenizer) : Prop where
  length_eq : d.buf.length = 4
  bounds : (d.bufLen = 0 ∧ d.expectedLen = 0) ∨
    (1 ≤ d.bufLen ∧ d.bufLen < d.expectedLen ∧ d.expectedLen ≤ 4)

/-- The bytes held back for a sequence, and the length of the character that they
begin. -/
def held (d : ByteDetokenizer) (k : SeqId) : Text × ℕ :=
  if d.activeSeq = some k then (d.buf.take d.bufLen, d.expectedLen) else ([], 0)

section

variable {d d' : ByteDetokenizer} {k k' : SeqId}

theorem new_wellFormed : new.WellFormed := ⟨rfl, Or.inl ⟨rfl, rfl⟩⟩

theorem WellFormed.serve (h : d.WellFormed) (k : SeqId) : (d.serve k).WellFormed := by
  unfold ByteDetokenizer.serve
  split
  · exact ⟨h.length_eq, Or.inl ⟨rfl, rfl⟩⟩
  · exact h

theorem WellFormed.reset (h : d.WellFormed) (k : SeqId) : (d.reset k).WellFormed := by
  unfold ByteDetokenizer.reset
  split
  · exact ⟨h.length_eq, Or.inl ⟨rfl, rfl⟩⟩
  · exact h

theorem WellFormed.drop (h : d.WellFormed) : d.drop.WellFormed := ⟨h.length_eq, Or.inl ⟨rfl, rfl⟩⟩

theorem WellFormed.start (h : d.WellFormed) (b : ℕ) {n : ℕ} (hn : 1 < n) (hn' : n ≤ 4) (out : Text) :
    (d.start b n out).2.1.WellFormed :=
  ⟨by simp [ByteDetokenizer.start, h.length_eq], Or.inr ⟨le_rfl, hn, hn'⟩⟩

theorem WellFormed.appendFirst (h : d.WellFormed) (b : ℕ) (out : Text) :
    (d.appendFirst b out).2.1.WellFormed := by
  unfold ByteDetokenizer.appendFirst
  split
  · exact h
  · split
    · exact h.start b (by omega) (by omega) out
    · split
      · exact h.start b (by omega) (by omega) out
      · split
        · exact h.start b (by omega) (by omega) out
        · exact h

theorem WellFormed.appendNext (h : d.WellFormed) (hpos : d.bufLen ≠ 0) (b : ℕ) (out : Text) :
    (d.appendNext b out).2.1.WellFormed := by
  have hbounds : 1 ≤ d.bufLen ∧ d.bufLen < d.expectedLen ∧ d.expectedLen ≤ 4 := by
    rcases h.bounds with h' | h'
    · exact absurd h'.1 hpos
    · exact h'
  have hlen : (d.buf.set d.bufLen b).length = 4 := by rw [length_set, h.length_eq]
  unfold ByteDetokenizer.appendNext
  split
  · exact h
  · simp only
    split
    · split
      · exact ⟨hlen, Or.inl ⟨rfl, rfl⟩⟩
      · exact ⟨hlen, Or.inl ⟨rfl, rfl⟩⟩
    · refine ⟨hlen, Or.inr ⟨?_, ?_, ?_⟩⟩
      all_goals simp only at *
      all_goals omega

theorem WellFormed.appendToken (h : d.WellFormed) (k : SeqId) (token : ℕ) (out : Text) :
    (d.appendToken k token out).2.1.WellFormed := by
  unfold ByteDetokenizer.appendToken
  split
  · exact h
  · simp only
    split
    · exact (h.serve k).appendFirst token out
    · rename_i hpos
      split
      · exact (h.serve k).appendNext hpos token out
      · exact (h.serve k).drop

theorem held_serve (d : ByteDetokenizer) (k : SeqId) : (d.serve k).held k = d.held k := by
  unfold serve held
  split
  · simp_all
  · rfl

/-- **A token that is rejected** leaves what is held back, unless it is a byte in the
middle of a character. -/
theorem held_rejected (h : d.WellFormed) {token : ℕ} {out out' : Text} {e : SchedError}
    (hrej : d.appendToken k token out = (.error e, d', out')) :
    d'.held k = d.held k ↔ ¬(token ≤ 255 ∧ d.bufferedLen k ≠ 0) := by
  have hactive := serve_activeSeq d k
  have hlen := serve_bufLen d k
  have hserve := held_serve d k
  unfold appendToken at hrej
  split at hrej
  · cases hrej
    exact iff_of_true rfl (by omega)
  · simp only at hrej
    split at hrej
    · rename_i hzero
      have hkeep : d' = d.serve k := by
        unfold appendFirst start at hrej
        split at hrej
        · cases hrej
        · split at hrej
          · cases hrej
          · split at hrej
            · cases hrej
            · split at hrej
              · cases hrej
              · cases hrej
                rfl
      refine iff_of_true (hkeep ▸ hserve) ?_
      rw [← hlen]
      exact fun hno => hno.2 hzero
    · rename_i hpos
      -- every other way to be rejected forgets the bytes
      have hdrop : d'.activeSeq = some k ∧ d'.bufLen = 0 := by
        split at hrej
        · unfold appendNext at hrej
          have hroom : ¬(d.serve k).buf.length ≤ (d.serve k).bufLen := by
            have := (h.serve k).length_eq
            have := (h.serve k).bounds
            omega
          rw [if_neg hroom] at hrej
          simp only at hrej
          split at hrej
          · split at hrej
            · cases hrej
            · cases hrej
              exact ⟨hactive, rfl⟩
          · cases hrej
        · cases hrej
          exact ⟨hactive, rfl⟩
      refine iff_of_false (fun heq => ?_) (fun hno => hno ⟨by omega, hlen ▸ hpos⟩)
      have hlen' : (d.held k).1.length = (d.serve k).bufLen := by
        rw [← hserve]
        simp only [held, hactive, if_true, length_take]
        have := (h.serve k).length_eq
        have := (h.serve k).bounds
        omega
      rw [← heq] at hlen'
      simp only [held, hdrop.1, hdrop.2, if_true, take_zero, length_nil] at hlen'
      exact hpos hlen'.symm

theorem held_length (h : d.WellFormed) (k : SeqId) : (d.held k).1.length = d.bufferedLen k := by
  have hlen := h.length_eq
  have hbounds := h.bounds
  unfold held bufferedLen
  split
  · rw [length_take]
    omega
  · rfl

theorem take_set_succ (l : List ℕ) (n b : ℕ) (h : n < l.length) :
    (l.set n b).take (n + 1) = l.take n ++ [b] := by
  rw [take_add_one, take_set_of_le le_rfl, getElem?_set_self h]
  rfl

/-- What a detokenizer does with a token, as far as a sequence can tell. -/
def Alike (k : SeqId) (r r' : SchedResult ℕ × ByteDetokenizer × Text) : Prop :=
  r.1 = r'.1 ∧ r.2.2 = r'.2.2 ∧ r.2.1.held k = r'.2.1.held k

theorem appendFirst_alike (ha : d.activeSeq = some k) (ha' : d'.activeSeq = some k)
    (hl : d.buf.length = 4) (hl' : d'.buf.length = 4) (heq : d.held k = d'.held k) (b : ℕ)
    (out : Text) : Alike k (d.appendFirst b out) (d'.appendFirst b out) := by
  have hstart : ∀ n, Alike k (d.start b n out) (d'.start b n out) := by
    intro n
    refine ⟨rfl, rfl, ?_⟩
    simp only [start, held, ha, ha', if_true]
    rw [take_set_succ _ 0 b (by omega), take_set_succ _ 0 b (by omega)]
    simp
  unfold appendFirst
  split
  · exact ⟨rfl, rfl, heq⟩
  · split
    · exact hstart 2
    · split
      · exact hstart 3
      · split
        · exact hstart 4
        · exact ⟨rfl, rfl, heq⟩

theorem appendNext_alike (ha : d.activeSeq = some k) (ha' : d'.activeSeq = some k)
    (hl : d.bufLen < d.buf.length) (hl' : d'.bufLen < d'.buf.length)
    (hbuf : d.bufLen = d'.bufLen) (heq : d.held k = d'.held k) (b : ℕ)
    (out : Text) : Alike k (d.appendNext b out) (d'.appendNext b out) := by
  simp only [held, ha, ha', if_true, Prod.mk.injEq] at heq
  have hpend : (d.buf.set d'.bufLen b).take (d'.bufLen + 1) =
      (d'.buf.set d'.bufLen b).take (d'.bufLen + 1) := by
    rw [← hbuf, take_set_succ _ _ b hl, hbuf, take_set_succ _ _ b hl', ← hbuf, heq.1, hbuf]
  unfold appendNext
  simp only [if_neg (Nat.not_le.mpr hl), if_neg (Nat.not_le.mpr hl')]
  simp only [heq.2, hbuf, hpend]
  split
  · split
    · exact ⟨rfl, rfl, by simp [held, drop, ha, ha']⟩
    · exact ⟨rfl, rfl, by simp [held, drop, ha, ha']⟩
  · refine ⟨rfl, rfl, ?_⟩
    simp only [held, ha, ha', if_true, hpend]

/-- **A token is treated by what is held back**, and by nothing else. -/
theorem appendToken_alike (h : d.WellFormed) (h' : d'.WellFormed) (heq : d.held k = d'.held k)
    (token : ℕ) (out : Text) : Alike k (d.appendToken k token out) (d'.appendToken k token out) := by
  have ha := serve_activeSeq d k
  have ha' := serve_activeSeq d' k
  have hw := h.serve k
  have hw' := h'.serve k
  have hheld : (d.serve k).held k = (d'.serve k).held k := by rw [held_serve, held_serve, heq]
  have hbuf : (d.serve k).bufLen = (d'.serve k).bufLen := by
    rw [serve_bufLen, serve_bufLen, ← held_length h, ← held_length h', heq]
  have hl := hw.length_eq
  have hl' := hw'.length_eq
  have hb' := hw'.bounds
  unfold appendToken
  split
  · exact ⟨rfl, rfl, heq⟩
  · simp only [← hbuf]
    split
    · exact appendFirst_alike ha ha' hl hl' hheld token out
    · split
      · exact appendNext_alike ha ha' (by omega) (by omega) hbuf hheld token out
      · exact ⟨rfl, rfl, by simp [held, drop, ha, ha']⟩

end

end ByteDetokenizer

/-! ### Appending again -/

/-- The sequence, with other counts of its waits. -/
def Sequence.withWait (seq : Sequence) (steps : ℕ) (ms : Float32) : Sequence :=
  { seq with waitSteps := steps, accumulatedWaitMs := ms }

section Again

variable {seq seq' : Sequence} {d d' : ByteDetokenizer}

theorem Sequence.boundTail_withWait (seq : Sequence) (n : ℕ) (ms : Float32) :
    (seq.withWait n ms).boundTail = (seq.boundTail.1, seq.boundTail.2.withWait n ms) := by
  obtain ⟨req, k, phase, ctxLen, generated, ema, arrival, steps, wait, tail, start, spans, pend⟩ := seq
  dsimp only [Sequence.boundTail, Sequence.withWait]
  split_ifs
  · cases add 64 start ((Utf8.firstStart tail (tail.length - req.stop.maxStopLen)).getD
      (tail.length - req.stop.maxStopLen)) <;> rfl
  · rfl
  · rfl
  · rfl

theorem Sequence.checkStop_withWait (seq : Sequence) (n : ℕ) (ms : Float32) (i : ℕ) :
    (seq.withWait n ms).checkStop i = ((seq.checkStop i).1, (seq.checkStop i).2.withWait n ms) := by
  have hbound := seq.boundTail_withWait n ms
  have htail : (seq.withWait n ms).detokenizedTail = seq.detokenizedTail := rfl
  have hreq : (seq.withWait n ms).req = seq.req := rfl
  have hbyte : (seq.withWait n ms).tailStartByte = seq.tailStartByte := rfl
  simp only [Sequence.checkStop, htail, hreq, hbyte]
  rcases seq.req.stop.checkStopString seq.detokenizedTail with _ | ⟨offset, stop⟩
  · exact hbound
  · simp only
    cases add 64 seq.tailStartByte offset <;> rfl

theorem Sequence.recordSpan_withWait (seq : Sequence) (n : ℕ) (ms : Float32) (i a b c : ℕ) :
    (seq.withWait n ms).recordSpan i a b c = (seq.recordSpan i a b c).withWait n ms := by
  have hpend : (seq.withWait n ms).pendingUtf8Start = seq.pendingUtf8Start := rfl
  simp only [Sequence.recordSpan, hpend]
  split
  · rfl
  · split <;> rfl

theorem Sequence.afterText_withWait (seq : Sequence) (n : ℕ) (ms : Float32) (fills : Bool)
    (token i : ℕ) (hbuf : d.bufferedLen seq.seqId = d'.bufferedLen seq.seqId) :
    (seq.withWait n ms).afterText d' fills token i =
      ((seq.afterText d fills token i).1, (seq.afterText d fills token i).2.withWait n ms) := by
  have hreq : (seq.withWait n ms).req = seq.req := rfl
  have hid : (seq.withWait n ms).seqId = seq.seqId := rfl
  simp only [Sequence.afterText, hreq, hid, hbuf]
  split
  · rfl
  · split
    · rfl
    · split
      · rfl
      · exact seq.checkStop_withWait n ms i

/-- **A token is appended in the same way again**, when the sequence has only waited and
the detokenizer holds back the same. -/
theorem Sequence.appendGeneratedToken_again (h : d.WellFormed) (h' : d'.WellFormed)
    (heq : d.held seq.seqId = d'.held seq.seqId) (n : ℕ) (ms : Float32) (token : ℕ) :
    let r := seq.appendGeneratedToken token d
    let r' := (seq.withWait n ms).appendGeneratedToken token d'
    r'.1 = r.1 ∧ r'.2.1 = r.2.1.withWait n ms ∧ r'.2.2.held seq.seqId = r.2.2.held seq.seqId := by
  obtain ⟨hout, htext, hheld⟩ :=
    ByteDetokenizer.appendToken_alike h h' heq token seq.detokenizedTail
  have hw := h.appendToken seq.seqId token seq.detokenizedTail
  have hw' := h'.appendToken seq.seqId token seq.detokenizedTail
  have e₁ : (seq.withWait n ms).tailStartByte = seq.tailStartByte := rfl
  have e₂ : (seq.withWait n ms).detokenizedTail = seq.detokenizedTail := rfl
  have e₃ : (seq.withWait n ms).seqId = seq.seqId := rfl
  have e₄ : (seq.withWait n ms).generated = seq.generated := rfl
  have e₅ : (seq.withWait n ms).req = seq.req := rfl
  simp only [Sequence.appendGeneratedToken, e₁, e₂, e₃, e₄, e₅]
  cases add 64 seq.tailStartByte seq.detokenizedTail.length with
  | none => exact ⟨rfl, rfl, heq.symm⟩
  | some startByte =>
    rcases hr : d.appendToken seq.seqId token seq.detokenizedTail with ⟨e | appended, d₁, tail⟩ <;>
    rcases hr' : d'.appendToken seq.seqId token seq.detokenizedTail with
      ⟨e' | appended', d₁', tail'⟩ <;>
    rw [hr, hr'] at hout hheld htext <;> rw [hr] at hw <;> rw [hr'] at hw'
    · cases hout
      cases htext
      exact ⟨rfl, rfl, hheld.symm⟩
    · cases hout
    · cases hout
    · cases hout
      cases htext
      simp only
      cases add 64 startByte appended with
      | none => exact ⟨rfl, rfl, hheld.symm⟩
      | some endByte =>
        dsimp only
        have hbuf : d₁.bufferedLen seq.seqId = d₁'.bufferedLen seq.seqId := by
          rw [← ByteDetokenizer.held_length hw, ← ByteDetokenizer.held_length hw']
          exact congrArg (fun x => x.1.length) hheld
        have hspan := Sequence.recordSpan_withWait
          { seq with detokenizedTail := tail, generated := seq.generated ++ [token] } n ms
          seq.generated.length startByte appended endByte
        have hframe := (Sequence.recordSpan_frame
          { seq with detokenizedTail := tail, generated := seq.generated ++ [token] }
          seq.generated.length startByte appended endByte).1
        generalize Sequence.recordSpan
          { seq with detokenizedTail := tail, generated := seq.generated ++ [token] }
          seq.generated.length startByte appended endByte = t at hspan hframe ⊢
        have hid : t.seqId = seq.seqId := by rw [hframe]
        have hafter := t.afterText_withWait n ms
          (decide (seq.req.maxTokens ≤ seq.generated.length + 1)) token seq.generated.length
          (hid ▸ hbuf)
        rw [← hspan] at hafter
        have hfst := congrArg Prod.fst hafter
        have hsnd := congrArg Prod.snd hafter
        exact ⟨hfst, hsnd, hheld.symm⟩

theorem Sequence.appendGeneratedToken_wellFormed (h : d.WellFormed) (token : ℕ) :
    (seq.appendGeneratedToken token d).2.2.WellFormed := by
  have hw := h.appendToken seq.seqId token seq.detokenizedTail
  unfold Sequence.appendGeneratedToken
  cases add 64 seq.tailStartByte seq.detokenizedTail.length with
  | none => exact h
  | some startByte =>
    rcases hr : d.appendToken seq.seqId token seq.detokenizedTail with ⟨e | appended, d₁, tail⟩
    · rw [hr] at hw
      exact hw
    · rw [hr] at hw
      dsimp only
      cases add 64 startByte appended <;> exact hw

end Again

/-! ### The detokenizer along a run -/

section Detokenizer

variable {s s' s₀ : Scheduler σ} {seq : Sequence} {st : SeqState} {id tok : Option ℕ}
  {out : SchedOutcome (Option StepResult)} {es : List (Event σ)} {c : SchedCall}
  {reply : Except SchedError Reply}

theorem Took.wellFormed {d d' : ByteDetokenizer} {a : Admission} {app : Sequence}
    {phase : SequencePhase} {r : Scheduler.Report} (h : d.WellFormed)
    (ht : Took seq d a tok app d' phase r) : d'.WellFormed := by
  cases ht with
  | chunk => exact h
  | token sample hacc hready happend =>
    have hw := @Sequence.appendGeneratedToken_wellFormed { seq with phase := .decoding } _ h
      sample.token
    rwa [happend] at hw

theorem StepCase.wellFormed (h : s.detokenizer.WellFormed)
    (hcase : StepCase s seq st id tok (out, s')) (hout : out ≠ .error .panic) :
    s'.detokenizer.WellFormed := by
  cases hcase with
  | waited => exact h
  | failed e hwait hplan hcyc hroom hcause =>
    rcases hcause with ⟨-, rfl⟩ | ⟨token, -, happend⟩
    · exact h
    · have hw := h.appendToken seq.seqId token seq.detokenizedTail
      rwa [happend] at hw
  | committed captured hwait hplan htook => exact htook.wellFormed h
  | finished captured hwait hplan htook => exact (htook.wellFormed h).reset _
  | panicked => exact absurd rfl hout

/-- **The detokenizer along a run** is well-formed. -/
theorem Run.detokenizer (h₀ : s₀.Fresh) (hr : Run s₀ es s) : s.detokenizer.WellFormed := by
  induction hr with
  | nil =>
    obtain ⟨_, _, _, _, _, _, -, hnew⟩ := h₀
    simp only [Scheduler.new, bind_eq_ok, pure_eq_ok] at hnew
    obtain ⟨_, -, _, -, _, -, _, -, rfl⟩ := hnew
    exact ByteDetokenizer.new_wellFormed
  | snoc hrun hexec ih =>
    have hinv := hrun.inv h₀.inv
    cases (hinv.exec hexec).1 with
    | refused => exact ih
    | enqueued => exact ih
    | @stepped exec out _ hstep =>
      rcases hinv.step_cases exec with ⟨-, heq | ⟨e, heq⟩⟩ | ⟨seq, st, ha, -, -, -, hcase⟩
      · obtain ⟨-, rfl⟩ := Prod.mk.inj (hstep.symm.trans heq)
        exact ih
      · obtain ⟨-, rfl⟩ := Prod.mk.inj (hstep.symm.trans heq)
        exact ih
      · rw [hstep] at hcase
        refine hcase.wellFormed ?_ (by simp)
        rcases hinv.promote_eq with heq | ⟨q, rest, -, -, heq⟩
        · rwa [heq]
        · rwa [heq]
    | missed => exact ih
    | cancelled _ _ hcan =>
      rw [hcan.detokenizer]
      exact ih.reset _
    | taken => exact ih

end Detokenizer

/-! ### Failing cleanly -/

/-- What a step that has failed leaves of a scheduler whose active sequence was `seq`:
everything but the counters of the steps and of the waits, and what belongs to the
device. -/
structure CleanRerun (s s' : Scheduler σ) (seq : Sequence) : Prop where
  queued_eq : s'.queued = s.queued
  active_eq : ∃ n ms, s'.active = some (seq.withWait n ms)
  paused_eq : s'.paused = s.paused ∧ s'.pendingPauseReport = s.pendingPauseReport
  finished_eq : s'.finished = s.finished
  log_eq : s'.scheduleLog = s.scheduleLog
  last_eq : s'.lastCommittedStep = s.lastCommittedStep
  no_flight : s'.inFlight = s.inFlight
  lengths : ∀ k : SeqId, (s'.stateManager.seqs[k]?.map fun st => (st.ctxLen, st.tailLen)) =
    s.stateManager.seqs[k]?.map fun st => (st.ctxLen, st.tailLen)
  held_eq : s'.detokenizer.held seq.seqId = s.detokenizer.held seq.seqId
  /-- A token is appended, ends the sequence and is trimmed as before. -/
  again : ∀ seq', s'.active = some seq' → ∀ token,
    let r := { seq with phase := .decoding }.appendGeneratedToken token s.detokenizer
    let r' := { seq' with phase := .decoding }.appendGeneratedToken token s'.detokenizer
    r'.1 = r.1 ∧ r'.2.1 = r.2.1.withWait seq'.waitSteps seq'.accumulatedWaitMs

/-- The device has sampled a byte while bytes of a character are held back. -/
def SampledInside (s : Scheduler σ) (seq : Sequence) (exec : StepExecutor) : Prop :=
  ∃ token, s.launch.bind (Launch.sampled · exec) = some token ∧ token ≤ 255 ∧
    s.detokenizer.bufferedLen seq.seqId ≠ 0

section Rerun

variable {s s' : Scheduler σ} {seq seq' : Sequence} {st : SeqState}

/-- A step that fails leaves everything, if the detokenizer holds back the same. -/
theorem CleanRerun.of_held (hw : s.detokenizer.WellFormed) (hw' : s'.detokenizer.WellFormed)
    (hwait : seq.Waited seq') (hactive : s'.active = some seq') (hqueued : s'.queued = s.queued)
    (hpaused : s'.paused = s.paused ∧ s'.pendingPauseReport = s.pendingPauseReport)
    (hfin : s'.finished = s.finished) (hlog : s'.scheduleLog = s.scheduleLog)
    (hlast : s'.lastCommittedStep = s.lastCommittedStep) (hflight : s'.inFlight = s.inFlight)
    (hlen : ∀ k : SeqId, (s'.stateManager.seqs[k]?.map fun st => (st.ctxLen, st.tailLen)) =
      s.stateManager.seqs[k]?.map fun st => (st.ctxLen, st.tailLen))
    (hheld : s'.detokenizer.held seq.seqId = s.detokenizer.held seq.seqId) :
    CleanRerun s s' seq := by
  refine ⟨hqueued, ⟨_, _, hactive.trans (congrArg some hwait)⟩, hpaused, hfin, hlog, hlast, hflight,
    hlen, hheld, fun seq₂ hseq₂ token => ?_⟩
  obtain rfl : seq' = seq₂ := Option.some.inj (hactive.symm.trans hseq₂)
  have hagain := @Sequence.appendGeneratedToken_again { seq with phase := .decoding } _ _ hw hw'
    hheld.symm seq'.waitSteps seq'.accumulatedWaitMs token
  have heq : { seq with phase := .decoding }.withWait seq'.waitSteps seq'.accumulatedWaitMs =
      { seq' with phase := .decoding } := by
    rw [hwait]
    rfl
  rw [heq] at hagain
  exact ⟨hagain.1, hagain.2.1⟩

theorem Cycled.lengths {m m' : StateManager} {k : SeqId} (hcyc : Cycled m m' k st 0)
    (hst : m.seqs[k]? = some st) (htail : st.tailLen = 0) (k' : SeqId) :
    (m'.seqs[k']?.map fun st => (st.ctxLen, st.tailLen)) =
      m.seqs[k']?.map fun st => (st.ctxLen, st.tailLen) := by
  rcases eq_or_ne k' k with rfl | hne
  · obtain ⟨st', hst', hctx, htail'⟩ := hcyc.seq
    simp [hst, hst', hctx, htail, htail']
  · rw [hcyc.beside.others k' hne]

/-- **A step that fails** after the launch leaves everything, unless it has sampled a
byte in the middle of a character. -/
theorem StepCase.rerun {id tok : Option ℕ} {e : SchedError} (h : SchedInv s)
    (hw : s.detokenizer.WellFormed) (hst : s.stateManager.seqs[seq.seqId]? = some st)
    (htail : st.tailLen = 0) (hcase : StepCase s seq st id tok (.error (.err e), s')) :
    CleanRerun s s' seq ↔
      ¬∃ token, tok = some token ∧ token ≤ 255 ∧ s.detokenizer.bufferedLen seq.seqId ≠ 0 := by
  have hw' := hcase.wellFormed hw (by simp)
  cases hcase with
  | waited hwait hreply =>
    refine iff_of_true ?_ (by simp)
    exact .of_held hw hw hwait rfl rfl ⟨rfl, rfl⟩ rfl rfl rfl rfl (fun _ => rfl) rfl
  | @failed _ a seq' m' d' w e hwait hplan hcyc hroom hcause =>
    have hclean : d'.held seq.seqId = s.detokenizer.held seq.seqId → CleanRerun s
        { s.ran w a.nextStep with active := some seq', stateManager := m', detokenizer := d' }
        seq := by
      intro hheld
      exact .of_held hw hw' hwait rfl rfl ⟨rfl, rfl⟩ rfl rfl rfl h.inFlight.symm
        (hcyc.lengths hst htail) hheld
    rcases hcause with ⟨rfl, rfl⟩ | ⟨token, rfl, happend⟩
    · exact iff_of_true (hclean rfl) (by simp)
    · have hrej := ByteDetokenizer.held_rejected hw happend
      constructor
      · rintro hc ⟨_, ⟨⟩, hno⟩
        exact hrej.mp hc.held_eq hno
      · intro hno
        exact hclean (hrej.mpr fun hin => hno ⟨token, rfl, hin⟩)

end Rerun

/-- **When a failed step can be run again.** A step of the active sequence that fails
leaves the scheduler and the detokenizer as they were, so that the next token is
treated as if the step had not happened, if and only if the device has not sampled a
byte in the middle of a character: that one is rejected, and the bytes held back are
forgotten. -/
theorem failed_step_rerun {s₀ s s' : Scheduler σ} {es : List (Event σ)} {seq : Sequence}
    {exec : StepExecutor} {e : SchedError} (h₀ : s₀.Fresh) (hr : Run s₀ es s)
    (ha : s.active = some seq) (hstep : s.step exec = (.error (.err e), s')) :
    CleanRerun s s' seq ↔ ¬SampledInside s seq exec := by
  have hinv := hr.inv h₀.inv
  have hw := hr.detokenizer h₀
  have hpromote : s.promote = s := by
    rcases hinv.promote_eq with heq | ⟨_, _, hnone, -⟩
    · exact heq
    · rw [ha] at hnone
      cases hnone
  rcases hinv.step_cases exec with ⟨hnone, heq | ⟨e', heq⟩⟩ | ⟨seq', st, ha', hst, -, htail, hcase⟩
  · rw [hstep] at heq
    cases heq
  · rw [hstep] at heq
    obtain ⟨-, rfl⟩ := Prod.mk.inj heq
    refine iff_of_true ?_ ?_
    · exact .of_held hw hw (rfl : seq.Waited seq) ha rfl ⟨rfl, rfl⟩ rfl rfl rfl rfl
        (fun _ => rfl) rfl
    · rintro ⟨token, htok, -⟩
      rw [hnone] at htok
      cases htok
  · rw [hpromote] at ha' hcase
    obtain rfl : seq = seq' := Option.some.inj (ha.symm.trans ha')
    rw [hstep] at hcase
    exact hcase.rerun hinv hw hst htail

/-- A request whose first token is the first of two bytes. -/
def splitCalls : List SchedCall :=
  [.enqueue smallRequest, .step (sampler 65 0), .step (sampler 0xC3 1)]

/-- Whether a call has returned an error. -/
def isErr (x : SchedOutcome α) : Bool :=
  match x with
  | .error (.err _) => true
  | _ => false

theorem exists_of_isErr {r : SchedOutcome α × β} (h : isErr r.1 = true) :
    ∃ e, r = (.error (.err e), r.2) := by
  unfold isErr at h
  split at h
  · rename_i e heq
    exact ⟨e, Prod.ext heq rfl⟩
  · cases h

/-- What is found after these calls, and after a stale step or a letter in the middle of a
character. -/
theorem splitCalls_eq : (smallScheduler.calls splitCalls).map (fun r =>
    ((r.2.active.map (·.seqId), r.2.detokenizer.held 0),
      (isErr (r.2.step staleSampler).1,
        (r.2.launch.bind (Launch.sampled · staleSampler)).isNone),
      (isErr (r.2.step (sampler 65 1)).1, (r.2.step (sampler 65 1)).2.detokenizer.held 0))) =
    some ((some 0, ([0xC3], 2)), (true, true), (true, ([], 0))) := by
  decide +kernel

theorem splitCalls_isSome : (smallScheduler.calls splitCalls).isSome = true :=
  isSome_of_map splitCalls_eq

def splitRun : List (Event Unit) × Scheduler Unit :=
  (smallScheduler.calls splitCalls).get splitCalls_isSome

theorem splitRun_run : Run smallScheduler splitRun.1 splitRun.2 := by
  have hsome : smallScheduler.calls splitCalls = some splitRun :=
    (Option.some_get splitCalls_isSome).symm
  exact Run.of_calls hsome

theorem splitRun_eq :
    (splitRun.2.active.map (·.seqId) = some 0 ∧ splitRun.2.detokenizer.held 0 = ([0xC3], 2)) ∧
      (isErr (splitRun.2.step staleSampler).1 = true ∧
        (splitRun.2.launch.bind (Launch.sampled · staleSampler)).isNone = true) ∧
      isErr (splitRun.2.step (sampler 65 1)).1 = true ∧
        (splitRun.2.step (sampler 65 1)).2.detokenizer.held 0 = ([], 0) := by
  obtain ⟨r, hr, hfacts⟩ := Option.map_eq_some_iff.mp splitCalls_eq
  have hget : splitRun = r := Option.get_of_eq_some _ hr
  rw [hget]
  simpa only [Prod.mk.injEq] using hfacts

/-- After a stale step everything is as it was. -/
theorem failed_step_rerun_small :
    ∃ seq e s', splitRun.2.active = some seq ∧
      splitRun.2.step staleSampler = (.error (.err e), s') ∧ CleanRerun splitRun.2 s' seq := by
  obtain ⟨⟨hactive, -⟩, ⟨herr, htok⟩, -⟩ := splitRun_eq
  obtain ⟨seq, hseq, -⟩ := Option.map_eq_some_iff.mp hactive
  obtain ⟨e, hstep⟩ := exists_of_isErr herr
  refine ⟨seq, e, _, hseq, hstep, ?_⟩
  refine (failed_step_rerun smallScheduler_fresh splitRun_run hseq hstep).mpr ?_
  rintro ⟨token, h, -⟩
  rw [Option.isNone_iff_eq_none.mp htok] at h
  cases h

/-- A letter in the middle of a character: the step fails, and the byte that was held
back is gone. -/
theorem failed_step_forgets :
    smallScheduler.Fresh ∧ Run smallScheduler splitRun.1 splitRun.2 ∧
    ∃ seq e s', splitRun.2.active = some seq ∧
      splitRun.2.step (sampler 65 1) = (.error (.err e), s') ∧ ¬CleanRerun splitRun.2 s' seq := by
  obtain ⟨⟨hactive, hbefore⟩, -, herr, hafter⟩ := splitRun_eq
  obtain ⟨seq, hseq, hid⟩ := Option.map_eq_some_iff.mp hactive
  obtain ⟨e, hstep⟩ := exists_of_isErr herr
  refine ⟨smallScheduler_fresh, splitRun_run, seq, e, _, hseq, hstep, fun hc => ?_⟩
  have hheld := hc.held_eq
  rw [hid, hbefore, hafter] at hheld
  cases hheld

end R9v

import R9v.Sched.Order
import R9v.Sched.Conserve

/-!
# The chunks of a prompt

After every call the scheduler and the manager agree on every sequence, and the phase
of a sequence is right (`Agreement`). Hence the chunks of a prompt that were committed
are consecutive, in the order of the steps, and when the sequence decodes, or finishes
without being cancelled, they are the whole prompt.
-/

namespace R9v

open Checked StateManager List

/-! ### Tiles -/

/-- Consecutive chunks `(start, length)`, each of at most `max` positions, that cover
the first `d` positions. -/
inductive Tiles (max : ℕ) : List (ℕ × ℕ) → ℕ → Prop
  | nil : Tiles max [] 0
  | snoc {l : List (ℕ × ℕ)} {d n : ℕ} (init : Tiles max l d) (pos : 1 ≤ n) (le : n ≤ max) :
      Tiles max (l ++ [(d, n)]) (d + n)

/-- The slices of a list at some chunks, one after the other. -/
def slices (tokens : List α) (chunks : List (ℕ × ℕ)) : List α :=
  chunks.flatMap fun c => (tokens.drop c.1).take c.2

theorem Tiles.slices_eq {max d : ℕ} {l : List (ℕ × ℕ)} (h : Tiles max l d) (tokens : List α) :
    slices tokens l = tokens.take d := by
  induction h with
  | nil => rfl
  | @snoc l d n _ _ _ ih =>
    rw [slices, flatMap_append] at *
    rw [ih, flatMap_cons, flatMap_nil, append_nil]
    exact (take_add ..).symm

/-- A chunk, if there is one, leads from `d` to `d'`. -/
def Extends (max : ℕ) (c : Option (ℕ × ℕ)) (d d' : ℕ) : Prop :=
  match c with
  | none => d' = d
  | some (start, n) => start = d ∧ 1 ≤ n ∧ n ≤ max ∧ d' = d + n

theorem Tiles.extend {max d d' : ℕ} {l : List (ℕ × ℕ)} {c : Option (ℕ × ℕ)} (h : Tiles max l d)
    (he : Extends max c d d') : Tiles max (l ++ c.toList) d' := by
  cases c with
  | none =>
    rw [Option.toList_none, append_nil, (he : d' = d)]
    exact h
  | some c =>
    obtain ⟨rfl, h₁, h₂, rfl⟩ := he
    exact h.snoc h₁ h₂

/-! ### Chunks -/

/-- The chunk of the prompt of sequence `k` that a step committed: where it starts in
the context, and how long it is. -/
def StepResult.chunk (r : StepResult) (m : StateManager) (k : SeqId) : Option (ℕ × ℕ) := do
  let n ← r.step.seqsPrefill.lookup k
  let st ← m.seqs[k]?
  pure (st.ctxLen, n)

/-- The chunk that a step committed, if it did. -/
def committedChunk (out : SchedOutcome (Option StepResult)) (m : StateManager) (k : SeqId) :
    Option (ℕ × ℕ) :=
  match out with
  | .ok (some r) => r.chunk m k
  | _ => none

def Event.chunk (k : SeqId) (e : Event σ) : Option (ℕ × ℕ) :=
  e.committed.bind (·.chunk e.before.stateManager k)

/-- The chunks of the prompt of sequence `k`. -/
def chunks (es : List (Event σ)) (k : SeqId) : List (ℕ × ℕ) := es.filterMap (Event.chunk k)

/-- The sequences that are not finished. -/
def Scheduler.sequences (s : Scheduler σ) : List Sequence :=
  s.queued ++ s.active.toList ++ s.paused.toList

/-- The part of the prompt that is in the context. -/
def Sequence.prefilled (seq : Sequence) : ℕ := min seq.ctxLen seq.req.tokens.length

/-- What becomes of a sequence: it goes on, or it finishes; a chunk leads from what was
prefilled to what is prefilled then. -/
inductive Fate (max : ℕ) (s' : Scheduler σ) (seq : Sequence) (c : Option (ℕ × ℕ)) : Prop
  | kept (seq' : Sequence) (mem : seq' ∈ s'.sequences) (seqId_eq : seq'.seqId = seq.seqId)
      (req_eq : seq'.req = seq.req) (chunk : Extends max c seq.prefilled seq'.prefilled)
  | done (r : Request × List ℕ × FinishReason) (d' : ℕ) (get : s'.finished[seq.seqId]? = some r)
      (req_eq : r.1 = seq.req) (chunk : Extends max c seq.prefilled d')
      (le : d' ≤ seq.req.tokens.length)
      (whole : r.2.2 ≠ .cancelled → d' = seq.req.tokens.length)

section Fate

variable {s s' s₀ : Scheduler σ} {seq : Sequence} {st : SeqState} {id tok : Option ℕ}
  {out : SchedOutcome (Option StepResult)} {es : List (Event σ)} {c : SchedCall}
  {reply : Except SchedError Reply} {k : SeqId}

theorem Scheduler.following_eq_map (s : Scheduler σ) :
    s.following = s.sequences.map (·.seqId) := by
  simp [Scheduler.following, Scheduler.sequences]

/-- The chunk of a step of the sequence `seq`. -/
theorem resultOf_chunk (x : StepContext) (captured : Bool) (r : Scheduler.Report)
    (hst : s.stateManager.seqs[seq.seqId]? = some st) (k : SeqId) :
    (s.resultOf seq.seqId x captured r).chunk s.stateManager k =
      if k = seq.seqId ∧ x.admission.isDecode = false then some (st.ctxLen, x.admission.chunk)
      else none := by
  obtain ⟨hpre, -, -, -⟩ := resultOf_step s seq.seqId x captured r
  unfold StepResult.chunk
  rw [hpre]
  rcases eq_or_ne k seq.seqId with rfl | hne
  · cases x.admission.isDecode <;> simp [hst]
  · have hbeq : (k == seq.seqId) = false := by simpa using hne
    cases x.admission.isDecode <;> simp [hbeq, hne]

/-- The chunk of a step that takes over a token or a chunk leads to what the sequence
has prefilled then. -/
theorem Took.extends {m : StateManager} {d d' : ByteDetokenizer} {app : Sequence} {a : Admission}
    {phase : SequencePhase} {r : Scheduler.Report} {H : SeqId → ℕ} (hm : Inv H m)
    (ht : Took seq d a tok app d' phase r) (hrun : Running m d seq) (hplan : Planned s seq a) :
    Extends s.config.prefillMaxChunk
      (if a.isDecode = false then some (seq.ctxLen, a.chunk) else none) seq.prefilled
      (app.advance a phase r.acceptLen).prefilled ∧
    (tok ≠ none → (app.advance a phase r.acceptLen).prefilled = seq.req.tokens.length) := by
  obtain ⟨-, -, hreq, hctx⟩ := ht.frame hrun
  obtain ⟨hpos, hplen⟩ := promptLen_eq hm hrun.prompt_le
  have hadv : (app.advance a phase r.acceptLen).prefilled =
      min (seq.ctxLen + a.reserveN) seq.req.tokens.length := by
    simp only [Sequence.prefilled, Sequence.advance, hreq, hctx]
  have hin := hrun.phase
  rw [hadv]
  unfold Sequence.prefilled Admission.reserveN
  rcases hplan.kind with ⟨hphase, hdec, -⟩ | ⟨hphase, hdec, hge, hle, hmax⟩
  · simp only [Sequence.InPhase, hphase] at hin
    simp only [hdec, Bool.true_eq_false, if_false, if_true, Extends]
    omega
  · simp only [hdec, Bool.false_eq_true, if_true, if_false, Extends]
    refine ⟨by omega, fun htok => ?_⟩
    cases ht with
    | chunk => exact absurd rfl htok
    | token sample hacc hready happend =>
      rcases hready with ⟨h', -⟩ | ⟨-, -, heq⟩
      · rw [hphase] at h'
        cases h'
      · omega

theorem Planned.waited {a : Admission} {seq' : Sequence} (hplan : Planned s seq a)
    (hwait : seq.Waited seq') : Planned s seq' a := by
  rw [hwait]
  exact ⟨hplan.next_eq, hplan.next_lt, hplan.chunk_le, hplan.bucket, hplan.kind⟩

theorem Sequence.Waited.prefilled_eq {seq' : Sequence} (hwait : seq.Waited seq') :
    seq'.prefilled = seq.prefilled ∧ seq'.ctxLen = seq.ctxLen ∧ seq'.req = seq.req := by
  rw [hwait]
  exact ⟨rfl, rfl, rfl⟩

theorem Fate.stays {max : ℕ} (hmem : seq ∈ s'.sequences) : Fate max s' seq none :=
  .kept seq hmem rfl rfl rfl

/-- **What becomes of a sequence in a step.** -/
theorem StepCase.fate (h : SchedInv s) (ha : s.active = some seq)
    (hst : s.stateManager.seqs[seq.seqId]? = some st) (hctx : st.ctxLen = seq.ctxLen)
    (hcase : StepCase s seq st id tok (out, s')) (hout : out ≠ .error .panic) {q : Sequence}
    (hq : q ∈ s.sequences) :
    Fate s.config.prefillMaxChunk s' q (committedChunk out s.stateManager q.seqId) := by
  obtain ⟨H, hm⟩ := h.exists_inv
  have hrun := h.active seq ha
  have hmem : q ∈ s.queued ∨ q = seq := by
    simpa [Scheduler.sequences, ha, h.paused, eq_comm] using hq
  have hqueue : ∀ {s₁ : Scheduler σ}, s₁.queued = s.queued → q ∈ s.queued → q ∈ s₁.sequences := by
    intro s₁ heq hq
    simp only [Scheduler.sequences, heq, mem_append]
    exact Or.inl (Or.inl hq)
  have hactive : ∀ {s₁ : Scheduler σ} {seq₁ : Sequence}, s₁.active = some seq₁ →
      seq₁ ∈ s₁.sequences := by
    intro s₁ seq₁ heq
    simp [Scheduler.sequences, heq]
  cases hcase with
  | @waited _ seq' hwait hreply =>
    have hnone : committedChunk out s.stateManager q.seqId = none := by
      rcases hreply with rfl | ⟨e, rfl⟩ <;> rfl
    rw [hnone]
    rcases hmem with hq | rfl
    · exact .stays (hqueue rfl hq)
    · refine .kept seq' (hactive rfl) ?_ ?_ ?_
      all_goals rw [hwait]
      rfl
  | @failed _ a seq' m' d' w e hwait hplan hcyc hroom hcause =>
    rcases hmem with hq | rfl
    · exact .stays (hqueue rfl hq)
    · refine .kept seq' (hactive rfl) ?_ ?_ ?_
      all_goals rw [hwait]
      rfl
  | @committed _ x seq' app m' d' w phase r log captured hwait hplan htook hcyc hroom hpush hgoes =>
    simp only [committedChunk, resultOf_chunk x captured r hst]
    rcases hmem with hq | rfl
    · rw [if_neg fun hc => h.ne_of_queued ha hq hc.1]
      exact .stays (hqueue rfl hq)
    · obtain ⟨hpre, hctx', hreq'⟩ := hwait.prefilled_eq
      obtain ⟨-, hid, hreq, -⟩ := htook.frame (hrun.waited hwait)
      have hext := (htook.extends hm (hrun.waited hwait) (hplan.waited hwait)).1
      refine .kept _ (hactive rfl) ?_ ?_ ?_
      · rw [Sequence.advance, hid, hwait]
      · rw [Sequence.advance, hreq, hreq']
      · rw [hpre, hctx'] at hext
        simpa [hctx] using hext
  | @finished _ x seq' app m' m'' d' w phase r log reason captured hwait hplan htook hcyc hfree hroom
      hpush hfin =>
    simp only [committedChunk, resultOf_chunk x captured r hst]
    rcases hmem with hq | rfl
    · rw [if_neg fun hc => h.ne_of_queued ha hq hc.1]
      exact .stays (hqueue rfl hq)
    · obtain ⟨hpre, hctx', hreq'⟩ := hwait.prefilled_eq
      have htok : tok ≠ none := by
        rintro rfl
        cases htook
        simp at hfin
      obtain ⟨hext, hwhole⟩ := htook.extends hm (hrun.waited hwait) (hplan.waited hwait)
      rw [hwhole htok, hpre, hctx', hreq'] at hext
      refine .done (q.req, app.generated, reason) q.req.tokens.length ?_ rfl ?_ le_rfl fun _ => rfl
      · exact Std.ExtTreeMap.getElem?_insert_self
      · simpa [hctx] using hext
  | panicked => exact absurd rfl hout

theorem SchedInv.promote_sequences (h : SchedInv s) {q : Sequence} (hq : q ∈ s.sequences) :
    ∃ q' ∈ s.promote.sequences, q'.seqId = q.seqId ∧ q'.req = q.req ∧
      q'.prefilled = q.prefilled := by
  rcases h.promote_eq with heq | ⟨q₀, rest, hactive, hqueue, heq⟩
  · rw [heq]
    exact ⟨q, hq, rfl, rfl, rfl⟩
  · rw [heq]
    simp only [Scheduler.sequences, hqueue, hactive, h.paused, Option.toList_none,
      append_nil, mem_cons] at hq
    simp only [Scheduler.sequences, h.paused, Option.toList_none, Option.toList_some,
      append_nil, mem_append, mem_singleton]
    rcases hq with rfl | hq
    · exact ⟨_, Or.inr rfl, rfl, rfl, rfl⟩
    · exact ⟨q, Or.inl hq, rfl, rfl, rfl⟩

theorem SchedInv.step_fate {exec : StepExecutor} (h : SchedInv s)
    (hstep : s.step exec = (out, s')) (hout : out ≠ .error .panic) {q : Sequence}
    (hq : q ∈ s.sequences) :
    Fate s.config.prefillMaxChunk s' q (committedChunk out s.stateManager q.seqId) := by
  rcases h.step_cases exec with ⟨-, heq | ⟨e, heq⟩⟩ | ⟨seq, st, ha, hst, hctx, -, hcase⟩
  · rw [hstep] at heq
    cases heq
    exact .stays hq
  · rw [hstep] at heq
    cases heq
    exact .stays hq
  · rw [hstep] at hcase
    have hm : s.promote.stateManager = s.stateManager ∧ s.promote.config = s.config := by
      rcases h.promote_eq with heq | ⟨_, _, -, -, heq⟩ <;> rw [heq] <;> exact ⟨rfl, rfl⟩
    obtain ⟨q', hq', hid, hreq, hpre⟩ := h.promote_sequences hq
    have hfate := hcase.fate h.promote ha (hm.1 ▸ hst) hctx hout hq'
    rw [hm.1, hm.2, hid] at hfate
    cases hfate with
    | kept seq' hmem hid' hreq' hext =>
      exact .kept seq' hmem (hid'.trans hid) (hreq'.trans hreq) (hpre ▸ hext)
    | done r d' hget hreq' hext hle hwhole =>
      exact .done r d' (hid ▸ hget) (hreq'.trans hreq) (hpre ▸ hext) (hreq ▸ hle) (hreq ▸ hwhole)

/-- **What becomes of a sequence in a call.** -/
theorem CallEffect.fate (h : SchedInv s) (he : CallEffect s c reply s') {q : Sequence}
    (hq : q ∈ s.sequences) :
    Fate s.config.prefillMaxChunk s' q ((⟨s, c, reply, s'⟩ : Event σ).chunk q.seqId) := by
  cases he with
  | refused e => exact .stays hq
  | enqueued =>
    refine .stays ?_
    simp only [Scheduler.sequences, mem_append] at hq ⊢
    tauto
  | @stepped exec out s' hstep =>
    have hchunk : (⟨s, .step exec, out.map .stepped, s'⟩ : Event σ).chunk q.seqId =
        committedChunk (lift out) s.stateManager q.seqId := by
      rcases out with e | _ | r <;> rfl
    rw [hchunk]
    exact h.step_fate hstep (by simp) hq
  | missed => exact .stays hq
  | @cancelled c k s' hc hs hcan =>
    obtain ⟨seq, hseq, rfl, hfin⟩ := hcan.finished
    have hmem : seq ∈ s.sequences := by
      simp only [Scheduler.sequences, mem_append, Option.mem_toList]
      tauto
    have hnodup := h.nodup
    rw [s.following_eq_map] at hnodup
    by_cases hid : q.seqId = seq.seqId
    · obtain rfl := inj_on_of_nodup_map hnodup hq hmem hid
      refine .done (q.req, q.generated, .cancelled) q.prefilled ?_ rfl rfl (min_le_right _ _) ?_
      · rw [hfin]
        exact Std.ExtTreeMap.getElem?_insert_self
      · exact fun hno => absurd rfl hno
    · -- the containers only lose `seq`
      have hin : q.seqId ∈ s'.following := by
        have : q.seqId ∈ s.following := s.following_eq_map ▸ mem_map_of_mem hq
        exact mem_of_ne_of_mem hid (hcan.perm.mem_iff.mp this)
      rw [s'.following_eq_map] at hin
      obtain ⟨q', hq', heq⟩ := mem_map.mp hin
      have hq'' : q' ∈ s.sequences := by
        simp only [Scheduler.sequences, hcan.inv.paused, Option.toList_none, append_nil,
          mem_append, Option.mem_toList] at hq'
        simp only [Scheduler.sequences, mem_append, Option.mem_toList]
        rcases hq' with hq' | hq'
        · exact Or.inl (Or.inl (hcan.queued.subset hq'))
        · rcases hcan.active with ha | ⟨ha, -⟩
          · exact Or.inl (Or.inr (ha ▸ hq'))
          · rw [ha] at hq'
            cases hq'
      obtain rfl := inj_on_of_nodup_map hnodup hq'' hq heq
      exact .stays hq'
  | taken k => exact .stays hq

theorem Event.chunk_eq_none {e : Event σ} (h : SchedInv e.before) (hk : k ∉ e.before.following) :
    e.chunk k = none := by
  have hseqs : e.before.stateManager.seqs[k]? = none := by
    cases hst : e.before.stateManager.seqs[k]? with
    | none => rfl
    | some st => exact absurd ((h.live k).mp ⟨st, hst⟩) hk
  unfold Event.chunk StepResult.chunk
  cases e.committed with
  | none => rfl
  | some r =>
    rw [hseqs]
    simp

end Fate

/-! ### Prompts along a run -/

/-- The request that the call has queued, and its id. -/
def Event.enqueuedRequest (e : Event σ) : Option (SeqId × Request) :=
  match e.call, e.reply with
  | .enqueue req, .ok (.enqueued k) => some (k, req)
  | _, _ => none

/-- The chunks of the prompt of request `req`, which has the id `k`: they cover what
the sequence has prefilled, and the whole prompt when it has finished. -/
structure Prefilled (es : List (Event σ)) (s : Scheduler σ) (k : SeqId) (req : Request) (d : ℕ) :
    Prop where
  tiles : Tiles s.config.prefillMaxChunk (chunks es k) d
  le : d ≤ req.tokens.length
  followed : ∀ seq ∈ s.sequences, seq.seqId = k → seq.req = req ∧ d = seq.prefilled
  finished : ∀ r, s.finished[k]? = some r → r.1 = req ∧
    (r.2.2 ≠ .cancelled → d = req.tokens.length)

section Prompts

variable {s s' s₀ : Scheduler σ} {es : List (Event σ)} {c : SchedCall}
  {reply : Except SchedError Reply} {k : SeqId} {req : Request} {d : ℕ}

theorem chunks_snoc (es : List (Event σ)) (e : Event σ) (k : SeqId) :
    chunks (es ++ [e]) k = chunks es k ++ (e.chunk k).toList := filterMap_snoc ..

theorem enqueuedId_of_request {e : Event σ} (h : e.enqueuedRequest = some (k, req)) :
    e.enqueuedId = some k := by
  unfold Event.enqueuedRequest at h
  unfold Event.enqueuedId
  split at h
  · rename_i heq
    rw [heq]
    cases h
    rfl
  · cases h

theorem mem_enqueued {e : Event σ} (he : e ∈ es) (h : e.enqueuedRequest = some (k, req)) :
    k ∈ es.filterMap Event.enqueuedId :=
  mem_filterMap.mpr ⟨e, he, enqueuedId_of_request h⟩

theorem Prefilled.snoc (hp : Prefilled es s k req d) (h : SchedInv s) (h' : SchedInv s')
    (hh : History es s) (hh' : History (es ++ [⟨s, c, reply, s'⟩]) s')
    (hmem : k ∈ es.filterMap Event.enqueuedId) (he : CallEffect s c reply s')
    (hcfg : s'.config = s.config) :
    ∃ d', Prefilled (es ++ [⟨s, c, reply, s'⟩]) s' k req d' := by
  have hnodup := h'.nodup
  rw [s'.following_eq_map] at hnodup
  by_cases hk : k ∈ s.following
  · rw [s.following_eq_map] at hk
    obtain ⟨q, hq, rfl⟩ := mem_map.mp hk
    obtain ⟨hreq, rfl⟩ := hp.followed q hq rfl
    cases he.fate h hq with
    | kept q' hq' hid hreq' hext =>
      refine ⟨q'.prefilled, ?_, ?_, ?_, ?_⟩
      · rw [chunks_snoc, hcfg]
        exact hp.tiles.extend hext
      · rw [← hreq, ← hreq']
        exact min_le_right _ _
      · intro q₂ hq₂ hid₂
        obtain rfl := inj_on_of_nodup_map hnodup hq₂ hq' (hid₂.trans hid.symm)
        exact ⟨hreq'.trans hreq, rfl⟩
      · intro r hr
        have hfin : q.seqId ∈ s'.finished := by
          rw [Std.ExtTreeMap.mem_iff_isSome_getElem?, hr]
          rfl
        refine absurd ?_ (h'.finished _ hfin).2
        rw [s'.following_eq_map, ← hid]
        exact mem_map_of_mem hq'
    | done r d' hget hreq' hext hle hwhole =>
      have hfin : q.seqId ∈ s'.finished := by
        rw [Std.ExtTreeMap.mem_iff_isSome_getElem?, hget]
        rfl
      refine ⟨d', ?_, hreq ▸ hle, ?_, ?_⟩
      · rw [chunks_snoc, hcfg]
        exact hp.tiles.extend hext
      · intro q₂ hq₂ hid₂
        refine absurd ?_ (h'.finished _ hfin).2
        rw [s'.following_eq_map, ← hid₂]
        exact mem_map_of_mem hq₂
      · intro r' hr'
        rw [hget] at hr'
        cases hr'
        exact ⟨hreq'.trans hreq, hreq ▸ hwhole⟩
  · -- the sequence has finished, and its result may have been taken
    have hchunk : (⟨s, c, reply, s'⟩ : Event σ).chunk k = none := Event.chunk_eq_none h hk
    have htiles : Tiles s'.config.prefillMaxChunk (chunks (es ++ [⟨s, c, reply, s'⟩]) k) d := by
      rw [chunks_snoc, hchunk, Option.toList_none, append_nil, hcfg]
      exact hp.tiles
    have hgone : ¬s'.Knows k → Prefilled (es ++ [⟨s, c, reply, s'⟩]) s' k req d := by
      intro hno
      refine ⟨htiles, hp.le, fun q hq hid => absurd (Or.inl ?_) hno, fun r hr =>
        absurd (Or.inr ?_) hno⟩
      · rw [s'.following_eq_map, ← hid]
        exact mem_map_of_mem hq
      · rw [Std.ExtTreeMap.mem_iff_isSome_getElem?, hr]
        rfl
    by_cases hk' : s'.Knows k
    · obtain ⟨-, hno⟩ := (hh'.knows k).mp hk'
      rw [filterMap_snoc, mem_append, not_or] at hno
      have hfin : k ∈ s.finished := ((hh.knows k).mpr ⟨hmem, hno.1⟩).resolve_left hk
      obtain ⟨r, hr⟩ := Option.isSome_iff_exists.mp
        (Std.ExtTreeMap.mem_iff_isSome_getElem?.mp hfin)
      have hr' : s'.finished[k]? = some r := by
        refine he.finished_get h hr fun htaken => hno.2 ?_
        rw [htaken]
        exact mem_singleton_self k
      have hfin' : k ∈ s'.finished := by
        rw [Std.ExtTreeMap.mem_iff_isSome_getElem?, hr']
        rfl
      refine ⟨d, htiles, hp.le, ?_, ?_⟩
      · intro q hq hid
        refine absurd ?_ (h'.finished _ hfin').2
        rw [s'.following_eq_map, ← hid]
        exact mem_map_of_mem hq
      · intro r₂ hr₂
        rw [hr'] at hr₂
        cases hr₂
        exact hp.finished r hr
    · exact ⟨d, hgone hk'⟩

theorem CallEffect.prefilled_new (h' : SchedInv s') (he : CallEffect s c reply s')
    (hreq : (⟨s, c, reply, s'⟩ : Event σ).enqueuedRequest = some (k, req))
    (hnone : chunks (es ++ [⟨s, c, reply, s'⟩]) k = []) :
    Prefilled (es ++ [⟨s, c, reply, s'⟩]) s' k req 0 := by
  cases he with
  | @enqueued req₀ m' hnext hothers =>
    simp only [Event.enqueuedRequest, Option.some.injEq, Prod.mk.injEq] at hreq
    obtain ⟨rfl, rfl⟩ := hreq
    have hnodup := h'.nodup
    rw [Scheduler.following_eq_map] at hnodup
    have hmem : Sequence.new req₀ s.stateManager.nextSeq (s.arrivalCounter + 1) ∈
        ({ s with stateManager := m', arrivalCounter := s.arrivalCounter + 1, queued := s.queued ++
          [Sequence.new req₀ s.stateManager.nextSeq (s.arrivalCounter + 1)] } :
            Scheduler σ).sequences := by
      simp [Scheduler.sequences]
    refine ⟨?_, Nat.zero_le _, ?_, ?_⟩
    · rw [hnone]
      exact .nil
    · intro q hq hid
      obtain rfl := inj_on_of_nodup_map hnodup hq hmem hid
      exact ⟨rfl, rfl⟩
    · intro r hr
      have hfin : s.stateManager.nextSeq ∈ s.finished := by
        rw [Std.ExtTreeMap.mem_iff_isSome_getElem?]
        exact congrArg Option.isSome hr
      refine absurd ?_ (h'.finished _ hfin).2
      rw [Scheduler.following_eq_map]
      exact mem_map_of_mem hmem
  | @stepped exec out _ _ => cases out <;> cases hreq
  | missed => cases c <;> cases hreq
  | cancelled => cases c <;> cases hreq
  | refused => cases hreq
  | taken => cases hreq

theorem CallEffect.config_eq (h : SchedInv s) (he : CallEffect s c reply s') :
    s'.config = s.config ∧ s.stateManager.nextSeq ≤ s'.stateManager.nextSeq := by
  cases he with
  | enqueued hnext => exact ⟨rfl, by simp only [hnext]; exact Nat.le_succ _⟩
  | stepped hstep =>
    have hf := h.step_facts hstep (by simp)
    exact ⟨hf.config_eq, hf.nextSeq_eq.ge⟩
  | cancelled _ _ hcan => exact ⟨hcan.same.2.2.2.2, hcan.beside.nextSeq_eq.ge⟩
  | _ => exact ⟨rfl, le_rfl⟩

/-- **The prompts along a run.** -/
theorem Run.prefilled (h₀ : s₀.Fresh) (hr : Run s₀ es s) :
    (∀ k, s.stateManager.nextSeq ≤ k → chunks es k = []) ∧
    ∀ e ∈ es, ∀ k req, e.enqueuedRequest = some (k, req) → ∃ d, Prefilled es s k req d := by
  induction hr with
  | nil => exact ⟨fun _ _ => rfl, by simp⟩
  | @snoc es s s' c reply hrun hexec ih =>
    have hinv := hrun.inv h₀.inv
    obtain ⟨heff, hinv'⟩ := hinv.exec hexec
    obtain ⟨hcfg, hnext⟩ := heff.config_eq hinv
    have hh := hrun.history h₀
    have hh' := (hrun.snoc hexec).history h₀
    have hnone : ∀ k, s.stateManager.nextSeq ≤ k →
        chunks (es ++ [⟨s, c, reply, s'⟩]) k = [] := by
      intro k hk
      have hno : k ∉ s.following := fun hin => Nat.not_lt.mpr hk (hinv.lt_nextSeq hin)
      rw [chunks_snoc, ih.1 k hk, Event.chunk_eq_none hinv hno]
      rfl
    refine ⟨fun k hk => hnone k (hnext.trans hk), fun e he k req hreq => ?_⟩
    rcases mem_append.mp he with he | he
    · obtain ⟨d, hp⟩ := ih.2 e he k req hreq
      exact hp.snoc hinv hinv' hh hh' (mem_enqueued he hreq) heff hcfg
    · obtain rfl := mem_singleton.mp he
      refine ⟨0, heff.prefilled_new hinv' hreq (hnone k ?_)⟩
      cases heff with
      | enqueued => cases hreq; exact le_rfl
      | @stepped exec out _ _ => cases out <;> cases hreq
      | missed => cases c <;> cases hreq
      | cancelled => cases c <;> cases hreq
      | refused => cases hreq
      | taken => cases hreq

end Prompts

/-! ### Agreement -/

/-- What the phase of a sequence says, with what the manager has for it. -/
def PhaseHolds (m : StateManager) (seq : Sequence) : Prop :=
  match seq.phase with
  | .queued => seq.ctxLen = 0 ∧ ¬HoldsBlocks m seq.seqId
  | .prefilling done => done = seq.ctxLen ∧ seq.ctxLen < seq.promptLen ∧ seq.generated = []
  | .decoding =>
    seq.ctxLen + 1 = seq.promptLen + seq.generated.length ∧ 1 ≤ seq.generated.length ∧
      seq.generated.length < seq.req.maxTokens
  | .finished _ => False

/-- The scheduler and the manager agree. -/
structure Agreement (s : Scheduler σ) : Prop where
  no_tail : ∀ (k : SeqId) (st : SeqState), s.stateManager.seqs[k]? = some st → st.tailLen = 0
  no_flight : s.inFlight = none
  same_len : ∀ seq ∈ s.sequences, ∃ st, s.stateManager.seqs[seq.seqId]? = some st ∧
    st.ctxLen = seq.ctxLen
  phases : ∀ seq ∈ s.sequences, PhaseHolds s.stateManager seq

theorem SchedInv.agreement {s : Scheduler σ} (h : SchedInv s) : Agreement s := by
  have hcases : ∀ seq ∈ s.sequences, seq ∈ s.queued ∨ s.active = some seq := by
    simpa [Scheduler.sequences, h.paused] using hseq
  have hfollows : ∀ seq ∈ s.sequences, Follows s.stateManager seq := by
    intro seq hseq
    rcases hcases seq hseq with hq | ha
    · exact (h.queued seq hq).follows
    · exact (h.active seq ha).follows
  refine ⟨?_, h.inFlight, ?_, ?_⟩
  · intro k st hst
    have hk := (h.live k).mp ⟨st, hst⟩
    rw [s.following_eq_map] at hk
    obtain ⟨seq, hseq, rfl⟩ := mem_map.mp hk
    obtain ⟨st', hst', -, htail⟩ := hfollows seq hseq
    rw [hst] at hst'
    cases hst'
    exact htail
  · intro seq hseq
    obtain ⟨st, hst, hlen, -⟩ := hfollows seq hseq
    exact ⟨st, hst, hlen⟩
  · intro seq hseq
    rcases hcases seq hseq with hq | ha
    · have hw := h.queued seq hq
      have hphase : seq.phase = .queued ∧ seq.ctxLen = 0 := by
        rw [hw.fresh]
        exact ⟨rfl, rfl⟩
      simp only [PhaseHolds, hphase.1]
      refine ⟨hphase.2, ?_⟩
      rintro ⟨st, gi, hst, hne⟩
      exact hne (hw.holdsNone st hst gi)
    · have hrun := h.active seq ha
      have hin := hrun.phase
      have hstart := hrun.started
      unfold Sequence.InPhase at hin
      unfold PhaseHolds
      cases hphase : seq.phase with
      | queued => exact absurd hphase hstart
      | _ =>
        rw [hphase] at hin
        exact hin

theorem SchedInv.promptLen_eq {s : Scheduler σ} (h : SchedInv s) {seq : Sequence}
    (hseq : seq ∈ s.sequences) : seq.promptLen = seq.req.tokens.length := by
  obtain ⟨H, hm⟩ := h.exists_inv
  have hcases : seq ∈ s.queued ∨ s.active = some seq := by
    simpa [Scheduler.sequences, h.paused] using hseq
  rcases hcases with hq | ha
  · exact (R9v.promptLen_eq hm (h.queued seq hq).prompt_le).2
  · exact (R9v.promptLen_eq hm (h.active seq ha).prompt_le).2

/-- **The scheduler and the manager agree** after every call, and the chunks of a prompt
that were committed are consecutive slices of it, of one to `prefillMaxChunk` tokens:
together they are what is prefilled of the prompt, all of it once the sequence decodes
or has finished by itself. -/
theorem scheduler_agreement {s₀ s : Scheduler σ} {es : List (Event σ)} (h₀ : s₀.Fresh)
    (hr : Run s₀ es s) :
    Agreement s ∧
    ∀ e ∈ es, ∀ k req, e.enqueuedRequest = some (k, req) → ∃ d,
      Tiles s.config.prefillMaxChunk (chunks es k) d ∧ d ≤ req.tokens.length ∧
      slices req.tokens (chunks es k) = req.tokens.take d ∧
      (∀ seq ∈ s.sequences, seq.seqId = k → seq.req = req ∧
        match seq.phase with
        | .prefilling done => d = done
        | .decoding => d = req.tokens.length
        | _ => d = 0) ∧
      ∀ r, s.finished[k]? = some r → r.1 = req ∧
        (r.2.2 ≠ .cancelled → d = req.tokens.length) := by
  have hinv := hr.inv h₀.inv
  have hagree := hinv.agreement
  refine ⟨hagree, fun e he k req hreq => ?_⟩
  obtain ⟨d, hp⟩ := (hr.prefilled h₀).2 e he k req hreq
  refine ⟨d, hp.tiles, hp.le, hp.tiles.slices_eq _, fun seq hseq hid => ?_, hp.finished⟩
  obtain ⟨hreq', rfl⟩ := hp.followed seq hseq hid
  refine ⟨hreq', ?_⟩
  have hphase := hagree.phases seq hseq
  have hlen := hinv.promptLen_eq hseq
  rw [hreq'] at hlen
  unfold PhaseHolds at hphase
  unfold Sequence.prefilled
  rw [hreq']
  cases hph : seq.phase with
  | queued => simp [hph] at hphase ⊢; omega
  | prefilling done => simp only [hph] at hphase ⊢; omega
  | decoding => simp only [hph] at hphase ⊢; omega
  | finished reason => simp [hph] at hphase

/-- The prompt of the first request was committed in two chunks. -/
theorem scheduler_agreement_small :
    chunks smallRun.1 0 = [(0, 16), (16, 4)] ∧ Agreement smallRun.2 :=
  ⟨by decide +kernel, (scheduler_agreement smallScheduler_fresh smallRun_run).1⟩

end R9v

import R9v.Sched.Runs

/-!
# No request is lost

Along every run of the scheduler a request is in one place: in the queue, in one of
the two slots, or among the results, until its result is taken. The manager has
exactly the sequences that are not finished, and only the active one has blocks, so
that nothing is ever paused.
-/

namespace R9v

open Checked StateManager List

/-! ### Histories -/

/-- The id that the call has given out. -/
def Event.enqueuedId (e : Event σ) : Option SeqId :=
  match e.reply with
  | .ok (.enqueued k) => some k
  | _ => none

/-- The id whose result the call has taken. -/
def Event.takenId (e : Event σ) : Option SeqId :=
  match e.call, e.reply with
  | .takeFinished k, .ok (.taken (some _)) => some k
  | _, _ => none

/-- How often an id occurs in the queue, in the two slots and among the results. -/
def Scheduler.occurrences (s : Scheduler σ) (k : SeqId) : ℕ :=
  s.following.count k + if k ∈ s.finished then 1 else 0

section Known

variable {s s' s₀ : Scheduler σ} {seq : Sequence} {st : SeqState} {id tok : Option ℕ}
  {out : SchedOutcome (Option StepResult)} {es es' : List (Event σ)} {k : SeqId}

/-- The scheduler knows the sequence: it is not finished, or its result is there. -/
def Scheduler.Knows (s : Scheduler σ) (k : SeqId) : Prop := k ∈ s.following ∨ k ∈ s.finished

theorem SchedInv.occurrences (h : SchedInv s) (k : SeqId) :
    (s.Knows k → s.occurrences k = 1) ∧ (¬s.Knows k → s.occurrences k = 0) := by
  unfold Scheduler.occurrences Scheduler.Knows
  constructor
  · rintro (hk | hk)
    · have hno : k ∉ s.finished := fun hfin => (h.finished k hfin).2 hk
      rw [count_eq_one_of_mem h.nodup hk, if_neg hno]
    · rw [count_eq_zero_of_not_mem (h.finished k hk).2, if_pos hk]
  · intro hk
    rw [not_or] at hk
    rw [count_eq_zero_of_not_mem hk.1, if_neg hk.2]

theorem StepCase.knows (h : SchedInv s) (ha : s.active = some seq)
    (hcase : StepCase s seq st id tok (out, s')) (hout : out ≠ .error .panic) (k : SeqId) :
    s'.Knows k ↔ s.Knows k := by
  have hfol := h.following_eq ha
  have hrun := h.active seq ha
  unfold Scheduler.Knows
  cases hcase with
  | @waited _ seq' hwait _ =>
    have hid : seq'.seqId = seq.seqId := by rw [hwait]
    rw [hfol]
    simp [Scheduler.following, h.paused, hid]
  | @failed _ a seq' m' d' w e hwait hplan hcyc hroom hcause =>
    have hid : seq'.seqId = seq.seqId := by rw [hwait]
    rw [hfol]
    simp [Scheduler.following, Scheduler.ran, h.paused, hid]
  | @committed _ x seq' app m' d' w phase r log captured hwait hplan htook hcyc hroom hpush hgoes =>
    obtain ⟨-, hid, -, -⟩ := htook.frame (hrun.waited hwait)
    have hid' : seq'.seqId = seq.seqId := by rw [hwait]
    rw [hfol]
    simp [Scheduler.following, Scheduler.ran, Sequence.advance, h.paused, hid, hid']
  | @finished _ x seq' app m' m'' d' w phase r log reason captured hwait hplan htook hcyc hfree hroom
      hpush hfin =>
    rw [hfol]
    simp only [Scheduler.following, Scheduler.ran, h.paused, Option.toList_none, map_nil,
      append_nil, Std.ExtTreeMap.mem_insert, compare_eq_iff_eq, mem_append,
      mem_singleton]
    tauto
  | panicked => exact absurd rfl hout

theorem Scheduler.promote_knows (h : SchedInv s) (k : SeqId) : s.promote.Knows k ↔ s.Knows k := by
  have hmem := (s.promote_following h.paused).mem_iff (a := k)
  unfold Scheduler.Knows
  rw [hmem]
  rcases h.promote_eq with heq | ⟨q, rest, -, -, heq⟩ <;> rw [heq]

theorem SchedInv.step_knows {exec : StepExecutor} (h : SchedInv s)
    (hstep : s.step exec = (out, s')) (hout : out ≠ .error .panic) (k : SeqId) :
    s'.Knows k ↔ s.Knows k := by
  rcases h.step_cases exec with ⟨-, heq | ⟨e, heq⟩⟩ | ⟨seq, st, ha, -, -, -, hcase⟩
  · rw [hstep] at heq
    cases heq
    rfl
  · rw [hstep] at heq
    cases heq
    rfl
  · rw [hstep] at hcase
    exact (hcase.knows h.promote ha hout k).trans (Scheduler.promote_knows h k)

end Known

/-- What the history of a run says about what is known now. -/
structure History (es : List (Event σ)) (s : Scheduler σ) : Prop where
  enqueued_lt : ∀ k ∈ es.filterMap Event.enqueuedId, k < s.stateManager.nextSeq
  taken_lt : ∀ k ∈ es.filterMap Event.takenId, k < s.stateManager.nextSeq
  nodup : (es.filterMap Event.enqueuedId).Nodup
  knows : ∀ k, s.Knows k ↔
    k ∈ es.filterMap Event.enqueuedId ∧ k ∉ es.filterMap Event.takenId

section History

variable {s s' s₀ : Scheduler σ} {es : List (Event σ)} {c : SchedCall}
  {reply : Except SchedError Reply}

/-- A call that neither gives out an id nor takes a result, and knows what was known. -/
theorem History.quiet (hh : History es s) {e : Event σ} (h₁ : e.enqueuedId = none)
    (h₂ : e.takenId = none) (hnext : s'.stateManager.nextSeq = s.stateManager.nextSeq)
    (hk : ∀ k, s'.Knows k ↔ s.Knows k) : History (es ++ [e]) s' := by
  have he₁ : (es ++ [e]).filterMap Event.enqueuedId = es.filterMap Event.enqueuedId := by
    simp [filterMap_append, h₁]
  have he₂ : (es ++ [e]).filterMap Event.takenId = es.filterMap Event.takenId := by
    simp [filterMap_append, h₂]
  constructor
  · rw [he₁, hnext]
    exact hh.enqueued_lt
  · rw [he₂, hnext]
    exact hh.taken_lt
  · rw [he₁]
    exact hh.nodup
  · intro k
    rw [he₁, he₂, hk]
    exact hh.knows k

theorem History.enqueued (hh : History es s) {e : Event σ}
    (h₁ : e.enqueuedId = some s.stateManager.nextSeq) (h₂ : e.takenId = none)
    (hnext : s'.stateManager.nextSeq = s.stateManager.nextSeq + 1)
    (hk : ∀ k, s'.Knows k ↔ s.Knows k ∨ k = s.stateManager.nextSeq) : History (es ++ [e]) s' := by
  have he₁ : (es ++ [e]).filterMap Event.enqueuedId =
      es.filterMap Event.enqueuedId ++ [s.stateManager.nextSeq] := by
    simp [filterMap_append, h₁]
  have he₂ : (es ++ [e]).filterMap Event.takenId = es.filterMap Event.takenId := by
    simp [filterMap_append, h₂]
  have hnew : s.stateManager.nextSeq ∉ es.filterMap Event.enqueuedId := fun hmem =>
    Nat.lt_irrefl _ (hh.enqueued_lt _ hmem)
  have hnew' : s.stateManager.nextSeq ∉ es.filterMap Event.takenId := fun hmem =>
    Nat.lt_irrefl _ (hh.taken_lt _ hmem)
  constructor
  · intro k hmem
    rw [he₁, mem_append, mem_singleton] at hmem
    rw [hnext]
    rcases hmem with hmem | rfl
    · exact Nat.lt_succ_of_lt (hh.enqueued_lt k hmem)
    · exact Nat.lt_succ_self _
  · intro k hmem
    rw [he₂] at hmem
    rw [hnext]
    exact Nat.lt_succ_of_lt (hh.taken_lt k hmem)
  · rw [he₁]
    refine nodup_append.mpr ⟨hh.nodup, nodup_singleton _, ?_⟩
    rintro k hmem _ hk rfl
    obtain rfl := mem_singleton.mp hk
    exact hnew hmem
  · intro k
    rw [he₁, he₂, hk, hh.knows, mem_append, mem_singleton]
    constructor
    · rintro (⟨h₁, h₂⟩ | rfl)
      · exact ⟨Or.inl h₁, h₂⟩
      · exact ⟨Or.inr rfl, hnew'⟩
    · rintro ⟨h₁ | rfl, h₂⟩
      · exact Or.inl ⟨h₁, h₂⟩
      · exact Or.inr rfl

theorem History.taken (hh : History es s) {e : Event σ} {k : SeqId}
    (hlt : k < s.stateManager.nextSeq) (h₁ : e.enqueuedId = none) (h₂ : e.takenId = some k)
    (hnext : s'.stateManager.nextSeq = s.stateManager.nextSeq)
    (hk : ∀ k', s'.Knows k' ↔ s.Knows k' ∧ k' ≠ k) : History (es ++ [e]) s' := by
  have he₁ : (es ++ [e]).filterMap Event.enqueuedId = es.filterMap Event.enqueuedId := by
    simp [filterMap_append, h₁]
  have he₂ : (es ++ [e]).filterMap Event.takenId = es.filterMap Event.takenId ++ [k] := by
    simp [filterMap_append, h₂]
  constructor
  · rw [he₁, hnext]
    exact hh.enqueued_lt
  · intro k' hmem
    rw [he₂, mem_append, mem_singleton] at hmem
    rw [hnext]
    rcases hmem with hmem | rfl
    · exact hh.taken_lt k' hmem
    · exact hlt
  · rw [he₁]
    exact hh.nodup
  · intro k'
    rw [he₁, he₂, hk, hh.knows, mem_append, mem_singleton]
    tauto

/-- What is known without the result of `k`. -/
theorem Scheduler.knows_erase (s : Scheduler σ) (k k' : SeqId) :
    ({ s with finished := s.finished.erase k } : Scheduler σ).Knows k' ↔
      k' ∈ s.following ∨ k' ∈ s.finished ∧ k' ≠ k := by
  have hfol : ({ s with finished := s.finished.erase k } : Scheduler σ).following =
    s.following := rfl
  unfold Scheduler.Knows
  rw [hfol, Std.ExtTreeMap.mem_erase, Ne, compare_eq_iff_eq, eq_comm, and_comm]

theorem History.snoc (hh : History es s) (h : SchedInv s) (he : CallEffect s c reply s') :
    History (es ++ [⟨s, c, reply, s'⟩]) s' := by
  cases he with
  | refused e => exact hh.quiet rfl rfl rfl fun _ => Iff.rfl
  | @enqueued req m' hnext hcfg hothers =>
    refine hh.enqueued rfl rfl hnext fun k => ?_
    simp only [Scheduler.Knows, Scheduler.following, map_append, mem_append,
      map_cons, map_nil, mem_singleton, Sequence.new]
    tauto
  | @stepped exec out s' hstep =>
    have hout : lift out ≠ .error .panic := by simp
    refine hh.quiet ?_ rfl (h.step_facts hstep hout).nextSeq_eq (h.step_knows hstep hout)
    cases out <;> rfl
  | missed hc hs =>
    refine hh.quiet rfl ?_ rfl fun _ => Iff.rfl
    cases c <;> rfl
  | @cancelled c k s' hc hs hcan =>
    refine hh.quiet rfl ?_ hcan.beside.nextSeq_eq fun k' => ?_
    · cases c <;> rfl
    · obtain ⟨seq, -, -, hfin⟩ := hcan.finished
      unfold Scheduler.Knows
      rw [hcan.perm.mem_iff, hfin, Std.ExtTreeMap.mem_insert, mem_cons, compare_eq_iff_eq,
        eq_comm (a := k)]
      tauto
  | taken k =>
    by_cases hfin : k ∈ s.finished
    · obtain ⟨hlt, hno⟩ := h.finished k hfin
      refine hh.taken hlt rfl ?_ rfl fun k' => ?_
      · rw [Std.ExtTreeMap.getElem?_eq_some_getElem hfin]
        rfl
      · rw [Scheduler.knows_erase, Scheduler.Knows, or_and_right]
        refine or_congr_left ⟨fun h' => ⟨h', fun heq => hno (heq ▸ h')⟩, And.left⟩
    · have hget : s.finished[k]? = none := by simpa using hfin
      refine hh.quiet rfl ?_ rfl fun k' => ?_
      · rw [hget]
        rfl
      · rw [Scheduler.knows_erase, Scheduler.Knows]
        exact or_congr_right ⟨And.left, fun h' => ⟨h', fun heq => hfin (heq ▸ h')⟩⟩

/-- **The history along a run.** -/
theorem Run.history (h₀ : s₀.Fresh) (hr : Run s₀ es s) : History es s := by
  induction hr with
  | nil =>
    obtain ⟨_, _, _, _, _, _, -, hnew⟩ := h₀
    simp only [Scheduler.new, bind_eq_ok, pure_eq_ok] at hnew
    obtain ⟨_, -, _, -, _, -, _, -, rfl⟩ := hnew
    constructor
    all_goals simp [Scheduler.Knows, Scheduler.following]
  | snoc hrun hexec ih =>
    have hinv := hrun.inv h₀.inv
    exact ih.snoc hinv (hinv.exec hexec).1

end History

/-! ### Results stay -/

section Results

variable {s s' s₀ : Scheduler σ} {seq : Sequence} {st : SeqState} {id tok : Option ℕ}
  {out : SchedOutcome (Option StepResult)} {es : List (Event σ)} {c : SchedCall}
  {reply : Except SchedError Reply} {k : SeqId} {r : Request × List ℕ × FinishReason}

theorem StepCase.finished_get (h : SchedInv s) (ha : s.active = some seq)
    (hcase : StepCase s seq st id tok (out, s')) (hout : out ≠ .error .panic)
    (hk : s.finished[k]? = some r) : s'.finished[k]? = some r := by
  cases hcase with
  | waited => exact hk
  | failed => exact hk
  | committed => exact hk
  | finished =>
    have hne : seq.seqId ≠ k := by
      rintro rfl
      have hmem : seq.seqId ∈ s.finished := by
        rw [Std.ExtTreeMap.mem_iff_isSome_getElem?, hk]
        rfl
      refine (h.finished _ hmem).2 ?_
      simp [Scheduler.following, ha]
    simp only [Std.ExtTreeMap.getElem?_insert, compare_eq_iff_eq]
    rw [if_neg hne]
    exact hk
  | panicked => exact absurd rfl hout

theorem CallEffect.finished_get (h : SchedInv s) (he : CallEffect s c reply s')
    (hk : s.finished[k]? = some r) (hno : (⟨s, c, reply, s'⟩ : Event σ).takenId ≠ some k) :
    s'.finished[k]? = some r := by
  have hmem : k ∈ s.finished := by
    rw [Std.ExtTreeMap.mem_iff_isSome_getElem?, hk]
    rfl
  cases he with
  | refused => exact hk
  | enqueued => exact hk
  | @stepped exec out _ hstep =>
    rcases h.step_cases exec with ⟨-, heq | ⟨e, heq⟩⟩ | ⟨seq, st, ha, -, -, -, hcase⟩
    · obtain ⟨-, rfl⟩ := Prod.mk.inj (hstep.symm.trans heq)
      exact hk
    · obtain ⟨-, rfl⟩ := Prod.mk.inj (hstep.symm.trans heq)
      exact hk
    · rw [hstep] at hcase
      refine hcase.finished_get h.promote ha (by simp) ?_
      rcases h.promote_eq with heq | ⟨q, rest, -, -, heq⟩
      · rwa [heq]
      · rwa [heq]
  | missed => exact hk
  | @cancelled _ k' _ _ _ hcan =>
    obtain ⟨seq, -, -, hfin⟩ := hcan.finished
    have hne : k' ≠ k := by
      rintro rfl
      exact (h.finished _ hmem).2 (hcan.perm.mem_iff.mpr mem_cons_self)
    simp only [hfin, Std.ExtTreeMap.getElem?_insert, compare_eq_iff_eq]
    rw [if_neg hne]
    exact hk
  | taken k' =>
    have hne : k' ≠ k := by
      rintro rfl
      simp [Event.takenId, hk] at hno
    simp only [Std.ExtTreeMap.getElem?_erase, compare_eq_iff_eq]
    rw [if_neg hne]
    exact hk

theorem Run.finished_get (h₀ : SchedInv s₀) (hr : Run s₀ es s)
    (hk : s₀.finished[k]? = some r) (hno : k ∉ es.filterMap Event.takenId) :
    s.finished[k]? = some r := by
  induction hr with
  | nil => exact hk
  | snoc hrun hexec ih =>
    rw [filterMap_append, mem_append, not_or] at hno
    have hinv := hrun.inv h₀
    refine (hinv.exec hexec).1.finished_get hinv (ih hno.1) fun heq => hno.2 ?_
    simp [heq]

end Results

/-! ### Conservation -/

/-- What holds after the calls `es` have led to `s`. -/
structure Conserved (es : List (Event σ)) (s : Scheduler σ) : Prop where
  /-- An id that was given out and whose result was not taken is in one place. -/
  once : ∀ k ∈ es.filterMap Event.enqueuedId, k ∉ es.filterMap Event.takenId →
    s.occurrences k = 1
  /-- No other id is anywhere. -/
  only : ∀ k, s.occurrences k ≠ 0 →
    k ∈ es.filterMap Event.enqueuedId ∧ k ∉ es.filterMap Event.takenId
  fresh : (es.filterMap Event.enqueuedId).Nodup
  live : ∀ k, (∃ st, s.stateManager.seqs[k]? = some st) ↔ k ∈ s.following
  bounded : s.outstandingCount ≤ s.config.maxOutstanding

/-- **No request is lost, doubled or changed**, whatever the executors do: along every
run the ids are in one place each until their results are taken, and a result is the
same until then. -/
theorem request_conservation {s₀ s : Scheduler σ} {es : List (Event σ)} (h₀ : s₀.Fresh)
    (hr : Run s₀ es s) :
    Conserved es s ∧ ∀ es' s', Run s es' s' → ∀ k r, s.finished[k]? = some r →
      k ∉ es'.filterMap Event.takenId → s'.finished[k]? = some r := by
  have hinv := hr.inv h₀.inv
  have hh := hr.history h₀
  refine ⟨⟨?_, ?_, hh.nodup, hinv.live, hinv.outstanding⟩, ?_⟩
  · intro k hk hno
    exact (hinv.occurrences k).1 ((hh.knows k).mpr ⟨hk, hno⟩)
  · intro k hk
    refine (hh.knows k).mp ?_
    by_contra hno
    exact hk ((hinv.occurrences k).2 hno)
  · intro es' s' hr' k r hk hno
    exact hr'.finished_get hinv hk hno

/-- A request that is being decoded is in one place, after another was cancelled and
its result taken. -/
theorem request_conservation_small :
    smallRun.1.filterMap Event.enqueuedId = [0, 1] ∧ smallRun.1.filterMap Event.takenId = [1] ∧
      smallRun.2.occurrences 0 = 1 := by
  have h₁ : smallRun.1.filterMap Event.enqueuedId = [0, 1] := by decide +kernel
  have h₂ : smallRun.1.filterMap Event.takenId = [1] := by decide +kernel
  refine ⟨h₁, h₂, ?_⟩
  refine (request_conservation smallScheduler_fresh smallRun_run).1.once 0 ?_ ?_
  · rw [h₁]
    decide
  · rw [h₂]
    decide

/-! ### One holder of blocks -/

/-- Whether a sequence has a block of some group. -/
def HoldsBlocks (m : StateManager) (k : SeqId) : Prop :=
  ∃ st gi, m.seqs[k]? = some st ∧ st.table gi ≠ []

/-- The call took the sequence from the queue: it was the first that arrived, and there
was no sequence in the slots. -/
structure Promoted (s : Scheduler σ) (q : Sequence) : Prop where
  active : s.active = none
  paused : s.paused = none
  first : ∀ q' ∈ s.queued, q.arrivalOrder ≤ q'.arrivalOrder

section Holder

variable {s s' s₀ : Scheduler σ} {seq : Sequence} {es : List (Event σ)} {c : SchedCall}
  {reply : Except SchedError Reply} {st : SeqState} {id tok : Option ℕ}
  {out : SchedOutcome (Option StepResult)}

theorem SchedInv.holder_active (h : SchedInv s) {k : SeqId} (hk : HoldsBlocks s.stateManager k) :
    ∃ seq, s.active = some seq ∧ seq.seqId = k := by
  obtain ⟨st, gi, hst, htable⟩ := hk
  have hmem := (h.live k).mp ⟨st, hst⟩
  simp only [Scheduler.following, h.paused, Option.toList_none, map_nil, append_nil,
    mem_append, mem_map, Option.mem_toList] at hmem
  rcases hmem with ⟨q, hq, rfl⟩ | ⟨seq, hseq, rfl⟩
  · exact absurd ((h.queued q hq).holdsNone st hst gi) htable
  · exact ⟨seq, hseq, rfl⟩

theorem StepCase.queued_eq (hcase : StepCase s seq st id tok (out, s'))
    (hout : out ≠ .error .panic) : s'.queued = s.queued := by
  cases hcase with
  | waited => rfl
  | failed => rfl
  | committed => rfl
  | finished => rfl
  | panicked => exact absurd rfl hout

theorem SchedInv.step_promoted {exec : StepExecutor} (h : SchedInv s)
    (hstep : s.step exec = (out, s')) (hout : out ≠ .error .panic) {q : Sequence}
    (hq : q ∈ s.queued) (hno : q ∉ s'.queued) : Promoted s q := by
  rcases h.step_cases exec with ⟨-, heq | ⟨e, heq⟩⟩ | ⟨seq, st, ha, -, -, -, hcase⟩
  · rw [hstep] at heq
    cases heq
    exact absurd hq hno
  · rw [hstep] at heq
    cases heq
    exact absurd hq hno
  · rw [hstep] at hcase
    rw [hcase.queued_eq hout] at hno
    rcases h.promote_eq with heq | ⟨q₀, rest, hactive, hqueue, heq⟩
    · rw [heq] at hno
      exact absurd hq hno
    · rw [heq] at hno
      rw [hqueue] at hq
      obtain rfl | hq := mem_cons.mp hq
      · refine ⟨hactive, h.paused, fun q' hq' => ?_⟩
        have harr := h.arrival
        rw [hqueue, map_cons, pairwise_cons] at harr
        rw [hqueue] at hq'
        obtain rfl | hq' := mem_cons.mp hq'
        · exact le_rfl
        · exact (harr.1 _ (mem_map_of_mem hq')).le
      · exact absurd hq hno

/-- **What leaves the queue** was cancelled, or it is promoted by a step. -/
theorem CallEffect.left_queue (h : SchedInv s) (he : CallEffect s c reply s') {q : Sequence}
    (hq : q ∈ s.queued) (hno : q ∉ s'.queued) :
    ((∀ exec, c ≠ .step exec) ∧
      ∃ req generated, s'.finished[q.seqId]? = some (req, generated, .cancelled)) ∨
      Promoted s q := by
  cases he with
  | refused => exact absurd hq hno
  | enqueued => exact absurd (mem_append_left _ hq) hno
  | stepped hstep => exact Or.inr (h.step_promoted hstep (by simp) hq hno)
  | missed => exact absurd hq hno
  | @cancelled _ k _ _ hs hcan =>
    refine Or.inl ⟨hs, ?_⟩
    obtain ⟨seq, -, -, hfin⟩ := hcan.finished
    have hk : q.seqId = k := by
      by_contra hne
      -- another sequence than `k` is still followed, and it is not in the active slot
      have hmem : q.seqId ∈ s.following := by
        simp only [Scheduler.following, mem_append]
        exact Or.inl (Or.inl (mem_map_of_mem hq))
      have hmem' := mem_of_ne_of_mem hne (hcan.perm.mem_iff.mp hmem)
      simp only [Scheduler.following, hcan.inv.paused, Option.toList_none, map_nil,
        append_nil, mem_append, mem_map, Option.mem_toList] at hmem'
      have hnodup := h.nodup
      simp only [Scheduler.following, h.paused, Option.toList_none, map_nil,
        append_nil] at hnodup
      rcases hmem' with ⟨q', hq', heq⟩ | ⟨seq, hseq, heq⟩
      · have hin := inj_on_of_nodup_map (nodup_append.mp hnodup).1
          (hcan.queued.subset hq') hq heq
        exact hno (hin ▸ hq')
      · have hact : s.active = some seq := by
          rcases hcan.active with h' | ⟨h', -⟩
          · rwa [← h']
          · rw [h'] at hseq
            cases hseq
        exact h.ne_of_queued hact hq heq.symm
    refine ⟨seq.req, seq.generated, ?_⟩
    rw [hfin, hk, Std.ExtTreeMap.getElem?_insert_self]
  | taken => exact absurd hq hno

end Holder

/-- What holds of the blocks and of the slots in a state. -/
structure SoleAdmission (s : Scheduler σ) : Prop where
  /-- At most one sequence has blocks. -/
  holder : ∀ k k', HoldsBlocks s.stateManager k → HoldsBlocks s.stateManager k' → k = k'
  /-- No reservation for the sequence that the next step takes runs out of blocks. -/
  reserve : ∀ seq, s.promote.active = some seq → ∀ n e m,
    s.promote.stateManager.reserve seq.seqId n = (.error (.err e), m) →
      e.isPoolExhausted = false
  paused : s.paused = none
  report : s.pendingPauseReport = none

/-- **One sequence at a time never runs out of blocks.** Along every run at most one
sequence has blocks, a sequence leaves the queue when it is cancelled, or as the first
that arrived and into empty slots, and no reservation is refused for want of blocks,
so that nothing is ever paused. -/
theorem sole_admission {s₀ s : Scheduler σ} {es : List (Event σ)} (h₀ : s₀.Fresh)
    (hr : Run s₀ es s) :
    SoleAdmission s ∧
    ∀ e ∈ es, ∀ q ∈ e.before.queued, q ∉ e.after.queued →
      ((∀ exec, e.call ≠ .step exec) ∧
        ∃ req generated, e.after.finished[q.seqId]? = some (req, generated, .cancelled)) ∨
        Promoted e.before q := by
  have hinv := hr.inv h₀.inv
  refine ⟨⟨?_, ?_, hinv.paused, hinv.report⟩, ?_⟩
  · intro k k' hk hk'
    obtain ⟨seq, ha, rfl⟩ := hinv.holder_active hk
    obtain ⟨seq', ha', rfl⟩ := hinv.holder_active hk'
    rw [ha] at ha'
    cases ha'
    rfl
  · intro seq ha n e m hres
    have hinv' := hinv.promote
    obtain ⟨H, hm⟩ := hinv'.exists_inv
    obtain ⟨st, hst, -, htail⟩ := (hinv'.active seq ha).follows
    rcases reserve_sole hm hinv'.full (hinv'.soleHolder ha) hst htail n with
      ⟨-, -, m₁, heq, -⟩ | ⟨-, e', heq, he'⟩
    · rw [hres] at heq
      cases heq
    · rw [hres] at heq
      cases heq
      exact he'
  · intro e he q hq hno
    obtain ⟨hbefore, heff⟩ := hr.effect h₀.inv e he
    exact heff.left_queue hbefore hq hno

/-- The second request waits in the queue without blocks until it is cancelled. -/
theorem sole_admission_small :
    (smallRun.2.active.map (·.seqId)) = some 0 ∧ SoleAdmission smallRun.2 :=
  ⟨by decide +kernel, (sole_admission smallScheduler_fresh smallRun_run).1⟩

end R9v

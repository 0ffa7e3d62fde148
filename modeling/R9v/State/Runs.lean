import R9v.State.Reserve
import R9v.State.Commit
import R9v.State.Lifetime
import R9v.State.Tokens

/-!
# Runs of the manager

What one call can do is said once (`CallStep`, `Call.exec_cases`): it fails, returns
an error and changes nothing but its scratch, or it is one of six steps. A step
keeps the invariant (`CallStep.inv`), hence so does a run (`Inv.run`), with the highest
reserved positions followed along the run (`StateManager.highest`).

The three laws of the manager are read off from there: who owns the blocks and the
slots, which blocks a sequence has, and that a call that fails is as if it had not
been made.
-/

namespace R9v

open Checked StateManager

/-! ### What a call can do -/

/-- **The steps of the manager**: the calls that succeed, and what they do. -/
inductive CallStep (m : StateManager) : Call → StateManager → Prop
  | newSeq {tokens : List ℕ} {slots : List (Option ℕ)} {fixed' : List (Option FixedPool)}
      (start : Started m slots fixed') (live : m.liveCount < m.config.maxSeqs)
      (id : m.nextSeq ≤ u32Max) :
      CallStep m (.newSeq tokens)
        { m with
          fixed := fixed'
          seqs := m.seqs.insert m.nextSeq (SeqState.fresh m.groups slots)
          nextSeq := m.nextSeq + 1
          liveCount := m.liveCount + 1 }
  | reserve {k : SeqId} {n : ℕ} {s s' : SeqState} {pools' : List (Option BlockPool)}
      {sc : List (ℕ × ℕ)} (able : Reservable m k n s) (done : Reserved m s n pools' s') :
      CallStep m (.reserve k n)
        { m with pools := pools', seqs := m.seqs.insert k s', reserveScratch := sc }
  | writeTokens {k : SeqId} {start : ℕ} {tokens : List ℕ} {s : SeqState} {mirror : Mirror}
      (able : Writable m k start tokens s)
      (stored : StoredIn m.groups start (fun _ => tokens.map some) s.mirror mirror) :
      CallStep m (.writeTokens k start tokens)
        { m with seqs := m.seqs.insert k { s with mirror } }
  | compact {k : SeqId} {accepted : List ℕ} {s : SeqState} {mirror : Mirror}
      (able : Compactable m k accepted s)
      (stored : StoredIn m.groups s.ctxLen (fun row => accepted.map fun p => row (s.ctxLen + p))
        s.mirror mirror) :
      CallStep m (.compact k accepted)
        { m with seqs := m.seqs.insert k { s with mirror, compacted := some accepted.length } }
  | commit {k : SeqId} {accepted : ℕ} {s s' : SeqState} {pools' : List (Option BlockPool)}
      {swaps' : ℕ} (able : Committable m k accepted s) (done : Committed m s accepted pools' s') :
      CallStep m (.commit k accepted)
        { m with
          pools := pools'
          seqs := m.seqs.insert k s'
          swaps := swaps'
          commits := m.commits + 1 }
  | freeSeq {k : SeqId} {s : SeqState} {pools' : List (Option BlockPool)}
      {fixed' : List (Option FixedPool)} (live : m.seqs[k]? = some s)
      (ended : Ended m s pools' fixed') :
      CallStep m (.freeSeq k)
        { m with
          seqs := m.seqs.erase k
          pools := pools'
          fixed := fixed'
          liveCount := m.liveCount - 1 }

section Exec

variable {H : SeqId → ℕ} {m m' : StateManager} {c : Call}

/-- **A call fails and changes only its scratch, or it is a step.** -/
theorem Call.exec_cases (h : Inv H m) (c : Call) :
    (∃ e sc, c.exec m = (.error (.err e), { m with reserveScratch := sc })) ∨
      ∃ m', c.exec m = (.ok (), m') ∧ CallStep m c m' := by
  cases c with
  | newSeq tokens =>
    rcases newSeq_cases m tokens with ⟨e, he⟩ | ⟨slots, fixed', hst, -, hlive, hid, he⟩
    · exact Or.inl ⟨e, m.reserveScratch, by simp only [exec, he]; rfl⟩
    · exact Or.inr ⟨_, by simp only [exec, he]; rfl, .newSeq hst hlive hid⟩
  | reserve k n =>
    rcases reserve_cases h k n with ⟨-, e, sc, he⟩ | ⟨s, pools', s', sc, hr, hs', he⟩
    · exact Or.inl ⟨e, sc, by simp only [exec, he]; rfl⟩
    · exact Or.inr ⟨_, by simp only [exec, he]; rfl, .reserve hr hs'⟩
  | writeTokens k start tokens =>
    rcases writeTokens_cases h k start tokens with ⟨-, e, he⟩ | ⟨s, mirror, hw, hst, he⟩
    · exact Or.inl ⟨e, m.reserveScratch, he⟩
    · exact Or.inr ⟨_, he, .writeTokens hw hst⟩
  | compact k accepted =>
    rcases compact_cases h k accepted with ⟨-, e, he⟩ | ⟨s, op, mirror, hc, hst, he⟩
    · exact Or.inl ⟨e, m.reserveScratch, by simp only [exec, he]; rfl⟩
    · exact Or.inr ⟨_, by simp only [exec, he]; rfl, .compact hc hst⟩
  | commit k accepted =>
    rcases commit_cases h k accepted with ⟨-, e, he⟩ | ⟨s, pools', s', swaps', hc, hs', he⟩
    · exact Or.inl ⟨e, m.reserveScratch, he⟩
    · exact Or.inr ⟨_, he, .commit hc hs'⟩
  | freeSeq k =>
    rcases freeSeq_cases h k with ⟨-, he⟩ | ⟨s, pools', fixed', hs, hend, he⟩
    · exact Or.inl ⟨_, m.reserveScratch, he⟩
    · exact Or.inr ⟨_, he, .freeSeq hs hend⟩

theorem Inv.scratch (h : Inv H m) (sc : List (ℕ × ℕ)) : Inv H { m with reserveScratch := sc } :=
  ⟨{ h.shape with }, h.seqs, h.blocks, h.slots, h.live, h.live_le, h.ids_lt, h.ids_le, h.unborn⟩

end Exec

/-! ### The highest reserved positions -/

/-- The highest reserved positions after a call: a reservation that succeeds raises
that of its sequence to the end of the range. -/
def Call.raise (c : Call) (m : StateManager) (high : SeqId → ℕ) : SeqId → ℕ :=
  match c with
  | .reserve k n =>
    match (m.reserve k n).1, m.ctxLen k with
    | .ok _, .ok ctx => Function.update high k (max (high k) (ctx + n))
    | _, _ => high
  | _ => high

/-- The highest reserved positions along a run. -/
def StateManager.raiseAll (m : StateManager) : List Call → (SeqId → ℕ) → SeqId → ℕ
  | [], high => high
  | c :: calls, high => (c.exec m).2.raiseAll calls (c.raise m high)

/-- **The highest reserved position of a sequence**: the largest `ctxLen + n` of a
reservation of it that succeeded in the run, and zero when there was none. -/
def StateManager.highest (m : StateManager) (calls : List Call) (k : SeqId) : ℕ :=
  m.raiseAll calls (fun _ => 0) k

section Run

variable {H : SeqId → ℕ} {m m' : StateManager} {c : Call}

theorem Call.raise_of_error {e : StateError} {sc : List (ℕ × ℕ)}
    (he : c.exec m = (.error (.err e), { m with reserveScratch := sc })) : c.raise m H = H := by
  cases c with
  | reserve k n =>
    have : (m.reserve k n).1 = .error (.err e) := by
      simp only [Call.exec, Prod.mk.injEq] at he
      cases hr : (m.reserve k n).1 with
      | ok r => simp [hr, Except.map] at he
      | error f => simpa [hr, Except.map] using he.1
    simp only [Call.raise, this]
  | _ => rfl

/-- **A step keeps the invariant.** -/
theorem CallStep.inv (h : Inv H m) (hexec : c.exec m = (.ok (), m')) (hstep : CallStep m c m') :
    Inv (c.raise m H) m' := by
  cases hstep with
  | newSeq start live id => exact start.inv h live id
  | @reserve k n s s' pools' sc able done =>
    have hok : ∃ r, (m.reserve k n).1 = .ok r := by
      simp only [Call.exec, Prod.mk.injEq] at hexec
      cases hr : (m.reserve k n).1 with
      | ok r => exact ⟨r, rfl⟩
      | error f => simp [hr, Except.map] at hexec
    obtain ⟨r, hr⟩ := hok
    have hctx : m.ctxLen k = .ok s.ctxLen := by
      simp [StateManager.ctxLen, StateManager.seq, able.1, Functor.map, Except.map]
    simp only [Call.raise, hr, hctx]
    exact done.inv h able sc
  | writeTokens able stored => exact h.touch able.1 _ _
  | compact able stored => exact h.touch able.live _ _
  | commit able done => exact done.inv h able _ _
  | freeSeq live ended => exact ended.inv h live

theorem Inv.exec (h : Inv H m) (c : Call) : Inv (c.raise m H) (c.exec m).2 := by
  rcases c.exec_cases h with ⟨e, sc, he⟩ | ⟨m', he, hstep⟩
  · rw [c.raise_of_error he, he]
    exact h.scratch sc
  · rw [he]
    exact hstep.inv h he

/-- **A run keeps the invariant.** -/
theorem Inv.run (h : Inv H m) (calls : List Call) : Inv (m.raiseAll calls H) (m.run calls) := by
  induction calls generalizing m H with
  | nil => exact h
  | cons c calls ih => exact ih (h.exec c)

/-! ### What never changes, and what only grows -/

theorem Inv.exec_frame (h : Inv H m) (c : Call) :
    (c.exec m).2.groups = m.groups ∧ (c.exec m).2.config = m.config ∧
      m.nextSeq ≤ (c.exec m).2.nextSeq := by
  rcases c.exec_cases h with ⟨e, sc, he⟩ | ⟨m', he, hstep⟩
  · rw [he]
    exact ⟨rfl, rfl, le_rfl⟩
  · rw [he]
    cases hstep with
    | newSeq => exact ⟨rfl, rfl, Nat.le_succ _⟩
    | _ => exact ⟨rfl, rfl, le_rfl⟩

theorem Inv.run_groups (h : Inv H m) (calls : List Call) : (m.run calls).groups = m.groups := by
  induction calls generalizing m H with
  | nil => rfl
  | cons c calls ih => exact (ih (h.exec c)).trans (h.exec_frame c).1

/-- A call does not take verified tokens of a live sequence back. -/
theorem Inv.ctxLen_exec (h : Inv H m) {k : SeqId} {ctx : ℕ} (hk : k < m.nextSeq)
    (hctx : ∀ s, m.seqs[k]? = some s → ctx ≤ s.ctxLen) (c : Call) :
    ∀ s, (c.exec m).2.seqs[k]? = some s → ctx ≤ s.ctxLen := by
  -- a sequence that a step replaces has not become shorter
  have hins : ∀ (k' : SeqId) (s s' t : SeqState), m.seqs[k']? = some s →
      (m.seqs.insert k' s')[k]? = some t → s.ctxLen ≤ s'.ctxLen → ctx ≤ t.ctxLen := by
    intro k' s s' t hs ht hle
    rcases eq_or_ne k k' with rfl | hne
    · obtain rfl : s' = t := by simpa using ht
      exact (hctx s hs).trans hle
    · simp only [Std.ExtTreeMap.getElem?_insert, compare_eq_iff_eq, hne.symm, if_false] at ht
      exact hctx t ht
  rcases c.exec_cases h with ⟨e, sc, he⟩ | ⟨m', he, hstep⟩
  · rw [he]
    exact hctx
  · rw [he]
    intro t ht
    cases hstep with
    | newSeq =>
      rw [Std.ExtTreeMap.getElem?_insert, if_neg (by simp [Nat.ne_of_gt hk])] at ht
      exact hctx t ht
    | reserve able done => exact hins _ _ _ t able.1 ht (by rw [done.frame])
    | writeTokens able => exact hins _ _ _ t able.1 ht le_rfl
    | compact able => exact hins _ _ _ t able.live ht le_rfl
    | commit able done => exact hins _ _ _ t able.live ht (by rw [done.frame]; simp)
    | freeSeq =>
      rw [Std.ExtTreeMap.getElem?_erase] at ht
      split at ht
      · simp at ht
      · exact hctx t ht

theorem Inv.ctxLen_run (h : Inv H m) {k : SeqId} {ctx : ℕ} (hk : k < m.nextSeq)
    (hctx : ∀ s, m.seqs[k]? = some s → ctx ≤ s.ctxLen) (calls : List Call) :
    ∀ s, (m.run calls).seqs[k]? = some s → ctx ≤ s.ctxLen := by
  induction calls generalizing m H with
  | nil => exact hctx
  | cons c calls ih =>
    exact ih (h.exec c) (hk.trans_le (h.exec_frame c).2.2) (h.ctxLen_exec hk hctx c)

theorem StateManager.run_append (m : StateManager) (calls later : List Call) :
    m.run (calls ++ later) = (m.run calls).run later := List.foldl_append

theorem StateManager.Built.inv_run (h : m.Built) (calls : List Call) :
    Inv (m.highest calls) (m.run calls) := h.inv.run calls

theorem StateManager.Reachable.exists_inv (h : m.Reachable) : ∃ H, Inv H m := by
  obtain ⟨m₀, calls, hb, rfl⟩ := h
  exact ⟨_, hb.inv_run calls⟩

end Run

/-! ### The laws -/

/-- A manager of one windowed and one recurrent layer, with two sequences. -/
def small : StateManager :=
  initial ⟨96, 2⟩ [⟨0, .kvPaged 1 1 1 .f16 (.window 32), [0]⟩, ⟨1, .recurrent 1 1 1, [1]⟩] 1000

theorem small_built : small.Built :=
  ⟨⟨96, 2⟩, 1000, by decide, Or.inl ⟨[.kvPaged 1 1 1 .f16 (.window 32), .recurrent 1 1 1], rfl⟩⟩

/-- **Ownership of blocks and slots.** In every reachable state, the free blocks of
a paged group, in descending order, and the blocks in the tables of the live
sequences are an exact partition of the blocks of the group; the free slots of any
other group and the slots of the live sequences are an exact partition of its
slots, one per sequence that may be live; and the live count is right. -/
theorem ownership {m : StateManager} (h : m.Reachable) :
    (∀ (gi : ℕ) (g : LayerGroup), m.groups[gi]? = some g → g.spec.isPaged = true →
      ∃ p, m.pools[gi]? = some (some p) ∧ p.free.Pairwise (· > ·) ∧
        Ownership.Owned (· < p.total) p.free (heldBlocks m.seqs gi)) ∧
    (∀ (gi : ℕ) (g : LayerGroup), m.groups[gi]? = some g → g.spec.isRecurrent = true →
      ∃ f, m.fixed[gi]? = some (some f) ∧
        Ownership.Owned (· < m.config.maxSeqs) f.free (heldSlots m.seqs gi)) ∧
    m.liveCount = m.seqs.size ∧ m.liveCount ≤ m.config.maxSeqs := by
  obtain ⟨H, hinv⟩ := h.exists_inv
  refine ⟨fun gi g hg hp => ?_, fun gi g hg hp => ?_, hinv.live, hinv.live_le⟩
  · obtain ⟨-, p, hpool, -⟩ := hinv.shape.paged gi g hg hp
    obtain ⟨hdesc, hown⟩ := hinv.blocks gi p hpool
    exact ⟨p, hpool, hdesc, hown⟩
  · obtain ⟨-, f, hf, htotal⟩ := hinv.shape.unpaged gi g hg (by simpa using hp)
    refine ⟨f, hf, ?_⟩
    rw [← htotal]
    exact (hinv.slots gi f hf).owned

/-- Ownership after two sequences have started, one has grown and lost a block, and
the other has ended. -/
theorem ownership_small :
    let m := small.run [.newSeq [], .newSeq [], .reserve 0 80, .reserve 1 5, .commit 0 70, .freeSeq 1]
    m.liveCount = 1 ∧
      ∃ p, m.pools[0]? = some (some p) ∧ p.free.Pairwise (· > ·) ∧
        Ownership.Owned (· < p.total) p.free (heldBlocks m.seqs 0) :=
  ⟨rfl, (ownership ⟨small, _, small_built, rfl⟩).1 0 _ rfl rfl⟩

/-! ### Retention -/

/-- The first position that the policy retains, the sinks apart. -/
def Retain.start (r : Retain) (ctx : ℕ) : ℕ :=
  match r with
  | .all => 0
  | .window w | .sinkWindow _ w => ctx - w

/-- The number of positions at the front that the policy keeps for good. -/
def Retain.sinks (r : Retain) : ℕ :=
  match r with
  | .all | .window _ => 0
  | .sinkWindow n _ => n

theorem not_evicted_of_start_le {r : Retain} {ctx pos : ℕ} (h : r.start ctx ≤ pos) :
    ¬r.Evicted ctx (pos / 32) := by
  cases r with
  | all => exact not_false
  | window w =>
    simp only [Retain.start, Retain.Evicted] at h ⊢
    omega
  | sinkWindow n w =>
    simp only [Retain.start, Retain.Evicted] at h ⊢
    omega

theorem not_evicted_of_lt_sinks {r : Retain} {ctx pos : ℕ} (h : pos < r.sinks) :
    ¬r.Evicted ctx (pos / 32) := by
  cases r with
  | all => exact not_false
  | window w => simp [Retain.sinks] at h
  | sinkWindow n w =>
    simp only [Retain.sinks, Retain.Evicted] at h ⊢
    omega

theorem windowStart_eq {m : StateManager} {k : SeqId} {s : SeqState} {gi : ℕ} {g : LayerGroup}
    {r : Retain} (hs : m.seqs[k]? = some s) (hg : m.groups[gi]? = some g)
    (hr : g.spec.retain = some r) : m.windowStart k gi = .ok (r.start s.ctxLen) := by
  simp only [windowStart, StateManager.seq, hs, hg, okOr_some, ok_bind, hr]
  cases r <;> simp [Retain.start, windowStartOf_eq, pure, Except.pure]

/-- **The retention law.** In every state of every run, for every live sequence and
every paged group: the block indices are ascending and aligned with the blocks, are
below the bound of the tables, and are exactly the ones below the highest position
that the sequence ever reserved, less the ones that the policy has given up. So
every position of the window and of the reservation, and every reserved sink, has a
block; and a block index that is given up is not held again, whatever follows. -/
theorem retention_law {m₀ : StateManager} (hb : m₀.Built) (calls : List Call) {k : SeqId}
    {s : SeqState} (hs : (m₀.run calls).seqs[k]? = some s) {gi : ℕ} {g : LayerGroup}
    (hg : (m₀.run calls).groups[gi]? = some g) (hp : g.spec.isPaged = true) :
    ∃ r, g.spec.retain = some r ∧
      (s.held gi).Pairwise (· < ·) ∧ (s.held gi).length = (s.table gi).length ∧
      (∀ i ∈ s.held gi, i < (m₀.run calls).maxBlocks) ∧
      (∀ i, i ∈ s.held gi ↔ 32 * i < m₀.highest calls k ∧ ¬r.Evicted s.ctxLen i) ∧
      (∀ w pos, (m₀.run calls).windowStart k gi = .ok w → w ≤ pos →
        pos < s.ctxLen + s.tailLen → pos / 32 ∈ s.held gi) ∧
      (∀ pos, pos < r.sinks → pos < m₀.highest calls k → pos / 32 ∈ s.held gi) ∧
      ∀ later s', (m₀.run (calls ++ later)).seqs[k]? = some s' →
        ∀ i, r.Evicted s.ctxLen i → i ∉ s'.held gi := by
  obtain ⟨r, hr⟩ := StateSpec.exists_retain hp
  have h := hb.inv_run calls
  have hseq := h.seqs k s hs
  have hlaw := hseq.retained gi g r hg hr
  have htail := hseq.tail_le
  refine ⟨r, hr, hseq.ascending gi, hseq.aligned gi, fun i hi => ?_, hlaw, fun w pos hw hle hlt => ?_,
    fun pos hsink hlt => ?_, fun later s' hs' i hev hmem => ?_⟩
  · have hlt := ((hlaw i).mp hi).1
    have hmax := hseq.high_le
    have hmul := h.shape.config.maxBlocks_mul
    rw [h.shape.maxBlocks_eq]
    omega
  · rw [windowStart_eq hs hg hr] at hw
    obtain rfl := Except.ok.inj hw
    exact (hlaw _).mpr ⟨by omega, not_evicted_of_start_le hle⟩
  · exact (hlaw _).mpr ⟨by omega, not_evicted_of_lt_sinks hsink⟩
  · rw [StateManager.run_append] at hs'
    have h' := h.run later
    have hctx : s.ctxLen ≤ s'.ctxLen := h.ctxLen_run (h.ids_lt k s hs)
      (fun t ht => by rw [hs] at ht; rw [Option.some.inj ht]) later s' hs'
    have hlaw' := (h'.seqs k s' hs').retained gi g r (by rw [h.run_groups]; exact hg) hr i
    exact (hlaw'.mp hmem).2 (hev.mono hctx)

/-- The retention law where a window of 32 tokens has left the first block behind
and a reservation is open over the third. -/
theorem retention_law_small :
    small.highest [.newSeq [], .reserve 0 66, .commit 0 65, .reserve 0 3] 0 = 68 ∧
      ∃ s, (small.run [.newSeq [], .reserve 0 66, .commit 0 65, .reserve 0 3]).seqs[0]? = some s ∧
        s.held 0 = [1, 2] ∧
        ∀ i, i ∈ s.held 0 ↔ 32 * i < 68 ∧ ¬(Retain.window 32).Evicted s.ctxLen i := by
  have hhigh : small.highest [.newSeq [], .reserve 0 66, .commit 0 65, .reserve 0 3] 0 = 68 := rfl
  have hheld : (small.run [.newSeq [], .reserve 0 66, .commit 0 65, .reserve 0 3]).seqs[0]?.map
      (·.held 0) = some [1, 2] := rfl
  obtain ⟨s, hs, hheld⟩ := Option.map_eq_some_iff.mp hheld
  obtain ⟨r, hr, -, -, -, hlaw, -⟩ := @retention_law _ small_built _ _ _ hs 0 _ rfl rfl
  obtain rfl : Retain.window 32 = r := Option.some.inj hr
  exact ⟨hhigh, s, hs, hheld, hlaw⟩

/-! ### Failures -/

/-- **A call that fails changes nothing** of a reachable manager but the scratch of
`reserve`, and it fails with an error: no call panics. -/
theorem failure_atomicity {m : StateManager} (h : m.Reachable) (c : Call) {f : Fault StateError}
    (hf : (c.exec m).1 = .error f) :
    (∃ e, f = .err e) ∧
      (c.exec m).2 = { m with reserveScratch := (c.exec m).2.reserveScratch } := by
  obtain ⟨H, hinv⟩ := h.exists_inv
  rcases c.exec_cases hinv with ⟨e, sc, he⟩ | ⟨m', he, -⟩
  · rw [he] at hf ⊢
    exact ⟨⟨e, (Except.error.inj hf).symm⟩, rfl⟩
  · simp [he] at hf

/-- A reservation beyond the context leaves the manager as it was. -/
theorem failure_atomicity_small :
    let m := small.run [.newSeq [], .newSeq [], .reserve 0 96]
    let c := Call.reserve 1 97
    (∃ f, (c.exec m).1 = .error f) ∧
      (c.exec m).2 = { m with reserveScratch := (c.exec m).2.reserveScratch } := by
  intro m c
  have hm : m.Reachable := ⟨small, _, small_built, rfl⟩
  have hf : (c.exec m).1.isOk = false := rfl
  rcases he : (c.exec m).1 with f | u
  · exact ⟨⟨f, rfl⟩, (failure_atomicity hm c he).2⟩
  · simp [he, Except.isOk, Except.toBool] at hf

/-! ### History -/

/-- The pools of one list are those of another, up to what is free. -/
structure SamePools (m m' : StateManager) : Prop where
  blocks : ∀ (gi : ℕ) (p : BlockPool), m.pools[gi]? = some (some p) →
    ∃ free, m'.pools[gi]? = some (some { p with free })
  slots : ∀ (gi : ℕ) (f : FixedPool), m.fixed[gi]? = some (some f) →
    ∃ free, m'.fixed[gi]? = some (some { f with free })

section History

variable {H : SeqId → ℕ} {m m' m'' : StateManager}

theorem SamePools.trans (h : SamePools m m') (h' : SamePools m' m'') : SamePools m m'' where
  blocks gi p hp := by
    obtain ⟨_, hfree⟩ := h.blocks gi p hp
    obtain ⟨free, hfree⟩ := h'.blocks gi _ hfree
    exact ⟨free, hfree⟩
  slots gi f hf := by
    obtain ⟨_, hfree⟩ := h.slots gi f hf
    obtain ⟨free, hfree⟩ := h'.slots gi _ hfree
    exact ⟨free, hfree⟩

theorem Inv.exec_same (h : Inv H m) (c : Call) : SamePools m (c.exec m).2 := by
  have hpools (pools' : List (Option BlockPool)) {s s' : SeqState} (ht : Trades m.pools pools' s s')
      (gi : ℕ) (p : BlockPool) (hp : m.pools[gi]? = some (some p)) :
      ∃ free, pools'[gi]? = some (some { p with free }) := by
    obtain ⟨p', hp', htrade⟩ := ht.paged gi p hp
    exact ⟨p'.free, hp'.trans (congrArg _ (congrArg some htrade.pool_eq))⟩
  rcases c.exec_cases h with ⟨e, sc, he⟩ | ⟨m', he, hstep⟩
  · rw [he]
    exact ⟨fun gi p hp => ⟨p.free, hp⟩, fun gi f hf => ⟨f.free, hf⟩⟩
  · rw [he]
    cases hstep with
    | newSeq start =>
      refine ⟨fun gi p hp => ⟨p.free, hp⟩, fun gi f hf => ?_⟩
      obtain ⟨g, hg, hpaged⟩ : ∃ g, m.groups[gi]? = some g ∧ g.spec.isPaged = false := by
        have hlt := (List.getElem?_eq_some_iff.mp hf).1
        rw [h.shape.fixed_length] at hlt
        refine ⟨_, List.getElem?_eq_getElem hlt, ?_⟩
        by_contra hpaged
        have hnone := (h.shape.paged gi _ (List.getElem?_eq_getElem hlt) (by simpa using hpaged)).1
        simp [hf] at hnone
      obtain ⟨id, ids, -, hids, -⟩ := start.unpaged gi g f hg hpaged hf
      exact ⟨ids, hids⟩
    | reserve able done => exact ⟨hpools _ done.trades, fun gi f hf => ⟨f.free, hf⟩⟩
    | commit able done => exact ⟨hpools _ done.trades, fun gi f hf => ⟨f.free, hf⟩⟩
    | freeSeq live ended =>
      refine ⟨fun gi p hp => ?_, fun gi f hf => ?_⟩
      · obtain ⟨p', hp', heq, -⟩ := ended.paged gi p hp
        exact ⟨p'.free, hp'.trans (congrArg _ (congrArg some heq))⟩
      · obtain ⟨f', hf', heq, -⟩ := ended.fixed gi f hf
        exact ⟨f'.free, hf'.trans (congrArg _ (congrArg some heq))⟩
    | _ => exact ⟨fun gi p hp => ⟨p.free, hp⟩, fun gi f hf => ⟨f.free, hf⟩⟩

theorem Inv.run_same (h : Inv H m) (calls : List Call) : SamePools m (m.run calls) := by
  induction calls generalizing m H with
  | nil => exact ⟨fun gi p hp => ⟨p.free, hp⟩, fun gi f hf => ⟨f.free, hf⟩⟩
  | cons c calls ih => exact (h.exec_same c).trans (ih (h.exec c))

/-- What is in use in two states. -/
def InUse (held held' : SeqId → List ℕ) : Prop := ∀ id, (∃ k, id ∈ held k) ↔ ∃ k, id ∈ held' k

/-- **History does not matter**: after two runs of a manager in which the same blocks and the same
slots are in use, by whichever sequences, the pools are the same, with the same order of what is
free. In particular they are as they were built when no sequence is live. -/
theorem history_independent {m₀ : StateManager} (hb : m₀.Built) (calls calls' : List Call)
    (hblocks : ∀ gi, InUse (heldBlocks (m₀.run calls).seqs gi) (heldBlocks (m₀.run calls').seqs gi))
    (hslots : ∀ gi, InUse (heldSlots (m₀.run calls).seqs gi) (heldSlots (m₀.run calls').seqs gi)) :
    (m₀.run calls).pools = (m₀.run calls').pools ∧
      (m₀.run calls).fixed = (m₀.run calls').fixed := by
  have h := hb.inv_run calls
  have h' := hb.inv_run calls'
  have hsame := hb.inv.run_same calls
  have hsame' := hb.inv.run_same calls'
  have hgroups := hb.inv.run_groups calls
  have hgroups' := hb.inv.run_groups calls'
  refine ⟨List.ext_getElem? fun gi => ?_, List.ext_getElem? fun gi => ?_⟩
  · rcases hg : m₀.groups[gi]? with _ | g
    · have hge := List.getElem?_eq_none_iff.mp hg
      rw [List.getElem?_eq_none (by rwa [h.shape.pools_length, hgroups]),
        List.getElem?_eq_none (by rwa [h'.shape.pools_length, hgroups'])]
    · cases hp : g.spec.isPaged with
      | false =>
        rw [(h.shape.unpaged gi g (hgroups ▸ hg) hp).1, (h'.shape.unpaged gi g (hgroups' ▸ hg) hp).1]
      | true =>
        obtain ⟨-, p, hpool, -⟩ := hb.inv.shape.paged gi g hg hp
        obtain ⟨free, hfree⟩ := hsame.blocks gi p hpool
        obtain ⟨free', hfree'⟩ := hsame'.blocks gi p hpool
        obtain ⟨hdesc, howned⟩ := h.blocks gi _ hfree
        obtain ⟨hdesc', howned'⟩ := h'.blocks gi _ hfree'
        have heq : free = free' := (howned.free_perm howned' (hblocks gi)).eq_of_pairwise
          (fun a b _ _ hab hba => absurd hab hba.asymm) hdesc hdesc'
        rw [hfree, hfree', heq]
  · rcases hg : m₀.groups[gi]? with _ | g
    · have hge := List.getElem?_eq_none_iff.mp hg
      rw [List.getElem?_eq_none (by rwa [h.shape.fixed_length, hgroups]),
        List.getElem?_eq_none (by rwa [h'.shape.fixed_length, hgroups'])]
    · cases hp : g.spec.isPaged with
      | true =>
        rw [(h.shape.paged gi g (hgroups ▸ hg) hp).1, (h'.shape.paged gi g (hgroups' ▸ hg) hp).1]
      | false =>
        obtain ⟨-, f, hpool, -⟩ := hb.inv.shape.unpaged gi g hg hp
        obtain ⟨free, hfree⟩ := hsame.slots gi f hpool
        obtain ⟨free', hfree'⟩ := hsame'.slots gi f hpool
        obtain ⟨hasc, howned⟩ := h.slots gi _ hfree
        obtain ⟨hasc', howned'⟩ := h'.slots gi _ hfree'
        have heq : free = free' := (howned.free_perm howned' (hslots gi)).eq_of_pairwise
          (fun a b _ _ hab hba => absurd hab hba.asymm) hasc hasc'
        rw [hfree, hfree', heq]

theorem history_independent_small :
    let m := small.run [.newSeq [], .newSeq [], .reserve 1 5, .reserve 0 80, .commit 0 70,
      .freeSeq 1, .freeSeq 0]
    m.pools = small.pools ∧ m.fixed = small.fixed := by
  have hnone : ∀ gi k, heldBlocks (small.run [.newSeq [], .newSeq [], .reserve 1 5, .reserve 0 80,
      .commit 0 70, .freeSeq 1, .freeSeq 0]).seqs gi k = [] := fun gi k => rfl
  have hstart : ∀ gi k, heldBlocks (small.run []).seqs gi k = [] := fun gi k => rfl
  refine history_independent small_built _ [] (fun gi id => ?_) fun gi id => Iff.rfl
  simp only [hnone, hstart]

end History

end R9v

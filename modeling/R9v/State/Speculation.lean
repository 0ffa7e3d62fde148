import R9v.State.Runs

/-!
# Speculation

A step of a sequence reserves some positions, writes a token to each of them, and
then verifies some of the tokens: a prefix, by a commit, or a path through them, by
a compaction and a commit. The tokens that are not verified stay where they are
until a later step writes over them.

`SpecRun` is a run of such steps for one sequence, with calls for other sequences
anywhere in between, and with the stream of verified tokens as history. What the
sequence can read is the stream, less what its windows have left behind: the run
could have reserved only the tokens that it verified in the end.
-/

namespace R9v

open Checked StateManager List

/-! ### The runs -/

/-- The sequence that a call is about; a new one has no id yet. -/
def Call.seq? : Call → Option SeqId
  | .newSeq _ => none
  | .reserve k _ => some k
  | .writeTokens k _ _ => some k
  | .compact k _ => some k
  | .commit k _ => some k
  | .freeSeq k => some k

/-- How far a step of the sequence has come. -/
inductive Phase
  | idle
  /-- Positions are reserved. -/
  | reserved (n : ℕ)
  /-- The tokens are in the reserved positions. -/
  | written (tokens : List ℕ)
  /-- The tokens at the offsets `path` have moved to the front. -/
  | compacted (tokens path : List ℕ)

/-- **A speculating run of sequence `k`**: the manager it has led to, the tokens it
has verified so far, and how far the step in progress has come. -/
inductive SpecRun (k : SeqId) : StateManager → List ℕ → Phase → Prop
  /-- The sequence starts, in any reachable manager. -/
  | start {m m' : StateManager} {tokens : List ℕ} {cached : ℕ} (h : m.Reachable)
      (hnew : m.newSeq tokens = (.ok (k, cached), m')) : SpecRun k m' [] .idle
  /-- A call for another sequence, whatever comes of it. -/
  | other {m : StateManager} {stream : List ℕ} {phase : Phase} (h : SpecRun k m stream phase)
      (c : Call) (hc : c.seq? ≠ some k) : SpecRun k (c.exec m).2 stream phase
  | reserve {m m' : StateManager} {stream : List ℕ} {n : ℕ} (h : SpecRun k m stream .idle)
      (hres : (Call.reserve k n).exec m = (.ok (), m')) : SpecRun k m' stream (.reserved n)
  | write {m : StateManager} {stream : List ℕ} {ctx : ℕ} {tokens : List ℕ}
      (h : SpecRun k m stream (.reserved tokens.length)) (hctx : m.ctxLen k = .ok ctx) :
      SpecRun k (m.writeTokens k ctx tokens).2 stream (.written tokens)
  | commit {m m' : StateManager} {stream tokens : List ℕ} {accepted : ℕ}
      (h : SpecRun k m stream (.written tokens))
      (hcom : m.commit k accepted = (.ok (), m')) :
      SpecRun k m' (stream ++ tokens.take accepted) .idle
  | compact {m : StateManager} {stream tokens path : List ℕ}
      (h : SpecRun k m stream (.written tokens)) (hnodup : path.Nodup)
      (hlt : ∀ p ∈ path, p < tokens.length) (hlen : path.length ≤ maxCompactTokens) :
      SpecRun k (m.compact k path).2 stream (.compacted tokens path)
  | commitPath {m m' : StateManager} {stream tokens path : List ℕ}
      (h : SpecRun k m stream (.compacted tokens path))
      (hcom : m.commit k path.length = (.ok (), m')) :
      SpecRun k m' (stream ++ path.map (tokens.getD · 0)) .idle

/-! ### The contents -/

/-- The cells that the step in progress has filled in. -/
def Phase.cells : Phase → List ℕ
  | .idle | .reserved _ => []
  | .written tokens => tokens
  | .compacted tokens path => path.map (tokens.getD · 0)

/-- What holds of the reservation of the sequence, by phase. -/
def Phase.Open (s : SeqState) : Phase → Prop
  | .idle => s.tailLen = 0
  | .reserved n => s.tailLen = n ∧ 0 < n ∧ s.compacted = none
  | .written tokens => s.tailLen = tokens.length ∧ 0 < tokens.length ∧ s.compacted = none
  | .compacted tokens path => s.tailLen = tokens.length ∧ s.compacted = some path.length ∧
      path.Nodup ∧ ∀ p ∈ path, p < tokens.length

/-- What holds of the sequence along a speculating run. -/
structure Speculating (groups : List LayerGroup) (stream : List ℕ) (phase : Phase) (s : SeqState) :
    Prop where
  ctx_eq : s.ctxLen = stream.length
  reservation : phase.Open s
  stored : ∀ (gi : ℕ) (g : LayerGroup) (r : Retain), groups[gi]? = some g →
    g.spec.retain = some r → ∀ (p t : ℕ), (stream ++ phase.cells)[p]? = some t →
      ¬r.Evicted stream.length (p / 32) → s.mirror (gi, p) = some t
  dropped : ∀ (gi : ℕ) (g : LayerGroup) (r : Retain), groups[gi]? = some g →
    g.spec.retain = some r → ∀ p, r.Evicted stream.length (p / 32) → s.mirror (gi, p) = none

section Speculating

variable {groups : List LayerGroup} {stream : List ℕ} {phase : Phase} {s s' : SeqState} {k : SeqId}
  {m : StateManager}

theorem Speculating.committed {pools' : List (Option BlockPool)} {cells : List ℕ} {accepted : ℕ}
    (h : Speculating m.groups stream phase s) (hs' : Committed m s accepted pools' s')
    (hcells : cells <+: phase.cells) (hlen : cells.length = accepted) :
    Speculating m.groups (stream ++ cells) .idle s' := by
  have hctx : s.ctxLen + accepted = (stream ++ cells).length := by
    rw [h.ctx_eq, length_append, hlen]
  refine ⟨by rw [hs'.frame]; exact hctx, by rw [hs'.frame]; rfl, fun gi g r hg hr p t ht hev => ?_,
    fun gi g r hg hr p hev => ?_⟩
  · rw [← hctx] at hev
    rw [hs'.mirror_kept gi g r hg hr p hev]
    refine h.stored gi g r hg hr p t ?_ fun hold => hev (hold.mono ?_)
    · obtain ⟨rest, hrest⟩ := hcells
      rw [← hrest, ← append_assoc]
      simp only [Phase.cells, append_nil] at ht
      rw [List.getElem?_append_left (List.getElem?_eq_some_iff.mp ht).1]
      exact ht
    · rw [h.ctx_eq]
      exact Nat.le_add_right _ _
  · rw [← hctx] at hev
    exact hs'.mirror_evicted gi g r hg hr p hev

theorem Speculating.store {phase' : Phase} {cells : (ℕ → Option ℕ) → List (Option ℕ)}
    {mirror : Mirror} {compacted : Option ℕ} (h : Speculating groups stream phase s)
    (hst : StoredIn groups s.ctxLen cells s.mirror mirror)
    (hopen : phase'.Open { s with mirror, compacted })
    (hcells : ∀ (gi : ℕ) (g : LayerGroup) (r : Retain), groups[gi]? = some g →
      g.spec.retain = some r → (cells fun p => s.mirror (gi, p)) = phase'.cells.map some) :
    Speculating groups stream phase' { s with mirror, compacted } := by
  have hrow : ∀ (gi : ℕ) (g : LayerGroup) (r : Retain), groups[gi]? = some g →
      g.spec.retain = some r → ∀ p, mirror (gi, p) =
        overwrite stream.length (phase'.cells.map some) (fun p => s.mirror (gi, p)) p := by
    intro gi g r hg hr p
    rw [hst gi g hg (StateSpec.isPaged_of_retain hr) p, hcells gi g r hg hr, h.ctx_eq]
  refine ⟨h.ctx_eq, hopen, fun gi g r hg hr p t ht hev => ?_, fun gi g r hg hr p hev => ?_⟩
  · simp only
    rw [hrow gi g r hg hr, overwrite]
    split
    · rename_i hin
      rw [getElem?_append_right hin.1] at ht
      simp [ht]
    · rename_i hout
      refine h.stored gi g r hg hr p t ?_ hev
      have hlt : p < stream.length := by
        have := (List.getElem?_eq_some_iff.mp ht).1
        simp only [length_append, length_map] at this hout
        omega
      rw [getElem?_append_left hlt] at ht ⊢
      exact ht
  · simp only
    have := hev.lt
    rw [hrow gi g r hg hr, overwrite, if_neg (by omega)]
    exact h.dropped gi g r hg hr p hev

end Speculating

theorem Inv.exec_other {H : SeqId → ℕ} {m : StateManager} (h : Inv H m) {k : SeqId}
    (hk : k < m.nextSeq) {c : Call} (hc : c.seq? ≠ some k) :
    (c.exec m).2.seqs[k]? = m.seqs[k]? := by
  have hins : ∀ k' s, k' ≠ k → (m.seqs.insert k' s)[k]? = m.seqs[k]? := fun k' s hne => by
    rw [Std.ExtTreeMap.getElem?_insert, if_neg (by simpa using hne)]
  rcases c.exec_cases h with ⟨e, sc, he⟩ | ⟨m', he, hstep⟩
  · rw [he]
  · rw [he]
    cases hstep with
    | newSeq => exact hins _ _ (Nat.ne_of_gt hk)
    | freeSeq =>
      have hne := fun heq => hc (congrArg some heq)
      rw [Std.ExtTreeMap.getElem?_erase, if_neg (by simpa using hne)]
    | _ => exact hins _ _ fun heq => hc (congrArg some heq)

theorem StateManager.Reachable.exec {m : StateManager} (h : m.Reachable) (c : Call) :
    (c.exec m).2.Reachable := by
  obtain ⟨m₀, calls, hb, rfl⟩ := h
  exact ⟨m₀, calls ++ [c], hb, (StateManager.run_append m₀ calls [c]).symm⟩

section SpecRun

variable {k : SeqId} {m : StateManager} {stream : List ℕ} {phase : Phase}

theorem SpecRun.reachable (h : SpecRun k m stream phase) : m.Reachable := by
  induction h with
  | @start m m' tokens _ hm hnew =>
    have := hm.exec (.newSeq tokens)
    simpa [Call.exec, hnew] using this
  | other _ c _ ih => exact ih.exec c
  | @reserve m m' _ n _ hres ih =>
    have := ih.exec (.reserve k n)
    rwa [hres] at this
  | @write m _ ctx tokens _ _ ih => exact ih.exec (.writeTokens k ctx tokens)
  | @commit m m' _ _ accepted _ hcom ih =>
    have := ih.exec (.commit k accepted)
    rwa [Call.exec, hcom] at this
  | @compact m _ _ path _ _ _ _ ih => exact ih.exec (.compact k path)
  | @commitPath m m' _ _ path _ hcom ih =>
    have := ih.exec (.commit k path.length)
    rwa [Call.exec, hcom] at this

/-- **A speculating run keeps what the sequence must remember.** -/
theorem SpecRun.speculating (h : SpecRun k m stream phase) :
    ∃ s, m.seqs[k]? = some s ∧ Speculating m.groups stream phase s := by
  induction h with
  | @start m m' tokens _ _ hnew =>
    rcases newSeq_cases m tokens with ⟨e, he⟩ | ⟨slots, fixed', -, -, -, -, he⟩
    · simp [he] at hnew
    · obtain ⟨hk, rfl⟩ := Prod.mk.inj (he.symm.trans hnew)
      obtain rfl : m.nextSeq = k := (Prod.mk.inj (Except.ok.inj hk)).1
      refine ⟨SeqState.fresh m.groups slots, by simp, rfl, rfl, ?_, fun _ _ _ _ _ _ _ => rfl⟩
      simp [Phase.cells]
  | @other m stream phase h c hc ih =>
    obtain ⟨H, hinv⟩ := h.reachable.exists_inv
    obtain ⟨s, hs, hspec⟩ := ih
    refine ⟨s, (hinv.exec_other (hinv.ids_lt k s hs) hc).trans hs, ?_⟩
    rw [(hinv.exec_frame c).1]
    exact hspec
  | @reserve m m' stream n h hres ih =>
    obtain ⟨H, hinv⟩ := h.reachable.exists_inv
    obtain ⟨t, ht, hspec⟩ := ih
    rcases reserve_cases hinv k n with ⟨-, e, sc, he⟩ | ⟨s, pools', s', sc, hr, hs', he⟩
    · simp [Call.exec, he, Except.map] at hres
    · obtain rfl : s = t := by simpa [hr.1] using ht
      simp only [Call.exec, he] at hres
      obtain ⟨-, rfl⟩ := Prod.mk.inj hres
      refine ⟨s', by simp, ?_, ?_, ?_, ?_⟩
      · rw [hs'.frame]
        exact hspec.ctx_eq
      · rw [hs'.frame]
        exact ⟨rfl, hr.2.2.1, rfl⟩
      · rw [hs'.frame]
        exact hspec.stored
      · rw [hs'.frame]
        exact hspec.dropped
  | @write m stream ctx tokens h hctx ih =>
    obtain ⟨H, hinv⟩ := h.reachable.exists_inv
    obtain ⟨s, hs, hspec⟩ := ih
    obtain ⟨htail, hpos, hcomp⟩ := hspec.reservation
    obtain rfl : s.ctxLen = ctx := by
      simpa [StateManager.ctxLen, StateManager.seq, hs, Functor.map, Except.map] using hctx
    rcases writeTokens_cases hinv k s.ctxLen tokens with ⟨hno, -⟩ | ⟨t, mirror, hw, hst, he⟩
    · exact absurd ⟨hs, le_rfl, by omega⟩ (hno s)
    · obtain rfl : t = s := by simpa [hw.1] using hs
      rw [he]
      have hopen : (Phase.written tokens).Open { t with mirror } := ⟨htail, hpos, hcomp⟩
      exact ⟨{ t with mirror }, by simp, hspec.store hst hopen fun _ _ _ _ _ => rfl⟩
  | @commit m m' stream tokens accepted h hcom ih =>
    obtain ⟨H, hinv⟩ := h.reachable.exists_inv
    obtain ⟨t, ht, hspec⟩ := ih
    rcases commit_cases hinv k accepted with ⟨-, e, he⟩ | ⟨s, pools', s', swaps', hc, hs', he⟩
    · simp [he] at hcom
    · obtain rfl : s = t := by simpa [hc.live] using ht
      obtain ⟨-, rfl⟩ := Prod.mk.inj (he.symm.trans hcom)
      have hle : accepted ≤ tokens.length := hspec.reservation.1 ▸ hc.le_tail
      refine ⟨s', by simp, hspec.committed hs' (List.take_prefix accepted tokens) ?_⟩
      rw [length_take, Nat.min_eq_left hle]
  | @compact m stream tokens path h hnodup hlt hlen ih =>
    obtain ⟨H, hinv⟩ := h.reachable.exists_inv
    obtain ⟨s, hs, hspec⟩ := ih
    obtain ⟨htail, hpos, -⟩ := hspec.reservation
    rcases compact_cases hinv k path with ⟨hno, -⟩ | ⟨t, op, mirror, hc, hst, he⟩
    · exact absurd ⟨hs, by omega, hlen, fun p hp => htail ▸ hlt p hp, hnodup⟩ (hno s)
    · obtain rfl : t = s := by simpa [hc.live] using hs
      rw [he]
      have hopen : (Phase.compacted tokens path).Open
          { t with mirror, compacted := some path.length } := ⟨htail, rfl, hnodup, hlt⟩
      refine ⟨_, by simp, hspec.store hst hopen fun gi g r hg hr => ?_⟩
      simp only [Phase.cells, map_map]
      refine map_congr_left fun p hp => ?_
      -- the source of the copy is a cell of the reservation, which no window has left
      refine hspec.stored gi g r hg hr (t.ctxLen + p) _ ?_ fun hev => ?_
      · rw [hspec.ctx_eq, getElem?_append_right (Nat.le_add_right _ _), Nat.add_sub_cancel_left]
        simp [Phase.cells, getElem?_eq_getElem (hlt p hp)]
      · have := hev.lt
        rw [hspec.ctx_eq] at this
        omega
  | @commitPath m m' stream tokens path h hcom ih =>
    obtain ⟨H, hinv⟩ := h.reachable.exists_inv
    obtain ⟨t, ht, hspec⟩ := ih
    rcases commit_cases hinv k path.length with ⟨-, e, he⟩ | ⟨s, pools', s', swaps', hc, hs', he⟩
    · simp [he] at hcom
    · obtain rfl : s = t := by simpa [hc.live] using ht
      obtain ⟨-, rfl⟩ := Prod.mk.inj (he.symm.trans hcom)
      exact ⟨s', by simp, hspec.committed hs' (prefix_refl _) (by simp)⟩

/-- What the sequence reads between two steps: the stream, less what its policy
gives up at the length of the stream. -/
theorem SpecRun.readToken_eq (h : SpecRun k m stream .idle) {gi : ℕ} {g : LayerGroup} {r : Retain}
    (hg : m.groups[gi]? = some g) (hr : g.spec.retain = some r) {p t : ℕ}
    (hp : stream[p]? = some t) :
    (r.Evicted stream.length (p / 32) → m.readToken k gi p = .ok none) ∧
      (¬r.Evicted stream.length (p / 32) → m.readToken k gi p = .ok (some t)) := by
  obtain ⟨H, hinv⟩ := h.reachable.exists_inv
  obtain ⟨s, hs, hspec⟩ := h.speculating
  have hlt : p < stream.length := (List.getElem?_eq_some_iff.mp hp).1
  have hread : m.readToken k gi p = .ok (s.mirror (gi, p)) := by
    have hstop := hinv.stop_lt hs
    have hgi : gi < m.groups.length := (List.getElem?_eq_some_iff.mp hg).1
    have hctx := hspec.ctx_eq
    simp only [readToken, StateManager.seq, hs, okOr_some, ok_bind, ensure_of hgi,
      add_of_lt hstop, ensure_of (show p < s.ctxLen + s.tailLen by omega)]
    rfl
  rw [hread]
  refine ⟨fun hev => ?_, fun hev => ?_⟩
  · rw [hspec.dropped gi g r hg hr p hev]
  · rw [hspec.stored gi g r hg hr p t (by simpa [Phase.cells] using hp) hev]

/-- **Speculation is transparent.** After every step of a speculating run, the
verified length is the length of the stream, and every position of it reads the
token of the stream where its block is still held, and nothing where the block was
given up. What is read depends on the stream and the retention policy only, so it
is what a run reads that never reserved a token it did not verify. -/
theorem speculation_transparency (h : SpecRun k m stream .idle) :
    m.ctxLen k = .ok stream.length ∧
    ∃ s, m.seqs[k]? = some s ∧
      ∀ (gi : ℕ) (g : LayerGroup), m.groups[gi]? = some g → g.spec.isPaged = true →
        ∀ (p t : ℕ), stream[p]? = some t →
          m.readToken k gi p = .ok (if p / 32 ∈ s.held gi then some t else none) ∧
          ∀ (m' : StateManager) (k' : SeqId) (gj : ℕ) (g' : LayerGroup),
            SpecRun k' m' stream .idle → m'.groups[gj]? = some g' →
            g'.spec.retain = g.spec.retain → m'.readToken k' gj p = m.readToken k gi p := by
  obtain ⟨H, hinv⟩ := h.reachable.exists_inv
  obtain ⟨s, hs, hspec⟩ := h.speculating
  refine ⟨?_, s, hs, fun gi g hg hpaged p t ht => ?_⟩
  · simp [StateManager.ctxLen, StateManager.seq, hs, Functor.map, Except.map, hspec.ctx_eq]
  obtain ⟨r, hr⟩ := StateSpec.exists_retain hpaged
  have hlt : p < stream.length := (List.getElem?_eq_some_iff.mp ht).1
  obtain ⟨hdrop, hkeep⟩ := h.readToken_eq hg hr ht
  have hheld : p / 32 ∈ s.held gi ↔ ¬r.Evicted stream.length (p / 32) := by
    have htail := (hinv.seqs k s hs).tail_le
    rw [(hinv.seqs k s hs).retained gi g r hg hr, hspec.ctx_eq]
    have hctx := hspec.ctx_eq
    exact ⟨fun h => h.2, fun h => ⟨by omega, h⟩⟩
  refine ⟨?_, fun m' k' gj g' h' hg' hr' => ?_⟩
  · by_cases hev : r.Evicted stream.length (p / 32)
    · rw [if_neg (hheld.not.mpr (not_not.mpr hev)), hdrop hev]
    · rw [if_pos (hheld.mpr hev), hkeep hev]
  · obtain ⟨hdrop', hkeep'⟩ := h'.readToken_eq hg' (hr'.trans hr) ht
    by_cases hev : r.Evicted stream.length (p / 32)
    · rw [hdrop hev, hdrop' hev]
    · rw [hkeep hev, hkeep' hev]

/-- A run that rejects two tokens of three, lets another sequence start, and then
takes the second token of two. -/
theorem speculation_transparency_small :
    ∃ m, SpecRun 0 m [5, 9] .idle ∧ m.ctxLen 0 = .ok 2 ∧
      ∃ s, m.seqs[0]? = some s ∧
        m.readToken 0 0 1 = .ok (if 1 / 32 ∈ s.held 0 then some 9 else none) := by
  have h₀ : SpecRun 0 (small.newSeq []).2 [] .idle :=
    .start (m := small) ⟨small, [], small_built, rfl⟩ (Prod.ext rfl rfl)
  have h₁ := h₀.reserve (n := 3) (Prod.ext rfl rfl)
  have h₂ := @SpecRun.write 0 _ _ 0 [5, 6, 7] h₁ rfl
  have h₃ := @SpecRun.commit 0 _ _ _ _ 1 h₂ (Prod.ext rfl rfl)
  have h₄ := h₃.other (.newSeq []) (by decide)
  have h₅ := h₄.reserve (n := 2) (Prod.ext rfl rfl)
  have h₆ := @SpecRun.write 0 _ _ 1 [8, 9] h₅ rfl
  have h₇ := @SpecRun.compact 0 _ _ _ [1] h₆ (by decide) (by decide) (by decide)
  have h₈ := h₇.commitPath (Prod.ext rfl rfl)
  obtain ⟨hctx, s, hs, hread⟩ := speculation_transparency h₈
  exact ⟨_, h₈, hctx, s, hs, (hread 0 _ rfl rfl 1 9 rfl).1⟩

end SpecRun

end R9v

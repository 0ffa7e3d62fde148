import R9v.T0.Filters
import Mathlib.Tactic.Ring

/-!
# A sequence of a batch is on its own

What `logits_postprocess`, `sample` and `verify` return for a sequence depends on its own inputs
only, not on the batch that it is in or on its place there (`sampled_alone`). A call that fails
changes nothing, and one that succeeds counts one draw for each sequence, or one more than there are
draft tokens.
-/

namespace R9v

open Checked List

variable {F : Type}

/-! ### Rows of rows -/

section GetRow

open Postprocess

variable {α : Type} {l l' : List α} {q v i : ℕ}

theorem getRow_getRow {query : ℕ} (hquery : query < q) :
    getRow v (getRow (q * v) l i) query = getRow v l (i * q + query) := by
  refine ext_getElem? fun t => ?_
  rw [getElem?_getRow, getElem?_getRow, getElem?_getRow]
  split
  · have hle := Nat.mul_le_mul_right v (Nat.succ_le_of_lt hquery)
    rw [Nat.succ_mul] at hle
    rw [if_pos (by omega)]
    congr 1
    ring
  · rfl

theorem eq_of_getRow_eq (hl : l.length = q * v) (hl' : l'.length = q * v)
    (h : ∀ query < q, getRow v l query = getRow v l' query) : l = l' := by
  refine ext_getElem? fun t => ?_
  rcases Nat.lt_or_ge t (q * v) with hlt | hge
  · have hv : 0 < v := by
      rcases Nat.eq_zero_or_pos v with rfl | hv
      · exact absurd hlt (Nat.not_lt_zero t)
      · exact hv
    have hrow := congrArg (·[t % v]?) (h (t / v) (Nat.div_lt_of_lt_mul (by rwa [Nat.mul_comm])))
    simp only [getElem?_getRow, Nat.mod_lt t hv, if_true] at hrow
    rwa [Nat.div_add_mod' t v] at hrow
  · rw [getElem?_eq_none (hl.trans_le hge), getElem?_eq_none (hl'.trans_le hge)]

theorem length_getRow {n r : ℕ} (hl : l.length = n * v) (hr : r < n) :
    (getRow v l r).length = v := by
  have hle := Nat.mul_le_mul_right v (Nat.succ_le_of_lt hr)
  rw [Nat.succ_mul] at hle
  rw [getRow, length_take, length_drop, hl]
  omega

end GetRow

/-! ### The probabilities -/

namespace Postprocess.PostprocessInput

variable [Logit F] {x x' : PostprocessInput F} {i j : ℕ}

/-- Two calls have the same for a sequence. -/
structure SameSeq (x x' : PostprocessInput F) (i j : ℕ) : Prop where
  params : x.params[i]? = x'.params[j]?
  logits : getRow (x.q * x.v) x.logits i = getRow (x.q * x.v) x'.logits j
  hist : x.historyCounts.map (fun h => getRow x.v h i) =
    x'.historyCounts.map fun h => getRow x.v h j
  mask : x.grammarMask.map (fun m => getRow (x.q * x.v) m i) =
    x'.grammarMask.map fun m => getRow (x.q * x.v) m j

omit [Logit F] in
theorem SameSeq.row_eq (h : x.SameSeq x' i j) (hq : x.q = x'.q) (hv : x.v = x'.v) {query : ℕ}
    (hquery : query < x.q) (p : SamplingParams F) : x.row p (i, query) = x'.row p (j, query) := by
  have hmask : (x.grammarMask.map fun m => getRow x.v m (i * x.q + query)) =
      x'.grammarMask.map fun m => getRow x.v m (j * x.q + query) := by
    have hget := congrArg (Option.map fun m => getRow x.v m query) h.mask
    rw [Option.map_map, Option.map_map] at hget
    simpa only [Function.comp_def, getRow_getRow hquery] using hget
  rw [row, row, Row.mk.injEq]
  refine ⟨rfl, hv ▸ h.hist, ?_, ?_⟩
  · rw [rowNo, rowNo, ← hq, ← hv]
    exact hmask
  · rw [rowNo, rowNo, ← hq, ← hv, ← getRow_getRow hquery, h.logits, getRow_getRow hquery]

/-- **The probabilities of a sequence** are the same in another batch. -/
theorem logitsPostprocess_alone {out₀ out₀' out out' : List F}
    (hx : x.logitsPostprocess out₀ = (.ok (), out))
    (hx' : x'.logitsPostprocess out₀' = (.ok (), out'))
    (hq : x.q = x'.q) (hv : x.v = x'.v) (hi : i < x.s) (hj : j < x'.s) (h : x.SameSeq x' i j) :
    getRow (x.q * x.v) out i = getRow (x.q * x.v) out' j := by
  rcases x.logitsPostprocess_cases out₀ with ⟨e, he⟩ | ⟨-, r, hr, hlen, hall⟩
  · rw [he] at hx
    cases (Prod.mk.inj hx).1
  rcases x'.logitsPostprocess_cases out₀' with ⟨e, he⟩ | ⟨-, r', hr', hlen', hall'⟩
  · rw [he] at hx'
    cases (Prod.mk.inj hx').1
  obtain rfl := (Prod.mk.inj (hr.symm.trans hx)).2
  obtain rfl := (Prod.mk.inj (hr'.symm.trans hx')).2
  rw [Nat.mul_assoc] at hlen hlen'
  refine eq_of_getRow_eq (length_getRow hlen hi) (length_getRow (hq ▸ hv ▸ hlen') hj)
    fun query hquery => ?_
  obtain ⟨p, hp, -, hrow⟩ := hall (i, query) (mem_rowIds.mpr ⟨hi, hquery⟩)
  obtain ⟨p', hp', -, hrow'⟩ := hall' (j, query) (mem_rowIds.mpr ⟨hj, hq ▸ hquery⟩)
  obtain rfl : p = p' := Option.some.inj (hp.symm.trans (h.params.trans hp'))
  rw [rowNo] at hrow hrow'
  rw [getRow_getRow hquery, getRow_getRow hquery, hrow, hq, hv, hrow', h.row_eq hq hv hquery]

end Postprocess.PostprocessInput

/-! ### The states -/

theorem Advanced.unique {count : ℕ} {rng a b : RngState} (ha : Advanced count rng a)
    (hb : Advanced count rng b) : a = b := by
  have hword := ha.seqWord.trans hb.seqWord.symm
  have hseq : a.seqId = b.seqId := UInt64.toNat_inj.mp (by
    rw [← a.seqWord_eq, ← b.seqWord_eq, hword])
  have hdraw := ha.drawIndex.trans hb.drawIndex.symm
  have hseed := ha.seed.trans hb.seed.symm
  have hstep := ha.step.trans hb.step.symm
  exact (RngState.mk.injEq ..).mpr ⟨hseed, hseq, hword, hstep, hdraw⟩

theorem getElem?_forall₂ {α β : Type} {R : α → β → Prop} {l : List α} {l' : List β}
    (h : l.Forall₂ R l') (i : ℕ) :
    (l[i]? = none ∧ l'[i]? = none) ∨ ∃ a b, l[i]? = some a ∧ l'[i]? = some b ∧ R a b := by
  induction h generalizing i with
  | nil => exact Or.inl ⟨rfl, rfl⟩
  | cons hab _ ih =>
    cases i with
    | zero => exact Or.inr ⟨_, _, rfl, rfl, hab⟩
    | succ i => exact ih i

/-- The states of a sequence in two batches are the same after a call if they were before it. -/
theorem states_alone {count : ℕ} {rngs rngs' states states' : List RngState} {i j : ℕ}
    (h : rngs.Forall₂ (Advanced count) states) (h' : rngs'.Forall₂ (Advanced count) states')
    (heq : rngs[i]? = rngs'[j]?) : states[i]? = states'[j]? := by
  rcases getElem?_forall₂ h i with ⟨hi, hstate⟩ | ⟨rng, state, hi, hstate, hadv⟩
  · rcases getElem?_forall₂ h' j with ⟨-, hstate'⟩ | ⟨rng', state', hj, -, -⟩
    · rw [hstate, hstate']
    · rw [hi, hj] at heq
      cases heq
  · rcases getElem?_forall₂ h' j with ⟨hj, -⟩ | ⟨rng', state', hj, hstate', hadv'⟩
    · rw [hi, hj] at heq
      cases heq
    · obtain rfl : rng = rng' := Option.some.inj (hi.symm.trans (heq.trans hj))
      rw [hstate, hstate', hadv.unique hadv']

/-! ### The tokens that are sampled -/

section Sample

variable [Scalar F] {draw : RngState → ℕ → F} {probs probs' : List F} {s s' v : ℕ}
  {rngs rngs' : List RngState}

/-- The token of a row at a number. -/
def sampleAt (v : ℕ) (row : List F) (u : F) : ℕ := (reach u 0 0 row).getD (v - 1) % 2 ^ 32

theorem sampleRows_alone (seq : ℕ) (h : ∀ rng ∈ rngs, rng.drawIndex + 1 < 2 ^ 32) :
    ∃ tokens states logs, sampleRows draw probs v seq rngs = ⟨.ok tokens, states, logs⟩ ∧
      rngs.Forall₂ (Advanced 1) states ∧ tokens.length = rngs.length ∧
      ∀ i, tokens[i]? = rngs[i]?.map fun rng =>
        sampleAt v (dist v probs (seq + i)) (draw rng rng.drawIndex) := by
  induction rngs generalizing seq with
  | nil => exact ⟨[], [], [], rfl, .nil, rfl, fun _ => rfl⟩
  | cons rng rngs ih =>
    obtain ⟨hrng, hrngs⟩ := forall_mem_cons.mp h
    obtain ⟨tokens, states, logs, heq, hstates, hlen, htokens⟩ := ih (seq + 1) hrngs
    obtain ⟨rng', hadv⟩ := @RngState.checkedAdvance_ok F rng 1 "RngState::draw_uniform_f32" hrng
    unfold sampleRows
    rw [hadv]
    simp only [heq]
    refine ⟨_, _, _, rfl, .cons (advanced_of_eq_ok hadv) hstates, congrArg Nat.succ hlen,
      fun i => ?_⟩
    cases i with
    | zero => rfl
    | succ i =>
      rw [getElem?_cons_succ, getElem?_cons_succ, htokens i, Nat.add_right_comm,
        Nat.add_assoc]

/-- **A call that samples** fails and changes nothing, or samples each sequence from its row. -/
theorem sample_alone (draw : RngState → ℕ → F) (probs : List F) (s v : ℕ) (rngs : List RngState) :
    (∃ e, sample draw probs s v rngs = ⟨.error e, rngs, []⟩) ∨
      rngs.length = s ∧ (∀ i < s, ∃ u, validateDistribution (dist v probs i) "sample" i 0 = .ok u) ∧
      ∃ tokens states logs, sample draw probs s v rngs = ⟨.ok tokens, states, logs⟩ ∧
        rngs.Forall₂ (Advanced 1) states ∧ tokens.length = s ∧
        ∀ i, tokens[i]? = rngs[i]?.map fun rng =>
          sampleAt v (dist v probs i) (draw rng rng.drawIndex) := by
  unfold sample
  cases hcheck : checkSample probs s v rngs with
  | error e => exact Or.inl ⟨e, rfl⟩
  | ok _ =>
    simp only [checkSample, bind_eq_ok, forM_eq_ok, ensure_eq_ok] at hcheck
    obtain ⟨-, -, -, -, -, -, -, hlen, -, hrows, hcheck⟩ := hcheck
    obtain ⟨tokens, states, logs, heq, hstates, htokens, hall⟩ := @sampleRows_alone F _ draw probs v
      rngs 0 fun rng hrng => RngState.ensureCanAdvance_eq_ok.mp (hcheck rng hrng)
    refine Or.inr ⟨hlen, fun i hi => ⟨(), hrows i (mem_range.mpr hi)⟩, tokens, states, logs,
      heq,
      hstates, htokens.trans hlen, fun i => ?_⟩
    rw [hall i, Nat.zero_add]

end Sample

/-! ### The verification -/

namespace VerifyInput

variable [Scalar F] {x x' : VerifyInput F} {draw : RngState → ℕ → F} {rngs rngs' : List RngState}

/-- Two batches are verified with the same parameters. -/
structure SameShape (x x' : VerifyInput F) : Prop where
  k : x.k = x'.k
  v : x.v = x'.v
  method : x.method = x'.method
  tree : x.tree = x'.tree

/-- The tokens that are returned for a sequence, with those that fill up its row. -/
def acceptedRow (out : VerifyOutput) (k seq : ℕ) : List ℕ :=
  (out.accepted.drop (seq * (k + 1))).take (k + 1)

/-- **The tokens of a sequence** are the same in another batch. -/
theorem verify_alone (h : x.Accepts rngs) (h' : x'.Accepts rngs') (hshape : x.SameShape x')
    {i j : ℕ}
    (hi : i < x.s) (hdraft : x.seqDraft i = x'.seqDraft j) (hrng : rngs[i]? = rngs'[j]?) :
    ∃ out out', (x.verify draw rngs).result = .ok out ∧ (x'.verify draw rngs').result = .ok out' ∧
      acceptedRow out x.k i = acceptedRow out' x.k j ∧
      out.acceptLen.getD i 0 = out'.acceptLen.getD j 0 := by
  obtain ⟨rng, hget⟩ : ∃ rng, rngs[i]? = some rng :=
    ⟨_, getElem?_eq_getElem (h.rngs_length ▸ hi)⟩
  obtain ⟨out, hout, hlen, hrow, -⟩ := h.output draw hget
  obtain ⟨out', hout', hlen', hrow', -⟩ := h'.output draw (hrng ▸ hget)
  have hverified : verified (x.seqDraft i) x.method (draw rng) x.k (pathsOf x.k x.tree) =
      verified (x'.seqDraft j) x'.method (draw rng) x'.k (pathsOf x'.k x'.tree) := by
    rw [hdraft, hshape.method, hshape.k, hshape.tree]
  refine ⟨out, out', hout, hout', ?_, ?_⟩
  · rw [acceptedRow, acceptedRow, hrow, hverified, ← hrow', hshape.k]
  · rw [hlen, hverified, hlen']

end VerifyInput

/-! ### All three -/

/-- **A sequence does not depend on its batch**: what a call returns for it is what any other call
returns that has the same for it, a call that fails changes nothing, and a call that succeeds counts
as many draws as it should. -/
theorem sampled_alone [Logit F] :
    (∀ (x x' : Postprocess.PostprocessInput F) (out₀ out₀' out out' : List F),
      x.logitsPostprocess out₀ = (.ok (), out) → x'.logitsPostprocess out₀' = (.ok (), out') →
      x.q = x'.q → x.v = x'.v → ∀ i < x.s, ∀ j < x'.s, x.SameSeq x' i j →
        Postprocess.getRow (x.q * x.v) out i = Postprocess.getRow (x.q * x.v) out' j) ∧
    (∀ (x : Postprocess.PostprocessInput F) (out₀ : List F) e,
      (x.logitsPostprocess out₀).1 = .error e → (x.logitsPostprocess out₀).2 = out₀) ∧
    (∀ (draw : RngState → ℕ → F) (probs probs' : List F) (s s' v : ℕ) (rngs rngs' : List RngState)
      tokens tokens', (sample draw probs s v rngs).result = .ok tokens →
      (sample draw probs' s' v rngs').result = .ok tokens' →
      ∀ i < s, ∀ j < s', dist v probs i = dist v probs' j → rngs[i]? = rngs'[j]? →
        tokens[i]? = tokens'[j]? ∧
        (sample draw probs s v rngs).states[i]? = (sample draw probs' s' v rngs').states[j]?) ∧
    (∀ (draw : RngState → ℕ → F) (probs : List F) (s v : ℕ) (rngs : List RngState),
      (∀ e, (sample draw probs s v rngs).result = .error e →
        (sample draw probs s v rngs).states = rngs) ∧
      ∀ tokens, (sample draw probs s v rngs).result = .ok tokens → tokens.length = s ∧
        rngs.Forall₂ (Advanced 1) (sample draw probs s v rngs).states) ∧
    (∀ (draw : RngState → ℕ → F) (x x' : VerifyInput F) (rngs rngs' : List RngState) out out',
      (x.verify draw rngs).result = .ok out → (x'.verify draw rngs').result = .ok out' →
      x.SameShape x' → ∀ i < x.s, ∀ j < x'.s, x.seqDraft i = x'.seqDraft j → rngs[i]? = rngs'[j]? →
        VerifyInput.acceptedRow out x.k i = VerifyInput.acceptedRow out' x.k j ∧
        out.acceptLen.getD i 0 = out'.acceptLen.getD j 0 ∧
        (x.verify draw rngs).states[i]? = (x'.verify draw rngs').states[j]?) ∧
    ∀ (draw : RngState → ℕ → F) (x : VerifyInput F) (rngs : List RngState),
      (∀ e, (x.verify draw rngs).result = .error e → (x.verify draw rngs).states = rngs) ∧
      (∀ out, (x.verify draw rngs).result = .ok out →
        rngs.Forall₂ (Advanced (x.k + 1)) (x.verify draw rngs).states) ∧
      ((do x.checkShapes rngs; x.checkValues rngs : Except (T0Error F) Unit) = .ok () →
        ∃ out, (x.verify draw rngs).result = .ok out) := by
  refine ⟨fun x x' out₀ out₀' out out' hx hx' hq hv i hi j hj h =>
    Postprocess.PostprocessInput.logitsPostprocess_alone hx hx' hq hv hi hj h,
    fun x out₀ e he => ?_,
    fun draw probs probs' s s' v rngs rngs' tokens tokens' h h' i hi j hj => ?_,
    fun draw probs s v rngs => ?_,
    fun draw x x' rngs rngs' out out' h h' hshape i hi j hj hdraft hrng => ?_,
    fun draw x rngs => ?_⟩
  · rcases x.logitsPostprocess_cases out₀ with ⟨e', he'⟩ | ⟨-, out, hout, -, -⟩
    · rw [he']
    · rw [hout] at he
      cases he
  · rcases sample_alone draw probs s v rngs with ⟨e, he⟩ |
        ⟨-, -, _, states, _, heq, hstates, -, hall⟩
    · rw [he] at h
      cases h
    rcases sample_alone draw probs' s' v rngs' with
      ⟨e, he⟩ | ⟨-, -, _, states', _, heq', hstates', -, hall'⟩
    · rw [he] at h'
      cases h'
    rw [heq] at h
    rw [heq'] at h'
    obtain rfl := Except.ok.inj h
    obtain rfl := Except.ok.inj h'
    intro hdist hrng
    rw [heq, heq']
    refine ⟨?_, states_alone hstates hstates' hrng⟩
    rw [hall, hall', hrng, hdist]
  · rcases sample_alone draw probs s v rngs with ⟨e, he⟩ |
        ⟨-, -, tokens, states, _, heq, hstates, hlen, -⟩
    · rw [he]
      exact ⟨fun _ _ => rfl, fun _ h => by cases h⟩
    · rw [heq]
      refine ⟨(fun _ h => by cases h), fun _ h => ?_⟩
      obtain rfl := Except.ok.inj h
      exact ⟨hlen, hstates⟩
  · have haccepts : ∀ {y : VerifyInput F} {rs : List RngState} {o : VerifyOutput},
        (y.verify draw rs).result = .ok o → y.Accepts rs := by
      intro y rs o ho
      refine (y.verify_cases draw rs).resolve_left ?_
      rintro ⟨e, he⟩
      rw [he] at ho
      cases ho
    have hx := haccepts h
    have hx' := haccepts h'
    obtain ⟨r, r', hr, hr', htokens, hlen⟩ :=
        @VerifyInput.verify_alone F _ _ _ draw _ _ hx hx' hshape _ _ hi
      hdraft hrng
    obtain rfl := Except.ok.inj (hr.symm.trans h)
    obtain rfl := Except.ok.inj (hr'.symm.trans h')
    obtain ⟨states, heq, hstates⟩ := hx.verify_eq draw
    obtain ⟨states', heq', hstates'⟩ := hx'.verify_eq draw
    refine ⟨htokens, hlen, ?_⟩
    rw [heq, heq']
    exact states_alone hstates (hshape.k ▸ hstates') hrng
  · refine ⟨fun e he => ?_, fun out hout => ?_, fun hcheck => ?_⟩
    · rcases x.verify_cases draw rngs with ⟨e', he'⟩ | haccepts
      · rw [he']
      · obtain ⟨states, heq, -⟩ := haccepts.verify_eq draw
        rw [heq] at he
        cases he
    · rcases x.verify_cases draw rngs with ⟨e', he'⟩ | haccepts
      · rw [he'] at hout
        cases hout
      · obtain ⟨states, heq, hstates⟩ := haccepts.verify_eq draw
        rw [heq]
        exact hstates
    · obtain ⟨states, heq, -⟩ := (VerifyInput.accepts_iff.mp hcheck).verify_eq draw
      rw [heq]
      exact ⟨_, rfl⟩

section Example

open Postprocess

/-- The sequence of `threeTokens`, after another one. -/
def secondOfTwo : PostprocessInput (Num .exact) :=
  { threeTokens with
    logits := [.ofRat 5, .ofRat 4, .ofRat 6, .ofRat 1, .ofRat 2, .ofRat 3]
    s := 2
    params := threeTokens.params ++ threeTokens.params
    grammarMask := some [true, true, true, true, true, false] }

/-- A draft of one token, for each of some sequences. -/
def oneDraft (s : ℕ) : VerifyInput (Num .exact) where
  draftTokens := List.replicate s 1
  draftProbs := none
  targetProbs := (List.replicate (s * 2) [.ofRat (1 / 4), .ofRat (3 / 4)]).flatten
  s := s
  k := 1
  v := 2
  method := .greedy
  tree := none

def half : RngState → ℕ → Num .exact := fun _ _ => .ofRat (1 / 2)

theorem ok_of_isOk {ε α : Type} {r : Except ε α} (h : r.isOk = true) : ∃ a, r = .ok a := by
  cases r with
  | error e => cases h
  | ok a => exact ⟨a, rfl⟩

theorem secondOfTwo_ok : (secondOfTwo.logitsPostprocess (List.replicate 6 0)).1.isOk = true := by
  decide +kernel

theorem oneDraft_ok : ((oneDraft 1).verify half [firstState]).result.isOk = true ∧
    ((oneDraft 2).verify half [firstState, firstState]).result.isOk = true := by
  decide +kernel

theorem sample_half_ok :
    (sample half [.ofRat (1 / 4), .ofRat (3 / 4)] 1 2 [firstState]).result.isOk = true ∧
      (sample half [.ofRat 1, .ofRat 0, .ofRat (1 / 4), .ofRat (3 / 4)] 2 2
        [firstState, firstState]).result.isOk = true := by
  decide +kernel

/-- One sequence alone, and the same sequence after another. -/
theorem sampled_alone_second :
    (∃ out out', threeTokens.logitsPostprocess [0, 0, 0] = (.ok (), out) ∧
      secondOfTwo.logitsPostprocess (List.replicate 6 0) = (.ok (), out') ∧
      getRow 3 out 0 = getRow 3 out' 1) ∧
    (∃ tokens tokens', (sample half [.ofRat (1 / 4), .ofRat (3 / 4)] 1 2 [firstState]).result =
        .ok tokens ∧
      (sample half [.ofRat 1, .ofRat 0, .ofRat (1 / 4), .ofRat (3 / 4)] 2 2
        [firstState, firstState]).result = .ok tokens' ∧ tokens[0]? = tokens'[1]?) ∧
    ∃ out out', ((oneDraft 1).verify half [firstState]).result = .ok out ∧
      ((oneDraft 2).verify half [firstState, firstState]).result = .ok out' ∧
      VerifyInput.acceptedRow out 1 0 = VerifyInput.acceptedRow out' 1 1 := by
  obtain ⟨hpost, -, hsample, -, hverify, -⟩ := @sampled_alone (Num .exact) _
  refine ⟨?_, ?_, ?_⟩
  · have hok := threeTokens_ok
    have hok' := secondOfTwo_ok
    rcases hrun : threeTokens.logitsPostprocess [0, 0, 0] with ⟨result, out⟩
    rcases hrun' : secondOfTwo.logitsPostprocess (List.replicate 6 0) with ⟨result', out'⟩
    rw [hrun] at hok
    rw [hrun'] at hok'
    obtain ⟨_, rfl⟩ := ok_of_isOk hok
    obtain ⟨_, rfl⟩ := ok_of_isOk hok'
    exact ⟨out, out', rfl, rfl, hpost _ _ _ _ _ _ hrun hrun' rfl rfl 0 (by decide) 1 (by decide)
      ⟨rfl, rfl, rfl, rfl⟩⟩
  · obtain ⟨tokens, htokens⟩ := ok_of_isOk sample_half_ok.1
    obtain ⟨tokens', htokens'⟩ := ok_of_isOk sample_half_ok.2
    exact ⟨tokens, tokens', htokens, htokens', (hsample _ _ _ _ _ _ _ _ _ _ htokens htokens' 0
      (by decide) 1 (by decide) rfl rfl).1⟩
  · obtain ⟨out, hout⟩ := ok_of_isOk oneDraft_ok.1
    obtain ⟨out', hout'⟩ := ok_of_isOk oneDraft_ok.2
    exact ⟨out, out', hout, hout',
      (hverify _ _ _ _ _ _ _ hout hout' ⟨rfl, rfl, rfl, rfl⟩ 0 (by decide)
      1 (by decide) rfl rfl).1⟩

end Example

end R9v

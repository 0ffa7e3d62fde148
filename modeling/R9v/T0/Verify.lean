import R9v.T0.Paths

/-!
# What sampling and verification return

One lemma for each operation. A call of `sample` or `verify` that fails leaves the states as
they are, since everything that can fail is checked before the first draw; a call that
succeeds verifies each sequence on its own (`VerifyInput.verifyRows_spec`), and advances each
state by as many draws (`verify_cases`).
-/

namespace R9v

open Checked List

variable {F : Type}

/-- A state has counted some draws, and is otherwise as it was. -/
structure Advanced (count : ℕ) (rng rng' : RngState) : Prop where
  drawIndex : rng'.drawIndex = rng.drawIndex + count
  seed : rng'.seed = rng.seed
  seqWord : rng'.seqWord = rng.seqWord
  step : rng'.step = rng.step

theorem advanced_of_eq_ok {rng rng' : RngState} {count : ℕ} {op : String}
    (h : rng.checkedAdvance count op = (.ok rng' : Except (T0Error F) _)) :
    Advanced count rng rng' := by
  obtain ⟨h₁, h₂, h₃, h₄⟩ := RngState.checkedAdvance_eq_ok h
  exact ⟨h₁, h₂, h₃, h₄⟩

variable [Scalar F]

/-! ### Sampling -/

section Sample

variable {draw : RngState → ℕ → F} {probs : List F} {s v : ℕ} {rngs : List RngState}

theorem sampleRows_spec (seq : ℕ) (h : ∀ rng ∈ rngs, rng.drawIndex + 1 < 2 ^ 32) :
    ∃ tokens states logs, sampleRows draw probs v seq rngs = ⟨.ok tokens, states, logs⟩ ∧
      rngs.Forall₂ (Advanced 1) states ∧
      rngs.Forall₂ (fun rng log => log = [.read rng.drawIndex]) logs := by
  induction rngs generalizing seq with
  | nil => exact ⟨[], [], [], rfl, .nil, .nil⟩
  | cons rng rngs ih =>
    obtain ⟨hrng, hrngs⟩ := forall_mem_cons.mp h
    obtain ⟨tokens, states, logs, heq, hstates, hlogs⟩ := ih (seq + 1) hrngs
    obtain ⟨rng', hadv⟩ := @RngState.checkedAdvance_ok F rng 1 "RngState::draw_uniform_f32" hrng
    unfold sampleRows
    rw [hadv]
    simp only [heq]
    exact ⟨_, _, _, rfl, .cons (advanced_of_eq_ok hadv) hstates, .cons rfl hlogs⟩

/-- **A sampling fails and changes nothing, or reads the next draw of each sequence.** -/
theorem sample_cases (draw : RngState → ℕ → F) (probs : List F) (s v : ℕ)
    (rngs : List RngState) :
    (∃ e, sample draw probs s v rngs = ⟨.error e, rngs, []⟩) ∨
      ∃ tokens states logs, sample draw probs s v rngs = ⟨.ok tokens, states, logs⟩ ∧
        rngs.Forall₂ (Advanced 1) states ∧
        rngs.Forall₂ (fun rng log => log = [.read rng.drawIndex]) logs := by
  unfold sample
  cases hcheck : checkSample probs s v rngs with
  | error e => exact Or.inl ⟨e, rfl⟩
  | ok _ =>
    refine Or.inr (sampleRows_spec 0 fun rng hrng => ?_)
    simp only [checkSample, bind_eq_ok, forM_eq_ok] at hcheck
    obtain ⟨-, -, -, -, -, -, -, -, -, -, hcheck⟩ := hcheck
    exact RngState.ensureCanAdvance_eq_ok.mp (hcheck rng hrng)

end Sample

/-! ### The verification of one sequence -/

section Seq

variable {x : SeqDraft F} {method : VerifyMethod F} {u : ℕ → F} {k seq : ℕ}
  {paths : List (List ℕ)}

theorem testNode_rejection (x : SeqDraft F) (u : ℕ → F) (k node : ℕ) (target : List F) :
    x.testNode .rejection u k target node =
      if Scalar.lt (u node) (SeqDraft.acceptance (target.getD (x.token node) 0)
          (x.draftProb node (x.token node))) then ⟨none, [.read node]⟩
      else ⟨some (x.replacement u k target node).value,
        .read node :: (x.replacement u k target node).log⟩ := by
  set A := SeqDraft.acceptance (target.getD (x.token node) 0) (x.draftProb node (x.token node))
  have heq : x.testNode .rejection u k target node =
      Drawn.read u node >>= fun r => if Scalar.lt r A then pure none
        else x.replacement u k target node >>= fun t => pure (some t) := rfl
  have hbind : ∀ f : F → Drawn (Option ℕ), (Drawn.read u node >>= f) =
      ⟨(f (u node)).value, .read node :: (f (u node)).log⟩ := fun f => rfl
  rw [heq, hbind]
  split_ifs with h
  · rfl
  · rw [Drawn.mk.injEq, Drawn.value_bind, Drawn.log_bind, Drawn.log_pure, append_nil]
    exact ⟨rfl, rfl⟩

theorem evalFrom_cons (x : SeqDraft F) (method : VerifyMethod F) (u : ℕ → F) (k row node : ℕ)
    (path : List ℕ) :
    x.evalFrom method u k row (node :: path) =
      match x.testNode method u k (dist x.v x.targetProbs row) node with
      | ⟨some t, log⟩ => ⟨([], t), log⟩
      | ⟨none, log⟩ =>
        ⟨(node :: (x.evalFrom method u k (node + 1) path).value.1,
          (x.evalFrom method u k (node + 1) path).value.2),
          log ++ (x.evalFrom method u k (node + 1) path).log⟩ := by
  conv_lhs => unfold SeqDraft.evalFrom
  obtain ⟨_ | t, log⟩ := x.testNode method u k (dist x.v x.targetProbs row) node
  · simp only [bind, Drawn.mk.injEq]
    simp
  · simp only [bind]
    simp

/-- The best of some paths, none of which is empty. -/
def scan (x : SeqDraft F) (method : VerifyMethod F) (u : ℕ → F) (k : ℕ) :
    List (List ℕ) → Best → Drawn Best
  | [], best => pure best
  | path :: paths, best =>
    x.evalFrom method u k 0 path >>= fun out => scan x method u k paths (best.update path out.1 out.2)

/-- The best path before the first one is seen. -/
def Best.none : Best := ⟨0, 2 ^ 64 - 1, [], 0⟩

/-- A path as the best one. -/
def Best.of (x : SeqDraft F) (method : VerifyMethod F) (u : ℕ → F) (k : ℕ) (path : List ℕ) : Best :=
  ⟨(x.evalFrom method u k 0 path).value.1.length, path.headD 0,
    (x.evalFrom method u k 0 path).value.1, (x.evalFrom method u k 0 path).value.2⟩

/-- Which of two paths is kept: the longer one, or the one whose first node is not higher. -/
def Best.Ahead (b b' : Best) : Prop := b'.len < b.len ∨ (b'.len = b.len ∧ b.first ≤ b'.first)

theorem Best.Ahead.trans {a b c : Best} (h : a.Ahead b) (h' : b.Ahead c) : a.Ahead c := by
  unfold Best.Ahead at *
  omega

theorem Best.update_of (best : Best) (path : List ℕ) :
    best.update path (x.evalFrom method u k 0 path).value.1 (x.evalFrom method u k 0 path).value.2 =
        best ∧ best.Ahead (.of x method u k path) ∨
      best.update path (x.evalFrom method u k 0 path).value.1
        (x.evalFrom method u k 0 path).value.2 = .of x method u k path ∧
        (Best.of x method u k path).Ahead best := by
  simp only [Best.update]
  split_ifs with h
  · refine Or.inr ⟨rfl, ?_⟩
    simp only [Best.Ahead, Best.of]
    omega
  · refine Or.inl ⟨rfl, ?_⟩
    simp only [Best.Ahead, Best.of]
    omega

theorem scan_ahead (path : List ℕ) :
    ∃ p ∈ path :: paths, (scan x method u k paths (.of x method u k path)).value =
      .of x method u k p ∧
      ∀ q ∈ path :: paths, (Best.of x method u k p).Ahead (.of x method u k q) := by
  induction paths generalizing path with
  | nil =>
    refine ⟨path, mem_cons_self, rfl, fun q hq => ?_⟩
    rw [mem_singleton.mp hq]
    exact Or.inr ⟨rfl, le_rfl⟩
  | cons q paths ih =>
    unfold scan
    rw [Drawn.value_bind]
    rcases @Best.update_of F _ x method u k (.of x method u k path) q with
      ⟨heq, hahead⟩ | ⟨heq, hahead⟩
    · obtain ⟨p, hp, hscan, hall⟩ := ih path
      rw [heq]
      refine ⟨p, ?_, hscan, fun r hr => ?_⟩
      · rcases mem_cons.mp hp with rfl | hp
        · exact mem_cons_self
        · exact mem_cons_of_mem _ (mem_cons_of_mem _ hp)
      · rcases mem_cons.mp hr with rfl | hr
        · exact hall r mem_cons_self
        · rcases mem_cons.mp hr with rfl | hr
          · exact (hall path mem_cons_self).trans hahead
          · exact hall r (mem_cons_of_mem _ hr)
    · obtain ⟨p, hp, hscan, hall⟩ := ih q
      rw [heq]
      refine ⟨p, mem_cons_of_mem _ hp, hscan, fun r hr => ?_⟩
      rcases mem_cons.mp hr with rfl | hr
      · exact (hall q mem_cons_self).trans hahead
      · exact hall r hr

/-- **The path that is kept** is one that no other path is ahead of. -/
theorem scan_best (hne : paths ≠ []) (hhead : ∀ p ∈ paths, p.headD 0 < 2 ^ 64 - 1) :
    ∃ p ∈ paths, (scan x method u k paths .none).value = .of x method u k p ∧
      ∀ q ∈ paths, (Best.of x method u k p).Ahead (.of x method u k q) := by
  obtain _ | ⟨path, paths⟩ := paths
  · exact absurd rfl hne
  · have hfirst : Best.none.update path (x.evalFrom method u k 0 path).value.1
        (x.evalFrom method u k 0 path).value.2 = .of x method u k path := by
      have hlt := hhead path mem_cons_self
      have hbetter : Best.none.len < (x.evalFrom method u k 0 path).value.1.length ∨
          ((x.evalFrom method u k 0 path).value.1.length = Best.none.len ∧
            path.headD 0 < Best.none.first) := by
        simp only [Best.none]
        omega
      exact if_pos hbetter
    unfold scan
    rw [Drawn.value_bind, hfirst]
    exact scan_ahead path

theorem bestPath_eq (h : ∀ p ∈ paths, p ≠ []) (best : Best) :
    bestPath x method u k seq paths best = .ok (scan x method u k paths best) := by
  induction paths generalizing best with
  | nil => rfl
  | cons p paths ih =>
    obtain ⟨hp, hpaths⟩ := forall_mem_cons.mp h
    unfold bestPath
    simp only [ensure_of hp, ok_bind, ih hpaths]
    rfl

/-- What is verified for a sequence. -/
def verified (x : SeqDraft F) (method : VerifyMethod F) (u : ℕ → F) (k : ℕ)
    (paths : List (List ℕ)) : Verified :=
  if k = 0 then
    let out := SeqDraft.bonus method u 0 (dist x.v x.targetProbs 0)
    ⟨[out.value], 0, out.log⟩
  else
    let out := scan x method u k paths .none
    ⟨out.value.nodes.map x.token ++ out.value.terminal :: List.replicate (k - out.value.len) 0,
      out.value.len % 2 ^ 32, out.log⟩

theorem verifySeq_eq (h : Paths k paths) :
    verifySeq x method u k seq paths = .ok (verified x method u k paths, k + 1) := by
  unfold verifySeq verified
  by_cases hk : k = 0
  · subst hk
    simp
  · have hne : paths ≠ [] := h.exists_path (by omega)
    rw [if_neg (by simp [hk, hne]), if_neg hk, bestPath_eq h.ne_nil, ok_bind]
    rfl

end Seq

/-! ### Rows of a batch -/

section Rows

variable {α β : Type} {n : ℕ} {l : List β} {f : β → List α}

theorem take_drop_flatMap (h : ∀ b ∈ l, (f b).length = n) {i : ℕ} {b : β} (hi : l[i]? = some b) :
    ((l.flatMap f).drop (i * n)).take n = f b := by
  induction l generalizing i with
  | nil => cases hi
  | cons c l ih =>
    obtain ⟨hc, hl⟩ := forall_mem_cons.mp h
    rw [flatMap_cons]
    cases i with
    | zero =>
      obtain rfl : c = b := by simpa using hi
      rw [Nat.zero_mul, drop_zero, ← hc, take_left]
    | succ i =>
      rw [Nat.succ_mul, Nat.add_comm, ← drop_drop, ← hc, drop_left, hc, ih hl hi]

variable {x : SeqDraft F} {method : VerifyMethod F} {u : ℕ → F} {k : ℕ}
  {paths : List (List ℕ)}

theorem evalFrom_length (row : ℕ) (path : List ℕ) :
    (x.evalFrom method u k row path).value.1.length ≤ path.length := by
  induction path generalizing row with
  | nil => simp [SeqDraft.evalFrom]
  | cons node path ih =>
    rw [evalFrom_cons]
    obtain ⟨_ | t, log⟩ := x.testNode method u k (dist x.v x.targetProbs row) node
    · exact Nat.succ_le_succ (ih (node + 1))
    · exact Nat.zero_le _

theorem scan_length (hpaths : ∀ p ∈ paths, p.length ≤ k) {best : Best}
    (hbest : best.nodes.length = best.len ∧ best.len ≤ k) :
    (scan x method u k paths best).value.nodes.length = (scan x method u k paths best).value.len ∧
      (scan x method u k paths best).value.len ≤ k := by
  induction paths generalizing best with
  | nil => exact hbest
  | cons path paths ih =>
    obtain ⟨hpath, hpaths⟩ := forall_mem_cons.mp hpaths
    unfold scan
    refine ih hpaths ?_
    simp only [Best.update]
    split_ifs
    · exact ⟨rfl, (evalFrom_length 0 path).trans hpath⟩
    · exact hbest

theorem verified_length (h : Paths k paths) :
    (verified x method u k paths).accepted.length = k + 1 := by
  unfold verified
  split_ifs with hk
  · simp [hk]
  · obtain ⟨hlen, hle⟩ := @scan_length F _ x method u k paths h.length_le .none ⟨rfl, Nat.zero_le k⟩
    simp only [length_append, length_map, length_cons, length_replicate, hlen]
    omega

end Rows

/-- The tokens that are returned for a sequence of a batch. -/
def VerifyOutput.tokens (out : VerifyOutput) (k seq : ℕ) : List ℕ :=
  ((out.accepted.drop (seq * (k + 1))).take (k + 1)).take (out.acceptLen.getD seq 0 + 1)

/-! ### The verification of a batch -/

namespace VerifyInput

variable {x : VerifyInput F} {draw : RngState → ℕ → F} {rngs : List RngState}
  {paths : List (List ℕ)}

/-- What is verified for each sequence of a batch. -/
def outcomes (x : VerifyInput F) (draw : RngState → ℕ → F) (paths : List (List ℕ)) :
    ℕ → List RngState → List Verified
  | _, [] => []
  | seq, rng :: rngs =>
    verified (x.seqDraft seq) x.method (draw rng) x.k paths :: outcomes x draw paths (seq + 1) rngs

theorem outcomes_getElem? (seq j : ℕ) :
    (x.outcomes draw paths seq rngs)[j]? =
      rngs[j]?.map fun rng => verified (x.seqDraft (seq + j)) x.method (draw rng) x.k paths := by
  induction rngs generalizing seq j with
  | nil => rfl
  | cons rng rngs ih =>
    cases j with
    | zero => rfl
    | succ j =>
      simp only [outcomes, getElem?_cons_succ]
      rw [ih, Nat.add_right_comm, Nat.add_assoc]

theorem verifyRows_spec (hpaths : Paths x.k paths) (seq : ℕ)
    (h : ∀ rng ∈ rngs, rng.drawIndex + (x.k + 1) < 2 ^ 32) :
    ∃ states, x.verifyRows draw paths seq rngs =
      ⟨.ok ⟨(x.outcomes draw paths seq rngs).flatMap (·.accepted),
        (x.outcomes draw paths seq rngs).map (·.acceptLen)⟩, states,
        (x.outcomes draw paths seq rngs).map (·.log)⟩ ∧
      rngs.Forall₂ (Advanced (x.k + 1)) states := by
  induction rngs generalizing seq with
  | nil => exact ⟨[], rfl, .nil⟩
  | cons rng rngs ih =>
    obtain ⟨hrng, hrngs⟩ := forall_mem_cons.mp h
    obtain ⟨states, heq, hstates⟩ := ih (seq + 1) hrngs
    obtain ⟨rng', hadv⟩ := @RngState.checkedAdvance_ok F rng (x.k + 1) "RngState::advance" hrng
    have hadv' : rng.advance (x.k + 1) = (.ok rng' : Except (T0Error F) _) := hadv
    unfold verifyRows
    simp only [@verifySeq_eq F _ _ _ _ _ _ _ hpaths, ok_bind, hadv', heq]
    exact ⟨_, rfl, .cons (advanced_of_eq_ok hadv) hstates⟩

/-- What is checked before a verification. -/
structure Accepts (x : VerifyInput F) (rngs : List RngState) : Prop where
  s_pos : 0 < x.s
  v_pos : 0 < x.v
  k_lt : x.k + 1 < 2 ^ 32
  tokens_length : x.draftTokens.length = x.s * x.k
  tokens_lt : ∀ t ∈ x.draftTokens, t < x.v
  draft_length : ∀ dp ∈ x.draftProbs, dp.length = x.s * x.k * x.v
  target_length : x.targetProbs.length = x.s * (x.k + 1) * x.v
  size_lt : x.s * (x.k + 1) * x.v < 2 ^ 64
  rngs_length : rngs.length = x.s
  method_ok : checkMethod x.method = .ok ()
  tree_length : ∀ t ∈ x.tree, t.parents.length = x.k
  draft_rows : ∀ dp ∈ x.draftProbs, x.checkRows x.k dp = .ok ()
  target_rows : x.checkRows (x.k + 1) x.targetProbs = .ok ()
  room : ∀ rng ∈ rngs, rng.drawIndex + (x.k + 1) < 2 ^ 32

omit [Scalar F] in
theorem checkDraftProbs_eq_ok {n : ℕ} {o : Option (List F)} {r : Unit} :
    x.checkDraftProbs n o = .ok r ↔
      ∀ dp ∈ o, n * x.v < 2 ^ 64 ∧ dp.length = n * x.v := by
  cases o with
  | none => simp [checkDraftProbs]
  | some dp =>
    simp only [checkDraftProbs, bind_eq_ok, okOr_eq_ok, mul_eq_some, ensure_eq_ok,
      Option.mem_def, Option.some.injEq, forall_eq']
    constructor
    · rintro ⟨_, ⟨hlt, rfl⟩, hlen⟩
      exact ⟨hlt, hlen⟩
    · rintro ⟨hlt, hlen⟩
      exact ⟨_, ⟨hlt, rfl⟩, hlen⟩

omit [Scalar F] in
theorem checkTree_eq_ok {o : Option TreeMask} {r : Unit} :
    x.checkTree o = .ok r ↔ ∀ t ∈ o, t.parents.length = x.k := by
  cases o with
  | none => simp [checkTree]
  | some t => simp [checkTree]

omit [Scalar F] in
theorem checkShapes_eq_ok {r : Unit} : x.checkShapes rngs = .ok r ↔
    0 < x.s ∧ 0 < x.v ∧ x.k + 1 < 2 ^ 32 ∧ x.draftTokens.length = x.s * x.k ∧
      (∀ t ∈ x.draftTokens, t < x.v) ∧ (∀ dp ∈ x.draftProbs, dp.length = x.s * x.k * x.v) ∧
      x.targetProbs.length = x.s * (x.k + 1) * x.v ∧ x.s * (x.k + 1) * x.v < 2 ^ 64 ∧
      rngs.length = x.s := by
  simp only [checkShapes, bind_eq_ok, okOr_eq_ok, mul_eq_some, add_eq_some, narrow_eq_some,
    ensure_eq_ok, forM_eq_ok, checkDraftProbs_eq_ok, Option.bind_eq_some_iff]
  constructor
  · rintro ⟨-, hpos, -, -, -, ⟨-, rfl⟩, -, ⟨hk, -⟩, -, ⟨-, rfl⟩, -, htokens, -, hlt, -, hdraft, -,
      ⟨-, ⟨-, rfl⟩, hsize, rfl⟩, -, htarget, hrngs⟩
    refine ⟨by omega, by omega, hk, htokens, fun t ht => ?_, fun dp hdp => (hdraft dp hdp).2,
      htarget, hsize, hrngs⟩
    obtain ⟨i, hi, rfl⟩ := getElem_of_mem ht
    exact hlt (x.draftTokens[i], i) (by simp [mem_zipIdx_iff_getElem?, hi])
  · rintro ⟨hs, hv, hk, htokens, hlt, hdraft, htarget, hsize, hrngs⟩
    have hsk : x.s * (x.k + 1) < 2 ^ 64 := lt_of_le_of_lt (Nat.le_mul_of_pos_right _ hv) hsize
    have hskk : x.s * x.k ≤ x.s * (x.k + 1) := Nat.mul_le_mul_left _ (by omega)
    have hskv : x.s * x.k * x.v ≤ x.s * (x.k + 1) * x.v := Nat.mul_le_mul_right _ hskk
    refine ⟨(), by omega, _, ⟨by omega, rfl⟩, _, ⟨by omega, rfl⟩, _, ⟨hk, rfl⟩, _,
      ⟨by omega, rfl⟩, (), htokens, (), fun p hp => ?_, (), fun dp hdp => ⟨by omega, hdraft dp hdp⟩,
      _, ⟨_, ⟨hsk, rfl⟩, hsize, rfl⟩, (), htarget, hrngs⟩
    exact hlt _ (fst_mem_of_mem_zipIdx hp)

theorem checkValues_eq_ok {r : Unit} : x.checkValues rngs = .ok r ↔
    checkMethod x.method = .ok () ∧ (∀ t ∈ x.tree, t.parents.length = x.k) ∧
      (∀ dp ∈ x.draftProbs, x.checkRows x.k dp = .ok ()) ∧
      x.checkRows (x.k + 1) x.targetProbs = .ok () ∧
      ∀ rng ∈ rngs, rng.drawIndex + (x.k + 1) < 2 ^ 32 := by
  simp only [checkValues, bind_eq_ok, checkTree_eq_ok, forM_eq_ok, Option.mem_toList,
    RngState.ensureCanAdvance_eq_ok]
  constructor
  · rintro ⟨⟨⟩, hmethod, ⟨⟩, htree, ⟨⟩, hdraft, ⟨⟩, htarget, hroom⟩
    exact ⟨hmethod, htree, hdraft, htarget, hroom⟩
  · rintro ⟨hmethod, htree, hdraft, htarget, hroom⟩
    exact ⟨(), hmethod, (), htree, (), hdraft, (), htarget, hroom⟩

theorem accepts_iff : (do x.checkShapes rngs; x.checkValues rngs : Except (T0Error F) Unit) = .ok () ↔
    x.Accepts rngs := by
  rw [bind_eq_ok]
  simp only [checkShapes_eq_ok, checkValues_eq_ok, exists_const]
  constructor
  · rintro ⟨⟨h₁, h₂, h₃, h₄, h₅, h₆, h₇, h₈, h₉⟩, h₁₀, h₁₁, h₁₂, h₁₃, h₁₄⟩
    exact ⟨h₁, h₂, h₃, h₄, h₅, h₆, h₇, h₈, h₉, h₁₀, h₁₁, h₁₂, h₁₃, h₁₄⟩
  · intro h
    exact ⟨⟨h.s_pos, h.v_pos, h.k_lt, h.tokens_length, h.tokens_lt, h.draft_length,
      h.target_length, h.size_lt, h.rngs_length⟩, h.method_ok, h.tree_length, h.draft_rows,
      h.target_rows, h.room⟩

theorem Accepts.paths_ok (h : x.Accepts rngs) : Paths x.k (pathsOf x.k x.tree) :=
  paths_pathsOf (by have := h.k_lt; omega) h.tree_length

/-- **A batch that is accepted is verified sequence by sequence.** -/
theorem Accepts.verify_eq (h : x.Accepts rngs) (draw : RngState → ℕ → F) :
    ∃ states, x.verify draw rngs =
      ⟨.ok ⟨(x.outcomes draw (pathsOf x.k x.tree) 0 rngs).flatMap (·.accepted),
        (x.outcomes draw (pathsOf x.k x.tree) 0 rngs).map (·.acceptLen)⟩, states,
        (x.outcomes draw (pathsOf x.k x.tree) 0 rngs).map (·.log)⟩ ∧
      rngs.Forall₂ (Advanced (x.k + 1)) states := by
  unfold verify
  rw [accepts_iff.mpr h]
  exact verifyRows_spec h.paths_ok 0 h.room

/-- **What an accepted batch returns for a sequence.** -/
theorem Accepts.output (h : x.Accepts rngs) (draw : RngState → ℕ → F) {seq : ℕ} {rng : RngState}
    (hrng : rngs[seq]? = some rng) :
    ∃ out, (x.verify draw rngs).result = .ok out ∧
      out.acceptLen.getD seq 0 = (verified (x.seqDraft seq) x.method (draw rng) x.k
        (pathsOf x.k x.tree)).acceptLen ∧
      (out.accepted.drop (seq * (x.k + 1))).take (x.k + 1) =
        (verified (x.seqDraft seq) x.method (draw rng) x.k (pathsOf x.k x.tree)).accepted ∧
      (x.verify draw rngs).logs.getD seq [] =
        (verified (x.seqDraft seq) x.method (draw rng) x.k (pathsOf x.k x.tree)).log := by
  obtain ⟨states, heq, -⟩ := h.verify_eq draw
  set outs := x.outcomes draw (pathsOf x.k x.tree) 0 rngs with houts
  have hget : outs[seq]? = some (verified (x.seqDraft seq) x.method (draw rng) x.k
      (pathsOf x.k x.tree)) := by
    rw [houts, outcomes_getElem?, hrng, Option.map_some, Nat.zero_add]
  have hrow : ∀ o ∈ outs, o.accepted.length = x.k + 1 := by
    intro o ho
    obtain ⟨j, hj⟩ := getElem?_of_mem ho
    rw [houts, outcomes_getElem?, Option.map_eq_some_iff] at hj
    obtain ⟨r, -, rfl⟩ := hj
    exact verified_length h.paths_ok
  rw [heq]
  refine ⟨_, rfl, ?_, take_drop_flatMap hrow hget, ?_⟩
  · simp [getD_eq_getElem?_getD, hget]
  · simp [getD_eq_getElem?_getD, hget]

/-- **A verification fails and changes nothing, or the batch is accepted.** -/
theorem verify_cases (x : VerifyInput F) (draw : RngState → ℕ → F) (rngs : List RngState) :
    (∃ e, x.verify draw rngs = ⟨.error e, rngs, []⟩) ∨ x.Accepts rngs := by
  cases hcheck : (do x.checkShapes rngs; x.checkValues rngs : Except (T0Error F) Unit) with
  | error e =>
    refine Or.inl ⟨e, ?_⟩
    unfold verify
    rw [hcheck]
  | ok _ => exact Or.inr (accepts_iff.mp hcheck)

end VerifyInput

end R9v

import R9v.T0.Verify

/-!
# Which draws are read

A call of `sample` or `verify` counts the draws that it reads, so that the next call reads
other ones – if it reads from where the count stands. `sample` does, but `verify` reads at
absolute positions: it reads each node at the node's own number and the last token at the
number of nodes, wherever the count stands. A run does not read a draw twice when the calls
that read so are made before the first draw of a step (`draws_not_reused`).
-/

namespace R9v

open List

variable {F : Type}

/-- The draws in a log. -/
def reads (log : List Mark) : List ℕ := log.filterMap Mark.draw?

@[simp] theorem reads_nil : reads [] = [] := rfl

@[simp] theorem reads_append (l l' : List Mark) : reads (l ++ l') = reads l ++ reads l' :=
  filterMap_append

/-- A call on one state. A batch has other states too. -/
inductive RngCall (F : Type)
  | advance (count : ℕ)
  | sample (before after : List RngState) (probs : List F) (s v : ℕ)
  | verify (before after : List RngState) (x : VerifyInput F)

/-- What a call does to one state: the state before it, the draws that it reads if it
succeeds, and the state after it. -/
structure CallRecord where
  before : RngState
  reads : List ℕ
  after : RngState

/-- The numbers that a call reads, by all that they depend on. -/
def CallRecord.uniforms (r : CallRecord) : List (UInt64 × UInt32 × UInt64 × ℕ) :=
  r.reads.map fun draw => (r.before.seed, r.before.seqWord, r.before.step, draw)

/-- Every draw that is read is counted by the call that reads it. -/
def CallRecord.Counted (r : CallRecord) : Prop :=
  ∀ draw ∈ r.reads, r.before.drawIndex ≤ draw ∧ draw < r.after.drawIndex

/-- What a call on a batch does to one of its states. -/
def Sampled.record {α : Type} (r : Sampled F α) (i : ℕ) (rng : RngState) : CallRecord where
  before := rng
  reads := match r.result with
    | .ok _ => R9v.reads (r.logs.getD i [])
    | .error _ => []
  after := r.states.getD i rng

variable [Scalar F]

namespace RngCall

variable (draw : RngState → ℕ → F)

/-- Makes a call. -/
def exec (rng : RngState) : RngCall F → CallRecord
  | .advance count =>
    match (rng.advance count : Except (T0Error F) RngState) with
    | .ok rng' => ⟨rng, [], rng'⟩
    | .error _ => ⟨rng, [], rng⟩
  | .sample before after probs s v =>
    (R9v.sample draw probs s v (before ++ rng :: after)).record before.length rng
  | .verify before after x => (x.verify draw (before ++ rng :: after)).record before.length rng

/-- Makes calls one after another. -/
def run : RngState → List (RngCall F) → List CallRecord
  | _, [] => []
  | rng, c :: calls => c.exec draw rng :: run (c.exec draw rng).after calls

/-- The absolute positions that a call reads from are those that it counts. -/
def Aligned (rng : RngState) : RngCall F → Prop
  | .advance _ | .sample _ _ _ _ _ => True
  | .verify _ _ x =>
    match x.method with
    | .rejection => rng.drawIndex = 0
    | .greedy => True
    | .typicalAcceptance _ _ => rng.drawIndex ≤ x.k

/-- All calls of a run are aligned. -/
def AlignedRun : RngState → List (RngCall F) → Prop
  | _, [] => True
  | rng, c :: calls => c.Aligned rng ∧ AlignedRun (c.exec draw rng).after calls

end RngCall

/-! ### What a verification reads -/

section Reads

variable {x : SeqDraft F} {method : VerifyMethod F} {u : ℕ → F} {k : ℕ}

/-- The draws that a method may read along nodes. -/
def VerifyMethod.MayRead (method : VerifyMethod F) (k : ℕ) (nodes : List ℕ) (draw : ℕ) : Prop :=
  match method with
  | .rejection => draw ∈ nodes ∨ draw = k
  | .greedy => False
  | .typicalAcceptance _ _ => draw = k

omit [Scalar F] in
theorem VerifyMethod.MayRead.mono {nodes nodes' : List ℕ} (hsub : nodes ⊆ nodes') {draw : ℕ}
    (h : method.MayRead k nodes draw) : method.MayRead k nodes' draw := by
  cases method with
  | rejection => exact Or.imp_left (fun hmem => hsub hmem) h
  | greedy => exact h
  | typicalAcceptance => exact h

theorem reads_bonus {draw : ℕ} {target : List F} :
    reads (SeqDraft.bonus method u draw target).log =
      if method matches .greedy then [] else [draw] := by
  cases method <;> rfl

theorem reads_replacement (target : List F) (node : ℕ) :
    reads (x.replacement u k target node).log = [k] := by
  simp only [SeqDraft.replacement]
  split <;> rfl

theorem mayRead_testNode (target : List F) (node : ℕ) :
    ∀ i ∈ reads (x.testNode method u k target node).log, method.MayRead k [node] i := by
  intro i hi
  cases method with
  | rejection =>
    simp only [SeqDraft.testNode] at hi
    rw [Drawn.log_bind, reads_append, mem_append] at hi
    rcases hi with hi | hi
    · exact Or.inl hi
    · split at hi
      · exact absurd hi (by simp)
      · rw [Drawn.log_bind, reads_append, reads_replacement] at hi
        exact Or.inr (by simpa using hi)
  | greedy => exact absurd hi (by simp [SeqDraft.testNode])
  | typicalAcceptance eps delta =>
    simp only [SeqDraft.testNode] at hi
    split at hi
    · exact absurd hi (by simp)
    · exact mem_singleton.mp hi

theorem mayRead_evalFrom (row : ℕ) (path : List ℕ) :
    ∀ i ∈ reads (x.evalFrom method u k row path).log, method.MayRead k path i := by
  induction path generalizing row with
  | nil =>
    intro i hi
    unfold SeqDraft.evalFrom at hi
    rw [Drawn.log_bind, reads_append, reads_bonus] at hi
    cases method with
    | rejection => exact Or.inr (by simpa using hi)
    | greedy => exact absurd hi (by simp)
    | typicalAcceptance => exact mem_singleton.mp (by simpa using hi)
  | cons node path ih =>
    intro i hi
    unfold SeqDraft.evalFrom at hi
    rw [Drawn.log_bind, reads_append, mem_append] at hi
    rcases hi with hi | hi
    · exact (mayRead_testNode _ node i hi).mono (by simp)
    · split at hi
      · exact absurd hi (by simp)
      · rw [Drawn.log_bind, reads_append, mem_append] at hi
        rcases hi with hi | hi
        · exact (ih _ i hi).mono (subset_cons_self _ _)
        · exact absurd hi (by simp)

theorem mayRead_scan {paths : List (List ℕ)} (best : Best) :
    ∀ i ∈ reads (scan x method u k paths best).log, method.MayRead k paths.flatten i := by
  induction paths generalizing best with
  | nil => exact fun i hi => absurd hi (by simp [scan])
  | cons path paths ih =>
    intro i hi
    unfold scan at hi
    rw [Drawn.log_bind, reads_append, mem_append] at hi
    rcases hi with hi | hi
    · exact (mayRead_evalFrom 0 path i hi).mono (by simp)
    · exact (ih _ i hi).mono (by simp)

/-- **A sequence reads the draws of its nodes and the one after them**, or only the latter,
or none, as the method is. -/
theorem mayRead_verified {paths : List (List ℕ)} (h : Paths k paths) :
    ∀ i ∈ reads (verified x method u k paths).log, method.MayRead k (List.range k) i := by
  intro i hi
  unfold verified at hi
  split_ifs at hi with hk
  · subst hk
    simp only [reads_bonus] at hi
    cases method with
    | rejection => exact Or.inr (by simpa using hi)
    | greedy => exact absurd hi (by simp)
    | typicalAcceptance => exact mem_singleton.mp (by simpa using hi)
  · refine (mayRead_scan _ i hi).mono fun j hj => ?_
    obtain ⟨p, hp, hj⟩ := mem_flatten.mp hj
    exact mem_range.mpr (h.lt p hp j hj)

end Reads

/-! ### Runs -/

section Run

variable {draw : RngState → ℕ → F} {rng : RngState}

theorem getD_append_cons {α : Type} (l l' : List α) (a b : α) :
    (l ++ a :: l').getD l.length b = a := by
  simp [getD_eq_getElem?_getD]

theorem forall₂_at {α : Type} {R : RngState → α → Prop} {before after : List RngState}
    {l : List α} (h : (before ++ rng :: after).Forall₂ R l) (b : α) :
    R rng (l.getD before.length b) := by
  have hlt : before.length < (before ++ rng :: after).length := by simp
  have hlt' : before.length < l.length := h.length_eq ▸ hlt
  have hget := (List.forall₂_iff_get.mp h).2 before.length hlt hlt'
  simpa [getD_eq_getElem?_getD, getElem?_eq_getElem hlt'] using hget

/-- A state only counts draws, and a call that is aligned counts the draws that it reads. -/
structure Steps (r : CallRecord) : Prop where
  drawIndex_le : r.before.drawIndex ≤ r.after.drawIndex
  seed : r.after.seed = r.before.seed
  seqWord : r.after.seqWord = r.before.seqWord
  step : r.after.step = r.before.step

theorem Advanced.steps {r : CallRecord} {count : ℕ} (h : Advanced count r.before r.after) :
    Steps r :=
  ⟨by rw [h.drawIndex]; omega, h.seed, h.seqWord, h.step⟩

theorem Steps.refl (l : List ℕ) : Steps ⟨rng, l, rng⟩ := ⟨le_rfl, rfl, rfl, rfl⟩

theorem steps_verify (before after : List RngState) (x : VerifyInput F) :
    Steps ((RngCall.verify before after x).exec draw rng) ∧
      ((RngCall.verify before after x).Aligned rng →
        ((RngCall.verify before after x).exec draw rng).Counted) := by
  simp only [RngCall.exec]
  rcases x.verify_cases draw (before ++ rng :: after) with ⟨e, heq⟩ | hacc
  · rw [heq]
    simp only [Sampled.record, getD_append_cons]
    exact ⟨.refl [], fun _ i hi => absurd hi (by simp)⟩
  · obtain ⟨states, heq, hstates⟩ := hacc.verify_eq draw
    rw [heq]
    have hadv := forall₂_at hstates rng
    refine ⟨Advanced.steps hadv, fun haligned i hi => ?_⟩
    simp only [Sampled.record, getD_eq_getElem?_getD, getElem?_map,
      VerifyInput.outcomes_getElem?, getElem?_append_right le_rfl, Nat.sub_self,
      getElem?_cons_zero, Option.map_some, Option.getD_some] at hi
    have hmay := mayRead_verified hacc.paths_ok i hi
    change rng.drawIndex ≤ i ∧ i < (states.getD before.length rng).drawIndex
    rw [hadv.drawIndex]
    simp only [RngCall.Aligned] at haligned
    unfold VerifyMethod.MayRead at hmay
    cases hmethod : x.method with
    | rejection =>
      rw [hmethod] at haligned hmay
      simp only [mem_range] at haligned hmay
      omega
    | greedy => rw [hmethod] at hmay; exact hmay.elim
    | typicalAcceptance =>
      rw [hmethod] at haligned hmay
      omega

/-- **One call only counts draws**, and counts those it reads if it is aligned. -/
theorem steps_exec (draw : RngState → ℕ → F) (rng : RngState) (c : RngCall F) :
    (c.exec draw rng).before = rng ∧ Steps (c.exec draw rng) ∧
      (c.Aligned rng → (c.exec draw rng).Counted) := by
  cases c with
  | advance count =>
    simp only [RngCall.exec]
    cases hadv : (rng.advance count : Except (T0Error F) RngState) with
    | error e => exact ⟨rfl, .refl [], fun _ i hi => absurd hi (by simp)⟩
    | ok rng' =>
      refine ⟨rfl, @Advanced.steps ⟨rng, [], rng'⟩ count (advanced_of_eq_ok hadv), ?_⟩
      exact fun _ i hi => absurd hi (by simp)
  | sample before after probs s v =>
    simp only [RngCall.exec]
    refine ⟨rfl, ?_⟩
    rcases sample_cases draw probs s v (before ++ rng :: after) with
      ⟨e, heq⟩ | ⟨tokens, states, logs, heq, hstates, hlogs⟩
    · rw [heq]
      simp only [Sampled.record, getD_append_cons]
      exact ⟨.refl [], fun _ i hi => absurd hi (by simp)⟩
    · rw [heq]
      have hadv := forall₂_at hstates rng
      refine ⟨Advanced.steps hadv, fun _ i hi => ?_⟩
      simp only [Sampled.record, forall₂_at hlogs []] at hi
      change rng.drawIndex ≤ i ∧ i < (states.getD before.length rng).drawIndex
      rw [hadv.drawIndex]
      obtain rfl : i = rng.drawIndex := mem_singleton.mp hi
      omega
  | verify before after x => exact ⟨rfl, steps_verify before after x⟩

theorem mem_run (calls : List (RngCall F)) {r : CallRecord}
    (hr : r ∈ RngCall.run draw rng calls) :
    rng.drawIndex ≤ r.before.drawIndex ∧ Steps r := by
  induction calls generalizing rng with
  | nil => cases hr
  | cons c calls ih =>
    obtain ⟨hbefore, hsteps, -⟩ := steps_exec draw rng c
    rcases mem_cons.mp hr with rfl | hr
    · exact ⟨by rw [hbefore], hsteps⟩
    · obtain ⟨hle, hr⟩ := ih hr
      have := hsteps.drawIndex_le
      rw [hbefore] at this
      exact ⟨this.trans hle, hr⟩

theorem counted_run (calls : List (RngCall F)) (h : RngCall.AlignedRun draw rng calls) :
    ∀ r ∈ RngCall.run draw rng calls, r.Counted := by
  induction calls generalizing rng with
  | nil => exact fun r hr => by cases hr
  | cons c calls ih =>
    intro r hr
    rcases mem_cons.mp hr with rfl | hr
    · exact (steps_exec draw rng c).2.2 h.1
    · exact ih h.2 r hr

/-- **Draws are not reused.** In a run in which every verification that reads at absolute
positions starts where these positions are counted, every call reads draws that it counts,
and no two calls read the same number. -/
theorem draws_not_reused (draw : RngState → ℕ → F) (rng : RngState) (calls : List (RngCall F))
    (h : RngCall.AlignedRun draw rng calls) :
    (∀ r ∈ RngCall.run draw rng calls, ∀ i ∈ r.reads,
      r.before.drawIndex ≤ i ∧ i < r.after.drawIndex) ∧
      (RngCall.run draw rng calls).Pairwise fun r r' => r.uniforms.Disjoint r'.uniforms := by
  refine ⟨counted_run calls h, ?_⟩
  induction calls generalizing rng with
  | nil => exact .nil
  | cons c calls ih =>
    refine .cons (fun r hr => ?_) (ih _ h.2)
    rintro ⟨_, _, _, i⟩ hi hi'
    obtain ⟨j, hj, hji⟩ := mem_map.mp hi
    obtain ⟨j', hj', hji'⟩ := mem_map.mp hi'
    obtain rfl : j = i := by simpa using congrArg (·.2.2.2) hji
    obtain rfl : j' = j := by simpa using congrArg (·.2.2.2) hji'
    have hlt := ((steps_exec draw rng c).2.2 h.1 j' hj).2
    have hle := (counted_run calls h.2 r hr j' hj').1
    have hmono := (mem_run calls hr).1
    omega

/-! ### Calls that are not aligned -/

section Misaligned

variable {x : SeqDraft F} {u : ℕ → F} {k : ℕ} {paths : List (List ℕ)} {path : List ℕ}

theorem reads_scan_of_mem {method : VerifyMethod F} (hpath : path ∈ paths) (best : Best) :
    reads (x.evalFrom method u k 0 path).log ⊆ reads (scan x method u k paths best).log := by
  induction paths generalizing best with
  | nil => cases hpath
  | cons p paths ih =>
    unfold scan
    rw [Drawn.log_bind, reads_append]
    rcases mem_cons.mp hpath with rfl | hpath
    · exact subset_append_left _ _
    · exact List.Subset.trans (ih hpath _) (subset_append_right _ _)

theorem mem_reads_rejection (row node : ℕ) :
    node ∈ reads (x.evalFrom .rejection u k row (node :: path)).log := by
  unfold SeqDraft.evalFrom
  rw [Drawn.log_bind, reads_append]
  refine mem_append_left _ ?_
  simp only [SeqDraft.testNode]
  exact mem_append_left _ (mem_singleton_self node)

theorem mem_reads_typical {eps delta : F} (row : ℕ) :
    k ∈ reads (x.evalFrom (.typicalAcceptance eps delta) u k row path).log := by
  induction path generalizing row with
  | nil => exact mem_singleton_self k
  | cons node path ih =>
    unfold SeqDraft.evalFrom
    rw [Drawn.log_bind, reads_append]
    simp only [SeqDraft.testNode]
    split_ifs
    · rw [Drawn.value_pure]
      refine mem_append_right _ ?_
      rw [Drawn.log_bind, reads_append]
      exact mem_append_left _ (ih (node + 1))
    · exact mem_append_left _ (mem_singleton_self k)

theorem exists_path_zero {k : ℕ} {tree : Option TreeMask} (hk : k < 2 ^ 32) (hpos : 0 < k)
    (htree : ∀ t ∈ tree, t.parents.length = k ∧ parentOf t.parents 0 = none) :
    ∃ path, 0 :: path ∈ pathsOf k tree := by
  cases tree with
  | none =>
    refine ⟨(List.range (k - 1)).map Nat.succ, ?_⟩
    simp only [pathsOf, if_pos hpos, mem_singleton]
    rw [← range_succ_eq_map, Nat.sub_add_cancel hpos]
  | some t =>
    obtain ⟨hlen, hroot⟩ := htree t rfl
    have hp : Parented t.parents := TreeMask.parented (hlen ▸ hk)
    obtain ⟨j, hj, l, hl, hprefix, hleaf⟩ :=
      (Forest.Lineage.root hroot).exists_leaf (fun j hj p h => (hp.2 j hj p h).1) (hlen ▸ hpos)
    obtain ⟨path, rfl⟩ := hprefix
    refine ⟨path, ?_⟩
    simp only [pathsOf, if_neg hpos.ne']
    exact (mem_treePaths hp (TreeMask.grounded (hlen ▸ hk))).mpr ⟨j, hj, hleaf, hl⟩

end Misaligned

end Run

/-- A verification of a token, and of no token. -/
def oneToken (method : VerifyMethod Float32) : VerifyInput Float32 where
  draftTokens := [1]
  draftProbs := none
  targetProbs := [0.5, 0.5, 0.25, 0.75]
  s := 1
  k := 1
  v := 2
  method := method
  tree := none

def noToken : VerifyInput Float32 where
  draftTokens := []
  draftProbs := none
  targetProbs := [0.5, 0.5]
  s := 1
  k := 0
  v := 2
  method := .rejection
  tree := none

/-- A step that verifies first, and then samples and skips draws. -/
def verifyFirst : List (RngCall Float32) :=
  [.verify [] [] (oneToken .rejection), .sample [] [] [0.5, 0.5] 1 2, .advance 3,
    .verify [] [] (oneToken .greedy)]

theorem draws_not_reused_small :
    (∀ r ∈ RngCall.run RngState.drawAt firstState verifyFirst, ∀ i ∈ r.reads,
      r.before.drawIndex ≤ i ∧ i < r.after.drawIndex) ∧
      (RngCall.run RngState.drawAt firstState verifyFirst).Pairwise fun r r' =>
        r.uniforms.Disjoint r'.uniforms :=
  draws_not_reused RngState.drawAt firstState verifyFirst ⟨rfl, trivial, trivial, trivial, trivial⟩

/-- A step that samples first. -/
def sampleFirst : List (RngCall Float32) :=
  [.sample [] [] [0.5, 0.5] 1 2, .verify [] [] noToken]

theorem sampleFirst_reads :
    (RngCall.run RngState.drawAt firstState sampleFirst).map (fun r => r.reads) = [[0], [0]] ∧
      (RngCall.run RngState.drawAt firstState sampleFirst).map (fun r => r.before.drawIndex) =
        [0, 1] := by
  decide

theorem sampleFirst_uniforms :
    (RngCall.run RngState.drawAt firstState sampleFirst).map (fun r => r.uniforms) =
      [[(42, 1, 0, 0)], [(42, 1, 0, 0)]] := by
  decide

/-- A verification after a sampling reads the draw of the sampling again. -/
theorem verify_after_sample :
    ¬(∀ r ∈ RngCall.run RngState.drawAt firstState sampleFirst, ∀ i ∈ r.reads,
      r.before.drawIndex ≤ i ∧ i < r.after.drawIndex) ∧
      ¬(RngCall.run RngState.drawAt firstState sampleFirst).Pairwise fun r r' =>
        r.uniforms.Disjoint r'.uniforms := by
  obtain ⟨hreads, hbefore⟩ := sampleFirst_reads
  have huniforms := sampleFirst_uniforms
  generalize RngCall.run RngState.drawAt firstState sampleFirst = l at *
  obtain _ | ⟨a, _ | ⟨b, _ | ⟨c, l⟩⟩⟩ := l
  all_goals simp only [map_cons, map_nil, List.cons.injEq, reduceCtorEq, and_false,
    and_true] at hreads hbefore huniforms
  constructor
  · intro h
    have hle := (h b (by simp) 0 (by simp [hreads.2])).1
    omega
  · intro h
    have hdisj := rel_of_pairwise_cons h (mem_singleton_self b)
    rw [huniforms.1, huniforms.2] at hdisj
    exact hdisj (mem_singleton_self _) (mem_singleton_self _)

end R9v

import R9v.T0.Exact

/-!
# The verification of a chain of draft tokens

Along a chain, rejection accepts the nodes up to the first one whose draw is not below its
bound (`Stops`), and replaces that one by a token from what is left of its distribution, or
adds a token after the last node (`evalFrom_chain`, `chain_verified`). The bounds are between
0 and 1, and a replacement is never the token that it replaces (`terminal_ne`), so that the
tokens that are returned tell how many nodes were accepted.
-/

namespace R9v

open Uniform Set

namespace SeqDraft

variable (x : SeqDraft ℝ)

/-- The distribution of the target after some nodes. -/
def row (j : ℕ) : List ℝ := dist x.v x.targetProbs j

/-- A node is accepted, after the nodes of a row, when its draw is below this. -/
noncomputable def boundAt (row node : ℕ) : ℝ :=
  acceptance ((x.row row).getD (x.token node) 0) (x.draftProb node (x.token node))

/-- The nodes of a chain are tested in their order. -/
noncomputable def bound (j : ℕ) : ℝ := x.boundAt j j

/-- The distribution that a replacement of a node is sampled from, after the nodes of a
row. -/
noncomputable def replacementDist (row node : ℕ) : List ℝ :=
  let res := x.residual (x.row row) node
  if 0 < res.sum then res.map (· * (1 / res.sum)) else x.row row

/-- The token after the accepted nodes of a chain of `k` nodes. -/
noncomputable def terminal (k a : ℕ) (r : ℝ) : ℕ :=
  sampleFromDistribution (if a < k then x.replacementDist a a else x.row k) r

/-- The distributions of a chain of `k` nodes. -/
structure Exact (k : ℕ) : Prop where
  row : ∀ j ≤ k, IsDist x.v (x.row j)
  draft : ∀ j < k, (∀ t < x.v, 0 ≤ x.draftProb j t) ∧
    ∑ t ∈ Finset.range x.v, x.draftProb j t = 1
  token : ∀ j < k, x.token j < x.v ∧ 0 < x.draftProb j (x.token j)

end SeqDraft

/-- The first `a` nodes of a chain of `k` nodes are accepted, and the next one is not. -/
structure Stops (x : SeqDraft ℝ) (u : ℕ → ℝ) (k a : ℕ) : Prop where
  le : a ≤ k
  passed : ∀ j < a, u j < x.bound j
  failed : a < k → x.bound a ≤ u a

section Node

variable {x : SeqDraft ℝ} {u : ℕ → ℝ} {k row node : ℕ} {path : List ℕ}

theorem evalFrom_of_lt (h : u node < x.boundAt row node) :
    x.evalFrom .rejection u k row (node :: path) =
      ⟨(node :: (x.evalFrom .rejection u k (node + 1) path).value.1,
        (x.evalFrom .rejection u k (node + 1) path).value.2),
        .read node :: (x.evalFrom .rejection u k (node + 1) path).log⟩ := by
  have htest : x.testNode .rejection u k (dist x.v x.targetProbs row) node =
      ⟨none, [.read node]⟩ := (testNode_rejection x u k node _).trans (if_pos (lt_real.mpr h))
  rw [evalFrom_cons, htest]
  rfl

theorem evalFrom_of_le (h : x.boundAt row node ≤ u node) :
    x.evalFrom .rejection u k row (node :: path) =
      ⟨([], (x.replacement u k (x.row row) node).value),
        .read node :: (x.replacement u k (x.row row) node).log⟩ := by
  have hnot : ¬Scalar.lt (u node) (x.boundAt row node) = true := by simpa using h
  have htest : x.testNode .rejection u k (dist x.v x.targetProbs row) node =
      ⟨some (x.replacement u k (x.row row) node).value,
        .read node :: (x.replacement u k (x.row row) node).log⟩ :=
    (testNode_rejection x u k node _).trans (if_neg hnot)
  rw [evalFrom_cons, htest]

end Node

section Chain

variable {x : SeqDraft ℝ} {u : ℕ → ℝ} {k : ℕ}

theorem exists_stops (x : SeqDraft ℝ) (u : ℕ → ℝ) (k : ℕ) : ∃ a, Stops x u k a := by
  induction k with
  | zero => exact ⟨0, le_rfl, by simp, by simp⟩
  | succ k ih =>
    obtain ⟨a, ha⟩ := ih
    rcases ha.le.lt_or_eq with hlt | rfl
    · exact ⟨a, by omega, ha.passed, fun _ => ha.failed hlt⟩
    · by_cases hbound : u a < x.bound a
      · refine ⟨a + 1, le_rfl, fun j hj => ?_, fun h => absurd h (lt_irrefl _)⟩
        rcases Nat.lt_succ_iff_lt_or_eq.mp hj with hj | rfl
        · exact ha.passed j hj
        · exact hbound
      · exact ⟨a, by omega, ha.passed, fun _ => not_lt.mp hbound⟩

/-- At least `i` nodes are accepted when the first `i` draws are below their bounds. -/
theorem Stops.le_iff {a i : ℕ} (h : Stops x u k a) (hi : i ≤ k) :
    i ≤ a ↔ ∀ j < i, u j < x.bound j := by
  constructor
  · exact fun hle j hj => h.passed j (by omega)
  · intro hall
    by_contra hlt
    have hle := h.failed (by omega)
    have hpass := hall a (by omega)
    linarith

theorem replacement_value (row node : ℕ) :
    (x.replacement u k (x.row row) node).value =
      sampleFromDistribution (x.replacementDist row node) (u k) := by
  simp only [SeqDraft.replacement, SeqDraft.replacementDist, foldl_real, isFinite_real,
    Bool.and_true, lt_real]
  split <;> rfl

theorem replacement_mark (j : ℕ) : Mark.zeroResidual ∈ (x.replacement u k (x.row j) j).log ↔
    ¬0 < (x.residual (x.row j) j).sum := by
  simp only [SeqDraft.replacement, foldl_real, isFinite_real, Bool.and_true, lt_real]
  split_ifs with h <;> simp [Drawn.read, h]

/-- **A chain is followed up to the node that is not accepted.** -/
theorem evalFrom_chain {a : ℕ} (h : Stops x u k a) (n i : ℕ) (hn : i + n = k) (hi : i ≤ a) :
    (x.evalFrom .rejection u k i (List.range' i n)).value =
        (List.range' i (a - i), x.terminal k a (u k)) ∧
      (Mark.zeroResidual ∈ (x.evalFrom .rejection u k i (List.range' i n)).log ↔
        a < k ∧ ¬0 < (x.residual (x.row a) a).sum) := by
  induction n generalizing i with
  | zero =>
    obtain rfl : i = k := by omega
    obtain rfl : a = i := le_antisymm h.le hi
    simp [SeqDraft.evalFrom, SeqDraft.bonus, SeqDraft.terminal, Drawn.read, SeqDraft.row]
  | succ n ih =>
    rw [List.range'_succ]
    rcases hi.lt_or_eq with hlt | rfl
    · obtain ⟨hvalue, hmark⟩ := ih (i + 1) (by omega) hlt
      rw [evalFrom_of_lt (h.passed i hlt), hvalue]
      refine ⟨?_, by simpa using hmark⟩
      rw [show a - i = a - (i + 1) + 1 by omega, List.range'_succ]
    · have hlt : i < k := by omega
      rw [evalFrom_of_le (h.failed hlt), replacement_value]
      refine ⟨?_, by simpa [hlt] using replacement_mark i⟩
      simp [SeqDraft.terminal, hlt]

end Chain

/-! ### Bounds and replacements -/

section Exact

variable {x : SeqDraft ℝ} {u : ℕ → ℝ} {k j : ℕ}

theorem boundAt_eq {row node : ℕ} (h : 0 < x.draftProb node (x.token node)) :
    x.boundAt row node = min ((x.row row).getD (x.token node) 0 / x.draftProb node (x.token node)) 1 := by
  exact if_pos (lt_real.mpr h)

theorem SeqDraft.Exact.bound_mem (h : x.Exact k) (hj : j < k) : 0 ≤ x.bound j ∧ x.bound j ≤ 1 := by
  obtain ⟨-, hpos⟩ := h.token j hj
  unfold SeqDraft.bound
  rw [boundAt_eq hpos]
  exact ⟨le_min (div_nonneg ((h.row j hj.le).getD_nonneg _) hpos.le) zero_le_one, min_le_right _ _⟩

theorem residual_getD (row : List ℝ) {t : ℕ} (ht : t < x.v) :
    (x.residual row j).getD t 0 = max (row.getD t 0 - x.draftProb j t) 0 := by
  simp [SeqDraft.residual, List.getD_eq_getElem?_getD, ht]

theorem residual_sum (row : List ℝ) : (x.residual row j).sum =
    ∑ t ∈ Finset.range x.v, max (row.getD t 0 - x.draftProb j t) 0 := by
  rw [← sum_range_getD]
  have hlen : (x.residual row j).length = x.v := by simp [SeqDraft.residual]
  rw [hlen]
  exact Finset.sum_congr rfl fun t ht => residual_getD row (Finset.mem_range.mp ht)

theorem residual_nonneg (row : List ℝ) : ∀ r ∈ x.residual row j, 0 ≤ r := by
  intro r hr
  obtain ⟨t, -, rfl⟩ := List.mem_map.mp hr
  exact le_max_right _ _

/-- **A replacement is sampled from a distribution.** -/
theorem isDist_replacementDist {row : ℕ} (hrow : IsDist x.v (x.row row)) (node : ℕ) :
    IsDist x.v (x.replacementDist row node) := by
  simp only [SeqDraft.replacementDist]
  split_ifs with hpos
  · refine ⟨by simp [SeqDraft.residual], fun r hr => ?_, ?_⟩
    · obtain ⟨r', hr', rfl⟩ := List.mem_map.mp hr
      exact mul_nonneg (residual_nonneg _ r' hr') (one_div_nonneg.mpr hpos.le)
    · rw [List.sum_map_mul_right, List.map_id', mul_one_div_cancel hpos.ne']
  · exact hrow

theorem replacementDist_getD {row node t : ℕ} (ht : t < x.v)
    (hne : ∑ s ∈ Finset.range x.v, max ((x.row row).getD s 0 - x.draftProb node s) 0 ≠ 0) :
    (x.replacementDist row node).getD t 0 = max ((x.row row).getD t 0 - x.draftProb node t) 0 /
      ∑ s ∈ Finset.range x.v, max ((x.row row).getD s 0 - x.draftProb node s) 0 := by
  have hpos : 0 < (x.residual (x.row row) node).sum := by
    rw [residual_sum]
    exact lt_of_le_of_ne (Finset.sum_nonneg fun s _ => le_max_right _ _) hne.symm
  simp only [SeqDraft.replacementDist]
  rw [if_pos hpos, ← residual_getD _ ht, ← residual_sum]
  simp [List.getD_eq_getElem?_getD, SeqDraft.residual, ht, div_eq_mul_inv]

/-- **Nothing is left to replace a token that is always accepted.** -/
theorem SeqDraft.Exact.residual_pos (h : x.Exact k) (hj : j < k) (hlt : x.bound j < 1) :
    0 < (x.residual (x.row j) j).sum := by
  obtain ⟨htok, hpos⟩ := h.token j hj
  have hless : (x.row j).getD (x.token j) 0 < x.draftProb j (x.token j) := by
    unfold SeqDraft.bound at hlt
    rw [boundAt_eq hpos, min_lt_iff, div_lt_one hpos] at hlt
    exact hlt.resolve_right (lt_irrefl _)
  have hsum : ∑ t ∈ Finset.range x.v, (x.row j).getD t 0 =
      ∑ t ∈ Finset.range x.v, x.draftProb j t := by
    rw [(h.row j hj.le).sum_range, (h.draft j hj).2]
  rw [residual_sum, ← sum_sub_min hsum]
  refine Finset.sum_pos' (fun t _ => sub_nonneg.mpr (min_le_right _ _)) ?_
  refine ⟨x.token j, Finset.mem_range.mpr htok, ?_⟩
  rw [min_eq_left hless.le]
  exact sub_pos.mpr hless

/-- **A replacement is not the token that it replaces.** -/
theorem terminal_ne (h : x.Exact k) (hv : x.v ≤ 2 ^ 32) {a : ℕ} (hstop : Stops x u k a)
    (ha : a < k) (hu : ∀ j ≤ k, u j ∈ Ioo (0 : ℝ) 1) : x.terminal k a (u k) ≠ x.token a := by
  intro heq
  have hlt : x.bound a < 1 := (hstop.failed ha).trans_lt (hu a ha.le).2
  have hpos := h.residual_pos ha hlt
  obtain ⟨htok, hq⟩ := h.token a ha
  have hsample := sample_pos (isDist_replacementDist (h.row a ha.le) a) hv (hu k le_rfl)
  simp only [SeqDraft.terminal, if_pos ha] at heq
  rw [heq, replacementDist_getD htok (by rw [← residual_sum]; exact hpos.ne')] at hsample
  have hzero : max ((x.row a).getD (x.token a) 0 - x.draftProb a (x.token a)) 0 = 0 := by
    unfold SeqDraft.bound at hlt
    rw [boundAt_eq hq, min_lt_iff, div_lt_one hq] at hlt
    exact max_eq_right (sub_nonpos.mpr (hlt.resolve_right (lt_irrefl _)).le)
  rw [hzero, zero_div] at hsample
  exact lt_irrefl _ hsample

end Exact

/-! ### What is returned for a chain -/

section Verified

variable {x : SeqDraft ℝ} {u : ℕ → ℝ} {k a : ℕ}

/-- A tree that is a chain, or no tree. -/
def IsChain (k : ℕ) (tree : Option TreeMask) : Prop :=
  ∀ t ∈ tree, t.parents = (List.range k).map fun i : ℕ => (i : ℤ) - 1

theorem isParent_chain (i : ℕ) :
    isParent ((List.range k).map fun i : ℕ => (i : ℤ) - 1) i = decide (i + 1 < k) := by
  rw [Bool.eq_iff_iff, decide_eq_true_iff]
  simp only [isParent, List.any_eq_true, List.mem_map, List.mem_range, decide_eq_true_eq]
  constructor
  · omega
  · intro h
    exact ⟨_, ⟨i + 1, h, rfl⟩, by omega⟩

theorem pathsOf_chain {tree : Option TreeMask} (hk : k < 2 ^ 32) (hpos : 0 < k)
    (h : IsChain k tree) : pathsOf k tree = [List.range k] := by
  cases tree with
  | none => simp only [pathsOf, if_pos hpos]
  | some t =>
    have hparents := h t rfl
    have hlen : t.parents.length = k := by rw [hparents]; simp
    have hleaves : (List.range k).filter (fun i => !isParent t.parents i) = [k - 1] := by
      obtain ⟨n, rfl⟩ : ∃ n, k = n + 1 := ⟨k - 1, by omega⟩
      simp only [hparents, isParent_chain]
      rw [List.range_succ, List.filter_append, List.filter_eq_nil_iff.mpr (by simp)]
      simp
    have hline : ∀ i < k, Forest.Lineage (parentOf t.parents) i (List.range (i + 1)) := by
      intro i hi
      induction i with
      | zero =>
        refine .root (parentOf_eq_none.mpr ?_)
        simp [hparents, List.getD_eq_getElem?_getD, hi]
      | succ i ih =>
        rw [List.range_succ]
        refine .child (parentOf_eq_some.mpr ?_) (ih (by omega))
        simp [hparents, List.getD_eq_getElem?_getD, hi]
    have hp := @TreeMask.parented t (hlen ▸ hk)
    have htrace := @tracePath_eq t.parents (k - 1) (k + 1) _ hp (hline (k - 1) (by omega)) (by omega)
      (by rw [List.length_range]; omega)
    simp only [pathsOf, if_neg hpos.ne', treePaths, hlen, hleaves, List.map_cons, List.map_nil]
    rw [asI32_of_lt (by have := hp.1; omega), htrace]
    simp [Nat.sub_add_cancel hpos]

/-- **What is returned for a chain**: the accepted tokens and one more. -/
theorem chain_verified {tree : Option TreeMask} (hk : k < 2 ^ 32) (htree : IsChain k tree)
    (h : Stops x u k a) :
    (verified x .rejection u k (pathsOf k tree)).accepted =
        (List.range a).map x.token ++ x.terminal k a (u k) :: List.replicate (k - a) 0 ∧
      (verified x .rejection u k (pathsOf k tree)).acceptLen = a ∧
      (Mark.zeroResidual ∈ (verified x .rejection u k (pathsOf k tree)).log ↔
        a < k ∧ ¬0 < (x.residual (x.row a) a).sum) := by
  obtain ⟨hvalue, hmark⟩ := evalFrom_chain h k 0 (by omega) (by omega)
  rw [← List.range_eq_range'] at hvalue hmark
  rw [Nat.sub_zero, ← List.range_eq_range'] at hvalue
  unfold verified
  split_ifs with hzero
  · subst hzero
    obtain rfl : a = 0 := Nat.le_zero.mp h.le
    simp [SeqDraft.bonus, SeqDraft.terminal, Drawn.read, SeqDraft.row]
  · rw [pathsOf_chain hk (by omega) htree]
    have hscan : scan x .rejection u k [List.range k] .none =
        ⟨⟨a, 0, List.range a, x.terminal k a (u k)⟩,
          (x.evalFrom .rejection u k 0 (List.range k)).log⟩ := by
      have hfirst : (List.range k).headD 0 = 0 := by cases k <;> simp [List.range_succ_eq_map]
      have hbest : 0 < a ∨ (a = 0 ∧ 0 < 2 ^ 64 - 1) := by omega
      simp only [scan, bind, hvalue, Best.update, Best.none, hfirst, List.length_range]
      rw [if_pos hbest, Drawn.value_pure, Drawn.log_pure, List.append_nil]
    rw [hscan]
    have hlt : a < 2 ^ 32 := h.le.trans_lt hk
    exact ⟨rfl, Nat.mod_eq_of_lt hlt, hmark⟩

end Verified

end R9v

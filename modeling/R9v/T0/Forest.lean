import R9v.T0.Rejection

/-!
# Forests of draft tokens

When the draft tokens branch, each path from a root to a leaf is verified on its own, and the
longest one is kept, or the one with the lowest root when several are as long (`Wins`). The
first token that is returned is the one at the root of this path if it is accepted, and else a
token from what is left of the target's distribution (`verified_first`).
-/

namespace R9v

open Uniform Set Forest

/-- A forest of draft tokens that are not drawn, in which siblings are different and some are
there. -/
structure ForestDraft (v : ℕ) where
  tree : TreeMask
  tokens : List ℕ
  length_eq : tokens.length = tree.parents.length
  lt : ∀ t ∈ tokens, t < v
  fits : ∀ t ∈ tokens, t < 2 ^ 32
  siblings : ∀ i < tree.parents.length, ∀ j < tree.parents.length, i ≠ j →
    parentOf tree.parents i = parentOf tree.parents j → tokens.getD i 0 ≠ tokens.getD j 0
  branching : ∃ i < tree.parents.length, ∃ j < tree.parents.length, i ≠ j ∧
    parentOf tree.parents i = parentOf tree.parents j

/-- The target's distributions: the one before all nodes, and those after each node. -/
structure TargetRows (v : ℕ) where
  probs : ℕ → List ℝ
  isDist : ∀ j, IsDist v (probs j)

namespace ForestDraft

variable {v : ℕ} (f : ForestDraft v)

/-- The number of nodes. -/
def k : ℕ := f.tree.parents.length

def token (node : ℕ) : ℕ := f.tokens.getD node 0

/-- A node without a parent. -/
def Root (node : ℕ) : Prop := node < f.k ∧ parentOf f.tree.parents node = none

/-- A node that is not a parent. -/
def Childless (node : ℕ) : Prop := Leaf f.k (parentOf f.tree.parents) node

/-- What is verified for a forest. -/
def draft (rows : TargetRows v) : SeqDraft ℝ where
  v := v
  tokens := f.tokens
  draftProbs := none
  targetProbs := (List.range (f.k + 1)).flatMap rows.probs

end ForestDraft

/-- Batches in which one sequence is a forest. The other sequences of the batches are as they
may. Every batch is accepted, and the draws of the sequence are `u`. -/
structure ForestBatches {v : ℕ} (f : ForestDraft v) (seq : ℕ) (x : TargetRows v → VerifyInput ℝ)
    (rngs : List RngState) (draw : (Fin (f.k + 1) → ℝ) → RngState → ℕ → ℝ) : Prop where
  k_eq : ∀ rows, (x rows).k = f.k
  method_eq : ∀ rows, (x rows).method = .rejection
  tree_eq : ∀ rows, (x rows).tree = some f.tree
  row_eq : ∀ rows, (x rows).seqDraft seq = f.draft rows
  accepted : ∀ rows u, ∃ out, ((x rows).verify (draw u) rngs).result = .ok out
  draws : ∃ rng, rngs[seq]? = some rng ∧ ∀ u (j : Fin (f.k + 1)), draw u rng j = u j

/-- The first token that a batch returns for the forest. -/
def FirstToken {v : ℕ} {f : ForestDraft v} (x : TargetRows v → VerifyInput ℝ)
    (rngs : List RngState) (draw : (Fin (f.k + 1) → ℝ) → RngState → ℕ → ℝ) (seq : ℕ)
    (rows : TargetRows v) (t : ℕ) (u : Fin (f.k + 1) → ℝ) : Prop :=
  ∃ out, ((x rows).verify (draw u) rngs).result = .ok out ∧
    (out.tokens f.k seq).head? = some t

/-! ### Paths -/

section Paths

variable {v : ℕ} {f : ForestDraft v}

/-- The paths that are verified. -/
def ForestDraft.Path (f : ForestDraft v) (r : ℕ) (rest : List ℕ) : Prop :=
  r :: rest ∈ treePaths f.tree.parents

variable (hk : f.k < 2 ^ 32)
include hk

theorem ForestDraft.mem_path {p : List ℕ} : p ∈ treePaths f.tree.parents ↔
    ∃ i < f.k, f.Childless i ∧ Lineage (parentOf f.tree.parents) i p :=
  mem_treePaths (TreeMask.parented hk) (TreeMask.grounded hk)

theorem ForestDraft.parent_lt : ∀ j < f.k, ∀ p, parentOf f.tree.parents j = some p → p < f.k :=
  fun j hj p h => ((TreeMask.parented hk).2 j hj p h).1

theorem ForestDraft.path_root {p : List ℕ} (hp : p ∈ treePaths f.tree.parents) :
    ∃ r rest, p = r :: rest ∧ f.Root r ∧ ∀ j ∈ p, j < f.k := by
  obtain ⟨i, hi, -, hline⟩ := (f.mem_path hk).mp hp
  obtain ⟨r, m, rfl, hr⟩ := hline.head_root
  have hlt := hline.mem_lt (f.parent_lt hk) hi
  exact ⟨r, m, rfl, ⟨hlt r List.mem_cons_self, hr⟩, hlt⟩

theorem ForestDraft.exists_path {r : ℕ} (hr : f.Root r) : ∃ rest, f.Path r rest := by
  obtain ⟨j, hj, l, hl, ⟨rest, rfl⟩, hleaf⟩ :=
    (Lineage.root hr.2).exists_leaf (f.parent_lt hk) hr.1
  exact ⟨rest, (f.mem_path hk).mpr ⟨j, hj, hleaf, hl⟩⟩

theorem ForestDraft.exists_path_child {r c : ℕ} (hr : f.Root r) (hc : c < f.k)
    (hparent : parentOf f.tree.parents c = some r) : ∃ rest, f.Path r (c :: rest) := by
  obtain ⟨j, hj, l, hl, ⟨rest, rfl⟩, hleaf⟩ :=
    (Lineage.child hparent (.root hr.2)).exists_leaf (f.parent_lt hk) hc
  exact ⟨rest, (f.mem_path hk).mpr ⟨j, hj, hleaf, hl⟩⟩

theorem ForestDraft.path_child {r c : ℕ} {rest : List ℕ} (h : f.Path r (c :: rest)) :
    c < f.k ∧ parentOf f.tree.parents c = some r := by
  obtain ⟨i, hi, -, hline⟩ := (f.mem_path hk).mp h
  exact ⟨hline.mem_lt (f.parent_lt hk) hi c (by simp), hline.parent_eq (List.nil_append _).symm⟩

theorem ForestDraft.path_childless {r : ℕ} {rest : List ℕ} (h : f.Path r rest)
    (hr : f.Childless r) : rest = [] := by
  obtain _ | ⟨c, rest⟩ := rest
  · rfl
  · obtain ⟨hc, hparent⟩ := f.path_child hk h
    exact absurd hparent (hr c hc)

end Paths

/-! ### The first token -/

section First

variable {v : ℕ} {f : ForestDraft v} {rows : TargetRows v} {u : ℕ → ℝ} {r node row : ℕ}
  {rest : List ℕ}

/-- The probability that the target has for a node after the nodes of a row. -/
def ForestDraft.chance (f : ForestDraft v) (rows : TargetRows v) (row node : ℕ) : ℝ :=
  (rows.probs row).getD (f.token node) 0

theorem draft_row (hrow : row ≤ f.k) : (f.draft rows).row row = rows.probs row := by
  exact take_drop_flatMap (fun i _ => (rows.isDist i).length_eq) (List.getElem?_range (by omega))

theorem draft_draftProb (t : ℕ) :
    (f.draft rows).draftProb node t = if t = f.token node then 1 else 0 := rfl

theorem draft_boundAt (hrow : row ≤ f.k) :
    (f.draft rows).boundAt row node = f.chance rows row node := by
  have hone : (f.draft rows).draftProb node ((f.draft rows).token node) = 1 := if_pos rfl
  rw [boundAt_eq (by rw [hone]; exact one_pos), hone, div_one, draft_row hrow]
  exact min_eq_left ((rows.isDist row).getD_le_one _)

/-- How many nodes of a path are accepted. -/
noncomputable def reached (f : ForestDraft v) (rows : TargetRows v) (u : ℕ → ℝ) (p : List ℕ) : ℕ :=
  ((f.draft rows).evalFrom .rejection u f.k 0 p).value.1.length

theorem eval_root_of_lt (h : u r < f.chance rows 0 r) :
    ((f.draft rows).evalFrom .rejection u f.k 0 (r :: rest)).value.1 =
      r :: ((f.draft rows).evalFrom .rejection u f.k (r + 1) rest).value.1 := by
  rw [evalFrom_of_lt (by rwa [draft_boundAt (Nat.zero_le _)])]

theorem eval_root_of_le (h : f.chance rows 0 r ≤ u r) :
    ((f.draft rows).evalFrom .rejection u f.k 0 (r :: rest)).value =
      ([], sampleFromDistribution ((f.draft rows).replacementDist 0 r) (u f.k)) := by
  rw [evalFrom_of_le (by rwa [draft_boundAt (Nat.zero_le _)]), replacement_value]

theorem reached_of_lt (h : u r < f.chance rows 0 r) : 0 < reached f rows u (r :: rest) := by
  unfold reached
  rw [eval_root_of_lt h]
  exact Nat.succ_pos _

theorem reached_of_le (h : f.chance rows 0 r ≤ u r) : reached f rows u (r :: rest) = 0 := by
  unfold reached
  rw [eval_root_of_le h]
  rfl

/-- The path that is kept: no path is longer, and none of the same length has a lower
root. -/
structure Wins (f : ForestDraft v) (rows : TargetRows v) (u : ℕ → ℝ) (r : ℕ) (rest : List ℕ) :
    Prop where
  path : f.Path r rest
  ahead : ∀ r' rest', f.Path r' rest' →
    reached f rows u (r' :: rest') < reached f rows u (r :: rest) ∨
      (reached f rows u (r' :: rest') = reached f rows u (r :: rest) ∧ r ≤ r')

/-- The token at the root of the path that is kept, or its replacement. -/
noncomputable def rootToken (f : ForestDraft v) (rows : TargetRows v) (u : ℕ → ℝ) (r : ℕ) : ℕ :=
  open scoped Classical in
  if u r < f.chance rows 0 r then f.token r
  else sampleFromDistribution ((f.draft rows).replacementDist 0 r) (u f.k)

/-- **The first token comes from the root of the path that is kept.** -/
theorem verified_first (hk : f.k < 2 ^ 32) (u : ℕ → ℝ) :
    ∃ r rest, Wins f rows u r rest ∧
      ((verified (f.draft rows) .rejection u f.k (pathsOf f.k (some f.tree))).accepted.take
        ((verified (f.draft rows) .rejection u f.k
          (pathsOf f.k (some f.tree))).acceptLen + 1)).head? = some (rootToken f rows u r) := by
  obtain ⟨i, hi, -⟩ := f.branching
  have hpos : 0 < f.k := lt_of_le_of_lt (Nat.zero_le i) hi
  have hpaths := @paths_treePaths f.tree hk
  have hheads : ∀ p ∈ treePaths f.tree.parents, p.headD 0 < 2 ^ 64 - 1 := by
    intro p hp
    obtain ⟨r, rest, rfl, hr, -⟩ := f.path_root hk hp
    have := hr.1
    simp only [List.headD_cons]
    omega
  obtain ⟨p, hp, hscan, hahead⟩ := @scan_best ℝ _ (f.draft rows) .rejection u f.k
    (treePaths f.tree.parents) (hpaths.exists_path hpos) hheads
  obtain ⟨r, rest, rfl, -, -⟩ := f.path_root hk hp
  refine ⟨r, rest, ⟨hp, fun r' rest' hpath => hahead _ hpath⟩, ?_⟩
  unfold verified
  simp only [pathsOf, if_neg hpos.ne', hscan, Best.of]
  unfold rootToken
  split_ifs with hlt
  · rw [eval_root_of_lt hlt]
    rfl
  · rw [eval_root_of_le (not_lt.mp hlt)]
    rfl

theorem Wins.accepted (hk : f.k < 2 ^ 32) (h : Wins f rows u r rest) {r' : ℕ} (hr' : f.Root r')
    (hlt : u r' < f.chance rows 0 r') : u r < f.chance rows 0 r := by
  obtain ⟨rest', hpath⟩ := f.exists_path hk hr'
  have hpos := @reached_of_lt v f rows u r' rest' hlt
  by_contra hle
  have hzero := @reached_of_le v f rows u r rest (not_lt.mp hle)
  have := h.ahead r' rest' hpath
  omega

theorem Wins.lowest (hk : f.k < 2 ^ 32) (h : Wins f rows u r rest)
    (hle : ∀ r', f.Root r' → f.chance rows 0 r' ≤ u r') {r' : ℕ} (hr' : f.Root r') : r ≤ r' := by
  obtain ⟨rest', hpath⟩ := f.exists_path hk hr'
  obtain ⟨_, _, heq, hroot, -⟩ := f.path_root hk h.path
  obtain ⟨rfl, rfl⟩ := List.cons.inj heq
  have hzero := @reached_of_le v f rows u r rest (hle r hroot)
  have := h.ahead r' rest' hpath
  omega

theorem Wins.root (hk : f.k < 2 ^ 32) (h : Wins f rows u r rest) : f.Root r := by
  obtain ⟨_, _, heq, hroot, -⟩ := f.path_root hk h.path
  obtain ⟨rfl, rfl⟩ := List.cons.inj heq
  exact hroot

theorem rootToken_of_lt (h : u r < f.chance rows 0 r) : rootToken f rows u r = f.token r := by
  exact if_pos h

theorem rootToken_of_le (h : f.chance rows 0 r ≤ u r) : rootToken f rows u r =
    sampleFromDistribution ((f.draft rows).replacementDist 0 r) (u f.k) := by
  exact if_neg (not_lt.mpr h)

theorem token_lt (hr : node < f.k) : f.token node < v := by
  have hlt : node < f.tokens.length := f.length_eq ▸ hr
  unfold ForestDraft.token
  rw [List.getD_eq_getElem?_getD, List.getElem?_eq_getElem hlt, Option.getD_some]
  exact f.lt _ (List.getElem_mem hlt)

theorem chance_nonneg (row node : ℕ) : 0 ≤ f.chance rows row node :=
  (rows.isDist row).getD_nonneg _

theorem isDist_replacement (node : ℕ) : IsDist v ((f.draft rows).replacementDist 0 node) :=
  isDist_replacementDist (by rw [@draft_row v f rows 0 (Nat.zero_le _)]; exact rows.isDist 0) node

theorem sum_left (hr : node < f.k) :
    ∑ s ∈ Finset.range v, max ((rows.probs 0).getD s 0 - if s = f.token node then 1 else 0) 0 =
      1 - f.chance rows 0 node := by
  have hmem : f.token node ∈ Finset.range v := Finset.mem_range.mpr (token_lt hr)
  have hsum : ∑ s ∈ Finset.range v, (rows.probs 0).getD s 0 =
      ∑ s ∈ Finset.range v, if s = f.token node then (1 : ℝ) else 0 := by
    rw [(rows.isDist 0).sum_range, Finset.sum_ite_eq' _ _ _, if_pos hmem]
  rw [← sum_sub_min hsum, Finset.sum_eq_single_of_mem _ hmem]
  · rw [if_pos rfl, min_eq_left ((rows.isDist 0).getD_le_one _)]
    rfl
  · intro s _ hne
    rw [if_neg hne, min_eq_right ((rows.isDist 0).getD_nonneg s), sub_zero]

theorem replacement_left (hr : node < f.k) {t : ℕ} (ht : t < v) (hlt : f.chance rows 0 node < 1) :
    ((f.draft rows).replacementDist 0 node).getD t 0 =
      (if t = f.token node then 0 else (rows.probs 0).getD t 0) / (1 - f.chance rows 0 node) := by
  have hleft : ∀ s, max (((f.draft rows).row 0).getD s 0 - (f.draft rows).draftProb node s) 0 =
      max ((rows.probs 0).getD s 0 - if s = f.token node then 1 else 0) 0 := by
    intro s
    rw [draft_row (Nat.zero_le _), draft_draftProb]
  have hsum : ∑ s ∈ Finset.range v,
      max (((f.draft rows).row 0).getD s 0 - (f.draft rows).draftProb node s) 0 =
      1 - f.chance rows 0 node := by
    rw [← sum_left hr]
    exact Finset.sum_congr rfl fun s _ => hleft s
  have hget := @replacementDist_getD (f.draft rows) 0 node t ht (by
    rw [show (f.draft rows).v = v from rfl, hsum]
    linarith)
  rw [hget, show (f.draft rows).v = v from rfl, hsum, hleft]
  congr 1
  split_ifs
  · exact max_eq_right (sub_nonpos.mpr ((rows.isDist 0).getD_le_one _))
  · rw [sub_zero]
    exact max_eq_left ((rows.isDist 0).getD_nonneg _)

/-- **One root alone is exact**: it is kept, or replaced by what is left. -/
theorem root_exact (hr : node < f.k) {t : ℕ} (ht : t < v) :
    (if f.token node = t then f.chance rows 0 node else 0) +
      (1 - f.chance rows 0 node) * ((f.draft rows).replacementDist 0 node).getD t 0 =
      (rows.probs 0).getD t 0 := by
  rcases ((rows.isDist 0).getD_le_one (f.token node)).eq_or_lt with hone | hlt
  · have hone : f.chance rows 0 node = 1 := hone
    rw [hone, sub_self, zero_mul, add_zero]
    split_ifs with heq
    · rw [← heq]
      exact hone.symm
    · have hrest := @sum_left v f rows node hr
      rw [hone, sub_self] at hrest
      have hzero := (Finset.sum_eq_zero_iff_of_nonneg fun s _ => le_max_right _ _).mp hrest t
        (Finset.mem_range.mpr ht)
      rw [if_neg (Ne.symm heq), sub_zero, max_eq_left ((rows.isDist 0).getD_nonneg t)] at hzero
      exact hzero.symm
  · have hne : 1 - f.chance rows 0 node ≠ 0 := (sub_pos.mpr hlt).ne'
    rw [replacement_left hr ht hlt, mul_div_cancel₀ _ hne]
    by_cases heq : f.token node = t
    · rw [if_pos heq, if_pos heq.symm, add_zero, ← heq]
      rfl
    · rw [if_neg heq, if_neg (Ne.symm heq), zero_add]

end First

end R9v

import R9v.T0.Alone
import R9v.T0.Chain

/-!
# Greedy verification is greedy decoding

A node is accepted greedily if its token is the one of the greatest probability in the row of its
parent. The nodes that are accepted are the longest path from a root of which this is true, and the
token that ends it is the one of the greatest probability after it (`greedy_decodes`). Where
siblings have different tokens there is one such path, so that what is returned is what decoding the
target alone would give.
-/

namespace R9v

open Checked Forest List

variable {F : Type} [Scalar F]

/-! ### The greatest entry -/

/-- Finite numbers are compared as the elements of an order are, up to those that are equal. -/
structure Compares (F : Type) [Scalar F] : Prop where
  asymm : ∀ {a b : F}, Scalar.isFinite a = true → Scalar.isFinite b = true →
    Scalar.lt a b = true → Scalar.lt b a = false
  cotrans : ∀ {a b c : F}, Scalar.isFinite a = true → Scalar.isFinite b = true →
    Scalar.isFinite c = true → Scalar.lt a c = true → Scalar.lt a b = true ∨ Scalar.lt b c = true

/-- The lowest index of a greatest entry. -/
structure IsArgmax (row : List F) (best : ℕ) : Prop where
  lt : best < row.length
  greatest : ∀ j < row.length, Scalar.lt (row.getD best 0) (row.getD j 0) = false
  lowest : ∀ j < best, Scalar.lt (row.getD j 0) (row.getD best 0) = true

section Argmax

variable {row seen rest : List F} {best : ℕ} {p : F}

theorem IsArgmax.unique {a b : ℕ} (ha : IsArgmax row a) (hb : IsArgmax row b) : a = b := by
  rcases Nat.lt_trichotomy a b with h | h | h
  · exact absurd ((hb.lowest a h).symm.trans (ha.greatest b hb.lt)) (by decide)
  · exact h
  · exact absurd ((ha.lowest b h).symm.trans (hb.greatest a ha.lt)) (by decide)

/-- One more entry is the greatest if it is greater than the greatest before it. -/
theorem IsArgmax.step (laws : Compares F) (hseen : ∀ q ∈ seen, Scalar.isFinite q = true)
    (hp : Scalar.isFinite p = true) (h : IsArgmax seen best) : IsArgmax (seen ++ [p])
      (if Scalar.lt (seen.getD best 0) p then seen.length else best) := by
  have hfinite : ∀ j < seen.length, Scalar.isFinite (seen.getD j 0) = true := by
    intro j hj
    rw [getD_eq_getElem _ _ hj]
    exact hseen _ (getElem_mem hj)
  have hold : ∀ j < seen.length, (seen ++ [p]).getD j 0 = seen.getD j 0 := fun j hj =>
    getD_append _ _ _ _ hj
  have hnew : (seen ++ [p]).getD seen.length 0 = p := by
    rw [getD_append_right _ _ _ _ le_rfl, Nat.sub_self]
    rfl
  have hlen : (seen ++ [p]).length = seen.length + 1 := length_append
  split
  · next hlt =>
    refine ⟨by omega, fun j hj => ?_, fun j hj => ?_⟩
    · rw [hnew]
      rcases Nat.lt_or_ge j seen.length with hj' | hj'
      · rw [hold j hj']
        by_contra hgt
        rw [Bool.not_eq_false] at hgt
        rcases laws.cotrans hp (hfinite best h.lt) (hfinite j hj') hgt with hback | hover
        · exact absurd (hback.symm.trans (laws.asymm (hfinite best h.lt) hp hlt)) (by decide)
        · exact absurd (hover.symm.trans (h.greatest j hj')) (by decide)
      · obtain rfl : j = seen.length := by omega
        rw [hnew]
        by_contra hgt
        rw [Bool.not_eq_false] at hgt
        exact absurd (hgt.symm.trans (laws.asymm hp hp hgt)) (by decide)
    · rw [hnew, hold j hj]
      refine (laws.cotrans (hfinite best h.lt) (hfinite j hj) hp hlt).resolve_left fun hover => ?_
      exact absurd (hover.symm.trans (h.greatest j hj)) (by decide)
  · next hle =>
    refine ⟨by have := h.lt; omega, fun j hj => ?_, fun j hj => ?_⟩
    · rw [hold best h.lt]
      rcases Nat.lt_or_ge j seen.length with hj' | hj'
      · rw [hold j hj']
        exact h.greatest j hj'
      · obtain rfl : j = seen.length := by omega
        rw [hnew]
        exact Bool.eq_false_of_not_eq_true hle
    · rw [hold best h.lt, hold j (hj.trans h.lt)]
      exact h.lowest j hj

theorem isArgmax_foldl (laws : Compares F) {x : F × ℕ}
    (hfinite : ∀ q ∈ seen ++ rest, Scalar.isFinite q = true) (h : IsArgmax seen x.2)
    (hx : x.1 = seen.getD x.2 0) : IsArgmax (seen ++ rest) ((rest.zipIdx seen.length).foldl
      (fun (best : F × ℕ) (x : F × ℕ) => if Scalar.lt best.1 x.1 then x else best) x).2 := by
  induction rest generalizing seen x with
  | nil => rwa [append_nil]
  | cons p rest ih =>
    have hp := hfinite p (mem_append_right _ mem_cons_self)
    have hstep := h.step laws (fun q hq => hfinite q (mem_append_left _ hq)) hp
    rw [append_cons, zipIdx_cons, foldl_cons]
    have hlen : seen.length + 1 = (seen ++ [p]).length := by
      rw [length_append, length_singleton]
    rw [hlen]
    refine ih (by rwa [← append_cons]) ?_ ?_
    · rw [hx]
      split
      · rwa [if_pos ‹_›] at hstep
      · rwa [if_neg ‹_›] at hstep
    · split
      · rw [getD_append_right _ _ _ _ le_rfl, Nat.sub_self]
        rfl
      · rw [getD_append _ _ _ _ h.lt, hx]

/-- **The token that is found** has the lowest index of a greatest entry. -/
theorem isArgmax_argmaxStable (laws : Compares F) (hne : row ≠ [])
    (hfinite : ∀ q ∈ row, Scalar.isFinite q = true) : IsArgmax row (argmaxStable row) := by
  obtain ⟨p, rest, rfl⟩ := exists_cons_of_ne_nil hne
  have hp := hfinite p mem_cons_self
  have hone : IsArgmax [p] 0 := by
    refine ⟨Nat.one_pos, fun j hj => ?_, fun j hj => absurd hj j.not_lt_zero⟩
    obtain rfl : j = 0 := Nat.lt_one_iff.mp hj
    by_contra hgt
    rw [Bool.not_eq_false] at hgt
    exact absurd (hgt.symm.trans (laws.asymm hp hp hgt)) (by decide)
  exact @isArgmax_foldl F _ [p] rest laws (p, 0) hfinite hone rfl

end Argmax

/-! ### The paths of a draft -/

/-- The parents of the nodes of a draft; without a tree each node is the child of the one before. -/
def forestOf (k : ℕ) : Option TreeMask → ℕ → Option ℕ
  | some tree => parentOf tree.parents
  | none => parentOf ((List.range k).map fun i : ℕ => (i : ℤ) - 1)

/-- The paths that are verified: they run from the roots to the leaves of a forest. -/
structure Spans (k : ℕ) (parent : ℕ → Option ℕ) (paths : List (List ℕ)) : Prop where
  parent_lt : ∀ j < k, ∀ p, parent j = some p → p < k
  grounded : Grounded k parent
  mem_iff : ∀ p, p ∈ paths ↔ ∃ i < k, Leaf k parent i ∧ Lineage parent i p

section Paths

variable {k : ℕ} {parent : ℕ → Option ℕ} {paths : List (List ℕ)}

theorem parentOf_range {i : ℕ} (hi : i < k) (j : ℕ) :
    parentOf ((List.range k).map fun i : ℕ => (i : ℤ) - 1) i = some j ↔ i = j + 1 := by
  rw [parentOf_eq_some, getD_eq_getElem _ _ (by simpa using hi), getElem_map,
    getElem_range]
  omega

theorem spans_range : Spans k (forestOf k none) (pathsOf k none) := by
  have hline : ∀ i < k, Lineage (forestOf k none) i (List.range (i + 1)) := by
    intro i hi
    induction i with
    | zero =>
      refine .root (Option.eq_none_iff_forall_ne_some.mpr fun p hp => ?_)
      exact absurd ((parentOf_range hi p).mp hp) (Nat.succ_ne_zero p).symm
    | succ i ih =>
      rw [range_succ]
      exact .child ((parentOf_range hi i).mpr rfl) (ih (Nat.lt_of_succ_lt hi))
  refine ⟨fun j hj p hp => ?_, fun i hi => ⟨_, hline i hi⟩, fun p => ?_⟩
  · have := (parentOf_range hj p).mp hp
    omega
  · rw [pathsOf]
    split
    · next hpos =>
      rw [mem_singleton]
      constructor
      · rintro rfl
        have hlast := hline (k - 1) (by omega)
        rw [Nat.sub_add_cancel hpos] at hlast
        refine ⟨k - 1, by omega, fun j hj hp => ?_, hlast⟩
        have := (parentOf_range hj _).mp hp
        omega
      · rintro ⟨i, hi, hleaf, hp⟩
        have hlast : i + 1 = k := by
          by_contra hne
          have hi' : i + 1 < k := by omega
          exact hleaf (i + 1) hi' ((parentOf_range hi' i).mpr rfl)
        rw [hp.unique (hline i hi), hlast]
    · next hzero =>
      refine iff_of_false not_mem_nil ?_
      omega

/-- **The paths that are verified** are the lines of the leaves. -/
theorem spans_pathsOf {tree : Option TreeMask} (hk : k < 2 ^ 32)
    (htree : ∀ t ∈ tree, t.parents.length = k) : Spans k (forestOf k tree) (pathsOf k tree) := by
  cases tree with
  | none => exact spans_range
  | some t =>
    have hlen := htree t rfl
    subst hlen
    have hp := TreeMask.parented hk
    refine ⟨fun j hj p h => (hp.2 j hj p h).1, TreeMask.grounded hk, fun p => ?_⟩
    rw [pathsOf]
    split
    · refine iff_of_false not_mem_nil ?_
      omega
    · exact mem_treePaths hp (TreeMask.grounded hk)

theorem TreeMask.tracePath_isSome {tree : TreeMask} (hk : tree.parents.length < 2 ^ 32) {i : ℕ}
    (hi : i < tree.parents.length) :
    (tracePath tree.parents (tree.parents.length + 1) (asI32 i)).isSome = true := by
  have hp := TreeMask.parented hk
  obtain ⟨l, hl⟩ := TreeMask.grounded hk i hi
  have hlen := hl.length_le (fun j hj p h => (hp.2 j hj p h).1) hi
  rw [asI32_of_lt (hi.trans hp.1), tracePath_eq hp hl hi (by omega)]
  rfl

theorem Spans.exists_mem (h : Spans k parent paths) {i : ℕ} (hi : i < k) : ∃ p ∈ paths, i ∈ p := by
  obtain ⟨l, hl⟩ := h.grounded i hi
  obtain ⟨j, hj, l', hl', hprefix, hleaf⟩ := hl.exists_leaf h.parent_lt hi
  exact ⟨l', (h.mem_iff l').mpr ⟨j, hj, hleaf, hl'⟩, hprefix.subset hl.mem_self⟩

/-- What goes down from a root is the start of a path. -/
theorem Spans.exists_prefix (h : Spans k parent paths) (hne : paths ≠ []) {l : List ℕ}
    (hl : Descends k parent none l) : ∃ p ∈ paths, l <+: p := by
  cases hend : endNode none l with
  | none =>
    cases l with
    | nil =>
      obtain ⟨p, _, rfl⟩ := exists_cons_of_ne_nil hne
      exact ⟨p, mem_cons_self, nil_prefix⟩
    | cons a l => exact absurd hend (endNode_some_ne_none a l)
  | some i =>
    obtain ⟨hi, hline⟩ := hl.lineage hend
    obtain ⟨j, hj, l', hl', hprefix, hleaf⟩ := hline.exists_leaf h.parent_lt hi
    exact ⟨l', (h.mem_iff l').mpr ⟨j, hj, hleaf, hl'⟩, hprefix⟩

theorem Spans.descends (h : Spans k parent paths) {p : List ℕ} (hp : p ∈ paths) :
    Descends k parent none p := by
  obtain ⟨i, hi, -, hline⟩ := (h.mem_iff p).mp hp
  exact (hline.descends h.parent_lt hi).1

end Paths

/-! ### What is accepted -/

/-- The row that predicts what comes after a node, or the first token. -/
def rowAfter (node : Option ℕ) : ℕ := node.elim 0 (· + 1)

/-- A token is the one of the greatest probability in a row, as a number of 32 bits. -/
def GreedyToken (x : SeqDraft F) (row tok : ℕ) : Prop :=
  ∃ best, IsArgmax (dist x.v x.targetProbs row) best ∧ tok = best % 2 ^ 32

/-- Each node of a path has the greedy token of the row of the node before it. -/
def Greedily (x : SeqDraft F) : Option ℕ → List ℕ → Prop
  | _, [] => True
  | node, c :: l => GreedyToken x (rowAfter node) (x.token c) ∧ Greedily x (some c) l

/-- The longest path from a root with the greedy tokens, and the greedy token after it. -/
structure GreedyPath (x : SeqDraft F) (k : ℕ) (parent : ℕ → Option ℕ) (nodes : List ℕ)
    (terminal : ℕ) : Prop where
  path : Descends k parent none nodes
  greedily : Greedily x none nodes
  longest : ∀ l, Descends k parent none l → Greedily x none l → l.length ≤ nodes.length
  terminal : GreedyToken x (rowAfter (endNode none nodes)) terminal

section Eval

variable {x : SeqDraft F} {k n : ℕ} {u : ℕ → F} {node : Option ℕ} {paths : List (List ℕ)}
  {parent : ℕ → Option ℕ}

theorem GreedyToken.unique {row a b : ℕ} (ha : GreedyToken x row a) (hb : GreedyToken x row b) :
    a = b := by
  obtain ⟨i, hi, rfl⟩ := ha
  obtain ⟨j, hj, rfl⟩ := hb
  rw [hi.unique hj]

/-- The rows that a draft of `k` nodes has each have a greatest entry, and it is found. -/
def Rowed (x : SeqDraft F) (k : ℕ) : Prop :=
  ∀ row ≤ k, IsArgmax (dist x.v x.targetProbs row) (argmaxStable (dist x.v x.targetProbs row))

theorem Rowed.greedyToken (h : Rowed x k) {row : ℕ} (hrow : row ≤ k) :
    GreedyToken x row (argmaxStable (dist x.v x.targetProbs row) % 2 ^ 32) := ⟨_, h row hrow, rfl⟩

theorem testNode_greedy (target : List F) (c : ℕ) : x.testNode .greedy u n target c =
    ⟨if argmaxStable target % 2 ^ 32 = x.token c then none
      else some (argmaxStable target % 2 ^ 32), []⟩ := rfl

/-- **A path is followed** as far as its nodes have the greedy tokens. -/
theorem evalFrom_greedy (hrows : Rowed x k) {path : List ℕ} (hpath : ∀ i ∈ path, i < k)
    (hnode : rowAfter node ≤ k) :
    ∃ nodes terminal, (x.evalFrom .greedy u n (rowAfter node) path).value = (nodes, terminal) ∧
      nodes <+: path ∧ Greedily x node nodes ∧
        GreedyToken x (rowAfter (endNode node nodes)) terminal ∧
      ∀ l, l <+: path → Greedily x node l → l.length ≤ nodes.length := by
  have htoken := hrows.greedyToken hnode
  induction path generalizing node with
  | nil =>
    refine ⟨[], _, rfl, prefix_rfl, trivial, htoken, fun l hl _ => ?_⟩
    rw [prefix_nil.mp hl]
  | cons c path ih =>
    obtain ⟨hc, hrest⟩ := forall_mem_cons.mp hpath
    rw [evalFrom_cons, testNode_greedy]
    by_cases heq : argmaxStable (dist x.v x.targetProbs (rowAfter node)) % 2 ^ 32 = x.token c
    · obtain ⟨nodes, terminal, hvalue, hprefix, hgreedily, hterminal, hlongest⟩ :=
        @ih (some c) hrest hc (hrows.greedyToken hc)
      change (x.evalFrom .greedy u n (c + 1) path).value = _ at hvalue
      rw [if_pos heq]
      refine ⟨c :: nodes, terminal, ?_, cons_prefix_cons.mpr ⟨rfl, hprefix⟩,
        ⟨heq ▸ htoken, hgreedily⟩, hterminal, fun l hl hf => ?_⟩
      · rw [hvalue]
      · cases l with
        | nil => exact Nat.zero_le _
        | cons a l =>
          obtain ⟨rfl, hrest⟩ := cons_prefix_cons.mp hl
          exact Nat.succ_le_succ (hlongest l hrest hf.2)
    · rw [if_neg heq]
      refine ⟨[], _, rfl, nil_prefix, trivial, htoken, fun l hl hf => ?_⟩
      cases l with
      | nil => exact le_rfl
      | cons a l =>
        obtain ⟨rfl, -⟩ := cons_prefix_cons.mp hl
        exact absurd (htoken.unique hf.1) heq

/-- **What a sequence is given**: the tokens of the longest greedy path, and one more. -/
theorem verified_greedy (hk : k < 2 ^ 32) (hrows : Rowed x k) (hpaths : Paths k paths)
    (hspans : Spans k parent paths) :
    ∃ nodes terminal, GreedyPath x k parent nodes terminal ∧ nodes.length ≤ k ∧
      (verified x .greedy u k paths).acceptLen = nodes.length ∧
      (verified x .greedy u k paths).accepted =
        nodes.map x.token ++ terminal :: List.replicate (k - nodes.length) 0 := by
  rcases Nat.eq_zero_or_pos k with rfl | hpos
  · refine ⟨[], argmaxStable (dist x.v x.targetProbs 0) % 2 ^ 32, ⟨trivial, trivial, ?_,
      hrows.greedyToken le_rfl⟩, le_rfl, rfl, rfl⟩
    rintro l hl -
    cases l with
    | nil => exact le_rfl
    | cons a l => exact absurd hl.1 a.not_lt_zero
  · have hne := hpaths.exists_path hpos
    have heval := fun p hp =>
        @evalFrom_greedy F _ x k k u none hrows p (hpaths.lt p hp) (Nat.zero_le k)
    obtain ⟨p, hp, hscan, hahead⟩ := @scan_best F _ x .greedy u k paths hne fun p hp => by
      obtain ⟨a, l, rfl⟩ := exists_cons_of_ne_nil (hpaths.ne_nil p hp)
      have := hpaths.lt _ hp a mem_cons_self
      simp only [headD_cons]
      omega
    obtain ⟨nodes, terminal, hvalue, hprefix, hgreedily, hterminal, -⟩ := heval p hp
    change (x.evalFrom .greedy u k 0 p).value = _ at hvalue
    have hbest : Best.of x .greedy u k p = ⟨nodes.length, p.headD 0, nodes, terminal⟩ := by
      rw [Best.of, hvalue]
    have hlen : nodes.length ≤ k := hprefix.length_le.trans (hpaths.length_le p hp)
    refine ⟨nodes, terminal, ⟨(hspans.descends hp).of_isPrefix hprefix, hgreedily, fun l hl hf => ?_,
      hterminal⟩, hlen, ?_, ?_⟩
    · -- a longer path would be the start of one that is ahead
      obtain ⟨q, hq, hlq⟩ := hspans.exists_prefix hne hl
      obtain ⟨nodes', terminal', hvalue', -, -, -, hlongest⟩ := heval q hq
      change (x.evalFrom .greedy u k 0 q).value = _ at hvalue'
      have hle := hahead q hq
      rw [hbest, Best.of, hvalue', Best.Ahead] at hle
      have := hlongest l hlq hf
      dsimp only at hle
      omega
    · rw [verified, if_neg hpos.ne']
      dsimp only
      rw [hscan, hbest]
      exact Nat.mod_eq_of_lt (hlen.trans_lt hk)
    · rw [verified, if_neg hpos.ne']
      dsimp only
      rw [hscan, hbest]

end Eval

/-! ### Plain decoding -/

/-- The tokens that greedy decoding gives after a node, for as long as it stays in the forest: each
is the greedy token of its row, and the next row is that of the child that has it. -/
inductive Decodes (x : SeqDraft F) (k : ℕ) (parent : ℕ → Option ℕ) : Option ℕ → List ℕ → Prop
  | stop {node : Option ℕ} {tok : ℕ} : GreedyToken x (rowAfter node) tok →
      (∀ c < k, parent c = node → x.token c ≠ tok) → Decodes x k parent node [tok]
  | step {node : Option ℕ} {tok c : ℕ} {toks : List ℕ} : GreedyToken x (rowAfter node) tok →
      c < k → parent c = node → x.token c = tok → Decodes x k parent (some c) toks →
      Decodes x k parent node (tok :: toks)

section Decode

variable {x : SeqDraft F} {k : ℕ} {parent : ℕ → Option ℕ} {node : Option ℕ} {toks toks' : List ℕ}

/-- Decoding is determined where siblings have different tokens. -/
theorem Decodes.unique
    (hdiffer : ∀ i < k, ∀ j < k, parent i = parent j → x.token i = x.token j → i = j)
    (h : Decodes x k parent node toks) (h' : Decodes x k parent node toks') : toks = toks' := by
  induction h generalizing toks' with
  | stop htok hno =>
    cases h' with
    | stop htok' => rw [htok.unique htok']
    | step htok' hc hparent hcarries =>
        exact absurd (hcarries.trans (htok'.unique htok)) (hno _ hc hparent)
  | step htok hc hparent hcarries _ ih =>
    cases h' with
    | stop htok' hno => exact absurd (hcarries.trans (htok.unique htok')) (hno _ hc hparent)
    | step htok' hc' hparent' hcarries' hrest =>
      have htoken := htok.unique htok'
      obtain rfl := hdiffer _ hc _ hc' (hparent.trans hparent'.symm)
        (hcarries.trans (htoken.trans hcarries'.symm))
      rw [htoken, ih hrest]

/-- A path with the greedy tokens that cannot go on is what decoding gives. -/
theorem decodes_of_greedily {terminal : ℕ} {nodes : List ℕ} (hpath : Descends k parent node nodes)
    (hgreedily : Greedily x node nodes)
      (hterminal : GreedyToken x (rowAfter (endNode node nodes)) terminal)
    (hno : ∀ c < k, parent c = endNode node nodes → x.token c ≠ terminal) :
    Decodes x k parent node (nodes.map x.token ++ [terminal]) := by
  induction nodes generalizing node with
  | nil => exact .stop hterminal hno
  | cons c nodes ih =>
    exact .step hgreedily.1 hpath.1 hpath.2.1 rfl (ih hpath.2.2 hgreedily.2 hterminal hno)

theorem greedily_append {l l' : List ℕ} (h : Greedily x node l) (h' : Greedily x (endNode node l) l') :
    Greedily x node (l ++ l') := by
  induction l generalizing node with
  | nil => exact h'
  | cons c l ih => exact ⟨h.1, ih h.2 h'⟩

/-- **The longest greedy path is what decoding gives.** -/
theorem GreedyPath.decodes_iff {nodes : List ℕ} {terminal : ℕ}
    (h : GreedyPath x k parent nodes terminal)
    (hdiffer : ∀ i < k, ∀ j < k, parent i = parent j → x.token i = x.token j → i = j) :
    Decodes x k parent none toks ↔ toks = nodes.map x.token ++ [terminal] := by
  have hdecodes := decodes_of_greedily h.path h.greedily h.terminal fun c hc hparent hcarries => by
    have hlen := h.longest (nodes ++ [c]) (descends_append.mpr ⟨h.path, hc, hparent, trivial⟩)
      (greedily_append h.greedily ⟨hcarries ▸ h.terminal, trivial⟩)
    rw [length_append, length_singleton] at hlen
    omega
  refine ⟨fun htoks => htoks.unique hdiffer hdecodes, ?_⟩
  rintro rfl
  exact hdecodes

end Decode

/-! ### Batches -/

namespace VerifyInput

variable {x : VerifyInput F} {rngs : List RngState} {seq : ℕ}

theorem finite_of_validate {l : List F} {op : String} {pos : ℕ} {r : Unit}
    (h : validateDistribution l op seq pos = .ok r) : ∀ p ∈ l, Scalar.isFinite p = true := by
  intro p hp
  simp only [validateDistribution, bind_eq_ok, forM_eq_ok] at h
  obtain ⟨-, hall, -⟩ := h
  obtain ⟨i, hi, rfl⟩ := getElem_of_mem hp
  have hcheck := ensure_eq_ok.mp (hall (l[i], i)
    (mem_zipIdx_iff_getElem?.mpr (getElem?_eq_getElem hi)))
  rw [Bool.and_eq_true] at hcheck
  exact hcheck.1

theorem Accepts.rowed (laws : Compares F) (h : x.Accepts rngs) (hseq : seq < x.s) :
    Rowed (x.seqDraft seq) x.k := by
  intro row hrow
  have hdist : dist x.v (x.seqDraft seq).targetProbs row =
      dist x.v x.targetProbs (seq * (x.k + 1) + row) := by
    have hrows := @getRow_getRow F x.targetProbs (x.k + 1) x.v seq row (Nat.lt_succ_of_le hrow)
    refine Eq.trans ?_ hrows
    rw [Postprocess.getRow, Postprocess.getRow, ← Nat.mul_assoc]
    rfl
  have hlen : (dist x.v x.targetProbs (seq * (x.k + 1) + row)).length = x.v := by
    refine length_getRow h.target_length ?_
    have := Nat.mul_le_mul_right (x.k + 1) (Nat.succ_le_of_lt hseq)
    rw [Nat.succ_mul] at this
    omega
  have hvalid := forM_eq_ok.mp (forM_eq_ok.mp h.target_rows seq (mem_range.mpr hseq)) row
    (mem_range.mpr (Nat.lt_succ_of_le hrow))
  change IsArgmax (dist x.v (x.seqDraft seq).targetProbs row)
    (argmaxStable (dist x.v (x.seqDraft seq).targetProbs row))
  rw [hdist]
  refine isArgmax_argmaxStable laws ?_ (finite_of_validate hvalid)
  rw [← length_pos_iff, hlen]
  exact h.v_pos

/-- The same batch with another tree, or without one. -/
def withTree (x : VerifyInput F) (tree : Option TreeMask) : VerifyInput F := { x with tree := tree }

theorem verifyRows_withTree (o o' : Option TreeMask) (draw : RngState → ℕ → F)
    (paths : List (List ℕ)) (seq : ℕ) : (x.withTree o).verifyRows draw paths seq rngs =
      (x.withTree o').verifyRows draw paths seq rngs := by
  induction rngs generalizing seq with
  | nil => rfl
  | cons rng rngs ih =>
    rw [verifyRows, verifyRows, ih]
    rfl

/-- **A tree that is a chain** changes nothing. -/
theorem verify_chain (x : VerifyInput F) (draw : RngState → ℕ → F) (rngs : List RngState)
    {tree : TreeMask} (htree : tree.parents = (List.range x.k).map fun i : ℕ => (i : ℤ) - 1) :
    (x.withTree (some tree)).verify draw rngs = (x.withTree none).verify draw rngs := by
  have hlen : tree.parents.length = x.k := by rw [htree, length_map, length_range]
  have hvalues : (x.withTree (some tree)).checkValues rngs =
      (x.withTree none).checkValues rngs := by
    have htreeOk : (x.withTree (some tree)).checkTree (some tree) =
        (x.withTree none).checkTree none := ensure_of hlen
    change (do checkMethod x.method; (x.withTree (some tree)).checkTree (some tree); _) = _
    rw [htreeOk]
    rfl
  have hchecks :
      (do (x.withTree (some tree)).checkShapes rngs; (x.withTree (some tree)).checkValues rngs :
        Except (T0Error F) Unit) =
      (do (x.withTree none).checkShapes rngs; (x.withTree none).checkValues rngs) := by
    rw [hvalues]
    rfl
  rw [verify, verify, hchecks]
  cases hcheck : (do (x.withTree none).checkShapes rngs; (x.withTree none).checkValues rngs :
      Except (T0Error F) Unit) with
  | error e => rfl
  | ok r =>
    have hk : x.k + 1 < 2 ^ 32 := (accepts_iff.mp hcheck).k_lt
    have hpaths : pathsOf x.k (some tree) = pathsOf x.k none := by
      rcases Nat.eq_zero_or_pos x.k with hzero | hpos
      · rw [pathsOf, pathsOf, if_pos hzero, if_neg (by omega)]
      · rw [pathsOf_chain (by omega) hpos fun t ht => Option.some.inj ht ▸ htree, pathsOf,
          if_pos hpos]
    change (x.withTree (some tree)).verifyRows draw (pathsOf x.k (some tree)) 0 rngs =
      (x.withTree none).verifyRows draw (pathsOf x.k none) 0 rngs
    rw [hpaths]
    exact verifyRows_withTree _ _ draw _ 0

/-- **Greedy verification is greedy decoding.** The walks that find the paths end, and the paths run
from the roots to the leaves and reach every node. What a sequence is given is the longest path from
a root whose nodes have the greedy tokens, and the greedy token after it; where siblings differ this
is what decoding gives along the forest. Without a tree the outcome is that of the chain. -/
theorem greedy_decodes (laws : Compares F) (x : VerifyInput F) (draw : RngState → ℕ → F)
    (rngs : List RngState) {out : VerifyOutput} (hmethod : x.method = .greedy)
    (hrun : (x.verify draw rngs).result = .ok out) :
    (∀ tree, x.tree = some tree → ∀ i < x.k,
      (tracePath tree.parents (x.k + 1) (asI32 i)).isSome = true) ∧
    Spans x.k (forestOf x.k x.tree) (pathsOf x.k x.tree) ∧
    (∀ i < x.k, ∃ p ∈ pathsOf x.k x.tree, i ∈ p) ∧
    (∀ seq < x.s, ∃ nodes terminal,
      GreedyPath (x.seqDraft seq) x.k (forestOf x.k x.tree) nodes terminal ∧
      out.acceptLen.getD seq 0 = nodes.length ∧
      out.tokens x.k seq = nodes.map (x.seqDraft seq).token ++ [terminal] ∧
      ((∀ i < x.k, ∀ j < x.k, forestOf x.k x.tree i = forestOf x.k x.tree j →
          (x.seqDraft seq).token i = (x.seqDraft seq).token j → i = j) →
        ∀ toks, Decodes (x.seqDraft seq) x.k (forestOf x.k x.tree) none toks ↔
          toks = out.tokens x.k seq)) ∧
    (x.v ≤ 2 ^ 32 → ∀ seq row tok, GreedyToken (x.seqDraft seq) row tok ↔
      IsArgmax (dist x.v (x.seqDraft seq).targetProbs row) tok) ∧
    ∀ tree : TreeMask, tree.parents = ((List.range x.k).map fun i : ℕ => (i : ℤ) - 1) →
      (x.withTree (some tree)).verify draw rngs = (x.withTree none).verify draw rngs := by
  rcases x.verify_cases draw rngs with ⟨e, he⟩ | h
  · rw [he] at hrun
    cases hrun
  have hk : x.k < 2 ^ 32 := by
    have := h.k_lt
    omega
  have hspans := spans_pathsOf hk h.tree_length
  refine ⟨fun tree htree i hi => ?_, hspans, fun i hi => hspans.exists_mem hi, fun seq hseq => ?_,
    fun hv seq row tok => ?_, fun tree htree => x.verify_chain draw rngs htree⟩
  · have hlen := h.tree_length tree htree
    rw [← hlen] at hk hi ⊢
    exact TreeMask.tracePath_isSome hk hi
  · obtain ⟨rng, hrng⟩ : ∃ rng, rngs[seq]? = some rng :=
      ⟨_, getElem?_eq_getElem (h.rngs_length ▸ hseq)⟩
    obtain ⟨out', hout, haccept, hrow, -⟩ := h.output draw hrng
    obtain rfl := Except.ok.inj (hout.symm.trans hrun)
    rw [hmethod] at haccept hrow
    obtain ⟨nodes, terminal, hgreedy, -, hacceptLen, haccepted⟩ :=
      @verified_greedy F _ _ _ (draw rng) _ _ hk (h.rowed laws hseq) h.paths_ok hspans
    have htokens : out'.tokens x.k seq = nodes.map (x.seqDraft seq).token ++ [terminal] := by
      rw [VerifyOutput.tokens, hrow, haccepted, haccept, hacceptLen, append_cons,
        take_left' (by simp)]
    refine ⟨nodes, terminal, hgreedy, haccept.trans hacceptLen, htokens, fun hdiffer toks => ?_⟩
    rw [htokens]
    exact hgreedy.decodes_iff hdiffer
  · have hmod : ∀ best, IsArgmax (dist x.v (x.seqDraft seq).targetProbs row) best →
        best % 2 ^ 32 = best := fun best hbest =>
      Nat.mod_eq_of_lt ((hbest.lt.trans_le (length_take_le _ _)).trans_le hv)
    constructor
    · rintro ⟨best, hbest, rfl⟩
      have hbest' : IsArgmax (dist x.v (x.seqDraft seq).targetProbs row) best := hbest
      rwa [hmod best hbest']
    · intro hbest
      exact ⟨tok, hbest, (hmod tok hbest).symm⟩

end VerifyInput

section Example

theorem Num.compares {A : Arithmetic} : Compares (Num A) where
  asymm := by
    intro a b _ _ h
    by_contra hback
    rw [Bool.not_eq_false] at hback
    exact Num.lawful.not_le_of_lt h (Num.lawful.lt_iff.mp hback).1
  cotrans := by
    intro a b c ha hb _ h
    have hnan : ∀ p : Num A, Scalar.isFinite p = true → p.isNaN = false := by
      intro p hp
      cases p <;> first | rfl | cases hp
    by_cases hab : Scalar.lt a b = true
    · exact Or.inl hab
    · exact Or.inr (Num.lawful.lt_of_le_of_lt
        (Num.lawful.le_of_not_lt (hnan a ha) (hnan b hb) hab) h)

/-- A root with two children, and another root. -/
def fourNodes : TreeMask where
  parents := [1, -1, 1, -1]
  tMax := 4
  ancestors := List.replicate 16 false
  valid := List.isEmpty_iff.mp (by decide)

/-- The second token is the likeliest everywhere. A root has it, and one of its children. -/
def fourDrafts : VerifyInput (Num .exact) where
  draftTokens := [1, 1, 2, 0]
  draftProbs := none
  targetProbs := (List.replicate 5 [.ofRat (1 / 4), .ofRat (1 / 2), .ofRat (1 / 4)]).flatten
  s := 1
  k := 4
  v := 3
  method := .greedy
  tree := some fourNodes

theorem fourDrafts_ok : (fourDrafts.verify half [firstState]).result.isOk = true := by
  decide +kernel

theorem greedy_decodes_four : ∃ out, (fourDrafts.verify half [firstState]).result = .ok out ∧
    ∀ toks, Decodes (fourDrafts.seqDraft 0) 4 (parentOf [1, -1, 1, -1]) none toks ↔
      toks = out.tokens 4 0 := by
  obtain ⟨out, hout⟩ := ok_of_isOk fourDrafts_ok
  obtain ⟨-, -, -, hseq, -⟩ :=
    VerifyInput.greedy_decodes Num.compares fourDrafts half [firstState] rfl hout
  obtain ⟨nodes, terminal, -, -, -, hdecodes⟩ := hseq 0 (by decide)
  exact ⟨out, hout, hdecodes (by decide)⟩

end Example

end R9v

import R9v.T0.Chain
import R9v.Lib.RandomWord

/-!
# The distribution of what is returned for a chain

Draft tokens are drawn one after another, each from a distribution that depends on the tokens
before it (`Proposer`), and verified against the distributions of a target (`Target`) with
independent uniform draws. Given that the first tokens that are returned are draft tokens, the
next one has the target's distribution (`chain_exact`): with the first nodes accepted, the draw
of the next node and the last draw decide about it as in rejection sampling
(`Uniform.rejection`).
-/

namespace R9v

open Uniform Set RandomWord

/-! ### Drafts -/

/-- The distributions of a target, which depend on the tokens so far. -/
structure Target (v : ℕ) where
  probs : List ℕ → List ℝ
  isDist : ∀ x, IsDist v (probs x)

/-- A proposer draws each token from a distribution that depends on the tokens so far. It
gives its distributions, or it has no choice. -/
structure Proposer (v : ℕ) where
  probs : List ℕ → List ℝ
  given : Bool
  isDist : ∀ x, IsDist v (probs x)
  oneHot : given = false → ∀ x, ∃ t < v, ∀ s, (probs x).getD s 0 = if s = t then 1 else 0

/-- The probability of the next token. -/
def Proposer.weight {v : ℕ} (proposer : Proposer v) (x : List ℕ) (t : ℕ) : ℝ :=
  (proposer.probs x).getD t 0

/-- What is verified for a draft. -/
def chainDraft {v : ℕ} (target : Target v) (proposer : Proposer v) (d : List ℕ) : SeqDraft ℝ where
  v := v
  tokens := d
  draftProbs := if proposer.given then
    some ((List.range d.length).flatMap fun i => proposer.probs (d.take i)) else none
  targetProbs := (List.range (d.length + 1)).flatMap fun i => target.probs (d.take i)

/-- The probability of what a draft and the draws decide. -/
noncomputable def law {v : ℕ} (proposer : Proposer v) (k : ℕ)
    (event : List ℕ → (Fin (k + 1) → ℝ) → Prop) : ℝ :=
  mean v proposer.weight k [] fun d => (cube (k + 1)).real {u | event d u}

section Draft

variable {v k : ℕ} {target : Target v} {proposer : Proposer v} {d : List ℕ}

/-- With which probability a token is accepted, after some tokens. -/
noncomputable def ratio (target : Target v) (proposer : Proposer v) (x : List ℕ) (t : ℕ) : ℝ :=
  SeqDraft.acceptance ((target.probs x).getD t 0) (proposer.weight x t)

theorem chainDraft_row {j : ℕ} (hj : j ≤ d.length) :
    (chainDraft target proposer d).row j = target.probs (d.take j) := by
  exact take_drop_flatMap (fun i _ => (target.isDist _).length_eq) (List.getElem?_range (by omega))

theorem chainDraft_token (j : ℕ) : (chainDraft target proposer d).token j = d.getD j 0 := rfl

theorem chainDraft_draftProb (h : Continues v proposer.weight [] k d) {j t : ℕ} (hj : j < k)
    (ht : t < v) :
    (chainDraft target proposer d).draftProb j t = proposer.weight (d.take j) t := by
  have hlen : d.length = k := by simpa using h.length_eq
  cases hgiven : proposer.given with
  | true =>
    simp only [SeqDraft.draftProb, chainDraft, hgiven, if_true]
    have hrow := @take_drop_flatMap ℝ ℕ v (List.range d.length)
      (fun i => proposer.probs (d.take i)) (fun i _ => (proposer.isDist _).length_eq) j j
      (List.getElem?_range (by omega))
    unfold Proposer.weight
    rw [← hrow]
    simp [List.getD_eq_getElem?_getD, ht]
  | false =>
    simp only [SeqDraft.draftProb, chainDraft, hgiven]
    obtain ⟨s, hs, hone⟩ := proposer.oneHot hgiven (d.take j)
    have hletter := h.letter (Nat.zero_le j) (by omega : j < d.length)
    have htok : d.getD j 0 = d[j] := by simp [List.getD_eq_getElem?_getD, hlen, hj]
    unfold Proposer.weight at hletter ⊢
    rw [hone] at hletter ⊢
    have hds : d[j] = s := by
      by_contra hne
      exact hletter (if_neg hne)
    change (if t = d.getD j 0 then (1 : ℝ) else 0) = _
    rw [htok, hds]

theorem chainDraft_exact (h : Continues v proposer.weight [] k d) :
    (chainDraft target proposer d).Exact k := by
  have hlen : d.length = k := by simpa using h.length_eq
  have htok : ∀ j < k, d.getD j 0 < v ∧ proposer.weight (d.take j) (d.getD j 0) ≠ 0 := by
    intro j hj
    have hget : d.getD j 0 = d[j] := by simp [List.getD_eq_getElem?_getD, hlen, hj]
    rw [hget]
    exact ⟨h.lt (by simp) _ (List.getElem_mem _), h.letter (Nat.zero_le j) (by omega)⟩
  refine ⟨fun j hj => ?_, fun j hj => ⟨fun t ht => ?_, ?_⟩, fun j hj => ?_⟩
  · rw [chainDraft_row (by omega)]
    exact target.isDist _
  · rw [chainDraft_draftProb h hj ht]
    exact (proposer.isDist _).getD_nonneg t
  · rw [← (proposer.isDist (d.take j)).sum_range]
    exact Finset.sum_congr rfl fun t ht => chainDraft_draftProb h hj (Finset.mem_range.mp ht)
  · obtain ⟨hlt, hne⟩ := htok j hj
    rw [chainDraft_token, chainDraft_draftProb h hj hlt]
    exact ⟨hlt, lt_of_le_of_ne ((proposer.isDist _).getD_nonneg _) hne.symm⟩

theorem chainDraft_bound (h : Continues v proposer.weight [] k d) {j : ℕ} (hj : j < k) :
    (chainDraft target proposer d).bound j = ratio target proposer (d.take j) (d.getD j 0) := by
  have hlen : d.length = k := by simpa using h.length_eq
  have hlt : d.getD j 0 < v := ((@chainDraft_exact v k target proposer d h).token j hj).1
  unfold SeqDraft.bound SeqDraft.boundAt ratio
  rw [chainDraft_row (by omega), chainDraft_token, chainDraft_draftProb h hj hlt]

end Draft

/-! ### Batches -/

/-- A draft of `k` tokens. -/
def Drafted (v k : ℕ) (d : List ℕ) : Prop := d.length = k ∧ ∀ t ∈ d, t < v

/-- Batches in which one sequence is a draft that is verified as a chain. The other sequences
of the batches are as they may. Every batch is accepted, and the draws of the sequence are
`u`. -/
structure ChainBatches {v : ℕ} (target : Target v) (proposer : Proposer v) (k seq : ℕ)
    (x : List ℕ → VerifyInput ℝ) (rngs : List RngState)
    (draw : (Fin (k + 1) → ℝ) → RngState → ℕ → ℝ) : Prop where
  k_eq : ∀ d, Drafted v k d → (x d).k = k
  method_eq : ∀ d, Drafted v k d → (x d).method = .rejection
  isChain : ∀ d, Drafted v k d → IsChain k (x d).tree
  row_eq : ∀ d, Drafted v k d → (x d).seqDraft seq = chainDraft target proposer d
  accepted : ∀ d, Drafted v k d → ∀ u, ∃ out, ((x d).verify (draw u) rngs).result = .ok out
  draws : ∃ rng, rngs[seq]? = some rng ∧ ∀ u (j : Fin (k + 1)), draw u rng j = u j

section Batch

variable {v k seq : ℕ} {target : Target v} {proposer : Proposer v}
  {x : List ℕ → VerifyInput ℝ} {rngs : List RngState}
  {draw : (Fin (k + 1) → ℝ) → RngState → ℕ → ℝ} {d : List ℕ} {u : Fin (k + 1) → ℝ} {a : ℕ}

/-- Some draws, continued beyond the last one. -/
noncomputable def extend (u : Fin (k + 1) → ℝ) (j : ℕ) : ℝ := if h : j < k + 1 then u ⟨j, h⟩ else 0

theorem extend_val (j : Fin (k + 1)) : extend u j = u j := dif_pos j.isLt

theorem Stops.of_draws {y : SeqDraft ℝ} {w : ℕ → ℝ} (h : Stops y (extend u) k a)
    (hw : ∀ j : Fin (k + 1), w j = u j) : Stops y w k a := by
  have heq : ∀ j ≤ k, w j = extend u j := fun j hj =>
    (hw ⟨j, by omega⟩).trans (extend_val ⟨j, by omega⟩).symm
  have hle := h.le
  refine ⟨hle, fun j hj => ?_, fun ha => ?_⟩
  · rw [heq j (by omega)]
    exact h.passed j hj
  · rw [heq a (by omega)]
    exact h.failed ha

theorem map_token (ha : a ≤ d.length) :
    (List.range a).map (chainDraft target proposer d).token = d.take a := by
  refine List.ext_getElem (by simpa using ha) fun i hi _ => ?_
  have hi : i < d.length := by simp at hi; omega
  simp [chainDraft_token, List.getD_eq_getElem?_getD, hi]

/-- **What a batch returns for the draft**: the tokens up to the node that is not accepted,
and one more. -/
theorem ChainBatches.output (h : ChainBatches target proposer k seq x rngs draw)
    (hd : Drafted v k d) (hstop : Stops (chainDraft target proposer d) (extend u) k a) :
    ∃ out, ((x d).verify (draw u) rngs).result = .ok out ∧ out.acceptLen.getD seq 0 = a ∧
      (out.accepted.drop (seq * (k + 1))).take (k + 1) = d.take a ++
        (chainDraft target proposer d).terminal k a (u (Fin.last k)) :: List.replicate (k - a) 0 ∧
      (Mark.zeroResidual ∈ ((x d).verify (draw u) rngs).logs.getD seq [] ↔ a < k ∧
        ¬0 < ((chainDraft target proposer d).residual
          ((chainDraft target proposer d).row a) a).sum) := by
  obtain ⟨rng, hrng, hdraw⟩ := h.draws
  have hk := h.k_eq d hd
  have hacc : (x d).Accepts rngs := by
    rcases (x d).verify_cases (draw u) rngs with ⟨e, heq⟩ | hacc
    · obtain ⟨out, hout⟩ := h.accepted d hd u
      rw [heq] at hout
      cases hout
    · exact hacc
  have hlt : k < 2 ^ 32 := by
    have := hacc.k_lt
    omega
  have hle : a ≤ d.length := hstop.le.trans hd.1.ge
  have hlast : draw u rng k = u (Fin.last k) := hdraw u (Fin.last k)
  obtain ⟨haccepted, hlen, hmark⟩ := chain_verified hlt (h.isChain d hd)
    (hstop.of_draws (hdraw u))
  obtain ⟨out, hout, hlen', hrow, hlog⟩ := hacc.output (draw u) hrng
  rw [h.row_eq d hd, h.method_eq d hd, hk] at hlen' hrow hlog
  refine ⟨out, hout, hlen'.trans hlen, ?_, by rw [hlog, hmark]⟩
  rw [hrow, haccepted, hlast, map_token hle]

/-- The tokens that a batch returns for the draft start with some tokens. -/
def ReturnsTokens (x : List ℕ → VerifyInput ℝ) (rngs : List RngState)
    (draw : (Fin (k + 1) → ℝ) → RngState → ℕ → ℝ) (seq : ℕ) (y : List ℕ) (d : List ℕ)
    (u : Fin (k + 1) → ℝ) : Prop :=
  ∃ out, ((x d).verify (draw u) rngs).result = .ok out ∧ y <+: out.tokens k seq

theorem ChainBatches.returns_iff (h : ChainBatches target proposer k seq x rngs draw)
    (hd : Drafted v k d) (hstop : Stops (chainDraft target proposer d) (extend u) k a)
    (y : List ℕ) :
    ReturnsTokens x rngs draw seq y d u ↔
      y <+: d.take a ++ [(chainDraft target proposer d).terminal k a (u (Fin.last k))] := by
  obtain ⟨out, hout, hlen, hrow, -⟩ := h.output hd hstop
  have hle : a ≤ d.length := hstop.le.trans hd.1.ge
  have htokens : out.tokens k seq = d.take a ++
      [(chainDraft target proposer d).terminal k a (u (Fin.last k))] := by
    unfold VerifyOutput.tokens
    have htake : (d.take a).length = a := by rw [List.length_take]; omega
    rw [hrow, hlen, List.take_append, htake, Nat.add_sub_cancel_left, List.take_succ_cons,
      List.take_zero, List.take_of_length_le (by omega)]
  constructor
  · rintro ⟨out', hout', hprefix⟩
    rw [hout] at hout'
    obtain rfl := Except.ok.inj hout'
    rwa [htokens] at hprefix
  · intro hprefix
    exact ⟨out, hout, htokens ▸ hprefix⟩

end Batch

/-! ### Probabilities -/

section Probability

variable {v k seq : ℕ} {target : Target v} {proposer : Proposer v}
  {x : List ℕ → VerifyInput ℝ} {rngs : List RngState}
  {draw : (Fin (k + 1) → ℝ) → RngState → ℕ → ℝ} {d y : List ℕ} {u : Fin (k + 1) → ℝ} {a t : ℕ}

theorem getElem?_of_initial {l l' : List ℕ} {i : ℕ} (h : l <+: l') (hi : i < l.length) :
    l[i]? = l'[i]? := by
  obtain ⟨s, rfl⟩ := h
  rw [List.getElem?_append_left hi]

theorem drafted_of_continues (hd : Continues v proposer.weight [] k d) : Drafted v k d :=
  ⟨by simpa using hd.length_eq, hd.lt (by simp)⟩

theorem extend_mem (hu : ∀ j, u j ∈ Ioo (0 : ℝ) 1) : ∀ j ≤ k, extend u j ∈ Ioo (0 : ℝ) 1 :=
  fun j hj => (extend_val (u := u) ⟨j, by omega⟩) ▸ hu ⟨j, by omega⟩

/-- The first tokens are those of the draft when their nodes are accepted. -/
theorem ChainBatches.returns_initial (h : ChainBatches target proposer k seq x rngs draw)
    (hv : v ≤ 2 ^ 32) (hd : Continues v proposer.weight [] k d)
    (hstop : Stops (chainDraft target proposer d) (extend u) k a)
    (hu : ∀ j, u j ∈ Ioo (0 : ℝ) 1) (hy : y <+: d) :
    ReturnsTokens x rngs draw seq y d u ↔ y.length ≤ a := by
  have hlen : d.length = k := by simpa using hd.length_eq
  rw [h.returns_iff (drafted_of_continues hd) hstop]
  constructor
  · intro hprefix
    by_contra hlt
    have hyk := hy.length_le
    have ha : a < k := by omega
    have hne := terminal_ne (chainDraft_exact hd) hv hstop ha (extend_mem hu)
    have htake : (d.take a).length = a := by rw [List.length_take]; omega
    have hda := getElem?_of_initial hy (by omega : a < y.length)
    have hterm := getElem?_of_initial hprefix (by omega : a < y.length)
    rw [hda, List.getElem?_append_right (by omega), htake, Nat.sub_self,
      List.getElem?_cons_zero] at hterm
    refine hne ?_
    rw [chainDraft_token, List.getD_eq_getElem?_getD, hterm, Option.getD_some]
    rw [show extend u k = u (Fin.last k) from extend_val (Fin.last k)]
  · intro hle
    refine List.IsPrefix.trans ?_ (List.prefix_append _ _)
    rw [List.prefix_iff_eq_take.mp hy]
    exact List.take_prefix_take_left hle

theorem ChainBatches.returns_next (h : ChainBatches target proposer k seq x rngs draw)
    (hv : v ≤ 2 ^ 32) (hd : Continues v proposer.weight [] k d)
    (hstop : Stops (chainDraft target proposer d) (extend u) k a)
    (hu : ∀ j, u j ∈ Ioo (0 : ℝ) 1) (hy : y <+: d) :
    ReturnsTokens x rngs draw seq (y ++ [t]) d u ↔
      (y.length < a ∧ d.getD y.length 0 = t) ∨
        (y.length = a ∧ (chainDraft target proposer d).terminal k a (u (Fin.last k)) = t) := by
  have hlen : d.length = k := by simpa using hd.length_eq
  have hle := hstop.le
  have htake : (d.take a).length = a := by rw [List.length_take]; omega
  have hfirst := h.returns_initial hv hd hstop hu hy
  rw [h.returns_iff (drafted_of_continues hd) hstop] at hfirst ⊢
  set tokens := d.take a ++ [(chainDraft target proposer d).terminal k a (u (Fin.last k))]
  have hsnoc : y ++ [t] <+: tokens ↔ y <+: tokens ∧ tokens[y.length]? = some t := by
    constructor
    · intro hprefix
      refine ⟨(List.prefix_append _ _).trans hprefix, ?_⟩
      rw [← getElem?_of_initial hprefix (by simp)]
      simp
    · rintro ⟨⟨s, hs⟩, hget⟩
      rw [← hs] at hget ⊢
      rw [List.getElem?_append_right le_rfl, Nat.sub_self] at hget
      obtain _ | ⟨b, s⟩ := s
      · cases hget
      · obtain rfl : b = t := by simpa using hget
        exact ⟨s, by simp⟩
  rw [hsnoc, hfirst]
  constructor
  · rintro ⟨hya, hget⟩
    rcases hya.lt_or_eq with hlt | heq
    · refine Or.inl ⟨hlt, ?_⟩
      rw [List.getElem?_append_left (by omega), List.getElem?_take_of_lt hlt] at hget
      rw [List.getD_eq_getElem?_getD, hget, Option.getD_some]
    · refine Or.inr ⟨heq, ?_⟩
      rw [List.getElem?_append_right (by omega), htake, heq, Nat.sub_self] at hget
      simpa using hget
  · rintro (⟨hlt, hget⟩ | ⟨heq, hterm⟩)
    · refine ⟨hlt.le, ?_⟩
      rw [List.getElem?_append_left (by omega), List.getElem?_take_of_lt hlt]
      rw [List.getD_eq_getElem?_getD, List.getElem?_eq_getElem (by omega), Option.getD_some] at hget
      rw [List.getElem?_eq_getElem (by omega), hget]
    · rw [List.getElem?_append_right (by omega), htake, heq, Nat.sub_self]
      simp [hterm]

/-- The probability that the first nodes are accepted. -/
noncomputable def passing (target : Target v) (proposer : Proposer v) (y : List ℕ) : ℝ :=
  ∏ j ∈ Finset.range y.length, ratio target proposer (y.take j) (y.getD j 0)

theorem passing_eq (hd : Continues v proposer.weight [] k d) (hy : y <+: d) :
    ∏ j ∈ Finset.range y.length, (chainDraft target proposer d).bound j =
      passing target proposer y := by
  have hlen : d.length = k := by simpa using hd.length_eq
  have hyk := hy.length_le
  refine Finset.prod_congr rfl fun j hj => ?_
  have hj := Finset.mem_range.mp hj
  obtain ⟨s, rfl⟩ := hy
  rw [chainDraft_bound hd (by omega), List.take_append_of_le_length (by omega),
    List.getD_append _ _ _ _ hj]

theorem stops_le_iff {y : SeqDraft ℝ} {i : ℕ} (hi : i ≤ k) (hstop : Stops y (extend u) k a) :
    i ≤ a ↔ ∀ j : Fin (k + 1), j.val < i → u j < y.bound j := by
  rw [hstop.le_iff hi]
  constructor
  · intro h j hj
    have hlt := h j hj
    rwa [extend_val] at hlt
  · intro h j hj
    exact (extend_val ⟨j, by omega⟩).trans_lt (h ⟨j, by omega⟩ hj)

/-- **The first nodes are accepted** with the product of their bounds. -/
theorem ChainBatches.prob_initial (h : ChainBatches target proposer k seq x rngs draw)
    (hv : v ≤ 2 ^ 32) (hd : Continues v proposer.weight [] k d) (hy : y <+: d) :
    (cube (k + 1)).real {u | ReturnsTokens x rngs draw seq y d u} = passing target proposer y := by
  have hlen : d.length = k := by simpa using hd.length_eq
  have hyk := hy.length_le
  rw [← passing_eq hd hy]
  have hside : (cube (k + 1)).real {u | ReturnsTokens x rngs draw seq y d u} =
      (cube (k + 1)).real {u | ∀ j : Fin (k + 1),
        u j ∈ if j.val < y.length then Iio ((chainDraft target proposer d).bound j) else univ} := by
    refine cube_congr fun u hu => ?_
    obtain ⟨a, hstop⟩ := exists_stops (chainDraft target proposer d) (extend u) k
    rw [mem_ofPred_eq, mem_ofPred_eq, h.returns_initial hv hd hstop hu hy,
      stops_le_iff (by omega) hstop]
    refine forall_congr' fun j => ?_
    split_ifs with hj
    · simp [hj]
    · simp [hj]
  rw [hside, @cube_sides (k + 1) fun j =>
    if j < y.length then Iio ((chainDraft target proposer d).bound j) else univ,
    ← Finset.prod_range_mul_prod_Ico _ (by omega : y.length ≤ k + 1)]
  have hrest : ∏ j ∈ Finset.Ico y.length (k + 1), unit.real
      (if j < y.length then Iio ((chainDraft target proposer d).bound j) else univ) = 1 := by
    refine Finset.prod_eq_one fun j hj => ?_
    rw [if_neg (by have := (Finset.mem_Ico.mp hj).1; omega), MeasureTheory.probReal_univ]
  rw [hrest, mul_one]
  refine Finset.prod_congr rfl fun j hj => ?_
  have hj := Finset.mem_range.mp hj
  obtain ⟨hnonneg, hle⟩ := (@chainDraft_exact v k target proposer d hd).bound_mem (j := j) (by omega)
  rw [if_pos hj, unit_Iio hnonneg hle]

/-- **The first nodes are accepted and the next token is decided**, when there is a next
node. -/
theorem ChainBatches.prob_next (h : ChainBatches target proposer k seq x rngs draw)
    (hv : v ≤ 2 ^ 32) (hd : Continues v proposer.weight [] k d) (hy : y <+: d) (ht : t < v)
    (hlt : y.length < k) :
    (cube (k + 1)).real {u | ReturnsTokens x rngs draw seq (y ++ [t]) d u} =
      passing target proposer y *
        ((if d.getD y.length 0 = t then (chainDraft target proposer d).bound y.length else 0) +
          (1 - (chainDraft target proposer d).bound y.length) *
            ((chainDraft target proposer d).replacementDist y.length y.length).getD t 0) := by
  have hexact := @chainDraft_exact v k target proposer d hd
  have hdist := isDist_replacementDist (hexact.row y.length hlt.le) y.length
  rw [← passing_eq hd hy, ← unit_interval hdist t, ← cube_choice hlt
    (fun j hj => hexact.bound_mem (by omega)) (hexact.bound_mem hlt) (d.getD y.length 0 = t)
    measurableSet_Ioc]
  refine cube_congr fun u hu => ?_
  obtain ⟨a, hstop⟩ := exists_stops (chainDraft target proposer d) (extend u) k
  rw [mem_ofPred_eq, mem_ofPred_eq, h.returns_next hv hd hstop hu hy, ← stops_le_iff hlt.le hstop]
  have hnext : y.length < a ↔ y.length ≤ a ∧
      u ⟨y.length, by omega⟩ < (chainDraft target proposer d).bound y.length := by
    rw [← Nat.succ_le_iff, stops_le_iff hlt hstop, stops_le_iff hlt.le hstop]
    constructor
    · intro hall
      exact ⟨fun j hj => hall j (by omega), hall ⟨y.length, by omega⟩ (Nat.lt_succ_self _)⟩
    · rintro ⟨hall, hlast⟩ j hj
      rcases Nat.lt_succ_iff_lt_or_eq.mp hj with hj | hj
      · exact hall j hj
      · rw [show j = ⟨y.length, by omega⟩ from Fin.ext hj]
        exact hlast
  have hterm : y.length = a → ((chainDraft target proposer d).terminal k a (u (Fin.last k)) = t ↔
      u (Fin.last k) ∈ Ioc (((chainDraft target proposer d).replacementDist y.length y.length).take t).sum
        (((chainDraft target proposer d).replacementDist y.length y.length).take (t + 1)).sum) := by
    rintro rfl
    simp only [SeqDraft.terminal, if_pos hlt]
    rw [sampleFromDistribution_eq hdist hv (hu _)]
    exact and_iff_right ht
  constructor
  · rintro (⟨hya, htok⟩ | ⟨heq, htok⟩)
    · exact ⟨hya.le, Or.inl ⟨(hnext.mp hya).2, htok⟩⟩
    · refine ⟨heq.le, Or.inr ⟨?_, (hterm heq).mp htok⟩⟩
      by_contra hbelow
      have := hnext.mpr ⟨heq.le, not_le.mp hbelow⟩
      omega
  · rintro ⟨hya, ⟨hbelow, htok⟩ | ⟨habove, hmem⟩⟩
    · exact Or.inl ⟨hnext.mpr ⟨hya, hbelow⟩, htok⟩
    · have heq : y.length = a := by
        refine le_antisymm hya (not_lt.mp fun hlt' => ?_)
        exact absurd (hnext.mp hlt').2 (not_lt.mpr habove)
      exact Or.inr ⟨heq, (hterm heq).mpr hmem⟩

/-- **All nodes are accepted and the last token is decided.** -/
theorem ChainBatches.prob_last (h : ChainBatches target proposer k seq x rngs draw)
    (hv : v ≤ 2 ^ 32) (hd : Continues v proposer.weight [] k d) (ht : t < v) :
    (cube (k + 1)).real {u | ReturnsTokens x rngs draw seq (d ++ [t]) d u} =
      passing target proposer d * (target.probs d).getD t 0 := by
  have hlen : d.length = k := by simpa using hd.length_eq
  have hexact := @chainDraft_exact v k target proposer d hd
  have hrow : (chainDraft target proposer d).row k = target.probs d := by
    rw [chainDraft_row hlen.ge, ← hlen, List.take_length]
  rw [← passing_eq hd List.prefix_rfl, ← unit_interval (target.isDist d) t, hlen,
    ← cube_box_last (fun j hj => hexact.bound_mem hj)]
  refine cube_congr fun u hu => ?_
  obtain ⟨a, hstop⟩ := exists_stops (chainDraft target proposer d) (extend u) k
  rw [mem_ofPred_eq, mem_ofPred_eq, h.returns_next hv hd hstop hu List.prefix_rfl,
    ← stops_le_iff le_rfl hstop, hlen]
  have hle := hstop.le
  have hterm : k = a → ((chainDraft target proposer d).terminal k a (u (Fin.last k)) = t ↔
      u (Fin.last k) ∈ Ioc ((target.probs d).take t).sum ((target.probs d).take (t + 1)).sum) := by
    rintro rfl
    simp only [SeqDraft.terminal, lt_irrefl, if_false, hrow]
    rw [sampleFromDistribution_eq (target.isDist d) hv (hu _)]
    exact and_iff_right ht
  constructor
  · rintro (⟨hlt, -⟩ | ⟨heq, htok⟩)
    · omega
    · exact ⟨heq.le, (hterm heq).mp htok⟩
  · rintro ⟨hka, hmem⟩
    have heq : k = a := le_antisymm hka hle
    exact Or.inr ⟨heq, (hterm heq).mpr hmem⟩

theorem sum_weight (proposer : Proposer v) (x : List ℕ) :
    ∑ t ∈ Finset.range v, proposer.weight x t = 1 := (proposer.isDist x).sum_range

theorem weight_mul_ratio (target : Target v) (proposer : Proposer v) (y : List ℕ) (s : ℕ) :
    proposer.weight y s * ratio target proposer y s =
      min ((target.probs y).getD s 0) (proposer.weight y s) := by
  have hnonneg : 0 ≤ proposer.weight y s := (proposer.isDist y).getD_nonneg s
  rcases hnonneg.eq_or_lt with hzero | hpos
  · rw [← hzero, zero_mul, min_eq_right ((target.isDist y).getD_nonneg s)]
  · unfold ratio SeqDraft.acceptance
    rw [if_pos (lt_real.mpr hpos), min_real, mul_min_of_nonneg _ _ hnonneg,
      mul_div_cancel₀ _ hpos.ne', mul_one]

/-- The probability of a token as a replacement, when something is left to replace it by. -/
noncomputable def replacing (target : Target v) (proposer : Proposer v) (y : List ℕ) (t : ℕ) : ℝ :=
  max ((target.probs y).getD t 0 - proposer.weight y t) 0 /
    ∑ s ∈ Finset.range v, max ((target.probs y).getD s 0 - proposer.weight y s) 0

theorem one_sub_mul_replacement (hd : Continues v proposer.weight [] k d) {j : ℕ} (hj : j < k)
    (ht : t < v) :
    (1 - (chainDraft target proposer d).bound j) *
        ((chainDraft target proposer d).replacementDist j j).getD t 0 =
      (1 - (chainDraft target proposer d).bound j) *
        replacing target proposer (d.take j) t := by
  have hlen : d.length = k := by simpa using hd.length_eq
  have hexact := @chainDraft_exact v k target proposer d hd
  rcases (hexact.bound_mem hj).2.eq_or_lt with hone | hlt
  · rw [hone, sub_self, zero_mul, zero_mul]
  · have hpos := hexact.residual_pos hj hlt
    have hleft : ∀ s ∈ Finset.range v,
        max (((chainDraft target proposer d).row j).getD s 0 -
          (chainDraft target proposer d).draftProb j s) 0 =
        max ((target.probs (d.take j)).getD s 0 - proposer.weight (d.take j) s) 0 := by
      intro s hs
      rw [chainDraft_row (by omega), chainDraft_draftProb hd hj (Finset.mem_range.mp hs)]
    rw [replacementDist_getD ht hpos.ne', hleft t (Finset.mem_range.mpr ht)]
    congr 2
    exact Finset.sum_congr rfl hleft

/-- **Over all continuations of a draft**, its nodes are accepted with the product of their
bounds. -/
theorem ChainBatches.mean_initial (h : ChainBatches target proposer k seq x rngs draw)
    (hv : v ≤ 2 ^ 32) {m n : ℕ} (hk : m + n = k) (hy : Continues v proposer.weight [] m y) :
    mean v proposer.weight n y (fun d => (cube (k + 1)).real {u | ReturnsTokens x rngs draw seq y d u}) =
      passing target proposer y := by
  rw [mean_congr fun d hd => h.prob_initial hv (hk ▸ hy.trans hd) hd.isPrefix,
    mean_const (sum_weight proposer)]

/-- **Over all continuations of a draft, the next token has the target's distribution.** -/
theorem ChainBatches.mean_next (h : ChainBatches target proposer k seq x rngs draw)
    (hv : v ≤ 2 ^ 32) {m n : ℕ} (hk : m + n = k) (hy : Continues v proposer.weight [] m y)
    (ht : t < v) :
    mean v proposer.weight n y
        (fun d => (cube (k + 1)).real {u | ReturnsTokens x rngs draw seq (y ++ [t]) d u}) =
      passing target proposer y * (target.probs y).getD t 0 := by
  have hlen : y.length = m := by simpa using hy.length_eq
  cases n with
  | zero =>
    obtain rfl : m = k := by omega
    exact h.prob_last hv hy ht
  | succ n =>
    simp only [mean]
    have hterm : ∀ s ∈ Finset.range v, proposer.weight y s * mean v proposer.weight n (y ++ [s])
        (fun d => (cube (k + 1)).real {u | ReturnsTokens x rngs draw seq (y ++ [t]) d u}) =
        passing target proposer y *
          ((if s = t then min ((target.probs y).getD s 0) (proposer.weight y s) else 0) +
            (proposer.weight y s - min ((target.probs y).getD s 0) (proposer.weight y s)) *
              replacing target proposer y t) := by
      intro s hs
      by_cases hzero : proposer.weight y s = 0
      · have hmin : min ((target.probs y).getD s 0) (proposer.weight y s) = 0 := by
          rw [← weight_mul_ratio, hzero, zero_mul]
        rw [hmin, hzero, zero_mul, sub_self, zero_mul, ite_self, add_zero, mul_zero]
      · have hys := Continues.snoc hy (Finset.mem_range.mp hs) hzero
        rw [mean_congr fun d hd => ?_, mean_const (sum_weight proposer) (passing target proposer y *
          ((if s = t then ratio target proposer y s else 0) +
            (1 - ratio target proposer y s) * replacing target proposer y t))]
        · rw [← weight_mul_ratio]
          split_ifs <;> ring
        · have hd' : Continues v proposer.weight [] k d := by
            have := hys.trans hd
            rwa [show m + 1 + n = k by omega] at this
          have hprefix : y <+: d := (List.prefix_append y [s]).trans hd.isPrefix
          have htake : d.take y.length = y := (List.prefix_iff_eq_take.mp hprefix).symm
          have hget : d.getD y.length 0 = s := by
            rw [List.getD_eq_getElem?_getD, ← getElem?_of_initial hd.isPrefix (by simp)]
            simp
          have hylt : y.length < k := by omega
          rw [h.prob_next hv hd' hprefix ht hylt, one_sub_mul_replacement hd' hylt ht,
            chainDraft_bound hd' hylt, htake, hget]
    rw [Finset.sum_congr rfl hterm, ← Finset.mul_sum]
    congr 1
    refine rejection ?_ (Finset.mem_range.mpr ht) fun _ => rfl
    rw [sum_weight, (target.isDist y).sum_range]

/-- A probability of what a draft that starts with some tokens decides. -/
theorem law_initial {m n : ℕ} (hk : m + n = k) (hy : y.length = m)
    (event : List ℕ → (Fin (k + 1) → ℝ) → Prop) :
    law proposer k (fun d u => y <+: d ∧ event d u) = mean v proposer.weight m [] fun z =>
      if z = y then mean v proposer.weight n y fun d => (cube (k + 1)).real {u | event d u}
      else 0 := by
  have hzero : ∀ c : List ℕ, mean v proposer.weight n c (fun _ => (0 : ℝ)) = 0 :=
    fun c => mean_const (sum_weight proposer) 0
  subst hk
  unfold law
  rw [mean_add]
  refine mean_congr fun z hz => ?_
  have hlen : z.length = m := by simpa using hz.length_eq
  split_ifs with hzy
  · subst hzy
    refine mean_congr fun d hd => ?_
    simp only [hd.isPrefix, true_and]
  · rw [← hzero z]
    refine mean_congr fun d hd => ?_
    have hne : ¬y <+: d := by
      intro hyd
      have h₁ := List.prefix_iff_eq_take.mp hyd
      have h₂ := List.prefix_iff_eq_take.mp hd.isPrefix
      rw [hy] at h₁
      rw [hlen] at h₂
      exact hzy (h₂.trans h₁.symm)
    simp [hne]

/-- **The verification of a chain is exact.** Given that the draft and the tokens that are
returned start with some tokens, the next token that is returned has the target's distribution.
Nothing is replaced from an empty distribution, and the number that is returned counts the
tokens before the last one, which are the draft tokens up to the first one whose draw is not
below its bound. -/
theorem chain_exact (hv : v ≤ 2 ^ 32) (h : ChainBatches target proposer k seq x rngs draw) :
    (∀ y : List ℕ, y.length ≤ k → ∀ t < v,
      law proposer k (fun d u => y <+: d ∧ ReturnsTokens x rngs draw seq (y ++ [t]) d u) =
        law proposer k (fun d u => y <+: d ∧ ReturnsTokens x rngs draw seq y d u) *
          (target.probs y).getD t 0) ∧
      law proposer k (fun d u =>
        Mark.zeroResidual ∈ ((x d).verify (draw u) rngs).logs.getD seq []) = 0 ∧
      ∀ d, Drafted v k d → ∀ u, ∃ out a t, ((x d).verify (draw u) rngs).result = .ok out ∧
        out.acceptLen.getD seq 0 = a ∧ a ≤ k ∧
        (out.accepted.drop (seq * (k + 1))).take (k + 1) =
          d.take a ++ t :: List.replicate (k - a) 0 ∧
        ∀ i ≤ k, i ≤ a ↔
          ∀ j : Fin (k + 1), j.val < i → u j < (chainDraft target proposer d).bound j := by
  refine ⟨fun y hy t ht => ?_, ?_, fun d hd u => ?_⟩
  · rw [law_initial (Nat.add_sub_cancel' hy) rfl, law_initial (Nat.add_sub_cancel' hy) rfl, ← mean_mul]
    refine mean_congr fun z hz => ?_
    split_ifs with hzy
    · subst hzy
      rw [h.mean_next hv (Nat.add_sub_cancel' hy) hz ht,
        h.mean_initial hv (Nat.add_sub_cancel' hy) hz]
    · rw [zero_mul]
  · have hzero : mean v proposer.weight k [] (fun _ => (0 : ℝ)) = 0 :=
      mean_const (sum_weight proposer) 0
    rw [← hzero]
    refine mean_congr fun d hd => ?_
    have hempty : (cube (k + 1)).real (∅ : Set (Fin (k + 1) → ℝ)) = 0 :=
      MeasureTheory.measureReal_empty
    rw [← hempty]
    refine cube_congr fun u hu => iff_of_false ?_ (by simp)
    obtain ⟨a, hstop⟩ := exists_stops (chainDraft target proposer d) (extend u) k
    obtain ⟨out, -, -, -, hmark⟩ := h.output (drafted_of_continues hd) hstop
    intro hmem
    obtain ⟨ha, hnot⟩ := hmark.mp hmem
    have hbound : (chainDraft target proposer d).bound a < 1 :=
      (hstop.failed ha).trans_lt (extend_mem hu a ha.le).2
    exact hnot ((chainDraft_exact hd).residual_pos ha hbound)
  · obtain ⟨a, hstop⟩ := exists_stops (chainDraft target proposer d) (extend u) k
    obtain ⟨out, hout, hlen, hrow, -⟩ := h.output hd hstop
    exact ⟨out, a, _, hout, hlen, hstop.le, hrow, fun i hi => stops_le_iff hi hstop⟩

end Probability

/-! ### A batch of one sequence -/

section Single

variable {v k : ℕ}

/-- A draft alone in its batch. -/
def chainInput (target : Target v) (proposer : Proposer v) (k : ℕ) (d : List ℕ) :
    VerifyInput ℝ where
  draftTokens := d
  draftProbs := (chainDraft target proposer d).draftProbs
  targetProbs := (chainDraft target proposer d).targetProbs
  s := 1
  k := k
  v := v
  method := .rejection
  tree := none

theorem length_rows {n : ℕ} (f : ℕ → List ℝ) (hf : ∀ i, (f i).length = v) :
    ((List.range n).flatMap f).length = n * v := by
  simp [List.length_flatMap, hf]

theorem chainInput_accepts (target : Target v) (proposer : Proposer v) {d : List ℕ}
    (hd : Drafted v k d) (hv : 0 < v) (hk : k + 1 < 2 ^ 32) (hsize : (k + 1) * v < 2 ^ 64)
    {rng : RngState} (hrng : rng.drawIndex = 0) : (chainInput target proposer k d).Accepts [rng] := by
  have hlen := hd.1
  have htarget : ∀ i, (target.probs (d.take i)).length = v := fun i => (target.isDist _).length_eq
  have hdraft : ∀ i, (proposer.probs (d.take i)).length = v := fun i => (proposer.isDist _).length_eq
  have hvalid : ∀ (n : ℕ) (f : ℕ → List ℝ), (∀ i, IsDist v (f i)) →
      (chainInput target proposer k d).checkRows n ((List.range n).flatMap f) = .ok () := by
    intro n f hf
    unfold VerifyInput.checkRows
    simp only [Checked.forM_eq_ok]
    intro i hi j hj
    obtain rfl : i = 0 := by simpa [chainInput] using hi
    rw [Nat.zero_mul, Nat.zero_add]
    unfold dist
    rw [show (chainInput target proposer k d).v = v from rfl,
      take_drop_flatMap (fun i _ => (hf i).length_eq) (List.getElem?_range (List.mem_range.mp hj))]
    exact (hf j).validate _ _ _
  refine ⟨Nat.one_pos, hv, hk, by simpa [chainInput] using hlen, hd.2, fun dp hdp => ?_, ?_, ?_, rfl,
    rfl, by simp [chainInput], fun dp hdp => ?_, ?_, ?_⟩
  · simp only [chainInput, chainDraft] at hdp ⊢
    split_ifs at hdp with hgiven
    · obtain rfl := Option.some.inj hdp
      rw [length_rows _ hdraft, hlen, Nat.one_mul]
    · cases hdp
  · simp only [chainInput, chainDraft]
    rw [length_rows _ htarget, hlen, Nat.one_mul]
  · simpa [chainInput] using hsize
  · simp only [chainInput, chainDraft] at hdp
    split_ifs at hdp with hgiven
    · obtain rfl := Option.some.inj hdp
      rw [hlen]
      exact hvalid k _ fun i => proposer.isDist _
    · cases hdp
  · simp only [chainInput, chainDraft]
    rw [hlen]
    exact hvalid (k + 1) _ fun i => target.isDist _
  · intro r hr
    rw [List.mem_singleton.mp hr, hrng, Nat.zero_add]
    exact hk

theorem chainInput_batches (target : Target v) (proposer : Proposer v) (hv : 0 < v)
    (hk : k + 1 < 2 ^ 32) (hsize : (k + 1) * v < 2 ^ 64) {rng : RngState}
    (hrng : rng.drawIndex = 0) :
    ChainBatches target proposer k 0 (chainInput target proposer k) [rng] fun u _ => extend u := by
  refine ⟨fun _ _ => rfl, fun _ _ => rfl, fun _ _ => by simp [IsChain, chainInput], fun d hd => ?_,
    fun d hd u => ?_, rng, rfl, fun u j => extend_val j⟩
  · have hlen := hd.1
    have htarget : (chainDraft target proposer d).targetProbs.length = (k + 1) * v := by
      simp only [chainDraft]
      rw [length_rows _ fun i => (target.isDist _).length_eq, hlen]
    have hdraft : (chainDraft target proposer d).draftProbs.map (fun dp => dp.take (k * v)) =
        (chainDraft target proposer d).draftProbs := by
      simp only [chainDraft]
      split_ifs
      · rw [Option.map_some, List.take_of_length_le]
        rw [length_rows _ fun i => (proposer.isDist _).length_eq, hlen]
      · rfl
    simp only [VerifyInput.seqDraft, chainInput, Nat.zero_mul, List.drop_zero]
    rw [hdraft, List.take_of_length_le htarget.le, List.take_of_length_le hlen.le]
    rfl
  · obtain ⟨states, heq, -⟩ :=
      (chainInput_accepts target proposer hd hv hk hsize hrng).verify_eq fun _ => extend u
    exact ⟨_, by rw [heq]⟩

/-- A half at each of two tokens. -/
noncomputable def halves (v b c : ℕ) : List ℝ :=
  (List.range v).map fun t => (if t = b then 1 / 2 else 0) + (if t = c then 1 / 2 else 0)

theorem halves_getD {v b c t : ℕ} (ht : t < v) : (halves v b c).getD t 0 =
    (if t = b then 1 / 2 else 0) + (if t = c then 1 / 2 else 0) := by
  simp [halves, List.getD_eq_getElem?_getD, ht]

theorem isDist_halves {v b c : ℕ} (hb : b < v) (hc : c < v) : IsDist v (halves v b c) := by
  have hlen : (halves v b c).length = v := by simp [halves]
  refine ⟨hlen, ?_, ?_⟩
  · intro p hp
    obtain ⟨t, -, rfl⟩ := List.mem_map.mp hp
    split_ifs <;> norm_num
  · have hsum : ∑ t ∈ Finset.range v, (halves v b c).getD t 0 =
        ∑ t ∈ Finset.range v, ((if t = b then 1 / 2 else 0) + (if t = c then 1 / 2 else 0)) :=
      Finset.sum_congr rfl fun t ht => halves_getD (Finset.mem_range.mp ht)
    rw [← sum_range_getD, hlen, hsum, Finset.sum_add_distrib, Finset.sum_ite_eq',
      Finset.sum_ite_eq', if_pos (Finset.mem_range.mpr hb), if_pos (Finset.mem_range.mpr hc)]
    norm_num

/-- A target and a proposer that do not agree. -/
noncomputable def skewTarget : Target 2 where
  probs _ := [1 / 4, 3 / 4]
  isDist _ := ⟨rfl, by norm_num, by norm_num⟩

noncomputable def evenProposer : Proposer 2 where
  probs _ := [1 / 2, 1 / 2]
  given := true
  isDist _ := ⟨rfl, by norm_num, by norm_num⟩
  oneHot h := by cases h

theorem skew_batches : ChainBatches skewTarget evenProposer 1 0
    (chainInput skewTarget evenProposer 1) [firstState] fun u _ => extend u :=
  chainInput_batches skewTarget evenProposer (by norm_num) (by norm_num) (by norm_num) rfl

theorem chain_exact_small :
    law evenProposer 1 (fun d u => [0] <+: d ∧
      ReturnsTokens (chainInput skewTarget evenProposer 1) [firstState] (fun u _ => extend u) 0 [0, 1] d u) =
      law evenProposer 1 (fun d u => [0] <+: d ∧
        ReturnsTokens (chainInput skewTarget evenProposer 1) [firstState] (fun u _ => extend u) 0 [0] d u) *
        (3 / 4) :=
  (chain_exact (by norm_num) skew_batches).1 [0] le_rfl 1 (by norm_num)

end Single

end R9v

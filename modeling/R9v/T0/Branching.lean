import R9v.T0.Forest

/-!
# The verification of a forest of draft tokens

When the draft tokens branch, the first token that is returned need not have the target's
distribution: every root is tested with a draw of its own, so that the roots after the first
get a second chance. It has the target's distribution, whatever that is, exactly when there is
one root, or there are two tokens and the second of two roots is a leaf
(`branching_exact_iff`). Tokens are returned in 32 bits, so that there must not be more.
-/

namespace R9v

open Uniform Set Forest

/-! ### Probabilities -/

section Batch

variable {v seq : ℕ} {f : ForestDraft v} {x : TargetRows v → VerifyInput ℝ}
  {rngs : List RngState} {draw : (Fin (f.k + 1) → ℝ) → RngState → ℕ → ℝ} {rows : TargetRows v}

theorem ForestBatches.accepts (h : ForestBatches f seq x rngs draw) (rows : TargetRows v) :
    (x rows).Accepts rngs := by
  rcases (x rows).verify_cases (draw fun _ => 0) rngs with ⟨e, heq⟩ | hacc
  · obtain ⟨out, hout⟩ := h.accepted rows fun _ => 0
    rw [heq] at hout
    cases hout
  · exact hacc

theorem ForestBatches.k_lt (h : ForestBatches f seq x rngs draw) (rows : TargetRows v) :
    f.k < 2 ^ 32 := by
  have := (h.accepts rows).k_lt
  rw [h.k_eq] at this
  omega

/-- **What a batch returns first for the forest.** -/
theorem ForestBatches.first (h : ForestBatches f seq x rngs draw) (rows : TargetRows v)
    (u : Fin (f.k + 1) → ℝ) :
    ∃ w r rest, (∀ j : Fin (f.k + 1), w j = u j) ∧ Wins f rows w r rest ∧
      ∀ t, FirstToken x rngs draw seq rows t u ↔ rootToken f rows w r = t := by
  obtain ⟨rng, hrng, hdraw⟩ := h.draws
  obtain ⟨r, rest, hwins, hfirst⟩ := @verified_first v f rows (h.k_lt rows) (draw u rng)
  obtain ⟨out, hout, hlen, hrow, -⟩ := (h.accepts rows).output (draw u) hrng
  rw [h.k_eq, h.method_eq, h.tree_eq, h.row_eq] at hlen hrow
  refine ⟨draw u rng, r, rest, hdraw u, hwins, fun t => ?_⟩
  have htokens : (out.tokens f.k seq).head? = some (rootToken f rows (draw u rng) r) := by
    unfold VerifyOutput.tokens
    rw [hrow, hlen]
    exact hfirst
  constructor
  · rintro ⟨out', hout', hhead⟩
    rw [hout] at hout'
    obtain rfl := Except.ok.inj hout'
    rw [htokens] at hhead
    exact Option.some.inj hhead
  · rintro rfl
    exact ⟨out, hout, htokens⟩

/-- **A forest with one root is exact.** -/
theorem ForestBatches.exact_of_root (h : ForestBatches f seq x rngs draw) (hv : v ≤ 2 ^ 32)
    {r : ℕ} (hr : f.Root r) (hone : ∀ s, f.Root s → s = r) {t : ℕ} (ht : t < v) :
    (cube (f.k + 1)).real {u | FirstToken x rngs draw seq rows t u} =
      (rows.probs 0).getD t 0 := by
  have hk := h.k_lt rows
  have hdist := @isDist_replacement v f rows r
  have hmem : 0 ≤ f.chance rows 0 r ∧ f.chance rows 0 r ≤ 1 :=
    ⟨chance_nonneg 0 r, (rows.isDist 0).getD_le_one _⟩
  have hchoice := @cube_choice _ f.k r hr.1 (fun _ => 1) (fun j _ => ⟨zero_le_one, le_rfl⟩) hmem
    (f.token r = t) _ (Ioc (((f.draft rows).replacementDist 0 r).take t).sum
      (((f.draft rows).replacementDist 0 r).take (t + 1)).sum) measurableSet_Ioc
  rw [Finset.prod_const_one, one_mul, unit_interval hdist, root_exact hr.1 ht] at hchoice
  rw [← hchoice]
  refine cube_congr fun u hu => ?_
  obtain ⟨w, s, rest, hw, hwins, hfirst⟩ := h.first rows u
  obtain rfl := hone s (hwins.root hk)
  have hws : w s = u ⟨s, by have := hr.1; omega⟩ := hw ⟨s, by have := hr.1; omega⟩
  have hwk : w f.k = u (Fin.last f.k) := hw (Fin.last f.k)
  have hall : ∀ j : Fin (f.k + 1), j.val < s → u j < 1 := fun j _ => (hu j).2
  rw [mem_ofPred_eq, hfirst, mem_ofPred_eq, and_iff_right hall, ← hws]
  rcases lt_or_ge (w s) (f.chance rows 0 s) with hlt | hle
  · rw [rootToken_of_lt hlt]
    simp [hlt]
  · rw [rootToken_of_le hle, hwk, sampleFromDistribution_eq hdist hv (hu _)]
    simp [hle, ht]

theorem draws_mem {k : ℕ} {u : Fin (k + 1) → ℝ} {w : ℕ → ℝ}
    (hw : ∀ j : Fin (k + 1), w j = u j) (hu : ∀ j, u j ∈ Ioo (0 : ℝ) 1) :
    ∀ j ≤ k, w j ∈ Ioo (0 : ℝ) 1 :=
  fun j hj => (hw ⟨j, by omega⟩) ▸ hu ⟨j, by omega⟩

/-! ### Two roots -/

section Roots

variable {w w' : ℕ → ℝ} {q r s : ℕ} {rest rest' : List ℕ}

theorem token_ne (hr : f.Root r) (hs : f.Root s) (hne : r ≠ s) : f.token r ≠ f.token s :=
  f.siblings r hr.1 s hs.1 hne (hr.2.trans hs.2.symm)

theorem eq_of_token (hr : f.Root r) (hs : f.Root s) (h : f.token r = f.token s) : r = s := by
  by_contra hne
  exact token_ne hr hs hne h

theorem replacement_ne (hv : v ≤ 2 ^ 32) (hw : ∀ j ≤ f.k, w j ∈ Ioo (0 : ℝ) 1) (hr : r < f.k)
    (hle : f.chance rows 0 r ≤ w r) :
    sampleFromDistribution ((f.draft rows).replacementDist 0 r) (w f.k) ≠ f.token r := by
  intro heq
  have hpos := sample_pos (@isDist_replacement v f rows r) hv (hw f.k le_rfl)
  rw [heq, replacement_left hr (token_lt hr) (hle.trans_lt (hw r hr.le).2), if_pos rfl,
    zero_div] at hpos
  exact lt_irrefl _ hpos

theorem Wins.lowest_ne (hk : f.k < 2 ^ 32) (hv : v ≤ 2 ^ 32) (h : Wins f rows w q rest)
    (hw : ∀ j ≤ f.k, w j ∈ Ioo (0 : ℝ) 1) (hr : f.Root r) (hlow : ∀ s, f.Root s → r ≤ s)
    (hle : f.chance rows 0 r ≤ w r) : rootToken f rows w q ≠ f.token r := by
  have hq := h.root hk
  rcases lt_or_ge (w q) (f.chance rows 0 q) with hlt | hge
  · rw [rootToken_of_lt hlt]
    refine token_ne hq hr ?_
    rintro rfl
    exact absurd hlt (not_lt.mpr hle)
  · -- no root is accepted, so that the lowest one is replaced
    have hall : ∀ s, f.Root s → f.chance rows 0 s ≤ w s := by
      intro s hs
      by_contra hlt
      exact absurd (h.accepted hk hs (not_le.mp hlt)) (not_lt.mpr hge)
    obtain rfl : q = r := le_antisymm (h.lowest hk hall hr) (hlow q hq)
    rw [rootToken_of_le hge]
    exact replacement_ne hv hw hq.1 hge

theorem rootToken_lt (hv : v ≤ 2 ^ 32) (hw : ∀ j ≤ f.k, w j ∈ Ioo (0 : ℝ) 1) (hr : f.Root r) :
    rootToken f rows w r < v := by
  rcases lt_or_ge (w r) (f.chance rows 0 r) with hlt | hge
  · rw [rootToken_of_lt hlt]
    exact token_lt hr.1
  · rw [rootToken_of_le hge]
    exact ((sampleFromDistribution_eq (isDist_replacement r) hv (hw f.k le_rfl)).mp rfl).1

theorem reached_le (p : List ℕ) : reached f rows w p ≤ p.length := by
  unfold reached
  generalize 0 = row
  induction p generalizing row with
  | nil => exact Nat.zero_le _
  | cons node p ih =>
    rcases lt_or_ge (w node) ((f.draft rows).boundAt row node) with hlt | hge
    · rw [evalFrom_of_lt hlt]
      exact Nat.succ_le_succ (ih (node + 1))
    · rw [evalFrom_of_le hge]
      exact Nat.zero_le _

/-- A root that is accepted is kept when the roots after it are leaves. -/
theorem Wins.lowest_of_lt (hk : f.k < 2 ^ 32) (h : Wins f rows w q rest) (hr : f.Root r)
    (hlow : ∀ s, f.Root s → s ≠ r → r < s ∧ f.Childless s) (hlt : w r < f.chance rows 0 r) :
    q = r := by
  by_contra hne
  obtain ⟨hqr, hleaf⟩ := hlow q (h.root hk) hne
  obtain rfl := f.path_childless hk h.path hleaf
  obtain ⟨rest', hpath⟩ := f.exists_path hk hr
  have hpos := @reached_of_lt v f rows w r rest' hlt
  have hle := @reached_le v f rows w [q]
  have hahead := h.ahead r rest' hpath
  rw [List.length_singleton] at hle
  omega

end Roots

/-- **Two tokens at two roots are exact when the second root is a leaf.** -/
theorem ForestBatches.exact_of_leaf (h : ForestBatches f seq x rngs draw) (htwo : v = 2) {r s : ℕ}
    (hr : f.Root r) (hs : f.Root s) (hlt : r < s) (hleaf : f.Childless s) {t : ℕ} (ht : t < v) :
    (cube (f.k + 1)).real {u | FirstToken x rngs draw seq rows t u} =
      (rows.probs 0).getD t 0 := by
  have hk := h.k_lt rows
  have hv : v ≤ 2 ^ 32 := by omega
  have hrk := hr.1
  have htokens : f.token r < 2 ∧ f.token s < 2 ∧ f.token r ≠ f.token s :=
    ⟨htwo ▸ token_lt hr.1, htwo ▸ token_lt hs.1, token_ne hr hs hlt.ne⟩
  have hroots : ∀ q, f.Root q → q ≠ r → r < q ∧ f.Childless q := by
    intro q hq hne
    obtain rfl : q = s := by
      refine eq_of_token hq hs ?_
      have := token_ne hq hr hne
      have : f.token q < 2 := htwo ▸ token_lt hq.1
      omega
    exact ⟨hlt, hleaf⟩
  have hlow : ∀ q, f.Root q → r ≤ q := by
    intro q hq
    by_cases hqr : q = r
    · exact hqr.ge
    · exact (hroots q hq hqr).1.le
  -- the token of the first root is returned when the root is accepted
  have hfirst : ∀ u, (∀ j, u j ∈ Ioo (0 : ℝ) 1) →
      (FirstToken x rngs draw seq rows t u ↔
        (f.token r = t ↔ u ⟨r, by omega⟩ < f.chance rows 0 r)) := by
    intro u hu
    obtain ⟨w, q, rest, hw, hwins, hfirst⟩ := h.first rows u
    have hwr : w r = u ⟨r, by omega⟩ := hw ⟨r, by omega⟩
    rw [hfirst, ← hwr]
    rcases lt_or_ge (w r) (f.chance rows 0 r) with hacc | hrej
    · obtain rfl := hwins.lowest_of_lt hk hr hroots hacc
      rw [rootToken_of_lt hacc]
      simp [hacc]
    · have hne := hwins.lowest_ne hk hv (draws_mem hw hu) hr hlow hrej
      have hbelow : rootToken f rows w q < v := rootToken_lt hv (draws_mem hw hu) (hwins.root hk)
      rw [iff_false_right (not_lt.mpr hrej)]
      omega
  have hmem : 0 ≤ f.chance rows 0 r ∧ f.chance rows 0 r ≤ 1 :=
    ⟨chance_nonneg 0 r, (rows.isDist 0).getD_le_one _⟩
  by_cases heq : f.token r = t
  · have hset : (cube (f.k + 1)).real {u | FirstToken x rngs draw seq rows t u} =
        (cube (f.k + 1)).real {u | u ⟨r, by omega⟩ ∈ Iio (f.chance rows 0 r)} := by
      refine cube_congr fun u hu => ?_
      rw [mem_ofPred_eq, hfirst u hu, iff_true_left heq]
      rfl
    rw [hset, cube_one, unit_Iio hmem.1 hmem.2, ← heq]
    rfl
  · have hset : (cube (f.k + 1)).real {u | FirstToken x rngs draw seq rows t u} =
        (cube (f.k + 1)).real {u | u ⟨r, by omega⟩ ∈ Ici (f.chance rows 0 r)} := by
      refine cube_congr fun u hu => ?_
      rw [mem_ofPred_eq, hfirst u hu, iff_false_left heq, not_lt]
      rfl
    have hsum := (rows.isDist 0).sum_range
    have hrange : Finset.range v = {f.token r, t} := by
      ext i
      simp only [Finset.mem_range, Finset.mem_insert, Finset.mem_singleton]
      omega
    rw [hrange, Finset.sum_pair heq] at hsum
    rw [hset, cube_one, unit_Ici hmem.1 hmem.2, ← hsum]
    exact add_sub_cancel_left _ _

/-! ### More than the target -/

section More

variable {w w' : ℕ → ℝ} {q q' r s : ℕ} {rest rest' : List ℕ}

/-- When all later rows are certain, the draws of the later nodes do not matter. -/
theorem eval_fixed (hrows : ∀ row node, 0 < row → f.chance rows row node = 0 ∨
      f.chance rows row node = 1)
    (hw : ∀ j ≤ f.k, w j ∈ Ioo (0 : ℝ) 1) (hw' : ∀ j ≤ f.k, w' j ∈ Ioo (0 : ℝ) 1)
    {p : List ℕ} (hp : ∀ j ∈ p, j < f.k) {row : ℕ} (hpos : 0 < row) (hrow : row ≤ f.k) :
    ((f.draft rows).evalFrom .rejection w f.k row p).value.1 =
      ((f.draft rows).evalFrom .rejection w' f.k row p).value.1 := by
  induction p generalizing row with
  | nil => rfl
  | cons node p ih =>
    obtain ⟨hnode, hp⟩ := List.forall_mem_cons.mp hp
    rcases hrows row node hpos with hzero | hone
    · have hbound : (f.draft rows).boundAt row node = 0 := (draft_boundAt hrow).trans hzero
      rw [evalFrom_of_le (hbound.trans_le (hw node hnode.le).1.le),
        evalFrom_of_le (hbound.trans_le (hw' node hnode.le).1.le)]
    · have hbound : (f.draft rows).boundAt row node = 1 := (draft_boundAt hrow).trans hone
      rw [evalFrom_of_lt ((hw node hnode.le).2.trans_eq hbound.symm),
        evalFrom_of_lt ((hw' node hnode.le).2.trans_eq hbound.symm)]
      exact congrArg (List.cons node) (ih hp (Nat.succ_pos _) hnode)

theorem Wins.root_unique (hk : f.k < 2 ^ 32) (h : Wins f rows w q rest)
    (h' : Wins f rows w' q' rest')
    (hrows : ∀ row node, 0 < row → f.chance rows row node = 0 ∨ f.chance rows row node = 1)
    (hw : ∀ j ≤ f.k, w j ∈ Ioo (0 : ℝ) 1) (hw' : ∀ j ≤ f.k, w' j ∈ Ioo (0 : ℝ) 1)
    (hroots : ∀ r, f.Root r → (w r < f.chance rows 0 r ↔ w' r < f.chance rows 0 r)) :
    q = q' := by
  have hreached : ∀ r rest, f.Path r rest →
      reached f rows w (r :: rest) = reached f rows w' (r :: rest) := by
    intro r rest hpath
    obtain ⟨_, _, heq, hroot, hlt⟩ := f.path_root hk hpath
    obtain ⟨rfl, rfl⟩ := List.cons.inj heq
    rcases lt_or_ge (w r) (f.chance rows 0 r) with hacc | hrej
    · unfold reached
      rw [eval_root_of_lt hacc, eval_root_of_lt ((hroots r hroot).mp hacc),
        eval_fixed hrows hw hw' (fun j hj => hlt j (List.mem_cons_of_mem _ hj)) (Nat.succ_pos _)
          (hlt r List.mem_cons_self)]
    · have hrej' := not_lt.mp fun hacc => absurd ((hroots r hroot).mpr hacc) (not_lt.mpr hrej)
      rw [reached_of_le hrej, reached_of_le hrej']
  have h₁ := h.ahead q' rest' h'.path
  have h₂ := h'.ahead q rest h.path
  rw [hreached q rest h.path, hreached q' rest' h'.path] at h₁
  omega

/-- A half at a token that some root has and at one that is not the token of the lowest root,
and certainty after all nodes. -/
noncomputable def apart (v b c : ℕ) (hb : b < v) (hc : c < v) : TargetRows v where
  probs j := if j = 0 then halves v b c else halves v 0 0
  isDist j := by
    split_ifs
    · exact isDist_halves hb hc
    · exact isDist_halves (by omega) (by omega)

theorem apart_chance {b c : ℕ} (hb : b < v) (hc : c < v) (hr : f.Root r) :
    f.chance (apart v b c hb hc) 0 r =
      (if f.token r = b then 1 / 2 else 0) + (if f.token r = c then 1 / 2 else 0) :=
  halves_getD (token_lt hr.1)

theorem apart_certain {b c : ℕ} (hb : b < v) (hc : c < v) (row node : ℕ) (hpos : 0 < row) :
    f.chance (apart v b c hb hc) row node = 0 ∨ f.chance (apart v b c hb hc) row node = 1 := by
  have hprobs : (apart v b c hb hc).probs row = halves v 0 0 := if_neg hpos.ne'
  unfold ForestDraft.chance
  rw [hprobs]
  rcases Nat.lt_or_ge (f.token node) v with hlt | hge
  · rw [halves_getD hlt]
    split_ifs <;> norm_num
  · rw [List.getD_eq_default _ _ (by simpa [halves] using hge)]
    exact Or.inl rfl

end More

/-- A root that has half a chance, that is kept whenever it is accepted, while the lowest root
has no chance. -/
structure Favoured (f : ForestDraft v) (rows : TargetRows v) (r e : ℕ) : Prop where
  lowest : f.Root r ∧ ∀ q, f.Root q → r ≤ q
  none : f.chance rows 0 r = 0
  root : f.Root e
  half : f.chance rows 0 e = 1 / 2
  le_half : ∀ q, f.Root q → f.chance rows 0 q ≤ 1 / 2
  keeps : ∀ w : ℕ → ℝ, (∀ j ≤ f.k, w j ∈ Ioo (0 : ℝ) 1) → ∀ q rest, Wins f rows w q rest →
    w e < 1 / 2 → q = e

section Favoured

variable {r s e c : ℕ}

theorem Favoured.ne (h : Favoured f rows r e) : e ≠ r := by
  rintro rfl
  have hnone := h.none
  rw [h.half] at hnone
  norm_num at hnone

theorem Favoured.replaced (h : Favoured f rows r e) :
    ((f.draft rows).replacementDist 0 r).getD (f.token e) 0 = 1 / 2 := by
  have hhalf : (rows.probs 0).getD (f.token e) 0 = 1 / 2 := h.half
  rw [replacement_left h.lowest.1.1 (token_lt h.root.1) (by rw [h.none]; exact one_pos),
    if_neg (token_ne h.root h.lowest.1 h.ne), h.none, hhalf]
  norm_num

theorem Favoured.rejected (h : Favoured f rows r e) (hk : f.k < 2 ^ 32) {w : ℕ → ℝ} {q : ℕ}
    {rest : List ℕ} (hwins : Wins f rows w q rest) (hall : ∀ z, f.Root z → 1 / 2 ≤ w z) :
    rootToken f rows w q =
      sampleFromDistribution ((f.draft rows).replacementDist 0 r) (w f.k) := by
  have hrej : ∀ z, f.Root z → f.chance rows 0 z ≤ w z :=
    fun z hz => (h.le_half z hz).trans (hall z hz)
  obtain rfl : q = r :=
    le_antisymm (hwins.lowest hk hrej h.lowest.1) (h.lowest.2 q (hwins.root hk))
  exact rootToken_of_le (hrej q h.lowest.1)

open scoped Classical in
/-- **A favoured token is returned too often**: when its root is accepted, and also when no
root is and it replaces the lowest one. -/
theorem Favoured.exceeds (h : Favoured f rows r e) (hbatch : ForestBatches f seq x rngs draw)
    (hv : v ≤ 2 ^ 32) : (rows.probs 0).getD (f.token e) 0 <
      (cube (f.k + 1)).real {u | FirstToken x rngs draw seq rows (f.token e) u} := by
  have hk := hbatch.k_lt rows
  have hek := h.root.1
  set dist := (f.draft rows).replacementDist 0 r with hdist
  set side : ℕ → Set ℝ := fun j => if j = f.k then
    Ioc (dist.take (f.token e)).sum (dist.take (f.token e + 1)).sum else Ici (1 / 2) with hside
  have hlast : side f.k = Ioc (dist.take (f.token e)).sum (dist.take (f.token e + 1)).sum :=
    if_pos rfl
  have hroot : ∀ z, f.Root z → side z = Ici (1 / 2) := fun z hz => if_neg hz.1.ne
  set S := (Finset.range (f.k + 1)).filter fun j => j = f.k ∨ f.Root j with hS
  have hmem : ∀ z, f.Root z → z ∈ S := by
    intro z hz
    have := hz.1
    exact Finset.mem_filter.mpr ⟨Finset.mem_range.mpr (by omega), Or.inr hz⟩
  have hhalf : unit.real (Iio (1 / 2)) = (rows.probs 0).getD (f.token e) 0 :=
    (unit_Iio (by norm_num) (by norm_num)).trans h.half.symm
  rw [← hhalf]
  refine @unit_lt_cube (f.k + 1) e S ?_ (hmem e h.root) _ side ?_ ?_ ?_ _ ?_ ?_
  · intro j hj
    exact Finset.mem_range.mp (Finset.mem_filter.mp hj).1
  · intro j
    simp only [hside]
    split_ifs
    · exact measurableSet_Ioc
    · exact measurableSet_Ici
  · intro j hj
    rcases (Finset.mem_filter.mp hj).2 with rfl | hz
    · rw [hlast, unit_interval (isDist_replacement r), h.replaced]
      norm_num
    · rw [hroot j hz, unit_Ici (by norm_num) (by norm_num)]
      norm_num
  · rw [hroot e h.root, Set.disjoint_left]
    exact fun y hy hy' => absurd (mem_Iio.mp hy) (not_lt.mpr hy')
  · intro u hu hlt
    obtain ⟨w, q, rest, hw, hwins, hfirst⟩ := hbatch.first rows u
    have hwe : w e < 1 / 2 := (hw ⟨e, by omega⟩).trans_lt hlt
    obtain rfl := h.keeps w (draws_mem hw hu) q rest hwins hwe
    exact (hfirst _).mpr (rootToken_of_lt (hwe.trans_eq h.half.symm))
  · intro u hu hall
    obtain ⟨w, q, rest, hw, hwins, hfirst⟩ := hbatch.first rows u
    have hwk : w f.k = u (Fin.last f.k) := hw (Fin.last f.k)
    have hrej : ∀ z, f.Root z → 1 / 2 ≤ w z := by
      intro z hz
      have hzk := hz.1
      have hz' := hall ⟨z, by omega⟩ (hmem z hz)
      rw [hroot z hz] at hz'
      exact (mem_Ici.mp hz').trans_eq (hw ⟨z, by omega⟩).symm
    have hin := hall (Fin.last f.k) (Finset.mem_filter.mpr ⟨by simp, Or.inl rfl⟩)
    refine (hfirst _).mpr ?_
    rw [h.rejected hk hwins hrej, hwk, sampleFromDistribution_eq (isDist_replacement r) hv (hu _)]
    exact ⟨token_lt hek, hlast ▸ hin⟩

theorem apart_half (hs : f.Root s) (hc : c < v) (hcs : c ≠ f.token s) {q : ℕ} (hq : f.Root q)
    (hpos : 0 < f.chance (apart v (f.token s) c (token_lt hs.1) hc) 0 q) :
    f.chance (apart v (f.token s) c (token_lt hs.1) hc) 0 q = 1 / 2 ∧
      (f.token q = f.token s ∨ f.token q = c) := by
  rw [apart_chance _ _ hq] at hpos ⊢
  split_ifs at hpos ⊢ with h₁ h₂ h₂
  · exact absurd (h₂.symm.trans h₁) hcs
  · exact ⟨by norm_num, Or.inl h₁⟩
  · exact ⟨by norm_num, Or.inr h₂⟩
  · norm_num at hpos

/-- **Three tokens are enough for a favoured one.** -/
theorem exists_favoured (hk : f.k < 2 ^ 32) (hr : f.Root r) (hlow : ∀ q, f.Root q → r ≤ q)
    (hs : f.Root s) (hne : s ≠ r) (hc : c < v) (hcr : c ≠ f.token r) (hcs : c ≠ f.token s) :
    ∃ e, Favoured f (apart v (f.token s) c (token_lt hs.1) hc) r e := by
  set rows := apart v (f.token s) c (token_lt hs.1) hc with hrows
  have hhalf : ∀ q, f.Root q → 0 < f.chance rows 0 q →
      f.chance rows 0 q = 1 / 2 ∧ (f.token q = f.token s ∨ f.token q = c) :=
    fun q hq hpos => apart_half hs hc hcs hq hpos
  -- the root that is kept when all draws are the same
  obtain ⟨e, rest, hkept, -⟩ := @verified_first v f rows hk fun _ => 1 / 4
  have he := hkept.root hk
  have hacc : (1 / 4 : ℝ) < f.chance rows 0 e := by
    refine hkept.accepted hk hs ?_
    rw [hrows, apart_chance _ _ hs, if_pos rfl, if_neg hcs.symm]
    norm_num
  obtain ⟨hehalf, hetoken⟩ := hhalf e he (by linarith)
  refine ⟨e, ⟨hr, hlow⟩, ?_, he, hehalf, fun q hq => ?_, fun w hw q rest' hwins hlt => ?_⟩
  · rw [hrows, apart_chance _ _ hr, if_neg (token_ne hr hs hne.symm), if_neg hcr.symm, add_zero]
  · rcases (@chance_nonneg v f rows 0 q).eq_or_lt with hzero | hpos
    · rw [← hzero]
      norm_num
    · exact (hhalf q hq hpos).1.le
  · by_contra hqe
    have hq := hwins.root hk
    have hqacc := hwins.accepted hk he (hlt.trans_eq hehalf.symm)
    obtain ⟨hqhalf, hqtoken⟩ := hhalf q hq ((hw q hq.1.le).1.trans hqacc)
    -- both are accepted, and no other root has a chance
    refine hqe (hwins.root_unique hk hkept (apart_certain _ _) hw (fun j _ => by norm_num) ?_)
    intro z hz
    rcases (@chance_nonneg v f rows 0 z).eq_or_lt with hnone | hpos
    · rw [← hnone]
      exact iff_of_false (not_lt.mpr (hw z hz.1.le).1.le) (by norm_num)
    · have htoken := (hhalf z hz hpos).2
      have hdiff := token_ne hq he hqe
      have hsame : f.token z = f.token q ∨ f.token z = f.token e := by omega
      rcases hsame with hsame | hsame
      · obtain rfl := eq_of_token hz hq hsame
        exact iff_of_true hqacc (by rw [hqhalf]; norm_num)
      · obtain rfl := eq_of_token hz he hsame
        exact iff_of_true (hlt.trans_eq hehalf.symm) hacc

end Favoured

section Child

variable {f : ForestDraft 2} {x : TargetRows 2 → VerifyInput ℝ}
  {draw : (Fin (f.k + 1) → ℝ) → RngState → ℕ → ℝ} {r s c : ℕ}

/-- A half at both tokens, but certainty after the second root. -/
noncomputable def certainAfter (s t : ℕ) (ht : t < 2) : TargetRows 2 where
  probs j := if j = s + 1 then halves 2 t t else halves 2 0 1
  isDist j := by
    split_ifs
    · exact isDist_halves ht ht
    · exact isDist_halves (by norm_num) (by norm_num)

theorem certainAfter_half {t : ℕ} (ht : t < 2) {row node : ℕ} (hrow : row ≠ s + 1)
    (hnode : node < f.k) : f.chance (certainAfter s t ht) row node = 1 / 2 := by
  have hprobs : (certainAfter s t ht).probs row = halves 2 0 1 := if_neg hrow
  have hlt := token_lt (f := f) hnode
  unfold ForestDraft.chance
  rw [hprobs, halves_getD hlt]
  interval_cases f.token node <;> norm_num

theorem certainAfter_one (hc : c < f.k) :
    f.chance (certainAfter s (f.token c) (token_lt hc)) (s + 1) c = 1 := by
  have hprobs : (certainAfter s (f.token c) (token_lt hc)).probs (s + 1) =
      halves 2 (f.token c) (f.token c) := if_pos rfl
  unfold ForestDraft.chance
  rw [hprobs, halves_getD (token_lt hc), if_pos rfl]
  norm_num

theorem Wins.second (hk : f.k < 2 ^ 32) (hr : f.Root r) (hs : f.Root s) (hlt : r < s)
    (hc : c < f.k) (hparent : parentOf f.tree.parents c = some s) {w : ℕ → ℝ} {q : ℕ}
    {rest : List ℕ} (h : Wins f (certainAfter s (f.token c) (token_lt hc)) w q rest)
    (hw : ∀ j ≤ f.k, w j ∈ Ioo (0 : ℝ) 1) (hwr : w r < 1 / 2) (hws : w s < 1 / 2)
    (hchildren : ∀ j < f.k, parentOf f.tree.parents j = some r → 1 / 2 ≤ w j) : q ≠ r := by
  set rows := certainAfter s (f.token c) (token_lt hc)
  rintro rfl
  have hfirst : w q < f.chance rows 0 q := by
    rw [certainAfter_half _ (by omega) hr.1]
    exact hwr
  have hsecond : w s < f.chance rows 0 s := by
    rw [certainAfter_half _ (by omega) hs.1]
    exact hws
  obtain ⟨rest', hpath⟩ := f.exists_path_child hk hs hc hparent
  have hlong : 2 ≤ reached f rows w (s :: c :: rest') := by
    have hbound : (f.draft rows).boundAt (s + 1) c = 1 :=
      (draft_boundAt hs.1).trans (certainAfter_one hc)
    unfold reached
    rw [eval_root_of_lt hsecond, evalFrom_of_lt ((hw c hc.le).2.trans_eq hbound.symm)]
    exact Nat.succ_le_succ (Nat.succ_le_succ (Nat.zero_le _))
  have hshort : reached f rows w (q :: rest) ≤ 1 := by
    have hpath' := h.path
    obtain _ | ⟨d, rest⟩ := rest
    · exact reached_le [q]
    · obtain ⟨hd, hdparent⟩ := f.path_child hk hpath'
      have hbound : (f.draft rows).boundAt (q + 1) d = 1 / 2 :=
        (draft_boundAt hr.1).trans (certainAfter_half _ (by omega) hd)
      unfold reached
      rw [eval_root_of_lt hfirst, evalFrom_of_le (hbound.trans_le (hchildren d hd hdparent))]
      exact le_rfl
  have := h.ahead s (c :: rest') hpath
  omega

open scoped Classical in
/-- **The second of two roots is returned too often when it has a child.** -/
theorem ForestBatches.exceeds_of_child (h : ForestBatches f seq x rngs draw) (hr : f.Root r)
    (hs : f.Root s) (hlt : r < s) (hc : c < f.k) (hparent : parentOf f.tree.parents c = some s) :
    ∃ rows : TargetRows 2, ∃ t < 2, (rows.probs 0).getD t 0 <
      (cube (f.k + 1)).real {u | FirstToken x rngs draw seq rows t u} := by
  set rows := certainAfter s (f.token c) (token_lt hc) with hrows
  have hk := h.k_lt rows
  have hrk := hr.1
  have htokens : f.token r < 2 ∧ f.token s < 2 ∧ f.token r ≠ f.token s :=
    ⟨token_lt hr.1, token_lt hs.1, token_ne hr hs hlt.ne⟩
  have hroots : ∀ q, f.Root q → q = r ∨ q = s := by
    intro q hq
    have := token_lt (f := f) hq.1
    have hsame : f.token q = f.token r ∨ f.token q = f.token s := by omega
    exact hsame.imp (eq_of_token hq hr) (eq_of_token hq hs)
  have hlow : ∀ q, f.Root q → r ≤ q := by
    intro q hq
    rcases hroots q hq with rfl | rfl
    · exact le_rfl
    · exact hlt.le
  have hhalf : ∀ q, f.Root q → f.chance rows 0 q = 1 / 2 :=
    fun q hq => certainAfter_half _ (by omega) hq.1
  set side : ℕ → Set ℝ := fun j => if f.Root j then Iio (1 / 2) else Ici (1 / 2)
  have hside : ∀ q, f.Root q → side q = Iio (1 / 2) := fun q hq => if_pos hq
  set S := (Finset.range f.k).filter fun j => f.Root j ∨ parentOf f.tree.parents j = some r
  have hmem : ∀ q, f.Root q → q ∈ S := fun q hq =>
    Finset.mem_filter.mpr ⟨Finset.mem_range.mpr hq.1, Or.inl hq⟩
  have hS : ∀ j ∈ S, j < f.k + 1 := by
    intro j hj
    have := Finset.mem_range.mp (Finset.mem_filter.mp hj).1
    omega
  refine ⟨rows, f.token s, htokens.2.1, ?_⟩
  have hbound : unit.real (Ici (1 / 2)) = (rows.probs 0).getD (f.token s) 0 := by
    rw [unit_Ici (by norm_num) (by norm_num)]
    refine Eq.trans ?_ (hhalf s hs).symm
    norm_num
  rw [← hbound]
  refine @unit_lt_cube (f.k + 1) r S hS (hmem r hr) _ side ?_ ?_ ?_ _ ?_ ?_
  · intro j
    simp only [side]
    split_ifs
    · exact measurableSet_Iio
    · exact measurableSet_Ici
  · intro j hj
    simp only [side]
    split_ifs
    · rw [unit_Iio (by norm_num) (by norm_num)]
      norm_num
    · rw [unit_Ici (by norm_num) (by norm_num)]
      norm_num
  · rw [hside r hr, Set.disjoint_left]
    exact fun y hy hy' => absurd (mem_Iio.mp hy') (not_lt.mpr hy)
  · intro u hu hge
    obtain ⟨w, q, rest, hw, hwins, hfirst⟩ := h.first rows u
    have hwr : f.chance rows 0 r ≤ w r := by
      rw [hhalf r hr]
      exact (mem_Ici.mp hge).trans_eq (hw ⟨r, by omega⟩).symm
    have hne := hwins.lowest_ne hk (by norm_num) (draws_mem hw hu) hr hlow hwr
    have hbelow := @rootToken_lt 2 f rows w q (by norm_num) (draws_mem hw hu) (hwins.root hk)
    refine (hfirst _).mpr ?_
    omega
  · intro u hu hall
    obtain ⟨w, q, rest, hw, hwins, hfirst⟩ := h.first rows u
    have hroot : ∀ z, f.Root z → w z < 1 / 2 := by
      intro z hz
      have hz' := hall ⟨z, hS z (hmem z hz)⟩ (hmem z hz)
      rw [hside z hz] at hz'
      exact (hw ⟨z, hS z (hmem z hz)⟩).trans_lt hz'
    have hchildren : ∀ j < f.k, parentOf f.tree.parents j = some r → 1 / 2 ≤ w j := by
      intro j hj hjr
      have hjS : j ∈ S := Finset.mem_filter.mpr ⟨Finset.mem_range.mpr hj, Or.inr hjr⟩
      have hj' := hall ⟨j, hS j hjS⟩ hjS
      have hnot : ¬f.Root j := fun hroot => by
        have := hroot.2.symm.trans hjr
        cases this
      simp only [side, if_neg hnot] at hj'
      exact (mem_Ici.mp hj').trans_eq (hw ⟨j, hS j hjS⟩).symm
    have hne := hwins.second hk hr hs hlt hc hparent (draws_mem hw hu) (hroot r hr) (hroot s hs)
      hchildren
    obtain rfl : q = s := (hroots q (hwins.root hk)).resolve_left hne
    refine (hfirst _).mpr (rootToken_of_lt ?_)
    rw [hhalf q hs]
    exact hroot q hs

end Child

/-! ### Exact forests -/

theorem ForestBatches.first_lt (h : ForestBatches f seq x rngs draw) {t : ℕ}
    {u : Fin (f.k + 1) → ℝ} (hfirst : FirstToken x rngs draw seq rows t u) : t < 2 ^ 32 := by
  obtain ⟨w, q, rest, -, hwins, hiff⟩ := h.first rows u
  obtain rfl := (hiff t).mp hfirst
  have hq := (hwins.root (h.k_lt rows)).1
  rcases lt_or_ge (w q) (f.chance rows 0 q) with hlt | hge
  · have hq' : q < f.tokens.length := f.length_eq ▸ hq
    rw [rootToken_of_lt hlt, ForestDraft.token, List.getD_eq_getElem?_getD,
      List.getElem?_eq_getElem hq', Option.getD_some]
    exact f.fits _ (List.getElem_mem hq')
  · rw [rootToken_of_le hge]
    exact Nat.mod_lt _ (by norm_num)

theorem ForestDraft.exists_lowest (f : ForestDraft v) (hk : f.k < 2 ^ 32) :
    ∃ r, f.Root r ∧ ∀ q, f.Root q → r ≤ q := by
  obtain ⟨i, hi, -⟩ := f.branching
  have hpos : 0 < f.k := lt_of_le_of_lt (Nat.zero_le i) hi
  obtain ⟨p, hp⟩ := List.exists_mem_of_ne_nil _ ((@paths_treePaths f.tree hk).exists_path hpos)
  obtain ⟨r, -, -, hr, -⟩ := f.path_root hk hp
  classical
  exact ⟨Nat.find ⟨r, hr⟩, Nat.find_spec ⟨r, hr⟩, fun q hq => Nat.find_min' ⟨r, hr⟩ hq⟩

theorem ForestBatches.le_of_exact (h : ForestBatches f seq x rngs draw)
    (hexact : ∀ rows : TargetRows v, ∀ t < v,
      (cube (f.k + 1)).real {u | FirstToken x rngs draw seq rows t u} = (rows.probs 0).getD t 0) :
    v ≤ 2 ^ 32 := by
  by_contra hv
  have hlt : 2 ^ 32 < v := not_le.mp hv
  have hone := hexact (apart v (2 ^ 32) (2 ^ 32) hlt hlt) (2 ^ 32) hlt
  have hempty : {u | FirstToken x rngs draw seq (apart v (2 ^ 32) (2 ^ 32) hlt hlt) (2 ^ 32) u} =
      (∅ : Set (Fin (f.k + 1) → ℝ)) := by
    refine Set.eq_empty_of_forall_notMem fun u hu => ?_
    exact lt_irrefl _ (h.first_lt hu)
  have hprob : ((apart v (2 ^ 32) (2 ^ 32) hlt hlt).probs 0).getD (2 ^ 32) 0 = 1 := by
    refine (halves_getD hlt).trans ?_
    norm_num
  rw [hempty, MeasureTheory.measureReal_empty, hprob] at hone
  exact zero_ne_one hone

/-- **When a forest is exact.** Whatever the target's distributions are, the first token that
is returned has the first of them, exactly when tokens have 32 bits and either there is one
root, or there are two tokens and no root after the first has a child. -/
theorem branching_exact_iff (h : ForestBatches f seq x rngs draw) :
    (∀ rows : TargetRows v, ∀ t < v,
      (cube (f.k + 1)).real {u | FirstToken x rngs draw seq rows t u} = (rows.probs 0).getD t 0) ↔
      v ≤ 2 ^ 32 ∧ ((∀ r s, f.Root r → f.Root s → r = s) ∨
        (v = 2 ∧ ∀ r s, f.Root r → f.Root s → r < s → f.Childless s)) := by
  have hk := h.k_lt ⟨fun _ => halves v 0 0, fun _ => by
    obtain ⟨i, hi, -⟩ := f.branching
    have := token_lt (f := f) hi
    exact isDist_halves (by omega) (by omega)⟩
  obtain ⟨r, hr, hlow⟩ := f.exists_lowest hk
  constructor
  · intro hexact
    have hv := h.le_of_exact hexact
    refine ⟨hv, ?_⟩
    by_contra hcond
    rw [not_or] at hcond
    obtain ⟨hmany, htwo⟩ := hcond
    -- there is a root after the lowest one
    obtain ⟨s, hs, hne⟩ : ∃ s, f.Root s ∧ s ≠ r := by
      by_contra hall
      push Not at hall
      exact hmany fun a b ha hb => (hall a ha).trans (hall b hb).symm
    have hr2 := token_lt (f := f) hr.1
    have hs2 := token_lt (f := f) hs.1
    have hdiff := token_ne hs hr hne
    rcases Nat.lt_or_ge 2 v with hthree | hle
    · obtain ⟨c, hc, hcr, hcs⟩ : ∃ c < v, c ≠ f.token r ∧ c ≠ f.token s := by
        by_contra hnone
        push Not at hnone
        have h₀ := hnone 0 (by omega)
        have h₁ := hnone 1 (by omega)
        have h₂ := hnone 2 (by omega)
        omega
      obtain ⟨e, he⟩ := exists_favoured hk hr hlow hs hne hc hcr hcs
      exact absurd (hexact _ _ (token_lt he.root.1)) (he.exceeds h hv).ne'
    · obtain rfl : v = 2 := by omega
      refine htwo ⟨rfl, fun a b ha hb hlt c hc hparent => ?_⟩
      obtain ⟨rows, t, ht, hgt⟩ := h.exceeds_of_child ha hb hlt hc hparent
      exact absurd (hexact rows t ht) hgt.ne'
  · rintro ⟨hv, hone | ⟨htwo, hleaf⟩⟩ rows t ht
    · exact h.exact_of_root hv hr (fun s hs => hone s r hs hr) ht
    · by_cases hone : ∀ s, f.Root s → s = r
      · exact h.exact_of_root hv hr hone ht
      · push Not at hone
        obtain ⟨s, hs, hne⟩ := hone
        have hlt : r < s := lt_of_le_of_ne (hlow s hs) hne.symm
        exact h.exact_of_leaf htwo hr hs hlt (hleaf r s hr hs hlt) ht

end Batch

/-! ### A batch of one forest -/

section Single

variable {v : ℕ}

/-- A forest alone in its batch. -/
def forestInput (f : ForestDraft v) (rows : TargetRows v) : VerifyInput ℝ where
  draftTokens := f.tokens
  draftProbs := none
  targetProbs := (f.draft rows).targetProbs
  s := 1
  k := f.k
  v := v
  method := .rejection
  tree := some f.tree

theorem forestInput_accepts (f : ForestDraft v) (rows : TargetRows v) (hv : 0 < v)
    (hk : f.k + 1 < 2 ^ 32) (hsize : (f.k + 1) * v < 2 ^ 64) {rng : RngState}
    (hrng : rng.drawIndex = 0) : (forestInput f rows).Accepts [rng] := by
  have hlen : f.tokens.length = f.k := f.length_eq
  refine ⟨Nat.one_pos, hv, hk, by simpa [forestInput] using hlen, f.lt, by simp [forestInput], ?_,
    by simpa [forestInput] using hsize, rfl, rfl, ?_, by simp [forestInput], ?_, ?_⟩
  · simp only [forestInput, ForestDraft.draft]
    rw [length_rows _ fun i => (rows.isDist i).length_eq, Nat.one_mul]
  · rintro t ht
    obtain rfl := Option.some.inj ht
    rfl
  · unfold VerifyInput.checkRows
    simp only [Checked.forM_eq_ok]
    intro i hi j hj
    obtain rfl : i = 0 := by simpa [forestInput] using hi
    have hj : j < f.k + 1 := List.mem_range.mp hj
    rw [Nat.zero_mul, Nat.zero_add]
    unfold dist
    rw [show (forestInput f rows).v = v from rfl, show (forestInput f rows).targetProbs =
      (List.range (f.k + 1)).flatMap rows.probs from rfl,
      take_drop_flatMap (fun i _ => (rows.isDist i).length_eq) (List.getElem?_range hj)]
    exact (rows.isDist j).validate _ _ _
  · intro r hr
    rw [List.mem_singleton.mp hr, hrng, Nat.zero_add]
    exact hk

theorem forestInput_batches (f : ForestDraft v) (hv : 0 < v) (hk : f.k + 1 < 2 ^ 32)
    (hsize : (f.k + 1) * v < 2 ^ 64) {rng : RngState} (hrng : rng.drawIndex = 0) :
    ForestBatches f 0 (forestInput f) [rng] fun u _ => extend u := by
  have hlen : f.tokens.length = f.k := f.length_eq
  refine ⟨fun _ => rfl, fun _ => rfl, fun _ => rfl, fun rows => ?_, fun rows u => ?_, rng, rfl,
    fun u j => extend_val j⟩
  · have htarget : (f.draft rows).targetProbs.length = (f.k + 1) * v :=
      length_rows _ fun i => (rows.isDist i).length_eq
    simp only [VerifyInput.seqDraft, forestInput, Nat.zero_mul, List.drop_zero]
    rw [List.take_of_length_le htarget.le, List.take_of_length_le hlen.le]
    rfl
  · obtain ⟨states, heq, -⟩ :=
      (forestInput_accepts f rows hv hk hsize hrng).verify_eq fun _ => extend u
    exact ⟨_, by rw [heq]⟩

/-- Two roots. -/
def twoRoots : ForestDraft 3 where
  tree := ⟨[-1, -1], 2, [true, false, false, true], by decide⟩
  tokens := [0, 1]
  length_eq := rfl
  lt := by simp
  fits := by simp
  siblings := by decide
  branching := ⟨0, by decide, 1, by decide, by decide, by decide⟩

theorem twoRoots_batches :
    ForestBatches twoRoots 0 (forestInput twoRoots) [firstState] fun u _ => extend u :=
  forestInput_batches twoRoots (by norm_num) (by decide) (by decide) rfl

/-- The token of the second root is returned in more than half of the cases, although half of
the target's distribution is at the last token. -/
theorem twoRoots_not_exact :
    ((apart 3 1 2 (by norm_num) (by norm_num)).probs 0).getD 1 0 = 1 / 2 ∧
      1 / 2 < (cube 3).real {u | FirstToken (f := twoRoots) (forestInput twoRoots) [firstState]
        (fun u _ => extend u) 0 (apart 3 1 2 (by norm_num) (by norm_num)) 1 u} := by
  have hroot : ∀ i < 2, twoRoots.Root i := by
    unfold ForestDraft.Root
    decide
  obtain ⟨e, he⟩ := exists_favoured (f := twoRoots) (r := 0) (s := 1) (c := 2) (by decide)
    (hroot 0 (by norm_num)) (fun q _ => Nat.zero_le q) (hroot 1 (by norm_num)) (by norm_num)
    (by norm_num) (by decide) (by decide)
  obtain rfl : e = 1 := by
    have hlt : e < 2 := he.root.1
    have hne := he.ne
    omega
  have hhalf : ((apart 3 1 2 (by norm_num) (by norm_num)).probs 0).getD 1 0 = 1 / 2 := he.half
  exact ⟨hhalf, hhalf.symm.trans_lt (he.exceeds twoRoots_batches (by norm_num))⟩

theorem oneRoot_valid : treeProblems [-1, 0, 0] 3 (List.replicate 9 true).length = [] := by decide

theorem oneRoot_lt : ∀ t ∈ [0, 0, 1], t < 2 := by simp

theorem oneRoot_fits : ∀ t ∈ [0, 0, 1], t < 2 ^ 32 := by simp

theorem oneRoot_siblings : ∀ i < 3, ∀ j < 3, i ≠ j →
    parentOf [-1, 0, 0] i = parentOf [-1, 0, 0] j → [0, 0, 1].getD i 0 ≠ [0, 0, 1].getD j 0 := by
  decide

theorem oneRoot_branching : ∃ i < 3, ∃ j < 3, i ≠ j ∧
    parentOf [-1, 0, 0] i = parentOf [-1, 0, 0] j :=
  ⟨1, by decide, 2, by decide, by decide, by decide⟩

/-- One root with two children. -/
def oneRoot : ForestDraft 2 where
  tree := ⟨[-1, 0, 0], 3, List.replicate 9 true, oneRoot_valid⟩
  tokens := [0, 0, 1]
  length_eq := rfl
  lt := oneRoot_lt
  fits := oneRoot_fits
  siblings := oneRoot_siblings
  branching := oneRoot_branching

theorem oneRoot_batches :
    ForestBatches oneRoot 0 (forestInput oneRoot) [firstState] fun u _ => extend u :=
  forestInput_batches oneRoot (by norm_num) (by decide) (by decide) rfl

theorem oneRoot_exact :
    (cube 4).real {u | FirstToken (f := oneRoot) (forestInput oneRoot) [firstState]
      (fun u _ => extend u) 0 (apart 2 0 1 (by norm_num) (by norm_num)) 1 u} = 1 / 2 := by
  have hroot : ∀ r, oneRoot.Root r → r = 0 := by
    intro r hr
    have hlt : r < 3 := hr.1
    have hnone := hr.2
    interval_cases r
    · rfl
    · exact absurd hnone (by decide)
    · exact absurd hnone (by decide)
  refine ((branching_exact_iff oneRoot_batches).mpr
    ⟨by norm_num, Or.inl fun r s hr hs => (hroot r hr).trans (hroot s hs).symm⟩ _ 1
      (by norm_num)).trans ?_
  refine (halves_getD (by norm_num)).trans ?_
  norm_num

end Single

end R9v

import R9v.T0.Numbers

/-!
# What the filters keep

The tokens of a row are ranked by their logits, and every filter keeps the front of the ranking
(`filters_keep_front`): `top_k` so many, `top_p` as many as it takes to reach a sum, and `min_p`
those that are not much less likely than the first. One candidate always survives.
-/

namespace R9v.Postprocess

open Scalar Checked List

variable {F : Type} [Logit F]

/-! ### The ranking -/

/-- The order of the ranking: by the logit, from the greatest on, and by the index. -/
def Before (work : List F) (a b : ℕ) : Prop :=
  lt (work.getD b 0) (work.getD a 0) = true ∨
    (Logit.eq (work.getD a 0) (work.getD b 0) = true ∧ a < b)

/-- No logit of a row is no number, or infinite. -/
def Fine (work : List F) : Prop :=
  ∀ l ∈ work, Logit.isNaN l = false ∧ Logit.eq l Logit.posInf = false

theorem fine_of_checkLogits {seq query : ℕ} {work : List F}
    (h : checkLogits seq query work = .ok ()) : Fine work := by
  intro l hl
  obtain ⟨i, hi, rfl⟩ := getElem_of_mem hl
  have hcheck := forM_eq_ok.mp h (work[i], i)
    (mem_zipIdx_iff_getElem?.mpr (getElem?_eq_getElem hi))
  have hok := ensure_eq_ok.mp hcheck
  simpa using hok

section Order

variable {work : List F} {a b c : ℕ}

theorem Fine.isNaN_getD (laws : Lawful F) (h : Fine work) (i : ℕ) :
    Logit.isNaN (work.getD i 0) = false := by
  rcases Nat.lt_or_ge i work.length with hi | hi
  · rw [getD_eq_getElem _ _ hi]
    exact (h _ (getElem_mem hi)).1
  · rw [getD_eq_default _ _ hi]
    exact laws.isNaN_zero

theorem Fine.isReal (laws : Lawful F) (h : Fine work) {i : ℕ} (hi : i < work.length)
    (hun : unmasked (work.getD i 0) = true) : IsReal (work.getD i 0) := by
  have hnan := h.isNaN_getD laws i
  refine ⟨hnan, hun, laws.lt_iff.mpr ⟨laws.le_posInf hnan, ?_⟩⟩
  rw [← Bool.not_eq_true]
  intro hle
  have heq := laws.eq_iff.mpr ⟨laws.le_posInf hnan, hle⟩
  rw [getD_eq_getElem _ _ hi] at heq
  rw [(h _ (getElem_mem hi)).2] at heq
  cases heq

/-- A token is ranked before another, or is that token, if its logit is not less, and its index is
not greater where the logits are equal. -/
theorem rankLe_iff (laws : Lawful F) : rankLe work a b = true ↔
    ¬lt (work.getD a 0) (work.getD b 0) = true ∧
      ¬(Logit.eq (work.getD a 0) (work.getD b 0) = true ∧ b < a) := by
  have hlt : lt (-work.getD b 0) (-work.getD a 0) = true ↔
      lt (work.getD a 0) (work.getD b 0) = true := by
    rw [laws.lt_iff, laws.lt_iff, laws.le_neg, laws.le_neg]
  have heq : Logit.eq (-work.getD a 0) (-work.getD b 0) = true ↔
      Logit.eq (work.getD a 0) (work.getD b 0) = true := by
    rw [laws.eq_iff, laws.eq_iff, laws.le_neg, laws.le_neg, and_comm]
  rw [rankLe, Bool.not_eq_true', Bool.or_eq_false_iff, Bool.and_eq_false_iff, ← Bool.not_eq_true,
    ← Bool.not_eq_true, hlt, heq, decide_eq_false_iff_not, not_and_or]

theorem rankLe_iff_before (laws : Lawful F) (h : Fine work) :
    rankLe work a b = true ↔ Before work a b ∨ a = b := by
  have ha := h.isNaN_getD laws a
  have hb := h.isNaN_getD laws b
  rw [rankLe_iff laws, Before]
  constructor
  · rintro ⟨hlt, heq⟩
    have hle := laws.le_of_not_lt ha hb hlt
    by_cases hge : le (work.getD a 0) (work.getD b 0) = true
    · have hboth := laws.eq_iff.mpr ⟨hge, hle⟩
      rcases Nat.lt_trichotomy a b with hab | hab | hab
      · exact Or.inl (Or.inr ⟨hboth, hab⟩)
      · exact Or.inr hab
      · exact absurd ⟨hboth, hab⟩ heq
    · exact Or.inl (Or.inl (laws.lt_iff.mpr ⟨hle, Bool.eq_false_of_not_eq_true hge⟩))
  · have hself : ¬lt (work.getD b 0) (work.getD b 0) = true := fun hlt => by
      obtain ⟨hle, hno⟩ := laws.lt_iff.mp hlt
      rw [hle] at hno
      cases hno
    rintro ((hlt | ⟨heq, hab⟩) | rfl)
    · obtain ⟨hle, hno⟩ := laws.lt_iff.mp hlt
      refine ⟨fun h' => ?_, fun h' => ?_⟩
      · rw [(laws.lt_iff.mp h').1] at hno
        cases hno
      · rw [(laws.eq_iff.mp h'.1).1] at hno
        cases hno
    · obtain ⟨hle, hge⟩ := laws.eq_iff.mp heq
      refine ⟨fun h' => ?_, fun h' => absurd h'.2 (by omega)⟩
      have hno := (laws.lt_iff.mp h').2
      rw [hge] at hno
      cases hno
    · exact ⟨hself, fun h' => absurd h'.2 (Nat.lt_irrefl _)⟩

theorem Before.trans (laws : Lawful F) (h : Before work a b) (h' : Before work b c) :
    Before work a c := by
  rcases h with h | ⟨heq, hab⟩ <;> rcases h' with h' | ⟨heq', hbc⟩
  · exact Or.inl (laws.lt_of_lt_of_le h' (laws.lt_iff.mp h).1)
  · exact Or.inl (laws.lt_of_le_of_lt (laws.eq_iff.mp heq').2 h)
  · exact Or.inl (laws.lt_of_lt_of_le h' (laws.eq_iff.mp heq).2)
  · exact Or.inr ⟨laws.eq_iff.mpr ⟨laws.le_trans (laws.eq_iff.mp heq).1 (laws.eq_iff.mp heq').1,
      laws.le_trans (laws.eq_iff.mp heq').2 (laws.eq_iff.mp heq).2⟩, hab.trans hbc⟩

theorem rankLe_total (laws : Lawful F) (a b : ℕ) :
    rankLe work a b = true ∨ rankLe work b a = true := by
  by_contra hno
  simp only [rankLe_iff laws, not_or, not_and_or, not_not] at hno
  obtain ⟨hab, hba⟩ := hno
  have hirr : ∀ {x y : F}, lt x y = true → le y x = true → False := fun hlt hle => by
    have hf := (laws.lt_iff.mp hlt).2
    rw [hle] at hf
    cases hf
  rcases hab with hab | ⟨heq, hba'⟩
  · rcases hba with hba | ⟨heq, -⟩
    · exact hirr hab (laws.lt_iff.mp hba).1
    · exact hirr hab (laws.eq_iff.mp heq).1
  · rcases hba with hba | ⟨-, hab'⟩
    · exact hirr hba (laws.eq_iff.mp heq).1
    · omega

/-- **The ranking** is in order. -/
theorem pairwise_ranking (laws : Lawful F) (h : Fine work) :
    (ranking work).Pairwise (Before work) := by
  have : Std.Total fun a b => rankLe work a b = true := ⟨rankLe_total laws⟩
  have : IsTrans ℕ fun a b => rankLe work a b = true := ⟨fun a b c hab hbc => by
    rw [rankLe_iff_before laws h] at *
    rcases hab with hab | rfl
    · rcases hbc with hbc | rfl
      · exact Or.inl (hab.trans laws hbc)
      · exact Or.inl hab
    · exact hbc⟩
  have hsorted : (ranking work).Pairwise fun a b => rankLe work a b = true :=
    pairwise_insertionSort _ _
  have hnodup : (ranking work).Nodup :=
    (perm_insertionSort _ _).nodup_iff.mpr (nodup_range.filter _)
  refine (hsorted.and hnodup).imp fun hab => ?_
  exact ((rankLe_iff_before laws h).mp hab.1).resolve_right hab.2

end Order

/-! ### The softmax -/

section Softmax

variable {work : List F}

theorem foldl_max_spec (laws : Lawful F) {l : List F} {init : F} (hinit : Logit.isNaN init = false)
    (hl : ∀ a ∈ l, Logit.isNaN a = false) :
    le init (l.foldl Scalar.max init) = true ∧ (∀ a ∈ l, le a (l.foldl Scalar.max init) = true) ∧
      (l.foldl Scalar.max init = init ∨ l.foldl Scalar.max init ∈ l) := by
  induction l generalizing init with
  | nil =>
    exact ⟨(laws.le_total hinit hinit).elim id id, fun a ha => absurd ha not_mem_nil,
      Or.inl rfl⟩
  | cons b l ih =>
    obtain ⟨hb, hl⟩ := forall_mem_cons.mp hl
    obtain ⟨hle, hle', hmax⟩ := laws.le_max hinit hb
    obtain ⟨hlo, hall, hmem⟩ := ih (laws.ok_of_le hle).2 hl
    refine ⟨laws.le_trans hle hlo, forall_mem_cons.mpr ⟨laws.le_trans hle' hlo, hall⟩, ?_⟩
    rcases hmem with heq | hmem
    · rcases hmax with h | h
      · exact Or.inl (heq.trans h)
      · refine Or.inr (mem_cons.mpr (Or.inl (heq.trans h)))
    · exact Or.inr (mem_cons_of_mem _ hmem)

/-- **The greatest logit** is that of a token, and no token has a greater one. -/
theorem maxLogit_spec (laws : Lawful F) (h : Fine work) (hpossible : Possible work) :
    (∃ i < work.length, unmasked (work.getD i 0) = true ∧ maxLogit work = work.getD i 0) ∧
      ∀ l ∈ work, unmasked l = true → le l (maxLogit work) = true := by
  have hnan : Logit.isNaN (Logit.negInf : F) = false :=
    (laws.ok_of_le (laws.negInf_le laws.isNaN_zero)).1
  obtain ⟨-, hall, hmem⟩ := foldl_max_spec laws (l := work.filter unmasked) hnan fun a ha =>
    (h a (mem_of_mem_filter ha)).1
  refine ⟨?_, fun l hl hun => hall l (mem_filter.mpr ⟨hl, hun⟩)⟩
  have hmem' : maxLogit work ∈ work.filter unmasked := by
    refine hmem.resolve_left fun heq => ?_
    obtain ⟨l, hl⟩ := exists_mem_of_length_pos (Nat.pos_of_ne_zero hpossible)
    refine laws.not_le_of_lt (mem_filter.mp hl).2 ?_
    have hle := hall l hl
    rwa [heq] at hle
  obtain ⟨hwork, hun⟩ := mem_filter.mp hmem'
  obtain ⟨i, hi, heq⟩ := getElem_of_mem hwork
  rw [← getD_eq_getElem _ 0 hi] at heq
  exact ⟨i, hi, heq ▸ hun, heq.symm⟩

theorem le_foldl_add (laws : Lawful F) {l : List F} {s : F} (hs : le 0 s = true)
    (hl : ∀ a ∈ l, le 0 a = true) :
    le s (l.foldl (· + ·) s) = true ∧ ∀ a ∈ l, le a (l.foldl (· + ·) s) = true := by
  induction l generalizing s with
  | nil =>
    have hnan := (laws.ok_of_le hs).2
    exact ⟨(laws.le_total hnan hnan).elim id id, fun a ha => absurd ha not_mem_nil⟩
  | cons b l ih =>
    obtain ⟨hb, hl⟩ := forall_mem_cons.mp hl
    obtain ⟨hle, hle'⟩ := laws.le_add hs hb
    obtain ⟨hlo, hall⟩ := ih (laws.le_trans hs hle) hl
    exact ⟨laws.le_trans hle hlo, forall_mem_cons.mpr ⟨laws.le_trans hle' hlo, hall⟩⟩

theorem expSum_eq (maxL : F) (work : List F) :
    expSum maxL work = ((work.filter unmasked).map fun l => exp (l - maxL)).foldl (· + ·) 0 := by
  rw [expSum, foldl_map, foldl_filter]

theorem Fine.isReal_of_mem (laws : Lawful F) (h : Fine work) {l : F} (hl : l ∈ work)
    (hun : unmasked l = true) : IsReal l := by
  obtain ⟨i, hi, rfl⟩ := getElem_of_mem hl
  rw [← getD_eq_getElem _ 0 hi] at hun ⊢
  exact h.isReal laws hi hun

theorem one_le_expSum (laws : Lawful F) (h : Fine work) (hpossible : Possible work) :
    le 1 (expSum (maxLogit work) work) = true := by
  obtain ⟨⟨i, hi, hun, heq⟩, hall⟩ := maxLogit_spec laws h hpossible
  have hmax : IsReal (maxLogit work) := heq ▸ h.isReal laws hi hun
  have hzero : le (0 : F) 0 = true := (laws.le_total laws.isNaN_zero laws.isNaN_zero).elim id id
  rw [expSum_eq]
  have hterms := (le_foldl_add laws hzero
    (l := (work.filter unmasked).map fun l => exp (l - maxLogit work)) fun a ha => by
      obtain ⟨l, hl, rfl⟩ := mem_map.mp ha
      obtain ⟨hmem, hun⟩ := mem_filter.mp hl
      exact laws.exp_nonneg (h.isReal_of_mem laws hmem hun) hmax (hall l hmem hun)).2
  refine hterms 1 (mem_map.mpr ⟨maxLogit work, mem_filter.mpr ⟨?_, heq ▸ hun⟩, ?_⟩)
  · rw [heq, getD_eq_getElem _ _ hi]
    exact getElem_mem hi
  · rw [laws.sub_self hmax, laws.exp_zero]

theorem getD_softmax {i : ℕ} (hi : i < work.length) : (softmax work).getD i 0 =
    expOf (maxLogit work) (work.getD i 0) * (1 / expSum (maxLogit work) work) := by
  rw [getD_eq_getElem _ _ (by rwa [length_softmax]), getD_eq_getElem _ _ hi]
  exact getElem_map _

/-- **The probabilities** do not increase along the ranking. -/
theorem softmax_antitone (laws : Lawful F) (h : Fine work) (hpossible : Possible work)
    (hfinite : isFinite (expSum (maxLogit work) work) = true) {a b : ℕ} (ha : a ∈ ranking work)
    (hb : b ∈ ranking work) (hab : Before work a b) :
    le ((softmax work).getD b 0) ((softmax work).getD a 0) = true := by
  obtain ⟨⟨i, hi, hun, heq⟩, hall⟩ := maxLogit_spec laws h hpossible
  obtain ⟨hlt, hua⟩ := mem_ranking.mp ha
  obtain ⟨hlt', hub⟩ := mem_ranking.mp hb
  have hle : le (work.getD b 0) (work.getD a 0) = true := by
    rcases hab with hab | ⟨hab, -⟩
    · exact (laws.lt_iff.mp hab).1
    · exact (laws.eq_iff.mp hab).2
  have hmem : work.getD a 0 ∈ work := by
    rw [getD_eq_getElem _ _ hlt]
    exact getElem_mem hlt
  rw [getD_softmax hlt, getD_softmax hlt', expOf, if_pos hub, expOf, if_pos hua]
  exact laws.exp_mono (h.isReal laws hlt' hub) (h.isReal laws hlt hua)
    (heq ▸ h.isReal laws hi hun) hle
    (hall _ hmem hua) hfinite (one_le_expSum laws h hpossible)

end Softmax

/-! ### The filters -/

section Filters

variable {work probs : List F} {p : SamplingParams F} {candidates : List ℕ}

/-- The sum of the probabilities of some candidates. -/
def cumulative (probs : List F) (candidates : List ℕ) : F :=
  candidates.foldl (fun sum idx => sum + probs.getD idx 0) 0

theorem nucleus_spec (topP s : F) (candidates : List ℕ) :
    nucleus probs topP s candidates ≤ candidates.length ∧
    (∀ m, 0 < m → m < nucleus probs topP s candidates →
      le topP ((candidates.take m).foldl (fun sum idx => sum + probs.getD idx 0) s) = false) ∧
    (nucleus probs topP s candidates = candidates.length ∨
      le topP ((candidates.take (nucleus probs topP s candidates)).foldl
        (fun sum idx => sum + probs.getD idx 0) s) = true) := by
  induction candidates generalizing s with
  | nil => exact ⟨le_rfl, fun m hm hlt => absurd hlt (Nat.not_lt_zero m), Or.inl rfl⟩
  | cons idx rest ih =>
    rw [nucleus]
    by_cases hreach : le topP (s + probs.getD idx 0) = true
    · rw [if_pos hreach]
      exact ⟨Nat.succ_le_succ (Nat.zero_le _), fun m hm hlt => by omega, Or.inr hreach⟩
    · rw [if_neg hreach]
      obtain ⟨hle, hbefore, hlast⟩ := ih (s + probs.getD idx 0)
      refine ⟨Nat.succ_le_succ hle, fun m hm hlt => ?_, ?_⟩
      · obtain ⟨m, rfl⟩ := Nat.exists_eq_succ_of_ne_zero hm.ne'
        rcases Nat.eq_zero_or_pos m with rfl | hm'
        · exact Bool.eq_false_of_not_eq_true hreach
        · exact hbefore m hm' (Nat.lt_of_succ_lt_succ hlt)
      · exact hlast.imp_left (congrArg Nat.succ)

/-- **The filter `top_p`** keeps the shortest front whose sum is reached, or everything. -/
theorem keepTopP_spec (hne : candidates ≠ []) (hpos : le p.topP 0 = false) :
    ∃ n ≤ candidates.length, keepTopP p probs candidates = candidates.take n ∧
      (lt p.topP 1 = false → n = candidates.length) ∧
      (lt p.topP 1 = true →
        (∀ m < n, le p.topP (cumulative probs (candidates.take m)) = false) ∧
        (n = candidates.length ∨ le p.topP (cumulative probs (candidates.take n)) = true)) := by
  rw [keepTopP]
  cases hlt : lt p.topP 1 with
  | false =>
    exact ⟨candidates.length, le_rfl, take_length.symm, fun _ => rfl, fun h => by cases h⟩
  | true =>
    obtain ⟨hle, hbefore, hlast⟩ := @nucleus_spec F _ probs p.topP 0 candidates
    have hone : 1 ≤ nucleus probs p.topP 0 candidates := by
      obtain _ | ⟨idx, rest⟩ := candidates
      · exact absurd rfl hne
      · rw [nucleus]
        split <;> omega
    rw [show (nucleus probs p.topP 0 candidates).max 1 = nucleus probs p.topP 0 candidates from
      Nat.max_eq_left hone]
    refine ⟨_, hle, rfl, (fun h => by cases h), fun _ => ⟨fun m hm => ?_, hlast⟩⟩
    rcases Nat.eq_zero_or_pos m with rfl | hm'
    · exact hpos
    · exact hbefore m hm' hm

omit [Logit F] in
/-- A filter that keeps whatever stands before what it keeps keeps the front. -/
theorem filter_isPrefix {α : Type} {q : α → Bool} {l : List α}
    (h : l.Pairwise fun a b => q b = true → q a = true) : l.filter q <+: l := by
  induction l with
  | nil => exact prefix_rfl
  | cons a l ih =>
    obtain ⟨ha, hl⟩ := pairwise_cons.mp h
    by_cases hqa : q a = true
    · rw [filter_cons_of_pos hqa]
      exact cons_prefix_cons.mpr ⟨rfl, ih hl⟩
    · rw [filter_cons_of_neg hqa, filter_eq_nil_iff.mpr fun b hb hqb => hqa (ha b hb hqb)]
      exact nil_prefix

/-- **The filter `min_p`** keeps the front. -/
theorem keepMinP_isPrefix (laws : Lawful F)
    (h : candidates.Pairwise fun a b => le (probs.getD b 0) (probs.getD a 0) = true) :
    keepMinP p probs candidates <+: candidates := by
  obtain _ | ⟨first, rest⟩ := candidates
  · exact prefix_rfl
  · rw [keepMinP]
    split
    · dsimp only
      split
      · exact take_prefix _ _
      · exact filter_isPrefix (h.imp fun hab hb => laws.le_trans hb hab)
    · exact prefix_rfl

end Filters

/-! ### The token of the greatest logit -/

section Greedy

variable {work : List F}

/-- The loop takes the first of the greatest logits, if one is greater than what it starts with. -/
theorem greedy_spec (laws : Lawful F) {l : List F} {best : F × ℕ} {k : ℕ}
    (hbest : Logit.isNaN best.1 = false) (hl : ∀ a ∈ l, Logit.isNaN a = false) :
    ((l.zipIdx k).foldl (fun (best : F × ℕ) (x : F × ℕ) => if lt best.1 x.1 then x else best) best =
        best ∧ ∀ a ∈ l, ¬lt best.1 a = true) ∨
      ∃ i, ∃ hi : i < l.length, (l.zipIdx k).foldl
          (fun (best : F × ℕ) (x : F × ℕ) => if lt best.1 x.1 then x else best) best =
            (l[i], k + i) ∧ lt best.1 l[i] = true ∧ (∀ a ∈ l, le a l[i] = true) ∧
        ∀ j, ∀ hj : j < i, lt l[j] l[i] = true := by
  induction l generalizing best k with
  | nil => exact Or.inl ⟨rfl, fun a ha => absurd ha not_mem_nil⟩
  | cons b l ih =>
    obtain ⟨hb, hl⟩ := forall_mem_cons.mp hl
    rw [zipIdx_cons, foldl_cons]
    by_cases hlt : lt best.1 b = true
    · rw [if_pos hlt]
      rcases @ih (b, k) (k + 1) hb hl with ⟨heq, hall⟩ | ⟨i, hi, heq, hgt, hall, hfirst⟩
      · refine Or.inr ⟨0, Nat.succ_pos _, heq, hlt, forall_mem_cons.mpr ⟨?_, fun a ha => ?_⟩,
          fun j hj => absurd hj (Nat.not_lt_zero j)⟩
        · exact (laws.le_total hb hb).elim id id
        · exact laws.le_of_not_lt hb (hl a ha) (hall a ha)
      · refine Or.inr
          ⟨i + 1, Nat.succ_lt_succ hi, heq.trans (by rw [getElem_cons_succ]; congr 1; omega),
          laws.lt_of_lt_of_le hlt (laws.lt_iff.mp hgt).1,
          forall_mem_cons.mpr ⟨(laws.lt_iff.mp hgt).1, hall⟩, fun j hj => ?_⟩
        obtain _ | j := j
        · exact hgt
        · exact hfirst j (Nat.lt_of_succ_lt_succ hj)
    · rw [if_neg hlt]
      have hle := laws.le_of_not_lt hbest hb hlt
      rcases @ih best (k + 1) hbest hl with ⟨heq, hall⟩ | ⟨i, hi, heq, hgt, hall, hfirst⟩
      · exact Or.inl ⟨heq, forall_mem_cons.mpr ⟨hlt, hall⟩⟩
      · have hgt' := laws.lt_of_le_of_lt hle hgt
        refine Or.inr
          ⟨i + 1, Nat.succ_lt_succ hi, heq.trans (by rw [getElem_cons_succ]; congr 1; omega),
          hgt, forall_mem_cons.mpr ⟨(laws.lt_iff.mp hgt').1, hall⟩, fun j hj => ?_⟩
        obtain _ | j := j
        · exact hgt'
        · exact hfirst j (Nat.lt_of_succ_lt_succ hj)

/-- **The greedy token** is the first of the ranking. -/
theorem greedyToken_eq (laws : Lawful F) (h : Fine work) (hpossible : Possible work) :
    greedyToken work = (ranking work).headD 0 := by
  have hnan : Logit.isNaN (Logit.negInf : F) = false :=
    (laws.ok_of_le (laws.negInf_le laws.isNaN_zero)).1
  rcases @greedy_spec F _ laws work (Logit.negInf, 0) 0 hnan fun a ha => (h a ha).1 with
    ⟨-, hall⟩ | ⟨i, hi, heq, hgt, hall, hfirst⟩
  · obtain ⟨l, hl⟩ := exists_mem_of_length_pos (Nat.pos_of_ne_zero hpossible)
    obtain ⟨hmem, hun⟩ := mem_filter.mp hl
    exact absurd hun (hall l hmem)
  · have htoken : greedyToken work = i := by
      rw [greedyToken, heq, Nat.zero_add]
    rw [htoken]
    rw [← getD_eq_getElem _ 0 hi] at hgt
    have hmem : i ∈ ranking work := mem_ranking.mpr ⟨hi, hgt⟩
    have hsorted := pairwise_ranking laws h
    obtain ⟨first, rest, hranking⟩ := exists_cons_of_ne_nil hpossible.ranking_ne_nil
    rw [hranking] at hmem hsorted ⊢
    refine (mem_cons.mp hmem).resolve_right fun hrest => ?_
    have hfirstmem : first ∈ ranking work := hranking ▸ mem_cons_self
    obtain ⟨hlt, -⟩ := mem_ranking.mp hfirstmem
    have hbefore := (pairwise_cons.mp hsorted).1 i hrest
    rw [Before, getD_eq_getElem _ _ hi, getD_eq_getElem _ _ hlt] at hbefore
    rcases hbefore with hlt' | ⟨heq', hfi⟩
    · exact laws.not_le_of_lt hlt' (hall _ (getElem_mem hlt))
    · exact laws.not_le_of_lt (hfirst first hfi) (laws.eq_iff.mp heq').2

end Greedy

/-! ### The rows -/

/-- What the filters make of a row: its logits after the transformation, and its probabilities. -/
structure Filtered (p : SamplingParams F) (mask : Option (List Bool)) (work row : List F) :
    Prop where
  /-- The ranking has the tokens that are possible, in order. -/
  ranked : (ranking work).Pairwise (Before work) ∧
    ∀ tok, tok ∈ ranking work ↔ tok < work.length ∧ lt Logit.negInf (work.getD tok 0) = true
  /-- What has a probability is among the first tokens, of which there are at most `top_k`. -/
  top_k : ∃ n, (0 < p.topK → n ≤ p.topK) ∧ ∀ tok, row.getD tok 0 ≠ 0 → tok ∈ (ranking work).take n
  /-- An impossible token has none. -/
  masked : ∀ tok < work.length, (mask.bind fun m => m[tok]?) = some false ∨
    work.getD tok 0 = Logit.negInf → row.getD tok 0 = 0
  /-- What has a probability has passed all filters, one after another. -/
  kept : Logit.eq p.temperature 0 = false → ∀ tok, row.getD tok 0 ≠ 0 →
    tok ∈ keepMinP p (softmax work) (keepTopP p (softmax work) (keepTopK p (ranking work)))
  /-- Something passes each of the filters. -/
  survives : keepTopK p (ranking work) ≠ [] ∧
    keepTopP p (softmax work) (keepTopK p (ranking work)) ≠ [] ∧
    keepMinP p (softmax work) (keepTopP p (softmax work) (keepTopK p (ranking work))) ≠ []
  /-- The shortest front is kept that reaches the sum. -/
  top_p : ∃ n ≤ (keepTopK p (ranking work)).length,
    keepTopP p (softmax work) (keepTopK p (ranking work)) = (keepTopK p (ranking work)).take n ∧
    (lt p.topP 1 = false → n = (keepTopK p (ranking work)).length) ∧
    (lt p.topP 1 = true →
      (∀ m < n, le p.topP (cumulative (softmax work) ((keepTopK p (ranking work)).take m)) =
        false) ∧
      (n = (keepTopK p (ranking work)).length ∨
        le p.topP (cumulative (softmax work) ((keepTopK p (ranking work)).take n)) = true))
  /-- What is removed is ranked after everything that is kept. -/
  min_p : Logit.eq p.temperature 0 = false →
    keepMinP p (softmax work) (keepTopP p (softmax work) (keepTopK p (ranking work))) <+:
      keepTopP p (softmax work) (keepTopK p (ranking work))
  greedy : Logit.eq p.temperature 0 = true →
    row = (List.replicate work.length 0).set ((ranking work).headD 0) 1

section Rows

variable {p : SamplingParams F} {work : List F} {mask : Option (List Bool)} {tok : ℕ}

theorem getD_set_zero {n i : ℕ} {a : F} (h : ((List.replicate n 0).set i a).getD tok 0 ≠ 0) :
    tok = i := by
  by_contra hne
  refine h ?_
  rw [getD_eq_getElem?_getD, getElem?_set_ne (Ne.symm hne), ← getD_eq_getElem?_getD,
    getD_eq_getElem?_getD, getElem?_getD_replicate_default_eq]

/-- **What has a probability** is the greedy token, or has passed the filters. -/
theorem mem_of_rowProbs_ne_zero (hpossible : Possible work)
    (h : (rowProbs p work).getD tok 0 ≠ 0) :
    (Logit.eq p.temperature 0 = true ∧ tok = greedyToken work) ∨
      (Logit.eq p.temperature 0 = false ∧ tok ∈ survivors p work) := by
  rw [rowProbs, map_const'] at h
  cases htemp : Logit.eq p.temperature 0 with
  | true =>
    rw [if_pos htemp] at h
    exact Or.inl ⟨rfl, getD_set_zero h⟩
  | false =>
    rw [if_neg (by rw [htemp]; exact Bool.false_ne_true)] at h
    refine Or.inr ⟨rfl, ?_⟩
    split at h
    · by_contra hno
      refine h ?_
      rcases Nat.lt_or_ge tok (softmax work).length with hlt | hge
      · rw [getD_eq_getElem _ _ (by simpa using hlt), getElem_map, getElem_zipIdx,
          Nat.zero_add, if_neg hno]
      · rw [getD_eq_default _ _ (by simpa using hge)]
    · obtain ⟨first, rest, hcons⟩ :=
          exists_cons_of_ne_nil (hpossible.survivors_ne_nil (p := p))
      rw [getD_set_zero h, hcons]
      exact mem_cons_self

theorem getD_applyMask {m : List Bool} {l : List F} (htok : m[tok]? = some false)
    (hlt : tok < l.length) : (applyMask (some m) l).getD tok 0 = Logit.negInf := by
  rw [applyMask, getD_eq_getElem?_getD, getElem?_zipWith, htok,
    getElem?_eq_getElem hlt]
  rfl

/-- **A row is filtered.** -/
theorem filtered_rowProbs (laws : Lawful F) (hfine : Fine work) (hpossible : Possible work)
    (hfinite : Logit.eq p.temperature 0 = false →
      isFinite (expSum (maxLogit work) work) = true)
    (hpos : le p.topP 0 = false)
    (hmask : ∀ tok < work.length, (mask.bind fun m => m[tok]?) = some false →
      work.getD tok 0 = Logit.negInf) :
    Filtered p mask work (rowProbs p work) := by
  have hsorted := pairwise_ranking laws hfine
  have hgreedy := greedyToken_eq laws hfine hpossible
  obtain ⟨first, rest, hranking⟩ := exists_cons_of_ne_nil hpossible.ranking_ne_nil
  have hheadmem : greedyToken work ∈ (ranking work).take 1 := by
    rw [hgreedy, hranking]
    exact mem_cons_self
  obtain ⟨n, hn, htopK, hle⟩ := @keepTopK_eq_take F p (ranking work)
  have hne : keepTopK p (ranking work) ≠ [] := by
    rw [htopK]
    exact take_ne_nil hn hpossible.ranking_ne_nil
  obtain ⟨m, hm, htopP⟩ := @keepTopP_eq_take F _ p (softmax work) (keepTopK p (ranking work))
  have hne' : keepTopP p (softmax work) (keepTopK p (ranking work)) ≠ [] := by
    rw [htopP]
    exact take_ne_nil hm hne
  have hmem : ∀ tok, (rowProbs p work).getD tok 0 ≠ 0 → tok ∈ ranking work := by
    intro tok h
    rcases mem_of_rowProbs_ne_zero hpossible h with ⟨-, rfl⟩ | ⟨-, h⟩
    · exact mem_of_mem_take hheadmem
    · exact survivors_subset h
  refine ⟨⟨hsorted, fun tok => mem_ranking⟩, ?_, fun tok hlt h => ?_, fun htemp tok h => ?_,
    ⟨hne, hne', keepMinP_ne_nil hne'⟩, keepTopP_spec hne hpos, fun htemp => ?_, fun htemp => ?_⟩
  · cases htemp : Logit.eq p.temperature 0 with
    | true =>
      refine ⟨1, fun h => h, fun tok h => ?_⟩
      rcases mem_of_rowProbs_ne_zero hpossible h with ⟨-, rfl⟩ | ⟨hno, -⟩
      · exact hheadmem
      · rw [htemp] at hno
        cases hno
    | false =>
      refine ⟨n, hle, fun tok h => ?_⟩
      rcases mem_of_rowProbs_ne_zero hpossible h with ⟨hno, -⟩ | ⟨-, h⟩
      · rw [htemp] at hno
        cases hno
      · rw [survivors, htopP] at h
        rw [← htopK]
        exact mem_of_mem_take (keepMinP_subset h)
  · by_contra hno
    have hun := (mem_ranking.mp (hmem tok hno)).2
    rw [h.elim (hmask tok hlt) id] at hun
    exact laws.lt_irrefl hun
  · rcases mem_of_rowProbs_ne_zero hpossible h with ⟨hno, -⟩ | ⟨-, h⟩
    · rw [htemp] at hno
      cases hno
    · exact h
  · -- the candidates are a part of the ranking, along which the probabilities do not increase
    have hsub : (keepTopP p (softmax work) (keepTopK p (ranking work))).Sublist (ranking work) := by
      rw [htopP, htopK]
      exact (take_sublist _ _).trans (take_sublist _ _)
    refine keepMinP_isPrefix laws ((hsorted.sublist hsub).imp_of_mem fun ha hb hab => ?_)
    exact softmax_antitone laws hfine hpossible (hfinite htemp) (hsub.subset ha)
      (hsub.subset hb) hab
  · rw [rowProbs, if_pos htemp, map_const', hgreedy]

end Rows

/-- A row of a call that succeeds, with what is known of its inputs. -/
theorem filtered_of_eq_ok (laws : Lawful F) {x : PostprocessInput F} {outProbs out : List F}
    (h : x.logitsPostprocess outProbs = (.ok (), out)) {seq query : ℕ} (hseq : seq < x.s)
    (hquery : query < x.q) : ∃ p, x.params[seq]? = some p ∧ p.problems = [] ∧
      (x.row p (seq, query)).Sized x.v ∧ Fine (x.row p (seq, query)).work ∧
      Filtered p (x.row p (seq, query)).mask (x.row p (seq, query)).work
        (getRow x.v out (x.rowNo (seq, query))) := by
  rcases x.logitsPostprocess_cases outProbs with ⟨e, he⟩ | ⟨haccepts, out', hout, -, hall⟩
  · rw [he] at h
    cases (Prod.mk.inj h).1
  obtain rfl := (Prod.mk.inj (hout.symm.trans h)).2
  have hid : (seq, query) ∈ x.rowIds := PostprocessInput.mem_rowIds.mpr ⟨hseq, hquery⟩
  obtain ⟨p, hp, hok, hrow⟩ := hall _ hid
  have hsized := haccepts.sized hid p
  have hproblems : p.problems = [] := by
    have hnone := haccepts.params_ok p (mem_of_getElem? hp)
    rw [paramProblems, append_eq_nil_iff] at hnone
    by_contra hsome
    rw [if_neg (by simpa using hsome)] at hnone
    cases hnone.1
  have hpos : le p.topP 0 = false := by
    have hnil := hproblems
    simp only [SamplingParams.problems, append_eq_nil_iff, checkField] at hnil
    by_contra hle
    simp [hle] at hnil
  have hfine := fine_of_checkLogits hok.logits_ok
  refine ⟨p, hp, hproblems, hsized, hfine, ?_⟩
  rw [hrow]
  refine filtered_rowProbs laws hfine hok.possible (fun htemp => (hok.sum_ok htemp).2) hpos
    fun tok hlt hmask => ?_
  obtain ⟨m, hm, htok⟩ := Option.bind_eq_some_iff.mp hmask
  have hm' : (x.row p (seq, query)).mask = some m := hm
  rw [hsized.length_work, ← hsized.length_scaled] at hlt
  rw [Row.work, transform, hm']
  exact getD_applyMask htok hlt

/-- **The filters keep the front of the ranking**, in every row of a call that succeeds, and no call
looks for a candidate where there is none. -/
theorem filters_keep_front (laws : Lawful F) (x : PostprocessInput F) (outProbs out : List F) :
    (x.logitsPostprocess outProbs).1 ≠ .error .panic ∧
    (x.logitsPostprocess outProbs = (.ok (), out) →
      ∀ seq < x.s, ∀ query < x.q, ∃ p, x.params[seq]? = some p ∧
        (x.row p (seq, query)).work.length = x.v ∧
        Filtered p (x.row p (seq, query)).mask (x.row p (seq, query)).work
          (getRow x.v out (x.rowNo (seq, query)))) := by
  refine ⟨?_, fun h seq hseq query hquery => ?_⟩
  · rcases x.logitsPostprocess_cases outProbs with ⟨e, he⟩ | ⟨-, out', hout, -⟩
    · rw [he]
      exact fun h => by cases h
    · rw [hout]
      exact fun h => by cases h
  · obtain ⟨p, hp, -, hsized, -, hfiltered⟩ := filtered_of_eq_ok laws h hseq hquery
    exact ⟨p, hp, hsized.length_work, hfiltered⟩

/-- Two tokens that are possible, of which the second is likelier, and one that the mask forbids. -/
def threeTokens : PostprocessInput (Num .exact) where
  logits := [.ofRat 1, .ofRat 2, .ofRat 3]
  s := 1
  q := 1
  v := 3
  params := [⟨.ofRat 1, 2, .ofRat (1 / 2), .ofRat (1 / 4), .ofRat 1, .ofRat 0, .ofRat 0, []⟩]
  historyCounts := none
  grammarMask := some [true, true, false]

theorem threeTokens_ok : (threeTokens.logitsPostprocess [0, 0, 0]).1.isOk = true := by
  decide +kernel

theorem threeTokens_front : ∃ out, threeTokens.logitsPostprocess [0, 0, 0] = (.ok (), out) ∧
    ∃ p, threeTokens.params[0]? = some p ∧ Filtered p (threeTokens.row p (0, 0)).mask
      (threeTokens.row p (0, 0)).work (getRow 3 out (threeTokens.rowNo (0, 0))) := by
  have hok := threeTokens_ok
  rcases hrun : threeTokens.logitsPostprocess [0, 0, 0] with ⟨result, out⟩
  rw [hrun] at hok
  cases result with
  | error e => cases hok
  | ok _ =>
    obtain ⟨p, hp, -, hfiltered⟩ := (filters_keep_front Num.lawful threeTokens [0, 0, 0] out).2 hrun
      0 (by decide) 0 (by decide)
    exact ⟨out, rfl, p, hp, hfiltered⟩

end R9v.Postprocess

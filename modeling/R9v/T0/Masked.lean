import R9v.T0.Alone

/-!
# Tokens without a probability

A row may sum up to a little less than 1, so that a draw can lie beyond all of it. There `sample`
takes the last token of the row, whatever its probability is, and `sample_from_distribution` the
last token that has one. A token without a probability is sampled in this case only
(`sampled_allowed`), and it may be one that the mask forbids.
-/

namespace R9v

open Scalar Checked Postprocess List

namespace Num

variable {A : Arithmetic} {u s p : Num A} {l : List (Num A)} {k t : ℕ}

/-- A number that is not negative, and finite. -/
def Weight (p : Num A) : Prop := isFinite p = true ∧ (0 : Num A).le p = true

theorem weight_iff : Weight p ↔ ∃ q h, p = fin q h ∧ 0 ≤ q := by
  constructor
  · rintro ⟨hfinite, hle⟩
    rcases nonneg_cases hle with rfl | h
    · cases hfinite
    · exact h
  · rintro ⟨q, h, rfl, hq⟩
    exact ⟨rfl, decide_eq_true hq⟩

theorem Weight.add (hs : Weight s) (hp : Weight p) : Weight (s + p) := by
  obtain ⟨q, hq, rfl, hq0⟩ := weight_iff.mp hs
  obtain ⟨r, hr, rfl, hr0⟩ := weight_iff.mp hp
  exact weight_iff.mpr ⟨_, _, rfl, round_nonneg (add_nonneg hq0 hr0)⟩

theorem Weight.add_eq (hs : Weight s) (hp : Weight p) (h : lt 0 p = false) : s + p = s := by
  obtain ⟨q, hq, rfl, -⟩ := weight_iff.mp hs
  obtain ⟨r, hr, rfl, hr0⟩ := weight_iff.mp hp
  have hno : ¬lt 0 (fin r hr : Num A) = true := by
    rw [h]
    exact Bool.false_ne_true
  have hr1 : r ≤ 0 := by
    by_contra hpos
    exact hno (lawful.lt_iff.mpr ⟨decide_eq_true hr0, decide_eq_false hpos⟩)
  obtain rfl : r = 0 := le_antisymm hr1 hr0
  refine fin_congr ?_
  rw [add_zero, hq]

theorem weight_of_validate {op : String} {seq pos : ℕ} {r : Unit}
    (h : validateDistribution l op seq pos = .ok r) : ∀ p ∈ l, Weight p := by
  intro p hp
  simp only [validateDistribution, bind_eq_ok, forM_eq_ok] at h
  obtain ⟨-, hall, -⟩ := h
  obtain ⟨i, hi, rfl⟩ := getElem_of_mem hp
  have hcheck := ensure_eq_ok.mp (hall (l[i], i)
    (mem_zipIdx_iff_getElem?.mpr (getElem?_eq_getElem hi)))
  rw [Bool.and_eq_true, Bool.not_eq_true'] at hcheck
  refine ⟨hcheck.1, ?_⟩
  have hnan : (l[i]).isNaN = false := by
    cases hl : l[i] <;> first | rfl | (rw [hl] at hcheck; cases hcheck.1)
  refine lawful.le_of_not_lt hnan rfl ?_
  rw [hcheck.2]
  exact Bool.false_ne_true

theorem reach_some (hl : ∀ p ∈ l, Weight p) (hs : Weight s) (hu : le u s = false)
    (h : reach u s k l = some t) : ∃ i < l.length, t = k + i ∧ lt 0 (l.getD i 0) = true ∧
      le u (l.foldl (· + ·) s) = true := by
  induction l generalizing s k with
  | nil => cases h
  | cons p l ih =>
    obtain ⟨hp, hl⟩ := forall_mem_cons.mp hl
    rw [reach] at h
    split at h
    · next hle =>
      refine ⟨0, Nat.succ_pos _, (Option.some.inj h).symm, ?_, ?_⟩
      · by_contra hno
        rw [hs.add_eq hp (Bool.eq_false_of_not_eq_true hno)] at hle
        change le u s = true at hle
        rw [hu] at hle
        cases hle
      · exact lawful.le_trans hle (le_foldl_add lawful (hs.add hp).2 fun a ha => (hl a ha).2).1
    · next hle =>
      obtain ⟨i, hi, rfl, hpos, htotal⟩ := ih hl (hs.add hp) (Bool.eq_false_of_not_eq_true hle) h
      exact ⟨i + 1, Nat.succ_lt_succ hi, by omega, hpos, htotal⟩

theorem reach_none (hl : ∀ p ∈ l, Weight p) (hs : Weight s) (hu : le u s = false)
    (h : reach u s k l = none) : le u (l.foldl (· + ·) s) = false := by
  induction l generalizing s k with
  | nil => exact hu
  | cons p l ih =>
    obtain ⟨hp, hl⟩ := forall_mem_cons.mp hl
    rw [reach] at h
    split at h
    · cases h
    · next hle => exact ih hl (hs.add hp) (Bool.eq_false_of_not_eq_true hle) h

theorem exists_pos (hl : ∀ p ∈ l, Weight p) (hs : Weight s)
    (h : le (l.foldl (· + ·) s) s = false) : ∃ p ∈ l, lt 0 p = true := by
  by_contra hno
  push Not at hno
  have hsum : l.foldl (· + ·) s = s := by
    induction l with
    | nil => rfl
    | cons p l ih =>
      obtain ⟨hp, hl⟩ := forall_mem_cons.mp hl
      obtain ⟨hnp, hnl⟩ := forall_mem_cons.mp hno
      rw [foldl_cons] at h ⊢
      rw [hs.add_eq hp (Bool.eq_false_of_not_eq_true hnp)] at h ⊢
      exact ih hl h hnl
  rw [hsum] at h
  have hself : le s s = true := (le_total (ok_of_le hs.2).2 (ok_of_le hs.2).2).elim id id
  rw [hself] at h
  cases h

/-! ### Tokens that are impossible -/

/-- What an impossible token has instead of a logit: it stays so, or becomes no number. -/
def Low (l : Num A) : Prop := l = nan ∨ l = negInf

theorem Low.add {l b : Num A} (h : Low l) (hb : isFinite b = true) : Low (l + b) := by
  obtain rfl | rfl := h
  · cases b <;> exact Or.inl rfl
  · cases b with
    | fin q hq => exact Or.inr rfl
    | nan => cases hb
    | negInf => cases hb
    | posInf => cases hb

theorem Low.sub {l b : Num A} (h : Low l) (hb : isFinite b = true) : Low (l - b) := by
  refine h.add (b := -b) ?_
  cases b with
  | fin q hq => rfl
  | nan => cases hb
  | negInf => cases hb
  | posInf => cases hb

theorem sign_cases {b : Num A} (hb : (0 : Num A).le b = true) : b.sign = 0 ∨ b.sign = 1 := by
  rcases nonneg_cases hb with rfl | ⟨q, hq, rfl, hq0⟩
  · exact Or.inr rfl
  · change (if 0 < q then (1 : ℤ) else if q < 0 then -1 else 0) = 0 ∨
      (if 0 < q then (1 : ℤ) else if q < 0 then -1 else 0) = 1
    split_ifs with hpos hneg
    · exact Or.inr rfl
    · exact absurd hneg hq0.not_gt
    · exact Or.inl rfl

theorem Low.mul {l b : Num A} (h : Low l) (hb : (0 : Num A).le b = true) : Low (l * b) := by
  obtain rfl | rfl := h
  · change Low (infinity (0 * b.sign))
    rw [zero_mul]
    exact Or.inl rfl
  · change Low (infinity (-1 * b.sign))
    rcases sign_cases hb with h | h
    · rw [h]
      exact Or.inl rfl
    · rw [h]
      exact Or.inr rfl

theorem Low.not_pos {l : Num A} (h : Low l) : ¬lt 0 l = true := by
  obtain rfl | rfl := h <;> exact Bool.false_ne_true

theorem le_one_div {t : Num A} (ht : isFinite t = true) (hpos : lt 0 t = true) :
    (0 : Num A).le (1 / t) = true := by
  cases t with
  | nan => cases ht
  | negInf => cases ht
  | posInf => cases ht
  | fin q hq =>
    have hq0 : 0 ≤ q := of_decide_eq_true (lawful.lt_iff.mp hpos).1
    change (0 : Num A).le (div (fin 1 A.round_one) (fin q hq)) = true
    rw [div]
    split
    · rfl
    · exact decide_eq_true (round_nonneg (div_nonneg zero_le_one hq0))

end Num

namespace Postprocess

open Num

variable {A : Arithmetic} {p : SamplingParams (Num A)} {work : List (Num A)} {tok : ℕ}

/-- What the parameters of an accepted call keep, as far as it matters for an impossible token. -/
structure SamplingParams.Tame (p : SamplingParams (Num A)) : Prop where
  temperature : isFinite p.temperature = true
  repetition : (0 : Num A).le p.repetitionPenalty = true
  presence : isFinite p.presencePenalty = true
  frequency : isFinite p.frequencyPenalty = true
  bias : ∀ b ∈ p.logitBias, isFinite b.2 = true

theorem tame_of_problems (h : p.problems = []) : p.Tame := by
  have hfield : ∀ {field reason : String} {value : Num A} {outside : Bool},
      checkField field reason value outside = [] → isFinite value = true ∧ outside = false := by
    intro field reason value outside hnil
    rw [checkField] at hnil
    split at hnil
    · cases hnil
    · next hno => simpa using hno
  simp only [SamplingParams.problems, append_eq_nil_iff, flatMap_eq_nil_iff] at h
  obtain ⟨⟨⟨⟨⟨⟨htemp, -⟩, -⟩, hrep⟩, hpres⟩, hfreq⟩, hbias⟩ := h
  obtain ⟨hfinite, hrep⟩ := hfield hrep
  refine ⟨(hfield htemp).1, ?_, (hfield hpres).1, (hfield hfreq).1,
    fun b hb => (hfield (hbias b hb)).1⟩
  -- a number that is finite and not at most 0
  have hnan : p.repetitionPenalty.isNaN = false := by
    cases hp : p.repetitionPenalty <;> first | rfl | (rw [hp] at hfinite; cases hfinite)
  refine (Num.le_total (a := 0) rfl hnan).resolve_right fun hle => ?_
  exact absurd (hle.symm.trans hrep) (by decide)

theorem low_addBias {bias : List (ℕ × Num A)} (hbias : ∀ b ∈ bias, isFinite b.2 = true)
    (h : Low (work.getD tok 0)) : Low ((addBias bias work).getD tok 0) := by
  induction bias generalizing work with
  | nil => exact h
  | cons b bias ih =>
    obtain ⟨hb, hbias⟩ := forall_mem_cons.mp hbias
    change Low ((addBias bias (work.set b.1 (work.getD b.1 0 + b.2))).getD tok 0)
    refine ih hbias ?_
    by_cases heq : b.1 = tok
    · subst heq
      rcases Nat.lt_or_ge b.1 work.length with hlt | hge
      · rw [getD_eq_getElem?_getD, getElem?_set_self hlt]
        exact h.add hb
      · rwa [set_eq_of_length_le hge]
    · rwa [getD_eq_getElem?_getD, getElem?_set_ne heq, ← getD_eq_getElem?_getD]

theorem low_penalize (hp : p.Tame) (count : ℕ) {l : Num A} (h : Low l) :
    Low (penalize p count l) := by
  have hcount : isFinite (Logit.ofCount count * p.frequencyPenalty : Num A) = true := by
    have hfreq := hp.frequency
    cases hf : p.frequencyPenalty with
    | fin q hq => rfl
    | nan => rw [hf] at hfreq; cases hfreq
    | negInf => rw [hf] at hfreq; cases hfreq
    | posInf => rw [hf] at hfreq; cases hfreq
  have hrep : Low (if !Logit.eq p.repetitionPenalty 1 then
      if lt 0 l then l / p.repetitionPenalty else l * p.repetitionPenalty else l) := by
    rw [if_neg h.not_pos]
    split
    · exact h.mul hp.repetition
    · exact h
  rw [penalize]
  split
  · dsimp only
    split
    · split
      · exact (hrep.sub hp.presence).sub hcount
      · exact hrep.sub hcount
    · split
      · exact hrep.sub hp.presence
      · exact hrep
  · exact h

theorem low_addPenalties (hp : p.Tame) {hist : Option (List ℕ)}
    (hlen : ∀ l ∈ hist, l.length = work.length) (hlt : tok < work.length)
    (h : Low (work.getD tok 0)) : Low ((addPenalties p hist work).getD tok 0) := by
  cases hist with
  | none => exact h
  | some l =>
    rw [getD_eq_getElem _ _ hlt] at h
    rw [addPenalties, getD_eq_getElem _ _ (by simpa [hlen l rfl] using hlt),
      getElem_zipWith]
    exact low_penalize hp _ h

theorem low_scaleTemperature (hp : p.Tame) (hlt : tok < work.length)
    (h : Low (work.getD tok 0)) : Low ((scaleTemperature p work).getD tok 0) := by
  rw [scaleTemperature]
  split
  · next hpos =>
    rw [getD_eq_getElem _ _ hlt] at h
    rw [getD_eq_getElem _ _ (by simpa using hlt), getElem_map]
    exact h.mul (le_one_div hp.temperature hpos)
  · exact h

theorem low_applyMask {mask : Option (List Bool)} (hlen : ∀ l ∈ mask, l.length = work.length)
    (hlt : tok < work.length) (h : Low (work.getD tok 0)) :
    Low ((applyMask mask work).getD tok 0) := by
  cases mask with
  | none => exact h
  | some l =>
    rw [getD_eq_getElem _ _ hlt] at h
    rw [applyMask, getD_eq_getElem _ _ (by simpa [hlen l rfl] using hlt),
      getElem_zipWith]
    split
    · exact h
    · exact Or.inr rfl

/-- **A token whose logit is `-inf`** keeps it, whatever is added and multiplied. -/
theorem Row.Sized.work_eq_negInf {row : Row (Num A)} {v : ℕ} (hsized : row.Sized v)
    (hp : row.params.Tame) (hfine : Fine row.work) (hlt : tok < v)
    (h : row.logits.getD tok 0 = negInf) : row.work.getD tok 0 = negInf := by
  have hbias : (addBias row.params.logitBias row.logits).length = v := by
    rw [length_addBias, hsized.logits]
  have hhist : ∀ l ∈ row.hist, l.length = (addBias row.params.logitBias row.logits).length :=
    fun l hl => (hsized.hist l hl).trans hbias.symm
  have hlow : Low (row.work.getD tok 0) := by
    refine low_applyMask (fun l hl => ?_) (by rwa [hsized.length_scaled]) ?_
    · rw [hsized.length_scaled, hsized.mask l hl]
    · refine low_scaleTemperature hp (by rwa [length_addPenalties hhist, hbias]) ?_
      exact low_addPenalties hp hhist (by rwa [hbias]) (low_addBias hp.bias (Or.inr h))
  refine hlow.resolve_left fun hnan => ?_
  have hno := hfine.isNaN_getD lawful tok
  rw [hnan] at hno
  cases hno

/-- **What has a probability** is allowed by the mask, and its logit is not `-inf`. -/
theorem allowed_of_pos {x : PostprocessInput (Num A)} {outProbs out : List (Num A)}
    (h : x.logitsPostprocess outProbs = (.ok (), out)) {seq query : ℕ} (hseq : seq < x.s)
    (hquery : query < x.q)
    (hpos : lt 0 ((getRow x.v out (x.rowNo (seq, query))).getD tok 0) = true) (htok : tok < x.v) :
    (x.grammarMask.bind fun m => (getRow x.v m (x.rowNo (seq, query)))[tok]?) ≠ some false ∧
      (getRow x.v x.logits (x.rowNo (seq, query))).getD tok 0 ≠ negInf := by
  obtain ⟨p, -, hproblems, hsized, hfine, hfiltered⟩ := filtered_of_eq_ok lawful h hseq hquery
  have hzero : ¬((x.row p (seq, query)).mask.bind fun m => m[tok]?) = some false ∧
      ¬(x.row p (seq, query)).work.getD tok 0 = Logit.negInf := by
    refine not_or.mp fun hor => ?_
    rw [hfiltered.masked tok (hsized.length_work.symm ▸ htok) hor] at hpos
    cases hpos
  refine ⟨fun hmask => hzero.1 ?_, fun hlogit => hzero.2 ?_⟩
  · rw [← hmask]
    exact Option.bind_map
  · exact hsized.work_eq_negInf (tame_of_problems hproblems) hfine htok hlogit

end Postprocess

/-! ### Where a row is cut -/

section Cut

variable {F : Type} [Scalar F] {u s : F} {l row : List F} {k t : ℕ}

/-- The sum of a row reaches a number at an index, and not before. -/
structure ReachedAt (u : F) (row : List F) (i : ℕ) : Prop where
  lt : i < row.length
  le : le u ((row.take (i + 1)).foldl (· + ·) 0) = true
  first : ∀ j < i, Scalar.le u ((row.take (j + 1)).foldl (· + ·) 0) = false

/-- The last index of a row that has a probability. -/
structure LastAt (row : List F) (i : ℕ) : Prop where
  lt : i < row.length
  pos : Scalar.lt 0 (row.getD i 0) = true
  last : ∀ j < row.length, i < j → Scalar.lt 0 (row.getD j 0) = false

theorem reach_eq_some_iff : reach u s k l = some t ↔ ∃ i < l.length, t = k + i ∧
    le u ((l.take (i + 1)).foldl (· + ·) s) = true ∧
      ∀ j < i, le u ((l.take (j + 1)).foldl (· + ·) s) = false := by
  induction l generalizing s k with
  | nil => exact ⟨(fun h => by cases h), fun ⟨_, h, _⟩ => absurd h (Nat.not_lt_zero _)⟩
  | cons p l ih =>
    rw [reach]
    split
    · next hle =>
      constructor
      · intro h
        exact ⟨0, Nat.succ_pos _, (Option.some.inj h).symm, hle, fun j hj =>
          absurd hj j.not_lt_zero⟩
      · rintro ⟨i, -, rfl, -, hfirst⟩
        cases i with
        | zero => rfl
        | succ i => exact absurd (hle.symm.trans (hfirst 0 i.succ_pos)) (by decide)
    · next hle =>
      rw [ih]
      constructor
      · rintro ⟨i, hi, rfl, hreach, hfirst⟩
        refine ⟨i + 1, Nat.succ_lt_succ hi, by omega, hreach, fun j hj => ?_⟩
        cases j with
        | zero => exact Bool.eq_false_of_not_eq_true hle
        | succ j => exact hfirst j (Nat.lt_of_succ_lt_succ hj)
      · rintro ⟨i, hi, rfl, hreach, hfirst⟩
        cases i with
        | zero => exact absurd hreach hle
        | succ i =>
          exact ⟨i, Nat.lt_of_succ_lt_succ hi, by omega, hreach,
            fun j hj => hfirst (j + 1) (Nat.succ_lt_succ hj)⟩

theorem reach_zero_iff : reach u 0 0 row = some t ↔ ReachedAt u row t := by
  rw [reach_eq_some_iff]
  constructor
  · rintro ⟨i, hi, rfl, hle, hfirst⟩
    rw [Nat.zero_add]
    exact ⟨hi, hle, hfirst⟩
  · rintro ⟨hi, hle, hfirst⟩
    exact ⟨t, hi, (Nat.zero_add t).symm, hle, hfirst⟩

theorem find?_reverse_range {q : ℕ → Bool} {n i : ℕ} :
    (List.range n).reverse.find? q = some i ↔
      i < n ∧ q i = true ∧ ∀ j < n, i < j → q j = false := by
  induction n with
  | zero => exact ⟨(fun h => by cases h), fun h => absurd h.1 (Nat.not_lt_zero _)⟩
  | succ n ih =>
    rw [range_succ, reverse_append, reverse_singleton, singleton_append,
      find?_cons]
    cases hq : q n with
    | true =>
      constructor
      · intro h
        obtain rfl := Option.some.inj h
        exact ⟨Nat.lt_succ_self _, hq, fun j hj hlt =>
          absurd hlt (Nat.not_lt.mpr (Nat.le_of_lt_succ hj))⟩
      · rintro ⟨hi, -, hlast⟩
        by_contra hne
        have hlt : i < n := lt_of_le_of_ne (Nat.le_of_lt_succ hi) fun heq =>
            hne (congrArg some heq.symm)
        rw [hlast n (Nat.lt_succ_self n) hlt] at hq
        cases hq
    | false =>
      rw [ih]
      constructor
      · rintro ⟨hi, hqi, hlast⟩
        refine ⟨Nat.lt_succ_of_lt hi, hqi, fun j hj hlt => ?_⟩
        rcases Nat.lt_succ_iff_lt_or_eq.mp hj with hj | rfl
        · exact hlast j hj hlt
        · exact hq
      · rintro ⟨hi, hqi, hlast⟩
        have hne : i ≠ n := by
          rintro rfl
          rw [hq] at hqi
          cases hqi
        exact ⟨lt_of_le_of_ne (Nat.le_of_lt_succ hi) hne, hqi,
          fun j hj hlt => hlast j (Nat.lt_succ_of_lt hj) hlt⟩

theorem lastAt_lastPositive (h : ∃ p ∈ row, Scalar.lt 0 p = true) :
    LastAt row (lastPositive row) := by
  obtain ⟨p, hp, hpos⟩ := h
  obtain ⟨i, hi, rfl⟩ := getElem_of_mem hp
  have hsome : ((List.range row.length).reverse.find?
      fun tok => Scalar.lt 0 (row.getD tok 0)).isSome = true := by
    rw [find?_isSome]
    exact ⟨i, by simpa using hi, by rwa [getD_eq_getElem _ _ hi]⟩
  obtain ⟨j, hj⟩ := Option.isSome_iff_exists.mp hsome
  obtain ⟨hlt, hpos, hlast⟩ := find?_reverse_range.mp hj
  rw [lastPositive, hj]
  exact ⟨hlt, hpos, hlast⟩

theorem LastAt.unique {i j : ℕ} (hi : LastAt row i) (hj : LastAt row j) : i = j := by
  rcases Nat.lt_trichotomy i j with h | h | h
  · exact absurd (hj.pos.symm.trans (hi.last j hj.lt h)) (by decide)
  · exact h
  · exact absurd (hi.pos.symm.trans (hj.last i hi.lt h)) (by decide)

end Cut

/-! ### The tokens that are sampled -/

/-- Where a draw finds a token with a probability. It does where the sum of the row reaches it, or
where the last token has one. The number of a token is of 32 bits. -/
def Covered {F : Type} [Scalar F] (u : F) (row : List F) : Prop :=
  (∃ i, ReachedAt u row i ∧ lt 0 (row.getD (i % 2 ^ 32) 0) = true) ∨
  (le u (row.foldl (· + ·) 0) = false ∧ lt 0 (row.getD ((row.length - 1) % 2 ^ 32) 0) = true ∧
    ∃ i, LastAt row i ∧ i % 2 ^ 32 = (row.length - 1) % 2 ^ 32)

section Sampled

variable {A : Arithmetic} {row : List (Num A)} {u : Num A} {op : String} {seq pos : ℕ} {r : Unit}

/-- What an accepted row has at a draw: the sum reaches it, at a token that has a probability, or it
does not, and some token is the last that has one. -/
theorem reach_of_validate (hrow : validateDistribution row op seq pos = .ok r)
    (hu : lt 0 u = true) :
    (∃ t, reach u 0 0 row = some t ∧ ReachedAt u row t ∧ lt 0 (row.getD t 0) = true ∧
      le u (row.foldl (· + ·) 0) = true) ∨
    (reach u 0 0 row = none ∧ (∀ t, ¬ReachedAt u row t) ∧ LastAt row (lastPositive row) ∧
      le u (row.foldl (· + ·) 0) = false) := by
  have hweight := Num.weight_of_validate hrow
  have hzero : Num.Weight (0 : Num A) := ⟨rfl, rfl⟩
  have hu0 : le u 0 = false := (Num.lawful.lt_iff.mp hu).2
  have hsum : le (row.foldl (· + ·) 0) (0 : Num A) = false := by
    simp only [validateDistribution, bind_eq_ok, ensure_eq_ok] at hrow
    obtain ⟨-, -, h⟩ := hrow
    simp only [Bool.and_eq_true, Bool.not_eq_true'] at h
    exact h.1.2
  cases h : reach u 0 0 row with
  | some t =>
    obtain ⟨i, -, rfl, hpos, htotal⟩ := Num.reach_some hweight hzero hu0 h
    rw [Nat.zero_add] at h ⊢
    exact Or.inl ⟨i, rfl, reach_zero_iff.mp h, hpos, htotal⟩
  | none =>
    refine Or.inr ⟨rfl, fun t ht => ?_, lastAt_lastPositive (Num.exists_pos hweight hzero hsum),
      Num.reach_none hweight hzero hu0 h⟩
    rw [reach_zero_iff.mpr ht] at h
    cases h

/-- **The two samplers** of the source return one token, and it has a probability, for exactly the
draws that are covered. -/
theorem sampled_positive_iff (hrow : validateDistribution row op seq pos = .ok r)
    (hu : lt 0 u = true) :
    (lt 0 (row.getD (sampleAt row.length row u) 0) = true ∧
      sampleAt row.length row u = sampleFromDistribution row u) ↔ Covered u row := by
  rcases reach_of_validate hrow hu with ⟨t, hreach, hat, -, htotal⟩ | ⟨hreach, hno, hlast, htotal⟩
  · rw [sampleAt, sampleFromDistribution, hreach]
    constructor
    · rintro ⟨hpos, -⟩
      exact Or.inl ⟨t, hat, hpos⟩
    · rintro (⟨i, hi, hpos⟩ | ⟨hno, -⟩)
      · obtain rfl := Option.some.inj (hreach.symm.trans (reach_zero_iff.mpr hi))
        exact ⟨hpos, rfl⟩
      · exact absurd (htotal.symm.trans hno) (by decide)
  · rw [sampleAt, sampleFromDistribution, hreach]
    constructor
    · rintro ⟨hpos, heq⟩
      exact Or.inr ⟨htotal, hpos, _, hlast, heq.symm⟩
    · rintro (⟨i, hi, -⟩ | ⟨-, hpos, i, hi, heq⟩)
      · exact absurd hi (hno i)
      · obtain rfl := hi.unique hlast
        exact ⟨hpos, heq.symm⟩

/-- With token numbers that fit, it is enough that the sum reaches the draw, or that the last token
has a probability. -/
theorem covered_iff (hrow : validateDistribution row op seq pos = .ok r) (hu : lt 0 u = true)
    (hlen : row.length ≤ 2 ^ 32) : Covered u row ↔
      le u (row.foldl (· + ·) 0) = true ∨ lt 0 (row.getD (row.length - 1) 0) = true := by
  have hmod : (row.length - 1) % 2 ^ 32 = row.length - 1 := Nat.mod_eq_of_lt (by omega)
  rcases reach_of_validate hrow hu with ⟨t, -, hat, hpos, htotal⟩ | ⟨-, hno, hlast, htotal⟩
  · refine iff_of_true (Or.inl ⟨t, hat, ?_⟩) (Or.inl htotal)
    rwa [Nat.mod_eq_of_lt (hat.lt.trans_le hlen)]
  · rw [Covered, hmod, htotal]
    constructor
    · rintro (⟨i, hi, -⟩ | ⟨-, hpos, -⟩)
      · exact absurd hi (hno i)
      · exact Or.inr hpos
    · rintro (h | hpos)
      · cases h
      · refine Or.inr ⟨rfl, hpos, row.length - 1, ⟨?_, hpos, fun j hj hlt => ?_⟩, hmod⟩
        · have := hlast.lt
          omega
        · omega

theorem sample_token {F : Type} [Scalar F] {draw : RngState → ℕ → F} {probs : List F} {s v i : ℕ}
    {rngs : List RngState} {rng : RngState} {tokens : List ℕ}
    (h : (sample draw probs s v rngs).result = .ok tokens) (hi : i < s)
      (hrng : rngs[i]? = some rng) :
    tokens[i]? = some
      (sampleAt (dist v probs i).length (dist v probs i) (draw rng rng.drawIndex)) := by
  have hlen : probs.length = s * v := by
    cases hcheck : checkSample probs s v rngs with
    | error e =>
      rw [sample, hcheck] at h
      cases h
    | ok _ =>
      simp only [checkSample, bind_eq_ok, ensure_eq_ok, okOr_eq_ok] at hcheck
      obtain ⟨-, -, n, hn, -, hlen, -⟩ := hcheck
      rw [hlen]
      exact (mul_eq_some.mp hn).2.symm
  rcases sample_alone draw probs s v rngs with ⟨e, he⟩ |
      ⟨-, -, tokens', states, logs, heq, -, -, hall⟩
  · rw [he] at h
    cases h
  · rw [heq] at h
    obtain rfl := Except.ok.inj h
    have hrow : (dist v probs i).length = v := length_getRow hlen hi
    rw [hall, hrng, hrow]
    rfl

/-- **Which tokens are sampled.** The two samplers of the source return one token, and it has a
probability, for exactly the draws that are covered; and then it is a token that neither the mask
nor its logit excludes. -/
theorem sampled_allowed (hrow : validateDistribution row op seq pos = .ok r) (hu : lt 0 u = true) :
    ((lt 0 (row.getD (sampleAt row.length row u) 0) = true ∧
      sampleAt row.length row u = sampleFromDistribution row u) ↔ Covered u row) ∧
    (row.length ≤ 2 ^ 32 → (Covered u row ↔
      le u (row.foldl (· + ·) 0) = true ∨ lt 0 (row.getD (row.length - 1) 0) = true)) ∧
    (∀ (draw : RngState → ℕ → Num A) (probs : List (Num A)) (s v : ℕ) (rngs : List RngState) tokens,
      (sample draw probs s v rngs).result = .ok tokens → ∀ i < s, ∀ rng, rngs[i]? = some rng →
        dist v probs i = row → draw rng rng.drawIndex = u →
          tokens[i]? = some (sampleAt row.length row u)) ∧
    ∀ (x : PostprocessInput (Num A)) (outProbs out : List (Num A)),
      x.logitsPostprocess outProbs = (.ok (), out) → ∀ i < x.s, ∀ query < x.q,
        row = getRow x.v out (x.rowNo (i, query)) → Covered u row →
          (x.grammarMask.bind fun m =>
            (getRow x.v m (x.rowNo (i, query)))[sampleAt row.length row u]?) ≠ some false ∧
          (getRow x.v x.logits (x.rowNo (i, query))).getD (sampleAt row.length row u) 0 ≠
            Logit.negInf := by
  refine ⟨sampled_positive_iff hrow hu, covered_iff hrow hu, ?_, ?_⟩
  · rintro draw probs s v rngs tokens h i hi rng hrng rfl rfl
    exact sample_token h hi hrng
  · rintro x outProbs out hx i hi query hquery rfl hcovered
    have hpos := ((sampled_positive_iff hrow hu).mpr hcovered).1
    refine allowed_of_pos hx hi hquery hpos ?_
    -- beyond the row there is nothing positive
    by_contra hge
    have hbeyond : (getRow x.v out (x.rowNo (i, query))).length ≤ _ :=
      (length_take_le _ _).trans (Nat.not_lt.mp hge)
    rw [getD_eq_default _ _ hbeyond] at hpos
    cases hpos

end Sampled

/-- A row whose sum is less than 1, and whose last token has no probability. -/
def shortRow : List (Num .exact) := [.ofRat (1 - 1 / 2048), .ofRat 0]

/-- A draw, of the form that the source draws, beyond the sum of this row. -/
def lateDraw : Num .exact := .ofRat (16773121 / 16777216)

/-- The last token is sampled, which has no probability, and the other sampler returns the first. -/
theorem sampled_without_probability :
    (validateDistribution shortRow "sample" 0 0).isOk = true ∧ lt 0 lateDraw = true ∧
      lt lateDraw 1 = true ∧
      (sample (fun _ _ => lateDraw) shortRow 1 2 [firstState]).result.toOption = some [1] ∧
      lt 0 (shortRow.getD 1 0) = false ∧ sampleFromDistribution shortRow lateDraw = 0 := by
  decide +kernel

theorem evenRow_ok : (validateDistribution [(.ofRat (1 / 2) : Num .exact), .ofRat (1 / 2)]
    "sample" 0 0).isOk = true := by
  decide +kernel

/-- Of two tokens that are equally likely, one is sampled. -/
theorem sampled_allowed_even :
    let row : List (Num .exact) := [.ofRat (1 / 2), .ofRat (1 / 2)]
    lt 0 (row.getD (sampleAt 2 row (.ofRat (1 / 4))) 0) = true ∧
      sampleAt 2 row (.ofRat (1 / 4)) = sampleFromDistribution row (.ofRat (1 / 4)) := by
  obtain ⟨r, hrow⟩ := ok_of_isOk evenRow_ok
  obtain ⟨hiff, hcovered, -⟩ := sampled_allowed hrow
    (show lt 0 (.ofRat (1 / 4) : Num .exact) = true by decide +kernel)
  exact hiff.mpr ((hcovered (by decide)).mpr (Or.inr (by decide +kernel)))

end R9v

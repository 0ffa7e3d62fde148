import Mathlib.Data.Set.Card
import R9v.Lib.Progression
import R9v.Template.Value

/-!
# The function `range`

The global function `range` of templates (`template/interp.rs`). The number of its items is known
before any of them is made, and is that of the integers that it stands for (`range_exact`).
-/

namespace R9v.Template

open Progression

/-- The arguments of a call. -/
structure CallArgs where
  positional : List TemplateValue
  keywords : List (Str × TemplateValue)

/-! ### The function -/

def asIntValue : TemplateValue → Except TemplateError Int64
  | .int i => .ok i
  | _ => .error (.render "range() needs integer arguments")

/-- The start, the end and the step that a call asks for. -/
def rangeArgs (args : CallArgs) : Except TemplateError (Int64 × Int64 × Int64) :=
  if args.positional.isEmpty ∨ 3 < args.positional.length then
    .error (.render "range() takes 1 to 3 arguments")
  else
    (args.positional.mapM asIntValue).map fun ints =>
      match ints with
      | [stop] => (0, stop, 1)
      | [start, stop] => (start, stop, 1)
      | _ => (ints.getD 0 0, ints.getD 1 0, ints.getD 2 0)

/-- A word of 128 bits; `none` is an overflow. -/
def checkedWide (x : ℤ) : Option ℤ := if -2 ^ 127 ≤ x ∧ x < 2 ^ 127 then some x else none

/-- The number of items. The outer `none` is an overflow of the words of 128 bits. -/
def rangeLen (start stop step : Int64) : Option (Option ℤ) := do
  let start := start.toInt
  let stop := stop.toInt
  let step := step.toInt
  if 0 < step then
    if stop ≤ start then some (some 0)
    else
      let span ← checkedWide (stop - start)
      let raised ← checkedWide (span + step)
      let raised ← checkedWide (raised - 1)
      let count ← checkedWide (raised.tdiv step)
      some (some count)
  else
    if start ≤ stop then some (some 0)
    else
      let span ← checkedWide (start - stop)
      let raised ← checkedWide (span - step)
      let raised ← checkedWide (raised - 1)
      let size ← checkedWide (-step)
      let count ← checkedWide (raised.tdiv size)
      some (some count)

/-- The items from one on; the step is not added to the last one. -/
def rangeItems (step : ℤ) : ℕ → ℤ → Except TemplateError (List TemplateValue)
  | 0, _ => .ok []
  | n + 1, i => do
    let next ← if 0 < n then
        (checkedAdd i step).elim (.error (.render "range() overflow")) .ok
      else .ok i
    let rest ← rangeItems step n next
    .ok (.int (.ofInt i) :: rest)

/-- The number of items to make, if there may be so many. -/
def rangeCount (count : Option ℤ) : Except TemplateError ℕ :=
  let refused := .error (.limit "template range length" maxLoopIters
    ((count.map fun n => (min n (2 ^ 64 - 1)).toNat).getD (2 ^ 64 - 1)))
  match count with
  | some n => if n ≤ maxLoopIters then .ok n.toNat else refused
  | none => refused

/-- The branch of `invoke_global` for `range`. -/
def invokeRange (args : CallArgs) : ExceptT TemplateError Option TemplateValue := do
  let (start, stop, step) ← (rangeArgs args : Except TemplateError (Int64 × Int64 × Int64))
  if step = 0 then throw (.render "range() step argument must not be zero")
  else
    let count ← (rangeLen start stop step : Option (Option ℤ))
    let count ← (rangeCount count : Except TemplateError ℕ)
    let _ ← (ensureListAdd 0 count "template range length" : Except TemplateError ℕ)
    let out ← (rangeItems step.toInt count start.toInt : Except TemplateError (List TemplateValue))
    return .list out

/-! ### The number of items -/

section Count

variable {start stop step : ℤ}

theorem checkedWide_eq {x : ℤ} (h : -2 ^ 127 ≤ x ∧ x < 2 ^ 127) : checkedWide x = some x := if_pos h

/-- A step more than the gap is divided by rounding down, and is not negative. -/
theorem count_eq_tdiv (hk : step ≠ 0) (h : 0 < gap start stop step) :
    (gap start stop step + |step| - 1).tdiv |step| = count start stop step := by
  have hpos : 0 < |step| := abs_pos.mpr hk
  have hdiv : (gap start stop step + |step| - 1) / |step| =
      (gap start stop step - 1) / |step| + 1 := by
    rw [← Int.add_mul_ediv_right _ 1 hpos.ne']
    congr 1
    ring
  have hnonneg : 0 ≤ (gap start stop step - 1) / |step| := Int.ediv_nonneg (by omega) hpos.le
  rw [Int.tdiv_eq_ediv_of_nonneg (by omega), hdiv, count, if_pos h]
  omega

/-- **The number of items** is that of the terms before the end. -/
theorem rangeLen_eq {start stop step : Int64} (hstep : step ≠ 0) :
    rangeLen start stop step = some (some (count start.toInt stop.toInt step.toInt : ℤ)) := by
  have hk : step.toInt ≠ 0 := fun h => hstep (Int64.toInt_inj.mp h)
  have hmin : i64Min = -2 ^ 63 := rfl
  have hmax : i64Max = 2 ^ 63 - 1 := rfl
  obtain ⟨ha, ha'⟩ := toInt_range start
  obtain ⟨hb, hb'⟩ := toInt_range stop
  obtain ⟨hs, hs'⟩ := toInt_range step
  have hle := count_le start.toInt stop.toInt step.toInt
  have hcount := @count_eq_tdiv start.toInt stop.toInt step.toInt hk
  rw [rangeLen]
  by_cases hpos : 0 < step.toInt
  · have hgap : gap start.toInt stop.toInt step.toInt = stop.toInt - start.toInt := if_pos hpos
    rw [hgap, abs_of_pos hpos] at hcount
    rw [if_pos hpos]
    by_cases hspan : stop.toInt ≤ start.toInt
    · rw [if_pos hspan, count_eq_zero (by omega)]
      rfl
    · have hquot := hcount (by omega)
      rw [if_neg hspan, checkedWide_eq (by omega), Option.bind_eq_bind, Option.bind_some,
        checkedWide_eq (by omega), Option.bind_some, checkedWide_eq (by omega),
        Option.bind_some, hquot, checkedWide_eq (by omega)]
      rfl
  · have hgap : gap start.toInt stop.toInt step.toInt = start.toInt - stop.toInt := if_neg hpos
    rw [hgap, abs_of_neg (by omega), ← sub_eq_add_neg] at hcount
    rw [if_neg hpos]
    by_cases hspan : start.toInt ≤ stop.toInt
    · rw [if_pos hspan, count_eq_zero (by omega)]
      rfl
    · have hquot := hcount (by omega)
      rw [if_neg hspan, checkedWide_eq (by omega), Option.bind_eq_bind, Option.bind_some,
        checkedWide_eq (by omega), Option.bind_some, checkedWide_eq (by omega),
        Option.bind_some, checkedWide_eq (by omega),
        Option.bind_some, hquot, checkedWide_eq (by omega)]
      rfl

end Count

/-! ### The items -/

/-- **The items** are the terms, and the step can be added to each but the last. -/
theorem rangeItems_eq {i b k : ℤ} (hk : k ≠ 0) (hi : i64Min ≤ i ∧ i ≤ i64Max)
    (hb : i64Min ≤ b ∧ b ≤ i64Max) :
    rangeItems k (count i b k) i = .ok ((terms i b k).map fun i => .int (.ofInt i)) := by
  induction hn : count i b k generalizing i with
  | zero =>
    rw [terms, hn]
    rfl
  | succ n ih =>
    have hgap : 0 < gap i b k := by
      by_contra h
      rw [count_eq_zero (not_lt.mp h)] at hn
      cases hn
    have hrest : count (i + k) b k = n := by
      rw [count_add hk hgap] at hn
      omega
    rw [rangeItems, terms_cons hk hgap, List.map_cons]
    by_cases hzero : 0 < n
    · -- the next term is before the end, and so in range
      have hnext : 0 < gap (i + k) b k := by
        by_contra h
        rw [count_eq_zero (not_lt.mp h)] at hrest
        omega
      have hrange : i64Min ≤ i + k ∧ i + k ≤ i64Max := by
        rw [gap] at hgap hnext
        split at hnext <;> omega
      rw [if_pos hzero, checkedAdd, checked, if_pos hrange]
      change (rangeItems k n (i + k)).bind _ = _
      rw [ih hrange hrest]
      rfl
    · obtain rfl : n = 0 := by omega
      rw [if_neg hzero, terms, hrest]
      rfl

/-! ### The function on its arguments -/

section Function

variable {args : CallArgs} {start stop step : Int64}

theorem rangeCount_eq (n : ℕ) : rangeCount (some (n : ℤ)) = if n ≤ maxLoopIters then .ok n
    else .error (.limit "template range length" maxLoopIters (saturateUsize n)) := by
  rw [rangeCount]
  simp only [Nat.cast_le, Int.toNat_natCast, Option.map_some, Option.getD_some, saturateUsize]
  congr 3
  omega

/-- **The function** on arguments that it takes. -/
theorem invokeRange_eq (hargs : rangeArgs args = .ok (start, stop, step)) (hstep : step ≠ 0) :
    (invokeRange args).run =
      if count start.toInt stop.toInt step.toInt ≤ maxLoopIters then
        some (.ok (.list ((terms start.toInt stop.toInt step.toInt).map fun i => .int (.ofInt i))))
      else some (.error (.limit "template range length" maxLoopIters
        (saturateUsize (count start.toInt stop.toInt step.toInt)))) := by
  have hk : step.toInt ≠ 0 := fun h => hstep (Int64.toInt_inj.mp h)
  rw [invokeRange, hargs]
  change ((if step = 0 then _ else _ : ExceptT TemplateError Option TemplateValue)).run = _
  rw [if_neg hstep, rangeLen_eq hstep]
  change ((rangeCount (some (count start.toInt stop.toInt step.toInt : ℤ)) :
    Except TemplateError ℕ) >>= _ : ExceptT TemplateError Option TemplateValue).run = _
  rw [rangeCount_eq]
  by_cases hfits : count start.toInt stop.toInt step.toInt ≤ maxLoopIters
  · rw [if_pos hfits, if_pos hfits]
    change ((ensureListAdd 0 (count start.toInt stop.toInt step.toInt) _ :
      Except TemplateError ℕ) >>= _ : ExceptT TemplateError Option TemplateValue).run = _
    rw [ensureListAdd, Nat.zero_add, if_pos hfits,
      rangeItems_eq hk (toInt_range start) (toInt_range stop)]
    rfl
  · rw [if_neg hfits, if_neg hfits]
    rfl

theorem mapM_asIntValue_error {l : List TemplateValue} {e : TemplateError}
    (h : l.mapM asIntValue = .error e) : e = .render "range() needs integer arguments" := by
  induction l with
  | nil => cases h
  | cons v l ih =>
    rw [List.mapM_cons] at h
    cases hv : asIntValue v with
    | error e' =>
      rw [hv] at h
      cases Except.error.inj h
      cases v <;> cases hv <;> rfl
    | ok i =>
      rw [hv] at h
      cases hl : l.mapM asIntValue with
      | error e' =>
        rw [hl] at h
        cases Except.error.inj h
        exact ih hl
      | ok rest =>
        rw [hl] at h
        cases h

/-- What is wrong with the arguments is their number or their kind. -/
theorem rangeArgs_error {e : TemplateError} (h : rangeArgs args = .error e) :
    e = .render "range() takes 1 to 3 arguments" ∨
      e = .render "range() needs integer arguments" := by
  rw [rangeArgs] at h
  split at h
  · exact Or.inl (Except.error.inj h).symm
  · cases hints : args.positional.mapM asIntValue with
    | error e' =>
      rw [hints] at h
      cases Except.error.inj h
      exact Or.inr (mapM_asIntValue_error hints)
    | ok ints =>
      rw [hints] at h
      cases h

theorem invokeRange_returns (args : CallArgs) : (invokeRange args).run ≠ none ∧
    (invokeRange args).run ≠ some (.error (.render "range() overflow")) := by
  cases hargs : rangeArgs args with
  | error e =>
    have hrun : (invokeRange args).run = some (.error e) := by
      rw [invokeRange, hargs]
      rfl
    rw [hrun]
    refine ⟨Option.some_ne_none _, fun h => ?_⟩
    cases Except.error.inj (Option.some.inj h)
    obtain h | h := rangeArgs_error hargs <;> exact absurd h (by decide)
  | ok t =>
    obtain ⟨start, stop, step⟩ := t
    by_cases hstep : step = 0
    · have hrun : (invokeRange args).run =
          some (.error (.render "range() step argument must not be zero")) := by
        rw [invokeRange, hargs]
        change ((if step = 0 then _ else _ : ExceptT TemplateError Option TemplateValue)).run = _
        rw [if_pos hstep]
        rfl
      rw [hrun]
      exact ⟨Option.some_ne_none _, fun h =>
        absurd (Except.error.inj (Option.some.inj h)) (by decide)⟩
    · rw [invokeRange_eq hargs hstep]
      split
      · refine ⟨Option.some_ne_none _, fun h => ?_⟩
        cases Option.some.inj h
      · refine ⟨Option.some_ne_none _, fun h => ?_⟩
        cases Except.error.inj (Option.some.inj h)

/-- The integers of the range. -/
def rangeSet (start stop step : Int64) : Set ℤ :=
  {i | (∃ k : ℕ, i = start.toInt + k * step.toInt) ∧
    if 0 < step.toInt then i < stop.toInt else stop.toInt < i}

theorem ncard_rangeSet (hk : step.toInt ≠ 0) : (rangeSet start stop step).Finite ∧
    (rangeSet start stop step).ncard = count start.toInt stop.toInt step.toInt := by
  have hset : rangeSet start stop step = ↑(terms start.toInt stop.toInt step.toInt).toFinset := by
    ext i
    rw [Finset.mem_coe, List.mem_toFinset, mem_terms hk, gap_pos_iff]
    rfl
  rw [hset, Set.ncard_coe_finset, List.toFinset_card_of_nodup (nodup_terms hk), length_terms]
  exact ⟨Finset.finite_toSet _, rfl⟩

theorem toInt_ofInt_term (hk : step.toInt ≠ 0) {i : ℤ}
    (hi : i ∈ terms start.toInt stop.toInt step.toInt) : (Int64.ofInt i).toInt = i := by
  have hbetween := between_of_mem hk hi
  have ha := toInt_range start
  have hb := toInt_range stop
  refine Int64.toInt_ofInt_of_le ?_ ?_
  · change i64Min ≤ i
    split at hbetween <;> omega
  · have hmax : i64Max = 2 ^ 63 - 1 := rfl
    split at hbetween <;> omega

/-- **The function `range` is exact**: its items are counted without overflow, it is refused if
there are too many of them, and it gives all of them in order otherwise. -/
theorem range_exact (start stop step : Int64) (hstep : step ≠ 0) :
    (∃ n : ℕ, (rangeSet start stop step).Finite ∧ (rangeSet start stop step).ncard = n ∧
      rangeLen start stop step = some (some (n : ℤ)) ∧
      ∀ args, rangeArgs args = .ok (start, stop, step) →
        (maxLoopIters < n → (invokeRange args).run = some (.error
          (.limit "template range length" maxLoopIters (saturateUsize n)))) ∧
        (n ≤ maxLoopIters → ∃ items : List Int64,
          (invokeRange args).run = some (.ok (.list (items.map .int))) ∧ items.length = n ∧
          ∀ k < n, (items[k]?).map Int64.toInt = some (start.toInt + k * step.toInt))) ∧
    (∀ keywords, rangeArgs ⟨[.int start, .int stop, .int step], keywords⟩ = .ok (start, stop, step) ∧
      rangeArgs ⟨[.int start, .int stop], keywords⟩ = .ok (start, stop, 1) ∧
      rangeArgs ⟨[.int stop], keywords⟩ = .ok (0, stop, 1)) ∧
    ∀ args, (invokeRange args).run ≠ none ∧
      (invokeRange args).run ≠ some (.error (.render "range() overflow")) := by
  have hk : step.toInt ≠ 0 := fun h => hstep (Int64.toInt_inj.mp h)
  obtain ⟨hfinite, hcard⟩ := @ncard_rangeSet start stop step hk
  refine ⟨⟨_, hfinite, hcard, rangeLen_eq hstep, fun args hargs => ⟨fun hn => ?_, fun hn => ?_⟩⟩,
    fun _ => ⟨rfl, rfl, rfl⟩, invokeRange_returns⟩
  · rw [invokeRange_eq hargs hstep, if_neg (not_le.mpr hn)]
  · refine ⟨(terms start.toInt stop.toInt step.toInt).map Int64.ofInt, ?_, ?_, fun k hlt => ?_⟩
    · rw [invokeRange_eq hargs hstep, if_pos hn, List.map_map]
      rfl
    · rw [List.length_map, length_terms]
    · have hterm : (terms start.toInt stop.toInt step.toInt)[k]? =
          some (start.toInt + k * step.toInt) := by
        rw [terms, List.getElem?_map, List.getElem?_range hlt]
        rfl
      rw [List.getElem?_map, hterm, Option.map_some, Option.map_some,
        toInt_ofInt_term hk (List.mem_of_getElem? hterm)]

/-- A countdown, whose last step would go past the least word. -/
theorem range_exact_down : ∃ n : ℕ,
    rangeLen (-9223372036854775806) (-9223372036854775808) (-9223372036854775808) =
      some (some (n : ℤ)) ∧ (n ≤ maxLoopIters → ∃ items : List Int64,
        (invokeRange ⟨[.int (-9223372036854775806), .int (-9223372036854775808),
          .int (-9223372036854775808)], []⟩).run = some (.ok (.list (items.map .int))) ∧
        items.length = n) := by
  obtain ⟨⟨n, -, -, hlen, hrun⟩, hargs, -⟩ := range_exact (-9223372036854775806)
    (-9223372036854775808) (-9223372036854775808) (by decide)
  refine ⟨n, hlen, fun hn => ?_⟩
  obtain ⟨items, heq, hitems, -⟩ := (hrun _ (hargs []).1).2 hn
  exact ⟨items, heq, hitems⟩

end Function

end R9v.Template

import R9v.Lib.Progression
import R9v.Template.Value

/-!
# Slices of lists and strings

The subscripts `xs[start:stop:step]` of templates (`template/interp.rs`, `template/builtins.rs`).
The walk over the places of a slice always ends, and visits places of the list only; it is that of
Python unless the step is negative and a bound is not where Python has it
(`slice_spec`).
-/

namespace R9v.Template

open Progression List

/-! ### Text that is cut -/

/-- The number of bytes at the front that one replacement character stands for, where there is no
character: as many as a character starts with. -/
def subpartLen : Bytes → ℕ
  | [] => 0
  | b :: l =>
    match Utf8.second b.toNat, l with
    | some ((low, high), n), c :: l =>
      if low ≤ c.toNat ∧ c.toNat ≤ high then 2 + ((l.take n).takeWhile Utf8.tail).length else 1
    | _, _ => 1

/-- The characters of some bytes, with fuel for each byte. -/
def lossyLoop : ℕ → Bytes → Bytes
  | _, [] => []
  | 0, _ :: _ => []
  | fuel + 1, b :: l =>
    match Utf8.scalarLen (b :: l) with
    | 0 => Utf8.replacement ++ lossyLoop fuel ((b :: l).drop (subpartLen (b :: l)))
    | n + 1 => (b :: l).take (n + 1) ++ lossyLoop fuel ((b :: l).drop (n + 1))

theorem valid_lossyLoop (fuel : ℕ) (l : Bytes) : Utf8.Valid (lossyLoop fuel l) := by
  induction fuel generalizing l with
  | zero => cases l <;> exact Utf8.valid_nil
  | succ fuel ih =>
    cases l with
    | nil => exact Utf8.valid_nil
    | cons b l =>
      rw [lossyLoop]
      split
      · exact (show Utf8.Valid Utf8.replacement by decide).append_iff.mpr (ih _)
      · rename_i n hlen
        have hchar : Utf8.Valid ((b :: l).take (n + 1)) := by
          have hself := Utf8.scalarLen_of_take hlen []
          rw [append_nil, take_succ_cons] at hself
          rw [take_succ_cons, Utf8.Valid, Utf8.validFrom, hself]
          change Utf8.validFrom n (l.take n) = true
          rw [Utf8.validFrom_eq, drop_eq_nil_of_le (length_take_le _ _)]
          rfl
        exact hchar.append_iff.mpr (ih _)

/-- The text of some bytes, with replacement characters for those that are in no character. -/
def fromUtf8Lossy (bytes : Bytes) : Str :=
  ⟨lossyLoop bytes.length bytes, valid_lossyLoop bytes.length bytes⟩

theorem fromUtf8Lossy_ascii {bytes : Bytes} (h : ∀ b ∈ bytes, b.toNat < 0x80) :
    (fromUtf8Lossy bytes).bytes = bytes := by
  have hloop : ∀ fuel, bytes.length ≤ fuel → lossyLoop fuel bytes = bytes := by
    intro fuel hfuel
    induction bytes generalizing fuel with
    | nil => cases fuel <;> rfl
    | cons b l ih =>
      obtain ⟨hb, hl⟩ := forall_mem_cons.mp h
      cases fuel with
      | zero => exact absurd hfuel (Nat.not_succ_le_zero _)
      | succ fuel =>
        have hlen : Utf8.scalarLen (b :: l) = 1 := if_pos (Nat.lt_succ_iff.mp hb)
        rw [lossyLoop, hlen]
        change b :: lossyLoop fuel l = b :: l
        rw [ih hl fuel (Nat.le_of_succ_le_succ hfuel)]
  exact hloop _ le_rfl

/-! ### The walk -/

/-- The places from one on, in steps, with fuel for each round. -/
def sliceWalk (len stopVal step direction : ℤ) : ℕ → ℤ → Option (List ℤ)
  | 0, _ => none
  | fuel + 1, i =>
    if saturatingMul direction i < saturatingMul direction stopVal then
      let rest := match checkedAdd i step with
        | some next => sliceWalk len stopVal step direction fuel next
        | none => some []
      rest.map fun rest => if 0 ≤ i ∧ i < len then i :: rest else rest
    else some []

/-- The places of a slice. The result `none` stands for a walk that does not end. -/
def sliceIndexed (len start stop step : ℤ) : Option (List ℤ) :=
  let direction := if 0 < step then 1 else -1
  let startVal :=
    if 0 ≤ direction then
      if start < 0 then max (saturatingAdd len start) 0 else min start len
    else if start < 0 then max (saturatingAdd len start) 0
    else min start (saturatingSub len 1)
  let stopVal :=
    if 0 ≤ direction then
      if stop < 0 then max (saturatingAdd len stop) 0 else min stop len
    else if stop < -1 then max (saturatingAdd len stop) (-1)
    else min stop (saturatingSub len 1)
  sliceWalk len stopVal step direction (len.toNat + 2) startVal

/-- The items at some places; this panics at a place that is not one of the list. -/
def itemsAt {α : Type} (items : List α) : List ℤ → Option (List α)
  | [] => some []
  | i :: rest => do
    let item ← items[i.toNat]?
    let others ← itemsAt items rest
    some (item :: others)

/-- The result of a slice: it fails, or does not return. -/
abbrev Sliced (α : Type) := ExceptT TemplateError Option α

def sliceList (items : List TemplateValue) (start stop step : Option ℤ) : Sliced TemplateValue := do
  let len : ℤ := items.length
  let step := step.getD 1
  if step = 0 then return .list []
  let (start, stop) := match start, stop with
    | some a, some b => (a, b)
    | some a, none => (0, a)
    | none, _ => (0, len)
  let indices ← (sliceIndexed len start stop step : Option (List ℤ))
  let _ ← (ensureListAdd 0 indices.length "template slice length" : Except TemplateError ℕ)
  let out ← (itemsAt items indices : Option (List TemplateValue))
  return .list out

def sliceStr (s : Str) (start stop : TemplateValue) (step : ℤ) : Sliced Str := do
  let bytes := s.bytes
  let len : ℤ := bytes.length
  let start := (← (optIntOrNone start : Except TemplateError (Option ℤ))).getD 0
  let stop := (← (optIntOrNone stop : Except TemplateError (Option ℤ))).getD
    (if step < 0 then -1 else len)
  let indices ← (sliceIndexed len start stop step : Option (List ℤ))
  let out ← (itemsAt bytes indices : Option Bytes)
  let out := fromUtf8Lossy out
  let _ ← (checkStrResult out.bytes.length "template slice bytes" : Except TemplateError Unit)
  return out

/-- The value of a subscript with a slice. -/
def slice (object start stop step : TemplateValue) : Sliced TemplateValue := do
  let step := (← (optIntOrNone step : Except TemplateError (Option ℤ))).getD 1
  if step = 0 then throw (.render "slice step cannot be zero")
  match object with
  | .list items =>
    let len : ℤ := items.length
    let defaultStart := if step < 0 then saturatingSub len 1 else 0
    let defaultStop := if step < 0 then -1 else len
    let start := (← (optIntOrNone start : Except TemplateError (Option ℤ))).getD defaultStart
    let stop := (← (optIntOrNone stop : Except TemplateError (Option ℤ))).getD defaultStop
    sliceList items (some start) (some stop) (some step)
  | .str s => return .str (← sliceStr s start stop step)
  | .safeStr s => return .safeStr (← sliceStr s start stop step)
  | _ => throw (.render "slice needs an array or string")

section Walk

variable {len start stop step i : ℤ} {fuel : ℕ}

theorem saturate_eq {x : ℤ} (h : i64Min ≤ x ∧ x ≤ i64Max) : saturate x = x := by
  rw [saturate]
  omega

theorem direction_lt (hi : i64Min ≤ i ∧ i ≤ i64Max) (hstop : -1 ≤ stop ∧ stop ≤ i64Max)
    {direction : ℤ} (hdir : direction = if 0 < step then 1 else -1) :
    saturatingMul direction i < saturatingMul direction stop ↔ 0 < gap i stop step := by
  have hmin : i64Min = -9223372036854775808 := rfl
  have hmax : i64Max = 9223372036854775807 := rfl
  rw [gap_pos_iff, hdir, saturatingMul, saturatingMul]
  split
  · rw [one_mul, one_mul, saturate_eq hi, saturate_eq ⟨by omega, hstop.2⟩]
  · rw [neg_one_mul, neg_one_mul, saturate_eq (x := -stop) ⟨by omega, by omega⟩, saturate]
    omega

/-- **The walk** visits the places of the list that the progression has. -/
theorem sliceWalk_eq (hstep : step ≠ 0) (hi : i64Min ≤ i ∧ i ≤ i64Max)
    (hstop : -1 ≤ stop ∧ stop ≤ i64Max) (hfuel : count i stop step < fuel) :
    sliceWalk len stop step (if 0 < step then 1 else -1) fuel i =
      some ((terms i stop step).filter fun i => 0 ≤ i ∧ i < len) := by
  have hmin : i64Min = -9223372036854775808 := rfl
  induction fuel generalizing i with
  | zero => exact absurd hfuel (Nat.not_lt_zero _)
  | succ fuel ih =>
    rw [sliceWalk]
    by_cases hgap : 0 < gap i stop step
    · rw [if_pos ((direction_lt hi hstop rfl).mpr hgap), terms_cons hstep hgap]
      have hrest : (match checkedAdd i step with
          | some next => sliceWalk len stop step (if 0 < step then 1 else -1) fuel next
          | none => some []) =
            some ((terms (i + step) stop step).filter fun i => 0 ≤ i ∧ i < len) := by
        by_cases hnext : i64Min ≤ i + step ∧ i + step ≤ i64Max
        · rw [checkedAdd, checked, if_pos hnext]
          exact ih hnext (by rw [count_add hstep hgap] at hfuel; omega)
        · -- the next place is behind the bound
          rw [checkedAdd, checked, if_neg hnext, terms_nil]
          · rfl
          · rw [gap]
            split <;> omega
      rw [hrest, filter_cons, Option.map_some]
      simp only [decide_eq_true_eq]
    · rw [if_neg (mt (direction_lt hi hstop rfl).mp hgap), terms_nil (not_lt.mp hgap)]
      rfl

/-- A bound of the walk, for a step forwards. -/
def boundUp (len b : ℤ) : ℤ := if b < 0 then max (len + b) 0 else min b len

/-- The start of the walk, for a step backwards: it is not before the first item. -/
def startDown (len b : ℤ) : ℤ := if b < 0 then max (len + b) 0 else min b (len - 1)

/-- The end of the walk, for a step backwards: `-1` is before the first item. -/
def stopDown (len b : ℤ) : ℤ := if b < -1 then max (len + b) (-1) else min b (len - 1)

/-- The places that the walk visits. -/
def walked (len start stop step : ℤ) : List ℤ :=
  if 0 < step then terms (boundUp len start) (boundUp len stop) step
  else if len = 0 then [] else terms (startDown len start) (stopDown len stop) step

/-- **The places of a slice** are those of a progression, and all of them are places of the list. -/
theorem sliceIndexed_eq (hlen : 0 ≤ len ∧ len ≤ i64Max) (hstart : i64Min ≤ start ∧ start ≤ i64Max)
    (hstop : i64Min ≤ stop ∧ stop ≤ i64Max) (hstep : step ≠ 0) :
    sliceIndexed len start stop step = some (walked len start stop step) := by
  have hmin : i64Min = -9223372036854775808 := rfl
  have hadd : ∀ b < 0, i64Min ≤ b → saturatingAdd len b = len + b := fun b hb hb' =>
    saturate_eq (by omega)
  have hsub : saturatingSub len 1 = len - 1 := saturate_eq (by omega)
  rw [sliceIndexed, walked]
  by_cases hpos : 0 < step
  · have hup : ∀ b, i64Min ≤ b → (if b < 0 then max (saturatingAdd len b) 0 else min b len) =
        boundUp len b := by
      intro b hb
      rw [boundUp]
      split
      · rw [hadd b ‹_› hb]
      · rfl
    have hrange : ∀ b, 0 ≤ boundUp len b ∧ boundUp len b ≤ len := by
      intro b
      rw [boundUp]
      split <;> omega
    have hs := hrange start
    have he := hrange stop
    have hcount := count_le (boundUp len start) (boundUp len stop) step
    rw [gap, if_pos hpos] at hcount
    simp only [if_pos hpos, hup start hstart.1, hup stop hstop.1, zero_le_one, if_true]
    have hwalk := @sliceWalk_eq len (boundUp len stop) step (boundUp len start)
        (len.toNat + 2) hstep
      (by omega) (by omega) (by omega)
    rw [if_pos hpos] at hwalk
    rw [hwalk, filter_eq_self.mpr]
    intro i hi
    have := between_of_mem hstep hi
    rw [if_pos hpos] at this
    exact decide_eq_true (by omega)
  · have hdown : (if start < 0 then max (saturatingAdd len start) 0
        else min start (saturatingSub len 1)) = startDown len start := by
      rw [startDown, hsub]
      split
      · rw [hadd start ‹_› hstart.1]
      · rfl
    have hdown' : (if stop < -1 then max (saturatingAdd len stop) (-1)
        else min stop (saturatingSub len 1)) = stopDown len stop := by
      rw [stopDown, hsub]
      split
      · rw [hadd stop (by omega) hstop.1]
      · rfl
    have hs : -1 ≤ startDown len start ∧ startDown len start ≤ max (len - 1) 0 := by
      rw [startDown]
      split <;> omega
    have he : -1 ≤ stopDown len stop ∧ stopDown len stop ≤ len - 1 := by
      rw [stopDown]
      split <;> omega
    have hcount := count_le (startDown len start) (stopDown len stop) step
    rw [gap, if_neg hpos] at hcount
    have hneg : ¬(0 : ℤ) ≤ -1 := by omega
    simp only [if_neg hpos, hdown, hdown', if_neg hneg]
    have hwalk := @sliceWalk_eq len (stopDown len stop) step (startDown len start) (len.toNat + 2)
      hstep (by omega) (by omega) (by omega)
    rw [if_neg hpos] at hwalk
    rw [hwalk]
    congr 1
    have hbetween : ∀ i ∈ terms (startDown len start) (stopDown len stop) step,
        0 ≤ i ∧ i ≤ max (len - 1) 0 := by
      intro i hi
      have := between_of_mem hstep hi
      rw [if_neg hpos] at this
      omega
    split
    · -- nothing is a place of the empty list
      refine filter_eq_nil_iff.mpr fun i hi => ?_
      rw [decide_eq_true_iff]
      omega
    · refine filter_eq_self.mpr fun i hi => decide_eq_true ?_
      have := hbetween i hi
      omega

theorem mem_walked (hlen : 0 ≤ len) (hstep : step ≠ 0) (hi : i ∈ walked len start stop step) :
    0 ≤ i ∧ i < len := by
  rw [walked] at hi
  split at hi
  · have hi := between_of_mem hstep hi
    rw [if_pos ‹_›, boundUp, boundUp] at hi
    split_ifs at hi <;> omega
  · split at hi
    · cases hi
    · have hi := between_of_mem hstep hi
      rw [if_neg ‹_›, startDown, stopDown] at hi
      split_ifs at hi <;> omega

theorem itemsAt_eq {α : Type} {items : List α} {indices : List ℤ}
    (h : ∀ i ∈ indices, 0 ≤ i ∧ i < items.length) :
    itemsAt items indices = some (indices.filterMap fun i => items[i.toNat]?) ∧
      (indices.filterMap fun i => items[i.toNat]?).length = indices.length := by
  induction indices with
  | nil => exact ⟨rfl, rfl⟩
  | cons i rest ih =>
    obtain ⟨hi, hrest⟩ := forall_mem_cons.mp h
    obtain ⟨hall, hlen⟩ := ih hrest
    have hitem : items[i.toNat]? = some items[i.toNat] := getElem?_eq_getElem (by omega)
    rw [itemsAt, hall, hitem, filterMap_cons, hitem, length_cons, length_cons, hlen]
    exact ⟨rfl, rfl⟩

end Walk

/-! ### The slices of Python -/

section Python

variable {len k : ℤ} {start stop : Option ℤ}

/-- For a step backwards, the bounds are where Python has them: the end is not `-1`, which stands
for a place before the first item, and the start is not before the first item, unless the end is
behind it. -/
def Agrees (len : ℤ) (start stop : Option ℤ) : Prop :=
  stop ≠ some (-1) ∧ ((∃ s ∈ start, s < -len) → ∃ t ∈ stop, -len ≤ t)

theorem walked_up (hlen : 0 ≤ len) (hk : 0 < k) :
    walked len (start.getD 0) (stop.getD len) k = places len start stop k := by
  rw [walked, places, if_pos hk, if_pos hk]
  congr 1
  · cases start with
    | none => exact min_eq_left hlen
    | some s => rfl
  · cases stop with
    | none =>
      change (if len < 0 then max (len + len) 0 else min len len) = len
      rw [if_neg (not_lt.mpr hlen), min_self]
    | some t => rfl

theorem stopDown_eq (hlen : 0 < len) (h : stop ≠ some (-1)) :
    stopDown len (stop.getD (-1)) = bound len (-1) (len - 1) (-1) stop := by
  cases stop with
  | none =>
    change (if (-1 : ℤ) < -1 then _ else min (-1) (len - 1)) = -1
    omega
  | some t =>
    have ht : t ≠ -1 := fun ht => h (congrArg some ht)
    rw [Option.getD_some, stopDown, bound]
    split <;> split <;> omega

theorem walked_down (hlen : 0 < len) (hk : k < 0) (h : Agrees len start stop) :
    walked len (start.getD (len - 1)) (stop.getD (-1)) k = places len start stop k := by
  have hneg : ¬0 < k := by omega
  rw [walked, places, if_neg hneg, if_neg hneg, if_neg hlen.ne', stopDown_eq hlen h.1]
  cases start with
  | none =>
    congr 1
    change (if len - 1 < 0 then _ else min (len - 1) (len - 1)) = len - 1
    rw [if_neg (by omega), min_self]
  | some s =>
    rw [Option.getD_some, startDown, bound]
    by_cases hs : s < -len
    · -- both walks are empty: the end is behind the first item
      obtain ⟨t, ht, hle⟩ := h.2 ⟨s, rfl, hs⟩
      have hstop : 0 ≤ bound len (-1) (len - 1) (-1) stop := by
        rw [Option.mem_def.mp ht, bound]
        split <;> omega
      rw [if_pos (by omega), if_pos (by omega), terms_nil, terms_nil]
      · rw [gap, if_neg hneg]
        omega
      · rw [gap, if_neg hneg]
        omega
    · congr 1
      split <;> omega

theorem walked_bad (hlen : 0 < len) (hk : k < 0) (h : ¬Agrees len start stop) :
    walked len (start.getD (len - 1)) (stop.getD (-1)) k ≠ [] ∧ places len start stop k = [] := by
  have hneg : ¬0 < k := by omega
  have hs : 0 ≤ startDown len (start.getD (len - 1)) := by
    rw [startDown]
    split
    · exact le_max_right _ _
    · omega
  have hwalk : stopDown len (stop.getD (-1)) = -1 →
      walked len (start.getD (len - 1)) (stop.getD (-1)) k ≠ [] := by
    intro hstop
    rw [walked, if_neg hneg, if_neg hlen.ne', hstop,
      terms_cons hk.ne (by rw [gap, if_neg hneg]; omega)]
    exact cons_ne_nil _ _
  by_cases hstop : stop = some (-1)
  · subst hstop
    refine ⟨hwalk ?_, ?_⟩
    · change (if (-1 : ℤ) < -1 then _ else min (-1) (len - 1)) = -1
      omega
    · rw [places, if_neg hneg, terms_nil]
      have hstart : bound len (-1) (len - 1) (len - 1) start ≤ len - 1 := by
        cases start with
        | none => exact le_rfl
        | some s =>
          rw [bound]
          split <;> omega
      have hend : bound len (-1) (len - 1) (-1) (some (-1)) = len - 1 := by
        rw [bound, if_pos (by omega)]
        omega
      rw [gap, if_neg hneg, hend]
      omega
  · obtain ⟨⟨s, hstart, hlt⟩, hall⟩ : (∃ s ∈ start, s < -len) ∧ ∀ t ∈ stop, t < -len := by
      by_contra hno
      refine h ⟨hstop, fun hs => ?_⟩
      by_contra hnone
      refine hno ⟨hs, fun t ht => ?_⟩
      by_contra hle
      exact hnone ⟨t, ht, not_lt.mp hle⟩
    have hend : bound len (-1) (len - 1) (-1) stop = -1 := by
      cases stop with
      | none => rfl
      | some t =>
        have := hall t rfl
        rw [bound, if_pos (by omega)]
        omega
    refine ⟨hwalk ((stopDown_eq hlen hstop).trans hend), ?_⟩
    rw [places, if_neg hneg, hend, Option.mem_def.mp hstart, bound, if_pos (by omega), terms_nil]
    rw [gap, if_neg hneg]
    omega

end Python

/-! ### The slices of templates -/

section Slices

variable {xs : List TemplateValue} {s : Str} {start stop step : Option Int64} {k : ℤ}

/-- An argument that may be left out. -/
def arg : Option Int64 → TemplateValue
  | none => .undefined
  | some i => .int i

theorem optIntOrNone_arg (i : Option Int64) : optIntOrNone (arg i) = .ok (i.map Int64.toInt) := by
  cases i <;> rfl

theorem getD_range {d : ℤ} (hd : i64Min ≤ d ∧ d ≤ i64Max) (i : Option Int64) :
    i64Min ≤ (i.map Int64.toInt).getD d ∧ (i.map Int64.toInt).getD d ≤ i64Max := by
  cases i with
  | none => exact hd
  | some i => exact toInt_range i

/-- The items at the places that a walk visits. -/
def visited {α : Type} (items : List α) (start stop step : ℤ) : List α :=
  (walked items.length start stop step).filterMap fun i => items[i.toNat]?

theorem length_visited {α : Type} (items : List α) {start stop : ℤ} (hk : k ≠ 0) :
    (visited items start stop k).length = (walked items.length start stop k).length :=
  (itemsAt_eq fun _ hi => mem_walked (Int.natCast_nonneg _) hk hi).2

theorem sliceList_eq (hlen : (xs.length : ℤ) ≤ i64Max) {a b : ℤ} (ha : i64Min ≤ a ∧ a ≤ i64Max)
    (hb : i64Min ≤ b ∧ b ≤ i64Max) (hk : k ≠ 0) :
    sliceList xs (some a) (some b) (some k) =
      if (visited xs a b k).length ≤ maxLoopIters then pure (.list (visited xs a b k))
      else throw (.limit "template slice length" maxLoopIters
        (saturateUsize (visited xs a b k).length)) := by
  have hitems := itemsAt_eq fun i hi => @mem_walked xs.length a b k i (Int.natCast_nonneg _) hk hi
  rw [sliceList]
  dsimp only [Option.getD_some]
  rw [if_neg hk, sliceIndexed_eq ⟨Int.natCast_nonneg _, hlen⟩ ha hb hk]
  change (do
    let _ ← (ensureListAdd 0 (walked xs.length a b k).length "template slice length" :
      Except TemplateError ℕ)
    let out ← (itemsAt xs (walked xs.length a b k) : Option (List TemplateValue))
    return TemplateValue.list out : Sliced TemplateValue) = _
  rw [hitems.1, ensureListAdd, Nat.zero_add, length_visited xs hk]
  split <;> rfl

theorem sliceStr_eq (hlen : (s.bytes.length : ℤ) ≤ i64Max) (hk : k ≠ 0)
    (start stop : Option Int64) :
    ∃ out, out = fromUtf8Lossy (visited s.bytes ((start.map Int64.toInt).getD 0)
        ((stop.map Int64.toInt).getD (if k < 0 then -1 else s.bytes.length)) k) ∧
      sliceStr s (arg start) (arg stop) k =
        if out.bytes.length ≤ maxOutputBytes then pure out
        else throw (.limit "template slice bytes" maxOutputBytes out.bytes.length) := by
  have hmin : i64Min = -9223372036854775808 := rfl
  have hitems := itemsAt_eq fun i hi => @mem_walked s.bytes.length
    ((start.map Int64.toInt).getD 0)
    ((stop.map Int64.toInt).getD (if k < 0 then -1 else s.bytes.length)) k i
      (Int.natCast_nonneg _) hk hi
  have hstop := @getD_range (if k < 0 then -1 else s.bytes.length) (by split <;> omega) stop
  refine ⟨_, rfl, ?_⟩
  rw [sliceStr, optIntOrNone_arg, optIntOrNone_arg]
  change (do
    let indices ← (sliceIndexed s.bytes.length ((start.map Int64.toInt).getD 0)
      ((stop.map Int64.toInt).getD (if k < 0 then -1 else s.bytes.length)) k : Option (List ℤ))
    let out ← (itemsAt s.bytes indices : Option Bytes)
    let _ ← (checkStrResult (fromUtf8Lossy out).bytes.length "template slice bytes" :
      Except TemplateError Unit)
    return fromUtf8Lossy out : Sliced Str) = _
  rw [sliceIndexed_eq ⟨Int.natCast_nonneg _, hlen⟩ (getD_range ⟨by omega, by omega⟩ start) hstop hk]
  change (do
    let out ← (itemsAt s.bytes (walked _ _ _ _) : Option Bytes)
    let _ ← (checkStrResult (fromUtf8Lossy out).bytes.length "template slice bytes" :
      Except TemplateError Unit)
    return fromUtf8Lossy out : Sliced Str) = _
  rw [hitems.1]
  change (do
    let _ ← (checkStrResult (fromUtf8Lossy (visited _ _ _ _)).bytes.length "template slice bytes" :
      Except TemplateError Unit)
    return fromUtf8Lossy (visited _ _ _ _) : Sliced Str) = _
  generalize fromUtf8Lossy _ = out
  rw [checkStrResult]
  split <;> rfl

/-- The step of a slice. -/
def stepOf (step : Option Int64) : ℤ := (step.map Int64.toInt).getD 1

theorem stepOf_ne_zero (h : step ≠ some 0) : stepOf step ≠ 0 := by
  cases step with
  | none => exact one_ne_zero
  | some i =>
    intro hz
    refine h (congrArg some (Int64.toInt_inj.mp ?_))
    exact hz

theorem slice_list_eq (hlen : (xs.length : ℤ) ≤ i64Max) (hstep : step ≠ some 0) :
    slice (.list xs) (arg start) (arg stop) (arg step) =
      sliceList xs
        (some ((start.map Int64.toInt).getD (if stepOf step < 0 then xs.length - 1 else 0)))
        (some ((stop.map Int64.toInt).getD (if stepOf step < 0 then -1 else xs.length)))
        (some (stepOf step)) := by
  have hmin : i64Min = -9223372036854775808 := rfl
  have hsub : saturatingSub xs.length 1 = xs.length - 1 := saturate_eq (by omega)
  rw [slice, optIntOrNone_arg, optIntOrNone_arg, optIntOrNone_arg]
  change (if stepOf step = 0 then _ else _ : Sliced TemplateValue) = _
  rw [if_neg (stepOf_ne_zero hstep)]
  rw [hsub]
  rfl

theorem slice_str_eq (hstep : step ≠ some 0) {w : Str → TemplateValue}
    (hw : w = .str ∨ w = .safeStr) :
    slice (w s) (arg start) (arg stop) (arg step) =
      sliceStr s (arg start) (arg stop) (stepOf step) >>= fun r => pure (w r) := by
  rw [slice, optIntOrNone_arg]
  change (if stepOf step = 0 then _ else _ : Sliced TemplateValue) = _
  rw [if_neg (stepOf_ne_zero hstep)]
  obtain rfl | rfl := hw
  · rfl
  · rfl

theorem length_slice {α : Type} (items : List α) (start stop : Option ℤ) (hk : k ≠ 0) :
    (Progression.slice items start stop k).length = (places items.length start stop k).length :=
  (itemsAt_eq fun _ hi => mem_places hk (Int.natCast_nonneg _) hi).2

theorem visited_nil {α : Type} (start stop : ℤ) : visited ([] : List α) start stop k = [] := by
  rw [visited, filterMap_eq_nil_iff]
  exact fun _ _ => rfl

theorem slice_nil {α : Type} (start stop : Option ℤ) :
    Progression.slice ([] : List α) start stop k = [] := by
  rw [Progression.slice, filterMap_eq_nil_iff]
  exact fun _ _ => rfl

/-- **The slices of lists** are those of Python where the bounds agree and the slice is not longer
than a list may be. -/
theorem slice_list_iff (hlen : (xs.length : ℤ) ≤ i64Max) (hstep : step ≠ some 0) :
    slice (.list xs) (arg start) (arg stop) (arg step) =
        pure (.list (Progression.slice xs (start.map Int64.toInt) (stop.map Int64.toInt)
          (stepOf step))) ↔
      (0 < stepOf step ∨ xs = [] ∨
        Agrees xs.length (start.map Int64.toInt) (stop.map Int64.toInt)) ∧
      (Progression.slice xs (start.map Int64.toInt) (stop.map Int64.toInt)
        (stepOf step)).length ≤ maxLoopIters := by
  have hk := stepOf_ne_zero hstep
  have hmin : i64Min = -9223372036854775808 := rfl
  have ha := @getD_range (if stepOf step < 0 then xs.length - 1 else 0) (by split <;> omega) start
  have hb := @getD_range (if stepOf step < 0 then -1 else xs.length) (by split <;> omega) stop
  rw [slice_list_eq hlen hstep, sliceList_eq hlen ha hb hk]
  generalize start.map Int64.toInt = start at *
  generalize stop.map Int64.toInt = stop at *
  generalize stepOf step = k at *
  by_cases hgood : 0 < k ∨ xs = [] ∨ Agrees xs.length start stop
  · rw [and_iff_right hgood]
    have heq : visited xs (start.getD (if k < 0 then xs.length - 1 else 0))
        (stop.getD (if k < 0 then -1 else xs.length)) k = Progression.slice xs start stop k := by
      by_cases hpos : 0 < k
      · rw [if_neg (by omega), if_neg (by omega), visited, walked_up (Int.natCast_nonneg _) hpos]
        rfl
      · by_cases hnil : xs = []
        · rw [hnil, visited_nil, slice_nil]
        · have hlen' := length_pos_iff.mpr hnil
          rw [if_pos (by omega), if_pos (by omega), visited, @walked_down xs.length k start stop
            (by omega) (by omega) ((hgood.resolve_left hpos).resolve_left hnil)]
          rfl
    rw [heq]
    split
    · exact iff_of_true rfl ‹_›
    · exact iff_of_false (fun h => by cases Option.some.inj h) ‹_›
  · rw [not_or, not_or] at hgood
    obtain ⟨hneg, hne, hbad⟩ := hgood
    have hpos := length_pos_iff.mpr hne
    obtain ⟨hwalk, hplaces⟩ := @walked_bad xs.length k start stop (by omega) (by omega) hbad
    have hdown : k < 0 := by omega
    simp only [if_pos hdown]
    refine iff_of_false (fun h => ?_) fun h => (h.1.resolve_left hneg).elim hne hbad
    have hnil : Progression.slice xs start stop k = [] := by
      rw [← length_eq_zero_iff, length_slice xs start stop hk, hplaces]
      rfl
    split at h
    · have hlist := TemplateValue.list.inj (Except.ok.inj (Option.some.inj h))
      rw [hnil, ← length_eq_zero_iff, length_visited xs hk, length_eq_zero_iff] at hlist
      exact hwalk hlist
    · cases Option.some.inj h

/-- For a string and a step backwards that is given no start, the walk starts at the first item;
that is as in Python if nothing stands behind the end, or if the slice has one item only, which is
the same. -/
def StrAgrees (bytes : Bytes) (start stop : Option ℤ) (k : ℤ) : Prop :=
  if start = none then
    stop ≠ some (-1) ∧ ((∃ t ∈ stop, (bytes.length : ℤ) - 1 ≤ t) ∨
      (∀ t ∈ stop, t < -bytes.length) ∧ bytes.length ≤ -k ∧ bytes.head? = bytes.getLast?)
  else Agrees bytes.length start stop

theorem visited_zero {α : Type} {items : List α} (hne : items ≠ []) (hk : k < 0) (b : ℤ) :
    visited items 0 b k = if stopDown items.length b = -1 then items.head?.toList else [] := by
  have hpos := length_pos_iff.mpr hne
  have hneg : ¬0 < k := by omega
  have hstart : startDown items.length 0 = 0 := by
    rw [startDown, if_neg (lt_irrefl _)]
    omega
  rw [visited, walked, if_neg hneg, if_neg (by omega), hstart]
  split
  · rename_i hstop
    rw [hstop, terms_cons hk.ne (by rw [gap, if_neg hneg]; omega),
      terms_nil (by rw [gap, if_neg hneg]; omega)]
    cases items with
    | nil => exact absurd rfl hne
    | cons a l => rfl
  · have hle : -1 ≤ stopDown items.length b := by
      rw [stopDown]
      split <;> omega
    rw [terms_nil (by rw [gap, if_neg hneg]; omega)]
    rfl

/-- A walk backwards from the first item visits what Python does in few cases. -/
theorem visited_zero_iff {bytes : Bytes} (hne : bytes ≠ []) (hk : k < 0) (stop : Option ℤ) :
    visited bytes 0 (stop.getD (-1)) k = Progression.slice bytes none stop k ↔
      stop ≠ some (-1) ∧ ((∃ t ∈ stop, (bytes.length : ℤ) - 1 ≤ t) ∨
        (∀ t ∈ stop, t < -bytes.length) ∧ bytes.length ≤ -k ∧ bytes.head? = bytes.getLast?) := by
  have hpos := length_pos_iff.mpr hne
  have hneg : ¬0 < k := by omega
  obtain ⟨first, hfirst⟩ : ∃ b, bytes.head? = some b := by
    cases bytes with
    | nil => exact absurd rfl hne
    | cons b l => exact ⟨b, rfl⟩
  have hlast : bytes.getLast? = bytes[bytes.length - 1]? := getLast?_eq_getElem?
  rw [visited_zero hne hk]
  by_cases hstop : stop = some (-1)
  · -- `-1` is before the first item here, and the last item in Python
    subst hstop
    have hcode : stopDown bytes.length ((some (-1)).getD (-1)) = -1 := by
      change (if (-1 : ℤ) < -1 then _ else min (-1) ((bytes.length : ℤ) - 1)) = -1
      omega
    have hend : bound bytes.length (-1) (bytes.length - 1) (-1) (some (-1)) = bytes.length - 1 := by
      rw [bound, if_pos (by omega)]
      omega
    rw [if_pos hcode, Progression.slice, places, if_neg hneg, hend,
      terms_nil (by rw [gap, if_neg hneg, bound]; omega), hfirst]
    exact iff_of_false (cons_ne_nil _ _) fun h => h.1 rfl
  rw [stopDown_eq (by omega) hstop, and_iff_right hstop]
  have hplaces : places bytes.length none stop k =
      terms (bytes.length - 1) (bound bytes.length (-1) (bytes.length - 1) (-1) stop) k := by
    rw [places, if_neg hneg, bound]
  have hslice : Progression.slice bytes none stop k = (terms (bytes.length - 1)
      (bound bytes.length (-1) (bytes.length - 1) (-1) stop) k).filterMap fun i =>
        bytes[i.toNat]? := by
    rw [Progression.slice, hplaces]
  have hlength := length_slice bytes none stop hk.ne
  rw [hplaces] at hlength
  have hbound : -1 ≤ bound bytes.length (-1) (bytes.length - 1) (-1) stop ∧
      (bound bytes.length (-1) (bytes.length - 1) (-1) stop = -1 ↔ ∀ t ∈ stop, t < -bytes.length) ∧
      (bytes.length - 1 ≤ bound bytes.length (-1) (bytes.length - 1) (-1) stop ↔
        ∃ t ∈ stop, (bytes.length : ℤ) - 1 ≤ t) := by
    cases stop with
    | none =>
      refine ⟨le_rfl, iff_of_true rfl fun t ht => (by cases ht),
        iff_of_false ?_ fun h => (by obtain ⟨t, ht, -⟩ := h; cases ht)⟩
      change ¬(bytes.length : ℤ) - 1 ≤ -1
      omega
    | some t =>
      have ht : t ≠ -1 := fun ht => hstop (congrArg some ht)
      simp only [Option.mem_def, Option.some.injEq, forall_eq', exists_eq_left']
      rw [bound]
      split <;> omega
  obtain ⟨hge, hfar, hnear⟩ := hbound
  rw [← hfar, ← hnear]
  generalize bound bytes.length (-1) (bytes.length - 1) (-1) stop = e at *
  by_cases he : e = -1
  · subst he
    rw [if_pos rfl, hfirst]
    have hhead : terms (bytes.length - 1) (-1) k =
        ((bytes.length : ℤ) - 1) :: terms (bytes.length - 1 + k) (-1) k :=
      terms_cons hk.ne (by rw [gap, if_neg hneg]; omega)
    have hitem : bytes[((bytes.length : ℤ) - 1).toNat]? = bytes.getLast? := by
      rw [hlast]
      congr 1
      omega
    by_cases hone : (bytes.length : ℤ) ≤ -k
    · rw [hslice, hhead, terms_nil (by rw [gap, if_neg hneg]; omega), filterMap_cons, hitem]
      have hsome : ∃ l, bytes.getLast? = some l := by
        rw [hlast]
        exact ⟨_, getElem?_eq_getElem (by omega)⟩
      obtain ⟨last, hl⟩ := hsome
      rw [hl]
      constructor
      · intro h
        exact Or.inr ⟨rfl, hone, congrArg some (List.cons.inj h).1⟩
      · rintro (h | ⟨-, -, h⟩)
        · omega
        · rw [Option.some.inj h]
          rfl
    · refine iff_of_false (fun h => ?_) fun h => ?_
      · have hcount := congrArg List.length h
        rw [hlength, hhead, terms_cons hk.ne (by rw [gap, if_neg hneg]; omega)] at hcount
        cases hcount
      · rcases h with h | h
        · omega
        · exact hone h.2.1
  · rw [if_neg he]
    by_cases hle : bytes.length - 1 ≤ e
    · rw [hslice, terms_nil (by rw [gap, if_neg hneg]; omega)]
      exact iff_of_true rfl (Or.inl hle)
    · refine iff_of_false (fun h => ?_) fun h => ?_
      · rw [← h, terms_cons hk.ne (by rw [gap, if_neg hneg]; omega)] at hlength
        cases hlength
      · exact h.elim hle fun h => he h.1

theorem visited_str_iff {bytes : Bytes} {start stop : Option ℤ} (hk : k ≠ 0) :
    visited bytes (start.getD 0) (stop.getD (if k < 0 then -1 else bytes.length)) k =
        Progression.slice bytes start stop k ↔
      0 < k ∨ bytes = [] ∨ StrAgrees bytes start stop k := by
  by_cases hpos : 0 < k
  · rw [if_neg (by omega), visited, walked_up (Int.natCast_nonneg _) hpos]
    exact iff_of_true rfl (Or.inl hpos)
  · have hdown : k < 0 := by omega
    rw [or_iff_right hpos, if_pos hdown]
    by_cases hnil : bytes = []
    · rw [hnil, visited_nil, slice_nil]
      exact iff_of_true rfl (Or.inl rfl)
    · have hlen := length_pos_iff.mpr hnil
      rw [or_iff_right hnil, StrAgrees]
      cases start with
      | none =>
        exact visited_zero_iff hnil hdown stop
      | some a =>
        by_cases h : Agrees bytes.length (some a) stop
        · have hwalk := @walked_down bytes.length k (some a) stop (by omega) hdown h
          rw [Option.getD_some] at hwalk ⊢
          rw [visited, hwalk]
          exact iff_of_true rfl h
        · obtain ⟨hwalk, hplaces⟩ := @walked_bad bytes.length k (some a) stop (by omega) hdown h
          refine iff_of_false (fun heq => hwalk ?_) h
          have hlength := congrArg List.length heq
          rw [length_visited bytes hk, length_slice bytes (some a) stop hk, hplaces] at hlength
          exact length_eq_zero_iff.mp hlength

/-- **The slices of strings** of ASCII. -/
theorem slice_str_iff (hlen : (s.bytes.length : ℤ) ≤ i64Max)
    (hascii : ∀ b ∈ s.bytes, b.toNat < 0x80)
    (hstep : step ≠ some 0) {w : Str → TemplateValue} (hw : w = .str ∨ w = .safeStr) :
    (∃ r, slice (w s) (arg start) (arg stop) (arg step) = pure (w r) ∧
        r.bytes = Progression.slice s.bytes (start.map Int64.toInt) (stop.map Int64.toInt)
          (stepOf step)) ↔
      (0 < stepOf step ∨ s.bytes = [] ∨
        StrAgrees s.bytes (start.map Int64.toInt) (stop.map Int64.toInt) (stepOf step)) ∧
      (Progression.slice s.bytes (start.map Int64.toInt) (stop.map Int64.toInt)
        (stepOf step)).length ≤ maxOutputBytes := by
  have hk := stepOf_ne_zero hstep
  have hinj : ∀ r r', w r = w r' → r = r' := by
    obtain rfl | rfl := hw
    · exact fun _ _ h => TemplateValue.str.inj h
    · exact fun _ _ h => TemplateValue.safeStr.inj h
  obtain ⟨out, hout, hslice⟩ := sliceStr_eq hlen hk start stop
  have hbytes : out.bytes = visited s.bytes ((start.map Int64.toInt).getD 0)
      ((stop.map Int64.toInt).getD (if stepOf step < 0 then -1 else s.bytes.length))
        (stepOf step) := by
    rw [hout, fromUtf8Lossy_ascii]
    intro b hb
    obtain ⟨i, -, hi⟩ := mem_filterMap.mp hb
    exact hascii b (mem_of_getElem? hi)
  rw [slice_str_eq hstep hw, hslice, ← visited_str_iff hk, ← hbytes]
  by_cases hfits : out.bytes.length ≤ maxOutputBytes
  · rw [if_pos hfits, pure_bind]
    constructor
    · rintro ⟨r, heq, hr⟩
      obtain rfl := hinj _ _ (Except.ok.inj (Option.some.inj heq))
      exact ⟨hr, hr ▸ hfits⟩
    · exact fun h => ⟨out, rfl, h.1⟩
  · rw [if_neg hfits]
    refine iff_of_false (fun ⟨r, heq, _⟩ => ?_) fun h => hfits (h.1 ▸ h.2)
    cases Option.some.inj heq

/-- **Slices as in Python**: those of lists, those of strings of ASCII, and the walk over the
places, which ends and visits places of the list only. -/
theorem slice_spec (xs : List TemplateValue) (s : Str) (start stop step : Option Int64)
    (hxs : (xs.length : ℤ) ≤ i64Max) (hs : (s.bytes.length : ℤ) ≤ i64Max)
    (hascii : ∀ b ∈ s.bytes, b.toNat < 0x80) (hstep : step ≠ some 0) :
    (slice (.list xs) (arg start) (arg stop) (arg step) =
        pure (.list (Progression.slice xs (start.map Int64.toInt) (stop.map Int64.toInt)
          (stepOf step))) ↔
      (0 < stepOf step ∨ xs = [] ∨
        Agrees xs.length (start.map Int64.toInt) (stop.map Int64.toInt)) ∧
      (Progression.slice xs (start.map Int64.toInt) (stop.map Int64.toInt)
        (stepOf step)).length ≤ maxLoopIters) ∧
    (∀ w : Str → TemplateValue, w = .str ∨ w = .safeStr →
      ((∃ r, slice (w s) (arg start) (arg stop) (arg step) = pure (w r) ∧
          r.bytes = Progression.slice s.bytes (start.map Int64.toInt) (stop.map Int64.toInt)
            (stepOf step)) ↔
        (0 < stepOf step ∨ s.bytes = [] ∨
          StrAgrees s.bytes (start.map Int64.toInt) (stop.map Int64.toInt) (stepOf step)) ∧
        (Progression.slice s.bytes (start.map Int64.toInt) (stop.map Int64.toInt)
          (stepOf step)).length ≤ maxOutputBytes)) ∧
    ∀ len : ℤ, 0 ≤ len ∧ len ≤ i64Max → ∀ a b : Int64, ∃ indices,
      sliceIndexed len a.toInt b.toInt (stepOf step) = some indices ∧
        ∀ i ∈ indices, 0 ≤ i ∧ i < len := by
  refine ⟨slice_list_iff hxs hstep, fun w hw => slice_str_iff hs hascii hstep hw,
    fun len hlen a b => ?_⟩
  have hk := stepOf_ne_zero hstep
  exact ⟨_, sliceIndexed_eq hlen (toInt_range a) (toInt_range b) hk,
    fun i hi => mem_walked hlen.1 hk hi⟩

def hello : Str := ⟨utf8 "hello", by decide⟩

theorem hello_length : (hello.bytes.length : ℤ) = 5 := rfl

theorem hello_ascii : ∀ b ∈ hello.bytes, b.toNat < 0x80 := by
  have h : (hello.bytes.all fun b => decide (b.toNat < 0x80)) = true := rfl
  exact fun b hb => of_decide_eq_true (all_eq_true.mp h b hb)

/-- A string is not reversed by a step of `-1`. -/
theorem slice_hello : ¬∀ (s : Str) (start stop step : Option Int64),
    (∀ b ∈ s.bytes, b.toNat < 0x80) → step ≠ some 0 →
    ∃ r, slice (.str s) (arg start) (arg stop) (arg step) = pure (.str r) ∧
      r.bytes = Progression.slice s.bytes (start.map Int64.toInt) (stop.map Int64.toInt)
        (stepOf step) := by
  intro h
  have hstep : (some (-1) : Option Int64) ≠ some 0 := by decide
  have hbad := ((slice_str_iff (w := .str) (by decide) hello_ascii hstep (Or.inl rfl)).mp
    (h hello none none (some (-1)) hello_ascii hstep)).1
  have hstr : ¬StrAgrees hello.bytes none none (stepOf (some (-1))) := by
    rw [StrAgrees, if_pos rfl, hello_length]
    decide
  exact hstr ((hbad.resolve_left (by decide)).resolve_left (by decide))

example : (slice (.str hello) .undefined .undefined (.int (-1))).run =
    some (.ok (.str ⟨utf8 "h", by decide⟩)) := rfl

theorem slice_spec_hello :
    slice (.list [.int 1, .int 2, .int 3]) (.int 4) (.int (-3)) (.int (-2)) =
        pure (.list (Progression.slice [.int 1, .int 2, .int 3] (some 4) (some (-3)) (-2))) ∧
      ∃ r, slice (.str hello) (.int 4) (.int (-3)) (.int (-2)) = pure (.str r) ∧
        r.bytes = Progression.slice hello.bytes (some 4) (some (-3)) (-2) := by
  obtain ⟨hlist, hstr, -⟩ :=
      slice_spec [.int 1, .int 2, .int 3] hello (some 4) (some (-3)) (some (-2))
    (by decide) (by decide) hello_ascii (by decide)
  have hagrees : ∀ len : ℤ, 3 ≤ len → Agrees len (some 4) (some (-3)) := fun len hlen =>
    ⟨by decide, fun ⟨_, _, _⟩ => ⟨-3, rfl, by omega⟩⟩
  exact ⟨hlist.mpr ⟨Or.inr (Or.inr (hagrees _ le_rfl)), by decide⟩,
    (hstr .str (Or.inl rfl)).mpr ⟨Or.inr (Or.inr (hagrees _ (by decide))), by decide⟩⟩

end Slices

end R9v.Template

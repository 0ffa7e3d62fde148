import R9v.Lib.Blocks
import R9v.Lib.Loops

/-!
# Stores that may fail

A program that writes in place and fails half-way leaves what it has written (`EStateM` keeps the
state of a failure). A loop whose rounds all succeed is a fold over the state (`Storing.forM_ok`). A
region of the state is a list; a loop that stores a row into it sets a block of the list
(`Storing.storeRow_ok`), and the other blocks are as before (`Storing.block_setBlock`).
-/

namespace Storing

open Blocks Checked List

variable {α β ε σ : Type}

/-! ### Blocks that are set -/

/-- Replaces a block of a list. -/
def setBlock (p : ℕ) (l : List α) (i : ℕ) (vals : List α) : List α :=
  l.take (i * p) ++ vals ++ l.drop ((i + 1) * p)

section Blocks

variable {p i j : ℕ} {l vals : List α}

theorem length_setBlock (hv : vals.length = p) (h : (i + 1) * p ≤ l.length) :
    (setBlock p l i vals).length = l.length := by
  rw [Nat.succ_mul] at h
  rw [setBlock, length_append, length_append, length_take, length_drop, hv,
    Nat.succ_mul]
  omega

theorem getElem?_setBlock (hv : vals.length = p) (h : (i + 1) * p ≤ l.length) (pos : ℕ) :
    (setBlock p l i vals)[pos]? =
      if i * p ≤ pos ∧ pos < (i + 1) * p then vals[pos - i * p]? else l[pos]? := by
  rw [Nat.succ_mul] at h
  have htake : (l.take (i * p)).length = i * p := by
    rw [length_take]
    omega
  rw [setBlock, append_assoc, Nat.succ_mul]
  rcases Nat.lt_or_ge pos (i * p) with hlow | hlow
  · rw [getElem?_append_left (by omega), getElem?_take_of_lt hlow, if_neg (by omega)]
  rw [getElem?_append_right (by omega), htake]
  rcases Nat.lt_or_ge pos (i * p + p) with hhigh | hhigh
  · rw [getElem?_append_left (by omega), if_pos ⟨hlow, hhigh⟩]
  · rw [getElem?_append_right (by omega), getElem?_drop, if_neg (by omega)]
    exact congrArg (l[·]?) (by omega)

/-- **The other blocks** are as before. -/
theorem block_setBlock (hv : vals.length = p) (h : (i + 1) * p ≤ l.length) (j : ℕ) :
    block p (setBlock p l i vals) j = if j = i then vals else block p l j := by
  refine ext_getElem? fun k => ?_
  rcases Nat.lt_or_ge k p with hk | hk
  · rw [getElem?_block hk, getElem?_setBlock hv h, Nat.succ_mul]
    by_cases hj : j = i
    · rw [if_pos ⟨by rw [hj]; omega, by rw [hj]; omega⟩, if_pos hj, hj, Nat.add_sub_cancel_left]
    · rw [if_neg hj, getElem?_block hk, if_neg]
      -- blocks do not overlap
      rcases Nat.lt_or_gt_of_ne hj with hlt' | hlt'
      · have hmul := Nat.mul_le_mul_right p hlt'
        rw [Nat.succ_mul] at hmul
        omega
      · have hmul := Nat.mul_le_mul_right p hlt'
        rw [Nat.succ_mul] at hmul
        omega
  · have hblock : ∀ l' : List α, (block p l' j)[k]? = none := fun l' => by
      rw [getElem?_eq_none_iff, block, length_take]
      omega
    rw [hblock]
    split
    · exact (getElem?_eq_none_iff.mpr (by omega)).symm
    · exact (hblock l).symm

theorem setBlock_nil (p i : ℕ) : setBlock p ([] : List α) i [] = [] := by simp [setBlock]

/-- The size of a region that may be out of use. -/
def sizeIf (used : Bool) (n : ℕ) : ℕ := if used then n else 0

theorem sizeIf_of {used : Bool} {n : ℕ} (h : used = true) : sizeIf used n = n := if_pos h

/-- **A region in use or not**: a block of it is set, where there is one. -/
theorem setBlock_spec {used : Bool} {n : ℕ} (hl : l.length = sizeIf used (n * p))
    (hv : vals.length = sizeIf used p) (hi : i < n) :
    (setBlock p l i vals).length = l.length ∧
      ∀ j, block p (setBlock p l i vals) j = if j = i then vals else block p l j := by
  cases used with
  | true =>
    have hle : (i + 1) * p ≤ l.length := hl ▸ Nat.mul_le_mul_right p hi
    exact ⟨length_setBlock hv hle, block_setBlock hv hle⟩
  | false =>
    rw [eq_nil_of_length_eq_zero hl, eq_nil_of_length_eq_zero hv, setBlock_nil]
    exact ⟨rfl, fun j => by simp [block]⟩

/-- **A row stored cell by cell** is a block. -/
theorem foldl_set (f : ℕ → α) {n : ℕ} (hn : n ≤ p) (h : (i + 1) * p ≤ l.length) :
    (List.range n).foldl (fun l j => l.set (i * p + j) (f j)) l =
      l.take (i * p) ++ (List.range n).map f ++ l.drop (i * p + n) := by
  rw [Nat.succ_mul] at h
  induction n with
  | zero => rw [range_zero, foldl_nil, map_nil, append_nil, Nat.add_zero,
      take_append_drop]
  | succ n ih =>
    have htake : (l.take (i * p) ++ (List.range n).map f).length = i * p + n := by
      rw [length_append, length_take, length_map, length_range]
      omega
    rw [range_succ, foldl_append, ih (by omega), foldl_cons, foldl_nil,
      set_append_right _ _ (by omega), htake, Nat.sub_self,
      drop_eq_getElem_cons (show i * p + n < l.length by omega), set_cons_zero,
      map_append, map_singleton, append_assoc, append_assoc, append_assoc]
    rfl

theorem map_range_getD (l : List α) (f : α → β) (a : α) :
    (List.range l.length).map (fun j => f (l.getD j a)) = l.map f := by
  refine ext_getElem (by simp) fun j hj _ => ?_
  rw [length_map, length_range] at hj
  simp [hj]

theorem foldl_set_eq (f : ℕ → α) (h : (i + 1) * p ≤ l.length) :
    (List.range p).foldl (fun l j => l.set (i * p + j) (f j)) l =
      setBlock p l i ((List.range p).map f) := by
  rw [foldl_set f le_rfl h, setBlock, Nat.succ_mul]

end Blocks

/-! ### Loops -/

section Loops

variable {s s' : σ}

theorem bind_ok {x : EStateM ε σ α} {f : α → EStateM ε σ β} {a : α} (h : x s = .ok a s') :
    (x >>= f) s = f a s' := by
  change EStateM.bind x f s = _
  rw [EStateM.bind, h]

theorem bind_error {x : EStateM ε σ α} {f : α → EStateM ε σ β} {e : ε} (h : x s = .error e s') :
    (x >>= f) s = .error e s' := by
  change EStateM.bind x f s = _
  rw [EStateM.bind, h]

/-- The state that a run leaves behind, also where it fails. -/
def finalState : EStateM.Result ε σ α → σ
  | .ok _ s => s
  | .error _ s => s

/-- The run did not fail. -/
def succeeded : EStateM.Result ε σ α → Bool
  | .ok _ _ => true
  | .error _ _ => false

theorem eq_ok_of_succeeded {r : EStateM.Result ε σ PUnit} (h : succeeded r = true) :
    r = .ok () (finalState r) := by
  cases r with
  | ok u s => rfl
  | error e s => cases h

/-- A computation that does not write. -/
def ofExcept (x : Except ε α) : EStateM ε σ α := fun s =>
  match x with
  | .ok a => .ok a s
  | .error e => .error e s

@[simp] theorem ofExcept_ok (a : α) (s : σ) : (ofExcept (.ok a) : EStateM ε σ α) s = .ok a s := rfl

@[simp] theorem ofExcept_error (e : ε) (s : σ) :
    (ofExcept (.error e) : EStateM ε σ α) s = .error e s := rfl

theorem exists_map_of_mapM [Inhabited β] {f : α → Except ε β} {l : List α} {r : List β}
    (h : l.mapM f = .ok r) : ∃ g : α → β, r = l.map g ∧ ∀ a ∈ l, f a = .ok (g a) := by
  let g : α → β := fun a => (f a).toOption.getD default
  have hg : ∀ a b, f a = .ok b → b = g a := fun a b hb => by
    change b = (f a).toOption.getD default
    rw [hb]
    rfl
  refine ⟨g, (map_id r).symm.trans (map_of_mapM h fun a _ b hb => hg a b hb), fun a ha => ?_⟩
  obtain ⟨i, hi⟩ := mem_iff_getElem?.mp ha
  obtain ⟨b, hb, -⟩ := getElem?_of_mapM h hi
  rw [hb, hg a b hb]

theorem exists_mem_of_mapM {f : α → Option β} {l : List α} {r : List β} (h : l.mapM f = some r) :
    ∀ a ∈ l, ∃ b ∈ r, f a = some b := by
  induction l generalizing r with
  | nil =>
    intro a ha
    cases ha
  | cons x l ih =>
    rw [mapM_cons] at h
    obtain ⟨b, hb, h⟩ := Option.bind_eq_some_iff.mp h
    obtain ⟨bs, hbs, h⟩ := Option.bind_eq_some_iff.mp h
    obtain rfl : b :: bs = r := Option.some.inj h
    refine forall_mem_cons.mpr ⟨⟨b, mem_cons_self, hb⟩, fun a ha => ?_⟩
    obtain ⟨c, hc, hac⟩ := ih hbs a ha
    exact ⟨c, mem_cons_of_mem b hc, hac⟩

/-- **A loop whose rounds succeed** is a fold over the state. -/
theorem forM_ok {P : σ → Prop} {l : List α} {f : α → EStateM ε σ PUnit} {step : σ → α → σ}
    (hs : P s) (h : ∀ a ∈ l, ∀ s, P s → f a s = .ok () (step s a) ∧ P (step s a)) :
    forM l f s = .ok () (l.foldl step s) ∧ P (l.foldl step s) := by
  induction l generalizing s with
  | nil => exact ⟨rfl, hs⟩
  | cons a l ih =>
    obtain ⟨hrun, hP⟩ := h a mem_cons_self s hs
    rw [forM_cons, bind_ok hrun, foldl_cons]
    exact ih hP fun b hb => h b (mem_cons_of_mem a hb)

theorem forM_cons_error {a : α} {l : List α} {f : α → EStateM ε σ PUnit} {e : ε}
    (h : f a s = .error e s') : forM (a :: l) f s = .error e s' := by
  rw [forM_cons, bind_error h]

end Loops

/-! ### Cells -/

section Cells

variable {ι ρ : Type} {P : σ → Prop} {get : σ → ι → ρ} {put : σ → α → σ} {key : α → ι} {val : α → ρ}
  {l : List α} {s : σ}

/-- Each write sets its own cell and no other one. -/
def SetsCells (P : σ → Prop) (get : σ → ι → ρ) (put : σ → α → σ) (key : α → ι) (val : α → ρ)
    (l : List α) : Prop :=
  ∀ a ∈ l, ∀ s, P s → P (put s a) ∧ get (put s a) (key a) = val a ∧
    ∀ j, j ≠ key a → get (put s a) j = get s j

theorem SetsCells.tail {a : α} (h : SetsCells P get put key val (a :: l)) :
    SetsCells P get put key val l := fun b hb => h b (mem_cons_of_mem a hb)

theorem SetsCells.preserves (h : SetsCells P get put key val l) (hs : P s) : P (l.foldl put s) := by
  induction l generalizing s with
  | nil => exact hs
  | cons a l ih => exact ih h.tail (h a mem_cons_self s hs).1

theorem SetsCells.get_of_forall_ne (h : SetsCells P get put key val l) (hs : P s) {j : ι}
    (hj : ∀ a ∈ l, key a ≠ j) : get (l.foldl put s) j = get s j := by
  induction l generalizing s with
  | nil => rfl
  | cons a l ih =>
    obtain ⟨hP, -, hother⟩ := h a mem_cons_self s hs
    rw [foldl_cons, ih h.tail hP fun b hb => hj b (mem_cons_of_mem a hb)]
    exact hother j (hj a mem_cons_self).symm

/-- **The last write of a cell** is what the cell holds. -/
theorem SetsCells.get_last {a : α} {l' : List α} (h : SetsCells P get put key val (l ++ a :: l'))
    (hs : P s) (hlast : ∀ b ∈ l', key b ≠ key a) :
    get ((l ++ a :: l').foldl put s) (key a) = val a := by
  rw [foldl_append]
  have hbefore : P (l.foldl put s) :=
    SetsCells.preserves (fun b hb => h b (mem_append_left _ hb)) hs
  have hafter : SetsCells P get put key val (a :: l') := fun b hb =>
      h b (mem_append_right _ hb)
  obtain ⟨hP, hval, -⟩ := hafter a mem_cons_self _ hbefore
  rw [foldl_cons, hafter.tail.get_of_forall_ne hP hlast, hval]

end Cells

/-! ### Regions -/

/-- A list that is a part of the state. -/
structure Region (σ α : Type) where
  get : σ → List α
  set : σ → List α → σ
  get_set : ∀ s l, get (set s l) = l
  set_set : ∀ s l l', set (set s l) l' = set s l'
  set_get : ∀ s, set s (get s) = s

namespace Region

variable (r : Region σ α)

/-- Stores a value, or fails where there is no cell. -/
def store (err : ℕ → ℕ → ε) (i : ℕ) (v : α) : EStateM ε σ PUnit := fun s =>
  if i < (r.get s).length then .ok () (r.set s ((r.get s).set i v))
  else .error (err i (r.get s).length) s

/-- Stores a row, at the places and with the values that are computed cell by cell. -/
def storeRow (err : ℕ → ℕ → ε) (n : ℕ) (off : ℕ → EStateM ε σ ℕ) (val : ℕ → EStateM ε σ α) :
    EStateM ε σ PUnit :=
  forM (List.range n) fun j => do
    let dst ← off j
    let v ← val j
    r.store err dst v

variable {r} {err : ℕ → ℕ → ε} {s : σ} {p i : ℕ} {off : ℕ → EStateM ε σ ℕ} {val : ℕ → EStateM ε σ α}
  {f : ℕ → α}

/-- **A row is stored** as a block. -/
theorem storeRow_ok (hoff : ∀ j < p, ∀ l, off j (r.set s l) = .ok (i * p + j) (r.set s l))
    (hval : ∀ j < p, ∀ l, val j (r.set s l) = .ok (f j) (r.set s l))
    (h : (i + 1) * p ≤ (r.get s).length) :
    r.storeRow err p off val s =
      .ok () (r.set s (setBlock p (r.get s) i ((List.range p).map f))) := by
  have hfold : ∀ (l : List ℕ) (s : σ),
      (l.foldl (fun s j => r.set s ((r.get s).set (i * p + j) (f j))) s) =
      r.set s (l.foldl (fun l j => l.set (i * p + j) (f j)) (r.get s)) := by
    intro l
    induction l with
    | nil => exact fun s => (r.set_get s).symm
    | cons j l ih =>
      intro s
      rw [foldl_cons, foldl_cons, ih, r.set_set, r.get_set]
  have hloop := @forM_ok ℕ ε σ s
    (fun s' => (∃ l, s' = r.set s l) ∧ (r.get s').length = (r.get s).length) (List.range p)
    (fun j => do
      let dst ← off j
      let v ← val j
      r.store err dst v) (fun s j => r.set s ((r.get s).set (i * p + j) (f j)))
    ⟨⟨r.get s, (r.set_get s).symm⟩, rfl⟩ (by
      rintro j hj s' ⟨⟨l, rfl⟩, hlen⟩
      have hlt := mem_range.mp hj
      rw [r.get_set] at hlen
      rw [Nat.succ_mul] at h
      refine ⟨?_, ⟨_, r.set_set _ _ _⟩, ?_⟩
      · rw [bind_ok (hoff j hlt l), bind_ok (hval j hlt l), store, r.get_set, if_pos (by omega)]
      · rw [r.get_set, r.get_set, length_set, hlen])
  rw [storeRow, hloop.1, hfold, foldl_set_eq f h]

theorem storeList_ok {l : List β} {g : β → α} {a : β} (hlen : l.length = p)
    (hoff : ∀ j < p, ∀ l, off j (r.set s l) = .ok (i * p + j) (r.set s l))
    (h : (i + 1) * p ≤ (r.get s).length) :
    r.storeRow err l.length off (fun j => pure (g (l.getD j a))) s =
      .ok () (r.set s (setBlock p (r.get s) i (l.map g))) := by
  rw [← map_range_getD l g a, hlen]
  exact storeRow_ok hoff (fun _ _ _ => rfl) h

theorem store_ok {v : α} (h : i < (r.get s).length) :
    r.store err i v s = .ok () (r.set s (setBlock 1 (r.get s) i [v])) := by
  rw [store, if_pos h, setBlock, Nat.mul_one, Nat.mul_one, set_eq_take_append_cons_drop,
    if_pos h,
    append_assoc]
  rfl

theorem storeRow_error {a : α} {dst : ℕ} (hp : 0 < p) (hoff : off 0 s = .ok dst s)
    (hval : val 0 s = .ok a s) (h : r.get s = []) :
    r.storeRow err p off val s = .error (err dst 0) s := by
  obtain ⟨n, rfl⟩ : ∃ n, p = n + 1 := ⟨p - 1, by omega⟩
  rw [storeRow, range_succ_eq_map]
  refine forM_cons_error ?_
  rw [bind_ok hoff, bind_ok hval, store, h, length_nil, if_neg (Nat.not_lt_zero _)]

end Region

end Storing

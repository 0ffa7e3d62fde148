import R9v.Lib.Blocks
import Mathlib.Algebra.BigOperators.Group.List.Basic
import Mathlib.Algebra.Order.BigOperators.Group.List
import Mathlib.Data.List.GetD
import Mathlib.Data.List.Sort
import Mathlib.Tactic.Ring

/-!
# Row-major order

The elements of an array of several axes are numbered axis by axis, the last axis running fastest
(`RowMajor.flat`), and a number below the number of elements is the number of one of them
(`RowMajor.flat_unflat`). An axis of extent one says nothing about the number of an element, so that axes
may change places as long as the others keep their order (`RowMajor.number_map_of_keepsOrder`).
-/

namespace RowMajor

open List

/-- The number of an element, from the extents of the axes and the coordinates on them. -/
def numberFrom (acc : ℕ) (l : List (ℕ × ℕ)) : ℕ := l.foldl (fun acc x => acc * x.1 + x.2) acc

def number (l : List (ℕ × ℕ)) : ℕ := numberFrom 0 l

@[simp] theorem numberFrom_nil (acc : ℕ) : numberFrom acc [] = acc := rfl

@[simp] theorem numberFrom_cons (acc : ℕ) (x : ℕ × ℕ) (l : List (ℕ × ℕ)) :
    numberFrom acc (x :: l) = numberFrom (acc * x.1 + x.2) l := rfl

theorem numberFrom_append (acc : ℕ) (l m : List (ℕ × ℕ)) :
    numberFrom acc (l ++ m) = numberFrom (numberFrom acc l) m :=
  foldl_append

/-- The number of an index among the elements of an array. -/
def flat (ext : List ℕ) (idx : ℕ → ℕ) : ℕ :=
  number ((List.range ext.length).map fun i => (ext.getD i 1, idx i))

/-- The coordinates of an element of a given number. -/
def unflat (ext : List ℕ) (n : ℕ) : ℕ → ℕ := fun i => n / (ext.drop (i + 1)).prod % ext.getD i 1

/-- Every coordinate is on its axis. -/
def InBounds (ext : List ℕ) (idx : ℕ → ℕ) : Prop := ∀ i < ext.length, idx i < ext.getD i 1

variable {ext : List ℕ} {idx : ℕ → ℕ} {n : ℕ}

/-! ### Numbers and coordinates -/

theorem prod_drop (i : ℕ) (hi : i < ext.length) :
    (ext.drop i).prod = ext.getD i 1 * (ext.drop (i + 1)).prod := by
  rw [drop_eq_getElem_cons hi, prod_cons, getD_eq_getElem _ _ hi]

theorem numberFrom_unflat (h : n < ext.prod) {k : ℕ} (hk : k ≤ ext.length) :
    number ((List.range k).map fun i => (ext.getD i 1, unflat ext n i)) = n / (ext.drop k).prod := by
  induction k with
  | zero => rw [drop_zero, Nat.div_eq_of_lt h, range_zero, map_nil, number, numberFrom_nil]
  | succ k ih =>
    have hsplit : n / (ext.drop k).prod = n / (ext.drop (k + 1)).prod / ext.getD k 1 := by
      rw [prod_drop k hk, Nat.div_div_eq_div_mul, Nat.mul_comm]
    rw [range_succ, map_append, number, numberFrom_append, ← number,
      ih (Nat.le_of_succ_le hk), hsplit]
    exact Nat.div_add_mod' _ _

/-- **An element has its number back.** -/
theorem flat_unflat (h : n < ext.prod) : flat ext (unflat ext n) = n := by
  rw [flat, numberFrom_unflat h le_rfl, drop_length, prod_nil, Nat.div_one]

theorem inBounds_unflat (hpos : ∀ x ∈ ext, 0 < x) : InBounds ext (unflat ext n) := by
  intro i hi
  refine Nat.mod_lt _ ?_
  rw [getD_eq_getElem _ _ hi]
  exact hpos _ (getElem_mem hi)

theorem flat_lt (h : InBounds ext idx) : flat ext idx < ext.prod := by
  have htake : ∀ k ≤ ext.length,
      number ((List.range k).map fun i => (ext.getD i 1, idx i)) < (ext.take k).prod := by
    intro k hk
    induction k with
    | zero => simp [number]
    | succ k ih =>
      have hlt := ih (Nat.le_of_succ_le hk)
      have hidx := h k hk
      rw [range_succ, map_append, number, numberFrom_append, ← number,
        prod_take_succ _ _ hk, ← getD_eq_getElem _ 1 hk]
      calc _ < number ((List.range k).map fun i => (ext.getD i 1, idx i)) * ext.getD k 1 + ext.getD k 1 :=
            Nat.add_lt_add_left hidx _
        _ = (number ((List.range k).map fun i => (ext.getD i 1, idx i)) + 1) * ext.getD k 1 := by ring
        _ ≤ _ := Nat.mul_le_mul_right _ hlt
  have hall := htake ext.length le_rfl
  rwa [take_length] at hall

/-! ### The order of the numbers -/

theorem numberFrom_lt {f g : ℕ → ℕ × ℕ} {l : List ℕ} (hext : ∀ i ∈ l, (f i).1 = (g i).1)
    (hbound : ∀ i ∈ l, (f i).2 < (f i).1) {a b : ℕ} (hab : a < b) :
    numberFrom a (l.map f) < numberFrom b (l.map g) := by
  induction l generalizing a b with
  | nil => exact hab
  | cons i l ih =>
    refine ih (fun j hj => hext j (mem_cons_of_mem i hj))
      (fun j hj => hbound j (mem_cons_of_mem i hj)) ?_
    have hi := hbound i mem_cons_self
    calc a * (f i).1 + (f i).2 < (a + 1) * (f i).1 := by linarith
      _ ≤ b * (f i).1 := Nat.mul_le_mul_right _ hab
      _ ≤ b * (g i).1 + (g i).2 := hext i mem_cons_self ▸ Nat.le_add_right _ _

/-- **The first axis on which two elements differ** says which of them has the smaller number. -/
theorem flat_lt_flat {idx' : ℕ → ℕ} {i : ℕ} (hi : i < ext.length) (h : InBounds ext idx)
    (hsame : ∀ j < i, idx j = idx' j) (hlt : idx i < idx' i) : flat ext idx < flat ext idx' := by
  have hsplit : ∀ idx : ℕ → ℕ, flat ext idx =
      numberFrom (number ((List.range i).map fun j => (ext.getD j 1, idx j)) * ext.getD i 1 + idx i)
        ((List.range' (i + 1) (ext.length - (i + 1))).map fun j => (ext.getD j 1, idx j)) := by
    intro idx
    rw [flat, number, Blocks.range_split hi, map_append, numberFrom_append, map_cons, numberFrom_cons]
    rfl
  have hprev : (List.range i).map (fun j => (ext.getD j 1, idx j)) =
      (List.range i).map fun j => (ext.getD j 1, idx' j) :=
    map_congr_left fun j hj => by rw [hsame j (mem_range.mp hj)]
  rw [hsplit, hsplit, hprev]
  refine numberFrom_lt (f := fun j => (ext.getD j 1, idx j)) (g := fun j => (ext.getD j 1, idx' j))
    (fun j _ => rfl) (fun j hj => ?_) (Nat.add_lt_add_left hlt _)
  obtain ⟨k, hk, rfl⟩ := mem_range'.mp hj
  exact h _ (by omega)

/-! ### Axes of extent one -/

theorem numberFrom_filter {l : List (ℕ × ℕ)} (h : ∀ x ∈ l, x.1 = 1 → x.2 = 0) (acc : ℕ) :
    numberFrom acc (l.filter (·.1 ≠ 1)) = numberFrom acc l := by
  induction l generalizing acc with
  | nil => rfl
  | cons x l ih =>
    have hl := ih fun y hy => h y (mem_cons_of_mem x hy)
    by_cases hx : x.1 = 1
    · rw [filter_cons_of_neg (by simpa using hx), hl, numberFrom_cons, hx, h x mem_cons_self hx,
        Nat.mul_one, Nat.add_zero]
    · rw [filter_cons_of_pos (by simpa using hx), numberFrom_cons, hl, numberFrom_cons]

variable {axes : List ℕ} {r : ℕ} {f : ℕ → ℕ × ℕ}

/-- **Axes that change places** leave the numbers alone when those of an extent other than one keep
their order. -/
theorem number_map_of_keepsOrder (hperm : axes.Perm (List.range r))
    (hone : ∀ x < r, (f x).1 = 1 → (f x).2 = 0)
    (hsort : axes.Pairwise fun x y => (f x).1 ≠ 1 → (f y).1 ≠ 1 → x < y) :
    number (axes.map f) = number ((List.range r).map f) := by
  have hone' : ∀ l : List ℕ, l.Perm (List.range r) → ∀ x ∈ l.map f, x.1 = 1 → x.2 = 0 := by
    rintro l hl y hy
    obtain ⟨x, hx, rfl⟩ := mem_map.mp hy
    exact hone x (mem_range.mp (hl.mem_iff.mp hx))
  have hfilter : axes.filter (fun x => (f x).1 ≠ 1) = (List.range r).filter (fun x => (f x).1 ≠ 1) := by
    refine Perm.eq_of_pairwise (fun a b _ _ (hab : a < b) hba => absurd hab hba.asymm) ?_ ?_
      (hperm.filter _)
    · rw [pairwise_filter]
      exact hsort.imp fun h hx hy => h (by simpa using hx) (by simpa using hy)
    · exact List.Pairwise.filter _ pairwise_lt_range
  have hnumber : ∀ l : List ℕ, l.Perm (List.range r) →
      number (l.map f) = number ((l.filter fun x => (f x).1 ≠ 1).map f) := fun l hl => by
    rw [number, ← numberFrom_filter (hone' l hl), filter_map]
    rfl
  rw [hnumber axes hperm, hfilter, ← hnumber _ (List.Perm.refl _)]

end RowMajor

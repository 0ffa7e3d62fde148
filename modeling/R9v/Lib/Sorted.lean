import Mathlib.Data.List.TakeWhile
import Mathlib.Data.List.InsertIdx
import Mathlib.Data.List.Perm.Basic
import Mathlib.Order.Basic

/-!
# Sorted lists and partition points

A list kept sorted answers three questions by one number, the length of its
longest prefix satisfying a test (`Sorted.partitionPoint`): where a new entry
goes, whether an entry is there already, and which entries lie in a range. The
lemmas say that these answers are right on a list sorted by a strict order: the
entry found at the partition point is the entry asked for exactly when the list
has it (`Sorted.getElem?_partitionPoint`), inserting there keeps the list sorted
(`Sorted.pairwise_insertIdx`), and cutting between two partition points removes
exactly the entries of a range (`Sorted.mem_cut`).

The order is an arbitrary relation `r`, so that a descending list is the same
case as an ascending one.
-/

namespace Sorted

open List

variable {α : Type} {r : α → α → Prop} {p : α → Bool} {l : List α} {a b : α}

/-! ### The partition point -/

/-- The number of entries before the first one that fails the test. -/
def partitionPoint (p : α → Bool) (l : List α) : ℕ := (l.takeWhile p).length

theorem partitionPoint_le_length (p : α → Bool) (l : List α) :
    partitionPoint p l ≤ l.length := (List.takeWhile_prefix p).length_le

theorem take_partitionPoint (p : α → Bool) (l : List α) :
    l.take (partitionPoint p l) = l.takeWhile p :=
  (prefix_iff_eq_take.mp (List.takeWhile_prefix p)).symm

theorem drop_partitionPoint (p : α → Bool) (l : List α) :
    l.drop (partitionPoint p l) = l.dropWhile p := by
  have h := take_append_drop (partitionPoint p l) l
  rw [take_partitionPoint] at h
  exact append_cancel_left (h.trans takeWhile_append_dropWhile.symm)

theorem insertIdx_partitionPoint (p : α → Bool) (l : List α) (a : α) :
    l.insertIdx (partitionPoint p l) a = l.takeWhile p ++ a :: l.dropWhile p := by
  induction l with
  | nil => rfl
  | cons c l ih =>
    by_cases hc : p c
    · simpa [partitionPoint, hc] using ih
    · simp [partitionPoint, hc]

/-! ### Lists sorted by a strict order -/

section Order

variable [DecidableRel r]

/-- What comes before the partition point of `a` is below `a`. -/
theorem rel_of_mem_takeWhile (h : b ∈ l.takeWhile (r · a)) : r b a := by
  simpa using mem_takeWhile_imp h

/-- On a sorted list nothing at or after the partition point of `a` is below
`a`. -/
theorem not_rel_of_mem_dropWhile [IsTrans α r] (hl : l.Pairwise r)
    (h : b ∈ l.dropWhile (r · a)) : ¬r b a := by
  induction l with
  | nil => simp at h
  | cons c l ih =>
    obtain ⟨hc, hl⟩ := pairwise_cons.mp hl
    by_cases hca : r c a
    · rw [dropWhile_cons_of_pos (by simpa using hca)] at h
      exact ih hl h
    · rw [dropWhile_cons_of_neg (by simpa using hca)] at h
      rcases mem_cons.mp h with rfl | hb
      · exact hca
      · exact fun hba => hca (IsTrans.trans _ _ _ (hc b hb) hba)

theorem mem_takeWhile_or_mem_dropWhile (p : α → Bool) (h : b ∈ l) :
    b ∈ l.takeWhile p ∨ b ∈ l.dropWhile p := by
  rwa [← mem_append, takeWhile_append_dropWhile]

/-- An entry of a sorted list comes before the partition point exactly when it
is below. -/
theorem mem_takeWhile [IsTrans α r] (hl : l.Pairwise r) :
    b ∈ l.takeWhile (r · a) ↔ b ∈ l ∧ r b a := by
  refine ⟨fun h => ⟨takeWhile_subset _ h, rel_of_mem_takeWhile h⟩, fun ⟨hb, hba⟩ => ?_⟩
  exact (mem_takeWhile_or_mem_dropWhile _ hb).resolve_right
    fun h => not_rel_of_mem_dropWhile hl h hba

/-- An entry of a sorted list comes after the partition point exactly when it is
not below. -/
theorem mem_dropWhile [IsTrans α r] (hl : l.Pairwise r) :
    b ∈ l.dropWhile (r · a) ↔ b ∈ l ∧ ¬r b a := by
  refine ⟨fun h => ⟨dropWhile_subset _ h, not_rel_of_mem_dropWhile hl h⟩, fun ⟨hb, hba⟩ => ?_⟩
  exact (mem_takeWhile_or_mem_dropWhile _ hb).resolve_left fun h => hba (rel_of_mem_takeWhile h)

/-- **Membership by partition point**: a sorted list has `a` exactly when the
entry at the partition point of `a` is `a`. -/
theorem getElem?_partitionPoint [IsTrans α r] [Std.Irrefl r] (hl : l.Pairwise r) :
    l[partitionPoint (r · a) l]? = some a ↔ a ∈ l := by
  refine ⟨mem_of_getElem?, fun ha => ?_⟩
  have had : a ∈ l.dropWhile (r · a) := (mem_dropWhile hl).mpr ⟨ha, Std.Irrefl.irrefl a⟩
  rw [← Nat.add_zero (partitionPoint _ _), ← getElem?_drop, drop_partitionPoint]
  have hsort : (l.dropWhile (r · a)).Pairwise r := hl.sublist (dropWhile_sublist _)
  cases hd : l.dropWhile (r · a) with
  | nil => simp [hd] at had
  | cons c m =>
    rw [hd] at had hsort
    -- the first entry is not below `a`, so `a` is not after it
    rcases mem_cons.mp had with rfl | ham
    · rfl
    · have hca : r c a := (pairwise_cons.mp hsort).1 a ham
      exact absurd hca (not_rel_of_mem_dropWhile hl (by rw [hd]; exact mem_cons_self))

/-- **A sorted list stays sorted** when a new entry goes to its partition
point. -/
theorem pairwise_insertIdx [IsTrans α r] [Std.Trichotomous r] (hl : l.Pairwise r)
    (ha : a ∉ l) : (l.insertIdx (partitionPoint (r · a) l) a).Pairwise r := by
  have habove : ∀ b ∈ l.dropWhile (r · a), r a b := fun b hb => by
    obtain ⟨hbl, hba⟩ := (mem_dropWhile hl).mp hb
    by_contra hab
    exact ha (Std.Trichotomous.trichotomous a b hab hba ▸ hbl)
  rw [insertIdx_partitionPoint, pairwise_append]
  refine ⟨hl.sublist (takeWhile_sublist _), pairwise_cons.mpr ⟨habove, ?_⟩, ?_⟩
  · exact hl.sublist (dropWhile_sublist _)
  · intro b hb c hc
    have hba : r b a := rel_of_mem_takeWhile hb
    rcases mem_cons.mp hc with rfl | hc
    · exact hba
    · exact IsTrans.trans _ _ _ hba (habove c hc)

/-! ### Cutting a range out -/

/-- The list without its entries from position `s` up to position `e`. -/
def cut (s e : ℕ) (l : List α) : List α := l.take s ++ l.drop e

theorem cut_sublist {s e : ℕ} (h : s ≤ e) (l : List α) : (cut s e l).Sublist l := by
  conv_rhs => rw [← take_append_drop s l]
  exact (drop_sublist_drop_left l h).append_left _

theorem length_cut_eq {β : Type} {s e : ℕ} {l : List α} {l' : List β}
    (h : l.length = l'.length) : (cut s e l).length = (cut s e l').length := by
  simp [cut, h]

/-- **Cutting between two partition points** removes exactly the range. -/
theorem mem_cut [IsTrans α r] (hl : l.Pairwise r) {lo hi : α} :
    b ∈ cut (partitionPoint (r · lo) l) (partitionPoint (r · hi) l) l ↔
      b ∈ l ∧ (r b lo ∨ ¬r b hi) := by
  rw [cut, mem_append, take_partitionPoint, drop_partitionPoint, mem_takeWhile hl,
    mem_dropWhile hl]
  tauto

theorem partitionPoint_mono {lo hi : α} (h : ∀ b, r b lo → r b hi) (l : List α) :
    partitionPoint (r · lo) l ≤ partitionPoint (r · hi) l := by
  induction l with
  | nil => simp [partitionPoint]
  | cons c l ih =>
    by_cases hc : r c lo
    · simpa [partitionPoint, hc, h c hc] using ih
    · simp [partitionPoint, hc]

theorem eraseIdx_cut {s e : ℕ} (h : s < l.length) :
    (cut (s + 1) e l).eraseIdx s = cut s e l := by
  have hlen : s < (l.take (s + 1)).length := by
    rw [length_take]
    omega
  rw [cut, eraseIdx_append_of_lt_length hlen, eraseIdx_eq_take_drop_succ]
  simp [cut, take_take]

theorem getElem?_cut {s e : ℕ} (h : s < l.length) : (cut (s + 1) e l)[s]? = l[s]? := by
  rw [cut, getElem?_append_left (by rw [length_take]; omega), getElem?_take]
  simp

@[simp] theorem cut_self (s : ℕ) (l : List α) : cut s s l = l := take_append_drop s l

end Order

end Sorted

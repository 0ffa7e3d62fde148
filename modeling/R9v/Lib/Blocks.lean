import R9v.Lib.Checked
import Mathlib.Data.List.Nodup

/-!
# Lists block by block

A list that is a number of blocks of one length may be worked on block by block (`Blocks.blockwise`).
Where each block can be worked back, so can the list (`Blocks.blockwise_blockwise`).

A list may also be filled cell by cell, in any order (`Blocks.fill`). What is in a cell in the end is what
was written into it, when no two cells were the same (`Blocks.fill_eq_ok`).
-/

namespace Blocks

open Checked List

variable {α β : Type}

theorem range_split {i n : ℕ} (h : i < n) :
    List.range n = List.range i ++ i :: List.range' (i + 1) (n - (i + 1)) := by
  have happend := @range'_append_1 0 i (n - (i + 1) + 1)
  have hlen : i + (n - (i + 1) + 1) = n := by omega
  rw [Nat.zero_add, hlen] at happend
  rw [range_eq_range', range_eq_range', ← range'_succ, happend]

/-! ### Blocks -/

/-- A block of a list. -/
def block (p : ℕ) (l : List α) (i : ℕ) : List α := (l.drop (i * p)).take p

/-- The blocks of a list, less what is left over. -/
def chunksExact (p : ℕ) (l : List α) : List (List α) := (List.range (l.length / p)).map (block p l)

/-- Works on the blocks of a list. -/
def blockwise (p count : ℕ) (e : List α → List β) (l : List α) : List β :=
  (List.range count).flatMap fun i => e (block p l i)

variable {p m count : ℕ} {l : List α} {e : List α → List β} {d : List β → List α}

theorem length_block {i : ℕ} (h : (i + 1) * p ≤ l.length) : (block p l i).length = p := by
  have hsucc : (i + 1) * p = i * p + p := Nat.succ_mul i p
  rw [block, length_take, length_drop]
  omega

theorem mem_of_mem_block {i : ℕ} {a : α} (h : a ∈ block p l i) : a ∈ l :=
  mem_of_mem_drop (mem_of_mem_take h)

theorem getElem?_block {i j : ℕ} (hj : j < p) : (block p l i)[j]? = l[i * p + j]? := by
  rw [block, getElem?_take_of_lt hj, getElem?_drop]

theorem length_flatMap_range {f : ℕ → List β} (h : ∀ i < count, (f i).length = m) :
    ((List.range count).flatMap f).length = count * m := by
  induction count with
  | zero => simp
  | succ count ih =>
    rw [range_succ, flatMap_append, length_append, ih fun i hi => h i (by omega),
      flatMap_singleton, h count (Nat.lt_succ_self count), Nat.succ_mul]

/-- **A block of blocks** laid end to end. -/
theorem block_flatMap_range {f : ℕ → List β} (h : ∀ i < count, (f i).length = m) {i : ℕ}
    (hi : i < count) : block m ((List.range count).flatMap f) i = f i := by
  have hlen : ((List.range i).flatMap f).length = i * m :=
    length_flatMap_range fun j hj => h j (hj.trans hi)
  rw [block, range_split hi, flatMap_append, drop_left' hlen, flatMap_cons,
    take_left' (h i hi)]

theorem flatMap_block (h : l.length = count * p) : (List.range count).flatMap (block p l) = l := by
  induction count generalizing l with
  | zero => simpa [eq_comm] using h
  | succ count ih =>
    rw [Nat.succ_mul] at h
    have htake : (l.take (count * p)).length = count * p := by
      rw [length_take]
      omega
    have hblocks : (List.range count).flatMap (block p l) =
        (List.range count).flatMap (block p (l.take (count * p))) := by
      refine flatMap_congr fun i hi => ?_
      have hle : (i + 1) * p ≤ count * p := Nat.mul_le_mul_right p (mem_range.mp hi)
      rw [Nat.succ_mul] at hle
      rw [block, block, drop_take, take_take, Nat.min_eq_left (by omega)]
    have hlast : block p l count = l.drop (count * p) := by
      refine take_of_length_le ?_
      rw [length_drop]
      omega
    rw [range_succ, flatMap_append, hblocks, ih htake, flatMap_singleton, hlast,
      take_append_drop]

theorem length_blockwise (hlen : l.length = count * p)
    (he : ∀ b : List α, b.length = p → (∀ a ∈ b, a ∈ l) → (e b).length = m) :
    (blockwise p count e l).length = count * m := by
  refine length_flatMap_range fun i hi => he _ (length_block ?_) fun a => mem_of_mem_block
  rw [hlen]
  exact Nat.mul_le_mul_right p hi

/-- **What is worked back block by block** is worked back. -/
theorem blockwise_blockwise (hlen : l.length = count * p)
    (he : ∀ b : List α, b.length = p → (∀ a ∈ b, a ∈ l) → (e b).length = m ∧ d (e b) = b) :
    blockwise m count d (blockwise p count e l) = l := by
  have hblock : ∀ i < count, (e (block p l i)).length = m ∧ d (e (block p l i)) = block p l i :=
    fun i hi => he _ (length_block (hlen ▸ Nat.mul_le_mul_right p hi)) fun a => mem_of_mem_block
  have hback : blockwise m count d (blockwise p count e l) = (List.range count).flatMap (block p l) := by
    refine flatMap_congr fun i hi => ?_
    rw [mem_range] at hi
    rw [blockwise, block_flatMap_range (fun j hj => (hblock j hj).1) hi, (hblock i hi).2]
  rw [hback, flatMap_block hlen]

theorem mem_blockwise {b : β} (h : b ∈ blockwise p count e l) : ∃ i < count, b ∈ e (block p l i) := by
  obtain ⟨i, hi, hb⟩ := mem_flatMap.mp h
  exact ⟨i, mem_range.mp hi, hb⟩

theorem flatMap_chunksExact (hp : 0 < p) (hlen : l.length = count * p) (e : List α → List β) :
    (chunksExact p l).flatMap e = blockwise p count e l := by
  rw [chunksExact, hlen, Nat.mul_div_cancel _ hp, flatMap_map]
  rfl

/-! ### Filling a list -/

section Fill

variable {ι ε : Type}

/-- Writes a cell of a list, which panics where there is none. -/
def write (dst : List α) (pos : ℕ) (a : α) : Except (Fault ε) (List α) :=
  if pos < dst.length then .ok (dst.set pos a) else .error .panic

/-- Fills cells of a list, one after the other. -/
def fill (target : ι → Except (Fault ε) ℕ) (value : ι → Except (Fault ε) α) (dst : List α)
    (l : List ι) : Except (Fault ε) (List α) :=
  l.foldlM (fun dst i => do
    let pos ← target i
    let a ← value i
    write dst pos a) dst

variable {target : ι → Except (Fault ε) ℕ} {value : ι → Except (Fault ε) α} {is : List ι} {f : ι → ℕ}
  {g : ι → α} {dst : List α}

/-- **A list filled cell by cell** has in each cell what was written there, and the rest is as before. -/
theorem fill_eq_ok (htarget : ∀ i ∈ is, target i = .ok (f i)) (hvalue : ∀ i ∈ is, value i = .ok (g i))
    (hlt : ∀ i ∈ is, f i < dst.length) (hnodup : (is.map f).Nodup) :
    ∃ r, fill target value dst is = .ok r ∧ r.length = dst.length ∧ (∀ i ∈ is, r[f i]? = some (g i)) ∧
      ∀ pos, pos ∉ is.map f → r[pos]? = dst[pos]? := by
  induction is generalizing dst with
  | nil => exact ⟨dst, rfl, rfl, by simp, fun _ _ => rfl⟩
  | cons i is ih =>
    have hi := mem_cons_self (a := i) (l := is)
    rw [map_cons, nodup_cons] at hnodup
    have hset : ∀ j ∈ is, f j < (dst.set (f i) (g i)).length := fun j hj => by
      rw [length_set]
      exact hlt j (mem_cons_of_mem i hj)
    obtain ⟨r, hr, hlen, hin, hout⟩ := ih (fun j hj => htarget j (mem_cons_of_mem i hj))
      (fun j hj => hvalue j (mem_cons_of_mem i hj)) hset hnodup.2
    refine ⟨r, ?_, by simpa using hlen, fun j hj => ?_, fun pos hpos => ?_⟩
    · rw [fill, foldlM_cons, htarget i hi, ok_bind, hvalue i hi, ok_bind, write, if_pos (hlt i hi),
        ok_bind]
      exact hr
    · rcases mem_cons.mp hj with rfl | hj
      · -- the cells that follow are other ones
        rw [hout _ hnodup.1, getElem?_set_self (hlt j hi)]
      · exact hin j hj
    · rw [map_cons, mem_cons, not_or] at hpos
      rw [hout pos hpos.2, getElem?_set_ne (Ne.symm hpos.1)]

end Fill

end Blocks

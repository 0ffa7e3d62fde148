import Mathlib.Data.List.Basic
import Mathlib.Data.Nat.ModEq
import Mathlib.Data.Nat.Notation

/-!
# Rings

A buffer of a fixed number of slots, over which a list is written round and round:
element `j` goes to slot `j % cap`, over what was there. `Ring.Holds` says what the
slots have then; read from the oldest on, they are the whole list, or its last `cap`
elements (`Ring.Holds.read_short`, `Ring.Holds.read_full`).
-/

namespace Ring

open List

variable {α : Type}

/-- The slots have the last elements of the list, and nothing else. -/
structure Holds (cap : ℕ) (buf : List (Option α)) (l : List α) : Prop where
  pos : 0 < cap
  length_eq : buf.length = cap
  last : ∀ j a, l[j]? = some a → l.length ≤ j + cap → buf[j % cap]? = some (some a)

theorem Holds.nil {cap : ℕ} (h : 0 < cap) :
    Holds cap (List.replicate cap none) ([] : List α) where
  pos := h
  length_eq := length_replicate
  last := by simp

theorem Holds.push {cap : ℕ} {buf : List (Option α)} {l : List α} (h : Holds cap buf l) (a : α) :
    Holds cap (buf.set (l.length % cap) (some a)) (l ++ [a]) where
  pos := h.pos
  length_eq := by rw [length_set, h.length_eq]
  last := by
    intro j b hj hle
    have hlt := Nat.mod_lt l.length h.pos
    rcases Nat.lt_or_ge j l.length with hjl | hjl
    · rw [getElem?_append_left hjl] at hj
      rw [length_append, length_singleton] at hle
      have hne : l.length % cap ≠ j % cap := by
        -- two positions less than `cap` apart do not share a slot
        intro heq
        obtain ⟨d, hd⟩ := (Nat.modEq_iff_dvd' hjl.le).mp heq.symm
        have hpos : 0 < d := Nat.pos_of_ne_zero fun h0 => by simp [h0] at hd; omega
        have := Nat.le_mul_of_pos_right cap hpos
        omega
      rw [getElem?_set_ne hne]
      exact h.last j b hj (by omega)
    · have hjeq : j = l.length := by
        have := (List.getElem?_eq_some_iff.mp hj).1
        rw [length_append, length_singleton] at this
        omega
      subst hjeq
      rw [getElem?_concat_length] at hj
      cases hj
      rw [getElem?_set_self (by rw [h.length_eq]; exact hlt)]

theorem Holds.read_short {cap : ℕ} {buf : List (Option α)} {l : List α} (h : Holds cap buf l)
    (hlt : l.length < cap) : (buf.take l.length).filterMap id = l := by
  have heq : buf.take l.length = l.map some := by
    apply ext_getElem?
    intro i
    rw [getElem?_take, getElem?_map]
    split
    · rename_i hi
      have hget : l[i]? = some (l[i]) := getElem?_eq_getElem hi
      have := h.last i _ hget (by omega)
      rw [Nat.mod_eq_of_lt (by omega)] at this
      rw [this, hget]
      rfl
    · rw [getElem?_eq_none (by omega)]
      rfl
  rw [heq, filterMap_map]
  exact filterMap_some

theorem filterMap_getElem? (l : List α) : (List.range l.length).filterMap (l[·]?) = l := by
  induction l with
  | nil => rfl
  | cons a l ih =>
    rw [length_cons, range_succ_eq_map, filterMap_cons, filterMap_map]
    exact congrArg (a :: ·) ih

theorem Holds.read_full {cap : ℕ} {buf : List (Option α)} {l : List α} (h : Holds cap buf l)
    (hle : cap ≤ l.length) :
    (List.range cap).filterMap (fun i => (buf[(l.length % cap + i) % cap]?).join) =
      l.drop (l.length - cap) := by
  have heq : ∀ i ∈ List.range cap, (buf[(l.length % cap + i) % cap]?).join =
      l[l.length - cap + i]? := by
    intro i hi
    rw [mem_range] at hi
    have hget : l[l.length - cap + i]? = some (l[l.length - cap + i]) :=
      getElem?_eq_getElem (by omega)
    have hslot : (l.length % cap + i) % cap = (l.length - cap + i) % cap := by
      rw [Nat.mod_add_mod, ← Nat.add_mod_right (l.length - cap + i) cap]
      congr 1
      omega
    rw [hslot, h.last _ _ hget (by omega), hget]
    rfl
  have hread := filterMap_getElem? (l.drop (l.length - cap))
  rw [length_drop, Nat.sub_sub_self hle] at hread
  rw [filterMap_congr heq, ← hread]
  simp only [getElem?_drop]

end Ring

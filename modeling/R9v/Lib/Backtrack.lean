import Mathlib.Data.List.TakeWhile

/-!
# Backtracking patterns

Patterns over a list of symbols with the semantics of a backtracking matcher: `Rx.lengths`
lists the lengths of all the matches at the start of the list in the order in which such a
matcher tries them, and the match is the first of them (`Rx.first`). A repetition is greedy,
so it tries its whole run of symbols before the shorter ones, an option tries its symbol
before nothing, and a sequence goes back into its first part when its second has no match.
-/

namespace Backtrack

open List

/-- Patterns over symbols; a class of symbols is a predicate. -/
inductive Rx (α : Type*) where
  /-- One symbol of a class. -/
  | one (p : α → Bool)
  /-- One or more symbols of a class, as many as there are. -/
  | plus (p : α → Bool)
  | opt (r : Rx α)
  | seq (r s : Rx α)
  /-- The next symbol is none of a class. -/
  | notAhead (p : α → Bool)

namespace Rx

variable {α : Type*}

/-- The lengths of the matches at the start, in the order in which they are tried. -/
@[simp] def lengths : Rx α → List α → List ℕ
  | one p, l => if l.head?.any p then [1] else []
  | plus p, l => (List.range (l.takeWhile p).length).reverse.map (· + 1)
  | opt r, l => r.lengths l ++ [0]
  | seq r s, l => (r.lengths l).flatMap fun n => (s.lengths (l.drop n)).map (n + ·)
  | notAhead p, l => if l.head?.any p then [] else [0]

/-- The length of the match at the start. -/
def first (r : Rx α) (l : List α) : Option ℕ := (r.lengths l).head?

/-- A word, symbol by symbol. -/
def word [BEq α] : α → List α → Rx α
  | a, [] => one (· == a)
  | a, b :: w => seq (one (· == a)) (word b w)

variable {r s : Rx α} {p q : α → Bool} {a : α} {l : List α}

theorem first_one : (one p).first l = if l.head?.any p then some 1 else none := by
  unfold first lengths
  split <;> rfl

theorem first_seq :
    (seq r s).first l = (r.lengths l).findSome? fun n => (s.first (l.drop n)).map (n + ·) := by
  simp only [first, lengths, head?_flatMap, head?_map]

theorem first_word [BEq α] [LawfulBEq α] (a : α) (w l : List α) :
    (word a w).first l = if (a :: w).isPrefixOf l then some (w.length + 1) else none := by
  induction w generalizing a l with
  | nil =>
    rw [word, first_one]
    cases l with
    | nil => rfl
    | cons b l =>
      rw [isPrefixOf_cons_cons, List.isPrefixOf, Bool.and_true, BEq.comm]
      rfl
  | cons b w ih =>
    rw [word, first_seq]
    cases l with
    | nil => rfl
    | cons c l =>
      by_cases hc : a = c
      · subst hc
        simp only [lengths, head?_cons, Option.any_some, beq_self_eq_true, if_true,
          findSome?_cons, findSome?_nil, drop_succ_cons, drop_zero, ih,
          isPrefixOf_cons_cons, Bool.true_and, length_cons]
        by_cases h : (b :: w).isPrefixOf l = true
        · rw [if_pos h, if_pos h]
          simp only [Option.map_some]
          rw [Nat.add_comm]
        · rw [if_neg h, if_neg h]
          rfl
      · simp [lengths, hc, Ne.symm hc]

theorem first_plus (p : α → Bool) (l : List α) :
    (plus p).first l =
      if l.head?.any p then some (l.takeWhile p).length else none := by
  cases l with
  | nil => rfl
  | cons a l =>
    by_cases ha : p a = true
    · simp [first, lengths, ha, range_succ]
    · simp [first, lengths, ha]

theorem first_opt_one_plus_cons (hp : p a = true) (hq : q a = false) :
    (seq (opt (one p)) (plus q)).first (a :: l) =
      if l.head?.any q then some (1 + (l.takeWhile q).length) else none := by
  have hnone : (plus q).first (a :: l) = none := by
    rw [first_plus, head?_cons, Option.any_some, if_neg (by simp [hq])]
  rw [first_seq]
  simp only [lengths, head?_cons, Option.any_some, hp, if_true, singleton_append,
    findSome?_cons, findSome?_nil, drop_succ_cons, drop_zero, hnone,
    Option.map_none, first_plus q l]
  by_cases h : l.head?.any q = true
  · rw [if_pos h, if_pos h]
    rfl
  · rw [if_neg h, if_neg h]
    rfl

theorem first_opt_one_of_not (hp : l.head?.any p = false) :
    (seq (opt (one p)) s).first l = s.first l := by
  rw [first_seq]
  simp only [lengths, hp, Bool.false_eq_true, if_false, nil_append, findSome?_cons,
    findSome?_nil, drop_zero]
  cases s.first l <;> simp

theorem first_notAhead : (notAhead p).first l = if l.head?.any p then none else some 0 := by
  unfold first lengths
  split <;> rfl

theorem lengths_plus {k : ℕ} (h : (l.takeWhile p).length = k + 1) :
    (plus p).lengths l = (k + 1) :: (List.range k).reverse.map (· + 1) := by
  rw [lengths, h, range_succ, reverse_append, reverse_singleton,
    singleton_append, map_cons]

theorem first_plus_notAhead (hpq : ∀ a, q a = !p a) (hl : l ≠ []) :
    (seq (plus p) (notAhead q)).first l =
      if l.dropWhile p = [] then some l.length
      else if 1 < (l.takeWhile p).length then some ((l.takeWhile p).length - 1) else none := by
  have hsplit : l.takeWhile p ++ l.dropWhile p = l := takeWhile_append_dropWhile
  have hrun : ∀ a ∈ l.takeWhile p, p a = true := fun a ha => mem_takeWhile_imp ha
  have hat : ∀ n, n ≤ (l.takeWhile p).length →
      l.drop n = (l.takeWhile p).drop n ++ l.dropWhile p := by
    intro n hn
    rw [← drop_append_of_le_length hn, hsplit]
  rw [first_seq]
  simp only [first_notAhead]
  by_cases hrest : l.dropWhile p = []
  · -- nothing stands behind the run
    rw [hrest, append_nil] at hsplit
    obtain ⟨k, hk⟩ := Nat.exists_eq_add_one_of_ne_zero (mt length_eq_zero_iff.mp hl)
    rw [lengths_plus (hsplit ▸ hk), if_pos hrest, hk, findSome?_cons, ← hk, drop_length]
    rfl
  · obtain ⟨a, rest, ha⟩ := exists_cons_of_ne_nil hrest
    have hnot : q a = true := by
      have := head?_dropWhile_not p l
      rw [ha, head?_cons] at this
      rw [hpq, this]
      rfl
    rw [if_neg hrest]
    cases hlen : (l.takeWhile p).length with
    | zero => simp [lengths, hlen]
    | succ k =>
      -- the whole run stands before a symbol that is not of its class
      have hwhole := hat (k + 1) hlen.ge
      rw [← hlen, drop_length, nil_append, ha, hlen] at hwhole
      rw [lengths_plus hlen, findSome?_cons, hwhole, head?_cons, Option.any_some,
        if_pos hnot, Option.map_none]
      cases k with
      | zero => rfl
      | succ k =>
        have hless := hat (k + 1) (by omega)
        have hmem : ∃ b t, (l.takeWhile p).drop (k + 1) = b :: t ∧ p b = true := by
          obtain ⟨b, t, hbt⟩ := exists_cons_of_ne_nil (l := (l.takeWhile p).drop (k + 1)) (by
            rw [Ne, drop_eq_nil_iff]
            omega)
          exact ⟨b, t, hbt, hrun b (mem_of_mem_drop (hbt ▸ mem_cons_self))⟩
        obtain ⟨b, t, hbt, hb⟩ := hmem
        rw [range_succ, reverse_append, reverse_singleton, singleton_append,
          map_cons, findSome?_cons, hless, hbt, cons_append, head?_cons,
          Option.any_some, hpq, hb]
        rfl

end Rx

/-! ### Scanning -/

section Scan

variable {α : Type*} {alts : List (Rx α)} {l : List α} {words : List (List α)}

/-- The length of the match of the first of some alternatives that has one. -/
def matchLen (alts : List (Rx α)) (l : List α) : Option ℕ := alts.findSome? fun r => r.first l

theorem matchLen_cons (r : Rx α) (alts : List (Rx α)) (l : List α) :
    matchLen (r :: alts) l = (r.first l).or (matchLen alts l) := by
  rw [matchLen, findSome?_cons]
  cases r.first l <;> rfl

theorem matchLen_append (alts alts' : List (Rx α)) (l : List α) :
    matchLen (alts ++ alts') l = (matchLen alts l).or (matchLen alts' l) :=
  findSome?_append ..

/-- The words of a list: at each place the match of the first alternative that has one there,
and one symbol where none has. -/
inductive Scan (alts : List (Rx α)) : List α → List (List α) → Prop
  | nil : Scan alts [] []
  | cons (l : List α) (words : List (List α)) : l ≠ [] → Scan alts (l.drop ((matchLen alts l).getD 1)) words →
      Scan alts l (l.take ((matchLen alts l).getD 1) :: words)

end Scan

end Backtrack

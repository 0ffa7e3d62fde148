import R9v.Lib.Utf8
import Mathlib.Data.List.Basic
import Mathlib.Tactic.Common

/-!
# Characters of UTF-8 text

The bytes of one character (`Utf8.IsChar`), and the start of a character that is not complete
(`Utf8.Begun`). A text is a list of characters (`Utf8.valid_append_of_isChar`,
`Utf8.valid_uncons`), so that what follows a text is judged by itself (`Utf8.valid_append`), and
a character starts at every byte that is not a tail byte.
-/

namespace Utf8

open List

/-- The bytes of a character. -/
inductive IsChar : List ℕ → Prop
  | ascii {b : ℕ} : b ≤ 0x7F → IsChar [b]
  | long {lead low high n b : ℕ} {rest : List ℕ} : second lead = some ((low, high), n) → low ≤ b →
      b ≤ high → rest.length = n → (∀ c ∈ rest, isTail c) → IsChar (lead :: b :: rest)

/-- A lead byte and some of the bytes that are to follow it. -/
inductive Begun : List ℕ → ℕ → Prop
  | lead {lead low high n : ℕ} {rest : List ℕ} : second lead = some ((low, high), n) →
      rest.length < n + 1 → (∀ c ∈ rest, isTail c) → Begun (lead :: rest) (n + 2)

section Chars

variable {c l r rest : List ℕ} {b lead low high n m : ℕ}

theorem second_eq_some (h : second lead = some ((low, high), n)) :
    0xC2 ≤ lead ∧ lead ≤ 0xF4 ∧ 0x80 ≤ low ∧ high ≤ 0xBF ∧ n ≤ 2 := by
  unfold second at h
  split_ifs at h <;> simp only [Option.some.injEq, Prod.mk.injEq] at h <;> omega

@[simp] theorem isTail_iff : isTail b = true ↔ 0x80 ≤ b ∧ b ≤ 0xBF := by
  simp [isTail]

theorem IsChar.ne_nil (h : IsChar c) : c ≠ [] := by
  cases h <;> simp

theorem IsChar.head (h : IsChar (b :: c)) : isTail b = false := by
  rw [← Bool.not_eq_true, isTail_iff]
  cases h with
  | ascii hb => omega
  | long hsec =>
    have := second_eq_some hsec
    omega

theorem IsChar.tails (h : IsChar (b :: c)) : ∀ x ∈ c, isTail x := by
  cases h with
  | ascii => simp
  | long hsec hlow hhigh hlen hall =>
    have := second_eq_some hsec
    refine forall_mem_cons.mpr ⟨?_, hall⟩
    rw [isTail_iff]
    omega

theorem IsChar.length_le (h : IsChar c) : c.length ≤ 4 := by
  cases h with
  | ascii => simp
  | long hsec hlow hhigh hlen hall =>
    have := second_eq_some hsec
    simp only [length_cons]
    omega

theorem IsChar.le (h : IsChar c) : ∀ x ∈ c, x ≤ 255 := by
  cases h with
  | ascii hb => simp; omega
  | long hsec hlow hhigh hlen hall =>
    have := second_eq_some hsec
    simp only [forall_mem_cons]
    refine ⟨by omega, by omega, fun x hx => ?_⟩
    have := isTail_iff.mp (hall x hx)
    omega

theorem validFuel_eq (hn : l.length ≤ n) (hm : l.length ≤ m) : validFuel n l = validFuel m l := by
  induction n generalizing l m with
  | zero =>
    obtain rfl := eq_nil_of_length_eq_zero (Nat.le_zero.mp hn)
    cases m <;> rfl
  | succ n ih =>
    rcases l with _ | ⟨b, l⟩
    · cases m <;> rfl
    · obtain ⟨m, rfl⟩ : ∃ k, m = k + 1 := ⟨m - 1, by simp at hm; omega⟩
      simp only [length_cons, Nat.add_le_add_iff_right] at hn hm
      simp only [validFuel]
      split
      · exact ih hn hm
      · rcases hv : validTail b l with _ | rest
        · rfl
        · have hle : rest.length ≤ l.length := by
            rcases l with _ | ⟨x, l⟩
            · cases hv
            · simp only [validTail] at hv
              split at hv
              · cases hv
              · split at hv
                · cases hv
                  simp only [length_drop, length_cons]
                  omega
                · cases hv
          exact ih (Nat.le_trans hle hn) (Nat.le_trans hle hm)

@[simp] theorem nil_valid : valid [] = true := rfl

theorem valid_append_of_isChar (h : IsChar c) : valid (c ++ l) = valid l := by
  unfold valid
  cases h with
  | ascii hb =>
    simp only [singleton_append, length_cons, validFuel, if_pos hb]
  | @long lead low high n b rest hsec hlow hhigh hlen hall =>
    have hlead := second_eq_some hsec
    have htake : (rest ++ l).take n = rest := by rw [← hlen, take_left]
    have hdrop : (rest ++ l).drop n = l := by rw [← hlen, drop_left]
    have hcond : low ≤ b ∧ b ≤ high ∧ n ≤ (rest ++ l).length ∧ ((rest ++ l).take n).all isTail := by
      refine ⟨hlow, hhigh, by rw [length_append]; omega, ?_⟩
      rw [htake, all_eq_true]
      exact hall
    simp only [cons_append, length_cons, validFuel]
    rw [if_neg (by omega), show validTail lead (b :: (rest ++ l)) = some l from ?_]
    · exact validFuel_eq (by rw [length_append]; omega) le_rfl
    · simp only [validTail, hsec]
      rw [if_pos hcond, hdrop]

/-- **A text begins with a character**, and goes on as a text. -/
theorem valid_uncons (h : valid (b :: l) = true) :
    ∃ c r, IsChar c ∧ b :: l = c ++ r ∧ valid r = true := by
  have hvalid := h
  unfold valid at h
  simp only [length_cons, validFuel] at h
  split at h
  · rename_i hb
    exact ⟨[b], l, .ascii hb, rfl, h⟩
  · split at h
    · cases h
    · rename_i rest hrest
      rcases l with _ | ⟨x, l⟩
      · cases hrest
      · simp only [validTail] at hrest
        split at hrest
        · cases hrest
        · rename_i low high n hsec
          split at hrest
          · rename_i hcond
            have hchar : IsChar (b :: x :: l.take n) :=
              .long hsec hcond.1 hcond.2.1 (by rw [length_take]; omega)
                (all_eq_true.mp hcond.2.2.2)
            have heq : b :: x :: l = (b :: x :: l.take n) ++ l.drop n := by simp
            refine ⟨_, _, hchar, heq, ?_⟩
            rw [heq, valid_append_of_isChar hchar] at hvalid
            exact hvalid
          · cases hrest

/-- **An induction over the characters** of a text. -/
theorem valid_induction {P : List ℕ → Prop} (nil : P [])
    (append : ∀ c l, IsChar c → valid l = true → P l → P (c ++ l)) (h : valid l = true) : P l := by
  generalize hn : l.length = n
  induction n using Nat.strong_induction_on generalizing l with
  | _ n ih =>
    rcases l with _ | ⟨b, l⟩
    · exact nil
    · obtain ⟨c, r, hchar, heq, hr⟩ := valid_uncons h
      have hpos := length_pos_of_ne_nil hchar.ne_nil
      have hlen := congrArg List.length heq
      rw [length_append] at hlen
      rw [heq]
      exact append c r hchar hr (ih r.length (by omega) hr rfl)

/-- **What follows a text** is judged by itself. -/
theorem valid_append (h : valid l = true) : valid (l ++ r) = valid r := by
  refine valid_induction (P := fun l => valid (l ++ r) = valid r) rfl (fun c l hc hl ih => ?_) h
  rw [append_assoc, valid_append_of_isChar hc, ih]

theorem le_of_valid (h : valid l = true) : ∀ x ∈ l, x ≤ 255 := by
  refine valid_induction (P := fun l => ∀ x ∈ l, x ≤ 255) (by simp) (fun c l hc hl ih => ?_) h
  exact forall_mem_append.mpr ⟨hc.le, ih⟩

theorem valid_isChar (h : IsChar c) : valid c = true := by
  have := valid_append_of_isChar (l := []) h
  rwa [append_nil] at this

theorem valid_head (h : valid (b :: l) = true) : isTail b = false := by
  obtain ⟨c, r, hchar, heq, -⟩ := valid_uncons h
  rcases c with _ | ⟨x, c⟩
  · exact absurd rfl hchar.ne_nil
  · rw [cons_append, List.cons.injEq] at heq
    rw [heq.1]
    exact hchar.head

end Chars

end Utf8

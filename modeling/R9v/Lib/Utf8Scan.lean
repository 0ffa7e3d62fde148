import R9v.Lib.Utf8
import Mathlib.Data.List.Basic
import Mathlib.Tactic.Common

/-!
# Scanning bytes for characters

A list of bytes is read from the left: at every place there is a well-formed UTF-8
character (`Utf8.scalarLen` is its length) or there is none. `Utf8.lossy` keeps the
characters and puts U+FFFD for every other byte, and `Utf8.display` does the same but
puts a single U+FFFD for a character that the end has cut off.

Where a list may be cut in two so that both halves are scanned as before is said by
`Utf8.Closed`: no end of the list is the start of a character. The list may also be cut
before any byte that is not a tail byte (`Utf8.lossy_append`, `Utf8.display_append`).
-/

namespace Utf8

open List

/-- A byte that continues a character. -/
def tail (b : UInt8) : Bool := isTail b.toNat

/-- The number of bytes of the character at the front, and zero if there is none. -/
def scalarLen : List UInt8 → ℕ
  | [] => 0
  | b :: l =>
    if b.toNat ≤ 0x7F then 1
    else
      match second b.toNat, l with
      | some ((low, high), n), c :: l =>
        if low ≤ c.toNat ∧ c.toNat ≤ high ∧ n ≤ l.length ∧ (l.take n).all tail then n + 2 else 0
      | _, _ => 0

/-- Whether the bytes are the start of a character, but not all of it. -/
def completable : List UInt8 → Bool
  | [] => false
  | b :: l =>
    match second b.toNat with
    | none => false
    | some ((low, high), n) =>
      match l with
      | [] => true
      | c :: l => low ≤ c.toNat && c.toNat ≤ high && l.length < n && l.all tail

/-- Whether the bytes are characters only, from the place `k` bytes on. -/
def validFrom : ℕ → List UInt8 → Bool
  | _, [] => true
  | k + 1, _ :: l => validFrom k l
  | 0, b :: l =>
    match scalarLen (b :: l) with
    | 0 => false
    | n + 1 => validFrom n l

/-- Whether the bytes are well-formed UTF-8. -/
def Valid (l : List UInt8) : Prop := validFrom 0 l = true

instance (l : List UInt8) : Decidable (Valid l) := inferInstanceAs (Decidable (_ = true))

/-- The bytes of U+FFFD. -/
def replacement : List UInt8 := [0xEF, 0xBF, 0xBD]

/-- Keeps the next `k` bytes and what is a character after them, and replaces every other
byte. -/
def lossyFrom : ℕ → List UInt8 → List UInt8
  | _, [] => []
  | k + 1, b :: l => b :: lossyFrom k l
  | 0, b :: l =>
    match scalarLen (b :: l) with
    | 0 => replacement ++ lossyFrom 0 l
    | n + 1 => b :: lossyFrom n l

/-- The characters of the list, with U+FFFD for every byte that is in none. -/
def lossy (l : List UInt8) : List UInt8 := lossyFrom 0 l

/-- Like `lossyFrom`, but a character that is cut off at the end is replaced as a whole. -/
def displayFrom : ℕ → List UInt8 → List UInt8
  | _, [] => []
  | k + 1, b :: l => b :: displayFrom k l
  | 0, b :: l =>
    match scalarLen (b :: l) with
    | 0 => if completable (b :: l) then replacement else replacement ++ displayFrom 0 l
    | n + 1 => b :: displayFrom n l

attribute [grind =] completable validFrom lossyFrom displayFrom

/-- The characters of the list, with U+FFFD for every byte that is in none, and a single
U+FFFD for a character that is cut off at the end. -/
def display (l : List UInt8) : List UInt8 := displayFrom 0 l

/-- No end of the list is the start of a character that more bytes would complete. -/
def Closed (l : List UInt8) : Prop := ∀ s, s <:+ l → completable s = false

/-! ### Characters and their starts -/

section Scalars

variable {b c : UInt8} {s l r : List UInt8} {k n low high : ℕ}

theorem second_bounds (h : second k = some ((low, high), n)) :
    0xC2 ≤ k ∧ k ≤ 0xF4 ∧ 0x80 ≤ low ∧ high ≤ 0xBF ∧ n ≤ 2 := by
  unfold second at h
  split_ifs at h <;> simp only [Option.some.injEq, Prod.mk.injEq] at h <;> omega

theorem tail_iff : tail b = true ↔ 0x80 ≤ b.toNat ∧ b.toNat ≤ 0xBF := by
  simp [tail, isTail]

theorem scalarLen_le (l : List UInt8) : scalarLen l ≤ l.length := by
  cases l with
  | nil => exact le_rfl
  | cons b l =>
    simp only [scalarLen]
    split
    · simp
    · split
      · split
        · simp only [length_cons]
          omega
        · exact Nat.zero_le _
      · exact Nat.zero_le _

theorem completable_lead (h : completable (b :: l) = true) : tail b = false := by
  simp only [completable] at h
  split at h
  · cases h
  · rename_i hsec
    have hb := second_bounds hsec
    rw [← Bool.not_eq_true, tail_iff]
    omega

theorem completable_tails (h : completable (b :: l) = true) : ∀ c ∈ l, tail c = true := by
  simp only [completable] at h
  split at h
  · cases h
  · rename_i hsec
    have hb := second_bounds hsec
    cases l with
    | nil => simp
    | cons c l =>
      simp only [Bool.and_eq_true, decide_eq_true_eq] at h
      obtain ⟨⟨⟨hlow, hhigh⟩, -⟩, hall⟩ := h
      intro d hd
      rcases mem_cons.mp hd with rfl | hd
      · rw [tail_iff]
        omega
      · exact all_eq_true.mp hall d hd

theorem scalarLen_of_completable (h : completable s = true) : scalarLen s = 0 := by
  cases s with
  | nil => rfl
  | cons b l =>
    simp only [completable] at h
    split at h
    · cases h
    · rename_i low high n hsec
      have hb := second_bounds hsec
      simp only [scalarLen]
      rw [if_neg (by omega)]
      cases l with
      | nil => simp [hsec]
      | cons c l =>
        simp only [Bool.and_eq_true, decide_eq_true_eq] at h
        simp only [hsec]
        rw [if_neg]
        omega

theorem completable_of_append (hs : s ≠ []) (h : completable (s ++ r) = true) :
    completable s = true := by
  cases s with
  | nil => exact absurd rfl hs
  | cons b l =>
    rw [cons_append] at h
    rcases hsec : second b.toNat with _ | ⟨⟨low, high⟩, n⟩
    · simp [completable, hsec] at h
    · simp only [completable, hsec] at h ⊢
      cases l with
      | nil => rfl
      | cons c l =>
        simp only [cons_append, Bool.and_eq_true, decide_eq_true_eq, length_append,
          all_append] at h ⊢
        exact ⟨⟨h.1.1, by omega⟩, h.2.1⟩

/-- **More bytes do not change a character**, nor where there is none, unless they
complete one. -/
theorem scalarLen_append (hs : s ≠ []) (r : List UInt8) :
    scalarLen (s ++ r) = scalarLen s ∨
      (completable s = true ∧ ∃ c r', r = c :: r' ∧ tail c = true) := by
  cases s with
  | nil => exact absurd rfl hs
  | cons b l =>
    cases r with
    | nil => exact Or.inl (by rw [append_nil])
    | cons c r =>
      rw [cons_append]
      by_cases hb : b.toNat ≤ 0x7F
      · refine Or.inl ?_
        simp only [scalarLen, if_pos hb]
      · rcases hsec : second b.toNat with _ | ⟨⟨low, high⟩, n⟩
        · refine Or.inl ?_
          simp only [scalarLen, if_neg hb, hsec]
        · have hbounds := second_bounds hsec
          cases l with
          | nil =>
            by_cases hc : low ≤ c.toNat ∧ c.toNat ≤ high
            · refine Or.inr ⟨by simp [completable, hsec], c, r, rfl, ?_⟩
              rw [tail_iff]
              omega
            · refine Or.inl ?_
              simp only [nil_append, scalarLen, if_neg hb, hsec]
              exact if_neg fun h => hc ⟨h.1, h.2.1⟩
          | cons d l =>
            simp only [cons_append, scalarLen, if_neg hb, hsec]
            by_cases hd : low ≤ d.toNat ∧ d.toNat ≤ high
            · by_cases hn : n ≤ l.length
              · refine Or.inl ?_
                rw [take_append_of_le_length hn, length_append]
                simp only [hn, Nat.le_add_right_of_le hn]
              · by_cases hall : l.all tail = true ∧ tail c = true
                · refine Or.inr ⟨?_, c, r, rfl, hall.2⟩
                  simp only [completable, hsec, Bool.and_eq_true, decide_eq_true_eq]
                  exact ⟨⟨hd, by omega⟩, hall.1⟩
                · refine Or.inl ?_
                  rw [if_neg, if_neg (fun h => hn h.2.2.1)]
                  rintro ⟨-, -, -, htake⟩
                  refine hall ?_
                  rw [take_append, all_append, take_of_length_le (by omega),
                    Bool.and_eq_true] at htake
                  obtain ⟨j, hj⟩ : ∃ j, n - l.length = j + 1 := ⟨n - l.length - 1, by omega⟩
                  rw [hj, take_succ_cons, all_cons, Bool.and_eq_true] at htake
                  exact ⟨htake.1, htake.2.1⟩
            · refine Or.inl ?_
              rw [if_neg (fun h => hd ⟨h.1, h.2.1⟩), if_neg (fun h => hd ⟨h.1, h.2.1⟩)]

end Scalars

/-! ### Cutting a list -/

section Cut

variable {b : UInt8} {l r s : List UInt8} {k n : ℕ}

theorem Closed.nil : Closed [] := by
  intro s hs
  rw [suffix_nil.mp hs]
  rfl

theorem Closed.of_suffix (h : Closed l) (hs : s <:+ l) : Closed s :=
  fun t ht => h t (ht.trans hs)

/-- What stands before a byte that is no tail byte, or is closed itself, is scanned as if
nothing followed. -/
theorem scalarLen_cut (h : Closed l ∨ ∀ c r', r = c :: r' → tail c = false) (hs : s <:+ l)
    (hne : s ≠ []) : scalarLen (s ++ r) = scalarLen s := by
  rcases scalarLen_append hne r with heq | ⟨hcomp, c, r', rfl, hc⟩
  · exact heq
  · rcases h with h | h
    · rw [h s hs] at hcomp
      cases hcomp
    · rw [h c r' rfl] at hc
      cases hc

theorem lossyFrom_append (h : Closed l ∨ ∀ c r', r = c :: r' → tail c = false) (hk : k ≤ l.length) :
    lossyFrom k (l ++ r) = lossyFrom k l ++ lossyFrom 0 r := by
  induction l generalizing k with
  | nil =>
    obtain rfl : k = 0 := by simpa using hk
    rfl
  | cons b l ih =>
    have ih' := fun j => @ih j (h.imp_left fun h => h.of_suffix (suffix_cons b l))
    cases k with
    | succ k =>
      simp only [cons_append, lossyFrom]
      rw [ih' k (by simpa using hk)]
    | zero =>
      have hcut := scalarLen_cut h (suffix_refl _) (cons_ne_nil b l)
      have hle := scalarLen_le (b :: l)
      rw [cons_append] at hcut ⊢
      simp only [lossyFrom, hcut]
      cases hlen : scalarLen (b :: l) with
      | zero => simp only [ih' 0 (Nat.zero_le _), append_assoc]
      | succ n =>
        rw [hlen] at hle
        simp only [ih' n (by simpa using hle), cons_append]

/-- **Where a list may be cut.** -/
theorem lossy_append (h : Closed l ∨ ∀ c r', r = c :: r' → tail c = false) :
    lossy (l ++ r) = lossy l ++ lossy r :=
  lossyFrom_append h (Nat.zero_le _)

/-- A list that is closed, or continues with a byte that is no tail byte, is not the start
of a character with what follows. -/
theorem completable_cut (h : Closed l ∨ ∃ c r', r = c :: r' ∧ tail c = false) (hs : s <:+ l)
    (hne : s ≠ []) : completable (s ++ r) = false := by
  rw [← Bool.not_eq_true]
  intro hcomp
  rcases h with h | ⟨c, r', rfl, hc⟩
  · have := completable_of_append hne hcomp
    rw [h s hs] at this
    cases this
  · cases s with
    | nil => exact absurd rfl hne
    | cons b s =>
      have := completable_tails hcomp c (by simp)
      rw [hc] at this
      cases this

theorem displayFrom_append (h : Closed l ∨ ∃ c r', r = c :: r' ∧ tail c = false)
    (hk : k ≤ l.length) : displayFrom k (l ++ r) = lossyFrom k l ++ displayFrom 0 r := by
  induction l generalizing k with
  | nil =>
    obtain rfl : k = 0 := by simpa using hk
    rfl
  | cons b l ih =>
    have ih' := fun j => @ih j (h.imp_left fun h => h.of_suffix (suffix_cons b l))
    cases k with
    | succ k =>
      simp only [cons_append, displayFrom, lossyFrom]
      rw [ih' k (by simpa using hk)]
    | zero =>
      have hweak : Closed (b :: l) ∨ ∀ c r', r = c :: r' → tail c = false := by
        refine h.imp_right ?_
        rintro ⟨c, r', rfl, hc⟩ _ _ ⟨⟩
        exact hc
      have hcut := scalarLen_cut hweak (suffix_refl _) (cons_ne_nil b l)
      have hcomp := completable_cut h (suffix_refl _) (cons_ne_nil b l)
      have hle := scalarLen_le (b :: l)
      rw [cons_append] at hcut hcomp ⊢
      simp only [displayFrom, lossyFrom, hcut, hcomp]
      cases hlen : scalarLen (b :: l) with
      | zero => simp only [ih' 0 (Nat.zero_le _), append_assoc, Bool.false_eq_true, if_false]
      | succ n =>
        rw [hlen] at hle
        simp only [ih' n (by simpa using hle), cons_append]

/-- **Where a list may be cut for display**: nothing before the cut waits for more
bytes. -/
theorem display_append (h : Closed l ∨ ∃ c r', r = c :: r' ∧ tail c = false) :
    display (l ++ r) = lossy l ++ display r :=
  displayFrom_append h (Nat.zero_le _)

theorem display_of_closed (h : Closed l) : display l = lossy l := by
  have := @display_append l [] (Or.inl h)
  rwa [append_nil, show display [] = [] from rfl, append_nil] at this

theorem display_of_completable (h : completable s = true) : display s = replacement := by
  cases s with
  | nil => cases h
  | cons b l => simp [display, displayFrom, scalarLen_of_completable h, h]

theorem suffix_append_cases (h : s <:+ l ++ r) : s <:+ r ∨ ∃ t, t <:+ l ∧ s = t ++ r := by
  obtain ⟨p, hp⟩ := h
  rcases append_eq_append_iff.mp hp with ⟨a, rfl, rfl⟩ | ⟨a, rfl, rfl⟩
  · exact Or.inr ⟨a, suffix_append p a, rfl⟩
  · exact Or.inl (suffix_append a s)

theorem Closed.append (hr : Closed r) (h : Closed l ∨ ∃ c r', r = c :: r' ∧ tail c = false) :
    Closed (l ++ r) := by
  intro s hs
  rcases suffix_append_cases hs with hs | ⟨t, ht, rfl⟩
  · exact hr s hs
  · by_cases hne : t = []
    · subst hne
      exact hr _ (suffix_refl r)
    · exact completable_cut h ht hne

end Cut

/-! ### Well-formed lists -/

section Valid

variable {b : UInt8} {l r s : List UInt8} {k n : ℕ}

theorem scalarLen_of_take (h : scalarLen l = n + 1) (r : List UInt8) :
    scalarLen (l.take (n + 1) ++ r) = n + 1 := by
  cases l with
  | nil => cases h
  | cons b l =>
    rw [take_succ_cons, cons_append]
    simp only [scalarLen] at h ⊢
    split at h
    · rename_i hb
      rw [if_pos hb]
      omega
    · rename_i hb
      rw [if_neg hb]
      split at h
      · rename_i low high m c l hsec
        split at h
        · rename_i hcond
          obtain rfl : m + 1 = n := by omega
          have hlen : (l.take m).length = m := by simp; omega
          rw [take_succ_cons, cons_append]
          simp only [hsec]
          rw [if_pos]
          refine ⟨hcond.1, hcond.2.1, by simp; omega, ?_⟩
          rw [take_append_of_le_length (by omega), take_take, min_self]
          exact hcond.2.2.2
        · cases h
      · cases h

theorem valid_nil : Valid [] := rfl

theorem validFrom_append (hk : validFrom k l = true) (hle : k ≤ l.length) :
    validFrom k (l ++ r) = validFrom 0 r := by
  induction l generalizing k with
  | nil =>
    obtain rfl : k = 0 := by simpa using hle
    rfl
  | cons b l ih =>
    cases k with
    | succ k => exact ih hk (by simpa using hle)
    | zero =>
      simp only [validFrom] at hk
      cases hlen : scalarLen (b :: l) with
      | zero => simp [hlen] at hk
      | succ n =>
        have hle' := scalarLen_le (b :: l)
        rw [hlen] at hle'
        have happ : scalarLen (b :: (l ++ r)) = n + 1 := by
          rcases @scalarLen_append (b :: l) (cons_ne_nil b l) r with heq | ⟨hcomp, -⟩
          · rw [← cons_append, heq, hlen]
          · rw [scalarLen_of_completable hcomp] at hlen
            cases hlen
        simp only [hlen] at hk
        simp only [cons_append, validFrom, happ]
        exact ih hk (by simpa using hle')

/-- **What follows well-formed bytes** is judged by itself. -/
theorem Valid.append_iff (h : Valid l) : Valid (l ++ r) ↔ Valid r := by
  unfold Valid
  rw [validFrom_append h (Nat.zero_le _)]

theorem validFrom_left (hcut : ∀ c r', r = c :: r' → tail c = false) (hk : k ≤ l.length)
    (h : validFrom k (l ++ r) = true) : validFrom k l = true := by
  induction l generalizing k with
  | nil => cases k <;> rfl
  | cons b l ih =>
    cases k with
    | succ k => exact ih (by simpa using hk) h
    | zero =>
      have hlen := scalarLen_cut (Or.inr hcut) (suffix_refl _) (cons_ne_nil b l)
      have hle := scalarLen_le (b :: l)
      rw [cons_append] at hlen
      simp only [cons_append, validFrom, hlen] at h ⊢
      cases hscalar : scalarLen (b :: l) with
      | zero => simp [hscalar] at h
      | succ n =>
        rw [hscalar] at hle
        simp only [hscalar] at h
        exact ih (by simpa using hle) h

theorem Valid.left (h : Valid (l ++ r)) (hcut : ∀ c r', r = c :: r' → tail c = false) : Valid l :=
  validFrom_left hcut (Nat.zero_le _) h

theorem Valid.head_not_tail (h : Valid (b :: l)) : tail b = false := by
  have hpos : scalarLen (b :: l) ≠ 0 := by
    intro hzero
    simp [Valid, validFrom, hzero] at h
  rw [← Bool.not_eq_true, tail_iff]
  intro htail
  refine hpos ?_
  simp only [scalarLen]
  rw [if_neg (by omega)]
  rcases hsec : second b.toNat with _ | ⟨⟨low, high⟩, n⟩
  · rfl
  · have := second_bounds hsec
    omega

theorem validFrom_eq (k : ℕ) (l : List UInt8) : validFrom k l = validFrom 0 (l.drop k) := by
  induction l generalizing k with
  | nil => simp [validFrom]
  | cons b l ih =>
    cases k with
    | zero => rfl
    | succ k => exact ih k

/-- Well-formed bytes start with a character, and go on well-formed. -/
theorem Valid.uncons (h : Valid (b :: l)) :
    ∃ n, scalarLen (b :: l) = n + 1 ∧ Valid ((b :: l).take (n + 1)) ∧ Valid (l.drop n) := by
  unfold Valid at h ⊢
  simp only [validFrom] at h
  cases hlen : scalarLen (b :: l) with
  | zero => simp [hlen] at h
  | succ n =>
    simp only [hlen] at h
    refine ⟨n, rfl, ?_, ?_⟩
    · have hself := scalarLen_of_take hlen []
      rw [append_nil, take_succ_cons] at hself
      rw [take_succ_cons]
      simp only [validFrom, hself]
      rw [validFrom_eq, drop_eq_nil_of_le (length_take_le _ _)]
      rfl
    · rwa [validFrom_eq] at h

theorem displayFrom_of_validFrom (h : validFrom k l = true) : displayFrom k l = l := by
  induction l generalizing k with
  | nil => cases k <;> rfl
  | cons b l ih =>
    cases k with
    | succ k => simp only [displayFrom, ih h]
    | zero =>
      simp only [validFrom] at h
      simp only [displayFrom]
      split at h
      · cases h
      · simp only [ih h]

theorem Valid.display_eq (h : Valid l) : display l = l := displayFrom_of_validFrom h

theorem lossyFrom_eq (hk : k ≤ l.length) :
    lossyFrom k l = l.take k ++ lossyFrom 0 (l.drop k) := by
  induction l generalizing k with
  | nil =>
    obtain rfl : k = 0 := by simpa using hk
    rfl
  | cons b l ih =>
    cases k with
    | zero => rfl
    | succ k =>
      simp only [lossyFrom, take_succ_cons, drop_succ_cons, cons_append]
      rw [ih (by simpa using hk)]

theorem validFrom_lossyFrom (hk : k ≤ l.length) : validFrom k (lossyFrom k l) = true := by
  induction l generalizing k with
  | nil => cases k <;> rfl
  | cons b l ih =>
    cases k with
    | succ k => exact ih (by simpa using hk)
    | zero =>
      simp only [lossyFrom]
      cases hlen : scalarLen (b :: l) with
      | zero =>
        have hrep : Valid replacement := by decide
        exact hrep.append_iff.mpr (ih (Nat.zero_le _))
      | succ n =>
        have hle := scalarLen_le (b :: l)
        rw [hlen] at hle
        have hn : n ≤ l.length := by simpa using hle
        have hscalar : scalarLen (b :: lossyFrom n l) = n + 1 := by
          rw [lossyFrom_eq hn, ← cons_append, ← take_succ_cons]
          exact scalarLen_of_take hlen _
        simp only [validFrom, hscalar]
        exact ih hn

/-- **What is kept and replaced is well-formed.** -/
theorem valid_lossy (l : List UInt8) : Valid (lossy l) := validFrom_lossyFrom (Nat.zero_le _)

end Valid

end Utf8

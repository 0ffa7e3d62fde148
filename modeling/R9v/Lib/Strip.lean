import Mathlib.Data.List.Infix

/-!
# Stripping words

A finite list of words over some letters is the white space of a text; `strip` removes such words
from its front for as long as there is one, and `stripEnd` from its end. Where no word is the
beginning of another, what is removed is the longest blank beginning (`strip_append`), and where no
word starts with a letter from the inside of another, a text that is not blank keeps its front
when blanks are added to its end (`strip_append_blank`).
-/

namespace Strip

open List

variable {α : Type} (words : List (List α))

/-- A text that consists of words. -/
inductive Blank : List α → Prop
  | nil : Blank []
  | append {c l : List α} (hc : c ∈ words) (h : Blank l) : Blank (c ++ l)

/-- No word is empty or the beginning of another one. -/
structure PrefixFree : Prop where
  ne_nil : ∀ c ∈ words, c ≠ []
  eq_of_prefix : ∀ c ∈ words, ∀ d ∈ words, c <+: d → c = d

/-- Besides, no word starts with a letter from the inside of another one. -/
structure Separable : Prop extends PrefixFree words where
  head_ne : ∀ c ∈ words, ∀ d ∈ words, ∀ a ∈ c.tail, d.head? ≠ some a

section

variable [DecidableEq α]

/-- The length of the word at the front, and zero if there is none. -/
def wordLen (l : List α) : ℕ := (words.find? fun c => c.isPrefixOf l).elim 0 List.length

/-- Removes words from the front, with fuel for each. -/
def stripLoop : ℕ → List α → List α
  | 0, l => l
  | fuel + 1, l => if wordLen words l = 0 then l else stripLoop fuel (l.drop (wordLen words l))

def strip (l : List α) : List α := stripLoop words l.length l

/-- Removes words from the end. -/
def stripEnd (l : List α) : List α := (strip (words.map List.reverse) l.reverse).reverse

end

variable {words} {b c l u v : List α}

/-! ### Blank texts -/

theorem Blank.of_mem (hc : c ∈ words) : Blank words c := by
  have h := Blank.append hc Blank.nil
  rwa [append_nil] at h

theorem Blank.concat (hb : Blank words b) (hl : Blank words l) : Blank words (b ++ l) := by
  induction hb with
  | nil => exact hl
  | append hc _ ih =>
    rw [append_assoc]
    exact .append hc ih

theorem Blank.reverse (hb : Blank words b) : Blank (words.map List.reverse) b.reverse := by
  induction hb with
  | nil => exact .nil
  | append hc _ ih =>
    rw [reverse_append]
    exact ih.concat (.of_mem (mem_map_of_mem hc))

theorem Separable.cut (h : Separable words) {d x y : List α} {a : α} (hd : d ∈ words)
    (hda : d.head? = some a) (hb : Blank words b) (hbxy : b = x ++ y) (hy : y.head? = some a) :
    Blank words x ∧ Blank words y := by
  induction hb generalizing x with
  | nil =>
    obtain ⟨rfl, rfl⟩ := append_eq_nil_iff.mp hbxy.symm
    exact ⟨.nil, .nil⟩
  | @append c l hc hl ih =>
    rcases append_eq_append_iff.mp hbxy with ⟨z, rfl, hz⟩ | ⟨z, rfl, hz⟩
    · obtain ⟨hblank, hrest⟩ := ih hz
      exact ⟨.append hc hblank, hrest⟩
    · cases x with
      | nil =>
        rw [hz]
        exact ⟨.nil, .append hc hl⟩
      | cons e x =>
        cases z with
        | nil =>
          rw [append_nil] at hc
          exact ⟨.of_mem hc, hz ▸ hl⟩
        | cons a' z =>
          -- the word would start inside of another one
          obtain rfl : a' = a := by
            rw [hz] at hy
            exact Option.some.inj hy
          exact absurd hda (h.head_ne _ hc d hd a' (by simp))

theorem Blank.exists_word (hb : Blank words b) (hne : b ≠ []) (h : PrefixFree words) :
    ∃ d ∈ words, ∃ m, b = d ++ m ∧ ∃ a, d.head? = some a ∧ b.head? = some a := by
  cases hb with
  | nil => exact absurd rfl hne
  | @append d m hd _ =>
    have hdne := h.ne_nil d hd
    cases d with
    | nil => exact absurd rfl hdne
    | cons a d => exact ⟨a :: d, hd, m, rfl, a, rfl, rfl⟩

theorem map_reverse_reverse (words : List (List α)) :
    (words.map List.reverse).map List.reverse = words := by
  rw [map_map]
  exact (map_congr_left fun c _ => reverse_reverse c).trans (map_id _)

/-! ### Words at the front -/

variable [DecidableEq α]

theorem wordLen_eq_zero (hne : ∀ c ∈ words, c ≠ []) :
    wordLen words l = 0 ↔ ∀ c ∈ words, ¬c <+: l := by
  rw [wordLen]
  cases hfind : words.find? fun c => c.isPrefixOf l with
  | none => simpa using hfind
  | some c =>
    have hc := mem_of_find?_eq_some hfind
    have hpre : c <+: l := by simpa using find?_some hfind
    have hlen : c.length ≠ 0 := by simpa using hne c hc
    exact iff_of_false hlen fun h => h c hc hpre

theorem exists_of_wordLen_ne_zero (h : wordLen words l ≠ 0) :
    ∃ c ∈ words, ∃ m, l = c ++ m ∧ wordLen words l = c.length := by
  rw [wordLen] at h ⊢
  cases hfind : words.find? fun c => c.isPrefixOf l with
  | none => exact absurd (by rw [hfind]; rfl) h
  | some c =>
    obtain ⟨m, hm⟩ : c <+: l := by simpa using find?_some hfind
    exact ⟨c, mem_of_find?_eq_some hfind, m, hm.symm, rfl⟩

theorem wordLen_append (h : PrefixFree words) (hc : c ∈ words) :
    wordLen words (c ++ l) = c.length := by
  have hne : wordLen words (c ++ l) ≠ 0 := fun hzero =>
    (wordLen_eq_zero h.ne_nil).mp hzero c hc (prefix_append c l)
  obtain ⟨d, hd, m, hm, hlen⟩ := exists_of_wordLen_ne_zero hne
  rw [hlen]
  -- both words are beginnings of the text, so that one is the beginning of the other
  rcases prefix_or_prefix_of_prefix (prefix_append c l) (hm ▸ prefix_append d m)
    with hpre | hpre
  · rw [h.eq_of_prefix c hc d hd hpre]
  · rw [h.eq_of_prefix d hd c hc hpre]

theorem wordLen_of_prefix (hne : ∀ c ∈ words, c ≠ []) (hu : wordLen words u = 0) (hv : v <+: u) :
    wordLen words v = 0 := by
  rw [wordLen_eq_zero hne] at hu ⊢
  exact fun c hc hpre => hu c hc (hpre.trans hv)

/-! ### Stripping -/

theorem stripLoop_spec (hne : ∀ c ∈ words, c ≠ []) (fuel : ℕ) (hfuel : l.length ≤ fuel) :
    ∃ b, Blank words b ∧ l = b ++ stripLoop words fuel l ∧
      wordLen words (stripLoop words fuel l) = 0 := by
  induction fuel generalizing l with
  | zero =>
    obtain rfl := length_eq_zero_iff.mp (Nat.le_zero.mp hfuel)
    refine ⟨[], .nil, rfl, (wordLen_eq_zero hne).mpr fun c hc hpre => ?_⟩
    exact hne c hc (prefix_nil.mp hpre)
  | succ fuel ih =>
    rw [stripLoop]
    by_cases hzero : wordLen words l = 0
    · rw [if_pos hzero]
      exact ⟨[], .nil, rfl, hzero⟩
    · rw [if_neg hzero]
      obtain ⟨c, hc, m, rfl, hlen⟩ := exists_of_wordLen_ne_zero hzero
      rw [hlen, drop_left]
      rw [length_append] at hfuel
      obtain ⟨b, hb, heq, hdone⟩ := ih (l := m) (by omega)
      refine ⟨c ++ b, .append hc hb, ?_, hdone⟩
      rw [append_assoc, ← heq]

theorem PrefixFree.stripLoop_append (h : PrefixFree words) (hb : Blank words b)
    (hu : wordLen words u = 0) (fuel : ℕ) (hfuel : (b ++ u).length ≤ fuel) :
    stripLoop words fuel (b ++ u) = u := by
  induction hb generalizing fuel with
  | nil =>
    cases fuel with
    | zero => rfl
    | succ fuel => exact if_pos hu
  | @append c b hc _ ih =>
    have hpos := length_pos_iff.mpr (h.ne_nil c hc)
    rw [append_assoc, length_append] at hfuel
    cases fuel with
    | zero => omega
    | succ fuel =>
      rw [append_assoc, stripLoop, wordLen_append h hc, if_neg (by omega), drop_left]
      exact ih fuel (by omega)

/-- What `strip` removes is blank, and no word follows. -/
theorem strip_spec (hne : ∀ c ∈ words, c ≠ []) (l : List α) :
    ∃ b, Blank words b ∧ l = b ++ strip words l ∧ wordLen words (strip words l) = 0 :=
  stripLoop_spec hne l.length le_rfl

/-- **Stripping is unique**: no other blank beginning leaves a text without a word at its front. -/
theorem PrefixFree.strip_eq (h : PrefixFree words) (hb : Blank words b) (hu : wordLen words u = 0) :
    strip words (b ++ u) = u :=
  h.stripLoop_append hb hu _ le_rfl

theorem PrefixFree.strip_append (h : PrefixFree words) (hb : Blank words b) (l : List α) :
    strip words (b ++ l) = strip words l := by
  obtain ⟨b', hb', heq, hzero⟩ := strip_spec h.ne_nil l
  calc strip words (b ++ l) = strip words ((b ++ b') ++ strip words l) := by
        rw [append_assoc, ← heq]
    _ = strip words l := h.strip_eq (hb.concat hb') hzero

theorem PrefixFree.strip_of_wordLen (h : PrefixFree words) (hu : wordLen words u = 0) :
    strip words u = u := h.strip_eq .nil hu

theorem PrefixFree.strip_blank (h : PrefixFree words) (hb : Blank words b) :
    strip words b = [] := by
  have := h.strip_append hb []
  rwa [append_nil] at this

theorem strip_eq_nil (h : PrefixFree words) : strip words l = [] ↔ Blank words l := by
  constructor
  · intro hnil
    obtain ⟨b, hb, heq, -⟩ := strip_spec h.ne_nil l
    rw [hnil, append_nil] at heq
    exact heq ▸ hb
  · exact h.strip_blank

theorem PrefixFree.stripEnd_append (h : PrefixFree (words.map List.reverse)) (hb : Blank words b)
    (l : List α) : stripEnd words (l ++ b) = stripEnd words l := by
  rw [stripEnd, reverse_append, h.strip_append hb.reverse]
  rfl

theorem PrefixFree.stripEnd_blank (h : PrefixFree (words.map List.reverse)) (hb : Blank words b) :
    stripEnd words b = [] := by
  rw [stripEnd, h.strip_blank hb.reverse]
  rfl

theorem PrefixFree.stripEnd_eq (h : PrefixFree (words.map List.reverse)) (hb : Blank words b)
    (hl : ∀ c ∈ words, ¬c <:+ l) : stripEnd words (l ++ b) = l := by
  have hzero : wordLen (words.map List.reverse) l.reverse = 0 := by
    rw [wordLen_eq_zero h.ne_nil]
    intro c hc hpre
    obtain ⟨d, hd, rfl⟩ := mem_map.mp hc
    exact hl d hd (List.reverse_prefix.mp hpre)
  rw [stripEnd, reverse_append, h.strip_eq hb.reverse hzero, reverse_reverse]

/-- What `stripEnd` removes is blank, and no word comes before. -/
theorem stripEnd_spec (h : PrefixFree (words.map List.reverse)) (l : List α) :
    ∃ b, Blank words b ∧ l = stripEnd words l ++ b ∧ ∀ c ∈ words, ¬c <:+ stripEnd words l := by
  obtain ⟨b, hb, heq, hzero⟩ := strip_spec h.ne_nil l.reverse
  refine ⟨b.reverse, map_reverse_reverse words ▸ hb.reverse, ?_, fun c hc hsuf => ?_⟩
  · rw [stripEnd, ← reverse_append, ← heq, reverse_reverse]
  · refine (wordLen_eq_zero h.ne_nil).mp hzero c.reverse (mem_map_of_mem hc) ?_
    rwa [stripEnd, ← reverse_reverse c, reverse_suffix] at hsuf

theorem blank_of_stripEnd (h : PrefixFree (words.map List.reverse)) (hl : stripEnd words l = []) :
    Blank words l := by
  obtain ⟨b, hb, heq, -⟩ := stripEnd_spec h l
  rw [hl, nil_append] at heq
  exact heq ▸ hb

theorem Separable.stripEnd_blank_append (h : Separable words)
    (hr : PrefixFree (words.map List.reverse)) (hb : Blank words b) (hu : wordLen words u = 0)
    (hne : u ≠ []) : stripEnd words (b ++ u) = b ++ stripEnd words u := by
  obtain ⟨e, he, heq, hsuf⟩ := stripEnd_spec hr u
  generalize stripEnd words u = w at *
  subst heq
  rw [← append_assoc]
  refine hr.stripEnd_eq he ?_
  rintro c hc ⟨m, hm⟩
  rcases append_eq_append_iff.mp hm with ⟨z, rfl, rfl⟩ | ⟨z, rfl, hz⟩
  · -- the word starts in the blanks at the front, where it is a word of them
    cases z with
    | nil => exact hsuf _ hc ⟨[], rfl⟩
    | cons a z =>
      obtain ⟨-, hblank⟩ := h.cut hc rfl hb rfl rfl
      obtain ⟨d, hd, k, hk, -⟩ := hblank.exists_word (cons_ne_nil a z) h.toPrefixFree
      have heq : d = a :: z ++ w := h.eq_of_prefix d hd _ hc (hk ▸ ⟨k ++ w, by simp⟩)
      have hlen := congrArg List.length hk
      rw [heq, length_append, length_append] at hlen
      obtain rfl : w = [] := length_eq_zero_iff.mp (by omega)
      obtain ⟨d, hd, k, hk, -⟩ := he.exists_word hne h.toPrefixFree
      exact (wordLen_eq_zero h.ne_nil).mp hu d hd ⟨k, hk.symm⟩
  · exact hsuf c hc ⟨z, hz.symm⟩

end Strip

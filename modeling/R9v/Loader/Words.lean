import R9v.Lib.Backtrack
import R9v.Loader.Characters

/-!
# The words of GPT-2

The pattern that the splitter of `r9v-loader/src/pretokenizer.rs` is a port of, as one that
backtracks (`gpt2`), and the words of a text by it: at each place the match of the first
alternative that has one, and a single character where none has. The splitter has no
pattern; its words are these (`splitGpt2_spec`).
-/

namespace R9v

open Backtrack Backtrack.Rx List

/-- The contractions, in order: `'s`, `'t`, `'re`, `'ve`, `'m`, `'ll` and `'d`. -/
def contractions : List (Rx ℕ) :=
  [word 0x27 [0x73], word 0x27 [0x74], word 0x27 [0x72, 0x65], word 0x27 [0x76, 0x65],
    word 0x27 [0x6D], word 0x27 [0x6C, 0x6C], word 0x27 [0x64]]

/-- A run of a class, after at most one space. -/
def spaced (p : ℕ → Bool) : Rx ℕ := seq (opt (one (· == 0x20))) (plus p)

/-- The alternatives of the pattern, in order. -/
def gpt2 (u : UnicodeTables) : List (Rx ℕ) :=
  contractions ++ [spaced u.isLetter, spaced u.isNumber, spaced u.isOther,
    seq (plus u.isWhitespace) (notAhead fun c => !u.isWhitespace c), plus u.isWhitespace]

section Alternatives

variable {u : UnicodeTables} {p : ℕ → Bool} {rest : List ℕ}

theorem ite_or {q : Prop} [Decidable q] (n : ℕ) (o : Option ℕ) :
    (if q then some n else none).or o = if q then some n else o := by
  split <;> rfl

theorem matchLen_contractions (rest : List ℕ) :
    matchLen contractions rest =
      if contractionLen rest = 0 then none else some (contractionLen rest) := by
  have hnil : ∀ l : List ℕ, matchLen [] l = none := fun _ => rfl
  simp only [contractions, matchLen_cons, hnil, first_word, ite_or]
  rcases rest with _ | ⟨c, _ | ⟨next, l⟩⟩
  · rfl
  · simp [List.isPrefixOf, contractionLen]
  · by_cases hc : c = 0x27
    · subst hc
      by_cases hone : next = 0x73 ∨ next = 0x74 ∨ next = 0x6D ∨ next = 0x64
      · rcases hone with rfl | rfl | rfl | rfl <;> simp [List.isPrefixOf, contractionLen]
      · simp only [contractionLen, ne_eq, not_true_eq_false, if_false, if_neg hone]
        simp only [not_or] at hone
        obtain ⟨hs, ht, hm, hd⟩ := hone
        rcases l with _ | ⟨nextNext, l⟩
        · simp [List.isPrefixOf, Ne.symm hs, Ne.symm ht, Ne.symm hm, Ne.symm hd]
        · grind
    · simp [List.isPrefixOf, contractionLen, hc, Ne.symm hc]

theorem first_spaced (hp : p 0x20 = false) (rest : List ℕ) :
    (spaced p).first rest =
      let space := if rest.head? = some 0x20 then 1 else 0
      if (rest.drop space).head?.any p then some (space + ((rest.drop space).takeWhile p).length)
      else none := by
  by_cases hspace : rest.head? = some 0x20
  · obtain ⟨l, rfl⟩ : ∃ l, rest = 0x20 :: l := by
      cases rest with
      | nil => cases hspace
      | cons c l => exact ⟨l, by rw [Option.some.inj hspace]⟩
    exact first_opt_one_plus_cons rfl hp
  · have hnot : rest.head?.any (· == 0x20) = false := by
      cases rest with
      | nil => rfl
      | cons c l =>
        rw [head?_cons, Option.any_some, beq_eq_false_iff_ne]
        exact fun h => hspace (by rw [h]; rfl)
    simp only [if_neg hspace, drop_zero, Nat.zero_add]
    rw [spaced, first_opt_one_of_not hnot, first_plus]

/-- **A word of the splitter** is the match of the first alternative that has one, and one
character where none has. -/
theorem wordLen_eq (hspace : u.isWhitespace 0x20 = true) (hletter : u.isLetter 0x20 = false)
    (hnumber : u.isNumber 0x20 = false) (hne : rest ≠ []) (hrange : ∀ c ∈ rest, c ≠ outOfRange) :
    wordLen u rest = (matchLen (gpt2 u) rest).getD 1 := by
  have hother : u.isOther 0x20 = false := by simp [UnicodeTables.isOther, hspace]
  have hsplit : rest.takeWhile u.isWhitespace ++ rest.dropWhile u.isWhitespace = rest :=
    takeWhile_append_dropWhile
  have hdrop : rest.drop (rest.takeWhile u.isWhitespace).length = rest.dropWhile u.isWhitespace := by
    calc rest.drop (rest.takeWhile u.isWhitespace).length
        = (rest.takeWhile u.isWhitespace ++ rest.dropWhile u.isWhitespace).drop
            (rest.takeWhile u.isWhitespace).length := by rw [hsplit]
      _ = rest.dropWhile u.isWhitespace := drop_left
  unfold wordLen
  rw [gpt2, matchLen_append, matchLen_contractions]
  by_cases hcon : contractionLen rest = 0
  · rw [if_pos hcon, Option.none_or]
    simp only [matchLen_cons, ite_or,
      first_spaced hletter, first_spaced hnumber, first_spaced hother, hdrop,
      first_plus_notAhead (fun _ => rfl) hne, first_plus, hcon, ne_eq, not_true_eq_false, if_false]
    generalize (if rest.head? = some 0x20 then 1 else 0) = space
    by_cases hl : (rest.drop space).head?.any u.isLetter = true
    · simp only [if_pos hl, Option.getD_some]
    by_cases hn : (rest.drop space).head?.any u.isNumber = true
    · simp only [if_neg hl, if_pos hn, Option.getD_some]
    by_cases ho : (rest.drop space).head?.any u.isOther = true
    · simp only [if_neg hl, if_neg hn, if_pos ho, Option.getD_some]
    simp only [if_neg hl, if_neg hn, if_neg ho]
    have hhead : rest.head?.any u.isWhitespace = decide (0 < (rest.takeWhile u.isWhitespace).length) := by
      cases rest with
      | nil => rfl
      | cons c l => by_cases hc : u.isWhitespace c = true <;> simp [hc]
    rw [hhead, matchLen, findSome?_nil]
    have hlen := congrArg List.length hsplit
    rw [length_append] at hlen
    generalize (rest.takeWhile u.isWhitespace).length = n at *
    by_cases hrest : rest.dropWhile u.isWhitespace = []
    · -- the run of spaces is the end of the text
      have hpos : 0 < rest.length := length_pos_iff.mpr hne
      rw [hrest, length_nil] at hlen
      rw [if_pos hrest, hrest, headD_nil, if_neg (by simp), if_pos (by omega), Option.some_or,
        Option.getD_some]
      omega
    · obtain ⟨c, l, hc⟩ := exists_cons_of_ne_nil hrest
      have hin : c ∈ rest := hsplit ▸ mem_append_right _ (hc ▸ mem_cons_self)
      rw [if_neg hrest, hc, headD_cons]
      have hknown := hrange c hin
      by_cases hmany : 1 < n
      · rw [if_pos ⟨hmany, hknown⟩, if_pos hmany]
        rfl
      · rw [if_neg (fun h => hmany h.1), if_neg hmany]
        by_cases hsome : 0 < n
        · simp [hsome]
        · simp [hsome]
  · simp [hcon]

end Alternatives

/-! ### Whole texts -/

section Texts

variable {u : UnicodeTables} {cpts : List ℕ} {fuel : ℕ}

theorem decodeOne_le (b : UInt8) (l : Bytes) : (decodeOne b l).1 ≤ 0x10FFFF := by
  unfold decodeOne
  split
  · have := b.toNat_lt
    omega
  · split
    · decide
    · split
      · decide
      · split
        · decide
        · split
          · decide
          · dsimp only
            omega

theorem cptsLoop_le (fuel : ℕ) (l : Bytes) : ∀ c ∈ cptsLoop fuel l, c ≤ 0x10FFFF := by
  induction fuel generalizing l with
  | zero => cases l <;> simp [cptsLoop]
  | succ fuel ih =>
    cases l with
    | nil => simp [cptsLoop]
    | cons b l =>
      intro c hc
      rcases mem_cons.mp hc with rfl | hc
      · exact decodeOne_le b l
      · exact ih _ c hc

theorem encodeUtf8_ne_nil (c : ℕ) : encodeUtf8 c ≠ [] := by
  unfold encodeUtf8
  split_ifs <;> simp

theorem splitLoop_scan (hspace : u.isWhitespace 0x20 = true) (hletter : u.isLetter 0x20 = false)
    (hnumber : u.isNumber 0x20 = false) (hfuel : cpts.length ≤ fuel)
    (hchars : ∀ c ∈ cpts, c ≤ 0x10FFFF ∧ Utf8.Valid (encodeUtf8 c)) :
    ∃ words, Scan (gpt2 u) cpts words ∧
      (splitLoop u fuel cpts).map Str.bytes = words.map (·.flatMap encodeUtf8) ∧
      ∀ w ∈ words, w ≠ [] := by
  induction fuel generalizing cpts with
  | zero =>
    obtain rfl : cpts = [] := by simpa using hfuel
    exact ⟨[], Scan.nil, rfl, by simp⟩
  | succ fuel ih =>
    cases cpts with
    | nil => exact ⟨[], Scan.nil, rfl, by simp⟩
    | cons c l =>
      have hpos := wordLen_pos u (c :: l)
      have hlen := wordLen_eq hspace hletter hnumber (cons_ne_nil c l) fun d hd => by
        have := (hchars d hd).1
        unfold outOfRange
        omega
      have hword : Utf8.Valid (((c :: l).take (wordLen u (c :: l))).flatMap encodeUtf8) :=
        valid_flatMap fun d hd => (hchars d (mem_of_mem_take hd)).2
      obtain ⟨words, hscan, hmap, hne⟩ := @ih ((c :: l).drop (wordLen u (c :: l))) (by
        rw [length_drop]
        omega) fun d hd => hchars d (mem_of_mem_drop hd)
      refine ⟨(c :: l).take (wordLen u (c :: l)) :: words, ?_, ?_, ?_⟩
      · rw [hlen] at hscan ⊢
        exact Scan.cons _ _ (cons_ne_nil c l) hscan
      · simp only [splitLoop, map_cons]
        rw [hmap, Str.ofUtf8, dif_pos hword]
      · rintro w hw
        rcases mem_cons.mp hw with rfl | hw
        · rw [Ne, take_eq_nil_iff]
          simp only [cons_ne_nil, or_false]
          omega
        · exact hne w hw

end Texts

/-- **Every text** is split into the words of the pattern: they are what is matched at one place
after another, none is empty, and together they are the text. Of the tables it matters that a
space is a whitespace and neither a letter nor a number. -/
theorem splitGpt2_spec (u : UnicodeTables) (hspace : u.isWhitespace 0x20 = true)
    (hletter : u.isLetter 0x20 = false) (hnumber : u.isNumber 0x20 = false) (text : Str) :
    (∃ words, Scan (gpt2 u) (cptsFromStr text.bytes) words ∧
      (splitGpt2 u text.bytes).map Str.bytes = words.map (·.flatMap encodeUtf8)) ∧
    (∀ w ∈ splitGpt2 u text.bytes, w.bytes ≠ []) ∧
    (splitGpt2 u text.bytes).flatMap Str.bytes = text.bytes := by
  obtain ⟨-, hvalid⟩ := cptsLoop_spec le_rfl text.valid
  obtain ⟨words, hscan, hmap, hne⟩ := splitLoop_scan hspace hletter hnumber le_rfl fun c hc =>
    ⟨cptsLoop_le _ text.bytes c hc, hvalid c hc⟩
  refine ⟨⟨words, hscan, hmap⟩, ?_, splitGpt2_bytes text.valid⟩
  intro w hw hempty
  have hin : w.bytes ∈ words.map (·.flatMap encodeUtf8) := hmap ▸ mem_map_of_mem hw
  obtain ⟨v, hv, heq⟩ := mem_map.mp hin
  obtain ⟨c, l, rfl⟩ := exists_cons_of_ne_nil (hne v hv)
  rw [flatMap_cons, hempty, append_eq_nil_iff] at heq
  exact encodeUtf8_ne_nil c heq.1

/-- The tables, as far as ASCII goes. -/
def asciiTables : UnicodeTables where
  flagsOf c :=
    if c < 0x20 ∨ 0x7F ≤ c then 0x80
    else if c = 0x20 then 0x8
    else if 0x30 ≤ c ∧ c ≤ 0x39 then 0x2
    else if (0x41 ≤ c ∧ c ≤ 0x5A) ∨ (0x61 ≤ c ∧ c ≤ 0x7A) then 0x4
    else if c ∈ [0x24, 0x2B, 0x3C, 0x3D, 0x3E, 0x5E, 0x60, 0x7C, 0x7E] then 0x40
    else 0x20
  isWhitespace c := c = 0x20 ∨ (0x09 ≤ c ∧ c ≤ 0x0D)
  toLower c := if 0x41 ≤ c ∧ c ≤ 0x5A then c + 0x20 else c
  nfdBase c := c

/-- A contraction, two spaces and a number. -/
def asciiText : Str := Str.ofUtf8 (utf8 "don't stop  12!")

theorem splitGpt2_spec_ascii :
    (∃ words, Scan (gpt2 asciiTables) (cptsFromStr asciiText.bytes) words ∧
      (splitGpt2 asciiTables asciiText.bytes).map Str.bytes = words.map (·.flatMap encodeUtf8)) ∧
    (∀ w ∈ splitGpt2 asciiTables asciiText.bytes, w.bytes ≠ []) ∧
    (splitGpt2 asciiTables asciiText.bytes).flatMap Str.bytes = asciiText.bytes :=
  splitGpt2_spec asciiTables rfl rfl rfl asciiText

example : (splitGpt2 asciiTables asciiText.bytes).map Str.bytes =
    [utf8 "don", utf8 "'t", utf8 " stop", utf8 " ", utf8 " 12", utf8 "!"] := by
  decide

end R9v

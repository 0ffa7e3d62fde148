import R9v.Template.Tags

/-!
# White space control

The source of a template is cut into texts and tags (`segments`), and every text loses some of the
white space at its ends: `textRule` says what by the tags before and after it. The lexer looks at
the bytes before a text instead. It agrees with the rule up to the tags that are `hollow`: where
nothing stands between the dash of the opener and a closer, that dash counts for the closer too.
-/

namespace R9v.Template

open List

/-! ### Texts and tags of a source -/

/-- The text at the front and the tags, each with the text after it; with fuel for each tag. -/
def segments : ℕ → ℕ → ℕ → Bytes → Lexing (Bytes × List (Tag × Bytes))
  | fuel, pos, curly, rest =>
    let len := textEnd rest
    if (rest.drop len).isEmpty then pure (rest.take len, [])
    else
      match fuel with
      | 0 => (none : Option _)
      | fuel + 1 => do
        let (tag, curly) ← tagAt (pos + len) curly (rest.drop len)
        let (text, tags) ← segments fuel (pos + len + tag.raw.length) curly
          ((rest.drop len).drop tag.raw.length)
        pure (rest.take len, (tag, text) :: tags)

/-- Whether the lines of a tag lose their white space: a statement or a comment. -/
def Tag.isBlock (tag : Tag) : Bool := tag.kind ≠ .expr

/-- A text without the white space that it loses at its front to the tag before it. -/
def cutFront (before : Option Tag) (text : Bytes) : Bytes :=
  if before.any Tag.dashedClose then trimStart text
  else if before.any Tag.isBlock && text.head? = some 0x0A then text.tail
  else text

/-- A text without the white space that it loses at its end to the tag after it. -/
def cutBack (lineStarting : Bool) (after : Option Tag) (text : Bytes) : Bytes :=
  if after.any Tag.dashedOpen then trimEnd text
  else if after.any Tag.isBlock then lstripBlock lineStarting text
  else text

/-- **The rule of white space**, of a text between two tags. -/
def textRule (before : Option Tag) (text : Bytes) (after : Option Tag) : Bytes :=
  cutBack (before.isNone || text.head? = some 0x0A) after (cutFront before text)

/-- The token of a text, if it is not empty. -/
def textPart (text : Bytes) : List (TokenKind × Bytes) :=
  if text.isEmpty then [] else [(.text, text)]

def Token.part (token : Token) : TokenKind × Bytes := (token.kind, token.text)

/-- The kinds and the texts of the tokens, when the texts obey a rule. -/
def render (rule : Option Tag → Bytes → Option Tag → Bytes) :
    Option Tag → Bytes → List (Tag × Bytes) → List (TokenKind × Bytes)
  | before, text, [] => textPart (rule before text none)
  | before, text, (tag, next) :: tags =>
    textPart (rule before text (some tag)) ++ tag.tokens.map Token.part ++
      render rule (some tag) next tags

/-- Nothing stands between the dash of the opener and the closer. -/
def Tag.hollow (tag : Tag) : Bool :=
  tag.dashedOpen && !tag.dashedClose && tag.raw.length = 5

/-- A tag as the lexer takes it, at some text after it. -/
def Tag.taken (text : Bytes) (tag : Tag) : Tag :=
  if tag.hollow && !(tag.kind = .comment && text.head? = some 0x0A) then
    { tag with dashedClose := true }
  else tag

/-- The rule that the lexer follows. -/
def lexerRule (before : Option Tag) (text : Bytes) (after : Option Tag) : Bytes :=
  textRule (before.map (Tag.taken text)) text after

/-! ### White space -/

theorem newline_mem : [0x0A] ∈ whitespaceChars := by decide

abbrev Blank (l : Bytes) : Prop := Strip.Blank whitespaceChars l

section Lines

variable {x y z b u : Bytes} {ls : Bool}

theorem allWhitespace_eq : allWhitespace x = true ↔ Blank x := by
  rw [allWhitespace, List.isEmpty_iff]
  exact Strip.strip_eq_nil separable_whitespace.toPrefixFree

theorem trimStart_blank (hb : Blank b) (x : Bytes) : trimStart (b ++ x) = trimStart x :=
  separable_whitespace.toPrefixFree.strip_append hb x

theorem trimStart_split (x : Bytes) :
    ∃ b, Blank b ∧ x = b ++ trimStart x ∧ Strip.wordLen whitespaceChars (trimStart x) = 0 :=
  Strip.strip_spec separable_whitespace.ne_nil x

theorem trimStart_eq_self (h : Strip.wordLen whitespaceChars x = 0) : trimStart x = x :=
  separable_whitespace.toPrefixFree.strip_of_wordLen h

theorem not_blank (h : Strip.wordLen whitespaceChars u = 0) (hne : u ≠ []) : ¬Blank u := fun hb =>
  hne ((trimStart_eq_self h).symm.trans (separable_whitespace.toPrefixFree.strip_blank hb))

theorem blank_cut (hb : Blank (y ++ 0x0A :: z)) : Blank y ∧ Blank z := by
  obtain ⟨hy, hz⟩ := separable_whitespace.cut newline_mem rfl hb rfl rfl
  refine ⟨hy, allWhitespace_eq.mp ?_⟩
  rw [allWhitespace, ← trimStart_blank (.of_mem newline_mem)]
  exact allWhitespace_eq.mpr hz

theorem lastLineStart_of_notMem (h : 0x0A ∉ x) : lastLineStart x = 0 := by
  have hall : ∀ c ∈ x.reverse, decide (c ≠ 0x0A) = true := by
    intro c hc
    rw [decide_eq_true_eq]
    rintro rfl
    exact h (mem_reverse.mp hc)
  have htake := @takeWhile_append_of_pos _ _ _ [] hall
  rw [append_nil, takeWhile_nil, append_nil] at htake
  rw [lastLineStart, htake, length_reverse, Nat.sub_self]

theorem lastLineStart_append (h : 0x0A ∉ z) : lastLineStart (y ++ 0x0A :: z) = y.length + 1 := by
  have hall : ∀ c ∈ z.reverse, decide (c ≠ 0x0A) = true := by
    intro c hc
    rw [decide_eq_true_eq]
    rintro rfl
    exact h (mem_reverse.mp hc)
  have hlast : (y ++ 0x0A :: z).reverse.takeWhile (· ≠ 0x0A) = z.reverse := by
    rw [reverse_append, reverse_cons, append_assoc,
      takeWhile_append_of_pos hall]
    simp
  rw [lastLineStart, hlast]
  simp
  omega

theorem lstripBlock_of_notMem (h : 0x0A ∉ x) :
    lstripBlock ls x = if ls = true ∧ trimStart x = [] then [] else x := by
  rw [lstripBlock, lastLineStart_of_notMem h]
  cases ls <;> cases x <;> simp [allWhitespace]

theorem lstripBlock_append (h : 0x0A ∉ z) :
    lstripBlock ls (y ++ 0x0A :: z) = if trimStart z = [] then y ++ [0x0A] else y ++ 0x0A :: z := by
  have htake : (y ++ 0x0A :: z).take (y.length + 1) = y ++ [0x0A] := by
    rw [append_cons, take_left' (by simp)]
  have hdrop : (y ++ 0x0A :: z).drop (y.length + 1) = z := by
    rw [append_cons, drop_left' (by simp)]
  rw [lstripBlock, lastLineStart_append h, htake, hdrop]
  cases z <;> simp [allWhitespace]

theorem lines_cases (x : Bytes) : 0x0A ∉ x ∨ ∃ y z, x = y ++ 0x0A :: z ∧ 0x0A ∉ z := by
  by_cases h : 0x0A ∈ x
  · obtain ⟨u, v, hrev, hu⟩ := eq_append_cons_of_mem (mem_reverse.mpr h)
    refine .inr ⟨v.reverse, u.reverse, ?_, fun hno => hu (mem_reverse.mp hno)⟩
    rw [← reverse_reverse x, hrev]
    simp
  · exact .inl h

theorem lstripBlock_of_mem (h : 0x0A ∈ x) : lstripBlock ls x = lstripBlock false x := by
  rcases lines_cases x with hno | ⟨y, z, rfl, hz⟩
  · exact absurd h hno
  · rw [lstripBlock_append hz, lstripBlock_append hz]

theorem lstripBlock_nil : lstripBlock ls [] = [] := by
  rw [lstripBlock_of_notMem not_mem_nil, ite_self]

theorem trimStart_eq_nil : trimStart x = [] ↔ Blank x :=
  Strip.strip_eq_nil separable_whitespace.toPrefixFree

/-- Where a text does not start with white space, it does not matter where it starts. -/
theorem lstripBlock_of_wordLen (h : Strip.wordLen whitespaceChars x = 0) :
    lstripBlock ls x = lstripBlock false x := by
  rcases lines_cases x with hno | ⟨y, z, rfl, hz⟩
  · rw [lstripBlock_of_notMem hno, lstripBlock_of_notMem hno, trimStart_eq_self h]
    split_ifs with h1 h2 h2
    · rfl
    · exact h1.2.symm
    · exact h2.2
    · rfl
  · rw [lstripBlock_append hz, lstripBlock_append hz]

theorem trimEnd_lstripBlock : trimEnd (lstripBlock ls x) = trimEnd x := by
  rcases lines_cases x with hno | ⟨y, z, rfl, hz⟩
  · rw [lstripBlock_of_notMem hno]
    split_ifs with hblank
    · exact (suffixFree_whitespace.stripEnd_blank (trimStart_eq_nil.mp hblank.2)).symm
    · rfl
  · rw [lstripBlock_append hz]
    split_ifs with hblank
    · rw [append_cons y 0x0A z]
      exact (suffixFree_whitespace.stripEnd_append (trimStart_eq_nil.mp hblank) _).symm
    · rfl

theorem lstripBlock_cons (x : Bytes) : lstripBlock false (0x0A :: x) =
    0x0A :: lstripBlock true x := by
  rcases lines_cases x with hno | ⟨y, z, rfl, hz⟩
  · have h := @lstripBlock_append [] x false hno
    rw [nil_append, nil_append] at h
    rw [h, lstripBlock_of_notMem hno]
    split_ifs with h1 h2 h2
    · rfl
    · exact absurd ⟨rfl, h1⟩ h2
    · exact absurd h2.2 h1
    · rfl
  · rw [← cons_append, lstripBlock_append hz, lstripBlock_append hz]
    split_ifs <;> rfl

theorem trimStart_lstripBlock : trimStart (lstripBlock false x) = lstripBlock ls (trimStart x) := by
  obtain ⟨b, hb, hx, hu⟩ := trimStart_split x
  generalize trimStart x = u at *
  subst hx
  by_cases hnil : u = []
  · -- nothing is left
    subst hnil
    rw [append_nil, lstripBlock_nil, trimStart_eq_nil]
    rcases lines_cases b with hno | ⟨y, z, rfl, hz⟩
    · rw [lstripBlock_of_notMem hno, if_neg (by simp)]
      exact hb
    · rw [lstripBlock_append hz]
      split_ifs
      · exact (blank_cut hb).1.concat (.of_mem newline_mem)
      · exact hb
  have hkeep := not_blank hu hnil
  rcases lines_cases u with hno | ⟨y, z, rfl, hz⟩
  · have hself : lstripBlock ls u = u := by
      rw [lstripBlock_of_notMem hno, if_neg fun h => hkeep (trimStart_eq_nil.mp h.2)]
    rw [hself]
    have hsame : lstripBlock false (b ++ u) = b ++ u := by
      rcases lines_cases b with hbno | ⟨y, z, rfl, hz⟩
      · rw [lstripBlock_of_notMem (by simp [hbno, hno]), if_neg (by simp)]
      · -- the last line ends with what is not blank
        rw [append_assoc, cons_append, lstripBlock_append (by simp [hz, hno]), if_neg]
        rw [trimStart_blank (blank_cut hb).2, trimStart_eq_self hu]
        exact hnil
    rw [hsame, trimStart_blank hb, trimStart_eq_self hu]
  · rw [← append_assoc, lstripBlock_append hz, lstripBlock_append hz]
    split_ifs
    · rw [append_assoc, trimStart_blank hb]
      refine trimStart_eq_self (Strip.wordLen_of_prefix separable_whitespace.ne_nil hu ⟨z, ?_⟩)
      simp
    · rw [append_assoc, trimStart_blank hb, trimStart_eq_self hu]

end Lines

/-! ### The bytes before a text -/

section Bytes

variable {tag : Tag} {before : Bytes}

theorem head?_of_closed (h : tag.WellClosed) : (tag.raw.reverse ++ before).head? = some 0x7D := by
  obtain ⟨body, hraw, -⟩ := h
  rw [hraw]
  simp

theorem followsBlockClose_eq (h : tag.WellClosed) :
    followsBlockClose (tag.raw.reverse ++ before) = tag.isBlock := by
  obtain ⟨body, hraw, -⟩ := h
  rw [hraw, Tag.isBlock]
  cases tag.kind <;> simp [followsBlockClose, TagKind.mark]

theorem followsDashClose_eq (h : tag.WellClosed) :
    followsDashClose (tag.raw.reverse ++ before) = (tag.dashedClose || tag.hollow) := by
  obtain ⟨body, hraw, hbody⟩ := h
  have hmark : (tag.kind.mark = 0x25 ∨ tag.kind.mark = 0x7D) ∨ tag.kind.mark = 0x23 := by
    cases tag.kind <;> simp [TagKind.mark]
  rw [Tag.hollow, hraw]
  cases hclose : tag.dashedClose with
  | true => simp [followsDashClose, dash, hmark]
  | false =>
    rcases eq_nil_or_concat body with rfl | ⟨w, c, rfl⟩
    · cases tag.dashedOpen <;> cases hkind : tag.kind <;>
        simp [followsDashClose, dash, TagKind.opener, TagKind.mark]
    · have hc : c ≠ 0x2D := by simpa using hbody hclose
      have hlen : tag.kind.opener.length = 2 := by cases tag.kind <;> rfl
      cases tag.dashedOpen with
      | false => simp [followsDashClose, dash, hc]
      | true =>
        simp [followsDashClose, dash, hc, hlen]
        omega

/-- The bytes that stand before a text, the last one first. -/
structure Before (tag : Option Tag) (before : Bytes) : Prop where
  starts : (before.isEmpty || before.head? = some 0x0A) = tag.isNone
  block : followsBlockClose before = tag.any Tag.isBlock
  dash : followsDashClose before = tag.any fun tag => tag.dashedClose || tag.hollow

theorem Before.none : Before none [] := ⟨rfl, rfl, rfl⟩

theorem Before.some (h : tag.WellClosed) : Before (some tag) (tag.raw.reverse ++ before) := by
  refine ⟨?_, followsBlockClose_eq h, followsDashClose_eq h⟩
  have hhead := @head?_of_closed _ before h
  cases hlist : tag.raw.reverse ++ before with
  | nil => simp [hlist] at hhead
  | cons b l =>
    rw [hlist] at hhead
    simp [Option.some.inj hhead]

theorem opens_unique {kind kind' : TagKind} {rest : Bytes} (h : opens kind rest = true)
    (h' : opens kind' rest = true) : kind = kind' := by
  rw [opens, List.isPrefixOf_iff_prefix] at h h'
  have hlen : kind.opener.length = kind'.opener.length := by cases kind <;> cases kind' <;> rfl
  have heq := prefix_of_prefix_length_le h h' hlen.le
  have := heq.eq_of_length hlen
  revert this
  cases kind <;> cases kind' <;> decide

theorem Tag.At.isBlock_eq {rest : Bytes} (h : tag.At rest) :
    (opens .stmt rest || opens .comment rest) = tag.isBlock := by
  have hopens := h.opens_kind
  rw [Tag.isBlock, Bool.eq_iff_iff, Bool.or_eq_true_iff, decide_eq_true_eq]
  constructor
  · rintro (hopen | hopen) hkind
    · cases (opens_unique hopen hopens).trans hkind
    · cases (opens_unique hopen hopens).trans hkind
  · intro hkind
    cases hk : tag.kind with
    | comment => exact .inr (hk ▸ hopens)
    | expr => exact absurd hk hkind
    | stmt => exact .inl (hk ▸ hopens)

end Bytes

/-! ### One text -/

section Text

variable {before : Option Tag} {bytes text after : Bytes} {tag : Option Tag}

/-- The text of a token, with what a tag with a dash after it takes away. -/
def lexedText (bytes text after : Bytes) (tag : Option Tag) : Bytes :=
  if tag.any Tag.dashedOpen then trimEnd (textToken bytes text after) else textToken bytes text
    after

theorem cutFront_lstripBlock : cutFront before (lstripBlock before.isNone text) =
    lstripBlock (before.isNone || text.head? = some 0x0A) (cutFront before text) := by
  rcases before with _ | before
  · simp [cutFront]
  rw [cutFront, cutFront]
  simp only [Option.any_some, Option.isNone_some, Bool.false_or]
  by_cases hdash : before.dashedClose = true
  · rw [if_pos hdash, if_pos hdash, trimStart_lstripBlock]
  rw [if_neg hdash, if_neg hdash]
  by_cases hhead : text.head? = some 0x0A
  · obtain ⟨rest, rfl⟩ := head?_eq_some_iff.mp hhead
    by_cases hblock : before.isBlock = true
    · simp [lstripBlock_cons, hblock]
    · simp [@lstripBlock_of_mem (0x0A :: rest) true (by simp), hblock]
  · have hstripped : (lstripBlock false text).head? ≠ some 0x0A := by
      rcases lines_cases text with hno | ⟨y, z, rfl, hz⟩
      · rw [lstripBlock_of_notMem hno, if_neg (by simp)]
        exact hhead
      · rw [lstripBlock_append hz]
        split_ifs
        · cases y with
          | nil => exact hhead
          | cons => exact hhead
        · exact hhead
    simp [hhead, hstripped]

theorem isBlock_taken {tag : Tag} : (tag.taken text).isBlock = tag.isBlock := by
  rw [Tag.taken]
  split_ifs <;> rfl

theorem dashedClose_taken {tag : Tag} (hline : tag.kind = .comment → tag.dashedClose = false →
    text.head? ≠ some 0x0A) :
    (tag.taken text).dashedClose = (tag.dashedClose || tag.hollow) := by
  rw [Tag.taken]
  cases hclose : tag.dashedClose with
  | true => split_ifs <;> simp [hclose]
  | false =>
    by_cases hkind : tag.kind = .comment
    · cases hhollow : tag.hollow <;> simp [hkind, hline hkind hclose, hclose]
    · cases hhollow : tag.hollow <;> simp [hkind, hclose]

theorem front_eq (hbytes : Before before bytes)
    (hline : ∀ comment ∈ before, comment.kind = .comment → comment.dashedClose = false →
      text.head? ≠ some 0x0A) (x : Bytes) :
    (if followsDashClose bytes then
        trimStart (if followsBlockClose bytes && x.head? = some 0x0A then x.tail else x)
      else if followsBlockClose bytes && x.head? = some 0x0A then x.tail else x) =
      cutFront (before.map (Tag.taken text)) x := by
  rw [hbytes.block, hbytes.dash, cutFront]
  rcases before with _ | tag
  · simp
  simp only [Option.any_some, Option.map_some, isBlock_taken,
    dashedClose_taken (hline tag rfl)]
  split_ifs with hdash hhead
  · obtain ⟨rest, rfl⟩ := head?_eq_some_iff.mp
      (of_decide_eq_true (Bool.and_eq_true_iff.mp hhead).2)
    exact (trimStart_blank (.of_mem newline_mem) rest).symm
  · rfl
  · rfl
  · rfl

theorem lexedText_eq (hbytes : Before before bytes)
    (hblock : (opens .stmt after || opens .comment after) = tag.any Tag.isBlock)
    (hline : ∀ comment ∈ before, comment.kind = .comment → comment.dashedClose = false →
      text.head? ≠ some 0x0A) :
    lexedText bytes text after tag = lexerRule before text tag := by
  rw [lexedText, textToken, lexerRule, textRule, cutBack]
  simp only [front_eq hbytes hline, hblock, hbytes.starts]
  have hcut := @cutFront_lstripBlock (before.map (Tag.taken text)) text
  rw [Option.isNone_map] at hcut
  rw [Option.isNone_map]
  cases tag.any Tag.isBlock with
  | true =>
    simp only [if_true]
    rw [hcut, trimEnd_lstripBlock]
  | false => simp only [Bool.false_eq_true, if_false]

end Text

/-! ### The end of a text -/

section TextLen

variable {l b : Bytes} {n m : ℕ}

theorem one_le_utf8LenAt (b : UInt8) : 1 ≤ utf8LenAt b := by
  rw [utf8LenAt]
  split_ifs <;> omega

theorem textLen_congr (hn : l.length ≤ n) (hm : l.length ≤ m) : textLen n l = textLen m l := by
  induction n generalizing l m with
  | zero =>
    obtain rfl := length_eq_zero_iff.mp (Nat.le_zero.mp hn)
    cases m <;> rfl
  | succ n ih =>
    rcases l with _ | ⟨a, l⟩
    · cases m <;> rfl
    obtain ⟨m, rfl⟩ : ∃ k, m = k + 1 := ⟨m - 1, by simp at hm; omega⟩
    have hpos := one_le_utf8LenAt a
    have hlen : ((a :: l).drop (utf8LenAt a)).length ≤ l.length := by
      rw [length_drop, length_cons]
      omega
    rw [length_cons] at hn hm
    rw [textLen, textLen, ih (by omega) (by omega : _ ≤ m)]

theorem opensTag_cons {a : UInt8} (ha : a ≠ 0x7B) : opensTag (a :: l) = false := by
  simp [opensTag, opens, TagKind.opener, List.isPrefixOf, ha.symm]

theorem textEnd_cons {a : UInt8} (h : opensTag (a :: l) = false) :
    textEnd (a :: l) = utf8LenAt a + textEnd ((a :: l).drop (utf8LenAt a)) := by
  have hpos := one_le_utf8LenAt a
  have hlen : ((a :: l).drop (utf8LenAt a)).length ≤ l.length := by
    rw [length_drop, length_cons]
    omega
  rw [textEnd, length_cons, textLen, if_neg (by simp [h]), textLen_congr hlen le_rfl]
  rfl

theorem textEnd_blank (hb : Blank b) (l : Bytes) : textEnd (b ++ l) = b.length + textEnd l := by
  have hwords : ∀ c ∈ whitespaceChars, c.head? ≠ none ∧ c.head? ≠ some 0x7B ∧
      utf8LenAt (c.headD 0) = c.length := by decide
  induction hb with
  | nil => simp
  | @append c b hc _ ih =>
    obtain ⟨hne, hopen, hlen⟩ := hwords c hc
    cases c with
    | nil => exact absurd rfl hne
    | cons a c =>
      have ha : a ≠ 0x7B := fun h => hopen (congrArg some h)
      have hdrop : (a :: c ++ b ++ l).drop (utf8LenAt a) = b ++ l := by
        rw [append_assoc]
        exact drop_left' hlen.symm
      rw [cons_append, cons_append, textEnd_cons (opensTag_cons ha), ← cons_append,
        ← cons_append, hdrop, ih, length_append, ← hlen, headD_cons, Nat.add_assoc]

theorem opensTag_drop (h : l.drop (textEnd l) ≠ []) : opensTag (l.drop (textEnd l)) = true := by
  have hmain : ∀ n (l : Bytes), l.length ≤ n → l.drop (textEnd l) ≠ [] →
      opensTag (l.drop (textEnd l)) = true := by
    intro n
    induction n with
    | zero =>
      intro l hl h
      rw [length_eq_zero_iff.mp (Nat.le_zero.mp hl)] at h
      exact absurd rfl h
    | succ n ih =>
      intro l hl h
      rcases l with _ | ⟨a, l⟩
      · exact absurd rfl h
      by_cases hopen : opensTag (a :: l) = true
      · have hzero : textEnd (a :: l) = 0 := by
          rw [textEnd, length_cons, textLen, if_pos hopen]
        rwa [hzero]
      · have hpos := one_le_utf8LenAt a
        rw [textEnd_cons (Bool.not_eq_true _ ▸ hopen), ← drop_drop] at h ⊢
        refine ih _ ?_ h
        rw [length_drop]
        omega
  exact hmain _ l le_rfl h

theorem textEnd_eq_zero (h : opensTag l = true) : textEnd l = 0 := by
  cases l with
  | nil => rfl
  | cons a l => rw [textEnd, length_cons, textLen, if_pos h]

end TextLen

/-! ### Texts after comments -/

/-- The number of bytes that the lexer skips after a tag. -/
def skipLen (tag : Tag) (rest : Bytes) : ℕ :=
  if tag.kind = .comment then
    if tag.dashedClose then rest.length - (trimStart rest).length
    else if rest.head? = some 0x0A then 1 else 0
  else 0

section Comment

variable {tag : Tag} {rest b chunk : Bytes} {next : Option Tag}

theorem textToken_nil (bytes after : Bytes) : textToken bytes [] after = [] := by
  have htrim : trimStart [] = [] := rfl
  rw [textToken, lstripBlock_nil]
  simp [htrim]

theorem skip_blank (tag : Tag) (rest : Bytes) : Blank (rest.take (skipLen tag rest)) ∧
    textEnd rest = skipLen tag rest + textEnd (rest.drop (skipLen tag rest)) := by
  have hsplit : ∃ b l, Blank b ∧ rest = b ++ l ∧ skipLen tag rest = b.length := by
    rw [skipLen]
    split_ifs with hkind hdash hhead
    · obtain ⟨b, hb, heq, -⟩ := trimStart_split rest
      refine ⟨b, _, hb, heq, ?_⟩
      nth_rewrite 1 [heq]
      rw [length_append, Nat.add_sub_cancel]
    · obtain ⟨l, rfl⟩ := head?_eq_some_iff.mp hhead
      exact ⟨[0x0A], l, .of_mem newline_mem, rfl, rfl⟩
    · exact ⟨[], rest, .nil, rfl, rfl⟩
    · exact ⟨[], rest, .nil, rfl, rfl⟩
  obtain ⟨b, l, hb, heq, hlen⟩ := hsplit
  rw [hlen, heq, take_left, drop_left]
  exact ⟨hb, textEnd_blank hb l⟩

theorem take_textEnd (tag : Tag) (rest : Bytes) :
    rest.take (textEnd rest) = rest.take (skipLen tag rest) ++
      (rest.drop (skipLen tag rest)).take (textEnd (rest.drop (skipLen tag rest))) := by
  rw [(skip_blank tag rest).2, take_add]

theorem follows_blank {older : Bytes} (hb : Blank b) (hne : b ≠ []) :
    followsBlockClose (b.reverse ++ older) = false ∧ followsDashClose (b.reverse ++ older) =
      false := by
  have hlast : b.getLast? ≠ some 0x7D := by
    have hwords : ∀ c ∈ whitespaceChars, c ≠ [] ∧ c.getLast? ≠ some 0x7D := by decide
    induction hb with
    | nil => exact absurd rfl hne
    | @append c b hc _ ih =>
      refine getLast?_append_ne (fun _ => (hwords c hc).2) fun hno => ?_
      refine ih (fun hnil => ?_) hno
      rw [hnil] at hno
      cases hno
  obtain ⟨w, c, rfl⟩ : ∃ w c, b = w ++ [c] :=
    ⟨b.dropLast, b.getLast hne, (dropLast_append_getLast hne).symm⟩
  have hc : c ≠ 0x7D := by simpa using hlast
  rw [reverse_append, reverse_singleton, singleton_append, cons_append]
  constructor
  · rcases w.reverse ++ older with _ | ⟨d, l⟩
    · rfl
    · simp [followsBlockClose, hc]
  · rcases w.reverse ++ older with _ | ⟨d, _ | ⟨e, l⟩⟩
    · rfl
    · rfl
    · simp [followsDashClose, hc]

theorem wordLen_lstripBlock {ls : Bool} (h : Strip.wordLen whitespaceChars chunk = 0) :
    Strip.wordLen whitespaceChars (lstripBlock ls chunk) = 0 := by
  refine Strip.wordLen_of_prefix separable_whitespace.ne_nil h ?_
  rw [lstripBlock]
  split_ifs
  · exact take_prefix _ _
  · exact prefix_refl _

/-- A text that does not start with white space keeps its front. -/
theorem textToken_of_wordLen {bytes after : Bytes}
    (h : Strip.wordLen whitespaceChars chunk = 0) : textToken bytes chunk after =
      if opens .stmt after || opens .comment after then lstripBlock false chunk else chunk := by
  have hkeep : ∀ x : Bytes, Strip.wordLen whitespaceChars x = 0 →
      (if followsDashClose bytes then
          trimStart (if followsBlockClose bytes && x.head? = some 0x0A then x.tail else x)
        else if followsBlockClose bytes && x.head? = some 0x0A then x.tail else x) = x := by
    intro x hx
    have hhead : x.head? ≠ some 0x0A := by
      intro hno
      obtain ⟨l, rfl⟩ := head?_eq_some_iff.mp hno
      exact (Strip.wordLen_eq_zero separable_whitespace.ne_nil).mp hx _ newline_mem ⟨l, rfl⟩
    simp [hhead, trimStart_eq_self hx]
  rw [textToken]
  by_cases hblock : (opens .stmt after || opens .comment after) = true
  · simp only [if_pos hblock, lstripBlock_of_wordLen h]
    exact hkeep _ (wordLen_lstripBlock h)
  · simp only [if_neg hblock]
    exact hkeep _ h

/-- **The text after a tag** obeys the rule, whether the lexer skips its front or not. -/
theorem skipped_text (htag : tag.WellClosed) (older : Bytes) {after : Bytes}
    (hblock : (opens .stmt after || opens .comment after) = next.any Tag.isBlock) :
    lexedText ((rest.take (skipLen tag rest)).reverse ++ (tag.raw.reverse ++ older))
        ((rest.drop (skipLen tag rest)).take (textEnd (rest.drop (skipLen tag rest)))) after next =
      lexerRule (some tag) (rest.take (textEnd rest)) next := by
  have hblank := (skip_blank tag rest).1
  have htext := take_textEnd tag rest
  have hstay (hskip : skipLen tag rest = 0) (hline : tag.kind = .comment → tag.dashedClose = false →
      rest.head? ≠ some 0x0A) : lexedText ((rest.take (skipLen tag rest)).reverse ++
        (tag.raw.reverse ++ older)) ((rest.drop (skipLen tag rest)).take
          (textEnd (rest.drop (skipLen tag rest)))) after next =
      lexerRule (some tag) (rest.take (textEnd rest)) next := by
    rw [hskip]
    refine lexedText_eq (.some htag) hblock ?_
    rintro comment ⟨⟩ hkind hdash hhead
    refine hline hkind hdash ?_
    rw [head?_take] at hhead
    split_ifs at hhead
    exact hhead
  by_cases hkind : tag.kind = .comment
  swap
  · exact hstay (if_neg hkind) fun h => absurd h hkind
  by_cases hdash : tag.dashedClose = true
  · -- the text after the white space is what is left of it
    have hdrop : rest.drop (skipLen tag rest) = trimStart rest := by
      obtain ⟨b, -, heq, -⟩ := trimStart_split rest
      rw [skipLen, if_pos hkind, if_pos hdash]
      generalize trimStart rest = u at *
      subst heq
      rw [length_append, Nat.add_sub_cancel, drop_left]
    have hword : Strip.wordLen whitespaceChars ((rest.drop (skipLen tag rest)).take
        (textEnd (rest.drop (skipLen tag rest)))) = 0 := by
      refine Strip.wordLen_of_prefix separable_whitespace.ne_nil ?_ (List.take_prefix _ _)
      rw [hdrop]
      obtain ⟨-, -, -, hzero⟩ := trimStart_split rest
      exact hzero
    have htaken : tag.taken (rest.take (textEnd rest)) = tag := by
      rw [Tag.taken, if_neg]
      simp [Tag.hollow, hdash]
    rw [lexedText, textToken_of_wordLen hword, lexerRule, Option.map_some, htaken, textRule,
      cutFront,
      Option.any_some, if_pos hdash, htext, trimStart_blank hblank, trimStart_eq_self hword,
        cutBack, hblock]
    cases next.any Tag.isBlock with
    | true =>
      simp only [if_true, trimEnd_lstripBlock]
      split_ifs
      · rfl
      · exact (lstripBlock_of_wordLen hword).symm
    | false => simp only [Bool.false_eq_true, if_false]
  by_cases hhead : rest.head? = some 0x0A
  · obtain ⟨l, rfl⟩ := head?_eq_some_iff.mp hhead
    have hskip : skipLen tag (0x0A :: l) = 1 := by
      simp [skipLen, hkind, hdash]
    rw [hskip] at htext ⊢
    obtain ⟨hclose, hdashed⟩ := @follows_blank [0x0A] (tag.raw.reverse ++ older)
      (.of_mem newline_mem) (by simp)
    rw [htext]
    change lexedText ([0x0A].reverse ++ (tag.raw.reverse ++ older))
        (l.take (textEnd l)) after next =
      lexerRule (some tag) (0x0A :: l.take (textEnd l)) next
    have htaken : tag.taken (0x0A :: l.take (textEnd l)) = tag := by
      rw [Tag.taken, if_neg]
      simp [hkind]
    rw [lexedText, textToken, hclose, hdashed, hblock, lexerRule, Option.map_some, htaken, textRule,
      cutFront, cutBack]
    have hisBlock : tag.isBlock = true := by simp [Tag.isBlock, hkind]
    cases next.any Tag.isBlock with
    | true => simp [hdash, hisBlock, trimEnd_lstripBlock]
    | false => simp [hdash, hisBlock]
  · refine hstay ?_ fun _ _ => hhead
    simp [skipLen, hdash, hhead]

end Comment

/-! ### A run of the lexer -/

section Run

variable {source : Bytes} {n m pos curly : ℕ} {tokens out : List Token}

/-- The tokens of a text: none if it is empty. -/
def textTokens (pos : ℕ) (text : Bytes) : List Token :=
  if text.isEmpty then [] else [⟨.text, text, pos⟩]

theorem textTokens_part (pos : ℕ) (text : Bytes) :
    (textTokens pos text).map Token.part = textPart text := by
  rw [textTokens, textPart]
  split_ifs <;> rfl

theorem lexLoop_nil (h : source.drop pos = []) : lexLoop source n pos curly tokens =
    pure tokens := by
  rw [lexLoop.eq_def]
  exact if_pos (isEmpty_iff.mpr h)

theorem lexLoop_zero (h : source.drop pos ≠ []) : lexLoop source 0 pos curly tokens = none := by
  exact if_neg fun hnil => h (isEmpty_iff.mp hnil)

theorem lexLoop_text (h : lexLoop source n pos curly tokens = some (.ok out)) :
    ∃ k ≤ n, lexLoop source k (pos + textEnd (source.drop pos)) curly
      (tokens ++ textTokens pos (textToken (source.take pos).reverse
        ((source.drop pos).take (textEnd (source.drop pos)))
        ((source.drop pos).drop (textEnd (source.drop pos))))) = some (.ok out) := by
  have hstay (hzero : textEnd (source.drop pos) = 0) : ∃ k ≤ n,
      lexLoop source k (pos + textEnd (source.drop pos)) curly
        (tokens ++ textTokens pos (textToken (source.take pos).reverse
          ((source.drop pos).take (textEnd (source.drop pos)))
          ((source.drop pos).drop (textEnd (source.drop pos))))) = some (.ok out) := by
    refine ⟨n, le_rfl, ?_⟩
    rw [hzero, take_zero, textToken_nil]
    rwa [textTokens, isEmpty_nil, if_pos rfl, append_nil]
  by_cases hnil : source.drop pos = []
  · exact hstay (by rw [hnil]; rfl)
  by_cases hopen : opensTag (source.drop pos) = true
  · exact hstay (textEnd_eq_zero hopen)
  cases n with
  | zero =>
    rw [lexLoop_zero hnil] at h
    cases h
  | succ n =>
    refine ⟨n, Nat.le_succ n, ?_⟩
    rw [opensTag, Bool.not_eq_true, Bool.or_eq_false_iff, Bool.or_eq_false_iff] at hopen
    obtain ⟨⟨hcomment, hexpr⟩, hstmt⟩ := hopen
    rw [lexLoop.eq_def] at h
    simp only [List.isEmpty_iff, if_neg hnil, hcomment, hexpr, hstmt, Bool.false_eq_true,
      if_false] at h
    generalize textToken _ _ _ = text at h ⊢
    cases text with
    | nil => rwa [textTokens, List.isEmpty_nil, if_pos rfl, List.append_nil]
    | cons b l => rwa [if_neg (List.cons_ne_nil b l)] at h

theorem lexLoop_braced {isExpr : Bool} {depth : ℕ} {r : List Token × ℕ × ℕ}
    (htag : lexTag isExpr ((source.drop pos).length + 1)
      (pos + if dashedOpener (source.drop pos) then 3 else 2) depth
      (some (if isExpr then .openExpr else .openStmt))
      ((source.drop pos).drop (if dashedOpener (source.drop pos) then 3 else 2)) = some (.ok r))
    (h : lexLoop source n r.2.1 r.2.2
      ((if dashedOpener (source.drop pos) then rstripText tokens else tokens) ++
        [⟨if isExpr then .openExpr else .openStmt, [], pos⟩] ++ r.1) = some (.ok out)) :
    ∃ tag curly', bracedTag isExpr pos depth (source.drop pos) = some (.ok (tag, curly')) ∧
      lexLoop source n (pos + tag.raw.length + skipLen tag ((source.drop pos).drop tag.raw.length))
        curly' ((if tag.dashedOpen then rstripText tokens else tokens) ++ tag.tokens) =
          some (.ok out) := by
  obtain ⟨hstart, hstop⟩ := lexTag_le htag
  refine ⟨_, _, Lexing.bind_ok.mpr ⟨r, htag, rfl⟩, ?_⟩
  have hskip : ∀ raw l dashed tokens rest, skipLen ⟨if isExpr then .expr else .stmt, raw, l, dashed,
      tokens⟩ rest = 0 := by
    intro raw l dashed tokens rest
    refine if_neg ?_
    cases isExpr <;> simp
  have hlen : pos + ((source.drop pos).take (r.2.1 - pos)).length = r.2.1 := by
    rw [length_drop] at hstop
    rw [length_take]
    split_ifs at hstart hstop <;> omega
  rw [hskip]
  rw [hlen, Nat.add_zero, ← singleton_append, ← append_assoc]
  exact h

theorem lexLoop_tag (hopen : opensTag (source.drop pos) = true)
    (h : lexLoop source n pos curly tokens = some (.ok out)) :
    ∃ k tag curly', n = k + 1 ∧ tagAt pos curly (source.drop pos) = some (.ok (tag, curly')) ∧
      lexLoop source k (pos + tag.raw.length + skipLen tag ((source.drop pos).drop tag.raw.length))
        curly' ((if tag.dashedOpen then rstripText tokens else tokens) ++ tag.tokens) =
          some (.ok out) := by
  have hnil : source.drop pos ≠ [] := by
    intro hnil
    rw [hnil] at hopen
    cases hopen
  cases n with
  | zero =>
    rw [lexLoop_zero hnil] at h
    cases h
  | succ n =>
    rw [lexLoop.eq_def] at h
    simp only [List.isEmpty_iff, if_neg hnil] at h
    rw [tagAt]
    by_cases hcomment : opens .comment (source.drop pos) = true
    · rw [if_pos hcomment] at h ⊢
      cases hend : commentEnd 0 none ((source.drop pos).drop
          (if dashedOpener (source.drop pos) then 3 else 2)) with
      | none =>
        rw [hend] at h
        exact absurd h Lexing.throw_ok
      | some r =>
        obtain ⟨len, dashed⟩ := r
        have hle := commentEnd_le hend
        rw [hend] at h
        refine ⟨n, ⟨.comment,
          (source.drop pos).take ((if dashedOpener (source.drop pos) then 3 else 2) +
          len + if dashed then 3 else 2), dashedOpener (source.drop pos), dashed, _⟩, curly, rfl,
          by simp only [hend]; rfl, ?_⟩
        have hlen : ((source.drop pos).take ((if dashedOpener (source.drop pos) then 3 else 2) +
            len + if dashed then 3 else 2)).length =
              (if dashedOpener (source.drop pos) then 3 else 2) + len + if dashed then 3 else 2 :=
                by
          rw [List.length_drop] at hle
          rw [List.length_take]
          split_ifs at hle ⊢ <;> omega
        rw [hlen]
        exact h
    rw [if_neg hcomment] at h ⊢
    by_cases hexpr : opens .expr (source.drop pos) = true
    · rw [if_pos hexpr] at h ⊢
      obtain ⟨r, htag, h⟩ := Lexing.bind_ok.mp h
      obtain ⟨tag, curly', hbraced, hnext⟩ := @lexLoop_braced _ _ _ _ _ true _ _ htag h
      exact ⟨n, tag, curly', rfl, hbraced, hnext⟩
    rw [if_neg hexpr] at h ⊢
    have hstmt : opens .stmt (source.drop pos) = true := by
      rw [opensTag] at hopen
      simpa [hcomment, hexpr] using hopen
    rw [if_pos hstmt] at h
    obtain ⟨r, htag, h⟩ := Lexing.bind_ok.mp h
    obtain ⟨tag, curly', hbraced, hnext⟩ := @lexLoop_braced _ _ _ _ _ false _ _ htag h
    exact ⟨n, tag, curly', rfl, hbraced, hnext⟩

/-- The place of the lexer: what stands before it, and what it skips. -/
structure Place (source : Bytes) (before : Option Tag) (pos skip : ℕ) : Prop where
  start : before = none → pos = 0 ∧ skip = 0
  after : ∀ tag ∈ before, tag.WellClosed ∧ (∃ older, source.take pos = older ++ tag.raw) ∧
    skip = skipLen tag (source.drop pos)

theorem Place.text {before next : Option Tag} {skip : ℕ} (h : Place source before pos skip)
    {after : Bytes} (hblock : (opens .stmt after || opens .comment after) = next.any Tag.isBlock) :
    lexedText (source.take (pos + skip)).reverse
        ((source.drop (pos + skip)).take (textEnd (source.drop (pos + skip)))) after next =
      lexerRule before ((source.drop pos).take (textEnd (source.drop pos))) next := by
  rcases before with _ | tag
  · obtain ⟨rfl, rfl⟩ := h.start rfl
    refine lexedText_eq .none hblock ?_
    rintro comment ⟨⟩
  · obtain ⟨hclosed, ⟨older, holder⟩, rfl⟩ := h.after tag rfl
    have hbytes : (source.take (pos + skipLen tag (source.drop pos))).reverse =
        ((source.drop pos).take (skipLen tag (source.drop pos))).reverse ++
          (tag.raw.reverse ++ older.reverse) := by
      rw [take_add, reverse_append, holder, reverse_append]
    rw [hbytes, ← drop_drop]
    exact skipped_text hclosed _ hblock

theorem Place.split {before : Option Tag} {skip : ℕ} (h : Place source before pos skip) :
    pos + skip + textEnd (source.drop (pos + skip)) = pos + textEnd (source.drop pos) := by
  rcases before with _ | tag
  · obtain ⟨rfl, rfl⟩ := h.start rfl
    rfl
  · obtain ⟨-, -, rfl⟩ := h.after tag rfl
    rw [(skip_blank tag (source.drop pos)).2, drop_drop, Nat.add_assoc]

theorem rstripText_of_last (htokens : ∀ t ∈ tokens.getLast?, t.kind ≠ .text) :
    rstripText tokens = tokens := by
  rw [rstripText]
  cases hlast : tokens.getLast? with
  | none => rfl
  | some t => exact if_neg (htokens t hlast)

theorem rstripText_eq (htokens : ∀ t ∈ tokens.getLast?, t.kind ≠ .text) (text : Bytes)
    (dashed : Bool) :
    (if dashed then rstripText (tokens ++ textTokens pos text)
      else tokens ++ textTokens pos text).map Token.part =
      tokens.map Token.part ++ textPart (if dashed then trimEnd text else text) := by
  cases dashed with
  | false => rw [if_neg Bool.false_ne_true, if_neg Bool.false_ne_true, map_append,
      textTokens_part]
  | true =>
    rw [if_pos rfl, if_pos rfl]
    cases text with
    | nil =>
      have htrim : trimEnd [] = [] := rfl
      rw [textTokens, isEmpty_nil, if_pos rfl, append_nil, rstripText_of_last htokens,
        htrim,
        textPart, isEmpty_nil, if_pos rfl, append_nil]
    | cons b l =>
      rw [textTokens, isEmpty_cons, if_neg Bool.false_ne_true, rstripText,
        getLast?_concat]
      dsimp only
      rw [if_pos rfl, dropLast_concat, map_append, textPart]
      split_ifs <;> rfl

/-- **The lexer follows its rule**: from a place after a tag on, the tokens are those of the texts
and the tags of the source. -/
theorem lexLoop_segments {before : Option Tag} {skip : ℕ}
    (h : lexLoop source n (pos + skip) curly tokens = some (.ok out))
    (hplace : Place source before pos skip) (htokens : ∀ t ∈ tokens.getLast?, t.kind ≠ .text)
    (hm : (source.drop pos).length ≤ m) :
    ∃ text tags, segments m pos curly (source.drop pos) = some (.ok (text, tags)) ∧
      out.map Token.part = tokens.map Token.part ++ render lexerRule before text tags := by
  induction n using Nat.strong_induction_on generalizing m pos skip curly tokens before with
  | _ n ih =>
    obtain ⟨k, hk, h⟩ := lexLoop_text h
    have hpos := hplace.split
    have hdrop : source.drop (pos + textEnd (source.drop pos)) =
        (source.drop pos).drop (textEnd (source.drop pos)) := (drop_drop ..).symm
    have hchunk : (source.drop (pos + skip)).drop (textEnd (source.drop (pos + skip))) =
        (source.drop pos).drop (textEnd (source.drop pos)) := by
      rw [drop_drop, hpos, hdrop]
    rw [hpos, hchunk] at h
    rw [segments.eq_def]
    dsimp only
    by_cases hnil : (source.drop pos).drop (textEnd (source.drop pos)) = []
    · rw [lexLoop_nil (hdrop.trans hnil), Lexing.pure_ok] at h
      subst h
      refine ⟨_, _, (if_pos (isEmpty_iff.mpr hnil)).trans rfl, ?_⟩
      have htext := @Place.text _ _ _ none _ hplace [] rfl
      rw [map_append, textTokens_part, hnil, render, ← htext]
      rfl
    · have hopen := opensTag_drop hnil
      obtain ⟨k, tag, curly', rfl, htag, h⟩ := lexLoop_tag (by rw [hdrop]; exact hopen) h
      rw [hdrop] at htag h
      have hat := tagAt_at hopen htag
      generalize htext : textEnd (source.drop pos) = len at *
      have hraw : 0 < tag.raw.length := by
        obtain ⟨body, hraw, -⟩ := hat.closed
        rw [hraw]
        simp
      obtain ⟨tail, htail⟩ := hat.starts
      have hlen : tag.raw.length + tail.length ≤ (source.drop pos).length := by
        rw [← length_append, ← htail]
        rw [length_drop]
        omega
      obtain ⟨m, rfl⟩ : ∃ j, m = j + 1 := ⟨m - 1, by omega⟩
      have hafter : (source.drop (pos + len)).drop tag.raw.length =
          source.drop (pos + len + tag.raw.length) := drop_drop ..
      rw [← hdrop, hafter] at h
      have hplace' : Place source (some tag) (pos + len + tag.raw.length)
          (skipLen tag (source.drop (pos + len + tag.raw.length))) := by
        constructor
        · rintro ⟨⟩
        · rintro _ ⟨⟩
          refine ⟨hat.closed, ⟨source.take (pos + len), ?_⟩, rfl⟩
          rw [take_add, hdrop, htail, take_left]
      have hlast : ∀ rest : List Token, ∀ t ∈ (rest ++ tag.tokens).getLast?, t.kind ≠ .text := by
        obtain ⟨t, ht, hkind⟩ := hat.last_kind
        rintro rest t' ht'
        rw [getLast?_append, ht] at ht'
        obtain rfl := Option.some.inj ht'
        exact hkind
      have hm' : (source.drop (pos + len + tag.raw.length)).length ≤ m := by
        rw [← hafter, hdrop, htail, drop_left]
        omega
      obtain ⟨text, tags, hsegments, hout⟩ := ih k (by omega) h hplace' (hlast _) hm'
      refine ⟨(source.drop pos).take len, (tag, text) :: tags, ?_, ?_⟩
      · rw [if_neg fun hempty => hnil (isEmpty_iff.mp hempty)]
        refine Lexing.bind_ok.mpr ⟨_, htag, Lexing.bind_ok.mpr ⟨(text, tags), ?_, rfl⟩⟩
        rw [← hdrop, hafter]
        exact hsegments
      · have hrule := @Place.text _ _ _ (some tag) _ hplace _ hat.isBlock_eq
        rw [hout, map_append, rstripText_eq htokens, render]
        simp only [append_assoc]
        rw [htext, ← hdrop] at hrule
        rw [← hrule]
        rfl

end Run

/-! ### Where the lexer obeys the rule -/

/-- A text with the tags before and after it. -/
structure Gap where
  before : Option Tag
  text : Bytes
  after : Option Tag

/-- The texts of a source with the tags beside them. -/
def gaps : Option Tag → Bytes → List (Tag × Bytes) → List Gap
  | before, text, [] => [⟨before, text, none⟩]
  | before, text, (tag, next) :: tags => ⟨before, text, some tag⟩ :: gaps (some tag) next tags

/-- After a hollow tag, the rule leaves no white space at the front of a text; a comment and the
line feed after it do no harm. -/
def Gap.Clean (gap : Gap) : Prop :=
  ∀ tag ∈ gap.before, tag.hollow = true → ¬(tag.kind = .comment ∧ gap.text.head? = some 0x0A) →
    trimStart (cutFront (some tag) gap.text) = cutFront (some tag) gap.text ∨
      textRule (some tag) gap.text gap.after = []

section Cut

variable {ls : Bool} {after : Option Tag} {x b u : Bytes}

theorem cutBack_nil : cutBack ls after [] = [] := by
  have htrim : trimEnd [] = [] := rfl
  rw [cutBack, lstripBlock_nil, htrim]
  split_ifs <;> rfl

theorem blank_of_cutBack (h : cutBack ls after x = []) : Blank x := by
  rw [cutBack] at h
  split_ifs at h
  · exact Strip.blank_of_stripEnd suffixFree_whitespace h
  · rcases lines_cases x with hno | ⟨y, z, rfl, hz⟩
    · rw [lstripBlock_of_notMem hno] at h
      split_ifs at h with hblank
      · exact trimStart_eq_nil.mp hblank.2
      · exact h ▸ .nil
    · rw [lstripBlock_append hz] at h
      split_ifs at h <;> simp at h
  · exact h ▸ .nil

theorem cutBack_append (hb : Blank b) (hu : Strip.wordLen whitespaceChars u = 0) (hne : u ≠ []) :
    cutBack ls after (b ++ u) = b ++ cutBack ls after u := by
  have hkeep := not_blank hu hne
  rw [cutBack, cutBack]
  split_ifs
  · exact separable_whitespace.stripEnd_blank_append suffixFree_whitespace hb hu hne
  · rcases lines_cases u with hno | ⟨y, z, rfl, hz⟩
    · rw [lstripBlock_of_notMem hno, if_neg fun h => hkeep (trimStart_eq_nil.mp h.2)]
      rcases lines_cases b with hbno | ⟨y, z, rfl, hz⟩
      · rw [lstripBlock_of_notMem (by simp [hbno, hno]), if_neg]
        rw [trimStart_blank hb, trimStart_eq_self hu]
        exact fun h => hne h.2
      · rw [append_assoc, cons_append, lstripBlock_append (by simp [hz, hno]), if_neg]
        rw [trimStart_blank (blank_cut hb).2, trimStart_eq_self hu]
        exact hne
    · rw [← append_assoc, lstripBlock_append hz, lstripBlock_append hz]
      split_ifs <;> simp
  · rfl

/-- To remove the white space at the front makes a text shorter, unless there is none or nothing is
left of the text in any case. -/
theorem cutBack_trimStart : (trimStart x = x ∨ cutBack ls after x = []) ∧
      cutBack ls after (trimStart x) = cutBack ls after x ∨
    ¬(trimStart x = x ∨ cutBack ls after x = []) ∧
      (cutBack ls after (trimStart x)).length < (cutBack ls after x).length := by
  obtain ⟨b, hb, hx, hu⟩ := trimStart_split x
  by_cases hself : trimStart x = x
  · exact .inl ⟨.inl hself, by rw [hself]⟩
  by_cases hnil : cutBack ls after x = []
  · refine .inl ⟨.inr hnil, ?_⟩
    rw [trimStart_eq_nil.mpr (blank_of_cutBack hnil), cutBack_nil, hnil]
  refine .inr ⟨by simp [hself, hnil], ?_⟩
  by_cases hne : trimStart x = []
  · rw [hne, cutBack_nil]
    exact length_pos_iff.mpr hnil
  · have hcut := @cutBack_append ls after b _ hb hu hne
    rw [← hx] at hcut
    have hbne : b ≠ [] := by
      rintro rfl
      exact hself hx.symm
    have hpos := length_pos_iff.mpr hbne
    rw [hcut, length_append]
    omega

end Cut

theorem rule_cases (before : Option Tag) (text : Bytes) (after : Option Tag) :
    (Gap.mk before text after).Clean ∧ lexerRule before text after = textRule before text after ∨
      ¬(Gap.mk before text after).Clean ∧
        (lexerRule before text after).length < (textRule before text after).length := by
  rcases before with _ | tag
  · refine .inl ⟨?_, rfl⟩
    rintro _ ⟨⟩
  by_cases htaken : tag.hollow = true ∧ ¬(tag.kind = .comment ∧ text.head? = some 0x0A)
  · -- the lexer takes the tag for one that is closed with a dash
    have hif : (tag.hollow && !(tag.kind = .comment && text.head? = some 0x0A)) = true := by
      simpa [imp_iff_not_or] using htaken
    have hclose : tag.dashedClose = false := by
      have hhollow := htaken.1
      rw [Tag.hollow, Bool.and_eq_true_iff, Bool.and_eq_true_iff, Bool.not_eq_true'] at hhollow
      exact hhollow.1.2
    have hfront : trimStart (cutFront (some tag) text) = trimStart text := by
      simp only [cutFront, Option.any_some, hclose, Bool.false_eq_true, if_false]
      split_ifs with hline
      · obtain ⟨rest, rfl⟩ := head?_eq_some_iff.mp
          (of_decide_eq_true (Bool.and_eq_true_iff.mp hline).2)
        exact (trimStart_blank (.of_mem newline_mem) rest).symm
      · rfl
    have hlexer : lexerRule (some tag) text after =
        cutBack (text.head? = some 0x0A) after (trimStart (cutFront (some tag) text)) := by
      rw [lexerRule, Option.map_some, Tag.taken, if_pos hif, textRule, hfront]
      rfl
    have hclean : (Gap.mk (some tag) text after).Clean ↔
        (trimStart (cutFront (some tag) text) = cutFront (some tag) text ∨
          textRule (some tag) text after = []) := by
      constructor
      · exact fun h => h tag rfl htaken.1 htaken.2
      · rintro h _ ⟨⟩ - -
        exact h
    rw [hclean, hlexer]
    exact cutBack_trimStart
  · refine .inl ⟨?_, ?_⟩
    · rintro _ ⟨⟩ hhollow hline
      exact absurd ⟨hhollow, hline⟩ htaken
    · have hif : ¬(tag.hollow && !(tag.kind = .comment && text.head? = some 0x0A)) = true := by
        simpa [imp_iff_not_or] using htaken
      rw [lexerRule, Option.map_some, Tag.taken, if_neg hif]

section Render

variable {before : Option Tag} {text : Bytes} {tags : List (Tag × Bytes)}

/-- The bytes of the texts of some tokens. -/
def partsLen (parts : List (TokenKind × Bytes)) : ℕ := (parts.map fun p => p.2.length).sum

theorem partsLen_append (p q : List (TokenKind × Bytes)) :
    partsLen (p ++ q) = partsLen p + partsLen q := by
  simp [partsLen]

theorem partsLen_textPart (text : Bytes) : partsLen (textPart text) = text.length := by
  cases text <;> simp [partsLen, textPart]

/-- The tokens agree with the rule where all gaps are clean; elsewhere they are shorter. -/
theorem render_cases (before : Option Tag) (text : Bytes) (tags : List (Tag × Bytes)) :
    (∀ gap ∈ gaps before text tags, gap.Clean) ∧
        render lexerRule before text tags = render textRule before text tags ∨
      (¬∀ gap ∈ gaps before text tags, gap.Clean) ∧
        partsLen (render lexerRule before text tags) <
          partsLen (render textRule before text tags) := by
  induction tags generalizing before text with
  | nil =>
    simp only [gaps, render, mem_singleton, forall_eq, partsLen_textPart]
    exact (rule_cases before text none).imp (fun h => ⟨h.1, by rw [h.2]⟩) id
  | cons e tags ih =>
    obtain ⟨tag, next⟩ := e
    simp only [gaps, render, mem_cons, forall_eq_or_imp, partsLen_append, partsLen_textPart]
    rcases rule_cases before text (some tag) with ⟨hclean, hrule⟩ | ⟨hclean, hlt⟩
    · rw [hrule]
      rcases ih (some tag) next with ⟨hrest, heq⟩ | ⟨hrest, hlt⟩
      · exact .inl ⟨⟨hclean, hrest⟩, by rw [heq]⟩
      · exact .inr ⟨fun h => hrest h.2, by omega⟩
    · have hle : partsLen (render lexerRule (some tag) next tags) ≤
          partsLen (render textRule (some tag) next tags) := by
        rcases ih (some tag) next with ⟨-, heq⟩ | ⟨-, hlt⟩
        · rw [heq]
        · exact hlt.le
      exact .inr ⟨fun h => hclean h.1, by omega⟩

theorem render_eq_iff : render lexerRule before text tags = render textRule before text tags ↔
    ∀ gap ∈ gaps before text tags, gap.Clean := by
  rcases render_cases before text tags with ⟨hclean, heq⟩ | ⟨hclean, hlt⟩
  · exact iff_of_true heq hclean
  · exact iff_of_false (fun heq => (heq ▸ hlt).false) hclean

end Render

theorem segments_source {m pos curly : ℕ} {rest text : Bytes} {tags : List (Tag × Bytes)}
    (h : segments m pos curly rest = some (.ok (text, tags))) :
    text ++ tags.flatMap (fun e => e.1.raw ++ e.2) = rest := by
  induction m generalizing pos curly rest text tags with
  | zero =>
    rw [segments.eq_def] at h
    dsimp only at h
    split_ifs at h with hnil
    · obtain ⟨rfl, rfl⟩ := Prod.mk.inj (Lexing.pure_ok.mp h)
      rw [flatMap_nil, ← isEmpty_iff.mp hnil, take_append_drop]
  | succ m ih =>
    rw [segments.eq_def] at h
    dsimp only at h
    split_ifs at h with hnil
    · obtain ⟨rfl, rfl⟩ := Prod.mk.inj (Lexing.pure_ok.mp h)
      rw [flatMap_nil, ← isEmpty_iff.mp hnil, take_append_drop]
    · obtain ⟨⟨tag, depth⟩, htag, h⟩ := Lexing.bind_ok.mp h
      obtain ⟨⟨next, more⟩, hmore, h⟩ := Lexing.bind_ok.mp h
      obtain ⟨rfl, rfl⟩ := Prod.mk.inj (Lexing.pure_ok.mp h)
      obtain ⟨tail, htail⟩ :=
          (tagAt_at (opensTag_drop fun h => hnil (isEmpty_iff.mpr h)) htag).starts
      have hrest := ih hmore
      rw [htail, drop_left] at hrest
      rw [flatMap_cons, append_assoc, hrest, ← htail, take_append_drop]

/-- The source that the lexer reads: its line ends are line feeds, and one at its end is gone. -/
def normalized (source : Str) : Bytes := popNewline (normalizeEol source.bytes)

/-- **White space control**: the tokens of a template are those of its texts and tags, and every
text has lost the white space that the tags beside it take, exactly if it is clean after each tag
that is hollow. -/
theorem lex_whitespace {source : Str} {tokens : List Token} (h : lex source = some (.ok tokens)) :
    ∃ text tags, segments (normalized source).length 0 0 (normalized source) =
      some (.ok (text, tags)) ∧
      text ++ tags.flatMap (fun e => e.1.raw ++ e.2) = normalized source ∧
      (tokens.map Token.part = render textRule none text tags ↔
        ∀ gap ∈ gaps none text tags, gap.Clean) := by
  obtain ⟨text, tags, hsegments, hparts⟩ := @lexLoop_segments (normalized source) _
    (normalized source).length 0 0 [] tokens none 0 h ⟨fun _ => ⟨rfl, rfl⟩, fun _ h => by cases h⟩
    (fun _ h => by cases h) le_rfl
  rw [map_nil, nil_append] at hparts
  exact ⟨text, tags, hsegments, segments_source hsegments, by rw [hparts, render_eq_iff]⟩

/-- A letter, a comment with a dash in its opener and nothing else, two spaces and a letter. -/
def hollowSource : Str := ⟨[0x61, 0x7B, 0x23, 0x2D, 0x23, 0x7D, 0x20, 0x20, 0x62], by decide⟩

theorem lex_whitespace_hollowSource :
    ∃ tokens, lex hollowSource = some (.ok tokens) ∧ ∃ text tags,
      segments (normalized hollowSource).length 0 0 (normalized hollowSource) =
          some (.ok (text, tags)) ∧
        text ++ tags.flatMap (fun e => e.1.raw ++ e.2) = normalized hollowSource ∧
        (tokens.map Token.part = render textRule none text tags ↔
          ∀ gap ∈ gaps none text tags, gap.Clean) :=
  ⟨_, rfl, lex_whitespace rfl⟩

/-- The spaces after the comment are gone, though its closer has no dash. -/
theorem hollow_comment_trimmed : ¬∀ (source : Str) (tokens : List Token),
    lex source = some (.ok tokens) → ∃ text tags,
      segments (normalized source).length 0 0 (normalized source) = some (.ok (text, tags)) ∧
        tokens.map Token.part = render textRule none text tags := by
  intro h
  have hlex : lex hollowSource = some (.ok [⟨.text, [0x61], 0⟩, ⟨.comment, [], 1⟩,
      ⟨.text, [0x62], 6⟩]) := rfl
  obtain ⟨text, tags, hsegments, hparts⟩ := h _ _ hlex
  have hcut : segments (normalized hollowSource).length 0 0 (normalized hollowSource) =
      some (.ok ([0x61], [(⟨.comment, [0x7B, 0x23, 0x2D, 0x23, 0x7D], true, false,
        [⟨.comment, [], 1⟩]⟩, [0x20, 0x20, 0x62])])) := rfl
  obtain ⟨rfl, rfl⟩ := Prod.mk.inj (Except.ok.inj (Option.some.inj hsegments))
  exact absurd hparts (by decide)

end R9v.Template

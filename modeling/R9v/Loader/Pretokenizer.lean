import R9v.Loader.Detokenizer

/-!
# Splitting a text into words

The pre-tokenizer of GPT-2 (`r9v-loader/src/pretokenizer.rs`): a text is split into words
by the kinds of its characters. The loop of the source is at a place of the list of
characters; here it is the list from that place on, and `wordLen` is the number of
characters by which a round moves on.
-/

namespace R9v

/-- What is read behind the last character. -/
def outOfRange : ℕ := 0xFFFFFFFF

/-- The length of a contraction: `'s`, `'t`, `'m`, `'d`, `'re`, `'ve` or `'ll`. -/
def contractionLen : List ℕ → ℕ
  | c :: next :: l =>
    if c ≠ 0x27 then 0
    else if next = 0x73 ∨ next = 0x74 ∨ next = 0x6D ∨ next = 0x64 then 2
    else
      match l with
      | [] => 0
      | nextNext :: _ =>
        if (nextNext = 0x65 ∧ (next = 0x72 ∨ next = 0x76)) ∨ (next = 0x6C ∧ nextNext = 0x6C) then 3
        else 0
  | _ => 0

section Words

variable (u : UnicodeTables)

/-- A character that is no space, letter or number, and is known. -/
def UnicodeTables.isOther (cpt : ℕ) : Bool :=
  !u.isWhitespace cpt && !u.isLetter cpt && !u.isNumber cpt && u.flagsOf cpt != 0

/-- The number of characters of the first word. -/
def wordLen (rest : List ℕ) : ℕ :=
  let contraction := contractionLen rest
  if contraction ≠ 0 then contraction
  else
    let space := if rest.head? = some 0x20 then 1 else 0
    let probe := rest.drop space
    if probe.head?.any u.isLetter then space + (probe.takeWhile u.isLetter).length
    else if probe.head?.any u.isNumber then space + (probe.takeWhile u.isNumber).length
    else if probe.head?.any u.isOther then space + (probe.takeWhile u.isOther).length
    else
      let numWs := (rest.takeWhile u.isWhitespace).length
      if 1 < numWs ∧ (rest.drop numWs).headD outOfRange ≠ outOfRange then numWs - 1
      else if 0 < numWs then numWs
      else 1

/-- The words of a list of characters, with fuel for each. -/
def splitLoop : ℕ → List ℕ → List Str
  | _, [] => []
  | 0, _ :: _ => []
  | fuel + 1, c :: l =>
    let len := wordLen u (c :: l)
    Str.ofUtf8 (((c :: l).take len).flatMap encodeUtf8) :: splitLoop fuel ((c :: l).drop len)

/-- The words of a text. -/
def splitGpt2 (text : Bytes) : List Str :=
  let cpts := cptsFromStr text
  splitLoop u cpts.length cpts

end Words

end R9v

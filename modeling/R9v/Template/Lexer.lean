import R9v.Lib.Strip
import R9v.Template.Value

/-!
# The template lexer

`lex` of `template/lexer.rs`: a template is a list of texts and tags. The lexer is at a place of
the source; here it is the list of the bytes from that place on, next to the place itself. A tag is
lexed token by token (`lexTag`), and the white space beside it is taken from the texts around it.

The result `none` stands for a panic, where the source is cut inside a character.
-/

namespace R9v.Template

/-- A computation that may fail or panic. -/
abbrev Lexing (α : Type) := ExceptT TemplateError Option α

inductive TokenKind
  | text
  | openExpr
  | closeExpr
  | openStmt
  | closeStmt
  | ident
  | int
  | float
  | str
  /-- `+`, `-` and `~`. -/
  | additive
  /-- `*`, `/` and `%`. -/
  | multiplicative
  | comparison
  | equals
  | openParen
  | closeParen
  | openBracket
  | closeBracket
  | dot
  | comma
  | colon
  | pipe
  | openBrace
  | closeBrace
  /-- A sign that no number follows. -/
  | unary
  | comment
  deriving DecidableEq

/-- A token, with its place in the source. -/
structure Token where
  kind : TokenKind
  text : Bytes
  pos : ℕ
  deriving DecidableEq

/-! ### White space -/

/-- The characters that Unicode takes for white space. -/
def whitespaceChars : List Bytes :=
  [[0x09], [0x0A], [0x0B], [0x0C], [0x0D], [0x20], [0xC2, 0x85], [0xC2, 0xA0], [0xE1, 0x9A, 0x80],
    [0xE2, 0x80, 0x80], [0xE2, 0x80, 0x81], [0xE2, 0x80, 0x82], [0xE2, 0x80, 0x83],
    [0xE2, 0x80, 0x84], [0xE2, 0x80, 0x85], [0xE2, 0x80, 0x86], [0xE2, 0x80, 0x87],
    [0xE2, 0x80, 0x88], [0xE2, 0x80, 0x89], [0xE2, 0x80, 0x8A], [0xE2, 0x80, 0xA8],
    [0xE2, 0x80, 0xA9], [0xE2, 0x80, 0xAF], [0xE2, 0x81, 0x9F], [0xE3, 0x80, 0x80]]

theorem separable_whitespace : Strip.Separable whitespaceChars := by
  have hinside : ∀ c ∈ whitespaceChars, ∀ d ∈ whitespaceChars,
      (c.tail.all fun a => decide (d.head? ≠ some a)) = true := by
    decide
  exact
    { ne_nil := by decide
      eq_of_prefix := by decide
      head_ne := fun c hc d hd a ha =>
        of_decide_eq_true (List.all_eq_true.mp (hinside c hc d hd) a ha) }

theorem suffixFree_whitespace : Strip.PrefixFree (whitespaceChars.map List.reverse) :=
  { ne_nil := by decide
    eq_of_prefix := by decide }

def trimStart (l : Bytes) : Bytes := Strip.strip whitespaceChars l

def trimEnd (l : Bytes) : Bytes := Strip.stripEnd whitespaceChars l

/-- Whether all characters are white space. -/
def allWhitespace (l : Bytes) : Bool := (trimStart l).isEmpty

/-! ### The source -/

/-- Puts a line feed for every line end of two characters. -/
def replaceCrLf : Bytes → Bytes
  | 0x0D :: 0x0A :: l => 0x0A :: replaceCrLf l
  | b :: l => b :: replaceCrLf l
  | [] => []

/-- Puts a line feed for every line end. -/
def normalizeEol (source : Bytes) : Bytes :=
  (replaceCrLf source).map fun b => if b = 0x0D then 0x0A else b

/-- Removes one line feed at the end. -/
def popNewline (source : Bytes) : Bytes :=
  if source.getLast? = some 0x0A then source.dropLast else source

/-- The number of bytes of a character with some first byte. -/
def utf8LenAt (b : UInt8) : ℕ :=
  if b < 0x80 then 1 else if 0xF0 ≤ b then 4 else if 0xE0 ≤ b then 3 else if 0xC0 ≤ b then 2 else 1

/-! ### Tokens of a tag -/

def isDigit (b : UInt8) : Bool := 0x30 ≤ b && b ≤ 0x39

def isAlpha (b : UInt8) : Bool := (0x41 ≤ b && b ≤ 0x5A) || (0x61 ≤ b && b ≤ 0x7A)

/-- The bytes of identifiers. -/
def isIdent (b : UInt8) : Bool := isAlpha b || isDigit b || b = 0x5F

/-- The white space inside of tags. -/
def isTagSpace (b : UInt8) : Bool := b = 0x20 || b = 0x09 || b = 0x0A || b = 0x0D

/-- Whether a sign after a token of some kind is an operator. -/
def isOperand : Option TokenKind → Bool
  | some .ident | some .int | some .float | some .str | some .closeParen | some .closeBracket =>
      true
  | _ => false

/-- The number at the front: its kind and its length. -/
def lexNumber (rest : Bytes) : TokenKind × ℕ :=
  let int := (rest.takeWhile isDigit).length
  match rest.drop int with
  | 0x2E :: d :: l =>
    if isDigit d then (.float, int + 1 + ((d :: l).takeWhile isDigit).length) else (.int, int)
  | _ => (.int, int)

/-- The character that a letter after a backslash stands for. -/
def unescape (b : UInt8) : Option UInt8 :=
  if b = 0x6E then some 0x0A
  else if b = 0x74 then some 0x09
  else if b = 0x72 then some 0x0D
  else if b = 0x62 then some 0x08
  else if b = 0x66 then some 0x0C
  else if b = 0x76 then some 0x0B
  else if b = 0x27 then some 0x27
  else if b = 0x22 then some 0x22
  else if b = 0x5C then some 0x5C
  else none

/-- The string up to its closing quote, and the number of bytes of it, with fuel for each character;
`pos` is the place of the opening quote. -/
def lexString (quote : UInt8) (pos : ℕ) : ℕ → Bytes → Except TemplateError (Bytes × ℕ)
  | 0, _ | _, [] => .error (.parse pos "unterminated string literal")
  | fuel + 1, b :: l =>
    if b = quote then .ok ([], 1)
    else if b = 0x5C then
      match l with
      | [] => .error (.parse pos "unexpected end of input after escape character")
      | e :: l =>
        match unescape e with
        | none => .error (.parse pos ("unknown escape character \\" ++
            String.singleton (Char.ofNat e.toNat)))
        | some c => (lexString quote pos fuel l).map fun r => (c :: r.1, r.2 + 2)
    else
      let len := utf8LenAt b
      (lexString quote pos fuel ((b :: l).drop len)).map fun r =>
        ((b :: l).take len ++ r.1, r.2 + len)

/-- The operators of two bytes. -/
def comparisons : List Bytes := [[0x3C, 0x3D], [0x3E, 0x3D], [0x3D, 0x3D], [0x21, 0x3D]]

/-- The operators of one byte. -/
def operators : List (UInt8 × TokenKind) :=
  [(0x2B, .additive), (0x2D, .additive), (0x7E, .additive), (0x2A, .multiplicative),
    (0x2F, .multiplicative), (0x25, .multiplicative), (0x3C, .comparison), (0x3E, .comparison),
    (0x3D, .equals), (0x28, .openParen), (0x29, .closeParen), (0x5B, .openBracket),
    (0x5D, .closeBracket), (0x2E, .dot), (0x2C, .comma), (0x3A, .colon), (0x7C, .pipe),
    (0x7B, .openBrace), (0x7D, .closeBrace)]

/-- The operator at the front: its kind and its length. -/
def operator (two : Bytes) (b : UInt8) : Option (TokenKind × ℕ) :=
  if two ∈ comparisons then some (.comparison, 2)
  else (operators.lookup b).map fun kind => (kind, 1)

/-- The two bytes at the front, if there are as many: this panics if they end inside a character. -/
def sliceTwo (rest : Bytes) : Option Bytes :=
  if rest.length < 2 then some []
  else if (rest.drop 2).head?.any Utf8.tail then none
  else some (rest.take 2)

/-- The closer of an expression or a statement. -/
def closer (isExpr dashed : Bool) : Bytes :=
  (if dashed then [0x2D] else []) ++ [if isExpr then 0x7D else 0x25, 0x7D]

/-- Whether a closer stands at the front. -/
def closes (isExpr dashed : Bool) (rest : Bytes) : Bool := (closer isExpr dashed).isPrefixOf rest

/-- The kind of the token that closes a tag. -/
def closeKind (isExpr : Bool) : TokenKind := if isExpr then .closeExpr else .closeStmt

/-- A token that is found at some place, with the number of its bytes. -/
structure Lexeme where
  kind : TokenKind
  text : Bytes
  len : ℕ

/-- The token at a place where the bytes `b :: l` stand and no closer. `last` is the kind of the
token before it. -/
def lexToken (pos : ℕ) (last : Option TokenKind) (b : UInt8) (l : Bytes) : Lexing Lexeme :=
  if (b = 0x2D ∨ b = 0x2B) ∧ isOperand last = false then
    if l.head?.any isDigit then
      let number := lexNumber l
      pure ⟨number.1, b :: l.take number.2, 1 + number.2⟩
    else pure ⟨.unary, [b], 1⟩
  else if isAlpha b || b = 0x5F then
    let len := 1 + (l.takeWhile isIdent).length
    pure ⟨.ident, (b :: l).take len, len⟩
  else if isDigit b then
    let number := lexNumber (b :: l)
    pure ⟨number.1, (b :: l).take number.2, number.2⟩
  else if b = 0x27 ∨ b = 0x22 then do
    let string ← (lexString b pos (l.length + 1) l : Except TemplateError (Bytes × ℕ))
    pure ⟨.str, string.1, 1 + string.2⟩
  else do
    let two ← (sliceTwo (b :: l) : Option Bytes)
    match operator two b with
    | none => throw (.parse pos ("unexpected character " ++ toString b.toNat ++ " in tag"))
    | some (kind, len) => pure ⟨kind, (b :: l).take len, len⟩

/-- A step of the lexer inside of a tag: the tag ends, or there is a token. -/
inductive TagStep
  | close (len : ℕ)
  | token (t : Lexeme)

/-- The next step of a tag, at a place where there is no white space. -/
def tagStep (isExpr : Bool) (pos curly : ℕ) (last : Option TokenKind) (rest : Bytes) :
    Lexing TagStep :=
  match rest with
  | [] => throw (.parse pos "unterminated tag")
  | b :: l =>
    if closes true true rest || closes false true rest then
      if closes true true rest ≠ isExpr then throw (.parse pos "mismatched tag closer")
      else pure (.close 3)
    else if closes true false rest || closes false false rest then
      if closes true false rest ≠ isExpr then throw (.parse pos "mismatched tag closer")
      else if isExpr && 0 < curly then pure (.token ⟨.closeBrace, [0x7D], 1⟩)
      else pure (.close 2)
    else do
      let t ← lexToken pos last b l
      pure (.token t)

/-- The depth of braces after a token of an expression. -/
def curlyAfter (isExpr : Bool) (curly : ℕ) (kind : TokenKind) : ℕ :=
  if isExpr then
    if kind = .openBrace then curly + 1 else if kind = .closeBrace then curly - 1 else curly
  else curly

/-- The tokens of a tag, with the one that closes it, the place after it and the depth of braces. -/
def lexTag (isExpr : Bool) : ℕ → ℕ → ℕ → Option TokenKind → Bytes →
    Lexing (List Token × ℕ × ℕ)
  | 0, _, _, _, _ => (none : Option _)
  | fuel + 1, pos, curly, last, rest => do
    let pos := pos + (rest.takeWhile isTagSpace).length
    let rest := rest.dropWhile isTagSpace
    match ← tagStep isExpr pos curly last rest with
    | .close len => pure ([⟨closeKind isExpr, [], pos⟩], pos + len, curly)
    | .token t => do
      let (tokens, stop, curly) ←
        lexTag isExpr fuel (pos + t.len) (curlyAfter isExpr curly t.kind) (some t.kind)
          (rest.drop t.len)
      pure (⟨t.kind, t.text, pos⟩ :: tokens, stop, curly)

/-! ### Texts and tags -/

/-- Removes white space from the end of the last token, if it is a text. -/
def rstripText (tokens : List Token) : List Token :=
  match tokens.getLast? with
  | none => tokens
  | some last =>
    if last.kind = .text then
      let text := trimEnd last.text
      tokens.dropLast ++ if text.isEmpty then [] else [{ last with text }]
    else tokens

inductive TagKind
  | comment
  | expr
  | stmt
  deriving DecidableEq

/-- The bytes that a tag starts with. -/
def TagKind.opener : TagKind → Bytes
  | comment => [0x7B, 0x23]
  | expr => [0x7B, 0x7B]
  | stmt => [0x7B, 0x25]

/-- Whether a tag of some kind starts. -/
def opens (kind : TagKind) (rest : Bytes) : Bool := kind.opener.isPrefixOf rest

/-- Whether the opener has a dash. -/
def dashedOpener (rest : Bytes) : Bool := (rest.drop 2).head? = some 0x2D

/-- Whether a tag starts. -/
def opensTag (rest : Bytes) : Bool := opens .comment rest || opens .expr rest || opens .stmt rest

/-- The end of a comment: where its closer is, and whether it has a dash. `i` is the number of bytes
that have been read, and `prev` the last one of them. -/
def commentEnd : ℕ → Option UInt8 → Bytes → Option (ℕ × Bool)
  | _, _, [] => none
  | i, prev, b :: l =>
    if b = 0x23 ∧ l.head? = some 0x7D then
      if prev = some 0x2D then some (i - 1, true) else some (i, false)
    else commentEnd (i + 1) (some b) l

/-- The length of the text before the next tag, with fuel for each character. -/
def textLen : ℕ → Bytes → ℕ
  | 0, _ | _, [] => 0
  | fuel + 1, b :: l =>
    if opensTag (b :: l) then 0
    else utf8LenAt b + textLen fuel ((b :: l).drop (utf8LenAt b))

/-- The end of the text at the front. -/
def textEnd (rest : Bytes) : ℕ := textLen rest.length rest

/-- The number of bytes up to the last line feed, that one included. -/
def lastLineStart (chunk : Bytes) : ℕ :=
  chunk.length - (chunk.reverse.takeWhile (· ≠ 0x0A)).length

/-- A text before a tag that is no expression, without the white space of the line of the tag. -/
def lstripBlock (lineStarting : Bool) (chunk : Bytes) : Bytes :=
  let keepFrom := lastLineStart chunk
  let tail := chunk.drop keepFrom
  if (0 < keepFrom || lineStarting) && !tail.isEmpty && allWhitespace tail then chunk.take keepFrom
  else chunk

/-- Whether the last two bytes, which stand first, close a tag. -/
def followsBlockClose : Bytes → Bool
  | c2 :: c1 :: _ => c2 = 0x7D && (c1 = 0x23 || c1 = 0x25 || c1 = 0x2D)
  | _ => false

/-- Whether the last three bytes, which stand first, close a tag with a dash. -/
def followsDashClose : Bytes → Bool
  | c2 :: c1 :: c0 :: _ => c0 = 0x2D && (c1 = 0x25 || c1 = 0x7D || c1 = 0x23) && c2 = 0x7D
  | _ => false

/-- The text of a token. `before` is what stands before the text, the last byte first, and `after`
what stands after it. -/
def textToken (before chunk after : Bytes) : Bytes :=
  let lineStarting := before.isEmpty || before.head? = some 0x0A
  let text :=
    if opens .stmt after || opens .comment after then lstripBlock lineStarting chunk else chunk
  let text := if followsBlockClose before && text.head? = some 0x0A then text.tail else text
  if followsDashClose before then trimStart text else text

/-- The tokens of a source from a place on, after those before it, with fuel for each piece. -/
def lexLoop (source : Bytes) : ℕ → ℕ → ℕ → List Token → Lexing (List Token)
  | fuel, pos, curly, tokens =>
    let rest := source.drop pos
    if rest.isEmpty then pure tokens
    else
      match fuel with
      | 0 => (none : Option _)
      | fuel + 1 =>
        if opens .comment rest then
          let dashedOpen := dashedOpener rest
          let tokens := if dashedOpen then rstripText tokens else tokens
          let contentStart := if dashedOpen then 3 else 2
          match commentEnd 0 none (rest.drop contentStart) with
          | none => throw (.parse pos "missing end of comment tag")
          | some (len, dashedClose) =>
            let tokens := tokens ++ [⟨.comment, (rest.drop contentStart).take len, pos⟩]
            let stop := contentStart + len + if dashedClose then 3 else 2
            let after := rest.drop stop
            let skip := if dashedClose then after.length - (trimStart after).length
              else if after.head? = some 0x0A then 1 else 0
            lexLoop source fuel (pos + stop + skip) curly tokens
        else if opens .expr rest then do
          let dashed := dashedOpener rest
          let tokens := if dashed then rstripText tokens else tokens
          let tokens := tokens ++ [⟨.openExpr, [], pos⟩]
          let start := if dashed then 3 else 2
          let (tag, stop, curly) ←
            lexTag true (rest.length + 1) (pos + start) 0 (some .openExpr) (rest.drop start)
          lexLoop source fuel stop curly (tokens ++ tag)
        else if opens .stmt rest then do
          let dashed := dashedOpener rest
          let tokens := if dashed then rstripText tokens else tokens
          let tokens := tokens ++ [⟨.openStmt, [], pos⟩]
          let start := if dashed then 3 else 2
          let (tag, stop, curly) ←
            lexTag false (rest.length + 1) (pos + start) curly (some .openStmt) (rest.drop start)
          lexLoop source fuel stop curly (tokens ++ tag)
        else
          let len := textEnd rest
          let text := textToken (source.take pos).reverse (rest.take len) (rest.drop len)
          lexLoop source fuel (pos + len) curly
            (if text.isEmpty then tokens else tokens ++ [⟨.text, text, pos⟩])

/-- Lexes a template. -/
def lex (source : Str) : Lexing (List Token) :=
  let source := popNewline (normalizeEol source.bytes)
  lexLoop source source.length 0 0 []

end R9v.Template

import R9v.Loader.Unicode
import Std.Data.ExtTreeMap

/-!
# Tokenizers

The tokenizer of `r9v-loader/src/tokenizer.rs`: its vocabulary, the bytes of one token
(`Tokenizer.pieceBytes`) and those of many (`Tokenizer.decode`). A tokenizer is made from
metadata in `R9v.Loader.Builder`.
-/

namespace R9v

/-- The errors of the loader that a tokenizer or a detokenizer can return. -/
inductive LoaderError
  | limit (what : String) (limit got : ℕ)
  | tokenIdOutOfRange (id vocabSize : ℕ)
  | tokenizerMeta (details : List String)
  | unsupportedTokenizer (model : Bytes) (supported : List String)
  | unsupportedPreTokenizer (pre : Bytes) (model : Bytes) (supported : List String)

/-- The families of tokenizers. -/
inductive TokenizerKind
  | bpe
  | sentencePiece
  | wordPiece
  deriving DecidableEq

/-- How a text is split before it is tokenized. -/
inductive PreType
  | gpt2
  | none
  deriving DecidableEq

/-! ### Attributes -/

def attrUnknown : ℕ := 1 <<< 0

def attrUnused : ℕ := 1 <<< 1

def attrNormal : ℕ := 1 <<< 2

def attrControl : ℕ := 1 <<< 3

def attrUserDefined : ℕ := 1 <<< 4

def attrByte : ℕ := 1 <<< 5

/-- An entry of the vocabulary: its text, the bits of its score, and its attributes. -/
structure TokenEntry where
  text : Str
  score : UInt32
  attr : ℕ

/-- Whether an entry has one of some attributes. -/
def TokenEntry.has (e : TokenEntry) (attrs : ℕ) : Bool := e.attr &&& attrs != 0

instance transBytes : Std.TransCmp (compare : Bytes → Bytes → Ordering) := inferInstance

instance transPair : Std.TransCmp (compare : List Bytes → List Bytes → Ordering) := inferInstance

/-- A tokenizer. The ranks of the merges are looked up by both sides of a merge. -/
structure Tokenizer where
  kind : TokenizerKind
  tokens : List TokenEntry
  textToId : Std.ExtTreeMap Bytes ℕ
  bpeRanks : Std.ExtTreeMap (List Bytes) ℕ
  specialOrder : List ℕ
  maxTokenLen : ℕ
  bosId : Option ℕ
  eosId : Option ℕ
  unkId : Option ℕ
  sepId : Option ℕ
  addBos : Bool
  addEos : Bool
  addSpacePrefix : Bool
  escapeSpaces : Bool
  lowercase : Bool
  stripAccents : Bool
  pre : PreType

/-! ### The bytes of a token -/

/-- The first place where `needle` occurs. -/
def findBytes (haystack needle : Bytes) : Option ℕ :=
  if needle.isEmpty || haystack.length < needle.length then none
  else (List.range (haystack.length - needle.length + 1)).find? fun i =>
    (haystack.drop i).take needle.length == needle

/-- The mark that stands for a space in the tokens of SentencePiece. -/
def spaceMark : Bytes := [0xE2, 0x96, 0x81]

/-- Puts a space for every mark. -/
def unescapeLoop : Bytes → Bytes
  | 0xE2 :: 0x96 :: 0x81 :: l => 0x20 :: unescapeLoop l
  | b :: l => b :: unescapeLoop l
  | [] => []

def unescapeSpaces (text : Bytes) : Bytes :=
  if (findBytes text spaceMark).isNone then text else unescapeLoop text

/-- The text of a token where it is read as a string. -/
def pieceStr (text : Bytes) : Bytes := if Utf8.Valid text then text else []

/-- The value of a hexadecimal digit. -/
def hexDigit (b : UInt8) : Option ℕ :=
  if 0x30 ≤ b ∧ b ≤ 0x39 then some (b.toNat - 0x30)
  else if 0x41 ≤ b ∧ b ≤ 0x46 then some (b.toNat - 0x37)
  else if 0x61 ≤ b ∧ b ≤ 0x66 then some (b.toNat - 0x57)
  else none

/-- Two hexadecimal digits, of which the first may be a sign. -/
def hexByte2 (h l : UInt8) : Option UInt8 := do
  let low ← hexDigit l
  if h = 0x2B then pure (UInt8.ofNat low)
  else
    let high ← hexDigit h
    pure (UInt8.ofNat (16 * high + low))

/-- The byte of a byte token, which is written `<0xXX>`. -/
def parseByteToken (text : Bytes) : Option UInt8 :=
  match text with
  | [0x3C, 0x30, 0x78, h, l, 0x3E] => hexByte2 h l
  | _ => none

namespace Tokenizer

variable (t : Tokenizer)

def vocabSize : ℕ := t.tokens.length

def eosIds : List ℕ := t.eosId.toList

/-- The token of a text. -/
def textToToken (piece : Bytes) : Option ℕ := t.textToId[piece]?

/-- The bytes of an entry, before its leading space is removed. -/
def entryBytes (e : TokenEntry) (special : Bool) : Bytes :=
  if !special && e.has (attrUnknown ||| attrControl) then []
  else if e.has (attrUnknown ||| attrControl ||| attrUserDefined) then e.text.bytes
  else if e.has attrNormal then
    if t.kind = .bpe ∧ t.escapeSpaces = false then byteDecodePiece (pieceStr e.text.bytes)
    else unescapeSpaces e.text.bytes
  else if e.has attrByte then (parseByteToken e.text.bytes).toList
  else []

/-- The bytes of a token. -/
def pieceBytes (id : ℕ) (special removeSpace : Bool) : Bytes :=
  match t.tokens[id]? with
  | none => []
  | some e =>
    let piece := t.entryBytes e special
    if removeSpace && piece.head? == some 0x20 then piece.tail else piece

/-- The bytes of the tokens of a list; a space may be removed from the first one. -/
def pieces (removeSpace : Bool) : List ℕ → Bytes
  | [] => []
  | id :: ids => t.pieceBytes id true removeSpace ++ pieces false ids

/-- The bytes of some tokens. -/
def decode (ids : List ℕ) : Except LoaderError Bytes :=
  match ids.find? fun id => t.vocabSize ≤ id with
  | some id => .error (.tokenIdOutOfRange id t.vocabSize)
  | none =>
    let out := t.pieces (t.kind = .sentencePiece && t.addSpacePrefix) ids
    .ok (if t.kind = .wordPiece then cleanSpaces out else out)

theorem decode_eq_ok_iff {t : Tokenizer} (hkind : t.kind ≠ .wordPiece) {ids : List ℕ} {out : Bytes} :
    t.decode ids = .ok out ↔ (∀ id ∈ ids, id < t.vocabSize) ∧
      t.pieces (t.kind = .sentencePiece && t.addSpacePrefix) ids = out := by
  unfold decode
  cases hfind : ids.find? fun id => decide (t.vocabSize ≤ id) with
  | some bad =>
    have hmem := List.mem_of_find?_eq_some hfind
    have hbad := List.find?_some hfind
    simp only [decide_eq_true_eq] at hbad
    exact ⟨fun h => (by cases h), fun h => absurd (h.1 bad hmem) (by omega)⟩
  | none =>
    have hlt : ∀ id ∈ ids, id < t.vocabSize := by
      intro id hid
      have := List.find?_eq_none.mp hfind id hid
      simp only [decide_eq_true_eq] at this
      omega
    simp only [if_neg hkind, Except.ok.injEq]
    exact ⟨fun h => ⟨hlt, h⟩, fun h => h.2⟩

end Tokenizer

end R9v

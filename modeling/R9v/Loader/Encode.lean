import R9v.Loader.Pretokenizer
import R9v.Loader.Builder

/-!
# Encoding a text

`Tokenizer.encode` of `r9v-loader/src/tokenizer.rs`. A text is cut at the special tokens
that occur in it (`partition`), and what stands between them is tokenized by the family of
the tokenizer: BPE and SentencePiece merge neighbours by rank and by score, WordPiece
takes the longest token that fits.

The result `none` stands for a panic, where a string is cut inside a character, and for a
loop that does not end. A heap is the list of its entries in the order in which they are
popped.
-/

namespace R9v

def maxEncodeBytes : ℕ := 1 <<< 26

def maxEncodeTokens : ℕ := 1 <<< 24

def maxPreWords : ℕ := 1 <<< 22

/-- A computation that may fail or panic. -/
abbrev Encoding (α : Type) := ExceptT LoaderError Option α

/-- Text, or a special token. -/
inductive Fragment
  | raw (text : Str)
  | token (id : ℕ)

/-- A part of a string that is not empty: this panics if it is cut inside a character,
that is, if it is not well-formed. -/
def Str.slice (bytes : Bytes) : Option Str :=
  if h : Utf8.Valid bytes then some ⟨bytes, h⟩ else none

/-- Checks the number of tokens. -/
def checkOutputLen (output : List ℕ) : Encoding Unit :=
  if maxEncodeTokens < output.length then
    throw (.limit "encode output tokens" maxEncodeTokens output.length)
  else pure ()

/-- Puts a mark for every space. -/
def escapeSpacesStr (text : Bytes) : Bytes :=
  text.flatMap fun b => if b = 0x20 then spaceMark else [b]

/-- The length of the character at the front. -/
def lenUtf8At : Bytes → ℕ
  | [] => 0
  | b :: l => (decodeOne b l).2

/-! ### Special tokens -/

/-- The text between two tokens, if there is any. -/
def rawPart (bytes : Bytes) : Option (List Fragment) :=
  if bytes.isEmpty then some [] else (Str.slice bytes).map fun s => [.raw s]

/-- Cuts a special token out of a text. -/
def cutOut (needle : Bytes) (id : ℕ) : ℕ → Bytes → Option (List Fragment)
  | 0, _ => none
  | fuel + 1, bytes =>
    match findBytes bytes needle with
    | none => rawPart bytes
    | some m => do
      let before ← rawPart (bytes.take m)
      let rest := bytes.drop (m + needle.length)
      if rest.isEmpty then some (before ++ [.token id])
      else
        let after ← cutOut needle id fuel rest
        some (before ++ .token id :: after)

def cutFragment (needle : Bytes) (id : ℕ) : Fragment → Option (List Fragment)
  | .token i => some [.token i]
  | .raw s => cutOut needle id (s.bytes.length + 1) s.bytes

/-- Cuts a special token out of all fragments, one after the other. -/
def cutAll (needle : Bytes) (id : ℕ) : List Fragment → Option (List Fragment)
  | [] => some []
  | frag :: rest => do
    let parts ← cutFragment needle id frag
    let others ← cutAll needle id rest
    some (parts ++ others)

/-! ### Merging by rank -/

/-- A pair that may be merged, with its text when it was found. -/
structure BpeEntry (n : ℕ) where
  rank : ℕ
  left : Fin n
  right : Fin n
  seq : ℕ
  text : Bytes

/-- The order in which pairs are merged. -/
def BpeEntry.before {n : ℕ} (e e' : BpeEntry n) : Bool :=
  e.rank < e'.rank || (e.rank = e'.rank && (e.left < e'.left || (e.left = e'.left && e.seq < e'.seq)))

/-- The symbols of a word, linked in both ways, and the pairs that may be merged. -/
structure BpeState (n : ℕ) where
  prev : Fin n → Option (Fin n)
  next : Fin n → Option (Fin n)
  alive : Fin n → Bool
  merged : Fin n → Bytes
  queue : List (BpeEntry n)
  seq : ℕ

namespace BpeState

variable {n : ℕ} (ranks : Std.ExtTreeMap (List Bytes) ℕ)

def enqueue (e : BpeEntry n) : List (BpeEntry n) → List (BpeEntry n)
  | [] => [e]
  | e' :: q => if e.before e' then e :: e' :: q else e' :: enqueue e q

/-- Adds a pair, if there is a merge for it. -/
def pushBigram (left right : Fin n) (s : BpeState n) : BpeState n :=
  match ranks[[s.merged left, s.merged right]]? with
  | none => s
  | some rank =>
    let e := { rank, left, right, seq := s.seq + 1, text := s.merged left ++ s.merged right }
    { s with queue := enqueue e s.queue, seq := s.seq + 1 }

/-- The symbol before and the symbol after an index. -/
def prevOf (i : Fin n) : Option (Fin n) :=
  if 0 < i.val then some ⟨i.val - 1, by omega⟩ else none

def nextOf (i : Fin n) : Option (Fin n) :=
  if h : i.val + 1 < n then some ⟨i.val + 1, h⟩ else none

/-- The symbols of a word. -/
def start (symbols : Fin n → Bytes) : BpeState n :=
  let s : BpeState n :=
    { prev := prevOf, next := nextOf, alive := fun _ => true, merged := symbols, queue := [], seq := 0 }
  (List.finRange n).foldl (fun s i => match nextOf i with
    | some j => pushBigram ranks i j s
    | none => s) s

/-- Joins a symbol with the one on its right, which is unlinked. -/
def join (left right : Fin n) (s : BpeState n) : BpeState n :=
  { s with
    merged := Function.update (Function.update s.merged right []) left
      (s.merged left ++ s.merged right)
    alive := Function.update s.alive right false
    next := Function.update s.next left (s.next right)
    prev := match s.next right with
      | some rn => Function.update s.prev rn (some left)
      | none => s.prev }

/-- Merges a symbol with the one on its right, and adds the pairs that this makes. -/
def merge (left right : Fin n) (s : BpeState n) : BpeState n :=
  let s := s.join left right
  let s := match s.prev left with
    | some p => if s.alive p then pushBigram ranks p left s else s
    | none => s
  match s.next left with
  | some rn => if s.alive rn then pushBigram ranks left rn s else s
  | none => s

/-- Whether a pair is as it was when it was found. -/
def fresh (s : BpeState n) (e : BpeEntry n) : Bool :=
  s.alive e.left && s.alive e.right && s.next e.left = some e.right &&
    s.prev e.right = some e.left && s.merged e.left ++ s.merged e.right = e.text

/-- Merges until there is no pair left. -/
def mergeLoop : ℕ → BpeState n → Option (BpeState n)
  | fuel, s =>
    match s.queue with
    | [] => some s
    | e :: q =>
      match fuel with
      | 0 => none
      | fuel + 1 =>
        let s := { s with queue := q }
        mergeLoop fuel (if s.fresh e then s.merge ranks e.left e.right else s)

end BpeState

/-- The characters of a text. -/
def symbolsOf : ℕ → Bytes → Option (List Str)
  | _, [] => some []
  | 0, _ :: _ => none
  | fuel + 1, rest => do
    let len := min (lenUtf8At rest) rest.length
    let head ← Str.slice (rest.take len)
    let tail ← symbolsOf fuel (rest.drop len)
    some (head :: tail)

/-! ### Merging by score -/

/-- The place of a score in the total order of floats. -/
def scoreKey (bits : UInt32) : ℤ :=
  if bits < 0x80000000 then bits.toNat else -(bits.toNat - 0x80000000 : ℤ) - 1

/-- A pair that may be merged. -/
structure SpmEntry (n : ℕ) where
  score : ℤ
  size : ℕ
  left : Fin n
  right : Fin n

/-- The order in which pairs are merged: the greatest entry comes first. -/
def SpmEntry.before {n : ℕ} (e e' : SpmEntry n) : Bool :=
  e'.score < e.score || (e.score = e'.score &&
    (e.left < e'.left || (e.left = e'.left &&
      (e'.size < e.size || (e.size = e'.size && e'.right < e.right)))))

/-- The symbols of a text, linked in both ways. A symbol that is merged away has no
bytes. -/
structure SpmState (n : ℕ) where
  start : Fin n → ℕ
  len : Fin n → ℕ
  prev : Fin n → Option (Fin n)
  next : Fin n → Option (Fin n)
  queue : List (SpmEntry n)
  revMerge : Std.ExtTreeMap Bytes (Fin n × Fin n)

namespace SpmState

variable {n : ℕ} (t : Tokenizer) (bytes : Bytes)

def enqueue (e : SpmEntry n) : List (SpmEntry n) → List (SpmEntry n)
  | [] => [e]
  | e' :: q => if e.before e' then e :: e' :: q else e' :: enqueue e q

/-- Adds a pair, if its text is a token. -/
def tryAdd (left right : Fin n) (s : SpmState n) : SpmState n :=
  let text := (bytes.drop (s.start left)).take (s.start right + s.len right - s.start left)
  match t.textToToken text with
  | none => s
  | some id =>
    match t.tokens[id]? with
    | none => s
    | some e =>
      { s with
        queue := enqueue { score := scoreKey e.score, size := text.length, left, right } s.queue
        revMerge := s.revMerge.insert text (left, right) }

/-- Merges a symbol with the one on its right. -/
def merge (left right : Fin n) (s : SpmState n) : SpmState n :=
  let s :=
    { s with
      len := Function.update (Function.update s.len left (s.len left + s.len right)) right 0
      next := Function.update s.next left (s.next right)
      prev := match s.next right with
        | some rn => Function.update s.prev rn (some left)
        | none => s.prev }
  let s := match s.prev left with
    | some p => tryAdd t bytes p left s
    | none => s
  match s.next left with
  | some rn => tryAdd t bytes left rn s
  | none => s

/-- Merges until there is no pair left. -/
def mergeLoop : ℕ → SpmState n → Option (SpmState n)
  | fuel, s =>
    match s.queue with
    | [] => some s
    | e :: q =>
      match fuel with
      | 0 => none
      | fuel + 1 =>
        let s := { s with queue := q }
        let stale := s.len e.left = 0 ∨ s.len e.right = 0 ∨ s.len e.left + s.len e.right ≠ e.size
        mergeLoop fuel (if stale then s else s.merge t bytes e.left e.right)

/-- The places and lengths of the characters of a text. -/
def spans : ℕ → ℕ → Bytes → List (ℕ × ℕ)
  | _, _, [] => []
  | 0, _, _ :: _ => []
  | fuel + 1, pos, rest =>
    let len := lenUtf8At rest
    (pos, len) :: spans fuel (pos + len) (rest.drop len)

end SpmState

namespace Tokenizer

variable (t : Tokenizer)

/-! ### Fragments -/

/-- Cuts one special token out. -/
def partitionStep (parseSpecial : Bool) (frags : List Fragment) (id : ℕ) :
    Option (List Fragment) := do
  let e ← t.tokens[id]?
  if !parseSpecial && e.has (attrControl ||| attrUnknown) then some frags
  else if e.text.bytes.isEmpty then some frags
  else cutAll e.text.bytes id frags

/-- Cuts a text at its special tokens. -/
def partition (text : Str) (parseSpecial : Bool) : Option (List Fragment) :=
  t.specialOrder.foldlM (t.partitionStep parseSpecial) [.raw text]

/-- A token that has to be defined. -/
def require (id : Option ℕ) (message : String) : Encoding ℕ :=
  match id with
  | some id => pure id
  | none => throw (.tokenizerMeta [message])

def requireBos : Encoding ℕ :=
  require t.bosId "encode with add_special requires a BOS id but none is defined"

def requireEos : Encoding ℕ :=
  require t.eosId "encode with add_special requires an EOS id but none is defined"

def requireSep : Encoding ℕ :=
  require t.sepId "encode with add_special requires a SEP id but none is defined"

def requireUnk : Encoding ℕ :=
  require t.unkId "tokenizer requires an UNK id but none is defined"

/-! ### Byte-level BPE -/

/-- The tokens of a piece: the token itself, or those of its bytes that are tokens. -/
def bpePiece (piece : Bytes) : List ℕ :=
  match t.textToToken piece with
  | some id => [id]
  | none => piece.filterMap fun b => t.textToToken [b]

/-- The tokens of the symbols from one on. -/
def bpeEmit {n : ℕ} (s : BpeState n) : ℕ → Option (Fin n) → Option (List ℕ)
  | _, none => some []
  | 0, some _ => none
  | fuel + 1, some i => do
    let rest ← bpeEmit s fuel (s.next i)
    some (t.bpePiece (s.merged i) ++ rest)

/-- The tokens of a word. -/
def bpeWord (word : Str) : Option (List ℕ) := do
  let encoded := byteEncode word.bytes
  let symbols ← symbolsOf encoded.length encoded
  let n := symbols.length
  let s := BpeState.start t.bpeRanks fun i : Fin n => (symbols.get i).bytes
  let s ← s.mergeLoop t.bpeRanks (3 * n)
  t.bpeEmit s n ((List.finRange n).find? s.alive)

/-- Tokenizes the words of a text. -/
def bpeWords : List Str → List ℕ → Encoding (List ℕ)
  | [], output => pure output
  | word :: rest, output => do
    checkOutputLen output
    let ids ← (t.bpeWord word : Option (List ℕ))
    bpeWords rest (output ++ ids)

def tokenizeBpe (u : UnicodeTables) (text : Bytes) (output : List ℕ) : Encoding (List ℕ) :=
  match t.pre with
  | .none => throw (.unsupportedPreTokenizer [] (utf8 "gpt2") ["gpt-2"])
  | .gpt2 =>
    let words := splitGpt2 u text
    if maxPreWords < words.length then
      throw (.limit "pre-tokenizer words" maxPreWords words.length)
    else t.bpeWords words output

/-- Tokenizes fragments by BPE. -/
def bpeFragments (u : UnicodeTables) : List Fragment → List ℕ → Encoding (List ℕ)
  | [], output => pure output
  | frag :: rest, output => do
    checkOutputLen output
    let output ← match frag with
      | .token id => pure (output ++ [id])
      | .raw raw =>
        let text := if t.escapeSpaces then escapeSpacesStr raw.bytes else raw.bytes
        t.tokenizeBpe u text output
    bpeFragments u rest output

def encodeBpe (u : UnicodeTables) (frags : List Fragment) (addSpecial : Bool) :
    Encoding (List ℕ) := do
  let output ← if addSpecial && t.addBos then (do return [← t.requireBos]) else pure []
  let output ← t.bpeFragments u frags output
  if addSpecial && t.addEos then return output ++ [← t.requireEos] else return output

/-! ### SentencePiece -/

/-- The hexadecimal digits of a byte token. -/
def hexUpper (d : ℕ) : UInt8 := UInt8.ofNat (if d < 10 then 0x30 + d else 0x37 + d)

/-- The token of a byte. -/
def spmByteToken (b : UInt8) : Encoding ℕ :=
  let name := [0x3C, 0x30, 0x78, hexUpper (b.toNat / 16), hexUpper (b.toNat % 16), 0x3E]
  match t.textToToken name with
  | some id => pure id
  | none =>
    match t.textToToken [b] with
    | some id => pure id
    | none =>
      let digits := String.ofList [Char.ofNat (hexUpper (b.toNat / 16)).toNat,
        Char.ofNat (hexUpper (b.toNat % 16)).toNat]
      throw (.tokenizerMeta ["SPM vocabulary has no byte token for 0x" ++ digits])

/-- The tokens of bytes. -/
def spmBytes : Bytes → Encoding (List ℕ)
  | [] => pure []
  | b :: l => do
    let id ← t.spmByteToken b
    let ids ← spmBytes l
    pure (id :: ids)

/-- The tokens of the symbols on a stack. -/
def spmResegment {n : ℕ} (s : SpmState n) (bytes : Bytes) :
    ℕ → List (Fin n) → List ℕ → Encoding (List ℕ)
  | _, [], output => pure output
  | 0, _ :: _, _ => (none : Option (List ℕ))
  | fuel + 1, i :: stack, output => do
    checkOutputLen output
    let text := (bytes.drop (s.start i)).take (s.len i)
    match t.textToToken text with
    | some id => spmResegment s bytes fuel stack (output ++ [id])
    | none =>
      match s.revMerge[text]? with
      | some (first, second) => spmResegment s bytes fuel (first :: second :: stack) output
      | none =>
        let ids ← t.spmBytes text
        spmResegment s bytes fuel stack (output ++ ids)

/-- The tokens of the symbols from one on. -/
def spmEmit {n : ℕ} (s : SpmState n) (bytes : Bytes) :
    ℕ → Option (Fin n) → List ℕ → Encoding (List ℕ)
  | _, none, output => pure output
  | 0, some _, _ => (none : Option (List ℕ))
  | fuel + 1, some i, output => do
    let output ← t.spmResegment s bytes (n + 1) [i] output
    spmEmit s bytes fuel (s.next i) output

def tokenizeSpm (bytes : Bytes) (output : List ℕ) : Encoding (List ℕ) := do
  let symbols := SpmState.spans bytes.length 0 bytes
  let n := symbols.length
  let s : SpmState n :=
    { start := fun i => (symbols.get i).1
      len := fun i => (symbols.get i).2
      prev := BpeState.prevOf
      next := BpeState.nextOf
      queue := []
      revMerge := ∅ }
  let s := (List.finRange n).foldl (fun s i => match BpeState.nextOf i with
    | some j => s.tryAdd t bytes i j
    | none => s) s
  let s ← (s.mergeLoop t bytes (3 * n) : Option (SpmState n))
  t.spmEmit s bytes n ((List.finRange n).find? fun i => 0 < s.len i) output

/-- Tokenizes fragments by SentencePiece. -/
def spmFragments : List Fragment → Bool → List ℕ → Encoding (List ℕ)
  | [], _, output => pure output
  | frag :: rest, isPrevSpecial, output => do
    checkOutputLen output
    match frag with
    | .token id => spmFragments rest true (output ++ [id])
    | .raw raw =>
      let text := (if t.addSpacePrefix && isPrevSpecial then [0x20] else []) ++ raw.bytes
      let output ← t.tokenizeSpm (escapeSpacesStr text) output
      spmFragments rest false output

def encodeSpm (frags : List Fragment) (addSpecial : Bool) : Encoding (List ℕ) := do
  let output ← if addSpecial && t.addBos then (do return [← t.requireBos]) else pure []
  let output ← t.spmFragments frags true output
  if addSpecial && t.addEos then return output ++ [← t.requireEos] else return output

/-! ### WordPiece -/

section WordPiece

variable (u : UnicodeTables)

/-- Takes one character into the words, of which the last one stands first. -/
def wpmStep (words : List Bytes) (cpt : ℕ) : List Bytes :=
  match words with
  | [] => words
  | last :: done =>
    if u.isWhitespace cpt then if last.isEmpty then words else [] :: words
    else if cpt = 0 ∨ cpt = 0xFFFD ∨ u.isControl cpt then words
    else if t.stripAccents && u.isAccentMark cpt then words
    else
      let c := if t.lowercase then u.toLower cpt else cpt
      let s := (Str.ofUtf8 (encodeUtf8 c)).bytes
      if u.isPunctuation c || (c < 0x7F && u.isSymbol c) || isChineseChar c then
        [] :: s :: if last.isEmpty then done else words
      else (last ++ s) :: done

/-- The words of a text. -/
def wpmPreprocess (text : Bytes) : List Bytes :=
  let cpts := cptsFromStr text
  let cpts := if t.stripAccents then cpts.map u.nfdBase else cpts
  match cpts.foldl (t.wpmStep u) [[]] with
  | [] :: done => done.reverse
  | words => words.reverse

/-- The longest token at the front, of at most `len` bytes, and its length. -/
def wpmLongest (rest : Bytes) : ℕ → Option (ℕ × ℕ)
  | 0 => none
  | len + 1 =>
    match t.textToToken (rest.take (len + 1)) with
    | some id => some (id, len + 1)
    | none => wpmLongest rest len

/-- The tokens of a word, if it is made of tokens. -/
def wpmWord : ℕ → Bytes → Option (List ℕ)
  | _, [] => some []
  | 0, _ :: _ => none
  | fuel + 1, rest => do
    let (id, len) ← t.wpmLongest rest (min (t.maxTokenLen + 1) rest.length)
    let ids ← wpmWord fuel (rest.drop len)
    some (id :: ids)

/-- Tokenizes the words of a text. -/
def wpmWords (unk : ℕ) : List Bytes → List ℕ → Encoding (List ℕ)
  | [], output => pure output
  | word :: rest, output => do
    checkOutputLen output
    if word.isEmpty then wpmWords unk rest output
    else
      let word := spaceMark ++ word
      wpmWords unk rest (output ++ (t.wpmWord word.length word).getD [unk])

/-- Tokenizes fragments by WordPiece. -/
def wpmFragments : List Fragment → List ℕ → Encoding (List ℕ)
  | [], output => pure output
  | frag :: rest, output => do
    checkOutputLen output
    let output ← match frag with
      | .token id => pure (output ++ [id])
      | .raw raw => do
        let words := t.wpmPreprocess u raw.bytes
        let unk ← t.requireUnk
        t.wpmWords unk words output
    wpmFragments rest output

def encodeWpm (frags : List Fragment) (addSpecial : Bool) : Encoding (List ℕ) := do
  let output ← if addSpecial then (do return [← t.requireBos]) else pure []
  let output ← t.wpmFragments u frags output
  if addSpecial then return output ++ [← t.requireSep] else return output

end WordPiece

/-- Encodes a text. -/
def encode (u : UnicodeTables) (text : Str) (addSpecial parseSpecial : Bool) :
    Encoding (List ℕ) := do
  if maxEncodeBytes < text.bytes.length then
    throw (.limit "encode input bytes" maxEncodeBytes text.bytes.length)
  let frags ← (t.partition text parseSpecial : Option (List Fragment))
  let output ← match t.kind with
    | .sentencePiece => t.encodeSpm frags addSpecial
    | .bpe => t.encodeBpe u frags addSpecial
    | .wordPiece => t.encodeWpm u frags addSpecial
  checkOutputLen output
  return output

end Tokenizer

end R9v

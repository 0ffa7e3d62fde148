import R9v.Loader.Tokenizer
import R9v.Loader.Decode

/-!
# The streaming detokenizer

The detokenizer of `r9v-loader/src/detokenizer.rs`. It takes one token after the other and
gives out the text that cannot change any more: it holds back the start of a character
that more bytes would complete, and the start of a stop string.
-/

namespace R9v

def maxStopStrings : ℕ := 8

def maxStopLen : ℕ := 512

/-- Bytes as a string, which is empty if they are not well-formed UTF-8. -/
def Str.ofUtf8 (bytes : Bytes) : Str :=
  if h : Utf8.Valid bytes then ⟨bytes, h⟩ else ⟨[], Utf8.valid_nil⟩

/-- What a push produced. -/
inductive PushOutcome
  | emit (text : Str)
  | stop (text : Str)
  | done
  deriving DecidableEq

/-- The text of an outcome. -/
def PushOutcome.text : PushOutcome → Bytes
  | .emit t => t.bytes
  | .stop t => t.bytes
  | .done => []

/-- The state of a detokenizer. -/
structure Detokenizer where
  tok : Tokenizer
  stops : List Bytes
  stopOnEos : Bool
  stopped : Bool
  pending : Bytes
  cleanWpm : Bool
  firstPiece : Bool

/-! ### What is held back and what is replaced -/

/-- The loop of `sanitize`, with fuel for its bytes. -/
def sanitizeLoop : ℕ → Bytes → Bytes
  | _, [] => []
  | 0, _ :: _ => []
  | fuel + 1, b :: l =>
    let (cpt, len) := decodeOne b l
    if cpt = 0xFFFD ∧ 0x80 ≤ b then Utf8.replacement ++ sanitizeLoop fuel (l.drop (len - 1))
    else (b :: l).take len ++ sanitizeLoop fuel (l.drop (len - 1))

/-- Replaces what is no character. -/
def sanitize (bytes : Bytes) : Str := Str.ofUtf8 (sanitizeLoop bytes.length bytes)

/-- The length of a start of a character: of its lead byte and the bytes after it, the
last one first. -/
def holdLen (lead : UInt8) (conts : Bytes) : ℕ :=
  match conts with
  | [] =>
    if 0xC2 ≤ lead ∧ lead ≤ 0xDF then 1
    else if 0xE0 ≤ lead ∧ lead ≤ 0xEF then 1
    else if 0xF0 ≤ lead ∧ lead ≤ 0xF4 then 1
    else 0
  | [b1] =>
    if 0xC0 ≤ lead ∧ lead ≤ 0xDF then 0
    else if lead = 0xE0 then if b1 ≥ 0xA0 then 2 else 0
    else if lead = 0xED then if b1 < 0xA0 then 2 else 0
    else if (0xE1 ≤ lead ∧ lead ≤ 0xEC) ∨ (0xEE ≤ lead ∧ lead ≤ 0xEF) then 2
    else if lead = 0xF0 then if b1 ≥ 0x90 then 2 else 0
    else if lead = 0xF4 then if b1 ≤ 0x8F then 2 else 0
    else if 0xF1 ≤ lead ∧ lead ≤ 0xF3 then 2
    else 0
  | [_, b1] =>
    if 0xC0 ≤ lead ∧ lead ≤ 0xEF then 0
    else if lead = 0xF0 then if b1 ≥ 0x90 then 3 else 0
    else if lead = 0xF4 then if b1 ≤ 0x8F then 3 else 0
    else if 0xF1 ≤ lead ∧ lead ≤ 0xF3 then 3
    else 0
  | _ => 0

/-- The length of the start of a character at the end of the bytes. -/
def incompleteTailLen (bytes : Bytes) : ℕ :=
  let conts := bytes.reverse.takeWhile (· &&& 0xC0 = 0x80)
  if 3 ≤ conts.length then 0
  else
    match bytes.reverse.drop conts.length with
    | [] => 0
    | lead :: _ => if lead < 0x80 then 0 else holdLen lead conts

/-- The greatest number, of those up to `len`, of bytes at the end that start the stop
string. -/
def prefixLoop (bytes stop : Bytes) : ℕ → ℕ
  | 0 => 0
  | len + 1 =>
    if bytes.drop (bytes.length - (len + 1)) = stop.take (len + 1) then len + 1
    else prefixLoop bytes stop len

/-- The number of bytes at the end that start the stop string, but are not all of it. -/
def partialPrefixLen (bytes stop : Bytes) : ℕ :=
  prefixLoop bytes stop (min bytes.length (stop.length - 1))

/-- Replaces what is no character, and puts one U+FFFD for a character that is cut off. -/
def completeUtf8 (tail : Bytes) : Bytes :=
  let hold := incompleteTailLen tail
  (sanitize (tail.take (tail.length - hold))).bytes ++ if 0 < hold then Utf8.replacement else []

namespace Detokenizer

/-- Checks the stop strings and drops the empty ones. -/
def stopBytes : List Str → Except LoaderError (List Bytes)
  | [] => .ok []
  | s :: rest =>
    if maxStopLen < s.bytes.length then
      .error (.limit "stop string bytes" maxStopLen s.bytes.length)
    else do
      let stops ← stopBytes rest
      pure (if s.bytes.isEmpty then stops else s.bytes :: stops)

/-- A detokenizer with stop strings. -/
def new (tok : Tokenizer) (stopStrings : List Str) (stopOnEos : Bool) :
    Except LoaderError Detokenizer :=
  if maxStopStrings < stopStrings.length then
    .error (.limit "stop strings" maxStopStrings stopStrings.length)
  else do
    let stops ← stopBytes stopStrings
    pure
      { tok, stops, stopOnEos
        stopped := false
        pending := []
        cleanWpm := tok.kind = .wordPiece
        firstPiece := true }

variable (d : Detokenizer)

/-- The first place where a stop string occurs in the bytes that are held. -/
def findStop : Option ℕ :=
  d.stops.foldl (fun best stop =>
    match findBytes d.pending stop with
    | none => best
    | some pos => some (best.elim pos (min · pos))) none

/-- The number of bytes that have to be held. -/
def holdOf : ℕ :=
  let holdStop := d.stops.foldl (fun hold stop => max hold (partialPrefixLen d.pending stop)) 0
  min (max (incompleteTailLen d.pending) holdStop) d.pending.length

/-- Gives out what need not be held. -/
def takeStable : Str × Detokenizer :=
  let splitAt := d.pending.length - d.holdOf
  (sanitize (d.pending.take splitAt), { d with pending := d.pending.drop splitAt })

/-- The end of a push, after the bytes of the token have been appended. -/
def scan : PushOutcome × Detokenizer :=
  match d.findStop with
  | some pos => (.stop (sanitize (d.pending.take pos)), { d with stopped := true, pending := [] })
  | none => (.emit d.takeStable.1, d.takeStable.2)

/-- Takes one token. -/
def push (id : ℕ) : Except LoaderError (PushOutcome × Detokenizer) :=
  if d.stopped then .ok (.done, d)
  else if d.tok.vocabSize ≤ id then .error (.tokenIdOutOfRange id d.tok.vocabSize)
  else if d.stopOnEos && d.tok.eosIds.contains id then
    .ok (.stop (sanitize d.pending), { d with stopped := true, pending := [] })
  else if d.tok.bosId = some id then .ok (.emit (Str.ofUtf8 []), d)
  else
    let removeSpace := d.firstPiece && d.tok.addSpacePrefix
    let piece := d.tok.pieceBytes id true removeSpace
    .ok { d with firstPiece := false, pending := d.pending ++ piece }.scan

/-- Gives out what is held. -/
def flush : Str × Detokenizer :=
  let tail := completeUtf8 d.pending
  (Str.ofUtf8 (if d.cleanWpm then cleanSpaces tail else tail), { d with pending := [] })

/-- Takes some tokens, and returns what each push produced. -/
def pushes : Detokenizer → List ℕ → Except LoaderError (List PushOutcome × Detokenizer)
  | d, [] => .ok ([], d)
  | d, id :: ids => do
    let (outcome, d) ← d.push id
    let (outcomes, d) ← pushes d ids
    pure (outcome :: outcomes, d)

end Detokenizer

end R9v

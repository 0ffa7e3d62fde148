import R9v.Sched.Request
import R9v.State.Manager

/-!
# Sequences

A sequence in the scheduler (`r9v-sched/src/types.rs`): the phase it is in, the
tokens it has generated, and the end of its text, against which stop strings are
matched. The text comes from the detokenizer, which reads a token as a byte and
keeps back the bytes of a character that is not complete.
-/

namespace R9v

open Checked

/-! ### The detokenizer -/

/-- The default detokenizer. It serves one sequence at a time, and holds the bytes
of its unfinished character. -/
structure ByteDetokenizer where
  activeSeq : Option SeqId
  buf : List ℕ
  bufLen : ℕ
  expectedLen : ℕ
  deriving DecidableEq

namespace ByteDetokenizer

def new : ByteDetokenizer := ⟨none, [0, 0, 0, 0], 0, 0⟩

/-- The number of bytes held back for a sequence. -/
def bufferedLen (d : ByteDetokenizer) (k : SeqId) : ℕ := if d.activeSeq = some k then d.bufLen else 0

/-- Takes over for a sequence; what was held for another one is dropped. -/
def serve (d : ByteDetokenizer) (k : SeqId) : ByteDetokenizer :=
  if d.activeSeq ≠ some k then { d with activeSeq := some k, bufLen := 0, expectedLen := 0 } else d

/-- A byte as two hexadecimal digits. -/
def hexByte (b : ℕ) : String :=
  String.ofList [Char.toUpper (Nat.digitChar (b / 16)), Char.toUpper (Nat.digitChar (b % 16))]

/-- Forgets the unfinished character. -/
def drop (d : ByteDetokenizer) : ByteDetokenizer := { d with bufLen := 0, expectedLen := 0 }

/-- Starts a character of several bytes. -/
def start (d : ByteDetokenizer) (b expected : ℕ) (output : Text) :
    SchedResult ℕ × ByteDetokenizer × Text :=
  (.ok 0, { d with buf := d.buf.set 0 b, bufLen := 1, expectedLen := expected }, output)

/-- The first byte of a character. -/
def appendFirst (d : ByteDetokenizer) (b : ℕ) (output : Text) :
    SchedResult ℕ × ByteDetokenizer × Text :=
  if b ≤ 0x7F then (.ok 1, d, output ++ [b])
  else if 0xC2 ≤ b ∧ b ≤ 0xDF then d.start b 2 output
  else if 0xE0 ≤ b ∧ b ≤ 0xEF then d.start b 3 output
  else if 0xF0 ≤ b ∧ b ≤ 0xF4 then d.start b 4 output
  else
    (.error (.detokenizeError ("unsupported or invalid UTF-8 start byte: 0x" ++ hexByte b)), d,
      output)

/-- A further byte of a character. -/
def appendNext (d : ByteDetokenizer) (b : ℕ) (output : Text) :
    SchedResult ℕ × ByteDetokenizer × Text :=
  if d.buf.length ≤ d.bufLen then
    (.error (.detokenizeError s!"detokenizer buffer overflow at position {d.bufLen}"), d, output)
  else
    let d := { d with buf := d.buf.set d.bufLen b, bufLen := d.bufLen + 1 }
    if d.bufLen = d.expectedLen then
      let pending := d.buf.take d.bufLen
      -- the lead and the tail bytes are in their ranges, so that only the second byte can be wrong
      if Utf8.valid pending then (.ok d.bufLen, d.drop, output ++ pending)
      else
        (.error (.detokenizeError
          "invalid UTF-8 byte sequence: invalid utf-8 sequence of 1 bytes from index 0"), d.drop,
          output)
    else (.ok 0, d, output)

/-- Decodes a token at the end of a text: the number of bytes that it adds. -/
def appendToken (d : ByteDetokenizer) (k : SeqId) (token : ℕ) (output : Text) :
    SchedResult ℕ × ByteDetokenizer × Text :=
  if 255 < token then
    (.error (.detokenizeError s!"token id {token} exceeds byte range (0..=255)"), d, output)
  else
    let d := d.serve k
    if d.bufLen = 0 then d.appendFirst token output
    else if Utf8.isTail token then d.appendNext token output
    else
      (.error (.detokenizeError
        ("expected UTF-8 continuation byte (0x80..=0xBF), got 0x" ++ hexByte token)), d.drop, output)

/-- Forgets a sequence. -/
def reset (d : ByteDetokenizer) (k : SeqId) : ByteDetokenizer :=
  if d.activeSeq = some k then { d.drop with activeSeq := none } else d

end ByteDetokenizer

/-! ### Sequences -/

/-- Why a sequence has finished. -/
inductive FinishReason
  | eos (token : ℕ)
  | maxTokens
  | stopString (s : Text)
  | cancelled
  deriving DecidableEq

/-- The phases of a sequence. -/
inductive SequencePhase
  | queued
  | prefilling (done : ℕ)
  | decoding
  | finished (reason : FinishReason)
  deriving DecidableEq

/-- A sequence, as the scheduler follows it. -/
structure Sequence where
  req : Request
  seqId : SeqId
  phase : SequencePhase
  ctxLen : ℕ
  generated : List ℕ
  acceptEma : Float32
  arrivalOrder : ℕ
  waitSteps : ℕ
  accumulatedWaitMs : Float32
  detokenizedTail : Text
  tailStartByte : ℕ
  tokenByteSpans : List (ℕ × ℕ × ℕ)
  pendingUtf8Start : Option (ℕ × ℕ)

namespace Sequence

/-- A sequence that has just been queued. -/
def new (req : Request) (seqId : SeqId) (arrivalOrder : ℕ) : Sequence where
  req
  seqId
  phase := .queued
  ctxLen := 0
  generated := []
  acceptEma := 1.0
  arrivalOrder
  waitSteps := 0
  accumulatedWaitMs := 0.0
  detokenizedTail := []
  tailStartByte := 0
  tokenByteSpans := []
  pendingUtf8Start := none

/-- The length of the prompt, as a 32-bit word. -/
def promptLen (s : Sequence) : ℕ := s.req.tokens.length % 2 ^ 32

/-- Forgets the end of the text. -/
def resetTailState (s : Sequence) : Sequence :=
  { s with detokenizedTail := [], tailStartByte := 0, tokenByteSpans := [], pendingUtf8Start := none }

/-- Records the bytes of a token. A character of several tokens is one span, from
the first of them on. -/
def recordSpan (s : Sequence) (tokenIdx startByte appended endByte : ℕ) : Sequence :=
  if appended = 0 then
    { s with pendingUtf8Start := some (s.pendingUtf8Start.getD (tokenIdx, startByte)) }
  else
    match s.pendingUtf8Start with
    | some (idx, byte) =>
      { s with
        tokenByteSpans := s.tokenByteSpans ++ [(idx, byte, endByte)]
        pendingUtf8Start := none }
    | none => { s with tokenByteSpans := s.tokenByteSpans ++ [(tokenIdx, startByte, endByte)] }

/-- The token that a match at a byte begins in. -/
def cutToken (s : Sequence) (matchByte tokenIdx : ℕ) : ℕ :=
  ((s.tokenByteSpans.find? fun (_, _, stop) => matchByte < stop).map (·.1)).getD tokenIdx

/-- Gives up the beginning of the text when it has become long. Cutting inside a
character panics. -/
def boundTail (s : Sequence) : SchedOutcome (Option FinishReason × Bool) × Sequence :=
  let keep := s.req.stop.maxStopLen
  let maxKeep := max ((mul 64 keep 2).getD 512) 128
  if 0 < keep ∧ maxKeep < s.detokenizedTail.length then
    let excess := s.detokenizedTail.length - keep
    let trim := (Utf8.firstStart s.detokenizedTail excess).getD excess
    if 0 < trim ∧ trim ≤ s.detokenizedTail.length then
      if Utf8.isBoundary s.detokenizedTail trim then
        let s := { s with detokenizedTail := s.detokenizedTail.drop trim }
        match add 64 s.tailStartByte trim with
        | none => (.error (.err (.overflow "tail_start_byte" "overflow")), s)
        | some start =>
          (.ok (none, false),
            { s with
              tailStartByte := start
              tokenByteSpans := s.tokenByteSpans.filter fun (_, _, stop) => start < stop })
      else (.error .panic, s)
    else (.ok (none, false), s)
  else (.ok (none, false), s)

/-- Looks for a stop string in the text; when there is one, the tokens from it on are
cut off. -/
def checkStop (s : Sequence) (tokenIdx : ℕ) :
    SchedOutcome (Option FinishReason × Bool) × Sequence :=
  match s.req.stop.checkStopString s.detokenizedTail with
  | some (offset, stop) =>
    match add 64 s.tailStartByte offset with
    | none => (.error (.err (.overflow "match_byte" "match byte overflow")), s)
    | some matchByte =>
      let cut := s.cutToken matchByte tokenIdx
      (.ok (some (.stopString stop), decide (cut ≤ tokenIdx)),
        { s with generated := s.generated.take cut })
  | none => s.boundTail

/-- What happens once the text of a token is there: the budget wins over everything,
an unfinished character postpones the rest, and a stop token wins over stop
strings. -/
def afterText (s : Sequence) (d : ByteDetokenizer) (fillsBudget : Bool) (token tokenIdx : ℕ) :
    SchedOutcome (Option FinishReason × Bool) × Sequence :=
  if fillsBudget then (.ok (some .maxTokens, false), s)
  else if 0 < d.bufferedLen s.seqId then (.ok (none, false), s)
  else if s.req.stop.isEos token then (.ok (some (.eos token), false), s)
  else s.checkStop tokenIdx

/-- Appends a generated token: why the sequence finishes with it, if it does, and
whether the token is cut off again. -/
def appendGeneratedToken (s : Sequence) (token : ℕ) (d : ByteDetokenizer) :
    SchedOutcome (Option FinishReason × Bool) × Sequence × ByteDetokenizer :=
  let fillsBudget := s.req.maxTokens ≤ s.generated.length + 1
  let tokenIdx := s.generated.length
  match add 64 s.tailStartByte s.detokenizedTail.length with
  | none => (.error (.err (.overflow "tail_bytes" "tail byte offset overflow")), s, d)
  | some startByte =>
    match d.appendToken s.seqId token s.detokenizedTail with
    | (.error e, d, tail) => (.error (.err e), { s with detokenizedTail := tail }, d)
    | (.ok appended, d, tail) =>
      let s := { s with detokenizedTail := tail }
      match add 64 startByte appended with
      | none => (.error (.err (.overflow "tail_bytes" "token end byte overflow")), s, d)
      | some endByte =>
        let s := { s with generated := s.generated ++ [token] }
        let s := s.recordSpan tokenIdx startByte appended endByte
        let r := s.afterText d fillsBudget token tokenIdx
        (r.1, r.2, d)

end Sequence

end R9v

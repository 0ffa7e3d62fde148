import R9v.Sched.Error
import R9v.Lib.Utf8

/-!
# Requests

A request to generate tokens (`r9v-sched/src/types.rs`), with its sampling
parameters (`r9v-ir/src/op.rs`) and its stop criteria. A `Request` is what
`Request.newWithSeed` returns: its prompt is not empty, it asks for at least one
token, and its sampling parameters are in their ranges.

The strings of the source are UTF-8, and their lengths and offsets are counted in
bytes: a text is the list of its bytes here.
-/

namespace R9v

open Checked

/-- A text, as its bytes. -/
abbrev Text := List ℕ

/-! ### Sampling parameters -/

structure SamplingParams where
  temperature : Float32
  topK : ℕ
  topP : Float32
  minP : Float32
  repetitionPenalty : Float32
  presencePenalty : Float32
  frequencyPenalty : Float32
  logitBias : List (ℕ × Float32)

namespace SamplingParams

/-- An attribute that is not finite, or not in its range. -/
def checkField (name : String) (value : Float32) (outside : Bool) : List IrError :=
  if !value.isFinite || outside then [.opAttributeInvalid "sampling_params" name value] else []

/-- Everything that is wrong with the parameters. -/
def problems (p : SamplingParams) : List IrError :=
  checkField "temperature" p.temperature (p.temperature < 0.0) ++
  checkField "top_p" p.topP (p.topP ≤ 0.0 || 1.0 < p.topP) ++
  checkField "min_p" p.minP (p.minP < 0.0 || 1.0 < p.minP) ++
  checkField "repetition_penalty" p.repetitionPenalty (p.repetitionPenalty ≤ 0.0) ++
  checkField "presence_penalty" p.presencePenalty false ++
  checkField "frequency_penalty" p.frequencyPenalty false ++
  p.logitBias.flatMap fun (_, bias) => checkField "logit_bias" bias false

end SamplingParams

/-! ### Stop criteria -/

/-- When a sequence stops: at a token, or at a text. -/
structure StopCriteria where
  eosTokenIds : List ℕ
  stopStrings : List Text
  maxStopLen : ℕ
  deriving DecidableEq

namespace StopCriteria

/-- Criteria that keep as much text as the longest stop string. -/
def new (eosTokenIds : List ℕ) (stopStrings : List Text) : StopCriteria :=
  ⟨eosTokenIds, stopStrings, (stopStrings.map List.length).max?.getD 0⟩

def isEos (c : StopCriteria) (token : ℕ) : Bool := c.eosTokenIds.contains token

/-- The earlier of the best match so far and the first match of one string. -/
def earlier (text : Text) (earliest : Option (ℕ × Text)) (stop : Text) : Option (ℕ × Text) :=
  if stop = [] then earliest
  else
    match Utf8.find stop text, earliest with
    | none, _ => earliest
    | some idx, none => some (idx, stop)
    | some idx, some (best, s) => if idx < best then some (idx, stop) else some (best, s)

/-- The stop string that matches first in the text, and where. -/
def checkStopString (c : StopCriteria) (text : Text) : Option (ℕ × Text) :=
  c.stopStrings.foldl (earlier text) none

end StopCriteria

/-! ### Requests -/

/-- A request that passed its validation. -/
structure Request where
  id : ℕ
  tokens : List ℕ
  sampling : SamplingParams
  maxTokens : ℕ
  stop : StopCriteria
  stream : Bool
  seed : ℕ
  maxTokens_lt : maxTokens < 2 ^ 32
  tokens_ne : tokens ≠ []
  maxTokens_ne : maxTokens ≠ 0
  sampling_ok : sampling.problems = []

/-- Everything that is wrong with a request. -/
def requestProblems (tokens : List ℕ) (sampling : SamplingParams) (maxTokens : ℕ) :
    List RequestProblem :=
  (if tokens = [] then [.emptyPrompt] else []) ++
  (if maxTokens = 0 then [.zeroMaxTokens] else []) ++
  sampling.problems.map .sampling

/-- Validates a request. -/
def Request.newWithSeed (id : ℕ) (tokens : List ℕ) (sampling : SamplingParams) (maxTokens : ℕ)
    (stop : StopCriteria) (stream : Bool) (seed : ℕ) (hmax : maxTokens < 2 ^ 32) :
    SchedResult Request :=
  if h : requestProblems tokens sampling maxTokens = [] then
    have hall : tokens ≠ [] ∧ maxTokens ≠ 0 ∧ sampling.problems = [] := by
      simpa [requestProblems, and_assoc] using h
    .ok ⟨id, tokens, sampling, maxTokens, stop, stream, seed, hmax, hall.1, hall.2.1, hall.2.2⟩
  else .error (.invalidRequest (requestProblems tokens sampling maxTokens))

/-- The seed of a request is its id, unless it is given. -/
def Request.new (id : ℕ) (tokens : List ℕ) (sampling : SamplingParams) (maxTokens : ℕ)
    (stop : StopCriteria) (stream : Bool) (hmax : maxTokens < 2 ^ 32) : SchedResult Request :=
  Request.newWithSeed id tokens sampling maxTokens stop stream id hmax

end R9v

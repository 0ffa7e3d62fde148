import R9v.State.Error
import R9v.Ir.Bucket
import R9v.Registry.Variant

/-!
# Errors of the scheduler

The errors of `r9v-sched/src/error.rs`. A call of the scheduler ends with a value,
with one of these errors, or – where the source cuts a string inside a character –
by a panic.
-/

namespace R9v

/-- What is wrong with a request or with the configuration of the scheduler. Each
problem carries the numbers that its text reports. -/
inductive RequestProblem
  | emptyPrompt
  | zeroMaxTokens
  | sampling (e : IrError)
  | zeroMinChunk
  | chunkOrder (maxChunk minChunk : ℕ)
  | maxSeqs (value : ℕ)
  | kMax (value : ℕ)
  | zeroVocab
  | manualBudget (value : Float32)
  | minAccept (value : Float32)
  | zeroMaxOutstanding

/-- Why a step graph could not be captured. -/
inductive CaptureReason
  | noOps
  | noSample
  | unresolved (op : OpId) (desc e : String)
  | noTemplate (op : OpId) (desc : String)
  | noSlot (op : OpId) (workspaceBytes : ℕ)
  | unalignedSlot (op : OpId) (slot : ℕ)
  | undersizedBlob (op : OpId) (len slot required : ℕ)
  | noLaunches

/-- The errors of the scheduler. -/
inductive SchedError
  | state (e : StateError)
  | ir (e : IrError)
  | invalidRequest (problems : List RequestProblem)
  | arithmeticOverflow (what details : String)
  | arenaOverflow (required available shortfall : ℕ)
  | graphCaptureFailed (key : StepGraphKey) (reason : CaptureReason)
  | detokenizeError (detail : String)
  | executionFailed (detail : String)
  | invalidCost (context : String) (value : Float32)
  | capacityExceeded (outstanding maximum : ℕ)
  | staleStep (expected : Option ℕ) (got : ℕ)
  | internal (detail : String)

/-- The result of a computation of the scheduler that cannot panic. -/
abbrev SchedResult := Except SchedError

/-- The result of a call of the scheduler: a value, an error, or a panic. -/
abbrev SchedOutcome := Except (Checked.Fault SchedError)

/-- An overflow of a counter or of a length. -/
def SchedError.overflow (what details : String) : SchedError := .arithmeticOverflow what details

end R9v

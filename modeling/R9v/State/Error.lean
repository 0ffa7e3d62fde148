import R9v.Ir.Error

/-!
# Errors of the sequence-state manager

The errors of `r9v-state/src/error.rs`. Every call of the manager ends with a
value, with one of these errors, or – where the source indexes a vector without
asking – by a panic; `Outcome` is the type of all three.
-/

namespace R9v

/-- The largest value of a 32-bit word. -/
def u32Max : ℕ := 2 ^ 32 - 1

/-- One problem found while a configuration is validated: the layer or group it
is about (`u32Max` for the whole configuration), and what is wrong. -/
structure InvalidItem where
  index : ℕ
  reason : String
  deriving DecidableEq

/-- The errors of the sequence-state manager, with the numbers they report. The
field the source calls `end` is `stop` here. -/
inductive StateError
  | invalidConfig (problems : List InvalidItem)
  | unknownSeq (seq : ℕ)
  | seqLimit (live cap : ℕ)
  | poolExhausted (group required available shortfall stop maxCtx : ℕ)
  | reserveTooLarge (stop maxCtx n : ℕ)
  | invalidReserve (n tail : ℕ)
  | commitTooLarge (accepted tail : ℕ)
  | noReservation (seq : ℕ)
  | unmappedPosition (group pos stop : ℕ)
  | invalidCompact (len tail : ℕ) (detail : String)
  | invalidBatch (detail : String)
  | outOfRange (start len stop : ℕ)
  | overflow (what : String)
  | seqIdOverflow (seq max : ℕ)
  | ir (e : IrError)

/-- The result of a computation that cannot panic. -/
abbrev StateResult := Except StateError

/-- The result of a call of the manager: a value, an error, or a panic. -/
abbrev Outcome := Except (Checked.Fault StateError)

/-- The early return with an error. -/
abbrev fail (e : StateError) : Checked.Fault StateError := .err e

end R9v

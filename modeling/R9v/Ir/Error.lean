import R9v.Lib.Checked

/-!
# Errors of the operation representation

The errors that building batch metadata and tree masks, choosing a bucket and
checking sampling parameters can return (`r9v-ir/src/error.rs`). A constructor that checks several things reports every
failure at once: `IrError.fromProblems` is the rule that turns the list of
failures into no error, the only error, or all of them.
-/

namespace R9v

/-- The errors of batch metadata, of tree masks, of buckets and of sampling
parameters. An invalid attribute reports the number that it has. -/
inductive IrError
  | zeroBatchDim (g s t maxBlocks : ℕ)
  | batchLength (field : String) (expected actual : ℕ)
  | batchShapeOverflow (field : String) (factors : List ℕ)
  | missingField (field : String)
  | emptyQuery (seq : ℕ)
  | queryTokenCount (expected actual : ℕ)
  | treeBatchMismatch (treeT batchT : ℕ)
  | badParent (token : ℕ) (parent : ℤ) (t : ℕ)
  | selfParent (token : ℕ)
  | ancestorLength (t tMax expected actual : ℕ)
  | ancestorShapeOverflow (t tMax : ℕ)
  | zeroTreeMax (t : ℕ)
  | treeCycle (token : ℕ)
  | treeCycleStateTooSmall (required actual : ℕ)
  | treeCyclePathTooSmall (required actual : ℕ)
  | treeParentCrossesSequence (token : ℕ) (parent : ℤ) (seq seqStart seqEnd : ℕ)
  | treeMaxTooSmall (required actual : ℕ)
  | invalidBucket (axis : String) (value : ℕ)
  | bucketExceeded (axis : String) (value max : ℕ)
  | opAttributeInvalid (op field : String) (value : Float32)
  | multiple (problems : List IrError)

namespace IrError

/-- No failure is no error, one failure is that error, and several are reported
together. -/
def fromProblems : List IrError → Except IrError Unit
  | [] => .ok ()
  | [e] => .error e
  | problems => .error (.multiple problems)

@[simp] theorem fromProblems_eq_ok {problems : List IrError} {u : Unit} :
    fromProblems problems = .ok u ↔ problems = [] := by
  match problems with
  | [] => simp [fromProblems]
  | [e] => simp [fromProblems]
  | e :: e' :: l => simp [fromProblems]

end IrError

end R9v

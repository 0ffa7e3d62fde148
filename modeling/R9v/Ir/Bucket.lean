import R9v.Ir.Error
import Mathlib.Data.List.Basic

/-!
# Shape buckets

A step runs a captured graph, and graphs are captured for a few shapes only: the
number of sequences and the numbers of tokens are rounded up to a bucket
(`r9v-ir/src/graph.rs`).
-/

namespace R9v

open List

/-- The sizes of the buckets. -/
def bucketSizes : List ℕ := [1, 2, 4, 8, 16, 32, 64, 128, 256, 512, 1024, 2048, 4096]

/-- The first bucket that holds the value. -/
def bucketOf (axis : String) (value : ℕ) : Except IrError ℕ :=
  match bucketSizes.find? (value ≤ ·) with
  | some b => .ok b
  | none => .error (.bucketExceeded axis value 4096)

/-- The bucket of a number of sequences. -/
def bucketS (s : ℕ) : Except IrError ℕ :=
  if s = 0 then .error (.invalidBucket "S" s) else bucketOf "S" s

/-- The bucket of a number of decode tokens. -/
def bucketTDec (tDec : ℕ) : Except IrError ℕ :=
  if tDec = 0 then .error (.invalidBucket "T_dec" tDec) else bucketOf "T_dec" tDec

/-- The bucket of a number of prefill tokens; none is a bucket of its own. -/
def bucketTPre (tPre : ℕ) : Except IrError ℕ := if tPre = 0 then .ok 0 else bucketOf "T_pre" tPre

/-- The problem of a dimension, if it has no bucket. -/
def bucketProblem (x : Except IrError ℕ) : List IrError :=
  match x with
  | .ok _ => []
  | .error e => [e]

/-- The bucket of a dimension, which is zero where there is none. -/
def bucketValue (x : Except IrError ℕ) : ℕ :=
  match x with
  | .ok v => v
  | .error _ => 0

/-- The buckets of a step. -/
def bucketStep (s tDec tPre : ℕ) : Except IrError (ℕ × ℕ × ℕ) := do
  IrError.fromProblems
    (bucketProblem (bucketS s) ++ bucketProblem (bucketTDec tDec) ++ bucketProblem (bucketTPre tPre))
  pure (bucketValue (bucketS s), bucketValue (bucketTDec tDec), bucketValue (bucketTPre tPre))

/-- What a captured graph is for. -/
structure StepGraphKey where
  planId : ℕ
  rank : ℕ
  s : ℕ
  tDec : ℕ
  tPre : ℕ
  segment : ℕ
  deriving DecidableEq

/-- The fields of a key, in the order in which keys are compared. -/
def StepGraphKey.fields (key : StepGraphKey) : List ℕ :=
  [key.planId, key.rank, key.s, key.tDec, key.tPre, key.segment]

theorem StepGraphKey.fields_inj {a b : StepGraphKey} (h : a.fields = b.fields) : a = b := by
  obtain ⟨_, _, _, _, _, _⟩ := a
  obtain ⟨_, _, _, _, _, _⟩ := b
  simpa [StepGraphKey.fields] using h

instance : Ord StepGraphKey := ⟨fun a b => compare a.fields b.fields⟩

instance : Std.TransOrd StepGraphKey where
  eq_swap {a b} := @Std.OrientedOrd.eq_swap _ _ _ a.fields b.fields
  isLE_trans {a b c} h₁ h₂ := @Std.TransOrd.isLE_trans _ _ _ a.fields b.fields c.fields h₁ h₂

instance : Std.LawfulEqOrd StepGraphKey where
  compare_self {a} := @Std.ReflOrd.compare_self _ _ _ a.fields
  eq_of_compare {a b} h :=
    StepGraphKey.fields_inj (@Std.LawfulEqOrd.eq_of_compare _ _ _ a.fields b.fields h)

section Step

variable {chunk : ℕ}

theorem bucketTPre_cases (chunk : ℕ) :
    (chunk ≤ 4096 ∧ ∃ b, bucketTPre chunk = .ok b ∧ (b = 0 ∨ b ∈ bucketSizes)) ∨
      (4096 < chunk ∧ ∃ e, bucketTPre chunk = .error e) := by
  unfold bucketTPre
  split
  · exact Or.inl ⟨by omega, 0, rfl, Or.inl rfl⟩
  · unfold bucketOf
    split
    · rename_i b hb
      have hle : chunk ≤ b := by simpa using find?_some hb
      have hmem := mem_of_find?_eq_some hb
      refine Or.inl ⟨hle.trans ?_, b, rfl, Or.inr hmem⟩
      simp only [bucketSizes, mem_cons, not_mem_nil, or_false] at hmem
      omega
    · rename_i hnone
      have hlt := find?_eq_none.mp hnone 4096 (by decide)
      exact Or.inr ⟨by simpa using hlt, _, rfl⟩

/-- **A step of one sequence has buckets** exactly when its chunk fits the largest. -/
theorem bucketStep_one_cases (chunk : ℕ) :
    (chunk ≤ 4096 ∧ ∃ b, bucketStep 1 1 chunk = .ok (1, 1, b) ∧ (b = 0 ∨ b ∈ bucketSizes)) ∨
      (4096 < chunk ∧ ∃ e, bucketStep 1 1 chunk = .error e) := by
  have hs : bucketS 1 = .ok 1 := rfl
  have hdec : bucketTDec 1 = .ok 1 := rfl
  rcases bucketTPre_cases chunk with ⟨hle, b, hb, hmem⟩ | ⟨hlt, e, he⟩
  · refine Or.inl ⟨hle, b, ?_, hmem⟩
    simp only [bucketStep, hs, hdec, hb]
    rfl
  · refine Or.inr ⟨hlt, e, ?_⟩
    simp only [bucketStep, hs, hdec, he]
    rfl

end Step

end R9v

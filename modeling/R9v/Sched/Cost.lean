import R9v.Sched.Error

/-!
# Costs and budgets

The cost of a step, the budget that a step may use, and the choice of a prefill
chunk that fits (`r9v-sched/src/cost.rs`). A cost table is a function from shapes to
costs; everything else is computed from it. Costs are 32-bit floating-point numbers,
and one that is not finite or is negative is refused wherever it is used.
-/

namespace R9v

open Checked

/-- A cost must be finite and not negative. -/
def validateCostMs (context : String) (value : Float32) : SchedResult Float32 :=
  if !value.isFinite || value < 0.0 then .error (.invalidCost context value) else .ok value

/-- A budget must be finite and positive. -/
def validateBudgetMs (value : Float32) : SchedResult Float32 :=
  if !value.isFinite || value ≤ 0.0 then .error (.invalidCost "step_budget" value) else .ok value

inductive ProfileMode
  | latency
  | throughput
  deriving DecidableEq

inductive StepBudgetConfig
  | manual (ms : Float32)
  | auto
  deriving DecidableEq

/-- The measured costs: of `s` sequences, `tDec` decode tokens and `tPre` prefill
tokens. -/
structure CostTable where
  costMs : (s tDec tPre : ℕ) → SchedResult Float32

namespace CostTable

/-- The budget of a step. -/
def resolveBudgetMs (c : CostTable) (config : StepBudgetConfig) (profile : ProfileMode) :
    SchedResult Float32 :=
  match config with
  | .manual ms => validateBudgetMs ms
  | .auto => do
    let base ← c.costMs 1 1 0
    match profile with
    | .latency => validateBudgetMs (1.25 * base)
    | .throughput => validateBudgetMs (8.0 * base)

/-- The cost of the decode tokens of a step, if there are any. -/
def decodeCost (c : CostTable) (sDec tDec : ℕ) : SchedResult Float32 :=
  if 0 < sDec ∧ 0 < tDec then c.costMs sDec tDec 0 else .ok 0.0

/-- The part of the budget that is left for prefill tokens. -/
def prefillRoomMs (c : CostTable) (budget : Float32) (sDec tDec : ℕ) (preStep : Float32) :
    SchedResult Float32 := do
  ensure (budget.isFinite ∧ preStep.isFinite)
    (.invalidCost "prefill_room_inputs" (if !budget.isFinite then budget else preStep))
  let decode ← c.decodeCost sDec tDec
  pure (budget - decode - preStep)

/-- Whether a chunk fits the room. The next number of sequences is a 32-bit word. -/
def fits (c : CostTable) (sDec tDec : ℕ) (room decode : Float32) (chunk : ℕ) : SchedResult Bool := do
  let next ← c.costMs ((add 32 sDec 1).getD sDec) tDec chunk
  pure (next - decode ≤ room)

/-- The first of some chunks that fits. -/
def firstFit (c : CostTable) (sDec tDec : ℕ) (room decode : Float32) :
    List ℕ → SchedResult (Option ℕ)
  | [] => .ok none
  | b :: rest => do
    let ok ← c.fits sDec tDec room decode b
    if ok then pure (some b) else firstFit c sDec tDec room decode rest

/-- The chunk of a prompt that fits the room: all of a short rest, or the largest
bucket. -/
def selectPrefillChunk (c : CostTable) (remaining sDec tDec : ℕ) (room : Float32)
    (minChunk maxChunk : ℕ) : SchedResult (Option ℕ) := do
  ensure (room.isFinite) (.invalidCost "prefill_room" room)
  if room ≤ 0.0 ∨ remaining = 0 then pure none
  else do
    let decode ← c.decodeCost sDec tDec
    if remaining < minChunk then do
      let ok ← c.fits sDec tDec room decode minChunk
      pure (if ok then some remaining else none)
    else
      c.firstFit sDec tDec room decode
        (bucketSizes.reverse.filter fun b => minChunk ≤ b ∧ b ≤ maxChunk ∧ b ≤ remaining)

end CostTable

/-- The time that the host needs before a step: a tenth of the budget. -/
def estimatePreStepMs (budget : Float32) : Float32 :=
  if !budget.isFinite || budget ≤ 0.0 then 0.0 else budget * 0.10

/-- A cost table from a few measured shapes and a linear rule for the others. -/
structure CostTableStub where
  exactTable : List ((ℕ × ℕ × ℕ) × Float32)
  baseDecodeMs : Float32
  decodeTokenMs : Float32
  prefillTokenMs : Float32

/-- A count as a floating-point number. -/
def countMs (n : ℕ) : Float32 := (UInt32.ofNat n).toFloat32

/-- The cost of a shape, looked up by its buckets. -/
def CostTableStub.costMs (t : CostTableStub) (s tDec tPre : ℕ) : SchedResult Float32 :=
  let bS := (bucketS (max s 1)).toOption.getD 1
  let bDec := (bucketTDec (max tDec 1)).toOption.getD 1
  let bPre := (bucketTPre tPre).toOption.getD 0
  match t.exactTable.lookup (bS, bDec, bPre) with
  | some c => validateCostMs "cost_table" c
  | none =>
    let c := t.baseDecodeMs
    let c := if bS < bDec then c + countMs (bDec - bS) * t.decodeTokenMs else c
    let c := if 0 < bPre then c + countMs bPre * t.prefillTokenMs else c
    validateCostMs "cost_table" c

def CostTableStub.toTable (t : CostTableStub) : CostTable := ⟨t.costMs⟩

/-! ### The chunk that is chosen -/

section Chunk

variable {c : CostTable} {sDec tDec minChunk maxChunk remaining chunk : ℕ} {room decode : Float32}

theorem CostTable.firstFit_mem {l : List ℕ} (h : c.firstFit sDec tDec room decode l = .ok (some chunk)) :
    chunk ∈ l := by
  induction l with
  | nil => simp [firstFit] at h
  | cons b l ih =>
    simp only [firstFit, bind_eq_ok] at h
    obtain ⟨ok, -, h⟩ := h
    split at h
    · simp only [pure_eq_ok, Option.some.injEq] at h
      exact h ▸ List.mem_cons_self
    · exact List.mem_cons_of_mem _ (ih h)

/-- **The chunk that is chosen** is a part of what remains, and not too large; it is
a whole short rest, or a bucket. -/
theorem CostTable.selectPrefillChunk_bounds (hmin : 1 ≤ minChunk) (hle : minChunk ≤ maxChunk)
    (h : c.selectPrefillChunk remaining sDec tDec room minChunk maxChunk = .ok (some chunk)) :
    1 ≤ chunk ∧ chunk ≤ remaining ∧ chunk ≤ maxChunk ∧
      ((chunk = remaining ∧ remaining < minChunk) ∨ chunk ∈ bucketSizes) := by
  simp only [selectPrefillChunk, bind_eq_ok] at h
  obtain ⟨_, -, h⟩ := h
  split at h
  · simp at h
  · rename_i hroom
    obtain ⟨d, -, h⟩ := bind_eq_ok.mp h
    split at h
    · obtain ⟨ok, -, h⟩ := bind_eq_ok.mp h
      split at h
      · cases h
        exact ⟨by omega, le_rfl, by omega, Or.inl ⟨rfl, by assumption⟩⟩
      · simp at h
    · have hmem := firstFit_mem h
      simp only [List.mem_filter, List.mem_reverse, decide_eq_true_eq] at hmem
      exact ⟨by omega, by omega, by omega, Or.inr hmem.1⟩

end Chunk

end R9v

import R9v.T0.Verify
import Mathlib.Data.List.GetD
import Mathlib.Data.List.ProdSigma

/-!
# From logits to probabilities

The operation `logits_postprocess` of `r9v-t0/src/sampling.rs`, generic in the numbers it computes
with (`Logit`). It goes through the rows of a batch with buffers that it uses again for every row;
what a row becomes does not depend on what is in them (`postprocessRow_eq`). The probabilities are
staged, and reach the caller only if no row fails.
-/

namespace R9v

open Checked Scalar List

/-- What the postprocessing does with numbers. -/
class Logit (F : Type) extends Scalar F where
  negInf : F
  posInf : F
  isNaN : F → Bool
  eq : F → F → Bool
  /-- A count as a number. -/
  ofCount : ℕ → F

instance : Logit Float32 where
  negInf := -1.0 / 0.0
  posInf := 1.0 / 0.0
  isNaN := Float32.isNaN
  eq := Float32.beq
  ofCount := Float32.ofNat

namespace Postprocess

/-! ### Parameters -/

/-- The parameters of one sequence. -/
structure SamplingParams (F : Type) where
  temperature : F
  topK : ℕ
  topP : F
  minP : F
  repetitionPenalty : F
  presencePenalty : F
  frequencyPenalty : F
  logitBias : List (ℕ × F)

/-- What is wrong with a parameter. Where the text of the source shows the number, it is apart. -/
structure AttributeProblem (F : Type) where
  field : String
  reason : String
  got : F

inductive PostprocessError (F : Type)
  | t0 (e : T0Error F)
  /-- The parameters of a sequence are wrong, in one way or in several. -/
  | ir (problems : List (AttributeProblem F))
  | invalidLogit (op : String) (seq query token : ℕ) (value : F)
  | allTokensMasked (seq query vocabSize : ℕ)
  | multiple (problems : List (PostprocessError F))

def PostprocessError.fromProblems {F : Type} :
    List (PostprocessError F) → Except (PostprocessError F) Unit
  | [] => .ok ()
  | [e] => .error e
  | problems => .error (.multiple problems)

variable {F : Type} [Logit F]

/-- A number that is not finite, or not in its range. -/
def checkField (field reason : String) (value : F) (outside : Bool) :
    List (AttributeProblem F) :=
  if !isFinite value || outside then [⟨field, reason, value⟩] else []

def SamplingParams.problems (p : SamplingParams F) : List (AttributeProblem F) :=
  checkField "temperature" "must be finite and >= 0.0" p.temperature (lt p.temperature 0) ++
  checkField "top_p" "must be finite and in (0.0, 1.0]" p.topP (le p.topP 0 || lt 1 p.topP) ++
  checkField "min_p" "must be finite and in [0.0, 1.0]" p.minP (lt p.minP 0 || lt 1 p.minP) ++
  checkField "repetition_penalty" "must be finite and > 0.0" p.repetitionPenalty
    (le p.repetitionPenalty 0) ++
  checkField "presence_penalty" "must be finite" p.presencePenalty false ++
  checkField "frequency_penalty" "must be finite" p.frequencyPenalty false ++
  p.logitBias.flatMap fun (token, bias) =>
    checkField "logit_bias" s!"token {token} has non-finite bias" bias false

/-- What is wrong with the parameters of a sequence, given the number of tokens. -/
def paramProblems (v : ℕ) (p : SamplingParams F) : List (PostprocessError F) :=
  (if p.problems.isEmpty then [] else [.ir p.problems]) ++
  p.logitBias.zipIdx.flatMap fun ((token, _), position) =>
    if v ≤ token then
      [.t0 (.tokenOutOfRange "logits_postprocess" "logit_bias" position token v)]
    else []

/-! ### What becomes of the logits -/

/-- The bias of some tokens is added, each at its place. -/
def addBias (bias : List (ℕ × F)) (work : List F) : List F :=
  bias.foldl (fun work (token, bias) => work.set token (work.getD token 0 + bias)) work

/-- The penalties of a token, by how often it has occurred. -/
def penalize (p : SamplingParams F) (count : ℕ) (l : F) : F :=
  if 0 < count then
    let l := if !Logit.eq p.repetitionPenalty 1 then
      if lt 0 l then l / p.repetitionPenalty else l * p.repetitionPenalty else l
    let l := if !Logit.eq p.presencePenalty 0 then l - p.presencePenalty else l
    if !Logit.eq p.frequencyPenalty 0 then l - Logit.ofCount count * p.frequencyPenalty else l
  else l

def addPenalties (p : SamplingParams F) : Option (List ℕ) → List F → List F
  | some hist, work => work.zipWith (fun l count => penalize p count l) hist
  | none, work => work

def scaleTemperature (p : SamplingParams F) (work : List F) : List F :=
  if lt 0 p.temperature then work.map (· * (1 / p.temperature)) else work

def applyMask : Option (List Bool) → List F → List F
  | some mask, work => work.zipWith (fun l allowed => if allowed then l else Logit.negInf) mask
  | none, work => work

/-- The logits of a row with bias, penalties, temperature and mask. -/
def transform (p : SamplingParams F) (hist : Option (List ℕ)) (mask : Option (List Bool))
    (logits : List F) : List F :=
  applyMask mask (scaleTemperature p (addPenalties p hist (addBias p.logitBias logits)))

/-- Whether a logit stands for a token that is possible. -/
def unmasked (l : F) : Bool := lt Logit.negInf l

/-- No logit of a row is infinite or not a number. What stands for an impossible token is. -/
def checkLogits (seq query : ℕ) (row : List F) : Except (PostprocessError F) Unit :=
  forM row.zipIdx fun (logit, token) =>
    ensure (!(Logit.isNaN logit || Logit.eq logit Logit.posInf))
      (.invalidLogit "logits_postprocess" seq query token logit)

/-- The first token of the greatest logit. -/
def greedyToken (work : List F) : ℕ :=
  (work.zipIdx.foldl (fun (best : F × ℕ) (x : F × ℕ) => if lt best.1 x.1 then x else best)
    (Logit.negInf, 0)).2

/-! ### The softmax -/

/-- The exponential of each token is put in its place, and their sum is added up. -/
def expLoop (work : List F) (maxL : F) : List ℕ → List F × F → List F × F
  | [], st => st
  | tok :: toks, (expVals, sumExp) =>
    let l := work.getD tok 0
    if unmasked l then
      let e := exp (l - maxL)
      expLoop work maxL toks (expVals.set tok e, sumExp + e)
    else expLoop work maxL toks (expVals.set tok 0, sumExp)

/-! ### The filters -/

/-- Whether a token stands before another in the ranking, or is that token. Where two logits
cannot be compared the source takes them to be equal. -/
def rankLe (work : List F) (a b : ℕ) : Bool :=
  let x := -work.getD a 0
  let y := -work.getD b 0
  !(lt y x || (Logit.eq x y && decide (b < a)))

/-- The tokens that are possible, by their logits. -/
def ranking (work : List F) : List ℕ :=
  ((List.range work.length).filter fun i => unmasked (work.getD i 0)).insertionSort
    fun a b => rankLe work a b = true

def keepTopK (p : SamplingParams F) (candidates : List ℕ) : List ℕ :=
  if 0 < p.topK ∧ p.topK < candidates.length then candidates.take p.topK else candidates

/-- How many candidates it takes to reach a sum. -/
def nucleus (probs : List F) (topP : F) : F → List ℕ → ℕ
  | _, [] => 0
  | cumsum, idx :: rest =>
    let cumsum := cumsum + probs.getD idx 0
    if le topP cumsum then 1 else nucleus probs topP cumsum rest + 1

def keepTopP (p : SamplingParams F) (probs : List F) (candidates : List ℕ) : List ℕ :=
  if lt p.topP 1 then candidates.take (Nat.max (nucleus probs p.topP 0 candidates) 1)
  else candidates

def keepMinP (p : SamplingParams F) (probs : List F) (candidates : List ℕ) : List ℕ :=
  match candidates with
  | [] => []
  | first :: _ =>
    if lt 0 p.minP then
      let thresh := p.minP * probs.getD first 0
      let filtered := candidates.filter fun idx => le thresh (probs.getD idx 0)
      if filtered.isEmpty then candidates.take 1 else filtered
    else candidates

/-! ### One row -/

/-- What is used again for every row. -/
structure Buffers (F : Type) where
  workLogits : List F
  expVals : List F
  candMask : List Bool

/-- Copies a slice over another. -/
def copyFromSlice {α : Type} (dst src : List α) : List α := src.take dst.length ++
    dst.drop src.length

/-- The probabilities of the candidates, which sum up to 1 if they can. -/
def renormalize (probs : List F) (candidates : List ℕ) (candMask : List Bool) :
    Except (Fault (PostprocessError F)) (List F) :=
  let candSum := candidates.foldl (fun sum idx => sum + probs.getD idx 0) 0
  if lt 0 candSum && isFinite candSum then
    let invCandSum := 1 / candSum
    .ok (probs.zipIdx.map fun x => if candMask.getD x.2 false then x.1 * invCandSum else 0)
  else
    match candidates with
    | [] => .error .panic
    | first :: _ => .ok ((probs.map fun _ => 0).set first 1)

/-- Filters the probabilities of a row, with the marks of the candidates that are left. -/
def filterRow (p : SamplingParams F) (work probs : List F) (candMask : List Bool) :
    Except (Fault (PostprocessError F)) (List F × List Bool) := do
  let candidates := keepMinP p probs (keepTopP p probs (keepTopK p (ranking work)))
  let candMask := candidates.foldl (fun mask idx => mask.set idx true) (candMask.map fun _ => false)
  let out ← renormalize probs candidates candMask
  .ok (out, candMask)

def maxLogit (work : List F) : F := (work.filter unmasked).foldl Scalar.max Logit.negInf

/-- The row at a temperature above zero. -/
def softmaxRow (p : SamplingParams F) (work : List F) (seq query : ℕ) (buf : Buffers F)
    (outSlice : List F) : Except (Fault (PostprocessError F)) (List F × Buffers F) := do
  let exps := expLoop work (maxLogit work) (List.range outSlice.length) (buf.expVals, 0)
  lift (ensure (!(le exps.2 0 || !isFinite exps.2))
    (.t0 (.invalidDistribution "logits_postprocess" seq query exps.2)))
  let invSum := 1 / exps.2
  let probs := outSlice.zipIdx.map fun x => exps.1.getD x.2 0 * invSum
  let r ← filterRow p work probs buf.candMask
  .ok (r.1, ⟨work, exps.1, r.2⟩)

/-- The inputs of one row. -/
structure Row (F : Type) where
  params : SamplingParams F
  hist : Option (List ℕ)
  mask : Option (List Bool)
  logits : List F

/-- Computes one row, which has as many entries as the slice that it is written to. -/
def postprocessRow (row : Row F) (seq query : ℕ) (buf : Buffers F) (outSlice : List F) :
    Except (Fault (PostprocessError F)) (List F × Buffers F) := do
  let p := row.params
  let work := transform p row.hist row.mask (copyFromSlice buf.workLogits row.logits)
  lift (checkLogits seq query work)
  lift (ensure ((work.filter unmasked).length ≠ 0) (.allTokensMasked seq query outSlice.length))
  if Logit.eq p.temperature 0 then
    .ok ((outSlice.map fun _ => 0).set (greedyToken work) 1, { buf with workLogits := work })
  else softmaxRow p work seq query buf outSlice

/-! ### The batch -/

/-- A row of a tensor. -/
def getRow {α : Type} (v : ℕ) (l : List α) (row : ℕ) : List α := (l.drop (row * v)).take v

/-- A row of a tensor is written over. -/
def putRow {α : Type} (v : ℕ) (l : List α) (row : ℕ) (out : List α) : List α :=
  l.take (row * v) ++ out ++ l.drop (row * v + v)

structure PostprocessInput (F : Type) where
  logits : List F
  s : ℕ
  q : ℕ
  v : ℕ
  params : List (SamplingParams F)
  historyCounts : Option (List ℕ)
  grammarMask : Option (List Bool)

namespace PostprocessInput

variable (x : PostprocessInput F)

/-- The sequence and the query of each row, in order. -/
def rowIds : List (ℕ × ℕ) :=
  (List.range x.s).flatMap fun seq => (List.range x.q).map fun query => (seq, query)

/-- The number of a row. -/
def rowNo (id : ℕ × ℕ) : ℕ := id.1 * x.q + id.2

/-- The inputs of a row. -/
def row (p : SamplingParams F) (id : ℕ × ℕ) : Row F where
  params := p
  hist := x.historyCounts.map fun h => getRow x.v h id.1
  mask := x.grammarMask.map fun m => getRow x.v m (x.rowNo id)
  logits := getRow x.v x.logits (x.rowNo id)

/-- Everything that is checked before the first row. -/
def check (outLen : ℕ) : Except (PostprocessError F) Unit := do
  let s := x.s
  let q := x.q
  let v := x.v
  let expectedLen ← okOr ((mul 64 s q).bind (mul 64 · v))
    (.t0 (.shapeLengthMismatch "logits_postprocess" "logits" (2 ^ 64 - 1) x.logits.length
      "overflow computing S * q * V"))
  ensure (x.logits.length = expectedLen)
    (.t0 (.shapeLengthMismatch "logits_postprocess" "logits" expectedLen x.logits.length
      s!"logits length != S({s}) * q({q}) * V({v})"))
  ensure (outLen = expectedLen)
    (.t0 (.shapeLengthMismatch "logits_postprocess" "out_probs" expectedLen outLen
      s!"out_probs length != S({s}) * q({q}) * V({v})"))
  ensure (x.params.length = s)
    (.t0 (.shapeLengthMismatch "logits_postprocess" "params" s x.params.length
      s!"SamplingParams count != batch size S({s})"))
  ensure (¬(s = 0 ∨ q = 0 ∨ v = 0))
    (.t0 (.emptyInput "logits_postprocess" (if s = 0 then "S" else if q = 0 then "q" else "V")))
  PostprocessError.fromProblems (x.params.flatMap (paramProblems v))
  -- the product fits, since there is a query
  forM x.historyCounts.toList fun history => ensure (history.length = s * v)
    (.t0 (.shapeLengthMismatch "logits_postprocess" "history_counts" (s * v) history.length
      s!"history_counts length != S({s}) * V({v})"))
  forM x.grammarMask.toList fun mask => ensure (mask.length = expectedLen)
    (.t0 (.shapeLengthMismatch "logits_postprocess" "grammar_mask" expectedLen mask.length
      s!"grammar_mask length != S({s}) * q({q}) * V({v})"))
  forM x.rowIds fun id => checkLogits id.1 id.2 (getRow x.v x.logits (x.rowNo id))

/-- Computes the rows one by one into the staging buffer. -/
def stageRows : List (ℕ × ℕ) → Buffers F → List F → Except (Fault (PostprocessError F)) (List F)
  | [], _, staged => .ok staged
  | id :: ids, buf, staged => do
    let p ← orPanic x.params[id.1]?
    let r ← postprocessRow (x.row p id) id.1 id.2 buf (getRow x.v staged (x.rowNo id))
    stageRows ids r.2 (putRow x.v staged (x.rowNo id) r.1)

/-- The operation: what it returns, and what it leaves in the slice for the probabilities. -/
def logitsPostprocess (outProbs : List F) : Except (Fault (PostprocessError F)) Unit × List F :=
  match x.check outProbs.length with
  | .error e => (.error (.err e), outProbs)
  | .ok () =>
    let buf : Buffers F := ⟨List.replicate x.v 0, List.replicate x.v 0, List.replicate x.v false⟩
    match x.stageRows x.rowIds buf (List.replicate (x.s * x.q * x.v) 0) with
    | .error e => (.error e, outProbs)
    | .ok staged => (.ok (), copyFromSlice outProbs staged)

end PostprocessInput

/-! ### A row without the buffers -/

/-- The exponential of a logit, against the greatest one. -/
def expOf (maxL l : F) : F := if unmasked l then exp (l - maxL) else 0

/-- The sum of the exponentials. -/
def expSum (maxL : F) (work : List F) : F :=
  work.foldl (fun sum l => if unmasked l then sum + exp (l - maxL) else sum) 0

/-- The probabilities of a row before the filters. -/
def softmax (work : List F) : List F :=
  work.map fun l => expOf (maxLogit work) l * (1 / expSum (maxLogit work) work)

/-- The tokens that are left after the filters. -/
def survivors (p : SamplingParams F) (work : List F) : List ℕ :=
  keepMinP p (softmax work) (keepTopP p (softmax work) (keepTopK p (ranking work)))

def candSum (p : SamplingParams F) (work : List F) : F :=
  (survivors p work).foldl (fun sum idx => sum + (softmax work).getD idx 0) 0

/-- The probabilities of a row. -/
def rowProbs (p : SamplingParams F) (work : List F) : List F :=
  if Logit.eq p.temperature 0 then (work.map fun _ => 0).set (greedyToken work) 1
  else if lt 0 (candSum p work) && isFinite (candSum p work) then
    (softmax work).zipIdx.map fun x =>
      if x.2 ∈ survivors p work then x.1 * (1 / candSum p work) else 0
  else (work.map fun _ => 0).set ((survivors p work).headD 0) 1

section Loops

variable {work : List F} {maxL : F}

theorem length_expLoop (toks : List ℕ) (expVals : List F) (sumExp : F) :
    (expLoop work maxL toks (expVals, sumExp)).1.length = expVals.length := by
  induction toks generalizing expVals sumExp with
  | nil => rfl
  | cons tok toks ih =>
    rw [expLoop]
    split
    · rw [ih, length_set]
    · rw [ih, length_set]

/-- **The loop** leaves the exponential of each token that it goes through at its place. -/
theorem getD_expLoop (toks : List ℕ) (expVals : List F) (sumExp : F) {i : ℕ}
    (hi : i < expVals.length) :
    (expLoop work maxL toks (expVals, sumExp)).1.getD i 0 =
      if i ∈ toks then expOf maxL (work.getD i 0) else expVals.getD i 0 := by
  induction toks generalizing expVals sumExp with
  | nil => rfl
  | cons tok toks ih =>
    have hset : ∀ e : F, e = expOf maxL (work.getD tok 0) →
        (if i ∈ toks then expOf maxL (work.getD i 0) else (expVals.set tok e).getD i 0) =
          if i ∈ tok :: toks then expOf maxL (work.getD i 0) else expVals.getD i 0 := by
      rintro e rfl
      by_cases hmem : i ∈ toks
      · rw [if_pos hmem, if_pos (mem_cons_of_mem _ hmem)]
      · rw [if_neg hmem]
        by_cases heq : tok = i
        · subst heq
          rw [if_pos mem_cons_self, getD_eq_getElem?_getD, getElem?_set_self hi]
          rfl
        · rw [if_neg (by simp [hmem, Ne.symm heq]), getD_eq_getElem?_getD,
            getElem?_set_ne heq, ← getD_eq_getElem?_getD]
    rw [expLoop]
    split
    · rw [ih _ _ (by rw [length_set]; exact hi)]
      exact hset _ (by rw [expOf, if_pos ‹_›])
    · rw [ih _ _ (by rw [length_set]; exact hi)]
      exact hset _ (by rw [expOf, if_neg ‹_›])

theorem snd_expLoop (toks : List ℕ) (expVals : List F) (sumExp : F) :
    (expLoop work maxL toks (expVals, sumExp)).2 =
      (toks.map fun tok => work.getD tok 0).foldl
        (fun sum l => if unmasked l then sum + exp (l - maxL) else sum) sumExp := by
  induction toks generalizing expVals sumExp with
  | nil => rfl
  | cons tok toks ih =>
    rw [expLoop, map_cons, foldl_cons]
    split
    · exact ih _ _
    · exact ih _ _

theorem map_getD_range {α : Type} (l : List α) (d : α) :
    ((List.range l.length).map fun i => l.getD i d) = l := by
  refine ext_getElem (by simp) fun i _ hi => ?_
  rw [getElem_map, getElem_range, getD_eq_getElem _ _ hi]

theorem expLoop_eq {expVals : List F} (hlen : expVals.length = work.length) :
    expLoop work maxL (List.range work.length) (expVals, 0) =
      (work.map (expOf maxL), expSum maxL work) := by
  refine Prod.ext (ext_getElem ?_ fun i hi _ => ?_) ?_
  · rw [length_expLoop, length_map, hlen]
  · have hlt : i < expVals.length := by rwa [length_expLoop] at hi
    rw [← getD_eq_getElem _ 0 hi, getD_expLoop _ _ _ hlt,
      if_pos (mem_range.mpr (hlen ▸ hlt)), getElem_map,
      getD_eq_getElem _ _ (hlen ▸ hlt)]
  · rw [snd_expLoop, map_getD_range, expSum]

omit [Logit F] in
theorem getD_marks (l : List ℕ) (marks : List Bool) {i : ℕ} (hi : i < marks.length) :
    (l.foldl (fun marks idx => marks.set idx true) marks).getD i false =
      (decide (i ∈ l) || marks.getD i false) := by
  induction l generalizing marks with
  | nil => simp
  | cons idx l ih =>
    rw [foldl_cons, ih _ (by rw [length_set]; exact hi)]
    by_cases heq : idx = i
    · subst heq
      rw [getD_eq_getElem?_getD, getElem?_set_self hi]
      simp
    · rw [getD_eq_getElem?_getD, getElem?_set_ne heq, ← getD_eq_getElem?_getD]
      simp [Ne.symm heq]

theorem copyFromSlice_eq {α : Type} {dst src : List α} (h : dst.length = src.length) :
    copyFromSlice dst src = src := by
  rw [copyFromSlice, h, take_length, ← h, drop_length, append_nil]

theorem length_addBias (bias : List (ℕ × F)) (work : List F) :
    (addBias bias work).length = work.length := by
  induction bias generalizing work with
  | nil => rfl
  | cons b bias ih =>
    change (addBias bias (work.set b.1 (work.getD b.1 0 + b.2))).length = _
    rw [ih, length_set]

end Loops

/-! ### What a row becomes -/

/-- The parts of a row have one length. -/
structure Row.Sized (row : Row F) (v : ℕ) : Prop where
  logits : row.logits.length = v
  hist : ∀ h ∈ row.hist, h.length = v
  mask : ∀ m ∈ row.mask, m.length = v

structure Buffers.Sized (buf : Buffers F) (v : ℕ) : Prop where
  workLogits : buf.workLogits.length = v
  expVals : buf.expVals.length = v
  candMask : buf.candMask.length = v

/-- The logits of a row after bias, penalties, temperature and mask. -/
def Row.work (row : Row F) : List F := transform row.params row.hist row.mask row.logits

section RowSpec

variable {row : Row F} {v seq query : ℕ} {buf buf' : Buffers F} {outSlice out : List F}

theorem length_addPenalties {p : SamplingParams F} {o : Option (List ℕ)} {work : List F}
    (h : ∀ l ∈ o, l.length = work.length) : (addPenalties p o work).length = work.length := by
  cases o with
  | none => rfl
  | some l => rw [addPenalties, length_zipWith, h l rfl, Nat.min_self]

theorem length_scaleTemperature (p : SamplingParams F) (work : List F) :
    (scaleTemperature p work).length = work.length := by
  rw [scaleTemperature]
  split
  · exact length_map _
  · rfl

theorem length_applyMask {o : Option (List Bool)} {work : List F}
    (h : ∀ l ∈ o, l.length = work.length) : (applyMask o work).length = work.length := by
  cases o with
  | none => rfl
  | some l => rw [applyMask, length_zipWith, h l rfl, Nat.min_self]

theorem Row.Sized.length_scaled (h : row.Sized v) : (scaleTemperature row.params
    (addPenalties row.params row.hist (addBias row.params.logitBias row.logits))).length = v := by
  have hbias : (addBias row.params.logitBias row.logits).length = v := by
    rw [length_addBias, h.logits]
  rw [length_scaleTemperature, length_addPenalties fun l hl => (h.hist l hl).trans hbias.symm,
    hbias]

theorem Row.Sized.length_work (h : row.Sized v) : row.work.length = v := by
  rw [Row.work, transform, length_applyMask, h.length_scaled]
  exact fun l hl => by rw [h.length_scaled, h.mask l hl]

theorem length_softmax (work : List F) : (softmax work).length = work.length := length_map _

theorem mem_ranking {work : List F} {i : ℕ} :
    i ∈ ranking work ↔ i < work.length ∧ unmasked (work.getD i 0) = true := by
  rw [ranking, mem_insertionSort, mem_filter, mem_range]

/-- Some token is possible. -/
def Possible (work : List F) : Prop := (work.filter unmasked).length ≠ 0

theorem Possible.ranking_ne_nil {work : List F} (h : Possible work) : ranking work ≠ [] := by
  obtain ⟨l, hl⟩ := exists_mem_of_length_pos (Nat.pos_of_ne_zero h)
  obtain ⟨hmem, hun⟩ := mem_filter.mp hl
  obtain ⟨i, hi, rfl⟩ := getElem_of_mem hmem
  exact ne_nil_of_mem (mem_ranking.mpr ⟨hi, by rwa [getD_eq_getElem]⟩)

/-! ### The filters keep a candidate -/

section Filters

variable {p : SamplingParams F} {probs : List F} {candidates : List ℕ}

omit [Logit F] in
theorem keepTopK_eq_take : ∃ n, 0 < n ∧ keepTopK p candidates = candidates.take n ∧
    (0 < p.topK → n ≤ p.topK) := by
  rw [keepTopK]
  split_ifs with h
  · exact ⟨p.topK, h.1, rfl, fun _ => le_rfl⟩
  · rcases Nat.eq_zero_or_pos p.topK with hzero | hpos
    · exact ⟨candidates.length + 1, Nat.succ_pos _,
        (take_of_length_le (Nat.le_succ _)).symm, fun h => by omega⟩
    · exact ⟨p.topK, hpos, (take_of_length_le (by omega)).symm, fun _ => le_rfl⟩

theorem keepTopP_eq_take : ∃ n, 0 < n ∧ keepTopP p probs candidates = candidates.take n := by
  rw [keepTopP]
  split
  · exact ⟨_, Nat.lt_of_lt_of_le Nat.one_pos (Nat.le_max_right _ _), rfl⟩
  · exact ⟨candidates.length + 1, Nat.succ_pos _, (take_of_length_le (Nat.le_succ _)).symm⟩

theorem keepMinP_subset : keepMinP p probs candidates ⊆ candidates := by
  cases candidates with
  | nil => exact List.Subset.refl _
  | cons first rest =>
    rw [keepMinP]
    split
    · dsimp only
      split
      · exact take_subset _ _
      · exact filter_subset_self _
    · exact List.Subset.refl _

theorem keepMinP_ne_nil (h : candidates ≠ []) : keepMinP p probs candidates ≠ [] := by
  cases candidates with
  | nil => exact absurd rfl h
  | cons first rest =>
    rw [keepMinP]
    split
    · dsimp only
      split
      · exact cons_ne_nil _ _
      · next hfiltered =>
        exact fun hnil => hfiltered (isEmpty_iff.mpr hnil)
    · exact h

theorem take_ne_nil {n : ℕ} (hn : 0 < n) (h : candidates ≠ []) : candidates.take n ≠ [] := by
  rw [Ne, take_eq_nil_iff, not_or]
  exact ⟨hn.ne', h⟩

/-- **A candidate survives every filter.** -/
theorem Possible.survivors_ne_nil {work : List F} (h : Possible work) : survivors p work ≠ [] := by
  obtain ⟨n, hn, htopK, -⟩ := @keepTopK_eq_take F p (ranking work)
  obtain ⟨m, hm, htopP⟩ := @keepTopP_eq_take F _ p (softmax work) ((ranking work).take n)
  rw [survivors, htopK, htopP]
  exact keepMinP_ne_nil (take_ne_nil hm (take_ne_nil hn h.ranking_ne_nil))

theorem survivors_subset {work : List F} : survivors p work ⊆ ranking work := by
  obtain ⟨n, -, htopK, -⟩ := @keepTopK_eq_take F p (ranking work)
  obtain ⟨m, -, htopP⟩ := @keepTopP_eq_take F _ p (softmax work) ((ranking work).take n)
  rw [survivors, htopK, htopP]
  exact List.Subset.trans (List.Subset.trans keepMinP_subset (take_subset _ _))
    (take_subset _ _)

end Filters

theorem renormalize_eq {probs : List F} {candidates : List ℕ} {candMask : List Bool}
    (hne : candidates ≠ [])
      (hmask : ∀ i < probs.length, candMask.getD i false = decide (i ∈ candidates)) :
    renormalize probs candidates candMask = .ok
      (if lt 0 (candidates.foldl (fun sum idx => sum + probs.getD idx 0) 0) &&
          isFinite (candidates.foldl (fun sum idx => sum + probs.getD idx 0) 0) then
        probs.zipIdx.map fun x => if x.2 ∈ candidates then
          x.1 * (1 / candidates.foldl (fun sum idx => sum + probs.getD idx 0) 0) else 0
      else (probs.map fun _ => 0).set (candidates.headD 0) 1) := by
  unfold renormalize
  dsimp only
  split
  · congr 1
    refine map_congr_left fun x hx => ?_
    rw [hmask x.2 (snd_lt_of_mem_zipIdx hx)]
    simp only [decide_eq_true_eq]
  · obtain _ | ⟨first, rest⟩ := candidates
    · exact absurd rfl hne
    · rfl

/-- What is checked of a row on the way. -/
structure RowOk (row : Row F) (seq query : ℕ) : Prop where
  logits_ok : checkLogits seq query row.work = .ok ()
  possible : Possible row.work
  sum_ok : Logit.eq row.params.temperature 0 = false →
    le (expSum (maxLogit row.work) row.work) 0 = false ∧
      isFinite (expSum (maxLogit row.work) row.work) = true

omit [Logit F] in
theorem length_marks (l : List ℕ) (marks : List Bool) :
    (l.foldl (fun marks idx => marks.set idx true) marks).length = marks.length := by
  induction l generalizing marks with
  | nil => rfl
  | cons idx l ih => rw [foldl_cons, ih, length_set]

theorem filterRow_eq {p : SamplingParams F} {work : List F} {candMask : List Bool}
    (hpossible : Possible work) (hlen : candMask.length = work.length) :
    ∃ candMask', candMask'.length = work.length ∧
      filterRow p work (softmax work) candMask = .ok
        (if lt 0 (candSum p work) && isFinite (candSum p work) then
          (softmax work).zipIdx.map fun x =>
            if x.2 ∈ survivors p work then x.1 * (1 / candSum p work) else 0
        else (work.map fun _ => 0).set ((survivors p work).headD 0) 1, candMask') := by
  refine ⟨(survivors p work).foldl (fun mask idx => mask.set idx true)
    (candMask.map fun _ => false), ?_, ?_⟩
  · rw [length_marks, length_map, hlen]
  · have hmask : ∀ i < (softmax work).length, ((survivors p work).foldl
        (fun mask idx => mask.set idx true) (candMask.map fun _ => false)).getD i false =
          decide (i ∈ survivors p work) := by
      intro i hi
      rw [length_softmax, ← hlen] at hi
      rw [getD_marks _ _ (by rwa [length_map]),
        getD_eq_getElem _ _ (by rwa [length_map]),
        getElem_map, Bool.or_false]
    have hzero : (softmax work).map (fun _ => (0 : F)) = work.map fun _ => 0 := by
      rw [map_const', map_const', length_softmax]
    have hout := renormalize_eq (hpossible.survivors_ne_nil (p := p)) hmask
    rw [hzero] at hout
    unfold filterRow
    dsimp only
    rw [show keepMinP p (softmax work) (keepTopP p (softmax work) (keepTopK p (ranking work))) =
      survivors p work from rfl, hout]
    rfl

theorem softmaxRow_spec {p : SamplingParams F} {work : List F} (hwork : work.length = v)
    (hpossible : Possible work) (hbuf : buf.Sized v) (hout : outSlice.length = v)
    (htemp : Logit.eq p.temperature 0 = false) :
    (∃ e, softmaxRow p work seq query buf outSlice = .error (.err e)) ∨
      (le (expSum (maxLogit work) work) 0 = false ∧
        isFinite (expSum (maxLogit work) work) = true) ∧
      ∃ buf', buf'.Sized v ∧
        softmaxRow p work seq query buf outSlice = .ok (rowProbs p work, buf') := by
  have hexps : expLoop work (maxLogit work) (List.range outSlice.length) (buf.expVals, 0) =
      (work.map (expOf (maxLogit work)), expSum (maxLogit work) work) := by
    rw [hout, ← hwork]
    exact expLoop_eq (hbuf.expVals.trans hwork.symm)
  have hprobs : (outSlice.zipIdx.map fun x =>
      (work.map (expOf (maxLogit work))).getD x.2 0 * (1 / expSum (maxLogit work) work)) =
        softmax work := by
    refine ext_getElem ?_ fun i hi hi' => ?_
    · rw [length_map, length_zipIdx, length_softmax, hout, hwork]
    · rw [length_softmax] at hi'
      simp only [getElem_map, getElem_zipIdx, Nat.zero_add, softmax]
      rw [getD_eq_getElem _ _ (by rwa [length_map]), getElem_map]
  unfold softmaxRow
  rw [hexps]
  dsimp only
  by_cases hsum : (!(le (expSum (maxLogit work) work) 0 ||
      !isFinite (expSum (maxLogit work) work))) = true
  · obtain ⟨candMask, hlen, hfilter⟩ := @filterRow_eq F _ p work buf.candMask hpossible
      (hbuf.candMask.trans hwork.symm)
    have hneg : ¬Logit.eq p.temperature 0 = true := by
      rw [htemp]
      exact Bool.false_ne_true
    rw [ensure_of hsum, lift_ok, ok_bind, hprobs, hfilter, ok_bind, rowProbs, if_neg hneg]
    refine Or.inr ⟨by simpa using hsum, _, ⟨hwork, ?_, hlen.trans hwork⟩, rfl⟩
    rw [length_map, hwork]
  · rw [ensure_of_not hsum]
    exact Or.inl ⟨_, rfl⟩

/-- **A row** is computed from its inputs alone, and leaves the buffers as long as they were. It
fails with an error if it fails. -/
theorem postprocessRow_spec (hrow : row.Sized v) (hbuf : buf.Sized v) (hout : outSlice.length = v) :
    (∃ e, postprocessRow row seq query buf outSlice = .error (.err e)) ∨
      RowOk row seq query ∧ ∃ buf', buf'.Sized v ∧
        postprocessRow row seq query buf outSlice = .ok (rowProbs row.params row.work, buf') := by
  have hcopy : transform row.params row.hist row.mask (copyFromSlice buf.workLogits row.logits) =
      row.work := by
    rw [copyFromSlice_eq (hbuf.workLogits.trans hrow.logits.symm)]
    rfl
  have hlen := hrow.length_work
  unfold postprocessRow
  dsimp only
  rw [hcopy]
  cases hlogits : checkLogits seq query row.work with
  | error e => exact Or.inl ⟨e, rfl⟩
  | ok _ =>
    by_cases hpossible : (row.work.filter unmasked).length ≠ 0
    · rw [ensure_of hpossible, lift_ok, ok_bind, ok_bind]
      cases htemp : Logit.eq row.params.temperature 0 with
      | true =>
        have hzero : outSlice.map (fun _ => (0 : F)) = row.work.map fun _ => 0 := by
          rw [map_const', map_const', hout, hlen]
        refine Or.inr ⟨⟨hlogits, hpossible, fun h => ?_⟩, { buf with workLogits := row.work },
          ⟨hlen, hbuf.expVals, hbuf.candMask⟩, ?_⟩
        · rw [htemp] at h
          cases h
        · rw [rowProbs, if_pos htemp, if_pos rfl, hzero]
      | false =>
        refine (softmaxRow_spec hlen hpossible hbuf hout htemp).imp_right ?_
        rintro ⟨hsum, hbuf'⟩
        exact ⟨⟨hlogits, hpossible, fun _ => hsum⟩, hbuf'⟩
    · rw [ensure_of_not hpossible]
      exact Or.inl ⟨_, rfl⟩

end RowSpec

/-! ### The rows of a batch -/

section Splice

variable {α : Type} {l out : List α} {v n row r i : ℕ}

theorem length_putRow (hl : l.length = n * v) (hrow : row < n) (hout : out.length = v) :
    (putRow v l row out).length = n * v := by
  have hle : row * v + v ≤ n * v := by
    rw [← Nat.succ_mul]
    exact Nat.mul_le_mul_right v hrow
  rw [putRow, length_append, length_append, length_take, length_drop, hl, hout]
  omega

theorem getElem?_putRow (hl : l.length = n * v) (hrow : row < n) (hout : out.length = v) :
    (putRow v l row out)[i]? =
      if row * v ≤ i ∧ i < row * v + v then out[i - row * v]? else l[i]? := by
  have hle : row * v + v ≤ n * v := by
    rw [← Nat.succ_mul]
    exact Nat.mul_le_mul_right v hrow
  have htake : (l.take (row * v)).length = row * v := by
    rw [length_take]
    omega
  rw [putRow, append_assoc]
  by_cases hlow : i < row * v
  · rw [getElem?_append_left (htake.symm ▸ hlow), getElem?_take_of_lt hlow,
      if_neg (by omega)]
  · rw [getElem?_append_right (by omega), htake]
    by_cases hhigh : i < row * v + v
    · rw [getElem?_append_left (by omega), if_pos ⟨by omega, hhigh⟩]
    · rw [getElem?_append_right (by omega), getElem?_drop, if_neg (by omega), hout]
      congr 1
      omega

theorem getElem?_getRow : (getRow v l r)[i]? = if i < v then l[r * v + i]? else none := by
  rw [getRow, getElem?_take]
  split
  · rw [getElem?_drop]
  · rfl

theorem getRow_putRow (hl : l.length = n * v) (hrow : row < n) (hout : out.length = v) :
    getRow v (putRow v l row out) row = out := by
  refine ext_getElem? fun i => ?_
  rw [getElem?_getRow, getElem?_putRow hl hrow hout]
  split
  · rw [if_pos ⟨by omega, by omega⟩, Nat.add_sub_cancel_left]
  · rw [getElem?_eq_none (by omega)]

theorem getRow_putRow_of_ne (hl : l.length = n * v) (hrow : row < n) (hout : out.length = v)
    (hne : r ≠ row) : getRow v (putRow v l row out) r = getRow v l r := by
  refine ext_getElem? fun i => ?_
  rw [getElem?_getRow, getElem?_getRow, getElem?_putRow hl hrow hout]
  split
  · rw [if_neg]
    rcases Nat.lt_or_gt_of_ne hne with h | h
    · have := Nat.mul_le_mul_right v (Nat.succ_le_of_lt h)
      rw [Nat.succ_mul] at this
      omega
    · have := Nat.mul_le_mul_right v (Nat.succ_le_of_lt h)
      rw [Nat.succ_mul] at this
      omega
  · rfl

end Splice

theorem length_rowProbs (p : SamplingParams F) (work : List F) :
    (rowProbs p work).length = work.length := by
  rw [rowProbs]
  split
  · rw [length_set, length_map]
  · split
    · rw [length_map, length_zipIdx, length_softmax]
    · rw [length_set, length_map]

namespace PostprocessInput

variable {x : PostprocessInput F} {ids : List (ℕ × ℕ)} {buf : Buffers F} {staged : List F} {n : ℕ}

/-- What the result has for a row: the parameters of its sequence, and its probabilities. -/
def Computed (x : PostprocessInput F) (out : List F) (id : ℕ × ℕ) : Prop :=
  ∃ p, x.params[id.1]? = some p ∧ RowOk (x.row p id) id.1 id.2 ∧
    getRow x.v out (x.rowNo id) = rowProbs p (x.row p id).work

/-- **The rows** are computed one by one, each from its own inputs. -/
theorem stageRows_spec (hparams : ∀ id ∈ ids, id.1 < x.params.length)
    (hsized : ∀ id ∈ ids, ∀ p, (x.row p id).Sized x.v) (hno : ∀ id ∈ ids, x.rowNo id < n)
    (hnodup : (ids.map x.rowNo).Nodup) (hbuf : buf.Sized x.v) (hlen : staged.length = n * x.v) :
    (∃ e, x.stageRows ids buf staged = .error (.err e)) ∨
      ∃ out, x.stageRows ids buf staged = .ok out ∧ out.length = n * x.v ∧
        (∀ r, r ∉ ids.map x.rowNo → getRow x.v out r = getRow x.v staged r) ∧
        ∀ id ∈ ids, x.Computed out id := by
  induction ids generalizing buf staged with
  | nil => exact Or.inr ⟨staged, rfl, hlen, fun _ _ => rfl, fun _ h => absurd h not_mem_nil⟩
  | cons id ids ih =>
    obtain ⟨hid, hids⟩ := forall_mem_cons.mp hparams
    obtain ⟨hsid, hsids⟩ := forall_mem_cons.mp hsized
    obtain ⟨hnid, hnids⟩ := forall_mem_cons.mp hno
    rw [map_cons, nodup_cons] at hnodup
    have hp : x.params[id.1]? = some x.params[id.1] := getElem?_eq_getElem hid
    have hle : x.rowNo id * x.v + x.v ≤ n * x.v := by
      rw [← Nat.succ_mul]
      exact Nat.mul_le_mul_right _ hnid
    have hslice : (getRow x.v staged (x.rowNo id)).length = x.v := by
      rw [getRow, length_take, length_drop, hlen]
      omega
    unfold stageRows
    rw [hp]
    change (∃ e, (postprocessRow (x.row x.params[id.1] id) id.1 id.2 buf
      (getRow x.v staged (x.rowNo id)) >>= _) = _) ∨ ∃ out, (postprocessRow
        (x.row x.params[id.1] id) id.1 id.2 buf (getRow x.v staged (x.rowNo id)) >>= _) = _ ∧ _
    rcases @postprocessRow_spec F _ (x.row x.params[id.1] id) x.v id.1 id.2 buf _
      (hsid _) hbuf hslice with ⟨e, he⟩ | ⟨hok, buf', hbuf', hrow⟩
    · rw [he]
      exact Or.inl ⟨e, rfl⟩
    · have hout : (rowProbs x.params[id.1] (x.row x.params[id.1] id).work).length = x.v := by
        rw [length_rowProbs, (hsid _).length_work]
      rw [hrow, ok_bind]
      refine (ih hids hsids hnids hnodup.2 hbuf' (length_putRow hlen hnid hout)).imp_right ?_
      rintro ⟨out, hrun, hlength, hkept, hall⟩
      refine ⟨out, hrun, hlength, fun r hr => ?_, forall_mem_cons.mpr ⟨?_, hall⟩⟩
      · rw [map_cons, mem_cons, not_or] at hr
        rw [hkept r hr.2, getRow_putRow_of_ne hlen hnid hout hr.1]
      · refine ⟨_, hp, hok, ?_⟩
        rw [hkept _ hnodup.1]
        exact getRow_putRow hlen hnid hout

/-- What is checked before the first row. -/
structure Accepts (x : PostprocessInput F) (outLen : ℕ) : Prop where
  s_pos : 0 < x.s
  q_pos : 0 < x.q
  v_pos : 0 < x.v
  size_lt : x.s * x.q * x.v < 2 ^ 64
  logits_length : x.logits.length = x.s * x.q * x.v
  out_length : outLen = x.s * x.q * x.v
  params_length : x.params.length = x.s
  params_ok : ∀ p ∈ x.params, paramProblems x.v p = []
  hist_length : ∀ h ∈ x.historyCounts, h.length = x.s * x.v
  mask_length : ∀ m ∈ x.grammarMask, m.length = x.s * x.q * x.v
  logits_ok : ∀ id ∈ x.rowIds, checkLogits id.1 id.2 (getRow x.v x.logits (x.rowNo id)) = .ok ()

omit [Logit F] in
theorem fromProblems_eq_ok {problems : List (PostprocessError F)} {r : Unit} :
    PostprocessError.fromProblems problems = .ok r ↔ problems = [] := by
  obtain _ | ⟨e, _ | ⟨e', l⟩⟩ := problems
  · exact iff_of_true rfl rfl
  · exact iff_of_false (fun h => by cases h) (cons_ne_nil _ _)
  · exact iff_of_false (fun h => by cases h) (cons_ne_nil _ _)

theorem accepts_of_check {outLen : ℕ} (h : x.check outLen = .ok ()) : x.Accepts outLen := by
  simp only [check, bind_eq_ok, okOr_eq_ok, ensure_eq_ok, forM_eq_ok, fromProblems_eq_ok,
    Option.bind_eq_some_iff, mul_eq_some, Option.mem_toList, flatMap_eq_nil_iff] at h
  obtain ⟨-, ⟨-, ⟨-, rfl⟩, hsize, rfl⟩, -, hlogits, -, hout, -, hparams, -, hpos, -, hok, -, hhist,
      -,
    hmask, hrows⟩ := h
  exact ⟨by omega, by omega, by omega, hsize, hlogits, hout, hparams, hok, hhist, hmask, hrows⟩

omit [Logit F] in
theorem mem_rowIds {id : ℕ × ℕ} : id ∈ x.rowIds ↔ id.1 < x.s ∧ id.2 < x.q := by
  exact mem_product.trans (and_congr mem_range mem_range)

omit [Logit F] in
theorem rowNo_lt {id : ℕ × ℕ} (h : id ∈ x.rowIds) : x.rowNo id < x.s * x.q := by
  obtain ⟨hseq, hquery⟩ := mem_rowIds.mp h
  have hle := Nat.mul_le_mul_right x.q (Nat.succ_le_of_lt hseq)
  rw [Nat.succ_mul] at hle
  rw [rowNo]
  omega

omit [Logit F] in
theorem nodup_rowNo : (x.rowIds.map x.rowNo).Nodup := by
  refine Nodup.map_on (fun a ha b hb h => ?_) (nodup_range.product nodup_range)
  have hdiv : ∀ id ∈ x.rowIds, x.rowNo id / x.q = id.1 ∧ x.rowNo id % x.q = id.2 := by
    intro id hid
    have hlt := (mem_rowIds.mp hid).2
    rw [rowNo, Nat.add_comm, Nat.add_mul_div_right _ _ (by omega), Nat.div_eq_of_lt hlt,
      Nat.zero_add,
      Nat.add_mul_mod_self_right, Nat.mod_eq_of_lt hlt]
    exact ⟨rfl, rfl⟩
  have ha := hdiv a ha
  rw [h, (hdiv b hb).1, (hdiv b hb).2] at ha
  exact Prod.ext ha.1.symm ha.2.symm

theorem Accepts.sized {outLen : ℕ} (h : x.Accepts outLen) {id : ℕ × ℕ} (hid : id ∈ x.rowIds)
    (p : SamplingParams F) : (x.row p id).Sized x.v := by
  have hrow : ∀ {α : Type} {l : List α} {n r : ℕ}, l.length = n * x.v → r < n →
      (getRow x.v l r).length = x.v := by
    intro α l n r hl hr
    have hle := Nat.mul_le_mul_right x.v (Nat.succ_le_of_lt hr)
    rw [Nat.succ_mul] at hle
    rw [getRow, length_take, length_drop, hl]
    omega
  refine ⟨hrow h.logits_length (rowNo_lt hid), fun l hl => ?_, fun l hl => ?_⟩
  · obtain ⟨hist, hhist, rfl⟩ := Option.map_eq_some_iff.mp hl
    exact hrow (h.hist_length hist hhist) (mem_rowIds.mp hid).1
  · obtain ⟨mask, hmask, rfl⟩ := Option.map_eq_some_iff.mp hl
    exact hrow (h.mask_length mask hmask) (rowNo_lt hid)

/-- **A call fails with an error and changes nothing, or computes every row.** -/
theorem logitsPostprocess_cases (x : PostprocessInput F) (outProbs : List F) :
    (∃ e, x.logitsPostprocess outProbs = (.error (.err e), outProbs)) ∨
      x.Accepts outProbs.length ∧ ∃ out, x.logitsPostprocess outProbs = (.ok (), out) ∧
        out.length = x.s * x.q * x.v ∧ ∀ id ∈ x.rowIds, x.Computed out id := by
  unfold logitsPostprocess
  cases hcheck : x.check outProbs.length with
  | error e => exact Or.inl ⟨e, rfl⟩
  | ok _ =>
    have haccepts := accepts_of_check hcheck
    have hbuf : Buffers.Sized (⟨List.replicate x.v 0, List.replicate x.v 0,
        List.replicate x.v false⟩ : Buffers F) x.v :=
      ⟨length_replicate, length_replicate, length_replicate⟩
    dsimp only
    rcases @stageRows_spec F _ x x.rowIds _ (List.replicate (x.s * x.q * x.v) 0) (x.s * x.q)
      (fun id hid => haccepts.params_length ▸ (mem_rowIds.mp hid).1)
        (fun id hid => haccepts.sized hid)
      (fun id hid => rowNo_lt hid) nodup_rowNo hbuf length_replicate with
      ⟨e, he⟩ | ⟨out, hout, hlen, -, hall⟩
    · rw [he]
      exact Or.inl ⟨e, rfl⟩
    · rw [hout]
      refine Or.inr ⟨haccepts, out, ?_, hlen, hall⟩
      dsimp only
      rw [copyFromSlice_eq (haccepts.out_length.trans hlen.symm)]

end PostprocessInput

end Postprocess

end R9v

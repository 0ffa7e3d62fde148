import R9v.T0.Philox
import R9v.Ir.Batch
import Mathlib.Data.List.Sort

/-!
# Sampling and speculative verification

The operations `sample` and `verify` of `r9v-t0/src/sampling.rs`. They are generic in the
numbers they compute with (`Scalar`): on the device these are of type `Float32`, and in an
idealization they are exact. They are also generic in the random numbers, which the device
takes from `RngState.drawAt`. A computation that draws (`Drawn`) keeps a log, so that one can
tell what it has read.
-/

namespace R9v

open Checked

/-! ### Numbers -/

/-- What sampling does with numbers. -/
class Scalar (F : Type) extends Zero F, One F, Add F, Sub F, Mul F, Div F, Neg F where
  lt : F → F → Bool
  le : F → F → Bool
  isFinite : F → Bool
  min : F → F → F
  max : F → F → F
  abs : F → F
  exp : F → F
  ln : F → F
  /-- How far from 1 the sum of a distribution may be. -/
  tolerance : F

-- `min` and `max` of the source return the other number when one is not a number
instance : Scalar Float32 where
  zero := 0
  one := 1
  lt a b := decide (a < b)
  le a b := decide (a ≤ b)
  isFinite := Float32.isFinite
  min a b := if a < b ∨ b.isNaN then a else b
  max a b := if b < a ∨ b.isNaN then a else b
  abs := Float32.abs
  exp := Float32.exp
  ln := Float32.log
  tolerance := 1.0e-3

/-! ### Logged draws -/

/-- What a computation leaves in its log: that it has read a draw, or that it has replaced a
token although nothing is left of its distribution. -/
inductive Mark
  | read (draw : ℕ)
  | zeroResidual
  deriving DecidableEq

/-- The draw that was read, if there was one. -/
def Mark.draw? : Mark → Option ℕ
  | .read draw => some draw
  | .zeroResidual => none

/-- A value, and the log of how it was computed. -/
structure Drawn (α : Type) where
  value : α
  log : List Mark

namespace Drawn

variable {α β : Type}

instance : Monad Drawn where
  pure a := ⟨a, []⟩
  bind x f := ⟨(f x.value).value, x.log ++ (f x.value).log⟩

/-- Reads a draw. -/
def read {F : Type} (u : ℕ → F) (draw : ℕ) : Drawn F := ⟨u draw, [.read draw]⟩

@[simp] theorem value_pure (a : α) : (pure a : Drawn α).value = a := rfl

@[simp] theorem log_pure (a : α) : (pure a : Drawn α).log = [] := rfl

@[simp] theorem value_bind (x : Drawn α) (f : α → Drawn β) :
    (x >>= f).value = (f x.value).value := rfl

@[simp] theorem log_bind (x : Drawn α) (f : α → Drawn β) :
    (x >>= f).log = x.log ++ (f x.value).log := rfl

end Drawn

/-- What a call returns, the states it leaves, and for each sequence the log. -/
structure Sampled (F α : Type) where
  result : Except (T0Error F) α
  states : List RngState
  logs : List (List Mark)

variable {F : Type} [Scalar F]

open Scalar

/-! ### Distributions -/

/-- A row of a tensor, whose rows have `v` entries. -/
def dist (v : ℕ) (probs : List F) (row : ℕ) : List F := (probs.drop (row * v)).take v

/-- Every entry is finite and not negative, and the sum is about 1. -/
def validateDistribution (probs : List F) (op : String) (seq pos : ℕ) :
    Except (T0Error F) Unit := do
  forM probs.zipIdx fun (value, token) =>
    ensure (isFinite value && !lt value 0) (.invalidProbability op seq pos token value)
  let sum := probs.foldl (· + ·) 0
  ensure (isFinite sum && !le sum 0 && !lt tolerance (Scalar.abs (sum - 1)))
    (.invalidDistribution op seq pos sum)

/-- The first token at which the sum so far reaches `u`. -/
def reach (u : F) : F → ℕ → List F → Option ℕ
  | _, _, [] => none
  | cumsum, tok, p :: probs =>
    if le u (cumsum + p) then some tok else reach u (cumsum + p) (tok + 1) probs

/-- The last token that has a probability, or the first token. -/
def lastPositive (probs : List F) : ℕ :=
  ((List.range probs.length).reverse.find? fun tok => lt 0 (probs.getD tok 0)).getD 0

/-- The token at `u`. -/
def sampleFromDistribution (probs : List F) (u : F) : ℕ :=
  (reach u 0 0 probs).getD (lastPositive probs) % 2 ^ 32

/-- The first token of the greatest probability. The entries are finite, so that the first
of them is more than what the source starts with. -/
def argmaxStable : List F → ℕ
  | [] => 0
  | p :: probs =>
    (probs.zipIdx 1).foldl (fun (best : F × ℕ) (x : F × ℕ) => if lt best.1 x.1 then x else best)
      (p, 0) |>.2

/-! ### Sampling -/

/-- Samples a token in each row, with the next draw of its sequence. -/
def sampleRows (draw : RngState → ℕ → F) (probs : List F) (v : ℕ) :
    ℕ → List RngState → Sampled F (List ℕ)
  | _, [] => ⟨.ok [], [], []⟩
  | seq, rng :: rngs =>
    match rng.checkedAdvance 1 "RngState::draw_uniform_f32" with
    | .error e => ⟨.error e, rng :: rngs, []⟩
    | .ok rng' =>
      let u := Drawn.read (draw rng) rng.drawIndex
      let chosen := (reach u.value 0 0 (dist v probs seq)).getD (v - 1) % 2 ^ 32
      let rest := sampleRows draw probs v (seq + 1) rngs
      ⟨rest.result.map (chosen :: ·), rng' :: rest.states, u.log :: rest.logs⟩

def checkSample (probs : List F) (s v : ℕ) (rngStates : List RngState) :
    Except (T0Error F) Unit := do
  ensure (¬(s = 0 ∨ v = 0)) (.emptyInput "sample" (if s = 0 then "S" else "V"))
  let expectedLen ← okOr (mul 64 s v)
    (.shapeLengthMismatch "sample" "probs" (2 ^ 64 - 1) probs.length "overflow computing S * V")
  ensure (probs.length = expectedLen) (.shapeLengthMismatch "sample" "probs" expectedLen probs.length
    s!"probs length != S({s}) * V({v})")
  ensure (rngStates.length = s) (.shapeLengthMismatch "sample" "rng_states" s rngStates.length
    s!"rng_states count != S({s})")
  forM (List.range s) fun seq => validateDistribution (dist v probs seq) "sample" seq 0
  forM rngStates fun rng => rng.ensureCanAdvance 1 "sample"

/-- Samples a token for each sequence. -/
def sample (draw : RngState → ℕ → F) (probs : List F) (s v : ℕ) (rngStates : List RngState) :
    Sampled F (List ℕ) :=
  match checkSample probs s v rngStates with
  | .error e => ⟨.error e, rngStates, []⟩
  | .ok () => sampleRows draw probs v 0 rngStates

/-! ### The verification of one node -/

/-- The rules by which a draft token is accepted. -/
inductive VerifyMethod (F : Type)
  | rejection
  | greedy
  | typicalAcceptance (eps delta : F)

/-- What is verified for one sequence: its draft tokens, their distributions, and the
distributions of the target, as rows of `v` entries. -/
structure SeqDraft (F : Type) where
  v : ℕ
  tokens : List ℕ
  draftProbs : Option (List F)
  targetProbs : List F

namespace SeqDraft

variable (x : SeqDraft F)

/-- The token of a node. -/
def token (node : ℕ) : ℕ := x.tokens.getD node 0

/-- The probability that the draft had for a token, at a node. Without distributions it had
only its own token. -/
def draftProb (node tok : ℕ) : F :=
  match x.draftProbs with
  | some dp => dp.getD (node * x.v + tok) 0
  | none => if tok = x.token node then 1 else 0

/-- With which probability a token is accepted. -/
def acceptance (targetP draftQ : F) : F :=
  if lt 0 draftQ then min (targetP / draftQ) 1
  else if lt 0 targetP then 1
  else 0

/-- What is left of the target's distribution at a node. -/
def residual (target : List F) (node : ℕ) : List F :=
  (List.range x.v).map fun tok => max (target.getD tok 0 - x.draftProb node tok) 0

/-- The token that replaces the one of a node. -/
def replacement (u : ℕ → F) (terminalDraw : ℕ) (target : List F) (node : ℕ) : Drawn ℕ :=
  let res := x.residual target node
  let sum := res.foldl (· + ·) 0
  if lt 0 sum && isFinite sum then do
    let r ← Drawn.read u terminalDraw
    pure (sampleFromDistribution (res.map (· * (1 / sum))) r)
  else do
    let r ← ⟨u terminalDraw, [.zeroResidual, .read terminalDraw]⟩
    pure (sampleFromDistribution target r)

/-- The threshold of typical acceptance. -/
def threshold (eps delta : F) (target : List F) : F :=
  let h := target.foldl (fun h p => if lt 0 p then h - p * ln p else h) 0
  min eps (delta * exp (-h))

/-- Tests a node against a distribution of the target: it is accepted, or there is a token
that ends the path. -/
def testNode (method : VerifyMethod F) (u : ℕ → F) (terminalDraw : ℕ) (target : List F)
    (node : ℕ) : Drawn (Option ℕ) :=
  let d := x.token node
  let targetP := target.getD d 0
  match method with
  | .rejection => do
    let r ← Drawn.read u node
    if lt r (acceptance targetP (x.draftProb node d)) then pure none
    else do
      let t ← x.replacement u terminalDraw target node
      pure (some t)
  | .greedy =>
    let best := argmaxStable target % 2 ^ 32
    pure (if best = d then none else some best)
  | .typicalAcceptance eps delta =>
    if lt (threshold eps delta target) targetP then pure none
    else do
      let r ← Drawn.read u terminalDraw
      pure (some (sampleFromDistribution target r))

/-- The token after nodes that are all accepted. -/
def bonus (method : VerifyMethod F) (u : ℕ → F) (draw : ℕ) (target : List F) : Drawn ℕ :=
  match method with
  | .greedy => pure (argmaxStable target % 2 ^ 32)
  | .rejection | .typicalAcceptance _ _ => do
    let r ← Drawn.read u draw
    pure (sampleFromDistribution target r)

/-- Follows a path from a row of the target's distributions on: the nodes that are accepted,
and the token that ends the path. -/
def evalFrom (method : VerifyMethod F) (u : ℕ → F) (terminalDraw : ℕ) :
    ℕ → List ℕ → Drawn (List ℕ × ℕ)
  | row, [] => do
    let t ← bonus method u terminalDraw (dist x.v x.targetProbs row)
    pure ([], t)
  | row, node :: path => do
    match ← x.testNode method u terminalDraw (dist x.v x.targetProbs row) node with
    | some t => pure ([], t)
    | none => do
      let (nodes, t) ← evalFrom method u terminalDraw (node + 1) path
      pure (node :: nodes, t)

end SeqDraft

/-! ### Paths -/

/-- The nodes from a root down to a node, if the walk up to the root ends. -/
def tracePath (parents : List ℤ) : ℕ → ℤ → Option (List ℕ)
  | fuel, curr =>
    if 0 ≤ curr ∧ curr.toNat < parents.length then
      match fuel with
      | 0 => none
      | fuel + 1 =>
        (tracePath parents fuel (parents.getD curr.toNat (-1))).map (· ++ [curr.toNat])
    else some []

/-- Whether a node is a parent. -/
def isParent (parents : List ℤ) (node : ℕ) : Bool :=
  parents.any fun p => decide (0 ≤ p ∧ p.toNat = node)

/-- Paths are ordered as words are. -/
def PathLe : List ℕ → List ℕ → Prop
  | [], _ => True
  | _ :: _, [] => False
  | a :: l, b :: l' => a < b ∨ (a = b ∧ PathLe l l')

instance PathLe.decidable : DecidableRel PathLe
  | [], l => by cases l <;> exact isTrue trivial
  | _ :: _, [] => isFalse fun h => h
  | a :: l, b :: l' =>
    have := PathLe.decidable l l'
    inferInstanceAs (Decidable (a < b ∨ (a = b ∧ PathLe l l')))

/-- The paths from the roots to the leaves, in order. The walks of a tree always end
(`TreeMask.tracePath_isSome`). -/
def treePaths (parents : List ℤ) : List (List ℕ) :=
  let k := parents.length
  let leaves := (List.range k).filter fun node => !isParent parents node
  (leaves.map fun node => (tracePath parents (k + 1) (asI32 node)).getD []).insertionSort PathLe

/-- The paths of a tree, or the one path of a chain. -/
def pathsOf (k : ℕ) : Option TreeMask → List (List ℕ)
  | some tree => if k = 0 then [] else treePaths tree.parents
  | none => if 0 < k then [List.range k] else []

/-! ### The verification of a batch -/

/-- The path that is the best so far. -/
structure Best where
  len : ℕ
  first : ℕ
  nodes : List ℕ
  terminal : ℕ

/-- A longer path is better, and among paths of one length the one whose first node is
lower. -/
def Best.update (best : Best) (path nodes : List ℕ) (terminal : ℕ) : Best :=
  let first := path.headD 0
  if best.len < nodes.length ∨ (nodes.length = best.len ∧ first < best.first) then
    ⟨nodes.length, first, nodes, terminal⟩
  else best

/-- What is returned for one sequence. -/
structure Verified where
  accepted : List ℕ
  acceptLen : ℕ
  log : List Mark

/-- Evaluates the paths. -/
def bestPath (x : SeqDraft F) (method : VerifyMethod F) (u : ℕ → F) (terminalDraw seq : ℕ) :
    List (List ℕ) → Best → Except (T0Error F) (Drawn Best)
  | [], best => .ok (pure best)
  | path :: paths, best => do
    ensure (path ≠ []) (.invalidTree seq "internal root-to-leaf path is empty")
    let out := x.evalFrom method u terminalDraw 0 path
    let rest ← bestPath x method u terminalDraw seq paths
      (best.update path out.value.1 out.value.2)
    pure (out >>= fun _ => rest)

/-- Verifies one sequence. -/
def verifySeq (x : SeqDraft F) (method : VerifyMethod F) (u : ℕ → F) (k seq : ℕ)
    (paths : List (List ℕ)) : Except (T0Error F) (Verified × ℕ) :=
  if k = 0 ∨ paths = [] then
    let out := SeqDraft.bonus method u 0 (dist x.v x.targetProbs 0)
    .ok (⟨out.value :: List.replicate k 0, 0, out.log⟩, 1)
  else do
    let out ← bestPath x method u k seq paths ⟨0, 2 ^ 64 - 1, [], 0⟩
    let best := out.value
    .ok (⟨best.nodes.map x.token ++ best.terminal :: List.replicate (k - best.len) 0,
      best.len % 2 ^ 32, out.log⟩, k + 1)

/-- What is returned for a batch. -/
structure VerifyOutput where
  accepted : List ℕ
  acceptLen : List ℕ

/-- The inputs of a verification. -/
structure VerifyInput (F : Type) where
  draftTokens : List ℕ
  draftProbs : Option (List F)
  targetProbs : List F
  s : ℕ
  k : ℕ
  v : ℕ
  method : VerifyMethod F
  tree : Option TreeMask

namespace VerifyInput

variable (x : VerifyInput F)

/-- What is verified for a sequence. -/
def seqDraft (seq : ℕ) : SeqDraft F where
  v := x.v
  tokens := (x.draftTokens.drop (seq * x.k)).take x.k
  draftProbs := x.draftProbs.map fun dp => (dp.drop (seq * x.k * x.v)).take (x.k * x.v)
  targetProbs := (x.targetProbs.drop (seq * (x.k + 1) * x.v)).take ((x.k + 1) * x.v)

/-- Verifies the sequences one by one. -/
def verifyRows (draw : RngState → ℕ → F) (paths : List (List ℕ)) :
    ℕ → List RngState → Sampled F VerifyOutput
  | _, [] => ⟨.ok ⟨[], []⟩, [], []⟩
  | seq, rng :: rngs =>
    let row : Except (T0Error F) (Verified × RngState) := do
      let (out, count) ← verifySeq (x.seqDraft seq) x.method (draw rng) x.k seq paths
      let rng' ← rng.advance count
      pure (out, rng')
    match row with
    | .error e => ⟨.error e, rng :: rngs, []⟩
    | .ok (out, rng') =>
      let rest := verifyRows draw paths (seq + 1) rngs
      ⟨rest.result.map fun r => ⟨out.accepted ++ r.accepted, out.acceptLen :: r.acceptLen⟩,
        rng' :: rest.states, out.log :: rest.logs⟩

def checkMethod : VerifyMethod F → Except (T0Error F) Unit
  | .typicalAcceptance eps delta => do
    ensure (isFinite eps && !le eps 0) (.invalidAttribute "verify" "method.eps"
      "typical acceptance eps must be finite and > 0.0" eps)
    ensure (isFinite delta && !le delta 0) (.invalidAttribute "verify" "method.delta"
      "typical acceptance delta must be finite and > 0.0" delta)
  | .rejection | .greedy => .ok ()

/-- The length of the draft's distributions, if there are any. -/
def checkDraftProbs (expectedDraft : ℕ) : Option (List F) → Except (T0Error F) Unit
  | none => .ok ()
  | some dp => do
    let expectedDp ← okOr (mul 64 expectedDraft x.v) (.shapeLengthMismatch "verify" "draft_probs"
      (2 ^ 64 - 1) dp.length "overflow computing S * k * V")
    ensure (dp.length = expectedDp) (.shapeLengthMismatch "verify" "draft_probs" expectedDp dp.length
      s!"draft_probs length != S({x.s}) * k({x.k}) * V({x.v})")

def checkTree : Option TreeMask → Except (T0Error F) Unit
  | none => .ok ()
  | some tree =>
    let t := tree.parents.length
    ensure (t = x.k) (.shapeLengthMismatch "verify" "tree" x.k t
      s!"TreeMask token count T({t}) != k({x.k})")

/-- The rows of a tensor with `n` rows for each sequence. -/
def checkRows (n : ℕ) (probs : List F) : Except (T0Error F) Unit :=
  forM (List.range x.s) fun seq => forM (List.range n) fun pos =>
    validateDistribution (dist x.v probs (seq * n + pos)) "verify" seq pos

/-- The lengths of the tensors. -/
def checkShapes (rngStates : List RngState) : Except (T0Error F) Unit := do
  let s := x.s
  let k := x.k
  let v := x.v
  ensure (¬(s = 0 ∨ v = 0)) (.emptyInput "verify" (if s = 0 then "S" else "V"))
  let _ ← okOr (add 64 k 1) (.shapeLengthMismatch "verify" "k" (2 ^ 32 - 1) k "k + 1 overflows usize")
  let terminalDraw ← okOr (narrow 32 k) (.shapeLengthMismatch "verify" "k" (2 ^ 32 - 1) k
    "k cannot be represented by the Philox draw index")
  let _ ← okOr (add 32 terminalDraw 1) (.shapeLengthMismatch "verify" "k" (2 ^ 32 - 2) k
    "k + 1 cannot be represented by the Philox draw index")
  let expectedDraft ← okOr (mul 64 s k) (.shapeLengthMismatch "verify" "draft_tokens" (2 ^ 64 - 1)
    x.draftTokens.length "overflow computing S * k")
  ensure (x.draftTokens.length = expectedDraft) (.shapeLengthMismatch "verify" "draft_tokens"
    expectedDraft x.draftTokens.length s!"draft_tokens length != S({s}) * k({k})")
  forM x.draftTokens.zipIdx fun (token, position) =>
    ensure (token < v) (.tokenOutOfRange "verify" "draft_tokens" position token v)
  x.checkDraftProbs expectedDraft x.draftProbs
  let expectedTarget ← okOr ((mul 64 s (k + 1)).bind (mul 64 · v)) (.shapeLengthMismatch "verify"
    "target_probs" (2 ^ 64 - 1) x.targetProbs.length "overflow computing S * (k+1) * V")
  ensure (x.targetProbs.length = expectedTarget) (.shapeLengthMismatch "verify" "target_probs"
    expectedTarget x.targetProbs.length
    s!"target_probs length != S({s}) * (k+1)({k + 1}) * V({v})")
  ensure (rngStates.length = s) (.shapeLengthMismatch "verify" "rng_states" s rngStates.length
    s!"rng_states count != S({s})")

/-- The values in the tensors. -/
def checkValues (rngStates : List RngState) : Except (T0Error F) Unit := do
  checkMethod x.method
  x.checkTree x.tree
  forM x.draftProbs.toList (x.checkRows x.k)
  x.checkRows (x.k + 1) x.targetProbs
  forM rngStates fun rng => rng.ensureCanAdvance (x.k + 1) "verify"

/-- Verifies the draft tokens of a batch. -/
def verify (draw : RngState → ℕ → F) (rngStates : List RngState) : Sampled F VerifyOutput :=
  match (do x.checkShapes rngStates; x.checkValues rngStates : Except (T0Error F) Unit) with
  | .error e => ⟨.error e, rngStates, []⟩
  | .ok () => x.verifyRows draw (pathsOf x.k x.tree) 0 rngStates

end VerifyInput

end R9v

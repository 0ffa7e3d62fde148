import R9v.Ir.Op
import R9v.T0.Buffer
import Mathlib.Logic.Function.Basic

/-!
# Convolutions and scans over states

The two operations that keep a state for each sequence: the causal convolution
(`r9v-t0/src/causal_conv1d.rs`), whose state is the last rows of its input, and the linear
attention scan (`r9v-t0/src/linear_attn_scan.rs`), whose state is a matrix for each head. The
tokens of a step are cut into the segments of its sequences, and the segment with number
`slot` starts from row `slot` of the state. The executor keeps the states of a handle in two
buffers that swap roles in every call (`dispatchScan`).
-/

namespace R9v

open Checked

variable {F : Type} [Numeric F]

/-! ### Operations -/

inductive ScanOp
  | causalConv1d (op : CausalConv1dOp)
  | linearAttnScan (op : LinearAttnScanOp)

def ScanOp.handle : ScanOp → StateHandle
  | .causalConv1d op => op.handle
  | .linearAttnScan op => op.handle

def ScanOp.name : ScanOp → String
  | .causalConv1d _ => "causal_conv1d"
  | .linearAttnScan _ => "linear_attn_scan"

/-! ### The convolution of a segment -/

def evalConv : ConvActivation → F → F
  | .silu, x => x / (1 + Scalar.exp (-x))
  | .identity, x => x

section Conv

variable (c wk : ℕ) (x w : ℕ → F) (bias : Option (ℕ → F)) (st : ℕ → F) (slot base : ℕ)

omit [Numeric F] in
/-- The history of a segment: the rows of its state, and then its rows of the input. -/
def convHist (abs ch : ℕ) : F :=
  let hist := wk - 1
  if abs < hist then st (slot * hist * c + abs * c + ch) else x ((base + abs - hist) * c + ch)

/-- The sum for a row and a channel. -/
def convAcc (row ch : ℕ) : F :=
  (List.range wk).foldl
    (fun acc i => acc + w (ch * wk + i) * convHist c wk x st slot base (row + i) ch)
    (match bias with
      | some b => b ch
      | none => 0)

/-- The rows of the output. -/
def convRows (act : ConvActivation) (len : ℕ) : List F :=
  (List.range len).flatMap fun row => (List.range c).map fun ch =>
    evalConv act (convAcc c wk x w bias st slot base row ch)

omit [Numeric F] in
/-- The last rows of the history. -/
def convTail (len : ℕ) : List F :=
  (List.range (wk - 1)).flatMap fun hRow => (List.range c).map fun ch =>
    convHist c wk x st slot base (len + hRow) ch

end Conv

/-! ### The scan of a segment -/

section Scan

variable (h d dv : ℕ) (q k v alpha beta : ℕ → F) (st : ℕ → F) (slot base : ℕ)

/-- The state of a head after a token. -/
def scanState (gt head : ℕ) (s : ℕ → ℕ → F) : ℕ → ℕ → F := fun i j =>
  alpha (gt * h + head) * s i j +
    beta (gt * h + head) * k ((gt * h + head) * d + i) * v ((gt * h + head) * dv + j)

/-- The output of a head for a token. -/
def scanOut (gt head : ℕ) (s : ℕ → ℕ → F) : List F :=
  (List.range dv).map fun j =>
    (List.range d).foldl (fun acc i => acc + q ((gt * h + head) * d + i) * s i j) 0

/-- Takes some tokens of a segment one by one: the output of each, and the state at the end. -/
def scanRows (head : ℕ) : List ℕ → (ℕ → ℕ → F) → List (List F) × (ℕ → ℕ → F)
  | [], s => ([], s)
  | r :: rows, s =>
    let s' := scanState h d dv k v alpha beta (base + r) head s
    let (outs, s'') := scanRows head rows s'
    (scanOut h d dv q (base + r) head s' :: outs, s'')

/-- Takes the tokens of a segment block by block. -/
def scanBlocks (head : ℕ) : List (List ℕ) → (ℕ → ℕ → F) → List (List F) × (ℕ → ℕ → F)
  | [], s => ([], s)
  | block :: blocks, s =>
    let (outs, s') := scanRows h d dv q k v alpha beta base head block s
    let (outs', s'') := scanBlocks head blocks s'
    (outs ++ outs', s'')

/-- The blocks of a segment from `cs` on. -/
def chunkBlocks (chunk len : ℕ) : ℕ → ℕ → List (List ℕ)
  | 0, _ => []
  | fuel + 1, cs =>
    if cs < len then
      let ce := min (cs + chunk) len
      List.range' cs (ce - cs) :: chunkBlocks chunk len fuel ce
    else []

omit [Numeric F] in
/-- The state a head starts from. -/
def scanStart (head : ℕ) : ℕ → ℕ → F := fun i j => st ((slot * h + head) * d * dv + i * dv + j)

/-- A head over a segment, in blocks or token by token. -/
def scanHead (chunk : Option ℕ) (len head : ℕ) : List (List F) × (ℕ → ℕ → F) :=
  match chunk with
  | some chunk => scanBlocks h d dv q k v alpha beta base head (chunkBlocks chunk len len 0)
      (scanStart h d dv st slot head)
  | none => scanRows h d dv q k v alpha beta base head (List.range len)
      (scanStart h d dv st slot head)

/-- The rows of the output: for each token the outputs of the heads. -/
def scanSegment (chunk : Option ℕ) (len : ℕ) : List F :=
  (List.range len).flatMap fun row => (List.range h).flatMap fun head =>
    (scanHead h d dv q k v alpha beta st slot base chunk len head).1.getD row []

/-- The states of the heads at the end. -/
def scanTail (chunk : Option ℕ) (len : ℕ) : List F :=
  (List.range h).flatMap fun head => (List.range d).flatMap fun i => (List.range dv).map fun j =>
    (scanHead h d dv q k v alpha beta st slot base chunk len head).2 i j

end Scan

/-! ### Segments -/

/-- Takes the segments of a step in turn: their rows, and their states at the end. -/
def segments (rows tail : ℕ → ℕ → ℕ → List F) : ℕ → ℕ → List ℕ → List F × List F
  | _, _, [] => ([], [])
  | slot, base, len :: lens =>
    let (ys, states) := segments rows tail (slot + 1) (base + len) lens
    (rows slot base len ++ ys, tail slot base len ++ states)

/-- The lengths of the segments: there are some, and none is zero. -/
def seqLayout (queryLen : List ℕ) : Except (ScanError F) (List ℕ) := do
  ensure (queryLen ≠ []) (.emptyInput "seq_layout" "seq_lens")
  forM queryLen fun len => ensure (len ≠ 0) (.emptyInput "seq_layout" "seq_lens")
  pure queryLen

/-- Writes every element of a tensor of floats. -/
def TypedBuffer.fill (b : TypedBuffer F) (values : List F) : TypedBuffer F where
  shape := b.shape
  data :=
    let written := (List.range b.numElements).map fun i => values.getD i 0
    match b.dtype with
    | .f32 => .f32 written
    | .f16 => .f16 (written.map Numeric.f32ToF16)
    | .bf16 => .bf16 (written.map Numeric.f32ToBf16)
    | _ => b.data
  quant := b.quant
  layout := b.layout
  holds := by
    split
    · simp [TensorData.Holds, numElements]
    · simp [TensorData.Holds, numElements]
    · simp [TensorData.Holds, numElements]
    · exact b.holds

/-! ### Checks -/

section Checks

def floatDtypes : List DType := [.f16, .bf16, .f32]

def checkRank (tensor : String) (b : TypedBuffer F) (expected : ℕ) : List (ScanError F) :=
  if b.rank ≠ expected then [.rankMismatch tensor expected b.rank b.shape] else []

def checkLayout (tensor : String) (b : TypedBuffer F) : List (ScanError F) :=
  if b.layout ≠ .contiguous ∧ b.layout ≠ .l0 then [.layoutMismatch tensor b.layout] else []

def checkDtype (tensor : String) (b : TypedBuffer F) (expected : List DType) :
    List (ScanError F) :=
  if b.dtype ∈ expected then [] else [.dtypeMismatch tensor expected b.dtype]

def checkExtent (dimName expectedFrom : String) (expected : ℕ) (tensor : String) (got : ℕ) :
    List (ScanError F) :=
  if got ≠ expected then [.dimensionMismatch dimName expectedFrom expected tensor got] else []

/-- Dimensions are at most 32 bits wide. -/
def checkWords (op : String) (dims : List ℕ) : Except (ScanError F) Unit :=
  forM dims fun dim => ensure (dim < 2 ^ 32) (.arithmeticOverflow op s!"dimension exceeds u32: {dim}")

def TypedBuffer.dim (b : TypedBuffer F) (i : ℕ) : ℕ := b.shape.getD i 0

/-- The weights of a convolution are not quantized. -/
def checkConvWeight (w : TypedBuffer F) : List (ScanError F) :=
  if w.dtype = .i8 ∨ w.dtype = .i4 then [.quantMismatch "w" w.quant]
  else checkDtype "w" w floatDtypes

def CausalConv1dOp.problems (op : CausalConv1dOp) (x w : TypedBuffer F)
    (bias : Option (TypedBuffer F)) (stateIn y stateOut : TypedBuffer F) : List (ScanError F) :=
  List.flatten [
    checkRank "x" x 2, checkRank "w" w 2, checkRank "y" y 2, checkRank "state_in" stateIn 3,
    checkRank "state_out" stateOut 3,
    checkLayout "x" x, checkLayout "w" w, checkLayout "state_in" stateIn,
    bias.toList.flatMap (checkLayout "bias"), checkLayout "y" y, checkLayout "state_out" stateOut,
    checkDtype "x" x floatDtypes, checkConvWeight w, checkDtype "state_in" stateIn [.f16],
    checkDtype "state_out" stateOut [.f16], checkDtype "y" y [x.dtype],
    if op.kernel = 0 then
      [.invalidAttribute "causal_conv1d" "kernel" "kernel must be > 0"] else [],
    if op.handle.kind ≠ .convWindow then [.invalidHandle "causal_conv1d" op.handle.kind] else []]

def checkConvBias (c : ℕ) (b : TypedBuffer F) : List (ScanError F) :=
  (if b.rank ≠ 1 then [.rankMismatch "bias" 1 b.rank b.shape]
    else checkExtent "C" "x" c "bias" (b.dim 0)) ++
    checkDtype "bias" b floatDtypes

def CausalConv1dOp.dimProblems (op : CausalConv1dOp) (x w : TypedBuffer F)
    (bias : Option (TypedBuffer F)) (stateIn y stateOut : TypedBuffer F) (s : ℕ) :
    List (ScanError F) :=
  let t := x.dim 0
  let c := x.dim 1
  let hist := op.kernel - 1
  List.flatten [
    checkExtent "C" "x" c "w" (w.dim 0), checkExtent "Wk" "kernel" op.kernel "w" (w.dim 1),
    bias.toList.flatMap (checkConvBias c),
    checkExtent "T" "x" t "y" (y.dim 0), checkExtent "C" "x" c "y" (y.dim 1),
    checkExtent "S" "seq" s "state_in" (stateIn.dim 0),
    checkExtent "Wk-1" "kernel" hist "state_in" (stateIn.dim 1),
    checkExtent "C" "x" c "state_in" (stateIn.dim 2),
    checkExtent "S" "seq" s "state_out" (stateOut.dim 0),
    checkExtent "Wk-1" "kernel" hist "state_out" (stateOut.dim 1),
    checkExtent "C" "x" c "state_out" (stateOut.dim 2)]

/-- Everything that a convolution checks before it computes. -/
def CausalConv1dOp.validate (op : CausalConv1dOp) (x w : TypedBuffer F)
    (bias : Option (TypedBuffer F)) (stateIn : TypedBuffer F) (seq : List ℕ)
    (y stateOut : TypedBuffer F) : Except (ScanError F) Unit := do
  ScanError.fromProblems (op.problems x w bias stateIn y stateOut)
  let t := x.dim 0
  let c := x.dim 1
  ensure (t ≠ 0 ∧ c ≠ 0) (.emptyInput "causal_conv1d" "x")
  checkWords "causal_conv1d" [t, c, op.kernel, seq.length]
  ensure (seq.sum = t) (.dimensionMismatch "T" "seq_lens_sum" t "state_in" seq.sum)
  ScanError.fromProblems (op.dimProblems x w bias stateIn y stateOut seq.length)
  discard (okOr (mul 64 t c) (.arithmeticOverflow "causal_conv1d"
    s!"T * C overflows usize for T={t}, C={c}"))
  discard (okOr ((mul 64 seq.length (op.kernel - 1)).bind (mul 64 · c))
    (.arithmeticOverflow "causal_conv1d" "state buffer size overflows usize"))

/-- The gates that are not finite. -/
def gateProblems (alpha beta : TypedBuffer F) (t h : ℕ) : List (ScanError F) :=
  (List.range t).flatMap fun row => (List.range h).flatMap fun head =>
    let gate (tensor : String) (b : TypedBuffer F) : List (ScanError F) :=
      let a := b.data.read (row * h + head)
      if Scalar.isFinite a then [] else [.nonFiniteGate tensor row head a]
    gate "alpha" alpha ++ gate "beta" beta

variable (op : LinearAttnScanOp) (q k v alpha beta stateIn o stateOut : TypedBuffer F)

def LinearAttnScanOp.problems : List (ScanError F) :=
  List.flatten [
    checkRank "q" q 3, checkRank "k" k 3, checkRank "v" v 3, checkRank "alpha" alpha 2,
    checkRank "beta" beta 2, checkRank "state_in" stateIn 4, checkRank "o" o 3,
    checkRank "state_out" stateOut 4,
    checkLayout "q" q, checkLayout "k" k, checkLayout "v" v, checkLayout "alpha" alpha,
    checkLayout "beta" beta, checkLayout "state_in" stateIn, checkLayout "o" o,
    checkLayout "state_out" stateOut,
    checkDtype "q" q floatDtypes, checkDtype "k" k floatDtypes, checkDtype "v" v floatDtypes,
    checkDtype "k" k [q.dtype], checkDtype "v" v [q.dtype], checkDtype "alpha" alpha [.f32],
    checkDtype "beta" beta [.f32], checkDtype "state_in" stateIn [.f32],
    if op.outDtype ∈ floatDtypes then [] else [.invalidOutDtype "linear_attn_scan" op.outDtype],
    checkDtype "o" o [op.outDtype], checkDtype "state_out" stateOut [.f32],
    if op.chunk = 0 then
      [.invalidAttribute "linear_attn_scan" "chunk" "chunk must be > 0"] else [],
    if op.handle.kind ≠ .recurrent then [.invalidHandle "linear_attn_scan" op.handle.kind] else []]

/-- A state has a matrix for each sequence and head. -/
def checkScanState (tensor : String) (b : TypedBuffer F) (s h d dv : ℕ) : List (ScanError F) :=
  List.flatten [
    checkExtent "S" "seq" s tensor (b.dim 0), checkExtent "H" "q" h tensor (b.dim 1),
    checkExtent "D" "q" d tensor (b.dim 2), checkExtent "Dv" "v" dv tensor (b.dim 3)]

def scanDimProblems (s : ℕ) : List (ScanError F) :=
  let t := q.dim 0
  let h := q.dim 1
  let d := q.dim 2
  let dv := v.dim 2
  List.flatten [
    checkExtent "T" "q" t "k" (k.dim 0), checkExtent "T" "q" t "v" (v.dim 0),
    checkExtent "T" "q" t "alpha" (alpha.dim 0), checkExtent "T" "q" t "beta" (beta.dim 0),
    checkExtent "T" "q" t "o" (o.dim 0),
    checkExtent "H" "q" h "k" (k.dim 1), checkExtent "H" "q" h "v" (v.dim 1),
    checkExtent "H" "q" h "alpha" (alpha.dim 1), checkExtent "H" "q" h "beta" (beta.dim 1),
    checkExtent "H" "q" h "o" (o.dim 1),
    checkExtent "D" "q" d "k" (k.dim 2), checkExtent "Dv" "v" dv "o" (o.dim 2),
    checkScanState "state_in" stateIn s h d dv, checkScanState "state_out" stateOut s h d dv,
    gateProblems alpha beta t h]

/-- Everything that a scan checks before it computes. -/
def LinearAttnScanOp.validate (seq : List ℕ) : Except (ScanError F) Unit := do
  ScanError.fromProblems (op.problems q k v alpha beta stateIn o stateOut)
  let t := q.dim 0
  let h := q.dim 1
  let d := q.dim 2
  let dv := v.dim 2
  ensure (h ≠ 0 ∧ (d ≠ 0 ∧ dv ≠ 0) ∧ t ≠ 0) (.emptyInput "linear_attn_scan" "q")
  checkWords "linear_attn_scan" [t, h, d, dv, seq.length]
  ensure (seq.sum = t) (.dimensionMismatch "T" "seq_lens_sum" t "q" seq.sum)
  ScanError.fromProblems (scanDimProblems q k v alpha beta stateIn o stateOut seq.length)
  discard (okOr ((mul 64 t h).bind (mul 64 · dv))
    (.arithmeticOverflow "linear_attn_scan" "output buffer size overflows usize"))
  discard (okOr (((mul 64 seq.length h).bind (mul 64 · d)).bind (mul 64 · dv))
    (.arithmeticOverflow "linear_attn_scan" "state buffer size overflows usize"))

end Checks

/-! ### Operations on buffers -/

def causalConv1d (op : CausalConv1dOp) (x w : TypedBuffer F) (bias : Option (TypedBuffer F))
    (stateIn : TypedBuffer F) (seq : List ℕ) (y stateOut : TypedBuffer F) :
    Except (ScanError F) (TypedBuffer F × TypedBuffer F) := do
  op.validate x w bias stateIn seq y stateOut
  let c := x.dim 1
  let reads := bias.map fun b => b.data.read
  let (ys, states) := segments
    (fun slot base len => convRows c op.kernel x.data.read w.data.read reads stateIn.data.read
      slot base op.act len)
    (fun slot base len => convTail c op.kernel x.data.read stateIn.data.read slot base len) 0 0 seq
  pure (y.fill ys, stateOut.fill states)

def linearAttnScan (op : LinearAttnScanOp) (q k v alpha beta stateIn : TypedBuffer F)
    (seq : List ℕ) (chunked : Bool) (o stateOut : TypedBuffer F) :
    Except (ScanError F) (TypedBuffer F × TypedBuffer F) := do
  op.validate q k v alpha beta stateIn o stateOut seq
  let chunk := if chunked then some op.chunk else none
  let (os, states) := segments
    (fun slot base len => scanSegment (q.dim 1) (q.dim 2) (v.dim 2) q.data.read k.data.read
      v.data.read alpha.data.read beta.data.read stateIn.data.read slot base chunk len)
    (fun slot base len => scanTail (q.dim 1) (q.dim 2) (v.dim 2) q.data.read k.data.read
      v.data.read alpha.data.read beta.data.read stateIn.data.read slot base chunk len) 0 0 seq
  pure (o.fill os, stateOut.fill states)

/-- Runs an operation on its operands and a state. -/
def executeStateScanOp (op : ScanOp) (inputs : List (TypedBuffer F)) (stateIn : TypedBuffer F)
    (seq : List ℕ) (out stateOut : TypedBuffer F) (chunked : Bool) :
    Except (ScanError F) (TypedBuffer F × TypedBuffer F) :=
  match op, inputs with
  | .causalConv1d op, [x, w] => causalConv1d op x w none stateIn seq out stateOut
  | .causalConv1d op, [x, w, bias] => causalConv1d op x w (some bias) stateIn seq out stateOut
  | .linearAttnScan op, [q, k, v, alpha, beta] =>
    linearAttnScan op q k v alpha beta stateIn seq chunked out stateOut
  | .causalConv1d _, inputs => .error (.invalidAttribute "causal_conv1d" "inputs/outputs"
      s!"causal_conv1d requires 2 or 3 inputs and 1 output, got {inputs.length} inputs and 1 outputs")
  | .linearAttnScan _, inputs => .error (.invalidAttribute "linear_attn_scan" "inputs/outputs"
      s!"linear_attn_scan requires 5 inputs and 1 output, got {inputs.length} inputs and 1 outputs")

/-! ### States -/

/-- The states of the scans: two buffers for a handle, and which of them is written next. -/
structure ScanState (F : Type) where
  scanA : StateHandle → Option (TypedBuffer F)
  scanB : StateHandle → Option (TypedBuffer F)
  scanFlip : StateHandle → Bool

/-- No state has been used. -/
def ScanState.new : ScanState F := ⟨fun _ => none, fun _ => none, fun _ => false⟩

/-- The shape and the type of the states that an operation uses. -/
def scanGeometry (node : ℕ) (op : ScanOp) (inputs : List (TypedBuffer F)) (s : ℕ) :
    Except (ExecError F) (List ℕ × DType) :=
  match op with
  | .causalConv1d op => do
    let x ← okOr inputs[0]? (.invalidAttribute "causal_conv1d" "inputs"
      s!"node {node}: causal_conv1d requires 2 or 3 inputs")
    pure ([s, op.kernel - 1, x.dim 1], .f16)
  | .linearAttnScan _ => do
    let q ← okOr inputs[0]? (.invalidAttribute "linear_attn_scan" "inputs"
      s!"node {node}: linear_attn_scan requires 5 inputs")
    let v ← okOr inputs[2]? (.invalidAttribute "linear_attn_scan" "inputs"
      s!"node {node}: linear_attn_scan requires 5 inputs")
    pure ([s, q.dim 1, q.dim 2, v.dim 2], .f32)

/-- The buffer of a handle, zero when it has not been used, and of no other shape. -/
def ensureSlot (name : String) (shape : List ℕ) (expected : ℕ) (dtype : DType) :
    Option (TypedBuffer F) → Except (ExecError F) (TypedBuffer F)
  | some slot =>
    if slot.shape ≠ shape then
      .error (.dimensionMismatch "scan_state" name expected "scan_state" slot.numElements)
    else .ok slot
  | none => do
    discard (okOr (TypedBuffer.byteLen dtype expected)
      (.arithmeticOverflow "buffer" s!"shape {shape} byte size overflows usize"))
    pure (TypedBuffer.zeros shape dtype)

/-- The two buffers of a handle. The first one stays when the second one is refused. -/
def ensureScanSlots (handle : StateHandle) (shape : List ℕ) (dtype : DType) (st : ScanState F) :
    Except (ExecError F) (TypedBuffer F × TypedBuffer F) × ScanState F :=
  match TypedBuffer.elements shape with
  | none => (.error (.arithmeticOverflow "scan_state"
      s!"state shape {shape} element product overflows usize"), st)
  | some expected =>
    match ensureSlot "A" shape expected dtype (st.scanA handle) with
    | .error e => (.error e, st)
    | .ok a =>
      let st := { st with scanA := Function.update st.scanA handle (some a) }
      match ensureSlot "B" shape expected dtype (st.scanB handle) with
      | .error e => (.error e, st)
      | .ok b =>
        (.ok (a, b), { st with scanB := Function.update st.scanB handle (some b) })

/-- Whether some sequence has enough tokens to be taken in blocks. -/
def chunkedForm (queryLen : List ℕ) : Bool := queryLen.any (32 ≤ ·)

/-- Reads one buffer of a handle and writes the other one. -/
def scanOver (op : ScanOp) (inputs : List (TypedBuffer F)) (out : TypedBuffer F)
    (queryLen : List ℕ) (read write : TypedBuffer F) :
    Except (ExecError F) (TypedBuffer F × TypedBuffer F) := do
  let seq ← (seqLayout queryLen).mapError .scan
  (executeStateScanOp op inputs read seq out write (chunkedForm queryLen)).mapError .scan

/-- A convolution or a scan on the states of its handle. -/
def dispatchScan (node : ℕ) (op : ScanOp) (inputs : List (TypedBuffer F))
    (outputs : List (TypedBuffer F)) (batch : BatchMeta) (st : ScanState F) :
    Except (ExecError F) (List (TypedBuffer F)) × ScanState F :=
  match outputs with
  | [out] =>
    match scanGeometry node op inputs batch.s with
    | .error e => (.error e, st)
    | .ok (shape, dtype) =>
      match ensureScanSlots op.handle shape dtype st with
      | (.error e, st) => (.error e, st)
      | (.ok (a, b), st) =>
        if st.scanFlip op.handle then
          match scanOver op inputs out batch.queryLen b a with
          | .error e => (.error e, st)
          | .ok (y, a') => (.ok [y],
            { st with
              scanA := Function.update st.scanA op.handle (some a')
              scanFlip := Function.update st.scanFlip op.handle false })
        else
          match scanOver op inputs out batch.queryLen a b with
          | .error e => (.error e, st)
          | .ok (y, b') => (.ok [y],
            { st with
              scanB := Function.update st.scanB op.handle (some b')
              scanFlip := Function.update st.scanFlip op.handle true })
  | outputs => (.error (.invalidAttribute op.name "outputs"
      s!"scan ops require 1 output, got {outputs.length}"), st)

end R9v

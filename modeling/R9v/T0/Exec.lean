import R9v.Lib.Kahn
import R9v.T0.Buffer
import Mathlib.Logic.Function.Basic

/-!
# The executor of a step graph

`CpuExecutor` of `r9v-t0/src/exec.rs`. Its store has a buffer for an edge when the edge was
bound or when a node has produced it, and keeps both from run to run. A run takes the nodes
in an order along the tensors and the states (`stateOrdered`), gathers the inputs of a node
(`inputBuffer`), and publishes its outputs. What the operations compute is a parameter
(`Dispatch`); a run is logged, so that one can say what a node finds when it is reached.
-/

namespace R9v

open Checked

/-- What the operations `ω` do, with the arguments `κ` of a run and a state `σ` that is kept
from run to run: an operation fills the outputs that it is given. -/
structure Dispatch (F ω κ σ : Type) where
  /-- The state that an operation reads or writes. -/
  handle : ω → Option StateHandle
  /-- A run begins with its arguments, which its operations may change. -/
  enter : κ → σ → σ
  perform : ℕ → ω → List (TensorView F) → List (TypedBuffer F) → BatchMeta → κ → σ →
    Except (ExecError F) (List (TypedBuffer F)) × σ
  shape_eq : ∀ {node : ℕ} {op : ω} {inputs : List (TensorView F)} {outputs : List (TypedBuffer F)}
    {batch : BatchMeta} {args : κ} {s s' : σ} {outs : List (TypedBuffer F)},
    perform node op inputs outputs batch args s = (.ok outs, s') →
      outs.map (·.shape) = outputs.map (·.shape)

/-! ### The order of the nodes -/

section Order

variable {ω : Type} (g : Graph ω)

/-- The node that produces an edge. -/
def Graph.producer (e : ℕ) : Option ℕ := g.nodes.findIdx? fun n => n.outputs.contains e

/-- The node that produces an edge or what it is a view of, through as many views as the fuel
allows. -/
def Graph.resolve : ℕ → ℕ → Option ℕ
  | 0, _ => none
  | fuel + 1, e =>
    match g.producer e with
    | some p => some p
    | none => ((g.edges[e]?).bind (·.sourceEdge)).bind fun s => resolve fuel s

/-- The links from the producers of the inputs of a node. -/
def Graph.tensorLinks : List (ℕ × ℕ) :=
  g.nodes.zipIdx.flatMap fun (n, i) =>
    n.inputs.filterMap fun e => (g.resolve (g.edges.length + 1) e).map (·, i)

/-- The key of a state: its layer and the number of its kind. -/
def stateKey (h : StateHandle) : ℕ × ℕ :=
  (h.layer, match h.kind with
    | .kvPaged => 0
    | .kvLatent => 1
    | .recurrent => 2
    | .convWindow => 3)

def keyLe (a b : ℕ × ℕ) : Bool := a.1 < b.1 || (a.1 = b.1 && a.2 ≤ b.2)

/-- The links between the nodes that touch a state, in the order in which they were added. -/
def Graph.stateLinks (handle : ω → Option StateHandle) : List (ℕ × ℕ) :=
  let touching := g.nodes.zipIdx.filterMap fun (n, i) => (handle n.op).map fun h => (stateKey h, i)
  let keys := ((touching.map (·.1)).mergeSort keyLe).dedup
  keys.flatMap fun key =>
    let chain := (touching.filter (·.1 = key)).map (·.2)
    chain.zip chain.tail

def Graph.links (handle : ω → Option StateHandle) : List (ℕ × ℕ) :=
  g.tensorLinks ++ g.stateLinks handle

/-- The order in which the nodes run. -/
def stateOrdered {F : Type} (handle : ω → Option StateHandle) : Except (ExecError F) (List ℕ) :=
  let count := g.nodes.length
  let (order, degree) := Kahn.kahn (g.links handle) count
  if order.length ≠ count then
    .error (.ir (.graphCycle (((List.range count).find? (0 < degree ·)).getD 0)))
  else .ok order

end Order

/-! ### A node -/

section Node

variable {F ω κ σ : Type}

/-- The extents of a tensor in a batch. -/
def resolveShape (node edge : ℕ) (tensor : Tensor) (batch : BatchMeta) :
    Except (ExecError F) (List ℕ) :=
  tensor.shape.mapM fun
    | .concrete extent => .ok extent
    | .symbolic .s => .ok batch.s
    | .symbolic .t => .ok batch.t
    | .symbolic symbol => .error (.symbolicDim node edge symbol)

abbrev Store (F : Type) : Type := ℕ → Option (TypedBuffer F)

variable [Zero F] (g : Graph ω)

/-- A buffer for an output. The executor indexes the edges of the graph, which has all edges
that its nodes name. -/
def allocate (node : ℕ) (batch : BatchMeta) (e : ℕ) : Except (ExecError F) (TypedBuffer F) := do
  let edge ← okOr g.edges[e]? (.ir (.graphEdgeNotFound e))
  let shape ← resolveShape node e edge.tensor batch
  let n ← okOr (TypedBuffer.elements shape) (.arithmeticOverflow "executor"
    s!"node {node}: output edge {e} shape {shape} element product overflows usize")
  let _ ← okOr (TypedBuffer.byteLen edge.tensor.dtype n) (.arithmeticOverflow "buffer"
    s!"shape {shape} byte size overflows usize")
  pure (((TypedBuffer.zeros shape edge.tensor.dtype).withQuant edge.tensor.quant).withLayout
    edge.tensor.layout)

omit [Zero F] in
/-- The buffer of an input: what is stored for the edge, or what is stored for the edge it is a
view of. -/
def inputBuffer (node : ℕ) (batch : BatchMeta) (store : Store F) (e : ℕ) :
    Except (ExecError F) (TypedBuffer F) :=
  match store e with
  | some b => .ok b
  | none => do
    let view ← okOr g.edges[e]? (.ir (.graphEdgeNotFound e))
    let source ← okOr view.sourceEdge (.unboundEdge node e)
    ensure view.isContiguous (.nonContiguousView node e source)
    let b ← okOr (store source) (.unboundEdge node source)
    let shape ← resolveShape node e view.tensor batch
    okOr (b.copyWithShape shape) (.nonContiguousView node e source)

omit [Zero F] in
/-- An input with its scales, if the edge has scales of its own. -/
def scaledView (node : ℕ) (store : Store F) (scales : ℕ → Option ℕ) (e : ℕ) (b : TypedBuffer F) :
    Except (ExecError F) (TensorView F) :=
  match scales e with
  | none => .ok ⟨b, none⟩
  | some scaleEdge => do
    let scale ← okOr (store scaleEdge) (.unboundEdge node scaleEdge)
    pure ⟨b, some scale⟩

/-- The outputs and the inputs of a node. -/
def gatherOperands (node : ℕ) (n : GraphNode ω) (batch : BatchMeta) (store : Store F)
    (scales : ℕ → Option ℕ) :
    Except (ExecError F) (List (TypedBuffer F) × List (TensorView F)) := do
  let outputs ← n.outputs.mapM (allocate g node batch)
  let buffers ← n.inputs.mapM (inputBuffer g node batch store)
  let views ← (n.inputs.zip buffers).mapM fun (e, b) => scaledView node store scales e b
  pure (outputs, views)

/-- Runs a node: what is to be published, and the state. -/
def runNode (d : Dispatch F ω κ σ) (node : ℕ) (n : GraphNode ω) (batch : BatchMeta) (args : κ)
    (store : Store F) (scales : ℕ → Option ℕ) (state : σ) :
    Except (ExecError F) (List (ℕ × TypedBuffer F)) × σ :=
  match gatherOperands g node n batch store scales with
  | .error e => (.error e, state)
  | .ok (outputs, views) =>
    match d.perform node n.op views outputs batch args state with
    | (.error e, state') => (.error e, state')
    | (.ok outs, state') => (.ok (n.outputs.zip outs), state')

end Node

/-! ### Runs -/

section Runs

variable {F ω κ σ : Type} [Zero F]

omit [Zero F] in
/-- Puts buffers into a store. -/
def publish (store : Store F) (produced : List (ℕ × TypedBuffer F)) : Store F :=
  produced.foldl (fun store p => Function.update store p.1 (some p.2)) store

structure CpuExecutor (F σ : Type) where
  store : Store F
  scales : ℕ → Option ℕ
  state : σ

/-- A node that a run reaches: what is stored then, and what the run has produced. -/
structure Visit (F : Type) where
  node : ℕ
  store : Store F
  made : Store F

/-- What a run returns, what it leaves, and the nodes that it has reached. -/
structure RunOutcome (F σ : Type) where
  result : Except (ExecError F) Unit
  executor : CpuExecutor F σ
  log : List (Visit F)

/-- Runs some nodes. The outputs of a node are published when it has succeeded, and stay when a
later one fails. -/
def runNodes (d : Dispatch F ω κ σ) (g : Graph ω) (batch : BatchMeta) (args : κ) :
    List ℕ → CpuExecutor F σ → Store F → RunOutcome F σ
  | [], ex, _ => ⟨.ok (), ex, []⟩
  | i :: order, ex, made =>
    match g.nodes[i]? with
    | none => ⟨.error (.ir (.graphNodeNotFound i)), ex, []⟩
    | some n =>
      match runNode g d i n batch args ex.store ex.scales ex.state with
      | (.error e, state) => ⟨.error e, ⟨ex.store, ex.scales, state⟩, [⟨i, ex.store, made⟩]⟩
      | (.ok produced, state) =>
        let rest := runNodes d g batch args order ⟨publish ex.store produced, ex.scales, state⟩
          (publish made produced)
        ⟨rest.result, rest.executor, ⟨i, ex.store, made⟩ :: rest.log⟩

/-- Runs a step graph. -/
def CpuExecutor.run (d : Dispatch F ω κ σ) (ex : CpuExecutor F σ) (g : Graph ω) (batch : BatchMeta)
    (args : κ) : RunOutcome F σ :=
  match stateOrdered g d.handle with
  | .error e => ⟨.error e, ex, []⟩
  | .ok order => runNodes d g batch args order ⟨ex.store, ex.scales, d.enter args ex.state⟩ fun _ => none

/-- A call of an executor. -/
inductive ExecCall (F ω κ : Type)
  | bind (e : ℕ) (b : TypedBuffer F)
  | clearEdges
  | run (g : Graph ω) (batch : BatchMeta) (args : κ)

def CpuExecutor.call (d : Dispatch F ω κ σ) (ex : CpuExecutor F σ) :
    ExecCall F ω κ → CpuExecutor F σ
  | .bind e b => ⟨Function.update ex.store e (some b), ex.scales, ex.state⟩
  | .clearEdges => ⟨fun _ => none, ex.scales, ex.state⟩
  | .run g batch args => (ex.run d g batch args).executor

/-- An executor without bindings, over some state. -/
def CpuExecutor.new (state : σ) : CpuExecutor F σ := ⟨fun _ => none, fun _ => none, state⟩

def CpuExecutor.calls (d : Dispatch F ω κ σ) (ex : CpuExecutor F σ) (l : List (ExecCall F ω κ)) :
    CpuExecutor F σ :=
  l.foldl (fun ex c => ex.call d c) ex

end Runs

end R9v

import R9v.Ir.Graph
import R9v.Ir.Bucket
import R9v.Lib.Kahn
import Mathlib.Data.List.Destutter

/-!
# The calls that make a step graph

The graph of a step with all that its calls keep (`r9v-ir/src/graph.rs`): the requirements of the
inputs, what is bound from outside, and the copies that were inserted. `StepGraph.call` is one
call of the interface, and `StepGraph.Reachable` are the graphs that calls can make.
-/

namespace R9v

open Checked

/-! ### What is bound from outside -/

inductive ExternalInputKind
  | tokenIds | batchMeta | rngState | gatherStaging | grammarMask | samplingParams | embedOverride
  | embedMask | subgraphHidden
  deriving DecidableEq

namespace ExternalInputKind

def isTensorBacked : ExternalInputKind → Bool
  | .tokenIds | .gatherStaging | .grammarMask | .embedOverride | .embedMask | .subgraphHidden => true
  | .batchMeta | .samplingParams | .rngState => false

/-- The kind as it is written in messages. -/
def name : ExternalInputKind → String
  | .tokenIds => "TokenIds"
  | .batchMeta => "BatchMeta"
  | .rngState => "RngState"
  | .gatherStaging => "GatherStaging"
  | .grammarMask => "GrammarMask"
  | .samplingParams => "SamplingParams"
  | .embedOverride => "EmbedOverride"
  | .embedMask => "EmbedMask"
  | .subgraphHidden => "SubgraphHidden"

end ExternalInputKind

inductive ExternalOutputKind
  | sampled | acceptLen | logits | hidden | updatedRngState
  deriving DecidableEq

namespace ExternalOutputKind

def isTensorBacked : ExternalOutputKind → Bool
  | .sampled | .acceptLen | .logits | .hidden => true
  | .updatedRngState => false

/-- The kind as it is written in messages. -/
def name : ExternalOutputKind → String
  | .sampled => "Sampled"
  | .acceptLen => "AcceptLen"
  | .logits => "Logits"
  | .hidden => "Hidden"
  | .updatedRngState => "UpdatedRngState"

end ExternalOutputKind

/-- Something from outside: a tensor is an edge, and structured data is not. -/
inductive ExternalInput
  | tensor (kind : ExternalInputKind) (edge : ℕ)
  | batchMeta
  | samplingParams
  | rngState
  deriving DecidableEq

def ExternalInput.kind : ExternalInput → ExternalInputKind
  | .tensor kind _ => kind
  | .batchMeta => .batchMeta
  | .samplingParams => .samplingParams
  | .rngState => .rngState

inductive ExternalOutput
  | tensor (kind : ExternalOutputKind) (edge : ℕ)
  | updatedRngState
  deriving DecidableEq

def ExternalOutput.kind : ExternalOutput → ExternalOutputKind
  | .tensor kind _ => kind
  | .updatedRngState => .updatedRngState

inductive PositionsKind
  | scalar | mrope
  deriving DecidableEq

/-- The errors of the calls. -/
inductive StepGraphError
  | ir (e : GraphError)
  | opDTypeMismatch (op tensor : String) (expected : List DType) (got : DType)
  | opClassMismatch (op tensor : String) (expected got : Class)
  | opPlacementMismatch (op tensor : String) (placement : Placement)
  | opQuantMismatch (op tensor : String) (quant : QuantScheme)
  | leadingDimension (op tensor : String) (concrete : ℕ) (symbolic : ShapeSymbol) (got : Dim)
  | positionsConflict (existing requested : PositionsKind)
  | graphExternalInputMissing (kind : ExternalInputKind) (requiredBy : String)
  | graphExternalOutputUnproduced (kind : ExternalOutputKind) (edge : ℕ)
  | multiple (problems : List StepGraphError)

namespace StepGraphError

/-- No failure is no error, one failure is that error, and several are reported together. -/
def fromProblems : List StepGraphError → Except StepGraphError Unit
  | [] => .ok ()
  | [e] => .error e
  | problems => .error (.multiple problems)

/-- The errors of tensors and views. -/
def lift {α : Type} : Except GraphError α → Except StepGraphError α
  | .ok a => .ok a
  | .error e => .error (.ir e)

end StepGraphError

/-- Whether a dimension is that of the bucket. -/
def bucketDimMatches (dim : Dim) (concrete : ℕ) (symbolic : ShapeSymbol) : Bool :=
  dim = .concrete concrete || dim = .symbolic symbolic

/-- What a tensor from outside must be. -/
structure ExternalContract where
  role : String
  rank : ℕ
  dtypes : List DType
  cls : Class
  leading : ℕ × ShapeSymbol

/-- What is wrong with a tensor from outside, apart from its quantization and its first
dimension. -/
def validateExternalTensorCommon (c : ExternalContract) (tensor : Tensor) (deviceRank : ℕ) :
    List StepGraphError :=
  (if tensor.shape.length ≠ c.rank then
    [.ir (.opRankMismatch "step_graph_external" c.role c.rank tensor.shape.length)] else []) ++
  (if ¬c.dtypes.contains tensor.dtype then
    [.opDTypeMismatch "step_graph_external" c.role c.dtypes tensor.dtype] else []) ++
  (if tensor.cls ≠ c.cls then
    [.opClassMismatch "step_graph_external" c.role c.cls tensor.cls] else []) ++
  (if tensor.layout ≠ .contiguous then
    [.ir (.opLayoutMismatch "step_graph_external" c.role .contiguous tensor.layout)] else []) ++
  if tensor.placement ≠ .device deviceRank then
    [.opPlacementMismatch "step_graph_external" c.role tensor.placement] else []

/-- What is wrong with the first dimension of a tensor from outside. -/
def leadingProblems (c : ExternalContract) (tensor : Tensor) : List StepGraphError :=
  match tensor.shape.head? with
  | none => []
  | some dim =>
    if bucketDimMatches dim c.leading.1 c.leading.2 then []
    else [.leadingDimension "step_graph_external" c.role c.leading.1 c.leading.2 dim]

/-- The tokens of a bucket, as a 32-bit word. -/
def StepGraphKey.totalTokens (key : StepGraphKey) : ℕ := min (key.tDec + key.tPre) (2 ^ 32 - 1)

/-- What an input must be; structured data is no tensor. -/
def inputContract (key : StepGraphKey) : ExternalInputKind → Option ExternalContract
  | .tokenIds => some ⟨"token_ids", 1, [.u32], .activation, (key.totalTokens, .t)⟩
  | .gatherStaging => some ⟨"gather_staging", 3, [.i4, .i8], .staging, (key.totalTokens, .t)⟩
  | .grammarMask => some ⟨"grammar_mask", 3, [.bool], .activation, (key.s, .s)⟩
  | .embedOverride =>
    some ⟨"embed_override", 2, [.f16, .bf16, .f32], .activation, (key.totalTokens, .t)⟩
  | .embedMask => some ⟨"embed_mask", 1, [.bool], .activation, (key.totalTokens, .t)⟩
  | .subgraphHidden =>
    some ⟨"subgraph_hidden", 2, [.f16, .bf16, .f32], .activation, (key.totalTokens, .t)⟩
  | .batchMeta | .rngState | .samplingParams => none

/-- Staged rows are quantized by a scheme, and nothing else is. -/
def inputQuantOk (kind : ExternalInputKind) (quant : QuantScheme) : Bool :=
  match kind, quant with
  | .gatherStaging, .scheme _ => true
  | .gatherStaging, _ => false
  | _, quant => quant = .none

def validateExternalInputTensor (key : StepGraphKey) (kind : ExternalInputKind) (tensor : Tensor) :
    Except StepGraphError Unit :=
  match inputContract key kind with
  | none => .error (.ir (.opAttributeInvalid "add_external_input" "kind"
      s!"{kind.name} is non-tensor structured data and cannot bind a Tensor edge"))
  | some c => StepGraphError.fromProblems (validateExternalTensorCommon c tensor key.rank ++
      (if inputQuantOk kind tensor.quant then []
        else [.opQuantMismatch "step_graph_external" c.role tensor.quant]) ++ leadingProblems c tensor)

/-- What an output must be. -/
def outputContract (key : StepGraphKey) : ExternalOutputKind → Option ExternalContract
  | .sampled => some ⟨"sampled", 2, [.u32], .activation, (key.s, .s)⟩
  | .acceptLen => some ⟨"accept_len", 1, [.u32], .activation, (key.s, .s)⟩
  | .logits => some ⟨"logits", 3, [.f32], .activation, (key.s, .s)⟩
  | .hidden => some ⟨"hidden", 2, [.f16, .bf16, .f32], .activation, (key.totalTokens, .t)⟩
  | .updatedRngState => none

def validateExternalOutputTensor (key : StepGraphKey) (kind : ExternalOutputKind) (tensor : Tensor) :
    Except StepGraphError Unit :=
  match outputContract key kind with
  | none => .error (.ir (.opAttributeInvalid "add_external_output" "kind"
      "UpdatedRngState is non-tensor structured data and cannot bind a Tensor edge"))
  | some c => StepGraphError.fromProblems (validateExternalTensorCommon c tensor key.rank ++
      (if tensor.quant = .none then []
        else [.opQuantMismatch "step_graph_external" c.role tensor.quant]) ++ leadingProblems c tensor)

/-! ### The graph -/

/-- What an operation requires of the strides of an input. -/
inductive StrideRequirement
  | any | contiguous
  deriving DecidableEq

inductive CopyKind
  | contiguize | deviceToDevice | hostToDevice | deviceToHost
  deriving DecidableEq

/-- An operation: a copy, or one of the others. -/
inductive StepOp (ω : Type)
  | copy (kind : CopyKind)
  | other (op : ω)

def StepOp.isCopy {ω : Type} : StepOp ω → Bool
  | .copy _ => true
  | .other _ => false

/-- An operation of a graph, with what it requires of its inputs. -/
structure StepNode (ω : Type) where
  op : StepOp ω
  inputs : List ℕ
  inputRequirements : List StrideRequirement
  outputs : List ℕ

/-- A copy that was inserted, and the nodes that read it. -/
structure InsertedCopy where
  copyNode : ℕ
  sourceEdge : ℕ
  destEdge : ℕ
  consumerNodes : List ℕ
  actualStrides : List ℤ
  expectedStrides : List ℤ

/-- A node more that reads a copy. -/
def InsertedCopy.addConsumer (c : InsertedCopy) (i : ℕ) : InsertedCopy :=
  if c.consumerNodes.contains i then c
  else { c with consumerNodes := (c.consumerNodes ++ [i]).mergeSort (· ≤ ·) }

/-- The graph of a step. Nodes and edges are known by their positions. -/
structure StepGraph (ω : Type) where
  key : StepGraphKey
  nodes : List (StepNode ω)
  edges : List GraphEdge
  externalInputs : List ExternalInput
  externalOutputs : List ExternalOutput
  insertedCopies : List InsertedCopy
  positions : Option (PositionsKind × ℕ)

namespace StepGraph

variable {ω : Type} (g : StepGraph ω)

def new (key : StepGraphKey) : StepGraph ω := ⟨key, [], [], [], [], [], none⟩

/-- Adds an edge for a tensor. -/
def pushTensorEdge (tensor : Tensor) : ℕ × StepGraph ω :=
  (g.edges.length,
    { g with edges := g.edges ++ [⟨tensor, computeContiguousStrides tensor.shape, none⟩] })

def addTensor (tensor : Tensor) : Except StepGraphError (ℕ × StepGraph ω) := do
  let problems : List StepGraphError :=
    (if tensor.cls = .weight ∨ tensor.cls = .param ∨ tensor.cls = .state then []
      else [.ir (.graphSourceClassInvalid tensor.cls)]) ++
    match tensor.placement with
    | .device rank =>
      if rank ≠ g.key.rank then
        [.ir (.graphTensorRankMismatch g.edges.length rank g.key.rank)] else []
    | _ => []
  StepGraphError.fromProblems problems
  pure (g.pushTensorEdge tensor)

def addExternalInput (kind : ExternalInputKind) (tensor : Tensor) :
    Except StepGraphError (ℕ × StepGraph ω) := do
  ensure kind.isTensorBacked (.ir (.opAttributeInvalid "add_external_input" "kind"
    s!"{kind.name} is a non-tensor input; register without a fake Tensor descriptor via add_external_non_tensor or convenience method"))
  ensure (¬(g.externalInputs.map (·.kind)).contains kind)
    (.ir (.opAttributeInvalid "add_external_input" "kind" s!"duplicate {kind.name} external input"))
  validateExternalInputTensor g.key kind tensor
  let (edge, g) := g.pushTensorEdge tensor
  pure (edge, { g with externalInputs := g.externalInputs ++ [.tensor kind edge] })

/-- Structured data is bound once. -/
def bindInput (input : ExternalInput) : Except StepGraphError (StepGraph ω) := do
  ensure (¬g.externalInputs.contains input) (.ir (.opAttributeInvalid "add_external_non_tensor" "kind"
    s!"duplicate {input.kind.name} external input; step graph admits exactly one {input.kind.name}"))
  pure { g with externalInputs := g.externalInputs ++ [input] }

def addExternalNonTensor (kind : ExternalInputKind) : Except StepGraphError (StepGraph ω) :=
  match kind with
  | .batchMeta => g.bindInput .batchMeta
  | .samplingParams => g.bindInput .samplingParams
  | .rngState => g.bindInput .rngState
  | kind => .error (.ir (.opAttributeInvalid "add_external_non_tensor" "kind"
      s!"{kind.name} is a tensor-backed input; register via add_external_input with a valid Tensor descriptor"))

/-! ### Producers -/

/-- The node that produces an edge: a later node replaces an earlier one. -/
def producerMap (e : ℕ) : Option ℕ :=
  (g.nodes.zipIdx.reverse.find? fun x => x.1.outputs.contains e).map (·.2)

/-- The node that produces an edge or what it is a view of, through as many views as the fuel
allows. -/
def resolveProducer : ℕ → ℕ → Option ℕ
  | 0, _ => none
  | fuel + 1, e =>
    match g.producerMap e with
    | some p => some p
    | none => ((g.edges[e]?).bind (·.sourceEdge)).bind fun s => resolveProducer fuel s

def addExternalOutput (kind : ExternalOutputKind) (edge : ℕ) :
    Except StepGraphError (StepGraph ω) := do
  ensure kind.isTensorBacked (.ir (.opAttributeInvalid "add_external_output" "kind"
    s!"{kind.name} is a non-tensor output; register without a fake Tensor descriptor via add_external_non_tensor_output or add_updated_rng_state_output"))
  let old ← okOr g.edges[edge]? (.ir (.graphEdgeNotFound edge))
  ensure (¬(g.externalOutputs.map (·.kind)).contains kind)
    (.ir (.opAttributeInvalid "add_external_output" "kind" s!"duplicate {kind.name} external output"))
  validateExternalOutputTensor g.key kind old.tensor
  ensure (g.resolveProducer (g.edges.length + 1) edge).isSome (.graphExternalOutputUnproduced kind edge)
  pure { g with externalOutputs := g.externalOutputs ++ [.tensor kind edge] }

def addExternalNonTensorOutput (kind : ExternalOutputKind) : Except StepGraphError (StepGraph ω) :=
  match kind with
  | .updatedRngState => do
    ensure (¬g.externalOutputs.contains .updatedRngState)
      (.ir (.opAttributeInvalid "add_external_non_tensor_output" "kind"
        "duplicate UpdatedRngState external output; step graph admits exactly one UpdatedRngState"))
    pure { g with externalOutputs := g.externalOutputs ++ [.updatedRngState] }
  | kind => .error (.ir (.opAttributeInvalid "add_external_non_tensor_output" "kind"
      s!"{kind.name} is a tensor-backed output; register via add_external_output with a valid EdgeId"))

def bindPositions (kind : PositionsKind) : Except StepGraphError (ℕ × StepGraph ω) := do
  match g.positions with
  | some (existing, _) => .error (.positionsConflict existing kind)
  | none => do
    ensure (g.externalInputs.contains .batchMeta) (.graphExternalInputMissing .batchMeta "positions")
    let shape : List Dim :=
      match kind with
      | .scalar => [.symbolic .t]
      | .mrope => [.symbolic .t, .concrete 3]
    let tensor ← StepGraphError.lift
      (Tensor.new shape .u32 .none .contiguous (.device g.key.rank) .replicated .activation)
    let (edge, g) := g.pushTensorEdge tensor
    pure (edge, { g with positions := some (kind, edge) })

/-! ### Nodes -/

/-- Adds an operation with a new edge for each output. -/
def addOpWithRequirements (op : StepOp ω) (inputs : List ℕ)
    (requirements : List StrideRequirement) (outputs : List Tensor) :
    Except StepGraphError (ℕ × StepGraph ω) := do
  let missing : List StepGraphError :=
    (inputs.filter fun e => g.edges.length ≤ e).map fun e => .ir (.graphEdgeNotFound e)
  let count : List StepGraphError :=
    if requirements.length ≠ inputs.length then
      [.ir (.opInputCountMismatch "add_op" inputs.length requirements.length)] else []
  StepGraphError.fromProblems (missing ++ count)
  let node := ⟨op, inputs, requirements, List.range' g.edges.length outputs.length⟩
  pure (g.nodes.length, { g with
    nodes := g.nodes ++ [node]
    edges := g.edges ++ outputs.map fun t => ⟨t, computeContiguousStrides t.shape, none⟩ })

def addOp (op : StepOp ω) (inputs : List ℕ) (outputs : List Tensor) :
    Except StepGraphError (ℕ × StepGraph ω) :=
  g.addOpWithRequirements op inputs (inputs.map fun _ => .any) outputs

def setEdgeStrides (e : ℕ) (strides : List ℤ) : Except StepGraphError (StepGraph ω) := do
  let edge ← okOr g.edges[e]? (.ir (.graphEdgeNotFound e))
  let rank := edge.tensor.shape.length
  ensure (strides.length = rank)
    (.ir (.opRankMismatch "set_edge_strides" "edge" rank strides.length))
  pure { g with edges := g.edges.set e { edge with strides := strides } }

def setNodeInputRequirement (i p : ℕ) (requirement : StrideRequirement) :
    Except StepGraphError (StepGraph ω) := do
  let node ← okOr g.nodes[i]? (.ir (.graphNodeNotFound i))
  ensure (p < node.inputs.length)
    (.ir (.opInputCountMismatch "set_node_input_requirement" node.inputs.length p))
  let node := { node with inputRequirements := node.inputRequirements.set p requirement }
  pure { g with nodes := g.nodes.set i node }

/-- Puts an edge in place of an input of a node. -/
def setInput (nodes : List (StepNode ω)) (i p e : ℕ) : List (StepNode ω) :=
  nodes.modify i fun n => { n with inputs := n.inputs.set p e }

def rewireNodeInput (i p e : ℕ) : Except StepGraphError (StepGraph ω) := do
  let noNode : List StepGraphError :=
    if g.nodes.length ≤ i then [.ir (.graphNodeNotFound i)] else []
  let noEdge : List StepGraphError :=
    if g.edges.length ≤ e then [.ir (.graphEdgeNotFound e)] else []
  let noInput : List StepGraphError :=
    match g.nodes[i]? with
    | some n =>
      if n.inputs.length ≤ p then [.ir (.opInputCountMismatch "rewire" n.inputs.length p)] else []
    | none => []
  StepGraphError.fromProblems (noNode ++ noEdge ++ noInput)
  pure { g with nodes := setInput g.nodes i p e }

/-! ### Views -/

/-- A view of an edge with its axes in another order, which keeps the strides. -/
def transposeEdge (e : ℕ) (perm : List ℕ) : Except StepGraphError (ℕ × StepGraph ω) := do
  let old ← okOr g.edges[e]? (.ir (.graphEdgeNotFound e))
  let rank := old.tensor.shape.length
  ensure (perm.length = rank) (.ir (.opRankMismatch "transpose_view" "edge" rank perm.length))
  StepGraphError.lift (GraphError.fromProblems (Graph.permProblems rank perm))
  let tensor ← StepGraphError.lift (Tensor.new
    (perm.map fun p => old.tensor.shape.getD p (.concrete 0)) old.tensor.dtype old.tensor.quant
    old.tensor.layout old.tensor.placement (Graph.ShardLayout.permute perm old.tensor.sharding) old.tensor.cls)
  let strides := perm.map fun p => old.strides.getD p 0
  pure (g.edges.length, { g with edges := g.edges ++ [⟨tensor, strides, some e⟩] })

/-- A view of an edge with another shape. -/
def reshapeEdge (e : ℕ) (shape : List Dim) : Except StepGraphError (ℕ × StepGraph ω) := do
  let old ← okOr g.edges[e]? (.ir (.graphEdgeNotFound e))
  StepGraphError.lift (Graph.checkReshape e old shape)
  let tensor ← StepGraphError.lift (Tensor.new shape old.tensor.dtype old.tensor.quant
    old.tensor.layout old.tensor.placement old.tensor.sharding old.tensor.cls)
  pure (g.edges.length,
    { g with edges := g.edges ++ [⟨tensor, computeContiguousStrides tensor.shape, some e⟩] })

/-! ### The order of the nodes -/

/-- The links from the producers of the inputs of the nodes, in the order in which they are
found. -/
def links : List (ℕ × ℕ) :=
  g.nodes.zipIdx.flatMap fun (n, i) =>
    n.inputs.filterMap fun e => (g.resolveProducer (g.edges.length + 1) e).map (·, i)

/-- The nodes in an order in which each comes after the producers of its inputs. -/
def topologicalOrder : Except StepGraphError (List ℕ) := do
  let missing := (g.nodes.flatMap (·.inputs)).filter fun e => g.edges.length ≤ e
  StepGraphError.fromProblems (missing.map fun e => .ir (.graphEdgeNotFound e))
  let count := g.nodes.length
  let (order, inDegree) := Kahn.kahn g.links count
  if order.length ≠ count then
    .error (.ir (.graphCycle (((List.range count).find? (0 < inDegree ·)).getD 0)))
  else pure order

/-! ### Copies -/

/-- An input whose strides are not what its node requires: the node, the input, and the edge. A copy
takes any strides. -/
def mismatches : List (ℕ × ℕ × ℕ) :=
  g.nodes.zipIdx.flatMap fun (n, i) =>
    if n.op.isCopy then []
    else n.inputs.zipIdx.filterMap fun (e, p) =>
      match n.inputRequirements.getD p .any, g.edges[e]? with
      | .contiguous, some edge => if edge.isContiguous then none else some (i, p, e)
      | _, _ => none

/-- A copy that is to be inserted, and the inputs that are to read it. -/
structure CopyPlan where
  srcEdge : ℕ
  consumers : List (ℕ × ℕ)

/-- What a pass is going to do: to put older copies in place of some inputs, and to insert copies. -/
structure Plans where
  existingRewires : List (ℕ × ℕ × ℕ)
  plans : List CopyPlan

/-- Plans for one input: there is a copy of its edge, or one is planned, or one is to be planned. -/
def Plans.add (copies : List InsertedCopy) (x : Plans) : ℕ × ℕ × ℕ → Plans
  | (i, p, e) =>
    match copies.find? (·.sourceEdge = e) with
    | some c => { x with existingRewires := x.existingRewires ++ [(c.destEdge, i, p)] }
    | none =>
      match x.plans.findIdx? (·.srcEdge = e) with
      | some k =>
        { x with
          plans := x.plans.modify k fun plan => { plan with consumers := plan.consumers ++ [(i, p)] } }
      | none => { x with plans := x.plans ++ [⟨e, [(i, p)]⟩] }

/-- Puts an older copy in place of an input. -/
def applyRewire : ℕ × ℕ × ℕ → StepGraph ω
  | (dest, i, p) =>
    { g with
      nodes := setInput g.nodes i p dest
      insertedCopies :=
        match g.insertedCopies.findIdx? (·.destEdge = dest) with
        | some k => g.insertedCopies.modify k (·.addConsumer i)
        | none => g.insertedCopies }

/-- Inserts a copy. The strides of its source are still those that were found: a pass only adds
edges. -/
def applyPlan (plan : CopyPlan) : Except StepGraphError Unit × StepGraph ω :=
  match g.edges[plan.srcEdge]? with
  | none => (.error (.ir (.graphEdgeNotFound plan.srcEdge)), g)
  | some src =>
    match Tensor.new src.tensor.shape src.tensor.dtype src.tensor.quant .contiguous
      src.tensor.placement src.tensor.sharding src.tensor.cls with
    | .error e => (.error (.ir e), g)
    | .ok tensor =>
      let expected := computeContiguousStrides tensor.shape
      let dest := g.edges.length
      let node : StepNode ω := ⟨.copy .contiguize, [plan.srcEdge], [.any], [dest]⟩
      let consumers := ((plan.consumers.map (·.1)).mergeSort (· ≤ ·)).destutter (· ≠ ·)
      (.ok (), { g with
        edges := g.edges ++ [⟨tensor, expected, none⟩]
        nodes := plan.consumers.foldl (fun nodes (i, p) => setInput nodes i p dest) (g.nodes ++ [node])
        insertedCopies := g.insertedCopies ++
          [⟨g.nodes.length, plan.srcEdge, dest, consumers, src.strides,
            computeContiguousStrides src.tensor.shape⟩] })

/-- Inserts copies, up to the first that fails. -/
def applyPlans : StepGraph ω → List CopyPlan → Except StepGraphError Unit × StepGraph ω
  | g, [] => (.ok (), g)
  | g, plan :: plans =>
    match g.applyPlan plan with
    | (.error e, g) => (.error e, g)
    | (.ok _, g) => applyPlans g plans

/-- Inserts the copies that are missing: their number. -/
def materializeCopies : Except StepGraphError ℕ × StepGraph ω :=
  let x := g.mismatches.foldl (Plans.add g.insertedCopies) ⟨[], []⟩
  let g := x.existingRewires.foldl applyRewire g
  let (r, g) := g.applyPlans x.plans
  (r.map fun _ => x.plans.length, g)

/-! ### Calls -/

end StepGraph

/-- A call on a graph. -/
inductive StepGraphCall (ω : Type)
  | addTensor (tensor : Tensor)
  | addExternalInput (kind : ExternalInputKind) (tensor : Tensor)
  | addExternalNonTensor (kind : ExternalInputKind)
  | addExternalOutput (kind : ExternalOutputKind) (edge : ℕ)
  | addExternalNonTensorOutput (kind : ExternalOutputKind)
  | bindPositions (kind : PositionsKind)
  | addOp (op : StepOp ω) (inputs : List ℕ) (outputs : List Tensor)
  | addOpWithRequirements (op : StepOp ω) (inputs : List ℕ) (requirements : List StrideRequirement)
      (outputs : List Tensor)
  | setEdgeStrides (edge : ℕ) (strides : List ℤ)
  | setNodeInputRequirement (node input : ℕ) (requirement : StrideRequirement)
  | transposeEdge (edge : ℕ) (perm : List ℕ)
  | reshapeEdge (edge : ℕ) (shape : List Dim)
  | rewireNodeInput (node input edge : ℕ)
  | materializeCopies

namespace StepGraph

variable {ω : Type}

/-- The graph after a call that changes nothing when it fails. -/
def orElse (g : StepGraph ω) : Except StepGraphError (StepGraph ω) → StepGraph ω
  | .ok g' => g'
  | .error _ => g

/-- The graph after a call. -/
def call (g : StepGraph ω) : StepGraphCall ω → StepGraph ω
  | .addTensor tensor => g.orElse ((g.addTensor tensor).map (·.2))
  | .addExternalInput kind tensor => g.orElse ((g.addExternalInput kind tensor).map (·.2))
  | .addExternalNonTensor kind => g.orElse (g.addExternalNonTensor kind)
  | .addExternalOutput kind edge => g.orElse (g.addExternalOutput kind edge)
  | .addExternalNonTensorOutput kind => g.orElse (g.addExternalNonTensorOutput kind)
  | .bindPositions kind => g.orElse ((g.bindPositions kind).map (·.2))
  | .addOp op inputs outputs => g.orElse ((g.addOp op inputs outputs).map (·.2))
  | .addOpWithRequirements op inputs requirements outputs =>
    g.orElse ((g.addOpWithRequirements op inputs requirements outputs).map (·.2))
  | .setEdgeStrides edge strides => g.orElse (g.setEdgeStrides edge strides)
  | .setNodeInputRequirement node input requirement =>
    g.orElse (g.setNodeInputRequirement node input requirement)
  | .transposeEdge edge perm => g.orElse ((g.transposeEdge edge perm).map (·.2))
  | .reshapeEdge edge shape => g.orElse ((g.reshapeEdge edge shape).map (·.2))
  | .rewireNodeInput node input edge => g.orElse (g.rewireNodeInput node input edge)
  | .materializeCopies => g.materializeCopies.2

/-- The graphs that calls can make. -/
inductive Reachable : StepGraph ω → Prop
  | new (key : StepGraphKey) : Reachable (new key)
  | call {g : StepGraph ω} (c : StepGraphCall ω) : Reachable g → Reachable (g.call c)

end StepGraph

end R9v

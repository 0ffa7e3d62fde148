import R9v.Lib.Checked
import Mathlib.Data.List.Nodup

/-!
# Tensors and step graphs

The descriptors of tensors (`r9v-ir/src/tensor.rs`) and the graph of a step
(`r9v-ir/src/graph.rs`): nodes, which are operations, and edges, which are tensors. An
edge is produced by a node, is a view of another edge, or is neither and comes from
outside the graph. What the calls that build a graph keep is carried by `Graph`: a view
is newer than its source, an edge has one producer at most, and what is produced is not
a view.
-/

namespace R9v

open List

/-! ### Tensors -/

/-- The types of the elements of a tensor. -/
inductive DType
  | f32 | f16 | bf16 | e4m3 | e5m2 | i8 | i4 | i32 | u32 | bool
  deriving DecidableEq

/-- The names of the dimensions that are not known before a step. -/
inductive ShapeSymbol
  | t | s | dm | dff | h | hkv | d | e | k | v | np | l
  deriving DecidableEq

inductive Dim
  | concrete (extent : ℕ)
  | symbolic (symbol : ShapeSymbol)
  deriving DecidableEq

inductive QuantScheme
  | none
  | perRow
  | scheme (id : ℕ)
  | perToken
  | perBlock32
  deriving DecidableEq

/-- The code of a layout. -/
structure LayoutId where
  code : ℕ
  deriving DecidableEq

namespace LayoutId

def contiguous : LayoutId := ⟨0⟩

def l0 : LayoutId := ⟨1⟩

def l1 : LayoutId := ⟨2⟩

def l1s : LayoutId := ⟨3⟩

end LayoutId

inductive Placement
  | device (rank : ℕ)
  | host
  | tiered
  deriving DecidableEq

inductive ShardLayout
  | replicated
  | colShard (axis : ℕ)
  | rowShard (axis : ℕ)
  | headShard (heads : ℕ)
  | expertShard (experts : ℕ)
  | partialSum
  deriving DecidableEq

inductive Class
  | weight | activation | state | staging | param
  deriving DecidableEq

/-- The errors of tensors and graphs. -/
inductive GraphError
  | invalidRank (got : ℕ)
  | zeroExtent (axis : ℕ)
  | placementForClass (placement : Placement) (cls : Class)
  | quantForClass (quant : QuantScheme) (cls : Class)
  | layoutForClass (layout : LayoutId) (cls : Class)
  | dtypeForClass (dtype : DType) (cls : Class)
  | quantDType (quant : QuantScheme) (dtype : DType)
  | graphSourceClassInvalid (cls : Class)
  | graphTensorRankMismatch (edge tensorRank graphRank : ℕ)
  | graphEdgeNotFound (edge : ℕ)
  | graphNodeNotFound (node : ℕ)
  | graphCycle (node : ℕ)
  | opRankMismatch (op tensor : String) (expected got : ℕ)
  | opInputCountMismatch (op : String) (expected got : ℕ)
  | opLayoutMismatch (op tensor : String) (expected got : LayoutId)
  | opAttributeInvalid (op field reason : String)
  | opShapeMismatch (op tensor detail : String)
  | shardingRemap (op : String) (sharding : ShardLayout)
  | strideMismatch (edge : ℕ) (actual expected : List ℤ)
  | multiple (problems : List GraphError)

/-- No failure is no error, one failure is that error, and several are reported together. -/
def GraphError.fromProblems : List GraphError → Except GraphError Unit
  | [] => .ok ()
  | [e] => .error e
  | problems => .error (.multiple problems)

section Tensor

variable (shape : List Dim) (dtype : DType) (quant : QuantScheme) (layout : LayoutId)
  (placement : Placement) (cls : Class)

/-- Whether a scheme fits the type of the elements. -/
def QuantScheme.badDType : QuantScheme → DType → Bool
  | .perToken, dtype => !(dtype = .i8 || dtype = .e4m3)
  | .perBlock32, dtype => dtype ≠ .i8
  | .perRow, dtype | .scheme _, dtype => dtype ∈ [.f32, .bf16, .e5m2, .i32, .u32, .bool]
  | .none, dtype => dtype = .i4

/-- Everything that is wrong with a tensor. -/
def tensorProblems : List GraphError :=
  (if shape = [] ∨ 4 < shape.length then [.invalidRank shape.length] else []) ++
    (shape.zipIdx.flatMap fun (dim, axis) => if dim = .concrete 0 then [.zeroExtent axis] else []) ++
    (match placement, cls with
      | .device _, _ | .host, .weight | .tiered, .weight => []
      | _, _ => [.placementForClass placement cls]) ++
    (match quant, cls with
      | .none, _ | .perRow, .weight | .perRow, .staging | .scheme _, .weight | .scheme _, .staging
      | .perToken, .activation | .perBlock32, .activation => []
      | _, _ => [.quantForClass quant cls]) ++
    (if (cls = .activation ∧ layout ≠ .contiguous) ∨
        ((layout = .l1 ∨ layout = .l1s) ∧ cls ≠ .weight) then [.layoutForClass layout cls] else []) ++
    (if dtype = .i4 ∧ ¬(cls = .weight ∨ cls = .staging) then [.dtypeForClass dtype cls] else []) ++
    if quant.badDType dtype then [.quantDType quant dtype] else []

end Tensor

/-- The descriptor of a tensor, with nothing wrong with it. -/
structure Tensor where
  shape : List Dim
  dtype : DType
  quant : QuantScheme
  layout : LayoutId
  placement : Placement
  sharding : ShardLayout
  cls : Class
  valid : tensorProblems shape dtype quant layout placement cls = []

/-- Builds a tensor. -/
def Tensor.new (shape : List Dim) (dtype : DType) (quant : QuantScheme) (layout : LayoutId)
    (placement : Placement) (sharding : ShardLayout) (cls : Class) : Except GraphError Tensor :=
  match h : tensorProblems shape dtype quant layout placement cls with
  | [] => .ok ⟨shape, dtype, quant, layout, placement, sharding, cls, h⟩
  | [e] => .error e
  | problems => .error (.multiple problems)

/-! ### Strides -/

/-- A product of 64-bit integers, or the largest one. -/
def saturatingMul (a b : ℤ) : ℤ := min (a * b) (2 ^ 63 - 1)

/-- The extent a dimension counts for in a stride: a symbol counts as two. -/
def Dim.extent : Dim → ℤ
  | .concrete c => max c 1
  | .symbolic _ => 2

/-- The strides of a row-major tensor, and the stride that would come next. -/
def contiguousFrom : List Dim → List ℤ × ℤ
  | [] => ([], 1)
  | dim :: dims =>
    let (strides, stride) := contiguousFrom dims
    (stride :: strides, saturatingMul stride dim.extent)

def computeContiguousStrides (shape : List Dim) : List ℤ := (contiguousFrom shape).1

def concreteElementCount : List Dim → Option ℕ
  | [] => some 1
  | .concrete c :: dims => (concreteElementCount dims).map (c * ·)
  | .symbolic _ :: _ => none

/-! ### State handles -/

/-- What is kept for a sequence from step to step. -/
inductive StateKind
  | kvPaged | kvLatent | recurrent | convWindow
  deriving DecidableEq

/-- The name of the state of a layer. -/
structure StateHandle where
  layer : ℕ
  kind : StateKind
  deriving DecidableEq

/-! ### Graphs -/

/-- A tensor of a graph: `sourceEdge` is the edge it is a view of. -/
structure GraphEdge where
  tensor : Tensor
  strides : List ℤ
  sourceEdge : Option ℕ

def GraphEdge.isContiguous (e : GraphEdge) : Bool :=
  e.strides = computeContiguousStrides e.tensor.shape

/-- An operation of a graph. -/
structure GraphNode (ω : Type) where
  op : ω
  inputs : List ℕ
  outputs : List ℕ

/-- The graph of a step, over some operations. -/
structure Graph (ω : Type) where
  rank : ℕ
  nodes : List (GraphNode ω)
  edges : List GraphEdge
  input_lt : ∀ n ∈ nodes, ∀ e ∈ n.inputs, e < edges.length
  output_plain : ∀ n ∈ nodes, ∀ e ∈ n.outputs,
    ∃ edge : GraphEdge, edges[e]? = some edge ∧ edge.sourceEdge = none
  output_nodup : (nodes.flatMap (·.outputs)).Nodup
  source_lt : ∀ (e : ℕ) (edge : GraphEdge) (s : ℕ), edges[e]? = some edge → edge.sourceEdge = some s → s < e

namespace Graph

variable {ω : Type} (g : Graph ω)

/-- An empty graph. -/
def new (rank : ℕ) : Graph ω where
  rank := rank
  nodes := []
  edges := []
  input_lt := by simp
  output_plain := by simp
  output_nodup := by simp
  source_lt := by simp

variable {g}

theorem output_lt {n : GraphNode ω} (hn : n ∈ g.nodes) {e : ℕ} (he : e ∈ n.outputs) :
    e < g.edges.length := by
  obtain ⟨edge, hedge, -⟩ := g.output_plain n hn e he
  exact (List.getElem?_eq_some_iff.mp hedge).1

theorem getElem?_push {edge : GraphEdge} {new : GraphEdge} {e : ℕ}
    (h : (g.edges ++ [new])[e]? = some edge) :
    g.edges[e]? = some edge ∨ (e = g.edges.length ∧ edge = new) := by
  rcases Nat.lt_or_ge e g.edges.length with hlt | hge
  · rw [List.getElem?_append_left hlt] at h
    exact Or.inl h
  · rw [List.getElem?_append_right hge] at h
    obtain ⟨hlt, heq⟩ := List.getElem?_eq_some_iff.mp h
    rw [List.length_singleton] at hlt
    exact Or.inr ⟨by omega, by rw [← heq, List.getElem_singleton]⟩

variable (g)

/-- Adds an edge that is new or a view of an older one. -/
def pushEdge (edge : GraphEdge) (h : ∀ s, edge.sourceEdge = some s → s < g.edges.length) :
    Graph ω where
  rank := g.rank
  nodes := g.nodes
  edges := g.edges ++ [edge]
  input_lt n hn e he := by
    have := g.input_lt n hn e he
    rw [List.length_append]
    omega
  output_plain n hn e he := by
    obtain ⟨old, hold, hnone⟩ := g.output_plain n hn e he
    exact ⟨old, by rw [List.getElem?_append_left (output_lt hn he), hold], hnone⟩
  output_nodup := g.output_nodup
  source_lt e old s hold hs := by
    rcases getElem?_push hold with hold | ⟨rfl, rfl⟩
    · exact g.source_lt e old s hold hs
    · exact h s hs

def pushTensorEdge (tensor : Tensor) : ℕ × Graph ω :=
  (g.edges.length, g.pushEdge ⟨tensor, computeContiguousStrides tensor.shape, none⟩ (by simp))

/-- What is wrong with a tensor that belongs to the graph itself. -/
def sourceProblems (tensor : Tensor) : List GraphError :=
  (if tensor.cls = .weight ∨ tensor.cls = .param ∨ tensor.cls = .state then []
    else [.graphSourceClassInvalid tensor.cls]) ++
    match tensor.placement with
    | .device rank =>
      if rank ≠ g.rank then [.graphTensorRankMismatch g.edges.length rank g.rank] else []
    | _ => []

/-- Adds a weight, a parameter or a state as an edge. -/
def addTensor (tensor : Tensor) : Except GraphError (ℕ × Graph ω) := do
  GraphError.fromProblems (g.sourceProblems tensor)
  pure (g.pushTensorEdge tensor)

/-- Adds an edge for each output of a node. -/
def pushOutputs : Graph ω → List Tensor → List ℕ × Graph ω
  | g, [] => ([], g)
  | g, t :: ts =>
    let (e, g') := g.pushTensorEdge t
    let (es, g'') := pushOutputs g' ts
    (e :: es, g'')

/-- The new edges come after the old ones, and nothing else changes. -/
structure Pushed (g g' : Graph ω) (es : List ℕ) : Prop where
  nodes_eq : g'.nodes = g.nodes
  length_le : g.edges.length ≤ g'.edges.length
  fresh : ∀ e ∈ es, g.edges.length ≤ e ∧ ∃ edge, g'.edges[e]? = some edge ∧ edge.sourceEdge = none
  nodup : es.Nodup

theorem pushed_pushOutputs (ts : List Tensor) :
    Pushed g (g.pushOutputs ts).2 (g.pushOutputs ts).1 ∧
      ∀ e < g.edges.length, (g.pushOutputs ts).2.edges[e]? = g.edges[e]? := by
  induction ts generalizing g with
  | nil => exact ⟨⟨rfl, le_rfl, by simp [pushOutputs], by simp [pushOutputs]⟩, fun e _ => rfl⟩
  | cons t ts ih =>
    obtain ⟨h, hold⟩ := ih (g.pushTensorEdge t).2
    have hlen : (g.pushTensorEdge t).2.edges.length = g.edges.length + 1 := by
      simp [pushTensorEdge, pushEdge]
    have hlast : (g.pushTensorEdge t).2.edges[g.edges.length]? =
        some ⟨t, computeContiguousStrides t.shape, none⟩ := by
      simp [pushTensorEdge, pushEdge]
    refine ⟨⟨h.nodes_eq, by have := h.length_le; rw [hlen] at this; exact Nat.le_of_succ_le this,
      fun e he => ?_, ?_⟩, fun e he => ?_⟩
    · rcases mem_cons.mp he with rfl | he
      · exact ⟨le_rfl, _, (hold _ (by omega)).trans hlast, rfl⟩
      · obtain ⟨hle, hedge⟩ := h.fresh e he
        exact ⟨by omega, hedge⟩
    · refine nodup_cons.mpr ⟨fun hmem => ?_, h.nodup⟩
      have hle := (h.fresh _ hmem).1
      rw [hlen] at hle
      exact absurd hle (by simp)
    · refine (hold e (by omega)).trans ?_
      exact getElem?_append_left he

/-- Adds a node whose inputs are edges of the graph, with a new edge for each output. -/
def pushNode (op : ω) (inputs : List ℕ) (outputs : List Tensor)
    (h : ∀ e ∈ inputs, e < g.edges.length) : Graph ω where
  rank := g.rank
  nodes := g.nodes ++ [⟨op, inputs, (g.pushOutputs outputs).1⟩]
  edges := (g.pushOutputs outputs).2.edges
  input_lt n hn e he := by
    have hle := (g.pushed_pushOutputs outputs).1.length_le
    rcases List.mem_append.mp hn with hn | hn
    · exact lt_of_lt_of_le (g.input_lt n hn e he) hle
    · rw [List.mem_singleton.mp hn] at he
      exact lt_of_lt_of_le (h e he) hle
  output_plain n hn e he := by
    obtain ⟨hpushed, hold⟩ := g.pushed_pushOutputs outputs
    rcases List.mem_append.mp hn with hn | hn
    · obtain ⟨edge, hedge, hnone⟩ := g.output_plain n hn e he
      exact ⟨edge, by rw [hold e (output_lt hn he), hedge], hnone⟩
    · rw [List.mem_singleton.mp hn] at he
      exact (hpushed.fresh e he).2
  output_nodup := by
    obtain ⟨hpushed, -⟩ := g.pushed_pushOutputs outputs
    rw [List.flatMap_append]
    refine List.Nodup.append g.output_nodup (by simpa using hpushed.nodup) fun e he he' => ?_
    obtain ⟨n, hn, hen⟩ := List.mem_flatMap.mp he
    have hlt := output_lt hn hen
    have hle := (hpushed.fresh e (by simpa using he')).1
    omega
  source_lt := (g.pushOutputs outputs).2.source_lt

/-- Adds an operation. -/
def addOp (op : ω) (inputs : List ℕ) (outputs : List Tensor) : Except GraphError (ℕ × Graph ω) :=
  if h : ∀ e ∈ inputs, e < g.edges.length then
    .ok (g.nodes.length, g.pushNode op inputs outputs h)
  else
    match (inputs.filter fun e => g.edges.length ≤ e).map GraphError.graphEdgeNotFound with
    | [e] => .error e
    | problems => .error (.multiple problems)

/-! ### Views -/

/-- What is wrong with the axes of a transposition. -/
def permProblems (rank : ℕ) (perm : List ℕ) : List GraphError :=
  let outOfBounds := perm.filter (rank ≤ ·)
  let inBounds := perm.filter (· < rank)
  let duplicates := (inBounds.zipIdx.filter fun (p, i) => (inBounds.take i).contains p).map (·.1)
  let missing := (List.range rank).filter fun p => !perm.contains p
  (if outOfBounds ≠ [] then
    [.opAttributeInvalid "transpose_view" "perm"
      s!"permutation indices {outOfBounds} out of bounds for rank {rank}"] else []) ++
    (if duplicates ≠ [] then
      [.opAttributeInvalid "transpose_view" "perm"
        s!"permutation contains duplicate axes: {duplicates}"] else []) ++
    if missing ≠ [] ∧ duplicates = [] ∧ outOfBounds = [] then
      [.opAttributeInvalid "transpose_view" "perm" s!"permutation missing axes: {missing}"] else []

/-- The axes of a tensor after a transposition. -/
def ShardLayout.permute (perm : List ℕ) : ShardLayout → ShardLayout
  | .colShard axis => .colShard ((perm.idxOf? axis).getD axis)
  | .rowShard axis => .rowShard ((perm.idxOf? axis).getD axis)
  | layout => layout

/-- A view of an edge with its axes in another order, which keeps the strides. -/
def transposeEdge (e : ℕ) (perm : List ℕ) : Except GraphError (ℕ × Graph ω) :=
  match h : g.edges[e]? with
  | none => .error (.graphEdgeNotFound e)
  | some old => do
    let rank := old.tensor.shape.length
    Checked.ensure (perm.length = rank) (.opRankMismatch "transpose_view" "edge" rank perm.length)
    GraphError.fromProblems (permProblems rank perm)
    let tensor ← Tensor.new (perm.map fun p => old.tensor.shape.getD p (.concrete 0))
      old.tensor.dtype old.tensor.quant old.tensor.layout old.tensor.placement
      (ShardLayout.permute perm old.tensor.sharding) old.tensor.cls
    let strides := perm.map fun p => old.strides.getD p 0
    pure (g.edges.length, g.pushEdge ⟨tensor, strides, some e⟩ fun s hs => by
      cases hs
      exact (List.getElem?_eq_some_iff.mp h).1)

/-- The checks of a reshape. -/
def checkReshape (e : ℕ) (old : GraphEdge) (shape : List Dim) : Except GraphError Unit := do
  let expected := computeContiguousStrides old.tensor.shape
  Checked.ensure (old.strides = expected) (.strideMismatch e old.strides expected)
  Checked.ensure (old.tensor.layout = .contiguous)
    (.opLayoutMismatch "reshape_view" "edge" .contiguous old.tensor.layout)
  Checked.ensure (shape = old.tensor.shape ∨ old.tensor.sharding = .replicated ∨
      old.tensor.sharding = .partialSum)
    (.shardingRemap "reshape_view" old.tensor.sharding)
  match concreteElementCount old.tensor.shape, concreteElementCount shape with
  | some oldCount, some newCount =>
    Checked.ensure (oldCount = newCount) (.opShapeMismatch "reshape_view" "edge"
      s!"reshape must preserve element count, got {oldCount} -> {newCount}")
  | _, _ => pure ()

/-- A view of an edge with another shape. -/
def reshapeEdge (e : ℕ) (shape : List Dim) : Except GraphError (ℕ × Graph ω) :=
  match h : g.edges[e]? with
  | none => .error (.graphEdgeNotFound e)
  | some old => do
    checkReshape e old shape
    let tensor ← Tensor.new shape old.tensor.dtype old.tensor.quant old.tensor.layout
      old.tensor.placement old.tensor.sharding old.tensor.cls
    let strides := computeContiguousStrides tensor.shape
    pure (g.edges.length, g.pushEdge ⟨tensor, strides, some e⟩ fun s hs => by
      cases hs
      exact (List.getElem?_eq_some_iff.mp h).1)

end Graph

end R9v

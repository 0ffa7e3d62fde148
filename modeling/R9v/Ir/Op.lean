import R9v.Ir.Graph

/-!
# Operations

The operations of a step graph (`r9v-ir/src/op.rs`) that a model is lowered to, with their
attributes. Four of them name the state of a layer (`Op.handle?`).
-/

namespace R9v

/-! ### Attributes -/

/-- The hash of an n-gram table, by its number. -/
structure HashId where
  id : ℕ
  deriving DecidableEq

inductive NgramCombine
  | concat | sum
  deriving DecidableEq

inductive NgramSource
  | staged | device
  deriving DecidableEq

inductive NormKind
  | rms | layer
  deriving DecidableEq

inductive NormAxis
  | last
  | head (width : ℕ)
  deriving DecidableEq

inductive ActivationKind
  | silu | gelu | geluTanh | relu2 | identity
  deriving DecidableEq

inductive RopeStyle
  | neox | interleaved
  deriving DecidableEq

inductive RopeScaling
  | none
  | linear (factor : Float32)
  | yarn (factor betaFast betaSlow : Float32) (origCtx : ℕ) (mscale : Float32)
  | dynamic

inductive Epilogue
  | none
  | bias
  | residual
  | act (kind : ActivationKind)
  deriving DecidableEq

inductive MoeScoring
  | softmax | sigmoid
  deriving DecidableEq

structure MoeGroup where
  nGroup : ℕ
  topkGroup : ℕ
  deriving DecidableEq

inductive CacheScaleGranularity
  | perTokenHead | perBlock
  deriving DecidableEq

structure MlaLatent where
  kvLoraRank : ℕ
  ropeDim : ℕ
  deriving DecidableEq

inductive AttentionMask
  | causal
  | causalWindow (w : ℕ)
  | tree
  deriving DecidableEq

structure MlaAttentionSpec where
  qLoraRank : Option ℕ
  kvLoraRank : ℕ
  qkNopeDim : ℕ
  qkRopeDim : ℕ
  vDim : ℕ
  deriving DecidableEq

inductive ConvActivation
  | silu | identity
  deriving DecidableEq

inductive LinearAttnKind
  | gatedDeltaNet | gla | mamba2
  deriving DecidableEq

/-! ### Operations -/

structure EmbedGatherOp where
  scale : Float32
  outDtype : DType

structure NgramGatherOp where
  source : NgramSource
  orders : List ℕ
  heads : ℕ
  hash : HashId
  tableSizes : List ℕ
  combine : NgramCombine
  outDtype : DType

structure SplitOp where
  first : ℕ

structure NormOp where
  kind : NormKind
  eps : Float32
  axis : NormAxis
  weightOffset : Float32
  outDtype : DType

structure ResidualAddOp where
  outDtype : DType
  scale : Float32

structure ActMulOp where
  act : ActivationKind
  clamp : Option Float32

structure ActivationOp where
  act : ActivationKind
  clamp : Option Float32

structure LogitSoftcapOp where
  cap : Float32

structure RopeOp where
  rotDim : ℕ
  theta : Float32
  style : RopeStyle
  scaling : RopeScaling
  mropeSections : Option (ℕ × ℕ × ℕ)
  outDtype : DType

structure MatmulOp where
  outDtype : DType
  epilogue : Epilogue
  transposeW : Bool

structure MoeRouteOp where
  topK : ℕ
  scoring : MoeScoring
  renormalize : Bool
  group : Option MoeGroup
  scale : Float32

structure MoeFfnOp where
  act : ActivationKind
  outDtype : DType
  sharedExperts : ℕ

structure StateWriteKvOp where
  cacheDtype : DType
  scaleGranularity : CacheScaleGranularity
  latent : Option MlaLatent
  handle : StateHandle

structure AttentionOp where
  softmaxScale : Float32
  mask : AttentionMask
  sinks : ℕ
  logitSoftcap : Option Float32
  mla : Option MlaAttentionSpec
  outDtype : DType
  handle : StateHandle

structure CausalConv1dOp where
  kernel : ℕ
  act : ConvActivation
  handle : StateHandle

structure LinearAttnScanOp where
  kind : LinearAttnKind
  chunk : ℕ
  outDtype : DType
  handle : StateHandle

/-- The operations that models are lowered to. -/
inductive Op
  | embedGather (op : EmbedGatherOp)
  | ngramGather (op : NgramGatherOp)
  | split (op : SplitOp)
  | concat
  | norm (op : NormOp)
  | residualAdd (op : ResidualAddOp)
  | actMul (op : ActMulOp)
  | activation (op : ActivationOp)
  | logitSoftcap (op : LogitSoftcapOp)
  | rope (op : RopeOp)
  | matmul (op : MatmulOp)
  | moeRoute (op : MoeRouteOp)
  | moeFfn (op : MoeFfnOp)
  | stateWriteKv (op : StateWriteKvOp)
  | attention (op : AttentionOp)
  | causalConv1d (op : CausalConv1dOp)
  | linearAttnScan (op : LinearAttnScanOp)

/-- The state that an operation reads or writes. -/
def Op.handle? : Op → Option StateHandle
  | .stateWriteKv op => some op.handle
  | .attention op => some op.handle
  | .causalConv1d op => some op.handle
  | .linearAttnScan op => some op.handle
  | _ => none

end R9v

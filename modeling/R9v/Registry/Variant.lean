import Mathlib.Data.Nat.Notation

/-!
# Kernel variants

What the registry of kernels gives to the capture of a step graph
(`r9v-registry/src/types.rs`, `resolution.rs` and `launch.rs`). The registry itself
is a function here: an operation and its static description, of some type `σ`,
resolve to a variant or to an error, which is read as its text.
-/

namespace R9v

/-- The operations. -/
inductive OpId
  | embedGather | ngramGather | quantAct | cast | copy | gatherRows | scatterAddRows | split
  | concat | norm | residualAdd | actMul | activation | logitSoftcap | rope | matmul | moeRoute
  | moeFfn | stateWriteKv | attention | causalConv1d | linearAttnScan | logitsPostprocess | sample
  | verify | allReduce | allGather | reduceScatter | allToAll | send | recv | barrier
  deriving DecidableEq

/-- The tiers of implementations. -/
inductive Tier
  | t0 | t0v | t1 | t2
  deriving DecidableEq

/-- The geometry of a launch. -/
structure LaunchGeometry where
  grid : ℕ × ℕ × ℕ
  block : ℕ × ℕ × ℕ
  sharedMemBytes : ℕ
  deriving DecidableEq

/-- A variant that an operation resolves to. -/
structure ResolvedVariant where
  variantHash : ℕ
  tier : Tier
  entrySymbol : String
  launchGeometry : LaunchGeometry
  workspaceBytes : ℕ
  staticBytes : ℕ
  staticFlops : ℕ
  deriving DecidableEq

/-- One launch of a captured graph. -/
structure LaunchEntry where
  variantHash : ℕ
  entrySymbol : String
  geometry : LaunchGeometry
  workspaceBytes : ℕ
  staticBytes : ℕ
  staticFlops : ℕ
  argsBlob : List ℕ
  deriving DecidableEq

/-- The registry, for one architecture. -/
structure Registry (σ : Type) where
  resolve : OpId → σ → Except String ResolvedVariant

end R9v

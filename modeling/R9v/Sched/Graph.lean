import R9v.Sched.Error
import Std.Data.ExtTreeMap

/-!
# Step graphs

The capture of a step graph against the registry of kernels, the cache of captured
graphs, and the arena that their workspaces share (`r9v-sched/src/graph.rs` and
`arena.rs`). A graph that needs more workspace than the arena has makes the arena
grow, and every graph of the cache is then captured again.
-/

namespace R9v

open Checked

/-! ### The arena -/

/-- The alignment of workspaces. -/
def workspaceAlignment : ℕ := 256

/-- The scratch memory of a device. -/
structure WorkspaceArena where
  rank : ℕ
  capacityBytes : ℕ
  allocatedBytes : ℕ
  peakBytes : ℕ
  generation : ℕ
  deriving DecidableEq

namespace WorkspaceArena

def new (rank capacityBytes : ℕ) : WorkspaceArena := ⟨rank, capacityBytes, 0, 0, 1⟩

/-- A graph must fit the arena. -/
def checkRequirement (a : WorkspaceArena) (required : ℕ) : SchedResult Unit :=
  ensure (required ≤ a.capacityBytes)
    (.arenaOverflow required a.capacityBytes (required - a.capacityBytes))

/-- Forgets what was allocated during a step. -/
def reset (a : WorkspaceArena) : WorkspaceArena := { a with allocatedBytes := 0 }

/-- The next multiple of the alignment, for a sum that did not overflow. -/
def alignDown (n : ℕ) : ℕ := n / workspaceAlignment * workspaceAlignment

/-- Makes the arena at least as large as asked. The capacity has changed even when
the count of generations then overflows. -/
def grow (a : WorkspaceArena) (capacity : ℕ) : SchedResult Unit × WorkspaceArena :=
  if capacity ≤ a.capacityBytes then (.ok (), a)
  else
    match add 64 capacity (workspaceAlignment - 1) with
    | none =>
      (.error (.overflow "arena_growth" s!"overflow aligning new capacity {capacity}"), a)
    | some sum =>
      let a := { a with capacityBytes := alignDown sum }
      match add 64 a.generation 1 with
      | none => (.error (.overflow "arena_generation" "generation counter overflow"), a)
      | some generation => (.ok (), { a with generation })

end WorkspaceArena

/-! ### Programs -/

/-- One operation of a step. -/
structure StepProgramOp (σ : Type) where
  opId : OpId
  desc : String
  resolver : StepGraphKey → Option σ
  argsTemplateBuilder : StepGraphKey → Option (List ℕ)
  workspaceSlot : Option ℕ

/-- The operations of a step, in order. -/
structure StepGraphProgram (σ : Type) where
  ops : List (StepProgramOp σ)

/-- A captured graph. -/
structure CapturedGraph where
  key : StepGraphKey
  launches : List LaunchEntry
  requiredWorkspaceBytes : ℕ
  workspaceOffsets : List ℕ
  resolvedTiers : List (OpId × Tier)
  deriving DecidableEq

/-! ### Capture -/

namespace StepGraphBuilder

/-- A number as eight bytes, the lowest first. -/
def leBytes (n : ℕ) : List ℕ := (List.range 8).map fun i => n / 256 ^ i % 256

/-- The next aligned offset. -/
def alignOffset (offset : ℕ) : SchedResult ℕ :=
  if offset % 256 = 0 then .ok offset
  else okOr (add 64 offset (256 - offset % 256)) (.overflow "workspace_alignment" "alignment overflow")

/-- Binds the workspace of a variant: the argument blob with the offset in its slot,
the offset, and the end of the workspace. -/
def bindWorkspace (key : StepGraphKey) (op : StepProgramOp σ) (v : ResolvedVariant)
    (blob : List ℕ) (offset : ℕ) : SchedResult (List ℕ × ℕ × ℕ) := do
  let slot ← okOr op.workspaceSlot (.graphCaptureFailed key (.noSlot op.opId v.workspaceBytes))
  ensure (slot % 8 = 0) (.graphCaptureFailed key (.unalignedSlot op.opId slot))
  let required ← okOr (add 64 slot 8)
    (.overflow "workspace_slot" "workspace slot offset overflow")
  ensure (required ≤ blob.length)
    (.graphCaptureFailed key (.undersizedBlob op.opId blob.length slot required))
  let aligned ← alignOffset offset
  let next ← okOr (add 64 aligned v.workspaceBytes)
    (.overflow "workspace_offset" "workspace offset overflow")
  pure (blob.take slot ++ leBytes aligned ++ blob.drop (slot + 8), aligned, next)

/-- What the capture has so far. -/
structure Capturing where
  launches : List LaunchEntry
  resolvedTiers : List (OpId × Tier)
  workspaceOffsets : List ℕ
  offset : ℕ

/-- The blob, the offset and the end of the workspace of an operation; one that needs
none is bound nowhere. -/
def placeOp (key : StepGraphKey) (op : StepProgramOp σ) (v : ResolvedVariant) (blob : List ℕ)
    (offset : ℕ) : SchedResult (List ℕ × ℕ × ℕ) :=
  if 0 < v.workspaceBytes then bindWorkspace key op v blob offset else pure (blob, 0, offset)

/-- Captures an operation that takes part in the step. -/
def captureResolved (registry : Registry σ) (key : StepGraphKey) (st : Capturing)
    (op : StepProgramOp σ) (static : σ) : SchedResult Capturing := do
  let v ← (registry.resolve op.opId static).mapError
    fun e => .graphCaptureFailed key (.unresolved op.opId op.desc e)
  let blob ← okOr (op.argsTemplateBuilder key)
    (.graphCaptureFailed key (.noTemplate op.opId op.desc))
  let (blob, at', next) ← placeOp key op v blob st.offset
  pure
    { launches := st.launches ++
        [⟨v.variantHash, v.entrySymbol, v.launchGeometry, v.workspaceBytes, v.staticBytes,
          v.staticFlops, blob⟩]
      resolvedTiers := st.resolvedTiers ++ [(op.opId, v.tier)]
      workspaceOffsets := st.workspaceOffsets ++ [at']
      offset := next }

/-- Captures an operation, if it takes part in the step. -/
def captureOp (registry : Registry σ) (key : StepGraphKey) (st : Capturing)
    (op : StepProgramOp σ) : SchedResult Capturing :=
  match op.resolver key with
  | none => pure st
  | some static => captureResolved registry key st op static

/-- The workspaces that are not empty: their beginnings and ends. -/
def workspaceBounds (offsets : List ℕ) (launches : List LaunchEntry) :
    SchedResult (List (ℕ × ℕ)) :=
  ((offsets.zip launches).filter fun x => x.2.workspaceBytes ≠ 0).mapM fun (start, entry) => do
    let stop ← okOr (add 64 start entry.workspaceBytes)
      (.overflow "workspace_bounds" "upper bound overflow")
    pure (start, stop)

/-- No two workspaces may overlap. -/
def checkOverlaps : ℕ → List (ℕ × ℕ) → SchedResult Unit
  | _, [] => .ok ()
  | i, (startI, endI) :: rest => do
    forM (rest.zipIdx (i + 1)) fun ((startJ, endJ), j) =>
      ensure (endI ≤ startJ ∨ endJ ≤ startI) (.internal
        (s!"detected overlapping workspace slices between launch {i} [{startI}..{endI}) " ++
          s!"and launch {j} [{startJ}..{endJ})"))
    checkOverlaps (i + 1) rest

/-- Captures the graph of a key. The arena is only asked for its capacity. -/
def capture (registry : Registry σ) (key : StepGraphKey) (program : StepGraphProgram σ)
    (arena : WorkspaceArena) : SchedResult CapturedGraph := do
  ensure (program.ops ≠ []) (.graphCaptureFailed key .noOps)
  ensure (program.ops.any (·.opId == .sample)) (.graphCaptureFailed key .noSample)
  let st ← program.ops.foldlM (captureOp registry key) ⟨[], [], [], 0⟩
  ensure (st.launches ≠ []) (.graphCaptureFailed key .noLaunches)
  arena.checkRequirement st.offset
  let bounds ← workspaceBounds st.workspaceOffsets st.launches
  checkOverlaps 0 bounds
  pure ⟨key, st.launches, st.offset, st.workspaceOffsets, st.resolvedTiers⟩

end StepGraphBuilder

/-! ### The cache -/

/-- The captured graphs. -/
structure GraphCache (σ : Type) where
  program : StepGraphProgram σ
  graphs : Std.ExtTreeMap StepGraphKey CapturedGraph
  arenaGeneration : ℕ

namespace GraphCache

/-- The shapes that are captured when the scheduler starts. -/
def warmKeys (planId rank : ℕ) : List StepGraphKey :=
  [1, 2, 4, 8, 16, 32].flatMap fun tDec =>
    [0, 128, 512, 2048].map fun tPre => ⟨planId, rank, 1, tDec, tPre, 0⟩

/-- Captures some graphs in turn, and stops at the first that fails. -/
def captureAll (registry : Registry σ) (program : StepGraphProgram σ) (arena : WorkspaceArena) :
    List StepGraphKey → Std.ExtTreeMap StepGraphKey CapturedGraph →
      SchedResult Unit × Std.ExtTreeMap StepGraphKey CapturedGraph
  | [], graphs => (.ok (), graphs)
  | key :: rest, graphs =>
    match StepGraphBuilder.capture registry key program arena with
    | .error e => (.error e, graphs)
    | .ok g => captureAll registry program arena rest (graphs.insert key g)

/-- Captures the warm shapes. -/
def eagerCaptureWarmBuckets (registry : Registry σ) (planId rank : ℕ)
    (program : StepGraphProgram σ) (arena : WorkspaceArena) : SchedResult (GraphCache σ) :=
  match captureAll registry program arena (warmKeys planId rank) ∅ with
  | (.error e, _) => .error e
  | (.ok (), graphs) => .ok ⟨program, graphs, arena.generation⟩

/-- Adds a graph that has just been captured. -/
def add (c : GraphCache σ) (key : StepGraphKey) (g : CapturedGraph) : GraphCache σ :=
  { c with graphs := c.graphs.insert key g }

/-- Makes room for a graph: the arena grows, the graphs of the cache are captured
again, and then the new one is. -/
def growAndCapture (c : GraphCache σ) (registry : Registry σ) (key : StepGraphKey)
    (arena : WorkspaceArena) (required : ℕ) :
    SchedResult (CapturedGraph × Bool) × GraphCache σ × WorkspaceArena :=
  match arena.grow required with
  | (.error e, arena) => (.error e, c, arena)
  | (.ok (), arena) =>
    match captureAll registry c.program arena c.graphs.keys c.graphs with
    | (.error e, graphs) => (.error e, { c with graphs }, arena)
    | (.ok (), graphs) =>
      let c := { c with graphs, arenaGeneration := arena.generation }
      match StepGraphBuilder.capture registry key c.program arena with
      | .error e => (.error e, c, arena)
      | .ok g => (.ok (g, true), c.add key g, arena)

/-- The graph of a key, captured when it is used for the first time. -/
def getOrCapture (c : GraphCache σ) (registry : Registry σ) (key : StepGraphKey)
    (arena : WorkspaceArena) :
    SchedResult (CapturedGraph × Bool) × GraphCache σ × WorkspaceArena :=
  match c.graphs[key]? with
  | some g => (.ok (g, false), c, arena)
  | none =>
    match StepGraphBuilder.capture registry key c.program arena with
    | .ok g => (.ok (g, true), c.add key g, arena)
    | .error (.arenaOverflow required _ _) => c.growAndCapture registry key arena required
    | .error e => (.error e, c, arena)

end GraphCache

end R9v

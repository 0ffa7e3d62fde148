import R9v.State.Spec
import Std.Data.ExtTreeMap
import Mathlib.Data.List.Sort

/-!
# The sequence-state manager and its construction

The manager of `r9v-state/src/manager.rs` gives the sequences of a batch their
memory. Every paged group has a pool of blocks of 32 tokens (`BlockPool`), every
other group a pool of per-sequence slots (`FixedPool`); a sequence (`SeqState`)
holds, per group, the blocks it was given and the block indices they stand for,
or its slot. All of it is offset arithmetic over one arena of `poolBytes` bytes,
which `StateManager.newFromValidatedGroups` divides: the slots first, then the
same number of blocks for every paged group.

The free list of a block pool is kept descending, so that taking the last entry
takes the smallest free block; the free slots are kept ascending, as the ordered
set of the source iterates them. The mirror of written tokens is only ever read
by key, and is a function here.
-/

namespace R9v

open Checked

/-! ### Configuration -/

structure StateConfig where
  maxCtx : ℕ
  maxSeqs : ℕ
  deriving DecidableEq

namespace StateConfig

def validate (c : StateConfig) : StateResult Unit :=
  let problems : List InvalidItem :=
    (if c.maxCtx = 0 ∨ c.maxCtx > maxCtxHard then
      [⟨u32Max, s!"max_ctx={c.maxCtx} out of range 1..={maxCtxHard}"⟩] else []) ++
    (if c.maxCtx % blockTokens ≠ 0 then
      [⟨u32Max, s!"max_ctx={c.maxCtx} is not a multiple of {blockTokens}"⟩] else []) ++
    (if c.maxSeqs = 0 ∨ c.maxSeqs > maxSeqsHard then
      [⟨u32Max, s!"max_seqs={c.maxSeqs} out of range 1..={maxSeqsHard}"⟩] else [])
  ensure (problems = []) (.invalidConfig problems)

/-- Blocks of a sequence at full context. -/
def maxBlocks (c : StateConfig) : ℕ := c.maxCtx / blockTokens

/-- A configuration that passes its checks. -/
structure Valid (c : StateConfig) : Prop where
  maxCtx_pos : 1 ≤ c.maxCtx
  maxCtx_le : c.maxCtx ≤ maxCtxHard
  maxCtx_mod : c.maxCtx % blockTokens = 0
  maxSeqs_pos : 1 ≤ c.maxSeqs
  maxSeqs_le : c.maxSeqs ≤ maxSeqsHard

theorem validate_eq_ok {c : StateConfig} {u : Unit} : c.validate = .ok u ↔ c.Valid := by
  simp only [validate, ensure_eq_ok, List.append_eq_nil_iff]
  constructor
  · rintro ⟨⟨h₁, h₂⟩, h₃⟩
    have h₁' : ¬(c.maxCtx = 0 ∨ c.maxCtx > maxCtxHard) := fun hc => by simp [hc] at h₁
    have h₂' : ¬c.maxCtx % blockTokens ≠ 0 := fun hc => by simp [hc] at h₂
    have h₃' : ¬(c.maxSeqs = 0 ∨ c.maxSeqs > maxSeqsHard) := fun hc => by simp [hc] at h₃
    constructor <;> omega
  · rintro ⟨h₁, h₂, h₃, h₄, h₅⟩
    exact ⟨⟨if_neg (by omega), if_neg (by omega)⟩, if_neg (by omega)⟩

theorem Valid.maxBlocks_mul {c : StateConfig} (h : c.Valid) : c.maxBlocks * 32 = c.maxCtx := by
  have := h.maxCtx_mod
  simp only [maxBlocks, blockTokens] at *
  omega

end StateConfig

/-- The slot of a group that has no per-token slots. -/
def slotNone : ℕ := u32Max

/-- The most blocks a pool may have. -/
def maxSlotBlocks : ℕ := 134217727

/-! ### Pools -/

/-- A pool of blocks. -/
structure BlockPool where
  total : ℕ
  /-- The free blocks, descending. -/
  free : List ℕ
  baseOffset : ℕ
  blockBytes : ℕ
  deriving DecidableEq

namespace BlockPool

/-- Takes the smallest free block. -/
def alloc (p : BlockPool) : Option (ℕ × BlockPool) :=
  match p.free.getLast? with
  | some id => some (id, { p with free := p.free.dropLast })
  | none => none

-- the source searches the sorted list by bisection
def contains (p : BlockPool) (id : ℕ) : Bool := decide (id ∈ p.free)

/-- Gives a block back, at its place among the free ones. -/
def release (p : BlockPool) (id : ℕ) : StateResult BlockPool := do
  ensure (id < p.total)
    (.invalidBatch s!"release block {id} out of range: pool holds {p.total}")
  ensure (p.contains id = false) (.invalidBatch s!"double release of block {id}")
  let pos := Sorted.partitionPoint (· > id) p.free
  pure { p with free := p.free.insertIdx pos id }

end BlockPool

/-- A pool of per-sequence slots, each of two buffers. -/
structure FixedPool where
  totalSlots : ℕ
  /-- The free slots, ascending. -/
  free : List ℕ
  slotBytesPerSeq : ℕ
  bufferBytes : ℕ
  baseOffset : ℕ
  deriving DecidableEq

namespace FixedPool

def remove (p : FixedPool) (id : ℕ) : FixedPool := { p with free := p.free.erase id }

def insert (p : FixedPool) (id : ℕ) : FixedPool :=
  { p with free := if id ∈ p.free then p.free else p.free.orderedInsert (· ≤ ·) id }

def bufferOffset (p : FixedPool) (buffer : ℕ) : StateResult ℕ :=
  okOr ((mul 64 buffer p.bufferBytes).bind fun v => add 64 v p.baseOffset)
    (.overflow "fixed buffer offset")

end FixedPool

/-- The byte offset of a block in the arena. -/
def blockOffset (base blockId blockBytes : ℕ) : StateResult ℕ :=
  okOr ((mul 64 blockId blockBytes).bind fun v => add 64 v base) (.overflow "block offset")

/-! ### Sequences and the manager -/

abbrev SeqId := ℕ

/-- The tokens written so far, by group and position. -/
abbrev Mirror := ℕ × ℕ → Option ℕ

/-- What the manager keeps about one sequence. -/
structure SeqState where
  /-- The verified tokens. -/
  ctxLen : ℕ
  /-- The reserved tokens that are not verified yet. -/
  tailLen : ℕ
  /-- Per group, the blocks held, in the order of their indices. -/
  tables : List (List ℕ)
  /-- Per group, the block indices held, ascending and aligned with `tables`. -/
  indices : List (List ℕ)
  mirror : Mirror
  /-- The length of the compaction since the last reservation, if there was one. -/
  compacted : Option ℕ
  /-- Per group, the slot held. -/
  fixedSlots : List (Option ℕ)
  /-- Per group, the active buffer. -/
  parity : List ℕ

structure StateManager where
  config : StateConfig
  groups : List LayerGroup
  pools : List (Option BlockPool)
  fixed : List (Option FixedPool)
  maxBlocks : ℕ
  poolBytesTotal : ℕ
  fixedBytesTotal : ℕ
  unusableBytes : ℕ
  nextSeq : ℕ
  seqs : Std.ExtTreeMap ℕ SeqState
  liveCount : ℕ
  swaps : ℕ
  commits : ℕ
  /-- The blocks a reservation found missing, by group and index. -/
  reserveScratch : List (ℕ × ℕ)

/-! ### Construction -/

/-- The smallest arena that serves a configuration: one full context of blocks per
paged group, and a slot per sequence for every other group. -/
def requiredPoolBytes (config : StateConfig) (groups : List LayerGroup) : StateResult ℕ :=
  groups.foldlM (fun total g =>
    if g.spec.isPaged then do
      let blockBytes ← g.blockBytes
      let full ← okOr (mul 64 blockBytes config.maxBlocks) (.overflow "full-context paged pool")
      okOr (add 64 total full) (.overflow "pool total")
    else do
      let perSeq ← g.slotsBytesPerSeq
      let fixed ← okOr (mul 64 perSeq config.maxSeqs) (.overflow "recurrent pool")
      okOr (add 64 total fixed) (.overflow "pool total")) 0

namespace StateManager

/-- The bytes of all fixed pools. -/
def sumFixed (maxSeqs : ℕ) (groups : List LayerGroup) : StateResult ℕ :=
  groups.foldlM (fun total g =>
    if g.spec.isPaged then pure total
    else do
      let perSeq ← g.slotsBytesPerSeq
      let grp ← okOr (mul 64 perSeq maxSeqs) (.overflow "fixed group pool")
      okOr (add 64 total grp) (.overflow "fixed pool total")) 0

/-- The bytes of one block of every paged group. -/
def sumBlockCost (paged : List LayerGroup) : StateResult ℕ :=
  paged.foldlM (fun total g => do
    let bb ← g.blockBytes
    okOr (add 64 total bb) (.overflow "block cost sum")) 0

/-- The number of blocks of every paged pool, and the bytes they take. -/
def splitPaged (paged : List LayerGroup) (maxBlocks poolBytes fixedTotal usable cost : ℕ) :
    Outcome (ℕ × ℕ) :=
  if paged = [] then pure (0, 0)
  else do
    ensure (cost ≠ 0) (fail (.invalidConfig
      [⟨u32Max, "paged block cost is zero; cannot proportion the pool"⟩]))
    let blocks := usable / cost
    let tooMany := StateError.invalidConfig
      [⟨u32Max, s!"assigned blocks_per_group={blocks} exceeds u32 slot_map range {maxSlotBlocks}"⟩]
    let blocksPerGroup ← okOr (narrow 32 blocks) (fail tooMany)
    ensure (blocksPerGroup ≤ maxSlotBlocks) (fail tooMany)
    if blocksPerGroup < maxBlocks then do
      let needPaged ← okOr (mul 64 maxBlocks cost) (fail (.overflow "minimum paged pool"))
      let required ← okOr (add 64 fixedTotal needPaged) (fail (.overflow "minimum pool"))
      let shortfall ← subOrPanic required poolBytes
      throw (fail (.invalidConfig [⟨u32Max,
        s!"pool_bytes={poolBytes} below required={required}, shortfall={shortfall}"⟩]))
    else do
      let assigned ← okOr (mul 64 blocksPerGroup cost) (fail (.overflow "assigned paged bytes"))
      pure (blocksPerGroup, assigned)

/-- The pools laid out so far, and where the next one starts. -/
structure Layout where
  pools : List (Option BlockPool)
  fixed : List (Option FixedPool)
  base : ℕ

/-- Lays one group's pool out. -/
def placeGroup (maxSeqs blocksPerGroup : ℕ) (l : Layout) (g : LayerGroup) : StateResult Layout :=
  if g.spec.isPaged then do
    let blockBytes ← g.blockBytes
    let bytes ← okOr (mul 64 blocksPerGroup blockBytes) (.overflow "group pool bytes")
    let base ← okOr (add 64 l.base bytes) (.overflow "arena base")
    pure
      { pools := l.pools ++ [some ⟨blocksPerGroup, (List.range blocksPerGroup).reverse, l.base,
          blockBytes⟩]
        fixed := l.fixed ++ [none]
        base := base }
  else do
    let perSeq ← g.slotsBytesPerSeq
    let grpBytes ← okOr (mul 64 perSeq maxSeqs) (.overflow "fixed group bytes")
    let bufferBytes := perSeq / 2
    let base ← okOr (add 64 l.base grpBytes) (.overflow "arena base")
    pure
      { pools := l.pools ++ [none]
        fixed := l.fixed ++ [some ⟨maxSeqs, List.range maxSeqs, perSeq, bufferBytes, l.base⟩]
        base := base }

/-- Builds the manager over an arena of `poolBytes` bytes. The two subtractions
that the source leaves unchecked panic below zero. -/
def newFromValidatedGroups (config : StateConfig) (groups : List LayerGroup) (poolBytes : ℕ) :
    Outcome StateManager := do
  let maxBlocks := config.maxBlocks
  let fixedTotal ← lift (sumFixed config.maxSeqs groups)
  let shortfall := fixedTotal - poolBytes
  ensure (fixedTotal ≤ poolBytes) (fail (.invalidConfig [⟨u32Max,
    s!"pool_bytes={poolBytes} below fixed_pool={fixedTotal}, shortfall={shortfall}"⟩]))
  let usable ← subOrPanic poolBytes fixedTotal
  let paged := groups.filter (·.spec.isPaged)
  let cost ← lift (sumBlockCost paged)
  let (blocksPerGroup, assignedPaged) ←
    splitPaged paged maxBlocks poolBytes fixedTotal usable cost
  let unusable ← subOrPanic usable assignedPaged
  let l ← lift (groups.foldlM (placeGroup config.maxSeqs blocksPerGroup) ⟨[], [], 0⟩)
  let _ ← okOr (mul 64 paged.length maxBlocks) (fail (.overflow "reserve scratch capacity"))
  pure
    { config, groups, maxBlocks
      pools := l.pools
      fixed := l.fixed
      poolBytesTotal := assignedPaged
      fixedBytesTotal := fixedTotal
      unusableBytes := unusable
      nextSeq := 0
      seqs := ∅
      liveCount := 0
      swaps := 0
      commits := 0
      reserveScratch := [] }

/-- The problems of the configuration and of the layers are reported together. -/
def joinChecks (config : StateResult Unit) (groups : StateResult (List LayerGroup)) :
    StateResult (List LayerGroup) :=
  match config, groups with
  | .error (.invalidConfig cp), .error (.invalidConfig gp) => .error (.invalidConfig (cp ++ gp))
  | .error e, _ => .error e
  | _, .error e => .error e
  | .ok (), .ok groups => .ok groups

/-- Builds the manager for one declaration per layer. -/
def new (config : StateConfig) (layerSpecs : List StateSpec) (poolBytes : ℕ) :
    Outcome StateManager := do
  let groups ← lift (joinChecks config.validate (groupLayers layerSpecs))
  newFromValidatedGroups config groups poolBytes

/-- Builds the manager for explicit declarations. -/
def newWithDeclarations (config : StateConfig) (declarations : List StateDecl) (poolBytes : ℕ) :
    Outcome StateManager := do
  let groups ← lift (joinChecks config.validate (groupLayerSpecs declarations))
  newFromValidatedGroups config groups poolBytes

/-- The byte offset of a buffer of a fixed pool. -/
def fixedBufferOffset (m : StateManager) (group buffer : ℕ) : StateResult ℕ := do
  let pool ← okOr m.fixed[group]?.join
    (.invalidBatch s!"group {group} is not a recurrent/conv group")
  let totalBuffers ← okOr (mul 32 pool.totalSlots 2) (.overflow "fixed buffer range")
  ensure (buffer < totalBuffers) (.outOfRange buffer 1 totalBuffers)
  pool.bufferOffset buffer

/-- A manager as one of the two constructors returns it, over an arena whose size
is a machine word. -/
def Built (m : StateManager) : Prop :=
  ∃ config poolBytes, poolBytes < 2 ^ 64 ∧
    ((∃ specs, new config specs poolBytes = .ok m) ∨
      ∃ decls, newWithDeclarations config decls poolBytes = .ok m)

theorem joinChecks_eq_ok {c : StateResult Unit} {gs : StateResult (List LayerGroup)}
    {groups : List LayerGroup} :
    joinChecks c gs = .ok groups ↔ c = .ok () ∧ gs = .ok groups := by
  match c, gs with
  | .error (.invalidConfig _), .error (.invalidConfig _) => simp [joinChecks]
  | .ok (), .ok _ => simp [joinChecks]
  | .ok (), .error e => simp [joinChecks]
  | .error e, .ok _ => cases e <;> simp [joinChecks]
  | .error e, .error e' => cases e <;> cases e' <;> simp [joinChecks]

/-- Whichever constructor returned the manager, it was built from a checked
configuration and from valid groups. -/
theorem Built.exists_groups {m : StateManager} (h : m.Built) :
    ∃ config groups poolBytes, config.Valid ∧ ValidGroups groups ∧ poolBytes < 2 ^ 64 ∧
      newFromValidatedGroups config groups poolBytes = .ok m := by
  obtain ⟨config, poolBytes, hpool, ⟨specs, h⟩ | ⟨decls, h⟩⟩ := h
  all_goals
    simp only [new, newWithDeclarations, bind_eq_ok, lift_eq_ok, joinChecks_eq_ok] at h
    obtain ⟨groups, ⟨hc, hg⟩, h⟩ := h
    refine ⟨config, groups, poolBytes, StateConfig.validate_eq_ok.mp hc, ?_, hpool, h⟩
  · exact groupLayers_valid hg
  · exact groupLayerSpecs_valid hg

end StateManager

end R9v

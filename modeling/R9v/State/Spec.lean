import R9v.State.Error
import R9v.Lib.Sorted
import Mathlib.Data.List.Dedup

/-!
# State declarations of a model

A model declares, layer by layer, what state the layer keeps (`StateSpec`): a
paged cache of keys and values, or a fixed-size recurrent or convolution slot
(`r9v-state/src/spec.rs`). Layers with the same declaration share a *group*, and
a group is what has a pool and a block table. This file gives the declarations,
their checks, the bytes they take, and the grouping.

The two facts the rest of the development uses are `groupLayers_valid` and
`groupLayerSpecs_valid`: every group that the grouping returns carries a checked
declaration and at least one layer, is found at its own index, and there are at
most `maxGroupsHard` of them (`ValidGroups`).
-/

namespace R9v

open Checked List

/-! ### Limits -/

/-- Tokens per block. -/
def blockTokens : ℕ := 32

def maxCtxHard : ℕ := 2 ^ 20

def maxSeqsHard : ℕ := 65536

def maxLayersHard : ℕ := 1024

def maxDeclsHard : ℕ := 4096

def maxGroupsHard : ℕ := 16

def maxDimHard : ℕ := 4096

def maxBatchTokensHard : ℕ := 2 ^ 20

def maxReserveHard : ℕ := 2 ^ 20

/-! ### Declarations -/

inductive CacheDtype
  | e4m3
  | i8
  | f16
  deriving DecidableEq

def CacheDtype.bytes : CacheDtype → ℕ
  | .e4m3 => 1
  | .i8 => 1
  | .f16 => 2

/-- Which blocks of a sequence a group keeps. -/
inductive Retain
  /-- Every block, until the sequence is freed. -/
  | all
  /-- A sliding window of `w` tokens. -/
  | window (w : ℕ)
  /-- The first `n` tokens, and a sliding window of `w` tokens. -/
  | sinkWindow (n w : ℕ)
  deriving DecidableEq

/-- The window size, when there is a window. -/
def Retain.window? : Retain → Option ℕ
  | .all => none
  | .window w => some w
  | .sinkWindow _ w => some w

def Retain.isWindowed : Retain → Bool
  | .all => false
  | _ => true

/-- The state a layer declares. -/
inductive StateSpec
  | kvPaged (hkv d dv : ℕ) (cache : CacheDtype) (retain : Retain)
  | kvLatent (latent rope : ℕ) (cache : CacheDtype) (retain : Retain)
  | recurrent (h d dv : ℕ)
  | convWindow (c w : ℕ)
  deriving DecidableEq

namespace StateSpec

/-- Whether the declaration is served from a pool of blocks. -/
def isPaged : StateSpec → Bool
  | .kvPaged .. => true
  | .kvLatent .. => true
  | .recurrent .. => false
  | .convWindow .. => false

/-- Whether the declaration is served from a pool of slots. -/
def isRecurrent : StateSpec → Bool
  | .kvPaged .. => false
  | .kvLatent .. => false
  | .recurrent .. => true
  | .convWindow .. => true

def retain : StateSpec → Option Retain
  | .kvPaged _ _ _ _ r => some r
  | .kvLatent _ _ _ r => some r
  | .recurrent .. => none
  | .convWindow .. => none

@[simp] theorem isRecurrent_eq_not_isPaged (s : StateSpec) : s.isRecurrent = !s.isPaged := by
  cases s <;> rfl

theorem isPaged_of_retain {s : StateSpec} {r : Retain} (h : s.retain = some r) :
    s.isPaged = true := by
  cases s <;> simp_all [retain, isPaged]

theorem exists_retain {s : StateSpec} (h : s.isPaged = true) : ∃ r, s.retain = some r := by
  cases s <;> simp_all [retain, isPaged]

end StateSpec

/-! ### Checks -/

/-- The range check behind every dimension: the value must be in `1..=cap`, and
the problem quotes the value under the given label. -/
def checkRange (label : String) (cap v index : ℕ) : List InvalidItem :=
  if v = 0 ∨ v > cap then [⟨index, s!"{label}={v} out of range 1..={cap}"⟩] else []

def checkDim (name : String) (v index : ℕ) : List InvalidItem :=
  checkRange name maxDimHard v index

def checkRetain (r : Retain) (index : ℕ) : List InvalidItem :=
  match r with
  | .all => []
  | .window w => checkRange "window w" maxCtxHard w index
  | .sinkWindow n w =>
    checkRange "sink n" maxCtxHard n index ++ checkRange "window w" maxCtxHard w index

namespace StateSpec

/-- The problems of a declaration, in the order of its fields. -/
def pushChecks (s : StateSpec) (index : ℕ) : List InvalidItem :=
  match s with
  | .kvPaged hkv d dv _ r =>
    checkDim "hkv" hkv index ++ checkDim "d" d index ++ checkDim "dv" dv index ++
      checkRetain r index
  | .kvLatent latent rope _ r =>
    checkDim "latent" latent index ++ checkDim "rope" rope index ++ checkRetain r index
  | .recurrent h d dv =>
    checkDim "h" h index ++ checkDim "d" d index ++ checkDim "dv" dv index
  | .convWindow c w => checkDim "c" c index ++ checkRange "w" maxDimHard w index

def validate (s : StateSpec) (index : ℕ) : List InvalidItem := s.pushChecks index

def checkDims (s : StateSpec) : StateResult Unit :=
  let problems := s.pushChecks u32Max
  ensure (problems = []) (.invalidConfig problems)

end StateSpec

@[simp] theorem checkRange_eq_nil {label : String} {cap v index : ℕ} :
    checkRange label cap v index = [] ↔ 1 ≤ v ∧ v ≤ cap := by
  unfold checkRange
  split <;> simp <;> omega

@[simp] theorem checkDim_eq_nil {name : String} {v index : ℕ} :
    checkDim name v index = [] ↔ 1 ≤ v ∧ v ≤ maxDimHard := checkRange_eq_nil

/-- A declaration in range, in every field. -/
def StateSpec.InRange : StateSpec → Prop
  | .kvPaged hkv d dv _ r =>
    (1 ≤ hkv ∧ hkv ≤ maxDimHard) ∧ (1 ≤ d ∧ d ≤ maxDimHard) ∧ (1 ≤ dv ∧ dv ≤ maxDimHard) ∧
      ∀ i, checkRetain r i = []
  | .kvLatent latent rope _ r =>
    (1 ≤ latent ∧ latent ≤ maxDimHard) ∧ (1 ≤ rope ∧ rope ≤ maxDimHard) ∧
      ∀ i, checkRetain r i = []
  | .recurrent h d dv =>
    (1 ≤ h ∧ h ≤ maxDimHard) ∧ (1 ≤ d ∧ d ≤ maxDimHard) ∧ (1 ≤ dv ∧ dv ≤ maxDimHard)
  | .convWindow c w => (1 ≤ c ∧ c ≤ maxDimHard) ∧ (1 ≤ w ∧ w ≤ maxDimHard)

theorem checkRetain_index {r : Retain} {i : ℕ} (j : ℕ) (h : checkRetain r i = []) :
    checkRetain r j = [] := by
  cases r <;> simp_all [checkRetain]

/-- **The checks pass exactly when every field is in range**, whatever the index
the problems would be reported under. -/
theorem StateSpec.pushChecks_eq_nil {s : StateSpec} {index : ℕ} :
    s.pushChecks index = [] ↔ s.InRange := by
  have hret : ∀ r, checkRetain r index = [] ↔ ∀ i, checkRetain r i = [] := fun r =>
    ⟨fun h i => checkRetain_index i h, fun h => h index⟩
  cases s <;> simp [pushChecks, InRange, hret, and_assoc]

@[simp] theorem StateSpec.checkDims_eq_ok {s : StateSpec} {u : Unit} :
    s.checkDims = .ok u ↔ s.InRange := by
  simp only [checkDims, ensure_eq_ok, pushChecks_eq_nil]

/-! ### Bytes -/

namespace StateSpec

/-- Bytes per token of one layer. -/
def perTokenBytes (s : StateSpec) : StateResult ℕ := do
  s.checkDims
  match s with
  | .kvPaged hkv d dv cache _ =>
    let dd ← okOr (add 64 d dv) (.overflow "kv dims")
    let vals ← okOr (mul 64 dd cache.bytes) (.overflow "kv values")
    let scaleBytes := match cache with
      | .e4m3 => 4
      | .i8 => 4
      | .f16 => 0
    let perHead ← okOr (add 64 vals scaleBytes) (.overflow "kv scales")
    okOr (mul 64 perHead hkv) (.overflow "kv heads")
  | .kvLatent latent rope cache _ =>
    let vals ← okOr (mul 64 latent cache.bytes) (.overflow "latent values")
    let scaleBytes := match cache with
      | .e4m3 => 2
      | .i8 => 2
      | .f16 => 0
    let valsWithScales ← okOr (add 64 vals scaleBytes) (.overflow "latent scales")
    let ropeBytes ← okOr (mul 64 rope 2) (.overflow "rope values")
    okOr (add 64 valsWithScales ropeBytes) (.overflow "latent total")
  | .recurrent .. => pure 0
  | .convWindow .. => pure 0

/-- Bytes of one fixed slot of one layer. -/
def slotBytes (s : StateSpec) : StateResult ℕ := do
  s.checkDims
  match s with
  | .recurrent h d dv =>
    okOr ((mul 64 h d).bind fun v => (mul 64 v dv).bind fun v => mul 64 v 4)
      (.overflow "recurrent slot")
  | .convWindow c w =>
    let w1 ← okOr (sub w 1) (.overflow "conv window")
    okOr ((mul 64 w1 c).bind fun v => mul 64 v 2) (.overflow "conv slot")
  | .kvPaged .. => pure 0
  | .kvLatent .. => pure 0

/-- Bytes per sequence of one layer, over both of its buffers. -/
def perSeqBytes (s : StateSpec) : StateResult ℕ := do
  let single ← s.slotBytes
  if s.isRecurrent then
    okOr (mul 64 single 2) (.overflow "double-buffer per-sequence bytes")
  else
    pure 0

/-- What `perTokenBytes` computes on a declaration in range. -/
def tokenSize : StateSpec → ℕ
  | .kvPaged hkv d dv cache _ => ((d + dv) * cache.bytes + if cache = .f16 then 0 else 4) * hkv
  | .kvLatent latent rope cache _ =>
    latent * cache.bytes + (if cache = .f16 then 0 else 2) + rope * 2
  | .recurrent .. => 0
  | .convWindow .. => 0

/-- What `slotBytes` computes on a declaration in range. -/
def slotSize : StateSpec → ℕ
  | .recurrent h d dv => h * d * dv * 4
  | .convWindow c w => (w - 1) * c * 2
  | .kvPaged .. => 0
  | .kvLatent .. => 0

theorem bytes_bounds (c : CacheDtype) : 1 ≤ c.bytes ∧ c.bytes ≤ 2 := by
  cases c <;> simp [CacheDtype.bytes]

theorem tokenSize_le {s : StateSpec} (h : s.InRange) : s.tokenSize ≤ 2 ^ 27 := by
  cases s with
  | kvPaged hkv d dv cache r =>
    obtain ⟨⟨-, h₁⟩, ⟨-, h₂⟩, ⟨-, h₃⟩, -⟩ := h
    have hb := (bytes_bounds cache).2
    have hs : (if cache = .f16 then 0 else 4) ≤ 4 := by split <;> omega
    calc ((d + dv) * cache.bytes + if cache = .f16 then 0 else 4) * hkv
        ≤ ((maxDimHard + maxDimHard) * 2 + 4) * maxDimHard := by gcongr
      _ ≤ 2 ^ 27 := by decide
  | kvLatent latent rope cache r =>
    obtain ⟨⟨-, h₁⟩, ⟨-, h₂⟩, -⟩ := h
    have hb := (bytes_bounds cache).2
    have hs : (if cache = .f16 then 0 else 2) ≤ 2 := by split <;> omega
    calc latent * cache.bytes + (if cache = .f16 then 0 else 2) + rope * 2
        ≤ maxDimHard * 2 + 2 + maxDimHard * 2 := by gcongr
      _ ≤ 2 ^ 27 := by decide
  | recurrent h d dv => simp [tokenSize]
  | convWindow c w => simp [tokenSize]

theorem slotSize_le {s : StateSpec} (h : s.InRange) : s.slotSize ≤ 2 ^ 38 := by
  cases s with
  | recurrent h d dv =>
    obtain ⟨⟨-, h₁⟩, ⟨-, h₂⟩, -, h₃⟩ := h
    calc h * d * dv * 4 ≤ maxDimHard * maxDimHard * maxDimHard * 4 := by gcongr
      _ ≤ 2 ^ 38 := by decide
  | convWindow c w =>
    obtain ⟨⟨-, h₁⟩, -, h₂⟩ := h
    calc (w - 1) * c * 2 ≤ maxDimHard * maxDimHard * 2 := by
          gcongr
          omega
      _ ≤ 2 ^ 38 := by decide
  | kvPaged hkv d dv cache r => simp [slotSize]
  | kvLatent latent rope cache r => simp [slotSize]

theorem tokenSize_pos {s : StateSpec} (h : s.InRange) (hp : s.isPaged = true) :
    0 < s.tokenSize := by
  cases s with
  | kvPaged hkv d dv cache r =>
    obtain ⟨⟨h₁, -⟩, ⟨h₂, -⟩, -⟩ := h
    have hb := (bytes_bounds cache).1
    have hd : 0 < (d + dv) * cache.bytes := by positivity
    exact Nat.mul_pos (by omega) h₁
  | kvLatent latent rope cache r =>
    obtain ⟨-, ⟨h₁, -⟩, -⟩ := h
    simp only [tokenSize]
    omega
  | recurrent h d dv => simp [isPaged] at hp
  | convWindow c w => simp [isPaged] at hp

theorem perTokenBytes_eq {s : StateSpec} (h : s.InRange) :
    s.perTokenBytes = .ok s.tokenSize := by
  have hc : s.checkDims = .ok () := checkDims_eq_ok.mpr h
  have hle := tokenSize_le h
  cases s with
  | kvPaged hkv d dv cache r =>
    obtain ⟨⟨h₁, -⟩, ⟨-, h₂⟩, ⟨-, h₃⟩, -⟩ := h
    have hb := (bytes_bounds cache).2
    simp only [maxDimHard] at h₂ h₃
    have hv : (d + dv) * cache.bytes ≤ (4096 + 4096) * 2 := by gcongr
    simp only [perTokenBytes, hc, ok_bind, bind_eq_ok, okOr_eq_ok, add_eq_some, mul_eq_some]
    refine ⟨_, ⟨by omega, rfl⟩, _, ⟨by omega, rfl⟩, _, ⟨?_, rfl⟩, ?_, ?_⟩
    · cases cache <;> dsimp only <;> omega
    · refine lt_of_le_of_lt (le_of_eq ?_) (hle.trans_lt (by decide))
      cases cache <;> rfl
    · cases cache <;> rfl
  | kvLatent latent rope cache r =>
    obtain ⟨⟨-, h₁⟩, ⟨-, h₂⟩, -⟩ := h
    have hb := (bytes_bounds cache).2
    simp only [maxDimHard] at h₁ h₂
    have hv : latent * cache.bytes ≤ 4096 * 2 := by gcongr
    simp only [perTokenBytes, hc, ok_bind, bind_eq_ok, okOr_eq_ok, add_eq_some, mul_eq_some]
    refine ⟨_, ⟨by omega, rfl⟩, _, ⟨?_, rfl⟩, _, ⟨by omega, rfl⟩, ?_, ?_⟩
    · cases cache <;> dsimp only <;> omega
    · cases cache <;> dsimp only <;> omega
    · cases cache <;> rfl
  | recurrent h d dv => simp [perTokenBytes, hc, tokenSize]
  | convWindow c w => simp [perTokenBytes, hc, tokenSize]

theorem slotBytes_eq {s : StateSpec} (h : s.InRange) : s.slotBytes = .ok s.slotSize := by
  have hc : s.checkDims = .ok () := checkDims_eq_ok.mpr h
  have hle := slotSize_le h
  cases s with
  | recurrent h d dv =>
    obtain ⟨⟨h₁, -⟩, ⟨h₂, -⟩, h₃, -⟩ := h
    have hd : h * d ≤ h * d * dv := Nat.le_mul_of_pos_right _ h₃
    simp only [slotSize] at hle
    simp only [slotBytes, hc, ok_bind, okOr_eq_ok, Option.bind_eq_some_iff, mul_eq_some]
    exact ⟨_, ⟨by omega, rfl⟩, _, ⟨by omega, rfl⟩, by omega, rfl⟩
  | convWindow c w =>
    obtain ⟨-, h₁, -⟩ := h
    simp only [slotSize] at hle
    simp only [slotBytes, hc, ok_bind, bind_eq_ok, okOr_eq_ok, Option.bind_eq_some_iff,
      mul_eq_some, sub_eq_some]
    exact ⟨_, ⟨h₁, rfl⟩, _, ⟨by omega, rfl⟩, by omega, rfl⟩
  | kvPaged hkv d dv cache r => simp [slotBytes, hc, slotSize]
  | kvLatent latent rope cache r => simp [slotBytes, hc, slotSize]

theorem perSeqBytes_eq {s : StateSpec} (h : s.InRange) (hp : s.isPaged = false) :
    s.perSeqBytes = .ok (s.slotSize * 2) := by
  have hle := slotSize_le h
  simp only [perSeqBytes, slotBytes_eq h, ok_bind, isRecurrent_eq_not_isPaged, hp, Bool.not_false,
    if_true, okOr_eq_ok, mul_eq_some]
  exact ⟨by omega, trivial⟩
end StateSpec

/-! ### Groups -/

/-- Layers with one declaration: one pool, and one block table. -/
structure LayerGroup where
  index : ℕ
  spec : StateSpec
  /-- The layers, ascending. -/
  layers : List ℕ
  deriving DecidableEq

namespace LayerGroup

/-- Bytes per token of all layers of the group. -/
def perTokenBytes (g : LayerGroup) : StateResult ℕ := do
  let perLayer ← g.spec.perTokenBytes
  let count ← okOr (narrow 64 g.layers.length) (.overflow "group layer count")
  okOr (mul 64 perLayer count) (.overflow "group per-token bytes")

/-- Bytes per block of all layers of the group. -/
def blockBytes (g : LayerGroup) : StateResult ℕ := do
  let perToken ← g.perTokenBytes
  okOr (mul 64 perToken blockTokens) (.overflow "group block bytes")

/-- Bytes per sequence of all layers of the group, over both buffers. -/
def slotsBytesPerSeq (g : LayerGroup) : StateResult ℕ := do
  let perLayer ← g.spec.perSeqBytes
  let count ← okOr (narrow 64 g.layers.length) (.overflow "group layer count")
  okOr (mul 64 perLayer count) (.overflow "group slot bytes")

end LayerGroup

/-- A declaration and the layer that makes it. -/
structure StateDecl where
  layer : ℕ
  spec : StateSpec
  deriving DecidableEq

/-- The group with one more layer, at its place. -/
def LayerGroup.addLayer (g : LayerGroup) (layer : ℕ) : LayerGroup :=
  if layer ∈ g.layers then g
  else
    let pos := Sorted.partitionPoint (· < layer) g.layers
    { g with layers := g.layers.insertIdx pos layer }

/-- One round of the grouping: the declaration joins the first group of its kind,
or opens a new group at the end. -/
def addDeclaration (groups : List LayerGroup) (decl : StateDecl) : List LayerGroup :=
  match groups.findIdx? (fun g => g.spec = decl.spec) with
  | some i => groups.modify i (·.addLayer decl.layer)
  | none => groups ++ [⟨groups.length, decl.spec, [decl.layer]⟩]

/-- The grouping of checked declarations, in the order of first occurrence. -/
def groupDeclarationsInfallible (declarations : List StateDecl) : List LayerGroup :=
  declarations.foldl addDeclaration []

def groupCap (groups : List LayerGroup) : StateResult (List LayerGroup) := do
  ensure (groups.length ≤ maxGroupsHard)
    (.invalidConfig [⟨u32Max, s!"groups={groups.length} exceeds cap {maxGroupsHard}"⟩])
  pure groups

/-- The grouping of one declaration per layer, in layer order. -/
def groupLayers (specs : List StateSpec) : StateResult (List LayerGroup) := do
  ensure (specs.length ≤ maxLayersHard)
    (.invalidConfig [⟨u32Max, s!"layers={specs.length} exceeds cap {maxLayersHard}"⟩])
  let problems := specs.zipIdx.flatMap fun (spec, i) =>
    if 2 ^ 32 ≤ i then [⟨u32Max, s!"layer index {i} exceeds u32 range"⟩]
    else
      (if maxLayersHard ≤ i then [⟨i, s!"layer index {i} exceeds cap {maxLayersHard}"⟩] else []) ++
        spec.validate i
  ensure (problems = []) (.invalidConfig problems)
  groupCap (groupDeclarationsInfallible (specs.zipIdx.map fun (spec, i) => ⟨i, spec⟩))

/-- The grouping of explicit declarations, under the layers that make them. -/
def groupLayerSpecs (decls : List StateDecl) : StateResult (List LayerGroup) := do
  ensure (decls.length ≤ maxDeclsHard)
    (.invalidConfig [⟨u32Max, s!"declarations={decls.length} exceeds cap {maxDeclsHard}"⟩])
  let problems := decls.flatMap fun decl =>
    (if maxLayersHard ≤ decl.layer then
      [⟨decl.layer, s!"layer index {decl.layer} exceeds cap {maxLayersHard}"⟩] else []) ++
      decl.spec.validate decl.layer
  let uniqueLayers := ((decls.map (·.layer)).filter (· < maxLayersHard)).dedup.length
  let problems := problems ++
    if maxLayersHard < uniqueLayers then
      [⟨u32Max, s!"unique model layers={uniqueLayers} exceeds cap {maxLayersHard}"⟩] else []
  ensure (problems = []) (.invalidConfig problems)
  groupCap (groupDeclarationsInfallible decls)

/-! ### What the grouping returns -/

/-- **Groups as the constructors of the manager receive them**: every group is
found at its own index, its declaration is in range, and it has at least one
layer and no more than there are declarations. -/
structure ValidGroups (groups : List LayerGroup) : Prop where
  index : ∀ (i : ℕ) (g : LayerGroup), groups[i]? = some g → g.index = i
  inRange : ∀ g ∈ groups, g.spec.InRange
  layers_ne_nil : ∀ g ∈ groups, g.layers ≠ []
  layers_le : ∀ g ∈ groups, g.layers.length ≤ maxDeclsHard
  length_le : groups.length ≤ maxGroupsHard

/-- What holds of the groups after some rounds of the grouping. -/
structure Grouping (n : ℕ) (groups : List LayerGroup) : Prop where
  index : ∀ (i : ℕ) (g : LayerGroup), groups[i]? = some g → g.index = i
  inRange : ∀ g ∈ groups, g.spec.InRange
  layers_ne_nil : ∀ g ∈ groups, g.layers ≠ []
  layers_le : ∀ g ∈ groups, g.layers.length ≤ n

theorem LayerGroup.addLayer_spec {g : LayerGroup} (layer : ℕ) (hne : g.layers ≠ []) :
    (g.addLayer layer).index = g.index ∧ (g.addLayer layer).spec = g.spec ∧
      (g.addLayer layer).layers ≠ [] ∧
      (g.addLayer layer).layers.length ≤ g.layers.length + 1 := by
  unfold addLayer
  split
  · exact ⟨rfl, rfl, hne, by omega⟩
  · have hpp := Sorted.partitionPoint_le_length (fun x => decide (x < layer)) g.layers
    refine ⟨rfl, rfl, ?_, ?_⟩
    · rw [← length_pos_iff, length_insertIdx_of_le_length hpp]
      omega
    · rw [length_insertIdx_of_le_length hpp]

theorem Grouping.addDeclaration {n : ℕ} {groups : List LayerGroup} {decl : StateDecl}
    (h : Grouping n groups) (hd : decl.spec.InRange) :
    Grouping (n + 1) (addDeclaration groups decl) := by
  unfold R9v.addDeclaration
  split
  case h_1 i _ =>
    -- the group that takes the layer keeps its index and its declaration
    have hmod : ∀ (j : ℕ) (g : LayerGroup),
        (groups.modify i (·.addLayer decl.layer))[j]? = some g →
        ∃ g₀, groups[j]? = some g₀ ∧ g.index = g₀.index ∧ g.spec = g₀.spec ∧
          g.layers ≠ [] ∧ g.layers.length ≤ n + 1 := by
      intro j g hg
      rw [getElem?_modify] at hg
      obtain ⟨g₀, hg₀, rfl⟩ := Option.map_eq_some_iff.mp hg
      have hne := h.layers_ne_nil g₀ (mem_of_getElem? hg₀)
      have hle := h.layers_le g₀ (mem_of_getElem? hg₀)
      refine ⟨g₀, hg₀, ?_⟩
      split
      · obtain ⟨h₁, h₂, h₃, h₄⟩ := g₀.addLayer_spec decl.layer hne
        exact ⟨h₁, h₂, h₃, by omega⟩
      · exact ⟨rfl, rfl, hne, by omega⟩
    refine ⟨fun j g hg => ?_, fun g hg => ?_, fun g hg => ?_, fun g hg => ?_⟩
    · obtain ⟨g₀, hg₀, hidx, -⟩ := hmod j g hg
      rw [hidx, h.index j g₀ hg₀]
    all_goals
      obtain ⟨j, hj⟩ := mem_iff_getElem?.mp hg
      obtain ⟨g₀, hg₀, -, hspec, hne, hle⟩ := hmod j g hj
    · rw [hspec]
      exact h.inRange g₀ (mem_of_getElem? hg₀)
    · exact hne
    · exact hle
  case h_2 _ =>
    refine ⟨fun j g hg => ?_, fun g hg => ?_, fun g hg => ?_, fun g hg => ?_⟩
    · rw [getElem?_append] at hg
      split at hg
      · exact h.index j g hg
      · rw [getElem?_singleton] at hg
        split at hg
        · obtain rfl := Option.some.inj hg
          simp only
          omega
        · simp at hg
    all_goals rcases mem_append.mp hg with hg | hg
    · exact h.inRange g hg
    · obtain rfl := mem_singleton.mp hg
      exact hd
    · exact h.layers_ne_nil g hg
    · obtain rfl := mem_singleton.mp hg
      simp
    · exact (h.layers_le g hg).trans (Nat.le_succ n)
    · obtain rfl := mem_singleton.mp hg
      simp

theorem Grouping.foldl {decls : List StateDecl} (hd : ∀ decl ∈ decls, decl.spec.InRange) {n : ℕ}
    {groups : List LayerGroup} (h : Grouping n groups) :
    Grouping (n + decls.length) (decls.foldl R9v.addDeclaration groups) := by
  induction decls generalizing n groups with
  | nil => exact h
  | cons decl decls ih =>
    have hstep := h.addDeclaration (hd decl mem_cons_self)
    have := ih (fun d hm => hd d (mem_cons_of_mem _ hm)) hstep
    rwa [Nat.add_right_comm, Nat.add_assoc] at this

theorem groupCap_valid {decls : List StateDecl} {groups : List LayerGroup}
    (hd : ∀ decl ∈ decls, decl.spec.InRange) (hlen : decls.length ≤ maxDeclsHard)
    (h : groupCap (groupDeclarationsInfallible decls) = .ok groups) : ValidGroups groups := by
  simp only [groupCap, bind_eq_ok, ensure_eq_ok, pure_eq_ok] at h
  obtain ⟨-, hcap, rfl⟩ := h
  have hg : Grouping (0 + decls.length) (groupDeclarationsInfallible decls) :=
    Grouping.foldl hd ⟨by simp, by simp, by simp, by simp⟩
  exact ⟨hg.index, hg.inRange, hg.layers_ne_nil,
    fun g hm => (hg.layers_le g hm).trans (by omega), hcap⟩

/-- **Every layer list that is accepted is grouped validly.** -/
theorem groupLayers_valid {specs : List StateSpec} {groups : List LayerGroup}
    (h : groupLayers specs = .ok groups) : ValidGroups groups := by
  simp only [groupLayers, bind_eq_ok, ensure_eq_ok] at h
  obtain ⟨-, hlen, -, hp, h⟩ := h
  refine groupCap_valid ?_ ?_ h
  · intro decl hd
    obtain ⟨⟨spec, i⟩, hs, rfl⟩ := mem_map.mp hd
    have hlt : i < specs.length := by
      obtain ⟨-, hlt, -⟩ := mem_zipIdx hs
      omega
    have := flatMap_eq_nil_iff.mp hp _ hs
    have hsmall : ¬2 ^ 32 ≤ i := by
      simp only [maxLayersHard] at hlen
      omega
    rw [if_neg hsmall, append_eq_nil_iff] at this
    exact StateSpec.pushChecks_eq_nil.mp this.2
  · simp only [length_map, length_zipIdx]
    exact hlen.trans (by decide)

/-- **Every declaration list that is accepted is grouped validly.** -/
theorem groupLayerSpecs_valid {decls : List StateDecl} {groups : List LayerGroup}
    (h : groupLayerSpecs decls = .ok groups) : ValidGroups groups := by
  simp only [groupLayerSpecs, bind_eq_ok, ensure_eq_ok] at h
  obtain ⟨-, hlen, -, hp, h⟩ := h
  refine groupCap_valid ?_ hlen h
  intro decl hd
  have hnil := flatMap_eq_nil_iff.mp (append_eq_nil_iff.mp hp).1 decl hd
  exact StateSpec.pushChecks_eq_nil.mp (append_eq_nil_iff.mp hnil).2

/-! ### Sizes of valid groups -/

namespace LayerGroup

/-- What `blockBytes` computes on a valid group. -/
def blockSize (g : LayerGroup) : ℕ := g.spec.tokenSize * g.layers.length * blockTokens

/-- What `slotsBytesPerSeq` computes on a valid group of fixed slots. -/
def slotSize (g : LayerGroup) : ℕ := g.spec.slotSize * 2 * g.layers.length

end LayerGroup

namespace ValidGroups

variable {groups : List LayerGroup} {g : LayerGroup}

theorem blockBytes_eq (h : ValidGroups groups) (hg : g ∈ groups) :
    g.blockBytes = .ok g.blockSize := by
  have hr := h.inRange g hg
  have hlen := h.layers_le g hg
  have hle : g.spec.tokenSize * g.layers.length ≤ 2 ^ 27 * maxDeclsHard := by
    gcongr
    exact StateSpec.tokenSize_le hr
  simp only [maxDeclsHard] at hlen hle
  simp only [LayerGroup.blockBytes, LayerGroup.perTokenBytes, StateSpec.perTokenBytes_eq hr,
    ok_bind, bind_eq_ok, okOr_eq_ok, narrow_eq_some, mul_eq_some, blockTokens]
  exact ⟨_, ⟨_, ⟨by omega, rfl⟩, by omega, rfl⟩, by omega, rfl⟩

theorem blockSize_pos (h : ValidGroups groups) (hg : g ∈ groups) (hp : g.spec.isPaged = true) :
    0 < g.blockSize := by
  have hlayers := length_pos_iff.mpr (h.layers_ne_nil g hg)
  have htoken := StateSpec.tokenSize_pos (h.inRange g hg) hp
  exact Nat.mul_pos (Nat.mul_pos htoken hlayers) (by decide)

theorem slotsBytesPerSeq_eq (h : ValidGroups groups) (hg : g ∈ groups)
    (hp : g.spec.isPaged = false) : g.slotsBytesPerSeq = .ok g.slotSize := by
  have hr := h.inRange g hg
  have hlen := h.layers_le g hg
  have hle : g.spec.slotSize * 2 * g.layers.length ≤ 2 ^ 38 * 2 * maxDeclsHard := by
    gcongr
    exact StateSpec.slotSize_le hr
  simp only [maxDeclsHard] at hlen hle
  simp only [LayerGroup.slotsBytesPerSeq, StateSpec.perSeqBytes_eq hr hp, ok_bind, bind_eq_ok,
    okOr_eq_ok, narrow_eq_some, mul_eq_some]
  exact ⟨_, ⟨by omega, rfl⟩, by omega, rfl⟩

end ValidGroups

end R9v

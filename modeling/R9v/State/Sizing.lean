import R9v.State.Manager
import R9v.Lib.Layout

/-!
# Pool sizing and the layout of the arena

The construction of the manager adds up the same bytes twice, once to say how
large the arena must be (`requiredPoolBytes`) and once to divide the arena it was
given (`StateManager.newFromValidatedGroups`). Both are compared here with the
plain sums: `fixedTotal`, the bytes of all slots, and `blockCost`, the bytes of
one block of every paged group. The construction succeeds exactly when the arena
has room for the slots and for `maxBlocks` blocks of every paged group, and the
block ids stay within reach of the device (`Fits`), and what it returns is then
`initial`, in closed form.

The layout theorem is about regions, the blocks and the buffers of the arena: no
two of them overlap, and none leaves the arena.
-/

namespace R9v

open Checked Layout List

/-! ### The sums -/

/-- The bytes of all fixed slots. -/
def fixedTotal (maxSeqs : ℕ) (groups : List LayerGroup) : ℕ :=
  ((groups.filter fun g => !g.spec.isPaged).map fun g => g.slotSize * maxSeqs).sum

/-- The bytes of one block of every paged group. -/
def blockCost (groups : List LayerGroup) : ℕ :=
  ((groups.filter (·.spec.isPaged)).map (·.blockSize)).sum

/-- The bytes of a group's pool, for a number of blocks. -/
def area (maxSeqs blocks : ℕ) (g : LayerGroup) : ℕ :=
  if g.spec.isPaged then blocks * g.blockSize else g.slotSize * maxSeqs

theorem sum_area (maxSeqs blocks : ℕ) (groups : List LayerGroup) :
    (groups.map (area maxSeqs blocks)).sum =
      blocks * blockCost groups + fixedTotal maxSeqs groups := by
  have h : (groups.map (area maxSeqs blocks)).sum =
      ((groups.filter (·.spec.isPaged)).map fun g => blocks * g.blockSize).sum +
        fixedTotal maxSeqs groups := sum_map_ite groups (·.spec.isPaged) _ _
  rw [h, blockCost, sum_map_mul_left]

section Valid

variable {groups : List LayerGroup} (hv : ValidGroups groups)

include hv

/-- **The required bytes are the sum**, when the sum is a machine word. -/
theorem requiredPoolBytes_eq_ok {config : StateConfig} {r : ℕ} :
    requiredPoolBytes config groups = .ok r ↔
      config.maxBlocks * blockCost groups + fixedTotal config.maxSeqs groups < 2 ^ 64 ∧
        config.maxBlocks * blockCost groups + fixedTotal config.maxSeqs groups = r := by
  rw [← sum_area]
  refine foldlM_sum_zero_eq_ok (area config.maxSeqs config.maxBlocks) fun g hg t _ t' => ?_
  cases hp : g.spec.isPaged with
  | true =>
    simp only [area, hp, if_true, hv.blockBytes_eq hg, ok_bind, Nat.mul_comm config.maxBlocks]
    exact mul_add_eq_ok
  | false =>
    simp only [area, hp, Bool.false_eq_true, if_false, hv.slotsBytesPerSeq_eq hg hp, ok_bind]
    exact mul_add_eq_ok

theorem sumFixed_eq_ok {maxSeqs t : ℕ} :
    StateManager.sumFixed maxSeqs groups = .ok t ↔
      fixedTotal maxSeqs groups < 2 ^ 64 ∧ fixedTotal maxSeqs groups = t := by
  have h : fixedTotal maxSeqs groups = (groups.map (area maxSeqs 0)).sum := by
    rw [sum_area, Nat.zero_mul, Nat.zero_add]
  rw [h]
  refine foldlM_sum_zero_eq_ok (area maxSeqs 0) fun g hg t ht t' => ?_
  cases hp : g.spec.isPaged with
  | true => simpa [area, hp] using fun _ => ht
  | false =>
    simp only [area, hp, Bool.false_eq_true, if_false, hv.slotsBytesPerSeq_eq hg hp, ok_bind]
    exact mul_add_eq_ok

theorem sumBlockCost_eq_ok {t : ℕ} :
    StateManager.sumBlockCost (groups.filter (·.spec.isPaged)) = .ok t ↔
      blockCost groups < 2 ^ 64 ∧ blockCost groups = t := by
  refine foldlM_sum_zero_eq_ok LayerGroup.blockSize fun g hg t _ t' => ?_
  simp only [hv.blockBytes_eq (mem_of_mem_filter hg), ok_bind, okOr_eq_ok, add_eq_some]

end Valid

/-! ### The layout in closed form -/

/-- The pool of blocks that a group gets at a base offset. -/
def poolAt (blocks base : ℕ) (g : LayerGroup) : Option BlockPool :=
  if g.spec.isPaged then some ⟨blocks, (List.range blocks).reverse, base, g.blockSize⟩ else none

/-- The pool of slots that a group gets at a base offset. -/
def fixedAt (maxSeqs base : ℕ) (g : LayerGroup) : Option FixedPool :=
  if g.spec.isPaged then none
  else some ⟨maxSeqs, List.range maxSeqs, g.slotSize, g.slotSize / 2, base⟩

/-- The pools of a list of groups, from a base offset on. -/
def layoutFrom (maxSeqs blocks : ℕ) : ℕ → List LayerGroup → StateManager.Layout
  | base, [] => ⟨[], [], base⟩
  | base, g :: groups =>
    let rest := layoutFrom maxSeqs blocks (base + area maxSeqs blocks g) groups
    ⟨poolAt blocks base g :: rest.pools, fixedAt maxSeqs base g :: rest.fixed, rest.base⟩

attribute [grind =] layoutFrom

variable {maxSeqs blocks : ℕ}

theorem placeGroup_eq_ok {groups : List LayerGroup} (hv : ValidGroups groups) {g : LayerGroup}
    (hg : g ∈ groups) {l l' : StateManager.Layout} :
    StateManager.placeGroup maxSeqs blocks l g = .ok l' ↔
      l.base + area maxSeqs blocks g < 2 ^ 64 ∧
        l' = ⟨l.pools ++ [poolAt blocks l.base g], l.fixed ++ [fixedAt maxSeqs l.base g],
          l.base + area maxSeqs blocks g⟩ := by
  unfold StateManager.placeGroup
  cases hp : g.spec.isPaged with
  | true =>
    simp only [if_true, hv.blockBytes_eq hg, ok_bind, bind_eq_ok, okOr_eq_ok, mul_eq_some,
      add_eq_some, pure_eq_ok, area, poolAt, fixedAt, hp]
    constructor
    · rintro ⟨_, ⟨-, rfl⟩, _, ⟨h, rfl⟩, rfl⟩
      exact ⟨h, rfl⟩
    · rintro ⟨h, rfl⟩
      exact ⟨_, ⟨by omega, rfl⟩, _, ⟨h, rfl⟩, rfl⟩
  | false =>
    simp only [Bool.false_eq_true, if_false, hv.slotsBytesPerSeq_eq hg hp, ok_bind, bind_eq_ok,
      okOr_eq_ok, mul_eq_some, add_eq_some, pure_eq_ok, area, poolAt, fixedAt, hp]
    constructor
    · rintro ⟨_, ⟨-, rfl⟩, _, ⟨h, rfl⟩, rfl⟩
      exact ⟨h, rfl⟩
    · rintro ⟨h, rfl⟩
      exact ⟨_, ⟨by omega, rfl⟩, _, ⟨h, rfl⟩, rfl⟩

/-- **Laying the groups out succeeds** when the arena they need is a machine
word, and gives the closed form. -/
theorem placeGroups_eq_ok {groups all : List LayerGroup} (hv : ValidGroups all)
    (hsub : ∀ g ∈ groups, g ∈ all) {l : StateManager.Layout}
    (hlt : l.base + (groups.map (area maxSeqs blocks)).sum < 2 ^ 64) :
    groups.foldlM (StateManager.placeGroup maxSeqs blocks) l = .ok
      ⟨l.pools ++ (layoutFrom maxSeqs blocks l.base groups).pools,
        l.fixed ++ (layoutFrom maxSeqs blocks l.base groups).fixed,
        (layoutFrom maxSeqs blocks l.base groups).base⟩ := by
  induction groups generalizing l with
  | nil => simp [layoutFrom, pure, Except.pure]
  | cons g groups ih =>
    rw [map_cons, sum_cons] at hlt
    have hstep : StateManager.placeGroup maxSeqs blocks l g = .ok _ :=
      (placeGroup_eq_ok hv (hsub g mem_cons_self)).mpr ⟨by omega, rfl⟩
    rw [foldlM_cons, hstep, ok_bind, ih (fun g' hg' => hsub g' (mem_cons_of_mem g hg'))]
    · simp [layoutFrom]
    · simpa [Nat.add_assoc] using hlt

theorem layoutFrom_getElem? (groups : List LayerGroup) (base i : ℕ) :
    (layoutFrom maxSeqs blocks base groups).pools[i]? =
        groups[i]?.map (poolAt blocks (base + start (groups.map (area maxSeqs blocks)) i)) ∧
      (layoutFrom maxSeqs blocks base groups).fixed[i]? =
        groups[i]?.map (fixedAt maxSeqs (base + start (groups.map (area maxSeqs blocks)) i)) := by
  induction groups generalizing base i with
  | nil => simp [layoutFrom]
  | cons g groups ih =>
    cases i with
    | zero => simp [layoutFrom, start]
    | succ i =>
      obtain ⟨h₁, h₂⟩ := ih (base + area maxSeqs blocks g) i
      simp only [layoutFrom, getElem?_cons_succ, h₁, h₂]
      simp [start, Nat.add_assoc]

/-! ### When the construction succeeds -/

/-- **What the construction asks for**: room for every slot and for `maxBlocks`
blocks of every paged group, and blocks that the device can name. -/
structure Fits (config : StateConfig) (groups : List LayerGroup) (poolBytes : ℕ) : Prop where
  room : config.maxBlocks * blockCost groups + fixedTotal config.maxSeqs groups ≤ poolBytes
  reach : groups.filter (·.spec.isPaged) = [] ∨
    (poolBytes - fixedTotal config.maxSeqs groups) / blockCost groups ≤ maxSlotBlocks

/-- The blocks of every paged pool. -/
def blocksFor (config : StateConfig) (groups : List LayerGroup) (poolBytes : ℕ) : ℕ :=
  if groups.filter (·.spec.isPaged) = [] then 0
  else (poolBytes - fixedTotal config.maxSeqs groups) / blockCost groups

/-- The manager that the construction returns. -/
def initial (config : StateConfig) (groups : List LayerGroup) (poolBytes : ℕ) : StateManager :=
  let blocks := blocksFor config groups poolBytes
  let l := layoutFrom config.maxSeqs blocks 0 groups
  { config, groups
    maxBlocks := config.maxBlocks
    pools := l.pools
    fixed := l.fixed
    poolBytesTotal := blocks * blockCost groups
    fixedBytesTotal := fixedTotal config.maxSeqs groups
    unusableBytes := poolBytes - fixedTotal config.maxSeqs groups - blocks * blockCost groups
    nextSeq := 0
    seqs := ∅
    liveCount := 0
    swaps := 0
    commits := 0
    reserveScratch := [] }

theorem blockCost_pos {groups : List LayerGroup} (hv : ValidGroups groups)
    (hne : groups.filter (·.spec.isPaged) ≠ []) : 0 < blockCost groups := by
  obtain ⟨g, hg⟩ := exists_mem_of_ne_nil _ hne
  have hpaged : g.spec.isPaged = true := by simpa using (mem_filter.mp hg).2
  have hpos := hv.blockSize_pos (mem_of_mem_filter hg) hpaged
  exact hpos.trans_le (single_le_sum (fun _ _ => Nat.zero_le _) _ (mem_map_of_mem hg))

theorem blocksFor_mul_le (config : StateConfig) (groups : List LayerGroup) (poolBytes : ℕ) :
    blocksFor config groups poolBytes * blockCost groups ≤
      poolBytes - fixedTotal config.maxSeqs groups := by
  unfold blocksFor
  split
  · simp
  · exact Nat.div_mul_le_self _ _

/-- The division of the paged bytes, when there is something to divide: it gives
every pool its blocks, or refuses with an error; the shortfall it reports is
never negative. -/
theorem splitPaged_cases {paged : List LayerGroup} {maxBlocks poolBytes fixedTotal cost : ℕ}
    (hne : paged ≠ []) (hcost : 0 < cost) (hfix : fixedTotal ≤ poolBytes)
    (hpool : poolBytes < 2 ^ 64) :
    (maxBlocks * cost + fixedTotal ≤ poolBytes ∧ (poolBytes - fixedTotal) / cost ≤ maxSlotBlocks ∧
      StateManager.splitPaged paged maxBlocks poolBytes fixedTotal (poolBytes - fixedTotal) cost =
        .ok ((poolBytes - fixedTotal) / cost, (poolBytes - fixedTotal) / cost * cost)) ∨
    (¬(maxBlocks * cost + fixedTotal ≤ poolBytes ∧
        (poolBytes - fixedTotal) / cost ≤ maxSlotBlocks) ∧
      ∃ e, StateManager.splitPaged paged maxBlocks poolBytes fixedTotal (poolBytes - fixedTotal)
        cost = .error (.err e)) := by
  have hroom : maxBlocks * cost + fixedTotal ≤ poolBytes ↔
      maxBlocks ≤ (poolBytes - fixedTotal) / cost := by
    rw [Nat.le_div_iff_mul_le hcost]
    omega
  have hmul := Nat.div_mul_le_self (poolBytes - fixedTotal) cost
  simp only [StateManager.splitPaged, if_neg hne, ensure_of (Nat.pos_iff_ne_zero.mp hcost), ok_bind]
  by_cases hreach : (poolBytes - fixedTotal) / cost ≤ maxSlotBlocks
  · have h32 : (poolBytes - fixedTotal) / cost < 2 ^ 32 := hreach.trans_lt (by decide)
    simp only [narrow_of_lt h32, okOr_some, ok_bind, ensure_of hreach]
    by_cases hlt : (poolBytes - fixedTotal) / cost < maxBlocks
    · rw [if_pos hlt]
      refine Or.inr ⟨fun h => absurd (hroom.mp h.1) (by omega), ?_⟩
      by_cases hm : maxBlocks * cost < 2 ^ 64
      · rw [mul_of_lt hm, okOr_some, ok_bind]
        by_cases ha : fixedTotal + maxBlocks * cost < 2 ^ 64
        · have hle : poolBytes ≤ fixedTotal + maxBlocks * cost := by
            omega
          rw [add_of_lt ha, okOr_some, ok_bind]
          simp only [subOrPanic, if_pos hle, ok_bind]
          exact ⟨_, rfl⟩
        · rw [add, if_neg ha, okOr_none, error_bind]
          exact ⟨_, rfl⟩
      · rw [mul, if_neg hm, okOr_none, error_bind]
        exact ⟨_, rfl⟩
    · rw [if_neg hlt, mul_of_lt (by omega), okOr_some, ok_bind]
      exact Or.inl ⟨hroom.mpr (by omega), hreach, rfl⟩
  · refine Or.inr ⟨fun h => hreach h.2, ?_⟩
    by_cases h32 : (poolBytes - fixedTotal) / cost < 2 ^ 32
    · rw [narrow_of_lt h32, okOr_some, ok_bind, ensure_of_not hreach, error_bind]
      exact ⟨_, rfl⟩
    · rw [narrow, if_neg h32, okOr_none, error_bind]
      exact ⟨_, rfl⟩

theorem splitPaged_fits {config : StateConfig} {groups : List LayerGroup} {poolBytes : ℕ}
    (hv : ValidGroups groups) (hfix : fixedTotal config.maxSeqs groups ≤ poolBytes)
    (hpool : poolBytes < 2 ^ 64) :
    (Fits config groups poolBytes ∧
      StateManager.splitPaged (groups.filter (·.spec.isPaged)) config.maxBlocks poolBytes
        (fixedTotal config.maxSeqs groups) (poolBytes - fixedTotal config.maxSeqs groups)
        (blockCost groups) = .ok (blocksFor config groups poolBytes,
          blocksFor config groups poolBytes * blockCost groups)) ∨
    (¬Fits config groups poolBytes ∧ ∃ e,
      StateManager.splitPaged (groups.filter (·.spec.isPaged)) config.maxBlocks poolBytes
        (fixedTotal config.maxSeqs groups) (poolBytes - fixedTotal config.maxSeqs groups)
        (blockCost groups) = .error (.err e)) := by
  by_cases hne : groups.filter (·.spec.isPaged) = []
  · have hzero : blockCost groups = 0 := by simp [blockCost, hne]
    refine Or.inl ⟨⟨by rw [hzero]; omega, Or.inl hne⟩, ?_⟩
    simp [StateManager.splitPaged, blocksFor, hne, pure, Except.pure]
  · rw [blocksFor, if_neg hne]
    rcases splitPaged_cases hne (blockCost_pos hv hne) hfix hpool with ⟨h₁, h₂, h⟩ | ⟨hno, h⟩
    · exact Or.inl ⟨⟨h₁, Or.inr h₂⟩, h⟩
    · exact Or.inr ⟨fun hf => hno ⟨hf.room, hf.reach.resolve_left hne⟩, h⟩

/-- **The construction returns `initial` when the arena fits, and an error
otherwise**: no subtraction of it goes below zero. -/
theorem newFromValidatedGroups_cases {config : StateConfig} {groups : List LayerGroup}
    {poolBytes : ℕ} (hc : config.Valid) (hv : ValidGroups groups) (hpool : poolBytes < 2 ^ 64) :
    (Fits config groups poolBytes ∧
      StateManager.newFromValidatedGroups config groups poolBytes =
        .ok (initial config groups poolBytes)) ∨
    (¬Fits config groups poolBytes ∧
      ∃ e, StateManager.newFromValidatedGroups config groups poolBytes = .error (.err e)) := by
  have hblocks : 1 ≤ config.maxBlocks := by
    have := hc.maxCtx_pos
    have := hc.maxBlocks_mul
    omega
  have hcostle : blockCost groups ≤ config.maxBlocks * blockCost groups :=
    Nat.le_mul_of_pos_left _ hblocks
  unfold StateManager.newFromValidatedGroups
  -- the bytes of the slots
  by_cases hfix : fixedTotal config.maxSeqs groups ≤ poolBytes
  swap
  · refine Or.inr ⟨fun h => hfix (by have := h.room; omega), ?_⟩
    cases hsum : StateManager.sumFixed config.maxSeqs groups with
    | error e => exact ⟨e, rfl⟩
    | ok t =>
      obtain ⟨-, rfl⟩ := (sumFixed_eq_ok hv).mp hsum
      simp only [lift_ok, ok_bind, ensure_of_not hfix, error_bind]
      exact ⟨_, rfl⟩
  have hsum := (sumFixed_eq_ok hv).mpr ⟨show fixedTotal config.maxSeqs groups < 2 ^ 64 by omega, rfl⟩
  simp only [hsum, lift_ok, ok_bind, ensure_of hfix, subOrPanic_of_le hfix]
  -- the bytes of the blocks
  by_cases hcost : blockCost groups < 2 ^ 64
  swap
  · refine Or.inr ⟨fun h => hcost (by have := h.room; omega), ?_⟩
    cases hsum : StateManager.sumBlockCost (groups.filter (·.spec.isPaged)) with
    | error e => exact ⟨e, rfl⟩
    | ok t => exact absurd ((sumBlockCost_eq_ok hv).mp hsum).1 hcost
  simp only [(sumBlockCost_eq_ok hv).mpr ⟨hcost, rfl⟩, lift_ok, ok_bind]
  rcases splitPaged_fits hv hfix hpool with ⟨hfits, hsplit⟩ | ⟨hno, e, hsplit⟩
  swap
  · exact Or.inr ⟨hno, e, by simp only [hsplit, error_bind]⟩
  refine Or.inl ⟨hfits, ?_⟩
  have hmul := blocksFor_mul_le config groups poolBytes
  have hlay := placeGroups_eq_ok (l := ⟨[], [], 0⟩) hv (fun g hg => hg)
    (show 0 + (groups.map (area config.maxSeqs (blocksFor config groups poolBytes))).sum < 2 ^ 64 by
      rw [sum_area]
      omega)
  have hscratch : (groups.filter (·.spec.isPaged)).length * config.maxBlocks < 2 ^ 64 := by
    have h₁ := (length_filter_le (fun g : LayerGroup => g.spec.isPaged) groups).trans
      hv.length_le
    have h₂ : config.maxBlocks ≤ maxCtxHard := (Nat.div_le_self _ _).trans hc.maxCtx_le
    exact (Nat.mul_le_mul h₁ h₂).trans_lt (by decide)
  simp only [hsplit, ok_bind, subOrPanic_of_le hmul, hlay, lift_ok, mul_of_lt hscratch, okOr_some]
  rfl

/-! ### Regions -/

/-- A block of a paged pool, or a buffer of a fixed pool. -/
inductive Region
  | block (group id : ℕ)
  | buffer (group k : ℕ)
  deriving DecidableEq

namespace Region

/-- The blocks and buffers that the manager has. -/
def InArena (m : StateManager) : Region → Prop
  | .block group id => ∃ p, m.pools[group]? = some (some p) ∧ id < p.total
  | .buffer group k => (∃ p, m.fixed[group]? = some (some p)) ∧ k < 2 * m.config.maxSeqs

/-- The region takes the `n` bytes from offset `o` on, by the manager's own offset
arithmetic. -/
def Spans (m : StateManager) (o n : ℕ) : Region → Prop
  | .block group id => ∃ p, m.pools[group]? = some (some p) ∧ id < p.total ∧
      blockOffset p.baseOffset id p.blockBytes = .ok o ∧ n = p.blockBytes
  | .buffer group k => ∃ p, m.fixed[group]? = some (some p) ∧
      m.fixedBufferOffset group k = .ok o ∧ n = p.bufferBytes

def group : Region → ℕ
  | .block group _ => group
  | .buffer group _ => group

def cell : Region → ℕ
  | .block _ id => id
  | .buffer _ k => k

def isBlock : Region → Bool
  | .block .. => true
  | .buffer .. => false

theorem ext_of {r r' : Region} (hb : r.isBlock = r'.isBlock) (hg : r.group = r'.group)
    (hc : r.cell = r'.cell) : r = r' := by
  cases r <;> cases r' <;> simp_all [isBlock, group, cell]

end Region

/-- **Every region is where the arena has room for it alone**: its offset is
computed without overflow, it ends inside the arena, and no two regions
overlap. -/
structure ArenaLaidOut (m : StateManager) (poolBytes : ℕ) : Prop where
  computed : ∀ r : Region, r.InArena m → ∃ o n, r.Spans m o n
  inside : ∀ (r : Region) (o n : ℕ), r.Spans m o n → o + n ≤ poolBytes
  disjoint : ∀ (r r' : Region) (o n o' n' : ℕ), r ≠ r' → r.Spans m o n → r'.Spans m o' n' →
    o + n ≤ o' ∨ o' + n' ≤ o

/-- The bytes of one block, or of one buffer. -/
def cellSize (g : LayerGroup) : ℕ := if g.spec.isPaged then g.blockSize else g.slotSize / 2

section Initial

variable {config : StateConfig} {groups : List LayerGroup} {poolBytes : ℕ}

/-- The sizes of the areas of the arena. -/
abbrev areas (config : StateConfig) (groups : List LayerGroup) (poolBytes : ℕ) : List ℕ :=
  groups.map (area config.maxSeqs (blocksFor config groups poolBytes))

theorem initial_pool {i : ℕ} {p : BlockPool} :
    (initial config groups poolBytes).pools[i]? = some (some p) ↔
      ∃ g, groups[i]? = some g ∧ g.spec.isPaged = true ∧
        p = ⟨blocksFor config groups poolBytes,
          (List.range (blocksFor config groups poolBytes)).reverse,
          start (areas config groups poolBytes) i, g.blockSize⟩ := by
  simp only [initial, (layoutFrom_getElem? groups 0 i).1, Option.map_eq_some_iff, poolAt,
    Nat.zero_add]
  refine exists_congr fun g => and_congr_right fun _ => ?_
  split <;> rename_i hp
  · simp only [hp, true_and, Option.some.injEq]
    exact eq_comm
  · simp [hp]

theorem initial_fixed {i : ℕ} {p : FixedPool} :
    (initial config groups poolBytes).fixed[i]? = some (some p) ↔
      ∃ g, groups[i]? = some g ∧ g.spec.isPaged = false ∧
        p = ⟨config.maxSeqs, List.range config.maxSeqs, g.slotSize, g.slotSize / 2,
          start (areas config groups poolBytes) i⟩ := by
  simp only [initial, (layoutFrom_getElem? groups 0 i).2, Option.map_eq_some_iff, fixedAt,
    Nat.zero_add]
  refine exists_congr fun g => and_congr_right fun _ => ?_
  split <;> rename_i hp
  · simp [hp]
  · simp only [hp, true_and, Option.some.injEq]
    exact eq_comm

theorem buffer_le_area {blocks k : ℕ} {g : LayerGroup} (hpaged : g.spec.isPaged = false)
    (hk : k < config.maxSeqs * 2) :
    (k + 1) * (g.slotSize / 2) ≤ area config.maxSeqs blocks g := by
  simp only [area, hpaged, Bool.false_eq_true, if_false]
  calc (k + 1) * (g.slotSize / 2) ≤ config.maxSeqs * 2 * (g.slotSize / 2) :=
        Nat.mul_le_mul_right _ hk
    _ ≤ g.slotSize * config.maxSeqs := by
      rw [Nat.mul_assoc, Nat.mul_comm g.slotSize]
      exact Nat.mul_le_mul_left _ (Nat.mul_div_le _ _)

theorem Region.spans_initial {r : Region} {o n : ℕ}
    (h : r.Spans (initial config groups poolBytes) o n) :
    ∃ g, groups[r.group]? = some g ∧ g.spec.isPaged = r.isBlock ∧
      (r.cell + 1) * cellSize g ≤
        area config.maxSeqs (blocksFor config groups poolBytes) g ∧
      o = start (areas config groups poolBytes) r.group + r.cell * cellSize g ∧
      n = cellSize g := by
  cases r with
  | block group id =>
    obtain ⟨p, hp, hid, ho, rfl⟩ := h
    obtain ⟨g, hg, hpaged, rfl⟩ := initial_pool.mp hp
    simp only [blockOffset, okOr_eq_ok, Option.bind_eq_some_iff, mul_eq_some, add_eq_some] at ho
    obtain ⟨_, ⟨-, rfl⟩, -, rfl⟩ := ho
    refine ⟨g, hg, hpaged, ?_, ?_, ?_⟩
    · simp only [cellSize, area, hpaged, if_true]
      exact Nat.mul_le_mul_right _ hid
    · simp only [cellSize, hpaged, if_true]
      exact Nat.add_comm _ _
    · simp only [cellSize, hpaged, if_true]
  | buffer group k =>
    obtain ⟨p, hp, ho, rfl⟩ := h
    obtain ⟨g, hg, hpaged, rfl⟩ := initial_fixed.mp hp
    simp only [StateManager.fixedBufferOffset, hp, Option.join_some, okOr_some, ok_bind,
      bind_eq_ok, okOr_eq_ok, ensure_eq_ok, FixedPool.bufferOffset, Option.bind_eq_some_iff,
      mul_eq_some, add_eq_some] at ho
    obtain ⟨_, ⟨-, rfl⟩, -, hk, _, ⟨-, rfl⟩, -, rfl⟩ := ho
    refine ⟨g, hg, hpaged, ?_, ?_, ?_⟩
    · simp only [cellSize, hpaged, Bool.false_eq_true, if_false]
      exact buffer_le_area hpaged hk
    · simp only [cellSize, hpaged, Bool.false_eq_true, if_false]
      exact Nat.add_comm _ _
    · simp only [cellSize, hpaged, Bool.false_eq_true, if_false]

theorem arenaLaidOut_initial (hc : config.Valid) (hpool : poolBytes < 2 ^ 64)
    (hf : Fits config groups poolBytes) :
    ArenaLaidOut (initial config groups poolBytes) poolBytes := by
  have hsum : (areas config groups poolBytes).sum ≤ poolBytes := by
    have h₁ := blocksFor_mul_le config groups poolBytes
    have h₂ := hf.room
    rw [areas, sum_area]
    omega
  have harea : ∀ {i : ℕ} {g : LayerGroup}, groups[i]? = some g →
      (areas config groups poolBytes)[i]? =
        some (area config.maxSeqs (blocksFor config groups poolBytes) g) := fun hg => by
    rw [getElem?_map, hg, Option.map_some]
  refine ⟨fun r hr => ?_, fun r o n h => ?_, fun r r' o n o' n' hne h h' => ?_⟩
  · cases r with
    | block group id =>
      obtain ⟨p, hp, hid⟩ := hr
      obtain ⟨g, hg, hpaged, rfl⟩ := initial_pool.mp hp
      have hcell : (id + 1) * g.blockSize ≤
          area config.maxSeqs (blocksFor config groups poolBytes) g := by
        simp only [area, hpaged, if_true]
        exact Nat.mul_le_mul_right _ hid
      have hle := (cell_le_sum (harea hg) hcell).trans hsum
      refine ⟨id * g.blockSize + start (areas config groups poolBytes) group, _, _, hp, hid, ?_, rfl⟩
      simp only [blockOffset, okOr_eq_ok, Option.bind_eq_some_iff, mul_eq_some, add_eq_some]
      exact ⟨_, ⟨by omega, rfl⟩, by omega, rfl⟩
    | buffer group k =>
      obtain ⟨⟨p, hp⟩, hk⟩ := hr
      obtain ⟨g, hg, hpaged, rfl⟩ := initial_fixed.mp hp
      have hseqs := hc.maxSeqs_le
      have hk' : k < config.maxSeqs * 2 := by
        simp only [initial] at hk
        omega
      have hle := (cell_le_sum (harea hg) (buffer_le_area hpaged hk')).trans hsum
      refine ⟨k * (g.slotSize / 2) + start (areas config groups poolBytes) group, _, _, hp, ?_,
        rfl⟩
      simp only [StateManager.fixedBufferOffset, hp, Option.join_some, okOr_some, ok_bind,
        bind_eq_ok, okOr_eq_ok, ensure_eq_ok, FixedPool.bufferOffset, Option.bind_eq_some_iff,
        mul_eq_some, add_eq_some]
      simp only [maxSeqsHard] at hseqs
      exact ⟨_, ⟨by omega, rfl⟩, (), hk', _, ⟨by omega, rfl⟩, by omega, rfl⟩
  · obtain ⟨g, hg, -, hcell, rfl, rfl⟩ := Region.spans_initial h
    exact (cell_le_sum (harea hg) hcell).trans hsum
  · obtain ⟨g, hg, hb, hcell, rfl, rfl⟩ := Region.spans_initial h
    obtain ⟨g', hg', hb', hcell', rfl, rfl⟩ := Region.spans_initial h'
    refine cell_disjoint (harea hg) (harea hg') hcell hcell' (fun heq => ?_) ?_
    · rw [heq, hg'] at hg
      rw [Option.some.inj hg]
    · by_contra hcon
      push Not at hcon
      refine hne (Region.ext_of ?_ hcon.1 hcon.2)
      rw [hcon.1, hg'] at hg
      rw [← hb, ← hb', Option.some.inj hg]

end Initial

/-! ### The sizing theorem -/

/-- Groups as one of the two groupings returns them. -/
def Grouped (groups : List LayerGroup) : Prop :=
  (∃ specs, groupLayers specs = .ok groups) ∨ ∃ decls, groupLayerSpecs decls = .ok groups

theorem Grouped.valid {groups : List LayerGroup} (h : Grouped groups) : ValidGroups groups := by
  rcases h with ⟨specs, h⟩ | ⟨decls, h⟩
  · exact groupLayers_valid h
  · exact groupLayerSpecs_valid h

theorem maxBlocks_le_blocksFor {config : StateConfig} {groups : List LayerGroup} {poolBytes i : ℕ}
    {g : LayerGroup} (hv : ValidGroups groups) (hf : Fits config groups poolBytes)
    (hg : groups[i]? = some g) (hp : g.spec.isPaged = true) :
    config.maxBlocks ≤ blocksFor config groups poolBytes := by
  have hne : groups.filter (·.spec.isPaged) ≠ [] := fun hnil => by
    have hmem : g ∈ groups.filter (·.spec.isPaged) :=
      mem_filter.mpr ⟨mem_of_getElem? hg, hp⟩
    simp [hnil] at hmem
  have hroom := hf.room
  rw [blocksFor, if_neg hne, Nat.le_div_iff_mul_le (blockCost_pos hv hne)]
  omega

/-- **Sizing and layout.** The construction succeeds exactly when the arena has
the required bytes and the blocks stay within the device's reach, and otherwise
returns an error: it never panics. When it succeeds, all paged pools have the
same number of blocks, enough for one full context; the bytes of the arena are
all accounted for; and the blocks and buffers are laid out without overlap. -/
theorem newFromValidatedGroups_sizing {config : StateConfig} {groups : List LayerGroup}
    {poolBytes : ℕ} (hc : config.validate = .ok ()) (hg : Grouped groups)
    (hpool : poolBytes < 2 ^ 64) :
    ((∃ m, StateManager.newFromValidatedGroups config groups poolBytes = .ok m) ↔
      ∃ r, requiredPoolBytes config groups = .ok r ∧ r ≤ poolBytes ∧
        ((∀ g ∈ groups, g.spec.isPaged = false) ∨
          (poolBytes - fixedTotal config.maxSeqs groups) / blockCost groups ≤ maxSlotBlocks)) ∧
    StateManager.newFromValidatedGroups config groups poolBytes ≠ .error .panic ∧
    ∀ m, StateManager.newFromValidatedGroups config groups poolBytes = .ok m →
      (∃ blocks, ∀ (i : ℕ) (p : BlockPool), m.pools[i]? = some (some p) →
        p.total = blocks ∧ config.maxCtx / 32 ≤ p.total) ∧
      m.poolBytesTotal + m.fixedBytesTotal + m.unusableBytes = poolBytes ∧
      ArenaLaidOut m poolBytes := by
  have hvalid := StateConfig.validate_eq_ok.mp hc
  have hv := hg.valid
  have hfits : Fits config groups poolBytes ↔
      ∃ r, requiredPoolBytes config groups = .ok r ∧ r ≤ poolBytes ∧
        ((∀ g ∈ groups, g.spec.isPaged = false) ∨
          (poolBytes - fixedTotal config.maxSeqs groups) / blockCost groups ≤ maxSlotBlocks) := by
    have hnil : groups.filter (·.spec.isPaged) = [] ↔ ∀ g ∈ groups, g.spec.isPaged = false := by
      simp [filter_eq_nil_iff]
    constructor
    · rintro ⟨hroom, hreach⟩
      exact ⟨_, (requiredPoolBytes_eq_ok hv).mpr ⟨by omega, rfl⟩, hroom, hreach.imp_left hnil.mp⟩
    · rintro ⟨r, hr, hle, hreach⟩
      obtain ⟨-, rfl⟩ := (requiredPoolBytes_eq_ok hv).mp hr
      exact ⟨hle, hreach.imp_left hnil.mpr⟩
  rw [← hfits]
  rcases newFromValidatedGroups_cases hvalid hv hpool with ⟨hf, h⟩ | ⟨hf, e, h⟩
  · refine ⟨⟨fun _ => hf, fun _ => ⟨_, h⟩⟩, by simp [h], fun m hm => ?_⟩
    obtain rfl := Except.ok.inj (h.symm.trans hm)
    refine ⟨⟨blocksFor config groups poolBytes, fun i p hp => ?_⟩, ?_,
      arenaLaidOut_initial hvalid hpool hf⟩
    · obtain ⟨g, hgi, hpaged, rfl⟩ := initial_pool.mp hp
      exact ⟨rfl, maxBlocks_le_blocksFor hv hf hgi hpaged⟩
    · have h₁ := blocksFor_mul_le config groups poolBytes
      have h₂ := hf.room
      simp only [initial]
      omega
  · refine ⟨⟨fun ⟨m, hm⟩ => ?_, fun hf' => absurd hf' hf⟩, by simp [h], fun m hm => ?_⟩
    · simp [h] at hm
    · simp [h] at hm

/-- The sizing theorem at a model of one paged and one recurrent layer, over an
arena that has room for two blocks and a few bytes more. -/
theorem newFromValidatedGroups_sizing_hybrid :
    ∃ groups, Grouped groups ∧
      ∃ m, StateManager.newFromValidatedGroups ⟨32, 2⟩ groups 300 = .ok m ∧
        m.poolBytesTotal + m.fixedBytesTotal + m.unusableBytes = 300 ∧ ArenaLaidOut m 300 := by
  have hg : groupLayers [.kvPaged 1 1 1 .f16 .all, .recurrent 1 1 1] = .ok
      [⟨0, .kvPaged 1 1 1 .f16 .all, [0]⟩, ⟨1, .recurrent 1 1 1, [1]⟩] := rfl
  have hgr : Grouped _ := Or.inl ⟨_, hg⟩
  have hs := @newFromValidatedGroups_sizing ⟨32, 2⟩ _ 300 rfl hgr (by decide)
  obtain ⟨m, hm⟩ := hs.1.mpr ⟨144, rfl, by decide, Or.inr (by decide)⟩
  exact ⟨_, hgr, m, hm, (hs.2.2 m hm).2⟩

end R9v

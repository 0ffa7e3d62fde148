import R9v.State.Calls
import R9v.State.Sizing
import R9v.Lib.Ownership

/-!
# The invariant of the manager

What holds of the manager between any two calls. It has three parts.

* *Ownership* (`BlocksOwned`, `SlotsOwned`): in every group, the free ids and the
  ids that the live sequences hold are an exact partition of the ids of the pool.
* *Retention* (`SeqInv.retained`): the block indices that a sequence holds in a
  paged group are the indices below the highest position it ever reserved, less
  the ones that its window has left behind (`Retain.Evicted`).
* *Shape* (`Shape`, and the other fields of `SeqInv`): the vectors of the manager
  have one entry per group, and the tables of a sequence are sorted and aligned.

The highest position that a sequence ever reserved is history, and the manager
does not store it; the invariant takes it as a parameter, a function `H` of the
sequence.
-/

namespace R9v

open Checked Ownership List

/-! ### Views of the tables -/

namespace SeqState

/-- The blocks that the sequence holds in a group. -/
def table (s : SeqState) (gi : ℕ) : List ℕ := s.tables[gi]?.getD []

/-- The block indices that the sequence holds in a group. -/
def held (s : SeqState) (gi : ℕ) : List ℕ := s.indices[gi]?.getD []

/-- The slot that the sequence holds in a group, if any. -/
def slot (s : SeqState) (gi : ℕ) : Option ℕ := s.fixedSlots[gi]?.join

end SeqState

/-- The blocks of a group by their holders. -/
def heldBlocks (seqs : Std.ExtTreeMap ℕ SeqState) (gi : ℕ) (k : SeqId) : List ℕ :=
  (seqs[k]?.map (·.table gi)).getD []

/-- The slots of a group by their holders. -/
def heldSlots (seqs : Std.ExtTreeMap ℕ SeqState) (gi : ℕ) (k : SeqId) : List ℕ :=
  (seqs[k]?.bind (·.slot gi)).toList

section Held

variable {seqs : Std.ExtTreeMap ℕ SeqState} {gi : ℕ} {k : SeqId} {s : SeqState}

theorem heldBlocks_of_some (h : seqs[k]? = some s) : heldBlocks seqs gi k = s.table gi := by
  simp [heldBlocks, h]

theorem heldSlots_of_some (h : seqs[k]? = some s) :
    heldSlots seqs gi k = (s.slot gi).toList := by
  simp [heldSlots, h]

theorem heldBlocks_insert :
    heldBlocks (seqs.insert k s) gi = Function.update (heldBlocks seqs gi) k (s.table gi) := by
  funext k'
  rcases eq_or_ne k' k with rfl | hne
  · simp [heldBlocks]
  · simp [heldBlocks, Function.update_of_ne hne, Std.ExtTreeMap.getElem?_insert, hne.symm]

theorem heldBlocks_erase :
    heldBlocks (seqs.erase k) gi = Function.update (heldBlocks seqs gi) k [] := by
  funext k'
  rcases eq_or_ne k' k with rfl | hne
  · simp [heldBlocks]
  · simp [heldBlocks, Function.update_of_ne hne, Std.ExtTreeMap.getElem?_erase, hne.symm]

theorem heldSlots_insert :
    heldSlots (seqs.insert k s) gi =
      Function.update (heldSlots seqs gi) k (s.slot gi).toList := by
  funext k'
  rcases eq_or_ne k' k with rfl | hne
  · simp [heldSlots]
  · simp [heldSlots, Function.update_of_ne hne, Std.ExtTreeMap.getElem?_insert, hne.symm]

theorem heldSlots_erase :
    heldSlots (seqs.erase k) gi = Function.update (heldSlots seqs gi) k [] := by
  funext k'
  rcases eq_or_ne k' k with rfl | hne
  · simp [heldSlots]
  · simp [heldSlots, Function.update_of_ne hne, Std.ExtTreeMap.getElem?_erase, hne.symm]

end Held

/-! ### Ownership -/

/-- **Ownership of a block pool**: the free list is strictly descending, and every
block of the pool is free or in the table of exactly one sequence. -/
structure BlocksOwned (p : BlockPool) (held : SeqId → List ℕ) : Prop where
  descending : p.free.Pairwise (· > ·)
  owned : Owned (· < p.total) p.free held

/-- **Ownership of a slot pool**: every slot is free or held by exactly one
sequence. -/
structure SlotsOwned (f : FixedPool) (held : SeqId → List ℕ) : Prop where
  ascending : f.free.Pairwise (· < ·)
  owned : Owned (· < f.totalSlots) f.free held

/-! ### Retention -/

/-- The block indices that the retention policy has given up once `ctx` tokens are
verified. -/
def Retain.Evicted (r : Retain) (ctx i : ℕ) : Prop :=
  match r with
  | .all => False
  | .window w => i < (ctx - w) / 32
  | .sinkWindow n w => (n + 31) / 32 ≤ i ∧ i < (ctx - w) / 32

section Evicted

variable {g : LayerGroup} {r : Retain} {ctx ctx' i : ℕ}

theorem windowStartOf_eq (ctx w : ℕ) : StateManager.windowStartOf ctx w = ctx - w := by
  unfold StateManager.windowStartOf
  split <;> omega

/-- **The range that a commit releases is what the policy gives up.** -/
theorem mem_evictRange (h : g.spec.retain = some r) :
    (StateManager.evictRange ctx g).1 ≤ i ∧ i < (StateManager.evictRange ctx g).2 ↔
      r.Evicted ctx i := by
  unfold StateManager.evictRange
  rw [h]
  cases r with
  | all => simp [Retain.Evicted]
  | window w =>
    simp only [windowStartOf_eq, Retain.Evicted, blockTokens]
    split <;> simp
    omega
  | sinkWindow n w =>
    simp only [windowStartOf_eq, Retain.Evicted, blockTokens, StateManager.divCeil]
    split <;> simp
    omega

theorem Retain.Evicted.mono (h : r.Evicted ctx i) (hle : ctx ≤ ctx') : r.Evicted ctx' i := by
  cases r with
  | all => exact h
  | window w =>
    simp only [Retain.Evicted] at h ⊢
    omega
  | sinkWindow n w =>
    simp only [Retain.Evicted] at h ⊢
    omega

theorem Retain.Evicted.lt (h : r.Evicted ctx i) : i < ctx / 32 := by
  cases r with
  | all => exact h.elim
  | window w =>
    simp only [Retain.Evicted] at h
    omega
  | sinkWindow n w =>
    simp only [Retain.Evicted] at h
    omega

end Evicted

/-! ### The invariant -/

/-- One entry per group, of the right kind. -/
structure Shape (m : StateManager) : Prop where
  groups : ValidGroups m.groups
  config : m.config.Valid
  maxBlocks_eq : m.maxBlocks = m.config.maxBlocks
  pools_length : m.pools.length = m.groups.length
  fixed_length : m.fixed.length = m.groups.length
  paged : ∀ (gi : ℕ) (g : LayerGroup), m.groups[gi]? = some g → g.spec.isPaged = true →
    m.fixed[gi]? = some none ∧ ∃ p, m.pools[gi]? = some (some p) ∧ p.total ≤ maxSlotBlocks
  unpaged : ∀ (gi : ℕ) (g : LayerGroup), m.groups[gi]? = some g → g.spec.isPaged = false →
    m.pools[gi]? = some none ∧ ∃ f, m.fixed[gi]? = some (some f) ∧
      f.totalSlots = m.config.maxSeqs

theorem Shape.exists_paged {m : StateManager} (h : Shape m) {gi : ℕ} {p : BlockPool}
    (hp : m.pools[gi]? = some (some p)) :
    ∃ g, m.groups[gi]? = some g ∧ g.spec.isPaged = true := by
  have hlt : gi < m.groups.length := by
    rw [← h.pools_length]
    exact (List.getElem?_eq_some_iff.mp hp).1
  refine ⟨m.groups[gi], getElem?_eq_getElem hlt, ?_⟩
  by_contra hno
  obtain ⟨hnone, -⟩ := h.unpaged gi _ (getElem?_eq_getElem hlt) (by simpa using hno)
  simp [hp] at hnone

/-- What holds of a live sequence whose highest reserved position is `H`. -/
structure SeqInv (groups : List LayerGroup) (maxCtx H : ℕ) (s : SeqState) : Prop where
  tables_length : s.tables.length = groups.length
  indices_length : s.indices.length = groups.length
  slots_length : s.fixedSlots.length = groups.length
  parity_length : s.parity.length = groups.length
  unpaged : ∀ (gi : ℕ) (g : LayerGroup), groups[gi]? = some g → g.spec.isPaged = false →
    s.table gi = [] ∧ s.held gi = [] ∧ ∃ id, s.slot gi = some id
  paged : ∀ (gi : ℕ) (g : LayerGroup), groups[gi]? = some g → g.spec.isPaged = true →
    s.slot gi = none
  aligned : ∀ gi, (s.held gi).length = (s.table gi).length
  ascending : ∀ gi, (s.held gi).Pairwise (· < ·)
  tail_le : s.ctxLen + s.tailLen ≤ H
  high_le : H ≤ maxCtx
  retained : ∀ (gi : ℕ) (g : LayerGroup) (r : Retain), groups[gi]? = some g →
    g.spec.retain = some r → ∀ i, i ∈ s.held gi ↔ 32 * i < H ∧ ¬r.Evicted s.ctxLen i

/-- **The invariant of the manager**, for the highest reserved positions `H`. -/
structure Inv (H : SeqId → ℕ) (m : StateManager) : Prop where
  shape : Shape m
  seqs : ∀ (k : SeqId) (s : SeqState), m.seqs[k]? = some s →
    SeqInv m.groups m.config.maxCtx (H k) s
  blocks : ∀ (gi : ℕ) (p : BlockPool), m.pools[gi]? = some (some p) →
    BlocksOwned p (heldBlocks m.seqs gi)
  slots : ∀ (gi : ℕ) (f : FixedPool), m.fixed[gi]? = some (some f) →
    SlotsOwned f (heldSlots m.seqs gi)
  live : m.liveCount = m.seqs.size
  live_le : m.liveCount ≤ m.config.maxSeqs
  ids_lt : ∀ k s, m.seqs[k]? = some s → k < m.nextSeq
  ids_le : m.nextSeq ≤ 2 ^ 32
  unborn : ∀ k, m.nextSeq ≤ k → H k = 0

/-! ### The fresh manager -/

section Initial

variable {config : StateConfig} {groups : List LayerGroup} {poolBytes : ℕ}

theorem layoutFrom_length (maxSeqs blocks base : ℕ) (groups : List LayerGroup) :
    (layoutFrom maxSeqs blocks base groups).pools.length = groups.length ∧
      (layoutFrom maxSeqs blocks base groups).fixed.length = groups.length := by
  induction groups generalizing base with
  | nil => simp [layoutFrom]
  | cons g groups ih =>
    obtain ⟨h₁, h₂⟩ := ih (base + area maxSeqs blocks g)
    simp [layoutFrom, h₁, h₂]

theorem shape_initial (hc : config.Valid) (hv : ValidGroups groups)
    (hf : Fits config groups poolBytes) : Shape (initial config groups poolBytes) where
  groups := hv
  config := hc
  maxBlocks_eq := rfl
  pools_length := (layoutFrom_length ..).1
  fixed_length := (layoutFrom_length ..).2
  paged := by
    intro gi g hg hp
    refine ⟨?_, _, initial_pool.mpr ⟨g, hg, hp, rfl⟩, ?_⟩
    · simp only [initial] at hg
      simp [initial, (layoutFrom_getElem? groups 0 gi).2, hg, fixedAt, hp]
    · have hne : groups.filter (·.spec.isPaged) ≠ [] := fun hnil => by
        have hmem : g ∈ groups.filter (·.spec.isPaged) :=
          mem_filter.mpr ⟨mem_of_getElem? hg, hp⟩
        simp [hnil] at hmem
      simp only [blocksFor, if_neg hne]
      exact hf.reach.resolve_left hne
  unpaged := by
    intro gi g hg hp
    refine ⟨?_, _, initial_fixed.mpr ⟨g, hg, hp, rfl⟩, rfl⟩
    simp only [initial] at hg
    simp [initial, (layoutFrom_getElem? groups 0 gi).1, hg, poolAt, hp]

theorem pairwise_gt_reverse_range (n : ℕ) : (List.range n).reverse.Pairwise (· > ·) := by
  rw [pairwise_reverse]
  exact pairwise_lt_range

/-- **The fresh manager satisfies the invariant**, with no position reserved. -/
theorem inv_initial (hc : config.Valid) (hv : ValidGroups groups)
    (hf : Fits config groups poolBytes) :
    Inv (fun _ => 0) (initial config groups poolBytes) where
  shape := shape_initial hc hv hf
  seqs := by simp [initial]
  blocks := by
    intro gi p hp
    obtain ⟨g, -, -, rfl⟩ := initial_pool.mp hp
    refine ⟨pairwise_gt_reverse_range _, Owned.of_all_free ?_ (by simp) ?_⟩
    · exact nodup_reverse.mpr nodup_range
    · simp [heldBlocks, initial]
  slots := by
    intro gi f hf
    obtain ⟨g, -, -, rfl⟩ := initial_fixed.mp hf
    refine ⟨pairwise_lt_range, Owned.of_all_free nodup_range (by simp) ?_⟩
    simp [heldSlots, initial]
  live := by simp [initial]
  live_le := Nat.zero_le _
  ids_lt := by simp [initial]
  ids_le := by simp [initial]
  unborn := fun _ _ => rfl

end Initial

/-- **Every manager that a constructor returns satisfies the invariant.** -/
theorem StateManager.Built.inv {m : StateManager} (h : m.Built) : Inv (fun _ => 0) m := by
  obtain ⟨config, groups, poolBytes, hc, hv, hpool, h⟩ := h.exists_groups
  rcases newFromValidatedGroups_cases hc hv hpool with ⟨hf, h'⟩ | ⟨-, e, h'⟩
  · obtain rfl := Except.ok.inj (h'.symm.trans h)
    exact inv_initial hc hv hf
  · simp [h'] at h

end R9v

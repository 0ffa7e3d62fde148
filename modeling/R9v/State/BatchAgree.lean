import R9v.State.BatchPlan

/-!
# The hot and the cold metadata

When each of the three ways to describe a step succeeds, and what it returns then.
The fills succeed on every admissible batch (`Admissible`). The owned builder also
wants at least one layer group: for a model that keeps no state it refuses what the
fills accept, and this is the only difference.
-/

namespace R9v

open Checked StateManager List

/-! ### The builder -/

section Build

theorem builderCrossings_eq {parents : List ℤ} {queryLens : List ℕ} {seq start : ℕ}
    (h : start + queryLens.sum ≤ parents.length) :
    builderCrossings parents seq start queryLens = .ok (fillCrossings parents seq start queryLens) := by
  induction queryLens generalizing seq start with
  | nil => rfl
  | cons q queryLens ih =>
    rw [sum_cons] at h
    have hrow : ((List.range' start q).mapM fun token => do
        let parent ← orPanic parents[token]?
        pure (crossing token parent seq start (start + q)) : Except (Fault IrError) _) =
        .ok ((List.range' start q).map fun token =>
          crossing token (parents.getD token 0) seq start (start + q)) := by
      refine mapM_ok fun token htoken => ?_
      have hlt : token < parents.length := by
        have := mem_range'_1.mp htoken
        omega
      rw [getElem?_eq_getElem hlt, getD_eq_getElem?_getD, getElem?_eq_getElem hlt]
      rfl
    have hslice : (parents.zipIdx.drop start).take q =
        (List.range' start q).map fun token => (parents.getD token 0, token) := by
      refine ext_getElem (by simp; omega) fun i h₁ h₂ => ?_
      have hi : start + i < parents.length := by
        simp at h₂
        omega
      simp [getD_eq_getElem?_getD, hi]
    rw [builderCrossings, hrow, ok_bind, ih (by omega), ok_bind, fillCrossings, hslice,
      flatMap_map, flatMap_def]
    rfl

theorem checkedProduct_two {field : String} {a b : ℕ} (ha : a < 2 ^ 64) (h : a * b < 2 ^ 64) :
    checkedProduct field [a, b] = ([], some (a * b)) := by
  simp [checkedProduct, mul_of_lt (show 1 * a < 2 ^ 64 by omega), mul_of_lt h]

theorem checkedProduct_three {field : String} {a b c : ℕ} (ha : a < 2 ^ 64) (hb : a * b < 2 ^ 64)
    (h : a * b * c < 2 ^ 64) : checkedProduct field [a, b, c] = ([], some (a * b * c)) := by
  simp [checkedProduct, mul_of_lt (show 1 * a < 2 ^ 64 by omega), mul_of_lt hb, mul_of_lt h]

theorem checkLen_eq {field : String} {v : List ℕ} {n : ℕ} (h : v.length = n) :
    checkLen field (some v) (some n) = ([], some v) := by
  simp [checkLen, h]

/-- A tree fits a batch: it has the tokens of the batch, and follows the rules. -/
def TreeFits (t : ℕ) (queryLens : List ℕ) (parents : List ℤ) (tMax : ℕ) : Prop :=
  parents.length = t ∧ treeBatchProblems parents tMax queryLens = []

/-- The builder of which every field is set, to what is in `b`. -/
def BatchMeta.toBuilder (b : BatchMeta) : BatchMetaBuilder :=
  ⟨b.g, b.s, b.t, b.maxBlocks, some b.seqIds, some b.queryLen, some b.ctxLen, some b.positions,
    some b.slotMap, some b.blockTable, some b.windowStart, b.tree⟩

/-- The tensors have the shapes that the dimensions declare. -/
structure BatchMeta.Shaped (b : BatchMeta) : Prop where
  s_ne : b.s ≠ 0
  t_ne : b.t ≠ 0
  maxBlocks_ne : b.maxBlocks ≠ 0
  seqIds : b.seqIds.length = b.s
  queryLen : b.queryLen.length = b.s
  ctxLen : b.ctxLen.length = b.s
  slotMap : b.slotMap.length = b.g * b.t
  blockTable : b.blockTable.length = b.g * b.s * b.maxBlocks
  windowStart : b.windowStart.length = b.g * b.s
  positions : b.positions.len = b.t
  queries : ∀ q ∈ b.queryLen, q ≠ 0
  tokens : b.queryLen.sum = b.t
  g_lt : b.g < 2 ^ 64
  slots_lt : b.g * b.t < 2 ^ 64
  windows_lt : b.g * b.s < 2 ^ 64
  blocks_lt : b.g * b.s * b.maxBlocks < 2 ^ 64

variable {b b' : BatchMeta}

/-- The tree of the batch, if there is one, fits it. -/
def BatchMeta.TreeOk (b : BatchMeta) : Prop :=
  ∀ mask, b.tree = some mask → TreeFits b.t b.queryLen mask.parents mask.tMax

theorem BatchMeta.Shaped.treeProblems (h : b.Shaped) :
    ∃ problems, b.toBuilder.treeProblems (some b.queryLen) = .ok problems ∧
      (problems = [] ↔ b.TreeOk) := by
  unfold BatchMetaBuilder.treeProblems BatchMeta.toBuilder BatchMeta.TreeOk
  cases b.tree with
  | none => exact ⟨[], rfl, by simp⟩
  | some mask =>
    simp only [Option.some.injEq, forall_eq']
    by_cases hlen : mask.parents.length = b.t
    · have hcross : builderCrossings mask.parents 0 0 b.queryLen =
          .ok (fillCrossings mask.parents 0 0 b.queryLen) :=
        builderCrossings_eq (by rw [h.tokens, hlen]; omega)
      simp only [hcross, ok_bind, ne_eq, hlen, not_true, if_false, nil_append, pure,
        Except.pure, if_true]
      refine ⟨_, rfl, ?_⟩
      simp only [TreeFits, hlen, true_and, treeBatchProblems, h.tokens, if_true]
    · simp only [ok_bind, ne_eq, hlen, not_false_eq_true, if_true, pure, Except.pure, if_false]
      exact ⟨_, rfl, by simp [TreeFits, hlen]⟩

/-- **When the builder succeeds**, of tensors with the declared shapes: when there is
a group, and the tree fits. -/
theorem BatchMeta.Shaped.build_eq_ok (h : b.Shaped) :
    b.toBuilder.build = .ok b' ↔ b.g ≠ 0 ∧ b.TreeOk ∧ b' = b := by
  obtain ⟨problems, hproblems, hfits⟩ := h.treeProblems
  have hqueries : (b.queryLen.zipIdx.flatMap fun x : ℕ × ℕ =>
      if x.1 = 0 then [IrError.emptyQuery x.2] else []) = [] := by
    rw [flatMap_eq_nil_iff]
    rintro ⟨q, i⟩ hx
    exact if_neg (h.queries q (mem_of_getElem? (mem_zipIdx_iff_getElem?.mp hx)))
  have hzero : (b.g = 0 ∨ b.s = 0 ∨ b.t = 0 ∨ b.maxBlocks = 0) ↔ b.g = 0 := by
    simp [h.s_ne, h.t_ne, h.maxBlocks_ne]
  unfold BatchMetaBuilder.build
  simp only [BatchMeta.toBuilder] at hproblems ⊢
  simp only [checkLen_eq h.seqIds, checkLen_eq h.queryLen, checkLen_eq h.ctxLen,
    checkedProduct_two h.g_lt h.slots_lt, checkedProduct_three h.g_lt h.windows_lt h.blocks_lt,
    checkedProduct_two h.g_lt h.windows_lt, checkLen_eq h.slotMap, checkLen_eq h.blockTable,
    checkLen_eq h.windowStart, h.positions, if_true, hqueries, h.tokens, ne_eq, not_true, if_false,
    hproblems, ok_bind, append_nil, bind_eq_ok, lift_eq_ok, IrError.fromProblems_eq_ok,
    append_eq_nil_iff, hzero, orPanic_eq_ok, Option.some.injEq, exists_eq_left', pure_eq_ok,
    hfits]
  constructor
  · rintro ⟨_, ⟨h₁, h₂⟩, rfl⟩
    refine ⟨fun hg => ?_, h₂, rfl⟩
    simp [hg] at h₁
  · rintro ⟨h₁, h₂, rfl⟩
    exact ⟨(), ⟨if_neg h₁, h₂⟩, rfl⟩

end Build

/-! ### Admissible batches -/

/-- **The batches that can be described**: the plan accepts the sequences, explicit
positions are as many as the tokens, and a tree is valid and fits. -/
structure Admissible (m : StateManager) (seqs : List SeqId) (queryLens : List ℕ)
    (positions : Option Positions) (tree : Option TreeInput) : Prop where
  plan : Plannable m seqs queryLens
  len_eq : ∀ p, positions = some p → p.len = queryLens.sum
  fits : ∀ t, tree = some t → treeProblems t.parents t.tMax t.ancestors.length = [] ∧
    TreeFits queryLens.sum queryLens t.parents t.tMax

/-- **The capacities of the workspace suffice** for the batch. -/
structure Suffices (ws : BatchWorkspace) (m : StateManager) (seqs : List SeqId)
    (queryLens : List ℕ) (positions : Option Positions) (tree : Option TreeInput) : Prop where
  idScratch_le : seqs.length ≤ ws.idScratch.capacity
  seqIds_le : seqs.length ≤ ws.seqIds.capacity
  queryLens_le : seqs.length ≤ ws.queryLens.capacity
  ctxLens_le : seqs.length ≤ ws.ctxLens.capacity
  positions_le : (∀ v, positions ≠ some (.mrope v)) → queryLens.sum ≤ ws.positions.capacity
  mrope_le : ∀ v, positions = some (.mrope v) → queryLens.sum ≤ ws.positionsMrope.capacity
  slotMap_le : m.groups.length * queryLens.sum ≤ ws.slotMap.capacity
  blockTable_le : m.groups.length * seqs.length * m.maxBlocks ≤ ws.blockTable.capacity
  windowStart_le : m.groups.length * seqs.length ≤ ws.windowStart.capacity
  tree_le : ∀ t, tree = some t → t.parents.length ≤ ws.treeParents.capacity ∧
    (t.parents.length * t.tMax < 2 ^ 64 →
      t.parents.length * t.tMax ≤ ws.treeAncestors.capacity) ∧
    t.parents.length ≤ ws.treeCycleState.capacity ∧ t.parents.length ≤ ws.treeCyclePath.capacity

/-- The owned mask of a borrowed tree. -/
def ownedTree (tree : Option TreeInput) : Except IrError (Option TreeMask) :=
  match tree with
  | none => .ok none
  | some t => some <$> TreeMask.new t.parents t.tMax t.ancestors

/-- The slices of an owned mask. -/
def TreeMask.toInput (mask : TreeMask) : TreeInput := ⟨mask.parents, mask.tMax, mask.ancestors⟩

/-- The workspace carries the tensors and the dimensions of the metadata. -/
structure Carries (ws : BatchWorkspace) (b : BatchMeta) : Prop where
  seqIds : ws.seqIds.data = b.seqIds
  queryLens : ws.queryLens.data = b.queryLen
  ctxLens : ws.ctxLens.data = b.ctxLen
  positions : match b.positions with
    | .perToken v => ws.lastPositionWidth = 1 ∧ ws.positions.data = v
    | .mrope v => ws.lastPositionWidth = 3 ∧ ws.positionsMrope.data = v
  slotMap : ws.slotMap.data = b.slotMap
  blockTable : ws.blockTable.data = b.blockTable
  windowStart : ws.windowStart.data = b.windowStart
  dims : ws.lastG = b.g ∧ ws.lastS = b.s ∧ ws.lastT = b.t ∧ ws.lastMaxBlocks = b.maxBlocks

/-- The workspace holds the metadata: its tensors, its dimensions and its tree. -/
def Holds (ws : BatchWorkspace) (b : BatchMeta) : Prop :=
  Carries ws b ∧ ws.treeView = .ok (b.tree.map TreeMask.toInput)

section Agree

variable {H : SeqId → ℕ} {m : StateManager} {seqs : List SeqId} {queryLens : List ℕ}
  {positions : Option Positions} {tree : Option TreeInput} {mask : Option TreeMask}
  {ws : BatchWorkspace}

theorem ownedTree_eq_ok : ownedTree tree = .ok mask ↔ tree = mask.map TreeMask.toInput := by
  cases tree with
  | none => cases mask <;> simp [ownedTree]
  | some t =>
    cases mask with
    | none => 
      simp only [ownedTree, Option.map_none, reduceCtorEq, iff_false]
      cases TreeMask.new t.parents t.tMax t.ancestors <;> simp [Functor.map, Except.map]
    | some k =>
      obtain ⟨p, n, a⟩ := t
      have hnew := @TreeMask.new_eq_ok p n a k
      simp only [ownedTree, Option.map_some, Option.some.injEq, TreeMask.toInput,
        TreeInput.mk.injEq]
      cases hk : TreeMask.new p n a with
      | error e =>
        rw [hk] at hnew
        tauto
      | ok k' =>
        rw [hk] at hnew
        simp only [Functor.map, Except.map, Except.ok.injEq, Option.some.injEq]
        simp only [Except.ok.injEq] at hnew
        tauto

theorem exists_ownedTree :
    (∃ mask, ownedTree tree = .ok mask) ↔
      ∀ t, tree = some t → treeProblems t.parents t.tMax t.ancestors.length = [] := by
  constructor
  · rintro ⟨mask, hmask⟩ t rfl
    rw [ownedTree_eq_ok] at hmask
    cases mask with
    | none => simp at hmask
    | some k =>
      simp only [Option.map_some, Option.some.injEq] at hmask
      subst hmask
      exact k.valid
  · intro hv
    cases tree with
    | none => exact ⟨none, rfl⟩
    | some t =>
      exact ⟨some ⟨t.parents, t.tMax, t.ancestors, hv t rfl⟩, ownedTree_eq_ok.mpr rfl⟩

/-! ### The three calls -/

/-- The flat tensors of a batch, as the emission gives them whether or not it is asked
for the default positions. -/
structure Emits (m : StateManager) (seqs : List SeqId) (queryLens : List ℕ)
    (flat : List ℕ × List ℕ × List ℕ) : Prop where
  slotMap : flat.1.length = m.groups.length * queryLens.sum
  blockTable : flat.2.1.length = m.groups.length * seqs.length * m.maxBlocks
  windowStart : flat.2.2.length = m.groups.length * seqs.length
  emit : ∀ want, m.emitBatchInto seqs queryLens ⟨queryLens.sum, queryLens.sum⟩ want
    (List.replicate (m.groups.length * seqs.length * m.maxBlocks) blockTableSentinel) =
      .ok ⟨seqs, seqs.map (ctxOf m), if want then defaultPositions m seqs queryLens else [],
        flat.1, flat.2.1, flat.2.2⟩

theorem Plannable.exists_emits (h : Inv H m) (hplan : Plannable m seqs queryLens) :
    ∃ flat, Emits m seqs queryLens flat := by
  obtain ⟨slotMap, blockTable, windowStart, h₁, h₂, h₃, hemit⟩ :=
    emitBatchInto_ok h hplan length_replicate
  exact ⟨(slotMap, blockTable, windowStart), h₁, h₂, h₃, hemit⟩

/-- The metadata of a batch with the given flat tensors. -/
def described (m : StateManager) (seqs : List SeqId) (queryLens : List ℕ)
    (positions : Option Positions) (mask : Option TreeMask) (flat : List ℕ × List ℕ × List ℕ) :
    BatchMeta where
  g := m.groups.length
  s := seqs.length
  t := queryLens.sum
  maxBlocks := m.maxBlocks
  seqIds := seqs
  queryLen := queryLens
  ctxLen := seqs.map (ctxOf m)
  positions := positions.getD (.perToken (defaultPositions m seqs queryLens))
  slotMap := flat.1
  blockTable := flat.2.1
  windowStart := flat.2.2
  tree := mask

theorem defaultPositions_length (hplan : Plannable m seqs queryLens) :
    (defaultPositions m seqs queryLens).length = queryLens.sum := by
  rw [defaultPositions, length_flatten, map_map]
  have : (List.length ∘ fun x : SeqId × ℕ => (List.range x.2).map (ctxOf m x.1 + ·)) =
      Prod.snd := by
    funext x
    simp
  rw [this, map_snd_zip (le_of_eq hplan.length_eq.symm)]

theorem Emits.shaped {flat : List ℕ × List ℕ × List ℕ} (h : Inv H m)
    (hplan : Plannable m seqs queryLens) (hflat : Emits m seqs queryLens flat)
    (hpos : ∀ p, positions = some p → p.len = queryLens.sum) :
    (described m seqs queryLens positions mask flat).Shaped := by
  obtain ⟨hg, hb, hb₁, ht, hs, hs₁⟩ := hplan.bounds h
  have hst := hplan.length_le
  have h₁ : m.groups.length * queryLens.sum ≤ 16 * 2 ^ 20 := Nat.mul_le_mul hg ht
  have h₂ : m.groups.length * seqs.length ≤ 16 * 2 ^ 20 := Nat.mul_le_mul hg hs
  have h₃ : m.groups.length * seqs.length * m.maxBlocks ≤ 16 * 2 ^ 20 * 2 ^ 15 :=
    Nat.mul_le_mul h₂ hb
  constructor
  case positions =>
    cases positions with
    | none => exact defaultPositions_length hplan
    | some p => exact hpos p rfl
  case queries =>
    intro q hq
    exact Nat.ne_of_gt (hplan.query_pos hq)
  case slotMap => exact hflat.slotMap
  case blockTable => exact hflat.blockTable
  case windowStart => exact hflat.windowStart
  case queryLen => exact hplan.length_eq.symm
  all_goals simp only [described, length_map]
  all_goals omega

theorem narrow_dims (h : Inv H m) (hplan : Plannable m seqs queryLens) :
    narrow 32 m.groups.length = some m.groups.length ∧ narrow 32 seqs.length = some seqs.length ∧
      narrow 32 queryLens.sum = some queryLens.sum := by
  obtain ⟨hg, -, -, ht, hs, -⟩ := hplan.bounds h
  exact ⟨narrow_of_lt (by omega), narrow_of_lt (by omega), narrow_of_lt (by omega)⟩

theorem liftIr_eq_ok {x : Except (Fault IrError) BatchMeta} {b : BatchMeta} :
    liftIr x = .ok b ↔ x = .ok b := by
  match x with
  | .ok a => simp [liftIr]
  | .error (.err e) => simp [liftIr]
  | .error .panic => simp [liftIr]

/-- A tree that is an owned mask is valid, so that only the fit is left to check. -/
theorem admissible_mask : Admissible m seqs queryLens positions (mask.map TreeMask.toInput) ↔
    Plannable m seqs queryLens ∧ (∀ p, positions = some p → p.len = queryLens.sum) ∧
      ∀ k, mask = some k → TreeFits queryLens.sum queryLens k.parents k.tMax := by
  constructor
  · rintro ⟨h₁, h₂, h₃⟩
    refine ⟨h₁, h₂, ?_⟩
    rintro k rfl
    exact (h₃ _ rfl).2
  · rintro ⟨h₁, h₂, h₃⟩
    refine ⟨h₁, h₂, fun t ht => ?_⟩
    obtain ⟨k, rfl, rfl⟩ := Option.map_eq_some_iff.mp ht
    exact ⟨k.valid, h₃ k rfl⟩

theorem planBatch_of (h : Inv H m) (hplan : Plannable m seqs queryLens)
    (hpos : ∀ p, positions = some p → p.len = queryLens.sum) {t : Option ℕ}
    (htree : ∀ n, t = some n → n = queryLens.sum) :
    m.planBatch seqs queryLens (positions.map (·.len)) t =
      .ok ⟨queryLens.sum, queryLens.sum⟩ := by
  refine (planBatch_eq_ok h).mpr ⟨hplan, fun n hn => ?_, htree, rfl⟩
  obtain ⟨p, hp, rfl⟩ := Option.map_eq_some_iff.mp hn
  exact hpos p hp

theorem batchMetaWithOptions_eq {flat : List ℕ × List ℕ × List ℕ} (h : Inv H m)
    (hplan : Plannable m seqs queryLens) (hflat : Emits m seqs queryLens flat)
    (hpos : ∀ p, positions = some p → p.len = queryLens.sum)
    (hlen : ∀ k, mask = some k → k.parents.length = queryLens.sum) :
    m.batchMetaWithOptions seqs queryLens positions mask =
      liftIr (described m seqs queryLens positions mask flat).toBuilder.build := by
  have hok := planBatch_of h hplan hpos (t := mask.map (·.parents.length)) <| by
    intro n hn
    obtain ⟨k, hk, rfl⟩ := Option.map_eq_some_iff.mp hn
    exact hlen k hk
  obtain ⟨h₁, h₂, h₃⟩ := narrow_dims h hplan
  simp only [batchMetaWithOptions, hok, batchNeeds_eq h hplan, lift_ok, ok_bind, hflat.emit, h₁,
    h₂, h₃, okOr_some]
  rfl

/-- **When the owned metadata is built**: for an admissible batch, when there is a
group. -/
theorem batchMetaWithOptions_eq_ok {flat : List ℕ × List ℕ × List ℕ} (h : Inv H m)
    (hflat : Plannable m seqs queryLens → Emits m seqs queryLens flat) {b : BatchMeta} :
    m.batchMetaWithOptions seqs queryLens positions mask = .ok b ↔
      Admissible m seqs queryLens positions (mask.map TreeMask.toInput) ∧ m.groups ≠ [] ∧
        b = described m seqs queryLens positions mask flat := by
  have hbuild : Plannable m seqs queryLens → (∀ p, positions = some p → p.len = queryLens.sum) →
      ((described m seqs queryLens positions mask flat).toBuilder.build = .ok b ↔
        m.groups ≠ [] ∧ (∀ k, mask = some k → TreeFits queryLens.sum queryLens k.parents k.tMax) ∧
          b = described m seqs queryLens positions mask flat) := fun hplan hpos => by
    rw [((hflat hplan).shaped h hplan hpos).build_eq_ok]
    simp [described, BatchMeta.TreeOk]
  rw [admissible_mask]
  constructor
  · intro hb
    obtain ⟨plan, hp, -⟩ := bind_eq_ok.mp hb
    obtain ⟨hplan, hpos, hlen, rfl⟩ := (planBatch_eq_ok h).mp (lift_eq_ok.mp hp)
    have hpos : ∀ p, positions = some p → p.len = queryLens.sum :=
      fun p hp => hpos _ (Option.map_eq_some_iff.mpr ⟨p, hp, rfl⟩)
    rw [batchMetaWithOptions_eq h hplan (hflat hplan) hpos
      fun k hk => hlen _ (Option.map_eq_some_iff.mpr ⟨k, hk, rfl⟩), liftIr_eq_ok] at hb
    obtain ⟨hg, hfit, rfl⟩ := (hbuild hplan hpos).mp hb
    exact ⟨⟨hplan, hpos, hfit⟩, hg, rfl⟩
  · rintro ⟨⟨hplan, hpos, hfit⟩, hg, rfl⟩
    rw [batchMetaWithOptions_eq h hplan (hflat hplan) hpos fun k hk => (hfit k hk).1, liftIr_eq_ok]
    exact (hbuild hplan hpos).mpr ⟨hg, hfit, rfl⟩

theorem fillTensors_ok {flat : List ℕ × List ℕ × List ℕ} (h : Inv H m)
    (hplan : Plannable m seqs queryLens) (hflat : Emits m seqs queryLens flat)
    (positions : Option Positions) (ws : BatchWorkspace) :
    ∃ ws', m.fillTensors seqs queryLens positions ⟨queryLens.sum, queryLens.sum⟩
        (m.groups.length * seqs.length * m.maxBlocks) ws = .ok ws' ∧
      (∀ mask, Carries ws' (described m seqs queryLens positions mask flat)) ∧
      ∀ tree, { ws' with tree }.treeView = { ws with tree }.treeView := by
  obtain ⟨h₁, h₂, h₃⟩ := narrow_dims h hplan
  simp only [fillTensors, hflat.emit, ok_bind, h₁, h₂, h₃, okOr_some]
  refine ⟨_, rfl, fun mask => ?_, fun tree => rfl⟩
  match positions with
  | none => exact ⟨rfl, rfl, rfl, ⟨rfl, rfl⟩, rfl, rfl, rfl, rfl, rfl, rfl, rfl⟩
  | some (.perToken v) => exact ⟨rfl, rfl, rfl, ⟨rfl, rfl⟩, rfl, rfl, rfl, rfl, rfl, rfl, rfl⟩
  | some (.mrope v) => exact ⟨rfl, rfl, rfl, ⟨rfl, rfl⟩, rfl, rfl, rfl, rfl, rfl, rfl, rfl⟩

theorem Suffices.checks (hws : Suffices ws m seqs queryLens positions tree) :
    checkScratch ws seqs.length = .ok () ∧
      ws.checkCapacities positions seqs.length queryLens.sum (m.groups.length * queryLens.sum,
        m.groups.length * seqs.length * m.maxBlocks, m.groups.length * seqs.length) = .ok () := by
  have hpos : ws.checkPositions positions queryLens.sum = .ok () := by
    unfold BatchWorkspace.checkPositions
    split
    · exact ensure_of (hws.mrope_le _ rfl)
    · rename_i hne
      exact ensure_of (hws.positions_le fun v hv => hne v hv)
  refine ⟨ensure_of hws.idScratch_le, ?_⟩
  simp only [BatchWorkspace.checkCapacities, BatchWorkspace.checkCapacity,
    ensure_of hws.seqIds_le, ensure_of hws.queryLens_le, ensure_of hws.ctxLens_le, hpos,
    ensure_of hws.slotMap_le, ensure_of hws.blockTable_le, ensure_of hws.windowStart_le, ok_bind]

theorem checkTreeBatchRules_eq_ok {parents : List ℤ} {tMax : ℕ} {u : Unit} :
    checkTreeBatchRules parents tMax queryLens = .ok u ↔
      treeBatchProblems parents tMax queryLens = [] := by
  rw [← IrError.fromProblems_eq_ok (u := u), checkTreeBatchRules]
  cases IrError.fromProblems (treeBatchProblems parents tMax queryLens) <;> simp [Except.mapError]

/-- **The fill with an owned tree succeeds on every admissible batch**, and the
workspace then holds its metadata. -/
theorem fillBatchMetaWithOptions_ok {flat : List ℕ × List ℕ × List ℕ} (h : Inv H m)
    (hflat : Plannable m seqs queryLens → Emits m seqs queryLens flat)
    (hws : Suffices ws m seqs queryLens positions tree)
    (ha : Admissible m seqs queryLens positions (mask.map TreeMask.toInput)) :
    ∃ ws', m.fillBatchMetaWithOptions seqs queryLens positions mask ws = .ok ws' ∧
      Holds ws' (described m seqs queryLens positions mask flat) := by
  obtain ⟨hplan, hpos, hfit⟩ := admissible_mask.mp ha
  obtain ⟨hscratch, hcap⟩ := hws.checks
  have hok := planBatch_of h hplan hpos (t := mask.map (·.parents.length)) <| by
    intro n hn
    obtain ⟨k, hk, rfl⟩ := Option.map_eq_some_iff.mp hn
    exact (hfit k hk).1
  have hrules : checkOwnedTree mask queryLens = .ok () := by
    cases mask with
    | none => rfl
    | some k => exact checkTreeBatchRules_eq_ok.mpr (hfit k rfl).2
  obtain ⟨ws', hws', hcarries, -⟩ := fillTensors_ok h hplan (hflat hplan) positions ws
  refine ⟨{ ws'.clearTree with tree := mask }, ?_, ?_, rfl⟩
  · simp only [fillBatchMetaWithOptions, hscratch, hok, batchNeeds_eq h hplan, hcap, hrules, hws',
      ok_bind]
    rfl
  · obtain ⟨h₁, h₂, h₃, h₄, h₅, h₆, h₇, h₈⟩ := hcarries mask
    exact ⟨h₁, h₂, h₃, h₄, h₅, h₆, h₇, h₈⟩

/-- **The fill with an owned tree accepts only admissible batches.** -/
theorem admissible_of_fillBatchMetaWithOptions (h : Inv H m) {ws' : BatchWorkspace}
    (hfill : m.fillBatchMetaWithOptions seqs queryLens positions mask ws = .ok ws') :
    Admissible m seqs queryLens positions (mask.map TreeMask.toInput) := by
  simp only [fillBatchMetaWithOptions, bind_eq_ok] at hfill
  obtain ⟨_, -, plan, hp, -, -, _, -, _, hrules, -⟩ := hfill
  obtain ⟨hplan, hpos, hlen, rfl⟩ := (planBatch_eq_ok h).mp hp
  refine admissible_mask.mpr ⟨hplan, fun p hp => hpos _ (Option.map_eq_some_iff.mpr ⟨p, hp, rfl⟩),
    ?_⟩
  rintro k rfl
  exact ⟨hlen _ rfl, checkTreeBatchRules_eq_ok.mp hrules⟩

theorem mul_of_treeProblems {t : TreeInput}
    (hv : treeProblems t.parents t.tMax t.ancestors.length = []) :
    t.parents.length * t.tMax < 2 ^ 64 ∧ t.ancestors.length = t.parents.length * t.tMax := by
  simp only [treeProblems, pushTreeShapeProblems, append_eq_nil_iff] at hv
  obtain ⟨⟨⟨-, hshape⟩, -⟩, -⟩ := hv
  split at hshape
  · rename_i expected hmul
    obtain ⟨hlt, rfl⟩ := mul_eq_some.mp hmul
    refine ⟨hlt, ?_⟩
    by_contra hne
    simp [hne] at hshape
  · simp at hshape

theorem fillTree_ok {t : TreeInput} (hws : Suffices ws m seqs queryLens positions (some t))
    (hv : treeProblems t.parents t.tMax t.ancestors.length = []) :
    ∃ ws', ws.fillTree t = .ok ws' ∧ { ws' with tree := none }.treeView = .ok (some t) := by
  obtain ⟨hlt, hanc⟩ := mul_of_treeProblems hv
  obtain ⟨h₁, h₂, h₃, h₄⟩ := hws.tree_le t rfl
  have hslices : validateTreeSlices t.parents t.tMax t.ancestors.length
      (ws.treeCycleState.fill (List.replicate t.parents.length 0)).data.length
      ws.treeCyclePath.capacity = .ok () := by
    simp only [validateTreeSlices, Buf.fill, length_replicate, ensure_of (le_refl _),
      ensure_of h₄, ok_bind, IrError.fromProblems_eq_ok, hv]
  simp only [BatchWorkspace.fillTree, mul_of_lt hlt, okOr_some, ok_bind, ensure_of h₁,
    ensure_of (h₂ hlt), ensure_of (And.intro h₃ h₄), hslices]
  simp [BatchWorkspace.treeView, BatchWorkspace.sliceTo, Buf.fill, ← hanc, pure, Except.pure]

/-- **The fill with a borrowed tree succeeds on every admissible batch**, and the
workspace then holds its metadata. -/
theorem fillBatchMetaWithOptionsAndTreeInput_ok {flat : List ℕ × List ℕ × List ℕ} (h : Inv H m)
    (hflat : Plannable m seqs queryLens → Emits m seqs queryLens flat)
    (hws : Suffices ws m seqs queryLens positions (mask.map TreeMask.toInput))
    (ha : Admissible m seqs queryLens positions (mask.map TreeMask.toInput)) :
    ∃ ws', m.fillBatchMetaWithOptionsAndTreeInput seqs queryLens positions
        (mask.map TreeMask.toInput) ws = .ok ws' ∧
      Holds ws' (described m seqs queryLens positions mask flat) := by
  obtain ⟨hplan, hpos, hfit⟩ := admissible_mask.mp ha
  obtain ⟨hscratch, hcap⟩ := hws.checks
  have hok := planBatch_of h hplan hpos (t := none) (by simp)
  have htokens : checkTreeTokens (mask.map TreeMask.toInput)
      ⟨queryLens.sum, queryLens.sum⟩ = .ok () := by
    cases mask with
    | none => rfl
    | some k => exact if_neg (not_not.mpr (hfit k rfl).1)
  have htree : ∃ ws₁, ws.fillTreeInput (mask.map TreeMask.toInput) queryLens = .ok ws₁ ∧
      { ws₁ with tree := none }.treeView = .ok (mask.map TreeMask.toInput) := by
    cases mask with
    | none => exact ⟨_, rfl, rfl⟩
    | some k =>
      obtain ⟨ws₁, hws₁, hview⟩ := fillTree_ok hws k.valid
      refine ⟨ws₁, ?_, hview⟩
      have hrules : checkTreeBatchRules k.parents k.tMax queryLens = .ok () :=
        checkTreeBatchRules_eq_ok.mpr (hfit k rfl).2
      change (do checkTreeBatchRules k.parents k.tMax queryLens; ws.fillTree k.toInput) = _
      rw [hrules, ok_bind, hws₁]
  obtain ⟨ws₁, hws₁, hview⟩ := htree
  obtain ⟨ws', hws', hcarries, hframe⟩ := fillTensors_ok h hplan (hflat hplan) positions ws₁
  refine ⟨{ ws' with tree := none }, ?_, ?_, (hframe none).trans hview⟩
  · simp only [fillBatchMetaWithOptionsAndTreeInput, hscratch, hok, htokens, batchNeeds_eq h hplan,
      hcap, hws₁, hws', ok_bind]
    rfl
  · obtain ⟨h₁, h₂, h₃, h₄, h₅, h₆, h₇, h₈⟩ := hcarries mask
    exact ⟨h₁, h₂, h₃, h₄, h₅, h₆, h₇, h₈⟩

/-- **The fill with a borrowed tree accepts only admissible batches.** -/
theorem admissible_of_fillBatchMetaWithOptionsAndTreeInput (h : Inv H m) {ws' : BatchWorkspace}
    (hfill : m.fillBatchMetaWithOptionsAndTreeInput seqs queryLens positions tree ws = .ok ws') :
    Admissible m seqs queryLens positions tree := by
  simp only [fillBatchMetaWithOptionsAndTreeInput, bind_eq_ok] at hfill
  obtain ⟨_, -, plan, hp, _, htokens, -, -, _, -, ws₁, htree, -⟩ := hfill
  obtain ⟨hplan, hpos, -, rfl⟩ := (planBatch_eq_ok h).mp hp
  refine ⟨hplan, fun p hp => hpos _ (Option.map_eq_some_iff.mpr ⟨p, hp, rfl⟩), ?_⟩
  rintro t rfl
  simp only [BatchWorkspace.fillTreeInput, bind_eq_ok, checkTreeBatchRules_eq_ok] at htree
  obtain ⟨_, hrules, htree⟩ := htree
  refine ⟨?_, ?_, hrules⟩
  · simp only [BatchWorkspace.fillTree, bind_eq_ok] at htree
    obtain ⟨_, -, _, -, _, -, _, -, htree⟩ := htree
    split at htree
    · cases htree
    · rename_i hslices
      simp only [validateTreeSlices, bind_eq_ok, IrError.fromProblems_eq_ok] at hslices
      obtain ⟨_, -, _, -, hv⟩ := hslices
      exact hv
  · by_contra hne
    simp only [checkTreeTokens, ne_eq, hne, not_false_eq_true, if_true, bind_eq_ok] at htokens
    obtain ⟨_, -, htokens⟩ := htokens
    cases htokens

end Agree

/-! ### Agreement -/

/-- **The three calls agree** on a batch: the fill with the borrowed tree succeeds
exactly when the tree has an owned mask and the owned metadata is built; the fill
with the owned mask succeeds in the same cases; and after a fill the workspace holds
the owned metadata. -/
structure Agree (m : StateManager) (seqs : List SeqId) (queryLens : List ℕ)
    (positions : Option Positions) (tree : Option TreeInput) (ws : BatchWorkspace) : Prop where
  borrowed : (∃ ws', m.fillBatchMetaWithOptionsAndTreeInput seqs queryLens positions tree ws =
      .ok ws') ↔
    ∃ mask, ownedTree tree = .ok mask ∧
      ∃ b, m.batchMetaWithOptions seqs queryLens positions mask = .ok b
  owned : ∀ mask, ownedTree tree = .ok mask →
    ((∃ ws', m.fillBatchMetaWithOptions seqs queryLens positions mask ws = .ok ws') ↔
      ∃ b, m.batchMetaWithOptions seqs queryLens positions mask = .ok b)
  fields : ∀ mask b, ownedTree tree = .ok mask →
    m.batchMetaWithOptions seqs queryLens positions mask = .ok b →
    (∀ ws', m.fillBatchMetaWithOptionsAndTreeInput seqs queryLens positions tree ws = .ok ws' →
      Holds ws' b) ∧
    ∀ ws', m.fillBatchMetaWithOptions seqs queryLens positions mask ws = .ok ws' → Holds ws' b

/-- **Hot and cold metadata.** On a reachable manager and for a workspace that is large
enough, whatever is in it, the three calls agree on a batch exactly when the model
has a layer group or the batch is not admissible: without groups the fills accept
every admissible batch, and the builder none. -/
theorem hot_cold_agreement {m : StateManager} (hm : m.Reachable) {seqs : List SeqId}
    {queryLens : List ℕ} {positions : Option Positions} {tree : Option TreeInput}
    {ws : BatchWorkspace} (hws : Suffices ws m seqs queryLens positions tree) :
    Agree m seqs queryLens positions tree ws ↔
      (m.groups ≠ [] ∨ ¬Admissible m seqs queryLens positions tree) := by
  obtain ⟨H, h⟩ := hm.exists_inv
  obtain ⟨flat, hflat⟩ : ∃ flat, Plannable m seqs queryLens → Emits m seqs queryLens flat := by
    by_cases hplan : Plannable m seqs queryLens
    · obtain ⟨flat, hflat⟩ := hplan.exists_emits h
      exact ⟨flat, fun _ => hflat⟩
    · exact ⟨default, fun h => absurd h hplan⟩
  constructor
  · intro hagree
    by_contra hno
    simp only [not_or, not_not] at hno
    obtain ⟨hg, ha⟩ := hno
    obtain ⟨mask, hmask⟩ := exists_ownedTree.mpr fun t ht => (ha.fits t ht).1
    obtain rfl := ownedTree_eq_ok.mp hmask
    -- the fill accepts the batch, so that agreement would have the builder accept it
    obtain ⟨ws', hfill, -⟩ := fillBatchMetaWithOptions_ok h hflat hws ha
    obtain ⟨b, hb⟩ := (hagree.owned mask hmask).mp ⟨ws', hfill⟩
    exact ((batchMetaWithOptions_eq_ok h hflat).mp hb).2.1 hg
  · intro hcase
    have hgroups : Admissible m seqs queryLens positions tree → m.groups ≠ [] :=
      fun ha => hcase.resolve_right (not_not.mpr ha)
    constructor
    case borrowed =>
      constructor
      · rintro ⟨ws', hfill⟩
        have ha := admissible_of_fillBatchMetaWithOptionsAndTreeInput h hfill
        obtain ⟨mask, hmask⟩ := exists_ownedTree.mpr fun t ht => (ha.fits t ht).1
        obtain rfl := ownedTree_eq_ok.mp hmask
        exact ⟨mask, hmask, _, (batchMetaWithOptions_eq_ok h hflat).mpr ⟨ha, hgroups ha, rfl⟩⟩
      · rintro ⟨mask, hmask, b, hb⟩
        obtain rfl := ownedTree_eq_ok.mp hmask
        obtain ⟨ha, -⟩ := (batchMetaWithOptions_eq_ok h hflat).mp hb
        obtain ⟨ws', hfill, -⟩ := fillBatchMetaWithOptionsAndTreeInput_ok h hflat hws ha
        exact ⟨ws', hfill⟩
    case owned =>
      intro mask hmask
      obtain rfl := ownedTree_eq_ok.mp hmask
      constructor
      · rintro ⟨ws', hfill⟩
        have ha := admissible_of_fillBatchMetaWithOptions h hfill
        exact ⟨_, (batchMetaWithOptions_eq_ok h hflat).mpr ⟨ha, hgroups ha, rfl⟩⟩
      · rintro ⟨b, hb⟩
        obtain ⟨ha, -⟩ := (batchMetaWithOptions_eq_ok h hflat).mp hb
        obtain ⟨ws', hfill, -⟩ := fillBatchMetaWithOptions_ok h hflat hws ha
        exact ⟨ws', hfill⟩
    case fields =>
      intro mask b hmask hb
      obtain rfl := ownedTree_eq_ok.mp hmask
      obtain ⟨ha, -, rfl⟩ := (batchMetaWithOptions_eq_ok h hflat).mp hb
      constructor
      · intro ws' hfill
        obtain ⟨ws₂, hfill₂, hholds⟩ := fillBatchMetaWithOptionsAndTreeInput_ok h hflat hws ha
        exact Except.ok.inj (hfill.symm.trans hfill₂) ▸ hholds
      · intro ws' hfill
        obtain ⟨ws₂, hfill₂, hholds⟩ := fillBatchMetaWithOptions_ok h hflat hws ha
        exact Except.ok.inj (hfill.symm.trans hfill₂) ▸ hholds

/-- A workspace with some room, and with what some other step has left in it. -/
def roomy : BatchWorkspace where
  lastG := 3
  lastS := 1
  lastT := 2
  lastMaxBlocks := 1
  lastPositionWidth := 3
  seqIds := ⟨[7], 8⟩
  queryLens := ⟨[2], 8⟩
  ctxLens := ⟨[5], 8⟩
  positions := ⟨[], 8⟩
  positionsMrope := ⟨[(5, 5, 5), (6, 6, 6)], 8⟩
  slotMap := ⟨[1, 2], 8⟩
  blockTable := ⟨[0], 8⟩
  windowStart := ⟨[0], 8⟩
  idScratch := ⟨[7], 8⟩
  tree := none
  treeParents := ⟨[-1, 0], 8⟩
  treeAncestors := ⟨[true, false, true, true], 8⟩
  treeTMax := 2
  treeLen := 2
  treeAncLen := 4
  treePresent := true
  treeCycleState := ⟨[2, 2], 8⟩
  treeCyclePath := ⟨[0, 1], 8⟩

/-- A batch of one sequence with two draft tokens, on a model with a window and a
recurrent state. -/
theorem hot_cold_agreement_small :
    Agree (small.run [.newSeq [], .reserve 0 2]) [0] [2] (some (.perToken [0, 1]))
      (some ⟨[-1, 0], 2, [true, false, true, true]⟩) roomy := by
  refine (hot_cold_agreement ⟨small, _, small_built, rfl⟩ ?_).mpr (Or.inl (cons_ne_nil _ _))
  constructor
  case positions_le => exact fun _ => by decide
  case mrope_le => exact fun v hv => (by cases hv)
  all_goals decide

/-- A model without state: it has no layer group. -/
def stateless : StateManager := initial ⟨96, 2⟩ [] 1000

/-- **Without layer groups the calls disagree**: the fills describe a batch that the
builder refuses. -/
theorem hot_cold_disagreement :
    let m := stateless.run [.newSeq [], .reserve 0 1]
    m.Reachable ∧ Suffices roomy m [0] [1] none none ∧ ¬Agree m [0] [1] none none roomy := by
  refine ⟨⟨stateless, _, ⟨⟨96, 2⟩, 1000, by decide, Or.inl ⟨[], rfl⟩⟩, rfl⟩, ?_, ?_⟩
  · constructor
    case positions_le => exact fun _ => by decide
    case mrope_le => exact fun v hv => (by cases hv)
    all_goals decide
  · intro hagree
    obtain ⟨mask, hmask, b, hb⟩ := hagree.borrowed.mp ⟨_, rfl⟩
    obtain rfl : none = mask := Except.ok.inj hmask
    cases hb

end R9v

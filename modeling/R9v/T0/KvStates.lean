import R9v.T0.KvLatent

/-!
# The states of a cache

The caches that a program can have: new ones, and what the writes leave behind, also those that
fail. Each of them is well formed (`Kv.Reachable.wf`), so that a write that fails leaves the cache
as it is, and a write that succeeds changes the slots of its tokens only (`Kv.write_atomic`).
-/

namespace R9v.Kv

open Blocks Checked FloatFormat Format Storing List

/-! ### New caches -/

section New

variable {dtype : DType}

theorem geometry_of_new {fields : List (String × ℕ)} {e : KvError}
    (h : KvError.fromProblems
      ((if dtype ∈ cacheDtypes then [] else [e]) ++ geometryProblems fields) =
      .ok ()) : dtype ∈ cacheDtypes ∧ ∀ f ∈ fields, 0 < f.2 := by
  have hnil := append_eq_nil_iff.mp (KvError.fromProblems_eq_ok.mp h)
  constructor
  · by_contra hne
    rw [if_neg hne] at hnil
    cases hnil.1
  · intro f hf
    rw [geometryProblems, map_eq_nil_iff, filter_eq_nil_iff] at hnil
    have hpos := hnil.2 f hf
    rw [decide_eq_true_eq] at hpos
    exact Nat.pos_of_ne_zero hpos

theorem PagedCache.wf_of_new {numBlocks hkv d dv : ℕ} {c : PagedCache}
    (h : PagedCache.new numBlocks hkv d dv dtype = .ok c) : c.Wf := by
  simp only [PagedCache.new, bind_eq_ok, okOr_eq_ok] at h
  obtain ⟨⟨⟩, hproblems, slots, hslots, kElems, hk, vElems, hv, scaleElems, hscales, hc⟩ := h
  obtain ⟨hdtype, hgeometry⟩ := geometry_of_new hproblems
  simp only [forall_mem_cons] at hgeometry
  obtain ⟨hblocks, hhkv, hd, hdv, -⟩ := hgeometry
  have hslots := checkedAddr_eq hslots
  obtain ⟨x, hx, hk⟩ := Option.bind_eq_some_iff.mp hk
  obtain ⟨-, rfl⟩ := mul_eq_some.mp hx
  obtain ⟨hklt, rfl⟩ := mul_eq_some.mp hk
  obtain ⟨y, hy, hv⟩ := Option.bind_eq_some_iff.mp hv
  obtain ⟨-, rfl⟩ := mul_eq_some.mp hy
  obtain ⟨hvlt, rfl⟩ := mul_eq_some.mp hv
  obtain ⟨-, rfl⟩ := mul_eq_some.mp hscales
  have hnum : 0 < slots := by omega
  simp only [cacheDtypes, mem_cons, not_mem_nil, or_false] at hdtype
  rcases hdtype with rfl | rfl | rfl
  all_goals
    obtain rfl := Except.ok.inj hc
    constructor <;>
      simp_all [PagedCache.numSlots, sizeIf, hasScales, cacheDtypes]

theorem LatentCache.wf_of_new {numBlocks latent rope : ℕ} {c : LatentCache}
    (h : LatentCache.new numBlocks latent rope dtype = .ok c) : c.Wf := by
  simp only [LatentCache.new, bind_eq_ok, okOr_eq_ok] at h
  obtain ⟨⟨⟩, hproblems, slots, hslots, latentElems, hl, ropeElems, hr, hc⟩ := h
  obtain ⟨hdtype, hgeometry⟩ := geometry_of_new hproblems
  simp only [forall_mem_cons] at hgeometry
  obtain ⟨hblocks, hlatent, hrope, -⟩ := hgeometry
  have hslots := checkedAddr_eq hslots
  obtain ⟨hllt, rfl⟩ := mul_eq_some.mp hl
  obtain ⟨hrlt, rfl⟩ := mul_eq_some.mp hr
  simp only [cacheDtypes, mem_cons, not_mem_nil, or_false] at hdtype
  rcases hdtype with rfl | rfl | rfl
  all_goals
    obtain rfl := Except.ok.inj hc
    constructor <;>
      simp_all [LatentCache.numSlots, sizeIf, hasScales, cacheDtypes]

end New

/-! ### Reachable caches -/

/-- The caches that a program can have. -/
inductive Reachable : KvCache → Prop
  | paged {numBlocks hkv d dv : ℕ} {dtype : DType} {c : PagedCache}
      (h : PagedCache.new numBlocks hkv d dv dtype = .ok c) : Reachable (.paged c)
  | latent {numBlocks latent rope : ℕ} {dtype : DType} {c : LatentCache}
      (h : LatentCache.new numBlocks latent rope dtype = .ok c) : Reachable (.latent c)
  | writePaged {c : PagedCache} (op : StateWriteKvOp) (k v : View) (b : BatchMeta) (group : ℕ)
      (h : Reachable (.paged c)) :
      Reachable (.paged (finalState (stateWriteKvPaged op k v b group c)))
  | writeLatent {c : LatentCache} (op : StateWriteKvOp) (k v : View) (b : BatchMeta) (group : ℕ)
      (h : Reachable (.latent c)) :
      Reachable (.latent (finalState (stateWriteKvLatent op k v b group c)))

/-- A cache with a place for each of its rows. -/
def KvCache.Wf : KvCache → Prop
  | .paged c => c.Wf
  | .latent c => c.Wf

section Writes

variable {op : StateWriteKvOp} {k v : View} {b : BatchMeta} {group : ℕ}

variable (op k v b group)

theorem wf_stateWriteKvPaged {c : PagedCache} (h : c.Wf) :
    (finalState (stateWriteKvPaged op k v b group c)).Wf := by
  rcases stateWriteKvPaged_run op k v b group h with
    ⟨e, he⟩ | ⟨rows, hrows, hrun⟩
  · rw [he]
    exact h
  · rw [hrun]
    exact ((setsCells_storePlanned hrows).preserves ⟨h, .refl c⟩).1

theorem wf_stateWriteKvLatent {c : LatentCache} (h : c.Wf) :
    (finalState (stateWriteKvLatent op k v b group c)).Wf := by
  rcases stateWriteKvLatent_run op k v b group h with
    ⟨e, he⟩ | ⟨rows, hrows, hrun⟩
  · rw [he]
    exact h
  · rw [hrun]
    exact ((setsCells_storePlannedLatent hrows).preserves ⟨h, .refl c⟩).1

end Writes

/-- **The caches of a program** are well formed. -/
theorem Reachable.wf {cache : KvCache} (h : Reachable cache) : cache.Wf := by
  induction h with
  | paged h => exact PagedCache.wf_of_new h
  | latent h => exact LatentCache.wf_of_new h
  | writePaged op k v b group h ih => exact wf_stateWriteKvPaged op k v b group ih
  | writeLatent op k v b group h ih => exact wf_stateWriteKvLatent op k v b group ih

/-! ### What a write changes -/

/-- What a slot holds, and whether it was written. -/
inductive SlotState
  | paged (heads : List HeadRow) (written : Bool)
  | latent (row : LatentRow) (written : Bool)

namespace KvCache

def slotState : KvCache → ℕ → SlotState
  | .paged c, slot => .paged (c.slotRows slot) (c.isWritten slot)
  | .latent c, slot => .latent (c.latentRow slot) (c.isWritten slot)

def numSlots : KvCache → ℕ
  | .paged c => c.numSlots
  | .latent c => c.numSlots

def dtype : KvCache → DType
  | .paged c => c.dtype
  | .latent c => c.dtype

/-- The geometry of a cache and the sizes of its regions. -/
def sizes : KvCache → List ℕ
  | .paged c => [c.numBlocks, c.hkv, c.d, c.dv, c.kF16.length, c.vF16.length, c.kI8.length,
      c.vI8.length, c.kE4m3.length, c.vE4m3.length, c.kScales.length, c.vScales.length,
      c.written.length]
  | .latent c => [c.numBlocks, c.latent, c.rope, c.latentF16.length, c.latentI8.length,
      c.latentE4m3.length, c.latentScales.length, c.ropeF16.length, c.written.length]

end KvCache

/-- A slot holds a token as a cache stores it. -/
def Holds (op : StateWriteKvOp) (k v : View) (tok : ℕ) : KvCache → SlotState → Prop
  | .paged c, state => ∃ kFlat vFlat, PagedRows op k v c tok kFlat vFlat ∧
      state = .paged ((List.range c.hkv).map (encodedRows c kFlat vFlat)) true
  | .latent c, state => ∃ row ropeRow, LatentRows op k v c tok row ropeRow ∧
      state = .latent (encodeLatent c.dtype row ropeRow) true

section Atomic

variable {op : StateWriteKvOp} {k v : View} {b : BatchMeta} {group : ℕ}

theorem sizes_paged {c c' : PagedCache} (h : c.Wf) (h' : c'.Wf) (hs : c.SameDims c') :
    (KvCache.paged c').sizes = (KvCache.paged c).sizes := by
  have hnum : c'.written.length = c.written.length := hs.numSlots
  simp only [KvCache.sizes, h.kF16, h'.kF16, h.vF16, h'.vF16, h.kI8, h'.kI8, h.vI8, h'.vI8, h.kE4m3,
    h'.kE4m3, h.vE4m3, h'.vE4m3, h.kScales, h'.kScales, h.vScales, h'.vScales, hs.numBlocks, hs.hkv,
    hs.d, hs.dv, hs.dtype, hs.numSlots, hnum]

theorem sizes_latent {c c' : LatentCache} (h : c.Wf) (h' : c'.Wf) (hs : c.SameDims c') :
    (KvCache.latent c').sizes = (KvCache.latent c).sizes := by
  have hnum : c'.written.length = c.written.length := hs.numSlots
  simp only [KvCache.sizes, h.latentF16, h'.latentF16, h.latentI8, h'.latentI8, h.latentE4m3,
    h'.latentE4m3, h.latentScales, h'.latentScales, h.ropeF16, h'.ropeF16, hs.numBlocks, hs.latent,
    hs.rope, hs.dtype, hs.numSlots, hnum]

/-- What a write of a step leaves behind. -/
structure Written (op : StateWriteKvOp) (k v : View) (b : BatchMeta) (group : ℕ)
    (cache cache' : KvCache) : Prop where
  sizes : cache'.sizes = cache.sizes
  dtype : cache'.dtype = cache.dtype
  other : ∀ slot, (∀ tok < b.t, slotAt b group tok ≠ some slot) →
    cache'.slotState slot = cache.slotState slot
  last : ∀ tok slot, IsLast b group tok slot → slot < cache.numSlots ∧
    op.cacheDtype = cache.dtype ∧ Holds op k v tok cache (cache'.slotState slot)

theorem written_paged {c : PagedCache} (h : c.Wf) {rows : ℕ → List F32 × List F32}
    (hrows : WritesPaged op k v b group c rows) : Written op k v b group (.paged c)
      (.paged ((planOf b group rows).foldl PagedCache.storePlanned c)) := by
  have hcells := setsCells_storePlanned hrows
  obtain ⟨hwf, hsame⟩ := hcells.preserves ⟨h, .refl c⟩
  obtain ⟨hother, hlast⟩ := foldl_planOf hcells ⟨h, .refl c⟩
  refine ⟨sizes_paged h hwf hsame, hsame.dtype, fun slot hslot => ?_, fun tok slot htok => ?_⟩
  · obtain ⟨hheads, hwritten⟩ := Prod.mk.inj (hother slot hslot)
    rw [KvCache.slotState, KvCache.slotState, hheads, hwritten]
  · obtain ⟨hlt, hdt, hplan⟩ := hrows tok htok.1 slot htok.2.1
    obtain ⟨hheads, hwritten⟩ := Prod.mk.inj (hlast tok slot htok)
    refine ⟨hlt, hdt, _, _, hplan, ?_⟩
    rw [KvCache.slotState, hheads, hwritten]

theorem written_latent {c : LatentCache} (h : c.Wf) {rows : ℕ → List F32 × List F32}
    (hrows : WritesLatent op k v b group c rows) : Written op k v b group (.latent c)
      (.latent ((planOf b group rows).foldl LatentCache.storePlanned c)) := by
  have hcells := setsCells_storePlannedLatent hrows
  obtain ⟨hwf, hsame⟩ := hcells.preserves ⟨h, .refl c⟩
  obtain ⟨hother, hlast⟩ := foldl_planOf hcells ⟨h, .refl c⟩
  refine ⟨sizes_latent h hwf hsame, hsame.dtype, fun slot hslot => ?_, fun tok slot htok => ?_⟩
  · obtain ⟨hrow, hwritten⟩ := Prod.mk.inj (hother slot hslot)
    rw [KvCache.slotState, KvCache.slotState, hrow, hwritten]
  · obtain ⟨hlt, hdt, hplan⟩ := hrows tok htok.1 slot htok.2.1
    obtain ⟨hrow, hwritten⟩ := Prod.mk.inj (hlast tok slot htok)
    refine ⟨hlt, hdt, _, _, hplan, ?_⟩
    rw [KvCache.slotState, hrow, hwritten]

variable (op k v b group) in
theorem stateWriteKv_cases {cache : KvCache} (h : cache.Wf) :
    (∃ e, stateWriteKv op k v b group cache = .error e cache) ∨
      ∃ cache', stateWriteKv op k v b group cache = .ok () cache' ∧ cache'.Wf ∧
        Written op k v b group cache cache' := by
  cases hkind : op.handle.kind with
  | kvPaged =>
    cases cache with
    | paged c =>
      simp only [stateWriteKv, hkind]
      rcases stateWriteKvPaged_run op k v b group h with ⟨e, he⟩ | ⟨rows, hrows, hrun⟩
      · refine .inl ⟨e, ?_⟩
        rw [he]
        rfl
      · refine .inr ⟨.paged ((planOf b group rows).foldl PagedCache.storePlanned c), ?_,
          ((setsCells_storePlanned hrows).preserves ⟨h, .refl c⟩).1, written_paged h hrows⟩
        rw [hrun]
        rfl
    | latent c =>
      left
      simp only [stateWriteKv, hkind]
      exact ⟨_, rfl⟩
  | kvLatent =>
    cases cache with
    | paged c =>
      left
      simp only [stateWriteKv, hkind]
      exact ⟨_, rfl⟩
    | latent c =>
      simp only [stateWriteKv, hkind]
      rcases stateWriteKvLatent_run op k v b group h with ⟨e, he⟩ | ⟨rows, hrows, hrun⟩
      · refine .inl ⟨e, ?_⟩
        rw [he]
        rfl
      · refine .inr ⟨.latent ((planOf b group rows).foldl LatentCache.storePlanned c), ?_,
          ((setsCells_storePlannedLatent hrows).preserves ⟨h, .refl c⟩).1, written_latent h hrows⟩
        rw [hrun]
        rfl
  | recurrent =>
    left
    simp only [stateWriteKv, hkind]
    exact ⟨_, rfl⟩
  | convWindow =>
    left
    simp only [stateWriteKv, hkind]
    exact ⟨_, rfl⟩

/-- **A write is atomic**: one that fails leaves the cache as it is, and one that succeeds sets the
slots of its tokens to the last rows that were written there, and no other slot. -/
theorem write_atomic {cache : KvCache} (h : Reachable cache) (op : StateWriteKvOp) (k v : View)
    (b : BatchMeta) (group : ℕ) :
    (∀ e cache', stateWriteKv op k v b group cache = .error e cache' → cache' = cache) ∧
      ∀ cache', stateWriteKv op k v b group cache = .ok () cache' →
        Written op k v b group cache cache' := by
  rcases stateWriteKv_cases op k v b group h.wf with
    ⟨e, he⟩ | ⟨next, hnext, -, hwritten⟩
  · rw [he]
    constructor
    · intro e' cache' heq
      cases heq
      rfl
    · intro cache' heq
      cases heq
  · rw [hnext]
    constructor
    · intro e cache' heq
      cases heq
    · intro cache' heq
      cases heq
      exact hwritten

/-- A cache of one block for one head, and the write of the number one to its first slot. -/
def smallCache : PagedCache :=
  ⟨1, 1, 1, 1, .f16, List.replicate 32 0, List.replicate 32 0, [], [], [], [], [], [],
    List.replicate 32 false⟩

def smallOp : StateWriteKvOp := ⟨.f16, .perTokenHead, none, ⟨0, .kvPaged⟩⟩

def smallView : View := ⟨[1, 1, 1], .f32 [⟨0x3F800000⟩], .contiguous⟩

def smallBatch : BatchMeta := ⟨1, 1, 1, 1, [0], [1], [0], .perToken [0], [0], [0], [0], none⟩

/-- **The first slot is written**, and the second one is not. -/
theorem write_small : ∃ cache', stateWriteKv smallOp smallView smallView smallBatch 0
    (.paged smallCache) = .ok () cache' ∧ Written smallOp smallView smallView smallBatch 0
      (.paged smallCache) cache' ∧ IsLast smallBatch 0 0 0 := by
  have hreach : Reachable (.paged smallCache) :=
    @Reachable.paged 1 1 1 1 .f16 smallCache rfl
  refine ⟨_, rfl, (write_atomic hreach smallOp smallView smallView smallBatch 0).2 _ rfl, ?_⟩
  refine ⟨by decide, by decide, fun tok htok hlt => ?_⟩
  rw [show smallBatch.t = 1 from rfl] at htok
  omega

end Atomic

end R9v.Kv

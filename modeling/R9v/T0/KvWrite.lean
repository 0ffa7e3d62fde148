import R9v.T0.KvRows

/-!
# The writes of a cache

What a write of the rows of a step does to a cache. The plan that is made before the first store
(`Kv.pagedPlan_ok`) has the rows of the tokens that have a slot, in the order of the tokens, and
these rows are what is stored, unless nothing is.
-/

namespace R9v.Kv

open Blocks Checked FloatFormat Format Storing List

/-! ### The slots of the tokens -/

section Slots

variable (b : BatchMeta) (group : ℕ)

/-- The slot of a token, unless it is padding. -/
def slotAt (tok : ℕ) : Option ℕ :=
  let raw := b.slotMap.getD (group * b.t + tok) 0
  if raw = slotNone then none else some raw

/-- A token is the last one of its slot. -/
def IsLast (tok slot : ℕ) : Prop :=
  tok < b.t ∧ slotAt b group tok = some slot ∧
    ∀ tok' < b.t, tok < tok' → slotAt b group tok' ≠ some slot

/-- The rows of the tokens that have a slot. -/
def planOf (rows : ℕ → List F32 × List F32) : List (ℕ × List F32 × List F32) :=
  (List.range b.t).filterMap fun tok => (slotAt b group tok).map fun i => (i, rows tok)

variable {b group} {numSlots : ℕ}

theorem planWriteSlot_eq (hg : group < b.g) {tok : ℕ} (ht : tok < b.t)
    (h : (planWriteSlot b group numSlots tok).1 = []) :
    (planWriteSlot b group numSlots tok).2 = slotAt b group tok ∧
      ∀ slot, slotAt b group tok = some slot → slot < numSlots := by
  rw [planWriteSlot, checkedSlot_of_lt hg ht] at h ⊢
  rw [slotAt]
  by_cases hraw : b.slotMap.getD (group * b.t + tok) 0 = slotNone
  · simp only [hraw, if_true]
    exact ⟨trivial, fun slot hslot => by cases hslot⟩
  · simp only [hraw, if_false] at h ⊢
    by_cases hlt : numSlots ≤ b.slotMap.getD (group * b.t + tok) 0
    · rw [if_pos hlt] at h
      cases h
    · rw [if_neg hlt]
      exact ⟨rfl, fun slot hslot => by rw [← Option.some.inj hslot]; omega⟩

theorem planSlots_eq (hg : group < b.g) (h : (planSlots b group numSlots).1 = []) :
    (planSlots b group numSlots).2 = some ((List.range b.t).map (slotAt b group)) ∧
      ∀ tok < b.t, ∀ slot, slotAt b group tok = some slot → slot < numSlots := by
  rw [planSlots, if_pos hg] at h ⊢
  have hnil : ∀ tok < b.t, (planWriteSlot b group numSlots tok).1 = [] := fun tok ht => by
    rw [map_eq_nil_iff, planWriteSlots, flatMap_eq_nil_iff] at h
    exact h _ (mem_map_of_mem (mem_range.mpr ht))
  refine ⟨congrArg some ?_, fun tok ht => (planWriteSlot_eq hg ht (hnil tok ht)).2⟩
  rw [planWriteSlots, map_map]
  exact map_congr_left fun tok ht =>
    (planWriteSlot_eq hg (mem_range.mp ht) (hnil tok (mem_range.mp ht))).1

end Slots

/-! ### Rows that are read -/

/-- The elements of a tensor from a place on. -/
def IsRow (v : View) (start : ℕ) (row : List F32) : Prop :=
  ∀ j < row.length, v.readF32 (start + j) = row[j]?

section Rows

variable {v : View} {off n : ℕ} {row : List F32}

theorem checkedAddr_eq {a b x i : ℕ} {what : String} (h : checkedAddr a b x what = .ok i) :
    a * b + x = i := by
  simp only [checkedAddr, okOr_eq_ok] at h
  obtain ⟨y, hy, h⟩ := Option.bind_eq_some_iff.mp h
  obtain ⟨-, rfl⟩ := mul_eq_some.mp hy
  exact (add_eq_some.mp h).2

theorem readRow_ok {detail : String} (h : readRow v off n detail = .ok row) :
    row.length = n ∧ IsRow v off row := by
  obtain ⟨g, rfl, hg⟩ := @exists_map_of_mapM _ _ _ ⟨(⟨0⟩ : F32)⟩ _ _ _ h
  have hlen : ((List.range n).map g).length = n := by rw [length_map, length_range]
  refine ⟨hlen, fun j hj => ?_⟩
  rw [hlen] at hj
  have hread := hg j (mem_range.mpr hj)
  simp only [bind_eq_ok, lift_eq_ok, okOr_eq_ok, orPanic_eq_ok] at hread
  obtain ⟨i, hi, hread⟩ := hread
  obtain ⟨-, rfl⟩ := add_eq_some.mp hi
  rw [hread, getElem?_map, getElem?_range hj]
  rfl

theorem foldlM_addBad {l : List ℕ} {bad r : ℕ} (h : l.foldlM (addBad v off) bad = some r) :
    bad ≤ r ∧ (r = bad → ∀ d ∈ l, ∃ x, v.readF32 (off + d) = some x ∧ x.isFinite = true) := by
  induction l generalizing bad with
  | nil =>
    obtain rfl : bad = r := Option.some.inj h
    exact ⟨le_rfl, fun _ d hd => by cases hd⟩
  | cons d l ih =>
    obtain ⟨next, hnext, h⟩ := Option.bind_eq_some_iff.mp h
    obtain ⟨hle, hrest⟩ := ih h
    rw [addBad] at hnext
    rcases hadd : add 64 off d with _ | i
    · rw [hadd] at hnext
      obtain rfl : bad + 1 = next := Option.some.inj hnext
      exact ⟨by omega, fun heq => by omega⟩
    · rw [hadd] at hnext
      obtain ⟨x, hx, hnext⟩ := Option.bind_eq_some_iff.mp hnext
      have hif := Option.some.inj hnext
      obtain ⟨-, rfl⟩ := add_eq_some.mp hadd
      by_cases hfin : x.isFinite = true
      · rw [if_pos hfin] at hif
        subst hif
        exact ⟨hle, fun heq => forall_mem_cons.mpr ⟨⟨x, hx, hfin⟩, hrest heq⟩⟩
      · rw [if_neg hfin] at hif
        exact ⟨by omega, fun heq => by omega⟩

/-- **Nothing bad was counted**: the elements of the row are finite. -/
theorem isFinite_of_countBad (h : countBad v off n = some 0) (hrow : IsRow v off row)
    (hlen : row.length ≤ n) : ∀ x ∈ row, x.isFinite = true := by
  intro x hx
  obtain ⟨j, hj⟩ := mem_iff_getElem?.mp hx
  have hlt : j < row.length := (List.getElem?_eq_some_iff.mp hj).1
  obtain ⟨y, hy, hfin⟩ := (foldlM_addBad h).2 rfl j (mem_range.mpr (hlt.trans_le hlen))
  rw [hrow j hlt, hj] at hy
  rwa [Option.some.inj hy]

end Rows

/-! ### The checks -/

section Checks

variable {op : StateWriteKvOp} {k v : View} {b : BatchMeta} {group : ℕ}

theorem commonProblems_eq_nil (h : commonProblems op k v b group = []) :
    k.rank = 3 ∧ v.rank = 3 ∧ op.cacheDtype ∈ cacheDtypes ∧ group < b.g ∧ k.dim 0 = b.t := by
  simp only [commonProblems, append_eq_nil_iff] at h
  obtain ⟨⟨⟨⟨⟨⟨⟨hk, hv⟩, -⟩, -⟩, hdtype⟩, -⟩, hgroup⟩, hdims⟩ := h
  have hk : k.rank = 3 := by
    by_contra hne
    rw [if_neg hne] at hk
    cases hk
  have hv : v.rank = 3 := by
    by_contra hne
    rw [if_neg hne] at hv
    cases hv
  rw [if_pos ⟨hk, hv⟩, append_eq_nil_iff, append_eq_nil_iff] at hdims
  refine ⟨hk, hv, ?_, ?_, ?_⟩
  · by_contra hne
    rw [if_neg hne] at hdtype
    cases hdtype
  · by_contra hne
    rw [if_neg hne] at hgroup
    cases hgroup
  · by_contra hne
    rw [if_neg hne] at hdims
    cases hdims.1.1

theorem badRow_eq_nil {field : String} {tok head bad : ℕ} (h : badRow op field tok head bad = []) :
    bad = 0 := by
  rw [badRow] at h
  by_contra hne
  rw [if_pos (Nat.pos_of_ne_zero hne)] at h
  cases h

/-- **The tokens that are written**, with the rows of each. -/
theorem planTokens_ok {token : ℕ → Except (Fault KvError) (List F32 × List F32)}
    {plan : List (ℕ × List F32 × List F32)} {n : ℕ} {slot : ℕ → Option ℕ}
    (h : planTokens token ((List.range n).map slot) = .ok plan) :
    ∃ rows : ℕ → List F32 × List F32,
      plan = (List.range n).filterMap (fun tok => (slot tok).map fun i => (i, rows tok)) ∧
        ∀ tok < n, (slot tok).isSome = true → token tok = .ok (rows tok) := by
  have hzip : ((List.range n).map slot).zipIdx = (List.range n).map fun tok => (slot tok, tok) := by
    refine ext_getElem (by simp) fun i _ _ => ?_
    simp
  rw [planTokens, hzip] at h
  simp only [bind_eq_ok, pure_eq_ok] at h
  obtain ⟨parts, hparts, rfl⟩ := h
  obtain ⟨g, rfl, hg⟩ := exists_map_of_mapM hparts
  let rows : ℕ → List F32 × List F32 := fun tok => (token tok).toOption.getD ([], [])
  have hrow : ∀ tok < n, g (slot tok, tok) = ((slot tok).map fun i => (i, rows tok)).toList ∧
      ((slot tok).isSome = true → token tok = .ok (rows tok)) := by
    intro tok htok
    have hpart := hg (slot tok, tok) (mem_map_of_mem (mem_range.mpr htok))
    rcases hslot : slot tok with _ | i
    · rw [hslot] at hpart
      exact ⟨(Except.ok.inj hpart).symm, fun hsome => by cases hsome⟩
    · rw [hslot] at hpart
      obtain ⟨row, hread, hpart⟩ := bind_eq_ok.mp hpart
      have hrows : rows tok = row := by
        change (token tok).toOption.getD ([], []) = row
        rw [hread]
        rfl
      rw [← Except.ok.inj hpart, hread, hrows]
      exact ⟨rfl, fun _ => rfl⟩
  refine ⟨rows, ?_, fun tok htok => (hrow tok htok).2⟩
  rw [map_map, ← flatMap_def, filterMap_eq_flatMap_toList]
  exact flatMap_congr fun tok htok => (hrow tok (mem_range.mp htok)).1

end Checks

/-! ### The plan of a paged cache -/

section PagedPlan

variable {op : StateWriteKvOp} {k v : View} {b : BatchMeta} {group : ℕ} {c : PagedCache}

/-- The quantized types. -/
def IsQuantized (dtype : DType) : Prop := dtype ∈ [DType.i8, .e4m3]

/-- The rows of a token, as they are read. -/
structure PagedRows (op : StateWriteKvOp) (k v : View) (c : PagedCache) (tok : ℕ)
    (kFlat vFlat : List F32) : Prop where
  planned : Planned c kFlat vFlat
  k_row : ∀ head < c.hkv, IsRow k ((tok * c.hkv + head) * c.d) (block c.d kFlat head)
  v_row : ∀ head < c.hkv, IsRow v ((tok * c.hkv + head) * c.dv) (block c.dv vFlat head)
  finite : IsQuantized op.cacheDtype → ∀ head < c.hkv, FiniteHead c kFlat vFlat head

theorem planToken_ok {h kd vd tok : ℕ} {rows : List F32 × List F32}
    (hrows : planToken k v h kd vd tok = .ok rows) :
    rows.1.length = h * kd ∧ rows.2.length = h * vd ∧ ∀ head < h,
      IsRow k ((tok * h + head) * kd) (block kd rows.1 head) ∧
        IsRow v ((tok * h + head) * vd) (block vd rows.2 head) := by
  simp only [planToken, bind_eq_ok, pure_eq_ok] at hrows
  obtain ⟨parts, hparts, rfl⟩ := hrows
  obtain ⟨g, rfl, hg⟩ := exists_map_of_mapM hparts
  have hhead : ∀ head < h, ((g head).1.length = kd ∧ IsRow k ((tok * h + head) * kd) (g head).1) ∧
      (g head).2.length = vd ∧ IsRow v ((tok * h + head) * vd) (g head).2 := by
    intro head hlt
    have hread := hg head (mem_range.mpr hlt)
    simp only [bind_eq_ok, lift_eq_ok, okOr_eq_ok, mul_eq_some, pure_eq_ok] at hread
    obtain ⟨row, hrow, kOff, ⟨-, rfl⟩, vOff, ⟨-, rfl⟩, kRow, hk, vRow, hv, heq⟩ := hread
    obtain rfl := checkedAddr_eq hrow
    rw [← heq]
    exact ⟨readRow_ok hk, readRow_ok hv⟩
  have hflat : ∀ f : List F32 × List F32 → List F32, (((List.range h).map g).map f).flatten =
      (List.range h).flatMap fun head => f (g head) := fun f => by
    rw [map_map, flatMap_def]
    rfl
  rw [hflat, hflat]
  refine ⟨length_flatMap_range fun i hi => (hhead i hi).1.1,
    length_flatMap_range fun i hi => (hhead i hi).2.1, fun head hlt => ?_⟩
  rw [block_flatMap_range (fun i hi => (hhead i hi).1.1) hlt,
    block_flatMap_range (fun i hi => (hhead i hi).2.1) hlt]
  exact ⟨(hhead head hlt).1.2, (hhead head hlt).2.2⟩

/-- **The rows of a quantized cache** are finite. -/
theorem isFinite_of_pagedFiniteProblems (hquant : IsQuantized op.cacheDtype) (hk : k.rank = 3)
    (hv : v.rank = 3) (h : pagedFiniteProblems op k v = some []) {tok head : ℕ}
    (htok : tok < k.dim 0) (hhead : head < k.dim 1) {kRow vRow : List F32}
    (hkRow : IsRow k ((tok * k.dim 1 + head) * k.dim 2) kRow) (hklen : kRow.length = k.dim 2)
    (hvRow : IsRow v ((tok * k.dim 1 + head) * v.dim 2) vRow) (hvlen : vRow.length = v.dim 2) :
    (∀ x ∈ kRow, x.isFinite = true) ∧ ∀ x ∈ vRow, x.isFinite = true := by
  rw [pagedFiniteProblems, if_pos ⟨hquant, hk, hv⟩] at h
  obtain ⟨problems, hproblems, hnil⟩ := Option.bind_eq_some_iff.mp h
  have hnil := Option.some.inj hnil
  -- no head of any token has a problem
  obtain ⟨heads, hheads, htokRun⟩ := exists_mem_of_mapM hproblems tok (mem_range.mpr htok)
  obtain ⟨row, hrow, hrowRun⟩ := exists_mem_of_mapM htokRun head (mem_range.mpr hhead)
  have hrowNil : row = [] :=
    flatten_eq_nil_iff.mp hnil row (mem_flatten.mpr ⟨heads, hheads, hrow⟩)
  rw [hrowNil, pagedRowProblems] at hrowRun
  rcases haddr : checkedAddr tok (k.dim 1) head "paged write validation row" with e | i
  · simp [haddr] at hrowRun
  obtain rfl := checkedAddr_eq haddr
  simp only [haddr] at hrowRun
  rcases hkOff : mul 64 (tok * k.dim 1 + head) (k.dim 2) with _ | kOff
  · simp [hkOff] at hrowRun
  rcases hvOff : mul 64 (tok * k.dim 1 + head) (v.dim 2) with _ | vOff
  · simp [hkOff, hvOff] at hrowRun
  obtain ⟨-, rfl⟩ := mul_eq_some.mp hkOff
  obtain ⟨-, rfl⟩ := mul_eq_some.mp hvOff
  simp only [hkOff, hvOff] at hrowRun
  obtain ⟨kBad, hkBad, hrowRun⟩ := Option.bind_eq_some_iff.mp hrowRun
  obtain ⟨vBad, hvBad, hrowRun⟩ := Option.bind_eq_some_iff.mp hrowRun
  have hzero := badRow_eq_nil (Option.some.inj hrowRun)
  obtain ⟨rfl, rfl⟩ : kBad = 0 ∧ vBad = 0 := by omega
  exact ⟨isFinite_of_countBad hkBad hkRow hklen.le, isFinite_of_countBad hvBad hvRow hvlen.le⟩

/-- **What was planned**: the rows of the tokens that have a slot. -/
theorem pagedPlan_ok {plan : List (ℕ × List F32 × List F32)}
    (h : pagedPlan op k v b group c = .ok plan) :
    op.cacheDtype ∈ cacheDtypes ∧ k.dim 1 = c.hkv ∧ k.dim 2 = c.d ∧ v.dim 2 = c.dv ∧
      ∃ rows : ℕ → List F32 × List F32, plan = planOf b group rows ∧
        ∀ tok < b.t, ∀ slot, slotAt b group tok = some slot →
          slot < c.numSlots ∧ PagedRows op k v c tok (rows tok).1 (rows tok).2 := by
  simp only [pagedPlan, bind_eq_ok, lift_eq_ok, orPanic_eq_ok, slotsOrError, okOr_eq_ok] at h
  obtain ⟨finite, hfinite, ⟨⟩, hnone, slots, hslots, hplan⟩ := h
  have hnil := KvError.fromProblems_eq_ok.mp hnone
  simp only [append_eq_nil_iff] at hnil
  obtain ⟨⟨⟨⟨hcommon, -⟩, hdims⟩, rfl⟩, hslotNil⟩ := hnil
  obtain ⟨hk, hv, hdtype, hg, ht⟩ := commonProblems_eq_nil hcommon
  obtain ⟨hmap, hbound⟩ := planSlots_eq hg hslotNil
  obtain rfl := Option.some.inj (hslots.symm.trans hmap)
  rw [pagedDimProblems, if_pos ⟨hk, hv⟩] at hdims
  simp only [append_eq_nil_iff, ite_eq_left_iff, reduceCtorEq, imp_false, not_not] at hdims
  obtain ⟨⟨hhkv, hd⟩, hdv⟩ := hdims
  obtain ⟨rows, rfl, hrows⟩ := planTokens_ok hplan
  refine ⟨hdtype, hhkv, hd, hdv, rows, rfl, fun tok htok slot hslot => ?_⟩
  obtain ⟨hklen, hvlen, hread⟩ := planToken_ok (hrows tok htok (by rw [hslot]; rfl))
  refine ⟨hbound tok htok slot hslot, ⟨by rw [hklen, hhkv, hd], by rw [hvlen, hhkv, hdv]⟩, ?_, ?_,
    ?_⟩
  · rw [← hhkv, ← hd]
    exact fun head hlt => (hread head hlt).1
  · rw [← hhkv, ← hdv]
    exact fun head hlt => (hread head hlt).2
  · intro hquant head hlt
    rw [FiniteHead, ← hd, ← hdv]
    rw [← hhkv] at hlt
    obtain ⟨hkRow, hvRow⟩ := hread head hlt
    refine isFinite_of_pagedFiniteProblems hquant hk hv hfinite (by rwa [ht]) hlt hkRow ?_ hvRow ?_
    · refine length_block ?_
      rw [hklen]
      exact Nat.mul_le_mul_right _ hlt
    · refine length_block ?_
      rw [hvlen]
      exact Nat.mul_le_mul_right _ hlt

end PagedPlan

/-! ### The slots of a paged cache -/

namespace PagedCache

variable (c : PagedCache)

def isWritten (slot : ℕ) : Bool := c.written.getD slot false

/-- What a slot holds, head by head. -/
def slotRows (slot : ℕ) : List HeadRow :=
  (List.range c.hkv).map fun head => c.headRow (slot * c.hkv + head)

def setHeads (slot : ℕ) (rows : ℕ → HeadRow) (heads : List ℕ) : PagedCache :=
  heads.foldl (fun s head => s.setHead (slot * c.hkv + head) (rows head)) c

/-- Sets the rows of a slot and marks it. -/
def setSlot (slot : ℕ) (rows : ℕ → HeadRow) : PagedCache :=
  { c.setHeads slot rows (List.range c.hkv) with written := c.written.set slot true }

/-- Two caches of one geometry and type. -/
structure SameDims (c c' : PagedCache) : Prop where
  numBlocks : c'.numBlocks = c.numBlocks
  hkv : c'.hkv = c.hkv
  d : c'.d = c.d
  dv : c'.dv = c.dv
  dtype : c'.dtype = c.dtype
  numSlots : c'.numSlots = c.numSlots

variable {c} {c' : PagedCache} {slot : ℕ} {rows : ℕ → HeadRow}

theorem SameDims.refl (c : PagedCache) : SameDims c c := ⟨rfl, rfl, rfl, rfl, rfl, rfl⟩

theorem SameDims.trans {c'' : PagedCache} (h : SameDims c c') (h' : SameDims c' c'') :
    SameDims c c'' :=
  ⟨h'.numBlocks.trans h.numBlocks, h'.hkv.trans h.hkv, h'.d.trans h.d, h'.dv.trans h.dv,
    h'.dtype.trans h.dtype, h'.numSlots.trans h.numSlots⟩

theorem SameDims.planned {kFlat vFlat : List F32} (h : SameDims c c')
    (hplan : Planned c kFlat vFlat) : Planned c' kFlat vFlat := by
  constructor
  · rw [h.hkv, h.d]
    exact hplan.k
  · rw [h.hkv, h.dv]
    exact hplan.v

/-- A cache between the stores of the heads of a token. -/
def Between (c s : PagedCache) : Prop := s.Wf ∧ SameDims c s ∧ s.written = c.written

theorem Between.refl (h : c.Wf) : Between c c := ⟨h, .refl c, rfl⟩

theorem setsCells_setHead (hslot : slot < c.numSlots)
    (hrows : ∀ head < c.hkv, (rows head).Fits c.dtype c.d c.dv) :
    SetsCells (Between c) headRow (fun s head => s.setHead (slot * c.hkv + head) (rows head))
      (fun head => slot * c.hkv + head) rows (List.range c.hkv) := by
  rintro head hhead s ⟨hwf, hsame, hwritten⟩
  have hlt := mem_range.mp hhead
  have hspec := setHead_spec (i := slot * c.hkv + head) (r := rows head) hwf
    (by rw [hsame.dtype, hsame.d, hsame.dv]; exact hrows head hlt)
    (by rw [hsame.numSlots, hsame.hkv]; exact index_lt hslot hlt)
  refine ⟨⟨hspec.1, hsame.trans ⟨rfl, rfl, rfl, rfl, rfl, rfl⟩, hwritten⟩, ?_, fun j hj => ?_⟩
  · rw [hspec.2, if_pos rfl]
  · rw [hspec.2, if_neg hj]

/-- **A slot is set**, and the others are as before. -/
theorem setSlot_spec (h : c.Wf) (hslot : slot < c.numSlots)
    (hrows : ∀ head < c.hkv, (rows head).Fits c.dtype c.d c.dv) :
    (c.setSlot slot rows).Wf ∧ SameDims c (c.setSlot slot rows) ∧
      (c.setSlot slot rows).slotRows slot = (List.range c.hkv).map rows ∧
      (c.setSlot slot rows).isWritten slot = true ∧
      ∀ j ≠ slot, (c.setSlot slot rows).slotRows j = c.slotRows j ∧
        (c.setSlot slot rows).isWritten j = c.isWritten j := by
  have hcells := setsCells_setHead hslot hrows
  obtain ⟨hwf, hsame, hwritten⟩ := hcells.preserves (.refl h)
  have hnum : (c.setSlot slot rows).numSlots = c.numSlots := length_set
  have hheads : ∀ j, (c.setSlot slot rows).slotRows j = (List.range c.hkv).map fun head =>
      (c.setHeads slot rows (List.range c.hkv)).headRow (j * c.hkv + head) := fun j => by
    change (List.range (c.setHeads slot rows (List.range c.hkv)).hkv).map _ = _
    have hhkv : (c.setHeads slot rows (List.range c.hkv)).hkv = c.hkv := hsame.hkv
    rw [hhkv]
    refine map_congr_left fun head _ => ?_
    change (c.setHeads slot rows (List.range c.hkv)).headRow
      (j * (c.setHeads slot rows (List.range c.hkv)).hkv + head) = _
    rw [hhkv]
  have hslots : (c.setHeads slot rows (List.range c.hkv)).numSlots = c.numSlots := hsame.numSlots
  refine ⟨?_, ⟨hsame.numBlocks, hsame.hkv, hsame.d, hsame.dv, hsame.dtype, hnum⟩, ?_,
    ?_, fun j hj => ?_⟩
  · have hnum' : (c.setSlot slot rows).numSlots =
        (c.setHeads slot rows (List.range c.hkv)).numSlots :=
      hnum.trans hslots.symm
    constructor
    case dtype_mem => exact hwf.dtype_mem
    case numSlots_pos => exact hnum' ▸ hwf.numSlots_pos
    case hkv_pos => exact hwf.hkv_pos
    case d_pos => exact hwf.d_pos
    case dv_pos => exact hwf.dv_pos
    all_goals rw [hnum']
    case k_lt => exact hwf.k_lt
    case v_lt => exact hwf.v_lt
    case kF16 => exact hwf.kF16
    case vF16 => exact hwf.vF16
    case kI8 => exact hwf.kI8
    case vI8 => exact hwf.vI8
    case kE4m3 => exact hwf.kE4m3
    case vE4m3 => exact hwf.vE4m3
    case kScales => exact hwf.kScales
    case vScales => exact hwf.vScales
  · rw [hheads]
    refine map_congr_left fun head hhead => ?_
    have hlt := mem_range.mp hhead
    -- the heads that follow have other places
    rw [range_split hlt] at hcells ⊢
    refine hcells.get_last (.refl h) fun next hnext => ?_
    have := (mem_range'_1.mp hnext).1
    omega
  · change ((c.written.set slot true)[slot]?).getD false = true
    rw [getElem?_set_self hslot]
    rfl
  · constructor
    · rw [hheads, slotRows]
      refine map_congr_left fun head hhead => ?_
      refine hcells.get_of_forall_ne (.refl h) fun next hnext heq => hj ?_
      -- a place says which slot it is of
      have hdiv := congrArg (· / c.hkv) heq
      simp only [Nat.mul_comm _ c.hkv, Nat.mul_add_div h.hkv_pos,
        Nat.div_eq_of_lt (mem_range.mp hnext), Nat.div_eq_of_lt (mem_range.mp hhead),
        Nat.add_zero] at hdiv
      exact hdiv.symm
    · rw [isWritten, isWritten, getD_eq_getElem?_getD, getD_eq_getElem?_getD]
      change ((c.written.set slot true)[j]?).getD false = _
      rw [getElem?_set_ne (Ne.symm hj)]

end PagedCache

/-! ### The commit of a paged cache -/

section CommitPaged

open PagedCache

variable {op : StateWriteKvOp} {k v : View} {b : BatchMeta} {group : ℕ} {c : PagedCache}
  {tok slot : ℕ} {kFlat vFlat : List F32}

/-- The rows of a token as a cache stores them. -/
def encodedRows (c : PagedCache) (kFlat vFlat : List F32) (head : ℕ) : HeadRow :=
  encodeHead c.dtype (block c.d kFlat head) (block c.dv vFlat head)

theorem commitPaged_eq (hdt : op.cacheDtype ∈ cacheDtypes) (h kd vd : ℕ) :
    commitPaged op h kd vd tok slot kFlat vFlat = (do
      forM (List.range h) fun head => storeHead op.cacheDtype slot head kd vd kFlat vFlat tok
      writtenRegion.store (storeError "cache.written") slot true) := by
  simp only [cacheDtypes, mem_cons, not_mem_nil, or_false] at hdt
  rw [commitPaged]
  rcases hdt with hdt | hdt | hdt <;> simp only [hdt] <;> rfl

theorem encodedRows_fits (h : c.Wf) (hplan : Planned c kFlat vFlat) {head : ℕ}
    (hhead : head < c.hkv) :
    (encodedRows c kFlat vFlat head).Fits c.dtype c.d c.dv := by
  obtain ⟨-, -, -, -, hklen, hvlen⟩ := flat_ok h hhead hplan
  have hfits := encodeHead_fits h.dtype_mem (block c.d kFlat head) (block c.dv vFlat head)
  rwa [hklen, hvlen] at hfits

/-- **The commit of a token** sets its slot, where the cache is of the type. -/
theorem commitPaged_ok (h : c.Wf) (hslot : slot < c.numSlots) (hplan : Planned c kFlat vFlat)
    (hdt : op.cacheDtype = c.dtype)
    (hfinite : IsQuantized c.dtype → ∀ head < c.hkv, FiniteHead c kFlat vFlat head) :
    commitPaged op c.hkv c.d c.dv tok slot kFlat vFlat c =
      .ok () (c.setSlot slot (encodedRows c kFlat vFlat)) := by
  have hcells := setsCells_setHead hslot fun head hhead => encodedRows_fits h hplan hhead
  let heads := c.setHeads slot (encodedRows c kFlat vFlat) (List.range c.hkv)
  have hloop : forM (List.range c.hkv)
      (fun head => storeHead c.dtype slot head c.d c.dv kFlat vFlat tok) c = .ok () heads ∧
      Between c heads := by
    refine forM_ok (Between.refl h) ?_
    rintro head hhead s ⟨hwf, hsame, hwritten⟩
    have hlt := mem_range.mp hhead
    refine ⟨?_, (hcells head hhead s ⟨hwf, hsame, hwritten⟩).1⟩
    have hrun := storeHead_ok hwf (hsame.numSlots.symm ▸ hslot) (hsame.hkv.symm ▸ hlt)
      (hsame.planned hplan) tok
      (fun he => by
        rw [FiniteHead, hsame.d, hsame.dv]
        refine hfinite ?_ head hlt
        rw [← hsame.dtype, he, IsQuantized]
        decide)
    rwa [hsame.dtype, hsame.d, hsame.dv, hsame.hkv] at hrun
  obtain ⟨hrun, -, -, hwritten⟩ := hloop
  have hmark : writtenRegion.store (storeError "cache.written") slot true heads =
      .ok () (writtenRegion.set heads (heads.written.set slot true)) :=
    if_pos (show slot < heads.written.length by rw [hwritten]; exact hslot)
  rw [commitPaged_eq (hdt ▸ h.dtype_mem), hdt, bind_ok hrun, hmark, hwritten]
  rfl

variable (tok) in
/-- **The commit of a token fails** at its first store, where the cache is of another type. -/
theorem commitPaged_error (h : c.Wf) (hslot : slot < c.numSlots) (hplan : Planned c kFlat vFlat)
    (hmem : op.cacheDtype ∈ cacheDtypes) (hdt : op.cacheDtype ≠ c.dtype)
    (hfinite : IsQuantized op.cacheDtype → ∀ head < c.hkv, FiniteHead c kFlat vFlat head) :
    ∃ e, commitPaged op c.hkv c.d c.dv tok slot kFlat vFlat c = .error e c := by
  obtain ⟨e, he⟩ := storeHead_error h hslot h.hkv_pos hplan tok hmem (Ne.symm hdt) fun heq =>
    hfinite (by rw [heq, IsQuantized]; decide) 0 h.hkv_pos
  obtain ⟨n, hn⟩ : ∃ n, c.hkv = n + 1 := ⟨c.hkv - 1, by have := h.hkv_pos; omega⟩
  refine ⟨e, ?_⟩
  rw [commitPaged_eq hmem]
  refine bind_error ?_
  rw [hn, range_succ_eq_map]
  exact forM_cons_error he

end CommitPaged

/-! ### Plans of either cache -/

section Plan

variable {σ ρ : Type} {P : σ → Prop} {get : σ → ℕ → ρ} {put : σ → ℕ × List F32 × List F32 → σ}
  {val : ℕ × List F32 × List F32 → ρ} {s : σ} {b : BatchMeta} {group : ℕ}

variable {rows : ℕ → List F32 × List F32}

theorem mem_planOf {w : ℕ × List F32 × List F32} : w ∈ planOf b group rows ↔
    ∃ tok < b.t, slotAt b group tok = some w.1 ∧ w.2 = rows tok := by
  rw [planOf, mem_filterMap]
  constructor
  · rintro ⟨tok, htok, h⟩
    obtain ⟨i, hi, rfl⟩ := Option.map_eq_some_iff.mp h
    exact ⟨tok, mem_range.mp htok, hi, rfl⟩
  · rintro ⟨tok, htok, hslot, hrows⟩
    refine ⟨tok, mem_range.mpr htok, ?_⟩
    rw [hslot, Option.map_some, ← hrows]

/-- **What the slots hold after a plan**: the rows of their last tokens, or what they held. -/
theorem foldl_planOf (h : SetsCells P get put Prod.fst val (planOf b group rows)) (hs : P s) :
    (∀ slot, (∀ tok < b.t, slotAt b group tok ≠ some slot) →
      get ((planOf b group rows).foldl put s) slot = get s slot) ∧
      ∀ tok slot, IsLast b group tok slot →
        get ((planOf b group rows).foldl put s) slot = val (slot, rows tok) := by
  constructor
  · intro slot hnone
    refine h.get_of_forall_ne hs fun w hw heq => ?_
    obtain ⟨tok, htok, hslot, -⟩ := mem_planOf.mp hw
    exact hnone tok htok (by rw [hslot, heq])
  · rintro tok slot ⟨htok, hslot, hlast⟩
    have hsplit : planOf b group rows =
        (List.range tok).filterMap (fun tok => (slotAt b group tok).map fun i => (i, rows tok)) ++
          (slot, rows tok) :: (List.range' (tok + 1) (b.t - (tok + 1))).filterMap
            fun tok => (slotAt b group tok).map fun i => (i, rows tok) := by
      rw [planOf, range_split htok, filterMap_append, filterMap_cons, hslot,
        Option.map_some]
    rw [hsplit] at h ⊢
    refine h.get_last (a := (slot, rows tok)) hs fun w hw heq => ?_
    obtain ⟨next, hnext, hmap⟩ := mem_filterMap.mp hw
    obtain ⟨i, hi, rfl⟩ := Option.map_eq_some_iff.mp hmap
    obtain ⟨hlow, hhigh⟩ := mem_range'_1.mp hnext
    exact hlast next (by omega) (by omega) (hi.trans (congrArg some heq))

theorem forM_zipIdx_ok {ε : Type} {plan : List (ℕ × List F32 × List F32)}
    {f : (ℕ × List F32 × List F32) × ℕ → EStateM ε σ PUnit} (hs : P s)
    (h : ∀ w ∈ plan, ∀ i s, P s → f (w, i) s = .ok () (put s w) ∧ P (put s w)) :
    forM plan.zipIdx f s = .ok () (plan.foldl put s) := by
  have hloop : forM plan.zipIdx f s = .ok () (plan.zipIdx.foldl (fun s x => put s x.1) s) :=
    (forM_ok hs fun x hx s hP => h x.1 (fst_mem_of_mem_zipIdx hx) x.2 s hP).1
  rw [hloop, ← foldl_map, zipIdx_map_fst]

end Plan

/-! ### The writes of a paged cache -/

section WritePaged

open PagedCache

variable {op : StateWriteKvOp} {k v : View} {b : BatchMeta} {group : ℕ} {c c' : PagedCache}

/-- What a slot of a cache holds, and whether it was written. -/
def PagedCache.slotState (c : PagedCache) (slot : ℕ) : List HeadRow × Bool :=
  (c.slotRows slot, c.isWritten slot)

/-- Stores a row that was planned. -/
def PagedCache.storePlanned (c : PagedCache) (w : ℕ × List F32 × List F32) : PagedCache :=
  c.setSlot w.1 (encodedRows c w.2.1 w.2.2)

/-- The tokens of a step can be written to a cache. -/
def WritesPaged (op : StateWriteKvOp) (k v : View) (b : BatchMeta) (group : ℕ) (c : PagedCache)
    (rows : ℕ → List F32 × List F32) : Prop :=
  ∀ tok < b.t, ∀ slot, slotAt b group tok = some slot →
    slot < c.numSlots ∧ op.cacheDtype = c.dtype ∧ PagedRows op k v c tok (rows tok).1 (rows tok).2

/-- A cache between the stores of the tokens. -/
def Writing (c s : PagedCache) : Prop := s.Wf ∧ SameDims c s

theorem encodedRows_congr {s : PagedCache} (h : SameDims c s) : encodedRows s = encodedRows c := by
  funext kFlat vFlat head
  rw [encodedRows, encodedRows, h.d, h.dv, h.dtype]

theorem setsCells_storePlanned {rows : ℕ → List F32 × List F32}
    (hrows : WritesPaged op k v b group c rows) :
    SetsCells (Writing c) slotState storePlanned Prod.fst
      (fun w => ((List.range c.hkv).map (encodedRows c w.2.1 w.2.2), true))
      (planOf b group rows) := by
  rintro w hw s ⟨hwf, hsame⟩
  obtain ⟨tok, htok, hslot, hw⟩ := mem_planOf.mp hw
  obtain ⟨hlt, -, hplan⟩ := hrows tok htok _ hslot
  rw [← hw] at hplan
  have hplanned := hsame.planned hplan.planned
  obtain ⟨hwf', hsame', hrow, hmark, hother⟩ := setSlot_spec hwf (hsame.numSlots.symm ▸ hlt)
    fun head hhead => encodedRows_fits hwf hplanned hhead
  refine ⟨⟨hwf', hsame.trans hsame'⟩, ?_, fun j hj => ?_⟩
  · change ((s.setSlot w.1 _).slotRows w.1, (s.setSlot w.1 _).isWritten w.1) = _
    rw [hrow, hmark, hsame.hkv, encodedRows_congr hsame]
  · change ((s.setSlot w.1 _).slotRows j, (s.setSlot w.1 _).isWritten j) = _
    rw [(hother j hj).1, (hother j hj).2]
    rfl

variable (op k v b group) in
/-- **The run of a write**: it leaves the cache as it is, or it stores the rows of all tokens. -/
theorem stateWriteKvPaged_run (h : c.Wf) :
    (∃ e, stateWriteKvPaged op k v b group c = .error e c) ∨
      ∃ rows, WritesPaged op k v b group c rows ∧
        stateWriteKvPaged op k v b group c =
          .ok () ((planOf b group rows).foldl storePlanned c) := by
  rcases hplan : pagedPlan op k v b group c with e | plan
  · exact .inl ⟨e, bind_error (planning_error hplan)⟩
  have hread := planning_ok hplan
  obtain ⟨hdtype, hhkv, hd, hdv, rows, rfl, hrows⟩ := pagedPlan_ok hplan
  by_cases hdt : op.cacheDtype = c.dtype
  · have hwrites : WritesPaged op k v b group c rows := fun tok htok slot hslot =>
      ⟨(hrows tok htok slot hslot).1, hdt, (hrows tok htok slot hslot).2⟩
    refine .inr ⟨rows, hwrites, ?_⟩
    rw [stateWriteKvPaged, bind_ok hread]
    refine forM_zipIdx_ok (P := Writing c) ⟨h, .refl c⟩ ?_
    rintro w hw i s ⟨hwf, hsame⟩
    refine ⟨?_, (setsCells_storePlanned hwrites w hw s ⟨hwf, hsame⟩).1⟩
    obtain ⟨tok, htok, hslot, hw⟩ := mem_planOf.mp hw
    obtain ⟨hlt, hplan⟩ := hrows tok htok _ hslot
    rw [← hw] at hplan
    rw [hhkv, hd, hdv, ← hsame.hkv, ← hsame.d, ← hsame.dv]
    refine commitPaged_ok hwf (hsame.numSlots.symm ▸ hlt) (hsame.planned hplan.planned)
      (hdt.trans hsame.dtype.symm) ?_
    intro hquant head hhead
    rw [FiniteHead, hsame.d, hsame.dv]
    rw [hsame.dtype, ← hdt] at hquant
    exact hplan.finite hquant head (hsame.hkv ▸ hhead)
  · rcases hnil : planOf b group rows with _ | ⟨w, plan⟩
    · -- nothing is written
      refine .inr ⟨rows, fun tok htok slot hslot => ?_, ?_⟩
      · have hmem : (slot, rows tok) ∈ planOf b group rows := mem_planOf.mpr ⟨tok, htok, hslot, rfl⟩
        rw [hnil] at hmem
        cases hmem
      · rw [stateWriteKvPaged, bind_ok hread, hnil]
        rfl
    · have hmem : w ∈ planOf b group rows := hnil ▸ mem_cons_self
      obtain ⟨tok, htok, hslot, hw⟩ := mem_planOf.mp hmem
      obtain ⟨hlt, hplan⟩ := hrows tok htok _ hslot
      rw [← hw] at hplan
      obtain ⟨e, he⟩ := commitPaged_error 0 h hlt hplan.planned hdtype hdt hplan.finite
      refine .inl ⟨e, ?_⟩
      rw [stateWriteKvPaged, bind_ok hread, hnil, zipIdx_cons, hhkv, hd, hdv]
      exact forM_cons_error he

end WritePaged

end R9v.Kv

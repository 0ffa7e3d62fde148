import R9v.State.Batch
import R9v.State.Runs
import Mathlib

/-!
# Planning and emitting a batch

When a batch is planned (`planBatch_eq_ok`), and that on a manager that satisfies
the invariant the emission of a planned batch succeeds, with tensors of the
declared shapes (`emitBatchInto_ok`). The checks inside the emission are never the
ones that refuse a batch.
-/

namespace R9v

open Checked StateManager List

/-! ### The plan -/

/-- A sequence of a batch is live, and its reservation covers its query. -/
def Covers (m : StateManager) (k : SeqId) (q : ℕ) : Prop :=
  ∃ s, m.seqs[k]? = some s ∧ 1 ≤ q ∧ q ≤ s.tailLen

/-- **When a batch can be planned**: the queries are one for each of some distinct
live sequences, each is covered by a reservation, and they are not too many tokens
together. -/
structure Plannable (m : StateManager) (seqs : List SeqId) (queryLens : List ℕ) : Prop where
  length_eq : seqs.length = queryLens.length
  ne_nil : seqs ≠ []
  nodup : seqs.Nodup
  covers : ∀ x ∈ seqs.zip queryLens, Covers m x.1 x.2
  total_le : queryLens.sum ≤ maxBatchTokensHard

section Plan

variable {H : SeqId → ℕ} {m : StateManager} {seqs : List SeqId} {queryLens : List ℕ}

theorem planDuplicates_eq_nil : planDuplicates seqs = [] ↔ seqs.Nodup := by
  rw [nodup_iff_take, planDuplicates, flatMap_eq_nil_iff]
  simp

/-- One row of the plan finds nothing wrong exactly when the sequence is covered and
the total does not wrap. -/
theorem planRow_eq_nil (h : Inv H m) {acc : List String × ℕ} {x : (SeqId × ℕ) × ℕ} :
    (planRow m acc x).1 = [] ↔
      acc.1 = [] ∧ Covers m x.1.1 x.1.2 ∧ acc.2 + x.1.2 < 2 ^ 64 := by
  obtain ⟨⟨k, q⟩, i⟩ := x
  rcases hs : m.seqs[k]? with _ | s
  · simp [planRow, StateManager.seq, hs, Covers]
  · have hstop : q ≤ s.tailLen → add 32 s.ctxLen q = some (s.ctxLen + q) ∧
        s.ctxLen + q ≤ m.config.maxCtx := fun hle => by
      have h₁ := h.stop_lt hs
      have h₂ := (h.seqs k s hs).tail_le
      have h₃ := (h.seqs k s hs).high_le
      exact ⟨add_of_lt (by omega), by omega⟩
    simp only [planRow, StateManager.seq, hs, okOr_some, Covers, Option.some.injEq,
      exists_eq_left']
    by_cases hq : q = 0 ∨ s.tailLen < q
    · split <;> simp <;> omega
    · obtain ⟨hadd, hle⟩ := hstop (by omega)
      rw [if_neg hq, hadd]
      simp only [if_pos hle]
      rcases hsum : add 64 acc.2 q with _ | next
      · have hno : ¬acc.2 + q < 2 ^ 64 := fun hlt => by
          rw [add_of_lt hlt] at hsum
          simp at hsum
        simp only [append_assoc, append_eq_nil_iff, cons_ne_self, and_false]
        tauto
      · obtain ⟨hlt, -⟩ := add_eq_some.mp hsum
        simp only [append_nil]
        exact ⟨fun h => ⟨h, by omega, hlt⟩, fun h => h.1⟩

theorem planRow_snd {acc : List String × ℕ} {x : (SeqId × ℕ) × ℕ} (hc : Covers m x.1.1 x.1.2)
    (hlt : acc.2 + x.1.2 < 2 ^ 64) : (planRow m acc x).2 = acc.2 + x.1.2 := by
  obtain ⟨⟨k, q⟩, i⟩ := x
  obtain ⟨s, hs, -⟩ := hc
  simp only [planRow, StateManager.seq, hs, okOr_some, add_of_lt hlt]

theorem planRows_eq_nil (h : Inv H m) {l : List ((SeqId × ℕ) × ℕ)} {acc : List String × ℕ}
    (hacc : acc.2 < 2 ^ 64) :
    ((l.foldl (planRow m) acc).1 = [] ↔ acc.1 = [] ∧ (∀ x ∈ l, Covers m x.1.1 x.1.2) ∧
      acc.2 + (l.map (·.1.2)).sum < 2 ^ 64) ∧
    ((l.foldl (planRow m) acc).1 = [] →
      (l.foldl (planRow m) acc).2 = acc.2 + (l.map (·.1.2)).sum) := by
  induction l generalizing acc with
  | nil => simpa using fun _ => hacc
  | cons x l ih =>
    simp only [foldl_cons, forall_mem_cons, map_cons, sum_cons]
    by_cases hx : (planRow m acc x).1 = []
    · obtain ⟨hnil, hc, hlt⟩ := (planRow_eq_nil h).mp hx
      have hsnd := planRow_snd hc hlt
      obtain ⟨h₁, h₂⟩ := @ih (planRow m acc x) (by omega)
      rw [hsnd] at h₁ h₂
      refine ⟨?_, fun h => by rw [h₂ h, Nat.add_assoc]⟩
      rw [h₁, Nat.add_assoc]
      tauto
    · have hkeep : ∀ (l : List ((SeqId × ℕ) × ℕ)) acc, (acc : List String × ℕ).1 ≠ [] →
          (l.foldl (planRow m) acc).1 ≠ [] := by
        intro l
        induction l with
        | nil => exact fun acc h => h
        | cons y l ih => exact fun acc hne => ih _ fun hy => hne ((planRow_eq_nil h).mp hy).1
      have hne := hkeep l _ hx
      refine ⟨⟨fun h => absurd h hne, fun ⟨h₁, h₂, h₃⟩ => absurd ?_ hx⟩, fun h => absurd h hne⟩
      exact (planRow_eq_nil h).mpr ⟨h₁, h₂.1, by omega⟩

theorem Plannable.exists_seq (hp : Plannable m seqs queryLens) {k : SeqId} (hk : k ∈ seqs) :
    ∃ s, m.seqs[k]? = some s := by
  obtain ⟨i, hi, rfl⟩ := getElem_of_mem hk
  have hi' : i < queryLens.length := hp.length_eq ▸ hi
  have hmem : (seqs[i], queryLens[i]) ∈ seqs.zip queryLens :=
    mem_iff_getElem.mpr ⟨i, by simp [hi, hi'], by simp⟩
  obtain ⟨s, hs, -⟩ := hp.covers _ hmem
  exact ⟨s, hs⟩

theorem optional_eq_nil (o : Option ℕ) (total : ℕ) (f : ℕ → String) :
    (match o with
      | some n => if n ≠ total then [f n] else []
      | none => []) = [] ↔ ∀ n, o = some n → n = total := by
  cases o <;> simp

/-- **The specification of `planBatch`.** -/
theorem planBatch_eq_ok (h : Inv H m) {positionsLen treeT : Option ℕ} {plan : BatchPlan} :
    m.planBatch seqs queryLens positionsLen treeT = .ok plan ↔
      Plannable m seqs queryLens ∧ (∀ n, positionsLen = some n → n = queryLens.sum) ∧
        (∀ n, treeT = some n → n = queryLens.sum) ∧ plan = ⟨queryLens.sum, queryLens.sum⟩ := by
  have hsum : seqs.length = queryLens.length →
      (seqs.zip queryLens).zipIdx.map (fun x => x.1.2) = queryLens := fun hlen => by
    change (seqs.zip queryLens).zipIdx.map (Prod.snd ∘ Prod.fst) = queryLens
    rw [← map_map, zipIdx_map_fst]
    exact map_snd_zip (le_of_eq hlen.symm)
  have hcover : (∀ x ∈ (seqs.zip queryLens).zipIdx, Covers m x.1.1 x.1.2) ↔
      ∀ x ∈ seqs.zip queryLens, Covers m x.1 x.2 := by
    constructor
    · intro hx x hmem
      obtain ⟨i, hi, rfl⟩ := getElem_of_mem hmem
      exact hx (_, i) (mem_zipIdx_iff_getElem?.mpr (getElem?_eq_getElem hi))
    · rintro hx ⟨x, i⟩ hmem
      exact hx x (mem_of_getElem? (mem_zipIdx_iff_getElem?.mp hmem))
  have hacc : ((planDuplicates seqs, 0) : List String × ℕ).2 < 2 ^ 64 := by norm_num
  obtain ⟨hnil, hsnd⟩ := planRows_eq_nil h (l := (seqs.zip queryLens).zipIdx) hacc
  simp only [planBatch, bind_eq_ok, ensure_eq_ok, okOr_eq_ok, narrow_eq_some, pure_eq_ok]
  generalize hr : (seqs.zip queryLens).zipIdx.foldl m.planRow (planDuplicates seqs, 0) = r at *
  obtain ⟨problems, total⟩ := r
  simp only [planDuplicates_eq_nil, hcover, Nat.zero_add] at hnil hsnd
  simp only [append_eq_nil_iff]
  constructor
  · rintro ⟨_, hlen, _, hne, _, -, _, ⟨-, rfl⟩, _, ⟨⟨⟨hp, hcap⟩, hpos⟩, htree⟩, rfl⟩
    obtain ⟨hnd, hc, -⟩ := hnil.mp hp
    obtain rfl : total = queryLens.sum := by rw [hsnd hp, hsum hlen]
    exact ⟨⟨hlen, hne, hnd, hc, by simpa using hcap⟩, (optional_eq_nil _ _ _).mp hpos, (optional_eq_nil _ _ _).mp htree,
      rfl⟩
  · rintro ⟨hplan, hpos, htree, rfl⟩
    have htotal := hplan.total_le
    simp only [maxBatchTokensHard] at htotal
    have hp : problems = [] :=
      hnil.mpr ⟨hplan.nodup, hplan.covers, by rw [hsum hplan.length_eq]; omega⟩
    obtain rfl : total = queryLens.sum := by rw [hsnd hp, hsum hplan.length_eq]
    refine ⟨(), hplan.length_eq, (), hplan.ne_nil, (), forM_eq_ok.mpr fun k hk => ?_, _,
      ⟨by omega, rfl⟩, (), ⟨⟨⟨hp, by simpa [maxBatchTokensHard] using htotal⟩, (optional_eq_nil _ _ _).mpr hpos⟩,
        (optional_eq_nil _ _ _).mpr htree⟩, rfl⟩
    obtain ⟨s, hs⟩ := hplan.exists_seq hk
    have h₁ := h.ids_lt k s hs
    have h₂ := h.ids_le
    exact ensure_of (by simp only [u32Max]; omega)

end Plan

/-! ### The shapes -/

section Shapes

variable {H : SeqId → ℕ} {m : StateManager} {seqs : List SeqId} {queryLens : List ℕ}

theorem Plannable.query_pos (hp : Plannable m seqs queryLens) {q : ℕ} (hq : q ∈ queryLens) :
    1 ≤ q := by
  obtain ⟨i, hi, rfl⟩ := getElem_of_mem hq
  have hi' : i < seqs.length := hp.length_eq ▸ hi
  have hmem : (seqs[i], queryLens[i]) ∈ seqs.zip queryLens :=
    mem_iff_getElem.mpr ⟨i, by simp [hi, hi'], by simp⟩
  obtain ⟨s, -, hpos, -⟩ := hp.covers _ hmem
  exact hpos

theorem Plannable.length_le (hp : Plannable m seqs queryLens) : seqs.length ≤ queryLens.sum := by
  rw [hp.length_eq]
  exact length_le_sum_of_one_le queryLens fun q hq => hp.query_pos hq

theorem Plannable.bounds (h : Inv H m) (hp : Plannable m seqs queryLens) :
    m.groups.length ≤ 16 ∧ m.maxBlocks ≤ 2 ^ 15 ∧ 1 ≤ m.maxBlocks ∧ queryLens.sum ≤ 2 ^ 20 ∧
      seqs.length ≤ 2 ^ 20 ∧ 1 ≤ seqs.length := by
  have h₁ := h.shape.groups.length_le
  have h₂ := h.shape.config.maxCtx_le
  have h₃ := h.shape.config.maxBlocks_mul
  have h₄ := hp.total_le
  have h₅ := hp.length_le
  have h₆ := h.shape.config.maxCtx_pos
  rw [← h.shape.maxBlocks_eq] at h₃
  simp only [maxGroupsHard, maxCtxHard, maxBatchTokensHard] at h₁ h₂ h₄
  exact ⟨h₁, by omega, by omega, h₄, by omega, length_pos_iff.mpr hp.ne_nil⟩

theorem batchNeeds_eq (h : Inv H m) (hp : Plannable m seqs queryLens) :
    m.batchNeeds seqs.length queryLens.sum = .ok (m.groups.length * queryLens.sum,
      m.groups.length * seqs.length * m.maxBlocks, m.groups.length * seqs.length) := by
  obtain ⟨hg, hb, -, ht, hs, -⟩ := hp.bounds h
  have h₁ : m.groups.length * queryLens.sum ≤ 16 * 2 ^ 20 := Nat.mul_le_mul hg ht
  have h₂ : m.groups.length * seqs.length ≤ 16 * 2 ^ 20 := Nat.mul_le_mul hg hs
  have h₃ : m.groups.length * seqs.length * m.maxBlocks ≤ 16 * 2 ^ 20 * 2 ^ 15 :=
    Nat.mul_le_mul h₂ hb
  simp only [batchNeeds, mul_of_lt (show m.groups.length * queryLens.sum < 2 ^ 64 by omega),
    narrow_of_lt (show m.maxBlocks < 2 ^ 64 by omega),
    mul_of_lt (show m.groups.length * seqs.length < 2 ^ 64 by omega), Option.bind_some,
    mul_of_lt (show m.groups.length * seqs.length * m.maxBlocks < 2 ^ 64 by omega), okOr_some,
    ok_bind]
  rfl

end Shapes

/-! ### The emission -/

section Emit

variable {H : SeqId → ℕ} {m : StateManager} {seqs : List SeqId} {queryLens : List ℕ} {k : SeqId}
  {s : SeqState} {gi : ℕ} {g : LayerGroup}

/-- **Every position of a reservation has a slot** in every paged group: its block,
and its lane in the block. -/
theorem flattenSlot_eq (h : Inv H m) (hs : m.seqs[k]? = some s) (hg : m.groups[gi]? = some g)
    (hp : g.spec.isPaged = true) {pos : ℕ} (hctx : s.ctxLen ≤ pos)
    (hpos : pos < s.ctxLen + s.tailLen) (stop : ℕ) :
    ∃ i id : ℕ, (s.held gi)[i]? = some (pos / 32) ∧ (s.table gi)[i]? = some id ∧
      flattenSlot s gi pos stop = .ok (id * 32 + pos % 32) := by
  obtain ⟨r, hr⟩ := StateSpec.exists_retain hp
  have hinv := h.seqs k s hs
  have hlt : gi < m.groups.length := (List.getElem?_eq_some_iff.mp hg).1
  have hheld : pos / 32 ∈ s.held gi := by
    refine (hinv.retained gi g r hg hr _).mpr ⟨?_, fun hev => ?_⟩
    · have := hinv.tail_le
      omega
    · have := hev.lt
      omega
  have hat := (Sorted.getElem?_partitionPoint (hinv.ascending gi)).mpr hheld
  have hlen := (List.getElem?_eq_some_iff.mp hat).1
  rw [hinv.aligned gi] at hlen
  obtain ⟨id, hid⟩ : ∃ id, (s.table gi)[Sorted.partitionPoint (fun x => decide (x < pos / 32))
      (s.held gi)]? = some id := ⟨_, List.getElem?_eq_getElem hlen⟩
  refine ⟨_, id, hat, hid, ?_⟩
  have hbound : id ≤ 134217726 := by
    obtain ⟨-, p, hpool, hle⟩ := h.shape.paged gi g hg hp
    have := (h.cell_ok hs hpool).lt_total id (List.mem_append_right _ (List.mem_of_getElem? hid))
    simp only [maxSlotBlocks] at hle this
    omega
  rw [show (32 : ℕ) = blockTokens from rfl] at hat hid
  simp only [flattenSlot, SeqState.getElem?_indices (hinv.indices_length ▸ hlt),
    SeqState.getElem?_tables (hinv.tables_length ▸ hlt), okOr_some, ok_bind, ensure_of hat, hid]
  simp only [blockTokens, mul_of_lt (show id * 32 < 2 ^ 64 by omega), Option.bind_some,
    add_of_lt (show id * 32 + pos % 32 < 2 ^ 64 by omega),
    narrow_of_lt (show id * 32 + pos % 32 < 2 ^ 32 by omega), okOr_some]

theorem emitSlots_ok (h : Inv H m) (hg : m.groups[gi]? = some g) (hp : g.spec.isPaged = true)
    {q : ℕ} (hc : Covers m k q) : ∃ slots, m.emitSlots gi (k, q) = .ok slots ∧ slots.length = q := by
  obtain ⟨s, hs, hpos, hle⟩ := hc
  have hstop := h.stop_lt hs
  have hrow : ∀ i ∈ List.range q, ∃ v, (do
      let pos ← okOr (add 32 s.ctxLen i) (.overflow "batch position")
      flattenSlot s gi pos (s.ctxLen + q) : StateResult ℕ) = .ok v := by
    intro i hi
    have hi := mem_range.mp hi
    have hlt : s.ctxLen + i < s.ctxLen + s.tailLen := by omega
    obtain ⟨_, id, -, -, hslot⟩ :=
      flattenSlot_eq h hs hg hp (Nat.le_add_right _ _) hlt (s.ctxLen + q)
    exact ⟨_, by rw [add_of_lt (by omega), okOr_some, ok_bind, hslot]⟩
  obtain ⟨slots, hslots, hlen⟩ := exists_mapM_ok hrow
  refine ⟨slots, ?_, by simpa using hlen⟩
  simp only [emitSlots, batchSeq, hs, okOr_some, ok_bind,
    add_of_lt (show s.ctxLen + q < 2 ^ 32 by omega)]
  exact hslots

theorem emitGroupSlots_ok (h : Inv H m) (hplan : Plannable m seqs queryLens)
    (hg : m.groups[gi]? = some g) :
    ∃ slots, m.emitGroupSlots seqs queryLens queryLens.sum (g, gi) = .ok slots ∧
      slots.length = queryLens.sum := by
  unfold emitGroupSlots
  by_cases hp : g.spec.isPaged = true
  · have hrows : ∃ rows, (seqs.zip queryLens).mapM (m.emitSlots gi) = .ok rows ∧
        rows.map List.length = (seqs.zip queryLens).map (·.2) := by
      have hc := hplan.covers
      revert hc
      generalize seqs.zip queryLens = l
      intro hc
      induction l with
      | nil => exact ⟨[], rfl, rfl⟩
      | cons x l ih =>
        obtain ⟨hx, hl⟩ := forall_mem_cons.mp hc
        obtain ⟨slots, hslots, hlen⟩ := emitSlots_ok h hg hp hx
        obtain ⟨rows, hrows, hlens⟩ := ih hl
        refine ⟨slots :: rows, ?_, by simp [hlen, hlens]⟩
        rw [mapM_cons, show m.emitSlots gi x = .ok slots from hslots, ok_bind, hrows, ok_bind]
        rfl
    obtain ⟨rows, hrows, hlens⟩ := hrows
    refine ⟨rows.flatten, by simp [hp, hrows, Functor.map, Except.map], ?_⟩
    rw [length_flatten, hlens, map_snd_zip (le_of_eq hplan.length_eq.symm)]
  · exact ⟨List.replicate queryLens.sum slotNone, by simp [hp, pure, Except.pure], by simp⟩

theorem blockCell_eq {groups count si maxB idx : ℕ} (hgi : gi < groups) (hsi : si < count)
    (hidx : idx < maxB) (hlt : groups * count * maxB < 2 ^ 64) :
    ∃ cell, blockCell gi count si maxB idx = some cell ∧ cell < groups * count * maxB := by
  have h₁ : gi * count + si < groups * count :=
    calc gi * count + si
      _ < gi * count + count := by omega
      _ = (gi + 1) * count := (Nat.succ_mul gi count).symm
      _ ≤ groups * count := Nat.mul_le_mul_right _ hgi
  have h₂ : (gi * count + si) * maxB + idx < groups * count * maxB :=
    calc (gi * count + si) * maxB + idx
      _ < (gi * count + si) * maxB + maxB := by omega
      _ = (gi * count + si + 1) * maxB := (Nat.succ_mul _ maxB).symm
      _ ≤ groups * count * maxB := Nat.mul_le_mul_right _ h₁
  have h₃ : gi * count + si ≤ groups * count * maxB :=
    h₁.le.trans (Nat.le_mul_of_pos_right _ (by omega))
  refine ⟨(gi * count + si) * maxB + idx, ?_, h₂⟩
  simp only [blockCell, mul_of_lt (show gi * count < 2 ^ 64 by omega), Option.bind_eq_bind,
    Option.bind_some, add_of_lt (show gi * count + si < 2 ^ 64 by omega),
    mul_of_lt (show (gi * count + si) * maxB < 2 ^ 64 by omega),
    add_of_lt (show (gi * count + si) * maxB + idx < 2 ^ 64 by omega)]

theorem emitBlocks_ok (h : Inv H m) (hs : m.seqs[k]? = some s) (hg : m.groups[gi]? = some g)
    {count si : ℕ} {table : List ℕ} (hsi : si < count)
    (hlt : m.groups.length * count * m.maxBlocks < 2 ^ 64)
    (hlen : table.length = m.groups.length * count * m.maxBlocks) :
    ∃ table', emitBlocks s k g gi count si m.maxBlocks table = .ok table' ∧
      table'.length = m.groups.length * count * m.maxBlocks := by
  have hgi : gi < m.groups.length := (List.getElem?_eq_some_iff.mp hg).1
  have hinv := h.seqs k s hs
  unfold emitBlocks
  by_cases hp : g.spec.isPaged = true
  · simp only [hp, if_true, SeqState.getElem?_indices (hinv.indices_length ▸ hgi),
      SeqState.getElem?_tables (hinv.tables_length ▸ hgi), okOr_some, ok_bind]
    refine exists_foldlM_ok
      (P := fun _ (t : List ℕ) => t.length = m.groups.length * count * m.maxBlocks) (n := 0) hlen ?_
    rintro _ t ht ⟨idx, i⟩ hx
    have hidx := mem_zipIdx_iff_getElem?.mp hx
    have hi : i < (s.table gi).length :=
      hinv.aligned gi ▸ (List.getElem?_eq_some_iff.mp hidx).1
    have hmax : idx < m.maxBlocks := by
      obtain ⟨r, hr⟩ := StateSpec.exists_retain hp
      have hmem := ((hinv.retained gi g r hg hr idx).mp (mem_of_getElem? hidx)).1
      have h₁ := hinv.high_le
      have h₂ := h.shape.config.maxBlocks_mul
      rw [h.shape.maxBlocks_eq]
      omega
    obtain ⟨cell, hcell, hin⟩ := blockCell_eq hgi hsi hmax hlt
    refine ⟨t.set cell (s.table gi)[i], ?_, by rw [length_set, ht]⟩
    simp only [emitBlock, getElem?_eq_getElem hi, okOr_some, ok_bind, ensure_of hmax, hcell,
      ensure_of (show cell < t.length by rw [ht]; exact hin)]
    rfl
  · exact ⟨table, by simp [hp, pure, Except.pure], hlen⟩

theorem emitGroup_ok (h : Inv H m) (hplan : Plannable m seqs queryLens)
    (hg : m.groups[gi]? = some g) {n : ℕ} {acc : List ℕ × List ℕ × List ℕ}
    (h₁ : acc.1.length = n * queryLens.sum)
    (h₂ : acc.2.1.length = m.groups.length * seqs.length * m.maxBlocks)
    (h₃ : acc.2.2.length = n * seqs.length) :
    ∃ acc', m.emitGroup seqs queryLens queryLens.sum m.maxBlocks acc (g, gi) = .ok acc' ∧
      acc'.1.length = (n + 1) * queryLens.sum ∧
      acc'.2.1.length = m.groups.length * seqs.length * m.maxBlocks ∧
      acc'.2.2.length = (n + 1) * seqs.length := by
  have hlt : m.groups.length * seqs.length * m.maxBlocks < 2 ^ 64 := by
    obtain ⟨b₁, b₂, -, -, b₅, -⟩ := hplan.bounds h
    have := Nat.mul_le_mul (Nat.mul_le_mul b₁ b₅) b₂
    omega
  obtain ⟨slots, hslots, hslen⟩ := emitGroupSlots_ok h hplan hg
  obtain ⟨rows, hrows, hr₁, hr₂⟩ := exists_foldlM_ok (l := seqs.zipIdx)
    (f := m.emitRow g gi seqs.length m.maxBlocks) (b := (acc.2.1, acc.2.2))
    (P := fun i r => r.1.length = m.groups.length * seqs.length * m.maxBlocks ∧
      r.2.length = n * seqs.length + i) (n := 0) ⟨h₂, h₃⟩ <| by
    rintro i ⟨table, windows⟩ ⟨ht, hw⟩ ⟨k, si⟩ hx
    have hk := mem_zipIdx_iff_getElem?.mp hx
    obtain ⟨s, hs⟩ := hplan.exists_seq (mem_of_getElem? hk)
    have hsi : si < seqs.length := (List.getElem?_eq_some_iff.mp hk).1
    obtain ⟨table', htable, hlen⟩ := emitBlocks_ok h hs hg hsi hlt ht
    refine ⟨(table', windows ++ [emitWindow s g]), ?_, hlen, ?_⟩
    · simp only [emitRow, batchSeq, hs, okOr_some, ok_bind, htable]
      rfl
    · simp only [length_append, length_singleton, hw]
      omega
  refine ⟨(acc.1 ++ slots, rows), ?_, ?_, hr₁, ?_⟩
  · simp only [emitGroup, hslots, ok_bind, hrows]
    rfl
  · rw [length_append, h₁, hslen, Nat.add_mul, Nat.one_mul]
  · rw [hr₂, length_zipIdx, Nat.add_mul, Nat.one_mul, Nat.zero_add]

/-- The context length of a sequence. -/
def ctxOf (m : StateManager) (k : SeqId) : ℕ := (m.seqs[k]?.map (·.ctxLen)).getD 0

/-- The default positions of a batch. -/
def defaultPositions (m : StateManager) (seqs : List SeqId) (queryLens : List ℕ) : List ℕ :=
  ((seqs.zip queryLens).map fun x => (List.range x.2).map (ctxOf m x.1 + ·)).flatten

theorem emitSeq_eq (h : Inv H m) {x : SeqId × ℕ} (hc : Covers m x.1 x.2) (want : Bool) :
    m.emitSeq want x = .ok (ctxOf m x.1,
      if want then (List.range x.2).map (ctxOf m x.1 + ·) else []) := by
  obtain ⟨s, hs, -, hle⟩ := hc
  have hstop := h.stop_lt hs
  have hpos : emitPositions s.ctxLen x.2 = .ok ((List.range x.2).map (s.ctxLen + ·)) := by
    refine mapM_ok fun i hi => ?_
    have := mem_range.mp hi
    rw [add_of_lt (by omega), okOr_some]
  have hctx : ctxOf m x.1 = s.ctxLen := by simp [ctxOf, hs]
  simp only [emitSeq, batchSeq, hs, okOr_some, ok_bind, hctx]
  cases want
  · rfl
  · simp only [if_true, hpos, ok_bind]
    rfl

/-- **The emission of a planned batch succeeds**, with the declared shapes; asking
for the default positions changes nothing else. -/
theorem emitBatchInto_ok (h : Inv H m) (hplan : Plannable m seqs queryLens) {table : List ℕ}
    (htable : table.length = m.groups.length * seqs.length * m.maxBlocks) :
    ∃ slotMap blockTable windowStart : List ℕ,
      slotMap.length = m.groups.length * queryLens.sum ∧
      blockTable.length = m.groups.length * seqs.length * m.maxBlocks ∧
      windowStart.length = m.groups.length * seqs.length ∧
      ∀ want, m.emitBatchInto seqs queryLens ⟨queryLens.sum, queryLens.sum⟩ want table =
        .ok ⟨seqs, seqs.map (ctxOf m), if want then defaultPositions m seqs queryLens else [],
          slotMap, blockTable, windowStart⟩ := by
  obtain ⟨flat, hflat, hf₁, hf₂, hf₃⟩ := exists_foldlM_ok (l := m.groups.zipIdx)
    (f := m.emitGroup seqs queryLens queryLens.sum m.maxBlocks) (b := ([], table, []))
    (P := fun i r => r.1.length = i * queryLens.sum ∧
      r.2.1.length = m.groups.length * seqs.length * m.maxBlocks ∧
      r.2.2.length = i * seqs.length) (n := 0) ⟨by simp, htable, by simp⟩ <| by
    rintro i acc ⟨h₁, h₂, h₃⟩ ⟨g, gi⟩ hx
    exact emitGroup_ok h hplan (mem_zipIdx_iff_getElem?.mp hx) h₁ h₂ h₃
  rw [length_zipIdx, Nat.zero_add] at hf₁ hf₃
  refine ⟨flat.1, flat.2.1, flat.2.2, hf₁, hf₂, hf₃, fun want => ?_⟩
  have hids : (seqs.mapM fun seq => okOr (narrow 32 seq) (.seqIdOverflow seq u32Max) :
      StateResult (List ℕ)) = .ok seqs := by
    have := mapM_ok (l := seqs) (g := id) (f := fun seq =>
      (okOr (narrow 32 seq) (.seqIdOverflow seq u32Max) : StateResult ℕ)) fun k hk => by
        obtain ⟨s, hs⟩ := hplan.exists_seq hk
        have h₁ := h.ids_lt k s hs
        have h₂ := h.ids_le
        rw [narrow_of_lt (by omega)]
        rfl
    rwa [map_id] at this
  have hrows := mapM_ok fun x hx => emitSeq_eq h (hplan.covers x hx) want
  have hmax : m.maxBlocks < 2 ^ 64 := by
    have := (hplan.bounds h).2.1
    omega
  have hctx : (seqs.zip queryLens).map (ctxOf m ∘ Prod.fst) = seqs.map (ctxOf m) := by
    rw [← map_map, map_fst_zip (le_of_eq hplan.length_eq)]
  rw [emitBatchInto, hids, ok_bind, hrows, ok_bind, narrow_of_lt hmax, okOr_some, ok_bind, hflat,
    ok_bind]
  cases want
  · simp [← hctx, pure, Except.pure, Function.comp_def]
  · simp [← hctx, pure, Except.pure, Function.comp_def, defaultPositions]

end Emit

end R9v

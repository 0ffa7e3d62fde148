import R9v.State.Mapping
import R9v.Lib.Loops

/-!
# What the tensors of a batch hold

A kernel finds the slots of the new tokens of a sequence in the slot map, the blocks of the
sequence under their indices in its row of the block table, and the first position of its window.
-/

namespace R9v

open Checked StateManager List

/-! ### Entries -/

/-- The block under an index, or the sentinel. -/
def SeqState.blockAt (s : SeqState) (gi idx : ℕ) : ℕ :=
  ((s.entries gi).find? (·.1 = idx)).elim blockTableSentinel (·.2)

section Entries

variable {groups : List LayerGroup} {maxCtx H : ℕ} {s : SeqState} {gi idx id id' : ℕ}

theorem SeqInv.entry_unique (h : SeqInv groups maxCtx H s) (hid : (idx, id) ∈ s.entries gi)
    (hid' : (idx, id') ∈ s.entries gi) : id = id' := by
  obtain ⟨i, hi, heq⟩ := mem_iff_getElem.mp hid
  obtain ⟨j, hj, heq'⟩ := mem_iff_getElem.mp hid'
  simp only [SeqState.entries, getElem_zip, Prod.mk.injEq] at heq heq'
  have hnodup : (s.held gi).Nodup := (h.ascending gi).imp fun hlt => Nat.ne_of_lt hlt
  obtain rfl : i = j := hnodup.getElem_inj_iff.mp (heq.1.trans heq'.1.symm)
  exact heq.2.symm.trans heq'.2

theorem SeqInv.exists_entry (h : SeqInv groups maxCtx H s) (hidx : idx ∈ s.held gi) :
    ∃ id, (idx, id) ∈ s.entries gi := by
  obtain ⟨i, hi, rfl⟩ := mem_iff_getElem.mp hidx
  have hi' : i < (s.table gi).length := h.aligned gi ▸ hi
  refine ⟨(s.table gi)[i], mem_iff_getElem.mpr ⟨i, ?_, ?_⟩⟩
  · rw [SeqState.entries, length_zip]
    exact lt_min hi hi'
  · simp [SeqState.entries]

theorem SeqState.mem_held (h : (idx, id) ∈ s.entries gi) : idx ∈ s.held gi := (of_mem_zip h).1

theorem SeqState.mem_table (h : (idx, id) ∈ s.entries gi) : id ∈ s.table gi := (of_mem_zip h).2

theorem SeqInv.blockAt_eq (h : SeqInv groups maxCtx H s) (hid : (idx, id) ∈ s.entries gi) :
    s.blockAt gi idx = id := by
  rw [SeqState.blockAt]
  cases hfind : (s.entries gi).find? (·.1 = idx) with
  | none => exact absurd (decide_eq_true rfl) (find?_eq_none.mp hfind (idx, id) hid)
  | some x =>
    obtain ⟨i, b⟩ := x
    have hmem := mem_of_find?_eq_some hfind
    obtain rfl : i = idx := by simpa using find?_some hfind
    exact h.entry_unique hmem hid

theorem blockAt_of_not_mem (h : idx ∉ s.held gi) : s.blockAt gi idx = blockTableSentinel := by
  rw [SeqState.blockAt]
  cases hfind : (s.entries gi).find? (·.1 = idx) with
  | none => rfl
  | some x =>
    obtain ⟨i, b⟩ := x
    have hmem := mem_of_find?_eq_some hfind
    obtain rfl : i = idx := by simpa using find?_some hfind
    exact absurd (SeqState.mem_held hmem) h

end Entries

/-! ### A row of the block table -/

section Row

variable {H : SeqId → ℕ} {m : StateManager} {k : SeqId} {s : SeqState} {gi : ℕ} {g : LayerGroup}
  {count si : ℕ} {table : List ℕ}

theorem row_div {r maxB idx : ℕ} (h : idx < maxB) : (r * maxB + idx) / maxB = r := by
  rw [Nat.mul_comm, Nat.mul_add_div (by omega), Nat.div_eq_of_lt h, Nat.add_zero]

/-- **The row of a sequence** holds its blocks under their indices, where it held sentinels, and
the other rows are left as they were. -/
theorem emitBlocks_filled (h : Inv H m) (hs : m.seqs[k]? = some s) (hg : m.groups[gi]? = some g)
    (hp : g.spec.isPaged = true) (hsi : si < count)
    (hlt : m.groups.length * count * m.maxBlocks < 2 ^ 64)
    (hlen : table.length = m.groups.length * count * m.maxBlocks)
    (hempty : ∀ idx < m.maxBlocks,
      table[(gi * count + si) * m.maxBlocks + idx]? = some blockTableSentinel) :
    ∃ table', emitBlocks s k g gi count si m.maxBlocks table = .ok table' ∧
      table'.length = m.groups.length * count * m.maxBlocks ∧
      (∀ idx < m.maxBlocks,
        table'[(gi * count + si) * m.maxBlocks + idx]? = some (s.blockAt gi idx)) ∧
      ∀ c, c / m.maxBlocks ≠ gi * count + si → table'[c]? = table[c]? := by
  have hgi : gi < m.groups.length := (List.getElem?_eq_some_iff.mp hg).1
  have hinv := h.seqs k s hs
  have hmax : ∀ idx ∈ s.held gi, idx < m.maxBlocks := by
    intro idx hidx
    obtain ⟨r, hr⟩ := StateSpec.exists_retain hp
    have hmem := ((hinv.retained gi g r hg hr idx).mp hidx).1
    have h₁ := hinv.high_le
    have h₂ := h.shape.config.maxBlocks_mul
    rw [h.shape.maxBlocks_eq]
    omega
  let P : ℕ → List ℕ → Prop := fun n t =>
    t.length = m.groups.length * count * m.maxBlocks ∧
      (∀ idx < m.maxBlocks, t[(gi * count + si) * m.maxBlocks + idx]? =
        some (if idx ∈ (s.held gi).take n then s.blockAt gi idx else blockTableSentinel)) ∧
      ∀ c, c / m.maxBlocks ≠ gi * count + si → t[c]? = table[c]?
  have hstep : ∀ i idx t, (s.held gi)[i]? = some idx → P i t →
      ∃ t', emitBlock k (s.table gi) gi count si m.maxBlocks t (idx, i) = .ok t' ∧ P (i + 1) t' := by
    intro i idx t hidx ⟨ht, hcells, hrest⟩
    have hi : i < (s.held gi).length := (List.getElem?_eq_some_iff.mp hidx).1
    have hi' : i < (s.table gi).length := hinv.aligned gi ▸ hi
    have hmem : idx ∈ s.held gi := mem_of_getElem? hidx
    have hentry : (idx, (s.table gi)[i]) ∈ s.entries gi := by
      refine mem_iff_getElem?.mpr ⟨i, ?_⟩
      rw [SeqState.entries, getElem?_zip_eq_some]
      exact ⟨hidx, getElem?_eq_getElem hi'⟩
    obtain ⟨cell, hcell, hin⟩ := blockCell_eq hgi hsi (hmax idx hmem) hlt
    obtain rfl : cell = (gi * count + si) * m.maxBlocks + idx := by
      simp only [blockCell, Option.bind_eq_bind, Option.bind_eq_some_iff, mul_eq_some, add_eq_some]
        at hcell
      obtain ⟨_, ⟨-, rfl⟩, _, ⟨-, rfl⟩, _, ⟨-, rfl⟩, -, rfl⟩ := hcell
      rfl
    have hcell_lt : (gi * count + si) * m.maxBlocks + idx < t.length := by rwa [ht]
    refine ⟨t.set ((gi * count + si) * m.maxBlocks + idx) (s.table gi)[i], ?_, ?_, ?_, ?_⟩
    · simp only [emitBlock, getElem?_eq_getElem hi', okOr_some, ok_bind,
        ensure_of (hmax idx hmem), hcell, ensure_of hcell_lt]
      rfl
    · rw [length_set, ht]
    · intro idx' hidx'
      rw [getElem?_set]
      rcases eq_or_ne idx idx' with rfl | hne
      · have htake : idx ∈ (s.held gi).take (i + 1) := by
          rw [mem_take_iff_getElem]
          exact ⟨i, by omega, (List.getElem?_eq_some_iff.mp hidx).2⟩
        rw [if_pos rfl, if_pos hcell_lt, if_pos htake, hinv.blockAt_eq hentry]
      · rw [if_neg (by omega), hcells idx' hidx']
        have htake : idx' ∈ (s.held gi).take (i + 1) ↔ idx' ∈ (s.held gi).take i := by
          rw [take_succ_eq_append_getElem hi, mem_append, mem_singleton]
          have hget : (s.held gi)[i] = idx := (List.getElem?_eq_some_iff.mp hidx).2
          rw [hget]
          exact or_iff_left (Ne.symm hne)
        simp only [htake]
    · intro c hc
      have hne : (gi * count + si) * m.maxBlocks + idx ≠ c := by
        rintro rfl
        exact hc (row_div (hmax idx hmem))
      rw [getElem?_set_ne hne, hrest c hc]
  obtain ⟨table', hfold, hlen', hrow, hother⟩ := exists_foldlM_zipIdx (s.held gi) hstep
    ⟨hlen, fun idx hidx => by simpa using hempty idx hidx, fun _ _ => rfl⟩
  refine ⟨table', ?_, hlen', fun idx hidx => ?_, hother⟩
  · rw [emitBlocks, if_pos hp, SeqState.getElem?_indices (hinv.indices_length ▸ hgi),
      SeqState.getElem?_tables (hinv.tables_length ▸ hgi)]
    exact hfold
  · rw [hrow idx hidx, take_length]
    split
    · rfl
    · next hnot => rw [blockAt_of_not_mem hnot]

end Row

/-! ### The tensors -/

section Tensors

variable {H : SeqId → ℕ} {m : StateManager} {seqs : List SeqId} {queryLens : List ℕ} {gi : ℕ}
  {g : LayerGroup}

/-- Where the tokens of a sequence of a batch begin. -/
def batchBase (queryLens : List ℕ) (j : ℕ) : ℕ := (queryLens.take j).sum

theorem batchBase_add_le {j q : ℕ} (h : queryLens[j]? = some q) :
    batchBase queryLens j + q ≤ queryLens.sum := by
  induction queryLens generalizing j with
  | nil => cases h
  | cons first lens ih =>
    cases j with
    | zero =>
      obtain rfl := Option.some.inj h
      simp [batchBase]
    | succ j =>
      have hle := ih (j := j) (by simpa using h)
      rw [batchBase] at hle ⊢
      rw [take_succ_cons, sum_cons, sum_cons]
      omega

/-- The slots of a paged group, one for each new token. -/
def SlotsIn (m : StateManager) (seqs : List SeqId) (queryLens : List ℕ) (gi : ℕ) (slots : List ℕ) :
    Prop :=
  ∀ (j : ℕ) (k : SeqId) (q : ℕ) (s : SeqState), seqs[j]? = some k → queryLens[j]? = some q →
    m.seqs[k]? = some s → ∀ i < q, ∃ slot, s.InSlot gi (s.ctxLen + i) slot ∧
      slots[batchBase queryLens j + i]? = some slot

theorem flattenSlot_inSlot (h : Inv H m) {k : SeqId} {s : SeqState} (hs : m.seqs[k]? = some s)
    (hg : m.groups[gi]? = some g) (hp : g.spec.isPaged = true) {i : ℕ} (hi : i < s.tailLen)
    (stop : ℕ) : ∃ slot, s.InSlot gi (s.ctxLen + i) slot ∧
      flattenSlot s gi (s.ctxLen + i) stop = .ok slot := by
  obtain ⟨n, id, hheld, hid, hslot⟩ := flattenSlot_eq h hs hg hp (Nat.le_add_right _ i)
    (Nat.add_lt_add_left hi _) stop
  refine ⟨_, ⟨id, mem_iff_getElem?.mpr ⟨n, ?_⟩, rfl⟩, hslot⟩
  rw [SeqState.entries, getElem?_zip_eq_some]
  exact ⟨hheld, hid⟩

theorem emitSlots_filled (h : Inv H m) (hg : m.groups[gi]? = some g) (hp : g.spec.isPaged = true)
    {x : SeqId × ℕ} {s : SeqState} (hs : m.seqs[x.1]? = some s) (hle : x.2 ≤ s.tailLen)
    {slots : List ℕ} (hslots : m.emitSlots gi x = .ok slots) {i : ℕ} (hi : i < x.2) :
    ∃ slot, s.InSlot gi (s.ctxLen + i) slot ∧ slots[i]? = some slot := by
  obtain ⟨k, q⟩ := x
  have hstop := h.stop_lt hs
  obtain ⟨slot, hin, hslot⟩ := flattenSlot_inSlot h hs hg hp (lt_of_lt_of_le hi hle) (s.ctxLen + q)
  simp only [emitSlots, batchSeq, hs, okOr_some, ok_bind,
    add_of_lt (show s.ctxLen + q < 2 ^ 32 by simp only at hle; omega)] at hslots
  obtain ⟨b, hb, hget⟩ := getElem?_of_mapM hslots (getElem?_range hi)
  rw [add_of_lt (by simp only at hi hle; omega), okOr_some, ok_bind, hslot] at hb
  exact ⟨slot, hin, by rw [hget, Except.ok.inj hb]⟩

/-- **The slot map of a paged group.** -/
theorem emitGroupSlots_filled (h : Inv H m) (hplan : Plannable m seqs queryLens)
    (hg : m.groups[gi]? = some g) (hp : g.spec.isPaged = true) {slots : List ℕ}
    (hslots : m.emitGroupSlots seqs queryLens queryLens.sum (g, gi) = .ok slots) :
    SlotsIn m seqs queryLens gi slots := by
  intro j k q s hk hq hs i hi
  rw [emitGroupSlots, if_pos hp] at hslots
  cases hrows : (seqs.zip queryLens).mapM (m.emitSlots gi) with
  | error e =>
    rw [hrows] at hslots
    cases hslots
  | ok rows =>
    rw [hrows] at hslots
    obtain rfl : rows.flatten = slots := Except.ok.inj hslots
    have hzip : (seqs.zip queryLens)[j]? = some (k, q) := by
      rw [getElem?_zip_eq_some]
      exact ⟨hk, hq⟩
    obtain ⟨row, hrow, hget⟩ := getElem?_of_mapM hrows hzip
    obtain ⟨s', hs', -, hle⟩ := hplan.covers (k, q) (mem_of_getElem? hzip)
    obtain rfl : s = s' := Option.some.inj (hs.symm.trans hs')
    obtain ⟨slot, hin, hslot⟩ := emitSlots_filled h hg hp hs hle hrow hi
    refine ⟨slot, hin, ?_⟩
    have hlens : rows.map List.length = queryLens := by
      have hmap := map_of_mapM hrows (u := (·.2)) (v := List.length) fun x hx b hb => by
        obtain ⟨slots, hok, hlen⟩ := emitSlots_ok h hg hp (hplan.covers x hx)
        rw [← hlen, Except.ok.inj (hb.symm.trans hok)]
      rw [hmap, map_snd_zip (le_of_eq hplan.length_eq.symm)]
    have hbase : ((rows.take j).map List.length).sum = batchBase queryLens j := by
      rw [map_take, hlens, batchBase]
    rw [← hbase, getElem?_flatten hget (List.getElem?_eq_some_iff.mp hslot).1, hslot]

/-- **What the tensors hold** once the first `n` groups are emitted. -/
structure Filled (m : StateManager) (seqs : List SeqId) (queryLens : List ℕ) (n : ℕ)
    (flat : List ℕ × List ℕ × List ℕ) : Prop where
  slots_length : flat.1.length = n * queryLens.sum
  table_length : flat.2.1.length = m.groups.length * seqs.length * m.maxBlocks
  windows_length : flat.2.2.length = n * seqs.length
  slots : ∀ gi < n, ∀ g, m.groups[gi]? = some g → g.spec.isPaged = true →
    ∀ (j : ℕ) (k : SeqId) (q : ℕ) (s : SeqState), seqs[j]? = some k → queryLens[j]? = some q →
      m.seqs[k]? = some s → ∀ i < q, ∃ slot, s.InSlot gi (s.ctxLen + i) slot ∧
        flat.1[gi * queryLens.sum + (batchBase queryLens j + i)]? = some slot
  blocks : ∀ gi < n, ∀ g, m.groups[gi]? = some g → g.spec.isPaged = true →
    ∀ (j : ℕ) (k : SeqId) (s : SeqState), seqs[j]? = some k → m.seqs[k]? = some s →
      ∀ idx < m.maxBlocks,
        flat.2.1[(gi * seqs.length + j) * m.maxBlocks + idx]? = some (s.blockAt gi idx)
  rest : ∀ r, n * seqs.length ≤ r → r < m.groups.length * seqs.length → ∀ idx < m.maxBlocks,
    flat.2.1[r * m.maxBlocks + idx]? = some blockTableSentinel
  windows : ∀ gi < n, ∀ g, m.groups[gi]? = some g →
    ∀ (j : ℕ) (k : SeqId) (s : SeqState), seqs[j]? = some k → m.seqs[k]? = some s →
      flat.2.2[gi * seqs.length + j]? = some (emitWindow s g)

/-- The rows of a group, after the first `n` sequences. -/
structure RowsFilled (m : StateManager) (seqs : List SeqId) (gi : ℕ) (g : LayerGroup)
    (before : List ℕ × List ℕ) (n : ℕ) (acc : List ℕ × List ℕ) : Prop where
  table_length : acc.1.length = m.groups.length * seqs.length * m.maxBlocks
  windows_length : acc.2.length = before.2.length + n
  blocks : g.spec.isPaged = true → ∀ j < n, ∀ (k : SeqId) (s : SeqState), seqs[j]? = some k →
    m.seqs[k]? = some s → ∀ idx < m.maxBlocks,
      acc.1[(gi * seqs.length + j) * m.maxBlocks + idx]? = some (s.blockAt gi idx)
  others : ∀ c, (∀ j < n, c / m.maxBlocks ≠ gi * seqs.length + j) → acc.1[c]? = before.1[c]?
  windows : ∀ j < n, ∀ (k : SeqId) (s : SeqState), seqs[j]? = some k → m.seqs[k]? = some s →
    acc.2[before.2.length + j]? = some (emitWindow s g)
  kept : ∀ c < before.2.length, acc.2[c]? = before.2[c]?

theorem RowsFilled.step (h : Inv H m) (hplan : Plannable m seqs queryLens)
    (hg : m.groups[gi]? = some g) (hlt : m.groups.length * seqs.length * m.maxBlocks < 2 ^ 64)
    {before : List ℕ × List ℕ} (hempty : ∀ j < seqs.length, ∀ idx < m.maxBlocks,
      before.1[(gi * seqs.length + j) * m.maxBlocks + idx]? = some blockTableSentinel)
    {n : ℕ} {k : SeqId} {acc : List ℕ × List ℕ} (hk : seqs[n]? = some k)
    (hacc : RowsFilled m seqs gi g before n acc) :
    ∃ acc', m.emitRow g gi seqs.length m.maxBlocks acc (k, n) = .ok acc' ∧
      RowsFilled m seqs gi g before (n + 1) acc' := by
  obtain ⟨s, hs⟩ := hplan.exists_seq (mem_of_getElem? hk)
  have hn : n < seqs.length := (List.getElem?_eq_some_iff.mp hk).1
  -- the row of the sequence, which no other sequence touches
  have hrow : ∃ table', emitBlocks s k g gi seqs.length n m.maxBlocks acc.1 = .ok table' ∧
      table'.length = m.groups.length * seqs.length * m.maxBlocks ∧
      (g.spec.isPaged = true → ∀ idx < m.maxBlocks,
        table'[(gi * seqs.length + n) * m.maxBlocks + idx]? = some (s.blockAt gi idx)) ∧
      ∀ c, c / m.maxBlocks ≠ gi * seqs.length + n → table'[c]? = acc.1[c]? := by
    by_cases hp : g.spec.isPaged = true
    · obtain ⟨table', hok, hlen, hcells, hother⟩ :=
        emitBlocks_filled h hs hg hp hn hlt hacc.table_length fun idx hidx => by
          rw [hacc.others _ fun j hj => by rw [row_div hidx]; omega]
          exact hempty n hn idx hidx
      exact ⟨table', hok, hlen, fun _ => hcells, hother⟩
    · exact ⟨acc.1, by rw [emitBlocks, if_neg hp]; rfl, hacc.table_length, fun hp' => absurd hp' hp,
        fun _ _ => rfl⟩
  obtain ⟨table', hok, hlen, hcells, hother⟩ := hrow
  refine ⟨(table', acc.2 ++ [emitWindow s g]), ?_, hlen, ?_, ?_, ?_, ?_, ?_⟩
  · simp only [emitRow, batchSeq, hs, okOr_some, ok_bind, hok]
    rfl
  · rw [length_append, hacc.windows_length, length_singleton, add_assoc]
  · intro hp j hj k' s' hk' hs' idx hidx
    rcases Nat.lt_succ_iff_lt_or_eq.mp hj with hj | rfl
    · rw [hother _ (by rw [row_div hidx]; omega)]
      exact hacc.blocks hp j hj k' s' hk' hs' idx hidx
    · obtain rfl : k = k' := Option.some.inj (hk.symm.trans hk')
      obtain rfl : s = s' := Option.some.inj (hs.symm.trans hs')
      exact hcells hp idx hidx
  · intro c hc
    rw [hother c (hc n (Nat.lt_succ_self n))]
    exact hacc.others c fun j hj => hc j (Nat.lt_succ_of_lt hj)
  · intro j hj k' s' hk' hs'
    rcases Nat.lt_succ_iff_lt_or_eq.mp hj with hj | rfl
    · have hlt : before.2.length + j < acc.2.length := by rw [hacc.windows_length]; omega
      rw [getElem?_append_left hlt]
      exact hacc.windows j hj k' s' hk' hs'
    · obtain rfl : k = k' := Option.some.inj (hk.symm.trans hk')
      obtain rfl : s = s' := Option.some.inj (hs.symm.trans hs')
      rw [← hacc.windows_length]
      simp
  · intro c hc
    have hlt : c < acc.2.length := by rw [hacc.windows_length]; omega
    rw [getElem?_append_left hlt]
    exact hacc.kept c hc

theorem Filled.step (h : Inv H m) (hplan : Plannable m seqs queryLens) {n : ℕ} {g : LayerGroup}
    {acc : List ℕ × List ℕ × List ℕ} (hg : m.groups[n]? = some g)
    (hacc : Filled m seqs queryLens n acc) :
    ∃ acc', m.emitGroup seqs queryLens queryLens.sum m.maxBlocks acc (g, n) = .ok acc' ∧
      Filled m seqs queryLens (n + 1) acc' := by
  have hlt : m.groups.length * seqs.length * m.maxBlocks < 2 ^ 64 := by
    obtain ⟨b₁, b₂, -, -, b₅, -⟩ := hplan.bounds h
    have := Nat.mul_le_mul (Nat.mul_le_mul b₁ b₅) b₂
    omega
  have hn : n < m.groups.length := (List.getElem?_eq_some_iff.mp hg).1
  obtain ⟨slots, hslots, hslen⟩ := emitGroupSlots_ok h hplan hg
  have hempty : ∀ j < seqs.length, ∀ idx < m.maxBlocks,
      acc.2.1[(n * seqs.length + j) * m.maxBlocks + idx]? = some blockTableSentinel := by
    intro j hj idx hidx
    refine hacc.rest _ (Nat.le_add_right _ _) ?_ idx hidx
    calc n * seqs.length + j < n * seqs.length + seqs.length := by omega
      _ = (n + 1) * seqs.length := (Nat.succ_mul n seqs.length).symm
      _ ≤ m.groups.length * seqs.length := Nat.mul_le_mul_right _ hn
  obtain ⟨rows, hrows, hfilled⟩ := exists_foldlM_zipIdx
    (P := RowsFilled m seqs n g (acc.2.1, acc.2.2)) (f := m.emitRow g n seqs.length m.maxBlocks) seqs
    (fun i k b hk hb => RowsFilled.step h hplan hg hlt hempty hk hb)
    (b := (acc.2.1, acc.2.2))
    ⟨hacc.table_length, rfl, fun _ j hj => absurd hj (Nat.not_lt_zero j), fun _ _ => rfl,
      fun j hj => absurd hj (Nat.not_lt_zero j), fun _ _ => rfl⟩
  have hrow_lt : ∀ {gi j : ℕ}, gi < n → j < seqs.length → gi * seqs.length + j < n * seqs.length := by
    intro gi j hgi hj
    calc gi * seqs.length + j < gi * seqs.length + seqs.length := by omega
      _ = (gi + 1) * seqs.length := (Nat.succ_mul gi seqs.length).symm
      _ ≤ n * seqs.length := Nat.mul_le_mul_right _ hgi
  refine ⟨(acc.1 ++ slots, rows), ?_, ?_, hfilled.table_length, ?_, ?_, ?_, ?_, ?_⟩
  · simp only [emitGroup, hslots, ok_bind, hrows]
    rfl
  · rw [length_append, hacc.slots_length, hslen, Nat.succ_mul]
  · rw [hfilled.windows_length, hacc.windows_length, Nat.succ_mul]
  · intro gi hgi g' hg' hp j k q s hk hq hs i hi
    have htok : batchBase queryLens j + i < queryLens.sum :=
      lt_of_lt_of_le (Nat.add_lt_add_left hi _) (batchBase_add_le hq)
    rcases Nat.lt_succ_iff_lt_or_eq.mp hgi with hgi | rfl
    · have hin : gi * queryLens.sum + (batchBase queryLens j + i) < acc.1.length := by
        rw [hacc.slots_length]
        calc gi * queryLens.sum + (batchBase queryLens j + i)
            < gi * queryLens.sum + queryLens.sum := by omega
          _ = (gi + 1) * queryLens.sum := (Nat.succ_mul gi queryLens.sum).symm
          _ ≤ n * queryLens.sum := Nat.mul_le_mul_right _ hgi
      rw [getElem?_append_left hin]
      exact hacc.slots gi hgi g' hg' hp j k q s hk hq hs i hi
    · obtain rfl : g = g' := Option.some.inj (hg.symm.trans hg')
      obtain ⟨slot, hin, hslot⟩ := emitGroupSlots_filled h hplan hg hp hslots j k q s hk hq hs i hi
      refine ⟨slot, hin, ?_⟩
      rw [← hacc.slots_length, getElem?_append_right (Nat.le_add_right _ _),
        Nat.add_sub_cancel_left, hslot]
  · intro gi hgi g' hg' hp j k s hk hs idx hidx
    have hj : j < seqs.length := (List.getElem?_eq_some_iff.mp hk).1
    rcases Nat.lt_succ_iff_lt_or_eq.mp hgi with hgi | rfl
    · rw [hfilled.others _ fun i _ => by rw [row_div hidx]; have := hrow_lt hgi hj; omega]
      exact hacc.blocks gi hgi g' hg' hp j k s hk hs idx hidx
    · obtain rfl : g = g' := Option.some.inj (hg.symm.trans hg')
      exact hfilled.blocks hp j hj k s hk hs idx hidx
  · intro r hr hr' idx hidx
    rw [hfilled.others _ fun i hi => by rw [row_div hidx]; rw [Nat.succ_mul] at hr; omega]
    exact hacc.rest r (by rw [Nat.succ_mul] at hr; omega) hr' idx hidx
  · intro gi hgi g' hg' j k s hk hs
    have hj : j < seqs.length := (List.getElem?_eq_some_iff.mp hk).1
    rcases Nat.lt_succ_iff_lt_or_eq.mp hgi with hgi | rfl
    · rw [hfilled.kept _ (by rw [hacc.windows_length]; exact hrow_lt hgi hj)]
      exact hacc.windows gi hgi g' hg' j k s hk hs
    · obtain rfl : g = g' := Option.some.inj (hg.symm.trans hg')
      have := hfilled.windows j hj k s hk hs
      rwa [hacc.windows_length] at this

/-- **What the tensors of a batch hold.** -/
theorem Emits.filled (h : Inv H m) (hplan : Plannable m seqs queryLens)
    {flat : List ℕ × List ℕ × List ℕ} (hflat : Emits m seqs queryLens flat) :
    Filled m seqs queryLens m.groups.length flat := by
  have hmax : m.maxBlocks < 2 ^ 64 := by
    have := (hplan.bounds h).2.1
    omega
  have hstart : Filled m seqs queryLens 0
      ([], List.replicate (m.groups.length * seqs.length * m.maxBlocks) blockTableSentinel, []) := by
    refine ⟨by simp, by simp, by simp, fun gi hgi => absurd hgi (Nat.not_lt_zero gi),
      fun gi hgi => absurd hgi (Nat.not_lt_zero gi), fun r _ hr idx hidx => ?_,
      fun gi hgi => absurd hgi (Nat.not_lt_zero gi)⟩
    have hlt : r * m.maxBlocks + idx < m.groups.length * seqs.length * m.maxBlocks :=
      calc r * m.maxBlocks + idx < r * m.maxBlocks + m.maxBlocks := by omega
        _ = (r + 1) * m.maxBlocks := (Nat.succ_mul r m.maxBlocks).symm
        _ ≤ m.groups.length * seqs.length * m.maxBlocks := Nat.mul_le_mul_right _ hr
    simp [hlt]
  obtain ⟨flat', hfold, hfilled⟩ := exists_foldlM_zipIdx
    (P := Filled m seqs queryLens) (f := m.emitGroup seqs queryLens queryLens.sum m.maxBlocks)
    m.groups (fun i g b hg hb => Filled.step h hplan hg hb) hstart
  have hemit := hflat.emit false
  rw [emitBatchInto, narrow_of_lt hmax, okOr_some] at hemit
  simp only [bind_eq_ok, ok_bind, hfold, pure_eq_ok, Tensors.mk.injEq] at hemit
  obtain ⟨-, -, -, -, -, -, -, h₁, h₂, h₃⟩ := hemit
  obtain rfl : flat' = flat := Prod.ext h₁ (Prod.ext h₂ h₃)
  exact hfilled

end Tensors

end R9v

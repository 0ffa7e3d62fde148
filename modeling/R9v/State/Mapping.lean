import R9v.State.BatchAgree
import R9v.State.Speculation

/-!
# Blocks under their indices

A block that a sequence holds stands under an index, and the index says which positions it has.
A reservation enters new blocks and keeps the old ones where they are, and a commit takes blocks
out and moves none (`reserve_entries`, `commit_entries`). The tensors of a batch tell a kernel
where the blocks are: `Described` says what they hold.
-/

namespace R9v

open Checked StateManager List

/-- The blocks of a sequence in a group, with their indices. -/
def SeqState.entries (s : SeqState) (gi : ℕ) : List (ℕ × ℕ) := (s.held gi).zip (s.table gi)

/-- A position of a sequence is in a slot: a lane of the block of its index. -/
def SeqState.InSlot (s : SeqState) (gi pos slot : ℕ) : Prop :=
  ∃ id, (pos / 32, id) ∈ s.entries gi ∧ slot = id * 32 + pos % 32

/-! ### Zipped lists -/

section Zip

variable {α β : Type}

theorem zip_insertIdx (a : α) (b : β) (n : ℕ) (l : List α) (l' : List β) (h : l.length = l'.length) :
    (l.insertIdx n a).zip (l'.insertIdx n b) = (l.zip l').insertIdx n (a, b) := by
  induction n generalizing l l' with
  | zero => rfl
  | succ n ih =>
    cases l with
    | nil =>
      rfl
    | cons x l =>
      cases l' with
      | nil => cases h
      | cons y l' =>
        simp only [insertIdx_succ_cons, zip_cons_cons]
        rw [ih l l' (Nat.succ.inj h)]

theorem zip_eraseIdx (n : ℕ) (l : List α) (l' : List β) :
    (l.eraseIdx n).zip (l'.eraseIdx n) = (l.zip l').eraseIdx n := by
  induction n generalizing l l' with
  | zero => cases l <;> cases l' <;> simp
  | succ n ih =>
    cases l with
    | nil => simp
    | cons x l =>
      cases l' with
      | nil => simp
      | cons y l' => simp [ih]

end Zip

/-! ### What a reservation keeps -/

section Reserve

variable {k : SeqId} {s : SeqState} {gi idx stop maxCtx : ℕ} {st st' : Placing}

/-- The entries of a sequence while blocks are placed: those that were there, and new ones. -/
structure Grown (s t : SeqState) : Prop where
  aligned : ∀ gi, (t.held gi).length = (t.table gi).length
  subset : ∀ gi, s.entries gi ⊆ t.entries gi

theorem placeOneBlock_grown {t : SeqState} (ht : st.2[k]? = some t) (hg : Grown s t)
    (h : placeOneBlock k gi idx stop maxCtx st = (.ok (), st')) :
    ∃ t', st'.2[k]? = some t' ∧ Grown s t' := by
  simp only [placeOneBlock] at h
  split at h
  · cases h
  split at h
  · cases h
  next id pool _ =>
  rw [ht] at h
  simp only at h
  split at h
  · cases h
  next held hheld =>
  split at h
  · cases h
  next table htable =>
  obtain ⟨-, rfl⟩ := Prod.mk.inj h
  have hi : gi < t.indices.length := (List.getElem?_eq_some_iff.mp hheld).1
  have htl : gi < t.tables.length := (List.getElem?_eq_some_iff.mp htable).1
  obtain rfl : t.held gi = held := by simp [SeqState.held, hheld]
  obtain rfl : t.table gi = table := by simp [SeqState.table, htable]
  refine ⟨_, Std.ExtTreeMap.getElem?_insert_self, ?_⟩
  have hpos := Sorted.partitionPoint_le_length (fun x => decide (x < idx)) (t.held gi)
  change Grown s (t.setRow gi ((t.held gi).insertIdx (Sorted.partitionPoint (· < idx) (t.held gi)) idx)
    ((t.table gi).insertIdx (Sorted.partitionPoint (· < idx) (t.held gi)) id))
  constructor
  · intro gj
    rw [SeqState.held_setRow hi, SeqState.table_setRow htl]
    rcases eq_or_ne gj gi with rfl | hne
    · rw [if_pos rfl, if_pos rfl, length_insertIdx_of_le_length hpos,
        length_insertIdx_of_le_length (hg.aligned gj ▸ hpos), hg.aligned gj]
    · rw [if_neg hne, if_neg hne, hg.aligned gj]
  · intro gj x hx
    have hx := hg.subset gj hx
    rw [SeqState.entries, SeqState.held_setRow hi, SeqState.table_setRow htl]
    rcases eq_or_ne gj gi with rfl | hne
    · rw [if_pos rfl, if_pos rfl, zip_insertIdx _ _ _ _ _ (hg.aligned gj)]
      have hle : Sorted.partitionPoint (fun x => decide (x < idx)) (t.held gj) ≤
          ((t.held gj).zip (t.table gj)).length := by
        rw [length_zip, hg.aligned gj, min_self]
        exact hg.aligned gj ▸ hpos
      exact (mem_insertIdx hle).mpr (Or.inr hx)
    · rw [if_neg hne, if_neg hne]
      exact hx

theorem placeReserveBlocks_grown {wanted done : List (ℕ × ℕ)} {t : SeqState}
    (ht : st.2[k]? = some t) (hg : Grown s t)
    (h : placeReserveBlocks k stop maxCtx done wanted st = (.ok (), st')) :
    ∃ t', st'.2[k]? = some t' ∧ Grown s t' := by
  induction wanted generalizing done st t with
  | nil =>
    obtain ⟨-, rfl⟩ := Prod.mk.inj h
    exact ⟨t, ht, hg⟩
  | cons x wanted ih =>
    rw [placeReserveBlocks] at h
    split at h
    · next st₁ hplace =>
      obtain ⟨t₁, ht₁, hg₁⟩ := placeOneBlock_grown ht hg hplace
      exact ih ht₁ hg₁ h
    · split at h <;> cases h

/-- **A reservation keeps the blocks** of the sequence under their indices. -/
theorem reserve_entries {H : SeqId → ℕ} {m m' : StateManager} (h : Inv H m) {n : ℕ} {r : SlotRange}
    {s' : SeqState} (hs : m.seqs[k]? = some s) (hok : m.reserve k n = (.ok r, m'))
    (hs' : m'.seqs[k]? = some s') (gi : ℕ) : s.entries gi ⊆ s'.entries gi := by
  rw [reserve] at hok
  split at hok
  · cases hok
  split at hok
  · cases hok
  split at hok
  · cases hok
  next pools seqs hplace =>
  obtain ⟨t, ht, hg⟩ := placeReserveBlocks_grown hs ⟨(h.seqs k s hs).aligned, fun _ => List.Subset.refl _⟩
    hplace
  rw [ht] at hok
  obtain ⟨-, rfl⟩ := Prod.mk.inj hok
  simp only [Std.ExtTreeMap.getElem?_insert_self, Option.some.injEq] at hs'
  rw [← hs']
  exact hg.subset gi

end Reserve

/-! ### What a commit keeps -/

section Commit

variable {k : SeqId}

theorem dropRun_subset {startAt n : ℕ} {held table held' table' : List ℕ} {pool pool' : BlockPool}
    {out : Outcome Unit} (h : dropRun startAt n held table pool = (out, held', table', pool')) :
    held'.zip table' ⊆ held.zip table := by
  induction n generalizing held table pool with
  | zero =>
    cases h
    exact List.Subset.refl _
  | succ n ih =>
    have hsub : (held.eraseIdx (startAt + n)).zip (table.eraseIdx (startAt + n)) ⊆
        held.zip table := by
      rw [zip_eraseIdx]
      exact eraseIdx_subset
    rw [dropRun] at h
    split at h
    · split at h
      · cases h
        exact hsub
      · exact List.Subset.trans (ih h) hsub
    · cases h
      exact List.Subset.refl _

theorem evictGroups_subset {newCtx : ℕ} {groups : List (LayerGroup × ℕ)}
    {pools pools' : List (Option BlockPool)} {s s' : SeqState}
    (hlen : ∀ x ∈ groups, x.2 < s.indices.length ∧ x.2 < s.tables.length)
    (h : evictGroups newCtx groups pools s = (.ok (), pools', s')) (gi : ℕ) :
    s'.entries gi ⊆ s.entries gi := by
  induction groups generalizing pools s with
  | nil =>
    cases h
    exact List.Subset.refl _
  | cons x groups ih =>
    obtain ⟨g, gj⟩ := x
    obtain ⟨⟨hi, ht⟩, hrest⟩ := forall_mem_cons.mp hlen
    rw [evictGroups] at h
    simp only at h
    split at h
    · exact ih hrest h
    split at h
    · rw [SeqState.getElem?_indices hi] at h
      split at h
      · cases h
      · cases h
      · next held pool hheld hpool =>
        obtain rfl : s.held gj = held := Option.some.inj hheld
        rw [← SeqState.table] at h
        generalize hdrop : dropRun _ _ (s.held gj) (s.table gj) pool = dropped at h
        obtain ⟨out, held', table', pool'⟩ := dropped
        have hdropped := dropRun_subset hdrop
        split at h
        · cases h
        · refine List.Subset.trans (ih (by simpa using hrest) h) ?_
          change (s.setRow gj held' table').entries gi ⊆ s.entries gi
          rw [SeqState.entries, SeqState.held_setRow hi, SeqState.table_setRow ht]
          rcases eq_or_ne gi gj with rfl | hne
          · rw [if_pos rfl, if_pos rfl]
            exact hdropped
          · rw [if_neg hne, if_neg hne]
            exact List.Subset.refl _
    · cases h

/-- **A commit moves no block** of the sequence. -/
theorem commit_entries {H : SeqId → ℕ} {m m' : StateManager} (h : Inv H m) {accepted : ℕ}
    {s s' : SeqState} (hs : m.seqs[k]? = some s) (hok : m.commit k accepted = (.ok (), m'))
    (hs' : m'.seqs[k]? = some s') (gi : ℕ) : s'.entries gi ⊆ s.entries gi := by
  have hinv := h.seqs k s hs
  have hlen : ∀ x ∈ m.groups.zipIdx, x.2 < s.indices.length ∧ x.2 < s.tables.length := by
    intro x hx
    have hlt := (List.getElem?_eq_some_iff.mp (List.mem_zipIdx_iff_getElem?.mp hx)).1
    exact ⟨hinv.indices_length ▸ hlt, hinv.tables_length ▸ hlt⟩
  rw [commit] at hok
  split at hok
  · cases hok
  next s₀ plan hplan =>
  obtain rfl : s = s₀ := by
    simp only [bind_eq_ok, lift_eq_ok, StateManager.seq, okOr_eq_ok, pure_eq_ok, Prod.mk.injEq] at hplan
    obtain ⟨t, ht, -, -, -, -, -, -, rfl, -⟩ := hplan
    exact Option.some.inj (hs.symm.trans ht)
  simp only at hok
  split at hok
  · cases hok
  next pools t hevict =>
  have hsub := evictGroups_subset (by simpa using hlen) hevict gi
  split at hok
  · obtain ⟨-, rfl⟩ := Prod.mk.inj hok
    simp only [Std.ExtTreeMap.getElem?_insert_self, Option.some.injEq] at hs'
    rw [← hs']
    exact hsub
  · split at hok
    · cases hok
    · obtain ⟨-, rfl⟩ := Prod.mk.inj hok
      simp only [Std.ExtTreeMap.getElem?_insert_self, Option.some.injEq] at hs'
      rw [← hs']
      exact hsub

end Commit

end R9v

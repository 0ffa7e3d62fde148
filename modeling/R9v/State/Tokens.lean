import R9v.State.Trade

/-!
# Writing and compacting

The two calls that change the contents of a sequence and nothing else. Both store
a run of cells in every paged group; what they make of the cells of one group is
`overwrite`, and the groups do not interfere (`foldl_store_apply`).
-/

namespace R9v

open Checked StateManager List

/-! ### The cells of a group -/

/-- The cells of a group after a run of them is stored from `start` on. -/
def overwrite (start : ℕ) (cells : List (Option ℕ)) (row : ℕ → Option ℕ) (pos : ℕ) : Option ℕ :=
  if start ≤ pos ∧ pos < start + cells.length then cells[pos - start]?.join else row pos

section Cells

variable {gi gj start pos : ℕ} {mirror : Mirror}

theorem storeRow_of_ne (h : gj ≠ gi) (cells : List (Option ℕ)) (start : ℕ) (mirror : Mirror) :
    storeRow gi start cells mirror (gj, pos) = mirror (gj, pos) := by
  induction cells generalizing start mirror with
  | nil => rfl
  | cons c cells ih =>
    rw [storeRow, ih, Function.update_of_ne]
    simp [h]

theorem storeRow_apply (cells : List (Option ℕ)) (start : ℕ) (mirror : Mirror) :
    storeRow gi start cells mirror (gi, pos) =
      overwrite start cells (fun p => mirror (gi, p)) pos := by
  induction cells generalizing start mirror with
  | nil =>
    rw [storeRow, overwrite, if_neg]
    simp only [length_nil]
    omega
  | cons c cells ih =>
    rw [storeRow, ih]
    unfold overwrite
    simp only [length_cons]
    by_cases h : start + 1 ≤ pos ∧ pos < start + 1 + cells.length
    · rw [if_pos h, if_pos (by omega), show pos - start = pos - (start + 1) + 1 by omega,
        getElem?_cons_succ]
    · rw [if_neg h]
      rcases eq_or_ne pos start with rfl | hne
      · simp
      · rw [if_neg (by omega), Function.update_of_ne]
        simp [hne]

/-- **Storing in every paged group** stores in each as if it were alone, also when
what is stored is read from the group itself. -/
theorem foldl_store_apply (cells : (ℕ → Option ℕ) → List (Option ℕ)) {groups : List (LayerGroup × ℕ)}
    (hnodup : (groups.map (·.2)).Nodup) :
    groups.foldl (fun mirror (g, gi) =>
        if g.spec.isPaged then storeRow gi start (cells fun p => mirror (gi, p)) mirror
        else mirror) mirror (gj, pos) =
      if ∃ x ∈ groups, x.2 = gj ∧ x.1.spec.isPaged = true then
        overwrite start (cells fun p => mirror (gj, p)) (fun p => mirror (gj, p)) pos
      else mirror (gj, pos) := by
  induction groups generalizing mirror with
  | nil => simp
  | cons x groups ih =>
    obtain ⟨g, gi⟩ := x
    obtain ⟨hgi, hnodup⟩ := nodup_cons.mp hnodup
    rw [foldl_cons, ih hnodup]
    by_cases hpaged : g.spec.isPaged = true
    · simp only [hpaged, if_true]
      rcases eq_or_ne gj gi with rfl | hne
      · rw [if_neg, if_pos ⟨(g, gj), mem_cons_self, rfl, hpaged⟩, storeRow_apply]
        rintro ⟨x, hx, rfl, -⟩
        exact hgi (mem_map.mpr ⟨x, hx, rfl⟩)
      · simp only [storeRow_of_ne hne]
        congr 1
        simp [hne.symm]
    · simp only [hpaged]
      congr 1
      simp [hpaged]

end Cells

/-- The contents of a sequence after a run of cells is stored in every paged group. -/
def StoredIn (groups : List LayerGroup) (start : ℕ) (cells : (ℕ → Option ℕ) → List (Option ℕ))
    (mirror mirror' : Mirror) : Prop :=
  ∀ (gi : ℕ) (g : LayerGroup), groups[gi]? = some g → g.spec.isPaged = true → ∀ pos,
    mirror' (gi, pos) = overwrite start (cells fun p => mirror (gi, p)) (fun p => mirror (gi, p)) pos

theorem storedIn_foldl (groups : List LayerGroup) (start : ℕ)
    (cells : (ℕ → Option ℕ) → List (Option ℕ)) (mirror : Mirror) :
    StoredIn groups start cells mirror (groups.zipIdx.foldl (fun mirror (g, gi) =>
      if g.spec.isPaged then storeRow gi start (cells fun p => mirror (gi, p)) mirror
      else mirror) mirror) := by
  intro gi g hg hpaged pos
  have hnodup : (groups.zipIdx.map (·.2)).Nodup := by
    rw [zipIdx_map_snd]
    exact nodup_range'
  rw [foldl_store_apply cells hnodup, if_pos]
  exact ⟨(g, gi), mem_zipIdx_iff_getElem?.mpr hg, rfl, hpaged⟩

/-! ### Writing -/

/-- **When a write is granted**: it lies in the open reservation. -/
def Writable (m : StateManager) (k : SeqId) (start : ℕ) (tokens : List ℕ) (s : SeqState) : Prop :=
  m.seqs[k]? = some s ∧ s.ctxLen ≤ start ∧ start + tokens.length ≤ s.ctxLen + s.tailLen

section Write

variable {H : SeqId → ℕ} {m : StateManager} {k : SeqId} {s : SeqState} {start : ℕ}
  {tokens : List ℕ}

theorem Inv.stop_lt (h : Inv H m) (hs : m.seqs[k]? = some s) : s.ctxLen + s.tailLen < 2 ^ 32 := by
  have h₁ := (h.seqs k s hs).tail_le
  have h₂ := (h.seqs k s hs).high_le
  have h₃ := h.shape.config.maxCtx_le
  simp only [maxCtxHard] at h₃
  omega

theorem writeChecks_eq_ok (h : Inv H m) :
    m.writeChecks k start tokens = .ok s ↔ Writable m k start tokens s := by
  simp only [writeChecks, StateManager.seq, bind_eq_ok, lift_eq_ok, okOr_eq_ok, ensure_eq_ok,
    narrow_eq_some, add_eq_some, pure_eq_ok]
  constructor
  · rintro ⟨t, ht, _, ⟨-, rfl⟩, _, ⟨-, rfl⟩, _, ⟨-, rfl⟩, _, h₁, _, h₂, rfl⟩
    exact ⟨ht, h₁, h₂⟩
  · rintro ⟨hs, h₁, h₂⟩
    have := h.stop_lt hs
    exact ⟨s, hs, _, ⟨by omega, rfl⟩, _, ⟨by omega, rfl⟩, _, ⟨this, rfl⟩, (), h₁, (), h₂, rfl⟩

theorem writeChecks_ne_panic : m.writeChecks k start tokens ≠ .error .panic := by
  simp [writeChecks, -bind_pure_comp]

/-- **The specification of `writeTokens`**. -/
theorem writeTokens_cases (h : Inv H m) (k : SeqId) (start : ℕ) (tokens : List ℕ) :
    ((∀ s, ¬Writable m k start tokens s) ∧
      ∃ e, m.writeTokens k start tokens = (.error (.err e), m)) ∨
    ∃ s mirror, Writable m k start tokens s ∧
      StoredIn m.groups start (fun _ => tokens.map some) s.mirror mirror ∧
      m.writeTokens k start tokens =
        (.ok (), { m with seqs := m.seqs.insert k { s with mirror } }) := by
  rcases hch : m.writeChecks k start tokens with e | s
  · obtain ⟨e', rfl⟩ := exists_err hch writeChecks_ne_panic
    refine Or.inl ⟨fun s hw => ?_, e', by simp only [writeTokens, hch]⟩
    simp [(writeChecks_eq_ok h).mpr hw] at hch
  · have hstored := storedIn_foldl m.groups start (fun _ => tokens.map some) s.mirror
    exact Or.inr ⟨s, _, (writeChecks_eq_ok h).mp hch, hstored, by simp only [writeTokens, hch]⟩

end Write

/-! ### Compacting -/

/-- **When a compaction is granted**: the accepted positions are distinct positions
of the open reservation, and not too many. -/
structure Compactable (m : StateManager) (k : SeqId) (accepted : List ℕ) (s : SeqState) : Prop where
  live : m.seqs[k]? = some s
  open_tail : s.tailLen ≠ 0
  length_le : accepted.length ≤ maxCompactTokens
  lt_tail : ∀ p ∈ accepted, p < s.tailLen
  nodup : accepted.Nodup

section Compact

variable {H : SeqId → ℕ} {m : StateManager} {k : SeqId} {s : SeqState} {accepted : List ℕ}

theorem nodup_iff_take (l : List ℕ) : l.Nodup ↔ ∀ x ∈ l.zipIdx, x.1 ∉ l.take x.2 := by
  constructor
  · rintro hnd ⟨p, i⟩ hx hin
    obtain ⟨hi, hp⟩ := List.getElem?_eq_some_iff.mp (List.mem_zipIdx_iff_getElem?.mp hx)
    obtain ⟨j, hj, hjp⟩ := List.mem_iff_getElem.mp hin
    rw [List.length_take] at hj
    rw [List.getElem_take] at hjp
    have := (List.Nodup.getElem_inj_iff hnd).mp (hjp.trans hp.symm)
    omega
  · intro h
    refine List.pairwise_iff_getElem.mpr fun i j hi hj hij heq => ?_
    refine h (l[j], j) (List.mem_zipIdx_iff_getElem?.mpr (List.getElem?_eq_getElem hj)) ?_
    exact List.mem_iff_getElem.mpr ⟨i, by rw [List.length_take]; omega, by
      rw [List.getElem_take]; exact heq⟩

theorem mapM_add_eq_ok {base : ℕ} {l src : List ℕ} {e : Fault StateError} :
    (l.mapM fun p => okOr (add 32 base p) e) = .ok src ↔
      (∀ p ∈ l, base + p < 2 ^ 32) ∧ src = l.map (base + ·) := by
  induction l generalizing src with
  | nil => simp [pure, Except.pure, eq_comm]
  | cons p l ih =>
    simp only [mapM_cons, bind_eq_ok, okOr_eq_ok, add_eq_some, pure_eq_ok, ih,
      forall_mem_cons, map_cons]
    constructor
    · rintro ⟨_, ⟨h₁, rfl⟩, _, ⟨h₂, rfl⟩, rfl⟩
      exact ⟨⟨h₁, h₂⟩, rfl⟩
    · rintro ⟨⟨h₁, h₂⟩, rfl⟩
      exact ⟨_, ⟨h₁, rfl⟩, _, ⟨h₂, rfl⟩, rfl⟩

theorem compactChecks_eq_ok (h : Inv H m) {r : SeqState × List ℕ} :
    m.compactChecks k accepted = .ok r ↔
      Compactable m k accepted r.1 ∧ r.2 = accepted.map (r.1.ctxLen + ·) := by
  obtain ⟨s, src⟩ := r
  simp only [compactChecks, StateManager.seq, bind_eq_ok, lift_eq_ok, okOr_eq_ok, ensure_eq_ok,
    pure_eq_ok, mapM_add_eq_ok, Prod.mk.injEq]
  constructor
  · rintro ⟨t, ht, _, h₁, _, h₂, _, h₃, _, ⟨-, rfl⟩, _, -, rfl, rfl⟩
    have h₃ := forM_eq_ok.mp h₃
    simp only [bind_eq_ok, ensure_eq_ok] at h₃
    refine ⟨⟨ht, h₁, h₂, fun p hp => ?_, (nodup_iff_take _).mpr fun x hx => ?_⟩, rfl⟩
    · obtain ⟨i, hi, rfl⟩ := getElem_of_mem hp
      obtain ⟨_, hlt, -⟩ := h₃ (accepted[i], i)
        (mem_zipIdx_iff_getElem?.mpr (getElem?_eq_getElem hi))
      exact hlt
    · obtain ⟨_, -, hnew⟩ := h₃ x hx
      exact hnew
  · rintro ⟨⟨hs, h₁, h₂, h₃, h₄⟩, rfl⟩
    have hstop := h.stop_lt hs
    refine ⟨s, hs, (), h₁, (), h₂, (), forM_eq_ok.mpr ?_, _, ⟨fun p hp => ?_, rfl⟩, (),
      forM_eq_ok.mpr ?_, rfl, rfl⟩
    · rintro ⟨p, i⟩ hx
      simp only [bind_eq_ok, ensure_eq_ok]
      exact ⟨(), h₃ p (mem_of_getElem? (mem_zipIdx_iff_getElem?.mp hx)),
        (nodup_iff_take _).mp h₄ (p, i) hx⟩
    · have := h₃ p hp
      omega
    · intro i hi
      have hle : accepted.length ≤ s.tailLen := by
        have := Subperm.length_le (subperm_of_subset h₄ (fun p hp =>
          mem_range.mpr (h₃ p hp)))
        simpa using this
      have hi := mem_range.mp hi
      simp only [bind_eq_ok, okOr_eq_ok, add_eq_some, pure_eq_ok]
      exact ⟨_, ⟨by omega, rfl⟩, trivial⟩

theorem compactChecks_ne_panic : m.compactChecks k accepted ≠ .error .panic := by
  intro hcon
  simp only [compactChecks, bind_eq_error, lift_eq_panic, pure_eq_error, ensure_eq_error,
    reduceCtorEq, and_false, exists_false, or_false, false_or] at hcon
  obtain ⟨t, -, _, -, _, -, h | ⟨_, -, h | ⟨_, -, h⟩⟩⟩ := hcon
  · obtain ⟨x, -, h⟩ := exists_of_forM_eq_error h
    simp at h
  · obtain ⟨x, -, h⟩ := exists_of_mapM_eq_error h
    simp at h
  · obtain ⟨x, -, h⟩ := exists_of_forM_eq_error h
    simp [-bind_pure_comp] at h

/-- **The specification of `compact`**. -/
theorem compact_cases (h : Inv H m) (k : SeqId) (accepted : List ℕ) :
    ((∀ s, ¬Compactable m k accepted s) ∧ ∃ e, m.compact k accepted = (.error (.err e), m)) ∨
    ∃ s op mirror, Compactable m k accepted s ∧
      StoredIn m.groups s.ctxLen (fun row => accepted.map fun p => row (s.ctxLen + p))
        s.mirror mirror ∧
      m.compact k accepted = (.ok op,
        { m with
          seqs := m.seqs.insert k { s with mirror, compacted := some accepted.length } }) := by
  rcases hch : m.compactChecks k accepted with e | ⟨s, src⟩
  · obtain ⟨e', rfl⟩ := exists_err hch compactChecks_ne_panic
    refine Or.inl ⟨fun s hw => ?_, e', by simp only [compact, hch]⟩
    simp [(compactChecks_eq_ok (r := (s, accepted.map (s.ctxLen + ·))) h).mpr ⟨hw, rfl⟩] at hch
  · obtain ⟨hc, hsrc⟩ := (compactChecks_eq_ok h).mp hch
    simp only at hc hsrc
    subst hsrc
    have hstored := storedIn_foldl m.groups s.ctxLen
      (fun row => accepted.map fun p => row (s.ctxLen + p)) s.mirror
    refine Or.inr ⟨s, ⟨k, accepted.map (s.ctxLen + ·) ++
      List.replicate (maxCompactTokens - accepted.length) 0, s.ctxLen, accepted.length⟩, _, hc,
      hstored, ?_⟩
    simp only [compact, hch, map_map, Function.comp_def]

end Compact

/-! ### The invariant -/

/-- **Changing only the contents keeps the invariant.** -/
theorem Inv.touch {H : SeqId → ℕ} {m : StateManager} (h : Inv H m) {k : SeqId} {s : SeqState}
    (hs : m.seqs[k]? = some s) (mirror : Mirror) (compacted : Option ℕ) :
    Inv H { m with seqs := m.seqs.insert k { s with mirror, compacted } } := by
  have hinv := h.seqs k s hs
  have htrades : Trades m.pools m.pools s { s with mirror, compacted } :=
    ⟨rfl, rfl, rfl, fun gi hp => ⟨hp, rfl, rfl⟩,
      fun gi p hp => ⟨p, hp, (h.cell_ok hs hp).refl⟩⟩
  have := h.trade hs htrades rfl rfl hinv.tail_le hinv.high_le hinv.retained m.swaps m.commits
    m.reserveScratch
  rwa [Function.update_eq_self] at this

end R9v

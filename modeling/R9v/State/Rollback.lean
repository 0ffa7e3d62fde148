import R9v.State.Slots

/-!
# Rolling a reservation back

A step that fails after its tokens were reserved is rolled back by a commit of no token. The commit
evicts at the length at which the last commit evicted, so that it finds nothing to give up
(`Committed.still`): the blocks of the reservation stay with the sequence, and the next reservation of
the same positions finds them there (`reserve_again`).

What was given up at a length has left the mirror as well (`Cleared`), which is why the commit drops no
token either.
-/

namespace R9v

open Checked StateManager List

/-! ### Lists that are determined by their members -/

section Lists

variable {α β : Type}

theorem table_eq_of_subset {held : List α} {table table' : List β} (hnodup : held.Nodup)
    (hlen : held.length = table.length) (hlen' : held.length = table'.length)
    (hsub : held.zip table ⊆ held.zip table') : table = table' := by
  refine ext_getElem (hlen.symm.trans hlen') fun n hn hn' => ?_
  have hheld : n < held.length := hlen ▸ hn
  have hmem : (held[n], table[n]) ∈ held.zip table := by
    rw [mem_iff_getElem?]
    exact ⟨n, getElem?_zip_eq_some.mpr ⟨getElem?_eq_getElem hheld, getElem?_eq_getElem hn⟩⟩
  obtain ⟨j, hj⟩ := mem_iff_getElem?.mp (hsub hmem)
  obtain ⟨hj₁, hj₂⟩ := getElem?_zip_eq_some.mp hj
  obtain rfl : n = j :=
    (getElem?_inj hheld hnodup).mp ((getElem?_eq_getElem hheld).trans hj₁.symm)
  rw [getElem?_eq_getElem hn'] at hj₂
  exact (Option.some.inj hj₂).symm

end Lists

/-! ### Trades that move nothing -/

section Still

variable {H : SeqId → ℕ} {m : StateManager} {k : SeqId} {s s' : SeqState}
  {pools' : List (Option BlockPool)}

/-- **A trade that keeps the indices and the blocks of the table moves nothing.** -/
theorem Cell.Trade.still {c c' : Cell} (h : c.Trade c') (hc : c.Ok)
    (hheld : ∀ i, i ∈ c'.held ↔ i ∈ c.held)
    (hsub : c'.held.zip c'.table ⊆ c.held.zip c.table ∨ c.held.zip c.table ⊆ c'.held.zip c'.table) :
    c' = c := by
  have hsame : c'.held = c.held := h.ascending.eq_of_mem_iff hc.ascending (by simpa using hheld)
  have hnodup : c.held.Nodup := hc.ascending.imp fun hlt => Nat.ne_of_lt hlt
  have hlen : c.held.length = c'.table.length := hsame ▸ h.aligned
  have htable : c'.table = c.table := by
    rw [hsame] at hsub
    rcases hsub with hsub | hsub
    · exact table_eq_of_subset hnodup hlen hc.aligned hsub
    · exact (table_eq_of_subset hnodup hc.aligned hlen hsub).symm
  -- the free blocks are the same ones, and both lists are descending
  have hperm : c'.pool.free.Perm c.pool.free := by
    have := h.perm
    rw [htable] at this
    exact (perm_append_right_iff _).mp this
  have hfree : c'.pool.free = c.pool.free :=
    h.descending.eq_of_mem_iff hc.descending fun {a} => hperm.mem_iff
  have hpool : c'.pool = c.pool := by rw [h.pool_eq, hfree]
  cases c'
  simp only at hsame htable hpool
  rw [hsame, htable, hpool]

/-- **Trading in every group, and moving nothing.** -/
theorem Trades.still (h : Inv H m) (hs : m.seqs[k]? = some s) (ht : Trades m.pools pools' s s')
    (hheld : ∀ (gi : ℕ) (g : LayerGroup), m.groups[gi]? = some g → g.spec.isPaged = true →
      ∀ i, i ∈ s'.held gi ↔ i ∈ s.held gi)
    (hsub : (∀ gi, s'.entries gi ⊆ s.entries gi) ∨ ∀ gi, s.entries gi ⊆ s'.entries gi) :
    pools' = m.pools ∧ ∀ gi, s'.held gi = s.held gi ∧ s'.table gi = s.table gi := by
  have hcell : ∀ (gi : ℕ) (p : BlockPool), m.pools[gi]? = some (some p) →
      pools'[gi]? = some (some p) ∧ s'.held gi = s.held gi ∧ s'.table gi = s.table gi := by
    intro gi p hp
    obtain ⟨p', hp', htrade⟩ := ht.paged gi p hp
    obtain ⟨g, hg, hpaged⟩ := h.shape.exists_paged hp
    have hstill := htrade.still (h.cell_ok hs hp) (hheld gi g hg hpaged) (hsub.imp (· gi) (· gi))
    obtain ⟨rfl, hh, htab⟩ : p' = p ∧ s'.held gi = s.held gi ∧ s'.table gi = s.table gi := by
      simpa using hstill
    exact ⟨hp', hh, htab⟩
  constructor
  · refine ext_getElem? fun gi => ?_
    rcases hp : m.pools[gi]? with _ | _ | p
    · rw [getElem?_eq_none_iff] at hp ⊢
      exact ht.pools_length ▸ hp
    · exact (ht.unpaged gi hp).1
    · exact (hcell gi p hp).1
  · intro gi
    rcases hp : m.pools[gi]? with _ | _ | p
    · have hinv := h.seqs k s hs
      have hge : m.groups.length ≤ gi := by
        rw [← h.shape.pools_length]
        exact getElem?_eq_none_iff.mp hp
      have h₁ : s.indices.length ≤ gi := hinv.indices_length ▸ hge
      have h₂ : s.tables.length ≤ gi := hinv.tables_length ▸ hge
      have h₃ : s'.indices.length ≤ gi := ht.indices_length ▸ h₁
      have h₄ : s'.tables.length ≤ gi := ht.tables_length ▸ h₂
      simp [SeqState.held, SeqState.table, h₁, h₂, h₃, h₄]
    · exact ⟨(ht.unpaged gi hp).2.2, (ht.unpaged gi hp).2.1⟩
    · exact (hcell gi p hp).2

end Still

/-! ### The mirror below the context -/

/-- What the policies have given up is not in the mirror. -/
def Cleared (m : StateManager) : Prop :=
  ∀ (k : SeqId) (s : SeqState), m.seqs[k]? = some s → ∀ (gi : ℕ) (g : LayerGroup) (r : Retain),
    m.groups[gi]? = some g → g.spec.retain = some r → ∀ pos, r.Evicted s.ctxLen (pos / 32) →
      s.mirror (gi, pos) = none

section Mirror

variable {H : SeqId → ℕ} {m m' : StateManager} {c : Call} {k : SeqId} {s s' : SeqState}

/-- **A step gives up what has left the mirror**, and stores nothing below the context. -/
theorem CallStep.cleared (hstep : CallStep m c m') (h : Cleared m) : Cleared m' := by
  -- what has to be shown of the sequence that a step replaces
  have hins : ∀ (k : SeqId) (s' : SeqState),
      (∀ (gi : ℕ) (g : LayerGroup) (r : Retain), m.groups[gi]? = some g → g.spec.retain = some r →
        ∀ pos, r.Evicted s'.ctxLen (pos / 32) → s'.mirror (gi, pos) = none) →
      ∀ (k' : SeqId) (t : SeqState), (m.seqs.insert k s')[k']? = some t →
        ∀ (gi : ℕ) (g : LayerGroup) (r : Retain), m.groups[gi]? = some g → g.spec.retain = some r →
          ∀ pos, r.Evicted t.ctxLen (pos / 32) → t.mirror (gi, pos) = none := by
    intro k s' hs' k' t ht
    rcases eq_or_ne k' k with rfl | hne
    · obtain rfl : s' = t := by simpa using ht
      exact hs'
    · rw [getElem?_insert_ne hne] at ht
      exact h k' t ht
  -- a run of cells from the context on is not below it
  have hstored : ∀ {k : SeqId} {s : SeqState} {start : ℕ} {cells : (ℕ → Option ℕ) → List (Option ℕ)}
      {mirror : Mirror}, m.seqs[k]? = some s → s.ctxLen ≤ start →
      StoredIn m.groups start cells s.mirror mirror →
      ∀ (gi : ℕ) (g : LayerGroup) (r : Retain), m.groups[gi]? = some g → g.spec.retain = some r →
        ∀ pos, r.Evicted s.ctxLen (pos / 32) → mirror (gi, pos) = none := by
    intro k s start cells mirror hs hle hst gi g r hg hr pos hev
    have hlt := hev.lt
    rw [hst gi g hg (StateSpec.isPaged_of_retain hr) pos, overwrite, if_neg (by omega)]
    exact h k s hs gi g r hg hr pos hev
  cases hstep with
  | newSeq => exact hins _ _ fun _ _ _ _ _ _ _ => rfl
  | reserve able done =>
    have hkept := h _ _ able.1
    refine hins _ _ ?_
    rw [done.frame]
    exact hkept
  | writeTokens able stored =>
    have hkept := hstored able.1 able.2.1 stored
    exact hins _ _ hkept
  | compact able stored =>
    have hkept := hstored able.live le_rfl stored
    exact hins _ _ hkept
  | commit able done =>
    refine hins _ _ fun gi g r hg hr pos hev => done.mirror_evicted gi g r hg hr pos ?_
    rwa [done.frame] at hev
  | freeSeq =>
    intro k' t ht
    rw [Std.ExtTreeMap.getElem?_erase] at ht
    split at ht
    · exact absurd ht (by simp)
    · exact h k' t ht

/-- **What is given up stays out of the mirror**, along every run. -/
theorem Cleared.run (h : Cleared m) (hinv : Inv H m) (calls : List Call) : Cleared (m.run calls) := by
  induction calls generalizing m H with
  | nil => exact h
  | cons c calls ih =>
    refine ih ?_ (hinv.exec c)
    change Cleared (c.exec m).2
    rcases c.exec_cases hinv with ⟨e, sc, he⟩ | ⟨m', he, hstep⟩
    · rw [he]
      exact h
    · rw [he]
      exact hstep.cleared h

theorem StateManager.Built.seqs_eq (h : m.Built) : m.seqs = ∅ := by
  obtain ⟨config, groups, poolBytes, hc, hv, hpool, h⟩ := h.exists_groups
  rcases newFromValidatedGroups_cases hc hv hpool with ⟨-, h'⟩ | ⟨-, e, h'⟩
  · obtain rfl := Except.ok.inj (h'.symm.trans h)
    rfl
  · simp [h'] at h

theorem StateManager.Reachable.cleared (h : m.Reachable) : Cleared m := by
  obtain ⟨m₀, calls, hb, rfl⟩ := h
  refine Cleared.run (fun k s hs => ?_) hb.inv calls
  rw [hb.seqs_eq] at hs
  simp at hs

theorem evictGroups_mirror {newCtx : ℕ} {groups : List (LayerGroup × ℕ)}
    {pools pools' : List (Option BlockPool)} (h : evictGroups newCtx groups pools s = (.ok (), pools', s'))
    (gi pos : ℕ) : s'.mirror (gi, pos) = s.mirror (gi, pos) ∨ ∃ g, (g, gi) ∈ groups ∧
      (evictRange newCtx g).1 ≤ pos / 32 ∧ pos / 32 < (evictRange newCtx g).2 := by
  induction groups generalizing pools s with
  | nil =>
    cases h
    exact Or.inl rfl
  | cons x groups ih =>
    obtain ⟨g, gj⟩ := x
    have hrest : ∀ {t : SeqState} {pools : List (Option BlockPool)},
        evictGroups newCtx groups pools t = (.ok (), pools', s') →
        s'.mirror (gi, pos) = t.mirror (gi, pos) ∨ ∃ g', (g', gi) ∈ (g, gj) :: groups ∧
          (evictRange newCtx g').1 ≤ pos / 32 ∧ pos / 32 < (evictRange newCtx g').2 := fun ht =>
      (ih ht).imp_right fun ⟨g', hg', hin⟩ => ⟨g', mem_cons_of_mem _ hg', hin⟩
    rw [evictGroups] at h
    simp only at h
    split at h
    · exact hrest h
    split at h
    · split at h
      · cases h
      · cases h
      · generalize dropRun _ _ _ _ _ = dropped at h
        obtain ⟨out, held', table', pool'⟩ := dropped
        split at h
        · cases h
        · rcases hrest h with heq | hin
          · simp only at heq
            split at heq
            · next hcon =>
              obtain ⟨rfl, hlo, hhi⟩ := hcon
              exact Or.inr ⟨g, mem_cons_self, hlo, hhi⟩
            · exact Or.inl heq
          · exact Or.inr hin
    · cases h

/-- **What a commit takes out of the mirror** is what the policies give up. -/
theorem commit_mirror (h : Inv H m) {accepted : ℕ} (hs : m.seqs[k]? = some s)
    (hok : m.commit k accepted = (.ok (), m')) (hs' : m'.seqs[k]? = some s') (gi pos : ℕ) :
    s'.mirror (gi, pos) = s.mirror (gi, pos) ∨ ∃ g r, m.groups[gi]? = some g ∧
      g.spec.retain = some r ∧ r.Evicted (s.ctxLen + accepted) (pos / 32) := by
  rw [commit] at hok
  split at hok
  · cases hok
  next s₀ plan hpass =>
  simp only [bind_eq_ok, lift_eq_ok, StateManager.seq, okOr_eq_ok, pure_eq_ok, Prod.mk.injEq] at hpass
  obtain ⟨t, ht, plan', hplan, -, -, -, -, rfl, rfl⟩ := hpass
  obtain rfl : s = t := Option.some.inj (hs.symm.trans ht)
  obtain ⟨-, rfl⟩ := (commitPlan_eq_ok h hs).mp hplan
  have hevicted : ∀ {pools : List (Option BlockPool)} {t : SeqState},
      evictGroups (s.ctxLen + accepted) m.groups.zipIdx m.pools
        { s with ctxLen := s.ctxLen + accepted, tailLen := 0, compacted := none } = (.ok (), pools, t) →
      t.mirror (gi, pos) = s.mirror (gi, pos) ∨ ∃ g r, m.groups[gi]? = some g ∧
        g.spec.retain = some r ∧ r.Evicted (s.ctxLen + accepted) (pos / 32) := by
    intro pools t hev
    refine (evictGroups_mirror hev gi pos).imp_right ?_
    rintro ⟨g, hg, hlo, hhi⟩
    cases hr : g.spec.retain with
    | none => simp [evictRange, hr] at hhi
    | some r =>
      exact ⟨g, r, mem_zipIdx_iff_getElem?.mp hg, hr, (mem_evictRange hr).mp ⟨hlo, hhi⟩⟩
  simp only [planOf] at hok
  split at hok
  · cases hok
  next pools t hev =>
  have hmirror := hevicted hev
  split at hok
  · obtain ⟨-, rfl⟩ := Prod.mk.inj hok
    simp only [Std.ExtTreeMap.getElem?_insert_self, Option.some.injEq] at hs'
    rwa [hs'] at hmirror
  · split at hok
    · cases hok
    · obtain ⟨-, rfl⟩ := Prod.mk.inj hok
      simp only [Std.ExtTreeMap.getElem?_insert_self, Option.some.injEq] at hs'
      rw [← hs']
      exact hmirror

end Mirror

/-! ### Writes into the reservation -/

/-- Writes into the reservation of a sequence, one after the other. -/
def StateManager.writeAll (m : StateManager) (k : SeqId) (writes : List (ℕ × List ℕ)) : StateManager :=
  m.run (writes.map fun w => .writeTokens k w.1 w.2)

section Write

variable {H : SeqId → ℕ} {m : StateManager} {k : SeqId} {s : SeqState}

theorem store_below {start pos : ℕ} (hlt : pos < start) (groups : List LayerGroup) (cells : List (Option ℕ))
    (mirror : Mirror) (gi : ℕ) :
    groups.zipIdx.foldl (fun mirror (g, gi) =>
      if g.spec.isPaged then storeRow gi start cells mirror else mirror) mirror (gi, pos) =
      mirror (gi, pos) := by
  have hnodup : (groups.zipIdx.map (·.2)).Nodup := by
    rw [zipIdx_map_snd]
    exact nodup_range'
  rw [foldl_store_apply (fun _ => cells) hnodup]
  split
  · rw [overwrite, if_neg (by omega)]
  · rfl

/-- **Writes change the mirror only**, and only from the context on. -/
theorem writeAll_eq (h : Inv H m) (hs : m.seqs[k]? = some s) (writes : List (ℕ × List ℕ)) :
    ∃ mirror, m.writeAll k writes = { m with seqs := m.seqs.insert k { s with mirror } } ∧
      ∀ gi pos, pos < s.ctxLen → mirror (gi, pos) = s.mirror (gi, pos) := by
  induction writes generalizing m s with
  | nil => exact ⟨s.mirror, by rw [insert_self_eq hs]; rfl, fun _ _ _ => rfl⟩
  | cons w writes ih =>
    obtain ⟨start, tokens⟩ := w
    have hcons : m.writeAll k ((start, tokens) :: writes) =
        (m.writeTokens k start tokens).2.writeAll k writes := rfl
    rcases hch : m.writeChecks k start tokens with e | t
    · have hno : (m.writeTokens k start tokens).2 = m := by simp only [writeTokens, hch]
      rw [hcons, hno]
      exact ih h hs
    · obtain ⟨ht, hle, -⟩ := (writeChecks_eq_ok h).mp hch
      obtain rfl : s = t := Option.some.inj (hs.symm.trans ht)
      obtain ⟨mirror₁, heq₁, hkept₁⟩ : ∃ mirror₁, (m.writeTokens k start tokens).2 =
          { m with seqs := m.seqs.insert k { s with mirror := mirror₁ } } ∧
          ∀ gi pos, pos < s.ctxLen → mirror₁ (gi, pos) = s.mirror (gi, pos) := by
        refine ⟨_, by simp only [writeTokens, hch]; rfl, fun gi pos hpos => ?_⟩
        exact store_below (hpos.trans_le hle) m.groups (tokens.map some) s.mirror gi
      obtain ⟨mirror, heq, hkept⟩ := ih (h.touch hs mirror₁ s.compacted)
        (s := { s with mirror := mirror₁ }) (by simp)
      refine ⟨mirror, ?_, fun gi pos hpos => (hkept gi pos hpos).trans (hkept₁ gi pos hpos)⟩
      rw [hcons, heq₁, heq]
      simp only [insert_insert_eq]

end Write

/-! ### Positions and their slots -/

section Mapped

variable {groups : List LayerGroup} {maxCtx high gi pos stop slot : ℕ} {s s' : SeqState}

/-- **The slot of a position** is its lane in the block of its index. -/
theorem flattenSlot_eq_ok (h : SeqInv groups maxCtx high s) :
    flattenSlot s gi pos stop = .ok slot ↔ s.InSlot gi pos slot ∧ slot < 2 ^ 32 := by
  simp only [flattenSlot, bind_eq_ok, okOr_eq_ok, ensure_eq_ok, Option.bind_eq_some_iff, mul_eq_some,
    add_eq_some, narrow_eq_some]
  simp only [blockTokens]
  constructor
  · rintro ⟨held, hheld, table, htable, -, hidx, id, hid, _, ⟨_, ⟨-, rfl⟩, -, rfl⟩, hlt, rfl⟩
    obtain rfl : s.held gi = held := by rw [SeqState.held, hheld, Option.getD_some]
    obtain rfl : s.table gi = table := by rw [SeqState.table, htable, Option.getD_some]
    exact ⟨⟨id, mem_iff_getElem?.mpr ⟨_, getElem?_zip_eq_some.mpr ⟨hidx, hid⟩⟩, rfl⟩, hlt⟩
  · rintro ⟨⟨id, hid, rfl⟩, hlt⟩
    obtain ⟨n, hn⟩ := mem_iff_getElem?.mp hid
    obtain ⟨hn₁, hn₂⟩ := getElem?_zip_eq_some.mp hn
    have hasc := h.ascending gi
    have hmem : pos / 32 ∈ s.held gi := mem_of_getElem? hn₁
    have hpoint := (Sorted.getElem?_partitionPoint hasc).mpr hmem
    have hnodup : (s.held gi).Nodup := hasc.imp fun hlt => Nat.ne_of_lt hlt
    obtain rfl := (List.getElem?_inj (List.getElem?_eq_some_iff.mp hn₁).1 hnodup).mp (hn₁.trans hpoint.symm)
    have hi : gi < s.indices.length := by
      by_contra hge
      simp [SeqState.held, getElem?_eq_none (Nat.not_lt.mp hge)] at hmem
    have ht : gi < s.tables.length := h.tables_length ▸ h.indices_length ▸ hi
    exact ⟨s.held gi, SeqState.getElem?_indices hi, s.table gi, SeqState.getElem?_tables ht, (), hpoint, id,
      hn₂, _, ⟨_, ⟨by omega, rfl⟩, by omega, rfl⟩, hlt, rfl⟩

/-- **What keeps its blocks keeps its slots.** -/
theorem flattenSlot_kept (h : SeqInv groups maxCtx high s) {groups' : List LayerGroup} {maxCtx' high' : ℕ}
    (h' : SeqInv groups' maxCtx' high' s')
    (hsub : s.entries gi ⊆ s'.entries gi) (hslot : flattenSlot s gi pos stop = .ok slot) :
    flattenSlot s' gi pos stop = .ok slot := by
  obtain ⟨⟨id, hid, rfl⟩, hlt⟩ := (flattenSlot_eq_ok h).mp hslot
  exact (flattenSlot_eq_ok h').mpr ⟨⟨id, hsub hid, rfl⟩, hlt⟩

end Mapped

/-! ### The law -/

/-- **What a rolled back reservation leaves.** The manager was `m` before the reservation of `n` tokens and
`m₁` after it, and is `m₂` after the commit of none; the sequence was `s` and is `s₂`. -/
structure RolledBack (m m₁ m₂ : StateManager) (k : SeqId) (n : ℕ) (s s₂ : SeqState) : Prop where
  live : m.seqs[k]? = some s
  live_after : m₂.seqs[k]? = some s₂
  ctxLen_eq : s₂.ctxLen = s.ctxLen
  tailLen_eq : s₂.tailLen = 0
  windowStart_eq : ∀ group, m₂.windowStart k group = m.windowStart k group
  parity_eq : s₂.parity = s.parity
  mirror_eq : ∀ gi pos, pos < s.ctxLen → s₂.mirror (gi, pos) = s.mirror (gi, pos)
  mapped_eq : ∀ gi pos stop slot, flattenSlot s gi pos stop = .ok slot →
    flattenSlot s₂ gi pos stop = .ok slot
  others_eq : ∀ k', k' ≠ k → m₂.seqs[k']? = m.seqs[k']?
  pools_eq : m₂.pools = m₁.pools
  again : ∀ j, 1 ≤ j → j ≤ n → ∃ m₃, m₂.reserve k j = (.ok ⟨k, s.ctxLen, j⟩, m₃) ∧
    m₃.pools = m₂.pools ∧ ∀ (gi : ℕ) (g : LayerGroup), m.groups[gi]? = some g → ∀ i < j,
      m₃.slot ⟨k, s.ctxLen, j⟩ gi i = m₁.slot ⟨k, s.ctxLen, n⟩ gi i

section Rollback

variable {H : SeqId → ℕ} {m m₂ : StateManager} {k : SeqId} {s s₁ : SeqState} {n : ℕ}

/-- **A commit of no token moves no block**: what its policies give up has been given up before. -/
theorem Committed.still (h : Inv H m) (hs : m.seqs[k]? = some s) {s' : SeqState}
    {pools' : List (Option BlockPool)} (hc : Committed m s 0 pools' s')
    (hsub : ∀ gi, s'.entries gi ⊆ s.entries gi) :
    pools' = m.pools ∧ ∀ gi, s'.held gi = s.held gi ∧ s'.table gi = s.table gi := by
  refine hc.trades.still h hs (fun gi g hg hp i => ?_) (Or.inl hsub)
  obtain ⟨r, hr⟩ := StateSpec.exists_retain hp
  rw [hc.mem_held gi g r hg hr]
  exact ⟨fun hi => hi.1, fun hi => ⟨hi, (((h.seqs k s hs).retained gi g r hg hr i).mp hi).2⟩⟩

/-- **A sequence that holds the blocks of a range gets it** without a free block, and the tokens of the
range have the slots of those blocks. -/
theorem reserve_again (h : Inv H m) (hs : m.seqs[k]? = some s) (htail : s.tailLen = 0) {j : ℕ}
    (hpos : 1 ≤ j) (hle : s.ctxLen + j ≤ m.config.maxCtx)
    (hheld : ∀ (gi : ℕ) (g : LayerGroup), m.groups[gi]? = some g → g.spec.isPaged = true →
      ∀ i, s.ctxLen / blockTokens ≤ i → i < divCeil (s.ctxLen + j) → i ∈ s.held gi) :
    ∃ m' s' H', m.reserve k j = (.ok ⟨k, s.ctxLen, j⟩, m') ∧ Inv H' m' ∧ m'.seqs[k]? = some s' ∧
      s'.ctxLen = s.ctxLen ∧ s'.tailLen = j ∧ m'.groups = m.groups ∧ m'.pools = m.pools ∧
      ∀ gi, s'.entries gi = s.entries gi := by
  have hr : Reservable m k j s := by
    refine ⟨hs, htail, hpos, hle, fun gi g p hg hp _ => ?_⟩
    have hnone : missing (s.held gi) (s.ctxLen / blockTokens) (divCeil (s.ctxLen + j)) = [] := by
      rw [eq_nil_iff_forall_not_mem]
      intro i hi
      obtain ⟨hlo, hhi, hno⟩ := (mem_missing ((h.seqs k s hs).ascending gi)).mp hi
      exact hno (hheld gi g hg hp i hlo hhi)
    rw [hnone]
    exact Nat.zero_le _
  rcases reserve_cases h k j with ⟨hno, -⟩ | ⟨t, pools', s', sc, hr', hres, heq⟩
  · exact absurd hr (hno s)
  obtain rfl : s = t := Option.some.inj (hs.symm.trans hr'.1)
  have hlive : (m.seqs.insert k s')[k]? = some s' := Std.ExtTreeMap.getElem?_insert_self
  obtain ⟨hpools, hsame⟩ := hres.trades.still h hs (fun gi g hg hp i => by
      rw [hres.mem_held gi g hg hp]
      exact ⟨fun hi => hi.elim id fun hi => hheld gi g hg hp i hi.1 hi.2, Or.inl⟩)
    (Or.inr (reserve_entries h hs heq hlive))
  refine ⟨_, s', _, heq, hres.inv h hr' sc, hlive, ?_, ?_, rfl, hpools, fun gi => ?_⟩
  · rw [hres.frame]
  · rw [hres.frame]
  · rw [SeqState.entries, SeqState.entries, (hsame gi).1, (hsame gi).2]

/-- **Rollback is neutral.** Let a reservation of a reachable manager be granted, and tokens perhaps be
written into it. The commit of no token then succeeds, unless the count of commits is at its end; and it
leaves the sequence with its length, its windows, its parities, its tokens and the slots of its
positions, and everything else as it was but the blocks of the reservation, which the sequence keeps: any
part of the reservation is granted again without a block from a pool, and has the same slots. -/
theorem rollback_neutral (h : m.Reachable) {r : SlotRange} {m₁ : StateManager}
    (hok : m.reserve k n = (.ok r, m₁)) (writes : List (ℕ × List ℕ)) :
    (((m₁.writeAll k writes).commit k 0).1 = .ok () ↔ m.commits + 1 < 2 ^ 64) ∧
    ∀ m₂, (m₁.writeAll k writes).commit k 0 = (.ok (), m₂) →
      ∃ s s₂, r = ⟨k, s.ctxLen, n⟩ ∧ RolledBack m m₁ m₂ k n s s₂ := by
  obtain ⟨H, hinv⟩ := h.exists_inv
  rcases reserve_cases hinv k n with ⟨-, e, sc, he⟩ | ⟨s, pools₁, s₁, sc, hr, hres, he⟩
  · rw [he] at hok
    exact absurd hok (by simp)
  obtain ⟨hr₁, hm₁⟩ := Prod.mk.inj (he.symm.trans hok)
  have hinv₁ := hres.inv hinv hr sc
  rw [hm₁] at hinv₁
  have hlive₁ : m₁.seqs[k]? = some s₁ := by
    rw [← hm₁]
    exact Std.ExtTreeMap.getElem?_insert_self
  have hctx₁ : s₁.ctxLen = s.ctxLen := by rw [hres.frame]
  have htail₁ : s₁.tailLen = n := by rw [hres.frame]
  obtain ⟨mirror, hw, hbelow⟩ := writeAll_eq hinv₁ hlive₁ writes
  -- the manager in which the commit is made
  have hinvw := hinv₁.touch hlive₁ mirror s₁.compacted
  rw [hw]
  set mw : StateManager := { m₁ with seqs := m₁.seqs.insert k { s₁ with mirror } } with hmw
  have hlivew : mw.seqs[k]? = some { s₁ with mirror } := Std.ExtTreeMap.getElem?_insert_self
  have hcommits : mw.commits = m.commits := by
    rw [hmw, ← hm₁]
  constructor
  · have hable : Committable mw k 0 { s₁ with mirror } ↔ m.commits + 1 < 2 ^ 64 := by
      refine ⟨fun hc => hcommits ▸ hc.commits_lt, fun hlt => ⟨hlivew, ?_, Nat.zero_le _, ?_, hcommits ▸ hlt,
        fun hno => absurd hno (Nat.lt_irrefl 0)⟩⟩
      · change s₁.tailLen ≠ 0
        have := hr.2.2.1
        omega
      · rw [hres.frame]
        simp
    rw [← hable]
    rcases commit_cases hinvw k 0 with ⟨hno, e, hce⟩ | ⟨t, pools₂, s₂, swaps, hc, -, hce⟩
    · rw [hce]
      exact ⟨fun hcon => absurd hcon (by simp), fun hc => absurd hc (hno _)⟩
    · rw [hce]
      obtain rfl : { s₁ with mirror } = t := Option.some.inj (hlivew.symm.trans hc.live)
      exact ⟨fun _ => hc, fun _ => rfl⟩
  · intro m₂ hcommit
    rcases commit_cases hinvw k 0 with ⟨-, e, hce⟩ | ⟨t, pools₂, s₂, swaps, hc, hcom, hce⟩
    · rw [hce] at hcommit
      exact absurd hcommit (by simp)
    obtain rfl : { s₁ with mirror } = t := Option.some.inj (hlivew.symm.trans hc.live)
    obtain ⟨-, hm₂⟩ := Prod.mk.inj (hce.symm.trans hcommit)
    have hinv₂ := hcom.inv hinvw hc swaps (mw.commits + 1)
    rw [hm₂] at hinv₂
    have hlive₂ : m₂.seqs[k]? = some s₂ := by
      rw [← hm₂]
      exact Std.ExtTreeMap.getElem?_insert_self
    have hctx₂ : s₂.ctxLen = s.ctxLen := by
      rw [hcom.frame]
      exact hctx₁
    have htail₂ : s₂.tailLen = 0 := by rw [hcom.frame]
    obtain ⟨hpools, hsame⟩ := hcom.still hinvw hlivew (commit_entries hinvw hlivew hcommit hlive₂)
    have hentries : ∀ gi, s₂.entries gi = s₁.entries gi := fun gi => by
      rw [SeqState.entries, (hsame gi).1, (hsame gi).2]
      rfl
    have hgroups : m₂.groups = m.groups := by rw [← hm₂, hmw, ← hm₁]
    have hconfig : m₂.config = m.config := by rw [← hm₂, hmw, ← hm₁]
    refine ⟨s, s₂, (Except.ok.inj hr₁).symm,
      { live := hr.1
        live_after := hlive₂
        ctxLen_eq := hctx₂
        tailLen_eq := htail₂
        windowStart_eq := ?_
        parity_eq := ?_
        mirror_eq := ?_
        mapped_eq := ?_
        others_eq := ?_
        pools_eq := ?_
        again := ?_ }⟩
    · intro group
      simp only [windowStart, StateManager.seq, hlive₂, hr.1, okOr_some, ok_bind, hctx₂, hgroups]
    · rw [hcom.parity_eq rfl]
      rw [hres.frame]
    · intro gi pos hpos
      rcases commit_mirror hinvw hlivew hcommit hlive₂ gi pos with heq | ⟨g, r', hg, hr', hev⟩
      · rw [heq]
        refine (hbelow gi pos (hctx₁ ▸ hpos)).trans ?_
        rw [hres.frame]
      · -- what the commit empties was empty before
        rw [hcom.mirror_evicted gi g r' hg hr' pos hev]
        have hg : m.groups[gi]? = some g := by
          rw [← hg, hmw, ← hm₁]
        have hev : r'.Evicted s.ctxLen (pos / 32) := hctx₁ ▸ hev
        exact (h.cleared k s hr.1 gi g r' hg hr' pos hev).symm
    · intro gi pos stop slot hslot
      refine flattenSlot_kept (hinv.seqs k s hr.1) (hinv₂.seqs k s₂ hlive₂) ?_ hslot
      rw [hentries gi]
      exact reserve_entries hinv hr.1 hok hlive₁ gi
    · intro k' hne
      rw [← hm₂, hmw, ← hm₁]
      simp only [getElem?_insert_ne hne]
    · rw [← hm₂]
      exact hpools
    · intro j hj hjn
      have hle := hr.2.2.2.1
      obtain ⟨m₃, s₃, H₃, hagain, hinv₃, hlive₃, hctx₃, htail₃, hgroups₃, hpools₃, hentries₃⟩ :=
        reserve_again hinv₂ hlive₂ htail₂ hj (by rw [hctx₂, hconfig]; omega) fun gi g hg hp i hlo hhi => by
          rw [(hsame gi).1]
          change i ∈ s₁.held gi
          rw [hres.mem_held gi g (hgroups ▸ hg) hp]
          rw [hctx₂] at hlo hhi
          refine Or.inr ⟨hlo, hhi.trans_le ?_⟩
          exact Nat.div_le_div_right (by omega)
      rw [hctx₂] at hagain hctx₃
      refine ⟨m₃, hagain, hpools₃, fun gi g hg i hi => ?_⟩
      have hg₁ : m₁.groups[gi]? = some g := by rw [← hm₁, hg]
      have hg₃ : m₃.groups[gi]? = some g := by rw [hgroups₃, hgroups, hg]
      have hrange₁ : (⟨k, s.ctxLen, n⟩ : SlotRange) = s₁.range k := by rw [SeqState.range, hctx₁, htail₁]
      have hrange₃ : (⟨k, s.ctxLen, j⟩ : SlotRange) = s₃.range k := by rw [SeqState.range, hctx₃, htail₃]
      rw [hrange₁, hrange₃]
      by_cases hp : g.spec.isPaged = true
      · obtain ⟨id₁, hid₁, -, hslot₁⟩ := slot_eq hinv₁ hlive₁ hg₁ hp (i := i) (by omega)
        obtain ⟨id₃, hid₃, -, hslot₃⟩ := slot_eq hinv₃ hlive₃ hg₃ hp (i := i) (by omega)
        rw [hentries₃, hentries, hctx₃, ← hctx₁] at hid₃
        rw [hslot₁, hslot₃, (hinv₁.seqs k s₁ hlive₁).entry_unique hid₁ hid₃, hctx₁, hctx₃]
      · have hp : g.spec.isPaged = false := by simpa using hp
        rw [slot_unpaged hlive₁ hg₁ hp (by omega), slot_unpaged hlive₃ hg₃ hp (by omega)]

end Rollback

/-- A reservation over a block boundary is rolled back after a write. -/
theorem rollback_neutral_small : ∃ m₁ m₂ : StateManager, ∃ s s₂,
    (small.run [.newSeq [], .reserve 0 40, .commit 0 40]).reserve 0 30 = (.ok ⟨0, 40, 30⟩, m₁) ∧
      RolledBack (small.run [.newSeq [], .reserve 0 40, .commit 0 40]) m₁ m₂ 0 30 s s₂ := by
  have hopen : (small.run [.newSeq [], .reserve 0 40, .commit 0 40]).reserve 0 30 = (.ok ⟨0, 40, 30⟩,
      ((small.run [.newSeq [], .reserve 0 40, .commit 0 40]).reserve 0 30).2) := Prod.ext rfl rfl
  obtain ⟨hcommits, hback⟩ := rollback_neutral ⟨small, _, small_built, rfl⟩ hopen [(40, [7, 8])]
  have hcommit := hcommits.mpr (by decide)
  obtain ⟨s, s₂, -, hrolled⟩ := hback _ (Prod.ext hcommit rfl)
  exact ⟨_, _, s, s₂, hopen, hrolled⟩

end R9v

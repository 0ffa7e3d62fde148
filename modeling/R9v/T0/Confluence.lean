import R9v.Lib.Loops
import R9v.Lib.Schedules
import R9v.T0.Values

/-!
# The order of a run

What has to run before what in a step graph (`Graph.MustPrecede`): what produces an input, through
any number of views, before the node that reads it, and of two nodes that name the same state the
one that was added first. The executor finds an order exactly when this has no cycle
(`state_ordered`). Which of the orders it finds does not matter when the operations use no state
but the one that they name (`run_any_order`).
-/

namespace R9v

open Checked List Schedules
open Relation (ReflTransGen TransGen)

variable {F ω κ σ : Type}

/-! ### What comes before what -/

namespace Graph

variable (g : Graph ω) (handle : ω → Option StateHandle)

/-- An edge is a view of another. -/
def IsView (e s : ℕ) : Prop := g.source e = some s

/-- An edge is an output of a node. -/
def IsOutput (p e : ℕ) : Prop := ∃ n, g.nodes[p]? = some n ∧ e ∈ n.outputs

/-- A node has an input whose chain of views ends in an output of another. -/
def ReadsFrom (i p : ℕ) : Prop :=
  ∃ n, g.nodes[i]? = some n ∧ ∃ e ∈ n.inputs, ∃ t, ReflTransGen g.IsView e t ∧ g.IsOutput p t

/-- Two nodes name the same state. -/
def SameState (i j : ℕ) : Prop :=
  ∃ n m h, g.nodes[i]? = some n ∧ g.nodes[j]? = some m ∧ handle n.op = some h ∧ handle m.op = some h

/-- A node has to run before another. -/
def MustPrecede (p i : ℕ) : Prop := g.ReadsFrom i p ∨ (p < i ∧ g.SameState handle p i)

end Graph

section Links

variable {g : Graph ω} {handle : ω → Option StateHandle} {i j p e : ℕ}

theorem Graph.IsOutput.unique (hi : g.IsOutput i e) (hj : g.IsOutput j e) : i = j := by
  wlog hlt : i < j generalizing i j
  · rcases Nat.lt_or_ge j i with hji | hij
    · exact (this hj hi hji).symm
    · omega
  obtain ⟨n, hn, he⟩ := hi
  obtain ⟨n', hn', he'⟩ := hj
  obtain ⟨hilt, rfl⟩ := List.getElem?_eq_some_iff.mp hn
  obtain ⟨hjlt, rfl⟩ := List.getElem?_eq_some_iff.mp hn'
  have hdisjoint := pairwise_iff_getElem.mp (nodup_flatMap.mp g.output_nodup).2 i j hilt hjlt hlt
  exact (hdisjoint he he').elim

theorem Graph.IsOutput.source_eq (hi : g.IsOutput i e) : g.source e = none := by
  obtain ⟨n, hn, he⟩ := hi
  obtain ⟨edge, hedge, hnone⟩ := g.output_plain n (mem_of_getElem? hn) e he
  rw [Graph.source, hedge, Option.bind_some, hnone]

theorem producer_eq_some : g.producer e = some p ↔ g.IsOutput p e := by
  have hsound : ∀ {q}, g.producer e = some q → g.IsOutput q e := by
    intro q hq
    obtain ⟨hlt, hout, -⟩ := findIdx?_eq_some_iff_getElem.mp hq
    exact ⟨g.nodes[q], getElem?_eq_getElem hlt, contains_iff_mem.mp hout⟩
  refine ⟨hsound, fun hp => ?_⟩
  obtain ⟨n, hn, he⟩ := id hp
  obtain ⟨q, -, hq, -⟩ := exists_producer ⟨n, mem_of_getElem? hn, he⟩
  rw [hq, hp.unique (hsound hq)]

/-- The producer of an edge is at the end of its chain of views. The fuel is enough, as a view is
newer than its source. -/
theorem resolve_eq_some {fuel : ℕ} (hfuel : e < fuel) :
    g.resolve fuel e = some p ↔ ∃ t, ReflTransGen g.IsView e t ∧ g.IsOutput p t := by
  induction fuel generalizing e with
  | zero => exact absurd hfuel (Nat.not_lt_zero e)
  | succ fuel ih =>
    cases hq : g.producer e with
    | some q =>
      have hout := producer_eq_some.mp hq
      simp only [Graph.resolve, hq, Option.some.injEq]
      constructor
      · rintro rfl
        exact ⟨e, .refl, hout⟩
      · rintro ⟨t, hchain, hp⟩
        -- the chain ends where it begins
        rcases ReflTransGen.cases_head hchain with rfl | ⟨s, hs, -⟩
        · exact hout.unique hp
        · exact absurd (hs.symm.trans hout.source_eq) (by simp)
    | none =>
      have hnot : ¬g.IsOutput p e := fun hp => by simp [producer_eq_some.mpr hp] at hq
      simp only [Graph.resolve, hq]
      constructor
      · intro hp
        obtain ⟨s, hs, hrest⟩ := Option.bind_eq_some_iff.mp hp
        obtain ⟨edge, hedge, hsource⟩ := Option.bind_eq_some_iff.mp hs
        have hlt := g.source_lt e edge s hedge hsource
        obtain ⟨t, hchain, hout⟩ := (ih (by omega)).mp hrest
        exact ⟨t, .head hs hchain, hout⟩
      · rintro ⟨t, hchain, hp⟩
        rcases ReflTransGen.cases_head hchain with rfl | ⟨s, hs, hrest⟩
        · exact absurd hp hnot
        · obtain ⟨edge, hedge, hsource⟩ := Option.bind_eq_some_iff.mp hs
          have hlt := g.source_lt e edge s hedge hsource
          exact Option.bind_eq_some_iff.mpr ⟨s, hs, (ih (by omega)).mpr ⟨t, hrest, hp⟩⟩

theorem mem_tensorLinks : (p, i) ∈ g.tensorLinks ↔ g.ReadsFrom i p := by
  unfold Graph.tensorLinks Graph.ReadsFrom
  rw [mem_flatMap]
  constructor
  · rintro ⟨⟨n, i'⟩, hn, hmem⟩
    obtain ⟨e, he, hlink⟩ := mem_filterMap.mp hmem
    obtain ⟨p', hp, heq⟩ := Option.map_eq_some_iff.mp hlink
    cases heq
    have hn := mem_zipIdx_iff_getElem?.mp hn
    have hlt := g.input_lt n (mem_of_getElem? hn) e he
    exact ⟨n, hn, e, he, (resolve_eq_some (Nat.lt_succ_of_lt hlt)).mp hp⟩
  · rintro ⟨n, hn, e, he, hchain⟩
    have hlt := g.input_lt n (mem_of_getElem? hn) e he
    refine ⟨(n, i), mem_zipIdx_iff_getElem?.mpr hn, mem_filterMap.mpr ⟨e, he, ?_⟩⟩
    rw [(resolve_eq_some (Nat.lt_succ_of_lt hlt)).mpr hchain]
    rfl

theorem stateKey_injective : Function.Injective stateKey := by
  rintro ⟨layer, kind⟩ ⟨layer', kind'⟩ h
  cases kind <;> cases kind' <;> simp_all [stateKey]

/-- The nodes with a state. -/
def Graph.chain (g : Graph ω) (handle : ω → Option StateHandle) (key : ℕ × ℕ) : List ℕ :=
  ((g.nodes.zipIdx.filterMap fun (n, i) => (handle n.op).map fun h => (stateKey h, i)).filter
    (·.1 = key)).map (·.2)

theorem mem_chain {key : ℕ × ℕ} : i ∈ g.chain handle key ↔
    ∃ n h, g.nodes[i]? = some n ∧ handle n.op = some h ∧ stateKey h = key := by
  unfold Graph.chain
  constructor
  · intro hi
    obtain ⟨⟨key', i'⟩, hp, rfl⟩ := mem_map.mp hi
    obtain ⟨hp, hkey⟩ := mem_filter.mp hp
    obtain ⟨⟨n, j⟩, hn, hstate⟩ := mem_filterMap.mp hp
    obtain ⟨h, hh, heq⟩ := Option.map_eq_some_iff.mp hstate
    obtain ⟨rfl, rfl⟩ := Prod.mk.inj heq
    exact ⟨n, h, mem_zipIdx_iff_getElem?.mp hn, hh, by simpa using hkey⟩
  · rintro ⟨n, h, hn, hh, rfl⟩
    refine mem_map.mpr ⟨(stateKey h, i), mem_filter.mpr ⟨mem_filterMap.mpr ⟨(n, i), ?_, ?_⟩, ?_⟩, rfl⟩
    · exact mem_zipIdx_iff_getElem?.mpr hn
    · simp only [hh, Option.map_some]
    · simp

theorem pairwise_chain (key : ℕ × ℕ) : (g.chain handle key).Pairwise (· < ·) := by
  have hidx : g.nodes.zipIdx.Pairwise (·.2 < ·.2) := by
    have hrange : (g.nodes.zipIdx.map Prod.snd).Pairwise (· < ·) := by
      rw [zipIdx_map_snd]
      exact pairwise_lt_range'
    exact pairwise_map.mp hrange
  refine pairwise_map.mpr (Pairwise.filter _ (hidx.filterMap _ ?_))
  rintro ⟨n, i⟩ ⟨m, j⟩ hlt x hx y hy
  obtain ⟨h, -, rfl⟩ := Option.map_eq_some_iff.mp hx
  obtain ⟨h', -, rfl⟩ := Option.map_eq_some_iff.mp hy
  exact hlt

theorem mem_stateLinks : (i, j) ∈ g.stateLinks handle ↔
    ∃ key, (i, j) ∈ (g.chain handle key).zip (g.chain handle key).tail := by
  simp only [Graph.stateLinks, mem_flatMap, mem_dedup, mem_mergeSort]
  refine ⟨fun ⟨key, _, h⟩ => ⟨key, h⟩, fun ⟨key, h⟩ => ⟨key, ?_, h⟩⟩
  obtain ⟨p, hp, hkey⟩ := mem_map.mp (lt_of_mem_zip (pairwise_chain key) h).1
  obtain ⟨hp, heq⟩ := mem_filter.mp hp
  exact mem_map.mpr ⟨p, hp, by simpa using heq⟩

/-- A link says what comes before what. -/
theorem mustPrecede_of_link (h : Link (g.links handle) p i) : g.MustPrecede handle p i := by
  rcases mem_append.mp h with h | h
  · exact Or.inl (mem_tensorLinks.mp h)
  · obtain ⟨key, h⟩ := mem_stateLinks.mp h
    obtain ⟨hp, hi, hlt⟩ := lt_of_mem_zip (pairwise_chain key) h
    obtain ⟨n, hn, hnodes, hstate, hkey⟩ := mem_chain.mp hp
    obtain ⟨m, hm, hnodes', hstate', hkey'⟩ := mem_chain.mp hi
    obtain rfl := stateKey_injective (hkey.trans hkey'.symm)
    exact Or.inr ⟨hlt, n, m, hn, hnodes, hnodes', hstate, hstate'⟩

/-- What has to come before a node leads to it along links. -/
theorem transGen_link (h : g.MustPrecede handle p i) : TransGen (Link (g.links handle)) p i := by
  rcases h with h | ⟨hlt, n, m, h, hn, hm, hp, hi⟩
  · exact .single (mem_append_left _ (mem_tensorLinks.mpr h))
  · have hpath := transGen_of_lt (@pairwise_chain ω g handle (stateKey h))
      (mem_chain.mpr ⟨n, h, hn, hp, rfl⟩) (mem_chain.mpr ⟨m, h, hm, hi, rfl⟩) hlt
    exact TransGen.mono (fun a b hab =>
      mem_append_right _ (mem_stateLinks.mpr ⟨stateKey h, hab⟩)) p i hpath

theorem transGen_link_iff :
    TransGen (Link (g.links handle)) p i ↔ TransGen (g.MustPrecede handle) p i :=
  ⟨TransGen.mono (fun _ _ => mustPrecede_of_link) p i,
    fun h => TransGen.lift' id (fun _ _ => transGen_link) p i h⟩

theorem Graph.MustPrecede.lt (h : g.MustPrecede handle p i) :
    p < g.nodes.length ∧ i < g.nodes.length := by
  rcases h with ⟨n, hn, e, -, t, -, m, hm, -⟩ | ⟨-, n, m, -, hm, hn, -⟩
  all_goals exact ⟨(List.getElem?_eq_some_iff.mp hm).1, (List.getElem?_eq_some_iff.mp hn).1⟩

theorem Graph.links_lt : ∀ l ∈ g.links handle, l.1 < g.nodes.length ∧ l.2 < g.nodes.length :=
  fun _ hl => (mustPrecede_of_link hl).lt

theorem stateOrdered_ok_iff :
    (∃ order, stateOrdered g handle = (.ok order : Except (ExecError F) (List ℕ))) ↔
      ∀ i, ¬TransGen (g.MustPrecede handle) i i := by
  simp only [← transGen_link_iff, ← kahn_acyclic g.links_lt,
    ← kahn_length_iff fun l hl => (g.links_lt l hl).2, stateOrdered]
  split_ifs with hlen
  · refine iff_of_false ?_ hlen
    rintro ⟨order, h⟩
    cases h
  · exact iff_of_true ⟨_, rfl⟩ (not_not.mp hlen)

theorem stateOrdered_ok {order : List ℕ}
    (h : stateOrdered g handle = (.ok order : Except (ExecError F) (List ℕ))) :
    order.Perm (List.range g.nodes.length) ∧ Ordered (g.MustPrecede handle) order := by
  have hlt : ∀ l ∈ g.links handle, l.2 < g.nodes.length := fun l hl => (g.links_lt l hl).2
  simp only [stateOrdered] at h
  split_ifs at h with hlen
  obtain rfl := Except.ok.inj h
  refine ⟨kahn_perm hlt ((kahn_length_iff hlt).mp (not_not.mp hlen)), fun a i b hab p hp => ?_⟩
  exact (kahn_ordered hlt).trans a i b hab p (transGen_link hp)

/-- **The order of the executor**: there is one exactly when nothing has to come before itself; it
has every node once, after all that have to come before it; and the error names a node that comes
after a cycle. -/
theorem state_ordered (g : Graph ω) (handle : ω → Option StateHandle) :
    ((∃ order, stateOrdered g handle = (.ok order : Except (ExecError F) (List ℕ))) ↔
      ∀ i, ¬TransGen (g.MustPrecede handle) i i) ∧
    (∀ order, stateOrdered g handle = (.ok order : Except (ExecError F) (List ℕ)) →
      order.Perm (List.range g.nodes.length) ∧ Ordered (g.MustPrecede handle) order) ∧
    ∀ err : ExecError F, stateOrdered g handle = .error err →
      ∃ i < g.nodes.length, err = .ir (.graphCycle i) ∧
        ∃ c, ReflTransGen (g.MustPrecede handle) c i ∧ TransGen (g.MustPrecede handle) c c := by
  refine ⟨stateOrdered_ok_iff, fun order => stateOrdered_ok, fun err herr => ?_⟩
  simp only [stateOrdered] at herr
  split_ifs at herr with hlen
  obtain ⟨n, hn, hfind, c, hpath, hcycle⟩ := kahn_stuck g.links_lt hlen
  rw [hfind, Option.getD_some] at herr
  exact ⟨n, hn, (Except.error.inj herr).symm, c,
    ReflTransGen.mono (fun _ _ => mustPrecede_of_link) c n hpath, transGen_link_iff.mp hcycle⟩

end Links

/-! ### What a node reads and writes -/

/-- The operations divide the state into parts: each of them uses one part at most. -/
structure Parts {ρ τ : Type} (d : Dispatch F ω κ (ρ → τ)) where
  part : ω → Option ρ
  frame : ∀ {node op inputs outputs batch args s r}, part op ≠ some r →
    (d.perform node op inputs outputs batch args s).2 r = s r
  congr : ∀ {node op inputs outputs batch args s s'}, (∀ r, part op = some r → s r = s' r) →
    (d.perform node op inputs outputs batch args s).1 =
        (d.perform node op inputs outputs batch args s').1 ∧
      ∀ r, part op = some r → (d.perform node op inputs outputs batch args s).2 r =
        (d.perform node op inputs outputs batch args s').2 r

section Nodes

variable {ρ τ : Type} (g : Graph ω) (scales : ℕ → Option ℕ) (part : ω → Option ρ)

/-- An edge that is looked up for an input: its own, the one that it is a view of, or its scales. -/
def LookedUp (e' e : ℕ) : Prop := e' = e ∨ g.IsView e' e ∨ scales e' = some e

/-- What a node reads: edges, and a part of the state. -/
def Reads (i : ℕ) : ℕ ⊕ ρ → Prop
  | .inl e => ∃ n, g.nodes[i]? = some n ∧ ∃ e' ∈ n.inputs, LookedUp g scales e' e
  | .inr r => ∃ n, g.nodes[i]? = some n ∧ part n.op = some r

/-- What a node writes. -/
def Writes (i : ℕ) : ℕ ⊕ ρ → Prop
  | .inl e => g.IsOutput i e
  | .inr r => ∃ n, g.nodes[i]? = some n ∧ part n.op = some r

/-- What there is at a place. -/
def look (s : Store F × (ρ → τ)) : ℕ ⊕ ρ → Option (TypedBuffer F) ⊕ τ
  | .inl e => .inl (s.1 e)
  | .inr r => .inr (s.2 r)

/-- Runs a node and publishes its outputs. -/
def stepNode [Zero F] (d : Dispatch F ω κ σ) (batch : BatchMeta) (args : κ) (i : ℕ)
    (s : Store F × σ) : Option (Store F × σ) :=
  match g.nodes[i]? with
  | none => none
  | some n =>
    match runNode g d i n batch args s.1 scales s.2 with
    | (.error _, _) => none
    | (.ok produced, state) => some (publish s.1 produced, state)

end Nodes

section Run

variable [Zero F] {d : Dispatch F ω κ σ} {g : Graph ω} {batch : BatchMeta} {args : κ}
  {scales : ℕ → Option ℕ} {i : ℕ} {n : GraphNode ω}

theorem stepNode_eq_some {s s' : Store F × σ} : stepNode g scales d batch args i s = some s' ↔
    ∃ n produced state, g.nodes[i]? = some n ∧
      runNode g d i n batch args s.1 scales s.2 = (.ok produced, state) ∧
      s' = (publish s.1 produced, state) := by
  unfold stepNode
  cases hn : g.nodes[i]? with
  | none => simp
  | some n =>
    cases hrun : runNode g d i n batch args s.1 scales s.2 with
    | mk result state =>
      cases result with
      | error e => simp [hrun]
      | ok produced => simp [hrun, eq_comm]

theorem runNodes_eq_ok {order : List ℕ} {ex ex' : CpuExecutor F σ} {made : Store F} :
    (runNodes d g batch args order ex made).result = .ok () ∧
        (runNodes d g batch args order ex made).executor = ex' ↔
      ∃ s, run (stepNode g ex.scales d batch args) order (ex.store, ex.state) = some s ∧
        ex' = ⟨s.1, ex.scales, s.2⟩ := by
  induction order generalizing ex made with
  | nil => simp [runNodes, run, eq_comm]
  | cons i order ih =>
    rw [runNodes, run_cons, stepNode]
    cases hn : g.nodes[i]? with
    | none => simp
    | some n =>
      simp only
      cases hrun : runNode g d i n batch args ex.store ex.scales ex.state with
      | mk result state =>
        cases result with
        | error e => simp
        | ok produced => exact ih

omit [Zero F] in
theorem inputBuffer_congr {node e : ℕ} {store store' : Store F}
    (h : ∀ e', LookedUp g scales e e' → store e' = store' e') :
    inputBuffer g node batch store e = inputBuffer g node batch store' e := by
  unfold inputBuffer
  rw [h e (Or.inl rfl)]
  cases store' e with
  | some b => rfl
  | none =>
    cases hedge : g.edges[e]? with
    | none => rfl
    | some edge =>
      cases hs : edge.sourceEdge with
      | none => simp [hs]
      | some s =>
        have hview : g.IsView e s := by rw [Graph.IsView, Graph.source, hedge, Option.bind_some, hs]
        simp only [okOr_some, ok_bind, hs, h s (Or.inr (Or.inl hview))]

theorem gatherOperands_congr {node : ℕ} {store store' : Store F}
    (h : ∀ e ∈ n.inputs, ∀ e', LookedUp g scales e e' → store e' = store' e') :
    gatherOperands g node n batch store scales = gatherOperands g node n batch store' scales := by
  have hviews (buffers : List (TypedBuffer F)) :
      ((n.inputs.zip buffers).mapM fun p => scaledView node store scales p.1 p.2) =
        (n.inputs.zip buffers).mapM fun p => scaledView node store' scales p.1 p.2 := by
    refine mapM_congr fun p hp => ?_
    have he := (of_mem_zip hp).1
    dsimp only [scaledView]
    cases hs : scales p.1 with
    | none => rfl
    | some s => simp only [h _ he s (Or.inr (Or.inr hs))]
  unfold gatherOperands
  rw [mapM_congr fun e he => inputBuffer_congr (h e he)]
  simp only [hviews]

/-- What a node computes depends on what it reads only. -/
theorem runNode_congr {ρ τ : Type} {d : Dispatch F ω κ (ρ → τ)} (parts : Parts d) {node : ℕ}
    {store store' : Store F} {state state' s : ρ → τ} {produced : List (ℕ × TypedBuffer F)}
    (hstore : ∀ e ∈ n.inputs, ∀ e', LookedUp g scales e e' → store e' = store' e')
    (hstate : ∀ r, parts.part n.op = some r → state r = state' r)
    (h : runNode g d node n batch args store scales state = (.ok produced, s)) :
    ∃ s', runNode g d node n batch args store' scales state' = (.ok produced, s') ∧
      ∀ r, parts.part n.op = some r → s' r = s r := by
  rw [runNode, gatherOperands_congr hstore] at h
  rw [runNode]
  cases hop : gatherOperands g node n batch store' scales with
  | error e =>
    rw [hop] at h
    cases h
  | ok operands =>
    simp only [hop] at h
    obtain ⟨hres, hpart⟩ : (d.perform node n.op operands.2 operands.1 batch args state).1 =
        (d.perform node n.op operands.2 operands.1 batch args state').1 ∧ _ := parts.congr hstate
    dsimp only
    cases hrun : d.perform node n.op operands.2 operands.1 batch args state with
    | mk result t =>
      cases hrun' : d.perform node n.op operands.2 operands.1 batch args state' with
      | mk result' t' =>
        rw [hrun, hrun'] at hres hpart
        rw [hrun] at h
        obtain rfl : result = result' := hres
        cases result with
        | error e => cases h
        | ok outs =>
          obtain ⟨hprod, rfl⟩ := Prod.mk.inj h
          exact ⟨t', by rw [← hprod], fun r hr => (hpart r hr).symm⟩

theorem runNode_frame {ρ τ : Type} {d : Dispatch F ω κ (ρ → τ)} (parts : Parts d) {node : ℕ}
    {store : Store F} {state s : ρ → τ} {result : Except (ExecError F) (List (ℕ × TypedBuffer F))}
    (h : runNode g d node n batch args store scales state = (result, s)) {r : ρ}
    (hr : parts.part n.op ≠ some r) : s r = state r := by
  rw [runNode] at h
  cases hop : gatherOperands g node n batch store scales with
  | error e =>
    rw [hop] at h
    rw [(Prod.mk.inj h).2]
  | ok operands =>
    have hframe : (d.perform node n.op operands.2 operands.1 batch args state).2 r = state r :=
      parts.frame hr
    simp only [hop] at h
    cases hrun : d.perform node n.op operands.2 operands.1 batch args state with
    | mk result' t =>
      rw [hrun] at h hframe
      cases result' <;> rwa [← (Prod.mk.inj h).2]

/-- **A node changes what it writes** and depends on what it reads. -/
theorem footprint_stepNode {ρ τ : Type} {d : Dispatch F ω κ (ρ → τ)} (parts : Parts d) :
    Footprint (stepNode g scales d batch args) look (Reads g scales parts.part)
      (Writes g parts.part) where
  ext s t h := by
    refine Prod.ext (funext fun e => ?_) (funext fun r => ?_)
    · exact Sum.inl.inj (h (.inl e))
    · exact Sum.inr.inj (h (.inr r))
  frame {i s s' l} h hw := by
    obtain ⟨n, produced, state, hn, hrun, rfl⟩ := stepNode_eq_some.mp h
    cases l with
    | inl e =>
      refine congrArg Sum.inl (publish_of_notMem fun hmem => hw ⟨n, hn, ?_⟩)
      rwa [(runNode_produced hrun).1] at hmem
    | inr r => exact congrArg Sum.inr (runNode_frame parts hrun fun hr => hw ⟨n, hn, hr⟩)
  congr {i s s' t} h hreads := by
    obtain ⟨n, produced, state, hn, hrun, rfl⟩ := stepNode_eq_some.mp h
    obtain ⟨state', hrun', hpart⟩ := runNode_congr parts
      (fun e he e' hlook => Sum.inl.inj (hreads (.inl e') ⟨n, hn, e, he, hlook⟩))
      (fun r hr => Sum.inr.inj (hreads (.inr r) ⟨n, hn, hr⟩)) hrun
    refine ⟨_, stepNode_eq_some.mpr ⟨n, produced, state', hn, hrun', rfl⟩, fun l hl => ?_⟩
    cases l with
    | inl e =>
      obtain ⟨m, hm, he⟩ := hl
      obtain rfl := Option.some.inj (hn.symm.trans hm)
      rw [← (runNode_produced hrun).1] at he
      obtain ⟨b, -, hb, hb'⟩ := @exists_publish F e t.1 s.1 produced he
      exact congrArg Sum.inl (hb.trans hb'.symm)
    | inr r =>
      obtain ⟨m, hm, hr⟩ := hl
      obtain rfl := Option.some.inj (hn.symm.trans hm)
      exact congrArg Sum.inr (hpart r hr)

end Run

/-! ### Runs in any order -/

section AnyOrder

variable {ρ τ : Type} [Zero F] {d : Dispatch F ω κ (ρ → τ)} {g : Graph ω} {scales : ℕ → Option ℕ}

/-- Nodes that use the same part of the state name the same state. -/
def SharedPart (g : Graph ω) (parts : Parts d) : Prop :=
  ∀ i j n m r, i ≠ j → g.nodes[i]? = some n → g.nodes[j]? = some m →
    parts.part n.op = some r → parts.part m.op = some r → g.SameState d.handle i j

/-- The scales of an input are not written by a node that may run later. -/
def ScalesFirst (g : Graph ω) (handle : ω → Option StateHandle) (scales : ℕ → Option ℕ) : Prop :=
  ∀ i n e s p, g.nodes[i]? = some n → e ∈ n.inputs → scales e = some s → g.IsOutput p s →
    TransGen (g.MustPrecede handle) p i

omit [Zero F] in
/-- Two nodes of which one writes what the other uses have an order. -/
theorem order_of_writes {parts : Parts d} (hparts : SharedPart g parts)
    (hscales : ScalesFirst g d.handle scales) {i j : ℕ} (hne : i ≠ j) {l : ℕ ⊕ ρ}
    (hi : Writes g parts.part i l) (hj : Reads g scales parts.part j l ∨ Writes g parts.part j l) :
    TransGen (g.MustPrecede d.handle) i j ∨ TransGen (g.MustPrecede d.handle) j i := by
  cases l with
  | inl e =>
    rcases hj with ⟨n, hn, e', he', rfl | hview | hscale⟩ | hj
    · exact Or.inl (.single (Or.inl ⟨n, hn, e', he', e', .refl, hi⟩))
    · exact Or.inl (.single (Or.inl ⟨n, hn, e', he', e, .single hview, hi⟩))
    · exact Or.inl (hscales j n e' e i hn he' hscale hi)
    · exact absurd (hi.unique hj) hne
  | inr r =>
    obtain ⟨n, hn, hpart⟩ := hi
    obtain ⟨m, hm, hpart'⟩ : ∃ m, g.nodes[j]? = some m ∧ parts.part m.op = some r := or_self_iff.mp hj
    rcases Nat.lt_or_gt_of_ne hne with hlt | hgt
    · exact Or.inl (.single (Or.inr ⟨hlt, hparts i j n m r hne hn hm hpart hpart'⟩))
    · exact Or.inr (.single (Or.inr ⟨hgt, hparts j i m n r hne.symm hm hn hpart' hpart⟩))

/-- **The order does not matter.** When the operations divide the state, any order of the nodes in
which each comes after all that have to come before it does what the executor does: it succeeds or
not alike, and leaves the same edges and the same state. -/
theorem run_any_order (parts : Parts d) (hparts : SharedPart g parts) (ex : CpuExecutor F (ρ → τ))
    (hscales : ScalesFirst g d.handle ex.scales) (batch : BatchMeta) (args : κ) {order : List ℕ}
    (hperm : order.Perm (List.range g.nodes.length)) (hord : Ordered (g.MustPrecede d.handle) order)
    (ex' : CpuExecutor F (ρ → τ)) :
    (ex.run d g batch args).result = .ok () ∧ (ex.run d g batch args).executor = ex' ↔
      let outcome := runNodes d g batch args order ⟨ex.store, ex.scales, d.enter args ex.state⟩
        fun _ => none
      outcome.result = .ok () ∧ outcome.executor = ex' := by
  have hnodup : order.Nodup := hperm.nodup_iff.mpr nodup_range
  have hacyclic : ∀ i, ¬TransGen (g.MustPrecede d.handle) i i := by
    intro i hpath
    obtain ⟨p, -, hp⟩ := TransGen.tail'_iff.mp hpath
    exact hord.trans.irrefl hnodup (hperm.mem_iff.mpr (mem_range.mpr hp.lt.2)) hpath
  obtain ⟨order₀, horder⟩ := (stateOrdered_ok_iff (F := F)).mpr hacyclic
  obtain ⟨hperm₀, hord₀⟩ := stateOrdered_ok horder
  have hnodup₀ : order₀.Nodup := hperm₀.nodup_iff.mpr nodup_range
  -- nodes without an order do not write what the other uses
  have hex : ∀ i j, i ≠ j → ¬TransGen (g.MustPrecede d.handle) i j →
      ¬TransGen (g.MustPrecede d.handle) j i →
      Exchange (stepNode g ex.scales d batch args) i j := by
    intro i j hne hij hji
    have hfree : ∀ l, Writes g parts.part i l → ¬(Reads g ex.scales parts.part j l ∨
        Writes g parts.part j l) := fun l hi hj =>
      (order_of_writes hparts hscales hne hi hj).elim hij hji
    have hfree' : ∀ l, Writes g parts.part j l → ¬(Reads g ex.scales parts.part i l ∨
        Writes g parts.part i l) := fun l hj hi =>
      (order_of_writes hparts hscales hne.symm hj hi).elim hji hij
    exact (footprint_stepNode parts).exchange (fun l hl => not_or.mp (hfree l hl))
      fun l hl => not_or.mp (hfree' l hl)
  have hrun := run_eq_of_along hex (hperm₀.trans hperm.symm) hnodup₀ (hord₀.trans.along hnodup₀)
    (hord.trans.along hnodup) (ex.store, d.enter args ex.state)
  rw [CpuExecutor.run, horder]
  dsimp only
  rw [runNodes_eq_ok, runNodes_eq_ok, hrun]

end AnyOrder

/-! ### Two layers -/

/-- An operation that counts how often it was used for its state. -/
def tally : Dispatch Float32 StateHandle Unit (ℕ × ℕ → ℕ) where
  handle := some
  enter _ s := s
  perform _ op _ outputs _ _ s :=
    (.ok outputs, Function.update s (stateKey op) (s (stateKey op) + 1))
  shape_eq h := by
    obtain ⟨houts, -⟩ := Prod.mk.inj h
    rw [Except.ok.inj houts]

def tallyParts : Parts tally where
  part op := some (stateKey op)
  frame hne := Function.update_of_ne (fun heq => hne (congrArg some heq.symm)) _ _
  congr h := by
    refine ⟨rfl, fun r hr => ?_⟩
    obtain rfl := Option.some.inj hr
    simp only [tally, Function.update_self, h _ rfl]

/-- Two layers, each with a state. -/
def twoLayers : Graph StateHandle :=
  ((Graph.new 0).pushNode ⟨0, .recurrent⟩ [] [fourParam [.concrete 2, .concrete 2] rfl]
    (by simp)).pushNode ⟨1, .recurrent⟩ [] [fourParam [.concrete 2, .concrete 2] rfl] (by simp)

theorem twoLayers_free (p i : ℕ) : ¬twoLayers.MustPrecede tally.handle p i := by
  have hnone : ∀ n ∈ twoLayers.nodes, n.inputs = [] := by decide
  rintro (⟨n, hn, e, he, -⟩ | ⟨hlt, n, m, h, hn, hm, hp, hi⟩)
  · rw [hnone n (mem_of_getElem? hn)] at he
    cases he
  · have hinj : (twoLayers.nodes.map (·.op)).Nodup := by decide
    have hops : n.op = m.op := (Option.some.inj hp).trans (Option.some.inj hi).symm
    have hget : (twoLayers.nodes.map (·.op))[p]? = (twoLayers.nodes.map (·.op))[i]? := by
      rw [getElem?_map, getElem?_map, hn, hm, Option.map_some, Option.map_some, hops]
    have hp := (List.getElem?_eq_some_iff.mp hn).1
    exact hlt.ne ((getElem?_inj (by rwa [length_map]) hinj).mp hget)

/-- The second layer can run first. -/
theorem run_any_order_twoLayers :
    let ex : CpuExecutor Float32 (ℕ × ℕ → ℕ) := CpuExecutor.new fun _ => 0
    (ex.run tally twoLayers oneTokenMeta ()).result = .ok () ∧
      (ex.run tally twoLayers oneTokenMeta ()).executor =
        (runNodes tally twoLayers oneTokenMeta () [1, 0] ex fun _ => none).executor := by
  intro ex
  refine (run_any_order tallyParts ?_ ex ?_ oneTokenMeta () (by decide) ?_ _).mpr ⟨rfl, rfl⟩
  · intro i j n m r hne hn hm hi hj
    have heq := stateKey_injective ((Option.some.inj hi).trans (Option.some.inj hj).symm)
    exact ⟨n, m, n.op, hn, hm, rfl, congrArg some heq.symm⟩
  · intro i n e s p hn he hs
    cases hs
  · intro a i b hab p hp
    exact absurd hp (twoLayers_free p i)

end R9v

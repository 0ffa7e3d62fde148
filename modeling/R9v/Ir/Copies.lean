import R9v.Ir.Order

/-!
# What the pass that inserts copies preserves

A pass is right (`StepGraph.Materialized`) when every input that has to be contiguous is, every
node reads what it read before or a copy of it, an edge has one copy at most, no cycle is made, nothing
else changes, and another pass has nothing to do. This is so exactly when the older copies that
the pass finds are still copies (`StepGraph.CopiesIntact`): it takes the edge of an older copy
without a look at its strides or at what the copy reads.
-/

namespace R9v

open List

namespace StepGraph

variable {ω : Type} {g g' : StepGraph ω}

/-! ### What a pass is for -/

/-- Tensors that differ in their layout only. -/
structure SameTensor (t t' : Tensor) : Prop where
  shape_eq : t'.shape = t.shape
  dtype_eq : t'.dtype = t.dtype
  quant_eq : t'.quant = t.quant
  placement_eq : t'.placement = t.placement
  sharding_eq : t'.sharding = t.sharding
  cls_eq : t'.cls = t.cls

theorem sameTensor_contiguize (t : Tensor) : SameTensor t (contiguize t) := ⟨rfl, rfl, rfl, rfl, rfl, rfl⟩

/-- An edge stands for another: it is the same, or the output of a copy of it. -/
def StandsFor (g : StepGraph ω) (e' e : ℕ) : Prop :=
  e' = e ∨ ∃ (c : ℕ) (n : StepNode ω) (src dest : GraphEdge), g.nodes[c]? = some n ∧ n.op = .copy .contiguize ∧
    n.inputs = [e] ∧ e' ∈ n.outputs ∧ g.edges[e]? = some src ∧ g.edges[e']? = some dest ∧ SameTensor src.tensor dest.tensor

/-- What a pass that inserts `k` copies has to do. -/
structure Materialized (g g' : StepGraph ω) (k : ℕ) : Prop where
  contiguous : ∀ (i : ℕ) (n : StepNode ω) (p e : ℕ), g'.nodes[i]? = some n → n.op.isCopy = false → n.inputs[p]? = some e →
    n.inputRequirements.getD p .any = .contiguous →
    ∃ edge : GraphEdge, g'.edges[e]? = some edge ∧ edge.isContiguous = true
  inputs : ∀ (i : ℕ) (n n' : StepNode ω), g.nodes[i]? = some n → g'.nodes[i]? = some n' →
    n'.inputs.length = n.inputs.length ∧
    ∀ (p e e' : ℕ), n.inputs[p]? = some e → n'.inputs[p]? = some e' → g'.StandsFor e' e
  once : (g'.insertedCopies.map (·.sourceEdge)).Nodup
  acyclic : (∀ m, ¬Relation.TransGen g.Depends m m) → ∀ m, ¬Relation.TransGen g'.Depends m m
  nodes : ∀ (i : ℕ) (n : StepNode ω), g.nodes[i]? = some n → ∃ n', g'.nodes[i]? = some n' ∧ n'.op = n.op ∧
    n'.inputRequirements = n.inputRequirements ∧ n'.outputs = n.outputs
  added : g'.nodes.length = g.nodes.length + k ∧
    ∀ (i : ℕ) (n : StepNode ω), g.nodes.length ≤ i → g'.nodes[i]? = some n → n.op = .copy .contiguize
  edges : g.edges <+: g'.edges
  outside : g'.key = g.key ∧ g'.externalInputs = g.externalInputs ∧
    g'.externalOutputs = g.externalOutputs ∧ g'.positions = g.positions
  again : g'.materializeCopies = (.ok 0, g')

/-- The older copies that a pass would use are copies of the edge, and contiguous. -/
def CopiesIntact (g : StepGraph ω) : Prop :=
  ∀ i p e, (i, p, e) ∈ g.mismatches → ∀ c ∈ g.insertedCopies, c.sourceEdge = e →
    (∃ n : StepNode ω, g.nodes[c.copyNode]? = some n ∧ n.inputs = [e]) ∧
    ∃ edge : GraphEdge, g.edges[c.destEdge]? = some edge ∧ edge.isContiguous = true

/-! ### What a pass does -/

/-- The edge that comes in the place of one: that of an older copy, or of a new one. -/
inductive Dest (g g' : StepGraph ω) (e : ℕ) : ℕ → Prop
  | older (c : InsertedCopy) : c ∈ g.insertedCopies → c.sourceEdge = e → Dest g g' e c.destEdge
  | newer (i d : ℕ) (src : GraphEdge) : (∀ c ∈ g.insertedCopies, c.sourceEdge ≠ e) →
      g'.nodes[i]? = some (copyNode e d) → g.edges[e]? = some src →
      g'.edges[d]? = some (copyEdge src) → Dest g g' e d

/-- The inputs with a mismatch are replaced, and the nodes and the edges that are new are those of
copies. -/
structure Passed (g g' : StepGraph ω) (k : ℕ) : Prop where
  nodes : ∀ (i : ℕ) (n : StepNode ω), g.nodes[i]? = some n → ∃ n', g'.nodes[i]? = some n' ∧ Reads n n' ∧
    ∀ (p e e' : ℕ), n.inputs[p]? = some e → n'.inputs[p]? = some e' →
      (e' = e ∧ (i, p, e) ∉ g.mismatches) ∨ ((i, p, e) ∈ g.mismatches ∧ Dest g g' e e')
  length_eq : g'.nodes.length = g.nodes.length + k
  added : ∀ (i : ℕ) (n' : StepNode ω), g.nodes.length ≤ i → g'.nodes[i]? = some n' →
    ∃ e d, n' = copyNode e d ∧ e < g.edges.length ∧ g.edges.length ≤ d
  edges : g.edges <+: g'.edges
  outside : g'.key = g.key ∧ g'.externalInputs = g.externalInputs ∧
    g'.externalOutputs = g.externalOutputs ∧ g'.positions = g.positions

theorem getElem?_copyNodes {plans : List CopyPlan} {dest k : ℕ} :
    (copyNodes dest plans : List (StepNode ω))[k]? =
      (plans[k]?).map fun plan => copyNode plan.srcEdge (dest + k) := by
  induction plans generalizing dest k with
  | nil => simp [copyNodes]
  | cons plan plans ih =>
    cases k with
    | zero => simp [copyNodes]
    | succ k =>
      rw [copyNodes, getElem?_cons_succ, getElem?_cons_succ, ih, Nat.add_right_comm,
        Nat.add_assoc]

theorem length_copyNodes {plans : List CopyPlan} {dest : ℕ} :
    (copyNodes dest plans : List (StepNode ω)).length = plans.length := by
  induction plans generalizing dest with
  | nil => rfl
  | cons plan plans ih => simp [copyNodes, ih]

theorem passed (g : StepGraph ω) : Passed g g.materializeCopies.2 g.planned.plans.length := by
  have hx := g.collected_planned
  obtain ⟨srcs, older, copies, heq, hforall, hends, hends'⟩ := g.materializeCopies_eq
  set dest := g.edges.length with hdest
  have hg' := congrArg Prod.snd heq
  set l := g.planned.existingRewires ++ assignments dest g.planned.plans with hl
  -- where the nodes and the edges are found
  have hold : ∀ i < g.nodes.length, g.materializeCopies.2.nodes[i]? = (assign g.nodes l)[i]? := by
    intro i hi
    rw [hg']
    exact List.getElem?_append_left (by rwa [length_assign])
  have hnew : ∀ i, g.nodes.length ≤ i → g.materializeCopies.2.nodes[i]? =
      (g.planned.plans[i - g.nodes.length]?).map fun plan =>
        copyNode plan.srcEdge (dest + (i - g.nodes.length)) := by
    intro i hi
    rw [hg']
    refine (List.getElem?_append_right (by rwa [length_assign])).trans ?_
    rw [length_assign, getElem?_copyNodes]
  have hedge : ∀ k plan, g.planned.plans[k]? = some plan → ∃ src, g.edges[plan.srcEdge]? = some src ∧
      g.materializeCopies.2.edges[dest + k]? = some (copyEdge src) := by
    intro k plan hk
    obtain ⟨hlt, rfl⟩ := List.getElem?_eq_some_iff.mp hk
    have hlt' : k < srcs.length := hforall.length_eq ▸ hlt
    refine ⟨srcs[k], List.forall₂_iff_get.mp hforall |>.2 k hlt hlt', ?_⟩
    rw [hg']
    refine (List.getElem?_append_right (Nat.le_add_right _ _)).trans ?_
    rw [Nat.add_sub_cancel_left, List.getElem?_map, List.getElem?_eq_getElem hlt', Option.map_some]
  -- what is assigned is for a mismatch, and every mismatch is assigned something
  have hsound : ∀ d i p, (d, i, p) ∈ l → ∃ e, (i, p, e) ∈ g.mismatches ∧
      Dest g g.materializeCopies.2 e d := by
    intro d i p hin
    rw [hl, List.mem_append, hx.rewires, mem_assignments] at hin
    rcases hin with ⟨e, c, hin, hc, rfl⟩ | ⟨k, plan, hk, rfl, hin⟩
    · exact ⟨e, hin, .older c (List.mem_of_find?_eq_some hc) (by simpa using List.find?_some hc)⟩
    · have hplan := List.mem_of_getElem? hk
      obtain ⟨src, hsrc, hcopy⟩ := hedge k plan hk
      refine ⟨plan.srcEdge, (hx.consumers plan hplan i p).mp hin,
        .newer (g.nodes.length + k) _ src ?_ ?_ hsrc hcopy⟩
      · simpa using List.find?_eq_none.mp (hx.fresh plan hplan)
      · rw [hnew _ (Nat.le_add_right _ _), Nat.add_sub_cancel_left, hk, Option.map_some]
  have hcomplete : ∀ i p e, (i, p, e) ∈ g.mismatches → ∃ d, (d, i, p) ∈ l := by
    intro i p e hin
    cases hfind : g.insertedCopies.find? (·.sourceEdge = e) with
    | some c =>
      exact ⟨c.destEdge, List.mem_append_left _ ((hx.rewires _ i p).mpr ⟨e, c, hin, hfind, rfl⟩)⟩
    | none =>
      obtain ⟨plan, hplan, rfl⟩ := hx.complete i p e hin hfind
      obtain ⟨k, hk⟩ := List.mem_iff_getElem?.mp hplan
      exact ⟨dest + k, List.mem_append_right _
        (mem_assignments.mpr ⟨k, plan, hk, rfl, (hx.consumers plan hplan i p).mpr hin⟩)⟩
  refine ⟨fun i n hn => ?_, ?_, fun i n' hi hn' => ?_, ?_, ?_⟩
  · obtain ⟨n', hn', hreads, hall⟩ := getElem?_assign (l := l) hn
    refine ⟨n', (hold i (List.getElem?_eq_some_iff.mp hn).1).trans hn', hreads, fun p e e' he he' => ?_⟩
    rcases hall p e' he' with ⟨hsame, hnot⟩ | hin
    · refine Or.inl ⟨Option.some.inj (hsame.symm.trans he), fun hmis => ?_⟩
      obtain ⟨d, hd⟩ := hcomplete i p e hmis
      exact hnot d hd
    · obtain ⟨e₁, hmis, hd⟩ := hsound e' i p hin
      obtain ⟨n₁, -, hn₁, -, he₁, -⟩ := mem_mismatches.mp hmis
      obtain rfl := Option.some.inj (hn.symm.trans hn₁)
      obtain rfl := Option.some.inj (he.symm.trans he₁)
      exact Or.inr ⟨hmis, hd⟩
  · rw [hg']
    simp [length_copyNodes]
  · rw [hnew i hi] at hn'
    obtain ⟨plan, hplan, rfl⟩ := Option.map_eq_some_iff.mp hn'
    obtain ⟨src, hsrc, -⟩ := hedge _ plan hplan
    exact ⟨plan.srcEdge, _, rfl, (List.getElem?_eq_some_iff.mp hsrc).1, Nat.le_add_right _ _⟩
  · rw [hg']
    exact List.prefix_append _ _
  · rw [hg']
    exact ⟨rfl, rfl, rfl, rfl⟩

/-! ### When a pass is right -/

section Passed

variable {k : ℕ}

theorem Passed.getElem?_edges (hp : Passed g g' k) {e : ℕ} (he : e < g.edges.length) :
    g'.edges[e]? = g.edges[e]? := by
  obtain ⟨more, hmore⟩ := hp.edges
  rw [← hmore, getElem?_append_left he]

theorem Passed.copy_inputs (hp : Passed g g' k) {i : ℕ} {n : StepNode ω} (hn : g.nodes[i]? = some n)
    (hcopy : n.op.isCopy = true) : ∃ n', g'.nodes[i]? = some n' ∧ Reads n n' ∧ n'.inputs = n.inputs := by
  obtain ⟨n', hn', hreads, hall⟩ := hp.nodes i n hn
  refine ⟨n', hn', hreads, ext_getElem hreads.length_eq fun p hp' hp => ?_⟩
  rcases hall p _ _ (getElem?_eq_getElem hp) (getElem?_eq_getElem hp') with ⟨heq, -⟩ | ⟨hmis, -⟩
  · exact heq
  · obtain ⟨n₁, -, hn₁, hnot, -⟩ := mem_mismatches.mp hmis
    obtain rfl := Option.some.inj (hn.symm.trans hn₁)
    exact absurd (hcopy.symm.trans hnot) (by simp)

/-- The edge that comes in the place of another is that of a copy of it. -/
structure CopyOf (g : StepGraph ω) (c e' e : ℕ) : Prop where
  node : ∃ n, g.nodes[c]? = some n ∧ n.op = .copy .contiguize ∧ n.inputs = [e] ∧ n.outputs = [e']
  edges : ∃ src dest, g.edges[e]? = some src ∧ g.edges[e']? = some dest ∧
    SameTensor src.tensor dest.tensor ∧ dest.isContiguous = true

/-- With older copies that are still copies, what a pass uses is copies. -/
theorem Passed.copyOf (hp : Passed g g' k) (h : WellFormed g) (hintact : g.CopiesIntact) {i p e e' : ℕ}
    (hmis : (i, p, e) ∈ g.mismatches) (hd : Dest g g' e e') : ∃ c, g'.CopyOf c e' e := by
  obtain ⟨n, edge, -, -, -, -, hedge, -⟩ := mem_mismatches.mp hmis
  have he := (List.getElem?_eq_some_iff.mp hedge).1
  cases hd with
  | older c hc hce =>
    obtain ⟨⟨n₁, hn₁, hin⟩, dest, hdest, hcont⟩ := hintact i p e hmis c hc hce
    obtain ⟨⟨n₂, hn₂, hop, -, hout⟩, src, dest₂, hsrc, hdest₂, htensor⟩ := h.recorded c hc
    obtain rfl := Option.some.inj (hn₁.symm.trans hn₂)
    obtain rfl := Option.some.inj (hdest.symm.trans hdest₂)
    obtain ⟨n', hn', hreads, hsame⟩ := hp.copy_inputs hn₁ (by rw [hop]; rfl)
    refine ⟨c.copyNode, ⟨n', hn', hreads.op_eq.trans hop, hsame.trans hin, hreads.outputs_eq.trans hout⟩,
      src, dest, ?_, ?_, ?_, hcont⟩
    · rw [hp.getElem?_edges he, ← hce, hsrc]
    · rw [hp.getElem?_edges (List.getElem?_eq_some_iff.mp hdest).1, hdest]
    · rw [htensor]
      exact sameTensor_contiguize _
  | newer j d src hfresh hnode hsrc hcopy =>
    refine ⟨j, ⟨_, hnode, rfl, rfl, rfl⟩, src, _, ?_, hcopy, sameTensor_contiguize _, ?_⟩
    · rw [hp.getElem?_edges he, hsrc]
    · simp [GraphEdge.isContiguous, copyEdge, contiguize]

theorem Passed.contiguous (hp : Passed g g' k) (h : WellFormed g) (hintact : g.CopiesIntact)
    (i : ℕ) (n' : StepNode ω) (p e' : ℕ) (hn' : g'.nodes[i]? = some n') (hop : n'.op.isCopy = false)
    (he' : n'.inputs[p]? = some e') (hreq : n'.inputRequirements.getD p .any = .contiguous) :
    ∃ edge : GraphEdge, g'.edges[e']? = some edge ∧ edge.isContiguous = true := by
  rcases Nat.lt_or_ge i g.nodes.length with hi | hi
  · have hn := getElem?_eq_getElem hi
    set n := g.nodes[i]
    obtain ⟨n₁, hn₁, hreads, hall⟩ := hp.nodes i n hn
    obtain rfl := Option.some.inj (hn'.symm.trans hn₁)
    have hplt : p < n.inputs.length := hreads.length_eq ▸ (List.getElem?_eq_some_iff.mp he').1
    have he := getElem?_eq_getElem hplt
    rcases hall p _ e' he he' with ⟨rfl, hnot⟩ | ⟨hmis, hd⟩
    · have hlt := h.input_lt n (mem_of_getElem? hn) _ (getElem_mem hplt)
      refine ⟨_, (hp.getElem?_edges hlt).trans (getElem?_eq_getElem hlt), ?_⟩
      by_contra hcont
      refine hnot (mem_mismatches.mpr ⟨n, _, hn, hreads.op_eq ▸ hop, he, ?_,
        getElem?_eq_getElem hlt, by simpa using hcont⟩)
      rw [← hreads.requirements_eq, hreq]
    · obtain ⟨c, -, src, dest, -, hdest, -, hcont⟩ := hp.copyOf h hintact hmis hd
      exact ⟨dest, hdest, hcont⟩
  · obtain ⟨e, d, rfl, -⟩ := hp.added i n' hi hn'
    exact absurd hop (by simp [copyNode, StepOp.isCopy])

theorem Passed.standsFor (hp : Passed g g' k) (h : WellFormed g) (hintact : g.CopiesIntact)
    (i : ℕ) (n n' : StepNode ω) (hn : g.nodes[i]? = some n) (hn' : g'.nodes[i]? = some n') :
    n'.inputs.length = n.inputs.length ∧
    ∀ (p e e' : ℕ), n.inputs[p]? = some e → n'.inputs[p]? = some e' → g'.StandsFor e' e := by
  obtain ⟨n₁, hn₁, hreads, hall⟩ := hp.nodes i n hn
  obtain rfl := Option.some.inj (hn'.symm.trans hn₁)
  refine ⟨hreads.length_eq, fun p e e' he he' => ?_⟩
  rcases hall p e e' he he' with ⟨rfl, -⟩ | ⟨hmis, hd⟩
  · exact Or.inl rfl
  · obtain ⟨c, ⟨m, hm, hop, hin, hout⟩, src, dest, hsrc, hdest, hsame, -⟩ := hp.copyOf h hintact hmis hd
    exact Or.inr ⟨c, m, src, dest, hm, hop, hin, by simp [hout], hsrc, hdest, hsame⟩

/-- A pass over a graph where every input is as it has to be does nothing. -/
theorem materializeCopies_of_contiguous
    (hcont : ∀ (i : ℕ) (n : StepNode ω) (p e : ℕ), g.nodes[i]? = some n → n.op.isCopy = false →
      n.inputs[p]? = some e → n.inputRequirements.getD p .any = .contiguous →
      ∃ edge : GraphEdge, g.edges[e]? = some edge ∧ edge.isContiguous = true) :
    g.materializeCopies = (.ok 0, g) := by
  have hnone : g.mismatches = [] := by
    refine eq_nil_iff_forall_not_mem.mpr ?_
    rintro ⟨i, p, e⟩ hmis
    obtain ⟨n, edge, hn, hop, he, hreq, hedge, hnot⟩ := mem_mismatches.mp hmis
    obtain ⟨edge', hedge', hcont⟩ := hcont i n p e hn hop he hreq
    obtain rfl := Option.some.inj (hedge.symm.trans hedge')
    exact absurd (hcont.symm.trans hnot) (by simp)
  unfold materializeCopies
  rw [hnone]
  rfl

/-! ### Dependencies -/

theorem Passed.old_chain (hp : Passed g g' k) (h : WellFormed g) {e t y : ℕ} (he : e < g.edges.length)
    (hchain : Relation.ReflTransGen g'.IsView e t) (hy : g'.Produces y t) :
    Relation.ReflTransGen g.IsView e t ∧ g.Produces y t := by
  have hpath : Relation.ReflTransGen g.IsView e t ∧ t < g.edges.length := by
    clear hy
    induction hchain with
    | refl => exact ⟨.refl, he⟩
    | tail _ hview ih =>
      obtain ⟨edge, hedge, hs⟩ := hview
      rw [hp.getElem?_edges ih.2] at hedge
      exact ⟨ih.1.tail ⟨edge, hedge, hs⟩, (h.source_lt _ edge _ hedge hs).trans ih.2⟩
  refine ⟨hpath.1, ?_⟩
  obtain ⟨n', hn', ht⟩ := hy
  rcases Nat.lt_or_ge y g.nodes.length with hlt | hge
  · obtain ⟨n₁, hn₁, hreads, -⟩ := hp.nodes y _ (getElem?_eq_getElem hlt)
    obtain rfl := Option.some.inj (hn'.symm.trans hn₁)
    exact ⟨_, getElem?_eq_getElem hlt, hreads.outputs_eq ▸ ht⟩
  · obtain ⟨_, d, rfl, -, hd⟩ := hp.added y n' hge hn'
    obtain rfl := mem_singleton.mp ht
    exact absurd hpath.2 (Nat.not_lt.mpr hd)

/-- **A pass makes no cycle**: a copy is a detour on the way to the producer of what it copies. -/
theorem Passed.acyclic (hp : Passed g g' k) (h : WellFormed g) (h' : WellFormed g')
    (hintact : g.CopiesIntact) (hno : ∀ m, ¬Relation.TransGen g.Depends m m) (m : ℕ) :
    ¬Relation.TransGen g'.Depends m m := by
  refine Cycles.no_cycle_of_shortcut (D := g.Depends) (O := (· < g.nodes.length))
    (N := fun x c => ∃ n e e', g.nodes[x]? = some n ∧ n.op.isCopy = false ∧ e ∈ n.inputs ∧
      g'.CopyOf c e' e) ?_ ?_ ?_ (fun _ _ hdep => hdep.lt) ?_ ?_ hno m
  · rintro x y hx ⟨n', hn', e', he', t, hchain, hy⟩
    obtain ⟨n₁, hn₁, hreads, hall⟩ := hp.nodes x _ (getElem?_eq_getElem hx)
    obtain rfl := Option.some.inj (hn'.symm.trans hn₁)
    obtain ⟨p, hp'⟩ := mem_iff_getElem?.mp he'
    have hplt : p < g.nodes[x].inputs.length := hreads.length_eq ▸ (List.getElem?_eq_some_iff.mp hp').1
    rcases hall p _ e' (getElem?_eq_getElem hplt) hp' with ⟨rfl, -⟩ | ⟨hmis, hd⟩
    · have hmem := getElem_mem hplt
      have hlt := h.input_lt _ (getElem_mem hx) _ hmem
      exact Or.inl ⟨_, getElem?_eq_getElem hx, _, hmem, t, hp.old_chain h hlt hchain hy⟩
    · obtain ⟨c, hc⟩ := hp.copyOf h hintact hmis hd
      obtain ⟨⟨m, hm, -, -, hout⟩, -⟩ := id hc
      have hprod : g'.Produces c e' := ⟨m, hm, by simp [hout]⟩
      -- what a copy produces is not a view, so that the chain ends there
      rcases Relation.ReflTransGen.cases_head hchain with rfl | ⟨s, hs, -⟩
      · obtain rfl := h'.produces_unique hy hprod
        obtain ⟨n, -, hn, hop, -⟩ := mem_mismatches.mp hmis
        obtain rfl := Option.some.inj ((getElem?_eq_getElem hx).symm.trans hn)
        exact Or.inr ⟨_, _, _, hn, hop, getElem_mem hplt, hc⟩
      · exact absurd hs (h'.not_isView hprod)
  · rintro x c y ⟨n, e, e', hn, -, he, ⟨m, hm, -, hin, -⟩, -⟩ ⟨m', hm', e₁, he₁, t, hchain, hy⟩
    obtain rfl := Option.some.inj (hm.symm.trans hm')
    rw [hin] at he₁
    obtain rfl := mem_singleton.mp he₁
    have hlt := h.input_lt n (mem_of_getElem? hn) _ he
    exact ⟨n, hn, _, he, t, hp.old_chain h hlt hchain hy⟩
  · rintro x c y ⟨n, e, e', hn, -, he, ⟨m, hm, hop, hin, -⟩, -⟩ ⟨m', hm', e₁, he₁, t, hchain, hy⟩
    obtain ⟨m₁, hm₁, hreads, -⟩ := hp.nodes c m' hm'
    obtain rfl := Option.some.inj (hm.symm.trans hm₁)
    obtain ⟨m₂, hm₂, -, hsame⟩ := hp.copy_inputs hm' (by rw [← hreads.op_eq, hop]; rfl)
    obtain rfl := Option.some.inj (hm.symm.trans hm₂)
    rw [← hsame, hin] at he₁
    obtain rfl := mem_singleton.mp he₁
    exact ⟨n, hn, _, he, t, hchain, hy⟩
  · rintro x y hx ⟨n', hn', e, he, t, hchain, hy⟩
    obtain ⟨s, d, rfl, hs, -⟩ := hp.added x n' (Nat.not_lt.mp hx) hn'
    obtain rfl := mem_singleton.mp he
    exact (hp.old_chain h hs hchain hy).2.lt
  · rintro x ⟨n, e, e', hn, hop, -, ⟨m, hm, hcopy, -⟩, -⟩
    obtain ⟨n', hn', hreads, -⟩ := hp.nodes x n hn
    obtain rfl := Option.some.inj (hm.symm.trans hn')
    rw [← hreads.op_eq, hcopy] at hop
    exact absurd hop (by simp [StepOp.isCopy])

/-! ### The other way -/

theorem Dest.eq_destEdge {e d : ℕ} (hd : Dest g g' e d) (h : WellFormed g) {c : InsertedCopy}
    (hc : c ∈ g.insertedCopies) (hce : c.sourceEdge = e) : d = c.destEdge := by
  cases hd with
  | older c' hc' hce' => rw [inj_on_of_nodup_map h.sources_nodup hc' hc (hce'.trans hce.symm)]
  | newer _ _ _ hfresh => exact absurd hce (hfresh c hc)

theorem Passed.copiesIntact (hp : Passed g g' k) (h : WellFormed g) (h' : WellFormed g')
    (hright : Materialized g g' k) : g.CopiesIntact := by
  intro i p e hmis c hc hce
  obtain ⟨n, edge, hn, hop, he, hreq, hedge, hnot⟩ := mem_mismatches.mp hmis
  obtain ⟨⟨m, hm, hmop, hone, hout⟩, -, dest, -, hdest, -⟩ := h.recorded c hc
  have hdlt := (List.getElem?_eq_some_iff.mp hdest).1
  obtain ⟨n', hn', hreads, hall⟩ := hp.nodes i n hn
  have hplt : p < n'.inputs.length := hreads.length_eq ▸ (List.getElem?_eq_some_iff.mp he).1
  have he' := List.getElem?_eq_getElem hplt
  -- the input reads the edge of the older copy
  have hcopy : n'.inputs[p] = c.destEdge := by
    rcases hall p e _ he he' with ⟨-, hno⟩ | ⟨-, hd⟩
    · exact absurd hmis hno
    · exact hd.eq_destEdge h hc hce
  rw [hcopy] at he'
  obtain ⟨dest', hdest', hcont⟩ := hright.contiguous i n' p c.destEdge hn' (hreads.op_eq ▸ hop) he'
    (hreads.requirements_eq ▸ hreq)
  rw [hp.getElem?_edges hdlt] at hdest'
  refine ⟨?_, dest', hdest', hcont⟩
  rcases (hright.inputs i n n' hn hn').2 p e _ he he' with heq | ⟨j, m', -, -, hm', -, hin, hmem, -⟩
  · -- the edge itself is not contiguous
    rw [heq] at hdest'
    obtain rfl := Option.some.inj (hedge.symm.trans hdest')
    exact absurd (hcont.symm.trans hnot) (by simp)
  · obtain ⟨m₁, hm₁, hreads', hsame⟩ := hp.copy_inputs hm (by rw [hmop]; rfl)
    have hprod : g'.Produces c.copyNode c.destEdge := ⟨m₁, hm₁, by simp [hreads'.outputs_eq, hout]⟩
    obtain rfl := h'.produces_unique ⟨m', hm', hmem⟩ hprod
    obtain rfl := Option.some.inj (hm'.symm.trans hm₁)
    exact ⟨m, hm, hsame.symm.trans hin⟩

end Passed

/-- **What a pass preserves**: it never fails, and it is right exactly when the older copies of the
edges that it has to copy are still copies of them and contiguous. -/
theorem copy_materialization (h : Reachable g) : ∃ k, g.materializeCopies.1 = .ok k ∧
    (Materialized g g.materializeCopies.2 k ↔ g.CopiesIntact) := by
  have hwf := h.wellFormed
  have hwf' := hwf.materializeCopies
  have hp := g.passed
  obtain ⟨_, _, _, heq, -⟩ := g.materializeCopies_eq
  refine ⟨g.planned.plans.length, congrArg Prod.fst heq, hp.copiesIntact hwf hwf', fun hintact => ?_⟩
  have hcont := hp.contiguous hwf hintact
  exact {
    contiguous := hcont
    inputs := hp.standsFor hwf hintact
    once := hwf'.sources_nodup
    acyclic := hp.acyclic hwf hwf' hintact
    nodes := fun i n hn => by
      obtain ⟨n', hn', hreads, -⟩ := hp.nodes i n hn
      exact ⟨n', hn', hreads.op_eq, hreads.requirements_eq, hreads.outputs_eq⟩
    added := ⟨hp.length_eq, fun i n hi hn => by
      obtain ⟨e, d, rfl, -⟩ := hp.added i n hi hn
      rfl⟩
    edges := hp.edges
    outside := hp.outside
    again := materializeCopies_of_contiguous hcont }

theorem transposed_valid : tensorProblems [.concrete 2, .concrete 3] .f32 .none .contiguous (.device 0)
    .weight = [] := by decide

/-- A transposed weight and an operation that needs it contiguous. -/
def transposed : StepGraph Unit :=
  [.addTensor ⟨[.concrete 2, .concrete 3], .f32, .none, .contiguous, .device 0, .replicated, .weight,
      transposed_valid⟩,
    .transposeEdge 0 [1, 0], .addOpWithRequirements (.other ()) [1] [.contiguous] []].foldl call
    (new ⟨0, 0, 1, 1, 0, 0⟩)

theorem copy_materialization_transposed : ∃ k, transposed.materializeCopies.1 = .ok k ∧
    Materialized transposed transposed.materializeCopies.2 k := by
  obtain ⟨k, hok, hright⟩ := copy_materialization (g := transposed) ((Reachable.new _).calls _)
  exact ⟨k, hok, hright.mpr fun _ _ _ _ c hc => absurd hc (not_mem_nil (a := c))⟩

/-- After a pass the strides of the copy are changed, and one more operation needs the weight. -/
def staled : StepGraph Unit :=
  [.materializeCopies, .setEdgeStrides 2 [1, 3],
    .addOpWithRequirements (.other ()) [1] [.contiguous] []].foldl call transposed

/-- The operation gets the copy as it is. -/
theorem stale_copy_reused : ∃ g : StepGraph Unit, Reachable g ∧ ∃ k, g.materializeCopies.1 = .ok k ∧
    ¬Materialized g g.materializeCopies.2 k := by
  refine ⟨staled, ((Reachable.new _).calls _).calls _, 1, rfl, fun hright => ?_⟩
  obtain ⟨edge, hedge, hcont⟩ := hright.contiguous 2 ⟨.other (), [2], [.contiguous], []⟩ 0 2 rfl rfl rfl rfl
  have hstale : (staled.materializeCopies.2.edges[2]?).map (·.isContiguous) = some false := rfl
  rw [hedge, Option.map_some, hcont] at hstale
  exact absurd hstale (by simp)

end StepGraph

end R9v

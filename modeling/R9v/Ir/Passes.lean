import R9v.Ir.Calls

/-!
# The pass that inserts copies

What a pass plans (`StepGraph.Collected`) and what it makes of the graph
(`StepGraph.materializeCopies_eq`): some inputs are assigned the edges of older copies, others
those of new ones, and nothing else changes. With the other calls this makes every graph that
calls can make well formed (`StepGraph.Reachable.wellFormed`).
-/

namespace R9v

open List

namespace StepGraph

variable {ω : Type} {g : StepGraph ω}

/-! ### Plans -/

/-- Which inputs a pass finds: those that have to be contiguous and are not. -/
theorem mem_mismatches {i p e : ℕ} : (i, p, e) ∈ g.mismatches ↔ ∃ n edge, g.nodes[i]? = some n ∧
    n.op.isCopy = false ∧ n.inputs[p]? = some e ∧ n.inputRequirements.getD p .any = .contiguous ∧
    g.edges[e]? = some edge ∧ edge.isContiguous = false := by
  unfold mismatches
  rw [mem_flatMap]
  constructor
  · rintro ⟨⟨n, i'⟩, hn, hmem⟩
    rw [mem_zipIdx_iff_getElem?] at hn
    dsimp only at hn hmem
    split_ifs at hmem with hcopy
    · simp at hmem
    · obtain ⟨⟨e', p'⟩, hin, hsome⟩ := mem_filterMap.mp hmem
      rw [mem_zipIdx_iff_getElem?] at hin
      split at hsome
      · rename_i edge hreq hedge
        split_ifs at hsome with hcont
        cases hsome
        exact ⟨n, edge, hn, by simpa using hcopy, hin, hreq, hedge, by simpa using hcont⟩
      · exact absurd hsome (by simp)
  · rintro ⟨n, edge, hn, hcopy, hin, hreq, hedge, hcont⟩
    refine ⟨(n, i), mem_zipIdx_iff_getElem?.mpr hn, ?_⟩
    dsimp only
    rw [if_neg (by simp [hcopy])]
    refine mem_filterMap.mpr ⟨(e, p), mem_zipIdx_iff_getElem?.mpr hin, ?_⟩
    rw [hreq, hedge]
    simp [hcont]

section Collected

variable {copies : List InsertedCopy} {found : List (ℕ × ℕ × ℕ)} {x : Plans}

/-- The plans for the inputs that were found. -/
structure Collected (copies : List InsertedCopy) (found : List (ℕ × ℕ × ℕ)) (x : Plans) : Prop where
  rewires : ∀ d i p, (d, i, p) ∈ x.existingRewires ↔
    ∃ e c, (i, p, e) ∈ found ∧ copies.find? (·.sourceEdge = e) = some c ∧ c.destEdge = d
  nodup : (x.plans.map (·.srcEdge)).Nodup
  fresh : ∀ plan ∈ x.plans, copies.find? (·.sourceEdge = plan.srcEdge) = none
  needed : ∀ plan ∈ x.plans, ∃ i p, (i, p, plan.srcEdge) ∈ found
  consumers : ∀ plan ∈ x.plans, ∀ i p, (i, p) ∈ plan.consumers ↔ (i, p, plan.srcEdge) ∈ found
  complete : ∀ i p e, (i, p, e) ∈ found → copies.find? (·.sourceEdge = e) = none →
    ∃ plan ∈ x.plans, plan.srcEdge = e

theorem collected_nil : Collected copies [] ⟨[], []⟩ := by
  refine ⟨?_, ?_, ?_, ?_, ?_, ?_⟩ <;> simp

theorem Collected.add (h : Collected copies found x) (y : ℕ × ℕ × ℕ) :
    Collected copies (found ++ [y]) (Plans.add copies x y) := by
  obtain ⟨i, p, e⟩ := y
  have hmem : ∀ j q d, (j, q, d) ∈ found ++ [(i, p, e)] ↔
      (j, q, d) ∈ found ∨ (j = i ∧ q = p ∧ d = e) := by simp
  have hother : ∀ j q d, d ≠ e → ((j, q, d) ∈ found ++ [(i, p, e)] ↔ (j, q, d) ∈ found) := by
    intro j q d hne
    rw [hmem]
    exact or_iff_left fun hh => hne hh.2.2
  unfold Plans.add
  dsimp only
  split
  · -- there is a copy
    rename_i c hc
    have hne : ∀ plan ∈ x.plans, plan.srcEdge ≠ e := by
      rintro plan hplan rfl
      exact absurd ((h.fresh plan hplan).symm.trans hc) (by simp)
    refine ⟨fun d j q => ?_, h.nodup, h.fresh, fun plan hplan => ?_, fun plan hplan j q => ?_,
      fun j q d hin hnone => ?_⟩
    · rw [mem_append, h.rewires]
      constructor
      · rintro (⟨e', c', hin, hc', hd⟩ | hin)
        · exact ⟨e', c', mem_append_left _ hin, hc', hd⟩
        · obtain ⟨rfl, rfl, rfl⟩ : d = c.destEdge ∧ j = i ∧ q = p := by simpa using hin
          exact ⟨e, c, by simp, hc, rfl⟩
      · rintro ⟨e', c', hin, hc', hd⟩
        rcases (hmem j q e').mp hin with hin | ⟨rfl, rfl, rfl⟩
        · exact Or.inl ⟨e', c', hin, hc', hd⟩
        · obtain rfl := Option.some.inj (hc.symm.trans hc')
          exact Or.inr (by simp [hd])
    · obtain ⟨j, q, hin⟩ := h.needed plan hplan
      exact ⟨j, q, mem_append_left _ hin⟩
    · rw [hother j q _ (hne plan hplan)]
      exact h.consumers plan hplan j q
    · rcases (hmem j q d).mp hin with hin | ⟨-, -, rfl⟩
      · exact h.complete j q d hin hnone
      · exact absurd (hc.symm.trans hnone) (by simp)
  · rename_i hnone
    have hrewires : ∀ d j q, (d, j, q) ∈ x.existingRewires ↔ ∃ e' c,
        (j, q, e') ∈ found ++ [(i, p, e)] ∧ copies.find? (·.sourceEdge = e') = some c ∧
          c.destEdge = d := by
      intro d j q
      rw [h.rewires]
      constructor
      · rintro ⟨e', c', hin, hrest⟩
        exact ⟨e', c', mem_append_left _ hin, hrest⟩
      · rintro ⟨e', c', hin, hc', hd⟩
        rcases (hmem j q e').mp hin with hin | ⟨-, -, rfl⟩
        · exact ⟨e', c', hin, hc', hd⟩
        · exact absurd (hnone.symm.trans hc') (by simp)
    split
    · -- a copy is planned
      rename_i k hk
      obtain ⟨hlt, hsrc, -⟩ := findIdx?_eq_some_iff_getElem.mp hk
      replace hsrc : x.plans[k].srcEdge = e := by simpa using hsrc
      set f : CopyPlan → CopyPlan := fun plan => { plan with consumers := plan.consumers ++ [(i, p)] }
        with hf
      have hmap : (x.plans.modify k f).map (·.srcEdge) = x.plans.map (·.srcEdge) := by
        refine ext_getElem? fun j => ?_
        rw [getElem?_map, getElem?_map, getElem?_modify]
        cases x.plans[j]? with
        | none => rfl
        | some plan => by_cases hj : k = j <;> simp [hj, hf]
      -- the plans of other edges stay as they are
      have hcases : ∀ plan ∈ x.plans.modify k f,
          plan = f x.plans[k] ∨ (plan ∈ x.plans ∧ plan.srcEdge ≠ e) := by
        intro plan hplan
        obtain ⟨j, hj⟩ := mem_iff_getElem?.mp hplan
        rcases eq_or_ne k j with rfl | hne
        · rw [getElem?_modify_eq, getElem?_eq_getElem hlt] at hj
          exact Or.inl (Option.some.inj hj).symm
        · rw [getElem?_modify_ne _ _ hne] at hj
          refine Or.inr ⟨mem_of_getElem? hj, fun heq => hne ?_⟩
          refine (getElem?_inj (by simpa using hlt) h.nodup).mp ?_
          rw [getElem?_map, getElem?_map, hj, getElem?_eq_getElem hlt]
          simp [hsrc, heq]
      have hthis := getElem_mem hlt
      refine ⟨hrewires, by rw [hmap]; exact h.nodup, fun plan hplan => ?_, fun plan hplan => ?_,
        fun plan hplan j q => ?_, fun j q d hin hnone' => ?_⟩
      · rcases hcases plan hplan with rfl | ⟨hold, -⟩
        · exact h.fresh x.plans[k] hthis
        · exact h.fresh plan hold
      · rcases hcases plan hplan with rfl | ⟨hold, -⟩
        · exact ⟨i, p, (hmem _ _ _).mpr (Or.inr ⟨rfl, rfl, hsrc⟩)⟩
        · obtain ⟨j, q, hin⟩ := h.needed plan hold
          exact ⟨j, q, mem_append_left _ hin⟩
      · rcases hcases plan hplan with rfl | ⟨hold, hne⟩
        · have hsame : (f x.plans[k]).srcEdge = x.plans[k].srcEdge := rfl
          rw [hsame, hmem, ← h.consumers _ hthis, hsrc]
          simp [hf]
        · rw [hother j q _ hne]
          exact h.consumers plan hold j q
      · have hsources : ∀ s, s ∈ x.plans.map (·.srcEdge) → ∃ plan ∈ x.plans.modify k f, plan.srcEdge = s := by
          intro s hs
          rw [← hmap] at hs
          exact mem_map.mp hs
        rcases (hmem j q d).mp hin with hin | ⟨-, -, rfl⟩
        · obtain ⟨plan, hplan, hs⟩ := h.complete j q d hin hnone'
          exact hsources d (mem_map.mpr ⟨plan, hplan, hs⟩)
        · exact hsources d (mem_map.mpr ⟨_, hthis, hsrc⟩)
    · -- nothing is planned for the edge
      rename_i hk
      have hne : ∀ plan ∈ x.plans, plan.srcEdge ≠ e := by
        intro plan hplan
        simpa using findIdx?_eq_none_iff.mp hk plan hplan
      have hnot : ∀ j q, (j, q, e) ∉ found := by
        intro j q hin
        obtain ⟨plan, hplan, hs⟩ := h.complete j q e hin hnone
        exact hne plan hplan hs
      refine ⟨hrewires, ?_, ?_, ?_, ?_, fun j q d hin hnone' => ?_⟩
      · rw [map_append]
        refine List.Nodup.append h.nodup (by simp) fun s hold hnew => ?_
        obtain ⟨plan, hplan, rfl⟩ := mem_map.mp hold
        exact hne plan hplan (by simpa using hnew)
      · exact forall_mem_append.mpr ⟨h.fresh, by simpa using hnone⟩
      · refine forall_mem_append.mpr ⟨fun plan hplan => ?_, ?_⟩
        · obtain ⟨j, q, hin⟩ := h.needed plan hplan
          exact ⟨j, q, mem_append_left _ hin⟩
        · simpa using ⟨i, p, Or.inr ⟨rfl, rfl⟩⟩
      · refine forall_mem_append.mpr ⟨fun plan hplan j q => ?_, ?_⟩
        · rw [hother j q _ (hne plan hplan)]
          exact h.consumers plan hplan j q
        · simp [hnot]
      · rcases (hmem j q d).mp hin with hin | ⟨-, -, rfl⟩
        · obtain ⟨plan, hplan, hs⟩ := h.complete j q d hin hnone'
          exact ⟨plan, mem_append_left _ hplan, hs⟩
        · exact ⟨_, mem_append_right _ (mem_singleton_self _), rfl⟩

theorem Collected.foldl (h : Collected copies found x) (l : List (ℕ × ℕ × ℕ)) :
    Collected copies (found ++ l) (l.foldl (Plans.add copies) x) := by
  induction l generalizing found x with
  | nil => simpa using h
  | cons y l ih => simpa using ih (h.add y)

theorem collected (copies : List InsertedCopy) (l : List (ℕ × ℕ × ℕ)) :
    Collected copies l (l.foldl (Plans.add copies) ⟨[], []⟩) := collected_nil.foldl l

end Collected

/-! ### Older copies -/

@[simp] theorem ends_addConsumer (c : InsertedCopy) (i : ℕ) : (c.addConsumer i).ends = c.ends := by
  unfold InsertedCopy.addConsumer
  split_ifs <;> rfl

/-- Older copies are put in place of inputs, and the copies themselves keep their ends. -/
theorem foldl_applyRewire (g : StepGraph ω) (l : List (ℕ × ℕ × ℕ)) :
    ∃ copies, l.foldl applyRewire g = { g with
      nodes := assign g.nodes l
      insertedCopies := copies } ∧ copies.map (·.ends) = g.insertedCopies.map (·.ends) := by
  induction l generalizing g with
  | nil => exact ⟨g.insertedCopies, rfl, rfl⟩
  | cons y l ih =>
    obtain ⟨d, i, p⟩ := y
    obtain ⟨copies, heq, hends⟩ := ih (g.applyRewire (d, i, p))
    refine ⟨copies, heq, hends.trans ?_⟩
    simp only [applyRewire]
    split
    · rename_i k _
      refine ext_getElem? fun j => ?_
      rw [getElem?_map, getElem?_map, getElem?_modify]
      cases g.insertedCopies[j]? with
      | none => rfl
      | some c => by_cases hj : k = j <;> simp [hj]
    · rfl

/-! ### New copies -/

/-- The edge of a copy. -/
def copyEdge (src : GraphEdge) : GraphEdge :=
  ⟨contiguize src.tensor, computeContiguousStrides src.tensor.shape, none⟩

/-- The node of a copy. -/
def copyNode (src dest : ℕ) : StepNode ω := ⟨.copy .contiguize, [src], [.any], [dest]⟩

/-- The inputs of a plan, with the edge that they are going to read. -/
def CopyPlan.assignments (dest : ℕ) (plan : CopyPlan) : List (ℕ × ℕ × ℕ) :=
  plan.consumers.map fun x => (dest, x.1, x.2)

/-- The graph after a copy is inserted. -/
def insertCopy (g : StepGraph ω) (plan : CopyPlan) (src : GraphEdge) (c : InsertedCopy) : StepGraph ω :=
  { g with
    edges := g.edges ++ [copyEdge src]
    nodes := assign (g.nodes ++ [copyNode plan.srcEdge g.edges.length])
      (plan.assignments g.edges.length)
    insertedCopies := g.insertedCopies ++ [c] }

theorem applyPlan_eq {plan : CopyPlan} {src : GraphEdge} (hsrc : g.edges[plan.srcEdge]? = some src) :
    ∃ c, g.applyPlan plan = (.ok (), g.insertCopy plan src c) ∧
      c.ends = (g.nodes.length, plan.srcEdge, g.edges.length) := by
  unfold applyPlan
  rw [hsrc]
  dsimp only
  rw [new_contiguous]
  refine ⟨⟨g.nodes.length, plan.srcEdge, g.edges.length,
    ((plan.consumers.map (·.1)).mergeSort (· ≤ ·)).destutter (· ≠ ·), src.strides,
    computeContiguousStrides src.tensor.shape⟩, Prod.ext rfl ?_, rfl⟩
  simp only [insertCopy, assign, CopyPlan.assignments, foldl_map]
  rfl

section Insert

variable {plan : CopyPlan} {src : GraphEdge} {c : InsertedCopy}

theorem WellFormed.assign (h : WellFormed g) {l : List (ℕ × ℕ × ℕ)} (hl : ∀ x ∈ l, x.1 < g.edges.length) :
    WellFormed { g with nodes := assign g.nodes l } := by
  induction l generalizing g with
  | nil => exact h
  | cons x l ih =>
    obtain ⟨hx, hl⟩ := forall_mem_cons.mp hl
    have hset : WellFormed { g with nodes := StepGraph.setInput g.nodes x.2.1 x.2.2 x.1 } :=
      h.setInput hx rfl rfl rfl
    exact ih hset hl

theorem WellFormed.insertCopy (h : WellFormed g) (hsrc : g.edges[plan.srcEdge]? = some src)
    (hc : c.ends = (g.nodes.length, plan.srcEdge, g.edges.length))
    (hfresh : ∀ c' ∈ g.insertedCopies, c'.sourceEdge ≠ plan.srcEdge) :
    WellFormed (g.insertCopy plan src c) := by
  obtain ⟨hnode, hsource, hdest⟩ : c.copyNode = g.nodes.length ∧ c.sourceEdge = plan.srcEdge ∧
      c.destEdge = g.edges.length := by simpa [InsertedCopy.ends] using hc
  have hlt := (List.getElem?_eq_some_iff.mp hsrc).1
  have hlast : (g.edges ++ [copyEdge src])[g.edges.length]? = some (copyEdge src) :=
    List.getElem?_concat_length
  -- first the edge, then the node, then the inputs that read it
  have hedge : WellFormed { g with edges := g.edges ++ [copyEdge src] } :=
    h.of_push rfl rfl rfl (by simp [copyEdge])
  have hadd : WellFormed { g with
      edges := g.edges ++ [copyEdge src]
      nodes := g.nodes ++ [copyNode plan.srcEdge g.edges.length] } := by
    refine hedge.of_node rfl rfl rfl ?_ rfl (List.nodup_singleton _) ?_
    · simpa [copyNode] using Nat.lt_succ_of_lt hlt
    · intro e he
      obtain rfl := List.mem_singleton.mp he
      exact ⟨⟨_, hlast, rfl⟩, fun n hn hmem => absurd (h.output_lt hn hmem) (lt_irrefl _)⟩
  have hassign := hadd.assign (l := plan.assignments g.edges.length) (by
    intro x hx
    obtain ⟨y, -, rfl⟩ := List.mem_map.mp hx
    simp)
  refine hassign.of_copy rfl rfl rfl ⟨?_, src, copyEdge src, ?_, ?_, rfl⟩ fun c' hc' => ?_
  · obtain ⟨n', hn', hreads, -⟩ := getElem?_assign (l := plan.assignments g.edges.length)
      (List.getElem?_concat_length (l := g.nodes) (a := copyNode plan.srcEdge g.edges.length))
    refine ⟨n', by rwa [hnode], hreads.op_eq, hreads.length_eq, ?_⟩
    rw [hreads.outputs_eq, hdest]
    rfl
  · rw [hsource]
    exact (List.getElem?_append_left hlt).trans hsrc
  · rwa [hdest]
  · rw [hsource]
    exact hfresh c' hc'

/-- What the copies assign, one after the other. -/
def assignments : ℕ → List CopyPlan → List (ℕ × ℕ × ℕ)
  | _, [] => []
  | dest, plan :: plans => plan.assignments dest ++ assignments (dest + 1) plans

/-- The nodes of the copies. -/
def copyNodes : ℕ → List CopyPlan → List (StepNode ω)
  | _, [] => []
  | dest, plan :: plans => copyNode plan.srcEdge dest :: copyNodes (dest + 1) plans

/-- The ends of the copies. -/
def copyEnds : ℕ → ℕ → List CopyPlan → List (ℕ × ℕ × ℕ)
  | _, _, [] => []
  | node, dest, plan :: plans => (node, plan.srcEdge, dest) :: copyEnds (node + 1) (dest + 1) plans

theorem mem_assignments {plans : List CopyPlan} {dest d i p : ℕ} :
    (d, i, p) ∈ assignments dest plans ↔
      ∃ k plan, plans[k]? = some plan ∧ d = dest + k ∧ (i, p) ∈ plan.consumers := by
  induction plans generalizing dest with
  | nil => simp [assignments]
  | cons plan plans ih =>
    rw [assignments, mem_append, ih]
    constructor
    · rintro (hin | ⟨k, plan', hk, rfl, hin⟩)
      · obtain ⟨⟨i', p'⟩, hy, heq⟩ := mem_map.mp hin
        cases heq
        exact ⟨0, plan, rfl, rfl, hy⟩
      · exact ⟨k + 1, plan', hk, by omega, hin⟩
    · rintro ⟨k, plan', hk, rfl, hin⟩
      cases k with
      | zero =>
        obtain rfl := Option.some.inj hk
        exact Or.inl (mem_map.mpr ⟨(i, p), hin, rfl⟩)
      | succ k => exact Or.inr ⟨k, plan', hk, by omega, hin⟩

theorem mem_assignments_lt {plans : List CopyPlan} {dest n : ℕ}
    (h : ∀ plan ∈ plans, ∀ x ∈ plan.consumers, x.1 < n) : ∀ x ∈ assignments dest plans, x.2.1 < n := by
  rintro ⟨d, i, p⟩ hx
  obtain ⟨k, plan, hk, -, hin⟩ := mem_assignments.mp hx
  exact h plan (mem_of_getElem? hk) (i, p) hin

/-- The graph after copies are inserted. -/
def insertCopies (g : StepGraph ω) (plans : List CopyPlan) (srcs : List GraphEdge)
    (copies : List InsertedCopy) : StepGraph ω :=
  { g with
    edges := g.edges ++ srcs.map copyEdge
    nodes := assign g.nodes (assignments g.edges.length plans) ++ copyNodes g.edges.length plans
    insertedCopies := g.insertedCopies ++ copies }

theorem applyPlans_eq {plans : List CopyPlan} (hsrc : ∀ plan ∈ plans, plan.srcEdge < g.edges.length)
    (hlt : ∀ plan ∈ plans, ∀ x ∈ plan.consumers, x.1 < g.nodes.length) :
    ∃ srcs copies, g.applyPlans plans = (.ok (), g.insertCopies plans srcs copies) ∧
      List.Forall₂ (fun plan src => g.edges[plan.srcEdge]? = some src) plans srcs ∧
      copies.map (·.ends) = copyEnds g.nodes.length g.edges.length plans := by
  induction plans generalizing g with
  | nil => exact ⟨[], [], by simp [applyPlans, insertCopies, assignments, copyNodes, assign], .nil, rfl⟩
  | cons plan plans ih =>
    obtain ⟨hsrc₁, hsrc⟩ := forall_mem_cons.mp hsrc
    obtain ⟨hlt₁, hlt⟩ := forall_mem_cons.mp hlt
    obtain ⟨c, heq, hends⟩ := applyPlan_eq (getElem?_eq_getElem hsrc₁)
    set src := g.edges[plan.srcEdge] with hsrcdef
    have hnodes : (g.insertCopy plan src c).nodes =
        assign g.nodes (plan.assignments g.edges.length) ++ [copyNode plan.srcEdge g.edges.length] := by
      refine assign_append_left fun x hx => ?_
      obtain ⟨y, hy, rfl⟩ := mem_map.mp hx
      exact hlt₁ y hy
    have hedges : (g.insertCopy plan src c).edges.length = g.edges.length + 1 := by simp [insertCopy]
    have hcount : (g.insertCopy plan src c).nodes.length = g.nodes.length + 1 := by simp [hnodes]
    obtain ⟨srcs, copies, hrest, hforall, hends'⟩ := ih (g := g.insertCopy plan src c)
      (fun plan' hplan' => by rw [hedges]; exact Nat.lt_succ_of_lt (hsrc plan' hplan'))
      (fun plan' hplan' x hx => by rw [hcount]; exact Nat.lt_succ_of_lt (hlt plan' hplan' x hx))
    refine ⟨src :: srcs, c :: copies, ?_, ?_, ?_⟩
    · rw [applyPlans, heq]
      refine hrest.trans (Prod.ext rfl ?_)
      -- the copies that come later leave the node of this one as it is
      have hlater : assign (g.insertCopy plan src c).nodes (assignments (g.edges.length + 1) plans) =
          assign (assign g.nodes (plan.assignments g.edges.length))
            (assignments (g.edges.length + 1) plans) ++ [copyNode plan.srcEdge g.edges.length] := by
        rw [hnodes]
        refine assign_append_left fun x hx => ?_
        rw [length_assign]
        exact mem_assignments_lt hlt x hx
      simp only [insertCopies, hedges, hlater, assignments, copyNodes, assign_append]
      simp [insertCopy]
    · refine .cons (getElem?_eq_getElem hsrc₁) ?_
      have hold : ∀ plan' ∈ plans, (g.insertCopy plan src c).edges[plan'.srcEdge]? =
          g.edges[plan'.srcEdge]? := fun plan' hplan' =>
        getElem?_append_left (hsrc plan' hplan')
      refine (List.forall₂_iff_zip.mpr ⟨hforall.length_eq, fun {a b} hab => ?_⟩)
      rw [← hold a (of_mem_zip hab).1]
      exact (List.forall₂_iff_zip.mp hforall).2 hab
    · rw [map_cons, hends, hends', hcount, hedges, copyEnds]

theorem WellFormed.applyPlans (h : WellFormed g) {plans : List CopyPlan}
    (hsrc : ∀ plan ∈ plans, plan.srcEdge < g.edges.length) (hnodup : (plans.map (·.srcEdge)).Nodup)
    (hfresh : ∀ plan ∈ plans, ∀ c ∈ g.insertedCopies, c.sourceEdge ≠ plan.srcEdge) :
    WellFormed (g.applyPlans plans).2 := by
  induction plans generalizing g with
  | nil => exact h
  | cons plan plans ih =>
    obtain ⟨hsrc₁, hsrc⟩ := forall_mem_cons.mp hsrc
    obtain ⟨hfresh₁, hfresh⟩ := forall_mem_cons.mp hfresh
    obtain ⟨hnot, hnodup⟩ := nodup_cons.mp hnodup
    obtain ⟨c, heq, hends⟩ := applyPlan_eq (getElem?_eq_getElem hsrc₁)
    have hsource : c.sourceEdge = plan.srcEdge := congrArg (fun x : ℕ × ℕ × ℕ => x.2.1) hends
    rw [StepGraph.applyPlans, heq]
    refine ih (h.insertCopy (getElem?_eq_getElem hsrc₁) hends hfresh₁)
      (fun plan' hplan' => ?_) hnodup (fun plan' hplan' => ?_)
    · simpa [StepGraph.insertCopy] using Nat.lt_succ_of_lt (hsrc plan' hplan')
    · refine forall_mem_append.mpr ⟨hfresh plan' hplan', forall_mem_singleton.mpr ?_⟩
      rw [hsource]
      exact fun hcon => hnot (mem_map.mpr ⟨plan', hplan', hcon.symm⟩)

end Insert

/-! ### The pass -/

/-- What the pass plans. -/
def planned (g : StepGraph ω) : Plans := g.mismatches.foldl (Plans.add g.insertedCopies) ⟨[], []⟩

theorem collected_planned (g : StepGraph ω) : Collected g.insertedCopies g.mismatches g.planned :=
  collected _ _

/-- **What the pass makes of the graph.** -/
theorem materializeCopies_eq (g : StepGraph ω) : ∃ srcs older copies,
    g.materializeCopies = (.ok g.planned.plans.length, { g with
      edges := g.edges ++ srcs.map copyEdge
      nodes := assign g.nodes (g.planned.existingRewires ++ assignments g.edges.length g.planned.plans) ++
        copyNodes g.edges.length g.planned.plans
      insertedCopies := older ++ copies }) ∧
    List.Forall₂ (fun plan src => g.edges[plan.srcEdge]? = some src) g.planned.plans srcs ∧
    older.map (·.ends) = g.insertedCopies.map (·.ends) ∧
    copies.map (·.ends) = copyEnds g.nodes.length g.edges.length g.planned.plans := by
  have h := g.collected_planned
  obtain ⟨older, hrewired, hends⟩ := foldl_applyRewire g g.planned.existingRewires
  have hsrc : ∀ plan ∈ g.planned.plans, plan.srcEdge < g.edges.length := by
    intro plan hplan
    obtain ⟨i, p, hin⟩ := h.needed plan hplan
    obtain ⟨_, _, -, -, -, -, hedge, -⟩ := mem_mismatches.mp hin
    exact (List.getElem?_eq_some_iff.mp hedge).1
  have hlt : ∀ plan ∈ g.planned.plans, ∀ x ∈ plan.consumers,
      x.1 < (assign g.nodes g.planned.existingRewires).length := by
    rintro plan hplan ⟨i, p⟩ hx
    obtain ⟨n, -, hn, -⟩ := mem_mismatches.mp ((h.consumers plan hplan i p).mp hx)
    rw [length_assign]
    exact (List.getElem?_eq_some_iff.mp hn).1
  obtain ⟨srcs, copies, heq, hforall, hends'⟩ := applyPlans_eq
    (g := { g with nodes := assign g.nodes g.planned.existingRewires, insertedCopies := older })
    hsrc hlt
  refine ⟨srcs, older, copies, ?_, hforall, hends, by rwa [length_assign] at hends'⟩
  have hunfold : g.materializeCopies =
      ((((g.planned.existingRewires.foldl applyRewire g).applyPlans g.planned.plans).1.map fun _ =>
        g.planned.plans.length),
        ((g.planned.existingRewires.foldl applyRewire g).applyPlans g.planned.plans).2) := rfl
  rw [hunfold, hrewired, heq, insertCopies, assign_append]
  rfl

theorem WellFormed.materializeCopies (h : WellFormed g) : WellFormed g.materializeCopies.2 := by
  have hx := g.collected_planned
  obtain ⟨older, hrewired, hends⟩ := foldl_applyRewire g g.planned.existingRewires
  have hunfold : g.materializeCopies.2 =
      ((g.planned.existingRewires.foldl applyRewire g).applyPlans g.planned.plans).2 := rfl
  rw [hunfold, hrewired]
  have hassign := h.assign (l := g.planned.existingRewires) (by
    rintro ⟨d, i, p⟩ hd
    obtain ⟨e, c, -, hc, rfl⟩ := (hx.rewires d i p).mp hd
    obtain ⟨-, src, dest, -, hdest, -⟩ := h.recorded c (mem_of_find?_eq_some hc)
    exact (List.getElem?_eq_some_iff.mp hdest).1)
  have hrewires : WellFormed { g with
      nodes := StepGraph.assign g.nodes g.planned.existingRewires, insertedCopies := older } :=
    hassign.of_nodes rfl hends rfl (fun i n hn => ⟨n, hn, rfl, rfl, rfl, rfl⟩) hassign.input_lt
  refine hrewires.applyPlans (fun plan hplan => ?_) hx.nodup fun plan hplan c hc heq => ?_
  · obtain ⟨i, p, hin⟩ := hx.needed plan hplan
    obtain ⟨_, _, -, -, -, -, hedge, -⟩ := mem_mismatches.mp hin
    exact (List.getElem?_eq_some_iff.mp hedge).1
  · have hmem : c.ends ∈ g.insertedCopies.map (·.ends) := by
      rw [← hends]
      exact mem_map_of_mem hc
    obtain ⟨old, hold, hsame⟩ := mem_map.mp hmem
    have hsource : old.sourceEdge = c.sourceEdge := congrArg (fun x : ℕ × ℕ × ℕ => x.2.1) hsame
    have := find?_eq_none.mp (hx.fresh plan hplan) old hold
    exact this (by simpa using hsource.trans heq)

/-! ### Every graph -/

theorem wellFormed_new (key : StepGraphKey) : WellFormed (new key : StepGraph ω) := by
  refine ⟨?_, ?_, ?_, ?_, ?_, ?_, ?_⟩ <;> simp [new]

theorem WellFormed.call (h : WellFormed g) (c : StepGraphCall ω) : WellFormed (g.call c) := by
  cases c with
  | addTensor tensor => exact h.orElse_map fun _ hy => h.addTensor hy
  | addExternalInput kind tensor => exact h.orElse_map fun _ hy => h.addExternalInput hy
  | addExternalNonTensor kind => exact h.orElse fun _ hy => h.addExternalNonTensor hy
  | addExternalOutput kind edge => exact h.orElse fun _ hy => h.addExternalOutput hy
  | addExternalNonTensorOutput kind => exact h.orElse fun _ hy => h.addExternalNonTensorOutput hy
  | bindPositions kind => exact h.orElse_map fun _ hy => h.bindPositions hy
  | addOp op inputs outputs => exact h.orElse_map fun _ hy => h.addOpWithRequirements hy
  | addOpWithRequirements op inputs requirements outputs =>
    exact h.orElse_map fun _ hy => h.addOpWithRequirements hy
  | setEdgeStrides edge strides => exact h.orElse fun _ hy => h.setEdgeStrides hy
  | setNodeInputRequirement node input requirement =>
    exact h.orElse fun _ hy => h.setNodeInputRequirement hy
  | transposeEdge edge perm => exact h.orElse_map fun _ hy => h.transposeEdge hy
  | reshapeEdge edge shape => exact h.orElse_map fun _ hy => h.reshapeEdge hy
  | rewireNodeInput node input edge => exact h.orElse fun _ hy => h.rewireNodeInput hy
  | materializeCopies => exact h.materializeCopies

theorem Reachable.calls (h : Reachable g) (l : List (StepGraphCall ω)) : Reachable (l.foldl StepGraph.call g) := by
  induction l generalizing g with
  | nil => exact h
  | cons c l ih => exact ih (h.call c)

/-- **Every graph that calls can make is well formed.** -/
theorem Reachable.wellFormed (h : Reachable g) : WellFormed g := by
  induction h with
  | new key => exact wellFormed_new key
  | call c _ ih => exact ih.call c

end StepGraph

end R9v

import R9v.Ir.Passes
import R9v.Lib.Schedules

/-!
# The order of a step graph

When the nodes of a graph can be put in an order in which each comes after the producers of its
inputs: the relation `StepGraph.Depends`, which goes through chains of views, has no cycle.
`StepGraph.topologicalOrder` finds an order exactly then, and names a node that leads to a cycle
when there is one.
-/

namespace R9v

open Checked List Schedules

namespace StepGraph

variable {ω : Type} {g : StepGraph ω}

/-! ### Producers -/

/-- An edge is a view of another. -/
def IsView (g : StepGraph ω) (e s : ℕ) : Prop := ∃ edge, g.edges[e]? = some edge ∧ edge.sourceEdge = some s

/-- A node produces an edge. -/
def Produces (g : StepGraph ω) (i e : ℕ) : Prop := ∃ n, g.nodes[i]? = some n ∧ e ∈ n.outputs

/-- A node has an input whose chain of views ends in an output of another. -/
def Depends (g : StepGraph ω) (m i : ℕ) : Prop :=
  ∃ n, g.nodes[m]? = some n ∧ ∃ e ∈ n.inputs, ∃ t, Relation.ReflTransGen g.IsView e t ∧ g.Produces i t

theorem Produces.lt {i e : ℕ} (h : g.Produces i e) : i < g.nodes.length := by
  obtain ⟨n, hn, -⟩ := h
  exact (List.getElem?_eq_some_iff.mp hn).1

theorem Depends.lt {m i : ℕ} (h : g.Depends m i) : i < g.nodes.length := by
  obtain ⟨_, _, _, _, _, _, h⟩ := h
  exact h.lt

theorem WellFormed.not_isView (h : WellFormed g) {i e s : ℕ} (hi : g.Produces i e) : ¬g.IsView e s := by
  rintro ⟨edge, hedge, hs⟩
  obtain ⟨n, hn, he⟩ := hi
  obtain ⟨edge', hedge', hnone⟩ := h.output_plain n (mem_of_getElem? hn) e he
  obtain rfl := Option.some.inj (hedge.symm.trans hedge')
  exact absurd (hs.symm.trans hnone) (by simp)

theorem WellFormed.produces_unique (h : WellFormed g) {i j e : ℕ} (hi : g.Produces i e)
    (hj : g.Produces j e) : i = j := by
  wlog hlt : i < j generalizing i j
  · rcases Nat.lt_or_ge j i with hji | hij
    · exact (this hj hi hji).symm
    · omega
  obtain ⟨n, hn, he⟩ := hi
  obtain ⟨n', hn', he'⟩ := hj
  obtain ⟨hilt, rfl⟩ := List.getElem?_eq_some_iff.mp hn
  obtain ⟨hjlt, rfl⟩ := List.getElem?_eq_some_iff.mp hn'
  have hdisjoint := List.pairwise_iff_getElem.mp (List.nodup_flatMap.mp h.output_nodup).2 i j hilt hjlt hlt
  exact (hdisjoint he he').elim

theorem WellFormed.producerMap_eq (h : WellFormed g) {e i : ℕ} :
    g.producerMap e = some i ↔ g.Produces i e := by
  have hsound : ∀ {j}, g.producerMap e = some j → g.Produces j e := by
    intro j hj
    obtain ⟨⟨n, j'⟩, hfind, rfl⟩ := Option.map_eq_some_iff.mp hj
    have hmem := mem_reverse.mp (mem_of_find?_eq_some hfind)
    exact ⟨n, mem_zipIdx_iff_getElem?.mp hmem, by simpa using find?_some hfind⟩
  refine ⟨hsound, fun hi => ?_⟩
  obtain ⟨n, hn, he⟩ := hi
  cases hp : g.producerMap e with
  | none =>
    have hnone := find?_eq_none.mp (Option.map_eq_none_iff.mp hp) (n, i)
      (mem_reverse.mpr (mem_zipIdx_iff_getElem?.mpr hn))
    exact absurd he (by simpa using hnone)
  | some j => rw [h.produces_unique (hsound hp) ⟨n, hn, he⟩]

/-- **The producer of an edge** is the node at the end of its chain of views. The fuel is enough since
a view is newer than its source. -/
theorem WellFormed.resolveProducer_eq (h : WellFormed g) {fuel e i : ℕ} (hfuel : e < fuel) :
    g.resolveProducer fuel e = some i ↔ ∃ t, Relation.ReflTransGen g.IsView e t ∧ g.Produces i t := by
  induction fuel generalizing e with
  | zero => exact absurd hfuel (Nat.not_lt_zero e)
  | succ fuel ih =>
    unfold resolveProducer
    cases hp : g.producerMap e with
    | some j =>
      have hj := h.producerMap_eq.mp hp
      constructor
      · rintro hi
        obtain rfl := Option.some.inj hi
        exact ⟨e, .refl, hj⟩
      · rintro ⟨t, hchain, hi⟩
        -- the chain ends where it begins
        rcases Relation.ReflTransGen.cases_head hchain with rfl | ⟨s, hs, -⟩
        · exact congrArg some (h.produces_unique hj hi)
        · exact absurd hs (h.not_isView hj)
    | none =>
      have hnot : ∀ j, ¬g.Produces j e := fun j hj => by
        rw [h.producerMap_eq.mpr hj] at hp
        exact absurd hp (by simp)
      constructor
      · intro hi
        obtain ⟨s, hs, hrest⟩ := Option.bind_eq_some_iff.mp hi
        obtain ⟨edge, hedge, hsrc⟩ := Option.bind_eq_some_iff.mp hs
        have hlt := h.source_lt e edge s hedge hsrc
        obtain ⟨t, hchain, hprod⟩ := (ih (by omega)).mp hrest
        exact ⟨t, .head ⟨edge, hedge, hsrc⟩ hchain, hprod⟩
      · rintro ⟨t, hchain, hi⟩
        rcases Relation.ReflTransGen.cases_head hchain with rfl | ⟨s, ⟨edge, hedge, hsrc⟩, hrest⟩
        · exact absurd hi (hnot i)
        · have hlt := h.source_lt e edge s hedge hsrc
          dsimp only
          rw [hedge, Option.bind_some, hsrc, Option.bind_some]
          exact (ih (by omega)).mpr ⟨t, hrest, hi⟩

/-! ### Links -/

theorem WellFormed.mem_links (h : WellFormed g) {i m : ℕ} : (i, m) ∈ g.links ↔ g.Depends m i := by
  unfold links Depends
  rw [mem_flatMap]
  constructor
  · rintro ⟨⟨n, m'⟩, hn, hmem⟩
    obtain ⟨e, he, hlink⟩ := mem_filterMap.mp hmem
    obtain ⟨j, hj, heq⟩ := Option.map_eq_some_iff.mp hlink
    cases heq
    rw [mem_zipIdx_iff_getElem?] at hn
    have hlt := h.input_lt n (mem_of_getElem? hn) e he
    exact ⟨n, hn, e, he, (h.resolveProducer_eq (Nat.lt_succ_of_lt hlt)).mp hj⟩
  · rintro ⟨n, hn, e, he, hchain⟩
    have hlt := h.input_lt n (mem_of_getElem? hn) e he
    refine ⟨(n, m), mem_zipIdx_iff_getElem?.mpr hn, mem_filterMap.mpr ⟨e, he, ?_⟩⟩
    rw [(h.resolveProducer_eq (Nat.lt_succ_of_lt hlt)).mpr hchain]
    rfl

theorem WellFormed.links_lt (h : WellFormed g) : ∀ l ∈ g.links, l.2 < g.nodes.length := by
  rintro ⟨i, m⟩ hl
  obtain ⟨n, hn, -⟩ := h.mem_links.mp hl
  exact (List.getElem?_eq_some_iff.mp hn).1

/-! ### The order -/

theorem WellFormed.topologicalOrder_eq (h : WellFormed g) : g.topologicalOrder =
    if (Kahn.kahn g.links g.nodes.length).1.length ≠ g.nodes.length then
      .error (.ir (.graphCycle
        (((List.range g.nodes.length).find? (0 < (Kahn.kahn g.links g.nodes.length).2 ·)).getD 0)))
    else .ok (Kahn.kahn g.links g.nodes.length).1 := by
  have hmissing : (g.nodes.flatMap (·.inputs)).filter (fun e => g.edges.length ≤ e) = [] := by
    refine filter_eq_nil_iff.mpr fun e he => ?_
    obtain ⟨n, hn, hin⟩ := mem_flatMap.mp he
    simpa using h.input_lt n hn e hin
  unfold topologicalOrder
  simp only [hmissing, map_nil, StepGraphError.fromProblems, ok_bind]
  rfl

theorem WellFormed.served (h : WellFormed g) :
    (Kahn.kahn g.links g.nodes.length).1.length = g.nodes.length ↔
      ∀ m < g.nodes.length, m ∈ (Kahn.kahn g.links g.nodes.length).1 :=
  kahn_length_iff h.links_lt

theorem WellFormed.depends_eq (h : WellFormed g) : g.Depends = Function.swap (Link g.links) :=
  funext fun _ => funext fun _ => propext h.mem_links.symm

theorem WellFormed.ends_lt (h : WellFormed g) :
    ∀ l ∈ g.links, l.1 < g.nodes.length ∧ l.2 < g.nodes.length :=
  fun l hl => ⟨(h.mem_links.mp hl).lt, h.links_lt l hl⟩

theorem WellFormed.exists_cycle (h : WellFormed g) {m : ℕ} (hm : m < g.nodes.length)
    (hnot : m ∉ (Kahn.kahn g.links g.nodes.length).1) :
    ∃ c, Relation.ReflTransGen g.Depends m c ∧ Relation.TransGen g.Depends c c := by
  obtain ⟨c, hpath, hcycle⟩ := exists_cycle_of_notMem h.ends_lt hm hnot
  rw [h.depends_eq]
  exact ⟨c, Relation.reflTransGen_swap.mpr hpath, Relation.transGen_swap.mpr hcycle⟩

theorem WellFormed.no_cycle (h : WellFormed g)
    (hall : ∀ m < g.nodes.length, m ∈ (Kahn.kahn g.links g.nodes.length).1) (m : ℕ) :
    ¬Relation.TransGen g.Depends m m := by
  rw [h.depends_eq, Relation.transGen_swap]
  exact (kahn_acyclic h.ends_lt).mp hall m

/-- **The order of a graph**: there is one exactly when the dependencies have no cycle; it has every node
once, and producers before what reads them; and the error names a node that leads to a cycle. -/
theorem topological_order (h : Reachable g) :
    ((∃ order, g.topologicalOrder = .ok order) ↔ ∀ m, ¬Relation.TransGen g.Depends m m) ∧
    (∀ order, g.topologicalOrder = .ok order → order.Perm (List.range g.nodes.length) ∧
      ∀ m i, g.Depends m i → ∃ a b c, order = a ++ i :: b ++ m :: c) ∧
    ∀ e, g.topologicalOrder = .error e → ∃ m < g.nodes.length, e = .ir (.graphCycle m) ∧
      ∃ c, Relation.ReflTransGen g.Depends m c ∧ Relation.TransGen g.Depends c c := by
  have hwf := h.wellFormed
  have heq := hwf.topologicalOrder_eq
  set order := (Kahn.kahn g.links g.nodes.length).1 with horder
  have hnodup : order.Nodup := Kahn.kahn_nodup hwf.links_lt
  refine ⟨⟨?_, fun hacyclic => ?_⟩, fun order' hok => ?_, fun e herr => ?_⟩
  · rintro ⟨order', hok⟩
    rw [heq] at hok
    split_ifs at hok with hlen
    exact hwf.no_cycle (hwf.served.mp (not_not.mp hlen))
  · refine ⟨order, heq.trans (if_neg (not_not.mpr (hwf.served.mpr fun m hm => ?_)))⟩
    by_contra hnot
    obtain ⟨c, -, hcycle⟩ := hwf.exists_cycle hm hnot
    exact hacyclic c hcycle
  · rw [heq] at hok
    split_ifs at hok with hlen
    obtain rfl := Except.ok.inj hok
    have hall := hwf.served.mp (not_not.mp hlen)
    refine ⟨(perm_ext_iff_of_nodup hnodup nodup_range).mpr fun m => ?_, fun m i hdep => ?_⟩
    · exact ⟨fun hm => mem_range.mpr (Kahn.kahn_lt hwf.links_lt m hm),
        fun hm => hall m (mem_range.mp hm)⟩
    · obtain ⟨n, hn, -⟩ := id hdep
      obtain ⟨a, c, hac⟩ := List.append_of_mem (hall m (List.getElem?_eq_some_iff.mp hn).1)
      obtain ⟨a', b, rfl⟩ := append_of_mem (Kahn.kahn_before hwf.links_lt hac (hwf.mem_links.mpr hdep))
      exact ⟨a', b, c, hac⟩
  · rw [heq] at herr
    split_ifs at herr with hlen
    obtain rfl := Except.error.inj herr
    -- some node is not served, so that some node has an open link
    obtain ⟨m, hm, hnot⟩ : ∃ m < g.nodes.length, m ∉ order := by
      by_contra! hcon
      exact hlen (hwf.served.mpr hcon)
    have hopen : 0 < (Kahn.kahn g.links g.nodes.length).2 m := by
      refine Nat.pos_of_ne_zero fun hzero => ?_
      obtain ⟨u, hu, hnot'⟩ := Kahn.exists_open hwf.links_lt hm hnot
      rw [Kahn.kahn_deg hwf.links_lt m, Kahn.openLinks, countP_eq_zero] at hzero
      exact absurd (hzero (u, m) hu) (by simpa using hnot')
    obtain ⟨m', hfind⟩ : ∃ m', (List.range g.nodes.length).find?
        (0 < (Kahn.kahn g.links g.nodes.length).2 ·) = some m' := by
      rw [← Option.isSome_iff_exists, find?_isSome]
      exact ⟨m, mem_range.mpr hm, by simpa using hopen⟩
    have hlt := mem_range.mp (mem_of_find?_eq_some hfind)
    refine ⟨m', hlt, by rw [hfind, Option.getD_some], hwf.exists_cycle hlt fun hin => ?_⟩
    have hpos : 0 < (Kahn.kahn g.links g.nodes.length).2 m' := by simpa using find?_some hfind
    exact absurd (Kahn.kahn_closed hwf.links_lt hin) (Nat.ne_of_gt hpos)

/-- A tensor of two rows. -/
def rows : Tensor := ⟨[.concrete 2, .concrete 3], .f32, .none, .contiguous, .device 0, .replicated, .activation, by decide⟩

/-- A node that reads a view of its own output. -/
def looped : StepGraph Unit :=
  [.addTensor ⟨[.concrete 2, .concrete 3], .f32, .none, .contiguous, .device 0, .replicated, .weight,
      by decide⟩,
    .addOp (.other ()) [0] [rows], .transposeEdge 1 [1, 0], .rewireNodeInput 0 0 2].foldl call
    (new ⟨0, 0, 1, 1, 0, 0⟩)

theorem topological_order_looped : looped.topologicalOrder = .error (.ir (.graphCycle 0)) ∧
    ∃ m, Relation.TransGen looped.Depends m m := by
  have herr : looped.topologicalOrder = .error (.ir (.graphCycle 0)) := rfl
  obtain ⟨-, -, hcycle⟩ := topological_order (g := looped) ((Reachable.new _).calls _)
  obtain ⟨-, -, -, c, -, hc⟩ := hcycle _ herr
  exact ⟨herr, c, hc⟩

end StepGraph

end R9v

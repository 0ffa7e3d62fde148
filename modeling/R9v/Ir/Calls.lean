import R9v.Ir.StepGraph

/-!
# What the calls keep

What a pass that inserts copies makes of a graph (`StepGraph.materializeCopies_eq`), and what every
call keeps (`StepGraph.WellFormed`): a view is newer than its source, an edge has one producer at
most, what is produced is not a view, and an edge has one copy at most, whose node stays a copy
with one input.
-/

namespace R9v

open Checked List

/-- The node of a copy and its edges. -/
def InsertedCopy.ends (c : InsertedCopy) : ℕ × ℕ × ℕ := (c.copyNode, c.sourceEdge, c.destEdge)

theorem StepGraphError.fromProblems_eq_ok {problems : List StepGraphError} {u : Unit} :
    StepGraphError.fromProblems problems = .ok u ↔ problems = [] := by
  rcases problems with _ | ⟨e, _ | ⟨e', problems⟩⟩ <;> simp [StepGraphError.fromProblems]

namespace StepGraph

variable {ω : Type}

/-! ### Assigning inputs -/

/-- Puts some edges in place of inputs: the edge, the node and the input. -/
def assign (nodes : List (StepNode ω)) (l : List (ℕ × ℕ × ℕ)) : List (StepNode ω) :=
  l.foldl (fun nodes (e, i, p) => setInput nodes i p e) nodes

section Assign

variable {nodes more : List (StepNode ω)} {l l' : List (ℕ × ℕ × ℕ)} {n n' : StepNode ω} {i p e : ℕ}

/-- A node that differs in its inputs only, and in their place only. -/
structure Reads (n n' : StepNode ω) : Prop where
  op_eq : n'.op = n.op
  length_eq : n'.inputs.length = n.inputs.length
  requirements_eq : n'.inputRequirements = n.inputRequirements
  outputs_eq : n'.outputs = n.outputs

theorem Reads.refl (n : StepNode ω) : Reads n n := ⟨rfl, rfl, rfl, rfl⟩

theorem Reads.trans {n'' : StepNode ω} (h : Reads n n') (h' : Reads n' n'') : Reads n n'' :=
  ⟨h'.op_eq.trans h.op_eq, h'.length_eq.trans h.length_eq,
    h'.requirements_eq.trans h.requirements_eq, h'.outputs_eq.trans h.outputs_eq⟩

@[simp] theorem length_setInput (nodes : List (StepNode ω)) (i p e : ℕ) :
    (setInput nodes i p e).length = nodes.length := length_modify _ _ _

theorem getElem?_setInput (nodes : List (StepNode ω)) (i p e j : ℕ) :
    (setInput nodes i p e)[j]? =
      if j = i then (nodes[j]?).map fun n => { n with inputs := n.inputs.set p e } else nodes[j]? := by
  rw [setInput, getElem?_modify]
  rcases eq_or_ne j i with rfl | h
  · simp
  · simp [h, h.symm]

theorem assign_append : assign nodes (l ++ l') = assign (assign nodes l) l' := foldl_append

@[simp] theorem length_assign : (assign nodes l).length = nodes.length := by
  induction l generalizing nodes with
  | nil => rfl
  | cons x l ih => exact ih.trans (length_setInput nodes _ _ _)

theorem setInput_append (hi : i < nodes.length) :
    setInput (nodes ++ more) i p e = setInput nodes i p e ++ more := by
  refine ext_getElem? fun j => ?_
  rw [getElem?_setInput, getElem?_append, getElem?_append, length_setInput,
    getElem?_setInput]
  split_ifs with hj hj' <;> first | rfl | omega

/-- The nodes that come after those that are assigned to stay as they are. -/
theorem assign_append_left (h : ∀ x ∈ l, x.2.1 < nodes.length) :
    assign (nodes ++ more) l = assign nodes l ++ more := by
  induction l generalizing nodes with
  | nil => rfl
  | cons x l ih =>
    obtain ⟨hx, h⟩ := forall_mem_cons.mp h
    have hset : setInput (nodes ++ more) x.2.1 x.2.2 x.1 = setInput nodes x.2.1 x.2.2 x.1 ++ more :=
      setInput_append hx
    have := @ih (setInput nodes x.2.1 x.2.2 x.1) (by simpa using h)
    simp only [assign, foldl_cons] at this ⊢
    rw [hset, this]

/-- **What the assigned nodes read**: what was assigned to an input, or what it was. -/
theorem getElem?_assign (h : nodes[i]? = some n) : ∃ n', (assign nodes l)[i]? = some n' ∧ Reads n n' ∧
    ∀ p e, n'.inputs[p]? = some e →
      (n.inputs[p]? = some e ∧ ∀ d, (d, i, p) ∉ l) ∨ (e, i, p) ∈ l := by
  induction l generalizing nodes n with
  | nil => exact ⟨n, h, .refl n, fun p e he => Or.inl ⟨he, by simp⟩⟩
  | cons x l ih =>
    obtain ⟨d, j, q⟩ := x
    have hset := getElem?_setInput nodes j q d i
    by_cases hij : i = j
    · subst hij
      rw [if_pos rfl, h] at hset
      obtain ⟨n', hn', hreads, hall⟩ := ih hset
      have hfirst : Reads n { n with inputs := n.inputs.set q d } := ⟨rfl, by simp, rfl, rfl⟩
      refine ⟨n', hn', hfirst.trans hreads, fun p e he => ?_⟩
      rcases hall p e he with ⟨hold, hnot⟩ | hin
      · by_cases hq : q = p
        · subst hq
          rw [getElem?_set_self'] at hold
          obtain ⟨_, -, hd⟩ := Option.map_eq_some_iff.mp hold
          exact Or.inr (by rw [← hd]; exact mem_cons_self)
        · rw [getElem?_set_ne hq] at hold
          refine Or.inl ⟨hold, fun d' hmem => ?_⟩
          rcases mem_cons.mp hmem with heq | hmem
          · cases heq
            exact hq rfl
          · exact hnot d' hmem
      · exact Or.inr (mem_cons_of_mem _ hin)
    · rw [if_neg hij, h] at hset
      obtain ⟨n', hn', hreads, hall⟩ := ih hset
      refine ⟨n', hn', hreads, fun p e he => ?_⟩
      rcases hall p e he with ⟨hold, hnot⟩ | hin
      · refine Or.inl ⟨hold, fun d' hmem => ?_⟩
        rcases mem_cons.mp hmem with heq | hmem
        · cases heq
          exact hij rfl
        · exact hnot d' hmem
      · exact Or.inr (mem_cons_of_mem _ hin)

end Assign

/-! ### The invariant -/

/-- The tensor of a copy. -/
def contiguize (t : Tensor) : Tensor where
  shape := t.shape
  dtype := t.dtype
  quant := t.quant
  layout := .contiguous
  placement := t.placement
  sharding := t.sharding
  cls := t.cls
  valid := by
    have h := t.valid
    revert h
    delta tensorProblems
    simp only [List.append_eq_nil_iff]
    rintro ⟨⟨⟨h, -⟩, hdtype⟩, hquant⟩
    refine ⟨⟨⟨h, if_neg ?_⟩, hdtype⟩, hquant⟩
    rintro (h | h)
    · exact h.2 rfl
    · rcases h.1 with h | h <;> exact absurd h (by decide)

theorem new_contiguous (t : Tensor) :
    Tensor.new t.shape t.dtype t.quant .contiguous t.placement t.sharding t.cls =
      .ok (contiguize t) := by
  have hvalid : tensorProblems t.shape t.dtype t.quant .contiguous t.placement t.cls = [] :=
    (contiguize t).valid
  unfold Tensor.new
  split
  · rfl
  · rename_i h
    rw [hvalid] at h
    exact absurd h (by simp)
  · rename_i h _
    exact absurd hvalid h

/-- The node of a copy is a copy, to an edge that has the tensor of its source. -/
structure Recorded (g : StepGraph ω) (c : InsertedCopy) : Prop where
  node : ∃ n, g.nodes[c.copyNode]? = some n ∧ n.op = .copy .contiguize ∧ n.inputs.length = 1 ∧
    n.outputs = [c.destEdge]
  edges : ∃ src dest, g.edges[c.sourceEdge]? = some src ∧ g.edges[c.destEdge]? = some dest ∧
    dest.tensor = contiguize src.tensor

/-- What every call keeps. -/
structure WellFormed (g : StepGraph ω) : Prop where
  input_lt : ∀ n ∈ g.nodes, ∀ e ∈ n.inputs, e < g.edges.length
  requirements_length : ∀ n ∈ g.nodes, n.inputRequirements.length = n.inputs.length
  output_plain : ∀ n ∈ g.nodes, ∀ e ∈ n.outputs,
    ∃ edge : GraphEdge, g.edges[e]? = some edge ∧ edge.sourceEdge = none
  output_nodup : (g.nodes.flatMap (·.outputs)).Nodup
  source_lt : ∀ (e : ℕ) (edge : GraphEdge) (s : ℕ), g.edges[e]? = some edge → edge.sourceEdge = some s → s < e
  recorded : ∀ c ∈ g.insertedCopies, Recorded g c
  sources_nodup : (g.insertedCopies.map (·.sourceEdge)).Nodup

section WellFormed

variable {g g' : StepGraph ω}

theorem WellFormed.of_edges (h : WellFormed g) (hnodes : g'.nodes = g.nodes)
    (hcopies : g'.insertedCopies = g.insertedCopies)
    (hold : ∀ (e : ℕ) (edge : GraphEdge), g.edges[e]? = some edge → ∃ edge', g'.edges[e]? = some edge' ∧
      edge'.tensor = edge.tensor ∧ edge'.sourceEdge = edge.sourceEdge)
    (hsource : ∀ (e : ℕ) (edge : GraphEdge) (s : ℕ), g'.edges[e]? = some edge → edge.sourceEdge = some s → s < e) :
    WellFormed g' where
  input_lt n hn e he := by
    rw [hnodes] at hn
    obtain ⟨_, hedge, -⟩ := hold e _ (getElem?_eq_getElem (h.input_lt n hn e he))
    exact (List.getElem?_eq_some_iff.mp hedge).1
  requirements_length := by rw [hnodes]; exact h.requirements_length
  output_plain n hn e he := by
    rw [hnodes] at hn
    obtain ⟨edge, hedge, hnone⟩ := h.output_plain n hn e he
    obtain ⟨edge', hedge', -, hsrc⟩ := hold e edge hedge
    exact ⟨edge', hedge', hsrc.trans hnone⟩
  output_nodup := by rw [hnodes]; exact h.output_nodup
  source_lt := hsource
  recorded c hc := by
    rw [hcopies] at hc
    obtain ⟨hnode, src, dest, hsrc, hdest, htensor⟩ := h.recorded c hc
    obtain ⟨src', hsrc', hsame, -⟩ := hold _ _ hsrc
    obtain ⟨dest', hdest', hsame', -⟩ := hold _ _ hdest
    refine ⟨by rwa [hnodes], src', dest', hsrc', hdest', ?_⟩
    rw [hsame, hsame', htensor]
  sources_nodup := by rw [hcopies]; exact h.sources_nodup

theorem WellFormed.of_nodes (h : WellFormed g) (hedges : g'.edges = g.edges)
    (hcopies : g'.insertedCopies.map (·.ends) = g.insertedCopies.map (·.ends))
    (hlen : g'.nodes.length = g.nodes.length)
    (hnodes : ∀ (i : ℕ) (n' : StepNode ω), g'.nodes[i]? = some n' → ∃ n, g.nodes[i]? = some n ∧ n'.op = n.op ∧
      n'.inputs.length = n.inputs.length ∧
      n'.inputRequirements.length = n.inputRequirements.length ∧ n'.outputs = n.outputs)
    (hin : ∀ n ∈ g'.nodes, ∀ e ∈ n.inputs, e < g.edges.length) : WellFormed g' := by
  have hmem : ∀ n' ∈ g'.nodes, ∃ n ∈ g.nodes, n'.inputs.length = n.inputs.length ∧
      n'.inputRequirements.length = n.inputRequirements.length ∧ n'.outputs = n.outputs := by
    intro n' hn'
    obtain ⟨i, hi⟩ := mem_iff_getElem?.mp hn'
    obtain ⟨n, hn, -, hsame⟩ := hnodes i n' hi
    exact ⟨n, mem_of_getElem? hn, hsame⟩
  have houtputs : g'.nodes.map (·.outputs) = g.nodes.map (·.outputs) := by
    refine ext_getElem? fun i => ?_
    rw [getElem?_map, getElem?_map]
    rcases Nat.lt_or_ge i g'.nodes.length with hi | hi
    · obtain ⟨n, hn, -, -, -, hout⟩ := hnodes i _ (getElem?_eq_getElem hi)
      rw [hn, getElem?_eq_getElem hi, Option.map_some, Option.map_some, hout]
    · rw [getElem?_eq_none hi, getElem?_eq_none (by omega)]
  refine ⟨by rwa [hedges], fun n' hn' => ?_, fun n' hn' e he => ?_, ?_, by rw [hedges]; exact h.source_lt,
    fun c hc => ?_, ?_⟩
  · obtain ⟨n, hn, hlen, hreq, -⟩ := hmem n' hn'
    rw [hlen, hreq, h.requirements_length n hn]
  · obtain ⟨n, hn, -, -, hout⟩ := hmem n' hn'
    rw [hedges]
    exact h.output_plain n hn e (hout ▸ he)
  · rw [flatMap_def, houtputs, ← flatMap_def]
    exact h.output_nodup
  · -- the copy has the ends of one that was there before
    have hends : c.ends ∈ g.insertedCopies.map (·.ends) := by
      rw [← hcopies]
      exact mem_map_of_mem hc
    obtain ⟨old, hold, heq⟩ := mem_map.mp hends
    obtain ⟨hnode, hsrc, hdest⟩ : old.copyNode = c.copyNode ∧ old.sourceEdge = c.sourceEdge ∧
        old.destEdge = c.destEdge := by simpa [InsertedCopy.ends] using heq
    obtain ⟨⟨n, hn, hop, hone, hout⟩, hrec⟩ := h.recorded old hold
    rw [hnode] at hn
    have hi : c.copyNode < g'.nodes.length := hlen ▸ (List.getElem?_eq_some_iff.mp hn).1
    obtain ⟨n₀, hn₀, hop', hlen', -, hout'⟩ := hnodes _ _ (getElem?_eq_getElem hi)
    obtain rfl := Option.some.inj (hn₀.symm.trans hn)
    refine ⟨⟨_, getElem?_eq_getElem hi, hop'.trans hop, hlen'.trans hone, ?_⟩, ?_⟩
    · rw [hout', hout, hdest]
    · rwa [hedges, ← hsrc, ← hdest]
  · have heq := congrArg (List.map fun x : ℕ × ℕ × ℕ => x.2.1) hcopies
    rw [map_map, map_map] at heq
    have := h.sources_nodup
    rwa [show g.insertedCopies.map (·.sourceEdge) = g'.insertedCopies.map (·.sourceEdge) from heq.symm]
      at this

theorem WellFormed.of_node (h : WellFormed g) {n : StepNode ω} (hedges : g'.edges = g.edges)
    (hcopies : g'.insertedCopies = g.insertedCopies) (hnodes : g'.nodes = g.nodes ++ [n])
    (hin : ∀ e ∈ n.inputs, e < g.edges.length)
    (hreq : n.inputRequirements.length = n.inputs.length) (hnodup : n.outputs.Nodup)
    (hout : ∀ e ∈ n.outputs, (∃ edge : GraphEdge, g.edges[e]? = some edge ∧ edge.sourceEdge = none) ∧
      ∀ n' ∈ g.nodes, e ∉ n'.outputs) : WellFormed g' where
  input_lt := by
    rw [hnodes, hedges]
    exact forall_mem_append.mpr ⟨h.input_lt, by simpa using hin⟩
  requirements_length := by
    rw [hnodes]
    exact forall_mem_append.mpr ⟨h.requirements_length, by simpa using hreq⟩
  output_plain := by
    rw [hnodes, hedges]
    exact forall_mem_append.mpr ⟨h.output_plain, by simpa using fun e he => (hout e he).1⟩
  output_nodup := by
    rw [hnodes, flatMap_append, flatMap_singleton]
    refine List.Nodup.append h.output_nodup hnodup fun e hold hnew => ?_
    obtain ⟨n', hn', he⟩ := mem_flatMap.mp hold
    exact (hout e hnew).2 n' hn' he
  source_lt := by rw [hedges]; exact h.source_lt
  recorded c hc := by
    rw [hcopies] at hc
    obtain ⟨⟨n', hn', hsame⟩, hrec⟩ := h.recorded c hc
    refine ⟨⟨n', ?_, hsame⟩, by rwa [hedges]⟩
    rw [hnodes, List.getElem?_append_left (List.getElem?_eq_some_iff.mp hn').1, hn']
  sources_nodup := by rw [hcopies]; exact h.sources_nodup

theorem WellFormed.of_copy (h : WellFormed g) {c : InsertedCopy} (hedges : g'.edges = g.edges)
    (hcopies : g'.insertedCopies = g.insertedCopies ++ [c]) (hnodes : g'.nodes = g.nodes)
    (hc : Recorded g c) (hfresh : ∀ c' ∈ g.insertedCopies, c'.sourceEdge ≠ c.sourceEdge) :
    WellFormed g' where
  input_lt := by rw [hnodes, hedges]; exact h.input_lt
  requirements_length := by rw [hnodes]; exact h.requirements_length
  output_plain := by rw [hnodes, hedges]; exact h.output_plain
  output_nodup := by rw [hnodes]; exact h.output_nodup
  source_lt := by rw [hedges]; exact h.source_lt
  recorded := by
    have hsame : ∀ c, Recorded g c → Recorded g' c := by
      rintro c ⟨hnode, hrec⟩
      exact ⟨by rwa [hnodes], by rwa [hedges]⟩
    rw [hcopies]
    refine forall_mem_append.mpr ⟨fun c hc => hsame c (h.recorded c hc), ?_⟩
    simpa using hsame c hc
  sources_nodup := by
    rw [hcopies, map_append]
    refine List.Nodup.append h.sources_nodup (by simp) fun e hold hnew => ?_
    obtain ⟨c', hc', rfl⟩ := mem_map.mp hold
    exact hfresh c' hc' (by simpa using hnew)

theorem WellFormed.of_push (h : WellFormed g) {edge : GraphEdge} (hnodes : g'.nodes = g.nodes)
    (hcopies : g'.insertedCopies = g.insertedCopies) (hedges : g'.edges = g.edges ++ [edge])
    (hsource : ∀ s, edge.sourceEdge = some s → s < g.edges.length) : WellFormed g' := by
  refine h.of_edges hnodes hcopies (fun e old hold => ⟨old, ?_, rfl, rfl⟩) fun e old s hold hs => ?_
  · rw [hedges, List.getElem?_append_left (List.getElem?_eq_some_iff.mp hold).1, hold]
  · rw [hedges] at hold
    rcases Nat.lt_or_ge e g.edges.length with hlt | hge
    · rw [getElem?_append_left hlt] at hold
      exact h.source_lt e old s hold hs
    · rw [getElem?_append_right hge] at hold
      obtain rfl := mem_singleton.mp (mem_of_getElem? hold)
      exact lt_of_lt_of_le (hsource s hs) hge

theorem WellFormed.of_same (h : WellFormed g) (hnodes : g'.nodes = g.nodes)
    (hedges : g'.edges = g.edges) (hcopies : g'.insertedCopies = g.insertedCopies) : WellFormed g' :=
  h.of_edges hnodes hcopies (fun e edge hedge => ⟨edge, by rwa [hedges], rfl, rfl⟩)
    (by rw [hedges]; exact h.source_lt)

theorem WellFormed.output_lt (h : WellFormed g) {n : StepNode ω} (hn : n ∈ g.nodes) {e : ℕ}
    (he : e ∈ n.outputs) : e < g.edges.length := by
  obtain ⟨edge, hedge, -⟩ := h.output_plain n hn e he
  exact (List.getElem?_eq_some_iff.mp hedge).1

/-! ### The calls -/

theorem WellFormed.orElse (h : WellFormed g) {x : Except StepGraphError (StepGraph ω)}
    (hx : ∀ g', x = .ok g' → WellFormed g') : WellFormed (g.orElse x) := by
  cases x with
  | ok g' => exact hx g' rfl
  | error e => exact h

theorem WellFormed.orElse_map (h : WellFormed g) {x : Except StepGraphError (ℕ × StepGraph ω)}
    (hx : ∀ y, x = .ok y → WellFormed y.2) : WellFormed (g.orElse (x.map (·.2))) := by
  cases x with
  | ok y => exact hx y rfl
  | error e => exact h

theorem WellFormed.addTensor (h : WellFormed g) {tensor : Tensor} {y : ℕ × StepGraph ω}
    (hy : g.addTensor tensor = .ok y) : WellFormed y.2 := by
  simp only [StepGraph.addTensor, bind_eq_ok, pure_eq_ok] at hy
  obtain ⟨-, -, rfl⟩ := hy
  exact h.of_push rfl rfl rfl (by simp)

theorem WellFormed.addExternalInput (h : WellFormed g) {kind : ExternalInputKind} {tensor : Tensor}
    {y : ℕ × StepGraph ω} (hy : g.addExternalInput kind tensor = .ok y) : WellFormed y.2 := by
  simp only [StepGraph.addExternalInput, bind_eq_ok, pure_eq_ok] at hy
  obtain ⟨-, -, -, -, -, -, rfl⟩ := hy
  exact h.of_push rfl rfl rfl (by simp)

theorem WellFormed.bindInput (h : WellFormed g) {input : ExternalInput}
    (hy : g.bindInput input = .ok g') : WellFormed g' := by
  simp only [StepGraph.bindInput, bind_eq_ok, pure_eq_ok] at hy
  obtain ⟨-, -, rfl⟩ := hy
  exact h.of_same rfl rfl rfl

theorem WellFormed.addExternalNonTensor (h : WellFormed g) {kind : ExternalInputKind}
    (hy : g.addExternalNonTensor kind = .ok g') : WellFormed g' := by
  unfold StepGraph.addExternalNonTensor at hy
  split at hy
  · exact h.bindInput hy
  · exact h.bindInput hy
  · exact h.bindInput hy
  · exact absurd hy (by simp)

theorem WellFormed.addExternalOutput (h : WellFormed g) {kind : ExternalOutputKind} {edge : ℕ}
    (hy : g.addExternalOutput kind edge = .ok g') : WellFormed g' := by
  simp only [StepGraph.addExternalOutput, bind_eq_ok, pure_eq_ok] at hy
  obtain ⟨-, -, -, -, -, -, -, -, -, -, rfl⟩ := hy
  exact h.of_same rfl rfl rfl

theorem WellFormed.addExternalNonTensorOutput (h : WellFormed g) {kind : ExternalOutputKind}
    (hy : g.addExternalNonTensorOutput kind = .ok g') : WellFormed g' := by
  unfold StepGraph.addExternalNonTensorOutput at hy
  split at hy
  · simp only [bind_eq_ok, pure_eq_ok] at hy
    obtain ⟨-, -, rfl⟩ := hy
    exact h.of_same rfl rfl rfl
  · exact absurd hy (by simp)

theorem WellFormed.bindPositions (h : WellFormed g) {kind : PositionsKind} {y : ℕ × StepGraph ω}
    (hy : g.bindPositions kind = .ok y) : WellFormed y.2 := by
  unfold StepGraph.bindPositions at hy
  split at hy
  · exact absurd hy (by simp)
  · simp only [bind_eq_ok, pure_eq_ok] at hy
    obtain ⟨-, -, -, -, rfl⟩ := hy
    exact h.of_push rfl rfl rfl (by simp)

theorem WellFormed.addOpWithRequirements (h : WellFormed g) {op : StepOp ω} {inputs : List ℕ}
    {requirements : List StrideRequirement} {outputs : List Tensor} {y : ℕ × StepGraph ω}
    (hy : g.addOpWithRequirements op inputs requirements outputs = .ok y) : WellFormed y.2 := by
  simp only [StepGraph.addOpWithRequirements, bind_eq_ok, pure_eq_ok] at hy
  obtain ⟨_, hproblems, rfl⟩ := hy
  obtain ⟨hmissing, hcount⟩ := append_eq_nil_iff.mp (StepGraphError.fromProblems_eq_ok.mp hproblems)
  have hin : ∀ e ∈ inputs, e < g.edges.length := by
    intro e he
    by_contra hge
    have : e ∈ inputs.filter fun e => g.edges.length ≤ e := mem_filter.mpr ⟨he, by simpa using hge⟩
    rw [map_eq_nil_iff.mp hmissing] at this
    exact absurd this (by simp)
  have hreq : requirements.length = inputs.length := by
    by_contra hne
    rw [if_pos hne] at hcount
    exact absurd hcount (by simp)
  set more := outputs.map fun t => (⟨t, computeContiguousStrides t.shape, none⟩ : GraphEdge) with hmore
  -- the outputs come first
  have hedges : WellFormed { g with edges := g.edges ++ more } := by
    refine h.of_edges rfl rfl (fun e edge hedge => ⟨edge, ?_, rfl, rfl⟩) fun e edge s hedge hs => ?_
    · exact (List.getElem?_append_left (List.getElem?_eq_some_iff.mp hedge).1).trans hedge
    · rcases mem_append.mp (mem_of_getElem? hedge) with hold | hnew
      · rcases Nat.lt_or_ge e g.edges.length with hlt | hge
        · exact h.source_lt e edge s ((getElem?_append_left hlt).symm.trans hedge) hs
        · rw [getElem?_append_right hge] at hedge
          obtain ⟨t, -, rfl⟩ := mem_map.mp (mem_of_getElem? hedge)
          exact absurd hs (by simp)
      · obtain ⟨t, -, rfl⟩ := mem_map.mp hnew
        exact absurd hs (by simp)
  refine hedges.of_node rfl rfl rfl (fun e he => ?_) hreq nodup_range' fun e he => ⟨?_, fun n hn hmem => ?_⟩
  · exact lt_of_lt_of_le (hin e he) (by simp)
  · obtain ⟨hle, hlt⟩ := mem_range'_1.mp he
    have hi : e - g.edges.length < outputs.length := by omega
    refine ⟨⟨outputs[e - g.edges.length], computeContiguousStrides outputs[e - g.edges.length].shape, none⟩,
      ?_, rfl⟩
    rw [getElem?_append_right hle, hmore, getElem?_map, getElem?_eq_getElem hi,
      Option.map_some]
  · have := h.output_lt hn hmem
    have := (mem_range'_1.mp he).1
    omega

theorem WellFormed.setEdgeStrides (h : WellFormed g) {e : ℕ} {strides : List ℤ}
    (hy : g.setEdgeStrides e strides = .ok g') : WellFormed g' := by
  simp only [StepGraph.setEdgeStrides, bind_eq_ok, okOr_eq_ok, pure_eq_ok] at hy
  obtain ⟨edge, hedge, -, -, rfl⟩ := hy
  have hset : ∀ i, (g.edges.set e { edge with strides := strides })[i]? =
      if i = e then some { edge with strides := strides } else g.edges[i]? := by
    intro i
    rcases eq_or_ne i e with rfl | hne
    · rw [if_pos rfl, List.getElem?_set_self (List.getElem?_eq_some_iff.mp hedge).1]
    · rw [if_neg hne, getElem?_set_ne hne.symm]
  refine h.of_edges rfl rfl (fun i old hold => ?_) fun i new s hnew hs => ?_
  · rcases eq_or_ne i e with rfl | hne
    · obtain rfl := Option.some.inj (hedge.symm.trans hold)
      exact ⟨_, (hset i).trans (if_pos rfl), rfl, rfl⟩
    · exact ⟨old, ((hset i).trans (if_neg hne)).trans hold, rfl, rfl⟩
  · rcases eq_or_ne i e with rfl | hne
    · obtain rfl := Option.some.inj (((hset i).trans (if_pos rfl)).symm.trans hnew)
      exact h.source_lt i edge s hedge hs
    · exact h.source_lt i new s (((hset i).trans (if_neg hne)).symm.trans hnew) hs

theorem WellFormed.setNodeInputRequirement (h : WellFormed g) {i p : ℕ}
    {requirement : StrideRequirement} (hy : g.setNodeInputRequirement i p requirement = .ok g') :
    WellFormed g' := by
  simp only [StepGraph.setNodeInputRequirement, bind_eq_ok, okOr_eq_ok, pure_eq_ok] at hy
  obtain ⟨node, hnode, -, -, rfl⟩ := hy
  refine h.of_nodes rfl rfl (by simp) (fun j n' hn' => ?_) fun n hn => ?_
  · rcases eq_or_ne j i with rfl | hne
    · rw [List.getElem?_set_self (List.getElem?_eq_some_iff.mp hnode).1] at hn'
      obtain rfl := Option.some.inj hn'
      exact ⟨node, hnode, rfl, rfl, by simp, rfl⟩
    · rw [getElem?_set_ne hne.symm] at hn'
      exact ⟨n', hn', rfl, rfl, rfl, rfl⟩
  · rcases mem_or_eq_of_mem_set hn with hn | rfl
    · exact h.input_lt n hn
    · exact h.input_lt node (mem_of_getElem? hnode)

theorem WellFormed.setInput (h : WellFormed g) {i p e : ℕ} (he : e < g.edges.length)
    (hedges : g'.edges = g.edges)
    (hcopies : g'.insertedCopies.map (·.ends) = g.insertedCopies.map (·.ends))
    (hnodes : g'.nodes = StepGraph.setInput g.nodes i p e) : WellFormed g' := by
  have hset := fun j => (congrArg (·[j]?) hnodes).trans (getElem?_setInput g.nodes i p e j)
  have hmem : ∀ (j : ℕ) (n' : StepNode ω), g'.nodes[j]? = some n' →
      ∃ n : StepNode ω, g.nodes[j]? = some n ∧ (n' = n ∨ n' = { n with inputs := n.inputs.set p e }) := by
    intro j n' hn'
    have hj := (hset j).symm.trans hn'
    split_ifs at hj
    · obtain ⟨n, hn, rfl⟩ := Option.map_eq_some_iff.mp hj
      exact ⟨n, hn, Or.inr rfl⟩
    · exact ⟨n', hj, Or.inl rfl⟩
  refine h.of_nodes hedges hcopies (by rw [hnodes, length_setInput]) (fun j n' hn' => ?_) fun n' hn' d hd => ?_
  · obtain ⟨n, hn, rfl | rfl⟩ := hmem j n' hn'
    · exact ⟨n', hn, rfl, rfl, rfl, rfl⟩
    · exact ⟨n, hn, rfl, by simp, rfl, rfl⟩
  · obtain ⟨j, hj⟩ := mem_iff_getElem?.mp hn'
    obtain ⟨n, hn, rfl | rfl⟩ := hmem j n' hj
    · exact h.input_lt n' (mem_of_getElem? hn) d hd
    · rcases mem_or_eq_of_mem_set hd with hd | rfl
      · exact h.input_lt n (mem_of_getElem? hn) d hd
      · exact he

theorem WellFormed.rewireNodeInput (h : WellFormed g) {i p e : ℕ}
    (hy : g.rewireNodeInput i p e = .ok g') : WellFormed g' := by
  simp only [StepGraph.rewireNodeInput, bind_eq_ok, pure_eq_ok] at hy
  obtain ⟨_, hproblems, rfl⟩ := hy
  obtain ⟨⟨-, hedge⟩, -⟩ := by simpa only [append_eq_nil_iff] using StepGraphError.fromProblems_eq_ok.mp hproblems
  refine h.setInput (i := i) (p := p) (e := e) ?_ rfl rfl rfl
  by_contra hge
  rw [if_pos (Nat.le_of_not_lt hge)] at hedge
  exact absurd hedge (by simp)

theorem WellFormed.transposeEdge (h : WellFormed g) {e : ℕ} {perm : List ℕ} {y : ℕ × StepGraph ω}
    (hy : g.transposeEdge e perm = .ok y) : WellFormed y.2 := by
  simp only [StepGraph.transposeEdge, bind_eq_ok, okOr_eq_ok, pure_eq_ok] at hy
  obtain ⟨edge, hedge, -, -, -, -, tensor, -, rfl⟩ := hy
  refine h.of_push rfl rfl rfl fun s hs => ?_
  obtain rfl := Option.some.inj hs
  exact (List.getElem?_eq_some_iff.mp hedge).1

theorem WellFormed.reshapeEdge (h : WellFormed g) {e : ℕ} {shape : List Dim} {y : ℕ × StepGraph ω}
    (hy : g.reshapeEdge e shape = .ok y) : WellFormed y.2 := by
  simp only [StepGraph.reshapeEdge, bind_eq_ok, okOr_eq_ok, pure_eq_ok] at hy
  obtain ⟨edge, hedge, -, -, tensor, -, rfl⟩ := hy
  refine h.of_push rfl rfl rfl fun s hs => ?_
  obtain rfl := Option.some.inj hs
  exact (List.getElem?_eq_some_iff.mp hedge).1

end WellFormed

end StepGraph

end R9v

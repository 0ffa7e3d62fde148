import R9v.T0.Exec
import Mathlib.Data.List.Induction

/-!
# What a run reads

The value that an input of a node should have is what the run has produced for it, or the
reshape of the value of what it is a view of, or what was bound last (`Value`). The executor
looks into its store instead, which also keeps what earlier runs have produced, and goes
through one view only. It reads the values in every history in which no edge that is read
is left over from an earlier run and every view that is read is a view of an edge that is
not a view itself (`runs_read_values`).
-/

namespace R9v

open Checked List

variable {F ω κ σ : Type}

/-! ### Values -/

namespace Graph

variable (g : Graph ω)

/-- The edges that a node of the graph produces. -/
def Produces (e : ℕ) : Prop := ∃ n ∈ g.nodes, e ∈ n.outputs

instance decidableProduces (e : ℕ) : Decidable (g.Produces e) :=
  inferInstanceAs (Decidable (∃ n ∈ g.nodes, e ∈ n.outputs))

/-- The edge that an edge is a view of. -/
def source (e : ℕ) : Option ℕ := (g.edges[e]?).bind (·.sourceEdge)

/-- The edges from outside. -/
def External (e : ℕ) : Prop := e < g.edges.length ∧ ¬g.Produces e ∧ g.source e = none

end Graph

/-- The value of an edge at some point of a run: `made` is what the run has produced, and
`bound` what was bound last. -/
inductive Value (g : Graph ω) (batch : BatchMeta) (made bound : Store F) : ℕ → TypedBuffer F → Prop
  | produced {e : ℕ} {b : TypedBuffer F} : g.Produces e → made e = some b → Value g batch made bound e b
  | view {e s : ℕ} {edge : GraphEdge} {b b' : TypedBuffer F} {shape : List ℕ} (node : ℕ) :
    ¬g.Produces e → g.edges[e]? = some edge → edge.sourceEdge = some s → edge.isContiguous →
      Value g batch made bound s b →
      resolveShape node e edge.tensor batch = (.ok shape : Except (ExecError F) (List ℕ)) →
      b.copyWithShape shape = some b' → Value g batch made bound e b'
  | bound {e : ℕ} {b : TypedBuffer F} : g.External e → bound e = some b → Value g batch made bound e b

/-- Nothing was bound where the views of an edge lead to. -/
inductive Missing (g : Graph ω) (bound : Store F) : ℕ → Prop
  | external {e : ℕ} : g.External e → bound e = none → Missing g bound e
  | view {e s : ℕ} {edge : GraphEdge} : ¬g.Produces e → g.edges[e]? = some edge →
      edge.sourceEdge = some s → edge.isContiguous → Missing g bound s → Missing g bound e

/-- All views are contiguous, and all edges from outside are bound. -/
structure Supplied (g : Graph ω) (bound : Store F) : Prop where
  contiguous : ∀ edge ∈ g.edges, edge.sourceEdge.isSome → edge.isContiguous
  external : ∀ e, g.External e → (bound e).isSome

/-- A node that is reached finds the value of an input, and fails when there is none. -/
structure ReadsValue (g : Graph ω) (batch : BatchMeta) (bound : Store F) (v : Visit F) (e : ℕ) :
    Prop where
  ok_iff : ∀ b, inputBuffer g v.node batch v.store e = .ok b ↔ Value g batch v.made bound e b
  unbound : Missing g bound e → ∃ e', inputBuffer g v.node batch v.store e = .error (.unboundEdge v.node e')
  supplied : Supplied g bound → ∀ err, inputBuffer g v.node batch v.store e = .error err →
    (∀ i j, err ≠ .unboundEdge i j) ∧ ∀ i j k, err ≠ .nonContiguousView i j k

/-! ### Histories -/

/-- What a call does to the slot of an edge. -/
inductive Touch (F : Type)
  | bound (b : TypedBuffer F)
  | cleared
  | produced

/-- What a call does to the slot of an edge: a run may produce what its graph produces. -/
def ExecCall.touch (e : ℕ) : ExecCall F ω κ → Option (Touch F)
  | .bind e' b => if e = e' then some (.bound b) else none
  | .clearEdges => some .cleared
  | .run g _ _ => if g.Produces e then some .produced else none

/-- What was done last to the slot of an edge. -/
def lastTouch (calls : List (ExecCall F ω κ)) (e : ℕ) : Option (Touch F) :=
  (calls.filterMap (ExecCall.touch e)).getLast?

/-- What an edge was last bound to since the bindings were dropped. -/
def bindings (calls : List (ExecCall F ω κ)) : Store F :=
  calls.foldl (fun bound c => match c with
    | .bind e b => Function.update bound e (some b)
    | .clearEdges => fun _ => none
    | .run _ _ _ => bound) fun _ => none

/-- The number of elements that the source of a view has in a batch. -/
def SourceCount (g : Graph ω) (batch : BatchMeta) (bound : Store F) (s n : ℕ) : Prop :=
  (∀ b, bound s = some b → g.External s → b.numElements = n) ∧
    ∀ edge shape node, g.edges[s]? = some edge → g.Produces s →
      resolveShape node s edge.tensor batch = (.ok shape : Except (ExecError F) (List ℕ)) →
      shape.prod = n

/-- A graph can be run after some calls: what it reads from outside is not left over from an
earlier run, and a view that it reads was not bound or produced, is a view of an edge that is
not a view, and has as many elements. -/
structure Runnable (calls : List (ExecCall F ω κ)) (g : Graph ω) (batch : BatchMeta) : Prop where
  external : ∀ n ∈ g.nodes, ∀ e ∈ n.inputs, g.External e → lastTouch calls e ≠ some .produced
  source : ∀ n ∈ g.nodes, ∀ e ∈ n.inputs, ∀ s, g.source e = some s →
    g.source s = none ∧ (g.External s → lastTouch calls s ≠ some .produced)
  view : ∀ n ∈ g.nodes, ∀ e ∈ n.inputs, (g.source e).isSome →
    lastTouch calls e = none ∨ lastTouch calls e = some .cleared
  count : ∀ n ∈ g.nodes, ∀ e ∈ n.inputs, ∀ s edge shape node, g.source e = some s →
    g.edges[e]? = some edge →
    resolveShape node e edge.tensor batch = (.ok shape : Except (ExecError F) (List ℕ)) →
    SourceCount g batch (bindings calls) s shape.prod

/-! ### The slots after some calls -/

section Slots

variable {calls : List (ExecCall F ω κ)} {c : ExecCall F ω κ} {e : ℕ}

theorem lastTouch_snoc : lastTouch (calls ++ [c]) e =
    match c.touch e with
    | some t => some t
    | none => lastTouch calls e := by
  unfold lastTouch
  rw [filterMap_append]
  cases h : c.touch e with
  | none => simp [h]
  | some t => simp [h]

theorem bindings_snoc : bindings (calls ++ [c]) =
    match c with
    | .bind e b => Function.update (bindings calls) e (some b)
    | .clearEdges => fun _ => none
    | .run _ _ _ => bindings calls := by
  unfold bindings
  rw [foldl_append]
  rfl

/-- The slot of an edge that no run has touched has what was bound to it. -/
structure Slot (store bound : Store F) (e : ℕ) (touch : Option (Touch F)) : Prop where
  bound_eq : touch ≠ some .produced → store e = bound e
  empty : touch = none ∨ touch = some .cleared → bound e = none

theorem publish_of_notMem {store : Store F} {produced : List (ℕ × TypedBuffer F)}
    (h : e ∉ produced.map (·.1)) : publish store produced e = store e := by
  induction produced generalizing store with
  | nil => rfl
  | cons p produced ih =>
    obtain ⟨hne, hmem⟩ := not_or.mp (mem_cons.not.mp h)
    exact (ih hmem).trans (Function.update_of_ne hne _ _)

theorem exists_publish {store store' : Store F} {produced : List (ℕ × TypedBuffer F)}
    (h : e ∈ produced.map (·.1)) : ∃ b, (e, b) ∈ produced ∧ publish store produced e = some b ∧
      publish store' produced e = some b := by
  induction produced generalizing store store' with
  | nil => cases h
  | cons p produced ih =>
    by_cases hmem : e ∈ produced.map (·.1)
    · obtain ⟨b, hb, heq⟩ := @ih (Function.update store p.1 (some p.2))
        (Function.update store' p.1 (some p.2)) hmem
      exact ⟨b, mem_cons_of_mem p hb, heq⟩
    · obtain rfl : e = p.1 := (mem_cons.mp h).resolve_right hmem
      refine ⟨p.2, mem_cons_self, ?_, ?_⟩
      · exact (publish_of_notMem hmem).trans (Function.update_self _ _ _)
      · exact (publish_of_notMem hmem).trans (Function.update_self _ _ _)

theorem forall₂_of_mapM {ε α β : Type} {f : α → Except ε β} {l : List α} {bs : List β}
    (h : l.mapM f = .ok bs) : l.Forall₂ (fun a b => f a = .ok b) bs := by
  induction l generalizing bs with
  | nil =>
    obtain rfl : [] = bs := by simpa using h
    exact .nil
  | cons a l ih =>
    rw [mapM_cons, bind_eq_ok] at h
    obtain ⟨b, hb, h⟩ := h
    obtain ⟨bs', hbs', h⟩ := bind_eq_ok.mp h
    obtain rfl := pure_eq_ok.mp h
    exact .cons hb (ih hbs')

end Slots

/-! ### A run -/

section Run

variable [Zero F] {d : Dispatch F ω κ σ} {g : Graph ω} {batch : BatchMeta} {args : κ}

/-- An edge has the extents of its tensor. -/
def Shaped (F : Type) (g : Graph ω) (batch : BatchMeta) (e : ℕ) (shape : List ℕ) : Prop :=
  ∃ edge node, g.edges[e]? = some edge ∧
    resolveShape node e edge.tensor batch = (.ok shape : Except (ExecError F) (List ℕ))

theorem allocate_shape {node e : ℕ} {b : TypedBuffer F} (h : allocate g node batch e = .ok b) :
    Shaped F g batch e b.shape := by
  simp only [allocate, bind_eq_ok, okOr_eq_ok, pure_eq_ok] at h
  obtain ⟨edge, hedge, shape, hshape, -, -, -, -, rfl⟩ := h
  exact ⟨edge, node, hedge, hshape⟩

theorem shaped_outputs {node : ℕ} {es : List ℕ} {fresh outs : List (TypedBuffer F)}
    (h : es.Forall₂ (fun e b => allocate g node batch e = .ok b) fresh)
    (hshape : outs.map (·.shape) = fresh.map (·.shape)) :
    es.Forall₂ (fun e b => Shaped F g batch e b.shape) outs := by
  induction h generalizing outs with
  | nil =>
    obtain rfl : outs = [] := by simpa using hshape
    exact .nil
  | @cons e b es fresh hb _ ih =>
    cases outs with
    | nil => cases hshape
    | cons out outs =>
      obtain ⟨hhead, htail⟩ := List.cons.inj hshape
      refine .cons ?_ (ih htail)
      rw [show out.shape = b.shape from hhead]
      exact allocate_shape hb

/-- What a node publishes: a buffer for each of its outputs, with the extents of its tensor. -/
theorem runNode_produced {node : ℕ} {n : GraphNode ω} {store : Store F} {scales : ℕ → Option ℕ}
    {state state' : σ} {produced : List (ℕ × TypedBuffer F)}
    (h : runNode g d node n batch args store scales state = (.ok produced, state')) :
    produced.map (·.1) = n.outputs ∧ ∀ p ∈ produced, Shaped F g batch p.1 p.2.shape := by
  rw [runNode] at h
  cases hoperands : gatherOperands g node n batch store scales with
  | error e =>
    rw [hoperands] at h
    cases h
  | ok operands =>
    obtain ⟨fresh, views⟩ := operands
    simp only [hoperands] at h
    simp only [gatherOperands, bind_eq_ok, pure_eq_ok, Prod.mk.injEq] at hoperands
    obtain ⟨_, hfresh, _, -, _, -, rfl, rfl⟩ := hoperands
    split at h
    · cases h
    · rename_i outs state'' hperform
      obtain ⟨hok, -⟩ := Prod.mk.inj h
      obtain rfl := Except.ok.inj hok
      have hshaped := shaped_outputs (forall₂_of_mapM hfresh) (d.shape_eq hperform)
      exact ⟨map_fst_zip hshaped.length_eq.le,
        fun p hp => (List.forall₂_iff_zip.mp hshaped).2 hp⟩

/-- Where a run is after some nodes: it has stored and noted what they produce, and the slots of
the other edges are as they were. -/
structure MidRun (g : Graph ω) (batch : BatchMeta) (start : Store F) (done : List ℕ)
    (store made : Store F) : Prop where
  other : ∀ e, ¬g.Produces e → store e = start e
  made_eq : ∀ e b, made e = some b → store e = some b ∧ g.Produces e ∧ Shaped F g batch e b.shape
  made_of : ∀ p ∈ done, ∀ n, g.nodes[p]? = some n → ∀ e ∈ n.outputs, (made e).isSome

variable {start store made : Store F} {done : List ℕ}

omit [Zero F] in
theorem midRun_start : MidRun g batch start [] start fun _ => none :=
  ⟨fun _ _ => rfl, by simp, by simp⟩

omit [Zero F] in
theorem MidRun.publish (h : MidRun g batch start done store made) {i : ℕ} {n : GraphNode ω}
    (hn : g.nodes[i]? = some n) {produced : List (ℕ × TypedBuffer F)}
    (hkeys : produced.map (·.1) = n.outputs)
    (hshape : ∀ p ∈ produced, Shaped F g batch p.1 p.2.shape) :
    MidRun g batch start (done ++ [i]) (publish store produced) (publish made produced) := by
  have hmem := mem_of_getElem? hn
  refine ⟨fun e he => ?_, fun e b hb => ?_, fun p hp n' hn' e he => ?_⟩
  · rw [publish_of_notMem, h.other e he]
    rw [hkeys]
    exact fun hout => he ⟨n, hmem, hout⟩
  · by_cases hout : e ∈ produced.map (·.1)
    · obtain ⟨b', hb', hstore, hmade⟩ := @exists_publish F e store made produced hout
      obtain rfl : b' = b := Option.some.inj (hmade.symm.trans hb)
      exact ⟨hstore, ⟨n, hmem, hkeys ▸ hout⟩, hshape (e, b') hb'⟩
    · rw [publish_of_notMem hout] at hb ⊢
      exact h.made_eq e b hb
  · by_cases hout : e ∈ produced.map (·.1)
    · obtain ⟨b, -, -, hmade⟩ := @exists_publish F e store made produced hout
      rw [hmade, Option.isSome_some]
    · rw [publish_of_notMem hout]
      rcases mem_append.mp hp with hp | hp
      · exact h.made_of p hp n' hn' e he
      · obtain rfl := mem_singleton.mp hp
        obtain rfl := Option.some.inj (hn.symm.trans hn')
        exact absurd (hkeys ▸ he) hout

/-- **A node is reached after the nodes before it.** -/
theorem runNodes_log {order : List ℕ} {ex : CpuExecutor F σ}
    (h : MidRun g batch start done ex.store made) :
    ∀ v ∈ (runNodes d g batch args order ex made).log, ∃ a b, order = a ++ v.node :: b ∧
      (∃ n, g.nodes[v.node]? = some n) ∧ MidRun g batch start (done ++ a) v.store v.made := by
  induction order generalizing ex made done with
  | nil =>
    intro v hv
    cases hv
  | cons i order ih =>
    intro v hv
    rw [runNodes] at hv
    cases hn : g.nodes[i]? with
    | none =>
      rw [hn] at hv
      cases hv
    | some n =>
      simp only [hn] at hv
      have hfirst : ∃ a b, i :: order = a ++ i :: b ∧ (∃ n, g.nodes[i]? = some n) ∧
          MidRun g batch start (done ++ a) ex.store made :=
        ⟨[], order, rfl, ⟨n, hn⟩, by rwa [append_nil]⟩
      cases hrun : runNode g d i n batch args ex.store ex.scales ex.state with
      | mk result state =>
        rw [hrun] at hv
        cases result with
        | error e =>
          obtain rfl := mem_singleton.mp hv
          exact hfirst
        | ok produced =>
          obtain ⟨hkeys, hshape⟩ := runNode_produced hrun
          rcases mem_cons.mp hv with rfl | hv
          · exact hfirst
          · obtain ⟨a, b, rfl, hnode, hrunning⟩ := ih (h.publish hn hkeys hshape) v hv
            exact ⟨i :: a, b, rfl, hnode, by simpa using hrunning⟩

end Run

/-! ### The order -/

section Order

variable {g : Graph ω} {handle : ω → Option StateHandle}

theorem exists_producer {e : ℕ} (h : g.Produces e) :
    ∃ p n, g.producer e = some p ∧ g.nodes[p]? = some n ∧ e ∈ n.outputs := by
  obtain ⟨n, hn, he⟩ := h
  have hsome : (g.producer e).isSome := by
    rw [Graph.producer, findIdx?_isSome, any_eq_true]
    exact ⟨n, hn, contains_iff_mem.mpr he⟩
  obtain ⟨p, hp⟩ := Option.isSome_iff_exists.mp hsome
  obtain ⟨hlt, hout, -⟩ := findIdx?_eq_some_iff_getElem.mp hp
  exact ⟨p, g.nodes[p], hp, getElem?_eq_getElem hlt, contains_iff_mem.mp hout⟩

theorem producer_eq_none {e : ℕ} (h : ¬g.Produces e) : g.producer e = none := by
  rw [Graph.producer, findIdx?_eq_none_iff]
  intro n hn
  by_contra hout
  exact h ⟨n, hn, contains_iff_mem.mp (by simpa using hout)⟩

theorem mem_links {i e p : ℕ} {n : GraphNode ω} (hn : g.nodes[i]? = some n) (he : e ∈ n.inputs)
    (hp : g.resolve (g.edges.length + 1) e = some p) : (p, i) ∈ g.links handle := by
  refine mem_append_left _ (mem_flatMap.mpr ⟨(n, i), ?_, ?_⟩)
  · exact mem_zipIdx_iff_getElem?.mpr hn
  · exact mem_filterMap.mpr ⟨e, he, by rw [hp, Option.map_some]⟩

theorem link_lt : ∀ l ∈ g.links handle, l.2 < g.nodes.length := by
  have hidx : ∀ (n : GraphNode ω) i, (n, i) ∈ g.nodes.zipIdx → i < g.nodes.length := by
    intro n i hi
    exact (List.getElem?_eq_some_iff.mp (List.mem_zipIdx_iff_getElem?.mp hi)).1
  intro l hl
  rcases mem_append.mp hl with hl | hl
  · obtain ⟨⟨n, i⟩, hi, hl⟩ := mem_flatMap.mp hl
    obtain ⟨e, -, hl⟩ := mem_filterMap.mp hl
    obtain ⟨p, -, rfl⟩ := Option.map_eq_some_iff.mp hl
    exact hidx n i hi
  · obtain ⟨key, -, hl⟩ := mem_flatMap.mp hl
    have htail := mem_of_mem_tail (of_mem_zip (show (l.1, l.2) ∈ _ from hl)).2
    obtain ⟨q, hq, hq2⟩ := mem_map.mp htail
    obtain ⟨⟨n, i⟩, hi, hq'⟩ := mem_filterMap.mp (mem_of_mem_filter hq)
    obtain ⟨h, -, rfl⟩ := Option.map_eq_some_iff.mp hq'
    rw [← hq2]
    exact hidx n i hi

theorem before_of_resolve {order a b : List ℕ} {i e p : ℕ} {n : GraphNode ω}
    (horder : stateOrdered g handle = (.ok order : Except (ExecError F) _))
    (h : order = a ++ i :: b) (hn : g.nodes[i]? = some n) (he : e ∈ n.inputs)
    (hp : g.resolve (g.edges.length + 1) e = some p) : p ∈ a := by
  have heq : (Kahn.kahn (g.links handle) g.nodes.length).1 = order := by
    simp only [stateOrdered] at horder
    split_ifs at horder
    exact Except.ok.inj horder
  exact Kahn.kahn_before link_lt (heq.trans h) (mem_links hn he hp)

theorem resolve_of_produces {e p : ℕ} (h : g.producer e = some p) :
    g.resolve (g.edges.length + 1) e = some p := by
  rw [Graph.resolve, h]

theorem resolve_of_source {e s p : ℕ} (he : ¬g.Produces e) (hs : g.source e = some s)
    (hp : g.producer s = some p) : g.resolve (g.edges.length + 1) e = some p := by
  have hlt : 0 < g.edges.length := by
    cases hedge : g.edges[e]? with
    | none => simp [Graph.source, hedge] at hs
    | some edge => exact Nat.zero_lt_of_lt (List.getElem?_eq_some_iff.mp hedge).1
  obtain ⟨m, hm⟩ := Nat.exists_eq_succ_of_ne_zero hlt.ne'
  have hsource : (g.edges[e]?).bind (·.sourceEdge) = some s := hs
  rw [Graph.resolve, producer_eq_none he]
  simp only [hsource, Option.bind_some]
  rw [hm, Graph.resolve, hp]

end Order

/-! ### The inputs of a node -/

section Inputs

variable {g : Graph ω} {batch : BatchMeta}

theorem mapM_ok_of {ε α β : Type} {f f' : α → Except ε β} (h : ∀ a b, f a = .ok b → f' a = .ok b)
    {l : List α} {bs : List β} (hl : l.mapM f = .ok bs) : l.mapM f' = .ok bs := by
  induction l generalizing bs with
  | nil => exact hl
  | cons a l ih =>
    rw [mapM_cons, bind_eq_ok] at hl ⊢
    obtain ⟨b, hb, hl⟩ := hl
    obtain ⟨bs', hbs', hl⟩ := bind_eq_ok.mp hl
    exact ⟨b, h a b hb, bind_eq_ok.mpr ⟨bs', ih hbs', hl⟩⟩

theorem resolveShape_node {node node' e : ℕ} {tensor : Tensor} {shape : List ℕ}
    (h : resolveShape node e tensor batch = (.ok shape : Except (ExecError F) _)) :
    resolveShape node' e tensor batch = (.ok shape : Except (ExecError F) _) := by
  refine mapM_ok_of (fun dim extent hdim => ?_) h
  cases dim with
  | concrete c => exact hdim
  | symbolic symbol => cases symbol <;> first | exact hdim | cases hdim

theorem resolveShape_error {node e : ℕ} {tensor : Tensor} {err : ExecError F}
    (h : resolveShape node e tensor batch = .error err) : ∃ symbol, err = .symbolicDim node e symbol := by
  obtain ⟨dim, -, hdim⟩ := exists_of_mapM_eq_error h
  cases dim with
  | concrete c => cases hdim
  | symbolic symbol =>
    cases symbol <;> first | exact ⟨_, (Except.error.inj hdim).symm⟩ | cases hdim

variable {start store made bound : Store F} {done : List ℕ} {node e : ℕ}

/-- What a node finds in the slot of an edge that is not a view. -/
structure Settled (g : Graph ω) (batch : BatchMeta) (store made bound : Store F) (e : ℕ) : Prop where
  produced : g.Produces e → ∃ b, made e = some b ∧ store e = some b ∧ Shaped F g batch e b.shape
  external : g.External e → store e = bound e

theorem Settled.value_iff (h : Settled g batch store made bound e) (hlt : e < g.edges.length)
    (hsource : g.source e = none) {b : TypedBuffer F} :
    Value g batch made bound e b ↔ store e = some b := by
  constructor
  · intro hv
    cases hv with
    | produced hp hmade =>
      obtain ⟨b', hmade', hstore, -⟩ := h.produced hp
      rwa [← Option.some.inj (hmade'.symm.trans hmade)]
    | view node hp hedge hs =>
      rw [Graph.source, hedge, Option.bind_some, hs] at hsource
      cases hsource
    | bound hext hb => rw [h.external hext, hb]
  · intro hb
    by_cases hp : g.Produces e
    · obtain ⟨b', hmade, hstore, -⟩ := h.produced hp
      obtain rfl := Option.some.inj (hstore.symm.trans hb)
      exact .produced hp hmade
    · have hext : g.External e := ⟨hlt, hp, hsource⟩
      exact .bound hext (h.external hext ▸ hb)

theorem Missing.external_of (h : Missing g bound e) (hsource : g.source e = none) :
    g.External e ∧ bound e = none := by
  cases h with
  | external hext hb => exact ⟨hext, hb⟩
  | view _ hedge hs _ _ =>
    rw [Graph.source, hedge, Option.bind_some, hs] at hsource
    cases hsource

theorem readsValue_plain {made : Store F} (h : Settled g batch store made bound e)
    (hlt : e < g.edges.length) (hsource : g.source e = none) :
    ReadsValue g batch bound ⟨node, store, made⟩ e := by
  have hedge := getElem?_eq_getElem hlt
  have hnone : g.edges[e].sourceEdge = none := by
    rwa [Graph.source, hedge, Option.bind_some] at hsource
  have hempty : store e = none →
      inputBuffer g node batch store e = .error (.unboundEdge node e) := by
    intro hstore
    rw [inputBuffer, hstore, hedge]
    simp [hnone]
  have hfull : ∀ b, store e = some b → inputBuffer g node batch store e = .ok b := by
    intro b hstore
    rw [inputBuffer, hstore]
  refine ⟨fun b => ?_, fun hmissing => ?_, fun hsupplied err herr => ?_⟩
  · rw [h.value_iff hlt hsource]
    refine ⟨fun hok => ?_, hfull b⟩
    cases hstore : store e with
    | none =>
      rw [hempty hstore] at hok
      cases hok
    | some b' =>
      rw [hfull b' hstore] at hok
      rw [Except.ok.inj hok]
  · obtain ⟨hext, hb⟩ := hmissing.external_of hsource
    exact ⟨e, hempty ((h.external hext).trans hb)⟩
  · -- the slot is not empty, so that there is no error
    have hsome : ∃ b, store e = some b := by
      by_cases hp : g.Produces e
      · obtain ⟨b, -, hb, -⟩ := h.produced hp
        exact ⟨b, hb⟩
      · have hext : g.External e := ⟨hlt, hp, hsource⟩
        rw [h.external hext]
        exact Option.isSome_iff_exists.mp (hsupplied.external e hext)
    obtain ⟨b, hb⟩ := hsome
    rw [hfull b hb] at herr
    cases herr

theorem readsValue_view {made : Store F} {s : ℕ} (h : Settled g batch store made bound s)
    (hp : ¬g.Produces e) (hempty : store e = none) (hs : g.source e = some s)
    (hsource : g.source s = none)
    (hcount : ∀ edge shape node, g.edges[e]? = some edge →
      resolveShape node e edge.tensor batch = (.ok shape : Except (ExecError F) _) →
      SourceCount g batch bound s shape.prod) :
    ReadsValue g batch bound ⟨node, store, made⟩ e := by
  obtain ⟨edge, hedge, hs⟩ := Option.bind_eq_some_iff.mp hs
  have hlt : s < g.edges.length := by
    have := g.source_lt e edge s hedge hs
    have := (List.getElem?_eq_some_iff.mp hedge).1
    omega
  have hbuffer : inputBuffer g node batch store e = (do
      ensure edge.isContiguous (.nonContiguousView node e s)
      let b ← okOr (store s) (.unboundEdge node s)
      let shape ← resolveShape node e edge.tensor batch
      okOr (b.copyWithShape shape) (.nonContiguousView node e s)) := by
    rw [inputBuffer, hempty, hedge]
    simp only [okOr_some, ok_bind, hs]
  refine ⟨fun b => ?_, fun hmissing => ?_, fun hsupplied err herr => ?_⟩
  · rw [hbuffer]
    simp only [bind_eq_ok, ensure_eq_ok, okOr_eq_ok]
    constructor
    · rintro ⟨-, hcont, b', hb', shape, hshape, hcopy⟩
      exact .view node hp hedge hs hcont ((h.value_iff hlt hsource).mpr hb') hshape hcopy
    · intro hv
      cases hv with
      | produced hp' _ => exact absurd hp' hp
      | view node' _ hedge' hs' hcont hv hshape hcopy =>
        obtain rfl := Option.some.inj (hedge.symm.trans hedge')
        obtain rfl := Option.some.inj (hs.symm.trans hs')
        exact ⟨(), hcont, _, (h.value_iff hlt hsource).mp hv, _, resolveShape_node hshape, hcopy⟩
      | bound hext _ =>
        have hnone := hext.2.2
        rw [Graph.source, hedge, Option.bind_some, hs] at hnone
        cases hnone
  · cases hmissing with
    | external hext _ =>
      have hnone := hext.2.2
      rw [Graph.source, hedge, Option.bind_some, hs] at hnone
      cases hnone
    | view _ hedge' hs' hcont hmissing =>
      obtain rfl := Option.some.inj (hedge.symm.trans hedge')
      obtain rfl := Option.some.inj (hs.symm.trans hs')
      obtain ⟨hext, hb⟩ := hmissing.external_of hsource
      refine ⟨s, ?_⟩
      rw [hbuffer, ensure_of hcont, ok_bind, h.external hext, hb]
      rfl
  · have hcont : edge.isContiguous = true :=
      hsupplied.contiguous edge (mem_of_getElem? hedge) (by rw [hs]; rfl)
    have hsome : ∃ b, store s = some b ∧ ∀ n, SourceCount g batch bound s n → b.numElements = n := by
      by_cases hps : g.Produces s
      · obtain ⟨b, -, hb, sedge, snode, hsedge, hshape⟩ := h.produced hps
        exact ⟨b, hb, fun n hn => hn.2 sedge b.shape snode hsedge hps hshape⟩
      · have hext : g.External s := ⟨hlt, hps, hsource⟩
        obtain ⟨b, hb⟩ := Option.isSome_iff_exists.mp (hsupplied.external s hext)
        exact ⟨b, (h.external hext).trans hb, fun n hn => hn.1 b hb hext⟩
    obtain ⟨b, hb, hnum⟩ := hsome
    rw [hbuffer, ensure_of hcont, ok_bind, hb, okOr_some, ok_bind, bind_eq_error] at herr
    rcases herr with herr | ⟨shape, hshape, herr⟩
    · obtain ⟨symbol, rfl⟩ := resolveShape_error herr
      exact ⟨by simp, by simp⟩
    · have hcopy := hnum shape.prod (hcount edge shape node hedge hshape)
      rw [TypedBuffer.copyWithShape, dif_pos hcopy] at herr
      cases herr

end Inputs

/-! ### Histories of calls -/

section History

variable [Zero F] {d : Dispatch F ω κ σ} {g : Graph ω} {batch : BatchMeta} {args : κ}
  {calls : List (ExecCall F ω κ)} {state : σ} {e : ℕ}

theorem runNodes_other {order : List ℕ} {ex : CpuExecutor F σ} {made : Store F}
    (he : ¬g.Produces e) : (runNodes d g batch args order ex made).executor.store e = ex.store e := by
  induction order generalizing ex made with
  | nil => rfl
  | cons i order ih =>
    rw [runNodes]
    cases hn : g.nodes[i]? with
    | none => rfl
    | some n =>
      simp only
      cases hrun : runNode g d i n batch args ex.store ex.scales ex.state with
      | mk result state =>
        cases result with
        | error err => rfl
        | ok produced =>
          refine ih.trans (publish_of_notMem ?_)
          rw [(runNode_produced hrun).1]
          exact fun hout => he ⟨n, mem_of_getElem? hn, hout⟩

theorem run_other {ex : CpuExecutor F σ} (he : ¬g.Produces e) :
    (ex.run d g batch args).executor.store e = ex.store e := by
  rw [CpuExecutor.run]
  cases stateOrdered (F := F) g d.handle with
  | error err => rfl
  | ok order => exact runNodes_other he

theorem calls_snoc {ex : CpuExecutor F σ} {c : ExecCall F ω κ} :
    ex.calls d (calls ++ [c]) = (ex.calls d calls).call d c := by
  rw [CpuExecutor.calls, foldl_append]
  rfl

/-- **The slots after some calls.** -/
theorem slot_calls (calls : List (ExecCall F ω κ)) (e : ℕ) :
    Slot ((CpuExecutor.new state).calls d calls).store (bindings calls) e (lastTouch calls e) := by
  induction calls using List.reverseRecOn with
  | nil => exact ⟨fun _ => rfl, fun _ => rfl⟩
  | append_singleton calls c ih =>
    rw [lastTouch_snoc, bindings_snoc, calls_snoc]
    cases c with
    | bind e' b =>
      rcases eq_or_ne e e' with rfl | hne
      · refine ⟨fun _ => ?_, fun h => ?_⟩
        · simp [CpuExecutor.call]
        · simp [ExecCall.touch] at h
      · simp only [ExecCall.touch, if_neg hne, CpuExecutor.call]
        refine ⟨fun h => ?_, fun h => ?_⟩
        · rw [Function.update_of_ne hne, Function.update_of_ne hne, ih.bound_eq h]
        · rw [Function.update_of_ne hne, ih.empty h]
    | clearEdges => exact ⟨fun _ => rfl, fun _ => rfl⟩
    | run g batch args =>
      by_cases hp : g.Produces e
      · simp only [ExecCall.touch, if_pos hp]
        refine ⟨fun h => absurd rfl h, fun h => ?_⟩
        rcases h with h | h <;> cases h
      · simp only [ExecCall.touch, if_neg hp]
        exact ⟨fun h => (run_other hp).trans (ih.bound_eq h), ih.empty⟩

/-- **Every node reads the values of its inputs**, in a history whose runs can all be run. -/
theorem runs_read_values (d : Dispatch F ω κ σ) (state : σ) (calls : List (ExecCall F ω κ))
    (h : ∀ before g batch args after, calls = before ++ .run g batch args :: after →
      Runnable before g batch)
    (before : List (ExecCall F ω κ)) (g : Graph ω) (batch : BatchMeta) (args : κ)
    (after : List (ExecCall F ω κ)) (hcalls : calls = before ++ .run g batch args :: after) :
    ∀ v ∈ ((((CpuExecutor.new state).calls d before).run d g batch args).log),
      ∃ n, g.nodes[v.node]? = some n ∧ ∀ e ∈ n.inputs, ReadsValue g batch (bindings before) v e := by
  intro v hv
  have hrunnable := h before g batch args after hcalls
  rw [CpuExecutor.run] at hv
  cases horder : stateOrdered (F := F) g d.handle with
  | error err =>
    rw [horder] at hv
    cases hv
  | ok order =>
    rw [horder] at hv
    obtain ⟨a, b, hab, ⟨n, hn⟩, hrunning⟩ := runNodes_log midRun_start v hv
    rw [nil_append] at hrunning
    have hmem := mem_of_getElem? hn
    refine ⟨n, hn, fun e he => ?_⟩
    have hlt := g.input_lt n hmem e he
    -- what is produced was produced before, and what is bound was not touched since
    have hmade : ∀ e', g.resolve (g.edges.length + 1) e = g.producer e' → g.Produces e' →
        ∃ b, v.made e' = some b ∧ v.store e' = some b ∧ Shaped F g batch e' b.shape := by
      intro e' hresolve hp
      obtain ⟨p, m, hprod, hm, hout⟩ := exists_producer hp
      have hdone := before_of_resolve horder hab hn he (hresolve.trans hprod)
      obtain ⟨b, hb⟩ := Option.isSome_iff_exists.mp (hrunning.made_of p hdone m hm e' hout)
      obtain ⟨hstore, -, hshape⟩ := hrunning.made_eq e' b hb
      exact ⟨b, hb, hstore, hshape⟩
    have hbound : ∀ e', g.External e' → lastTouch before e' ≠ some .produced →
        v.store e' = bindings before e' := fun e' hext htouch =>
      (hrunning.other e' hext.2.1).trans ((slot_calls before e').bound_eq htouch)
    cases hs : g.source e with
    | none =>
      refine readsValue_plain ⟨fun hp => ?_, fun hext => ?_⟩ hlt hs
      · obtain ⟨p, m, hprod, -, -⟩ := exists_producer hp
        exact hmade e ((resolve_of_produces hprod).trans hprod.symm) hp
      · exact hbound e hext (hrunnable.external n hmem e he hext)
    | some s =>
      have hnot : ¬g.Produces e := by
        rintro ⟨m, hm, hout⟩
        obtain ⟨edge, hedge, hnone⟩ := g.output_plain m hm e hout
        rw [Graph.source, hedge, Option.bind_some, hnone] at hs
        cases hs
      obtain ⟨hsource, htouch⟩ := hrunnable.source n hmem e he s hs
      refine readsValue_view ⟨fun hp => ?_, fun hext => ?_⟩ hnot ?_ hs hsource fun edge shape node =>
        hrunnable.count n hmem e he s edge shape node hs
      · obtain ⟨p, m, hprod, -, -⟩ := exists_producer hp
        exact hmade s ((resolve_of_source hnot hs hprod).trans hprod.symm) hp
      · exact hbound s hext (htouch hext)
      · have htouched := hrunnable.view n hmem e he (by rw [hs]; rfl)
        have hslot := @slot_calls F ω κ σ _ d state before e
        rw [hrunning.other e hnot, hslot.bound_eq, hslot.empty htouched]
        rintro hbad
        rcases htouched with htouched | htouched <;> rw [hbad] at htouched <;> cases htouched

end History

/-! ### A view of a view -/

section Nested

/-- A tensor of four numbers. -/
def fourParam (shape : List Dim) (h : tensorProblems shape .f32 .none .contiguous (.device 0) .param = []) :
    Tensor :=
  ⟨shape, .f32, .none, .contiguous, .device 0, .replicated, .param, h⟩

/-- An operation that leaves its outputs as they are. -/
def idle : Dispatch Float32 Unit Unit Unit where
  handle _ := none
  enter _ s := s
  perform _ _ _ outputs _ _ s := (.ok outputs, s)
  shape_eq h := by
    obtain ⟨houts, -⟩ := Prod.mk.inj h
    rw [Except.ok.inj houts]

def fourBuffer : TypedBuffer Float32 := ⟨[4], .f32 [1, 2, 3, 4], .none, .contiguous, rfl⟩

/-- A step with one token. -/
def oneTokenMeta : BatchMeta := ⟨1, 1, 1, 1, [1], [1], [0], .perToken [0], [0], [0], [0], none⟩

/-- Four numbers and a view of them, with a node that reads both. -/
def viewCalls : Except GraphError (Graph Unit) := do
  let (e, g) ← (Graph.new 0).addTensor (fourParam [.concrete 4] rfl)
  let (view, g) ← g.reshapeEdge e [.concrete 2, .concrete 2]
  let (_, g) ← g.addOp () [e, view] [fourParam [.concrete 4, .concrete 1] rfl]
  pure g

/-- Four numbers, a view of them and a view of the view, with a node that reads the last one. -/
def nestedCalls : Except GraphError (Graph Unit) := do
  let (e, g) ← (Graph.new 0).addTensor (fourParam [.concrete 4] rfl)
  let (view, g) ← g.reshapeEdge e [.concrete 2, .concrete 2]
  let (view, g) ← g.reshapeEdge view [.concrete 4, .concrete 1]
  let (_, g) ← g.addOp () [view] [fourParam [.concrete 4, .concrete 1] rfl]
  pure g

def viewGraph : Graph Unit := viewCalls.toOption.getD (Graph.new 0)

def nestedGraph : Graph Unit := nestedCalls.toOption.getD (Graph.new 0)

def fourBound : List (ExecCall Float32 Unit Unit) := [.bind 0 fourBuffer]

/-- Binds the four numbers and runs a graph. -/
def fourRun (g : Graph Unit) : RunOutcome Float32 Unit :=
  ((CpuExecutor.new ()).calls idle fourBound).run idle g oneTokenMeta ()

/-- Whether an input of a node is not there. -/
def isUnbound : Except (ExecError Float32) (TypedBuffer Float32) → Bool
  | .error (.unboundEdge _ _) => true
  | _ => false

theorem fourBound_external (g : Graph Unit) (h : ∀ e < g.edges.length, e ≠ 0 →
    g.Produces e ∨ (g.source e).isSome) : ∀ e, g.External e → (bindings fourBound e).isSome := by
  rintro e ⟨hlt, hp, hs⟩
  rcases eq_or_ne e 0 with rfl | hne
  · rfl
  · rcases h e hlt hne with h | h
    · exact absurd h hp
    · rw [hs] at h
      cases h

/-- All views of the graph are contiguous and its edge from outside is bound, and its node does
not find its input. -/
theorem nested_view_unbound : nestedCalls.toOption.isSome ∧ Supplied nestedGraph (bindings fourBound) ∧
    ¬∀ v ∈ (fourRun nestedGraph).log, ∃ n, nestedGraph.nodes[v.node]? = some n ∧ ∀ e ∈ n.inputs,
      ReadsValue nestedGraph oneTokenMeta (bindings fourBound) v e := by
  have hsupplied : Supplied nestedGraph (bindings fourBound) :=
    ⟨by decide +kernel, fourBound_external nestedGraph (by decide +kernel)⟩
  refine ⟨by decide +kernel, hsupplied, fun h => ?_⟩
  have hinputs : nestedGraph.nodes.map (·.inputs) = [[2]] := by decide +kernel
  have hlog : ((fourRun nestedGraph).log.map fun v =>
      isUnbound (inputBuffer nestedGraph v.node oneTokenMeta v.store 2)) = [true] := by
    decide +kernel
  obtain ⟨v, hv, hunbound⟩ : ∃ v ∈ (fourRun nestedGraph).log,
      isUnbound (inputBuffer nestedGraph v.node oneTokenMeta v.store 2) = true :=
    mem_map.mp (hlog ▸ mem_singleton_self true)
  obtain ⟨n, hn, hreads⟩ := h v hv
  have hmem : n.inputs ∈ nestedGraph.nodes.map (·.inputs) :=
    mem_map_of_mem (mem_of_getElem? hn)
  rw [hinputs, mem_singleton] at hmem
  have hread := hreads 2 (by rw [hmem]; exact mem_singleton_self 2)
  cases hbuffer : inputBuffer nestedGraph v.node oneTokenMeta v.store 2 with
  | ok b =>
    rw [hbuffer] at hunbound
    cases hunbound
  | error err =>
    obtain ⟨hne, -⟩ := hread.supplied hsupplied err hbuffer
    rw [hbuffer] at hunbound
    cases err with
    | unboundEdge i j => exact hne i j rfl
    | _ => cases hunbound

theorem viewGraph_runnable : Runnable fourBound viewGraph oneTokenMeta := by
  have hinputs : ∀ n ∈ viewGraph.nodes, ∀ e ∈ n.inputs, e = 0 ∨ e = 1 := by decide
  have hplain : viewGraph.source 0 = none := by decide
  have hview : viewGraph.source 1 = some 0 := by decide
  have hfree : ¬viewGraph.Produces 0 := by decide
  have hshape : (viewGraph.edges[1]?).map (·.tensor.shape) = some [.concrete 2, .concrete 2] := by
    decide
  have htouch : lastTouch fourBound 0 ≠ some .produced := by
    intro h
    cases h
  refine ⟨fun n hn e he hext => ?_, fun n hn e he s hs => ?_, fun n hn e he hs => ?_,
    fun n hn e he s edge shape node hs hedge hresolve => ?_⟩
  all_goals rcases hinputs n hn e he with rfl | rfl
  · exact htouch
  · rw [hext.2.2] at hview
    cases hview
  · rw [hplain] at hs
    cases hs
  · obtain rfl : 0 = s := Option.some.inj (hview.symm.trans hs)
    exact ⟨hplain, fun _ => htouch⟩
  · rw [hplain] at hs
    cases hs
  · exact Or.inl rfl
  · rw [hplain] at hs
    cases hs
  · obtain rfl : 0 = s := Option.some.inj (hview.symm.trans hs)
    rw [hedge, Option.map_some, Option.some.injEq] at hshape
    rw [resolveShape, hshape] at hresolve
    obtain rfl : [2, 2] = shape := Except.ok.inj hresolve
    refine ⟨fun b hb _ => ?_, fun _ _ _ _ hp => absurd hp hfree⟩
    rw [← show fourBuffer = b from Option.some.inj hb]
    rfl

theorem runs_read_values_view : (fourRun viewGraph).log.length = 1 ∧
    ∀ v ∈ (fourRun viewGraph).log, ∃ n, viewGraph.nodes[v.node]? = some n ∧ ∀ e ∈ n.inputs,
      ReadsValue viewGraph oneTokenMeta (bindings fourBound) v e := by
  refine ⟨by decide +kernel, runs_read_values idle ()
    (fourBound ++ [.run viewGraph oneTokenMeta ()]) ?_ fourBound viewGraph oneTokenMeta () [] rfl⟩
  intro before g batch args after heq
  obtain _ | ⟨c, _ | ⟨c', before⟩⟩ := before
  · cases heq
  · cases heq
    exact viewGraph_runnable
  · cases before <;> cases heq

end Nested

end R9v

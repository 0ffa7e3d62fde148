import R9v.Ir.Graph
import R9v.Lib.RowMajor

/-!
# Views of an edge

A view is made of an edge by transpositions and reshapes (`r9v-ir/src/graph.rs`), and all it says of
the memory are its strides. Here a view also carries where its elements really are: a transposition
moves the coordinates, a reshape numbers the same elements anew. A view has the axes of a contiguous
tensor in some order (`ViewOf`), so when its strides are those of its own shape, the axes of several
elements have kept their order – unless two of them have one stride, which only a saturated stride can
be (`strideBefore_eq`).
-/

namespace R9v

open Checked RowMajor List

/-! ### Where the elements of a view are -/

/-- The extent of a dimension, once the symbols have one. -/
def Dim.real (a : ShapeSymbol → ℕ) : Dim → ℕ
  | .concrete c => c
  | .symbolic symbol => a symbol

def extents (a : ShapeSymbol → ℕ) (shape : List Dim) : List ℕ := shape.map (Dim.real a)

/-- The calls that make a view of an edge. -/
inductive ViewCall
  | transpose (perm : List ℕ)
  | reshape (shape : List Dim)

/-- An edge of a graph, and where in memory its elements are, by their coordinates. -/
structure View (ω : Type) where
  graph : Graph ω
  edge : ℕ
  memory : (ℕ → ℕ) → ℕ

namespace View

variable {ω : Type} (a : ShapeSymbol → ℕ)

def shape (v : View ω) : List Dim := ((v.graph.edges[v.edge]?).map (·.tensor.shape)).getD []

/-- An edge whose elements lie in memory in row-major order. -/
def source (g : Graph ω) (e : ℕ) : View ω :=
  let v : View ω := ⟨g, e, fun _ => 0⟩
  { v with memory := flat (extents a v.shape) }

/-- An axis of a transposed view is the axis of the permutation. -/
def transposed (perm : List ℕ) (memory : (ℕ → ℕ) → ℕ) : (ℕ → ℕ) → ℕ :=
  fun idx => memory fun axis => idx (perm.idxOf axis)

/-- The elements of a reshaped view are those of its source, by their numbers. A view that has not
as many elements as its source is one by its strides only. -/
def reshaped (ext ext' : List ℕ) (memory : (ℕ → ℕ) → ℕ) : (ℕ → ℕ) → ℕ :=
  if ext'.prod = ext.prod then fun idx => memory (unflat ext (flat ext' idx)) else flat ext'

/-- Makes a view of a view. -/
def call (v : View ω) : ViewCall → Except GraphError (View ω)
  | .transpose perm => do
    let (e, g) ← v.graph.transposeEdge v.edge perm
    pure ⟨g, e, transposed perm v.memory⟩
  | .reshape shape => do
    let (e, g) ← v.graph.reshapeEdge v.edge shape
    pure ⟨g, e, reshaped (extents a v.shape) (extents a shape) v.memory⟩

def calls (v : View ω) (cs : List ViewCall) : Except GraphError (View ω) := cs.foldlM (call a) v

def isContiguous (v : View ω) : Bool := (v.graph.edges[v.edge]?).any (·.isContiguous)

/-- The elements lie in memory in the row-major order of the shape. -/
def InRowMajorOrder (v : View ω) : Prop :=
  ∀ i j, InBounds (extents a v.shape) i → InBounds (extents a v.shape) j →
    (v.memory i < v.memory j ↔ flat (extents a v.shape) i < flat (extents a v.shape) j)

end View

/-- An axis of several elements whose stride is the largest one there is. -/
def SaturatedAxis (shape : List Dim) (strides : List ℤ) (axis : ℕ) : Prop :=
  shape[axis]? ≠ some (.concrete 1) ∧ strides[axis]? = some (2 ^ 63 - 1)

/-- A transposition keeps the order of the axes with a saturated stride. -/
def ViewCall.KeepsSaturated {ω : Type} (v : View ω) : ViewCall → Prop
  | .transpose perm => ∀ edge, v.graph.edges[v.edge]? = some edge →
      perm.Pairwise fun x y => SaturatedAxis edge.tensor.shape edge.strides x →
        SaturatedAxis edge.tensor.shape edge.strides y → x < y
  | .reshape _ => True

/-- Every call of a run keeps the order of the axes with a saturated stride. -/
def View.RunKeepsSaturated {ω : Type} (a : ShapeSymbol → ℕ) (v : View ω) : List ViewCall → Prop
  | [] => True
  | c :: cs => c.KeepsSaturated v ∧ ∀ v', v.call a c = .ok v' → v'.RunKeepsSaturated a cs

/-! ### The calls that succeed -/

theorem GraphError.fromProblems_eq_ok {problems : List GraphError} {u : Unit} :
    GraphError.fromProblems problems = .ok u ↔ problems = [] := by
  rcases problems with _ | ⟨e, _ | ⟨e', problems⟩⟩ <;> simp [GraphError.fromProblems]

theorem Tensor.new_eq_ok {shape : List Dim} {dtype : DType} {quant : QuantScheme} {layout : LayoutId}
    {placement : Placement} {sharding : ShardLayout} {cls : Class} {t : Tensor} :
    Tensor.new shape dtype quant layout placement sharding cls = .ok t ↔
      ∃ h, t = ⟨shape, dtype, quant, layout, placement, sharding, cls, h⟩ := by
  constructor
  · intro ht
    unfold Tensor.new at ht
    split at ht
    · next h => exact ⟨h, (Except.ok.inj ht).symm⟩
    all_goals simp at ht
  · rintro ⟨h, rfl⟩
    unfold Tensor.new
    split
    · rfl
    all_goals simp_all

section Axes

variable {perm : List ℕ} {rank : ℕ}

theorem perm_range_iff (hlen : perm.length = rank) :
    perm.Perm (List.range rank) ↔ ∀ axis < rank, axis ∈ perm := by
  constructor
  · intro h axis haxis
    exact h.mem_iff.mpr (mem_range.mpr haxis)
  · intro h
    have hsub : List.range rank ⊆ perm := fun axis haxis => h axis (mem_range.mp haxis)
    exact ((subperm_of_subset nodup_range hsub).perm_of_length_le (by simp [hlen])).symm

/-- **The axes of a transposition** are right when they are those of the tensor in some order. -/
theorem permProblems_eq_nil (hlen : perm.length = rank) :
    Graph.permProblems rank perm = [] ↔ perm.Perm (List.range rank) := by
  constructor
  · intro h
    simp only [Graph.permProblems, append_eq_nil_iff, ite_eq_right_iff, imp_false,
      not_not, cons_ne_nil] at h
    obtain ⟨⟨hbounds, hdup⟩, hmissing⟩ := h
    refine (perm_range_iff hlen).mpr fun axis haxis => ?_
    by_contra hno
    refine hmissing ⟨fun hnil => ?_, hdup, hbounds⟩
    have hmem : axis ∈ (List.range rank).filter fun p => !perm.contains p := by
      simp [haxis, hno]
    rw [hnil] at hmem
    exact not_mem_nil hmem
  · intro h
    have hlt : ∀ axis ∈ perm, axis < rank := fun axis haxis => mem_range.mp (h.mem_iff.mp haxis)
    have hbounds : perm.filter (rank ≤ ·) = [] := by
      rw [filter_eq_nil_iff]
      intro axis haxis
      simpa using hlt axis haxis
    have hin : perm.filter (· < rank) = perm := by
      rw [filter_eq_self]
      intro axis haxis
      simpa using hlt axis haxis
    have hnodup : perm.Nodup := h.nodup_iff.mpr nodup_range
    have hdup : ∀ before : ℕ × ℕ → Bool, (∀ p i, before (p, i) = (perm.take i).contains p) →
        perm.zipIdx.filter before = [] := by
      intro before hbefore
      rw [filter_eq_nil_iff]
      rintro ⟨p, i⟩ hpi
      rw [hbefore]
      obtain ⟨hi, hp⟩ : ∃ hi : i < perm.length, perm[i] = p :=
        List.getElem?_eq_some_iff.mp (List.mem_zipIdx_iff_getElem?.mp hpi)
      simp only [contains_iff_mem, mem_take_iff_getElem, not_exists]
      intro j hj heq
      have hij : j = i := (Nodup.getElem_inj_iff hnodup).mp (heq.trans hp.symm)
      omega
    have hmissing : ((List.range rank).filter fun p => !perm.contains p) = [] := by
      rw [filter_eq_nil_iff]
      intro axis haxis
      simpa using h.mem_iff.mpr haxis
    rw [Graph.permProblems, hin, hdup _ fun _ _ => rfl]
    simp only [hbounds, hmissing, map_nil, ne_eq, not_true_eq_false, if_false, false_and,
      append_nil]

end Axes

/-- An edge is another one with its axes in another order. -/
structure IsTransposed (perm : List ℕ) (old new : GraphEdge) : Prop where
  perm_range : perm.Perm (List.range old.tensor.shape.length)
  shape_eq : new.tensor.shape = perm.map fun p => old.tensor.shape.getD p (.concrete 0)
  strides_eq : new.strides = perm.map fun p => old.strides.getD p 0
  sharding_eq : new.tensor.sharding = Graph.ShardLayout.permute perm old.tensor.sharding
  dtype_eq : new.tensor.dtype = old.tensor.dtype
  quant_eq : new.tensor.quant = old.tensor.quant
  layout_eq : new.tensor.layout = old.tensor.layout
  placement_eq : new.tensor.placement = old.tensor.placement
  cls_eq : new.tensor.cls = old.tensor.cls

namespace Graph

variable {ω : Type} {g : Graph ω} {e : ℕ} {perm : List ℕ} {shape : List Dim} {old : GraphEdge}
  {y : ℕ × Graph ω}

theorem edges_pushEdge {edge : GraphEdge} (h : ∀ s, edge.sourceEdge = some s → s < g.edges.length) :
    (g.pushEdge edge h).edges[g.edges.length]? = some edge := by
  simp [pushEdge]

/-- **A transposition that succeeds** adds the transposed edge. -/
theorem isTransposed_of_transposeEdge (hold : g.edges[e]? = some old)
    (h : g.transposeEdge e perm = .ok y) :
    ∃ new, y.2.edges[y.1]? = some new ∧ IsTransposed perm old new := by
  unfold transposeEdge at h
  split at h
  · simp at h
  · next old' hold' =>
    obtain rfl : old' = old := Option.some.inj (hold'.symm.trans hold)
    simp only [bind_eq_ok, ensure_eq_ok, pure_eq_ok] at h
    obtain ⟨_, hlen, _, hperm, tensor, htensor, rfl⟩ := h
    obtain ⟨hvalid, rfl⟩ := Tensor.new_eq_ok.mp htensor
    refine ⟨_, edges_pushEdge ?_, ?_, rfl, rfl, rfl, rfl, rfl, rfl, rfl, rfl⟩
    · rintro s hs
      obtain rfl := Option.some.inj hs
      exact (List.getElem?_eq_some_iff.mp hold).1
    · exact (permProblems_eq_nil hlen).mp (GraphError.fromProblems_eq_ok.mp hperm)

theorem getD_perm_mem (h : perm.Perm (List.range shape.length)) {dim : Dim}
    (hdim : dim ∈ perm.map fun p => shape.getD p (.concrete 0)) : dim ∈ shape := by
  obtain ⟨p, hp, rfl⟩ := mem_map.mp hdim
  have hlt : p < shape.length := mem_range.mp (h.mem_iff.mp hp)
  rw [getD_eq_getElem _ _ hlt]
  exact getElem_mem hlt

/-- What is wrong with a tensor is wrong with its shape or with the rest of it. -/
theorem tensorProblems_eq_nil {dtype : DType} {quant : QuantScheme} {layout : LayoutId}
    {placement : Placement} {cls : Class} :
    tensorProblems shape dtype quant layout placement cls = [] ↔
      (shape ≠ [] ∧ shape.length ≤ 4 ∧ ∀ dim ∈ shape, dim ≠ .concrete 0) ∧
        tensorProblems [.concrete 1] dtype quant layout placement cls = [] := by
  have hzero : ∀ problem : Dim × ℕ → List GraphError,
      (∀ dim axis, problem (dim, axis) = if dim = .concrete 0 then [.zeroExtent axis] else []) →
        (shape.zipIdx.flatMap problem = [] ↔ ∀ dim ∈ shape, dim ≠ .concrete 0) := by
    intro problem hproblem
    rw [flatMap_eq_nil_iff]
    constructor
    · intro h dim hdim hno
      obtain ⟨i, hi, heq⟩ := getElem_of_mem hdim
      have hnil := h (shape[i], i) (by simp [mem_zipIdx_iff_getElem?, hi])
      rw [hproblem, if_pos (heq.trans hno)] at hnil
      exact cons_ne_nil _ _ hnil
    · rintro h ⟨dim, axis⟩ hmem
      rw [hproblem]
      exact if_neg (h dim (fst_mem_of_mem_zipIdx hmem))
  delta tensorProblems
  simp only [append_eq_nil_iff]
  rw [hzero _ fun _ _ => rfl]
  simp only [ite_eq_right_iff, cons_ne_nil, imp_false, not_or,
    not_lt, and_assoc]
  simp

theorem tensorProblems_transposed {t : Tensor} (h : perm.Perm (List.range t.shape.length)) :
    tensorProblems (perm.map fun p => t.shape.getD p (.concrete 0)) t.dtype t.quant t.layout t.placement
      t.cls = [] := by
  obtain ⟨⟨hnil, hrank, hzero⟩, hrest⟩ := tensorProblems_eq_nil.mp t.valid
  have hlen : perm.length = t.shape.length := by simpa using h.length_eq
  refine tensorProblems_eq_nil.mpr ⟨⟨?_, ?_, ?_⟩, hrest⟩
  · rw [← length_pos_iff, length_map, hlen]
    exact length_pos_iff.mpr hnil
  · rwa [length_map, hlen]
  · intro dim hdim
    exact hzero dim (getD_perm_mem h hdim)

/-- **A transposition succeeds** when the axes are those of the edge in some order. -/
theorem exists_transposeEdge (hold : g.edges[e]? = some old)
    (h : perm.Perm (List.range old.tensor.shape.length)) :
    ∃ y, g.transposeEdge e perm = .ok y := by
  have hlen : perm.length = old.tensor.shape.length := by simpa using h.length_eq
  unfold transposeEdge
  split
  · next hnone => simp [hold] at hnone
  · next old' hold' =>
    obtain rfl : old' = old := Option.some.inj (hold'.symm.trans hold)
    simp only [bind_eq_ok, ensure_eq_ok, pure_eq_ok]
    exact ⟨_, (), hlen, (), GraphError.fromProblems_eq_ok.mpr ((permProblems_eq_nil hlen).mpr h), _,
      Tensor.new_eq_ok.mpr ⟨tensorProblems_transposed h, rfl⟩, rfl⟩

/-- **A reshape that succeeds** was of a contiguous edge, and is a contiguous edge. -/
theorem of_reshapeEdge (hold : g.edges[e]? = some old) (h : g.reshapeEdge e shape = .ok y) :
    old.isContiguous = true ∧ ∃ new, y.2.edges[y.1]? = some new ∧ new.tensor.shape = shape ∧
      new.strides = computeContiguousStrides shape := by
  unfold reshapeEdge at h
  split at h
  · simp at h
  · next old' hold' =>
    obtain rfl : old' = old := Option.some.inj (hold'.symm.trans hold)
    simp only [bind_eq_ok, pure_eq_ok] at h
    obtain ⟨_, hcheck, tensor, htensor, rfl⟩ := h
    obtain ⟨hvalid, rfl⟩ := Tensor.new_eq_ok.mp htensor
    simp only [checkReshape, bind_eq_ok, ensure_eq_ok] at hcheck
    obtain ⟨_, hstrides, -⟩ := hcheck
    refine ⟨by simpa [GraphEdge.isContiguous] using hstrides, _, edges_pushEdge ?_, rfl, rfl⟩
    rintro s hs
    obtain rfl := Option.some.inj hs
    exact (List.getElem?_eq_some_iff.mp hold).1

end Graph

/-! ### Axes in one order after another -/

section Axes

variable {p q : List ℕ} {r : ℕ}

theorem map_getD_range (hp : p.length = r) : (List.range r).map (p.getD · 0) = p := by
  refine ext_getElem (by simp [hp]) fun i hi hi' => ?_
  rw [getElem_map, getElem_range, getD_eq_getElem _ _ hi']

theorem getD_map_perm {α : Type} {f : ℕ → α} {d : α} (hp : p.Perm (List.range r)) {i : ℕ} (hi : i < r) :
    (p.map f).getD i d = f (p.getD i 0) := by
  have hlen : p.length = r := by simpa using hp.length_eq
  rw [getD_eq_getElem _ _ (by simpa [hlen] using hi), getElem_map,
    getD_eq_getElem _ _ (by rwa [hlen])]

theorem perm_comp (hp : p.Perm (List.range r)) (hq : q.Perm (List.range r)) :
    (q.map (p.getD · 0)).Perm (List.range r) := by
  have hmap := hq.map (p.getD · 0)
  rw [map_getD_range (by simpa using hp.length_eq)] at hmap
  exact hmap.trans hp

theorem getD_idxOf (hp : p.Perm (List.range r)) {axis : ℕ} (haxis : axis < r) :
    p.idxOf axis < r ∧ p.getD (p.idxOf axis) 0 = axis := by
  have hmem : axis ∈ p := hp.mem_iff.mpr (mem_range.mpr haxis)
  have hlt := idxOf_lt_length_of_mem hmem
  have hlen : p.length = r := by simpa using hp.length_eq
  refine ⟨by rwa [← hlen], ?_⟩
  rw [getD_eq_getElem _ _ hlt, getElem_idxOf hlt]

theorem idxOf_getD (hp : p.Perm (List.range r)) {i : ℕ} (hi : i < r) : p.idxOf (p.getD i 0) = i := by
  have hlen : p.length = r := by simpa using hp.length_eq
  have hnodup : p.Nodup := hp.nodup_iff.mpr nodup_range
  rw [getD_eq_getElem _ _ (by rwa [hlen])]
  exact hnodup.idxOf_getElem i (by rwa [hlen])

theorem idxOf_comp (hp : p.Perm (List.range r)) (hq : q.Perm (List.range r)) {axis : ℕ}
    (haxis : axis < r) : (q.map (p.getD · 0)).idxOf axis = q.idxOf (p.idxOf axis) := by
  obtain ⟨hlt, hget⟩ := getD_idxOf hp haxis
  obtain ⟨hlt', hget'⟩ := getD_idxOf hq hlt
  have hcomp : (q.map (p.getD · 0)).getD (q.idxOf (p.idxOf axis)) 0 = axis := by
    rw [getD_map_perm hq hlt', hget', hget]
  calc _ = (q.map (p.getD · 0)).idxOf ((q.map (p.getD · 0)).getD (q.idxOf (p.idxOf axis)) 0) := by
        rw [hcomp]
    _ = _ := idxOf_getD (perm_comp hp hq) hlt'

/-- The order that undoes another one. -/
def invPerm (p : List ℕ) : List ℕ := (List.range p.length).map p.idxOf

theorem perm_invPerm (hp : p.Perm (List.range r)) : (invPerm p).Perm (List.range r) := by
  have hlen : p.length = r := by simpa using hp.length_eq
  have hrange : p.map p.idxOf = List.range r := by
    refine ext_getElem (by simp [hlen]) fun i hi hi' => ?_
    have hget := idxOf_getD hp (by simpa using hi')
    rw [getD_eq_getElem _ _ (by simpa using hi)] at hget
    rw [getElem_map, getElem_range, hget]
  rw [invPerm, hlen]
  exact (hp.symm.map p.idxOf).trans (hrange ▸ List.Perm.refl _)

theorem comp_invPerm (hp : p.Perm (List.range r)) : (invPerm p).map (p.getD · 0) = List.range r := by
  have hlen : p.length = r := by simpa using hp.length_eq
  rw [invPerm, hlen, map_map]
  refine (map_congr_left fun axis haxis => ?_).trans (map_id _)
  exact (getD_idxOf hp (mem_range.mp haxis)).2

theorem getD_idxOf? (hp : p.Perm (List.range r)) (axis : ℕ) :
    (p.idxOf? axis).getD axis = if axis < r then p.idxOf axis else axis := by
  split
  · next h =>
    have hmem : axis ∈ p := hp.mem_iff.mpr (mem_range.mpr h)
    have hsome : p.idxOf? axis = some (p.idxOf axis) :=
      findIdx?_eq_some_of_exists ⟨axis, hmem, beq_self_eq_true axis⟩
    rw [hsome, Option.getD_some]
  · next h =>
    rw [idxOf?_eq_none_iff.mpr fun hmem => h (mem_range.mp (hp.mem_iff.mp hmem)),
      Option.getD_none]

theorem permute_comp (hp : p.Perm (List.range r)) (hq : q.Perm (List.range r)) (s : ShardLayout) :
    Graph.ShardLayout.permute q (Graph.ShardLayout.permute p s) =
      Graph.ShardLayout.permute (q.map (p.getD · 0)) s := by
  have haxis : ∀ axis, (q.idxOf? ((p.idxOf? axis).getD axis)).getD ((p.idxOf? axis).getD axis) =
      ((q.map (p.getD · 0)).idxOf? axis).getD axis := by
    intro axis
    rw [getD_idxOf? hp, getD_idxOf? hq, getD_idxOf? (perm_comp hp hq)]
    by_cases h : axis < r
    · rw [if_pos h, if_pos h, if_pos (getD_idxOf hp h).1, idxOf_comp hp hq h]
    · rw [if_neg h, if_neg h, if_neg h]
  cases s with
  | colShard axis => exact congrArg ShardLayout.colShard (haxis axis)
  | rowShard axis => exact congrArg ShardLayout.rowShard (haxis axis)
  | _ => rfl

end Axes

theorem Tensor.eq_of {t u : Tensor} (hshape : t.shape = u.shape) (hdtype : t.dtype = u.dtype)
    (hquant : t.quant = u.quant) (hlayout : t.layout = u.layout) (hplacement : t.placement = u.placement)
    (hsharding : t.sharding = u.sharding) (hcls : t.cls = u.cls) : t = u := by
  cases u
  subst hshape hdtype hquant hlayout hplacement hsharding hcls
  rfl

namespace IsTransposed

variable {p q : List ℕ} {old mid new new' : GraphEdge}

/-- **Transposing twice is transposing once** by one order after the other. -/
theorem comp (hp : IsTransposed p old mid) (hq : IsTransposed q mid new)
    (hpq : IsTransposed (q.map (p.getD · 0)) old new') :
    new.tensor = new'.tensor ∧ new.strides = new'.strides := by
  have hlen : mid.tensor.shape.length = old.tensor.shape.length := by
    rw [hp.shape_eq, length_map]
    simpa using hp.perm_range.length_eq
  have hperm := hq.perm_range
  rw [hlen] at hperm
  have hlt : ∀ axis ∈ q, axis < old.tensor.shape.length := fun axis haxis =>
    mem_range.mp (hperm.mem_iff.mp haxis)
  refine ⟨Tensor.eq_of ?_ ?_ ?_ ?_ ?_ ?_ ?_, ?_⟩
  · rw [hq.shape_eq, hpq.shape_eq, hp.shape_eq, map_map]
    exact map_congr_left fun axis haxis => getD_map_perm hp.perm_range (hlt axis haxis)
  · rw [hq.dtype_eq, hpq.dtype_eq, hp.dtype_eq]
  · rw [hq.quant_eq, hpq.quant_eq, hp.quant_eq]
  · rw [hq.layout_eq, hpq.layout_eq, hp.layout_eq]
  · rw [hq.placement_eq, hpq.placement_eq, hp.placement_eq]
  · rw [hq.sharding_eq, hpq.sharding_eq, hp.sharding_eq, permute_comp hp.perm_range hperm]
  · rw [hq.cls_eq, hpq.cls_eq, hp.cls_eq]
  · rw [hq.strides_eq, hpq.strides_eq, hp.strides_eq, map_map]
    exact map_congr_left fun axis haxis => getD_map_perm hp.perm_range (hlt axis haxis)

theorem id_of (hlen : old.strides.length = old.tensor.shape.length) :
    IsTransposed (List.range old.tensor.shape.length) old old where
  perm_range := List.Perm.refl _
  shape_eq := by
    refine ext_getElem (by simp) fun i hi hi' => ?_
    rw [getElem_map, getElem_range, getD_eq_getElem _ _ hi]
  strides_eq := by
    refine ext_getElem (by simp [hlen]) fun i hi hi' => ?_
    rw [getElem_map, getElem_range, getD_eq_getElem _ _ hi]
  sharding_eq := by
    have haxis : ∀ axis, ((List.range old.tensor.shape.length).idxOf? axis).getD axis = axis := by
      intro axis
      rw [getD_idxOf? (List.Perm.refl _)]
      split
      · next h =>
        have hget := idxOf_getD (List.Perm.refl (List.range old.tensor.shape.length)) h
        rwa [getD_eq_getElem _ _ (by simpa using h), getElem_range] at hget
      · rfl
    cases hs : old.tensor.sharding with
    | colShard axis => exact congrArg ShardLayout.colShard (haxis axis).symm
    | rowShard axis => exact congrArg ShardLayout.rowShard (haxis axis).symm
    | _ => rfl
  dtype_eq := rfl
  quant_eq := rfl
  layout_eq := rfl
  placement_eq := rfl
  cls_eq := rfl

/-- **Transposing back** restores the edge. -/
theorem inv (hlen : old.strides.length = old.tensor.shape.length) (hp : IsTransposed p old mid)
    (hq : IsTransposed (invPerm p) mid new) : new.tensor = old.tensor ∧ new.strides = old.strides := by
  refine hp.comp hq ?_
  rw [comp_invPerm hp.perm_range]
  exact id_of hlen

end IsTransposed

/-! ### Strides -/

/-- The stride that would come before those of some dimensions. -/
def strideBefore (dims : List Dim) : ℤ := (contiguousFrom dims).2

theorem strideBefore_cons (dim : Dim) (dims : List Dim) :
    strideBefore (dim :: dims) = saturatingMul (strideBefore dims) dim.extent := rfl

theorem getElem?_strides {shape : List Dim} {i : ℕ} (hi : i < shape.length) :
    (computeContiguousStrides shape)[i]? = some (strideBefore (shape.drop (i + 1))) := by
  induction shape generalizing i with
  | nil => simp at hi
  | cons dim dims ih =>
    cases i with
    | zero => rfl
    | succ i => exact ih (Nat.lt_of_succ_lt_succ hi)

theorem length_strides (shape : List Dim) : (computeContiguousStrides shape).length = shape.length := by
  induction shape with
  | nil => rfl
  | cons dim dims ih => exact congrArg (· + 1) ih

theorem Dim.one_le_extent (dim : Dim) : 1 ≤ dim.extent := by
  cases dim with
  | concrete c => exact le_max_right _ _
  | symbolic _ => exact one_le_two

theorem strideBefore_mem (dims : List Dim) : 1 ≤ strideBefore dims ∧ strideBefore dims ≤ 2 ^ 63 - 1 := by
  induction dims with
  | nil => decide
  | cons dim dims ih =>
    refine ⟨le_min ?_ (by norm_num), min_le_right _ _⟩
    exact one_le_mul_of_one_le_of_one_le ih.1 dim.one_le_extent

theorem strideBefore_le_cons (dim : Dim) (dims : List Dim) :
    strideBefore dims ≤ strideBefore (dim :: dims) := by
  have hdims := strideBefore_mem dims
  refine le_min ?_ hdims.2
  exact le_mul_of_one_le_right (by omega) dim.one_le_extent

theorem strideBefore_drop_le (shape : List Dim) {i j : ℕ} (hij : i ≤ j) :
    strideBefore (shape.drop j) ≤ strideBefore (shape.drop i) := by
  induction j, hij using Nat.le_induction with
  | base => exact le_rfl
  | succ j _ ih =>
    refine le_trans ?_ ih
    rcases Nat.lt_or_ge j shape.length with hj | hj
    · rw [drop_eq_getElem_cons hj]
      exact strideBefore_le_cons _ _
    · rw [drop_eq_nil_of_le hj, drop_eq_nil_of_le (by omega)]

/-- **Two axes have one stride** only when the inner one has one element or the stride is saturated. -/
theorem strideBefore_eq {shape : List Dim} {i j : ℕ} (hij : i < j) (hj : j < shape.length)
    (hdim : shape[j] ≠ .concrete 1) (hzero : shape[j] ≠ .concrete 0)
    (h : strideBefore (shape.drop (i + 1)) ≤ strideBefore (shape.drop (j + 1))) :
    strideBefore (shape.drop (j + 1)) = 2 ^ 63 - 1 := by
  have hmem := strideBefore_mem (shape.drop (j + 1))
  have hle := (strideBefore_drop_le shape (Nat.succ_le_of_lt hij)).trans h
  have htwo : 2 ≤ shape[j].extent := by
    cases hd : shape[j] with
    | concrete c =>
      have h0 : c ≠ 0 := fun h0 => hzero (by rw [hd, h0])
      have h1 : c ≠ 1 := fun h1 => hdim (by rw [hd, h1])
      refine le_max_of_le_left ?_
      omega
    | symbolic _ => exact le_rfl
  rw [drop_eq_getElem_cons hj, strideBefore_cons, saturatingMul] at hle
  rcases min_le_iff.mp hle with hmul | hmax
  · have hdouble : strideBefore (shape.drop (j + 1)) * 2 ≤
        strideBefore (shape.drop (j + 1)) * shape[j].extent :=
      mul_le_mul_of_nonneg_left htwo (by omega)
    omega
  · exact le_antisymm hmem.2 hmax

/-! ### What the strides say -/

section Extents

variable {a : ShapeSymbol → ℕ} {shape : List Dim}

theorem length_extents : (extents a shape).length = shape.length := length_map _

theorem getD_extents {i : ℕ} (hi : i < shape.length) :
    (extents a shape).getD i 1 = (shape.getD i (.concrete 0)).real a := by
  rw [getD_eq_getElem _ _ (by rwa [length_extents]), getD_eq_getElem _ _ hi]
  exact getElem_map _

theorem extents_pos (ha : ∀ symbol, 0 < a symbol) (h : ∀ dim ∈ shape, dim ≠ .concrete 0) :
    ∀ n ∈ extents a shape, 0 < n := by
  intro n hn
  obtain ⟨dim, hdim, rfl⟩ := mem_map.mp hn
  cases hd : dim with
  | concrete c =>
    refine Nat.pos_of_ne_zero fun h0 => h dim hdim ?_
    rw [hd]
    exact congrArg Dim.concrete h0
  | symbolic symbol => exact ha symbol

theorem Tensor.ne_zero (t : Tensor) : ∀ dim ∈ t.shape, dim ≠ .concrete 0 :=
  (Graph.tensorProblems_eq_nil.mp t.valid).1.2.2

end Extents

section Run

variable {ω : Type} {a : ShapeSymbol → ℕ} {v w : View ω} {base : List Dim} {axes perm : List ℕ}
  {edge : GraphEdge}

/-- A view has the axes of a contiguous tensor in some order, and the saturated ones are in their own. -/
structure ViewOf (a : ShapeSymbol → ℕ) (v : View ω) (edge : GraphEdge) (base : List Dim)
    (axes : List ℕ) : Prop where
  edge_eq : v.graph.edges[v.edge]? = some edge
  positive : ∀ dim ∈ base, dim ≠ .concrete 0
  axes_range : axes.Perm (List.range base.length)
  shape_eq : edge.tensor.shape = axes.map (base.getD · (.concrete 0))
  strides_eq : edge.strides = axes.map ((computeContiguousStrides base).getD · 0)
  memory_eq : ∀ idx, InBounds (extents a edge.tensor.shape) idx →
    v.memory idx = flat (extents a base) fun axis => idx (axes.idxOf axis)
  ordered : axes.Pairwise fun x y => SaturatedAxis base (computeContiguousStrides base) x →
    SaturatedAxis base (computeContiguousStrides base) y → x < y

theorem flat_congr {ext : List ℕ} {i j : ℕ → ℕ} (h : ∀ axis < ext.length, i axis = j axis) :
    flat ext i = flat ext j := by
  refine congrArg number (map_congr_left fun axis haxis => ?_)
  rw [h axis (mem_range.mp haxis)]

theorem ViewOf.contiguous (hedge : v.graph.edges[v.edge]? = some edge)
    (hstrides : edge.strides = computeContiguousStrides edge.tensor.shape)
    (hmemory : ∀ idx, InBounds (extents a edge.tensor.shape) idx →
      v.memory idx = flat (extents a edge.tensor.shape) idx) :
    ViewOf a v edge edge.tensor.shape (List.range edge.tensor.shape.length) where
  edge_eq := hedge
  positive := edge.tensor.ne_zero
  axes_range := List.Perm.refl _
  shape_eq := by
    refine ext_getElem (by simp) fun i hi hi' => ?_
    rw [getElem_map, getElem_range, getD_eq_getElem _ _ hi]
  strides_eq := by
    rw [hstrides]
    refine ext_getElem (by simp [length_strides]) fun i hi hi' => ?_
    rw [getElem_map, getElem_range, getD_eq_getElem _ _ hi]
  memory_eq idx hidx := by
    rw [hmemory idx hidx]
    refine flat_congr fun axis haxis => ?_
    rw [length_extents] at haxis
    have hget := idxOf_getD (List.Perm.refl (List.range edge.tensor.shape.length)) haxis
    rw [getD_eq_getElem _ _ (by simpa using haxis), getElem_range] at hget
    rw [hget]
  ordered := pairwise_lt_range.imp fun h _ _ => h

namespace ViewOf

theorem length_axes (h : ViewOf a v edge base axes) : axes.length = base.length := by
  simpa using h.axes_range.length_eq

theorem length_shape (h : ViewOf a v edge base axes) : edge.tensor.shape.length = base.length := by
  rw [h.shape_eq, length_map, h.length_axes]

theorem axis_lt (h : ViewOf a v edge base axes) {i : ℕ} (hi : i < axes.length) :
    axes[i] < base.length :=
  mem_range.mp (h.axes_range.mem_iff.mp (getElem_mem hi))

theorem dim_eq (h : ViewOf a v edge base axes) {i : ℕ} (hi : i < base.length) :
    edge.tensor.shape.getD i (.concrete 0) = base.getD (axes.getD i 0) (.concrete 0) := by
  rw [h.shape_eq]
  exact getD_map_perm h.axes_range hi

theorem stride_eq (h : ViewOf a v edge base axes) {i : ℕ} (hi : i < axes.length) :
    edge.strides[i]? = some (strideBefore (base.drop (axes[i] + 1))) := by
  have hstride := getElem?_strides (h.axis_lt hi)
  rw [h.strides_eq, getElem?_map, getElem?_eq_getElem hi, Option.map_some, List.getD,
    hstride, Option.getD_some]

/-- **A view that is called contiguous** keeps the order of the axes of several elements. -/
theorem keepsOrder (h : ViewOf a v edge base axes) (hcontiguous : edge.isContiguous = true) :
    axes.Pairwise fun x y => ((extents a base).getD x 1 ≠ 1) → ((extents a base).getD y 1 ≠ 1) →
      x < y := by
  have hown : ∀ i (hi : i < axes.length), strideBefore (base.drop (axes[i] + 1)) =
      strideBefore (edge.tensor.shape.drop (i + 1)) := by
    intro i hi
    have hstrides : edge.strides = computeContiguousStrides edge.tensor.shape := by
      simpa [GraphEdge.isContiguous] using hcontiguous
    have hstride := h.stride_eq hi
    rw [hstrides, getElem?_strides (by rwa [h.length_shape, ← h.length_axes])] at hstride
    exact (Option.some.inj hstride).symm
  have hdim : ∀ x < base.length, (extents a base).getD x 1 ≠ 1 → base[x]? ≠ some (.concrete 1) := by
    intro x hx hne hone
    refine hne ?_
    rw [getD_extents hx, List.getD, hone, Option.getD_some, Dim.real]
  rw [pairwise_iff_getElem]
  intro i j hi hj hij hx hy
  by_contra hle
  have hnodup : axes.Nodup := h.axes_range.nodup_iff.mpr nodup_range
  have hne : axes[j] ≠ axes[i] := fun heq => hij.ne' ((Nodup.getElem_inj_iff hnodup).mp heq)
  have hlt : axes[j] < axes[i] := lt_of_le_of_ne (not_lt.mp hle) hne
  have hxdim := hdim _ (h.axis_lt hi) hx
  have hydim := hdim _ (h.axis_lt hj) hy
  have hi' := h.axis_lt hi
  have hbase : base[axes[i]]? = some base[axes[i]] := getElem?_eq_getElem (h.axis_lt hi)
  -- the inner axis comes first in the view, so that its stride is not the smaller one
  have hstride : strideBefore (base.drop (axes[j] + 1)) ≤ strideBefore (base.drop (axes[i] + 1)) := by
    rw [hown i hi, hown j hj]
    exact strideBefore_drop_le _ (by omega)
  have hmax := strideBefore_eq hlt (h.axis_lt hi) (fun heq => hxdim (by rw [hbase, heq]))
    (h.positive _ (getElem_mem _)) hstride
  have hmax' : strideBefore (base.drop (axes[j] + 1)) = 2 ^ 63 - 1 := by
    refine le_antisymm (strideBefore_mem _).2 (hmax ▸ ?_)
    exact strideBefore_drop_le _ (by omega)
  have hordered := pairwise_iff_getElem.mp h.ordered i j hi hj hij
    ⟨hxdim, by rw [getElem?_strides (h.axis_lt hi), hmax]⟩
    ⟨hydim, by rw [getElem?_strides (h.axis_lt hj), hmax']⟩
  omega

/-- **The elements of a view that is called contiguous** lie in row-major order. -/
theorem memory_flat (h : ViewOf a v edge base axes) (hcontiguous : edge.isContiguous = true)
    {idx : ℕ → ℕ} (hidx : InBounds (extents a edge.tensor.shape) idx) :
    v.memory idx = flat (extents a edge.tensor.shape) idx := by
  have hext : ∀ i < base.length, (extents a edge.tensor.shape).getD i 1 =
      (extents a base).getD (axes.getD i 0) 1 := by
    intro i hi
    have hlt : axes.getD i 0 < base.length := by
      rw [getD_eq_getElem _ _ (by rwa [h.length_axes])]
      exact h.axis_lt _
    rw [getD_extents (by rwa [h.length_shape]), getD_extents hlt, h.dim_eq hi]
  have hown : flat (extents a edge.tensor.shape) idx =
      number (axes.map fun axis => ((extents a base).getD axis 1, idx (axes.idxOf axis))) := by
    rw [flat, length_extents, h.length_shape]
    refine congrArg number (ext_getElem (by simp [h.length_axes]) fun i hi hi' => ?_)
    have hlt : i < base.length := by simpa using hi
    have hi'' : i < axes.length := by rwa [h.length_axes]
    have haxis : axes.getD i 0 = axes[i] := getD_eq_getElem _ _ _
    rw [getElem_map, getElem_map, getElem_range, hext i hlt, ← haxis,
      idxOf_getD h.axes_range hlt]
  rw [h.memory_eq idx hidx, hown, flat, length_extents]
  refine (number_map_of_keepsOrder h.axes_range ?_ (h.keepsOrder hcontiguous)).symm
  intro axis haxis hone
  obtain ⟨hlt, hget⟩ := getD_idxOf h.axes_range haxis
  have hbound := hidx (axes.idxOf axis) (by rwa [length_extents, h.length_shape])
  rw [hext _ hlt, hget] at hbound
  exact Nat.lt_one_iff.mp (hbound.trans_eq hone)

/-- Transposing a view moves its axes, and keeps the order of the saturated ones. -/
theorem transposed (h : ViewOf a v edge base axes) {new : GraphEdge} (hperm : IsTransposed perm edge new)
    (hkeeps : perm.Pairwise fun x y => SaturatedAxis edge.tensor.shape edge.strides x →
      SaturatedAxis edge.tensor.shape edge.strides y → x < y)
    (hnew : w.graph.edges[w.edge]? = some new) (hmemory : w.memory = View.transposed perm v.memory) :
    ViewOf a w new base (perm.map (axes.getD · 0)) where
  edge_eq := hnew
  positive := h.positive
  axes_range := perm_comp h.axes_range (by simpa only [h.length_shape] using hperm.perm_range)
  shape_eq := by
    rw [hperm.shape_eq, map_map]
    refine map_congr_left fun axis haxis => h.dim_eq ?_
    rw [← h.length_shape]
    exact mem_range.mp (hperm.perm_range.mem_iff.mp haxis)
  strides_eq := by
    rw [hperm.strides_eq, map_map, h.strides_eq]
    refine map_congr_left fun axis haxis => getD_map_perm h.axes_range ?_
    rw [← h.length_shape]
    exact mem_range.mp (hperm.perm_range.mem_iff.mp haxis)
  memory_eq idx hidx := by
    have hrange : perm.Perm (List.range base.length) := by
      simpa only [h.length_shape] using hperm.perm_range
    have hbounds : InBounds (extents a edge.tensor.shape) fun axis => idx (perm.idxOf axis) := by
      intro axis haxis
      rw [length_extents, h.length_shape] at haxis
      obtain ⟨hlt, hget⟩ := getD_idxOf hrange haxis
      have hlen : new.tensor.shape.length = base.length := by
        rw [hperm.shape_eq, length_map]
        simpa using hrange.length_eq
      have hbound := hidx (perm.idxOf axis) (by rwa [length_extents, hlen])
      rw [getD_extents (by rwa [hlen]), hperm.shape_eq, getD_map_perm hrange hlt, hget] at hbound
      rwa [getD_extents (by rwa [h.length_shape])]
    rw [hmemory, View.transposed, h.memory_eq _ hbounds]
    refine flat_congr fun axis haxis => ?_
    rw [length_extents] at haxis
    rw [idxOf_comp h.axes_range hrange haxis]
  ordered := by
    have hsaturated : ∀ x < base.length,
        SaturatedAxis base (computeContiguousStrides base) (axes.getD x 0) →
          SaturatedAxis edge.tensor.shape edge.strides x := by
      rintro x hx ⟨hdim, hstride⟩
      have hx' : x < axes.length := by rwa [h.length_axes]
      have haxis : axes.getD x 0 = axes[x] := getD_eq_getElem _ _ _
      have hlt := h.axis_lt hx'
      rw [haxis] at hdim hstride
      refine ⟨fun hone => hdim ?_, ?_⟩
      · have hd := h.dim_eq hx
        rw [List.getD, hone, Option.getD_some, haxis, getD_eq_getElem _ _ hlt] at hd
        rw [getElem?_eq_getElem hlt, hd]
      · rwa [h.stride_eq hx', ← getElem?_strides hlt]
    have hordered := pairwise_iff_getElem.mp h.ordered
    rw [pairwise_map]
    refine hkeeps.imp_of_mem fun {x y} hx hy hxy hsx hsy => ?_
    have hlt : ∀ z ∈ perm, z < base.length := fun z hz => by
      rw [← h.length_shape]
      exact mem_range.mp (hperm.perm_range.mem_iff.mp hz)
    have hx' : x < axes.length := h.length_axes ▸ hlt x hx
    have hy' : y < axes.length := h.length_axes ▸ hlt y hy
    have hltxy := hxy (hsaturated x (hlt x hx) hsx) (hsaturated y (hlt y hy) hsy)
    rw [getD_eq_getElem _ _ hx'] at hsx ⊢
    rw [getD_eq_getElem _ _ hy'] at hsy ⊢
    exact hordered x y hx' hy' hltxy hsx hsy

/-- Reshaping a view that is called contiguous leaves its elements where they are. -/
theorem reshaped (ha : ∀ symbol, 0 < a symbol) (h : ViewOf a v edge base axes)
    (hcontiguous : edge.isContiguous = true) {new : GraphEdge}
    (hstrides : new.strides = computeContiguousStrides new.tensor.shape)
    (hnew : w.graph.edges[w.edge]? = some new)
    (hmemory : w.memory =
      View.reshaped (extents a edge.tensor.shape) (extents a new.tensor.shape) v.memory) :
    ViewOf a w new new.tensor.shape (List.range new.tensor.shape.length) := by
  refine ViewOf.contiguous hnew hstrides fun idx hidx => ?_
  rw [hmemory, View.reshaped]
  split
  · next hprod =>
    have hlt : flat (extents a new.tensor.shape) idx < (extents a edge.tensor.shape).prod :=
      hprod ▸ flat_lt hidx
    have hbounds : InBounds (extents a edge.tensor.shape)
        (unflat (extents a edge.tensor.shape) (flat (extents a new.tensor.shape) idx)) :=
      inBounds_unflat (extents_pos ha edge.tensor.ne_zero)
    exact (h.memory_flat hcontiguous hbounds).trans (flat_unflat hlt)
  · rfl

end ViewOf

/-! ### Runs -/

theorem View.shape_eq (hedge : v.graph.edges[v.edge]? = some edge) : v.shape = edge.tensor.shape := by
  rw [View.shape, hedge, Option.map_some, Option.getD_some]

theorem viewOf_source {g : Graph ω} {e : ℕ} (hedge : g.edges[e]? = some edge)
    (hcontiguous : edge.isContiguous = true) :
    ViewOf a (View.source a g e) edge edge.tensor.shape (List.range edge.tensor.shape.length) := by
  refine ViewOf.contiguous hedge (by simpa [GraphEdge.isContiguous] using hcontiguous) fun idx _ => ?_
  have hshape : (⟨g, e, fun _ => 0⟩ : View ω).shape = edge.tensor.shape := View.shape_eq hedge
  rw [← hshape]
  rfl

/-- **One call** makes a view of the view. -/
theorem ViewOf.call (ha : ∀ symbol, 0 < a symbol) (h : ViewOf a v edge base axes) {c : ViewCall}
    (hkeeps : c.KeepsSaturated v) (hc : v.call a c = .ok w) :
    ∃ new base axes, ViewOf a w new base axes := by
  cases c with
  | transpose perm =>
    simp only [View.call, bind_eq_ok, pure_eq_ok] at hc
    obtain ⟨y, hy, rfl⟩ := hc
    obtain ⟨new, hnew, hperm⟩ := Graph.isTransposed_of_transposeEdge h.edge_eq hy
    exact ⟨new, base, _, h.transposed hperm (hkeeps edge h.edge_eq) hnew rfl⟩
  | reshape shape =>
    simp only [View.call, bind_eq_ok, pure_eq_ok] at hc
    obtain ⟨y, hy, rfl⟩ := hc
    obtain ⟨hcontiguous, new, hnew, rfl, hstrides⟩ := Graph.of_reshapeEdge h.edge_eq hy
    exact ⟨new, _, _, h.reshaped ha hcontiguous hstrides hnew (by rw [View.shape_eq h.edge_eq])⟩

/-- **A run of calls** makes a view of the edge it starts from. -/
theorem ViewOf.calls (ha : ∀ symbol, 0 < a symbol) {cs : List ViewCall}
    (h : ViewOf a v edge base axes) (hkeeps : v.RunKeepsSaturated a cs) (hcs : v.calls a cs = .ok w) :
    ∃ new base axes, ViewOf a w new base axes := by
  induction cs generalizing v edge base axes with
  | nil =>
    obtain rfl := pure_eq_ok.mp hcs
    exact ⟨edge, base, axes, h⟩
  | cons c cs ih =>
    rw [View.calls, foldlM_cons, bind_eq_ok] at hcs
    obtain ⟨v', hc, hcs⟩ := hcs
    obtain ⟨new, base', axes', h'⟩ := h.call ha hkeeps.1 hc
    exact ih h' (hkeeps.2 v' hc) hcs

theorem inRowMajorOrder_of_flat (hedge : v.graph.edges[v.edge]? = some edge)
    (h : ∀ idx, InBounds (extents a edge.tensor.shape) idx →
      v.memory idx = flat (extents a edge.tensor.shape) idx) : v.InRowMajorOrder a := by
  intro i j hi hj
  rw [View.shape_eq hedge] at hi hj ⊢
  rw [h i hi, h j hj]

/-- The element at one on an axis and at zero on the others. -/
def unitIndex (i : ℕ) : ℕ → ℕ := fun k => if k = i then 1 else 0

theorem flat_unitIndex_lt {ext : List ℕ} {i j : ℕ} (hij : i < j) (hi : i < ext.length)
    (hj : InBounds ext (unitIndex j)) : flat ext (unitIndex j) < flat ext (unitIndex i) := by
  refine flat_lt_flat hi hj (fun k hk => ?_) ?_
  · rw [unitIndex, unitIndex, if_neg (by omega), if_neg (by omega)]
  · rw [unitIndex, unitIndex, if_neg (by omega), if_pos rfl]
    exact one_pos

theorem inBounds_unitIndex {shape : List Dim} (hzero : ∀ dim ∈ shape, dim ≠ .concrete 0) {i : ℕ}
    (hi : shape[i]? ≠ some (.concrete 1)) :
    InBounds (extents (fun _ => 2) shape) (unitIndex i) := by
  intro k hk
  rw [length_extents] at hk
  rw [getD_extents hk, getD_eq_getElem _ _ hk, unitIndex]
  have hk0 := hzero _ (getElem_mem hk)
  split
  · next hki =>
    subst hki
    rw [getElem?_eq_getElem hk] at hi
    cases hd : shape[k] with
    | concrete c =>
      have h0 : c ≠ 0 := fun h0 => hk0 (by rw [hd, h0])
      have h1 : c ≠ 1 := fun h1 => hi (by rw [hd, h1])
      change 1 < c
      omega
    | symbolic _ => exact one_lt_two
  · cases hd : shape[k] with
    | concrete c => exact Nat.pos_of_ne_zero fun h0 => hk0 (hd.trans (congrArg Dim.concrete h0))
    | symbolic _ => exact two_pos

/-- **A transposition that leaves the elements in row-major order** has kept the order of the axes of
several elements. -/
theorem lt_of_inRowMajorOrder {new : GraphEdge} (hperm : IsTransposed perm edge new)
    (hnew : w.graph.edges[w.edge]? = some new)
    (hmemory : w.memory = View.transposed perm (flat (extents (fun _ => 2) edge.tensor.shape)))
    (h : w.InRowMajorOrder fun _ => 2) :
    perm.Pairwise fun x y => edge.tensor.shape[x]? ≠ some (.concrete 1) →
      edge.tensor.shape[y]? ≠ some (.concrete 1) → x < y := by
  have hrange := hperm.perm_range
  have hlen : perm.length = edge.tensor.shape.length := by simpa using hrange.length_eq
  have hnewlen : new.tensor.shape.length = edge.tensor.shape.length := by
    rw [hperm.shape_eq, length_map, hlen]
  rw [pairwise_iff_getElem]
  intro i j hi hj hij hx hy
  by_contra hle
  have hnodup : perm.Nodup := hrange.nodup_iff.mpr nodup_range
  have hne : perm[j] ≠ perm[i] := fun heq => hij.ne' ((Nodup.getElem_inj_iff hnodup).mp heq)
  have hlt : perm[j] < perm[i] := lt_of_le_of_ne (not_lt.mp hle) hne
  have haxis : ∀ k (hk : k < perm.length), perm[k] < edge.tensor.shape.length := fun k hk =>
    mem_range.mp (hrange.mem_iff.mp (getElem_mem hk))
  have hdim : ∀ k (hk : k < perm.length), edge.tensor.shape[perm[k]]? ≠ some (.concrete 1) →
      new.tensor.shape[k]? ≠ some (.concrete 1) := by
    intro k hk hd hone
    have hlt := haxis k hk
    rw [hperm.shape_eq, getElem?_map, getElem?_eq_getElem hk, Option.map_some,
      getD_eq_getElem _ _ hlt] at hone
    exact hd ((getElem?_eq_getElem hlt).trans hone)
  have hunit : ∀ k (hk : k < perm.length), ∀ axis < edge.tensor.shape.length,
      unitIndex k (perm.idxOf axis) = unitIndex perm[k] axis := by
    intro k hk axis hlt
    obtain ⟨_, hget⟩ := getD_idxOf hrange hlt
    have hidx : perm.idxOf axis = k ↔ axis = perm[k] := by
      constructor
      · rintro rfl
        rw [getD_eq_getElem _ _ hk] at hget
        exact hget.symm
      · rintro rfl
        exact hnodup.idxOf_getElem k hk
    rw [unitIndex, unitIndex]
    simp only [hidx]
  have hmem : ∀ k (hk : k < perm.length), w.memory (unitIndex k) =
      flat (extents (fun _ => 2) edge.tensor.shape) (unitIndex perm[k]) := by
    intro k hk
    rw [hmemory, View.transposed]
    exact flat_congr fun axis hlt => hunit k hk axis (by rwa [length_extents] at hlt)
  have hbound : ∀ k (hk : k < perm.length), edge.tensor.shape[perm[k]]? ≠ some (.concrete 1) →
      InBounds (extents (fun _ => 2) w.shape) (unitIndex k) := by
    intro k hk hd
    rw [View.shape_eq hnew]
    exact inBounds_unitIndex new.tensor.ne_zero (hdim k hk hd)
  have hview : flat (extents (fun _ => 2) w.shape) (unitIndex j) <
      flat (extents (fun _ => 2) w.shape) (unitIndex i) := by
    refine flat_unitIndex_lt hij ?_ (hbound j hj hy)
    rw [length_extents, View.shape_eq hnew, hnewlen, ← hlen]
    exact hi
  have hbase : flat (extents (fun _ => 2) edge.tensor.shape) (unitIndex perm[i]) <
      flat (extents (fun _ => 2) edge.tensor.shape) (unitIndex perm[j]) := by
    refine flat_unitIndex_lt hlt ?_ (inBounds_unitIndex edge.tensor.ne_zero hx)
    rw [length_extents]
    exact haxis j hj
  have hback := (h _ _ (hbound j hj hy) (hbound i hi hx)).mpr hview
  rw [hmem i hi, hmem j hj] at hback
  exact absurd hback hbase.asymm

/-- An edge has a stride for each axis. -/
def View.Shaped (v : View ω) : Prop :=
  ∃ edge, v.graph.edges[v.edge]? = some edge ∧ edge.strides.length = edge.tensor.shape.length

theorem View.Shaped.calls {cs : List ViewCall} (h : v.Shaped) (hcs : v.calls a cs = .ok w) :
    w.Shaped := by
  induction cs generalizing v with
  | nil =>
    obtain rfl := pure_eq_ok.mp hcs
    exact h
  | cons c cs ih =>
    rw [View.calls, foldlM_cons, bind_eq_ok] at hcs
    obtain ⟨v', hc, hcs⟩ := hcs
    obtain ⟨edge, hedge, hlen⟩ := h
    refine ih ?_ hcs
    cases c with
    | transpose perm =>
      simp only [View.call, bind_eq_ok, pure_eq_ok] at hc
      obtain ⟨y, hy, rfl⟩ := hc
      obtain ⟨new, hnew, hperm⟩ := Graph.isTransposed_of_transposeEdge hedge hy
      refine ⟨new, hnew, ?_⟩
      rw [hperm.strides_eq, hperm.shape_eq, length_map, length_map]
    | reshape shape =>
      simp only [View.call, bind_eq_ok, pure_eq_ok] at hc
      obtain ⟨y, hy, rfl⟩ := hc
      obtain ⟨-, new, hnew, rfl, hstrides⟩ := Graph.of_reshapeEdge hedge hy
      exact ⟨new, hnew, by rw [hstrides, length_strides]⟩

/-- Two edges have one tensor and one list of strides. -/
def SameView (y z : ℕ × Graph ω) : Prop :=
  ∃ e e', y.2.edges[y.1]? = some e ∧ z.2.edges[z.1]? = some e' ∧ e.tensor = e'.tensor ∧
    e.strides = e'.strides

theorem transposeEdge_comp {g : Graph ω} {e : ℕ} {y z : ℕ × Graph ω} {p q : List ℕ}
    (hp : g.transposeEdge e p = .ok y) (hq : y.2.transposeEdge y.1 q = .ok z)
    (hedge : g.edges[e]? = some edge) :
    ∃ z', g.transposeEdge e (q.map (p.getD · 0)) = .ok z' ∧ SameView z z' := by
  obtain ⟨mid, hmid, hp⟩ := Graph.isTransposed_of_transposeEdge hedge hp
  obtain ⟨new, hnew, hq⟩ := Graph.isTransposed_of_transposeEdge hmid hq
  have hlen : mid.tensor.shape.length = edge.tensor.shape.length := by
    rw [hp.shape_eq, length_map]
    simpa using hp.perm_range.length_eq
  have hperm := perm_comp hp.perm_range (hlen ▸ hq.perm_range)
  obtain ⟨z', hz'⟩ := Graph.exists_transposeEdge hedge hperm
  obtain ⟨new', hnew', hpq⟩ := Graph.isTransposed_of_transposeEdge hedge hz'
  exact ⟨z', hz', new, new', hnew, hnew', hp.comp hq hpq⟩

theorem transposeEdge_inv {g : Graph ω} {e : ℕ} {y : ℕ × Graph ω} {p : List ℕ}
    (hp : g.transposeEdge e p = .ok y) (hedge : g.edges[e]? = some edge)
    (hlen : edge.strides.length = edge.tensor.shape.length) :
    ∃ z, y.2.transposeEdge y.1 (invPerm p) = .ok z ∧ SameView z (e, g) := by
  obtain ⟨mid, hmid, hp⟩ := Graph.isTransposed_of_transposeEdge hedge hp
  have hmidlen : mid.tensor.shape.length = edge.tensor.shape.length := by
    rw [hp.shape_eq, length_map]
    simpa using hp.perm_range.length_eq
  have hinv : (invPerm p).Perm (List.range mid.tensor.shape.length) := hmidlen ▸ perm_invPerm hp.perm_range
  obtain ⟨z, hz⟩ := Graph.exists_transposeEdge hmid hinv
  obtain ⟨new, hnew, hq⟩ := Graph.isTransposed_of_transposeEdge hmid hz
  exact ⟨z, hz, new, edge, hnew, hedge, hp.inv hlen hq⟩

/-- **Views of a contiguous edge**: as long as no transposition has exchanged two axes with a saturated
stride, a view that is called contiguous has its elements in row-major order, whatever the extents are;
a single transposition that is called contiguous has them in that order only then. One transposition after
another is one by the composed order, and the inverse order restores the edge. -/
theorem views_inRowMajorOrder {g : Graph ω} {e : ℕ} (hedge : g.edges[e]? = some edge)
    (hcontiguous : edge.isContiguous = true) (ha : ∀ symbol, 0 < a symbol) (cs : List ViewCall)
    (hcs : (View.source a g e).calls a cs = .ok w) :
    ((View.source a g e).RunKeepsSaturated a cs → w.isContiguous = true → w.InRowMajorOrder a) ∧
    (∀ perm, cs = [.transpose perm] → w.isContiguous = true →
      (∀ b, (∀ symbol, 0 < b symbol) → ∀ u, (View.source b g e).calls b cs = .ok u →
        u.InRowMajorOrder b) → (View.source a g e).RunKeepsSaturated a cs) ∧
    (∀ p q y z, w.graph.transposeEdge w.edge p = .ok y → y.2.transposeEdge y.1 q = .ok z →
      ∃ z', w.graph.transposeEdge w.edge (q.map (p.getD · 0)) = .ok z' ∧ SameView z z') ∧
    ∀ p y, w.graph.transposeEdge w.edge p = .ok y →
      ∃ z, y.2.transposeEdge y.1 (invPerm p) = .ok z ∧ SameView z (w.edge, w.graph) := by
  have hsource : (View.source a g e).Shaped := by
    refine ⟨edge, hedge, ?_⟩
    have hstrides : edge.strides = computeContiguousStrides edge.tensor.shape := by
      simpa [GraphEdge.isContiguous] using hcontiguous
    rw [hstrides, length_strides]
  obtain ⟨last, hlast, hlen⟩ := hsource.calls hcs
  refine ⟨fun hkeeps hw => ?_, ?_, fun p q y z hp hq => transposeEdge_comp hp hq hlast,
    fun p y hp => transposeEdge_inv hp hlast hlen⟩
  · obtain ⟨new, base, axes, h⟩ := (viewOf_source hedge hcontiguous).calls ha hkeeps hcs
    refine inRowMajorOrder_of_flat h.edge_eq fun idx hidx => h.memory_flat ?_ hidx
    rw [View.isContiguous, h.edge_eq] at hw
    exact hw
  · rintro perm rfl - horder
    refine ⟨fun edge' hedge' => ?_, fun _ _ => trivial⟩
    obtain rfl : edge' = edge := Option.some.inj (hedge'.symm.trans hedge)
    rw [View.calls, foldlM_cons, bind_eq_ok] at hcs
    obtain ⟨u, hu, -⟩ := hcs
    simp only [View.call, bind_eq_ok, pure_eq_ok] at hu
    obtain ⟨y, hy, -⟩ := hu
    obtain ⟨new, hnew, hperm⟩ := Graph.isTransposed_of_transposeEdge hedge hy
    let two : View ω := ⟨y.2, y.1, View.transposed perm (View.source (fun _ => 2) g e).memory⟩
    have htwo : (View.source (fun _ => 2) g e).calls (fun _ => 2) [.transpose perm] = .ok two := by
      have hy' : (View.source (fun _ => 2) g e).graph.transposeEdge (View.source (fun _ => 2) g e).edge
          perm = .ok y := hy
      simp only [View.calls, foldlM_cons, foldlM_nil, View.call, hy', ok_bind]
      rfl
    have hsame : (View.source (fun _ => 2) g e).memory = flat (extents (fun _ => 2) edge'.tensor.shape) := by
      have hshape : (⟨g, e, fun _ => 0⟩ : View ω).shape = edge'.tensor.shape := View.shape_eq hedge
      rw [← hshape]
      rfl
    have hkeeps := lt_of_inRowMajorOrder (w := two) hperm hnew (congrArg (View.transposed perm) hsame)
      (horder (fun _ => 2) (fun _ => two_pos) two htwo)
    exact hkeeps.imp fun h hx hy => h hx.1 hy.1

end Run

section Example

theorem matrix_valid : tensorProblems [.symbolic .t, .concrete 3] .f32 .none .contiguous (.device 0)
    .weight = [] := by decide

theorem wide_valid : tensorProblems [.concrete 2, .concrete 2, .concrete (2 ^ 32 - 1),
    .concrete (2 ^ 32 - 1)] .i8 .none .contiguous (.device 0) .weight = [] := by decide

def matrix : Tensor :=
  ⟨[.symbolic .t, .concrete 3], .f32, .none, .contiguous, .device 0, .replicated, .weight, matrix_valid⟩

/-- A tensor with more elements than a stride can count. -/
def wide : Tensor :=
  ⟨[.concrete 2, .concrete 2, .concrete (2 ^ 32 - 1), .concrete (2 ^ 32 - 1)], .i8, .none, .contiguous,
    .device 0, .replicated, .weight, wide_valid⟩

def graphOf (t : Tensor) : Graph Unit := ((Graph.new 0).pushTensorEdge t).2

theorem edges_graphOf (t : Tensor) :
    (graphOf t).edges[0]? = some ⟨t, computeContiguousStrides t.shape, none⟩ := rfl

theorem isContiguous_graphOf (t : Tensor) :
    (⟨t, computeContiguousStrides t.shape, none⟩ : GraphEdge).isContiguous = true := by
  simp [GraphEdge.isContiguous]

theorem matrix_inRowMajorOrder : ∃ w : View Unit,
    (View.source (fun _ => 5) (graphOf matrix) 0).calls (fun _ => 5)
      [.transpose [1, 0], .transpose [1, 0], .reshape [.concrete 3, .symbolic .t]] = .ok w ∧
    w.isContiguous = true ∧ w.InRowMajorOrder fun _ => 5 := by
  refine ⟨_, rfl, rfl, (views_inRowMajorOrder (edges_graphOf matrix) (isContiguous_graphOf matrix)
    (fun _ => by decide) [.transpose [1, 0], .transpose [1, 0], .reshape [.concrete 3, .symbolic .t]]
    rfl).1 ?_ rfl⟩
  have hnone : ∀ x, ¬SaturatedAxis [.symbolic .t, .concrete 3] [3, 1] x := by
    rintro (_ | _ | x) ⟨_, h⟩ <;> simp at h
  have hnone' : ∀ x, ¬SaturatedAxis [.concrete 3, .symbolic .t] [1, 3] x := by
    rintro (_ | _ | x) ⟨_, h⟩ <;> simp at h
  refine ⟨fun edge hedge => ?_, fun v hv => ⟨fun edge hedge => ?_, fun _ _ => ⟨trivial, fun _ _ => trivial⟩⟩⟩
  · obtain rfl := Option.some.inj hedge
    exact pairwise_of_forall fun x y hx => absurd hx (hnone x)
  · obtain rfl := Except.ok.inj hv
    obtain rfl := Option.some.inj hedge
    exact pairwise_of_forall fun x y hx => absurd hx (hnone' x)

/-- Two saturated axes change places, and their strides say nothing of it. -/
theorem wide_scrambled : ∃ (edge : GraphEdge) (w : View Unit), (graphOf wide).edges[0]? = some edge ∧
    edge.isContiguous = true ∧
    (View.source (fun _ => 1) (graphOf wide) 0).calls (fun _ => 1) [.transpose [1, 0, 2, 3]] = .ok w ∧
    w.isContiguous = true ∧ ¬w.InRowMajorOrder fun _ => 1 := by
  refine ⟨_, _, edges_graphOf wide, isContiguous_graphOf wide, rfl, rfl, fun h => ?_⟩
  have hbounds : ∀ i < 2, ∀ k < 4, unitIndex i k < [2, 2, 2 ^ 32 - 1, 2 ^ 32 - 1].getD k 1 := by decide
  have hiff := h (unitIndex 1) (unitIndex 0) (hbounds 1 (by decide)) (hbounds 0 (by decide))
  revert hiff
  decide

end Example

end R9v

import R9v.Ir.Error
import Mathlib.Data.List.Count

/-!
# Batch metadata and tree masks

The metadata of one step (`BatchMeta`), its checked builder, and the tree of draft
tokens that a step may verify (`TreeMask`), from `r9v-ir/src/batch.rs`. The
builder and the constructor of a tree collect everything that is wrong and report
it together, so that each is a list of problems: a tree is valid when
`treeProblems` finds none, and a `TreeMask` carries the proof of it.
-/

namespace R9v

open Checked List

/-! ### Trees -/

/-- A 64-bit count, read as a signed 32-bit word. -/
def asI32 (n : ℕ) : ℤ := Int.bmod n (2 ^ 32)

/-- A tree that is not empty needs columns, and its mask has one row per token. -/
def pushTreeShapeProblems (t tMax ancestorsLen : ℕ) : List IrError :=
  (if 0 < t ∧ tMax = 0 then [.zeroTreeMax t] else []) ++
    match mul 64 t tMax with
    | some expected =>
      if ancestorsLen ≠ expected then [.ancestorLength t tMax expected ancestorsLen] else []
    | none => [.ancestorShapeOverflow t tMax]

/-- Every parent is a root mark or another token. -/
def pushTreeParentProblems (parents : List ℤ) : List IrError :=
  let t := parents.length
  parents.zipIdx.flatMap fun (parent, token) =>
    if parent < -1 ∨ asI32 t ≤ parent then [.badParent token parent t]
    else if parent = asI32 token then [.selfParent token]
    else []

/-- Where a walk along the parents stands: the marks of the tokens (0 for one not
seen, 1 for one of this walk, 2 for one that is done), and the tokens of the walk. -/
structure Walk where
  state : List ℕ
  path : List ℕ
  deriving DecidableEq

/-- The walk from `token` up to a root, a token that is done, or a token of the
walk itself, which is reported. It gives up when the fuel is gone. -/
def Walk.climb (parents : List ℤ) : ℕ → Walk → ℕ → Option (Walk × List IrError)
  | 0, _, _ => none
  | fuel + 1, w, token =>
    match w.state.getD token 0 with
    | 2 => some (w, [])
    | 1 =>
      let first := (w.path.findIdx? (· == token % 2 ^ 32)).getD 0
      let cycleToken := (w.path.drop first).min?.getD (token % 2 ^ 32)
      some (w, [.treeCycle cycleToken])
    | _ =>
      let w : Walk := ⟨w.state.set token 1, w.path ++ [token % 2 ^ 32]⟩
      let parent := parents.getD token (-1)
      if parent < 0 ∨ parents.length ≤ parent.toNat ∨ parent.toNat = token then some (w, [])
      else climb parents fuel w parent.toNat

/-- Everything on the path of a walk is done. -/
def Walk.close (w : Walk) : List ℕ := w.path.foldl (fun state token => state.set token 2) w.state

/-- The walks from each token that is not done. -/
def checkTreeCycles (parents : List ℤ) : List ℕ → List ℕ → Option (List IrError)
  | [], _ => some []
  | start :: starts, state =>
    if state.getD start 0 = 2 then checkTreeCycles parents starts state
    else do
      let (w, problems) ← Walk.climb parents (parents.length + 1) ⟨state, []⟩ start
      let rest ← checkTreeCycles parents starts w.close
      pure (problems ++ rest)

/-- Everything that is wrong with a tree. The search for cycles always ends
(`checkTreeCycles_isSome`). -/
def treeProblems (parents : List ℤ) (tMax ancestorsLen : ℕ) : List IrError :=
  pushTreeShapeProblems parents.length tMax ancestorsLen ++ pushTreeParentProblems parents ++
    (checkTreeCycles parents (List.range parents.length) (parents.map fun _ => 0)).getD []

/-- A tree of draft tokens, with nothing wrong with it. -/
structure TreeMask where
  parents : List ℤ
  tMax : ℕ
  ancestors : List Bool
  valid : treeProblems parents tMax ancestors.length = []

/-- Builds a tree mask. -/
def TreeMask.new (parents : List ℤ) (tMax : ℕ) (ancestors : List Bool) : Except IrError TreeMask :=
  match h : treeProblems parents tMax ancestors.length with
  | [] => .ok ⟨parents, tMax, ancestors, h⟩
  | [e] => .error e
  | problems => .error (.multiple problems)

/-- The same checks on borrowed slices, with the length of the caller's marks and the
room for the caller's path. -/
def validateTreeSlices (parents : List ℤ) (tMax ancestorsLen cycleState cyclePath : ℕ) :
    Except IrError Unit := do
  ensure (parents.length ≤ cycleState) (.treeCycleStateTooSmall parents.length cycleState)
  ensure (parents.length ≤ cyclePath) (.treeCyclePathTooSmall parents.length cyclePath)
  IrError.fromProblems (treeProblems parents tMax ancestorsLen)

section Walk

variable {parents : List ℤ} {fuel : ℕ} {w : Walk} {token : ℕ}

theorem count_set_lt {l : List ℕ} {i : ℕ} (hi : i < l.length) (h : l.getD i 0 = 0) :
    (l.set i 1).count 0 < l.count 0 := by
  have hget : l[i] = 0 := by simpa [getD_eq_getElem?_getD, hi] using h
  rw [count_set hi]
  simp [hget]
  exact mem_of_getElem hget

/-- **The walk does not run out of fuel** when there is more of it than tokens that
are not seen. -/
theorem Walk.climb_isSome (hlen : w.state.length = parents.length) (htoken : token < parents.length)
    (hmark : ∀ x ∈ w.state, x ≤ 2) (hfuel : w.state.count 0 < fuel) :
    ∃ w' problems, Walk.climb parents fuel w token = some (w', problems) ∧
      w'.state.length = parents.length ∧ ∀ x ∈ w'.state, x ≤ 2 := by
  induction fuel generalizing w token with
  | zero => omega
  | succ fuel ih =>
    have hlt : token < w.state.length := hlen ▸ htoken
    have hmem : w.state.getD token 0 ∈ w.state := by
      rw [getD_eq_getElem?_getD, getElem?_eq_getElem hlt]
      exact getElem_mem hlt
    unfold Walk.climb
    split
    · exact ⟨w, _, rfl, hlen, hmark⟩
    · exact ⟨w, _, rfl, hlen, hmark⟩
    · rename_i hne₂ hne₁
      have hzero : w.state.getD token 0 = 0 := by
        have h₁ : w.state.getD token 0 ≠ 1 := hne₁
        have h₂ : w.state.getD token 0 ≠ 2 := hne₂
        have := hmark _ hmem
        omega
      have hmark' : ∀ x ∈ w.state.set token 1, x ≤ 2 := fun x hx => by
        rcases mem_or_eq_of_mem_set hx with hx | rfl
        · exact hmark x hx
        · decide
      simp only
      split
      · exact ⟨_, _, rfl, by simpa using hlen, hmark'⟩
      · rename_i hparent
        simp only [not_or, not_le] at hparent
        have := count_set_lt hlt hzero
        exact ih (by simpa using hlen) hparent.2.1 hmark' (by simp only; omega)

theorem Walk.close_ok (hlen : w.state.length = parents.length) (hmark : ∀ x ∈ w.state, x ≤ 2) :
    w.close.length = parents.length ∧ ∀ x ∈ w.close, x ≤ 2 := by
  obtain ⟨state, path⟩ := w
  induction path generalizing state with
  | nil => exact ⟨hlen, hmark⟩
  | cons token path ih =>
    refine ih (state.set token 2) (by simpa using hlen) fun x hx => ?_
    rcases mem_or_eq_of_mem_set hx with hx | rfl
    · exact hmark x hx
    · decide

/-- **The search for cycles ends.** -/
theorem checkTreeCycles_isSome {starts state : List ℕ} (hstarts : ∀ i ∈ starts, i < parents.length)
    (hlen : state.length = parents.length) (hmark : ∀ x ∈ state, x ≤ 2) :
    (checkTreeCycles parents starts state).isSome := by
  induction starts generalizing state with
  | nil => rfl
  | cons start starts ih =>
    obtain ⟨hstart, hstarts⟩ := forall_mem_cons.mp hstarts
    unfold checkTreeCycles
    split
    · exact ih hstarts hlen hmark
    · have hcount : state.count 0 < parents.length + 1 := by
        have := count_le_length (a := 0) (l := state)
        omega
      obtain ⟨w, problems, hclimb, hlen', hmark'⟩ :=
        Walk.climb_isSome (w := ⟨state, []⟩) hlen hstart hmark hcount
      obtain ⟨hlen'', hmark''⟩ := Walk.close_ok hlen' hmark'
      obtain ⟨rest, hrest⟩ := Option.isSome_iff_exists.mp (ih hstarts hlen'' hmark'')
      simp [hclimb, hrest]

end Walk

theorem TreeMask.new_eq_ok {parents : List ℤ} {tMax : ℕ} {ancestors : List Bool} {mask : TreeMask} :
    TreeMask.new parents tMax ancestors = .ok mask ↔
      mask.parents = parents ∧ mask.tMax = tMax ∧ mask.ancestors = ancestors := by
  obtain ⟨p, m, a, hv⟩ := mask
  unfold TreeMask.new
  constructor
  · split
    · intro h
      obtain ⟨rfl, rfl, rfl⟩ := TreeMask.mk.inj (Except.ok.inj h)
      exact ⟨rfl, rfl, rfl⟩
    · intro h
      cases h
    · intro h
      cases h
  · rintro ⟨rfl, rfl, rfl⟩
    split
    · rfl
    · rename_i e he
      simp [hv] at he
    · rename_i hne _
      exact absurd hv hne

/-! ### The metadata of a step -/

/-- The positions of the tokens of a step: one or three numbers each. -/
inductive Positions
  | perToken (v : List ℕ)
  | mrope (v : List (ℕ × ℕ × ℕ))
  deriving DecidableEq

def Positions.len : Positions → ℕ
  | .perToken v => v.length
  | .mrope v => v.length

/-- The metadata of a step: `g` groups, `s` sequences, `t` tokens. The tables have
one row per group, and in it one entry per token, one row per sequence, or one
entry per sequence. -/
structure BatchMeta where
  g : ℕ
  s : ℕ
  t : ℕ
  maxBlocks : ℕ
  seqIds : List ℕ
  queryLen : List ℕ
  ctxLen : List ℕ
  positions : Positions
  slotMap : List ℕ
  blockTable : List ℕ
  windowStart : List ℕ
  tree : Option TreeMask

/-- The metadata under construction. -/
structure BatchMetaBuilder where
  g : ℕ
  s : ℕ
  t : ℕ
  maxBlocks : ℕ
  seqIds : Option (List ℕ)
  queryLen : Option (List ℕ)
  ctxLen : Option (List ℕ)
  positions : Option Positions
  slotMap : Option (List ℕ)
  blockTable : Option (List ℕ)
  windowStart : Option (List ℕ)
  tree : Option TreeMask

/-- A field must be there and have the expected length. -/
def checkLen (field : String) (value : Option (List ℕ)) (expected : Option ℕ) :
    List IrError × Option (List ℕ) :=
  match value, expected with
  | some v, some n => if v.length = n then ([], some v) else ([.batchLength field n v.length], none)
  | some _, none => ([], none)
  | none, _ => ([.missingField field], none)

/-- The product of some dimensions as a length. -/
def checkedProduct (field : String) (factors : List ℕ) : List IrError × Option ℕ :=
  match factors.foldlM (fun product factor => mul 64 product factor) 1 with
  | some n => ([], some n)
  | none => ([.batchShapeOverflow field factors], none)

/-- A parent must be a token of the same sequence. -/
def crossing (token : ℕ) (parent : ℤ) (seq seqStart seqEnd : ℕ) : List IrError :=
  if 0 ≤ parent ∧ (parent.toNat < seqStart ∨ seqEnd ≤ parent.toNat) then
    [.treeParentCrossesSequence token parent seq seqStart seqEnd]
  else []

/-- The parents that cross between sequences, as the builder finds them: it takes the
tokens of each sequence in turn. -/
def builderCrossings (parents : List ℤ) :
    ℕ → ℕ → List ℕ → Except (Fault IrError) (List IrError)
  | _, _, [] => .ok []
  | seq, seqStart, seqLen :: rest => do
    let row ← (List.range' seqStart seqLen).mapM fun token => do
      let parent ← orPanic parents[token]?
      pure (crossing token parent seq seqStart (seqStart + seqLen))
    let rest ← builderCrossings parents (seq + 1) (seqStart + seqLen) rest
    pure (row.flatten ++ rest)

/-- What is wrong with the tree of a batch. -/
def BatchMetaBuilder.treeProblems (b : BatchMetaBuilder) (queryLen : Option (List ℕ)) :
    Except (Fault IrError) (List IrError) :=
  match b.tree with
  | none => .ok []
  | some tree => do
    let mismatch : List IrError :=
      if tree.parents.length ≠ b.t then [.treeBatchMismatch tree.parents.length b.t] else []
    match queryLen with
    | none => pure mismatch
    | some queryLen =>
      let required := queryLen.max?.getD 0
      let small : List IrError :=
        if tree.tMax < required then [.treeMaxTooSmall required tree.tMax] else []
      let crossings ←
        if tree.parents.length = b.t then builderCrossings tree.parents 0 0 queryLen else .ok []
      pure (mismatch ++ small ++ crossings)

/-- Checks the presence and the length of everything, and reports all failures. -/
def BatchMetaBuilder.build (b : BatchMetaBuilder) : Except (Fault IrError) BatchMeta := do
  let zero : List IrError :=
    if b.g = 0 ∨ b.s = 0 ∨ b.t = 0 ∨ b.maxBlocks = 0 then
      [.zeroBatchDim b.g b.s b.t b.maxBlocks] else []
  let seqIds := checkLen "seq_ids" b.seqIds (some b.s)
  let queryLen := checkLen "query_len" b.queryLen (some b.s)
  let ctxLen := checkLen "ctx_len" b.ctxLen (some b.s)
  let slotMapExpected := checkedProduct "slot_map" [b.g, b.t]
  let blockTableExpected := checkedProduct "block_table" [b.g, b.s, b.maxBlocks]
  let windowStartExpected := checkedProduct "window_start" [b.g, b.s]
  let slotMap := checkLen "slot_map" b.slotMap slotMapExpected.2
  let blockTable := checkLen "block_table" b.blockTable blockTableExpected.2
  let windowStart := checkLen "window_start" b.windowStart windowStartExpected.2
  let positions : List IrError :=
    match b.positions with
    | some p => if p.len = b.t then [] else [.batchLength "positions" b.t p.len]
    | none => [.missingField "positions"]
  let queries : List IrError :=
    match queryLen.2 with
    | some q =>
      (q.zipIdx.flatMap fun (len, seq) => if len = 0 then [.emptyQuery seq] else []) ++
        if q.sum ≠ b.t then [.queryTokenCount b.t q.sum] else []
    | none => []
  let tree ← b.treeProblems queryLen.2
  let problems := zero ++ seqIds.1 ++ queryLen.1 ++ ctxLen.1 ++ slotMapExpected.1 ++
    blockTableExpected.1 ++ windowStartExpected.1 ++ slotMap.1 ++ blockTable.1 ++ windowStart.1 ++
    positions ++ queries ++ tree
  lift (IrError.fromProblems problems)
  let seqIds ← orPanic seqIds.2
  let queryLen ← orPanic queryLen.2
  let ctxLen ← orPanic ctxLen.2
  let positions ← orPanic b.positions
  let slotMap ← orPanic slotMap.2
  let blockTable ← orPanic blockTable.2
  let windowStart ← orPanic windowStart.2
  pure ⟨b.g, b.s, b.t, b.maxBlocks, seqIds, queryLen, ctxLen, positions, slotMap, blockTable,
    windowStart, b.tree⟩

end R9v

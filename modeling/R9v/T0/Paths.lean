import R9v.T0.Sampling
import R9v.Lib.Forest

/-!
# The paths of a tree of draft tokens

The tokens of a `TreeMask` form a forest (`TreeMask.grounded`): the search for cycles marks a
token as done only when its line is complete. So the walks from the leaves up to the roots end
(`TreeMask.tracePath_eq`), and the paths that are verified are the lines of the leaves, in
order (`TreeMask.mem_treePaths`).
-/

namespace R9v

open Forest List

/-- The parent of a token, if it is not a root. -/
def parentOf (parents : List ℤ) (node : ℕ) : Option ℕ :=
  let p := parents.getD node (-1)
  if 0 ≤ p then some p.toNat else none

section Cycles

variable {parents : List ℤ} {fuel : ℕ} {w w' : Walk} {token : ℕ}

/-- Each parent is a root mark or another token. -/
def Parented (parents : List ℤ) : Prop :=
  parents.length < 2 ^ 31 ∧ ∀ i < parents.length, ∀ p, parentOf parents i = some p →
    p < parents.length ∧ p ≠ i

/-- The tokens that are done have a line. -/
def Done (parents : List ℤ) (state : List ℕ) : Prop :=
  ∀ i < parents.length, state.getD i 0 = 2 → ∃ l, Lineage (parentOf parents) i l

theorem asI32_of_lt {n : ℕ} (h : n < 2 ^ 31) : asI32 n = n := by
  unfold asI32
  rw [Int.bmod_eq_of_le] <;> omega

theorem asI32_neg {n : ℕ} (h : 2 ^ 31 ≤ n) (hlt : n < 2 ^ 32) : asI32 n < 0 := by
  have hmod : (n : ℤ) % ((2 ^ 32 : ℕ) : ℤ) = n := Int.emod_eq_of_lt (by omega) (by omega)
  unfold asI32
  rw [Int.bmod_def, hmod, if_neg] <;> omega

theorem parented_of_valid (hlen : parents.length < 2 ^ 32)
    (h : pushTreeParentProblems parents = []) : Parented parents := by
  have hall : ∀ i (hi : i < parents.length), -1 ≤ parents[i] ∧
      parents[i] < asI32 parents.length ∧ parents[i] ≠ asI32 i := by
    intro i hi
    have hi' := flatMap_eq_nil_iff.mp h (parents[i], i)
      (by simp [mem_zipIdx_iff_getElem?, hi])
    simp only at hi'
    split_ifs at hi' with h₁ h₂
    exact ⟨by omega, by omega, h₂⟩
  have hsmall : parents.length < 2 ^ 31 := by
    by_contra hge
    have h0 := hall 0 (by omega)
    have := asI32_neg (not_lt.mp hge) hlen
    omega
  refine ⟨hsmall, fun i hi p hp => ?_⟩
  obtain ⟨-, hlt, hne⟩ := hall i hi
  simp only [parentOf, getD_eq_getElem?_getD, getElem?_eq_getElem hi,
    Option.getD_some] at hp
  split_ifs at hp with hge
  obtain rfl := Option.some.inj hp
  rw [asI32_of_lt hsmall] at hlt
  rw [asI32_of_lt (hi.trans hsmall)] at hne
  omega

/-- **A walk that reports nothing ends at a root or at a token that is done**, so that all
its tokens have a line. -/
theorem climb_lines (hp : Parented parents) (htoken : token < parents.length)
    (hdone : Done parents w.state)
    (hpath : ∀ i ∈ w.path, i < parents.length ∧
      ((∃ l, Lineage (parentOf parents) token l) → ∃ l, Lineage (parentOf parents) i l))
    (h : Walk.climb parents fuel w token = some (w', [])) :
    (∃ l, Lineage (parentOf parents) token l) ∧ Done parents w'.state ∧
      ∀ i ∈ w'.path, i < parents.length ∧ ∃ l, Lineage (parentOf parents) i l := by
  induction fuel generalizing w token with
  | zero => cases h
  | succ fuel ih =>
    unfold Walk.climb at h
    split at h
    · rename_i hmark
      obtain ⟨rfl, -⟩ := Prod.mk.inj (Option.some.inj h)
      have hline := hdone token htoken hmark
      exact ⟨hline, hdone, fun i hi => ⟨(hpath i hi).1, (hpath i hi).2 hline⟩⟩
    · cases (Prod.mk.inj (Option.some.inj h)).2
    · have hword : token % 2 ^ 32 = token := Nat.mod_eq_of_lt (by have := hp.1; omega)
      rw [hword] at h
      have hdone' : Done parents (w.state.set token 1) := by
        intro i hi hmark
        rcases eq_or_ne i token with rfl | hne
        · simp [getD_eq_getElem?_getD, getElem?_set] at hmark
          split at hmark <;> simp at hmark
        · rw [getD_eq_getElem?_getD, getElem?_set_ne hne.symm] at hmark
          exact hdone i hi (by rwa [getD_eq_getElem?_getD])
      simp only at h
      split_ifs at h with hstop
      · obtain ⟨rfl, -⟩ := Prod.mk.inj (Option.some.inj h)
        have hroot : parentOf parents token = none := by
          by_contra hsome
          obtain ⟨p, hsome⟩ := Option.ne_none_iff_exists'.mp hsome
          have hlt := hp.2 token htoken p hsome
          simp only [parentOf] at hsome
          split_ifs at hsome with hge
          have := Option.some.inj hsome
          omega
        have hline : ∃ l, Lineage (parentOf parents) token l := ⟨_, .root hroot⟩
        refine ⟨hline, hdone', fun i hi => ?_⟩
        rcases mem_append.mp hi with hi | hi
        · exact ⟨(hpath i hi).1, (hpath i hi).2 hline⟩
        · rw [mem_singleton.mp hi]
          exact ⟨htoken, hline⟩
      · push Not at hstop
        obtain ⟨hge, hlt, -⟩ := hstop
        set p := (parents.getD token (-1)).toNat with hpdef
        have hparent : parentOf parents token = some p := by
          simp only [parentOf]
          rw [if_pos hge]
        have hback : (∃ l, Lineage (parentOf parents) p l) →
            ∃ l, Lineage (parentOf parents) token l := by
          rintro ⟨l, hl⟩
          exact ⟨_, .child hparent hl⟩
        obtain ⟨hline, hrest⟩ := ih hlt hdone' (fun i hi => by
          rcases mem_append.mp hi with hi | hi
          · exact ⟨(hpath i hi).1, fun hl => (hpath i hi).2 (hback hl)⟩
          · rw [mem_singleton.mp hi]
            exact ⟨htoken, hback⟩) h
        exact ⟨hback hline, hrest⟩

theorem done_close (hpath : ∀ i ∈ w.path, i < parents.length ∧
    ∃ l, Lineage (parentOf parents) i l) (hdone : Done parents w.state) :
    Done parents w.close := by
  unfold Walk.close
  generalize w.state = state at hdone
  generalize w.path = path at hpath
  induction path generalizing state with
  | nil => exact hdone
  | cons j path ih =>
    refine ih _ (fun i hi hmark => ?_) fun i hi => hpath i (mem_cons_of_mem _ hi)
    rcases eq_or_ne i j with rfl | hne
    · exact (hpath i mem_cons_self).2
    · rw [getD_eq_getElem?_getD, getElem?_set_ne hne.symm] at hmark
      exact hdone i hi (by rwa [getD_eq_getElem?_getD])

theorem lines_of_checkTreeCycles (hp : Parented parents) {starts state : List ℕ}
    (hstarts : ∀ i ∈ starts, i < parents.length) (hdone : Done parents state)
    (h : checkTreeCycles parents starts state = some []) :
    ∀ i ∈ starts, ∃ l, Lineage (parentOf parents) i l := by
  induction starts generalizing state with
  | nil => simp
  | cons i starts ih =>
    have hi := hstarts i mem_cons_self
    have hrest := fun j hj => hstarts j (mem_cons_of_mem i hj)
    unfold checkTreeCycles at h
    split_ifs at h with hmark
    · exact forall_mem_cons.mpr ⟨hdone i hi hmark, ih hrest hdone h⟩
    · simp only [Option.bind_eq_bind, Option.bind_eq_some_iff, Option.pure_def,
        Option.some.injEq, append_eq_nil_iff] at h
      obtain ⟨⟨w, problems⟩, hclimb, rest, hcheck, rfl, rfl⟩ := h
      obtain ⟨hline, hdone', hpath⟩ := climb_lines hp hi hdone (by simp) hclimb
      exact forall_mem_cons.mpr ⟨hline, ih hrest (done_close hpath hdone') hcheck⟩

end Cycles

namespace TreeMask

variable {tree : TreeMask}

theorem parented (hlen : tree.parents.length < 2 ^ 32) : Parented tree.parents := by
  have h := tree.valid
  unfold treeProblems at h
  rw [append_eq_nil_iff, append_eq_nil_iff] at h
  exact parented_of_valid hlen h.1.2

/-- **The tokens of a tree form a forest.** -/
theorem grounded (hlen : tree.parents.length < 2 ^ 32) :
    Grounded tree.parents.length (parentOf tree.parents) := by
  have h := tree.valid
  have hcycles := (append_eq_nil_iff.mp h).2
  obtain ⟨problems, hsome⟩ := Option.isSome_iff_exists.mp
    (@checkTreeCycles_isSome tree.parents (List.range tree.parents.length)
      (tree.parents.map fun _ => 0) (by simp) (by simp) (by simp))
  rw [hsome, Option.getD_some] at hcycles
  subst hcycles
  intro i hi
  refine lines_of_checkTreeCycles (parented hlen) (by simp) ?_ hsome i (by simpa using hi)
  intro j hj hmark
  simp [getD_eq_getElem?_getD, hj] at hmark

end TreeMask

/-! ### Walks up to the roots -/

section Trace

variable {parents : List ℤ} {i fuel : ℕ} {l : List ℕ}

theorem parentOf_eq_none : parentOf parents i = none ↔ parents.getD i (-1) < 0 := by
  simp only [parentOf]
  split_ifs with h
  · exact iff_of_false (by simp) (by omega)
  · exact iff_of_true rfl (by omega)

theorem parentOf_eq_some {p : ℕ} : parentOf parents i = some p ↔ parents.getD i (-1) = p := by
  simp only [parentOf]
  split_ifs with h
  · rw [Option.some.injEq]
    omega
  · exact iff_of_false (by simp) (by omega)

theorem tracePath_neg {curr : ℤ} (h : curr < 0) : tracePath parents fuel curr = some [] := by
  unfold tracePath
  rw [if_neg (by omega)]

/-- **The walk up from a node gives its line**, when there is fuel for it. -/
theorem tracePath_eq (hp : Parented parents) (h : Lineage (parentOf parents) i l)
    (hi : i < parents.length) (hfuel : l.length ≤ fuel) :
    tracePath parents fuel i = some l := by
  induction h generalizing fuel with
  | @root i hroot =>
    obtain ⟨fuel, rfl⟩ : ∃ f, fuel = f + 1 := ⟨fuel - 1, by simp at hfuel; omega⟩
    unfold tracePath
    rw [if_pos ⟨by omega, by simpa using hi⟩]
    simp only [Int.toNat_natCast]
    rw [tracePath_neg (parentOf_eq_none.mp hroot), Option.map_some, nil_append]
  | @child i p m hparent hm ih =>
    rw [length_append, length_singleton] at hfuel
    obtain ⟨fuel, rfl⟩ : ∃ f, fuel = f + 1 := ⟨fuel - 1, by omega⟩
    unfold tracePath
    rw [if_pos ⟨by omega, by simpa using hi⟩]
    simp only [Int.toNat_natCast]
    rw [parentOf_eq_some.mp hparent, ih (hp.2 i hi p hparent).1 (by omega), Option.map_some]

theorem isParent_eq_false : isParent parents i = false ↔ Leaf parents.length (parentOf parents) i := by
  unfold isParent Leaf
  rw [any_eq_false]
  constructor
  · intro h j hj hparent
    rw [parentOf_eq_some, getD_eq_getElem?_getD, getElem?_eq_getElem hj,
      Option.getD_some] at hparent
    exact h _ (getElem_mem hj) (by simp [hparent])
  · intro h p hp
    obtain ⟨j, hj, rfl⟩ := getElem_of_mem hp
    have := h j hj
    rw [ne_eq, parentOf_eq_some, getD_eq_getElem?_getD, getElem?_eq_getElem hj,
      Option.getD_some] at this
    rw [decide_eq_true_eq]
    omega

/-- **The paths of a tree are the lines of its leaves.** -/
theorem mem_treePaths (hp : Parented parents)
    (hg : Grounded parents.length (parentOf parents)) :
    l ∈ treePaths parents ↔ ∃ i < parents.length, Leaf parents.length (parentOf parents) i ∧
      Lineage (parentOf parents) i l := by
  have htrace : ∀ i < parents.length, ∀ m, Lineage (parentOf parents) i m →
      (tracePath parents (parents.length + 1) (asI32 i)).getD [] = m := by
    intro i hi m hm
    have hlen := hm.length_le (fun j hj p h => (hp.2 j hj p h).1) hi
    rw [asI32_of_lt (hi.trans hp.1), tracePath_eq hp hm hi (by omega), Option.getD_some]
  unfold treePaths
  simp only [mem_insertionSort, mem_map, mem_filter, mem_range,
    Bool.not_eq_true', isParent_eq_false]
  constructor
  · rintro ⟨i, ⟨hi, hleaf⟩, rfl⟩
    obtain ⟨m, hm⟩ := hg i hi
    rw [htrace i hi m hm]
    exact ⟨i, hi, hleaf, hm⟩
  · rintro ⟨i, hi, hleaf, hl⟩
    exact ⟨i, ⟨hi, hleaf⟩, htrace i hi l hl⟩

end Trace

/-! ### What holds of the paths -/

/-- What holds of the paths that are verified: they are not empty, consist of nodes, and
there are some unless there are no nodes. -/
structure Paths (k : ℕ) (paths : List (List ℕ)) : Prop where
  ne_nil : ∀ p ∈ paths, p ≠ []
  lt : ∀ p ∈ paths, ∀ i ∈ p, i < k
  length_le : ∀ p ∈ paths, p.length ≤ k
  exists_path : 0 < k → paths ≠ []

theorem paths_treePaths {tree : TreeMask} (hlen : tree.parents.length < 2 ^ 32) :
    Paths tree.parents.length (treePaths tree.parents) := by
  have hp := TreeMask.parented hlen
  have hg := TreeMask.grounded hlen
  have hparent := fun j hj p h => (hp.2 j hj p h).1
  refine ⟨fun l hl => ?_, fun l hl => ?_, fun l hl => ?_, fun hpos => ?_⟩
  · obtain ⟨i, -, -, hline⟩ := (mem_treePaths hp hg).mp hl
    exact hline.ne_nil
  · obtain ⟨i, hi, -, hline⟩ := (mem_treePaths hp hg).mp hl
    exact hline.mem_lt hparent hi
  · obtain ⟨i, hi, -, hline⟩ := (mem_treePaths hp hg).mp hl
    exact hline.length_le hparent hi
  · obtain ⟨l, hl⟩ := hg 0 hpos
    obtain ⟨j, hj, l', hl', -, hleaf⟩ := hl.exists_leaf hparent hpos
    exact ne_nil_of_mem ((mem_treePaths hp hg).mpr ⟨j, hj, hleaf, hl'⟩)

theorem paths_pathsOf {k : ℕ} {tree : Option TreeMask} (hk : k < 2 ^ 32)
    (htree : ∀ t ∈ tree, t.parents.length = k) : Paths k (pathsOf k tree) := by
  cases tree with
  | none =>
    simp only [pathsOf]
    split_ifs with hpos
    · constructor <;> simp
      omega
    · constructor <;> simp
      omega
  | some t =>
    have ht := htree t rfl
    simp only [pathsOf]
    split_ifs with hzero
    · constructor <;> simp
      omega
    · rw [← ht]
      exact paths_treePaths (ht ▸ hk)

end R9v

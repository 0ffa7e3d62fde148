import R9v.Ir.Batch
import R9v.Lib.Cycles

/-!
# Which trees are valid

The parents of a tree are checked by walks along them, which mark the tokens that they have seen
(`checkTreeCycles`). They find each directed cycle once, by its smallest token
(`checkTreeCycles_cycles`), and so nothing is wrong with a tree exactly when each of its tokens
has a root above it (`tree_valid_iff`).
-/

namespace R9v

open Checked List

/-! ### Parents -/

/-- The parent of a token. -/
def Parent (parents : List ℤ) (a b : ℕ) : Prop := parents[a]? = some (b : ℤ)

/-- The parent of a token, where a walk goes on: it is another token of the tree. -/
def Up (parents : List ℤ) (a b : ℕ) : Prop := Parent parents a b ∧ b < parents.length ∧ b ≠ a

/-- A cycle of at least two tokens along their parents. -/
structure DirectedCycle (parents : List ℤ) (c : Cycle ℕ) : Prop where
  nodup : c.Nodup
  length_le : 2 ≤ c.length
  chain : c.Chain (Parent parents)

/-- The parents from a token on end at a root, and all of them are tokens. -/
inductive ReachesRoot (parents : List ℤ) : ℕ → Prop
  | root {i : ℕ} : parents[i]? = some (-1) → ReachesRoot parents i
  | step {i p : ℕ} : Parent parents i p → p < parents.length → ReachesRoot parents p →
      ReachesRoot parents i

section Parents

variable {parents : List ℤ} {a b i : ℕ} {c : Cycle ℕ}

theorem Parent.functional : Cycles.Functional (Parent parents) := by
  intro a b b' h h'
  exact Int.ofNat.inj (Option.some.inj (h.symm.trans h'))

theorem Up.functional : Cycles.Functional (Up parents) :=
  fun a b b' h h' => Parent.functional a b b' h.1 h'.1

theorem Parent.lt (h : Parent parents a b) : a < parents.length :=
  (List.getElem?_eq_some_iff.mp h).1

theorem DirectedCycle.chain_up (h : DirectedCycle parents c) : c.Chain (Up parents) := by
  obtain ⟨hnodup, hlen, hchain⟩ := h
  have hlt : ∀ x ∈ c, x < parents.length := fun x hx => by
    obtain ⟨y, -, hxy⟩ := Cycles.exists_next hchain hx
    exact hxy.lt
  induction c using Cycle.induction_on with
  | nil => trivial
  | cons a l _ =>
    rw [Cycle.chain_coe_cons] at hchain ⊢
    have hne : List.IsChain (· ≠ ·) (a :: (l ++ [a])) := by
      refine isChain_append.mpr ⟨hnodup.isChain, isChain_singleton a, ?_⟩
      rintro x hx y hy
      obtain rfl : a = y := by simpa using hy
      rcases l with _ | ⟨b, l⟩
      · simp at hlen
      · rintro rfl
        exact (nodup_cons.mp hnodup).1 (mem_of_mem_getLast? hx)
    rw [isChain_iff_forall_rel_of_append_cons_cons] at hchain hne ⊢
    intro x y l₁ l₂ heq
    refine ⟨hchain heq, hlt y ?_, (hne heq).symm⟩
    have hmem : y ∈ a :: (l ++ [a]) := by rw [heq]; simp
    simpa [or_comm, or_assoc] using hmem

theorem DirectedCycle.exists_mem (h : DirectedCycle parents c) : ∃ x, x ∈ c := by
  obtain ⟨-, hlen, -⟩ := h
  induction c using Cycle.induction_on with
  | nil => simp at hlen
  | cons a l _ => exact ⟨a, Cycle.mem_coe_iff.mpr mem_cons_self⟩

theorem ReachesRoot.not_mem (h : ReachesRoot parents i) (hc : c.Chain (Parent parents)) : i ∉ c := by
  induction h with
  | root hroot =>
    intro hin
    obtain ⟨y, -, hxy⟩ := Cycles.exists_next hc hin
    have := Option.some.inj (hroot.symm.trans hxy)
    omega
  | step hp _ _ ih => exact fun hin => ih (Cycles.closed Parent.functional hc hin hp)

theorem ReachesRoot.parent_ne (h : ReachesRoot parents i) : ¬Parent parents i i := by
  intro hself
  exact h.not_mem (c := ([i] : List ℕ)) ((Cycle.chain_singleton _ _).mpr hself)
    (Cycle.mem_coe_iff.mpr (mem_singleton_self i))

end Parents

/-! ### One walk -/

section Climb

variable {parents : List ℤ} {fuel token x y : ℕ} {w w' : Walk} {problems : List IrError}

theorem getD_set (l : List ℕ) (i v x : ℕ) (hi : i < l.length) :
    (l.set i v).getD x 0 = if x = i then v else l.getD x 0 := by
  rw [getD_eq_getElem?_getD, getD_eq_getElem?_getD, getElem?_set]
  split_ifs with h h' h' <;> first | rfl | omega

/-- What holds while a walk goes on: the tokens of its path are marked, and it does not leave what
is done. -/
structure Walking (parents : List ℤ) (w : Walk) (token : ℕ) : Prop where
  length_eq : w.state.length = parents.length
  marks : ∀ x, w.state.getD x 0 ≤ 2
  onPath : ∀ x, w.state.getD x 0 = 1 ↔ x ∈ w.path
  nodup : w.path.Nodup
  chain : List.IsChain (Up parents) (w.path ++ [token])
  closed : ∀ x y, w.state.getD x 0 = 2 → Up parents x y → w.state.getD y 0 = 2
  token_lt : token < parents.length

/-- Where a walk has ended: at what is done or where it cannot go on, or in a cycle. -/
inductive WalkEnded (parents : List ℤ) (w w' : Walk) : List IrError → Prop
  | stopped : (∀ z ∈ w'.path.getLast?, ∀ y, Up parents z y → w.state.getD y 0 = 2) →
      WalkEnded parents w w' []
  | cycle {pre cyc : List ℕ} {a r : ℕ} : w'.path = pre ++ a :: cyc →
      (∀ z ∈ (a :: cyc).getLast?, Up parents z a) → r ∈ a :: cyc → (∀ y ∈ a :: cyc, r ≤ y) →
      WalkEnded parents w w' [.treeCycle r]

theorem WalkEnded.of_done {w₁ : Walk} (h : WalkEnded parents w₁ w' problems)
    (hdone : ∀ x, w₁.state.getD x 0 = 2 ↔ w.state.getD x 0 = 2) : WalkEnded parents w w' problems := by
  cases h with
  | stopped hlast => exact .stopped fun z hz y hzy => (hdone y).mp (hlast z hz y hzy)
  | cycle hpath hlast hr hle => exact .cycle hpath hlast hr hle

/-- What a walk has done. -/
structure Climbed (parents : List ℤ) (w w' : Walk) (token : ℕ) (problems : List IrError) : Prop where
  length_eq : w'.state.length = parents.length
  marks : ∀ x, w'.state.getD x 0 ≤ 2
  onPath : ∀ x, w'.state.getD x 0 = 1 ↔ x ∈ w'.path
  nodup : w'.path.Nodup
  chain : List.IsChain (Up parents) w'.path
  done : ∀ x, w'.state.getD x 0 = 2 ↔ w.state.getD x 0 = 2
  keeps : w.path ⊆ w'.path
  start : w.state.getD token 0 = 2 ∨ token ∈ w'.path
  ended : WalkEnded parents w w' problems

namespace Walking

theorem climbed_done (h : Walking parents w token) (hdone : w.state.getD token 0 = 2) :
    Climbed parents w w token [] := by
  refine ⟨h.length_eq, h.marks, h.onPath, h.nodup, h.chain.left_of_append, fun x => Iff.rfl,
    List.Subset.refl _, Or.inl hdone, .stopped fun z hz y hzy => ?_⟩
  have hztoken := (isChain_append.mp h.chain).2.2 z hz token (by simp)
  rwa [Up.functional z y token hzy hztoken]

theorem climbed_cycle (h : Walking parents w token) (hsmall : parents.length < 2 ^ 32)
    (hmark : w.state.getD token 0 = 1) :
    Climbed parents w w token [.treeCycle (((w.path.drop
      ((w.path.findIdx? (· == token % 2 ^ 32)).getD 0)).min?).getD (token % 2 ^ 32))] := by
  have htoken : token % 2 ^ 32 = token := Nat.mod_eq_of_lt (h.token_lt.trans hsmall)
  have hmem := (h.onPath token).mp hmark
  obtain ⟨pre, cyc, hpath⟩ := append_of_mem hmem
  have hfirst : w.path.findIdx? (· == token % 2 ^ 32) = some pre.length := by
    rw [htoken, hpath, findIdx?_append, findIdx?_eq_none_iff.mpr]
    · simp [findIdx?_cons]
    · intro x hx
      have hnodup := h.nodup
      rw [hpath, nodup_append] at hnodup
      simpa using hnodup.2.2 x hx token mem_cons_self
  rcases hmin : (token :: cyc).min? with _ | r
  · simp at hmin
  · rw [hfirst, Option.getD_some, hpath, drop_left, hmin, Option.getD_some]
    obtain ⟨hr, hle⟩ := min?_eq_some_iff.mp hmin
    refine ⟨h.length_eq, h.marks, h.onPath, h.nodup, h.chain.left_of_append, fun x => Iff.rfl,
      List.Subset.refl _, Or.inr hmem, .cycle hpath (fun z hz => ?_) hr fun y hy => hle y hy⟩
    refine (isChain_append.mp h.chain).2.2 z ?_ token (by simp)
    rw [hpath, getLast?_append]
    rw [hz]
    rfl

theorem mark (h : Walking parents w token) (hmark : w.state.getD token 0 = 0) :
    (w.path ++ [token]).Nodup ∧
      ∀ x, (w.state.set token 1).getD x 0 = 1 ↔ x ∈ w.path ++ [token] := by
  have hnot : token ∉ w.path := fun hin => by
    rw [← h.onPath, hmark] at hin
    cases hin
  refine ⟨nodup_append.mpr ⟨h.nodup, nodup_singleton _, ?_⟩, fun x => ?_⟩
  · rintro a ha b hb rfl
    exact hnot (by rwa [mem_singleton.mp hb] at ha)
  · rw [getD_set _ _ _ _ (h.length_eq ▸ h.token_lt), mem_append, mem_singleton, ← h.onPath]
    split_ifs with heq <;> simp [heq]

theorem set_done (h : Walking parents w token) (hmark : w.state.getD token 0 = 0) (x : ℕ) :
    (w.state.set token 1).getD x 0 = 2 ↔ w.state.getD x 0 = 2 := by
  rw [getD_set _ _ _ _ (h.length_eq ▸ h.token_lt)]
  split_ifs with heq
  · subst heq
    rw [hmark]
    decide
  · rfl

theorem next (h : Walking parents w token) (hmark : w.state.getD token 0 = 0) {p : ℕ}
    (hp : Up parents token p) : Walking parents ⟨w.state.set token 1, w.path ++ [token]⟩ p := by
  obtain ⟨hnodup, honPath⟩ := h.mark hmark
  refine ⟨by simpa using h.length_eq, fun x => ?_, honPath, hnodup, ?_, fun x y hx hxy => ?_, hp.2.1⟩
  · have := h.marks x
    rw [getD_set _ _ _ _ (h.length_eq ▸ h.token_lt)]
    split_ifs <;> omega
  · refine isChain_append.mpr ⟨h.chain, isChain_singleton p, ?_⟩
    rintro x hx y hy
    obtain rfl : token = x := by simpa using hx
    obtain rfl : p = y := by simpa using hy
    exact hp
  · rw [h.set_done hmark] at hx ⊢
    exact h.closed x y hx hxy

theorem climbed_stop (h : Walking parents w token) (hmark : w.state.getD token 0 = 0)
    (hstop : ∀ p, ¬Up parents token p) :
    Climbed parents w ⟨w.state.set token 1, w.path ++ [token]⟩ token [] := by
  obtain ⟨hnodup, honPath⟩ := h.mark hmark
  refine ⟨by simpa using h.length_eq, fun x => ?_, honPath, hnodup, h.chain, h.set_done hmark,
    subset_append_left _ _, Or.inr (by simp), .stopped fun z hz y hzy => ?_⟩
  · have := h.marks x
    rw [getD_set _ _ _ _ (h.length_eq ▸ h.token_lt)]
    split_ifs <;> omega
  · obtain rfl : token = z := by simpa using hz
    exact absurd hzy (hstop y)

/-- **A walk** ends at what is done, where it cannot go on, or in a cycle. -/
theorem climb (h : Walking parents w token) (hsmall : parents.length < 2 ^ 32)
    (hclimb : Walk.climb parents fuel w token = some (w', problems)) :
    Climbed parents w w' token problems := by
  induction fuel generalizing w token with
  | zero => cases hclimb
  | succ fuel ih =>
    unfold Walk.climb at hclimb
    split at hclimb
    · rename_i hdone
      cases hclimb
      exact h.climbed_done hdone
    · rename_i hmark
      cases hclimb
      exact h.climbed_cycle hsmall hmark
    · rename_i hne₂ hne₁
      have hzero : w.state.getD token 0 = 0 := by
        have h₁ : w.state.getD token 0 ≠ 1 := hne₁
        have h₂ : w.state.getD token 0 ≠ 2 := hne₂
        have := h.marks token
        omega
      have htoken : token % 2 ^ 32 = token := Nat.mod_eq_of_lt (h.token_lt.trans hsmall)
      have hget : parents[token]? = some (parents.getD token (-1)) := by
        rw [getD_eq_getElem?_getD, getElem?_eq_getElem h.token_lt, Option.getD_some]
      dsimp only at hclimb
      rw [htoken] at hclimb
      split at hclimb
      · cases hclimb
        refine h.climbed_stop hzero fun p hp => ?_
        have hval := Option.some.inj (hget.symm.trans hp.1)
        have hlt := hp.2.1
        have hne := hp.2.2
        omega
      · have hp : Up parents token (parents.getD token (-1)).toNat := by
          refine ⟨?_, by omega, by omega⟩
          rw [Parent, hget, Int.toNat_of_nonneg (by omega)]
        have hcl := ih (h.next hzero hp) hclimb
        exact ⟨hcl.length_eq, hcl.marks, hcl.onPath, hcl.nodup, hcl.chain,
          fun x => (hcl.done x).trans (h.set_done hzero x), fun x hx => hcl.keeps (by simp [hx]),
          Or.inr (hcl.keeps (by simp)), hcl.ended.of_done (h.set_done hzero)⟩

end Walking

end Climb

/-! ### All walks -/

section Search

variable {parents : List ℤ} {state starts : List ℕ} {token start x y : ℕ} {w w' : Walk}
  {problems : List IrError} {c : Cycle ℕ}

/-- The marks between two walks: every token is done or not seen, and what is done is closed. -/
structure MarksSettled (parents : List ℤ) (state : List ℕ) : Prop where
  length_eq : state.length = parents.length
  marks : ∀ x, state.getD x 0 = 0 ∨ state.getD x 0 = 2
  closed : ∀ x y, state.getD x 0 = 2 → Up parents x y → state.getD y 0 = 2

theorem getD_close (path state : List ℕ) (hpath : ∀ x ∈ path, x < state.length) (x : ℕ) :
    (Walk.close ⟨state, path⟩).getD x 0 = if x ∈ path then 2 else state.getD x 0 := by
  unfold Walk.close
  induction path generalizing state with
  | nil => simp
  | cons t path ih =>
    obtain ⟨ht, hpath⟩ := forall_mem_cons.mp hpath
    rw [foldl_cons, ih (state.set t 2) (by simpa using hpath), getD_set _ _ _ _ ht]
    by_cases hx : x = t
    · simp [hx]
    · simp [hx]

theorem MarksSettled.walking (h : MarksSettled parents state) (hstart : start < parents.length) :
    Walking parents ⟨state, []⟩ start := by
  refine ⟨h.length_eq, fun x => ?_, fun x => ?_, nodup_nil, isChain_singleton start, h.closed,
    hstart⟩
  · rcases h.marks x with hx | hx
    all_goals dsimp only; omega
  · rcases h.marks x with hx | hx
    all_goals simp only [not_mem_nil, iff_false]; omega

namespace Climbed

theorem path_lt (h : Climbed parents w w' token problems) : ∀ x ∈ w'.path, x < w'.state.length := by
  intro x hx
  by_contra hle
  have hone := (h.onPath x).mpr hx
  rw [getD_eq_getElem?_getD, getElem?_eq_none (Nat.le_of_not_lt hle)] at hone
  cases hone

theorem close_done (h : Climbed parents w w' token problems) (x : ℕ) :
    w'.close.getD x 0 = 2 ↔ w.state.getD x 0 = 2 ∨ x ∈ w'.path := by
  rw [getD_close _ _ h.path_lt, ← h.done]
  split_ifs with hx
  · simp [hx]
  · simp [hx]

theorem not_done (h : Climbed parents w w' token problems) (hx : x ∈ w'.path) :
    ¬w.state.getD x 0 = 2 := by
  rw [← h.done, (h.onPath x).mpr hx]
  decide

theorem leads (h : Climbed parents w w' token problems) :
    ∀ z ∈ w'.path, ∀ y, Up parents z y → y ∈ w'.path ∨ w.state.getD y 0 = 2 := by
  rcases hpath : w'.path with _ | ⟨x, l⟩
  · simp
  · have hchain := h.chain
    rw [hpath] at hchain
    refine Cycles.chain_leads (D := fun y => y ∈ x :: l ∨ w.state.getD y 0 = 2) Up.functional hchain
      (fun z hz => Or.inl (mem_cons_of_mem x hz)) fun z hz y hzy => ?_
    cases h.ended with
    | stopped hlast => exact Or.inr (hlast z (hpath ▸ hz) y hzy)
    | @cycle pre cyc a r hsplit hlast =>
      have hz' : z ∈ (a :: cyc).getLast? := by
        rw [hpath] at hsplit
        rw [hsplit, getLast?_append] at hz
        rcases hcyc : (a :: cyc).getLast? with _ | z'
        · simp at hcyc
        · rw [hcyc] at hz
          exact hz
      rw [Up.functional z y a hzy (hlast z hz'), ← hpath, hsplit]
      simp

theorem settled (h : Climbed parents w w' token problems)
    (hclosed : ∀ x y, w.state.getD x 0 = 2 → Up parents x y → w.state.getD y 0 = 2) :
    MarksSettled parents w'.close := by
  refine ⟨?_, fun x => ?_, fun x y hx hxy => ?_⟩
  · exact (Walk.close_ok h.length_eq fun x hx => by
      obtain ⟨i, hi, rfl⟩ := getElem_of_mem hx
      have := h.marks i
      rwa [getD_eq_getElem?_getD, getElem?_eq_getElem hi] at this).1
  · rw [getD_close _ _ h.path_lt]
    split_ifs with hx
    · exact Or.inr rfl
    · have hne := (h.onPath x).not.mpr hx
      have := h.marks x
      omega
  · rw [h.close_done] at hx ⊢
    rcases hx with hx | hx
    · exact Or.inl (hclosed x y hx hxy)
    · exact (h.leads x hx y hxy).symm

/-- **What a walk finds**: the cycles that meet its path. -/
theorem finds (h : Climbed parents w w' token problems)
    (hclosed : ∀ x y, w.state.getD x 0 = 2 → Up parents x y → w.state.getD y 0 = 2) :
    (problems = [] ∧ ∀ x ∈ w'.path, ∀ c, DirectedCycle parents c → x ∉ c) ∨
    ∃ r ∈ w'.path, problems = [.treeCycle r] ∧
      (∃ c, DirectedCycle parents c ∧ r ∈ c ∧ ∀ x ∈ c, r ≤ x) ∧
      ∀ x ∈ w'.path, ∀ c, DirectedCycle parents c → x ∈ c → r ∈ c := by
  have hended := h.ended
  cases hended with
  | stopped hlast =>
    refine Or.inl ⟨rfl, fun x hx c hc => ?_⟩
    obtain ⟨pre, l, hpath⟩ := append_of_mem hx
    have hchain := h.chain
    have hnodup := h.nodup
    rw [hpath] at hchain hnodup
    refine Cycles.chain_no_cycle (D := fun y => w.state.getD y 0 = 2) Up.functional hclosed
      hchain.right_of_append (nodup_append.mp hnodup).2.1 (h.not_done hx)
      (fun z hz y hzy => Or.inr (hlast z ?_ y hzy)) hc.chain_up
    rw [hpath, getLast?_append, Option.mem_def.mp hz]
    rfl
  | @cycle pre cyc a r hpath hlast hr hle =>
    have hchain := h.chain
    have hnodup := h.nodup
    rw [hpath] at hchain hnodup
    have hcyc := hchain.right_of_append
    -- the rest of the path is a cycle
    have hfound : DirectedCycle parents ((a :: cyc : List ℕ) : Cycle ℕ) := by
      refine ⟨Cycle.nodup_coe_iff.mpr (nodup_append.mp hnodup).2.1, ?_, ?_⟩
      · rcases cyc with _ | ⟨b, cyc⟩
        · exact absurd rfl (hlast a (by simp)).2.2
        · simp
      · refine List.IsChain.imp (fun _ _ hup => hup.1) (isChain_append.mpr
          ⟨hcyc, isChain_singleton a, fun x hx y hy => ?_⟩)
        obtain rfl : a = y := by simpa using hy
        exact hlast x hx
    refine Or.inr ⟨r, by rw [hpath]; exact mem_append_right _ hr, rfl,
      ⟨_, hfound, Cycle.mem_coe_iff.mpr hr, fun x hx => hle x (Cycle.mem_coe_iff.mp hx)⟩,
      fun x hx c hc hxc => ?_⟩
    rw [hpath] at hx
    rcases mem_append.mp hx with hx | hx
    · -- before the cycle there is none
      exfalso
      obtain ⟨pre', l, rfl⟩ := append_of_mem hx
      rw [append_assoc, cons_append] at hchain hnodup hpath
      refine Cycles.chain_no_cycle (D := fun _ => False) Up.functional (fun _ _ hno _ => hno)
        hchain.right_of_append (nodup_append.mp hnodup).2.1 not_false (fun z hz y hzy => ?_)
        hc.chain_up hxc
      rw [getLast?_cons_of_ne_nil (by simp), getLast?_append] at hz
      rcases hcyc' : (a :: cyc).getLast? with _ | z'
      · simp at hcyc'
      · rw [Up.functional z y a hzy (hlast z (hcyc' ▸ hz))]
        simp
    · exact Cycles.mem_of_mem Parent.functional hfound.chain hc.chain (Cycle.mem_coe_iff.mpr hx) hxc
        (Cycle.mem_coe_iff.mpr hr)

end Climbed

/-- Every parent is a root mark or another token. -/
def GoodParents (parents : List ℤ) : Prop :=
  ∀ (i : ℕ) (p : ℤ), parents[i]? = some p → -1 ≤ p ∧ p < parents.length ∧ p ≠ i

theorem GoodParents.root_or_up (h : GoodParents parents) (hx : x < parents.length) :
    parents[x]? = some (-1) ∨ ∃ y, Up parents x y := by
  obtain ⟨p, hp⟩ : ∃ p, parents[x]? = some p := ⟨_, getElem?_eq_getElem hx⟩
  obtain ⟨hlow, hhigh, hne⟩ := h x p hp
  rcases eq_or_ne p (-1) with rfl | hroot
  · exact Or.inl hp
  · refine Or.inr ⟨p.toNat, ?_, by omega, by omega⟩
    rw [Parent, hp, Int.toNat_of_nonneg (by omega)]

theorem reachesRoot_of_chain {path : List ℕ} (hchain : List.IsChain (Up parents) path)
    (hlast : ∀ z ∈ path.getLast?, ReachesRoot parents z) : ∀ x ∈ path, ReachesRoot parents x := by
  induction path with
  | nil => simp
  | cons x path ih =>
    rcases path with _ | ⟨y, path⟩
    · intro z hz
      obtain rfl := mem_singleton.mp hz
      exact hlast z (by simp)
    · obtain ⟨hup, hchain⟩ := isChain_cons_cons.mp hchain
      have hall := ih hchain hlast
      exact forall_mem_cons.mpr ⟨.step hup.1 hup.2.1 (hall y mem_cons_self), hall⟩

theorem Climbed.reachesRoot (h : Climbed parents w w' token []) (hgood : GoodParents parents)
    (hdone : ∀ x, w.state.getD x 0 = 2 → ReachesRoot parents x) :
    ∀ x ∈ w'.path, ReachesRoot parents x := by
  refine reachesRoot_of_chain h.chain fun z hz => ?_
  have hlt : z < parents.length := by
    rw [← h.length_eq]
    exact h.path_lt z (mem_of_mem_getLast? hz)
  cases h.ended with
  | stopped hlast =>
    rcases hgood.root_or_up hlt with hroot | ⟨y, hy⟩
    · exact .root hroot
    · exact .step hy.1 hy.2.1 (hdone y (hlast z hz y hy))

/-- What the search for cycles has found: the smallest token of each cycle that meets what it went
through. -/
structure Found (parents : List ℤ) (starts state : List ℕ) (l : List ℕ) : Prop where
  nodup : l.Nodup
  smallest : ∀ r ∈ l, ¬state.getD r 0 = 2 ∧
    ∃ c, DirectedCycle parents c ∧ r ∈ c ∧ ∀ x ∈ c, r ≤ x
  all : ∀ x ∈ starts, ¬state.getD x 0 = 2 → ∀ c, DirectedCycle parents c → x ∈ c → ∃ r ∈ l, r ∈ c
  none : l = [] → GoodParents parents → (∀ x, state.getD x 0 = 2 → ReachesRoot parents x) →
    ∀ x ∈ starts, ReachesRoot parents x

/-- **The search for cycles** reports each of them once. -/
theorem checkTreeCycles_found (hsmall : parents.length < 2 ^ 32)
    (hstarts : ∀ i ∈ starts, i < parents.length) (h : MarksSettled parents state) :
    ∃ l, checkTreeCycles parents starts state = some (l.map IrError.treeCycle) ∧
      Found parents starts state l := by
  induction starts generalizing state with
  | nil =>
    refine ⟨[], rfl, nodup_nil, by simp, by simp, by simp⟩
  | cons start starts ih =>
    obtain ⟨hstart, hstarts⟩ := forall_mem_cons.mp hstarts
    unfold checkTreeCycles
    split
    · rename_i hdone
      obtain ⟨l, heq, hfound⟩ := ih hstarts h
      refine ⟨l, heq, hfound.nodup, hfound.smallest, fun x hx hnot c hc hxc => ?_,
        fun hnil hgood hreach => ?_⟩
      · rcases mem_cons.mp hx with rfl | hx
        · exact absurd hdone hnot
        · exact hfound.all x hx hnot c hc hxc
      · exact forall_mem_cons.mpr ⟨hreach start hdone, hfound.none hnil hgood hreach⟩
    · rename_i hdone
      have hmarks : ∀ x ∈ state, x ≤ 2 := by
        intro x hx
        obtain ⟨i, hi, rfl⟩ := getElem_of_mem hx
        have := h.marks i
        rw [getD_eq_getElem?_getD, getElem?_eq_getElem hi, Option.getD_some] at this
        omega
      have hcount : state.count 0 < parents.length + 1 := by
        have := count_le_length (a := 0) (l := state)
        have := h.length_eq
        omega
      obtain ⟨w, problems, hclimb, -, -⟩ :=
        Walk.climb_isSome (w := ⟨state, []⟩) h.length_eq hstart hmarks hcount
      have hcl := (h.walking hstart).climb hsmall hclimb
      obtain ⟨l, heq, hfound⟩ := ih hstarts (hcl.settled h.closed)
      have hin : start ∈ w.path := hcl.start.resolve_left hdone
      have hrest : ∀ x ∈ start :: starts, x ∉ w.path → x ∈ starts := by
        intro x hx hnot
        rcases mem_cons.mp hx with rfl | hx
        · exact absurd hin hnot
        · exact hx
      have hnot_done : ∀ {x}, ¬w.close.getD x 0 = 2 ↔ ¬state.getD x 0 = 2 ∧ x ∉ w.path := by
        intro x
        rw [hcl.close_done, not_or]
      simp only [hclimb, heq, Option.bind_eq_bind, Option.bind_some, Option.pure_def]
      rcases hcl.finds h.closed with ⟨rfl, hnone⟩ | ⟨r, hr, rfl, hcycle, hall⟩
      · refine ⟨l, by simp, hfound.nodup, fun r hr => ?_, fun x hx hnot c hc hxc => ?_,
          fun hnil hgood hreach => ?_⟩
        · exact ⟨(hnot_done.mp (hfound.smallest r hr).1).1, (hfound.smallest r hr).2⟩
        · by_cases hpath : x ∈ w.path
          · exact absurd hxc (hnone x hpath c hc)
          · exact hfound.all x (hrest x hx hpath) (hnot_done.mpr ⟨hnot, hpath⟩) c hc hxc
        · have hpath := hcl.reachesRoot hgood hreach
          have hmore := hfound.none hnil hgood fun x hx => (by
            rcases (hcl.close_done x).mp hx with hx | hx
            · exact hreach x hx
            · exact hpath x hx)
          exact forall_mem_cons.mpr ⟨hpath start hin, hmore⟩
      · refine ⟨r :: l, by simp, ?_, fun r' hr' => ?_, fun x hx hnot c hc hxc => ?_,
          fun hnil => by cases hnil⟩
        · refine nodup_cons.mpr ⟨fun hmem => ?_, hfound.nodup⟩
          exact (hnot_done.mp (hfound.smallest r hmem).1).2 hr
        · rcases mem_cons.mp hr' with rfl | hr'
          · exact ⟨hcl.not_done hr, hcycle⟩
          · exact ⟨(hnot_done.mp (hfound.smallest r' hr').1).1, (hfound.smallest r' hr').2⟩
        · by_cases hpath : x ∈ w.path
          · exact ⟨r, mem_cons_self, hall x hpath c hc hxc⟩
          · obtain ⟨r', hr', hin'⟩ :=
              hfound.all x (hrest x hx hpath) (hnot_done.mpr ⟨hnot, hpath⟩) c hc hxc
            exact ⟨r', mem_cons_of_mem r hr', hin'⟩

end Search

/-! ### Valid trees -/

/-- The walks from each token that is not done, with the caller's marks and path. The path is
cleared before each walk. -/
def checkTreeCyclesIn (parents : List ℤ) : List ℕ → Walk → Option (Walk × List IrError)
  | [], w => some (w, [])
  | start :: starts, w =>
    if w.state.getD start 0 = 2 then checkTreeCyclesIn parents starts w
    else do
      let (w, problems) ← Walk.climb parents (parents.length + 1) ⟨w.state, []⟩ start
      let (w, rest) ← checkTreeCyclesIn parents starts ⟨w.close, w.path⟩
      pure (w, problems ++ rest)

/-- The checks on borrowed slices, with what the caller's marks and path hold, and the room for the
path. The marks of the tokens are cleared, and so is the path. -/
def validateTreeSlicesIn (parents : List ℤ) (tMax ancestorsLen : ℕ) (scratch : Walk) (capacity : ℕ) :
    Except IrError Unit := do
  let t := parents.length
  ensure (t ≤ scratch.state.length) (.treeCycleStateTooSmall t scratch.state.length)
  ensure (t ≤ capacity) (.treeCyclePathTooSmall t capacity)
  let cleared : Walk := ⟨(scratch.state.take t).map fun _ => 0, []⟩
  let cycles := (checkTreeCyclesIn parents (List.range t) cleared).map (·.2)
  IrError.fromProblems
    (pushTreeShapeProblems t tMax ancestorsLen ++ pushTreeParentProblems parents ++ cycles.getD [])

section Valid

variable {parents : List ℤ} {tMax n i : ℕ}

theorem checkTreeCyclesIn_eq (starts : List ℕ) (w : Walk) :
    (checkTreeCyclesIn parents starts w).map (·.2) = checkTreeCycles parents starts w.state := by
  induction starts generalizing w with
  | nil => rfl
  | cons start starts ih =>
    unfold checkTreeCyclesIn checkTreeCycles
    split
    · exact ih w
    · rcases Walk.climb parents (parents.length + 1) ⟨w.state, []⟩ start with _ | ⟨w', problems⟩
      · rfl
      · simp only [Option.bind_eq_bind, Option.bind_some, ← ih ⟨w'.close, w'.path⟩]
        cases checkTreeCyclesIn parents starts ⟨w'.close, w'.path⟩ <;> rfl

/-- **Borrowed slices are checked** as a tree mask is, whatever the scratch holds. -/
theorem validateTreeSlicesIn_eq (ancestors : List Bool) {scratch : Walk} {capacity : ℕ}
    (hstate : parents.length ≤ scratch.state.length) (hcapacity : parents.length ≤ capacity) :
    validateTreeSlicesIn parents tMax ancestors.length scratch capacity =
      (TreeMask.new parents tMax ancestors).map fun _ => () := by
  have hcleared : (scratch.state.take parents.length).map (fun _ => 0) = parents.map fun _ => 0 := by
    rw [map_const', map_const', length_take, Nat.min_eq_left hstate]
  have hnew : (TreeMask.new parents tMax ancestors).map (fun _ => ()) =
      IrError.fromProblems (treeProblems parents tMax ancestors.length) := by
    unfold TreeMask.new
    split
    · rename_i hnil
      exact (congrArg IrError.fromProblems hnil).symm
    · rename_i e he
      exact (congrArg IrError.fromProblems he).symm
    · rename_i hne hmany
      rcases hall : treeProblems parents tMax ancestors.length with _ | ⟨e, _ | ⟨e', l⟩⟩
      · exact absurd hall hne
      · exact absurd hall (hmany e)
      · rfl
  rw [hnew, validateTreeSlicesIn]
  dsimp only
  rw [ensure_of hstate, ok_bind, ensure_of hcapacity, ok_bind, hcleared, checkTreeCyclesIn_eq]
  rfl

theorem asI32_eq (h : n < 2 ^ 31) : asI32 n = n := by
  unfold asI32
  rw [Int.bmod_eq_of_le] <;> omega

theorem pushTreeShapeProblems_eq_nil {t : ℕ} (ht : t < 2 ^ 31) (hmax : tMax < 2 ^ 32) :
    pushTreeShapeProblems t tMax n = [] ↔ n = t * tMax ∧ (0 < t → 0 < tMax) := by
  have hlt : t * tMax < 2 ^ 64 := by
    calc t * tMax ≤ 2 ^ 31 * 2 ^ 32 := Nat.mul_le_mul ht.le hmax.le
      _ < 2 ^ 64 := by decide
  unfold pushTreeShapeProblems
  rw [mul_of_lt hlt]
  simp only [append_eq_nil_iff, ite_eq_right_iff, cons_ne_nil, imp_false, not_and, not_not]
  constructor
  · exact fun h => ⟨h.2, fun hpos => Nat.pos_of_ne_zero (h.1 hpos)⟩
  · exact fun h => ⟨fun hpos => (h.2 hpos).ne', h.1⟩

theorem pushTreeParentProblems_eq_nil (hlen : parents.length < 2 ^ 31) :
    pushTreeParentProblems parents = [] ↔ GoodParents parents := by
  unfold pushTreeParentProblems GoodParents
  simp only [flatMap_eq_nil_iff, asI32_eq hlen]
  have hrow : ∀ (i : ℕ) (p : ℤ), parents[i]? = some p →
      ((if p < -1 ∨ (parents.length : ℤ) ≤ p then [IrError.badParent i p parents.length]
        else if p = asI32 i then [.selfParent i] else []) = [] ↔
        -1 ≤ p ∧ p < parents.length ∧ p ≠ i) := by
    intro i p hp
    have hi := (List.getElem?_eq_some_iff.mp hp).1
    rw [asI32_eq (hi.trans hlen)]
    split_ifs with hbad hself
    · exact iff_of_false (by simp) (by omega)
    · exact iff_of_false (by simp) (by omega)
    · exact iff_of_true rfl (by omega)
  constructor
  · exact fun h i p hp => (hrow i p hp).mp (h (p, i) (mem_zipIdx_iff_getElem?.mpr hp))
  · rintro h ⟨p, i⟩ hmem
    have hp := mem_zipIdx_iff_getElem?.mp hmem
    exact (hrow i p hp).mpr (h i p hp)

theorem goodParents_of_reachesRoot (h : ∀ i < parents.length, ReachesRoot parents i) :
    GoodParents parents := by
  intro i p hp
  have hi := (List.getElem?_eq_some_iff.mp hp).1
  have hreach := h i hi
  have hself := hreach.parent_ne
  cases hreach with
  | root hroot =>
    obtain rfl := Option.some.inj (hp.symm.trans hroot)
    omega
  | @step _ q hq hlt _ =>
    obtain rfl := Option.some.inj (hp.symm.trans hq)
    refine ⟨by omega, by omega, fun heq => hself ?_⟩
    rw [Parent, hp, heq]

theorem getD_zeros (parents : List ℤ) (x : ℕ) : (parents.map fun _ => 0).getD x 0 = 0 := by
  rw [getD_eq_getElem?_getD, getElem?_map]
  cases parents[x]? <;> rfl

theorem zeros_not_done (parents : List ℤ) (x : ℕ) : ¬(parents.map fun _ => 0).getD x 0 = 2 := by
  rw [getD_zeros]
  decide

theorem settled_zeros (parents : List ℤ) : MarksSettled parents (parents.map fun _ => 0) :=
  ⟨length_map _, fun x => Or.inl (getD_zeros parents x),
    fun x _ hx => absurd hx (zeros_not_done parents x)⟩

end Valid

/-- **Exactly the forests are valid trees**, by either check and whatever the scratch holds; and
the search for cycles reports each of them once, by its smallest token. -/
theorem tree_validation {parents : List ℤ} {tMax : ℕ} (ancestors : List Bool)
    (hlen : parents.length < 2 ^ 31) (hmax : tMax < 2 ^ 32) {scratch : Walk} {capacity : ℕ}
    (hstate : parents.length ≤ scratch.state.length) (hcapacity : parents.length ≤ capacity) :
    validateTreeSlicesIn parents tMax ancestors.length scratch capacity =
        ((TreeMask.new parents tMax ancestors).map fun _ => ()) ∧
      ((∃ mask, TreeMask.new parents tMax ancestors = .ok mask) ↔
        ancestors.length = parents.length * tMax ∧ (0 < parents.length → 0 < tMax) ∧
          ∀ i < parents.length, ReachesRoot parents i) ∧
      ∃ reports : List ℕ, checkTreeCycles parents (List.range parents.length) (parents.map fun _ => 0) =
          some (reports.map IrError.treeCycle) ∧
        (∀ r ∈ reports, ∃ c, DirectedCycle parents c ∧ r ∈ c) ∧
        ∀ c, DirectedCycle parents c →
          ∃ r ∈ c, (∀ x ∈ c, r ≤ x) ∧ reports.filter (fun x => x ∈ c) = [r] := by
  have hsmall : parents.length < 2 ^ 32 := hlen.trans (by decide)
  obtain ⟨reports, hreports, hfound⟩ := checkTreeCycles_found hsmall
    (fun i hi => mem_range.mp hi) (settled_zeros parents)
  refine ⟨validateTreeSlicesIn_eq ancestors hstate hcapacity, ?_, reports, hreports, fun r hr => ?_,
    fun c hc => ?_⟩
  · have hok : (∃ mask, TreeMask.new parents tMax ancestors = .ok mask) ↔
        treeProblems parents tMax ancestors.length = [] := by
      constructor
      · rintro ⟨mask, hmask⟩
        obtain ⟨rfl, rfl, rfl⟩ := TreeMask.new_eq_ok.mp hmask
        exact mask.valid
      · exact fun h => ⟨⟨parents, tMax, ancestors, h⟩, TreeMask.new_eq_ok.mpr ⟨rfl, rfl, rfl⟩⟩
    rw [hok, treeProblems, hreports, Option.getD_some, append_eq_nil_iff, append_eq_nil_iff,
      pushTreeShapeProblems_eq_nil hlen hmax, pushTreeParentProblems_eq_nil hlen,
      map_eq_nil_iff, and_assoc, and_assoc]
    refine and_congr_right fun _ => and_congr_right fun _ => ?_
    constructor
    · rintro ⟨hgood, hnone⟩ i hi
      exact hfound.none hnone hgood (fun x hx => absurd hx (zeros_not_done parents x)) i
        (mem_range.mpr hi)
    · intro hreach
      refine ⟨goodParents_of_reachesRoot hreach, eq_nil_iff_forall_not_mem.mpr fun r hr => ?_⟩
      obtain ⟨-, c, hc, hrc, -⟩ := hfound.smallest r hr
      obtain ⟨y, -, hry⟩ := Cycles.exists_next hc.chain hrc
      exact (hreach r hry.lt).not_mem hc.chain hrc
  · obtain ⟨-, c, hc, hrc, -⟩ := hfound.smallest r hr
    exact ⟨c, hc, hrc⟩
  · have hin : ∀ x ∈ c, x ∈ List.range parents.length := fun x hx => by
      obtain ⟨y, -, hxy⟩ := Cycles.exists_next hc.chain hx
      exact mem_range.mpr hxy.lt
    have hleast : ∀ r ∈ reports, r ∈ c → ∀ x ∈ c, r ≤ x := by
      intro r hr hrc x hx
      obtain ⟨-, c', hc', hrc', hle⟩ := hfound.smallest r hr
      exact hle x (Cycles.mem_of_mem Parent.functional hc.chain hc'.chain hrc hrc' hx)
    obtain ⟨x, hx⟩ := hc.exists_mem
    obtain ⟨r, hr, hrc⟩ := hfound.all x (hin x hx) (zeros_not_done parents x) c hc hx
    refine ⟨r, hrc, hleast r hr hrc, perm_singleton.mp ?_⟩
    refine (perm_ext_iff_of_nodup (hfound.nodup.filter _) (nodup_singleton r)).mpr fun y => ?_
    rw [mem_filter, decide_eq_true_iff, mem_singleton]
    constructor
    · rintro ⟨hy, hyc⟩
      exact Nat.le_antisymm (hleast y hy hyc r hrc) (hleast r hr hrc y hyc)
    · rintro rfl
      exact ⟨hr, hrc⟩

theorem tree_validation_small :
    ∃ reports : List ℕ, checkTreeCycles [1, 2, 0, -1] (List.range 4) [0, 0, 0, 0] =
        some (reports.map IrError.treeCycle) ∧
      ∀ c, DirectedCycle [1, 2, 0, -1] c →
        ∃ r ∈ c, (∀ x ∈ c, r ≤ x) ∧ reports.filter (fun x => x ∈ c) = [r] := by
  obtain ⟨-, -, reports, heq, -, hall⟩ := @tree_validation [1, 2, 0, -1] 1 [true, true, true, true]
    (by decide) (by decide) ⟨[2, 1, 2, 7], [9]⟩ 4 (by decide) (by decide)
  exact ⟨reports, heq, hall⟩

end R9v

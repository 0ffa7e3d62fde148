import R9v.Lib.Cycles
import R9v.Lib.Kahn

/-!
# Schedules

Actions that may fail, run one after another on a state. Two actions exchange when it does not
matter which of them comes first, as when neither writes what the other uses
(`Footprint.exchange`). When any two actions exchange that no order puts one before the other, all
schedules along the order do the same (`run_eq_of_along`): the first action of one schedule is
brought to the front of the other, past actions that it exchanges with. The order of a queue along
links has all nodes exactly when the links have no cycle (`kahn_acyclic`).
-/

namespace R9v.Schedules

open List
open Relation (ReflTransGen TransGen)

/-! ### Schedules along an order -/

section Along

variable {α σ : Type*} (step : α → σ → Option σ) (before : α → α → Prop)

/-- Runs actions one after another, as long as none fails. -/
def run (l : List α) (s : σ) : Option σ := l.foldlM (fun s a => step a s) s

/-- It does not matter which of two actions comes first. -/
def Exchange (a b : α) : Prop := ∀ s, (step a s).bind (step b) = (step b s).bind (step a)

/-- Nothing comes after what it has to come before. -/
def Along (l : List α) : Prop := l.Pairwise fun a b => ¬before b a

variable {step before} {a : α} {l l' : List α}

theorem run_cons (s : σ) : run step (a :: l) s = (step a s).bind (run step l) := rfl

/-- An action comes to the front, past actions that it exchanges with. -/
theorem run_front (h : ∀ b ∈ l, Exchange step b a) (r : List α) (s : σ) :
    run step (l ++ a :: r) s = run step (a :: (l ++ r)) s := by
  induction l generalizing s with
  | nil => rfl
  | cons b l ih =>
    have hb : Exchange step b a := h b mem_cons_self
    have hl := ih fun c hc => h c (mem_cons_of_mem b hc)
    calc run step (b :: (l ++ a :: r)) s
        = (step b s).bind (run step (l ++ a :: r)) := rfl
      _ = (step b s).bind fun s => (step a s).bind (run step (l ++ r)) := by
        rw [funext hl]
        rfl
      _ = ((step b s).bind (step a)).bind (run step (l ++ r)) := (Option.bind_assoc _ _ _).symm
      _ = ((step a s).bind (step b)).bind (run step (l ++ r)) := by rw [hb s]
      _ = (step a s).bind fun s => (step b s).bind (run step (l ++ r)) := Option.bind_assoc _ _ _

/-- **Schedules along an order** of the same actions do the same. -/
theorem run_eq_of_along (hex : ∀ a b, a ≠ b → ¬before a b → ¬before b a → Exchange step a b)
    (hperm : l.Perm l') (hnodup : l.Nodup) (hl : Along before l) (hl' : Along before l') (s : σ) :
    run step l s = run step l' s := by
  induction l generalizing l' s with
  | nil => rw [hperm.nil_eq]
  | cons a l ih =>
    obtain ⟨p, r, rfl⟩ := append_of_mem (hperm.subset mem_cons_self)
    have hrest : l.Perm (p ++ r) := (hperm.trans perm_middle).cons_inv
    obtain ⟨hfirst, hl⟩ := pairwise_cons.mp hl
    obtain ⟨ha, hnodup⟩ := nodup_cons.mp hnodup
    -- what is before `a` in one schedule is after it in the other
    have hfront : ∀ b ∈ p, Exchange step b a := by
      intro b hb
      have hbl : b ∈ l := hrest.mem_iff.mpr (mem_append_left r hb)
      refine hex b a ?_ (hfirst b hbl) ((pairwise_append.mp hl').2.2 b hb a mem_cons_self)
      rintro rfl
      exact ha hbl
    have hsub : Along before (p ++ r) := Pairwise.sublist ((sublist_cons_self a r).append_left p) hl'
    rw [run_front hfront, run_cons, run_cons, funext (ih hrest hnodup hl hsub)]

/-- Everything comes after what it has to come after. -/
def Ordered (before : α → α → Prop) (l : List α) : Prop :=
  ∀ a i b, l = a ++ i :: b → ∀ p, before p i → p ∈ a

theorem Ordered.trans (h : Ordered before l) : Ordered (TransGen before) l := by
  intro a i b hab p hpath
  induction hpath using TransGen.head_induction_on with
  | single hp => exact h a i b hab _ hp
  | head hp _ hmem =>
    obtain ⟨a₁, a₂, rfl⟩ := append_of_mem hmem
    exact mem_append_left _ (h a₁ _ (a₂ ++ i :: b) (by simp [hab]) _ hp)

theorem Ordered.along (h : Ordered before l) (hnodup : l.Nodup) : Along before l := by
  suffices hsuffix : ∀ r a, l = a ++ r → Along before r from hsuffix l [] rfl
  intro r
  induction r with
  | nil => exact fun _ _ => .nil
  | cons i r ih =>
    intro a hl
    refine .cons (fun j hj hji => ?_) (ih (a ++ [i]) (by simp [hl]))
    have hmem := h a i r hl j hji
    rw [hl] at hnodup
    exact (nodup_append.mp hnodup).2.2 j hmem j (mem_cons_of_mem i hj) rfl

theorem Ordered.irrefl (h : Ordered before l) (hnodup : l.Nodup) (ha : a ∈ l) : ¬before a a := by
  intro haa
  obtain ⟨x, y, rfl⟩ := append_of_mem ha
  exact (nodup_append.mp hnodup).2.2 a (h x a y rfl a haa) a mem_cons_self rfl

end Along

/-! ### Footprints -/

section Footprint

variable {α σ L V : Type*}

/-- Actions change only what they write, and what they do depends only on what they read. -/
structure Footprint (step : α → σ → Option σ) (get : σ → L → V) (reads writes : α → L → Prop) :
    Prop where
  ext : ∀ s t, (∀ l, get s l = get t l) → s = t
  frame : ∀ {a s s' l}, step a s = some s' → ¬writes a l → get s' l = get s l
  congr : ∀ {a s s' t}, step a s = some s' → (∀ l, reads a l → get s l = get t l) →
    ∃ t', step a t = some t' ∧ ∀ l, writes a l → get t' l = get s' l

variable {step : α → σ → Option σ} {get : σ → L → V} {reads writes : α → L → Prop} {a b : α}

/-- Actions that do not write what the other uses can come in either order. -/
theorem Footprint.swap (h : Footprint step get reads writes)
    (hab : ∀ l, writes a l → ¬reads b l ∧ ¬writes b l) (hba : ∀ l, writes b l → ¬reads a l)
    {s u : σ} (hu : (step a s).bind (step b) = some u) : (step b s).bind (step a) = some u := by
  obtain ⟨s₁, hs₁, hu⟩ := Option.bind_eq_some_iff.mp hu
  obtain ⟨s₂, hs₂, hb⟩ := h.congr hu fun l hl => h.frame hs₁ fun hw => (hab l hw).1 hl
  obtain ⟨u', hu', ha⟩ := h.congr hs₁ fun l hl => (h.frame hs₂ fun hw => hba l hw hl).symm
  have heq : u' = u := by
    refine h.ext u' u fun l => ?_
    by_cases hwa : writes a l
    · rw [ha l hwa, h.frame hu (hab l hwa).2]
    · by_cases hwb : writes b l
      · rw [h.frame hu' hwa, hb l hwb]
      · rw [h.frame hu' hwa, h.frame hs₂ hwb, h.frame hu hwb, h.frame hs₁ hwa]
  exact Option.bind_eq_some_iff.mpr ⟨s₂, hs₂, heq ▸ hu'⟩

/-- **Actions that do not write what the other uses** exchange. -/
theorem Footprint.exchange (h : Footprint step get reads writes)
    (hab : ∀ l, writes a l → ¬reads b l ∧ ¬writes b l)
    (hba : ∀ l, writes b l → ¬reads a l ∧ ¬writes a l) : Exchange step a b := by
  intro s
  refine Option.ext fun u => ⟨fun hu => ?_, fun hu => ?_⟩
  · exact h.swap hab (fun l hl => (hba l hl).1) hu
  · exact h.swap hba (fun l hl => (hab l hl).1) hu

end Footprint

/-! ### Chains -/

section Chain

variable {l : List ℕ} {a b : ℕ}

theorem lt_of_mem_zip (hl : l.Pairwise (· < ·)) (h : (a, b) ∈ l.zip l.tail) :
    a ∈ l ∧ b ∈ l ∧ a < b := by
  induction l with
  | nil => cases h
  | cons x l ih =>
    obtain ⟨hx, hl⟩ := pairwise_cons.mp hl
    cases l with
    | nil => cases h
    | cons y l =>
      rcases mem_cons.mp h with h | h
      · obtain ⟨rfl, rfl⟩ := Prod.mk.inj h
        exact ⟨mem_cons_self, by simp, hx b mem_cons_self⟩
      · obtain ⟨ha, hb, hlt⟩ := ih hl h
        exact ⟨mem_cons_of_mem x ha, mem_cons_of_mem x hb, hlt⟩

/-- The elements of an ascending list are linked through those between them. -/
theorem transGen_of_lt (hl : l.Pairwise (· < ·)) (ha : a ∈ l) (hb : b ∈ l) (h : a < b) :
    TransGen (fun i j => (i, j) ∈ l.zip l.tail) a b := by
  induction l generalizing a with
  | nil => cases ha
  | cons x l ih =>
    obtain ⟨hx, hrest⟩ := pairwise_cons.mp hl
    have hbl : b ∈ l := by
      rcases mem_cons.mp hb with rfl | hb
      · rcases mem_cons.mp ha with rfl | ha
        · exact absurd h (lt_irrefl _)
        · exact absurd (hx a ha) h.asymm
      · exact hb
    cases l with
    | nil => cases hbl
    | cons y l =>
      have hmono : ∀ {i}, TransGen (fun i j => (i, j) ∈ (y :: l).zip l) i b →
          TransGen (fun i j => (i, j) ∈ (x :: y :: l).zip (y :: l)) i b :=
        fun hpath => TransGen.mono (fun _ _ hij => mem_cons_of_mem _ hij) _ b hpath
      rcases mem_cons.mp ha with rfl | ha
      · rcases mem_cons.mp hbl with rfl | hb'
        · exact .single mem_cons_self
        · have hy : y < b := (pairwise_cons.mp hrest).1 b hb'
          exact .head mem_cons_self (hmono (ih hrest mem_cons_self hbl hy))
      · exact hmono (ih hrest ha hbl h)

end Chain

/-! ### The order of a queue -/

section Queue

variable {links : List (ℕ × ℕ)} {count : ℕ}

/-- One node links to another. -/
def Link (links : List (ℕ × ℕ)) (p i : ℕ) : Prop := (p, i) ∈ links

theorem kahn_ordered (hlinks : ∀ l ∈ links, l.2 < count) :
    Ordered (Link links) (Kahn.kahn links count).1 :=
  fun _ _ _ hab _ hp => Kahn.kahn_before hlinks hab hp

/-- What is not served comes after a cycle. -/
theorem exists_cycle_of_notMem (hlinks : ∀ l ∈ links, l.1 < count ∧ l.2 < count) {n : ℕ}
    (hn : n < count) (hnot : n ∉ (Kahn.kahn links count).1) :
    ∃ c, ReflTransGen (Link links) c n ∧ TransGen (Link links) c c := by
  have hfinite : {m | m < count ∧ m ∉ (Kahn.kahn links count).1}.Finite :=
    (Set.finite_lt_nat count).subset fun m hm => hm.1
  have hlead : ∀ m ∈ {m | m < count ∧ m ∉ (Kahn.kahn links count).1},
      ∃ u ∈ {m | m < count ∧ m ∉ (Kahn.kahn links count).1}, Function.swap (Link links) m u := by
    rintro m ⟨hm, hnot⟩
    obtain ⟨u, hu, hnot'⟩ := Kahn.exists_open (fun l hl => (hlinks l hl).2) hm hnot
    exact ⟨u, ⟨(hlinks (u, m) hu).1, hnot'⟩, hu⟩
  obtain ⟨c, hpath, hcycle⟩ := Cycles.exists_cycle hfinite hlead ⟨hn, hnot⟩
  exact ⟨c, Relation.reflTransGen_swap.mp hpath, Relation.transGen_swap.mp hcycle⟩

theorem kahn_perm (hlinks : ∀ l ∈ links, l.2 < count)
    (hall : ∀ n < count, n ∈ (Kahn.kahn links count).1) :
    (Kahn.kahn links count).1.Perm (List.range count) := by
  refine (perm_ext_iff_of_nodup (Kahn.kahn_nodup hlinks) nodup_range).mpr fun n => ?_
  rw [mem_range]
  exact ⟨Kahn.kahn_lt hlinks n, hall n⟩

theorem kahn_length_iff (hlinks : ∀ l ∈ links, l.2 < count) :
    (Kahn.kahn links count).1.length = count ↔ ∀ n < count, n ∈ (Kahn.kahn links count).1 := by
  refine ⟨fun hlen n hn => ?_, fun hall => ?_⟩
  · have hsub := subperm_of_subset (Kahn.kahn_nodup hlinks)
      fun n hn => mem_range.mpr (Kahn.kahn_lt hlinks n hn)
    exact (hsub.perm_of_length_le (by rw [hlen, length_range])).mem_iff.mpr (mem_range.mpr hn)
  · rw [(kahn_perm hlinks hall).length_eq, length_range]

/-- **All nodes are served** exactly when the links have no cycle. -/
theorem kahn_acyclic (hlinks : ∀ l ∈ links, l.1 < count ∧ l.2 < count) :
    (∀ n < count, n ∈ (Kahn.kahn links count).1) ↔ ∀ n, ¬TransGen (Link links) n n := by
  have hlt : ∀ l ∈ links, l.2 < count := fun l hl => (hlinks l hl).2
  refine ⟨fun hall n hpath => ?_, fun hacyclic n hn => ?_⟩
  · obtain ⟨u, -, hu⟩ := TransGen.tail'_iff.mp hpath
    exact (kahn_ordered hlt).trans.irrefl (Kahn.kahn_nodup hlt) (hall n (hlt (u, n) hu)) hpath
  · by_contra hnot
    obtain ⟨c, -, hcycle⟩ := exists_cycle_of_notMem hlinks hn hnot
    exact hacyclic c hcycle

/-- When some node is not served, the first one with an open link comes after a cycle. -/
theorem kahn_stuck (hlinks : ∀ l ∈ links, l.1 < count ∧ l.2 < count)
    (hlen : (Kahn.kahn links count).1.length ≠ count) :
    ∃ n < count, (List.range count).find? (0 < (Kahn.kahn links count).2 ·) = some n ∧
      ∃ c, ReflTransGen (Link links) c n ∧ TransGen (Link links) c c := by
  have hlt : ∀ l ∈ links, l.2 < count := fun l hl => (hlinks l hl).2
  obtain ⟨c, hcycle⟩ : ∃ c, TransGen (Link links) c c := by
    by_contra! hacyclic
    exact hlen ((kahn_length_iff hlt).mpr ((kahn_acyclic hlinks).mpr hacyclic))
  -- nothing of a cycle is served, so that its links stay open
  obtain ⟨u, -, hu⟩ := TransGen.tail'_iff.mp hcycle
  have hc : c ∉ (Kahn.kahn links count).1 := fun hmem =>
    (kahn_ordered hlt).trans.irrefl (Kahn.kahn_nodup hlt) hmem hcycle
  have hsome : ((List.range count).find? (0 < (Kahn.kahn links count).2 ·)).isSome := by
    rw [find?_isSome]
    refine ⟨c, mem_range.mpr (hlt (u, c) hu), ?_⟩
    obtain ⟨v, hv, hnot⟩ := Kahn.exists_open hlt (hlt (u, c) hu) hc
    rw [decide_eq_true_eq, Kahn.kahn_deg hlt c, Kahn.openLinks, countP_pos_iff]
    exact ⟨(v, c), hv, by simpa using hnot⟩
  obtain ⟨n, hn⟩ := Option.isSome_iff_exists.mp hsome
  have hcount := mem_range.mp (mem_of_find?_eq_some hn)
  refine ⟨n, hcount, hn, exists_cycle_of_notMem hlinks hcount fun hmem => ?_⟩
  have hpos := find?_some hn
  rw [Kahn.kahn_closed hlt hmem] at hpos
  exact absurd hpos (by simp)

end Queue

end R9v.Schedules

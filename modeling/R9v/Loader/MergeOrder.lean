import R9v.Lib.GreedyMerge
import R9v.Loader.Bpe
import Mathlib.Logic.Relation

/-!
# Merging by rank is greedy

The symbols that the queue of a word leaves are those of merging the pair of neighbours with the least rank,
and the leftmost one among those, as long as there is one (`bpe_merging`). An entry that is out of date is
recognized by its text alone, since the symbol on its left cannot have grown while the one on its right is
there.
-/

namespace R9v

open GreedyMerge List

/-- The rank of the merge of two symbols. -/
def rankOf (ranks : Std.ExtTreeMap (List Bytes) ℕ) (x y : Bytes) : Option ℕ := ranks[[x, y]]?

section Bpe

variable {n fuel : ℕ} {ranks : Std.ExtTreeMap (List Bytes) ℕ} {s s' : BpeState n} {live : List (Fin n)}
  {left right : Fin n} {e : BpeEntry n} {q : List (BpeEntry n)}

/-! ### The queue -/

def BpeEntry.entry (e : BpeEntry n) : Candidate UInt8 ℕ (Fin n) := ⟨e.rank, e.left, e.right, e.text⟩

/-- The entries of a queue. -/
def entriesOf (q : List (BpeEntry n)) : Set (Candidate UInt8 ℕ (Fin n)) := {e | ∃ e' ∈ q, e'.entry = e}

theorem entriesOf_cons : entriesOf (e :: q) = insert e.entry (entriesOf q) := by
  ext e'
  simp [entriesOf, eq_comm]

theorem enqueue_eq (e : BpeEntry n) (q : List (BpeEntry n)) :
    BpeState.enqueue e q = insertBefore BpeEntry.before e q := by
  induction q with
  | nil => rfl
  | cons a q ih => rw [BpeState.enqueue, insertBefore, ih]

theorem BpeEntry.before_iff {e e' : BpeEntry n} : e.before e' = true ↔
    e.rank < e'.rank ∨ e.rank = e'.rank ∧ (e.left < e'.left ∨ e.left = e'.left ∧ e.seq < e'.seq) := by
  simp [before]

theorem BpeEntry.before_asymm (a b : BpeEntry n) (h : a.before b = true) : b.before a = false := by
  rw [← Bool.not_eq_true, before_iff]
  rw [before_iff] at h
  omega

theorem BpeEntry.before_trans (a b c : BpeEntry n) (h : a.before b = true) (h' : b.before c = true) :
    a.before c = true := by
  rw [before_iff] at h h' ⊢
  omega

/-- The queue is in the order in which its entries are popped. -/
def InOrder (q : List (BpeEntry n)) : Prop := q.Pairwise fun a b => b.before a = false

theorem InOrder.head_le (h : InOrder (e :: q)) {e' : Candidate UInt8 ℕ (Fin n)} (he : e' ∈ entriesOf q) :
    e.rank < e'.prio ∨ e.rank = e'.prio ∧ e.left ≤ e'.left := by
  obtain ⟨e', he', rfl⟩ := he
  have hnot := (pairwise_cons.mp h).1 e' he'
  rw [← Bool.not_eq_true, BpeEntry.before_iff] at hnot
  change e.rank < e'.rank ∨ e.rank = e'.rank ∧ e.left ≤ e'.left
  omega

theorem mem_pushBigram (left right : Fin n) (s : BpeState n) {e : BpeEntry n}
    (he : e ∈ (s.pushBigram ranks left right).queue) :
    e ∈ s.queue ∨ e.entry ∈ exact (rankOf ranks) s.merged left right := by
  rw [BpeState.pushBigram] at he
  split at he
  · exact .inl he
  · next rank hrank =>
    rcases mem_enqueue he with rfl | he
    · exact .inr ⟨hrank, rfl, rfl, rfl⟩
    · exact .inl he

/-- **Adding a pair** adds its entry, in its place. -/
theorem pushBigram_spec (ranks : Std.ExtTreeMap (List Bytes) ℕ) (left right : Fin n) (s : BpeState n)
    (h : InOrder s.queue) :
    (s.pushBigram ranks left right).prev = s.prev ∧ InOrder (s.pushBigram ranks left right).queue ∧
      entriesOf (s.pushBigram ranks left right).queue =
        entriesOf s.queue ∪ exact (rankOf ranks) s.merged left right := by
  rw [BpeState.pushBigram]
  split
  · next hnone =>
    refine ⟨rfl, h, ?_⟩
    have hempty : exact (rankOf ranks) s.merged left right = ∅ := by
      simp [exact, rankOf, hnone]
    rw [hempty, Set.union_empty]
  · next rank hrank =>
    dsimp only
    rw [enqueue_eq]
    refine ⟨rfl, pairwise_insertBefore BpeEntry.before_asymm BpeEntry.before_trans h, ?_⟩
    ext e
    constructor
    · rintro ⟨e', he', rfl⟩
      rcases mem_insertBefore.mp he' with rfl | he'
      · exact .inr ⟨hrank, rfl, rfl, rfl⟩
      · exact .inl ⟨e', he', rfl⟩
    · rintro (⟨e', he', rfl⟩ | ⟨hp, hl, hr, ht⟩)
      · exact ⟨e', mem_insertBefore.mpr (.inr he'), rfl⟩
      · refine ⟨_, mem_insertBefore.mpr (.inl rfl), ?_⟩
        rw [rankOf, hrank] at hp
        obtain ⟨prio, l, r, text⟩ := e
        obtain rfl : l = left := hl
        obtain rfl : r = right := hr
        obtain rfl : rank = prio := Option.some.inj hp
        obtain rfl : text = _ := ht
        rfl

/-! ### What the queue keeps -/

/-- The symbols that are alive are linked, and the queue is an agenda of their pairs. -/
structure BpeTracks (ranks : Std.ExtTreeMap (List Bytes) ℕ) (s : BpeState n) (live : List (Fin n)) :
    Prop where
  linked : Linked s.next s.prev live
  alive_iff : ∀ i, s.alive i = true ↔ i ∈ live
  inOrder : InOrder s.queue
  agenda : Agenda (rankOf ranks) live s.merged (entriesOf s.queue)

/-- **The check of a pair** finds out whether it is out of date. -/
theorem BpeTracks.fresh_iff (h : BpeTracks ranks s live) (he : e ∈ s.queue) :
    s.fresh e = true ↔ Current live s.merged e.entry := by
  rw [BpeState.fresh]
  simp only [Bool.and_eq_true, decide_eq_true_eq]
  constructor
  · rintro ⟨⟨⟨⟨hleft, hright⟩, -⟩, -⟩, htext⟩
    refine ⟨(h.alive_iff _).mp hleft, (h.alive_iff _).mp hright, ?_⟩
    rw [← length_append]
    exact congrArg List.length htext
  · intro hc
    obtain ⟨hadj, -, -, -, htext⟩ := h.agenda.current ⟨e, he, rfl⟩ hc
    obtain ⟨hnext, hprev⟩ := h.linked.adj hadj
    exact ⟨⟨⟨⟨(h.alive_iff _).mpr hc.1, (h.alive_iff _).mpr hc.2.1⟩, hnext⟩, hprev⟩, htext.symm⟩

theorem BpeTracks.drop (h : BpeTracks ranks s live) (hq : s.queue = e :: q) (hstale : s.fresh e = false) :
    BpeTracks ranks { s with queue := q } live where
  linked := h.linked
  alive_iff := h.alive_iff
  inOrder := by
    have horder := h.inOrder
    rw [hq] at horder
    exact (pairwise_cons.mp horder).2
  agenda := by
    have hagenda := h.agenda
    rw [hq, entriesOf_cons] at hagenda
    refine hagenda.drop fun hc => ?_
    rw [(h.fresh_iff (hq ▸ mem_cons_self)).mpr hc] at hstale
    cases hstale

theorem pushAlive_spec (ranks : Std.ExtTreeMap (List Bytes) ℕ) {s r : BpeState n} {o : Option (Fin n)}
    (f g : Fin n → Fin n) (hr : r = match o with
      | some p => if s.alive p then s.pushBigram ranks (f p) (g p) else s
      | none => s) (h : InOrder s.queue) (halive : ∀ p, o = some p → s.alive p = true) :
    r.prev = s.prev ∧ InOrder r.queue ∧ ∀ e, e ∈ entriesOf r.queue ↔ e ∈ entriesOf s.queue ∨
      ∃ p, o = some p ∧ e ∈ exact (rankOf ranks) s.merged (f p) (g p) := by
  subst hr
  cases o with
  | none => exact ⟨rfl, h, fun e => by simp⟩
  | some p =>
    obtain ⟨hprev, horder, hentries⟩ := pushBigram_spec ranks (f p) (g p) s h
    simp only [halive p rfl, if_true]
    refine ⟨hprev, horder, fun e => ?_⟩
    rw [hentries]
    simp

theorem merge_queue (ranks : Std.ExtTreeMap (List Bytes) ℕ) (h : InOrder (s.join left right).queue)
    (halive : ∀ i, (s.join left right).prev left = some i ∨ (s.join left right).next left = some i →
      (s.join left right).alive i = true) :
    (s.merge ranks left right).prev = (s.join left right).prev ∧
      InOrder (s.merge ranks left right).queue ∧
      ∀ e, e ∈ entriesOf (s.merge ranks left right).queue ↔ e ∈ entriesOf (s.join left right).queue ∨
        (∃ i, (s.join left right).prev left = some i ∧
          e ∈ exact (rankOf ranks) (s.join left right).merged i left) ∨
        ∃ j, (s.join left right).next left = some j ∧
          e ∈ exact (rankOf ranks) (s.join left right).merged left j := by
  obtain ⟨s₁, hs₁⟩ : ∃ s₁, s₁ = match (s.join left right).prev left with
    | some p => if (s.join left right).alive p then (s.join left right).pushBigram ranks p left
        else s.join left right
    | none => s.join left right := ⟨_, rfl⟩
  have hpush : Pushed ranks 1 (s.join left right) s₁ := hs₁ ▸ pushed_alive _ _ id fun _ => left
  obtain ⟨hprev, horder, hentries⟩ :=
    pushAlive_spec ranks id (fun _ => left) hs₁ h fun i hi => halive i (.inl hi)
  have hmerge : s.merge ranks left right = match s₁.next left with
      | some rn => if s₁.alive rn then s₁.pushBigram ranks left rn else s₁
      | none => s₁ := by
    rw [hs₁]
    rfl
  obtain ⟨hprev', horder', hentries'⟩ :=
    pushAlive_spec ranks (fun _ => left) id hmerge horder fun i hi => by
      rw [hpush.next_eq] at hi
      rw [hpush.alive_eq]
      exact halive i (.inr hi)
  refine ⟨hprev'.trans hprev, horder', fun e => ?_⟩
  rw [hentries', hentries, hpush.next_eq, hpush.merged_eq, or_assoc]
  rfl

/-- An entry that is new is one of two symbols that are alive, with their text. -/
def Paired (ranks : Std.ExtTreeMap (List Bytes) ℕ) (s : BpeState n) (e : BpeEntry n) : Prop :=
  s.alive e.left = true ∧ s.alive e.right = true ∧
    e.entry ∈ exact (rankOf ranks) s.merged e.left e.right

theorem found_pushAlive {r : BpeState n} {o : Option (Fin n)} (f g : Fin n → Fin n)
    (hr : r = match o with
      | some p => if s.alive p then s.pushBigram ranks (f p) (g p) else s
      | none => s)
    (halive : ∀ p, s.alive p = true → s.alive (f p) = true ∧ s.alive (g p) = true)
    (he : e ∈ r.queue) : e ∈ s.queue ∨ Paired ranks s e := by
  subst hr
  cases o with
  | none => exact .inl he
  | some p =>
    dsimp only at he
    split at he
    · next hp =>
      refine (mem_pushBigram _ _ s he).imp_right fun hexact => ?_
      obtain ⟨hleft, hright⟩ := halive p hp
      obtain ⟨hprio, hl, hr, htext⟩ := hexact
      have hl : e.left = f p := hl
      have hr : e.right = g p := hr
      rw [Paired, hl, hr]
      exact ⟨hleft, hright, hprio, hl, hr, htext⟩
    · exact .inl he

theorem found_merge (hleft : (s.join left right).alive left = true)
    (he : e ∈ (s.merge ranks left right).queue) :
    e ∈ (s.join left right).queue ∨ Paired ranks (s.merge ranks left right) e := by
  have hpush : Pushed ranks 2 (s.join left right) (s.merge ranks left right) :=
    pushed_merge left right s
  rw [Paired, hpush.alive_eq, hpush.merged_eq]
  obtain ⟨s₁, hs₁⟩ : ∃ s₁, s₁ = match (s.join left right).prev left with
    | some p => if (s.join left right).alive p then (s.join left right).pushBigram ranks p left
        else s.join left right
    | none => s.join left right := ⟨_, rfl⟩
  have hfirst : Pushed ranks 1 (s.join left right) s₁ := hs₁ ▸ pushed_alive _ _ id fun _ => left
  have hmerge : s.merge ranks left right = match s₁.next left with
      | some rn => if s₁.alive rn then s₁.pushBigram ranks left rn else s₁
      | none => s₁ := by
    rw [hs₁]
    rfl
  rcases found_pushAlive (fun _ => left) id hmerge (fun p hp => by
    rw [hfirst.alive_eq] at hp ⊢
    exact ⟨hleft, hp⟩) he with he | hfound
  · exact found_pushAlive id (fun _ => left) hs₁ (fun p hp => ⟨hp, hleft⟩) he
  · rw [Paired, hfirst.alive_eq, hfirst.merged_eq] at hfound
    exact .inr hfound

/-- **A merge** takes the pair that is merged greedily. -/
theorem BpeTracks.merge (h : BpeTracks ranks s live) (hq : s.queue = e :: q) (hfresh : s.fresh e = true) :
    ∃ pre post, live = pre ++ e.left :: e.right :: post ∧
      BpeTracks ranks (BpeState.merge ranks e.left e.right { s with queue := q }) (pre ++ e.left :: post) ∧
      (∀ i ∈ pre ++ post,
        (BpeState.merge ranks e.left e.right { s with queue := q }).merged i = s.merged i) ∧
      greedy (rankOf ranks) (live.map s.merged) = greedy (rankOf ranks)
        ((pre ++ e.left :: post).map
          (BpeState.merge ranks e.left e.right { s with queue := q }).merged) := by
  have hmem : e ∈ s.queue := hq ▸ mem_cons_self
  have hc := (h.fresh_iff hmem).mp hfresh
  have hagenda := h.agenda
  have horder := h.inOrder
  rw [hq] at horder
  rw [hq, entriesOf_cons] at hagenda
  obtain ⟨pre, post, hlive⟩ := (hagenda.current (.inl rfl) hc).1.exists_split
  have hlive : live = pre ++ e.left :: e.right :: post := hlive
  have hnodup : (pre ++ e.left :: e.right :: post).Nodup := by
    rw [← hlive]
    exact h.agenda.sorted.imp ne_of_lt
  have hout := (ne_of_nodup hnodup).2
  obtain ⟨s₀, hs₀⟩ : ∃ s₀ : BpeState n, s₀ = { s with queue := q } := ⟨_, rfl⟩
  rw [← hs₀]
  have hjoin : s₀.join e.left e.right = BpeState.join e.left e.right { s with queue := q } := by rw [hs₀]
  have hlinked : Linked (s₀.join e.left e.right).next (s₀.join e.left e.right).prev
      (pre ++ e.left :: post) := by
    rw [hjoin]
    refine (hlive ▸ h.linked).unlink hnodup fun i => ?_
    cases hn : s.next e.right with
    | none => simp [BpeState.join, hn]
    | some c => simp [BpeState.join, hn, Function.update_apply, eq_comm]
  have halive : ∀ i, (s₀.join e.left e.right).alive i = true ↔ i ∈ pre ++ e.left :: post := by
    intro i
    rw [hjoin]
    rw [mem_remove hnodup, ← hlive, ← h.alive_iff]
    by_cases hi : i = e.right
    · simp [BpeState.join, hi]
    · simp [BpeState.join, hi]
  have hself : (s₀.join e.left e.right).merged e.left = s.merged e.left ++ s.merged e.right := by
    rw [hjoin]
    simp [BpeState.join]
  have hother : ∀ i ∈ pre ++ post, (s₀.join e.left e.right).merged i = s.merged i := by
    intro i hi
    rw [hjoin]
    simp [BpeState.join, Function.update_of_ne (hout i hi).1, Function.update_of_ne (hout i hi).2]
  have hnext : (s₀.join e.left e.right).next e.left = post.head? := hlinked.next_eq pre _ post rfl
  have hprev : (s₀.join e.left e.right).prev e.left = pre.getLast? := hlinked.prev_eq pre _ post rfl
  have hqueue : (s₀.join e.left e.right).queue = q := by rw [hjoin]; rfl
  have hrest : InOrder (s₀.join e.left e.right).queue := by
    rw [hqueue]
    exact (pairwise_cons.mp horder).2
  obtain ⟨hprevEq, horder', hentries⟩ := merge_queue ranks hrest (fun i hi => by
      rw [hnext, hprev] at hi
      refine (halive i).mpr ?_
      rcases hi with hi | hi
      · exact mem_append_left _ (mem_of_getLast? hi)
      · exact mem_append_right _ (mem_cons_of_mem _ (mem_of_mem_head? hi)))
  rw [hqueue, hnext, hprev] at hentries
  have hpush : Pushed ranks 2 _ _ := pushed_merge e.left e.right s₀
  refine ⟨pre, post, hlive, ⟨?_, ?_, horder', ?_⟩, by rwa [hpush.merged_eq], ?_⟩
  · rw [hpush.next_eq, hprevEq]
    exact hlinked
  · intro i
    rw [hpush.alive_eq, halive]
  · rw [hpush.merged_eq]
    exact hagenda.merge hlive hself hother hentries
  · rw [hpush.merged_eq]
    exact hagenda.greedy_eq hlive hself hother hc fun e' he' => horder.head_le he'

/-! ### The start -/

theorem val_of_split {pre post : List (Fin n)} {i : Fin n} (h : List.finRange n = pre ++ i :: post) :
    i.val = pre.length := by
  have hat : (List.finRange n)[pre.length]? = some i := by
    rw [h, List.getElem?_append_right le_rfl, Nat.sub_self, List.getElem?_cons_zero]
  obtain ⟨hlt, hget⟩ := List.getElem?_eq_some_iff.mp hat
  rw [List.getElem_finRange] at hget
  exact (congrArg Fin.val hget).symm

theorem linked_finRange (n : ℕ) : Linked BpeState.nextOf BpeState.prevOf (List.finRange n) := by
  have hget : ∀ k (hk : k < n), (List.finRange n)[k]? = some ⟨k, hk⟩ := fun k hk => by
    rw [getElem?_eq_getElem (by rwa [length_finRange]), getElem_finRange]
    rfl
  constructor
  · intro pre i post h
    have hi := val_of_split h
    have hafter : (List.finRange n)[pre.length + 1]? = post.head? := by
      rw [h, getElem?_append_right (by omega), Nat.add_sub_cancel_left, getElem?_cons_succ,
        ← head?_eq_getElem?]
    rw [← hafter, BpeState.nextOf]
    split
    · next hlt => rw [← hi, hget _ hlt]
    · rw [getElem?_eq_none (by rw [length_finRange]; omega)]
  · intro pre i post h
    have hi := val_of_split h
    rw [getLast?_eq_getElem?, BpeState.prevOf]
    split
    · next hpos =>
      have hbefore : (List.finRange n)[pre.length - 1]? = pre[pre.length - 1]? := by
        rw [h, getElem?_append_left (by omega)]
      rw [← hbefore, ← hi, hget _ (by omega)]
    · rw [getElem?_eq_none (by omega)]

theorem adj_finRange {i j : Fin n} : Adj (List.finRange n) i j ↔ BpeState.nextOf i = some j := by
  refine ⟨fun h => ((linked_finRange n).adj h).1, fun h => ?_⟩
  obtain ⟨pre, post, hsplit⟩ := append_of_mem (mem_finRange i)
  rw [(linked_finRange n).next_eq pre i post hsplit] at h
  obtain ⟨post, rfl⟩ := head?_eq_some_iff.mp h
  rw [hsplit]
  exact adj_append i j pre post

theorem foldl_pushBigram (l : List (Fin n)) (s : BpeState n) (h : InOrder s.queue) :
    ∃ s', (l.foldl (fun s i => match BpeState.nextOf i with
        | some j => s.pushBigram ranks i j
        | none => s) s) = s' ∧
      s'.prev = s.prev ∧ InOrder s'.queue ∧ ∀ e, e ∈ entriesOf s'.queue ↔ e ∈ entriesOf s.queue ∨
        ∃ i ∈ l, ∃ j, BpeState.nextOf i = some j ∧ e ∈ exact (rankOf ranks) s.merged i j := by
  induction l generalizing s with
  | nil => exact ⟨s, rfl, rfl, h, fun e => by simp⟩
  | cons i l ih =>
    rw [foldl_cons]
    cases hnext : BpeState.nextOf i with
    | none =>
      obtain ⟨s', hs', hprev, horder, hentries⟩ := ih s h
      refine ⟨s', hs', hprev, horder, fun e => ?_⟩
      rw [hentries]
      simp [hnext]
    | some j =>
      obtain ⟨hprev₁, horder₁, hentries₁⟩ := pushBigram_spec ranks i j s h
      obtain ⟨s', hs', hprev, horder, hentries⟩ := ih (s.pushBigram ranks i j) horder₁
      refine ⟨s', hs', hprev.trans hprev₁, horder, fun e => ?_⟩
      rw [hentries, hentries₁, (pushed_bigram i j s).merged_eq]
      simp [hnext, or_assoc]

/-- **The queue of a word** starts as an agenda of its pairs. -/
theorem BpeTracks.start (ranks : Std.ExtTreeMap (List Bytes) ℕ) (symbols : Fin n → Bytes) :
    BpeTracks ranks (BpeState.start ranks symbols) (List.finRange n) ∧
      (BpeState.start ranks symbols).merged = symbols ∧
      (BpeState.start ranks symbols).queue.length ≤ n ∧
      ∀ e ∈ (BpeState.start ranks symbols).queue, Paired ranks (BpeState.start ranks symbols) e := by
  obtain ⟨s, hs⟩ : ∃ s : BpeState n, s =
      { prev := BpeState.prevOf
        next := BpeState.nextOf
        alive := fun _ => true
        merged := symbols
        queue := []
        seq := 0 } := ⟨_, rfl⟩
  have hstart : BpeState.start ranks symbols = (List.finRange n).foldl (fun s i =>
      match BpeState.nextOf i with
      | some j => s.pushBigram ranks i j
      | none => s) s := by
    rw [hs]
    rfl
  have hpush : Pushed ranks (List.finRange n).length s (BpeState.start ranks symbols) := by
    rw [hstart]
    exact pushed_foldl _ s
  have hinit : InOrder s.queue := by
    rw [hs]
    exact List.Pairwise.nil
  obtain ⟨s', hs', hprev, horder, hentries⟩ := @foldl_pushBigram n ranks (List.finRange n) s hinit
  rw [← hstart] at hs'
  subst hs'
  have hempty : entriesOf s.queue = ∅ := by
    simp [entriesOf, hs]
  have hentries : ∀ e, e ∈ entriesOf (BpeState.start ranks symbols).queue ↔ ∃ i j,
      Adj (List.finRange n) i j ∧ e ∈ exact (rankOf ranks) symbols i j := by
    intro e
    rw [hentries, hempty]
    simp [adj_finRange, hs]
  have hmerged : (BpeState.start ranks symbols).merged = symbols := by
    rw [hpush.merged_eq, hs]
  have halive : (BpeState.start ranks symbols).alive = fun _ => true := by
    rw [hpush.alive_eq, hs]
  refine ⟨⟨?_, fun i => ?_, horder, ⟨pairwise_lt_finRange n, fun i j hadj p hp => ?_,
    fun e he _ _ => ?_⟩⟩, hmerged, ?_, fun e he => ⟨?_, ?_, ?_⟩⟩
  · rw [hpush.next_eq, hprev, hs]
    exact linked_finRange n
  · simp [halive]
  · rw [hmerged] at hp ⊢
    exact ⟨⟨p, i, j, symbols i ++ symbols j⟩,
      (hentries _).mpr ⟨i, j, hadj, hp, rfl, rfl, rfl⟩, rfl, hp, rfl, rfl, rfl⟩
  · obtain ⟨i, j, hadj, hp, rfl, rfl, htext⟩ := (hentries e).mp he
    rw [hmerged]
    exact ⟨hadj, symbols e.right, prefix_rfl, hp, htext⟩
  · have hle := hpush.length_le
    rw [hs, length_finRange] at hle
    simpa using hle
  · simp [halive]
  · simp [halive]
  · obtain ⟨i, j, -, hp, hl, hr, htext⟩ := (hentries e.entry).mp ⟨e, he, rfl⟩
    obtain rfl : e.left = i := hl
    obtain rfl : e.right = j := hr
    rw [hmerged]
    exact ⟨hp, rfl, rfl, htext⟩

/-! ### Runs -/

/-- One round of the loop: an entry is popped, and merged unless it is out of date. -/
def BpeState.Step (ranks : Std.ExtTreeMap (List Bytes) ℕ) (s s' : BpeState n) : Prop :=
  ∃ e q, s.queue = e :: q ∧
    s' = if BpeState.fresh { s with queue := q } e
      then BpeState.merge ranks e.left e.right { s with queue := q } else { s with queue := q }

/-- The states of the loop on the symbols of a word. -/
def BpeState.Reaches (ranks : Std.ExtTreeMap (List Bytes) ℕ) : BpeState n → BpeState n → Prop :=
  Relation.ReflTransGen (BpeState.Step ranks)

/-- The symbols that are left. -/
def BpeState.symbols (s : BpeState n) : List Bytes :=
  ((List.finRange n).filter s.alive).map s.merged

theorem filter_finRange {p : Fin n → Bool} (hsorted : live.Pairwise (· < ·))
    (h : ∀ i, p i = true ↔ i ∈ live) : (List.finRange n).filter p = live := by
  refine Perm.eq_of_pairwise' ((pairwise_lt_finRange n).sublist filter_sublist)
    hsorted ?_
  refine (perm_ext_iff_of_nodup ((nodup_finRange n).sublist filter_sublist)
    (hsorted.imp ne_of_lt)).mpr fun i => ?_
  simp [h]

theorem BpeTracks.live_eq (h : BpeTracks ranks s live) : (List.finRange n).filter s.alive = live :=
  filter_finRange h.agenda.sorted h.alive_iff

theorem BpeTracks.symbols_eq (h : BpeTracks ranks s live) : s.symbols = live.map s.merged := by
  rw [BpeState.symbols, h.live_eq]

/-- **A round** merges greedily or not at all, and keeps the neighbours that stay. -/
theorem BpeTracks.step (h : BpeTracks ranks s live) (hstep : s.Step ranks s') :
    ∃ live', BpeTracks ranks s' live' ∧
      greedy (rankOf ranks) s.symbols = greedy (rankOf ranks) s'.symbols ∧
      s'.queue.length + 2 * live'.length < s.queue.length + 2 * live.length ∧
      (∀ i ∈ live', i ∈ live) ∧
      (∀ i j, Adj live i j → i ∈ live' → j ∈ live' → s'.merged i = s.merged i) ∧
      (∀ i j, Adj live i j → i ∈ live' → j ∈ live' → Adj live' i j) ∧
      ∀ e ∈ s'.queue, e ∈ s.queue ∨ Paired ranks s' e := by
  obtain ⟨e, q, hq, rfl⟩ := hstep
  split
  · next hfresh =>
    obtain ⟨pre, post, rfl, htracks, hother, hgreedy⟩ := h.merge hq hfresh
    have hnodup := h.agenda.sorted.imp ne_of_lt
    rw [h.symbols_eq, htracks.symbols_eq]
    have hpush : Pushed ranks 2 _ _ := pushed_merge e.left e.right { s with queue := q }
    have hsplit : ∀ i j, Adj (pre ++ e.left :: e.right :: post) i j → i ∈ pre ++ e.left :: post →
        j ∈ pre ++ e.left :: post → i ∈ pre ++ post ∧ i ≠ e.left ∧ i ≠ e.right ∧ j ≠ e.right := by
      intro i j hadj hi hj
      have hj' := ((mem_remove hnodup).mp hj).2
      have hi' : i ≠ e.left := by
        rintro rfl
        exact hj' (hadj.unique hnodup)
      exact ⟨(mem_around.mp hi).resolve_left hi', hi', ((mem_remove hnodup).mp hi).2, hj'⟩
    refine ⟨pre ++ e.left :: post, htracks, hgreedy, ?_, fun i hi => ?_, ?_, ?_, fun e' he' => ?_⟩
    · have hle : _ ≤ q.length + 2 := hpush.length_le
      rw [hq]
      simp only [length_append, length_cons]
      omega
    · exact ((mem_remove hnodup).mp hi).1
    · intro i j hadj hi hj
      exact hother i (hsplit i j hadj hi hj).1
    · intro i j hadj hi hj
      obtain ⟨-, hl, hr, hr'⟩ := hsplit i j hadj hi hj
      exact hadj.remove hl hr hr'
    · have hleft : (BpeState.join e.left e.right { s with queue := q }).alive e.left = true := by
        rw [← hpush.alive_eq, htracks.alive_iff]
        simp
      refine (found_merge hleft he').imp_left fun he' => ?_
      rw [hq]
      exact mem_cons_of_mem _ he'
  · next hstale =>
    have htracks := h.drop hq (Bool.eq_false_iff.mpr hstale)
    refine ⟨live, htracks, ?_, ?_, fun _ hi => hi, fun _ _ _ _ _ => rfl, fun _ _ hadj _ _ => hadj,
      fun e' he' => .inl ?_⟩
    · rw [h.symbols_eq, htracks.symbols_eq]
    · rw [hq]
      simp
    · rw [hq]
      exact mem_cons_of_mem _ he'

/-- Symbols that are neighbours, and that both stay, are neighbours with the left text unchanged. -/
theorem BpeTracks.run (h : BpeTracks ranks s live) (hreach : s.Reaches ranks s') :
    ∃ live', BpeTracks ranks s' live' ∧ (∀ i ∈ live', i ∈ live) ∧
      ∀ i j, Adj live i j → i ∈ live' → j ∈ live' → Adj live' i j ∧ s'.merged i = s.merged i := by
  induction hreach with
  | refl => exact ⟨live, h, fun _ hi => hi, fun _ _ hadj _ _ => ⟨hadj, rfl⟩⟩
  | tail _ hstep ih =>
    obtain ⟨live₁, htracks₁, hsub₁, hstay₁⟩ := ih
    obtain ⟨live', htracks, -, -, hsub, htext, hadj', -⟩ := htracks₁.step hstep
    refine ⟨live', htracks, fun i hi => hsub₁ i (hsub i hi), fun i j hadj hi hj => ?_⟩
    obtain ⟨hadj, hsame⟩ := hstay₁ i j hadj (hsub i hi) (hsub j hj)
    exact ⟨hadj' i j hadj hi hj, (htext i j hadj hi hj).trans hsame⟩

theorem mergeLoop_nil (fuel : ℕ) (hq : s.queue = []) : s.mergeLoop ranks fuel = some s := by
  unfold BpeState.mergeLoop
  simp only [hq]

theorem mergeLoop_cons (fuel : ℕ) (hq : s.queue = e :: q) :
    s.mergeLoop ranks (fuel + 1) = BpeState.mergeLoop ranks fuel
      (if BpeState.fresh { s with queue := q } e
        then BpeState.merge ranks e.left e.right { s with queue := q } else { s with queue := q }) := by
  conv_lhs => unfold BpeState.mergeLoop
  simp only [hq]

theorem BpeTracks.done (h : BpeTracks ranks s live) (hq : s.queue = []) :
    s.symbols = greedy (rankOf ranks) s.symbols := by
  have hagenda := h.agenda
  rw [hq] at hagenda
  rw [h.symbols_eq]
  exact (Agenda.done (by simpa [entriesOf] using hagenda)).symm

/-- **The loop ends**, and leaves the symbols that are merged greedily. -/
theorem BpeTracks.mergeLoop (h : BpeTracks ranks s live)
    (hfuel : s.queue.length + 2 * live.length ≤ fuel) :
    ∃ s' live', s.mergeLoop ranks fuel = some s' ∧ BpeTracks ranks s' live' ∧ s.Reaches ranks s' ∧
      s'.symbols = greedy (rankOf ranks) s.symbols := by
  induction fuel generalizing s live with
  | zero =>
    have hqueue : s.queue = [] := length_eq_zero_iff.mp (by omega)
    exact ⟨s, live, mergeLoop_nil 0 hqueue, h, .refl, h.done hqueue⟩
  | succ fuel ih =>
    cases hqueue : s.queue with
    | nil => exact ⟨s, live, mergeLoop_nil _ hqueue, h, .refl, h.done hqueue⟩
    | cons e q =>
      obtain ⟨s₁, hs₁⟩ : ∃ s₁, s₁ = if BpeState.fresh { s with queue := q } e
          then BpeState.merge ranks e.left e.right { s with queue := q } else { s with queue := q } :=
        ⟨_, rfl⟩
      have hstep : s.Step ranks s₁ := ⟨e, q, hqueue, hs₁⟩
      obtain ⟨live₁, htracks₁, hgreedy, hlt, -⟩ := h.step hstep
      obtain ⟨s', live', hloop, htracks, hreach, hsymbols⟩ := ih htracks₁ (by omega)
      refine ⟨s', live', ?_, htracks, .head hstep hreach, hsymbols.trans hgreedy.symm⟩
      rw [mergeLoop_cons fuel hqueue, ← hs₁, hloop]

/-! ### A word -/

/-- An entry is on the queue since a state of the loop. -/
def BpeState.Pushes (ranks : Std.ExtTreeMap (List Bytes) ℕ) (start s : BpeState n) (e : BpeEntry n) :
    Prop :=
  e ∈ s.queue ∧ (s = start ∨ ∃ s₀, start.Reaches ranks s₀ ∧ s₀.Step ranks s ∧ e ∉ s₀.queue)

/-- **An entry that is not out of date** is one of neighbours with the texts that it was found with. -/
theorem BpeTracks.pushes (h : BpeTracks ranks s live) (hfound : ∀ e ∈ s.queue, Paired ranks s e)
    {s₀ s₁ : BpeState n} (hpushes : s.Pushes ranks s₀ e) (hreach : s₀.Reaches ranks s₁)
    (he : e ∈ s₁.queue) (hfresh : s₁.fresh e = true) :
    Adj ((List.finRange n).filter s₁.alive) e.left e.right ∧
      s₁.merged e.left = s₀.merged e.left ∧ s₁.merged e.right = s₀.merged e.right ∧
      rankOf ranks (s₁.merged e.left) (s₁.merged e.right) = some e.rank := by
  obtain ⟨live₀, htracks₀, hfound₀⟩ : ∃ live₀, BpeTracks ranks s₀ live₀ ∧ Paired ranks s₀ e := by
    obtain ⟨hmem, rfl | ⟨r, hr, hstep, hnew⟩⟩ := hpushes
    · exact ⟨live, h, hfound e hmem⟩
    · obtain ⟨live', htracks, -⟩ := h.run hr
      obtain ⟨live₀, htracks₀, -, -, -, -, -, hadded⟩ := htracks.step hstep
      exact ⟨live₀, htracks₀, (hadded e hmem).resolve_left hnew⟩
  obtain ⟨live₁, htracks₁, hsub, hstay⟩ := htracks₀.run hreach
  have hc := (htracks₁.fresh_iff he).mp hfresh
  obtain ⟨hadj₁, hprio, -, -, htext₁⟩ := htracks₁.agenda.current ⟨e, he, rfl⟩ hc
  obtain ⟨hleft₀, hright₀, -, -, -, htext₀⟩ := hfound₀
  have hadj₀ : Adj live₀ e.left e.right := by
    refine (htracks₀.agenda.current ⟨e, hpushes.1, rfl⟩ ⟨hsub _ hc.1, hsub _ hc.2.1, ?_⟩).1
    rw [htext₀, length_append]
    rfl
  have hleft := (hstay _ _ hadj₀ hc.1 hc.2.1).2
  have htext : s₁.merged e.left ++ s₁.merged e.right = s₀.merged e.left ++ s₀.merged e.right :=
    htext₁.symm.trans htext₀
  rw [htracks₁.live_eq]
  refine ⟨hadj₁, hleft, ?_, hprio⟩
  rw [hleft] at htext
  exact append_cancel_left htext

theorem BpeTracks.bpeEmit (h : BpeTracks ranks s live) (t : Tokenizer) {pre post : List (Fin n)}
    (hlive : live = pre ++ post) (hfuel : post.length ≤ fuel) :
    t.bpeEmit s fuel post.head? = some (post.flatMap fun i => t.bpePiece (s.merged i)) := by
  induction post generalizing pre fuel with
  | nil => cases fuel <;> rfl
  | cons i post ih =>
    cases fuel with
    | zero => simp at hfuel
    | succ fuel =>
      have hrest := @ih fuel (pre ++ [i]) (by simp [hlive]) (by simpa using hfuel)
      rw [head?_cons, Tokenizer.bpeEmit, h.linked.next_eq pre i post hlive, hrest]
      rfl

/-- **BPE merges by the least rank, and the leftmost pair of those.** For every word and every table of
merges the loop ends, and the symbols that are left are those of merging greedily. An entry that is not out
of date when it is popped is one of neighbours, with the texts that it was pushed with. -/
theorem bpe_merging (t : Tokenizer) (word : Str) :
    ∃ symbols : List Str,
      symbolsOf (byteEncode word.bytes).length (byteEncode word.bytes) = some symbols ∧
      (∃ s, (BpeState.start t.bpeRanks fun i => (symbols.get i).bytes).mergeLoop t.bpeRanks
          (3 * symbols.length) = some s ∧
        s.symbols = greedy (rankOf t.bpeRanks) (symbols.map Str.bytes)) ∧
      t.bpeWord word =
        some ((greedy (rankOf t.bpeRanks) (symbols.map Str.bytes)).flatMap t.bpePiece) ∧
      ∀ s s' e,
        (BpeState.start t.bpeRanks fun i => (symbols.get i).bytes).Pushes t.bpeRanks s e →
        s.Reaches t.bpeRanks s' → e ∈ s'.queue → s'.fresh e = true →
          Adj ((List.finRange symbols.length).filter s'.alive) e.left e.right ∧
            s'.merged e.left = s.merged e.left ∧ s'.merged e.right = s.merged e.right ∧
            rankOf t.bpeRanks (s'.merged e.left) (s'.merged e.right) = some e.rank := by
  obtain ⟨symbols, hsymbols, -⟩ := @symbolsOf_byteEncode word.bytes _ le_rfl
  obtain ⟨hstart, hmerged, hlen, hfound⟩ :=
    BpeTracks.start t.bpeRanks fun i : Fin symbols.length => (symbols.get i).bytes
  obtain ⟨s, live, hloop, htracks, -, hgreedy⟩ := @BpeTracks.mergeLoop _ (3 * symbols.length) _ _ _ hstart
    (by rw [length_finRange]; omega)
  have hinit : (BpeState.start t.bpeRanks fun i => (symbols.get i).bytes).symbols =
      symbols.map Str.bytes := by
    rw [hstart.symbols_eq, hmerged]
    conv_rhs => rw [← map_get_finRange symbols, map_map]
    rfl
  rw [hinit] at hgreedy
  refine ⟨symbols, hsymbols, ⟨s, hloop, hgreedy⟩, ?_, fun s s' e hpushes hreach he hfresh =>
    hstart.pushes hfound hpushes hreach he hfresh⟩
  have hfind : (List.finRange symbols.length).find? s.alive = live.head? := by
    rw [← head?_filter, htracks.live_eq]
  have hle : live.length ≤ symbols.length := by
    have hnodup : live.Nodup := htracks.agenda.sorted.imp ne_of_lt
    simpa using hnodup.length_le_card
  rw [← hgreedy, htracks.symbols_eq, flatMap_map]
  simp only [Tokenizer.bpeWord, hsymbols, Option.bind_eq_bind, Option.bind_some, hloop, hfind]
  exact htracks.bpeEmit t (nil_append live).symm hle

end Bpe

end R9v

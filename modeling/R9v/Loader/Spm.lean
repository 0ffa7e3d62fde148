import R9v.Loader.MergeOrder

/-!
# Merging by score is greedy

The symbols that SentencePiece leaves of a text are those of merging the pair of neighbours with the
greatest score, and the leftmost one among those, as long as the text of such a pair is a token
(`spm_merging`). An entry that is out of date is recognized by its length alone. A symbol is a part of the
text, so that neighbours are merged by adding their lengths.
-/

namespace R9v

open GreedyMerge Utf8 List

/-- The score of the merge of two symbols: greater scores come first. -/
def scoreOf (t : Tokenizer) (x y : Bytes) : Option ℤᵒᵈ := do
  let id ← t.textToToken (x ++ y)
  let e ← t.tokens[id]?
  some (OrderDual.toDual (scoreKey e.score))

/-! ### The characters of a text -/

section Characters

variable {fuel pos : ℕ} {rest : Bytes} {chars : List Bytes}

/-- The characters of a text. -/
def charsOf (text : Bytes) : List Bytes := (cptsFromStr text).map encodeUtf8

/-- The places and lengths of some parts, from a place on. -/
def positions (pos : ℕ) : List Bytes → List (ℕ × ℕ)
  | [] => []
  | c :: cs => (pos, c.length) :: positions (pos + c.length) cs

theorem positions_getElem? (pos : ℕ) (chars : List Bytes) (k : ℕ) :
    (positions pos chars)[k]? =
      chars[k]?.map fun c => (pos + (chars.take k).flatten.length, c.length) := by
  induction chars generalizing pos k with
  | nil => rfl
  | cons c cs ih =>
    cases k with
    | zero => rfl
    | succ k =>
      rw [positions, getElem?_cons_succ, getElem?_cons_succ, ih, take_succ_cons,
        flatten_cons, length_append]
      simp only [Nat.add_assoc]

theorem length_positions (pos : ℕ) (chars : List Bytes) :
    (positions pos chars).length = chars.length := by
  induction chars generalizing pos with
  | nil => rfl
  | cons c cs ih => rw [positions, length_cons, ih, length_cons]

/-- **The symbols of a text** are its characters. -/
theorem spans_eq (hfuel : rest.length ≤ fuel) (h : Valid rest) (pos : ℕ) :
    SpmState.spans fuel pos rest = positions pos ((cptsLoop fuel rest).map encodeUtf8) ∧
      ∀ c ∈ (cptsLoop fuel rest).map encodeUtf8, c ≠ [] := by
  induction fuel generalizing rest pos with
  | zero =>
    obtain rfl : rest = [] := length_eq_zero_iff.mp (by omega)
    exact ⟨rfl, by simp [cptsLoop]⟩
  | succ fuel ih =>
    cases rest with
    | nil => exact ⟨rfl, by simp [cptsLoop]⟩
    | cons b l =>
      obtain ⟨n, hlen, hhead, htail⟩ := h.uncons
      have hdec := ((decoded b l).scalar n hlen).1
      have henc := encodeUtf8_decodeOne hlen
      have hle := scalarLen_le (b :: l)
      have hone : (encodeUtf8 (decodeOne b l).1).length = n + 1 := by
        rw [henc, length_take]
        omega
      obtain ⟨hspans, hne⟩ := @ih (l.drop n) (by
        rw [length_cons] at hfuel
        rw [length_drop]
        omega) htail (pos + (n + 1))
      constructor
      · rw [SpmState.spans, cptsLoop, map_cons, positions, hone, hdec, Nat.add_sub_cancel, ← hspans,
          lenUtf8At, hdec, drop_succ_cons]
        exact cons_ne_nil b l
      · intro c hc
        rw [cptsLoop, map_cons, hdec, Nat.add_sub_cancel] at hc
        rcases mem_cons.mp hc with rfl | hc
        · exact ne_nil_of_length_eq_add_one hone
        · exact hne c hc

theorem flatten_charsOf {text : Bytes} (h : Valid text) : (charsOf text).flatten = text := by
  exact cptsFromStr_encode h

end Characters

/-! ### The queue -/

section Spm

variable {n fuel : ℕ} {t : Tokenizer} {bytes : Bytes} {s s' : SpmState n} {live : List (Fin n)}
  {left right : Fin n} {e : SpmEntry n} {q : List (SpmEntry n)} {start : Fin n → ℕ}

/-- The text of a symbol. -/
def SpmState.text (bytes : Bytes) (s : SpmState n) (i : Fin n) : Bytes :=
  (bytes.drop (s.start i)).take (s.len i)

/-- An entry with its text, which starts where its left symbol does. -/
def SpmEntry.entry (bytes : Bytes) (start : Fin n → ℕ) (e : SpmEntry n) : Candidate UInt8 ℤᵒᵈ (Fin n) :=
  ⟨OrderDual.toDual e.score, e.left, e.right, (bytes.drop (start e.left)).take e.size⟩

/-- The entries of a queue. -/
def spmEntries (bytes : Bytes) (start : Fin n → ℕ) (q : List (SpmEntry n)) :
    Set (Candidate UInt8 ℤᵒᵈ (Fin n)) :=
  {e | ∃ e' ∈ q, e'.entry bytes start = e}

theorem spmEntries_cons :
    spmEntries bytes start (e :: q) = insert (e.entry bytes start) (spmEntries bytes start q) := by
  ext e'
  simp [spmEntries, eq_comm]

theorem spmEnqueue_eq (e : SpmEntry n) (q : List (SpmEntry n)) :
    SpmState.enqueue e q = insertBefore SpmEntry.before e q := by
  induction q with
  | nil => rfl
  | cons a q ih => rw [SpmState.enqueue, insertBefore, ih]

theorem SpmEntry.before_iff {e e' : SpmEntry n} : e.before e' = true ↔
    e'.score < e.score ∨ e.score = e'.score ∧ (e.left < e'.left ∨ e.left = e'.left ∧
      (e'.size < e.size ∨ e.size = e'.size ∧ e'.right < e.right)) := by
  simp [before]

theorem SpmEntry.before_asymm (a b : SpmEntry n) (h : a.before b = true) : b.before a = false := by
  rw [← Bool.not_eq_true, before_iff]
  rw [before_iff] at h
  omega

theorem SpmEntry.before_trans (a b c : SpmEntry n) (h : a.before b = true) (h' : b.before c = true) :
    a.before c = true := by
  rw [before_iff] at h h' ⊢
  omega

/-- The queue is in the order in which its entries are popped, they are parts of the text, and the texts of
the merges that are recorded are tokens. -/
structure SpmReady (t : Tokenizer) (bytes : Bytes) (s : SpmState n) : Prop where
  inOrder : s.queue.Pairwise fun a b => b.before a = false
  sizes : ∀ e ∈ s.queue, s.start e.left + e.size ≤ bytes.length
  recorded : ∀ text, s.revMerge[text]?.isSome = true → (t.textToToken text).isSome = true

theorem SpmReady.pop (h : SpmReady t bytes s) (hq : s.queue = e :: q) :
    SpmReady t bytes { s with queue := q } where
  inOrder := by
    have horder := h.inOrder
    rw [hq] at horder
    exact (pairwise_cons.mp horder).2
  sizes e' he' := h.sizes e' (hq ▸ mem_cons_of_mem _ he')
  recorded := h.recorded

/-- The first entry has the greatest score, and the leftmost place among those. -/
theorem SpmReady.head_le (h : SpmReady t bytes s) (hq : s.queue = e :: q) {e' : Candidate UInt8 ℤᵒᵈ (Fin n)}
    (he : e' ∈ spmEntries bytes s.start q) :
    (e.entry bytes s.start).prio < e'.prio ∨ (e.entry bytes s.start).prio = e'.prio ∧ e.left ≤ e'.left := by
  obtain ⟨e', he', rfl⟩ := he
  have horder := h.inOrder
  rw [hq] at horder
  have hnot := (pairwise_cons.mp horder).1 e' he'
  rw [← Bool.not_eq_true, SpmEntry.before_iff] at hnot
  change e'.score < e.score ∨ e.score = e'.score ∧ e.left ≤ e'.left
  omega

theorem text_pair (h : s.start right = s.start left + s.len left) :
    (bytes.drop (s.start left)).take (s.len left + s.len right) =
      s.text bytes left ++ s.text bytes right := by
  rw [take_add, drop_drop, SpmState.text, SpmState.text, h]

/-- **Adding a pair** adds its entry, in its place. -/
theorem tryAdd_spec (hready : SpmReady t bytes s) (h : s.start right = s.start left + s.len left)
    (hbound : s.start right + s.len right ≤ bytes.length) :
    ∃ q rev, s.tryAdd t bytes left right = { s with queue := q, revMerge := rev } ∧
      SpmReady t bytes { s with queue := q, revMerge := rev } ∧ q.length ≤ s.queue.length + 1 ∧
      ∀ e, e ∈ spmEntries bytes s.start q ↔
        e ∈ spmEntries bytes s.start s.queue ∨ e ∈ exact (scoreOf t) (s.text bytes) left right := by
  have hsize : s.start right + s.len right - s.start left = s.len left + s.len right := by omega
  have htext : (bytes.drop (s.start left)).take (s.len left + s.len right) = _ := text_pair h
  have hnothing : scoreOf t (s.text bytes left) (s.text bytes right) = none →
      ∀ e, e ∈ spmEntries bytes s.start s.queue ↔
        e ∈ spmEntries bytes s.start s.queue ∨ e ∈ exact (scoreOf t) (s.text bytes) left right := by
    intro hnone e
    simp [exact, hnone]
  rw [SpmState.tryAdd, hsize, htext]
  cases hid : t.textToToken (s.text bytes left ++ s.text bytes right) with
  | none =>
    exact ⟨s.queue, s.revMerge, rfl, hready, Nat.le_succ _, hnothing (by simp [scoreOf, hid])⟩
  | some id =>
    cases he : t.tokens[id]? with
    | none =>
      exact ⟨s.queue, s.revMerge, by simp [he], hready, Nat.le_succ _, hnothing (by simp [scoreOf, hid, he])⟩
    | some entry =>
      have hscore : scoreOf t (s.text bytes left) (s.text bytes right) =
          some (OrderDual.toDual (scoreKey entry.score)) := by
        simp [scoreOf, hid, he]
      have hlen : (s.text bytes left ++ s.text bytes right).length = s.len left + s.len right := by
        rw [← htext, length_take, length_drop]
        omega
      simp only [he, hlen, spmEnqueue_eq]
      refine ⟨_, _, rfl, ⟨?_, fun e he => ?_, fun text htoken => ?_⟩, ?_, fun e => ?_⟩
      · exact pairwise_insertBefore SpmEntry.before_asymm SpmEntry.before_trans hready.inOrder
      · rcases mem_insertBefore.mp he with rfl | he
        · change s.start left + (s.len left + s.len right) ≤ bytes.length
          omega
        · exact hready.sizes e he
      · by_cases heq : s.text bytes left ++ s.text bytes right = text
        · rw [← heq, hid]
          rfl
        · rw [Std.ExtTreeMap.getElem?_insert, if_neg (by simpa using heq)] at htoken
          exact hready.recorded text htoken
      · rw [length_insertBefore]
      · constructor
        · rintro ⟨e', he', rfl⟩
          rcases mem_insertBefore.mp he' with rfl | he'
          · exact .inr ⟨hscore, rfl, rfl, htext⟩
          · exact .inl ⟨e', he', rfl⟩
        · rintro (⟨e', he', rfl⟩ | ⟨hp, hl, hr, hpair⟩)
          · exact ⟨e', mem_insertBefore.mpr (.inr he'), rfl⟩
          · refine ⟨_, mem_insertBefore.mpr (.inl rfl), ?_⟩
            rw [hscore] at hp
            obtain ⟨prio, l, r, text⟩ := e
            obtain rfl : l = left := hl
            obtain rfl : r = right := hr
            obtain rfl : OrderDual.toDual (scoreKey entry.score) = prio := Option.some.inj hp
            obtain rfl : text = _ := hpair
            rw [← htext]
            rfl

theorem addAt_spec {o : Option (Fin n)} (f g : Fin n → Fin n) (hready : SpmReady t bytes s)
    (hpair : ∀ p, o = some p → s.start (g p) = s.start (f p) + s.len (f p) ∧
      s.start (g p) + s.len (g p) ≤ bytes.length) :
    ∃ q rev, (match o with
        | some p => s.tryAdd t bytes (f p) (g p)
        | none => s) = { s with queue := q, revMerge := rev } ∧
      SpmReady t bytes { s with queue := q, revMerge := rev } ∧ q.length ≤ s.queue.length + 1 ∧
      ∀ e, e ∈ spmEntries bytes s.start q ↔ e ∈ spmEntries bytes s.start s.queue ∨
        ∃ p, o = some p ∧ e ∈ exact (scoreOf t) (s.text bytes) (f p) (g p) := by
  cases o with
  | none => exact ⟨s.queue, s.revMerge, rfl, hready, Nat.le_succ _, fun e => by simp⟩
  | some p =>
    obtain ⟨hstart, hbound⟩ := hpair p rfl
    obtain ⟨q, rev, heq, hready', hlen, hentries⟩ := tryAdd_spec hready hstart hbound
    refine ⟨q, rev, heq, hready', hlen, fun e => ?_⟩
    rw [hentries]
    simp

/-- Joins a symbol with the one on its right. -/
def SpmState.join (left right : Fin n) (s : SpmState n) : SpmState n :=
  { s with
    len := Function.update (Function.update s.len left (s.len left + s.len right)) right 0
    next := Function.update s.next left (s.next right)
    prev := match s.next right with
      | some rn => Function.update s.prev rn (some left)
      | none => s.prev }

theorem join_len_left (h : left ≠ right) :
    (s.join left right).len left = s.len left + s.len right := by
  simp [SpmState.join, Function.update_of_ne h]

theorem join_len_right : (s.join left right).len right = 0 := by
  simp [SpmState.join]

theorem join_len_of_ne {i : Fin n} (hl : i ≠ left) (hr : i ≠ right) :
    (s.join left right).len i = s.len i := by
  simp [SpmState.join, Function.update_of_ne hl, Function.update_of_ne hr]

theorem spmMerge_spec (hready : SpmReady t bytes (s.join left right))
    (hprev : ∀ i, (s.join left right).prev left = some i →
      s.start left = s.start i + (s.join left right).len i)
    (hnext : ∀ j, (s.join left right).next left = some j →
      s.start j = s.start left + (s.join left right).len left ∧
        s.start j + (s.join left right).len j ≤ bytes.length)
    (hbound : s.start left + (s.join left right).len left ≤ bytes.length) :
    ∃ q rev, s.merge t bytes left right = { s.join left right with queue := q, revMerge := rev } ∧
      SpmReady t bytes { s.join left right with queue := q, revMerge := rev } ∧
      q.length ≤ s.queue.length + 2 ∧
      ∀ e, e ∈ spmEntries bytes s.start q ↔ e ∈ spmEntries bytes s.start s.queue ∨
        (∃ i, (s.join left right).prev left = some i ∧
          e ∈ exact (scoreOf t) ((s.join left right).text bytes) i left) ∨
        ∃ j, (s.join left right).next left = some j ∧
          e ∈ exact (scoreOf t) ((s.join left right).text bytes) left j := by
  obtain ⟨q, rev, hfirst, hready, hlen, hentries⟩ :=
    addAt_spec id (fun _ => left) hready fun p hp => ⟨hprev p hp, hbound⟩
  obtain ⟨q', rev', hsecond, hready', hlen', hentries'⟩ :=
    addAt_spec (fun _ => left) id hready fun p hp => hnext p hp
  refine ⟨q', rev', ?_, hready', ?_, fun e => ?_⟩
  · have hmerge : ∀ s₁, (match (s.join left right).prev left with
        | some p => (s.join left right).tryAdd t bytes p left
        | none => s.join left right) = s₁ →
        s.merge t bytes left right = match s₁.next left with
          | some rn => s₁.tryAdd t bytes left rn
          | none => s₁ := by
      rintro _ rfl
      rfl
    exact (hmerge _ hfirst).trans hsecond
  · have hqueue : (s.join left right).queue = s.queue := rfl
    rw [hqueue] at hlen
    simp only at hlen'
    omega
  · exact (hentries' e).trans ((or_congr_left (hentries e)).trans or_assoc)

/-! ### What the queue keeps -/

/-- The symbols that are left are linked, they make the text, and the queue is an agenda of their pairs. -/
structure SpmTracks (t : Tokenizer) (bytes : Bytes) (s : SpmState n) (live : List (Fin n)) : Prop where
  linked : Linked s.next s.prev live
  len_pos_iff : ∀ i, 0 < s.len i ↔ i ∈ live
  bound : ∀ i ∈ live, s.start i + s.len i ≤ bytes.length
  tiled : ∀ i j, Adj live i j → s.start j = s.start i + s.len i
  ready : SpmReady t bytes s
  agenda : Agenda (scoreOf t) live (s.text bytes) (spmEntries bytes s.start s.queue)

/-- Whether an entry is not out of date: no symbol is gone, and the lengths are the same. -/
def SpmState.Fresh (s : SpmState n) (e : SpmEntry n) : Prop :=
  ¬(s.len e.left = 0 ∨ s.len e.right = 0 ∨ s.len e.left + s.len e.right ≠ e.size)

theorem length_text (s : SpmState n) {i : Fin n} (h : s.start i + s.len i ≤ bytes.length) :
    (s.text bytes i).length = s.len i := by
  rw [SpmState.text, length_take, length_drop]
  omega

/-- **The check of the lengths** finds out whether a pair is out of date. -/
theorem SpmTracks.fresh_iff (h : SpmTracks t bytes s live) (he : e ∈ s.queue) :
    s.Fresh e ↔ Current live (s.text bytes) (e.entry bytes s.start) := by
  have hsize : (e.entry bytes s.start).text.length = e.size := by
    change ((bytes.drop (s.start e.left)).take e.size).length = e.size
    rw [length_take, length_drop]
    have hle := h.ready.sizes e he
    omega
  have hmem : (¬s.len e.left = 0 ∧ ¬s.len e.right = 0) ↔ e.left ∈ live ∧ e.right ∈ live := by
    rw [← h.len_pos_iff, ← h.len_pos_iff]
    omega
  rw [SpmState.Fresh, not_or, not_or, not_not, ← and_assoc, hmem, Current, hsize, ← and_assoc]
  refine and_congr_right fun hin => ?_
  change _ ↔ (s.text bytes e.left).length + (s.text bytes e.right).length = e.size
  rw [length_text s (h.bound _ hin.1), length_text s (h.bound _ hin.2)]

theorem SpmTracks.drop (h : SpmTracks t bytes s live) (hq : s.queue = e :: q) (hstale : ¬s.Fresh e) :
    SpmTracks t bytes { s with queue := q } live where
  linked := h.linked
  len_pos_iff := h.len_pos_iff
  bound := h.bound
  tiled := h.tiled
  ready := h.ready.pop hq
  agenda := by
    have hagenda := h.agenda
    rw [hq, spmEntries_cons] at hagenda
    exact hagenda.drop fun hc => hstale ((h.fresh_iff (hq ▸ mem_cons_self)).mpr hc)

/-- **A merge** takes the pair that is merged greedily. -/
theorem SpmTracks.merge (h : SpmTracks t bytes s live) (hq : s.queue = e :: q) (hfresh : s.Fresh e) :
    ∃ live', SpmTracks t bytes (SpmState.merge t bytes e.left e.right { s with queue := q }) live' ∧
      (SpmState.merge t bytes e.left e.right { s with queue := q }).queue.length + 2 * live'.length <
        s.queue.length + 2 * live.length ∧
      (SpmState.merge t bytes e.left e.right { s with queue := q }).start = s.start ∧
      greedy (scoreOf t) (live.map (s.text bytes)) = greedy (scoreOf t)
        (live'.map ((SpmState.merge t bytes e.left e.right { s with queue := q }).text bytes)) := by
  have hmem : e ∈ s.queue := hq ▸ mem_cons_self
  have hc := (h.fresh_iff hmem).mp hfresh
  have hagenda := h.agenda
  rw [hq, spmEntries_cons] at hagenda
  obtain ⟨pre, post, hlive⟩ := (hagenda.current (.inl rfl) hc).1.exists_split
  have hlive : live = pre ++ e.left :: e.right :: post := hlive
  have hnodup : (pre ++ e.left :: e.right :: post).Nodup := by
    rw [← hlive]
    exact h.agenda.sorted.imp ne_of_lt
  obtain ⟨hne, hout⟩ := ne_of_nodup hnodup
  obtain ⟨s₀, hs₀⟩ : ∃ s₀ : SpmState n, s₀ = { s with queue := q } := ⟨_, rfl⟩
  rw [← hs₀]
  have hstart : s₀.start = s.start := by rw [hs₀]
  have hadj : Adj live e.left e.right := hlive ▸ adj_append _ _ pre post
  have hright := h.tiled _ _ hadj
  have hsub : ∀ i, i ∈ pre ++ e.left :: post → i ∈ live := fun i hi => by
    rw [hlive]
    exact ((mem_remove hnodup).mp hi).1
  -- the lengths of the two symbols are added, and the others stay
  have hself : (s₀.join e.left e.right).len e.left = s.len e.left + s.len e.right := by
    rw [join_len_left hne, hs₀]
  have hother : ∀ i, i ≠ e.left → i ≠ e.right → (s₀.join e.left e.right).len i = s.len i := by
    intro i hl hr
    rw [join_len_of_ne hl hr, hs₀]
  have hgone : (s₀.join e.left e.right).len e.right = 0 := join_len_right
  have hlinked : Linked (s₀.join e.left e.right).next (s₀.join e.left e.right).prev
      (pre ++ e.left :: post) := by
    rw [hs₀]
    refine (hlive ▸ h.linked).unlink hnodup fun i => ?_
    cases hn : s.next e.right with
    | none => simp [SpmState.join, hn]
    | some c => simp [SpmState.join, hn, Function.update_apply, eq_comm]
  have hlens : ∀ i, 0 < (s₀.join e.left e.right).len i ↔ i ∈ pre ++ e.left :: post := by
    intro i
    rw [mem_remove hnodup, ← hlive, ← h.len_pos_iff]
    by_cases hr : i = e.right
    · simp [hr, hgone]
    · by_cases hl : i = e.left
      · have hpos := (h.len_pos_iff _).mpr hadj.mem.1
        rw [hl, hself]
        omega
      · simp [hother i hl hr, hr]
  have hbound : ∀ i ∈ pre ++ e.left :: post,
      s.start i + (s₀.join e.left e.right).len i ≤ bytes.length := by
    intro i hi
    rcases mem_around.mp hi with rfl | hi'
    · have hle := h.bound _ hadj.mem.2
      omega
    · rw [hother i (hout i hi').1 (hout i hi').2]
      exact h.bound i (hsub i hi)
  have htiled : ∀ i j, Adj (pre ++ e.left :: post) i j →
      s.start j = s.start i + (s₀.join e.left e.right).len i := by
    intro i j hij
    rcases hij.of_remove (b := e.right) with ⟨rfl, hlast⟩ | ⟨rfl, hhead⟩ | ⟨hi, -, hij⟩
    · have hi := hout i (mem_append_left _ (mem_of_getLast? hlast))
      rw [hother i hi.1 hi.2]
      exact h.tiled _ _ (hlive ▸ adj_of_getLast? hlast)
    · have hj : Adj live e.right j := by
        have hsplit : Adj ((pre ++ [e.left]) ++ e.right :: post) e.right j := adj_of_head? hhead
        rwa [append_assoc, singleton_append, ← hlive] at hsplit
      rw [h.tiled _ _ hj, hright, hself]
      omega
    · rw [hother i (hout i hi).1 (hout i hi).2]
      exact h.tiled _ _ (hlive ▸ hij)
  have hnext : (s₀.join e.left e.right).next e.left = post.head? := hlinked.next_eq pre _ post rfl
  have hprev : (s₀.join e.left e.right).prev e.left = pre.getLast? := hlinked.prev_eq pre _ post rfl
  have hready : SpmReady t bytes (s₀.join e.left e.right) := by
    have hpop := h.ready.pop hq
    rw [← hs₀] at hpop
    exact ⟨hpop.inOrder, hpop.sizes, hpop.recorded⟩
  rw [← hstart] at htiled hbound
  obtain ⟨q', rev, hmerge, hready', hlen, hentries⟩ := spmMerge_spec hready
    (fun i hi => htiled i _ (adj_of_getLast? (hprev ▸ hi)))
    (fun j hj => ⟨htiled _ j (adj_of_head? (hnext ▸ hj)),
      hbound j (mem_append_right _ (mem_cons_of_mem _ (mem_of_mem_head? (hnext ▸ hj))))⟩)
    (hbound _ (mem_around.mpr (.inl rfl)))
  have htextSelf : (s₀.join e.left e.right).text bytes e.left =
      s.text bytes e.left ++ s.text bytes e.right := by
    rw [← text_pair hright, SpmState.text, hself, ← hstart]
    rfl
  have htextOther : ∀ i ∈ pre ++ post, (s₀.join e.left e.right).text bytes i = s.text bytes i := by
    intro i hi
    rw [SpmState.text, hother i (hout i hi).1 (hout i hi).2, SpmState.text, ← hstart]
    rfl
  have hqueue : s₀.queue = q := by rw [hs₀]
  rw [hqueue, hnext, hprev, hstart] at hentries
  rw [hqueue] at hlen
  rw [hmerge]
  refine ⟨pre ++ e.left :: post, ⟨hlinked, hlens, hbound, htiled, hready', ?_⟩, ?_, hstart, ?_⟩
  · change Agenda (scoreOf t) _ ((s₀.join e.left e.right).text bytes) (spmEntries bytes s₀.start q')
    rw [hstart]
    exact hagenda.merge hlive htextSelf htextOther hentries
  · rw [hq, hlive]
    simp only [length_append, length_cons]
    omega
  · exact hagenda.greedy_eq hlive htextSelf htextOther hc fun e' he' => h.ready.head_le hq he'

/-! ### The loop -/

/-- The symbols that are left. -/
def SpmState.symbols (bytes : Bytes) (s : SpmState n) : List Bytes :=
  ((List.finRange n).filter fun i => 0 < s.len i).map (s.text bytes)

theorem SpmTracks.live_eq (h : SpmTracks t bytes s live) :
    ((List.finRange n).filter fun i => 0 < s.len i) = live :=
  filter_finRange h.agenda.sorted fun i => by rw [decide_eq_true_iff, h.len_pos_iff]

theorem SpmTracks.symbols_eq (h : SpmTracks t bytes s live) :
    s.symbols bytes = live.map (s.text bytes) := by
  rw [SpmState.symbols, h.live_eq]

theorem spmLoop_nil (fuel : ℕ) (hq : s.queue = []) : s.mergeLoop t bytes fuel = some s := by
  unfold SpmState.mergeLoop
  simp only [hq]

theorem spmLoop_fresh (fuel : ℕ) (hq : s.queue = e :: q) (hfresh : s.Fresh e) :
    s.mergeLoop t bytes (fuel + 1) = SpmState.mergeLoop t bytes fuel
      (SpmState.merge t bytes e.left e.right { s with queue := q }) := by
  conv_lhs => unfold SpmState.mergeLoop
  simp only [hq, if_neg hfresh]

theorem spmLoop_stale (fuel : ℕ) (hq : s.queue = e :: q) (hstale : ¬s.Fresh e) :
    s.mergeLoop t bytes (fuel + 1) = SpmState.mergeLoop t bytes fuel { s with queue := q } := by
  conv_lhs => unfold SpmState.mergeLoop
  rw [SpmState.Fresh, not_not] at hstale
  simp only [hq, if_pos hstale]

theorem SpmTracks.done (h : SpmTracks t bytes s live) (hq : s.queue = []) :
    s.symbols bytes = greedy (scoreOf t) (s.symbols bytes) := by
  have hagenda := h.agenda
  rw [hq] at hagenda
  rw [h.symbols_eq]
  exact (Agenda.done (by simpa [spmEntries] using hagenda)).symm

/-- **The loop ends**, and leaves the symbols that are merged greedily. -/
theorem SpmTracks.mergeLoop (h : SpmTracks t bytes s live)
    (hfuel : s.queue.length + 2 * live.length ≤ fuel) :
    ∃ s' live', s.mergeLoop t bytes fuel = some s' ∧ SpmTracks t bytes s' live' ∧
      s'.symbols bytes = greedy (scoreOf t) (s.symbols bytes) := by
  induction fuel generalizing s live with
  | zero =>
    have hqueue : s.queue = [] := length_eq_zero_iff.mp (by omega)
    exact ⟨s, live, spmLoop_nil 0 hqueue, h, h.done hqueue⟩
  | succ fuel ih =>
    cases hqueue : s.queue with
    | nil => exact ⟨s, live, spmLoop_nil _ hqueue, h, h.done hqueue⟩
    | cons e q =>
      by_cases hfresh : s.Fresh e
      · obtain ⟨live₁, htracks₁, hlt, -, hgreedy⟩ := h.merge hqueue hfresh
        obtain ⟨s', live', hloop, htracks, hsymbols⟩ := ih htracks₁ (by omega)
        refine ⟨s', live', (spmLoop_fresh fuel hqueue hfresh).trans hloop, htracks, ?_⟩
        rw [hsymbols, htracks₁.symbols_eq, ← hgreedy, ← h.symbols_eq]
      · have hdrop := h.drop hqueue hfresh
        obtain ⟨s', live', hloop, htracks, hsymbols⟩ := ih hdrop (by
          rw [hqueue, length_cons] at hfuel
          change q.length + 2 * live.length ≤ fuel
          omega)
        refine ⟨s', live', (spmLoop_stale fuel hqueue hfresh).trans hloop, htracks, ?_⟩
        rw [hsymbols, hdrop.symbols_eq, h.symbols_eq]
        rfl

/-! ### The start -/

/-- The symbols of a text, and their pairs. -/
def SpmState.init (t : Tokenizer) (bytes : Bytes) (symbols : List (ℕ × ℕ)) :
    SpmState symbols.length :=
  (List.finRange symbols.length).foldl (fun s i => match BpeState.nextOf i with
    | some j => s.tryAdd t bytes i j
    | none => s)
    { start := fun i => (symbols.get i).1
      len := fun i => (symbols.get i).2
      prev := BpeState.prevOf
      next := BpeState.nextOf
      queue := []
      revMerge := ∅ }

theorem foldl_tryAdd (l : List (Fin n)) (hready : SpmReady t bytes s)
    (hpair : ∀ i j, BpeState.nextOf i = some j → s.start j = s.start i + s.len i ∧
      s.start j + s.len j ≤ bytes.length) :
    ∃ q rev, (l.foldl (fun s i => match BpeState.nextOf i with
        | some j => s.tryAdd t bytes i j
        | none => s) s) = { s with queue := q, revMerge := rev } ∧
      SpmReady t bytes { s with queue := q, revMerge := rev } ∧ q.length ≤ s.queue.length + l.length ∧
      ∀ e, e ∈ spmEntries bytes s.start q ↔ e ∈ spmEntries bytes s.start s.queue ∨
        ∃ i ∈ l, ∃ j, BpeState.nextOf i = some j ∧ e ∈ exact (scoreOf t) (s.text bytes) i j := by
  induction l generalizing s with
  | nil => exact ⟨s.queue, s.revMerge, rfl, hready, le_rfl, fun e => by simp⟩
  | cons i l ih =>
    obtain ⟨q, rev, hfirst, hready₁, hlen, hentries⟩ :=
      addAt_spec (fun _ => i) id hready fun j hj => hpair i j hj
    obtain ⟨q', rev', hrest, hready', hlen', hentries'⟩ := ih hready₁ hpair
    refine ⟨q', rev', ?_, hready', ?_, fun e => ?_⟩
    · rw [foldl_cons, ← hrest, ← hfirst]
      rfl
    · simp only at hlen'
      rw [length_cons]
      omega
    · refine (hentries' e).trans ?_
      rw [hentries, or_assoc]
      simp only [mem_cons, exists_eq_or_imp]
      rfl

theorem get_positions (chars : List Bytes) (i : Fin (positions 0 chars).length) :
    ∃ c, chars[i.val]? = some c ∧
      (positions 0 chars).get i = ((chars.take i).flatten.length, c.length) ∧
      (chars.take (i + 1)).flatten = (chars.take i).flatten ++ c := by
  have hlt : i.val < chars.length := by
    exact i.isLt.trans_eq (length_positions 0 chars)
  refine ⟨chars[i.val], getElem?_eq_getElem hlt, ?_, ?_⟩
  · have hget := positions_getElem? 0 chars i
    rw [getElem?_eq_getElem i.isLt, getElem?_eq_getElem hlt, Option.map_some,
      Nat.zero_add] at hget
    exact Option.some.inj hget
  · rw [take_add_one, flatten_append, getElem?_eq_getElem hlt]
    simp

/-- **The queue of a text** starts as an agenda of its pairs. -/
theorem SpmTracks.init (t : Tokenizer) {chars : List Bytes} (hflat : chars.flatten = bytes)
    (hne : ∀ c ∈ chars, c ≠ []) :
    SpmTracks t bytes (SpmState.init t bytes (positions 0 chars))
        (List.finRange (positions 0 chars).length) ∧
      (SpmState.init t bytes (positions 0 chars)).queue.length ≤ (positions 0 chars).length ∧
      (SpmState.init t bytes (positions 0 chars)).symbols bytes = chars := by
  obtain ⟨s, hs⟩ : ∃ s : SpmState (positions 0 chars).length, s =
      { start := fun i => ((positions 0 chars).get i).1
        len := fun i => ((positions 0 chars).get i).2
        prev := BpeState.prevOf
        next := BpeState.nextOf
        queue := []
        revMerge := ∅ } := ⟨_, rfl⟩
  have hat : ∀ i : Fin (positions 0 chars).length, ∃ c, chars[i.val]? = some c ∧
      s.start i = (chars.take i).flatten.length ∧ s.len i = c.length ∧
      (chars.take (i + 1)).flatten = (chars.take i).flatten ++ c := by
    intro i
    obtain ⟨c, hc, hget, htake⟩ := get_positions chars i
    refine ⟨c, hc, ?_, ?_, htake⟩
    · rw [hs]
      exact congrArg Prod.fst hget
    · rw [hs]
      exact congrArg Prod.snd hget
  have hbound : ∀ i, s.start i + s.len i ≤ bytes.length := by
    intro i
    obtain ⟨c, -, hstart, hlen, htake⟩ := hat i
    rw [hstart, hlen, ← length_append, ← htake, ← hflat]
    exact ((take_sublist _ _).flatten).length_le
  have htiled : ∀ i j, BpeState.nextOf i = some j → s.start j = s.start i + s.len i := by
    intro i j hj
    obtain ⟨c, -, hstart, hlen, htake⟩ := hat i
    obtain ⟨d, -, hstart', -, -⟩ := hat j
    have hval : j.val = i.val + 1 := by
      rw [BpeState.nextOf] at hj
      split at hj
      · rw [← Option.some.inj hj]
      · cases hj
    rw [hstart', hval, htake, length_append, hstart, hlen]
  have htext : ∀ i, some (s.text bytes i) = chars[i.val]? := by
    intro i
    obtain ⟨c, hc, hstart, hlen, htake⟩ := hat i
    have hsplit : bytes = (chars.take i).flatten ++ (c ++ (chars.drop (i + 1)).flatten) := by
      rw [← append_assoc, ← htake, ← flatten_append, take_append_drop, hflat]
    rw [hc, SpmState.text, hstart, hlen, hsplit, drop_left, take_left]
  have hready : SpmReady t bytes s := by
    rw [hs]
    exact ⟨List.Pairwise.nil, by simp, by simp⟩
  obtain ⟨q, rev, heq, hready', hlen, hentries⟩ := foldl_tryAdd
    (List.finRange (positions 0 chars).length) hready fun i j hj => ⟨htiled i j hj, hbound j⟩
  have hinit : SpmState.init t bytes (positions 0 chars) = { s with queue := q, revMerge := rev } := by
    rw [← heq, SpmState.init, ← hs]
    congr 1
    funext s i
    cases BpeState.nextOf i <;> rfl
  have hempty : spmEntries bytes s.start s.queue = ∅ := by
    simp [spmEntries, hs]
  have hentries : ∀ e, e ∈ spmEntries bytes s.start q ↔ ∃ i j,
      Adj (List.finRange (positions 0 chars).length) i j ∧
        e ∈ exact (scoreOf t) (s.text bytes) i j := by
    intro e
    rw [hentries, hempty]
    simp [adj_finRange]
  rw [hinit]
  have htracks : SpmTracks t bytes { s with queue := q, revMerge := rev }
      (List.finRange (positions 0 chars).length) := by
    refine ⟨?_, fun i => ?_, fun i _ => hbound i, fun i j hadj => htiled i j (adj_finRange.mp hadj),
      hready', ⟨pairwise_lt_finRange _, fun i j hadj p hp => ?_, fun e he _ _ => ?_⟩⟩
    · rw [hs]
      exact linked_finRange _
    · obtain ⟨c, hc, -, hlen, -⟩ := hat i
      refine iff_of_true ?_ (mem_finRange i)
      rw [hlen]
      exact length_pos_iff.mpr (hne c (mem_of_getElem? hc))
    · exact ⟨⟨p, i, j, s.text bytes i ++ s.text bytes j⟩,
        (hentries _).mpr ⟨i, j, hadj, hp, rfl, rfl, rfl⟩, rfl, hp, rfl, rfl, rfl⟩
    · obtain ⟨i, j, hadj, hp, rfl, rfl, hpair⟩ := (hentries e).mp he
      exact ⟨hadj, s.text bytes e.right, prefix_rfl, hp, hpair⟩
  refine ⟨htracks, ?_, ?_⟩
  · rw [hs, length_finRange] at hlen
    simpa using hlen
  · rw [htracks.symbols_eq]
    refine ext_getElem? fun k => ?_
    rw [getElem?_map]
    rcases Nat.lt_or_ge k (positions 0 chars).length with hk | hk
    · rw [getElem?_eq_getElem (by rwa [length_finRange]), getElem_finRange, ← htext ⟨k, hk⟩]
      rfl
    · rw [getElem?_eq_none (by rwa [length_finRange]), Option.map_none,
        getElem?_eq_none (by rwa [length_positions] at hk)]

/-! ### The tokens -/

/-- Appends the tokens of a symbol: the token of its text, or one for each byte. -/
def Tokenizer.spmSymbol (t : Tokenizer) (output : List ℕ) (symbol : Bytes) : Encoding (List ℕ) := do
  checkOutputLen output
  match t.textToToken symbol with
  | some id => pure (output ++ [id])
  | none =>
    let ids ← t.spmBytes symbol
    pure (output ++ ids)

theorem SpmTracks.not_recorded (h : SpmTracks t bytes s live) {text : Bytes}
    (hnone : t.textToToken text = none) : s.revMerge[text]? = none := by
  cases hrev : s.revMerge[text]? with
  | none => rfl
  | some pair =>
    have htoken := h.ready.recorded text (by rw [hrev]; rfl)
    rw [hnone] at htoken
    cases htoken

theorem SpmTracks.spmResegment (h : SpmTracks t bytes s live) (i : Fin n) (output : List ℕ) :
    t.spmResegment s bytes (n + 1) [i] output = t.spmSymbol output (s.text bytes i) := by
  have hdone : ∀ out, t.spmResegment s bytes n [] out = pure out := fun out => by
    cases n <;> rfl
  refine bind_congr fun _ => ?_
  have htext : (bytes.drop (s.start i)).take (s.len i) = s.text bytes i := rfl
  rw [htext]
  cases htoken : t.textToToken (s.text bytes i) with
  | some id =>
    simp only [htoken]
    exact hdone _
  | none =>
    simp only [htoken, h.not_recorded htoken]
    exact bind_congr fun ids => hdone _

theorem SpmTracks.spmEmit (h : SpmTracks t bytes s live) {pre post : List (Fin n)}
    (hlive : live = pre ++ post) (hfuel : post.length ≤ fuel) (output : List ℕ) :
    t.spmEmit s bytes fuel post.head? output = (post.map (s.text bytes)).foldlM t.spmSymbol output := by
  induction post generalizing pre fuel output with
  | nil => cases fuel <;> rfl
  | cons i post ih =>
    cases fuel with
    | zero => simp at hfuel
    | succ fuel =>
      rw [head?_cons, Tokenizer.spmEmit, h.spmResegment, h.linked.next_eq pre i post hlive,
        map_cons, foldlM_cons]
      exact bind_congr fun out => @ih fuel (pre ++ [i]) (by simp [hlive]) (by simpa using hfuel) out

/-- A token that stands for a byte: it is named after the byte, or its text is the byte. -/
def Tokenizer.IsByteToken (t : Tokenizer) (b : UInt8) (id : ℕ) : Prop :=
  ∃ e, t.tokens[id]? = some e ∧ (e.text.bytes =
      [0x3C, 0x30, 0x78, hexUpper (b.toNat / 16), hexUpper (b.toNat % 16), 0x3E] ∨ e.text.bytes = [b])

/-- The tokens of a symbol, each with the bytes that it stands for: one token whose text is the symbol, or
one token for each byte, where no token has this text. -/
def Tokenizer.Emits (t : Tokenizer) (symbol : Bytes) (part : List (ℕ × Bytes)) : Prop :=
  (∃ id e, part = [(id, symbol)] ∧ t.tokens[id]? = some e ∧ e.text.bytes = symbol) ∨
    (∀ e ∈ t.tokens, e.text.bytes ≠ symbol) ∧
      List.Forall₂ (fun b p => p.2 = [b] ∧ t.IsByteToken b p.1) symbol part

theorem Tokenizer.Emits.bytes_eq {symbol : Bytes} {part : List (ℕ × Bytes)} (h : t.Emits symbol part) :
    part.flatMap Prod.snd = symbol := by
  rcases h with ⟨id, e, rfl, -, -⟩ | ⟨-, h⟩
  · exact append_nil symbol
  · induction h with
    | nil => rfl
    | cons hp _ ih => rw [flatMap_cons, ih, hp.1, singleton_append]

section Emitted

variable {symbol : Bytes} {symbols : List Bytes} {id : ℕ} {ids output out : List ℕ}

theorem spmByteToken_ok (hbuilt : t.Built) {b : UInt8} (h : t.spmByteToken b = some (.ok id)) :
    t.IsByteToken b id := by
  rw [Tokenizer.spmByteToken] at h
  split at h
  · next hname =>
    obtain rfl := Except.ok.inj (Option.some.inj h)
    obtain ⟨e, he, htext⟩ := (hbuilt.lookup _ _).mp hname
    exact ⟨e, he, .inl htext⟩
  · split at h
    · next hbyte =>
      obtain rfl := Except.ok.inj (Option.some.inj h)
      obtain ⟨e, he, htext⟩ := (hbuilt.lookup _ _).mp hbyte
      exact ⟨e, he, .inr htext⟩
    · cases Option.some.inj h

theorem Encoding.bind_ok {α β : Type} {x : Encoding α} {k : α → Encoding β} {r : β}
    (h : (x >>= k) = some (.ok r)) : ∃ a, x = some (.ok a) ∧ k a = some (.ok r) := by
  cases x with
  | none => cases h
  | some v =>
    cases v with
    | error e => cases Option.some.inj h
    | ok a => exact ⟨a, rfl, h⟩

theorem spmBytes_ok (hbuilt : t.Built) (h : t.spmBytes symbol = some (.ok ids)) :
    ∃ part, ids = part.map Prod.fst ∧
      List.Forall₂ (fun b p => p.2 = [b] ∧ t.IsByteToken b p.1) symbol part := by
  induction symbol generalizing ids with
  | nil =>
    obtain rfl := Except.ok.inj (Option.some.inj h)
    exact ⟨[], rfl, .nil⟩
  | cons b l ih =>
    obtain ⟨id, hid, h⟩ := Encoding.bind_ok h
    obtain ⟨rest, hrest, h⟩ := Encoding.bind_ok h
    obtain rfl := Except.ok.inj (Option.some.inj h)
    obtain ⟨part, rfl, hpart⟩ := ih hrest
    exact ⟨(id, [b]) :: part, rfl, .cons ⟨rfl, spmByteToken_ok hbuilt hid⟩ hpart⟩

theorem spmSymbol_ok (hbuilt : t.Built) (h : t.spmSymbol output symbol = some (.ok out)) :
    ∃ part, out = output ++ part.map Prod.fst ∧ t.Emits symbol part := by
  obtain ⟨-, -, h⟩ := Encoding.bind_ok h
  split at h
  · next id hid =>
    obtain rfl := Except.ok.inj (Option.some.inj h)
    obtain ⟨e, he, htext⟩ := (hbuilt.lookup _ _).mp hid
    exact ⟨[(id, symbol)], rfl, .inl ⟨id, e, rfl, he, htext⟩⟩
  · next hnone =>
    obtain ⟨ids, hids, h⟩ := Encoding.bind_ok h
    obtain rfl := Except.ok.inj (Option.some.inj h)
    obtain ⟨part, rfl, hpart⟩ := spmBytes_ok hbuilt hids
    refine ⟨part, rfl, .inr ⟨fun e he htext => ?_, hpart⟩⟩
    obtain ⟨id, hid⟩ := getElem?_of_mem he
    rw [Tokenizer.textToToken, (hbuilt.lookup symbol id).mpr ⟨e, hid, htext⟩] at hnone
    cases hnone

theorem spmSymbols_ok (hbuilt : t.Built) (h : symbols.foldlM t.spmSymbol output = some (.ok out)) :
    ∃ parts, out = output ++ parts.flatten.map Prod.fst ∧ List.Forall₂ t.Emits symbols parts := by
  induction symbols generalizing output with
  | nil =>
    obtain rfl := Except.ok.inj (Option.some.inj h)
    exact ⟨[], (append_nil _).symm, .nil⟩
  | cons symbol rest ih =>
    obtain ⟨mid, hmid, h⟩ := Encoding.bind_ok h
    obtain ⟨part, rfl, hpart⟩ := spmSymbol_ok hbuilt hmid
    obtain ⟨parts, rfl, hparts⟩ := ih h
    refine ⟨part :: parts, ?_, .cons hpart hparts⟩
    rw [flatten_cons, map_append, append_assoc]

end Emitted

theorem tokenizeSpm_of_loop {symbols : List (ℕ × ℕ)} {s : SpmState symbols.length} {output : List ℕ}
    (hsymbols : SpmState.spans bytes.length 0 bytes = symbols)
    (h : (SpmState.init t bytes symbols).mergeLoop t bytes (3 * symbols.length) = some s) :
    t.tokenizeSpm bytes output = t.spmEmit s bytes symbols.length
      ((List.finRange symbols.length).find? fun i => decide (0 < s.len i)) output := by
  subst hsymbols
  have hfold : ∀ f, (∀ s i, f s i = match BpeState.nextOf i with
      | some j => SpmState.tryAdd t bytes i j s
      | none => s) → (List.finRange _).foldl f
        { start := fun i => ((SpmState.spans bytes.length 0 bytes).get i).1
          len := fun i => ((SpmState.spans bytes.length 0 bytes).get i).2
          prev := BpeState.prevOf
          next := BpeState.nextOf
          queue := []
          revMerge := ∅ } = SpmState.init t bytes (SpmState.spans bytes.length 0 bytes) := by
    intro f hf
    congr 1
    funext s i
    rw [hf]
    cases BpeState.nextOf i <;> rfl
  rw [Tokenizer.tokenizeSpm, hfold, h]
  · rfl
  · intro s i
    cases BpeState.nextOf i <;> rfl

end Spm

end R9v

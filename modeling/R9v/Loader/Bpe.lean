import R9v.Loader.Characters
import R9v.Loader.Stream

/-!
# Byte-level BPE is lossless

What is decoded from the tokens of a text is the text, if the bytes and the merges are
tokens (`bpe_lossless`). A text is cut at its special tokens, and nothing is lost
(`Tokenizer.partition_bytes`). The symbols of a word are linked in a list that merging
shortens; along the loop they are pieces of the word, and each of them is a token
(`Merging`, `Merging.mergeLoop`).
-/

namespace R9v

open Utf8 List

/-! ### Special tokens -/

/-- A special token of the vocabulary. -/
def Tokenizer.IsSpecial (t : Tokenizer) (id : ℕ) : Prop :=
  ∃ e : TokenEntry, t.tokens[id]? = some e ∧
    e.has (attrControl ||| attrUserDefined ||| attrUnknown) = true

/-- The bytes of a fragment. -/
def Fragment.bytes (t : Tokenizer) : Fragment → Bytes
  | .raw s => s.bytes
  | .token id => t.pieceBytes id true false

/-- The tokens among fragments are special ones. -/
def SpecialTokens (t : Tokenizer) (frags : List Fragment) : Prop :=
  ∀ id, Fragment.token id ∈ frags → t.IsSpecial id

section Partition

variable {t : Tokenizer} {needle bytes : Bytes} {id fuel : ℕ} {frags : List Fragment}

theorem pieceBytes_special {e : TokenEntry} (he : t.tokens[id]? = some e)
    (h : e.has (attrControl ||| attrUserDefined ||| attrUnknown) = true) :
    t.pieceBytes id true false = e.text.bytes := by
  have hhas : e.has (attrUnknown ||| attrControl ||| attrUserDefined) = true := h
  simp only [Tokenizer.pieceBytes, he, Tokenizer.entryBytes, hhas, Bool.not_true, Bool.false_and,
    Bool.false_eq_true, if_false, if_true]

theorem parts_of_find {m : ℕ} (hneedle : Valid needle) (hvalid : Valid bytes)
    (h : findBytes bytes needle = some m) :
    Valid (bytes.take m) ∧ Valid (bytes.drop (m + needle.length)) ∧
      bytes = bytes.take m ++ (needle ++ bytes.drop (m + needle.length)) := by
  obtain ⟨⟨r, hr⟩, hle, -⟩ := findBytes_eq_some h
  have hne : needle ≠ [] := by
    rintro rfl
    simp [findBytes] at h
  have hdrop : bytes.drop (m + needle.length) = r := by
    rw [← drop_drop, ← hr, drop_left]
  have hsplit : bytes = bytes.take m ++ (needle ++ r) := by
    conv_lhs => rw [← take_append_drop m bytes, ← hr]
  have hbefore : Valid (bytes.take m) := by
    rw [hsplit] at hvalid
    refine hvalid.left fun c r' hcons => ?_
    cases needle with
    | nil => exact absurd rfl hne
    | cons b needle =>
      rw [cons_append, List.cons.injEq] at hcons
      rw [← hcons.1]
      exact hneedle.head_not_tail
  refine ⟨hbefore, ?_, by rw [hdrop]; exact hsplit⟩
  rw [hsplit, hbefore.append_iff, hneedle.append_iff] at hvalid
  rw [hdrop]
  exact hvalid

theorem rawPart_bytes (h : Valid bytes) :
    ∃ frags, rawPart bytes = some frags ∧ frags.flatMap (Fragment.bytes t) = bytes ∧
      SpecialTokens t frags := by
  unfold rawPart
  by_cases hempty : bytes = []
  · subst hempty
    exact ⟨[], rfl, rfl, fun _ h => (by cases h)⟩
  · refine ⟨[.raw ⟨bytes, h⟩], ?_, by simp [Fragment.bytes], ?_⟩
    · simp [hempty, Str.slice, h]
    · intro i hi
      simp at hi

/-- **Cutting out a token** keeps the bytes. -/
theorem cutOut_bytes (hneedle : Valid needle) (hne : needle ≠ [])
    (hpiece : t.pieceBytes id true false = needle) (hspecial : t.IsSpecial id)
    (hvalid : Valid bytes) (hfuel : bytes.length < fuel) :
    ∃ frags, cutOut needle id fuel bytes = some frags ∧
      frags.flatMap (Fragment.bytes t) = bytes ∧ SpecialTokens t frags := by
  induction fuel generalizing bytes with
  | zero => omega
  | succ fuel ih =>
    simp only [cutOut]
    cases hfind : findBytes bytes needle with
    | none => exact rawPart_bytes hvalid
    | some m =>
      obtain ⟨hbefore, hafter, hsplit⟩ := parts_of_find hneedle hvalid hfind
      have hlen := (findBytes_eq_some hfind).2.1
      have hpos : 0 < needle.length := length_pos_iff.mpr hne
      obtain ⟨pre, hpre, hprebytes, hprespecial⟩ := @rawPart_bytes t _ hbefore
      simp only [hpre, Option.bind_eq_bind, Option.bind_some]
      by_cases hrest : bytes.drop (m + needle.length) = []
      · refine ⟨pre ++ [.token id], by simp [hrest], ?_, ?_⟩
        · rw [flatMap_append, hprebytes]
          conv_rhs => rw [hsplit, hrest]
          simp [Fragment.bytes, hpiece]
        · intro i hi
          rcases mem_append.mp hi with hi | hi
          · exact hprespecial i hi
          · simp only [mem_singleton, Fragment.token.injEq] at hi
            exact hi ▸ hspecial
      · obtain ⟨after, hcut, hbytes, hspecials⟩ := @ih (bytes.drop (m + needle.length)) hafter (by
          rw [length_drop]
          omega)
        refine ⟨pre ++ .token id :: after, by simp [hrest, hcut], ?_, ?_⟩
        · rw [flatMap_append, flatMap_cons, hprebytes, hbytes]
          conv_rhs => rw [hsplit]
          rw [Fragment.bytes, hpiece]
        · intro i hi
          rcases mem_append.mp hi with hi | hi
          · exact hprespecial i hi
          · rcases mem_cons.mp hi with hi | hi
            · rw [Fragment.token.injEq] at hi
              exact hi ▸ hspecial
            · exact hspecials i hi

theorem cutAll_bytes (hneedle : Valid needle) (hne : needle ≠ [])
    (hpiece : t.pieceBytes id true false = needle) (hspecial : t.IsSpecial id)
    (hfrags : SpecialTokens t frags) :
    ∃ frags', cutAll needle id frags = some frags' ∧
      frags'.flatMap (Fragment.bytes t) = frags.flatMap (Fragment.bytes t) ∧
      SpecialTokens t frags' := by
  induction frags with
  | nil => exact ⟨[], rfl, rfl, hfrags⟩
  | cons frag rest ih =>
    obtain ⟨rest', hrest, hbytes, hspecials⟩ := ih fun i hi => hfrags i (mem_cons_of_mem _ hi)
    obtain ⟨parts, hparts, hpbytes, hpspecials⟩ : ∃ parts, cutFragment needle id frag = some parts ∧
        parts.flatMap (Fragment.bytes t) = frag.bytes t ∧ SpecialTokens t parts := by
      cases frag with
      | token i =>
        refine ⟨[.token i], rfl, by simp, fun j hj => ?_⟩
        simp only [mem_singleton, Fragment.token.injEq] at hj
        exact hj ▸ hfrags i mem_cons_self
      | raw s => exact cutOut_bytes hneedle hne hpiece hspecial s.valid (Nat.lt_succ_self _)
    refine ⟨parts ++ rest', by simp [cutAll, hparts, hrest], ?_, ?_⟩
    · rw [flatMap_append, flatMap_cons, hpbytes, hbytes]
    · intro i hi
      rcases mem_append.mp hi with hi | hi
      · exact hpspecials i hi
      · exact hspecials i hi

theorem foldlM_partition {order : List ℕ} {parseSpecial : Bool}
    (horder : ∀ id ∈ order, t.IsSpecial id) (hfrags : SpecialTokens t frags) :
    ∃ frags', order.foldlM (t.partitionStep parseSpecial) frags = some frags' ∧
      frags'.flatMap (Fragment.bytes t) = frags.flatMap (Fragment.bytes t) ∧
      SpecialTokens t frags' := by
  induction order generalizing frags with
  | nil => exact ⟨frags, rfl, rfl, hfrags⟩
  | cons id rest ih =>
    obtain ⟨e, he, hhas⟩ := horder id mem_cons_self
    obtain ⟨mid, hmid, hbytes, hspecials⟩ : ∃ mid,
        t.partitionStep parseSpecial frags id = some mid ∧
        mid.flatMap (Fragment.bytes t) = frags.flatMap (Fragment.bytes t) ∧
        SpecialTokens t mid := by
      simp only [Tokenizer.partitionStep, he, Option.bind_eq_bind, Option.bind_some]
      split
      · exact ⟨frags, rfl, rfl, hfrags⟩
      · split
        · exact ⟨frags, rfl, rfl, hfrags⟩
        · rename_i hne
          exact cutAll_bytes e.text.valid (by simpa using hne) (pieceBytes_special he hhas)
            ⟨e, he, hhas⟩ hfrags
    obtain ⟨out, hout, hobytes, hospecials⟩ :=
      ih (fun i hi => horder i (mem_cons_of_mem _ hi)) hspecials
    exact ⟨out, by simp [foldlM_cons, hmid, hout], hobytes.trans hbytes, hospecials⟩

/-- **Cutting a text at its special tokens** keeps its bytes. -/
theorem Tokenizer.partition_bytes (hbuilt : t.Built) (text : Str) (parseSpecial : Bool) :
    ∃ frags, t.partition text parseSpecial = some frags ∧
      frags.flatMap (Fragment.bytes t) = text.bytes ∧ SpecialTokens t frags := by
  obtain ⟨frags, hfrags, hbytes, hspecials⟩ := @foldlM_partition t [.raw text] t.specialOrder
    parseSpecial hbuilt.special (by simp [SpecialTokens])
  exact ⟨frags, hfrags, by simpa [Fragment.bytes] using hbytes, hspecials⟩

end Partition

/-! ### Merging -/

/-- A text is that of both sides of a merge. -/
def Keyed (ranks : Std.ExtTreeMap (List Bytes) ℕ) (text : Bytes) : Prop :=
  ∃ l r, ranks[[l, r]]?.isSome = true ∧ text = l ++ r

/-- A text is that of a normal token. -/
def Tokenizer.HasNormal (t : Tokenizer) (piece : Bytes) : Prop :=
  ∃ e ∈ t.tokens, e.text.bytes = piece ∧ e.attr = attrNormal

/-- From `s` to `s'`, at most `k` pairs were added. -/
structure Pushed {n : ℕ} (ranks : Std.ExtTreeMap (List Bytes) ℕ) (k : ℕ) (s s' : BpeState n) :
    Prop where
  next_eq : s'.next = s.next
  alive_eq : s'.alive = s.alive
  merged_eq : s'.merged = s.merged
  length_le : s'.queue.length ≤ s.queue.length + k
  mem : ∀ e ∈ s'.queue, e ∈ s.queue ∨ Keyed ranks e.text

/-- Along the merging of a word, the symbols that are alive are linked in order, and are
pieces of the word that are tokens. -/
structure Merging {n : ℕ} (t : Tokenizer) (word : Bytes) (s : BpeState n) (live : List (Fin n)) :
    Prop where
  sorted : live.Pairwise (· < ·)
  alive_iff : ∀ i, s.alive i = true ↔ i ∈ live
  next_eq : ∀ pre i post, live = pre ++ i :: post → s.next i = post.head?
  encoded : ∀ i ∈ live, ∃ w, s.merged i = byteEncode w
  normal : ∀ i ∈ live, t.HasNormal (s.merged i)
  bytes_eq : live.flatMap (fun i => byteDecodePiece (s.merged i)) = word
  keyed : ∀ e ∈ s.queue, Keyed t.bpeRanks e.text

section Push

variable {n k k' : ℕ} {ranks : Std.ExtTreeMap (List Bytes) ℕ} {s s' s'' : BpeState n}

theorem Pushed.refl (k : ℕ) (s : BpeState n) : Pushed ranks k s s :=
  ⟨rfl, rfl, rfl, Nat.le_add_right _ _, fun _ h => Or.inl h⟩

theorem Pushed.trans (h : Pushed ranks k s s') (h' : Pushed ranks k' s' s'') :
    Pushed ranks (k + k') s s'' where
  next_eq := h'.next_eq.trans h.next_eq
  alive_eq := h'.alive_eq.trans h.alive_eq
  merged_eq := h'.merged_eq.trans h.merged_eq
  length_le := by
    have := h.length_le
    have := h'.length_le
    omega
  mem e he := by
    rcases h'.mem e he with he | hkey
    · exact h.mem e he
    · exact Or.inr hkey

theorem mem_enqueue {e e' : BpeEntry n} {q : List (BpeEntry n)} (h : e' ∈ BpeState.enqueue e q) :
    e' = e ∨ e' ∈ q := by
  induction q with
  | nil => simpa [BpeState.enqueue] using h
  | cons a q ih =>
    simp only [BpeState.enqueue] at h
    split at h
    · simpa using h
    · rcases mem_cons.mp h with rfl | h
      · exact Or.inr mem_cons_self
      · exact (ih h).imp_right (mem_cons_of_mem _)

theorem length_enqueue (e : BpeEntry n) (q : List (BpeEntry n)) :
    (BpeState.enqueue e q).length = q.length + 1 := by
  induction q with
  | nil => rfl
  | cons a q ih =>
    simp only [BpeState.enqueue]
    split
    · rfl
    · rw [length_cons, ih, length_cons]

theorem pushed_bigram (left right : Fin n) (s : BpeState n) :
    Pushed ranks 1 s (s.pushBigram ranks left right) := by
  unfold BpeState.pushBigram
  split
  · exact .refl 1 s
  · rename_i rank hrank
    refine ⟨rfl, rfl, rfl, (length_enqueue _ _).le, fun e he => ?_⟩
    rcases mem_enqueue he with rfl | he
    · exact Or.inr ⟨_, _, by rw [hrank]; rfl, rfl⟩
    · exact Or.inl he

theorem pushed_alive (s : BpeState n) (o : Option (Fin n)) (f g : Fin n → Fin n) :
    Pushed ranks 1 s (match o with
      | some p => if s.alive p then s.pushBigram ranks (f p) (g p) else s
      | none => s) := by
  cases o with
  | none => exact .refl 1 s
  | some p =>
    simp only
    split
    · exact pushed_bigram _ _ s
    · exact .refl 1 s

theorem pushed_merge (left right : Fin n) (s : BpeState n) :
    Pushed ranks 2 (s.join left right) (s.merge ranks left right) :=
  (pushed_alive _ _ id fun _ => left).trans (pushed_alive _ _ (fun _ => left) id)

theorem pushed_next (i : Fin n) (s : BpeState n) :
    Pushed ranks 1 s (match BpeState.nextOf i with
      | some j => s.pushBigram ranks i j
      | none => s) := by
  split
  · exact pushed_bigram _ _ _
  · exact .refl 1 s

theorem pushed_foldl (l : List (Fin n)) (s : BpeState n) :
    Pushed ranks l.length s (l.foldl (fun s i => match BpeState.nextOf i with
      | some j => s.pushBigram ranks i j
      | none => s) s) := by
  induction l generalizing s with
  | nil => exact .refl 0 s
  | cons i l ih =>
    rw [length_cons, Nat.add_comm]
    exact (pushed_next i s).trans (ih _)

theorem pushed_start (symbols : Fin n → Bytes) :
    ∃ s : BpeState n, s.next = BpeState.nextOf ∧ s.alive = (fun _ => true) ∧ s.merged = symbols ∧
      s.queue = [] ∧ Pushed ranks n s (BpeState.start ranks symbols) := by
  let s : BpeState n :=
    { prev := BpeState.prevOf
      next := BpeState.nextOf
      alive := fun _ => true
      merged := symbols
      queue := []
      seq := 0 }
  have hall : Pushed ranks _ s (BpeState.start ranks symbols) := pushed_foldl (List.finRange n) s
  rw [length_finRange] at hall
  exact ⟨s, rfl, rfl, rfl, rfl, hall⟩

end Push

section Merge

variable {n fuel : ℕ} {t : Tokenizer} {word : Bytes} {s s' : BpeState n} {live : List (Fin n)}
  {e : BpeEntry n} {k : ℕ}

theorem Merging.pushed (h : Merging t word s live) (hpush : Pushed t.bpeRanks k s s') :
    Merging t word s' live where
  sorted := h.sorted
  alive_iff i := by rw [hpush.alive_eq, h.alive_iff]
  next_eq pre i post hlive := by rw [hpush.next_eq, h.next_eq pre i post hlive]
  encoded i hi := by rw [hpush.merged_eq]; exact h.encoded i hi
  normal i hi := by rw [hpush.merged_eq]; exact h.normal i hi
  bytes_eq := by rw [hpush.merged_eq]; exact h.bytes_eq
  keyed e he := (hpush.mem e he).elim (h.keyed e) id

theorem Merging.join (h : Merging t word s live) {left right : Fin n} (halive : s.alive left = true)
    (hnext : s.next left = some right) (htext : t.HasNormal (s.merged left ++ s.merged right)) :
    ∃ live', Merging t word (s.join left right) live' ∧ live'.length + 1 = live.length := by
  obtain ⟨pre, post, hlive⟩ := append_of_mem ((h.alive_iff left).mp halive)
  obtain ⟨post, rfl⟩ : ∃ post', post = right :: post' := by
    have := h.next_eq pre left post hlive
    rw [hnext] at this
    cases post with
    | nil => cases this
    | cons a post' =>
      cases this
      exact ⟨post', rfl⟩
  have hsorted := h.sorted
  rw [hlive] at hsorted
  have hnodup : (pre ++ left :: right :: post).Nodup := hsorted.imp fun hlt => ne_of_lt hlt
  have hne : left ≠ right := by
    rintro rfl
    simp [nodup_append] at hnodup
  have hlost : right ∉ pre ++ left :: post := by
    simp [nodup_append] at hnodup ⊢
    grind
  have hmem : ∀ i, i ∈ live ↔ i = right ∨ i ∈ pre ++ left :: post := by
    intro i
    rw [hlive]
    simp only [mem_append, mem_cons]
    tauto
  -- the pieces of the other symbols stay
  have hkeep : ∀ i ∈ pre ++ left :: post, i ≠ left → (s.join left right).merged i = s.merged i := by
    intro i hi hi'
    have hir : i ≠ right := fun heq => hlost (heq ▸ hi)
    simp [BpeState.join, Function.update_of_ne hi', Function.update_of_ne hir]
  have hleft : (s.join left right).merged left = s.merged left ++ s.merged right := by
    simp [BpeState.join]
  refine ⟨pre ++ left :: post, ⟨?_, ?_, ?_, ?_, ?_, ?_, h.keyed⟩, ?_⟩
  · exact hsorted.sublist (by simp)
  · intro i
    by_cases hi : i = right
    · subst hi
      simpa [BpeState.join] using hlost
    · simp only [BpeState.join, Function.update_of_ne hi, h.alive_iff, hmem, hi, false_or]
  · have hright : s.next right = post.head? :=
      h.next_eq (pre ++ [left]) right post (by simp [hlive])
    have hself : (s.join left right).next left = post.head? := by
      simp [BpeState.join, hright]
    have hother : ∀ i, i ≠ left → (s.join left right).next i = s.next i := by
      intro i hi
      simp [BpeState.join, Function.update_of_ne hi]
    intro pre' i post' heq
    -- the symbol is the one on the left, or it stands before it or after it
    rcases append_eq_append_iff.mp heq with ⟨a, rfl, ha⟩ | ⟨a, rfl, ha⟩
    · cases a with
      | nil =>
        cases ha
        exact hself
      | cons b a =>
        rw [cons_append, List.cons.injEq] at ha
        obtain ⟨rfl, rfl⟩ := ha
        rw [hother i (by rintro rfl; simp [nodup_append] at hnodup)]
        exact h.next_eq (pre ++ left :: right :: a) i post' (by simp [hlive])
    · cases a with
      | nil =>
        cases ha
        exact hself
      | cons b a =>
        rw [cons_append, List.cons.injEq] at ha
        obtain ⟨rfl, rfl⟩ := ha
        rw [hother i (by rintro rfl; simp [nodup_append] at hnodup)]
        rw [h.next_eq pre' i (a ++ left :: right :: post) (by simp [hlive])]
        cases a <;> rfl
  · intro i hi
    by_cases hi' : i = left
    · subst hi'
      obtain ⟨v, hv⟩ := h.encoded i ((h.alive_iff i).mp halive)
      obtain ⟨w, hw⟩ := h.encoded right ((hmem right).mpr (Or.inl rfl))
      exact ⟨v ++ w, by rw [hleft, hv, hw, byteEncode_append]⟩
    · rw [hkeep i hi hi']
      exact h.encoded i ((hmem i).mpr (Or.inr hi))
  · intro i hi
    by_cases hi' : i = left
    · subst hi'
      rw [hleft]
      exact htext
    · rw [hkeep i hi hi']
      exact h.normal i ((hmem i).mpr (Or.inr hi))
  · obtain ⟨v, hv⟩ := h.encoded left ((h.alive_iff left).mp halive)
    obtain ⟨w, hw⟩ := h.encoded right ((hmem right).mpr (Or.inl rfl))
    have hpair : byteDecodePiece ((s.join left right).merged left) =
        byteDecodePiece (s.merged left) ++ byteDecodePiece (s.merged right) := by
      rw [hleft, hv, hw, ← byteEncode_append]
      simp only [byteDecodePiece_byteEncode]
    have hsame : ∀ l : List (Fin n), (∀ i ∈ l, i ∈ pre ++ left :: post ∧ i ≠ left) →
        l.flatMap (fun i => byteDecodePiece ((s.join left right).merged i)) =
          l.flatMap (fun i => byteDecodePiece (s.merged i)) := by
      intro l hl
      refine flatMap_congr fun i hi => ?_
      rw [hkeep i (hl i hi).1 (hl i hi).2]
    have hbytes := h.bytes_eq
    rw [hlive] at hbytes
    simp only [flatMap_append, flatMap_cons] at hbytes ⊢
    rw [hpair, hsame pre, hsame post, append_assoc]
    · exact hbytes
    · intro i hi
      exact ⟨by simp [hi], by rintro rfl; simp [nodup_append, hi] at hnodup⟩
    · intro i hi
      refine ⟨by simp [hi], ?_⟩
      rintro rfl
      exact (nodup_append.mp hnodup).2.2 i hi i mem_cons_self rfl
  · rw [hlive]
    simp only [length_append, length_cons]
    omega

/-- **The merging loop** ends, and leaves the pieces of the word. -/
theorem Merging.mergeLoop (hkeys : ∀ text, Keyed t.bpeRanks text → t.HasNormal text)
    (h : Merging t word s live) (hfuel : s.queue.length + 2 * live.length ≤ fuel) :
    ∃ s' live', s.mergeLoop t.bpeRanks fuel = some s' ∧ Merging t word s' live' := by
  -- each round takes a pair out, and a merge adds two pairs at most for a symbol that goes
  induction fuel generalizing s live with
  | zero =>
    have hnil : s.queue = [] := length_eq_zero_iff.mp (by omega)
    refine ⟨s, live, ?_, h⟩
    unfold BpeState.mergeLoop
    simp only [hnil]
  | succ fuel ih =>
    cases hqueue : s.queue with
    | nil =>
      refine ⟨s, live, ?_, h⟩
      unfold BpeState.mergeLoop
      simp only [hqueue]
    | cons e q =>
      have hpop : Merging t word { s with queue := q } live :=
        { h with keyed := fun e' he' => h.keyed e' (hqueue ▸ mem_cons_of_mem _ he') }
      rw [hqueue, length_cons] at hfuel
      unfold BpeState.mergeLoop
      simp only [hqueue]
      split
      · rename_i hfresh
        simp only [BpeState.fresh, Bool.and_eq_true, decide_eq_true_eq] at hfresh
        obtain ⟨⟨⟨⟨hleft, -⟩, hnext⟩, -⟩, htext⟩ := hfresh
        have hkey := hkeys e.text (h.keyed e (hqueue ▸ mem_cons_self))
        obtain ⟨live', hjoin, hlen⟩ := hpop.join hleft hnext (htext ▸ hkey)
        have hpush := @pushed_merge n t.bpeRanks e.left e.right { s with queue := q }
        refine ih (hjoin.pushed hpush) ?_
        have hle : _ ≤ q.length + 2 := hpush.length_le
        omega
      · refine ih hpop ?_
        simp only
        omega

theorem Tokenizer.normal_token (hbuilt : t.Built) (hkind : t.kind = .bpe) {piece : Bytes}
    (h : t.HasNormal piece) : ∃ id, t.bpePiece piece = [id] ∧ id < t.vocabSize ∧
      t.pieceBytes id true false = byteDecodePiece piece := by
  obtain ⟨e, he, rfl, hattr⟩ := h
  obtain ⟨id, hid⟩ := getElem?_of_mem he
  have hlookup : t.textToId[e.text.bytes]? = some id := (hbuilt.lookup _ _).mpr ⟨e, hid, rfl⟩
  refine ⟨id, by simp [bpePiece, textToToken, hlookup], ?_, ?_⟩
  · exact (List.getElem?_eq_some_iff.mp hid).1
  · have hspaces : t.escapeSpaces = false := by rw [hbuilt.spaces_eq, hkind]; rfl
    have hspecial : e.has (attrUnknown ||| attrControl ||| attrUserDefined) = false := by
      rw [TokenEntry.has, hattr]
      rfl
    have hnormal : e.has attrNormal = true := by
      rw [TokenEntry.has, hattr]
      rfl
    simp [pieceBytes, hid, entryBytes, hspecial, hnormal, hkind, hspaces, pieceStr, e.text.valid]

theorem Merging.bpeEmit (hbuilt : t.Built) (hkind : t.kind = .bpe) (h : Merging t word s live)
    {pre post : List (Fin n)} (hlive : live = pre ++ post) (hfuel : post.length ≤ fuel) :
    ∃ ids, t.bpeEmit s fuel post.head? = some ids ∧ (∀ id ∈ ids, id < t.vocabSize) ∧
      ids.flatMap (fun id => t.pieceBytes id true false) =
        post.flatMap (fun i => byteDecodePiece (s.merged i)) := by
  induction post generalizing pre fuel with
  | nil => exact ⟨[], by cases fuel <;> rfl, by simp, rfl⟩
  | cons i post ih =>
    cases fuel with
    | zero => simp at hfuel
    | succ fuel =>
      obtain ⟨ids, hids, hrange, hbytes⟩ := @ih fuel (pre ++ [i]) (by simp [hlive])
        (by simpa using hfuel)
      obtain ⟨id, hpiece, hlt, hid⟩ := Tokenizer.normal_token hbuilt hkind
        (h.normal i (by simp [hlive]))
      refine ⟨id :: ids, ?_, by simpa using ⟨hlt, hrange⟩, ?_⟩
      · simp [Tokenizer.bpeEmit, h.next_eq pre i post hlive, hids, hpiece]
      · rw [flatMap_cons, flatMap_cons, hid, hbytes]

theorem Merging.find (h : Merging t word s live) :
    (List.finRange n).find? s.alive = live.head? := by
  have hsorted := h.sorted
  have halive := h.alive_iff
  cases live with
  | nil =>
    rw [head?_nil, find?_eq_none]
    intro i _
    rw [halive i]
    exact not_mem_nil
  | cons i rest =>
    rw [head?_cons, find?_eq_some_iff_append]
    obtain ⟨pre, post, hsplit⟩ := append_of_mem (mem_finRange i)
    refine ⟨(halive i).mpr mem_cons_self, pre, post, hsplit, fun j hj => ?_⟩
    -- a symbol before it is not in the list, which is ascending
    have hlt : j < i := by
      have hall := pairwise_lt_finRange n
      rw [hsplit] at hall
      exact (pairwise_append.mp hall).2.2 j hj i mem_cons_self
    rw [Bool.not_eq_true', ← Bool.not_eq_true, halive j]
    intro hmem
    rcases mem_cons.mp hmem with rfl | hmem
    · exact lt_irrefl _ hlt
    · exact lt_asymm hlt (rel_of_pairwise_cons hsorted hmem)

theorem Merging.start (hbytes : ∀ b, t.HasNormal (byteEncode [b])) {symbols : List Str}
    (hsymbols : symbols.map Str.bytes = word.map image) :
    ∃ s : BpeState symbols.length,
      Merging t word s (List.finRange symbols.length) ∧ s.queue = [] ∧
      Pushed t.bpeRanks symbols.length s
        (BpeState.start t.bpeRanks fun i => (symbols.get i).bytes) := by
  obtain ⟨s, hnext, halive, hmerged, hqueue, hpush⟩ :=
    @pushed_start symbols.length t.bpeRanks fun i => (symbols.get i).bytes
  have hlen : symbols.length = word.length := by simpa using congrArg List.length hsymbols
  have hat : ∀ i : Fin symbols.length, ∃ b, s.merged i = byteEncode [b] := by
    intro i
    have hget : (symbols.map Str.bytes)[i.val]? = (word.map image)[i.val]? := by rw [hsymbols]
    rw [List.getElem?_map, List.getElem?_map, List.getElem?_eq_getElem i.isLt,
      List.getElem?_eq_getElem (hlen ▸ i.isLt)] at hget
    refine ⟨word[i.val], ?_⟩
    rw [hmerged, byteEncode_cons]
    simpa [byteEncode] using hget
  refine ⟨s, ⟨List.pairwise_lt_finRange _, ?_, ?_, ?_, ?_, ?_, by simp [hqueue]⟩, hqueue, hpush⟩
  · intro i
    simp [halive]
  · intro pre i post hsplit
    have hat' : ∀ k : ℕ, (List.finRange symbols.length)[k]? = (pre ++ i :: post)[k]? := by
      intro k
      rw [hsplit]
    have hi : i.val = pre.length := by
      have := hat' pre.length
      rw [List.getElem?_append_right le_rfl, Nat.sub_self, List.getElem?_cons_zero] at this
      obtain ⟨hlt, hget⟩ := List.getElem?_eq_some_iff.mp this
      rw [List.getElem_finRange] at hget
      exact (congrArg Fin.val hget).symm
    have hafter := hat' (pre.length + 1)
    rw [List.getElem?_append_right (by omega), Nat.add_sub_cancel_left, List.getElem?_cons_succ,
      ← List.head?_eq_getElem?] at hafter
    rw [hnext, ← hafter, BpeState.nextOf]
    split
    · rename_i hlt
      rw [List.getElem?_eq_getElem (by rw [List.length_finRange]; omega), List.getElem_finRange]
      simp [hi]
    · rw [List.getElem?_eq_none (by rw [List.length_finRange]; omega)]
  · intro i _
    obtain ⟨b, hb⟩ := hat i
    exact ⟨[b], hb⟩
  · intro i _
    obtain ⟨b, hb⟩ := hat i
    rw [hb]
    exact hbytes b
  · have hmap : (List.finRange symbols.length).flatMap (fun i => byteDecodePiece (s.merged i)) =
        (symbols.map Str.bytes).flatMap byteDecodePiece := by
      conv_rhs => rw [← List.map_get_finRange symbols]
      rw [hmerged, List.map_map, List.flatMap_map]
      rfl
    rw [hmap, hsymbols, List.flatMap_map]
    have hone : ∀ b, byteDecodePiece (image b) = [b] := by
      intro b
      have := byteDecodePiece_byteEncode [b]
      rwa [byteEncode_cons, show byteEncode [] = [] from rfl, List.append_nil] at this
    simp [hone]

/-- **The tokens of a word** are decoded to the word. -/
theorem Tokenizer.bpeWord_bytes (hbuilt : t.Built) (hkind : t.kind = .bpe)
    (hbytes : ∀ b, t.HasNormal (byteEncode [b]))
    (hkeys : ∀ text, Keyed t.bpeRanks text → t.HasNormal text) (word : Str) :
    ∃ ids, t.bpeWord word = some ids ∧ (∀ id ∈ ids, id < t.vocabSize) ∧
      ids.flatMap (fun id => t.pieceBytes id true false) = word.bytes := by
  obtain ⟨symbols, hsymbols, hmap⟩ := @symbolsOf_byteEncode word.bytes _ le_rfl
  obtain ⟨s, hstart, hqueue, hpush⟩ := Merging.start hbytes hmap
  have hfuel := hpush.length_le
  rw [hqueue, length_nil, Nat.zero_add] at hfuel
  obtain ⟨s', live, hloop, hdone⟩ := @Merging.mergeLoop _ (3 * symbols.length) _ _ _ _ hkeys
    (hstart.pushed hpush) (by rw [length_finRange]; omega)
  have hlen : live.length ≤ symbols.length := by
    have hnodup : live.Nodup := hdone.sorted.imp fun hlt => ne_of_lt hlt
    simpa using hnodup.length_le_card
  obtain ⟨ids, hemit, hrange, hall⟩ := @Merging.bpeEmit _ _ _ _ _ _ hbuilt hkind hdone [] live
    rfl hlen
  refine ⟨ids, ?_, hrange, hall.trans hdone.bytes_eq⟩
  simp only [bpeWord, hsymbols, Option.bind_eq_bind, Option.bind_some, hloop, hdone.find, hemit]

end Merge

/-! ### A whole text -/

section Text

variable {t : Tokenizer} {u : UnicodeTables} {output : List ℕ}

/-- The error of a limit on tokens or words that is exceeded. -/
def OverLimit (e : LoaderError) : Prop :=
  ∃ got, (e = .limit "encode output tokens" maxEncodeTokens got ∧ maxEncodeTokens < got) ∨
    (e = .limit "pre-tokenizer words" maxPreWords got ∧ maxPreWords < got)

/-- Some tokens have been appended that are decoded to some bytes, or a limit was
exceeded. -/
def Appends (t : Tokenizer) (r : Encoding (List ℕ)) (output : List ℕ) (bytes : Bytes) : Prop :=
  (∃ ids, r = some (.ok (output ++ ids)) ∧ (∀ id ∈ ids, id < t.vocabSize) ∧
    ids.flatMap (fun id => t.pieceBytes id true false) = bytes) ∨
  ∃ e, r = some (.error e) ∧ OverLimit e

theorem checkOutputLen_cases (output : List ℕ) :
    checkOutputLen output = some (.ok ()) ∨
      ∃ e, checkOutputLen output = some (.error e) ∧ OverLimit e := by
  unfold checkOutputLen
  split
  · rename_i h
    exact Or.inr ⟨_, rfl, _, Or.inl ⟨rfl, h⟩⟩
  · exact Or.inl rfl

theorem Appends.of_check {k : Unit → Encoding (List ℕ)} {output' : List ℕ} {bytes : Bytes}
    (h : Appends t (k ()) output bytes) :
      Appends t (checkOutputLen output' >>= k) output bytes := by
  rcases checkOutputLen_cases output' with hcheck | ⟨e, hcheck, he⟩
  · rw [hcheck]
    exact h
  · rw [hcheck]
    exact Or.inr ⟨e, rfl, he⟩

theorem Appends.bind {r : Encoding (List ℕ)} {k : List ℕ → Encoding (List ℕ)} {bytes bytes' : Bytes}
    (h : Appends t r output bytes)
    (h' : ∀ output', Appends t (k output') output' bytes') :
    Appends t (r >>= k) output (bytes ++ bytes') := by
  rcases h with ⟨ids, rfl, hrange, hbytes⟩ | ⟨e, rfl, he⟩
  · rcases h' (output ++ ids) with ⟨ids', hk, hrange', hbytes'⟩ | ⟨e, hk, he⟩
    · refine Or.inl ⟨ids ++ ids', ?_, ?_, by rw [flatMap_append, hbytes, hbytes']⟩
      · rw [← append_assoc]
        exact hk
      · intro id hid
        exact (mem_append.mp hid).elim (hrange id) (hrange' id)
    · exact Or.inr ⟨e, hk, he⟩
  · exact Or.inr ⟨e, rfl, he⟩

section Lossless

variable (hbuilt : t.Built) (hkind : t.kind = .bpe) (hbytes : ∀ b, t.HasNormal (byteEncode [b]))
  (hkeys : ∀ text, Keyed t.bpeRanks text → t.HasNormal text)
include hbuilt hkind hbytes hkeys

theorem Tokenizer.bpeWords_bytes (words : List Str) (output : List ℕ) :
    Appends t (t.bpeWords words output) output (words.flatMap Str.bytes) := by
  induction words generalizing output with
  | nil => exact Or.inl ⟨[], by rw [append_nil]; rfl, by simp, rfl⟩
  | cons word rest ih =>
    obtain ⟨ids, hword, hrange, hpieces⟩ := bpeWord_bytes hbuilt hkind hbytes hkeys word
    refine .of_check ?_
    have hone : Appends t (pure (output ++ ids)) output word.bytes :=
      Or.inl ⟨ids, rfl, hrange, hpieces⟩
    simp only [hword]
    exact hone.bind ih

theorem Tokenizer.tokenizeBpe_bytes {text : Bytes} (hvalid : Valid text) (output : List ℕ) :
    Appends t (t.tokenizeBpe u text output) output text := by
  unfold tokenizeBpe
  simp only [hbuilt.pre_eq hkind]
  split
  · rename_i hwords
    exact Or.inr ⟨_, rfl, _, Or.inr ⟨rfl, hwords⟩⟩
  · have := bpeWords_bytes hbuilt hkind hbytes hkeys (splitGpt2 u text) output
    rwa [splitGpt2_bytes hvalid] at this

theorem Tokenizer.bpeFragments_bytes {frags : List Fragment} (hfrags : SpecialTokens t frags)
    (output : List ℕ) :
    Appends t (t.bpeFragments u frags output) output (frags.flatMap (Fragment.bytes t)) := by
  induction frags generalizing output with
  | nil => exact Or.inl ⟨[], by rw [append_nil]; rfl, by simp, rfl⟩
  | cons frag rest ih =>
    have ih' := ih fun i hi => hfrags i (mem_cons_of_mem _ hi)
    rw [flatMap_cons]
    refine .of_check ?_
    cases frag with
    | token id =>
      obtain ⟨e, he, -⟩ := hfrags id mem_cons_self
      have hone : Appends t (pure (output ++ [id])) output (Fragment.bytes t (.token id)) := by
        refine Or.inl ⟨[id], rfl, ?_, by simp [Fragment.bytes]⟩
        intro i hi
        obtain rfl := mem_singleton.mp hi
        exact (List.getElem?_eq_some_iff.mp he).1
      exact hone.bind ih'
    | raw s =>
      have hspaces : t.escapeSpaces = false := by rw [hbuilt.spaces_eq, hkind]; rfl
      simp only [hspaces]
      exact (tokenizeBpe_bytes hbuilt hkind hbytes hkeys s.valid output).bind ih'

end Lossless

theorem Tokenizer.pieces_false (t : Tokenizer) (ids : List ℕ) :
    t.pieces false ids = ids.flatMap fun id => t.pieceBytes id true false := by
  induction ids with
  | nil => rfl
  | cons id ids ih => rw [Tokenizer.pieces, flatMap_cons, ih]

/-- The metadata of a tokenizer that has the 256 bytes as tokens, a merge of two of them,
and a token that ends a text. -/
def bytesKvs : List KvEntry :=
  let bytes := (List.range 256).map fun b => KvValue.str (Str.ofUtf8 (byteEncode [UInt8.ofNat b]))
  [⟨text "tokenizer.ggml.model", .str (text "gpt2")⟩,
    ⟨text "tokenizer.ggml.pre", .str (text "gpt-2")⟩,
    ⟨text "tokenizer.ggml.tokens", .array .str
      (bytes ++ [.str (text "ab"), .str (text "<|end|>")])⟩,
    ⟨text "tokenizer.ggml.token_type", .array .i32
      (List.replicate 257 (.i32 1) ++ [.i32 3])⟩,
    ⟨text "tokenizer.ggml.merges", .array .str [.str (text "a b")]⟩]

theorem TokenizerBuilder.readItems_map {α : Type} {key type : String} {item : KvValue → Option α}
    (value : α → KvValue) (hvalue : ∀ a, item (value a) = some a) (items : List α) :
    TokenizerBuilder.readItems key type item (items.map value) = .ok items := by
  induction items with
  | nil => rfl
  | cons a rest ih => rw [map_cons, TokenizerBuilder.readItems, hvalue, ih]; rfl

theorem addAll_of_nodup {scores : List UInt32} {types : List Int32} {texts : List Str}
    {v : TokenizerBuilder.Vocab} (hne : ∀ t ∈ texts, t.bytes ≠ [])
    (hnodup : (texts.map Str.bytes).Nodup) (hnew : ∀ t ∈ texts, t.bytes ∉ v.textToId) (i : ℕ) :
    (v.addAll scores types i texts).problems = v.problems ∧
      (v.addAll scores types i texts).tokens.map (fun e => (e.text.bytes, e.attr)) =
        v.tokens.map (fun e => (e.text.bytes, e.attr)) ++ (texts.zipIdx i).map fun t =>
          (t.1.bytes, TokenizerBuilder.attrOf (types.getD t.2 1)) := by
  induction texts generalizing i v with
  | nil => exact ⟨rfl, by simp [TokenizerBuilder.Vocab.addAll]⟩
  | cons t rest ih =>
    rw [map_cons, nodup_cons] at hnodup
    have hadd : v.add scores types i t =
        { v with
          tokens := v.tokens ++ [⟨t, scores.getD i 0, TokenizerBuilder.attrOf (types.getD i 1)⟩]
          textToId := v.textToId.insert t.bytes i
          maxTokenLen := max v.maxTokenLen t.bytes.length } := by
      rw [TokenizerBuilder.Vocab.add, if_neg (by simpa using hne t mem_cons_self), if_neg]
      simpa using hnew t mem_cons_self
    obtain ⟨hproblems, htokens⟩ := @ih (v.add scores types i t)
      (fun u hu => hne u (mem_cons_of_mem t hu)) hnodup.2 (fun u hu => by
        rw [hadd, Std.ExtTreeMap.mem_insert, not_or]
        refine ⟨fun heq => hnodup.1 ?_, hnew u (mem_cons_of_mem t hu)⟩
        rw [Std.LawfulEqCmp.compare_eq_iff_eq.mp heq]
        exact mem_map_of_mem hu) (i + 1)
    rw [TokenizerBuilder.Vocab.addAll]
    refine ⟨hproblems.trans (by rw [hadd]), htokens.trans ?_⟩
    rw [hadd]
    simp

/-- The texts of the tokens. -/
def bytesTexts : List Str :=
  (List.range 256).map (fun b => Str.ofUtf8 (byteEncode [UInt8.ofNat b])) ++
    [text "ab", text "<|end|>"]

theorem bytesTexts_bytes : bytesTexts.map Str.bytes =
    (List.range 256).map (fun b => byteEncode [UInt8.ofNat b]) ++ [utf8 "ab", utf8 "<|end|>"] := by
  rw [bytesTexts, map_append, map_map]
  refine congrArg₂ (· ++ ·) (map_congr_left fun b _ => ?_) rfl
  rw [Function.comp_apply, Str.ofUtf8, dif_pos (valid_byteEncode _)]

theorem bytesTexts_nodup : (bytesTexts.map Str.bytes).Nodup := by
  have hinj : ∀ v w : Bytes, byteEncode v = byteEncode w → v = w := fun v w h => by
    rw [← byteDecodePiece_byteEncode v, h, byteDecodePiece_byteEncode]
  rw [bytesTexts_bytes, nodup_append]
  refine ⟨(nodup_map_iff_inj_on nodup_range).mpr fun a ha b hb hab => ?_, by decide, ?_⟩
  · have hbyte := congrArg UInt8.toNat (singleton_inj.mp (hinj _ _ hab))
    rwa [UInt8.toNat_ofNat_of_lt' (mem_range.mp ha),
      UInt8.toNat_ofNat_of_lt' (mem_range.mp hb)] at hbyte
  · rintro _ hmem piece hpiece rfl
    obtain ⟨b, -, hb⟩ := mem_map.mp hmem
    have hlen : ∀ piece ∈ [utf8 "ab", utf8 "<|end|>"], (byteDecodePiece piece).length ≠ 1 := by
      decide
    refine hlen _ hpiece ?_
    rw [← hb, byteDecodePiece_byteEncode]
    rfl

/-- The types of the tokens. -/
def bytesTypes : List Int32 := List.replicate 257 1 ++ [3]

theorem reqStrArray_bytesKvs :
    TokenizerBuilder.reqStrArray bytesKvs "tokenizer.ggml.tokens" = .ok bytesTexts := by
  have hlook : lookupKv bytesKvs (utf8 "tokenizer.ggml.tokens") =
      some (.array .str (bytesTexts.map .str)) := by
    rw [bytesTexts, map_append, map_map]
    rfl
  rw [TokenizerBuilder.reqStrArray, TokenizerBuilder.kvStrArray, TokenizerBuilder.kvArray, hlook]
  dsimp only
  rw [if_neg (by decide), TokenizerBuilder.readItems_map KvValue.str fun _ => rfl]

theorem kvF32Array_bytesKvs :
    TokenizerBuilder.kvF32Array bytesKvs "tokenizer.ggml.scores" = (none, []) := by
  decide

theorem kvI32Array_bytesKvs : TokenizerBuilder.kvI32Array bytesKvs "tokenizer.ggml.token_type" =
    (some bytesTypes, []) := by
  have hlook : lookupKv bytesKvs (utf8 "tokenizer.ggml.token_type") =
      some (.array .i32 (bytesTypes.map .i32)) := by
    rw [bytesTypes, map_append, map_replicate]
    rfl
  rw [TokenizerBuilder.kvI32Array, TokenizerBuilder.kvArray, hlook]
  dsimp only
  rw [if_neg (by decide), TokenizerBuilder.readItems_map KvValue.i32 fun _ => rfl]

theorem zipIdx_bytesTexts : (bytesTexts.zipIdx 0).map (fun t =>
    (t.1.bytes, TokenizerBuilder.attrOf (bytesTypes.getD t.2 1))) =
      (List.range 256).map (fun b => (byteEncode [UInt8.ofNat b], attrNormal)) ++
        [(utf8 "ab", attrNormal), (utf8 "<|end|>", attrControl)] := by
  have hmap : (bytesTexts.zipIdx 0).map (fun t =>
      (t.1.bytes, TokenizerBuilder.attrOf (bytesTypes.getD t.2 1))) =
        ((bytesTexts.map Str.bytes).zipIdx 0).map fun t =>
          (t.1, TokenizerBuilder.attrOf (bytesTypes.getD t.2 1)) := by
    rw [zipIdx_map, map_map]
    rfl
  have hfront : ∀ i < 256, TokenizerBuilder.attrOf (bytesTypes.getD i 1) = attrNormal := by
    intro i hi
    rw [bytesTypes, getD_append _ _ _ _ (by rw [length_replicate]; omega),
      getD_replicate _ (by omega)]
    rfl
  rw [hmap, bytesTexts_bytes, zipIdx_append, map_append]
  refine congrArg₂ (· ++ ·) ?_ ?_
  · have hconst : ∀ t ∈ ((List.range 256).map fun b => byteEncode [UInt8.ofNat b]).zipIdx 0,
        (t.1, TokenizerBuilder.attrOf (bytesTypes.getD t.2 1)) = (t.1, attrNormal) := by
      intro t ht
      have hlt := snd_lt_of_mem_zipIdx ht
      rw [length_map, length_range] at hlt
      rw [hfront _ (by omega)]
    have hfst := zipIdx_map_fst 0 ((List.range 256).map fun b => byteEncode [UInt8.ofNat b])
    have hpair := congrArg (List.map fun bytes => (bytes, attrNormal)) hfst
    rw [map_map, map_map] at hpair
    exact (map_congr_left hconst).trans hpair
  · rw [length_map, length_range]
    decide

theorem bytesTexts_ne_nil : ∀ t ∈ bytesTexts, t.bytes ≠ [] := by
  intro t ht hnil
  have hmem := mem_map_of_mem (f := Str.bytes) ht
  rw [hnil, bytesTexts_bytes, mem_append] at hmem
  obtain hmem | hmem := hmem
  · obtain ⟨b, -, hb⟩ := mem_map.mp hmem
    have hdecoded := byteDecodePiece_byteEncode [UInt8.ofNat b]
    rw [hb] at hdecoded
    cases hdecoded
  · exact absurd hmem (by decide)

theorem TokenizerBuilder.vocabulary_eq_ok {kvs : List KvEntry} {texts : List Str}
    {types : List Int32}
    (hread : reqStrArray kvs "tokenizer.ggml.tokens" = .ok texts)
    (hscores : kvF32Array kvs "tokenizer.ggml.scores" = (none, []))
    (htypes : kvI32Array kvs "tokenizer.ggml.token_type" = (some types, []))
    (hmax : texts.length ≤ maxVocab) (hempty : texts.isEmpty = false)
    (hlen : types.length = texts.length)
    (hproblems : (({} : Vocab).addAll [] types 0 texts).problems = []) :
    vocabulary kvs = .ok (({} : Vocab).addAll [] types 0 texts) := by
  rw [vocabulary, hread]
  simp only [hscores, htypes, hlen, hempty, Nat.not_lt.mpr hmax, hproblems, bind, Except.bind,
    pure, Except.pure, Option.getD_none, Option.getD_some, isEmpty_nil, Bool.not_true,
    Bool.false_and, Bool.false_eq_true, if_false, lt_irrefl, decide_false, Bool.and_false,
    append_nil]

theorem vocabulary_bytesKvs : ∃ v, TokenizerBuilder.vocabulary bytesKvs = .ok v ∧
    v.tokens.map (fun e => (e.text.bytes, e.attr)) =
      (List.range 256).map (fun b => (byteEncode [UInt8.ofNat b], attrNormal)) ++
        [(utf8 "ab", attrNormal), (utf8 "<|end|>", attrControl)] := by
  obtain ⟨hproblems, htokens⟩ := @addAll_of_nodup [] bytesTypes bytesTexts {} bytesTexts_ne_nil
    bytesTexts_nodup (fun t _ => Std.ExtTreeMap.not_mem_empty) 0
  rw [map_nil, nil_append] at htokens
  have hlen : bytesTexts.length = 258 := by
    rw [bytesTexts, length_append, length_map, length_range]
    rfl
  have hlong : bytesTypes.length = 258 := by
    rw [bytesTypes, length_append, length_replicate]
    rfl
  have hempty : bytesTexts.isEmpty = false := by
    rw [isEmpty_eq_false_iff]
    exact ne_nil_of_length_pos (by omega)
  exact ⟨_, TokenizerBuilder.vocabulary_eq_ok reqStrArray_bytesKvs kvF32Array_bytesKvs
    kvI32Array_bytesKvs (hlen.trans_le (by decide)) hempty (hlong.trans hlen.symm) hproblems,
    htokens.trans zipIdx_bytesTexts⟩

theorem builtFrom_bytesKvs : (builtFrom bytesKvs).map (fun t =>
    (t.kind, t.tokens.map fun e => (e.text.bytes, e.attr))) =
      some (.bpe, (List.range 256).map (fun b => (byteEncode [UInt8.ofNat b], attrNormal)) ++
        [(utf8 "ab", attrNormal), (utf8 "<|end|>", attrControl)]) := by
  obtain ⟨v, hv, htokens⟩ := vocabulary_bytesKvs
  rw [builtFrom, Tokenizer.fromGguf, TokenizerBuilder.build, hv, ← htokens]
  rfl

theorem isSome_bytesKvs : (builtFrom bytesKvs).isSome = true := by
  obtain ⟨t, ht, -⟩ := Option.map_eq_some_iff.mp builtFrom_bytesKvs
  rw [ht]
  rfl

def bytesTok : Tokenizer := (builtFrom bytesKvs).get isSome_bytesKvs

theorem bytesTok_eq : bytesTok.kind = .bpe ∧
    bytesTok.tokens.map (fun e => (e.text.bytes, e.attr)) =
      (List.range 256).map (fun b => (byteEncode [UInt8.ofNat b], attrNormal)) ++
        [(utf8 "ab", attrNormal), (utf8 "<|end|>", attrControl)] := by
  obtain ⟨t, ht, hfacts⟩ := Option.map_eq_some_iff.mp builtFrom_bytesKvs
  have hget : bytesTok = t := (Option.get_of_eq_some _ ht)
  rw [hget]
  exact Prod.mk.inj hfacts

/-- Tables that know nothing. -/
def noTables : UnicodeTables :=
  { flagsOf := fun _ => 0
    isWhitespace := fun _ => false
    toLower := id
    nfdBase := id }

end Text

end R9v

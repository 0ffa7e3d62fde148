import R9v.Lib.Occurrences
import R9v.Loader.Bpe

/-!
# Special tokens

`Tokenizer.partition` cuts the special tokens out of a text, the longest first
(`r9v-loader/src/tokenizer.rs`). What is left of the text between them contains none of them, and
each of them is cut out at its leftmost occurrences in what those before it have left
(`partition_spec`).
-/

namespace R9v

open Utf8 Occurrences List

/-- The text of a token. -/
def Tokenizer.textOf (t : Tokenizer) (id : ℕ) : Bytes := t.tokens[id]?.elim [] (·.text.bytes)

/-- A special token that is cut out of a text: any, or only the ones that the user has defined. -/
def Tokenizer.Applies (t : Tokenizer) (parseSpecial : Bool) (id : ℕ) : Prop :=
  ∃ e : TokenEntry, t.tokens[id]? = some e ∧
    if parseSpecial then e.has (attrControl ||| attrUserDefined ||| attrUnknown) = true
    else e.has attrUserDefined = true

/-- A token is cut out before another one: it is longer, or as long and with a smaller id. -/
def Tokenizer.Before (t : Tokenizer) (i j : ℕ) : Prop :=
  (t.textOf j).length < (t.textOf i).length ∨ (t.textOf i).length = (t.textOf j).length ∧ i < j

namespace Fragment

/-- The text of a fragment. -/
def text (t : Tokenizer) : Fragment → Bytes
  | raw s => s.bytes
  | token id => t.textOf id

/-- Where a token has been cut out. -/
def places (t : Tokenizer) (id : ℕ) : ℕ → List Fragment → List ℕ
  | _, [] => []
  | o, raw s :: rest => places t id (o + s.bytes.length) rest
  | o, token i :: rest => (if i = id then [o] else []) ++ places t id (o + (t.textOf i).length) rest

/-- The leftmost occurrences in the texts between tokens. -/
inductive CutIn (t : Tokenizer) (needle : Bytes) : ℕ → List Fragment → List ℕ → Prop
  | nil {o : ℕ} : CutIn t needle o [] []
  | token {o i : ℕ} {rest : List Fragment} {ps : List ℕ}
      (h : CutIn t needle (o + (t.textOf i).length) rest ps) : CutIn t needle o
        (.token i :: rest) ps
  | raw {o : ℕ} {s : Str} {rest : List Fragment} {qs ps : List ℕ}
      (hs : Leftmost needle s.bytes 0 qs)
      (h : CutIn t needle (o + s.bytes.length) rest ps) :
      CutIn t needle o (.raw s :: rest) (qs.map (o + ·) ++ ps)

end Fragment

section Partition

open Fragment

variable {t : Tokenizer} {needle bytes : Bytes} {id i fuel o : ℕ} {frags frags' : List Fragment}
  {ps : List ℕ} {parseSpecial : Bool}

/-- What cutting a token out of fragments does. -/
structure CutsOut (t : Tokenizer) (id : ℕ) (frags frags' : List Fragment) : Prop where
  text_eq : frags'.flatMap (Fragment.text t) = frags.flatMap (Fragment.text t)
  raw_of : ∀ s, .raw s ∈ frags' → s.bytes ≠ [] ∧ ¬t.textOf id <:+: s.bytes ∧
    ∃ r, .raw r ∈ frags ∧ s.bytes <:+: r.bytes
  token_of : ∀ i, .token i ∈ frags' → i = id ∨ .token i ∈ frags
  others : ∀ i, i ≠ id → ∀ o, places t i o frags' = places t i o frags
  cut : .token id ∉ frags → ∀ o, CutIn t (t.textOf id) o frags (places t id o frags')

theorem places_append (o : ℕ) (frags frags' : List Fragment) : places t id o (frags ++ frags') =
    places t id o frags ++ places t id (o + (frags.flatMap (Fragment.text t)).length) frags' := by
  induction frags generalizing o with
  | nil => rfl
  | cons frag rest ih =>
    cases frag with
    | raw s =>
      rw [cons_append, places, ih, places, flatMap_cons, length_append,
        Nat.add_assoc]
      rfl
    | token i =>
      rw [cons_append, places, ih, places, flatMap_cons, length_append,
        Nat.add_assoc,
        append_assoc]
      rfl

theorem places_eq_nil (h : .token id ∉ frags) : places t id o frags = [] := by
  induction frags generalizing o with
  | nil => rfl
  | cons frag rest ih =>
    rw [mem_cons, not_or] at h
    cases frag with
    | raw s => exact ih h.2
    | token i =>
      rw [places, if_neg (fun heq : i = id => h.1 (heq ▸ rfl)), ih h.2]
      rfl

theorem rawPart_spec (h : Valid bytes) : ∃ frags, rawPart bytes = some frags ∧
    frags.flatMap (Fragment.text t) = bytes ∧ (∀ i, .token i ∉ frags) ∧
      ∀ s, .raw s ∈ frags → s.bytes ≠ [] ∧ s.bytes = bytes := by
  rw [rawPart]
  cases bytes with
  | nil => exact ⟨[], rfl, rfl, fun _ => not_mem_nil, fun _ hs => absurd hs not_mem_nil⟩
  | cons b bytes =>
    refine ⟨[.raw ⟨b :: bytes, h⟩], ?_, append_nil _, ?_, ?_⟩
    · rw [Str.slice, dif_pos h]
      rfl
    · rintro i hi
      cases mem_singleton.mp hi
    · rintro s hs
      cases mem_singleton.mp hs
      exact ⟨cons_ne_nil _ _, rfl⟩

/-- **Cutting a token out of a text**: it is cut out at its leftmost occurrences, and what is left
does not contain it. -/
theorem cutOut_spec (hvalid : Valid (t.textOf id)) (hne : t.textOf id ≠ []) (hbytes : Valid bytes)
    (hfuel : bytes.length < fuel) : ∃ frags ps, cutOut (t.textOf id) id fuel bytes = some frags ∧
      frags.flatMap (Fragment.text t) = bytes ∧ (∀ i, .token i ∈ frags → i = id) ∧
      (∀ s, .raw s ∈ frags → s.bytes ≠ [] ∧ ¬t.textOf id <:+: s.bytes ∧ s.bytes <:+: bytes) ∧
      Leftmost (t.textOf id) bytes 0 ps ∧ ∀ o, places t id o frags = ps.map (o + ·) := by
  induction fuel generalizing bytes with
  | zero => exact absurd hfuel (Nat.not_lt_zero _)
  | succ fuel ih =>
    rw [cutOut]
    cases hfind : findBytes bytes (t.textOf id) with
    | none =>
      have hnone := findBytes_eq_none hne hfind
      obtain ⟨frags, hfrags, htext, htok, hraw⟩ := @rawPart_spec t _ hbytes
      refine ⟨frags, [], hfrags, htext, fun i hi => absurd hi (htok i), fun s hs => ?_,
        .none fun p _ => hnone p, fun o => places_eq_nil (htok id)⟩
      obtain ⟨hs, rfl⟩ := hraw s hs
      refine ⟨hs, fun hin => ?_, List.infix_rfl⟩
      obtain ⟨p, hat, -⟩ := exists_at hin
      exact hnone p hat
    | some m =>
      obtain ⟨hbefore, hafter, hsplit⟩ := parts_of_find hvalid hbytes hfind
      obtain ⟨-, hle, hfirst⟩ := findBytes_eq_some hfind
      have hpos : 0 < (t.textOf id).length := List.length_pos_iff.mpr hne
      have hm : (bytes.take m).length = m := List.length_take_of_le (by omega)
      obtain ⟨pre, hpre, hpretext, hpretok, hpreraw⟩ := @rawPart_spec t _ hbefore
      -- what comes after the occurrence is cut up in the same way, if there is anything
      obtain ⟨after, ps, hrun, htext, htok, hraw, hleft, hplaces⟩ : ∃ after ps,
          (if (bytes.drop (m + (t.textOf id).length)).isEmpty then some (pre ++ [.token id])
            else (cutOut (t.textOf id) id fuel (bytes.drop (m + (t.textOf id).length))).bind
              fun after => some (pre ++ .token id :: after)) = some (pre ++ .token id :: after) ∧
          after.flatMap (Fragment.text t) = bytes.drop (m + (t.textOf id).length) ∧
          (∀ i, .token i ∈ after → i = id) ∧
          (∀ s, .raw s ∈ after → s.bytes ≠ [] ∧ ¬t.textOf id <:+: s.bytes ∧
            s.bytes <:+: bytes.drop (m + (t.textOf id).length)) ∧
          Leftmost (t.textOf id) (bytes.drop (m + (t.textOf id).length)) 0 ps ∧
          ∀ o, places t id o after = ps.map (o + ·) := by
        by_cases hempty : bytes.drop (m + (t.textOf id).length) = []
        · refine ⟨[], [], ?_, hempty.symm, fun i hi => absurd hi List.not_mem_nil,
            fun s hs => absurd hs List.not_mem_nil, .none fun p _ hat => ?_, fun o => rfl⟩
          · rw [hempty]
            rfl
          · rw [At, hempty, List.drop_nil, List.prefix_nil] at hat
            exact hne hat
        · obtain ⟨after, ps, hcut, hrest⟩ := ih hafter (by rw [List.length_drop]; omega)
          refine ⟨after, ps, ?_, hrest⟩
          rw [hcut, if_neg (by rwa [List.isEmpty_iff])]
          rfl
      have hnotin : ¬t.textOf id <:+: bytes.take m := by
        intro hin
        obtain ⟨p, hat, hp⟩ := exists_at hin
        rw [hm] at hp
        have hat' : At (t.textOf id) (bytes.take m ++ bytes.drop m) p := hat.append (by omega)
        rw [List.take_append_drop] at hat'
        exact hfirst p (by omega) hat'
      refine ⟨pre ++ .token id :: after, m :: ps.map (m + (t.textOf id).length + ·), ?_, ?_, ?_,
        ?_, ?_,
        fun o => ?_⟩
      · simp only [hpre, Option.bind_eq_bind, Option.bind_some]
        exact hrun
      · rw [List.flatMap_append, List.flatMap_cons, hpretext, htext]
        exact hsplit.symm
      · rintro i hi
        obtain hi | hi := List.mem_append.mp hi
        · exact absurd hi (hpretok i)
        · obtain hi | hi := List.mem_cons.mp hi
          · cases hi
            rfl
          · exact htok i hi
      · rintro s hs
        obtain hs | hs := List.mem_append.mp hs
        · obtain ⟨hs, hbytes⟩ := hpreraw s hs
          rw [hbytes] at hs ⊢
          exact ⟨hs, hnotin, (List.take_prefix _ _).isInfix⟩
        · obtain hs | hs := List.mem_cons.mp hs
          · cases hs
          · obtain ⟨hs, hnot, hin⟩ := hraw s hs
            exact ⟨hs, hnot, hin.trans (List.drop_suffix _ _).isInfix⟩
      · have hcons := @Leftmost.cons _ (t.textOf id) (bytes.drop (m + (t.textOf id).length))
          (bytes.take m) ps
        rw [← hsplit, hm] at hcons
        exact hcons hfirst hleft
      · rw [places_append, places_eq_nil (hpretok id), places, if_pos rfl, hplaces, hpretext, hm,
          List.nil_append, List.map_cons, List.map_map]
        refine congrArg _ (List.map_congr_left fun p _ => ?_)
        rw [Function.comp_apply, Nat.add_assoc, Nat.add_assoc, Nat.add_assoc]

theorem Fragment.CutIn.append {o : ℕ} {ps qs : List ℕ} (h : CutIn t needle o frags ps)
    (h' : CutIn t needle (o + (frags.flatMap (Fragment.text t)).length) frags' qs) :
    CutIn t needle o (frags ++ frags') (ps ++ qs) := by
  induction h with
  | nil => exact h'
  | token _ ih =>
    rw [flatMap_cons, length_append, ← Nat.add_assoc] at h'
    exact .token (ih h')
  | raw hs _ ih =>
    rw [flatMap_cons, length_append, ← Nat.add_assoc] at h'
    rw [append_assoc]
    exact .raw hs (ih h')

theorem CutsOut.nil : CutsOut t id [] [] where
  text_eq := rfl
  raw_of _ hs := absurd hs not_mem_nil
  token_of _ hi := absurd hi not_mem_nil
  others _ _ _ := rfl
  cut _ _ := .nil

theorem CutsOut.append {more more' : List Fragment} (h : CutsOut t id frags frags')
    (h' : CutsOut t id more more') : CutsOut t id (frags ++ more) (frags' ++ more') where
  text_eq := by rw [flatMap_append, flatMap_append, h.text_eq, h'.text_eq]
  raw_of s hs := by
    obtain hs | hs := mem_append.mp hs
    · obtain ⟨hne, hnot, r, hr, hin⟩ := h.raw_of s hs
      exact ⟨hne, hnot, r, mem_append_left _ hr, hin⟩
    · obtain ⟨hne, hnot, r, hr, hin⟩ := h'.raw_of s hs
      exact ⟨hne, hnot, r, mem_append_right _ hr, hin⟩
  token_of i hi := by
    obtain hi | hi := mem_append.mp hi
    · exact (h.token_of i hi).imp_right (mem_append_left _)
    · exact (h'.token_of i hi).imp_right (mem_append_right _)
  others i hi o := by
    rw [places_append, places_append, h.others i hi, h'.others i hi, h.text_eq]
  cut hnot o := by
    rw [mem_append, not_or] at hnot
    rw [places_append, h.text_eq]
    exact (h.cut hnot.1 o).append (h'.cut hnot.2 _)

theorem cutFragment_spec (hvalid : Valid (t.textOf id)) (hne : t.textOf id ≠ []) (frag : Fragment) :
    ∃ frags, cutFragment (t.textOf id) id frag = some frags ∧ CutsOut t id [frag] frags := by
  cases frag with
  | token i =>
    refine ⟨[.token i], rfl, rfl, fun s hs => ?_, fun j hj => Or.inr hj, fun _ _ _ => rfl,
      fun hnot o => ?_⟩
    · cases mem_singleton.mp hs
    · rw [places_eq_nil hnot]
      exact .token .nil
  | raw r =>
    obtain ⟨frags, ps, hcut, htext, htok, hraw, hleft, hplaces⟩ :=
      cutOut_spec hvalid hne r.valid (Nat.lt_succ_self _)
    refine ⟨frags, hcut, htext.trans (append_nil _).symm, fun s hs => ?_,
      fun i hi => Or.inl (htok i hi), fun i hi o => ?_, fun _ o => ?_⟩
    · obtain ⟨hs, hnot, hin⟩ := hraw s hs
      exact ⟨hs, hnot, r, mem_singleton_self _, hin⟩
    · rw [places_eq_nil fun hmem => hi (htok i hmem)]
      rfl
    · rw [hplaces, ← append_nil (ps.map _)]
      exact .raw hleft .nil

/-- **Cutting a token out of fragments.** -/
theorem cutAll_spec (hvalid : Valid (t.textOf id)) (hne : t.textOf id ≠ [])
    (frags : List Fragment) :
    ∃ frags', cutAll (t.textOf id) id frags = some frags' ∧ CutsOut t id frags frags' := by
  induction frags with
  | nil => exact ⟨[], rfl, .nil⟩
  | cons frag rest ih =>
    obtain ⟨rest', hrest, hcuts⟩ := ih
    obtain ⟨parts, hparts, hcuts'⟩ := cutFragment_spec hvalid hne frag
    refine ⟨parts ++ rest', ?_, hcuts'.append hcuts⟩
    rw [cutAll, hparts, hrest]
    rfl

/-! ### The order of the tokens -/

/-- What the builder makes sure of: no text is empty, a token has one attribute, and the special
tokens are in order. -/
structure Tokenizer.Ordered (t : Tokenizer) : Prop where
  nonempty : ∀ e ∈ t.tokens, e.text.bytes ≠ []
  attr : ∀ e ∈ t.tokens, ∃ type, e.attr = TokenizerBuilder.attrOf type
  order : t.specialOrder = TokenizerBuilder.specialOrder t.tokens

namespace TokenizerBuilder

variable {scores : List UInt32} {types : List Int32} {text : Str} {texts : List Str} {v : Vocab}
  {kvs : List KvEntry} {e : TokenEntry}

theorem Vocab.mem_add (h : e ∈ (v.add scores types i text).tokens) :
    e ∈ v.tokens ∨ e.text.bytes ≠ [] ∧ ∃ type, e.attr = attrOf type := by
  rw [add] at h
  split_ifs at h with hempty hnew
  · exact Or.inl h
  · exact Or.inl h
  · obtain h | h := mem_append.mp h
    · exact Or.inl h
    · cases mem_singleton.mp h
      exact Or.inr ⟨fun heq => hempty (isEmpty_iff.mpr heq), _, rfl⟩

theorem Vocab.mem_addAll (h : e ∈ (Vocab.addAll scores types i texts v).tokens) :
    e ∈ v.tokens ∨ e.text.bytes ≠ [] ∧ ∃ type, e.attr = attrOf type := by
  induction texts generalizing i v with
  | nil => exact Or.inl h
  | cons text rest ih => exact (ih h).elim mem_add Or.inr

theorem ordered (h : Tokenizer.fromGguf kvs = .ok t) : t.Ordered := by
  rw [Tokenizer.fromGguf, build] at h
  obtain ⟨⟨model, kind⟩, -, h⟩ := Checked.bind_eq_ok.mp h
  obtain ⟨pre, -, h⟩ := Checked.bind_eq_ok.mp h
  obtain ⟨v, hvocab, h⟩ := Checked.bind_eq_ok.mp h
  obtain ⟨ranks, -, h⟩ := Checked.bind_eq_ok.mp h
  simp only [bind, Except.bind, throw, throwThe, MonadExceptOf.throw, pure, Except.pure] at h
  obtain ⟨-, h⟩ | ⟨-, h⟩ := ite_eq_iff.mp h
  · cases h
  cases h
  have htokens : ∀ e ∈ v.tokens, e.text.bytes ≠ [] ∧ ∃ type, e.attr = attrOf type := by
    rw [vocabulary] at hvocab
    obtain ⟨texts, -, h⟩ := Checked.bind_eq_ok.mp hvocab
    simp only [bind, Except.bind, throw, throwThe, MonadExceptOf.throw, pure, Except.pure] at h
    split_ifs at h
    cases h
    rintro e he
    exact (Vocab.mem_addAll he).resolve_left not_mem_nil
  exact ⟨fun e he => (htokens e he).1, fun e he => (htokens e he).2, rfl⟩

end TokenizerBuilder

theorem Tokenizer.textOf_eq {e : TokenEntry} (he : t.tokens[id]? = some e) :
    t.textOf id = e.text.bytes := by
  rw [textOf, he]
  rfl

theorem TokenizerBuilder.attrOf_mem (type : Int32) : attrOf type ∈
    [attrUnknown, attrUnused, attrNormal, attrControl, attrUserDefined, attrByte, 0] := by
  rw [attrOf]
  split_ifs <;> simp only [mem_cons, true_or, or_true]

theorem TokenEntry.has_userDefined {e : TokenEntry} {type : Int32}
    (h : e.attr = TokenizerBuilder.attrOf type) : e.has attrUserDefined = true ↔
      e.has (attrControl ||| attrUserDefined ||| attrUnknown) = true ∧
        e.has (attrControl ||| attrUnknown) = false := by
  have hall : ∀ a ∈ [attrUnknown, attrUnused, attrNormal, attrControl, attrUserDefined,
    attrByte, 0],
      (a &&& attrUserDefined != 0) = true ↔
        (a &&& (attrControl ||| attrUserDefined ||| attrUnknown) != 0) = true ∧
          (a &&& (attrControl ||| attrUnknown) != 0) = false := by decide
  rw [has, has, has, h]
  exact hall _ (TokenizerBuilder.attrOf_mem type)

/-- The special tokens that a partition passes over are those that do not apply. -/
theorem Tokenizer.Ordered.applies_iff (h : t.Ordered) {e : TokenEntry}
    (he : t.tokens[id]? = some e) :
    t.Applies parseSpecial id ↔ e.has (attrControl ||| attrUserDefined ||| attrUnknown) = true ∧
      (!parseSpecial && e.has (attrControl ||| attrUnknown)) = false := by
  obtain ⟨type, htype⟩ := h.attr e (mem_of_getElem? he)
  have hiff : t.Applies parseSpecial id ↔ if parseSpecial then
      e.has (attrControl ||| attrUserDefined ||| attrUnknown) = true
      else e.has attrUserDefined = true := by
    constructor
    · rintro ⟨e', he', hhas⟩
      rw [he] at he'
      cases he'
      exact hhas
    · exact fun hhas => ⟨e, he, hhas⟩
  rw [hiff]
  cases parseSpecial with
  | true => exact (and_iff_left rfl).symm
  | false =>
    rw [if_neg Bool.false_ne_true, TokenEntry.has_userDefined htype, Bool.not_false, Bool.true_and]

theorem Tokenizer.Ordered.mono (h : t.Ordered)
    (ha : t.Applies parseSpecial id) : t.Applies true id := by
  have ⟨e, he, _⟩ := ha
  exact ⟨e, he, ((h.applies_iff he).mp ha).1⟩

theorem Tokenizer.Ordered.textOf_valid (h : t.Ordered) (ha : t.Applies parseSpecial id) :
    Valid (t.textOf id) ∧ t.textOf id ≠ [] := by
  obtain ⟨e, he, -⟩ := ha
  rw [textOf_eq he]
  exact ⟨e.text.valid, h.nonempty e (mem_of_getElem? he)⟩

theorem Tokenizer.Ordered.mem_order (h : t.Ordered) : id ∈ t.specialOrder ↔ t.Applies true id := by
  rw [h.order, TokenizerBuilder.specialOrder, (perm_insertionSort _ _).mem_iff,
    mem_filter,
    mem_range]
  constructor
  · rintro ⟨hlt, hhas⟩
    rw [getElem?_eq_getElem hlt] at hhas
    exact ⟨_, getElem?_eq_getElem hlt, hhas⟩
  · rintro ⟨e, he, hhas⟩
    rw [he]
    exact ⟨(List.getElem?_eq_some_iff.mp he).1, hhas⟩

theorem Tokenizer.before_iff : TokenizerBuilder.specialLe t.tokens i id ↔ t.Before i id ∨
    i = id := by
  have hlen : ∀ j, t.tokens[j]?.elim 0 (·.text.bytes.length) = (t.textOf j).length := by
    intro j
    rw [textOf]
    cases t.tokens[j]? <;> rfl
  change t.tokens[id]?.elim 0 (·.text.bytes.length) < t.tokens[i]?.elim 0 (·.text.bytes.length) ∨
    t.tokens[i]?.elim 0 (·.text.bytes.length) = t.tokens[id]?.elim 0 (·.text.bytes.length) ∧
      i ≤ id ↔ _
  rw [hlen, hlen, Before]
  constructor
  · omega
  · rintro ((h | h) | rfl)
    · exact Or.inl h
    · exact Or.inr ⟨h.1, h.2.le⟩
    · exact Or.inr ⟨rfl, le_rfl⟩

/-- **The special tokens are in order.** -/
theorem Tokenizer.Ordered.pairwise (h : t.Ordered) : t.specialOrder.Pairwise t.Before := by
  have htotal : Std.Total (TokenizerBuilder.specialLe t.tokens) := ⟨fun i j => by
    rw [before_iff, before_iff, Before, Before]
    omega⟩
  have htrans : IsTrans ℕ (TokenizerBuilder.specialLe t.tokens) := ⟨fun i j k hij hjk => by
    rw [before_iff, Before] at hij hjk ⊢
    rcases hij with hij | rfl
    · rcases hjk with hjk | rfl <;> omega
    · exact hjk⟩
  have hnodup : t.specialOrder.Nodup := by
    rw [h.order, TokenizerBuilder.specialOrder, (perm_insertionSort _ _).nodup_iff]
    exact nodup_range.filter _
  rw [List.Nodup, h.order] at hnodup
  have hsorted := pairwise_insertionSort (TokenizerBuilder.specialLe t.tokens)
    ((List.range t.tokens.length).filter fun id =>
      t.tokens[id]?.any (·.has (attrControl ||| attrUserDefined ||| attrUnknown)))
  rw [h.order]
  refine (hsorted.and hnodup).imp ?_
  rintro i j ⟨hle, hne⟩
  exact (before_iff.mp hle).resolve_right hne

/-! ### Partitions -/

theorem Tokenizer.Ordered.step (h : t.Ordered) (hid : t.Applies true id) (parseSpecial : Bool)
    (frags : List Fragment) : ∃ mid, t.partitionStep parseSpecial frags id = some mid ∧
      (t.Applies parseSpecial id ∧ CutsOut t id frags mid ∨ ¬t.Applies parseSpecial id ∧
        mid = frags) := by
  obtain ⟨hvalid, hne⟩ := h.textOf_valid hid
  have ⟨e, he, hspecial⟩ := hid
  rw [if_pos rfl] at hspecial
  have hiff : t.Applies parseSpecial id ↔ _ := h.applies_iff he
  have hempty : e.text.bytes.isEmpty = false := by
    rw [isEmpty_eq_false_iff, ← textOf_eq he]
    exact hne
  simp only [partitionStep, he, Option.bind_eq_bind, Option.bind_some, hempty, Bool.false_eq_true,
    if_false]
  by_cases hskip : (!parseSpecial && e.has (attrControl ||| attrUnknown)) = true
  · refine ⟨frags, if_pos hskip, Or.inr ⟨fun ha => ?_, rfl⟩⟩
    rw [(hiff.mp ha).2] at hskip
    cases hskip
  · obtain ⟨mid, hcut, hcuts⟩ := cutAll_spec hvalid hne frags
    rw [textOf_eq he] at hcut
    refine ⟨mid, ?_, Or.inl ⟨hiff.mpr ⟨hspecial, Bool.eq_false_iff.mpr hskip⟩, hcuts⟩⟩
    rw [if_neg hskip]
    exact hcut

/-- What cutting some tokens out of fragments, one after the other, does. -/
structure CutsAll (t : Tokenizer) (parseSpecial : Bool) (order : List ℕ)
    (frags frags' : List Fragment) :
    Prop where
  text_eq : frags'.flatMap (Fragment.text t) = frags.flatMap (Fragment.text t)
  raw_of : ∀ s, .raw s ∈ frags' → (∃ r, .raw r ∈ frags ∧ s.bytes <:+: r.bytes) ∧
    (s.bytes = [] → .raw s ∈ frags) ∧
    ∀ i ∈ order, t.Applies parseSpecial i → ¬t.textOf i <:+: s.bytes
  token_of : ∀ i, .token i ∈ frags' → i ∈ order ∧ t.Applies parseSpecial i ∨ .token i ∈ frags
  others : ∀ i, i ∉ order → ∀ o, places t i o frags' = places t i o frags
  cut : ∀ i ∈ order, t.Applies parseSpecial i → ∃ mid,
    (order.takeWhile (· ≠ i)).foldlM (t.partitionStep parseSpecial) frags = some mid ∧
      ∀ o, CutIn t (t.textOf i) o mid (places t i o frags')

/-- **Cutting tokens out one after the other**, by induction on their order. -/
theorem Tokenizer.Ordered.cutsAll (h : t.Ordered) {order : List ℕ} (hnodup : order.Nodup)
    (horder : ∀ i ∈ order, t.Applies true i ∧ .token i ∉ frags) :
    ∃ frags', order.foldlM (t.partitionStep parseSpecial) frags = some frags' ∧
      CutsAll t parseSpecial order frags frags' := by
  induction order generalizing frags with
  | nil =>
    refine ⟨frags, rfl, rfl, fun s hs => ?_, fun i hi => Or.inr hi, fun _ _ _ => rfl,
      fun i hi => absurd hi not_mem_nil⟩
    exact ⟨⟨s, hs, infix_rfl⟩, fun _ => hs, fun i hi => absurd hi not_mem_nil⟩
  | cons id rest ih =>
    obtain ⟨hid, hrest⟩ := forall_mem_cons.mp horder
    obtain ⟨hnot, hnodup⟩ := nodup_cons.mp hnodup
    obtain ⟨mid, hstep, hcase⟩ := h.step hid.1 parseSpecial frags
    have htok : ∀ i ∈ rest, t.Applies true i ∧ .token i ∉ mid := by
      rintro i hi
      refine ⟨(hrest i hi).1, fun hmem => ?_⟩
      obtain ⟨-, hcuts⟩ | ⟨-, rfl⟩ := hcase
      · obtain rfl | hmem := hcuts.token_of i hmem
        · exact hnot hi
        · exact (hrest i hi).2 hmem
      · exact (hrest i hi).2 hmem
    obtain ⟨frags', hfold, hall⟩ := ih hnodup htok
    have hrun : ∀ l, (id :: l).foldlM (t.partitionStep parseSpecial) frags =
        l.foldlM (t.partitionStep parseSpecial) mid := by
      intro l
      rw [foldlM_cons, hstep]
      rfl
    have htake : ∀ i ∈ rest, (id :: rest).takeWhile (· ≠ i) = id :: rest.takeWhile (· ≠ i) := by
      rintro i hi
      exact takeWhile_cons_of_pos (decide_eq_true fun heq => hnot (heq ▸ hi))
    refine ⟨frags', (hrun rest).trans hfold, ?_⟩
    obtain ⟨happlies, hcuts⟩ | ⟨hskip, rfl⟩ := hcase
    · refine ⟨hall.text_eq.trans hcuts.text_eq, fun s hs => ?_, fun i hi => ?_, fun i hi o => ?_,
        fun i hi ha => ?_⟩
      · obtain ⟨⟨r, hr, hin⟩, hempty, hnone⟩ := hall.raw_of s hs
        obtain ⟨-, hcut, r', hr', hin'⟩ := hcuts.raw_of r hr
        refine ⟨⟨r', hr', hin.trans hin'⟩, fun hs => absurd hs (hcuts.raw_of s (hempty hs)).1,
          forall_mem_cons.mpr ⟨fun _ hid => hcut (hid.trans hin), hnone⟩⟩
      · obtain ⟨hi, ha⟩ | hi := hall.token_of i hi
        · exact Or.inl ⟨mem_cons_of_mem _ hi, ha⟩
        · obtain rfl | hi := hcuts.token_of i hi
          · exact Or.inl ⟨mem_cons_self, happlies⟩
          · exact Or.inr hi
      · rw [mem_cons, not_or] at hi
        rw [hall.others i hi.2, hcuts.others i hi.1]
      · obtain rfl | hi := mem_cons.mp hi
        · refine ⟨frags, ?_, fun o => ?_⟩
          · rw [takeWhile_cons_of_neg (by simp)]
            rfl
          · rw [hall.others i hnot]
            exact hcuts.cut hid.2 o
        · obtain ⟨mid', hmid, hcut⟩ := hall.cut i hi ha
          exact ⟨mid', by rw [htake i hi, hrun, hmid], hcut⟩
    · refine ⟨hall.text_eq, fun s hs => ?_, fun i hi => ?_, fun i hi o => ?_, fun i hi ha => ?_⟩
      · obtain ⟨hr, hempty, hnone⟩ := hall.raw_of s hs
        exact ⟨hr, hempty, forall_mem_cons.mpr ⟨fun ha => absurd ha hskip, hnone⟩⟩
      · exact (hall.token_of i hi).imp_left fun ⟨hi, ha⟩ => ⟨mem_cons_of_mem _ hi, ha⟩
      · rw [mem_cons, not_or] at hi
        exact hall.others i hi.2 o
      · obtain rfl | hi := mem_cons.mp hi
        · exact absurd ha hskip
        · obtain ⟨mid', hmid, hcut⟩ := hall.cut i hi ha
          exact ⟨mid', by rw [htake i hi, hrun, hmid], hcut⟩

theorem Tokenizer.Before.irrefl (t : Tokenizer) (i : ℕ) : ¬t.Before i i := by
  rw [Before]
  omega

theorem Tokenizer.Ordered.mem_takeWhile (h : t.Ordered) (hid : t.Applies true id) :
    i ∈ t.specialOrder.takeWhile (· ≠ id) ↔ t.Applies true i ∧ t.Before i id := by
  obtain ⟨pre, post, hsplit⟩ := append_of_mem (h.mem_order.mpr hid)
  have hpairwise := h.pairwise
  rw [hsplit, pairwise_append, pairwise_cons] at hpairwise
  obtain ⟨-, ⟨hpost, -⟩, hpre⟩ := hpairwise
  have htake : t.specialOrder.takeWhile (· ≠ id) = pre := by
    rw [hsplit, takeWhile_append_of_pos, takeWhile_cons_of_neg (by simp), append_nil]
    rintro j hj
    refine decide_eq_true fun heq => Before.irrefl t id ?_
    exact hpre id (heq ▸ hj) id mem_cons_self
  rw [htake, ← h.mem_order, hsplit]
  constructor
  · exact fun hi => ⟨mem_append_left _ hi, hpre i hi id mem_cons_self⟩
  · rintro ⟨hi, hbefore⟩
    obtain hi | hi := mem_append.mp hi
    · exact hi
    · obtain rfl | hi := mem_cons.mp hi
      · exact absurd hbefore (Before.irrefl t _)
      · have := hpost i hi
        rw [Before] at this hbefore
        omega

theorem Tokenizer.Ordered.foldlM_skip (h : t.Ordered) {order : List ℕ}
    (horder : ∀ i ∈ order, t.Applies true i ∧ ¬t.Applies parseSpecial i) :
    order.foldlM (t.partitionStep parseSpecial) frags = some frags := by
  induction order with
  | nil => rfl
  | cons id rest ih =>
    obtain ⟨hid, hrest⟩ := forall_mem_cons.mp horder
    obtain ⟨mid, hstep, ⟨ha, -⟩ | ⟨-, rfl⟩⟩ := h.step hid.1 parseSpecial frags
    · exact absurd ha hid.2
    · rw [foldlM_cons, hstep]
      exact ih hrest

/-- **Special tokens are cut out of a text**: the fragments make up the text, no text between them
is empty or contains a special token, and each token is cut out at exactly its leftmost occurrences
in what those before it have left; the first one, at its leftmost occurrences in the text. -/
theorem partition_spec (kvs : List KvEntry) (t : Tokenizer)
    (hbuilt : Tokenizer.fromGguf kvs = .ok t)
    (text : Str) (hne : text.bytes ≠ []) (parseSpecial : Bool) :
    ∃ frags, t.partition text parseSpecial = some frags ∧
      frags.flatMap (Fragment.text t) = text.bytes ∧
      (∀ s, .raw s ∈ frags → s.bytes ≠ [] ∧ ∀ id, t.Applies parseSpecial id →
        ¬t.textOf id <:+: s.bytes) ∧
      (∀ id, .token id ∈ frags → t.Applies parseSpecial id) ∧
      (∀ id, t.Applies parseSpecial id → ∃ (before : List ℕ) (mid : List Fragment),
        before.Pairwise t.Before ∧
        (∀ i, i ∈ before ↔ t.Applies true i ∧ t.Before i id) ∧
        before.foldlM (t.partitionStep parseSpecial) [.raw text] = some mid ∧
        CutIn t (t.textOf id) 0 mid (places t id 0 frags)) ∧
      ∀ id, t.Applies parseSpecial id →
        (∀ i, t.Applies parseSpecial i → i ≠ id → t.Before id i) →
        Leftmost (t.textOf id) text.bytes 0 (places t id 0 frags) := by
  have h := TokenizerBuilder.ordered hbuilt
  have hnodup : t.specialOrder.Nodup := by
    refine h.pairwise.imp ?_
    rintro i _ hbefore rfl
    exact Tokenizer.Before.irrefl t i hbefore
  have hraw : ∀ i, .token i ∉ [Fragment.raw text] := fun i hi => by cases mem_singleton.mp hi
  obtain ⟨frags, hfold, hall⟩ : ∃ frags, t.partition text parseSpecial = some frags ∧
      CutsAll t parseSpecial t.specialOrder [.raw text] frags :=
    h.cutsAll hnodup fun i hi => ⟨h.mem_order.mp hi, hraw i⟩
  have hcut : ∀ id, t.Applies parseSpecial id → ∃ mid,
      (t.specialOrder.takeWhile (· ≠ id)).foldlM (t.partitionStep parseSpecial)
        [.raw text] = some mid ∧
        CutIn t (t.textOf id) 0 mid (places t id 0 frags) := by
    rintro id ha
    obtain ⟨mid, hmid, hcut⟩ := hall.cut id (h.mem_order.mpr (h.mono ha)) ha
    exact ⟨mid, hmid, hcut 0⟩
  refine ⟨frags, hfold, hall.text_eq.trans (append_nil _), fun s hs => ?_, fun i hi => ?_,
    fun id ha => ?_, fun id ha hfirst => ?_⟩
  · obtain ⟨-, hempty, hnone⟩ := hall.raw_of s hs
    refine ⟨fun hs => hne ?_, fun id ha => hnone id (h.mem_order.mpr (h.mono ha)) ha⟩
    cases mem_singleton.mp (hempty hs)
    exact hs
  · obtain ⟨-, ha⟩ | hi := hall.token_of i hi
    · exact ha
    · exact absurd hi (hraw i)
  · obtain ⟨mid, hmid, hcut⟩ := hcut id ha
    exact ⟨_, mid, h.pairwise.sublist (takeWhile_sublist _), fun i => h.mem_takeWhile
      (h.mono ha),
      hmid, hcut⟩
  · obtain ⟨mid, hmid, hcut⟩ := hcut id ha
    have hskip : ∀ i ∈ t.specialOrder.takeWhile (· ≠ id), t.Applies true i ∧
      ¬t.Applies parseSpecial i := by
      rintro i hi
      obtain ⟨hi, hbefore⟩ := (h.mem_takeWhile (h.mono ha)).mp hi
      refine ⟨hi, fun hi => ?_⟩
      have hne : i ≠ id := fun heq => Tokenizer.Before.irrefl t id (heq ▸ hbefore)
      have hafter := hfirst i hi hne
      rw [Tokenizer.Before] at hafter hbefore
      omega
    rw [h.foldlM_skip hskip] at hmid
    obtain rfl := Option.some.inj hmid
    generalize places t id 0 frags = ps at hcut ⊢
    cases hcut with
    | raw hs hnil =>
      cases hnil
      simpa using hs

/-- The metadata of a tokenizer with two special tokens that overlap. -/
def overlapKvs : List KvEntry :=
  [⟨R9v.text "tokenizer.ggml.model", .str (R9v.text "llama")⟩,
    ⟨R9v.text "tokenizer.ggml.tokens", .array .str [.str (R9v.text "ab"), .str (R9v.text "ba")]⟩,
    ⟨R9v.text "tokenizer.ggml.token_type", .array .i32 [.i32 3, .i32 3]⟩]

def overlapTok : Tokenizer := (builtFrom overlapKvs).get (by decide)

theorem fromGguf_overlapKvs : Tokenizer.fromGguf overlapKvs = .ok overlapTok :=
  fromGguf_of_some (by rw [overlapTok, Option.some_get])

/-- Of two tokens of one length that overlap in a text, only the one with the smaller id is cut out
of it. -/
theorem partition_overlap : ¬∀ (kvs : List KvEntry) (t : Tokenizer), Tokenizer.fromGguf kvs =
    .ok t →
    ∀ text : Str, text.bytes ≠ [] → ∀ parseSpecial, ∃ frags,
      t.partition text parseSpecial = some frags ∧ ∀ id, t.Applies parseSpecial id →
        (∀ i, t.Applies parseSpecial i → (t.textOf i).length ≤ (t.textOf id).length) →
        Leftmost (t.textOf id) text.bytes 0 (places t id 0 frags) := by
  intro hall
  obtain ⟨frags, hfrags, hplaces⟩ :=
    hall overlapKvs overlapTok fromGguf_overlapKvs (R9v.text "aba") (by decide +kernel) true
  have hcut : (overlapTok.partition (R9v.text "aba") true).map (places overlapTok 1 0) = some
    [] := by
    decide +kernel
  rw [hfrags] at hcut
  have hspecial : overlapTok.tokens[1]?.any
      (·.has (attrControl ||| attrUserDefined ||| attrUnknown)) = true := by decide +kernel
  have happlies : overlapTok.Applies true 1 := by
    rw [Option.any_eq_true] at hspecial
    exact hspecial
  have hlen : ∀ e ∈ overlapTok.tokens, e.text.bytes.length ≤ (overlapTok.textOf 1).length := by
    decide +kernel
  have hleft := hplaces 1 happlies ?_
  · rw [Option.some.inj hcut] at hleft
    cases hleft with
    | none hnone => exact hnone 1 (Nat.zero_le _) (by rw [At]; decide +kernel)
  · rintro i ⟨e, he, -⟩
    rw [Tokenizer.textOf_eq he]
    exact hlen e (mem_of_getElem? he)

theorem partition_spec_overlap : ∃ frags, overlapTok.partition (R9v.text "aba") true = some frags ∧
      frags.flatMap (Fragment.text overlapTok) = (R9v.text "aba").bytes ∧
      (∀ s, .raw s ∈ frags → s.bytes ≠ [] ∧
        ∀ id, overlapTok.Applies true id → ¬overlapTok.textOf id <:+: s.bytes) ∧
      (∀ id, .token id ∈ frags → overlapTok.Applies true id) ∧
      (∀ id, overlapTok.Applies true id → ∃ (before : List ℕ) (mid : List Fragment),
        before.Pairwise overlapTok.Before ∧
        (∀ i, i ∈ before ↔ overlapTok.Applies true i ∧ overlapTok.Before i id) ∧
        before.foldlM (overlapTok.partitionStep true) [.raw (R9v.text "aba")] = some mid ∧
        CutIn overlapTok (overlapTok.textOf id) 0 mid (places overlapTok id 0 frags)) ∧
      ∀ id, overlapTok.Applies true id →
        (∀ i, overlapTok.Applies true i → i ≠ id → overlapTok.Before id i) →
        Leftmost (overlapTok.textOf id) (R9v.text "aba").bytes 0 (places overlapTok id 0 frags) :=
  partition_spec overlapKvs overlapTok fromGguf_overlapKvs (R9v.text "aba") (by decide +kernel) true

end Partition

end R9v

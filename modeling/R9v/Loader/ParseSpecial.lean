import R9v.Loader.Partition
import R9v.Loader.Spm

/-!
# Texts without special tokens

Whether the control and unknown tokens are looked for (`parse_special` of
`r9v-loader/src/tokenizer.rs`) makes no difference to a text in which none occurs, but for the
empty text: looking for any token drops the one empty fragment that it has, and that fragment
is given a space before it, or asks for the unknown token (`encode_parseSpecial`).
-/

namespace R9v

open Utf8 Occurrences List

section Partition

variable {t : Tokenizer} {needle bytes : Bytes} {id : ℕ} {frags : List Fragment}
  {parseSpecial : Bool} {text : Str}

theorem findBytes_of_not_infix (h : ¬needle <:+: bytes) : findBytes bytes needle = none := by
  cases hfind : findBytes bytes needle with
  | none => rfl
  | some m =>
    obtain ⟨hat, -⟩ := findBytes_eq_some hfind
    exact absurd ( At.infix hat) h

theorem cutAll_of_not_infix
    (h : ∀ s, .raw s ∈ frags → s.bytes ≠ [] ∧ ¬needle <:+: s.bytes) :
    cutAll needle id frags = some frags := by
  induction frags with
  | nil => rfl
  | cons frag rest ih =>
    have hfrag : cutFragment needle id frag = some [frag] := by
      cases frag with
      | token i => rfl
      | raw s =>
        obtain ⟨hne, hnot⟩ := h s List.mem_cons_self
        rw [cutFragment, cutOut, findBytes_of_not_infix hnot]
        rw [rawPart, if_neg (by rwa [List.isEmpty_iff]), Str.slice, dif_pos s.valid]
        rfl
    rw [cutAll, hfrag, ih fun s hs => h s (List.mem_cons_of_mem _ hs)]
    rfl

theorem cutAll_nil_raw (hne : needle ≠ []) (hempty : text.bytes = []) :
    cutAll needle id [.raw text] = some [] := by
  have hnot : ¬needle <:+: text.bytes := by
    rw [hempty, infix_nil]
    exact hne
  rw [cutAll, cutFragment, cutOut, findBytes_of_not_infix hnot]
  rw [hempty]
  rfl

theorem Tokenizer.Ordered.partitionStep_applies (h : t.Ordered) (ha : t.Applies parseSpecial id)
    (frags : List Fragment) :
    t.partitionStep parseSpecial frags id = cutAll (t.textOf id) id frags := by
  obtain ⟨-, hne⟩ := h.textOf_valid ha
  have ⟨e, he, _⟩ := ha
  have hskip := ((h.applies_iff he).mp ha).2
  rw [textOf_eq he] at hne ⊢
  rw [partitionStep, he]
  simp only [Option.bind_eq_bind, Option.bind_some, hskip, Bool.false_eq_true, if_false]
  exact if_neg (by rwa [List.isEmpty_iff])

theorem Tokenizer.Ordered.partitionStep_skip (h : t.Ordered) (hid : t.Applies true id)
    (ha : ¬t.Applies parseSpecial id) (frags : List Fragment) :
    t.partitionStep parseSpecial frags id = some frags := by
  obtain ⟨mid, hstep, ⟨happlies, -⟩ | ⟨-, rfl⟩⟩ := h.step hid parseSpecial frags
  · exact absurd happlies ha
  · exact hstep

/-- Steps over fragments of which none is empty or has a control or unknown token in it. -/
theorem Tokenizer.Ordered.foldlM_eq (h : t.Ordered) {order : List ℕ}
    (horder : ∀ id ∈ order, t.Applies true id)
    (hraw : ∀ s, .raw s ∈ frags → s.bytes ≠ [] ∧
      ∀ id, t.Applies true id → ¬t.Applies false id → ¬t.textOf id <:+: s.bytes) :
    order.foldlM (t.partitionStep true) frags = order.foldlM (t.partitionStep false) frags := by
  induction order generalizing frags with
  | nil => rfl
  | cons id rest ih =>
    obtain ⟨hid, hrest⟩ := forall_mem_cons.mp horder
    by_cases ha : t.Applies false id
    · obtain ⟨hvalid, hne⟩ := h.textOf_valid ha
      obtain ⟨mid, hcut, hcuts⟩ := cutAll_spec hvalid hne frags
      rw [foldlM_cons, foldlM_cons, h.partitionStep_applies hid,
        h.partitionStep_applies ha, hcut]
      refine ih hrest fun s hs => ?_
      obtain ⟨hempty, -, r, hr, hin⟩ := hcuts.raw_of s hs
      exact ⟨hempty, fun i hi hi' hin' => (hraw r hr).2 i hi hi' (hin'.trans hin)⟩
    · rw [foldlM_cons, foldlM_cons, h.partitionStep_applies hid,
        h.partitionStep_skip hid ha,
        cutAll_of_not_infix fun s hs => ⟨(hraw s hs).1, (hraw s hs).2 id hid ha⟩]
      exact ih hrest hraw

/-- **A text with something in it** is cut in one way. -/
theorem Tokenizer.Ordered.partition_eq (h : t.Ordered) (hne : text.bytes ≠ [])
    (hnone : ∀ id, t.Applies true id → ¬t.Applies false id → ¬t.textOf id <:+: text.bytes) :
    t.partition text true = t.partition text false := by
  refine h.foldlM_eq (fun id hid => h.mem_order.mp hid) fun s hs => ?_
  cases mem_singleton.mp hs
  exact ⟨hne, hnone⟩

theorem Tokenizer.Ordered.foldlM_empty (h : t.Ordered) (hempty : text.bytes = []) {order : List ℕ}
    (horder : ∀ id ∈ order, t.Applies true id) :
    order.foldlM (t.partitionStep parseSpecial) [] = some [] ∧
      ((∃ id ∈ order, t.Applies parseSpecial id) →
        order.foldlM (t.partitionStep parseSpecial) [.raw text] = some []) := by
  induction order with
  | nil => exact ⟨rfl, fun ⟨id, hid, _⟩ => absurd hid not_mem_nil⟩
  | cons id rest ih =>
    obtain ⟨hid, hrest⟩ := forall_mem_cons.mp horder
    obtain ⟨hnil, hraw⟩ := ih hrest
    by_cases ha : t.Applies parseSpecial id
    · rw [foldlM_cons, foldlM_cons, h.partitionStep_applies ha,
        h.partitionStep_applies ha, cutAll_nil_raw (h.textOf_valid ha).2 hempty]
      exact ⟨hnil, fun _ => hnil⟩
    · rw [foldlM_cons, foldlM_cons, h.partitionStep_skip hid ha,
        h.partitionStep_skip hid ha]
      refine ⟨hnil, fun ⟨i, hi, hi'⟩ => hraw ?_⟩
      obtain rfl | hi := mem_cons.mp hi
      · exact absurd hi' ha
      · exact ⟨i, hi, hi'⟩

/-- **The empty text** has one fragment as long as no token is looked for, and then none. -/
theorem Tokenizer.Ordered.partition_empty (h : t.Ordered) (hempty : text.bytes = []) :
    ((∃ id, t.Applies parseSpecial id) → t.partition text parseSpecial = some []) ∧
      ((∀ id, ¬t.Applies parseSpecial id) →
        t.partition text parseSpecial = some [.raw text]) := by
  have horder : ∀ id ∈ t.specialOrder, t.Applies true id := fun id hid => h.mem_order.mp hid
  constructor
  · rintro ⟨id, hid⟩
    exact (h.foldlM_empty hempty horder).2 ⟨id, h.mem_order.mpr (h.mono hid), hid⟩
  · exact fun hnone => h.foldlM_skip fun id hid => ⟨horder id hid, hnone id⟩

end Partition

/-! ### The empty text -/

section Empty

variable {t : Tokenizer} {u : UnicodeTables} {text : Str} {output : List ℕ}

theorem tokenizeBpe_nil (h : t.pre = .gpt2) : t.tokenizeBpe u [] output = pure output := by
  rw [Tokenizer.tokenizeBpe, h]
  rfl

theorem tokenizeSpm_space : t.tokenizeSpm spaceMark output = t.spmSymbol output spaceMark := by
  have hspans : SpmState.spans spaceMark.length 0 spaceMark = [(0, 3)] := by decide
  rw [tokenizeSpm_of_loop hspans rfl]
  change (t.spmResegment _ spaceMark 2 [0] output >>= pure) = _
  rw [bind_pure, Tokenizer.spmResegment, Tokenizer.spmSymbol]
  have htext : (spaceMark.drop ((SpmState.init t spaceMark [(0, 3)]).start 0)).take
      ((SpmState.init t spaceMark [(0, 3)]).len 0) = spaceMark := rfl
  cases htoken : t.textToToken spaceMark with
  | some id => simp only [htext, htoken]; rfl
  | none => simp only [htext, htoken]; rfl

theorem checkOutputLen_small (h : output.length ≤ 5) : checkOutputLen output = pure () := by
  rw [checkOutputLen, if_neg]
  have : maxEncodeTokens = 16777216 := rfl
  omega

/-- The tokens before a text, but for WordPiece. -/
def Tokenizer.opening (t : Tokenizer) (addSpecial : Bool) : Encoding (List ℕ) :=
  if addSpecial && t.addBos then (do return [← t.requireBos]) else pure []

/-- The tokens after a text, but for WordPiece. -/
def Tokenizer.closing (t : Tokenizer) (addSpecial : Bool) (output : List ℕ) : Encoding (List ℕ) :=
  if addSpecial && t.addEos then (do return output ++ [← t.requireEos]) else return output

def noIdError (message : String) : LoaderError := .tokenizerMeta [message]

theorem require_cases (id : Option ℕ) (message : String) :
    id = none ∧ Tokenizer.require id message = throw (noIdError message) ∨
      ∃ i, id = some i ∧ Tokenizer.require id message = pure i := by
  cases id with
  | none => exact Or.inl ⟨rfl, rfl⟩
  | some i => exact Or.inr ⟨i, rfl, rfl⟩

theorem Tokenizer.opening_cases (t : Tokenizer) (addSpecial : Bool) :
    (addSpecial = true ∧ t.addBos = true ∧ t.bosId = none) ∧
        (∃ e, t.opening addSpecial = throw e) ∨
      ¬(addSpecial = true ∧ t.addBos = true ∧ t.bosId = none) ∧
        ∃ output, output.length ≤ 1 ∧ t.opening addSpecial = pure output := by
  rw [opening, requireBos]
  by_cases h : (addSpecial && t.addBos) = true
  · have hboth := Bool.and_eq_true_iff.mp h
    rw [if_pos h]
    rcases require_cases t.bosId "encode with add_special requires a BOS id but none is defined"
      with ⟨hnone, heq⟩ | ⟨i, hsome, heq⟩
    · exact Or.inl ⟨⟨hboth.1, hboth.2, hnone⟩, _, by rw [heq]; rfl⟩
    · refine Or.inr ⟨fun hn => ?_, [i], le_rfl, by rw [heq]; rfl⟩
      rw [hsome] at hn
      cases hn.2.2
  · rw [if_neg h]
    exact Or.inr ⟨fun hn => h (Bool.and_eq_true_iff.mpr ⟨hn.1, hn.2.1⟩), [], Nat.zero_le _, rfl⟩

theorem Tokenizer.closing_cases (t : Tokenizer) (addSpecial : Bool) :
    (addSpecial = true ∧ t.addEos = true ∧ t.eosId = none) ∧ (∀ output, t.closing addSpecial output =
        throw (noIdError "encode with add_special requires an EOS id but none is defined")) ∨
      ¬(addSpecial = true ∧ t.addEos = true ∧ t.eosId = none) ∧
        ∃ tail, tail.length ≤ 1 ∧ ∀ output, t.closing addSpecial output = pure (output ++ tail) := by
  simp only [closing, requireEos]
  by_cases h : (addSpecial && t.addEos) = true
  · have hboth := Bool.and_eq_true_iff.mp h
    simp only [if_pos h]
    rcases require_cases t.eosId "encode with add_special requires an EOS id but none is defined"
      with ⟨hnone, heq⟩ | ⟨i, hsome, heq⟩
    · exact Or.inl ⟨⟨hboth.1, hboth.2, hnone⟩, fun output => by rw [heq]; rfl⟩
    · refine Or.inr ⟨fun hn => ?_, [i], le_rfl, fun output => by rw [heq]; rfl⟩
      rw [hsome] at hn
      cases hn.2.2
  · simp only [if_neg h]
    exact Or.inr ⟨fun hn => h (Bool.and_eq_true_iff.mpr ⟨hn.1, hn.2.1⟩), [], Nat.zero_le _,
      fun output => by rw [append_nil]⟩

/-- A byte has a token: the one that is named after it, or the one of the byte itself. -/
def Tokenizer.HasByte (t : Tokenizer) (b : UInt8) : Prop :=
  t.textToToken [0x3C, 0x30, 0x78, hexUpper (b.toNat / 16), hexUpper (b.toNat % 16), 0x3E] ≠ none ∨
    t.textToToken [b] ≠ none

theorem spmByteToken_cases (t : Tokenizer) (b : UInt8) :
    t.HasByte b ∧ (∃ id, t.spmByteToken b = pure id) ∨ ¬t.HasByte b ∧ ∃ digits, t.spmByteToken b =
      throw (noIdError ("SPM vocabulary has no byte token for 0x" ++ digits)) := by
  rw [Tokenizer.HasByte, Tokenizer.spmByteToken]
  cases t.textToToken [0x3C, 0x30, 0x78, Tokenizer.hexUpper (b.toNat / 16),
    Tokenizer.hexUpper (b.toNat % 16), 0x3E] with
  | some id => exact Or.inl ⟨Or.inl (Option.some_ne_none id), id, rfl⟩
  | none =>
    cases t.textToToken [b] with
    | some id => exact Or.inl ⟨Or.inr (Option.some_ne_none id), id, rfl⟩
    | none => exact Or.inr ⟨fun h => h.elim (· rfl) (· rfl), _, rfl⟩

theorem spmBytes_cases (t : Tokenizer) (l : Bytes) :
    (∀ b ∈ l, t.HasByte b) ∧ (∃ ids, ids.length = l.length ∧ t.spmBytes l = pure ids) ∨
      (¬∀ b ∈ l, t.HasByte b) ∧ ∃ digits, t.spmBytes l =
        throw (noIdError ("SPM vocabulary has no byte token for 0x" ++ digits)) := by
  induction l with
  | nil => exact Or.inl ⟨fun b hb => absurd hb not_mem_nil, [], rfl, rfl⟩
  | cons b l ih =>
    rw [forall_mem_cons, Tokenizer.spmBytes]
    rcases spmByteToken_cases t b with ⟨hb, id, hid⟩ | ⟨hb, digits, hid⟩
    · rw [hid, pure_bind]
      rcases ih with ⟨hl, ids, hlen, hids⟩ | ⟨hl, digits, hids⟩
      · exact Or.inl ⟨⟨hb, hl⟩, id :: ids, congrArg (· + 1) hlen, by rw [hids]; rfl⟩
      · exact Or.inr ⟨fun h => hl h.2, digits, by rw [hids]; rfl⟩
    · exact Or.inr ⟨fun h => hb h.1, digits, by rw [hid]; rfl⟩

/-- The mark of a space can be tokenized. -/
def Tokenizer.HasSpace (t : Tokenizer) : Prop :=
  t.textToToken spaceMark ≠ none ∨ ∀ b ∈ spaceMark, t.HasByte b

theorem spmSymbol_space_cases (h : output.length ≤ 5) :
    t.HasSpace ∧ (∃ ids, ids ≠ [] ∧ ids.length ≤ 3 ∧
        t.spmSymbol output spaceMark = pure (output ++ ids)) ∨
      ¬t.HasSpace ∧ ∃ digits, t.spmSymbol output spaceMark =
        throw (noIdError ("SPM vocabulary has no byte token for 0x" ++ digits)) := by
  rw [Tokenizer.HasSpace, Tokenizer.spmSymbol, checkOutputLen_small h, pure_bind]
  cases t.textToToken spaceMark with
  | some id => exact Or.inl ⟨Or.inl (Option.some_ne_none id), [id], cons_ne_nil _ _,
      Nat.le_add_left 1 2, rfl⟩
  | none =>
    rcases spmBytes_cases t spaceMark with ⟨hall, ids, hlen, hids⟩ | ⟨hall, digits, hids⟩
    · refine Or.inl ⟨Or.inr hall, ids, fun hnil => ?_, hlen.le, by rw [hids]; rfl⟩
      rw [hnil] at hlen
      cases hlen
    · exact Or.inr ⟨fun hs => hs.elim (· rfl) hall, digits, by rw [hids]; rfl⟩

/-- Encoding what a text has been cut into. -/
def Tokenizer.encodeFragments (t : Tokenizer) (u : UnicodeTables) (addSpecial : Bool)
    (frags : List Fragment) : Encoding (List ℕ) := do
  let output ← match t.kind with
    | .sentencePiece => t.encodeSpm frags addSpecial
    | .bpe => t.encodeBpe u frags addSpecial
    | .wordPiece => t.encodeWpm u frags addSpecial
  checkOutputLen output
  return output

theorem Tokenizer.encode_eq {parseSpecial addSpecial : Bool} {frags : List Fragment}
    (hlen : text.bytes.length ≤ maxEncodeBytes) (h : t.partition text parseSpecial = some frags) :
    t.encode u text addSpecial parseSpecial = t.encodeFragments u addSpecial frags := by
  rw [encode, if_neg (Nat.not_lt.mpr hlen), h]
  rfl

theorem encodeFragments_bpe (hbuilt : t.Built) (hkind : t.kind = .bpe) (hempty : text.bytes = [])
    (addSpecial : Bool) : t.encodeFragments u addSpecial [.raw text] =
      t.encodeFragments u addSpecial [] := by
  have hfrags : ∀ output, output.length ≤ 1 → t.bpeFragments u [.raw text] output = pure output := by
    intro output hlen
    have hraw : (if t.escapeSpaces then escapeSpacesStr text.bytes else text.bytes) = [] := by
      rw [hempty]
      split <;> rfl
    rw [Tokenizer.bpeFragments, checkOutputLen_small (by omega), pure_bind]
    simp only [hraw, tokenizeBpe_nil (hbuilt.pre_eq hkind), pure_bind]
    rfl
  have hopen : ∀ frags, t.encodeBpe u frags addSpecial = t.opening addSpecial >>= fun output =>
      t.bpeFragments u frags output >>= t.closing addSpecial := by
    intro frags
    rw [Tokenizer.encodeBpe, Tokenizer.opening]
    cases addSpecial && t.addBos
    · rfl
    · rfl
  rw [Tokenizer.encodeFragments, Tokenizer.encodeFragments, hkind]
  simp only [hopen]
  rcases t.opening_cases addSpecial with ⟨-, e, he⟩ | ⟨-, output, hlen, ho⟩
  · rw [he]
    rfl
  · rw [ho, pure_bind, pure_bind, hfrags output hlen]
    rfl

theorem spmFragments_empty (hempty : text.bytes = []) (hlen : output.length ≤ 1) :
    t.spmFragments [.raw text] true output =
      if t.addSpacePrefix then t.spmSymbol output spaceMark else pure output := by
  rw [Tokenizer.spmFragments, checkOutputLen_small (by omega), pure_bind]
  simp only [hempty, Bool.and_true, append_nil]
  cases t.addSpacePrefix with
  | false => rfl
  | true =>
    have hspace : escapeSpacesStr (if true = true then [0x20] else []) = spaceMark := by decide
    rw [hspace, tokenizeSpm_space, if_pos rfl]
    exact bind_pure _

theorem message_ne (digits : String) :
    noIdError ("SPM vocabulary has no byte token for 0x" ++ digits) ≠
      noIdError "encode with add_special requires an EOS id but none is defined" := by
  intro h
  have hmsg := (List.cons.inj (LoaderError.tokenizerMeta.inj h)).1
  have hhead := congrArg (fun s : String => s.toList.head?) hmsg
  exact absurd hhead (by simp)

theorem encodeFragments_spm (hkind : t.kind = .sentencePiece) (hempty : text.bytes = [])
    (addSpecial : Bool) :
    t.encodeFragments u addSpecial [.raw text] = t.encodeFragments u addSpecial [] ↔
      ¬(t.addSpacePrefix = true ∧ ¬(addSpecial = true ∧ t.addBos = true ∧ t.bosId = none) ∧
        ¬((addSpecial = true ∧ t.addEos = true ∧ t.eosId = none) ∧ t.HasSpace)) := by
  have hopen : ∀ frags, t.encodeSpm frags addSpecial = t.opening addSpecial >>= fun output =>
      t.spmFragments frags true output >>= t.closing addSpecial := by
    intro frags
    rw [Tokenizer.encodeSpm, Tokenizer.opening]
    cases addSpecial && t.addBos
    · rfl
    · rfl
  rw [Tokenizer.encodeFragments, Tokenizer.encodeFragments, hkind]
  simp only [hopen]
  rcases t.opening_cases addSpecial with ⟨hbos, e, he⟩ | ⟨hbos, output, hlen, ho⟩
  · rw [he]
    exact iff_of_true rfl fun h => h.2.1 hbos
  rw [ho, pure_bind, pure_bind, spmFragments_empty hempty hlen]
  have hnil : t.spmFragments [] true output = pure output := rfl
  rw [hnil]
  by_cases hpre : t.addSpacePrefix = true
  · rw [if_pos hpre, pure_bind]
    rcases @spmSymbol_space_cases t output (by omega) with
      ⟨hspace, ids, hne, hids, hsymbol⟩ | ⟨hspace, digits, hsymbol⟩ <;>
    rcases t.closing_cases addSpecial with ⟨heos, hclose⟩ | ⟨heos, tail, htail, hclose⟩
    · rw [hsymbol, pure_bind, hclose, hclose]
      exact iff_of_true rfl fun h => h.2.2 ⟨heos, hspace⟩
    · -- the tokens of the space are there in the one case only
      rw [hsymbol, pure_bind, hclose, hclose, pure_bind, pure_bind,
        checkOutputLen_small (by simp only [length_append]; omega),
        checkOutputLen_small (by simp only [length_append]; omega)]
      refine iff_of_false (fun h => ?_) fun h => h ⟨hpre, hbos, fun h => heos h.1⟩
      have hout := congrArg List.length (Except.ok.inj (Option.some.inj h))
      have hpos := length_pos_iff.mpr hne
      simp only [length_append] at hout
      omega
    · rw [hsymbol, hclose]
      refine iff_of_false (fun h => ?_) fun h => h ⟨hpre, hbos, fun h => hspace h.2⟩
      exact message_ne digits (Except.error.inj (Option.some.inj h))
    · rw [hsymbol, hclose, pure_bind,
        checkOutputLen_small (by simp only [length_append]; omega)]
      refine iff_of_false (fun h => ?_) fun h => h ⟨hpre, hbos, fun h => heos h.1⟩
      cases Option.some.inj h
  · rw [if_neg hpre]
    exact iff_of_true rfl fun h => hpre h.1

theorem encodeWpm_eq (t : Tokenizer) (u : UnicodeTables) (addSpecial : Bool) :
    ∃ (start : Encoding (List ℕ)) (stop : List ℕ → Encoding (List ℕ)),
      (∀ frags, t.encodeWpm u frags addSpecial =
        start >>= fun output => t.wpmFragments u frags output >>= stop) ∧
      ((addSpecial = true ∧ t.bosId = none) ∧ (∃ e, start = throw e) ∨
        ¬(addSpecial = true ∧ t.bosId = none) ∧ ∃ output, output.length ≤ 1 ∧ start = pure output) ∧
      ∀ output, (∃ tail, tail.length ≤ 1 ∧ stop output = pure (output ++ tail)) ∨ stop output =
        throw (noIdError "encode with add_special requires a SEP id but none is defined") := by
  cases addSpecial with
  | false =>
    refine ⟨pure [], pure, fun _ => rfl, Or.inr ⟨fun h => Bool.false_ne_true h.1, [], Nat.zero_le _,
      rfl⟩, fun output => Or.inl ⟨[], Nat.zero_le _, by rw [append_nil]⟩⟩
  | true =>
    refine ⟨do return [← t.requireBos], fun output => do return output ++ [← t.requireSep],
      fun _ => rfl, ?_, fun output => ?_⟩
    · rw [Tokenizer.requireBos]
      rcases require_cases t.bosId "encode with add_special requires a BOS id but none is defined"
        with ⟨hnone, heq⟩ | ⟨i, hsome, heq⟩
      · exact Or.inl ⟨⟨rfl, hnone⟩, _, by rw [heq]; rfl⟩
      · refine Or.inr ⟨fun hn => ?_, [i], le_rfl, by rw [heq]; rfl⟩
        rw [hsome] at hn
        cases hn.2
    · rw [Tokenizer.requireSep]
      rcases require_cases t.sepId "encode with add_special requires a SEP id but none is defined"
        with ⟨-, heq⟩ | ⟨i, -, heq⟩
      · exact Or.inr (by rw [heq]; rfl)
      · exact Or.inl ⟨[i], le_rfl, by rw [heq]; rfl⟩

theorem encodeFragments_wpm (hkind : t.kind = .wordPiece) (hempty : text.bytes = [])
    (addSpecial : Bool) :
    t.encodeFragments u addSpecial [.raw text] = t.encodeFragments u addSpecial [] ↔
      ¬(t.unkId = none ∧ ¬(addSpecial = true ∧ t.bosId = none)) := by
  have hfrags : ∀ output, output.length ≤ 1 → t.wpmFragments u [.raw text] output =
      t.requireUnk >>= fun _ => pure output := by
    intro output hlen
    have hwords : t.wpmPreprocess u [] = [] := by
      rw [Tokenizer.wpmPreprocess]
      cases t.stripAccents <;> rfl
    rw [Tokenizer.wpmFragments, checkOutputLen_small (by omega), pure_bind]
    simp only [hempty, hwords]
    rfl
  have hnil : ∀ output, t.wpmFragments u [] output = pure output := fun _ => rfl
  obtain ⟨start, stop, hform, hstart, hstop⟩ := encodeWpm_eq t u addSpecial
  rw [Tokenizer.encodeFragments, Tokenizer.encodeFragments, hkind]
  simp only [hform]
  rcases hstart with ⟨hbos, e, rfl⟩ | ⟨hbos, output, hlen, rfl⟩
  · exact iff_of_true rfl fun h => h.2 hbos
  rw [pure_bind, pure_bind, hfrags output hlen, hnil, pure_bind, Tokenizer.requireUnk]
  rcases require_cases t.unkId "tokenizer requires an UNK id but none is defined" with
    ⟨hunk, hreq⟩ | ⟨unk, hunk, hreq⟩
  · rw [hreq]
    refine iff_of_false (fun h => ?_) fun h => h ⟨hunk, hbos⟩
    rcases hstop output with ⟨tail, htail, hs⟩ | hs
    · rw [hs, pure_bind, checkOutputLen_small (by simp only [length_append]; omega)] at h
      cases Option.some.inj h
    · rw [hs] at h
      have hmsg := LoaderError.tokenizerMeta.inj (Except.error.inj (Option.some.inj h))
      exact absurd (List.cons.inj hmsg).1 (by decide)
  · rw [hreq, pure_bind, pure_bind]
    refine iff_of_true rfl fun h => ?_
    rw [hunk] at h
    cases h.1

/-- The empty text is encoded in two ways: some special tokens are looked for in it only together
with the control and unknown ones, and the fragment that is dropped then would have been given a
space, or would have asked for the unknown token. -/
def Tokenizer.EmptyDiffers (t : Tokenizer) (addSpecial : Bool) : Prop :=
  ((∃ id, t.Applies true id) ∧ ∀ id, ¬t.Applies false id) ∧
    match t.kind with
    | .bpe => False
    | .sentencePiece =>
      t.addSpacePrefix = true ∧ ¬(addSpecial = true ∧ t.addBos = true ∧ t.bosId = none) ∧
        ¬((addSpecial = true ∧ t.addEos = true ∧ t.eosId = none) ∧ t.HasSpace)
    | .wordPiece => t.unkId = none ∧ ¬(addSpecial = true ∧ t.bosId = none)

theorem encodeFragments_empty (hbuilt : t.Built) (hempty : text.bytes = []) (addSpecial : Bool)
    (h : (∃ id, t.Applies true id) ∧ ∀ id, ¬t.Applies false id) :
    t.encodeFragments u addSpecial [.raw text] = t.encodeFragments u addSpecial [] ↔
      ¬t.EmptyDiffers addSpecial := by
  rw [Tokenizer.EmptyDiffers, and_iff_right h]
  cases hkind : t.kind with
  | bpe => exact iff_of_true (encodeFragments_bpe hbuilt hkind hempty addSpecial) id
  | sentencePiece => exact encodeFragments_spm hkind hempty addSpecial
  | wordPiece => exact encodeFragments_wpm hkind hempty addSpecial

end Empty

/-- **Looking for control and unknown tokens** makes no difference to a text in which none occurs
if and only if the text is not empty, or is encoded in one way. -/
theorem encode_parseSpecial (kvs : List KvEntry) (t : Tokenizer)
    (hbuilt : Tokenizer.fromGguf kvs = .ok t) (u : UnicodeTables) (text : Str) (addSpecial : Bool)
    (hnone : ∀ e ∈ t.tokens, e.has (attrControl ||| attrUnknown) = true →
      ¬e.text.bytes <:+: text.bytes) :
    t.encode u text addSpecial true = t.encode u text addSpecial false ↔
      ¬(text.bytes = [] ∧ t.EmptyDiffers addSpecial) := by
  have h := TokenizerBuilder.ordered hbuilt
  by_cases hlong : maxEncodeBytes < text.bytes.length
  · -- a text that is too long is refused before it is cut
    have hrefused : ∀ parseSpecial, t.encode u text addSpecial parseSpecial =
        throw (.limit "encode input bytes" maxEncodeBytes text.bytes.length) := by
      intro parseSpecial
      rw [Tokenizer.encode, if_pos hlong]
      rfl
    refine iff_of_true ((hrefused true).trans (hrefused false).symm) fun hempty => ?_
    rw [hempty.1] at hlong
    exact absurd hlong (Nat.not_lt_zero _)
  have hlen := Nat.not_lt.mp hlong
  by_cases hempty : text.bytes = []
  · rw [and_iff_right hempty]
    obtain ⟨hnil, hraw⟩ := @Tokenizer.Ordered.partition_empty t true text h hempty
    obtain ⟨hnil', hraw'⟩ := @Tokenizer.Ordered.partition_empty t false text h hempty
    by_cases hany : ∃ id, t.Applies true id
    · by_cases huser : ∃ id, t.Applies false id
      · rw [Tokenizer.encode_eq hlen (hnil hany), Tokenizer.encode_eq hlen (hnil' huser)]
        refine iff_of_true rfl fun hd => ?_
        obtain ⟨id, hid⟩ := huser
        exact hd.1.2 id hid
      · have huser' : ∀ id, ¬t.Applies false id := not_exists.mp huser
        rw [Tokenizer.encode_eq hlen (hnil hany), Tokenizer.encode_eq hlen (hraw' huser'), eq_comm]
        exact encodeFragments_empty (TokenizerBuilder.built hbuilt) hempty addSpecial ⟨hany, huser'⟩
    · have hany' : ∀ id, ¬t.Applies true id := not_exists.mp hany
      rw [Tokenizer.encode_eq hlen (hraw hany'),
        Tokenizer.encode_eq hlen (hraw' fun id hid => hany' id (h.mono hid))]
      exact iff_of_true rfl fun hd => hany hd.1.1
  · have heq : t.partition text true = t.partition text false := by
      refine h.partition_eq hempty fun id hid huser hin => ?_
      obtain ⟨e, he, hspecial⟩ := hid
      refine hnone e (mem_of_getElem? he) ?_ (Tokenizer.textOf_eq he ▸ hin)
      by_contra hplain
      rw [Bool.not_eq_true] at hplain
      exact huser ((h.applies_iff he).mpr ⟨hspecial, by rw [hplain]; rfl⟩)
    rw [Tokenizer.encode, Tokenizer.encode, heq]
    exact iff_of_true rfl fun hd => hempty hd.1

/-- The metadata of a tokenizer of SentencePiece with its control tokens and the mark of a space. -/
def markKvs : List KvEntry :=
  [⟨text "tokenizer.ggml.model", .str (text "llama")⟩,
    ⟨text "tokenizer.ggml.tokens", .array .str [.str (text "<unk>"), .str (text "<s>"),
      .str (text "</s>"), .str (text "▁")]⟩,
    ⟨text "tokenizer.ggml.token_type", .array .i32 [.i32 2, .i32 3, .i32 3, .i32 1]⟩]

def markTok : Tokenizer := (builtFrom markKvs).get (by decide)

theorem fromGguf_markKvs : Tokenizer.fromGguf markKvs = .ok markTok :=
  fromGguf_of_some (by rw [markTok, Option.some_get])

/-- The tokens of a result, if it is one. -/
def Encoding.ids (x : Encoding (List ℕ)) : Option (List ℕ) := x.run.bind Except.toOption

/-- The empty text is no token, or the token of a space. -/
theorem encode_parseSpecial_empty : ¬∀ (kvs : List KvEntry) (t : Tokenizer),
    Tokenizer.fromGguf kvs = .ok t → ∀ (u : UnicodeTables) (text : Str) (addSpecial : Bool),
    (∀ e ∈ t.tokens, e.has (attrControl ||| attrUnknown) = true → ¬e.text.bytes <:+: text.bytes) →
    t.encode u text addSpecial true = t.encode u text addSpecial false := by
  intro hall
  have htexts : ∀ e ∈ markTok.tokens, e.text.bytes ≠ [] := by decide +kernel
  have heq := hall markKvs markTok fromGguf_markKvs noTables (text "") false fun e he _ hin =>
    htexts e he (infix_nil.mp hin)
  have hids : (markTok.encode noTables (text "") false true).ids = some [] ∧
      (markTok.encode noTables (text "") false false).ids = some [3] := by decide +kernel
  rw [heq, hids.2] at hids
  exact absurd hids.1 (by decide)

theorem encode_parseSpecial_letter :
    markTok.encode noTables (text "▁▁") true true = markTok.encode noTables (text "▁▁") true false ↔
      ¬((text "▁▁").bytes = [] ∧ markTok.EmptyDiffers true) :=
  encode_parseSpecial markKvs markTok fromGguf_markKvs noTables (text "▁▁") true (by decide +kernel)

end R9v

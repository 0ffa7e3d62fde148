import R9v.Loader.Tokenizer
import R9v.Lib.Checked
import Mathlib.Data.List.Sort

/-!
# Building a tokenizer

`Tokenizer.fromGguf` makes a tokenizer from the metadata of a file. A key that is read
gives a value, or none and the problems with it; where the source returns early with the
problems it has found, the model throws them. What holds of every tokenizer that is built
is `Tokenizer.Built`: its texts and its tokens correspond, and the tokens that are cut out
of a text are special ones.
-/

namespace R9v

open List

def maxVocab : ℕ := 1 <<< 24

def maxMerges : ℕ := 1 <<< 24

namespace TokenizerBuilder

/-! ### Reading keys -/

section Read

variable (kvs : List KvEntry)

/-- The problem of a value of another type. -/
def expected (key type : String) (v : KvValue) : String :=
  key ++ ": expected " ++ type ++ ", found " ++ v.kvType.name

def kvStr (key : String) : Option Str × List String :=
  match lookupKv kvs (utf8 key) with
  | none => (none, [])
  | some (.str s) => (some s, [])
  | some other => (none, [expected key "STRING" other])

def kvU32 (key : String) : Option ℕ × List String :=
  match lookupKv kvs (utf8 key) with
  | none => (none, [])
  | some (.u32 v) => (some v.toNat, [])
  | some (.i32 v) =>
    if 0 ≤ v then (some v.toInt.toNat, []) else (none, [expected key "UINT32" (.i32 v)])
  | some other => (none, [expected key "UINT32" other])

def kvBool (key : String) : Option Bool × List String :=
  match lookupKv kvs (utf8 key) with
  | none => (none, [])
  | some (.bool v) => (some v, [])
  | some other => (none, [expected key "BOOL" other])

/-- The items of an array, up to the first one of another type. -/
def readItems {α : Type} (key type : String) (item : KvValue → Option α) :
    List KvValue → Except String (List α)
  | [] => .ok []
  | v :: rest =>
    match item v with
    | none => .error (expected key (type ++ " item") v)
    | some a => (readItems key type item rest).map (a :: ·)

/-- An array of items of one type. -/
def kvArray {α : Type} (key type : String) (item : KvValue → Option α) :
    Option (List α) × List String :=
  match lookupKv kvs (utf8 key) with
  | none => (none, [])
  | some (.array elem items) =>
    if elem.name ≠ type then
      (none, [key ++ ": expected ARRAY of " ++ type ++ ", found ARRAY of " ++ elem.name])
    else
      match readItems key type item items with
      | .ok out => (some out, [])
      | .error problem => (none, [problem])
  | some other => (none, [expected key "ARRAY" other])

def kvStrArray (key : String) : Option (List Str) × List String :=
  kvArray kvs key "STRING" fun v => match v with
    | .str s => some s
    | _ => none

def kvI32Array (key : String) : Option (List Int32) × List String :=
  kvArray kvs key "INT32" fun v => match v with
    | .i32 v => some v
    | _ => none

def kvF32Array (key : String) : Option (List UInt32) × List String :=
  kvArray kvs key "FLOAT32" fun v => match v with
    | .f32 bits => some bits
    | _ => none

/-- The error of an early return. -/
def stopWith (problems : List String) : LoaderError :=
  .tokenizerMeta (if problems.isEmpty then ["tokenizer metadata missing"] else problems)

/-- An array of strings that has to be there. -/
def reqStrArray (key : String) : Except LoaderError (List Str) :=
  match kvStrArray kvs key with
  | (some v, _) => .ok v
  | (none, problems) =>
    .error (stopWith (problems ++ if (lookupKv kvs (utf8 key)).isNone then
      [key ++ ": missing required key"] else []))

end Read

/-! ### The vocabulary -/

/-- The attributes of a type of token. -/
def attrOf (type : Int32) : ℕ :=
  if type = 2 then attrUnknown
  else if type = 5 then attrUnused
  else if type = 1 then attrNormal
  else if type = 3 then attrControl
  else if type = 4 then attrUserDefined
  else if type = 6 then attrByte
  else 0

/-- The vocabulary as far as it has been read. -/
structure Vocab where
  tokens : List TokenEntry := []
  textToId : Std.ExtTreeMap Bytes ℕ := ∅
  maxTokenLen : ℕ := 0
  problems : List String := []

/-- Adds the token of the index `i`. -/
def Vocab.add (scores : List UInt32) (types : List Int32) (i : ℕ) (text : Str) (v : Vocab) :
    Vocab :=
  if text.bytes.isEmpty then
    { v with problems := v.problems ++ ["tokenizer.ggml.tokens[" ++ toString i ++ "]: empty token"] }
  else if v.textToId.contains text.bytes then
    { v with problems := v.problems ++ ["tokenizer.ggml.tokens[" ++ toString i ++
        "]: duplicate token text of length " ++ toString text.bytes.length] }
  else
    { v with
      tokens := v.tokens ++
        [{ text, score := scores.getD i 0, attr := attrOf (types.getD i 1) }]
      textToId := v.textToId.insert text.bytes i
      maxTokenLen := max v.maxTokenLen text.bytes.length }

/-- Adds the tokens from the index `i` on. -/
def Vocab.addAll (scores : List UInt32) (types : List Int32) : ℕ → List Str → Vocab → Vocab
  | _, [], v => v
  | i, text :: rest, v => addAll scores types (i + 1) rest (v.add scores types i text)

/-- A problem with the length of an array beside the tokens. -/
def shorter (key : String) (len tokens : ℕ) : String :=
  key ++ ": length " ++ toString len ++ " < tokens " ++ toString tokens

/-- The vocabulary of a file. -/
def vocabulary (kvs : List KvEntry) : Except LoaderError Vocab := do
  let texts ← reqStrArray kvs "tokenizer.ggml.tokens"
  if maxVocab < texts.length then
    throw (stopWith ["tokenizer.ggml.tokens: length " ++ toString texts.length ++
      " exceeds limit " ++ toString maxVocab])
  if texts.isEmpty then throw (stopWith ["tokenizer.ggml.tokens: empty vocabulary"])
  let (scores, p₁) := kvF32Array kvs "tokenizer.ggml.scores"
  let scores := scores.getD []
  if !scores.isEmpty && scores.length < texts.length then
    throw (stopWith (p₁ ++ [shorter "tokenizer.ggml.scores" scores.length texts.length]))
  let (types, p₂) := kvI32Array kvs "tokenizer.ggml.token_type"
  let types := types.getD []
  if !types.isEmpty && types.length < texts.length then
    throw (stopWith (p₁ ++ p₂ ++ [shorter "tokenizer.ggml.token_type" types.length texts.length]))
  let v := Vocab.addAll scores types 0 texts { problems := p₁ ++ p₂ }
  if !v.problems.isEmpty then throw (stopWith v.problems)
  pure v

/-! ### The merges -/

/-- The two sides of a merge: they are parted by the first space that is not the first
byte. -/
def mergeSides (line : Bytes) : Bytes × Bytes :=
  match (line.drop 1).findIdx? (· = 0x20) with
  | some rel => (line.take (rel + 1), line.drop (rel + 2))
  | none => ([], [])

/-- The ranks of the merges from the index `i` on, and the problems with them. -/
def addMerges : ℕ → List Str → Std.ExtTreeMap (List Bytes) ℕ × List String →
    Std.ExtTreeMap (List Bytes) ℕ × List String
  | _, [], r => r
  | i, line :: rest, (ranks, problems) =>
    let (first, second) := mergeSides line.bytes
    addMerges (i + 1) rest <|
      if first.isEmpty || second.isEmpty then
        (ranks, problems ++ ["tokenizer.ggml.merges[" ++ toString i ++
          "]: malformed merge line of length " ++ toString line.bytes.length])
      else (if ranks.contains [first, second] then ranks else ranks.insert [first, second] i,
        problems)

/-- The ranks of the merges of a file. -/
def merges (kvs : List KvEntry) (kind : TokenizerKind) :
    Except LoaderError (Std.ExtTreeMap (List Bytes) ℕ) :=
  if kind = .bpe then do
    let lines ← reqStrArray kvs "tokenizer.ggml.merges"
    if maxMerges < lines.length then
      throw (stopWith ["tokenizer.ggml.merges: length " ++ toString lines.length ++
        " exceeds limit " ++ toString maxMerges])
    let (ranks, problems) := addMerges 0 lines (∅, [])
    if !problems.isEmpty then throw (stopWith problems)
    pure ranks
  else pure ∅

/-! ### The tokenizer -/

/-- The family of a file. -/
def modelOf (kvs : List KvEntry) : Except LoaderError (Str × TokenizerKind) :=
  match lookupKv kvs (utf8 "tokenizer.ggml.model") with
  | some (.str s) =>
    if s.bytes = utf8 "llama" then .ok (s, .sentencePiece)
    else if s.bytes = utf8 "gpt2" then .ok (s, .bpe)
    else if s.bytes = utf8 "bert" then .ok (s, .wordPiece)
    else .error (.unsupportedTokenizer s.bytes ["llama", "gpt2", "bert"])
  | some other => .error (.tokenizerMeta [expected "tokenizer.ggml.model" "STRING" other])
  | none => .error (.tokenizerMeta ["tokenizer.ggml.model: missing required key"])

/-- How a text is split first. -/
def preOf (kvs : List KvEntry) (model : Str) (kind : TokenizerKind) : Except LoaderError PreType :=
  if kind = .bpe then
    let (pre, problems) := kvStr kvs "tokenizer.ggml.pre"
    if pre.map Str.bytes = some (utf8 "gpt-2") then .ok .gpt2
    else if !problems.isEmpty then .error (stopWith problems)
    else .error (.unsupportedPreTokenizer (pre.elim [] Str.bytes) model.bytes ["gpt-2"])
  else .ok .none

/-- An id of a vocabulary of `n` tokens. -/
def inRange (n id : ℕ) : Option ℕ := if id < n then some id else none

/-- A slot for a special token: what a key says, or else the default. -/
def override (n : ℕ) (read : Option ℕ) (slot : Option ℕ) : Option ℕ :=
  match read with
  | some id => if id < n then some id else slot
  | none => slot

/-- The order of special tokens: longer texts first, then smaller ids. -/
def specialLe (tokens : List TokenEntry) (a b : ℕ) : Prop :=
  let len := fun id => (tokens[id]?.elim 0 (·.text.bytes.length))
  len b < len a ∨ (len a = len b ∧ a ≤ b)

instance (tokens : List TokenEntry) : DecidableRel (specialLe tokens) :=
  fun a b => inferInstanceAs (Decidable (_ ∨ (_ ∧ a ≤ b)))

/-- The special tokens in the order in which they are cut out of a text. -/
def specialOrder (tokens : List TokenEntry) : List ℕ :=
  ((List.range tokens.length).filter fun id =>
    tokens[id]?.any (·.has (attrControl ||| attrUserDefined ||| attrUnknown))).insertionSort
      (specialLe tokens)

/-- Builds a tokenizer. -/
def build (kvs : List KvEntry) : Except LoaderError Tokenizer := do
  let (model, kind) ← modelOf kvs
  let pre ← preOf kvs model kind
  let vocab ← vocabulary kvs
  let bpeRanks ← merges kvs kind
  let n := vocab.tokens.length
  let (bos, eos, unk, sep) :=
    match kind with
    | .sentencePiece => (inRange n 1, inRange n 2, inRange n 0, none)
    | .bpe => (inRange n 11, inRange n 11, none, none)
    | .wordPiece => (inRange n 101, none, inRange n 100, inRange n 102)
  let (bos', p₁) := kvU32 kvs "tokenizer.ggml.bos_token_id"
  let (eos', p₂) := kvU32 kvs "tokenizer.ggml.eos_token_id"
  let (unk', p₃) := kvU32 kvs "tokenizer.ggml.unknown_token_id"
  let (sep', p₄) := kvU32 kvs "tokenizer.ggml.seperator_token_id"
  let (_, p₅) := kvU32 kvs "tokenizer.ggml.padding_token_id"
  let (_, p₆) := kvU32 kvs "tokenizer.ggml.mask_token_id"
  let (_, p₇) := kvU32 kvs "tokenizer.ggml.cls_token_id"
  let (addBos, p₈) := kvBool kvs "tokenizer.ggml.add_bos_token"
  let (addEos, p₉) := kvBool kvs "tokenizer.ggml.add_eos_token"
  let (_, p₁₀) := kvBool kvs "tokenizer.ggml.add_sep_token"
  let (addSpacePrefix, p₁₁) := kvBool kvs "tokenizer.ggml.add_space_prefix"
  let (_, p₁₂) := kvBool kvs "tokenizer.ggml.remove_extra_whitespaces"
  let (lower, p₁₃) :=
    if kind = .wordPiece then kvBool kvs "tokenizer.ggml.normalizer.lowercase" else (none, [])
  let (strip, p₁₄) :=
    if kind = .wordPiece then kvBool kvs "tokenizer.ggml.normalizer.strip_accents" else (none, [])
  let lowercase := kind = .wordPiece && lower.getD true
  let (_, p₁₅) := kvStr kvs "tokenizer.chat_template"
  let problems := p₁ ++ p₂ ++ p₃ ++ p₄ ++ p₅ ++ p₆ ++ p₇ ++ p₈ ++ p₉ ++ p₁₀ ++ p₁₁ ++ p₁₂ ++
    p₁₃ ++ p₁₄ ++ p₁₅
  if !problems.isEmpty then throw (.tokenizerMeta problems)
  pure
    { kind
      tokens := vocab.tokens
      textToId := vocab.textToId
      bpeRanks
      specialOrder := specialOrder vocab.tokens
      maxTokenLen := vocab.maxTokenLen
      bosId := override n bos' bos
      eosId := override n eos' eos
      unkId := override n unk' unk
      sepId := override n sep' sep
      addBos := addBos.getD (kind != .bpe)
      addEos := addEos.getD false
      addSpacePrefix := addSpacePrefix.getD (kind = .sentencePiece)
      escapeSpaces := kind = .sentencePiece
      lowercase
      stripAccents := kind = .wordPiece && strip.getD lowercase
      pre }

end TokenizerBuilder

/-- Makes a tokenizer from the metadata of a file. -/
def Tokenizer.fromGguf (kvs : List KvEntry) : Except LoaderError Tokenizer :=
  TokenizerBuilder.build kvs

/-! ### What is built -/

/-- What holds of every tokenizer that is built. -/
structure Tokenizer.Built (t : Tokenizer) : Prop where
  lookup : ∀ (piece : Bytes) (id : ℕ), t.textToId[piece]? = some id ↔
    ∃ e : TokenEntry, t.tokens[id]? = some e ∧ e.text.bytes = piece
  special : ∀ id ∈ t.specialOrder, ∃ e : TokenEntry, t.tokens[id]? = some e ∧
    e.has (attrControl ||| attrUserDefined ||| attrUnknown) = true
  spaces_eq : t.escapeSpaces = decide (t.kind = .sentencePiece)
  pre_eq : t.kind = .bpe → t.pre = .gpt2

namespace TokenizerBuilder

section Built

variable {scores : List UInt32} {types : List Int32} {i : ℕ} {text : Str} {texts : List Str}
  {v : Vocab} {kvs : List KvEntry} {t : Tokenizer}

/-- Texts and tokens correspond. -/
def Vocab.Corresponds (v : Vocab) : Prop :=
  ∀ (piece : Bytes) (id : ℕ), v.textToId[piece]? = some id ↔
    ∃ e : TokenEntry, v.tokens[id]? = some e ∧ e.text.bytes = piece

theorem Vocab.add_spec (h : v.Corresponds) (hlen : v.tokens.length = i)
    (hok : (v.add scores types i text).problems = []) :
    v.problems = [] ∧ (v.add scores types i text).Corresponds ∧
      (v.add scores types i text).tokens.length = i + 1 := by
  unfold Vocab.add at hok ⊢
  split at hok
  · simp at hok
  · split at hok
    · simp at hok
    · rename_i hne hnew
      rw [if_neg hne, if_neg hnew]
      refine ⟨hok, fun piece id => ?_, by simp [hlen]⟩
      rw [Std.ExtTreeMap.contains_eq_isSome_getElem?, Bool.not_eq_true, Option.isSome_eq_false_iff,
        Option.isNone_iff_eq_none] at hnew
      simp only [Std.ExtTreeMap.getElem?_insert, Std.LawfulEqCmp.compare_eq_iff_eq]
      split
      · rename_i heq
        subst heq
        constructor
        · intro hid
          cases hid
          exact ⟨_, by rw [← hlen, getElem?_concat_length], rfl⟩
        · rintro ⟨e, he, hbytes⟩
          rcases Nat.lt_trichotomy id i with hlt | rfl | hgt
          · rw [getElem?_append_left (by omega)] at he
            have := (h text.bytes id).mpr ⟨e, he, hbytes⟩
            rw [hnew] at this
            cases this
          · rfl
          · rw [getElem?_eq_none (by simp; omega)] at he
            cases he
      · rename_i hneq
        rw [h piece id]
        refine exists_congr fun e => and_congr_left fun hbytes => ?_
        rcases Nat.lt_trichotomy id i with hlt | rfl | hgt
        · rw [getElem?_append_left (by omega)]
        · rw [← hlen, getElem?_concat_length, getElem?_eq_none le_rfl]
          refine ⟨fun he => (by cases he), fun he => ?_⟩
          cases he
          exact absurd hbytes hneq
        · rw [getElem?_eq_none (by omega), getElem?_eq_none (by simp; omega)]

theorem Vocab.problems_grow (scores : List UInt32) (types : List Int32) (i : ℕ)
    (texts : List Str) (v : Vocab) : v.problems <+: (Vocab.addAll scores types i texts v).problems := by
  induction texts generalizing i v with
  | nil => exact prefix_refl _
  | cons text rest ih =>
    have hadd : v.problems <+: (v.add scores types i text).problems := by
      unfold Vocab.add
      split
      · exact prefix_append _ _
      · split
        · exact prefix_append _ _
        · exact prefix_refl _
    exact hadd.trans (ih _ _)

theorem Vocab.addAll_spec (h : v.Corresponds) (hlen : v.tokens.length = i)
    (hok : (Vocab.addAll scores types i texts v).problems = []) :
    (Vocab.addAll scores types i texts v).Corresponds := by
  induction texts generalizing i v with
  | nil => exact h
  | cons text rest ih =>
    simp only [Vocab.addAll] at hok ⊢
    have hstep : (v.add scores types i text).problems = [] := by
      have := problems_grow scores types (i + 1) rest (v.add scores types i text)
      rw [hok] at this
      exact prefix_nil.mp this
    obtain ⟨-, hcorr, hlen'⟩ := add_spec h hlen hstep
    exact ih hcorr hlen' hok

theorem corresponds_of_vocabulary (h : vocabulary kvs = .ok v) : v.Corresponds := by
  obtain ⟨texts, -, h⟩ := Checked.bind_eq_ok.mp h
  simp only [bind, Except.bind, throw, throwThe, MonadExceptOf.throw, pure, Except.pure] at h
  split_ifs at h with _ _ _ _ hok
  cases h
  refine Vocab.addAll_spec (fun piece id => ?_) rfl (by simpa using hok)
  simp

theorem mem_specialOrder {tokens : List TokenEntry} {id : ℕ} (h : id ∈ specialOrder tokens) :
    ∃ e : TokenEntry, tokens[id]? = some e ∧
      e.has (attrControl ||| attrUserDefined ||| attrUnknown) = true := by
  unfold specialOrder at h
  rw [(perm_insertionSort _ _).mem_iff, mem_filter] at h
  rcases htoken : tokens[id]? with _ | e
  · rw [htoken] at h
    exact absurd h.2 (by simp)
  · rw [htoken, Option.any_some] at h
    exact ⟨e, rfl, h.2⟩

theorem mem_addMerges {lines : List Str} {r : Std.ExtTreeMap (List Bytes) ℕ × List String}
    {left right : Bytes} (h : (addMerges i lines r).1.contains [left, right] = true) :
    r.1.contains [left, right] = true ∨ ∃ line ∈ lines, mergeSides line.bytes = (left, right) := by
  induction lines generalizing i r with
  | nil => exact Or.inl h
  | cons line rest ih =>
    simp only [addMerges] at h
    rcases ih h with h | ⟨line', hmem, hsides⟩
    · split at h
      · exact Or.inl h
      · split at h
        · exact Or.inl h
        · rw [Std.ExtTreeMap.contains_insert, Bool.or_eq_true, beq_iff_eq,
            Std.LawfulEqCmp.compare_eq_iff_eq] at h
          rcases h with h | h
          · simp only [List.cons.injEq, and_true] at h
            exact Or.inr ⟨line, mem_cons_self, Prod.ext h.1 h.2⟩
          · exact Or.inl h
    · exact Or.inr ⟨line', mem_cons_of_mem _ hmem, hsides⟩

theorem line_of_rank (h : Tokenizer.fromGguf kvs = .ok t) (hkind : t.kind = .bpe)
    {left right : Bytes} (hrank : t.bpeRanks[[left, right]]?.isSome = true) :
    ∃ lines, reqStrArray kvs "tokenizer.ggml.merges" = .ok lines ∧
      ∃ line ∈ lines, mergeSides line.bytes = (left, right) := by
  obtain ⟨⟨model, kind⟩, -, h⟩ := Checked.bind_eq_ok.mp h
  obtain ⟨pre, -, h⟩ := Checked.bind_eq_ok.mp h
  obtain ⟨v, -, h⟩ := Checked.bind_eq_ok.mp h
  obtain ⟨ranks, hmerges, h⟩ := Checked.bind_eq_ok.mp h
  obtain ⟨-, h⟩ | ⟨-, h⟩ := ite_eq_iff.mp h
  · cases h
  cases h
  unfold merges at hmerges
  rw [if_pos hkind] at hmerges
  obtain ⟨lines, hlines, hmerges⟩ := Checked.bind_eq_ok.mp hmerges
  simp only [bind, Except.bind, throw, throwThe, MonadExceptOf.throw, pure, Except.pure] at hmerges
  split_ifs at hmerges
  cases hmerges
  rw [← Std.ExtTreeMap.contains_eq_isSome_getElem?] at hrank
  refine ⟨lines, hlines, ?_⟩
  rcases mem_addMerges hrank with hempty | hline
  · simp at hempty
  · exact hline

theorem pre_of_bpe {model : Str} {pre : PreType} (h : preOf kvs model .bpe = .ok pre) :
    pre = .gpt2 := by
  unfold preOf at h
  rw [if_pos rfl] at h
  simp only at h
  split_ifs at h
  exact (Except.ok.inj h).symm

/-- **What is built.** -/
theorem built (h : Tokenizer.fromGguf kvs = .ok t) : t.Built := by
  obtain ⟨⟨model, kind⟩, -, h⟩ := Checked.bind_eq_ok.mp h
  obtain ⟨pre, hpre, h⟩ := Checked.bind_eq_ok.mp h
  obtain ⟨v, hvocab, h⟩ := Checked.bind_eq_ok.mp h
  obtain ⟨ranks, -, h⟩ := Checked.bind_eq_ok.mp h
  obtain ⟨-, h⟩ | ⟨-, h⟩ := ite_eq_iff.mp h
  · cases h
  cases h
  exact
    { lookup := corresponds_of_vocabulary hvocab
      special := fun id hid => mem_specialOrder hid
      spaces_eq := rfl
      pre_eq := by
        rintro rfl
        exact pre_of_bpe hpre }

end Built

end TokenizerBuilder

end R9v

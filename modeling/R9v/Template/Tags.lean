import R9v.Template.Lexer

/-!
# Tags

What the lexer takes for a tag: `Tag` is a tag as it stands in the source, and `tagAt` finds the
one at some place. A tag starts with its opener and ends with its closer, and it is closed with a
dash exactly if there is one before its closer, unless nothing else stands in it (`tagAt_spec`).
-/

namespace R9v.Template

open List

section Bind

variable {α β : Type} {x : Lexing α} {f : α → Lexing β} {a : α} {b : β}

theorem Lexing.bind_ok : x >>= f = some (.ok b) ↔ ∃ a, x = some (.ok a) ∧ f a = some (.ok b) := by
  constructor
  · intro h
    rcases x with _ | e | a
    · cases h
    · cases h
    · exact ⟨a, rfl, h⟩
  · rintro ⟨a, rfl, h⟩
    exact h

theorem Lexing.pure_ok {a' : α} : (pure a : Lexing α) = some (.ok a') ↔ a = a' := by
  constructor
  · rintro ⟨⟩
    rfl
  · rintro rfl
    rfl

theorem Lexing.throw_ok {e : TemplateError} : ¬(throw e : Lexing α) = some (.ok a) := by
  rintro ⟨⟩

theorem Lexing.lift_ok {x : Except TemplateError α} :
    (liftM x : Lexing α) = some (.ok a) ↔ x = .ok a := by
  cases x with
  | error e =>
    constructor
    · rintro ⟨⟩
    · rintro ⟨⟩
  | ok a' =>
    constructor
    · rintro ⟨⟩
      rfl
    · rintro ⟨⟩
      rfl

theorem Lexing.liftOption_ok {x : Option α} : (liftM x : Lexing α) = some (.ok a) ↔ x = some a := by
  cases x with
  | none =>
    constructor
    · rintro ⟨⟩
    · rintro ⟨⟩
  | some a' =>
    constructor
    · rintro ⟨⟩
      rfl
    · rintro ⟨⟩
      rfl

theorem exists_of_map_ok {x : Except TemplateError α} {g : α → β} (h : x.map g = .ok b) :
    ∃ a, x = .ok a ∧ g a = b := by
  cases x with
  | error e => cases h
  | ok a => exact ⟨a, rfl, Except.ok.inj h⟩

end Bind

/-! ### Where tokens end -/

/-- There are `len` bytes at the front, and the last one of them is one that `p` holds of. -/
def EndsIn (l : Bytes) (len : ℕ) (p : UInt8 → Bool) : Prop :=
  ∃ u d m, l = u ++ d :: m ∧ len = u.length + 1 ∧ p d = true

section EndsIn

variable {l u : Bytes} {len k : ℕ} {p q : UInt8 → Bool}

theorem EndsIn.append (h : EndsIn l len p) (u : Bytes) : EndsIn (u ++ l) (u.length + len) p := by
  obtain ⟨v, d, m, rfl, rfl, hd⟩ := h
  exact ⟨u ++ v, d, m, by simp, by simp [Nat.add_assoc], hd⟩

theorem EndsIn.of_drop (h : EndsIn (l.drop k) len p) : EndsIn l (len + k) p := by
  have hk : k ≤ l.length := by
    by_contra hlt
    obtain ⟨v, d, m, heq, -⟩ := h
    rw [drop_eq_nil_of_le (by omega)] at heq
    exact absurd heq.symm (by simp)
  have hpre := h.append (l.take k)
  rwa [take_append_drop, length_take, Nat.min_eq_left hk, Nat.add_comm] at hpre

theorem EndsIn.mono (h : EndsIn l len p) (hpq : ∀ d, p d = true → q d = true) : EndsIn l len q := by
  obtain ⟨v, d, m, heq, hlen, hd⟩ := h
  exact ⟨v, d, m, heq, hlen, hpq d hd⟩

theorem EndsIn.ne_dash (h : EndsIn l len p) (hp : p 0x2D = false) : EndsIn l len (· ≠ 0x2D) := by
  refine h.mono fun d hd => ?_
  rw [decide_eq_true_eq]
  rintro rfl
  exact absurd (hp.symm.trans hd) Bool.false_ne_true

theorem endsIn_takeWhile (h : l.head?.any p = true) : EndsIn l (l.takeWhile p).length p := by
  have hne : l.takeWhile p ≠ [] := by
    cases l with
    | nil => simp at h
    | cons b l => simpa [takeWhile_cons] using h
  refine ⟨(l.takeWhile p).dropLast, (l.takeWhile p).getLast hne, l.dropWhile p, ?_, ?_, ?_⟩
  · rw [← singleton_append, ← append_assoc, dropLast_append_getLast,
      takeWhile_append_dropWhile]
  · have := length_pos_iff.mpr hne
    rw [length_dropLast]
    omega
  · exact all_eq_true.mp all_takeWhile _ (getLast_mem hne)

end EndsIn

theorem lexNumber_spec {l : Bytes} (h : l.head?.any isDigit = true) :
    EndsIn l (lexNumber l).2 isDigit ∧ ((lexNumber l).1 = .int ∨ (lexNumber l).1 = .float) := by
  have hint := endsIn_takeWhile h
  rw [lexNumber]
  split
  · rename_i d m hdrop
    split_ifs with hd
    · have hfrac : EndsIn (d :: m) ((d :: m).takeWhile isDigit).length isDigit :=
        endsIn_takeWhile (by simpa using hd)
      have hall : l = (l.takeWhile isDigit ++ [0x2E]) ++ d :: m := by
        rw [append_assoc, singleton_append, ← hdrop]
        nth_rewrite 1 [← takeWhile_append_dropWhile (p := isDigit) (l := l)]
        rw [← @drop_left _ (l.takeWhile isDigit) (l.dropWhile isDigit),
          takeWhile_append_dropWhile]
      have happ := hfrac.append (l.takeWhile isDigit ++ [0x2E])
      rw [← hall, length_append, length_singleton] at happ
      exact ⟨happ, .inr rfl⟩
    · exact ⟨hint, .inl rfl⟩
  · exact ⟨hint, .inl rfl⟩

theorem lexString_spec {quote : UInt8} {pos fuel : ℕ} {l : Bytes} {r : Bytes × ℕ}
    (h : lexString quote pos fuel l = .ok r) : EndsIn l r.2 (· = quote) := by
  induction fuel generalizing l r with
  | zero => cases h
  | succ fuel ih =>
    rcases l with _ | ⟨b, l⟩
    · cases h
    rw [lexString.eq_def] at h
    dsimp only at h
    split_ifs at h with hquote hescape
    · cases h
      exact ⟨[], b, l, rfl, rfl, by simpa using hquote⟩
    · -- an escape takes two bytes
      rcases l with _ | ⟨e, l⟩
      · cases h
      cases hchar : unescape e with
      | none => simp only [hchar, reduceCtorEq] at h
      | some c =>
        simp only [hchar] at h
        obtain ⟨r', hr', rfl⟩ := exists_of_map_ok h
        exact (@ih (((b :: e :: l)).drop 2) r' hr').of_drop
    · obtain ⟨r', hr', rfl⟩ := exists_of_map_ok h
      exact (ih hr').of_drop

/-! ### A step of the lexer -/

theorem mem_operators {b : UInt8} {kind : TokenKind} (h : operators.lookup b = some kind) :
    (b, kind) ∈ operators := by
  rw [lookup_eq_some_iff] at h
  obtain ⟨l, m, hl, -⟩ := h
  rw [hl]
  simp

theorem operator_spec {two : Bytes} {b : UInt8} {kind : TokenKind} {len : ℕ}
    (h : operator two b = some (kind, len)) :
    kind ≠ .text ∧ (len = 1 ∨ len = 2 ∧ ∃ c, two = [c, 0x3D]) := by
  rw [operator] at h
  split_ifs at h with htwo
  · obtain ⟨rfl, rfl⟩ := Prod.mk.inj (Option.some.inj h)
    have hends : ∀ two ∈ comparisons, two = [two.headD 0, 0x3D] := by decide
    exact ⟨by decide, .inr ⟨rfl, _, hends two htwo⟩⟩
  · obtain ⟨k, hk, heq⟩ := Option.map_eq_some_iff.mp h
    obtain ⟨rfl, rfl⟩ := Prod.mk.inj heq
    have hkinds : ∀ e ∈ operators, e.2 ≠ .text := by decide
    exact ⟨hkinds _ (mem_operators hk), .inl rfl⟩

/-- What a token of a tag takes up: some bytes, which end with a dash only if they are that dash. -/
structure Lexeme.At (t : Lexeme) (rest : Bytes) : Prop where
  kind_ne : t.kind ≠ .text
  ends : EndsIn rest t.len (· ≠ 0x2D) ∨ t.len = 1 ∧ rest.head? = some 0x2D

theorem closes_eq {isExpr dashed : Bool} {rest : Bytes} :
    closes isExpr dashed rest = true ↔ ∃ m, rest = closer isExpr dashed ++ m := by
  rw [closes, List.isPrefixOf_iff_prefix]
  exact ⟨fun ⟨m, h⟩ => ⟨m, h.symm⟩, fun ⟨m, h⟩ => ⟨m, h.symm⟩⟩

theorem closes_of_or {isExpr dashed : Bool} {rest : Bytes}
    (h : (closes true dashed rest || closes false dashed rest) = true)
    (heq : closes true dashed rest = isExpr) : closes isExpr dashed rest = true := by
  cases isExpr with
  | true => exact heq
  | false => simpa [heq] using h

section TagStep

variable {isExpr : Bool} {pos curly : ℕ} {last : Option TokenKind} {rest : Bytes}

theorem lexToken_at {b : UInt8} {l : Bytes} {t : Lexeme}
    (h : lexToken pos last b l = some (.ok t)) :
    t.At (b :: l) := by
  rw [lexToken] at h
  split_ifs at h with hsign hnumber halpha hdigit hquote
  · rw [Lexing.pure_ok] at h
    obtain rfl := h
    obtain ⟨hends, hkind⟩ := lexNumber_spec hnumber
    refine ⟨fun hno => ?_, .inl ?_⟩
    · rcases hkind with hk | hk <;> rw [hk] at hno <;> cases hno
    · exact (hends.ne_dash rfl).append [b]
  · rw [Lexing.pure_ok] at h
    obtain rfl := h
    refine ⟨by simp, ?_⟩
    by_cases hb : b = 0x2D
    · exact .inr ⟨rfl, congrArg some hb⟩
    · exact .inl ⟨[], b, l, rfl, rfl, by simpa using hb⟩
  · rw [Lexing.pure_ok] at h
    obtain rfl := h
    have hb : isIdent b = true := by
      rw [isIdent]
      rcases Bool.or_eq_true_iff.mp halpha with hb | hb <;> rw [hb] <;> simp
    refine ⟨by simp, .inl ?_⟩
    have hends : EndsIn (b :: l) ((b :: l).takeWhile isIdent).length isIdent :=
      endsIn_takeWhile (by simpa using hb)
    rw [takeWhile_cons_of_pos hb, length_cons, Nat.add_comm] at hends
    exact hends.ne_dash rfl
  · rw [Lexing.pure_ok] at h
    obtain rfl := h
    obtain ⟨hends, hkind⟩ := lexNumber_spec (l := b :: l) (by simpa using hdigit)
    refine ⟨fun hno => ?_, .inl ?_⟩
    · rcases hkind with hk | hk <;> rw [hk] at hno <;> cases hno
    · exact hends.ne_dash rfl
  · obtain ⟨string, hstring, h⟩ := Lexing.bind_ok.mp h
    rw [Lexing.pure_ok] at h
    obtain rfl := h
    refine ⟨by simp, .inl ?_⟩
    have hends := lexString_spec (Lexing.lift_ok.mp hstring)
    exact (hends.ne_dash (by rcases hquote with rfl | rfl <;> rfl)).append [b]
  · obtain ⟨two, htwo, h⟩ := Lexing.bind_ok.mp h
    rw [Lexing.liftOption_ok] at htwo
    cases hop : operator two b with
    | none =>
      rw [hop] at h
      exact absurd h Lexing.throw_ok
    | some r =>
      rw [hop, Lexing.pure_ok] at h
      obtain rfl := h
      obtain ⟨hkind, hone | ⟨hlen, c, rfl⟩⟩ := operator_spec hop
      · refine ⟨hkind, ?_⟩
        by_cases hb : b = 0x2D
        · exact .inr ⟨hone, congrArg some hb⟩
        · exact .inl ⟨[], b, l, rfl, hone, by simpa using hb⟩
      · refine ⟨hkind, .inl ?_⟩
        rw [sliceTwo] at htwo
        split_ifs at htwo
        · cases htwo
        · obtain ⟨m, hm⟩ := take_prefix 2 (b :: l)
          rw [Option.some.inj htwo] at hm
          exact ⟨[c], 0x3D, m, hm.symm, hlen, by decide⟩

/-- **What a step of a tag can do**: it closes the tag, or it is a token that stands before no
closer with a dash. -/
theorem tagStep_ok {step : TagStep} (h : tagStep isExpr pos curly last rest = some (.ok step)) :
    (∃ dashed, closes isExpr dashed rest = true ∧ step = .close (closer isExpr dashed).length) ∨
      closes isExpr true rest = false ∧ ∃ t, step = .token t ∧ t.At rest := by
  rw [tagStep.eq_def] at h
  rcases rest with _ | ⟨b, l⟩
  · exact absurd h Lexing.throw_ok
  split_ifs at h with hdash hmis hplain hmis hcurly
  · exact absurd h Lexing.throw_ok
  · rw [Lexing.pure_ok] at h
    obtain rfl := h
    exact .inl ⟨true, closes_of_or hdash (not_not.mp hmis), by cases isExpr <;> rfl⟩
  · exact absurd h Lexing.throw_ok
  · rw [Lexing.pure_ok] at h
    obtain rfl := h
    rw [Bool.not_eq_true, Bool.or_eq_false_iff] at hdash
    obtain ⟨rfl, -⟩ := Bool.and_eq_true_iff.mp hcurly
    obtain ⟨m, hm⟩ := closes_eq.mp (closes_of_or hplain (not_not.mp hmis))
    obtain ⟨rfl, rfl⟩ := cons_eq_cons.mp hm
    exact .inr ⟨hdash.1, _, rfl, by simp, .inl ⟨[], 0x7D, _, rfl, rfl, by decide⟩⟩
  · rw [Lexing.pure_ok] at h
    obtain rfl := h
    exact .inl ⟨false, closes_of_or hplain (not_not.mp hmis), by cases isExpr <;> rfl⟩
  · obtain ⟨t, ht, h⟩ := Lexing.bind_ok.mp h
    rw [Lexing.pure_ok] at h
    obtain rfl := h
    refine .inr ⟨?_, t, rfl, lexToken_at ht⟩
    rw [Bool.not_eq_true, Bool.or_eq_false_iff] at hdash
    cases isExpr with
    | true => exact hdash.1
    | false => exact hdash.2

end TagStep

/-! ### Where tags end -/

theorem getLast?_append_ne {u v : Bytes} {a : UInt8} (hu : v = [] → u.getLast? ≠ some a)
    (hv : v.getLast? ≠ some a) : (u ++ v).getLast? ≠ some a := by
  rw [getLast?_append]
  cases h : v.getLast? with
  | none => simpa using hu (getLast?_eq_none_iff.mp h)
  | some c => simpa [h] using hv

theorem lexTag_spec {isExpr : Bool} {fuel pos curly : ℕ} {last : Option TokenKind} {rest : Bytes}
    {tokens : List Token} {stop curly' : ℕ}
    (h : lexTag isExpr fuel pos curly last rest = some (.ok (tokens, stop, curly'))) :
    ∃ body dashed tail, rest = body ++ closer isExpr dashed ++ tail ∧
      stop = pos + body.length + (closer isExpr dashed).length ∧
      tokens.getLast? = some ⟨closeKind isExpr, [], pos + body.length⟩ ∧
      (dashed = false → body.getLast? ≠ some 0x2D) := by
  induction fuel generalizing pos curly last rest tokens stop curly' with
  | zero => cases h
  | succ fuel ih =>
    obtain ⟨step, hstep, h⟩ := Lexing.bind_ok.mp h
    have hrest : rest.takeWhile isTagSpace ++ rest.dropWhile isTagSpace = rest :=
      takeWhile_append_dropWhile
    have hspace : (rest.takeWhile isTagSpace).getLast? ≠ some 0x2D := fun hno =>
      absurd (all_eq_true.mp all_takeWhile _ (mem_of_getLast? hno)) (by decide)
    generalize rest.takeWhile isTagSpace = space at *
    generalize rest.dropWhile isTagSpace = rest' at *
    subst hrest
    rcases tagStep_ok hstep with ⟨dashed, hclose, rfl⟩ | ⟨hclose, t, rfl, -, hends⟩
    · obtain ⟨rfl, rfl, rfl⟩ := h
      obtain ⟨tail, rfl⟩ := closes_eq.mp hclose
      exact ⟨space, dashed, tail, by rw [append_assoc], rfl, rfl, fun _ => hspace⟩
    · obtain ⟨⟨tokens, stop, curly⟩, htag, h⟩ := Lexing.bind_ok.mp h
      obtain ⟨rfl, rfl, rfl⟩ := h
      obtain ⟨body, dashed, tail, hdrop, rfl, hlast, hbody⟩ := ih htag
      obtain ⟨u, d, m, rfl, hlen, hdash⟩ : ∃ u d m, rest' = u ++ d :: m ∧ t.len = u.length + 1 ∧
          (d = 0x2D → u = []) := by
        rcases hends with ⟨u, d, m, rfl, hlen, hd⟩ | ⟨hlen, hhead⟩
        · exact ⟨u, d, m, rfl, hlen, fun hno => absurd hno (by simpa using hd)⟩
        · cases rest' with
          | nil => cases hhead
          | cons b l => exact ⟨[], b, l, rfl, hlen, fun _ => rfl⟩
      have hm : m = body ++ closer isExpr dashed ++ tail := by
        rw [← hdrop, hlen, append_cons, drop_left' (by simp)]
      subst hm
      refine ⟨space ++ (u ++ [d]) ++ body, dashed, tail, by simp, by simp [hlen]; omega, ?_, ?_⟩
      · rw [getLast?_cons, hlast]
        simp [hlen]
        omega
      · intro hplain
        refine getLast?_append_ne (fun hnil => ?_) (hbody hplain)
        -- a dash before the closer would be read as a part of it
        subst hplain hnil
        rintro hd
        obtain rfl : d = 0x2D := by simpa using hd
        obtain rfl := hdash rfl
        refine absurd hclose ?_
        rw [Bool.not_eq_false, closes_eq]
        exact ⟨tail, rfl⟩

theorem lexTag_le {isExpr : Bool} {fuel pos curly : ℕ} {last : Option TokenKind} {rest : Bytes}
    {r : List Token × ℕ × ℕ} (h : lexTag isExpr fuel pos curly last rest = some (.ok r)) :
    pos + 2 ≤ r.2.1 ∧ r.2.1 ≤ pos + rest.length := by
  obtain ⟨body, dashed, tail, rfl, hstop, -⟩ := lexTag_spec h
  have hcloser : 2 ≤ (closer isExpr dashed).length := by cases dashed <;> simp [closer]
  rw [hstop, length_append, length_append]
  omega

theorem commentEnd_spec {l : Bytes} {len : ℕ} {dashed : Bool} {read : Bytes}
    (h : commentEnd read.length read.getLast? l = some (len, dashed)) :
    ∃ body tail, read ++ l = body ++ ((if dashed then [0x2D] else []) ++ [0x23, 0x7D]) ++ tail ∧
      len = body.length ∧ (dashed = false → body.getLast? ≠ some 0x2D) := by
  induction l generalizing read with
  | nil => cases h
  | cons b l ih =>
    rw [commentEnd] at h
    split_ifs at h with hclose hdash
    · obtain ⟨rfl, hl⟩ := hclose
      obtain ⟨rfl, rfl⟩ := Prod.mk.inj (Option.some.inj h)
      obtain ⟨tail, rfl⟩ := head?_eq_some_iff.mp hl
      obtain ⟨body, rfl⟩ := getLast?_eq_some_iff.mp hdash
      exact ⟨body, tail, by simp, by simp, by simp⟩
    · obtain ⟨rfl, hl⟩ := hclose
      obtain ⟨rfl, rfl⟩ := Prod.mk.inj (Option.some.inj h)
      obtain ⟨tail, rfl⟩ := head?_eq_some_iff.mp hl
      exact ⟨read, tail, by simp, rfl, fun _ => hdash⟩
    · have hnext : commentEnd (read ++ [b]).length (read ++ [b]).getLast? l =
          some (len, dashed) := by
        rwa [length_append, length_singleton, getLast?_concat]
      obtain ⟨body, tail, heq, hbody⟩ := ih hnext
      exact ⟨body, tail, by rw [← heq]; simp, hbody⟩

theorem commentEnd_le {l : Bytes} {len : ℕ} {dashed : Bool}
    (h : commentEnd 0 none l = some (len, dashed)) : len + (if dashed then 3 else 2) ≤
      l.length := by
  obtain ⟨body, tail, heq, rfl, -⟩ := @commentEnd_spec _ _ _ [] h
  rw [nil_append] at heq
  rw [heq]
  cases dashed <;> simp

/-! ### Tags -/

/-- A tag as it stands in the source, with its tokens. -/
structure Tag where
  kind : TagKind
  raw : Bytes
  dashedOpen : Bool
  dashedClose : Bool
  tokens : List Token

/-- The byte before the brace that closes a tag. -/
def TagKind.mark : TagKind → UInt8
  | comment => 0x23
  | expr => 0x7D
  | stmt => 0x25

def dash (dashed : Bool) : Bytes := if dashed then [0x2D] else []

/-- A tag consists of its opener, its inside and its closer. The inside does not end with a dash if
the closer has none. -/
def Tag.WellClosed (tag : Tag) : Prop :=
  ∃ body, tag.raw = tag.kind.opener ++ dash tag.dashedOpen ++ body ++ dash tag.dashedClose ++
      [tag.kind.mark, 0x7D] ∧ (tag.dashedClose = false → body.getLast? ≠ some 0x2D)

/-- The tag of an expression or a statement, with the depth of braces after it. -/
def bracedTag (isExpr : Bool) (pos curly : ℕ) (rest : Bytes) : Lexing (Tag × ℕ) := do
  let dashed := dashedOpener rest
  let openKind := if isExpr then .openExpr else .openStmt
  let start := if dashed then 3 else 2
  let (tokens, stop, curly) ←
    lexTag isExpr (rest.length + 1) (pos + start) curly (some openKind) (rest.drop start)
  pure ({ kind := if isExpr then .expr else .stmt
          raw := rest.take (stop - pos)
          dashedOpen := dashed
          dashedClose := tokens.getLast?.any fun t => stop = t.pos + 3
          tokens := ⟨openKind, [], pos⟩ :: tokens }, curly)

/-- The tag at a place, with the depth of braces after it. -/
def tagAt (pos curly : ℕ) (rest : Bytes) : Lexing (Tag × ℕ) :=
  if opens .comment rest then
    let start := if dashedOpener rest then 3 else 2
    match commentEnd 0 none (rest.drop start) with
    | none => throw (.parse pos "missing end of comment tag")
    | some (len, dashed) =>
      pure ({ kind := .comment
              raw := rest.take (start + len + if dashed then 3 else 2)
              dashedOpen := dashedOpener rest
              dashedClose := dashed
              tokens := [⟨.comment, (rest.drop start).take len, pos⟩] }, curly)
  else if opens .expr rest then bracedTag true pos 0 rest
  else bracedTag false pos curly rest

/-- What a tag at a place is. -/
structure Tag.At (tag : Tag) (rest : Bytes) : Prop where
  closed : tag.WellClosed
  starts : ∃ tail, rest = tag.raw ++ tail
  opens_kind : opens tag.kind rest = true
  dashedOpen_eq : tag.dashedOpen = dashedOpener rest
  last_kind : ∃ t, tag.tokens.getLast? = some t ∧ t.kind ≠ .text

section TagAt

variable {kind : TagKind} {pos curly curly' : ℕ} {rest : Bytes} {tag : Tag}

theorem opens_split (h : opens kind rest = true) :
    rest = kind.opener ++ dash (dashedOpener rest) ++
      rest.drop (if dashedOpener rest then 3 else 2) ∧
      (kind.opener ++ dash (dashedOpener rest)).length = if dashedOpener rest then 3 else 2 := by
  rw [opens, List.isPrefixOf_iff_prefix] at h
  obtain ⟨l, rfl⟩ := h
  have hlen : kind.opener.length = 2 := by cases kind <;> rfl
  have hdrop : (kind.opener ++ l).drop 2 = l := drop_left' hlen
  rw [dashedOpener, hdrop, dash]
  by_cases hdash : l.head? = some 0x2D
  · obtain ⟨m, rfl⟩ := head?_eq_some_iff.mp hdash
    rw [append_assoc, append_cancel_left_eq, drop_append, hlen]
    simp [hlen]
  · simp [hdash, hlen, hdrop]

theorem bracedTag_at {isExpr : Bool} (hopen : opens (if isExpr then .expr else .stmt) rest = true)
    (h : bracedTag isExpr pos curly rest = some (.ok (tag, curly'))) : tag.At rest := by
  obtain ⟨hsplit, hstart⟩ := opens_split hopen
  obtain ⟨⟨tokens, stop, curly⟩, htag, h⟩ := Lexing.bind_ok.mp h
  obtain ⟨rfl, rfl⟩ := h
  obtain ⟨body, dashed, tail, hdrop, rfl, hlast, hbody⟩ := lexTag_spec htag
  have hdash : (tokens.getLast?.any fun t =>
      decide (pos + (if dashedOpener rest then 3 else 2) + body.length +
        (closer isExpr dashed).length = t.pos + 3)) = dashed := by
    rw [hlast]
    cases dashed <;> simp [closer]
  have hraw : rest.take (pos + (if dashedOpener rest then 3 else 2) + body.length +
      (closer isExpr dashed).length - pos) =
        (if isExpr then TagKind.expr else .stmt).opener ++ dash (dashedOpener rest) ++ body ++
          closer isExpr dashed := by
    rw [hdrop, ← append_assoc, ← append_assoc] at hsplit
    refine (congrArg (List.take _) hsplit).trans (take_left' ?_)
    rw [length_append, length_append, hstart]
    omega
  refine ⟨⟨body, ?_, ?_⟩, ?_, ?_, rfl, ?_⟩
  · rw [hraw, hdash]
    cases isExpr <;> simp [closer, dash, TagKind.mark]
  · rw [hdash]
    exact hbody
  · exact ⟨_, (take_append_drop _ rest).symm⟩
  · exact hopen
  · refine ⟨_, (getLast?_cons.trans (by rw [hlast])), ?_⟩
    cases isExpr <;> simp [closeKind]

theorem tagAt_at (hopen : opensTag rest = true)
    (h : tagAt pos curly rest = some (.ok (tag, curly'))) :
    tag.At rest := by
  rw [tagAt] at h
  by_cases hcomment : opens .comment rest = true
  · rw [if_pos hcomment] at h
    dsimp only at h
    obtain ⟨hsplit, hstart⟩ := opens_split hcomment
    cases hend : commentEnd 0 none (rest.drop (if dashedOpener rest then 3 else 2)) with
    | none =>
      rw [hend] at h
      exact absurd h Lexing.throw_ok
    | some r =>
      obtain ⟨len, dashed⟩ := r
      rw [hend, Lexing.pure_ok] at h
      obtain ⟨rfl, rfl⟩ := h
      obtain ⟨body, tail, hdrop, rfl, hbody⟩ := @commentEnd_spec _ _ _ [] hend
      rw [nil_append] at hdrop
      refine ⟨⟨body, ?_, hbody⟩, ⟨_, (take_append_drop _ rest).symm⟩, hcomment, rfl, _, rfl,
        by simp⟩
      rw [hdrop, ← append_assoc, ← append_assoc] at hsplit
      refine (congrArg (List.take _) hsplit).trans ?_
      rw [take_left', dash, ← append_assoc]
      · rfl
      · rw [length_append, length_append, hstart]
        cases dashed <;> rfl
  rw [if_neg hcomment] at h
  by_cases hexpr : opens .expr rest = true
  · rw [if_pos hexpr] at h
    exact @bracedTag_at _ _ _ _ _ true hexpr h
  · rw [if_neg hexpr] at h
    refine bracedTag_at ?_ h
    rw [opensTag] at hopen
    simpa [hcomment, hexpr] using hopen

end TagAt

end R9v.Template

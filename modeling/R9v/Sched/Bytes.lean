import R9v.Sched.Rerun
import R9v.Lib.Utf8Chars

/-!
# What the detokenizer accepts

The default detokenizer reads tokens as the bytes of a text and keeps back the bytes of a
character that is not complete. From nothing kept back it accepts exactly the bytes of UTF-8
texts, and writes these (`byte_detokenizer_utf8`). What it does with a token depends only on what
it keeps back (`appendToken_eq`).
-/

namespace R9v

open Checked List

/-! ### One byte -/

/-- The number of bytes of the character that a byte begins, when there is more than one. -/
def leadLen (b : ℕ) : Option ℕ :=
  if 0xC2 ≤ b ∧ b ≤ 0xDF then some 2
  else if 0xE0 ≤ b ∧ b ≤ 0xEF then some 3
  else if 0xF0 ≤ b ∧ b ≤ 0xF4 then some 4
  else none

/-- What a byte writes, and what is kept back with it, for the bytes that are kept back and the
length of their character. -/
def takeByte (held : Text × ℕ) (b : ℕ) : Option (Text × (Text × ℕ)) :=
  if 255 < b then none
  else if held.1 = [] then
    if b ≤ 0x7F then some ([b], [], 0) else (leadLen b).map fun n => ([], [b], n)
  else if Utf8.isTail b then
    if held.1.length + 1 = held.2 then
      if Utf8.valid (held.1 ++ [b]) then some (held.1 ++ [b], [], 0) else none
    else some ([], held.1 ++ [b], held.2)
  else none

/-- What some bytes write, and what is kept back in the end. -/
def takeBytes : Text × ℕ → List ℕ → Option (Text × (Text × ℕ))
  | held, [] => some ([], held)
  | held, b :: l => do
    let (written, held) ← takeByte held b
    let (rest, held) ← takeBytes held l
    pure (written ++ rest, held)

namespace ByteDetokenizer

variable {d d' : ByteDetokenizer} {k : SeqId} {token : ℕ} {out : Text}

theorem held_of_active (h : d.activeSeq = some k) : d.held k = (d.buf.take d.bufLen, d.expectedLen) :=
  if_pos h

/-- What a detokenizer makes of a byte, for what it keeps back. -/
structure Takes (k : SeqId) (out : Text) (r : SchedResult ℕ × ByteDetokenizer × Text)
    (written held : Text) (n : ℕ) :
    Prop where
  count : r.1 = .ok written.length
  output : r.2.2 = out ++ written
  wellFormed : r.2.1.WellFormed
  active : r.2.1.activeSeq = some k
  held : r.2.1.held k = (held, n)

/-- The outcome of a byte, given what `takeByte` says. -/
def Outcome (k : SeqId) (out : Text) (r : SchedResult ℕ × ByteDetokenizer × Text) :
    Option (Text × (Text × ℕ)) → Prop
  | none => ∃ e, r.1 = .error e
  | some (written, held, n) => Takes k out r written held n

theorem start_takes (h : d.WellFormed) (ha : d.activeSeq = some k) (b : ℕ) {n : ℕ} (hn : 1 < n)
    (hn' : n ≤ 4) : Takes k out (d.start b n out) [] [b] n := by
  refine ⟨rfl, (append_nil out).symm, h.start b hn hn' out, ha, ?_⟩
  have hlen := h.length_eq
  rcases hbuf : d.buf with _ | ⟨x, buf⟩
  · simp [hbuf] at hlen
  · simp [start, held, ha, hbuf]

theorem appendFirst_outcome (h : d.WellFormed) (ha : d.activeSeq = some k) (hzero : d.bufLen = 0)
    (htoken : token ≤ 255) : Outcome k out (d.appendFirst token out) (takeByte ([], 0) token) := by
  have hheld : d.held k = ([], 0) := by
    have hexp : d.expectedLen = 0 := by
      have := h.bounds
      omega
    rw [held_of_active ha, hzero, hexp, take_zero]
  simp only [takeByte, if_neg (show ¬255 < token by omega), if_true]
  unfold appendFirst leadLen
  split_ifs
  · exact ⟨rfl, rfl, h, ha, hheld⟩
  · exact start_takes h ha token (by decide) (by decide)
  · exact start_takes h ha token (by decide) (by decide)
  · exact start_takes h ha token (by decide) (by decide)
  · exact ⟨_, rfl⟩

theorem appendNext_outcome (h : d.WellFormed) (ha : d.activeSeq = some k) (hpos : d.bufLen ≠ 0)
    (htoken : token ≤ 255) (htail : Utf8.isTail token) :
    Outcome k out (d.appendNext token out) (takeByte (d.held k) token) := by
  have hlen := h.length_eq
  have hbounds := h.bounds
  have hroom : d.bufLen < d.buf.length := by omega
  have hheld := held_of_active ha
  have htake : (d.held k).1.length = d.bufLen := by
    rw [hheld, length_take]
    omega
  have hne : (d.held k).1 ≠ [] := fun hnil => hpos (by rw [← htake, hnil]; rfl)
  have hset := take_set_succ d.buf d.bufLen token hroom
  have htakes : takeByte (d.held k) token = if d.bufLen + 1 = d.expectedLen then
      if Utf8.valid (d.buf.take d.bufLen ++ [token]) then
        some (d.buf.take d.bufLen ++ [token], [], 0)
      else none
    else some ([], d.buf.take d.bufLen ++ [token], d.expectedLen) := by
    unfold takeByte
    rw [if_neg (by omega), if_neg hne, if_pos htail, htake]
    simp only [hheld]
  unfold appendNext
  rw [htakes, if_neg (by omega)]
  dsimp only
  rw [hset]
  split_ifs with hfull hvalid
  · refine ⟨?_, rfl, ⟨?_, Or.inl ⟨rfl, rfl⟩⟩, ha, ?_⟩
    · simp only [length_append, length_take, length_singleton]
      congr 1
      omega
    · simpa [drop] using hlen
    · simp [held, drop, ha]
  · exact ⟨_, rfl⟩
  · refine ⟨rfl, (append_nil out).symm, ⟨?_, Or.inr ?_⟩, ha, ?_⟩
    · simpa using hlen
    · dsimp only
      omega
    · simp only [held, ha, if_true, hset]

/-- **What a token does** depends only on what is kept back. -/
theorem appendToken_outcome (h : d.WellFormed) (k : SeqId) (token : ℕ) (out : Text) :
    Outcome k out (d.appendToken k token out) (takeByte (d.held k) token) := by
  have hactive := serve_activeSeq d k
  have hserve := held_serve d k
  unfold appendToken
  split
  · rename_i hbig
    rw [takeByte, if_pos hbig]
    exact ⟨_, rfl⟩
  · rename_i hbig
    rw [← hserve]
    dsimp only
    split
    · rename_i hzero
      have hexp : (d.serve k).expectedLen = 0 := by
        have := (h.serve k).bounds
        omega
      rw [held_of_active hactive, hzero, hexp, take_zero]
      exact appendFirst_outcome (h.serve k) hactive hzero (by omega)
    · rename_i hpos
      split
      · rename_i htail
        exact appendNext_outcome (h.serve k) hactive hpos (by omega) htail
      · rename_i htail
        have hne : ((d.serve k).held k).1 ≠ [] := fun hnil => hpos (by
          have hlen := held_length (h.serve k) k
          rw [hnil, bufferedLen_of_active hactive] at hlen
          exact hlen.symm)
        rw [takeByte, if_neg hbig, if_neg hne, if_neg htail]
        exact ⟨_, rfl⟩

/-! ### Many bytes -/

/-- Decodes tokens at the end of a text, up to the first that is not accepted: the numbers of
bytes that they add. -/
def appendTokens (d : ByteDetokenizer) (k : SeqId) :
    List ℕ → Text → SchedResult (List ℕ) × ByteDetokenizer × Text
  | [], out => (.ok [], d, out)
  | token :: tokens, out =>
    match d.appendToken k token out with
    | (.error e, d, out) => (.error e, d, out)
    | (.ok count, d, out) =>
      match d.appendTokens k tokens out with
      | (.error e, d, out) => (.error e, d, out)
      | (.ok counts, d, out) => (.ok (count :: counts), d, out)

/-- **What tokens do** depends only on what is kept back. -/
theorem appendTokens_eq (h : d.WellFormed) (k : SeqId) (tokens : List ℕ) (out : Text) :
    match takeBytes (d.held k) tokens with
    | none => ∃ e, (d.appendTokens k tokens out).1 = .error e
    | some (written, held) => ∃ counts d', d.appendTokens k tokens out = (.ok counts, d', out ++ written) ∧
        counts.sum = written.length ∧ counts.length = tokens.length ∧ d'.WellFormed ∧ d'.held k = held := by
  induction tokens generalizing d out with
  | nil => exact ⟨[], d, by simp [appendTokens], rfl, rfl, h, rfl⟩
  | cons token tokens ih =>
    have hout := appendToken_outcome h k token out
    simp only [takeBytes, appendTokens]
    rcases hbyte : takeByte (d.held k) token with _ | ⟨written, held, n⟩
    · rw [hbyte] at hout
      obtain ⟨e, he⟩ := hout
      rcases hr : d.appendToken k token out with ⟨r, d', out'⟩
      rw [hr] at he
      obtain rfl : r = .error e := he
      exact ⟨e, rfl⟩
    · rw [hbyte] at hout
      rcases hr : d.appendToken k token out with ⟨r, d', out'⟩
      rw [hr] at hout
      obtain ⟨rfl, rfl, hwf, hact, hheld⟩ := hout
      have ih' := ih hwf (out ++ written)
      dsimp only at hheld
      rw [hheld] at ih'
      rcases hrest : takeBytes (held, n) tokens with _ | ⟨rest, held'⟩
      · rw [hrest] at ih'
        obtain ⟨e, he⟩ := ih'
        rcases hr' : d'.appendTokens k tokens (out ++ written) with ⟨r, d'', out''⟩
        rw [hr'] at he
        obtain rfl : r = .error e := he
        simp only [Option.bind_eq_bind, Option.bind_some, hrest, Option.bind_none, hr']
        exact ⟨e, rfl⟩
      · rw [hrest] at ih'
        obtain ⟨counts, d'', heq, hsum, hlen, hwf', hheld'⟩ := ih'
        simp only [Option.bind_eq_bind, Option.bind_some, hrest, Option.pure_def, heq]
        exact ⟨written.length :: counts, d'', by rw [append_assoc], by simp [hsum], by simp [hlen],
          hwf', hheld'⟩

end ByteDetokenizer

/-! ### Texts -/

section Texts

variable {l l' rest : List ℕ} {written p : Text} {n b : ℕ} {held : Text × ℕ}

/-- What was taken is a text and the beginning of a character. -/
structure Taken (l : List ℕ) (written p : Text) (n : ℕ) : Prop where
  eq : l = written ++ p
  valid : Utf8.valid written = true
  begun : (p = [] ∧ n = 0) ∨ Utf8.Begun p n

theorem leadLen_eq_some : leadLen b = some n ↔ ∃ low high m, Utf8.second b = some ((low, high), m) ∧
    n = m + 2 := by
  unfold leadLen Utf8.second
  split_ifs <;> simp <;> omega

theorem Taken.step (h : Taken l written p n) {w p' : Text} {n' : ℕ}
    (hb : takeByte (p, n) b = some (w, p', n')) : Taken (l ++ [b]) (written ++ w) p' n' := by
  obtain ⟨rfl, hvalid, hbegun⟩ := h
  unfold takeByte at hb
  split at hb
  · cases hb
  · rcases hbegun with ⟨rfl, rfl⟩ | hbegun
    · rw [if_pos rfl] at hb
      split at hb
      · rename_i hascii
        cases hb
        refine ⟨by simp, ?_, Or.inl ⟨rfl, rfl⟩⟩
        rw [Utf8.valid_append hvalid, Utf8.valid_isChar (.ascii hascii)]
      · obtain ⟨m, hm, heq⟩ := Option.map_eq_some_iff.mp hb
        cases heq
        obtain ⟨low, high, m, hsec, rfl⟩ := leadLen_eq_some.mp hm
        exact ⟨by simp, by simpa using hvalid, Or.inr (.lead hsec (by simp) (by simp))⟩
    · cases hbegun with
      | @lead x low high m rest hsec hlen hall =>
        rw [if_neg (cons_ne_nil x rest)] at hb
        split at hb
        · rename_i htail
          split at hb
          · split at hb
            · rename_i hvalid'
              cases hb
              refine ⟨by simp, ?_, Or.inl ⟨rfl, rfl⟩⟩
              rw [Utf8.valid_append hvalid]
              exact hvalid'
            · cases hb
          · rename_i hfull
            cases hb
            refine ⟨by simp, by simpa using hvalid, Or.inr (.lead hsec ?_ ?_)⟩
            · simp only [length_cons] at hfull
              have hone : (rest ++ [b]).length = rest.length + 1 := by simp
              exact hone.trans_lt (by omega)
            · exact forall_mem_append.mpr ⟨hall, by simpa using htail⟩
        · cases hb

/-- **What is taken** is a text and the beginning of a character. -/
theorem Taken.run (h : Taken l written p n) {w p' : Text} {n' : ℕ}
    (hl : takeBytes (p, n) l' = some (w, p', n')) : Taken (l ++ l') (written ++ w) p' n' := by
  induction l' generalizing l written p n w with
  | nil =>
    cases hl
    simpa using h
  | cons b l' ih =>
    simp only [takeBytes, Option.bind_eq_bind, Option.bind_eq_some_iff, Option.pure_def,
      Option.some.injEq, Prod.mk.injEq, Prod.exists] at hl
    obtain ⟨w₁, p₁, n₁, hb, w₂, p₂, n₂, hrest, rfl, rfl, rfl⟩ := hl
    have := ih (h.step hb) hrest
    simpa [append_assoc] using this

theorem takeBytes_tails (hp : p ≠ []) (hl : l ≠ []) (hall : ∀ b ∈ l, Utf8.isTail b)
    (hn : p.length + l.length = n) (hvalid : Utf8.valid (p ++ l) = true) :
    takeBytes (p, n) l = some (p ++ l, [], 0) := by
  induction l generalizing p with
  | nil => exact absurd rfl hl
  | cons b l ih =>
    obtain ⟨hb, hall⟩ := forall_mem_cons.mp hall
    have hle : ¬255 < b := by
      have := Utf8.isTail_iff.mp hb
      omega
    rw [length_cons] at hn
    have hbyte : takeByte (p, n) b = if l = [] then some (p ++ [b], [], 0) else
        some ([], p ++ [b], n) := by
      unfold takeByte
      rw [if_neg hle, if_neg hp, if_pos hb]
      rcases l with _ | ⟨x, l⟩
      · rw [if_pos (by simpa using hn), if_pos hvalid, if_pos rfl]
      · rw [if_neg (by simp at hn ⊢; omega), if_neg (by simp)]
    simp only [takeBytes, hbyte]
    by_cases hnil : l = []
    · subst hnil
      simp [takeBytes]
    · rw [if_neg hnil]
      have ih' := ih (p := p ++ [b]) (by simp) hnil hall (by simp; omega) (by simpa using hvalid)
      simp [ih']

theorem takeBytes_isChar (h : Utf8.IsChar l) : takeBytes ([], 0) l = some (l, [], 0) := by
  have hvalid := Utf8.valid_isChar h
  cases h with
  | @ascii b hb =>
    have hbyte : takeByte ([], 0) b = some ([b], [], 0) := by
      unfold takeByte
      rw [if_neg (by omega), if_pos rfl, if_pos hb]
    simp [takeBytes, hbyte]
  | @long lead low high n b rest hsec hlow hhigh hlen hall =>
    have hbounds := Utf8.second_eq_some hsec
    have hbyte : takeByte ([], 0) lead = some ([], [lead], n + 2) := by
      unfold takeByte
      rw [if_neg (by omega), if_pos rfl, if_neg (by omega),
        leadLen_eq_some.mpr ⟨low, high, n, hsec, rfl⟩]
      rfl
    have htails := takeBytes_tails (p := [lead]) (l := b :: rest) (n := n + 2) (by simp) (by simp)
      (forall_mem_cons.mpr ⟨Utf8.isTail_iff.mpr (by omega), hall⟩)
      (by simp only [length_cons, length_nil]; omega) (by simpa using hvalid)
    rw [takeBytes, hbyte]
    simp only [Option.bind_eq_bind, Option.bind_some, htails]
    rfl

theorem takeBytes_append : takeBytes held (l ++ l') =
    (takeBytes held l).bind fun x => (takeBytes x.2 l').map fun y => (x.1 ++ y.1, y.2) := by
  induction l generalizing held with
  | nil =>
    simp only [nil_append, takeBytes, Option.bind_some]
    cases takeBytes held l' <;> rfl
  | cons b l ih =>
    simp only [cons_append, takeBytes, ih]
    cases takeByte held b with
    | none => rfl
    | some x =>
      simp only [Option.bind_eq_bind, Option.bind_some]
      cases takeBytes x.2 l with
      | none => rfl
      | some y =>
        simp only [Option.pure_def, Option.bind_some]
        cases takeBytes y.2 l' with
        | none => rfl
        | some z => simp

/-- **A text is taken** as it is. -/
theorem takeBytes_valid (h : Utf8.valid l = true) : takeBytes ([], 0) l = some (l, [], 0) := by
  refine Utf8.valid_induction (P := fun l => takeBytes ([], 0) l = some (l, [], 0)) rfl
    (fun c l hc _ ih => ?_) h
  rw [takeBytes_append, takeBytes_isChar hc]
  simp [ih]

end Texts

section Accepts

variable {d d' : ByteDetokenizer} {k : SeqId} {tokens counts : List ℕ} {out : Text}

theorem ByteDetokenizer.appendTokens_taken (h : d.WellFormed) (hheld : d.held k = ([], 0))
    (hrun : d.appendTokens k tokens [] = (.ok counts, d', out)) :
    ∃ p n, Taken tokens out p n ∧ counts.sum = out.length ∧ d'.WellFormed ∧ d'.held k = (p, n) := by
  have heq := appendTokens_eq h k tokens []
  rw [hheld] at heq
  rcases htake : takeBytes ([], 0) tokens with _ | ⟨written, p, n⟩
  · rw [htake, hrun] at heq
    obtain ⟨e, he⟩ := heq
    cases he
  · rw [htake] at heq
    obtain ⟨counts', d'', hrun', hsum, -, hwf, hheld'⟩ := heq
    rw [hrun] at hrun'
    cases hrun'
    have hstart : Taken [] [] [] 0 := ⟨rfl, rfl, Or.inl ⟨rfl, rfl⟩⟩
    have htaken := hstart.run htake
    exact ⟨p, n, by simpa using htaken, by simpa using hsum, hwf, hheld'⟩

theorem ByteDetokenizer.appendTokens_valid (h : d.WellFormed) (hheld : d.held k = ([], 0))
    (hvalid : Utf8.valid tokens = true) :
    ∃ counts d', d.appendTokens k tokens [] = (.ok counts, d', tokens) ∧ d'.WellFormed ∧
      d'.held k = ([], 0) := by
  have heq := appendTokens_eq h k tokens []
  rw [hheld, takeBytes_valid hvalid] at heq
  obtain ⟨counts, d', hrun, -, -, hwf, hheld'⟩ := heq
  exact ⟨counts, d', by simpa using hrun, hwf, hheld'⟩

theorem Taken.split {written p : Text} {n : ℕ} (h : Taken tokens written p n) :
    tokens.take (tokens.length - p.length) = written ∧
      tokens.drop (tokens.length - p.length) = p := by
  obtain ⟨rfl, -, -⟩ := h
  simp

end Accepts

/-- **The detokenizer accepts exactly the bytes of texts**, and writes them; when something is
kept back in the end, what came before it is a text, and it is the beginning of a character. -/
theorem byte_detokenizer_utf8 (k : SeqId) (tokens : List ℕ) :
    ((∃ counts d out, ByteDetokenizer.new.appendTokens k tokens [] = (.ok counts, d, out) ∧
        d.bufferedLen k = 0) ↔ (∀ t ∈ tokens, t ≤ 255) ∧ Utf8.valid tokens = true) ∧
      ∀ counts d out, ByteDetokenizer.new.appendTokens k tokens [] = (.ok counts, d, out) →
        (d.bufferedLen k = 0 → out = tokens ∧ counts.sum = tokens.length) ∧
        Utf8.valid out = true ∧ out = tokens.take (tokens.length - d.bufferedLen k) ∧
        (0 < d.bufferedLen k →
          ∃ n, Utf8.Begun (tokens.drop (tokens.length - d.bufferedLen k)) n) := by
  have hnew : ByteDetokenizer.new.held k = ([], 0) := rfl
  constructor
  · constructor
    · rintro ⟨counts, d, out, hrun, hzero⟩
      obtain ⟨p, n, htaken, -, hwf, hheld⟩ :=
        ByteDetokenizer.appendTokens_taken ByteDetokenizer.new_wellFormed hnew hrun
      have hlen := ByteDetokenizer.held_length hwf k
      rw [hheld, hzero] at hlen
      obtain rfl : p = [] := eq_nil_of_length_eq_zero hlen
      obtain rfl : tokens = out := by simpa using htaken.eq
      exact ⟨Utf8.le_of_valid htaken.valid, htaken.valid⟩
    · rintro ⟨-, hvalid⟩
      obtain ⟨counts, d, hrun, hwf, hheld⟩ :=
        ByteDetokenizer.appendTokens_valid ByteDetokenizer.new_wellFormed hnew hvalid
      refine ⟨counts, d, tokens, hrun, ?_⟩
      rw [← ByteDetokenizer.held_length hwf k, hheld]
      rfl
  · intro counts d out hrun
    obtain ⟨p, n, htaken, hsum, hwf, hheld⟩ :=
      ByteDetokenizer.appendTokens_taken ByteDetokenizer.new_wellFormed hnew hrun
    have hlen := ByteDetokenizer.held_length hwf k
    rw [hheld] at hlen
    obtain ⟨htake, hdrop⟩ := htaken.split
    rw [← hlen]
    dsimp only
    rw [htake, hdrop]
    refine ⟨fun hzero => ?_, htaken.valid, rfl, fun hpos => ?_⟩
    · obtain rfl := eq_nil_of_length_eq_zero hzero
      obtain rfl : tokens = out := by simpa using htaken.eq
      exact ⟨rfl, hsum⟩
    · rcases htaken.begun with ⟨rfl, -⟩ | hbegun
      · exact absurd hpos (by simp)
      · exact ⟨n, hbegun⟩

end R9v

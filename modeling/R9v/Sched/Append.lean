import R9v.Sched.Sequence

/-!
# Appending a token

What the detokenizer does with a token (`ByteDetokenizer.appendToken_cases`), and what
a sequence does with it (`Sequence.appendGeneratedToken_cases`): the token is rejected
and the sequence is as it was, or the sequence has one token more, or – where the text
is cut inside a character – the step panics. A sequence never has more bytes of text
than it has tokens (`Sequence.TextOk`), so that none of its offsets overflows.
-/

namespace R9v

open Checked List

/-! ### The detokenizer -/

namespace ByteDetokenizer

variable {d d' : ByteDetokenizer} {k k' : SeqId}

/-- A detokenizer after a token of the sequence `k`: it was not touched, or it serves
the sequence. -/
def Turned (d d' : ByteDetokenizer) (k : SeqId) : Prop := d' = d ∨ d'.activeSeq = some k

theorem bufferedLen_of_active (h : d.activeSeq = some k) : d.bufferedLen k = d.bufLen := if_pos h

theorem Turned.bufferedLen_le (h : Turned d d' k) (hne : k' ≠ k) :
    d'.bufferedLen k' ≤ d.bufferedLen k' := by
  rcases h with rfl | h
  · exact le_rfl
  · have hno : d'.activeSeq ≠ some k' := by
      rw [h]
      simpa using hne.symm
    simp [bufferedLen, hno]

theorem serve_activeSeq (d : ByteDetokenizer) (k : SeqId) : (d.serve k).activeSeq = some k := by
  unfold serve
  split
  · rfl
  · rename_i h
    simpa using h

theorem serve_bufLen (d : ByteDetokenizer) (k : SeqId) : (d.serve k).bufLen = d.bufferedLen k := by
  unfold serve bufferedLen
  split <;> simp_all

/-- What a served detokenizer has done with a byte: it rejected it and forgot the
character, or it wrote some bytes and holds back the others. -/
inductive Fed (d : ByteDetokenizer) (out : Text) : SchedResult ℕ × ByteDetokenizer × Text → Prop
  | rejected (e : SchedError) (d' : ByteDetokenizer) (active : d'.activeSeq = d.activeSeq)
      (len : d'.bufLen = 0 ∨ d' = d) : Fed d out (.error e, d', out)
  | wrote (d' : ByteDetokenizer) (bytes : Text) (active : d'.activeSeq = d.activeSeq)
      (len : bytes.length + d'.bufLen = d.bufLen + 1) :
      Fed d out (.ok bytes.length, d', out ++ bytes)

theorem start_fed (d : ByteDetokenizer) (b expected : ℕ) (out : Text) (h : d.bufLen = 0) :
    Fed d out (d.start b expected out) := by
  have := @Fed.wrote d out
    { d with buf := d.buf.set 0 b, bufLen := 1, expectedLen := expected } [] rfl (by simp [h])
  simpa [start] using this

theorem appendFirst_fed (d : ByteDetokenizer) (b : ℕ) (out : Text) (h : d.bufLen = 0) :
    Fed d out (d.appendFirst b out) := by
  unfold appendFirst
  split
  · exact .wrote d [b] rfl (by simp [Nat.add_comm])
  · split
    · exact start_fed d b 2 out h
    · split
      · exact start_fed d b 3 out h
      · split
        · exact start_fed d b 4 out h
        · exact .rejected _ d rfl (Or.inr rfl)

theorem appendNext_fed (d : ByteDetokenizer) (b : ℕ) (out : Text) : Fed d out (d.appendNext b out) := by
  unfold appendNext
  split
  · exact .rejected _ d rfl (Or.inr rfl)
  · simp only
    split
    · split
      · have hlen : ((d.buf.set d.bufLen b).take (d.bufLen + 1)).length = d.bufLen + 1 := by
          rw [length_take, length_set]
          omega
        have := @Fed.wrote d out
          { d with buf := d.buf.set d.bufLen b, bufLen := 0, expectedLen := 0 }
          ((d.buf.set d.bufLen b).take (d.bufLen + 1)) rfl (by simp [hlen])
        rw [hlen] at this
        exact this
      · exact .rejected _ _ rfl (Or.inl rfl)
    · have := @Fed.wrote d out
        { d with buf := d.buf.set d.bufLen b, bufLen := d.bufLen + 1 } [] rfl (by simp)
      simpa using this

/-- **What a token does to the detokenizer and to the text**: it is rejected and the text
is as it was, or it adds some bytes and the others are held back. -/
theorem appendToken_cases (d : ByteDetokenizer) (k : SeqId) (token : ℕ) (out : Text) :
    (∃ e d', d.appendToken k token out = (.error e, d', out) ∧ Turned d d' k ∧
      d'.bufferedLen k ≤ d.bufferedLen k) ∨
    ∃ bytes d', d.appendToken k token out = (.ok bytes.length, d', out ++ bytes) ∧ Turned d d' k ∧
      bytes.length + d'.bufferedLen k = d.bufferedLen k + 1 := by
  have hactive := serve_activeSeq d k
  have hlen := serve_bufLen d k
  have hfed : ∀ {r}, Fed (d.serve k) out r →
      (∃ e d', r = (.error e, d', out) ∧ Turned d d' k ∧ d'.bufferedLen k ≤ d.bufferedLen k) ∨
      ∃ bytes d', r = (.ok bytes.length, d', out ++ bytes) ∧ Turned d d' k ∧
        bytes.length + d'.bufferedLen k = d.bufferedLen k + 1 := by
    intro r hr
    cases hr with
    | rejected e d' hact hbuf =>
      refine Or.inl ⟨e, d', rfl, Or.inr (hact.trans hactive), ?_⟩
      rw [bufferedLen_of_active (hact.trans hactive), ← hlen]
      rcases hbuf with h | rfl <;> omega
    | wrote d' bytes hact hbuf =>
      refine Or.inr ⟨bytes, d', rfl, Or.inr (hact.trans hactive), ?_⟩
      rw [bufferedLen_of_active (hact.trans hactive), ← hlen]
      exact hbuf
  unfold appendToken
  split
  · exact Or.inl ⟨_, d, rfl, Or.inl rfl, le_rfl⟩
  · simp only
    split
    · rename_i hzero
      exact hfed (appendFirst_fed _ token out hzero)
    · split
      · exact hfed (appendNext_fed _ token out)
      · exact hfed (.rejected _ (d.serve k).drop rfl (Or.inl rfl))

theorem reset_bufferedLen_le (d : ByteDetokenizer) (k k' : SeqId) :
    (d.reset k).bufferedLen k' ≤ d.bufferedLen k' := by
  unfold reset
  split
  · simp [bufferedLen]
  · exact le_rfl

end ByteDetokenizer

/-! ### Stop strings -/

theorem utf8Find_le {pat text : List ℕ} {i : ℕ} (h : Utf8.find pat text = some i) :
    i ≤ text.length := by
  have := mem_range.mp (mem_of_find?_eq_some h)
  omega

theorem StopCriteria.checkStopString_le {c : StopCriteria} {text stop : Text} {i : ℕ}
    (h : c.checkStopString text = some (i, stop)) : i ≤ text.length := by
  have hstep : ∀ (best : Option (ℕ × Text)) (s : Text),
      (∀ x, best = some x → x.1 ≤ text.length) →
      ∀ x, earlier text best s = some x → x.1 ≤ text.length := by
    intro best s hbest x hx
    unfold earlier at hx
    split at hx
    · exact hbest x hx
    · rcases hfind : Utf8.find s text with _ | idx
      · simp only [hfind] at hx
        exact hbest x hx
      · have hle := utf8Find_le hfind
        rcases best with _ | best
        · simp only [hfind, Option.some.injEq] at hx
          rw [← hx]
          exact hle
        · simp only [hfind] at hx
          split at hx
          · cases hx
            exact hle
          · cases hx
            exact hbest _ rfl
  have hfold : ∀ (l : List Text) (best : Option (ℕ × Text)),
      (∀ x, best = some x → x.1 ≤ text.length) →
      ∀ x, l.foldl (earlier text) best = some x → x.1 ≤ text.length := by
    intro l
    induction l with
    | nil => exact fun best hbest => hbest
    | cons s l ih => exact fun best hbest => ih _ (hstep best s hbest)
  exact hfold c.stopStrings none (fun x hx => (by cases hx)) (i, stop) h

/-! ### Sequences -/

namespace Sequence

variable {s s' : Sequence} {d d' : ByteDetokenizer} {token : ℕ}

/-- The bytes of the text, with those that are held back, are not more than the tokens:
every token is one byte. -/
def TextOk (s : Sequence) (d : ByteDetokenizer) : Prop :=
  s.tailStartByte + s.detokenizedTail.length + d.bufferedLen s.seqId ≤ s.generated.length

/-- The sequence differs from `s` only in what follows its tokens and its text. -/
def SameBut (s s' : Sequence) : Prop :=
  s' = { s with
    generated := s'.generated, detokenizedTail := s'.detokenizedTail,
    tailStartByte := s'.tailStartByte, tokenByteSpans := s'.tokenByteSpans,
    pendingUtf8Start := s'.pendingUtf8Start }

theorem SameBut.trans {s'' : Sequence} (h : SameBut s s') (h' : SameBut s' s'') :
    SameBut s s'' := by
  unfold SameBut at h h' ⊢
  rw [h', h]

/-- What a token makes of a sequence. -/
structure Appended (s : Sequence) (token : ℕ) (s' : Sequence) (finish : Option FinishReason) :
    Prop where
  same : SameBut s s'
  generated_take : ∃ cut, s'.generated = (s.generated ++ [token]).take cut
  goes_on : finish = none →
    s'.generated = s.generated ++ [token] ∧ s.generated.length + 1 < s.req.maxTokens
  not_cancelled : finish ≠ some .cancelled
  text_le : s'.tailStartByte + s'.detokenizedTail.length ≤ s.generated.length + 1

theorem recordSpan_frame (s : Sequence) (i start n stop : ℕ) :
    SameBut s (s.recordSpan i start n stop) ∧
      (s.recordSpan i start n stop).generated = s.generated ∧
      (s.recordSpan i start n stop).detokenizedTail = s.detokenizedTail ∧
      (s.recordSpan i start n stop).tailStartByte = s.tailStartByte := by
  unfold recordSpan
  split
  · exact ⟨rfl, rfl, rfl, rfl⟩
  · split <;> exact ⟨rfl, rfl, rfl, rfl⟩

/-- What comes after the text of a token: a verdict, or a panic. -/
theorem boundTail_cases (h : s.tailStartByte + s.detokenizedTail.length < 2 ^ 64) :
    (∃ s', s.boundTail = (.ok (none, false), s') ∧ SameBut s s' ∧ s'.generated = s.generated ∧
      s'.tailStartByte + s'.detokenizedTail.length =
        s.tailStartByte + s.detokenizedTail.length) ∨
    s.boundTail = (.error .panic, s) := by
  unfold boundTail
  simp only
  split
  · split
    · split
      · have hadd : add 64 s.tailStartByte
            ((Utf8.firstStart s.detokenizedTail (s.detokenizedTail.length - s.req.stop.maxStopLen)).getD
              (s.detokenizedTail.length - s.req.stop.maxStopLen)) = some _ := add_of_lt (by omega)
        simp only [hadd]
        refine Or.inl ⟨_, rfl, rfl, rfl, ?_⟩
        simp only [length_drop]
        omega
      · exact Or.inr rfl
    · exact Or.inl ⟨s, rfl, rfl, rfl, rfl⟩
  · exact Or.inl ⟨s, rfl, rfl, rfl, rfl⟩

theorem checkStop_cases (h : s.tailStartByte + s.detokenizedTail.length < 2 ^ 64) (i : ℕ) :
    (∃ finish trimmed s', s.checkStop i = (.ok (finish, trimmed), s') ∧ SameBut s s' ∧
      finish ≠ some .cancelled ∧ (∃ cut, s'.generated = s.generated.take cut) ∧
      (finish = none → s'.generated = s.generated) ∧
      s'.tailStartByte + s'.detokenizedTail.length =
        s.tailStartByte + s.detokenizedTail.length) ∨
    s.checkStop i = (.error .panic, s) := by
  unfold checkStop
  split
  · rename_i offset stop hstop
    have hle := StopCriteria.checkStopString_le hstop
    rw [add_of_lt (by omega)]
    exact Or.inl ⟨_, _, _, rfl, rfl, by simp, ⟨_, rfl⟩, fun hno => (by cases hno), rfl⟩
  · rcases boundTail_cases h with ⟨s', heq, hsame, hgen, hlen⟩ | hpanic
    · exact Or.inl ⟨none, false, s', heq, hsame, by simp,
        ⟨s.generated.length, by rw [hgen, take_length]⟩, fun _ => hgen, hlen⟩
    · exact Or.inr hpanic

/-- **What a sequence does with a token**: it rejects it and is as it was, or it has
one token more, or the step panics. -/
theorem appendGeneratedToken_cases (htext : s.TextOk d) (hlt : s.generated.length < s.req.maxTokens)
    (token : ℕ) :
    (∃ e d', s.appendGeneratedToken token d = (.error (.err e), s, d') ∧
      d.appendToken s.seqId token s.detokenizedTail = (.error e, d', s.detokenizedTail) ∧
      ByteDetokenizer.Turned d d' s.seqId ∧ s.TextOk d') ∨
    ((∃ s' d', s.appendGeneratedToken token d = (.error .panic, s', d')) ∧
      ∃ n, (d.appendToken s.seqId token s.detokenizedTail).1 = .ok n) ∨
    ∃ finish trimmed s' d', s.appendGeneratedToken token d = (.ok (finish, trimmed), s', d') ∧
      (∃ n, (d.appendToken s.seqId token s.detokenizedTail).1 = .ok n) ∧
      ByteDetokenizer.Turned d d' s.seqId ∧ Appended s token s' finish ∧
      (finish = none → s'.TextOk d') := by
  have hmax := s.req.maxTokens_lt
  unfold TextOk at htext
  unfold appendGeneratedToken
  rw [add_of_lt (by omega)]
  rcases ByteDetokenizer.appendToken_cases d s.seqId token s.detokenizedTail with
    ⟨e, d', heq, hturn, hbuf⟩ | ⟨bytes, d', heq, hturn, hbuf⟩
  · rw [heq]
    refine Or.inl ⟨e, d', rfl, rfl, hturn, ?_⟩
    unfold TextOk
    omega
  · rw [heq]
    simp only
    rw [add_of_lt (by omega)]
    simp only
    obtain ⟨hsame, hgen, htail, hstart⟩ := recordSpan_frame
      { s with detokenizedTail := s.detokenizedTail ++ bytes, generated := s.generated ++ [token] }
      s.generated.length (s.tailStartByte + s.detokenizedTail.length) bytes.length
      (s.tailStartByte + s.detokenizedTail.length + bytes.length)
    generalize hspan : recordSpan
      { s with detokenizedTail := s.detokenizedTail ++ bytes, generated := s.generated ++ [token] }
      s.generated.length (s.tailStartByte + s.detokenizedTail.length) bytes.length
      (s.tailStartByte + s.detokenizedTail.length + bytes.length) = t at *
    simp only at hgen htail hstart
    have hst : SameBut s t := by
      unfold SameBut at hsame ⊢
      rw [hsame]
    have hid : t.seqId = s.seqId := by rw [hst]
    have hlen : t.tailStartByte + t.detokenizedTail.length + d'.bufferedLen s.seqId ≤
        s.generated.length + 1 := by
      rw [htail, hstart, length_append]
      omega
    have hall : ∃ cut, t.generated = (s.generated ++ [token]).take cut :=
      ⟨(s.generated ++ [token]).length, by rw [hgen, take_length]⟩
    unfold afterText
    split
    · exact Or.inr (Or.inr ⟨_, _, t, d', rfl, ⟨_, rfl⟩, hturn,
        ⟨hst, hall, fun h => (by cases h), by simp, by omega⟩, fun h => (by cases h)⟩)
    · rename_i hfill
      have hroom : s.generated.length + 1 < s.req.maxTokens := by simpa using hfill
      have hok : t.TextOk d' := by
        unfold TextOk
        rw [hid, hgen, length_append, length_singleton]
        exact hlen
      split
      · exact Or.inr (Or.inr ⟨_, _, t, d', rfl, ⟨_, rfl⟩, hturn,
          ⟨hst, hall, fun _ => ⟨hgen, hroom⟩, by simp, by omega⟩, fun _ => hok⟩)
      · split
        · exact Or.inr (Or.inr ⟨_, _, t, d', rfl, ⟨_, rfl⟩, hturn,
            ⟨hst, hall, fun h => (by cases h), by simp, by omega⟩, fun h => (by cases h)⟩)
        · rcases checkStop_cases (s := t) (by omega) s.generated.length with
            ⟨finish, trimmed, s', hcheck, hsame', hne, ⟨cut, hcut⟩, hkeep, hlen'⟩ | hpanic
          · rw [hcheck]
            refine Or.inr (Or.inr ⟨finish, trimmed, s', d', rfl, ⟨_, rfl⟩, hturn,
              ⟨hst.trans hsame', ⟨cut, by rw [hcut, hgen]⟩,
                fun h => ⟨(hkeep h).trans hgen, hroom⟩, hne, by omega⟩, fun h => ?_⟩)
            have hid' : s'.seqId = s.seqId := by rw [hst.trans hsame']
            unfold TextOk
            rw [hid', hkeep h, hgen, length_append, length_singleton]
            omega
          · rw [hpanic]
            exact Or.inr (Or.inl ⟨⟨t, d', rfl⟩, _, rfl⟩)

end Sequence

end R9v

import R9v.Sched.Rerun

/-!
# Cutting a text

The text of a sequence loses its beginning when it has become long, and it must not be
cut inside a character. No character has more than four bytes, so that four bytes in a
row never lack a beginning (`Utf8.Dense`): a sequence that keeps at least four bytes is
cut between two characters, and one that has too few tokens is not cut at all.
-/

namespace Utf8

open List

/-- Of any four bytes in a row one begins a character. -/
def Dense (l : List ℕ) : Prop :=
  ∀ i, i + 4 ≤ l.length → ∃ j, i ≤ j ∧ j < i + 4 ∧ isTail (l.getD j 0) = false

theorem Dense.nil : Dense [] := by
  intro i hi
  simp at hi

theorem Dense.append {l c : List ℕ} (h : Dense l) (hc : c.length ≤ 4)
    (hlead : c = [] ∨ isTail (c.getD 0 0) = false) : Dense (l ++ c) := by
  intro i hi
  rw [length_append] at hi
  by_cases hl : i + 4 ≤ l.length
  · obtain ⟨j, h₁, h₂, h₃⟩ := h i hl
    refine ⟨j, h₁, h₂, ?_⟩
    rw [getD_eq_getElem?_getD] at h₃ ⊢
    rwa [getElem?_append_left (by omega)]
  · -- the four bytes reach into the character, and hence have its first byte
    have hne : c ≠ [] := by
      rintro rfl
      simp at hi
      omega
    refine ⟨l.length, by omega, by omega, ?_⟩
    rw [getD_eq_getElem?_getD, getElem?_append_right le_rfl, Nat.sub_self,
      ← getD_eq_getElem?_getD]
    exact hlead.resolve_left hne

theorem Dense.drop {l : List ℕ} (h : Dense l) (n : ℕ) : Dense (l.drop n) := by
  intro i hi
  rw [length_drop] at hi
  obtain ⟨j, h₁, h₂, h₃⟩ := h (i + n) (by omega)
  refine ⟨j - n, by omega, by omega, ?_⟩
  rw [getD_eq_getElem?_getD] at h₃ ⊢
  rwa [getElem?_drop, show n + (j - n) = j by omega]

theorem Dense.cut {l : List ℕ} (h : Dense l) {n : ℕ} (hn : n + 4 ≤ l.length) :
    isBoundary l ((firstStart l n).getD n) = true := by
  obtain ⟨j, h₁, h₂, h₃⟩ := h n hn
  cases hfirst : firstStart l n with
  | none =>
    refine absurd (find?_eq_none.mp hfirst j ?_) (by simpa using h₁)
    rw [mem_filter, mem_range, h₃]
    exact ⟨by omega, rfl⟩
  | some i =>
    have hmem := mem_of_find?_eq_some hfirst
    rw [mem_filter, mem_range] at hmem
    have hin : (decide (i < l.length) && !isTail (l.getD i 0)) = true := by
      rw [hmem.2, decide_eq_true hmem.1]
      rfl
    simp only [isBoundary, Option.getD_some, hin, Bool.or_true]

end Utf8

namespace R9v

open Checked

/-! ### The bytes of a character -/

namespace ByteDetokenizer

variable {d d' : ByteDetokenizer} {k : SeqId}

/-- What is held back begins with the first byte of a character. -/
def Led (d : ByteDetokenizer) : Prop := d.bufLen ≠ 0 → Utf8.isTail (d.buf.getD 0 0) = false

theorem Led.serve (h : d.Led) (k : SeqId) : (d.serve k).Led := by
  unfold ByteDetokenizer.serve
  split
  · exact fun hno => absurd rfl hno
  · exact h

theorem Led.reset (h : d.Led) (k : SeqId) : (d.reset k).Led := by
  unfold ByteDetokenizer.reset
  split
  · exact fun hno => absurd rfl hno
  · exact h

/-- What a token writes: nothing, or the bytes of a character. -/
structure Wrote (out : Text) (r : SchedResult ℕ × ByteDetokenizer × Text) : Prop where
  led : r.2.1.Led
  bytes : ∃ c, r.2.2 = out ++ c ∧ c.length ≤ 4 ∧ (c = [] ∨ Utf8.isTail (c.getD 0 0) = false)

theorem Wrote.nothing {out : Text} {x : SchedResult ℕ} (h : d.Led) : Wrote out (x, d, out) :=
  ⟨h, [], by simp, by simp, Or.inl rfl⟩

theorem start_wrote (h : d.WellFormed) {b : ℕ} (hb : Utf8.isTail b = false) (n : ℕ) (out : Text) :
    Wrote out (d.start b n out) := by
  refine .nothing fun _ => ?_
  rw [List.getD_eq_getElem?_getD, List.getElem?_set_self (by rw [h.length_eq]; omega)]
  exact hb

theorem appendFirst_wrote (h : d.WellFormed) (hl : d.Led) (b : ℕ) (out : Text) :
    Wrote out (d.appendFirst b out) := by
  have htail : ∀ {b}, b ≤ 0x7F ∨ 0xC0 ≤ b → Utf8.isTail b = false := by
    simp only [Utf8.isTail, Bool.and_eq_false_iff, decide_eq_false_iff_not]
    omega
  unfold appendFirst
  split
  · exact ⟨hl, [b], rfl, by simp, Or.inr (htail (Or.inl (by assumption)))⟩
  · split
    · exact start_wrote h (htail (Or.inr (by omega))) 2 out
    · split
      · exact start_wrote h (htail (Or.inr (by omega))) 3 out
      · split
        · exact start_wrote h (htail (Or.inr (by omega))) 4 out
        · exact .nothing hl

theorem appendNext_wrote (h : d.WellFormed) (hl : d.Led) (hpos : d.bufLen ≠ 0) (b : ℕ)
    (out : Text) : Wrote out (d.appendNext b out) := by
  have hfirst : (d.buf.set d.bufLen b).getD 0 0 = d.buf.getD 0 0 := by
    rw [List.getD_eq_getElem?_getD, List.getD_eq_getElem?_getD, List.getElem?_set_ne hpos]
  have hbounds := h.bounds
  unfold appendNext
  split
  · exact .nothing hl
  · dsimp only
    split
    · split
      · refine ⟨fun hno => absurd rfl hno, _, rfl, ?_, Or.inr ?_⟩
        · rw [List.length_take]
          omega
        · rw [List.getD_eq_getElem?_getD, List.getElem?_take_of_lt (by omega),
            ← List.getD_eq_getElem?_getD, hfirst]
          exact hl hpos
      · exact .nothing fun hno => absurd rfl hno
    · exact .nothing fun _ => hfirst ▸ hl hpos

theorem appendToken_wrote (h : d.WellFormed) (hl : d.Led) (k : SeqId) (token : ℕ) (out : Text) :
    Wrote out (d.appendToken k token out) := by
  unfold appendToken
  split
  · exact .nothing hl
  · dsimp only
    split
    · exact appendFirst_wrote (h.serve k) (hl.serve k) token out
    · rename_i hpos
      split
      · exact appendNext_wrote (h.serve k) (hl.serve k) hpos token out
      · exact .nothing fun hno => absurd rfl hno

end ByteDetokenizer

/-! ### Sequences -/

/-- The text of a request is never cut inside a character: no text is kept for stop
strings, or at least a character of it is, or there are too few tokens for it to become
long. -/
def Request.CutsWell (req : Request) : Prop :=
  req.stop.maxStopLen = 0 ∨ 4 ≤ req.stop.maxStopLen ∨ req.maxTokens ≤ 129

namespace Sequence

variable {s s' : Sequence} {d d' : ByteDetokenizer} {token : ℕ}

theorem boundTail_dense (h : Utf8.Dense s.detokenizedTail) :
    Utf8.Dense s.boundTail.2.detokenizedTail := by
  unfold boundTail
  dsimp only
  split
  · split
    · split
      · split
        · exact h.drop _
        · exact h.drop _
      · exact h
    · exact h
  · exact h

theorem boundTail_ne_panic (h : Utf8.Dense s.detokenizedTail)
    (hcut : s.req.stop.maxStopLen = 0 ∨ 4 ≤ s.req.stop.maxStopLen ∨
      s.detokenizedTail.length ≤ 128) : s.boundTail.1 ≠ .error .panic := by
  unfold boundTail
  dsimp only
  split
  · rename_i hlong
    have hb := h.cut (n := s.detokenizedTail.length - s.req.stop.maxStopLen) (by omega)
    split
    · -- the cut is at a boundary, so that only the sum of the offsets can fail
      split <;> simp
    · simp
  · simp

theorem checkStop_dense (h : Utf8.Dense s.detokenizedTail) (i : ℕ) :
    Utf8.Dense (s.checkStop i).2.detokenizedTail := by
  unfold checkStop
  split
  · split <;> exact h
  · exact boundTail_dense h

theorem checkStop_ne_panic (h : Utf8.Dense s.detokenizedTail)
    (hcut : s.req.stop.maxStopLen = 0 ∨ 4 ≤ s.req.stop.maxStopLen ∨
      s.detokenizedTail.length ≤ 128) (i : ℕ) : (s.checkStop i).1 ≠ .error .panic := by
  unfold checkStop
  split
  · split <;> simp
  · exact boundTail_ne_panic h hcut

/-- **A token keeps the text dense**, and it is not cut inside a character. -/
theorem appendGeneratedToken_dense (hw : d.WellFormed) (hl : d.Led)
    (h : Utf8.Dense s.detokenizedTail) (token : ℕ) :
    (s.appendGeneratedToken token d).2.2.Led ∧
      Utf8.Dense (s.appendGeneratedToken token d).2.1.detokenizedTail := by
  obtain ⟨hled, c, hc, hlen, hlead⟩ :=
    ByteDetokenizer.appendToken_wrote hw hl s.seqId token s.detokenizedTail
  have hdense := h.append hlen hlead
  rw [← hc] at hdense
  unfold appendGeneratedToken
  cases add 64 s.tailStartByte s.detokenizedTail.length with
  | none => exact ⟨hl, h⟩
  | some startByte =>
    rcases hr : d.appendToken s.seqId token s.detokenizedTail with ⟨e | appended, d₁, tail⟩
    · rw [hr] at hled hdense
      exact ⟨hled, hdense⟩
    · rw [hr] at hled hdense
      dsimp only
      cases add 64 startByte appended with
      | none => exact ⟨hled, hdense⟩
      | some endByte =>
        dsimp only
        refine ⟨hled, ?_⟩
        obtain ⟨-, -, htail, -⟩ := recordSpan_frame
          { s with detokenizedTail := tail, generated := s.generated ++ [token] }
          s.generated.length startByte appended endByte
        generalize recordSpan { s with detokenizedTail := tail, generated := s.generated ++ [token] }
          s.generated.length startByte appended endByte = t at htail ⊢
        have ht : Utf8.Dense t.detokenizedTail := htail ▸ hdense
        unfold afterText
        split
        · exact ht
        · split
          · exact ht
          · split
            · exact ht
            · exact checkStop_dense ht _

/-- **A token that is accepted does not panic.** -/
theorem appendGeneratedToken_ne_panic (hw : d.WellFormed) (hl : d.Led)
    (h : Utf8.Dense s.detokenizedTail) (htext : s.TextOk d) (hcut : s.req.CutsWell) (token : ℕ) :
    (s.appendGeneratedToken token d).1 ≠ .error .panic := by
  obtain ⟨-, c, hc, hlen, hlead⟩ :=
    ByteDetokenizer.appendToken_wrote hw hl s.seqId token s.detokenizedTail
  have hdense := h.append hlen hlead
  rw [← hc] at hdense
  unfold appendGeneratedToken
  cases add 64 s.tailStartByte s.detokenizedTail.length with
  | none => simp
  | some startByte =>
    rcases hr : d.appendToken s.seqId token s.detokenizedTail with ⟨e | appended, d₁, tail⟩
    · simp
    · have hlong : tail.length ≤ s.generated.length + 1 := by
        rcases ByteDetokenizer.appendToken_cases d s.seqId token s.detokenizedTail with
          ⟨e, d', heq, -, -⟩ | ⟨bytes, d', heq, -, hbytes⟩
        · rw [hr] at heq
          cases heq
        · rw [hr] at heq
          cases heq
          unfold TextOk at htext
          rw [List.length_append]
          omega
      rw [hr] at hdense
      dsimp only
      cases add 64 startByte appended with
      | none => simp
      | some endByte =>
        dsimp only
        obtain ⟨hsame, -, htail, -⟩ := recordSpan_frame
          { s with detokenizedTail := tail, generated := s.generated ++ [token] }
          s.generated.length startByte appended endByte
        generalize recordSpan { s with detokenizedTail := tail, generated := s.generated ++ [token] }
          s.generated.length startByte appended endByte = t at hsame htail ⊢
        have ht : Utf8.Dense t.detokenizedTail := htail ▸ hdense
        have hreq : t.req = s.req := by rw [hsame]
        unfold afterText
        split
        · simp
        · rename_i hfill
          split
          · simp
          · split
            · simp
            · refine checkStop_ne_panic ht ?_ _
              rw [hreq, htail]
              simp only [decide_eq_true_eq] at hfill
              rcases hcut with hcut | hcut | hcut
              · exact Or.inl hcut
              · exact Or.inr (Or.inl hcut)
              · exact Or.inr (Or.inr (by dsimp only; omega))

end Sequence

/-! ### Along a run -/

/-- The text of the active sequence is dense, and so is what it gets. -/
structure TextInv (s : Scheduler σ) : Prop where
  led : s.detokenizer.Led
  dense : ∀ seq, s.active = some seq → Utf8.Dense seq.detokenizedTail

section Run

variable {s s' s₀ : Scheduler σ} {seq : Sequence} {st : SeqState} {id tok : Option ℕ}
  {out : SchedOutcome (Option StepResult)} {es : List (Event σ)}

theorem Took.text {d d' : ByteDetokenizer} {a : Admission} {app : Sequence}
    {phase : SequencePhase} {r : Scheduler.Report} (hw : d.WellFormed) (hl : d.Led)
    (h : Utf8.Dense seq.detokenizedTail) (ht : Took seq d a tok app d' phase r) :
    d'.Led ∧ Utf8.Dense app.detokenizedTail := by
  cases ht with
  | chunk => exact ⟨hl, h⟩
  | token sample hacc hready happend =>
    have hdense := @Sequence.appendGeneratedToken_dense { seq with phase := .decoding } _ hw hl h
      sample.token
    rwa [happend] at hdense

theorem StepCase.text (hw : s.detokenizer.WellFormed) (h : TextInv s) (ha : s.active = some seq)
    (hcase : StepCase s seq st id tok (out, s')) (hout : out ≠ .error .panic) : TextInv s' := by
  have hdense := h.dense seq ha
  cases hcase with
  | waited hwait =>
    refine ⟨h.led, ?_⟩
    rintro _ ⟨⟩
    rw [hwait]
    exact hdense
  | failed e hwait hplan hcyc hroom hcause =>
    refine ⟨?_, ?_⟩
    · rcases hcause with ⟨-, rfl⟩ | ⟨token, -, happend⟩
      · exact h.led
      · have hled := (ByteDetokenizer.appendToken_wrote hw h.led seq.seqId token
          seq.detokenizedTail).led
        rwa [happend] at hled
    · rintro _ ⟨⟩
      rw [hwait]
      exact hdense
  | @committed _ x seq' app m' d' w phase r log captured hwait hplan htook hcyc hroom hpush hgoes =>
    have hdense' : Utf8.Dense seq'.detokenizedTail := by
      rw [hwait]
      exact hdense
    obtain ⟨hled, happ⟩ := htook.text hw h.led hdense'
    refine ⟨hled, ?_⟩
    rintro _ ⟨⟩
    exact happ
  | @finished _ x seq' app m' m'' d' w phase r log reason captured hwait hplan htook hcyc hfree hroom
      hpush hfin =>
    have hdense' : Utf8.Dense seq'.detokenizedTail := by
      rw [hwait]
      exact hdense
    exact ⟨(htook.text hw h.led hdense').1.reset _, fun _ hno => (by cases hno)⟩
  | panicked => exact absurd rfl hout

theorem TextInv.promote (h : SchedInv s) (ht : TextInv s) : TextInv s.promote := by
  rcases h.promote_eq with heq | ⟨q, rest, -, hq, heq⟩
  · rwa [heq]
  · rw [heq]
    refine ⟨ht.led, ?_⟩
    rintro _ ⟨⟩
    rw [(h.queued q (by simp [hq])).fresh]
    exact Utf8.Dense.nil

end Run

end R9v

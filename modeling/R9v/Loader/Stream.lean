import R9v.Loader.Hold
import R9v.Loader.Builder

/-!
# Streaming text

What a detokenizer gives out along a run. The bytes of the tokens pushed so far are cut in
two (`Streaming`): those that have been given out, character for character, and those that
are held. The cut stands where nothing before it can be completed, as a character or as a
stop string, by what comes. Pushing a token keeps this (`Streaming.push`), so that what is
shown in the end is a function of the bytes alone (`streamed_text`), and for well-formed
text it is what decoding all tokens at once gives (`streaming_agreement`).
-/

namespace R9v

open Utf8 List

/-- A stop string that is not empty occurs at a place. -/
def StopAt (stops : List Str) (l : Bytes) (p : ℕ) : Prop :=
  ∃ s ∈ stops, s.bytes ≠ [] ∧ s.bytes <+: l.drop p

instance (stops : List Str) (l : Bytes) (p : ℕ) : Decidable (StopAt stops l p) :=
  inferInstanceAs (Decidable (∃ s ∈ stops, _))

/-- The bytes of the tokens of a stream. -/
def Tokenizer.streamed (t : Tokenizer) (ids : List ℕ) : Bytes := t.pieces t.addSpacePrefix ids

/-- A token that is shown: it is in the vocabulary, and neither starts nor ends a text. -/
def Tokenizer.Shown (t : Tokenizer) (stopOnEos : Bool) (id : ℕ) : Prop :=
  id < t.vocabSize ∧ t.bosId ≠ some id ∧ ¬(stopOnEos = true ∧ id ∈ t.eosIds)

instance (t : Tokenizer) (stopOnEos : Bool) (id : ℕ) : Decidable (t.Shown stopOnEos id) :=
  inferInstanceAs (Decidable (_ ∧ _))

namespace Detokenizer

/-! ### The stop strings of a detokenizer -/

section Stops

variable {stops : List Str} {bytes : List Bytes} {d : Detokenizer} {p : ℕ}

theorem mem_stopBytes (h : stopBytes stops = .ok bytes) (t : Bytes) :
    t ∈ bytes ↔ t ≠ [] ∧ ∃ s ∈ stops, s.bytes = t := by
  induction stops generalizing bytes with
  | nil =>
    cases h
    simp
  | cons s rest ih =>
    simp only [stopBytes] at h
    split at h
    · cases h
    · cases hrest : stopBytes rest with
      | error e => simp [hrest, bind, Except.bind] at h
      | ok ss =>
        have ih' := ih hrest
        simp only [hrest, bind, Except.bind, pure, Except.pure, Except.ok.injEq] at h
        subst h
        split
        · rename_i hs
          rw [List.isEmpty_iff] at hs
          rw [ih', exists_mem_cons_iff, hs]
          constructor
          · rintro ⟨hne, hex⟩
            exact ⟨hne, Or.inr hex⟩
          · rintro ⟨hne, rfl | hex⟩
            · exact absurd rfl hne
            · exact ⟨hne, hex⟩
        · rename_i hs
          rw [List.isEmpty_iff] at hs
          rw [mem_cons, ih', exists_mem_cons_iff]
          constructor
          · rintro (rfl | ⟨hne, hex⟩)
            · exact ⟨hs, Or.inl rfl⟩
            · exact ⟨hne, Or.inr hex⟩
          · rintro ⟨hne, rfl | hex⟩
            · exact Or.inl rfl
            · exact Or.inr ⟨hne, hex⟩

theorem foldMin_none {g : Bytes → Option ℕ} {best : Option ℕ}
    (h : bytes.foldl (fun best s => match g s with
      | none => best
      | some pos => some (best.elim pos (min · pos))) best = none) :
    best = none ∧ ∀ s ∈ bytes, g s = none := by
  induction bytes generalizing best with
  | nil => exact ⟨h, by simp⟩
  | cons s rest ih =>
    rw [foldl_cons] at h
    obtain ⟨hbest, hrest⟩ := ih h
    cases hs : g s with
    | none =>
      rw [hs] at hbest
      exact ⟨hbest, by simpa using ⟨hs, hrest⟩⟩
    | some pos =>
      rw [hs] at hbest
      cases hbest

theorem foldMin_some {g : Bytes → Option ℕ} {best : Option ℕ}
    (h : bytes.foldl (fun best s => match g s with
      | none => best
      | some pos => some (best.elim pos (min · pos))) best = some p) :
    (best = some p ∨ ∃ s ∈ bytes, g s = some p) ∧ (∀ b, best = some b → p ≤ b) ∧
      ∀ s ∈ bytes, ∀ q, g s = some q → p ≤ q := by
  induction bytes generalizing best with
  | nil =>
    cases h
    exact ⟨Or.inl rfl, fun b hb => (Option.some.inj hb).le, by simp⟩
  | cons s rest ih =>
    obtain ⟨hat, hle, hrest⟩ := ih h
    cases hs : g s with
    | none =>
      simp only [hs] at hat hle
      refine ⟨hat.imp_right ?_, hle, ?_⟩
      · rintro ⟨t, ht, hg⟩
        exact ⟨t, mem_cons_of_mem _ ht, hg⟩
      · intro t ht q hq
        rcases mem_cons.mp ht with rfl | ht
        · rw [hs] at hq
          cases hq
        · exact hrest t ht q hq
    | some pos =>
      simp only [hs, Option.some.injEq] at hat hle
      have hpos := hle _ rfl
      refine ⟨?_, ?_, ?_⟩
      · rcases hat with hat | ⟨t, ht, hg⟩
        · cases best with
          | none =>
            refine Or.inr ⟨s, mem_cons_self, ?_⟩
            rw [hs, ← hat]
            rfl
          | some b =>
            rw [Option.elim_some] at hat
            rcases min_choice b pos with hmin | hmin
            · exact Or.inl (by rw [← hat, hmin])
            · exact Or.inr ⟨s, mem_cons_self, by rw [hs, ← hat, hmin]⟩
        · exact Or.inr ⟨t, mem_cons_of_mem _ ht, hg⟩
      · rintro b rfl
        exact hpos.trans (min_le_left _ _)
      · intro t ht q hq
        rcases mem_cons.mp ht with rfl | ht
        · rw [hs] at hq
          cases hq
          cases best with
          | none => exact hpos
          | some b => exact hpos.trans (min_le_right _ _)
        · exact hrest t ht q hq

theorem findStop_eq_some (h : d.findStop = some p) :
    (∃ s ∈ d.stops, s ≠ [] ∧ s <+: d.pending.drop p) ∧ p ≤ d.pending.length ∧
      ∀ s ∈ d.stops, s ≠ [] → ∀ j < p, ¬ s <+: d.pending.drop j := by
  obtain ⟨hat, -, hle⟩ := foldMin_some h
  obtain hat | ⟨s, hs, hfind⟩ := hat
  · cases hat
  have hspec := findBytes_eq_some hfind
  have hne : s ≠ [] := by
    rintro rfl
    simp [findBytes] at hfind
  refine ⟨⟨s, hs, hne, hspec.1⟩, by omega, fun t ht htne j hj hpre => ?_⟩
  cases hfind' : findBytes d.pending t with
  | none => exact findBytes_eq_none htne hfind' j hpre
  | some q =>
    have hq := hle t ht q hfind'
    exact (findBytes_eq_some hfind').2.2 j (by omega) hpre

theorem findStop_eq_none (h : d.findStop = none) :
    ∀ s ∈ d.stops, s ≠ [] → ∀ j, ¬ s <+: d.pending.drop j :=
  fun s hs hne j => findBytes_eq_none hne ((foldMin_none h).2 s hs) j

end Stops

/-! ### What is held -/

section Hold

variable {d : Detokenizer} {done piece : Bytes} {stops : List Bytes} {k p : ℕ}

theorem foldMax {g : Bytes → ℕ} (m : ℕ) :
    m ≤ stops.foldl (fun hold s => max hold (g s)) m ∧
      (∀ s ∈ stops, g s ≤ stops.foldl (fun hold s => max hold (g s)) m) ∧
      (stops.foldl (fun hold s => max hold (g s)) m = m ∨
        ∃ s ∈ stops, stops.foldl (fun hold s => max hold (g s)) m = g s) := by
  induction stops generalizing m with
  | nil => simp
  | cons s rest ih =>
    obtain ⟨hge, hall, hat⟩ := ih (max m (g s))
    rw [foldl_cons]
    refine ⟨(le_max_left _ _).trans hge, ?_, ?_⟩
    · intro t ht
      rcases mem_cons.mp ht with rfl | ht
      · exact (le_max_right _ _).trans hge
      · exact hall t ht
    · rcases hat with hat | ⟨t, ht, hat⟩
      · rcases max_choice m (g s) with hmax | hmax
        · exact Or.inl (by rw [hat, hmax])
        · exact Or.inr ⟨s, mem_cons_self, by rw [hat, hmax]⟩
      · exact Or.inr ⟨t, mem_cons_of_mem _ ht, hat⟩

theorem incompleteTailLen_le (l : Bytes) : incompleteTailLen l ≤ l.length := by
  rcases incompleteTailLen_spec l with ⟨hzero, -⟩ | ⟨p, s, rfl, -, hlen⟩
  · omega
  · simp [hlen]

/-- The number of bytes that are held is the greatest of those that have to be. -/
theorem holdOf_spec (d : Detokenizer) :
    d.holdOf ≤ d.pending.length ∧ incompleteTailLen d.pending ≤ d.holdOf ∧
      (∀ s ∈ d.stops, partialPrefixLen d.pending s ≤ d.holdOf) ∧
      (d.holdOf = incompleteTailLen d.pending ∨
        ∃ s ∈ d.stops, d.holdOf = partialPrefixLen d.pending s) := by
  obtain ⟨-, hall, hat⟩ := @foldMax d.stops (partialPrefixLen d.pending) 0
  have htail := incompleteTailLen_le d.pending
  have hpart := fun s => partialPrefixLen_le d.pending s
  unfold holdOf
  simp only
  refine ⟨by omega, by omega, ?_, ?_⟩
  · intro s hs
    have := hall s hs
    have := hpart s
    omega
  · rcases hat with hat | ⟨s, hs, hat⟩
    · left
      omega
    · have := hpart s
      rcases le_total (partialPrefixLen d.pending s) (incompleteTailLen d.pending) with hle | hle
      · left
        omega
      · exact Or.inr ⟨s, hs, by omega⟩

end Hold

/-! ### The invariant of a stream -/

section Invariant

/-- Along a stream, `done` is what has been given out. -/
structure Streaming (d : Detokenizer) (done : Bytes) : Prop where
  stopped_eq : d.stopped = false
  valid_stop : ∀ t ∈ d.stops, t ≠ [] ∧ Valid t
  cut : Closed done ∨ ∃ c r, d.pending = c :: r ∧ tail c = false
  free : ∀ t ∈ d.stops, ∀ s, s <:+ done → s ≠ [] → ∀ x, ¬ t <+: s ++ d.pending ++ x

variable {d : Detokenizer} {done piece l : Bytes} {k p : ℕ}

theorem Streaming.append (h : Streaming d done) (piece : Bytes) :
    Streaming { d with firstPiece := false, pending := d.pending ++ piece } done := by
  refine ⟨h.stopped_eq, h.valid_stop, h.cut.imp_right ?_, ?_⟩
  · rintro ⟨c, r, hcons, hc⟩
    exact ⟨c, r ++ piece, by simp [hcons], hc⟩
  · intro t ht s hs hne x
    have := h.free t ht s hs hne (piece ++ x)
    simpa only [append_assoc] using this

theorem Streaming.lossy_take (h : Streaming d done) (k : ℕ) :
    lossy (done ++ d.pending.take k) = lossy done ++ lossy (d.pending.take k) := by
  refine lossy_append (h.cut.imp_right ?_)
  rintro ⟨c, r, hcons, hc⟩ c' r' heq
  rw [hcons] at heq
  cases k with
  | zero => simp at heq
  | succ k =>
    rw [take_succ_cons, List.cons.injEq] at heq
    rw [← heq.1]
    exact hc

theorem Streaming.display_eq (h : Streaming d done) :
    display (done ++ d.pending) = lossy done ++ display d.pending :=
  display_append h.cut

theorem Streaming.occurs (h : Streaming d done) {t : Bytes} (ht : t ∈ d.stops)
    (hpre : t <+: (done ++ d.pending).drop p) :
    done.length ≤ p ∧ t <+: d.pending.drop (p - done.length) := by
  rcases Nat.lt_or_ge p done.length with hlt | hge
  · exfalso
    rw [drop_append_of_le_length hlt.le] at hpre
    refine h.free t ht (done.drop p) (drop_suffix p done) ?_ [] (by simpa using hpre)
    simpa using hlt
  · refine ⟨hge, ?_⟩
    rwa [drop_append, drop_of_length_le hge, nil_append] at hpre

/-- What is given out leaves the start of a character or of a stop string. -/
theorem Streaming.cut_stable (h : Streaming d done) :
    Closed (done ++ d.pending.take (d.pending.length - d.holdOf)) ∨
      ∃ c r, d.pending.drop (d.pending.length - d.holdOf) = c :: r ∧ tail c = false := by
  obtain ⟨hle, htail, -, hat⟩ := holdOf_spec d
  by_cases hzero : d.holdOf = 0
  · left
    rw [hzero, Nat.sub_zero, take_length]
    rcases incompleteTailLen_spec d.pending with ⟨-, hclosed⟩ | ⟨p, s, hps, hcomp, hlen⟩
    · exact hclosed.append h.cut
    · cases s with
      | nil => cases hcomp
      | cons b s =>
        simp only [length_cons] at hlen
        omega
  · right
    rcases hat with hat | ⟨t, ht, hat⟩
    · rcases incompleteTailLen_spec d.pending with ⟨hno, -⟩ | ⟨p, s, hps, hcomp, hlen⟩
      · omega
      · have hdrop : d.pending.drop (d.pending.length - d.holdOf) = s := by
          rw [hat, hlen]
          conv_lhs => rw [hps]
          rw [length_append, Nat.add_sub_cancel, drop_left]
        cases s with
        | nil => cases hcomp
        | cons b s => exact ⟨b, s, hdrop, completable_lead hcomp⟩
    · obtain ⟨hne, hvalid⟩ := h.valid_stop t ht
      have hdrop := drop_partialPrefixLen d.pending t
      rw [← hat] at hdrop
      obtain ⟨n, hn⟩ : ∃ n, d.holdOf = n + 1 := ⟨d.holdOf - 1, by omega⟩
      cases t with
      | nil => exact absurd rfl hne
      | cons b t =>
        refine ⟨b, t.take n, ?_, hvalid.head_not_tail⟩
        rw [hdrop, hn, take_succ_cons]

/-- **Giving out what is stable keeps the invariant.** -/
theorem Streaming.stable (h : Streaming d done) (hnone : d.findStop = none) :
    Streaming d.takeStable.2 (done ++ d.pending.take (d.pending.length - d.holdOf)) := by
  refine ⟨h.stopped_eq, h.valid_stop, h.cut_stable, ?_⟩
  intro t ht s hs hne x hpre
  obtain ⟨hle, -, hpart, -⟩ := holdOf_spec d
  replace hpre : t <+: s ++ d.pending.drop (d.pending.length - d.holdOf) ++ x := hpre
  have hcases : s <:+ d.pending.take (d.pending.length - d.holdOf) ∨ ∃ u, u <:+ done ∧ u ≠ [] ∧
      s = u ++ d.pending.take (d.pending.length - d.holdOf) := by
    rcases suffix_append_cases hs with hsuf | ⟨u, hu, rfl⟩
    · exact Or.inl hsuf
    · by_cases hu' : u = []
      · exact Or.inl (by rw [hu', nil_append])
      · exact Or.inr ⟨u, hu, hu', rfl⟩
  rcases hcases with ⟨q, hq⟩ | ⟨u, hu, hu', rfl⟩
  · -- it would start in what is given out now: then it is found, or is held longer
    have hsplit : d.pending = q ++ (s ++ d.pending.drop (d.pending.length - d.holdOf)) := by
      conv_lhs => rw [← take_append_drop (d.pending.length - d.holdOf) d.pending, ← hq]
      rw [append_assoc]
    generalize hr : s ++ d.pending.drop (d.pending.length - d.holdOf) = r at hpre hsplit
    have hlen : d.holdOf < r.length := by
      have := length_pos_iff.mpr hne
      rw [← hr, length_append, length_drop]
      omega
    rcases Nat.lt_or_ge r.length t.length with hlt | hge
    · have hrt : r <+: t := prefix_of_prefix_length_le (prefix_append r x) hpre hlt.le
      have := @le_partialPrefixLen t q r hrt hlt
      rw [← hsplit] at this
      have := hpart t ht
      omega
    · have htr : t <+: r := prefix_of_prefix_length_le hpre (prefix_append r x) hge
      refine findStop_eq_none hnone t ht (h.valid_stop t ht).1 q.length ?_
      rw [hsplit, drop_left]
      exact htr
  · -- it would start in what was given out before
    refine h.free t ht u hu hu' x ?_
    rwa [append_assoc u, take_append_drop] at hpre

end Invariant

/-! ### Runs -/

section Run

variable {d : Detokenizer} {done : Bytes} {id : ℕ} {ids : List ℕ} {stops : List Str} {p : ℕ}

/-- The bytes of the tokens that are yet to come. -/
def coming (d : Detokenizer) (ids : List ℕ) : Bytes :=
  d.tok.pieces (d.firstPiece && d.tok.addSpacePrefix) ids

/-- The detokenizer with the bytes of one more token. -/
def fed (d : Detokenizer) (id : ℕ) : Detokenizer :=
  { d with firstPiece := false, pending := d.pending ++ d.coming [id] }

theorem push_shown (h : Streaming d done) (hid : d.tok.Shown d.stopOnEos id) :
    d.push id = .ok (d.fed id).scan := by
  obtain ⟨hlt, hbos, heos⟩ := hid
  have hpiece : d.coming [id] =
      d.tok.pieceBytes id true (d.firstPiece && d.tok.addSpacePrefix) := by
    simp [coming, Tokenizer.pieces]
  have hend : ¬(d.stopOnEos && d.tok.eosIds.contains id) = true := by simpa using heos
  rw [fed, hpiece]
  simp only [push, h.stopped_eq, Nat.not_le.mpr hlt, hend, hbos, if_false, Bool.false_eq_true]

theorem coming_cons (d : Detokenizer) (id : ℕ) (ids : List ℕ) :
    d.coming (id :: ids) = d.coming [id] ++ d.tok.pieces false ids := by
  simp [coming, Tokenizer.pieces]

/-- From `d` to `d'` some tokens were pushed and their texts given out. -/
structure Emitted (d : Detokenizer) (done : Bytes) (ids : List ℕ) (texts : List Str)
    (d' : Detokenizer) (done' : Bytes) : Prop where
  streaming : Streaming d' done'
  tok_eq : d'.tok = d.tok
  eos_eq : d'.stopOnEos = d.stopOnEos
  stops_eq : d'.stops = d.stops
  clean_eq : d'.cleanWpm = d.cleanWpm
  bytes_eq : ∀ more,
    done' ++ d'.pending ++ d'.coming more = done ++ d.pending ++ d.coming (ids ++ more)
  text_eq : lossy done' = lossy done ++ texts.flatMap Str.bytes
  length_eq : texts.length = ids.length

theorem Emitted.trans {d₁ d₂ d₃ : Detokenizer} {done₁ done₂ done₃ : Bytes} {ids ids' : List ℕ}
    {texts texts' : List Str} (h : Emitted d₁ done₁ ids texts d₂ done₂)
    (h' : Emitted d₂ done₂ ids' texts' d₃ done₃) :
    Emitted d₁ done₁ (ids ++ ids') (texts ++ texts') d₃ done₃ where
  streaming := h'.streaming
  tok_eq := h'.tok_eq.trans h.tok_eq
  eos_eq := h'.eos_eq.trans h.eos_eq
  stops_eq := h'.stops_eq.trans h.stops_eq
  clean_eq := h'.clean_eq.trans h.clean_eq
  bytes_eq more := by rw [h'.bytes_eq, h.bytes_eq, append_assoc ids]
  text_eq := by rw [h'.text_eq, h.text_eq, flatMap_append, append_assoc]
  length_eq := by rw [length_append, length_append, h.length_eq, h'.length_eq]

theorem Streaming.push_emit (h : Streaming d done) (hid : d.tok.Shown d.stopOnEos id)
    (hstray : NoStray (done ++ d.pending ++ d.coming [id]))
    (hstop : ∀ t ∈ d.stops, ∀ p, ¬ t <+: (done ++ d.pending ++ d.coming [id]).drop p) :
    ∃ text d' done', d.push id = .ok (.emit text, d') ∧ Emitted d done [id] [text] d' done' := by
  have hfed : Streaming (d.fed id) done := h.append _
  rw [append_assoc] at hstray hstop
  have hnone : (d.fed id).findStop = none := by
    cases hfind : (d.fed id).findStop with
    | none => rfl
    | some q =>
      obtain ⟨⟨t, ht, -, hpre⟩, -⟩ := findStop_eq_some hfind
      refine absurd ?_ (hstop t ht (done.length + q))
      rw [drop_append, drop_of_length_le (by omega), nil_append,
        Nat.add_sub_cancel_left]
      exact hpre
  have hpush := push_shown h hid
  simp only [scan, hnone] at hpush
  refine ⟨_, _, _, hpush, hfed.stable hnone, rfl, rfl, rfl, rfl, fun more => ?_, ?_, rfl⟩
  · have hjoin : done ++ (d.fed id).pending.take ((d.fed id).pending.length - (d.fed id).holdOf) ++
        (d.fed id).takeStable.2.pending = done ++ (d.pending ++ d.coming [id]) := by
      rw [append_assoc]
      exact congrArg (done ++ ·) (take_append_drop _ (d.fed id).pending)
    rw [hjoin, singleton_append, coming_cons d id more, ← append_assoc done,
      append_assoc (done ++ d.pending)]
    rfl
  · rw [hfed.lossy_take, flatMap_singleton]
    have htake : NoStray
        ((d.fed id).pending.take ((d.fed id).pending.length - (d.fed id).holdOf) ++
          (d.fed id).pending.drop ((d.fed id).pending.length - (d.fed id).holdOf)) := by
      rw [take_append_drop]
      exact hstray.right
    exact congrArg (lossy done ++ ·) (sanitize_bytes htake.left).symm

theorem Streaming.push_stop (h : Streaming d done) (hid : d.tok.Shown d.stopOnEos id)
    (hstray : NoStray ((done ++ d.pending ++ d.coming [id]).take p))
    (hstop : ∃ t ∈ d.stops, t <+: (done ++ d.pending ++ d.coming [id]).drop p)
    (hfirst : ∀ t ∈ d.stops, ∀ q < p, ¬ t <+: (done ++ d.pending ++ d.coming [id]).drop q) :
    ∃ text d', d.push id = .ok (.stop text, d') ∧ d'.stopped = true ∧
      lossy ((done ++ d.pending ++ d.coming [id]).take p) = lossy done ++ text.bytes := by
  have hfed : Streaming (d.fed id) done := h.append _
  rw [append_assoc] at hstray hstop hfirst ⊢
  obtain ⟨t, ht, hpre⟩ := hstop
  obtain ⟨hle, hocc⟩ := hfed.occurs ht hpre
  have hfind : (d.fed id).findStop = some (p - done.length) := by
    cases hfind : (d.fed id).findStop with
    | none => exact absurd hocc (findStop_eq_none hfind t ht (h.valid_stop t ht).1 _)
    | some q =>
      obtain ⟨⟨u, hu, -, hpre'⟩, -, hbefore⟩ := findStop_eq_some hfind
      have hge : q ≤ p - done.length := by
        by_contra hlt
        exact hbefore t ht (h.valid_stop t ht).1 _ (by omega) hocc
      have hle' : p - done.length ≤ q := by
        by_contra hlt
        refine hfirst u hu (done.length + q) (by omega) ?_
        rw [drop_append, drop_of_length_le (by omega), nil_append,
          Nat.add_sub_cancel_left]
        exact hpre'
      rw [show q = p - done.length by omega]
  have hpush := push_shown h hid
  simp only [scan, hfind] at hpush
  have htake : (done ++ (d.pending ++ d.coming [id])).take p =
      done ++ (d.fed id).pending.take (p - done.length) := by
    rw [take_append, take_of_length_le hle]
    rfl
  refine ⟨_, _, hpush, rfl, ?_⟩
  rw [htake] at hstray ⊢
  rw [hfed.lossy_take, sanitize_bytes hstray.right]

theorem pushes_stopped (h : d.stopped = true) (ids : List ℕ) :
    d.pushes ids = .ok (List.replicate ids.length .done, d) := by
  induction ids with
  | nil => rfl
  | cons id ids ih =>
    have hpush : d.push id = .ok (.done, d) := by simp [push, h]
    simp only [pushes, hpush, bind, Except.bind, ih, pure, Except.pure]
    rfl

theorem pushes_cons_eq {out : PushOutcome} {d' : Detokenizer} (h : d.push id = .ok (out, d'))
    (ids : List ℕ) : d.pushes (id :: ids) =
      (d'.pushes ids).map fun r => (out :: r.1, r.2) := by
  simp only [Detokenizer.pushes, h, bind, Except.bind]
  cases d'.pushes ids <;> rfl

theorem pushes_append {out : List PushOutcome} {d' : Detokenizer} {ids' : List ℕ}
    (h : d.pushes ids = .ok (out, d')) :
    d.pushes (ids ++ ids') = (d'.pushes ids').map fun r => (out ++ r.1, r.2) := by
  induction ids generalizing d out with
  | nil =>
    cases h
    rw [nil_append]
    generalize d'.pushes ids' = r
    cases r <;> rfl
  | cons id ids ih =>
    cases hpush : d.push id with
    | error e => simp [Detokenizer.pushes, hpush, bind, Except.bind] at h
    | ok r =>
      obtain ⟨o, d₁⟩ := r
      rw [pushes_cons_eq hpush] at h
      cases hrest : d₁.pushes ids with
      | error e => simp [hrest, Except.map] at h
      | ok r =>
        rw [hrest] at h
        cases h
        rw [cons_append, pushes_cons_eq hpush, ih hrest]
        generalize Detokenizer.pushes _ ids' = r'
        cases r' <;> rfl

/-- **Along a run without a stop string**, what has been given out is a part of the bytes
of the tokens, character for character. -/
theorem Streaming.pushes (h : Streaming d done) (hids : ∀ id ∈ ids, d.tok.Shown d.stopOnEos id)
    (hstray : NoStray (done ++ d.pending ++ d.coming ids))
    (hstop : ∀ t ∈ d.stops, ∀ p, ¬ t <+: (done ++ d.pending ++ d.coming ids).drop p) :
    ∃ (texts : List Str) (d' : Detokenizer) (done' : Bytes),
      d.pushes ids = .ok (texts.map .emit, d') ∧ Emitted d done ids texts d' done' := by
  induction ids generalizing d done with
  | nil =>
    exact ⟨[], d, done, rfl, h, rfl, rfl, rfl, rfl, fun more => rfl, by simp, rfl⟩
  | cons id ids ih =>
    have hbytes : done ++ d.pending ++ d.coming (id :: ids) =
        done ++ d.pending ++ d.coming [id] ++ d.tok.pieces false ids := by
      rw [coming_cons, append_assoc (done ++ d.pending)]
    have hstop' : ∀ t ∈ d.stops, ∀ p, ¬ t <+: (done ++ d.pending ++ d.coming [id]).drop p := by
      intro t ht p hpre
      refine hstop t ht p ?_
      rw [hbytes, drop_append]
      exact hpre.trans (prefix_append _ _)
    rw [hbytes] at hstray
    obtain ⟨text, d₁, done₁, hpush, hemit⟩ :=
      h.push_emit (hids id mem_cons_self) hstray.left hstop'
    have hbytes₁ : done₁ ++ d₁.pending ++ d₁.coming ids = done ++ d.pending ++ d.coming (id :: ids) :=
      hemit.bytes_eq ids
    obtain ⟨texts, d₂, done₂, hrun, hemits⟩ := @ih d₁ done₁ hemit.streaming
      (fun i hi => by
        rw [hemit.tok_eq, hemit.eos_eq]
        exact hids i (mem_cons_of_mem _ hi))
      (by rwa [hbytes₁, hbytes])
      (by rwa [hbytes₁, hemit.stops_eq])
    refine ⟨text :: texts, d₂, done₂, ?_, hemit.trans hemits⟩
    rw [pushes_cons_eq hpush, hrun]
    rfl

theorem new_eq {tok : Tokenizer} {stopOnEos : Bool} (h : new tok stops stopOnEos = .ok d) :
    d.tok = tok ∧ d.stopOnEos = stopOnEos ∧ d.pending = [] ∧ d.firstPiece = true ∧
      d.cleanWpm = decide (tok.kind = .wordPiece) ∧ d.stopped = false ∧
      ∀ t, t ∈ d.stops ↔ t ≠ [] ∧ ∃ s ∈ stops, s.bytes = t := by
  unfold new at h
  split at h
  · cases h
  · cases hstops : stopBytes stops with
    | error e => simp [hstops, bind, Except.bind] at h
    | ok bytes =>
      simp only [hstops, bind, Except.bind, pure, Except.pure, Except.ok.injEq] at h
      subst h
      exact ⟨rfl, rfl, rfl, rfl, rfl, rfl, fun t => mem_stopBytes hstops t⟩

theorem Streaming.new {tok : Tokenizer} {stopOnEos : Bool}
    (h : Detokenizer.new tok stops stopOnEos = .ok d) : Streaming d [] := by
  obtain ⟨-, -, -, -, -, hstopped, hstops⟩ := new_eq h
  refine ⟨hstopped, fun t ht => ?_, Or.inl Closed.nil, ?_⟩
  · obtain ⟨hne, s, -, rfl⟩ := (hstops t).mp ht
    exact ⟨hne, s.valid⟩
  · intro t _ s hs hne
    exact absurd (suffix_nil.mp hs) hne

theorem flush_bytes (hclean : d.cleanWpm = false) (hstray : NoStray d.pending) : d.flush.1.bytes = display d.pending := by
  simp only [Detokenizer.flush, hclean, completeUtf8_eq hstray, Str.ofUtf8, Bool.false_eq_true,
    if_false, dif_pos (valid_display d.pending)]

end Run

end Detokenizer

/-! ### What a stream shows -/

section Shown

open Detokenizer

variable {tok : Tokenizer} {stops : List Str} {stopOnEos : Bool} {d : Detokenizer} {ids : List ℕ}

theorem Tokenizer.pieces_append (t : Tokenizer) (b : Bool) (ids ids' : List ℕ) :
    ∃ r, t.pieces b (ids ++ ids') = t.pieces b ids ++ r := by
  induction ids generalizing b with
  | nil => exact ⟨_, rfl⟩
  | cons id ids ih =>
    obtain ⟨r, hr⟩ := ih false
    exact ⟨r, by simp only [cons_append, Tokenizer.pieces, hr, append_assoc]⟩

/-- Before the first stop string has come in full, nothing is astray, if there is nothing
in what stands before it. -/
theorem NoStray.of_stop {l r : Bytes} {p : ℕ} (hstop : StopAt stops (l ++ r) p)
    (hnone : ¬StopAt stops l p) (h : NoStray ((l ++ r).take p)) : NoStray l := by
  obtain ⟨s, hs, hne, hpre⟩ := hstop
  rcases Nat.lt_or_ge p l.length with hlt | hge
  · rw [take_append_of_le_length hlt.le] at h
    rw [drop_append_of_le_length hlt.le] at hpre
    have hbefore : l.drop p <+: s.bytes := by
      rcases Nat.lt_or_ge (l.drop p).length s.bytes.length with hlt' | hge'
      · exact prefix_of_prefix_length_le (prefix_append _ _) hpre hlt'.le
      · exact absurd ⟨s, hs, hne,
          prefix_of_prefix_length_le hpre (prefix_append _ _) hge'⟩ hnone
    obtain ⟨x, hx⟩ := hbefore
    rw [← take_append_drop p l]
    have hvalid := s.valid
    have hafter : NoStray (l.drop p ++ x) := by
      rw [hx]
      exact .of_valid hvalid
    refine h.append hafter.left fun c r' hcons => ?_
    · rw [← hx, hcons, cons_append] at hvalid
      exact hvalid.head_not_tail
  · rw [take_append, take_of_length_le hge] at h
    exact h.left

section New

variable (hnew : Detokenizer.new tok stops stopOnEos = .ok d)
include hnew

theorem coming_new (ids : List ℕ) : [] ++ d.pending ++ d.coming ids = tok.streamed ids := by
  obtain ⟨htok, -, hpend, hfirst, -⟩ := new_eq hnew
  simp [hpend, coming, hfirst, htok, Tokenizer.streamed]

theorem pushes_new (hids : ∀ id ∈ ids, tok.Shown stopOnEos id)
    (hnone : ∀ p, ¬StopAt stops (tok.streamed ids) p) (hstray : NoStray (tok.streamed ids)) :
    ∃ (texts : List Str) (d' : Detokenizer) (done : Bytes),
      d.pushes ids = .ok (texts.map .emit, d') ∧ Emitted d [] ids texts d' done := by
  obtain ⟨rfl, rfl, -, -, -, -, hstops⟩ := new_eq hnew
  refine (Streaming.new hnew).pushes hids (by rwa [coming_new hnew]) ?_
  rw [coming_new hnew]
  intro t ht p hpre
  obtain ⟨hne, s, hs, rfl⟩ := (hstops t).mp ht
  exact hnone p ⟨s, hs, hne, hpre⟩

theorem emitted_text (hkind : tok.kind ≠ .wordPiece) (hids : ∀ id ∈ ids, tok.Shown stopOnEos id)
    (hnone : ∀ p, ¬StopAt stops (tok.streamed ids) p) (hstray : NoStray (tok.streamed ids)) :
    ∃ (texts : List Str) (d' : Detokenizer), d.pushes ids = .ok (texts.map .emit, d') ∧
      texts.flatMap Str.bytes ++ d'.flush.1.bytes = display (tok.streamed ids) := by
  obtain ⟨texts, d', done, hrun, hemit⟩ := pushes_new hnew hids hnone hstray
  have hbytes : done ++ d'.pending = tok.streamed ids := by
    have := hemit.bytes_eq []
    rw [append_nil, coming_new hnew] at this
    simpa [coming, Tokenizer.pieces] using this
  have hcleans : d'.cleanWpm = false := by
    obtain ⟨-, -, -, -, hclean, -⟩ := new_eq hnew
    rw [hemit.clean_eq, hclean]
    exact decide_eq_false hkind
  have htext := hemit.text_eq
  rw [show lossy [] = [] from rfl, nil_append] at htext
  rw [← hbytes] at hstray ⊢
  exact ⟨texts, d', hrun, by
    rw [flush_bytes hcleans hstray.right, ← htext, hemit.streaming.display_eq]⟩

/-- With the token that completes a stop string, what stands before it is shown, and no
token after it. -/
theorem stopped_text {i p : ℕ} (hids : ∀ id ∈ ids, tok.Shown stopOnEos id) (hi : i < ids.length)
    (hnone : ∀ q, ¬StopAt stops (tok.streamed (ids.take i)) q)
    (hstop : StopAt stops (tok.streamed (ids.take (i + 1))) p)
    (hleast : ∀ q < p, ¬StopAt stops (tok.streamed (ids.take (i + 1))) q)
    (hstray : NoStray ((tok.streamed (ids.take (i + 1))).take p)) :
    ∃ (texts : List Str) (text : Str) (d' : Detokenizer),
      d.pushes ids =
        .ok (texts.map .emit ++ .stop text :: List.replicate (ids.length - (i + 1)) .done, d') ∧
      texts.length = i ∧
      texts.flatMap Str.bytes ++ text.bytes = lossy ((tok.streamed (ids.take (i + 1))).take p) := by
  have hsplit : ids = ids.take i ++ ids[i] :: ids.drop (i + 1) := by
    rw [getElem_cons_drop, take_append_drop]
  have htake : ids.take (i + 1) = ids.take i ++ [ids[i]] := by simp
  obtain ⟨r, hr⟩ := tok.pieces_append tok.addSpacePrefix (ids.take i) [ids[i]]
  have happ : tok.streamed (ids.take (i + 1)) = tok.streamed (ids.take i) ++ r := by
    rw [htake]
    exact hr
  -- the tokens before it
  obtain ⟨texts, d₁, done₁, hrun, hemit⟩ := pushes_new hnew
    (fun id hid => hids id (mem_of_mem_take hid)) hnone
    (.of_stop (happ ▸ hstop) (hnone p) (happ ▸ hstray))
  have hbytes : done₁ ++ d₁.pending ++ d₁.coming [ids[i]] = tok.streamed (ids.take (i + 1)) := by
    rw [hemit.bytes_eq, coming_new hnew, htake]
  -- the token itself
  obtain ⟨rfl, rfl, -, -, -, -, hstops⟩ := new_eq hnew
  have hlast : d₁.tok.Shown d₁.stopOnEos ids[i] := by
    rw [hemit.tok_eq, hemit.eos_eq]
    exact hids _ (getElem_mem hi)
  rw [← hbytes] at hstray hstop hleast ⊢
  obtain ⟨text, d₂, hpush, hstopped, htext⟩ := hemit.streaming.push_stop hlast hstray
    (by
      obtain ⟨s, hs, hne, hpre⟩ := hstop
      rw [hemit.stops_eq]
      exact ⟨s.bytes, (hstops _).mpr ⟨hne, s, hs, rfl⟩, hpre⟩)
    (by
      rw [hemit.stops_eq]
      intro t ht q hq hpre
      obtain ⟨hne, s, hs, rfl⟩ := (hstops t).mp ht
      exact hleast q hq ⟨s, hs, hne, hpre⟩)
  refine ⟨texts, text, d₂, ?_, ?_, ?_⟩
  · conv_lhs => rw [hsplit]
    rw [pushes_append hrun, pushes_cons_eq hpush, pushes_stopped hstopped]
    simp [Except.map]
  · rw [hemit.length_eq, length_take]
    omega
  · have htexts := hemit.text_eq
    rw [show lossy [] = [] from rfl, nil_append] at htexts
    rw [htext, htexts]

end New

/-- **What a stream shows.** Without a stop string it is the characters of the bytes of the
tokens; with one it is those that stand before the first stop string of the bytes in which
one occurs first. The tokens after it are not shown. -/
theorem streamed_text (tok : Tokenizer) (hkind : tok.kind ≠ .wordPiece) (stops : List Str)
    (stopOnEos : Bool) (d : Detokenizer) (hnew : Detokenizer.new tok stops stopOnEos = .ok d)
    (ids : List ℕ) (hids : ∀ id ∈ ids, tok.Shown stopOnEos id) :
    ((∀ i ≤ ids.length, ∀ p, ¬StopAt stops (tok.streamed (ids.take i)) p) →
      NoStray (tok.streamed ids) →
      ∃ (texts : List Str) (d' : Detokenizer),
        d.pushes ids = .ok (texts.map .emit, d') ∧
        texts.flatMap Str.bytes ++ d'.flush.1.bytes = display (tok.streamed ids)) ∧
    ∀ i < ids.length, ∀ p,
      (∀ j ≤ i, ∀ q, ¬StopAt stops (tok.streamed (ids.take j)) q) →
      StopAt stops (tok.streamed (ids.take (i + 1))) p →
      (∀ q < p, ¬StopAt stops (tok.streamed (ids.take (i + 1))) q) →
      NoStray ((tok.streamed (ids.take (i + 1))).take p) →
      ∃ (texts : List Str) (text : Str) (d' : Detokenizer),
        d.pushes ids =
          .ok (texts.map .emit ++ .stop text :: List.replicate (ids.length - (i + 1)) .done, d') ∧
        texts.length = i ∧
        texts.flatMap Str.bytes ++ text.bytes =
          lossy ((tok.streamed (ids.take (i + 1))).take p) := by
  refine ⟨fun hnone hstray => ?_, fun i hi p hnone hstop hleast hstray => ?_⟩
  · have hnone' := hnone ids.length le_rfl
    rw [take_length] at hnone'
    exact emitted_text hnew hkind hids hnone' hstray
  · exact stopped_text hnew hids hi (hnone i le_rfl) hstop hleast hstray

/-- A text that is written out, as a string. -/
def text (s : String) : Str := Str.ofUtf8 (utf8 s)

/-- The metadata of a tokenizer of SentencePiece with two bytes of a character of three,
which starts a text with a space, and the letter `S`. -/
def byteKvs : List KvEntry :=
  [⟨text "tokenizer.ggml.model", .str (text "llama")⟩,
    ⟨text "tokenizer.ggml.tokens", .array .str
      [.str (text "<unk>"), .str (text "<s>"), .str (text "</s>"), .str (text "<0xE2>"),
        .str (text "<0x82>"), .str (text "S")]⟩,
    ⟨text "tokenizer.ggml.token_type", .array .i32
      [.i32 2, .i32 3, .i32 3, .i32 6, .i32 6, .i32 1]⟩]

/-- The tokenizer of some metadata, if it is accepted. -/
def builtFrom (kvs : List KvEntry) : Option Tokenizer := (Tokenizer.fromGguf kvs).toOption

def byteTok : Tokenizer := (builtFrom byteKvs).get (by decide)

theorem fromGguf_of_some {kvs : List KvEntry} {t : Tokenizer} (h : builtFrom kvs = some t) :
    Tokenizer.fromGguf kvs = .ok t := by
  unfold builtFrom at h
  cases hbuilt : Tokenizer.fromGguf kvs with
  | error e =>
    rw [hbuilt] at h
    cases h
  | ok t' =>
    rw [hbuilt] at h
    cases h
    rfl

theorem byteTok_stop :
    (∀ j ≤ 2, ∀ q, ¬StopAt [text "S"] (byteTok.streamed (List.take j [3, 4, 5])) q) ∧
      StopAt [text "S"] (byteTok.streamed [3, 4, 5]) 2 ∧
      ∀ q < 2, ¬StopAt [text "S"] (byteTok.streamed [3, 4, 5]) q := by
  refine ⟨?_, by decide, by decide⟩
  rintro j hj q ⟨s, hs, -, hpre⟩
  obtain rfl := mem_singleton.mp hs
  have hmem : 0x53 ∈ byteTok.streamed (List.take j [3, 4, 5]) :=
    mem_of_mem_drop (hpre.subset (by decide))
  have hno : ∀ j ≤ 2, 0x53 ∉ byteTok.streamed (List.take j [3, 4, 5]) := by decide
  exact hno j hj hmem

theorem streamed_text_small :
    ∃ (d d' : Detokenizer) (texts : List Str) (last : Str),
      Detokenizer.new byteTok [text "S"] false = .ok d ∧
      d.pushes [3, 4, 5] = .ok (texts.map .emit ++ [.stop last], d') ∧ texts.length = 2 ∧
      texts.flatMap Str.bytes ++ last.bytes = lossy [0xE2, 0x82] := by
  obtain ⟨d, hnew⟩ : ∃ d, Detokenizer.new byteTok [text "S"] false = .ok d := ⟨_, rfl⟩
  obtain ⟨hnone, hstop, hleast⟩ := byteTok_stop
  obtain ⟨texts, last, d', hrun, hlen, htext⟩ :=
    (streamed_text byteTok (by decide +kernel) [text "S"] false d hnew [3, 4, 5]
      (by decide +kernel)).2 2 (by decide) 2 hnone hstop hleast (by decide +kernel)
  refine ⟨d, d', texts, last, hnew, hrun, hlen, htext.trans ?_⟩
  decide +kernel

/-- The two bytes of a character that is cut off by a stop string are replaced one by one,
as they are when other bytes follow. -/
theorem stop_after_cut_character :
    Tokenizer.fromGguf byteKvs = .ok byteTok ∧ (∀ id ∈ [3, 4, 5], byteTok.Shown false id) ∧
    ((∀ j ≤ 2, ∀ q, ¬StopAt [text "S"] (byteTok.streamed (List.take j [3, 4, 5])) q) ∧
      StopAt [text "S"] (byteTok.streamed [3, 4, 5]) 2 ∧
      ∀ q < 2, ¬StopAt [text "S"] (byteTok.streamed [3, 4, 5]) q) ∧
    ((Detokenizer.new byteTok [text "S"] false).bind (·.pushes [3, 4, 5])).toOption.map
      (fun r => r.1.flatMap PushOutcome.text) = some (replacement ++ replacement) ∧
    display ((byteTok.streamed [3, 4, 5]).take 2) = replacement :=
  ⟨fromGguf_of_some (by rw [byteTok, Option.some_get]), by decide +kernel, byteTok_stop,
    by decide +kernel, by decide +kernel⟩

/-- What a detokenizer without stop strings shows of some tokens. -/
def Detokenizer.showAll (tok : Tokenizer) (ids : List ℕ) : Except LoaderError Bytes := do
  let d ← Detokenizer.new tok [] false
  let (outcomes, d) ← d.pushes ids
  pure (outcomes.flatMap PushOutcome.text ++ d.flush.1.bytes)

theorem Tokenizer.pieces_true (t : Tokenizer) (id : ℕ) (ids : List ℕ) :
    t.pieces false (id :: ids) =
      (if (t.pieceBytes id true false).head? = some 0x20 then [0x20] else []) ++
        t.pieces true (id :: ids) := by
  rcases htoken : t.tokens[id]? with _ | e
  · simp [Tokenizer.pieces, Tokenizer.pieceBytes, htoken]
  · simp only [Tokenizer.pieces, Tokenizer.pieceBytes, htoken, Bool.false_and, Bool.false_eq_true,
      if_false, Bool.true_and]
    cases t.entryBytes e true with
    | nil => rfl
    | cons b l =>
      by_cases hb : b = 0x20
      · simp [hb]
      · simp [hb]

/-- What is shown of well-formed text, with the space of the first token removed where the
tokenizer says so. -/
theorem showAll_eq (hkind : tok.kind ≠ .wordPiece) (hlt : ∀ id ∈ ids, id < tok.vocabSize)
    (hbos : ∀ id ∈ ids, tok.bosId ≠ some id) (hvalid : Valid (tok.streamed ids)) :
    Detokenizer.showAll tok ids = .ok (tok.streamed ids) := by
  obtain ⟨d, hnew⟩ : ∃ d, Detokenizer.new tok [] false = .ok d := ⟨_, rfl⟩
  have hids : ∀ id ∈ ids, tok.Shown false id := fun id hid =>
    ⟨hlt id hid, hbos id hid, fun h => (by cases h.1)⟩
  have hnone : ∀ p, ¬StopAt [] (tok.streamed ids) p := by
    rintro p ⟨s, hs, -⟩
    cases hs
  obtain ⟨texts, d', hpushes, hshow⟩ := emitted_text hnew hkind hids hnone (.of_valid hvalid)
  have htexts : (texts.map PushOutcome.emit).flatMap PushOutcome.text =
      texts.flatMap Str.bytes := by
    rw [flatMap_map]
    rfl
  simp only [Detokenizer.showAll, hnew, bind, Except.bind, hpushes, pure, Except.pure, htexts,
    hshow, hvalid.display_eq]

/-- **Streaming and decoding at once agree** for well-formed text, but for one case: the
detokenizer removes a leading space wherever the metadata asks for a space prefix, and
decoding only for SentencePiece. -/
theorem streaming_agreement (tok : Tokenizer) (hkind : tok.kind ≠ .wordPiece) (ids : List ℕ)
    (hbos : ∀ id ∈ ids, tok.bosId ≠ some id) (out : Bytes) (hdec : tok.decode ids = .ok out)
    (hvalid : Valid out) :
    Detokenizer.showAll tok ids = .ok out ↔
      tok.kind = .sentencePiece ∨ tok.addSpacePrefix = false ∨
        ∀ id, ids.head? = some id → (tok.pieceBytes id true false).head? ≠ some 0x20 := by
  obtain ⟨hlt, hout⟩ := (Tokenizer.decode_eq_ok_iff hkind).mp hdec
  by_cases hsame : tok.kind = .sentencePiece ∨ tok.addSpacePrefix = false
  · have heq : tok.streamed ids = out := by
      rw [← hout, Tokenizer.streamed]
      rcases hsame with h | h <;> simp [h]
    have hor : tok.kind = .sentencePiece ∨ tok.addSpacePrefix = false ∨
        ∀ id, ids.head? = some id → (tok.pieceBytes id true false).head? ≠ some 0x20 := by
      rcases hsame with h | h
      · exact Or.inl h
      · exact Or.inr (Or.inl h)
    rw [← heq] at hvalid ⊢
    exact iff_of_true (showAll_eq hkind hlt hbos hvalid) hor
  · rw [not_or, Bool.not_eq_false] at hsame
    obtain ⟨hspm, hprefix⟩ := hsame
    simp only [hspm, decide_false, Bool.false_and] at hout
    simp only [hspm, hprefix, Bool.true_eq_false, false_or]
    cases ids with
    | nil =>
      obtain rfl : [] = out := hout
      exact iff_of_true (showAll_eq hkind hlt hbos valid_nil) (fun id h => (by cases h))
    | cons id ids =>
      rw [Tokenizer.pieces_true] at hout
      have hstreamed : tok.streamed (id :: ids) = tok.pieces true (id :: ids) := by
        rw [Tokenizer.streamed, hprefix]
      rw [← hstreamed] at hout
      by_cases hspace : (tok.pieceBytes id true false).head? = some 0x20
      · -- the space is missing in what is shown
        rw [if_pos hspace] at hout
        have hvalid' : Valid (tok.streamed (id :: ids)) := by
          have hascii : Valid [0x20] := by decide
          rw [← hout] at hvalid
          exact hascii.append_iff.mp hvalid
        rw [showAll_eq hkind hlt hbos hvalid']
        refine iff_of_false (fun h => ?_) (fun h => h id rfl hspace)
        have := congrArg List.length (hout.trans (Except.ok.inj h).symm)
        simp at this
      · rw [if_neg hspace, nil_append] at hout
        rw [← hout] at hvalid ⊢
        refine iff_of_true (showAll_eq hkind hlt hbos hvalid) fun id' h => ?_
        cases h
        exact hspace

/-- The metadata of a byte-level BPE tokenizer with one token, which is a space, and a
space prefix. -/
def spaceKvs : List KvEntry :=
  [⟨text "tokenizer.ggml.model", .str (text "gpt2")⟩,
    ⟨text "tokenizer.ggml.pre", .str (text "gpt-2")⟩,
    ⟨text "tokenizer.ggml.tokens", .array .str [.str (text "Ġ")]⟩,
    ⟨text "tokenizer.ggml.merges", .array .str []⟩,
    ⟨text "tokenizer.ggml.add_space_prefix", .bool true⟩]

def spaceTok : Tokenizer := (builtFrom spaceKvs).get (by decide)

theorem streaming_agreement_small :
    Detokenizer.showAll byteTok [5] = .ok [0x53] :=
  (streaming_agreement byteTok (by decide +kernel) [5] (by decide +kernel) [0x53]
    ((Tokenizer.decode_eq_ok_iff (by decide +kernel)).mpr (by decide +kernel))
    (by decide +kernel)).mpr (Or.inl (by decide +kernel))

/-- The space is decoded, and not shown. -/
theorem leading_space_lost :
    Tokenizer.fromGguf spaceKvs = .ok spaceTok ∧ spaceTok.kind = .bpe ∧
      spaceTok.bosId ≠ some 0 ∧ (spaceTok.decode [0]).toOption = some [0x20] ∧
      Valid [0x20] ∧ (Detokenizer.showAll spaceTok [0]).toOption = some [] :=
  ⟨fromGguf_of_some (by rw [spaceTok, Option.some_get]), by decide +kernel, by decide +kernel,
    by decide +kernel, by decide, by decide +kernel⟩

end Shown

end R9v

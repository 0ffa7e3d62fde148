import R9v.Sched.Bytes
import R9v.Sched.Text

/-!
# Stop strings

A sequence looks for its stop strings in the end of its text only: the beginning is given up
when the text has become long. What it finds is what one finds in the full text
(`stop_matching`), as long as the text can be cut (`StopCriteria.CutsText`): one of the bytes that
are to be kept has to start a character, and stop strings of one to three bytes do not keep a
whole character.
-/

namespace Utf8

open List Option

/-! ### Places in a text -/

/-- A string is found in a text at its byte `i`. -/
def Occurs (pat text : List ℕ) (i : ℕ) : Prop := pat <+: text.drop i

instance (pat text : List ℕ) (i : ℕ) : Decidable (Occurs pat text i) :=
  inferInstanceAs (Decidable (pat <+: text.drop i))

/-- A character starts at the byte `i` of a text. -/
def Starts (text : List ℕ) (i : ℕ) : Prop := i < text.length ∧ isTail (text.getD i 0) = false

section Places

variable {pat text more : List ℕ} {i j n : ℕ}

theorem Occurs.lt (h : Occurs pat text i) (hne : pat ≠ []) : i < text.length := by
  by_contra hle
  refine hne (prefix_nil.mp ?_)
  rw [← drop_eq_nil_of_le (Nat.le_of_not_lt hle)]
  exact h

theorem Occurs.starts (h : Occurs pat text i) (hne : pat ≠ []) (hvalid : valid pat = true) :
    Starts text i := by
  have hlt := h.lt hne
  rcases pat with _ | ⟨b, pat⟩
  · exact absurd rfl hne
  · obtain ⟨rest, hrest⟩ := h
    rw [drop_eq_getElem_cons hlt, cons_append, List.cons.injEq] at hrest
    refine ⟨hlt, ?_⟩
    rw [getD_eq_getElem _ _ hlt, ← hrest.1]
    exact valid_head hvalid

theorem occurs_drop : Occurs pat (text.drop n) i ↔ Occurs pat text (n + i) := by
  rw [Occurs, drop_drop]
  rfl

theorem Occurs.reaches (h : Occurs pat (text ++ more) i) (hno : ¬Occurs pat text i) :
    text.length < i + pat.length := by
  by_contra hle
  refine hno (prefix_of_prefix_length_le h ?_ ?_)
  · rw [drop_append_of_le_length (by omega)]
    exact prefix_append _ _
  · rw [length_drop]
    omega

theorem starts_append (h : i < text.length) : Starts (text ++ more) i ↔ Starts text i := by
  unfold Starts
  rw [getD_append _ _ _ _ h, length_append]
  exact and_congr_left' ⟨fun _ => h, fun _ => by omega⟩

theorem starts_drop : Starts (text.drop n) i ↔ Starts text (n + i) := by
  unfold Starts
  rw [length_drop, getD_eq_getElem?_getD, getElem?_drop,
    ← getD_eq_getElem?_getD]
  exact and_congr_left' (by omega)

theorem find_eq_some (h : find pat text = some i) :
    Occurs pat text i ∧ ∀ j, Occurs pat text j → i ≤ j := by
  obtain ⟨hocc, as, bs, heq, hbefore⟩ := find?_eq_some_iff_append.mp h
  refine ⟨List.isPrefixOf_iff_prefix.mp hocc, fun j hj => ?_⟩
  by_contra hlt
  have hi : i = as.length := by
    have hget := congrArg (fun l => l[as.length]?) heq
    have hlen := congrArg List.length heq
    simp only [length_range, length_append, length_cons] at hlen
    rw [getElem?_range (by omega)] at hget
    simpa using hget.symm
  have hmem : j ∈ as := by
    have hget := congrArg (fun l => l[j]?) heq
    have hlen := congrArg List.length heq
    simp only [length_range, length_append, length_cons] at hlen
    rw [getElem?_range (by omega), getElem?_append_left (by omega)] at hget
    exact mem_of_getElem? hget.symm
  have hno := hbefore j hmem
  rw [List.isPrefixOf_iff_prefix.mpr hj] at hno
  cases hno

theorem find_eq_none (h : find pat text = none) (hne : pat ≠ []) (i : ℕ) : ¬Occurs pat text i := by
  intro hocc
  have hlt := hocc.lt hne
  refine find?_eq_none.mp h i (mem_range.mpr (by omega)) ?_
  exact List.isPrefixOf_iff_prefix.mpr hocc

theorem mem_starts : i ∈ (List.range text.length).filter (fun i => !isTail (text.getD i 0)) ↔
    Starts text i := by
  simp [Starts]

theorem firstStart_eq_none (h : firstStart text n = none) (hi : Starts text i) : i < n := by
  have := find?_eq_none.mp h i (mem_starts.mpr hi)
  simpa using this

theorem firstStart_eq_some (h : firstStart text n = some i) :
    Starts text i ∧ n ≤ i ∧ ∀ j, Starts text j → j < i → j < n := by
  refine ⟨mem_starts.mp (mem_of_find?_eq_some h), ?_, fun j hj hlt => ?_⟩
  · simpa using find?_some h
  · obtain ⟨-, as, bs, heq, hbefore⟩ := find?_eq_some_iff_append.mp h
    have hsorted : ((List.range text.length).filter fun i => !isTail (text.getD i 0)).Pairwise
        (· < ·) := pairwise_lt_range.filter _
    have hmem := mem_starts.mpr hj
    rw [heq] at hsorted hmem
    rcases mem_append.mp hmem with hmem | hmem
    · simpa using hbefore j hmem
    · -- what is listed from `i` on is not smaller
      have hle : i ≤ j := by
        rcases mem_cons.mp hmem with rfl | hmem
        · exact le_rfl
        · have := (pairwise_cons.mp (pairwise_append.mp hsorted).2.1).1 j hmem
          omega
      omega

end Places

end Utf8

namespace R9v

open Checked

/-! ### What the code looks for -/

namespace StopCriteria

variable {c : StopCriteria} {text stop : Text} {i : ℕ}

/-- A stop string is found at the byte `i` of a text. -/
def Matches (c : StopCriteria) (text : Text) (stop : Text) (i : ℕ) : Prop :=
  stop ∈ c.stopStrings ∧ stop ≠ [] ∧ Utf8.Occurs stop text i

/-- The best of some stop strings, if any of them is found. -/
def Best (text : Text) (stops : List Text) : Option (ℕ × Text) → Prop
  | none => ∀ s ∈ stops, s ≠ [] → ∀ j, ¬Utf8.Occurs s text j
  | some (i, stop) => stop ∈ stops ∧ stop ≠ [] ∧ Utf8.Occurs stop text i ∧
      ∀ s ∈ stops, s ≠ [] → ∀ j, Utf8.Occurs s text j → i ≤ j

theorem earlier_best {stops : List Text} {best : Option (ℕ × Text)} (h : Best text stops best)
    (s : Text) : Best text (stops ++ [s]) (earlier text best s) := by
  unfold earlier
  split
  · rename_i hnil
    subst hnil
    rcases best with _ | ⟨i, stop⟩
    · intro s hs hne
      rcases List.mem_append.mp hs with hs | hs
      · exact h s hs hne
      · exact absurd (List.mem_singleton.mp hs) hne
    · obtain ⟨hmem, hne, hocc, hmin⟩ := h
      refine ⟨List.mem_append_left _ hmem, hne, hocc, fun s hs hs' => ?_⟩
      rcases List.mem_append.mp hs with hs | hs
      · exact hmin s hs hs'
      · exact absurd (List.mem_singleton.mp hs) hs'
  · rename_i hne
    rcases hfind : Utf8.find s text with _ | j
    · have hno := Utf8.find_eq_none hfind hne
      rcases best with _ | ⟨i, stop⟩
      · intro s' hs hne'
        rcases List.mem_append.mp hs with hs | hs
        · exact h s' hs hne'
        · rwa [List.mem_singleton.mp hs]
      · obtain ⟨hmem, hne', hocc, hmin⟩ := h
        refine ⟨List.mem_append_left _ hmem, hne', hocc, fun s' hs hs' j hj => ?_⟩
        rcases List.mem_append.mp hs with hs | hs
        · exact hmin s' hs hs' j hj
        · rw [List.mem_singleton.mp hs] at hj
          exact absurd hj (hno j)
    · obtain ⟨hocc, hmin⟩ := Utf8.find_eq_some hfind
      have hself : s ∈ stops ++ [s] := by simp
      rcases best with _ | ⟨i, stop⟩
      · refine ⟨hself, hne, hocc, fun s' hs hs' k hk => ?_⟩
        rcases List.mem_append.mp hs with hs | hs
        · exact absurd hk (h s' hs hs' k)
        · rw [List.mem_singleton.mp hs] at hk
          exact hmin k hk
      · obtain ⟨hmem, hne', hocc', hmin'⟩ := h
        dsimp only
        split
        · refine ⟨hself, hne, hocc, fun s' hs hs' k hk => ?_⟩
          rcases List.mem_append.mp hs with hs | hs
          · have := hmin' s' hs hs' k hk
            omega
          · rw [List.mem_singleton.mp hs] at hk
            exact hmin k hk
        · refine ⟨List.mem_append_left _ hmem, hne', hocc', fun s' hs hs' k hk => ?_⟩
          rcases List.mem_append.mp hs with hs | hs
          · exact hmin' s' hs hs' k hk
          · rw [List.mem_singleton.mp hs] at hk
            have := hmin k hk
            omega

/-- **The stop string that is found** is the first one in the text. -/
theorem checkStopString_best (c : StopCriteria) (text : Text) :
    Best text c.stopStrings (c.checkStopString text) := by
  have hfold : ∀ (l before : List Text) (best : Option (ℕ × Text)), Best text before best →
      Best text (before ++ l) (l.foldl (earlier text) best) := by
    intro l
    induction l with
    | nil => exact fun before best h => by rwa [List.append_nil]
    | cons s l ih =>
      intro before best h
      rw [List.append_cons]
      exact ih _ _ (earlier_best h s)
  exact hfold c.stopStrings [] none (fun s hs => absurd hs List.not_mem_nil)

theorem checkStopString_eq_none (h : c.checkStopString text = none) : ¬c.Matches text stop i := by
  have hbest := c.checkStopString_best text
  rw [h] at hbest
  exact fun hm => hbest stop hm.1 hm.2.1 i hm.2.2

theorem checkStopString_eq_some (h : c.checkStopString text = some (i, stop)) :
    c.Matches text stop i ∧ ∀ s j, c.Matches text s j → i ≤ j := by
  have hbest := c.checkStopString_best text
  rw [h] at hbest
  exact ⟨⟨hbest.1, hbest.2.1, hbest.2.2.1⟩, fun s j hm => hbest.2.2.2 s hm.1 hm.2.1 j hm.2.2⟩

/-- The text can be cut: it has not become long, or a character starts in the bytes that are to be
kept. -/
def CutsText (c : StopCriteria) (tail : Text) : Prop :=
  0 < c.maxStopLen ∧ max ((mul 64 c.maxStopLen 2).getD 512) 128 < tail.length →
    ∃ i, tail.length - c.maxStopLen ≤ i ∧ Utf8.Starts tail i

end StopCriteria

/-! ### The spans of the characters -/

/-- The spans are those of the characters of a text from its byte `a` on, each with its first byte as
the index of its token. -/
def SpansFrom (text : Text) : ℕ → List (ℕ × ℕ × ℕ) → Prop
  | a, [] => a = text.length
  | a, (idx, _, stop) :: spans => idx = a ∧ a < stop ∧ Utf8.Starts text a ∧
      (∀ j, a < j → j < stop → ¬Utf8.Starts text j) ∧ SpansFrom text stop spans

section Spans

variable {text more : Text} {a i start : ℕ} {spans : List (ℕ × ℕ × ℕ)}

theorem SpansFrom.le (h : SpansFrom text a spans) : a ≤ text.length := by
  rcases spans with _ | ⟨⟨idx, byte, stop⟩, spans⟩
  · exact h.le
  · exact h.2.2.1.1.le

theorem SpansFrom.begins (h : SpansFrom text a spans) : a = text.length ∨ Utf8.Starts text a := by
  rcases spans with _ | ⟨⟨idx, byte, stop⟩, spans⟩
  · exact Or.inl h
  · exact Or.inr h.2.2.1

theorem SpansFrom.append (h : SpansFrom text a spans) (hmore : Utf8.IsChar more) (byte : ℕ) :
    SpansFrom (text ++ more) a (spans ++ [(text.length, byte, text.length + more.length)]) := by
  induction spans generalizing a with
  | nil =>
    obtain rfl : a = text.length := h
    have hpos := List.length_pos_of_ne_nil hmore.ne_nil
    refine ⟨rfl, by omega, ⟨by simp; omega, ?_⟩, fun j hj hlt hstart => ?_, by simp [SpansFrom]⟩
    · rw [List.getD_append_right _ _ _ _ le_rfl, Nat.sub_self]
      rcases more with _ | ⟨b, c⟩
      · exact absurd rfl hmore.ne_nil
      · exact hmore.head
    · -- the other bytes of a character are tail bytes
      have hget := hstart.2
      rw [List.getD_append_right _ _ _ _ hj.le] at hget
      rcases more with _ | ⟨b, c⟩
      · exact absurd rfl hmore.ne_nil
      · obtain ⟨k, hk⟩ : ∃ k, j - text.length = k + 1 := ⟨j - text.length - 1, by omega⟩
        have hkc : k < c.length := by
          simp only [List.length_cons] at hlt
          omega
        rw [hk, List.getD_cons_succ, List.getD_eq_getElem _ _ hkc,
          hmore.tails _ (List.getElem_mem hkc)] at hget
        cases hget
  | cons span spans ih =>
    obtain ⟨idx, first, stop⟩ := span
    obtain ⟨rfl, hlt, hstart, hnone, hrest⟩ := h
    have hle := hrest.le
    refine ⟨rfl, hlt, (Utf8.starts_append hstart.1).mpr hstart, fun j hj hj' hs => ?_, ih hrest⟩
    exact hnone j hj hj' ((Utf8.starts_append (by omega)).mp hs)

theorem SpansFrom.filter (h : SpansFrom text a spans) (hle : a ≤ start)
    (hstart : start = text.length ∨ Utf8.Starts text start) :
    SpansFrom text start (spans.filter fun x => start < x.2.2) := by
  induction spans generalizing a with
  | nil =>
    obtain rfl : a = text.length := h
    rcases hstart with rfl | hstart
    · rfl
    · have := hstart.1
      omega
  | cons span spans ih =>
    obtain ⟨idx, first, stop⟩ := span
    obtain ⟨rfl, hlt, hstarts, hnone, hrest⟩ := h
    have hstop := hrest.le
    by_cases hin : start < stop
    · have hall : ∀ {b l}, SpansFrom text b l → start < b →
          (l.filter fun x => start < x.2.2) = l := by
        intro b l hl hb
        induction l generalizing b with
        | nil => rfl
        | cons x l ih' =>
          obtain ⟨_, _, e⟩ := x
          obtain ⟨rfl, he, -, -, hl⟩ := hl
          rw [List.filter_cons_of_pos (by simp; omega), ih' hl (by omega)]
      obtain rfl : start = idx := by
        by_contra hne
        rcases hstart with rfl | hstart
        · omega
        · exact hnone start (by omega) hin hstart
      rw [List.filter_cons_of_pos (by simpa using hin), hall hrest hin]
      exact ⟨rfl, hlt, hstarts, hnone, hrest⟩
    · rw [List.filter_cons_of_neg (by simpa using hin)]
      exact ih hrest (by omega)

theorem SpansFrom.find (h : SpansFrom text a spans) (hle : a ≤ i) (hi : Utf8.Starts text i) :
    (spans.find? fun x => i < x.2.2).map (·.1) = some i := by
  induction spans generalizing a with
  | nil =>
    obtain rfl : a = text.length := h
    have := hi.1
    omega
  | cons span spans ih =>
    obtain ⟨idx, first, stop⟩ := span
    obtain ⟨rfl, hlt, hstarts, hnone, hrest⟩ := h
    by_cases hin : i < stop
    · obtain rfl : i = idx := by
        by_contra hne
        exact hnone i (by omega) hin hi
      rw [List.find?_cons_of_pos (by simpa using hin)]
      rfl
    · rw [List.find?_cons_of_neg (by simpa using hin)]
      exact ih hrest (by omega)

end Spans

/-! ### Giving up the beginning -/

namespace Sequence

variable {s s' : Sequence} {d d' : ByteDetokenizer}

/-- A sequence that has given up the beginning of its text, if anything: no character that is
given up is near the end. -/
inductive Bounded (s : Sequence) : Sequence → Prop
  | kept : Bounded s s
  | cut {trim : ℕ} : trim ≤ s.detokenizedTail.length →
      (trim = s.detokenizedTail.length ∨ Utf8.Starts s.detokenizedTail trim) →
      (∀ j, Utf8.Starts s.detokenizedTail j → j < trim →
        j + s.req.stop.maxStopLen < s.detokenizedTail.length) →
      Bounded s { s with
        detokenizedTail := s.detokenizedTail.drop trim
        tailStartByte := s.tailStartByte + trim
        tokenByteSpans := s.tokenByteSpans.filter fun x => s.tailStartByte + trim < x.2.2 }

theorem isBoundary_iff {text : Text} {n : ℕ} :
    Utf8.isBoundary text n = true ↔ n = 0 ∨ n = text.length ∨ Utf8.Starts text n := by
  simp [Utf8.isBoundary, Utf8.Starts, or_assoc]

/-- **The beginning is given up** without harm when the text can be cut. -/
theorem boundTail_bounded (hlt : s.tailStartByte + s.detokenizedTail.length < 2 ^ 64)
    (hcuts : s.req.stop.CutsText s.detokenizedTail) :
    ∃ s', s.boundTail = (.ok (none, false), s') ∧ Bounded s s' := by
  unfold boundTail
  dsimp only
  split
  · rename_i hlong
    obtain ⟨i, hi, hstarts⟩ := hcuts hlong
    rcases hfirst : Utf8.firstStart s.detokenizedTail
      (s.detokenizedTail.length - s.req.stop.maxStopLen) with _ | trim
    · have := Utf8.firstStart_eq_none hfirst hstarts
      omega
    · obtain ⟨htrim, hge, hbefore⟩ := Utf8.firstStart_eq_some hfirst
      have hle := htrim.1
      simp only [Option.getD_some]
      split
      · rw [if_pos (isBoundary_iff.mpr (Or.inr (Or.inr htrim)))]
        rw [add_of_lt (by omega)]
        refine ⟨_, rfl, .cut hle.le (Or.inr htrim) fun j hj hlt => ?_⟩
        have := hbefore j hj hlt
        omega
      · exact ⟨s, rfl, .kept⟩
  · exact ⟨s, rfl, .kept⟩

theorem boundTail_panics (hhead : s.detokenizedTail ≠ [] → Utf8.Starts s.detokenizedTail 0)
    (hcuts : ¬s.req.stop.CutsText s.detokenizedTail) : s.boundTail = (.error .panic, s) := by
  rw [StopCriteria.CutsText, Classical.not_imp, not_exists] at hcuts
  obtain ⟨hlong, hno⟩ := hcuts
  have hne : s.detokenizedTail ≠ [] := by
    intro hnil
    simp [hnil] at hlong
  have hpos := List.length_pos_of_ne_nil hne
  unfold boundTail
  dsimp only
  rw [if_pos hlong]
  rcases hfirst : Utf8.firstStart s.detokenizedTail
    (s.detokenizedTail.length - s.req.stop.maxStopLen) with _ | trim
  · simp only [Option.getD_none]
    have hexcess : 0 < s.detokenizedTail.length - s.req.stop.maxStopLen := by
      by_contra hzero
      exact hno 0 ⟨by omega, hhead hne⟩
    rw [if_pos ⟨hexcess, Nat.sub_le _ _⟩, if_neg]
    rw [isBoundary_iff]
    rintro (hzero | hfull | hstarts)
    · omega
    · omega
    · exact hno _ ⟨le_rfl, hstarts⟩
  · obtain ⟨htrim, hge, -⟩ := Utf8.firstStart_eq_some hfirst
    exact absurd ⟨hge, htrim⟩ (hno trim)

end Sequence

/-! ### What a sequence knows of its tokens -/

section Bytes

variable {ts text pend written held : Text} {n m token : ℕ} {k : SeqId}

/-- What a byte writes is nothing, while something is kept back, or a whole character. -/
theorem Taken.whole (h : Taken ts text pend n)
    (hb : takeByte (pend, n) token = some (written, held, m)) :
    (written = [] ∧ held ≠ []) ∨ (written = pend ++ [token] ∧ Utf8.IsChar written ∧ held = []) := by
  have hvalid := (h.step hb).valid
  rw [Utf8.valid_append h.valid] at hvalid
  have hbegun := h.begun
  unfold takeByte at hb
  split at hb
  · cases hb
  · split at hb
    · rename_i hnil
      dsimp only at hnil
      split at hb
      · rename_i hascii
        cases hb
        refine Or.inr ⟨by rw [hnil]; rfl, .ascii hascii, rfl⟩
      · obtain ⟨m', -, heq⟩ := Option.map_eq_some_iff.mp hb
        cases heq
        exact Or.inl ⟨rfl, by simp⟩
    · rename_i hne
      split at hb
      · rename_i htail
        split at hb
        · split at hb
          · cases hb
            refine Or.inr ⟨rfl, ?_, rfl⟩
            rcases hbegun with ⟨rfl, -⟩ | hbegun
            · exact absurd rfl hne
            · cases hbegun with
              | @lead x low high m rest hsec hlen hall =>
                obtain ⟨c, r, hchar, heq, hr⟩ := Utf8.valid_uncons hvalid
                rcases r with _ | ⟨y, r⟩
                · have : (x :: rest) ++ [token] = c := by simpa using heq
                  rwa [this]
                · -- what follows the character would begin with a tail byte
                  exfalso
                  have hno := Utf8.valid_head hr
                  rcases c with _ | ⟨z, c⟩
                  · exact hchar.ne_nil rfl
                  · have hmem : y ∈ rest ++ [token] := by
                      have hrest : rest ++ [token] = c ++ y :: r := (List.cons.inj heq).2
                      rw [hrest]
                      simp
                    have hyes : Utf8.isTail y = true := by
                      rcases List.mem_append.mp hmem with hmem | hmem
                      · exact hall y hmem
                      · rw [List.mem_singleton.mp hmem]
                        exact htail
                    rw [hyes] at hno
                    cases hno
          · cases hb
        · cases hb
          exact Or.inl ⟨rfl, by simp⟩
      · cases hb

theorem takeBytes_taken (h : takeBytes ([], 0) ts = some (text, pend, n)) : Taken ts text pend n := by
  have hstart : Taken [] [] [] 0 := ⟨rfl, rfl, Or.inl ⟨rfl, rfl⟩⟩
  simpa using hstart.run h

theorem takeBytes_snoc (h : takeBytes ([], 0) ts = some (text, pend, n))
    (hb : takeByte (pend, n) token = some (written, held, m)) :
    takeBytes ([], 0) (ts ++ [token]) = some (text ++ written, held, m) := by
  rw [takeBytes_append, h]
  simp [takeBytes, hb]

/-- The text of some tokens, when no code point is pending after them. -/
def FullText (k : SeqId) (ts : List ℕ) (text : Text) : Prop :=
  ∃ counts d, ByteDetokenizer.new.appendTokens k ts [] = (.ok counts, d, text) ∧
    d.bufferedLen k = 0

/-- The token `n` brings the byte `i` of the text: before it the bytes that are written or pending
are at most `i`, and with it they are more. -/
def Brings (k : SeqId) (ts : List ℕ) (n i : ℕ) : Prop :=
  (∃ counts d text, ByteDetokenizer.new.appendTokens k (ts.take n) [] = (.ok counts, d, text) ∧
    text.length + d.bufferedLen k ≤ i) ∧
  ∃ counts d text, ByteDetokenizer.new.appendTokens k (ts.take (n + 1)) [] = (.ok counts, d, text) ∧
    i < text.length + d.bufferedLen k

theorem appendTokens_new (h : takeBytes ([], 0) ts = some (text, pend, n)) (k : SeqId) :
    ∃ counts d, ByteDetokenizer.new.appendTokens k ts [] = (.ok counts, d, text) ∧
      d.bufferedLen k = pend.length := by
  have heq := ByteDetokenizer.appendTokens_eq ByteDetokenizer.new_wellFormed k ts []
  rw [show ByteDetokenizer.new.held k = ([], 0) from rfl, h] at heq
  obtain ⟨counts, d, hrun, -, -, hwf, hheld⟩ := heq
  refine ⟨counts, d, by simpa using hrun, ?_⟩
  rw [← ByteDetokenizer.held_length hwf, hheld]

theorem FullText.eq (h : FullText k ts written) (htakes : takeBytes ([], 0) ts = some (text, pend, n)) :
    written = text ∧ pend = [] := by
  obtain ⟨counts, d, hrun, hzero⟩ := h
  obtain ⟨counts', d', hrun', hlen⟩ := appendTokens_new htakes k
  rw [hrun] at hrun'
  cases hrun'
  exact ⟨rfl, List.eq_nil_of_length_eq_zero (hlen.symm.trans hzero)⟩

theorem fullText_of_takes (h : takeBytes ([], 0) ts = some (text, [], n)) : FullText k ts text := by
  obtain ⟨counts, d, hrun, hlen⟩ := appendTokens_new h k
  exact ⟨counts, d, hrun, hlen⟩

theorem brings_self (h : takeBytes ([], 0) ts = some (text, pend, n)) {i : ℕ} (hi : i < ts.length) :
    Brings k ts i i := by
  have hprefix : ∀ j ≤ ts.length, ∃ counts d out,
      ByteDetokenizer.new.appendTokens k (ts.take j) [] = (.ok counts, d, out) ∧
        out.length + d.bufferedLen k = j := by
    intro j hj
    rcases htake : takeBytes ([], 0) (ts.take j) with _ | ⟨out, p, m⟩
    · have happ := @takeBytes_append (ts.take j) (ts.drop j) ([], 0)
      rw [List.take_append_drop, h, htake] at happ
      cases happ
    · obtain ⟨counts, d, hrun, hlen⟩ := appendTokens_new htake k
      have heq := congrArg List.length (takeBytes_taken htake).eq
      rw [List.length_take, List.length_append] at heq
      exact ⟨counts, d, out, hrun, by omega⟩
  obtain ⟨counts, d, out, hrun, hlen⟩ := hprefix i hi.le
  obtain ⟨counts', d', out', hrun', hlen'⟩ := hprefix (i + 1) hi
  exact ⟨⟨counts, d, out, hrun, by omega⟩, counts', d', out', hrun', by omega⟩

end Bytes

/-- Why a sequence ends with the last of some tokens, read off all of them: the reason, how many of
the tokens are kept, and whether the last one is cut off. -/
inductive Ends (req : Request) (k : SeqId) (ts : List ℕ) : FinishReason → ℕ → Bool → Prop
  | maxTokens : req.maxTokens ≤ ts.length → Ends req k ts .maxTokens ts.length false
  | eos {text : Text} {token : ℕ} : ts.length < req.maxTokens → FullText k ts text →
      ts.getLast? = some token → req.stop.isEos token = true →
      Ends req k ts (.eos token) ts.length false
  | stop {text stop : Text} {token i cut : ℕ} : ts.length < req.maxTokens → FullText k ts text →
      ts.getLast? = some token → req.stop.isEos token = false → req.stop.Matches text stop i →
      (∀ s j, req.stop.Matches text s j → i ≤ j) → Brings k ts cut i →
      Ends req k ts (.stopString stop) cut true

namespace Sequence

variable {req : Request} {k : SeqId} {s s' t : Sequence} {d d' : ByteDetokenizer}
  {ts : List ℕ} {text pend written held : Text} {n n' token : ℕ}

/-- A sequence with a token more, and what the token has written. -/
def took (s : Sequence) (token : ℕ) (written : Text) : Sequence :=
  recordSpan
    { s with detokenizedTail := s.detokenizedTail ++ written, generated := s.generated ++ [token] }
    s.generated.length (s.tailStartByte + s.detokenizedTail.length) written.length
    (s.tailStartByte + s.detokenizedTail.length + written.length)

theorem appendGeneratedToken_eq
    (hlt : s.tailStartByte + s.detokenizedTail.length + written.length < 2 ^ 64)
    (hacc : d.appendToken s.seqId token s.detokenizedTail =
      (.ok written.length, d', s.detokenizedTail ++ written)) :
    s.appendGeneratedToken token d =
      (((s.took token written).afterText d' (s.req.maxTokens ≤ s.generated.length + 1) token
          s.generated.length).1,
        ((s.took token written).afterText d' (s.req.maxTokens ≤ s.generated.length + 1) token
          s.generated.length).2, d') := by
  unfold appendGeneratedToken
  dsimp only
  rw [add_of_lt (by omega)]
  dsimp only
  rw [hacc]
  dsimp only
  rw [add_of_lt hlt]
  rfl

section Took

variable (s : Sequence) (token : ℕ) (written : Text)

theorem took_frame : SameBut s (s.took token written) ∧
    (s.took token written).generated = s.generated ++ [token] ∧
    (s.took token written).detokenizedTail = s.detokenizedTail ++ written ∧
    (s.took token written).tailStartByte = s.tailStartByte := by
  obtain ⟨hsame, hgen, htail, hstart⟩ := recordSpan_frame
    { s with detokenizedTail := s.detokenizedTail ++ written, generated := s.generated ++ [token] }
    s.generated.length (s.tailStartByte + s.detokenizedTail.length) written.length
    (s.tailStartByte + s.detokenizedTail.length + written.length)
  refine ⟨?_, hgen, htail, hstart⟩
  unfold SameBut at hsame ⊢
  unfold took
  rw [hsame]

@[simp] theorem took_req : (s.took token written).req = s.req := by rw [(took_frame s token written).1]

@[simp] theorem took_seqId : (s.took token written).seqId = s.seqId := by
  rw [(took_frame s token written).1]

@[simp] theorem took_generated : (s.took token written).generated = s.generated ++ [token] :=
  (took_frame s token written).2.1

@[simp] theorem took_tail : (s.took token written).detokenizedTail = s.detokenizedTail ++ written :=
  (took_frame s token written).2.2.1

@[simp] theorem took_start : (s.took token written).tailStartByte = s.tailStartByte :=
  (took_frame s token written).2.2.2

end Took

/-- What a sequence knows of its tokens: its text is the end of theirs, from the beginning of a
character on. -/
structure Follows (req : Request) (k : SeqId) (ts : List ℕ) (text pend : Text) (n : ℕ)
    (s : Sequence) (d : ByteDetokenizer) : Prop where
  req_eq : s.req = req
  seqId_eq : s.seqId = k
  generated_eq : s.generated = ts
  wellFormed : d.WellFormed
  held_eq : d.held k = (pend, n)
  takes : takeBytes ([], 0) ts = some (text, pend, n)
  tail_eq : s.detokenizedTail = text.drop s.tailStartByte
  spans : SpansFrom text s.tailStartByte s.tokenByteSpans
  pending : s.pendingUtf8Start = if pend = [] then none else some (text.length, text.length)

/-- The sequence goes on: none of its tokens ended it, and no match can begin in what is given up. -/
structure Tracks (req : Request) (k : SeqId) (ts : List ℕ) (text pend : Text) (n : ℕ)
    (s : Sequence) (d : ByteDetokenizer) : Prop extends Follows req k ts text pend n s d where
  lost : ∀ j, Utf8.Starts text j → j < s.tailStartByte → j + req.stop.maxStopLen < text.length
  clear : ∀ stop i, ¬req.stop.Matches text stop i
  below : ts.length < req.maxTokens

namespace Follows

theorem tail_length (h : Follows req k ts text pend n s d) :
    s.tailStartByte + s.detokenizedTail.length = text.length := by
  have := h.spans.le
  rw [h.tail_eq, List.length_drop]
  omega

theorem length_eq (h : Follows req k ts text pend n s d) : text.length + pend.length = ts.length := by
  rw [(takeBytes_taken h.takes).eq, List.length_append]

theorem matches_tail (h : Follows req k ts text pend n s d) {stop : Text} {i : ℕ} :
    req.stop.Matches s.detokenizedTail stop i ↔ req.stop.Matches text stop (s.tailStartByte + i) := by
  unfold StopCriteria.Matches
  rw [h.tail_eq, Utf8.occurs_drop]

theorem head_starts (h : Follows req k ts text pend n s d) (hne : s.detokenizedTail ≠ []) :
    Utf8.Starts s.detokenizedTail 0 := by
  rw [h.tail_eq, Utf8.starts_drop]
  refine h.spans.begins.resolve_left fun hend => hne ?_
  rw [h.tail_eq, hend, List.drop_length]

theorem took_nothing (h : Follows req k ts text pend n s d)
    (hbyte : takeByte (pend, n) token = some ([], held, n')) (hne : held ≠ []) (hwf : d'.WellFormed)
    (hheld : d'.held k = (held, n')) :
    Follows req k (ts ++ [token]) text held n' (s.took token []) d' := by
  have htakes := takeBytes_snoc h.takes hbyte
  rw [List.append_nil] at htakes
  refine ⟨by simp [h.req_eq], by simp [h.seqId_eq], by simp [h.generated_eq], hwf, hheld, htakes, ?_, ?_, ?_⟩
  · simpa using h.tail_eq
  · simpa [took, recordSpan] using h.spans
  · have hlen := h.length_eq
    have hpend := h.pending
    have hall := h.tail_length
    rw [if_neg hne]
    simp only [took, recordSpan, List.length_nil, if_true, hpend, hall, h.generated_eq]
    split
    · rename_i hnil
      subst hnil
      simpa using hlen.symm
    · rfl

theorem took_char (h : Follows req k ts text pend n s d)
    (hbyte : takeByte (pend, n) token = some (written, [], n')) (hchar : Utf8.IsChar written)
    (hwf : d'.WellFormed) (hheld : d'.held k = ([], n')) :
    Follows req k (ts ++ [token]) (text ++ written) [] n' (s.took token written) d' := by
  have hlen := h.length_eq
  have hpend := h.pending
  have hall := h.tail_length
  have hle := h.spans.le
  have hne : ¬written.length = 0 := (List.length_pos_of_ne_nil hchar.ne_nil).ne'
  have hspans : (s.took token written).tokenByteSpans = s.tokenByteSpans ++
      [(text.length, text.length, text.length + written.length)] := by
    simp only [took, recordSpan, if_neg hne, hpend, hall, h.generated_eq]
    by_cases hnil : pend = []
    · subst hnil
      rw [if_pos rfl]
      simp only [List.length_nil, add_zero] at hlen
      simp only [hlen]
    · rw [if_neg hnil]
  refine ⟨by simp [h.req_eq], by simp [h.seqId_eq], by simp [h.generated_eq], hwf, hheld,
    takeBytes_snoc h.takes hbyte, ?_, ?_, ?_⟩
  · rw [took_tail, took_start, h.tail_eq, List.drop_append_of_le_length hle]
  · rw [took_start, hspans]
    exact h.spans.append hchar _
  · simp only [took, recordSpan, if_neg hne, hpend]
    by_cases hnil : pend = []
    · simp [hnil]
    · simp [hnil]

/-- **A token that is accepted** is recorded. -/
theorem record (h : Follows req k ts text pend n s d) (hsmall : ts.length < 2 ^ 32) {m : ℕ}
    (hacc : (d.appendToken k token s.detokenizedTail).1 = .ok m) :
    ∃ d' written held n', d.appendToken k token s.detokenizedTail =
        (.ok written.length, d', s.detokenizedTail ++ written) ∧
      s.appendGeneratedToken token d =
        (((s.took token written).afterText d' (req.maxTokens ≤ ts.length + 1) token ts.length).1,
          ((s.took token written).afterText d' (req.maxTokens ≤ ts.length + 1) token ts.length).2,
          d') ∧
      (written = [] ∧ held ≠ [] ∨ Utf8.IsChar written ∧ held = []) ∧
      Follows req k (ts ++ [token]) (text ++ written) held n' (s.took token written) d' := by
  have hout := ByteDetokenizer.appendToken_outcome h.wellFormed k token s.detokenizedTail
  rw [h.held_eq] at hout
  rcases hbyte : takeByte (pend, n) token with _ | ⟨written, held, n'⟩
  · rw [hbyte] at hout
    obtain ⟨e, he⟩ := hout
    rw [he] at hacc
    cases hacc
  · rw [hbyte] at hout
    rcases hr : d.appendToken k token s.detokenizedTail with ⟨r, d', tail⟩
    rw [hr] at hout
    obtain ⟨hcount, hwrote, hwf, -, hheld⟩ := hout
    obtain rfl : r = .ok written.length := hcount
    obtain rfl : tail = s.detokenizedTail ++ written := hwrote
    have hlt : s.tailStartByte + s.detokenizedTail.length + written.length < 2 ^ 64 := by
      have hlen := h.length_eq
      have hall := congrArg List.length (takeBytes_taken (takeBytes_snoc h.takes hbyte)).eq
      have htail := h.tail_length
      simp only [List.length_append, List.length_singleton] at hall
      omega
    have heq := appendGeneratedToken_eq hlt (h.seqId_eq ▸ hr)
    rw [h.generated_eq, h.req_eq] at heq
    refine ⟨d', written, held, n', rfl, heq, (takeBytes_taken h.takes).whole hbyte |>.imp_right
      (fun hw => hw.2), ?_⟩
    rcases (takeBytes_taken h.takes).whole hbyte with ⟨rfl, hne⟩ | ⟨-, hchar, rfl⟩
    · rw [List.append_nil]
      exact h.took_nothing hbyte hne hwf hheld
    · exact h.took_char hbyte hchar hwf hheld

end Follows

/-- The text that a token leaves can be cut, if a code point is not pending. -/
def CutsWith (s : Sequence) (token : ℕ) (d : ByteDetokenizer) : Prop :=
  (d.appendToken s.seqId token s.detokenizedTail).2.1.bufferedLen s.seqId = 0 →
    s.req.stop.CutsText (d.appendToken s.seqId token s.detokenizedTail).2.2

/-- What a call returns, against the reading of all the tokens. -/
inductive Agrees (req : Request) (k : SeqId) (ts : List ℕ) (cuts : Prop) :
    SchedOutcome (Option FinishReason × Bool) × Sequence × ByteDetokenizer → Prop
  | ends {reason : FinishReason} {trimmed : Bool} {cut : ℕ} {s : Sequence} {d : ByteDetokenizer} :
      Ends req k ts reason cut trimmed → s.generated = ts.take cut →
      Agrees req k ts cuts (.ok (some reason, trimmed), s, d)
  | goesOn {s : Sequence} {d : ByteDetokenizer} : (∀ reason cut trimmed, ¬Ends req k ts reason cut trimmed) →
      cuts → s.generated = ts → Agrees req k ts cuts (.ok (none, false), s, d)
  | panics {s : Sequence} {d : ByteDetokenizer} : (∀ reason cut trimmed, ¬Ends req k ts reason cut trimmed) →
      ¬cuts → Agrees req k ts cuts (.error .panic, s, d)

theorem not_ends_of_pending (hbelow : ts.length < req.maxTokens)
    (htakes : takeBytes ([], 0) ts = some (text, held, n)) (hne : held ≠ []) {reason : FinishReason}
    {cut : ℕ} {trimmed : Bool} : ¬Ends req k ts reason cut trimmed := by
  rintro (hfull | ⟨-, hfull, -⟩ | ⟨-, hfull, -⟩)
  · omega
  · exact hne (hfull.eq htakes).2
  · exact hne (hfull.eq htakes).2

/-- Nothing ends a sequence below its budget whose last token is no stop token and whose text
has no match. -/
theorem not_ends_of_clear (hbelow : ts.length < req.maxTokens)
    (htakes : takeBytes ([], 0) ts = some (text, held, n)) (hlast : ts.getLast? = some token)
    (heos : req.stop.isEos token = false) (hclear : ∀ stop i, ¬req.stop.Matches text stop i)
    {reason : FinishReason} {cut : ℕ} {trimmed : Bool} : ¬Ends req k ts reason cut trimmed := by
  rintro (hfull | ⟨-, hfull, hlast', heos'⟩ | ⟨-, hfull, -, -, hmatch, -⟩)
  · omega
  · rw [hlast] at hlast'
    cases hlast'
    rw [heos] at heos'
    cases heos'
  · rw [(hfull.eq htakes).1] at hmatch
    exact hclear _ _ hmatch

section Step

variable (hlen : ∀ s ∈ req.stop.stopStrings, s.length ≤ req.stop.maxStopLen)
  (hvalid : ∀ s ∈ req.stop.stopStrings, Utf8.valid s = true)

include hlen hvalid in
/-- A match in the text of one token more does not begin in what is given up. -/
theorem Tracks.start_le (h : Tracks req k ts text pend n s d) {stop : Text} {i : ℕ}
    (hmatch : req.stop.Matches (text ++ written) stop i) : s.tailStartByte ≤ i := by
  by_contra hlt
  obtain ⟨hmem, hne, hocc⟩ := hmatch
  have hle := h.spans.le
  have hstarts := (Utf8.starts_append (by omega)).mp (hocc.starts hne (hvalid stop hmem))
  have hlost := h.lost i hstarts (by omega)
  have hreach := hocc.reaches fun hold => h.clear stop i ⟨hmem, hne, hold⟩
  have := hlen stop hmem
  omega

theorem Follows.bounded (h : Follows req k ts text [] n s d)
    (hlost : ∀ j, Utf8.Starts text j → j < s.tailStartByte → j + req.stop.maxStopLen < text.length)
    (hclear : ∀ stop i, ¬req.stop.Matches text stop i) (hbelow : ts.length < req.maxTokens)
    (hb : Bounded s s') : Tracks req k ts text [] n s' d := by
  cases hb with
  | kept => exact ⟨h, hlost, hclear, hbelow⟩
  | @cut trim hle hstart hbefore =>
    have htail := h.tail_length
    rw [h.tail_eq] at hstart hbefore
    rw [List.length_drop] at hstart hbefore
    refine ⟨⟨h.req_eq, h.seqId_eq, h.generated_eq, h.wellFormed, h.held_eq, h.takes, ?_, ?_, h.pending⟩,
      fun j hj hlt => ?_, hclear, hbelow⟩
    · rw [h.tail_eq, List.drop_drop]
    · refine h.spans.filter (Nat.le_add_right _ _) ?_
      rcases hstart with hend | hstarts
      · exact Or.inl (show s.tailStartByte + trim = text.length by omega)
      · exact Or.inr (Utf8.starts_drop.mp hstarts)
    · dsimp only at hlt
      by_cases hold : j < s.tailStartByte
      · exact hlost j hj hold
      · have hj' : j = s.tailStartByte + (j - s.tailStartByte) := by omega
        have hmore := hbefore (j - s.tailStartByte) (Utf8.starts_drop.mpr (hj' ▸ hj)) (by omega)
        rw [h.req_eq] at hmore
        omega

include hlen hvalid in
/-- **What is found** once a character is there. -/
theorem Tracks.checkStop_agrees (h : Tracks req k ts text pend n s d)
    (h' : Follows req k (ts ++ [token]) (text ++ written) [] n' t d')
    (hstart : t.tailStartByte = s.tailStartByte) (hbelow : ts.length + 1 < req.maxTokens)
    (heos : req.stop.isEos token = false) :
    Agrees req k (ts ++ [token]) (req.stop.CutsText t.detokenizedTail)
        ((t.checkStop ts.length).1, (t.checkStop ts.length).2, d') ∧
      ((t.checkStop ts.length).1 = .ok (none, false) →
        Tracks req k (ts ++ [token]) (text ++ written) [] n' (t.checkStop ts.length).2 d') := by
  have hlast : (ts ++ [token]).getLast? = some token := by simp
  have hbelow' : (ts ++ [token]).length < req.maxTokens := by simpa using hbelow
  have htail := h'.tail_length
  have hall := h'.length_eq
  have hmax := req.maxTokens_lt
  simp only [List.length_append, List.length_singleton, List.length_nil, add_zero] at htail hall
  have hle : ∀ {stop i}, req.stop.Matches (text ++ written) stop i → t.tailStartByte ≤ i :=
    fun hmatch => hstart ▸ h.start_le hlen hvalid hmatch
  unfold checkStop
  rw [h'.req_eq]
  rcases hfind : req.stop.checkStopString t.detokenizedTail with _ | ⟨offset, stop⟩
  · have hclear : ∀ stop i, ¬req.stop.Matches (text ++ written) stop i := by
      intro stop i hmatch
      have hge := hle hmatch
      have hin : req.stop.Matches t.detokenizedTail stop (i - t.tailStartByte) := by
        rw [h'.matches_tail, Nat.add_sub_cancel' hge]
        exact hmatch
      exact StopCriteria.checkStopString_eq_none hfind hin
    have hno : ∀ reason cut trimmed, ¬Ends req k (ts ++ [token]) reason cut trimmed :=
      fun _ _ _ => not_ends_of_clear hbelow' h'.takes hlast heos hclear
    by_cases hcuts : req.stop.CutsText t.detokenizedTail
    · obtain ⟨s', heq, hbounded⟩ := boundTail_bounded (s := t) (by omega) (h'.req_eq.symm ▸ hcuts)
      have hlost : ∀ j, Utf8.Starts (text ++ written) j → j < t.tailStartByte →
          j + req.stop.maxStopLen < (text ++ written).length := by
        intro j hj hlt
        have hold := h.spans.le
        have := h.lost j ((Utf8.starts_append (by omega)).mp hj) (hstart ▸ hlt)
        rw [List.length_append]
        omega
      have htracks := h'.bounded hlost hclear hbelow' hbounded
      dsimp only
      rw [heq]
      exact ⟨.goesOn hno hcuts htracks.generated_eq, fun _ => htracks⟩
    · have heq := boundTail_panics h'.head_starts (h'.req_eq.symm ▸ hcuts)
      dsimp only
      rw [heq]
      exact ⟨.panics hno hcuts, fun hok => by cases hok⟩
  · obtain ⟨hmatch, hmin⟩ := StopCriteria.checkStopString_eq_some hfind
    have hmatch' := h'.matches_tail.mp hmatch
    have hstarts := hmatch'.2.2.starts hmatch'.2.1 (hvalid stop hmatch'.1)
    have hlt := hstarts.1
    rw [List.length_append] at hlt
    dsimp only
    rw [add_of_lt (by omega)]
    dsimp only
    have hcut : t.cutToken (t.tailStartByte + offset) ts.length = t.tailStartByte + offset := by
      unfold cutToken
      rw [h'.spans.find (Nat.le_add_right _ _) hstarts]
      rfl
    rw [hcut, decide_eq_true (by omega)]
    refine ⟨.ends (.stop hbelow' (fullText_of_takes h'.takes) hlast heos hmatch' ?_
      (brings_self h'.takes (by simp; omega))) (by rw [h'.generated_eq]), fun hok => by cases hok⟩
    intro s' j hj
    have hge := hle hj
    have hin : req.stop.Matches t.detokenizedTail s' (j - t.tailStartByte) := by
      rw [h'.matches_tail, Nat.add_sub_cancel' hge]
      exact hj
    have := hmin s' _ hin
    omega

include hlen hvalid in
/-- **A token**: the call agrees with the reading of all the tokens, and the sequence keeps track
when it goes on. -/
theorem Tracks.step (h : Tracks req k ts text pend n s d) {m : ℕ}
    (hacc : (d.appendToken k token s.detokenizedTail).1 = .ok m) :
    Agrees req k (ts ++ [token]) (s.CutsWith token d) (s.appendGeneratedToken token d) ∧
      ((s.appendGeneratedToken token d).1 = .ok (none, false) → ∃ text pend n,
        Tracks req k (ts ++ [token]) text pend n (s.appendGeneratedToken token d).2.1
          (s.appendGeneratedToken token d).2.2) := by
  have hmax := req.maxTokens_lt
  have hbelow := h.below
  obtain ⟨d', written, held, n', hr, heq, hkind, hfollows⟩ := h.record (by omega) hacc
  have hheld : d'.bufferedLen k = held.length := by
    rw [← ByteDetokenizer.held_length hfollows.wellFormed, hfollows.held_eq]
  have hid : (s.took token written).seqId = k := hfollows.seqId_eq
  have hcuts : s.CutsWith token d ↔
      (held = [] → req.stop.CutsText (s.took token written).detokenizedTail) := by
    unfold CutsWith
    rw [h.seqId_eq, hr, h.req_eq, took_tail]
    dsimp only
    rw [hheld, List.length_eq_zero_iff]
  have hlast : (ts ++ [token]).getLast? = some token := by simp
  rw [heq]
  unfold afterText
  rw [hid, hheld, hfollows.req_eq]
  dsimp only
  split
  · rename_i hfill
    refine ⟨.ends (.maxTokens (by simpa using hfill)) ?_, fun hok => by cases hok⟩
    rw [hfollows.generated_eq, List.take_length]
  · rename_i hfill
    have hroom : ts.length + 1 < req.maxTokens := by simpa using hfill
    have hroom' : (ts ++ [token]).length < req.maxTokens := by simpa using hroom
    rcases hkind with ⟨rfl, hne⟩ | ⟨-, rfl⟩
    · rw [if_pos (List.length_pos_of_ne_nil hne)]
      refine ⟨.goesOn (fun _ _ _ => not_ends_of_pending hroom' hfollows.takes hne) ?_
        hfollows.generated_eq, fun _ => ⟨_, _, _, hfollows, ?_, ?_, hroom'⟩⟩
      · rw [hcuts]
        exact fun hnil => absurd hnil hne
      · rw [List.append_nil, took_start]
        exact h.lost
      · rw [List.append_nil]
        exact h.clear
    · rw [if_neg (by simp)]
      split
      · rename_i heos
        refine ⟨.ends (.eos hroom' (fullText_of_takes hfollows.takes) hlast heos) ?_,
          fun hok => by cases hok⟩
        rw [hfollows.generated_eq, List.take_length]
      · rename_i heos
        have hcheck := h.checkStop_agrees hlen hvalid hfollows (took_start _ _ _) hroom
          (by simpa using heos)
        have hcuts' : s.CutsWith token d ↔ req.stop.CutsText (s.took token written).detokenizedTail := by
          rw [hcuts]
          exact ⟨fun hc => hc rfl, fun hc _ => hc⟩
        rw [hcuts']
        exact ⟨hcheck.1, fun hok => ⟨_, _, _, hcheck.2 hok⟩⟩

end Step

/-! ### Along a run -/

/-- The tokens are fed one by one, and no call has returned a reason to finish. -/
inductive Fed (s₀ : Sequence) (d₀ : ByteDetokenizer) :
    List ℕ → Sequence → ByteDetokenizer → Prop
  | nil : Fed s₀ d₀ [] s₀ d₀
  | snoc {ts : List ℕ} {s s' : Sequence} {d d' : ByteDetokenizer} {token : ℕ} {trimmed : Bool} :
      Fed s₀ d₀ ts s d → s.appendGeneratedToken token d = (.ok (none, trimmed), s', d') →
      Fed s₀ d₀ (ts ++ [token]) s' d'

theorem accepted_of_ok {r : Option FinishReason × Bool}
    (h : s.appendGeneratedToken token d = (.ok r, s', d')) :
    ∃ m, (d.appendToken s.seqId token s.detokenizedTail).1 = .ok m := by
  unfold appendGeneratedToken at h
  dsimp only at h
  split at h
  · cases h
  · split at h
    · cases h
    · rename_i heq
      exact ⟨_, congrArg (·.1) heq⟩

theorem Agrees.goes_on {cuts : Prop} {trimmed : Bool}
    (h : Agrees req k ts cuts (.ok (none, trimmed), s, d)) :
    trimmed = false ∧ ∀ reason cut trimmed, ¬Ends req k ts reason cut trimmed := by
  cases h with
  | goesOn hno => exact ⟨rfl, hno⟩

theorem new_tracks (req : Request) (k : SeqId) (order : ℕ) (hwf : d.WellFormed)
    (hheld : d.held k = ([], 0)) : Tracks req k [] [] [] 0 (Sequence.new req k order) d := by
  refine ⟨⟨rfl, rfl, rfl, hwf, hheld, rfl, rfl, rfl, rfl⟩, fun j _ hlt => ?_, fun stop i hmatch => ?_,
    Nat.pos_of_ne_zero req.maxTokens_ne⟩
  · exact absurd hlt (Nat.not_lt_zero j)
  · exact absurd (hmatch.2.2.lt hmatch.2.1) (Nat.not_lt_zero i)

/-- **Along a run** the sequence keeps track of its tokens, and none of them ended it. -/
theorem Fed.tracks {s₀ : Sequence} {d₀ : ByteDetokenizer}
    (hlen : ∀ s ∈ req.stop.stopStrings, s.length ≤ req.stop.maxStopLen)
    (hvalid : ∀ s ∈ req.stop.stopStrings, Utf8.valid s = true)
    (h₀ : Tracks req k [] [] [] 0 s₀ d₀) (hfed : Fed s₀ d₀ ts s d) :
    (∃ text pend n, Tracks req k ts text pend n s d) ∧
      ∀ j, 0 < j → j ≤ ts.length → ∀ reason cut trimmed, ¬Ends req k (ts.take j) reason cut trimmed := by
  induction hfed with
  | nil => exact ⟨⟨_, _, _, h₀⟩, fun j hpos hj => absurd hj (not_le.mpr hpos)⟩
  | @snoc ts s s' d d' token trimmed hfed hcall ih =>
    obtain ⟨⟨text, pend, n, h⟩, hbefore⟩ := ih
    obtain ⟨m, hacc⟩ := accepted_of_ok hcall
    rw [h.seqId_eq] at hacc
    have hstep := h.step hlen hvalid hacc
    rw [hcall] at hstep
    obtain ⟨rfl, hno⟩ := hstep.1.goes_on
    refine ⟨hstep.2 rfl, fun j hpos hj => ?_⟩
    rw [List.length_append, List.length_singleton] at hj
    rcases lt_or_ge ts.length j with hlast | hold
    · rwa [List.take_of_length_le (by simp; omega)]
    · rw [List.take_append_of_le_length hold]
      exact hbefore j hpos hold

end Sequence

theorem dense_of_utf8Valid {l : List ℕ} (h : Utf8.valid l = true) : Utf8.Dense l := by
  refine Utf8.valid_induction .nil (fun c l hc hl ih i hi => ?_) h
  rw [List.length_append] at hi
  have hclen := hc.length_le
  by_cases hin : i < c.length
  · rcases i with _ | i
    · refine ⟨0, le_rfl, by omega, ?_⟩
      rcases c with _ | ⟨b, c⟩
      · exact absurd rfl hc.ne_nil
      · exact hc.head
    · -- the next character begins before four bytes are over
      refine ⟨c.length, by omega, by omega, ?_⟩
      rw [List.getD_append_right _ _ _ _ le_rfl, Nat.sub_self]
      rcases l with _ | ⟨b, l⟩
      · simp at hi
        omega
      · exact Utf8.valid_head hl
  · obtain ⟨j, hj, hj', hstart⟩ := ih (i - c.length) (by omega)
    refine ⟨c.length + j, by omega, by omega, ?_⟩
    rwa [List.getD_append_right _ _ _ _ (by omega), Nat.add_sub_cancel_left]

theorem StopCriteria.cutsText_of_dense {c : StopCriteria} {tail : Text} (h : Utf8.Dense tail)
    (hkeep : c.maxStopLen = 0 ∨ 4 ≤ c.maxStopLen) : c.CutsText tail := by
  rintro ⟨hpos, hlong⟩
  have hlen : 128 < tail.length := lt_of_le_of_lt (le_max_right _ _) hlong
  obtain ⟨j, hj, hj', hstart⟩ := h (tail.length - 4) (by omega)
  exact ⟨j, by omega, by omega, hstart⟩

namespace Sequence

variable {req : Request} {k : SeqId} {s : Sequence} {d : ByteDetokenizer} {ts : List ℕ}
  {text pend : Text} {n token : ℕ}

theorem Tracks.cutsWith (h : Tracks req k ts text pend n s d) {m : ℕ}
    (hacc : (d.appendToken k token s.detokenizedTail).1 = .ok m)
    (hkeep : req.stop.maxStopLen = 0 ∨ 4 ≤ req.stop.maxStopLen) : s.CutsWith token d := by
  have hmax := req.maxTokens_lt
  have hbelow := h.below
  obtain ⟨d', written, held, n', hr, -, -, hfollows⟩ := h.record (by omega) hacc
  intro _
  rw [h.req_eq, h.seqId_eq, hr]
  refine StopCriteria.cutsText_of_dense ?_ hkeep
  have htail := hfollows.tail_eq
  rw [took_tail] at htail
  dsimp only
  rw [htail]
  exact (dense_of_utf8Valid (takeBytes_taken hfollows.takes).valid).drop _

end Sequence

/-- **Stop strings are matched** as in the full text. While the calls go on, none of the tokens
ended the sequence; and the next call returns what all the tokens say, except that it panics where
they say nothing and the text cannot be cut. Only stop strings of one to three bytes make such a text. -/
theorem stop_matching (req : Request) (k : SeqId) (order : ℕ)
    (hlen : ∀ s ∈ req.stop.stopStrings, s.length ≤ req.stop.maxStopLen)
    (hvalid : ∀ s ∈ req.stop.stopStrings, Utf8.valid s = true)
    {d₀ : ByteDetokenizer} (hwf : d₀.WellFormed) (hheld : d₀.held k = ([], 0))
    {ts : List ℕ} {s : Sequence} {d : ByteDetokenizer}
    (hfed : Sequence.Fed (Sequence.new req k order) d₀ ts s d) {token m : ℕ}
    (hacc : (d.appendToken s.seqId token s.detokenizedTail).1 = .ok m) :
    (∀ j, 0 < j → j ≤ ts.length → ∀ reason cut trimmed, ¬Ends req k (ts.take j) reason cut trimmed) ∧
      Sequence.Agrees req k (ts ++ [token]) (s.CutsWith token d) (s.appendGeneratedToken token d) ∧
      (req.stop.maxStopLen = 0 ∨ 4 ≤ req.stop.maxStopLen → s.CutsWith token d) := by
  obtain ⟨⟨text, pend, n, htracks⟩, hbefore⟩ :=
    hfed.tracks hlen hvalid (Sequence.new_tracks req k order hwf hheld)
  rw [htracks.seqId_eq] at hacc
  exact ⟨hbefore, (htracks.step hlen hvalid hacc).1, htracks.cutsWith hacc⟩

/-! ### A text that cannot be cut -/

namespace Sequence

variable {s s' s₀ : Sequence} {d d' d₀ : ByteDetokenizer} {ts ts' : List ℕ}

/-- Feeds tokens as long as the calls go on. -/
def feed (s : Sequence) (d : ByteDetokenizer) : List ℕ → Option (Sequence × ByteDetokenizer)
  | [] => some (s, d)
  | token :: ts =>
    match s.appendGeneratedToken token d with
    | (.ok (none, _), s, d) => s.feed d ts
    | _ => none

theorem Fed.of_feed (h : Fed s₀ d₀ ts s d) (hfeed : s.feed d ts' = some (s', d')) :
    Fed s₀ d₀ (ts ++ ts') s' d' := by
  induction ts' generalizing ts s d with
  | nil =>
    cases hfeed
    rwa [List.append_nil]
  | cons token ts' ih =>
    unfold feed at hfeed
    split at hfeed
    · rename_i hcall
      rw [List.append_cons]
      exact ih (h.snoc hcall) hfeed
    · cases hfeed

end Sequence

/-- A request that stops at the letter `a`. -/
def letterRequest : Request where
  id := 7
  tokens := [1]
  sampling := ⟨0.0, 1, 1.0, 0.0, 1.0, 0.0, 0.0, []⟩
  maxTokens := 1000
  stop := .new [] [[97]]
  stream := false
  seed := 7
  maxTokens_lt := by decide
  tokens_ne := by decide
  maxTokens_ne := by decide
  sampling_ok := greedy_ok

/-- Other letters, and the first bytes of a character of four bytes. -/
def longText : List ℕ := List.replicate 127 98 ++ [0xF0, 0x9F, 0x98]

/-- Whether a call panicked. -/
def SchedOutcome.panicked {α : Type} : SchedOutcome α → Bool
  | .error .panic => true
  | _ => false

/-- What happens after these tokens: the last byte of the character is accepted, and the call
panics. -/
theorem feed_longText : ((Sequence.new letterRequest 0 0).feed .new longText).map (fun x =>
    ((x.2.appendToken x.1.seqId 0x80 x.1.detokenizedTail).1.toOption,
      (x.1.appendGeneratedToken 0x80 x.2).1.panicked)) = some (some 4, true) := by
  decide +kernel

theorem longText_fed : (((Sequence.new letterRequest 0 0).feed .new longText).isSome) = true := by
  obtain ⟨x, hx, -⟩ := Option.map_eq_some_iff.mp feed_longText
  rw [hx]
  rfl

/-- The sequence after these tokens. -/
def longFed : Sequence × ByteDetokenizer :=
  ((Sequence.new letterRequest 0 0).feed .new longText).get longText_fed

theorem longFed_fed : Sequence.Fed (Sequence.new letterRequest 0 0) .new longText longFed.1 longFed.2 := by
  obtain ⟨x, hx⟩ := Option.isSome_iff_exists.mp longText_fed
  have hget : longFed = x := Option.get_of_eq_some _ hx
  have hfed := Sequence.Fed.of_feed .nil hx
  rw [hget]
  rwa [List.nil_append] at hfed

theorem longFed_eq :
    (longFed.2.appendToken longFed.1.seqId 0x80 longFed.1.detokenizedTail).1.toOption = some 4 ∧
      (longFed.1.appendGeneratedToken 0x80 longFed.2).1.panicked = true := by
  obtain ⟨x, hx, hfacts⟩ := Option.map_eq_some_iff.mp feed_longText
  have hget : longFed = x := Option.get_of_eq_some _ hx
  rw [hget]
  exact Prod.mk.inj hfacts

theorem longFed_accepts :
    (longFed.2.appendToken longFed.1.seqId 0x80 longFed.1.detokenizedTail).1 = .ok 4 := by
  have hsome := longFed_eq.1
  rcases hr : (longFed.2.appendToken longFed.1.seqId 0x80 longFed.1.detokenizedTail).1 with e | m
  · rw [hr] at hsome
    cases hsome
  · rw [hr] at hsome
    exact congrArg _ (Option.some.inj hsome)

theorem stop_matching_letter : Sequence.Agrees letterRequest 0 (longText ++ [0x80])
    (longFed.1.CutsWith 0x80 longFed.2) (longFed.1.appendGeneratedToken 0x80 longFed.2) :=
  (stop_matching letterRequest 0 0 (by decide) (by decide) ByteDetokenizer.new_wellFormed rfl
    longFed_fed longFed_accepts).2.1

theorem longText_ends : Ends letterRequest 0 (longText ++ [0x80, 97]) (.stopString [97]) 131 true := by
  have htakes : takeBytes ([], 0) (longText ++ [0x80, 97]) = some (longText ++ [0x80, 97], [], 0) :=
    takeBytes_valid (by decide +kernel)
  have hocc : Utf8.Occurs [97] (longText ++ [0x80, 97]) 131 := by decide +kernel
  refine @Ends.stop _ _ _ _ _ 97 _ _ (by decide +kernel) (fullText_of_takes htakes) (by decide +kernel)
    (by decide) ⟨List.mem_singleton_self _, by decide, hocc⟩ ?_ (brings_self htakes (by decide +kernel))
  rintro s j ⟨hmem, hne, hocc⟩
  obtain rfl : s = [97] := by simpa [letterRequest, StopCriteria.new] using hmem
  have hlt := hocc.lt hne
  by_contra hbefore
  have hall : ∀ j < 131, ¬Utf8.Occurs [97] (longText ++ [0x80, 97]) j := by decide +kernel
  exact hall j (by omega) hocc

theorem longFed_panics : (longFed.1.appendGeneratedToken 0x80 longFed.2).1 = .error .panic := by
  have hpanic := longFed_eq.2
  rcases hcall : (longFed.1.appendGeneratedToken 0x80 longFed.2).1 with (e | _) | v
  · rw [hcall] at hpanic
    cases hpanic
  · rfl
  · rw [hcall] at hpanic
    cases hpanic

/-- A text in which no stop string is found makes the call panic, and the match that comes next is
missed. -/
theorem long_text_panics : ∃ s d,
    Sequence.Fed (Sequence.new letterRequest 0 0) .new longText s d ∧
      (d.appendToken s.seqId 0x80 s.detokenizedTail).1 = .ok 4 ∧
      (s.appendGeneratedToken 0x80 d).1 = .error .panic ∧
      (∀ reason cut trimmed, ¬Ends letterRequest 0 (longText ++ [0x80]) reason cut trimmed) ∧
      Ends letterRequest 0 (longText ++ [0x80, 97]) (.stopString [97]) 131 true := by
  obtain ⟨⟨text, pend, n, htracks⟩, -⟩ := longFed_fed.tracks (by decide) (by decide)
    (Sequence.new_tracks letterRequest 0 0 ByteDetokenizer.new_wellFormed rfl)
  have hacc : (longFed.2.appendToken 0 0x80 longFed.1.detokenizedTail).1 = .ok 4 :=
    htracks.seqId_eq ▸ longFed_accepts
  have hstep := (htracks.step (by decide) (by decide) hacc).1
  refine ⟨_, _, longFed_fed, longFed_accepts, longFed_panics, ?_, longText_ends⟩
  have hpanics := longFed_panics
  rcases hcall : longFed.1.appendGeneratedToken 0x80 longFed.2 with ⟨r, s', d'⟩
  rw [hcall] at hstep hpanics
  obtain rfl : r = .error .panic := hpanics
  cases hstep with
  | panics hno => exact hno

end R9v

import R9v.Loader.Detokenizer
import Mathlib.Data.List.TakeWhile

/-!
# What the detokenizer holds and replaces

The three readings of bytes in the detokenizer are the one of `Utf8.scalarLen`: `sanitize`
keeps the characters (`sanitize_bytes`), unless there are four bytes that are `stray`, what
`incompleteTailLen` finds at the end is the start of a character (`incompleteTailLen_spec`),
and `completeUtf8` is `Utf8.display` (`completeUtf8_eq`). For stop strings,
`partialPrefixLen` is the longest start of one at the end.
-/

namespace R9v

open Utf8

/-- Nowhere are there four bytes that are taken for a character and are none. -/
def NoStray (l : Bytes) : Prop := ∀ s, s <:+ l → stray s = false

instance (l : Bytes) : Decidable (NoStray l) :=
  decidable_of_iff (∀ s ∈ l.tails, stray s = false) (by simp [NoStray, List.mem_tails])

section Stray

variable {b : UInt8} {l r s : Bytes}

theorem stray_append (h : stray s = true) (r : Bytes) : stray (s ++ r) = true := by
  match s with
  | [] => cases h
  | [_] => cases h
  | [_, _] => cases h
  | [_, _, _] => cases h
  | _ :: _ :: _ :: _ :: _ => exact h

theorem NoStray.of_suffix (h : NoStray l) (hs : s <:+ l) : NoStray s :=
  fun t ht => h t (ht.trans hs)

theorem NoStray.left (h : NoStray (l ++ r)) : NoStray l := by
  intro s hs
  rw [← Bool.not_eq_true]
  intro hstray
  obtain ⟨p, rfl⟩ := hs
  have := h (s ++ r) ⟨p, by simp⟩
  rw [stray_append hstray r] at this
  cases this

theorem NoStray.right (h : NoStray (l ++ r)) : NoStray r := h.of_suffix (List.suffix_append l r)

/-- A cut before a byte that is no tail byte is in no such four bytes. -/
theorem NoStray.append (hl : NoStray l) (hr : NoStray r)
    (hcut : ∀ c r', r = c :: r' → tail c = false) : NoStray (l ++ r) := by
  intro s hs
  rcases suffix_append_cases hs with hs | ⟨t, ht, rfl⟩
  · exact hr s hs
  · cases r with
    | nil =>
      rw [List.append_nil]
      exact hl t ht
    | cons c r =>
      have hc := hcut c r rfl
      match t with
      | [] => exact hr _ (List.suffix_refl _)
      | [_] => rcases r with _ | ⟨_, _ | ⟨_, _⟩⟩ <;> simp [stray, hc]
      | [_, _] => rcases r with _ | ⟨_, _⟩ <;> simp [stray, hc]
      | [_, _, _] => simp [stray, hc]
      | b0 :: b1 :: b2 :: b3 :: t => exact hl (b0 :: b1 :: b2 :: b3 :: t) ht

/-- No byte of a character is greater than `0xF4`. -/
theorem le_F4_of_validFrom {k : ℕ} (h : validFrom k l = true) (hk : ∀ c ∈ l.take k, c.toNat ≤ 0xF4) :
    ∀ c ∈ l, c.toNat ≤ 0xF4 := by
  induction l generalizing k with
  | nil => simp
  | cons b l ih =>
    cases k with
    | succ k =>
      intro c hc
      rcases List.mem_cons.mp hc with rfl | hc
      · exact hk _ List.mem_cons_self
      · exact ih h (fun d hd => hk d (List.mem_cons_of_mem _ hd)) c hc
    | zero =>
      simp only [validFrom] at h
      cases hlen : scalarLen (b :: l) with
      | zero => simp [hlen] at h
      | succ n =>
        simp only [hlen] at h
        have hbytes : b.toNat ≤ 0xF4 ∧ ∀ c ∈ l.take n, c.toNat ≤ 0xF4 := by
          simp only [scalarLen] at hlen
          split at hlen
          · obtain rfl : n = 0 := by omega
            exact ⟨by omega, by simp⟩
          · split at hlen
            · rename_i low high m c l' hsec
              have hb := second_bounds hsec
              split at hlen
              · rename_i hcond
                obtain rfl : m + 1 = n := by omega
                refine ⟨hb.2.1, fun d hd => ?_⟩
                rcases List.mem_cons.mp hd with rfl | hd
                · omega
                · have := tail_iff.mp (List.all_eq_true.mp hcond.2.2.2 d hd)
                  omega
              · cases hlen
            · cases hlen
        intro c hc
        rcases List.mem_cons.mp hc with rfl | hc
        · exact hbytes.1
        · exact ih h hbytes.2 c hc

theorem NoStray.of_valid (h : Valid l) : NoStray l := by
  intro s hs
  rw [← Bool.not_eq_true]
  intro hstray
  match s with
  | [] => cases hstray
  | [_] => cases hstray
  | [_, _] => cases hstray
  | [_, _, _] => cases hstray
  | b0 :: b1 :: b2 :: b3 :: r =>
    have hb : b0.toNat ≤ 0xF4 :=
      le_F4_of_validFrom h (by simp) b0 (hs.subset List.mem_cons_self)
    simp only [stray, Bool.and_eq_true, Bool.or_eq_true, decide_eq_true_eq,
      UInt8.le_iff_toNat_le, ← UInt8.toNat_inj, UInt8.reduceToNat] at hstray
    omega

end Stray

/-! ### Sanitizing -/

section Sanitize

variable {l p s : Bytes}

theorem sanitizeLoop_eq {fuel : ℕ} (hfuel : l.length ≤ fuel) (h : NoStray l) :
    sanitizeLoop fuel l = lossy l := by
  -- along the fuel: one round takes a character, or one byte that is in none
  induction fuel generalizing l with
  | zero =>
    obtain rfl : l = [] := by simpa using hfuel
    rfl
  | succ fuel ih =>
    cases l with
    | nil => rfl
    | cons b l =>
      have hdec := decoded b l
      have hrest : ∀ n, sanitizeLoop fuel (l.drop n) = lossy (l.drop n) := by
        intro n
        refine ih ?_ (h.of_suffix ((List.drop_suffix n l).trans (List.suffix_cons b l)))
        simp only [List.length_cons] at hfuel
        simp only [List.length_drop]
        omega
      cases hlen : scalarLen (b :: l) with
      | zero =>
        obtain ⟨heq, hb⟩ := hdec.none hlen (h _ (List.suffix_refl _))
        have := hrest 0
        simp only [List.drop_zero] at this
        simp only [sanitizeLoop, heq, hb, and_self, if_true, Nat.sub_self, List.drop_zero, this,
          lossy, lossyFrom, hlen]
      | succ n =>
        have hle := scalarLen_le (b :: l)
        rw [hlen] at hle
        obtain ⟨heq, hrep⟩ := hdec.scalar n hlen
        have hkeep : lossy (b :: l) = (b :: l).take (n + 1) ++ lossy (l.drop n) := by
          simp only [lossy, lossyFrom, hlen]
          rw [lossyFrom_eq (by simpa using hle), List.take_succ_cons, List.cons_append]
        simp only [sanitizeLoop, heq, Nat.add_sub_cancel]
        rw [hrest n, hkeep]
        split
        · rename_i hfffd
          rw [hrep hfffd.1 hfffd.2]
        · rfl

/-- **Sanitizing keeps the characters** and replaces every other byte. -/
theorem sanitize_bytes (h : NoStray l) : (sanitize l).bytes = lossy l := by
  unfold sanitize
  rw [sanitizeLoop_eq le_rfl h, Str.ofUtf8, dif_pos (valid_lossy l)]

end Sanitize

/-! ### The start of a character at the end -/

section Tail

variable {lead b1 b2 : UInt8} {l p s conts : Bytes}

/-- The range of the second byte that is left to a lead byte by the tail bytes. -/
def SecondOk (lead b1 : UInt8) : Prop :=
  (lead.toNat = 0xE0 → 0xA0 ≤ b1.toNat) ∧ (lead.toNat = 0xED → b1.toNat ≤ 0x9F) ∧
    (lead.toNat = 0xF0 → 0x90 ≤ b1.toNat) ∧ (lead.toNat = 0xF4 → b1.toNat ≤ 0x8F)

instance : Decidable (SecondOk lead b1) := inferInstanceAs (Decidable (_ ∧ _ ∧ _ ∧ _))

theorem completable_one : completable [lead] = true ↔ 0xC2 ≤ lead.toNat ∧ lead.toNat ≤ 0xF4 := by
  simp only [completable, second]
  split_ifs <;> simp <;> omega

theorem completable_second (hb1 : tail b1 = true) (hl : ∀ c ∈ l, tail c = true) (hlen : l.length < 2) :
    completable (lead :: b1 :: l) = true ↔
      (if l = [] then 0xE0 else 0xF0) ≤ lead.toNat ∧ lead.toNat ≤ 0xF4 ∧ SecondOk lead b1 := by
  have hall : l.all tail = true := List.all_eq_true.mpr hl
  have hnil : l = [] ↔ l.length = 0 := List.length_eq_zero_iff.symm
  rw [tail_iff] at hb1
  simp only [hnil, SecondOk]
  simp only [completable, hall, Bool.and_true]
  rcases hsec : second lead.toNat with _ | ⟨⟨low, high⟩, n⟩
  · simp only [second] at hsec
    split_ifs at hsec
    simp only [Bool.false_eq_true, false_iff]
    split_ifs <;> omega
  · simp only [second] at hsec
    simp only [Bool.and_eq_true, decide_eq_true_eq]
    split_ifs at hsec <;> simp only [Option.some.injEq, Prod.mk.injEq] at hsec <;> split_ifs <;> omega

theorem holdLen_one (hb1 : tail b1 = true) (hlead : 0xC0 ≤ lead.toNat) :
    holdLen lead [b1] = if completable [lead, b1] then 2 else 0 := by
  have hiff := @completable_second lead b1 [] hb1 (by simp) (by simp)
  simp only [hiff]
  unfold SecondOk
  simp only [holdLen, UInt8.le_iff_toNat_le, ge_iff_le, UInt8.lt_iff_toNat_lt, ← UInt8.toNat_inj,
    UInt8.reduceToNat]
  split_ifs <;> first | rfl | omega

theorem holdLen_two (hb1 : tail b1 = true) (hb2 : tail b2 = true) (hlead : 0xC0 ≤ lead.toNat) :
    holdLen lead [b2, b1] = if completable [lead, b1, b2] then 3 else 0 := by
  have hiff := @completable_second lead b1 [b2] hb1 (by simpa using hb2) (by simp)
  simp only [hiff]
  unfold SecondOk
  simp only [holdLen, UInt8.le_iff_toNat_le, ge_iff_le, ← UInt8.toNat_inj, UInt8.reduceToNat]
  split_ifs <;> first | rfl | omega

theorem completable_length (h : completable (lead :: conts) = true) : conts.length ≤ 2 := by
  simp only [completable] at h
  split at h
  · cases h
  · rename_i hsec
    have hb := second_bounds hsec
    cases conts with
    | nil => simp
    | cons c l =>
      simp only [Bool.and_eq_true, decide_eq_true_eq] at h
      simp only [List.length_cons]
      omega

/-- The lead byte and the tail bytes after it, and what is held of them. -/
theorem holdLen_spec (hlead : tail lead = false) (hconts : ∀ c ∈ conts, tail c = true) :
    (if lead < 0x80 then 0 else holdLen lead conts.reverse) =
      if completable (lead :: conts) then conts.length + 1 else 0 := by
  rw [← Bool.not_eq_true, tail_iff] at hlead
  split
  · rename_i hlt
    simp only [UInt8.lt_iff_toNat_lt, UInt8.reduceToNat] at hlt
    have hsec : second lead.toNat = none := by
      unfold second
      split_ifs <;> first | rfl | omega
    simp [completable, hsec]
  · rename_i hge
    simp only [UInt8.lt_iff_toNat_lt, UInt8.reduceToNat] at hge
    obtain _ | ⟨b1, _ | ⟨b2, _ | ⟨b3, l⟩⟩⟩ := conts
    · simp only [completable_one, List.reverse_nil, holdLen, UInt8.le_iff_toNat_le,
        UInt8.reduceToNat, List.length_nil]
      split_ifs <;> first | rfl | omega
    · exact holdLen_one (hconts b1 (by simp)) (by omega)
    · exact holdLen_two (hconts b1 (by simp)) (hconts b2 (by simp)) (by omega)
    · rw [if_neg fun h => absurd (completable_length h) (by simp)]
      obtain ⟨x, y, z, m, hm⟩ : ∃ x y z m, (b1 :: b2 :: b3 :: l).reverse = x :: y :: z :: m := by
        rcases hrev : (b1 :: b2 :: b3 :: l).reverse with _ | ⟨x, _ | ⟨y, _ | ⟨z, m⟩⟩⟩
        all_goals have := congrArg List.length hrev
        all_goals simp at this
        exact ⟨x, y, z, m, rfl⟩
      rw [hm]
      rfl

/-- Bytes end with tail bytes, and before these nothing or a byte that is none. -/
theorem tails_decomp (l : Bytes) :
    (∀ c ∈ l, tail c = true) ∨
      ∃ p lead conts, l = p ++ lead :: conts ∧ tail lead = false ∧ ∀ c ∈ conts, tail c = true := by
  induction l with
  | nil => exact Or.inl (by simp)
  | cons b l ih =>
    rcases ih with hall | ⟨p, lead, conts, rfl, hlead, hconts⟩
    · by_cases hb : tail b = true
      · exact Or.inl (by simpa using ⟨hb, hall⟩)
      · exact Or.inr ⟨[], b, l, rfl, by simpa using hb, hall⟩
    · exact Or.inr ⟨b :: p, lead, conts, rfl, hlead, hconts⟩

theorem takeWhile_conts (hconts : ∀ c ∈ conts, tail c = true) (p : Bytes) (hlead : tail lead = false) :
    (p ++ lead :: conts).reverse.takeWhile (· &&& 0xC0 = 0x80) = conts.reverse := by
  have hfun : (fun b : UInt8 => decide (b &&& 0xC0 = 0x80)) = tail := by
    funext b
    rw [Bool.eq_iff_iff, decide_eq_true_iff, and_C0]
  rw [hfun, List.reverse_append, List.reverse_cons, List.append_assoc,
    List.takeWhile_append_of_pos fun c hc => hconts c (by simpa using hc)]
  simp [hlead]

/-- **What is held at the end** is the start of a character, and nothing if there is
none. -/
theorem incompleteTailLen_spec (l : Bytes) :
    (incompleteTailLen l = 0 ∧ Closed l) ∨
      ∃ p s, l = p ++ s ∧ completable s = true ∧ incompleteTailLen l = s.length := by
  rcases tails_decomp l with hall | ⟨p, lead, conts, rfl, hlead, hconts⟩
  · left
    have hno : ∀ s, s <:+ l → completable s = false := by
      intro s hs
      rw [← Bool.not_eq_true]
      intro hcomp
      cases s with
      | nil => cases hcomp
      | cons b s =>
        have := completable_lead hcomp
        rw [hall b (hs.subset List.mem_cons_self)] at this
        cases this
    refine ⟨?_, hno⟩
    have hwhile : l.reverse.takeWhile (· &&& 0xC0 = 0x80) = l.reverse := by
      rw [List.takeWhile_eq_self_iff]
      intro c hc
      rw [decide_eq_true_iff, and_C0]
      exact hall c (by simpa using hc)
    simp only [incompleteTailLen, hwhile, List.drop_length]
    split <;> rfl
  · have hlen : incompleteTailLen (p ++ lead :: conts) =
        if completable (lead :: conts) then conts.length + 1 else 0 := by
      have hdrop : (p ++ lead :: conts).reverse.drop conts.reverse.length = lead :: p.reverse := by
        rw [List.reverse_append, List.reverse_cons, List.append_assoc, List.drop_left]
        rfl
      have hspec := holdLen_spec hlead hconts
      simp only [incompleteTailLen, takeWhile_conts hconts p hlead, hdrop]
      rw [hspec, List.length_reverse]
      split
      · rw [if_neg fun h => absurd (completable_length h) (by omega)]
      · rfl
    by_cases hcomp : completable (lead :: conts) = true
    · exact Or.inr ⟨p, lead :: conts, rfl, hcomp, by rw [hlen, if_pos hcomp, List.length_cons]⟩
    · rw [if_neg hcomp] at hlen
      refine Or.inl ⟨hlen, fun s hs => ?_⟩
      rw [← Bool.not_eq_true]
      intro hs'
      -- such an end starts with a byte that is no tail byte: it is the one found, or before it
      rcases suffix_append_cases hs with hsuf | ⟨t, ht, rfl⟩
      · rcases List.suffix_cons_iff.mp hsuf with rfl | hsuf
        · exact hcomp hs'
        · cases s with
          | nil => cases hs'
          | cons b s =>
            have := completable_lead hs'
            rw [hconts b (hsuf.subset List.mem_cons_self)] at this
            cases this
      · cases t with
        | nil => exact hcomp hs'
        | cons b t =>
          have := completable_tails hs' lead (by simp)
          rw [hlead] at this
          cases this

theorem display_append_completable (h : completable s = true) (p : Bytes) :
    display (p ++ s) = lossy p ++ replacement := by
  cases s with
  | nil => cases h
  | cons b s =>
    rw [display_append (Or.inr ⟨b, s, rfl, completable_lead h⟩), display_of_completable h]

/-- **The end of the stream** shows what is held. -/
theorem completeUtf8_eq (h : NoStray l) : completeUtf8 l = display l := by
  rcases incompleteTailLen_spec l with ⟨hzero, hclosed⟩ | ⟨p, s, rfl, hcomp, hlen⟩
  · simp only [completeUtf8, hzero, Nat.sub_zero, List.take_length, sanitize_bytes h]
    rw [display_of_closed hclosed]
    simp
  · have hpos : 0 < s.length := by
      cases s with
      | nil => cases hcomp
      | cons b s => simp
    simp only [completeUtf8, hlen, List.length_append, Nat.add_sub_cancel, List.take_left]
    rw [sanitize_bytes h.left, if_pos hpos, display_append_completable hcomp]

theorem valid_display (l : Bytes) : Valid (display l) := by
  rcases incompleteTailLen_spec l with ⟨-, hclosed⟩ | ⟨p, s, rfl, hcomp, -⟩
  · rw [display_of_closed hclosed]
    exact valid_lossy l
  · rw [display_append_completable hcomp]
    exact (valid_lossy p).append_iff.mpr (by decide)

end Tail

/-! ### Stop strings -/

section Stop

variable {bytes stop haystack needle : Bytes} {n : ℕ}

theorem prefixLoop_spec (bytes stop : Bytes) (n : ℕ) (hn : n ≤ bytes.length) :
    prefixLoop bytes stop n ≤ n ∧
      bytes.drop (bytes.length - prefixLoop bytes stop n) =
        stop.take (prefixLoop bytes stop n) := by
  induction n with
  | zero => simp [prefixLoop]
  | succ n ih =>
    simp only [prefixLoop]
    split
    · rename_i heq
      exact ⟨le_rfl, heq⟩
    · obtain ⟨hle, heq⟩ := ih (by omega)
      exact ⟨by omega, heq⟩

theorem le_prefixLoop {len : ℕ} (hlen : len ≤ n)
    (h : bytes.drop (bytes.length - len) = stop.take len) : len ≤ prefixLoop bytes stop n := by
  induction n with
  | zero => omega
  | succ n ih =>
    simp only [prefixLoop]
    split
    · exact hlen
    · rename_i hne
      refine ih ?_
      rcases Nat.lt_or_ge n len with hlt | hge
      · obtain rfl : len = n + 1 := by omega
        exact absurd h hne
      · exact hge

/-- An end of the bytes that starts the stop string, but is not all of it, is no longer
than what is found. -/
theorem le_partialPrefixLen {p s : Bytes} (hs : s <+: stop) (hlt : s.length < stop.length) :
    s.length ≤ partialPrefixLen (p ++ s) stop := by
  refine le_prefixLoop ?_ ?_
  · simp only [List.length_append]
    omega
  · rw [List.length_append, Nat.add_sub_cancel, List.drop_left]
    exact List.prefix_iff_eq_take.mp hs

theorem partialPrefixLen_le (bytes stop : Bytes) : partialPrefixLen bytes stop ≤ bytes.length :=
  (prefixLoop_spec bytes stop _ (Nat.min_le_left _ _)).1.trans (Nat.min_le_left _ _)

theorem drop_partialPrefixLen (bytes stop : Bytes) :
    bytes.drop (bytes.length - partialPrefixLen bytes stop) =
      stop.take (partialPrefixLen bytes stop) :=
  (prefixLoop_spec bytes stop _ (Nat.min_le_left _ _)).2

theorem take_beq_iff {i : ℕ} :
    ((haystack.drop i).take needle.length == needle) = true ↔ needle <+: haystack.drop i := by
  rw [beq_iff_eq, List.prefix_iff_eq_take]
  exact eq_comm

theorem findBytes_eq_some {i : ℕ} (h : findBytes haystack needle = some i) :
    needle <+: haystack.drop i ∧ i + needle.length ≤ haystack.length ∧
      ∀ j < i, ¬ needle <+: haystack.drop j := by
  unfold findBytes at h
  split at h
  · cases h
  · rename_i hcond
    simp only [Bool.or_eq_true, decide_eq_true_eq, not_or, Nat.not_lt] at hcond
    rw [List.find?_range_eq_some, take_beq_iff, List.mem_range] at h
    refine ⟨h.1, by omega, fun j hj hpre => ?_⟩
    have := h.2.2 j hj
    rw [take_beq_iff.mpr hpre] at this
    cases this

theorem findBytes_eq_none (hne : needle ≠ []) (h : findBytes haystack needle = none) (j : ℕ) :
    ¬ needle <+: haystack.drop j := by
  intro hpre
  have hpos : 0 < needle.length := List.length_pos_iff.mpr hne
  have hle := hpre.length_le
  rw [List.length_drop] at hle
  unfold findBytes at h
  rw [if_neg, List.find?_range_eq_none] at h
  · have := h j (by omega)
    rw [take_beq_iff.mpr hpre] at this
    cases this
  · simp only [Bool.or_eq_true, List.isEmpty_iff, hne, false_or, decide_eq_true_eq]
    omega

end Stop

end R9v

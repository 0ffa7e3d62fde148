import R9v.Loader.Unicode

/-!
# Decoding a character

What `decodeOne` returns at a place is the character there, as `Utf8.scalarLen` has it
(`decoded`), and U+FFFD where there is none. There is one exception: the lead byte is
masked before it is looked at, so that four bytes that start with `0xF8` to `0xFC` can be
taken for a character (`stray`).
-/

namespace R9v

open Utf8 List

/-- Four bytes that are taken for a character because the lead byte is masked: no
character starts so. -/
def stray : Bytes → Bool
  | b0 :: b1 :: b2 :: b3 :: _ =>
    (b0 = 0xF8 && 0x90 ≤ b1 || 0xF9 ≤ b0 && b0 ≤ 0xFB || b0 = 0xFC && b1 ≤ 0x8F) &&
      tail b1 && tail b2 && tail b3
  | _ => false

/-- What is decoded at a place: the character there, if there is one. -/
structure Decoded (b : UInt8) (l : Bytes) : Prop where
  scalar : ∀ n, scalarLen (b :: l) = n + 1 → (decodeOne b l).2 = n + 1 ∧
    ((decodeOne b l).1 = 0xFFFD → 0x80 ≤ b → (b :: l).take (n + 1) = replacement)
  none : scalarLen (b :: l) = 0 → stray (b :: l) = false → decodeOne b l = (0xFFFD, 1) ∧ 0x80 ≤ b

/-- Whether a number is a character that is written with this many bytes. -/
def Legal (least cpt : ℕ) : Prop := ¬(cpt < least ∨ 0x10FFFF < cpt ∨ (0xD800 ≤ cpt ∧ cpt < 0xE000))

/-- The second byte of a character is in the range of its lead byte. -/
def SecondIn (b0 b1 : UInt8) (k : ℕ) : Prop :=
  ∃ low high, second b0.toNat = some ((low, high), k) ∧ low ≤ b1.toNat ∧ b1.toNat ≤ high

section Decode

variable {b b0 b1 b2 b3 : UInt8} {l rest : Bytes} {n : ℕ}

theorem and_C0 : ∀ b : UInt8, (b &&& 0xC0 = 0x80) ↔ tail b = true := by decide +kernel

theorem and_3F (b : UInt8) : (b &&& 0x3F).toNat = b.toNat % 64 := by
  rw [UInt8.toNat_and]
  exact Nat.and_two_pow_sub_one_eq_mod b.toNat 6

theorem decodeTails_cons (cpt : ℕ) (b : UInt8) (l : Bytes) :
    decodeTails cpt (b :: l) =
      if tail b then decodeTails (cpt * 64 + b.toNat % 64) l else none := by
  simp only [decodeTails, ne_eq, and_C0, and_3F]
  have hlt : b.toNat % 64 < 2 ^ 6 := Nat.mod_lt _ (by decide)
  rw [← Nat.shiftLeft_add_eq_or_of_lt hlt, Nat.shiftLeft_eq]
  by_cases h : tail b = true <;> simp [h]

theorem leadOf_eq (b0 : UInt8) : leadOf b0 =
    if 0xF0 ≤ b0.toNat then some (0x10000, 4) else if 0xE0 ≤ b0.toNat then some (0x800, 3)
    else if 0xC0 ≤ b0.toNat then some (0x80, 2) else none := by
  rfl

theorem decoded_ascii (h : b0 < 0x80) : Decoded b0 l := by
  have hb : b0.toNat ≤ 0x7F := by
    have : b0.toNat < 0x80 := UInt8.lt_iff_toNat_lt.mp h
    omega
  have hlen : scalarLen (b0 :: l) = 1 := by simp [scalarLen, hb]
  refine ⟨fun n hn => ?_, fun hn => ?_⟩
  · obtain rfl : n = 0 := by omega
    refine ⟨by simp [decodeOne, h], fun _ hle => ?_⟩
    exact absurd h (UInt8.not_lt.mpr hle)
  · rw [hlen] at hn
    cases hn

theorem not_lt_80 (h : 0xC0 ≤ b0.toNat) : ¬ b0 < 0x80 := by
  exact Nat.not_lt.mpr (le_trans (by decide) h)

theorem ge_80 (h : 0x80 ≤ b0.toNat) : 0x80 ≤ b0 := UInt8.le_iff_toNat_le.mpr h

theorem mask_two (b : UInt8) (hle : 0xC0 ≤ b.toNat) (hlt : b.toNat < 0xE0) :
    b.toNat &&& (0xFF >>> 3) = b.toNat - 0xC0 :=
  (Nat.and_two_pow_sub_one_eq_mod b.toNat 5).trans (by omega)

theorem mask_three (b : UInt8) (hle : 0xE0 ≤ b.toNat) (hlt : b.toNat < 0xF0) :
    b.toNat &&& (0xFF >>> 4) = b.toNat - 0xE0 :=
  (Nat.and_two_pow_sub_one_eq_mod b.toNat 4).trans (by omega)

theorem mask_four (b : UInt8) : b.toNat &&& (0xFF >>> 5) = b.toNat % 8 :=
  Nat.and_two_pow_sub_one_eq_mod b.toNat 3

theorem Decoded.of_none (hlen : scalarLen (b0 :: l) = 0) (hb : 0x80 ≤ b0)
    (h : stray (b0 :: l) = false → decodeOne b0 l = (0xFFFD, 1)) : Decoded b0 l := by
  refine ⟨fun n hn => ?_, fun _ hstray => ⟨h hstray, hb⟩⟩
  rw [hlen] at hn
  cases hn

theorem Decoded.of_some {cpt : ℕ} (hlen : scalarLen (b0 :: l) = n + 1)
    (h : decodeOne b0 l = (cpt, n + 1))
    (hrep : cpt = 0xFFFD → (b0 :: l).take (n + 1) = replacement) : Decoded b0 l := by
  refine ⟨fun m hm => ?_, fun hm => ?_⟩
  · obtain rfl : n = m := by omega
    rw [h]
    exact ⟨rfl, fun heq _ => hrep heq⟩
  · rw [hlen] at hm
    cases hm

theorem decoded_tail (h : 0x80 ≤ b0.toNat) (h' : b0.toNat < 0xC0) : Decoded b0 l := by
  have hsec : second b0.toNat = none := by
    unfold second
    split_ifs <;> first | rfl | omega
  refine .of_none ?_ (ge_80 h) fun _ => ?_
  · simp only [scalarLen, hsec]
    rw [if_neg (by omega)]
  · simp only [decodeOne]
    rw [if_neg, leadOf_eq, if_neg (by omega), if_neg (by omega), if_neg (by omega)]
    exact Nat.not_lt.mpr h

/-- A lead byte of more than one byte, and too few bytes or a byte that is no tail byte
after it. -/
theorem decodeOne_short (h : 0xC0 ≤ b0.toNat) {least len : ℕ} (hlead : leadOf b0 = some (least, len))
    (hbad : l.length + 1 < len ∨ ∃ c ∈ l.take (len - 1), tail c = false) :
    decodeOne b0 l = (0xFFFD, 1) := by
  have htails : ∀ (cpt : ℕ) (l : Bytes), (∃ c ∈ l, tail c = false) → decodeTails cpt l = none := by
    intro cpt l
    induction l generalizing cpt with
    | nil => simp
    | cons d l ih =>
      rintro ⟨c, hc, hcf⟩
      rw [decodeTails_cons]
      rcases mem_cons.mp hc with rfl | hc
      · simp [hcf]
      · split
        · exact ih _ ⟨c, hc, hcf⟩
        · rfl
  simp only [decodeOne, if_neg (not_lt_80 h), hlead]
  rcases hbad with hshort | hbad
  · rw [if_pos hshort]
  · split
    · rfl
    · rw [htails _ _ hbad]

theorem decodeOne_long (h : 0xC0 ≤ b0.toNat) {least len cpt : ℕ}
    (hlead : leadOf b0 = some (least, len)) (hlen : len ≤ l.length + 1)
    (hcpt : decodeTails (b0.toNat &&& (0xFF >>> (len + 1))) (l.take (len - 1)) = some cpt) :
    decodeOne b0 l =
      if cpt < least ∨ 0x10FFFF < cpt ∨ (0xD800 ≤ cpt ∧ cpt < 0xE000) then (0xFFFD, 1)
      else (cpt, len) := by
  simp only [decodeOne, if_neg (not_lt_80 h), hlead, hcpt]
  rw [if_neg (by omega)]

/-- The bytes after a lead byte are too few or are not all tail bytes: there is no
character. -/
theorem scalarLen_short {low high m : ℕ} (hb : 0xC0 ≤ b0.toNat)
    (hsec : second b0.toNat = some ((low, high), m) ∨ second b0.toNat = none)
    (hbad : l.length < m + 1 ∨ ∃ c ∈ l.take (m + 1), tail c = false) :
    scalarLen (b0 :: l) = 0 := by
  simp only [scalarLen, if_neg (show ¬ b0.toNat ≤ 0x7F by omega)]
  rcases hsec with hsec | hsec
  · have hbounds := second_bounds hsec
    cases l with
    | nil => simp only [hsec]
    | cons c l =>
      simp only [hsec]
      refine if_neg ?_
      rintro ⟨hlow, hhigh, hn, hall⟩
      rcases hbad with hshort | ⟨d, hd, hdf⟩
      · simp at hshort
        omega
      · rcases mem_cons.mp hd with rfl | hd
        · rw [← Bool.not_eq_true, tail_iff] at hdf
          omega
        · rw [all_eq_true.mp hall d hd] at hdf
          cases hdf
  · simp only [hsec]

theorem scalarLen_long {low high m : ℕ} (hb : 0xC0 ≤ b0.toNat)
    (hsec : second b0.toNat = some ((low, high), m)) (hm : m ≤ l.length)
    (hall : (l.take m).all tail = true) :
    scalarLen (b0 :: b1 :: l) = if low ≤ b1.toNat ∧ b1.toNat ≤ high then m + 2 else 0 := by
  simp only [scalarLen, if_neg (show ¬ b0.toNat ≤ 0x7F by omega), hsec, hm, hall, and_true]

/-- A lead byte of more than one byte: what is decoded is a character exactly when the
second byte is in its range. -/
theorem decoded_lead {least k : ℕ} (h : 0xC0 ≤ b0.toNat) (hlead : leadOf b0 = some (least, k + 2))
    (hsec : ∃ low high, second b0.toNat = some ((low, high), k) ∨ second b0.toNat = none)
    (hlegal : ∀ (b1 : UInt8) (l : Bytes), k ≤ l.length → tail b1 = true →
      (l.take k).all tail = true → ∃ cpt,
        decodeTails (b0.toNat &&& (0xFF >>> (k + 2 + 1))) (b1 :: l.take k) = some cpt ∧
        (SecondIn b0 b1 k →
          Legal least cpt ∧ (cpt = 0xFFFD → b0 :: b1 :: l.take k = replacement)) ∧
        (¬SecondIn b0 b1 k → stray (b0 :: b1 :: l) = false → ¬Legal least cpt)) :
    Decoded b0 l := by
  obtain ⟨low, high, hsec⟩ := hsec
  by_cases hbad : l.length < k + 1 ∨ ∃ c ∈ l.take (k + 1), tail c = false
  · refine .of_none (scalarLen_short h hsec hbad) (ge_80 (by omega)) fun _ => ?_
    refine decodeOne_short h hlead ?_
    rcases hbad with hbad | hbad
    · exact Or.inl (by omega)
    · exact Or.inr hbad
  · rw [not_or, Nat.not_lt] at hbad
    obtain ⟨hlen, htails⟩ := hbad
    have htail : ∀ c ∈ l.take (k + 1), tail c = true := by
      intro c hc
      by_contra hno
      exact htails ⟨c, hc, by simpa using hno⟩
    cases l with
    | nil => simp at hlen
    | cons b1 l =>
      have hk : k ≤ l.length := by simpa using hlen
      have hb1 := htail b1 mem_cons_self
      have hall : (l.take k).all tail = true :=
        all_eq_true.mpr fun c hc => htail c (mem_cons_of_mem _ hc)
      obtain ⟨cpt, hcpt, hin, hout⟩ := hlegal b1 l hk hb1 hall
      have hdec := @decodeOne_long b0 (b1 :: l) h least (k + 2) cpt hlead (by simpa using hlen)
        (by simpa using hcpt)
      by_cases hsecond : SecondIn b0 b1 k
      · obtain ⟨hleg, hrep⟩ := hin hsecond
        rw [if_neg hleg] at hdec
        obtain ⟨lo, hi, hs, hlo, hhi⟩ := hsecond
        refine .of_some ?_ hdec fun heq => by simpa using hrep heq
        rw [scalarLen_long h hs hk hall, if_pos ⟨hlo, hhi⟩]
      · refine .of_none ?_ (ge_80 (by omega)) fun hstray => ?_
        · rcases hsec with hsec | hsec
          · rw [scalarLen_long h hsec hk hall, if_neg fun hin => hsecond ⟨low, high, hsec, hin⟩]
          · simp only [scalarLen, if_neg (show ¬ b0.toNat ≤ 0x7F by omega), hsec]
        · rw [hdec, if_pos (not_not.mp (hout hsecond hstray))]

theorem decoded_two (h : 0xC0 ≤ b0.toNat) (h' : b0.toNat < 0xE0) : Decoded b0 l := by
  have hlead : leadOf b0 = some (0x80, 0 + 2) := by
    rw [leadOf_eq, if_neg (by omega), if_neg (by omega), if_pos h]
  have hsec : second b0.toNat = if 0xC2 ≤ b0.toNat then some ((0x80, 0xBF), 0) else none := by
    unfold second
    split_ifs <;> first | rfl | omega
  refine decoded_lead h hlead ⟨0x80, 0xBF, ?_⟩ fun b1 l _ hb1 _ => ?_
  · rw [hsec]
    split_ifs
    · exact Or.inl rfl
    · exact Or.inr rfl
  · rw [tail_iff] at hb1
    refine ⟨(b0.toNat - 0xC0) * 64 + b1.toNat % 64, ?_, ?_, ?_⟩
    · have hmask : b0.toNat &&& (0xFF >>> (0 + 2 + 1)) = b0.toNat - 0xC0 := mask_two b0 h h'
      rw [hmask, take_zero, decodeTails_cons, if_pos (tail_iff.mpr hb1)]
      rfl
    · rintro ⟨low, high, hs, -⟩
      rw [hsec] at hs
      split_ifs at hs with hc
      unfold Legal
      omega
    · intro hno _
      have hc : ¬ 0xC2 ≤ b0.toNat := fun hc => hno ⟨_, _, by rw [hsec, if_pos hc], hb1⟩
      unfold Legal
      omega

theorem decoded_three (h : 0xE0 ≤ b0.toNat) (h' : b0.toNat < 0xF0) : Decoded b0 l := by
  have hlead : leadOf b0 = some (0x800, 1 + 2) := by
    rw [leadOf_eq, if_neg (by omega), if_pos (by omega)]
  have hsec : second b0.toNat = some ((if b0.toNat = 0xE0 then 0xA0 else 0x80,
      if b0.toNat = 0xED then 0x9F else 0xBF), 1) := by
    unfold second
    split_ifs <;> first | rfl | omega
  refine decoded_lead (by omega) hlead ⟨_, _, Or.inl hsec⟩ fun b1 l hlen hb1 hall => ?_
  obtain _ | ⟨b2, l⟩ := l
  · simp at hlen
  · have hb2 : tail b2 = true := by simpa using hall
    have hcpt : decodeTails (b0.toNat &&& (0xFF >>> (1 + 2 + 1))) (b1 :: (b2 :: l).take 1) =
        some (((b0.toNat - 0xE0) * 64 + b1.toNat % 64) * 64 + b2.toNat % 64) := by
      have hmask : b0.toNat &&& (0xFF >>> (1 + 2 + 1)) = b0.toNat - 0xE0 := mask_three b0 h h'
      rw [hmask, decodeTails_cons, if_pos hb1, take_succ_cons, take_zero,
        decodeTails_cons, if_pos hb2]
      rfl
    rw [tail_iff] at hb1 hb2
    refine ⟨_, hcpt, ?_, ?_⟩
    · rintro ⟨low, high, hs, hlow, hhigh⟩
      rw [hsec] at hs
      simp only [Option.some.injEq, Prod.mk.injEq] at hs
      unfold Legal
      refine ⟨by split_ifs at hs <;> omega, fun heq => ?_⟩
      have h0 : b0 = 0xEF := UInt8.toNat_inj.mp (show b0.toNat = 0xEF by omega)
      have h1 : b1 = 0xBF := UInt8.toNat_inj.mp (show b1.toNat = 0xBF by omega)
      have h2 : b2 = 0xBD := UInt8.toNat_inj.mp (show b2.toNat = 0xBD by omega)
      rw [h0, h1, h2]
      rfl
    · intro hno _ hleg
      refine hno ⟨_, _, hsec, ?_⟩
      unfold Legal at hleg
      split_ifs <;> omega

theorem decoded_four (h : 0xF0 ≤ b0.toNat) : Decoded b0 l := by
  have hlt := b0.toNat_lt
  have hlead : leadOf b0 = some (0x10000, 2 + 2) := by rw [leadOf_eq, if_pos h]
  have hsec : second b0.toNat = if b0.toNat ≤ 0xF4 then some ((if b0.toNat = 0xF0 then 0x90 else 0x80,
      if b0.toNat = 0xF4 then 0x8F else 0xBF), 2) else none := by
    unfold second
    split_ifs <;> first | rfl | omega
  refine decoded_lead (by omega) hlead ⟨if b0.toNat = 0xF0 then 0x90 else 0x80,
    if b0.toNat = 0xF4 then 0x8F else 0xBF, ?_⟩ fun b1 l hlen hb1 hall => ?_
  · rw [hsec]
    split_ifs
    all_goals first | exact Or.inl rfl | exact Or.inr rfl
  obtain _ | ⟨b2, _ | ⟨b3, l⟩⟩ := l
  · simp at hlen
  · simp at hlen
  · have hb23 : tail b2 = true ∧ tail b3 = true := by simpa using hall
    obtain ⟨hb2, hb3⟩ := hb23
    have hcpt : decodeTails (b0.toNat &&& (0xFF >>> (2 + 2 + 1))) (b1 :: (b2 :: b3 :: l).take 2) =
        some (((b0.toNat % 8 * 64 + b1.toNat % 64) * 64 + b2.toNat % 64) * 64 + b3.toNat % 64) := by
      have hmask : b0.toNat &&& (0xFF >>> (2 + 2 + 1)) = b0.toNat % 8 := mask_four b0
      rw [hmask, decodeTails_cons, if_pos hb1, take_succ_cons, take_succ_cons,
        take_zero, decodeTails_cons, if_pos hb2, decodeTails_cons, if_pos hb3]
      rfl
    have hstray : stray (b0 :: b1 :: b2 :: b3 :: l) = false →
        ¬(b0.toNat = 0xF8 ∧ 0x90 ≤ b1.toNat ∨ 0xF9 ≤ b0.toNat ∧ b0.toNat ≤ 0xFB ∨
          b0.toNat = 0xFC ∧ b1.toNat ≤ 0x8F) := by
      simp only [stray, hb1, hb2, hb3, Bool.and_true, Bool.or_eq_false_iff, Bool.and_eq_false_iff,
        decide_eq_false_iff_not, UInt8.le_iff_toNat_le, ← UInt8.toNat_inj]
      rintro ⟨⟨h₁, h₂⟩, h₃⟩
      simp only [UInt8.reduceToNat] at h₁ h₂ h₃
      omega
    rw [tail_iff] at hb1 hb2 hb3
    refine ⟨_, hcpt, ?_, ?_⟩
    · rintro ⟨low, high, hs, hlow, hhigh⟩
      rw [hsec] at hs
      split_ifs at hs <;> simp only [Option.some.injEq, Prod.mk.injEq] at hs <;> unfold Legal <;>
        omega
    · intro hno hst hleg
      have hst' := hstray hst
      unfold Legal at hleg
      refine hno ?_
      by_cases hle : b0.toNat ≤ 0xF4
      · refine ⟨_, _, by rw [hsec, if_pos hle], ?_⟩
        split_ifs <;> omega
      · omega

/-- **What is decoded at a place** is the character there. -/
theorem decoded (b : UInt8) (l : Bytes) : Decoded b l := by
  rcases Nat.lt_or_ge b.toNat 0x80 with h | h
  · exact decoded_ascii (UInt8.lt_iff_toNat_lt.mpr h)
  · rcases Nat.lt_or_ge b.toNat 0xC0 with h' | h'
    · exact decoded_tail h h'
    · rcases Nat.lt_or_ge b.toNat 0xE0 with h'' | h''
      · exact decoded_two h' h''
      · rcases Nat.lt_or_ge b.toNat 0xF0 with h₃ | h₃
        · exact decoded_three h'' h₃
        · exact decoded_four h₃

end Decode
end R9v

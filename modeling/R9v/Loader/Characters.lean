import R9v.Loader.Encode

/-!
# Characters and back

The characters of well-formed text, encoded again, are the text (`cptsFromStr_encode`), also
when they are split into words first (`splitGpt2_bytes`), and the bytes of a text that has
one character for each byte are these bytes (`byteDecodePiece_byteEncode`).
-/

namespace R9v

open Utf8 List

section Encode

variable {b b0 b1 b2 b3 : UInt8} {l r : Bytes} {n : ℕ}

theorem or_C0 : ∀ x < 32, 0xC0 ||| x = 0xC0 + x := by decide

theorem or_E0 : ∀ x < 16, 0xE0 ||| x = 0xE0 + x := by decide

theorem or_F0 : ∀ x < 8, 0xF0 ||| x = 0xF0 + x := by decide

theorem or_80 (x : ℕ) : 0x80 ||| (x &&& 0x3F) = 0x80 + x % 64 := by
  have hmod : x &&& 0x3F = x % 64 := Nat.and_two_pow_sub_one_eq_mod x 6
  have hlt : x % 64 < 64 := Nat.mod_lt _ (by decide)
  have hor : ∀ y < 64, 0x80 ||| y = 0x80 + y := by decide
  rw [hmod, hor _ hlt]

theorem ofNat_eq (h : n = b.toNat) : UInt8.ofNat n = b := by
  rw [h, UInt8.ofNat_toNat]

theorem encodeUtf8_two (h0 : 0xC2 ≤ b0.toNat) (h0' : b0.toNat < 0xE0) (h1 : tail b1 = true) :
    encodeUtf8 ((b0.toNat - 0xC0) * 64 + b1.toNat % 64) = [b0, b1] := by
  rw [tail_iff] at h1
  unfold encodeUtf8
  rw [if_neg (by omega), if_pos (by omega), Nat.shiftRight_eq_div_pow, or_C0 _ (by omega), or_80]
  rw [ofNat_eq (b := b0) (by omega), ofNat_eq (b := b1) (by omega)]

theorem encodeUtf8_three (h0 : 0xE0 ≤ b0.toNat) (h0' : b0.toNat < 0xF0) (h1 : tail b1 = true)
    (h2 : tail b2 = true) (hmin : b0.toNat = 0xE0 → 0xA0 ≤ b1.toNat) :
    encodeUtf8 (((b0.toNat - 0xE0) * 64 + b1.toNat % 64) * 64 + b2.toNat % 64) = [b0, b1, b2] := by
  rw [tail_iff] at h1 h2
  unfold encodeUtf8
  rw [if_neg (by omega), if_neg (by omega), if_pos (by omega), Nat.shiftRight_eq_div_pow,
    Nat.shiftRight_eq_div_pow, or_E0 _ (by omega), or_80, or_80]
  rw [ofNat_eq (b := b0) (by omega), ofNat_eq (b := b1) (by omega), ofNat_eq (b := b2) (by omega)]

theorem encodeUtf8_four (h0 : 0xF0 ≤ b0.toNat) (h0' : b0.toNat ≤ 0xF4) (h1 : tail b1 = true)
    (h2 : tail b2 = true) (h3 : tail b3 = true) (hmin : b0.toNat = 0xF0 → 0x90 ≤ b1.toNat) :
    encodeUtf8 (((b0.toNat % 8 * 64 + b1.toNat % 64) * 64 + b2.toNat % 64) * 64 + b3.toNat % 64) =
      [b0, b1, b2, b3] := by
  rw [tail_iff] at h1 h2 h3
  unfold encodeUtf8
  rw [if_neg (by omega), if_neg (by omega), if_neg (by omega), Nat.shiftRight_eq_div_pow,
    Nat.shiftRight_eq_div_pow, Nat.shiftRight_eq_div_pow, or_F0 _ (by omega), or_80, or_80, or_80]
  rw [ofNat_eq (b := b0) (by omega), ofNat_eq (b := b1) (by omega), ofNat_eq (b := b2) (by omega),
    ofNat_eq (b := b3) (by omega)]

theorem decodeOne_append (h : b < 0x80 ∨ ((leadOf b).any fun p => p.2 ≤ l.length + 1) = true)
    (r : Bytes) : decodeOne b (l ++ r) = decodeOne b l := by
  unfold decodeOne
  rcases h with h | h
  · rw [if_pos h, if_pos h]
  · rcases hlead : leadOf b with _ | ⟨least, len⟩
    · rfl
    · simp only [hlead, Option.any_some, decide_eq_true_eq] at h
      simp only
      rw [take_append_of_le_length (by omega), length_append]
      simp only [if_neg (show ¬ l.length + 1 < len by omega),
        if_neg (show ¬ l.length + r.length + 1 < len by omega)]

theorem second_cases {k low high m : ℕ} (h : second k = some ((low, high), m)) :
    (m = 0 ∧ 0xC2 ≤ k ∧ k < 0xE0) ∨ (m = 1 ∧ 0xE0 ≤ k ∧ k < 0xF0 ∧ (k = 0xE0 → 0xA0 ≤ low)) ∨
      (m = 2 ∧ 0xF0 ≤ k ∧ k ≤ 0xF4 ∧ (k = 0xF0 → 0x90 ≤ low)) := by
  unfold second at h
  split_ifs at h <;> simp only [Option.some.injEq, Prod.mk.injEq] at h <;> omega

theorem decodeOne_fst (hn : (decodeOne b l).2 = n + 2) (h : 0xC0 ≤ b.toNat) {least cpt : ℕ}
    (hlead : leadOf b = some (least, n + 2)) (hlen : n + 2 ≤ l.length + 1)
    (hcpt : decodeTails (b.toNat &&& (0xFF >>> (n + 2 + 1))) (l.take (n + 1)) = some cpt) :
    (decodeOne b l).1 = cpt := by
  rw [decodeOne_long h hlead hlen hcpt] at hn ⊢
  split at hn
  · simp at hn
  · rename_i hlegal
    rw [if_neg hlegal]

/-- **The bytes of a character** that has been decoded are those it was decoded from. -/
theorem encodeUtf8_decodeOne (h : scalarLen (b :: l) = n + 1) :
    encodeUtf8 (decodeOne b l).1 = (b :: l).take (n + 1) := by
  have hdec := ((decoded b l).scalar n h).1
  simp only [scalarLen] at h
  split at h
  · rename_i hb
    obtain rfl : n = 0 := by omega
    have hlt : b < 0x80 := UInt8.lt_iff_toNat_lt.mpr (Nat.lt_succ_of_le hb)
    simp only [decodeOne, if_pos hlt, encodeUtf8, if_pos (Nat.lt_succ_of_le hb),
      UInt8.ofNat_toNat, take_succ_cons, take_zero]
  · split at h
    · rename_i low high m c l hsec
      split at h
      · rename_i hcond
        obtain ⟨hlow, hhigh, hm, hall⟩ := hcond
        obtain rfl : m + 1 = n := by omega
        have hbounds := second_bounds hsec
        have hc : tail c = true := by
          rw [tail_iff]
          omega
        rcases second_cases hsec with ⟨rfl, h0, h0'⟩ | ⟨rfl, h0, h0', hmin⟩ | ⟨rfl, h0, h0', hmin⟩
        · have hlead : leadOf b = some (0x80, 0 + 2) := by
            rw [leadOf_eq, if_neg (by omega), if_neg (by omega), if_pos (by omega)]
          have hmask : b.toNat &&& (0xFF >>> (0 + 2 + 1)) = b.toNat - 0xC0 :=
            mask_two b (by omega) h0'
          rw [decodeOne_fst hdec (by omega) hlead (by simp) (by
            rw [hmask, take_succ_cons, take_zero, decodeTails_cons, if_pos hc]
            rfl)]
          exact encodeUtf8_two h0 h0' hc
        · obtain _ | ⟨d, l⟩ := l
          · simp at hm
          have hd : tail d = true := by simpa using hall
          have hlead : leadOf b = some (0x800, 1 + 2) := by
            rw [leadOf_eq, if_neg (by omega), if_pos (by omega)]
          have hmask : b.toNat &&& (0xFF >>> (1 + 2 + 1)) = b.toNat - 0xE0 := mask_three b h0 h0'
          rw [decodeOne_fst hdec (by omega) hlead (by simp) (by
            rw [hmask, take_succ_cons, take_succ_cons, take_zero, decodeTails_cons,
              if_pos hc, decodeTails_cons, if_pos hd]
            rfl)]
          exact encodeUtf8_three h0 h0' hc hd fun hb => (hmin hb).trans hlow
        · obtain _ | ⟨d, _ | ⟨e, l⟩⟩ := l
          · simp at hm
          · simp at hm
          have hde : tail d = true ∧ tail e = true := by simpa using hall
          have hlead : leadOf b = some (0x10000, 2 + 2) := by rw [leadOf_eq, if_pos h0]
          have hmask : b.toNat &&& (0xFF >>> (2 + 2 + 1)) = b.toNat % 8 := mask_four b
          rw [decodeOne_fst hdec (by omega) hlead (by simp) (by
            rw [hmask, take_succ_cons, take_succ_cons, take_succ_cons,
              take_zero, decodeTails_cons, if_pos hc, decodeTails_cons, if_pos hde.1,
              decodeTails_cons, if_pos hde.2]
            rfl)]
          exact encodeUtf8_four h0 h0' hc hde.1 hde.2 fun hb => (hmin hb).trans hlow
      · cases h
    · cases h

end Encode

/-! ### Words -/

section Words

variable {b : UInt8} {l : Bytes} {u : UnicodeTables} {cpts : List ℕ} {fuel : ℕ}

theorem cptsLoop_spec (hfuel : l.length ≤ fuel) (h : Valid l) :
    (cptsLoop fuel l).flatMap encodeUtf8 = l ∧ ∀ c ∈ cptsLoop fuel l, Valid (encodeUtf8 c) := by
  induction fuel generalizing l with
  | zero =>
    obtain rfl : l = [] := by simpa using hfuel
    exact ⟨rfl, by simp [cptsLoop]⟩
  | succ fuel ih =>
    cases l with
    | nil => exact ⟨rfl, by simp [cptsLoop]⟩
    | cons b l =>
      obtain ⟨n, hlen, hhead, htail⟩ := h.uncons
      have hdec := ((decoded b l).scalar n hlen).1
      have henc := encodeUtf8_decodeOne hlen
      obtain ⟨hall, hvalid⟩ := ih (l := l.drop n) (by
        simp only [length_cons] at hfuel
        simp only [length_drop]
        omega) htail
      simp only [cptsLoop, hdec, Nat.add_sub_cancel]
      constructor
      · rw [flatMap_cons, henc, hall, take_succ_cons, cons_append,
          take_append_drop]
      · intro c hc
        rcases mem_cons.mp hc with rfl | hc
        · rw [henc]
          exact hhead
        · exact hvalid c hc

/-- **The characters of a text are the text.** -/
theorem cptsFromStr_encode (h : Valid l) : (cptsFromStr l).flatMap encodeUtf8 = l :=
  (cptsLoop_spec le_rfl h).1

theorem valid_flatMap (h : ∀ c ∈ cpts, Valid (encodeUtf8 c)) : Valid (cpts.flatMap encodeUtf8) := by
  induction cpts with
  | nil => exact valid_nil
  | cons c cpts ih =>
    exact (h c mem_cons_self).append_iff.mpr (ih fun d hd => h d (mem_cons_of_mem _ hd))

theorem wordLen_pos (u : UnicodeTables) (rest : List ℕ) : 0 < wordLen u rest := by
  have hrun : ∀ (p : ℕ → Bool) (l : List ℕ), l.head?.any p = true → 0 < (l.takeWhile p).length := by
    intro p l h
    cases l with
    | nil => cases h
    | cons c l =>
      rw [head?_cons, Option.any_some] at h
      simp [h]
  unfold wordLen
  simp only
  generalize (if rest.head? = some 0x20 then 1 else 0) = space
  split
  · omega
  · split
    · have := hrun _ _ ‹_›
      omega
    · split
      · have := hrun _ _ ‹_›
        omega
      · split
        · have := hrun _ _ ‹_›
          omega
        · split
          · omega
          · split <;> omega

theorem splitLoop_bytes (hfuel : cpts.length ≤ fuel) (h : ∀ c ∈ cpts, Valid (encodeUtf8 c)) :
    (splitLoop u fuel cpts).flatMap Str.bytes = cpts.flatMap encodeUtf8 := by
  induction fuel generalizing cpts with
  | zero =>
    obtain rfl : cpts = [] := by simpa using hfuel
    rfl
  | succ fuel ih =>
    cases cpts with
    | nil => rfl
    | cons c l =>
      have hpos := wordLen_pos u (c :: l)
      have hword : Valid (((c :: l).take (wordLen u (c :: l))).flatMap encodeUtf8) :=
        valid_flatMap fun d hd => h d (mem_of_mem_take hd)
      have hrest := @ih ((c :: l).drop (wordLen u (c :: l))) (by
        rw [length_drop]
        omega) fun d hd => h d (mem_of_mem_drop hd)
      simp only [splitLoop, flatMap_cons]
      rw [hrest, Str.ofUtf8, dif_pos hword, ← flatMap_append, take_append_drop,
        flatMap_cons]

/-- **The words of a text are the text.** -/
theorem splitGpt2_bytes (h : Valid l) : (splitGpt2 u l).flatMap Str.bytes = l := by
  obtain ⟨hall, hvalid⟩ := cptsLoop_spec (l := l) le_rfl h
  exact (splitLoop_bytes le_rfl hvalid).trans hall

end Words

/-! ### The map of GPT-2 -/

section Gpt2

variable {b : UInt8} {l w : Bytes} {fuel : ℕ}

/-- The bytes of the character of a byte. -/
def image (b : UInt8) : Bytes := encodeUtf8 (byteToUnicodeChar b)

/-- What is read of the character of a byte is the character, with all of its bytes. -/
def ImageRead (b : UInt8) : Bool :=
  match image b with
  | [] => false
  | x :: xs =>
    (x < 0x80 || (leadOf x).any fun p => p.2 ≤ xs.length + 1) &&
      decodeOne x xs = (byteToUnicodeChar b, xs.length + 1)

theorem image_spec : ∀ b, ImageRead b = true ∧ Valid (image b) := by decide +kernel

theorem unicodeCharToByte_char : ∀ b, unicodeCharToByte (byteToUnicodeChar b) = some b := by
  decide +kernel

theorem image_cases (b : UInt8) : ∃ x xs, image b = x :: xs ∧
    ∀ r, decodeOne x (xs ++ r) = (byteToUnicodeChar b, xs.length + 1) := by
  have h := (image_spec b).1
  unfold ImageRead at h
  split at h
  · cases h
  · rename_i x xs heq
    simp only [Bool.and_eq_true, Bool.or_eq_true, decide_eq_true_eq] at h
    exact ⟨x, xs, heq, fun r => by rw [decodeOne_append h.1, h.2]⟩

theorem byteEncode_cons (b : UInt8) (w : Bytes) : byteEncode (b :: w) = image b ++ byteEncode w :=
  flatMap_cons ..

theorem byteEncode_append (v w : Bytes) : byteEncode (v ++ w) = byteEncode v ++ byteEncode w :=
  flatMap_append ..

theorem cptsLoop_byteEncode (hfuel : (byteEncode w).length ≤ fuel) :
    cptsLoop fuel (byteEncode w) = w.map byteToUnicodeChar := by
  induction w generalizing fuel with
  | nil => cases fuel <;> rfl
  | cons b w ih =>
    obtain ⟨x, xs, himage, hdec⟩ := image_cases b
    rw [byteEncode_cons, himage, cons_append] at hfuel ⊢
    cases fuel with
    | zero => simp at hfuel
    | succ fuel =>
      simp only [length_cons, length_append] at hfuel
      simp only [cptsLoop, hdec, Nat.add_sub_cancel, drop_left, map_cons]
      rw [ih (by omega)]

/-- **A text that has one character for each byte** is decoded to these bytes. -/
theorem byteDecodePiece_byteEncode (w : Bytes) : byteDecodePiece (byteEncode w) = w := by
  unfold byteDecodePiece cptsFromStr
  rw [cptsLoop_byteEncode le_rfl, flatMap_map]
  simp only [unicodeCharToByte_char]
  simp

theorem valid_byteEncode (w : Bytes) : Valid (byteEncode w) := by
  induction w with
  | nil => exact valid_nil
  | cons b w ih =>
    exact (image_spec b).2.append_iff.mpr ih

theorem symbolsOf_byteEncode (hfuel : (byteEncode w).length ≤ fuel) :
    ∃ symbols, symbolsOf fuel (byteEncode w) = some symbols ∧ symbols.map Str.bytes = w.map image := by
  induction w generalizing fuel with
  | nil => exact ⟨[], by cases fuel <;> rfl, rfl⟩
  | cons b w ih =>
    obtain ⟨x, xs, himage, hdec⟩ := image_cases b
    have hvalid := (image_spec b).2
    rw [byteEncode_cons, himage, cons_append] at hfuel ⊢
    cases fuel with
    | zero => simp at hfuel
    | succ fuel =>
      simp only [length_cons, length_append] at hfuel
      obtain ⟨symbols, hsymbols, hmap⟩ := @ih fuel (by omega)
      have hlen : min (lenUtf8At (x :: (xs ++ byteEncode w))) (x :: (xs ++ byteEncode w)).length =
          (x :: xs).length := by
        simp only [lenUtf8At, hdec, length_cons, length_append]
        omega
      rw [himage] at hvalid
      refine ⟨⟨x :: xs, hvalid⟩ :: symbols, ?_, ?_⟩
      · simp only [symbolsOf, hlen]
        rw [← cons_append, take_left, drop_left, Str.slice, dif_pos hvalid, hsymbols]
        rfl
      · rw [map_cons, map_cons, hmap, himage]

end Gpt2

end R9v

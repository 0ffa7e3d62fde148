import R9v.T0.Philox
import Mathlib.Logic.Function.Basic

/-!
# Streams of random numbers do not collide

A round of the block function can be undone, since its multipliers are odd, so that under one key
the blocks of all counters differ (`philox4x32_10_bijective`). The key and the counter of a draw
give its seed, its sequence, its step and its place back, so that no block is read twice under a
seed (`streams_differ`).
-/

namespace R9v

/-! ### Undoing a round -/

/-- What undoes a multiplication by `philoxM0`. -/
def philoxM0Inv : UInt32 := 0x991A7CDB

/-- What undoes a multiplication by `philoxM1`. -/
def philoxM1Inv : UInt32 := 0x6D7CAE67

/-- Undoes a round. -/
def philoxUnround (out : Words) (key : UInt32 × UInt32) : Words :=
  let c0 := philoxM0Inv * out.w3
  let c2 := philoxM1Inv * out.w1
  ⟨c0, out.w0 ^^^ (mulhilo philoxM1 c2).1 ^^^ key.1, c2,
    out.w2 ^^^ (mulhilo philoxM0 c0).1 ^^^ key.2⟩

section Rounds

variable {a b k : UInt32}

theorem mulhilo_snd : (mulhilo a b).2 = a * b := by
  simp [mulhilo]

theorem philoxM0Inv_mul : philoxM0Inv * (philoxM0 * a) = a := by
  rw [← UInt32.mul_assoc, show philoxM0Inv * philoxM0 = 1 by decide, UInt32.one_mul]

theorem philoxM0_mul : philoxM0 * (philoxM0Inv * a) = a := by
  rw [← UInt32.mul_assoc, show philoxM0 * philoxM0Inv = 1 by decide, UInt32.one_mul]

theorem philoxM1Inv_mul : philoxM1Inv * (philoxM1 * a) = a := by
  rw [← UInt32.mul_assoc, show philoxM1Inv * philoxM1 = 1 by decide, UInt32.one_mul]

theorem philoxM1_mul : philoxM1 * (philoxM1Inv * a) = a := by
  rw [← UInt32.mul_assoc, show philoxM1 * philoxM1Inv = 1 by decide, UInt32.one_mul]

/-- A word that has been mixed with two others is found again with them. -/
theorem unmix : a ^^^ b ^^^ k ^^^ a ^^^ k = b := by
  rw [UInt32.xor_comm a b, UInt32.xor_assoc b, UInt32.xor_assoc b, UInt32.xor_assoc b,
    UInt32.xor_comm a k, UInt32.xor_assoc k, UInt32.xor_self, UInt32.xor_zero, UInt32.xor_self,
    UInt32.xor_zero]

theorem mix_unmix : a ^^^ (b ^^^ a ^^^ k) ^^^ k = b := by
  rw [UInt32.xor_comm a, UInt32.xor_assoc b, UInt32.xor_assoc b, UInt32.xor_assoc b,
    UInt32.xor_comm a k, UInt32.xor_assoc k, UInt32.xor_self, UInt32.xor_zero, UInt32.xor_self,
    UInt32.xor_zero]

theorem philoxRound_eq (ctr : Words) (key : UInt32 × UInt32) :
    philoxRound ctr key = ⟨(mulhilo philoxM1 ctr.w2).1 ^^^ ctr.w1 ^^^ key.1, philoxM1 * ctr.w2,
      (mulhilo philoxM0 ctr.w0).1 ^^^ ctr.w3 ^^^ key.2, philoxM0 * ctr.w0⟩ := by
  rw [← @mulhilo_snd philoxM1, ← @mulhilo_snd philoxM0]
  rfl

/-- **A round is invertible.** -/
theorem philoxRound_bijective (key : UInt32 × UInt32) :
    Function.Bijective fun ctr => philoxRound ctr key := by
  refine Function.bijective_iff_has_inverse.mpr
    ⟨fun out => philoxUnround out key, fun ctr => ?_, fun out => ?_⟩
  · beta_reduce
    rw [philoxRound_eq, philoxUnround]
    simp only [philoxM0Inv_mul, philoxM1Inv_mul, unmix]
  · beta_reduce
    rw [philoxRound_eq, philoxUnround]
    simp only [philoxM0_mul, philoxM1_mul, mix_unmix]

theorem philoxRounds_succ (n : ℕ) (ctr : Words) (key : UInt32 × UInt32) :
    philoxRounds (n + 1) ctr key =
      philoxRounds n (philoxRound ctr (key.1 + philoxW0, key.2 + philoxW1))
        (key.1 + philoxW0, key.2 + philoxW1) := by
  delta philoxRounds
  rfl

theorem philoxRounds_bijective (n : ℕ) (key : UInt32 × UInt32) :
    Function.Bijective fun ctr => philoxRounds n ctr key := by
  induction n generalizing key with
  | zero => exact Function.bijective_id
  | succ n ih =>
    have hsplit : (fun ctr => philoxRounds (n + 1) ctr key) =
        (fun ctr => philoxRounds n ctr (key.1 + philoxW0, key.2 + philoxW1)) ∘
          fun ctr => philoxRound ctr (key.1 + philoxW0, key.2 + philoxW1) := by
      funext ctr
      exact philoxRounds_succ n ctr key
    rw [hsplit]
    exact (ih _).comp (philoxRound_bijective _)

/-- **Counters and blocks** correspond to each other under every key. -/
theorem philox4x32_10_bijective (key : UInt32 × UInt32) :
    Function.Bijective fun ctr => philox4x32_10 ctr key :=
  (philoxRounds_bijective 9 key).comp (philoxRound_bijective key)

end Rounds

/-! ### The place of a draw -/

namespace RngState

/-- The key of a state. -/
def key (rng : RngState) : UInt32 × UInt32 := (rng.seed.toUInt32, (rng.seed >>> 32).toUInt32)

/-- The counter of a draw. -/
def counter (rng : RngState) (draw : ℕ) : Words :=
  ⟨UInt32.ofNat draw, rng.step.toUInt32, (rng.step >>> 32).toUInt32, rng.seqWord⟩

/-- The block of a draw. -/
def block (rng : RngState) (draw : ℕ) : Words := philox4x32_10 (rng.counter draw) rng.key

theorem eq_of_halves {a b : UInt64} (hlow : a.toUInt32 = b.toUInt32)
    (hhigh : (a >>> 32).toUInt32 = (b >>> 32).toUInt32) : a = b := by
  have hlow := congrArg UInt32.toNat hlow
  have hhigh := congrArg UInt32.toNat hhigh
  have hmod : (32 : UInt64).toNat % 64 = 32 := rfl
  rw [UInt64.toNat_toUInt32, UInt64.toNat_toUInt32] at hlow hhigh
  rw [UInt64.toNat_shiftRight, UInt64.toNat_shiftRight, hmod, Nat.shiftRight_eq_div_pow,
    Nat.shiftRight_eq_div_pow] at hhigh
  have ha := a.toNat_lt
  have hb := b.toNat_lt
  apply UInt64.toNat_inj.mp
  omega

theorem withDraw_eq_ok {F : Type} {seed seqId step : UInt64} {i : ℕ} {hi : i < 2 ^ 32}
    {rng : RngState} (h : withDraw seed seqId step i hi = (.ok rng : Except (T0Error F) _)) :
    rng.seed = seed ∧ rng.step = step ∧ rng.seqWord.toNat = seqId.toNat := by
  unfold withDraw at h
  split at h
  · cases h
    exact ⟨rfl, rfl, by rw [UInt64.toNat_toUInt32, Nat.mod_eq_of_lt ‹_›]⟩
  · cases h

end RngState

open RngState in
/-- **Streams do not collide**: every key gives a bijection, the key and the counter of a draw tell
its seed, sequence, step and place, and draws of one seed that differ in one of the others read
different blocks. A state before its first draw is one of those with an explicit draw. -/
theorem streams_differ {F : Type} :
    (∀ key, Function.Bijective fun ctr => philox4x32_10 ctr key) ∧
    ∀ (seed seqId step seed' seqId' step' : UInt64) (i i' : ℕ) (hi : i < 2 ^ 32)
      (hi' : i' < 2 ^ 32) (rng rng' : RngState),
      withDraw seed seqId step i hi = (.ok rng : Except (T0Error F) _) →
      withDraw seed' seqId' step' i' hi' = (.ok rng' : Except (T0Error F) _) →
      ∀ draw draw' : UInt32,
        ((rng.key, rng.counter draw.toNat) = (rng'.key, rng'.counter draw'.toNat) →
          (seed, seqId, step, draw) = (seed', seqId', step', draw')) ∧
        (seed = seed' → (seqId, step, draw) ≠ (seqId', step', draw') →
          rng.block draw.toNat ≠ rng'.block draw'.toNat) := by
  refine ⟨philox4x32_10_bijective, ?_⟩
  intro seed seqId step seed' seqId' step' i i' hi hi' rng rng' h h' draw draw'
  obtain ⟨rfl, rfl, hseq⟩ := withDraw_eq_ok h
  obtain ⟨rfl, rfl, hseq'⟩ := withDraw_eq_ok h'
  have hinj : (rng.key, rng.counter draw.toNat) = (rng'.key, rng'.counter draw'.toNat) →
      (rng.seed, seqId, rng.step, draw) = (rng'.seed, seqId', rng'.step, draw') := by
    intro heq
    simp only [Prod.mk.injEq, key, counter, Words.mk.injEq, UInt32.ofNat_toNat] at heq
    obtain ⟨⟨hlow, hhigh⟩, rfl, hslow, hshigh, hword⟩ := heq
    have hid : seqId = seqId' := UInt64.toNat_inj.mp (by rw [← hseq, ← hseq', hword])
    rw [eq_of_halves hlow hhigh, eq_of_halves hslow hshigh, hid]
  refine ⟨hinj, fun hseed hne heq => hne ?_⟩
  have hkey : rng.key = rng'.key := by rw [key, key, hseed]
  have hcounter : rng.counter draw.toNat = rng'.counter draw'.toNat := by
    unfold block at heq
    rw [hkey] at heq
    exact (philox4x32_10_bijective _).injective heq
  exact (Prod.mk.inj (hinj (by rw [hkey, hcounter]))).2

theorem streams_differ_first : firstState.block 0 ≠ firstState.block 1 :=
  ((@streams_differ Float32).2 42 1 0 42 1 0 0 0 (by norm_num) (by norm_num) firstState firstState
    rfl rfl 0 1).2 rfl (by decide)

end R9v

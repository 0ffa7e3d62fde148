import R9v.Lib.Checked

/-!
# Counter-based random numbers

The block function of `r9v-t0/src/philox.rs` and the state of the random numbers of one
sequence (`RngState`), which is a counter of the draws of a step: the number at a draw is a
function of the seed, the sequence, the step and the draw (`RngState.drawAt`), and a state
only ever counts.
-/

namespace R9v

open Checked

/-- The errors of sampling and verification. Where a text of the source shows a number of
the device, the error has the number. -/
inductive T0Error (F : Type)
  | emptyInput (op tensor : String)
  | shapeLengthMismatch (op tensor : String) (expected got : ℕ) (detail : String)
  | invalidAttribute (op field reason : String) (got : F)
  | invalidDistribution (op : String) (seq pos : ℕ) (sum : F)
  | tokenOutOfRange (op tensor : String) (position token vocabSize : ℕ)
  | invalidProbability (op : String) (seq pos token : ℕ) (value : F)
  | seqIdOutOfRange (op : String) (seqId max : ℕ)
  | drawIndexOverflow (op : String) (drawIndex advance : ℕ)
  | invalidTree (seq : ℕ) (detail : String)

/-! ### The block function -/

def philoxM0 : UInt32 := 0xD2511F53

def philoxM1 : UInt32 := 0xCD9E8D57

def philoxW0 : UInt32 := 0x9E3779B9

def philoxW1 : UInt32 := 0xBB67AE85

/-- The four words of a counter. -/
structure Words where
  w0 : UInt32
  w1 : UInt32
  w2 : UInt32
  w3 : UInt32
  deriving DecidableEq

/-- The high and the low word of a product. -/
def mulhilo (a b : UInt32) : UInt32 × UInt32 :=
  let p := a.toUInt64 * b.toUInt64
  ((p >>> 32).toUInt32, p.toUInt32)

def philoxRound (ctr : Words) (key : UInt32 × UInt32) : Words :=
  let (hi0, lo0) := mulhilo philoxM0 ctr.w0
  let (hi1, lo1) := mulhilo philoxM1 ctr.w2
  ⟨hi1 ^^^ ctr.w1 ^^^ key.1, lo1, hi0 ^^^ ctr.w3 ^^^ key.2, lo0⟩

/-- Rounds after the first, each with a new key. -/
def philoxRounds : ℕ → Words → UInt32 × UInt32 → Words
  | 0, c, _ => c
  | n + 1, c, key =>
    let key := (key.1 + philoxW0, key.2 + philoxW1)
    philoxRounds n (philoxRound c key) key

def philox4x32_10 (ctr : Words) (key : UInt32 × UInt32) : Words :=
  philoxRounds 9 (philoxRound ctr key) key

/-- A word as a number strictly between 0 and 1. -/
def u32ToUnitF32 (word : UInt32) : Float32 :=
  ((word >>> 9).toFloat32 + 0.5) * (1.0 / 8388608.0)

example : philox4x32_10 ⟨0, 0, 0, 0⟩ (0, 0) = ⟨0x6627e8d5, 0xe169c58d, 0xbc57ac4c, 0x9b00dbd8⟩ := by
  decide

/-! ### The state of one sequence -/

/-- The state of the random numbers of a sequence. The id of the sequence is a word. -/
structure RngState where
  seed : UInt64
  seqId : UInt64
  seqWord : UInt32
  step : UInt64
  drawIndex : ℕ
  seqWord_eq : seqWord.toNat = seqId.toNat
  drawIndex_lt : drawIndex < 2 ^ 32

namespace RngState

variable {F : Type}

/-- A state with an explicit first draw. -/
def withDraw (seed seqId step : UInt64) (drawIndex : ℕ) (h : drawIndex < 2 ^ 32) :
    Except (T0Error F) RngState :=
  if hseq : seqId.toNat < 2 ^ 32 then
    .ok ⟨seed, seqId, seqId.toUInt32, step, drawIndex,
      by rw [UInt64.toNat_toUInt32, Nat.mod_eq_of_lt hseq], h⟩
  else .error (.seqIdOutOfRange "RngState::new" seqId.toNat (2 ^ 32 - 1))

/-- A state before its first draw. -/
def new (seed seqId step : UInt64) : Except (T0Error F) RngState :=
  withDraw seed seqId step 0 (by norm_num)

/-- The next step, before its first draw. -/
def setStep (rng : RngState) (step : UInt64) : RngState :=
  { rng with step, drawIndex := 0, drawIndex_lt := by norm_num }

def checkedAdvance (rng : RngState) (count : ℕ) (op : String) :
    Except (T0Error F) RngState :=
  if h : rng.drawIndex + count < 2 ^ 32 then
    .ok { rng with drawIndex := rng.drawIndex + count, drawIndex_lt := h }
  else .error (.drawIndexOverflow op rng.drawIndex count)

def advance (rng : RngState) (count : ℕ) : Except (T0Error F) RngState :=
  rng.checkedAdvance count "RngState::advance"

def ensureCanAdvance (rng : RngState) (count : ℕ) (op : String) : Except (T0Error F) Unit := do
  let _ ← rng.checkedAdvance count op
  pure ()

/-- The number at a draw. -/
def drawAt (rng : RngState) (draw : ℕ) : Float32 :=
  let key := (rng.seed.toUInt32, (rng.seed >>> 32).toUInt32)
  let ctr := ⟨UInt32.ofNat draw, rng.step.toUInt32, (rng.step >>> 32).toUInt32, rng.seqWord⟩
  u32ToUnitF32 (philox4x32_10 ctr key).w0

section Advance

variable {rng rng' : RngState} {count : ℕ} {op : String}

theorem checkedAdvance_eq_ok (h : rng.checkedAdvance count op = (.ok rng' : Except (T0Error F) _)) :
    rng'.drawIndex = rng.drawIndex + count ∧ rng'.seed = rng.seed ∧ rng'.seqWord = rng.seqWord ∧
      rng'.step = rng.step := by
  unfold checkedAdvance at h
  split at h
  · obtain rfl := Except.ok.inj h
    exact ⟨rfl, rfl, rfl, rfl⟩
  · cases h

theorem checkedAdvance_ok (op : String) (h : rng.drawIndex + count < 2 ^ 32) :
    ∃ rng', rng.checkedAdvance count op = (.ok rng' : Except (T0Error F) _) := by
  unfold checkedAdvance
  rw [dif_pos h]
  exact ⟨_, rfl⟩

theorem ensureCanAdvance_eq_ok {u : Unit} :
    rng.ensureCanAdvance count op = (.ok u : Except (T0Error F) _) ↔
      rng.drawIndex + count < 2 ^ 32 := by
  unfold ensureCanAdvance checkedAdvance
  split
  case isTrue h => exact iff_of_true rfl h
  case isFalse h => exact iff_of_false (by rintro ⟨⟩) h

end Advance

end RngState

/-- A state before its first draw. -/
def firstState : RngState where
  seed := 42
  seqId := 1
  seqWord := 1
  step := 0
  drawIndex := 0
  seqWord_eq := rfl
  drawIndex_lt := by norm_num

end R9v

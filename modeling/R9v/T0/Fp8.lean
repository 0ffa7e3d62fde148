import R9v.T0.Dtype

/-!
# Numbers of eight bits

The decoders and the encoders of `E4M3` and `E5M2` (`r9v-t0/src/dtype.rs`). A code is found by a
search through all of them. The finite codes are the patterns of a format with a sign (`Codes`), by
evaluation of the decoders.
-/

namespace R9v.Dtype

open Checked FloatFormat Format

/-! ### Decoding -/

/-- Four bits of exponent and three of mantissa. -/
def e4m3 : FloatFormat := ⟨3, 4⟩

/-- Five bits of exponent and two of mantissa. -/
def e5m2 : FloatFormat := ⟨2, 5⟩

/-- The sign of a code, as `1.0` or `-1.0`. -/
def signOf (b : UInt8) : F32 :=
  let s := b.toNat >>> 7 &&& 1
  if s ≠ 0 then ⟨0xBF800000⟩ else ⟨0x3F800000⟩

def fp8E4m3Decode (b : UInt8) : F32 :=
  let e := b.toNat >>> 3 &&& 0x0F
  let m := b.toNat &&& 0x07
  if e = 0 then ((signOf b).mul ((F32.ofInt m).div ⟨0x41000000⟩)).mul ⟨0x3C800000⟩
  else if e = 15 ∧ m = 7 then ⟨0x7FC00000⟩
  else
    let scale := F32.twoPowi (e - 7)
    ((signOf b).mul (F32.add ⟨0x3F800000⟩ ((F32.ofInt m).div ⟨0x41000000⟩))).mul scale

def fp8E5m2Decode (b : UInt8) : F32 :=
  let s := b.toNat >>> 7 &&& 1
  let e := b.toNat >>> 2 &&& 0x1F
  let m := b.toNat &&& 0x03
  if e = 0 then ((signOf b).mul ((F32.ofInt m).div ⟨0x40800000⟩)).mul (F32.twoPowi (-14))
  else if e = 31 then
    if m = 0 then if s ≠ 0 then ⟨0xFF800000⟩ else ⟨0x7F800000⟩
    else ⟨0x7FC00000⟩
  else
    let scale := F32.twoPowi (e - 15)
    ((signOf b).mul (F32.add ⟨0x3F800000⟩ ((F32.ofInt m).div ⟨0x40800000⟩))).mul scale

/-! ### Encoding -/

/-- A code is taken when it is nearer than the best one so far, or as near and even. -/
def searchStep (decode : UInt8 → F32) (skip : UInt8 → Bool) (v : F32) (best : UInt8 × F32) (c : ℕ) :
    UInt8 × F32 :=
  let b := c.toUInt8
  if skip b then best
  else
    let d := ((decode b).sub v).abs
    if d.lt best.2 ∨ d.eq best.2 ∧ b &&& 1 = 0 ∧ best.1 &&& 1 = 1 then (b, d) else best

/-- The nearest code; 0x7149F2CA is `1e30`. -/
def search (decode : UInt8 → F32) (skip : UInt8 → Bool) (v : F32) : UInt8 :=
  ((List.range 256).foldl (searchStep decode skip v) (0x00, ⟨0x7149F2CA⟩)).1

/-- Encodes a number: `limit` is the last finite value, `past` and `pastNeg` are the codes of what
is past it. -/
def fp8Encode (decode : UInt8 → F32) (skip : UInt8 → Bool) (limit : F32) (past pastNeg : UInt8)
    (v : F32) : UInt8 :=
  if v.isNan then 0x7F
  else
    let av := v.abs
    if limit.lt av then if v.lt ⟨0⟩ then pastNeg else past
    else if av.eq ⟨0⟩ then if v.isSignNegative then 0x80 else 0x00
    else search decode skip v

/-- 0x43E00000 is 448.0. -/
def fp8E4m3Encode : F32 → UInt8 :=
  fp8Encode fp8E4m3Decode (fun b => b = 0x7F ∨ b = 0xFF) ⟨0x43E00000⟩ 0x7E 0xFE

/-- 0x47600000 is 57344.0; the codes past it are those of infinity. -/
def fp8E5m2Encode : F32 → UInt8 :=
  fp8Encode fp8E5m2Decode (fun b => b &&& 0x7C = 0x7C ∧ b &&& 0x03 ≠ 0) ⟨0x47600000⟩ 0x7C 0xFC

/-! ### The codes -/

/-- The codes of a format: the finite ones up to `last`, with a sign, and the others, which are
skipped or infinite. -/
structure Codes (g : FloatFormat) (decode : UInt8 → F32) (skip : UInt8 → Bool) (last : ℕ) :
  Prop where
  last_lt : last < 128
  mant_le : g.mant ≤ 23
  minExp_lt : -149 < g.minExp
  finite : ∀ m ≤ last, ∀ s < 2, (decode (s * 128 + m).toUInt8).isFinite = true ∧
    (decode (s * 128 + m).toUInt8).value = (if s = 1 then -g.mag m else g.mag m) ∧
    skip (s * 128 + m).toUInt8 = false
  other : ∀ m < 128, last < m → ∀ s < 2, skip (s * 128 + m).toUInt8 = true ∨
    (decode (s * 128 + m).toUInt8).isInfinite = true

/-- What holds of all numbers of seven bits holds of them sixteen by sixteen. -/
theorem forall_of_blocks {p : ℕ → Prop} (h : ∀ c < 8, ∀ d < 16, p (16 * c + d)) : ∀ m < 128, p m := by
  intro m hm
  have := h (m / 16) (by omega) (m % 16) (by omega)
  rwa [Nat.div_add_mod] at this

/-- **The decoders of `E4M3`** agree. -/
theorem fp8E4m3Decode_eq : ∀ m ≤ 0x7E, ∀ s < 2,
    fp8E4m3Decode (s * 128 + m).toUInt8 = (E4m3.mk (s * 128 + m).toUInt8).toF32 := by
  have hblocks := forall_of_blocks (p := fun m => m ≤ 0x7E → ∀ s < 2,
      fp8E4m3Decode (s * 128 + m).toUInt8 = (E4m3.mk (s * 128 + m).toUInt8).toF32) fun c hc => by
    rcases c with _ | _ | _ | _ | _ | _ | _ | _ | c
    case succ => omega
    all_goals decide +kernel
  exact fun m hm => hblocks m (by omega) hm

theorem e4m3_codes : Codes e4m3 fp8E4m3Decode (fun b => b = 0x7F ∨ b = 0xFF) 0x7E where
  last_lt := by decide
  mant_le := by decide
  minExp_lt := by decide
  finite m hm s hs := by
    rw [fp8E4m3Decode_eq m hm s hs]
    revert m s
    decide +kernel
  other := by decide +kernel

theorem e5m2_codes :
    Codes e5m2 fp8E5m2Decode (fun b => b &&& 0x7C = 0x7C ∧ b &&& 0x03 ≠ 0) 0x7B where
  last_lt := by decide
  mant_le := by decide
  minExp_lt := by decide
  finite m hm := by
    have hblocks := forall_of_blocks (p := fun m => m ≤ 0x7B → ∀ s < 2,
        (fp8E5m2Decode (s * 128 + m).toUInt8).isFinite = true ∧
          (fp8E5m2Decode (s * 128 + m).toUInt8).value = (if s = 1 then -e5m2.mag m else e5m2.mag m) ∧
          ((s * 128 + m).toUInt8 &&& 0x7C = 0x7C ∧ (s * 128 + m).toUInt8 &&& 0x03 ≠ 0 : Bool) = false)
      fun c hc => by
        rcases c with _ | _ | _ | _ | _ | _ | _ | _ | c
        case succ => omega
        all_goals decide +kernel
    exact hblocks m (by omega) hm
  other := by decide +kernel

end R9v.Dtype

import R9v.Format.Layout

/-!
# Quantization schemes

The schemes of the values of a weight (`r9v-format/src/scheme.rs`) and what each of them takes: the
bytes of a scale record and the columns it is for (`geometry.rs`, `repack.rs`), the packing of its
values, and its bits per weight. The types of tensors that are repacked are in `ggml.rs`.
-/

namespace R9v.Format

open Checked

/-- The quantization schemes. -/
inductive SchemeId
  | i8R | i8B128 | i4K | e4m3B128
  | i8B32F | i4B32F | i4B32FM | i5B32F | i5B32FM | i5K | i6K | i3K | i2K
  | i4Nl | i4Xs | iq3Xxs | iq3S | iq2Xxs | iq2Xs | iq2S | iq1S | iq1M
  deriving DecidableEq

namespace SchemeId

/-- The schemes in the order of their codes. -/
def all : List SchemeId :=
  [i8R, i8B128, i4K, e4m3B128, i8B32F, i4B32F, i4B32FM, i5B32F, i5B32FM, i5K, i6K, i3K, i2K, i4Nl, i4Xs,
    iq3Xxs, iq3S, iq2Xxs, iq2Xs, iq2S, iq1S, iq1M]

def code : SchemeId → ℕ
  | i8R => 1
  | i8B128 => 2
  | i4K => 3
  | e4m3B128 => 4
  | i8B32F => 5
  | i4B32F => 6
  | i4B32FM => 7
  | i5B32F => 8
  | i5B32FM => 9
  | i5K => 10
  | i6K => 11
  | i3K => 12
  | i2K => 13
  | i4Nl => 14
  | i4Xs => 15
  | iq3Xxs => 16
  | iq3S => 17
  | iq2Xxs => 18
  | iq2Xs => 19
  | iq2S => 20
  | iq1S => 21
  | iq1M => 22

def fromCode (code : ℕ) : Except FormatError SchemeId :=
  okOr (all.find? (·.code = code)) (.unknownScheme (toString code))

def name : SchemeId → String
  | i8R => "i8_r"
  | i8B128 => "i8_b128"
  | i4K => "i4_k"
  | e4m3B128 => "e4m3_b128"
  | i8B32F => "i8_b32f"
  | i4B32F => "i4_b32f"
  | i4B32FM => "i4_b32fm"
  | i5B32F => "i5_b32f"
  | i5B32FM => "i5_b32fm"
  | i5K => "i5_k"
  | i6K => "i6_k"
  | i3K => "i3_k"
  | i2K => "i2_k"
  | i4Nl => "i4_nl"
  | i4Xs => "i4_xs"
  | iq3Xxs => "iq3_xxs"
  | iq3S => "iq3_s"
  | iq2Xxs => "iq2_xxs"
  | iq2Xs => "iq2_xs"
  | iq2S => "iq2_s"
  | iq1S => "iq1_s"
  | iq1M => "iq1_m"

/-- The schemes that are written by the quantizer. -/
def isNative : SchemeId → Bool
  | i8R | i8B128 | i4K | e4m3B128 => true
  | _ => false

def ownerCard : SchemeId → String
  | i8R | i8B128 | i4K | e4m3B128 => "A2.2"
  | i8B32F | i4B32F | i4B32FM | i5B32F | i5B32FM | i5K | i6K | i3K | i2K => "A2.3"
  | i4Nl | i4Xs | iq3Xxs | iq3S | iq2Xxs | iq2Xs | iq2S | iq1S | iq1M => "A2.4"

end SchemeId

inductive NativeScheme
  | i8R | i8B128 | i4K | e4m3B128
  deriving DecidableEq

def SchemeId.asNative : SchemeId → Except FormatError NativeScheme
  | .i8R => .ok .i8R
  | .i8B128 => .ok .i8B128
  | .i4K => .ok .i4K
  | .e4m3B128 => .ok .e4m3B128
  | scheme => .error (.reservedScheme scheme.name scheme.ownerCard)

/-! ### Scale records -/

def scaleRecordBytes (scheme : SchemeId) : Except FormatError ℕ := do
  match ← scheme.asNative with
  | .i8R | .i8B128 | .e4m3B128 => pure 2
  | .i4K => pure 16

/-- The columns that share a scale record, or none when they are all the columns. -/
def outerBlock (scheme : SchemeId) : Except FormatError (Option ℕ) := do
  match ← scheme.asNative with
  | .i8R => pure none
  | .i8B128 | .e4m3B128 => pure (some 128)
  | .i4K => pure (some 256)

def repackRecordBytes : SchemeId → Except FormatError ℕ
  | .i8R => scaleRecordBytes .i8R
  | .i8B128 => scaleRecordBytes .i8B128
  | .e4m3B128 => scaleRecordBytes .e4m3B128
  | .i4K => .ok 16
  | .i8B32F | .i4B32F | .i5B32F => .ok 2
  | .i4B32FM | .i5B32FM => .ok 4
  | .i5K => .ok 16
  | .i6K => .ok 18
  | .i3K => .ok 14
  | .i2K => .ok 20
  | .i4Nl | .iq2Xxs => .ok 2
  | .i4Xs => .ok 8
  | .iq3Xxs => .ok 34
  | .iq3S => .ok 46
  | .iq2Xs => .ok 10
  | .iq2S => .ok 50
  | .iq1S => .ok 18
  | .iq1M => .ok 24

def repackOuterBlock : SchemeId → Except FormatError (Option ℕ)
  | .i8R => outerBlock .i8R
  | .i8B128 => outerBlock .i8B128
  | .i4K => outerBlock .i4K
  | .e4m3B128 => outerBlock .e4m3B128
  | .i8B32F | .i4B32F | .i4B32FM | .i5B32F | .i5B32FM | .i4Nl => .ok (some 32)
  | .i5K | .i6K | .i3K | .i2K | .i4Xs | .iq3Xxs | .iq3S | .iq2Xxs | .iq2Xs | .iq2S | .iq1S | .iq1M =>
    .ok (some 256)

def repackPacking : SchemeId → Except FormatError Packing
  | .i8R | .i8B128 | .e4m3B128 | .i8B32F => .ok .byte
  | .i4K | .i4B32F | .i4B32FM | .i4Nl | .i4Xs => .ok .nibble4
  | .i5B32F | .i5B32FM | .i5K => Packing.checkedBitPlanes 5
  | .i6K => Packing.checkedBitPlanes 6
  | .i3K => Packing.checkedBitPlanes 3
  | .i2K => Packing.checkedBitPlanes 2
  | .iq3Xxs | .iq3S | .iq2Xxs | .iq2Xs | .iq2S | .iq1S | .iq1M => .ok .byte

/-! ### Bits per weight -/

/-- The bits of a row of blocks. -/
def blockBits (k block bits : ℕ) (reason what detail : String) : Except FormatError (ℕ × ℕ) := do
  ensure (¬(k = 0 ∨ k % block ≠ 0)) (.invalidBlock "k" k reason)
  let bits ← okOr (mul 64 (k / block) bits) (.overflow what detail)
  pure (bits, k)

def bitsPerWeight (scheme : SchemeId) (k : ℕ) : Except FormatError (ℕ × ℕ) := do
  match ← scheme.asNative with
  | .i8R =>
    ensure (k ≠ 0) (.invalidDim "k" 0 "must be at least 1")
    let bits ← okOr ((mul 64 k 8).bind (add 64 · 16)) (.overflow "i8_r bits_per_weight" s!"k={k}")
    pure (bits, k)
  | .i8B128 | .e4m3B128 =>
    blockBits k 128 1040 "must be a nonzero multiple of 128" "b128 bits_per_weight" s!"k={k}"
  | .i4K => blockBits k 256 1152 "must be a nonzero multiple of 256" "i4_k bits_per_weight" s!"k={k}"

section Repack

variable (scheme : SchemeId) (k : ℕ)

def repackBits32 (bits : ℕ) : Except FormatError (ℕ × ℕ) :=
  blockBits k 32 bits "must be a nonzero multiple of 32" "repack bits_per_weight"
    s!"scheme={scheme.name} k={k}"

def repackBits256 (bits : ℕ) : Except FormatError (ℕ × ℕ) :=
  blockBits k 256 bits "must be a nonzero multiple of 256" "repack bits_per_weight"
    s!"scheme={scheme.name} k={k}"

/-- The bits of a row of `k` weights, with those of their scales. -/
def repackBitsPerWeight : Except FormatError (ℕ × ℕ) :=
  match scheme with
  | .i8R | .i8B128 | .i4K | .e4m3B128 => bitsPerWeight scheme k
  | .i8B32F => repackBits32 scheme k 272
  | .i4B32F => repackBits32 scheme k 144
  | .i4B32FM => repackBits32 scheme k 160
  | .i5B32F => repackBits32 scheme k 176
  | .i5B32FM => repackBits32 scheme k 192
  | .i4Nl => repackBits32 scheme k 144
  | .i5K => repackBits256 scheme k 1408
  | .i6K => repackBits256 scheme k 1680
  | .i3K => repackBits256 scheme k 880
  | .i2K => repackBits256 scheme k 672
  | .i4Xs => repackBits256 scheme k 1088
  | .iq3Xxs => repackBits256 scheme k 784
  | .iq3S => repackBits256 scheme k 880
  | .iq2Xxs => repackBits256 scheme k 528
  | .iq2Xs => repackBits256 scheme k 592
  | .iq2S => repackBits256 scheme k 656
  | .iq1S => repackBits256 scheme k 400
  | .iq1M => repackBits256 scheme k 448

end Repack

/-! ### Types that are repacked -/

/-- The types of tensors that are repacked. -/
inductive GgmlType
  | f16 | q4_0 | q4_1 | q5_0 | q5_1 | q8_0 | q2_K | q3_K | q4_K | q5_K | q6_K
  | iq2_xxs | iq2_xs | iq3_xxs | iq1_s | iq4_nl | iq3_s | iq2_s | iq4_xs | iq1_m | bf16
  deriving DecidableEq

namespace GgmlType

/-- The scheme of a type, when it has one. -/
def scheme : GgmlType → Option SchemeId
  | q8_0 => some .i8B32F
  | q4_0 => some .i4B32F
  | q4_1 => some .i4B32FM
  | q5_0 => some .i5B32F
  | q5_1 => some .i5B32FM
  | q4_K => some .i4K
  | q5_K => some .i5K
  | q6_K => some .i6K
  | q3_K => some .i3K
  | q2_K => some .i2K
  | iq4_nl => some .i4Nl
  | iq4_xs => some .i4Xs
  | iq3_xxs => some .iq3Xxs
  | iq3_s => some .iq3S
  | iq2_xxs => some .iq2Xxs
  | iq2_xs => some .iq2Xs
  | iq2_s => some .iq2S
  | iq1_s => some .iq1S
  | iq1_m => some .iq1M
  | f16 | bf16 => none

/-- The values of a block. -/
def blockLen : GgmlType → ℕ
  | f16 | bf16 => 1
  | q4_0 | q4_1 | q5_0 | q5_1 | q8_0 | iq4_nl => 32
  | q2_K | q3_K | q4_K | q5_K | q6_K | iq4_xs | iq3_xxs | iq3_s | iq2_xxs | iq2_xs | iq2_s | iq1_s
  | iq1_m => 256

/-- The bytes of a block. -/
def blockBytes : GgmlType → ℕ
  | f16 | bf16 => 2
  | q4_0 => 18
  | q4_1 => 20
  | q5_0 => 22
  | q5_1 => 24
  | q8_0 => 34
  | q2_K => 84
  | q3_K => 110
  | q4_K => 144
  | q5_K => 176
  | q6_K => 210
  | iq2_xxs => 66
  | iq2_xs => 74
  | iq3_xxs => 98
  | iq1_s => 50
  | iq4_nl => 18
  | iq3_s => 110
  | iq2_s => 82
  | iq4_xs => 136
  | iq1_m => 56

end GgmlType

/-! ### Packed indices -/

inductive IqKind
  | iq4Nl | iq4Xs | iq3Xxs | iq3S | iq2Xxs | iq2Xs | iq2S | iq1S | iq1M
  deriving DecidableEq

def IqKind.name : IqKind → String
  | iq4Nl => "IQ4_NL"
  | iq4Xs => "IQ4_XS"
  | iq3Xxs => "IQ3_XXS"
  | iq3S => "IQ3_S"
  | iq2Xxs => "IQ2_XXS"
  | iq2Xs => "IQ2_XS"
  | iq2S => "IQ2_S"
  | iq1S => "IQ1_S"
  | iq1M => "IQ1_M"

/-- The weights of a packed index. -/
def indexGranularity : IqKind → ℕ
  | .iq4Nl | .iq4Xs => 1
  | .iq3Xxs | .iq3S | .iq2Xxs | .iq2Xs => 4
  | .iq2S | .iq1S | .iq1M => 8

def schemeIqKind : SchemeId → Option IqKind
  | .i4Nl => some .iq4Nl
  | .i4Xs => some .iq4Xs
  | .iq3Xxs => some .iq3Xxs
  | .iq3S => some .iq3S
  | .iq2Xxs => some .iq2Xxs
  | .iq2Xs => some .iq2Xs
  | .iq2S => some .iq2S
  | .iq1S => some .iq1S
  | .iq1M => some .iq1M
  | .i8R | .i8B128 | .i4K | .e4m3B128 | .i8B32F | .i4B32F | .i4B32FM | .i5B32F | .i5B32FM | .i5K | .i6K
  | .i3K | .i2K => none

end R9v.Format

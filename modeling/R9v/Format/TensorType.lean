import R9v.Format.Scheme

/-!
# Types of tensors

The types of the tensors of a container, by their codes, and the rows of its tensor table
(`r9v-format/src/container.rs`). A code without a meaning is kept, and so is a type of this
repository, which names a scheme.
-/

namespace R9v.Format

open Checked

/-- The types of tensors. -/
inductive TensorType
  | f32 | f16 | q4_0 | q4_1 | q5_0 | q5_1 | q8_0 | q8_1 | q2K | q3K | q4K | q5K | q6K | q8K
  | iq2Xxs | iq2Xs | iq3Xxs | iq1S | iq4Nl | iq3S | iq2S | iq4Xs | i8 | i16 | i32 | i64 | f64
  | iq1M | bf16 | tq1_0 | tq2_0 | mxfp4 | nvfp4 | q1_0
  /-- A type of this repository. -/
  | r9v (scheme : SchemeId)
  /-- A code without a meaning. -/
  | unknown (code : UInt32)
  deriving DecidableEq

def r9vTensorTypeBase : UInt32 := 1000

namespace TensorType

/-- The types that are not of this repository, by their codes. -/
def all : List TensorType :=
  [.f32, .f16, .q4_0, .q4_1, .q5_0, .q5_1, .q8_0, .q8_1, .q2K, .q3K, .q4K, .q5K, .q6K, .q8K,
    .iq2Xxs, .iq2Xs, .iq3Xxs, .iq1S, .iq4Nl, .iq3S, .iq2S, .iq4Xs, .i8, .i16, .i32, .i64, .f64,
    .iq1M, .bf16, .tq1_0, .tq2_0, .mxfp4, .nvfp4, .q1_0]

def code : TensorType → UInt32
  | f32 => 0
  | f16 => 1
  | q4_0 => 2
  | q4_1 => 3
  | q5_0 => 6
  | q5_1 => 7
  | q8_0 => 8
  | q8_1 => 9
  | q2K => 10
  | q3K => 11
  | q4K => 12
  | q5K => 13
  | q6K => 14
  | q8K => 15
  | iq2Xxs => 16
  | iq2Xs => 17
  | iq3Xxs => 18
  | iq1S => 19
  | iq4Nl => 20
  | iq3S => 21
  | iq2S => 22
  | iq4Xs => 23
  | i8 => 24
  | i16 => 25
  | i32 => 26
  | i64 => 27
  | f64 => 28
  | iq1M => 29
  | bf16 => 30
  | tq1_0 => 34
  | tq2_0 => 35
  | mxfp4 => 39
  | nvfp4 => 40
  | q1_0 => 41
  | r9v scheme => r9vTensorTypeBase + scheme.code.toUInt32
  | unknown code => code

/-- The type of a code above those of the other types, if it is that of a scheme. -/
def r9vFromCode (code : UInt32) : Option TensorType :=
  if code ≤ r9vTensorTypeBase then none
  else ((SchemeId.fromCode (code - r9vTensorTypeBase).toNat).toOption).map r9v

def fromCode (code : UInt32) : TensorType :=
  match all.find? (·.code = code) with
  | some t => t
  | none => (r9vFromCode code).getD (unknown code)

def name : TensorType → String
  | f32 => "F32"
  | f16 => "F16"
  | q4_0 => "Q4_0"
  | q4_1 => "Q4_1"
  | q5_0 => "Q5_0"
  | q5_1 => "Q5_1"
  | q8_0 => "Q8_0"
  | q8_1 => "Q8_1"
  | q2K => "Q2_K"
  | q3K => "Q3_K"
  | q4K => "Q4_K"
  | q5K => "Q5_K"
  | q6K => "Q6_K"
  | q8K => "Q8_K"
  | iq2Xxs => "IQ2_XXS"
  | iq2Xs => "IQ2_XS"
  | iq3Xxs => "IQ3_XXS"
  | iq1S => "IQ1_S"
  | iq4Nl => "IQ4_NL"
  | iq3S => "IQ3_S"
  | iq2S => "IQ2_S"
  | iq4Xs => "IQ4_XS"
  | i8 => "I8"
  | i16 => "I16"
  | i32 => "I32"
  | i64 => "I64"
  | f64 => "F64"
  | iq1M => "IQ1_M"
  | bf16 => "BF16"
  | tq1_0 => "TQ1_0"
  | tq2_0 => "TQ2_0"
  | mxfp4 => "MXFP4"
  | nvfp4 => "NVFP4"
  | q1_0 => "Q1_0"
  | r9v scheme => "R9V_" ++ scheme.name
  | unknown code => s!"UNKNOWN_{code}"

/-- The length and the bytes of a block on the wire. -/
def quantSize : TensorType → Option (ℕ × ℕ)
  | f32 => some (1, 4)
  | f16 => some (1, 2)
  | q4_0 => some (32, 18)
  | q4_1 => some (32, 20)
  | q5_0 => some (32, 22)
  | q5_1 => some (32, 24)
  | q8_0 => some (32, 34)
  | q8_1 => some (32, 40)
  | q2K => some (256, 84)
  | q3K => some (256, 110)
  | q4K => some (256, 144)
  | q5K => some (256, 176)
  | q6K => some (256, 210)
  | q8K => some (256, 292)
  | iq2Xxs => some (256, 66)
  | iq2Xs => some (256, 74)
  | iq3Xxs => some (256, 98)
  | iq1S => some (256, 50)
  | iq4Nl => some (32, 18)
  | iq3S => some (256, 110)
  | iq2S => some (256, 82)
  | iq4Xs => some (256, 136)
  | i8 => some (1, 1)
  | i16 => some (1, 2)
  | i32 => some (1, 4)
  | i64 => some (1, 8)
  | f64 => some (1, 8)
  | iq1M => some (256, 56)
  | bf16 => some (1, 2)
  | tq1_0 => some (256, 54)
  | tq2_0 => some (256, 66)
  | mxfp4 => some (32, 17)
  | nvfp4 => some (64, 36)
  | q1_0 => some (128, 18)
  | r9v _ | unknown _ => none

end TensorType

/-- The product of dimensions, unless it overflows. -/
def checkedProd (dims : List UInt64) : Option ℕ := dims.foldlM (fun prod d => mul 64 prod d.toNat) 1

/-- The bytes of a tensor on the wire, by its dimensions in the order of the file. -/
def TensorType.dataNbytes (t : TensorType) (dims : List UInt64) : Option ℕ := do
  let (blockLen, blockBytes) ← t.quantSize
  guard (dims ≠ [])
  guard (0 ∉ dims)
  guard (blockLen ≠ 0 ∧ (dims.headD 0).toNat % blockLen = 0)
  let elems ← checkedProd dims
  mul 64 (elems / blockLen) blockBytes

/-- A row of the table of tensors. The dimensions are in the order of the file, the innermost one
first. -/
structure TensorInfo where
  name : Str
  dims : List UInt64
  dtype : TensorType
  offset : UInt64
  deriving DecidableEq

/-- The dimensions, the outermost one first. -/
def TensorInfo.shape (info : TensorInfo) : List UInt64 := info.dims.reverse

def TensorInfo.nElems (info : TensorInfo) : Option ℕ := checkedProd info.dims

end R9v.Format

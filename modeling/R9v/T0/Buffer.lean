import R9v.Ir.Graph
import R9v.T0.Sampling
import Mathlib.Algebra.BigOperators.Group.List.Basic

/-!
# Tensors with values

The buffers that hold the tensors of a step (`r9v-t0/src/buffer.rs`): a shape, and the
elements as numbers of one type, or as the bytes of another. A buffer carries that it has
all its elements. How a number of another type is read as a number of the device is a
parameter (`Numeric`).
-/

namespace R9v

open Checked

/-! ### Numbers of other types -/

/-- How numbers of other types are read and written (`r9v-t0/src/dtype.rs`). -/
class Numeric (F : Type) extends Scalar F where
  ofBits : UInt32 → F
  ofInt : ℤ → F
  f16ToF32 : UInt16 → F
  bf16ToF32 : UInt16 → F
  fp8E4m3Decode : UInt8 → F
  fp8E5m2Decode : UInt8 → F
  f32ToF16 : F → UInt16
  f32ToBf16 : F → UInt16
  /-- The word a number is cut to, or the first or the last one. -/
  asU32 : F → UInt32

/-- Half precision, rounded to the nearest even. -/
def f32ToF16 (x : Float32) : UInt16 :=
  let u := x.toBits
  let sign := ((u >>> 31) &&& 1).toUInt16
  let exp : ℤ := ((u >>> 23) &&& 0xFF).toNat
  let mant := u &&& 0x7FFFFF
  if exp = 0xFF then
    if mant ≠ 0 then (sign <<< 15) ||| (0x7E00 : UInt16) ||| max (mant >>> 13).toUInt16 1
    else (sign <<< 15) ||| (0x7C00 : UInt16)
  else if exp = 0 then sign <<< 15
  else
    let newExp := exp - 127 + 15
    if 31 ≤ newExp then (sign <<< 15) ||| (0x7C00 : UInt16)
    else if newExp ≤ 0 then
      if newExp < -10 then sign <<< 15
      else
        let shift := UInt32.ofNat (14 - newExp).toNat
        let full := mant ||| 0x800000
        let rounded := full + (1 <<< (shift - 1)) - 1 + ((full >>> shift) &&& 1)
        (sign <<< 15) ||| (rounded >>> shift).toUInt16
    else
      let rounded := mant + ((0x0FFF : UInt32) + ((mant >>> 13) &&& 1))
      if 0x800000 ≤ rounded then
        if 31 ≤ newExp + 1 then (sign <<< 15) ||| (0x7C00 : UInt16)
        else (sign <<< 15) ||| (UInt16.ofNat (newExp + 1).toNat <<< 10)
      else (sign <<< 15) ||| (UInt16.ofNat newExp.toNat <<< 10) ||| (rounded >>> 13).toUInt16

def f16ToF32 (bits : UInt16) : Float32 :=
  let sign := ((bits >>> 15) &&& 1).toUInt32
  let exp := ((bits >>> 10) &&& 0x1F).toUInt32
  let mant := (bits &&& 0x03FF).toUInt32
  if exp = 0x1F then
    if mant = 0 then .ofBits ((sign <<< 31) ||| (0x7F800000 : UInt32))
    else .ofBits ((sign <<< 31) ||| (0x7FC00000 : UInt32) ||| (mant <<< 13))
  else if exp = 0 then
    if mant = 0 then .ofBits (sign <<< 31)
    else
      -- a subnormal number is shifted until its leading bit is the hidden one
      let shift := UInt32.ofNat (10 - Nat.log2 mant.toNat)
      .ofBits ((sign <<< 31) ||| ((113 - shift) <<< 23) ||| (((mant <<< shift) &&& 0x03FF) <<< 13))
  else .ofBits ((sign <<< 31) ||| ((exp + 112) <<< 23) ||| (mant <<< 13))

def f32ToBf16 (x : Float32) : UInt16 :=
  let u := x.toBits
  if x.isNaN then ((u >>> 16) ||| 0x0040).toUInt16
  else ((u + ((0x7FFF : UInt32) + ((u >>> 16) &&& 1))) >>> 16).toUInt16

def bf16ToF32 (bits : UInt16) : Float32 := .ofBits (bits.toUInt32 <<< 16)

def fp8E4m3Decode (b : UInt8) : Float32 :=
  let e := (b >>> 3) &&& 0x0F
  let m := b &&& 0x07
  let sign : Float32 := if (b >>> 7) &&& 1 ≠ 0 then -1 else 1
  if e = 0 then sign * (.ofNat m.toNat / 8) * 0.015625
  else if e = 15 ∧ m = 7 then .ofBits 0x7FC00000
  else sign * (1 + .ofNat m.toNat / 8) * Float32.scaleB 1 (e.toNat - 7)

def fp8E5m2Decode (b : UInt8) : Float32 :=
  let s := (b >>> 7) &&& 1
  let e := (b >>> 2) &&& 0x1F
  let m := b &&& 0x03
  let sign : Float32 := if s ≠ 0 then -1 else 1
  if e = 0 then sign * (.ofNat m.toNat / 4) * Float32.scaleB 1 (-14)
  else if e = 31 then
    if m = 0 then .ofBits (if s ≠ 0 then 0xFF800000 else 0x7F800000) else .ofBits 0x7FC00000
  else sign * (1 + .ofNat m.toNat / 4) * Float32.scaleB 1 (e.toNat - 15)

instance : Numeric Float32 where
  ofBits := Float32.ofBits
  ofInt := Float32.ofInt
  f16ToF32 := R9v.f16ToF32
  bf16ToF32 := R9v.bf16ToF32
  fp8E4m3Decode := R9v.fp8E4m3Decode
  fp8E5m2Decode := R9v.fp8E5m2Decode
  f32ToF16 := R9v.f32ToF16
  f32ToBf16 := R9v.f32ToBf16
  asU32 := Float32.toUInt32

/-- The bytes of a little-endian word. -/
def wordAt (bytes : List UInt8) (offset count : ℕ) : ℕ :=
  (List.range count).foldr (fun i w => (bytes.getD (offset + i) 0).toNat + 256 * w) 0

/-- Reads an element of a tensor of bytes. -/
def readF32At {F : Type} [Numeric F] (dtype : DType) (bytes : List UInt8) (i : ℕ) : F :=
  match dtype with
  | .f32 => Numeric.ofBits (UInt32.ofNat (wordAt bytes (i * 4) 4))
  | .f16 => Numeric.f16ToF32 (UInt16.ofNat (wordAt bytes (i * 2) 2))
  | .bf16 => Numeric.bf16ToF32 (UInt16.ofNat (wordAt bytes (i * 2) 2))
  | .e4m3 => Numeric.fp8E4m3Decode (bytes.getD i 0)
  | .e5m2 => Numeric.fp8E5m2Decode (bytes.getD i 0)
  | .i8 => Numeric.ofInt (bytes.getD i 0).toInt8.toInt
  | .i32 => Numeric.ofInt (Int32.ofNat (wordAt bytes (i * 4) 4)).toInt
  | .u32 => Numeric.ofInt (wordAt bytes (i * 4) 4)
  | .bool => if bytes.getD i 0 ≠ 0 then 1 else 0
  | .i4 =>
    let byte := bytes.getD (i / 2) 0
    let nibble := if i % 2 = 0 then byte &&& 0x0F else (byte >>> 4) &&& 0x0F
    Numeric.ofInt (if 8 ≤ nibble then (nibble.toNat : ℤ) - 16 else nibble.toNat)

/-! ### Buffers -/

inductive TensorData (F : Type)
  | f32 (data : List F)
  | f16 (data : List UInt16)
  | bf16 (data : List UInt16)
  | i8 (data : List Int8)
  | u32 (data : List UInt32)
  | bytes (dtype : DType) (data : List UInt8)

/-- How many bytes an element takes. -/
def DType.elementSize : DType → ℕ
  | .f32 | .i32 | .u32 => 4
  | .f16 | .bf16 => 2
  | .e4m3 | .e5m2 | .i8 | .bool | .i4 => 1

/-- How many bytes some elements take: two elements of four bits share a byte. -/
def DType.bytesFor (dtype : DType) (n : ℕ) : ℕ :=
  if dtype = .i4 then n / 2 + n % 2 else n * dtype.elementSize

namespace TensorData

variable {F : Type}

def dtype : TensorData F → DType
  | .f32 _ => .f32
  | .f16 _ => .f16
  | .bf16 _ => .bf16
  | .i8 _ => .i8
  | .u32 _ => .u32
  | .bytes dtype _ => dtype

/-- Whether there are `n` elements. -/
def Holds (n : ℕ) : TensorData F → Prop
  | .f32 data => data.length = n
  | .f16 data | .bf16 data => data.length = n
  | .i8 data => data.length = n
  | .u32 data => data.length = n
  | .bytes dtype data => dtype.bytesFor n ≤ data.length

/-- The zeros of a type. -/
def zeros [Zero F] (dtype : DType) (n : ℕ) : TensorData F :=
  match dtype with
  | .f32 => .f32 (List.replicate n 0)
  | .f16 => .f16 (List.replicate n 0)
  | .bf16 => .bf16 (List.replicate n 0)
  | .i8 => .i8 (List.replicate n 0)
  | .u32 => .u32 (List.replicate n 0)
  | .e4m3 => .bytes .e4m3 (List.replicate n 0)
  | .e5m2 => .bytes .e5m2 (List.replicate n 0)
  | .bool => .bytes .bool (List.replicate n 0)
  | .i4 => .bytes .i4 (List.replicate ((n + 1) / 2) 0)
  | .i32 => .bytes .i32 (List.replicate (n * 4) 0)

theorem holds_zeros [Zero F] (dtype : DType) (n : ℕ) : (zeros dtype n : TensorData F).Holds n := by
  cases dtype
  all_goals simp [zeros, Holds, DType.bytesFor, DType.elementSize]
  omega

/-- Reads an element. -/
def read [Numeric F] (data : TensorData F) (i : ℕ) : F :=
  match data with
  | .f32 data => data.getD i 0
  | .f16 data => Numeric.f16ToF32 (data.getD i 0)
  | .bf16 data => Numeric.bf16ToF32 (data.getD i 0)
  | .i8 data => Numeric.ofInt (data.getD i 0).toInt
  | .u32 data => Numeric.ofInt (data.getD i 0).toNat
  | .bytes dtype data => readF32At dtype data i

end TensorData

/-- A tensor with all its elements. -/
structure TypedBuffer (F : Type) where
  shape : List ℕ
  data : TensorData F
  quant : QuantScheme
  layout : LayoutId
  holds : data.Holds shape.prod

namespace TypedBuffer

variable {F : Type}

def numElements (b : TypedBuffer F) : ℕ := b.shape.prod

def rank (b : TypedBuffer F) : ℕ := b.shape.length

def dtype (b : TypedBuffer F) : DType := b.data.dtype

/-- The zeros of a shape. -/
def zeros [Zero F] (shape : List ℕ) (dtype : DType) : TypedBuffer F where
  shape := shape
  data := .zeros dtype shape.prod
  quant := .none
  layout := .contiguous
  holds := TensorData.holds_zeros _ _

/-- The bytes of the zeros of a shape, if they can be counted. -/
def byteLen (dtype : DType) (n : ℕ) : Option ℕ :=
  match dtype with
  | .f32 | .u32 | .i32 => mul 64 n 4
  | .f16 | .bf16 => mul 64 n 2
  | .i4 => (add 64 n 1).map (· / 2)
  | .i8 | .e4m3 | .e5m2 | .bool => some n

/-- The product of a shape, if it can be counted. -/
def elements (shape : List ℕ) : Option ℕ := shape.foldlM (fun n d => mul 64 n d) 1

def withQuant (b : TypedBuffer F) (quant : QuantScheme) : TypedBuffer F :=
  ⟨b.shape, b.data, quant, b.layout, b.holds⟩

def withLayout (b : TypedBuffer F) (layout : LayoutId) : TypedBuffer F :=
  ⟨b.shape, b.data, b.quant, layout, b.holds⟩

/-- The same elements under another shape. -/
def copyWithShape (b : TypedBuffer F) (shape : List ℕ) : Option (TypedBuffer F) :=
  if h : b.numElements = shape.prod then some ⟨shape, b.data, b.quant, b.layout, h ▸ b.holds⟩
  else none

/-- The numbers of a tensor. -/
def f32s [Numeric F] (b : TypedBuffer F) : List F :=
  match b.data with
  | .f32 data => data
  | data => (List.range b.numElements).map data.read

/-- The words of a tensor. -/
def u32s [Numeric F] (b : TypedBuffer F) : List UInt32 :=
  match b.data with
  | .u32 data => data
  | data => (List.range b.numElements).map fun i => Numeric.asU32 (data.read i)

/-- Words as a tensor. -/
def ofU32 (shape : List ℕ) (values : List UInt32) (h : values.length = shape.prod) :
    TypedBuffer F :=
  ⟨shape, .u32 values, .none, .contiguous, h⟩

end TypedBuffer

/-- A tensor as an operand, with its scales if they are kept apart. -/
structure TensorView (F : Type) where
  buffer : TypedBuffer F
  scale : Option (TypedBuffer F)

/-- The errors of convolutions and scans. -/
inductive ScanError (F : Type)
  | bufferLengthMismatch (tensor : String) (shape : List ℕ)
  | rankMismatch (tensor : String) (expected got : ℕ) (shape : List ℕ)
  | layoutMismatch (tensor : String) (got : LayoutId)
  | dtypeMismatch (tensor : String) (expected : List DType) (got : DType)
  | quantMismatch (tensor : String) (got : QuantScheme)
  | invalidAttribute (op field reason : String)
  | invalidHandle (op : String) (got : StateKind)
  | invalidOutDtype (op : String) (got : DType)
  | nonFiniteGate (tensor : String) (row head : ℕ) (value : F)
  | dimensionMismatch (dimName expectedFrom : String) (expected : ℕ) (tensor : String) (got : ℕ)
  | emptyInput (op tensor : String)
  | arithmeticOverflow (op detail : String)
  | multiple (problems : List (ScanError F))

/-- No failure is no error, one failure is that error, and several are reported together. -/
def ScanError.fromProblems {F : Type} : List (ScanError F) → Except (ScanError F) Unit
  | [] => .ok ()
  | [e] => .error e
  | problems => .error (.multiple problems)

/-- The errors of the executor. The errors of sampling are those of `T0Error`, and the errors of
scans those of `ScanError`; the others of the operations have the names they have in the
source. -/
inductive ExecError (F : Type)
  | t0 (e : T0Error F)
  | scan (e : ScanError F)
  | ir (e : GraphError)
  | invalidAttribute (op field reason : String)
  | dimensionMismatch (dimName expectedFrom : String) (expected : ℕ) (tensor : String) (got : ℕ)
  | arithmeticOverflow (op detail : String)
  | unboundEdge (node edge : ℕ)
  | symbolicDim (node edge : ℕ) (symbol : ShapeSymbol)
  | samplingContext (node : ℕ) (op what : String) (expected got s : ℕ)
  | nonContiguousView (node edge sourceEdge : ℕ)

end R9v

import R9v.Lib.Digits
import R9v.Lib.Reader
import R9v.Format.TensorType

/-!
# Reading and writing fields

The checked cursor over the bytes of a container, and the functions that write what it reads
(`Cursor`, `encode_value` and `encode_str` of `r9v-format/src/container.rs`).
-/

namespace R9v

/-! ### Types of values -/

namespace KvType

/-- The types in the order of their codes. -/
def all : List KvType :=
  [.u8, .i8, .u16, .i16, .u32, .i32, .f32, .bool, .str, .array, .u64, .i64, .f64]

def code : KvType → UInt32
  | u8 => 0
  | i8 => 1
  | u16 => 2
  | i16 => 3
  | u32 => 4
  | i32 => 5
  | f32 => 6
  | bool => 7
  | str => 8
  | array => 9
  | u64 => 10
  | i64 => 11
  | f64 => 12

end KvType

namespace Format

open Checked

def kvTypeFromCode (code : UInt32) (offset : ℕ) : Except FormatError KvType :=
  okOr (KvType.all.find? (·.code = code)) (.malformed offset (.unknownKvType code))

/-! ### Words -/

/-- The number that bytes make up, the lowest one first. -/
def leValue (raw : Bytes) : ℕ := Nat.ofDigits 256 (raw.map UInt8.toNat)

/-- The lowest bytes of a number, the lowest one first. -/
def leBytes (n x : ℕ) : Bytes := (Digits.split 256 n x).map Nat.toUInt8

/-- A part of a byte slice. -/
def sliceBytes {ε : Type} (b : Bytes) (start stop : ℕ) : Except (Fault ε) Bytes :=
  if start ≤ stop ∧ stop ≤ b.length then .ok ((b.drop start).take (stop - start))
  else .error .panic

/-! ### The cursor -/

/-- A reader of the bytes of a container. -/
abbrev Cursor (α : Type) := Reader UInt8 (Fault FormatError) α

namespace Cursor

/-- Fails with an error. -/
def throw {α : Type} (e : FormatError) : Cursor α := Reader.fail (.err e)

def take (len : ℕ) (what : String) : Cursor Bytes := fun b pos => do
  let remaining ← subOrPanic b.length pos
  if remaining < len then .error (.err (.truncated pos len what))
  else
    let raw ← sliceBytes b pos (pos + len)
    pure (raw, pos + len)

def readU8 (what : String) : Cursor UInt8 := do
  let raw ← take 1 what
  pure (UInt8.ofNat (leValue raw))

def readU16 (what : String) : Cursor UInt16 := do
  let raw ← take 2 what
  pure (UInt16.ofNat (leValue raw))

def readU32 (what : String) : Cursor UInt32 := do
  let raw ← take 4 what
  pure (UInt32.ofNat (leValue raw))

def readU64 (what : String) : Cursor UInt64 := do
  let raw ← take 8 what
  pure (UInt64.ofNat (leValue raw))

def readBool (what : String) : Cursor Bool := do
  let offset ← Reader.pos
  let v ← readU8 what
  if v = 0 then pure false
  else if v = 1 then pure true
  else throw (.malformed offset (.boolValue v))

def readStr (what : String) : Cursor Str := do
  let offset ← Reader.pos
  let len ← readU64 "string length"
  let raw ← take len.toNat what
  if h : Utf8.Valid raw then pure ⟨raw, h⟩
  else throw (.malformed offset (.invalidUtf8 what raw))

def readScalar : KvType → Cursor KvValue
  | .u8 => do return .u8 (← readU8 "u8 value")
  | .i8 => do return .i8 (← readU8 "i8 value").toInt8
  | .u16 => do return .u16 (← readU16 "u16 value")
  | .i16 => do return .i16 (← readU16 "i16 value").toInt16
  | .u32 => do return .u32 (← readU32 "u32 value")
  | .i32 => do return .i32 (← readU32 "i32 value").toInt32
  | .f32 => do return .f32 (← readU32 "f32 value")
  | .bool => do return .bool (← readBool "bool value")
  | .str => do return .str (← readStr "string value")
  | .u64 => do return .u64 (← readU64 "u64 value")
  | .i64 => do return .i64 (← readU64 "i64 value").toInt64
  | .f64 => do return .f64 (← readU64 "f64 value")
  | .array => do
    let offset ← Reader.pos
    throw (.malformed offset .nestedArray)

/-- The type of a value, by its code. -/
def readType (what : String) : Cursor KvType := do
  let offset ← Reader.pos
  let code ← readU32 what
  Reader.ofExcept (lift (kvTypeFromCode code offset))

def readValue : KvType → Cursor KvValue
  | .array => do
    let elem ← readType "array element type"
    let len ← readU64 "array length"
    let items ← Reader.many (readScalar elem) len.toNat
    pure (.array elem items)
  | ty => readScalar ty

/-- An entry of the metadata. -/
def readEntry : Cursor KvEntry := do
  let key ← readStr "metadata key"
  let ty ← readType "metadata type"
  let value ← readValue ty
  pure ⟨key, value⟩

/-- A row of the table of tensors. -/
def readTensor : Cursor TensorInfo := do
  let name ← readStr "tensor name"
  let nDims ← readU32 "tensor dimension count"
  let dims ← Reader.many (readU64 "tensor dimension") nDims.toNat
  let dtype ← readU32 "tensor type"
  let offset ← readU64 "tensor offset"
  pure ⟨name, dims, .fromCode dtype, offset⟩

end Cursor

/-! ### Encoding -/

def encodeStr (s : Str) : Bytes := leBytes 8 s.bytes.length ++ s.bytes

mutual

def encodeValue : KvValue → Bytes
  | .u8 v => [v]
  | .i8 v => [v.toUInt8]
  | .u16 v => leBytes 2 v.toNat
  | .i16 v => leBytes 2 v.toUInt16.toNat
  | .u32 v => leBytes 4 v.toNat
  | .i32 v => leBytes 4 v.toUInt32.toNat
  | .f32 bits => leBytes 4 bits.toNat
  | .bool v => [if v then 1 else 0]
  | .str s => leBytes 8 s.bytes.length ++ s.bytes
  | .array elem items =>
    leBytes 4 elem.code.toNat ++ leBytes 8 items.length ++ encodeItems items
  | .u64 v => leBytes 8 v.toNat
  | .i64 v => leBytes 8 v.toUInt64.toNat
  | .f64 bits => leBytes 8 bits.toNat

def encodeItems : List KvValue → Bytes
  | [] => []
  | item :: items => encodeValue item ++ encodeItems items

end

/-- The bytes of an entry of the metadata. -/
def encodeEntry (kv : KvEntry) : Bytes :=
  encodeStr kv.key ++ leBytes 4 kv.value.kvType.code.toNat ++ encodeValue kv.value

/-- The bytes of a row of the table of tensors. -/
def encodeTensor (info : TensorInfo) : Bytes :=
  encodeStr info.name ++ leBytes 4 info.dims.length ++
    info.dims.flatMap (fun d => leBytes 8 d.toNat) ++ leBytes 4 info.dtype.code.toNat ++
    leBytes 8 info.offset.toNat

end Format

end R9v

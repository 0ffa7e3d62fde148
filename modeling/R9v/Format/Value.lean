import R9v.Lib.Utf8Scan

/-!
# Metadata values

The values of the metadata of a GGUF file (`r9v-format/src/container.rs`). A float is its
bits, and a string is the list of its bytes, which is well-formed UTF-8.
-/

namespace R9v

/-- Bytes, of a file or of a text. -/
abbrev Bytes := List UInt8

/-- The bytes of a text that is written out. -/
def utf8 (s : String) : Bytes := s.toUTF8.data.toList

/-- A string: bytes that are well-formed UTF-8. -/
structure Str where
  bytes : Bytes
  valid : Utf8.Valid bytes
  deriving DecidableEq

theorem Str.ext_bytes {s t : Str} (h : s.bytes = t.bytes) : s = t := by
  obtain ⟨_, _⟩ := t
  cases h
  rfl

/-- The types of metadata values. -/
inductive KvType
  | u8
  | i8
  | u16
  | i16
  | u32
  | i32
  | f32
  | bool
  | str
  | array
  | u64
  | i64
  | f64
  deriving DecidableEq

/-- The name of a type. -/
def KvType.name : KvType → String
  | .u8 => "UINT8"
  | .i8 => "INT8"
  | .u16 => "UINT16"
  | .i16 => "INT16"
  | .u32 => "UINT32"
  | .i32 => "INT32"
  | .f32 => "FLOAT32"
  | .bool => "BOOL"
  | .str => "STRING"
  | .array => "ARRAY"
  | .u64 => "UINT64"
  | .i64 => "INT64"
  | .f64 => "FLOAT64"

/-- A metadata value. -/
inductive KvValue
  | u8 (v : UInt8)
  | i8 (v : Int8)
  | u16 (v : UInt16)
  | i16 (v : Int16)
  | u32 (v : UInt32)
  | i32 (v : Int32)
  | f32 (bits : UInt32)
  | bool (v : Bool)
  | str (s : Str)
  | array (elem : KvType) (items : List KvValue)
  | u64 (v : UInt64)
  | i64 (v : Int64)
  | f64 (bits : UInt64)

/-- The type of a value. -/
def KvValue.kvType : KvValue → KvType
  | .u8 _ => .u8
  | .i8 _ => .i8
  | .u16 _ => .u16
  | .i16 _ => .i16
  | .u32 _ => .u32
  | .i32 _ => .i32
  | .f32 _ => .f32
  | .bool _ => .bool
  | .str _ => .str
  | .array .. => .array
  | .u64 _ => .u64
  | .i64 _ => .i64
  | .f64 _ => .f64

/-- A key and its value. -/
structure KvEntry where
  key : Str
  value : KvValue

/-- The value of a key in a metadata table: of its first entry. -/
def lookupKv (kvs : List KvEntry) (key : Bytes) : Option KvValue :=
  (kvs.find? (·.key.bytes = key)).map (·.value)

end R9v

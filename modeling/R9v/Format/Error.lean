import R9v.Lib.Checked
import R9v.Format.Value

/-!
# Format errors

The errors of layouts and containers (`r9v-format/src/error.rs`). The texts that say what is
malformed are kept with what they are made of.
-/

namespace R9v.Format

/-- The roles of a tensor. -/
inductive Role
  | matmul
  | embed
  | lmHead
  | ngramTable
  | vector
  deriving DecidableEq

/-- What is malformed in a container. -/
inductive Detail
  /-- unknown GGUF metadata type code {code} -/
  | unknownKvType (code : UInt32)
  /-- BOOL value {v} is not 0 or 1 -/
  | boolValue (v : UInt8)
  /-- invalid UTF-8 in {what} -/
  | invalidUtf8 (what : String) (raw : Bytes)
  /-- nested arrays are not valid GGUF metadata -/
  | nestedArray
  /-- split.count must be >= 1 -/
  | splitCount
  /-- split.no {no} must be < split.count {count} -/
  | splitNo (no count : UInt16)
  /-- split.tensors.count {count} must be >= 0 -/
  | splitTensorsCount (count : Int32)
  /-- single-shard split.no is {no}, expected 0 -/
  | singleShard (no : UInt16)
  /-- split.tensors.count is {count}, expected {tensors} -/
  | splitTensors (count : Int32) (tensors : ℕ)
  /-- shard tensor count {tensors} exceeds total split.tensors.count {count} -/
  | shardTensors (tensors : ℕ) (count : Int32)
  /-- logical file size {size} is smaller than data section start {start} -/
  | fileSize (size start : ℕ)
  /-- tensor {name} has zero dimensions -/
  | noDims (name : Bytes)
  /-- tensor {name} has zero dimension in {dims} -/
  | zeroDim (name : Bytes) (dims : List UInt64)
  /-- tensor {name} sparse value {value}: expected none or s24 -/
  | sparseValue (name value : Bytes)
  /-- 1D vector {name} cannot be sparse -/
  | sparseVector (name : Bytes)
  /-- 1D tensor {name} has non-vector role {roles} -/
  | vectorRole (name : Bytes) (roles : List Role)
  /-- sparse tensor {name} has non-matmul role {roles} -/
  | sparseRole (name : Bytes) (roles : List Role)
  /-- unquantized tensor {name} ({dtype}) cannot declare a quantization scheme -/
  | unquantizedScheme (name : Bytes) (dtype : String)
  /-- unquantized tensor {name} cannot be sparse -/
  | unquantizedSparse (name : Bytes)
  /-- native F32 tensor {name} must be 1D (got {rank} dims) -/
  | f32Rank (name : Bytes) (rank : ℕ)
  /-- native F32 tensor {name} declared roles {roles}, expected explicitly [vector] -/
  | f32Roles (name : Bytes) (roles : List Role)
  /-- native F32 tensor {name} is missing required explicit role [vector] -/
  | f32Role (name : Bytes)
  /-- native container contains unsupported tensor type {dtype} for tensor {name} -/
  | unsupportedType (dtype : String) (name : Bytes)
  /-- tensor {name} ({dtype}): innermost dimension {dim} is not a multiple of block length {block} -/
  | blockMultiple (name : Bytes) (dtype : String) (dim : UInt64) (block : ℕ)
  /-- tensor {name} ({dtype}): {elems} element(s) are not a whole number of blocks -/
  | wholeBlocks (name : Bytes) (dtype : String) (elems : ℕ)
  /-- tensor {name} ({dtype}): no wire block size is known -/
  | noBlockSize (name : Bytes) (dtype : String)
  /-- no tensor named {name} in this shard -/
  | noTensor (name : Bytes)
  /-- tensor {name} roles array is empty -/
  | noRoles (name : Bytes)
  /-- tensor {name} has unknown role {role} -/
  | unknownRole (name role : Bytes)
  /-- tensor {name} has invalid roles combination {roles} -/
  | rolesCombination (name : Bytes) (roles : List Role)
  /-- tensor {name} regions has {count} item(s), expected 3 -/
  | regionCount (name : Bytes) (count : ℕ)
  /-- tensor {name} has invalid explicit region offsets {explicit} -/
  | regionOffsets (name : Bytes) (explicit : List UInt64)
  /-- tensor {name} explicit regions {explicit} do not match derived regions {expected} -/
  | regionMismatch (name : Bytes) (explicit expected : List UInt64)
  /-- metadata key {key}: declared array element type cannot be Array -/
  | arrayOfArrays (key : Bytes)
  /-- metadata key {key}: nested arrays are not valid GGUF metadata -/
  | arrayInArray (key : Bytes)
  /-- tensor {name}: shape cannot be empty -/
  | emptyShape (name : Bytes)
  /-- tensor {name}: shape contains zero dimension -/
  | zeroShape (name : Bytes)
  /-- tensor {name}: invalid shape {shape} for type {code} -/
  | invalidShape (name : Bytes) (shape : List UInt64) (code : UInt32)
  /-- tensor {name}: innermost dimension {dim} is not a multiple of block length {block} -/
  | shapeMultiple (name : Bytes) (dim : UInt64) (block : ℕ)
  /-- tensor {name}: unsupported type {code} -/
  | unsupportedWrite (name : Bytes) (code : UInt32)
  /-- tensor {name} declared scheme {declared}, expected {expected} -/
  | declaredScheme (name declared : Bytes) (expected : String)

/-- Why the range of a tensor is not valid. -/
inductive RangeReason
  /-- data section start {start} is beyond file size {size} -/
  | dataStart (start size : ℕ)
  /-- data_start {start} + offset {offset} overflows -/
  | startOverflow (start : ℕ) (offset : UInt64)
  /-- tensor offset {offset} is not a multiple of alignment {alignment} -/
  | unaligned (offset : UInt64) (alignment : ℕ)
  /-- range end {start} + {nbytes} bytes overflows -/
  | endOverflow (start nbytes : ℕ)
  /-- range end {stop} is beyond file size {size} -/
  | beyondFile (stop size : ℕ)
  /-- overlaps {other} [{start}, {stop}) -/
  | overlaps (other : Bytes) (start stop : ℕ)
  /-- native tensor {name} offset {offset} does not immediately follow previous tensor end offset
  {expected} -/
  | deadGap (name : Bytes) (offset : UInt64) (expected : ℕ)
  /-- native tensor {name} offset {offset} is out of sequence (expected offset {expected}) -/
  | outOfSequence (name : Bytes) (offset : UInt64) (expected : ℕ)
  /-- native file size {size} exceeds end of tensor data {expected} -/
  | trailing (size expected : ℕ)
  /-- data_start + offset overflows -/
  | sliceStart
  /-- range end overflows -/
  | sliceEnd
  /-- range end {stop} is beyond buffer size {size} -/
  | beyondBuffer (stop size : ℕ)

/-- The errors of the format layer. -/
inductive FormatError
  | invalidDim (name : String) (value : ℕ) (reason : String)
  | invalidBlock (name : String) (value : ℕ) (reason : String)
  | overflow (what detail : String)
  | invalidScale (scheme : String) (record bits : ℕ) (reason : String)
  | unknownLayout (value : String)
  | invalidBitWidth (bits : ℕ)
  | lengthMismatch (what : String) (expected got : ℕ)
  | valueOutOfRange (what : String) (position value : ℕ)
  | paddingNonzero (row col value : ℕ)
  | unknownScheme (value : String)
  | reservedScheme (scheme owner : String)
  | schemeMismatch (scheme expected got : String)
  | unsupportedLayout (scheme layout : String)
  | malformed (offset : ℕ) (detail : Detail)
  | kvTypeMismatch (key : Bytes) (found expected : String)
  | badMagic (found : UInt32)
  | unsupportedVersion (found : UInt32) (accepted : List UInt32)
  | truncated (offset need : ℕ) (what : String)
  | duplicateKey (key : Bytes)
  | duplicateTensor (name : Bytes)
  | invalidAlignment (value : ℕ)
  | missingKey (key : Bytes)
  | unknownTensorType (code : UInt32) (tensor : Bytes)
  | badTensorRange (name : Bytes) (start stop : ℕ) (reason : RangeReason)
  | formatVersion (found max : UInt32)
  | multiple (problems : List FormatError)

namespace FormatError

/-- No problem is no error, one problem is that error, and several are reported together. -/
def collect : List FormatError → Except FormatError Unit
  | [] => .ok ()
  | [e] => .error e
  | problems => .error (.multiple problems)

theorem collect_eq_ok {problems : List FormatError} {u : Unit} :
    collect problems = .ok u ↔ problems = [] := by
  rcases problems with _ | ⟨e, _ | ⟨e', problems⟩⟩ <;> simp [collect]

end FormatError

end R9v.Format

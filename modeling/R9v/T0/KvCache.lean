import R9v.Ir.Op
import R9v.Lib.Stores
import R9v.T0.Attention
import R9v.T0.Buffer
import R9v.T0.Fp8

/-!
# Writing a cache

The caches of keys and values as they are stored (`r9v-t0/src/attention.rs`), with a region for each
type of value, and the operation that writes the rows of a step into one. Everything is checked
before the first store, and the rows are read before it as well; the rows are quantized, and their
places are computed, between the stores. The state of a write is kept when it fails.
-/

namespace R9v

/-- How a type is printed. -/
def DType.debug : DType → String
  | .f32 => "F32"
  | .f16 => "F16"
  | .bf16 => "Bf16"
  | .e4m3 => "E4m3"
  | .e5m2 => "E5m2"
  | .i8 => "I8"
  | .i4 => "I4"
  | .i32 => "I32"
  | .u32 => "U32"
  | .bool => "Bool"

namespace Kv

open Checked FloatFormat Format Storing

/-! ### Errors -/

/-- The errors of a write; `notEncodable` is the attribute error of a row that cannot be encoded. -/
inductive KvError
  | rankMismatch (tensor : String) (expected got : ℕ) (shape : List ℕ)
  | dtypeMismatch (tensor : String) (expected : List DType) (got : DType)
  | layoutMismatch (tensor : String) (expected : List LayoutId) (got : LayoutId)
  | bufferLengthMismatch (tensor : String) (bufferLen expectedLen : ℕ) (shape : List ℕ)
  | invalidAttribute (op field reason : String)
  | notEncodable (tensor : String) (tok head : ℕ) (value scale : F32)
  | dimensionMismatch (dimName expectedFrom : String) (expected : ℕ) (tensor : String) (got : ℕ)
  | arithmeticOverflow (op detail : String)
  | missingOperand (op operand detail : String)
  | plan (e : AttnError)
  | multiple (problems : List KvError)

/-- No failure is no error, one failure is that error, and several are reported together. -/
def KvError.fromProblems : List KvError → Except KvError Unit
  | [] => .ok ()
  | [e] => .error e
  | problems => .error (.multiple problems)

theorem KvError.fromProblems_eq_ok {problems : List KvError} :
    fromProblems problems = .ok () ↔ problems = [] := by
  cases problems with
  | nil => simp [fromProblems]
  | cons e problems => cases problems <;> simp [fromProblems]

/-- `a * b + c`, if it can be counted. -/
def checkedAddr (a b c : ℕ) (what : String) : Except KvError ℕ :=
  okOr ((mul 64 a b).bind fun x => add 64 x c)
    (.arithmeticOverflow "attention" s!"{what}: {a} * {b} + {c} overflows usize")

/-! ### Operands -/

/-- A tensor that is read. -/
structure View where
  shape : List ℕ
  data : TensorData F32
  layout : LayoutId

namespace View

variable (v : View)

def rank : ℕ := v.shape.length

def dtype : DType := v.data.dtype

/-- The extent of an axis. -/
def dim (i : ℕ) : ℕ := v.shape.getD i 0

def backingLen : ℕ :=
  match v.data with
  | .f32 data => data.length
  | .f16 data | .bf16 data => data.length
  | .i8 data => data.length
  | .u32 data => data.length
  | .bytes _ data => data.length

/-- The cells that the elements need. -/
def requiredLen (n : ℕ) : Option ℕ :=
  match v.data with
  | .bytes dtype _ => if dtype = .i4 then some (n / 2 + n % 2) else mul 64 n dtype.elementSize
  | _ => some n

/-- A tensor has at least the elements that its shape counts. -/
def validateBacking (tensor : String) : Except KvError Unit := do
  let overflow : KvError := .bufferLengthMismatch tensor v.backingLen (2 ^ 64 - 1) v.shape
  let n ← okOr (TypedBuffer.elements v.shape) overflow
  let required ← okOr (v.requiredLen n) overflow
  ensure (required ≤ v.backingLen) (.bufferLengthMismatch tensor v.backingLen required v.shape)

end View

/-- Some bytes as a little-endian word, if they are there. -/
def readWord (bytes : List UInt8) (offset count : ℕ) : Option ℕ :=
  if offset + count ≤ bytes.length then some (wordAt bytes offset count) else none

/-- Reads an element of a tensor of bytes. -/
def readF32At (dtype : DType) (bytes : List UInt8) (i : ℕ) : Option F32 :=
  match dtype with
  | .f32 => (readWord bytes (i * 4) 4).map fun w => ⟨UInt32.ofNat w⟩
  | .f16 => (readWord bytes (i * 2) 2).map fun w => Dtype.f16ToF32 (UInt16.ofNat w)
  | .bf16 => (readWord bytes (i * 2) 2).map fun w => Dtype.bf16ToF32 (UInt16.ofNat w)
  | .e4m3 => bytes[i]?.map Dtype.fp8E4m3Decode
  | .e5m2 => bytes[i]?.map Dtype.fp8E5m2Decode
  | .i8 => bytes[i]?.map fun b => F32.ofInt b.toInt8.toInt
  | .i32 => (readWord bytes (i * 4) 4).map fun w => F32.ofInt (Int32.ofNat w).toInt
  | .u32 => (readWord bytes (i * 4) 4).map fun w => F32.ofInt w
  | .bool => bytes[i]?.map fun b => if b ≠ 0 then ⟨0x3F800000⟩ else ⟨0⟩
  | .i4 => bytes[i / 2]?.map fun byte =>
    let nibble : UInt8 := if i % 2 = 0 then byte &&& 0x0F else (byte >>> 4) &&& 0x0F
    F32.ofInt (if 8 ≤ nibble then (nibble.toNat : ℤ) - 16 else nibble.toNat)

/-- Reads an element; where there is none, the program panics. -/
def View.readF32 (v : View) (i : ℕ) : Option F32 :=
  match v.data with
  | .f32 data => data[i]?
  | .f16 data => data[i]?.map Dtype.f16ToF32
  | .bf16 data => data[i]?.map Dtype.bf16ToF32
  | .i8 data => data[i]?.map fun q => F32.ofInt q.toInt
  | .u32 data => data[i]?.map fun n => F32.ofInt n.toNat
  | .bytes dtype data => readF32At dtype data i

/-! ### Quantizing a row -/

/-- The nearest integer, or the even one of two. -/
def roundTiesEven (q : ℚ) : ℤ :=
  if q - ⌊q⌋ < 1 / 2 ∨ q - ⌊q⌋ = 1 / 2 ∧ Even ⌊q⌋ then ⌊q⌋ else ⌊q⌋ + 1

/-- A number rounded to an integer between -127 and 127; what is no number is 0. -/
def toCode (x : F32) : Int8 :=
  if x.isNan then 0
  else if x.isInfinite then if x.isSignNegative then -127 else 127
  else Int8.ofInt (max (-127) (min 127 (roundTiesEven x.value)))

/-- The codes of a row and its scale; 0x42FE0000 is 127.0. -/
def quantRowI8 (values : List F32) : List Int8 × F32 :=
  let absmax := peakOf values
  let scale := absmax.div ⟨0x42FE0000⟩
  if scale.eq ⟨0⟩ then (List.replicate values.length 0, ⟨0⟩)
  else (values.map fun v => toCode (v.div scale), scale)

/-- The codes of a row and its scale; 0x43E00000 is 448.0. -/
def quantRowE4m3 (values : List F32) (tensor : String) (tok head : ℕ) :
    Except KvError (List UInt8 × F32) :=
  let absmax := peakOf values
  let scale := absmax.div ⟨0x43E00000⟩
  if scale.eq ⟨0⟩ then .ok (List.replicate values.length 0, ⟨0⟩)
  else do
    let q ← values.mapM fun v =>
      match E4m3.fromF32 (v.div scale) with
      | some c => .ok c.bits
      | none => .error (.notEncodable tensor tok head (v.div scale) scale)
    pure (q, scale)

/-! ### The caches -/

structure PagedCache where
  numBlocks : ℕ
  hkv : ℕ
  d : ℕ
  dv : ℕ
  dtype : DType
  kF16 : List UInt16
  vF16 : List UInt16
  kI8 : List Int8
  vI8 : List Int8
  kE4m3 : List UInt8
  vE4m3 : List UInt8
  kScales : List UInt16
  vScales : List UInt16
  written : List Bool

structure LatentCache where
  numBlocks : ℕ
  latent : ℕ
  rope : ℕ
  dtype : DType
  latentF16 : List UInt16
  latentI8 : List Int8
  latentE4m3 : List UInt8
  latentScales : List UInt16
  ropeF16 : List UInt16
  written : List Bool

/-- The types that a cache can hold. -/
def cacheDtypes : List DType := [.f16, .i8, .e4m3]

/-- The geometry of a cache has no zero. -/
def geometryProblems (fields : List (String × ℕ)) : List KvError :=
  (fields.filter fun f => f.2 = 0).map fun f =>
    .invalidAttribute "state_write_kv" "cache_geometry" s!"{f.1} must be > 0, got 0"

/-- A cache that is not written. -/
def PagedCache.new (numBlocks hkv d dv : ℕ) (dtype : DType) : Except KvError PagedCache := do
  KvError.fromProblems <|
    (if dtype ∈ cacheDtypes then []
    else [.invalidAttribute "state_write_kv" "cache_dtype"
      s!"paged cache dtype must be f16, i8, or e4m3; got {dtype.debug}"]) ++
    geometryProblems [("num_blocks", numBlocks), ("hkv", hkv), ("d", d), ("dv", dv)]
  let slots ← checkedAddr numBlocks 32 0 "paged cache slots"
  let kElems ← okOr ((mul 64 slots hkv).bind (mul 64 · d))
    (.arithmeticOverflow "attention" s!"paged K elements {slots} * {hkv} * {d} overflows usize")
  let vElems ← okOr ((mul 64 slots hkv).bind (mul 64 · dv))
    (.arithmeticOverflow "attention" s!"paged V elements {slots} * {hkv} * {dv} overflows usize")
  let scaleElems ← okOr (mul 64 slots hkv)
    (.arithmeticOverflow "attention" s!"paged scale elements {slots} * {hkv} overflows usize")
  let cache : PagedCache := ⟨numBlocks, hkv, d, dv, dtype, [], [], [], [], [], [], [], [],
    List.replicate slots false⟩
  match dtype with
  | .f16 => pure { cache with kF16 := List.replicate kElems 0, vF16 := List.replicate vElems 0 }
  | .i8 => pure { cache with
      kI8 := List.replicate kElems 0, vI8 := List.replicate vElems 0,
      kScales := List.replicate scaleElems 0, vScales := List.replicate scaleElems 0 }
  | .e4m3 => pure { cache with
      kE4m3 := List.replicate kElems 0, vE4m3 := List.replicate vElems 0,
      kScales := List.replicate scaleElems 0, vScales := List.replicate scaleElems 0 }
  | _ => throw (.invalidAttribute "state_write_kv" "cache_dtype"
      "paged/latent cache dtype must be f16, i8, or e4m3")

/-- A cache that is not written. -/
def LatentCache.new (numBlocks latent rope : ℕ) (dtype : DType) : Except KvError LatentCache := do
  KvError.fromProblems <|
    (if dtype ∈ cacheDtypes then []
    else [.invalidAttribute "state_write_kv" "cache_dtype"
      s!"latent cache dtype must be f16, i8, or e4m3; got {dtype.debug}"]) ++
    geometryProblems [("num_blocks", numBlocks), ("latent", latent), ("rope", rope)]
  let slots ← checkedAddr numBlocks 32 0 "latent cache slots"
  let latentElems ← okOr (mul 64 slots latent)
    (.arithmeticOverflow "attention" s!"latent elements {slots} * {latent} overflows usize")
  let ropeElems ← okOr (mul 64 slots rope)
    (.arithmeticOverflow "attention" s!"rope elements {slots} * {rope} overflows usize")
  let cache : LatentCache := ⟨numBlocks, latent, rope, dtype, [], [], [], [],
    List.replicate ropeElems 0, List.replicate slots false⟩
  match dtype with
  | .f16 => pure { cache with latentF16 := List.replicate latentElems 0 }
  | .i8 => pure { cache with
      latentI8 := List.replicate latentElems 0, latentScales := List.replicate slots 0 }
  | .e4m3 => pure { cache with
      latentE4m3 := List.replicate latentElems 0, latentScales := List.replicate slots 0 }
  | _ => throw (.invalidAttribute "state_write_kv" "cache_dtype"
      "paged/latent cache dtype must be f16, i8, or e4m3")

namespace PagedCache

def numSlots (c : PagedCache) : ℕ := c.written.length

def kOffset (c : PagedCache) (slot head dim : ℕ) : Except KvError ℕ := do
  let row ← checkedAddr slot c.hkv head "paged K slot/head"
  checkedAddr row c.d dim "paged K head/dim"

def vOffset (c : PagedCache) (slot head dim : ℕ) : Except KvError ℕ := do
  let row ← checkedAddr slot c.hkv head "paged V slot/head"
  checkedAddr row c.dv dim "paged V head/dim"

def scaleOffset (c : PagedCache) (slot head : ℕ) : Except KvError ℕ :=
  checkedAddr slot c.hkv head "paged scale slot/head"

end PagedCache

def LatentCache.numSlots (c : LatentCache) : ℕ := c.written.length

/-! ### Checks -/

section Checks

variable (op : StateWriteKvOp) (k v : View) (b : BatchMeta) (group : ℕ)

/-- A tensor of floats in row-major order, with all its elements. -/
def viewProblems (tensor : String) (v : View) : List KvError :=
  (if v.dtype ∈ [DType.f16, .bf16, .f32] then []
  else [.dtypeMismatch tensor [.f16, .bf16, .f32] v.dtype]) ++
  (if v.layout = .contiguous ∨ v.layout = .l0 then []
  else [.layoutMismatch tensor [.contiguous, .l0] v.layout]) ++
  match v.validateBacking tensor with
  | .ok () => []
  | .error e => [e]

/-- The checks of both kinds of caches. -/
def commonProblems : List KvError :=
  (if k.rank = 3 then [] else [.rankMismatch "k" 3 k.rank k.shape]) ++
  (if v.rank = 3 then [] else [.rankMismatch "v" 3 v.rank v.shape]) ++
  viewProblems "k" k ++ viewProblems "v" v ++
  (if op.cacheDtype ∈ cacheDtypes then []
  else [.invalidAttribute "state_write_kv" "cache_dtype"
    s!"must be f16, i8, or e4m3; got {op.cacheDtype.debug}"]) ++
  (if op.scaleGranularity = .perTokenHead then []
  else [.invalidAttribute "state_write_kv" "scale_granularity"
    "PerBlock cache scale geometry is undefined (see SI-45); only PerTokenHead is supported"]) ++
  (if group < b.g then []
  else [.invalidAttribute "state_write_kv" "group"
    s!"group {group} out of range for BatchMeta with {b.g} groups"]) ++
  if k.rank = 3 ∧ v.rank = 3 then
    (if k.dim 0 = b.t then [] else [.dimensionMismatch "T" "BatchMeta" b.t "k" (k.dim 0)]) ++
    (if v.dim 0 = b.t then [] else [.dimensionMismatch "T" "BatchMeta" b.t "v" (v.dim 0)]) ++
    (if k.dim 1 = v.dim 1 then [] else [.dimensionMismatch "Hkv" "k" (k.dim 1) "v" (v.dim 1)])
  else []

/-- Counts an element of a row that is not finite. -/
def addBad (v : View) (off bad d : ℕ) : Option ℕ :=
  match add 64 off d with
  | some i => do
    let x ← v.readF32 i
    pure (if x.isFinite then bad else bad + 1)
  | none => pure (bad + 1)

/-- How many elements of a row are not finite. -/
def countBad (v : View) (off n : ℕ) : Option ℕ := (List.range n).foldlM (addBad v off) 0

/-- The slots of the tokens, where the group is one. -/
def planSlots (numSlots : ℕ) : List KvError × Option (List (Option ℕ)) :=
  if group < b.g then
    let plan := planWriteSlots b group numSlots
    (plan.1.map .plan, some plan.2)
  else ([], none)

/-- The problem of a row that a quantized cache cannot hold. -/
def badRow (op : StateWriteKvOp) (field : String) (tok head bad : ℕ) : List KvError :=
  if 0 < bad then [.invalidAttribute "state_write_kv" field
    s!"token {tok} head {head}: {bad} non-finite value(s) cannot be stored in {op.cacheDtype.debug} cache"]
  else []

/-- The elements of a row, which is `n` elements long. -/
def readRow (v : View) (off n : ℕ) (detail : String) : Except (Fault KvError) (List F32) :=
  (List.range n).mapM fun d => do
    let i ← lift (okOr (add 64 off d) (.arithmeticOverflow "state_write_kv" detail))
    orPanic (v.readF32 i)

/-- The slots that were planned. -/
def slotsOrError (slots : Option (List (Option ℕ))) : Except KvError (List (Option ℕ)) :=
  okOr slots (.invalidAttribute "state_write_kv" "slot_map"
    "slot plan missing after successful validation")

end Checks

/-! ### Writing a paged cache -/

section Paged

variable (op : StateWriteKvOp) (k v : View) (b : BatchMeta) (group : ℕ)

/-- The extents of the cache are those of the rows. -/
def pagedDimProblems (c : PagedCache) : List KvError :=
  if k.rank = 3 ∧ v.rank = 3 then
    (if k.dim 1 = c.hkv then [] else [.dimensionMismatch "Hkv" "cache" c.hkv "k" (k.dim 1)]) ++
    (if k.dim 2 = c.d then [] else [.dimensionMismatch "D" "cache" c.d "k" (k.dim 2)]) ++
    (if v.dim 2 = c.dv then [] else [.dimensionMismatch "Dv" "cache" c.dv "v" (v.dim 2)])
  else []

/-- The problems of the rows of a head. -/
def pagedRowProblems (tok head : ℕ) : Option (List KvError) :=
  match checkedAddr tok (k.dim 1) head "paged write validation row" with
  | .error e => some [e]
  | .ok row =>
    match mul 64 row (k.dim 2), mul 64 row (v.dim 2) with
    | some kOff, some vOff => do
      let kBad ← countBad k kOff (k.dim 2)
      let vBad ← countBad v vOff (v.dim 2)
      pure (badRow op "k/v" tok head (kBad + vBad))
    | _, _ => some [.arithmeticOverflow "state_write_kv"
        s!"paged write validation row {row} * dims overflows usize"]

/-- Quantized caches hold finite numbers only. -/
def pagedFiniteProblems : Option (List KvError) :=
  if op.cacheDtype ∈ [DType.i8, .e4m3] ∧ k.rank = 3 ∧ v.rank = 3 then do
    let problems ← (List.range (k.dim 0)).mapM fun tok =>
      (List.range (k.dim 1)).mapM fun head => pagedRowProblems op k v tok head
    pure (problems.flatten.flatten)
  else some []

/-- The rows of a token, head by head. -/
def planToken (h kd vd tok : ℕ) : Except (Fault KvError) (List F32 × List F32) := do
  let rows ← (List.range h).mapM fun head => do
    let row ← lift (checkedAddr tok h head "paged write plan row")
    let kOff ← lift (okOr (mul 64 row kd) (.arithmeticOverflow "state_write_kv"
      s!"paged write plan row {row} * {kd} overflows usize"))
    let vOff ← lift (okOr (mul 64 row vd) (.arithmeticOverflow "state_write_kv"
      s!"paged write plan row {row} * {vd} overflows usize"))
    let kRow ← readRow k kOff kd "paged write plan k index overflows usize"
    let vRow ← readRow v vOff vd "paged write plan v index overflows usize"
    pure (kRow, vRow)
  pure ((rows.map (·.1)).flatten, (rows.map (·.2)).flatten)

/-- The tokens that are written: the slot and the rows of each. -/
def planTokens (token : ℕ → Except (Fault KvError) (List F32 × List F32))
    (slots : List (Option ℕ)) : Except (Fault KvError) (List (ℕ × List F32 × List F32)) := do
  let plan ← slots.zipIdx.mapM fun s =>
    match s.1 with
    | some slot => do
      let rows ← token s.2
      pure [(slot, rows)]
    | none => pure []
  pure plan.flatten

/-- Everything that is done before the first store. -/
def pagedPlan (c : PagedCache) : Except (Fault KvError) (List (ℕ × List F32 × List F32)) := do
  let finite ← orPanic (pagedFiniteProblems op k v)
  let slots := planSlots b group c.numSlots
  let latent : List KvError :=
    if op.latent.isSome then [.invalidAttribute "state_write_kv" "latent"
      "paged write takes no latent spec; use a KvLatent cache"]
    else []
  lift (KvError.fromProblems (commonProblems op k v b group ++ latent ++ pagedDimProblems k v c ++
    finite ++ slots.1))
  let slots ← lift (slotsOrError slots.2)
  planTokens (planToken k v (k.dim 1) (k.dim 2) (v.dim 2)) slots

/-! ### Stores -/

abbrev Commit (σ : Type) := EStateM (Fault KvError) σ

/-- Plans with the state, and does not write. -/
def planning {σ α : Type} (f : σ → Except (Fault KvError) α) : Commit σ α := fun s =>
    ofExcept (f s) s

/-- Checks and computes with the state, and does not write. -/
def reading {σ α : Type} (f : σ → Except KvError α) : Commit σ α := planning fun s => lift (f s)

/-- The error of a store where there is no cell. -/
def storeError (tensor : String) (i len : ℕ) : Fault KvError :=
  .err (.bufferLengthMismatch tensor len (min (i + 1) (2 ^ 64 - 1)) [len])

/-- An element of a row that was planned. -/
def flatAt (flat : List F32) (head rowLen d : ℕ) : Except KvError F32 := do
  let i ← okOr ((mul 64 head rowLen).bind (add 64 · d))
    (.arithmeticOverflow "state_write_kv" "planned row index overflows usize")
  okOr flat[i]?
    (.bufferLengthMismatch "plan" flat.length (min (i + 1) (2 ^ 64 - 1)) [flat.length])

/-- A row of a token that was planned. -/
def flatRow (flat : List F32) (head rowLen : ℕ) : Except KvError (List F32) := do
  let start ← okOr (mul 64 head rowLen)
    (.arithmeticOverflow "state_write_kv" "planned row start overflows usize")
  let stop ← okOr (add 64 start rowLen)
    (.arithmeticOverflow "state_write_kv" "planned row end overflows usize")
  ensure (stop ≤ flat.length) (.bufferLengthMismatch "plan" flat.length stop [flat.length])
  pure ((flat.drop start).take (stop - start))

end Paged

/-! ### The regions of a paged cache -/

namespace PagedCache

def kF16Region : Storing.Region PagedCache UInt16 where
  get c := c.kF16
  set c l := { c with kF16 := l }
  get_set _ _ := rfl
  set_set _ _ _ := rfl
  set_get _ := rfl

def vF16Region : Storing.Region PagedCache UInt16 where
  get c := c.vF16
  set c l := { c with vF16 := l }
  get_set _ _ := rfl
  set_set _ _ _ := rfl
  set_get _ := rfl

def kI8Region : Storing.Region PagedCache Int8 where
  get c := c.kI8
  set c l := { c with kI8 := l }
  get_set _ _ := rfl
  set_set _ _ _ := rfl
  set_get _ := rfl

def vI8Region : Storing.Region PagedCache Int8 where
  get c := c.vI8
  set c l := { c with vI8 := l }
  get_set _ _ := rfl
  set_set _ _ _ := rfl
  set_get _ := rfl

def kE4m3Region : Storing.Region PagedCache UInt8 where
  get c := c.kE4m3
  set c l := { c with kE4m3 := l }
  get_set _ _ := rfl
  set_set _ _ _ := rfl
  set_get _ := rfl

def vE4m3Region : Storing.Region PagedCache UInt8 where
  get c := c.vE4m3
  set c l := { c with vE4m3 := l }
  get_set _ _ := rfl
  set_set _ _ _ := rfl
  set_get _ := rfl

def kScalesRegion : Storing.Region PagedCache UInt16 where
  get c := c.kScales
  set c l := { c with kScales := l }
  get_set _ _ := rfl
  set_set _ _ _ := rfl
  set_get _ := rfl

def vScalesRegion : Storing.Region PagedCache UInt16 where
  get c := c.vScales
  set c l := { c with vScales := l }
  get_set _ _ := rfl
  set_set _ _ _ := rfl
  set_get _ := rfl

def writtenRegion : Storing.Region PagedCache Bool where
  get c := c.written
  set c l := { c with written := l }
  get_set _ _ := rfl
  set_set _ _ _ := rfl
  set_get _ := rfl

end PagedCache

/-! ### Writing a paged cache -/

section CommitPaged

open PagedCache

variable (slot head kd vd : ℕ) (kFlat vFlat : List F32)

def storeHeadF16 : Commit PagedCache PUnit := do
  kF16Region.storeRow (storeError "cache.k") kd (fun d => reading fun c => c.kOffset slot head d)
    fun d => reading fun _ => (flatAt kFlat head kd d).map f32ToF16Bits
  vF16Region.storeRow (storeError "cache.v") vd (fun d => reading fun c => c.vOffset slot head d)
    fun d => reading fun _ => (flatAt vFlat head vd d).map f32ToF16Bits

/-- Stores the scales of the rows of a head. -/
def storeScales (ks vs : F32) : Commit PagedCache PUnit := do
  let kso ← reading fun c => c.scaleOffset slot head
  let vso ← reading fun c => c.scaleOffset slot head
  kScalesRegion.store (storeError "cache.k_scales") kso (f32ToF16Bits ks)
  vScalesRegion.store (storeError "cache.v_scales") vso (f32ToF16Bits vs)

def storeHeadI8 : Commit PagedCache PUnit := do
  let kRow ← reading fun _ => flatRow kFlat head kd
  let vRow ← reading fun _ => flatRow vFlat head vd
  let k := quantRowI8 kRow
  let v := quantRowI8 vRow
  kI8Region.storeRow (storeError "cache.k") k.1.length
    (fun d => reading fun c => c.kOffset slot head d) fun d => pure (k.1.getD d 0)
  vI8Region.storeRow (storeError "cache.v") v.1.length
    (fun d => reading fun c => c.vOffset slot head d) fun d => pure (v.1.getD d 0)
  storeScales slot head k.2 v.2

def storeHeadE4m3 (tok : ℕ) : Commit PagedCache PUnit := do
  let kRow ← reading fun _ => flatRow kFlat head kd
  let vRow ← reading fun _ => flatRow vFlat head vd
  let k ← reading fun _ => quantRowE4m3 kRow "k" tok head
  let v ← reading fun _ => quantRowE4m3 vRow "v" tok head
  kE4m3Region.storeRow (storeError "cache.k") k.1.length
    (fun d => reading fun c => c.kOffset slot head d) fun d => pure (k.1.getD d 0)
  vE4m3Region.storeRow (storeError "cache.v") v.1.length
    (fun d => reading fun c => c.vOffset slot head d) fun d => pure (v.1.getD d 0)
  storeScales slot head k.2 v.2

end CommitPaged

/-- The error of a type that no cache can hold. -/
def dtypeError : KvError :=
  .invalidAttribute "attention" "cache_dtype" "cache dtype must be f16, i8, or e4m3"

/-- Stores the rows of a token and marks its slot. -/
def commitPaged (op : StateWriteKvOp) (h kd vd tok slot : ℕ) (kFlat vFlat : List F32) :
    Commit PagedCache PUnit := do
  match op.cacheDtype with
  | .f16 => forM (List.range h) fun head => storeHeadF16 slot head kd vd kFlat vFlat
  | .i8 => forM (List.range h) fun head => storeHeadI8 slot head kd vd kFlat vFlat
  | .e4m3 => forM (List.range h) fun head => storeHeadE4m3 slot head kd vd kFlat vFlat tok
  | _ => reading fun _ => .error dtypeError
  PagedCache.writtenRegion.store (storeError "cache.written") slot true

/-- Writes the rows of the tokens of a step. -/
def stateWriteKvPaged (op : StateWriteKvOp) (k v : View) (b : BatchMeta) (group : ℕ) :
    Commit PagedCache PUnit := do
  let plan ← planning (pagedPlan op k v b group)
  forM plan.zipIdx fun x =>
    commitPaged op (k.dim 1) (k.dim 2) (v.dim 2) x.2 x.1.1 x.1.2.1 x.1.2.2

/-! ### Writing a latent cache -/

section Latent

variable (op : StateWriteKvOp) (k v : View) (b : BatchMeta) (group : ℕ)

/-- Operand 0 holds the latent part, and operand 1 the rotary one. -/
def isSplit (l : MlaLatent) : Bool :=
  k.rank = 3 ∧ v.rank = 3 ∧ k.dim 2 = l.kvLoraRank ∧ v.dim 2 = l.ropeDim

/-- Operand 0 holds both parts. -/
def isCombined (l : MlaLatent) : Bool :=
  k.rank = 3 ∧ v.rank = 3 ∧ some (k.dim 2) = add 64 l.kvLoraRank l.ropeDim

def latentHeadProblems (tensor : String) (v : View) : List KvError :=
  if v.rank = 3 ∧ v.dim 1 ≠ 1 then
    [.dimensionMismatch "H" "KvLatent (no head dimension)" 1 tensor (v.dim 1)]
  else []

def latentFormProblems (l : MlaLatent) (c : LatentCache) : List KvError :=
  if k.rank = 3 ∧ v.rank = 3 then
    (if isSplit k v l || isCombined k v l then []
    else [.invalidAttribute "state_write_kv" "k/v"
      s!"MLA latent dim {k.dim 2} / rotary dim {v.dim 2} must be the exact split pair (latent {l.kvLoraRank} / rotary {l.ropeDim}) or the combined latent (rank {l.kvLoraRank} + rope {l.ropeDim})"]) ++
    latentHeadProblems "c_kv" k ++ latentHeadProblems "k_rope" v ++
    (if l.kvLoraRank = c.latent then []
    else [.dimensionMismatch "latent" "cache" c.latent "c_kv" l.kvLoraRank]) ++
    (if l.ropeDim = c.rope then []
    else [.dimensionMismatch "rope" "cache" c.rope "k_rope" l.ropeDim])
  else []

/-- The problems of the row of a head. -/
def latentRowProblems (tok head : ℕ) : Option (List KvError) :=
  match (mul 64 tok (k.dim 1)).bind fun x => (add 64 x head).bind (mul 64 · (k.dim 2)) with
  | none => some [.arithmeticOverflow "state_write_kv"
      s!"latent write validation row ({tok} * {k.dim 1} + {head}) * {k.dim 2} overflows usize"]
  | some off => do
    let bad ← countBad k off (k.dim 2)
    pure (badRow op "c_kv" tok head bad)

def latentFiniteProblems : Option (List KvError) :=
  if op.cacheDtype ∈ [DType.i8, .e4m3] ∧ k.rank = 3 ∧ v.rank = 3 then do
    let problems ← (List.range (k.dim 0)).mapM fun tok =>
      (List.range (k.dim 1)).mapM fun head => latentRowProblems op k tok head
    pure (problems.flatten.flatten)
  else some []

/-- The error of rows of neither form. -/
def formError : KvError :=
  .invalidAttribute "state_write_kv" "k/v"
    "latent form is neither the split pair nor the combined form"

def planLatentRow (l : MlaLatent) (base : ℕ) : Except (Fault KvError) (List F32) :=
  if isSplit k v l || isCombined k v l then
    readRow k base l.kvLoraRank "latent write plan index overflows usize"
  else .error (.err formError)

def planRopeRow (l : MlaLatent) (tok base : ℕ) : Except (Fault KvError) (List F32) :=
  if isSplit k v l then do
    let ropeBase ← lift (okOr (mul 64 tok (v.dim 2)) (.arithmeticOverflow "state_write_kv"
      s!"rope write plan row {tok} * {v.dim 2} overflows usize"))
    readRow v ropeBase l.ropeDim "rope write plan index overflows usize"
  else if isCombined k v l then do
    let ropeBase ← lift (okOr (add 64 base l.kvLoraRank) (.arithmeticOverflow "state_write_kv"
      "combined rope write plan base overflows usize"))
    readRow k ropeBase l.ropeDim "combined rope write plan index overflows usize"
  else .error (.err formError)

/-- The latent and the rotary row of a token. -/
def planLatentToken (l : MlaLatent) (tok : ℕ) : Except (Fault KvError) (List F32 × List F32) := do
  let base ← lift (okOr (mul 64 tok (k.dim 2)) (.arithmeticOverflow "state_write_kv"
    s!"latent write plan row {tok} * {k.dim 2} overflows usize"))
  let latentRow ← planLatentRow k v l base
  let ropeRow ← planRopeRow k v l tok base
  pure (latentRow, ropeRow)

/-- Everything that is done before the first store. -/
def latentPlan (c : LatentCache) : Except (Fault KvError) (List (ℕ × List F32 × List F32)) := do
  match op.latent with
  | none => do
    lift (KvError.fromProblems (commonProblems op k v b group ++
      [.invalidAttribute "state_write_kv" "latent"
        "latent write requires a latent spec; use a KvPaged cache otherwise"]))
    .error (.err (.missingOperand "state_write_kv" "latent" "latent write requires a latent spec"))
  | some l => do
    let finite ← orPanic (latentFiniteProblems op k v)
    let slots := planSlots b group c.numSlots
    let zero : List KvError :=
      if l.kvLoraRank = 0 ∨ l.ropeDim = 0 then [.invalidAttribute "state_write_kv" "latent"
        s!"kv_lora_rank ({l.kvLoraRank}) and rope_dim ({l.ropeDim}) must both be > 0"]
      else []
    lift (KvError.fromProblems (commonProblems op k v b group ++ zero ++
      latentFormProblems k v l c ++ finite ++ slots.1))
    let slots ← lift (slotsOrError slots.2)
    planTokens (planLatentToken k v l) slots

end Latent

namespace LatentCache

def latentF16Region : Storing.Region LatentCache UInt16 where
  get c := c.latentF16
  set c l := { c with latentF16 := l }
  get_set _ _ := rfl
  set_set _ _ _ := rfl
  set_get _ := rfl

def latentI8Region : Storing.Region LatentCache Int8 where
  get c := c.latentI8
  set c l := { c with latentI8 := l }
  get_set _ _ := rfl
  set_set _ _ _ := rfl
  set_get _ := rfl

def latentE4m3Region : Storing.Region LatentCache UInt8 where
  get c := c.latentE4m3
  set c l := { c with latentE4m3 := l }
  get_set _ _ := rfl
  set_set _ _ _ := rfl
  set_get _ := rfl

def latentScalesRegion : Storing.Region LatentCache UInt16 where
  get c := c.latentScales
  set c l := { c with latentScales := l }
  get_set _ _ := rfl
  set_set _ _ _ := rfl
  set_get _ := rfl

def ropeF16Region : Storing.Region LatentCache UInt16 where
  get c := c.ropeF16
  set c l := { c with ropeF16 := l }
  get_set _ _ := rfl
  set_set _ _ _ := rfl
  set_get _ := rfl

def writtenRegion : Storing.Region LatentCache Bool where
  get c := c.written
  set c l := { c with written := l }
  get_set _ _ := rfl
  set_set _ _ _ := rfl
  set_get _ := rfl

end LatentCache

open LatentCache in
/-- Stores the latent row of a token. -/
def storeLatent (op : StateWriteKvOp) (tok slot : ℕ) (row : List F32) : Commit LatentCache PUnit :=
  let off := fun d => reading fun c : LatentCache => checkedAddr slot c.latent d "latent write"
  match op.cacheDtype with
  | .f16 => latentF16Region.storeRow (storeError "cache.latent") row.length off
      fun d => pure (f32ToF16Bits (row.getD d ⟨0⟩))
  | .i8 => do
    let q := quantRowI8 row
    latentI8Region.storeRow (storeError "cache.latent") q.1.length off fun d => pure (q.1.getD d 0)
    latentScalesRegion.store (storeError "cache.latent_scales") slot (f32ToF16Bits q.2)
  | .e4m3 => do
    let q ← reading fun _ => quantRowE4m3 row "c_kv" tok 0
    latentE4m3Region.storeRow (storeError "cache.latent") q.1.length off
      fun d => pure (q.1.getD d 0)
    latentScalesRegion.store (storeError "cache.latent_scales") slot (f32ToF16Bits q.2)
  | _ => reading fun _ => .error dtypeError

/-- Stores the rows of a token and marks its slot. -/
def commitLatent (op : StateWriteKvOp) (tok slot : ℕ) (latentRow ropeRow : List F32) :
    Commit LatentCache PUnit := do
  storeLatent op tok slot latentRow
  LatentCache.ropeF16Region.storeRow (storeError "cache.rope") ropeRow.length
    (fun d => reading fun c => checkedAddr slot c.rope d "rope write")
    fun d => pure (f32ToF16Bits (ropeRow.getD d ⟨0⟩))
  LatentCache.writtenRegion.store (storeError "cache.written") slot true

/-- Writes the rows of the tokens of a step. -/
def stateWriteKvLatent (op : StateWriteKvOp) (k v : View) (b : BatchMeta) (group : ℕ) :
    Commit LatentCache PUnit := do
  let plan ← planning (latentPlan op k v b group)
  forM plan.zipIdx fun x => commitLatent op x.2 x.1.1 x.1.2.1 x.1.2.2

/-! ### Both kinds -/

inductive KvCache
  | paged (c : PagedCache)
  | latent (c : LatentCache)

def StateKind.debug : StateKind → String
  | .kvPaged => "KvPaged"
  | .kvLatent => "KvLatent"
  | .recurrent => "Recurrent"
  | .convWindow => "ConvWindow"

def KvCache.kind : KvCache → StateKind
  | .paged _ => .kvPaged
  | .latent _ => .kvLatent

/-- Runs a write on a part of the state. -/
def onPart {σ τ : Type} (wrap : σ → τ) (r : EStateM.Result (Fault KvError) σ PUnit) :
    EStateM.Result (Fault KvError) τ PUnit :=
  match r with
  | .ok u c => .ok u (wrap c)
  | .error e c => .error e (wrap c)

/-- Writes the rows of a step to the cache, whose kind is that of the handle. -/
def stateWriteKv (op : StateWriteKvOp) (k v : View) (b : BatchMeta) (group : ℕ) :
    Commit KvCache PUnit := fun cache =>
  match op.handle.kind, cache with
  | .kvPaged, .paged c => onPart .paged (stateWriteKvPaged op k v b group c)
  | .kvLatent, .latent c => onPart .latent (stateWriteKvLatent op k v b group c)
  | kind, cache => .error (.err (.invalidAttribute "state_write_kv" "handle"
      s!"handle kind {StateKind.debug kind} does not match cache {StateKind.debug cache.kind}; paged writes need KvPaged, latent writes need KvLatent")) cache

end Kv

end R9v

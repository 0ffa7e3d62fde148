import R9v.Format.Regions
import R9v.Format.TensorType

/-!
# Sizes of entries

How many bytes a tensor takes in a container (`GgufFile::tensor_nbytes` of
`r9v-format/src/container.rs`). On the wire this is a matter of its type and its dimensions. In a
native container the metadata has a say: the scheme, whether the tensor is sparse, and its roles
decide on its layout.

The metadata is a function that looks a key up, since the reader and the writer keep it in
different ways.
-/

namespace R9v.Format

open Checked

/-- A text, as a string. -/
def textOf (bytes : Bytes) : String := (String.fromUTF8? ⟨bytes.toArray⟩).getD ""

/-! ### The metadata of a tensor -/

def Role.parse (text : Bytes) : Option Role :=
  if text = utf8 "matmul" then some .matmul
  else if text = utf8 "embed" then some .embed
  else if text = utf8 "lm_head" then some .lmHead
  else if text = utf8 "ngram_table" then some .ngramTable
  else if text = utf8 "vector" then some .vector
  else none

def SchemeId.fromName (name : Bytes) : Except FormatError SchemeId :=
  okOr (SchemeId.all.find? (utf8 ·.name = name)) (.unknownScheme (textOf name))

def Layout.fromName (name : Bytes) : Except FormatError Layout :=
  okOr ([Layout.l0, .l1, .l1s].find? (utf8 ·.name = name)) (.unknownLayout (textOf name))

/-- A key of the metadata of a tensor. -/
def tensorKey (name : Bytes) (field : String) : Bytes :=
  utf8 "r9v.tensor." ++ name ++ utf8 "." ++ utf8 field

def layoutKey : Bytes := utf8 "r9v.layout_id"

/-- The error of a value of another type. -/
def typeMismatch (key : Bytes) (value : KvValue) (expected : String) : FormatError :=
  .kvTypeMismatch key value.kvType.name expected

section Metadata

variable (lookup : Bytes → Option KvValue) (name : Bytes)

/-- A scheme that is declared is that of the type. -/
def checkR9vTensorScheme (scheme : SchemeId) : Except FormatError Unit :=
  let schemeKey := tensorKey name "scheme"
  match lookup schemeKey with
  | none => pure ()
  | some (.str s) => do
    let declared ← SchemeId.fromName s.bytes
    ensure (declared = scheme) (.schemeMismatch declared.name scheme.name declared.name)
  | some other => .error (typeMismatch schemeKey other "STRING")

/-- The combinations of roles. -/
def roleCombinations : List (List Role) :=
  [[.matmul], [.embed], [.lmHead], [.ngramTable], [.vector], [.embed, .lmHead]]

def parseRole (rolesKey : Bytes) : KvValue → Except FormatError Role
  | .str s => okOr (Role.parse s.bytes) (.malformed 0 (.unknownRole name s.bytes))
  | other => .error (typeMismatch rolesKey other "STRING")

/-- The roles of a tensor, if they are declared. -/
def parseTensorRoles : Except FormatError (Option (List Role)) :=
  let rolesKey := tensorKey name "roles"
  match lookup rolesKey with
  | some (.array elem items) => do
    ensure (elem = .str) (.kvTypeMismatch rolesKey elem.name "STRING")
    ensure (items.isEmpty = false) (.malformed 0 (.noRoles name))
    let parsed ← items.mapM (parseRole name rolesKey)
    ensure (parsed ∈ roleCombinations) (.malformed 0 (.rolesCombination name parsed))
    pure (some parsed)
  | some other => .error (typeMismatch rolesKey other "ARRAY")
  | none => pure none

/-- The regions that are declared are those of the entry. -/
def validateExplicitRegions (expected : List UInt64) : Except FormatError Unit :=
  let regionsKey := tensorKey name "regions"
  match lookup regionsKey with
  | some val => do
    let explicit ← parseExplicitRegions val regionsKey name
    ensure (explicit = expected) (.malformed 0 (.regionMismatch name explicit expected))
  | none => pure ()

def validateExplicitRegionsRetained (entryBytes : ℕ) : Except FormatError Unit :=
  validateExplicitRegions lookup name [0, entryBytes.toUInt64, entryBytes.toUInt64]

/-- Whether a tensor is sparse. -/
def isSparse : Except FormatError Bool :=
  let sparseKey := tensorKey name "sparse"
  match lookup sparseKey with
  | some (.str s) =>
    if s.bytes = utf8 "none" then pure false
    else if s.bytes = utf8 "s24" then pure true
    else .error (.malformed 0 (.sparseValue name s.bytes))
  | some other => .error (typeMismatch sparseKey other "STRING")
  | none => pure false

/-- A tensor that keeps its type has no scheme and is not sparse. -/
def checkUnquantized (dtype : TensorType) : Except FormatError Unit := do
  ensure ((lookup (tensorKey name "scheme")).isNone)
    (.malformed 0 (.unquantizedScheme name dtype.name))
  let sparse ← isSparse lookup name
  ensure (¬sparse) (.malformed 0 (.unquantizedSparse name))

end Metadata

/-! ### Layouts -/

/-- The layout by the roles of a tensor. A table that is tied to the head is stored once. -/
def layoutOfRoles (roles : List Role) : Layout :=
  if roles = [.embed, .lmHead] then .l1
  else if .embed ∈ roles ∨ .ngramTable ∈ roles ∨ .vector ∈ roles then .l0
  else .l1

def asciiLower (text : Bytes) : Bytes :=
  text.map fun b => if 0x41 ≤ b ∧ b ≤ 0x5A then b + 0x20 else b

/-- The layout of a file, for the tensors without roles. -/
def fileLayout (lookup : Bytes → Option KvValue) : Except FormatError Layout :=
  match lookup layoutKey with
  | some (.str s) =>
    if asciiLower s.bytes = utf8 "l0" then pure .l0
    else if asciiLower s.bytes = utf8 "l1s" then pure .l1s
    else if asciiLower s.bytes = utf8 "l1" then pure .l1
    else .error (.unknownLayout (textOf s.bytes))
  | some other => .error (typeMismatch layoutKey other "STRING")
  | none => .error (.missingKey layoutKey)

section Dims

variable (name : Bytes) (dims : List UInt64)

/-- A vector has the role of one. -/
def checkVectorRole (roles : Option (List Role)) : Except FormatError Unit :=
  match roles with
  | some roles =>
    ensure (¬(dims.length = 1 ∧ roles ≠ [.vector])) (.malformed 0 (.vectorRole name roles))
  | none => pure ()

/-- The columns of a tensor. -/
def tensorK : Except FormatError ℕ :=
  okOr (narrow 32 (dims.headD 0).toNat)
    (.overflow "tensor k dim" s!"tensor {repr (textOf name)} dim[0]={dims.headD 0}")

/-- The rows of a tensor. -/
def tensorN : Except FormatError ℕ :=
  if dims.length = 1 then pure 1
  else do
    let prod ← okOr (checkedProd dims.tail)
      (.overflow "tensor n dims product" s!"tensor {repr (textOf name)}")
    okOr (narrow 32 prod)
      (.overflow "tensor n dim" s!"tensor {repr (textOf name)} product={prod}")

/-- The layout of a tensor of a scheme: by its sparsity, its rank and its roles, and otherwise
`fallback`. -/
def r9vLayout (lookup : Bytes → Option KvValue) (scheme : SchemeId)
    (fallback : Except FormatError Layout) : Except FormatError Layout := do
  let sparse ← isSparse lookup name
  let roles ← parseTensorRoles lookup name
  ensure (¬(dims.length = 1 ∧ sparse)) (.malformed 0 (.sparseVector name))
  checkVectorRole name dims roles
  if sparse then
    match roles with
    | some roles => ensure (roles = [.matmul]) (.malformed 0 (.sparseRole name roles))
    | none => pure ()
    ensure (scheme = .i8R ∨ scheme = .i8B128 ∨ scheme = .i4K ∨ scheme = .e4m3B128)
      (.unsupportedLayout scheme.name Layout.l1s.name)
    pure .l1s
  else if dims.length = 1 then pure .l0
  else
    match roles with
    | some roles => pure (layoutOfRoles roles)
    | none => fallback

/-- The error of a tensor that keeps its type in a sparse layout. -/
def halfUnsupported (dtype : TensorType) : FormatError :=
  .unsupportedLayout (if dtype = .f16 then "f16" else if dtype =
    .bf16 then "bf16" else "unquantized")
    Layout.l1s.name

/-- The layout of a tensor of half-precision numbers. -/
def halfLayout (lookup : Bytes → Option KvValue) (fallback : Except FormatError Layout) :
    Except FormatError Layout := do
  let roles ← parseTensorRoles lookup name
  checkVectorRole name dims roles
  if dims.length = 1 then pure .l0
  else
    match roles with
    | some roles => pure (layoutOfRoles roles)
    | none => fallback

/-- Rounds the bytes of an entry up to pages. -/
def paddedEntry (valuesBytes : ℕ) : Except FormatError ℕ :=
  okOr (alignUp valuesBytes nativeAlignment)
    (.overflow "tensor entry_bytes" s!"values_bytes={valuesBytes}")

/-- The bytes of rows of numbers of `width` bytes. -/
def rowsEntry (elems : Option ℕ) (width : ℕ) (what : String) : Except FormatError ℕ := do
  let elems ← okOr elems (.overflow what s!"tensor {repr (textOf name)}")
  let valuesBytes ← okOr (mul 64 elems width)
    (.overflow "tensor values_bytes" s!"tensor {repr (textOf name)}")
  paddedEntry valuesBytes

/-- The bytes of an entry of half-precision numbers. -/
def halfEntry (dtype : TensorType) (what : String) : Layout → Except FormatError ℕ
  | .l0 => rowsEntry name (checkedProd dims) 2 what
  | .l1 => do
    let k ← tensorK name dims
    let n ← tensorN name dims
    let padded ← PaddedDims.new n k none
    let valuesBytes ← padded.valueRegionBytes .half16
    paddedEntry valuesBytes
  | .l1s => .error (halfUnsupported dtype)

/-- A tensor of single-precision numbers is a vector. -/
def checkF32 (lookup : Bytes → Option KvValue) : Except FormatError Unit := do
  ensure (dims.length = 1) (.malformed 0 (.f32Rank name dims.length))
  match ← parseTensorRoles lookup name with
  | some roles => ensure (roles = [.vector]) (.malformed 0 (.f32Roles name roles))
  | none => .error (.malformed 0 (.f32Role name))

end Dims

/-! ### Sizes -/

section Nbytes

variable (lookup : Bytes → Option KvValue) (info : TensorInfo)

/-- The bytes of a tensor of a scheme. -/
def r9vNbytes (scheme : SchemeId) : Except FormatError ℕ := do
  let name := info.name.bytes
  checkR9vTensorScheme lookup name scheme
  let k ← tensorK name info.dims
  let n ← tensorN name info.dims
  let layout ← r9vLayout name info.dims lookup scheme (fileLayout lookup)
  let regions ← entryRegions scheme layout n k
  validateExplicitRegions lookup name regions.offsets
  pure regions.entryBytes

/-- The bytes of a tensor of half-precision numbers. -/
def halfNbytes : Except FormatError ℕ := do
  let name := info.name.bytes
  checkUnquantized lookup name info.dtype
  let fallback := do
    match ← fileLayout lookup with
    | .l1s => .error (halfUnsupported info.dtype)
    | layout => pure layout
  let layout ← halfLayout name info.dims lookup fallback
  let entryBytes ← halfEntry name info.dims info.dtype "tensor n_elems" layout
  validateExplicitRegionsRetained lookup name entryBytes
  pure entryBytes

/-- The bytes of a tensor of single-precision numbers. -/
def f32Nbytes : Except FormatError ℕ := do
  let name := info.name.bytes
  checkUnquantized lookup name info.dtype
  checkF32 name info.dims lookup
  let entryBytes ← rowsEntry name info.nElems 4 "tensor n_elems"
  validateExplicitRegionsRetained lookup name entryBytes
  pure entryBytes

/-- The bytes of a tensor of a native container. -/
def nativeNbytes : Except FormatError ℕ := do
  ensure (info.dims ≠ []) (.malformed 0 (.noDims info.name.bytes))
  ensure (0 ∉ info.dims) (.malformed 0 (.zeroDim info.name.bytes info.dims))
  match info.dtype with
  | .r9v scheme => r9vNbytes lookup info scheme
  | .f16 | .bf16 => halfNbytes lookup info
  | .f32 => f32Nbytes lookup info
  | dtype => .error (.malformed 0 (.unsupportedType dtype.name info.name.bytes))

/-- The bytes of a tensor on the wire. -/
def standardNbytes : Except FormatError ℕ :=
  let name := info.name.bytes
  match info.dtype.dataNbytes info.dims with
  | some nbytes => pure nbytes
  | none =>
    if info.dims = [] then .error (.malformed 0 (.noDims name))
    else if 0 ∈ info.dims then .error (.malformed 0 (.zeroDim name info.dims))
    else
      match info.dtype.quantSize with
      | some (blockLen, _) =>
        if blockLen = 0 ∨ (info.dims.headD 0).toNat % blockLen ≠ 0 then
          .error (.malformed 0 (.blockMultiple name info.dtype.name (info.dims.headD 0) blockLen))
        else
          .error (.malformed 0 (.wholeBlocks name info.dtype.name (info.nElems.getD (2 ^ 64 - 1))))
      | none => .error (.malformed 0 (.noBlockSize name info.dtype.name))

/-- The bytes of a tensor. -/
def tensorNbytes (native : Bool) : Except FormatError ℕ :=
  match info.dtype with
  | .unknown code => .error (.unknownTensorType code info.name.bytes)
  | _ => if native then nativeNbytes lookup info else standardNbytes info

end Nbytes

end R9v.Format

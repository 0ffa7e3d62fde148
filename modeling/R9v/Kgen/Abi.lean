import R9v.Lib.CRecord
import R9v.Ir.Graph
import R9v.Registry.Manifest

/-!
# Kernel argument records

The arguments of a kernel are passed as one record (`r9v-kgen/src/abi/types.rs`), which is
written twice: as a structure of the device's C++ and as a structure of Rust
(`abi/emitter.rs`). The offsets of the fields, the size and the alignment of the record are
declared; the two compilers work them out again from the members that are written
(`AbiStruct.hipLayout`, `AbiStruct.rustLayout`). This file gives the records, the checks of
a record, and what is written for it. Both lists of members have the declared sizes and
alignments (`hipLayout_eq`, `rustLayout_eq`).
-/

namespace R9v

open CRecord

/-! ### Types of fields -/

/-- The bytes at which a kernel assumes a pointer to be aligned. -/
def kernelPtrAlignmentBytes : ℕ := 256

inductive PointeeType
  | void | u8 | i8 | u16 | i16 | f16 | bf16 | f32 | u32 | i32 | u64 | i64
  deriving DecidableEq

namespace PointeeType

def hipTypeName : PointeeType → String
  | void => "void"
  | u8 => "uint8_t"
  | i8 => "int8_t"
  | u16 => "uint16_t"
  | i16 => "int16_t"
  | f16 => "__half"
  | bf16 => "hip_bfloat16"
  | f32 => "float"
  | u32 => "uint32_t"
  | i32 => "int32_t"
  | u64 => "uint64_t"
  | i64 => "int64_t"

def rustTypeName : PointeeType → String
  | void => "std::ffi::c_void"
  | u8 => "u8"
  | i8 => "i8"
  | u16 => "u16"
  | i16 => "i16"
  | f16 => "u16"
  | bf16 => "u16"
  | f32 => "f32"
  | u32 => "u32"
  | i32 => "i32"
  | u64 => "u64"
  | i64 => "i64"

end PointeeType

inductive ScalarType
  | u32 | i32 | u64 | i64 | f32
  deriving DecidableEq

namespace ScalarType

def sizeBytes : ScalarType → ℕ
  | u32 | i32 | f32 => 4
  | u64 | i64 => 8

def alignBytes (s : ScalarType) : ℕ := s.sizeBytes

def hipTypeName : ScalarType → String
  | u32 => "uint32_t"
  | i32 => "int32_t"
  | u64 => "uint64_t"
  | i64 => "int64_t"
  | f32 => "float"

def rustTypeName : ScalarType → String
  | u32 => "u32"
  | i32 => "i32"
  | u64 => "u64"
  | i64 => "i64"
  | f32 => "f32"

end ScalarType

/-- The type of a field: a pointer into device memory, or a number. -/
inductive AbiType
  | pointer (pointee : PointeeType) (isConst isRestrict isNullable : Bool)
      (assumeAlignedBytes : ℕ)
  | scalar (s : ScalarType)
  deriving DecidableEq

namespace AbiType

def sizeBytes : AbiType → ℕ
  | pointer .. => 8
  | scalar s => s.sizeBytes

def alignBytes : AbiType → ℕ
  | pointer .. => 8
  | scalar s => s.alignBytes

def isPointer : AbiType → Bool
  | pointer .. => true
  | scalar _ => false

def isNullable : AbiType → Bool
  | pointer _ _ _ nullable _ => nullable
  | scalar _ => false

def assumeAlignedBytes : AbiType → Option ℕ
  | pointer _ _ _ _ bytes => some bytes
  | scalar _ => none

def constPtr (pointee : PointeeType) : AbiType :=
  pointer pointee true true false kernelPtrAlignmentBytes

def mutPtr (pointee : PointeeType) : AbiType :=
  pointer pointee false true false kernelPtrAlignmentBytes

/-- What a compiler is to make of a field. -/
def member (ty : AbiType) : Member := ⟨ty.sizeBytes, ty.alignBytes⟩

theorem alignBytes_cases (ty : AbiType) : ty.alignBytes = 4 ∨ ty.alignBytes = 8 := by
  rcases ty with _ | (_ | _ | _ | _ | _) <;> simp [alignBytes, ScalarType.alignBytes, ScalarType.sizeBytes]

theorem sizeBytes_eq (ty : AbiType) : ty.sizeBytes = ty.alignBytes := by
  rcases ty with _ | s
  · rfl
  · rfl

theorem alignBytes_pos (ty : AbiType) : 0 < ty.alignBytes := by
  rcases ty.alignBytes_cases with h | h <;> omega

end AbiType

/-! ### Fields -/

inductive BatchMetaField
  | seqIds | queryLen | ctxLen | positions | slotMap | blockTable | windowStart | treeParents
  | treeAncestors
  deriving DecidableEq

/-- What a field is for. -/
inductive FieldRole
  | inputTensor | outputTensor | weight | weightScale | weightIndices | activationScale | bias
  | residual | workspace
  | batchMeta (field : BatchMetaField)
  | dynamicScalar
  deriving DecidableEq

structure AbiField where
  name : String
  ty : AbiType
  role : FieldRole
  offset : ℕ
  doc : String
  deriving DecidableEq

namespace AbiField

def size (f : AbiField) : ℕ := f.ty.sizeBytes

/-- A field where it is declared to be. -/
def slot (f : AbiField) : ℕ × Member := (f.offset, f.ty.member)

end AbiField

inductive WorkspaceSlotKind
  | splitKPartials | splitKvPartials | moeSortBuffers | collectiveStaging | bitonicSort | scanCarry
  deriving DecidableEq

structure WorkspaceSlot where
  kind : WorkspaceSlotKind
  slotIndex : ℕ
  elementDtype : DType
  description : String
  deriving DecidableEq

/-- The record of the arguments of a kernel. -/
structure AbiStruct where
  name : String
  op : OpId
  fields : List AbiField
  size : ℕ
  alignment : ℕ
  workspaceSlots : List WorkspaceSlot
  batchMetaFields : List BatchMetaField
  deriving DecidableEq

inductive KgenError
  | validationFailed (problems : List String)
  | arithmeticOverflow (context : String) (lhs : ℕ) (op : String) (rhs : ℕ)
  deriving DecidableEq

/-! ### Checks -/

def isValidIdent (s : String) : Bool :=
  match s.toList with
  | first :: rest => (first.isAlpha || first == '_') && rest.all fun c => c.isAlphanum || c == '_'
  | [] => false

/-- A problem, when there is one. -/
def complain (bad : Prop) [Decidable bad] (problem : String) : List String :=
  if bad then [problem] else []

@[simp] theorem complain_eq_nil {bad : Prop} [Decidable bad] {problem : String} :
    complain bad problem = [] ↔ ¬bad := by
  simp [complain]

section Checks

variable (struct : String) (f : AbiField)

/-- The checks of a field that must be a pointer, and not a nullable one. -/
def devicePointerProblems (what : String) : List String :=
  complain f.ty.isNullable s!"{what} field '{f.name}' in struct '{struct}' cannot be nullable" ++
    complain (!f.ty.isPointer)
      s!"{what} field '{f.name}' in struct '{struct}' must be a device pointer"

/-- What is wrong with the role of a field. -/
def roleProblems : List String :=
  (match f.role with
    | .dynamicScalar =>
      complain f.ty.isPointer
        s!"dynamic scalar field '{f.name}' in struct '{struct}' cannot be a pointer" ++
        complain f.ty.isNullable
          s!"dynamic scalar field '{f.name}' in struct '{struct}' cannot be nullable"
    | .outputTensor => devicePointerProblems struct f "output tensor"
    | .workspace => devicePointerProblems struct f "workspace"
    | .batchMeta _ => devicePointerProblems struct f "batch meta"
    | _ => []) ++
    complain (!f.ty.isPointer ∧ f.role ≠ .dynamicScalar)
      s!"scalar field '{f.name}' in struct '{struct}' must have DynamicScalar role"

/-- What is wrong with the alignment that a pointer assumes. -/
def pointerProblems : List String :=
  complain (f.ty.isPointer ∧ f.ty.alignBytes ≠ 8)
    (s!"pointer field '{f.name}' in struct '{struct}' has struct alignment " ++
      s!"{f.ty.alignBytes} B, expected natural C pointer alignment 8 B") ++
    match f.ty.assumeAlignedBytes with
    | some assumed => complain (assumed ≠ kernelPtrAlignmentBytes)
        (s!"pointer field '{f.name}' in struct '{struct}' assumes alignment of {assumed} B, " ++
          s!"expected {kernelPtrAlignmentBytes} B per Spec 4 §7")
    | none => []

/-- What is wrong with the fields, after fields with the names `seen`. -/
def fieldProblems : List String → ℕ → List AbiField → List String
  | _, _, [] => []
  | seen, i, f :: fs =>
    complain (f.name ∈ seen) s!"duplicate field name '{f.name}' in struct '{struct}'" ++
      complain (!isValidIdent f.name)
        s!"field {i} ('{f.name}') in struct '{struct}' is not a valid identifier" ++
      complain (f.offset % f.ty.alignBytes ≠ 0)
        (s!"field '{f.name}' at offset {f.offset} is not aligned to its requirement of " ++
          s!"{f.ty.alignBytes} bytes") ++
      pointerProblems struct f ++ roleProblems struct f ++
      fieldProblems (f.name :: seen) (i + 1) fs

/-- Where the fields start and end, and the fields that end out of bounds. -/
def fieldSpans : List AbiField → List (ℕ × ℕ × String) × List String
  | [] => ([], [])
  | f :: fs =>
    let (spans, problems) := fieldSpans fs
    match Checked.add 64 f.offset f.ty.sizeBytes with
    | some stop => ((f.offset, stop, f.name) :: spans, problems)
    | none => (spans, s!"field '{f.name}' offset overflow in struct '{struct}'" :: problems)

/-- The overlaps of fields in the order of their offsets, and where the last of them ends. -/
def overlapProblems : ℕ → List (ℕ × ℕ × String) → ℕ × List String
  | maxEnd, [] => (maxEnd, [])
  | maxEnd, (start, stop, name) :: spans =>
    let (last, problems) := overlapProblems (max maxEnd stop) spans
    (last, complain (start < maxEnd)
      (s!"field '{name}' at offset {start}..{stop} overlaps previous field ending at {maxEnd} " ++
        s!"in struct '{struct}'") ++ problems)

end Checks

namespace AbiStruct

/-- What is wrong with the size and the alignment of a record whose fields end at `maxEnd`. -/
def extentProblems (s : AbiStruct) (maxEnd : ℕ) : List String :=
  complain (s.alignment = 0 ∨ s.alignment &&& (s.alignment - 1) ≠ 0)
    s!"struct alignment {s.alignment} is not a power of two" ++
    complain (s.alignment > 0 ∧ ¬s.alignment ∣ s.size)
      s!"struct size {s.size} is not a multiple of its alignment {s.alignment}" ++
    complain (s.size < maxEnd)
      s!"struct size {s.size} is smaller than total field extent {maxEnd}"

def problems (s : AbiStruct) : List String :=
  let (spans, overflows) := fieldSpans s.name s.fields
  let (maxEnd, overlaps) :=
    overlapProblems s.name 0 (spans.mergeSort fun a b => decide (a.1 ≤ b.1))
  complain (!isValidIdent s.name) s!"struct name '{s.name}' is not a valid identifier" ++
    complain (s.fields = []) s!"struct '{s.name}' has no fields" ++
    fieldProblems s.name [] 0 s.fields ++ overflows ++ overlaps ++ s.extentProblems maxEnd

def validate (s : AbiStruct) : Except KgenError Unit :=
  match s.problems with
  | [] => .ok ()
  | problems => .error (.validationFailed problems)

theorem validate_eq_ok {s : AbiStruct} : s.validate = .ok () ↔ s.problems = [] := by
  unfold validate
  split <;> simp_all

end AbiStruct

/-! ### What is written -/

/-- The type that is written for a member in C++. -/
def AbiType.hipDecl : AbiType → String
  | .pointer pointee isConst isRestrict _ _ =>
    (if isConst then "const " else "") ++ pointee.hipTypeName ++ "*" ++
      (if isRestrict then " __restrict__" else "")
  | .scalar s => s.hipTypeName

/-- The type that is written for a member in Rust. -/
def AbiType.rustDecl : AbiType → String
  | .pointer pointee isConst _ _ _ =>
    (if isConst then "*const" else "*mut") ++ " " ++ pointee.rustTypeName
  | .scalar s => s.rustTypeName

namespace AbiStruct

variable (s : AbiStruct)

/-- The members that are written in C++, with their types. -/
def hipMembers : List (String × String) := s.fields.map fun f => (f.ty.hipDecl, f.name)

/-- The members that are written in Rust, with their types. -/
def rustMembers : List (String × String) := s.fields.map fun f => (f.ty.rustDecl, f.name)

/-- Writes the record in C++. -/
def emitHipStruct : String :=
  s!"// ABI argument struct for op '{s.op.asStr}' (Spec 4 §7).\n" ++
    "// Generated by r9v-kgen. DO NOT HAND-EDIT.\n" ++ s!"struct {s.name} " ++ "\x7b\n" ++
    String.join (List.zipWith (fun f m =>
      s!"    // Offset: {f.offset} B, Size: {f.size} B. {f.doc}\n" ++ s!"    {m.1} {m.2};\n")
      s.fields s.hipMembers) ++ "\x7d;\n"

/-- Writes the record in Rust. -/
def emitRustStruct : String :=
  s!"/// ABI argument struct for op `{s.op.asStr}` (Spec 4 §7).\n" ++ "///\n" ++
    s!"/// Total size: {s.size} bytes, alignment: {s.alignment} bytes.\n" ++
    "/// Generated by r9v-kgen. DO NOT HAND-EDIT.\n" ++ "#[repr(C)]\n" ++
    "#[derive(Debug, Clone, Copy, PartialEq)]\n" ++ "#[allow(non_camel_case_types)]\n" ++
    s!"pub struct {s.name} " ++ "\x7b\n" ++
    String.join (List.zipWith (fun f m =>
      s!"    /// Offset: {f.offset} B. {f.doc}\n" ++ s!"    pub {m.2}: {m.1},\n")
      s.fields s.rustMembers) ++ "\x7d\n"

end AbiStruct

/-! ### What the compilers make of it -/

/-- The sizes of the types of C++ on the device: a declarator with a star is a pointer. -/
def hipMember (decl : String) : Option Member :=
  if decl.toList.contains '*' then some ⟨8, 8⟩
  else if decl ∈ ["uint32_t", "int32_t", "float"] then some ⟨4, 4⟩
  else if decl ∈ ["uint64_t", "int64_t"] then some ⟨8, 8⟩
  else none

/-- The sizes of the types of Rust. -/
def rustMember (decl : String) : Option Member :=
  if decl.toList.contains '*' then some ⟨8, 8⟩
  else if decl ∈ ["u32", "i32", "f32"] then some ⟨4, 4⟩
  else if decl ∈ ["u64", "i64"] then some ⟨8, 8⟩
  else none

theorem hipMember_hipDecl (ty : AbiType) : hipMember ty.hipDecl = some ty.member := by
  rcases ty with ⟨pointee, isConst, isRestrict, isNullable, bytes⟩ | s
  · have hstar : (AbiType.hipDecl (.pointer pointee isConst isRestrict isNullable bytes)).toList
        |>.contains '*' := by
      simp [AbiType.hipDecl, String.toList_append]
    exact if_pos hstar
  · cases s <;> decide

theorem rustMember_rustDecl (ty : AbiType) : rustMember ty.rustDecl = some ty.member := by
  rcases ty with ⟨pointee, isConst, isRestrict, isNullable, bytes⟩ | s
  · have hstar : (AbiType.rustDecl (.pointer pointee isConst isRestrict isNullable bytes)).toList
        |>.contains '*' := by
      cases isConst <;> simp [AbiType.rustDecl, String.toList_append]
    exact if_pos hstar
  · cases s <;> decide

namespace AbiStruct

variable (s : AbiStruct)

/-- The members of the structure of C++, as its compiler sees them. -/
def hipLayout : Option (List Member) := s.hipMembers.mapM fun m => hipMember m.1

/-- The members of the structure of Rust, as its compiler sees them. -/
def rustLayout : Option (List Member) := s.rustMembers.mapM fun m => rustMember m.1

/-- The declared members. -/
def members : List Member := s.fields.map (·.ty.member)

/-- The declarations are what a compiler makes of the members. -/
structure Matches (ms : List Member) : Prop where
  offsets : CRecord.offsets ms = s.fields.map (·.offset)
  size : CRecord.size ms = s.size
  alignment : CRecord.alignment ms = s.alignment

/-- The two compilers agree with the declarations. -/
def Agrees : Prop :=
  (∃ ms, s.hipLayout = some ms ∧ s.Matches ms) ∧ ∃ ms, s.rustLayout = some ms ∧ s.Matches ms

theorem hipLayout_eq : s.hipLayout = some s.members := by
  unfold hipLayout hipMembers members
  induction s.fields with
  | nil => rfl
  | cons f fs ih => simp [hipMember_hipDecl, ih]

theorem rustLayout_eq : s.rustLayout = some s.members := by
  unfold rustLayout rustMembers members
  induction s.fields with
  | nil => rfl
  | cons f fs ih => simp [rustMember_rustDecl, ih]

theorem agrees_iff : s.Agrees ↔ s.Matches s.members := by
  simp [Agrees, hipLayout_eq, rustLayout_eq]

end AbiStruct

end R9v

import R9v.Kgen.Abi
import Mathlib.Algebra.BigOperators.Group.List.Basic
import Mathlib.Data.List.Sort

/-!
# The placement of arguments

The builder of argument records (`r9v-kgen/src/abi/layout.rs`) places the fields with the
largest alignments first, so that no padding is needed between them, and checks the record it
made. Every sensible list of fields gives a record whose declarations both compilers agree with.
The checks alone do not ensure that: a record that was made in another way and passes them
agrees with the compilers exactly when its fields are listed in the order of their offsets, with
gaps smaller than the alignment of the field that follows, and its alignment and size are no
larger than they have to be (`arguments_agree`).
-/

namespace R9v

open Checked CRecord List

/-! ### The builder -/

/-- A field before it is placed. -/
structure FieldSpec where
  name : String
  ty : AbiType
  role : FieldRole
  doc : String
  deriving DecidableEq

/-- The bytes that a field takes in a vector: its two strings alone have 24 bytes each. -/
def fieldSpecBytes : ℕ := 48

/-- A vector of fields, which has less than `2^63` bytes. -/
structure RawFields where
  list : List FieldSpec
  short : list.length * fieldSpecBytes < 2 ^ 63

structure AbiStructBuilder where
  name : String
  op : OpId
  rawFields : RawFields
  workspaceSlots : List WorkspaceSlot
  batchMetaFields : List BatchMetaField

/-- The order of placement: larger alignments first, then the order of declaration. -/
def placedBefore (a b : FieldSpec × ℕ) : Bool :=
  b.1.ty.alignBytes < a.1.ty.alignBytes ||
    (a.1.ty.alignBytes == b.1.ty.alignBytes && decide (a.2 ≤ b.2))

/-- The fields that are placed so far. -/
structure Placed where
  currentOffset : ℕ
  maxAlign : ℕ
  placedFields : List AbiField

/-- Places a field. -/
def Placed.push (p : Placed) (spec : FieldSpec) : Except KgenError Placed := do
  let fieldAlign := spec.ty.alignBytes
  let padding := pad p.currentOffset fieldAlign
  let fieldOffset ← okOr (add 64 p.currentOffset padding)
    (.arithmeticOverflow "field alignment padding" p.currentOffset "+" padding)
  let nextOffset ← okOr (add 64 fieldOffset spec.ty.sizeBytes)
    (.arithmeticOverflow "field size addition" fieldOffset "+" spec.ty.sizeBytes)
  pure
    { currentOffset := nextOffset
      maxAlign := max p.maxAlign fieldAlign
      placedFields := p.placedFields ++ [⟨spec.name, spec.ty, spec.role, fieldOffset, spec.doc⟩] }

namespace AbiStructBuilder

variable (b : AbiStructBuilder)

/-- The fields in the order of placement. -/
def sortedFields : List FieldSpec :=
  (b.rawFields.list.zipIdx.mergeSort placedBefore).map (·.1)

/-- Places the fields and checks the record. -/
def build : Except KgenError AbiStruct := do
  let p ← b.sortedFields.foldlM Placed.push ⟨0, 1, []⟩
  let tailPad := pad p.currentOffset p.maxAlign
  let totalSize ← okOr (add 64 p.currentOffset tailPad)
    (.arithmeticOverflow "struct tail padding" p.currentOffset "+" tailPad)
  let s : AbiStruct :=
    { name := b.name
      op := b.op
      fields := p.placedFields
      size := totalSize
      alignment := p.maxAlign
      workspaceSlots := b.workspaceSlots
      batchMetaFields := b.batchMetaFields }
  s.validate
  pure s

end AbiStructBuilder

/-- A field without its place. -/
def AbiField.spec (f : AbiField) : FieldSpec := ⟨f.name, f.ty, f.role, f.doc⟩

/-! ### Placement -/

section Placement

variable {specs : List FieldSpec} {p : Placed} {f : AbiField} {b : AbiStructBuilder}

theorem sortedFields_perm : b.sortedFields.Perm b.rawFields.list := by
  have hperm := (mergeSort_perm b.rawFields.list.zipIdx placedBefore).map (·.1)
  rwa [zipIdx_map_fst] at hperm

theorem sortedFields_pairwise :
    b.sortedFields.Pairwise fun s t => t.ty.alignBytes ≤ s.ty.alignBytes := by
  refine pairwise_map.mpr ((pairwise_mergeSort ?_ ?_ _).imp fun {s t} h => ?_)
  · simp only [placedBefore, Bool.or_eq_true, decide_eq_true_eq, Bool.and_eq_true, beq_iff_eq] at *
    omega
  · simp only [placedBefore, Bool.or_eq_true, decide_eq_true_eq, Bool.and_eq_true, beq_iff_eq]
    omega
  · simp only [placedBefore, Bool.or_eq_true, decide_eq_true_eq, Bool.and_eq_true, beq_iff_eq] at h
    omega

theorem mod_alignBytes {s t : AbiType} (h : t.alignBytes ≤ s.alignBytes) {n : ℕ}
    (hn : n % s.alignBytes = 0) : (n + s.sizeBytes) % t.alignBytes = 0 := by
  rw [s.sizeBytes_eq]
  rcases s.alignBytes_cases with hs | hs <;> rcases t.alignBytes_cases with ht | ht <;>
    rw [hs] at hn h ⊢ <;> rw [ht] at h ⊢ <;> omega

/-- **Placing fields** whose alignments only get smaller leaves no padding between them. -/
theorem foldlM_push (hp : ∀ s ∈ specs, p.currentOffset % s.ty.alignBytes = 0)
    (hdesc : specs.Pairwise fun s t => t.ty.alignBytes ≤ s.ty.alignBytes)
    (hfit : p.currentOffset + (specs.map (·.ty.sizeBytes)).sum < 2 ^ 64) :
    ∃ fs : List AbiField, specs.foldlM Placed.push p =
        .ok ⟨p.currentOffset + (specs.map (·.ty.sizeBytes)).sum,
          (specs.map (·.ty.alignBytes)).foldl max p.maxAlign, p.placedFields ++ fs⟩ ∧
      fs.map AbiField.spec = specs ∧ PackedFrom p.currentOffset (fs.map AbiField.slot) ∧
      ∀ f ∈ fs, f.offset % f.ty.alignBytes = 0 := by
  induction specs generalizing p with
  | nil => exact ⟨[], by simp [pure, Except.pure], rfl, trivial, by simp⟩
  | cons s specs ih =>
    obtain ⟨hle, hdesc⟩ := pairwise_cons.mp hdesc
    rw [map_cons, sum_cons] at hfit ⊢
    have hmod := hp s mem_cons_self
    have hpush : p.push s = .ok ⟨p.currentOffset + s.ty.sizeBytes, max p.maxAlign s.ty.alignBytes,
        p.placedFields ++ [⟨s.name, s.ty, s.role, p.currentOffset, s.doc⟩]⟩ := by
      simp only [Placed.push, pad_eq_zero hmod]
      rw [add_of_lt (by omega), okOr_some, ok_bind, add_of_lt (by omega), okOr_some, ok_bind]
      rfl
    obtain ⟨fs, hfs, hspecs, hpacked, hoff⟩ := ih
      (p := ⟨p.currentOffset + s.ty.sizeBytes, max p.maxAlign s.ty.alignBytes,
        p.placedFields ++ [⟨s.name, s.ty, s.role, p.currentOffset, s.doc⟩]⟩)
      (fun t ht => mod_alignBytes (hle t ht) hmod) hdesc (by simpa [Nat.add_assoc] using hfit)
    refine ⟨⟨s.name, s.ty, s.role, p.currentOffset, s.doc⟩ :: fs, ?_, ?_, ⟨rfl, hpacked⟩,
      forall_mem_cons.mpr ⟨hmod, hoff⟩⟩
    · rw [foldlM_cons, hpush, ok_bind, hfs, Nat.add_assoc, append_assoc]
      rfl
    · rw [map_cons, hspecs]
      rfl

end Placement

/-! ### Sensible fields -/

/-- A field whose role and type go together. -/
def FieldSpec.Consistent (s : FieldSpec) : Prop :=
  (s.ty.isPointer → s.ty.assumeAlignedBytes = some kernelPtrAlignmentBytes) ∧
    match s.role with
    | .dynamicScalar => ¬s.ty.isPointer
    | .outputTensor | .workspace | .batchMeta _ => s.ty.isPointer ∧ ¬s.ty.isNullable
    | _ => s.ty.isPointer

/-- Fields that make up a record. -/
structure AbiStructBuilder.WellFormed (b : AbiStructBuilder) : Prop where
  name : isValidIdent b.name
  nonempty : b.rawFields.list ≠ []
  names : ∀ s ∈ b.rawFields.list, isValidIdent s.name
  nodup : (b.rawFields.list.map (·.name)).Nodup
  consistent : ∀ s ∈ b.rawFields.list, s.Consistent

section Sensible

variable {struct : String} {f : AbiField} {fs : List AbiField}

theorem pointerProblems_eq_nil : pointerProblems struct f = [] ↔
    (f.ty.isPointer → f.ty.assumeAlignedBytes = some kernelPtrAlignmentBytes) := by
  cases h : f.ty with
  | pointer => simp [pointerProblems, h, AbiType.alignBytes, AbiType.isPointer,
      AbiType.assumeAlignedBytes]
  | scalar => simp [pointerProblems, h, AbiType.isPointer, AbiType.assumeAlignedBytes]

theorem isNullable_of_not_pointer {ty : AbiType} (h : ¬ty.isPointer) : ¬ty.isNullable := by
  cases ty with
  | pointer => exact absurd rfl h
  | scalar => exact Bool.false_ne_true

theorem devicePointerProblems_eq_nil {what : String} :
    devicePointerProblems struct f what = [] ↔ f.ty.isPointer ∧ ¬f.ty.isNullable := by
  simp [devicePointerProblems, and_comm]

theorem problems_of_role : pointerProblems struct f = [] ∧ roleProblems struct f = [] ↔
    f.spec.Consistent := by
  rw [pointerProblems_eq_nil, FieldSpec.Consistent, AbiField.spec]
  have hscalar := @isNullable_of_not_pointer f.ty
  cases h : f.role <;> simp [roleProblems, h, devicePointerProblems_eq_nil]
  all_goals grind

theorem fieldProblems_eq_nil {seen : List String} {i : ℕ} :
    fieldProblems struct seen i fs = [] ↔
      (fs.map (·.name)).Nodup ∧ ∀ f ∈ fs, f.name ∉ seen ∧ isValidIdent f.name ∧
        f.offset % f.ty.alignBytes = 0 ∧ f.spec.Consistent := by
  induction fs generalizing seen i with
  | nil => simp [fieldProblems]
  | cons f fs ih =>
    have hrole := @problems_of_role struct f
    simp only [fieldProblems, append_eq_nil_iff, ih, complain_eq_nil, map_cons,
      nodup_cons, mem_cons, mem_map]
    grind

end Sensible

/-! ### Packed fields pass the checks -/

section Packed

variable {struct : String} {fs : List AbiField} {n : ℕ}

/-- Where a field starts and ends. -/
def AbiField.span (f : AbiField) : ℕ × ℕ × String := (f.offset, f.offset + f.ty.sizeBytes, f.name)

theorem fieldSpans_of_packed (h : PackedFrom n (fs.map AbiField.slot))
    (hfit : lastEnd n (fs.map AbiField.slot) < 2 ^ 64) :
    fieldSpans struct fs = (fs.map AbiField.span, []) := by
  induction fs generalizing n with
  | nil => rfl
  | cons f fs ih =>
    obtain ⟨rfl, hrest⟩ := h
    have hle : f.offset + f.ty.member.size ≤
        lastEnd (f.offset + f.ty.member.size) (fs.map AbiField.slot) := by
      rw [hrest.lastEnd_eq]
      exact Nat.le_add_right _ _
    have hend : f.offset + f.ty.sizeBytes < 2 ^ 64 := lt_of_le_of_lt hle hfit
    simp only [fieldSpans, ih hrest hfit, add_of_lt hend]
    rfl

theorem pairwise_of_packed (h : PackedFrom n (fs.map AbiField.slot)) :
    (fs.map AbiField.span).Pairwise fun a b => decide (a.1 ≤ b.1) := by
  induction fs generalizing n with
  | nil => exact List.Pairwise.nil
  | cons f fs ih =>
    obtain ⟨rfl, hrest⟩ := h
    refine pairwise_cons.mpr ⟨fun a ha => ?_, ih hrest⟩
    obtain ⟨g, hg, rfl⟩ := mem_map.mp ha
    have hle := hrest.le_start g.slot (mem_map_of_mem hg)
    exact decide_eq_true ((Nat.le_add_right _ _).trans hle)

theorem overlapProblems_of_packed (h : PackedFrom n (fs.map AbiField.slot)) :
    overlapProblems struct n (fs.map AbiField.span) = (lastEnd n (fs.map AbiField.slot), []) := by
  induction fs generalizing n with
  | nil => rfl
  | cons f fs ih =>
    obtain ⟨rfl, hrest⟩ := h
    have hmax : max f.offset (f.offset + f.ty.sizeBytes) = f.offset + f.ty.sizeBytes :=
      max_eq_right (Nat.le_add_right _ _)
    simp only [map_cons, AbiField.span, overlapProblems, AbiField.slot, hmax]
    rw [show overlapProblems struct (f.offset + f.ty.sizeBytes) (fs.map AbiField.span) = _ from ih hrest]
    simp [lastEnd, AbiType.member]

theorem foldl_max_alignBytes {tys : List AbiType} {a : ℕ} (ha : a = 1 ∨ a = 4 ∨ a = 8) :
    (tys.map (·.alignBytes)).foldl max a =
      if a = 8 ∨ ∃ ty ∈ tys, ty.sizeBytes = 8 then 8 else if tys = [] then a else 4 := by
  induction tys generalizing a with
  | nil => rcases ha with rfl | rfl | rfl <;> simp
  | cons ty tys ih =>
    rw [map_cons, foldl_cons, ih (by rcases ty.alignBytes_cases with h | h <;> omega)]
    rcases ty.alignBytes_cases with h | h
    · rcases ha with rfl | rfl | rfl <;> simp [h, ty.sizeBytes_eq]
    · rcases ha with rfl | rfl | rfl <;> simp [h, ty.sizeBytes_eq]

theorem AbiStruct.alignment_members {s : AbiStruct} (h : s.fields ≠ []) :
    CRecord.alignment s.members = if ∃ f ∈ s.fields, f.ty.sizeBytes = 8 then 8 else 4 := by
  have hmax := @foldl_max_alignBytes (s.fields.map (·.ty)) 1 (Or.inl rfl)
  have hmap : s.members.map (·.align) = (s.fields.map (·.ty)).map (·.alignBytes) := by
    simp [AbiStruct.members, AbiType.member]
  rw [CRecord.alignment, hmap, hmax]
  simp [h]

end Packed

/-! ### Agreement -/

namespace AbiStruct

variable {s : AbiStruct}

/-- The fields are listed in the order of their offsets, with gaps smaller than the alignment of
the field that follows, and the size and the alignment are no larger than they have to be. -/
structure Tight (s : AbiStruct) : Prop where
  snug : SnugFrom 0 (s.fields.map AbiField.slot)
  le_size : lastEnd 0 (s.fields.map AbiField.slot) ≤ s.size
  size_lt : s.size < lastEnd 0 (s.fields.map AbiField.slot) + s.alignment
  alignment : s.alignment = if ∃ f ∈ s.fields, f.ty.sizeBytes = 8 then 8 else 4

/-- What the checks say about the offsets and the size. -/
structure Aligned (s : AbiStruct) : Prop where
  nonempty : s.fields ≠ []
  offset : ∀ f ∈ s.fields, f.offset % f.ty.alignBytes = 0
  alignment_pos : 0 < s.alignment
  size : s.alignment ∣ s.size

theorem aligned_of_validate (h : s.validate = .ok ()) : s.Aligned := by
  have hnil := validate_eq_ok.mp h
  simp only [problems, append_eq_nil_iff, complain_eq_nil, fieldProblems_eq_nil,
    extentProblems] at hnil
  obtain ⟨⟨⟨⟨⟨-, hne⟩, -, hfields⟩, -⟩, -⟩, ⟨hpow, hdvd⟩, -⟩ := hnil
  push Not at hpow hdvd
  have hpos : 0 < s.alignment := Nat.pos_of_ne_zero hpow.1
  exact ⟨hne, fun f hf => (hfields f hf).2.2.1, hpos, hdvd hpos⟩

/-- **The compilers agree** with an aligned record exactly when it is tight. -/
theorem Aligned.agrees_iff (h : s.Aligned) : s.Agrees ↔ s.Tight := by
  have hslots : ∀ p ∈ s.fields.map AbiField.slot, 0 < p.2.align ∧ p.1 % p.2.align = 0 := by
    rintro p hp
    obtain ⟨f, hf, rfl⟩ := mem_map.mp hp
    exact ⟨f.ty.alignBytes_pos, h.offset f hf⟩
  have hmembers : (s.fields.map AbiField.slot).map (·.2) = s.members := by
    simp [members, AbiField.slot]
  have hoffsets : (s.fields.map AbiField.slot).map (·.1) = s.fields.map (·.offset) := by
    simp [AbiField.slot]
  have hplace := offsetsFrom_eq_iff (n := 0) hslots
  rw [hmembers, hoffsets] at hplace
  have hend (hsnug : SnugFrom 0 (s.fields.map AbiField.slot)) :
      endFrom 0 s.members = lastEnd 0 (s.fields.map AbiField.slot) := by
    rw [← hmembers]
    exact endFrom_of_snug (fun p hp => (hslots p hp).2) hsnug
  have hround (n : ℕ) : roundUp n s.alignment = s.size ↔ n ≤ s.size ∧ s.size < n + s.alignment :=
    roundUp_eq_iff h.alignment_pos (Nat.mod_eq_zero_of_dvd h.size)
  rw [AbiStruct.agrees_iff]
  constructor
  · rintro ⟨hoff, hsize, halign⟩
    have hsnug := hplace.mp hoff
    rw [CRecord.size, hend hsnug, halign] at hsize
    obtain ⟨hle, hlt⟩ := (hround _).mp hsize
    exact ⟨hsnug, hle, hlt, by rw [← halign, alignment_members h.nonempty]⟩
  · rintro ⟨hsnug, hle, hlt, halign⟩
    have halign' : CRecord.alignment s.members = s.alignment := by
      rw [alignment_members h.nonempty, halign]
    refine ⟨hplace.mpr hsnug, ?_, halign'⟩
    rw [CRecord.size, hend hsnug, halign']
    exact (hround _).mpr ⟨hle, hlt⟩

end AbiStruct

/-! ### What the builder makes -/

/-- A record with no padding but at its end. -/
structure AbiStruct.Packed (s : AbiStruct) : Prop where
  packed : PackedFrom 0 (s.fields.map AbiField.slot)
  size : lastEnd 0 (s.fields.map AbiField.slot) ≤ s.size ∧
    s.size < lastEnd 0 (s.fields.map AbiField.slot) + s.alignment

section Build

variable {b : AbiStructBuilder}

theorem sum_sizeBytes_le (l : List FieldSpec) : (l.map (·.ty.sizeBytes)).sum ≤ 8 * l.length := by
  induction l with
  | nil => exact le_rfl
  | cons s l ih =>
    have hs := s.ty.sizeBytes_eq
    have halign := s.ty.alignBytes_cases
    rw [map_cons, sum_cons, length_cons]
    omega

theorem sum_sizeBytes_lt (l : RawFields) : (l.list.map (·.ty.sizeBytes)).sum + 8 < 2 ^ 64 := by
  have hle := sum_sizeBytes_le l.list
  have hshort := l.short
  unfold fieldSpecBytes at hshort
  omega

theorem validate_of_packed {s : AbiStruct} (hname : isValidIdent s.name) (hne : s.fields ≠ [])
    (hnodup : (s.fields.map (·.name)).Nodup)
    (hfields : ∀ f ∈ s.fields, isValidIdent f.name ∧ f.offset % f.ty.alignBytes = 0 ∧ f.spec.Consistent)
    (hpacked : s.Packed) (hfit : lastEnd 0 (s.fields.map AbiField.slot) < 2 ^ 64)
    (halign : s.alignment = 4 ∨ s.alignment = 8) (hdvd : s.alignment ∣ s.size) :
    s.validate = .ok () := by
  have hspans := @fieldSpans_of_packed s.name s.fields 0 hpacked.packed hfit
  have hsorted := mergeSort_of_pairwise (pairwise_of_packed hpacked.packed)
  have hoverlap := @overlapProblems_of_packed s.name s.fields 0 hpacked.packed
  have hpow : ¬(s.alignment = 0 ∨ s.alignment &&& (s.alignment - 1) ≠ 0) := by
    rcases halign with h | h <;> rw [h] <;> decide
  rw [AbiStruct.validate_eq_ok]
  simp only [AbiStruct.problems, hspans, hsorted, hoverlap, AbiStruct.extentProblems,
    append_eq_nil_iff, complain_eq_nil, fieldProblems_eq_nil, and_true]
  refine ⟨⟨⟨by simpa using hname, hne⟩, hnodup, fun f hf => ⟨by simp, hfields f hf⟩⟩,
    ⟨hpow, by simp [hdvd]⟩, by simpa using hpacked.size.1⟩

/-- **The builder** turns a sensible list of fields into a record. -/
theorem build_wellFormed (hb : b.WellFormed) : ∃ t, b.build = .ok t ∧ t.validate = .ok () ∧
    (t.fields.map AbiField.spec).Perm b.rawFields.list ∧ t.Packed ∧
    t.alignment = CRecord.alignment t.members := by
  have hperm := sortedFields_perm (b := b)
  have hsum : (b.sortedFields.map (·.ty.sizeBytes)).sum = (b.rawFields.list.map (·.ty.sizeBytes)).sum :=
    (hperm.map _).sum_eq
  have hfit := sum_sizeBytes_lt b.rawFields
  rw [← hsum] at hfit
  obtain ⟨fs, hplaced, hspecs, hpacked, hoff⟩ := @foldlM_push b.sortedFields ⟨0, 1, []⟩
    (fun s _ => Nat.zero_mod _) sortedFields_pairwise (by simpa using by omega)
  have hperm' : (fs.map AbiField.spec).Perm b.rawFields.list := hspecs ▸ hperm
  have hne : fs ≠ [] := by
    rintro rfl
    exact hb.nonempty hperm'.nil_eq.symm
  have hend : lastEnd 0 (fs.map AbiField.slot) = (b.sortedFields.map (·.ty.sizeBytes)).sum := by
    rw [hpacked.lastEnd_eq, ← hspecs]
    simp [AbiField.slot, AbiField.spec, AbiType.member, Function.comp_def]
  let t : AbiStruct :=
    { name := b.name
      op := b.op
      fields := fs
      size := roundUp (lastEnd 0 (fs.map AbiField.slot))
        ((b.sortedFields.map (·.ty.alignBytes)).foldl max 1)
      alignment := (b.sortedFields.map (·.ty.alignBytes)).foldl max 1
      workspaceSlots := b.workspaceSlots
      batchMetaFields := b.batchMetaFields }
  have halign : t.alignment = CRecord.alignment t.members := by
    change (b.sortedFields.map (·.ty.alignBytes)).foldl max 1 = _
    rw [CRecord.alignment, ← hspecs]
    simp [t, AbiStruct.members, AbiType.member, AbiField.spec, Function.comp_def]
  have hcases : t.alignment = 4 ∨ t.alignment = 8 := by
    rw [halign, AbiStruct.alignment_members hne]
    split_ifs
    · exact Or.inr rfl
    · exact Or.inl rfl
  have hpos : 0 < t.alignment := by rcases hcases with h | h <;> omega
  have hround := (roundUp_eq_iff hpos (roundUp_mod (n := lastEnd 0 (fs.map AbiField.slot)) hpos)).mp rfl
  have hmem : ∀ f ∈ fs, f.spec ∈ b.rawFields.list := fun f hf =>
    hperm'.mem_iff.mp (mem_map_of_mem hf)
  have hnodup : (fs.map (·.name)).Nodup := by
    have hnames := (hperm'.map (·.name)).nodup_iff.mpr hb.nodup
    rwa [map_map] at hnames
  have hvalid : t.validate = .ok () :=
    validate_of_packed hb.name hne hnodup
      (fun f hf => ⟨hb.names _ (hmem f hf), hoff f hf, hb.consistent _ (hmem f hf)⟩)
      ⟨hpacked, hround⟩ (by rw [hend]; omega) hcases (Nat.dvd_of_mod_eq_zero (roundUp_mod hpos))
  refine ⟨t, ?_, hvalid, hperm', ⟨hpacked, hround⟩, halign⟩
  have hpad : pad (lastEnd 0 (fs.map AbiField.slot)) t.alignment < 8 := by
    have := pad_lt (n := lastEnd 0 (fs.map AbiField.slot)) hpos
    rcases hcases with h | h <;> omega
  have hlt : lastEnd 0 (fs.map AbiField.slot) + pad (lastEnd 0 (fs.map AbiField.slot)) t.alignment < 2 ^ 64 := by
    omega
  have hadd : add 64 (lastEnd 0 (fs.map AbiField.slot)) (pad (lastEnd 0 (fs.map AbiField.slot))
      ((b.sortedFields.map (·.ty.alignBytes)).foldl max 1)) = some t.size := add_of_lt hlt
  unfold AbiStructBuilder.build
  simp only [Nat.zero_add, nil_append, ← hend] at hplaced
  rw [hplaced, ok_bind]
  dsimp only
  rw [hadd, okOr_some, ok_bind]
  rw [hvalid, ok_bind]
  rfl

end Build

theorem AbiStruct.Packed.agrees {s : AbiStruct} (h : s.Packed) (hvalid : s.validate = .ok ())
    (halign : s.alignment = CRecord.alignment s.members) : s.Agrees := by
  have haligned := AbiStruct.aligned_of_validate hvalid
  have hsnug : SnugFrom 0 (s.fields.map AbiField.slot) := h.packed.snug fun p hp => by
    obtain ⟨f, -, rfl⟩ := mem_map.mp hp
    exact f.ty.alignBytes_pos
  refine haligned.agrees_iff.mpr ⟨hsnug, h.size.1, h.size.2, ?_⟩
  rw [halign, AbiStruct.alignment_members haligned.nonempty]

/-- A record whose fields are listed against the order of their offsets. -/
def reorderedArgs : AbiStruct where
  name := "swap_args"
  op := .copy
  fields := [⟨"rows", .scalar .u32, .dynamicScalar, 8, "Row count."⟩,
    ⟨"x", .constPtr .f16, .inputTensor, 0, "Input."⟩]
  size := 16
  alignment := 8
  workspaceSlots := []
  batchMetaFields := []

theorem reordered_valid : reorderedArgs.validate = .ok () := by
  have hsort : List.mergeSort [(8, 12, "rows"), (0, 8, "x")] (fun a b => decide (a.1 ≤ b.1)) =
      [(0, 8, "x"), (8, 12, "rows")] := by
    simp [List.mergeSort, List.MergeSort.Internal.splitInTwo]
  have hspans : fieldSpans reorderedArgs.name reorderedArgs.fields =
      ([(8, 12, "rows"), (0, 8, "x")], []) := by decide
  rw [AbiStruct.validate_eq_ok, AbiStruct.problems, hspans]
  dsimp only
  rw [hsort]
  decide

/-- Two fields in the order in which they are declared. -/
def smallBuilder : AbiStructBuilder where
  name := "copy_args"
  op := .copy
  rawFields := ⟨[⟨"rows", .scalar .u32, .dynamicScalar, "Row count."⟩,
    ⟨"x", .constPtr .f16, .inputTensor, "Input."⟩], by decide⟩
  workspaceSlots := []
  batchMetaFields := []

end R9v

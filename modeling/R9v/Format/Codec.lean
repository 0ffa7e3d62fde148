import R9v.Format.Container

/-!
# The codec of the tables

What the cursor reads is what the functions of the writer write: every reader of the tables
succeeds exactly where the encoding of a value stands that can be read. So the tables of a file are
told apart by their bytes, and what comes after them plays no part.
-/

namespace R9v

open List

/-- A value that is not an array, as the items of an array are. -/
def KvValue.Item (ty : KvType) (v : KvValue) : Prop :=
  v.kvType = ty ∧ ty ≠ .array ∧ ∀ s, v = .str s → s.bytes.length < 2 ^ 64

/-- The items of an array. -/
def KvValue.items : KvValue → List KvValue
  | .array _ items => items
  | _ => []

/-- A value whose lengths fit their words, and whose items have the type of items. -/
def KvValue.Readable : KvValue → Prop
  | .array elem items => items.length < 2 ^ 64 ∧ ∀ item ∈ items, item.Item elem
  | .str s => s.bytes.length < 2 ^ 64
  | _ => True

theorem KvValue.item_of_ne {ty : KvType} {v : KvValue} (hty : v.kvType = ty) (harray : ty ≠ .array)
    (hstr : ty ≠ .str) : v.Item ty := by
  refine ⟨hty, harray, ?_⟩
  rintro s rfl
  exact absurd hty.symm hstr

/-- An entry whose lengths fit their words. -/
def KvEntry.Readable (kv : KvEntry) : Prop := kv.key.bytes.length < 2 ^ 64 ∧ kv.value.Readable

namespace Format

open Checked

/-- A row whose lengths fit their words, with the type that its code stands for. -/
def TensorInfo.Readable (info : TensorInfo) : Prop :=
  info.name.bytes.length < 2 ^ 64 ∧ info.dims.length < 2 ^ 32 ∧
    TensorType.fromCode info.dtype.code = info.dtype

/-- A header of a version that is accepted. -/
def Header.Readable (header : Header) : Prop := header.version ∈ ggufVersionsAccepted

/-- The bytes of a header. -/
def encodeHeader (header : Header) : Bytes :=
  leBytes 4 ggufMagic.toNat ++ leBytes 4 header.version.toNat ++ leBytes 8 header.nTensors.toNat ++
    leBytes 8 header.nKv.toNat

namespace Tables

/-- The bytes of the tables. -/
def encode (t : Tables) : Bytes :=
  encodeHeader t.header ++ t.kvs.flatMap encodeEntry ++ t.tensors.flatMap encodeTensor

/-- Tables that can be read from their encoding, with the places where they end there. -/
structure Readable (t : Tables) : Prop where
  header : t.header.Readable
  kvs : t.kvs.length = t.header.nKv.toNat ∧ ∀ kv ∈ t.kvs, kv.Readable
  tensors : t.tensors.length = t.header.nTensors.toNat ∧ ∀ info ∈ t.tensors, info.Readable
  headerEnd : t.headerEnd = (encodeHeader t.header).length
  kvEnd : t.kvEnd = t.headerEnd + (t.kvs.flatMap encodeEntry).length
  tiEnd : t.tiEnd = t.kvEnd + (t.tensors.flatMap encodeTensor).length

theorem Readable.length_encode {t : Tables} (h : t.Readable) : t.encode.length = t.tiEnd := by
  rw [encode, length_append, length_append, h.tiEnd, h.kvEnd, h.headerEnd]

end Tables

theorem TensorType.code_fromCode (code : UInt32) : (fromCode code).code = code := by
  rw [fromCode]
  cases hfind : all.find? (·.code = code) with
  | some t => simpa using find?_some hfind
  | none =>
    rw [r9vFromCode]
    by_cases hle : code ≤ r9vTensorTypeBase
    · rw [if_pos hle]
      rfl
    · rw [if_neg hle]
      cases hscheme : SchemeId.fromCode (code - r9vTensorTypeBase).toNat with
      | error e => rfl
      | ok scheme =>
        have hcode : scheme.code = (code - r9vTensorTypeBase).toNat := by
          simpa using find?_some (okOr_eq_ok.mp hscheme)
        change r9vTensorTypeBase + scheme.code.toUInt32 = code
        rw [hcode]
        change r9vTensorTypeBase + UInt32.ofNat _ = code
        rw [UInt32.ofNat_toNat]
        rw [UInt32.add_comm, UInt32.sub_add_cancel]

/-! ### Words -/

theorem length_leBytes (n x : ℕ) : (leBytes n x).length = n := by
  rw [leBytes, length_map, Digits.length_split]

theorem leValue_lt (raw : Bytes) : leValue raw < 256 ^ raw.length := by
  have hlen : (raw.map UInt8.toNat).length = raw.length := length_map _
  rw [leValue, ← hlen]
  refine Digits.ofDigits_lt (by decide) fun d hd => ?_
  obtain ⟨c, -, rfl⟩ := mem_map.mp hd
  exact c.toNat_lt

theorem leBytes_leValue (raw : Bytes) : leBytes raw.length (leValue raw) = raw := by
  have hdigits : ∀ d ∈ raw.map UInt8.toNat, d < 256 := by
    rintro d hd
    obtain ⟨c, -, rfl⟩ := mem_map.mp hd
    exact c.toNat_lt
  have hsplit := Digits.split_ofDigits hdigits
  rw [length_map] at hsplit
  rw [leBytes, leValue, hsplit, map_map]
  conv_rhs => rw [← map_id raw]
  refine map_congr_left fun c _ => ?_
  exact UInt8.ofNat_toNat

theorem leValue_leBytes {n x : ℕ} (h : x < 256 ^ n) : leValue (leBytes n x) = x := by
  have hmap : (leBytes n x).map UInt8.toNat = Digits.split 256 n x := by
    rw [leBytes, map_map]
    conv_rhs => rw [← map_id (Digits.split 256 n x)]
    refine map_congr_left fun d hd => ?_
    exact UInt8.toNat_ofNat_of_lt' (Digits.lt_of_mem_split (by decide) hd)
  rw [leValue, hmap, Digits.ofDigits_split, Nat.mod_eq_of_lt h]

/-! ### Fields -/

namespace Cursor

open Reader (Reads)

variable {α : Type}

theorem take_reads (n : ℕ) (what : String) : Reads (take n what)
    (fun raw => raw.length = n) id := by
  intro b p raw q hp
  have hremaining : subOrPanic (ε := FormatError) b.length p = .ok (b.length - p) :=
    subOrPanic_eq_ok.mpr ⟨hp, rfl⟩
  rw [take, hremaining, ok_bind]
  constructor
  · intro h
    split at h
    · cases h
    · rename_i hlen
      have hslice : sliceBytes (ε := FormatError) b p (p + n) = .ok ((b.drop p).take n) := by
        rw [sliceBytes, if_pos ⟨Nat.le_add_right p n, by omega⟩, Nat.add_sub_cancel_left]
      rw [hslice, ok_bind] at h
      obtain ⟨rfl, rfl⟩ := Prod.mk.inj (Except.ok.inj h)
      have hn : ((b.drop p).take n).length = n := by
        rw [length_take, length_drop]
        omega
      exact ⟨hn, take_prefix _ _, by rw [id, hn]⟩
  · rintro ⟨rfl, hprefix, rfl⟩
    have hle := Reader.Reads.le (E := id) hprefix hp
    have hslice : sliceBytes (ε := FormatError) b p (p + raw.length) = .ok raw := by
      rw [sliceBytes, if_pos ⟨Nat.le_add_right _ _, hle⟩, Nat.add_sub_cancel_left]
      exact congrArg _ (prefix_iff_eq_take.mp hprefix).symm
    rw [if_neg (by rw [id] at hle; omega), hslice, ok_bind]
    rfl

/-- **A word** is read where its bytes stand, the lowest one first. -/
theorem word_reads {n : ℕ} {what : String} {f : ℕ → α} {g : α → ℕ}
    (hlt : ∀ a, g a < 256 ^ n) (hof : ∀ x, x < 256 ^ n → g (f x) = x)
    (hto : ∀ a, f (g a) = a) :
    Reads (take n what >>= fun raw => pure (f (leValue raw))) (fun _ => True)
      fun a => leBytes n (g a) := by
  refine ((take_reads n what).map (f := fun raw => f (leValue raw)) ?_).congr (fun a => ?_)
    fun _ _ => rfl
  · rintro raw rfl
    rw [hof _ (leValue_lt raw), leBytes_leValue, id]
  · refine ⟨fun _ => trivial, fun _ => ⟨leBytes n (g a), length_leBytes n _, ?_⟩⟩
    rw [leValue_leBytes (hlt a), hto]

theorem readU8_reads (what : String) : Reads (readU8 what) (fun _ => True) fun v => [v] := by
  refine (word_reads (n := 1) (g := UInt8.toNat) UInt8.toNat_lt
    (fun _ hx => UInt8.toNat_ofNat_of_lt' hx) fun _ => UInt8.ofNat_toNat).congr
      (fun _ => Iff.rfl) ?_
  rintro v -
  exact leBytes_leValue [v] ▸ rfl

theorem readU16_reads (what : String) :
    Reads (readU16 what) (fun _ => True) fun v => leBytes 2 v.toNat :=
  word_reads UInt16.toNat_lt (fun _ hx => UInt16.toNat_ofNat_of_lt' hx) fun _ => UInt16.ofNat_toNat

theorem readU32_reads (what : String) :
    Reads (readU32 what) (fun _ => True) fun v => leBytes 4 v.toNat :=
  word_reads UInt32.toNat_lt (fun _ hx => UInt32.toNat_ofNat_of_lt' hx) fun _ => UInt32.ofNat_toNat

theorem readU64_reads (what : String) :
    Reads (readU64 what) (fun _ => True) fun v => leBytes 8 v.toNat :=
  word_reads UInt64.toNat_lt (fun _ hx => UInt64.toNat_ofNat_of_lt' hx) fun _ => UInt64.ofNat_toNat

theorem throw_reads {valid : α → Prop} {enc : α → Bytes} (e : FormatError) (h : ∀ a, ¬valid a) :
    Reads (throw e) valid enc :=
  (Reads.fail (E := enc) (Fault.err e)).congr (fun a => ⟨False.elim, h a⟩) fun _ _ => rfl

theorem check_reads (c : Prop) [Decidable c] (e : FormatError) :
    Reads (check c e) (fun _ => c) fun _ => [] := by
  by_cases hc : c
  · rw [check, if_pos hc]
    exact (Reads.pure ()).congr (fun _ => ⟨fun _ => hc, fun _ => rfl⟩) fun _ _ => rfl
  · rw [check, if_neg hc]
    exact throw_reads e fun _ => hc

theorem readBool_reads (what : String) :
    Reads (readBool what) (fun _ => True) fun v => [if v then 1 else 0] := by
  refine Reads.withPos fun offset => ?_
  refine ((readU8_reads what).bind (Q := fun a v => a = if v then 1 else 0) (F := fun _ _ => [])
    (fun v _ => ?_) fun a v _ hv => ?_).congr (fun v => ?_) fun _ _ => rfl
  · by_cases hzero : v = 0
    · rw [if_pos hzero]
      refine (Reads.pure false).congr (fun b => ?_) fun _ _ => rfl
      rw [hzero]
      cases b <;> simp
    · rw [if_neg hzero]
      by_cases hone : v = 1
      · rw [if_pos hone]
        refine (Reads.pure true).congr (fun b => ?_) fun _ _ => rfl
        rw [hone]
        cases b <;> simp
      · rw [if_neg hone]
        refine throw_reads _ fun b => ?_
        cases b
        · exact hzero
        · exact hone
  · rw [hv, append_nil]
  · exact ⟨fun _ => trivial, fun _ => ⟨_, trivial, rfl⟩⟩

theorem readStr_reads (what : String) :
    Reads (readStr what) (fun s => s.bytes.length < 2 ^ 64) encodeStr := by
  refine Reads.withPos fun offset => ?_
  have hraw : ∀ len : UInt64, Reads (take len.toNat what >>= fun raw =>
      if h : Utf8.Valid raw then pure ⟨raw, h⟩ else throw
        (.malformed offset (.invalidUtf8 what raw)))
      (fun s : Str => s.bytes.length = len.toNat) fun s => s.bytes := by
    intro len
    refine ((take_reads len.toNat what).bind (Q := fun raw s => s.bytes = raw)
      (F := fun _ _ => []) (fun raw _ => ?_) fun raw s _ hs => ?_).congr
        (fun s => ?_) fun _ _ => rfl
    · by_cases hvalid : Utf8.Valid raw
      · rw [dif_pos hvalid]
        refine (Reads.pure _).congr (fun s => ?_) fun _ _ => rfl
        exact ⟨fun h => h ▸ rfl, fun h => Str.ext_bytes h⟩
      · rw [dif_neg hvalid]
        exact throw_reads _ fun s hs => hvalid (hs ▸ s.valid)
    · rw [hs, append_nil, id]
    · exact ⟨fun ⟨_, hlen, hs⟩ => hs ▸ hlen, fun hlen => ⟨_, hlen, rfl⟩⟩
  refine ((readU64_reads "string length").bind (fun len _ => hraw len) fun len s _ hs => ?_).congr
    (fun s => ?_) fun _ _ => rfl
  · rw [encodeStr, hs]
  · refine ⟨fun ⟨len, _, hlen⟩ => hlen ▸ len.toNat_lt, fun hlt => ⟨UInt64.ofNat s.bytes.length,
      trivial, ?_⟩⟩
    exact (UInt64.toNat_ofNat_of_lt' hlt).symm

/-! ### Values -/

theorem kvTypeFromCode_eq_ok {code : UInt32} {offset : ℕ} {t : KvType} :
    kvTypeFromCode code offset = .ok t ↔ t.code = code := by
  rw [kvTypeFromCode, okOr_eq_ok]
  refine ⟨fun h => by simpa using find?_some h, ?_⟩
  rintro rfl
  cases t <;> rfl

theorem readType_reads (what : String) :
    Reads (readType what) (fun _ => True) fun t => leBytes 4 t.code.toNat := by
  refine Reads.withPos fun offset => ?_
  refine ((readU32_reads what).bind (fun code _ => Reads.ofExcept fun t => ?_)
    fun code t _ ht => ?_).congr (P := fun t => ∃ code, True ∧ t.code = code) (fun t => ?_)
    fun _ _ => rfl
  · rw [lift_eq_ok, kvTypeFromCode_eq_ok]
  · rw [ht, append_nil]
  · exact ⟨fun _ => trivial, fun _ => ⟨_, trivial, rfl⟩⟩

/-- **An item** is read where its encoding stands. -/
theorem readScalar_reads (ty : KvType) :
    Reads (readScalar ty) (fun v => v.Item ty) encodeValue := by
  -- the items of a type are the values of one constructor
  have hmap : ∀ {α : Type} {m : Cursor α} {valid : α → Prop} {enc : α → Bytes} {f : α → KvValue},
      Reads m valid enc → (∀ a, encodeValue (f a) = enc a) → (∀ a, valid a ↔ (f a).Item ty) →
      (∀ v : KvValue, v.kvType = ty → ∃ a, v = f a) →
      Reads (m >>= fun a => pure (f a)) (fun v => v.Item ty) encodeValue := by
    intro α m valid enc f hm henc hvalid hall
    refine (hm.map fun a _ => henc a).congr (fun v => ⟨?_, fun hv => ?_⟩) fun _ _ => rfl
    · rintro ⟨a, ha, rfl⟩
      exact (hvalid a).mp ha
    · obtain ⟨a, rfl⟩ := hall v hv.1
      exact ⟨a, (hvalid a).mpr hv, rfl⟩
  have hitem : ty ≠ .array → ty ≠ .str → ∀ v : KvValue, v.kvType = ty → (True ↔ v.Item ty) :=
    fun harray hstr v hty => ⟨fun _ => KvValue.item_of_ne hty harray hstr, fun _ => trivial⟩
  cases ty with
  | u8 =>
    refine hmap (readU8_reads _) (fun a => rfl) (fun a => hitem (by decide)
      (by decide) _ rfl) fun v h => ?_
    cases v with
    | u8 a => exact ⟨a, rfl⟩
    | _ => cases h
  | i8 =>
    refine hmap (f := fun a => .i8 a.toInt8) (readU8_reads _) (fun a => ?_)
      (fun a => hitem (by decide) (by decide) _ rfl) fun v h => ?_
    · rw [encodeValue, UInt8.toUInt8_toInt8]
    · cases v with
      | i8 a => exact ⟨a.toUInt8, by rw [Int8.toInt8_toUInt8]⟩
      | _ => cases h
  | u16 =>
    refine hmap (readU16_reads _) (fun a => rfl) (fun a => hitem (by decide)
      (by decide) _ rfl) fun v h => ?_
    cases v with
    | u16 a => exact ⟨a, rfl⟩
    | _ => cases h
  | i16 =>
    refine hmap (f := fun a => .i16 a.toInt16) (readU16_reads _) (fun a => ?_)
      (fun a => hitem (by decide) (by decide) _ rfl) fun v h => ?_
    · rw [encodeValue, UInt16.toUInt16_toInt16]
    · cases v with
      | i16 a => exact ⟨a.toUInt16, by rw [Int16.toInt16_toUInt16]⟩
      | _ => cases h
  | u32 =>
    refine hmap (readU32_reads _) (fun a => rfl) (fun a => hitem (by decide)
      (by decide) _ rfl) fun v h => ?_
    cases v with
    | u32 a => exact ⟨a, rfl⟩
    | _ => cases h
  | i32 =>
    refine hmap (f := fun a => .i32 a.toInt32) (readU32_reads _) (fun a => ?_)
      (fun a => hitem (by decide) (by decide) _ rfl) fun v h => ?_
    · rw [encodeValue, UInt32.toUInt32_toInt32]
    · cases v with
      | i32 a => exact ⟨a.toUInt32, by rw [Int32.toInt32_toUInt32]⟩
      | _ => cases h
  | f32 =>
    refine hmap (readU32_reads _) (fun a => rfl) (fun a => hitem (by decide)
      (by decide) _ rfl) fun v h => ?_
    cases v with
    | f32 a => exact ⟨a, rfl⟩
    | _ => cases h
  | bool =>
    refine hmap (readBool_reads _) (fun a => rfl) (fun a => hitem (by decide)
      (by decide) _ rfl) fun v h => ?_
    cases v with
    | bool a => exact ⟨a, rfl⟩
    | _ => cases h
  | str =>
    refine hmap (readStr_reads _) (fun a => rfl) (fun a => ⟨fun ha => ?_, fun ha => ha.2.2 a rfl⟩)
      fun v h => ?_
    · refine ⟨rfl, by decide, ?_⟩
      rintro s hs
      exact KvValue.str.inj hs ▸ ha
    · cases v with
      | str a => exact ⟨a, rfl⟩
      | _ => cases h
  | array =>
    refine Reads.withPos fun offset => ?_
    exact throw_reads _ fun v hv => hv.2.1 rfl
  | u64 =>
    refine hmap (readU64_reads _) (fun a => rfl) (fun a => hitem (by decide)
      (by decide) _ rfl) fun v h => ?_
    cases v with
    | u64 a => exact ⟨a, rfl⟩
    | _ => cases h
  | i64 =>
    refine hmap (f := fun a => .i64 a.toInt64) (readU64_reads _) (fun a => ?_)
      (fun a => hitem (by decide) (by decide) _ rfl) fun v h => ?_
    · rw [encodeValue, UInt64.toUInt64_toInt64]
    · cases v with
      | i64 a => exact ⟨a.toUInt64, by rw [Int64.toInt64_toUInt64]⟩
      | _ => cases h
  | f64 =>
    refine hmap (readU64_reads _) (fun a => rfl) (fun a => hitem (by decide)
      (by decide) _ rfl) fun v h => ?_
    cases v with
    | f64 a => exact ⟨a, rfl⟩
    | _ => cases h

theorem encodeItems_eq (items : List KvValue) : encodeItems items = items.flatMap encodeValue := by
  induction items with
  | nil => rfl
  | cons item items ih => rw [encodeItems, ih, flatMap_cons]

/-- **A value** is read where its encoding stands. -/
theorem readValue_reads (ty : KvType) :
    Reads (readValue ty) (fun v => v.kvType = ty ∧ v.Readable) encodeValue := by
  by_cases harray : ty = .array
  · subst harray
    have hitems : ∀ (elem : KvType) (len : UInt64),
        Reads (Reader.many (readScalar elem) len.toNat >>= fun items => pure
          (KvValue.array elem items))
          (fun v => ∃ items : List KvValue, (items.length = len.toNat ∧ ∀ item ∈ items,
            item.Item elem) ∧
            v = .array elem items)
          fun v => v.items.flatMap encodeValue :=
      fun elem len => ((readScalar_reads elem).many _).map fun items _ => rfl
    refine ((readType_reads "array element type").bind
      (fun elem _ => (readU64_reads "array length").bind (fun len _ => hitems elem len)
        (G := fun v => leBytes 8 v.items.length ++ v.items.flatMap encodeValue)
        fun len v _ hv => ?_)
      fun elem v _ hv => ?_).congr (fun v => ⟨?_, ?_⟩) fun _ _ => rfl
    · obtain ⟨items, ⟨hlen, -⟩, rfl⟩ := hv
      exact hlen ▸ rfl
    · obtain ⟨len, -, items, -, rfl⟩ := hv
      rw [encodeValue, encodeItems_eq, append_assoc]
      rfl
    · rintro ⟨elem, -, len, -, items, ⟨hlen, hitems⟩, rfl⟩
      exact ⟨rfl, hlen ▸ len.toNat_lt, hitems⟩
    · rintro ⟨hty, hv⟩
      cases v with
      | array elem items =>
        exact ⟨elem, trivial, UInt64.ofNat items.length, trivial, items,
          ⟨(UInt64.toNat_ofNat_of_lt' hv.1).symm, hv.2⟩, rfl⟩
      | _ => cases hty
  · have hscalar : readValue ty = readScalar ty := by
      cases ty <;> first | rfl | exact absurd rfl harray
    rw [hscalar]
    refine (readScalar_reads ty).congr (fun v => ⟨fun hv => ⟨hv.1, ?_⟩, ?_⟩) fun _ _ => rfl
    · cases v with
      | str s => exact hv.2.2 s rfl
      | array elem items => exact absurd hv.1.symm harray
      | _ => trivial
    · rintro ⟨hty, hv⟩
      refine ⟨hty, harray, ?_⟩
      rintro s rfl
      exact hv

/-! ### Tables -/

/-- **An entry of the metadata** is read where its encoding stands. -/
theorem readEntry_reads :
    Reads readEntry KvEntry.Readable encodeEntry := by
  have hvalue : ∀ (key : Str) (ty : KvType), Reads (readValue ty >>= fun value => pure ⟨key, value⟩)
      (fun kv : KvEntry => ∃ value : KvValue, (value.kvType = ty ∧ value.Readable) ∧
        kv = ⟨key, value⟩)
      fun kv => encodeValue kv.value := fun key ty => (readValue_reads ty).map fun _ _ => rfl
  refine ((readStr_reads "metadata key").bind
    (fun key _ => (readType_reads "metadata type").bind (fun ty _ => hvalue key ty)
      (G := fun kv => leBytes 4 kv.value.kvType.code.toNat ++ encodeValue kv.value)
      fun ty kv _ hkv => ?_)
    fun key kv _ hkv => ?_).congr (fun kv => ⟨?_, ?_⟩) fun _ _ => rfl
  · obtain ⟨value, ⟨rfl, -⟩, rfl⟩ := hkv
    rfl
  · obtain ⟨ty, -, value, -, rfl⟩ := hkv
    rw [encodeEntry, append_assoc]
  · rintro ⟨key, hkey, ty, -, value, ⟨-, hvalue⟩, rfl⟩
    exact ⟨hkey, hvalue⟩
  · rintro ⟨hkey, hvalue⟩
    exact ⟨kv.key, hkey, kv.value.kvType, trivial, kv.value, ⟨rfl, hvalue⟩, rfl⟩

/-- **A row of the table of tensors** is read where its encoding stands. -/
theorem readTensor_reads : Reads readTensor TensorInfo.Readable encodeTensor := by
  have hoffset : ∀ (name : Str) (dims : List UInt64) (dtype : UInt32),
      Reads (readU64 "tensor offset" >>= fun offset => pure ⟨name, dims, .fromCode dtype, offset⟩)
        (fun info : TensorInfo => ∃ offset : UInt64, True ∧ info = ⟨name, dims, .fromCode dtype,
          offset⟩)
        fun info => leBytes 8 info.offset.toNat :=
    fun name dims dtype => (readU64_reads "tensor offset").map fun _ _ => rfl
  refine ((readStr_reads "tensor name").bind
    (fun name _ => (readU32_reads "tensor dimension count").bind
      (fun nDims _ => ((readU64_reads "tensor dimension").many nDims.toNat).bind
        (fun dims _ => (readU32_reads "tensor type").bind (fun dtype _ => hoffset name dims dtype)
          (G := fun info => leBytes 4 info.dtype.code.toNat ++ leBytes 8 info.offset.toNat)
          fun dtype info _ hinfo => ?_)
        (G := fun info => info.dims.flatMap (fun d => leBytes 8 d.toNat) ++
          (leBytes 4 info.dtype.code.toNat ++ leBytes 8 info.offset.toNat))
        fun dims info _ hinfo => ?_)
      (G := fun info => leBytes 4 info.dims.length ++
        (info.dims.flatMap (fun d => leBytes 8 d.toNat) ++
          (leBytes 4 info.dtype.code.toNat ++ leBytes 8 info.offset.toNat)))
      fun nDims info _ hinfo => ?_)
    fun name info _ hinfo => ?_).congr (fun info => ⟨?_, ?_⟩) fun _ _ => rfl
  · obtain ⟨offset, -, rfl⟩ := hinfo
    rw [TensorType.code_fromCode]
  · obtain ⟨dtype, -, offset, -, rfl⟩ := hinfo
    rfl
  · obtain ⟨dims, ⟨hlen, -⟩, dtype, -, offset, -, rfl⟩ := hinfo
    rw [hlen]
  · obtain ⟨nDims, -, dims, -, dtype, -, offset, -, rfl⟩ := hinfo
    rw [encodeTensor, append_assoc, append_assoc, append_assoc]
  · rintro ⟨name, hname, nDims, -, dims, ⟨hlen, -⟩, dtype, -, offset, -, rfl⟩
    exact ⟨hname, hlen ▸ nDims.toNat_lt, by rw [TensorType.code_fromCode]⟩
  · rintro ⟨hname, hdims, hdtype⟩
    refine ⟨info.name, hname, UInt32.ofNat info.dims.length, trivial, info.dims,
      ⟨(UInt32.toNat_ofNat_of_lt' hdims).symm, fun _ _ => trivial⟩, info.dtype.code, trivial,
      info.offset, trivial, ?_⟩
    rw [hdtype]

/-- **A header** is read where its encoding stands. -/
theorem readHeader_reads : Reads readHeader Header.Readable encodeHeader := by
  have hcounts : ∀ version : UInt32, Reads (readU64 "tensor count" >>= fun nTensors =>
      readU64 "metadata count" >>= fun nKv => pure ⟨version, nTensors, nKv⟩)
      (fun header : Header => header.version = version)
      fun header => leBytes 8 header.nTensors.toNat ++ leBytes 8 header.nKv.toNat := by
    intro version
    have hnKv : ∀ nTensors : UInt64, Reads (readU64 "metadata count" >>= fun nKv =>
        pure ⟨version, nTensors, nKv⟩)
        (fun header : Header => ∃ nKv : UInt64, True ∧ header = ⟨version, nTensors, nKv⟩)
        fun header => leBytes 8 header.nKv.toNat := fun nTensors =>
          (readU64_reads _).map fun _ _ => rfl
    refine ((readU64_reads "tensor count").bind (fun nTensors _ => hnKv nTensors)
      fun nTensors header _ hheader => ?_).congr (fun header => ⟨?_, ?_⟩) fun _ _ => rfl
    · obtain ⟨nKv, -, rfl⟩ := hheader
      rfl
    · rintro ⟨nTensors, -, nKv, -, rfl⟩
      rfl
    · rintro rfl
      exact ⟨_, trivial, _, trivial, rfl⟩
  refine ((readU32_reads "magic").bind (fun magic _ => (check_reads _ _).bind
    (fun _ _ => (readU32_reads "version").bind (fun version _ => (check_reads _ _).bind
      (fun _ _ => hcounts version)
      (G := fun header => leBytes 8 header.nTensors.toNat ++ leBytes 8 header.nKv.toNat)
      fun _ header _ _ => rfl)
      (G := fun header => leBytes 4 header.version.toNat ++
        (leBytes 8 header.nTensors.toNat ++ leBytes 8 header.nKv.toNat))
      fun version header _ hheader => ?_)
    (G := fun header : Header => leBytes 4 header.version.toNat ++
      (leBytes 8 header.nTensors.toNat ++ leBytes 8 header.nKv.toNat))
    fun _ header _ _ => rfl)
    fun magic header _ hheader => ?_).congr (fun header => ⟨?_, ?_⟩) fun _ _ => rfl
  · obtain ⟨-, -, rfl⟩ := hheader
    rfl
  · obtain ⟨-, rfl, -⟩ := hheader
    rw [encodeHeader, append_assoc, append_assoc]
  · rintro ⟨magic, -, -, -, version, -, -, haccepted, rfl⟩
    exact haccepted
  · rintro haccepted
    exact ⟨ggufMagic, trivial, (), rfl, header.version, trivial, (), haccepted, rfl⟩

/-- **The tables** are read where their encoding stands, at the start. -/
theorem readTables_eq_ok {b : Bytes} {t : Tables} {q : ℕ} :
    readTables b 0 = .ok (t, q) ↔ t.Readable ∧ t.encode <+: b ∧ q = t.tiEnd := by
  have hrun : readTables b 0 = .ok (t, q) ↔ ∃ headerEnd, readHeader b 0 = .ok
    (t.header, headerEnd) ∧
      ∃ kvEnd, Reader.many readEntry t.header.nKv.toNat b headerEnd = .ok (t.kvs, kvEnd) ∧
      ∃ tiEnd, Reader.many readTensor t.header.nTensors.toNat b kvEnd = .ok (t.tensors, tiEnd) ∧
      t.headerEnd = headerEnd ∧ t.kvEnd = kvEnd ∧ t.tiEnd = tiEnd ∧ q = tiEnd := by
    constructor
    · intro h
      obtain ⟨header, headerEnd, hheader, h⟩ := Reader.bind_eq_ok.mp h
      rw [Reader.bind_run Reader.pos_run] at h
      obtain ⟨kvs, kvEnd, hkvs, h⟩ := Reader.bind_eq_ok.mp h
      rw [Reader.bind_run Reader.pos_run] at h
      obtain ⟨tensors, tiEnd, htensors, h⟩ := Reader.bind_eq_ok.mp h
      rw [Reader.bind_run Reader.pos_run] at h
      obtain ⟨rfl, rfl⟩ := Prod.mk.inj (Except.ok.inj h)
      exact ⟨headerEnd, hheader, kvEnd, hkvs, tiEnd, htensors, rfl, rfl, rfl, rfl⟩
    · rintro ⟨headerEnd, hheader, kvEnd, hkvs, tiEnd, htensors, rfl, rfl, rfl, rfl⟩
      rw [readTables, Reader.bind_run hheader, Reader.bind_run Reader.pos_run, Reader.bind_run hkvs,
        Reader.bind_run Reader.pos_run, Reader.bind_run htensors, Reader.bind_run Reader.pos_run]
      rfl
  rw [hrun]
  constructor
  · rintro ⟨headerEnd, hheader, kvEnd, hkvs, tiEnd, htensors, hheaderEnd, hkvEnd, htiEnd, rfl⟩
    obtain ⟨hvalid, ⟨r, rfl⟩, rfl⟩ := (readHeader_reads.after [] b).mp hheader
    rw [length_nil, Nat.zero_add] at hkvs
    obtain ⟨hvalid', ⟨r, rfl⟩, rfl⟩ := ((readEntry_reads.many _).after _ _).mp hkvs
    rw [← length_append, ← append_assoc] at htensors
    obtain ⟨hvalid'', ⟨r, rfl⟩, rfl⟩ := ((readTensor_reads.many _).after _ _).mp htensors
    rw [length_nil, Nat.zero_add] at hheaderEnd
    rw [length_append] at htiEnd
    refine ⟨⟨hvalid, hvalid', hvalid'', hheaderEnd, hkvEnd.trans (hheaderEnd ▸ rfl),
      htiEnd.trans (hkvEnd ▸ rfl)⟩, ⟨r, ?_⟩, ?_⟩
    · rw [Tables.encode, append_assoc, append_assoc]
    · rw [htiEnd, length_append]
  · rintro ⟨h, ⟨r, rfl⟩, rfl⟩
    rw [Tables.encode, append_assoc, append_assoc]
    refine ⟨_, (readHeader_reads.after [] _).mpr ⟨h.header, prefix_append _ _, rfl⟩, ?_⟩
    rw [length_nil, Nat.zero_add]
    refine ⟨_, ((readEntry_reads.many _).after _ _).mpr ⟨h.kvs, prefix_append _ _, rfl⟩, ?_⟩
    rw [← length_append, ← append_assoc]
    refine ⟨_, ((readTensor_reads.many _).after _ _).mpr ⟨h.tensors, prefix_append _ _, rfl⟩,
      h.headerEnd, ?_, ?_, ?_⟩
    · rw [h.kvEnd, h.headerEnd, length_append]
    · rw [h.tiEnd, h.kvEnd, h.headerEnd, length_append]
    · rw [h.tiEnd, h.kvEnd, h.headerEnd, length_append]

end Cursor

end Format

end R9v

import R9v.Config.Text
import R9v.Format.ShardSet

/-!
# The names of the files of a split set

A file of a split set has a name that ends in its number and the number of files, as
`model-00001-of-00002.gguf` does, from which the names of the other files are derived
(`sibling_paths` of `r9v-loader/src/open.rs`). The numbers are as wide as in the name at hand, so
that every name of a set gives the same names if the number of files is not wider
(`siblingNames_iff`).
-/

namespace R9v.Open

open Checked Text List

/-! ### Deriving names -/

/-- The two sides of the last occurrence of a separator. -/
def rsplitOnce (sep : List Char) : List Char → Option (List Char × List Char)
  | [] => none
  | c :: l =>
    match rsplitOnce sep l with
    | some (before, rest) => some (c :: before, rest)
    | none => (stripPrefix sep (c :: l)).map fun rest => ([], rest)

/-- What stands between the two numbers of a name. -/
def ofMark : List Char := ['-', 'o', 'f', '-']

/-- The parts of the name of a shard: what comes before its number, with a dash, the two numbers and
the extension. -/
structure NameFields where
  base : List Char
  own : List Char
  total : List Char
  ext : List Char
  deriving DecidableEq

def NameFields.name (f : NameFields) : List Char :=
  f.base ++ (f.own ++ (ofMark ++ (f.total ++ f.ext)))

/-- What is wrong with the name of a shard. -/
inductive PatternProblem
  /-- shard declares a split set but carries no split.no/split.count -/
  | noDecl
  /-- file name is not valid UTF-8 -/
  | notUtf8
  /-- file name '{name}' has no '-NNNNN-of-MMMMM' shard pattern -/
  | noPattern (name : List Char)
  /-- shard number '{field}' does not parse -/
  | number (field : List Char)
  /-- shard total '{field}' does not parse -/
  | total (field : List Char)
  /-- file name declares {total} shards but split.count is {count} -/
  | count (total : ℕ) (count : UInt16)
  /-- file name declares shard {own} of {total} but split.no is {no} -/
  | no (own total : ℕ) (no : UInt16)
  /-- derived shard paths do not include the opened file -/
  | notIncluded

/-- The stem of a file name, and its extension with the point. -/
def splitExt (name : List Char) : List Char × List Char :=
  match rsplitOnce ['.'] name with
  | some (stem, ext) => (stem, '.' :: ext)
  | none => (name, [])

def shardFields (name : List Char) : Option NameFields :=
  let (stem, ext) := splitExt name
  (rsplitOnce ofMark stem).bind fun (head, total) =>
    (rsplitOnce ['-'] head).bind fun (base, own) =>
      if own.all isDigit && total.all isDigit && !own.isEmpty && !total.isEmpty then
        some ⟨base ++ ['-'], own, total, ext⟩
      else none

def parseU32 (field : List Char) : Option ℕ :=
  (parseDigits field).toOption.bind fun n => if n < 2 ^ 32 then some n else none

/-- A number with zeros before it, up to a width. -/
def padded (width n : ℕ) : List Char := List.leftpad width '0' (Nat.toDigits 10 n)

/-- The names of all files of a set, from one that is given. -/
def siblingNames (name : List Char) (no count : UInt16) :
    Except PatternProblem (List (List Char)) := do
  let fields ← okOr (shardFields name) (.noPattern name)
  let own ← okOr (parseU32 fields.own) (.number fields.own)
  let total ← okOr (parseU32 fields.total) (.total fields.total)
  ensure (total = count.toNat) (.count total count)
  ensure (own = no.toNat + 1) (.no own total no)
  pure ((List.range count.toNat).map fun i =>
    { fields with own := padded fields.own.length (i + 1) : NameFields }.name)

/-! ### The last occurrence -/

section Last

variable {sep l before rest : List Char} {c : Char}

theorem stripPrefix_eq_some : stripPrefix sep l = some rest ↔ l = sep ++ rest := by
  rw [stripPrefix]
  split
  · next hpre =>
    obtain ⟨r, rfl⟩ := List.isPrefixOf_iff_prefix.mp hpre
    rw [drop_left, Option.some.injEq, append_cancel_left_eq]
  · next hpre =>
    refine iff_of_false (Option.some_ne_none rest).symm ?_
    rintro rfl
    exact hpre (List.isPrefixOf_iff_prefix.mpr (prefix_append sep rest))

theorem rsplitOnce_eq_none (h : rsplitOnce sep l = none) (hne : sep ≠ []) (p : ℕ) :
    ¬sep <+: l.drop p := by
  induction l generalizing p with
  | nil =>
    rw [drop_nil, prefix_nil]
    exact hne
  | cons c l ih =>
    rw [rsplitOnce] at h
    split at h
    · cases h
    · next hnone =>
      cases p with
      | zero =>
        rintro ⟨r, hr⟩
        have hstrip : stripPrefix sep (c :: l) = some r := stripPrefix_eq_some.mpr hr.symm
        rw [hstrip] at h
        cases h
      | succ p => exact ih hnone p

/-- **The last occurrence** is the one after which there is no other one. -/
theorem rsplitOnce_eq_some (hne : sep ≠ []) : rsplitOnce sep l = some (before, rest) ↔
    l = before ++ (sep ++ rest) ∧ ∀ p, 0 < p → ¬sep <+: (sep ++ rest).drop p := by
  induction l generalizing before rest with
  | nil =>
    refine iff_of_false (Option.some_ne_none _).symm fun h => ?_
    obtain ⟨-, hsep⟩ := append_eq_nil_iff.mp h.1.symm
    exact hne (append_eq_nil_iff.mp hsep).1
  | cons c l ih =>
    rw [rsplitOnce]
    cases hl : rsplitOnce sep l with
    | some r =>
      obtain ⟨before', rest'⟩ := r
      obtain ⟨rfl, hlast'⟩ := ih.mp hl
      simp only [Option.some.injEq, Prod.mk.injEq]
      constructor
      · rintro ⟨rfl, rfl⟩
        exact ⟨rfl, hlast'⟩
      · rintro ⟨heq, hlast⟩
        cases before with
        -- there is a later occurrence than at the front
        | nil =>
          rw [nil_append] at heq
          refine absurd ?_ (hlast (before'.length + 1) (Nat.succ_pos _))
          rw [← heq, drop_succ_cons, drop_left]
          exact prefix_append sep rest'
        | cons b before =>
          rw [cons_append, List.cons.injEq] at heq
          have hsame := ih.mpr ⟨heq.2, hlast⟩
          rw [hl, Option.some.injEq, Prod.mk.injEq] at hsame
          rw [hsame.1, hsame.2, heq.1]
          exact ⟨rfl, rfl⟩
    | none =>
      have hnone := rsplitOnce_eq_none hl hne
      simp only [Option.map_eq_some_iff, Prod.mk.injEq]
      constructor
      · rintro ⟨r, hstrip, rfl, rfl⟩
        have heq := stripPrefix_eq_some.mp hstrip
        refine ⟨heq, fun p hp => ?_⟩
        obtain ⟨p, rfl⟩ := Nat.exists_eq_add_of_lt hp
        rw [← heq, Nat.zero_add, drop_succ_cons]
        exact hnone p
      · rintro ⟨heq, -⟩
        cases before with
        | nil => exact ⟨rest, stripPrefix_eq_some.mpr heq, rfl, rfl⟩
        | cons b before =>
          rw [cons_append, List.cons.injEq] at heq
          refine absurd ?_ (hnone before.length)
          rw [heq.2, drop_left]
          exact prefix_append sep rest

theorem rsplitOnce_char : rsplitOnce [c] l = some (before, rest) ↔
    l = before ++ c :: rest ∧ c ∉ rest := by
  rw [rsplitOnce_eq_some (cons_ne_nil _ _)]
  refine and_congr_right fun _ => ⟨fun h hmem => ?_, fun h p hp hpre => ?_⟩
  · obtain ⟨pre, post, rfl⟩ := append_of_mem hmem
    refine h (pre.length + 1) (Nat.succ_pos _) ?_
    rw [singleton_append, drop_succ_cons, drop_left]
    exact ⟨post, rfl⟩
  · obtain ⟨p, rfl⟩ := Nat.exists_eq_add_of_lt hp
    exact h (mem_of_mem_drop (hpre.subset mem_cons_self))

theorem rsplitOnce_char_none (h : rsplitOnce [c] l = none) : c ∉ l := by
  intro hmem
  obtain ⟨pre, post, rfl⟩ := append_of_mem hmem
  refine rsplitOnce_eq_none h (cons_ne_nil _ _) pre.length ?_
  rw [drop_left]
  exact ⟨post, rfl⟩

theorem rsplitOnce_char_of_not_mem (h : c ∉ l) : rsplitOnce [c] l = none := by
  cases hl : rsplitOnce [c] l with
  | none => rfl
  | some r =>
    obtain ⟨before, rest⟩ := r
    obtain ⟨rfl, -⟩ := rsplitOnce_char.mp hl
    exact absurd (mem_append_right before mem_cons_self) h

end Last

/-! ### Digits -/

section Digits

variable {l l' : List Char} {c : Char} {width n m : ℕ}

theorem eq_of_digitValue (h : isDigit c = true) {d : Char} (h' : isDigit d = true)
    (heq : digitValue c = digitValue d) : c = d := by
  rw [isDigit, Bool.and_eq_true, decide_eq_true_eq, decide_eq_true_eq] at h h'
  have hle : 48 ≤ c.toNat := h.1
  have hle' : 48 ≤ d.toNat := h'.1
  rw [digitValue, digitValue] at heq
  exact Char.toNat_inj.mp (by omega)

/-- **Digits of one width** are given by their number. -/
theorem eq_of_digitsValue (h : l.all isDigit = true) (h' : l'.all isDigit = true)
    (hlen : l.length = l'.length) (heq : digitsValue l = digitsValue l') : l = l' := by
  induction l using List.reverseRecOn generalizing l' with
  | nil => exact (length_eq_zero_iff.mp hlen.symm).symm
  | append_singleton l c ih =>
    rcases eq_nil_or_concat l' with rfl | ⟨l', d, rfl⟩
    · rw [length_append] at hlen
      cases hlen
    · rw [concat_eq_append] at h' hlen heq ⊢
      rw [all_append, Bool.and_eq_true, all_cons, Bool.and_eq_true] at h h'
      rw [digitsValue_concat, digitsValue_concat] at heq
      rw [length_append, length_append] at hlen
      have hc := digitValue_lt h.2.1
      have hd := digitValue_lt h'.2.1
      rw [ih h.1 h'.1 (Nat.add_right_cancel hlen) (by omega),
        eq_of_digitValue h.2.1 h'.2.1 (by omega)]

theorem all_padded (width n : ℕ) : (padded width n).all isDigit = true := by
  refine all_eq_true.mpr fun c hc => ?_
  rw [padded, List.leftpad, mem_append] at hc
  rcases hc with hc | hc
  · rw [eq_of_mem_replicate hc]
    rfl
  · exact Nat.isDigit_of_mem_toDigits (by decide) le_rfl hc

theorem digitsValue_padded (width n : ℕ) : digitsValue (padded width n) = n := by
  rw [digitsValue_eq, padded, List.leftpad, Nat.ofDigitChars_append, Nat.ofDigitChars_replicate_zero,
    Nat.mul_zero, Nat.ofDigitChars_toDigits (by decide) le_rfl]

theorem length_padded (width n : ℕ) :
    (padded width n).length = max width (Nat.toDigits 10 n).length := by
  rw [padded, length_leftpad]

theorem padded_ne_nil (width n : ℕ) : padded width n ≠ [] := by
  intro hnil
  have hlen := length_padded width n
  have hpos : 0 < (Nat.toDigits 10 n).length := Nat.length_toDigits_pos
  rw [hnil, length_nil] at hlen
  omega

theorem length_padded_of_lt (hpos : 0 < width) (h : n < 10 ^ width) :
    (padded width n).length = width := by
  rw [length_padded]
  exact Nat.max_eq_left ((Nat.length_toDigits_le_iff (by decide) hpos).mpr h)

/-- **A number is written back** as it was read. -/
theorem padded_digitsValue (h : l.all isDigit = true) (hne : l ≠ []) :
    padded l.length (digitsValue l) = l := by
  refine eq_of_digitsValue (all_padded _ _) h ?_ (digitsValue_padded _ _)
  exact length_padded_of_lt (length_pos_iff.mpr hne) (digitsValue_lt h)

theorem padded_inj (h : padded width n = padded width m) : n = m := by
  rw [← digitsValue_padded width n, h, digitsValue_padded]

theorem parseU32_eq_some (h : l.all isDigit = true) (hne : l ≠ []) :
    parseU32 l = some n ↔ digitsValue l = n ∧ n < 2 ^ 32 := by
  rw [parseU32, parseDigits, if_neg hne, if_pos h]
  change (if digitsValue l < 2 ^ 32 then some (digitsValue l) else none) = some n ↔ _
  split
  · next hlt =>
    rw [Option.some.injEq]
    exact ⟨fun heq => ⟨heq, heq ▸ hlt⟩, fun h => h.1⟩
  · next hle =>
    refine iff_of_false (Option.some_ne_none n).symm ?_
    rintro ⟨rfl, hlt⟩
    exact hle hlt

end Digits

/-! ### The parts of a name -/

/-- Parts that a name has. -/
structure NameFields.WellFormed (f : NameFields) : Prop where
  base : ∃ head, f.base = head ++ ['-']
  own : f.own.all isDigit = true
  total : f.total.all isDigit = true
  own_ne : f.own ≠ []
  total_ne : f.total ≠ []
  ext : (f.ext = [] ∧ '.' ∉ f.base) ∨ ∃ ext, f.ext = '.' :: ext ∧ '.' ∉ ext

theorem not_mem_of_all {l : List Char} (h : l.all isDigit = true) {c : Char}
    (hc : isDigit c = false) : c ∉ l := by
  intro hmem
  rw [all_eq_true.mp h c hmem] at hc
  cases hc

theorem rsplitOnce_ofMark {l head total : List Char} (h : total.all isDigit = true) :
    rsplitOnce ofMark l = some (head, total) ↔ l = head ++ (ofMark ++ total) := by
  have hne : ofMark ≠ [] := cons_ne_nil _ _
  rw [rsplitOnce_eq_some hne]
  refine and_iff_left fun p hp hpre => ?_
  have hdash : '-' ∉ total := not_mem_of_all h rfl
  rcases p with _ | _ | _ | _ | p
  · exact absurd hp (Nat.lt_irrefl 0)
  · cases (cons_prefix_cons.mp hpre).1
  · cases (cons_prefix_cons.mp hpre).1
  · obtain ⟨r, hr⟩ := (cons_prefix_cons.mp hpre).2
    have htotal : 'o' :: 'f' :: '-' :: r = total := hr
    have hmem : 'o' ∈ total := htotal ▸ mem_cons_self
    exact not_mem_of_all h rfl hmem
  · exact hdash (mem_of_mem_drop (hpre.subset mem_cons_self))

theorem splitExt_eq {stem ext : List Char} (h : (ext = [] ∧ '.' ∉ stem) ∨
    ∃ e, ext = '.' :: e ∧ '.' ∉ e) : splitExt (stem ++ ext) = (stem, ext) := by
  rcases h with ⟨rfl, hnot⟩ | ⟨e, rfl, hnot⟩
  · rw [append_nil, splitExt, rsplitOnce_char_of_not_mem hnot]
  · rw [splitExt, rsplitOnce_char.mpr ⟨rfl, hnot⟩]

theorem splitExt_cases (name : List Char) : ∃ stem ext, splitExt name = (stem, ext) ∧
    name = stem ++ ext ∧ ((ext = [] ∧ '.' ∉ stem) ∨ ∃ e, ext = '.' :: e ∧ '.' ∉ e) := by
  rw [splitExt]
  cases hl : rsplitOnce ['.'] name with
  | none =>
    exact ⟨name, [], rfl, (append_nil name).symm, Or.inl ⟨rfl, rsplitOnce_char_none hl⟩⟩
  | some r =>
    obtain ⟨stem, e⟩ := r
    obtain ⟨hname, hnot⟩ := rsplitOnce_char.mp hl
    exact ⟨stem, '.' :: e, rfl, hname, Or.inr ⟨e, rfl, hnot⟩⟩

/-- **The parts of a name** are those it is put together of. -/
theorem shardFields_eq_some {name : List Char} {f : NameFields} :
    shardFields name = some f ↔ f.WellFormed ∧ name = f.name := by
  constructor
  · intro h
    obtain ⟨stem, ext, hsplit, rfl, hext⟩ := splitExt_cases name
    simp only [shardFields, hsplit, Option.bind_eq_some_iff] at h
    obtain ⟨⟨head, total⟩, hmark, ⟨base, own⟩, hdash, hdigits⟩ := h
    simp only [Option.ite_none_right_eq_some, Option.some.injEq, Bool.and_eq_true,
      Bool.not_eq_true', isEmpty_eq_false_iff] at hdigits
    obtain ⟨⟨⟨⟨hown, htotal⟩, hownne⟩, htotalne⟩, rfl⟩ := hdigits
    obtain rfl := (rsplitOnce_ofMark htotal).mp hmark
    obtain ⟨rfl, -⟩ := rsplitOnce_char.mp hdash
    refine ⟨⟨⟨base, rfl⟩, hown, htotal, hownne, htotalne, ?_⟩, ?_⟩
    · refine hext.imp_left fun ⟨hnil, hnot⟩ => ⟨hnil, fun hmem => hnot ?_⟩
      rcases mem_append.mp hmem with hbase | hdash
      · exact mem_append_left _ (mem_append_left _ hbase)
      · cases mem_singleton.mp hdash
    · simp only [NameFields.name, append_assoc, cons_append, nil_append]
  · rintro ⟨hwell, rfl⟩
    obtain ⟨base, own, total, ext⟩ := f
    obtain ⟨head, rfl⟩ := hwell.base
    have hstem : (NameFields.mk (head ++ ['-']) own total ext).name =
        (head ++ '-' :: own ++ (ofMark ++ total)) ++ ext := by
      simp only [NameFields.name, append_assoc, cons_append, nil_append]
    have hext : splitExt ((head ++ '-' :: own ++ (ofMark ++ total)) ++ ext) =
        (head ++ '-' :: own ++ (ofMark ++ total), ext) := by
      refine splitExt_eq (hwell.ext.imp_left fun ⟨hnil, hnot⟩ => ⟨hnil, fun hmem => ?_⟩)
      rcases mem_append.mp hmem with hmem | hmem
      · rcases mem_append.mp hmem with hhead | hown
        · exact hnot (mem_append_left _ hhead)
        · rcases mem_cons.mp hown with hdash | hown
          · cases hdash
          · exact not_mem_of_all hwell.own rfl hown
      · rcases mem_append.mp hmem with hmark | htotal
        · exact absurd hmark (by decide)
        · exact not_mem_of_all hwell.total rfl htotal
    have hdash : '-' ∉ own := not_mem_of_all hwell.own rfl
    simp only [hstem, shardFields, hext, (rsplitOnce_ofMark hwell.total).mpr rfl,
      rsplitOnce_char.mpr ⟨rfl, hdash⟩, Option.bind_some]
    have hcond : (own.all isDigit && total.all isDigit && !own.isEmpty && !total.isEmpty) =
        true := by
      rw [hwell.own, hwell.total, isEmpty_eq_false_iff.mpr hwell.own_ne,
        isEmpty_eq_false_iff.mpr hwell.total_ne]
      rfl
    rw [if_pos hcond]

/-! ### The names of a set -/

section Names

variable {name : List Char} {no count : UInt16} {names : List (List Char)} {f : NameFields}

/-- The name of the file with a number, by a name of the set. -/
def NameFields.sibling (f : NameFields) (i : ℕ) : List Char :=
  { f with own := padded f.own.length (i + 1) : NameFields }.name

theorem NameFields.WellFormed.withOwn (h : f.WellFormed) (width n : ℕ) :
    { f with own := padded width n : NameFields }.WellFormed :=
  ⟨h.base, all_padded width n, h.total, padded_ne_nil width n, h.total_ne, h.ext⟩

theorem NameFields.name_inj {l l' : List Char}
    (h : { f with own := l : NameFields }.name = { f with own := l' : NameFields }.name) :
    l = l' :=
  append_cancel_right (append_cancel_left h)

/-- **The names** that are derived from one. -/
theorem siblingNames_eq_ok : siblingNames name no count = .ok names ↔
    ∃ f : NameFields, f.WellFormed ∧ name = f.name ∧ digitsValue f.own = no.toNat + 1 ∧
      digitsValue f.total = count.toNat ∧ names = (List.range count.toNat).map f.sibling := by
  have hsmall : ∀ n : UInt16, n.toNat < 2 ^ 16 := UInt16.toNat_lt
  have hno := hsmall no
  have hcount := hsmall count
  simp only [siblingNames, bind_eq_ok, okOr_eq_ok, ensure_eq_ok]
  constructor
  · rintro ⟨f, hf, own, hown, total, htotal, -, rfl, -, hno, hnames⟩
    obtain ⟨hwell, rfl⟩ := shardFields_eq_some.mp hf
    obtain ⟨rfl, -⟩ := (parseU32_eq_some hwell.own hwell.own_ne).mp hown
    obtain ⟨htotal, -⟩ := (parseU32_eq_some hwell.total hwell.total_ne).mp htotal
    exact ⟨f, hwell, rfl, hno, htotal, (Except.ok.inj hnames).symm⟩
  · rintro ⟨f, hwell, rfl, hown, htotal, rfl⟩
    refine ⟨f, shardFields_eq_some.mpr ⟨hwell, rfl⟩, no.toNat + 1,
      (parseU32_eq_some hwell.own hwell.own_ne).mpr ⟨hown, by omega⟩, count.toNat,
      (parseU32_eq_some hwell.total hwell.total_ne).mpr ⟨htotal, by omega⟩, (), rfl, (), rfl, rfl⟩

theorem getElem?_siblings (f : NameFields) (n i : ℕ) (name : List Char) :
    ((List.range n).map f.sibling)[i]? = some name ↔ i < n ∧ f.sibling i = name := by
  rw [getElem?_map]
  rcases Nat.lt_or_ge i n with hlt | hle
  · rw [getElem?_range hlt, Option.map_some, Option.some.injEq, and_iff_right hlt]
  · rw [getElem?_eq_none (by rwa [length_range])]
    exact iff_of_false (Option.some_ne_none name).symm fun h => absurd h.1 (Nat.not_lt.mpr hle)

/-- **The names are different**, as many as the files, and one of them is that of the file at hand.
-/
theorem siblingNames_self (h : siblingNames name no count = .ok names) (hlt : no < count) :
    names.length = count.toNat ∧ names.Nodup ∧ names[no.toNat]? = some name := by
  obtain ⟨f, hwell, rfl, hown, -, rfl⟩ := siblingNames_eq_ok.mp h
  refine ⟨by rw [length_map, length_range], ?_, ?_⟩
  · refine List.Nodup.map (fun i j hij => ?_) nodup_range
    exact Nat.add_right_cancel (padded_inj (NameFields.name_inj hij))
  · refine (getElem?_siblings _ _ _ _).mpr ⟨UInt16.lt_iff_toNat_lt.mp hlt, ?_⟩
    rw [NameFields.sibling, ← hown, padded_digitsValue hwell.own hwell.own_ne]

/-- **Every name of a set gives the same names** exactly if the number of files is not wider than
the number in the name at hand. -/
theorem siblingNames_iff (h : siblingNames name no count = .ok names) :
    (∀ (j : UInt16) (name' : List Char), names[j.toNat]? = some name' →
      siblingNames name' j count = .ok names) ↔
      ∀ f, shardFields name = some f → count.toNat < 10 ^ f.own.length := by
  obtain ⟨f, hwell, rfl, -, htotal, rfl⟩ := siblingNames_eq_ok.mp h
  have hpos : 0 < f.own.length := length_pos_iff.mpr hwell.own_ne
  have hderive : ∀ (j : UInt16), j.toNat < count.toNat → siblingNames (f.sibling j.toNat) j count =
      .ok ((List.range count.toNat).map
        { f with own := padded f.own.length (j.toNat + 1) : NameFields }.sibling) := fun j _ =>
    siblingNames_eq_ok.mpr ⟨_, hwell.withOwn _ _, rfl, digitsValue_padded _ _, htotal, rfl⟩
  constructor
  · intro hall f' hf'
    obtain rfl : f = f' := Option.some.inj
      ((shardFields_eq_some.mpr ⟨hwell, rfl⟩ : shardFields f.name = some f).symm.trans hf')
    by_contra hge
    -- the first file with a wider number has the first file with a wider number, too
    have hten : 1 < 10 ^ f.own.length := Nat.one_lt_pow hpos.ne' (by decide)
    have hcount : count.toNat < 2 ^ 16 := UInt16.toNat_lt count
    obtain ⟨j, hj⟩ : ∃ j : UInt16, j.toNat + 1 = 10 ^ f.own.length :=
      ⟨UInt16.ofNat (10 ^ f.own.length - 1), by
        rw [UInt16.toNat_ofNat_of_lt' (show 10 ^ f.own.length - 1 < 65536 by omega)]
        omega⟩
    have hsame := hall j _ ((getElem?_siblings f _ _ _).mpr ⟨by omega, rfl⟩)
    rw [hderive j (by omega), Except.ok.injEq] at hsame
    have hfirst := congrArg (fun l : List (List Char) => l[0]?) hsame
    simp only [getElem?_map, getElem?_range (show 0 < count.toNat by omega),
      Option.map_some, Option.some.injEq] at hfirst
    have hown := congrArg List.length (NameFields.name_inj hfirst)
    have hwide : f.own.length < (padded f.own.length (j.toNat + 1)).length := by
      rw [length_padded, hj]
      refine (Nat.lt_of_not_le fun hle => ?_).trans_le (Nat.le_max_right _ _)
      exact absurd ((Nat.length_toDigits_le_iff (by decide) hpos).mp hle) (Nat.lt_irrefl _)
    have hle : (padded f.own.length (0 + 1)).length <
        (padded (padded f.own.length (j.toNat + 1)).length (0 + 1)).length := by
      rw [length_padded_of_lt hpos hten, length_padded (padded _ _).length]
      exact hwide.trans_le (Nat.le_max_left _ _)
    exact absurd hown hle.ne'
  · intro hcond j name' hname'
    obtain ⟨hj, rfl⟩ := (getElem?_siblings _ _ _ _).mp hname'
    have hlt := hcond f (shardFields_eq_some.mpr ⟨hwell, rfl⟩)
    rw [hderive j hj, Except.ok.injEq]
    refine map_congr_left fun i _ => ?_
    rw [NameFields.sibling, NameFields.sibling]
    simp only [length_padded_of_lt hpos (show j.toNat + 1 < 10 ^ f.own.length by omega)]

end Names

end R9v.Open

import R9v.Registry.Resolution

/-!
# What a registry resolves to after any calls

A registry is changed by calls, some of which fail. The loads that are accepted are listed
(`Registry.run`), and they decide the manifest and the tune entries of the registry
(`run_manifest`, `run_tuneEntries`): the latest ones count, and a call that fails changes
nothing. From these, the sources of kernels are asked in their order
(`resolve_latest`).
-/

namespace R9v.Kernels

open Checked List

/-- A call that changes a registry. -/
inductive Call (π : Type)
  | loadBundle (dir : String) (file : Except RegistryError BundleManifest)
  | setManifest (manifest : BundleManifest) (dir : Option String)
  | loadTuneFile (tune : TuneFile) (base : Option String)
  | loadTuneFileFromPath (file : Except RegistryError TuneFile) (parent : Option String)
  | registerJitProvider (provider : π)
  | configMut (config : RegistryConfig)

/-- Something that was loaded: a manifest, with the version of the registry at the time, or a
tune file, with the directory of its code objects. -/
inductive Load
  | bundle (manifest : BundleManifest) (version : ℕ)
  | tune (tune : TuneFile) (base : Option String)

namespace Load

def manifest? : Load → Option (BundleManifest × ℕ)
  | bundle m version => some (m, version)
  | tune _ _ => none

/-- The entry that a tune file has for an architecture, a version and a key. -/
def entry? (arch : ArchName) (version : ℕ) (key : String) :
    Load → Option (TuneEntry × Option String)
  | bundle _ _ => none
  | tune t base =>
    if t.arch = arch ∧ t.genVersion = version then t.entries[key]?.map (·, base) else none

end Load

/-- The latest of some loads that has something. -/
def latest {α : Type} (f : Load → Option α) (loads : List Load) : Option α :=
  loads.reverse.findSome? f

namespace Registry

variable {π σ : Type} [OpStatic σ]

/-- Makes a call. -/
def call (r : Registry π) : Call π → Except RegistryError Bool × Registry π
  | .loadBundle dir file => ((r.loadBundle dir file).1.map fun _ => true, (r.loadBundle dir file).2)
  | .setManifest m dir => ((r.setManifest m dir).1.map fun _ => true, (r.setManifest m dir).2)
  | .loadTuneFile t base => r.loadTuneFile t base
  | .loadTuneFileFromPath file parent => r.loadTuneFileFromPath file parent
  | .registerJitProvider p => (.ok true, r.registerJitProvider p)
  | .configMut config => (.ok true, { r with config := config })

/-- What a call loads when it succeeds. -/
def loads (r : Registry π) : Call π → List Load
  | .loadBundle _ (.ok m) => [.bundle m r.config.genVersion]
  | .setManifest m _ => [.bundle m r.config.genVersion]
  | .loadTuneFile t base => [.tune t base]
  | .loadTuneFileFromPath (.ok t) parent => [.tune t parent]
  | _ => []

/-- What a call has loaded. -/
def accepted (r : Registry π) (c : Call π) : List Load :=
  match (r.call c).1 with
  | .ok true => r.loads c
  | _ => []

/-- Makes some calls, and lists what they have loaded. -/
def run (r : Registry π) : List (Call π) → Registry π × List Load
  | [] => (r, [])
  | c :: calls => ((run (r.call c).2 calls).1, r.accepted c ++ (run (r.call c).2 calls).2)

/-- The manifest of a registry is one that was accepted. -/
def Valid (r : Registry π) : Prop := ∀ m, r.manifest = some m → m.validate = .ok ()

end Registry

/-! ### Entries of the manifest -/

section Entries

variable {op : OpId} {arch : ArchName} {shash : UInt64}
  {l : List (String × ManifestVariantEntry)}

/-- An entry that is a specialized kernel for a request. -/
def servesT2 (op : OpId) (arch : ArchName) (shash : UInt64) (e : ManifestVariantEntry) : Prop :=
  e.tier = .t2 ∧ e.arch = arch ∧ e.matchesRequest op = true ∧ e.staticHash = some shash ∧
    e.validated = true

instance (e : ManifestVariantEntry) : Decidable (servesT2 op arch shash e) := instDecidableAnd

/-- An entry that is a portable kernel for a request. -/
def servesT1 (op : OpId) (arch : ArchName) (shash : UInt64) (e : ManifestVariantEntry) : Prop :=
  e.tier = .t1 ∧ e.arch = arch ∧ e.op = some op ∧
    (e.staticHash = some shash ∨ e.staticHash = none) ∧ e.validated = true

instance (e : ManifestVariantEntry) : Decidable (servesT1 op arch shash e) := instDecidableAnd

theorem checkEntryFor_of_matches {e : ManifestVariantEntry} (h : e.matchesRequest op = true) :
    BundleManifest.checkEntryFor e op = .ok () := by
  unfold BundleManifest.checkEntryFor
  unfold ManifestVariantEntry.matchesRequest at h
  cases hop : e.op with
  | none => rfl
  | some op' =>
    rw [hop] at h
    exact ensure_of (by simpa using h)

theorem readHash_of_ok {key : String} {hash : UInt64} (h : fromHex key = .ok hash) :
    Registry.readHash key = .ok hash := by
  unfold Registry.readHash
  rw [h]

/-- **The first entry that serves a request is found.** -/
theorem findT2_eq (hkeys : ∀ x ∈ l, ∃ hash, fromHex x.1 = .ok hash) :
    (Registry.findT2 op arch shash l = .ok none ∧ ∀ x ∈ l, ¬servesT2 op arch shash x.2) ∨
      ∃ x ∈ l, ∃ hash, fromHex x.1 = .ok hash ∧ servesT2 op arch shash x.2 ∧
        Registry.findT2 op arch shash l =
          .ok (some (Registry.shippedVariant hash op arch .t2 x.2)) := by
  induction l with
  | nil => exact Or.inl ⟨rfl, by simp⟩
  | cons x l ih =>
    obtain ⟨key, e⟩ := x
    obtain ⟨⟨hash, hhash⟩, hkeys⟩ := forall_mem_cons.mp hkeys
    by_cases hserves : servesT2 op arch shash e
    · obtain ⟨htier, harch, hop, hstatic, hvalid⟩ := hserves
      refine Or.inr ⟨(key, e), mem_cons_self, hash, hhash,
        ⟨htier, harch, hop, hstatic, hvalid⟩, ?_⟩
      unfold Registry.findT2
      rw [if_pos ⟨htier, harch, hop, hstatic⟩, checkEntryFor_of_matches hop]
      simp only [hvalid, if_true, readHash_of_ok hhash]
      rfl
    · have hskip : Registry.findT2 op arch shash ((key, e) :: l) =
          Registry.findT2 op arch shash l := by
        rw [Registry.findT2]
        by_cases hmatch : e.tier = .t2 ∧ e.arch = arch ∧ e.matchesRequest op = true ∧
            e.staticHash = some shash
        · have hnot : ¬e.validated = true := fun hvalid =>
            hserves ⟨hmatch.1, hmatch.2.1, hmatch.2.2.1, hmatch.2.2.2, hvalid⟩
          rw [if_pos hmatch, checkEntryFor_of_matches hmatch.2.2.1]
          exact if_neg hnot
        · exact if_neg hmatch
      rw [hskip]
      rcases ih hkeys with ⟨hnone, hall⟩ | ⟨x, hx, hash, hrest⟩
      · exact Or.inl ⟨hnone, forall_mem_cons.mpr ⟨hserves, hall⟩⟩
      · exact Or.inr ⟨x, mem_cons_of_mem _ hx, hash, hrest⟩

theorem findT1_eq (hkeys : ∀ x ∈ l, ∃ hash, fromHex x.1 = .ok hash) :
    (Registry.findT1 op arch shash l = .ok none ∧ ∀ x ∈ l, ¬servesT1 op arch shash x.2) ∨
      ∃ x ∈ l, ∃ hash, fromHex x.1 = .ok hash ∧ servesT1 op arch shash x.2 ∧
        Registry.findT1 op arch shash l =
          .ok (some (Registry.shippedVariant hash op arch .t1 x.2)) := by
  induction l with
  | nil => exact Or.inl ⟨rfl, by simp⟩
  | cons x l ih =>
    obtain ⟨key, e⟩ := x
    obtain ⟨⟨hash, hhash⟩, hkeys⟩ := forall_mem_cons.mp hkeys
    by_cases hserves : servesT1 op arch shash e
    · refine Or.inr ⟨(key, e), mem_cons_self, hash, hhash, hserves, ?_⟩
      have hop : e.matchesRequest op = true := by
        unfold ManifestVariantEntry.matchesRequest
        rw [hserves.2.2.1]
        exact beq_self_eq_true op
      refine (if_pos hserves).trans ?_
      rw [checkEntryFor_of_matches hop, readHash_of_ok hhash]
      rfl
    · have hskip : Registry.findT1 op arch shash ((key, e) :: l) =
          Registry.findT1 op arch shash l := if_neg hserves
      rw [hskip]
      rcases ih hkeys with ⟨hnone, hall⟩ | ⟨x, hx, hash, hrest⟩
      · exact Or.inl ⟨hnone, forall_mem_cons.mpr ⟨hserves, hall⟩⟩
      · exact Or.inr ⟨x, mem_cons_of_mem _ hx, hash, hrest⟩

end Entries

/-! ### Loads -/

section Loads

variable {α π : Type} {f : Load → Option α} {r : Registry π} {c : Call π}

theorem latest_append (f : Load → Option α) (l l' : List Load) :
    latest f (l ++ l') = (latest f l').or (latest f l) := by
  unfold latest
  rw [reverse_append, findSome?_append]

theorem latest_mem {a : α} {l : List Load} (h : latest f l = some a) : ∃ x ∈ l, f x = some a := by
  obtain ⟨x, hx, hf⟩ := exists_of_findSome?_eq_some h
  exact ⟨x, mem_reverse.mp hx, hf⟩

theorem TuneTable.insert_same (t : TuneTable) (arch : ArchName) (version : ℕ) (key : String)
    (x : TuneEntry × Option String) : t.insert arch version key x arch version key = some x :=
  if_pos ⟨rfl, rfl, rfl⟩

theorem TuneTable.insert_of_ne (t : TuneTable) {arch arch' : ArchName} {version version' : ℕ}
    {key key' : String} (x : TuneEntry × Option String)
    (h : ¬(arch' = arch ∧ version' = version ∧ key' = key)) :
    t.insert arch version key x arch' version' key' = t arch' version' key' := if_neg h

theorem Load.entry?_tune (arch : ArchName) (version : ℕ) (key : String) (t : TuneFile)
    (base : Option String) : entry? arch version key (.tune t base) =
      if t.arch = arch ∧ t.genVersion = version then t.entries[key]?.map (·, base) else none := rfl

theorem insertTune_eq (table : TuneTable) (t : TuneFile) (base : Option String) (arch : ArchName)
    (version : ℕ) (key : String) : Registry.insertTune table t base arch version key =
      (Load.entry? arch version key (.tune t base)).or (table arch version key) := by
  unfold Registry.insertTune
  have hfold : ∀ (l : List (String × TuneEntry)) (table : TuneTable),
      (l.foldl (fun table x => table.insert t.arch t.genVersion x.1 (x.2, base)) table)
        arch version key = table arch version key ∧
          (¬(arch = t.arch ∧ version = t.genVersion) ∨ ∀ x ∈ l, x.1 ≠ key) ∨
      (arch = t.arch ∧ version = t.genVersion) ∧ ∃ x ∈ l, x.1 = key ∧
        (l.foldl (fun table x => table.insert t.arch t.genVersion x.1 (x.2, base)) table)
          arch version key = some (x.2, base) := by
    intro l
    induction l with
    | nil => exact fun table => Or.inl ⟨rfl, Or.inr (by simp)⟩
    | cons x l ih =>
      intro table
      rcases ih (table.insert t.arch t.genVersion x.1 (x.2, base)) with ⟨heq, hnot⟩ | ⟨ht, y, hy, hrest⟩
      · by_cases hsame : arch = t.arch ∧ version = t.genVersion ∧ key = x.1
        · obtain ⟨rfl, rfl, rfl⟩ := hsame
          exact Or.inr ⟨⟨rfl, rfl⟩, x, mem_cons_self, rfl,
            heq.trans (TuneTable.insert_same table _ _ _ _)⟩
        · refine Or.inl ⟨heq.trans (table.insert_of_ne _ hsame), ?_⟩
          by_cases ht : arch = t.arch ∧ version = t.genVersion
          · refine Or.inr (forall_mem_cons.mpr ⟨?_, hnot.resolve_left (not_not_intro ht)⟩)
            exact fun hx => hsame ⟨ht.1, ht.2, hx.symm⟩
          · exact Or.inl ht
      · exact Or.inr ⟨ht, y, mem_cons_of_mem _ hy, hrest⟩
  rw [Load.entry?_tune]
  rcases hfold t.entries.toList table with ⟨heq, hnot⟩ | ⟨⟨rfl, rfl⟩, ⟨key, e⟩, hx, rfl, heq⟩
  · rw [heq]
    split_ifs with ht
    · have hnone : t.entries[key]? = none := by
        cases hget : t.entries[key]? with
        | none => rfl
        | some e =>
          have hmem := Std.ExtTreeMap.mem_toList_iff_getElem?_eq_some.mpr hget
          exact absurd rfl (hnot.resolve_left (not_not_intro ⟨ht.1.symm, ht.2.symm⟩) _ hmem)
      rw [hnone]
      rfl
    · rfl
  · rw [heq, if_pos ⟨rfl, rfl⟩, Std.ExtTreeMap.mem_toList_iff_getElem?_eq_some.mp hx]
    rfl

theorem checkBundle_eq_ok {dir : String} {file : Except RegistryError BundleManifest}
    {m : BundleManifest} : r.checkBundle dir file = .ok m ↔
      file = .ok m ∧ m.validate = .ok () ∧ m.genVersion = r.config.genVersion := by
  unfold Registry.checkBundle BundleManifest.validateVersion
  simp only [bind_eq_ok, ensure_eq_ok, pure, Except.pure, Except.ok.injEq]
  constructor
  · rintro ⟨m', hfile, _, hvalid, _, hversion, rfl⟩
    exact ⟨hfile, hvalid, hversion⟩
  · rintro ⟨hfile, hvalid, hversion⟩
    exact ⟨m, hfile, (), hvalid, (), hversion, rfl⟩

theorem checkManifest_eq_ok {m : BundleManifest} {u : Unit} : r.checkManifest m = .ok u ↔
    m.validate = .ok () ∧ m.genVersion = r.config.genVersion := by
  unfold Registry.checkManifest BundleManifest.validateVersion
  simp only [bind_eq_ok, ensure_eq_ok]
  constructor
  · rintro ⟨_, h⟩
    exact h
  · exact fun h => ⟨(), h⟩

theorem loadBundle_cases (r : Registry π) (dir : String)
    (file : Except RegistryError BundleManifest) :
    (∃ e, r.loadBundle dir file = (.error e, r)) ∨
      ∃ m, file = .ok m ∧ m.validate = .ok () ∧ m.genVersion = r.config.genVersion ∧
        r.loadBundle dir file = (.ok (), { r with bundleDir := some dir, manifest := some m }) := by
  unfold Registry.loadBundle
  cases hcheck : r.checkBundle dir file with
  | error e => exact Or.inl ⟨e, rfl⟩
  | ok m =>
    obtain ⟨hfile, hvalid, hversion⟩ := checkBundle_eq_ok.mp hcheck
    exact Or.inr ⟨m, hfile, hvalid, hversion, rfl⟩

theorem setManifest_cases (r : Registry π) (m : BundleManifest) (dir : Option String) :
    (∃ e, r.setManifest m dir = (.error e, r)) ∨
      m.validate = .ok () ∧ m.genVersion = r.config.genVersion ∧
        r.setManifest m dir = (.ok (), { r with bundleDir := dir, manifest := some m }) := by
  unfold Registry.setManifest
  cases hcheck : r.checkManifest m with
  | error e => exact Or.inl ⟨e, rfl⟩
  | ok u =>
    obtain ⟨hvalid, hversion⟩ := checkManifest_eq_ok.mp hcheck
    exact Or.inr ⟨hvalid, hversion, rfl⟩

theorem loadTuneFile_cases (r : Registry π) (t : TuneFile) (base : Option String) :
    (∃ e, r.loadTuneFile t base = (.error e, r)) ∨
      (t.genVersion = r.config.genVersion ∧ r.loadTuneFile t base =
        (.ok true, { r with tuneEntries := Registry.insertTune r.tuneEntries t base })) ∨
      r.loadTuneFile t base = (.ok false, r) := by
  unfold Registry.loadTuneFile
  cases Registry.checkTune t base with
  | error e => exact Or.inl ⟨e, rfl⟩
  | ok u =>
    by_cases hversion : t.genVersion = r.config.genVersion
    · exact Or.inr (Or.inl ⟨hversion, if_neg (not_not_intro hversion)⟩)
    · exact Or.inr (Or.inr (if_pos hversion))

theorem loadTuneFileFromPath_cases (r : Registry π) (file : Except RegistryError TuneFile)
    (parent : Option String) : (∃ e, r.loadTuneFileFromPath file parent = (.error e, r)) ∨
      ∃ t, file = .ok t ∧ r.loadTuneFileFromPath file parent = r.loadTuneFile t parent := by
  unfold Registry.loadTuneFileFromPath
  cases hcheck : Registry.checkTuneFile file with
  | error e => exact Or.inl ⟨e, rfl⟩
  | ok t =>
    unfold Registry.checkTuneFile at hcheck
    simp only [bind_eq_ok, pure, Except.pure, Except.ok.injEq] at hcheck
    obtain ⟨_, hfile, _, -, rfl⟩ := hcheck
    exact Or.inr ⟨_, hfile, rfl⟩

/-- **What a call can do.** It fails and changes nothing, loads a manifest of the registry's
version, loads a tune file of that version, or changes neither of them. -/
theorem call_cases (r : Registry π) (c : Call π) :
    (∃ e, (r.call c).1 = .error e ∧ (r.call c).2 = r ∧ r.accepted c = []) ∨
      (∃ m dir, m.validate = .ok () ∧ m.genVersion = r.config.genVersion ∧
        r.call c = (.ok true, { r with bundleDir := dir, manifest := some m }) ∧
        r.accepted c = [.bundle m r.config.genVersion]) ∨
      (∃ t base, t.genVersion = r.config.genVersion ∧
        r.call c = (.ok true,
          { r with tuneEntries := Registry.insertTune r.tuneEntries t base }) ∧
        r.accepted c = [.tune t base]) ∨
      ((r.call c).2.manifest = r.manifest ∧ (r.call c).2.tuneEntries = r.tuneEntries ∧
        (∃ b, (r.call c).1 = .ok b) ∧ r.accepted c = []) := by
  cases c with
  | loadBundle dir file =>
    rcases loadBundle_cases r dir file with ⟨e, hload⟩ | ⟨m, rfl, hvalid, hversion, hload⟩
    · refine Or.inl ⟨e, ?_, ?_, ?_⟩ <;>
        simp only [Registry.accepted, Registry.call, hload, Except.map]
    · refine Or.inr (Or.inl ⟨m, some dir, hvalid, hversion, ?_, ?_⟩) <;>
        simp only [Registry.accepted, Registry.call, hload, Except.map, Registry.loads]
  | setManifest m dir =>
    rcases setManifest_cases r m dir with ⟨e, hload⟩ | ⟨hvalid, hversion, hload⟩
    · refine Or.inl ⟨e, ?_, ?_, ?_⟩ <;>
        simp only [Registry.accepted, Registry.call, hload, Except.map]
    · refine Or.inr (Or.inl ⟨m, dir, hvalid, hversion, ?_, ?_⟩) <;>
        simp only [Registry.accepted, Registry.call, hload, Except.map, Registry.loads]
  | loadTuneFile t base =>
    rcases loadTuneFile_cases r t base with ⟨e, hload⟩ | ⟨hversion, hload⟩ | hload
    · refine Or.inl ⟨e, ?_, ?_, ?_⟩ <;> simp only [Registry.accepted, Registry.call, hload]
    · refine Or.inr (Or.inr (Or.inl ⟨t, base, hversion, ?_, ?_⟩)) <;>
        simp only [Registry.accepted, Registry.call, hload, Registry.loads]
    · refine Or.inr (Or.inr (Or.inr ⟨?_, ?_, ⟨false, ?_⟩, ?_⟩)) <;>
        simp only [Registry.accepted, Registry.call, hload]
  | loadTuneFileFromPath file parent =>
    rcases loadTuneFileFromPath_cases r file parent with ⟨e, hload⟩ | ⟨t, rfl, hpath⟩
    · refine Or.inl ⟨e, ?_, ?_, ?_⟩ <;> simp only [Registry.accepted, Registry.call, hload]
    · rcases loadTuneFile_cases r t parent with ⟨e, hload⟩ | ⟨hversion, hload⟩ | hload
      · refine Or.inl ⟨e, ?_, ?_, ?_⟩ <;> simp only [Registry.accepted, Registry.call, hpath, hload]
      · refine Or.inr (Or.inr (Or.inl ⟨t, parent, hversion, ?_, ?_⟩)) <;>
          simp only [Registry.accepted, Registry.call, hpath, hload, Registry.loads]
      · refine Or.inr (Or.inr (Or.inr ⟨?_, ?_, ⟨false, ?_⟩, ?_⟩)) <;>
          simp only [Registry.accepted, Registry.call, hpath, hload]
  | registerJitProvider p => exact Or.inr (Or.inr (Or.inr ⟨rfl, rfl, ⟨true, rfl⟩, rfl⟩))
  | configMut config => exact Or.inr (Or.inr (Or.inr ⟨rfl, rfl, ⟨true, rfl⟩, rfl⟩))

theorem call_error {e : RegistryError} (h : (r.call c).1 = .error e) : (r.call c).2 = r := by
  rcases call_cases r c with ⟨_, -, hsame, -⟩ | ⟨m, dir, -, -, hcall, -⟩ | ⟨t, base, -, hcall, -⟩ |
    ⟨-, -, ⟨b, hok⟩, -⟩
  · exact hsame
  · rw [hcall] at h
    cases h
  · rw [hcall] at h
    cases h
  · rw [hok] at h
    cases h

/-! ### Runs -/

theorem call_manifest (r : Registry π) (c : Call π) :
    (r.call c).2.manifest =
      ((latest Load.manifest? (r.accepted c)).map Prod.fst).or r.manifest := by
  rcases call_cases r c with ⟨e, -, hsame, hacc⟩ | ⟨m, dir, -, -, hcall, hacc⟩ |
    ⟨t, base, -, hcall, hacc⟩ | ⟨hsame, -, -, hacc⟩
  · rw [hsame, hacc]
    rfl
  · rw [hcall, hacc]
    rfl
  · rw [hcall, hacc]
    rfl
  · rw [hsame, hacc]
    rfl

theorem call_tuneEntries (r : Registry π) (c : Call π) (arch : ArchName) (version : ℕ)
    (key : String) : (r.call c).2.tuneEntries arch version key =
      (latest (Load.entry? arch version key) (r.accepted c)).or
        (r.tuneEntries arch version key) := by
  rcases call_cases r c with ⟨e, -, hsame, hacc⟩ | ⟨m, dir, -, -, hcall, hacc⟩ |
    ⟨t, base, -, hcall, hacc⟩ | ⟨-, hsame, -, hacc⟩
  · rw [hsame, hacc]
    rfl
  · rw [hcall, hacc]
    rfl
  · rw [hcall, hacc]
    exact (insertTune_eq r.tuneEntries t base arch version key).trans (by simp [latest])
  · rw [hsame, hacc]
    rfl

theorem run_manifest (r : Registry π) (calls : List (Call π)) :
    (r.run calls).1.manifest =
      ((latest Load.manifest? (r.run calls).2).map Prod.fst).or r.manifest := by
  induction calls generalizing r with
  | nil => rfl
  | cons c calls ih =>
    unfold Registry.run
    rw [ih, call_manifest, latest_append, ← Option.or_assoc, Option.map_or]

theorem run_tuneEntries (r : Registry π) (calls : List (Call π)) (arch : ArchName) (version : ℕ)
    (key : String) : (r.run calls).1.tuneEntries arch version key =
      (latest (Load.entry? arch version key) (r.run calls).2).or
        (r.tuneEntries arch version key) := by
  induction calls generalizing r with
  | nil => rfl
  | cons c calls ih =>
    unfold Registry.run
    rw [ih, call_tuneEntries, latest_append, ← Option.or_assoc]

theorem run_bundle (r : Registry π) (calls : List (Call π)) {m : BundleManifest} {version : ℕ}
    (h : .bundle m version ∈ (r.run calls).2) : m.validate = .ok () ∧ m.genVersion = version := by
  induction calls generalizing r with
  | nil => cases h
  | cons c calls ih =>
    rcases mem_append.mp h with h | h
    · rcases call_cases r c with ⟨e, -, -, hacc⟩ | ⟨m', dir, hvalid, hversion, -, hacc⟩ |
        ⟨t, base, -, -, hacc⟩ | ⟨-, -, -, hacc⟩
      · rw [hacc] at h
        cases h
      · rw [hacc] at h
        obtain ⟨rfl, rfl⟩ := Load.bundle.inj (mem_singleton.mp h)
        exact ⟨hvalid, hversion⟩
      · rw [hacc] at h
        cases mem_singleton.mp h
      · rw [hacc] at h
        cases h
    · exact ih _ h

end Loads

/-! ### Sources -/

section Sources

variable {π σ : Type} [OpStatic σ] {r : Registry π} {answer : Registry.Answers π σ} {op : OpId}
  {arch : ArchName} {s : σ} {v : ResolvedVariant}

/-- An architecture is listed by the manifest that was loaded last. -/
def Listed (loads : List Load) (arch : ArchName) : Prop :=
  ∃ m version, latest Load.manifest? loads = some (m, version) ∧ arch ∈ m.archs

/-- An entry of the manifest that was loaded last, which was of the version that the registry
had at the time. -/
def Shipped (loads : List Load) (key : String) (e : ManifestVariantEntry) : Prop :=
  ∃ m version, latest Load.manifest? loads = some (m, version) ∧ m.genVersion = version ∧
    m.variants[key]? = some e

/-- The tune entry of a request that was loaded last is a kernel. -/
def LocalT2 (loads : List Load) (version : ℕ) (op : OpId) (arch : ArchName) (shash : UInt64)
    (e : TuneEntry) (base : Option String) : Prop :=
  latest (Load.entry? arch version (TuneFile.entryKey op shash)) loads = some (e, base) ∧
    e.validated = true ∧ e.codeObject.isSome = true

theorem resolve_eq_ok : r.resolve answer op arch s = .ok v ↔ Registry.checkStatic op s = .ok () ∧
    (if r.isArchSupported arch then r.resolveListed answer op arch s
      else r.resolveUnlisted answer op arch s) = .ok v := by
  unfold Registry.resolve
  rw [bind_eq_ok]
  constructor
  · rintro ⟨_, h⟩
    exact h
  · exact fun h => ⟨(), h⟩

omit [OpStatic σ] in
theorem resolveUnlisted_eq_ok : r.resolveUnlisted answer op arch s = .ok v ↔
    r.config.allowJit = true ∧ ∃ p, r.jitProvider = some p ∧ answer p op arch s = .ok v ∧
      v.validated = true := by
  unfold Registry.resolveUnlisted
  cases r.config.allowJit with
  | false => simp
  | true =>
    cases r.jitProvider with
    | none => simp
    | some p =>
      cases hanswer : answer p op arch s with
      | error e => simp [hanswer]
      | ok w =>
        by_cases hvalid : w.validated = true
        · simp only [hvalid, if_true, true_and, Option.some.injEq, exists_eq_left', hanswer,
            Except.ok.injEq]
          constructor
          · rintro rfl
            exact ⟨rfl, hvalid⟩
          · exact fun h => h.1
        · simp only [hvalid, true_and, Option.some.injEq, exists_eq_left', hanswer,
            Except.ok.injEq]
          refine iff_of_false (by simp) ?_
          rintro ⟨rfl, h⟩
          exact hvalid h

omit [OpStatic σ] in
theorem findJit_eq_some : r.findJit answer op arch s = some v ↔
    r.config.allowJit = true ∧ ∃ p w, r.jitProvider = some p ∧ answer p op arch s = .ok w ∧
      w.validated = true ∧ v = Registry.withOrigin w := by
  unfold Registry.findJit
  cases r.config.allowJit with
  | false => simp
  | true =>
    cases r.jitProvider with
    | none => simp
    | some p =>
      cases hanswer : answer p op arch s with
      | error e => simp [hanswer]
      | ok w =>
        by_cases hvalid : w.validated = true
        · simp only [hanswer, if_pos hvalid, Option.some.injEq, true_and]
          constructor
          · rintro rfl
            exact ⟨p, w, rfl, hanswer, hvalid, rfl⟩
          · rintro ⟨_, _, rfl, hw, -, rfl⟩
            rw [Except.ok.inj (hanswer.symm.trans hw)]
        · simp [hanswer, hvalid]

theorem findLocal_eq_some : r.findLocal op arch s = some v ↔
    ∃ e base, r.tuneEntries arch r.config.genVersion
        (TuneFile.entryKey op (OpStatic.staticHash s)) = some (e, base) ∧
      (e.validated = true ∧ e.codeObject.isSome = true) ∧ v = r.localVariant op arch s e base := by
  unfold Registry.findLocal
  cases hentry : r.tuneEntries arch r.config.genVersion
      (TuneFile.entryKey op (OpStatic.staticHash s)) with
  | none => simp
  | some x =>
    obtain ⟨e, base⟩ := x
    by_cases hvalid : e.validated = true ∧ e.codeObject.isSome = true
    · simp only [if_pos hvalid, Option.some.injEq, Prod.mk.injEq]
      constructor
      · rintro rfl
        exact ⟨e, base, ⟨rfl, rfl⟩, hvalid, rfl⟩
      · rintro ⟨_, _, ⟨rfl, rfl⟩, -, rfl⟩
        rfl
    · simp only [if_neg hvalid, Option.some.injEq, Prod.mk.injEq]
      refine iff_of_false (by simp) ?_
      rintro ⟨_, _, ⟨rfl, rfl⟩, h, -⟩
      exact hvalid h

theorem withOrigin_eq (v : ResolvedVariant) : (Registry.withOrigin v).validated = v.validated ∧
    (Registry.withOrigin v).op = v.op ∧ (Registry.withOrigin v).arch = v.arch := by
  unfold Registry.withOrigin
  split_ifs
  · exact ⟨rfl, rfl, rfl⟩
  · exact ⟨rfl, rfl, rfl⟩

/-! ### Resolution -/

variable {config : RegistryConfig} {calls : List (Call π)}

theorem run_new_manifest (config : RegistryConfig) (calls : List (Call π)) :
    ((Registry.new config).run calls).1.manifest =
      (latest Load.manifest? ((Registry.new config).run calls).2).map Prod.fst :=
  (run_manifest _ _).trans (Option.or_none)

theorem run_new_tuneEntries (config : RegistryConfig) (calls : List (Call π)) (arch : ArchName)
    (version : ℕ) (key : String) :
    ((Registry.new config).run calls).1.tuneEntries arch version key =
      latest (Load.entry? arch version key) ((Registry.new config).run calls).2 :=
  (run_tuneEntries _ _ _ _ _).trans (Option.or_none)

theorem isArchSupported_iff :
    ((Registry.new config).run calls).1.isArchSupported arch = true ↔
      Listed ((Registry.new (π := π) config).run calls).2 arch := by
  unfold Registry.isArchSupported Listed
  rw [run_new_manifest]
  cases latest Load.manifest? ((Registry.new config).run calls).2 with
  | none => simp
  | some x =>
    obtain ⟨m, version⟩ := x
    simp [BundleManifest.isArchSupported]

theorem mem_entries {x : String × ManifestVariantEntry} :
    x ∈ ((Registry.new config).run calls).1.entries ↔
      Shipped ((Registry.new (π := π) config).run calls).2 x.1 x.2 := by
  unfold Registry.entries Shipped
  rw [run_new_manifest]
  cases hlatest : latest Load.manifest? ((Registry.new config).run calls).2 with
  | none => simp
  | some y =>
    obtain ⟨m, version⟩ := y
    obtain ⟨load, hload, hm⟩ := latest_mem hlatest
    obtain ⟨m', version'⟩ | ⟨t, base⟩ := load
    · cases hm
      have hversion := (run_bundle _ calls hload).2
      constructor
      · exact fun h => ⟨m, version, rfl, hversion, Std.ExtTreeMap.mem_toList_iff_getElem?_eq_some.mp h⟩
      · rintro ⟨_, _, heq, -, h⟩
        cases heq
        exact Std.ExtTreeMap.mem_toList_iff_getElem?_eq_some.mpr h
    · cases hm

theorem Shipped.listed {key : String} {e : ManifestVariantEntry}
    (h : Shipped ((Registry.new (π := π) config).run calls).2 key e) :
    Listed ((Registry.new (π := π) config).run calls).2 e.arch ∧
      ∃ hash, fromHex key = .ok hash := by
  obtain ⟨m, version, hlatest, -, hget⟩ := h
  obtain ⟨load, hload, hm⟩ := latest_mem hlatest
  obtain ⟨m', version'⟩ | ⟨t, base⟩ := load
  · cases hm
    have hvalid := (run_bundle _ calls hload).1
    have hlisted := m.arch_listed hvalid hget
    unfold BundleManifest.isArchSupported at hlisted
    exact ⟨⟨m, version, hlatest, by simpa using hlisted⟩, (m.key_ok hvalid hget).2⟩
  · cases hm

/-- A provider compiles a kernel for a request, and this is allowed. -/
def Compiled (r : Registry π) (answer : Registry.Answers π σ) (op : OpId) (arch : ArchName) (s : σ)
    (w : ResolvedVariant) : Prop :=
  r.config.allowJit = true ∧ ∃ p, r.jitProvider = some p ∧ answer p op arch s = .ok w ∧
    w.validated = true

/-- The sources of a listed architecture, in their order. -/
inductive Resolved (r : Registry π) (loads : List Load) (answer : Registry.Answers π σ) (op : OpId)
    (arch : ArchName) (s : σ) : ResolvedVariant → Prop
  | shipped {key : String} {e : ManifestVariantEntry} {hash : UInt64} (h : Shipped loads key e)
      (hserves : servesT2 op arch (OpStatic.staticHash s) e) (hhash : fromHex key = .ok hash) :
      Resolved r loads answer op arch s (Registry.shippedVariant hash op arch .t2 e)
  | tuned {e : TuneEntry} {base : Option String}
      (hnone : ¬∃ key e, Shipped loads key e ∧ servesT2 op arch (OpStatic.staticHash s) e)
      (h : LocalT2 loads r.config.genVersion op arch (OpStatic.staticHash s) e base) :
      Resolved r loads answer op arch s (r.localVariant op arch s e base)
  | compiled {w : ResolvedVariant}
      (hnone : ¬∃ key e, Shipped loads key e ∧ servesT2 op arch (OpStatic.staticHash s) e)
      (hlocal : ¬∃ e base, LocalT2 loads r.config.genVersion op arch (OpStatic.staticHash s) e base)
      (h : Compiled r answer op arch s w) :
      Resolved r loads answer op arch s (Registry.withOrigin w)
  | fallback {key : String} {e : ManifestVariantEntry} {hash : UInt64}
      (hnone : ¬∃ key e, Shipped loads key e ∧ servesT2 op arch (OpStatic.staticHash s) e)
      (hlocal : ¬∃ e base, LocalT2 loads r.config.genVersion op arch (OpStatic.staticHash s) e base)
      (hjit : ¬∃ w, Compiled r answer op arch s w) (h : Shipped loads key e)
      (hserves : servesT1 op arch (OpStatic.staticHash s) e) (hhash : fromHex key = .ok hash) :
      Resolved r loads answer op arch s (Registry.shippedVariant hash op arch .t1 e)

/-- **A listed architecture is resolved by the first source that has a kernel.** -/
theorem resolveListed_latest (h : ((Registry.new config).run calls).1.resolveListed answer op arch s =
    .ok v) : Resolved ((Registry.new config).run calls).1 ((Registry.new config).run calls).2 answer
      op arch s v := by
  set r := ((Registry.new config).run calls).1 with hr
  set loads := ((Registry.new config).run calls).2 with hloads
  have hkeys : ∀ x ∈ r.entries, ∃ hash, fromHex x.1 = .ok hash :=
    fun x hx => (mem_entries.mp hx).listed.2
  unfold Registry.resolveListed at h
  rcases @findT2_eq op arch (OpStatic.staticHash s) r.entries hkeys with
    ⟨hfind, hnone⟩ | ⟨x, hx, hash, hhash, hserves, hfind⟩
  · have hnone : ¬∃ key e, Shipped loads key e ∧ servesT2 op arch (OpStatic.staticHash s) e := by
      rintro ⟨key, e, hshipped, hserves⟩
      exact hnone (key, e) (mem_entries.mpr hshipped) hserves
    simp only [hfind] at h
    cases hlocal : r.findLocal op arch s with
    | some w =>
      simp only [hlocal] at h
      obtain rfl := Except.ok.inj h
      obtain ⟨e, base, hentry, hvalid, rfl⟩ := findLocal_eq_some.mp hlocal
      rw [hr, run_new_tuneEntries] at hentry
      exact .tuned hnone ⟨hentry, hvalid⟩
    | none =>
      have hnolocal : ¬∃ e base,
          LocalT2 loads r.config.genVersion op arch (OpStatic.staticHash s) e base := by
        rintro ⟨e, base, hentry, hvalid⟩
        rw [hloads, ← run_new_tuneEntries] at hentry
        have hsome := findLocal_eq_some.mpr ⟨e, base, hentry, hvalid, rfl⟩
        rw [hlocal] at hsome
        cases hsome
      simp only [hlocal] at h
      cases hjit : r.findJit answer op arch s with
      | some w =>
        simp only [hjit] at h
        obtain rfl := Except.ok.inj h
        obtain ⟨hallow, p, w, hp, hanswer, hvalid, rfl⟩ := findJit_eq_some.mp hjit
        exact .compiled hnone hnolocal ⟨hallow, p, hp, hanswer, hvalid⟩
      | none =>
        have hnojit : ¬∃ w, Compiled r answer op arch s w := by
          rintro ⟨w, hallow, p, hp, hanswer, hvalid⟩
          have hsome := findJit_eq_some.mpr ⟨hallow, p, w, hp, hanswer, hvalid, rfl⟩
          rw [hjit] at hsome
          cases hsome
        simp only [hjit] at h
        unfold Registry.resolveT1 at h
        cases hmanifest : r.manifest with
        | none =>
          rw [hmanifest] at h
          cases h
        | some m =>
          have hentries : r.entries = m.variants.toList := by
            unfold Registry.entries
            rw [hmanifest]
          rw [hentries] at hkeys
          rcases @findT1_eq op arch (OpStatic.staticHash s) m.variants.toList hkeys with
            ⟨hfind, -⟩ | ⟨x, hx, hash, hhash, hserves, hfind⟩
          · simp only [hmanifest, hfind] at h
            cases h
          · simp only [hmanifest, hfind] at h
            obtain rfl := Except.ok.inj h
            rw [← hentries] at hx
            exact .fallback hnone hnolocal hnojit (mem_entries.mp hx) hserves hhash
  · simp only [hfind] at h
    obtain rfl := Except.ok.inj h
    exact .shipped (mem_entries.mp hx) hserves hhash

end Sources

/-! ### A small registry -/

section Small

/-- One static description of a product of matrices. -/
inductive SmallStatic
  | matmul

instance smallStatic : OpStatic SmallStatic where
  opId _ := .matmul
  problems _ := []
  staticHash _ := 7
  variantHash _ := 9

def smallGeometry : LaunchGeometry := ⟨(1, 1, 1), (64, 1, 1), 0⟩

def smallEntry : TuneEntry where
  config := ⟨64, 64, 32, 1, 1, 1, 1, 0, 0⟩
  medianUs := 1
  bytes := 0
  flops := 0
  launchGeometry := smallGeometry
  workspaceBytes := 0
  codeObject := some "matmul.co"
  validated := true
  clockMhz := none

def smallTune : TuneFile where
  arch := "gfx942"
  genVersion := 1
  clockMhz := none
  entries := (∅ : Std.ExtTreeMap String TuneEntry).insert (TuneFile.entryKey .matmul 7) smallEntry

def smallCompiled (op : OpId) (arch : ArchName) : ResolvedVariant where
  variantHash := 3
  arch := arch
  op := op
  tier := .t1
  entrySymbol := "jit"
  launchGeometry := smallGeometry
  workspaceBytes := 0
  staticBytes := 0
  staticFlops := 0
  codeObjectPath := none
  artifactOrigin := none
  codeObjectBytes := some []
  validated := true

/-- A provider that compiles for any request. -/
def smallAnswer : Registry.Answers Unit SmallStatic := fun _ op arch _ => .ok (smallCompiled op arch)

def smallConfig : RegistryConfig := ⟨1, true⟩

def smallCalls : List (Call Unit) := [.loadTuneFile smallTune (some "tune"), .registerJitProvider ()]

theorem smallTune_ok : Registry.checkTune smallTune (some "tune") = .ok () := by decide

theorem small_loads : ((Registry.new smallConfig).run smallCalls).2 =
    [.tune smallTune (some "tune")] := by
  have hload : (Registry.new (π := Unit) smallConfig).loadTuneFile smallTune (some "tune") =
      (.ok true, { Registry.new smallConfig with
        tuneEntries := Registry.insertTune (fun _ _ _ => none) smallTune (some "tune") }) := by
    unfold Registry.loadTuneFile
    rfl
  simp only [smallCalls, Registry.run, Registry.accepted, Registry.call, hload, Registry.loads,
    append_nil]

theorem small_resolve :
    ((Registry.new smallConfig).run smallCalls).1.resolve smallAnswer .matmul "gfx942" .matmul =
      .ok (smallCompiled .matmul "gfx942") := by
  decide

end Small

end R9v.Kernels

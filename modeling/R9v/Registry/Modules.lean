import R9v.Registry.History

/-!
# Loaded modules

A registry loads the code object of a kernel when it is first used, and keeps the module under
the hash of the kernel (`Registry::load_module` in `r9v-registry/src/resolution.rs`). A module
is what the device gives for a code object, of some type `μ`, together with the code object it
was loaded from, which the source does not keep. So two kernels must not have the same hash.
The keys of a manifest are hashes in any spelling, and those of a tune file are too, so that
they are unambiguous only when they are spelled as they are written (`keys_unambiguous_iff`,
`tune_found_iff`). Then no kernel is given the module of another (`modules_own`).
-/

namespace R9v.Kernels

open Checked

/-- A code object: some bytes, or a file in a directory. -/
inductive CodeObject
  | bytes (bytes : List UInt8)
  | file (base path : String)
  deriving DecidableEq

/-- A module on the device, and what it was loaded from. -/
structure Module (μ : Type) where
  handle : μ
  source : CodeObject

/-- The files and the device, at one time: whether a file is outside of its directory, what is
read from it, and what is loaded. -/
structure Host (μ : Type) where
  escapes : String → String → Bool
  read : String → String → Except String (List UInt8)
  loadData : List UInt8 → Except String μ

/-- The modules that were loaded, by their hashes. -/
def Cache (μ : Type) : Type := UInt64 → Option (Module μ)

def Cache.insert {μ : Type} (c : Cache μ) (hash : UInt64) (m : Module μ) : Cache μ :=
  fun hash' => if hash' = hash then some m else c hash'

namespace Registry

variable {π σ μ : Type} [OpStatic σ] (r : Registry π)

/-- The directory of the code object of a kernel. -/
def baseOf (v : ResolvedVariant) : Except RegistryError String :=
  let fail detail := RegistryError.moduleLoadError v.variantHash v.entrySymbol detail
  match v.artifactOrigin with
  | some .shipped => okOr r.bundleDir (fail "bundle directory not configured for shipped variant")
  | some (.local (some base)) => .ok base
  | some (.local none) =>
    .error (fail "no base directory configured for relative local code object")
  | none => okOr r.bundleDir (fail "no base directory or bundle directory configured")

/-- The code object of a kernel. -/
def codeObject (v : ResolvedVariant) : Except RegistryError CodeObject :=
  let fail detail := RegistryError.moduleLoadError v.variantHash v.entrySymbol detail
  match v.codeObjectBytes, v.codeObjectPath with
  | some bytes, _ => .ok (.bytes bytes)
  | none, none => .error (fail "no code object bytes or file path provided for variant")
  | none, some path => do
    ensure (isAbsolutePath path = false)
      (fail ("disallowed code object path '" ++ path ++ "': path is absolute"))
    ensure (traversesParent path = false) (fail ("disallowed code object path '" ++ path ++
      "': parent traversal ('..') is prohibited"))
    ensure (isBlank path = false) (fail "code object path cannot be empty")
    let base ← r.baseOf v
    pure (.file base path)

/-- The bytes of a code object. -/
def readCode (host : Host μ) (v : ResolvedVariant) :
    CodeObject → Except RegistryError (List UInt8)
  | .bytes bytes => .ok bytes
  | .file base path => do
    ensure (host.escapes base path = false) (.moduleLoadError v.variantHash v.entrySymbol
      ("path traversal detected: '" ++ path ++ "' resolved outside base '" ++ base ++ "'"))
    match host.read base path with
    | .ok bytes => .ok bytes
    | .error e => .error (.io e)

/-- Loads the module of a kernel that is not loaded. -/
def loadFresh (host : Host μ) (v : ResolvedVariant) : Except RegistryError (Module μ) := do
  let code ← r.codeObject v
  let bytes ← readCode host v code
  match host.loadData bytes with
  | .ok handle => .ok ⟨handle, code⟩
  | .error e => .error (.moduleLoadError v.variantHash v.entrySymbol e)

/-- **Gives the module of a kernel**, and keeps it. -/
def loadModule (host : Host μ) (cache : Cache μ) (v : ResolvedVariant) :
    Except RegistryError (Module μ) × Cache μ :=
  if v.validated then
    match cache v.variantHash with
    | some m => (.ok m, cache)
    | none =>
      match r.loadFresh host v with
      | .ok m => (.ok m, cache.insert v.variantHash m)
      | .error e => (.error e, cache)
  else (.error (.variantNotValidated v.variantHash v.op v.arch), cache)

end Registry

/-- A request to a registry: its operation is resolved, with what the provider answers, and the
kernel is loaded, with the files as they are. -/
structure Request (π σ μ : Type) where
  op : OpId
  arch : ArchName
  static : σ
  answer : Registry.Answers π σ
  host : Host μ

section Requests

variable {π σ μ : Type} [OpStatic σ]

def Registry.resolved (r : Registry π) (q : Request π σ μ) : Except RegistryError ResolvedVariant :=
  r.resolve q.answer q.op q.arch q.static

/-- Serves some requests, and lists the kernels that were loaded with their modules. -/
def Registry.serve (r : Registry π) (cache : Cache μ) :
    List (Request π σ μ) → List (ResolvedVariant × Module μ)
  | [] => []
  | q :: qs =>
    match r.resolved q with
    | .error _ => serve r cache qs
    | .ok v =>
      match r.loadModule q.host cache v with
      | (.ok m, cache') => (v, m) :: serve r cache' qs
      | (.error _, cache') => serve r cache' qs

end Requests

/-! ### Keys -/

section Keys

variable {m : BundleManifest} {t : TuneFile}

/-- Different keys are different hashes, and each hash is looked up as its key. -/
def KeysUnambiguous (m : BundleManifest) : Prop :=
  (∀ k k' e e' hash, m.variants[k]? = some e → m.variants[k']? = some e' → k ≠ k' →
    fromHex k = .ok hash → fromHex k' ≠ .ok hash) ∧
  ∀ k e hash, m.variants[k]? = some e → fromHex k = .ok hash → m.getVariant hash = some e

/-- Each key is read, and its operation and hash are looked up as the key. -/
def EntriesFound (t : TuneFile) : Prop :=
  ∀ k e, t.entries[k]? = some e →
    ∃ op hash, TuneFile.parseKey k = some (op, hash) ∧ t.getEntry op hash = some e

def CanonicalKeys (m : BundleManifest) : Prop := ∀ k e, m.variants[k]? = some e → Canonical k

/-- The hash of each key is sixteen lowercase digits, or the key is another spelling of one with
the same entry. -/
def CanonicalEntries (t : TuneFile) : Prop :=
  ∀ (k : String) e, t.entries[k]? = some e → ∃ (op : OpId) (s : String),
    k.toList = op.asStr.toList ++ '.' :: s.toList ∧ (Canonical s ∨
      ∃ hash, fromStrRadix16 s.toList = .ok hash ∧ t.entries[TuneFile.entryKey op hash]? = some e)

/-- **The keys of a manifest are unambiguous** when they are sixteen lowercase digits. -/
theorem keys_unambiguous_iff (hm : m.validate = .ok ()) : KeysUnambiguous m ↔ CanonicalKeys m := by
  constructor
  · rintro ⟨hne, hget⟩ k e hk
    obtain ⟨-, hash, hhash⟩ := m.key_ok hm hk
    rw [← toHex_eq_iff hhash]
    -- otherwise the spelling that is looked up is a second key
    by_contra hother
    exact hne k (toHex hash) e e hash hk (hget k e hash hk hhash) (Ne.symm hother) hhash
      (fromHex_toHex hash)
  · intro hcanonical
    refine ⟨fun k k' e e' hash hk hk' hne hhash hhash' => ?_, fun k e hash hk hhash => ?_⟩
    · exact hne ((hcanonical k e hk).eq_of_fromHex (hcanonical k' e' hk') hhash hhash')
    · unfold BundleManifest.getVariant
      rw [(toHex_eq_iff hhash).mpr (hcanonical k e hk)]
      exact hk

/-- **The entries of a tune file are found** when their hashes are sixteen lowercase digits. -/
theorem tune_found_iff (ht : t.validate = .ok ()) : EntriesFound t ↔ CanonicalEntries t := by
  refine forall_congr' fun k => forall_congr' fun e => forall_congr' fun hk => ?_
  obtain ⟨op, hash, hparse⟩ := TuneFile.key_ok ht hk
  obtain ⟨s, heq, hread⟩ := TuneFile.parseKey_eq_some.mp hparse
  constructor
  · rintro ⟨op', hash', hparse', hget⟩
    rw [hparse] at hparse'
    obtain ⟨rfl, rfl⟩ := Prod.mk.inj (Option.some.inj hparse')
    exact ⟨op, s, heq, Or.inr ⟨hash, hread, hget⟩⟩
  · rintro ⟨op', s', heq', hcase⟩
    rcases hcase with hcanonical | ⟨hash', hread', hget⟩
    · obtain ⟨hash', rfl⟩ := hcanonical.exists_toHex
      have hread' : fromStrRadix16 (toHex hash').toList = .ok hash' := by
        have hclean := (canonical_toHex hash').signless_eq.1
        have hhex := fromHex_toHex hash'
        unfold fromHex at hhex
        rwa [hclean] at hhex
      refine ⟨op', hash', TuneFile.parseKey_eq_some.mpr ⟨_, heq', hread'⟩, ?_⟩
      unfold TuneFile.getEntry
      rw [(TuneFile.entryKey_eq_iff heq' hread').mpr (canonical_toHex hash')]
      exact hk
    · exact ⟨op', hash', TuneFile.parseKey_eq_some.mpr ⟨s', heq', hread'⟩, hget⟩

end Keys

/-! ### Modules -/

section Own

variable {π σ μ : Type} [OpStatic σ] {r : Registry π} {q : Request π σ μ} {v w : ResolvedVariant}

/-- A kernel that is an entry of the manifest. -/
def FromManifest (r : Registry π) (v : ResolvedVariant) : Prop :=
  ∃ m key e, r.manifest = some m ∧ m.variants[key]? = some e ∧ fromHex key = .ok v.variantHash ∧
    v.codeObjectBytes = none ∧ v.codeObjectPath = some e.file ∧ v.artifactOrigin = some .shipped

/-- A kernel that a request has from another source. -/
def Candidate (r : Registry π) (q : Request π σ μ) (v : ResolvedVariant) : Prop :=
  r.findLocal q.op q.arch q.static = some v ∨
    ∃ p w, r.jitProvider = some p ∧ q.answer p q.op q.arch q.static = .ok w ∧
      (v = w ∨ v = Registry.withOrigin w)

/-- Two kernels have the same code object. -/
def SameCode (r : Registry π) (v w : ResolvedVariant) : Prop :=
  ∀ c, r.codeObject v = .ok c ↔ r.codeObject w = .ok c

/-- Hashes do not collide: a kernel that some request has from another source than the manifest
has the hash of another kernel only if it has its code object. -/
structure Apart (r : Registry π) (qs : List (Request π σ μ)) : Prop where
  others : ∀ a ∈ qs, ∀ b ∈ qs, ∀ v w, Candidate r a v → Candidate r b w →
    v.variantHash = w.variantHash → SameCode r v w
  shipped : ∀ a ∈ qs, ∀ v w, Candidate r a v → FromManifest r w →
    v.variantHash = w.variantHash → SameCode r v w

theorem codeObject_shipped {file : String} (hbytes : v.codeObjectBytes = none)
    (hpath : v.codeObjectPath = some file) (horigin : v.artifactOrigin = some .shipped)
    {c : CodeObject} : r.codeObject v = .ok c ↔ isAbsolutePath file = false ∧
      traversesParent file = false ∧ isBlank file = false ∧
      ∃ base, r.bundleDir = some base ∧ c = .file base file := by
  unfold Registry.codeObject Registry.baseOf
  simp only [hbytes, hpath, horigin, bind_eq_ok, ensure_eq_ok, okOr_eq_ok, pure, Except.pure,
    Except.ok.injEq]
  constructor
  · rintro ⟨_, habs, _, hparent, _, hblank, base, hbase, rfl⟩
    exact ⟨habs, hparent, hblank, base, hbase, rfl⟩
  · rintro ⟨habs, hparent, hblank, base, hbase, rfl⟩
    exact ⟨(), habs, (), hparent, (), hblank, base, hbase, rfl⟩

theorem FromManifest.sameCode (hv : FromManifest r v) (hw : FromManifest r w)
    (hkeys : ∀ m, r.manifest = some m → CanonicalKeys m) (h : v.variantHash = w.variantHash) :
    SameCode r v w := by
  obtain ⟨m, key, e, hm, hk, hhash, hbytes, hpath, horigin⟩ := hv
  obtain ⟨m', key', e', hm', hk', hhash', hbytes', hpath', horigin'⟩ := hw
  obtain rfl := Option.some.inj (hm.symm.trans hm')
  rw [h] at hhash
  obtain rfl := (hkeys m hm key e hk).eq_of_fromHex (hkeys m hm key' e' hk') hhash hhash'
  obtain rfl := Option.some.inj (hk.symm.trans hk')
  intro c
  rw [codeObject_shipped hbytes hpath horigin, codeObject_shipped hbytes' hpath' horigin']

theorem fromManifest_shipped {m : BundleManifest} {x : String × ManifestVariantEntry}
    {hash : UInt64} {op : OpId} {arch : ArchName} {tier : Tier} (hm : r.manifest = some m)
    (hx : x ∈ m.variants.toList) (hhash : fromHex x.1 = .ok hash) :
    FromManifest r (Registry.shippedVariant hash op arch tier x.2) :=
  ⟨m, x.1, x.2, hm, Std.ExtTreeMap.mem_toList_iff_getElem?_eq_some.mp hx, hhash, rfl, rfl, rfl⟩

theorem resolved_cases (hkeys : ∀ m, r.manifest = some m → CanonicalKeys m)
    (h : r.resolved q = .ok v) : FromManifest r v ∨ Candidate r q v := by
  obtain ⟨-, h⟩ := resolve_eq_ok.mp h
  split_ifs at h with hlisted
  · cases hmanifest : r.manifest with
    | none =>
      unfold Registry.isArchSupported at hlisted
      rw [hmanifest] at hlisted
      cases hlisted
    | some m =>
      have hentries : r.entries = m.variants.toList := by
        unfold Registry.entries
        rw [hmanifest]
      have hread : ∀ x ∈ m.variants.toList, ∃ hash, fromHex x.1 = .ok hash := by
        intro x hx
        obtain ⟨hash, heq⟩ := (hkeys m hmanifest x.1 x.2
          (Std.ExtTreeMap.mem_toList_iff_getElem?_eq_some.mp hx)).exists_toHex
        exact ⟨hash, heq ▸ fromHex_toHex hash⟩
      unfold Registry.resolveListed at h
      rw [hentries] at h
      rcases @findT2_eq q.op q.arch (OpStatic.staticHash q.static) _ hread with
        ⟨hfind, -⟩ | ⟨x, hx, hash, hhash, -, hfind⟩
      · simp only [hfind] at h
        cases hlocal : r.findLocal q.op q.arch q.static with
        | some w =>
          simp only [hlocal] at h
          obtain rfl := Except.ok.inj h
          exact Or.inr (Or.inl hlocal)
        | none =>
          simp only [hlocal] at h
          cases hjit : r.findJit q.answer q.op q.arch q.static with
          | some w =>
            simp only [hjit] at h
            obtain rfl := Except.ok.inj h
            obtain ⟨-, p, w, hp, hanswer, -, rfl⟩ := findJit_eq_some.mp hjit
            exact Or.inr (Or.inr ⟨p, w, hp, hanswer, Or.inr rfl⟩)
          | none =>
            simp only [hjit] at h
            unfold Registry.resolveT1 at h
            simp only [hmanifest] at h
            rcases @findT1_eq q.op q.arch (OpStatic.staticHash q.static) _ hread with
              ⟨hfind, -⟩ | ⟨x, hx, hash, hhash, -, hfind⟩
            · simp only [hfind] at h
              cases h
            · simp only [hfind] at h
              obtain rfl := Except.ok.inj h
              exact Or.inl (fromManifest_shipped hmanifest hx hhash)
      · simp only [hfind] at h
        obtain rfl := Except.ok.inj h
        exact Or.inl (fromManifest_shipped hmanifest hx hhash)
  · obtain ⟨-, p, hp, hanswer, -⟩ := resolveUnlisted_eq_ok.mp h
    exact Or.inr (Or.inr ⟨p, v, hp, hanswer, Or.inl rfl⟩)

/-- The modules that are kept are those of kernels that some request had. -/
def Kept (r : Registry π) (qs : List (Request π σ μ)) (cache : Cache μ) : Prop :=
  ∀ hash m, cache hash = some m → ∃ q ∈ qs, ∃ v, r.resolved q = .ok v ∧ v.variantHash = hash ∧
    r.codeObject v = .ok m.source

theorem Kept.insert {all : List (Request π σ μ)} {cache : Cache μ} {m : Module μ}
    (h : Kept r all cache) (hq : q ∈ all) (hv : r.resolved q = .ok v)
    (hcode : r.codeObject v = .ok m.source) : Kept r all (cache.insert v.variantHash m) := by
  intro hash m' hm'
  unfold Cache.insert at hm'
  split_ifs at hm' with heq
  · obtain rfl := Option.some.inj hm'
    exact ⟨q, hq, v, hv, heq.symm, hcode⟩
  · exact h hash m' hm'

theorem loadFresh_source {host : Host μ} {m : Module μ} (h : r.loadFresh host v = .ok m) :
    r.codeObject v = .ok m.source := by
  unfold Registry.loadFresh at h
  simp only [bind_eq_ok] at h
  obtain ⟨code, hcode, bytes, -, hload⟩ := h
  cases hdata : host.loadData bytes with
  | error e =>
    rw [hdata] at hload
    cases hload
  | ok handle =>
    rw [hdata] at hload
    obtain rfl := Except.ok.inj hload
    exact hcode

/-- A module that is given is loaded from the code object of its kernel, and the modules that
are kept are those of kernels. -/
theorem loadModule_own {all : List (Request π σ μ)} {cache : Cache μ} {host : Host μ}
    (hkeys : ∀ m, r.manifest = some m → CanonicalKeys m) (hapart : Apart r all)
    (hkept : Kept r all cache) (hq : q ∈ all) (hv : r.resolved q = .ok v) :
    Kept r all (r.loadModule host cache v).2 ∧
      ∀ m, (r.loadModule host cache v).1 = .ok m → r.codeObject v = .ok m.source := by
  unfold Registry.loadModule
  split_ifs with hvalid
  · cases hcache : cache v.variantHash with
    | some m =>
      refine ⟨hkept, fun m' hm' => ?_⟩
      obtain rfl := Except.ok.inj hm'
      obtain ⟨q', hq', w, hw, hhash, hcode⟩ := hkept _ _ hcache
      have hsame : SameCode r w v := by
        rcases resolved_cases hkeys hw with hw' | hw'
        · rcases resolved_cases hkeys hv with hv' | hv'
          · exact hw'.sameCode hv' hkeys hhash
          · exact fun c => (hapart.shipped q hq v w hv' hw' hhash.symm c).symm
        · rcases resolved_cases hkeys hv with hv' | hv'
          · exact hapart.shipped q' hq' w v hw' hv' hhash
          · exact hapart.others q' hq' q hq w v hw' hv' hhash
      exact (hsame _).mp hcode
    | none =>
      cases hfresh : r.loadFresh host v with
      | error e => exact ⟨hkept, fun m hm => by cases hm⟩
      | ok m =>
        have hcode := loadFresh_source hfresh
        refine ⟨hkept.insert hq hv hcode, fun m' hm' => ?_⟩
        obtain rfl := Except.ok.inj hm'
        exact hcode
  · exact ⟨hkept, fun m hm => by cases hm⟩

/-- **Each kernel has the module of its own code object.** -/
theorem modules_own {all qs : List (Request π σ μ)} {cache : Cache μ}
    (hkeys : ∀ m, r.manifest = some m → CanonicalKeys m) (hapart : Apart r all)
    (hkept : Kept r all cache) (hsub : qs ⊆ all) :
    ∀ x ∈ r.serve cache qs, r.codeObject x.1 = .ok x.2.source := by
  induction qs generalizing cache with
  | nil => intro x hx; cases hx
  | cons q qs ih =>
    obtain ⟨hq, hsub⟩ := List.cons_subset.mp hsub
    cases hv : r.resolved q with
    | error e =>
      have hserve : r.serve cache (q :: qs) = r.serve cache qs := by simp only [Registry.serve, hv]
      rw [hserve]
      exact ih hkept hsub
    | ok v =>
      obtain ⟨hkept', hown⟩ := @loadModule_own π σ μ _ r q v all cache q.host hkeys hapart hkept hq hv
      generalize hload : r.loadModule q.host cache v = out at hkept' hown
      obtain ⟨_ | m, cache'⟩ := out
      · have hserve : r.serve cache (q :: qs) = r.serve cache' qs := by
          simp only [Registry.serve, hv, hload]
        rw [hserve]
        exact ih hkept' hsub
      · have hserve : r.serve cache (q :: qs) = (v, m) :: r.serve cache' qs := by
          simp only [Registry.serve, hv, hload]
        rw [hserve]
        exact List.forall_mem_cons.mpr ⟨hown m rfl, ih hkept' hsub⟩

end Own

/-- **When kernels are identified.** An accepted manifest has unambiguous keys exactly when
they are sixteen lowercase digits, and an accepted tune file has all its entries found exactly
when the same holds of its keys, or each of the others spells one that has its entry. A
registry with such a manifest never gives two kernels with different code objects the same
module, whatever is requested, unless hashes of kernels from other sources collide. -/
theorem kernel_identity_iff {m : BundleManifest} {t : TuneFile} (hm : m.validate = .ok ())
    (ht : t.validate = .ok ()) :
    (KeysUnambiguous m ↔ CanonicalKeys m) ∧ (EntriesFound t ↔ CanonicalEntries t) ∧
      (CanonicalKeys m → ∀ {π σ μ : Type} [OpStatic σ] (r : Registry π)
        (qs : List (Request π σ μ)), r.manifest = some m → Apart r qs →
          ∀ x ∈ r.serve (fun _ => none) qs, ∀ y ∈ r.serve (fun _ => none) qs, x.2 = y.2 →
            ∃ c, r.codeObject x.1 = .ok c ∧ r.codeObject y.1 = .ok c) := by
  refine ⟨keys_unambiguous_iff hm, tune_found_iff ht, ?_⟩
  intro hkeys π σ μ _ r qs hr hapart x hx y hy hxy
  have hkeys : ∀ m', r.manifest = some m' → CanonicalKeys m' := by
    intro m' hm'
    obtain rfl := Option.some.inj (hr.symm.trans hm')
    exact hkeys
  have hown := @modules_own π σ μ _ r qs qs (fun _ => none) hkeys hapart
    (fun hash m hm => by cases hm) (List.Subset.refl qs)
  exact ⟨x.2.source, hown x hx, hxy ▸ hown y hy⟩

/-! ### Two spellings of one hash -/

section Spellings

/-- An entry for a product of matrices. -/
def spelledEntry (file : String) (static : UInt64) : ManifestVariantEntry where
  arch := "gfx942"
  file := file
  tier := .t2
  entrySymbol := "matmul"
  launchGeometry := smallGeometry
  workspaceBytes := 0
  staticBytes := 0
  staticFlops := 0
  op := some .matmul
  staticHash := some static
  validated := true

def lowerManifest : BundleManifest where
  genVersion := 1
  archs := ["gfx942"]
  variants := (∅ : Std.ExtTreeMap String ManifestVariantEntry).insert "00000000000000ab"
    (spelledEntry "first.co" 7)

/-- A manifest with a second spelling of a hash. -/
def spelledManifest : BundleManifest where
  genVersion := 1
  archs := ["gfx942"]
  variants := lowerManifest.variants.insert "00000000000000AB" (spelledEntry "second.co" 8)

instance spelledStatic : OpStatic UInt64 where
  opId _ := .matmul
  problems _ := []
  staticHash static := static
  variantHash _ := 0

def spelledRegistry : Registry Unit where
  config := ⟨1, false⟩
  bundleDir := some "bundle"
  manifest := some spelledManifest
  tuneEntries := fun _ _ _ => none
  jitProvider := none

def spelledRequest (static : UInt64) : Request Unit UInt64 Unit where
  op := .matmul
  arch := "gfx942"
  static := static
  answer := fun _ _ _ _ => .error (.other "no compiler")
  host := ⟨fun _ _ => false, fun _ _ => .ok [], fun _ => .ok ()⟩

/-- Two keys of an accepted manifest are one hash, the second one is not looked up, and the
second kernel is given the module of the first. -/
theorem spelled_ambiguous : spelledManifest.validate = .ok () ∧
    spelledManifest.variants["00000000000000AB"]? = some (spelledEntry "second.co" 8) ∧
    fromHex "00000000000000AB" = .ok 0xab ∧ fromHex "00000000000000ab" = .ok 0xab ∧
    spelledManifest.getVariant 0xab = some (spelledEntry "first.co" 7) ∧
    ((spelledRegistry.serve (fun _ => none) [spelledRequest 7, spelledRequest 8]).map fun x =>
      (x.1.codeObjectPath, x.2.source)) =
      [(some "first.co", .file "bundle" "first.co"), (some "second.co", .file "bundle" "first.co")] := by
  decide +kernel

theorem lower_identity : KeysUnambiguous lowerManifest ∧ EntriesFound smallTune := by
  have hm : lowerManifest.validate = .ok () := by decide +kernel
  have ht : smallTune.validate = .ok () := by decide +kernel
  obtain ⟨hkeys, hentries, -⟩ := kernel_identity_iff hm ht
  refine ⟨hkeys.mpr fun k e hk => ?_, hentries.mpr fun k e hk => ?_⟩
  · unfold lowerManifest at hk
    rw [Std.ExtTreeMap.getElem?_insert] at hk
    split_ifs at hk with heq
    · obtain rfl := Std.LawfulEqCmp.eq_of_compare heq
      have hhex : toHex 0xab = "00000000000000ab" := by decide +kernel
      exact hhex ▸ canonical_toHex 0xab
    · simp at hk
  · unfold smallTune at hk
    rw [Std.ExtTreeMap.getElem?_insert] at hk
    split_ifs at hk with heq
    · obtain rfl := Std.LawfulEqCmp.eq_of_compare heq
      refine ⟨.matmul, toHex 7, ?_, Or.inl (canonical_toHex 7)⟩
      unfold TuneFile.entryKey
      rw [String.toList_ofList]
    · simp at hk

end Spellings

end R9v.Kernels

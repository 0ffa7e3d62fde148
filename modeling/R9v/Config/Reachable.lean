import R9v.Config.Layers
import R9v.Lib.Loops

/-!
# Reachable configurations

What holds after every call on a configuration: the counts are integers and the rules between the
settings hold.
-/

namespace R9v

open Checked List

variable {φ : Type} {O : Outside φ} {c c' : EffectiveConfig φ}

/-! ### Accepted values -/

/-- An entry of a declared setting, with an integer where the setting is a count. -/
def Entry.Fits (e : Entry φ) : Prop :=
  findSetting e.spec.key = some e.spec ∧ (e.spec.typeName = "u32" → ∃ n, e.value = .integer n)

/-- A value that is accepted has been validated. -/
def Input.Validated (O : Outside φ) (i : Input φ) : Prop :=
  ∀ spec value, i.value spec = .ok value → ∃ b, validateValue O spec value b = .ok ()

/-- **A valid count is an integer.** -/
theorem integer_of_validateValue {spec : SettingSpec} {value : TomlValue φ} {b : Bool}
    (h : validateValue O spec value b = .ok ()) (hu : spec.typeName = "u32") :
    ∃ n, value = .integer n := by
  have hauto : spec.mayBeAuto = false := by
    rw [SettingSpec.mayBeAuto, hu]
    decide
  have htype : spec.concreteType = "u32" := by
    rw [SettingSpec.concreteType, hu]
    decide
  rw [validateValue, hauto, if_neg (by simp)] at h
  obtain ⟨_, hfit, -⟩ := bind_eq_ok.mp h
  rw [lift_eq_ok, validateConcreteAuto, htype, ensure_eq_ok] at hfit
  cases value with
  | integer n => exact ⟨n, rfl⟩
  | _ => simp [fitsType, TomlValue.asInteger] at hfit

theorem textInput_validated {b : Bool} {raw : String} {spec : SettingSpec} {value : TomlValue φ}
    (h : textInput O b raw spec = .ok value) : ∃ b, validateValue O spec value b = .ok () := by
  simp only [textInput, bind_eq_ok, pure_eq_ok] at h
  obtain ⟨v, -, _, hv, rfl⟩ := h
  exact ⟨b, hv⟩

theorem fileInput_validated {path key : String} {lines : Std.ExtTreeMap String ℕ} {value : TomlValue φ} :
    (fileInput O path lines key value).Validated O := by
  intro spec v h
  simp only [fileInput, bind_eq_ok, pure_eq_ok] at h
  obtain ⟨_, hv, rfl⟩ := h
  exact ⟨true, hv⟩

theorem envInputs_validated {entries : List (String × String)} :
    ∀ i ∈ envInputs O entries, i.Validated O := by
  intro i hi
  simp only [envInputs, mem_filterMap, Option.map_eq_some_iff, Prod.exists] at hi
  obtain ⟨name, raw, -, key, -, rfl⟩ := hi
  exact fun spec value h => textInput_validated h

theorem cliInputs_validated {entries : List (String × String)} :
    ∀ i ∈ cliInputs O entries, i.Validated O := by
  intro i hi
  simp only [cliInputs, mem_map, Prod.exists] at hi
  obtain ⟨flag, raw, -, rfl⟩ := hi
  exact fun spec value h => textInput_validated h

theorem runtimeInputs_validated {entries : List (String × String)} {requester time : String} :
    ∀ i ∈ runtimeInputs O entries requester time, i.Validated O := by
  intro i hi
  simp only [runtimeInputs, mem_map, Prod.exists] at hi
  obtain ⟨key, raw, -, rfl⟩ := hi
  intro spec value h
  simp only [bind_eq_ok] at h
  obtain ⟨_, -, h⟩ := h
  exact textInput_validated h

theorem Input.Validated.fits {i : Input φ} (h : i.Validated O) {e : Entry φ} (he : i.read = .ok e) :
    e.Fits := by
  simp only [Input.read, bind_eq_ok, lift_eq_ok, orPanic_eq_ok, pure_eq_ok, Prod.exists] at he
  obtain ⟨key, warning, -, spec, hspec, value, hvalue, rfl⟩ := he
  refine ⟨by rw [key_of_findSetting hspec, hspec], fun hu => ?_⟩
  obtain ⟨b, hb⟩ := h spec value hvalue
  exact integer_of_validateValue hb hu

theorem fits_of_mapM {inputs : List (Input φ)} {entries : List (Entry φ)}
    (hv : ∀ i ∈ inputs, i.Validated O) (h : inputs.mapM Input.read = .ok entries) :
    ∀ e ∈ entries, e.Fits := by
  intro e he
  obtain ⟨i, hi, hread⟩ := mem_of_mapM h he
  exact (hv i hi).fits hread

/-! ### Counts stay integers -/

theorem EffectiveConfig.Counted.enter (h : c.Counted) {e : Entry φ} (he : e.Fits) :
    (c.enter e).Counted := by
  intro key hkey
  obtain ⟨v, n, hv, hn⟩ := h key hkey
  rw [EffectiveConfig.enter, values_assign]
  by_cases hk : e.spec.key = key
  · rw [if_pos hk]
    change ∃ v n, Ranked.put SourcedValue.rank c.values[key]? _ = some v ∧ _
    rw [hv]
    by_cases ho : Ranked.Open SourcedValue.rank e.sourced.rank (some v)
    · have hu : e.spec.typeName = "u32" := by
        rw [isCount, ← hk, he.1] at hkey
        exact Option.some.inj hkey
      obtain ⟨m, hm⟩ := he.2 hu
      exact ⟨e.sourced, m, Ranked.put_of_open ho, hm⟩
    · exact ⟨v, n, Ranked.put_of_not_open ho, hn⟩
  · rw [if_neg hk]
    exact ⟨v, n, hv, hn⟩

theorem EffectiveConfig.Counted.enterAll (h : c.Counted) {entries : List (Entry φ)}
    (he : ∀ e ∈ entries, e.Fits) : (c.enterAll entries).Counted := by
  induction entries generalizing c with
  | nil => exact h
  | cons e entries ih =>
    rw [forall_mem_cons] at he
    exact ih (h.enter he.1) he.2

/-! ### Calls -/

/-- The counts are integers and the rules hold. -/
structure EffectiveConfig.Sound (c : EffectiveConfig φ) : Prop where
  counted : c.Counted
  rules : c.validateCrossFields = .ok ()

/-- What a call answers and leaves when the configuration is only replaced as a whole. -/
def replaced (x : Except (Fault (ConfigError φ)) (EffectiveConfig φ)) (c : EffectiveConfig φ) :
    Except (Fault (ConfigError φ)) Unit × EffectiveConfig φ :=
  match x with
  | .ok c' => (.ok (), c')
  | .error f => (.error f, c)

section Runs

variable {α : Type}

theorem run_get_bind (f : EffectiveConfig φ → ConfigM φ α) :
    (do f (← get) : ConfigM φ α).run c = (f c).run c := rfl

theorem run_bind {x : Except (Fault (ConfigError φ)) α} {f : α → ConfigM φ Unit}
    {g : α → Except (Fault (ConfigError φ)) (EffectiveConfig φ)}
    (h : ∀ a, (f a).run c = replaced (g a) c) :
    (ExceptT.mk (pure x) >>= f : ConfigM φ Unit).run c = replaced (x >>= g) c := by
  cases x with
  | ok a => exact h a
  | error e => rfl

theorem run_put (x : Except (Fault (ConfigError φ)) (EffectiveConfig φ)) :
    (ExceptT.mk (pure x) >>= set : ConfigM φ Unit).run c = replaced x c := by
  cases x <;> rfl

end Runs

/-- The configuration that a call puts in the place of the one before. -/
def ConfigCall.result (O : Outside φ) (call : ConfigCall φ) (c : EffectiveConfig φ) :
    Except (Fault (ConfigError φ)) (EffectiveConfig φ) :=
  match call with
  | .file path text => do
    let (flat, inputs, extensions) ← lift (readFile O path text)
    applyInputs ⟨{ c with extensions := .ofList extensions }, flat.problems⟩ inputs
  | .env entries => applyInputs ⟨c, []⟩ (envInputs O entries)
  | .cli entries => applyInputs ⟨c, []⟩ (cliInputs O entries)
  | .runtime entries requester time => applyInputs ⟨c, []⟩ (runtimeInputs O entries requester time)
  | .resolveAuto key resolved => do
    let spec ← okOr (findSetting key) (.err (unknownKey key))
    ensure (isAuto resolved = false) (.err (typeError spec (.inr resolved)))
    validateValue O spec resolved false
    let current ← orPanic c.values[key]?
    ensure (isAuto current.value = true) (.err (.notAuto key))
    pure { c with values := c.values.insert key { current with resolved := some resolved } }

/-- **A call replaces the configuration as a whole**, or leaves it. -/
theorem ConfigCall.run_eq (call : ConfigCall φ) : call.run O c = replaced (call.result O c) c := by
  cases call with
  | file path text =>
    exact (run_get_bind _).trans (run_bind fun ⟨flat, inputs, extensions⟩ => run_put _)
  | env entries => exact (run_get_bind _).trans (run_put _)
  | cli entries => exact (run_get_bind _).trans (run_put _)
  | runtime entries requester time => exact (run_get_bind _).trans (run_put _)
  | resolveAuto key resolved =>
    refine run_bind fun spec => run_bind fun _ => run_bind fun _ => (run_get_bind _).trans ?_
    exact run_bind fun current => run_bind fun _ => rfl

theorem ConfigCall.run_error {call : ConfigCall φ} {f : Fault (ConfigError φ)}
    (h : call.run O c = (.error f, c')) : c' = c := by
  rw [run_eq] at h
  cases hx : call.result O c with
  | ok c₁ => simp [hx, replaced] at h
  | error e =>
    rw [hx, replaced, Prod.mk.injEq] at h
    exact h.2.symm

/-! ### What every call keeps -/

theorem applyInputs_sound {inputs : List (Input φ)} {problems : List (ConfigError φ)}
    (hv : ∀ i ∈ inputs, i.Validated O) (hc : c.Counted)
    (h : applyInputs ⟨c, problems⟩ inputs = .ok c') : c'.Sound := by
  obtain ⟨-, entries, hentries, rfl, hcross⟩ := applyInputs_eq_ok h
  exact ⟨hc.enterAll (fits_of_mapM hv hentries), hcross⟩

theorem readFile_validated {path text : String} {flat : Flat φ} {inputs : List (Input φ)}
    {extensions : List (String × TomlValue φ)}
    (h : readFile O path text = .ok (flat, inputs, extensions)) : ∀ i ∈ inputs, i.Validated O := by
  simp only [readFile, bind_eq_ok, pure_eq_ok, Prod.mk.injEq] at h
  obtain ⟨table, -, _, -, rfl, rfl, -⟩ := h
  intro i hi
  obtain ⟨⟨key, value⟩, -, rfl⟩ := mem_map.mp hi
  exact fileInput_validated

theorem EffectiveConfig.Sound.resolve (h : c.Sound) {key : String} {current : SourcedValue φ}
    (hcur : c.values[key]? = some current) (resolved : TomlValue φ) :
    EffectiveConfig.Sound
      { c with values := c.values.insert key { current with resolved := some resolved } } := by
  have hget (k : String) :
      (c.values.insert key { current with resolved := some resolved })[k]? =
        if key = k then some { current with resolved := some resolved } else c.values[k]? := by
    by_cases hk : key = k
    · rw [if_pos hk, ← hk, Std.ExtTreeMap.getElem?_insert_self]
    · rw [if_neg hk, Std.ExtTreeMap.getElem?_insert, if_neg]
      exact fun heq => hk (Std.LawfulEqOrd.eq_of_compare heq)
  refine ⟨fun k hk => ?_, ?_⟩
  · obtain ⟨v, n, hv, hn⟩ := h.counted k hk
    change ∃ v n, (c.values.insert key { current with resolved := some resolved })[k]? = some v ∧ _
    rw [hget]
    split
    · next heq =>
      subst heq
      rw [hcur] at hv
      obtain rfl := Option.some.inj hv
      exact ⟨_, n, rfl, hn⟩
    · exact ⟨v, n, hv, hn⟩
  · rw [← h.rules]
    refine validateCrossFields_congr fun k => ?_
    change ((c.values.insert key _)[k]?).map SourcedValue.value = _
    rw [hget]
    split
    · next heq =>
      subst heq
      rw [hcur]
      rfl
    · rfl

/-- **Every call keeps a configuration sound.** -/
theorem EffectiveConfig.Sound.run (h : c.Sound) (call : ConfigCall φ) : (call.run O c).2.Sound := by
  rw [ConfigCall.run_eq]
  cases hx : call.result O c with
  | error f => exact h
  | ok c' =>
    change c'.Sound
    cases call with
    | file path text =>
      simp only [ConfigCall.result, bind_eq_ok, lift_eq_ok] at hx
      obtain ⟨⟨flat, inputs, extensions⟩, hr, hx⟩ := hx
      have hc : EffectiveConfig.Counted { c with extensions := .ofList extensions } := h.counted
      exact applyInputs_sound (readFile_validated hr) hc hx
    | env entries => exact applyInputs_sound envInputs_validated h.counted hx
    | cli entries => exact applyInputs_sound cliInputs_validated h.counted hx
    | runtime entries requester time => exact applyInputs_sound runtimeInputs_validated h.counted hx
    | resolveAuto key resolved =>
      simp only [ConfigCall.result, bind_eq_ok, orPanic_eq_ok, pure_eq_ok] at hx
      obtain ⟨spec, -, _, -, _, -, current, hcur, _, -, rfl⟩ := hx
      exact h.resolve hcur resolved

/-! ### Defaults -/

theorem allSettings_nodup : (allSettings.map SettingSpec.key).Nodup := by decide

theorem fromDefaults_eq (h : EffectiveConfig.fromDefaults O = .ok c) :
    ∃ values : List (String × SourcedValue φ),
      (allSettings.mapM fun spec => do
        let value ← defaultValue O spec
        pure (spec.key, SourcedValue.of spec value .default)) = .ok values ∧
      values.map Prod.fst = allSettings.map SettingSpec.key ∧ c.values = .ofList values := by
  simp only [EffectiveConfig.fromDefaults, bind_eq_ok, pure_eq_ok] at h
  obtain ⟨values, hvalues, rfl⟩ := h
  refine ⟨values, hvalues, map_of_mapM hvalues fun spec _ entry he => ?_, rfl⟩
  obtain ⟨v, -, hpure⟩ := bind_eq_ok.mp he
  rw [← pure_eq_ok.mp hpure]

/-- **The value that a setting starts with.** -/
theorem fromDefaults_get (h : EffectiveConfig.fromDefaults O = .ok c) {spec : SettingSpec}
    (hs : spec ∈ allSettings) :
    ∃ value, defaultValue O spec = .ok value ∧
      c.values[spec.key]? = some (.of spec value .default) := by
  obtain ⟨values, hvalues, hkeys, hc⟩ := fromDefaults_eq h
  obtain ⟨i, hi, rfl⟩ := mem_iff_getElem.mp hs
  obtain ⟨entry, hentry, hget⟩ := getElem?_of_mapM hvalues (getElem?_eq_getElem hi)
  obtain ⟨value, hvalue, hpure⟩ := bind_eq_ok.mp hentry
  obtain rfl := pure_eq_ok.mp hpure
  have hdistinct : values.Pairwise fun a b => ¬compare a.1 b.1 = .eq := by
    have := allSettings_nodup
    rw [← hkeys, List.Nodup, pairwise_map] at this
    exact this.imp fun hne heq => hne (Std.LawfulEqOrd.eq_of_compare heq)
  rw [hc]
  exact ⟨value, hvalue, Std.ExtTreeMap.getElem?_ofList_of_mem Std.ReflCmp.compare_self hdistinct
    (mem_of_getElem? hget)⟩

theorem fromDefaults_get_none (h : EffectiveConfig.fromDefaults O = .ok c) {key : String}
    (hkey : ∀ spec ∈ allSettings, spec.key ≠ key) : c.values[key]? = none := by
  obtain ⟨values, -, hkeys, hc⟩ := fromDefaults_eq h
  rw [hc]
  refine Std.ExtTreeMap.getElem?_ofList_of_contains_eq_false ?_
  rw [hkeys, Bool.eq_false_iff]
  intro hcontains
  obtain ⟨spec, hspec, heq⟩ := mem_map.mp (contains_iff_mem.mp hcontains)
  exact hkey spec hspec heq

/-- The number of a count by default. -/
def defaultCount (spec : SettingSpec) : Option ℤ := (Text.parseI64 spec.default.toList).toOption

theorem defaultCounts : ∀ spec ∈ allSettings, spec.typeName = "u32" →
    ¬"auto".toList.isPrefixOf spec.default.toList ∧ spec.key ≠ "warmup.buckets" ∧
      (defaultCount spec).isSome := by
  decide

theorem defaultValue_count {spec : SettingSpec} (hs : spec ∈ allSettings) (hu : spec.typeName = "u32") :
    ∃ n, defaultCount spec = some n ∧ defaultValue O spec = .ok (.integer n) := by
  obtain ⟨hauto, hkey, hsome⟩ := defaultCounts spec hs hu
  obtain ⟨n, hn⟩ := Option.isSome_iff_exists.mp hsome
  refine ⟨n, hn, ?_⟩
  rw [defaultValue, if_neg hauto, if_neg hkey, hu]
  rw [defaultCount] at hn
  simp [hn, orPanic]

theorem EffectiveConfig.counted_fromDefaults (h : fromDefaults O = .ok c) : c.Counted := by
  intro key hkey
  obtain ⟨spec, hspec, hu⟩ := Option.map_eq_some_iff.mp hkey
  obtain rfl := key_of_findSetting hspec
  have hmem : spec ∈ allSettings := mem_of_find?_eq_some hspec
  obtain ⟨n, -, hn⟩ := defaultValue_count (O := O) hmem hu
  obtain ⟨value, hvalue, hget⟩ := fromDefaults_get h hmem
  rw [hn] at hvalue
  obtain rfl := Except.ok.inj hvalue
  exact ⟨_, n, hget, rfl⟩

theorem integer_fromDefaults (h : EffectiveConfig.fromDefaults O = .ok c) {key : String} {n : ℤ}
    (hkey : isCount key) (hn : (findSetting key).bind defaultCount = some n) : c.integer key = .ok n := by
  obtain ⟨spec, hspec, hu⟩ := Option.map_eq_some_iff.mp hkey
  rw [hspec] at hn
  obtain rfl := key_of_findSetting hspec
  have hmem : spec ∈ allSettings := mem_of_find?_eq_some hspec
  obtain ⟨m, hm, hd⟩ := defaultValue_count (O := O) hmem hu
  obtain rfl : m = n := Option.some.inj (hm.symm.trans hn)
  obtain ⟨value, hvalue, hget⟩ := fromDefaults_get h hmem
  rw [hd] at hvalue
  obtain rfl := Except.ok.inj hvalue
  simp [EffectiveConfig.integer, hget, SourcedValue.of, TomlValue.asInteger, orPanic]

/-- **The defaults are sound.** -/
theorem EffectiveConfig.sound_fromDefaults (h : fromDefaults O = .ok c) : c.Sound := by
  have hkeys := ruleKeys_count
  simp only [ruleKeys, forall_mem_cons] at hkeys
  obtain ⟨k₁, k₂, k₃, k₄, k₅, -⟩ := hkeys
  have hbuckets : ((c.values["warmup.buckets"]?).bind fun v => maxTPreBucket v.value) = some 2048 := by
    have hmem : ∃ spec ∈ allSettings, spec.key = "warmup.buckets" ∧
        ¬"auto".toList.isPrefixOf spec.default.toList := by decide
    obtain ⟨spec, hspec, hkey, hauto⟩ := hmem
    obtain ⟨value, hvalue, hget⟩ := fromDefaults_get h hspec
    rw [defaultValue, if_neg hauto, if_pos hkey] at hvalue
    obtain rfl := Except.ok.inj hvalue
    rw [← hkey, hget]
    rfl
  refine ⟨EffectiveConfig.counted_fromDefaults h, ?_⟩
  simp only [EffectiveConfig.validateCrossFields, integer_fromDefaults (n := 128) h k₁ (by decide),
    integer_fromDefaults (n := 2048) h k₂ (by decide),
    integer_fromDefaults (n := 8) h k₃ (by decide),
    integer_fromDefaults (n := 16) h k₄ (by decide),
    integer_fromDefaults (n := 32768) h k₅ (by decide), ok_bind, hbuckets, Option.getD_some]
  exact ensure_of (by decide)

/-- **Every reachable configuration is sound.** -/
theorem EffectiveConfig.Reachable.sound (h : EffectiveConfig.Reachable O c) : c.Sound := by
  induction h with
  | defaults h => exact EffectiveConfig.sound_fromDefaults h
  | call _ call ih => exact ih.run call

end R9v

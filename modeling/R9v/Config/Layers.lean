import R9v.Config.Effective
import R9v.Lib.Ranked

/-!
# What the calls on a configuration do

A layer whose values are all accepted enters them one by one; whether they are accepted does not depend
on the configuration. Every configuration that can be reached has integers where the rules between the
settings read them, and the rules hold of it.
-/

namespace R9v

open Checked List

variable {φ : Type} {O : Outside φ} {c c' : EffectiveConfig φ} {key : String} {spec : SettingSpec}

theorem key_of_findSetting (h : findSetting key = some spec) : spec.key = key := by
  have := find?_some h
  simpa using this

/-! ### Entries -/

/-- A value that a layer enters. -/
structure Entry (φ : Type) where
  spec : SettingSpec
  value : TomlValue φ
  source : Source
  warning : Option String

def Entry.sourced (e : Entry φ) : SourcedValue φ := .of e.spec e.value e.source

/-- The entry of an accepted value. -/
def Input.read (i : Input φ) : Except (Fault (ConfigError φ)) (Entry φ) := do
  let (key, warning) ← lift (canonicalKey i.inputKey)
  let spec ← orPanic (findSetting key)
  let value ← i.value spec
  pure ⟨spec, value, i.source, warning⟩

namespace EffectiveConfig

def enter (c : EffectiveConfig φ) (e : Entry φ) : EffectiveConfig φ :=
  (c.warn e.warning).assign e.spec e.value e.source

def enterAll (c : EffectiveConfig φ) (entries : List (Entry φ)) : EffectiveConfig φ :=
  entries.foldl enter c

end EffectiveConfig

theorem Loading.take_of_read {l : Loading φ} {i : Input φ} {e : Entry φ} (h : i.read = .ok e) :
    l.take i = .ok { l with candidate := l.candidate.enter e } := by
  simp only [Input.read, bind_eq_ok, lift_eq_ok, orPanic_eq_ok, pure_eq_ok, Prod.exists] at h
  obtain ⟨key, warning, hkey, spec, hspec, value, hvalue, rfl⟩ := h
  simp only [Loading.take, hkey, hspec, orPanic, okOr_some, ok_bind, hvalue]
  rfl

/-- **An input is accepted**, or it is a problem. -/
theorem Loading.take_eq_ok {l l' : Loading φ} {i : Input φ} (h : l.take i = .ok l') :
    (∃ e, i.read = .ok e ∧ l' = { l with candidate := l.candidate.enter e }) ∨
      ∃ problem, l'.problems = l.problems ++ [problem] := by
  unfold Loading.take at h
  split at h
  · next e he =>
    obtain rfl := Except.ok.inj h
    exact .inr ⟨e, rfl⟩
  · next key warning hkey =>
    obtain ⟨spec, hspec, h⟩ := bind_eq_ok.mp h
    split at h
    · next value hvalue =>
      obtain rfl := Except.ok.inj h
      refine .inl ⟨⟨spec, value, i.source, warning⟩, ?_, rfl⟩
      simp only [Input.read, hkey, lift_ok, ok_bind, hspec, hvalue]
      rfl
    · next e he =>
      obtain rfl := Except.ok.inj h
      exact .inr ⟨e, rfl⟩
    · cases h

theorem foldlM_take_of_read {inputs : List (Input φ)} {entries : List (Entry φ)} {l : Loading φ}
    (h : inputs.mapM Input.read = .ok entries) :
    inputs.foldlM Loading.take l = .ok { l with candidate := l.candidate.enterAll entries } := by
  induction inputs generalizing entries l with
  | nil =>
    obtain rfl := Except.ok.inj h
    rfl
  | cons i inputs ih =>
    simp only [mapM_cons, bind_eq_ok, pure_eq_ok] at h
    obtain ⟨e, he, rest, hrest, rfl⟩ := h
    rw [foldlM_cons, Loading.take_of_read he, ok_bind, ih hrest]
    rfl

theorem foldlM_take_eq_ok {inputs : List (Input φ)} {l l' : Loading φ}
    (h : inputs.foldlM Loading.take l = .ok l') :
    l.problems <+: l'.problems ∧
      (l'.problems = l.problems → ∃ entries, inputs.mapM Input.read = .ok entries) := by
  induction inputs generalizing l with
  | nil =>
    obtain rfl := Except.ok.inj h
    exact ⟨prefix_rfl, fun _ => ⟨[], rfl⟩⟩
  | cons i inputs ih =>
    obtain ⟨m, hm, h⟩ := bind_eq_ok.mp h
    obtain ⟨hpre, hall⟩ := ih h
    rcases Loading.take_eq_ok hm with ⟨e, he, rfl⟩ | ⟨problem, hp⟩
    · refine ⟨hpre, fun heq => ?_⟩
      obtain ⟨entries, hentries⟩ := hall heq
      exact ⟨e :: entries, by rw [mapM_cons, he, ok_bind, hentries, ok_bind]; rfl⟩
    · rw [hp] at hpre
      refine ⟨(prefix_append _ _).trans hpre, fun heq => ?_⟩
      have := hpre.length_le
      rw [heq, length_append, length_singleton] at this
      omega

theorem finishProblems_eq_ok {problems : List (ConfigError φ)} {u : Unit} :
    finishProblems problems = .ok u ↔ problems = [] := by
  rcases problems with _ | ⟨e, _ | ⟨e', rest⟩⟩ <;> simp [finishProblems]

/-- Enters the values of a layer, if the rules hold of what comes out. -/
def EffectiveConfig.checked (c : EffectiveConfig φ) : Except (Fault (ConfigError φ)) (EffectiveConfig φ) := do
  c.validateCrossFields
  pure c

/-- **An accepted layer** is entered, and may only fail by the rules between the settings. -/
theorem applyInputs_of_read {inputs : List (Input φ)} {entries : List (Entry φ)}
    (h : inputs.mapM Input.read = .ok entries) :
    applyInputs ⟨c, []⟩ inputs = (c.enterAll entries).checked := by
  rw [applyInputs, foldlM_take_of_read h]
  rfl

theorem applyInputs_eq_ok {inputs : List (Input φ)} {problems : List (ConfigError φ)}
    (h : applyInputs ⟨c, problems⟩ inputs = .ok c') :
    problems = [] ∧ ∃ entries, inputs.mapM Input.read = .ok entries ∧ c' = c.enterAll entries ∧
      c'.validateCrossFields = .ok () := by
  simp only [applyInputs, bind_eq_ok, lift_eq_ok, finishProblems_eq_ok, pure_eq_ok] at h
  obtain ⟨l, hl, _, hnone, _, hcross, rfl⟩ := h
  obtain ⟨hpre, hall⟩ := foldlM_take_eq_ok hl
  rw [hnone] at hpre hall
  obtain rfl : problems = [] := prefix_nil.mp hpre
  obtain ⟨entries, hentries⟩ := hall rfl
  rw [foldlM_take_of_read hentries] at hl
  obtain rfl := Except.ok.inj hl
  exact ⟨rfl, entries, hentries, rfl, hcross⟩

/-! ### Values after a layer -/

def SourcedValue.rank (v : SourcedValue φ) : ℕ := v.source.precedence

/-- The values that entries have for a key. -/
def entriesAt (key : String) (entries : List (Entry φ)) : List (SourcedValue φ) :=
  (entries.filter fun e => e.spec.key = key).map Entry.sourced

theorem values_assign (spec : SettingSpec) (value : TomlValue φ) (source : Source) (key : String) :
    (c.assign spec value source).values[key]? =
      if spec.key = key then Ranked.put SourcedValue.rank c.values[key]? (.of spec value source)
      else c.values[key]? := by
  have hopen : ((c.values[spec.key]?).all fun v => decide (v.source.precedence ≤ source.precedence)) = true ↔
      Ranked.Open SourcedValue.rank (SourcedValue.of spec value source).rank c.values[spec.key]? := by
    cases c.values[spec.key]? <;> simp [Ranked.Open, SourcedValue.rank, SourcedValue.of]
  rw [EffectiveConfig.assign]
  by_cases hk : spec.key = key
  · subst hk
    rw [if_pos rfl]
    split
    · next ho => rw [Std.ExtTreeMap.getElem?_insert_self, Ranked.put_of_open (hopen.mp ho)]
    · next hno => rw [Ranked.put_of_not_open fun ho => hno (hopen.mpr ho)]
  · split
    · rw [Std.ExtTreeMap.getElem?_insert, if_neg]
      exact fun heq => hk (Std.LawfulEqOrd.eq_of_compare heq)
    · rfl

/-- **The values that a layer leaves**: it writes its entries for a key one after the other. -/
theorem values_enterAll (entries : List (Entry φ)) (key : String) :
    (c.enterAll entries).values[key]? =
      Ranked.putAll SourcedValue.rank c.values[key]? (entriesAt key entries) := by
  induction entries generalizing c with
  | nil => rfl
  | cons e entries ih =>
    have hfirst : (c.enterAll (e :: entries)).values[key]? = _ := ih (c := c.enter e)
    rw [hfirst, EffectiveConfig.enter, values_assign, entriesAt, entriesAt]
    by_cases hk : e.spec.key = key
    · rw [if_pos hk, filter_cons_of_pos (by simpa using hk), map_cons, Ranked.putAll_cons]
      rfl
    · rw [if_neg hk, filter_cons_of_neg (by simpa using hk)]
      rfl

/-! ### The rules between settings -/

theorem validateCrossFields_congr
    (h : ∀ key : String, (c.values[key]?).map SourcedValue.value = (c'.values[key]?).map SourcedValue.value) :
    c.validateCrossFields = c'.validateCrossFields := by
  have hint (key : String) : c.integer key = c'.integer key := by
    have := congrArg (fun v => v.bind TomlValue.asInteger) (h key)
    simp only [Option.bind_map] at this
    exact congrArg orPanic this
  have hbuckets : ((c.values["warmup.buckets"]?).bind fun v => maxTPreBucket v.value) =
      (c'.values["warmup.buckets"]?).bind fun v => maxTPreBucket v.value := by
    have := congrArg (fun v => v.bind maxTPreBucket) (h "warmup.buckets")
    simp only [Option.bind_map] at this
    exact this
  simp only [EffectiveConfig.validateCrossFields, hint, hbuckets]

/-- A setting that the rules read as an integer. -/
def isCount (key : String) : Prop := (findSetting key).map SettingSpec.typeName = some "u32"

/-- Every count is an integer. -/
def EffectiveConfig.Counted (c : EffectiveConfig φ) : Prop :=
  ∀ key, isCount key → ∃ v n, c.values[key]? = some v ∧ v.value = .integer n

/-- **A count can be read.** -/
theorem EffectiveConfig.Counted.integer (h : c.Counted) (hkey : isCount key) :
    ∃ n, c.integer key = .ok n := by
  obtain ⟨v, n, hv, hn⟩ := h key hkey
  exact ⟨n, by simp [EffectiveConfig.integer, orPanic, hv, hn, TomlValue.asInteger]⟩

/-- The settings that the rules read as integers. -/
def ruleKeys : List String :=
  ["scheduler.prefill_min_chunk", "scheduler.prefill_max_chunk", "spec.k_max", "spec.tree_max",
    "state.max_ctx"]

theorem ruleKeys_count : ∀ key ∈ ruleKeys, isCount key := by
  unfold isCount
  decide

theorem EffectiveConfig.Counted.validateCrossFields (h : c.Counted) :
    c.validateCrossFields = .ok () ∨
      ∃ messages, c.validateCrossFields = .error (.err (.crossField messages)) := by
  have hint : ∀ key ∈ ruleKeys, ∃ n, c.integer key = .ok n :=
    fun key hkey => h.integer (ruleKeys_count key hkey)
  simp only [ruleKeys, forall_mem_cons] at hint
  obtain ⟨⟨prefillMin, h₁⟩, ⟨prefillMax, h₂⟩, ⟨kMax, h₃⟩, ⟨treeMax, h₄⟩, ⟨maxCtx, h₅⟩, -⟩ := hint
  simp only [EffectiveConfig.validateCrossFields, h₁, h₂, h₃, h₄, h₅, ok_bind, ensure]
  split
  · exact .inl rfl
  · exact .inr ⟨_, rfl⟩

end R9v

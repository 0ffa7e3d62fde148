import R9v.Config.Reachable

/-!
# Precedence

The layers of a start – a file, variables and flags – leave for each setting the last value of the
strongest layer that sets it, in whatever order they are applied (`settled`). The order still decides
whether they are accepted, since the rules between the settings are checked after each of them, when the
others are not there yet.
-/

namespace R9v

open Checked List

variable {φ : Type} {O : Outside φ} {c c' d : EffectiveConfig φ}

inductive Layer
  | file | env | cli
  deriving DecidableEq

def Layer.precedence : Layer → ℕ
  | .file => 1
  | .env => 2
  | .cli => 3

/-- The layers of a start: the path and the text of a file, the variables and the flags. -/
structure Layers where
  path : String
  text : String
  env : List (String × String)
  cli : List (String × String)

namespace Layers

variable (layers : Layers)

def call : Layer → ConfigCall φ
  | .file => .file layers.path layers.text
  | .env => .env layers.env
  | .cli => .cli layers.cli

/-- The entries of a layer, when all its values are accepted. -/
def entries (O : Outside φ) : Layer → Except (Fault (ConfigError φ)) (List (Entry φ))
  | .file => do
    let (flat, inputs, _) ← lift (readFile O layers.path layers.text)
    lift (finishProblems flat.problems)
    inputs.mapM Input.read
  | .env => (envInputs O layers.env).mapM Input.read
  | .cli => (cliInputs O layers.cli).mapM Input.read

/-- Applies layers one after the other, until one is refused. -/
def apply (O : Outside φ) :
    List Layer → EffectiveConfig φ → Except (Fault (ConfigError φ)) Unit × EffectiveConfig φ
  | [], c => (.ok (), c)
  | layer :: order, c =>
    match (layers.call layer).run O c with
    | (.ok (), c') => apply O order c'
    | (.error f, c') => (.error f, c')

end Layers

/-- The last value that entries have for a key. -/
def lastEntry (key : String) (entries : List (Entry φ)) : Option (SourcedValue φ) :=
  (entriesAt key entries).getLast?

/-- **The value of a setting** after some layers: the last one of the strongest layer that sets it, or
the default. -/
def settled (entries : Layer → List (Entry φ)) (d : EffectiveConfig φ) (applied : List Layer)
    (key : String) : Option (SourcedValue φ) :=
  (([Layer.cli, .env, .file].filter (· ∈ applied)).findSome? fun layer =>
    lastEntry key (entries layer)).or d.values[key]?

/-- The layers are refused for the rules between the settings, which do not hold of the layers up to one
of them; the configuration is that of the layers before it. -/
def Refused (value : List Layer → String → Option (SourcedValue φ)) (order : List Layer)
    (messages : List String) (c : EffectiveConfig φ) : Prop :=
  ∃ (before : List Layer) (layer : Layer) (after : List Layer) (merged : EffectiveConfig φ),
    order = before ++ layer :: after ∧ (∀ key : String, c.values[key]? = value before key) ∧
      (∀ key : String, merged.values[key]? = value (before ++ [layer]) key) ∧
      merged.validateCrossFields = .error (.err (.crossField messages))

/-! ### One layer -/

theorem rank_of_read {inputs : List (Input φ)} {entries : List (Entry φ)} {r : ℕ}
    (hr : ∀ i ∈ inputs, i.source.precedence = r) (h : inputs.mapM Input.read = .ok entries)
    {key : String} : ∀ v ∈ entriesAt key entries, v.rank = r := by
  intro v hv
  obtain ⟨e, he, rfl⟩ := mem_map.mp hv
  obtain ⟨i, hi, hread⟩ := mem_of_mapM h (mem_filter.mp he).1
  rw [← hr i hi]
  simp only [Input.read, bind_eq_ok, pure_eq_ok] at hread
  obtain ⟨_, -, _, -, _, -, rfl⟩ := hread
  rfl

section Layer

variable {layers : Layers} {layer : Layer} {entries : List (Entry φ)}

theorem Layers.rank_entries (h : layers.entries O layer = .ok entries) {key : String} :
    ∀ v ∈ entriesAt key entries, v.rank = layer.precedence := by
  cases layer with
  | file =>
    simp only [Layers.entries, bind_eq_ok, lift_eq_ok] at h
    obtain ⟨⟨flat, inputs, extensions⟩, hread, _, -, h⟩ := h
    refine rank_of_read (fun i hi => ?_) h
    simp only [readFile, bind_eq_ok, pure_eq_ok, Prod.mk.injEq] at hread
    obtain ⟨table, -, _, -, -, rfl, -⟩ := hread
    obtain ⟨⟨key, value⟩, -, rfl⟩ := mem_map.mp hi
    rfl
  | env =>
    refine rank_of_read (fun i hi => ?_) h
    simp only [envInputs, mem_filterMap, Option.map_eq_some_iff, Prod.exists] at hi
    obtain ⟨name, raw, -, key, -, rfl⟩ := hi
    rfl
  | cli =>
    refine rank_of_read (fun i hi => ?_) h
    obtain ⟨⟨flag, raw⟩, -, rfl⟩ := mem_map.mp hi
    rfl

theorem Layers.result_of_entries (h : layers.entries O layer = .ok entries) (c : EffectiveConfig φ) :
    ∃ c₁ : EffectiveConfig φ, c₁.values = c.values ∧
      (layers.call layer).result O c = (c₁.enterAll entries).checked := by
  cases layer with
  | file =>
    simp only [Layers.entries, bind_eq_ok, lift_eq_ok, finishProblems_eq_ok] at h
    obtain ⟨⟨flat, inputs, extensions⟩, hread, _, hnone, h⟩ := h
    refine ⟨{ c with extensions := .ofList extensions }, rfl, ?_⟩
    have hnone : flat.problems = [] := hnone
    simp only [Layers.call, ConfigCall.result, hread, lift_ok, ok_bind, hnone]
    exact applyInputs_of_read h
  | env => exact ⟨c, rfl, applyInputs_of_read h⟩
  | cli => exact ⟨c, rfl, applyInputs_of_read h⟩

theorem Layers.entries_of_result (h : (layers.call layer).result O c = .ok c') :
    ∃ entries, layers.entries O layer = .ok entries := by
  cases layer with
  | file =>
    simp only [Layers.call, ConfigCall.result, bind_eq_ok, lift_eq_ok] at h
    obtain ⟨⟨flat, inputs, extensions⟩, hread, h⟩ := h
    obtain ⟨hnone, entries, hentries, -⟩ := applyInputs_eq_ok h
    have hnone : flat.problems = [] := hnone
    refine ⟨entries, ?_⟩
    simp only [Layers.entries, hread, lift_ok, ok_bind, hnone, finishProblems]
    exact hentries
  | env =>
    obtain ⟨-, entries, hentries, -⟩ := applyInputs_eq_ok h
    exact ⟨entries, hentries⟩
  | cli =>
    obtain ⟨-, entries, hentries, -⟩ := applyInputs_eq_ok h
    exact ⟨entries, hentries⟩

end Layer

/-! ### Layers one after the other -/

section Orders

variable {layers : Layers} {entries : Layer → List (Entry φ)} {value : List Layer → String → Option (SourcedValue φ)}
  {order : List Layer} {messages : List String}

theorem Refused.cons {layer : Layer} (h : Refused (fun applied => value (layer :: applied)) order messages c) :
    Refused value (layer :: order) messages c := by
  obtain ⟨before, next, after, merged, rfl, hc, hmerged, hrules⟩ := h
  exact ⟨layer :: before, next, after, merged, rfl, hc, hmerged, hrules⟩

theorem Refused.congr {value' : List Layer → String → Option (SourcedValue φ)}
    (h : Refused value order messages c)
    (heq : ∀ applied after, order = applied ++ after → ∀ key, value applied key = value' applied key) :
    Refused value' order messages c := by
  obtain ⟨before, next, after, merged, rfl, hc, hmerged, hrules⟩ := h
  refine ⟨before, next, after, merged, rfl, fun key => ?_, fun key => ?_, hrules⟩
  · rw [hc, heq before (next :: after) rfl]
  · rw [hmerged, heq (before ++ [next]) after (by simp)]

/-- The value of a setting when layers write their entries in turn. -/
def turned (entries : Layer → List (Entry φ)) (cell : String → Option (SourcedValue φ))
    (applied : List Layer) (key : String) : Option (SourcedValue φ) :=
  applied.foldl
    (fun v layer => Ranked.putAll SourcedValue.rank v (entriesAt key (entries layer))) (cell key)

theorem values_enterAll_turned {layer : Layer} {c₁ : EffectiveConfig φ} (h : c₁.values = c.values)
    (key : String) : (c₁.enterAll (entries layer)).values[key]? =
      turned entries (fun key => c.values[key]?) [layer] key := by
  rw [values_enterAll, h]
  rfl

/-- **Layers in turn** are entered, or refused for the rules between the settings. -/
theorem Layers.apply_cases (hent : ∀ layer, layers.entries O layer = .ok (entries layer))
    (hfit : ∀ layer, ∀ e ∈ entries layer, e.Fits) (order : List Layer) (hc : c.Counted) :
    (∃ c', layers.apply O order c = (.ok (), c') ∧
      ∀ key : String, c'.values[key]? = turned entries (fun key => c.values[key]?) order key) ∨
    ∃ messages c', layers.apply O order c = (.error (.err (.crossField messages)), c') ∧
      Refused (turned entries fun key => c.values[key]?) order messages c' := by
  induction order generalizing c with
  | nil => exact .inl ⟨c, rfl, fun key => rfl⟩
  | cons layer order ih =>
    obtain ⟨c₁, hvals, hres⟩ := Layers.result_of_entries (hent layer) c
    have hc₁ : c₁.Counted := fun key hkey => hvals ▸ hc key hkey
    have hcount := hc₁.enterAll (hfit layer)
    have hentered (key : String) : (c₁.enterAll (entries layer)).values[key]? =
        turned entries (fun key => c.values[key]?) [layer] key := values_enterAll_turned hvals key
    rw [Layers.apply, ConfigCall.run_eq, hres, EffectiveConfig.checked]
    rcases hcount.validateCrossFields with hrules | ⟨messages, hrules⟩
    · simp only [hrules, ok_bind]
      have hnext (applied : List Layer) (key : String) :
          turned entries (fun key => (c₁.enterAll (entries layer)).values[key]?) applied key =
            turned entries (fun key => c.values[key]?) (layer :: applied) key := by
        simp only [turned, foldl_cons, hentered, foldl_nil]
      rcases ih hcount with ⟨c', happly, hc'⟩ | ⟨messages, c', happly, href⟩
      · exact .inl ⟨c', happly, fun key => (hc' key).trans (hnext order key)⟩
      · exact .inr ⟨messages, c', happly,
          (href.congr fun applied _ _ key => hnext applied key).cons⟩
    · simp only [hrules, error_bind]
      exact .inr ⟨messages, c, rfl, [], layer, order, _, rfl, fun key => rfl, hentered, hrules⟩

theorem precedence_injective : Function.Injective Layer.precedence := by
  intro a b h
  cases a <;> cases b <;> first | rfl | cases h

/-- **The order of the layers does not matter** for what they leave. -/
theorem turned_eq_settled
    (hrank : ∀ layer key, ∀ v ∈ entriesAt key (entries layer), v.rank = layer.precedence)
    (hd : ∀ key : String, ∀ v ∈ d.values[key]?, v.rank = 0) (hnodup : order.Nodup) (key : String) :
    turned entries (fun key => d.values[key]?) order key = settled entries d order key := by
  have hperm : order.Perm ([Layer.file, .env, .cli].filter (· ∈ order)) := by
    rw [perm_ext_iff_of_nodup hnodup (List.Pairwise.filter _ (by decide))]
    intro layer
    cases layer <;> simp
  have hsort : ([Layer.file, .env, .cli].filter (· ∈ order)).Pairwise
      (Layer.precedence · < Layer.precedence ·) := List.Pairwise.filter _ (by decide)
  rw [turned, Ranked.foldl_putAll_perm (fun layer => hrank layer key) precedence_injective hperm,
    Ranked.foldl_putAll_of_sorted (fun layer => hrank layer key) hsort, ← filter_reverse]
  · rfl
  · intro layer _ v hv
    rw [hd key v hv]
    exact Nat.zero_le _

theorem rank_fromDefaults (h : EffectiveConfig.fromDefaults O = .ok d) (key : String) :
    ∀ v ∈ d.values[key]?, v.rank = 0 := by
  intro v hv
  by_cases hkey : ∃ spec ∈ allSettings, spec.key = key
  · obtain ⟨spec, hspec, rfl⟩ := hkey
    obtain ⟨value, -, hget⟩ := fromDefaults_get h hspec
    rw [hget] at hv
    obtain rfl := Option.mem_some_iff.mp hv
    rfl
  · rw [fromDefaults_get_none h fun spec hspec heq => hkey ⟨spec, hspec, heq⟩] at hv
    cases hv

/-- The values of layers that are accepted in some order have been accepted. -/
theorem Layers.entries_of_apply (h : layers.apply O order c = (.ok (), c')) :
    ∀ layer ∈ order, ∃ entries, layers.entries O layer = .ok entries := by
  induction order generalizing c with
  | nil => simp
  | cons layer order ih =>
    rw [Layers.apply, ConfigCall.run_eq] at h
    cases hres : (layers.call layer).result O c with
    | error f => simp [hres, replaced] at h
    | ok c₁ =>
      rw [hres] at h
      exact forall_mem_cons.mpr ⟨Layers.entries_of_result hres, ih h⟩

theorem Layers.fits_entries {layer : Layer} {es : List (Entry φ)} (h : layers.entries O layer = .ok es) :
    ∀ e ∈ es, e.Fits := by
  cases layer with
  | file =>
    simp only [Layers.entries, bind_eq_ok, lift_eq_ok] at h
    obtain ⟨⟨flat, inputs, extensions⟩, hread, _, -, h⟩ := h
    exact fits_of_mapM (readFile_validated hread) h
  | env => exact fits_of_mapM envInputs_validated h
  | cli => exact fits_of_mapM cliInputs_validated h

theorem settled_perm {entries : Layer → List (Entry φ)} {order order' : List Layer}
    (h : order.Perm order') : settled entries d order = settled entries d order' := by
  funext key
  simp only [settled, h.mem_iff]

end Orders

/-! ### Starts -/

/-- **Precedence.** When a file, the variables and the flags are accepted in this order, each setting has
the last value of the strongest of them that sets it, or its default. In another order they leave the
same values, or are refused for rules between the settings that do not hold of the first of them. A
call that fails leaves a configuration as it was, and what calls make of the defaults keeps the rules
and has the integers that they read. -/
theorem config_precedence (O : Outside φ) :
    (∀ (layers : Layers) (d c : EffectiveConfig φ), EffectiveConfig.fromDefaults O = .ok d →
      layers.apply O [.file, .env, .cli] d = (.ok (), c) →
      ∃ entries : Layer → List (Entry φ), (∀ layer, layers.entries O layer = .ok (entries layer)) ∧
        (∀ key : String, c.values[key]? = settled entries d [.file, .env, .cli] key) ∧
        ∀ order : List Layer, order.Perm [.file, .env, .cli] →
          (∃ c', layers.apply O order d = (.ok (), c') ∧
            ∀ key : String, c'.values[key]? = c.values[key]?) ∨
          ∃ messages c', layers.apply O order d = (.error (.err (.crossField messages)), c') ∧
            Refused (settled entries d) order messages c') ∧
    ∀ c : EffectiveConfig φ, EffectiveConfig.Reachable O c →
      c.validateCrossFields = .ok () ∧ (∀ key ∈ ruleKeys, ∃ n, c.integer key = .ok n) ∧
        ∀ (call : ConfigCall φ) (f : Fault (ConfigError φ)) (c' : EffectiveConfig φ),
          call.run O c = (.error f, c') → c' = c := by
  refine ⟨fun layers d c hd h => ?_, fun c hc => ⟨hc.sound.rules, fun key hkey =>
    hc.sound.counted.integer (ruleKeys_count key hkey), fun call f c' hrun => ConfigCall.run_error hrun⟩⟩
  have hmem : ∀ layer : Layer, layer ∈ [Layer.file, .env, .cli] := by
    intro layer
    cases layer <;> simp
  choose entries hent using fun layer => Layers.entries_of_apply h layer (hmem layer)
  have hfit : ∀ layer, ∀ e ∈ entries layer, e.Fits := fun layer => Layers.fits_entries (hent layer)
  have hcount : d.Counted := EffectiveConfig.counted_fromDefaults hd
  have hsettled {applied : List Layer} (hnodup : applied.Nodup) (key : String) :
      turned entries (fun key => d.values[key]?) applied key = settled entries d applied key :=
    turned_eq_settled (fun layer key => Layers.rank_entries (hent layer)) (rank_fromDefaults hd) hnodup key
  have hcanonical : ∀ key : String, c.values[key]? = settled entries d [.file, .env, .cli] key := by
    intro key
    rcases Layers.apply_cases hent hfit [.file, .env, .cli] hcount with
      ⟨c', happly, hc'⟩ | ⟨messages, c', happly, -⟩
    · rw [h] at happly
      obtain rfl := (Prod.mk.inj happly).2
      rw [hc', hsettled (by decide)]
    · rw [h] at happly
      cases (Prod.mk.inj happly).1
  refine ⟨entries, hent, hcanonical, fun order hperm => ?_⟩
  have hnodup : order.Nodup := hperm.nodup_iff.mpr (by decide)
  rcases Layers.apply_cases hent hfit order hcount with
    ⟨c', happly, hc'⟩ | ⟨messages, c', happly, href⟩
  · exact .inl ⟨c', happly, fun key => by
      rw [hc', hsettled hnodup, hcanonical, settled_perm hperm]⟩
  · refine .inr ⟨messages, c', happly, href.congr fun applied after heq key => hsettled ?_ key⟩
    rw [heq] at hnodup
    exact (nodup_append.mp hnodup).1

/-! ### A start whose order matters -/

/-- What the runs below need from elsewhere: one file, and the bounds of two ranges. -/
def plainOutside : Outside ℚ where
  parseTable text :=
    if text = "config_version = 1\n[spec]\nk_max = 4\n" then
      .ok [("config_version", .integer 1), ("spec", .table [("k_max", .integer 4)])]
    else .error "expected an equals, found an identifier"
  parseFloat text :=
    match text with
    | "0" => some 0
    | "0.3" => some (5404319552844595 / 2 ^ 54)
    | "1" => some 1
    | "15" => some 15
    | "16" => some 16
    | _ => none
  ofInteger n := n
  le a b := decide (a ≤ b)
  pathExists _ := false

/-- Fewer drafted tokens in the file, and smaller trees on the command line. -/
def smallTrees : Layers where
  path := "r9v.toml"
  text := "config_version = 1\n[spec]\nk_max = 4\n"
  env := []
  cli := [("--spec.tree_max", "4")]

/-- Whether layers are accepted after the defaults. -/
def accepted (O : Outside φ) (layers : Layers) (order : List Layer) : Bool :=
  match EffectiveConfig.fromDefaults O with
  | .ok d => (layers.apply O order d).1.isOk
  | .error _ => false

theorem accepted_iff {layers : Layers} {order : List Layer} : accepted O layers order = true ↔
    ∃ d c, EffectiveConfig.fromDefaults O = .ok d ∧ layers.apply O order d = (.ok (), c) := by
  unfold accepted
  constructor
  · intro h
    split at h
    · next d hd =>
      refine ⟨d, (layers.apply O order d).2, hd, Prod.ext ?_ rfl⟩
      cases hrun : (layers.apply O order d).1 with
      | ok _ => rfl
      | error f =>
        rw [hrun] at h
        cases h
    · cases h
  · rintro ⟨d, c, hd, hrun⟩
    rw [hd]
    change (layers.apply O order d).1.isOk = true
    rw [hrun]
    rfl

theorem smallTrees_orders : accepted plainOutside smallTrees [.file, .env, .cli] = true ∧
    accepted plainOutside smallTrees [.cli, .file, .env] = false := by
  decide +kernel

/-- The flag is refused before the file is there. -/
theorem smallTrees_refused :
    ∃ d c, EffectiveConfig.fromDefaults plainOutside = .ok d ∧
      smallTrees.apply plainOutside [.file, .env, .cli] d = (.ok (), c) ∧
      [Layer.cli, .file, .env].Perm [.file, .env, .cli] ∧
      ∀ c', smallTrees.apply plainOutside [.cli, .file, .env] d ≠ (.ok (), c') := by
  obtain ⟨d, c, hd, h⟩ := accepted_iff.mp smallTrees_orders.1
  refine ⟨d, c, hd, h, by decide, fun c' hc' => ?_⟩
  have hno := smallTrees_orders.2
  rw [accepted_iff.mpr ⟨d, c', hd, hc'⟩] at hno
  cases hno

theorem smallTrees_precedence :
    ∃ d c, EffectiveConfig.fromDefaults plainOutside = .ok d ∧
      smallTrees.apply plainOutside [.file, .env, .cli] d = (.ok (), c) ∧
      (∃ entries : Layer → List (Entry ℚ), ∀ key : String,
        c.values[key]? = settled entries d [.file, .env, .cli] key) ∧
      d.validateCrossFields = .ok () := by
  obtain ⟨d, c, hd, h⟩ := accepted_iff.mp smallTrees_orders.1
  obtain ⟨entries, -, hvalues, -⟩ := (config_precedence plainOutside).1 smallTrees d c hd h
  exact ⟨d, c, hd, h, ⟨entries, hvalues⟩,
    ((config_precedence plainOutside).2 d (.defaults hd)).1⟩

end R9v

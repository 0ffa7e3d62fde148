import R9v.Sched.StepCases

/-!
# Capturing graphs, and the device phase

A graph that can be captured at all is captured by any arena that is large enough, and
the cache makes the arena large enough (`GraphCache.getOrCapture_ok`). Hence the device
phase of a step succeeds when its executor does (`deviceChain_ok`), and whatever the
executor does, the graphs of the cache stay those that the arena captures
(`deviceChain_keeps`).
-/

namespace R9v

open Checked StateManager

/-! ### Captures -/

section Capture

variable {registry : Registry σ} {program : StepGraphProgram σ} {key : StepGraphKey}
  {arena arena' : WorkspaceArena} {g : CapturedGraph}

/-- A graph that one arena captures is captured by another one that is large enough, and
the others say what it needs. -/
theorem capture_other (h : StepGraphBuilder.capture registry key program arena = .ok g) :
    g.requiredWorkspaceBytes ≤ arena.capacityBytes ∧
    StepGraphBuilder.capture registry key program arena' =
      if g.requiredWorkspaceBytes ≤ arena'.capacityBytes then .ok g
      else .error (.arenaOverflow g.requiredWorkspaceBytes arena'.capacityBytes
        (g.requiredWorkspaceBytes - arena'.capacityBytes)) := by
  simp only [StepGraphBuilder.capture, WorkspaceArena.checkRequirement, bind_eq_ok, ensure_eq_ok,
    pure_eq_ok] at h
  obtain ⟨_, hops, _, hsample, st, hst, _, hne, _, hle, bounds, hb, _, hover, rfl⟩ := h
  refine ⟨hle, ?_⟩
  simp only [StepGraphBuilder.capture, WorkspaceArena.checkRequirement, ensure_of hops,
    ensure_of hsample, hst, bind, Except.bind]
  by_cases hfit : st.offset ≤ arena'.capacityBytes
  · simp only [if_pos hfit, ensure_of hfit, ensure_of hne, hb, hover]
    rfl
  · simp [ensure, hfit, hne]

theorem capture_mono (h : StepGraphBuilder.capture registry key program arena = .ok g)
    (hle : arena.capacityBytes ≤ arena'.capacityBytes) :
    StepGraphBuilder.capture registry key program arena' = .ok g := by
  obtain ⟨h₁, h₂⟩ := @capture_other _ _ _ _ _ arena' _ h
  rw [h₂, if_pos (h₁.trans hle)]

end Capture

/-- The graphs of the cache are those that the arena captures. -/
def Captured (registry : Registry σ) (program : StepGraphProgram σ) (arena : WorkspaceArena)
    (graphs : Std.ExtTreeMap StepGraphKey CapturedGraph) : Prop :=
  ∀ (key : StepGraphKey) (g : CapturedGraph), graphs[key]? = some g →
    StepGraphBuilder.capture registry key program arena = .ok g

/-- A key that some arena captures, and whose workspace can be aligned. -/
def Capturable (registry : Registry σ) (program : StepGraphProgram σ) (key : StepGraphKey) : Prop :=
  ∃ arena g, StepGraphBuilder.capture registry key program arena = .ok g ∧
    g.requiredWorkspaceBytes + 255 < 2 ^ 64

section Cache

variable {registry : Registry σ} {program : StepGraphProgram σ} {key : StepGraphKey}
  {arena arena' : WorkspaceArena} {g : CapturedGraph} {cache : GraphCache σ}
  {graphs : Std.ExtTreeMap StepGraphKey CapturedGraph}

theorem Captured.mono (h : Captured registry program arena graphs)
    (hle : arena.capacityBytes ≤ arena'.capacityBytes) : Captured registry program arena' graphs :=
  fun key g hg => capture_mono (h key g hg) hle

theorem Captured.insert (h : Captured registry program arena graphs)
    (hg : StepGraphBuilder.capture registry key program arena = .ok g) :
    Captured registry program arena (graphs.insert key g) := by
  intro key' g' hg'
  rw [Std.ExtTreeMap.getElem?_insert] at hg'
  split at hg'
  · rename_i heq
    cases hg'
    exact Std.LawfulEqOrd.eq_of_compare heq ▸ hg
  · exact h key' g' hg'

theorem captureAll_ok {keys : List StepGraphKey}
    (hkeys : ∀ key ∈ keys, ∃ g, StepGraphBuilder.capture registry key program arena = .ok g)
    (h : Captured registry program arena graphs) :
    ∃ graphs', GraphCache.captureAll registry program arena keys graphs = (.ok (), graphs') ∧
      Captured registry program arena graphs' := by
  induction keys generalizing graphs with
  | nil => exact ⟨graphs, rfl, h⟩
  | cons key keys ih =>
    obtain ⟨g, hg⟩ := hkeys key List.mem_cons_self
    simp only [GraphCache.captureAll, hg]
    exact ih (fun key hk => hkeys key (List.mem_cons_of_mem _ hk)) (h.insert hg)

theorem WorkspaceArena.grow_ok {required : ℕ} (hlt : arena.capacityBytes < required)
    (hreq : required + 255 < 2 ^ 64) (hgen : arena.generation + 1 < 2 ^ 64) :
    ∃ arena', arena.grow required = (.ok (), arena') ∧ required ≤ arena'.capacityBytes ∧
      arena'.generation = arena.generation + 1 := by
  have hadd : Checked.add 64 required (workspaceAlignment - 1) =
    some (required + (workspaceAlignment - 1)) := add_of_lt hreq
  simp only [WorkspaceArena.grow, if_neg (Nat.not_le.mpr hlt), hadd, add_of_lt hgen]
  refine ⟨_, rfl, ?_, rfl⟩
  simp only [WorkspaceArena.alignDown, workspaceAlignment]
  omega

/-- **The cache has, or captures, every graph that can be captured.** -/
theorem GraphCache.getOrCapture_ok (hprog : cache.program = program)
    (hkey : Capturable registry program key) (h : Captured registry program arena cache.graphs)
    (hgen : arena.generation + 1 < 2 ^ 64) :
    ∃ g captured cache' arena', cache.getOrCapture registry key arena =
        (.ok (g, captured), cache', arena') ∧
      cache'.program = program ∧ Captured registry program arena' cache'.graphs ∧
      arena'.generation ≤ arena.generation + 1 := by
  subst hprog
  obtain ⟨big, g, hbig, hreq⟩ := hkey
  obtain ⟨-, hcap⟩ := @capture_other _ _ _ _ _ arena _ hbig
  unfold GraphCache.getOrCapture
  cases hfound : cache.graphs[key]? with
  | some g' => exact ⟨g', false, cache, arena, rfl, rfl, h, by omega⟩
  | none =>
    by_cases hfit : g.requiredWorkspaceBytes ≤ arena.capacityBytes
    · rw [if_pos hfit] at hcap
      simp only [hcap]
      exact ⟨g, true, _, arena, rfl, rfl, h.insert hcap, by omega⟩
    · rw [if_neg hfit] at hcap
      simp only [hcap]
      obtain ⟨arena', hgrow, hroom, hgen'⟩ := WorkspaceArena.grow_ok (Nat.not_le.mp hfit) hreq hgen
      have hmono : Captured registry cache.program arena' cache.graphs := h.mono (by omega)
      have hkeys : ∀ key ∈ cache.graphs.keys, ∃ g,
          StepGraphBuilder.capture registry key cache.program arena' = .ok g := by
        intro key hk
        rw [Std.ExtTreeMap.mem_keys] at hk
        obtain ⟨g, hg⟩ := Option.isSome_iff_exists.mp
          (Std.ExtTreeMap.mem_iff_isSome_getElem?.mp hk)
        exact ⟨g, hmono key g hg⟩
      obtain ⟨graphs', hall, hgraphs'⟩ := captureAll_ok hkeys hmono
      obtain ⟨-, hcap'⟩ := @capture_other _ _ _ _ _ arena' _ hbig
      rw [if_pos hroom] at hcap'
      simp only [GraphCache.growAndCapture, hgrow, hall, hcap']
      exact ⟨g, true, _, arena', rfl, rfl, hgraphs'.insert hcap', hgen'.le⟩

end Cache

/-! ### The device phase -/

/-- What holds of the device: its graphs are those that its arena captures, and its
counters are bounded. -/
structure DeviceInv (registry : Registry σ) (program : StepGraphProgram σ) (events gens : ℕ)
    (d : Device σ) : Prop where
  program_eq : d.cache.program = program
  captured : Captured registry program d.arena d.cache.graphs
  events_le : d.chain.eventCounter ≤ events
  gens_le : d.arena.generation ≤ gens

/-- A computation leads from one condition to another, whether it fails or not. -/
def Leads (x : DeviceM σ α) (P Q : Device σ → Prop) : Prop := ∀ d, P d → Q (x.run d).2

section Device

variable {registry : Registry σ} {program : StepGraphProgram σ} {exec : StepExecutor}
  {inputs : StepInputs} {key : StepGraphKey} {d : Device σ} {n gens : ℕ}
  {P Q R : Device σ → Prop}

theorem DeviceM.run_bind {α β : Type} (x : DeviceM σ α) (f : α → DeviceM σ β) (d : Device σ) :
    (x >>= f).run d = match x.run d with
      | (.ok a, d') => (f a).run d'
      | (.error e, d') => (.error e, d') := by
  unfold ExceptT.run
  simp only [bind, ExceptT.bind, ExceptT.mk, StateT.bind, ExceptT.bindCont]
  rcases x d with ⟨e | a, d'⟩ <;> rfl

theorem Leads.bind {α β : Type} {x : DeviceM σ α} {f : α → DeviceM σ β} (hx : Leads x P Q)
    (hf : ∀ a, Leads (f a) Q R) (hmono : ∀ d, Q d → R d) : Leads (x >>= f) P R := by
  intro d hd
  have hq := hx d hd
  rw [DeviceM.run_bind]
  rcases hx' : x.run d with ⟨e | a, d'⟩
  · rw [hx'] at hq
    exact hmono d' hq
  · rw [hx'] at hq
    exact hf a d' hq

theorem leads_ofResult (x : SchedResult α) : Leads (σ := σ) (.ofResult x) P P := fun _ hd => hd

theorem leads_setCaptured (c : Bool) (hP : ∀ d, P d → P { d with captured := c }) :
    Leads (.setCaptured c) P P := fun d hd => hP d hd

theorem DeviceInv.mono {n' gens' : ℕ} (h : DeviceInv registry program n gens d) (hn : n ≤ n')
    (hg : gens ≤ gens') : DeviceInv registry program n' gens' d :=
  ⟨h.program_eq, h.captured, h.events_le.trans hn, h.gens_le.trans hg⟩

theorem recordEntry_counter (c : StepEventChain) (id : ℕ) (stream : StreamKind) (kind : EventKind)
    (awaited : Option ℕ) :
    (c.recordEntry id stream kind awaited).2.eventCounter ≤ c.eventCounter + 1 := by
  unfold StepEventChain.recordEntry
  split
  · exact Nat.le_succ _
  · cases hadd : add 64 c.eventCounter 1 with
    | none => exact Nat.le_succ _
    | some eid =>
      obtain ⟨-, rfl⟩ := add_eq_some.mp hadd
      exact le_rfl

theorem leads_event {f : StepEventChain → SchedResult α × StepEventChain}
    (hf : ∀ c, (f c).2.eventCounter ≤ c.eventCounter + 1) :
    Leads (.event f) (DeviceInv registry program n gens)
      (DeviceInv registry program (n + 1) gens) := by
  intro d hd
  refine ⟨hd.program_eq, hd.captured, (hf d.chain).trans ?_, hd.gens_le⟩
  have := hd.events_le
  omega

theorem leads_graph (hkey : Capturable registry program key) (hgen : gens + 1 < 2 ^ 64) :
    Leads (.graph registry key) (DeviceInv registry program n gens)
      (DeviceInv registry program n (gens + 1)) := by
  intro d hd
  have hle := hd.gens_le
  obtain ⟨g, captured, cache', arena', heq, hprog, hcap, hgen'⟩ :=
    GraphCache.getOrCapture_ok hd.program_eq hkey hd.captured (by omega)
  change DeviceInv registry program n (gens + 1)
    { d with
      cache := (d.cache.getOrCapture registry key d.arena).2.1
      arena := (d.cache.getOrCapture registry key d.arena).2.2 }
  rw [heq]
  exact ⟨hprog, hcap, hd.events_le, by simp only; omega⟩

/-- **The device phase keeps what holds of the device**, whatever the executor does. -/
theorem deviceChain_keeps (hkey : Capturable registry program key) (hgen : gens + 1 < 2 ^ 64) :
    Leads (deviceChain registry exec inputs key) (DeviceInv registry program n gens)
      (DeviceInv registry program (n + 5) (gens + 1)) := by
  have hmono : ∀ {a b a' b'}, a ≤ a' → b ≤ b' → ∀ d : Device σ,
      DeviceInv registry program a b d → DeviceInv registry program a' b' d :=
    fun h₁ h₂ d hd => hd.mono h₁ h₂
  refine (leads_ofResult _).bind (fun _ => ?_) (hmono (by omega) (by omega))
  refine (leads_event fun c => recordEntry_counter ..).bind (fun upload => ?_)
    (hmono (by omega) (by omega))
  refine (leads_event fun c => recordEntry_counter ..).bind (fun _ => ?_)
    (hmono (by omega) (by omega))
  refine (leads_graph hkey hgen).bind (fun ⟨g, captured⟩ => ?_) (hmono (by omega) (by omega))
  refine (leads_ofResult _).bind (fun _ => ?_) (hmono (by omega) (by omega))
  refine (leads_setCaptured _ fun d hd => ⟨hd.1, hd.2, hd.3, hd.4⟩).bind (fun _ => ?_)
    (hmono (by omega) (by omega))
  refine (leads_event fun c => recordEntry_counter ..).bind (fun compute => ?_)
    (hmono (by omega) (by omega))
  refine (leads_event fun c => recordEntry_counter ..).bind (fun _ => ?_)
    (hmono (by omega) (by omega))
  refine (leads_ofResult _).bind (fun sample => ?_) (hmono (by omega) (by omega))
  refine (leads_event fun c => recordEntry_counter ..).bind (fun _ => ?_)
    (hmono (by omega) (by omega))
  refine Leads.bind (Q := DeviceInv registry program (n + 5) (gens + 1)) ?_ (fun _ d hd => hd)
    fun d hd => hd
  exact fun d hd => ⟨hd.1, hd.2, hd.3, hd.4⟩

theorem recordEntry_ok {c : StepEventChain} {id : ℕ} {stream : StreamKind} {kind : EventKind}
    {awaited : Option ℕ} (hlen : c.records.length < 16) (hlt : c.eventCounter + 1 < 2 ^ 64) :
    c.recordEntry id stream kind awaited = (.ok (c.eventCounter + 1),
      { c with
        eventCounter := c.eventCounter + 1
        records := c.records ++ [⟨id, stream, kind, c.eventCounter + 1, awaited⟩] }) := by
  unfold StepEventChain.recordEntry
  rw [if_neg (by simp only [maxEventsPerStep]; omega), add_of_lt hlt]

/-- **The device phase succeeds when its executor does.** -/
theorem deviceChain_ok {g : CapturedGraph} {captured : Bool} {cache : GraphCache σ}
    {arena : WorkspaceArena} {sample : DeviceStepSample} (hrec : d.chain.records = [])
    (hlt : d.chain.eventCounter + 5 < 2 ^ 64) (hup : exec.uploadInputs inputs = .ok ())
    (hgraph : d.cache.getOrCapture registry key d.arena = (.ok (g, captured), cache, arena))
    (hreplay : exec.replayGraph inputs g = .ok ())
    (hread : exec.readbackSample inputs g = .ok sample) :
    ((deviceChain registry exec inputs key).run d).1 = .ok sample := by
  obtain ⟨⟨n, current, records⟩, cache₀, arena₀, captured₀⟩ := d
  simp only at hrec hlt hgraph
  subst hrec
  -- the events one after the other, each with its own id
  simp (disch := first | omega | (simp; done) | (simp; omega)) only [deviceChain, ExceptT.run,
    bind, ExceptT.bind, ExceptT.mk, ExceptT.bindCont, StateT.bind, DeviceM.ofResult,
    DeviceM.event, DeviceM.graph, DeviceM.setCaptured, StepEventChain.recordUploadComplete,
    StepEventChain.recordWait, StepEventChain.recordComputeComplete,
    StepEventChain.recordReadbackComplete, hup, recordEntry_ok, hgraph, hreplay, hread]
  simp [StepEventChain.validateStepChain, StepEventChain.expectEvent, StepEventChain.expectWait,
    ensure, bind, Except.bind, pure, ExceptT.pure, ExceptT.mk, StateT.pure]

end Device

end R9v

import R9v.Sched.Progress
import R9v.Lib.Loops
import Mathlib.Data.Nat.Digits.Lemmas

/-!
# The workspaces of captured graphs

A captured graph gives every launch that needs one a workspace of its own: the workspaces are aligned,
one after the other in the order of the launches, and each is bound into the argument blob of its
launch (`capture_placed`). The check for overlapping workspaces finds none, so that no capture fails
with an internal error (`capture_ne_internal`).

A graph depends on the arena only through the check of its capacity. A cache that makes the arena
grow therefore captures the same graphs again (`captureAll_same`), and what holds of the cache and
the arena together (`GraphCache.Kept`) survives every call, whether it succeeds or not
(`GraphCache.getOrCapture_kept`).
-/

namespace R9v

open Checked StepGraphBuilder List

/-! ### What is bound -/

/-- The operations that take part in the graph of a key. -/
def StepGraphProgram.taking (program : StepGraphProgram σ) (key : StepGraphKey) :
    List (StepProgramOp σ) :=
  program.ops.filter fun op => (op.resolver key).isSome

/-- A blob is a template with an offset in a slot, and is the template everywhere else. -/
structure Bound (template blob : List ℕ) (slot offset : ℕ) : Prop where
  length_eq : blob.length = template.length
  slot_le : slot + 8 ≤ template.length
  bytes : ∀ b ∈ (blob.drop slot).take 8, b < 256
  value : Nat.ofDigits 256 ((blob.drop slot).take 8) = offset
  rest : ∀ j, j < slot ∨ slot + 8 ≤ j → blob[j]? = template[j]?

/-- An operation is launched as its variant says, with its workspace, if it needs one, bound at an
aligned offset and ending by `stop`. -/
def LaunchedAs (registry : Registry σ) (key : StepGraphKey) (op : StepProgramOp σ)
    (launch : LaunchEntry) (offset stop : ℕ) : Prop :=
  ∃ static v template, op.resolver key = some static ∧
    registry.resolve op.opId static = .ok v ∧ op.argsTemplateBuilder key = some template ∧
    launch = ⟨v.variantHash, v.entrySymbol, v.launchGeometry, v.workspaceBytes, v.staticBytes,
      v.staticFlops, launch.argsBlob⟩ ∧
    (launch.workspaceBytes = 0 → launch.argsBlob = template) ∧
    (launch.workspaceBytes ≠ 0 → ∃ slot, op.workspaceSlot = some slot ∧
      Bound template launch.argsBlob slot offset ∧ 256 ∣ offset ∧
      offset + launch.workspaceBytes ≤ stop)

/-- The launches of some operations, and the offsets of their workspaces: disjoint and in the order of
the launches. -/
structure LaunchesPlaced (registry : Registry σ) (key : StepGraphKey) (ops : List (StepProgramOp σ))
    (launches : List LaunchEntry) (offsets : List ℕ) (stop : ℕ) : Prop where
  launches_length : launches.length = ops.length
  offsets_length : offsets.length = ops.length
  launched : ∀ (i : ℕ) (op : StepProgramOp σ) (launch : LaunchEntry) (offset : ℕ),
    ops[i]? = some op → launches[i]? = some launch → offsets[i]? = some offset →
      LaunchedAs registry key op launch offset stop
  ordered : (offsets.zip launches).Pairwise fun x y =>
    x.2.workspaceBytes ≠ 0 → y.2.workspaceBytes ≠ 0 → x.1 + x.2.workspaceBytes ≤ y.1

/-! ### Placing the operations -/

section Place

variable {registry : Registry σ} {program : StepGraphProgram σ} {key : StepGraphKey}
  {op : StepProgramOp σ} {st st' : Capturing}

theorem LaunchedAs.mono {launch : LaunchEntry} {offset stop stop' : ℕ}
    (h : LaunchedAs registry key op launch offset stop) (hle : stop ≤ stop') :
    LaunchedAs registry key op launch offset stop' := by
  obtain ⟨static, v, template, hstatic, hv, htemplate, hlaunch, hnone, hsome⟩ := h
  refine ⟨static, v, template, hstatic, hv, htemplate, hlaunch, hnone, fun hne => ?_⟩
  obtain ⟨slot, hslot, hbound, hdvd, hend⟩ := hsome hne
  exact ⟨slot, hslot, hbound, hdvd, hend.trans hle⟩

theorem alignOffset_eq_ok {offset aligned : ℕ} (h : alignOffset offset = .ok aligned) :
    offset ≤ aligned ∧ 256 ∣ aligned ∧ (offset = aligned ∨ aligned < 2 ^ 64) := by
  unfold alignOffset at h
  split at h
  · obtain rfl := Except.ok.inj h
    exact ⟨le_rfl, by omega, Or.inl rfl⟩
  · simp only [okOr_eq_ok, add_eq_some] at h
    obtain ⟨hlt, rfl⟩ := h
    exact ⟨by omega, by omega, Or.inr hlt⟩

theorem ofDigits_leBytes {n : ℕ} (h : n < 2 ^ 64) : Nat.ofDigits 256 (leBytes n) = n := by
  simp only [leBytes, range_succ, range_zero, nil_append, cons_append, map_cons,
    map_nil, Nat.ofDigits_cons, Nat.ofDigits_nil]
  omega

theorem leBytes_lt {n b : ℕ} (h : b ∈ leBytes n) : b < 256 := by
  obtain ⟨i, -, rfl⟩ := mem_map.mp h
  exact Nat.mod_lt _ (by decide)

theorem bound_of_fits {template : List ℕ} {slot offset : ℕ} (hfit : slot + 8 ≤ template.length)
    (hlt : offset < 2 ^ 64) :
    Bound template (template.take slot ++ leBytes offset ++ template.drop (slot + 8)) slot offset := by
  have hlen : (template.take slot).length = slot := by
    rw [length_take]
    omega
  have hbytes : (leBytes offset).length = 8 := by simp [leBytes]
  have hmid : ((template.take slot ++ leBytes offset ++ template.drop (slot + 8)).drop slot).take 8 =
      leBytes offset := by
    rw [append_assoc, drop_left' hlen, take_left' hbytes]
  refine ⟨?_, hfit, ?_, ?_, ?_⟩
  · simp only [length_append, hlen, hbytes, length_drop]
    omega
  · rw [hmid]
    exact fun b hb => leBytes_lt hb
  · rw [hmid, ofDigits_leBytes hlt]
  · rintro j (hj | hj)
    · rw [append_assoc, getElem?_append_left (by omega), getElem?_take_of_lt hj]
    · rw [getElem?_append_right (by simp only [length_append]; omega), getElem?_drop]
      congr 1
      simp only [length_append, hlen, hbytes]
      omega

/-- **Placing one operation**: its workspace begins where the others end, or after. -/
theorem placeOp_eq_ok {v : ResolvedVariant} {template blob : List ℕ} {offset at' next : ℕ}
    (h : placeOp key op v template offset = .ok (blob, at', next)) :
    offset ≤ next ∧ (v.workspaceBytes = 0 → blob = template) ∧
      (v.workspaceBytes ≠ 0 → offset ≤ at' ∧ next = at' + v.workspaceBytes ∧ 256 ∣ at' ∧
        ∃ slot, op.workspaceSlot = some slot ∧ Bound template blob slot at') := by
  unfold placeOp at h
  split at h
  · next hpos =>
    simp only [bindWorkspace, bind_eq_ok, okOr_eq_ok, ensure_eq_ok, add_eq_some, pure_eq_ok,
      Prod.mk.injEq] at h
    obtain ⟨slot, hslot, -, -, _, ⟨-, rfl⟩, -, hfit, aligned, haligned, _, ⟨hlt, rfl⟩, rfl, rfl,
      rfl⟩ := h
    obtain ⟨hle, hdvd, -⟩ := alignOffset_eq_ok haligned
    exact ⟨by omega, fun hno => absurd hno hpos.ne', fun _ => ⟨hle, rfl, hdvd, slot, hslot,
      bound_of_fits hfit (by omega)⟩⟩
  · next hzero =>
    obtain ⟨rfl, -, rfl⟩ := h
    exact ⟨le_rfl, fun _ => rfl, fun hne => absurd (Nat.pos_of_ne_zero hne) hzero⟩

/-- **An operation that takes part is placed after the others.** -/
theorem captureResolved_placed {ops : List (StepProgramOp σ)} {static : σ}
    (hstatic : op.resolver key = some static)
    (h : LaunchesPlaced registry key ops st.launches st.workspaceOffsets st.offset)
    (hok : captureResolved registry key st op static = .ok st') :
    LaunchesPlaced registry key (ops ++ [op]) st'.launches st'.workspaceOffsets st'.offset := by
  simp only [captureResolved, bind_eq_ok, okOr_eq_ok, pure_eq_ok] at hok
  obtain ⟨v, hv, template, htemplate, ⟨blob, at', next⟩, hplace, rfl⟩ := hok
  have hv : registry.resolve op.opId static = .ok v := by
    cases hr : registry.resolve op.opId static with
    | ok w =>
      rw [hr] at hv
      exact congrArg Except.ok (Except.ok.inj hv)
    | error e =>
      rw [hr] at hv
      cases hv
  obtain ⟨hle, hnone, hsome⟩ := placeOp_eq_ok hplace
  refine ⟨by simp [h.launches_length], by simp [h.offsets_length], fun i o launch offset ho hl hoff => ?_,
    ?_⟩
  · rcases lt_trichotomy i ops.length with hlt | rfl | hgt
    · rw [getElem?_append_left hlt] at ho
      rw [getElem?_append_left (h.launches_length ▸ hlt)] at hl
      rw [getElem?_append_left (h.offsets_length ▸ hlt)] at hoff
      exact (h.launched i o launch offset ho hl hoff).mono hle
    · obtain rfl : op = o := by simpa using ho
      rw [← h.launches_length, getElem?_concat_length] at hl
      rw [← h.offsets_length, getElem?_concat_length] at hoff
      obtain rfl := Option.some.inj hl
      obtain rfl := Option.some.inj hoff
      refine ⟨static, v, template, hstatic, hv, htemplate, rfl, hnone, fun hne => ?_⟩
      obtain ⟨-, hnext, hdvd, slot, hslot, hbound⟩ := hsome hne
      exact ⟨slot, hslot, hbound, hdvd, hnext.ge⟩
    · rw [getElem?_eq_none (by simp only [length_append, length_singleton]; omega)] at ho
      cases ho
  · rw [zip_append (by rw [h.offsets_length, h.launches_length])]
    refine pairwise_append.mpr ⟨h.ordered, pairwise_singleton _ _, ?_⟩
    rintro ⟨offset, launch⟩ hx y hy hne hne'
    obtain rfl := mem_singleton.mp hy
    obtain ⟨i, hi⟩ := mem_iff_getElem?.mp hx
    obtain ⟨hoff, hl⟩ := getElem?_zip_eq_some.mp hi
    -- the workspaces so far end by the offset from which this one was aligned
    have hlt : i < ops.length := h.launches_length ▸ (List.getElem?_eq_some_iff.mp hl).1
    obtain ⟨_, _, _, -, -, -, -, -, hend⟩ :=
      h.launched i _ launch offset (getElem?_eq_getElem hlt) hl hoff
    obtain ⟨-, -, -, -, hstop⟩ := hend hne
    exact hstop.trans (hsome hne').1

/-- **Capturing the operations in turn** places those that take part. -/
theorem foldlM_placed {ops done : List (StepProgramOp σ)}
    (h : LaunchesPlaced registry key done st.launches st.workspaceOffsets st.offset)
    (hok : ops.foldlM (captureOp registry key) st = .ok st') :
    LaunchesPlaced registry key (done ++ ops.filter fun op => (op.resolver key).isSome) st'.launches
      st'.workspaceOffsets st'.offset := by
  induction ops generalizing done st with
  | nil =>
    obtain rfl := Except.ok.inj hok
    simpa using h
  | cons op ops ih =>
    rw [foldlM_cons, bind_eq_ok] at hok
    obtain ⟨st₁, hstep, hrest⟩ := hok
    unfold captureOp at hstep
    split at hstep
    · next hnone =>
      obtain rfl := Except.ok.inj hstep
      rw [filter_cons_of_neg (by simp [hnone])]
      exact ih h hrest
    · next static hstatic =>
      rw [filter_cons_of_pos (by simp [hstatic]), ← singleton_append, ← append_assoc]
      exact ih (captureResolved_placed hstatic h hstep) hrest

/-- **The workspaces of a captured graph** are placed, and the arena has room for them. -/
theorem capture_placed {arena : WorkspaceArena} {g : CapturedGraph}
    (h : capture registry key program arena = .ok g) :
    g.key = key ∧ g.requiredWorkspaceBytes ≤ arena.capacityBytes ∧
      LaunchesPlaced registry key (program.taking key) g.launches g.workspaceOffsets
        g.requiredWorkspaceBytes := by
  simp only [capture, WorkspaceArena.checkRequirement, bind_eq_ok, ensure_eq_ok, pure_eq_ok] at h
  obtain ⟨-, -, -, -, st, hst, -, -, -, hle, -, -, -, -, rfl⟩ := h
  have hnil : LaunchesPlaced registry key [] (⟨[], [], [], 0⟩ : Capturing).launches [] 0 :=
    ⟨rfl, rfl, fun i op _ _ ho => by simp at ho, List.Pairwise.nil⟩
  have := foldlM_placed hnil hst
  exact ⟨rfl, hle, this⟩

end Place

/-! ### The errors of a capture -/

section Errors

variable {registry : Registry σ} {program : StepGraphProgram σ} {key : StepGraphKey}
  {op : StepProgramOp σ} {st : Capturing}

/-- An error that the scheduler takes for one of its own. -/
def SchedError.isInternal : SchedError → Bool
  | .internal _ => true
  | _ => false

theorem placeOp_error {v : ResolvedVariant} {template : List ℕ} {offset : ℕ} {e : SchedError}
    (h : placeOp key op v template offset = .error e) : e.isInternal = false := by
  unfold placeOp at h
  split at h
  · simp only [bindWorkspace, bind_eq_error, okOr_eq_error, ensure_eq_error, pure_eq_error] at h
    rcases h with ⟨-, rfl⟩ | ⟨slot, -, ⟨-, rfl⟩ | ⟨_, -, ⟨-, rfl⟩ | ⟨_, -, ⟨-, rfl⟩ | ⟨_, -, h | ⟨_, -,
      ⟨-, rfl⟩ | ⟨_, -, hno⟩⟩⟩⟩⟩⟩
    all_goals first | rfl | skip
    · unfold alignOffset at h
      split at h
      · cases h
      · obtain ⟨-, rfl⟩ := okOr_eq_error.mp h
        rfl
    · exact hno.elim
  · cases h

theorem captureOp_error {e : SchedError} (h : captureOp registry key st op = .error e) :
    e.isInternal = false := by
  unfold captureOp at h
  split at h
  · cases h
  next static _ =>
  simp only [captureResolved, bind_eq_error, okOr_eq_error, pure_eq_error] at h
  rcases h with h | ⟨v, -, ⟨-, rfl⟩ | ⟨template, -, h | ⟨_, -, hno⟩⟩⟩
  · cases hr : registry.resolve op.opId static with
    | ok w =>
      rw [hr] at h
      cases h
    | error e' =>
      rw [hr] at h
      cases h
      rfl
  · rfl
  · exact placeOp_error h
  · exact hno.elim

theorem foldlM_error {ops : List (StepProgramOp σ)} {e : SchedError}
    (h : ops.foldlM (captureOp registry key) st = .error e) : e.isInternal = false := by
  induction ops generalizing st with
  | nil => cases h
  | cons op ops ih =>
    rw [foldlM_cons, bind_eq_error] at h
    rcases h with h | ⟨st', -, h⟩
    · exact captureOp_error h
    · exact ih h

theorem checkOverlaps_eq_ok {bounds : List (ℕ × ℕ)} (h : bounds.Pairwise fun x y => x.2 ≤ y.1) (i : ℕ) :
    checkOverlaps i bounds = .ok () := by
  induction bounds generalizing i with
  | nil => rfl
  | cons x bounds ih =>
    obtain ⟨startI, endI⟩ := x
    obtain ⟨hx, hrest⟩ := pairwise_cons.mp h
    have hfirst : forM (bounds.zipIdx (i + 1)) (fun (x : (ℕ × ℕ) × ℕ) =>
        ensure (endI ≤ x.1.1 ∨ x.1.2 ≤ startI) (SchedError.internal
          (s!"detected overlapping workspace slices between launch {i} [{startI}..{endI}) " ++
            s!"and launch {x.2} [{x.1.1}..{x.1.2})"))) = .ok () := by
      refine forM_eq_ok.mpr fun y hy => ensure_of (Or.inl (hx y.1 ?_))
      exact (mem_zipIdx hy).2.2 ▸ getElem_mem _
    change (forM (bounds.zipIdx (i + 1)) _ >>= fun _ => checkOverlaps (i + 1) bounds) = _
    rw [hfirst, ok_bind]
    exact ih hrest (i + 1)

theorem workspaceBounds_pairwise {offsets : List ℕ} {launches : List LaunchEntry} {bounds : List (ℕ × ℕ)}
    (h : (offsets.zip launches).Pairwise fun x y =>
      x.2.workspaceBytes ≠ 0 → y.2.workspaceBytes ≠ 0 → x.1 + x.2.workspaceBytes ≤ y.1)
    (hok : workspaceBounds offsets launches = .ok bounds) : bounds.Pairwise fun x y => x.2 ≤ y.1 := by
  have hbounds : bounds = ((offsets.zip launches).filter fun x => x.2.workspaceBytes ≠ 0).map
      fun x => (x.1, x.1 + x.2.workspaceBytes) := by
    have := map_of_mapM (u := fun x : ℕ × LaunchEntry => (x.1, x.1 + x.2.workspaceBytes)) (v := id) hok
      (by
        rintro ⟨start, entry⟩ - b hb
        simp only [bind_eq_ok, okOr_eq_ok, add_eq_some, pure_eq_ok] at hb
        obtain ⟨_, ⟨-, rfl⟩, rfl⟩ := hb
        rfl)
    rwa [map_id] at this
  rw [hbounds, pairwise_map]
  refine ((Pairwise.and_mem.mp (h.filter _)).imp ?_)
  rintro x y ⟨hx, hy, hxy⟩
  exact hxy (by simpa using (mem_filter.mp hx).2) (by simpa using (mem_filter.mp hy).2)

/-- **No capture fails with an internal error.** -/
theorem capture_ne_internal {arena : WorkspaceArena} {e : SchedError}
    (h : capture registry key program arena = .error e) : e.isInternal = false := by
  simp only [capture, bind_eq_error, ensure_eq_error, pure_eq_error] at h
  rcases h with ⟨-, rfl⟩ | ⟨_, -, ⟨-, rfl⟩ | ⟨_, -, h | ⟨st', hst, ⟨-, rfl⟩ | ⟨_, -, h | ⟨_, -, h |
    ⟨bounds, hbounds, h | ⟨_, -, hno⟩⟩⟩⟩⟩⟩⟩
  · rfl
  · rfl
  · exact foldlM_error h
  · rfl
  · obtain ⟨-, rfl⟩ := ensure_eq_error.mp h
    rfl
  · obtain ⟨x, -, hx⟩ := exists_of_mapM_eq_error h
    simp only [bind_eq_error, okOr_eq_error, pure_eq_error] at hx
    rcases hx with ⟨-, rfl⟩ | ⟨_, -, hno⟩
    · rfl
    · exact hno.elim
  · have hnil : LaunchesPlaced registry key [] (⟨[], [], [], 0⟩ : Capturing).launches [] 0 :=
      ⟨rfl, rfl, fun i op _ _ ho => by simp at ho, List.Pairwise.nil⟩
    have hplaced := foldlM_placed hnil hst
    rw [checkOverlaps_eq_ok (workspaceBounds_pairwise hplaced.ordered hbounds)] at h
    cases h
  · exact hno.elim

end Errors

/-! ### The cache and its arena -/

section Cache

variable {registry : Registry σ} {program : StepGraphProgram σ} {key : StepGraphKey}
  {arena arena' : WorkspaceArena} {cache : GraphCache σ}
  {graphs : Std.ExtTreeMap StepGraphKey CapturedGraph}

theorem WorkspaceArena.grow_spec (arena : WorkspaceArena) (capacity : ℕ) :
    arena.capacityBytes ≤ (arena.grow capacity).2.capacityBytes ∧ ∀ e,
      (arena.grow capacity).1 = .error e →
        (arena.grow capacity).2.generation = arena.generation ∧ e.isInternal = false := by
  unfold grow
  split
  · exact ⟨le_rfl, fun e he => by cases he⟩
  next hlt =>
  split
  · refine ⟨le_rfl, fun e he => ?_⟩
    cases he
    exact ⟨rfl, rfl⟩
  next sum hsum =>
  obtain ⟨-, rfl⟩ := add_eq_some.mp hsum
  have hle : arena.capacityBytes ≤ alignDown (capacity + (workspaceAlignment - 1)) := by
    simp only [alignDown, workspaceAlignment]
    omega
  simp only
  split
  · refine ⟨hle, fun e he => ?_⟩
    cases he
    exact ⟨rfl, rfl⟩
  · exact ⟨hle, fun e he => by cases he⟩

theorem insert_graph_self {g : CapturedGraph} (h : graphs[key]? = some g) : graphs.insert key g = graphs := by
  refine Std.ExtTreeMap.ext_getElem? fun key' => ?_
  rw [Std.ExtTreeMap.getElem?_insert]
  split
  · next heq => rw [← Std.LawfulEqOrd.eq_of_compare heq, h]
  · rfl

/-- **Capturing the graphs of the cache again changes nothing.** -/
theorem captureAll_same {keys : List StepGraphKey} (hkeys : ∀ key ∈ keys, key ∈ graphs)
    (h : Captured registry program arena graphs) :
    GraphCache.captureAll registry program arena keys graphs = (.ok (), graphs) := by
  induction keys with
  | nil => rfl
  | cons key keys ih =>
    obtain ⟨hkey, hrest⟩ := forall_mem_cons.mp hkeys
    obtain ⟨g, hg⟩ := Option.isSome_iff_exists.mp (Std.ExtTreeMap.mem_iff_isSome_getElem?.mp hkey)
    simp only [GraphCache.captureAll, h key g hg, insert_graph_self hg]
    exact ih hrest

/-- **What holds of a cache and its arena** between two calls. -/
structure GraphCache.Kept (registry : Registry σ) (program : StepGraphProgram σ) (cache : GraphCache σ)
    (arena : WorkspaceArena) : Prop where
  program_eq : cache.program = program
  captured : Captured registry program arena cache.graphs
  generation_eq : cache.arenaGeneration = arena.generation

/-- What a call does to a cache and its arena, and how it ends. -/
structure GraphCache.Served (registry : Registry σ) (program : StepGraphProgram σ) (key : StepGraphKey)
    (cache : GraphCache σ) (arena : WorkspaceArena)
    (after : SchedResult (CapturedGraph × Bool) × GraphCache σ × WorkspaceArena) : Prop where
  kept : GraphCache.Kept registry program after.2.1 after.2.2
  capacity_le : arena.capacityBytes ≤ after.2.2.capacityBytes
  graphs_kept : ∀ (key : StepGraphKey) (g : CapturedGraph), cache.graphs[key]? = some g → after.2.1.graphs[key]? = some g
  cached : ∀ g b, after.1 = .ok (g, b) → after.2.1.graphs[key]? = some g
  not_internal : ∀ e, after.1 = .error e → e.isInternal = false

theorem GraphCache.Kept.add (h : GraphCache.Kept registry program cache arena) {g : CapturedGraph}
    (hnew : cache.graphs[key]? = none) (hg : capture registry key program arena = .ok g) :
    GraphCache.Kept registry program (cache.add key g) arena ∧
      (∀ (key' : StepGraphKey) (g' : CapturedGraph), cache.graphs[key']? = some g' → (cache.add key g).graphs[key']? = some g') ∧
      (cache.add key g).graphs[key]? = some g := by
  refine ⟨⟨h.program_eq, h.captured.insert hg, h.generation_eq⟩, fun key' g' hg' => ?_, ?_⟩
  · change (cache.graphs.insert key g)[key']? = some g'
    rw [Std.ExtTreeMap.getElem?_insert, if_neg, hg']
    intro heq
    rw [Std.LawfulEqOrd.eq_of_compare heq, hg'] at hnew
    cases hnew
  · exact Std.ExtTreeMap.getElem?_insert_self

/-- **Every call keeps the cache and the arena in order**, whether it succeeds or not. -/
theorem GraphCache.getOrCapture_served (h : GraphCache.Kept registry program cache arena)
    (key : StepGraphKey) :
    GraphCache.Served registry program key cache arena (cache.getOrCapture registry key arena) := by
  obtain ⟨rfl, hcap, hgen⟩ := h
  unfold GraphCache.getOrCapture
  split
  · next g hfound =>
    refine ⟨⟨rfl, hcap, hgen⟩, le_rfl, fun _ _ hg => hg, fun g' b hr => ?_, fun e he => by cases he⟩
    cases hr
    exact hfound
  next hnew =>
  split
  · next g hg =>
    obtain ⟨hkept, hgraphs, hcached⟩ := GraphCache.Kept.add ⟨rfl, hcap, hgen⟩ hnew hg
    refine ⟨hkept, le_rfl, hgraphs, fun g' b hr => ?_, fun e he => by cases he⟩
    cases hr
    exact hcached
  · next required _ _ _ =>
    -- the arena grows, and whatever comes of it, the graphs stay as they are
    obtain ⟨hle, hfail⟩ := arena.grow_spec required
    unfold GraphCache.growAndCapture
    split
    · next e arena' hgrow =>
      rw [hgrow] at hle hfail
      obtain ⟨hgen', hint⟩ := hfail e rfl
      refine ⟨⟨rfl, hcap.mono hle, hgen.trans hgen'.symm⟩, hle, fun _ _ hg => hg,
        fun g' b hr => (by cases hr), fun e' he => ?_⟩
      cases he
      exact hint
    next arena' hgrow =>
    rw [hgrow] at hle
    have hmono : Captured registry cache.program arena' cache.graphs := hcap.mono hle
    rw [captureAll_same (fun key hkey => Std.ExtTreeMap.mem_keys.mp hkey) hmono]
    simp only
    split
    · next e he =>
      refine ⟨⟨rfl, hmono, rfl⟩, hle, fun _ _ hg => hg, fun g' b hr => (by cases hr), fun e' he' => ?_⟩
      cases he'
      exact capture_ne_internal he
    · next g hg =>
      have hnow : GraphCache.Kept registry cache.program
          { cache with arenaGeneration := arena'.generation } arena' := ⟨rfl, hmono, rfl⟩
      obtain ⟨hkept, hgraphs, hcached⟩ := hnow.add hnew hg
      refine ⟨hkept, hle, hgraphs, fun g' b hr => ?_, fun e he => by cases he⟩
      cases hr
      exact hcached
  · next e _ he =>
    refine ⟨⟨rfl, hcap, hgen⟩, le_rfl, fun _ _ hg => hg, fun g' b hr => (by cases hr), fun e' he' => ?_⟩
    cases he'
    exact capture_ne_internal he

/-- A cache and its arena after some calls. -/
def GraphCache.serve (registry : Registry σ) (keys : List StepGraphKey) (cache : GraphCache σ)
    (arena : WorkspaceArena) : GraphCache σ × WorkspaceArena :=
  keys.foldl (fun x key => (x.1.getOrCapture registry key x.2).2) (cache, arena)

/-- **Runs of calls** keep the cache and the arena in order, and every graph that is cached. -/
theorem GraphCache.Kept.serve (h : GraphCache.Kept registry program cache arena)
    (keys : List StepGraphKey) :
    GraphCache.Kept registry program (cache.serve registry keys arena).1
        (cache.serve registry keys arena).2 ∧
      arena.capacityBytes ≤ (cache.serve registry keys arena).2.capacityBytes ∧
      ∀ (key : StepGraphKey) (g : CapturedGraph), cache.graphs[key]? = some g →
        (cache.serve registry keys arena).1.graphs[key]? = some g := by
  induction keys generalizing cache arena with
  | nil => exact ⟨h, le_rfl, fun _ _ hg => hg⟩
  | cons key keys ih =>
    have hserved := GraphCache.getOrCapture_served h key
    obtain ⟨hkept, hle, hgraphs⟩ := ih hserved.kept
    exact ⟨hkept, hserved.capacity_le.trans hle, fun key' g hg =>
      hgraphs key' g (hserved.graphs_kept key' g hg)⟩

theorem GraphCache.kept_of_eager {planId rank : ℕ}
    (h : GraphCache.eagerCaptureWarmBuckets registry planId rank program arena = .ok cache) :
    GraphCache.Kept registry program cache arena := by
  unfold GraphCache.eagerCaptureWarmBuckets at h
  split at h
  · cases h
  · next graphs hall =>
    obtain rfl := Except.ok.inj h
    exact ⟨rfl, captureAll_captured (fun _ _ hg => by simp at hg) hall, rfl⟩

/-- **Graphs and workspaces.** No capture fails with an internal error. After every run of calls on a cache
that started with the warm shapes, the graphs are placed in their workspaces, which the arena has room
for; the cache is of the generation of the arena; the arena does not shrink; and a graph that has been
returned is cached, and is returned from then on. -/
theorem graph_workspaces {planId rank : ℕ}
    (h : GraphCache.eagerCaptureWarmBuckets registry planId rank program arena = .ok cache)
    (keys : List StepGraphKey) :
    (∀ key arena e, capture registry key program arena = .error e → e.isInternal = false) ∧
    (∀ key e, ((cache.serve registry keys arena).1.getOrCapture registry key
      (cache.serve registry keys arena).2).1 = .error e → e.isInternal = false) ∧
    (∀ key g, (cache.serve registry keys arena).1.graphs[key]? = some g → g.key = key ∧
      g.requiredWorkspaceBytes ≤ (cache.serve registry keys arena).2.capacityBytes ∧
      LaunchesPlaced registry key (program.taking key) g.launches g.workspaceOffsets
        g.requiredWorkspaceBytes) ∧
    (cache.serve registry keys arena).1.arenaGeneration = (cache.serve registry keys arena).2.generation ∧
    (∀ key g b, ((cache.serve registry keys arena).1.getOrCapture registry key
      (cache.serve registry keys arena).2).1 = .ok (g, b) →
        (cache.serve registry (keys ++ [key]) arena).1.graphs[key]? = some g) ∧
    ∀ later, (cache.serve registry keys arena).2.capacityBytes ≤
        (cache.serve registry (keys ++ later) arena).2.capacityBytes ∧
      ∀ key g, (cache.serve registry keys arena).1.graphs[key]? = some g →
        ((cache.serve registry (keys ++ later) arena).1.getOrCapture registry key
          (cache.serve registry (keys ++ later) arena).2).1 = .ok (g, false) := by
  obtain ⟨hkept, -, -⟩ := (GraphCache.kept_of_eager h).serve keys
  have happend : ∀ later, cache.serve registry (keys ++ later) arena =
      (cache.serve registry keys arena).1.serve registry later (cache.serve registry keys arena).2 :=
    fun later => foldl_append
  refine ⟨fun key arena e he => capture_ne_internal he,
    fun key e he => (GraphCache.getOrCapture_served hkept key).not_internal e he,
    fun key g hg => capture_placed (hkept.captured key g hg), hkept.generation_eq,
    fun key g b hb => ?_, fun later => ?_⟩
  · rw [happend [key]]
    exact (GraphCache.getOrCapture_served hkept key).cached g b hb
  · rw [happend later]
    obtain ⟨-, hle, hgraphs⟩ := hkept.serve later
    refine ⟨hle, fun key g hg => ?_⟩
    simp only [GraphCache.getOrCapture, hgraphs key g hg]

end Cache

/-! ### A small cache -/

/-- Two operations with workspaces and one without. -/
def workspaceProgram : StepGraphProgram ℕ :=
  ⟨[⟨.sample, "sample", fun key => some key.tPre, fun _ => some (List.replicate 16 7), some 8⟩,
    ⟨.matmul, "matmul", fun key => some key.tDec, fun _ => some (List.replicate 8 7), some 0⟩]⟩

/-- Workspaces that are as large as the shape asks. -/
def workspaceRegistry : Registry ℕ :=
  ⟨fun _ static => .ok ⟨0, .t0, "kernel", ⟨(1, 1, 1), (1, 1, 1), 0⟩, static, 0, 0⟩⟩

def warmCapture : SchedResult (GraphCache ℕ) :=
  GraphCache.eagerCaptureWarmBuckets workspaceRegistry 0 0 workspaceProgram (.new 0 4096)

theorem warmCapture_isSome : warmCapture.toOption.isSome = true := by decide

def warmCache : GraphCache ℕ := warmCapture.toOption.get warmCapture_isSome

theorem warmCapture_eq : warmCapture = .ok warmCache := by
  have hsome : warmCapture.toOption = some warmCache := (Option.some_get _).symm
  cases hcap : warmCapture with
  | ok c =>
    rw [hcap] at hsome
    exact congrArg _ (Option.some.inj hsome)
  | error e =>
    rw [hcap] at hsome
    cases hsome

/-- A shape that is not warm makes the arena grow, and its graph is placed. -/
theorem graph_workspaces_grown :
    (warmCache.serve workspaceRegistry [⟨0, 0, 1, 1, 5000, 0⟩] (.new 0 4096)).1.arenaGeneration = 2 ∧
    ∃ g, (warmCache.serve workspaceRegistry [⟨0, 0, 1, 1, 5000, 0⟩] (.new 0 4096)).1.graphs[
        (⟨0, 0, 1, 1, 5000, 0⟩ : StepGraphKey)]? = some g ∧
      LaunchesPlaced workspaceRegistry ⟨0, 0, 1, 1, 5000, 0⟩ (workspaceProgram.taking ⟨0, 0, 1, 1, 5000, 0⟩)
        g.launches g.workspaceOffsets g.requiredWorkspaceBytes := by
  obtain ⟨-, -, hplaced, hgen, -, -⟩ := graph_workspaces warmCapture_eq [⟨0, 0, 1, 1, 5000, 0⟩]
  refine ⟨hgen.trans (by decide +kernel), ?_⟩
  have hsome : ((warmCache.serve workspaceRegistry [⟨0, 0, 1, 1, 5000, 0⟩] (.new 0 4096)).1.graphs[
      (⟨0, 0, 1, 1, 5000, 0⟩ : StepGraphKey)]?).isSome = true := by decide +kernel
  obtain ⟨g, hg⟩ := Option.isSome_iff_exists.mp hsome
  exact ⟨g, hg, (hplaced _ g hg).2.2⟩

end R9v

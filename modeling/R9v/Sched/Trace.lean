import R9v.Sched.Error
import R9v.Lib.Ring

/-!
# The events and the log of a step

The chain of events that the three streams of a device record during a step
(`r9v-sched/src/streams.rs`), and the ring in which the scheduler keeps the records
of the last steps (`log.rs`).
-/

namespace R9v

open Checked

/-! ### Events -/

/-- The events that one step can record. -/
def maxEventsPerStep : ℕ := 16

inductive StreamKind
  | compute | comms | copy
  deriving DecidableEq

inductive EventKind
  | uploadComplete | waitUpload | computeComplete | waitCompute | readbackComplete
  | commsComplete | waitComms
  deriving DecidableEq

def StreamKind.debug : StreamKind → String
  | .compute => "Compute"
  | .comms => "Comms"
  | .copy => "Copy"

def EventKind.debug : EventKind → String
  | .uploadComplete => "UploadComplete"
  | .waitUpload => "WaitUpload"
  | .computeComplete => "ComputeComplete"
  | .waitCompute => "WaitCompute"
  | .readbackComplete => "ReadbackComplete"
  | .commsComplete => "CommsComplete"
  | .waitComms => "WaitComms"

/-- An event id that may be missing. -/
def debugId : Option ℕ → String
  | some id => s!"Some({id})"
  | none => "None"

structure StepEventRecord where
  stepId : ℕ
  stream : StreamKind
  eventKind : EventKind
  eventId : ℕ
  awaitedEvent : Option ℕ
  deriving DecidableEq

/-- The events of the current step. -/
structure StepEventChain where
  eventCounter : ℕ
  currentStep : Option ℕ
  records : List StepEventRecord
  deriving DecidableEq

namespace StepEventChain

def new : StepEventChain := ⟨0, none, []⟩

/-- Forgets the events of the last step. -/
def beginStep (c : StepEventChain) (stepId : ℕ) : StepEventChain :=
  { c with currentStep := some stepId, records := [] }

/-- Records an event under the next id. -/
def recordEntry (c : StepEventChain) (stepId : ℕ) (stream : StreamKind) (kind : EventKind)
    (awaited : Option ℕ) : SchedResult ℕ × StepEventChain :=
  if maxEventsPerStep ≤ c.records.length then
    (.error (.overflow "step_event_storage"
      s!"maximum {maxEventsPerStep} events per step exceeded"), c)
  else
    match add 64 c.eventCounter 1 with
    | none => (.error (.overflow "event_id" "u64 event counter overflow"), c)
    | some eid =>
      (.ok eid,
        { c with
          eventCounter := eid
          records := c.records ++ [⟨stepId, stream, kind, eid, awaited⟩] })

def recordUploadComplete (c : StepEventChain) (stepId : ℕ) : SchedResult ℕ × StepEventChain :=
  c.recordEntry stepId .copy .uploadComplete none

/-- A stream begins to wait for an event. -/
def recordWait (c : StepEventChain) (stepId : ℕ) (stream : StreamKind) (awaited : ℕ) :
    SchedResult ℕ × StepEventChain :=
  c.recordEntry stepId stream
    (match stream with
      | .compute => .waitUpload
      | .copy => .waitCompute
      | .comms => .waitComms) (some awaited)

def recordComputeComplete (c : StepEventChain) (stepId : ℕ) : SchedResult ℕ × StepEventChain :=
  c.recordEntry stepId .compute .computeComplete none

def recordReadbackComplete (c : StepEventChain) (stepId : ℕ) : SchedResult ℕ × StepEventChain :=
  c.recordEntry stepId .copy .readbackComplete none

/-- An event of the chain must be of the given kind. -/
def expectEvent (stepId i : ℕ) (r : StepEventRecord) (stream : StreamKind) (kind : EventKind)
    (want : String) : SchedResult Unit :=
  ensure (r.stream = stream ∧ r.eventKind = kind) (.executionFailed
    s!"step {stepId}: event {i} must be {want}, got {r.eventKind.debug} on {r.stream.debug}")

/-- An event of the chain must be a wait for the given event. -/
def expectWait (stepId i : ℕ) (r : StepEventRecord) (stream : StreamKind) (kind : EventKind)
    (want : String) (awaited : ℕ) : SchedResult Unit :=
  ensure (r.stream = stream ∧ r.eventKind = kind ∧ r.awaitedEvent = some awaited) (.executionFailed
    (s!"step {stepId}: event {i} must be {want} ({awaited}), got {r.eventKind.debug} " ++
      s!"on {r.stream.debug} awaiting {debugId r.awaitedEvent}"))

/-- The events of a step must be the five of an upload, a replay and a readback, in
order. -/
def validateStepChain (c : StepEventChain) (stepId : ℕ) : SchedResult Unit :=
  match c.records with
  | [r0, r1, r2, r3, r4] => do
    ensure (r0.stepId = stepId ∧ r1.stepId = stepId ∧ r2.stepId = stepId ∧ r3.stepId = stepId ∧
      r4.stepId = stepId) (.executionFailed s!"step {stepId}: event record step_id mismatch")
    ensure (r0.eventId < r1.eventId ∧ r1.eventId < r2.eventId ∧ r2.eventId < r3.eventId ∧
      r3.eventId < r4.eventId)
      (.executionFailed s!"step {stepId}: non-monotonic event IDs in event chain")
    expectEvent stepId 0 r0 .copy .uploadComplete "Copy UploadComplete"
    expectWait stepId 1 r1 .compute .waitUpload "Compute wait referencing UploadComplete" r0.eventId
    expectEvent stepId 2 r2 .compute .computeComplete "Compute ComputeComplete"
    expectWait stepId 3 r3 .copy .waitCompute "Copy wait referencing ComputeComplete" r2.eventId
    expectEvent stepId 4 r4 .copy .readbackComplete "Copy ReadbackComplete"
  | records => .error (.executionFailed
      (s!"step {stepId}: expected exactly 5 stream events in event chain, " ++
        s!"found {records.length}"))

end StepEventChain

/-! ### The log -/

inductive GraphMode
  | auto | list | hipGraph
  deriving DecidableEq

/-- The record of a step. -/
structure ScheduleRecord where
  stepId : ℕ
  tPreUs : ℕ
  tDraftUs : ℕ
  tDeviceUs : ℕ
  tPostUs : ℕ
  s : ℕ
  tDec : ℕ
  tPre : ℕ
  chunk : ℕ
  k : List ℕ
  acceptLen : List ℕ
  forcedAdmission : Bool
  budgetMs : Float32
  bucket : ℕ × ℕ × ℕ
  graphMode : GraphMode
  captured : Bool
  paused : List ℕ
  segmentSyncUs : ℕ
  deriving DecidableEq

/-- A ring of records: the oldest is overwritten. -/
structure ScheduleLogRing where
  buffer : List (Option ScheduleRecord)
  writeIdx : ℕ
  totalWritten : ℕ
  capacity : ℕ
  deriving DecidableEq

namespace ScheduleLogRing

def new (capacity : ℕ) : ScheduleLogRing :=
  let cap := if capacity = 0 then 4096 else capacity
  ⟨List.replicate cap none, 0, 0, cap⟩

/-- Adds a record. -/
def push (r : ScheduleLogRing) (record : ScheduleRecord) : SchedResult Unit × ScheduleLogRing :=
  match add 64 r.totalWritten 1 with
  | none => (.error (.overflow "total_written" "u64 total_written counter overflow"), r)
  | some total =>
    if r.writeIdx < r.buffer.length then
      (.ok (),
        { r with
          buffer := r.buffer.set r.writeIdx (some record)
          writeIdx := (r.writeIdx + 1) % r.capacity
          totalWritten := total })
    else (.error (.internal "schedule log write index"), r)

/-- The records, the oldest first. -/
def toVec (r : ScheduleLogRing) : List ScheduleRecord :=
  if r.totalWritten < r.capacity then (r.buffer.take r.totalWritten).filterMap id
  else
    (List.range r.capacity).filterMap fun i => (r.buffer[(r.writeIdx + i) % r.capacity]?).join

/-- The number of records. -/
def len (r : ScheduleLogRing) : ℕ :=
  if r.totalWritten < r.capacity then r.totalWritten else r.capacity

/-- Forgets the records. -/
def clear (r : ScheduleLogRing) : ScheduleLogRing :=
  { r with buffer := r.buffer.map fun _ => none, writeIdx := 0, totalWritten := 0 }

/-- A call that changes a ring. -/
inductive Call
  | push (record : ScheduleRecord)
  | clear

def Call.apply (r : ScheduleLogRing) : Call → ScheduleLogRing
  | .push record => (r.push record).2
  | .clear => r.clear

/-- The records since the ring was cleared. No more are taken than a word of 64 bits counts. -/
def Call.recorded (l : List ScheduleRecord) : Call → List ScheduleRecord
  | .push record => if l.length + 1 < 2 ^ 64 then l ++ [record] else l
  | .clear => []

/-- The ring has had these records. -/
structure Logged (r : ScheduleLogRing) (l : List ScheduleRecord) : Prop where
  holds : Ring.Holds r.capacity r.buffer l
  writeIdx_eq : r.writeIdx = l.length % r.capacity
  total_eq : r.totalWritten = l.length

theorem Logged.toVec_eq {r : ScheduleLogRing} {l : List ScheduleRecord} (h : r.Logged l) :
    r.toVec = l.drop (l.length - r.capacity) := by
  unfold toVec
  rw [h.total_eq, h.writeIdx_eq]
  split
  · rename_i hlt
    rw [h.holds.read_short hlt, Nat.sub_eq_zero_of_le hlt.le, List.drop_zero]
  · rename_i hlt
    exact h.holds.read_full (Nat.not_lt.mp hlt)

theorem Logged.push {r r' : ScheduleLogRing} {l : List ScheduleRecord} {record : ScheduleRecord}
    (h : r.Logged l) (hpush : r.push record = (.ok (), r')) :
    r'.Logged (l ++ [record]) ∧ r'.capacity = r.capacity := by
  unfold ScheduleLogRing.push at hpush
  cases htotal : add 64 r.totalWritten 1 with
  | none => simp [htotal] at hpush
  | some total =>
    obtain ⟨-, rfl⟩ := add_eq_some.mp htotal
    simp only [htotal] at hpush
    split at hpush
    · simp only [Prod.mk.injEq, true_and] at hpush
      subst hpush
      refine ⟨⟨?_, ?_, ?_⟩, rfl⟩
      · simp only [h.writeIdx_eq]
        exact h.holds.push record
      · simp [h.writeIdx_eq]
      · simp [h.total_eq]
    · simp at hpush

theorem new_logged (capacity : ℕ) : (new capacity).Logged [] := by
  refine ⟨Ring.Holds.nil ?_, ?_, rfl⟩
  · simp only [new]
    split <;> omega
  · simp [new]

theorem Logged.push_eq {r : ScheduleLogRing} {l : List ScheduleRecord} (h : r.Logged l)
    (record : ScheduleRecord) :
    ((r.push record).1 = .ok () ↔ l.length + 1 < 2 ^ 64) ∧
      ((r.push record).1 ≠ .ok () → (r.push record).2 = r) := by
  have hslot : r.writeIdx < r.buffer.length := by
    rw [h.writeIdx_eq, h.holds.length_eq]
    exact Nat.mod_lt _ h.holds.pos
  rcases Nat.lt_or_ge (l.length + 1) (2 ^ 64) with hlt | hge
  · have hadd : add 64 r.totalWritten 1 = some (l.length + 1) := by
      rw [h.total_eq]
      exact add_of_lt hlt
    simp only [ScheduleLogRing.push, hadd, if_pos hslot]
    exact ⟨iff_of_true trivial hlt, fun hne => absurd rfl hne⟩
  · have hadd : add 64 r.totalWritten 1 = none := by
      rw [h.total_eq]
      exact if_neg (Nat.not_lt.mpr hge)
    simp only [ScheduleLogRing.push, hadd]
    exact ⟨iff_of_false (fun h => by cases h) (Nat.not_lt.mpr hge), fun _ => trivial⟩

theorem Logged.apply {r : ScheduleLogRing} {l : List ScheduleRecord} (h : r.Logged l) (c : Call) :
    (c.apply r).Logged (c.recorded l) ∧ (c.apply r).capacity = r.capacity := by
  cases c with
  | push record =>
    obtain ⟨hok, hrefused⟩ := h.push_eq record
    rw [Call.apply, Call.recorded]
    split
    · next hlt => exact h.push (Prod.ext (hok.mpr hlt) rfl)
    · next hlt =>
      rw [hrefused fun heq => hlt (hok.mp heq)]
      exact ⟨h, rfl⟩
  | clear =>
    refine ⟨⟨?_, (Nat.zero_mod _).symm, rfl⟩, rfl⟩
    rw [Call.apply, clear, List.map_const', h.holds.length_eq]
    exact Ring.Holds.nil h.holds.pos

theorem Logged.run {r : ScheduleLogRing} {l : List ScheduleRecord} (h : r.Logged l)
    (calls : List Call) : (calls.foldl Call.apply r).Logged (calls.foldl Call.recorded l) ∧
      (calls.foldl Call.apply r).capacity = r.capacity := by
  induction calls generalizing r l with
  | nil => exact ⟨h, rfl⟩
  | cons c calls ih =>
    obtain ⟨hlogged, hcapacity⟩ := h.apply c
    exact ⟨(ih hlogged).1, (ih hlogged).2.trans hcapacity⟩

/-- **The log has the last records** since it was cleared, in their order, however often it went
round. -/
theorem toVec_run (capacity : ℕ) (calls : List Call) :
    let r := calls.foldl Call.apply (new capacity)
    let l := calls.foldl Call.recorded []
    let c := if capacity = 0 then 4096 else capacity
    r.toVec = l.drop (l.length - c) ∧ r.len = r.toVec.length ∧ r.len = min l.length c ∧
      ∀ record, (r.push record).1 = .ok () ↔ l.length + 1 < 2 ^ 64 := by
  intro r l c
  obtain ⟨hlogged, hcapacity⟩ := (new_logged capacity).run calls
  change r.Logged l at hlogged
  change r.capacity = c at hcapacity
  have hvec : r.toVec = l.drop (l.length - c) := by
    rw [hlogged.toVec_eq, hcapacity]
  have hlen : r.len = min l.length c := by
    rw [len, hlogged.total_eq, hcapacity]
    split <;> omega
  refine ⟨hvec, ?_, hlen, fun record => (hlogged.push_eq record).1⟩
  rw [hlen, hvec, List.length_drop]
  omega

end ScheduleLogRing

end R9v

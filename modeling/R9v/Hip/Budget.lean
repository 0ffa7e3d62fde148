import R9v.Lib.Checked
import R9v.Lib.Threads

/-!
# The budget of the device memory

The atomic operations of `AllocationBudget` in `r9v-hip/src/budget.rs`, as steps of the threads that
allocate and drop buffers. A buffer is charged before `hipMalloc` is called, and the charge is given
back after `hipFree` has returned. In every order of the steps, the charges are those of the buffers
that are alive and of the calls that are under way, they never exceed the limit, and they cover the
memory that is allocated (`budget_never_overcommits`).

All clones of a budget share one counter. What `hipMalloc` and `hipFree` do is a choice of the
environment; where `hipFree` fails, the source ignores that, and the memory is lost (`leaked`).
-/

namespace R9v

open Checked Threads Finset

/-! ### The steps -/

namespace Hip

inductive HipError
  | budgetExceeded (limit used requested available : ℕ)
  /-- An error of the device. -/
  | api
  deriving DecidableEq

/-- A buffer, and what it is charged with. -/
structure BudgetedDeviceBuffer where
  sizeBytes : ℕ
  charged : ℕ
  deriving DecidableEq

/-- What the threads share: the budget, the buffers that are alive, and the memory of the device. -/
structure Ledger where
  limit : ℕ
  used : ℕ
  live : List BudgetedDeviceBuffer
  /-- How many bytes are allocated. -/
  device : ℕ
  /-- How many bytes `hipFree` has failed to give back. -/
  leaked : ℕ

/-- Where a thread is. -/
inductive Point
  /-- Between two calls, with the error of the last one. -/
  | idle (error : Option HipError)
  /-- Before the load in `reserve`. -/
  | loading (requested : ℕ)
  /-- At the head of the loop, with what was read. -/
  | checking (requested used : ℕ)
  /-- Before the exchange. -/
  | swapping (requested used newUsed : ℕ)
  /-- Before `hipMalloc`. -/
  | allocating (requested : ℕ)
  /-- Before the release of a request for which `hipMalloc` has failed. -/
  | rollingBack (requested : ℕ)
  /-- In `drop`, before `hipFree`. -/
  | freeing (buffer : BudgetedDeviceBuffer)
  /-- In `drop`, before the release. -/
  | releasing (charged : ℕ)
  /-- The assertion in `release` has failed. -/
  | panicked
  deriving DecidableEq

/-- What the environment chooses: a thread allocates, or drops a buffer that is alive, or does what
it is about to do. Then the exchange may fail spuriously, and the calls of the device may fail. -/
inductive Choice
  | allocate (sizeBytes : ℕ)
  | drop (index : ℕ)
  | go (ok : Bool)

def refusal (limit used requested : ℕ) : HipError :=
  .budgetExceeded limit used requested (limit - used)

/-- The head of the loop in `reserve`. -/
def checkReserve (limit used requested : ℕ) : Point :=
  match add 64 used requested with
  | none => .idle (some (refusal limit used requested))
  | some newUsed =>
    if limit < newUsed then .idle (some (refusal limit used requested))
    else .swapping requested used newUsed

/-- Releases a charge; then the thread is where it is told. -/
def release (l : Ledger) (charged : ℕ) (next : Point) : Ledger × Point :=
  if charged = 0 then (l, next)
  else ({ l with used := (l.used + 2 ^ 64 - charged) % 2 ^ 64 },
    if charged ≤ l.used then next else .panicked)

/-- A step of a thread. -/
def step : Choice → Ledger → Point → Option (Ledger × Point)
  | .allocate n, l, .idle _ => if n < 2 ^ 64 then some (l, .loading n) else none
  | .drop i, l, .idle _ => l.live[i]?.map fun b =>
      ({ l with live := l.live.eraseIdx i }, .freeing b)
  | .go _, l, .loading r => some (l, .checking r l.used)
  | .go _, l, .checking r u => some (l, checkReserve l.limit u r)
  | .go ok, l, .swapping r u new =>
    some (if ok = true ∧ l.used = u then ({ l with used := new }, .allocating r)
      else (l, .checking r l.used))
  | .go ok, l, .allocating r =>
    some (if ok then ({ l with live := ⟨r, r⟩ :: l.live, device := l.device + r }, .idle none)
      else (l, .rollingBack r))
  | .go _, l, .rollingBack r => some (release l r (.idle (some .api)))
  | .go ok, l, .freeing b =>
    some (if ok then { l with device := l.device - b.sizeBytes }
      else { l with leaked := l.leaked + b.sizeBytes }, .releasing b.charged)
  | .go _, l, .releasing c => some (release l c (.idle none))
  | _, _, _ => none

/-- A new budget, before any thread has made a call. -/
def start (T : Type) (limit : ℕ) : Config T Ledger Point where
  shared := ⟨limit, 0, [], 0, 0⟩
  point _ := .idle none

/-! ### What the charges are -/

/-- What a call has charged that is not the charge of a buffer that is alive. -/
def Point.reserved : Point → ℕ
  | .allocating r | .rollingBack r => r
  | .freeing b => b.charged
  | .releasing c => c
  | _ => 0

/-- The bytes of a buffer that is about to be freed. -/
def Point.resident : Point → ℕ
  | .freeing b => b.sizeBytes
  | _ => 0

/-- What a thread knows where it is. -/
def Point.Fits (limit : ℕ) : Point → Prop
  | .swapping r u new => new = u + r ∧ new ≤ limit
  | .freeing b => b.charged = b.sizeBytes
  | .panicked => False
  | _ => True

/-- The charges of the buffers that are alive. -/
def Ledger.charges (l : Ledger) : ℕ := (l.live.map (·.charged)).sum

/-- The bytes of the buffers that are alive. -/
def Ledger.bytes (l : Ledger) : ℕ := (l.live.map (·.sizeBytes)).sum

variable {T : Type} [Fintype T]

/-- **The invariant**: the charges are those of the buffers and of the calls, within the limit, and
the memory is that of the buffers, of those that are being dropped, and what is lost. -/
structure Balanced (limit : ℕ) (c : Config T Ledger Point) : Prop where
  limit_eq : c.shared.limit = limit
  used_eq : c.shared.used = c.shared.charges + ∑ t, (c.point t).reserved
  used_le : c.shared.used ≤ limit
  device_eq : c.shared.device =
    c.shared.bytes + ∑ t, (c.point t).resident + c.shared.leaked
  charged_eq : ∀ b ∈ c.shared.live, b.charged = b.sizeBytes
  fits : ∀ t, (c.point t).Fits limit

section Step

variable {limit : ℕ} {l l' : Ledger} {p p' : Point} {ch : Choice}

/-- What a thread may rely on before a step. -/
structure Ready (limit : ℕ) (l : Ledger) (p : Point) : Prop where
  limit_eq : l.limit = limit
  used_le : l.used ≤ limit
  reserved_le : l.charges + p.reserved ≤ l.used
  resident_le : p.resident ≤ l.device
  charged_eq : ∀ b ∈ l.live, b.charged = b.sizeBytes
  fits : p.Fits limit

/-- What a step of a thread does to the sums. -/
structure Moves (limit : ℕ) (l l' : Ledger) (p p' : Point) : Prop where
  limit_eq : l'.limit = limit
  used_le : l'.used ≤ limit
  used_add : l'.used + l.charges + p.reserved = l.used + l'.charges + p'.reserved
  device_add : l'.device + l.bytes + p.resident + l.leaked =
    l.device + l'.bytes + p'.resident + l'.leaked
  charged_eq : ∀ b ∈ l'.live, b.charged = b.sizeBytes
  fits : p'.Fits limit

theorem Ready.stay (h : Ready limit l p) (hreserved : p'.reserved = p.reserved)
    (hresident : p'.resident = p.resident) (hfits : p'.Fits limit) : Moves limit l l p p' :=
  ⟨h.limit_eq, h.used_le, by rw [hreserved], by rw [hresident], h.charged_eq, hfits⟩

/-- **A release** gives back what was charged, and its assertion holds. -/
theorem Ready.release (hlimit : limit < 2 ^ 64) (h : Ready limit l p) {charged : ℕ}
    {error : Option HipError} (hp : p.reserved = charged) (hresident : p.resident = 0)
    (hrun : release l charged (.idle error) = (l', p')) : Moves limit l l' p p' := by
  have hle := h.reserved_le
  have hused := h.used_le
  rw [Hip.release] at hrun
  split at hrun
  · next hzero =>
    obtain ⟨rfl, rfl⟩ := Prod.mk.inj hrun
    exact h.stay (by rw [hp, hzero]; rfl) hresident.symm trivial
  · have hmod : (l.used + 2 ^ 64 - charged) % 2 ^ 64 = l.used - charged := by omega
    rw [if_pos (by omega), hmod] at hrun
    obtain ⟨rfl, rfl⟩ := Prod.mk.inj hrun
    refine ⟨h.limit_eq, (Nat.sub_le _ _).trans hused, ?_, ?_, h.charged_eq, trivial⟩
    · change l.used - charged + l.charges + p.reserved = l.used + l.charges + 0
      omega
    · change l.device + l.bytes + p.resident + l.leaked = l.device + l.bytes + 0 + l.leaked
      rw [hresident]

theorem checkReserve_eq (limit used requested : ℕ) : checkReserve limit used requested =
    if used + requested < 2 ^ 64 ∧ used + requested ≤ limit then
      .swapping requested used (used + requested)
    else .idle (some (refusal limit used requested)) := by
  rw [checkReserve, add]
  by_cases hfits : used + requested < 2 ^ 64
  · rw [if_pos hfits]
    dsimp only
    by_cases hle : used + requested ≤ limit
    · rw [if_neg (Nat.not_lt.mpr hle), if_pos ⟨hfits, hle⟩]
    · rw [if_pos (Nat.lt_of_not_le hle), if_neg fun h => hle h.2]
  · rw [if_neg hfits, if_neg fun h => hfits h.1]

theorem sum_eraseIdx {b : BudgetedDeviceBuffer} {l : List BudgetedDeviceBuffer} {i : ℕ}
    (h : l[i]? = some b) (g : BudgetedDeviceBuffer → ℕ) :
    ((l.eraseIdx i).map g).sum + g b = (l.map g).sum := by
  induction l generalizing i with
  | nil => cases h
  | cons c l ih =>
    cases i with
    | zero =>
      obtain rfl := Option.some.inj h
      rw [List.eraseIdx_cons_zero, List.map_cons, List.sum_cons, Nat.add_comm]
    | succ i =>
      rw [List.eraseIdx_cons_succ, List.map_cons, List.map_cons, List.sum_cons, List.sum_cons,
        Nat.add_assoc, ih h]

/-- What a step of a thread can do. -/
inductive Does : Choice → Ledger → Point → Ledger → Point → Prop
  | call {n : ℕ} {l : Ledger} {error : Option HipError} :
    Does (.allocate n) l (.idle error) l (.loading n)
  | drop {i : ℕ} {l : Ledger} {error : Option HipError} {b : BudgetedDeviceBuffer} :
    l.live[i]? = some b →
      Does (.drop i) l (.idle error) { l with live := l.live.eraseIdx i } (.freeing b)
  | load {ok : Bool} {l : Ledger} {r : ℕ} : Does (.go ok) l (.loading r) l (.checking r l.used)
  | fits {ok : Bool} {l : Ledger} {r u : ℕ} : u + r ≤ l.limit →
    Does (.go ok) l (.checking r u) l (.swapping r u (u + r))
  | refuse {ok : Bool} {l : Ledger} {r u : ℕ} : ¬(u + r < 2 ^ 64 ∧ u + r ≤ l.limit) →
    Does (.go ok) l (.checking r u) l (.idle (some (refusal l.limit u r)))
  | swap {l : Ledger} {r u new : ℕ} : l.used = u →
    Does (.go true) l (.swapping r u new) { l with used := new } (.allocating r)
  | swapFails {ok : Bool} {l : Ledger} {r u new : ℕ} :
    Does (.go ok) l (.swapping r u new) l (.checking r l.used)
  | malloc {l : Ledger} {r : ℕ} : Does (.go true) l (.allocating r)
      { l with live := ⟨r, r⟩ :: l.live, device := l.device + r } (.idle none)
  | mallocFails {l : Ledger} {r : ℕ} : Does (.go false) l (.allocating r) l (.rollingBack r)
  | rollBack {ok : Bool} {l l' : Ledger} {r : ℕ} {p' : Point} :
    release l r (.idle (some .api)) = (l', p') → Does (.go ok) l (.rollingBack r) l' p'
  | free {l : Ledger} {b : BudgetedDeviceBuffer} : Does (.go true) l (.freeing b)
      { l with device := l.device - b.sizeBytes } (.releasing b.charged)
  | freeFails {l : Ledger} {b : BudgetedDeviceBuffer} : Does (.go false) l (.freeing b)
      { l with leaked := l.leaked + b.sizeBytes } (.releasing b.charged)
  | release {ok : Bool} {l l' : Ledger} {c : ℕ} {p' : Point} :
    release l c (.idle none) = (l', p') → Does (.go ok) l (.releasing c) l' p'

/-- **A step does** one of these. -/
theorem does_of_step (h : step ch l p = some (l', p')) : Does ch l p l' p' := by
  cases ch with
  | allocate n =>
    cases p with
    | idle error =>
      rw [step] at h
      split at h
      · obtain ⟨rfl, rfl⟩ := Prod.mk.inj (Option.some.inj h)
        exact .call
      · cases h
    | _ => cases h
  | drop i =>
    cases p with
    | idle error =>
      obtain ⟨b, hb, hrun⟩ := Option.map_eq_some_iff.mp h
      obtain ⟨rfl, rfl⟩ := Prod.mk.inj hrun
      exact .drop hb
    | _ => cases h
  | go ok =>
    cases p with
    | idle error => cases h
    | loading r =>
      obtain ⟨rfl, rfl⟩ := Prod.mk.inj (Option.some.inj h)
      exact .load
    | checking r u =>
      rw [step, checkReserve_eq] at h
      obtain ⟨rfl, rfl⟩ := Prod.mk.inj (Option.some.inj h)
      split
      · next hfits => exact .fits hfits.2
      · next hfits => exact .refuse hfits
    | swapping r u new =>
      rw [step] at h
      split at h
      · next hswap =>
        obtain ⟨rfl, rfl⟩ := Prod.mk.inj (Option.some.inj h)
        rw [hswap.1]
        exact .swap hswap.2
      · obtain ⟨rfl, rfl⟩ := Prod.mk.inj (Option.some.inj h)
        exact .swapFails
    | allocating r =>
      cases ok with
      | false =>
        obtain ⟨rfl, rfl⟩ := Prod.mk.inj (Option.some.inj h)
        exact .mallocFails
      | true =>
        obtain ⟨rfl, rfl⟩ := Prod.mk.inj (Option.some.inj h)
        exact .malloc
    | rollingBack r => exact .rollBack (Option.some.inj h)
    | freeing b =>
      cases ok with
      | false =>
        obtain ⟨rfl, rfl⟩ := Prod.mk.inj (Option.some.inj h)
        exact .freeFails
      | true =>
        obtain ⟨rfl, rfl⟩ := Prod.mk.inj (Option.some.inj h)
        exact .free
    | releasing c => exact .release (Option.some.inj h)
    | panicked => cases h

/-- **Every step of a thread** keeps the sums as they should be. -/
theorem Ready.moves (hlimit : limit < 2 ^ 64) (h : Ready limit l p) (hdoes : Does ch l p l' p') :
    Moves limit l l' p p' := by
  cases hdoes with
  | call => exact h.stay rfl rfl trivial
  | drop hb =>
    have hcharged := sum_eraseIdx hb (·.charged)
    have hbytes := sum_eraseIdx hb (·.sizeBytes)
    refine ⟨h.limit_eq, h.used_le, ?_, ?_, fun b hb => h.charged_eq b (List.mem_of_mem_eraseIdx hb),
      h.charged_eq _ (List.mem_of_getElem? hb)⟩
    · simp only [Ledger.charges, Point.reserved]
      omega
    · simp only [Ledger.bytes, Point.resident]
      omega
  | load => exact h.stay rfl rfl trivial
  | fits hle => exact h.stay rfl rfl ⟨rfl, h.limit_eq ▸ hle⟩
  | refuse => exact h.stay rfl rfl trivial
  | @swap l r u new hu =>
    obtain ⟨hnew, hle⟩ := h.fits
    refine ⟨h.limit_eq, hle, ?_, rfl, h.charged_eq, trivial⟩
    change new + l.charges + 0 = l.used + l.charges + r
    omega
  | swapFails => exact h.stay rfl rfl trivial
  | @malloc l r =>
    refine ⟨h.limit_eq, h.used_le, ?_, ?_, List.forall_mem_cons.mpr ⟨rfl, h.charged_eq⟩, trivial⟩
    · change l.used + l.charges + r = l.used + (r + l.charges) + 0
      omega
    · change l.device + r + l.bytes + 0 + l.leaked = l.device + (r + l.bytes) + 0 + l.leaked
      omega
  | mallocFails => exact h.stay rfl rfl trivial
  | rollBack hrun => exact h.release hlimit rfl rfl hrun
  | @free l b =>
    have hresident : b.sizeBytes ≤ l.device := h.resident_le
    refine ⟨h.limit_eq, h.used_le, rfl, ?_, h.charged_eq, trivial⟩
    change l.device - b.sizeBytes + l.bytes + b.sizeBytes + l.leaked =
      l.device + l.bytes + 0 + l.leaked
    omega
  | @freeFails l b =>
    refine ⟨h.limit_eq, h.used_le, rfl, ?_, h.charged_eq, trivial⟩
    change l.device + l.bytes + b.sizeBytes + l.leaked =
      l.device + l.bytes + 0 + (l.leaked + b.sizeBytes)
    omega
  | release hrun => exact h.release hlimit rfl rfl hrun

/-! ### The calls that reserve -/

/-- In `reserve`, with a request of some size. -/
def Point.Asking (requested : ℕ) : Point → Prop
  | .loading r | .checking r _ | .swapping r _ _ => r = requested
  | _ => False

theorem release_cases {charged : ℕ} {next : Point} (h : release l charged next = (l', p')) :
    p' = next ∨ p' = .panicked := by
  rw [release] at h
  split at h
  · exact Or.inl (Prod.mk.inj h).2.symm
  · split at h
    · exact Or.inl (Prod.mk.inj h).2.symm
    · exact Or.inr (Prod.mk.inj h).2.symm

/-- **How a thread comes to be in `reserve`**: it makes a call, or it has been there. Nothing that
is shared changes. -/
theorem Does.asking {r : ℕ} (h : Does ch l p l' p') (hasking : p'.Asking r) :
    l' = l ∧ (ch = .allocate r ∨ p.Asking r) := by
  cases h with
  | call => exact ⟨rfl, Or.inl (congrArg _ hasking)⟩
  | load | fits | swapFails => exact ⟨rfl, Or.inr hasking⟩
  | rollBack hrun | release hrun =>
    rcases release_cases hrun with rfl | rfl <;> exact hasking.elim
  | _ => exact hasking.elim

theorem Does.checking {r u : ℕ} (h : Does ch l p l' (.checking r u)) : l' = l ∧ l.used = u := by
  cases h with
  | load | swapFails => exact ⟨rfl, rfl⟩
  | rollBack hrun | release hrun => rcases release_cases hrun with h | h <;> cases h

/-- **A refusal** comes from the head of the loop. -/
theorem Does.refused {lim u r available : ℕ}
    (h : Does ch l p l' (.idle (some (.budgetExceeded lim u r available)))) :
    p = .checking r u ∧ l' = l ∧ lim = l.limit ∧ available = l.limit - u ∧
      ¬(u + r < 2 ^ 64 ∧ u + r ≤ l.limit) := by
  cases h with
  | refuse hno => exact ⟨rfl, rfl, rfl, rfl, hno⟩
  | rollBack hrun | release hrun => rcases release_cases hrun with h | h <;> cases h

theorem Ledger.leaked_used (l : Ledger) (n : ℕ) : { l with used := n }.leaked = l.leaked := rfl

theorem leaked_release (l : Ledger) (charged : ℕ) (next : Point) :
    (release l charged next).1.leaked = l.leaked := by
  by_cases hzero : charged = 0
  · exact congrArg (fun r : Ledger × Point => r.1.leaked) (if_pos hzero)
  · exact (congrArg (fun r : Ledger × Point => r.1.leaked) (if_neg hzero)).trans (l.leaked_used _)

/-- Memory is lost only where `hipFree` fails. -/
theorem Does.leaked (h : Does ch l p l' p') :
    l'.leaked = l.leaked ∨ ∃ b, p = .freeing b ∧ ch = .go false := by
  cases h with
  | freeFails => exact Or.inr ⟨_, rfl, rfl⟩
  | rollBack hrun | release hrun =>
    refine Or.inl ?_
    rw [← leaked_release l _ _, hrun]
  | _ => exact Or.inl rfl

end Step

/-! ### Runs -/

section Runs

variable {limit : ℕ} {c c' : Config T Ledger Point} {b : T × Choice}

theorem Balanced.ready (h : Balanced limit c) (t : T) : Ready limit c.shared (c.point t) := by
  refine ⟨h.limit_eq, h.used_le, ?_, ?_, h.charged_eq, h.fits t⟩
  · rw [h.used_eq]
    exact Nat.add_le_add_left
      (single_le_sum (f := fun t => (c.point t).reserved) (fun _ _ => Nat.zero_le _) (mem_univ t)) _
  · have hle := single_le_sum (f := fun t => (c.point t).resident) (fun _ _ => Nat.zero_le _)
      (mem_univ t)
    have := h.device_eq
    omega

theorem balanced_start (limit : ℕ) : Balanced limit (start T limit) := by
  refine ⟨rfl, ?_, Nat.zero_le _, ?_, fun b hb => absurd hb List.not_mem_nil, fun _ => trivial⟩
  · change 0 = 0 + ∑ _ : T, 0
    rw [sum_const_zero]
    rfl
  · change 0 = 0 + ∑ _ : T, 0 + 0
    rw [sum_const_zero]
    rfl

variable [DecidableEq T]

/-- **Every step keeps the balance.** -/
theorem Balanced.step (hlimit : limit < 2 ^ 64) (h : Balanced limit c)
    (hstep : c.step step b = some c') : Balanced limit c' := by
  obtain ⟨hthread, hothers⟩ := Config.step_eq_some.mp hstep
  have hmoves := (h.ready b.1).moves hlimit (does_of_step hthread)
  have hreserved := Config.sum_step hstep Point.reserved
  have hresident := Config.sum_step hstep Point.resident
  have hused := h.used_eq
  have hdevice := h.device_eq
  have hadd := hmoves.used_add
  have hmemory := hmoves.device_add
  refine ⟨hmoves.limit_eq, by omega, hmoves.used_le, by omega, hmoves.charged_eq, fun t => ?_⟩
  by_cases ht : t = b.1
  · rw [ht]
    exact hmoves.fits
  · rw [hothers t ht]
    exact h.fits t

omit [DecidableEq T] in
theorem Balanced.device_le (h : Balanced limit c) :
    c.shared.device ≤ c.shared.used + c.shared.leaked := by
  have hlive : c.shared.bytes = c.shared.charges := by
    refine congrArg List.sum (List.map_congr_left fun b hb => ?_)
    exact (h.charged_eq b hb).symm
  have hpoints : ∑ t, (c.point t).resident ≤ ∑ t, (c.point t).reserved := by
    refine sum_le_sum fun t _ => ?_
    have hfits := h.fits t
    cases hp : c.point t with
    | freeing b =>
      rw [hp] at hfits
      exact hfits.ge
    | _ => exact Nat.zero_le _
  have hused := h.used_eq
  have hdevice := h.device_eq
  omega

variable {n : ℕ} {s : ℕ → Config T Ledger Point} {a : ℕ → T × Choice}

omit [Fintype T] in
/-- **A thread in `reserve`** has made a call, and has been there ever since. -/
theorem asking_since (h0 : ∀ t, (s 0).point t = .idle none) (h : Run Hip.step n s a) {t : T}
    {r j : ℕ}
    (hj : j ≤ n) (hasking : ((s j).point t).Asking r) :
    ∃ i < j, a i = (t, .allocate r) ∧ ∀ m, i < m → m ≤ j → ((s m).point t).Asking r := by
  induction j with
  | zero =>
    rw [h0 t] at hasking
    exact hasking.elim
  | succ j ih =>
    obtain ⟨hthread, hothers⟩ := Config.step_eq_some.mp (h.next j hj)
    have hlast : ∀ {i m : ℕ}, (∀ m, i < m → m ≤ j → ((s m).point t).Asking r) → i < m → m ≤ j + 1 →
        ((s m).point t).Asking r := by
      intro i m hall him hm
      rcases Nat.le_succ_iff.mp hm with hle | rfl
      · exact hall m him hle
      · exact hasking
    by_cases ht : (a j).1 = t
    · rw [ht] at hthread
      rcases ((does_of_step hthread).asking hasking).2 with hcall | hbefore
      · exact ⟨j, Nat.lt_succ_self j, Prod.ext ht hcall, fun m hm hm' =>
          hlast (fun m hm hm' => absurd hm (Nat.not_lt.mpr hm')) hm hm'⟩
      · obtain ⟨i, hi, hcall, hall⟩ := ih (Nat.le_of_succ_le hj) hbefore
        exact ⟨i, Nat.lt_succ_of_lt hi, hcall, fun m => hlast hall⟩
    · have hbefore : ((s j).point t).Asking r := by rwa [← hothers t (Ne.symm ht)]
      obtain ⟨i, hi, hcall, hall⟩ := ih (Nat.le_of_succ_le hj) hbefore
      exact ⟨i, Nat.lt_succ_of_lt hi, hcall, fun m => hlast hall⟩

omit [Fintype T] in
/-- **What a thread has read** was stored at some moment since it came to the head of the loop. -/
theorem read_since (h0 : ∀ t, (s 0).point t = .idle none) (h : Run Hip.step n s a) {t : T}
    {r u j : ℕ}
    (hj : j ≤ n) (hchecking : (s j).point t = .checking r u) :
    ∃ i ≤ j, (s i).shared.used = u ∧ ∀ m, i ≤ m → m ≤ j → (s m).point t = .checking r u := by
  obtain ⟨i, hi, hstays, hlast⟩ := h.since t hj
  refine ⟨i, hi, ?_, fun m hm hm' => (hstays m hm hm').trans hchecking⟩
  have hpoint := (hstays i le_rfl hi).trans hchecking
  rcases hlast with rfl | ⟨k, rfl, rfl⟩
  · rw [h0] at hpoint
    cases hpoint
  · have hthread := (Config.step_eq_some.mp (h.next k (hi.trans hj))).1
    rw [hpoint] at hthread
    obtain ⟨heq, hused⟩ := (does_of_step hthread).checking
    rw [heq, hused]

omit [Fintype T] in
theorem leaked_eq_zero (h0 : (s 0).shared.leaked = 0) (h : Run Hip.step n s a) {j : ℕ} (hj : j ≤ n)
    (hfree : ∀ i < j, ∀ b, (s i).point (a i).1 = .freeing b → (a i).2 = .go true) :
    (s j).shared.leaked = 0 := by
  induction j with
  | zero => exact h0
  | succ j ih =>
    have hthread := (Config.step_eq_some.mp (h.next j hj)).1
    rcases (does_of_step hthread).leaked with heq | ⟨b, hb, hfails⟩
    · rw [heq]
      exact ih (Nat.le_of_succ_le hj) fun i hi => hfree i (Nat.lt_succ_of_lt hi)
    · rw [hfree j (Nat.lt_succ_self j) b hb] at hfails
      cases hfails

/-- **The budget never overcommits**, in any order of the steps of any number of threads. What is
used is what the buffers that are alive are charged with and what the calls under way have reserved,
it stays within the limit, no assertion fails, and it covers the memory of the device but for what
`hipFree` does not give back. A call that is refused changes nothing, and at some moment of it what
was used and what it asked for exceeded the limit. -/
theorem budget_never_overcommits (hlimit : limit < 2 ^ 64) (h0 : s 0 = start T limit)
    (hrun : Run Hip.step n s a) :
    (∀ j ≤ n, (s j).shared.used = (s j).shared.charges + ∑ t, ((s j).point t).reserved ∧
      (s j).shared.used ≤ limit ∧ (∀ t, (s j).point t ≠ .panicked) ∧
      (s j).shared.device ≤ (s j).shared.used + (s j).shared.leaked ∧
      ((∀ i < j, ∀ b, (s i).point (a i).1 = .freeing b → (a i).2 = .go true) →
        (s j).shared.device ≤ (s j).shared.used)) ∧
    ∀ j < n, ∀ lim u r available,
      (s (j + 1)).point (a j).1 = .idle (some (.budgetExceeded lim u r available)) →
        lim = limit ∧ available = limit - u ∧ ∃ i < j, a i = ((a j).1, .allocate r) ∧
          (∀ m, i < m → m ≤ j → ((s m).point (a j).1).Asking r) ∧
          (∀ m, i ≤ m → m ≤ j → (a m).1 = (a j).1 → (s (m + 1)).shared = (s m).shared) ∧
          ∃ m, i < m ∧ m ≤ j ∧ (s m).shared.used = u ∧ limit < u + r := by
  have hidle : ∀ t, (s 0).point t = .idle none := fun t => by rw [h0]; rfl
  have hbalanced : ∀ j ≤ n, Balanced limit (s j) :=
    hrun.invariant (h0 ▸ balanced_start limit) fun c c' b hc hstep => hc.step hlimit hstep
  refine ⟨fun j hj => ?_, fun j hj lim u r available hrefused => ?_⟩
  · have hb := hbalanced j hj
    refine ⟨hb.used_eq, hb.used_le, fun t hpanic => ?_, hb.device_le, fun hfree => ?_⟩
    · have hfits := hb.fits t
      rw [hpanic] at hfits
      exact hfits
    · have hle := hb.device_le
      rwa [leaked_eq_zero (by rw [h0]; rfl) hrun hj hfree] at hle
  · have hb := hbalanced j hj.le
    have hthread := (Config.step_eq_some.mp (hrun.next j hj)).1
    rw [hrefused] at hthread
    obtain ⟨hchecking, hshared, hlim, havailable, hexceeds⟩ := (does_of_step hthread).refused
    obtain ⟨i, hi, hcall, hasking⟩ := asking_since hidle hrun hj.le
      (show ((s j).point (a j).1).Asking r by rw [hchecking]; rfl)
    obtain ⟨m, hm, hused, hread⟩ := read_since hidle hrun hj.le hchecking
    rw [hb.limit_eq] at hlim havailable hexceeds
    refine ⟨hlim, havailable, i, hi, hcall, hasking, fun k hk hkj ht => ?_, m, ?_, hm,
      hused, by omega⟩
    · rcases Nat.lt_or_ge k j with hlt | hge
      · have hk' := (Config.step_eq_some.mp (hrun.next k (hlt.trans hj))).1
        rw [ht] at hk'
        exact ((does_of_step hk').asking (hasking (k + 1) (Nat.lt_succ_of_le hk) hlt)).1
      · rw [Nat.le_antisymm hkj hge]
        exact hshared
    · -- when the call is made, the thread has not read anything
      by_contra hge
      have hi' := (Config.step_eq_some.mp (hrun.next i (hi.trans hj))).1
      rw [hcall] at hi'
      dsimp only at hi'
      rw [hread i (Nat.not_lt.mp hge) hi.le] at hi'
      cases hi'

end Runs

/-- One thread allocates, and then another asks for more than is left. -/
def twoThreads (i : ℕ) : Bool × Choice :=
  ([(false, .allocate 8), (false, .go true), (false, .go true), (false, .go true),
    (false, .go true),
    (true, .allocate 5), (true, .go true), (true, .go true)] : List _).getD i (false, .go true)

theorem second_refused :
    let s := (start Bool 10).exec step twoThreads
    (s 8).point true = .idle (some (.budgetExceeded 10 8 5 2)) ∧
      ∃ m ≤ 7, (s m).shared.used = 8 ∧ 10 < 8 + 5 := by
  have hrun : Run step 8 ((start Bool 10).exec step twoThreads) twoThreads :=
    run_exec (by decide)
  have hrefused : ((start Bool 10).exec step twoThreads 8).point true =
      .idle (some (.budgetExceeded 10 8 5 2)) := by decide
  have h0 : (start Bool 10).exec step twoThreads 0 = start Bool 10 := rfl
  obtain ⟨-, -, i, hi, -, -, -, m, him, hm, hused, hexceeds⟩ :=
    (budget_never_overcommits (by decide) h0 hrun).2 7 (by decide) 10 8 5 2 hrefused
  exact ⟨hrefused, m, hm, hused, hexceeds⟩

end Hip

end R9v

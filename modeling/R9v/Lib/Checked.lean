import Mathlib.Data.Nat.Basic
import Mathlib.Tactic.Linarith

/-!
# Checked arithmetic and early returns

A program written in the checked style never adds two machine words directly: it
asks for the sum and is told `none` when the sum does not fit. This file gives
that vocabulary at an arbitrary width, together with the two early returns that
such a program is made of – *fail unless* (`Checked.ensure`) and *fail on
nothing* (`Checked.okOr`) – and the lemmas that take a successful chain of them
apart.

A computation that may also stop without returning (an index out of bounds, a
subtraction below zero where the language does not check it) raises a
`Checked.Fault`, which is either an error the caller can read or a panic.
-/

namespace Checked

open List

/-! ### Machine words -/

/-- The sum of two words, when it fits in `w` bits. -/
def add (w a b : ℕ) : Option ℕ := if a + b < 2 ^ w then some (a + b) else none

/-- The product of two words, when it fits in `w` bits. -/
def mul (w a b : ℕ) : Option ℕ := if a * b < 2 ^ w then some (a * b) else none

/-- The difference of two words, when it is not negative. -/
def sub (a b : ℕ) : Option ℕ := if b ≤ a then some (a - b) else none

/-- The conversion to a narrower word, when the value fits. -/
def narrow (w a : ℕ) : Option ℕ := if a < 2 ^ w then some a else none

@[simp] theorem add_eq_some {w a b c : ℕ} : add w a b = some c ↔ a + b < 2 ^ w ∧ a + b = c := by
  unfold add
  split <;> simp_all

@[simp] theorem mul_eq_some {w a b c : ℕ} : mul w a b = some c ↔ a * b < 2 ^ w ∧ a * b = c := by
  unfold mul
  split <;> simp_all

@[simp] theorem sub_eq_some {a b c : ℕ} : sub a b = some c ↔ b ≤ a ∧ a - b = c := by
  unfold sub
  split <;> simp_all

@[simp] theorem narrow_eq_some {w a c : ℕ} : narrow w a = some c ↔ a < 2 ^ w ∧ a = c := by
  unfold narrow
  split <;> simp_all

theorem add_of_lt {w a b : ℕ} (h : a + b < 2 ^ w) : add w a b = some (a + b) := if_pos h

theorem mul_of_lt {w a b : ℕ} (h : a * b < 2 ^ w) : mul w a b = some (a * b) := if_pos h

theorem sub_of_le {a b : ℕ} (h : b ≤ a) : sub a b = some (a - b) := if_pos h

theorem narrow_of_lt {w a : ℕ} (h : a < 2 ^ w) : narrow w a = some a := if_pos h

/-! ### Early returns -/

section Early

variable {ε α β : Type}

/-- Goes on when the condition holds, and fails with `e` otherwise. -/
def ensure (c : Prop) [Decidable c] (e : ε) : Except ε Unit := if c then .ok () else .error e

/-- Goes on with the value, and fails with `e` when there is none. -/
def okOr (o : Option α) (e : ε) : Except ε α :=
  match o with
  | some a => .ok a
  | none => .error e

@[simp] theorem okOr_some (a : α) (e : ε) : okOr (some a) e = .ok a := rfl

@[simp] theorem okOr_none (e : ε) : okOr (none : Option α) e = .error e := rfl

@[simp] theorem ensure_eq_ok {c : Prop} [Decidable c] {e : ε} {u : Unit} :
    ensure c e = .ok u ↔ c := by
  unfold ensure
  split <;> simp_all

@[simp] theorem ensure_eq_error {c : Prop} [Decidable c] {e e' : ε} :
    ensure c e = .error e' ↔ ¬c ∧ e = e' := by
  unfold ensure
  split <;> simp_all

@[simp] theorem okOr_eq_ok {o : Option α} {e : ε} {a : α} : okOr o e = .ok a ↔ o = some a := by
  cases o <;> simp [okOr]

/-- **A chain that succeeds succeeds at every link.** -/
@[simp] theorem bind_eq_ok {x : Except ε α} {f : α → Except ε β} {b : β} :
    (x >>= f) = .ok b ↔ ∃ a, x = .ok a ∧ f a = .ok b := by
  cases x <;> simp [bind, Except.bind]

@[simp] theorem bind_eq_error {x : Except ε α} {f : α → Except ε β} {e : ε} :
    (x >>= f) = .error e ↔ x = .error e ∨ ∃ a, x = .ok a ∧ f a = .error e := by
  cases x <;> simp [bind, Except.bind]

@[simp] theorem okOr_eq_error {o : Option α} {e e' : ε} :
    okOr o e = .error e' ↔ o = none ∧ e = e' := by
  cases o <;> simp [okOr]

@[simp] theorem pure_eq_error {a : α} {e : ε} : (pure a : Except ε α) = .error e ↔ False := by
  simp [pure, Except.pure]

@[simp] theorem pure_eq_ok {a b : α} : (pure a : Except ε α) = .ok b ↔ a = b := by
  simp [pure, Except.pure]

theorem ensure_of {c : Prop} [Decidable c] {e : ε} (h : c) : ensure c e = .ok () := if_pos h

theorem ensure_of_not {c : Prop} [Decidable c] {e : ε} (h : ¬c) : ensure c e = .error e :=
  if_neg h

@[simp] theorem ok_bind {a : α} {f : α → Except ε β} : (Except.ok a >>= f) = f a := rfl

@[simp] theorem error_bind {e : ε} {f : α → Except ε β} :
    ((Except.error e : Except ε α) >>= f) = .error e := rfl

/-- **A checking loop succeeds** exactly when every check does. -/
theorem forM_eq_ok {l : List α} {f : α → Except ε Unit} {u : Unit} :
    forM l f = .ok u ↔ ∀ a ∈ l, f a = .ok () := by
  induction l with
  | nil => simp
  | cons a l ih =>
    rw [forM_cons, bind_eq_ok, forall_mem_cons]
    exact ⟨fun ⟨_, h₁, h₂⟩ => ⟨h₁, ih.mp h₂⟩, fun ⟨h₁, h₂⟩ => ⟨(), h₁, ih.mpr h₂⟩⟩

theorem exists_of_forM_eq_error {l : List α} {f : α → Except ε Unit} {e : ε}
    (h : forM l f = .error e) : ∃ a ∈ l, f a = .error e := by
  induction l with
  | nil => simp at h
  | cons a l ih =>
    rw [forM_cons, bind_eq_error] at h
    rcases h with h | ⟨_, -, h⟩
    · exact ⟨a, mem_cons_self, h⟩
    · obtain ⟨b, hb, h⟩ := ih h
      exact ⟨b, mem_cons_of_mem a hb, h⟩

theorem exists_of_mapM_eq_error {l : List α} {f : α → Except ε β} {e : ε}
    (h : l.mapM f = .error e) : ∃ a ∈ l, f a = .error e := by
  induction l with
  | nil => simp at h
  | cons a l ih =>
    rw [mapM_cons, bind_eq_error] at h
    rcases h with h | ⟨_, -, h⟩
    · exact ⟨a, mem_cons_self, h⟩
    · rcases bind_eq_error.mp h with h | ⟨_, -, h⟩
      · obtain ⟨b, hb, h⟩ := ih h
        exact ⟨b, mem_cons_of_mem a hb, h⟩
      · simp at h

/-- **A computation on every element succeeds** when each of them does. -/
theorem mapM_ok {l : List α} {f : α → Except ε β} {g : α → β} (h : ∀ a ∈ l, f a = .ok (g a)) :
    l.mapM f = .ok (l.map g) := by
  induction l with
  | nil => rfl
  | cons a l ih =>
    rw [mapM_cons, h a mem_cons_self, ok_bind,
      ih fun b hb => h b (mem_cons_of_mem a hb), ok_bind]
    rfl

theorem exists_mapM_ok {l : List α} {f : α → Except ε β} (h : ∀ a ∈ l, ∃ b, f a = .ok b) :
    ∃ bs, l.mapM f = .ok bs ∧ bs.length = l.length := by
  induction l with
  | nil => exact ⟨[], rfl, rfl⟩
  | cons a l ih =>
    obtain ⟨b, hb⟩ := h a mem_cons_self
    obtain ⟨bs, hbs, hlen⟩ := ih fun b hb => h b (mem_cons_of_mem a hb)
    refine ⟨b :: bs, ?_, by simp [hlen]⟩
    rw [mapM_cons, hb, ok_bind, hbs, ok_bind]
    rfl

/-- **A loop succeeds** when it has an invariant under which each round does; the
invariant may count the rounds. -/
theorem exists_foldlM_ok {P : ℕ → β → Prop} {l : List α} {f : β → α → Except ε β} {n : ℕ} {b : β}
    (hb : P n b) (h : ∀ n b, P n b → ∀ a ∈ l, ∃ b', f b a = .ok b' ∧ P (n + 1) b') :
    ∃ r, l.foldlM f b = .ok r ∧ P (n + l.length) r := by
  induction l generalizing n b with
  | nil => exact ⟨b, rfl, hb⟩
  | cons a l ih =>
    obtain ⟨b', hb', hP⟩ := h n b hb a mem_cons_self
    obtain ⟨r, hr, hPr⟩ := ih hP fun n b hb a ha => h n b hb a (mem_cons_of_mem _ ha)
    refine ⟨r, ?_, ?_⟩
    · rw [foldlM_cons, hb', ok_bind, hr]
    · rw [length_cons, show n + (l.length + 1) = n + 1 + l.length by omega]
      exact hPr

end Early

/-! ### Faults -/

/-- How a computation can fail to return a value: with an error its caller
reads, or by a panic. -/
inductive Fault (ε : Type)
  /-- An error returned to the caller. -/
  | err (e : ε) : Fault ε
  /-- The computation stops without returning. -/
  | panic : Fault ε
  deriving DecidableEq

/-- A computation whose only failures are errors, run where panics exist. -/
def lift {ε α : Type} (x : Except ε α) : Except (Fault ε) α :=
  match x with
  | .ok a => .ok a
  | .error e => .error (.err e)

@[simp] theorem lift_ok {ε α : Type} (a : α) : lift (.ok a : Except ε α) = .ok a := rfl

@[simp] theorem lift_error {ε α : Type} (e : ε) :
    lift (.error e : Except ε α) = .error (.err e) := rfl

@[simp] theorem lift_eq_ok {ε α : Type} {x : Except ε α} {a : α} :
    lift x = .ok a ↔ x = .ok a := by
  cases x <;> simp [lift]

@[simp] theorem lift_eq_panic {ε α : Type} {x : Except ε α} :
    lift x = .error .panic ↔ False := by
  cases x <;> simp [lift]

theorem exists_err {ε α : Type} {x : Except (Fault ε) α} {f : Fault ε} (h : x = .error f)
    (hne : x ≠ .error .panic) : ∃ e, f = .err e := by
  cases f with
  | err e => exact ⟨e, rfl⟩
  | panic => exact absurd h hne

/-- The value, where the language panics when there is none. -/
def orPanic {ε α : Type} (o : Option α) : Except (Fault ε) α := okOr o .panic

@[simp] theorem orPanic_eq_ok {ε α : Type} {o : Option α} {a : α} :
    (orPanic o : Except (Fault ε) α) = .ok a ↔ o = some a := by
  simp [orPanic]

/-- The difference of two words where the language does not check it: below zero
it panics. -/
def subOrPanic {ε : Type} (a b : ℕ) : Except (Fault ε) ℕ :=
  if b ≤ a then .ok (a - b) else .error .panic

theorem subOrPanic_of_le {ε : Type} {a b : ℕ} (h : b ≤ a) :
    (subOrPanic a b : Except (Fault ε) ℕ) = .ok (a - b) := if_pos h

@[simp] theorem subOrPanic_eq_ok {ε : Type} {a b c : ℕ} :
    (subOrPanic a b : Except (Fault ε) ℕ) = .ok c ↔ b ≤ a ∧ a - b = c := by
  unfold subOrPanic
  split <;> simp_all

end Checked

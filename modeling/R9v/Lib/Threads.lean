import Mathlib.Algebra.Order.BigOperators.Group.Finset
import Mathlib.Data.Fintype.BigOperators
import Mathlib.Tactic.Common

/-!
# Threads that share a state

Some threads, each at a point of its program, take steps one after another in any order. A step
changes the point of one thread and the shared state, and what it does may depend on a choice of the
environment. What every step keeps holds throughout a run (`Run.invariant`), a sum over the points
changes by what the one thread contributes (`Config.sum_step`), and a thread has been where it is
since its own last step (`Run.since`).
-/

namespace Threads

open Finset

/-- The shared state, and where each thread is. -/
structure Config (T S P : Type) where
  shared : S
  point : T → P

variable {T S P C : Type} [DecidableEq T] {f : C → S → P → Option (S × P)}

/-- A step of one thread, if it can take one. -/
def Config.step (f : C → S → P → Option (S × P)) (s : Config T S P) (a : T × C) :
    Option (Config T S P) :=
  (f a.2 s.shared (s.point a.1)).map fun r => ⟨r.1, Function.update s.point a.1 r.2⟩

/-- The first `n` configurations of a run, each of which has made a step. -/
structure Run (f : C → S → P → Option (S × P)) (n : ℕ) (s : ℕ → Config T S P) (a : ℕ → T × C) :
    Prop where
  next : ∀ i < n, (s i).step f (a i) = some (s (i + 1))

/-- The configurations that some actions lead to, as long as they can be taken. -/
def Config.exec (f : C → S → P → Option (S × P)) (s : Config T S P) (a : ℕ → T × C) :
    ℕ → Config T S P
  | 0 => s
  | i + 1 => ((exec f s a i).step f (a i)).getD (exec f s a i)

theorem run_exec {s : Config T S P} {a : ℕ → T × C} {n : ℕ}
    (h : ∀ i < n, ((s.exec f a i).step f (a i)).isSome = true) : Run f n (s.exec f a) a := by
  refine ⟨fun i hi => ?_⟩
  obtain ⟨s', hs'⟩ := Option.isSome_iff_exists.mp (h i hi)
  rw [Config.exec, hs', Option.getD_some]

section Step

variable {s s' : Config T S P} {a : T × C}

/-- **What a step does**: the program of the thread takes a step, and no other thread moves. -/
theorem Config.step_eq_some : s.step f a = some s' ↔
    f a.2 s.shared (s.point a.1) = some (s'.shared, s'.point a.1) ∧
      ∀ t ≠ a.1, s'.point t = s.point t := by
  rw [Config.step, Option.map_eq_some_iff]
  constructor
  · rintro ⟨r, hr, rfl⟩
    refine ⟨hr.trans ?_, fun t ht => Function.update_of_ne ht _ _⟩
    dsimp only
    rw [Function.update_self]
  · rintro ⟨hstep, hothers⟩
    refine ⟨_, hstep, ?_⟩
    have hpoint : Function.update s.point a.1 (s'.point a.1) = s'.point := by
      funext t
      by_cases ht : t = a.1
      · rw [ht, Function.update_self]
      · rw [Function.update_of_ne ht, hothers t ht]
    rw [hpoint]

/-- **A sum over the points** changes by what the thread contributes. -/
theorem Config.sum_step [Fintype T] (h : s.step f a = some s') (g : P → ℕ) :
    ∑ t, g (s'.point t) + g (s.point a.1) = ∑ t, g (s.point t) + g (s'.point a.1) := by
  obtain ⟨-, hothers⟩ := Config.step_eq_some.mp h
  have hrest : ∑ t ∈ univ.erase a.1, g (s'.point t) = ∑ t ∈ univ.erase a.1, g (s.point t) :=
    sum_congr rfl fun t ht => congrArg g (hothers t (ne_of_mem_erase ht))
  rw [← add_sum_erase univ (fun t => g (s'.point t)) (mem_univ a.1),
    ← add_sum_erase univ (fun t => g (s.point t)) (mem_univ a.1), hrest]
  omega

end Step

namespace Run

variable {n : ℕ} {s : ℕ → Config T S P} {a : ℕ → T × C}

/-- **What every step keeps** holds throughout. -/
theorem invariant {Inv : Config T S P → Prop} (h : Run f n s a) (h0 : Inv (s 0))
    (hstep : ∀ c c' b, Inv c → c.step f b = some c' → Inv c') : ∀ j ≤ n, Inv (s j) := by
  intro j hj
  induction j with
  | zero => exact h0
  | succ j ih => exact hstep _ _ _ (ih (Nat.le_of_succ_le hj)) (h.next j hj)

/-- **A thread has been where it is** since its own last step, or from the start. -/
theorem since (h : Run f n s a) (t : T) {j : ℕ} (hj : j ≤ n) :
    ∃ i ≤ j, (∀ m, i ≤ m → m ≤ j → (s m).point t = (s j).point t) ∧
      (i = 0 ∨ ∃ k, i = k + 1 ∧ (a k).1 = t) := by
  induction j with
  | zero => exact ⟨0, le_rfl, fun m _ hm => by rw [Nat.le_zero.mp hm], Or.inl rfl⟩
  | succ j ih =>
    by_cases ht : (a j).1 = t
    · refine ⟨j + 1, le_rfl, fun m hm hm' => by rw [Nat.le_antisymm hm' hm], Or.inr ⟨j, rfl, ht⟩⟩
    · obtain ⟨i, hi, hstays, hlast⟩ := ih (Nat.le_of_succ_le hj)
      have hkeep := (Config.step_eq_some.mp (h.next j hj)).2 t (Ne.symm ht)
      refine ⟨i, Nat.le_succ_of_le hi, fun m hm hm' => ?_, hlast⟩
      rcases Nat.le_succ_iff.mp hm' with hle | rfl
      · rw [hstays m hm hle, hkeep]
      · rfl

end Run

end Threads

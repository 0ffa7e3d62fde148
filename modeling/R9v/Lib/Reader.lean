import R9v.Lib.Checked
import Mathlib.Data.List.Infix

/-!
# Readers

A reader takes a value from a place in a list and moves on, or fails. It reads a format
(`Reader.Reads`) if it succeeds exactly where the encoding of a valid value stands, whatever comes
after it. Such readers are put together from small ones (`Reads.bind`, `Reads.many`), and the
encodings of a format that can be read are told apart by what they start with (`Reads.prefixFree`).
-/

/-- Reads a value at a place in a list, and gives the place after it. -/
def Reader (β φ α : Type) : Type := List β → ℕ → Except φ (α × ℕ)

namespace Reader

open List

variable {β φ α γ : Type}

/-- Reads nothing. -/
def done (a : α) : Reader β φ α := fun _ p => .ok (a, p)

/-- Reads one thing after another. -/
def next (m : Reader β φ α) (k : α → Reader β φ γ) : Reader β φ γ := fun b p =>
  match m b p with
  | .ok (a, q) => k a b q
  | .error e => .error e

instance : Monad (Reader β φ) where
  pure := done
  bind := next

/-- The place that has been reached. -/
def pos : Reader β φ ℕ := fun _ p => .ok (p, p)

/-- Fails. -/
def fail (e : φ) : Reader β φ α := fun _ _ => .error e

/-- A computation that reads nothing. -/
def ofExcept (x : Except φ α) : Reader β φ α := fun _ p => x.map fun a => (a, p)

/-- Reads some values, one after another. -/
def many (m : Reader β φ α) : ℕ → Reader β φ (List α)
  | 0 => pure []
  | n + 1 => do
    let a ← m
    let rest ← many m n
    pure (a :: rest)

variable {m : Reader β φ α} {k : α → Reader β φ γ} {b : List β} {p q : ℕ} {a : α} {c : γ}

theorem pure_run : (pure a : Reader β φ α) b p = .ok (a, p) := rfl

theorem pos_run : (pos : Reader β φ ℕ) b p = .ok (p, p) := rfl

theorem bind_run (h : m b p = .ok (a, q)) : (m >>= k) b p = k a b q := by
  change (match m b p with
    | .ok (a, q) => k a b q
    | .error e => .error e) = _
  rw [h]

theorem bind_eq_ok : (m >>= k) b p = .ok (c, q) ↔ ∃ a r, m b p = .ok (a, r) ∧ k a b r = .ok
    (c, q) := by
  constructor
  · intro h
    cases hm : m b p with
    | error e =>
      change (match m b p with
        | .ok (a, q) => k a b q
        | .error e => .error e) = _ at h
      rw [hm] at h
      cases h
    | ok r =>
      rw [bind_run hm] at h
      exact ⟨r.1, r.2, rfl, h⟩
  · rintro ⟨a, r, hm, hk⟩
    rw [bind_run hm, hk]

/-! ### Formats -/

/-- A reader succeeds exactly where the encoding of a valid value stands. -/
def Reads (m : Reader β φ α) (P : α → Prop) (E : α → List β) : Prop :=
  ∀ b p a q, p ≤ b.length →
    (m b p = .ok (a, q) ↔ P a ∧ E a <+: b.drop p ∧ q = p + (E a).length)

variable {P Q : α → Prop} {E F : α → List β}

theorem Reads.le (h : E a <+: b.drop p) (hp : p ≤ b.length) : p + (E a).length ≤ b.length := by
  have hle := h.length_le
  rw [length_drop] at hle
  omega

theorem Reads.congr (h : Reads m P E) (hvalid : ∀ a, P a ↔ Q a)
    (henc : ∀ a, P a → E a = F a) : Reads m Q F := by
  intro b p a q hp
  rw [h b p a q hp, ← hvalid]
  refine and_congr_right fun ha => ?_
  rw [henc a ha]

theorem Reads.pure (a : α) : Reads (Pure.pure a : Reader β φ α) (· = a) fun _ => [] := by
  intro b p a' q _
  constructor
  · intro h
    obtain ⟨rfl, rfl⟩ := Prod.mk.inj (Except.ok.inj h)
    exact ⟨rfl, nil_prefix, rfl⟩
  · rintro ⟨rfl, -, rfl⟩
    rfl

theorem Reads.fail (e : φ) : Reads (Reader.fail e : Reader β φ α) (fun _ => False) E := by
  intro b p a q _
  exact ⟨fun h => (by cases h), fun h => h.1.elim⟩

/-- **One format after another**: the encoding of a value is that of what is read first, and then
the rest. -/
theorem Reads.bind {Q : α → γ → Prop} {F : α → γ → List β} {G : γ → List β}
    (hm : Reads m P E) (hk : ∀ a, P a → Reads (k a) (Q a) (F a))
    (henc : ∀ a c, P a → Q a c → G c = E a ++ F a c) :
    Reads (m >>= k) (fun c => ∃ a, P a ∧ Q a c) G := by
  intro b p c q hp
  rw [bind_eq_ok]
  constructor
  · rintro ⟨a, r, hread, hrest⟩
    obtain ⟨hvalid, ⟨t, ht⟩, rfl⟩ := (hm b p a r hp).mp hread
    obtain ⟨hvalid', hprefix, rfl⟩ := (hk a hvalid b _ c q (Reads.le ⟨t, ht⟩ hp)).mp hrest
    rw [henc a c hvalid hvalid', length_append, Nat.add_assoc]
    refine ⟨⟨a, hvalid, hvalid'⟩, ?_, rfl⟩
    rw [← drop_drop, ← ht, drop_left] at hprefix
    rw [← ht]
    exact (prefix_append_right_inj _).mpr hprefix
  · rintro ⟨⟨a, hvalid, hvalid'⟩, hprefix, rfl⟩
    rw [henc a c hvalid hvalid'] at hprefix ⊢
    have hfirst : E a <+: b.drop p := (prefix_append _ _).trans hprefix
    refine ⟨a, _, (hm b p _ _ hp).mpr ⟨hvalid, hfirst, rfl⟩,
      (hk _ hvalid b _ c _ (Reads.le hfirst hp)).mpr ⟨hvalid', ?_, ?_⟩⟩
    · obtain ⟨r, hr⟩ := hfirst
      rw [← hr, prefix_append_right_inj] at hprefix
      rwa [← drop_drop, ← hr, drop_left]
    · rw [length_append, Nat.add_assoc]

theorem Reads.map {f : α → γ} {G : γ → List β} (h : Reads m P E)
    (henc : ∀ a, P a → G (f a) = E a) :
    Reads (m >>= fun a => Pure.pure (f a)) (fun c => ∃ a, P a ∧ c = f a) G := by
  refine h.bind (fun a _ => Reads.pure (f a)) fun a c ha hc => ?_
  rw [hc, henc a ha, append_nil]

theorem Reads.ofExcept {x : Except φ α} (h : ∀ a, x = .ok a ↔ P a) :
    Reads (Reader.ofExcept x : Reader β φ α) P fun _ => [] := by
  intro b p a q _
  rw [← h]
  constructor
  · intro hx
    cases x with
    | error e => cases hx
    | ok a' =>
      obtain ⟨rfl, rfl⟩ := Prod.mk.inj (Except.ok.inj hx)
      exact ⟨rfl, nil_prefix, rfl⟩
  · rintro ⟨hx, -, rfl⟩
    rw [hx]
    rfl

theorem Reads.withPos {k : ℕ → Reader β φ α} (h : ∀ p, Reads (k p) P E) :
    Reads (pos >>= k) P E := by
  intro b p a q hp
  exact h p b p a q hp

/-- **Some values of a format** are encoded one after another. -/
theorem Reads.many (h : Reads m P E) (n : ℕ) :
    Reads (m.many n) (fun l => l.length = n ∧ ∀ a ∈ l, P a) (List.flatMap E) := by
  induction n with
  | zero =>
    refine (Reads.pure []).congr (fun l => ?_) fun l hl => ?_
    · rw [length_eq_zero_iff]
      exact ⟨fun hl => ⟨hl, hl ▸ fun _ ha => absurd ha not_mem_nil⟩, fun hl => hl.1⟩
    · rw [hl]
      rfl
  | succ n ih =>
    intro b p l q hp
    rw [Reader.many, bind_eq_ok]
    constructor
    · rintro ⟨a, r, hfirst, hrest⟩
      obtain ⟨as, r', hmany, hdone⟩ := bind_eq_ok.mp hrest
      obtain ⟨rfl, rfl⟩ := Prod.mk.inj (Except.ok.inj hdone)
      obtain ⟨hvalid, ⟨t, ht⟩, rfl⟩ := (h b p a r hp).mp hfirst
      obtain ⟨⟨hlen, hall⟩, hprefix, rfl⟩ := (ih b _ as _ (Reads.le ⟨t, ht⟩ hp)).mp hmany
      refine ⟨⟨congrArg (· + 1) hlen, forall_mem_cons.mpr ⟨hvalid, hall⟩⟩, ?_, ?_⟩
      · rw [← drop_drop, ← ht, drop_left] at hprefix
        rw [flatMap_cons, ← ht]
        exact (prefix_append_right_inj _).mpr hprefix
      · rw [flatMap_cons, length_append, Nat.add_assoc]
    · rintro ⟨⟨hlen, hall⟩, hprefix, rfl⟩
      cases l with
      | nil => cases hlen
      | cons a as =>
        have hcons : (a :: as).flatMap E = E a ++ as.flatMap E := flatMap_cons
        rw [hcons] at hprefix ⊢
        obtain ⟨hvalid, hall⟩ := forall_mem_cons.mp hall
        have hfirst : E a <+: b.drop p := (prefix_append _ _).trans hprefix
        refine ⟨a, _, (h b p _ _ hp).mpr ⟨hvalid, hfirst, rfl⟩, bind_eq_ok.mpr ⟨as, _,
          (ih b _ as _ (Reads.le hfirst hp)).mpr ⟨⟨Nat.succ_inj.mp hlen, hall⟩, ?_, rfl⟩, ?_⟩⟩
        · obtain ⟨r, hr⟩ := hfirst
          rw [← hr, prefix_append_right_inj] at hprefix
          rwa [← drop_drop, ← hr, drop_left]
        · rw [pure_run, length_append, Nat.add_assoc]

theorem Reads.after (h : Reads m P E) (pre r : List β) :
    m (pre ++ r) pre.length = .ok (a, q) ↔
      P a ∧ E a <+: r ∧ q = pre.length + (E a).length := by
  rw [h _ _ _ _ (by rw [length_append]; exact Nat.le_add_right _ _), drop_left]

/-- **Encodings that can be read** are told apart by what they start with. -/
theorem Reads.prefixFree (h : Reads m P E) {a a' : α} {r r' : List β} (ha : P a)
    (ha' : P a') (heq : E a ++ r = E a' ++ r') : a = a' ∧ r = r' := by
  have hread : ∀ a, P a → E a <+: E a' ++ r' →
      m (E a' ++ r') 0 = .ok (a, 0 + (E a).length) := fun a ha hprefix =>
    (h _ 0 a _ (Nat.zero_le _)).mpr ⟨ha, hprefix, rfl⟩
  have hfirst := hread a ha ⟨r, heq⟩
  have hsecond := hread a' ha' (prefix_append _ _)
  rw [hfirst] at hsecond
  obtain ⟨rfl, -⟩ := Prod.mk.inj (Except.ok.inj hsecond)
  exact ⟨rfl, append_cancel_left heq⟩

end Reader

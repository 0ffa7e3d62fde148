import Mathlib.Data.List.Nodup
import Mathlib.Data.List.Count
import Mathlib.Data.List.Perm.Subperm

/-!
# Orders along links

The order in which a queue serves numbered nodes when a node enters the queue as soon as
everything that links to it has left it. The number of links that are still open is kept
for each node (`relax`), and a node is served after everything that links to it
(`kahn_before`). A node that is not served waits for another one that is not served
(`exists_open`).
-/

namespace R9v.Kahn

open List

/-- What a node links to, with repetitions. -/
def successors (links : List (ℕ × ℕ)) (node : ℕ) : List ℕ :=
  (links.filter (·.1 = node)).map (·.2)

/-- How many links lead to a node. -/
def inDegree (links : List (ℕ × ℕ)) (node : ℕ) : ℕ := links.countP (·.2 = node)

/-- Closes a link to each of some nodes: those that have no open link left enter the queue. -/
def relax : List ℕ → (ℕ → ℕ) → (ℕ → ℕ) × List ℕ
  | [], deg => (deg, [])
  | c :: cs, deg =>
    let deg' := fun n => if n = c then deg n - 1 else deg n
    let (deg'', pushed) := relax cs deg'
    (deg'', if deg' c = 0 then c :: pushed else pushed)

/-- Serves as many nodes as the fuel allows: the order, and the links that stay open. -/
def serve (links : List (ℕ × ℕ)) : ℕ → (ℕ → ℕ) → List ℕ → List ℕ × (ℕ → ℕ)
  | 0, deg, _ => ([], deg)
  | _ + 1, deg, [] => ([], deg)
  | fuel + 1, deg, node :: queue =>
    let (deg', pushed) := relax (successors links node) deg
    let (order, deg'') := serve links fuel deg' (queue ++ pushed)
    (node :: order, deg'')

attribute [grind =] serve

/-- The order of `count` nodes, beginning with those that nothing links to. -/
def kahn (links : List (ℕ × ℕ)) (count : ℕ) : List ℕ × (ℕ → ℕ) :=
  serve links count (inDegree links) ((List.range count).filter (inDegree links · = 0))

/-! ### Closing links -/

theorem relax_spec (cs : List ℕ) (deg : ℕ → ℕ) (h : ∀ c, cs.count c ≤ deg c) :
    (∀ n, (relax cs deg).1 n = deg n - cs.count n) ∧ (relax cs deg).2.Nodup ∧
      ∀ n, n ∈ (relax cs deg).2 ↔ n ∈ cs ∧ deg n = cs.count n := by
  induction cs generalizing deg with
  | nil => simp [relax]
  | cons c cs ih =>
    set deg' := fun n => if n = c then deg n - 1 else deg n with hdeg'
    have hself : deg' c = deg c - 1 := if_pos rfl
    have hother : ∀ n, n ≠ c → deg' n = deg n := fun n hn => if_neg hn
    have hc := h c
    rw [count_cons_self] at hc
    have hle : ∀ n, cs.count n ≤ deg' n := by
      intro n
      rcases eq_or_ne n c with rfl | hne
      · omega
      · have := h n
        rwa [count_cons_of_ne hne.symm, ← hother n hne] at this
    obtain ⟨hdeg, hnodup, hmem⟩ := ih deg' hle
    have heq : relax (c :: cs) deg = ((relax cs deg').1,
        if deg' c = 0 then c :: (relax cs deg').2 else (relax cs deg').2) := rfl
    rw [heq]
    refine ⟨fun n => ?_, ?_, fun n => ?_⟩
    · rw [hdeg n]
      rcases eq_or_ne n c with rfl | hne
      · rw [count_cons_self]
        omega
      · rw [count_cons_of_ne hne.symm, hother n hne]
    · split_ifs with hzero
      · refine nodup_cons.mpr ⟨fun hin => ?_, hnodup⟩
        obtain ⟨hin, heq⟩ := (hmem c).mp hin
        have := count_pos_iff.mpr hin
        omega
      · exact hnodup
    · rcases eq_or_ne n c with rfl | hne
      · rw [count_cons_self]
        split_ifs with hzero
        · exact ⟨fun _ => ⟨mem_cons_self, by omega⟩, fun _ => mem_cons_self⟩
        · rw [hmem n]
          constructor
          · rintro ⟨-, heq⟩
            exact ⟨mem_cons_self, by omega⟩
          · rintro ⟨-, heq⟩
            exact ⟨count_pos_iff.mp (by omega), by omega⟩
      · rw [count_cons_of_ne hne.symm, mem_cons, or_iff_right hne, ← hother n hne, ← hmem n]
        split_ifs
        · rw [mem_cons, or_iff_right hne]
        · exact Iff.rfl

theorem count_successors (links : List (ℕ × ℕ)) (node n : ℕ) :
    (successors links node).count n = links.countP fun l => l.1 = node ∧ l.2 = n := by
  unfold successors
  rw [List.count, countP_map, countP_filter]
  refine countP_congr fun l _ => ?_
  simp [and_comm]

/-! ### The order -/

/-- The links to a node from those that are not done. -/
def openLinks (links : List (ℕ × ℕ)) (done : List ℕ) (n : ℕ) : ℕ :=
  links.countP fun l => l.2 = n ∧ l.1 ∉ done

/-- A queue has the nodes whose links are closed and that are not served yet. -/
structure Queued (links : List (ℕ × ℕ)) (count : ℕ) (done : List ℕ) (deg : ℕ → ℕ)
    (queue : List ℕ) : Prop where
  nodup : (done ++ queue).Nodup
  lt : ∀ n ∈ done ++ queue, n < count
  deg_eq : ∀ n, deg n = openLinks links done n
  closed : ∀ n ∈ done ++ queue, deg n = 0

variable {links : List (ℕ × ℕ)} {count : ℕ} {done queue : List ℕ} {deg : ℕ → ℕ} {node : ℕ}

theorem openLinks_snoc (hnode : node ∉ done) (n : ℕ) :
    openLinks links done n = openLinks links (done ++ [node]) n + (successors links node).count n := by
  rw [count_successors]
  unfold openLinks
  induction links with
  | nil => rfl
  | cons l links ih =>
    simp only [countP_cons, ih]
    by_cases h₁ : l.1 = node
    · by_cases h₂ : l.2 = n
      · simp [h₁, h₂, hnode]
        omega
      · simp [h₂]
    · by_cases h₂ : l.2 = n
      · simp [h₁, h₂]
        omega
      · simp [h₂]

theorem Queued.pop (h : Queued links count done deg (node :: queue))
    (hlinks : ∀ l ∈ links, l.2 < count) :
    Queued links count (done ++ [node]) (relax (successors links node) deg).1
      (queue ++ (relax (successors links node) deg).2) := by
  have hnode : node ∉ done := by
    have := nodup_append.mp h.nodup
    exact fun hmem => this.2.2 node hmem node mem_cons_self rfl
  have hsnoc := fun n => (h.deg_eq n).trans (openLinks_snoc hnode n)
  obtain ⟨hdeg, hnodup, hmem⟩ := relax_spec (successors links node) deg fun c => by
    rw [hsnoc c]
    exact Nat.le_add_left _ _
  -- what enters the queue had an open link, so that it was not in the queue before
  have hold : ∀ n ∈ (relax (successors links node) deg).2, n ∉ done ++ node :: queue := by
    intro n hn hin
    obtain ⟨hin', heq⟩ := (hmem n).mp hn
    have := count_pos_iff.mpr hin'
    have := h.closed n hin
    omega
  have happend : done ++ [node] ++ (queue ++ (relax (successors links node) deg).2) =
      done ++ node :: queue ++ (relax (successors links node) deg).2 := by simp
  refine ⟨?_, fun n hn => ?_, fun n => ?_, fun n hn => ?_⟩
  · rw [happend]
    exact List.Nodup.append h.nodup hnodup fun n hn hn' => hold n hn' hn
  · rw [happend] at hn
    rcases mem_append.mp hn with hn | hn
    · exact h.lt n hn
    · obtain ⟨l, hl, rfl⟩ := mem_map.mp ((hmem n).mp hn).1
      exact hlinks l (mem_of_mem_filter hl)
  · rw [hdeg n, hsnoc n]
    omega
  · rw [hdeg n]
    rw [happend] at hn
    rcases mem_append.mp hn with hn | hn
    · rw [h.closed n hn, Nat.zero_sub]
    · rw [((hmem n).mp hn).2, Nat.sub_self]

theorem Queued.serve (h : Queued links count done deg queue) (hlinks : ∀ l ∈ links, l.2 < count)
    (fuel : ℕ) :
    (done ++ (serve links fuel deg queue).1).Nodup ∧
      (∀ n ∈ (serve links fuel deg queue).1, n < count) ∧
      ∀ a n b, (serve links fuel deg queue).1 = a ++ n :: b → ∀ u, (u, n) ∈ links →
        u ∈ done ++ a := by
  induction fuel generalizing done deg queue with
  | zero =>
    refine ⟨by simpa [Kahn.serve] using (nodup_append.mp h.nodup).1, by simp [Kahn.serve], ?_⟩
    intro a n b hab
    simp [Kahn.serve] at hab
  | succ fuel ih =>
    cases queue with
    | nil =>
      refine ⟨by simpa [Kahn.serve] using h.nodup, by simp [Kahn.serve], ?_⟩
      intro a n b hab
      simp [Kahn.serve] at hab
    | cons node queue =>
      obtain ⟨hnodup, hlt, hbefore⟩ := ih (h.pop hlinks)
      set rest := (Kahn.serve links fuel (relax (successors links node) deg).1
        (queue ++ (relax (successors links node) deg).2)).1 with hrest
      have heq : (Kahn.serve links (fuel + 1) deg (node :: queue)).1 = node :: rest := rfl
      rw [heq]
      refine ⟨by simpa using hnodup, fun n hn => ?_, fun a n b hab u hu => ?_⟩
      · rcases mem_cons.mp hn with rfl | hn
        · exact h.lt n (by simp)
        · exact hlt n hn
      · cases a with
        | nil =>
          obtain ⟨rfl, -⟩ := List.cons.inj hab
          have hzero := h.closed node (by simp)
          rw [h.deg_eq, openLinks, countP_eq_zero] at hzero
          have := hzero (u, node) hu
          simpa using this
        | cons x a =>
          obtain ⟨rfl, htail⟩ := List.cons.inj hab
          simpa using hbefore a n b htail u hu

theorem queued_start : Queued links count [] (inDegree links)
    ((List.range count).filter (inDegree links · = 0)) := by
  refine ⟨?_, fun n hn => ?_, fun n => ?_, fun n hn => ?_⟩
  · exact nodup_range.filter _
  · exact mem_range.mp (mem_of_mem_filter hn)
  · exact countP_congr fun l _ => by simp
  · simpa using (mem_filter.mp hn).2

/-- **A node is served after everything that links to it.** -/
theorem kahn_before (hlinks : ∀ l ∈ links, l.2 < count) {a b : List ℕ} {n u : ℕ}
    (h : (kahn links count).1 = a ++ n :: b) (hu : (u, n) ∈ links) : u ∈ a := by
  have := (queued_start.serve hlinks count).2.2 a n b h u hu
  simpa using this

theorem kahn_nodup (hlinks : ∀ l ∈ links, l.2 < count) : (kahn links count).1.Nodup := by
  have := (queued_start.serve hlinks count).1
  rwa [nil_append] at this

theorem kahn_lt (hlinks : ∀ l ∈ links, l.2 < count) : ∀ n ∈ (kahn links count).1, n < count :=
  (queued_start.serve hlinks count).2.1

/-! ### What is left -/

/-- Everything whose links are closed is served or in the queue. -/
def Complete (count : ℕ) (done : List ℕ) (deg : ℕ → ℕ) (queue : List ℕ) : Prop :=
  ∀ n < count, deg n = 0 → n ∈ done ++ queue

theorem Queued.complete_pop (h : Queued links count done deg (node :: queue))
    (hc : Complete count done deg (node :: queue)) :
    Complete count (done ++ [node]) (relax (successors links node) deg).1
      (queue ++ (relax (successors links node) deg).2) := by
  have hnode : node ∉ done := by
    have := nodup_append.mp h.nodup
    exact fun hmem => this.2.2 node hmem node mem_cons_self rfl
  have hle : ∀ n, (successors links node).count n ≤ deg n := by
    intro n
    rw [h.deg_eq n, openLinks_snoc hnode n]
    exact Nat.le_add_left _ _
  obtain ⟨hdeg, -, hmem⟩ := relax_spec (successors links node) deg hle
  intro n hn hzero
  rw [hdeg n] at hzero
  rcases Nat.eq_zero_or_pos (deg n) with hold | hpos
  · have := hc n hn hold
    rcases mem_append.mp this with hin | hin
    · simp [hin]
    · rcases mem_cons.mp hin with rfl | hin <;> simp_all
  · -- its last open links are those that are closed now
    have heq : deg n = (successors links node).count n := by have := hle n; omega
    have hin : n ∈ (relax (successors links node) deg).2 :=
      (hmem n).mpr ⟨count_pos_iff.mp (heq ▸ hpos), heq⟩
    simp [hin]

theorem Queued.serve_complete (h : Queued links count done deg queue)
    (hlinks : ∀ l ∈ links, l.2 < count) (hc : Complete count done deg queue) {fuel : ℕ}
    (hfuel : count ≤ done.length + fuel) :
    (∀ n, (Kahn.serve links fuel deg queue).2 n =
      openLinks links (done ++ (Kahn.serve links fuel deg queue).1) n) ∧
    Complete count (done ++ (Kahn.serve links fuel deg queue).1) (Kahn.serve links fuel deg queue).2
      [] := by
  induction fuel generalizing done deg queue with
  | zero =>
    -- as many are served as there are
    have hsub : done ++ queue ⊆ List.range count := fun n hn => mem_range.mpr (h.lt n hn)
    have hlen := (subperm_of_subset h.nodup hsub).length_le
    rw [length_append, length_range] at hlen
    obtain rfl := length_eq_zero_iff.mp (by omega : queue.length = 0)
    refine ⟨fun n => ?_, fun n hn hzero => ?_⟩
    · simpa [Kahn.serve] using h.deg_eq n
    · simpa [Kahn.serve] using hc n hn hzero
  | succ fuel ih =>
    cases queue with
    | nil =>
      refine ⟨fun n => ?_, fun n hn hzero => ?_⟩
      · simpa [Kahn.serve] using h.deg_eq n
      · simpa [Kahn.serve] using hc n hn hzero
    | cons node queue =>
      have := ih (h.pop hlinks) (h.complete_pop hc) (by rw [length_append, length_singleton]; omega)
      simpa [Kahn.serve] using this

theorem complete_start : Complete count [] (inDegree links)
    ((List.range count).filter (inDegree links · = 0)) := by
  intro n hn hzero
  simpa [hzero] using hn

/-- The links that stay open are those from nodes that are not served. -/
theorem kahn_deg (hlinks : ∀ l ∈ links, l.2 < count) (n : ℕ) :
    (kahn links count).2 n = openLinks links (kahn links count).1 n :=
  (queued_start.serve_complete hlinks complete_start (by simp)).1 n

/-- **What is not served** waits for something that is not served. -/
theorem exists_open (hlinks : ∀ l ∈ links, l.2 < count) {n : ℕ} (hn : n < count)
    (hnot : n ∉ (kahn links count).1) : ∃ u, (u, n) ∈ links ∧ u ∉ (kahn links count).1 := by
  have hpos : (kahn links count).2 n ≠ 0 := by
    intro hzero
    have hin := (queued_start.serve_complete hlinks complete_start (by simp)).2 n hn hzero
    rw [nil_append, append_nil] at hin
    exact hnot hin
  rw [kahn_deg hlinks n] at hpos
  obtain ⟨⟨u, n'⟩, hl, hmem⟩ := countP_pos_iff.mp (Nat.pos_of_ne_zero hpos)
  obtain ⟨rfl, hu⟩ : n' = n ∧ u ∉ (kahn links count).1 := by simpa using hmem
  exact ⟨u, hl, hu⟩

theorem kahn_closed (hlinks : ∀ l ∈ links, l.2 < count) {n : ℕ} (hn : n ∈ (kahn links count).1) :
    (kahn links count).2 n = 0 := by
  rw [kahn_deg hlinks n, openLinks, countP_eq_zero]
  rintro ⟨u, n'⟩ hl hmem
  obtain ⟨rfl, hu⟩ : n' = n ∧ u ∉ (kahn links count).1 := by simpa using hmem
  obtain ⟨a, b, hab⟩ := append_of_mem hn
  refine hu ?_
  rw [hab]
  exact mem_append_left _ (kahn_before hlinks hab hl)

end R9v.Kahn

import R9v.Lib.Blocks
import R9v.T0.Scan
import Mathlib.Data.List.Flatten
import Mathlib.Data.List.GetD
import Mathlib.Tactic.Ring

/-!
# A segment on its own

What an operation computes for a segment is a function of the tokens of the segment and of its
row of the state: the number of the segment in the step, where its tokens stand, and whether
they are taken in blocks do not matter (`Recurrence.rows_own`, `Recurrence.tail_own`).
-/

namespace R9v

open Blocks List

variable {F : Type}

/-! ### Lists of rows -/

section Rows

variable {α : Type}

theorem segments_rows (rows tail : ℕ → ℕ → ℕ → List F) (width : ℕ)
    (h : ∀ slot base len, (rows slot base len).length = len * width) (z : F)
    (lens : List ℕ) (slot base j i : ℕ) (hj : j < lens.length) (hi : i < lens.getD j 0 * width) :
    (segments rows tail slot base lens).1.getD ((lens.take j).sum * width + i) z =
      (rows (slot + j) (base + (lens.take j).sum) (lens.getD j 0)).getD i z := by
  induction lens generalizing slot base j with
  | nil => cases hj
  | cons len lens ih =>
    rw [segments]
    cases j with
    | zero =>
      have hlt : i < (rows slot base len).length := by
        rw [h]
        simpa using hi
      simp only [take_zero, sum_nil, zero_mul, zero_add, add_zero, getD_cons_zero]
      exact getD_append _ _ _ _ hlt
    | succ j =>
      have hle : (rows slot base len).length ≤ (len + (lens.take j).sum) * width + i := by
        rw [h, add_mul, add_assoc]
        exact Nat.le_add_right _ _
      have hsub : (len + (lens.take j).sum) * width + i - (rows slot base len).length =
          (lens.take j).sum * width + i := by
        rw [h, add_mul, add_assoc, Nat.add_sub_cancel_left]
      have hnext := ih (slot + 1) (base + len) j (by simpa using hj) (by simpa using hi)
      rw [take_succ_cons, sum_cons, getD_append_right _ _ _ _ hle, hsub, hnext]
      rw [getD_cons_succ, add_assoc slot, add_comm 1 j, add_assoc base]

theorem segments_tail (rows tail : ℕ → ℕ → ℕ → List F) (width : ℕ)
    (h : ∀ slot base len, (tail slot base len).length = width) (z : F)
    (lens : List ℕ) (slot base j i : ℕ) (hj : j < lens.length) (hi : i < width) :
    (segments rows tail slot base lens).2.getD (j * width + i) z =
      (tail (slot + j) (base + (lens.take j).sum) (lens.getD j 0)).getD i z := by
  induction lens generalizing slot base j with
  | nil => cases hj
  | cons len lens ih =>
    rw [segments]
    cases j with
    | zero =>
      have hlt : i < (tail slot base len).length := by rwa [h]
      simp only [take_zero, sum_nil, zero_mul, zero_add, add_zero, getD_cons_zero]
      exact getD_append _ _ _ _ hlt
    | succ j =>
      have hle : (tail slot base len).length ≤ (j + 1) * width + i := by
        rw [h, add_mul, one_mul]
        omega
      have hsub : (j + 1) * width + i - (tail slot base len).length = j * width + i := by
        rw [h, add_mul, one_mul]
        omega
      have hnext := ih (slot + 1) (base + len) j (by simpa using hj)
      rw [take_succ_cons, sum_cons, getD_append_right _ _ _ _ hle, hsub, hnext]
      rw [getD_cons_succ, add_assoc slot, add_comm 1 j, add_assoc base]

end Rows

variable [Numeric F]

/-! ### Blocks -/

section Blocks

variable (h d dv : ℕ) (q k v alpha beta : ℕ → F) (base head : ℕ)

theorem scanRows_append (rows rows' : List ℕ) (s : ℕ → ℕ → F) :
    scanRows h d dv q k v alpha beta base head (rows ++ rows') s =
      let first := scanRows h d dv q k v alpha beta base head rows s
      let second := scanRows h d dv q k v alpha beta base head rows' first.2
      (first.1 ++ second.1, second.2) := by
  induction rows generalizing s with
  | nil => rfl
  | cons r rows ih =>
    rw [cons_append, scanRows, ih]
    rfl

theorem scanBlocks_flatten (blocks : List (List ℕ)) (s : ℕ → ℕ → F) :
    scanBlocks h d dv q k v alpha beta base head blocks s =
      scanRows h d dv q k v alpha beta base head blocks.flatten s := by
  induction blocks generalizing s with
  | nil => rfl
  | cons block blocks ih =>
    rw [scanBlocks, flatten_cons, scanRows_append]
    simp only [ih]

theorem chunkBlocks_flatten {chunk : ℕ} (hchunk : 0 < chunk) (len fuel cs : ℕ)
    (hfuel : len ≤ cs + fuel) :
    (chunkBlocks chunk len fuel cs).flatten = List.range' cs (len - cs) := by
  induction fuel generalizing cs with
  | zero =>
    have hnone : len - cs = 0 := by omega
    rw [hnone]
    rfl
  | succ fuel ih =>
    rw [chunkBlocks]
    split
    · next hlt =>
      have hce : cs + (min (cs + chunk) len - cs) = min (cs + chunk) len := by omega
      rw [flatten_cons, ih (min (cs + chunk) len) (by omega)]
      have hsplit : len - cs = (min (cs + chunk) len - cs) + (len - min (cs + chunk) len) := by omega
      rw [hsplit, ← range'_append_1, hce]
    · next hge =>
      have hnone : len - cs = 0 := by omega
      rw [hnone]
      rfl

theorem scanHead_chunk (st : ℕ → F) (slot len : ℕ) {chunk : Option ℕ} (hchunk : ∀ n ∈ chunk, 0 < n) :
    scanHead h d dv q k v alpha beta st slot base chunk len head =
      scanHead h d dv q k v alpha beta st slot base none len head := by
  cases chunk with
  | none => rfl
  | some n =>
    rw [scanHead, scanHead, scanBlocks_flatten, chunkBlocks_flatten (hchunk n rfl) len len 0 (by omega)]
    rw [Nat.sub_zero, range_eq_range']

end Blocks

/-! ### The tokens of a segment -/

/-- The numbers from the one with number `start` on, `count` of them. -/
def window (x : ℕ → F) (start count : ℕ) : ℕ → F := fun i => if i < count then x (start + i) else 0

theorem window_of_lt (x : ℕ → F) {start count i : ℕ} (h : i < count) :
    window x start count i = x (start + i) :=
  if_pos h

theorem mul_add_lt {a b c i : ℕ} (ha : a < b) (hi : i < c) : a * c + i < b * c :=
  calc a * c + i < a * c + c := by omega
    _ = (a + 1) * c := by rw [add_mul, one_mul]
    _ ≤ b * c := Nat.mul_le_mul_right c ha

section Conv

variable {c wk : ℕ} {x w : ℕ → F} {bias : Option (ℕ → F)} {st st' : ℕ → F} {slot base len : ℕ}

theorem convHist_own (hst : ∀ i < (wk - 1) * c, st (slot * ((wk - 1) * c) + i) = st' i) {abs ch : ℕ}
    (habs : abs < wk - 1 + len) (hch : ch < c) :
    convHist c wk x st slot base abs ch =
      convHist c wk (window x (base * c) (len * c)) st' 0 0 abs ch := by
  simp only [convHist]
  split
  · next hlt =>
    have hread := hst (abs * c + ch) (mul_add_lt hlt hch)
    rw [mul_assoc slot, add_assoc, hread, zero_mul, zero_mul, zero_add]
  · next hge =>
    have hrow : base + abs - (wk - 1) = base + (abs - (wk - 1)) := by omega
    have hin : (0 + abs - (wk - 1)) * c + ch < len * c := mul_add_lt (by omega) hch
    rw [window_of_lt x hin, hrow, zero_add, add_mul, add_assoc]

theorem convAcc_own (hst : ∀ i < (wk - 1) * c, st (slot * ((wk - 1) * c) + i) = st' i)
    {row ch : ℕ} (hrow : row < len) (hch : ch < c) :
    convAcc c wk x w bias st slot base row ch =
      convAcc c wk (window x (base * c) (len * c)) w bias st' 0 0 row ch := by
  refine foldl_ext _ _ _ fun acc i hi => ?_
  have hi : i < wk := mem_range.mp hi
  have habs : row + i < wk - 1 + len := by omega
  rw [convHist_own hst habs hch]

theorem convRows_own (hst : ∀ i < (wk - 1) * c, st (slot * ((wk - 1) * c) + i) = st' i)
    (act : ConvActivation) :
    convRows c wk x w bias st slot base act len =
      convRows c wk (window x (base * c) (len * c)) w bias st' 0 0 act len := by
  refine flatMap_congr fun row hrow => map_congr_left fun ch hch => ?_
  rw [convAcc_own hst (mem_range.mp hrow) (mem_range.mp hch)]

theorem convTail_own (hst : ∀ i < (wk - 1) * c, st (slot * ((wk - 1) * c) + i) = st' i) :
    convTail c wk x st slot base len =
      convTail c wk (window x (base * c) (len * c)) st' 0 0 len := by
  refine flatMap_congr fun row hrow => map_congr_left fun ch hch => ?_
  have hrow : row < wk - 1 := mem_range.mp hrow
  exact convHist_own hst (by omega) (mem_range.mp hch)

end Conv

section Scan

variable {h d dv : ℕ} (q k v alpha beta : ℕ → F) {st st' : ℕ → F} {slot head : ℕ} (base len : ℕ)

theorem length_scanRows (rows : List ℕ) (s : ℕ → ℕ → F) :
    (scanRows h d dv q k v alpha beta base head rows s).1.length = rows.length := by
  induction rows generalizing s with
  | nil => rfl
  | cons r rows ih =>
    rw [scanRows, length_cons, length_cons, ih]

theorem length_of_mem_scanRows (rows : List ℕ) (s : ℕ → ℕ → F) :
    ∀ out ∈ (scanRows h d dv q k v alpha beta base head rows s).1, out.length = dv := by
  induction rows generalizing s with
  | nil => exact fun out hout => absurd hout not_mem_nil
  | cons r rows ih =>
    intro out hout
    rcases mem_cons.mp hout with rfl | hmem
    · simp [scanOut]
    · exact ih _ out hmem

/-- The operands of the tokens of two segments are the same. -/
structure SameTokens (h d dv len : ℕ) (q k v alpha beta : ℕ → F) (base : ℕ)
    (q' k' v' alpha' beta' : ℕ → F) (base' : ℕ) : Prop where
  q : ∀ r < len, ∀ head < h, ∀ i < d,
    q (((base + r) * h + head) * d + i) = q' (((base' + r) * h + head) * d + i)
  k : ∀ r < len, ∀ head < h, ∀ i < d,
    k (((base + r) * h + head) * d + i) = k' (((base' + r) * h + head) * d + i)
  v : ∀ r < len, ∀ head < h, ∀ j < dv,
    v (((base + r) * h + head) * dv + j) = v' (((base' + r) * h + head) * dv + j)
  alpha : ∀ r < len, ∀ head < h, alpha ((base + r) * h + head) = alpha' ((base' + r) * h + head)
  beta : ∀ r < len, ∀ head < h, beta ((base + r) * h + head) = beta' ((base' + r) * h + head)

theorem sameTokens_window : SameTokens h d dv len q k v alpha beta base
    (window q (base * (h * d)) (len * (h * d))) (window k (base * (h * d)) (len * (h * d)))
    (window v (base * (h * dv)) (len * (h * dv))) (window alpha (base * h) (len * h))
    (window beta (base * h) (len * h)) 0 := by
  have hwide : ∀ (x : ℕ → F) (m : ℕ), ∀ r < len, ∀ head < h, ∀ i < m,
      x (((base + r) * h + head) * m + i) =
        window x (base * (h * m)) (len * (h * m)) (((0 + r) * h + head) * m + i) := by
    intro x m r hr head hhead i hi
    have hin : ((0 + r) * h + head) * m + i < len * (h * m) := by
      rw [← mul_assoc]
      exact mul_add_lt (mul_add_lt (by omega) hhead) hi
    rw [window_of_lt x hin]
    congr 1
    ring
  have hgate : ∀ x : ℕ → F, ∀ r < len, ∀ head < h, x ((base + r) * h + head) =
      window x (base * h) (len * h) ((0 + r) * h + head) := by
    intro x r hr head hhead
    rw [window_of_lt x (mul_add_lt (by omega) hhead)]
    congr 1
    ring
  exact ⟨hwide q d, hwide k d, hwide v dv, hgate alpha, hgate beta⟩

variable {q k v alpha beta} {q' k' v' alpha' beta' : ℕ → F} {base len} {base' slot' : ℕ}

/-- The tokens of a head depend on their operands, and on the state before them. -/
theorem scanRows_congr (hsame : SameTokens h d dv len q k v alpha beta base q' k' v' alpha' beta' base')
    (hhead : head < h) (rows : List ℕ) (hrows : ∀ r ∈ rows, r < len)
    {s s' : ℕ → ℕ → F} (hs : ∀ i < d, ∀ j < dv, s i j = s' i j) :
    (scanRows h d dv q k v alpha beta base head rows s).1 =
        (scanRows h d dv q' k' v' alpha' beta' base' head rows s').1 ∧
      ∀ i < d, ∀ j < dv, (scanRows h d dv q k v alpha beta base head rows s).2 i j =
        (scanRows h d dv q' k' v' alpha' beta' base' head rows s').2 i j := by
  induction rows generalizing s s' with
  | nil => exact ⟨rfl, hs⟩
  | cons r rows ih =>
    have hr : r < len := hrows r mem_cons_self
    have hstate : ∀ i < d, ∀ j < dv, scanState h d dv k v alpha beta (base + r) head s i j =
        scanState h d dv k' v' alpha' beta' (base' + r) head s' i j := by
      intro i hi j hj
      rw [scanState, scanState, hsame.alpha r hr head hhead, hsame.beta r hr head hhead,
        hsame.k r hr head hhead i hi, hsame.v r hr head hhead j hj, hs i hi j hj]
    have hout : scanOut h d dv q (base + r) head (scanState h d dv k v alpha beta (base + r) head s) =
        scanOut h d dv q' (base' + r) head
          (scanState h d dv k' v' alpha' beta' (base' + r) head s') := by
      refine map_congr_left fun j hj => foldl_ext _ _ _ fun acc i hi => ?_
      rw [hsame.q r hr head hhead i (mem_range.mp hi),
        hstate i (mem_range.mp hi) j (mem_range.mp hj)]
    obtain ⟨houts, hend⟩ := ih (fun r' hr' => hrows r' (mem_cons_of_mem r hr')) hstate
    refine ⟨?_, hend⟩
    rw [scanRows, scanRows]
    simp only
    rw [houts, hout]

theorem scanHead_congr (hsame : SameTokens h d dv len q k v alpha beta base q' k' v' alpha' beta' base')
    (hst : ∀ i < h * d * dv, st (slot * (h * d * dv) + i) = st' (slot' * (h * d * dv) + i))
    (hhead : head < h) :
    (scanHead h d dv q k v alpha beta st slot base none len head).1 =
        (scanHead h d dv q' k' v' alpha' beta' st' slot' base' none len head).1 ∧
      ∀ i < d, ∀ j < dv, (scanHead h d dv q k v alpha beta st slot base none len head).2 i j =
        (scanHead h d dv q' k' v' alpha' beta' st' slot' base' none len head).2 i j := by
  refine scanRows_congr hsame hhead _ (fun r hr => mem_range.mp hr) fun i hi j hj => ?_
  have hread := hst _ (mul_add_lt (mul_add_lt hhead hi) hj)
  have hplace : ∀ slot, slot * (h * d * dv) + ((head * d + i) * dv + j) =
      (slot * h + head) * d * dv + i * dv + j := fun slot => by ring
  rwa [hplace, hplace] at hread

variable (q k v alpha beta) (base)

end Scan

/-! ### Recurrences -/

/-- An operation with its operands as numbers. -/
inductive Recurrence (F : Type)
  | conv (c wk : ℕ) (act : ConvActivation) (x w : ℕ → F) (bias : Option (ℕ → F))
  | scan (h d dv : ℕ) (q k v alpha beta : ℕ → F)

namespace Recurrence

/-- How many numbers the state of a sequence has. -/
def width : Recurrence F → ℕ
  | .conv c wk .. => (wk - 1) * c
  | .scan h d dv .. => h * d * dv

/-- How many numbers there are for a token. -/
def outWidth : Recurrence F → ℕ
  | .conv c .. => c
  | .scan h _ dv .. => h * dv

/-- What is computed for a segment. -/
def rows (r : Recurrence F) (chunk : Option ℕ) (st : ℕ → F) (slot base len : ℕ) : List F :=
  match r with
  | .conv c wk act x w bias => convRows c wk x w bias st slot base act len
  | .scan h d dv q k v alpha beta => scanSegment h d dv q k v alpha beta st slot base chunk len

/-- The state after a segment. -/
def tail (r : Recurrence F) (chunk : Option ℕ) (st : ℕ → F) (slot base len : ℕ) : List F :=
  match r with
  | .conv c wk _ x .. => convTail c wk x st slot base len
  | .scan h d dv q k v alpha beta => scanTail h d dv q k v alpha beta st slot base chunk len

/-- The operation on the tokens of a segment alone. -/
def own (r : Recurrence F) (base len : ℕ) : Recurrence F :=
  match r with
  | .conv c wk act x w bias => .conv c wk act (window x (base * c) (len * c)) w bias
  | .scan h d dv q k v alpha beta => .scan h d dv (window q (base * (h * d)) (len * (h * d)))
      (window k (base * (h * d)) (len * (h * d))) (window v (base * (h * dv)) (len * (h * dv)))
      (window alpha (base * h) (len * h)) (window beta (base * h) (len * h))

variable (r : Recurrence F) {chunk : Option ℕ} {st st' : ℕ → F} {slot base len : ℕ}

theorem length_rows (hchunk : ∀ n ∈ chunk, 0 < n) (st : ℕ → F) (slot base len : ℕ) :
    (r.rows chunk st slot base len).length = len * r.outWidth := by
  cases r with
  | conv c wk act x w bias =>
    exact length_flatMap_range fun _ _ => by rw [length_map, length_range, outWidth]
  | scan h d dv q k v alpha beta =>
    refine length_flatMap_range fun row hrow => length_flatMap_range fun head _ => ?_
    rw [scanHead_chunk h d dv q k v alpha beta base head st slot len hchunk, scanHead]
    have hlt : row < (scanRows h d dv q k v alpha beta base head (List.range len)
        (scanStart h d dv st slot head)).1.length := by
      rwa [length_scanRows, length_range]
    rw [getD_eq_getElem _ _ hlt]
    exact length_of_mem_scanRows q k v alpha beta base _ _ _ (getElem_mem hlt)

theorem length_tail (chunk : Option ℕ) (st : ℕ → F) (slot base len : ℕ) :
    (r.tail chunk st slot base len).length = r.width := by
  cases r with
  | conv c wk act x w bias =>
    exact length_flatMap_range fun _ _ => by simp
  | scan h d dv q k v alpha beta =>
    rw [width, mul_assoc]
    exact length_flatMap_range fun _ _ => length_flatMap_range fun _ _ => by simp

/-- **What is computed for a segment** depends on its tokens and on its row of the state. -/
theorem rows_own (hchunk : ∀ n ∈ chunk, 0 < n)
    (hst : ∀ i < r.width, st (slot * r.width + i) = st' i) :
    r.rows chunk st slot base len = (r.own base len).rows none st' 0 0 len := by
  cases r with
  | conv c wk act x w bias => exact convRows_own hst act
  | scan h d dv q k v alpha beta =>
    have hown : ∀ i < h * d * dv, st (slot * (h * d * dv) + i) = st' (0 * (h * d * dv) + i) := by
      simpa [width] using hst
    refine flatMap_congr fun row _ => flatMap_congr fun head hhead => ?_
    rw [scanHead_chunk h d dv q k v alpha beta base head st slot len hchunk,
      (scanHead_congr (sameTokens_window q k v alpha beta base len) hown (mem_range.mp hhead)).1]

theorem tail_own (hchunk : ∀ n ∈ chunk, 0 < n)
    (hst : ∀ i < r.width, st (slot * r.width + i) = st' i) :
    r.tail chunk st slot base len = (r.own base len).tail none st' 0 0 len := by
  cases r with
  | conv c wk act x w bias => exact convTail_own hst
  | scan h d dv q k v alpha beta =>
    have hown : ∀ i < h * d * dv, st (slot * (h * d * dv) + i) = st' (0 * (h * d * dv) + i) := by
      simpa [width] using hst
    refine flatMap_congr fun head hhead => flatMap_congr fun i hi =>
      map_congr_left fun j hj => ?_
    rw [scanHead_chunk h d dv q k v alpha beta base head st slot len hchunk,
      (scanHead_congr (sameTokens_window q k v alpha beta base len) hown (mem_range.mp hhead)).2
        i (mem_range.mp hi) j (mem_range.mp hj)]

end Recurrence

end R9v

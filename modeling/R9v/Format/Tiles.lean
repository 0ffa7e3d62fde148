import R9v.Format.Permute
import R9v.Lib.Digits
import R9v.Lib.Loops
import Mathlib.Tactic.IntervalCases
import Mathlib.Data.List.GetD
import Mathlib.Data.List.ProdSigma

/-!
# Tiles and their codecs

The order of the tiles is an order of all the elements of a padded weight
(`l1ForwardIndex_eq_ok_iff`), so that putting the elements in that order and back are inverse to
each other (`l1Forward_eq_ok_iff`). A lane of eight elements is packed into as many bytes as its
bits fill (`planeLane`, `nibbleLane`), so that packing loses nothing and leaves no byte unused.
-/

namespace R9v.Format

open Checked Blocks List FormatError

/-! ### Positions -/

section Positions

variable {dims : PaddedDims} {n k pos : ℕ}

theorem nPadded_eq (dims : PaddedDims) : dims.nPadded = dims.nTiles * 16 :=
  (Nat.div_mul_cancel dims.n_dvd).symm

theorem kPadded_eq (dims : PaddedDims) : dims.kPadded = dims.kTiles * 16 :=
  (Nat.div_mul_cancel dims.k_dvd).symm

theorem tileCount_eq (dims : PaddedDims) : dims.tileCount * 256 = dims.nPadded * dims.kPadded := by
  rw [nPadded_eq, kPadded_eq, PaddedDims.tileCount]
  ring

theorem boundProblem_eq_nil {name reason : String} {value bound : ℕ} :
    boundProblem name value bound reason = [] ↔ value < bound := by
  simp [boundProblem]

/-- The tile of a row and a column. -/
def tileOf (dims : PaddedDims) (n k : ℕ) : ℕ := n / 16 * dims.kTiles + k / 16

/-- The position within the tile. -/
def within (n k : ℕ) : ℕ := (k % 16 / 8 * 16 + n % 16) * 8 + k % 8

theorem within_lt (n k : ℕ) : within n k < 256 := by
  rw [within]
  omega

theorem l1ForwardIndex_eq_ok :
    l1ForwardIndex dims n k = .ok pos ↔
      n < dims.nPadded ∧ k < dims.kPadded ∧ pos = tileOf dims n k * 256 + within n k := by
  simp only [l1ForwardIndex, bind_eq_ok, collect_eq_ok, append_eq_nil_iff,
    boundProblem_eq_nil, pure_eq_ok]
  constructor
  · rintro ⟨_, ⟨hn, hk⟩, rfl⟩
    exact ⟨hn, hk, add_assoc _ _ _⟩
  · rintro ⟨hn, hk, rfl⟩
    exact ⟨(), ⟨hn, hk⟩, add_assoc _ _ _⟩

theorem tileOf_div (hk : k < dims.kPadded) :
    tileOf dims n k / dims.kTiles = n / 16 ∧ tileOf dims n k % dims.kTiles = k / 16 := by
  have hlt : k / 16 < dims.kTiles := by
    rw [kPadded_eq] at hk
    omega
  have hpos : 0 < dims.kTiles := Nat.zero_lt_of_lt hlt
  rw [tileOf, Nat.mul_comm]
  exact ⟨by rw [Nat.mul_add_div hpos, Nat.div_eq_of_lt hlt, Nat.add_zero],
    by rw [Nat.mul_add_mod, Nat.mod_eq_of_lt hlt]⟩

theorem tileOf_lt (hn : n < dims.nPadded) (hk : k < dims.kPadded) : tileOf dims n k < dims.tileCount := by
  rw [nPadded_eq] at hn
  rw [kPadded_eq] at hk
  have hrow : n / 16 + 1 ≤ dims.nTiles := by omega
  calc tileOf dims n k < n / 16 * dims.kTiles + dims.kTiles := Nat.add_lt_add_left (by omega) _
    _ = (n / 16 + 1) * dims.kTiles := (Nat.succ_mul _ _).symm
    _ ≤ dims.tileCount := Nat.mul_le_mul_right _ hrow

theorem tile_split {tile : ℕ} (h : tile < dims.tileCount) :
    tile / dims.kTiles < dims.nTiles ∧ tile % dims.kTiles < dims.kTiles ∧
      dims.nTiles * 16 < 2 ^ 32 ∧ dims.kTiles * 16 < 2 ^ 32 := by
  have hpos : 0 < dims.kTiles := Nat.pos_of_mul_pos_left (Nat.zero_lt_of_lt h)
  exact ⟨Nat.div_lt_of_lt_mul (by rwa [Nat.mul_comm]), Nat.mod_lt tile hpos, nPadded_eq dims ▸ dims.n_lt,
    kPadded_eq dims ▸ dims.k_lt⟩

theorem l1InverseIndex_eq_ok {r : ℕ × ℕ} :
    l1InverseIndex dims pos = .ok r ↔ pos < dims.tileCount * 256 ∧
      r = (pos / 256 / dims.kTiles * 16 + pos % 256 / 8 % 16,
        pos / 256 % dims.kTiles * 16 + pos % 256 / 8 / 16 * 8 + pos % 256 % 8) := by
  simp only [l1InverseIndex, bind_eq_ok, ensure_eq_ok, pure_eq_ok]
  have hwords : pos < dims.tileCount * 256 →
      pos / 256 / dims.kTiles * 16 + pos % 256 / 8 % 16 < 2 ^ 32 ∧
        pos / 256 % dims.kTiles * 16 + pos % 256 / 8 / 16 * 8 + pos % 256 % 8 < 2 ^ 32 := by
    intro hpos
    have htile := @tile_split dims (pos / 256) (Nat.div_lt_of_lt_mul (by rwa [Nat.mul_comm]))
    omega
  constructor
  · rintro ⟨_, hpos, rfl⟩
    obtain ⟨hn, hk⟩ := hwords hpos
    exact ⟨hpos, Prod.ext (Nat.mod_eq_of_lt hn) (Nat.mod_eq_of_lt hk)⟩
  · rintro ⟨hpos, rfl⟩
    obtain ⟨hn, hk⟩ := hwords hpos
    exact ⟨(), hpos, Prod.ext (Nat.mod_eq_of_lt hn) (Nat.mod_eq_of_lt hk)⟩

/-- **Positions and elements**: each of them is that of the other. -/
theorem l1ForwardIndex_eq_ok_iff :
    l1ForwardIndex dims n k = .ok pos ↔ l1InverseIndex dims pos = .ok (n, k) := by
  rw [l1ForwardIndex_eq_ok, l1InverseIndex_eq_ok]
  constructor
  · rintro ⟨hn, hk, rfl⟩
    have hlt := tileOf_lt hn hk
    have hwithin := within_lt n k
    obtain ⟨hdiv, hmod⟩ := tileOf_div (n := n) hk
    have htile : (tileOf dims n k * 256 + within n k) / 256 = tileOf dims n k := by omega
    have hin : (tileOf dims n k * 256 + within n k) % 256 = within n k := by omega
    refine ⟨by omega, ?_⟩
    rw [htile, hin, hdiv, hmod, within]
    refine Prod.ext ?_ ?_
    · change n = _
      omega
    · change k = _
      omega
  · rintro ⟨hpos, heq⟩
    obtain ⟨rfl, rfl⟩ := Prod.mk.inj heq
    obtain ⟨hrow, hcol, -⟩ := @tile_split dims (pos / 256) (Nat.div_lt_of_lt_mul (by rwa [Nat.mul_comm]))
    have hsplit := Nat.div_add_mod' (pos / 256) dims.kTiles
    refine ⟨by rw [nPadded_eq]; omega, by rw [kPadded_eq]; omega, ?_⟩
    have hn16 : (pos / 256 / dims.kTiles * 16 + pos % 256 / 8 % 16) / 16 = pos / 256 / dims.kTiles := by
      omega
    have hk16 : (pos / 256 % dims.kTiles * 16 + pos % 256 / 8 / 16 * 8 + pos % 256 % 8) / 16 =
        pos / 256 % dims.kTiles := by omega
    rw [tileOf, hn16, hk16, hsplit, within]
    omega

theorem exists_l1ForwardIndex : (∃ pos, l1ForwardIndex dims n k = .ok pos) ↔
    n < dims.nPadded ∧ k < dims.kPadded :=
  ⟨fun ⟨_, h⟩ => ⟨(l1ForwardIndex_eq_ok.mp h).1, (l1ForwardIndex_eq_ok.mp h).2.1⟩,
    fun ⟨hn, hk⟩ => ⟨_, l1ForwardIndex_eq_ok.mpr ⟨hn, hk, rfl⟩⟩⟩

theorem exists_l1InverseIndex : (∃ r, l1InverseIndex dims pos = .ok r) ↔ pos < 256 * dims.tileCount := by
  rw [mul_comm]
  exact ⟨fun ⟨_, h⟩ => (l1InverseIndex_eq_ok.mp h).1, fun h => ⟨_, l1InverseIndex_eq_ok.mpr ⟨h, rfl⟩⟩⟩

theorem rowBlockTiles_eq_ok {nb : ℕ} {span : ℕ × ℕ} : rowBlockTiles dims nb = .ok span ↔
    nb < dims.nPadded / 16 ∧ span = (nb * dims.kTiles, nb * dims.kTiles + dims.kTiles) := by
  simp only [rowBlockTiles, bind_eq_ok, ensure_eq_ok, pure_eq_ok]
  constructor
  · rintro ⟨_, hnb, heq⟩
    exact ⟨hnb, heq.symm⟩
  · rintro ⟨hnb, heq⟩
    exact ⟨(), hnb, heq.symm⟩

/-- **The tiles of sixteen rows** hold their elements and no others. -/
theorem rowBlockTiles_iff {nb start stop : ℕ} (hspan : rowBlockTiles dims nb = .ok (start, stop))
    (h : l1ForwardIndex dims n k = .ok pos) :
    start * 256 ≤ pos ∧ pos < stop * 256 ↔ n / 16 = nb := by
  obtain ⟨hn, hk, rfl⟩ := l1ForwardIndex_eq_ok.mp h
  obtain ⟨-, heq⟩ := rowBlockTiles_eq_ok.mp hspan
  obtain ⟨rfl, rfl⟩ := Prod.mk.inj heq
  have hwithin := within_lt n k
  have hcol : k / 16 < dims.kTiles := by
    rw [kPadded_eq] at hk
    omega
  have hspan : nb * dims.kTiles ≤ tileOf dims n k ∧ tileOf dims n k < nb * dims.kTiles + dims.kTiles ↔
      n / 16 = nb := by
    rw [← Nat.succ_mul]
    constructor
    · rintro ⟨hle, hlt⟩
      have hrow : n / 16 = tileOf dims n k / dims.kTiles := (tileOf_div hk).1.symm
      have hpos : 0 < dims.kTiles := Nat.zero_lt_of_lt hcol
      rw [hrow]
      exact Nat.le_antisymm (Nat.lt_succ_iff.mp ((Nat.div_lt_iff_lt_mul hpos).mpr hlt))
        ((Nat.le_div_iff_mul_le hpos).mpr hle)
    · rintro rfl
      rw [Nat.succ_mul, tileOf]
      omega
  rw [← hspan]
  omega

theorem tileIndex_eq_ok {tile : ℕ} : tileIndex dims n k = .ok tile ↔ n % 16 = 0 ∧ k % 16 = 0 ∧
    n < dims.nPadded ∧ k < dims.kPadded ∧ tile = tileOf dims n k := by
  have hcount : dims.tileCount < 2 ^ 64 := by
    have hn := dims.n_lt
    have hk := dims.k_lt
    have hmul : dims.nPadded * dims.kPadded ≤ 2 ^ 32 * 2 ^ 32 := Nat.mul_le_mul hn.le hk.le
    have heq := tileCount_eq dims
    omega
  simp only [tileIndex, bind_eq_ok, collect_eq_ok, append_eq_nil_iff,
    boundProblem_eq_nil, okOr_eq_ok, ite_eq_right_iff, cons_ne_nil, imp_false, not_not,
    Option.bind_eq_some_iff, mul_eq_some, add_eq_some]
  constructor
  · rintro ⟨_, ⟨⟨⟨hn0, hk0⟩, hn⟩, hk⟩, _, ⟨-, rfl⟩, -, rfl⟩
    exact ⟨hn0, hk0, hn, hk, rfl⟩
  · rintro ⟨hn0, hk0, hn, hk, rfl⟩
    have hlt := (tileOf_lt hn hk).trans hcount
    rw [tileOf] at hlt
    exact ⟨(), ⟨⟨⟨hn0, hk0⟩, hn⟩, hk⟩, _, ⟨Nat.lt_of_le_of_lt (Nat.le_add_right _ _) hlt, rfl⟩, hlt,
      rfl⟩

theorem tileOrigin_eq_ok {tile : ℕ} {r : ℕ × ℕ} : tileOrigin dims tile = .ok r ↔
    tile < dims.tileCount ∧ r = (tile / dims.kTiles * 16, tile % dims.kTiles * 16) := by
  simp only [tileOrigin, bind_eq_ok, ensure_eq_ok, pure_eq_ok]
  have hwords : tile < dims.tileCount → tile / dims.kTiles * 16 < 2 ^ 32 ∧
      tile % dims.kTiles * 16 < 2 ^ 32 := by
    intro htile
    have hsplit := tile_split htile
    omega
  constructor
  · rintro ⟨_, htile, rfl⟩
    obtain ⟨hn, hk⟩ := hwords htile
    exact ⟨htile, Prod.ext (Nat.mod_eq_of_lt hn) (Nat.mod_eq_of_lt hk)⟩
  · rintro ⟨htile, rfl⟩
    obtain ⟨hn, hk⟩ := hwords htile
    exact ⟨(), htile, Prod.ext (Nat.mod_eq_of_lt hn) (Nat.mod_eq_of_lt hk)⟩

/-- **The first tile of rows and columns** and its first row and column. -/
theorem tileIndex_eq_ok_iff {tile : ℕ} :
    tileIndex dims n k = .ok tile ↔ tileOrigin dims tile = .ok (n, k) := by
  rw [tileIndex_eq_ok, tileOrigin_eq_ok]
  constructor
  · rintro ⟨hn0, hk0, hn, hk, rfl⟩
    obtain ⟨hdiv, hmod⟩ := tileOf_div (n := n) hk
    refine ⟨tileOf_lt hn hk, Prod.ext ?_ ?_⟩
    · rw [hdiv]
      change n = n / 16 * 16
      omega
    · rw [hmod]
      change k = k / 16 * 16
      omega
  · rintro ⟨htile, heq⟩
    obtain ⟨rfl, rfl⟩ := Prod.mk.inj heq
    obtain ⟨hrow, hcol, -⟩ := tile_split htile
    refine ⟨by omega, by omega, by rw [nPadded_eq]; omega, by rw [kPadded_eq]; omega, ?_⟩
    rw [tileOf, Nat.mul_div_cancel _ (by decide), Nat.mul_div_cancel _ (by decide), Nat.div_add_mod']

theorem exists_tileIndex : (∃ tile, tileIndex dims n k = .ok tile) ↔
    n % 16 = 0 ∧ k % 16 = 0 ∧ n < dims.nPadded ∧ k < dims.kPadded := by
  constructor
  · rintro ⟨tile, h⟩
    obtain ⟨hn0, hk0, hn, hk, -⟩ := tileIndex_eq_ok.mp h
    exact ⟨hn0, hk0, hn, hk⟩
  · rintro ⟨hn0, hk0, hn, hk⟩
    exact ⟨_, tileIndex_eq_ok.mpr ⟨hn0, hk0, hn, hk, rfl⟩⟩

end Positions

/-! ### The order of the tiles -/

section Order

variable {α : Type} {dims : PaddedDims} {what : String} {zero : α} {src dst : List α}

/-- The position of an element in the order of the tiles. -/
def tilePos (dims : PaddedDims) (n k : ℕ) : ℕ := tileOf dims n k * 256 + within n k

/-- One list has the elements of another in the order of the tiles. -/
structure Tiled (dims : PaddedDims) (src dst : List α) : Prop where
  length_src : src.length = dims.nPadded * dims.kPadded
  length_dst : dst.length = dims.nPadded * dims.kPadded
  cell : ∀ n < dims.nPadded, ∀ k < dims.kPadded, dst[tilePos dims n k]? = src[n * dims.kPadded + k]?

theorem mem_cells {c : ℕ × ℕ} : c ∈ cells dims ↔ c.1 < dims.nPadded ∧ c.2 < dims.kPadded := by
  rw [← mem_range, ← mem_range]
  exact mem_product

theorem nodup_cells (dims : PaddedDims) : (cells dims).Nodup :=
  List.Nodup.product nodup_range nodup_range

theorem rowPos_lt {n k : ℕ} (hn : n < dims.nPadded) (hk : k < dims.kPadded) :
    n * dims.kPadded + k < dims.nPadded * dims.kPadded := by
  calc n * dims.kPadded + k < n * dims.kPadded + dims.kPadded := Nat.add_lt_add_left hk _
    _ = (n + 1) * dims.kPadded := (Nat.succ_mul _ _).symm
    _ ≤ dims.nPadded * dims.kPadded := Nat.mul_le_mul_right _ hn

theorem rowPos_inj {n k n' k' : ℕ} (hk : k < dims.kPadded) (hk' : k' < dims.kPadded)
    (h : n * dims.kPadded + k = n' * dims.kPadded + k') : n = n' ∧ k = k' := by
  have hpos : 0 < dims.kPadded := Nat.zero_lt_of_lt hk
  have hdiv := congrArg (· / dims.kPadded) h
  have hmod := congrArg (· % dims.kPadded) h
  simp only [Nat.mul_comm _ dims.kPadded, Nat.mul_add_div hpos, Nat.div_eq_of_lt hk,
    Nat.div_eq_of_lt hk', Nat.add_zero, Nat.mul_add_mod, Nat.mod_eq_of_lt hk, Nat.mod_eq_of_lt hk'] at hdiv hmod
  exact ⟨hdiv, hmod⟩

theorem exists_rowPos {i : ℕ} (hi : i < dims.nPadded * dims.kPadded) :
    ∃ n k, n < dims.nPadded ∧ k < dims.kPadded ∧ i = n * dims.kPadded + k := by
  have hpos : 0 < dims.kPadded := Nat.pos_of_mul_pos_left (Nat.zero_lt_of_lt hi)
  exact ⟨i / dims.kPadded, i % dims.kPadded, Nat.div_lt_of_lt_mul (by rwa [Nat.mul_comm]),
    Nat.mod_lt i hpos, (Nat.div_add_mod' i dims.kPadded).symm⟩

theorem l1ForwardIndex_tilePos {n k : ℕ} (hn : n < dims.nPadded) (hk : k < dims.kPadded) :
    l1ForwardIndex dims n k = .ok (tilePos dims n k) :=
  l1ForwardIndex_eq_ok.mpr ⟨hn, hk, rfl⟩

theorem tilePos_lt {n k : ℕ} (hn : n < dims.nPadded) (hk : k < dims.kPadded) :
    tilePos dims n k < dims.nPadded * dims.kPadded := by
  rw [← tileCount_eq]
  exact (l1InverseIndex_eq_ok.mp (l1ForwardIndex_eq_ok_iff.mp (l1ForwardIndex_tilePos hn hk))).1

theorem exists_tilePos {pos : ℕ} (h : pos < dims.nPadded * dims.kPadded) :
    ∃ n k, n < dims.nPadded ∧ k < dims.kPadded ∧ pos = tilePos dims n k := by
  rw [← tileCount_eq, mul_comm] at h
  obtain ⟨⟨n, k⟩, hr⟩ := exists_l1InverseIndex.mpr h
  obtain ⟨hn, hk, hpos⟩ := l1ForwardIndex_eq_ok.mp (l1ForwardIndex_eq_ok_iff.mpr hr)
  exact ⟨n, k, hn, hk, hpos⟩

theorem tilePos_inj {n k n' k' : ℕ} (hn : n < dims.nPadded) (hk : k < dims.kPadded)
    (hn' : n' < dims.nPadded) (hk' : k' < dims.kPadded) (h : tilePos dims n k = tilePos dims n' k') :
    n = n' ∧ k = k' := by
  have hone := l1ForwardIndex_eq_ok_iff.mp (l1ForwardIndex_tilePos hn hk)
  have htwo := l1ForwardIndex_eq_ok_iff.mp (l1ForwardIndex_tilePos hn' hk')
  rw [h, htwo] at hone
  obtain ⟨hn, hk⟩ := Prod.mk.inj (Except.ok.inj hone)
  exact ⟨hn.symm, hk.symm⟩

theorem Tiled.dst_unique {dst' : List α} (h : Tiled dims src dst) (h' : Tiled dims src dst') :
    dst = dst' := by
  refine ext_getElem? fun pos => ?_
  rcases lt_or_ge pos (dims.nPadded * dims.kPadded) with hpos | hpos
  · obtain ⟨n, k, hn, hk, rfl⟩ := exists_tilePos hpos
    rw [h.cell n hn k hk, h'.cell n hn k hk]
  · rw [getElem?_eq_none (by rwa [h.length_dst]), getElem?_eq_none (by rwa [h'.length_dst])]

theorem Tiled.src_unique {src' : List α} (h : Tiled dims src dst) (h' : Tiled dims src' dst) :
    src = src' := by
  refine ext_getElem? fun i => ?_
  rcases lt_or_ge i (dims.nPadded * dims.kPadded) with hi | hi
  · obtain ⟨n, k, hn, hk, rfl⟩ := exists_rowPos hi
    rw [← h.cell n hn k hk, ← h'.cell n hn k hk]
  · rw [getElem?_eq_none (by rwa [h.length_src]), getElem?_eq_none (by rwa [h'.length_src])]

theorem exists_l1Forward (what : String) (zero : α)
    (hlen : src.length = dims.nPadded * dims.kPadded) :
    ∃ dst, l1Forward what zero dims src = .ok dst ∧ Tiled dims src dst := by
  have hsrc : ∀ c ∈ cells dims, c.1 * dims.kPadded + c.2 < src.length := fun c hc =>
    hlen ▸ rowPos_lt (mem_cells.mp hc).1 (mem_cells.mp hc).2
  have htarget : ∀ c ∈ cells dims, lift (l1ForwardIndex dims c.1 c.2) = .ok (tilePos dims c.1 c.2) :=
    fun c hc => by rw [l1ForwardIndex_tilePos (mem_cells.mp hc).1 (mem_cells.mp hc).2, lift_ok]
  have hvalue : ∀ c ∈ cells dims,
      (orPanic src[c.1 * dims.kPadded + c.2]? : Except (Fault FormatError) α) =
        .ok (src.getD (c.1 * dims.kPadded + c.2) zero) := fun c hc => by
    rw [orPanic_eq_ok, getElem?_eq_getElem (hsrc c hc), getD_eq_getElem _ _ (hsrc c hc)]
  have hlt : ∀ c ∈ cells dims, tilePos dims c.1 c.2 <
      (List.replicate (dims.nPadded * dims.kPadded) zero).length := fun c hc => by
    rw [length_replicate]
    exact tilePos_lt (mem_cells.mp hc).1 (mem_cells.mp hc).2
  have hnodup : ((cells dims).map fun c => tilePos dims c.1 c.2).Nodup := by
    refine (nodup_cells dims).map_on ?_
    rintro ⟨n, k⟩ hc ⟨n', k'⟩ hc' heq
    obtain ⟨hn, hk⟩ := mem_cells.mp hc
    obtain ⟨hn', hk'⟩ := mem_cells.mp hc'
    obtain ⟨rfl, rfl⟩ := tilePos_inj hn hk hn' hk' heq
    rfl
  obtain ⟨r, hr, hrlen, hcell, -⟩ := fill_eq_ok htarget hvalue hlt hnodup
  rw [length_replicate] at hrlen
  refine ⟨r, ?_, hlen, hrlen, fun n hn k hk => ?_⟩
  · rw [l1Forward, expectLen, ensure_of hlen, lift_ok, ok_bind]
    exact hr
  · have hmem : (n, k) ∈ cells dims := mem_cells.mpr ⟨hn, hk⟩
    rw [hcell (n, k) hmem, getElem?_eq_getElem (hsrc _ hmem), getD_eq_getElem _ _ (hsrc _ hmem)]

/-- **The elements in the order of the tiles**: there is one such list. -/
theorem l1Forward_eq_ok : l1Forward what zero dims src = .ok dst ↔ Tiled dims src dst := by
  constructor
  · intro h
    have hlen : src.length = dims.nPadded * dims.kPadded := by
      rw [l1Forward, bind_eq_ok] at h
      obtain ⟨_, hlen, -⟩ := h
      exact ensure_eq_ok.mp (lift_eq_ok.mp hlen)
    obtain ⟨dst', hdst, htiled⟩ := exists_l1Forward what zero hlen
    rw [hdst] at h
    exact Except.ok.inj h ▸ htiled
  · intro h
    obtain ⟨dst', hdst, htiled⟩ := exists_l1Forward what zero h.length_src
    rw [hdst, h.dst_unique htiled]

theorem exists_l1Inverse (what : String) (zero : α)
    (hlen : dst.length = dims.nPadded * dims.kPadded) :
    ∃ src, l1Inverse what zero dims dst = .ok src ∧ Tiled dims src dst := by
  have hmem : ∀ c ∈ dst.zipIdx, dst[c.2]? = some c.1 := fun c hc => mem_zipIdx_iff_getElem?.mp hc
  have hpos : ∀ c ∈ dst.zipIdx, c.2 < dims.nPadded * dims.kPadded := fun c hc =>
    hlen ▸ (List.getElem?_eq_some_iff.mp (hmem c hc)).1
  -- the row and the column of each position
  have hcell : ∀ pos, ∃ c : ℕ × ℕ, pos < dims.nPadded * dims.kPadded →
      c.1 < dims.nPadded ∧ c.2 < dims.kPadded ∧ pos = tilePos dims c.1 c.2 := by
    intro pos
    by_cases h : pos < dims.nPadded * dims.kPadded
    · obtain ⟨n, k, hc⟩ := exists_tilePos h
      exact ⟨(n, k), fun _ => hc⟩
    · exact ⟨(0, 0), fun hlt => absurd hlt h⟩
  choose cell hcell using hcell
  have htarget : ∀ c ∈ dst.zipIdx, (do
      let r ← lift (l1InverseIndex dims c.2)
      pure (r.1 * dims.kPadded + r.2) : Except (Fault FormatError) ℕ) =
        .ok ((cell c.2).1 * dims.kPadded + (cell c.2).2) := fun c hc => by
    obtain ⟨hn, hk, heq⟩ := hcell c.2 (hpos c hc)
    have hinv := l1ForwardIndex_eq_ok_iff.mp (l1ForwardIndex_tilePos hn hk)
    rw [← heq] at hinv
    rw [hinv, lift_ok, ok_bind]
    rfl
  have hvalue : ∀ c ∈ dst.zipIdx, (pure c.1 : Except (Fault FormatError) α) = .ok c.1 := fun _ _ => rfl
  have hlt : ∀ c ∈ dst.zipIdx, (cell c.2).1 * dims.kPadded + (cell c.2).2 <
      (List.replicate (dims.nPadded * dims.kPadded) zero).length := fun c hc => by
    obtain ⟨hn, hk, -⟩ := hcell c.2 (hpos c hc)
    rw [length_replicate]
    exact rowPos_lt hn hk
  have hnodup : (dst.zipIdx.map fun c => (cell c.2).1 * dims.kPadded + (cell c.2).2).Nodup := by
    have hsnd : (dst.zipIdx.map Prod.snd).Nodup := by
      rw [zipIdx_map_snd]
      exact nodup_range'
    refine hsnd.of_map.map_on fun c hc c' hc' heq => ?_
    obtain ⟨hn, hk, h⟩ := hcell c.2 (hpos c hc)
    obtain ⟨hn', hk', h'⟩ := hcell c'.2 (hpos c' hc')
    obtain ⟨hrow, hcol⟩ := rowPos_inj hk hk' heq
    have hsame : c.2 = c'.2 := by rw [h, h', hrow, hcol]
    have hval := (hmem c hc).symm.trans (hsame ▸ hmem c' hc')
    exact Prod.ext (Option.some.inj hval) hsame
  obtain ⟨r, hr, hrlen, hfill, -⟩ := fill_eq_ok htarget hvalue hlt hnodup
  rw [length_replicate] at hrlen
  refine ⟨r, ?_, hrlen, hlen, fun n hn k hk => ?_⟩
  · rw [l1Inverse, expectLen, ensure_of hlen, lift_ok, ok_bind]
    exact hr
  · have hpos' := tilePos_lt hn hk
    obtain ⟨hn', hk', heq⟩ := hcell _ hpos'
    obtain ⟨hrow, hcol⟩ := tilePos_inj hn hk hn' hk' heq
    have hin : tilePos dims n k < dst.length := hlen ▸ hpos'
    have hzip : (dst[tilePos dims n k], tilePos dims n k) ∈ dst.zipIdx := by
      simp [mem_zipIdx_iff_getElem?, hin]
    have hget := hfill _ hzip
    rw [← hrow, ← hcol] at hget
    rw [hget, getElem?_eq_getElem hin]

/-- **The elements in the order of the rows**: there is one such list. -/
theorem l1Inverse_eq_ok : l1Inverse what zero dims dst = .ok src ↔ Tiled dims src dst := by
  constructor
  · intro h
    have hlen : dst.length = dims.nPadded * dims.kPadded := by
      rw [l1Inverse, bind_eq_ok] at h
      obtain ⟨_, hlen, -⟩ := h
      exact ensure_eq_ok.mp (lift_eq_ok.mp hlen)
    obtain ⟨src', hsrc, htiled⟩ := exists_l1Inverse what zero hlen
    rw [hsrc] at h
    exact Except.ok.inj h ▸ htiled
  · intro h
    obtain ⟨src', hsrc, htiled⟩ := exists_l1Inverse what zero h.length_dst
    rw [hsrc, h.src_unique htiled]

theorem exists_tiled_dst (hlen : src.length = dims.nPadded * dims.kPadded) (zero : α) :
    ∃ dst, Tiled dims src dst :=
  let ⟨dst, _, h⟩ := exists_l1Forward "" zero hlen
  ⟨dst, h⟩

theorem exists_tiled_src (hlen : dst.length = dims.nPadded * dims.kPadded) (zero : α) :
    ∃ src, Tiled dims src dst :=
  let ⟨src, _, h⟩ := exists_l1Inverse "" zero hlen
  ⟨src, h⟩

theorem Tiled.mem_iff (h : Tiled dims src dst) {a : α} : a ∈ dst ↔ a ∈ src := by
  rw [List.mem_iff_getElem?, List.mem_iff_getElem?]
  constructor
  · rintro ⟨pos, hpos⟩
    obtain ⟨hlt, -⟩ := List.getElem?_eq_some_iff.mp hpos
    obtain ⟨n, k, hn, hk, rfl⟩ := exists_tilePos (h.length_dst ▸ hlt)
    exact ⟨_, (h.cell n hn k hk).symm.trans hpos⟩
  · rintro ⟨i, hi⟩
    obtain ⟨hlt, -⟩ := List.getElem?_eq_some_iff.mp hi
    obtain ⟨n, k, hn, hk, rfl⟩ := exists_rowPos (h.length_src ▸ hlt)
    exact ⟨_, (h.cell n hn k hk).trans hi⟩

end Order

/-! ### Padding -/

section Padding

variable {dims : PaddedDims}

/-- The cells of the padding that are not zero, row by row. -/
def paddingProblems (dims : PaddedDims) (values : List ℕ) : List FormatError :=
  (cells dims).filterMap fun (n, k) =>
    if n < dims.n ∧ k < dims.k then none else
      let value := values.getD (n * dims.kPadded + k) 0
      if value ≠ 0 then some (.paddingNonzero n k value) else none

/-- **The padding is zero** when no problem is found in it. -/
theorem paddingProblems_eq_nil {values : List ℕ}
    (hlen : values.length = dims.nPadded * dims.kPadded) :
    paddingProblems dims values = [] ↔ ∀ n < dims.nPadded, ∀ k < dims.kPadded,
      (dims.n ≤ n ∨ dims.k ≤ k) → values[n * dims.kPadded + k]? = some 0 := by
  rw [paddingProblems, filterMap_eq_nil_iff]
  have hcell : ∀ n k, n < dims.nPadded → k < dims.kPadded →
      (values[n * dims.kPadded + k]? = some 0 ↔ values.getD (n * dims.kPadded + k) 0 = 0) := by
    intro n k hn hk
    have hlt : n * dims.kPadded + k < values.length := hlen ▸ rowPos_lt hn hk
    rw [getElem?_eq_getElem hlt, getD_eq_getElem _ _ hlt, Option.some_inj]
  constructor
  · intro h n hn k hk hout
    have hnk := h (n, k) (mem_cells.mpr ⟨hn, hk⟩)
    rw [hcell n k hn hk]
    by_contra hne
    have hin : ¬(n < dims.n ∧ k < dims.k) := by omega
    simp only [hin, if_false, hne, ne_eq, not_false_iff, if_true, reduceCtorEq] at hnk
  · rintro h ⟨n, k⟩ hc
    obtain ⟨hn, hk⟩ := mem_cells.mp hc
    by_cases hin : n < dims.n ∧ k < dims.k
    · exact if_pos hin
    · have hzero := (hcell n k hn hk).mp (h n hn k hk (by omega))
      simp only [hin, if_false, hzero, ne_eq, not_true_eq_false]

theorem Tiled.map {α β : Type} {src dst : List α} (h : Tiled dims src dst) (f : α → β) :
    Tiled dims (src.map f) (dst.map f) where
  length_src := by rw [length_map, h.length_src]
  length_dst := by rw [length_map, h.length_dst]
  cell n hn k hk := by rw [getElem?_map, getElem?_map, h.cell n hn k hk]

/-- **The padding of tiles** is that of the rows. -/
theorem verifyPaddingZerosElems_eq {src dst : List UInt16} (h : Tiled dims src dst) :
    verifyPaddingZerosElems dims dst =
      lift (FormatError.collect (paddingProblems dims (src.map (·.toNat)))) := by
  rw [verifyPaddingZerosElems, expectLen, ensure_of h.length_dst, lift_ok, ok_bind]
  have hround : ∀ c ∈ cells dims, ∀ found : List FormatError,
      (if c.1 < dims.n ∧ c.2 < dims.k then pure found else do
        let pos ← lift (l1ForwardIndex dims c.1 c.2)
        let value ← orPanic dst[pos]?
        pure (if value ≠ 0 then found ++ [.paddingNonzero c.1 c.2 value.toNat] else found) :
          Except (Fault FormatError) (List FormatError)) =
        .ok (found ++ Option.toList (if c.1 < dims.n ∧ c.2 < dims.k then none else
          let value := (src.map (·.toNat)).getD (c.1 * dims.kPadded + c.2) 0
          if value ≠ 0 then some (.paddingNonzero c.1 c.2 value) else none)) := by
    rintro ⟨n, k⟩ hc found
    obtain ⟨hn, hk⟩ := mem_cells.mp hc
    by_cases hin : n < dims.n ∧ k < dims.k
    · simp only [hin, and_self, if_true, Option.toList_none, append_nil]
      rfl
    · have hlt : n * dims.kPadded + k < src.length := h.length_src ▸ rowPos_lt hn hk
      have hvalue : (orPanic dst[tilePos dims n k]? : Except (Fault FormatError) UInt16) =
          .ok src[n * dims.kPadded + k] := by
        rw [orPanic_eq_ok, h.cell n hn k hk, getElem?_eq_getElem hlt]
      have hget : (src.map (·.toNat)).getD (n * dims.kPadded + k) 0 =
          src[n * dims.kPadded + k].toNat := by
        rw [getD_eq_getElem _ _ (by rwa [length_map]), getElem_map]
      have hzero : src[n * dims.kPadded + k].toNat = 0 ↔ src[n * dims.kPadded + k] = 0 := by
        rw [← UInt16.toNat_inj]
        rfl
      simp only [hin, if_false, l1ForwardIndex_tilePos hn hk, lift_ok, ok_bind, hvalue, hget, ne_eq,
        hzero]
      by_cases hz : src[n * dims.kPadded + k] = 0
      · simp only [hz, not_true_eq_false, if_false, Option.toList_none, append_nil]
        rfl
      · simp only [hz, not_false_iff, if_true, Option.toList_some]
        rfl
  rw [foldlM_collect hround, ok_bind, nil_append]
  rfl

theorem verifyPaddingZerosBytes_eq {src dst : Bytes} (h : Tiled dims src dst) :
    verifyPaddingZerosBytes dims dst =
      lift (FormatError.collect (paddingProblems dims (src.map (·.toNat)))) := by
  rw [verifyPaddingZerosBytes, verifyPaddingZerosElems_eq (h.map _), map_map]
  rfl

theorem rangeProblems_eq_nil {what : String} {limit : ℕ} {values : List ℕ} :
    rangeProblems what limit values = [] ↔ ∀ value ∈ values, value < limit := by
  rw [rangeProblems, filterMap_eq_nil_iff]
  constructor
  · intro h value hvalue
    obtain ⟨pos, hpos, rfl⟩ := getElem_of_mem hvalue
    by_contra hle
    have hnone := h (values[pos], pos) (by simp [mem_zipIdx_iff_getElem?, hpos])
    simp only [not_lt.mp hle, if_true, reduceCtorEq] at hnone
  · rintro h ⟨value, pos⟩ hmem
    exact if_neg (not_le.mpr (h value (fst_mem_of_mem_zipIdx hmem)))

end Padding

/-! ### Lanes -/

section Lanes

variable {α β : Type}

/-- Lists of one length and lists of another are packed into each other, and nothing is lost. -/
structure Packs (fits : α → Prop) (p m : ℕ) (enc : List α → List β) (dec : List β → List α) : Prop where
  enc_spec : ∀ l, l.length = p → (∀ a ∈ l, fits a) → (enc l).length = m ∧ dec (enc l) = l
  dec_spec : ∀ l, l.length = m → (dec l).length = p ∧ (∀ a ∈ dec l, fits a) ∧ enc (dec l) = l

namespace Packs

variable {fits : α → Prop} {p m : ℕ} {enc : List α → List β} {dec : List β → List α}

protected theorem id (p : ℕ) : Packs (fun _ : α => True) p p id id where
  enc_spec _ hl _ := ⟨hl, rfl⟩
  dec_spec _ hl := ⟨hl, fun _ _ => trivial, rfl⟩

theorem congr {enc' : List α → List β} {dec' : List β → List α} (h : Packs fits p m enc dec)
    (henc : ∀ l, l.length = p → (∀ a ∈ l, fits a) → enc' l = enc l)
    (hdec : ∀ l, l.length = m → dec' l = dec l) : Packs fits p m enc' dec' where
  enc_spec l hl hfits := by
    obtain ⟨hlen, hback⟩ := h.enc_spec l hl hfits
    rw [henc l hl hfits]
    exact ⟨hlen, (hdec _ hlen).trans hback⟩
  dec_spec l hl := by
    obtain ⟨hlen, hfits, hback⟩ := h.dec_spec l hl
    rw [hdec l hl]
    exact ⟨hlen, hfits, (henc _ hlen hfits).trans hback⟩

/-- **Packing digits**: the digits of a number in one base are packed as its bytes. -/
theorem digits {value : α → ℕ} {ofValue : ℕ → α} {bits count : ℕ} (hof : ∀ a, ofValue (value a) = a)
    (hvalue : ∀ d < 2 ^ bits, value (ofValue d) = d) (hpow : (2 ^ bits) ^ count = 256 ^ m)
    (hpos : 0 < bits) :
    Packs (fun a => value a < 2 ^ bits) count m
      (fun l => (Digits.split 256 m (Nat.ofDigits (2 ^ bits) (l.map value))).map Nat.toUInt8)
      (fun l => (Digits.split (2 ^ bits) count (Nat.ofDigits 256 (l.map (·.toNat)))).map ofValue) where
  enc_spec l hl hfits := by
    have hdigits : ∀ d ∈ l.map value, d < 2 ^ bits := fun d hd => by
      obtain ⟨a, ha, rfl⟩ := mem_map.mp hd
      exact hfits a ha
    have hlt := Digits.ofDigits_lt (Nat.one_lt_two_pow hpos.ne') hdigits
    have hsplit := Digits.split_ofDigits hdigits
    rw [length_map, hl] at hlt hsplit
    have hbytes : ∀ d ∈ Digits.split 256 m (Nat.ofDigits (2 ^ bits) (l.map value)),
        (Nat.toUInt8 d).toNat = d := fun d hd => by
      simpa using Nat.mod_eq_of_lt (Digits.lt_of_mem_split (by decide) hd)
    have hself := (map_congr_left hbytes).trans (map_id' _)
    refine ⟨by rw [length_map, Digits.length_split], ?_⟩
    simp only [map_map, Function.comp_def, hself, Digits.ofDigits_split, ← hpow,
      Nat.mod_eq_of_lt hlt, hsplit]
    exact (map_congr_left fun a _ => hof a).trans (map_id' _)
  dec_spec l hl := by
    have hdigits : ∀ d ∈ l.map (·.toNat), d < 256 := fun d hd => by
      obtain ⟨v, -, rfl⟩ := mem_map.mp hd
      exact v.toNat_lt
    have hlt := Digits.ofDigits_lt (by decide) hdigits
    have hsplit := Digits.split_ofDigits hdigits
    rw [length_map, hl] at hlt hsplit
    have hvalues : ∀ d ∈ Digits.split (2 ^ bits) count (Nat.ofDigits 256 (l.map (·.toNat))),
        value (ofValue d) = d := fun d hd => hvalue d (Digits.lt_of_mem_split (Nat.two_pow_pos bits) hd)
    refine ⟨by rw [length_map, Digits.length_split], fun a ha => ?_, ?_⟩
    · obtain ⟨d, hd, rfl⟩ := mem_map.mp ha
      rw [hvalues d hd]
      exact Digits.lt_of_mem_split (Nat.two_pow_pos bits) hd
    · have hself := (map_congr_left hvalues).trans (map_id' _)
      simp only [map_map, Function.comp_def, hself, Digits.ofDigits_split, hpow,
        Nat.mod_eq_of_lt hlt, hsplit]
      exact (map_congr_left fun v _ => UInt8.ofNat_toNat).trans (map_id' _)

/-- **Packing block by block.** -/
theorem blockwise (h : Packs fits p m enc dec) (count : ℕ) :
    Packs fits (count * p) (count * m) (blockwise p count enc) (blockwise m count dec) where
  enc_spec l hl hfits :=
    ⟨length_blockwise hl fun b hb hin => (h.enc_spec b hb fun a ha => hfits a (hin a ha)).1,
      blockwise_blockwise hl fun b hb hin => h.enc_spec b hb fun a ha => hfits a (hin a ha)⟩
  dec_spec l hl := by
    refine ⟨length_blockwise hl fun b hb _ => (h.dec_spec b hb).1, fun a ha => ?_,
      blockwise_blockwise hl fun b hb _ => ⟨(h.dec_spec b hb).1, (h.dec_spec b hb).2.2⟩⟩
    obtain ⟨i, hi, ha⟩ := mem_blockwise ha
    exact (h.dec_spec _ (length_block (hl ▸ Nat.mul_le_mul_right m hi))).2.1 a ha

end Packs

theorem getD_block {p : ℕ} {l : List α} {i j : ℕ} {a : α} (hj : j < p) :
    l.getD (i * p + j) a = (block p l i).getD j a := by
  rw [getD_eq_getElem?_getD, getD_eq_getElem?_getD, getElem?_block hj]

/-! ### Nibbles -/

def packNibbleLane (lane : Bytes) : Bytes :=
  (List.range 4).map fun m => lane.getD (2 * m) 0 ||| lane.getD (2 * m + 1) 0 <<< 4

def expandNibbleLane (lane : Bytes) : Bytes :=
  (List.range 4).flatMap fun m =>
    let byte := lane.getD m 0
    [byte &&& 0x0F, byte >>> 4]

theorem nibbles_of_lt : ∀ x < 16, ∀ y < 16,
    (UInt8.ofNat x ||| UInt8.ofNat y <<< 4) &&& (0x0F : UInt8) = UInt8.ofNat x ∧
      (UInt8.ofNat x ||| UInt8.ofNat y <<< 4) >>> 4 = UInt8.ofNat y := by
  decide

theorem byte_of_nibbles : ∀ b < 256,
    (UInt8.ofNat b &&& (0x0F : UInt8)) ||| (UInt8.ofNat b >>> 4) <<< 4 = UInt8.ofNat b ∧
      (UInt8.ofNat b &&& (0x0F : UInt8)).toNat < 16 ∧ (UInt8.ofNat b >>> 4).toNat < 16 := by
  decide +kernel

theorem nibblePair {x y : UInt8} (hx : x.toNat < 16) (hy : y.toNat < 16) :
    (x ||| y <<< 4) &&& (0x0F : UInt8) = x ∧ (x ||| y <<< 4) >>> 4 = y := by
  have hpair := nibbles_of_lt x.toNat hx y.toNat hy
  rwa [UInt8.ofNat_toNat, UInt8.ofNat_toNat] at hpair

theorem nibbleSplit (b : UInt8) :
    (b &&& (0x0F : UInt8)) ||| (b >>> 4) <<< 4 = b ∧ (b &&& (0x0F : UInt8)).toNat < 16 ∧
      (b >>> 4).toNat < 16 := by
  have hbyte := byte_of_nibbles b.toNat b.toNat_lt
  rwa [UInt8.ofNat_toNat] at hbyte

theorem map_getD_eq {l : List α} {n : ℕ} (hl : l.length = n) (a : α) :
    (List.range n).map (l.getD · a) = l := by
  refine ext_getElem (by simp [hl]) fun i hi hi' => ?_
  rw [getElem_map, getElem_range, getD_eq_getElem _ _ hi']

/-- **Eight nibbles** are four bytes. -/
theorem nibbleLane : Packs (fun v : UInt8 => v.toNat < 16) 8 4 packNibbleLane expandNibbleLane where
  enc_spec l hl hfits := by
    refine ⟨rfl, Eq.trans ?_ (map_getD_eq hl 0)⟩
    have hpair : ∀ i j, i < 8 → j < 8 → (l.getD i 0 ||| l.getD j 0 <<< 4) &&& (0x0F : UInt8) = l.getD i 0 ∧
        (l.getD i 0 ||| l.getD j 0 <<< 4) >>> 4 = l.getD j 0 := by
      intro i j hi hj
      have hfit : ∀ k < 8, (l.getD k 0).toNat < 16 := fun k hk => by
        rw [getD_eq_getElem _ _ (hl ▸ hk)]
        exact hfits _ (getElem_mem _)
      exact nibblePair (hfit i hi) (hfit j hj)
    change [(l.getD 0 0 ||| l.getD 1 0 <<< 4) &&& (0x0F : UInt8), (l.getD 0 0 ||| l.getD 1 0 <<< 4) >>> 4,
      (l.getD 2 0 ||| l.getD 3 0 <<< 4) &&& (0x0F : UInt8), (l.getD 2 0 ||| l.getD 3 0 <<< 4) >>> 4,
      (l.getD 4 0 ||| l.getD 5 0 <<< 4) &&& (0x0F : UInt8), (l.getD 4 0 ||| l.getD 5 0 <<< 4) >>> 4,
      (l.getD 6 0 ||| l.getD 7 0 <<< 4) &&& (0x0F : UInt8), (l.getD 6 0 ||| l.getD 7 0 <<< 4) >>> 4] =
      [l.getD 0 0, l.getD 1 0, l.getD 2 0, l.getD 3 0, l.getD 4 0, l.getD 5 0, l.getD 6 0, l.getD 7 0]
    rw [(hpair 0 1 (by decide) (by decide)).1, (hpair 0 1 (by decide) (by decide)).2,
      (hpair 2 3 (by decide) (by decide)).1, (hpair 2 3 (by decide) (by decide)).2,
      (hpair 4 5 (by decide) (by decide)).1, (hpair 4 5 (by decide) (by decide)).2,
      (hpair 6 7 (by decide) (by decide)).1, (hpair 6 7 (by decide) (by decide)).2]
  dec_spec l hl := by
    refine ⟨rfl, fun v hv => ?_, Eq.trans ?_ (map_getD_eq hl 0)⟩
    · obtain ⟨m, -, hv⟩ := mem_flatMap.mp hv
      obtain ⟨-, hlow, hhigh⟩ := nibbleSplit (l.getD m 0)
      rcases mem_cons.mp hv with rfl | hv
      · exact hlow
      · obtain rfl := mem_singleton.mp hv
        exact hhigh
    · exact map_congr_left fun m hm => by
        have hm : m < 4 := mem_range.mp hm
        interval_cases m <;> exact (nibbleSplit _).1

theorem packNibbleTile_eq : packNibbleTile = blockwise 8 32 packNibbleLane := by
  funext tile
  refine flatMap_congr fun lane _ => map_congr_left fun m hm => ?_
  have hm : m < 4 := mem_range.mp hm
  change tile.getD (lane * 8 + 2 * m) 0 ||| tile.getD (lane * 8 + 2 * m + 1) 0 <<< 4 = _
  rw [getD_block (by omega), add_assoc, getD_block (by omega)]

theorem expandNibbleTile_eq : expandNibbleTile = blockwise 4 32 expandNibbleLane := by
  funext tile
  refine flatMap_congr fun lane _ => flatMap_congr fun m hm => ?_
  have hm : m < 4 := mem_range.mp hm
  change [tile.getD (lane * 4 + m) 0 &&& (0x0F : UInt8), tile.getD (lane * 4 + m) 0 >>> 4] = _
  rw [getD_block hm]

/-! ### Bit planes -/

def packPlaneLane (bits p : ℕ) (lane : List UInt16) : Bytes :=
  let acc := (List.range 8).foldl (fun acc j => acc ||| (lane.getD j 0).toNat <<< (j * bits)) 0
  (List.range p).map fun b => (acc >>> (b * 8)).toUInt8

def expandPlaneLane (bits p : ℕ) (lane : Bytes) : List UInt16 :=
  let acc := (List.range p).foldl (fun acc b => acc ||| (lane.getD b 0).toNat <<< (b * 8)) 0
  (List.range 8).map fun j => (acc >>> (j * bits) &&& (2 ^ bits - 1)).toUInt16

theorem packPlaneLane_eq {bits p : ℕ} {lane : List UInt16} (hl : lane.length = 8)
    (hfits : ∀ v ∈ lane, v.toNat < 2 ^ bits) :
    packPlaneLane bits p lane =
      (Digits.split 256 p (Nat.ofDigits (2 ^ bits) (lane.map (·.toNat)))).map Nat.toUInt8 := by
  have hdigit : ∀ j < 8, (lane.getD j 0).toNat < 2 ^ bits := fun j hj => by
    rw [getD_eq_getElem _ _ (hl ▸ hj)]
    exact hfits _ (getElem_mem _)
  have hacc : (List.range 8).map (fun j => (lane.getD j 0).toNat) = lane.map (·.toNat) := by
    conv_rhs => rw [← map_getD_eq hl 0, map_map]
    rfl
  rw [packPlaneLane, Digits.foldl_or_eq hdigit, hacc, Digits.split_eq_map, map_map]
  refine map_congr_left fun b _ => ?_
  have hpow : 256 ^ b = 2 ^ (b * 8) := by
    rw [Nat.mul_comm, Nat.pow_mul]
  rw [Function.comp_apply, hpow, Nat.shiftRight_eq_div_pow]
  exact UInt8.toNat_inj.mp (by simp)

theorem expandPlaneLane_eq {bits p : ℕ} {lane : Bytes} (hl : lane.length = p) :
    expandPlaneLane bits p lane =
      (Digits.split (2 ^ bits) 8 (Nat.ofDigits 256 (lane.map (·.toNat)))).map Nat.toUInt16 := by
  have hdigit : ∀ b < p, (lane.getD b 0).toNat < 2 ^ 8 := fun b _ => (lane.getD b 0).toNat_lt
  have hacc : (List.range p).map (fun b => (lane.getD b 0).toNat) = lane.map (·.toNat) := by
    conv_rhs => rw [← map_getD_eq hl 0, map_map]
    rfl
  rw [expandPlaneLane, Digits.foldl_or_eq hdigit, hacc, Digits.split_two_pow, map_map]
  rfl

/-- **Eight values** of a few bits fill as many bytes. -/
theorem planeLane {bits : ℕ} (hpos : 0 < bits) (hle : bits ≤ 16) :
    Packs (fun v : UInt16 => v.toNat < 2 ^ bits) 8 bits (packPlaneLane bits bits)
      (expandPlaneLane bits bits) := by
  have hpow : (2 ^ bits) ^ 8 = 256 ^ bits := by
    rw [← Nat.pow_mul, Nat.mul_comm, Nat.pow_mul]
  have hvalue : ∀ d < 2 ^ bits, (Nat.toUInt16 d).toNat = d := fun d hd => by
    simpa using Nat.mod_eq_of_lt (hd.trans_le (Nat.pow_le_pow_right (by decide) hle))
  exact (Packs.digits (fun v => UInt16.ofNat_toNat) hvalue hpow hpos).congr
    (fun l hl hfits => packPlaneLane_eq hl hfits) fun l hl => expandPlaneLane_eq hl

theorem packPlaneTile_eq (bits p : ℕ) : packPlaneTile bits p = blockwise 8 32 (packPlaneLane bits p) := by
  funext tile
  refine flatMap_congr fun lane _ => ?_
  have hget : ∀ j < 8, tile.getD (lane * 8 + j) 0 = (block 8 tile lane).getD j 0 := fun j hj => getD_block hj
  have hacc : (List.range 8).foldl (fun acc j => acc ||| (tile.getD (lane * 8 + j) 0).toNat <<< (j * bits)) 0 =
      (List.range 8).foldl (fun acc j => acc ||| ((block 8 tile lane).getD j 0).toNat <<< (j * bits)) 0 :=
    foldl_ext _ _ _ fun acc j hj => by rw [hget j (mem_range.mp hj)]
  exact congrArg (fun acc : ℕ => (List.range p).map fun b => (acc >>> (b * 8)).toUInt8) hacc

theorem expandPlaneTile_eq (bits p : ℕ) :
    expandPlaneTile bits p = blockwise p 32 (expandPlaneLane bits p) := by
  funext tile
  refine flatMap_congr fun lane _ => ?_
  have hacc : (List.range p).foldl (fun acc b => acc ||| (tile.getD (lane * p + b) 0).toNat <<< (b * 8)) 0 =
      (List.range p).foldl (fun acc b => acc ||| ((block p tile lane).getD b 0).toNat <<< (b * 8)) 0 :=
    foldl_ext _ _ _ fun acc b hb => by rw [getD_block (mem_range.mp hb)]
  exact congrArg (fun acc : ℕ => (List.range 8).map fun j =>
    (acc >>> (j * bits) &&& (2 ^ bits - 1)).toUInt16) hacc

end Lanes

/-! ### Codecs -/

section Codecs

variable {α β : Type} {dims : PaddedDims}

/-- A codec of the elements of a weight: `fits` says which elements can be packed, `value` is the
value of an element and `len` is the length of what is packed. -/
structure TileCodec (dims : PaddedDims) (pack : List α → Except (Fault FormatError) (List β))
    (unpack : List β → Except (Fault FormatError) (List α))
    (verify : List β → Except (Fault FormatError) Unit) (fits : α → Prop) (value : α → ℕ)
    (len : ℕ) : Prop where
  exists_pack_iff : ∀ x, (∃ y, pack x = .ok y) ↔
    x.length = dims.nPadded * dims.kPadded ∧ ∀ a ∈ x, fits a
  length_of_pack : ∀ x y, pack x = .ok y → y.length = len
  unpack_pack : ∀ x y, pack x = .ok y → unpack y = .ok x
  pack_unpack : ∀ y, y.length = len → ∃ x, unpack y = .ok x ∧ pack x = .ok y
  verify_ok_iff : ∀ x y, unpack y = .ok x → (verify y = .ok () ↔
    ∀ n < dims.nPadded, ∀ k < dims.kPadded, (dims.n ≤ n ∨ dims.k ≤ k) →
      (x.map value)[n * dims.kPadded + k]? = some 0)
  verify_eq : ∀ x y, unpack y = .ok x →
    verify y = lift (FormatError.collect (paddingProblems dims (x.map value)))

variable {pack : List α → Except (Fault FormatError) (List β)}
  {unpack : List β → Except (Fault FormatError) (List α)}
  {verify : List β → Except (Fault FormatError) Unit} {fits : α → Prop} {value : α → ℕ} {len : ℕ}
  {enc : List α → List β} {dec : List β → List α}

/-- **The order of the tiles and a packing** of the tiles make a codec. -/
theorem tileCodec_of (zero : α) (hpacks : Packs fits (dims.nPadded * dims.kPadded) len enc dec)
    (hpack : ∀ x y, pack x = .ok y ↔ (∀ a ∈ x, fits a) ∧ ∃ tiled, Tiled dims x tiled ∧ y = enc tiled)
    (hunpack : ∀ x y, unpack y = .ok x ↔ y.length = len ∧ Tiled dims x (dec y))
    (hverify : ∀ x y, y.length = len → Tiled dims x (dec y) →
      verify y = lift (FormatError.collect (paddingProblems dims (x.map value)))) :
    TileCodec dims pack unpack verify fits value len := by
  have heq : ∀ x y, unpack y = .ok x →
      verify y = lift (FormatError.collect (paddingProblems dims (x.map value))) := by
    intro x y hy
    obtain ⟨hlen, htiled⟩ := (hunpack x y).mp hy
    exact hverify x y hlen htiled
  have hspec : ∀ x tiled, (∀ a ∈ x, fits a) → Tiled dims x tiled →
      (enc tiled).length = len ∧ dec (enc tiled) = tiled := fun x tiled hfits htiled =>
    hpacks.enc_spec tiled htiled.length_dst fun a ha => hfits a (htiled.mem_iff.mp ha)
  refine ⟨fun x => ⟨?_, ?_⟩, ?_, ?_, ?_, ?_, heq⟩
  · rintro ⟨y, hy⟩
    obtain ⟨hfits, tiled, htiled, -⟩ := (hpack x y).mp hy
    exact ⟨htiled.length_src, hfits⟩
  · rintro ⟨hlen, hfits⟩
    obtain ⟨tiled, htiled⟩ := exists_tiled_dst hlen zero
    exact ⟨enc tiled, (hpack _ _).mpr ⟨hfits, tiled, htiled, rfl⟩⟩
  · intro x y hy
    obtain ⟨hfits, tiled, htiled, rfl⟩ := (hpack x y).mp hy
    exact (hspec x tiled hfits htiled).1
  · intro x y hy
    obtain ⟨hfits, tiled, htiled, rfl⟩ := (hpack x y).mp hy
    obtain ⟨hlen, hdec⟩ := hspec x tiled hfits htiled
    exact (hunpack _ _).mpr ⟨hlen, hdec.symm ▸ htiled⟩
  · intro y hy
    obtain ⟨hlen, hfits, henc⟩ := hpacks.dec_spec y hy
    obtain ⟨x, hx⟩ := exists_tiled_src hlen zero
    exact ⟨x, (hunpack x y).mpr ⟨hy, hx⟩,
      (hpack x y).mpr ⟨fun a ha => hfits a (hx.mem_iff.mpr ha), dec y, hx, henc.symm⟩⟩
  · intro x y hy
    have hlen : (x.map value).length = dims.nPadded * dims.kPadded := by
      rw [length_map]
      exact ((hunpack x y).mp hy).2.length_src
    rw [heq x y hy, lift_eq_ok, collect_eq_ok, paddingProblems_eq_nil hlen]

theorem bytes_codec (dims : PaddedDims) :
    TileCodec dims (l1PackBytes dims) (l1UnpackBytes dims) (verifyPaddingZerosBytes dims)
      (fun _ => True) (·.toNat) (dims.nPadded * dims.kPadded) := by
  refine tileCodec_of 0 (Packs.id _) (fun x y => ?_) (fun x y => ?_)
    fun x y _ h => verifyPaddingZerosBytes_eq h
  · rw [l1PackBytes, l1Forward_eq_ok]
    exact ⟨fun h => ⟨fun _ _ => trivial, y, h, rfl⟩, fun ⟨_, _, h, heq⟩ => heq ▸ h⟩
  · rw [l1UnpackBytes, l1Inverse_eq_ok]
    exact ⟨fun h => ⟨h.length_dst, h⟩, fun h => h.2⟩

theorem halfs_codec (dims : PaddedDims) :
    TileCodec dims (l1PackHalfs dims) (l1UnpackHalfs dims) (verifyPaddingZerosElems dims)
      (fun _ => True) (·.toNat) (dims.nPadded * dims.kPadded) := by
  refine tileCodec_of 0 (Packs.id _) (fun x y => ?_) (fun x y => ?_)
    fun x y _ h => verifyPaddingZerosElems_eq h
  · rw [l1PackHalfs, l1ForwardElems, l1Forward_eq_ok]
    exact ⟨fun h => ⟨fun _ _ => trivial, y, h, rfl⟩, fun ⟨_, _, h, heq⟩ => heq ▸ h⟩
  · rw [l1UnpackHalfs, l1InverseElems, l1Inverse_eq_ok]
    exact ⟨fun h => ⟨h.length_dst, h⟩, fun h => h.2⟩

theorem nibbles_codec (dims : PaddedDims) :
    TileCodec dims (l1PackNibbles dims) (l1UnpackNibbles dims) (verifyPaddingZerosNibbles dims)
      (·.toNat < 16) (·.toNat) (dims.nPadded * dims.kPadded / 2) := by
  have htotal := tileCount_eq dims
  have heven : dims.nPadded * dims.kPadded % 2 = 0 := by omega
  have hhalf : dims.nPadded * dims.kPadded / 2 = dims.tileCount * 128 := by omega
  have hpacks : Packs (fun v : UInt8 => v.toNat < 16) (dims.nPadded * dims.kPadded)
      (dims.nPadded * dims.kPadded / 2) (blockwise 256 dims.tileCount packNibbleTile)
      (blockwise 128 dims.tileCount expandNibbleTile) := by
    rw [packNibbleTile_eq, expandNibbleTile_eq, hhalf, ← htotal]
    exact (nibbleLane.blockwise 32).blockwise dims.tileCount
  have hexpand : ∀ what tiled z, expandNibbles dims what tiled = .ok z ↔
      tiled.length = dims.nPadded * dims.kPadded / 2 ∧
        z = blockwise 128 dims.tileCount expandNibbleTile tiled := by
    intro what tiled z
    simp only [expandNibbles, expectLen, bind_eq_ok, lift_eq_ok, ensure_eq_ok, pure_eq_ok]
    constructor
    · rintro ⟨_, -, _, hlen, rfl⟩
      exact ⟨hlen, flatMap_chunksExact (by decide) (hlen.trans hhalf) _⟩
    · rintro ⟨hlen, rfl⟩
      exact ⟨(), heven, (), hlen, flatMap_chunksExact (by decide) (hlen.trans hhalf) _⟩
  refine tileCodec_of 0 hpacks (fun x y => ?_) (fun x y => ?_) fun x y hlen h => ?_
  · simp only [l1PackNibbles, expectLen, bind_eq_ok, lift_eq_ok, ensure_eq_ok, pure_eq_ok,
      FormatError.collect_eq_ok, rangeProblems_eq_nil, forall_mem_map, l1PackBytes,
      l1Forward_eq_ok]
    constructor
    · rintro ⟨_, -, _, -, _, hfits, tiled, htiled, rfl⟩
      exact ⟨hfits, tiled, htiled,
        flatMap_chunksExact (by decide) (htiled.length_dst.trans htotal.symm) _⟩
    · rintro ⟨hfits, tiled, htiled, rfl⟩
      exact ⟨(), htiled.length_src, (), heven, (), hfits, tiled, htiled,
        flatMap_chunksExact (by decide) (htiled.length_dst.trans htotal.symm) _⟩
  · simp only [l1UnpackNibbles, bind_eq_ok, hexpand, l1UnpackBytes, l1Inverse_eq_ok]
    constructor
    · rintro ⟨_, ⟨hlen, rfl⟩, h⟩
      exact ⟨hlen, h⟩
    · rintro ⟨hlen, h⟩
      exact ⟨_, ⟨hlen, rfl⟩, h⟩
  · rw [verifyPaddingZerosNibbles, (hexpand _ _ _).mpr ⟨hlen, rfl⟩, ok_bind,
      verifyPaddingZerosBytes_eq h]

theorem planes_codec (dims : PaddedDims) {bits : ℕ} (hbits : bits ∈ [2, 3, 5, 6]) :
    TileCodec dims (l1PackPlanes dims bits) (l1UnpackPlanes dims bits)
      (verifyPaddingZerosPlanes dims bits) (·.toNat < 2 ^ bits) (·.toNat)
      (dims.tileCount * (bits * 32)) := by
  have htotal := tileCount_eq dims
  have hpos : 0 < bits ∧ bits ≤ 16 := by
    revert bits
    decide
  have hplanes : Packing.checkedBitPlanes bits = .ok (.bitPlanes bits) := by
    refine if_pos ?_
    simpa using hbits
  have hper : (Packing.bitPlanes bits).bytesPerLane = bits := by
    change (8 * bits + 7) / 8 = bits
    omega
  have htile : (Packing.bitPlanes bits).tileBytes = bits * 32 := by
    rw [Packing.tileBytes, hper]
    rfl
  have hpacks : Packs (fun v : UInt16 => v.toNat < 2 ^ bits) (dims.nPadded * dims.kPadded)
      (dims.tileCount * (bits * 32)) (blockwise 256 dims.tileCount (packPlaneTile bits bits))
      (blockwise (bits * 32) dims.tileCount (expandPlaneTile bits bits)) := by
    rw [packPlaneTile_eq, expandPlaneTile_eq, ← htotal, Nat.mul_comm bits 32]
    exact ((planeLane hpos.1 hpos.2).blockwise 32).blockwise dims.tileCount
  have hexpand : ∀ tiled z, l1UnpackPlanesToElems dims bits tiled = .ok z ↔
      tiled.length = dims.tileCount * (bits * 32) ∧
        z = blockwise (bits * 32) dims.tileCount (expandPlaneTile bits bits) tiled := by
    intro tiled z
    simp only [l1UnpackPlanesToElems, hplanes, lift_ok, ok_bind, expectLen, htile, hper, bind_eq_ok,
      lift_eq_ok, ensure_eq_ok, pure_eq_ok]
    constructor
    · rintro ⟨_, hlen, rfl⟩
      exact ⟨hlen, flatMap_chunksExact (by omega) hlen _⟩
    · rintro ⟨hlen, rfl⟩
      exact ⟨(), hlen, flatMap_chunksExact (by omega) hlen _⟩
  refine tileCodec_of 0 hpacks (fun x y => ?_) (fun x y => ?_) fun x y hlen h => ?_
  · simp only [l1PackPlanes, hplanes, lift_ok, ok_bind, expectLen, hper, bind_eq_ok, lift_eq_ok,
      ensure_eq_ok, pure_eq_ok, FormatError.collect_eq_ok, rangeProblems_eq_nil, forall_mem_map,
      l1ForwardElems, l1Forward_eq_ok]
    constructor
    · rintro ⟨_, -, _, hfits, tiled, htiled, rfl⟩
      exact ⟨hfits, tiled, htiled,
        flatMap_chunksExact (by decide) (htiled.length_dst.trans htotal.symm) _⟩
    · rintro ⟨hfits, tiled, htiled, rfl⟩
      exact ⟨(), htiled.length_src, (), hfits, tiled, htiled,
        flatMap_chunksExact (by decide) (htiled.length_dst.trans htotal.symm) _⟩
  · simp only [l1UnpackPlanes, bind_eq_ok, hexpand, l1InverseElems, l1Inverse_eq_ok]
    constructor
    · rintro ⟨_, ⟨hlen, rfl⟩, h⟩
      exact ⟨hlen, h⟩
    · rintro ⟨hlen, h⟩
      exact ⟨_, ⟨hlen, rfl⟩, h⟩
  · rw [verifyPaddingZerosPlanes, (hexpand _ _).mpr ⟨hlen, rfl⟩, ok_bind, verifyPaddingZerosElems_eq h]

/-- **The codecs of tiles lose nothing**: positions and elements correspond to each other, the tiles
of sixteen rows hold their elements, and each codec packs what fits, unpacks every list of the
packed length, and finds what is in the padding. -/
theorem tile_codecs (dims : PaddedDims) :
    (∀ n k pos, l1ForwardIndex dims n k = .ok pos ↔ l1InverseIndex dims pos = .ok (n, k)) ∧
    (∀ n k, (∃ pos, l1ForwardIndex dims n k = .ok pos) ↔ n < dims.nPadded ∧ k < dims.kPadded) ∧
    (∀ pos, (∃ r, l1InverseIndex dims pos = .ok r) ↔ pos < 256 * dims.tileCount) ∧
    (∀ nb, (∃ span, rowBlockTiles dims nb = .ok span) ↔ nb < dims.nPadded / 16) ∧
    (∀ nb start stop n k pos, rowBlockTiles dims nb = .ok (start, stop) →
      l1ForwardIndex dims n k = .ok pos → (start * 256 ≤ pos ∧ pos < stop * 256 ↔ n / 16 = nb)) ∧
    (∀ n k tile, tileIndex dims n k = .ok tile ↔ tileOrigin dims tile = .ok (n, k)) ∧
    (∀ n k, (∃ tile, tileIndex dims n k = .ok tile) ↔
      n % 16 = 0 ∧ k % 16 = 0 ∧ n < dims.nPadded ∧ k < dims.kPadded) ∧
    (∀ tile, (∃ r, tileOrigin dims tile = .ok r) ↔ tile < dims.tileCount) ∧
    TileCodec dims (l1PackBytes dims) (l1UnpackBytes dims) (verifyPaddingZerosBytes dims)
      (fun _ => True) (·.toNat) (dims.nPadded * dims.kPadded) ∧
    TileCodec dims (l1PackHalfs dims) (l1UnpackHalfs dims) (verifyPaddingZerosElems dims)
      (fun _ => True) (·.toNat) (dims.nPadded * dims.kPadded) ∧
    TileCodec dims (l1PackNibbles dims) (l1UnpackNibbles dims) (verifyPaddingZerosNibbles dims)
      (·.toNat < 16) (·.toNat) (dims.nPadded * dims.kPadded / 2) ∧
    ∀ bits ∈ [2, 3, 5, 6],
      TileCodec dims (l1PackPlanes dims bits) (l1UnpackPlanes dims bits)
        (verifyPaddingZerosPlanes dims bits) (·.toNat < 2 ^ bits) (·.toNat)
        (dims.tileCount * (bits * 32)) :=
  ⟨fun _ _ _ => l1ForwardIndex_eq_ok_iff, fun _ _ => exists_l1ForwardIndex,
    fun _ => exists_l1InverseIndex,
    fun _ => ⟨fun ⟨_, h⟩ => (rowBlockTiles_eq_ok.mp h).1, fun h => ⟨_, rowBlockTiles_eq_ok.mpr ⟨h, rfl⟩⟩⟩,
    fun _ _ _ _ _ _ => rowBlockTiles_iff, fun _ _ _ => tileIndex_eq_ok_iff, fun _ _ => exists_tileIndex,
    fun _ => ⟨fun ⟨_, h⟩ => (tileOrigin_eq_ok.mp h).1, fun h => ⟨_, tileOrigin_eq_ok.mpr ⟨h, rfl⟩⟩⟩,
    bytes_codec dims, halfs_codec dims, nibbles_codec dims, fun _ => planes_codec dims⟩

end Codecs

end R9v.Format

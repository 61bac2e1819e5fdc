import Mathlib
import Daos.Object.EcLayout

/-!
# Evenly distributed EC single values — `obj_ec_singv_*` (`object/obj_ec.h`)

A single value of an EC object is stored whole on one data target while it is at most
`OBJ_EC_SINGV_EVENDIST_SZ(k)` bytes (`obj_ec_singv_one_tgt`, which the server tests before it
asks for a layout); a larger one is spread over the `k` data targets. Every target gets a cell
of `obj_ec_singv_cell_bytes` bytes, the ceiling of `g / k` rounded up to 8, and
`obj_ec_singv_local_sz` says which bytes of the global value data target `t` holds: the cell
`[t * cell, (t + 1) * cell)`, except on the last data target, which holds what is left,
`g - (k - 1) * cell` bytes, and records what it lacks of a full cell as padding.

**What is proved** (`objEcSingvLocalSz_evendist`): for every EC class and every size above the
threshold whose cell `roundup` computes without wrapping, the pieces of the data targets, in
target order, are exactly the bytes `[0, g)`, the last target's share is computed without
wrapping, and every target's size plus padding is the cell. Two facts carry it. The threshold
grows fast enough: `(k - 1)(8k - 1)` stays below it for every `k ≤ OBJ_EC_MAX_K`
(`objEcSingvEvendistSz_enough`), and from that bound on the `k - 1` full cells fit in `g`
(`pred_mul_singvCell_le`). And the 64-bit cell is the exact one (`objEcSingvCellBytes_toNat`).

The proviso on `roundup` matters only with one data target, where the ceiling is `g` itself and
`roundup(g, 8)` wraps for `g ≥ 2^64 - 7`. With two data targets or more the ceiling is at most
`2^63` and nothing wraps; the EC classes of `obj_class_def.c` (`OC_EC_DEF`) all have two, four,
eight or sixteen.

**What is modelled, and how.** The sizes and offsets are `uint64_t` and the padding `uint32_t`,
as in `struct obj_ec_singv_local`, with the C conversions: `data_tgt_nr` is a `uint32_t` that
each 64-bit expression widens, and the padding is the 64-bit difference truncated to 32 bits.
The `D_ASSERT` on the target index is the `none` of an `Option`. An sgl is given by its
`daos_sgl_buf_size`.
-/

namespace Daos.Object

/-- `OBJ_EC_SINGV_EVENDIST_SZ`: a single value of at most this many bytes is stored on one data
target. The macro's `int` arithmetic does not overflow for a 16-bit `e_k`. -/
def objEcSingvEvendistSz (dataTgtNr : ℕ) : ℕ := (dataTgtNr / 8 + 1) * 4096

/-- `OBJ_EC_SINGV_CELL_ALIGN`. -/
def objEcSingvCellAlign : UInt64 := 8

/-- `DAOS_REC_ANY`: the record size is not known. -/
def daosRecAny : UInt64 := 0

/-- `struct obj_ec_singv_local`: where a target's share starts in the global value, how long it
is, and how many padding bytes make it a full cell. -/
structure ObjEcSingvLocal where
  eslOff : UInt64
  eslSize : UInt64
  eslBytesPad : UInt32
deriving DecidableEq, Repr

/-- `obj_ec_singv_one_tgt`, the sgl given by its buffer size (`none` for a NULL sgl). -/
def objEcSingvOneTgt (iodSize : UInt64) (sglBufSize : Option UInt64) (oca : DaosEcAttr) :
    Bool :=
  let size := objEcSingvEvendistSz (objEcDataTgtNr oca)
  (iodSize != daosRecAny && decide (iodSize.toNat ≤ size)) ||
    match sglBufSize with
    | some bufSize => decide (bufSize.toNat ≤ size)
    | none => false

/-- `roundup` of `daos/common.h` on `uint64_t`: `x + (y - 1)` wraps. -/
def roundupU64 (x y : UInt64) : UInt64 := (x + (y - 1)) / y * y

/-- `obj_ec_singv_cell_bytes`: the ceiling of `rec_gsize / data_tgt_nr`, rounded up to
`OBJ_EC_SINGV_CELL_ALIGN`. -/
def objEcSingvCellBytes (recGsize : UInt64) (oca : DaosEcAttr) : UInt64 :=
  let dataTgtNr : UInt32 := oca.eK.toUInt32
  let cellSize := recGsize / dataTgtNr.toUInt64
  let cellSize := if recGsize % dataTgtNr.toUInt64 != 0 then cellSize + 1 else cellSize
  roundupU64 cellSize objEcSingvCellAlign

/-- `obj_ec_singv_local_sz`. A parity target's share of an update follows the data, so its
offset counts from `rec_gsize`; on a fetch it counts in cells. -/
def objEcSingvLocalSz (recGsize : UInt64) (oca : DaosEcAttr) (tgtIdx : UInt32) (update : Bool) :
    Option ObjEcSingvLocal :=
  let dataTgtNr : UInt32 := oca.eK.toUInt32
  -- `D_ASSERT(tgt_idx < obj_ec_tgt_nr(oca))`
  if tgtIdx.toNat < objEcTgtNr oca then
    let cellSize := objEcSingvCellBytes recGsize oca
    let eslOff :=
      if decide (dataTgtNr ≤ tgtIdx) && update then
        recGsize + (tgtIdx - dataTgtNr).toUInt64 * cellSize
      else tgtIdx.toUInt64 * cellSize
    if tgtIdx = dataTgtNr - 1 then
      let eslSize := recGsize - (dataTgtNr - 1).toUInt64 * cellSize
      some { eslOff, eslSize, eslBytesPad := (cellSize - eslSize).toUInt32 }
    else some { eslOff, eslSize := cellSize, eslBytesPad := 0 }
  else none

/-! ## The cell in exact arithmetic -/

/-- The cell of a single value of `g` bytes over `k` data targets, in exact arithmetic. -/
def singvCell (g k : ℕ) : ℕ := roundup (g / k + if g % k = 0 then 0 else 1) 8

section Cell

variable {g k : ℕ}

/-- The ceiling of `g / k`, bracketed. -/
theorem singvCeil_bounds (hk : 0 < k) :
    g ≤ k * (g / k + if g % k = 0 then 0 else 1) ∧
      k * (g / k + if g % k = 0 then 0 else 1) < g + k := by
  have hdiv := Nat.div_add_mod g k
  have hmod := Nat.mod_lt g hk
  split
  · rename_i hzero
    rw [Nat.add_zero]
    omega
  · rename_i hpos
    rw [Nat.mul_add]
    omega

theorem le_mul_singvCell (hk : 0 < k) : g ≤ k * singvCell g k := by
  have hceil := (singvCeil_bounds (g := g) hk).1
  have hround : ∀ x, x ≤ roundup x 8 := fun x => by unfold roundup; omega
  exact le_trans hceil (Nat.mul_le_mul_left k (hround _))

theorem mul_singvCell_lt (hk : 0 < k) : k * singvCell g k < g + 8 * k := by
  have hceil := (singvCeil_bounds (g := g) hk).2
  have hround : ∀ x, roundup x 8 ≤ x + 7 := fun x => by unfold roundup; omega
  calc k * singvCell g k
      ≤ k * ((g / k + if g % k = 0 then 0 else 1) + 7) := Nat.mul_le_mul_left k (hround _)
    _ = k * (g / k + if g % k = 0 then 0 else 1) + 7 * k := by ring
    _ < g + 8 * k := by omega

/-- Past `(k - 1)(8k - 1)` bytes, the `k - 1` full cells fit in the value: the last target's
share `g - (k - 1) * cell` does not go below zero. -/
theorem pred_mul_singvCell_le (hk : 0 < k) (hg : (k - 1) * (8 * k - 1) ≤ g) :
    (k - 1) * singvCell g k ≤ g := by
  have hlt := mul_singvCell_lt (g := g) hk
  have hkg : (k - 1) * g + g = k * g := by
    obtain ⟨j, rfl⟩ : ∃ j, k = j + 1 := ⟨k - 1, by omega⟩
    simp only [Nat.add_sub_cancel]
    ring
  apply Nat.le_of_mul_le_mul_left _ hk
  calc k * ((k - 1) * singvCell g k)
      = (k - 1) * (k * singvCell g k) := by ring
    _ ≤ (k - 1) * (g + (8 * k - 1)) := Nat.mul_le_mul_left _ (by omega)
    _ = (k - 1) * g + (k - 1) * (8 * k - 1) := Nat.mul_add _ _ _
    _ ≤ (k - 1) * g + g := Nat.add_le_add_left hg _
    _ = k * g := hkg

end Cell

/-- The threshold grows fast enough with `k`, up to `OBJ_EC_MAX_K`. -/
theorem objEcSingvEvendistSz_enough :
    ∀ k, k ≤ objEcMaxK → (k - 1) * (8 * k - 1) ≤ objEcSingvEvendistSz k := by
  decide

/-! ## The 64-bit cell -/

/-- A remainder modulo `k` is only possible for `k ≥ 2`. -/
theorem two_le_of_mod_ne_zero {g k : ℕ} (hk : 1 ≤ k) (hr : ¬g % k = 0) : 2 ≤ k := by
  by_contra hlt
  exact hr (by rw [show k = 1 by omega, Nat.mod_one])

/-- The ceiling `obj_ec_singv_cell_bytes` computes before `roundup`: it only gets an increment
when the divisor is at least 2, far below the wrap. -/
theorem ceilU64_toNat {g d : UInt64} (hd : 1 ≤ d.toNat) :
    (if g % d != 0 then g / d + 1 else g / d).toNat =
      g.toNat / d.toNat + if g.toNat % d.toNat = 0 then 0 else 1 := by
  have hq : (g / d).toNat = g.toNat / d.toNat := UInt64.toNat_div g d
  by_cases hr : g.toNat % d.toNat = 0
  · have hr' : g % d = 0 := by
      apply UInt64.toNat_inj.mp
      rw [UInt64.toNat_mod, hr]
      rfl
    simp [hr, hr', hq]
  · have hr' : g % d ≠ 0 := by
      intro h
      apply hr
      rw [← UInt64.toNat_mod, h]
      rfl
    have hk2 := two_le_of_mod_ne_zero hd hr
    have hg := UInt64.toNat_lt g
    have hsmall : g.toNat / d.toNat + 1 < 2 ^ 64 :=
      lt_of_le_of_lt (Nat.add_le_add_right (Nat.div_le_div_left hk2 (by omega)) 1) (by omega)
    rw [if_pos (by simpa using hr'), if_neg hr, UInt64.toNat_add, hq]
    simpa using Nat.mod_eq_of_lt hsmall

/-- The ceiling plus the 7 that `roundup` adds stays below the wrap, with two data targets or
more, or below `2^64 - 7` bytes. -/
theorem singvCeil_add_lt {g k : ℕ} (hg : g < 2 ^ 64) (hk : 1 ≤ k)
    (hwrap : 2 ≤ k ∨ g + 7 < 2 ^ 64) :
    g / k + (if g % k = 0 then 0 else 1) + 7 < 2 ^ 64 := by
  split
  · rename_i hr
    rcases hwrap with hk2 | hsmall
    · have hhalf : g / k ≤ g / 2 := Nat.div_le_div_left hk2 (by omega)
      omega
    · have hone : g / k ≤ g := Nat.div_le_self _ _
      omega
  · rename_i hr
    have hhalf : g / k ≤ g / 2 := Nat.div_le_div_left (two_le_of_mod_ne_zero hk hr) (by omega)
    omega

theorem roundupU64_toNat {x y : UInt64} (hy : 0 < y.toNat)
    (hfit : x.toNat + (y.toNat - 1) < 2 ^ 64) :
    (roundupU64 x y).toNat = roundup x.toNat y.toNat := by
  have hsub : (y - 1).toNat = y.toNat - 1 :=
    UInt64.toNat_sub_of_le y 1 (UInt64.le_iff_toNat_le.mpr (by simp; omega))
  have hadd : (x + (y - 1)).toNat = x.toNat + (y.toNat - 1) := by
    rw [UInt64.toNat_add, hsub, Nat.mod_eq_of_lt hfit]
  have hmul : (x + (y - 1)).toNat / y.toNat * y.toNat < 2 ^ 64 :=
    lt_of_le_of_lt (Nat.div_mul_le_self _ _) (hadd ▸ hfit)
  unfold roundupU64 roundup
  rw [UInt64.toNat_mul, UInt64.toNat_div, Nat.mod_eq_of_lt hmul, hadd]

/-- The 64-bit cell is the exact one unless `roundup` wraps, which it can only do with one
data target. -/
theorem objEcSingvCellBytes_toNat {oca : DaosEcAttr} {g : UInt64} (hk : 1 ≤ objEcDataTgtNr oca)
    (hwrap : 2 ≤ objEcDataTgtNr oca ∨ g.toNat + 7 < 2 ^ 64) :
    (objEcSingvCellBytes g oca).toNat = singvCell g.toNat (objEcDataTgtNr oca) := by
  have hd : oca.eK.toUInt32.toUInt64.toNat = objEcDataTgtNr oca := by simp [objEcDataTgtNr]
  have hceil := ceilU64_toNat (g := g) (hd ▸ hk)
  rw [hd] at hceil
  have hfit := singvCeil_add_lt (UInt64.toNat_lt g) hk hwrap
  unfold objEcSingvCellBytes singvCell
  dsimp only
  rw [roundupU64_toNat (by decide) (by rw [hceil]; exact hfit), hceil]
  rfl

/-! ## The data targets' pieces -/

/-- The piece of data target `t` of a value of `g` bytes in cells of `c` bytes, in exact
arithmetic: a full cell, or on the last of `k` targets what is left of `g`, padded to a cell. -/
def singvDataLocal (g c k t : ℕ) : ObjEcSingvLocal :=
  if t + 1 = k then
    { eslOff := .ofNat (t * c), eslSize := .ofNat (g - (k - 1) * c),
      eslBytesPad := .ofNat (c - (g - (k - 1) * c)) }
  else { eslOff := .ofNat (t * c), eslSize := .ofNat c, eslBytesPad := 0 }

/-- `obj_ec_singv_local_sz` on a data target computes its piece, as long as the `k - 1` full
cells fit in the value and the `k` cells hold it. -/
theorem objEcSingvLocalSz_data {oca : EcClass} {g : UInt64} {c : ℕ}
    (hc : (objEcSingvCellBytes g oca.attr).toNat = c)
    (hlow : (objEcDataTgtNr oca.attr - 1) * c ≤ g.toNat)
    (hhigh : g.toNat ≤ objEcDataTgtNr oca.attr * c) {t : ℕ} (ht : t < objEcDataTgtNr oca.attr)
    (update : Bool) :
    objEcSingvLocalSz g oca.attr (UInt32.ofNat t) update =
      some (singvDataLocal g.toNat c (objEcDataTgtNr oca.attr) t) := by
  set k := objEcDataTgtNr oca.attr with hkdef
  have hkle : k ≤ 64 := oca.k_le
  have hk1 : 1 ≤ k := oca.k_pos
  have hK : oca.attr.eK.toUInt32.toNat = k := by simp [hkdef, objEcDataTgtNr]
  have htNat : (UInt32.ofNat t).toNat = t := UInt32.toNat_ofNat_of_lt' (by unfold UInt32.size; omega)
  have hpred : (oca.attr.eK.toUInt32 - 1).toNat = k - 1 := by
    rw [UInt32.toNat_sub_of_le _ _ (UInt32.le_iff_toNat_le.mpr (by rw [hK, UInt32.toNat_one]; omega)), hK]
    rfl
  have hprod : ((oca.attr.eK.toUInt32 - 1).toUInt64 * objEcSingvCellBytes g oca.attr).toNat =
      (k - 1) * c := by
    rw [UInt64.toNat_mul, UInt32.toNat_toUInt64, hpred, hc]
    exact Nat.mod_eq_of_lt (lt_of_le_of_lt hlow (UInt64.toNat_lt g))
  -- a data target's offset counts in cells, on an update as on a fetch
  have hoff : (if decide (oca.attr.eK.toUInt32 ≤ UInt32.ofNat t) && update then
      g + (UInt32.ofNat t - oca.attr.eK.toUInt32).toUInt64 * objEcSingvCellBytes g oca.attr
      else (UInt32.ofNat t).toUInt64 * objEcSingvCellBytes g oca.attr) = .ofNat (t * c) := by
    have hdata : ¬oca.attr.eK.toUInt32 ≤ UInt32.ofNat t := by
      rw [UInt32.le_iff_toNat_le, hK, htNat]
      omega
    rw [if_neg (by simp [hdata])]
    apply UInt64.toNat_inj.mp
    rw [UInt64.toNat_mul, UInt32.toNat_toUInt64, htNat, hc, UInt64.toNat_ofNat']
  have hlast : UInt32.ofNat t = oca.attr.eK.toUInt32 - 1 ↔ t + 1 = k := by
    rw [← UInt32.toNat_inj, htNat, hpred]
    omega
  unfold objEcSingvLocalSz singvDataLocal
  dsimp only
  have htgt : t < objEcTgtNr oca.attr := lt_of_lt_of_le ht (Nat.le_add_right _ _)
  rw [if_pos (by rw [htNat]; exact htgt), hoff]
  by_cases hl : t + 1 = k
  · have hsize : (g - (oca.attr.eK.toUInt32 - 1).toUInt64 * objEcSingvCellBytes g oca.attr) =
        .ofNat (g.toNat - (k - 1) * c) := by
      apply UInt64.toNat_inj.mp
      rw [UInt64.toNat_sub_of_le _ _ (UInt64.le_iff_toNat_le.mpr (hprod ▸ hlow)), hprod,
        UInt64.toNat_ofNat', Nat.mod_eq_of_lt (by have := UInt64.toNat_lt g; omega)]
    have hpad : (objEcSingvCellBytes g oca.attr - .ofNat (g.toNat - (k - 1) * c)).toUInt32 =
        .ofNat (c - (g.toNat - (k - 1) * c)) := by
      have hle : g.toNat - (k - 1) * c ≤ c := by
        have : k * c = (k - 1) * c + c := by
          obtain ⟨j, hj⟩ : ∃ j, k = j + 1 := ⟨k - 1, by omega⟩
          rw [hj, Nat.add_sub_cancel, Nat.succ_mul]
        omega
      have hsz : (UInt64.ofNat (g.toNat - (k - 1) * c)).toNat = g.toNat - (k - 1) * c :=
        UInt64.toNat_ofNat_of_lt' (by have := UInt64.toNat_lt g; unfold UInt64.size; omega)
      apply UInt32.toNat_inj.mp
      rw [UInt64.toNat_toUInt32, UInt64.toNat_sub_of_le _ _ (UInt64.le_iff_toNat_le.mpr
        (by rw [hsz, hc]; exact hle)), hsz, hc, UInt32.toNat_ofNat']
    rw [if_pos (hlast.mpr hl), if_pos hl, hsize, hpad]
  · rw [if_neg (fun h => hl (hlast.mp h)), if_neg hl]
    congr
    apply UInt64.toNat_inj.mp
    rw [hc, UInt64.toNat_ofNat', Nat.mod_eq_of_lt (hc ▸ UInt64.toNat_lt _)]

/-- The fields of a data target's piece, as numbers, when the cells bracket the value and the
padding fits in 32 bits. -/
theorem singvDataLocal_toNat {g c k t : ℕ} (hg : g < 2 ^ 64) (hc : c < 2 ^ 64) (ht : t < k)
    (hlow : (k - 1) * c ≤ g) (hhigh : g ≤ k * c) (hpad : k * c < g + 2 ^ 32) :
    (singvDataLocal g c k t).eslOff.toNat = t * c ∧
      (singvDataLocal g c k t).eslSize.toNat = (if t + 1 = k then g - (k - 1) * c else c) ∧
      (singvDataLocal g c k t).eslSize.toNat + (singvDataLocal g c k t).eslBytesPad.toNat = c := by
  have hkc : k * c = (k - 1) * c + c := by
    obtain ⟨j, hj⟩ : ∃ j, k = j + 1 := ⟨k - 1, by omega⟩
    rw [hj, Nat.add_sub_cancel, Nat.succ_mul]
  have htc : t * c ≤ (k - 1) * c := Nat.mul_le_mul_right _ (by omega)
  have hoff : (UInt64.ofNat (t * c)).toNat = t * c :=
    UInt64.toNat_ofNat_of_lt' (by unfold UInt64.size; omega)
  unfold singvDataLocal
  split
  · rename_i hl
    have hsize : (UInt64.ofNat (g - (k - 1) * c)).toNat = g - (k - 1) * c :=
      UInt64.toNat_ofNat_of_lt' (by unfold UInt64.size; omega)
    have hpadNat : (UInt32.ofNat (c - (g - (k - 1) * c))).toNat = c - (g - (k - 1) * c) :=
      UInt32.toNat_ofNat_of_lt' (by unfold UInt32.size; omega)
    refine ⟨hoff, hsize, ?_⟩
    · rw [hsize, hpadNat]
      omega
  · rename_i hl
    have hsize : (UInt64.ofNat c).toNat = c := UInt64.toNat_ofNat_of_lt' hc
    refine ⟨hoff, hsize, ?_⟩
    rw [hsize]
    rfl

/-- Full cells laid one after the other cover the bytes from 0 on. -/
theorem flatten_range'_cells (c n : ℕ) :
    ((List.range n).map fun t => List.range' (t * c) c).flatten = List.range' 0 (n * c) := by
  induction n with
  | zero => simp
  | succ n ih =>
    rw [List.range_succ, List.map_append, List.flatten_append, ih, List.map_singleton,
      List.flatten_singleton, Nat.succ_mul]
    simpa using @List.range'_append 0 (n * c) c 1

/-- Above the threshold, the pieces `obj_ec_singv_local_sz` gives the data targets, in target
order, are exactly the bytes `[0, g)` of the value; the `k - 1` full cells fit in `g`, so the
last target's share does not wrap; and every target's size and padding make up a cell. This
holds whenever `roundup` does not wrap in `obj_ec_singv_cell_bytes`, which is every class with
two data targets or more, and every value below `2^64 - 7` bytes. -/
theorem objEcSingvLocalSz_evendist (oca : EcClass) (g : UInt64) (update : Bool)
    (hg : objEcSingvEvendistSz (objEcDataTgtNr oca.attr) < g.toNat)
    (hwrap : 2 ≤ objEcDataTgtNr oca.attr ∨ g.toNat + 7 < 2 ^ 64) :
    ∃ locs : List ObjEcSingvLocal,
      (List.range (objEcDataTgtNr oca.attr)).map
          (fun t => objEcSingvLocalSz g oca.attr (UInt32.ofNat t) update) = locs.map some ∧
      (locs.map fun loc => List.range' loc.eslOff.toNat loc.eslSize.toNat).flatten =
        List.range g.toNat ∧
      (objEcDataTgtNr oca.attr - 1) * (objEcSingvCellBytes g oca.attr).toNat ≤ g.toNat ∧
      ∀ loc ∈ locs,
        loc.eslSize.toNat + loc.eslBytesPad.toNat = (objEcSingvCellBytes g oca.attr).toNat := by
  set k := objEcDataTgtNr oca.attr with hkdef
  set c := (objEcSingvCellBytes g oca.attr).toNat with hcdef
  have hk1 : 1 ≤ k := oca.k_pos
  have hkle : k ≤ objEcMaxK := oca.k_le
  have hcell : c = singvCell g.toNat k := objEcSingvCellBytes_toNat hk1 hwrap
  -- the threshold puts `g` past `(k - 1)(8k - 1)`, where the cells bracket it
  have hthr : (k - 1) * (8 * k - 1) ≤ g.toNat :=
    le_trans (objEcSingvEvendistSz_enough k hkle) hg.le
  have hlow : (k - 1) * c ≤ g.toNat := hcell ▸ pred_mul_singvCell_le hk1 hthr
  have hhigh : g.toNat ≤ k * c := hcell ▸ le_mul_singvCell hk1
  have hpad : k * c < g.toNat + 2 ^ 32 := by
    have hlt : k * c < g.toNat + 8 * k := hcell ▸ mul_singvCell_lt hk1
    unfold objEcMaxK at hkle
    omega
  have hfields := fun t (ht : t < k) =>
    singvDataLocal_toNat (UInt64.toNat_lt g) (UInt64.toNat_lt _) ht hlow hhigh hpad
  refine ⟨(List.range k).map (singvDataLocal g.toNat c k), ?_, ?_, hlow, ?_⟩
  · rw [List.map_map]
    apply List.map_congr_left
    intro t ht
    exact objEcSingvLocalSz_data rfl hlow hhigh (List.mem_range.mp ht) update
  · -- the first `k - 1` targets hold full cells, the last one the rest of the value
    have hsplit : List.range k = List.range (k - 1) ++ [k - 1] := by
      rw [show List.range k = List.range (k - 1 + 1) by rw [Nat.sub_add_cancel hk1],
        List.range_succ]
    have hfull : (List.range (k - 1)).map (fun t => List.range'
        (singvDataLocal g.toNat c k t).eslOff.toNat (singvDataLocal g.toNat c k t).eslSize.toNat) =
        (List.range (k - 1)).map fun t => List.range' (t * c) c := by
      apply List.map_congr_left
      intro t ht
      have ht' := List.mem_range.mp ht
      obtain ⟨hoff, hsize, -⟩ := hfields t (by omega)
      rw [hoff, hsize, if_neg (by omega)]
    obtain ⟨hoff, hsize, -⟩ := hfields (k - 1) (by omega)
    rw [List.map_map, hsplit, List.map_append, List.flatten_append]
    simp only [Function.comp_def]
    rw [hfull, flatten_range'_cells, List.map_singleton, List.flatten_singleton, hoff, hsize,
      if_pos (by omega), List.range_eq_range']
    simpa [Nat.add_sub_cancel' hlow] using @List.range'_append 0 ((k - 1) * c) (g.toNat - (k - 1) * c) 1
  · intro loc hloc
    obtain ⟨t, ht, rfl⟩ := List.mem_map.mp hloc
    exact (hfields t (List.mem_range.mp ht)).2.2

theorem objEcSingvLocalSz_evendist_4p2 :
    objEcSingvEvendistSz (objEcDataTgtNr ecClass4p2.attr) < (10000 : UInt64).toNat ∧
      (2 ≤ objEcDataTgtNr ecClass4p2.attr ∨ (10000 : UInt64).toNat + 7 < 2 ^ 64) ∧
      ∃ locs : List ObjEcSingvLocal,
        (List.range (objEcDataTgtNr ecClass4p2.attr)).map
            (fun t => objEcSingvLocalSz 10000 ecClass4p2.attr (UInt32.ofNat t) true) =
          locs.map some ∧
        (locs.map fun loc => List.range' loc.eslOff.toNat loc.eslSize.toNat).flatten =
          List.range (10000 : UInt64).toNat ∧
        (objEcDataTgtNr ecClass4p2.attr - 1) * (objEcSingvCellBytes 10000 ecClass4p2.attr).toNat ≤
          (10000 : UInt64).toNat ∧
        ∀ loc ∈ locs, loc.eslSize.toNat + loc.eslBytesPad.toNat =
          (objEcSingvCellBytes 10000 ecClass4p2.attr).toNat :=
  ⟨by decide, Or.inl (by decide),
    objEcSingvLocalSz_evendist ecClass4p2 10000 true (by decide) (Or.inl (by decide))⟩

/- 10000 bytes over a `4+2` class: cells of 2504 bytes, and the last data target holds the
remaining 2488 with 16 bytes of padding. -/
example : (List.range 4).map (fun t => objEcSingvLocalSz 10000 ecClass4p2.attr (UInt32.ofNat t) true) =
    [some ⟨0, 2504, 0⟩, some ⟨2504, 2504, 0⟩, some ⟨5008, 2504, 0⟩, some ⟨7512, 2488, 16⟩] := by
  decide

end Daos.Object

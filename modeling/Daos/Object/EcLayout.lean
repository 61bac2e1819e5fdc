import Mathlib
import Daos.Object.EcRecx

/-!
# EC index translation and shard rotation (`object/obj_ec.h`, `object/obj_layout.c`)

An EC object of class `k+p` with cells of `e_len` records maps DAOS record index `x` to data
target `obj_ec_tgt_of_recx_idx x` and, there, to VOS index `obj_ec_idx_daos2vos x`;
`obj_ec_idx_vos2daos` maps a VOS index found on a data target back, as
`obj_ec_recx_vos2daos` does for the extents a shard reports. Within a redundancy group the
`k + p` logical shards are rotated by a start that depends on the dkey hash
(`obj_ec_grp_start`) to give physical shards (`obj_ec_shard_idx_by_layout_ver`);
`obj_ec_shard_off_by_layout_ver` maps a physical shard back to its logical index.

**What is proved** (`objEc_translation_roundtrip`): both index translations undo each
other, the way back lands on the target it came from, and the shard rotation is a bijection
of `[0, k + p)` with `obj_ec_shard_off_by_layout_ver` as its inverse. The index maps are the
library's lane maps (`Stripe.lane`, `Stripe.laneIndex`, `Stripe.laneOf`).

**What is modelled.** The macros are computed in `ℕ`. Where `obj_ec_recx_vos2daos` calls
them, every operand is `uint64_t`; with DAOS indices below `2^63` no
expression exceeds the DAOS index it computes, so none wraps. Shard numbers are below
`k + p < 2^17`. `obj_ec_grp_start` asserts `grp_size > 0`, which holds for an EC class
(`e_k ≥ 1`).
-/

namespace Daos.Object

/-- `obj_ec_idx_vos2daos`: the DAOS record index of VOS index `vosIdx` on data target
`tgtIdx`. -/
def objEcIdxVos2daos (vosIdx stripeRecNr eLen tgtIdx : ℕ) : ℕ :=
  vosIdx / eLen * stripeRecNr + tgtIdx * eLen + vosIdx % eLen

/-- `obj_ec_tgt_nr`: the shards of one redundancy group. -/
def objEcTgtNr (oca : DaosEcAttr) : ℕ := oca.eK.toNat + oca.eP.toNat

/-- `obj_ec_grp_start`: the physical shard of logical shard `0` for a dkey hash; layout
version `0` does not rotate. -/
def objEcGrpStart (layoutGlVer : ℕ) (hash grpSize : ℕ) : ℕ :=
  if layoutGlVer = 0 then 0 else hash % grpSize

/-- `obj_ec_shard_idx_by_layout_ver`: logical shard `tIdx` to physical shard. -/
def objEcShardIdxByLayoutVer (layoutVer hash : ℕ) (oca : DaosEcAttr) (tIdx : ℕ) : ℕ :=
  (objEcGrpStart layoutVer hash (objEcTgtNr oca) + tIdx) % objEcTgtNr oca

/-- `obj_ec_shard_off_by_layout_ver`: physical shard `tgtIdx` to logical shard. -/
def objEcShardOffByLayoutVer (layoutVer hash : ℕ) (oca : DaosEcAttr) (tgtIdx : ℕ) : ℕ :=
  (tgtIdx + objEcTgtNr oca - objEcGrpStart layoutVer hash (objEcTgtNr oca)) % objEcTgtNr oca

theorem objEcIdxVos2daos_eq_laneOf (k len v t : ℕ) :
    objEcIdxVos2daos v (k * len) len t = Stripe.laneOf k len t v := rfl

/-! ### Rotation of a group -/

section Rotation

variable {n g : ℕ}

/-- Rotating forward by `g` and back returns every position of `[0, n)`. -/
theorem rotate_back (hg : g < n) {i : ℕ} (hi : i < n) : ((g + i) % n + n - g) % n = i := by
  rcases Nat.lt_or_ge (g + i) n with hlt | hge
  · rw [Nat.mod_eq_of_lt hlt, show g + i + n - g = i + n by omega, Nat.add_mod_right,
      Nat.mod_eq_of_lt hi]
  · -- the forward rotation wrapped once
    have hwrap : (g + i) % n = g + i - n := by
      rw [Nat.mod_eq_sub_mod hge, Nat.mod_eq_of_lt (by omega)]
    rw [hwrap, show g + i - n + n - g = i by omega, Nat.mod_eq_of_lt hi]

/-- Rotating back by `g` and forward returns every position of `[0, n)`. -/
theorem rotate_forth (hg : g < n) {j : ℕ} (hj : j < n) : (g + (j + n - g) % n) % n = j := by
  rcases Nat.lt_or_ge j g with hlt | hge
  · rw [Nat.mod_eq_of_lt (by omega : j + n - g < n), show g + (j + n - g) = j + n by omega,
      Nat.add_mod_right, Nat.mod_eq_of_lt hj]
  · have hback : (j + n - g) % n = j - g := by
      rw [Nat.mod_eq_sub_mod (by omega), show j + n - g - n = j - g by omega,
        Nat.mod_eq_of_lt (by omega)]
    rw [hback, show g + (j - g) = j by omega, Nat.mod_eq_of_lt hj]

end Rotation

theorem objEcGrpStart_lt {grpSize : ℕ} (hpos : 0 < grpSize) (layoutGlVer hash : ℕ) :
    objEcGrpStart layoutGlVer hash grpSize < grpSize := by
  unfold objEcGrpStart
  split_ifs
  · exact hpos
  · exact Nat.mod_lt hash hpos

section Shards

variable {oca : DaosEcAttr} (hk : 1 ≤ oca.eK.toNat) (layoutVer hash : ℕ)
include hk

theorem objEcTgtNr_pos : 0 < objEcTgtNr oca := by
  unfold objEcTgtNr
  omega

theorem objEcShardOffByLayoutVer_idx {i : ℕ} (hi : i < objEcTgtNr oca) :
    objEcShardOffByLayoutVer layoutVer hash oca (objEcShardIdxByLayoutVer layoutVer hash oca i) = i :=
  rotate_back (objEcGrpStart_lt (objEcTgtNr_pos hk) layoutVer hash) hi

theorem objEcShardIdxByLayoutVer_off {j : ℕ} (hj : j < objEcTgtNr oca) :
    objEcShardIdxByLayoutVer layoutVer hash oca (objEcShardOffByLayoutVer layoutVer hash oca j) = j :=
  rotate_forth (objEcGrpStart_lt (objEcTgtNr_pos hk) layoutVer hash) hj

/-- The logical-to-physical shard rotation is a bijection of the group's shards. -/
theorem objEcShardIdxByLayoutVer_bijOn :
    Set.BijOn (objEcShardIdxByLayoutVer layoutVer hash oca) (Set.Iio (objEcTgtNr oca))
      (Set.Iio (objEcTgtNr oca)) := by
  have hn := objEcTgtNr_pos hk
  have hmaps : ∀ f : ℕ → ℕ, (∀ i, f i = f i % objEcTgtNr oca) →
      Set.MapsTo f (Set.Iio (objEcTgtNr oca)) (Set.Iio (objEcTgtNr oca)) := by
    intro f hf i _
    rw [Set.mem_Iio, hf i]
    exact Nat.mod_lt _ hn
  have hinv : Set.InvOn (objEcShardOffByLayoutVer layoutVer hash oca)
      (objEcShardIdxByLayoutVer layoutVer hash oca) (Set.Iio (objEcTgtNr oca))
      (Set.Iio (objEcTgtNr oca)) := by
    constructor
    · intro i hi
      exact objEcShardOffByLayoutVer_idx hk layoutVer hash hi
    · intro j hj
      exact objEcShardIdxByLayoutVer_off hk layoutVer hash hj
  exact hinv.bijOn (hmaps _ fun _ => (Nat.mod_mod _ _).symm)
    (hmaps _ fun _ => (Nat.mod_mod _ _).symm)

end Shards

/-- **EC address translation round-trips.** For an EC class with `k ≥ 1` data cells of
`len ≥ 1` records (stripe `S = k * len`): a DAOS index below `2^63` comes back from its VOS
index on its own target; a VOS index on data target `t < k` whose DAOS index is below `2^63`
comes back from it, and that DAOS index lies on target `t`; and for every layout version
and dkey hash the shard rotation is undone by `obj_ec_shard_off_by_layout_ver` on
`[0, k + p)`, on which it is a bijection. -/
theorem objEc_translation_roundtrip (oca : DaosEcAttr) (hk : 1 ≤ oca.eK.toNat)
    (hl : 1 ≤ oca.eLen.toNat) :
    let k := oca.eK.toNat
    let len := oca.eLen.toNat
    (∀ x : ℕ, x < 2 ^ 63 →
      objEcIdxVos2daos (objEcIdxDaos2vos x (k * len) len) (k * len) len
        (objEcTgtOfRecxIdx x (k * len) len) = x) ∧
    (∀ v t : ℕ, t < k → objEcIdxVos2daos v (k * len) len t < 2 ^ 63 →
      objEcIdxDaos2vos (objEcIdxVos2daos v (k * len) len t) (k * len) len = v ∧
        objEcTgtOfRecxIdx (objEcIdxVos2daos v (k * len) len t) (k * len) len = t) ∧
    (∀ layoutVer hash i : ℕ, i < objEcTgtNr oca →
      objEcShardOffByLayoutVer layoutVer hash oca
        (objEcShardIdxByLayoutVer layoutVer hash oca i) = i) ∧
    (∀ layoutVer hash : ℕ, Set.BijOn (objEcShardIdxByLayoutVer layoutVer hash oca)
      (Set.Iio (objEcTgtNr oca)) (Set.Iio (objEcTgtNr oca))) := by
  intro k len
  refine ⟨fun x _ => ?_, fun v t ht _ => ?_, fun layoutVer hash i hi => ?_,
    fun layoutVer hash => ?_⟩
  · -- the DAOS index is its lane's position at its lane index
    rw [objEcIdxDaos2vos_eq_laneIndex, objEcTgtOfRecxIdx_eq_lane, objEcIdxVos2daos_eq_laneOf]
    exact Stripe.laneOf_lane_laneIndex hl x
  · rw [objEcIdxVos2daos_eq_laneOf, objEcIdxDaos2vos_eq_laneIndex, objEcTgtOfRecxIdx_eq_lane]
    exact ⟨Stripe.laneIndex_laneOf hl ht v, Stripe.lane_laneOf hl ht v⟩
  · exact objEcShardOffByLayoutVer_idx hk layoutVer hash hi
  · exact objEcShardIdxByLayoutVer_bijOn hk layoutVer hash

/-- The round trip at the class `4+2` with cells of `8` records. -/
theorem objEc_translation_roundtrip_4p2 :
    1 ≤ (4 : UInt16).toNat ∧ 1 ≤ (8 : UInt32).toNat ∧
      objEcIdxVos2daos (objEcIdxDaos2vos 77 32 8) 32 8 (objEcTgtOfRecxIdx 77 32 8) = 77 :=
  ⟨by decide, by decide,
    (objEc_translation_roundtrip ⟨4, 2, 8⟩ (by decide) (by decide)).1 77 (by decide)⟩

end Daos.Object

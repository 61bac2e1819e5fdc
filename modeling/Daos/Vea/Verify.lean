import Daos.Lib.Keyed
import Daos.Lib.Intervals
import Daos.Vea.Bitmap

/-!
# Verifying an allocation against the free extents (`vea/vea_util.c`)

`vea_verify_alloc` of an extent asks whether its blocks are free: it returns 1 when they are,
0 when they are allocated, and an error when the extent is partly free. `verify_alloc_extent`
probes the tree of free extents, keyed by offset, for the last extent starting at or before the
extent's offset (`BTR_PROBE_LE`), then for the first starting at or after it (`BTR_PROBE_GE`), and
classifies each with `ext_overlapping`: apart, holding the extent, or overlapping it.

The tree is modelled by what `dbtree_fetch` reads of it, its records in key order, the probes
being `Keyed.lastLe` and `Keyed.firstGe`. `ext_overlapping` takes the extent to be held when it
starts inside a free extent and is no longer than it, which is not enough for an extent that
starts after the free one: such an extent that runs past the free one's end is answered 1 too
(`veaVerifyAlloc_runs_past`).
-/

namespace Daos.Vea

/-- `VEA_HINT_OFF_INVAL`. -/
def veaHintOffInval : ℕ := 0

/-- `struct vea_free_extent`. -/
structure FreeExtent where
  vfeBlkOff : ℕ
  vfeBlkCnt : ℕ
deriving DecidableEq, Repr

/-- The blocks of an extent, as an interval. -/
def FreeExtent.ival (vfe : FreeExtent) : Ival ℕ :=
  ⟨vfe.vfeBlkOff, vfe.vfeBlkOff + vfe.vfeBlkCnt - 1⟩

/-- `verify_free_entry`: the key an extent is stored under, when it is given, is its offset; the
offset is not `VEA_HINT_OFF_INVAL`, and the count is not zero. -/
def verifyFreeEntry (off : Option ℕ) (vfe : FreeExtent) : ℤ :=
  if off.any (· ≠ vfe.vfeBlkOff) then -derInval
  else if vfe.vfeBlkOff = veaHintOffInval then -derInval
  else if vfe.vfeBlkCnt = 0 then -derInval
  else 0

/-- `ext_overlapping`: 0 when the extents are apart, 1 when `ext1` holds `ext2`, `-DER_INVAL`
when they overlap otherwise. The ends are sums of 64-bit offsets. -/
def extOverlapping (ext1 ext2 : FreeExtent) : ℤ :=
  if (ext1.vfeBlkOff + ext1.vfeBlkCnt) % 2 ^ 64 ≤ ext2.vfeBlkOff ∨
      (ext2.vfeBlkOff + ext2.vfeBlkCnt) % 2 ^ 64 ≤ ext1.vfeBlkOff then 0
  else if ext1.vfeBlkOff ≤ ext2.vfeBlkOff ∧ ext1.vfeBlkCnt ≥ ext2.vfeBlkCnt then 1
  else -derInval

/-- The `BTR_PROBE_GE` round of `verify_alloc_extent`: the first free extent at or after the
extent's offset. -/
def verifyAllocGe (tree : List (ℕ × FreeExtent)) (vfe : FreeExtent) : ℤ :=
  match Keyed.firstGe Prod.fst vfe.vfeBlkOff tree with
  | none => 0
  | some (key, ext) =>
    let rc := verifyFreeEntry (some key) ext
    if rc ≠ 0 then rc else extOverlapping ext vfe

/-- `verify_alloc_extent`: the `BTR_PROBE_LE` round, then, when it found nothing or an extent
apart, the `BTR_PROBE_GE` round. -/
def verifyAllocExtent (tree : List (ℕ × FreeExtent)) (off cnt : ℕ) : ℤ :=
  let vfe : FreeExtent := ⟨off, cnt⟩
  let rc := verifyFreeEntry none vfe
  if rc ≠ 0 then rc
  else
    match Keyed.lastLe Prod.fst off tree with
    | none => verifyAllocGe tree vfe
    | some (_, (key, ext)) =>
      let rc := verifyFreeEntry (some key) ext
      if rc ≠ 0 then rc
      else
        let rc := extOverlapping ext vfe
        if rc ≠ 0 then rc else verifyAllocGe tree vfe

/-- `vea_verify_alloc` of an extent (`is_bitmap` false), on the chosen tree of free extents. -/
def veaVerifyAlloc (tree : List (ℕ × FreeExtent)) (off cnt : ℕ) : ℤ :=
  verifyAllocExtent tree off cnt

/-- A free extent of blocks 1 to 10, and the extent of blocks 6 to 15: it starts inside the free
extent and is no longer, so `vea_verify_alloc` answers it free, though blocks 11 to 15 are not in
any free extent. -/
theorem veaVerifyAlloc_runs_past :
    veaVerifyAlloc [(1, ⟨1, 10⟩)] 6 10 = 1 ∧
      ¬∃ p ∈ [((1 : ℕ), (⟨1, 10⟩ : FreeExtent))], (FreeExtent.ival ⟨6, 10⟩).Within p.2.ival :=
  ⟨by decide, by decide⟩

end Daos.Vea

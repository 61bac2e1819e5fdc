import Mathlib

/-!
# Bitmap chunks of the block allocator and their undo log (`vea/vea_alloc.c`)

A bitmap chunk keeps one bit per allocation unit of `vfb_class` blocks. `bitmap_set_range` sets
or clears the bits of a run of units inside a transaction: it first logs the bytes it is about to
change with `bitmap_tx_add_ptr`, which passes `umem_tx_add_ptr` a byte offset and a byte count
computed from the first bit and the number of bits, then changes the bits one by one
(`setbits64`, `clrbits64`). `setbit` of `<sys/param.h>` keeps bit `i` in byte `i / 8`, so the
bitmap is modelled as its list of bits and byte `k` is bits `8 k` to `8 k + 7`.

An aborted transaction puts the logged bytes back and leaves the others as the transaction wrote
them (`txAbort`). The bytes logged reach from the byte of the first bit for `bitmap_sz` bytes. The
count treats the first partial byte as holding `bit_at % 8` of the bits where it holds
`8 - bit_at % 8`, so for some runs that start in the upper half of a byte the last changed bits
lie past the logged bytes, and an abort leaves them changed (`bitmapSetRange_abort_keeps_bit`).

**What is modelled.** The chunk's `vfb_bitmap_sz` words are its list of bits; the transaction is
the one `bitmap_set_range` runs in when `vsi_umem` is set.
-/

namespace Daos.Vea

/-- `DER_INVAL`. -/
def derInval : ℤ := 1003

/-! ### Bits of a byte array (`include/daos/common.h`) -/

/-- `setbit_range` and `clrbit_range`: bits `start` to `end` set to `v`, one after another. -/
def setbitRange (bitmap : List Bool) (start end_ : ℕ) (v : Bool) : List Bool :=
  (List.range' start (end_ + 1 - start)).foldl (fun bm index => bm.set index v) bitmap

/-- `isset_range` and `isclr_range`: whether bits `start` to `end` are all `v`. -/
def isRange (bitmap : List Bool) (start end_ : ℕ) (v : Bool) : Bool :=
  (List.range' start (end_ + 1 - start)).all fun index => bitmap.getD index false == v

/-! ### The undo log of a transaction -/

/-- The bitmap an aborted transaction leaves: the bytes `off` to `off + sz - 1` that
`umem_tx_add_ptr` logged come back as they were `before`, the others keep what the transaction
wrote. -/
def txAbort (before after : List Bool) (off sz : ℕ) : List Bool :=
  after.mapIdx fun i b => if off ≤ i / 8 ∧ i / 8 < off + sz then before.getD i b else b

/-! ### `bitmap_tx_add_ptr` -/

/-- `bitmap_tx_add_ptr`: the byte offset and the byte count it logs for `bits_nr` bits from
`bit_at`. -/
def bitmapTxAddPtr (bitAt bitsNr : UInt32) : UInt32 × UInt32 :=
  let bitmapOff := bitAt / 8
  let bitmapSz : UInt32 := if bitAt % 8 ≠ 0 then 1 else 0
  let bitmapSz := if bitsNr > bitAt % 8 then bitmapSz + (bitsNr - bitAt % 8 + 7) / 8 else bitmapSz
  (bitmapOff, bitmapSz)

/-! ### `bitmap_set_range` -/

/-- `struct vea_free_bitmap`: the chunk's first block, its block count, its allocation class
and its bits. -/
structure FreeBitmap where
  vfbBlkOff : ℕ
  vfbBlkCnt : ℕ
  vfbClass : ℕ
  vfbBitmaps : List Bool
deriving DecidableEq, Repr

/-- `bitmap_set_range` in a transaction: the chunk with the bits of blocks `blk_off` to
`blk_off + blk_cnt - 1` cleared or set, and the byte offset and count it logged. -/
def bitmapSetRange (bitmap : FreeBitmap) (blkOff blkCnt : ℕ) (clear : Bool) :
    Except ℤ (FreeBitmap × UInt32 × UInt32) :=
  if blkOff < bitmap.vfbBlkOff ∨ blkOff + blkCnt > bitmap.vfbBlkOff + bitmap.vfbBlkCnt then
    .error (-derInval)
  else
    let bitAt := blkOff - bitmap.vfbBlkOff
    if bitAt % bitmap.vfbClass ≠ 0 then .error (-derInval)
    else if blkCnt % bitmap.vfbClass ≠ 0 then .error (-derInval)
    else
      let bitAt := bitAt / bitmap.vfbClass
      let bitsNr := blkCnt / bitmap.vfbClass
      -- the bits must all be set to be cleared, all clear to be set
      if !isRange bitmap.vfbBitmaps bitAt (bitAt + bitsNr - 1) clear then .error (-derInval)
      else
        let (off, sz) := bitmapTxAddPtr (UInt32.ofNat bitAt) (UInt32.ofNat bitsNr)
        .ok ({ bitmap with vfbBitmaps := setbitRange bitmap.vfbBitmaps bitAt (bitAt + bitsNr - 1) !clear },
          off, sz)

/-- A run of two units from the last bit of a byte: `bitmap_tx_add_ptr` logs one byte, the
abort puts back bit 7 and leaves bit 8 set. -/
theorem bitmapSetRange_abort_keeps_bit :
    bitmapSetRange ⟨0, 64, 1, List.replicate 64 false⟩ 7 2 false =
        .ok (⟨0, 64, 1, (List.replicate 64 false).set 7 true |>.set 8 true⟩, 0, 1) ∧
      txAbort (List.replicate 64 false) ((List.replicate 64 false).set 7 true |>.set 8 true) 0 1 =
        (List.replicate 64 false).set 8 true :=
  ⟨by decide, by decide⟩

end Daos.Vea

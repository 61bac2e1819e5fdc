import Daos.Vos.Evt.Remove

/-!
# The durable form of an extent-tree rectangle (`vos/evtree.c`, `vos/evt_priv.h`)

A leaf entry of an extent tree keeps its rectangle as `struct evt_rect_df`: the epoch, the low
offset, the width of the extent as a 48-bit length cut into a 32-bit high field and a 16-bit low
field, and a 16-bit minor epoch. `evt_rect_write` translates an in-memory `struct evt_rect` into
it when a record is inserted, and `evt_rect_read` translates it back each time a leaf entry is
read, after a restart too.

The minor epoch is remapped on the way. Its upper two bits say what wrote the record: `00` a write
of a transaction, up to `VOS_SUB_OP_MAX`; `01` a rebuild, from `EVT_REBUILD_MINOR_MIN` to
`EVT_REBUILD_MINOR_MAX`; `11` a removal record, `EVT_MINOR_EPC_MAX`. In memory the largest normal
write is `VOS_SUB_OP_MAX`, below every rebuild; on media it is `EVT_TX_MINOR_MAX_DF`, next to the
removal marker.

**What is proved.** The length keeps its low 48 bits (`evtLenRead_evtRectWrite`), and the minor
epoch comes back except `EVT_TX_MINOR_MAX_DF` itself, which reads as `VOS_SUB_OP_MAX`
(`evtMinorRead_evtMinorWrite`). So on the rectangles of `EvtRect.DfDomain` (a width of at most
`MAX_RECT_WIDTH`, a minor epoch of a write, a rebuild or a removal) the read undoes the write
(`evtRectRead_evtRectWrite`).

**What is modelled.** The in-memory rectangle is the `EvtRect` of the search, with natural-number
fields; `EvtRect.Fits` says they hold values of the C fields' types (`daos_off_t`, `daos_epoch_t`,
`uint16_t`), and the write truncates them as the assignments to `evt_rect_df` do.
`evt_rect_width` is computed in `uint64_t`, as `evtRectWidth` is, so a width needs no `ex_lo ≤
ex_hi`: the read computes `ex_hi` in `uint64_t` as well, and the wrap cancels.
-/

namespace Daos.Vos

/-- `VOS_SUB_OP_MAX`: `((uint16_t)-1) >> 2`, the largest minor epoch of a normal write. -/
def vosSubOpMax : ℕ := 65535 >>> 2

/-- `EVT_TX_MINOR_MAX_DF`: `(uint16_t)-2`, the stored form of `VOS_SUB_OP_MAX`. -/
def evtTxMinorMaxDf : UInt16 := 65534

/-- `MAX_RECT_WIDTH`: the 48-bit length bounds the width of a stored extent. -/
def maxRectWidth : UInt64 := ((1 : UInt64) <<< 48) - 1

/-- `struct evt_rect_df`. -/
structure EvtRectDf where
  rdEpc : UInt64
  rdLenHi : UInt32
  rdLenLo : UInt16
  rdMinorEpc : UInt16
  rdLo : UInt64
deriving DecidableEq, Repr

/-- `evt_rect_width`: `ex_hi - ex_lo + 1` in `daos_size_t`. -/
def evtRectWidth (rect : EvtRect) : UInt64 :=
  UInt64.ofNat rect.ex.hi - UInt64.ofNat rect.ex.lo + 1

/-- `evt_len_read`. -/
def evtLenRead (rin : EvtRectDf) : UInt64 :=
  (rin.rdLenHi.toUInt64 <<< 16) + rin.rdLenLo.toUInt64

/-- `evt_len_write`: the values of `rd_len_hi` and `rd_len_lo`. -/
def evtLenWrite (len : UInt64) : UInt32 × UInt16 :=
  ((len >>> 16).toUInt32, (len &&& 0xffff).toUInt16)

/-- `evt_ext_read`: `ex_hi` is computed in `uint64_t`. -/
def evtExtRead (rin : EvtRectDf) : EvtExtent :=
  ⟨rin.rdLo.toNat, (rin.rdLo + evtLenRead rin - 1).toNat⟩

/-- The minor epoch `evt_rect_read` reads. -/
def evtMinorRead (rdMinorEpc : UInt16) : ℕ :=
  if rdMinorEpc ≠ evtTxMinorMaxDf then rdMinorEpc.toNat else vosSubOpMax

/-- The minor epoch `evt_rect_write` stores. -/
def evtMinorWrite (rcMinorEpc : ℕ) : UInt16 :=
  if rcMinorEpc ≠ vosSubOpMax then UInt16.ofNat rcMinorEpc else evtTxMinorMaxDf

/-- `evt_rect_read`. -/
def evtRectRead (rin : EvtRectDf) : EvtRect :=
  { epc := rin.rdEpc.toNat
    minorEpc := evtMinorRead rin.rdMinorEpc
    ex := evtExtRead rin }

/-- `evt_rect_write`; every field of `rout` is set, so the result depends on `rin` only. -/
def evtRectWrite (rin : EvtRect) : EvtRectDf :=
  let len := evtLenWrite (evtRectWidth rin)
  { rdLenHi := len.1
    rdLenLo := len.2
    rdEpc := UInt64.ofNat rin.epc
    rdLo := UInt64.ofNat rin.ex.lo
    rdMinorEpc := evtMinorWrite rin.minorEpc }

/-- The fields of an `EvtRect` hold values of the types of `struct evt_rect`'s fields. -/
structure EvtRect.Fits (r : EvtRect) : Prop where
  lo : r.ex.lo < 2 ^ 64
  hi : r.ex.hi < 2 ^ 64
  epc : r.epc < 2 ^ 64
  minorEpc : r.minorEpc < 2 ^ 16

/-- The rectangles the durable form keeps: a width `evt_insert` stores as one record, and the
minor epoch of a transaction write, a rebuild or a removal. -/
structure EvtRect.DfDomain (r : EvtRect) : Prop where
  fits : r.Fits
  width : evtRectWidth r ≤ maxRectWidth
  minorEpc : r.minorEpc ≤ evtRebuildMinorMax ∨ r.minorEpc = evtMinorEpcMax

@[simp] theorem evtRectRead_epc (rin : EvtRectDf) : (evtRectRead rin).epc = rin.rdEpc.toNat := rfl

@[simp] theorem evtRectRead_minorEpc (rin : EvtRectDf) :
    (evtRectRead rin).minorEpc = evtMinorRead rin.rdMinorEpc := rfl

@[simp] theorem evtRectRead_ex (rin : EvtRectDf) : (evtRectRead rin).ex = evtExtRead rin := rfl

@[simp] theorem evtRectWrite_rdEpc (rin : EvtRect) :
    (evtRectWrite rin).rdEpc = UInt64.ofNat rin.epc := rfl

@[simp] theorem evtRectWrite_rdLo (rin : EvtRect) :
    (evtRectWrite rin).rdLo = UInt64.ofNat rin.ex.lo := rfl

@[simp] theorem evtRectWrite_rdMinorEpc (rin : EvtRect) :
    (evtRectWrite rin).rdMinorEpc = evtMinorWrite rin.minorEpc := rfl

theorem maxRectWidth_toNat : maxRectWidth.toNat = 2 ^ 48 - 1 := rfl

/-! ## The length -/

/-- The 48-bit length keeps the low 48 bits of the width. -/
theorem evtLenRead_evtRectWrite (rin : EvtRect) :
    (evtLenRead (evtRectWrite rin)).toNat = (evtRectWidth rin).toNat % 2 ^ 48 := by
  have bound := (evtRectWidth rin).toNat_lt
  simp only [evtLenRead, evtRectWrite, evtLenWrite, UInt64.toNat_add, UInt64.toNat_shiftLeft,
    UInt32.toNat_toUInt64, UInt64.toNat_toUInt32, UInt64.toNat_shiftRight, UInt16.toNat_toUInt64,
    UInt64.toNat_toUInt16, UInt64.toNat_and, Nat.shiftLeft_eq, Nat.shiftRight_eq_div_pow,
    UInt64.reduceToNat, Nat.reduceMod]
  rw [show (65535 : ℕ) = 2 ^ 16 - 1 from rfl, Nat.and_two_pow_sub_one_eq_mod]
  omega

/-! ## The extent -/

/-- A width of at most `MAX_RECT_WIDTH` gives the extent back, `ex_hi` through the `uint64_t`
sum `ex_lo + width - 1`. -/
theorem evtExtRead_evtRectWrite {rin : EvtRect} (hfit : rin.Fits)
    (hw : evtRectWidth rin ≤ maxRectWidth) : evtExtRead (evtRectWrite rin) = rin.ex := by
  have hle : (evtRectWidth rin).toNat ≤ 2 ^ 48 - 1 :=
    maxRectWidth_toNat ▸ UInt64.le_iff_toNat_le.mp hw
  have hlen : (evtLenRead (evtRectWrite rin)).toNat = (evtRectWidth rin).toNat := by
    rw [evtLenRead_evtRectWrite]
    omega
  obtain ⟨⟨lo, hi⟩, epc, minorEpc⟩ := rin
  have hlo : lo < 2 ^ 64 := hfit.lo
  have hhi : hi < 2 ^ 64 := hfit.hi
  -- the width and the stored `ex_hi` are both sums in `uint64_t`: the wrap of one undoes the other
  have hwidth : (evtRectWidth ⟨⟨lo, hi⟩, epc, minorEpc⟩).toNat = (2 ^ 64 - lo + hi + 1) % 2 ^ 64 := by
    simp only [evtRectWidth, UInt64.toNat_add, UInt64.toNat_sub, UInt64.toNat_ofNat',
      UInt64.toNat_one]
    omega
  simp only [evtExtRead, evtRectWrite_rdLo, UInt64.toNat_sub, UInt64.toNat_add, hlen,
    UInt64.toNat_ofNat', UInt64.toNat_one, EvtExtent.mk.injEq]
  constructor <;> omega

/-! ## The minor epoch -/

/-- The minor epoch comes back from media, except `EVT_TX_MINOR_MAX_DF`, which is where
`VOS_SUB_OP_MAX` is stored. -/
theorem evtMinorRead_evtMinorWrite {m : ℕ} (hm : m < 2 ^ 16) :
    evtMinorRead (evtMinorWrite m) = if m = evtTxMinorMaxDf.toNat then vosSubOpMax else m := by
  unfold evtMinorWrite
  by_cases hsub : m = vosSubOpMax
  · simp [hsub, evtMinorRead, vosSubOpMax, evtTxMinorMaxDf]
  · have hof : (UInt16.ofNat m).toNat = m := UInt16.toNat_ofNat_of_lt' hm
    simp only [ne_eq, hsub, not_false_eq_true, if_true, evtMinorRead, ← UInt16.toNat_inj, hof]
    split <;> simp_all

/-- `VOS_SUB_OP_MAX` is stored as `EVT_TX_MINOR_MAX_DF`, and no other minor epoch of a
`uint16_t` but `EVT_TX_MINOR_MAX_DF` itself. -/
theorem evtMinorWrite_eq_txMinorMaxDf {m : ℕ} (hm : m < 2 ^ 16) :
    evtMinorWrite m = evtTxMinorMaxDf ↔ m = vosSubOpMax ∨ m = evtTxMinorMaxDf.toNat := by
  have hof : (UInt16.ofNat m).toNat = m := UInt16.toNat_ofNat_of_lt' hm
  unfold evtMinorWrite
  by_cases hsub : m = vosSubOpMax
  · simp [hsub]
  · simp only [ne_eq, hsub, not_false_eq_true, if_true, false_or, ← UInt16.toNat_inj, hof]

/-! ## Rectangles -/

/-- No minor epoch of the domain is the stored form of `VOS_SUB_OP_MAX`: a rebuild minor epoch
stays below it and the removal marker is above it. -/
theorem EvtRect.DfDomain.minorEpc_ne {r : EvtRect} (hd : r.DfDomain) :
    r.minorEpc ≠ evtTxMinorMaxDf.toNat := by
  rcases hd.minorEpc with h | h
  · have : evtRebuildMinorMax < evtTxMinorMaxDf.toNat := by decide
    omega
  · rw [h]
    decide

/-- On its domain the read undoes the write. -/
theorem evtRectRead_evtRectWrite_of_domain {r : EvtRect} (hd : r.DfDomain) :
    evtRectRead (evtRectWrite r) = r := by
  have hminor := hd.minorEpc_ne
  obtain ⟨ex, epc, minorEpc⟩ := r
  simp only [evtRectRead, evtRectWrite_rdEpc, evtRectWrite_rdMinorEpc, EvtRect.mk.injEq]
  refine ⟨evtExtRead_evtRectWrite hd.fits hd.width, ?_, ?_⟩
  · exact UInt64.toNat_ofNat_of_lt' hd.fits.epc
  · simp only at hminor
    rw [evtMinorRead_evtMinorWrite hd.fits.minorEpc, if_neg hminor]

/-- The round trip of a stored rectangle: on every in-memory rectangle of width at most
`MAX_RECT_WIDTH` with a transaction, rebuild or removal minor epoch, the read undoes the write,
the stored minor epoch is `EVT_TX_MINOR_MAX_DF` exactly for `VOS_SUB_OP_MAX`, and it reads back as itself. -/
theorem evtRectRead_evtRectWrite {r : EvtRect} (hfit : r.Fits)
    (hw : evtRectWidth r ≤ maxRectWidth)
    (hminor : r.minorEpc ≤ evtRebuildMinorMax ∨ r.minorEpc = evtMinorEpcMax) :
    evtRectRead (evtRectWrite r) = r ∧
      ((evtRectWrite r).rdMinorEpc = evtTxMinorMaxDf ↔ r.minorEpc = vosSubOpMax) ∧
      evtMinorRead (evtRectWrite r).rdMinorEpc = r.minorEpc := by
  have hd : r.DfDomain := ⟨hfit, hw, hminor⟩
  have hround := evtRectRead_evtRectWrite_of_domain hd
  refine ⟨hround, ?_, congrArg EvtRect.minorEpc hround⟩
  rw [evtRectWrite_rdMinorEpc, evtMinorWrite_eq_txMinorMaxDf hfit.minorEpc]
  exact ⟨fun h => h.resolve_right hd.minorEpc_ne, .inl⟩

/-- A normal write at the largest sub-operation is stored as `EVT_TX_MINOR_MAX_DF` and read back
unchanged. -/
theorem evtRectRead_evtRectWrite_subOpMax :
    evtRectRead (evtRectWrite ⟨⟨4096, 8191⟩, 7, vosSubOpMax⟩) = ⟨⟨4096, 8191⟩, 7, vosSubOpMax⟩ ∧
      (evtRectWrite ⟨⟨4096, 8191⟩, 7, vosSubOpMax⟩).rdMinorEpc = evtTxMinorMaxDf :=
  have h := evtRectRead_evtRectWrite (r := ⟨⟨4096, 8191⟩, 7, vosSubOpMax⟩)
    ⟨by decide, by decide, by decide, by decide⟩ (by decide) (.inl (by decide))
  ⟨h.1, h.2.1.mpr rfl⟩

end Daos.Vos

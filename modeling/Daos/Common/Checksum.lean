import Mathlib

/-!
# Checksum chunk ranges — `csum_align_boundaries` and `csum_chunk_count` (`common/checksum.c`)

An extent of records `[lo, hi]` is checksummed per chunk of `k = chunk_size / rec_size` records,
the chunks being aligned to multiples of `k`. `csum_align_boundaries` widens `[lo, hi]` to the
chunks that hold it, clamped to `[lo_boundary, hi_boundary]`, and returns the range with its
number of records `dcr_nr`; `csum_chunk_count` divides that number by `k`, and
`evt_csum_count` / `evt_csum_buf_len` size the checksums of an evtree extent with it.

Two sums can wrap in 64 bits: the end of the last chunk, `floor(hi) + k - 1`, and the count
`dcr_hi + 1`. The code saturates both at `UINT64_MAX`. The first saturation is exact: the
widened range is `[floor(lo/k)*k, min(2^64-1, floor(hi/k)*k + k - 1)]` for every extent
(`csumAlignBoundaries_spec`). The second is not: once the range reaches `UINT64_MAX`, `dcr_nr`
is one short of the range's width, as `checksum_tests.c` expects, and `csum_chunk_count` is one
short of the number of chunks whenever the extent has more than one record
(`csumChunkCount_of_top`). Below the top chunk both are exact (`csumChunkCount_of_below_top`);
`csumChunkCount_exact` puts the cases together.

**What is modelled, and how.** Offsets and sizes are `uint64_t`, the chunk size of
`csum_chunk_count` is the `uint32_t` it takes, and its result is truncated to `uint32_t`, as
in C. The `max` and `min` macros of `gurt/common.h` are written out as the conditionals they
expand to. The `D_ASSERT(chunksize != 0)` of `csum_chunk_align_floor` is the `none` of an
`Option`.
-/

namespace Daos.Csum

/-- `UINT64_MAX`. -/
def uint64Max : UInt64 := 0xFFFFFFFFFFFFFFFF

/-- `struct daos_csum_range`: the records `[dcr_lo, dcr_hi]` and their number `dcr_nr`. -/
structure DaosCsumRange where
  dcrLo : UInt64
  dcrHi : UInt64
  dcrNr : UInt64
deriving DecidableEq, Repr

/-- `csum_chunk_align_floor`: the start of the chunk holding `off`. -/
def csumChunkAlignFloor (off chunksize : UInt64) : Option UInt64 :=
  if chunksize = 0 then none else some (off - off % chunksize)

/-- `csum_chunk_align_ceiling`: the end of the chunk holding `off`, saturated at
`UINT64_MAX` when it wraps. -/
def csumChunkAlignCeiling (off chunksize : UInt64) : Option UInt64 := do
  let lo ← csumChunkAlignFloor off chunksize
  let hi := lo + chunksize - 1
  -- overflow
  return if hi < lo then uint64Max else hi

/-- `csum_align_boundaries`. -/
def csumAlignBoundaries (lo hi loBoundary hiBoundary recordSize chunksize : UInt64) :
    Option DaosCsumRange :=
  if lo < loBoundary ∨ hi > hiBoundary then some ⟨0, 0, 0⟩
  else do
    let chunksizeRecords := chunksize / recordSize
    let loAligned ← csumChunkAlignFloor lo chunksizeRecords
    let hiAligned ← csumChunkAlignCeiling hi chunksizeRecords
    let dcrLo := if loBoundary > loAligned then loBoundary else loAligned
    let dcrHi := if hiBoundary < hiAligned then hiBoundary else hiAligned
    let overflowGaurd := dcrHi + 1
    let overflowGaurd := if overflowGaurd < dcrHi then uint64Max else overflowGaurd
    return ⟨dcrLo, dcrHi, overflowGaurd - dcrLo⟩

/-- `csum_chunk_count`: the number of chunks of `chunk_size` bytes that the records
`[lo_idx, hi_idx]` of `rec_size` bytes touch. -/
def csumChunkCount (chunkSize : UInt32) (loIdx hiIdx recSize : UInt64) : Option UInt32 :=
  if recSize = 0 then some 0
  -- if lo == hi, always just 1 chunk
  else if loIdx = hiIdx then some 1
  else do
    let chunk ← csumAlignBoundaries loIdx hiIdx 0 uint64Max recSize chunkSize.toUInt64
    let result := chunk.dcrNr / (chunkSize.toUInt64 / recSize)
    return result.toUInt32

/-- The fields of `struct evt_root` that size the checksums of an extent. -/
structure EvtCsumRoot where
  trInob : UInt32
  trCsumChunkSize : UInt32
  trCsumLen : UInt16
deriving DecidableEq, Repr

/-- `evt_csum_count`: the checksums of the extent `[ex_lo, ex_hi]`. -/
def evtCsumCount (root : EvtCsumRoot) (exLo exHi : UInt64) : Option UInt64 :=
  (csumChunkCount root.trCsumChunkSize exLo exHi root.trInob.toUInt64).map UInt32.toUInt64

/-- `evt_csum_buf_len`: the bytes of those checksums. -/
def evtCsumBufLen (root : EvtCsumRoot) (exLo exHi : UInt64) : Option UInt64 :=
  if root.trCsumChunkSize = 0 then some 0
  else (evtCsumCount root exLo exHi).map fun count => root.trCsumLen.toUInt64 * count

/-! ## The aligned ends -/

section Align

variable {off k : UInt64}

theorem uint64Max_toNat : uint64Max.toNat = 2 ^ 64 - 1 := rfl

theorem csumChunkAlignFloor_of_ne_zero (hk : k ≠ 0) :
    csumChunkAlignFloor off k = some (off - off % k) := by
  simp [csumChunkAlignFloor, hk]

/-- The chunk start is `off` rounded down to a multiple of the chunk, with no wrap. -/
theorem alignFloor_toNat (off k : UInt64) :
    (off - off % k).toNat = off.toNat / k.toNat * k.toNat := by
  have hdm := Nat.div_add_mod' off.toNat k.toNat
  have hle : off % k ≤ off := by
    rw [UInt64.le_iff_toNat_le, UInt64.toNat_mod]
    exact Nat.mod_le _ _
  rw [UInt64.toNat_sub_of_le _ _ hle, UInt64.toNat_mod]
  omega

/-- The chunk end is the last record of the chunk of `off`, or `UINT64_MAX` when that chunk
runs past the top: the saturation of `csum_chunk_align_ceiling` is exact. -/
theorem csumChunkAlignCeiling_toNat (hk : k ≠ 0) :
    ∃ c, csumChunkAlignCeiling off k = some c ∧
      c.toNat = min (2 ^ 64 - 1) (off.toNat / k.toNat * k.toNat + k.toNat - 1) := by
  have hk0 : 0 < k.toNat := by
    have : k.toNat ≠ 0 := fun h => hk (UInt64.toNat_inj.mp h)
    omega
  have hkN := UInt64.toNat_lt k
  have hflo := alignFloor_toNat off k
  have hfloN := UInt64.toNat_lt (off - off % k)
  -- `lo + k - 1` in 64 bits, for `lo` the chunk start
  have hsum : (off - off % k + k - 1).toNat =
      ((off.toNat / k.toNat * k.toNat + k.toNat) % 2 ^ 64 + (2 ^ 64 - 1)) % 2 ^ 64 := by
    rw [UInt64.toNat_sub, UInt64.toNat_add, hflo]
    simp only [UInt64.toNat_one]
    omega
  simp only [csumChunkAlignCeiling, csumChunkAlignFloor_of_ne_zero hk, Option.bind_eq_bind,
    Option.bind_some, Option.pure_def, Option.some.injEq, exists_eq_left', UInt64.lt_iff_toNat_lt]
  split_ifs with hwrap
  · -- the chunk runs past `2^64`: the sum wrapped below the chunk start
    rw [uint64Max_toNat]
    rw [hsum, hflo] at hwrap
    omega
  · rw [hsum]
    rw [hsum, hflo] at hwrap
    omega

end Align

/-! ## The widened range -/

section Boundaries

variable {a b x : UInt64}

/-- The `max` macro of `gurt/common.h` on 64-bit values. -/
theorem maxMacro_toNat : (if a > b then a else b).toNat = max a.toNat b.toNat := by
  split_ifs with h
  · rw [GT.gt, UInt64.lt_iff_toNat_lt] at h
    omega
  · rw [GT.gt, UInt64.lt_iff_toNat_lt] at h
    omega

/-- The `min` macro of `gurt/common.h` on 64-bit values. -/
theorem minMacro_toNat : (if a < b then a else b).toNat = min a.toNat b.toNat := by
  split_ifs with h
  · rw [UInt64.lt_iff_toNat_lt] at h
    omega
  · rw [UInt64.lt_iff_toNat_lt] at h
    omega

/-- The overflow guard of `csum_align_boundaries`: `x + 1`, saturated at `UINT64_MAX`. -/
theorem overflowGaurd_toNat :
    (if x + 1 < x then uint64Max else x + 1).toNat = min (2 ^ 64 - 1) (x.toNat + 1) := by
  have hx := UInt64.toNat_lt x
  have hsucc : (x + 1).toNat = (x.toNat + 1) % 2 ^ 64 := by
    rw [UInt64.toNat_add, UInt64.toNat_one]
  split_ifs with h
  · rw [UInt64.lt_iff_toNat_lt, hsucc] at h
    rw [uint64Max_toNat]
    omega
  · rw [UInt64.lt_iff_toNat_lt, hsucc] at h
    rw [hsucc]
    omega

/-- `hi` lies in its own chunk: it is at most the chunk end. -/
theorem le_chunkEnd (n k : ℕ) (hk : 0 < k) : n ≤ n / k * k + k - 1 := by
  have hdm := Nat.div_add_mod' n k
  have hmod := Nat.mod_lt n hk
  omega

/-- Every extent inside the boundaries is widened to its chunks and clamped to the
boundaries, and `dcr_nr` is the width of the result computed with the saturated `dcr_hi + 1`. -/
theorem csumAlignBoundaries_spec {lo hi loBoundary hiBoundary recordSize chunksize : UInt64}
    (hk : chunksize / recordSize ≠ 0) (hlo : loBoundary ≤ lo) (hlh : lo ≤ hi)
    (hhi : hi ≤ hiBoundary) :
    ∃ r, csumAlignBoundaries lo hi loBoundary hiBoundary recordSize chunksize = some r ∧
      r.dcrLo.toNat =
        max loBoundary.toNat (lo.toNat / (chunksize / recordSize).toNat *
          (chunksize / recordSize).toNat) ∧
      r.dcrHi.toNat =
        min hiBoundary.toNat (min (2 ^ 64 - 1) (hi.toNat / (chunksize / recordSize).toNat *
          (chunksize / recordSize).toNat + (chunksize / recordSize).toNat - 1)) ∧
      r.dcrNr.toNat = min (2 ^ 64 - 1) (r.dcrHi.toNat + 1) - r.dcrLo.toNat := by
  obtain ⟨c, hc, hcN⟩ := @csumChunkAlignCeiling_toNat hi _ hk
  have hin : ¬(lo < loBoundary ∨ hi > hiBoundary) := by
    rw [GT.gt, UInt64.lt_iff_toNat_lt, UInt64.lt_iff_toNat_lt]
    rw [UInt64.le_iff_toNat_le] at hlo hhi
    omega
  simp only [csumAlignBoundaries, if_neg hin, csumChunkAlignFloor_of_ne_zero hk, hc,
    Option.bind_eq_bind, Option.bind_some, Option.pure_def, Option.some.injEq, exists_eq_left']
  rw [maxMacro_toNat, minMacro_toNat, alignFloor_toNat, hcN]
  refine ⟨rfl, rfl, ?_⟩
  -- `dcr_lo ≤ lo ≤ hi ≤ dcr_hi`, so the last subtraction does not wrap
  have hk0 : 0 < (chunksize / recordSize).toNat := by
    have : (chunksize / recordSize).toNat ≠ 0 := fun h => hk (UInt64.toNat_inj.mp h)
    omega
  have hloA := Nat.div_mul_le_self lo.toNat (chunksize / recordSize).toNat
  have hhiA := le_chunkEnd hi.toNat _ hk0
  have hhiN := UInt64.toNat_lt hi
  rw [UInt64.le_iff_toNat_le] at hlo hlh hhi
  rw [UInt64.toNat_sub_of_le, overflowGaurd_toNat, maxMacro_toNat, minMacro_toNat,
    alignFloor_toNat, hcN]
  rw [UInt64.le_iff_toNat_le, overflowGaurd_toNat, maxMacro_toNat, minMacro_toNat,
    alignFloor_toNat, hcN]
  omega

end Boundaries

/-! ## The chunk count -/

section Count

/-- Below the top chunk the widened range is whole chunks, from that of `lo` to that of `hi`. -/
theorem chunks_below_top {lo hi k : ℕ} (hk : 0 < k) (hlh : lo ≤ hi) :
    (hi / k * k + k - lo / k * k) / k = hi / k - lo / k + 1 := by
  have hq : lo / k * k ≤ hi / k * k := Nat.mul_le_mul_right k (Nat.div_le_div_right hlh)
  have hwhole : hi / k * k + k - lo / k * k = (hi / k - lo / k + 1) * k := by
    rw [Nat.add_mul, Nat.sub_mul, Nat.one_mul]
    omega
  rw [hwhole, Nat.mul_div_cancel _ hk]

/-- In the top chunk the saturated count stops one record short of `2^64`, and its chunks are
those from the chunk of `lo` up to the chunk of `hi`, that one excluded. -/
theorem chunks_top {lo hi k : ℕ} (hhi : hi < 2 ^ 64)
    (htop : 2 ^ 64 ≤ hi / k * k + k) :
    (2 ^ 64 - 1 - lo / k * k) / k = hi / k - lo / k := by
  rw [Nat.mul_comm (lo / k) k, Nat.sub_mul_div]
  congr 1
  apply Nat.div_eq_of_lt_le
  · -- the chunk of `hi` starts at or below `2^64 - 1`
    have := Nat.div_mul_le_self hi k
    omega
  · rw [Nat.add_mul, Nat.one_mul]
    omega

variable {cs : UInt32} {lo hi rs : UInt64} {k : ℕ}

/-- `csum_chunk_count` in numbers, for an extent of more than one record: the saturated
`dcr_nr` of the whole offset space divided by the chunk, truncated to 32 bits. -/
theorem csumChunkCount_toNat (hrs : 0 < rs.toNat) (hcs : rs.toNat ≤ cs.toNat)
    (hk : cs.toNat / rs.toNat = k) (hlh : lo < hi) :
    ∃ c, csumChunkCount cs lo hi rs = some c ∧
      c.toNat = (min (2 ^ 64 - 1) (min (2 ^ 64 - 1) (hi.toNat / k * k + k - 1) + 1) -
        lo.toNat / k * k) / k % 2 ^ 32 := by
  have hkU : (cs.toUInt64 / rs).toNat = k := by
    rw [UInt64.toNat_div, UInt32.toNat_toUInt64, hk]
  have hk0 : 0 < k := by
    rw [← hk]
    exact Nat.div_pos hcs hrs
  have hkne : cs.toUInt64 / rs ≠ 0 := by
    intro h
    rw [h] at hkU
    simp at hkU
    omega
  have hrs0 : rs ≠ 0 := by
    intro h
    rw [h] at hrs
    simp at hrs
  obtain ⟨r, hr, hrLo, hrHi, hrNr⟩ :=
    @csumAlignBoundaries_spec lo hi 0 uint64Max rs cs.toUInt64 hkne
      UInt64.zero_le (UInt64.le_of_lt hlh) (UInt64.le_iff_toNat_le.mpr
        (by rw [uint64Max_toNat]; have := UInt64.toNat_lt hi; omega))
  simp only [csumChunkCount, if_neg hrs0, if_neg (UInt64.ne_of_lt hlh), hr,
    Option.bind_eq_bind, Option.bind_some, Option.pure_def, Option.some.injEq, exists_eq_left']
  rw [UInt64.toNat_toUInt32, UInt64.toNat_div, hrNr, hrHi, hrLo, hkU, uint64Max_toNat]
  simp

/-- Below the top chunk `csum_chunk_count` is exact: the chunks from that of `lo` to that of
`hi`, truncated to 32 bits. -/
theorem csumChunkCount_of_below_top (hrs : 0 < rs.toNat) (hcs : rs.toNat ≤ cs.toNat)
    (hk : cs.toNat / rs.toNat = k) (hlh : lo ≤ hi) (hbelow : hi.toNat / k * k + k < 2 ^ 64) :
    ∃ c, csumChunkCount cs lo hi rs = some c ∧
      c.toNat = (hi.toNat / k - lo.toNat / k + 1) % 2 ^ 32 := by
  have hk0 : 0 < k := by
    rw [← hk]
    exact Nat.div_pos hcs hrs
  rcases UInt64.lt_or_eq_of_le hlh with hlt | rfl
  · obtain ⟨c, hc, hcN⟩ := csumChunkCount_toNat hrs hcs hk hlt
    refine ⟨c, hc, ?_⟩
    have hend : min (2 ^ 64 - 1) (min (2 ^ 64 - 1) (hi.toNat / k * k + k - 1) + 1) =
        hi.toNat / k * k + k := by
      omega
    rw [hcN, hend, chunks_below_top hk0 (UInt64.le_iff_toNat_le.mp hlh)]
  · -- one record: the early return
    have hrs0 : rs ≠ 0 := by
      intro h
      rw [h] at hrs
      simp at hrs
    refine ⟨1, by simp [csumChunkCount, hrs0], ?_⟩
    simp

/-- In the top chunk `csum_chunk_count` misses one chunk: an extent of more than one record
whose last chunk reaches `UINT64_MAX` is counted one chunk short. -/
theorem csumChunkCount_of_top (hrs : 0 < rs.toNat) (hcs : rs.toNat ≤ cs.toNat)
    (hk : cs.toNat / rs.toNat = k) (hlh : lo < hi) (htop : 2 ^ 64 ≤ hi.toNat / k * k + k) :
    ∃ c, csumChunkCount cs lo hi rs = some c ∧
      c.toNat = (hi.toNat / k - lo.toNat / k) % 2 ^ 32 := by
  have hk0 : 0 < k := by
    rw [← hk]
    exact Nat.div_pos hcs hrs
  obtain ⟨c, hc, hcN⟩ := csumChunkCount_toNat hrs hcs hk hlh
  refine ⟨c, hc, ?_⟩
  have hend : min (2 ^ 64 - 1) (min (2 ^ 64 - 1) (hi.toNat / k * k + k - 1) + 1) = 2 ^ 64 - 1 := by
    omega
  rw [hcN, hend, chunks_top (UInt64.toNat_lt hi) htop]

/-- **What the two functions compute** for every extent of a record size at most the chunk
size: `csum_align_boundaries` over the whole offset space widens it to its chunks, the last one
cut at `UINT64_MAX`, and `dcr_nr` is the range's width except in the top chunk, where the
saturated `dcr_hi + 1` makes it one less; `csum_chunk_count` is the number of chunks the extent
touches, but one less for an extent of more than one record whose last chunk reaches the top. -/
theorem csumChunkCount_exact (hrs : 0 < rs.toNat) (hcs : rs.toNat ≤ cs.toNat)
    (hk : cs.toNat / rs.toNat = k) (hlh : lo ≤ hi)
    (hfit : hi.toNat / k - lo.toNat / k + 1 < 2 ^ 32) :
    (∃ c, csumChunkCount cs lo hi rs = some c ∧
      c.toNat = if lo < hi ∧ 2 ^ 64 ≤ hi.toNat / k * k + k then hi.toNat / k - lo.toNat / k
        else hi.toNat / k - lo.toNat / k + 1) ∧
    ∃ r, csumAlignBoundaries lo hi 0 uint64Max rs cs.toUInt64 = some r ∧
      r.dcrLo.toNat = lo.toNat / k * k ∧
      r.dcrHi.toNat = min (2 ^ 64 - 1) (hi.toNat / k * k + k - 1) ∧
      r.dcrNr.toNat = if 2 ^ 64 ≤ hi.toNat / k * k + k then r.dcrHi.toNat - r.dcrLo.toNat
        else r.dcrHi.toNat + 1 - r.dcrLo.toNat := by
  have hkU : (cs.toUInt64 / rs).toNat = k := by
    rw [UInt64.toNat_div, UInt32.toNat_toUInt64, hk]
  have hk0 : 0 < k := by
    rw [← hk]
    exact Nat.div_pos hcs hrs
  have hkne : cs.toUInt64 / rs ≠ 0 := by
    intro h
    rw [h] at hkU
    simp at hkU
    omega
  have hhi := UInt64.toNat_lt hi
  constructor
  · -- the count: below the top chunk, or in it with one record, exact; else one short
    by_cases htop : lo < hi ∧ 2 ^ 64 ≤ hi.toNat / k * k + k
    · obtain ⟨c, hc, hcN⟩ := csumChunkCount_of_top hrs hcs hk htop.1 htop.2
      refine ⟨c, hc, ?_⟩
      rw [if_pos htop, hcN, Nat.mod_eq_of_lt (by omega)]
    · rw [not_and_or] at htop
      rcases htop with heq | hbelow
      · have hlo : lo = hi := (UInt64.lt_or_eq_of_le hlh).resolve_left heq
        subst hlo
        have hrs0 : rs ≠ 0 := fun h => by rw [h] at hrs; simp at hrs
        refine ⟨1, by simp [csumChunkCount, hrs0], ?_⟩
        rw [if_neg (fun h => heq h.1), Nat.sub_self]
        rfl
      · obtain ⟨c, hc, hcN⟩ :=
          csumChunkCount_of_below_top hrs hcs hk hlh (Nat.lt_of_not_le hbelow)
        refine ⟨c, hc, ?_⟩
        rw [if_neg (fun h => hbelow h.2), hcN, Nat.mod_eq_of_lt hfit]
  · -- the range: the spec of `csum_align_boundaries` over `[0, UINT64_MAX]`
    obtain ⟨r, hr, hrLo, hrHi, hrNr⟩ :=
      @csumAlignBoundaries_spec lo hi 0 uint64Max rs cs.toUInt64 hkne UInt64.zero_le hlh
        (UInt64.le_iff_toNat_le.mpr (by rw [uint64Max_toNat]; omega))
    rw [hkU] at hrLo hrHi
    rw [uint64Max_toNat] at hrHi
    refine ⟨r, hr, by simpa using hrLo, by rw [hrHi]; omega, ?_⟩
    rw [hrNr]
    split_ifs with htop <;> omega

theorem csumChunkCount_exact_4k :
    0 < (1 : UInt64).toNat ∧ (1 : UInt64).toNat ≤ (4096 : UInt32).toNat ∧
      (4096 : UInt32).toNat / (1 : UInt64).toNat = 4096 ∧ (10 : UInt64) ≤ 9000 ∧
      (9000 : UInt64).toNat / 4096 - (10 : UInt64).toNat / 4096 + 1 < 2 ^ 32 ∧
      ((∃ c, csumChunkCount 4096 10 9000 1 = some c ∧
        c.toNat = if (10 : UInt64) < 9000 ∧ 2 ^ 64 ≤ (9000 : UInt64).toNat / 4096 * 4096 + 4096
          then (9000 : UInt64).toNat / 4096 - (10 : UInt64).toNat / 4096
          else (9000 : UInt64).toNat / 4096 - (10 : UInt64).toNat / 4096 + 1) ∧
      ∃ r, csumAlignBoundaries 10 9000 0 uint64Max 1 (4096 : UInt32).toUInt64 = some r ∧
        r.dcrLo.toNat = (10 : UInt64).toNat / 4096 * 4096 ∧
        r.dcrHi.toNat = min (2 ^ 64 - 1) ((9000 : UInt64).toNat / 4096 * 4096 + 4096 - 1) ∧
        r.dcrNr.toNat = if 2 ^ 64 ≤ (9000 : UInt64).toNat / 4096 * 4096 + 4096
          then r.dcrHi.toNat - r.dcrLo.toNat else r.dcrHi.toNat + 1 - r.dcrLo.toNat) :=
  ⟨by decide, by decide, by decide, by decide, by decide,
    csumChunkCount_exact (by decide) (by decide) (by decide) (by decide) (by decide)⟩

/-- With 32 KiB chunks of one-byte records, the extent of the last two chunks of the offset
space is counted as one chunk, and its widened range holds one record fewer than its width. -/
theorem csumChunkCount_last_two_chunks :
    csumChunkCount 32768 0xFFFFFFFFFFFF0000 uint64Max 1 = some 1 ∧
      uint64Max.toNat / 32768 - (0xFFFFFFFFFFFF0000 : UInt64).toNat / 32768 + 1 = 2 ∧
      csumAlignBoundaries 0xFFFFFFFFFFFF0000 uint64Max 0 uint64Max 1 32768 =
        some ⟨0xFFFFFFFFFFFF0000, uint64Max, 0xFFFF⟩ ∧
      uint64Max.toNat - (0xFFFFFFFFFFFF0000 : UInt64).toNat + 1 = 0x10000 := by
  decide

end Count

end Daos.Csum

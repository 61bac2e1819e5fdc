import Mathlib
import Daos.Lib.Cuts
import Daos.Types

/-!
# Aggregation epoch ranges — `cont_child_aggregate` (`container/srv_target.c`)

Aggregation over an epoch range `[lo, hi]` folds every record of the range into what a
read at `hi` sees, so it keeps reads at epochs `≥ hi` and loses the ones inside the range.
A snapshot strictly inside a range would lose its view. `cont_child_aggregate` therefore
cuts the epochs from the last aggregated one up to a cap into ranges that end at every
snapshot: it copies the container's snapshot list, inserting the pool's rebuild fence
(which must be kept like a snapshot), finds the resume point below the highest aggregated
epoch (HAE), caps the upper end at `sc_aggregation_max - 1` (and for VOS aggregation at the
EC boundary), and calls `agg_cb` once per snapshot below the cap, then once for the tail.

**What is proved** (`contChildAggregate_ranges`): for a strictly increasing snapshot list
and a fence that is `0` or no snapshot, every range passed to `agg_cb` is non-empty, each
starts one past where the one before ended (so they are disjoint, increasing, and cover
every epoch between the first start and the last end once), all end below
`sc_aggregation_max` and, for VOS aggregation with EC aggregation enabled, at or below the
EC boundary, the first starts past every snapshot and fence below the starting epoch, and no
snapshot or fence lies strictly inside a range.

**What the code does otherwise.** A fence EQUAL to a snapshot is copied next to it, and the
loop then passes the empty, inverted range `[s + 1, s]`, on which the assertion
`lo < hi` of `vos_aggregate` (`vosAggregateEprValid`) fails (`contChildAggregate_fence_dup`).
The ranges of a correct pass are non-empty but may be a single epoch, `[s + 1, s + 1]` between
two snapshots one epoch apart, which that assertion refuses too. With `DAOS_EC_AGG_DISABLE`
set, VOS aggregation is not capped at the EC boundary, by the explicit test in
`adjust_upper_bound`.

**What is modelled.** The container and pool fields the function reads, the values it
takes from its surroundings (the clock, the aggregation interval, the scheduler's space
pressure and busy state, the module-wide `ec_agg_disabled`, whether the heap copy of a long
snapshot list is allocated), and `agg_cb`, a parameter: the model's result is the list of
calls made, the return code and the updated full-scan clock. `D_ASSERT`s are preconditions
of the theorems.
-/

namespace Daos.Container

/-- The flags passed to `agg_cb`: `VOS_AGG_FL_FORCE_SCAN` and `VOS_AGG_FL_FORCE_MERGE`. -/
structure AggFlags where
  forceScan : Bool
  forceMerge : Bool
deriving DecidableEq, Repr

/-- What `cont_child_aggregate` reads of the container (`struct ds_cont_child`) and of its
pool: the snapshot list, the caps, the two HAEs (`sc_ec_agg_eph` for EC aggregation,
`ci_hae` of `vos_cont_query` for VOS aggregation, `0` when the query fails), and the
clocks and fence of snapshot deletion and rebuild. -/
structure ContChild where
  scSnapshots : List ℕ
  scAggregationMax : ℕ
  scEcAggEphBoundary : ℕ
  scEcAggEph : ℕ
  vosHae : ℕ
  scSnapshotDeleteHlc : ℕ
  spcRebuildFence : ℕ
  spcRebuildEndHlc : ℕ
deriving DecidableEq, Repr

/-- `struct agg_param`: which aggregation, and the clock of its last full scan. -/
structure AggParam where
  apVosAgg : Bool
  apFullScanHlc : ℕ
deriving DecidableEq, Repr

/-- What `cont_child_aggregate` takes from its surroundings: `d_hlc_get()`, the aggregation
interval (`0` under the fault-injection flags, else `d_sec2hlc(DAOS_AGG_THRESHOLD)`), whether
`sched_req_space_check` reports no space pressure, `dss_xstream_is_busy()`, the module-wide
`ec_agg_disabled`, and whether `D_ALLOC` of a long snapshot copy succeeds. -/
structure AggEnv where
  hlc : ℕ
  interval : ℕ
  spacePressNone : Bool
  xstreamBusy : Bool
  ecAggDisabled : Bool
  allocOk : Bool
deriving DecidableEq, Repr

/-- What a run of `cont_child_aggregate` does: the calls to `agg_cb` in order, its return
code, and the full-scan clock it leaves in the `agg_param`. -/
structure AggRun where
  calls : List (DaosEpochRange × AggFlags)
  rc : ℤ
  fullScanHlc : ℕ
deriving DecidableEq, Repr

/-- `MAX_SNAPSHOT_LOCAL`. -/
def maxSnapshotLocal : ℕ := 16

/-- `-DER_NOMEM`. -/
def derNomem : ℤ := -1009

/-- `get_hae`. -/
def getHae (cont : ContChild) (vosAgg : Bool) : ℕ :=
  if !vosAgg then cont.scEcAggEph else cont.vosHae

/-- `adjust_upper_bound`. -/
def adjustUpperBound (cont : ContChild) (vosAgg ecAggDisabled : Bool) (upperBound : ℕ) : ℕ :=
  let upperBound := if upperBound ≥ cont.scAggregationMax then cont.scAggregationMax - 1
    else upperBound
  if !vosAgg || ecAggDisabled then upperBound
  else min upperBound cont.scEcAggEphBoundary

/-- The copy loop that inserts the rebuild fence: snapshot `j` goes to slot `j` when it is
below the fence, to slot `j + 1` otherwise, and the slots below the fence are counted. -/
def fenceCopy (fence : ℕ) (snapshots : ℕ → ℕ) (insertIdx : ℕ) : ℕ → List ℕ → (ℕ → ℕ) × ℕ
  | _, [] => (snapshots, insertIdx)
  | j, s :: rest =>
    if s < fence then fenceCopy fence (Function.update snapshots j s) (insertIdx + 1) (j + 1) rest
    else fenceCopy fence (Function.update snapshots (j + 1) s) insertIdx (j + 1) rest

/-- The local snapshot list `cont_child_aggregate` works on: the container's list, with the
rebuild fence inserted when there is one. The buffer starts zeroed. -/
def contSnapshotsCopy (cont : ContChild) : List ℕ :=
  if cont.spcRebuildFence ≠ 0 then
    let r := fenceCopy cont.spcRebuildFence (fun _ => 0) 0 0 cont.scSnapshots
    (List.range (cont.scSnapshots.length + 1)).map (Function.update r.1 r.2 cont.spcRebuildFence)
  else cont.scSnapshots

/-- The first range's start: one past the highest snapshot below `epochMin`, found by the
`for (i = 0; ...; ++i)` scan, or `0` when there is none. -/
def aggResumeLo (snapshots : List ℕ) (epochMin : ℕ) : ℕ :=
  match (snapshots.takeWhile (· < epochMin)).getLast? with
  | some s => s + 1
  | none => 0

/-- The loop over the snapshots from the resume point: one call per snapshot below
`epochMax`, each range starting one past the previous end; a failing call stops it. The
result is the calls, the return code and the start of the next range. -/
def aggSnapRanges (aggCb : DaosEpochRange → AggFlags → ℤ) (flags : AggFlags) (epochMax : ℕ) :
    ℕ → List ℕ → List (DaosEpochRange × AggFlags) × ℤ × ℕ
  | lo, [] => ([], 0, lo)
  | lo, s :: rest =>
    if s < epochMax then
      let rc := aggCb ⟨lo, s⟩ flags
      if rc ≠ 0 then ([(⟨lo, s⟩, flags)], rc, lo)
      else
        let r := aggSnapRanges aggCb flags epochMax (s + 1) rest
        ((⟨lo, s⟩, flags) :: r.1, r.2.1, r.2.2)
    else ([], 0, lo)

/-- `epoch_min`: `0` after a snapshot deletion or a rebuild since the last full scan,
else the HAE. -/
def contAggEpochMin (cont : ContChild) (param : AggParam) : ℕ :=
  if param.apFullScanHlc < max cont.scSnapshotDeleteHlc cont.spcRebuildEndHlc then 0
  else getHae cont param.apVosAgg

/-- `epoch_max`: `hlc - interval`, capped by `adjust_upper_bound`. -/
def contAggEpochMax (cont : ContChild) (param : AggParam) (env : AggEnv) : ℕ :=
  adjustUpperBound cont param.apVosAgg env.ecAggDisabled (env.hlc - env.interval)

/-- `cont_child_aggregate`. -/
def contChildAggregate (cont : ContChild) (aggCb : DaosEpochRange → AggFlags → ℤ)
    (param : AggParam) (env : AggEnv) : AggRun :=
  let forceScan := decide
    (param.apFullScanHlc < max cont.scSnapshotDeleteHlc cont.spcRebuildEndHlc)
  let epochMin := contAggEpochMin cont param
  let noRun : AggRun := ⟨[], 0, param.apFullScanHlc⟩
  -- not too often when there is no space pressure
  if epochMin > env.hlc - env.interval - env.interval ∧ env.spacePressNone then noRun
  else
    let epochMax := contAggEpochMax cont param env
    if epochMin ≥ epochMax then noRun
    else if ¬ cont.scSnapshots.length + 1 < maxSnapshotLocal ∧ ¬ env.allocOk then
      ⟨[], derNomem, param.apFullScanHlc⟩
    else
      let snapshots := contSnapshotsCopy cont
      let lo := aggResumeLo snapshots epochMin
      if lo ≥ epochMax then noRun
      else
        let r := aggSnapRanges aggCb ⟨forceScan, true⟩ epochMax lo
          (snapshots.dropWhile (· < epochMin))
        if r.2.1 ≠ 0 then ⟨r.1, r.2.1, param.apFullScanHlc⟩
        else
          let finish (calls : List (DaosEpochRange × AggFlags)) (rc : ℤ) : AggRun :=
            ⟨calls, rc, if rc = 0 ∧ epochMin = 0 then env.hlc else param.apFullScanHlc⟩
          if r.2.2 = epochMax then finish r.1 0
          else
            -- the tail, up to `epoch_max`; a busy xstream drops the forced merge
            let flags : AggFlags := ⟨forceScan, r.1 ≠ [] && !env.xstreamBusy⟩
            finish (r.1 ++ [(⟨r.2.2, epochMax⟩, flags)]) (aggCb ⟨r.2.2, epochMax⟩ flags)

/-- The epoch range of a call to `agg_cb`, as a `(lo, hi)` pair. -/
def callRange (c : DaosEpochRange × AggFlags) : ℕ × ℕ := (c.1.eprLo, c.1.eprHi)

/-- The epoch ranges of a run's calls to `agg_cb`, in call order. -/
def AggRun.epochRanges (run : AggRun) : List (ℕ × ℕ) := run.calls.map callRange

/-- The assertion `vos_aggregate` makes on the range it is given (`vos/vos_aggregate.c`):
`epr_lo < epr_hi` and `epr_hi != DAOS_EPOCH_MAX`. -/
def vosAggregateEprValid (epr : DaosEpochRange) : Bool :=
  decide (epr.eprLo < epr.eprHi ∧ epr.eprHi ≠ daosEpochMax)

/-- Where the ranges of a pass start: one past the last kept epoch below `epoch_min`. -/
def aggStart (cont : ContChild) (param : AggParam) : ℕ :=
  aggResumeLo (contSnapshotsCopy cont) (contAggEpochMin cont param)

/-- Where the ranges of a pass end: at each kept epoch from `epoch_min` on below
`epoch_max`, then at `epoch_max`. -/
def aggPoints (cont : ContChild) (param : AggParam) (env : AggEnv) : List ℕ :=
  ((contSnapshotsCopy cont).dropWhile (· < contAggEpochMin cont param)).takeWhile
    (· < contAggEpochMax cont param env) ++ [contAggEpochMax cont param env]

/-- An epoch aggregation must keep readable: a snapshot, or the rebuild fence when there is
one. -/
def EpochKept (cont : ContChild) (s : ℕ) : Prop :=
  s ∈ cont.scSnapshots ∨ (cont.spcRebuildFence ≠ 0 ∧ s = cont.spcRebuildFence)

/-- What the ranges of one aggregation pass must satisfy for it to keep every snapshot's
view: non-empty ranges, each starting right after the one before (so increasing, disjoint,
and covering the span from the first start to the last end once), below the caps, past
every kept epoch below the starting epoch, and with no kept epoch strictly inside. -/
structure AggRangesOk (cont : ContChild) (param : AggParam) (env : AggEnv)
    (rs : List (ℕ × ℕ)) : Prop where
  nonempty : ∀ r ∈ rs, r.1 ≤ r.2
  adjacent : rs.IsChain fun r r' => r'.1 = r.2 + 1
  increasing : rs.Pairwise fun r r' => r.2 < r'.1
  below_max : ∀ r ∈ rs, r.2 < cont.scAggregationMax
  below_boundary : param.apVosAgg = true → env.ecAggDisabled = false →
    ∀ r ∈ rs, r.2 ≤ cont.scEcAggEphBoundary
  above_kept : ∀ s, EpochKept cont s → s < contAggEpochMin cont param → ∀ r ∈ rs, s < r.1
  kept_not_inside : ∀ s, EpochKept cont s → ∀ r ∈ rs, ¬ (r.1 ≤ s ∧ s < r.2)
  cover : ∀ r₀ ∈ rs.head?, ∀ r₁ ∈ rs.getLast?, ∀ x, r₀.1 ≤ x → x ≤ r₁.2 →
    rs.countP (fun r => decide (r.1 ≤ x ∧ x ≤ r.2)) = 1

/-! ### The caps -/

theorem adjustUpperBound_lt (cont : ContChild) (vosAgg ecAggDisabled : Bool) (u : ℕ)
    (hmax : 0 < cont.scAggregationMax) :
    adjustUpperBound cont vosAgg ecAggDisabled u < cont.scAggregationMax := by
  simp only [adjustUpperBound]
  split_ifs <;> omega

theorem adjustUpperBound_le_boundary (cont : ContChild) (u : ℕ) :
    adjustUpperBound cont true false u ≤ cont.scEcAggEphBoundary := by
  simp [adjustUpperBound]

/-! ### The fence copy

On a sorted list the copy loop writes the snapshots below the fence to the slots before
`insert_idx` and the others one slot up, leaving `insert_idx` for the fence. -/

section FenceCopy

variable (fence : ℕ)

/-- The second phase: every snapshot at or above the fence goes one slot up. -/
theorem fenceCopy_above (buf : ℕ → ℕ) (ins j : ℕ) (B : List ℕ) (hB : ∀ b ∈ B, ¬ b < fence) :
    fenceCopy fence buf ins j B =
      (fun i => if j < i ∧ i ≤ j + B.length then B.getD (i - j - 1) 0 else buf i, ins) := by
  induction B generalizing buf j with
  | nil =>
    simp only [fenceCopy, List.length_nil, Nat.add_zero, Prod.mk.injEq, and_true]
    funext i
    rw [if_neg (by omega)]
  | cons b B ih =>
    rw [fenceCopy, if_neg (hB b List.mem_cons_self),
      ih _ _ (fun x hx => hB x (List.mem_cons_of_mem b hx))]
    simp only [Prod.mk.injEq, and_true, List.length_cons]
    funext i
    rw [Function.update_apply]
    -- slot `j + 1` takes `b`; the slots above it take `B`, shifted by one
    rcases Nat.lt_trichotomy i (j + 1) with hi | rfl | hi
    · rw [if_neg (show ¬ (j + 1 < i ∧ i ≤ j + 1 + B.length) by omega),
        if_neg (show i ≠ j + 1 by omega),
        if_neg (show ¬ (j < i ∧ i ≤ j + (B.length + 1)) by omega)]
    · rw [if_neg (show ¬ (j + 1 < j + 1 ∧ j + 1 ≤ j + 1 + B.length) by omega), if_pos rfl,
        if_pos (show j < j + 1 ∧ j + 1 ≤ j + (B.length + 1) by omega),
        show j + 1 - j - 1 = 0 by omega, List.getD_cons_zero]
    · obtain ⟨k, rfl⟩ : ∃ k, i = j + 2 + k := ⟨i - (j + 2), by omega⟩
      by_cases hk : k < B.length
      · rw [if_pos (show j + 1 < j + 2 + k ∧ j + 2 + k ≤ j + 1 + B.length by omega),
          if_pos (show j < j + 2 + k ∧ j + 2 + k ≤ j + (B.length + 1) by omega),
          show j + 2 + k - (j + 1) - 1 = k by omega, show j + 2 + k - j - 1 = k + 1 by omega,
          List.getD_cons_succ]
      · rw [if_neg (show ¬ (j + 1 < j + 2 + k ∧ j + 2 + k ≤ j + 1 + B.length) by omega),
          if_neg (show j + 2 + k ≠ j + 1 by omega),
          if_neg (show ¬ (j < j + 2 + k ∧ j + 2 + k ≤ j + (B.length + 1)) by omega)]

/-- The first phase: the snapshots below the fence stay in place and are counted. -/
theorem fenceCopy_below (buf : ℕ → ℕ) (j : ℕ) (A B : List ℕ) (hA : ∀ a ∈ A, a < fence) :
    fenceCopy fence buf j j (A ++ B) =
      fenceCopy fence (fun i => if j ≤ i ∧ i < j + A.length then A.getD (i - j) 0 else buf i)
        (j + A.length) (j + A.length) B := by
  induction A generalizing buf j with
  | nil =>
    simp only [List.nil_append, List.length_nil, Nat.add_zero]
    congr
    funext i
    rw [if_neg (by omega)]
  | cons a A ih =>
    rw [List.cons_append, fenceCopy, if_pos (hA a List.mem_cons_self),
      ih _ _ (fun x hx => hA x (List.mem_cons_of_mem a hx)), List.length_cons,
      show j + 1 + A.length = j + (A.length + 1) by omega]
    congr
    funext i
    rw [Function.update_apply]
    -- slot `j` takes `a`; the slots above it take `A`, shifted by one
    rcases Nat.lt_trichotomy i j with hi | rfl | hi
    · rw [if_neg (show ¬ (j + 1 ≤ i ∧ i < j + (A.length + 1)) by omega),
        if_neg (show i ≠ j by omega),
        if_neg (show ¬ (j ≤ i ∧ i < j + (A.length + 1)) by omega)]
    · rw [if_neg (show ¬ (i + 1 ≤ i ∧ i < i + (A.length + 1)) by omega), if_pos rfl,
        if_pos (show i ≤ i ∧ i < i + (A.length + 1) by omega), Nat.sub_self,
        List.getD_cons_zero]
    · obtain ⟨k, rfl⟩ : ∃ k, i = j + 1 + k := ⟨i - (j + 1), by omega⟩
      by_cases hk : k < A.length
      · rw [if_pos (show j + 1 ≤ j + 1 + k ∧ j + 1 + k < j + (A.length + 1) by omega),
          if_pos (show j ≤ j + 1 + k ∧ j + 1 + k < j + (A.length + 1) by omega),
          show j + 1 + k - (j + 1) = k by omega, show j + 1 + k - j = k + 1 by omega,
          List.getD_cons_succ]
      · rw [if_neg (show ¬ (j + 1 ≤ j + 1 + k ∧ j + 1 + k < j + (A.length + 1)) by omega),
          if_neg (show j + 1 + k ≠ j by omega),
          if_neg (show ¬ (j ≤ j + 1 + k ∧ j + 1 + k < j + (A.length + 1)) by omega)]

end FenceCopy

/-- On a strictly increasing snapshot list the copy is the list with the fence inserted in
order. -/
theorem contSnapshotsCopy_eq (cont : ContChild) (hsorted : cont.scSnapshots.Pairwise (· < ·))
    (hf : cont.spcRebuildFence ≠ 0) :
    contSnapshotsCopy cont = cont.scSnapshots.takeWhile (· < cont.spcRebuildFence) ++
      cont.spcRebuildFence :: cont.scSnapshots.dropWhile (· < cont.spcRebuildFence) := by
  set f := cont.spcRebuildFence
  set A := cont.scSnapshots.takeWhile (· < f)
  set B := cont.scSnapshots.dropWhile (· < f)
  have hAB : cont.scSnapshots = A ++ B := (List.takeWhile_append_dropWhile).symm
  have hA : ∀ a ∈ A, a < f := fun a ha => by simpa using List.mem_takeWhile_imp ha
  have hB : ∀ b ∈ B, ¬ b < f := fun b hb => Nat.not_lt.mpr (Cuts.le_of_mem_dropWhile hsorted hb)
  rw [contSnapshotsCopy, if_pos hf]
  dsimp only
  rw [hAB, fenceCopy_below f _ 0 A B hA, fenceCopy_above f _ _ _ B hB]
  simp only [Nat.zero_add, Nat.zero_le, true_and, Nat.sub_zero]
  apply List.ext_getElem
  · simp only [List.length_map, List.length_range, List.length_append, List.length_cons]
    omega
  · intro n h₁ h₂
    simp only [List.length_map, List.length_range, List.length_append] at h₁
    rw [List.getElem_map, List.getElem_range, Function.update_apply]
    rcases Nat.lt_trichotomy n A.length with hn | rfl | hn
    · rw [if_neg (by omega), if_neg (by omega), if_pos hn, List.getElem_append_left hn,
        List.getD_eq_getElem]
    · simp only [if_true, List.getElem_append_right (Nat.le_refl _), Nat.sub_self,
        List.getElem_cons_zero]
      rfl
    · obtain ⟨k, rfl⟩ : ∃ k, n = A.length + 1 + k := ⟨n - (A.length + 1), by omega⟩
      rw [if_neg (by omega), if_pos (by omega), List.getElem_append_right (by omega)]
      simp only [show A.length + 1 + k - A.length = k + 1 by omega, List.getElem_cons_succ,
        Nat.add_sub_cancel]
      exact List.getD_eq_getElem _ _ (by omega)

/-- With a fence that is no snapshot, the copy of a strictly increasing list is strictly
increasing. -/
theorem contSnapshotsCopy_pairwise (cont : ContChild) (hsorted : cont.scSnapshots.Pairwise (· < ·))
    (hfence : cont.spcRebuildFence = 0 ∨ cont.spcRebuildFence ∉ cont.scSnapshots) :
    (contSnapshotsCopy cont).Pairwise (· < ·) := by
  by_cases hf : cont.spcRebuildFence = 0
  · rwa [contSnapshotsCopy, if_neg (not_not.mpr hf)]
  · have hnot : cont.spcRebuildFence ∉ cont.scSnapshots := hfence.resolve_left hf
    have hsplit : cont.scSnapshots = cont.scSnapshots.takeWhile (· < cont.spcRebuildFence) ++
        cont.scSnapshots.dropWhile (· < cont.spcRebuildFence) :=
      List.takeWhile_append_dropWhile.symm
    have hAB := hsorted
    rw [hsplit] at hAB hnot
    obtain ⟨hA, hB, hAB⟩ := List.pairwise_append.mp hAB
    rw [contSnapshotsCopy_eq cont hsorted hf, List.pairwise_append, List.pairwise_cons]
    -- the fence is below everything after it, as it is none of them
    have hfB : ∀ b ∈ cont.scSnapshots.dropWhile (· < cont.spcRebuildFence),
        cont.spcRebuildFence < b := fun b hb =>
      lt_of_le_of_ne (Cuts.le_of_mem_dropWhile hsorted hb)
        (fun h => hnot (List.mem_append_right _ (h ▸ hb)))
    refine ⟨hA, ⟨hfB, hB⟩, fun a ha x hx => ?_⟩
    rcases List.mem_cons.mp hx with rfl | hx
    · simpa using List.mem_takeWhile_imp ha
    · exact hAB a ha x hx

/-- Every kept epoch is in the copy. -/
theorem mem_contSnapshotsCopy (cont : ContChild) (hsorted : cont.scSnapshots.Pairwise (· < ·))
    {s : ℕ} (hs : EpochKept cont s) : s ∈ contSnapshotsCopy cont := by
  by_cases hf : cont.spcRebuildFence = 0
  · rw [contSnapshotsCopy, if_neg (not_not.mpr hf)]
    exact hs.resolve_right (fun h => h.1 hf)
  · rw [contSnapshotsCopy_eq cont hsorted hf, List.mem_append, List.mem_cons]
    rcases hs with hs | ⟨-, rfl⟩
    · have hsplit : cont.scSnapshots = cont.scSnapshots.takeWhile (· < cont.spcRebuildFence) ++
          cont.scSnapshots.dropWhile (· < cont.spcRebuildFence) :=
        List.takeWhile_append_dropWhile.symm
      rw [hsplit, List.mem_append] at hs
      exact hs.imp_right .inr
    · exact .inr (.inl rfl)

/-! ### The loop over the snapshots -/

/-- The loop's calls cut the epochs at the snapshots below `epoch_max`; a failing call stops
it early, after a prefix of them. When no call fails it has made them all and the tail
starts one past the last. -/
theorem aggSnapRanges_spec (aggCb : DaosEpochRange → AggFlags → ℤ) (flags : AggFlags)
    (epochMax lo : ℕ) (D : List ℕ) :
    (aggSnapRanges aggCb flags epochMax lo D).1.map callRange <+:
        Cuts.cuts lo (D.takeWhile (· < epochMax)) ∧
      ((aggSnapRanges aggCb flags epochMax lo D).2.1 = 0 →
        (aggSnapRanges aggCb flags epochMax lo D).1.map callRange =
            Cuts.cuts lo (D.takeWhile (· < epochMax)) ∧
          (aggSnapRanges aggCb flags epochMax lo D).2.2 =
            Cuts.next lo (D.takeWhile (· < epochMax))) := by
  induction D generalizing lo with
  | nil => simp [aggSnapRanges]
  | cons s rest ih =>
    by_cases hs : s < epochMax
    · rw [List.takeWhile_cons_of_pos (by simpa using hs), Cuts.cuts_cons, Cuts.next_cons]
      by_cases hrc : aggCb ⟨lo, s⟩ flags = 0
      · -- the call succeeds and the loop goes on from `s + 1`
        simp only [aggSnapRanges, if_pos hs, hrc, ne_eq, not_true_eq_false, if_false,
          List.map_cons]
        exact ⟨(List.prefix_cons_inj _).mpr (ih (s + 1)).1,
          fun h => ⟨congrArg _ ((ih (s + 1)).2 h).1, ((ih (s + 1)).2 h).2⟩⟩
      · simp only [aggSnapRanges, if_pos hs, ne_eq, hrc, not_false_eq_true, if_true,
          List.map_cons, List.map_nil]
        exact ⟨(List.prefix_cons_inj _).mpr List.nil_prefix, fun h => h.elim⟩
    · rw [List.takeWhile_cons_of_neg (by simpa using hs)]
      simp [aggSnapRanges, hs]

/-- The calls of a pass: none, or a prefix of the ranges that cut the epochs from
`aggStart` at `aggPoints`, with `aggStart` below `epoch_max`. -/
theorem contChildAggregate_calls (cont : ContChild) (aggCb : DaosEpochRange → AggFlags → ℤ)
    (param : AggParam) (env : AggEnv) :
    (contChildAggregate cont aggCb param env).epochRanges = [] ∨
      (aggStart cont param < contAggEpochMax cont param env ∧
        (contChildAggregate cont aggCb param env).epochRanges <+:
          Cuts.cuts (aggStart cont param) (aggPoints cont param env)) := by
  unfold contChildAggregate aggStart aggPoints AggRun.epochRanges
  dsimp only
  simp only [apply_ite AggRun.calls, apply_ite (List.map callRange)]
  set E := contAggEpochMax cont param env
  set lo := aggResumeLo (contSnapshotsCopy cont) (contAggEpochMin cont param)
  set T := ((contSnapshotsCopy cont).dropWhile (· < contAggEpochMin cont param)).takeWhile (· < E)
  obtain ⟨hpre, hdone⟩ := aggSnapRanges_spec aggCb
    ⟨decide (param.apFullScanHlc < max cont.scSnapshotDeleteHlc cont.spcRebuildEndHlc), true⟩ E lo
    ((contSnapshotsCopy cont).dropWhile (· < contAggEpochMin cont param))
  have hcuts : Cuts.cuts lo T <+: Cuts.cuts lo (T ++ [E]) := by
    rw [Cuts.cuts_append_singleton]
    exact List.prefix_append _ _
  split_ifs with h₁ h₂ h₃ h₄ h₅ h₆
  · exact .inl rfl
  · exact .inl rfl
  · exact .inl rfl
  · exact .inl rfl
  · -- a failing call: a prefix of the snapshot ranges
    exact .inr ⟨Nat.lt_of_not_le h₄, hpre.trans hcuts⟩
  · -- the snapshot ranges reach `epoch_max`: no tail
    exact .inr ⟨Nat.lt_of_not_le h₄, hpre.trans hcuts⟩
  · -- the snapshot ranges, then the tail from one past the last to `epoch_max`
    obtain ⟨hcalls, hnext⟩ := hdone (not_not.mp h₅)
    refine .inr ⟨Nat.lt_of_not_le h₄, ?_⟩
    rw [List.map_append, hcalls, Cuts.cuts_append_singleton, ← hnext]
    exact List.prefix_refl _

/-! ### Where the ranges start and end, on a strictly increasing copy -/

section Points

variable {M : List ℕ} {m E : ℕ}

theorem aggResumeLo_eq_next (M : List ℕ) (m : ℕ) :
    aggResumeLo M m = Cuts.next 0 (M.takeWhile (· < m)) := by
  cases h : (M.takeWhile (· < m)).getLast? <;> rw [aggResumeLo, Cuts.next_eq_getLast?, h]

/-- The first range starts past every kept epoch below `epoch_min` ... -/
theorem lt_aggResumeLo (hM : M.Pairwise (· < ·)) {s : ℕ} (hs : s ∈ M) (hsm : s < m) :
    s < aggResumeLo M m := by
  have hs' : s ∈ M.takeWhile (· < m) ++ M.dropWhile (· < m) := by
    rwa [List.takeWhile_append_dropWhile]
  rw [aggResumeLo_eq_next]
  rcases List.mem_append.mp hs' with hs' | hs'
  · exact Cuts.lt_next (hM.sublist (List.takeWhile_sublist _)) 0 hs'
  · exact absurd (Cuts.le_of_mem_dropWhile hM hs') (by omega)

/-- ... and at or below every one from `epoch_min` on. -/
theorem aggResumeLo_le (hM : M.Pairwise (· < ·)) {s : ℕ} (hs : s ∈ M.dropWhile (· < m)) :
    aggResumeLo M m ≤ s := by
  rw [aggResumeLo_eq_next]
  exact Cuts.next_le (by rwa [List.takeWhile_append_dropWhile]) (fun _ _ => Nat.zero_le _) hs

theorem cutPoints_pairwise (hM : M.Pairwise (· < ·)) :
    ((M.dropWhile (· < m)).takeWhile (· < E) ++ [E]).Pairwise (· < ·) := by
  refine List.pairwise_append.mpr ⟨hM.sublist ((List.takeWhile_sublist _).trans
    (List.dropWhile_sublist _)), List.pairwise_singleton _ _, fun t ht e he => ?_⟩
  rw [List.mem_singleton.mp he]
  simpa using List.mem_takeWhile_imp ht

theorem cutPoints_le {p : ℕ} (hp : p ∈ (M.dropWhile (· < m)).takeWhile (· < E) ++ [E]) : p ≤ E := by
  rcases List.mem_append.mp hp with hp | hp
  · exact Nat.le_of_lt (by simpa using List.mem_takeWhile_imp hp)
  · exact (List.mem_singleton.mp hp).le

theorem aggResumeLo_le_cutPoints (hM : M.Pairwise (· < ·)) (hlt : aggResumeLo M m < E) {p : ℕ}
    (hp : p ∈ (M.dropWhile (· < m)).takeWhile (· < E) ++ [E]) : aggResumeLo M m ≤ p := by
  rcases List.mem_append.mp hp with hp | hp
  · exact aggResumeLo_le hM ((List.takeWhile_sublist _).subset hp)
  · exact (List.mem_singleton.mp hp) ▸ hlt.le

/-- A kept epoch is below the first range, a point where a range ends, or at or above
`epoch_max`. -/
theorem mem_cutPoints_cases (hM : M.Pairwise (· < ·)) {s : ℕ} (hs : s ∈ M) :
    s < aggResumeLo M m ∨ s ∈ (M.dropWhile (· < m)).takeWhile (· < E) ++ [E] ∨ E ≤ s := by
  have hs' : s ∈ M.takeWhile (· < m) ++ M.dropWhile (· < m) := by
    rwa [List.takeWhile_append_dropWhile]
  rcases List.mem_append.mp hs' with hs' | hs'
  · left
    rw [aggResumeLo_eq_next]
    exact Cuts.lt_next (hM.sublist (List.takeWhile_sublist _)) 0 hs'
  · have hs'' : s ∈ (M.dropWhile (· < m)).takeWhile (· < E) ++
        (M.dropWhile (· < m)).dropWhile (· < E) := by
      rwa [List.takeWhile_append_dropWhile]
    rcases List.mem_append.mp hs'' with hs'' | hs''
    · exact .inr (.inl (List.mem_append_left _ hs''))
    · exact .inr (.inr (Cuts.le_of_mem_dropWhile (hM.sublist (List.dropWhile_sublist _)) hs''))

end Points

theorem aggRangesOk_nil (cont : ContChild) (param : AggParam) (env : AggEnv) :
    AggRangesOk cont param env [] :=
  ⟨by simp, List.IsChain.nil, List.Pairwise.nil, by simp, by simp, by simp, by simp, by simp⟩

/-- **Aggregation never crosses a snapshot.** For a strictly increasing snapshot list, a
rebuild fence that is `0` or no snapshot, and `sc_aggregation_max > 0` (`cont_aggregate_runnable`
skips a container whose snapshots are not fetched yet), the ranges of every pass satisfy
`AggRangesOk`, whatever `agg_cb` returns. -/
theorem contChildAggregate_ranges (cont : ContChild) (aggCb : DaosEpochRange → AggFlags → ℤ)
    (param : AggParam) (env : AggEnv) (hsorted : cont.scSnapshots.Pairwise (· < ·))
    (hfence : cont.spcRebuildFence = 0 ∨ cont.spcRebuildFence ∉ cont.scSnapshots)
    (hmax : 0 < cont.scAggregationMax) :
    AggRangesOk cont param env (contChildAggregate cont aggCb param env).epochRanges := by
  have hM := contSnapshotsCopy_pairwise cont hsorted hfence
  rcases contChildAggregate_calls cont aggCb param env with hnil | ⟨hlt, hpre⟩
  · rw [hnil]
    exact aggRangesOk_nil cont param env
  set rs := (contChildAggregate cont aggCb param env).epochRanges
  -- the calls cut the epochs from `aggStart` at a prefix `Q` of the points
  have hrs : rs = Cuts.cuts (aggStart cont param) ((aggPoints cont param env).take rs.length) :=
    Cuts.eq_cuts_of_prefix hpre
  have hP : (aggPoints cont param env).Pairwise (· < ·) := cutPoints_pairwise hM
  have hQ : ((aggPoints cont param env).take rs.length).Pairwise (· < ·) :=
    hP.sublist (List.take_sublist _ _)
  have hQlo : ∀ q ∈ (aggPoints cont param env).take rs.length, aggStart cont param ≤ q :=
    fun q hq => aggResumeLo_le_cutPoints hM hlt (List.mem_of_mem_take hq)
  have hlo : ∀ r ∈ rs, aggStart cont param ≤ r.1 := fun r hr =>
    Cuts.le_fst_of_mem_cuts hQlo (hrs ▸ hr)
  have hhi : ∀ r ∈ rs, r.2 ≤ contAggEpochMax cont param env := fun r hr =>
    cutPoints_le (List.mem_of_mem_take (Cuts.mem_cuts (hrs ▸ hr)).1)
  refine ⟨?nonempty, ?adjacent, ?increasing, ?below_max, ?below_boundary, ?above_kept,
    ?kept_not_inside, ?cover⟩
  case nonempty => exact fun r hr => Cuts.le_of_mem_cuts hQ hQlo (hrs ▸ hr)
  case adjacent => exact hrs ▸ Cuts.cuts_chain _ _
  case increasing => exact hrs ▸ Cuts.cuts_pairwise hQ _
  case below_max =>
    exact fun r hr => lt_of_le_of_lt (hhi r hr) (adjustUpperBound_lt cont _ _ _ hmax)
  case below_boundary =>
    intro hv hd r hr
    have hE : contAggEpochMax cont param env =
        adjustUpperBound cont true false (env.hlc - env.interval) := by
      rw [contAggEpochMax, hv, hd]
    exact le_trans (hE ▸ hhi r hr) (adjustUpperBound_le_boundary cont _)
  case above_kept =>
    intro s hs hsm r hr
    exact lt_of_lt_of_le (lt_aggResumeLo hM (mem_contSnapshotsCopy cont hsorted hs) hsm) (hlo r hr)
  case kept_not_inside =>
    rintro s hs r hr ⟨hs₁, hs₂⟩
    rcases mem_cutPoints_cases hM (mem_contSnapshotsCopy cont hsorted hs) with hs' | hs' | hs'
    · exact absurd (lt_of_lt_of_le hs' (hlo r hr)) (Nat.not_lt.mpr hs₁)
    · exact Cuts.not_mem_inside_take hP rs.length (hrs ▸ hr) hs' ⟨hs₁, hs₂⟩
    · exact absurd (lt_of_lt_of_le hs₂ (hhi r hr)) (Nat.not_lt.mpr hs')
  case cover =>
    intro r₀ h₀ r₁ h₁ x hx₀ hx₁
    rw [hrs] at h₀ h₁ ⊢
    exact Cuts.countP_cuts hQ hQlo h₀ h₁ hx₀ hx₁

theorem contChildAggregate_ranges_fence_between :
    ([5, 20] : List ℕ).Pairwise (· < ·) ∧ ((12 : ℕ) = 0 ∨ (12 : ℕ) ∉ ([5, 20] : List ℕ)) ∧
      (0 : ℕ) < 100 ∧
      AggRangesOk ⟨[5, 20], 100, 30, 0, 0, 0, 12, 0⟩ ⟨true, 0⟩ ⟨50, 10, false, false, false, true⟩
        (contChildAggregate ⟨[5, 20], 100, 30, 0, 0, 0, 12, 0⟩ (fun _ _ => 0) ⟨true, 0⟩
          ⟨50, 10, false, false, false, true⟩).epochRanges :=
  ⟨by decide, by decide, by decide,
    contChildAggregate_ranges ⟨[5, 20], 100, 30, 0, 0, 0, 12, 0⟩ (fun _ _ => 0) ⟨true, 0⟩
      ⟨50, 10, false, false, false, true⟩ (by decide) (by decide) (by decide)⟩

example : (contChildAggregate ⟨[5, 20], 100, 30, 0, 0, 0, 12, 0⟩ (fun _ _ => 0) ⟨true, 0⟩
    ⟨50, 10, false, false, false, true⟩).epochRanges = [(0, 5), (6, 12), (13, 20), (21, 30)] := by
  decide

/- Two snapshots one epoch apart give the single-epoch range `[6, 6]`, which `vos_aggregate`
refuses. -/
example : (contChildAggregate ⟨[5, 6], 100, 100, 0, 0, 0, 0, 0⟩ (fun _ _ => 0) ⟨true, 0⟩
    ⟨50, 10, false, false, false, true⟩).calls.map (fun c => (callRange c, vosAggregateEprValid c.1)) =
    [((0, 5), true), ((6, 6), false), ((7, 40), true)] := by
  decide

/-- A fence equal to a snapshot is copied next to it, and a VOS aggregation pass then calls
`agg_cb` on the inverted range `[s + 1, s]`, on which `vos_aggregate` fails its assertion. A
snapshot and a rebuild fence at epoch 5, nothing aggregated yet, the clock at 50 and an
interval of 10: the calls are `[0, 5]`, `[6, 5]` and `[6, 40]`. -/
theorem contChildAggregate_fence_dup :
    (contChildAggregate ⟨[5], 100, 100, 0, 0, 0, 5, 0⟩ (fun _ _ => 0) ⟨true, 0⟩
        ⟨50, 10, false, false, false, true⟩).epochRanges = [(0, 5), (6, 5), (6, 40)] ∧
      (contChildAggregate ⟨[5], 100, 100, 0, 0, 0, 5, 0⟩ (fun _ _ => 0) ⟨true, 0⟩
        ⟨50, 10, false, false, false, true⟩).calls.map (fun c => vosAggregateEprValid c.1) =
        [true, false, true] := by
  decide

end Daos.Container

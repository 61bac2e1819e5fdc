import Mathlib
import Daos.Lib.Intervals
import Daos.Pool.Map

/-!
# Redundancy-factor verification (`common/pool_map.c`, `pool_map_rf_verify`)

`pool_map_rf_verify` decides whether more node (or rank) domains than the redundancy factor
have failed at the same time since the pool map version `last_ver`. For each domain,
`pmap_node_check` collects the version ranges of its failed targets, `[co_fseq, PMAP_VER_MAX]`
for a `DOWN` target and `[co_fseq, co_out_ver]` for a `DOWNOUT` one. A range is folded into the
first recorded range it overlaps; the ranges are then sorted and merged once more
(`pmap_fail_ver_merge`). `pmap_fail_stat_check` then counts, for each range, the domains with
a range overlapping it.

**What is modelled.** Every step of the check, with the assertions of the merge and of the
final count as stops that carry their message; `daos_array_sort` (a comb sort) as the stable
insertion sort by the same comparison, which gives the same array because entries that compare
equal are equal. Allocation failures are left out.

**What is found.** `RfBroken` says what the check is for: more than `rf` domains failed at
one version since `last_ver`, one of them anew. The steps of the check lose versions:
`pmap_fail_node_add_tgt` sets `pf_new_fail` from the last target only, and the early exit of
`pmap_fail_ver_merge` drops the last range; and nested ranges fail its assertion on the order
of the ends (`poolMapRfVerify_misses`).
-/

namespace Daos.Pool

/-- `DER_RF`. -/
def derRf : ℤ := 2031

/-- `PMAP_VER_MAX`. -/
def pmapVerMax : ℕ := 2 ^ 32 - 1

/-- `struct pmap_fail_ver`. -/
structure PmapFailVer where
  pfStartVer : ℕ
  pfEndVer : ℕ
deriving DecidableEq, Repr

/-- The versions a range spans. -/
def PmapFailVer.ival (ver : PmapFailVer) : Ival ℕ :=
  ⟨ver.pfStartVer, ver.pfEndVer⟩

/-- `struct pmap_fail_node`: the ranges recorded for one domain. -/
structure PmapFailNode where
  pfVers : List PmapFailVer := []
  pfCoId : ℕ := 0
  pfDown : Bool := false
  pfNewFail : Bool := false
deriving DecidableEq, Repr

/-- `struct pmap_fail_stat`. -/
structure PmapFailStat where
  pfNodes : List PmapFailNode
  pfDownNr : ℕ
  pfNewfailNr : ℕ
  pfLastVer : ℕ
  pfRf : ℕ
deriving DecidableEq, Repr

/-- An assertion of the check that fails, by its message. -/
inductive RfStop where
  | assert (msg : String)
deriving DecidableEq, Repr

/-- `pmap_comp_failed`. -/
def pmapCompFailed (comp : PoolComponent) : Bool :=
  comp.coStatus == .down || (comp.coStatus == .downout && comp.coFlags == poCompfDown2out)

/-- `pmap_comp_failed_earlier`. -/
def pmapCompFailedEarlier (comp : PoolComponent) (ver : ℕ) : Bool :=
  (comp.coStatus == .downout && comp.coOutVer ≤ ver) || (comp.coStatus == .down && comp.coFseq ≤ ver)

/-- The range `pmap_fail_node_add_tgt` records for a failed target. -/
def pmapCompFailVer (comp : PoolComponent) : PmapFailVer :=
  ⟨comp.coFseq, if comp.coStatus = .down then pmapVerMax else comp.coOutVer⟩

/-- `pmap_fver_cmp (a, b) ≤ 0`: by start, then by end. -/
def pmapFverLe (a b : PmapFailVer) : Bool :=
  a.pfStartVer < b.pfStartVer || (a.pfStartVer == b.pfStartVer && a.pfEndVer ≤ b.pfEndVer)

/-- `daos_array_sort` of the ranges with `pmap_fver_sort_ops`. -/
def pmapFverSort (vers : List PmapFailVer) : List PmapFailVer :=
  vers.insertionSort fun a b => pmapFverLe a b

/-- `fver_overlap`. -/
def fverOverlap (a b : PmapFailVer) : Bool :=
  a.pfStartVer ≤ b.pfEndVer && b.pfStartVer ≤ a.pfEndVer

/-- Two ranges merged: the smaller start and the larger end. -/
def fverJoin (a b : PmapFailVer) : PmapFailVer :=
  ⟨min a.pfStartVer b.pfStartVer, max a.pfEndVer b.pfEndVer⟩

/-- The loop of `pmap_fail_node_add_tgt` over the recorded ranges: the first one that overlaps
the new range takes it in, otherwise the new range is appended. -/
def addFailVer (ver : PmapFailVer) : List PmapFailVer → List PmapFailVer
  | [] => [ver]
  | tmp :: rest => if fverOverlap tmp ver then fverJoin tmp ver :: rest else tmp :: addFailVer ver rest

/-- `pmap_fail_node_add_tgt`. -/
def pmapFailNodeAddTgt (lastVer : ℕ) (fnode : PmapFailNode) (comp : PoolComponent) :
    PmapFailNode :=
  { fnode with
    pfDown := fnode.pfDown || comp.coStatus == .down
    -- set from this target alone, whatever the targets before it were
    pfNewFail := decide (lastVer < comp.coFseq)
    pfVers := addFailVer (pmapCompFailVer comp) fnode.pfVers }

/-- The loop of `pmap_fail_ver_merge` from index `i` on, with `ver1` at `i`. -/
def pmapFailVerMergeLoop (ver1 : PmapFailVer) : List PmapFailVer → Except RfStop (List PmapFailVer)
  | [] => .ok [ver1]
  | ver2 :: rest =>
    if ¬ver1.pfStartVer ≤ ver2.pfStartVer then .error (.assert "bad order of pf_start_ver")
    else if ¬ver1.pfEndVer ≤ ver2.pfEndVer then .error (.assert "bad order of pf_end_ver")
    else if !fverOverlap ver1 ver2 then (pmapFailVerMergeLoop ver2 rest).map (ver1 :: ·)
    else
      match rest with
      -- `i == pf_ver_nr - 2` after the count drops: the loop leaves before the last range is
      -- shifted down, so `ver2` stays and the last range is gone
      | [_] => .ok [fverJoin ver1 ver2, ver2]
      | _ => pmapFailVerMergeLoop (fverJoin ver1 ver2) rest

/-- `pmap_fail_ver_merge`. -/
def pmapFailVerMerge (fnode : PmapFailNode) : Except RfStop PmapFailNode :=
  match fnode.pfVers with
  | ver1 :: ver2 :: rest =>
    (pmapFailVerMergeLoop ver1 (ver2 :: rest)).map fun vers => { fnode with pfVers := vers }
  | _ => .ok fnode

/-- The targets of a domain that `pmap_node_check` records: failed, and not failed by
`lastVer`. -/
def pmapNodeTargets (map : PoolMap) (lastVer : ℕ) (nodeDom : PoolDomain) : List PoolComponent :=
  (map.domainTargets nodeDom).filter fun comp =>
    pmapCompFailed comp && !pmapCompFailedEarlier comp lastVer

/-- `pmap_node_check`: records the domain's failures, and returns `-DER_RF` once more than `rf`
domains with a `DOWN` target are known and one domain failed anew. -/
def pmapNodeCheck (map : PoolMap) (nodeDom : PoolDomain) (fstat : PmapFailStat) :
    Except RfStop (ℤ × PmapFailStat) :=
  match pmapNodeTargets map fstat.pfLastVer nodeDom with
  | [] => .ok (0, fstat)
  | tgts =>
    let fnode := tgts.foldl (pmapFailNodeAddTgt fstat.pfLastVer) {}
    if fnode.pfVers = [] then .ok (0, { fstat with pfNodes := fstat.pfNodes ++ [fnode] })
    else
      let fnode := { fnode with pfCoId := nodeDom.doComp.coId, pfVers := pmapFverSort fnode.pfVers }
      match pmapFailVerMerge fnode with
      | .error e => .error e
      | .ok fnode =>
        let downNr := fstat.pfDownNr + if fnode.pfDown then 1 else 0
        let newfailNr := fstat.pfNewfailNr + if fnode.pfNewFail then 1 else 0
        let fstat :=
          { fstat with pfNodes := fstat.pfNodes ++ [fnode], pfDownNr := downNr,
                       pfNewfailNr := newfailNr }
        .ok (if downNr > fstat.pfRf ∧ newfailNr > 0 then -derRf else 0, fstat)

/-- `pmap_fail_ver_overlap`: the domains with a range that overlaps `fver`. -/
def pmapFailVerOverlap (fstat : PmapFailStat) (fver : PmapFailVer) : ℕ :=
  (fstat.pfNodes.filter fun fnode => fnode.pfVers.any fun tmp => fverOverlap tmp fver).length

/-- The inner loop of `pmap_fail_stat_check` over the ranges of one domain: the largest count
so far, the scan of the domain ending once it passes `rf`. -/
def pmapFailStatScanVers (fstat : PmapFailStat) : List PmapFailVer → ℕ → Except RfStop ℕ
  | [], maxFailNr => .ok maxFailNr
  | fver :: rest, maxFailNr =>
    let failNr := pmapFailVerOverlap fstat fver
    if failNr < 1 then .error (.assert "fail_nr >= 1")
    else
      let maxFailNr := if failNr > maxFailNr then failNr else maxFailNr
      if maxFailNr > fstat.pfRf then .ok maxFailNr
      else pmapFailStatScanVers fstat rest maxFailNr

/-- The outer loop of `pmap_fail_stat_check` over the domains. -/
def pmapFailStatScan (fstat : PmapFailStat) : List PmapFailNode → ℕ → Except RfStop ℕ
  | [], maxFailNr => .ok maxFailNr
  | fnode :: rest, maxFailNr =>
    match pmapFailStatScanVers fstat fnode.pfVers maxFailNr with
    | .error e => .error e
    | .ok maxFailNr => pmapFailStatScan fstat rest maxFailNr

/-- `pmap_fail_stat_check`. -/
def pmapFailStatCheck (fstat : PmapFailStat) : Except RfStop ℤ :=
  let rf := fstat.pfRf
  if fstat.pfNodes.length ≤ rf ∨ fstat.pfNewfailNr = 0 then .ok 0
  else if fstat.pfNodes.length = 1 then .ok (if rf ≥ 1 then 0 else -derRf)
  else if fstat.pfDownNr > rf then .ok (-derRf)
  else
    -- the corner case: the most domains whose ranges overlap one range
    (pmapFailStatScan fstat fstat.pfNodes 0).map fun maxFailNr =>
      if maxFailNr > rf then -derRf else 0

/-- `pmap_fail_stat_init`. -/
def pmapFailStatInit (lastVer rf : ℕ) : PmapFailStat :=
  ⟨[], 0, 0, lastVer, rf⟩

/-- The loop of `pool_map_rf_verify` over the domains, stopping at the first non-zero code. -/
def pmapNodeCheckAll (map : PoolMap) :
    List PoolDomain → PmapFailStat → Except RfStop (ℤ × PmapFailStat)
  | [], fstat => .ok (0, fstat)
  | nodeDom :: rest, fstat =>
    match pmapNodeCheck map nodeDom fstat with
    | .error e => .error e
    | .ok (rc, fstat) => if rc ≠ 0 then .ok (rc, fstat) else pmapNodeCheckAll map rest fstat

/-- The domain type a redundancy level names. -/
def redunCompType (rlvl : ℕ) : ℕ :=
  if rlvl = daosPropCoRedunNode then poCompTpNode else poCompTpRank

/-- `pool_map_rf_verify`. -/
def poolMapRfVerify (map : PoolMap) (lastVer rlvl rf : ℕ) : Except RfStop ℤ :=
  match poolMapFindDomain map (redunCompType rlvl) with
  | [] => .ok (-derInval)
  | nodeDoms =>
    match pmapNodeCheckAll map nodeDoms (pmapFailStatInit lastVer rf) with
    | .error e => .error e
    | .ok (rc, fstat) => if rc ≠ 0 then .ok rc else pmapFailStatCheck fstat

/-! ### What the check is for -/

/-- Version `v` lies in the failure set of a domain: in the range of one of its targets that
failed and had not failed by `lastVer`. -/
def FailedAt (map : PoolMap) (lastVer : ℕ) (nodeDom : PoolDomain) (v : ℕ) : Prop :=
  ∃ comp ∈ pmapNodeTargets map lastVer nodeDom, (pmapCompFailVer comp).ival.Mem v

instance (map : PoolMap) (lastVer : ℕ) (nodeDom : PoolDomain) (v : ℕ) :
    Decidable (FailedAt map lastVer nodeDom v) :=
  inferInstanceAs (Decidable (∃ comp ∈ _, _))

/-- One of the domain's recorded targets failed after `lastVer`. -/
def HasNewFailure (map : PoolMap) (lastVer : ℕ) (nodeDom : PoolDomain) : Prop :=
  ∃ comp ∈ pmapNodeTargets map lastVer nodeDom, lastVer < comp.coFseq

instance (map : PoolMap) (lastVer : ℕ) (nodeDom : PoolDomain) :
    Decidable (HasNewFailure map lastVer nodeDom) :=
  inferInstanceAs (Decidable (∃ comp ∈ _, _))

/-- The redundancy factor is broken since `lastVer`: a domain failed anew, and at some version
more than `rf` domains are failed. -/
def RfBroken (map : PoolMap) (lastVer rlvl rf : ℕ) : Prop :=
  (∃ nodeDom ∈ poolMapFindDomain map (redunCompType rlvl), HasNewFailure map lastVer nodeDom) ∧
    ∃ v, rf < ((poolMapFindDomain map (redunCompType rlvl)).filter
      fun nodeDom => decide (FailedAt map lastVer nodeDom v)).length

/-- **`pool_map_rf_verify` misses broken redundancy, and asserts on nested ranges.** With
`rf = 1` at the node level:
* since version 5, node 0 has a target down from 6 to 8, then one down from 3 to 7, and node 1
  one down from 2 to 7; both nodes are down at version 7 and node 0 failed anew, but node 0's
  last target sets `pf_new_fail` to 0, so no node counts as newly failed and the check
  returns 0;
* since version 0, node 0 has targets down over 2–3, 5–6, 10–12 and 1–5, and node 1 one over
  11–13; both are down at version 11, but the merge leaves early and drops node 0's range
  10–12, and the check returns 0;
* node 0 with targets down over 2–3, 5–6 and 1–20 keeps the nested ranges 1–20 and 5–6, and
  `pmap_fail_ver_merge` fails its assertion on the order of their ends. -/
theorem poolMapRfVerify_misses :
    RfBroken
      ⟨[{ doComp := { coType := poCompTpRoot, coNr := 2 }, doTargetNr := 3,
          doChildren := some 1, doTargets := some 0 },
        { doComp := { coType := poCompTpNode, coId := 0 }, doTargetNr := 2, doTargets := some 0 },
        { doComp := { coType := poCompTpNode, coId := 1 }, doTargetNr := 1, doTargets := some 2 }],
       [{ coStatus := .downout, coFlags := poCompfDown2out, coFseq := 6, coOutVer := 8 },
        { coStatus := .downout, coFlags := poCompfDown2out, coFseq := 3, coOutVer := 7 },
        { coStatus := .downout, coFlags := poCompfDown2out, coFseq := 2, coOutVer := 7 }]⟩
      5 daosPropCoRedunNode 1 ∧
    poolMapRfVerify
      ⟨[{ doComp := { coType := poCompTpRoot, coNr := 2 }, doTargetNr := 3,
          doChildren := some 1, doTargets := some 0 },
        { doComp := { coType := poCompTpNode, coId := 0 }, doTargetNr := 2, doTargets := some 0 },
        { doComp := { coType := poCompTpNode, coId := 1 }, doTargetNr := 1, doTargets := some 2 }],
       [{ coStatus := .downout, coFlags := poCompfDown2out, coFseq := 6, coOutVer := 8 },
        { coStatus := .downout, coFlags := poCompfDown2out, coFseq := 3, coOutVer := 7 },
        { coStatus := .downout, coFlags := poCompfDown2out, coFseq := 2, coOutVer := 7 }]⟩
      5 daosPropCoRedunNode 1 = .ok 0 ∧
    RfBroken
      ⟨[{ doComp := { coType := poCompTpRoot, coNr := 2 }, doTargetNr := 5,
          doChildren := some 1, doTargets := some 0 },
        { doComp := { coType := poCompTpNode, coId := 0 }, doTargetNr := 4, doTargets := some 0 },
        { doComp := { coType := poCompTpNode, coId := 1 }, doTargetNr := 1, doTargets := some 4 }],
       [{ coStatus := .downout, coFlags := poCompfDown2out, coFseq := 2, coOutVer := 3 },
        { coStatus := .downout, coFlags := poCompfDown2out, coFseq := 5, coOutVer := 6 },
        { coStatus := .downout, coFlags := poCompfDown2out, coFseq := 10, coOutVer := 12 },
        { coStatus := .downout, coFlags := poCompfDown2out, coFseq := 1, coOutVer := 5 },
        { coStatus := .downout, coFlags := poCompfDown2out, coFseq := 11, coOutVer := 13 }]⟩
      0 daosPropCoRedunNode 1 ∧
    poolMapRfVerify
      ⟨[{ doComp := { coType := poCompTpRoot, coNr := 2 }, doTargetNr := 5,
          doChildren := some 1, doTargets := some 0 },
        { doComp := { coType := poCompTpNode, coId := 0 }, doTargetNr := 4, doTargets := some 0 },
        { doComp := { coType := poCompTpNode, coId := 1 }, doTargetNr := 1, doTargets := some 4 }],
       [{ coStatus := .downout, coFlags := poCompfDown2out, coFseq := 2, coOutVer := 3 },
        { coStatus := .downout, coFlags := poCompfDown2out, coFseq := 5, coOutVer := 6 },
        { coStatus := .downout, coFlags := poCompfDown2out, coFseq := 10, coOutVer := 12 },
        { coStatus := .downout, coFlags := poCompfDown2out, coFseq := 1, coOutVer := 5 },
        { coStatus := .downout, coFlags := poCompfDown2out, coFseq := 11, coOutVer := 13 }]⟩
      0 daosPropCoRedunNode 1 = .ok 0 ∧
    poolMapRfVerify
      ⟨[{ doComp := { coType := poCompTpRoot, coNr := 1 }, doTargetNr := 3,
          doChildren := some 1, doTargets := some 0 },
        { doComp := { coType := poCompTpNode, coId := 0 }, doTargetNr := 3, doTargets := some 0 }],
       [{ coStatus := .downout, coFlags := poCompfDown2out, coFseq := 2, coOutVer := 3 },
        { coStatus := .downout, coFlags := poCompfDown2out, coFseq := 5, coOutVer := 6 },
        { coStatus := .downout, coFlags := poCompfDown2out, coFseq := 1, coOutVer := 20 }]⟩
      0 daosPropCoRedunNode 1 = .error (.assert "bad order of pf_end_ver") :=
  ⟨⟨by decide, 7, by decide⟩, by decide, ⟨by decide, 11, by decide⟩, by decide, by decide⟩

end Daos.Pool

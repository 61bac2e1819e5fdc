import Daos.Vos.Ilog.Fetch
import Daos.Vos.Ilog.Modify

/-!
# Aggregating the incarnation log (`ilog_aggregate`, `vos/ilog.c`)

Aggregation fetches the log for `DAOS_INTENT_PURGE`, walks the fetched entries up to the
end of the range and decides for each (`check_agg_entry`) whether it is kept, removed, or
removed together with the entry kept before it; it stops at an uncommitted entry. The
marks are left in the entries object, and `collapse_tree` then deregisters the marked
entries and rewrites the root: empty, one embedded entry, or the array of the entries
left.

The `D_ASSERT`s that depend on the entries object (an entry index past the log, a count of
marks that differs from the entries marked, a log that the fetch found but that is empty)
make the model return `none`; those about the caller's arguments do too. The two that
follow from the code before them (`check_agg_entry` only removes a previous entry that is
not a punch; no uncommitted entry reaches the removal test) are not modelled.
-/

namespace Daos.Vos

/-- `struct agg_arg`; `aa_prev` and `aa_prior_punch` are indices into the fetched entries
(`-1` is `none`), kept here with the entry at that index. -/
structure AggArg where
  epr : Daos.DaosEpochRange
  prev : Option (ℕ × IlogId)
  priorPunch : Option (ℕ × IlogId)
  punched : ℕ
  discard : Bool
  inprogress : Bool
  punchedMinor : ℕ

/-- `AGG_RC_DONE`, `AGG_RC_NEXT`, `AGG_RC_REMOVE`, `AGG_RC_REMOVE_PREV`, `AGG_RC_ABORT`. -/
inductive AggRc
  | done
  | next
  | remove
  | removePrev
  | abort
deriving DecidableEq, Repr

/-- `entry_punched`: whether the parent's punch covers the entry. -/
def entryPunched (id : IlogId) (agg : AggArg) : Bool :=
  let minorEpc := max id.punchMinorEph id.updateMinorEph
  if agg.punched < id.epoch then false
  else if id.epoch < agg.punched then true
  else minorEpc ≤ agg.punchedMinor

/-- `check_agg_entry` for the entry `id` at index `idx` with status `status`. -/
def checkAggEntry (id : IlogId) (status : ℤ) (idx : ℕ) (agg : AggArg) : AggRc × AggArg :=
  if agg.epr.eprHi < id.epoch then (.done, agg)
  else if agg.inprogress then
    -- removing only aborted or in-progress entries
    if status = ilogCommitted then (.next, agg)
    else if id.epoch < agg.epr.eprLo then (.next, agg)
    else (.remove, agg)
  else if agg.discard then
    if id.epoch < agg.epr.eprLo then (.next, agg) else (.remove, agg)
  else if status = ilogUncommitted then (.abort, agg)
  else
    let parentPunched := entryPunched id agg
    if id.epoch < agg.epr.eprLo then
      if parentPunched then (.next, agg)
      else if id.isPunch then (.next, { agg with priorPunch := some (idx, id) })
      -- a create covers the prior punch
      else (.next, { agg with priorPunch := none })
    else if agg.discard ∨ status = ilogRemoved ∨ parentPunched then (.remove, agg)
    else
      match agg.prev with
      | none => if !id.isPunch then (.next, agg) else (.remove, agg)
      | some (_, tmp) =>
        let punch := tmp.isPunch || entryPunched tmp agg
        if id.isPunch = punch then (.remove, agg)
        else if !id.isPunch then (.next, agg)
        -- the data punched is not in the range
        else if tmp.epoch < agg.epr.eprLo then (.next, { agg with priorPunch := some (idx, id) })
        else (.removePrev, agg)

/-- Mark entry `i` removed. -/
def IlogEntries.markRemoved (e : IlogEntries) (i : ℕ) : IlogEntries :=
  { e with info := Function.update e.info i { e.info i with removed := true } }

/-- The loop of `ilog_aggregate` over the fetched entries from index `idx`, with `acNr`
entries in the log: whether it aborted, the marked object, and how many marks it set;
`none` where an index reaches `acNr`. -/
def ilogAggLoop (acNr : ℕ) : ℕ → List IlogId → AggArg → IlogEntries → ℕ →
    Option (Bool × IlogEntries × ℕ)
  | _, [], _, e, removed => some (false, e, removed)
  | idx, id :: ids, agg, e, removed =>
    if acNr ≤ idx then none
    else
      match checkAggEntry id (e.info idx).status idx agg with
      | (.done, _) => some (false, e, removed)
      | (.next, agg) => ilogAggLoop acNr (idx + 1) ids { agg with prev := some (idx, id) } e removed
      | (.removePrev, agg) =>
        -- `check_agg_entry` returns `AGG_RC_REMOVE_PREV` only with `aa_prev` set
        let e := match agg.prev with
          | some (p, _) => e.markRemoved p
          | none => e
        ilogAggLoop acNr (idx + 1) ids { agg with prev := agg.priorPunch } (e.markRemoved idx)
          (removed + 2)
      | (.remove, agg) => ilogAggLoop acNr (idx + 1) ids agg (e.markRemoved idx) (removed + 1)
      | (.abort, _) => some (true, e, removed)

/-- The entries of `ids`, from index `i` on, that carry no removal mark. -/
def unmarkedFrom (e : IlogEntries) : ℕ → List IlogId → List IlogId
  | _, [] => []
  | i, id :: ids =>
    if (e.info i).removed then unmarkedFrom e (i + 1) ids else id :: unmarkedFrom e (i + 1) ids

/-- The loop of `collapse_tree` that deregisters every marked entry from index `i` on; the
first failure is returned. -/
def logDelMarkedFrom (env : IlogEnv) (e : IlogEntries) : ℕ → List IlogId → ℤ
  | _, [] => 0
  | i, id :: ids =>
    if (e.info i).removed then
      let rc := env.cbs.logDel id true
      if rc ≠ 0 then rc else logDelMarkedFrom env e (i + 1) ids
    else logDelMarkedFrom env e (i + 1) ids

/-- `collapse_tree`: rewrite the root without the `removed` marked entries. -/
def collapseTree (env : IlogEnv) (c : IlogContext) (e : IlogEntries) (removed : ℕ) :
    Option (ℤ × IlogContext) :=
  if removed = 0 then some (0, c)
  else
    let c := ilogTxBegin c
    let entries := c.root.body.entries
    let rc := logDelMarkedFrom env e 0 entries
    if rc ≠ 0 then some (rc, c)
    else if entries.length = removed then some (resetRoot c none)
    else if entries.length = removed + 1 then
      -- all but one entry removed: move it to the root
      match (unmarkedFrom e 0 entries).head? with
      | some id => some (resetRoot c (some id))
      | none => none
    else
      let kept := unmarkedFrom e 0 entries
      -- `nr == ac_nr - removed`
      if kept.length + removed ≠ entries.length then none
      else
        match c.root.body with
        | .tree array => some (0, ilogPtrSet c ⟨.tree { array with ids := kept }, c.root.magic⟩)
        -- an array is the only root with more than two entries
        | _ => some (0, c)

/-- `ilog_aggregate`: the return code (`1` for a log left empty), the root, and the entries
object it used. -/
def ilogAggregate (env : IlogEnv) (allocOk : Bool) (root : IlogRoot) (epr : Daos.DaosEpochRange)
    (discard inprogress : Bool) (punchedMajor punchedMinor : ℕ) (e : IlogEntries) :
    Option (ℤ × IlogRoot × IlogEntries) :=
  if epr.eprHi < punchedMajor ∨ (inprogress = true ∧ discard = false) then none
  else
    let (rc, e) := ilogFetch env allocOk root daosIntentPurge false e
    if rc = -derNonexist then some (1, root, e)
    -- the fetch should have failed on an empty log
    else if root.body = .empty then none
    else
      let agg : AggArg := ⟨epr, none, none, punchedMajor, discard, inprogress, punchedMinor⟩
      match ilogAggLoop root.body.entries.length 0 (e.ids.take e.numEntries) agg e 0 with
      | none => none
      | some (true, e, _) =>
        let (rc, c) := ilogTxEnd root (IlogContext.start root) (-derTxBusy)
        some (rc, c.root, e)
      | some (false, e, removed) =>
        match collapseTree env (IlogContext.start root) e removed with
        | none => none
        | some (rc, c) =>
          let empty := decide (c.root.body = .empty)
          let (rc, c) := ilogTxEnd root c rc
          if rc ≠ 0 then some (rc, c.root, e)
          else some (if empty then 1 else 0, c.root, e)

end Daos.Vos

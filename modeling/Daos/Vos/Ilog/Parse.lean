import Daos.Vos.Ilog.Fetch

/-!
# Reading the incarnation log (`vos_parse_ilog`, `vos/vos_ilog.c`)

`vos_ilog_fetch` fetches a log and parses it for a read at the end of an epoch range:
walking the entries from the latest, it finds the epoch since which the entity exists in
its current incarnation (`ii_create`), the punch before it (`ii_prior_punch`), and what
is uncommitted or uncertain. A parent's punch later than an entry ends the walk as if it
were the log's own.

The `D_ASSERT`s of the parse on its arguments make the model return `none`; the one on an
entry's status (every entry reaching it is committed) follows from the statuses a fetch
keeps and is not modelled.
-/

namespace Daos.Vos

/-- `struct vos_punch_record`. -/
structure VosPunchRecord where
  prEpc : ℕ
  prMinorEpc : ℕ
deriving DecidableEq, Repr

/-- `vos_epc_punched`: whether the punch is at or after `(epc, minorEpc)`. -/
def vosEpcPunched (epc minorEpc : ℕ) (punch : VosPunchRecord) : Bool :=
  if punch.prEpc < epc then false
  else if epc < punch.prEpc then true
  else minorEpc ≤ punch.prMinorEpc

/-- `vos_ilog_punched`: whether the punch covers the entry, by its own kind's minor epoch. -/
def vosIlogPunched (id : IlogId) (punch : VosPunchRecord) : Bool :=
  if id.isPunch then vosEpcPunched id.epoch id.punchMinorEph punch
  else vosEpcPunched id.epoch id.updateMinorEph punch

/-- `vos_ilog_punch_covered`: whether the entry has a punch that covers `punch`. -/
def vosIlogPunchCovered (id : IlogId) (punch : VosPunchRecord) : Bool :=
  if !id.hasPunch then false
  else vosEpcPunched punch.prEpc punch.prMinorEpc ⟨id.epoch, id.punchMinorEph⟩

/-- The parsed part of `struct vos_ilog_info`. -/
structure VosIlogInfo where
  uncommitted : ℕ
  create : ℕ
  priorPunch : VosPunchRecord
  priorAnyPunch : VosPunchRecord
  nextPunch : ℕ
  uncertainCreate : ℕ
  empty : Bool
  fullScan : Bool
deriving DecidableEq, Repr

/-- The reverse loop of `vos_parse_ilog` over the entries with their statuses, latest
first: the info it leaves, and the code of an early return (`none` when the loop runs out
or breaks). -/
def vosParseIlogLoop (epr : Daos.DaosEpochRange) (bound : ℕ) (punch : VosPunchRecord) :
    List (IlogId × ℤ) → VosIlogInfo → VosIlogInfo × Option ℤ
  | [], info => (info, none)
  | (id, status) :: rest, info =>
    if status = ilogRemoved then vosParseIlogLoop epr bound punch rest info
    else
      let info := { info with empty := false }
      -- a later punch of the parent counts as the prior punch
      if vosIlogPunched id punch then
        let info := { info with priorPunch := punch }
        let info :=
          if vosEpcPunched info.priorAnyPunch.prEpc info.priorAnyPunch.prMinorEpc punch then
            { info with priorAnyPunch := punch }
          else info
        (info, none)
      else if epr.eprHi < id.epoch then
        let info := { info with fullScan := false }
        if epr.eprLo ≠ 0 then (info, some 0)
        else if id.hasPunch then
          -- a punch within the uncertainty range restarts the transaction
          if id.epoch ≤ bound then (info, some (-derTxRestart))
          else
            vosParseIlogLoop epr bound punch rest
              (if status = ilogCommitted then { info with nextPunch := id.epoch } else info)
        else
          vosParseIlogLoop epr bound punch rest
            (if id.epoch ≤ bound then { info with uncertainCreate := id.epoch } else info)
      else if status = -derInprogress then (info, some (-derInprogress))
      else
        let info :=
          if vosIlogPunchCovered id info.priorAnyPunch then
            { info with priorAnyPunch := ⟨id.epoch, id.punchMinorEph⟩ }
          else info
        if status = ilogUncommitted then
          vosParseIlogLoop epr bound punch rest
            (if info.uncommitted < id.epoch ∧ info.create < id.epoch ∧
                vosEpcPunched id.epoch id.punchMinorEph info.priorPunch = false then
              { info with uncommitted := id.epoch }
            else info)
        else
          let info := if info.uncommitted < id.epoch then { info with uncommitted := 0 } else info
          if id.hasPunch then
            let info := { info with priorPunch := ⟨id.epoch, id.punchMinorEph⟩ }
            (if !id.isPunch then { info with create := id.epoch } else info, none)
          else vosParseIlogLoop epr bound punch rest { info with create := id.epoch }

/-- The forward check of `vos_parse_ilog` for a range that does not start at `0`: a live
entry below it means the range does not hold all the data. -/
def vosParseIlogBelow (lo : ℕ) : List (IlogId × ℤ) → Bool
  | [] => false
  | (id, status) :: rest =>
    if lo ≤ id.epoch then false
    else if status = ilogRemoved then vosParseIlogBelow lo rest
    else true

/-- `vos_parse_ilog` over the fetched entries with their statuses. -/
def vosParseIlog (info : VosIlogInfo) (epr : Daos.DaosEpochRange) (bound : ℕ)
    (punch : VosPunchRecord) (entries : List (IlogId × ℤ)) : Option (ℤ × VosIlogInfo) :=
  if epr.eprHi < punch.prEpc then none
  else
    match vosParseIlogLoop epr bound punch entries.reverse info with
    | (info, some rc) => some (rc, info)
    | (info, none) =>
      if epr.eprLo ≠ 0 ∧ vosParseIlogBelow epr.eprLo entries then
        some (0, { info with fullScan := false })
      else
        let info :=
          if vosEpcPunched info.priorPunch.prEpc info.priorPunch.prMinorEpc punch then
            { info with priorPunch := punch }
          else info
        let info :=
          if vosEpcPunched info.priorAnyPunch.prEpc info.priorAnyPunch.prMinorEpc punch then
            { info with priorAnyPunch := punch }
          else info
        some (0, info)

/-- What `vos_ilog_fetch_internal` sets before parsing. -/
def vosIlogInfoInit : VosIlogInfo := ⟨0, 0, ⟨0, 0⟩, ⟨0, 0⟩, 0, 0, true, true⟩

/-- `vos_ilog_fetch_internal`: fetch into the entries object, then parse with the parent's
punch (or the one given); `info` is the caller's, returned as it is on a fetch error. -/
def vosIlogFetchInternal (env : IlogEnv) (allocOk : Bool) (root : IlogRoot) (intent : ℕ)
    (epr : Daos.DaosEpochRange) (bound : ℕ) (hasCond : Bool) (punched : Option VosPunchRecord)
    (parent : Option VosIlogInfo) (info : VosIlogInfo) (e : IlogEntries) :
    Option (ℤ × VosIlogInfo × IlogEntries) :=
  let (rc, e) := ilogFetch env allocOk root intent hasCond e
  if rc ≠ -derNonexist ∧ rc ≠ 0 then some (rc, info, e)
  else
    let punch := match parent with
      | some p => p.priorPunch
      | none => punched.getD ⟨0, 0⟩
    let info : VosIlogInfo :=
      match parent with
      | some p => { vosIlogInfoInit with priorAnyPunch := p.priorAnyPunch,
                                         uncommitted := p.uncommitted }
      | none => vosIlogInfoInit
    if rc ≠ 0 then some (rc, info, e)
    else (vosParseIlog info epr bound punch e.result).map fun (rc, info) => (rc, info, e)

/-- `vos_ilog_fetch_`: a read at `epoch`, over the range `[0, epoch]`. -/
def vosIlogFetch (env : IlogEnv) (allocOk : Bool) (root : IlogRoot) (intent : ℕ) (epoch bound : ℕ)
    (hasCond : Bool) (punched : Option VosPunchRecord) (parent : Option VosIlogInfo)
    (info : VosIlogInfo) (e : IlogEntries) : Option (ℤ × VosIlogInfo × IlogEntries) :=
  vosIlogFetchInternal env allocOk root intent ⟨0, epoch⟩ bound hasCond punched parent info e

end Daos.Vos

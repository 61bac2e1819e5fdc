import Daos.Vos.Ilog.Basic

/-!
# Fetching the incarnation log (`ilog_fetch` and its cache, `vos/ilog.c`)

A fetch fills an `ilog_entries` object with the log's entries and, for each, the status of
its DTX for the caller's intent. The object keeps, in its private part, the version of the
log it was filled from; a later fetch of the same root at the same version reuses the
entries and asks again only for the statuses that may have changed (`ilog_fetch_cached`,
`ilog_status_refresh`). A fetch that fails sets the recorded version to `ILOG_MAGIC`, meant
as a value no log has, so that the next fetch starts afresh.

**What is modelled.** `ie_ids` points into the log; the model keeps the entries it pointed
at when the object was filled (`ids`), which is what it points at for as long as the
recorded version is the log's. `ie_info` is an array indexed from `0`, here a function; a
fresh allocation is zeroed (`D_ALLOC_ARRAY`). One log is modelled, so the check that the
object's context is this root is a flag (`cached`). The status callback is the one of the
call (`IlogEnv`); the context the object keeps holds the same callbacks.
-/

namespace Daos.Vos

/-- `NUM_EMBEDDED`: status entries the private part holds before one array is allocated. -/
def numEmbedded : ℕ := 8

/-- `struct ilog_info`: the status of an entry and the mark aggregation leaves on an entry
it removes. -/
structure IlogInfo where
  status : ℤ
  removed : Bool
deriving DecidableEq, Repr, Inhabited

/-- `struct ilog_entries` with its private part `struct ilog_priv`. -/
structure IlogEntries where
  /-- What `ie_ids` points at. -/
  ids : List IlogId
  /-- `ie_info`. -/
  info : ℕ → IlogInfo
  /-- `ie_num_entries`. -/
  numEntries : ℕ
  /-- `ip_lctx.ic_root` is this log's root. -/
  cached : Bool
  /-- `ip_log_version`. -/
  logVersion : ℕ
  /-- `ip_intent`. -/
  intent : ℕ
  /-- `ip_rc`. -/
  rc : ℤ
  /-- `ip_alloc_size`. -/
  allocSize : ℕ

/-- `ilog_fetch_init`: everything zero. -/
def ilogFetchInit : IlogEntries := ⟨[], fun _ => default, 0, false, 0, 0, 0, 0⟩

/-- The entries and statuses a fetch returns: the first `ie_num_entries` of each. -/
def IlogEntries.result (e : IlogEntries) : List (IlogId × ℤ) :=
  (e.ids.take e.numEntries).zipIdx.map fun (id, i) => (id, (e.info i).status)

/-- `retry` of `ilog_fetch` and `ilog_status_refresh`: not for an unconditional update or
punch. -/
def ilogFetchRetry (intent : ℕ) (hasCond : Bool) : Bool :=
  !((intent == daosIntentUpdate || intent == daosIntentPunch) && !hasCond)

/-- A status that fails a fetch: an error other than `-DER_INPROGRESS`. -/
def ilogStatusFails (status : ℤ) : Prop :=
  status < 0 ∧ status ≠ -derInprogress

instance (status : ℤ) : Decidable (ilogStatusFails status) :=
  inferInstanceAs (Decidable (_ ∧ _))

/-- The loop of `ilog_status_refresh` from entry `idx` on: with the same intent, committed
and removed entries keep their status; any other is asked again. -/
def ilogStatusRefreshLoop (env : IlogEnv) (intent : ℕ) (retry sameIntent : Bool) :
    ℕ → List IlogId → IlogEntries → IlogEntries
  | _, [], e => e
  | idx, id :: ids, e =>
    let st := (e.info idx).status
    if sameIntent = true ∧ (st = ilogCommitted ∨ st = ilogRemoved) then
      ilogStatusRefreshLoop env intent retry sameIntent (idx + 1) ids e
    else
      let status := ilogStatusGet env id intent retry
      if ilogStatusFails status then { e with rc := status }
      else
        ilogStatusRefreshLoop env intent retry sameIntent (idx + 1) ids
          { e with info := Function.update e.info idx ⟨status, false⟩ }

/-- `ilog_status_refresh`. -/
def ilogStatusRefresh (env : IlogEnv) (intent : ℕ) (hasCond : Bool) (e : IlogEntries) :
    IlogEntries :=
  ilogStatusRefreshLoop env intent (ilogFetchRetry intent hasCond) (intent == e.intent) 0
    (e.ids.take e.numEntries) { e with intent := intent, rc := 0 }

/-- `ilog_fetch_cached`: whether the entries are reused, and the object as it leaves it;
on a miss it is reset to the root's version. -/
def ilogFetchCached (env : IlogEnv) (root : IlogRoot) (intent : ℕ) (hasCond : Bool)
    (e : IlogEntries) : Bool × IlogEntries :=
  if e.cached = false ∨ e.logVersion ≠ ilogMag2ver root.magic then
    (false, { e with cached := true, numEntries := 0, intent := intent,
                     logVersion := ilogMag2ver root.magic, rc := 0 })
  else if e.rc = -derNonexist then (true, e)
  else (true, ilogStatusRefresh env intent hasCond e)

/-- `prepare_entries`: room for a status per entry (a new zeroed array past
`NUM_EMBEDDED` and the current allocation), and `ie_ids` set to the entries. -/
def prepareEntries (allocOk : Bool) (e : IlogEntries) (entries : List IlogId) :
    ℤ × IlogEntries :=
  if entries.length ≤ numEmbedded ∨ entries.length ≤ e.allocSize then
    (0, { e with ids := entries })
  else if !allocOk then (-derNomem, e)
  else (0, { e with ids := entries, info := fun _ => default, allocSize := entries.length })

/-- The loop of `ilog_fetch` over the log's entries, appending each status. -/
def ilogFetchLoop (env : IlogEnv) (intent : ℕ) (retry : Bool) :
    List IlogId → IlogEntries → ℤ × IlogEntries
  | [], e => (0, e)
  | id :: ids, e =>
    let status := ilogStatusGet env id intent retry
    if ilogStatusFails status then (status, e)
    else
      ilogFetchLoop env intent retry ids
        { e with info := Function.update e.info e.numEntries ⟨status, false⟩,
                 numEntries := e.numEntries + 1 }

/-- The `out:` tail of `ilog_fetch`: no entry is `-DER_NONEXIST`, and the code is cached. -/
def ilogFetchOut (rc : ℤ) (e : IlogEntries) : ℤ × IlogEntries :=
  let rc := if e.numEntries = 0 then -derNonexist else rc
  (rc, { e with rc := rc })

/-- The `fail:` tail of `ilog_fetch`: fetch again next time. -/
def ilogFetchFail (rc : ℤ) (e : IlogEntries) : ℤ × IlogEntries :=
  (rc, { e with logVersion := ilogMagic })

/-- `ilog_fetch`, with the outcome of `D_ALLOC_ARRAY`. -/
def ilogFetch (env : IlogEnv) (allocOk : Bool) (root : IlogRoot) (intent : ℕ) (hasCond : Bool)
    (e : IlogEntries) : ℤ × IlogEntries :=
  match ilogFetchCached env root intent hasCond e with
  | (true, e) =>
    if e.rc = -derNonexist then (e.rc, e)
    -- error codes are not cached
    else if e.rc < 0 then (e.rc, { e with rc := 0, logVersion := ilogMagic })
    else (0, e)
  | (false, e) =>
    match root.body with
    | .empty => ilogFetchOut 0 e
    | body =>
      let (rc, e) := prepareEntries allocOk e body.entries
      if rc ≠ 0 then ilogFetchFail rc e
      else
        let (rc, e) := ilogFetchLoop env intent (ilogFetchRetry intent hasCond) body.entries e
        if rc ≠ 0 then ilogFetchFail rc e else ilogFetchOut 0 e

end Daos.Vos

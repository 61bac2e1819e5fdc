import Mathlib
import Daos.Types

/-!
# The incarnation log — data, version and transactions (`vos/ilog.c`, `vos/ilog.h`)

An incarnation log records when a VOS object or key was created (an update) and removed (a
punch): one entry per epoch, each with the DTX that wrote it and two minor epochs, the
punch's and the update's, of which the larger says what the entry is (`ilog_is_punch`).
The root holds no entry, one embedded entry, or a pointer to an array of entries with its
length `ia_len` and allocated length `ia_max_len`. Its magic word carries a 4-bit magic
number and a 28-bit version, bumped by every transaction that writes the log, so that a
fetched copy of the entries knows when it is stale.

**What is modelled.** The root as it is in persistent memory, and the context of one call
(`struct ilog_context`): the root as the call's writes leave it, whether a transaction is
open and whether it still has to bump the version. Every write of `ilog.c` is made through
`ilog_ptr_set` (or into a fresh allocation), so it is undo-logged: a transaction that ends
with an error restores the root it began from (`ilogTxEnd`). The DTX callbacks of
`struct ilog_desc_cbs`, `dtx_is_committed` and the outcome of `umem_zalloc` are
parameters (`IlogEnv`); `umem_tx_begin` and `umem_tx_add_ptr` are taken to succeed, their
failure being one more error that aborts the transaction. `lr_ts_idx`, the allocation
offsets and the frees are left out: no function here reads them back.
-/

namespace Daos.Vos

/-- `struct ilog_id`: the DTX of an entry, its punch and update minor epochs (together the
`id_value` word), and its epoch. -/
structure IlogId where
  txId : ℕ
  punchMinorEph : ℕ
  updateMinorEph : ℕ
  epoch : ℕ
deriving DecidableEq, Repr

/-- `ilog_is_punch`. -/
def IlogId.isPunch (id : IlogId) : Bool := id.updateMinorEph < id.punchMinorEph

/-- `ilog_has_punch`. -/
def IlogId.hasPunch (id : IlogId) : Bool := 0 < id.punchMinorEph

/-! ### Status values, intents and error numbers -/

/-- `ILOG_COMMITTED`. -/
def ilogCommitted : ℤ := 1
/-- `ILOG_UNCOMMITTED`. -/
def ilogUncommitted : ℤ := 2
/-- `ILOG_REMOVED`. -/
def ilogRemoved : ℤ := 3

/-- `DAOS_INTENT_DEFAULT`. -/
def daosIntentDefault : ℕ := 0
/-- `DAOS_INTENT_PURGE`. -/
def daosIntentPurge : ℕ := 1
/-- `DAOS_INTENT_UPDATE`. -/
def daosIntentUpdate : ℕ := 2
/-- `DAOS_INTENT_PUNCH`. -/
def daosIntentPunch : ℕ := 3

/-- `DER_NO_PERM`. -/
def derNoPerm : ℤ := 1001
/-- `DER_INVAL`. -/
def derInval : ℤ := 1003
/-- `DER_NONEXIST`. -/
def derNonexist : ℤ := 1005
/-- `DER_NOSPACE`. -/
def derNospace : ℤ := 1007
/-- `DER_ALREADY`. -/
def derAlready : ℤ := 1008
/-- `DER_NOMEM`. -/
def derNomem : ℤ := 1009
/-- `DER_INPROGRESS`. -/
def derInprogress : ℤ := 2018
/-- `DER_TX_RESTART`. -/
def derTxRestart : ℤ := 2025
/-- `DER_TX_BUSY`. -/
def derTxBusy : ℤ := 2028
/-- `DER_TX_UNCERTAIN`. -/
def derTxUncertain : ℤ := 2033

/-! ### Magic and version -/

/-- `ILOG_MAGIC`. -/
def ilogMagic : ℕ := 6

/-- `ILOG_VERSION_INC`: the version sits above the 4 magic bits. -/
def ilogVersionInc : ℕ := 16

/-- The largest version, `ILOG_VERSION_MASK >> ILOG_MAGIC_BITS` of a 32-bit magic word. -/
def ilogVersionMax : ℕ := 2 ^ 28 - 1

/-- `ILOG_MAGIC_VALID`. -/
def ilogMagicValid (magic : ℕ) : Bool := magic % ilogVersionInc = ilogMagic

/-- `ilog_mag2ver`. -/
def ilogMag2ver (magic : ℕ) : ℕ :=
  if ilogMagicValid magic then magic / ilogVersionInc else 0

/-- The magic word `ilog_ver_inc` computes: the next version, wrapping from the largest one
to `1`. -/
def ilogVerInc (magic : ℕ) : ℕ :=
  if magic / ilogVersionInc = ilogVersionMax then magic % ilogVersionInc + ilogVersionInc
  else magic + ilogVersionInc

/-! ### The root -/

/-- `struct ilog_array`: the entries in use (`ia_len` of them) and `ia_max_len`. -/
structure IlogArray where
  ids : List IlogId
  maxLen : ℕ
deriving DecidableEq, Repr

/-- What `struct ilog_root` holds: no entry (`ilog_empty`), one embedded entry, or an
array. -/
inductive IlogBody
  | empty
  | embedded (id : IlogId)
  | tree (array : IlogArray)
deriving DecidableEq, Repr

/-- `struct ilog_root`: its body and its magic word. -/
structure IlogRoot where
  body : IlogBody
  magic : ℕ
deriving DecidableEq, Repr

/-- The entries `ilog_log2cache` exposes, in order. -/
def IlogBody.entries : IlogBody → List IlogId
  | .empty => []
  | .embedded id => [id]
  | .tree array => array.ids

/-- Overwrite the `id_value` of entry `i` (its tx id and minor epochs; the epoch stays). -/
def IlogBody.setId (i : ℕ) (id : IlogId) : IlogBody → IlogBody
  | .empty => .empty
  | .embedded _ => .embedded id
  | .tree array => .tree { array with ids := array.ids.set i id }

/-- `ilog_create`: an empty root at version 1. -/
def ilogCreate : IlogRoot := ⟨.empty, ilogMagic + ilogVersionInc⟩

/-! ### Callbacks and surroundings -/

/-- `struct ilog_desc_cbs`: the status of an entry's DTX for an intent (with `retry`);
whether an entry was written by the current DTX (a return code and `same`); registering a
new entry with the current DTX (a return code and the tx id it writes into the entry); and
removing one from the DTX's records. An absent callback is the constant one
(`ILOG_COMMITTED`; `0` and same; `0` and the entry's own tx id; `0`). -/
structure IlogDescCbs where
  logStatus : IlogId → ℕ → Bool → ℤ
  isSameTx : IlogId → ℤ × Bool
  logAdd : IlogId → ℤ × ℕ
  logDel : IlogId → Bool → ℤ

/-- The callbacks of a log opened with none: every DTX committed and the same, entries
kept as given. -/
def ilogNoCbs : IlogDescCbs :=
  ⟨fun _ _ _ => ilogCommitted, fun _ => (0, true), fun id => (0, id.txId), fun _ _ => 0⟩

/-- What one call depends on besides the root: the callbacks, `dtx_is_committed`,
`ic_fixed_epoch` of the handle, and whether `umem_zalloc` finds space. -/
structure IlogEnv where
  cbs : IlogDescCbs
  dtxIsCommitted : IlogId → Bool
  fixedEpoch : Bool
  allocOk : Bool

/-- `ilog_status_get`: an in-progress DTX is uncommitted to an update or a punch. -/
def ilogStatusGet (env : IlogEnv) (id : IlogId) (intent : ℕ) (retry : Bool) : ℤ :=
  let rc := env.cbs.logStatus id intent retry
  if (intent = daosIntentUpdate ∨ intent = daosIntentPunch) ∧ rc = -derInprogress then
    ilogUncommitted
  else rc

/-! ### The context of one call and its transaction -/

/-- `struct ilog_context`, as far as a call changes it: the root as its writes leave it,
`ic_in_txn` and `ic_ver_inc`. -/
structure IlogContext where
  root : IlogRoot
  inTxn : Bool
  verInc : Bool
deriving DecidableEq, Repr

/-- A call's context before it writes anything. -/
def IlogContext.start (root : IlogRoot) : IlogContext := ⟨root, false, false⟩

/-- `ilog_tx_begin`: the first write opens the transaction and asks for a version bump. -/
def ilogTxBegin (c : IlogContext) : IlogContext :=
  if c.inTxn then c else { c with inTxn := true, verInc := true }

/-- `ilog_ver_inc`: the bumped magic word; the bump is then no longer pending. -/
def ilogVerIncCtx (c : IlogContext) : ℕ × IlogContext :=
  (ilogVerInc c.root.magic, { c with verInc := false })

/-- `ilog_ptr_set`: write inside the transaction. -/
def ilogPtrSet (c : IlogContext) (root : IlogRoot) : IlogContext :=
  { ilogTxBegin c with root := root }

/-- `ilog_tx_end`: an error aborts the transaction, which restores the root `saved` it
began from; success bumps the version if that is still pending. -/
def ilogTxEnd (saved : IlogRoot) (c : IlogContext) (rc : ℤ) : ℤ × IlogContext :=
  if !c.inTxn then (rc, c)
  else if rc ≠ 0 then (rc, { c with root := saved, inTxn := false })
  else if c.verInc then
    (0, ⟨{ c.root with magic := ilogVerInc c.root.magic }, false, false⟩)
  else (0, { c with inTxn := false })

end Daos.Vos

import Daos.Lib.Keyed
import Daos.Vos.Ilog.Basic

/-!
# Modifying the incarnation log (`ilog_modify` and its helpers, `vos/ilog.c`)

`ilog_update`, `ilog_persist` and `ilog_abort` all go through `ilog_modify`, which looks at
the shape of the root: an empty root takes the new entry as its embedded one; an embedded
entry is changed in place, removed, kept, or moved with the new one into a fresh array
(`ilog_root_migrate`); an array is searched from the end for the last entry at or before
the new epoch, which is changed in place (`update_inplace`), removed (`remove_entry`,
falling back to an embedded or empty root at two and one entries), or followed by the new
entry, in a reallocated array when the current one is full.

Each helper returns the C return code with the context its writes leave; `ilogModify`
ends with `ilog_tx_end`, so that an error restores the root the call began from. The
`D_ASSERT`s on the caller's input (a zero epoch, a zero minor epoch) make the model return
`none`. The call of `ilog_log_del` after a successful persist or abort only informs the DTX
and is left out.
-/

namespace Daos.Vos

/-- `ILOG_OP_UPDATE`, `ILOG_OP_PERSIST`, `ILOG_OP_ABORT`. -/
inductive IlogOp
  | update
  | persist
  | abort
deriving DecidableEq, Repr

/-- `ILOG_ARRAY_INIT_NR`. -/
def ilogArrayInitNr : ℕ := 3

/-- `check_equal`: whether `idOut` is the entry `idIn` names (`is_equal`), with the error of
two DTXs writing at one epoch. -/
def checkEqual (env : IlogEnv) (idOut idIn : IlogId) (update : Bool) : ℤ × Bool :=
  if idIn.epoch ≠ idOut.epoch then (0, false)
  else
    let (rc, same) := if update then env.cbs.isSameTx idOut else (0, idIn.txId == idOut.txId)
    if rc ≠ 0 then (rc, same)
    else if same then (0, true)
    else if !update then (0, false)
    else if env.dtxIsCommitted idOut then
      -- an overwrite by another, committed, DTX that would not change what the entry is
      if idIn.punchMinorEph ≠ 0 ∧ idOut.updateMinorEph < idOut.punchMinorEph then
        (-derAlready, false)
      else if idIn.updateMinorEph ≠ 0 ∧ idOut.punchMinorEph < idOut.updateMinorEph then
        (-derAlready, false)
      else (-derTxRestart, false)
    else if env.fixedEpoch then (0, true)
    else (-derTxRestart, false)

/-- The `set_id:` tail of `update_inplace`: a value with equal minor epochs is refused,
any other is written over entry `i`. -/
def ilogSetId (c : IlogContext) (i : ℕ) (saved : IlogId) : ℤ × Bool × IlogContext :=
  if saved.updateMinorEph = saved.punchMinorEph then (-derNoPerm, true, c)
  else (0, true, ilogPtrSet c { c.root with body := c.root.body.setId i saved })

/-- `update_inplace`: when `idOut`, entry `i`, is the entry `idIn` names, persist it (its tx
id becomes `0`), leave it to the caller to remove (abort), or raise the minor epoch of the
kind of operation it is not yet. -/
def updateInplace (env : IlogEnv) (c : IlogContext) (i : ℕ) (idOut idIn : IlogId)
    (opc : IlogOp) : ℤ × Bool × IlogContext :=
  let (rc, isEqual) := checkEqual env idOut idIn (opc == .update)
  if rc ≠ 0 ∨ isEqual = false ∨ opc = .abort then (rc, isEqual, c)
  else if opc = .persist then ilogSetId c i { idOut with txId := 0 }
  else if idOut.updateMinorEph < idOut.punchMinorEph ∧ idIn.punchMinorEph ≠ 0 then (0, true, c)
  else if idOut.punchMinorEph < idOut.updateMinorEph ∧ idIn.updateMinorEph ≠ 0 then (0, true, c)
  else
    let saved :=
      if idOut.punchMinorEph < idIn.punchMinorEph then
        { idOut with punchMinorEph := idIn.punchMinorEph }
      else if idOut.updateMinorEph < idIn.updateMinorEph then
        { idOut with updateMinorEph := idIn.updateMinorEph }
      else idOut
    if saved = idOut then (0, true, c) else ilogSetId c i saved

/-- `ilog_root_migrate`: the embedded entry `rootId` and the new entry move to a fresh
array of `ILOG_ARRAY_INIT_NR` entries, in epoch order. -/
def ilogRootMigrate (env : IlogEnv) (c : IlogContext) (rootId idIn : IlogId) :
    ℤ × IlogContext :=
  let c := ilogTxBegin c
  if !env.allocOk then (-derNospace, c)
  else
    let c := { c with verInc := true }
    let (rc, txId) := env.cbs.logAdd idIn
    if rc ≠ 0 then (rc, c)
    else
      let id := { idIn with txId := txId }
      let ids := if idIn.epoch < rootId.epoch then [id, rootId] else [rootId, id]
      let (magic, c) := ilogVerIncCtx c
      (0, ilogPtrSet c ⟨.tree ⟨ids, ilogArrayInitNr⟩, magic⟩)

/-- `reset_root`: the root becomes empty (`i = -1`, here `none`) or holds the one entry
given. -/
def resetRoot (c : IlogContext) (id : Option IlogId) : ℤ × IlogContext :=
  let c := ilogTxBegin c
  let (magic, c) := ilogVerIncCtx c
  let body : IlogBody :=
    match id with
    | none => .empty
    | some id => .embedded id
  (0, ilogPtrSet c ⟨body, magic⟩)

/-- `remove_entry`: remove entry `i` of the array; at one or two entries the root is reset
to none or to the other entry. -/
def removeEntry (c : IlogContext) (array : IlogArray) (i : ℕ) : ℤ × IlogContext :=
  match array.ids with
  | [_] => resetRoot c none
  -- `1 - i` keeps the other entry
  | [a, b] => resetRoot c (some (if i = 0 then b else a))
  | ids =>
    let c := ilogTxBegin c
    (0, ilogPtrSet c ⟨.tree { array with ids := ids.eraseIdx i }, c.root.magic⟩)

/-- The `insert:` tail of `ilog_tree_modify`: register the new entry with the DTX and put it
at index `i`, in an array of `(len + 1) * 2 - 1` entries when this one is full. -/
def ilogTreeInsert (env : IlogEnv) (c : IlogContext) (array : IlogArray) (i : ℕ)
    (idIn : IlogId) : ℤ × IlogContext :=
  let c := ilogTxBegin c
  let (rc, txId) := env.cbs.logAdd idIn
  if rc ≠ 0 then (rc, c)
  else
    let ids := array.ids.insertIdx i { idIn with txId := txId }
    if array.ids.length = array.maxLen then
      if !env.allocOk then (-derNospace, c)
      else (0, ilogPtrSet c ⟨.tree ⟨ids, (array.ids.length + 1) * 2 - 1⟩, c.root.magic⟩)
    else (0, ilogPtrSet c ⟨.tree ⟨ids, array.maxLen⟩, c.root.magic⟩)

/-- The status `ilog_modify` and `ilog_tree_modify` read of the entry found at or before
the new epoch: asked of the DTX when the entry lies in `epr`, uncommitted otherwise. -/
def ilogVisibility (env : IlogEnv) (id : IlogId) (epr : Daos.DaosEpochRange) : ℤ :=
  if epr.eprLo ≤ id.epoch ∧ id.epoch ≤ epr.eprHi then
    ilogStatusGet env id daosIntentUpdate true
  else ilogUncommitted

/-- A visibility that ends the call: an error other than `-DER_TX_UNCERTAIN`. -/
def ilogVisibilityFails (visibility : ℤ) : Prop :=
  visibility < 0 ∧ visibility ≠ -derTxUncertain

instance (visibility : ℤ) : Decidable (ilogVisibilityFails visibility) :=
  inferInstanceAs (Decidable (_ ∧ _))

/-- `ilog_tree_modify`. -/
def ilogTreeModify (env : IlogEnv) (c : IlogContext) (array : IlogArray) (idIn : IlogId)
    (epr : Daos.DaosEpochRange) (opc : IlogOp) : ℤ × IlogContext :=
  match Keyed.lastLe IlogId.epoch idIn.epoch array.ids with
  | none => if opc ≠ .update then (0, c) else ilogTreeInsert env c array 0 idIn
  | some (i, idOut) =>
    let visibility := ilogVisibility env idOut epr
    if ilogVisibilityFails visibility then (visibility, c)
    else
      let (rc, isEqual, c) := updateInplace env c i idOut idIn opc
      if rc ≠ 0 then (rc, c)
      else if isEqual then
        if opc ≠ .abort then (0, c) else removeEntry c array i
      else if opc ≠ .update then (0, c)
      else if idIn.punchMinorEph = 0 ∧ visibility ≠ ilogUncommitted ∧
          idOut.punchMinorEph < idOut.updateMinorEph then (0, c)
      else ilogTreeInsert env c array (i + 1) idIn

/-- The `ilog_empty` branch of `ilog_modify`: the new entry becomes the embedded one. -/
def ilogModifyEmpty (env : IlogEnv) (c : IlogContext) (idIn : IlogId) (opc : IlogOp) :
    ℤ × IlogContext :=
  if opc ≠ .update then (0, c)
  else
    let (magic, c) := ilogVerIncCtx c
    let c := ilogPtrSet c ⟨.embedded idIn, magic⟩
    let (rc, txId) := env.cbs.logAdd idIn
    if rc ≠ 0 then (rc, c)
    else (0, { c with root := { c.root with body := .embedded { idIn with txId := txId } } })

/-- The embedded branch of `ilog_modify`, with the visibility check made before it. -/
def ilogModifyEmbedded (env : IlogEnv) (c : IlogContext) (rootId idIn : IlogId)
    (epr : Daos.DaosEpochRange) (opc : IlogOp) : ℤ × IlogContext :=
  let visibility := ilogVisibility env rootId epr
  if ilogVisibilityFails visibility then (visibility, c)
  else
    let (rc, isEqual, c) := updateInplace env c 0 rootId idIn opc
    if rc ≠ 0 then (rc, c)
    else if isEqual then
      if opc = .abort then
        let (magic, c) := ilogVerIncCtx c
        (0, ilogPtrSet c ⟨.empty, magic⟩)
      else (0, c)
    else if opc ≠ .update then (0, c)
    else if idIn.punchMinorEph = 0 ∧ rootId.punchMinorEph < rootId.updateMinorEph ∧
        rootId.epoch < idIn.epoch ∧ visibility = ilogCommitted then (0, c)
    else ilogRootMigrate env c rootId idIn

/-- `ilog_modify` up to `done:`, by the shape of the root. -/
def ilogModifyRoot (env : IlogEnv) (c : IlogContext) (idIn : IlogId) (epr : Daos.DaosEpochRange)
    (opc : IlogOp) : ℤ × IlogContext :=
  match c.root.body with
  | .empty => ilogModifyEmpty env c idIn opc
  | .embedded rootId => ilogModifyEmbedded env c rootId idIn epr opc
  | .tree array => ilogTreeModify env c array idIn epr opc

/-- `ilog_modify`: the return code and the root as the call leaves it; `none` where the code
asserts (a zero epoch). -/
def ilogModify (env : IlogEnv) (root : IlogRoot) (idIn : IlogId) (epr : Daos.DaosEpochRange)
    (opc : IlogOp) : Option (ℤ × IlogRoot) :=
  if !ilogMagicValid root.magic then some (-derInval, root)
  else if idIn.epoch = 0 then none
  else
    let (rc, c) := ilogModifyRoot env (IlogContext.start root) idIn epr opc
    let (rc, c) := ilogTxEnd root c rc
    some (rc, c.root)

/-- `ilog_update`: an update or a punch at `(majorEph, minorEph)`, conflicts checked
against the DTXs of entries in `epr` (everything when it is absent). -/
def ilogUpdate (env : IlogEnv) (root : IlogRoot) (epr : Option Daos.DaosEpochRange)
    (majorEph minorEph : ℕ) (punch : Bool) : Option (ℤ × IlogRoot) :=
  if minorEph = 0 then none
  else
    let id : IlogId :=
      if punch then ⟨0, minorEph, 0, majorEph⟩ else ⟨0, 0, minorEph, majorEph⟩
    ilogModify env root id (epr.getD ⟨0, daosEpochMax⟩) .update

/-- `ilog_persist`. -/
def ilogPersist (env : IlogEnv) (root : IlogRoot) (id : IlogId) : Option (ℤ × IlogRoot) :=
  ilogModify env root id ⟨id.epoch, id.epoch⟩ .persist

/-- `ilog_abort`. -/
def ilogAbort (env : IlogEnv) (root : IlogRoot) (id : IlogId) : Option (ℤ × IlogRoot) :=
  ilogModify env root id ⟨0, daosEpochMax⟩ .abort

end Daos.Vos

import Mathlib
import Daos.Cart.Tree
import Daos.Lib.KeyList

/-!
# SWIM membership updates (`cart/swim/swim.c`)

Each engine keeps a SWIM view of the group: for every member an incarnation and a status
(`ALIVE`, `SUSPECT`, `DEAD`, or `INACTIVE` before bootstrap). The view lives in the group
layer, reached through the callbacks `swim_ops` (`get_member_state`, `set_member_state`,
`new_incarnation`, `send_request`); `swim.c` decides what to write. Updates arrive piggybacked
on pings (`swim_updates_parse`): an `ALIVE` update goes through `swim_member_alive`, a `SUSPECT`
one through `swim_member_suspect`, a `DEAD` one through `swim_member_dead`, and one that suspects
or declares this engine itself dead makes it take a new incarnation. A suspected member waits on
`sc_suspects` until its deadline; `swim_member_update_suspected` then asks the gossip origin to
confirm, or declares it dead. Every change is queued on `sc_updates`, to be piggybacked on the
next messages (`swim_updates_prepare`).

**What is modelled.** The context's lists `sc_suspects` and `sc_updates` and the fields the
update functions read; member ids are naturals and `SWIM_ID_INVALID` is `2 ^ 64 - 1`. The group
layer is a store `σ` with the callbacks `SwimOps`. The globals `swim_suspect_timeout` and
`swim_ping_timeout` are `SwimGlobals`, and `swim_now_ms()` is the argument `now` of a call. An
item of a list is named by its `si_id`: the lists hold one item per member, which
`Daos.Cart.SwimRun` proves, so the item an id names is the one the code's pointer does. The
mutex, the debug dumps, allocation failures (every `D_ALLOC` succeeds) and the ping state
machine of `swim_progress` are left out; `sc_ipings` and `sc_subgroup` with it.
-/

namespace Daos.Cart

/-- `DER_ALREADY`. -/
def derAlready : ℤ := 1008

/-- `SWIM_ID_INVALID`, `(uint64_t)-1`. -/
def swimIdInvalid : ℕ := 2 ^ 64 - 1

/-- `SWIM_PIGGYBACK_ENTRIES`. -/
def swimPiggybackEntries : ℕ := 8

/-- `enum swim_member_status`. -/
inductive SwimMemberStatus
  | alive
  | suspect
  | dead
  | inactive
  deriving DecidableEq, Repr

/-- `struct swim_member_state`. -/
structure SwimMemberState where
  smsIncarnation : ℕ
  smsStatus : SwimMemberStatus
  smsDelay : ℕ
  deriving DecidableEq, Repr

/-- `struct swim_member_update`. -/
structure SwimMemberUpdate where
  smuId : ℕ
  smuState : SwimMemberState
  deriving DecidableEq, Repr

/-- `struct swim_item`: `u` is `si_deadline` on `sc_suspects` and `si_count` on `sc_updates`. -/
structure SwimItem where
  siId : ℕ
  siFrom : ℕ
  u : ℕ
  deriving DecidableEq, Repr

/-- `enum swim_context_state`. -/
inductive SwimContextState
  | scsBegin
  | scsPinged
  | scsTimedout
  | scsIpinged
  | scsSelect
  deriving DecidableEq, Repr

/-- `struct swim_context`, the fields the update functions use. -/
structure SwimContext where
  scSuspects : List SwimItem
  scUpdates : List SwimItem
  scState : SwimContextState
  scTarget : ℕ
  scSelf : ℕ
  scNextEvent : ℕ
  scPiggybackTxMax : ℕ
  scGlitch : Bool
  deriving DecidableEq, Repr

/-- `struct swim_ops`, the callbacks of the group layer over its store `σ`. -/
structure SwimOps (σ : Type*) where
  sendRequest : σ → ℕ → ℕ → List SwimMemberUpdate → ℤ × σ
  getMemberState : σ → ℕ → Except ℤ SwimMemberState
  setMemberState : σ → ℕ → SwimMemberState → ℤ × σ
  newIncarnation : σ → ℕ → SwimMemberState → σ × SwimMemberState

/-- The tunables `swim_suspect_timeout` and `swim_ping_timeout`. -/
structure SwimGlobals where
  swimSuspectTimeout : ℕ
  swimPingTimeout : ℕ

/-- The `TAILQ_FOREACH` searches of `sc_suspects` and `sc_updates`, by `si_id`. -/
def itemsRenew (l : List SwimItem) (id : ℕ) (f : SwimItem → SwimItem) : List SwimItem :=
  KeyList.renew SwimItem.siId id f l

/-- The `TAILQ_REMOVE` of the item of `id`. -/
def itemsRemove (l : List SwimItem) (id : ℕ) : List SwimItem := KeyList.remove SwimItem.siId id l

/-- The item of `id`. -/
def itemsFind (l : List SwimItem) (id : ℕ) : Option SwimItem := KeyList.lookup SwimItem.siId id l

/-- The `TAILQ_FOREACH` of `swim_updates_notify`: the item of `id` takes the new sender and
count, or a new item is queued at the head. -/
def notifyItems (l : List SwimItem) (fromId id count : ℕ) : List SwimItem :=
  if id ∈ l.map SwimItem.siId then itemsRenew l id fun item => { item with siFrom := fromId, u := count }
  else ⟨id, fromId, count⟩ :: l

/-- The `search:` of `swim_member_suspect`: the suspicion of `id` renewed (its sender and deadline,
for a newer incarnation), or a new one at the tail. -/
def suspectItems (l : List SwimItem) (fromId id deadline : ℕ) (newer : Bool) : List SwimItem :=
  if id ∈ l.map SwimItem.siId then
    itemsRenew l id fun item => if newer then { item with siFrom := fromId, u := deadline } else item
  else l ++ [⟨id, fromId, deadline⟩]

section Updates

variable {σ : Type*} (ops : SwimOps σ) (g : SwimGlobals)

/-- `swim_updates_notify`: queue the update of `id` from `fromId` and write the state through
`set_member_state`. -/
def swimUpdatesNotify (ctx : SwimContext) (s : σ) (fromId id : ℕ) (idState : SwimMemberState)
    (count : ℕ) : SwimContext × ℤ × σ :=
  ({ ctx with scUpdates := notifyItems ctx.scUpdates fromId id count },
    ops.setMemberState s id idState)

/-- `swim_member_alive`: `id` is `ALIVE` at `nr`, over an `INACTIVE` member or an older
incarnation. Bootstrap news (an `INACTIVE` member) is queued as already sent often enough. -/
def swimMemberAlive (ctx : SwimContext) (s : σ) (fromId id nr : ℕ) : SwimContext × ℤ × σ :=
  match ops.getMemberState s id with
  | .error rc => (ctx, rc, s)
  | .ok idState =>
    let update (count : ℕ) :=
      swimUpdatesNotify ops { ctx with scSuspects := itemsRemove ctx.scSuspects id } s fromId id
        { idState with smsIncarnation := nr, smsStatus := .alive } count
    if idState.smsStatus = .inactive then update ctx.scPiggybackTxMax
    else if nr > idState.smsIncarnation then update 0
    else if idState.smsStatus = .dead ∨ idState.smsStatus = .alive ∨ idState.smsIncarnation ≥ nr then
      (ctx, -derAlready, s)
    else update 0

/-- `swim_member_dead`: `id` is `DEAD` at `nr`, over an older incarnation or a live one of the
same; an `INACTIVE` member only during a network glitch. -/
def swimMemberDead (ctx : SwimContext) (s : σ) (fromId id nr : ℕ) : SwimContext × ℤ × σ :=
  match ops.getMemberState s id with
  | .error rc => (ctx, rc, s)
  | .ok idState =>
    let update :=
      swimUpdatesNotify ops { ctx with scSuspects := itemsRemove ctx.scSuspects id } s fromId id
        { idState with smsIncarnation := nr, smsStatus := .dead } 0
    if idState.smsStatus = .inactive then (if ctx.scGlitch then update else (ctx, 0, s))
    else if nr > idState.smsIncarnation then update
    else if idState.smsStatus = .dead ∨ idState.smsIncarnation > nr then (ctx, -derAlready, s)
    else update

/-- `swim_member_suspect`: `id` is `SUSPECT` at `nr`, over an older incarnation or an `ALIVE` one
of the same, and waits on `sc_suspects` (its deadline renewed for a newer incarnation). Without a
suspicion timeout the member is declared dead at once. -/
def swimMemberSuspect (now : ℕ) (ctx : SwimContext) (s : σ) (fromId id nr : ℕ) :
    SwimContext × ℤ × σ :=
  if g.swimSuspectTimeout = 0 then swimMemberDead ops ctx s fromId id nr
  else
    match ops.getMemberState s id with
    | .error rc => (ctx, rc, s)
    | .ok idState =>
      let search :=
        swimUpdatesNotify ops
          { ctx with
            scSuspects := suspectItems ctx.scSuspects fromId id (now + g.swimSuspectTimeout)
              (decide (nr > idState.smsIncarnation)) }
          s fromId id { idState with smsIncarnation := nr, smsStatus := .suspect } 0
      if idState.smsStatus = .inactive then (ctx, 0, s)
      else if nr > idState.smsIncarnation then search
      else if idState.smsStatus = .dead ∨ idState.smsStatus = .suspect ∨
          idState.smsIncarnation > nr then (ctx, -derAlready, s)
      else search

/-- The loop of `swim_updates_prepare` over `sc_updates`: the items kept (their counts bumped),
the updates gathered after the `n` fixed ones, and the return code. An item beyond `nupds`
entries, or of a member that is gone, is dropped; so is one sent more than `txMax` times. -/
def swimUpdatesPrepareLoop (s : σ) (id selfId toId nupds txMax : ℕ) :
    List SwimItem → List SwimItem → List SwimMemberUpdate →
      ℤ × List SwimItem × List SwimMemberUpdate
  | [], kept, upds => (0, kept, upds)
  | item :: items, kept, upds =>
    if upds.length ≥ nupds then swimUpdatesPrepareLoop s id selfId toId nupds txMax items kept upds
    else if item.siId ≠ id ∧ item.siId ≠ selfId ∧ item.siId ≠ toId then
      match ops.getMemberState s item.siId with
      | .error rc =>
        if rc = -derNonexist then swimUpdatesPrepareLoop s id selfId toId nupds txMax items kept upds
        else (rc, kept ++ item :: items, upds)
      | .ok st =>
        if item.u + 1 > txMax then
          swimUpdatesPrepareLoop s id selfId toId nupds txMax items kept (upds ++ [⟨item.siId, st⟩])
        else
          swimUpdatesPrepareLoop s id selfId toId nupds txMax items
            (kept ++ [{ item with u := item.u + 1 }]) (upds ++ [⟨item.siId, st⟩])
    else if item.u + 1 > txMax then
      swimUpdatesPrepareLoop s id selfId toId nupds txMax items kept upds
    else
      swimUpdatesPrepareLoop s id selfId toId nupds txMax items
        (kept ++ [{ item with u := item.u + 1 }]) upds

/-- The fixed head of a message: the state of `id`, then of this engine and of `toId` when they
differ from `id`. -/
def swimUpdatesHead (s : σ) (id selfId toId : ℕ) : Except ℤ (List SwimMemberUpdate) := do
  let idState ← ops.getMemberState s id
  let upds := [⟨id, idState⟩]
  let upds ← if id ≠ selfId then
      (fun st => upds ++ [⟨selfId, st⟩]) <$> ops.getMemberState s selfId
    else pure upds
  if id ≠ toId then (fun st => upds ++ [⟨toId, st⟩]) <$> ops.getMemberState s toId else pure upds

/-- `swim_updates_prepare`: the updates to piggyback on a message about `id` sent to `toId`. -/
def swimUpdatesPrepare (ctx : SwimContext) (s : σ) (id toId : ℕ) :
    ℤ × SwimContext × List SwimMemberUpdate :=
  if id = swimIdInvalid ∨ toId = swimIdInvalid then (-derInval, ctx, [])
  else
    let selfId := ctx.scSelf
    let nupds := swimPiggybackEntries + 1 + (if id ≠ selfId then 1 else 0) +
      (if id ≠ toId then 1 else 0)
    match swimUpdatesHead ops s id selfId toId with
    | .error rc => (rc, ctx, [])
    | .ok upds =>
      let r := swimUpdatesPrepareLoop ops s id selfId toId nupds ctx.scPiggybackTxMax ctx.scUpdates
        [] upds
      (r.1, { ctx with scUpdates := r.2.1 }, if r.1 = 0 then r.2.2 else [])

/-- `swim_updates_send`. -/
def swimUpdatesSend (ctx : SwimContext) (s : σ) (id toId : ℕ) : ℤ × SwimContext × σ :=
  let r := swimUpdatesPrepare ops ctx s id toId
  if r.1 ≠ 0 then (r.1, r.2.1, s)
  else
    let q := ops.sendRequest s id toId r.2.2
    (q.1, r.2.1, q.2)

/-- One suspect of the loop of `swim_member_update_suspected`, with the members to confirm from
so far. At its deadline a member that is no longer `SUSPECT` leaves the list; one suspected on
gossip is confirmed from the origin first, one suspected here is declared dead. -/
def swimSuspectedOne (now glitchDelay : ℕ) (acc : SwimContext × σ × List (ℕ × ℕ)) (id : ℕ) :
    SwimContext × σ × List (ℕ × ℕ) :=
  let ctx := acc.1
  match itemsFind ctx.scSuspects id with
  | none => acc
  | some item =>
    let deadline := item.u + glitchDelay
    if now > deadline then
      let removed := ({ ctx with scSuspects := itemsRemove ctx.scSuspects id }, acc.2.1, acc.2.2)
      match ops.getMemberState acc.2.1 id with
      | .error _ => removed
      | .ok idState =>
        if idState.smsStatus ≠ .suspect then removed
        else if item.siFrom ≠ ctx.scSelf then
          ({ ctx with
              scSuspects := itemsRenew ctx.scSuspects id fun it =>
                { it with siFrom := ctx.scSelf, u := deadline + g.swimPingTimeout } },
            acc.2.1, acc.2.2 ++ [(id, item.siFrom)])
        else
          let r := swimMemberDead ops { ctx with scSuspects := itemsRemove ctx.scSuspects id }
            acc.2.1 item.siFrom id idState.smsIncarnation
          (r.1, r.2.2, acc.2.2)
    else
      ({ ctx with
          scSuspects := itemsRenew ctx.scSuspects id fun it => { it with u := deadline },
          scNextEvent := if deadline < ctx.scNextEvent then deadline else ctx.scNextEvent },
        acc.2.1, acc.2.2)

/-- `swim_member_update_suspected`: the suspects in turn, then the confirmations, each sent with
`swim_updates_send`; the code of the last one. -/
def swimMemberUpdateSuspected (now glitchDelay : ℕ) (ctx : SwimContext) (s : σ) :
    ℤ × SwimContext × σ :=
  let r := (ctx.scSuspects.map SwimItem.siId).foldl (swimSuspectedOne ops g now glitchDelay)
    (ctx, s, [])
  r.2.2.foldl (fun acc t => swimUpdatesSend ops acc.2.1 acc.2.2 t.1 t.2) (0, r.1, r.2.1)

/-- The self case of `swim_updates_parse`: an update suspecting this engine, or declaring it dead,
at its incarnation or a later one makes it take a new incarnation and spread it. -/
def swimSelfRefute (ctx : SwimContext) (s : σ) (nr : ℕ) : ℤ × SwimContext × σ :=
  match ops.getMemberState s ctx.scSelf with
  | .error rc => (rc, ctx, s)
  | .ok selfState =>
    if selfState.smsIncarnation > nr then (0, ctx, s)
    else
      let r := ops.newIncarnation s ctx.scSelf selfState
      let n := swimUpdatesNotify ops ctx r.1 ctx.scSelf ctx.scSelf r.2 0
      (n.2.1, n.1, n.2.2)

/-- One update of the loop of `swim_updates_parse`; the codes of `swim_member_*` are dropped, a
failure of the self case stops the loop. -/
def swimUpdatesParseOne (now fromId : ℕ) (ctx : SwimContext) (s : σ) (upd : SwimMemberUpdate) :
    ℤ × SwimContext × σ :=
  let nr := upd.smuState.smsIncarnation
  match upd.smuState.smsStatus with
  | .inactive => (0, ctx, s)
  | .alive =>
    if upd.smuId = ctx.scSelf then (0, ctx, s)
    else
      let r := swimMemberAlive ops ctx s fromId upd.smuId nr
      (0, r.1, r.2.2)
  | .suspect =>
    if upd.smuId = ctx.scSelf then swimSelfRefute ops ctx s nr
    else
      let r := swimMemberSuspect ops g now ctx s fromId upd.smuId nr
      (0, r.1, r.2.2)
  | .dead =>
    if upd.smuId = ctx.scSelf then swimSelfRefute ops ctx s nr
    else
      let r := swimMemberDead ops ctx s fromId upd.smuId nr
      (0, r.1, r.2.2)

/-- The loop of `swim_updates_parse`. -/
def swimUpdatesParseLoop (now fromId : ℕ) :
    List SwimMemberUpdate → SwimContext → σ → ℤ × SwimContext × σ
  | [], ctx, s => (0, ctx, s)
  | upd :: upds, ctx, s =>
    let r := swimUpdatesParseOne ops g now fromId ctx s upd
    if r.1 ≠ 0 then r else swimUpdatesParseLoop now fromId upds r.2.1 r.2.2

/-- `swim_updates_parse`: the updates of a message from `fromId` about `id`, in order. A message
from the ping target, or about it, answers the ping. -/
def swimUpdatesParse (now : ℕ) (ctx : SwimContext) (s : σ) (fromId id : ℕ)
    (upds : List SwimMemberUpdate) : ℤ × SwimContext × σ :=
  if ctx.scSelf = swimIdInvalid ∨ upds = [] then (0, ctx, s)
  else
    let ctxState :=
      if (fromId = ctx.scTarget ∨ id = ctx.scTarget) ∧ (ctx.scState = .scsBegin ∨
          ctx.scState = .scsPinged ∨ ctx.scState = .scsIpinged) then SwimContextState.scsSelect
      else ctx.scState
    let r := swimUpdatesParseLoop ops g now fromId upds ctx s
    if r.1 ≠ 0 then r else (0, { r.2.1 with scState := ctxState }, r.2.2)

/-- `swim_updates_short`: the reply to a message that carries only this engine's news: itself
`ALIVE` (at a new incarnation when the message suspects it, or declares it dead, at the one it
has), and `id` `ALIVE` at the incarnation the message gives. -/
def swimUpdatesShort (s : σ) (selfId selfIncarnation id : ℕ) (updsIn : List SwimMemberUpdate) :
    σ × List SwimMemberUpdate :=
  let r := updsIn.foldl (fun (acc : σ × SwimMemberState × Option SwimMemberUpdate) upd =>
      if upd.smuId = selfId then
        if upd.smuState.smsIncarnation < selfIncarnation ∨ (upd.smuState.smsStatus ≠ .suspect ∧
            upd.smuState.smsStatus ≠ .dead) then acc
        else
          let n := ops.newIncarnation acc.1 selfId acc.2.1
          (n.1, n.2, acc.2.2)
      else if upd.smuId = id then (acc.1, acc.2.1, some upd)
      else acc)
    (s, ⟨selfIncarnation, .alive, 0⟩, none)
  let idUpd := match r.2.2 with
    | some u => if id ≠ selfId then [⟨id, ⟨u.smuState.smsIncarnation, .alive, 0⟩⟩] else []
    | none => []
  (r.1, ⟨selfId, ⟨r.2.1.smsIncarnation, .alive, 0⟩⟩ :: idUpd)

end Updates

/-- `swim_member_del`: `id` leaves `sc_suspects`. -/
def swimMemberDel (ctx : SwimContext) (id : ℕ) : SwimContext :=
  { ctx with scSuspects := itemsRemove ctx.scSuspects id }

/-- `swim_net_glitch_update`, on `sc_suspects`: the deadlines of `id`, of every suspect when `id`
is this engine, move by `delay`. -/
def swimNetGlitchUpdate (ctx : SwimContext) (id delay : ℕ) : SwimContext :=
  { ctx with
    scSuspects := ctx.scSuspects.map fun item =>
      if id = ctx.scSelf ∨ id = item.siId then { item with u := item.u + delay } else item }

end Daos.Cart

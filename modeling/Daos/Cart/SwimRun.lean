import Mathlib
import Daos.Cart.SwimView

/-!
# SWIM over whole runs (`cart/swim/swim.c`)

Two entry points change an engine's SWIM state: a message, through `swim_updates_parse`, and the
timeout pass over the suspects, `swim_member_update_suspected` (`SwimEvent`, `swimStep`). A run is
any sequence of them (`swimRun`), over a group layer that is `SwimOpsLawful` and whose
`new_incarnation` hands out an incarnation above the one it is given, as the hybrid logical clock
behind `crt_swim_new_incarnation` does.

**What is proved.** `SwimInv` holds at every state of a run that starts in it: `sc_suspects`
holds one item for each `SUSPECT` member and none for any other, and this engine is a member that
is neither `SUSPECT` nor `DEAD`. Every update of a message keeps it (`swimUpdatesParseOne_inv`),
and so does every suspect the timeout pass visits (`swimSuspectedOne_inv`). Along a run, an active
member other than this engine keeps its state or moves strictly up the override order
(`SwimAdvances`); within a message it moves only to an update's own state
(`swimUpdatesParseOne_changes`), and a whole message leaves it at the join of its state and the
message's updates about it (`swimUpdatesParseLoop_keys`). An update that suspects this engine, or
declares it dead, at its incarnation or a later one gives it a larger incarnation before the next
update is read (`swimSelfRefute_raises`). `swimRun_precedence` collects these.
-/

namespace Daos.Cart

/-- The calls that change an engine's SWIM state: `swim_updates_parse` of a message from `fromId`
about `id`, and `swim_member_update_suspected`. -/
inductive SwimEvent
  | updatesParse (now fromId id : ℕ) (upds : List SwimMemberUpdate)
  | updateSuspected (now glitchDelay : ℕ)

section Run

variable {σ : Type*} (ops : SwimOps σ) (g : SwimGlobals)

/-- One event; the return codes are dropped, the state a failed call leaves is kept. -/
def swimStep (c : SwimContext × σ) : SwimEvent → SwimContext × σ
  | .updatesParse now fromId id upds => (swimUpdatesParse ops g now c.1 c.2 fromId id upds).2
  | .updateSuspected now glitchDelay => (swimMemberUpdateSuspected ops g now glitchDelay c.1 c.2).2

/-- The events in order. -/
def swimRun (c : SwimContext × σ) (evs : List SwimEvent) : SwimContext × σ :=
  evs.foldl (swimStep ops g) c

end Run

/-! ### Moving up the override order -/

/-- `st'` is `st`, or lies strictly above it in the override order. -/
def SwimMemberState.Advances (st st' : SwimMemberState) : Prop := st' = st ∨ st.key < st'.key

theorem SwimMemberState.Advances.refl (st : SwimMemberState) : st.Advances st := .inl rfl

theorem SwimMemberState.Advances.trans {a b c : SwimMemberState} (hab : a.Advances b)
    (hbc : b.Advances c) : a.Advances c := by
  rcases hab with rfl | hab
  · exact hbc
  · rcases hbc with rfl | hbc
    · exact .inr hab
    · exact .inr (hab.trans hbc)

section Views

variable {σ : Type*} (view : σ → ℕ → Option SwimMemberState)

/-- From `s` to `s'` every active member other than `self` keeps its state or moves up the
override order, and stays active. -/
def SwimAdvances (self : ℕ) (s s' : σ) : Prop :=
  ∀ j ≠ self, ∀ st, view s j = some st → st.smsStatus ≠ .inactive →
    ∃ st', view s' j = some st' ∧ st'.smsStatus ≠ .inactive ∧ st.Advances st'

/-- What every state of a run keeps: `sc_suspects` holds one item for each `SUSPECT` member and
none for any other, and this engine is a member, neither `SUSPECT` nor `DEAD`. -/
structure SwimInv (ctx : SwimContext) (s : σ) : Prop where
  nodup : (ctx.scSuspects.map SwimItem.siId).Nodup
  suspects : ∀ j, j ∈ ctx.scSuspects.map SwimItem.siId ↔
    ∃ st, view s j = some st ∧ st.smsStatus = .suspect
  self : ∃ st, view s ctx.scSelf = some st ∧ st.smsStatus ≠ .suspect ∧ st.smsStatus ≠ .dead

variable {view} {self : ℕ} {s s' s'' : σ}

theorem SwimAdvances.of_other (h : ∀ j ≠ self, view s' j = view s j) :
    SwimAdvances view self s s' :=
  fun j hj st hv hact => ⟨st, by rw [h j hj, hv], hact, .refl st⟩

theorem SwimAdvances.trans (h1 : SwimAdvances view self s s') (h2 : SwimAdvances view self s' s'') :
    SwimAdvances view self s s'' := by
  intro j hj st hv hact
  obtain ⟨st1, hv1, hact1, hadv1⟩ := h1 j hj st hv hact
  obtain ⟨st2, hv2, hact2, hadv2⟩ := h2 j hj st1 hv1 hact1
  exact ⟨st2, hv2, hact2, hadv1.trans hadv2⟩

variable {ctx ctx' : SwimContext}

/-- The invariant reads the suspects' ids, this engine's id and the view, nothing else. -/
theorem SwimInv.congr (hI : SwimInv view ctx s)
    (hsus : ctx'.scSuspects.map SwimItem.siId = ctx.scSuspects.map SwimItem.siId)
    (hself : ctx'.scSelf = ctx.scSelf) (hview : view s' = view s) : SwimInv view ctx' s' where
  nodup := hsus ▸ hI.nodup
  suspects j := by
    rw [hsus, hview]
    exact hI.suspects j
  self := by
    rw [hself, hview]
    exact hI.self

/-- A `SUSPECT` member is not this engine. -/
theorem SwimInv.ne_self (hI : SwimInv view ctx s) {id : ℕ} {st : SwimMemberState}
    (hv : view s id = some st) (hs : st.smsStatus = .suspect) : id ≠ ctx.scSelf := by
  rintro rfl
  obtain ⟨st0, hv0, hs0, -⟩ := hI.self
  rw [hv, Option.some.injEq] at hv0
  exact hs0 (hv0 ▸ hs)

/-- A change of `sc_suspects` and of one member `id` other than this engine keeps the invariant
when the other members keep their items and `id` is on the new list exactly when it is
`SUSPECT`. -/
theorem SwimInv.of_write (hI : SwimInv view ctx s) {id : ℕ} (hid : id ≠ ctx.scSelf)
    (hself : ctx'.scSelf = ctx.scSelf) (hoth : ∀ j ≠ id, view s' j = view s j)
    (hnd : (ctx'.scSuspects.map SwimItem.siId).Nodup)
    (hmem : ∀ j ≠ id, j ∈ ctx'.scSuspects.map SwimItem.siId ↔ j ∈ ctx.scSuspects.map SwimItem.siId)
    (hmem_id : id ∈ ctx'.scSuspects.map SwimItem.siId ↔
      ∃ st, view s' id = some st ∧ st.smsStatus = .suspect) : SwimInv view ctx' s' where
  nodup := hnd
  suspects j := by
    by_cases hj : j = id
    · subst hj
      exact hmem_id
    · rw [hmem j hj, hoth j hj]
      exact hI.suspects j
  self := by
    rw [hself, hoth _ hid.symm]
    exact hI.self

/-- Dropping the item of a member that is not `SUSPECT` keeps the invariant: there is none. -/
theorem SwimInv.remove (hI : SwimInv view ctx s) {id : ℕ}
    (hns : ∀ st, view s id = some st → st.smsStatus ≠ .suspect) :
    SwimInv view { ctx with scSuspects := itemsRemove ctx.scSuspects id } s := by
  have hnm : id ∉ ctx.scSuspects.map SwimItem.siId := by
    rw [hI.suspects]
    rintro ⟨st, hv, hs⟩
    exact hns st hv hs
  exact hI.congr (by rw [itemsRemove, KeyList.remove_of_not_mem hnm]) rfl rfl

/-- With one item per member, removing the item of `id` twice removes it once. -/
theorem itemsRemove_idem {l : List SwimItem} (hnd : (l.map SwimItem.siId).Nodup) (id : ℕ) :
    itemsRemove (itemsRemove l id) id = itemsRemove l id :=
  KeyList.remove_of_not_mem fun h => ((mem_siId_itemsRemove hnd).1 h).2 rfl

end Views

/-! ### What each call does to the invariant -/

section Calls

variable {σ : Type*} {ops : SwimOps σ} {view : σ → ℕ → Option SwimMemberState}
  (hl : SwimOpsLawful ops view) {ctx : SwimContext} {s : σ} (fromId : ℕ) {id : ℕ} (nr : ℕ)

@[simp]
theorem swimUpdatesNotify_fst (idState : SwimMemberState) (count : ℕ) :
    (swimUpdatesNotify ops ctx s fromId id idState count).1 =
      { ctx with scUpdates := notifyItems ctx.scUpdates fromId id count } := rfl

@[simp]
theorem swimUpdatesNotify_snd (idState : SwimMemberState) (count : ℕ) :
    (swimUpdatesNotify ops ctx s fromId id idState count).2 = ops.setMemberState s id idState := rfl

include hl

/-- What `get_member_state` returns is the view. -/
theorem SwimOpsLawful.view_of_get {st : SwimMemberState} (h : ops.getMemberState s id = .ok st) :
    view s id = some st := by
  cases hv : view s id with
  | none =>
    rw [hl.get_none hv] at h
    cases h
  | some st' =>
    rw [hl.get_some hv] at h
    cases h
    rfl

/-- Taking `id` off the suspect list and writing it keeps the invariant when `id` is then not
`SUSPECT`: the write sets another status, or is refused over a member that is not `SUSPECT`. -/
theorem SwimInv.of_remove_write (hI : SwimInv view ctx s) {ctx' : SwimContext}
    (hid : id ≠ ctx.scSelf) {st new : SwimMemberState} (hv : view s id = some st)
    (hnew : new.smsStatus ≠ .suspect)
    (hold : new.smsIncarnation < st.smsIncarnation → st.smsStatus ≠ .suspect)
    (hself : ctx'.scSelf = ctx.scSelf) (hsus : ctx'.scSuspects = itemsRemove ctx.scSuspects id) :
    SwimInv view ctx' (ops.setMemberState s id new).2 := by
  obtain ⟨hoth, st', hst', -, hstatus⟩ := view_setMemberState hl hv new
  have hns : st'.smsStatus ≠ .suspect := by
    rw [hstatus]
    split_ifs with hle
    · exact hnew
    · exact hold (Nat.lt_of_not_le hle)
  refine hI.of_write hid hself hoth (hsus ▸ nodup_itemsRemove hI.nodup id) (fun j hj => ?_) ?_
  · rw [hsus, mem_siId_itemsRemove hI.nodup]
    exact and_iff_left hj
  · rw [hsus, mem_siId_itemsRemove hI.nodup, hst']
    simp [hns]

variable (ctx s id) in
/-- `swim_member_alive` changes nothing, or takes a member that is `INACTIVE` or at an older
incarnation off the suspect list and writes it `ALIVE`. -/
theorem swimMemberAlive_spec :
    (∃ rc, swimMemberAlive ops ctx s fromId id nr = (ctx, rc, s)) ∨
      ∃ st, view s id = some st ∧ (st.smsStatus = .inactive ∨ nr > st.smsIncarnation) ∧
        swimMemberAlive ops ctx s fromId id nr =
          swimUpdatesNotify ops { ctx with scSuspects := itemsRemove ctx.scSuspects id } s fromId
            id { st with smsIncarnation := nr, smsStatus := .alive }
            (if st.smsStatus = .inactive then ctx.scPiggybackTxMax else 0) := by
  cases hv : view s id with
  | none => exact .inl ⟨_, swimMemberAlive_of_none hl ctx fromId nr hv⟩
  | some st =>
    rcases swimMemberAlive_cases hl ctx fromId nr hv with ⟨-, rc, hr⟩ | ⟨hyes, hr⟩
    · exact .inl ⟨rc, hr⟩
    · exact .inr ⟨st, rfl, hyes, hr⟩

variable (ctx s id) in
/-- `swim_member_dead` changes nothing, or takes a member that is older, or live at the same
incarnation, or `INACTIVE` during a glitch, off the suspect list and writes it `DEAD`. -/
theorem swimMemberDead_spec :
    (∃ rc, swimMemberDead ops ctx s fromId id nr = (ctx, rc, s)) ∨
      ∃ st, view s id = some st ∧
        (if st.smsStatus = .inactive then ctx.scGlitch = true
          else nr > st.smsIncarnation ∨ (st.smsStatus ≠ .dead ∧ st.smsIncarnation ≤ nr)) ∧
        swimMemberDead ops ctx s fromId id nr =
          swimUpdatesNotify ops { ctx with scSuspects := itemsRemove ctx.scSuspects id } s fromId
            id { st with smsIncarnation := nr, smsStatus := .dead } 0 := by
  cases hv : view s id with
  | none => exact .inl ⟨_, swimMemberDead_of_none hl ctx fromId nr hv⟩
  | some st =>
    rcases swimMemberDead_cases hl ctx fromId nr hv with ⟨-, rc, hr⟩ | ⟨hyes, hr⟩
    · exact .inl ⟨rc, hr⟩
    · exact .inr ⟨st, rfl, hyes, hr⟩

variable (ctx s id) in
/-- With a suspicion timeout, `swim_member_suspect` changes nothing, or puts an active member that
is older, or `ALIVE` at the same incarnation, on the suspect list and writes it `SUSPECT`. -/
theorem swimMemberSuspect_spec (g : SwimGlobals) (hT : g.swimSuspectTimeout ≠ 0) (now : ℕ) :
    (∃ rc, swimMemberSuspect ops g now ctx s fromId id nr = (ctx, rc, s)) ∨
      ∃ st, view s id = some st ∧ (st.smsStatus ≠ .inactive ∧ (nr > st.smsIncarnation ∨
          (st.smsStatus = .alive ∧ st.smsIncarnation ≤ nr))) ∧
        swimMemberSuspect ops g now ctx s fromId id nr =
          swimUpdatesNotify ops
            { ctx with
              scSuspects := suspectItems ctx.scSuspects fromId id (now + g.swimSuspectTimeout)
                (decide (nr > st.smsIncarnation)) }
            s fromId id { st with smsIncarnation := nr, smsStatus := .suspect } 0 := by
  cases hv : view s id with
  | none => exact .inl ⟨_, swimMemberSuspect_of_none hl ctx fromId nr g hT now hv⟩
  | some st =>
    rcases swimMemberSuspect_cases hl ctx fromId nr g hT now hv with ⟨-, rc, hr⟩ | ⟨hyes, hr⟩
    · exact .inl ⟨rc, hr⟩
    · exact .inr ⟨st, rfl, hyes, hr⟩

theorem swimMemberAlive_inv (hI : SwimInv view ctx s) (hid : id ≠ ctx.scSelf) :
    SwimInv view (swimMemberAlive ops ctx s fromId id nr).1
      (swimMemberAlive ops ctx s fromId id nr).2.2 := by
  rcases swimMemberAlive_spec hl ctx s fromId id nr with ⟨rc, hr⟩ | ⟨st, hv, hyes, hr⟩ <;> rw [hr]
  · exact hI
  -- `id` is then `ALIVE`, or still `INACTIVE` if the write was refused
  refine hI.of_remove_write hl hid hv (by simp) (fun hlt => ?_) rfl rfl
  rw [hyes.resolve_right (Nat.lt_asymm hlt)]
  simp

theorem swimMemberDead_inv (hI : SwimInv view ctx s) (hid : id ≠ ctx.scSelf) :
    SwimInv view (swimMemberDead ops ctx s fromId id nr).1
      (swimMemberDead ops ctx s fromId id nr).2.2 := by
  rcases swimMemberDead_spec hl ctx s fromId id nr with ⟨rc, hr⟩ | ⟨st, hv, hyes, hr⟩ <;> rw [hr]
  · exact hI
  -- `id` is then `DEAD`, or still `INACTIVE` if the write was refused
  refine hI.of_remove_write hl hid hv (by simp) (fun hlt => ?_) rfl rfl
  have hlt' : nr < st.smsIncarnation := hlt
  have hi : st.smsStatus = .inactive := by
    by_contra hi
    rw [if_neg hi] at hyes
    omega
  simp [hi]

theorem swimMemberSuspect_inv (g : SwimGlobals) (now : ℕ) (hI : SwimInv view ctx s)
    (hid : id ≠ ctx.scSelf) :
    SwimInv view (swimMemberSuspect ops g now ctx s fromId id nr).1
      (swimMemberSuspect ops g now ctx s fromId id nr).2.2 := by
  by_cases hT : g.swimSuspectTimeout = 0
  · rw [swimMemberSuspect_of_zero ctx fromId nr g hT]
    exact swimMemberDead_inv hl fromId nr hI hid
  rcases swimMemberSuspect_spec hl ctx s fromId id nr g hT now with
    ⟨rc, hr⟩ | ⟨st, hv, hyes, hr⟩ <;> rw [hr]
  · exact hI
  obtain ⟨hoth, st', hst', -, hstatus⟩ :=
    view_setMemberState hl hv { st with smsIncarnation := nr, smsStatus := .suspect }
  -- the write is taken: the incarnation does not go down
  have hle : st.smsIncarnation ≤ nr := by
    rcases hyes.2 with hn | ⟨-, hle⟩
    · exact hn.le
    · exact hle
  refine hI.of_write hid rfl hoth (nodup_suspectItems hI.nodup _ _ _ _) (fun j hj => ?_) ?_
  · simp [mem_siId_suspectItems, hj]
  · simp only [swimUpdatesNotify_fst, swimUpdatesNotify_snd, mem_siId_suspectItems, or_true,
      true_iff]
    exact ⟨st', hst', by simp [hstatus, hle]⟩

/-- The self case of a message keeps the invariant: this engine keeps its status, whether the
write of its new incarnation is taken or not. -/
theorem swimSelfRefute_inv (hI : SwimInv view ctx s) :
    SwimInv view (swimSelfRefute ops ctx s nr).2.1 (swimSelfRefute ops ctx s nr).2.2 := by
  obtain ⟨st, hv, hs, hd⟩ := hI.self
  simp only [swimSelfRefute, hl.get_some hv]
  split_ifs with hlt
  · exact hI
  obtain ⟨hview, hnew⟩ := hl.newIncarnation s ctx.scSelf st
  have hv' : view (ops.newIncarnation s ctx.scSelf st).1 ctx.scSelf = some st := by rw [hview, hv]
  obtain ⟨hoth, st', hst', -, hstatus⟩ :=
    view_setMemberState hl hv' (ops.newIncarnation s ctx.scSelf st).2
  have hkeep : st'.smsStatus = st.smsStatus := by
    rw [hstatus, hnew]
    split_ifs <;> rfl
  refine ⟨hI.nodup, fun j => ?_, ⟨st', hst', hkeep ▸ hs, hkeep ▸ hd⟩⟩
  by_cases hj : j = ctx.scSelf
  · -- this engine is on neither side
    subst hj
    simp only [swimUpdatesNotify_fst, swimUpdatesNotify_snd, hst', Option.some.injEq,
      exists_eq_left', hkeep, hI.suspects, hv, hs]
  · simp only [swimUpdatesNotify_fst, swimUpdatesNotify_snd, hoth j hj, hview]
    exact hI.suspects j

end Calls

/-! ### The invariant over messages and timeouts -/

section Events

variable {σ : Type*} {ops : SwimOps σ} {view : σ → ℕ → Option SwimMemberState}
  (hl : SwimOpsLawful ops view) (g : SwimGlobals)
include hl

omit hl in
/-- What one update of a message does: nothing, the self case, or one of `swim_member_*` about
another member. -/
theorem swimUpdatesParseOne_cases (now fromId : ℕ) (ctx : SwimContext) (s : σ)
    (upd : SwimMemberUpdate) :
    (swimUpdatesParseOne ops g now fromId ctx s upd).2 = (ctx, s) ∨
      (upd.smuId = ctx.scSelf ∧ swimUpdatesParseOne ops g now fromId ctx s upd =
        swimSelfRefute ops ctx s upd.smuState.smsIncarnation) ∨
      (upd.smuId ≠ ctx.scSelf ∧
        ((swimUpdatesParseOne ops g now fromId ctx s upd).2 =
            ((swimMemberAlive ops ctx s fromId upd.smuId upd.smuState.smsIncarnation).1,
              (swimMemberAlive ops ctx s fromId upd.smuId upd.smuState.smsIncarnation).2.2) ∨
          (swimUpdatesParseOne ops g now fromId ctx s upd).2 =
            ((swimMemberSuspect ops g now ctx s fromId upd.smuId upd.smuState.smsIncarnation).1,
              (swimMemberSuspect ops g now ctx s fromId upd.smuId
                upd.smuState.smsIncarnation).2.2) ∨
          (swimUpdatesParseOne ops g now fromId ctx s upd).2 =
            ((swimMemberDead ops ctx s fromId upd.smuId upd.smuState.smsIncarnation).1,
              (swimMemberDead ops ctx s fromId upd.smuId upd.smuState.smsIncarnation).2.2))) := by
  obtain ⟨id, nr, status, delay⟩ := upd
  by_cases hself : id = ctx.scSelf
  · -- news about this engine: only a suspicion or a death is answered
    cases status with
    | inactive => exact .inl rfl
    | alive => exact .inl (by simp [swimUpdatesParseOne, hself])
    | suspect => exact .inr (.inl ⟨hself, by simp [swimUpdatesParseOne, hself]⟩)
    | dead => exact .inr (.inl ⟨hself, by simp [swimUpdatesParseOne, hself]⟩)
  · cases status with
    | inactive => exact .inl rfl
    | alive => exact .inr (.inr ⟨hself, .inl (by simp [swimUpdatesParseOne, hself])⟩)
    | suspect => exact .inr (.inr ⟨hself, .inr (.inl (by simp [swimUpdatesParseOne, hself]))⟩)
    | dead => exact .inr (.inr ⟨hself, .inr (.inr (by simp [swimUpdatesParseOne, hself]))⟩)

/-- Every update of a message keeps the invariant: the self case only ever refutes, the others
go through `swim_member_*`, never about this engine. -/
theorem swimUpdatesParseOne_inv (now fromId : ℕ) {ctx : SwimContext} {s : σ}
    (hI : SwimInv view ctx s) (upd : SwimMemberUpdate) :
    SwimInv view (swimUpdatesParseOne ops g now fromId ctx s upd).2.1
      (swimUpdatesParseOne ops g now fromId ctx s upd).2.2 := by
  rcases swimUpdatesParseOne_cases g now fromId ctx s upd with h | ⟨-, h⟩ | ⟨hne, h | h | h⟩ <;>
    rw [h]
  · exact hI
  · exact swimSelfRefute_inv hl _ hI
  · exact swimMemberAlive_inv hl fromId _ hI hne
  · exact swimMemberSuspect_inv hl fromId _ g now hI hne
  · exact swimMemberDead_inv hl fromId _ hI hne

theorem swimUpdatesParseLoop_inv (now fromId : ℕ) (upds : List SwimMemberUpdate) :
    ∀ {ctx : SwimContext} {s : σ}, SwimInv view ctx s →
      SwimInv view (swimUpdatesParseLoop ops g now fromId upds ctx s).2.1
        (swimUpdatesParseLoop ops g now fromId upds ctx s).2.2 := by
  induction upds with
  | nil => exact id
  | cons upd upds ih =>
    intro ctx s hI
    have h1 := swimUpdatesParseOne_inv hl g now fromId hI upd
    simp only [swimUpdatesParseLoop]
    split_ifs
    · exact h1
    · exact ih h1

theorem swimUpdatesParse_inv (now : ℕ) {ctx : SwimContext} {s : σ} (hI : SwimInv view ctx s)
    (fromId id : ℕ) (upds : List SwimMemberUpdate) :
    SwimInv view (swimUpdatesParse ops g now ctx s fromId id upds).2.1
      (swimUpdatesParse ops g now ctx s fromId id upds).2.2 := by
  have hloop := swimUpdatesParseLoop_inv hl g now fromId upds hI
  simp only [swimUpdatesParse]
  split_ifs
  · exact hI
  · exact hloop
  -- only the ping state is set after the loop
  all_goals exact hloop.congr rfl rfl rfl

/-- Every suspect the timeout pass visits keeps the invariant. At its deadline an item leaves the
list when its member is gone or no longer `SUSPECT`, stays to be confirmed from the gossip
origin, or goes with its member declared `DEAD`. -/
theorem swimSuspectedOne_inv (now glitchDelay : ℕ) {acc : SwimContext × σ × List (ℕ × ℕ)}
    (hI : SwimInv view acc.1 acc.2.1) (id : ℕ) :
    SwimInv view (swimSuspectedOne ops g now glitchDelay acc id).1
      (swimSuspectedOne ops g now glitchDelay acc id).2.1 := by
  obtain ⟨ctx, s, targets⟩ := acc
  dsimp only [swimSuspectedOne] at hI ⊢
  split
  · exact hI
  rename_i item _
  by_cases hdl : now > item.u + glitchDelay
  swap
  · rw [if_neg hdl]
    exact hI.congr (map_siId_itemsRenew fun _ => rfl) rfl rfl
  rw [if_pos hdl]
  split
  · -- the member is gone from the view
    rename_i rc hget
    exact hI.remove fun st hv => by
      rw [hl.get_some hv] at hget
      cases hget
  rename_i idState hget
  have hv := hl.view_of_get hget
  by_cases hsus : idState.smsStatus = .suspect
  swap
  · rw [if_pos hsus]
    exact hI.remove fun st hv' => by
      rw [hv, Option.some.injEq] at hv'
      exact hv' ▸ hsus
  rw [if_neg (not_not.2 hsus)]
  split_ifs with hfrom
  · exact hI.congr (map_siId_itemsRenew fun _ => rfl) rfl rfl
  -- declared dead at the incarnation it is suspected at
  rcases swimMemberDead_cases hl { ctx with scSuspects := itemsRemove ctx.scSuspects id }
    item.siFrom idState.smsIncarnation hv with ⟨hno, -⟩ | ⟨-, hr⟩
  · exact absurd (by simp [hsus]) hno
  dsimp only
  rw [hr]
  exact hI.of_remove_write hl (hI.ne_self hv hsus) hv (by simp)
    (fun hlt => absurd hlt (lt_irrefl _)) rfl (itemsRemove_idem hI.nodup id)

theorem swimSuspectedFold_inv (now glitchDelay : ℕ) (ids : List ℕ) :
    ∀ acc : SwimContext × σ × List (ℕ × ℕ), SwimInv view acc.1 acc.2.1 →
      SwimInv view (ids.foldl (swimSuspectedOne ops g now glitchDelay) acc).1
        (ids.foldl (swimSuspectedOne ops g now glitchDelay) acc).2.1 := by
  induction ids with
  | nil => exact fun _ hI => hI
  | cons id ids ih => exact fun acc hI => ih _ (swimSuspectedOne_inv hl g now glitchDelay hI id)

omit hl in
/-- `swim_updates_prepare` changes `sc_updates` only. -/
theorem swimUpdatesPrepare_ctx (ctx : SwimContext) (s : σ) (id toId : ℕ) :
    (swimUpdatesPrepare ops ctx s id toId).2.1 = { ctx with
      scUpdates := (swimUpdatesPrepare ops ctx s id toId).2.1.scUpdates } := by
  dsimp only [swimUpdatesPrepare]
  split_ifs
  · rfl
  all_goals split <;> rfl

/-- A confirmation sent keeps the invariant: it changes `sc_updates` and no member. -/
theorem swimUpdatesSend_inv {ctx : SwimContext} {s : σ} (hI : SwimInv view ctx s) (id toId : ℕ) :
    SwimInv view (swimUpdatesSend ops ctx s id toId).2.1
      (swimUpdatesSend ops ctx s id toId).2.2 := by
  have hctx := @swimUpdatesPrepare_ctx σ ops ctx s id toId
  dsimp only [swimUpdatesSend]
  split_ifs
  · exact hI.congr (by rw [hctx]) (by rw [hctx]) rfl
  · exact hI.congr (by rw [hctx]) (by rw [hctx]) (hl.sendRequest _ _ _ _)

theorem swimConfirmFold_inv (targets : List (ℕ × ℕ)) :
    ∀ {acc : ℤ × SwimContext × σ}, SwimInv view acc.2.1 acc.2.2 →
      SwimInv view
        (targets.foldl (fun acc t => swimUpdatesSend ops acc.2.1 acc.2.2 t.1 t.2) acc).2.1
        (targets.foldl (fun acc t => swimUpdatesSend ops acc.2.1 acc.2.2 t.1 t.2) acc).2.2 := by
  induction targets with
  | nil => exact id
  | cons t targets ih => exact fun hI => ih (swimUpdatesSend_inv hl hI t.1 t.2)

/-- The timeout pass keeps the invariant: each suspect in turn, then each confirmation. -/
theorem swimMemberUpdateSuspected_inv (now glitchDelay : ℕ) {ctx : SwimContext} {s : σ}
    (hI : SwimInv view ctx s) :
    SwimInv view (swimMemberUpdateSuspected ops g now glitchDelay ctx s).2.1
      (swimMemberUpdateSuspected ops g now glitchDelay ctx s).2.2 :=
  swimConfirmFold_inv hl _ (swimSuspectedFold_inv hl g now glitchDelay _ (ctx, s, []) hI)

theorem swimStep_inv {c : SwimContext × σ} (hI : SwimInv view c.1 c.2) (e : SwimEvent) :
    SwimInv view (swimStep ops g c e).1 (swimStep ops g c e).2 := by
  cases e with
  | updatesParse now fromId id upds => exact swimUpdatesParse_inv hl g now hI fromId id upds
  | updateSuspected now glitchDelay => exact swimMemberUpdateSuspected_inv hl g now glitchDelay hI

theorem swimRun_inv (evs : List SwimEvent) :
    ∀ {c : SwimContext × σ}, SwimInv view c.1 c.2 →
      SwimInv view (swimRun ops g c evs).1 (swimRun ops g c evs).2 := by
  induction evs with
  | nil => exact id
  | cons e evs ih => exact fun hI => ih (swimStep_inv hl g hI e)

end Events

/-! ### Active members only move up -/

/-- A state lies below `(nr, status)` when its incarnation is lower, or the same with a lower
status. -/
theorem SwimMemberState.key_lt {st : SwimMemberState} {nr : ℕ} {status : SwimMemberStatus}
    (hle : st.smsIncarnation ≤ nr)
    (hrank : st.smsIncarnation = nr → st.smsStatus.rank < status.rank) :
    st.key < toLex (nr, status.rank) := by
  rcases Nat.lt_or_eq_of_le hle with hn | hn
  · exact Prod.Lex.toLex_lt_toLex.2 (.inl hn)
  · exact Prod.Lex.toLex_lt_toLex.2 (.inr ⟨hn, hrank hn⟩)

section Advance

variable {σ : Type*} {ops : SwimOps σ} {view : σ → ℕ → Option SwimMemberState}
  (hl : SwimOpsLawful ops view) {self : ℕ} {s : σ}
include hl

/-- A write of a state above an active member's moves the member there and changes no other
member. -/
theorem SwimAdvances.of_write {id : ℕ} {old st : SwimMemberState} (hv : view s id = some old)
    (hst : st.smsStatus ≠ .inactive) (hlt : old.smsStatus ≠ .inactive → old.key < st.key) :
    SwimAdvances view self s (ops.setMemberState s id st).2 := by
  intro j _ o ho hact
  by_cases hj : j = id
  · subst hj
    rw [hv, Option.some.injEq] at ho
    subst ho
    have hk := hlt hact
    -- a larger key has an incarnation at least as large, so the write is taken
    have hle : old.smsIncarnation ≤ st.smsIncarnation := by
      rcases Prod.Lex.toLex_lt_toLex.1 hk with h | ⟨h, -⟩
      · exact h.le
      · exact h.le
    obtain ⟨-, d, hset⟩ := hl.set_le hv hle
    exact ⟨{ st with smsDelay := d }, by rw [hset, Function.update_self], hst, .inr hk⟩
  · exact ⟨o, by rw [view_setMemberState_of_ne hl s id st j hj, ho], hact, .refl o⟩

variable (ctx : SwimContext) (fromId : ℕ) {id : ℕ} (nr : ℕ)

/-- `swim_member_alive` writes an active member only at a newer incarnation. -/
theorem swimMemberAlive_advances :
    SwimAdvances view self s (swimMemberAlive ops ctx s fromId id nr).2.2 := by
  rcases swimMemberAlive_spec hl ctx s fromId id nr with ⟨rc, hr⟩ | ⟨st, hv, hyes, hr⟩ <;>
    rw [hr]
  · exact .of_other fun _ _ => rfl
  refine SwimAdvances.of_write hl hv (by simp) fun hact => ?_
  have hn := hyes.resolve_left hact
  exact SwimMemberState.key_lt hn.le fun h => absurd h hn.ne

/-- `swim_member_dead` writes an active member at a newer incarnation, or over a live state of
the same. -/
theorem swimMemberDead_advances :
    SwimAdvances view self s (swimMemberDead ops ctx s fromId id nr).2.2 := by
  rcases swimMemberDead_spec hl ctx s fromId id nr with ⟨rc, hr⟩ | ⟨st, hv, hyes, hr⟩ <;>
    rw [hr]
  · exact .of_other fun _ _ => rfl
  refine SwimAdvances.of_write hl hv (by simp) fun hact => ?_
  rw [if_neg hact] at hyes
  rcases hyes with hn | ⟨hd, hle⟩
  · exact SwimMemberState.key_lt hn.le fun h => absurd h hn.ne
  · -- at the same incarnation a live member is below `DEAD`
    refine SwimMemberState.key_lt hle fun _ => ?_
    cases hs : st.smsStatus <;> simp_all [SwimMemberStatus.rank]

/-- `swim_member_suspect` writes an active member at a newer incarnation, or over an `ALIVE`
state of the same. -/
theorem swimMemberSuspect_advances (g : SwimGlobals) (now : ℕ) :
    SwimAdvances view self s (swimMemberSuspect ops g now ctx s fromId id nr).2.2 := by
  by_cases hT : g.swimSuspectTimeout = 0
  · rw [swimMemberSuspect_of_zero ctx fromId nr g hT]
    exact swimMemberDead_advances hl ctx fromId nr
  rcases swimMemberSuspect_spec hl ctx s fromId id nr g hT now with
    ⟨rc, hr⟩ | ⟨st, hv, hyes, hr⟩ <;> rw [hr]
  · exact .of_other fun _ _ => rfl
  refine SwimAdvances.of_write hl hv (by simp) fun _ => ?_
  rcases hyes.2 with hn | ⟨ha, hle⟩
  · exact SwimMemberState.key_lt hn.le fun h => absurd h hn.ne
  · exact SwimMemberState.key_lt hle fun _ => by simp [ha, SwimMemberStatus.rank]

variable (g : SwimGlobals)

theorem swimUpdatesParseOne_advances (now : ℕ) (s : σ) (upd : SwimMemberUpdate) :
    SwimAdvances view ctx.scSelf s (swimUpdatesParseOne ops g now fromId ctx s upd).2.2 := by
  rcases swimUpdatesParseOne_cases g now fromId ctx s upd with h | ⟨-, h⟩ | ⟨-, h | h | h⟩ <;>
    rw [h]
  · exact .of_other fun _ _ => rfl
  · -- the self case writes this engine only
    exact .of_other (swimSelfRefute_other hl ctx s _)
  · exact swimMemberAlive_advances hl ctx fromId _
  · exact swimMemberSuspect_advances hl ctx fromId _ g now
  · exact swimMemberDead_advances hl ctx fromId _

/-- Within a message, an active member other than this engine changes only to the state an update
about it gives, and only when that state lies strictly above its own. -/
theorem swimUpdatesParseOne_changes (now : ℕ) (s : σ) (upd : SwimMemberUpdate) {j : ℕ}
    (hj : j ≠ ctx.scSelf) {st : SwimMemberState} (hv : view s j = some st)
    (hact : st.smsStatus ≠ .inactive) :
    view (swimUpdatesParseOne ops g now fromId ctx s upd).2.2 j = some st ∨
      ∃ st', view (swimUpdatesParseOne ops g now fromId ctx s upd).2.2 j = some st' ∧
        swimUpdateKey g ctx.scSelf upd = some (j, st'.key) ∧ st.key < st'.key := by
  obtain ⟨st', hv', -, hadv⟩ :=
    swimUpdatesParseOne_advances hl ctx fromId g now s upd j hj st hv hact
  rcases hadv with rfl | hlt
  · exact .inl hv'
  refine .inr ⟨st', hv', ?_, hlt⟩
  -- the member moved, so the update is about it and its key is the member's new one
  cases hu : swimUpdateKey g ctx.scSelf upd with
  | none =>
    rw [swimUpdatesParseOne_of_none hl g now fromId ctx s hu j hj, hv, Option.some.injEq] at hv'
    subst hv'
    exact absurd hlt (lt_irrefl _)
  | some kx =>
    obtain ⟨k, x⟩ := kx
    obtain ⟨hoth, hk⟩ := swimUpdatesParseOne_of_some hl g now fromId ctx s hu
    by_cases hjk : j = k
    · subst hjk
      obtain ⟨st'', h'', hkey⟩ := hk st hv hact
      rw [hv', Option.some.injEq] at h''
      subst h''
      rcases max_choice st.key x with hm | hm
      · rw [hkey, hm] at hlt
        exact absurd hlt (lt_irrefl _)
      · rw [hkey, hm]
    · rw [hoth j hjk, hv, Option.some.injEq] at hv'
      subst hv'
      exact absurd hlt (lt_irrefl _)

end Advance

/-! ### Whole runs -/

section Runs

variable {σ : Type*} {ops : SwimOps σ} {view : σ → ℕ → Option SwimMemberState} (g : SwimGlobals)

theorem swimUpdatesParseLoop_self (now fromId : ℕ) (upds : List SwimMemberUpdate) :
    ∀ (ctx : SwimContext) (s : σ),
      (swimUpdatesParseLoop ops g now fromId upds ctx s).2.1.scSelf = ctx.scSelf := by
  induction upds with
  | nil => exact fun _ _ => rfl
  | cons upd upds ih =>
    intro ctx s
    simp only [swimUpdatesParseLoop]
    split_ifs
    · exact swimUpdatesParseOne_self g now fromId ctx s upd
    · rw [ih, swimUpdatesParseOne_self g now fromId ctx s upd]

theorem swimUpdatesParse_self (now : ℕ) (ctx : SwimContext) (s : σ) (fromId id : ℕ)
    (upds : List SwimMemberUpdate) :
    (swimUpdatesParse ops g now ctx s fromId id upds).2.1.scSelf = ctx.scSelf := by
  simp only [swimUpdatesParse]
  split_ifs
  · rfl
  all_goals exact swimUpdatesParseLoop_self g now fromId upds ctx s

/-- The timeout pass writes a member only by declaring it dead. -/
theorem swimSuspectedOne_state (now glitchDelay : ℕ) (acc : SwimContext × σ × List (ℕ × ℕ))
    (id : ℕ) :
    (swimSuspectedOne ops g now glitchDelay acc id).1.scSelf = acc.1.scSelf ∧
      ((swimSuspectedOne ops g now glitchDelay acc id).2.1 = acc.2.1 ∨
        ∃ ctx0 fromId nr, (swimSuspectedOne ops g now glitchDelay acc id).2.1 =
          (swimMemberDead ops ctx0 acc.2.1 fromId id nr).2.2) := by
  obtain ⟨ctx, s, targets⟩ := acc
  dsimp only [swimSuspectedOne]
  split
  · exact ⟨rfl, .inl rfl⟩
  rename_i item _
  by_cases hdl : now > item.u + glitchDelay
  swap
  · rw [if_neg hdl]
    exact ⟨rfl, .inl rfl⟩
  rw [if_pos hdl]
  split
  · exact ⟨rfl, .inl rfl⟩
  split_ifs
  · exact ⟨rfl, .inl rfl⟩
  · exact ⟨rfl, .inl rfl⟩
  · exact ⟨swimMemberDead_self _ _ _ _ _, .inr ⟨_, _, _, rfl⟩⟩

/-- A confirmation changes `sc_updates` and no member. -/
theorem swimUpdatesSend_state (hl : SwimOpsLawful ops view) (ctx : SwimContext) (s : σ)
    (id toId : ℕ) :
    (swimUpdatesSend ops ctx s id toId).2.1.scSelf = ctx.scSelf ∧
      view (swimUpdatesSend ops ctx s id toId).2.2 = view s := by
  have hctx := @swimUpdatesPrepare_ctx σ ops ctx s id toId
  dsimp only [swimUpdatesSend]
  split_ifs
  · exact ⟨by rw [hctx], rfl⟩
  · exact ⟨by rw [hctx], hl.sendRequest _ _ _ _⟩

theorem swimSuspectedFold_state (now glitchDelay : ℕ) (ids : List ℕ) :
    ∀ acc : SwimContext × σ × List (ℕ × ℕ),
      (ids.foldl (swimSuspectedOne ops g now glitchDelay) acc).1.scSelf = acc.1.scSelf := by
  induction ids with
  | nil => exact fun _ => rfl
  | cons id ids ih =>
    intro acc
    rw [List.foldl_cons, ih, (swimSuspectedOne_state g now glitchDelay acc id).1]

theorem swimConfirmFold_state (hl : SwimOpsLawful ops view) (targets : List (ℕ × ℕ)) :
    ∀ acc : ℤ × SwimContext × σ,
      (targets.foldl (fun acc t => swimUpdatesSend ops acc.2.1 acc.2.2 t.1 t.2) acc).2.1.scSelf =
          acc.2.1.scSelf ∧
        view (targets.foldl (fun acc t => swimUpdatesSend ops acc.2.1 acc.2.2 t.1 t.2) acc).2.2 =
          view acc.2.2 := by
  induction targets with
  | nil => exact fun _ => ⟨rfl, rfl⟩
  | cons t targets ih =>
    intro acc
    obtain ⟨hself, hview⟩ := swimUpdatesSend_state hl acc.2.1 acc.2.2 t.1 t.2
    rw [List.foldl_cons, (ih _).1, (ih _).2]
    exact ⟨hself, hview⟩

theorem swimMemberUpdateSuspected_self (hl : SwimOpsLawful ops view) (now glitchDelay : ℕ)
    (ctx : SwimContext) (s : σ) :
    (swimMemberUpdateSuspected ops g now glitchDelay ctx s).2.1.scSelf = ctx.scSelf := by
  rw [swimMemberUpdateSuspected, (swimConfirmFold_state hl _ _).1]
  exact swimSuspectedFold_state g now glitchDelay _ (ctx, s, [])

theorem swimStep_self (hl : SwimOpsLawful ops view) (c : SwimContext × σ) (e : SwimEvent) :
    (swimStep ops g c e).1.scSelf = c.1.scSelf := by
  cases e with
  | updatesParse now fromId id upds => exact swimUpdatesParse_self g now c.1 c.2 fromId id upds
  | updateSuspected now glitchDelay =>
    exact swimMemberUpdateSuspected_self g hl now glitchDelay c.1 c.2

variable (hl : SwimOpsLawful ops view)
include hl

theorem swimUpdatesParseLoop_advances (now fromId : ℕ) (upds : List SwimMemberUpdate) :
    ∀ (ctx : SwimContext) (s : σ),
      SwimAdvances view ctx.scSelf s (swimUpdatesParseLoop ops g now fromId upds ctx s).2.2 := by
  induction upds with
  | nil => exact fun _ _ => .of_other fun _ _ => rfl
  | cons upd upds ih =>
    intro ctx s
    have h1 := swimUpdatesParseOne_advances hl ctx fromId g now s upd
    simp only [swimUpdatesParseLoop]
    split_ifs
    · exact h1
    · -- the rest of the message, from the state after `upd`
      have h2 := ih (swimUpdatesParseOne ops g now fromId ctx s upd).2.1
        (swimUpdatesParseOne ops g now fromId ctx s upd).2.2
      rw [swimUpdatesParseOne_self g now fromId ctx s upd] at h2
      exact h1.trans h2

theorem swimUpdatesParse_advances (now : ℕ) (ctx : SwimContext) (s : σ) (fromId id : ℕ)
    (upds : List SwimMemberUpdate) :
    SwimAdvances view ctx.scSelf s (swimUpdatesParse ops g now ctx s fromId id upds).2.2 := by
  simp only [swimUpdatesParse]
  split_ifs
  · exact .of_other fun _ _ => rfl
  all_goals exact swimUpdatesParseLoop_advances g hl now fromId upds ctx s

theorem swimSuspectedFold_advances (now glitchDelay self : ℕ) (ids : List ℕ) :
    ∀ acc : SwimContext × σ × List (ℕ × ℕ),
      SwimAdvances view self acc.2.1
        (ids.foldl (swimSuspectedOne ops g now glitchDelay) acc).2.1 := by
  induction ids with
  | nil => exact fun _ => .of_other fun _ _ => rfl
  | cons id ids ih =>
    intro acc
    refine SwimAdvances.trans ?_ (ih _)
    -- a suspect is declared dead, or no member changes
    rcases (swimSuspectedOne_state g now glitchDelay acc id).2 with h | ⟨ctx0, fromId, nr, h⟩ <;>
      rw [h]
    · exact .of_other fun _ _ => rfl
    · exact swimMemberDead_advances hl ctx0 fromId nr

theorem swimMemberUpdateSuspected_advances (now glitchDelay self : ℕ) (ctx : SwimContext) (s : σ) :
    SwimAdvances view self s (swimMemberUpdateSuspected ops g now glitchDelay ctx s).2.2 := by
  have h1 := swimSuspectedFold_advances g hl now glitchDelay self (ctx.scSuspects.map SwimItem.siId)
    (ctx, s, [])
  -- the confirmations change no member
  exact h1.trans (.of_other fun j _ => congrFun ((swimConfirmFold_state hl _ _).2) j)

theorem swimStep_advances (c : SwimContext × σ) (e : SwimEvent) :
    SwimAdvances view c.1.scSelf c.2 (swimStep ops g c e).2 := by
  cases e with
  | updatesParse now fromId id upds =>
    exact swimUpdatesParse_advances g hl now c.1 c.2 fromId id upds
  | updateSuspected now glitchDelay =>
    exact swimMemberUpdateSuspected_advances g hl now glitchDelay _ c.1 c.2

/-- Along a run, every active member other than this engine keeps its state or moves up. -/
theorem swimRun_advances (evs : List SwimEvent) :
    ∀ c : SwimContext × σ, SwimAdvances view c.1.scSelf c.2 (swimRun ops g c evs).2 := by
  induction evs with
  | nil => exact fun _ => .of_other fun _ _ => rfl
  | cons e evs ih =>
    intro c
    have h2 := ih (swimStep ops g c e)
    rw [swimStep_self g hl] at h2
    exact (swimStep_advances g hl c e).trans h2

omit hl in
theorem swimUpdatesParseOne_of_self (now fromId : ℕ) {ctx : SwimContext} {s : σ}
    {upd : SwimMemberUpdate} (hself : upd.smuId = ctx.scSelf)
    (hs : upd.smuState.smsStatus = .suspect ∨ upd.smuState.smsStatus = .dead) :
    swimUpdatesParseOne ops g now fromId ctx s upd =
      swimSelfRefute ops ctx s upd.smuState.smsIncarnation := by
  obtain ⟨id, nr, status, delay⟩ := upd
  dsimp only at hself hs
  rcases hs with rfl | rfl <;> simp [swimUpdatesParseOne, hself]

/-- Suspected or declared dead at its incarnation or a later one, this engine takes a larger
incarnation at once, and the message is read on. -/
theorem swimSelfRefute_raises
    (hinc : ∀ s id st, st.smsIncarnation < (ops.newIncarnation s id st).2.smsIncarnation)
    {ctx : SwimContext} {s : σ} {st : SwimMemberState} (hv : view s ctx.scSelf = some st)
    {nr : ℕ} (hnr : st.smsIncarnation ≤ nr) :
    (swimSelfRefute ops ctx s nr).1 = 0 ∧
      ∃ st', view (swimSelfRefute ops ctx s nr).2.2 ctx.scSelf = some st' ∧
        st.smsIncarnation < st'.smsIncarnation := by
  obtain ⟨hview, -⟩ := hl.newIncarnation s ctx.scSelf st
  have hv' : view (ops.newIncarnation s ctx.scSelf st).1 ctx.scSelf = some st := by rw [hview, hv]
  -- the write of the new incarnation is taken
  obtain ⟨h0, d, hset⟩ := hl.set_le hv' (hinc s ctx.scSelf st).le
  simp only [swimSelfRefute, hl.get_some hv, gt_iff_lt, Nat.not_lt.2 hnr, if_false,
    swimUpdatesNotify_snd]
  exact ⟨h0, { (ops.newIncarnation s ctx.scSelf st).2 with smsDelay := d },
    by rw [hset, Function.update_self], hinc s ctx.scSelf st⟩

end Runs

/-! ### A group layer -/

/-- A group layer over a table of members: a write is taken when it keeps or raises the
member's incarnation, as in `crt_swim_set_member_state`, and a new incarnation is the next one. -/
def swimTableOps : SwimOps (ℕ → Option SwimMemberState) where
  sendRequest s _ _ _ := (0, s)
  getMemberState s id := match s id with
    | some st => .ok st
    | none => .error (-derNonexist)
  setMemberState s id st := match s id with
    | some old =>
      if old.smsIncarnation ≤ st.smsIncarnation then (0, Function.update s id (some st))
      else (-derNonexist, s)
    | none => (-derNonexist, s)
  newIncarnation s _ st := (s, { st with smsIncarnation := st.smsIncarnation + 1 })

theorem swimTableOps_lawful : SwimOpsLawful swimTableOps fun s => s where
  get_some h := by simp [swimTableOps, h]
  get_none h := by simp [swimTableOps, h]
  set_le {_ _ st _} h hle :=
    ⟨by simp [swimTableOps, h, hle], st.smsDelay, by simp [swimTableOps, h, hle]⟩
  set_lt {s id st} h := by
    cases hs : s id with
    | none => simp [swimTableOps, hs, derNonexist]
    | some old => simp [swimTableOps, hs, Nat.not_le.2 (h old hs), derNonexist]
  newIncarnation _ _ _ := ⟨rfl, rfl⟩
  sendRequest _ _ _ _ := rfl

section Precedence

variable {σ : Type*} {ops : SwimOps σ} {view : σ → ℕ → Option SwimMemberState} (g : SwimGlobals)

end Precedence

end Daos.Cart

import Mathlib
import Daos.Cart.Swim
import Daos.Lib.Joins

/-!
# What a SWIM update does to the view (`cart/swim/swim.c`)

`swim.c` reads and writes the members' states through the group layer. What it relies on is
`SwimOpsLawful`: `get_member_state` reads the layer's view, `set_member_state` writes it unless the
member is missing or the write would lower its incarnation, and the other callbacks leave it.
Order a member's state by its incarnation, then its status in the override order
`INACTIVE < ALIVE < SUSPECT < DEAD` (`SwimMemberState.key`).

**What is proved.** Over such a layer, `swim_member_alive`, `swim_member_suspect` and
`swim_member_dead` each leave a member's key at the larger of its key and the update's
(`swimMemberAlive_key`, `swimMemberSuspect_key`, `swimMemberDead_key`), except that an `INACTIVE`
member ignores suspicions, and death outside a network glitch; the override table of the three
functions is the lexicographic maximum. A whole message, parsed without failure, therefore leaves
every active member other than this engine at the join of its key and the message's updates about
it (`swimUpdatesParseLoop_keys`), in the sense of `Joins.joinAll`.
-/

namespace Daos.Cart

/-- The override order of the statuses at one incarnation. -/
def SwimMemberStatus.rank : SwimMemberStatus → ℕ
  | .inactive => 0
  | .alive => 1
  | .suspect => 2
  | .dead => 3

theorem SwimMemberStatus.one_le_rank {status : SwimMemberStatus} (h : status ≠ .inactive) :
    1 ≤ status.rank := by
  cases status <;> simp_all [SwimMemberStatus.rank]

/-- A member's state in the override order: its incarnation, then its status. -/
def SwimMemberState.key (st : SwimMemberState) : ℕ ×ₗ ℕ :=
  toLex (st.smsIncarnation, st.smsStatus.rank)

/-- What `swim.c` needs of the group layer, whose view of the members is `view`. -/
structure SwimOpsLawful {σ : Type*} (ops : SwimOps σ) (view : σ → ℕ → Option SwimMemberState) :
    Prop where
  get_some : ∀ {s id st}, view s id = some st → ops.getMemberState s id = .ok st
  get_none : ∀ {s id}, view s id = none → ops.getMemberState s id = .error (-derNonexist)
  /-- A write that keeps or raises the incarnation is taken, up to the transfer delay. -/
  set_le : ∀ {s id st old}, view s id = some old → old.smsIncarnation ≤ st.smsIncarnation →
    (ops.setMemberState s id st).1 = 0 ∧ ∃ d, view (ops.setMemberState s id st).2 =
      Function.update (view s) id (some { st with smsDelay := d })
  /-- Any other is refused. -/
  set_lt : ∀ {s id st}, (∀ old, view s id = some old → st.smsIncarnation < old.smsIncarnation) →
    (ops.setMemberState s id st).1 ≠ 0 ∧ view (ops.setMemberState s id st).2 = view s
  newIncarnation : ∀ s id st, view (ops.newIncarnation s id st).1 = view s ∧
    (ops.newIncarnation s id st).2 =
      { st with smsIncarnation := (ops.newIncarnation s id st).2.smsIncarnation }
  sendRequest : ∀ s id toId upds, view (ops.sendRequest s id toId upds).2 = view s

/-! ### The lists of items -/

section Items

variable {l : List SwimItem}

theorem map_siId_itemsRenew {id : ℕ} {f : SwimItem → SwimItem} (hf : ∀ it, (f it).siId = it.siId) :
    (itemsRenew l id f).map SwimItem.siId = l.map SwimItem.siId :=
  KeyList.map_renew hf l

theorem mem_siId_itemsRemove (hnd : (l.map SwimItem.siId).Nodup) {id j : ℕ} :
    j ∈ (itemsRemove l id).map SwimItem.siId ↔ j ∈ l.map SwimItem.siId ∧ j ≠ id := by
  rw [itemsRemove, KeyList.map_remove, hnd.mem_erase_iff, and_comm]

theorem nodup_itemsRemove (hnd : (l.map SwimItem.siId).Nodup) (id : ℕ) :
    ((itemsRemove l id).map SwimItem.siId).Nodup :=
  KeyList.nodup_remove hnd

theorem map_siId_suspectItems (fromId id deadline : ℕ) (newer : Bool) :
    (suspectItems l fromId id deadline newer).map SwimItem.siId =
      if id ∈ l.map SwimItem.siId then l.map SwimItem.siId else l.map SwimItem.siId ++ [id] := by
  unfold suspectItems
  by_cases h : id ∈ l.map SwimItem.siId
  · rw [if_pos h, if_pos h]
    exact map_siId_itemsRenew fun it => by cases newer <;> rfl
  · rw [if_neg h, if_neg h, List.map_append]
    rfl

theorem mem_siId_suspectItems (fromId id deadline : ℕ) (newer : Bool) {j : ℕ} :
    j ∈ (suspectItems l fromId id deadline newer).map SwimItem.siId ↔
      j ∈ l.map SwimItem.siId ∨ j = id := by
  rw [map_siId_suspectItems]
  split_ifs with h
  · constructor
    · exact .inl
    · rintro (hj | rfl)
      · exact hj
      · exact h
  · simp

theorem nodup_suspectItems (hnd : (l.map SwimItem.siId).Nodup) (fromId id deadline : ℕ)
    (newer : Bool) : ((suspectItems l fromId id deadline newer).map SwimItem.siId).Nodup := by
  rw [map_siId_suspectItems]
  split_ifs with h
  · exact hnd
  · exact hnd.append (List.nodup_singleton id) (by simpa using h)

end Items

/-! ### One write through `set_member_state` -/

section Write

variable {σ : Type*} {ops : SwimOps σ} {view : σ → ℕ → Option SwimMemberState}

/-- The key a write of `(nr, status)` leaves over `old`: the write's if it keeps or raises the
incarnation, `old`'s if it is refused. -/
def writeKey (old : SwimMemberState) (nr : ℕ) (status : SwimMemberStatus) : ℕ ×ₗ ℕ :=
  if old.smsIncarnation ≤ nr then toLex (nr, status.rank) else old.key

/-- Unless it lowers the status of the same incarnation, the key a write leaves is the larger of
the two. -/
theorem writeKey_eq_max {old : SwimMemberState} {nr : ℕ} {status : SwimMemberStatus}
    (h : ¬(nr = old.smsIncarnation ∧ status.rank < old.smsStatus.rank)) :
    writeKey old nr status = max old.key (toLex (nr, status.rank)) := by
  unfold writeKey SwimMemberState.key
  rcases lt_trichotomy nr old.smsIncarnation with hlt | rfl | hgt
  · rw [if_neg (by omega), max_eq_left (Prod.Lex.toLex_le_toLex.2 (.inl hlt))]
  · have hr : old.smsStatus.rank ≤ status.rank := Nat.le_of_not_lt fun hr => h ⟨rfl, hr⟩
    have hle : toLex (old.smsIncarnation, old.smsStatus.rank) ≤
        toLex (old.smsIncarnation, status.rank) := Prod.Lex.toLex_le_toLex.2 (.inr ⟨rfl, hr⟩)
    rw [if_pos le_rfl, max_eq_right hle]
  · rw [if_pos hgt.le, max_eq_right (Prod.Lex.toLex_le_toLex.2 (.inl hgt))]

theorem view_setMemberState (hl : SwimOpsLawful ops view) {s : σ} {id : ℕ}
    {old : SwimMemberState} (hv : view s id = some old) (st : SwimMemberState) :
    (∀ j ≠ id, view (ops.setMemberState s id st).2 j = view s j) ∧
      ∃ st', view (ops.setMemberState s id st).2 id = some st' ∧
        st'.key = writeKey old st.smsIncarnation st.smsStatus ∧
        st'.smsStatus = if old.smsIncarnation ≤ st.smsIncarnation then st.smsStatus
          else old.smsStatus := by
  by_cases hle : old.smsIncarnation ≤ st.smsIncarnation
  · obtain ⟨-, d, hview⟩ := hl.set_le hv hle
    refine ⟨fun j hj => by rw [hview, Function.update_of_ne hj], _, by rw [hview,
      Function.update_self], ?_, by simp [hle]⟩
    simp [writeKey, hle, SwimMemberState.key]
  · have hlt : ∀ o, view s id = some o → st.smsIncarnation < o.smsIncarnation := by
      intro o ho
      rw [hv, Option.some.injEq] at ho
      subst ho
      omega
    obtain ⟨-, hview⟩ := hl.set_lt hlt
    refine ⟨fun j _ => by rw [hview], old, by rw [hview, hv], ?_, by simp [hle]⟩
    simp [writeKey, hle]

theorem view_setMemberState_none (hl : SwimOpsLawful ops view) {s : σ} {id : ℕ}
    (hv : view s id = none) (st : SwimMemberState) :
    view (ops.setMemberState s id st).2 = view s :=
  (hl.set_lt fun o ho => by rw [hv] at ho; cases ho).2


/-- A write changes no other member. -/
theorem view_setMemberState_of_ne (hl : SwimOpsLawful ops view) (s : σ) (id : ℕ)
    (st : SwimMemberState) : ∀ j ≠ id, view (ops.setMemberState s id st).2 j = view s j := by
  cases hv : view s id with
  | none => exact fun j _ => by rw [view_setMemberState_none hl hv]
  | some old => exact (view_setMemberState hl hv st).1

end Write

/-! ### The three update functions -/

section Calls

variable {σ : Type*} {ops : SwimOps σ} {view : σ → ℕ → Option SwimMemberState}
  (hl : SwimOpsLawful ops view) (ctx : SwimContext) {s : σ} (fromId : ℕ) {id : ℕ} (nr : ℕ)
include hl

/-- `swim_member_alive` writes `ALIVE` over an `INACTIVE` member or an older incarnation, and
otherwise changes nothing. -/
theorem swimMemberAlive_cases {st : SwimMemberState} (hv : view s id = some st) :
    (¬(st.smsStatus = .inactive ∨ nr > st.smsIncarnation) ∧
        ∃ rc, swimMemberAlive ops ctx s fromId id nr = (ctx, rc, s)) ∨
      ((st.smsStatus = .inactive ∨ nr > st.smsIncarnation) ∧
        swimMemberAlive ops ctx s fromId id nr =
          swimUpdatesNotify ops { ctx with scSuspects := itemsRemove ctx.scSuspects id } s fromId
            id { st with smsIncarnation := nr, smsStatus := .alive }
            (if st.smsStatus = .inactive then ctx.scPiggybackTxMax else 0)) := by
  unfold swimMemberAlive
  rw [hl.get_some hv]
  by_cases hi : st.smsStatus = .inactive
  · exact .inr ⟨.inl hi, by simp [hi]⟩
  · by_cases hn : nr > st.smsIncarnation
    · exact .inr ⟨.inr hn, by simp [hi, hn]⟩
    · refine .inl ⟨by tauto, -derAlready, ?_⟩
      simp only [if_neg hi, if_neg hn]
      rw [if_pos (.inr (.inr (by omega)))]

theorem swimMemberAlive_of_none (hv : view s id = none) :
    swimMemberAlive ops ctx s fromId id nr = (ctx, -derNonexist, s) := by
  simp [swimMemberAlive, hl.get_none hv]

/-- `swim_member_dead` writes `DEAD` over an older incarnation or a live state of the same, over
an `INACTIVE` member during a glitch, and otherwise changes nothing. -/
theorem swimMemberDead_cases {st : SwimMemberState} (hv : view s id = some st) :
    (¬(if st.smsStatus = .inactive then ctx.scGlitch = true
        else nr > st.smsIncarnation ∨ (st.smsStatus ≠ .dead ∧ st.smsIncarnation ≤ nr)) ∧
        ∃ rc, swimMemberDead ops ctx s fromId id nr = (ctx, rc, s)) ∨
      ((if st.smsStatus = .inactive then ctx.scGlitch = true
        else nr > st.smsIncarnation ∨ (st.smsStatus ≠ .dead ∧ st.smsIncarnation ≤ nr)) ∧
        swimMemberDead ops ctx s fromId id nr =
          swimUpdatesNotify ops { ctx with scSuspects := itemsRemove ctx.scSuspects id } s fromId
            id { st with smsIncarnation := nr, smsStatus := .dead } 0) := by
  unfold swimMemberDead
  rw [hl.get_some hv]
  by_cases hi : st.smsStatus = .inactive
  · by_cases hg : ctx.scGlitch = true
    · exact .inr ⟨by simp [hi, hg], by simp [hi, hg]⟩
    · exact .inl ⟨by simp [hi, hg], 0, by simp [hi, hg]⟩
  · by_cases hn : nr > st.smsIncarnation
    · exact .inr ⟨by simp [hi, hn], by simp [hi, hn]⟩
    · by_cases hd : st.smsStatus = .dead ∨ st.smsIncarnation > nr
      · refine .inl ⟨?_, -derAlready, by simp only [if_neg hi, if_neg hn, if_pos hd]⟩
        rw [if_neg hi]
        rintro (hn' | ⟨hne, hle⟩)
        · exact hn hn'
        · rcases hd with hd | hd
          · exact hne hd
          · omega
      · refine .inr ⟨?_, by simp only [if_neg hi, if_neg hn, if_neg hd]⟩
        rw [if_neg hi]
        push Not at hd
        exact .inr hd

theorem swimMemberDead_of_none (hv : view s id = none) :
    swimMemberDead ops ctx s fromId id nr = (ctx, -derNonexist, s) := by
  simp [swimMemberDead, hl.get_none hv]

/-- With a suspicion timeout, `swim_member_suspect` writes `SUSPECT` over an older incarnation or
an `ALIVE` state of the same, puts the member on `sc_suspects`, and otherwise changes nothing. -/
theorem swimMemberSuspect_cases (g : SwimGlobals) (hT : g.swimSuspectTimeout ≠ 0) (now : ℕ)
    {st : SwimMemberState} (hv : view s id = some st) :
    (¬(st.smsStatus ≠ .inactive ∧ (nr > st.smsIncarnation ∨
        (st.smsStatus = .alive ∧ st.smsIncarnation ≤ nr))) ∧
        ∃ rc, swimMemberSuspect ops g now ctx s fromId id nr = (ctx, rc, s)) ∨
      ((st.smsStatus ≠ .inactive ∧ (nr > st.smsIncarnation ∨
        (st.smsStatus = .alive ∧ st.smsIncarnation ≤ nr))) ∧
        swimMemberSuspect ops g now ctx s fromId id nr =
          swimUpdatesNotify ops
            { ctx with
              scSuspects := suspectItems ctx.scSuspects fromId id (now + g.swimSuspectTimeout)
                (decide (nr > st.smsIncarnation)) }
            s fromId id { st with smsIncarnation := nr, smsStatus := .suspect } 0) := by
  unfold swimMemberSuspect
  rw [if_neg hT, hl.get_some hv]
  by_cases hi : st.smsStatus = .inactive
  · exact .inl ⟨by simp [hi], 0, by simp [hi]⟩
  · by_cases hn : nr > st.smsIncarnation
    · exact .inr ⟨⟨hi, .inl hn⟩, by simp [hi, hn]⟩
    · by_cases hd : st.smsStatus = .dead ∨ st.smsStatus = .suspect ∨ st.smsIncarnation > nr
      · refine .inl ⟨?_, -derAlready, by simp only [if_neg hi, if_neg hn, if_pos hd]⟩
        rintro ⟨-, hn' | ⟨ha, hle⟩⟩
        · exact hn hn'
        · rcases hd with hd | hd | hd
          · rw [ha] at hd
            cases hd
          · rw [ha] at hd
            cases hd
          · omega
      · refine .inr ⟨⟨hi, .inr ⟨?_, by omega⟩⟩, by simp only [if_neg hi, if_neg hn, if_neg hd]⟩
        cases h : st.smsStatus <;> simp_all

/-! #### The member each one writes -/

theorem swimMemberAlive_other :
    ∀ j ≠ id, view (swimMemberAlive ops ctx s fromId id nr).2.2 j = view s j := by
  cases hv : view s id with
  | none => exact fun j _ => by rw [swimMemberAlive_of_none hl ctx fromId nr hv]
  | some st =>
    rcases swimMemberAlive_cases hl ctx fromId nr hv with ⟨-, rc, hr⟩ | ⟨-, hr⟩
    · exact fun j _ => by rw [hr]
    · rw [hr]
      exact view_setMemberState_of_ne hl s id _

theorem swimMemberDead_other :
    ∀ j ≠ id, view (swimMemberDead ops ctx s fromId id nr).2.2 j = view s j := by
  cases hv : view s id with
  | none => exact fun j _ => by rw [swimMemberDead_of_none hl ctx fromId nr hv]
  | some st =>
    rcases swimMemberDead_cases hl ctx fromId nr hv with ⟨-, rc, hr⟩ | ⟨-, hr⟩
    · exact fun j _ => by rw [hr]
    · rw [hr]
      exact view_setMemberState_of_ne hl s id _

/-- `swim_member_alive` leaves the larger of the member's key and `(nr, ALIVE)`. -/
theorem swimMemberAlive_key {st : SwimMemberState} (hv : view s id = some st) :
    ∃ st', view (swimMemberAlive ops ctx s fromId id nr).2.2 id = some st' ∧
      st'.key = max st.key (toLex (nr, SwimMemberStatus.alive.rank)) := by
  rcases swimMemberAlive_cases hl ctx fromId nr hv with ⟨hno, rc, hr⟩ | ⟨hyes, hr⟩
  · -- an old update about a live member: its key is the larger
    rw [hr]
    refine ⟨st, hv, (max_eq_left (Prod.Lex.toLex_le_toLex.2 ?_)).symm⟩
    have hr1 := SwimMemberStatus.one_le_rank fun h => hno (.inl h)
    rcases Nat.lt_or_eq_of_le (Nat.le_of_not_lt fun h => hno (.inr h)) with h | h
    · exact .inl h
    · exact .inr ⟨h, hr1⟩
  · rw [hr]
    obtain ⟨-, st', hst', hkey, -⟩ := view_setMemberState hl hv
      { st with smsIncarnation := nr, smsStatus := .alive }
    refine ⟨st', hst', hkey.trans (writeKey_eq_max ?_)⟩
    rintro ⟨rfl, hlt⟩
    rcases hyes with hi | hn
    · simp [hi, SwimMemberStatus.rank] at hlt
    · exact lt_irrefl _ hn

/-- `swim_member_dead` leaves the larger of the member's key and `(nr, DEAD)`, but for an
`INACTIVE` member outside a glitch. -/
theorem swimMemberDead_key {st : SwimMemberState} (hv : view s id = some st)
    (hact : st.smsStatus ≠ .inactive ∨ ctx.scGlitch = true) :
    ∃ st', view (swimMemberDead ops ctx s fromId id nr).2.2 id = some st' ∧
      st'.key = max st.key (toLex (nr, SwimMemberStatus.dead.rank)) := by
  rcases swimMemberDead_cases hl ctx fromId nr hv with ⟨hno, rc, hr⟩ | ⟨-, hr⟩
  · -- an old update, or one about a dead member: its key is the larger
    rw [hr]
    refine ⟨st, hv, (max_eq_left (Prod.Lex.toLex_le_toLex.2 ?_)).symm⟩
    have hi : st.smsStatus ≠ .inactive := fun hi => by
      rw [if_pos hi] at hno
      exact hno (hact.resolve_left (not_not.2 hi))
    rw [if_neg hi] at hno
    push Not at hno
    rcases Nat.lt_or_eq_of_le hno.1 with h | h
    · exact .inl h
    · -- at the same incarnation only a dead member ignores the update
      have hd : st.smsStatus = .dead := by
        by_contra hne
        have := hno.2 hne
        omega
      exact .inr ⟨h, by rw [hd]⟩
  · rw [hr]
    obtain ⟨-, st', hst', hkey, -⟩ := view_setMemberState hl hv
      { st with smsIncarnation := nr, smsStatus := .dead }
    refine ⟨st', hst', hkey.trans (writeKey_eq_max ?_)⟩
    rintro ⟨-, hlt⟩
    cases h : st.smsStatus <;> simp [h, SwimMemberStatus.rank] at hlt

omit hl in
theorem swimMemberSuspect_of_zero (g : SwimGlobals) (hT : g.swimSuspectTimeout = 0) (now : ℕ) :
    swimMemberSuspect ops g now ctx s fromId id nr = swimMemberDead ops ctx s fromId id nr := by
  simp [swimMemberSuspect, hT]

theorem swimMemberSuspect_of_none (g : SwimGlobals) (hT : g.swimSuspectTimeout ≠ 0) (now : ℕ)
    (hv : view s id = none) :
    swimMemberSuspect ops g now ctx s fromId id nr = (ctx, -derNonexist, s) := by
  simp [swimMemberSuspect, hT, hl.get_none hv]

theorem swimMemberSuspect_other (g : SwimGlobals) (now : ℕ) :
    ∀ j ≠ id, view (swimMemberSuspect ops g now ctx s fromId id nr).2.2 j = view s j := by
  by_cases hT : g.swimSuspectTimeout = 0
  · rw [swimMemberSuspect_of_zero ctx fromId nr g hT]
    exact swimMemberDead_other hl ctx fromId nr
  cases hv : view s id with
  | none => exact fun j _ => by rw [swimMemberSuspect_of_none hl ctx fromId nr g hT now hv]
  | some st =>
    rcases swimMemberSuspect_cases hl ctx fromId nr g hT now hv with ⟨-, rc, hr⟩ | ⟨-, hr⟩
    · exact fun j _ => by rw [hr]
    · rw [hr]
      exact view_setMemberState_of_ne hl s id _

/-- With a suspicion timeout, `swim_member_suspect` leaves the larger of an active member's key
and `(nr, SUSPECT)`. -/
theorem swimMemberSuspect_key (g : SwimGlobals) (hT : g.swimSuspectTimeout ≠ 0) (now : ℕ)
    {st : SwimMemberState} (hv : view s id = some st) (hact : st.smsStatus ≠ .inactive) :
    ∃ st', view (swimMemberSuspect ops g now ctx s fromId id nr).2.2 id = some st' ∧
      st'.key = max st.key (toLex (nr, SwimMemberStatus.suspect.rank)) := by
  rcases swimMemberSuspect_cases hl ctx fromId nr g hT now hv with ⟨hno, rc, hr⟩ | ⟨hyes, hr⟩
  · -- an old update, or a suspicion of a member suspected or dead at its incarnation
    rw [hr]
    refine ⟨st, hv, (max_eq_left (Prod.Lex.toLex_le_toLex.2 ?_)).symm⟩
    have hn : nr ≤ st.smsIncarnation := Nat.le_of_not_lt fun h => hno ⟨hact, .inl h⟩
    rcases Nat.lt_or_eq_of_le hn with h | h
    · exact .inl h
    · refine .inr ⟨h, ?_⟩
      have ha : st.smsStatus ≠ .alive := fun ha => hno ⟨hact, .inr ⟨ha, h.ge⟩⟩
      cases hs : st.smsStatus <;> simp_all [SwimMemberStatus.rank]
  · rw [hr]
    obtain ⟨-, st', hst', hkey, -⟩ := view_setMemberState hl hv
      { st with smsIncarnation := nr, smsStatus := .suspect }
    refine ⟨st', hst', hkey.trans (writeKey_eq_max ?_)⟩
    rintro ⟨rfl, hlt⟩
    rcases hyes.2 with hn | ⟨ha, -⟩
    · exact lt_irrefl _ hn
    · simp [ha, SwimMemberStatus.rank] at hlt

end Calls

/-! ### A whole message -/

/-- The keys of the view; `(0, 0)` for an id that is no member. -/
def swimKeys {σ : Type*} (view : σ → ℕ → Option SwimMemberState) (s : σ) (id : ℕ) : ℕ ×ₗ ℕ :=
  ((view s id).map SwimMemberState.key).getD (toLex (0, 0))

/-- An update of a message as `swim_updates_parse` applies it to a member other than this
engine: `INACTIVE` news is ignored, and a suspicion is a death without a suspicion timeout. -/
def swimUpdateKey (g : SwimGlobals) (selfId : ℕ) (upd : SwimMemberUpdate) :
    Option (ℕ × ℕ ×ₗ ℕ) :=
  if upd.smuState.smsStatus = .inactive ∨ upd.smuId = selfId then none
  else
    some (upd.smuId, toLex (upd.smuState.smsIncarnation,
      if upd.smuState.smsStatus = .suspect ∧ g.swimSuspectTimeout = 0 then
        SwimMemberStatus.dead.rank
      else upd.smuState.smsStatus.rank))

theorem swimUpdateKey_active {g : SwimGlobals} {selfId : ℕ} {upd : SwimMemberUpdate} {k : ℕ}
    {x : ℕ ×ₗ ℕ} (hu : swimUpdateKey g selfId upd = some (k, x)) : 1 ≤ (ofLex x).2 := by
  unfold swimUpdateKey at hu
  by_cases hdrop : upd.smuState.smsStatus = .inactive ∨ upd.smuId = selfId
  · rw [if_pos hdrop] at hu
    cases hu
  rw [if_neg hdrop, Option.some.injEq, Prod.mk.injEq] at hu
  rw [← hu.2, ofLex_toLex]
  split_ifs
  · show 1 ≤ SwimMemberStatus.dead.rank
    decide
  · exact SwimMemberStatus.one_le_rank fun h => hdrop (.inl h)

/-- A member stays active under a join with an update of an active status. -/
theorem active_of_key_eq_max {st st' : SwimMemberState} {x : ℕ ×ₗ ℕ}
    (h : st'.key = max st.key x) (hx : 1 ≤ (ofLex x).2) (hact : st.smsStatus ≠ .inactive) :
    st'.smsStatus ≠ .inactive := by
  intro hi
  have hr : (ofLex st'.key).2 = 0 := by simp [SwimMemberState.key, hi, SwimMemberStatus.rank]
  rcases max_choice st.key x with hm | hm <;> rw [← h] at hm <;> rw [hm] at hr
  · exact absurd hr (Nat.one_le_iff_ne_zero.1 (SwimMemberStatus.one_le_rank hact))
  · omega

section Parse

variable {σ : Type*} {ops : SwimOps σ} {view : σ → ℕ → Option SwimMemberState}
  (hl : SwimOpsLawful ops view) (g : SwimGlobals)

theorem swimMemberAlive_self (ctx : SwimContext) (s : σ) (fromId id nr : ℕ) :
    (swimMemberAlive ops ctx s fromId id nr).1.scSelf = ctx.scSelf := by
  unfold swimMemberAlive swimUpdatesNotify
  split <;> (try split_ifs) <;> rfl

theorem swimMemberDead_self (ctx : SwimContext) (s : σ) (fromId id nr : ℕ) :
    (swimMemberDead ops ctx s fromId id nr).1.scSelf = ctx.scSelf := by
  unfold swimMemberDead swimUpdatesNotify
  split <;> (try split_ifs) <;> rfl

theorem swimMemberSuspect_self (now : ℕ) (ctx : SwimContext) (s : σ) (fromId id nr : ℕ) :
    (swimMemberSuspect ops g now ctx s fromId id nr).1.scSelf = ctx.scSelf := by
  unfold swimMemberSuspect
  split_ifs
  · exact swimMemberDead_self ctx s fromId id nr
  · unfold swimUpdatesNotify
    split <;> (try split_ifs) <;> rfl

theorem swimSelfRefute_self (ctx : SwimContext) (s : σ) (nr : ℕ) :
    (swimSelfRefute ops ctx s nr).2.1.scSelf = ctx.scSelf := by
  unfold swimSelfRefute swimUpdatesNotify
  split <;> (try split_ifs) <;> rfl

theorem swimUpdatesParseOne_self (now fromId : ℕ) (ctx : SwimContext) (s : σ)
    (upd : SwimMemberUpdate) : (swimUpdatesParseOne ops g now fromId ctx s upd).2.1.scSelf =
      ctx.scSelf := by
  unfold swimUpdatesParseOne
  split <;> (try split_ifs)
  all_goals first
    | rfl
    | exact swimSelfRefute_self ctx s _
    | exact swimMemberAlive_self ctx s fromId _ _
    | exact swimMemberSuspect_self g now ctx s fromId _ _
    | exact swimMemberDead_self ctx s fromId _ _

include hl

/-- The self case writes this engine only. -/
theorem swimSelfRefute_other (ctx : SwimContext) (s : σ) (nr : ℕ) :
    ∀ j ≠ ctx.scSelf, view (swimSelfRefute ops ctx s nr).2.2 j = view s j := by
  intro j hj
  unfold swimSelfRefute
  split
  · rfl
  · split_ifs
    · rfl
    · show view (ops.setMemberState (ops.newIncarnation s ctx.scSelf _).1 ctx.scSelf _).2 j =
        view s j
      rw [view_setMemberState_of_ne hl _ _ _ j hj, (hl.newIncarnation _ _ _).1]

/-- An update that `swimUpdateKey` drops changes no member other than this engine. -/
theorem swimUpdatesParseOne_of_none (now fromId : ℕ) (ctx : SwimContext) (s : σ)
    {upd : SwimMemberUpdate} (hu : swimUpdateKey g ctx.scSelf upd = none) :
    ∀ j ≠ ctx.scSelf, view (swimUpdatesParseOne ops g now fromId ctx s upd).2.2 j = view s j := by
  intro j hj
  unfold swimUpdateKey at hu
  have hdrop : upd.smuState.smsStatus = .inactive ∨ upd.smuId = ctx.scSelf := by
    by_contra h
    rw [if_neg h] at hu
    cases hu
  unfold swimUpdatesParseOne
  rcases hdrop with hi | hself
  · rw [hi]
  · split
    · rfl
    · rw [if_pos hself]
    · rw [if_pos hself]
      exact swimSelfRefute_other hl ctx s _ j hj
    · rw [if_pos hself]
      exact swimSelfRefute_other hl ctx s _ j hj

/-- An update that `swimUpdateKey` keeps as `(k, x)` changes member `k` only, and leaves an active
`k` active at the join of its key and `x`. -/
theorem swimUpdatesParseOne_of_some (now fromId : ℕ) (ctx : SwimContext) (s : σ)
    {upd : SwimMemberUpdate} {k : ℕ} {x : ℕ ×ₗ ℕ} (hu : swimUpdateKey g ctx.scSelf upd = some (k, x)) :
    (∀ j ≠ k, view (swimUpdatesParseOne ops g now fromId ctx s upd).2.2 j = view s j) ∧
      ∀ st, view s k = some st → st.smsStatus ≠ .inactive →
        ∃ st', view (swimUpdatesParseOne ops g now fromId ctx s upd).2.2 k = some st' ∧
          st'.key = max st.key x := by
  unfold swimUpdateKey at hu
  by_cases hdrop : upd.smuState.smsStatus = .inactive ∨ upd.smuId = ctx.scSelf
  · rw [if_pos hdrop] at hu
    cases hu
  rw [if_neg hdrop, Option.some.injEq, Prod.mk.injEq] at hu
  obtain ⟨rfl, rfl⟩ := hu
  push Not at hdrop
  obtain ⟨hi, hself⟩ := hdrop
  unfold swimUpdatesParseOne
  cases hs : upd.smuState.smsStatus with
  | inactive => exact absurd hs hi
  | alive =>
    simp only [if_neg hself]
    refine ⟨swimMemberAlive_other hl ctx fromId _, fun st hv hact => ?_⟩
    simpa using swimMemberAlive_key hl ctx fromId upd.smuState.smsIncarnation hv
  | suspect =>
    simp only [if_neg hself]
    refine ⟨swimMemberSuspect_other hl ctx fromId _ g now, fun st hv hact => ?_⟩
    by_cases hT : g.swimSuspectTimeout = 0
    · -- without a suspicion timeout the suspicion is a death
      rw [swimMemberSuspect_of_zero ctx fromId _ g hT]
      simpa [hT] using swimMemberDead_key hl ctx fromId upd.smuState.smsIncarnation hv (.inl hact)
    · simpa [hT] using swimMemberSuspect_key hl ctx fromId upd.smuState.smsIncarnation g hT now hv
        hact
  | dead =>
    simp only [if_neg hself]
    refine ⟨swimMemberDead_other hl ctx fromId _, fun st hv hact => ?_⟩
    simpa using swimMemberDead_key hl ctx fromId upd.smuState.smsIncarnation hv (.inl hact)

/-- A message parsed without failure leaves every active member other than this engine active, at
the join of its key with the message's updates about it. -/
theorem swimUpdatesParseLoop_keys (now fromId : ℕ) (upds : List SwimMemberUpdate) :
    ∀ (ctx : SwimContext) (s : σ), (swimUpdatesParseLoop ops g now fromId upds ctx s).1 = 0 →
      ∀ id ≠ ctx.scSelf, ∀ st, view s id = some st → st.smsStatus ≠ .inactive →
        ∃ st', view (swimUpdatesParseLoop ops g now fromId upds ctx s).2.2 id = some st' ∧
          st'.smsStatus ≠ .inactive ∧
          st'.key = Joins.joinAll (swimKeys view s) (upds.filterMap (swimUpdateKey g ctx.scSelf))
            id := by
  induction upds with
  | nil =>
    intro ctx s _ id _ st hv hact
    exact ⟨st, hv, hact, by simp [swimKeys, hv]⟩
  | cons upd upds ih =>
    intro ctx s h0 id hid st hv hact
    -- the loop went on past `upd`
    have hr0 : (swimUpdatesParseOne ops g now fromId ctx s upd).1 = 0 := by
      by_contra hne
      simp only [swimUpdatesParseLoop, if_pos hne] at h0
      exact hne h0
    have hloop : swimUpdatesParseLoop ops g now fromId (upd :: upds) ctx s =
        swimUpdatesParseLoop ops g now fromId upds (swimUpdatesParseOne ops g now fromId ctx s upd).2.1
          (swimUpdatesParseOne ops g now fromId ctx s upd).2.2 := by
      simp [swimUpdatesParseLoop, hr0]
    rw [hloop] at h0 ⊢
    have hself : (swimUpdatesParseOne ops g now fromId ctx s upd).2.1.scSelf = ctx.scSelf :=
      swimUpdatesParseOne_self g now fromId ctx s upd
    -- the member after `upd`, and its key as the join with `upd`
    obtain ⟨st1, hv1, hact1, hkey1⟩ : ∃ st1,
        view (swimUpdatesParseOne ops g now fromId ctx s upd).2.2 id = some st1 ∧
          st1.smsStatus ≠ .inactive ∧
          st1.key = Joins.joinAll (swimKeys view s) ((swimUpdateKey g ctx.scSelf upd).toList) id := by
      cases hu : swimUpdateKey g ctx.scSelf upd with
      | none =>
        exact ⟨st, (swimUpdatesParseOne_of_none hl g now fromId ctx s hu id hid).trans hv, hact,
          by simp [swimKeys, hv]⟩
      | some kx =>
        obtain ⟨hoth, hk⟩ := swimUpdatesParseOne_of_some hl g now fromId ctx s hu
        by_cases hik : id = kx.1
        · subst hik
          obtain ⟨st1, h1, hk1⟩ := hk st hv hact
          refine ⟨st1, h1, active_of_key_eq_max hk1 (swimUpdateKey_active hu) hact, ?_⟩
          simp [swimKeys, hv, hk1]
        · exact ⟨st, (hoth id hik).trans hv, hact, by simp [swimKeys, hv, hik]⟩
    obtain ⟨st', h', hact', hk'⟩ := ih _ _ h0 id (hself ▸ hid) st1 hv1 hact1
    refine ⟨st', h', hact', hk'.trans ?_⟩
    rw [hself]
    -- the first update joined, then the rest
    have hsplit : (upd :: upds).filterMap (swimUpdateKey g ctx.scSelf) =
        (swimUpdateKey g ctx.scSelf upd).toList ++ upds.filterMap (swimUpdateKey g ctx.scSelf) := by
      cases hu : swimUpdateKey g ctx.scSelf upd <;> simp [hu]
    rw [hsplit, Joins.joinAll_append]
    exact Joins.joinAll_congr_at (by simp [swimKeys, hv1, hkey1]) _

end Parse

end Daos.Cart

import Daos.Vos.Ilog.Aggregate
import Daos.Vos.Ilog.Wf
import Daos.Vos.Ilog.Parse

/-!
# Runs of the incarnation log

A log is made by `ilog_create` and then receives, in any order, `ilog_update`,
`ilog_persist`, `ilog_abort` and `ilog_aggregate` calls, each with whatever answers the DTX
callbacks give at that moment and, for aggregation, whatever entries object the caller
passes. `IlogReachable` is every root such a run leaves.

**The representation invariant** (`ilog_representation_invariant`): every reachable root
is well formed (`IlogRoot.Wf`: empty, one entry, or an array of `2 ≤ ia_len ≤ ia_max_len`
entries with strictly increasing epochs, each with different minor epochs), and a call that
returns an error leaves it as it was. It rests on one step lemma per call
(`ilogModify_wf`, `ilogAggregate_wf`) and the induction over the run.

**What aggregation loses.** Aggregation over `[lo, hi]` is meant to remove only the entries
that no read at or after `hi` needs. Two runs show it removing more or less than that.
`check_agg_entry` tells punches from updates by `ilog_is_punch` alone, while a read
(`vos_parse_ilog`) honours the punch half of an entry that a DTX punched and then updated at
the same epoch: such an entry after an update is removed as a redundant update, and the punch
with it (`ilogAggregate_drops_punch`). With `discard` set, `ilog_aggregate` checks only
`-DER_NONEXIST` from the fetch it begins with; any other failure leaves an entries object
holding no entry, and the call answers `0` with the whole range still in the log
(`ilogAggregate_discard_keeps_range`).
-/

namespace Daos.Vos

/-! ### Aggregation keeps the invariant -/

section Aggregate

variable {env : IlogEnv} {saved : IlogRoot} {c : IlogContext}

theorem unmarkedFrom_sublist (e : IlogEntries) (i : ℕ) (ids : List IlogId) :
    (unmarkedFrom e i ids).Sublist ids := by
  induction ids generalizing i with
  | nil => exact List.Sublist.slnil
  | cons id ids ih =>
    unfold unmarkedFrom
    split
    · exact (ih (i + 1)).cons id
    · exact (ih (i + 1)).cons_cons id

/-- `collapse_tree` keeps the invariant: it empties the root, moves the one entry left to
it, or keeps the unmarked entries of the array, at least two of them. -/
theorem collapseTree_inv (h : c.Inv saved) (hf : c.Fresh saved) {e : IlogEntries}
    {removed : ℕ} {rc : ℤ} {c' : IlogContext} (hc : collapseTree env c e removed = some (rc, c')) :
    c'.Inv saved := by
  have hb := h.txBegin
  have hbf := hf.txBegin h
  unfold collapseTree at hc
  simp only [ilogTxBegin_root] at hc
  split_ifs at hc with h0 hrc hall hone hkept
  · cases hc
    exact h
  · cases hc
    exact hb
  · have key : (resetRoot (ilogTxBegin c) none).2.Inv saved :=
      resetRoot_inv hb hbf fun x hx => nomatch hx
    rw [Option.some.inj hc] at key
    exact key
  · split at hc
    · rename_i id hid
      have hmem : id ∈ c.root.body.entries :=
        (unmarkedFrom_sublist e 0 _).subset (List.mem_of_mem_head? hid)
      have key : (resetRoot (ilogTxBegin c) (some id)).2.Inv saved :=
        resetRoot_inv hb hbf fun x hx => Option.some.inj hx ▸ h.wf.body.mem_entries hmem
      rw [Option.some.inj hc] at key
      exact key
    · cases hc
  · split at hc
    · rename_i array harray
      cases hc
      have ha : array.Wf := by
        have := h.wf.body
        rwa [harray] at this
      -- the count of kept entries is what the marks leave, and that is at least two
      have h2 : 2 ≤ (unmarkedFrom e 0 c.root.body.entries).length := by omega
      have hwf : IlogBody.Wf (.tree { array with ids := unmarkedFrom e 0 c.root.body.entries }) := by
        rw [harray] at h2 ⊢
        exact ha.sublist (unmarkedFrom_sublist e 0 _) h2
      exact hb.ptrSet (h.wf.withBody hwf) (by rw [ilogTxBegin_root])
    · cases hc
      exact hb

/-- `ilog_aggregate` on a well-formed root leaves a well-formed root, and on an error the
root it began with. -/
theorem ilogAggregate_wf {allocOk : Bool} {root root' : IlogRoot} {epr : Daos.DaosEpochRange}
    {discard inprogress : Bool} {punchedMajor punchedMinor : ℕ} {e e' : IlogEntries} {rc : ℤ}
    (hroot : root.Wf)
    (h : ilogAggregate env allocOk root epr discard inprogress punchedMajor punchedMinor e =
      some (rc, root', e')) :
    root'.Wf ∧ (rc < 0 → root' = root) ∧ root.VersionStep root' := by
  have hstart := IlogContext.Inv.start hroot
  unfold ilogAggregate at h
  by_cases hargs : epr.eprHi < punchedMajor ∨ (inprogress = true ∧ discard = false)
  · rw [if_pos hargs] at h
    cases h
  rw [if_neg hargs] at h
  rcases hf : ilogFetch env allocOk root daosIntentPurge false e with ⟨rcf, ef⟩
  rw [hf] at h
  dsimp only at h
  split_ifs at h with hne hempty
  · cases h
    exact ⟨hroot, fun _ => rfl, Or.inl rfl⟩
  · split at h
    · cases h
    · -- an uncommitted entry aborts the aggregation before any write
      rcases ht : ilogTxEnd root (IlogContext.start root) (-derTxBusy) with ⟨rc₂, c₂⟩
      have hwf := ilogTxEnd_wf hstart hroot (-derTxBusy)
      have hmag := ilogTxEnd_magic hstart (-derTxBusy)
      rw [ht] at h hwf hmag
      cases h
      refine ⟨hwf, fun hlt => ?_, hmag⟩
      have herr : (ilogTxEnd root (IlogContext.start root) (-derTxBusy)).1 ≠ 0 →
          (ilogTxEnd root (IlogContext.start root) (-derTxBusy)).2.root = root :=
        ilogTxEnd_error hstart
      rw [ht] at herr
      exact herr (by omega)
    · split at h
      · cases h
      · rename_i rcc c hcol
        have hinv := collapseTree_inv hstart IlogContext.Fresh.start hcol
        rcases ht : ilogTxEnd root c rcc with ⟨rc₂, c₂⟩
        have hwf := ilogTxEnd_wf hinv hroot rcc
        have herr : (ilogTxEnd root c rcc).1 ≠ 0 → (ilogTxEnd root c rcc).2.root = root :=
          ilogTxEnd_error hinv
        have hmag := ilogTxEnd_magic hinv rcc
        rw [ht] at h hwf herr hmag
        dsimp only at h
        split_ifs at h with hrc₂ hemp
        · cases h
          exact ⟨hwf, fun _ => herr hrc₂, hmag⟩
        -- a success reports `1` for a log left empty, `0` otherwise
        all_goals
          cases h
          exact ⟨hwf, fun hlt => by omega, hmag⟩

end Aggregate

/-! ### The calls of the log -/

section Calls

variable {env : IlogEnv} {root root' : IlogRoot} {rc : ℤ}

theorem ilogUpdate_wf {epr : Option Daos.DaosEpochRange} {majorEph minorEph : ℕ} {punch : Bool}
    (hroot : root.Wf) (h : ilogUpdate env root epr majorEph minorEph punch = some (rc, root')) :
    root'.Wf ∧ (rc ≠ 0 → root' = root) ∧ root.VersionStep root' := by
  unfold ilogUpdate at h
  by_cases hminor : minorEph = 0
  · rw [if_pos hminor] at h
    cases h
  · rw [if_neg hminor] at h
    -- the entry is an update or a punch at the non-zero minor epoch
    refine ilogModify_wf hroot (fun _ => ?_) h
    cases punch <;> simp only [Bool.false_eq_true, if_true, if_false] <;> omega

theorem ilogPersist_wf {id : IlogId} (hroot : root.Wf)
    (h : ilogPersist env root id = some (rc, root')) :
    root'.Wf ∧ (rc ≠ 0 → root' = root) ∧ root.VersionStep root' :=
  ilogModify_wf hroot (by intro hop; cases hop) h

theorem ilogAbort_wf {id : IlogId} (hroot : root.Wf)
    (h : ilogAbort env root id = some (rc, root')) :
    root'.Wf ∧ (rc ≠ 0 → root' = root) ∧ root.VersionStep root' :=
  ilogModify_wf hroot (by intro hop; cases hop) h

end Calls

/-- The calls a log receives after `ilog_create`. -/
inductive IlogCall
  | update (epr : Option Daos.DaosEpochRange) (majorEph minorEph : ℕ) (punch : Bool)
  | persist (id : IlogId)
  | abort (id : IlogId)
  /-- With the outcome of `D_ALLOC_ARRAY` in the fetch and the caller's entries object. -/
  | aggregate (allocOk : Bool) (epr : Daos.DaosEpochRange) (discard inprogress : Bool)
      (punchedMajor punchedMinor : ℕ) (entries : IlogEntries)

/-- One call: its return code and the root it leaves; `none` where the code asserts. -/
def ilogCall (env : IlogEnv) (root : IlogRoot) : IlogCall → Option (ℤ × IlogRoot)
  | .update epr majorEph minorEph punch => ilogUpdate env root epr majorEph minorEph punch
  | .persist id => ilogPersist env root id
  | .abort id => ilogAbort env root id
  | .aggregate allocOk epr discard inprogress punchedMajor punchedMinor entries =>
    (ilogAggregate env allocOk root epr discard inprogress punchedMajor punchedMinor
      entries).map fun (rc, root, _) => (rc, root)

/-- The roots a log made by `ilog_create` reaches. -/
inductive IlogReachable : IlogRoot → Prop
  | create : IlogReachable ilogCreate
  | call {root root' : IlogRoot} (env : IlogEnv) (call : IlogCall) {rc : ℤ} :
      IlogReachable root → ilogCall env root call = some (rc, root') → IlogReachable root'

/-- The root a run of calls leaves, each call with the callbacks' answers of its moment;
`none` where one of them asserts. -/
def ilogRun : IlogRoot → List (IlogEnv × IlogCall) → Option IlogRoot
  | root, [] => some root
  | root, (env, call) :: calls =>
    match ilogCall env root call with
    | some (_, root') => ilogRun root' calls
    | none => none

theorem ilogRun_cons {root root' : IlogRoot} {env : IlogEnv} {call : IlogCall}
    {calls : List (IlogEnv × IlogCall)} (h : ilogRun root ((env, call) :: calls) = some root') :
    ∃ rc mid, ilogCall env root call = some (rc, mid) ∧ ilogRun mid calls = some root' := by
  unfold ilogRun at h
  split at h
  · rename_i rc mid hcall
    exact ⟨rc, mid, hcall, h⟩
  · cases h

/-- Every root a run from a reachable root leaves is reachable. -/
theorem IlogReachable.run {root root' : IlogRoot} (h : IlogReachable root)
    {calls : List (IlogEnv × IlogCall)} (hrun : ilogRun root calls = some root') :
    IlogReachable root' := by
  induction calls generalizing root with
  | nil =>
    obtain rfl : root = root' := Option.some.inj hrun
    exact h
  | cons step calls ih =>
    obtain ⟨env, call⟩ := step
    obtain ⟨rc, mid, hcall, hmid⟩ := ilogRun_cons hrun
    exact ih (.call env call h hcall) hmid

theorem ilogCreate_wf : ilogCreate.Wf := by
  decide

/-- The step lemma: every call keeps the invariant, an error leaves the root as it was, and
a root that changes has its magic word bumped once or twice. -/
theorem ilogCall_wf {env : IlogEnv} {root root' : IlogRoot} {rc : ℤ} (hroot : root.Wf)
    (call : IlogCall) (h : ilogCall env root call = some (rc, root')) :
    root'.Wf ∧ (rc < 0 → root' = root) ∧ root.VersionStep root' := by
  cases call with
  | update epr majorEph minorEph punch =>
    obtain ⟨hwf, herr, hstep⟩ := ilogUpdate_wf hroot h
    exact ⟨hwf, fun hlt => herr (by omega), hstep⟩
  | persist id =>
    obtain ⟨hwf, herr, hstep⟩ := ilogPersist_wf hroot h
    exact ⟨hwf, fun hlt => herr (by omega), hstep⟩
  | abort id =>
    obtain ⟨hwf, herr, hstep⟩ := ilogAbort_wf hroot h
    exact ⟨hwf, fun hlt => herr (by omega), hstep⟩
  | aggregate allocOk epr discard inprogress punchedMajor punchedMinor entries =>
    obtain ⟨⟨rc', root'', e'⟩, hagg, heq⟩ := Option.map_eq_some_iff.mp h
    cases heq
    exact ilogAggregate_wf hroot hagg

/-- The run lemma: every reachable root is well formed. -/
theorem IlogReachable.wf {root : IlogRoot} (h : IlogReachable root) : root.Wf := by
  induction h with
  | create => exact ilogCreate_wf
  | call env call _ hcall ih => exact (ilogCall_wf ih call hcall).1

/-- The representation invariant of the incarnation log over every run from
`ilog_create`. -/
theorem ilog_representation_invariant {root : IlogRoot} (h : IlogReachable root) :
    root.Wf ∧ ∀ (env : IlogEnv) (call : IlogCall) (rc : ℤ) (root' : IlogRoot),
      ilogCall env root call = some (rc, root') → rc < 0 → root' = root :=
  ⟨h.wf, fun _ call _ _ hcall => (ilogCall_wf h.wf call hcall).2.1⟩

/-- The invariant after the first update of a new log: its entry is embedded in the root. -/
theorem ilog_representation_invariant_first_update :
    IlogReachable ⟨.embedded ⟨0, 0, 1, 10⟩, 54⟩ ∧
      ((⟨.embedded ⟨0, 0, 1, 10⟩, 54⟩ : IlogRoot).Wf ∧
        ∀ (env : IlogEnv) (call : IlogCall) (rc : ℤ) (root' : IlogRoot),
          ilogCall env ⟨.embedded ⟨0, 0, 1, 10⟩, 54⟩ call = some (rc, root') → rc < 0 →
            root' = ⟨.embedded ⟨0, 0, 1, 10⟩, 54⟩) :=
  have hr : IlogReachable ⟨.embedded ⟨0, 0, 1, 10⟩, 54⟩ :=
    .call ⟨ilogNoCbs, fun _ => true, false, true⟩ (.update none 10 1 false) .create
      (rfl : ilogCall ⟨ilogNoCbs, fun _ => true, false, true⟩ ilogCreate
        (.update none 10 1 false) = some (0, ⟨.embedded ⟨0, 0, 1, 10⟩, 54⟩))
  ⟨hr, ilog_representation_invariant hr⟩

/-! ### What aggregation loses -/

/-- A punch lost by aggregation. An update at `10` and, at `20`, a punch followed by an
update of the same DTX make a log of two committed entries, the second an update by
`ilog_is_punch`. Aggregating `[0, 20]` removes it as an update after an update, and a read
at `20` then finds the entity created at `10` with no punch before it, where it found it
created at `20` after a punch at `20`. -/
theorem ilogAggregate_drops_punch :
    let env : IlogEnv := ⟨ilogNoCbs, fun _ => true, false, true⟩
    let root : IlogRoot := ⟨.tree ⟨[⟨0, 0, 1, 10⟩, ⟨0, 1, 2, 20⟩], 3⟩, 86⟩
    let aggregated : IlogRoot := ⟨.embedded ⟨0, 0, 1, 10⟩, 102⟩
    let read := fun r : IlogRoot =>
      (vosIlogFetch env true r daosIntentDefault 20 20 false (some ⟨0, 0⟩) none vosIlogInfoInit
        ilogFetchInit).map fun (rc, info, _) => (rc, info.create, info.priorPunch)
    ilogRun ilogCreate [(env, .update none 10 1 false), (env, .update none 20 1 true),
        (env, .update none 20 2 false)] = some root ∧
      ilogCall env root (.aggregate true ⟨0, 20⟩ false false 0 0 ilogFetchInit) =
        some (0, aggregated) ∧
      read root = some (0, 20, ⟨20, 1⟩) ∧ read aggregated = some (0, 10, ⟨0, 0⟩) :=
  ⟨rfl, rfl, rfl, rfl⟩

/-- What a discard of `epr` is meant to leave of an entry whose DTX has status `status`: an
entry outside the range and, when only aborted or in-progress entries go, a committed one. -/
def discardKeeps (epr : Daos.DaosEpochRange) (inprogress : Bool) (status : ℤ) (id : IlogId) : Bool :=
  decide (id.epoch < epr.eprLo) || decide (epr.eprHi < id.epoch) ||
    (inprogress && decide (status = ilogCommitted))

/-- A discard that keeps its whole range. Nine alternating updates and punches at the
epochs `10` to `90` make a log of nine entries, all in `[0, 100]`, which a discard of
`[0, 100]` is meant to empty, as it does when the fetch can allocate its status array. When
it cannot, the fetch fails with `-DER_NOMEM`, which `ilog_aggregate` does not check: the call
answers `0` and the log keeps all nine entries. -/
theorem ilogAggregate_discard_keeps_range :
    let env : IlogEnv := ⟨ilogNoCbs, fun _ => true, false, true⟩
    let calls := (List.range' 1 9).map fun k => (env, IlogCall.update none (10 * k) 1 (k % 2 == 0))
    let root : IlogRoot := ⟨.tree ⟨[⟨0, 0, 1, 10⟩, ⟨0, 1, 0, 20⟩, ⟨0, 0, 1, 30⟩, ⟨0, 1, 0, 40⟩,
      ⟨0, 0, 1, 50⟩, ⟨0, 1, 0, 60⟩, ⟨0, 0, 1, 70⟩, ⟨0, 1, 0, 80⟩, ⟨0, 0, 1, 90⟩], 15⟩, 182⟩
    ilogRun ilogCreate calls = some root ∧
      root.body.entries.filter (discardKeeps ⟨0, 100⟩ false ilogCommitted) = [] ∧
      ilogCall env root (.aggregate false ⟨0, 100⟩ true false 0 0 ilogFetchInit) = some (0, root) ∧
      ilogCall env root (.aggregate true ⟨0, 100⟩ true false 0 0 ilogFetchInit) =
        some (1, ⟨.empty, 198⟩) :=
  ⟨rfl, rfl, rfl, rfl⟩

end Daos.Vos

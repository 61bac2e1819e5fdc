import Daos.Vos.Evt.Remove

/-!
# Data-loss detection of an extent-tree search — `evt_data_loss_check` (`vos/evtree.c`)

An `EVT_FIND_ALL` search of `evt_ent_array_fill` collects the records whose transaction is
lost (`evt_desc_log_status` returns `-DER_DATA_LOSS`) on a list, `evt_data_loss_add` putting each
at the head, and fills the entry array with the others. `evt_data_loss_check` walks such a list
and trims each lost rectangle against every entry of an epoch at least its own, cutting off the
part the entry holds or splitting the rectangle in two around it, the high part going at the
head of the list where the walk takes it next. A rectangle the loop finds covered is dropped;
any other makes the check return `-DER_DATA_LOSS`.

**What is proved.** The check never misses lost data: when it returns 0, every offset of every
lost rectangle lies in the full extent of an entry at least as new (`evtDataLossCheck_sound`).
The converse fails: a rectangle is dropped only by the test "edli is totally covered by entry",
which compares its end with the entry's *start*, so a rectangle strictly inside a newer entry
falls through every branch and is reported lost (`evtDataLossCheck_inside_reported`). The search
never shows this, because it never runs the check on a rectangle: only `EVT_FIND_ALL` collects
one (`EVT_FIND_FIRST` leaves on every negative status first), and an `EVT_FIND_ALL` search leaves
for `out:`, where the check is, only with an error; otherwise it returns at the root
(`evtFillLoop_out_zero`).

**What is modelled, and how.** The list is the list of rectangles from `head->next` on; the
item being checked is always its first, since `d_list_for_each_entry_safe` resumes at the saved
next item, which is either the first item a split put at the head or the item after the one
just removed. The entries are those of the array, in array order. `D_ALLOC_PTR` in
`evt_data_loss_add` always succeeds, so `-DER_NOMEM` is not returned; the walk is given a bound
on the items it takes (`none` when it runs out). Offsets are `daos_off_t`, with the wrap of
`+ 1` and `- 1` written as `% 2^64`. The search is modelled over the leaf records in tree order,
as in `evt_remove_all`, with the log status callback's answer for each record given: the nodes
above the leaves only prune, except that `EVT_FIND_OVERWRITE` also runs `agg_check` on a
filtered node's bounding rectangle, which the model does for the filtered leaves only.
-/

namespace Daos.Vos

/-- `DER_DATA_LOSS`. -/
def derDataLoss : ℤ := 2026

/-- `x + 1` on a `daos_off_t`. -/
def offSucc (x : ℕ) : ℕ := (x + 1) % 2 ^ 64

/-- `x - 1` on a `daos_off_t`. -/
def offPred (x : ℕ) : ℕ := (x + (2 ^ 64 - 1)) % 2 ^ 64

/-- The rectangle with its extent starting at `lo`. -/
def EvtRect.withLo (r : EvtRect) (lo : ℕ) : EvtRect := { r with ex := ⟨lo, r.ex.hi⟩ }

/-- The rectangle with its extent ending at `hi`. -/
def EvtRect.withHi (r : EvtRect) (hi : ℕ) : EvtRect := { r with ex := ⟨r.ex.lo, hi⟩ }

/-- `evt_data_loss_add`: the rectangle at the head of the list. -/
def evtDataLossAdd (head : List EvtRect) (rect : EvtRect) : List EvtRect := rect :: head

/-- What the body of the entry loop of `evt_data_loss_check` does with one entry: go on with
the item, cut or not; go on with its low part after putting its high part on the list; or find
it covered and stop. -/
inductive LossStep
  | keep (edli : EvtRect)
  | split (edli piece : EvtRect)
  | covered
deriving DecidableEq, Repr

/-- The body of the entry loop of `evt_data_loss_check` for the item `edli` and one entry. -/
def evtDataLossStep (edli : EvtRect) (entry : EvtEntry) : LossStep :=
  -- edli is newer
  if edli.epc > entry.epoch then .keep edli
  -- non-overlap
  else if edli.ex.lo > entry.ext.hi ∨ edli.ex.hi < entry.ext.lo then .keep edli
  -- edli is totally covered by entry
  else if edli.ex.lo ≥ entry.ext.lo ∧ edli.ex.hi ≤ entry.ext.lo then .covered
  -- edli totally covers entry
  else if edli.ex.lo ≤ entry.ext.lo ∧ edli.ex.hi ≥ entry.ext.lo then
    -- cut low part
    if edli.ex.lo = entry.ext.lo then .keep (edli.withLo (offSucc entry.ext.hi))
    -- cut high part
    else if edli.ex.hi = entry.ext.hi then .keep (edli.withHi (offPred entry.ext.lo))
    -- split edli
    else .split (edli.withHi (offPred entry.ext.lo)) (edli.withLo (offSucc entry.ext.hi))
  -- edli low part overlap with entry
  else if edli.ex.lo ≤ entry.ext.hi ∧ edli.ex.hi > entry.ext.hi then
    .keep (edli.withLo (offSucc entry.ext.hi))
  -- edli high part overlap with entry
  else if edli.ex.hi ≥ entry.ext.lo ∧ edli.ex.lo < entry.ext.lo then
    .keep (edli.withHi (offPred entry.ext.lo))
  else .keep edli

/-- The entry loop of `evt_data_loss_check` for one item: whether the item is still visible
when it ends, and the list with the pieces the splits put at its head. -/
def evtDataLossScan (head : List EvtRect) : EvtRect → List EvtEntry → Bool × List EvtRect
  | _, [] => (true, head)
  | edli, entry :: ents =>
    match evtDataLossStep edli entry with
    | .keep edli => evtDataLossScan head edli ents
    | .split edli piece => evtDataLossScan (evtDataLossAdd head piece) edli ents
    | .covered => (false, head)

/-- `evt_data_loss_check` over the list from its first item, taking at most `fuel` items. -/
def evtDataLossCheck : ℕ → List EvtRect → EvtEntryArray → Option ℤ
  | _, [], _ => some 0
  | 0, _ :: _, _ => none
  | fuel + 1, edli :: head, entArray =>
    match evtDataLossScan head edli (entArray.ents.map (·.ent)) with
    | (true, _) => some (-derDataLoss)
    | (false, head) => evtDataLossCheck fuel head entArray

/-! ## What the check is for -/

/-- Offset `x` lies in the extent of the rectangle. -/
def EvtRect.HasOff (r : EvtRect) (x : ℕ) : Prop := r.ex.lo ≤ x ∧ x ≤ r.ex.hi

/-- Some entry of an epoch at least `epc` holds offset `x` in its full extent. -/
def EntryCovers (ents : List EvtEntry) (epc x : ℕ) : Prop :=
  ∃ e ∈ ents, epc ≤ e.epoch ∧ e.ext.lo ≤ x ∧ x ≤ e.ext.hi

/-- Some offset of some lost rectangle is held by no entry at least as new. -/
def DataLost (rects : List EvtRect) (ents : List EvtEntry) : Prop :=
  ∃ r ∈ rects, ∃ x, r.HasOff x ∧ ¬EntryCovers ents r.epc x

instance (ents : List EvtEntry) (epc x : ℕ) : Decidable (EntryCovers ents epc x) :=
  inferInstanceAs (Decidable (∃ e ∈ ents, _))

instance (rects : List EvtRect) (ents : List EvtEntry) : Decidable (DataLost rects ents) :=
  decidable_of_iff
    (∃ r ∈ rects, ∃ x ∈ List.range' r.ex.lo (r.ex.hi + (1 : ℕ) - r.ex.lo),
      ¬EntryCovers ents r.epc x) (by
    simp only [DataLost, EvtRect.HasOff, List.mem_range']
    constructor
    · rintro ⟨r, hr, x, ⟨i, hi, rfl⟩, hx⟩
      exact ⟨r, hr, r.ex.lo + 1 * i, ⟨by omega, by omega⟩, hx⟩
    · rintro ⟨r, hr, x, ⟨hlo, hhi⟩, hx⟩
      exact ⟨r, hr, x, ⟨x - r.ex.lo, by omega, by omega⟩, hx⟩)

/-- An offset the item still holds after an entry, in what the loop goes on with: the item, or
its low part or the piece split off; everything the step goes on with keeps the item's epoch.
A step that finds the item covered holds no such offset. -/
def LossStep.Keeps (epc x : ℕ) : LossStep → Prop
  | .keep r => r.epc = epc ∧ r.HasOff x
  | .split r p => r.epc = epc ∧ p.epc = epc ∧ (r.HasOff x ∨ p.HasOff x)
  | .covered => False

/-! ## One entry -/

section Step

variable {r edli : EvtRect} {entry : EvtEntry} {lo hi x : ℕ}

-- Proved by cases, not by `rfl`, so that `simp` rewrites with them instead of leaving the
-- kernel a definitional check that unfolds the wrapped offset `offPred` through `Nat.add`.
@[simp] theorem EvtRect.withLo_epc : (r.withLo lo).epc = r.epc := by cases r; rfl
@[simp] theorem EvtRect.withLo_lo : (r.withLo lo).ex.lo = lo := by cases r; rfl
@[simp] theorem EvtRect.withLo_hi : (r.withLo lo).ex.hi = r.ex.hi := by cases r; rfl
@[simp] theorem EvtRect.withHi_epc : (r.withHi hi).epc = r.epc := by cases r; rfl
@[simp] theorem EvtRect.withHi_lo : (r.withHi hi).ex.lo = r.ex.lo := by cases r; rfl
@[simp] theorem EvtRect.withHi_hi : (r.withHi hi).ex.hi = hi := by cases r; rfl

/-- Below `2^64` the successor wraps only from `UINT64_MAX`, to 0: never past `x + 1`. -/
theorem offSucc_le (h : x < 2 ^ 64) : offSucc x ≤ x + 1 := by
  unfold offSucc
  omega

/-- The predecessor of a positive offset does not wrap. -/
theorem offPred_of_pos (h0 : 0 < x) (h : x < 2 ^ 64) : offPred x = x - 1 := by
  unfold offPred
  omega

/-- An offset of the item that a well-formed entry does not hold at a newer epoch survives the
entry: the cuts and the split take off only offsets of the entry, and a wrap of `ex_hi + 1` only
makes the part left larger. -/
theorem evtDataLossStep_keeps (hwf : entry.ext.lo ≤ entry.ext.hi)
    (htop : entry.ext.hi < 2 ^ 64) (hx : edli.HasOff x)
    (hunc : ¬(edli.epc ≤ entry.epoch ∧ entry.ext.lo ≤ x ∧ x ≤ entry.ext.hi)) :
    (evtDataLossStep edli entry).Keeps edli.epc x := by
  have hsucc := offSucc_le htop
  have hpred : entry.ext.lo = 0 ∨ offPred entry.ext.lo = entry.ext.lo - 1 := by
    rcases Nat.eq_zero_or_pos entry.ext.lo with h0 | h0
    · exact .inl h0
    · exact .inr (offPred_of_pos h0 (by omega))
  unfold EvtRect.HasOff at hx
  unfold evtDataLossStep
  split_ifs <;> simp only [LossStep.Keeps, EvtRect.HasOff, EvtRect.withLo_epc,
    EvtRect.withLo_lo, EvtRect.withLo_hi, EvtRect.withHi_epc, EvtRect.withHi_lo,
    EvtRect.withHi_hi, true_and] <;> omega

end Step

/-! ## The walk -/

section Walk

variable {ents : List EvtEntry} {head head' rects : List EvtRect} {edli : EvtRect}

/-- The entries are well formed `daos_off_t` extents. -/
def ExtentsWf (ents : List EvtEntry) : Prop :=
  ∀ e ∈ ents, e.ext.lo ≤ e.ext.hi ∧ e.ext.hi < 2 ^ 64

/-- An item the entry loop drops leaves every offset no entry covers in a piece on the list,
at the item's epoch; the list keeps what it held. Induction on the entries, one case per step. -/
theorem evtDataLossScan_keeps (hwf : ExtentsWf ents)
    (h : evtDataLossScan head edli ents = (false, head')) :
    (∀ q ∈ head, q ∈ head') ∧ ∀ x, edli.HasOff x → ¬EntryCovers ents edli.epc x →
      ∃ p ∈ head', p.epc = edli.epc ∧ p.HasOff x := by
  induction ents generalizing edli head with
  | nil => simp [evtDataLossScan] at h
  | cons entry ents ih =>
    have hwf' : ExtentsWf ents := fun e he => hwf e (List.mem_cons_of_mem _ he)
    have hstep : ∀ x, edli.HasOff x → ¬EntryCovers (entry :: ents) edli.epc x →
        (evtDataLossStep edli entry).Keeps edli.epc x ∧ ¬EntryCovers ents edli.epc x := by
      intro x hx hunc
      refine ⟨evtDataLossStep_keeps (hwf entry List.mem_cons_self).1
        (hwf entry List.mem_cons_self).2 hx fun hc => hunc ⟨entry, List.mem_cons_self, hc⟩,
        fun ⟨e, he, hc⟩ => hunc ⟨e, List.mem_cons_of_mem _ he, hc⟩⟩
    simp only [evtDataLossScan] at h
    split at h
    next r hkeep =>
      obtain ⟨hhead, hpieces⟩ := ih hwf' h
      refine ⟨hhead, fun x hx hunc => ?_⟩
      obtain ⟨hkeeps, hunc'⟩ := hstep x hx hunc
      rw [hkeep] at hkeeps
      obtain ⟨hepc, hrx⟩ := hkeeps
      rw [← hepc]
      exact hpieces x hrx (hepc ▸ hunc')
    next r piece hsplit =>
      obtain ⟨hhead, hpieces⟩ := ih hwf' h
      refine ⟨fun q hq => hhead q (List.mem_cons_of_mem _ hq), fun x hx hunc => ?_⟩
      obtain ⟨hkeeps, hunc'⟩ := hstep x hx hunc
      rw [hsplit] at hkeeps
      obtain ⟨hepc, hpepc, hrx | hpx⟩ := hkeeps
      · rw [← hepc]
        exact hpieces x hrx (hepc ▸ hunc')
      · -- the offset went with the piece, which the list now holds
        exact ⟨piece, hhead piece List.mem_cons_self, hpepc, hpx⟩
    next hcov =>
      cases h
      refine ⟨fun q hq => hq, fun x hx hunc => ?_⟩
      have hkeeps := (hstep x hx hunc).1
      rw [hcov] at hkeeps
      exact hkeeps.elim

/-- The check never misses lost data: when it returns 0, every offset of every lost rectangle
is held by an entry of the array at least as new. Induction on the walk: a dropped item hands
its uncovered offsets to pieces that the rest of the walk checks. -/
theorem evtDataLossCheck_sound {entArray : EvtEntryArray} {fuel : ℕ}
    (hwf : ExtentsWf (entArray.ents.map (·.ent)))
    (h : evtDataLossCheck fuel rects entArray = some 0) :
    ¬DataLost rects (entArray.ents.map (·.ent)) := by
  induction fuel generalizing rects with
  | zero =>
    cases rects with
    | nil => simp [DataLost]
    | cons edli head => simp [evtDataLossCheck] at h
  | succ fuel ih =>
    cases rects with
    | nil => simp [DataLost]
    | cons edli head =>
      simp only [evtDataLossCheck] at h
      split at h
      next => simp [derDataLoss] at h
      next head' hscan =>
        have hrest := ih h
        obtain ⟨hhead, hpieces⟩ := evtDataLossScan_keeps hwf hscan
        rintro ⟨r, hr, x, hx, hunc⟩
        rcases List.mem_cons.mp hr with rfl | hr
        · obtain ⟨p, hp, hepc, hpx⟩ := hpieces x hx hunc
          exact hrest ⟨p, hp, x, hpx, hepc ▸ hunc⟩
        · exact hrest ⟨r, hhead r hr, x, hx, hunc⟩

/-! ## Where the check reports what is covered -/

/-- A rectangle that starts strictly after an entry's start and ends within it falls through
every branch of the loop body: the test "edli is totally covered by entry" compares its end
with the entry's start. -/
theorem evtDataLossStep_inside {entry : EvtEntry} (hr : edli.ex.lo ≤ edli.ex.hi)
    (hlo : entry.ext.lo < edli.ex.lo) (hhi : edli.ex.hi ≤ entry.ext.hi) :
    evtDataLossStep edli entry = .keep edli := by
  unfold evtDataLossStep
  split_ifs <;> first | omega | rfl

/-- An item that every entry leaves alone (older entries, disjoint ones, and ones holding it
from a start strictly before its own) is reported lost, whether or not those entries cover it. -/
theorem evtDataLossCheck_inside_reported {entArray : EvtEntryArray} {fuel : ℕ}
    (hr : edli.ex.lo ≤ edli.ex.hi)
    (hents : ∀ e ∈ entArray.ents.map (·.ent), edli.epc > e.epoch ∨ edli.ex.lo > e.ext.hi ∨
      edli.ex.hi < e.ext.lo ∨ (e.ext.lo < edli.ex.lo ∧ edli.ex.hi ≤ e.ext.hi)) :
    evtDataLossCheck (fuel + 1) (edli :: head) entArray = some (-derDataLoss) := by
  -- the entry loop keeps the item as it is and ends with it visible
  have hscan : ∀ ents : List EvtEntry, (∀ e ∈ ents, edli.epc > e.epoch ∨
      edli.ex.lo > e.ext.hi ∨ edli.ex.hi < e.ext.lo ∨
      (e.ext.lo < edli.ex.lo ∧ edli.ex.hi ≤ e.ext.hi)) →
      evtDataLossScan head edli ents = (true, head) := by
    intro ents hall
    induction ents with
    | nil => rfl
    | cons e ents ih =>
      have hkeep : evtDataLossStep edli e = .keep edli := by
        rcases hall e List.mem_cons_self with hnew | hdisj | hdisj | ⟨hlo, hhi⟩
        · simp [evtDataLossStep, hnew]
        · simp [evtDataLossStep, hdisj]
        · simp [evtDataLossStep, hdisj]
        · exact evtDataLossStep_inside hr hlo hhi
      simp only [evtDataLossScan, hkeep]
      exact ih fun e' he' => hall e' (List.mem_cons_of_mem _ he')
  simp only [evtDataLossCheck, hscan _ hents]

end Walk

/-! ## The search that collects the list -/

/-- `DER_VOS_PARTIAL_UPDATE`. -/
def derVosPartialUpdate : ℤ := 2045

/-- `ALB_UNAVAILABLE`: the log status of a record the caller cannot see. -/
def albUnavailable : ℤ := 0

/-- `DAOS_EC_PARITY_BIT`. -/
def daosEcParityBit : ℕ := 2 ^ 63

/-- `enum evt_find_opc`. -/
inductive EvtFindOpc
  | all
  | first
  | overwrite
  | same
deriving DecidableEq, Repr

/-- `agg_check`: the inserted extent overlaps or touches the one in the tree, or one of the two
is parity and the other is not. -/
def aggCheck (inserted intree : EvtExtent) : Bool :=
  (decide (intree.lo ≤ offSucc inserted.hi) && decide (inserted.lo ≤ offSucc intree.hi)) ||
    decide (inserted.hi &&& daosEcParityBit ≠ intree.hi &&& daosEcParityBit)

/-- What the early check of `evt_ent_array_fill` does with a record that overlaps the search:
skip it, put it on the data-loss list, leave for `out:` with a code, assert, fill it in over the
first entry (`replace_ent`), or fill it in a new entry. -/
inductive EvtEarly
  | skip
  | lost
  | out (rc : ℤ)
  | assert
  | replace
  | alloc
deriving DecidableEq, Repr

/-- The early check of `EVT_FIND_ALL`, where `EVT_FIND_FIRST` falls through too. -/
def evtEarlyAll (intent : ℕ) (rc : ℤ) : EvtEarly :=
  if rc = -derDataLoss then .lost
  -- stop when read hit -DER_INPROGRESS
  else if rc = -derInprogress ∧ intent = daosIntentDefault then .out rc
  else .alloc

/-- The early check of `evt_ent_array_fill` for the record `r` of time overlap `timeOverlap`
and log status `rc`; `RT_OVERLAP_SAME` of the ranges is the same extent. -/
def evtEarlyCheck (opc : EvtFindOpc) (intent : ℕ) (rect : EvtRect) (r : EvtRecord)
    (timeOverlap : RtTime) (rc : ℤ) (a : EvtEntryArray) : EvtEarly :=
  match opc with
  | .overwrite =>
    if timeOverlap ≠ .same then .skip
    -- the availability is unknown
    else if rc < 0 then .out rc
    else if rect.minorEpc = evtMinorEpcMax then .assert
    else if rect.minorEpc ≠ evtRebuildMinorMin ∧ r.rect.ex ≠ rect.ex then .out (-derVosPartialUpdate)
    else if a.ents.length = 0 then .alloc
    -- keep only the one with the highest minor epoch
    else if (a.ent 0).minorEpc > r.rect.minorEpc then .skip
    else .replace
  | .same =>
    if r.rect.ex ≠ rect.ex then .skip
    else if timeOverlap ≠ .same then .skip
    else if rc < 0 then .out rc
    else .alloc
  | .first => if rc < 0 then .out rc else evtEarlyAll intent rc
  | .all => evtEarlyAll intent rc

/-- Where the search loop of `evt_ent_array_fill` stops: back at the root with every record
visited, from where the function returns at once, or at `out:` with a code; with `has_agg`,
the entry array and the data-loss list. -/
inductive EvtFillExit
  | root (hasAgg : Bool) (a : EvtEntryArray) (loss : List EvtRect)
  | out (rc : ℤ) (hasAgg : Bool) (a : EvtEntryArray) (loss : List EvtRect)
deriving DecidableEq, Repr

/-- The search loop of `evt_ent_array_fill` over the leaf records in tree order, given the
answer `logStatus` of the log status callback for each record at the caller's intent, from
`has_agg`, the entry array and the data-loss list so far. -/
def evtFillLoop (tcx : EvtContext) (opc : EvtFindOpc) (intent : ℕ) (filter : EvtRangeFilter)
    (rect : EvtRect) (logStatus : EvtRecord → ℤ) :
    List EvtRecord → Bool → EvtEntryArray → List EvtRect → Except EvtStop EvtFillExit
  | [], hasAgg, a, loss => .ok (.root hasAgg a loss)
  | r :: rs, hasAgg, a, loss =>
    if evtFilterRect filter r.rect then
      -- doesn't match the filter
      evtFillLoop tcx opc intent filter rect logStatus rs
        (hasAgg || (opc == .overwrite && aggCheck filter.frEx r.rect.ex)) a loss
    else
      let hasAgg := hasAgg || opc == .overwrite
      -- the range overlap, and the time overlap
      let overlap := evtRectOverlap r.rect rect
      if !overlap.1 then evtFillLoop tcx opc intent filter rect logStatus rs hasAgg a loss
      else if evtEpochUncertain filter r.rect then .ok (.out (-derTxRestart) hasAgg a loss)
      else if overlap.2 = .no ∨ overlap.2 = .under then
        evtFillLoop tcx opc intent filter rect logStatus rs hasAgg a loss
      -- skip the unavailable record
      else if logStatus r = albUnavailable then
        evtFillLoop tcx opc intent filter rect logStatus rs hasAgg a loss
      else
        match evtEarlyCheck opc intent rect r overlap.2 (logStatus r) a with
        | .skip => evtFillLoop tcx opc intent filter rect logStatus rs hasAgg a loss
        | .lost => evtFillLoop tcx opc intent filter rect logStatus rs hasAgg a
            (evtDataLossAdd loss r.rect)
        | .out rc => .ok (.out rc hasAgg a loss)
        | .assert => .error .assert
        | .replace => .ok (.out 0 hasAgg (a.setEnt 0 (evtEntryFill tcx rect r)) loss)
        | .alloc =>
          match entArrayAllocFill tcx a with
          | .error e => .error e
          | .ok (rc, a) =>
            if rc ≠ 0 then .ok (.out rc hasAgg a loss)
            else
              let a := a.setEnt (a.ents.length - 1) (evtEntryFill tcx rect r)
              -- only `EVT_FIND_ALL` goes on after filling an entry
              if opc = .all then evtFillLoop tcx opc intent filter rect logStatus rs hasAgg a loss
              else .ok (.out 0 hasAgg a loss)

/-- `evt_ent_array_fill` over a tree of the leaf records `recs`: the code and the entry array.
At `out:` a successful search with a non-empty data-loss list is decided by
`evt_data_loss_check`, given `fuel` items; back at the root the function returns at once. -/
def evtEntArrayFill (tcx : EvtContext) (fuel : ℕ) (opc : EvtFindOpc) (intent : ℕ)
    (filter : EvtRangeFilter) (rect : EvtRect) (logStatus : EvtRecord → ℤ)
    (recs : List EvtRecord) (a : EvtEntryArray) : Except EvtStop (ℤ × EvtEntryArray) :=
  match evtFillLoop tcx opc intent filter rect logStatus recs false a [] with
  | .error e => .error e
  -- done with the root
  | .ok (.root hasAgg a _) => .ok (if hasAgg then 1 else 0, a)
  | .ok (.out rc hasAgg a loss) =>
    match (if rc = 0 ∧ loss ≠ [] then evtDataLossCheck fuel loss a else some rc) with
    | none => .error .outOfFuel
    | some rc =>
      let a := if rc ≠ 0 then { a with ents := [] } else a
      .ok (if rc = 0 ∧ hasAgg = true then 1 else rc, a)

section Search

variable {tcx : EvtContext} {opc : EvtFindOpc} {intent : ℕ} {filter : EvtRangeFilter}
  {rect : EvtRect} {logStatus : EvtRecord → ℤ} {r : EvtRecord} {t : RtTime} {rc rc' : ℤ}
  {a : EvtEntryArray}

/-- Only `EVT_FIND_ALL` puts a record on the data-loss list: `EVT_FIND_FIRST` leaves on every
negative status before it falls through. -/
theorem evtEarlyCheck_lost (h : evtEarlyCheck opc intent rect r t rc a = .lost) : opc = .all := by
  cases opc with
  | all => rfl
  | first =>
    simp only [evtEarlyCheck, evtEarlyAll] at h
    split_ifs at h with hneg hloss
    -- a lost record has a negative status, on which `EVT_FIND_FIRST` has already left
    rw [hloss] at hneg
    exact absurd (show -derDataLoss < 0 by unfold derDataLoss; decide) hneg
  | overwrite =>
    simp only [evtEarlyCheck] at h
    split_ifs at h
  | same =>
    simp only [evtEarlyCheck] at h
    split_ifs at h

/-- Every code the early check leaves with is an error. -/
theorem evtEarlyCheck_out (h : evtEarlyCheck opc intent rect r t rc a = .out rc') : rc' ≠ 0 := by
  have hprog : -derInprogress ≠ 0 := by unfold derInprogress; decide
  cases opc with
  | all =>
    simp only [evtEarlyCheck, evtEarlyAll] at h
    split_ifs at h with hloss hinprog
    cases h
    rw [hinprog.1]
    exact hprog
  | first =>
    simp only [evtEarlyCheck, evtEarlyAll] at h
    split_ifs at h with hneg hloss hinprog
    · cases h
      exact hneg.ne
    · cases h
      rw [hinprog.1]
      exact hprog
  | overwrite =>
    simp only [evtEarlyCheck] at h
    split_ifs at h with hsame hneg
    · cases h
      exact hneg.ne
    · cases h
      unfold derVosPartialUpdate
      decide
  | same =>
    simp only [evtEarlyCheck] at h
    split_ifs at h with hex hsame hneg
    cases h
    exact hneg.ne

/-- Only `EVT_FIND_OVERWRITE` fills a record in over the first entry. -/
theorem evtEarlyCheck_replace (h : evtEarlyCheck opc intent rect r t rc a = .replace) :
    opc = .overwrite := by
  cases opc with
  | overwrite => rfl
  | all =>
    simp only [evtEarlyCheck, evtEarlyAll] at h
    split_ifs at h
  | first =>
    simp only [evtEarlyCheck, evtEarlyAll] at h
    split_ifs at h
  | same =>
    simp only [evtEarlyCheck] at h
    split_ifs at h

/-- One record of the search loop: the search goes on with the next records, the data-loss
list grown only by `EVT_FIND_ALL`; or it leaves for `out:` with the list as it was, and with
`0` only for an opcode that takes one record. -/
theorem evtFillLoop_cons {rs : List EvtRecord} {hasAgg : Bool} {loss : List EvtRect}
    {e : EvtFillExit}
    (h : evtFillLoop tcx opc intent filter rect logStatus (r :: rs) hasAgg a loss = .ok e) :
    (∃ hasAgg' a' loss', evtFillLoop tcx opc intent filter rect logStatus rs hasAgg' a' loss' =
        .ok e ∧ (loss' = loss ∨ opc = .all ∧ loss' = evtDataLossAdd loss r.rect)) ∨
      ∃ rc hasAgg' a', e = .out rc hasAgg' a' loss ∧ (rc = 0 → opc ≠ .all) := by
  unfold evtFillLoop at h
  dsimp only at h
  -- the record is filtered out, meets no offset of the search, or is not later than it
  split at h
  · exact .inl ⟨_, _, _, h, .inl rfl⟩
  split at h
  · exact .inl ⟨_, _, _, h, .inl rfl⟩
  split at h
  · cases h
    exact .inr ⟨_, _, _, rfl, fun h0 => absurd h0 (by unfold derTxRestart; decide)⟩
  split at h
  · exact .inl ⟨_, _, _, h, .inl rfl⟩
  split at h
  · exact .inl ⟨_, _, _, h, .inl rfl⟩
  -- the early check
  split at h
  next => exact .inl ⟨_, _, _, h, .inl rfl⟩
  next hlost => exact .inl ⟨_, _, _, h, .inr ⟨evtEarlyCheck_lost hlost, rfl⟩⟩
  next rc hout =>
    cases h
    exact .inr ⟨_, _, _, rfl, fun h0 => absurd h0 (evtEarlyCheck_out hout)⟩
  next => cases h
  next hrepl =>
    cases h
    exact .inr ⟨_, _, _, rfl, fun _ hall => by
      rw [evtEarlyCheck_replace hrepl] at hall
      cases hall⟩
  next =>
    split at h
    next => cases h
    next rc a' _ =>
      split at h
      next hrc =>
        cases h
        exact .inr ⟨_, _, _, rfl, fun h0 => absurd h0 hrc⟩
      next =>
        split at h
        next => exact .inl ⟨_, _, _, h, .inl rfl⟩
        next hall =>
          cases h
          exact .inr ⟨_, _, _, rfl, fun _ => hall⟩

/-- A search that leaves for `out:` with `0` is not `EVT_FIND_ALL`, and its data-loss list is the
one it started with. Induction on the records, one step by `evtFillLoop_cons`. -/
theorem evtFillLoop_out_zero {rs : List EvtRecord} {hasAgg hasAgg' : Bool} {a' : EvtEntryArray}
    {loss loss' : List EvtRect}
    (h : evtFillLoop tcx opc intent filter rect logStatus rs hasAgg a loss =
      .ok (.out 0 hasAgg' a' loss')) :
    opc ≠ .all ∧ loss' = loss := by
  induction rs generalizing hasAgg a loss with
  | nil => cases h
  | cons r rs ih =>
    rcases evtFillLoop_cons h with ⟨_, _, _, hrest, hloss⟩ | ⟨rc, _, _, hout, hall⟩
    · obtain ⟨hne, heq⟩ := ih hrest
      rcases hloss with rfl | ⟨hall, -⟩
      · exact ⟨hne, heq⟩
      · exact absurd hall hne
    · cases hout
      exact ⟨hall rfl, rfl⟩

end Search

end Daos.Vos

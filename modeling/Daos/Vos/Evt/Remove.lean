import Daos.Vos.Evt.Sort

/-!
# Removing a range of an extent tree — `evt_remove_all` (`vos/evtree.c`)

`evt_remove_all(toh, ext, epr)` hides the records of the tree that overlap `ext` at an epoch of
`epr`. It fills an entry array with them (`evt_ent_array_fill` with `EVT_FIND_ALL`), sorts the
array in removals-only mode (`evt_ent_array_sort` with `EVT_ITER_REMOVALS`), and inserts, for
each entry the sort leaves visible, a removal record (minor epoch `EVT_MINOR_EPC_MAX`) over the
entry's selected extent at its epoch. The removals-only pass of `evt_find_visible` first merges
the data entries of one epoch that overlap or touch, so that the removal records do not overlap:
the first entry takes the later ones in, and its end becomes theirs.

**Where it falls short.** The merge sets the end of the merged entry to the end of the entry it
takes in, also when that entry ends first. Two sub-operations of one transaction at epoch 10, one
over `[0, 100]` and one over `[10, 20]`, merge into `[0, 20]`: the removal record covers
`[0, 20]` only, and a read at epoch 10 still sees the first record over `[21, 100]`
(`evtRemoveAll_nested_leaves_tail`).

**What is modelled.** The tree is the list of its leaf records in tree order: an `EVT_FIND_ALL`
search visits every leaf whose rectangle meets the search, and the nodes above only prune. Every
record is committed (the DTX state is not modelled), so the search meets no data loss. `evt_insert`
of a removal record skips the overwrite check and adds the record; its transaction does not fail,
and a removal wider than `MAX_RECT_WIDTH` is one record here where `evt_large_hole_insert` cuts it
into several that cover the same extent.
-/

namespace Daos.Vos

/-- `EVT_EMBEDDED_NR`: the entries an entry array holds before it is grown. -/
def evtEmbeddedNr : ℕ := 16

/-- `EVT_REBUILD_MINOR_MIN`, one past `VOS_SUB_OP_MAX`. -/
def evtRebuildMinorMin : ℕ := 16383 + 1

/-- `EVT_REBUILD_MINOR_MAX`. -/
def evtRebuildMinorMax : ℕ := evtRebuildMinorMin + 16383

/-- `struct evt_rect`: an extent at an epoch and minor epoch. -/
structure EvtRect where
  ex : EvtExtent
  epc : ℕ
  minorEpc : ℕ
deriving DecidableEq, Repr

/-- A leaf record of the tree: its rectangle, and the address of its data as an offset, or a
hole. -/
structure EvtRecord where
  rect : EvtRect
  addrOff : ℕ
  hole : Bool
deriving DecidableEq, Repr

/-- `daos_epoch_range_t`. -/
structure DaosEpochRange where
  eprLo : ℕ
  eprHi : ℕ
deriving DecidableEq, Repr

/-- The fields of `struct evt_filter` a search reads: the extent, the epoch range, the epoch of
the read, and the upper layer's punch. -/
structure EvtRangeFilter where
  frEx : EvtExtent
  frEpr : DaosEpochRange
  frEpoch : ℕ
  punch : EvtFilter
deriving DecidableEq, Repr

/-- `evt_filter_rect` on a leaf record: the record lies outside the filter's extent or epoch
range. -/
def evtFilterRect (filter : EvtRangeFilter) (rect : EvtRect) : Bool :=
  filter.frEx.lo > rect.ex.hi || filter.frEx.hi < rect.ex.lo || filter.frEpr.eprHi < rect.epc ||
    filter.frEpr.eprLo > rect.epc

/-- `evt_epoch_uncertain` on a leaf record. -/
def evtEpochUncertain (filter : EvtRangeFilter) (rect : EvtRect) : Bool :=
  rect.epc > filter.frEpoch && rect.epc ≤ filter.frEpr.eprHi

/-- The time overlaps of `evt_rect_overlap`. -/
inductive RtTime
  | no
  | over
  | under
  | same
deriving DecidableEq, Repr

/-- `time_cmp`: whether the two times are equal, and how the first stands to the second. A
rebuild minor epoch counts as the same as any earlier one. -/
def timeCmp (t1 t2 : ℕ) : Bool × RtTime :=
  if t1 = t2 then (true, .same)
  else if t1 < t2 then (false, .over)
  else if t2 = evtRebuildMinorMin ∧ t1 < evtRebuildMinorMax then (false, .same)
  else (false, .under)

/-- `evt_rect_overlap`: whether the extents meet, and the time overlap of the in-tree record
`rt1` with the searched `rt2`, by epoch and then by minor epoch. -/
def evtRectOverlap (rt1 rt2 : EvtRect) : Bool × RtTime :=
  if rt1.ex.lo > rt2.ex.hi ∨ rt1.ex.hi < rt2.ex.lo then (false, .no)
  else
    let (same, time) := timeCmp rt1.epc rt2.epc
    (true, if same then (timeCmp rt1.minorEpc rt2.minorEpc).2 else time)

/-- `evt_entry_fill`: the entry of a record, with the part of it inside the searched extent
selected and its address moved to that part. -/
def evtEntryFill (tcx : EvtContext) (rectSrch : EvtRect) (r : EvtRecord) : EvtEntry :=
  let offset := if rectSrch.ex.lo > r.rect.ex.lo then rectSrch.ex.lo - r.rect.ex.lo else 0
  let width := r.rect.ex.width - offset
  let width := if rectSrch.ex.hi < r.rect.ex.hi then width - (r.rect.ex.hi - rectSrch.ex.hi)
    else width
  let selLo := r.rect.ex.lo + offset
  let ent : EvtEntry :=
    { ext := r.rect.ex, selExt := ⟨selLo, selLo + width - 1⟩, visibility := .unknown,
      isPartial := decide (rectSrch.ex.lo > r.rect.ex.lo) || decide (rectSrch.ex.hi < r.rect.ex.hi),
      minorEpc := r.rect.minorEpc, addrOff := r.addrOff, hole := r.hole, epoch := r.rect.epc }
  if offset ≠ 0 then evtEntAddrUpdate tcx ent offset else ent

/-- `ent_array_alloc` without `notify_realloc`, as the fill calls it: an array that grows takes
the new entry at once. -/
def entArrayAllocFill (tcx : EvtContext) (a : EvtEntryArray) : Except EvtStop (ℤ × EvtEntryArray) :=
  match entArrayAlloc tcx a with
  | .error e => .error e
  | .ok (rc, _, a) =>
    if rc = -derAgain then .ok (0, { a with ents := a.ents ++ [default] })
    else .ok (rc, a)

/-- `evt_ent_array_fill` with `EVT_FIND_ALL` over the leaf records, in tree order: an entry for
every record inside the filter that meets the searched rectangle and is not later than it. -/
def evtEntArrayFillAll (tcx : EvtContext) (filter : EvtRangeFilter) (rect : EvtRect) :
    List EvtRecord → EvtEntryArray → Except EvtStop (ℤ × EvtEntryArray)
  | [], a => .ok (0, a)
  | r :: rs, a =>
    if evtFilterRect filter r.rect then evtEntArrayFillAll tcx filter rect rs a
    else
      let (rangeOverlap, timeOverlap) := evtRectOverlap r.rect rect
      if !rangeOverlap then evtEntArrayFillAll tcx filter rect rs a
      else if evtEpochUncertain filter r.rect then .ok (-derTxRestart, a)
      else if timeOverlap = .no ∨ timeOverlap = .under then evtEntArrayFillAll tcx filter rect rs a
      else
        match entArrayAllocFill tcx a with
        | .error e => .error e
        | .ok (rc, a) =>
          if rc ≠ 0 then .ok (rc, a)
          else evtEntArrayFillAll tcx filter rect rs
            (a.setEnt (a.ents.length - 1) (evtEntryFill tcx rect r))

/-- The insertion loop of `evt_remove_all`: a removal record over the selected extent of each
entry left, at its epoch. -/
def evtRemoveAllInsert : List EvtEntry → List EvtRecord → Except EvtStop (List EvtRecord)
  | [], tree => .ok tree
  | ent :: ents, tree =>
    -- `D_ASSERT(ent->en_minor_epc != EVT_MINOR_EPC_MAX)`
    if ent.minorEpc = evtMinorEpcMax then .error .assert
    else evtRemoveAllInsert ents (tree ++ [⟨⟨ent.selExt, ent.epoch, evtMinorEpcMax⟩, 0, true⟩])

/-- `evt_remove_all`: the code and the tree after. -/
def evtRemoveAll (tcx : EvtContext) (fuel : ℕ) (tree : List EvtRecord) (ext : EvtExtent)
    (epr : DaosEpochRange) : Except EvtStop (ℤ × List EvtRecord) :=
  let filter : EvtRangeFilter := ⟨ext, epr, epr.eprHi, ⟨0, 0⟩⟩
  let rect : EvtRect := ⟨ext, epr.eprHi, evtMinorEpcMax⟩
  match evtEntArrayFillAll tcx filter rect tree ⟨[], evtEmbeddedNr, 0⟩ with
  | .error e => .error e
  | .ok (rc, a) =>
    if rc ≠ 0 then .ok (rc, tree)
    else
      match evtEntArraySort tcx fuel a (some filter.punch) ⟨false, false, true⟩ with
      | .error e => .error e
      | .ok (rc, a) =>
        if rc ≠ 0 then .ok (rc, tree)
        else
          match evtRemoveAllInsert (a.ents.map (·.ent)) tree with
          | .error e => .error e
          | .ok tree => .ok (0, tree)

/-- A read of `ext` at epoch `epoch`: the visible entries `evt_ent_array_sort` reports. -/
def evtReadVisible (tcx : EvtContext) (fuel : ℕ) (tree : List EvtRecord) (ext : EvtExtent)
    (epoch : ℕ) : Except EvtStop (ℤ × EvtEntryArray) :=
  let filter : EvtRangeFilter := ⟨ext, ⟨0, epoch⟩, epoch, ⟨0, 0⟩⟩
  match evtEntArrayFillAll tcx filter ⟨ext, epoch, evtMinorEpcMax⟩ tree ⟨[], evtEmbeddedNr, 0⟩ with
  | .error e => .error e
  | .ok (rc, a) =>
    if rc ≠ 0 then .ok (rc, a)
    else evtEntArraySort tcx fuel a (some filter.punch) ⟨true, false, false⟩

/-- A removal record of epoch `e` in the tree covers offset `x`. -/
def RemovalCovers (tree : List EvtRecord) (e x : ℕ) : Prop :=
  ∃ r ∈ tree, r.rect.minorEpc = evtMinorEpcMax ∧ r.rect.epc = e ∧ r.rect.ex.lo ≤ x ∧ x ≤ r.rect.ex.hi

instance (tree : List EvtRecord) (e x : ℕ) : Decidable (RemovalCovers tree e x) :=
  inferInstanceAs (Decidable (∃ r ∈ tree, _))

/-- Two sub-operations of one transaction at epoch 10, minor epochs 1 and 2, over `[0, 100]` and
`[10, 20]` in a tree whose root is a leaf of order 15. Removing `[0, 100]` at epoch 10 merges
them into `[0, 20]` and inserts one removal record there: none covers offset 50, and a read at
epoch 10 afterwards still sees the first record over `[21, 100]`. -/
theorem evtRemoveAll_nested_leaves_tail :
    let tcx : EvtContext := ⟨15, 1, 1, Nat.one_pos, true⟩
    let outer : EvtRecord := ⟨⟨⟨0, 100⟩, 10, 1⟩, 1000, false⟩
    let inner : EvtRecord := ⟨⟨⟨10, 20⟩, 10, 2⟩, 2000, false⟩
    let removal : EvtRecord := ⟨⟨⟨0, 20⟩, 10, evtMinorEpcMax⟩, 0, true⟩
    evtRemoveAll tcx 100 [outer, inner] ⟨0, 100⟩ ⟨10, 10⟩ = .ok (0, [outer, inner, removal]) ∧
      ¬RemovalCovers [outer, inner, removal] 10 50 ∧
      (evtReadVisible tcx 100 [outer, inner, removal] ⟨0, 100⟩ 10).map (fun r =>
          r.2.ents.map fun le => (le.ent.selExt, le.ent.epoch, le.ent.minorEpc, le.ent.visibility)) =
        .ok [(⟨21, 100⟩, 10, 1, .visible)] :=
  ⟨rfl, by decide, rfl⟩

end Daos.Vos

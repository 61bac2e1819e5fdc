import Mathlib
import Daos.Vos.Ilog.Parse

/-!
# Sorting the entries of an extent-tree search (`evt_ent_array_sort`, `vos/evtree.c`)

A search of an extent tree fills an entry array with every record it finds: data records
and removal records (minor epoch `EVT_MINOR_EPC_MAX`), each with the part of its extent
that lies in the search (`en_sel_ext`). `evt_ent_array_sort` then marks each entry visible,
covered or removed. It sorts the entries by start offset, later epochs first; covers those
the upper layer's punch hides; cuts the data records at the removal records of their epoch
(`evt_mark_removed`); and walks the sorted list, cutting, splitting and truncating entries so
that the visible pieces are disjoint and each offset is shown by its latest writer
(`evt_find_visible`). The pieces live in the same array: `ent_array_alloc` takes a new entry,
and when the array is full it grows it, up to `ea_max = 3 * order ^ depth`, and asks the sort
to start over on the entries it holds (`-DER_AGAIN`).

**What is modelled.** The array is the list of its `ea_ent_nr` entries; a list of the sort
(`covered`, `removals`) is the list of the indices of its entries, and a pointer into one is
the part of the list from it on. `le_prev` is the index it points at. `en_visibility` is its
three visibility bits and `EVT_PARTIAL`. `qsort` is a stable sort by the same comparison.
A loop of the model stops with `outOfFuel` after `fuel` iterations, a bound of the model
only; a `D_ASSERT` that fails stops it with `assert`.
-/

namespace Daos.Vos

/-- `DER_AGAIN`. -/
def derAgain : ℤ := 1013

/-- `struct evt_extent`: the records `[ex_lo, ex_hi]`. -/
structure EvtExtent where
  lo : ℕ
  hi : ℕ
deriving DecidableEq, Repr, Inhabited

/-- `evt_extent_width`. -/
def EvtExtent.width (ext : EvtExtent) : ℕ :=
  ext.hi - ext.lo + 1

/-- The visibility bits of `en_visibility`: none yet, `EVT_VISIBLE`, `EVT_COVERED` or
`EVT_REMOVE`. -/
inductive EvtVis
  | unknown
  | visible
  | covered
  | remove
deriving DecidableEq, Repr, Inhabited

/-- `struct evt_entry`, with the fields the sort reads and writes; `en_addr` is its offset
and whether it is a hole. -/
structure EvtEntry where
  ext : EvtExtent
  selExt : EvtExtent
  visibility : EvtVis
  /-- The `EVT_PARTIAL` bit of `en_visibility`. -/
  isPartial : Bool
  minorEpc : ℕ
  addrOff : ℕ
  hole : Bool
  epoch : ℕ
deriving DecidableEq, Repr, Inhabited

/-- `EVT_MINOR_EPC_MAX`: the minor epoch of a removal record. -/
def evtMinorEpcMax : ℕ := 65535

/-- The punch of the upper layer in `struct evt_filter`. -/
structure EvtFilter where
  punchEpc : ℕ
  punchMinorEpc : ℕ
deriving DecidableEq, Repr

/-- `evt_entry_punched`. -/
def evtEntryPunched (ent : EvtEntry) (filter : Option EvtFilter) : Bool :=
  match filter with
  | none => false
  | some f => vosEpcPunched ent.epoch ent.minorEpc ⟨f.punchEpc, f.punchMinorEpc⟩

/-- `evt_ent_cmp` without a mask: `evt_rect_cmp` of the entries' rectangles, by start,
then later epoch and minor epoch first, then by end. -/
def evtEntCmp (e1 e2 : EvtEntry) : Ordering :=
  if e1.selExt.lo < e2.selExt.lo then .lt
  else if e2.selExt.lo < e1.selExt.lo then .gt
  else if e2.epoch < e1.epoch then .lt
  else if e1.epoch < e2.epoch then .gt
  else if e2.minorEpc < e1.minorEpc then .lt
  else if e1.minorEpc < e2.minorEpc then .gt
  else if e1.selExt.hi < e2.selExt.hi then .lt
  else if e2.selExt.hi < e1.selExt.hi then .gt
  else .eq

/-- `vis_cmp_mask`: visible entries before covered and removed ones. -/
def visCmpMask : EvtVis → ℕ
  | .covered => 1
  | .remove => 1
  | _ => 0

/-- `evt_ent_cmp` with `vis_cmp_mask` (`evt_ent_list_cmp_visible`). -/
def evtEntCmpVisible (e1 e2 : EvtEntry) : Ordering :=
  if visCmpMask e1.visibility = visCmpMask e2.visibility then evtEntCmp e1 e2
  else if visCmpMask e1.visibility < visCmpMask e2.visibility then .lt
  else .gt

/-- `evt_ent_is_later`: a later epoch, or a later minor epoch at the same epoch. -/
def evtEntIsLater (e1 e2 : EvtEntry) : Bool :=
  if e2.epoch < e1.epoch then true
  else if e1.epoch < e2.epoch then false
  else e2.minorEpc < e1.minorEpc

/-- `set_visibility`. -/
def EvtEntry.setVisibility (ent : EvtEntry) (vis : EvtVis) : EvtEntry :=
  { ent with visibility := vis }

/-- The fields of `struct evt_context` the sort reads, with the outcome of `D_ALLOC_ARRAY`
when the entry array grows. The record size of a tree that holds data is set, which is
what the `D_ASSERT` of `evt_ent_addr_update` checks. -/
structure EvtContext where
  order : ℕ
  depth : ℕ
  inob : ℕ
  inob_pos : 0 < inob
  allocOk : Bool

/-- `struct evt_list_entry`: `le_prev` as the index of the entry it points at. -/
structure EvtListEntry where
  prev : Option ℕ
  ent : EvtEntry
deriving DecidableEq, Repr, Inhabited

/-- `struct evt_entry_array`: its `ea_ent_nr` entries, `ea_size` and `ea_max`. -/
structure EvtEntryArray where
  ents : List EvtListEntry
  size : ℕ
  max : ℕ
deriving DecidableEq, Repr

namespace EvtEntryArray

/-- The entry at an index. -/
def ent (a : EvtEntryArray) (i : ℕ) : EvtEntry :=
  (a.ents.getD i default).ent

/-- `le_prev` of the entry at an index. -/
def prev (a : EvtEntryArray) (i : ℕ) : Option ℕ :=
  (a.ents.getD i default).prev

def setEnt (a : EvtEntryArray) (i : ℕ) (ent : EvtEntry) : EvtEntryArray :=
  { a with ents := a.ents.modify i fun le => { le with ent := ent } }

def setPrev (a : EvtEntryArray) (i : ℕ) (p : Option ℕ) : EvtEntryArray :=
  { a with ents := a.ents.modify i fun le => { le with prev := p } }

def setVisibility (a : EvtEntryArray) (i : ℕ) (vis : EvtVis) : EvtEntryArray :=
  a.setEnt i ((a.ent i).setVisibility vis)

end EvtEntryArray

/-- How a run of the sort stops without a code: a failed `D_ASSERT`, or the model's bound on
the iterations of a loop. -/
inductive EvtStop
  | assert
  | outOfFuel
deriving DecidableEq, Repr

/-- `EVT_MIN_ALLOC`: the least size of an array past the embedded entries. -/
def evtMinAlloc : ℕ := 4096

/-- `ent_array_alloc` with `notify_realloc` set: the code, the index of the new zeroed
entry, and the array. -/
def entArrayAlloc (tcx : EvtContext) (a : EvtEntryArray) : Except EvtStop (ℤ × ℕ × EvtEntryArray) :=
  -- the bound of the array: 3 entries for each leaf the tree can hold
  let a := if a.max = 0 then { a with max := 3 * tcx.order ^ tcx.depth } else a
  if a.ents.length = a.size then
    if a.size = a.max then .error .assert
    else
      let size := min (max (a.size * 4) evtMinAlloc) a.max
      -- `ent_array_resize` returns `bool`, so its `-DER_NOMEM` arrives as `1`
      if !tcx.allocOk then .ok (1, 0, a)
      else if a.ents.length < size then .ok (-derAgain, 0, { a with size := size })
      else .error .assert
  else .ok (0, a.ents.length, { a with ents := a.ents ++ [default] })

/-- `evt_ent_addr_update`: move the address of a data entry by `diff` records. -/
def evtEntAddrUpdate (tcx : EvtContext) (ent : EvtEntry) (diff : ℕ) : EvtEntry :=
  if ent.hole then ent else { ent with addrOff := ent.addrOff + diff * tcx.inob }

/-- `evt_insert_sorted`: insert entry `x` into the list from the pointer on, before the
first entry it sorts before; the pointer returned is the start of the new list. -/
def evtInsertSorted (a : EvtEntryArray) (x : ℕ) : List ℕ → List ℕ
  | [] => [x]
  | y :: l => if evtEntCmp (a.ent x) (a.ent y) = .lt then x :: y :: l else y :: evtInsertSorted a x l

/-! ### `evt_mark_removed` -/

/-- The scan of the removal records for one data entry: the records left, without those
that end before the entry starts, and the first that covers a part of it at its epoch. -/
def evtMarkRemovedScan (a : EvtEntryArray) (thisEnt : EvtEntry) : List ℕ → List ℕ × Option ℕ
  | [] => ([], none)
  | d :: ds =>
    let del := a.ent d
    -- done with this removal record
    if del.selExt.hi < thisEnt.selExt.lo then evtMarkRemovedScan a thisEnt ds
    else if thisEnt.epoch = del.epoch ∧ del.selExt.lo ≤ thisEnt.selExt.hi then (d :: ds, some d)
    else
      let (ds, found) := evtMarkRemovedScan a thisEnt ds
      (d :: ds, found)

/-- The loop of `evt_mark_removed` over the data entries from `cur_update` on, with the
removal records left and the entries already passed (latest first); the code, the array
and the list of data entries at the end. -/
def evtMarkRemovedLoop (tcx : EvtContext) :
    ℕ → EvtEntryArray → List ℕ → List ℕ → List ℕ → Except EvtStop (ℤ × EvtEntryArray × List ℕ)
  | 0, _, _, _, _ => .error .outOfFuel
  | _ + 1, a, _, done, [] => .ok (0, a, done.reverse)
  | fuel + 1, a, deleted, done, c :: rest =>
    let thisEnt := a.ent c
    match evtMarkRemovedScan a thisEnt deleted with
    | (deleted, none) =>
      if deleted = [] then .ok (0, a, done.reverse ++ c :: rest)
      else evtMarkRemovedLoop tcx fuel a deleted (c :: done) rest
    | (deleted, some d) =>
      let del := a.ent d
      if thisEnt.selExt.lo < del.selExt.lo then
        -- split, the head is not covered
        match entArrayAlloc tcx a with
        | .error e => .error e
        | .ok (rc, temp, a) =>
          if rc ≠ 0 then .ok (rc, a, done.reverse ++ c :: rest)
          else
            let thisEnt := { thisEnt with isPartial := true }
            let head := { thisEnt with selExt := { thisEnt.selExt with hi := del.selExt.lo - 1 } }
            let tempEnt := evtEntAddrUpdate tcx
              { thisEnt with selExt := { thisEnt.selExt with lo := del.selExt.lo } } head.selExt.width
            if tempEnt.selExt.hi ≤ del.selExt.hi then
              -- the tail is covered
              let a := (a.setEnt c head).setEnt temp (tempEnt.setVisibility .covered)
              evtMarkRemovedLoop tcx fuel a deleted (c :: done) rest
            else
              -- the tail is marked when it is reached
              let a := (a.setEnt c head).setEnt temp tempEnt
              evtMarkRemovedLoop tcx fuel a deleted done (evtInsertSorted a temp (c :: rest))
      else if del.selExt.hi < thisEnt.selExt.hi then
        -- split, the tail is not covered
        match entArrayAlloc tcx a with
        | .error e => .error e
        | .ok (rc, temp, a) =>
          if rc ≠ 0 then .ok (rc, a, done.reverse ++ c :: rest)
          else
            let thisEnt := { thisEnt with isPartial := true }
            let covered := { thisEnt with selExt := { thisEnt.selExt with hi := del.selExt.hi } }
            let tempEnt := evtEntAddrUpdate tcx
              { thisEnt with selExt := { thisEnt.selExt with lo := del.selExt.hi + 1 } }
              covered.selExt.width
            let a := (a.setEnt c (covered.setVisibility .covered)).setEnt temp tempEnt
            evtMarkRemovedLoop tcx fuel a deleted done (evtInsertSorted a temp rest)
      else
        evtMarkRemovedLoop tcx fuel (a.setVisibility c .covered) deleted done rest

/-- `evt_mark_removed`: cover the parts of the data entries that a removal record of their
epoch covers. -/
def evtMarkRemoved (tcx : EvtContext) (fuel : ℕ) (a : EvtEntryArray) (deleted toProcess : List ℕ) :
    Except EvtStop (ℤ × EvtEntryArray × List ℕ) :=
  if deleted = [] ∨ toProcess = [] then .ok (0, a, toProcess)
  else evtMarkRemovedLoop tcx fuel a deleted [] toProcess

/-! ### `evt_find_visible` -/

/-- `evt_find_next_visible`: from the list after the current entry, cover the entries that
`this` hides, up to the first it does not; that entry and the list after it. -/
def evtFindNextVisible (thisEnt : EvtEntry) : List ℕ → EvtEntryArray → Option ℕ × List ℕ × EvtEntryArray
  | [], a => (none, [], a)
  | n :: rest, a =>
    let nextEnt := a.ent n
    if evtEntIsLater nextEnt thisEnt then (some n, rest, a)
    -- `next_ent` extends past the end
    else if thisEnt.selExt.hi < nextEnt.selExt.hi then (some n, rest, a)
    else evtFindNextVisible thisEnt rest (a.setVisibility n .covered)

/-- `evt_split_entry`: `current` keeps its head before `next`, `covered` (a copy) the part
under `next`, `split` (a copy) the tail after it, with a back pointer to `covered`. -/
def evtSplitEntry (tcx : EvtContext) (a : EvtEntryArray) (cur nxt split covered : ℕ) :
    Except EvtStop EvtEntryArray :=
  let current := a.ent cur
  if current.visibility = .remove then .error .assert
  else
    let current := { current with isPartial := true }
    let next := a.ent nxt
    let diff := next.selExt.hi + 1 - current.selExt.lo
    let splitEnt := evtEntAddrUpdate tcx
      { current with selExt := { current.selExt with lo := next.selExt.hi + 1 } } diff
    let head := { current with selExt := { current.selExt with hi := next.selExt.lo - 1 } }
    let coveredEnt := evtEntAddrUpdate tcx
      ({ current with selExt := next.selExt }.setVisibility .covered) head.selExt.width
    .ok ((((a.setEnt cur head).setEnt split splitEnt).setEnt covered coveredEnt).setPrev split
      (some covered))

/-- `evt_truncate_next`: cut the head of `next` that `this` hides into a covered entry,
extending the covered piece of an earlier split when `next` has one. -/
def evtTruncateNext (tcx : EvtContext) (a : EvtEntryArray) (thisI nextI : ℕ) :
    Except EvtStop (ℤ × EvtEntryArray) :=
  let reuse : Option ℕ := match a.prev nextI with
    | some p => if (a.ent p).visibility = .covered ∧ (a.ent p).isPartial then some p else none
    | none => none
  let taken : Except EvtStop (ℤ × ℕ × EvtEntryArray) := match reuse with
    | some p =>
      -- the truncated part has the same visibility as the prior split
      if (a.ent p).selExt.hi + 1 = (a.ent nextI).selExt.lo then .ok (0, p, a) else .error .assert
    | none =>
      match entArrayAlloc tcx a with
      | .error e => .error e
      | .ok (rc, temp, a) =>
        if rc ≠ 0 then .ok (rc, temp, a)
        else
          let next := { a.ent nextI with isPartial := true }
          .ok (0, temp, (a.setEnt nextI next).setEnt temp next)
  match taken with
  | .error e => .error e
  | .ok (rc, temp, a) =>
    if rc ≠ 0 then .ok (rc, a)
    else
      let thisEnt := a.ent thisI
      let next := a.ent nextI
      let diff := thisEnt.selExt.hi + 1 - next.selExt.lo
      let next := evtEntAddrUpdate tcx
        { next with selExt := { next.selExt with lo := thisEnt.selExt.hi + 1 } } diff
      let tempEnt := a.ent temp
      let tempEnt := { tempEnt with selExt := { tempEnt.selExt with hi := next.selExt.lo - 1 } }
      .ok (0, ((a.setPrev nextI (some temp)).setEnt nextI next).setEnt temp
        (tempEnt.setVisibility .covered))

/-- `evt_mark_visible`: a removal record is marked removed (only where the caller allows
it), any other entry visible and counted. -/
def evtMarkVisible (ent : EvtEntry) (check : Bool) (numVisible : ℕ) : Except EvtStop (EvtEntry × ℕ) :=
  if ent.minorEpc = evtMinorEpcMax then
    if check then .ok (ent.setVisibility .remove, numVisible) else .error .assert
  else .ok (ent.setVisibility .visible, numVisible + 1)

/-- The first loop of `evt_find_visible`, over the entries in array order: an entry the
filter punches is covered; removal records go to the removals list, other entries to the
covered list. -/
def evtFindVisibleClassify (filter : Option EvtFilter) (a : EvtEntryArray) :
    List ℕ → EvtEntryArray × List ℕ × List ℕ
  | [] => (a, [], [])
  | i :: is =>
    let ent := a.ent i
    if evtEntryPunched ent filter then evtFindVisibleClassify filter (a.setVisibility i .covered) is
    else if ent.minorEpc = evtMinorEpcMax then
      let (a, removals, covered) :=
        evtFindVisibleClassify filter ((a.setPrev i none).setVisibility i .remove) is
      (a, i :: removals, covered)
    else
      let (a, removals, covered) := evtFindVisibleClassify filter (a.setPrev i none) is
      (a, removals, i :: covered)

/-- The inner loop of the removals-only pass: `this` takes in the later entries of its
epoch that start at most one past its end. -/
def evtRemovalsMerge (thisI : ℕ) : List ℕ → EvtEntryArray → EvtEntryArray × List ℕ
  | [], a => (a, [])
  | n :: rest, a =>
    let thisEnt := a.ent thisI
    let nextEnt := a.ent n
    if thisEnt.selExt.hi + 1 < nextEnt.selExt.lo then
      -- past the end of the physical extent, every later entry is too
      if thisEnt.ext.hi + 1 < nextEnt.ext.lo then (a, n :: rest)
      else
        let (a, rest) := evtRemovalsMerge thisI rest a
        (a, n :: rest)
    else if nextEnt.epoch ≠ thisEnt.epoch then
      let (a, rest) := evtRemovalsMerge thisI rest a
      (a, n :: rest)
    else
      let a := a.setVisibility n .covered
      evtRemovalsMerge thisI rest
        (a.setEnt thisI { thisEnt with selExt := { thisEnt.selExt with hi := nextEnt.selExt.hi } })

/-- The removals-only pass of `evt_find_visible`: each entry left, in order, takes in the
overlapping entries of its epoch and is marked visible. -/
def evtFindVisibleRemovals : ℕ → List ℕ → EvtEntryArray → ℕ → Except EvtStop (ℤ × EvtEntryArray × ℕ)
  | 0, _, _, _ => .error .outOfFuel
  | _ + 1, [], a, nv => .ok (0, a, nv)
  | fuel + 1, c :: rest, a, nv =>
    let (a, rest) := evtRemovalsMerge c rest a
    match evtMarkVisible (a.ent c) false nv with
    | .error e => .error e
    | .ok (ent, nv) => evtFindVisibleRemovals fuel rest (a.setEnt c ent) nv

/-- The loop of `evt_find_visible` that uncovers entries: the list is at `current`, `this`
is the visible entry compared with what follows, `rest` the list after `current`, and
`insert` whether `current` is yet to be marked visible and become `this`. -/
def evtFindVisibleLoop (tcx : EvtContext) :
    ℕ → EvtEntryArray → ℕ → ℕ → Bool → List ℕ → ℕ → Except EvtStop (ℤ × EvtEntryArray × ℕ)
  | 0, _, _, _, _, _, _ => .error .outOfFuel
  | _ + 1, a, current, _, _, [], nv =>
    if (a.ent current).visibility = .covered then .error .assert
    else
      match evtMarkVisible (a.ent current) false nv with
      | .error e => .error e
      | .ok (ent, nv) => .ok (0, a.setEnt current ent, nv)
  | fuel + 1, a, current, thisI, insert, rest@(_ :: _), nv =>
    let marked : Except EvtStop (EvtEntryArray × ℕ × ℕ) :=
      if insert then
        match evtMarkVisible (a.ent current) false nv with
        | .error e => .error e
        | .ok (ent, nv) => .ok ((a.setEnt current ent).setPrev current none, current, nv)
      else .ok (a, thisI, nv)
    match marked with
    | .error e => .error e
    | .ok (a, thisI, nv) =>
      let thisEnt := a.ent thisI
      match evtFindNextVisible thisEnt rest a with
      | (none, _, a) => .ok (0, a, nv)
      | (some n, rest, a) =>
        let nextEnt := a.ent n
        if thisEnt.selExt.hi + 1 ≤ nextEnt.selExt.lo then
          -- case 1: no intersection, the current entry is inserted whole
          evtFindVisibleLoop tcx fuel a n thisI true rest nv
        else if evtEntIsLater thisEnt nextEnt then
          -- case 2: `next` is partly under `this`, its head is cut and it is reinserted
          match evtTruncateNext tcx a thisI n with
          | .error e => .error e
          | .ok (rc, a) =>
            if rc ≠ 0 then .ok (rc, a, nv)
            else evtFindVisibleLoop tcx fuel a n thisI false (evtInsertSorted a n rest) nv
        else
          match entArrayAlloc tcx a with
          | .error e => .error e
          | .ok (rc, temp, a) =>
            if rc ≠ 0 then .ok (rc, a, nv)
            else if nextEnt.selExt.hi ≥ thisEnt.selExt.hi then
              -- case 3: `next` is later and goes past `this`, whose tail is cut
              let thisEnt := { thisEnt with isPartial := true }
              let head := { thisEnt with selExt := { thisEnt.selExt with hi := nextEnt.selExt.lo - 1 } }
              let tempEnt := evtEntAddrUpdate tcx
                ({ thisEnt with selExt := { thisEnt.selExt with lo := nextEnt.selExt.lo } }.setVisibility
                  .covered) head.selExt.width
              evtFindVisibleLoop tcx fuel ((a.setEnt thisI head).setEnt temp tempEnt) n thisI true rest nv
            else
              match entArrayAlloc tcx a with
              | .error e => .error e
              | .ok (rc, split, a) =>
                -- on a failure `ea_ent_nr` is decremented to give back `temp_ent`
                if rc ≠ 0 then .ok (rc, { a with ents := a.ents.dropLast }, nv)
                else
                  -- case 4: `this` contains the later `next` and is split around it
                  match evtSplitEntry tcx a thisI n split temp with
                  | .error e => .error e
                  | .ok a => evtFindVisibleLoop tcx fuel a n thisI true (evtInsertSorted a split rest) nv

/-- `evt_find_visible`: the code, the array with every entry marked, and the number of
visible entries. -/
def evtFindVisible (tcx : EvtContext) (fuel : ℕ) (filter : Option EvtFilter) (a : EvtEntryArray)
    (removalsOnly : Bool) : Except EvtStop (ℤ × EvtEntryArray × ℕ) :=
  let (a, removals, covered) := evtFindVisibleClassify filter a (List.range a.ents.length)
  match evtMarkRemoved tcx fuel a removals covered with
  | .error e => .error e
  | .ok (rc, a, covered) =>
    if rc ≠ 0 then .ok (rc, a, 0)
    else
      match covered with
      | [] => .ok (0, a, 0)
      | c :: rest =>
        if removalsOnly then evtFindVisibleRemovals fuel (c :: rest) a 0
        else evtFindVisibleLoop tcx fuel a c c true rest 0

/-! ### `evt_ent_array_sort` -/

/-- The flags of `evt_ent_array_sort`: `EVT_ITER_VISIBLE`, the covered bit of
`EVT_ITER_COVERED`, and `EVT_ITER_REMOVALS`. -/
structure EvtSortFlags where
  visible : Bool
  covered : Bool
  removals : Bool
deriving DecidableEq, Repr

/-- `qsort` of the entries by a comparison. -/
def evtSortEnts (cmp : EvtEntry → EvtEntry → Ordering) (a : EvtEntryArray) : EvtEntryArray :=
  { a with ents := a.ents.insertionSort fun x y => cmp x.ent y.ent ≠ .gt }

/-- The loop of `evt_ent_array_sort`: sort, then find the visible entries, and start over
when the array was reallocated. -/
def evtEntArraySortLoop (tcx : EvtContext) (filter : Option EvtFilter) (removals : Bool) (fuel : ℕ) :
    ℕ → EvtEntryArray → Except EvtStop (ℤ × EvtEntryArray × ℕ)
  | 0, _ => .error .outOfFuel
  | restarts + 1, a =>
    match evtFindVisible tcx fuel filter (evtSortEnts evtEntCmp a) removals with
    | .error e => .error e
    | .ok (rc, a, nv) =>
      -- the list was reallocated: start over
      if rc = -derAgain then evtEntArraySortLoop tcx filter removals fuel restarts a
      else .ok (rc, a, nv)

/-- `evt_ent_array_sort`: the code, and the array whose entries are the result. -/
def evtEntArraySort (tcx : EvtContext) (fuel : ℕ) (a : EvtEntryArray) (filter : Option EvtFilter)
    (flags : EvtSortFlags) : Except EvtStop (ℤ × EvtEntryArray) :=
  if a.ents.length = 0 then .ok (0, a)
  else
    let found : Except EvtStop (ℤ × EvtEntryArray × ℕ) :=
      if a.ents.length = 1 then
        let ent := a.ent 0
        if evtEntryPunched ent filter then .ok (0, a.setVisibility 0 .covered, 0)
        else
          match evtMarkVisible ent true 0 with
          | .error e => .error e
          | .ok (ent, nv) => .ok (0, a.setEnt 0 ent, nv)
      else evtEntArraySortLoop tcx filter flags.removals fuel fuel a
    match found with
    | .error e => .error e
    | .ok (rc, a, nv) =>
      if rc ≠ 0 then .ok (rc, a)
      else if flags.covered then
        .ok (0, if a.ents.length ≠ 1 then evtSortEnts evtEntCmp a else a)
      else if !(flags.visible || flags.removals) then .error .assert
      -- `evt_ent_cmp` with a mask asserts that each entry has been marked
      else if a.ents.length ≠ 1 ∧ a.ents.any (·.ent.visibility = .unknown) then .error .assert
      else
        let a := if a.ents.length ≠ 1 then evtSortEnts evtEntCmpVisible a else a
        .ok (0, { a with ents := a.ents.take nv })

/-- The bound of the entry array does not hold the pieces that removal records cut. A tree of
order 15 and depth 1 holds five data records at epoch 10 (minor epochs 1 to 5) over
`[0, 100]`, and five removal records at epoch 10 over `[50, 50]`, `[52, 52]` … `[58, 58]`.
Each removal record cuts each data record twice, so a read over `[0, 100]` needs 60 entries
where the array stops at `3 * 15 = 45`, and the sort asserts; with room for 60 entries it
returns the six visible pieces. -/
theorem evtEntArraySort_removals_overflow :
    let tcx : EvtContext := ⟨15, 1, 1, Nat.one_pos, true⟩
    let data := fun m : ℕ =>
      (⟨none, ⟨⟨0, 100⟩, ⟨0, 100⟩, .unknown, false, m, 1000 * m, false, 10⟩⟩ : EvtListEntry)
    let removal := fun x : ℕ =>
      (⟨none, ⟨⟨x, x⟩, ⟨x, x⟩, .unknown, false, evtMinorEpcMax, 0, true, 10⟩⟩ : EvtListEntry)
    let ents := [data 1, data 2, data 3, data 4, data 5,
      removal 50, removal 52, removal 54, removal 56, removal 58]
    evtEntArraySort tcx 100 ⟨ents, 16, 45⟩ (some ⟨0, 0⟩) ⟨true, false, false⟩ = .error .assert ∧
      (evtEntArraySort tcx 100 ⟨ents, 16, 60⟩ (some ⟨0, 0⟩) ⟨true, false, false⟩).map
        (·.2.ents.length) = .ok 6 :=
  ⟨rfl, rfl⟩

end Daos.Vos

import Mathlib

/-!
# The binary heap — `d_binheap_*` (`gurt/heap.c`)

A `struct d_binheap` stores pointers to intrusive nodes in a binary tree laid out by position:
position 0 is the root and the parent of position `i` is `(i - 1) >> 1`. The positions are
spread over three ranges of pointer arrays of `DBH_SIZE = 512` entries each: `d_bh_nodes1` for
the first 512, `d_bh_nodes2[i][j]` for the next `512^2` and `d_bh_nodes3[i][j][k]` for the next
`512^3` (`d_binheap_pointer`). `d_binheap_grow` allocates one more array of 512 entries, with the
index arrays above it at their first use, and raises the high-water mark `d_bh_hwm` by 512.

Each node records its position in `chn_idx`. `d_binheap_bubble` and `d_binheap_sink` move a node
up or down by moving the parents, or the smaller children, into the hole it leaves, and write
the node once at the end.

**What is modelled, and how.** The heap is its count, its high-water mark, the pointer arrays
allocated so far (`DbhFrag`), what their entries hold (`none` for `NULL`) and the `chn_idx` field
of every node. Positions and counts are naturals: the capacity of the three ranges is below
`2^32`. Each `D_ALLOC` of a grow may fail: `allocOk k` says whether the `k`-th of the call
succeeds. `hop_compare` is a parameter, `hop_enter` is the return code it gives in one call, and
`hop_exit` has no effect on the heap. The locks, the `NULL` checks of the arguments and the
`D_ASSERT`s are left out; a read of a `NULL` entry, which the `C` code would dereference, stops
the model's loop where it is.
-/

namespace Daos.Gurt

/-- `DER_NOMEM`. -/
def derNomem : ℤ := 1009

/-- `DBH_SHIFT`. -/
def dbhShift : ℕ := 9

/-- `DBH_SIZE`: the pointers of one array. -/
def dbhSize : ℕ := 1 <<< dbhShift

/-- `DBH_MASK`. -/
def dbhMask : ℕ := dbhSize - 1

/-- `DBH_POISON`: the `chn_idx` of a removed node. -/
def dbhPoison : ℕ := 0xdeadbeef

/-- The positions the three ranges of pointer arrays hold. -/
def dbhCapacity : ℕ := dbhSize + dbhSize * dbhSize + dbhSize * dbhSize * dbhSize

/-- An entry of the pointer arrays: `d_bh_nodes1[i]`, `d_bh_nodes2[i][j]` or
`d_bh_nodes3[i][j][k]`. -/
inductive DbhSlot
  | one (i : ℕ)
  | two (i j : ℕ)
  | three (i j k : ℕ)
deriving DecidableEq, Repr

/-- A pointer array `d_binheap_grow` allocates: `d_bh_nodes1`, `d_bh_nodes2`, `d_bh_nodes2[i]`,
`d_bh_nodes3`, `d_bh_nodes3[i]` or `d_bh_nodes3[i][j]`. -/
inductive DbhFrag
  | nodes1
  | nodes2
  | nodes2At (i : ℕ)
  | nodes3
  | nodes3At (i : ℕ)
  | nodes3At2 (i j : ℕ)
deriving DecidableEq, Repr

/-- `d_binheap_pointer`. -/
def dBinheapPointer (idx : ℕ) : DbhSlot :=
  if idx < dbhSize then .one idx
  else
    let idx := idx - dbhSize
    if idx < dbhSize * dbhSize then .two (idx >>> dbhShift) (idx &&& dbhMask)
    else
      let idx := idx - dbhSize * dbhSize
      .three (idx >>> (2 * dbhShift)) ((idx >>> dbhShift) &&& dbhMask) (idx &&& dbhMask)

/-- The pointer arrays read on the way to an entry. -/
def DbhSlot.frags : DbhSlot → List DbhFrag
  | .one _ => [.nodes1]
  | .two i _ => [.nodes2, .nodes2At i]
  | .three i j _ => [.nodes3, .nodes3At i, .nodes3At2 i j]

/-- A `struct d_binheap` with the `chn_idx` fields of the nodes. -/
structure DBinheap (N : Type*) where
  nodesCnt : ℕ
  hwm : ℕ
  frags : List DbhFrag
  slots : DbhSlot → Option N
  chnIdx : N → ℕ

namespace DBinheap

variable {N : Type*} (h : DBinheap N)

/-- The node pointer at each position, as `*d_binheap_pointer(h, idx)` reads it. -/
def view : ℕ → Option N := fun i => h.slots (dBinheapPointer i)

/-- `*d_binheap_pointer(h, idx) = x`. -/
def setSlot (idx : ℕ) (x : N) : DBinheap N :=
  { h with slots := Function.update h.slots (dBinheapPointer idx) (some x) }

/-- `x->chn_idx = idx`. -/
def setChnIdx [DecidableEq N] (x : N) (idx : ℕ) : DBinheap N :=
  { h with chnIdx := Function.update h.chnIdx x idx }

/-- `h->d_bh_nodes_cnt = n`. -/
def setNodesCnt (n : ℕ) : DBinheap N := { h with nodesCnt := n }

/-- One more pointer array, with the index arrays it needs, and the high-water mark past it. -/
def grown (fs : List DbhFrag) : DBinheap N :=
  { h with frags := fs ++ h.frags, hwm := h.hwm + dbhSize }

@[simp] theorem setSlot_nodesCnt (i : ℕ) (x : N) : (h.setSlot i x).nodesCnt = h.nodesCnt := rfl
@[simp] theorem setSlot_hwm (i : ℕ) (x : N) : (h.setSlot i x).hwm = h.hwm := rfl
@[simp] theorem setSlot_frags (i : ℕ) (x : N) : (h.setSlot i x).frags = h.frags := rfl
@[simp] theorem setSlot_chnIdx (i : ℕ) (x : N) : (h.setSlot i x).chnIdx = h.chnIdx := rfl
@[simp] theorem setChnIdx_nodesCnt [DecidableEq N] (x : N) (i : ℕ) : (h.setChnIdx x i).nodesCnt = h.nodesCnt :=
  rfl
@[simp] theorem setChnIdx_hwm [DecidableEq N] (x : N) (i : ℕ) : (h.setChnIdx x i).hwm = h.hwm := rfl
@[simp] theorem setChnIdx_frags [DecidableEq N] (x : N) (i : ℕ) : (h.setChnIdx x i).frags = h.frags := rfl
@[simp] theorem setChnIdx_slots [DecidableEq N] (x : N) (i : ℕ) : (h.setChnIdx x i).slots = h.slots := rfl
@[simp] theorem setChnIdx_chnIdx [DecidableEq N] (x : N) (i : ℕ) :
    (h.setChnIdx x i).chnIdx = Function.update h.chnIdx x i := rfl
@[simp] theorem setChnIdx_view [DecidableEq N] (x : N) (i : ℕ) : (h.setChnIdx x i).view = h.view := rfl
@[simp] theorem setNodesCnt_nodesCnt (n : ℕ) : (h.setNodesCnt n).nodesCnt = n := rfl
@[simp] theorem setNodesCnt_hwm (n : ℕ) : (h.setNodesCnt n).hwm = h.hwm := rfl
@[simp] theorem setNodesCnt_frags (n : ℕ) : (h.setNodesCnt n).frags = h.frags := rfl
@[simp] theorem setNodesCnt_chnIdx (n : ℕ) : (h.setNodesCnt n).chnIdx = h.chnIdx := rfl
@[simp] theorem setNodesCnt_view (n : ℕ) : (h.setNodesCnt n).view = h.view := rfl
@[simp] theorem grown_nodesCnt (fs : List DbhFrag) : (h.grown fs).nodesCnt = h.nodesCnt := rfl
@[simp] theorem grown_hwm (fs : List DbhFrag) : (h.grown fs).hwm = h.hwm + dbhSize := rfl
@[simp] theorem grown_frags (fs : List DbhFrag) : (h.grown fs).frags = fs ++ h.frags := rfl
@[simp] theorem grown_slots (fs : List DbhFrag) : (h.grown fs).slots = h.slots := rfl
@[simp] theorem grown_chnIdx (fs : List DbhFrag) : (h.grown fs).chnIdx = h.chnIdx := rfl
@[simp] theorem grown_view (fs : List DbhFrag) : (h.grown fs).view = h.view := rfl

end DBinheap

section Grow

variable {N : Type*}

/-- An index array `d_binheap_grow` allocates only at its first use. -/
def dbhFirstUse (first : Bool) (f : DbhFrag) : List DbhFrag := if first then [f] else []

/-- `d_binheap_grow`. `allocOk k` says whether the `k`-th `D_ALLOC` of the call succeeds; a
failed call frees what it allocated and leaves the heap as it was. -/
def dBinheapGrow (allocOk : ℕ → Bool) (h : DBinheap N) : Except ℤ (DBinheap N) :=
  if h.hwm = 0 then
    -- first use of single indirect
    if allocOk 0 then .ok (h.grown [.nodes1]) else .error (-derNomem)
  else
    let hwm := h.hwm - dbhSize
    if hwm < dbhSize * dbhSize then
      -- not filled double indirect: `frag2`, then `d_bh_nodes2` at its first use
      if !allocOk 0 || (hwm == 0 && !allocOk 1) then .error (-derNomem)
      else .ok (h.grown (dbhFirstUse (hwm == 0) .nodes2 ++ [.nodes2At (hwm >>> dbhShift)]))
    else
      let hwm := hwm - dbhSize * dbhSize
      -- filled triple indirect
      if hwm ≥ dbhSize * dbhSize * dbhSize then .error (-derNomem)
      else
        -- `frag2`, then `frag1` at the first use of a 2nd level index, then `d_bh_nodes3` at
        -- its first use
        let first1 := (hwm >>> dbhShift) &&& dbhMask == 0
        if !allocOk 0 || (first1 && !allocOk 1) ||
            (hwm == 0 && !allocOk (if first1 then 2 else 1)) then .error (-derNomem)
        else .ok (h.grown (dbhFirstUse (hwm == 0) .nodes3 ++
          dbhFirstUse first1 (.nodes3At (hwm >>> (2 * dbhShift))) ++
          [.nodes3At2 (hwm >>> (2 * dbhShift)) ((hwm >>> dbhShift) &&& dbhMask)]))

/-- A grow that succeeds adds pointer arrays and nothing else. -/
theorem dBinheapGrow_eq_grown {allocOk : ℕ → Bool} {h h' : DBinheap N}
    (hg : dBinheapGrow allocOk h = .ok h') : ∃ fs, h' = h.grown fs := by
  unfold dBinheapGrow at hg
  dsimp only at hg
  split_ifs at hg
  all_goals exact ⟨_, (Except.ok.inj hg).symm⟩

/-- A grow fails with `-DER_NOMEM` only. -/
theorem dBinheapGrow_error {allocOk : ℕ → Bool} {h : DBinheap N} {rc : ℤ}
    (hg : dBinheapGrow allocOk h = .error rc) : rc = -derNomem := by
  unfold dBinheapGrow at hg
  dsimp only at hg
  split_ifs at hg
  all_goals exact (Except.error.inj hg).symm

/-- A grow that succeeds adds one array of `DBH_SIZE` entries. -/
theorem dBinheapGrow_hwm {allocOk : ℕ → Bool} {h h' : DBinheap N}
    (hg : dBinheapGrow allocOk h = .ok h') : h'.hwm = h.hwm + dbhSize := by
  obtain ⟨fs, rfl⟩ := dBinheapGrow_eq_grown hg
  rfl

/-- The preallocation loop of `d_binheap_create_inplace`: grow until `count` positions are
allocated; `allocOk k` is the allocation oracle of the `k`-th grow. -/
def dBinheapPrealloc (count : ℕ) (allocOk : ℕ → ℕ → Bool) (k : ℕ) (h : DBinheap N) :
    Except ℤ (DBinheap N) :=
  if h.hwm < count then
    match hg : dBinheapGrow (allocOk k) h with
    | .error rc => .error rc
    | .ok h' => dBinheapPrealloc count allocOk (k + 1) h'
  else .ok h
termination_by count - h.hwm
decreasing_by
  have := dBinheapGrow_hwm hg
  have : 0 < dbhSize := by decide
  omega

/-- `d_binheap_create_inplace`: an empty heap with `count` positions preallocated. The nodes'
`chn_idx` fields are whatever they hold. -/
def dBinheapCreateInplace (count : ℕ) (allocOk : ℕ → ℕ → Bool) (chnIdx : N → ℕ) :
    Except ℤ (DBinheap N) :=
  dBinheapPrealloc count allocOk 0 ⟨0, 0, [], fun _ => none, chnIdx⟩

end Grow

section Ops

variable {N : Type*} [DecidableEq N]

/-- The loop of `d_binheap_bubble` moving `e` up from `curIdx`: a parent that does not compare
below `e` moves down into the hole. Returns the heap and whether anything moved. -/
def dBinheapBubbleLoop (hopCompare : N → N → Bool) (e : N) (h : DBinheap N) (curIdx : ℕ)
    (didSth : Bool) : DBinheap N × Bool :=
  if 0 < curIdx then
    let parentIdx := (curIdx - 1) >>> 1
    match h.view parentIdx with
    | none => (h, didSth)
    | some parent =>
      if hopCompare parent e then ((h.setChnIdx e curIdx).setSlot curIdx e, didSth)
      else
        dBinheapBubbleLoop hopCompare e ((h.setChnIdx parent curIdx).setSlot curIdx parent)
          parentIdx true
  else ((h.setChnIdx e curIdx).setSlot curIdx e, didSth)
termination_by curIdx
decreasing_by
  rw [Nat.shiftRight_eq_div_pow]
  omega

/-- `d_binheap_bubble`. -/
def dBinheapBubble (hopCompare : N → N → Bool) (h : DBinheap N) (e : N) : DBinheap N × Bool :=
  dBinheapBubbleLoop hopCompare e h (h.chnIdx e) false

/-- The child `d_binheap_sink` compares against: the second child when it compares below the
first. -/
def dBinheapSinkChild (hopCompare : N → N → Bool) (h : DBinheap N) (n childIdx : ℕ)
    (child : N) : ℕ × N :=
  let child2Idx := childIdx + 1
  if child2Idx < n then
    match h.view child2Idx with
    | none => (childIdx, child)
    | some child2 => if hopCompare child2 child then (child2Idx, child2) else (childIdx, child)
  else (childIdx, child)

omit [DecidableEq N] in
theorem dBinheapSinkChild_fst (hopCompare : N → N → Bool) (h : DBinheap N) (n childIdx : ℕ)
    (child : N) :
    (dBinheapSinkChild hopCompare h n childIdx child).1 = childIdx ∨
      (dBinheapSinkChild hopCompare h n childIdx child).1 = childIdx + 1 := by
  unfold dBinheapSinkChild
  dsimp only
  split_ifs
  · split
    · exact .inl rfl
    · split_ifs
      · exact .inr rfl
      · exact .inl rfl
  · exact .inl rfl

/-- The loop of `d_binheap_sink` moving `e` down from `curIdx` among the first `n` positions:
the smaller child moves up into the hole while it does not compare above `e`. -/
def dBinheapSinkLoop (hopCompare : N → N → Bool) (e : N) (n : ℕ) (h : DBinheap N)
    (curIdx : ℕ) (didSth : Bool) : DBinheap N × Bool :=
  if curIdx < n then
    let childIdx := (curIdx <<< 1) + 1
    if childIdx ≥ n then ((h.setChnIdx e curIdx).setSlot curIdx e, didSth)
    else
      match h.view childIdx with
      | none => (h, didSth)
      | some child =>
        let sel := dBinheapSinkChild hopCompare h n childIdx child
        if hopCompare e sel.2 then ((h.setChnIdx e curIdx).setSlot curIdx e, didSth)
        else
          dBinheapSinkLoop hopCompare e n ((h.setChnIdx sel.2 curIdx).setSlot curIdx sel.2)
            sel.1 true
  else ((h.setChnIdx e curIdx).setSlot curIdx e, didSth)
termination_by n - curIdx
decreasing_by
  have := dBinheapSinkChild_fst hopCompare h n ((curIdx <<< 1) + 1) child
  have : curIdx <<< 1 = 2 * curIdx := by rw [Nat.shiftLeft_eq, Nat.pow_one, Nat.mul_comm]
  omega

/-- `d_binheap_sink`. -/
def dBinheapSink (hopCompare : N → N → Bool) (h : DBinheap N) (e : N) : DBinheap N × Bool :=
  dBinheapSinkLoop hopCompare e h.nodesCnt h (h.chnIdx e) false

/-- `d_binheap_insert`: the heap after the call and the call's return code. `allocOk` is the
allocation oracle of the grow the call may make, and `enterRc` what `hop_enter` returns (0 when
there is none). -/
def dBinheapInsert (hopCompare : N → N → Bool) (allocOk : ℕ → Bool) (enterRc : ℤ)
    (h : DBinheap N) (e : N) : DBinheap N × ℤ :=
  let newIdx := h.nodesCnt
  match (if newIdx = h.hwm then dBinheapGrow allocOk h else .ok h) with
  | .error rc => (h, rc)
  | .ok h =>
    if enterRc ≠ 0 then (h, enterRc)
    else
      let h := ((h.setChnIdx e newIdx).setSlot newIdx e).setNodesCnt (h.nodesCnt + 1)
      ((dBinheapBubble hopCompare h e).1, 0)

/-- `d_binheap_remove_locked`: the last node fills the hole of `e` and moves up or, if it does
not, down; `e` is poisoned. -/
def dBinheapRemoveLocked (hopCompare : N → N → Bool) (h : DBinheap N) (e : N) :
    DBinheap N :=
  let curIdx := h.chnIdx e
  let n := h.nodesCnt - 1
  match h.view n with
  | none => h
  | some last =>
    let h := h.setNodesCnt n
    let h :=
      if last = e then h
      else
        let h := (h.setChnIdx last curIdx).setSlot curIdx last
        let r := dBinheapBubble hopCompare h last
        if r.2 then r.1 else (dBinheapSink hopCompare r.1 last).1
    h.setChnIdx e dbhPoison

/-- `d_binheap_find_locked` and `d_binheap_find`. -/
def dBinheapFind (h : DBinheap N) (idx : ℕ) : Option N :=
  if idx ≥ h.nodesCnt then none else h.view idx

/-- `d_binheap_remove_root`: the heap after the call and the node removed, if any. -/
def dBinheapRemoveRoot (hopCompare : N → N → Bool) (h : DBinheap N) : DBinheap N × Option N :=
  match dBinheapFind h 0 with
  | none => (h, none)
  | some e => (dBinheapRemoveLocked hopCompare h e, some e)

end Ops

/-! ## The pointer arrays -/

section Layout

variable {N : Type*}

theorem dbhSize_eq : dbhSize = 512 := rfl

theorem dbhCapacity_eq : dbhCapacity = 512 + 512 * 512 + 512 * 512 * 512 := rfl

theorem shiftRight_dbhShift (x : ℕ) : x >>> dbhShift = x / 512 := Nat.shiftRight_eq_div_pow x 9

theorem shiftRight_two_dbhShift (x : ℕ) : x >>> (2 * dbhShift) = x / (512 * 512) :=
  Nat.shiftRight_eq_div_pow x 18

theorem and_dbhMask (x : ℕ) : x &&& dbhMask = x % 512 := Nat.and_two_pow_sub_one_eq_mod x 9

/-- `d_binheap_pointer` with its shifts and masks as quotients and remainders. -/
theorem dBinheapPointer_eq (idx : ℕ) :
    dBinheapPointer idx =
      if idx < 512 then .one idx
      else if idx - 512 < 512 * 512 then .two ((idx - 512) / 512) ((idx - 512) % 512)
      else .three ((idx - 512 - 512 * 512) / (512 * 512)) ((idx - 512 - 512 * 512) / 512 % 512)
        ((idx - 512 - 512 * 512) % 512) := by
  unfold dBinheapPointer
  dsimp only
  rw [dbhSize_eq]
  simp only [shiftRight_dbhShift, shiftRight_two_dbhShift, and_dbhMask]

/-- Distinct positions have distinct entries: each range is laid out by the digits of the
position in base 512. -/
theorem dBinheapPointer_injective : Function.Injective dBinheapPointer := by
  intro i j hij
  rw [dBinheapPointer_eq, dBinheapPointer_eq] at hij
  split_ifs at hij <;>
    simp only [DbhSlot.one.injEq, DbhSlot.two.injEq, DbhSlot.three.injEq] at hij <;>
    omega

/-- A write through `d_binheap_pointer` changes the node at that position only. -/
theorem DBinheap.view_setSlot (h : DBinheap N) (i : ℕ) (x : N) :
    (h.setSlot i x).view = Function.update h.view i (some x) :=
  Function.update_comp_eq_of_injective h.slots dBinheapPointer_injective i (some x)

/-- What `d_binheap_grow` keeps: whole arrays below the capacity, no more nodes than positions,
and every entry below the high-water mark reached through allocated pointer arrays. -/
structure DBinheap.Layout (h : DBinheap N) : Prop where
  hwm_mod : h.hwm % dbhSize = 0
  hwm_le : h.hwm ≤ dbhCapacity
  cnt_le : h.nodesCnt ≤ h.hwm
  allocated : ∀ i < h.hwm, ∀ f ∈ (dBinheapPointer i).frags, f ∈ h.frags

namespace DBinheap.Layout

variable {h h' : DBinheap N}

/-- Growing by arrays that reach the next `DBH_SIZE` positions keeps the layout. -/
theorem grown (hl : h.Layout) {fs : List DbhFrag} (hcap : h.hwm + 512 ≤ dbhCapacity)
    (hnew : ∀ i, h.hwm ≤ i → i < h.hwm + 512 → ∀ f ∈ (dBinheapPointer i).frags,
      f ∈ fs ++ h.frags) :
    (h.grown fs).Layout := by
  have hmod := hl.hwm_mod
  have hcnt := hl.cnt_le
  rw [dbhSize_eq] at hmod
  refine ⟨?_, ?_, ?_, fun i hi f hf => ?_⟩
  · rw [DBinheap.grown_hwm, dbhSize_eq]
    omega
  · rw [DBinheap.grown_hwm, dbhSize_eq]
    exact hcap
  · rw [DBinheap.grown_hwm, DBinheap.grown_nodesCnt]
    omega
  · rw [DBinheap.grown_hwm, dbhSize_eq] at hi
    rw [DBinheap.grown_frags]
    by_cases hold : i < h.hwm
    · exact List.mem_append_right _ (hl.allocated i hold f hf)
    · exact hnew i (by omega) hi f hf

/-- The arrays on the way to a position of the double indirect range. -/
theorem frags_two {i : ℕ} (hlo : 512 ≤ i) (hhi : (i - 512) / 512 < 512) :
    (dBinheapPointer i).frags = [.nodes2, .nodes2At ((i - 512) / 512)] := by
  rw [dBinheapPointer_eq, if_neg (by omega), if_pos (by omega)]
  rfl

/-- The arrays on the way to a position of the triple indirect range. -/
theorem frags_three {i : ℕ} (hlo : 512 + 512 * 512 ≤ i) :
    (dBinheapPointer i).frags = [.nodes3, .nodes3At ((i - 512 - 512 * 512) / (512 * 512)),
      .nodes3At2 ((i - 512 - 512 * 512) / (512 * 512)) ((i - 512 - 512 * 512) / 512 % 512)] := by
  rw [dBinheapPointer_eq, if_neg (by omega), if_neg (by omega)]
  rfl

/-- `d_bh_nodes2` is allocated once the double indirect range is in use. -/
theorem nodes2_mem (hl : h.Layout) (hh : 512 < h.hwm) : DbhFrag.nodes2 ∈ h.frags :=
  hl.allocated 512 hh _ (by rw [frags_two (Nat.le_refl _) (by decide)]; exact List.mem_cons_self)

/-- `d_bh_nodes3` is allocated once the triple indirect range is in use. -/
theorem nodes3_mem (hl : h.Layout) (hh : 512 + 512 * 512 < h.hwm) : DbhFrag.nodes3 ∈ h.frags :=
  hl.allocated (512 + 512 * 512) hh _ (by rw [frags_three (Nat.le_refl _)]; exact List.mem_cons_self)

/-- A 2nd level index of the triple indirect range is allocated once one of its arrays is. -/
theorem nodes3At_mem (hl : h.Layout) (hh : 512 + 512 * 512 ≤ h.hwm)
    (hfirst : (h.hwm - 512 - 512 * 512) / 512 % 512 ≠ 0) :
    DbhFrag.nodes3At ((h.hwm - 512 - 512 * 512) / (512 * 512)) ∈ h.frags := by
  have hq : (h.hwm - 1 - 512 - 512 * 512) / (512 * 512) =
      (h.hwm - 512 - 512 * 512) / (512 * 512) := by omega
  have := hl.allocated (h.hwm - 1) (by omega) (.nodes3At ((h.hwm - 1 - 512 - 512 * 512) /
    (512 * 512))) (by rw [frags_three (i := h.hwm - 1) (by omega)]; exact List.mem_cons_of_mem _ List.mem_cons_self)
  rwa [hq] at this

/-- An array of the double indirect range, with `d_bh_nodes2` allocated. -/
theorem grown_two (hl : h.Layout) (hlo : 512 ≤ h.hwm) (hhi : h.hwm - 512 < 512 * 512)
    {fs : List DbhFrag} (hn2 : DbhFrag.nodes2 ∈ fs ++ h.frags)
    (hat : DbhFrag.nodes2At ((h.hwm - 512) / 512) ∈ fs) : (h.grown fs).Layout := by
  have hmod := hl.hwm_mod
  rw [dbhSize_eq] at hmod
  refine hl.grown (by rw [dbhCapacity_eq]; omega) fun i hlo' hi f hf => ?_
  -- the position shares its array with the high-water mark
  have hq : (i - 512) / 512 = (h.hwm - 512) / 512 := by omega
  have hB : (h.hwm - 512) / 512 < 512 := by omega
  rw [frags_two (Nat.le_trans hlo hlo') (lt_of_eq_of_lt hq hB)] at hf
  simp only [List.mem_cons, List.not_mem_nil, or_false, hq] at hf
  rcases hf with rfl | rfl
  · exact hn2
  · exact List.mem_append_left _ hat

/-- An array of the triple indirect range, with `d_bh_nodes3` and its 2nd level index
allocated. -/
theorem grown_three (hl : h.Layout) (hlo : 512 + 512 * 512 ≤ h.hwm)
    (hhi : h.hwm - 512 - 512 * 512 < 512 * 512 * 512) {fs : List DbhFrag}
    (hn3 : DbhFrag.nodes3 ∈ fs ++ h.frags)
    (hat : DbhFrag.nodes3At ((h.hwm - 512 - 512 * 512) / (512 * 512)) ∈ fs ++ h.frags)
    (hat2 : DbhFrag.nodes3At2 ((h.hwm - 512 - 512 * 512) / (512 * 512))
      ((h.hwm - 512 - 512 * 512) / 512 % 512) ∈ fs) : (h.grown fs).Layout := by
  have hmod := hl.hwm_mod
  rw [dbhSize_eq] at hmod
  refine hl.grown (by rw [dbhCapacity_eq]; omega) fun i hlo' hi f hf => ?_
  rw [frags_three (i := i) (by omega)] at hf
  have hq : (i - 512 - 512 * 512) / (512 * 512) = (h.hwm - 512 - 512 * 512) / (512 * 512) := by
    omega
  have hr : (i - 512 - 512 * 512) / 512 % 512 = (h.hwm - 512 - 512 * 512) / 512 % 512 := by
    omega
  simp only [List.mem_cons, List.not_mem_nil, or_false, hq, hr] at hf
  rcases hf with rfl | rfl | rfl
  · exact hn3
  · exact hat
  · exact List.mem_append_left _ hat2

/-- `d_binheap_grow` keeps the layout: the new array covers the next `DBH_SIZE` positions, and
the index arrays above it were allocated at their first use or are allocated now. -/
theorem grow {allocOk : ℕ → Bool} (hl : h.Layout) (hg : dBinheapGrow allocOk h = .ok h') :
    h'.Layout := by
  have hmod := hl.hwm_mod
  have hle := hl.hwm_le
  rw [dbhSize_eq] at hmod
  rw [dbhCapacity_eq] at hle
  unfold dBinheapGrow at hg
  dsimp only at hg
  rw [dbhSize_eq] at hg
  simp only [shiftRight_dbhShift, shiftRight_two_dbhShift, and_dbhMask, beq_iff_eq] at hg
  split_ifs at hg with h0 _ h1 _ hcap _ <;> cases hg
  · -- first use of single indirect
    refine hl.grown (by rw [dbhCapacity_eq]; omega) fun i _ hi f hf => ?_
    rw [dBinheapPointer_eq, if_pos (show i < 512 by omega)] at hf
    exact List.mem_append_left _ (by simpa [DbhSlot.frags] using hf)
  · -- the double indirect range: `d_bh_nodes2` at its first use or allocated before
    refine hl.grown_two (by omega) h1 ?_ (by simp)
    by_cases hm : h.hwm - 512 = 0
    · simp [dbhFirstUse, hm]
    · exact List.mem_append_right _ (hl.nodes2_mem (by omega))
  -- the triple indirect range, split on the allocation `d_bh_nodes3` takes: `d_bh_nodes3` and
  -- the 2nd level index at their first use or allocated before
  all_goals
    refine hl.grown_three (by omega) (by omega) ?_ ?_ (by simp)
    · by_cases hm : h.hwm - 512 - 512 * 512 = 0
      · simp [dbhFirstUse, hm]
      · exact List.mem_append_right _ (hl.nodes3_mem (by omega))
    · by_cases hfirst : (h.hwm - 512 - 512 * 512) / 512 % 512 = 0
      · simp [dbhFirstUse, hfirst]
      · exact List.mem_append_right _ (hl.nodes3At_mem (by omega) hfirst)

/-- The preallocation loop keeps the layout, changes no node and stops with `count` positions
allocated. Induction along the loop. -/
theorem prealloc {count k : ℕ} {allocOk : ℕ → ℕ → Bool} (hl : h.Layout)
    (hp : dBinheapPrealloc count allocOk k h = .ok h') :
    h'.Layout ∧ count ≤ h'.hwm ∧ h'.nodesCnt = h.nodesCnt ∧ h'.view = h.view ∧
      h'.chnIdx = h.chnIdx := by
  fun_induction dBinheapPrealloc count allocOk k h with
  | case1 => cases hp
  | case2 k h _ h₁ hg ih =>
    -- one grow, then the rest of the loop
    obtain ⟨fs, rfl⟩ := dBinheapGrow_eq_grown hg
    obtain ⟨hl', hc, hn, hv, hi⟩ := ih (hl.grow hg) hp
    exact ⟨hl', hc, hn, hv, hi⟩
  | case3 k h hge =>
    cases hp
    exact ⟨hl, Nat.le_of_not_lt hge, rfl, rfl, rfl⟩

end DBinheap.Layout

end Layout

end Daos.Gurt

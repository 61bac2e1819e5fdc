import Mathlib
import Daos.Vos.Ilog.Basic

/-!
# The LRU array (`vos/lru_array.h`, `vos/lru_array.c`)

An LRU array hands out entries by index. Its `la_count` indices are split over `la_array_nr`
sub-arrays of `la_idx_mask + 1` entries each; index `idx` is entry `idx & la_idx_mask` of
sub-array `idx >> la_array_shift`. A sub-array's table, once allocated, keeps two circular
doubly-linked lists through the entries' `le_prev_idx` and `le_next_idx`: the free entries,
from `ls_free`, and the entries in use, from `ls_lru`, the least recently used first. A head of
`LRU_NO_IDX` is an empty list, and a free entry holds key `0`. With one sub-array the array
evicts by itself: when no entry is free, `lrua_find_free` reuses the least recently used one.
With several, eviction is manual: `la_free_sub` lists the allocated sub-arrays with a free
entry, `la_unused_sub` those without a table, and `lrua_array_aggregate` frees the tables of
sub-arrays with no entry in use.

**What is modelled.** Every function of `lru_array.h` and `lru_array.c` that the operations
`lrua_allocx`, `lrua_lookupx`, `lrua_peekx`, `lrua_evictx`, `lrua_allocx_inplace`,
`lrua_array_aggregate` and `lrua_array_alloc` reach, under the source's names. Tables and the
array of sub-arrays are functions from index; `NULL` is `none`. The links `d_list_t` of the
sub-arrays are the two lists `la_free_sub` and `la_unused_sub` of their indices, in list order.
Counters are natural numbers: the arguments are `uint32_t` and no computation leaves that range.
Payloads and the callbacks are not modelled: the callbacks do not use the array, so the
`la_evicting` count that `evict_cb` raises around its call is back to its value after it, and
an `evict_cb` changes nothing the model holds. Allocation may fail: `memOk` says whether
`D_ALLOC` returns memory. A `D_ASSERT` does not change the flow of a function; the refinement
proves that the asserted facts hold.
-/

namespace Daos.Vos.Lru

/-- `LRU_NO_IDX`, the head of an empty list. -/
def lruNoIdx : ℕ := 0xffffffff

/-- `LRU_FLAG_EVICT_MANUAL`. -/
def lruFlagEvictManual : ℕ := 1

/-- `LRU_FLAG_REUSE_UNIQUE`. -/
def lruFlagReuseUnique : ℕ := 2

/-- `DER_BUSY`. -/
def derBusy : ℤ := 1012

/-- `struct lru_entry` without its payload. -/
structure LruEntry where
  leKey : UInt64
  leNextIdx : ℕ
  lePrevIdx : ℕ

instance : Inhabited LruEntry := ⟨⟨0, 0, 0⟩⟩

/-- `struct lru_sub`: the heads of its two lists, its index in the array, and its table. -/
structure LruSub where
  lsLru : ℕ
  lsFree : ℕ
  lsArrayIdx : ℕ
  lsTable : Option (ℕ → LruEntry)

/-- The head a list operation is given: `&sub->ls_lru` or `&sub->ls_free`. -/
inductive LruHead
  | lru
  | free
deriving DecidableEq, Repr

/-- `struct lru_array` without payload size, callbacks and callback argument. -/
structure LruArray where
  laCount : ℕ
  laEvicting : ℕ
  laFlags : ℕ
  laArrayNr : ℕ
  laArrayShift : ℕ
  laIdxMask : ℕ
  laFreeSub : List ℕ
  laUnusedSub : List ℕ
  laSub : ℕ → LruSub

/-! ### Tables -/

/-- `entries[i].le_next_idx = v`. -/
def linkNext (t : ℕ → LruEntry) (i v : ℕ) : ℕ → LruEntry :=
  Function.update t i { t i with leNextIdx := v }

/-- `entries[i].le_prev_idx = v`. -/
def linkPrev (t : ℕ → LruEntry) (i v : ℕ) : ℕ → LruEntry :=
  Function.update t i { t i with lePrevIdx := v }

/-- `entries[i].le_key = k`. -/
def setKey (t : ℕ → LruEntry) (i : ℕ) (k : UInt64) : ℕ → LruEntry :=
  Function.update t i { t i with leKey := k }

/-- The forward links of a table. -/
def nextOf (t : ℕ → LruEntry) (i : ℕ) : ℕ := (t i).leNextIdx

/-- The backward links of a table. -/
def prevOf (t : ℕ → LruEntry) (i : ℕ) : ℕ := (t i).lePrevIdx

section Table

variable (t : ℕ → LruEntry) (i v j : ℕ) (k : UInt64)

@[simp] theorem linkNext_leNextIdx :
    (linkNext t i v j).leNextIdx = if j = i then v else (t j).leNextIdx := by
  by_cases h : j = i <;> simp [linkNext, h, Function.update_of_ne]

@[simp] theorem linkNext_lePrevIdx : (linkNext t i v j).lePrevIdx = (t j).lePrevIdx := by
  by_cases h : j = i <;> simp [linkNext, h, Function.update_of_ne]

@[simp] theorem linkNext_leKey : (linkNext t i v j).leKey = (t j).leKey := by
  by_cases h : j = i <;> simp [linkNext, h, Function.update_of_ne]

@[simp] theorem linkPrev_leNextIdx : (linkPrev t i v j).leNextIdx = (t j).leNextIdx := by
  by_cases h : j = i <;> simp [linkPrev, h, Function.update_of_ne]

@[simp] theorem linkPrev_lePrevIdx :
    (linkPrev t i v j).lePrevIdx = if j = i then v else (t j).lePrevIdx := by
  by_cases h : j = i <;> simp [linkPrev, h, Function.update_of_ne]

@[simp] theorem linkPrev_leKey : (linkPrev t i v j).leKey = (t j).leKey := by
  by_cases h : j = i <;> simp [linkPrev, h, Function.update_of_ne]

@[simp] theorem setKey_leNextIdx : (setKey t i k j).leNextIdx = (t j).leNextIdx := by
  by_cases h : j = i <;> simp [setKey, h, Function.update_of_ne]

@[simp] theorem setKey_lePrevIdx : (setKey t i k j).lePrevIdx = (t j).lePrevIdx := by
  by_cases h : j = i <;> simp [setKey, h, Function.update_of_ne]

@[simp] theorem setKey_leKey : (setKey t i k j).leKey = if j = i then k else (t j).leKey := by
  by_cases h : j = i <;> simp [setKey, h, Function.update_of_ne]

theorem linkNext_of_ne {i j : ℕ} (h : j ≠ i) : linkNext t i v j = t j :=
  Function.update_of_ne h _ _

theorem linkPrev_of_ne {i j : ℕ} (h : j ≠ i) : linkPrev t i v j = t j :=
  Function.update_of_ne h _ _

@[simp] theorem nextOf_setKey : nextOf (setKey t i k) = nextOf t := by
  funext j
  simp [nextOf]

@[simp] theorem prevOf_setKey : prevOf (setKey t i k) = prevOf t := by
  funext j
  simp [prevOf]

end Table

/-! ### Sub-arrays -/

namespace LruSub

/-- `*head`. -/
def head (sub : LruSub) : LruHead → ℕ
  | .lru => sub.lsLru
  | .free => sub.lsFree

/-- `*head = v`. -/
def setHead (sub : LruSub) : LruHead → ℕ → LruSub
  | .lru, v => { sub with lsLru := v }
  | .free, v => { sub with lsFree := v }

/-- `sub->ls_table[idx]`; a table that is not there reads as zeros. -/
def entry (sub : LruSub) (idx : ℕ) : LruEntry :=
  match sub.lsTable with
  | some t => t idx
  | none => default

/-- Write the table of the sub-array. -/
def modTable (sub : LruSub) (f : (ℕ → LruEntry) → ℕ → LruEntry) : LruSub :=
  { sub with lsTable := sub.lsTable.map f }

@[simp] theorem head_lru (sub : LruSub) : sub.head .lru = sub.lsLru := rfl

@[simp] theorem head_free (sub : LruSub) : sub.head .free = sub.lsFree := rfl

@[simp] theorem head_setHead (sub : LruSub) (h h' : LruHead) (v : ℕ) :
    (sub.setHead h v).head h' = if h' = h then v else sub.head h' := by
  cases h <;> cases h' <;> rfl

@[simp] theorem setHead_lsTable (sub : LruSub) (h : LruHead) (v : ℕ) :
    (sub.setHead h v).lsTable = sub.lsTable := by
  cases h <;> rfl

@[simp] theorem setHead_lsArrayIdx (sub : LruSub) (h : LruHead) (v : ℕ) :
    (sub.setHead h v).lsArrayIdx = sub.lsArrayIdx := by
  cases h <;> rfl

@[simp] theorem head_modTable (sub : LruSub) (f) (h : LruHead) :
    (sub.modTable f).head h = sub.head h := by
  cases h <;> rfl

@[simp] theorem modTable_lsTable (sub : LruSub) (f) :
    (sub.modTable f).lsTable = sub.lsTable.map f := rfl

@[simp] theorem modTable_lsArrayIdx (sub : LruSub) (f) :
    (sub.modTable f).lsArrayIdx = sub.lsArrayIdx := rfl

@[simp] theorem modTable_lsLru (sub : LruSub) (f) : (sub.modTable f).lsLru = sub.lsLru := rfl

@[simp] theorem modTable_lsFree (sub : LruSub) (f) : (sub.modTable f).lsFree = sub.lsFree := rfl

theorem entry_of_lsTable {sub : LruSub} {t : ℕ → LruEntry} (h : sub.lsTable = some t) (i : ℕ) :
    sub.entry i = t i := by
  simp [entry, h]

/-- The list surgery of `lrua_remove_entry`: unlink entry `idx` from the list at `head`. -/
def removeEntry (sub : LruSub) (head : LruHead) (idx : ℕ) : LruSub :=
  let entry := sub.entry idx
  if entry.lePrevIdx = idx then
    -- the last entry in the list
    sub.setHead head lruNoIdx
  else
    let sub := sub.modTable fun t =>
      linkPrev (linkNext t entry.lePrevIdx entry.leNextIdx) entry.leNextIdx entry.lePrevIdx
    if idx = sub.head head then sub.setHead head entry.leNextIdx else sub

@[simp] theorem removeEntry_lsArrayIdx (sub : LruSub) (head : LruHead) (idx : ℕ) :
    (sub.removeEntry head idx).lsArrayIdx = sub.lsArrayIdx := by
  unfold removeEntry
  dsimp only
  split_ifs <;> simp

@[simp] theorem removeEntry_lsTable_isSome (sub : LruSub) (head : LruHead) (idx : ℕ) :
    (sub.removeEntry head idx).lsTable.isSome = sub.lsTable.isSome := by
  unfold removeEntry
  dsimp only
  split_ifs <;> simp

/-- Unlinking from the LRU list leaves the free list's head alone. -/
@[simp] theorem removeEntry_lsFree_lru (sub : LruSub) (idx : ℕ) :
    (sub.removeEntry .lru idx).lsFree = sub.lsFree := by
  unfold removeEntry
  dsimp only
  split_ifs <;> rfl

end LruSub

/-- `lrua_insert`: link entry `idx` into the list at `head`, just before the head; with
`append` it is the new tail, else the new head. -/
def lruaInsert (sub : LruSub) (head : LruHead) (idx : ℕ) (append : Bool) : LruSub :=
  if sub.head head = lruNoIdx then
    (sub.setHead head idx).modTable fun t => linkNext (linkPrev t idx idx) idx idx
  else
    let next := sub.head head
    let tail := (sub.entry next).lePrevIdx
    let sub := sub.modTable fun t =>
      linkNext (linkPrev (linkNext (linkPrev t next idx) tail idx) idx tail) idx next
    if append then sub else sub.setHead head idx

@[simp] theorem lruaInsert_lsArrayIdx (sub : LruSub) (head : LruHead) (idx : ℕ) (append : Bool) :
    (lruaInsert sub head idx append).lsArrayIdx = sub.lsArrayIdx := by
  unfold lruaInsert
  split_ifs <;> simp

@[simp] theorem lruaInsert_lsTable_isSome (sub : LruSub) (head : LruHead) (idx : ℕ)
    (append : Bool) : (lruaInsert sub head idx append).lsTable.isSome = sub.lsTable.isSome := by
  unfold lruaInsert
  split_ifs <;> simp

@[simp] theorem lruaInsert_lsFree_lru (sub : LruSub) (idx : ℕ) (append : Bool) :
    (lruaInsert sub .lru idx append).lsFree = sub.lsFree := by
  unfold lruaInsert
  split_ifs <;> rfl

/-- The head after an insert: the entry, unless it is appended to a list that is not empty. -/
theorem lruaInsert_head_self (sub : LruSub) (head : LruHead) (idx : ℕ) (append : Bool) :
    (lruaInsert sub head idx append).head head =
      if sub.head head = lruNoIdx then idx else if append then sub.head head else idx := by
  unfold lruaInsert
  split_ifs <;> simp

/-- After an insert the list is not empty. -/
theorem lruaInsert_head_ne (sub : LruSub) (head : LruHead) {idx : ℕ} (hidx : idx ≠ lruNoIdx)
    (append : Bool) : (lruaInsert sub head idx append).head head ≠ lruNoIdx := by
  unfold lruaInsert
  split_ifs with h₁ h₂ <;> simp [h₁, hidx]

/-! ### The array -/

namespace LruArray

/-- `la_flags & LRU_FLAG_EVICT_MANUAL`. -/
def evictManual (array : LruArray) : Bool := array.laFlags &&& lruFlagEvictManual != 0

/-- `la_flags & LRU_FLAG_REUSE_UNIQUE`. -/
def reuseUnique (array : LruArray) : Bool := array.laFlags &&& lruFlagReuseUnique != 0

/-- `lrua_idx2sub`, as the index of the sub-array. -/
def idx2sub (array : LruArray) (idx : ℕ) : ℕ := idx >>> array.laArrayShift

/-- `lrua_idx2ent`. -/
def idx2ent (array : LruArray) (idx : ℕ) : ℕ := idx &&& array.laIdxMask

/-- `ent2idx`: the index of entry `entIdx` of sub-array `s`. -/
def ent2idx (array : LruArray) (s entIdx : ℕ) : ℕ :=
  ((array.laSub s).lsArrayIdx <<< array.laArrayShift) + entIdx

/-- Replace sub-array `s`. -/
def setSub (array : LruArray) (s : ℕ) (sub : LruSub) : LruArray :=
  { array with laSub := Function.update array.laSub s sub }

/-- `d_list_del(&sub->ls_link)` and `d_list_del_init`: sub-array `s` leaves the list it is on. -/
def listDel (array : LruArray) (s : ℕ) : LruArray :=
  { array with laFreeSub := array.laFreeSub.erase s, laUnusedSub := array.laUnusedSub.erase s }

@[simp] theorem setSub_laSub (array : LruArray) (s : ℕ) (sub : LruSub) (s' : ℕ) :
    (array.setSub s sub).laSub s' = if s' = s then sub else array.laSub s' := by
  by_cases h : s' = s <;> simp [setSub, h, Function.update_of_ne]

@[simp] theorem setSub_laCount (array : LruArray) (s : ℕ) (sub : LruSub) :
    (array.setSub s sub).laCount = array.laCount := rfl

@[simp] theorem setSub_laEvicting (array : LruArray) (s : ℕ) (sub : LruSub) :
    (array.setSub s sub).laEvicting = array.laEvicting := rfl

@[simp] theorem setSub_laFlags (array : LruArray) (s : ℕ) (sub : LruSub) :
    (array.setSub s sub).laFlags = array.laFlags := rfl

@[simp] theorem setSub_laArrayNr (array : LruArray) (s : ℕ) (sub : LruSub) :
    (array.setSub s sub).laArrayNr = array.laArrayNr := rfl

@[simp] theorem setSub_laArrayShift (array : LruArray) (s : ℕ) (sub : LruSub) :
    (array.setSub s sub).laArrayShift = array.laArrayShift := rfl

@[simp] theorem setSub_laIdxMask (array : LruArray) (s : ℕ) (sub : LruSub) :
    (array.setSub s sub).laIdxMask = array.laIdxMask := rfl

@[simp] theorem setSub_laFreeSub (array : LruArray) (s : ℕ) (sub : LruSub) :
    (array.setSub s sub).laFreeSub = array.laFreeSub := rfl

@[simp] theorem setSub_laUnusedSub (array : LruArray) (s : ℕ) (sub : LruSub) :
    (array.setSub s sub).laUnusedSub = array.laUnusedSub := rfl

@[simp] theorem setSub_evictManual (array : LruArray) (s : ℕ) (sub : LruSub) :
    (array.setSub s sub).evictManual = array.evictManual := rfl

@[simp] theorem setSub_reuseUnique (array : LruArray) (s : ℕ) (sub : LruSub) :
    (array.setSub s sub).reuseUnique = array.reuseUnique := rfl

@[simp] theorem listDel_laSub (array : LruArray) (s : ℕ) :
    (array.listDel s).laSub = array.laSub := rfl

@[simp] theorem listDel_laFreeSub (array : LruArray) (s : ℕ) :
    (array.listDel s).laFreeSub = array.laFreeSub.erase s := rfl

@[simp] theorem listDel_laUnusedSub (array : LruArray) (s : ℕ) :
    (array.listDel s).laUnusedSub = array.laUnusedSub.erase s := rfl

@[simp] theorem listDel_laCount (array : LruArray) (s : ℕ) :
    (array.listDel s).laCount = array.laCount := rfl

@[simp] theorem listDel_laEvicting (array : LruArray) (s : ℕ) :
    (array.listDel s).laEvicting = array.laEvicting := rfl

@[simp] theorem listDel_laFlags (array : LruArray) (s : ℕ) :
    (array.listDel s).laFlags = array.laFlags := rfl

@[simp] theorem listDel_laArrayNr (array : LruArray) (s : ℕ) :
    (array.listDel s).laArrayNr = array.laArrayNr := rfl

@[simp] theorem listDel_laArrayShift (array : LruArray) (s : ℕ) :
    (array.listDel s).laArrayShift = array.laArrayShift := rfl

@[simp] theorem listDel_laIdxMask (array : LruArray) (s : ℕ) :
    (array.listDel s).laIdxMask = array.laIdxMask := rfl

@[simp] theorem listDel_evictManual (array : LruArray) (s : ℕ) :
    (array.listDel s).evictManual = array.evictManual := rfl

@[simp] theorem setSub_setSub (array : LruArray) (s : ℕ) (sub sub' : LruSub) :
    (array.setSub s sub).setSub s sub' = array.setSub s sub' := by
  simp [setSub]

theorem setSub_self (array : LruArray) (s : ℕ) : array.setSub s (array.laSub s) = array := by
  simp [setSub]

theorem setSub_listDel (array : LruArray) (s s' : ℕ) (sub : LruSub) :
    (array.setSub s sub).listDel s' = (array.listDel s').setSub s sub := rfl

end LruArray

/-- `lrua_remove_entry`: unlink entry `idx` of sub-array `s` from the list at `head`; in an
array evicted by hand, a sub-array whose free list empties leaves `la_free_sub`. -/
def lruaRemoveEntry (array : LruArray) (s : ℕ) (head : LruHead) (idx : ℕ) : LruArray :=
  let sub := (array.laSub s).removeEntry head idx
  let array := array.setSub s sub
  if head = .free ∧ sub.lsFree = lruNoIdx ∧ array.evictManual = true then array.listDel s
  else array

/-- `lrua_remove_entry` as one write of the sub-array, after the array leaves `la_free_sub`
or not. -/
theorem lruaRemoveEntry_eq (array : LruArray) (s : ℕ) (head : LruHead) (idx : ℕ) :
    lruaRemoveEntry array s head idx =
      (if head = .free ∧ ((array.laSub s).removeEntry head idx).lsFree = lruNoIdx ∧
          array.evictManual = true then array.listDel s else array).setSub s
        ((array.laSub s).removeEntry head idx) := by
  unfold lruaRemoveEntry
  dsimp only
  by_cases hc : head = .free ∧ ((array.laSub s).removeEntry head idx).lsFree = lruNoIdx ∧
    array.evictManual = true
  · rw [if_pos (by simpa using hc), if_pos hc, LruArray.setSub_listDel]
  · rw [if_neg (by simpa using hc), if_neg hc]

/-- `lrua_remove_entry` right after a write of the same sub-array. -/
theorem lruaRemoveEntry_setSub (array : LruArray) (s : ℕ) (sub : LruSub) (head : LruHead)
    (idx : ℕ) :
    lruaRemoveEntry (array.setSub s sub) s head idx =
      (if head = .free ∧ (sub.removeEntry head idx).lsFree = lruNoIdx ∧
          array.evictManual = true then array.listDel s else array).setSub s
        (sub.removeEntry head idx) := by
  rw [lruaRemoveEntry_eq]
  simp only [LruArray.setSub_laSub, LruArray.setSub_evictManual]
  split_ifs <;> simp [LruArray.setSub_listDel]

theorem lruaRemoveEntry_lru (array : LruArray) (s idx : ℕ) :
    lruaRemoveEntry array s .lru idx = array.setSub s ((array.laSub s).removeEntry .lru idx) := by
  rw [lruaRemoveEntry_eq, if_neg (by simp)]

/-- `lrua_move_to_mru`: make entry `idx` of sub-array `s` the most recently used. -/
def lruaMoveToMru (array : LruArray) (s idx : ℕ) : LruArray :=
  let sub := array.laSub s
  let entry := sub.entry idx
  if entry.leNextIdx = sub.lsLru then
    -- already the most recently used
    array
  else if sub.lsLru = idx then
    -- the order does not change in a circular list: only the head moves on
    array.setSub s { sub with lsLru := entry.leNextIdx }
  else
    let array := lruaRemoveEntry array s .lru idx
    array.setSub s (lruaInsert (array.laSub s) .lru idx true)

/-- `lrua_move_to_mru` writes sub-array `s` only. -/
theorem lruaMoveToMru_eq (array : LruArray) (s idx : ℕ) :
    lruaMoveToMru array s idx = array.setSub s
      (if ((array.laSub s).entry idx).leNextIdx = (array.laSub s).lsLru then array.laSub s
       else if (array.laSub s).lsLru = idx then
         { array.laSub s with lsLru := ((array.laSub s).entry idx).leNextIdx }
       else lruaInsert ((array.laSub s).removeEntry .lru idx) .lru idx true) := by
  unfold lruaMoveToMru
  dsimp only
  split_ifs
  · rw [LruArray.setSub_self]
  · rfl
  · rw [lruaRemoveEntry_lru]
    simp

/-- `lrua_lookup_idx`: whether index `idx` holds `key`, and the array after the lookup, which
makes the entry the most recently used when `touchMru` is set and no eviction is running. -/
def lruaLookupIdx (array : LruArray) (idx : ℕ) (key : UInt64) (touchMru : Bool) :
    Bool × LruArray :=
  if array.laCount ≤ idx then (false, array)
  else
    let s := array.idx2sub idx
    let entIdx := idx &&& array.laIdxMask
    if (array.laSub s).lsTable.isNone then (false, array)
    else if ((array.laSub s).entry entIdx).leKey = key then
      (true, if touchMru = true ∧ array.laEvicting = 0 then lruaMoveToMru array s entIdx else array)
    else (false, array)

/-- A lookup writes one sub-array at most: the count and the flags stay. -/
@[simp] theorem lruaLookupIdx_laCount (array : LruArray) (idx : ℕ) (key : UInt64)
    (touchMru : Bool) : (lruaLookupIdx array idx key touchMru).2.laCount = array.laCount := by
  unfold lruaLookupIdx
  dsimp only
  split_ifs <;> simp [lruaMoveToMru_eq]

@[simp] theorem lruaLookupIdx_evictManual (array : LruArray) (idx : ℕ) (key : UInt64)
    (touchMru : Bool) : (lruaLookupIdx array idx key touchMru).2.evictManual = array.evictManual := by
  unfold lruaLookupIdx
  dsimp only
  split_ifs <;> simp [lruaMoveToMru_eq]

/-- `lrua_lookupx`: find the entry and make it the most recently used. -/
def lruaLookupx (array : LruArray) (idx : ℕ) (key : UInt64) : Bool × LruArray :=
  lruaLookupIdx array idx key true

/-- `lrua_peekx`: find the entry and leave the array as it is. -/
def lruaPeekx (array : LruArray) (idx : ℕ) (key : UInt64) : Bool :=
  (lruaLookupIdx array idx key false).1

/-- The table the loop of `lrua_array_alloc_one` writes for `la_idx_mask = mask`: entry `idx`
links back to the index of the round before, `nr_ents - 1` for the first, and forward to
`(idx + 1) & la_idx_mask`; the table is zeroed, so every key is `0`. -/
def lruaFreshTable (mask : ℕ) (idx : ℕ) : LruEntry :=
  { leKey := 0
    leNextIdx := (idx + 1) &&& mask
    lePrevIdx := if idx = 0 then mask + 1 - 1 else idx - 1 }

/-- `lrua_array_alloc_one`: allocate the table of sub-array `s`, all its entries on the free
list in index order, and put the sub-array at the head of `la_free_sub`. -/
def lruaArrayAllocOne (memOk : Bool) (array : LruArray) (s : ℕ) : Except ℤ LruArray :=
  if !memOk then .error (-derNomem)
  else
    let array := array.listDel s
    let array := { array with laFreeSub := s :: array.laFreeSub }
    .ok (array.setSub s { array.laSub s with
      lsLru := lruNoIdx, lsFree := 0, lsTable := some (lruaFreshTable array.laIdxMask) })

theorem lruaArrayAllocOne_eq_ok {memOk : Bool} {array array' : LruArray} {s : ℕ} :
    lruaArrayAllocOne memOk array s = .ok array' ↔ memOk = true ∧
      array' = { array.listDel s with laFreeSub := s :: array.laFreeSub.erase s }.setSub s
        { array.laSub s with
          lsLru := lruNoIdx, lsFree := 0, lsTable := some (lruaFreshTable array.laIdxMask) } := by
  unfold lruaArrayAllocOne
  cases memOk <;> simp [eq_comm]

/-- The body of `sub_find_free` once the free list of sub-array `s` is known not to be empty:
its head moves to the tail of the LRU list and takes the key. -/
def subTakeFree (array : LruArray) (s : ℕ) (key : UInt64) : ℕ × LruArray :=
  let treeIdx := (array.laSub s).lsFree
  let array := lruaRemoveEntry array s .free treeIdx
  let array := array.setSub s (lruaInsert (array.laSub s) .lru treeIdx true)
  let array := array.setSub s ((array.laSub s).modTable fun t => setKey t treeIdx key)
  (array.ent2idx s treeIdx, array)

/-- `sub_find_free` past its test writes sub-array `s` once, after the array leaves
`la_free_sub` or not, and returns the index of the old head of the free list. -/
theorem subTakeFree_eq (array : LruArray) (s : ℕ) (key : UInt64) :
    subTakeFree array s key =
      (array.ent2idx s (array.laSub s).lsFree,
        (if ((array.laSub s).removeEntry .free (array.laSub s).lsFree).lsFree = lruNoIdx ∧
            array.evictManual = true then array.listDel s else array).setSub s
          ((lruaInsert ((array.laSub s).removeEntry .free (array.laSub s).lsFree) .lru
            (array.laSub s).lsFree true).modTable fun t => setKey t (array.laSub s).lsFree key)) := by
  unfold subTakeFree
  dsimp only
  rw [lruaRemoveEntry_eq]
  simp only [true_and]
  split_ifs <;> simp [LruArray.ent2idx]

/-- `sub_find_free`: take a free entry of sub-array `s`, if it has one. -/
def subFindFree (array : LruArray) (s : ℕ) (key : UInt64) : Option (ℕ × LruArray) :=
  if (array.laSub s).lsFree = lruNoIdx then none else some (subTakeFree array s key)

/-- `manual_find_free`: the first sub-array of `la_free_sub` with a free entry, else a new
table for the first unused sub-array. -/
def manualFindFree (memOk : Bool) (array : LruArray) (key : UInt64) : Except ℤ (ℕ × LruArray) :=
  match array.laFreeSub.findSome? fun s => subFindFree array s key with
  | some r => .ok r
  | none =>
    match array.laUnusedSub with
    | [] => .error (-derBusy)
    | s :: _ =>
      match lruaArrayAllocOne memOk array s with
      | .error rc => .error rc
      -- `sub_find_free` finds an entry, as `D_ASSERT(found)` says: the new table's free list
      -- starts at entry `0`
      | .ok array => .ok (subTakeFree array s key)

/-- `lrua_find_free`: a free entry, else, in an array that evicts by itself, the least recently
used entry of the only sub-array, which becomes the most recently used. -/
def lruaFindFree (memOk : Bool) (array : LruArray) (key : UInt64) : Except ℤ (ℕ × LruArray) :=
  if array.evictManual then manualFindFree memOk array key
  else
    match subFindFree array 0 key with
    | some r => .ok r
    | none =>
      let sub := array.laSub 0
      let idx := array.ent2idx 0 sub.lsLru
      let array := array.setSub 0 (sub.modTable fun t => setKey t sub.lsLru key)
      .ok (idx, array.setSub 0 { array.laSub 0 with lsLru := (sub.entry sub.lsLru).leNextIdx })

/-- `lrua_allocx`: the index of a new entry for `key`, and the array after it. -/
def lruaAllocx (memOk : Bool) (array : LruArray) (key : UInt64) : Except ℤ (ℕ × LruArray) :=
  lruaFindFree memOk array key

/-- `lrua_evictx`: if index `idx` still holds `key`, free it. -/
def lruaEvictx (array : LruArray) (idx : ℕ) (key : UInt64) : LruArray :=
  if array.laCount ≤ idx then array
  else
    let s := array.idx2sub idx
    let entIdx := array.idx2ent idx
    if (array.laSub s).lsTable.isNone then array
    else if key ≠ ((array.laSub s).entry entIdx).leKey then array
    else
      let array := array.setSub s ((array.laSub s).modTable fun t => setKey t entIdx 0)
      let array := lruaRemoveEntry array s .lru entIdx
      -- a sub-array evicted by hand whose free list was empty goes back on `la_free_sub`
      let array :=
        if (array.laSub s).lsFree = lruNoIdx ∧ array.evictManual = true then
          { array with laFreeSub := array.laFreeSub ++ [s] }
        else array
      array.setSub s (lruaInsert (array.laSub s) .free entIdx array.reuseUnique)

/-- `lrua_evictx` on an index that holds `key`: the entry leaves the LRU list for the free
list, and a sub-array evicted by hand with no free entry goes back on `la_free_sub`. -/
theorem lruaEvictx_eq {array : LruArray} {idx : ℕ} {key : UInt64} (hidx : idx < array.laCount)
    (ht : (array.laSub (array.idx2sub idx)).lsTable.isSome)
    (hkey : ((array.laSub (array.idx2sub idx)).entry (array.idx2ent idx)).leKey = key) :
    lruaEvictx array idx key =
      (if (array.laSub (array.idx2sub idx)).lsFree = lruNoIdx ∧ array.evictManual = true then
          { array with laFreeSub := array.laFreeSub ++ [array.idx2sub idx] } else array).setSub
        (array.idx2sub idx)
        (lruaInsert (((array.laSub (array.idx2sub idx)).modTable fun t =>
          setKey t (array.idx2ent idx) 0).removeEntry .lru (array.idx2ent idx)) .free
          (array.idx2ent idx) array.reuseUnique) := by
  unfold lruaEvictx
  rw [if_neg (by omega), if_neg (by simpa [Option.isSome_iff_ne_none] using ht),
    if_neg (by simp [hkey])]
  dsimp only
  rw [lruaRemoveEntry_lru]
  split_ifs <;> simp_all [LruArray.setSub, LruArray.reuseUnique, LruArray.evictManual]

/-- `lrua_evictx` on an index that does not hold `key` changes nothing. -/
theorem lruaEvictx_eq_self {array : LruArray} {idx : ℕ} {key : UInt64}
    (h : ¬ (idx < array.laCount ∧ (array.laSub (array.idx2sub idx)).lsTable.isSome ∧
      ((array.laSub (array.idx2sub idx)).entry (array.idx2ent idx)).leKey = key)) :
    lruaEvictx array idx key = array := by
  unfold lruaEvictx
  dsimp only
  by_cases h₁ : array.laCount ≤ idx
  · rw [if_pos h₁]
  by_cases h₂ : (array.laSub (array.idx2sub idx)).lsTable.isNone
  · rw [if_neg h₁, if_pos h₂]
  by_cases h₃ : key ≠ ((array.laSub (array.idx2sub idx)).entry (array.idx2ent idx)).leKey
  · rw [if_neg h₁, if_neg h₂, if_pos h₃]
  exact absurd ⟨by omega, by simpa [Option.isSome_iff_ne_none] using h₂,
    by simpa [eq_comm] using h₃⟩ h

/-- `lrua_evictx` keeps the flags. -/
@[simp] theorem lruaEvictx_evictManual (array : LruArray) (idx : ℕ) (key : UInt64) :
    (lruaEvictx array idx key).evictManual = array.evictManual := by
  by_cases h : idx < array.laCount ∧ (array.laSub (array.idx2sub idx)).lsTable.isSome ∧
      ((array.laSub (array.idx2sub idx)).entry (array.idx2ent idx)).leKey = key
  · rw [lruaEvictx_eq h.1 h.2.1 h.2.2]
    split_ifs <;> simp [LruArray.evictManual]
  · rw [lruaEvictx_eq_self h]

/-- `lrua_allocx_inplace`: take index `idx` for `key`, allocating its sub-array's table if
there is none; the return code and the array after it. -/
def lruaAllocxInplace (memOk : Bool) (array : LruArray) (idx : ℕ) (key : UInt64) :
    ℤ × LruArray :=
  if array.laCount ≤ idx then (-derInval, array)
  else
    let s := array.idx2sub idx
    let entIdx := array.idx2ent idx
    let allocated :=
      if (array.laSub s).lsTable.isNone then lruaArrayAllocOne memOk array s else .ok array
    match allocated with
    | .error rc => (rc, array)
    | .ok array =>
      let entry := (array.laSub s).entry entIdx
      if entry.leKey ≠ key ∧ entry.leKey ≠ 0 then (-derNoPerm, array)
      else
        let array := array.setSub s ((array.laSub s).modTable fun t => setKey t entIdx key)
        let array := lruaRemoveEntry array s .free entIdx
        (0, array.setSub s (lruaInsert (array.laSub s) .lru entIdx true))

/-- The loop of `lrua_array_alloc` that computes `la_array_shift`: the least `shift` from the
start with `1 << shift` at least `idxMask`. -/
def lruaArrayShift (idxMask shift : ℕ) : ℕ :=
  if 1 <<< shift < idxMask then lruaArrayShift idxMask (shift + 1) else shift
termination_by idxMask - 1 <<< shift
decreasing_by
  simp only [Nat.shiftLeft_eq, Nat.one_mul, Nat.pow_succ] at *
  have := Nat.two_pow_pos shift
  omega

/-- `lrua_array_alloc`: an array of `nrEnt` entries over `nrArrays` sub-arrays, evicted by hand
when there are several, with the table of the first sub-array allocated. -/
def lruaArrayAlloc (memOk : Bool) (nrEnt nrArrays flags : ℕ) : Except ℤ LruArray :=
  let flags := if nrArrays ≠ 1 then flags ||| lruFlagEvictManual else flags
  if !memOk then .error (-derNomem)
  else
    let idxMask := nrEnt / nrArrays - 1
    let array : LruArray :=
      { laCount := nrEnt
        laEvicting := 0
        laFlags := flags
        laArrayNr := nrArrays
        laArrayShift := lruaArrayShift idxMask 1
        laIdxMask := idxMask
        laFreeSub := []
        laUnusedSub := List.range nrArrays
        laSub := fun idx => ⟨0, 0, idx, none⟩ }
    lruaArrayAllocOne memOk array 0

/-- `array_free_one`: free the table of sub-array `s`. -/
def arrayFreeOne (array : LruArray) (s : ℕ) : LruArray :=
  array.setSub s { array.laSub s with lsTable := none }

/-- One round of the loop of `lrua_array_aggregate`: a sub-array with no entry in use moves to
the tail of `la_unused_sub` and loses its table. -/
def lruaArrayAggregateStep (array : LruArray) (s : ℕ) : LruArray :=
  if (array.laSub s).lsLru ≠ lruNoIdx then array
  else
    let array := array.listDel s
    arrayFreeOne { array with laUnusedSub := array.laUnusedSub ++ [s] } s

@[simp] theorem lruaArrayAggregateStep_evictManual (array : LruArray) (s : ℕ) :
    (lruaArrayAggregateStep array s).evictManual = array.evictManual := by
  unfold lruaArrayAggregateStep arrayFreeOne
  split_ifs <;> rfl

/-- A round drops the sub-array from `la_free_sub` when it has no entry in use. -/
theorem lruaArrayAggregateStep_laFreeSub (array : LruArray) (s : ℕ) :
    (lruaArrayAggregateStep array s).laFreeSub =
      if (array.laSub s).lsLru ≠ lruNoIdx then array.laFreeSub else array.laFreeSub.erase s := by
  unfold lruaArrayAggregateStep arrayFreeOne
  split_ifs <;> rfl

/-- A round frees a table and leaves every LRU list as it was. -/
@[simp] theorem lruaArrayAggregateStep_lsLru (array : LruArray) (s s' : ℕ) :
    ((lruaArrayAggregateStep array s).laSub s').lsLru = (array.laSub s').lsLru := by
  unfold lruaArrayAggregateStep arrayFreeOne
  split_ifs
  · rfl
  · by_cases hs : s' = s <;> simp [hs]

/-- A round leaves the other sub-arrays on `la_free_sub`. -/
theorem mem_lruaArrayAggregateStep_laFreeSub {array : LruArray} {s s' : ℕ} (h : s' ≠ s) :
    s' ∈ (lruaArrayAggregateStep array s).laFreeSub ↔ s' ∈ array.laFreeSub := by
  unfold lruaArrayAggregateStep arrayFreeOne
  split_ifs <;> simp [List.mem_erase_of_ne h]

/-- `lrua_array_aggregate`: in an array evicted by hand, free the tables of the sub-arrays of
`la_free_sub` after the first that have no entry in use. -/
def lruaArrayAggregate (array : LruArray) : LruArray :=
  if !array.evictManual then array
  else
    match array.laFreeSub with
    | [] => array
    | _ :: rest => rest.foldl lruaArrayAggregateStep array

end Daos.Vos.Lru

import Mathlib
import Daos.Vos.Lru.Run

/-!
# The eviction policy of the LRU array

`Daos.Vos.Lru.Run` shows that over every run the array follows the LRU map of its calls. This
module reads off it what the array's users rely on:

* `lrua_allocx` hands out an index that holds no key, unless the array evicts by itself and
  every index is in use; an array evicted by hand fails with `-DER_BUSY` exactly when it is
  full, and otherwise only with `-DER_NOMEM`, when a table cannot be allocated;
* the entry `lrua_lookupx` has just found is not the next one `lrua_allocx` evicts, and with
  `LRU_FLAG_REUSE_UNIQUE` the index `lrua_evictx` has just freed is not the next one handed out
  while another is free;
* `lrua_evictx` frees exactly the index and key it is given, and an outdated key changes
  nothing;
* `lrua_allocx_inplace` on an index that holds no key succeeds, or fails with the array as it
  was;
* `lrua_array_aggregate` changes no lookup and leaves on `la_free_sub`, after its first
  sub-array, only sub-arrays with an entry in use.

Each is first proved of an array that holds `LruaInv`, from one lemma per call that says what
the call can do, and then stated over every run (`LruaReach`).
-/

namespace Daos.Vos.Lru

open Daos.Lib

namespace LruaInv

variable {a : LruArray} {m : LruMap ℕ UInt64}

/-! ### Free entries and full arrays -/

/-- With an empty free list every entry of an allocated sub-array holds a key. -/
theorem live_of_lsFree (hinv : LruaInv a m) {s e : ℕ} (hs : s < a.laArrayNr)
    (hold : (a.laSub s).lsTable.isSome) (hfree : (a.laSub s).lsFree = lruNoIdx)
    (he : e < a.laIdxMask + 1) : (m.live (a.slot s e)).isSome := by
  obtain ⟨t, ht⟩ := Option.isSome_iff_exists.1 hold
  obtain ⟨lru, free, hl, hkeys, -⟩ := (SubRefines.of_some ht).1 (hinv.sub s hs)
  obtain rfl : free = [] := (hl.links.head_eq_noIdx_iff .free).1 hfree
  -- every entry is then on the LRU list
  have hlru : e ∈ lru := by simpa using (hl.mem_iff e).2 he
  rw [hkeys e he, keyLive_isSome_iff]
  exact (hl.key_ne_zero_iff he).2 hlru

/-- The head of a free list that is not empty is an entry that holds no key. -/
theorem live_lsFree (hinv : LruaInv a m) {s : ℕ} (hs : s < a.laArrayNr)
    (hold : (a.laSub s).lsTable.isSome) (hfree : (a.laSub s).lsFree ≠ lruNoIdx) :
    (a.laSub s).lsFree < a.laIdxMask + 1 ∧ m.live (a.slot s (a.laSub s).lsFree) = none := by
  obtain ⟨t, ht⟩ := Option.isSome_iff_exists.1 hold
  obtain ⟨lru, free, hl, hkeys, -⟩ := (SubRefines.of_some ht).1 (hinv.sub s hs)
  cases free with
  | nil => exact absurd ((hl.links.head_eq_noIdx_iff .free).2 rfl) hfree
  | cons f fs =>
    have hf : (a.laSub s).lsFree = f := by simpa using hl.links.head .free
    have hflt : f < a.laIdxMask + 1 := hl.lt_of_mem_free List.mem_cons_self
    rw [hf, hkeys f hflt, (hl.key_free f hflt).2 List.mem_cons_self, keyLive_zero]
    exact ⟨hflt, rfl⟩

/-- `sub_find_free` hands out the index of the head of the free list. -/
theorem subTakeFree_fst (hinv : LruaInv a m) {s : ℕ} (hs : s < a.laArrayNr) (key : UInt64) :
    (Lru.subTakeFree a s key).1 = a.slot s (a.laSub s).lsFree := by
  rw [subTakeFree_eq, hinv.ent2idx_eq hs]

/-- In an array that evicts by itself, an empty free list means that every index is in use. -/
theorem all_live_of_lsFree (hinv : LruaInv a m) (hman : a.evictManual = false)
    (hfree : (a.laSub 0).lsFree = lruNoIdx) : ∀ j < a.laCount, (m.live j).isSome := by
  intro j hj
  obtain ⟨hs, he, hslot⟩ := hinv.idx_decomp hj
  have h0 : a.idx2sub j = 0 := by
    have := hinv.auto_nr hman
    omega
  rw [← hslot, h0]
  exact hinv.live_of_lsFree (h0 ▸ hs) (hinv.auto_table hman) hfree he

/-- An array evicted by hand is full exactly when both its lists of sub-arrays are empty. -/
theorem full_iff (hinv : LruaInv a m) (hman : a.evictManual = true) :
    (∀ j < a.laCount, (m.live j).isSome) ↔ a.laFreeSub = [] ∧ a.laUnusedSub = [] := by
  constructor
  · intro hfull
    refine ⟨List.eq_nil_iff_forall_not_mem.2 fun s hs => ?_,
      List.eq_nil_iff_forall_not_mem.2 fun s hs => ?_⟩
    · -- the head of the free list of a sub-array on `la_free_sub` holds no key
      have hslt := hinv.freeSub_lt s hs
      obtain ⟨hsome, hfree⟩ := (hinv.freeSub_iff hman s hslt).1 hs
      obtain ⟨hlt, hnone⟩ := hinv.live_lsFree hslt hsome hfree
      have hlive := hfull _ (hinv.slot_lt hslt hlt)
      rw [hnone] at hlive
      cases hlive
    · -- a sub-array without a table holds no key at its first entry
      have hslt := hinv.unusedSub_lt s hs
      have hnone := hinv.live_eq hslt (Nat.succ_pos a.laIdxMask)
      simp only [(hinv.unusedSub_iff hman s hslt).1 hs] at hnone
      have hlive := hfull _ (hinv.slot_lt hslt (Nat.succ_pos a.laIdxMask))
      rw [hnone] at hlive
      cases hlive
  · rintro ⟨hfs, hus⟩ j hj
    obtain ⟨hs, he, hslot⟩ := hinv.idx_decomp hj
    have hsome : (a.laSub (a.idx2sub j)).lsTable.isSome := by
      have hnone := (hinv.unusedSub_iff hman _ hs).not.1 (by simp [hus])
      simpa [Option.isSome_iff_ne_none] using hnone
    have hfree : (a.laSub (a.idx2sub j)).lsFree = lruNoIdx := by
      have hnot := (hinv.freeSub_iff hman _ hs).not.1 (by simp [hfs])
      simpa [hsome] using hnot
    rw [← hslot]
    exact hinv.live_of_lsFree hs hsome hfree he

/-! ### What each call can do -/

/-- What `manual_find_free` can do: take the head of the free list of the first sub-array of
`la_free_sub`; with none there, fail with `-DER_BUSY` when no sub-array is unused, or else give
the first unused one a table and take its first entry, failing with `-DER_NOMEM` when the table
cannot be allocated. -/
theorem manualFindFree_cases (hinv : LruaInv a m) (hman : a.evictManual = true) (memOk : Bool)
    (key : UInt64) :
    (∃ s ∈ a.laFreeSub, Lru.manualFindFree memOk a key = .ok (Lru.subTakeFree a s key)) ∨
    (a.laFreeSub = [] ∧ a.laUnusedSub = [] ∧
      Lru.manualFindFree memOk a key = .error (-derBusy)) ∨
    (a.laFreeSub = [] ∧ ∃ s ∈ a.laUnusedSub,
      (memOk = false ∧ Lru.manualFindFree memOk a key = .error (-derNomem)) ∨
      ∃ a₁, lruaArrayAllocOne memOk a s = .ok a₁ ∧
        Lru.manualFindFree memOk a key = .ok (Lru.subTakeFree a₁ s key)) := by
  unfold Lru.manualFindFree
  cases hfs : a.laFreeSub with
  | cons s rest =>
    -- the first sub-array of `la_free_sub` has a free entry
    have hs : s ∈ a.laFreeSub := hfs ▸ List.mem_cons_self
    obtain ⟨-, hfree⟩ := (hinv.freeSub_iff hman s (hinv.freeSub_lt s hs)).1 hs
    refine .inl ⟨s, List.mem_cons_self, ?_⟩
    rw [List.findSome?_cons, subFindFree, if_neg hfree]
  | nil =>
    rw [List.findSome?_nil]
    cases hus : a.laUnusedSub with
    | nil => exact .inr (.inl ⟨rfl, rfl, rfl⟩)
    | cons s rest =>
      refine .inr (.inr ⟨rfl, s, List.mem_cons_self, ?_⟩)
      cases memOk with
      | false => exact .inl ⟨rfl, rfl⟩
      | true => exact .inr ⟨_, rfl, rfl⟩

/-- In an array that evicts by itself, `lrua_allocx` takes the head of the free list when there
is one. -/
theorem allocx_auto_free (hinv : LruaInv a m) (hman : a.evictManual = false)
    (hfree : (a.laSub 0).lsFree ≠ lruNoIdx) {memOk : Bool} {key : UInt64} {r : ℕ × LruArray}
    (h : lruaAllocx memOk a key = .ok r) : r.1 = a.slot 0 (a.laSub 0).lsFree := by
  unfold lruaAllocx lruaFindFree at h
  rw [if_neg (by simp [hman]), subFindFree, if_neg hfree] at h
  cases h
  have hs : 0 < a.laArrayNr := by
    rw [hinv.auto_nr hman]
    exact Nat.one_pos
  exact hinv.subTakeFree_fst hs key

/-- The index `lrua_allocx` hands out holds no key, unless the array evicts by itself and has no
free entry: then it is the head of the LRU list. -/
theorem allocx_index (hinv : LruaInv a m) {memOk : Bool} {key : UInt64} {r : ℕ × LruArray}
    (h : lruaAllocx memOk a key = .ok r) :
    m.live r.1 = none ∨
      a.evictManual = false ∧ (a.laSub 0).lsFree = lruNoIdx ∧
        r.1 = a.slot 0 (a.laSub 0).lsLru := by
  by_cases hman : a.evictManual = true
  · have hfind : lruaAllocx memOk a key = Lru.manualFindFree memOk a key := by
      unfold lruaAllocx lruaFindFree
      rw [if_pos hman]
    rw [hfind] at h
    left
    rcases hinv.manualFindFree_cases hman memOk key with
      ⟨s, hs, hok⟩ | ⟨-, -, herr⟩ | ⟨-, s, hs, ⟨-, herr⟩ | ⟨a₁, ha₁, hok⟩⟩
    · rw [hok] at h
      cases h
      have hslt := hinv.freeSub_lt s hs
      obtain ⟨hsome, hfree⟩ := (hinv.freeSub_iff hman s hslt).1 hs
      rw [hinv.subTakeFree_fst hslt]
      exact (hinv.live_lsFree hslt hsome hfree).2
    · rw [herr] at h
      cases h
    · rw [herr] at h
      cases h
    · -- entry `0` of the new table: the sub-array had no table, so no key at its indices
      rw [hok] at h
      cases h
      have hslt := hinv.unusedSub_lt s hs
      have hinv₁ := hinv.allocOne hslt ((hinv.unusedSub_iff hman s hslt).1 hs) ha₁
      obtain ⟨-, rfl⟩ := lruaArrayAllocOne_eq_ok.1 ha₁
      have hslt₁ : s < a.laArrayNr := hslt
      rw [hinv₁.subTakeFree_fst hslt₁]
      exact (hinv₁.live_lsFree hslt₁ (by simp) (by simp [lruNoIdx])).2
  · have hman : a.evictManual = false := by simpa using hman
    by_cases hfree : (a.laSub 0).lsFree = lruNoIdx
    · unfold lruaAllocx lruaFindFree at h
      rw [if_neg (by simp [hman]), subFindFree, if_pos hfree] at h
      cases h
      have hs : 0 < a.laArrayNr := by
        rw [hinv.auto_nr hman]
        exact Nat.one_pos
      exact .inr ⟨hman, hfree, hinv.ent2idx_eq hs _⟩
    · left
      have hs : 0 < a.laArrayNr := by
        rw [hinv.auto_nr hman]
        exact Nat.one_pos
      rw [hinv.allocx_auto_free hman hfree h]
      exact (hinv.live_lsFree hs (hinv.auto_table hman) hfree).2

/-- `lrua_lookupx` finds exactly the key the map holds at the index. -/
theorem lookupx_fst (hinv : LruaInv a m) {idx : ℕ} {key : UInt64} (hk : key ≠ 0) :
    (lruaLookupx a idx key).1 = decide (m.live idx = some key) := by
  unfold lruaLookupx
  rw [hinv.lookupIdx_eq hk]
  split_ifs with hl <;> simp [hl]

/-- `lrua_evictx` with a key the index does not hold changes nothing. -/
theorem evictx_of_not_live (hinv : LruaInv a m) {idx : ℕ} {key : UInt64} (hk : key ≠ 0)
    (hlive : m.live idx ≠ some key) : lruaEvictx a idx key = a := by
  apply lruaEvictx_eq_self
  rintro ⟨hidx, hsome, hkey⟩
  obtain ⟨hs, he, hslot⟩ := hinv.idx_decomp hidx
  obtain ⟨t, ht⟩ := Option.isSome_iff_exists.1 hsome
  apply hlive
  rw [← hslot, hinv.live_eq hs he, ht]
  rw [LruSub.entry_of_lsTable ht] at hkey
  simp [hkey, keyLive_of_ne hk]

/-- `lrua_evictx` on the index that holds `key`, in an array that evicts by itself: the freed
entry becomes the head of the free list, unless `LRU_FLAG_REUSE_UNIQUE` appends it to a free
list that is not empty. -/
theorem evictx_lsFree (hinv : LruaInv a m) (hman : a.evictManual = false) {idx : ℕ}
    {key : UInt64} (hk : key ≠ 0) (hlive : m.live idx = some key) :
    ((lruaEvictx a idx key).laSub 0).lsFree =
      if (a.laSub 0).lsFree = lruNoIdx then idx
      else if a.reuseUnique then (a.laSub 0).lsFree else idx := by
  obtain ⟨t, hidx, ht, hkey⟩ := hinv.live_some hk hlive
  obtain ⟨hs, he, hslot⟩ := hinv.idx_decomp hidx
  have h0 : a.idx2sub idx = 0 := by
    have := hinv.auto_nr hman
    omega
  -- the only sub-array starts at index `0`
  have hent : a.idx2ent idx = idx := by
    rw [h0] at hslot
    simpa [LruArray.slot] using hslot
  rw [lruaEvictx_eq hidx (by simp [ht]) (by rw [LruSub.entry_of_lsTable ht, hkey]), h0, hent,
    LruArray.setSub_laSub, if_pos rfl]
  have hins := lruaInsert_head_self
    (((a.laSub 0).modTable fun t => setKey t idx 0).removeEntry .lru idx) .free idx a.reuseUnique
  simpa only [LruSub.head_free, LruSub.removeEntry_lsFree_lru, LruSub.modTable_lsFree] using hins

/-- What `lrua_allocx_inplace` on an index that holds no key returns: `0`, or `-DER_INVAL` for
an index past the array, or `-DER_NOMEM` when the sub-array has no table and none can be
allocated; a call that fails leaves the array as it was. -/
theorem allocxInplace_rc (hinv : LruaInv a m) {memOk : Bool} {idx : ℕ} {key : UInt64}
    (hfree : m.live idx = none) :
    (lruaAllocxInplace memOk a idx key).1 = 0 ∨
    ((lruaAllocxInplace memOk a idx key).1 = -derInval ∧ a.laCount ≤ idx ∧
      (lruaAllocxInplace memOk a idx key).2 = a) ∨
    ((lruaAllocxInplace memOk a idx key).1 = -derNomem ∧ memOk = false ∧
      (a.laSub (a.idx2sub idx)).lsTable = none ∧ (lruaAllocxInplace memOk a idx key).2 = a) := by
  unfold lruaAllocxInplace
  by_cases hidx : a.laCount ≤ idx
  · rw [if_pos hidx]
    exact .inr (.inl ⟨rfl, hidx, rfl⟩)
  rw [if_neg hidx]
  obtain ⟨hs, he, hslot⟩ := hinv.idx_decomp (Nat.lt_of_not_le hidx)
  have hfree' : m.live (a.slot (a.idx2sub idx) (a.idx2ent idx)) = none := by
    rw [hslot]
    exact hfree
  dsimp only
  split
  · -- only `lrua_array_alloc_one` fails
    rename_i rc hrc
    split_ifs at hrc with hnone
    · unfold lruaArrayAllocOne at hrc
      cases memOk
      · cases hrc
        exact .inr (.inr ⟨rfl, rfl, Option.isNone_iff_eq_none.1 hnone, rfl⟩)
      · cases hrc
  · -- the entry is free in the table, so the permission test passes
    rename_i a₁ ha₁
    obtain ⟨-, -, -, t, ht, hkey0⟩ := hinv.allocTable hs he hfree' ha₁
    left
    rw [LruSub.entry_of_lsTable ht, hkey0, if_neg (by simp)]

end LruaInv

/-! ### The policy over every run -/

/-- A fresh array of four entries in one sub-array starts a run, as does one of four entries in
two sub-arrays, which is evicted by hand. -/
theorem lruaReach_fresh (nrArrays flags : ℕ) (h : nrArrays = 1 ∨ nrArrays = 2) :
    ∃ a, lruaArrayAlloc true 4 nrArrays flags = .ok a ∧ LruaReach a LruMap.empty := by
  rcases h with rfl | rfl
  · exact ⟨_, rfl, @LruaReach.alloc true 4 1 flags _ 2 0 rfl rfl (by decide) (by decide) (by decide) rfl⟩
  · exact ⟨_, rfl, @LruaReach.alloc true 4 2 flags _ 2 1 rfl rfl (by decide) (by decide) (by decide) rfl⟩

/-- `lrua_allocx` evicts only when it must: over every run, the index it hands out holds no
key, unless the array evicts by itself and every index is in use. -/
theorem lruaAllocx_evicts_only_when_full {a : LruArray} {m : LruMap ℕ UInt64}
    (h : LruaReach a m) {memOk : Bool} {key : UInt64} {i : ℕ} {a' : LruArray}
    (hok : lruaAllocx memOk a key = .ok (i, a')) :
    m.live i = none ∨ a.evictManual = false ∧ ∀ j < a.laCount, (m.live j).isSome := by
  have hinv := h.inv
  rcases hinv.allocx_index hok with hnone | ⟨hman, hfree, -⟩
  · exact .inl hnone
  · exact .inr ⟨hman, hinv.all_live_of_lsFree hman hfree⟩

/-- The first allocation in a fresh array hands out a free index. -/
theorem lruaAllocx_evicts_only_when_full_fresh :
    ∃ a i a', lruaArrayAlloc true 4 1 0 = .ok a ∧ lruaAllocx true a 7 = .ok (i, a') ∧
      ((LruMap.empty : LruMap ℕ UInt64).live i = none ∨
        a.evictManual = false ∧
          ∀ j < a.laCount, ((LruMap.empty : LruMap ℕ UInt64).live j).isSome) := by
  obtain ⟨a, ha, hr⟩ := lruaReach_fresh 1 0 (.inl rfl)
  obtain ⟨i, a', hok⟩ : ∃ i a', lruaAllocx true a 7 = .ok (i, a') := by
    cases ha
    exact ⟨_, _, rfl⟩
  exact ⟨a, i, a', ha, hok, lruaAllocx_evicts_only_when_full hr hok⟩

/-- An array evicted by hand never evicts: over every run `lrua_allocx` fails with `-DER_BUSY`
exactly when every index is in use, and fails otherwise only with `-DER_NOMEM`, when a table is
needed and cannot be allocated. -/
theorem lruaAllocx_manual_errors {a : LruArray} {m : LruMap ℕ UInt64} (h : LruaReach a m)
    (hman : a.evictManual = true) (memOk : Bool) (key : UInt64) :
    (lruaAllocx memOk a key = .error (-derBusy) ↔ ∀ j < a.laCount, (m.live j).isSome) ∧
      ∀ rc, lruaAllocx memOk a key = .error rc → rc = -derBusy ∨ rc = -derNomem ∧ memOk = false := by
  have hinv := h.inv
  have hfind : lruaAllocx memOk a key = Lru.manualFindFree memOk a key := by
    unfold lruaAllocx lruaFindFree
    rw [if_pos hman]
  rw [hfind, hinv.full_iff hman]
  rcases hinv.manualFindFree_cases hman memOk key with
    ⟨s, hs, hok⟩ | ⟨hfs, hus, herr⟩ | ⟨-, s, hs, ⟨hmem, herr⟩ | ⟨a₁, -, hok⟩⟩
  · -- a free entry is taken
    rw [hok]
    refine ⟨⟨fun herr => (by cases herr), fun hnil => ?_⟩, fun rc herr => (by cases herr)⟩
    rw [hnil.1] at hs
    cases hs
  · rw [herr]
    exact ⟨⟨fun _ => ⟨hfs, hus⟩, fun _ => rfl⟩, fun rc hrc => by cases hrc; exact .inl rfl⟩
  · -- a table is needed and cannot be allocated
    rw [herr]
    refine ⟨⟨fun hrc => ?_, fun hnil => ?_⟩, fun rc hrc => by cases hrc; exact .inr ⟨rfl, hmem⟩⟩
    · have hne := Except.error.inj hrc
      simp [derNomem, derBusy] at hne
    · rw [hnil.2] at hs
      cases hs
  · -- an unused sub-array gets a table
    rw [hok]
    refine ⟨⟨fun herr => (by cases herr), fun hnil => ?_⟩, fun rc herr => (by cases herr)⟩
    rw [hnil.2] at hs
    cases hs

/-- An array of four entries in two sub-arrays, evicted by hand, after four allocations: the
next one is refused with `-DER_BUSY`. -/
theorem lruaAllocx_manual_errors_full :
    ∃ a m, LruaReach a m ∧ a.evictManual = true ∧ lruaAllocx true a 11 = .error (-derBusy) ∧
      (lruaAllocx true a 11 = .error (-derBusy) ↔ ∀ j < a.laCount, (m.live j).isSome) ∧
      ∀ rc, lruaAllocx true a 11 = .error rc → rc = -derBusy ∨ rc = -derNomem ∧ true = false := by
  obtain ⟨a₀, ha, hr₀⟩ := lruaReach_fresh 2 0 (.inr rfl)
  cases ha
  have hr := (((hr₀.step (.allocx true 7) (show (7 : UInt64) ≠ 0 by decide)).step
    (.allocx true 8) (show (8 : UInt64) ≠ 0 by decide)).step
    (.allocx true 9) (show (9 : UInt64) ≠ 0 by decide)).step
    (.allocx true 10) (show (10 : UInt64) ≠ 0 by decide)
  refine ⟨_, _, hr, ?man, rfl, lruaAllocx_manual_errors hr ?man true 11⟩
  decide +kernel

/-- The entry `lrua_lookupx` has just found is not the next one evicted: over every run of an
array that evicts by itself, with two indices or more, the `lrua_allocx` right after a lookup
that finds its key at `idx` hands out another index. -/
theorem lruaAllocx_spares_touched {a : LruArray} {m : LruMap ℕ UInt64} (h : LruaReach a m)
    (hman : a.evictManual = false) (hcount : 2 ≤ a.laCount) {idx : ℕ} {key : UInt64}
    (hk : key ≠ 0) (hfound : (lruaLookupx a idx key).1 = true) {memOk : Bool} {key' : UInt64}
    {i : ℕ} {a' : LruArray} (hok : lruaAllocx memOk (lruaLookupx a idx key).2 key' = .ok (i, a')) :
    i ≠ idx := by
  have hinv := h.inv
  have hlive : m.live idx = some key := by
    rw [hinv.lookupx_fst hk] at hfound
    simpa using hfound
  have hinv₁ : LruaInv (lruaLookupx a idx key).2 (m.touch idx) := by
    have hinv' : LruaInv (lruaLookupx a idx key).2
        (if m.live idx = some key then m.touch idx else m) := hinv.lookupx hk
    rwa [if_pos hlive] at hinv'
  have hman₁ : (lruaLookupx a idx key).2.evictManual = false := by
    rw [lruaLookupx, lruaLookupIdx_evictManual]
    exact hman
  rcases hinv₁.allocx_index hok with hnone | ⟨-, hfree, hi⟩
  · -- a free index, while `idx` holds `key`
    intro hii
    rw [hii, LruMap.touch_live, hlive] at hnone
    cases hnone
  · -- the least recently used index, while `idx` has just been used
    intro hii
    have hleast := hinv₁.isLeastRecent_lru hman₁ hfree
    rw [← hi, hii] at hleast
    obtain ⟨j, hj, hji⟩ : ∃ j < a.laCount, j ≠ idx :=
      ⟨if idx = 0 then 1 else 0, by split_ifs <;> omega, by split_ifs <;> omega⟩
    have hcount₁ : (lruaLookupx a idx key).2.laCount = a.laCount := by
      rw [lruaLookupx, lruaLookupIdx_laCount]
    exact hinv.stamped.not_isLeastRecent_touch
      (hinv₁.all_live_of_lsFree hman₁ hfree j (hcount₁ ▸ hj)) hji hleast

/-- A fresh array of four entries in one sub-array, after its first allocation, for key `7`. -/
theorem lruaReach_fresh_allocx (flags : ℕ) (hflags : flags = 0 ∨ flags = lruFlagReuseUnique) :
    ∃ a₀ i₀ a, lruaArrayAlloc true 4 1 flags = .ok a₀ ∧ lruaAllocx true a₀ 7 = .ok (i₀, a) ∧
      LruaReach a ((LruMap.empty : LruMap ℕ UInt64).put i₀ 7) ∧ a.evictManual = false ∧
      a.laCount = 4 := by
  obtain ⟨a₀, ha₀, hr₀⟩ := lruaReach_fresh 1 flags (.inl rfl)
  obtain ⟨i₀, a, hok₀⟩ : ∃ i₀ a, lruaAllocx true a₀ 7 = .ok (i₀, a) := by
    rcases hflags with rfl | rfl <;> cases ha₀ <;> exact ⟨_, _, rfl⟩
  have hr : LruaReach a ((LruMap.empty : LruMap ℕ UInt64).put i₀ 7) := by
    have := LruaReach.step (.allocx true 7) hr₀ (show (7 : UInt64) ≠ 0 by decide)
    simpa only [LruaOp.apply, LruaOp.record, hok₀] using this
  refine ⟨a₀, i₀, a, ha₀, hok₀, hr, ?_, ?_⟩ <;>
    rcases hflags with rfl | rfl <;> cases ha₀ <;> cases hok₀ <;> rfl

/-- In a fresh array, after the first allocation and a lookup of it, the next allocation hands
out another index. -/
theorem lruaAllocx_spares_touched_fresh :
    ∃ a₀ i₀ a i a', lruaArrayAlloc true 4 1 0 = .ok a₀ ∧ lruaAllocx true a₀ 7 = .ok (i₀, a) ∧
      (lruaLookupx a i₀ 7).1 = true ∧ lruaAllocx true (lruaLookupx a i₀ 7).2 9 = .ok (i, a') ∧
      i ≠ i₀ := by
  obtain ⟨a₀, i₀, a, ha₀, hok₀, hr, hman, hcount⟩ := lruaReach_fresh_allocx 0 (.inl rfl)
  have hinv := hr.inv
  have hfound : (lruaLookupx a i₀ 7).1 = true := by
    rw [hinv.lookupx_fst (by decide)]
    simp
  -- the next allocation succeeds, as in any array that evicts by itself
  have hinv₁ : LruaInv (lruaLookupx a i₀ 7).2
      (if ((LruMap.empty : LruMap ℕ UInt64).put i₀ 7).live i₀ = some 7
        then ((LruMap.empty : LruMap ℕ UInt64).put i₀ 7).touch i₀
        else (LruMap.empty : LruMap ℕ UInt64).put i₀ 7) := hinv.lookupx (by decide)
  have hman₁ : (lruaLookupx a i₀ 7).2.evictManual = false := by
    rw [lruaLookupx, lruaLookupIdx_evictManual]
    exact hman
  obtain ⟨i, a', hok, -⟩ := hinv₁.allocx_auto hman₁ true 9
  exact ⟨a₀, i₀, a, i, a', ha₀, hok₀, hfound, hok,
    lruaAllocx_spares_touched hr hman (by omega) (by decide) hfound hok⟩

/-- With `LRU_FLAG_REUSE_UNIQUE` a freed entry waits its turn: over every run of an array that
evicts by itself, after `lrua_evictx` frees index `idx`, the next `lrua_allocx` hands out `idx`
again exactly when the flag is not set or no other index was free. -/
theorem lruaAllocx_after_evictx {a : LruArray} {m : LruMap ℕ UInt64} (h : LruaReach a m)
    (hman : a.evictManual = false) {idx : ℕ} {key : UInt64} (hk : key ≠ 0)
    (hlive : m.live idx = some key) {memOk : Bool} {key' : UInt64} {i : ℕ} {a' : LruArray}
    (hok : lruaAllocx memOk (lruaEvictx a idx key) key' = .ok (i, a')) :
    i = idx ↔ a.reuseUnique = false ∨ ∀ j < a.laCount, (m.live j).isSome := by
  have hinv := h.inv
  have hinv₁ : LruaInv (lruaEvictx a idx key) (m.evict idx key) := hinv.evictx hk
  have hman₁ : (lruaEvictx a idx key).evictManual = false := by
    rw [lruaEvictx_evictManual]
    exact hman
  have hs : 0 < a.laArrayNr := by
    rw [hinv.auto_nr hman]
    exact Nat.one_pos
  have hidx : idx ≠ lruNoIdx := by
    obtain ⟨-, hlt, -⟩ := hinv.live_some hk hlive
    have hcount : a.laCount = a.laIdxMask + 1 := by
      rw [hinv.count, hinv.auto_nr hman, Nat.one_mul]
    have := hinv.mask_lt
    omega
  -- the freed entry is on the free list, so `lrua_allocx` takes the head of the free list
  have hfree₁ : ((lruaEvictx a idx key).laSub 0).lsFree ≠ lruNoIdx := by
    rw [hinv.evictx_lsFree hman hk hlive]
    split_ifs with h1
    · exact hidx
    · exact h1
    · exact hidx
  have hi : i = ((lruaEvictx a idx key).laSub 0).lsFree := by
    simpa [LruArray.slot] using hinv₁.allocx_auto_free hman₁ hfree₁ hok
  rw [hi, hinv.evictx_lsFree hman hk hlive]
  by_cases hnil : (a.laSub 0).lsFree = lruNoIdx
  · -- no other index was free
    rw [if_pos hnil]
    exact iff_of_true rfl (.inr (hinv.all_live_of_lsFree hman hnil))
  · rw [if_neg hnil]
    obtain ⟨hlt, hnone⟩ := hinv.live_lsFree hs (hinv.auto_table hman) hnil
    have hslot : a.slot 0 (a.laSub 0).lsFree = (a.laSub 0).lsFree := by simp [LruArray.slot]
    rw [hslot] at hnone
    cases hru : a.reuseUnique
    · exact iff_of_true (if_neg (by simp)) (.inl rfl)
    · -- the old head of the free list holds no key, and `idx` does
      rw [if_pos rfl]
      refine iff_of_false (fun heq => ?_) ?_
      · rw [heq, hlive] at hnone
        cases hnone
      · rintro (hf | hfull)
        · cases hf
        · have hl := hfull _ (hinv.slot_lt hs hlt)
          rw [hslot, hnone] at hl
          cases hl

/-- In a fresh array with `LRU_FLAG_REUSE_UNIQUE`, the index freed after the first allocation
is not handed out next. -/
theorem lruaAllocx_after_evictx_fresh :
    ∃ a₀ i₀ a i a', lruaArrayAlloc true 4 1 lruFlagReuseUnique = .ok a₀ ∧
      lruaAllocx true a₀ 7 = .ok (i₀, a) ∧ lruaAllocx true (lruaEvictx a i₀ 7) 9 = .ok (i, a') ∧
      (i = i₀ ↔ a.reuseUnique = false ∨
        ∀ j < a.laCount, (((LruMap.empty : LruMap ℕ UInt64).put i₀ 7).live j).isSome) := by
  obtain ⟨a₀, i₀, a, ha₀, hok₀, hr, hman, -⟩ := lruaReach_fresh_allocx lruFlagReuseUnique (.inr rfl)
  have hinv := hr.inv
  have hlive : ((LruMap.empty : LruMap ℕ UInt64).put i₀ 7).live i₀ = some 7 := by simp
  -- the next allocation succeeds, as in any array that evicts by itself
  have hinv₁ : LruaInv (lruaEvictx a i₀ 7) (((LruMap.empty : LruMap ℕ UInt64).put i₀ 7).evict i₀ 7) :=
    hinv.evictx (by decide)
  have hman₁ : (lruaEvictx a i₀ 7).evictManual = false := by
    rw [lruaEvictx_evictManual]
    exact hman
  obtain ⟨i, a', hok, -⟩ := hinv₁.allocx_auto hman₁ true 9
  exact ⟨a₀, i₀, a, i, a', ha₀, hok₀, hok, lruaAllocx_after_evictx hr hman (by decide) hlive hok⟩

/-- `lrua_evictx` frees exactly what it is given: over every run, after it the lookup of the
index and key fails and the lookup of every other index is unchanged; and with a key the index
does not hold, it leaves the array as it was. -/
theorem lruaEvictx_frees_exactly {a : LruArray} {m : LruMap ℕ UInt64} (h : LruaReach a m)
    {idx : ℕ} {key : UInt64} (hk : key ≠ 0) :
    (lruaLookupx (lruaEvictx a idx key) idx key).1 = false ∧
    (∀ idx' key', key' ≠ 0 → idx' ≠ idx →
      (lruaLookupx (lruaEvictx a idx key) idx' key').1 = (lruaLookupx a idx' key').1) ∧
    ((lruaLookupx a idx key).1 = false → lruaEvictx a idx key = a) := by
  have hinv := h.inv
  have hinv' : LruaInv (lruaEvictx a idx key) (m.evict idx key) := hinv.evictx hk
  refine ⟨?_, fun idx' key' hk' hne => ?_, fun hmiss => ?_⟩
  · rw [hinv'.lookupx_fst hk]
    simpa using LruMap.evict_live_self m idx key
  · rw [hinv'.lookupx_fst hk', hinv.lookupx_fst hk', (m.evict_of_ne hne key).1]
  · rw [hinv.lookupx_fst hk] at hmiss
    exact hinv.evictx_of_not_live hk (by simpa using hmiss)

/-- After two allocations in an array that evicts by itself, key `7` is at index `0`, and
evicting it frees exactly that. -/
theorem lruaEvictx_frees_exactly_run :
    ∃ a m, LruaReach a m ∧ (lruaLookupx a 0 7).1 = true ∧
      (lruaLookupx (lruaEvictx a 0 7) 0 7).1 = false ∧
      (∀ idx' key', key' ≠ 0 → idx' ≠ 0 →
        (lruaLookupx (lruaEvictx a 0 7) idx' key').1 = (lruaLookupx a idx' key').1) ∧
      ((lruaLookupx a 0 7).1 = false → lruaEvictx a 0 7 = a) := by
  obtain ⟨a₀, ha, hr₀⟩ := lruaReach_fresh 1 0 (.inl rfl)
  cases ha
  have hr := (hr₀.step (.allocx true 7) (show (7 : UInt64) ≠ 0 by decide)).step
    (.allocx true 8) (show (8 : UInt64) ≠ 0 by decide)
  exact ⟨_, _, hr, by decide +kernel, lruaEvictx_frees_exactly hr (by decide)⟩

/-- `lrua_allocx_inplace` on an index that holds no key: over every run it returns `0`, and the
index then holds the key; or it fails with `-DER_INVAL` for an index past the array, or with
`-DER_NOMEM` when the sub-array has no table and none can be allocated, and a call that fails
leaves the array as it was. -/
theorem lruaAllocxInplace_free {a : LruArray} {m : LruMap ℕ UInt64} (h : LruaReach a m)
    {memOk : Bool} {idx : ℕ} {key : UInt64} (hk : key ≠ 0) (hfree : m.live idx = none) :
    ((lruaAllocxInplace memOk a idx key).1 = 0 ∧
      (lruaLookupx (lruaAllocxInplace memOk a idx key).2 idx key).1 = true) ∨
    ((lruaAllocxInplace memOk a idx key).1 = -derInval ∧ a.laCount ≤ idx ∧
      (lruaAllocxInplace memOk a idx key).2 = a) ∨
    ((lruaAllocxInplace memOk a idx key).1 = -derNomem ∧ memOk = false ∧
      (a.laSub (a.idx2sub idx)).lsTable = none ∧ (lruaAllocxInplace memOk a idx key).2 = a) := by
  have hinv := h.inv
  rcases hinv.allocxInplace_rc hfree with h0 | herr | herr
  · -- the map now holds the key at the index
    have hinv' : LruaInv (lruaAllocxInplace memOk a idx key).2
        (if (lruaAllocxInplace memOk a idx key).1 = 0 then m.put idx key else m) :=
      hinv.allocxInplace hk hfree
    rw [if_pos h0] at hinv'
    refine .inl ⟨h0, ?_⟩
    rw [hinv'.lookupx_fst hk]
    simp
  · exact .inr (.inl herr)
  · exact .inr (.inr herr)

/-- In a fresh array evicted by hand, index `3` lies in the sub-array without a table. -/
theorem lruaAllocxInplace_free_fresh :
    ∃ a, lruaArrayAlloc true 4 2 0 = .ok a ∧
      (((lruaAllocxInplace true a 3 7).1 = 0 ∧
        (lruaLookupx (lruaAllocxInplace true a 3 7).2 3 7).1 = true) ∨
      ((lruaAllocxInplace true a 3 7).1 = -derInval ∧ a.laCount ≤ 3 ∧
        (lruaAllocxInplace true a 3 7).2 = a) ∨
      ((lruaAllocxInplace true a 3 7).1 = -derNomem ∧ true = false ∧
        (a.laSub (a.idx2sub 3)).lsTable = none ∧ (lruaAllocxInplace true a 3 7).2 = a)) := by
  obtain ⟨a, ha, hr⟩ := lruaReach_fresh 2 0 (.inr rfl)
  exact ⟨a, ha, lruaAllocxInplace_free hr (by decide) rfl⟩

/-- The loop of `lrua_array_aggregate` frees tables only: the LRU lists stay as they were. -/
theorem aggregateSteps_lsLru (l : List ℕ) (b : LruArray) (s : ℕ) :
    ((l.foldl lruaArrayAggregateStep b).laSub s).lsLru = (b.laSub s).lsLru := by
  induction l generalizing b with
  | nil => rfl
  | cons s' l ih => rw [List.foldl_cons, ih, lruaArrayAggregateStep_lsLru]

/-- The loop of `lrua_array_aggregate` over sub-arrays `l` of `la_free_sub` other than its head
`x`: `x` stays the head, and every sub-array of `l` still on the list has an entry in use. -/
theorem aggregateSteps_freeSub (l : List ℕ) {b : LruArray} {x : ℕ} {fs : List ℕ}
    (hfs : b.laFreeSub = x :: fs) (hnd : (x :: fs).Nodup) (hxl : x ∉ l) :
    ∃ fs', (l.foldl lruaArrayAggregateStep b).laFreeSub = x :: fs' ∧ fs' ⊆ fs ∧
      ∀ s ∈ l, s ∈ fs' → (b.laSub s).lsLru ≠ lruNoIdx := by
  induction l generalizing b fs with
  | nil => exact ⟨fs, hfs, List.Subset.refl fs, fun s hs => absurd hs List.not_mem_nil⟩
  | cons s l ih =>
    have hsx : s ≠ x := fun h => hxl (h ▸ List.mem_cons_self)
    have hxl' : x ∉ l := fun h => hxl (List.mem_cons_of_mem s h)
    rw [List.foldl_cons]
    by_cases hbusy : (b.laSub s).lsLru ≠ lruNoIdx
    · -- a sub-array with an entry in use stays
      have hb : lruaArrayAggregateStep b s = b := by
        unfold lruaArrayAggregateStep
        rw [if_pos hbusy]
      rw [hb]
      obtain ⟨fs', h1, h2, h3⟩ := ih hfs hnd hxl'
      refine ⟨fs', h1, h2, fun s' hs' hmem => ?_⟩
      rcases List.mem_cons.1 hs' with rfl | hs'
      · exact hbusy
      · exact h3 s' hs' hmem
    · -- one without leaves `la_free_sub`, and no later round puts it back
      have hfs₁ : (lruaArrayAggregateStep b s).laFreeSub = x :: fs.erase s := by
        rw [lruaArrayAggregateStep_laFreeSub, if_neg hbusy, hfs,
          List.erase_cons_tail (by simpa using hsx.symm)]
      obtain ⟨fs', h1, h2, h3⟩ :=
        ih hfs₁ (hnd.sublist (List.erase_sublist.cons_cons x)) hxl'
      refine ⟨fs', h1, fun y hy => List.mem_of_mem_erase (h2 hy), fun s' hs' hmem => ?_⟩
      rcases List.mem_cons.1 hs' with rfl | hs'
      · exact absurd (h2 hmem) (List.nodup_cons.1 hnd).2.not_mem_erase
      · simpa using h3 s' hs' hmem

/-- `lrua_array_aggregate` frees only what no one uses: over every run it changes no lookup,
and after it every sub-array on `la_free_sub` but the first has an entry in use. -/
theorem lruaArrayAggregate_keeps {a : LruArray} {m : LruMap ℕ UInt64} (h : LruaReach a m) :
    (∀ idx key, key ≠ 0 →
      (lruaLookupx (lruaArrayAggregate a) idx key).1 = (lruaLookupx a idx key).1) ∧
    ∀ s ∈ (lruaArrayAggregate a).laFreeSub.tail,
      ((lruaArrayAggregate a).laSub s).lsLru ≠ lruNoIdx := by
  have hinv := h.inv
  refine ⟨fun idx key hk => ?_, ?_⟩
  · -- both arrays refine the same map
    rw [hinv.aggregate.lookupx_fst hk, hinv.lookupx_fst hk]
  unfold lruaArrayAggregate
  by_cases hman : a.evictManual = true
  · rw [if_neg (by simp [hman])]
    have hnd := hinv.freeSub_nodup
    cases hfs : a.laFreeSub with
    | nil => simp [hfs]
    | cons x rest =>
      rw [hfs] at hnd
      obtain ⟨fs', h1, h2, h3⟩ := aggregateSteps_freeSub rest hfs hnd (List.nodup_cons.1 hnd).1
      intro s hs
      rw [h1, List.tail_cons] at hs
      rw [aggregateSteps_lsLru]
      exact h3 s (h2 hs) hs
  · -- an array that evicts by itself has one sub-array, on `la_free_sub` once at most
    rw [if_pos (by simpa using hman)]
    intro s hs
    have hnr := hinv.auto_nr (by simpa using hman)
    cases hfs : a.laFreeSub with
    | nil =>
      rw [hfs] at hs
      cases hs
    | cons x rest =>
      rw [hfs, List.tail_cons] at hs
      have hx : x = 0 := by
        have := hinv.freeSub_lt x (by simp [hfs])
        omega
      have hs0 : s = 0 := by
        have := hinv.freeSub_lt s (by simp [hfs, hs])
        omega
      have hnd := hinv.freeSub_nodup
      rw [hfs] at hnd
      exact absurd (hx ▸ hs0 ▸ hs) (List.nodup_cons.1 hnd).1

/-- In an array of four entries in two sub-arrays, evicted by hand, four allocations fill both
sub-arrays; the evictions of keys `7`, `9` and `10` leave the second without an entry in use, and
not first on `la_free_sub`: `lrua_array_aggregate` frees its table. -/
theorem lruaArrayAggregate_keeps_run :
    ∃ a m, LruaReach a m ∧ (a.laSub 1).lsTable.isSome = true ∧
      ((lruaArrayAggregate a).laSub 1).lsTable.isNone = true ∧
      (∀ idx key, key ≠ 0 →
        (lruaLookupx (lruaArrayAggregate a) idx key).1 = (lruaLookupx a idx key).1) ∧
      ∀ s ∈ (lruaArrayAggregate a).laFreeSub.tail,
        ((lruaArrayAggregate a).laSub s).lsLru ≠ lruNoIdx := by
  obtain ⟨a₀, ha, hr₀⟩ := lruaReach_fresh 2 0 (.inr rfl)
  cases ha
  have hr := ((((((hr₀.step (.allocx true 7) (show (7 : UInt64) ≠ 0 by decide)).step
    (.allocx true 8) (show (8 : UInt64) ≠ 0 by decide)).step
    (.allocx true 9) (show (9 : UInt64) ≠ 0 by decide)).step
    (.allocx true 10) (show (10 : UInt64) ≠ 0 by decide)).step
    (.evictx 0 7) (show (7 : UInt64) ≠ 0 by decide)).step
    (.evictx 2 9) (show (9 : UInt64) ≠ 0 by decide)).step
    (.evictx 3 10) (show (10 : UInt64) ≠ 0 by decide)
  exact ⟨_, _, hr, by decide +kernel, by decide +kernel, lruaArrayAggregate_keeps hr⟩

end Daos.Vos.Lru

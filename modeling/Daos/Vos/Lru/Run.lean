import Daos.Vos.Lru.Refine

/-!
# Runs of the LRU array

A run starts with `lrua_array_alloc` and goes on with any sequence of the calls the array's users
make (`LruaOp`): `lrua_allocx`, `lrua_lookupx`, `lrua_peekx`, `lrua_evictx`,
`lrua_allocx_inplace` and `lrua_array_aggregate`. `LruaReach` pairs the array after a run with
the LRU map that follows it: an index handed out for a key is allocated in the map, a lookup of
the key an index holds touches the index, and an eviction frees the index if it holds the key.
The calls are those with keys other than `0`, and `lrua_allocx_inplace` is called on an index
that holds no key (`LruaOp.Admissible`).

`lrua_array_alloc` sets up the invariant of `Daos.Vos.Lru.Refine` (`LruaInv.arrayAlloc`) and
every call keeps it (`LruaInv.step`), so it holds over every run (`LruaReach.inv`).
`lruaReach_refines` reads off it what the array does for its users: the two lists of every
allocated sub-array lay out its table, an array evicted by hand lists on `la_free_sub` exactly
the allocated sub-arrays with a free entry, a lookup finds exactly the key the map holds, and an
array that evicts by itself always allocates, reusing the least recently used index when none
is free.
-/

namespace Daos.Vos.Lru

open Daos.Lib

/-- The loop of `lrua_array_alloc` that computes `la_array_shift`, for sub-arrays of `2 ^ d`
entries, stops at `d`. -/
theorem lruaArrayShift_eq {d s : ℕ} (hs : 1 ≤ s) (hsd : s ≤ d) :
    lruaArrayShift (2 ^ d - 1) s = d := by
  induction h : d - s generalizing s with
  | zero =>
    obtain rfl : s = d := by omega
    rw [lruaArrayShift, if_neg]
    rw [Nat.shiftLeft_eq, Nat.one_mul]
    exact Nat.not_lt.2 (Nat.sub_le _ _)
  | succ k ih =>
    rw [lruaArrayShift, if_pos]
    · exact ih (by omega) (by omega) (by omega)
    · -- `2 ^ s < 2 ^ d - 1` as `2 ≤ 2 ^ s` and `2 ^ (s + 1) ≤ 2 ^ d`
      have h1 : 2 ^ (s + 1) ≤ 2 ^ d := Nat.pow_le_pow_right (by omega) (by omega)
      have h2 : 2 ^ 1 ≤ 2 ^ s := Nat.pow_le_pow_right (by omega) hs
      rw [Nat.pow_succ] at h1
      rw [Nat.shiftLeft_eq, Nat.one_mul]
      omega

namespace LruaInv

/-- An array that `lrua_array_alloc` returns, for `nrEnt` entries over `nrArrays` sub-arrays,
both powers of two with fewer sub-arrays than entries and `nrEnt` a `uint32_t`, holds the
invariant with the empty map. -/
theorem arrayAlloc {memOk : Bool} {nrEnt nrArrays flags k j : ℕ} {a : LruArray}
    (hEnt : nrEnt = 2 ^ k) (hArrays : nrArrays = 2 ^ j) (hlt : nrArrays < nrEnt)
    (h32 : nrEnt < 2 ^ 32) (h : lruaArrayAlloc memOk nrEnt nrArrays flags = .ok a) :
    LruaInv a LruMap.empty := by
  subst hEnt hArrays
  have hjk : j < k := (Nat.pow_lt_pow_iff_right (by omega)).1 hlt
  -- sub-arrays of `2 ^ (k - j)` entries
  have hdiv : 2 ^ k / 2 ^ j = 2 ^ (k - j) := Nat.pow_div hjk.le (by omega)
  have hpos : 1 ≤ 2 ^ (k - j) := Nat.one_le_two_pow
  have hmask : 2 ^ k / 2 ^ j - 1 + 1 = 2 ^ (k - j) := by omega
  have hmask_lt : 2 ^ k / 2 ^ j - 1 < lruNoIdx := by
    have := Nat.div_le_self (2 ^ k) (2 ^ j)
    unfold lruNoIdx
    omega
  unfold lruaArrayAlloc at h
  cases memOk
  · cases h
  obtain ⟨-, rfl⟩ := lruaArrayAllocOne_eq_ok.1 h
  refine ⟨?_, ?_, ?_, rfl, ?_, fun _ => by simp, fun s _ => ?_, fun s _ => ?_, by simp, ?_,
    fun s hs => ?_, fun s hs => ?_, fun _ s _ => ?_, fun _ s hs => ?_, fun _ _ => rfl,
    LruMap.stamped_empty⟩
  · show 2 ^ k / 2 ^ j - 1 + 1 = 2 ^ lruaArrayShift (2 ^ k / 2 ^ j - 1) 1
    rw [hdiv, lruaArrayShift_eq (Nat.le_refl 1) (by omega)]
    omega
  · show 2 ^ k = 2 ^ j * (2 ^ k / 2 ^ j - 1 + 1)
    rw [hmask, ← Nat.pow_add, Nat.add_sub_cancel' hjk.le]
  · exact hmask_lt
  · -- several sub-arrays make the array evicted by hand
    intro hauto
    by_contra hne
    change ¬ 2 ^ j = 1 at hne
    change ((if 2 ^ j ≠ 1 then flags ||| lruFlagEvictManual else flags) &&& lruFlagEvictManual
      != 0) = false at hauto
    have hflag : (flags ||| lruFlagEvictManual) &&& lruFlagEvictManual = 1 := by
      simp [lruFlagEvictManual]
    rw [if_pos hne, hflag] at hauto
    cases hauto
  · by_cases hs0 : s = 0 <;> simp [hs0]
  · have hnone : SubRefines (2 ^ k / 2 ^ j - 1 + 1) (fun e => s * (2 ^ k / 2 ^ j - 1 + 1) + e)
        LruMap.empty ⟨0, 0, s, none⟩ := (SubRefines.of_none rfl).2 fun _ _ => rfl
    by_cases hs0 : s = 0
    · subst hs0
      simp only [LruArray.setSub_laSub]
      exact hnone.allocOne rfl hmask rfl hmask_lt
    · simp only [LruArray.setSub_laSub, if_neg hs0]
      exact hnone
  · simpa using List.nodup_range.erase 0
  · have hs0 : s = 0 := by simpa using hs
    rw [hs0]
    exact Nat.two_pow_pos j
  · simp only [LruArray.setSub_laUnusedSub, LruArray.listDel_laUnusedSub] at hs
    exact List.mem_range.1 (List.mem_of_mem_erase hs)
  · by_cases hs0 : s = 0 <;> simp [hs0, lruNoIdx]
  · by_cases hs0 : s = 0
    · subst hs0
      simp [List.nodup_range.not_mem_erase]
    · simp only [LruArray.setSub_laUnusedSub, LruArray.listDel_laUnusedSub, LruArray.setSub_laSub,
        if_neg hs0]
      rw [List.mem_erase_of_ne hs0]
      simpa using hs

end LruaInv

/-- The calls of the array's users, with their arguments; `memOk` says whether an allocation of
memory in the call succeeds. -/
inductive LruaOp
  | allocx (memOk : Bool) (key : UInt64)
  | lookupx (idx : ℕ) (key : UInt64)
  | peekx (idx : ℕ) (key : UInt64)
  | evictx (idx : ℕ) (key : UInt64)
  | allocxInplace (memOk : Bool) (idx : ℕ) (key : UInt64)
  | aggregate

namespace LruaOp

/-- The array after the call; a call that fails leaves it as it was. -/
def apply (a : LruArray) : LruaOp → LruArray
  | .allocx memOk key =>
    match lruaAllocx memOk a key with
    | .ok r => r.2
    | .error _ => a
  | .lookupx idx key => (lruaLookupx a idx key).2
  | .peekx _ _ => a
  | .evictx idx key => lruaEvictx a idx key
  | .allocxInplace memOk idx key => (lruaAllocxInplace memOk a idx key).2
  | .aggregate => lruaArrayAggregate a

/-- The LRU map after the call: an index handed out for a key is allocated, a lookup of the key
an index holds touches the index, an eviction frees the index if it holds the key. -/
def record (a : LruArray) (m : LruMap ℕ UInt64) : LruaOp → LruMap ℕ UInt64
  | .allocx memOk key =>
    match lruaAllocx memOk a key with
    | .ok r => m.put r.1 key
    | .error _ => m
  | .lookupx idx key => if m.live idx = some key then m.touch idx else m
  | .peekx _ _ => m
  | .evictx idx key => m.evict idx key
  | .allocxInplace memOk idx key =>
    if (lruaAllocxInplace memOk a idx key).1 = 0 then m.put idx key else m
  | .aggregate => m

/-- The calls the refinement is about: keys are not `0`, the key of a free entry, and
`lrua_allocx_inplace` takes an index that holds no key. -/
def Admissible (m : LruMap ℕ UInt64) : LruaOp → Prop
  | .allocx _ key => key ≠ 0
  | .lookupx _ key => key ≠ 0
  | .peekx _ key => key ≠ 0
  | .evictx _ key => key ≠ 0
  | .allocxInplace _ idx key => key ≠ 0 ∧ m.live idx = none
  | .aggregate => True

end LruaOp

/-- Every call keeps the invariant. -/
theorem LruaInv.step {a : LruArray} {m : LruMap ℕ UInt64} (hinv : LruaInv a m) {op : LruaOp}
    (hop : op.Admissible m) : LruaInv (op.apply a) (op.record a m) := by
  cases op with
  | allocx memOk key =>
    simp only [LruaOp.apply, LruaOp.record]
    cases h : lruaAllocx memOk a key with
    | error rc => exact hinv
    | ok r => exact (hinv.allocx hop h).2
  | lookupx idx key => exact hinv.lookupx hop
  | peekx idx key => exact hinv
  | evictx idx key => exact hinv.evictx hop
  | allocxInplace memOk idx key => exact hinv.allocxInplace hop.1 hop.2
  | aggregate => exact hinv.aggregate

/-- The arrays `lrua_array_alloc` returns and the calls after it, each array paired with the LRU
map of its run. -/
inductive LruaReach : LruArray → LruMap ℕ UInt64 → Prop
  | alloc {memOk : Bool} {nrEnt nrArrays flags : ℕ} {a : LruArray} (k j : ℕ)
      (hEnt : nrEnt = 2 ^ k) (hArrays : nrArrays = 2 ^ j) (hlt : nrArrays < nrEnt)
      (hgt : 2 < nrEnt) (h32 : nrEnt < 2 ^ 32)
      (h : lruaArrayAlloc memOk nrEnt nrArrays flags = .ok a) : LruaReach a LruMap.empty
  | step {a : LruArray} {m : LruMap ℕ UInt64} (op : LruaOp) :
      LruaReach a m → op.Admissible m → LruaReach (op.apply a) (op.record a m)

/-- The invariant holds over every run. -/
theorem LruaReach.inv {a : LruArray} {m : LruMap ℕ UInt64} (h : LruaReach a m) : LruaInv a m := by
  induction h with
  | alloc k j hEnt hArrays hlt _ h32 h => exact LruaInv.arrayAlloc hEnt hArrays hlt h32 h
  | step op _ hop ih => exact ih.step hop

namespace LruaInv

variable {a : LruArray} {m : LruMap ℕ UInt64}

/-- In an array evicted by hand, `la_free_sub` holds the allocated sub-arrays with a free
entry. -/
theorem mem_freeSub_iff (hinv : LruaInv a m) (hman : a.evictManual = true) {s : ℕ}
    (hs : s < a.laArrayNr) :
    s ∈ a.laFreeSub ↔
      ∃ t, (a.laSub s).lsTable = some t ∧ ∃ e < a.laIdxMask + 1, (t e).leKey = 0 := by
  rw [hinv.freeSub_iff hman s hs]
  cases ht : (a.laSub s).lsTable with
  | none => simp
  | some t =>
    obtain ⟨lru, free, hl, -, -⟩ := (SubRefines.of_some ht).1 (hinv.sub s hs)
    have hhead : (a.laSub s).lsFree = lruNoIdx ↔ free = [] := hl.links.head_eq_noIdx_iff .free
    simp only [Option.isSome_some, true_and, Option.some.injEq, exists_eq_left', ne_eq, hhead]
    constructor
    · intro hne
      obtain ⟨e, hes⟩ := List.exists_mem_of_ne_nil free hne
      exact ⟨e, hl.lt_of_mem_free hes, (hl.key_free e (hl.lt_of_mem_free hes)).2 hes⟩
    · rintro ⟨e, he, hkey⟩ hnil
      have hmem := (hl.key_free e he).1 hkey
      rw [hnil] at hmem
      cases hmem

/-- When every index of the array is live, no sub-array has a free entry. -/
theorem lsFree_eq_noIdx (hinv : LruaInv a m) {s : ℕ} (hs : s < a.laArrayNr) {t : ℕ → LruEntry}
    (ht : (a.laSub s).lsTable = some t) (hfull : ∀ j < a.laCount, (m.live j).isSome) :
    (a.laSub s).lsFree = lruNoIdx := by
  obtain ⟨lru, free, hl, hkeys, -⟩ := (SubRefines.of_some ht).1 (hinv.sub s hs)
  have hhead : (a.laSub s).lsFree = lruNoIdx ↔ free = [] := hl.links.head_eq_noIdx_iff .free
  rw [hhead]
  cases free with
  | nil => rfl
  | cons f fs =>
    -- the head of the free list holds no key, so the map holds none at its index
    have hf : f < a.laIdxMask + 1 := hl.lt_of_mem_free List.mem_cons_self
    have hlive := hfull _ (hinv.slot_lt hs hf)
    rw [hkeys f hf, (hl.key_free f hf).2 List.mem_cons_self] at hlive
    cases hlive

end LruaInv

/-- The LRU array refines an LRU map. Over every run from `lrua_array_alloc`: (a) the free list
and the LRU list of each allocated sub-array are circular doubly-linked lists through the
table, disjoint, covering its entries, with key `0` exactly on the free list, and an array
evicted by hand lists on `la_free_sub` exactly the allocated sub-arrays with a free entry;
(b) `lrua_lookupx` and `lrua_peekx` find a key exactly where the map holds it; (c) an array
that evicts by itself always allocates, and when no index is free it hands out the least
recently allocated or touched one. -/
theorem lruaReach_refines {a : LruArray} {m : LruMap ℕ UInt64} (h : LruaReach a m) :
    (∀ s < a.laArrayNr, ∀ t, (a.laSub s).lsTable = some t →
      ∃ lru free, (a.laSub s).Layout (a.laIdxMask + 1) t lru free) ∧
    (a.evictManual = true → ∀ s < a.laArrayNr, (s ∈ a.laFreeSub ↔
      ∃ t, (a.laSub s).lsTable = some t ∧ ∃ e < a.laIdxMask + 1, (t e).leKey = 0)) ∧
    (∀ idx key, key ≠ 0 →
      ((lruaLookupx a idx key).1 = true ↔ m.live idx = some key) ∧
      (lruaPeekx a idx key = true ↔ m.live idx = some key)) ∧
    (a.evictManual = false → ∀ memOk key, ∃ i a', lruaAllocx memOk a key = .ok (i, a') ∧
      ((∀ j < a.laCount, (m.live j).isSome) → m.IsLeastRecent i)) := by
  have hinv := h.inv
  refine ⟨fun s hs t ht => ?_, fun hman s hs => hinv.mem_freeSub_iff hman hs,
    fun idx key hk => ?_, fun hman memOk key => ?_⟩
  · obtain ⟨lru, free, hl, -, -⟩ := (SubRefines.of_some ht).1 (hinv.sub s hs)
    exact ⟨lru, free, hl⟩
  · unfold lruaLookupx lruaPeekx
    rw [hinv.lookupIdx_eq hk, hinv.lookupIdx_eq hk]
    constructor <;> split_ifs with hlive <;> simp [hlive]
  · obtain ⟨i, a', hok, hleast⟩ := hinv.allocx_auto hman memOk key
    refine ⟨i, a', hok, fun hfull => hleast ?_⟩
    have hs : 0 < a.laArrayNr := by
      rw [hinv.auto_nr hman]
      exact Nat.one_pos
    obtain ⟨t, ht⟩ := Option.isSome_iff_exists.1 (hinv.auto_table hman)
    exact hinv.lsFree_eq_noIdx hs ht hfull

/-- Five allocations in an array of four entries in one sub-array, which evicts by itself: the
fifth reuses index `0`, the least recently used, for key `11`. The array is then full, and the
refinement holds of it. -/
theorem lruaReach_refines_evicting : ∃ a m, LruaReach a m ∧ a.evictManual = false ∧
    (∀ j < a.laCount, (m.live j).isSome) ∧ m.live 0 = some 11 ∧
    (∀ s < a.laArrayNr, ∀ t, (a.laSub s).lsTable = some t →
      ∃ lru free, (a.laSub s).Layout (a.laIdxMask + 1) t lru free) ∧
    (a.evictManual = true → ∀ s < a.laArrayNr, (s ∈ a.laFreeSub ↔
      ∃ t, (a.laSub s).lsTable = some t ∧ ∃ e < a.laIdxMask + 1, (t e).leKey = 0)) ∧
    (∀ idx key, key ≠ 0 →
      ((lruaLookupx a idx key).1 = true ↔ m.live idx = some key) ∧
      (lruaPeekx a idx key = true ↔ m.live idx = some key)) ∧
    (a.evictManual = false → ∀ memOk key, ∃ i a', lruaAllocx memOk a key = .ok (i, a') ∧
      ((∀ j < a.laCount, (m.live j).isSome) → m.IsLeastRecent i)) := by
  obtain ⟨a₀, ha⟩ : ∃ a, lruaArrayAlloc true 4 1 0 = .ok a := ⟨_, rfl⟩
  have hr₀ := LruaReach.alloc 2 0 rfl rfl (by decide) (by decide) (by decide) ha
  cases ha
  have hr := ((((hr₀.step (.allocx true 7) (show (7 : UInt64) ≠ 0 by decide)).step
    (.allocx true 8) (show (8 : UInt64) ≠ 0 by decide)).step
    (.allocx true 9) (show (9 : UInt64) ≠ 0 by decide)).step
    (.allocx true 10) (show (10 : UInt64) ≠ 0 by decide)).step
    (.allocx true 11) (show (11 : UInt64) ≠ 0 by decide)
  exact ⟨_, _, hr, by decide +kernel, by decide +kernel, by decide +kernel, lruaReach_refines hr⟩

end Daos.Vos.Lru

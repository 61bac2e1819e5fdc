import Daos.Lib.LruMap
import Daos.Vos.Lru.Links

/-!
# The LRU array refines an LRU map

An LRU array is a cache of keys by index, and `Daos.Lib.LruMap` says what such a cache is for:
which key each index holds, and when each was last allocated or touched. This module relates
the two over every run of the array's operations from `lrua_array_alloc`, the LRU map
following what each call returned.

`SubRefines` says what a sub-array holds as the map sees it: a table laid out as its two lists
(`LruSub.Layout`), the live indices being those whose entry has a key, and the LRU list in the
order of last use. `LruaInv` adds the geometry of the array and the lists of sub-arrays of an
array evicted by hand. Each operation keeps it (`LruaInv.lookupx`, `LruaInv.evictx`,
`LruaInv.allocx`, `LruaInv.allocxInplace`, `LruaInv.aggregate`), from the sub-array lemmas of
this module, which turn the list moves of `Daos.Vos.Lru.Links` into changes of the map. Over
every run (`LruaReach`) the invariant holds, and three things follow: the two lists of each
allocated sub-array lay out its table, a lookup finds exactly the key the map holds, and an
array that evicts by itself always allocates, reusing the least recently used index when none
is free.
-/

namespace Daos.Vos.Lru

open Daos.Lib

/-- The key an entry holds, as the LRU map sees it: key `0` is no key. -/
def keyLive (k : UInt64) : Option UInt64 := if k = 0 then none else some k

@[simp] theorem keyLive_zero : keyLive 0 = none := rfl

theorem keyLive_of_ne {k : UInt64} (hk : k ≠ 0) : keyLive k = some k := by
  simp [keyLive, hk]

theorem keyLive_eq_some_iff {k k' : UInt64} (hk' : k' ≠ 0) : keyLive k = some k' ↔ k = k' := by
  unfold keyLive
  split_ifs with hk
  · simp only [false_iff]
    exact fun h => hk' (h ▸ hk)
  · simp

theorem keyLive_isSome_iff (k : UInt64) : (keyLive k).isSome ↔ k ≠ 0 := by
  unfold keyLive
  split_ifs with hk <;> simp [hk]

/-- What a sub-array of `n` entries holds, as the LRU map `m` sees it through `slot`, the index
in the array of each entry: without a table no entry is live; with one, its two lists lay out
the table, each entry holds the key the map has for it, and the LRU list runs in the order of
last use. -/
def SubRefines (n : ℕ) (slot : ℕ → ℕ) (m : LruMap ℕ UInt64) (sub : LruSub) : Prop :=
  match sub.lsTable with
  | none => ∀ e < n, m.live (slot e) = none
  | some t => ∃ lru free, sub.Layout n t lru free ∧
      (∀ e < n, m.live (slot e) = keyLive (t e).leKey) ∧ m.RecencyOrdered (lru.map slot)

namespace SubRefines

variable {n : ℕ} {slot : ℕ → ℕ} {m : LruMap ℕ UInt64} {sub : LruSub}

theorem of_some {t : ℕ → LruEntry} (ht : sub.lsTable = some t) :
    SubRefines n slot m sub ↔ ∃ lru free, sub.Layout n t lru free ∧
      (∀ e < n, m.live (slot e) = keyLive (t e).leKey) ∧ m.RecencyOrdered (lru.map slot) := by
  simp [SubRefines, ht]

theorem of_none (ht : sub.lsTable = none) :
    SubRefines n slot m sub ↔ ∀ e < n, m.live (slot e) = none := by
  simp [SubRefines, ht]

/-- A sub-array reads the map at its own entries only. -/
theorem frame {m' : LruMap ℕ UInt64} (h : SubRefines n slot m sub)
    (hlive : ∀ e < n, m'.live (slot e) = m.live (slot e))
    (hused : ∀ e < n, m'.used (slot e) = m.used (slot e)) : SubRefines n slot m' sub := by
  cases ht : sub.lsTable with
  | none =>
    rw [of_none ht] at h ⊢
    intro e he
    rw [hlive e he, h e he]
  | some t =>
    rw [of_some ht] at h ⊢
    obtain ⟨lru, free, hl, hkeys, hrec⟩ := h
    refine ⟨lru, free, hl, fun e he => by rw [hlive e he, hkeys e he], ?_⟩
    have hmap : (lru.map slot).map m'.used = (lru.map slot).map m.used := by
      simp only [List.map_map]
      exact List.map_congr_left fun e he => hused e (hl.lt_of_mem_lru he)
    unfold LruMap.RecencyOrdered
    rw [hmap]
    exact hrec

end SubRefines

/-- `slot` sends the entries of a sub-array to distinct indices. -/
def SlotInj (n : ℕ) (slot : ℕ → ℕ) : Prop := ∀ e < n, ∀ e' < n, slot e = slot e' → e = e'

section Moves

variable {n : ℕ} {slot : ℕ → ℕ} {m : LruMap ℕ UInt64} {sub : LruSub} {t : ℕ → LruEntry}
  {lru free : List ℕ}

/-- The entries on the LRU list are live, and so were used before the map's clock. -/
theorem used_lt_clock (hl : sub.Layout n t lru free)
    (hkeys : ∀ e < n, m.live (slot e) = keyLive (t e).leKey) (hst : m.Stamped) :
    ∀ j ∈ lru.map slot, m.used j < m.clock := by
  intro j hj
  obtain ⟨e, he, rfl⟩ := List.mem_map.1 hj
  have hlt := hl.lt_of_mem_lru he
  apply hst
  rw [hkeys e hlt, keyLive_isSome_iff]
  exact (hl.key_ne_zero_iff hlt).2 he

/-- Allocating entry `e` for `k` or touching it makes it the tail of the LRU list: the map after
`put` or `touch` at its index reads the new layout when the LRU list has become
`lru.erase e ++ [e]` and only entry `e` changed its key, to `k`. -/
theorem subRefines_concat {m' : LruMap ℕ UInt64} {t' : ℕ → LruEntry} {free' : List ℕ} {sub' : LruSub}
    (hinj : SlotInj n slot) (hst : m.Stamped) (hl : sub.Layout n t lru free)
    (hkeys : ∀ e < n, m.live (slot e) = keyLive (t e).leKey)
    (hrec : m.RecencyOrdered (lru.map slot)) {e : ℕ} (he : e < n)
    (hl' : sub'.Layout n t' (lru.erase e ++ [e]) free')
    (hlive : ∀ e' < n, m'.live (slot e') = keyLive (t' e').leKey)
    (hused : m'.used = (m.touch (slot e)).used) : SubRefines n slot m' sub' := by
  rw [SubRefines.of_some hl'.links.table]
  refine ⟨_, free', hl', hlive, ?_⟩
  have hnd := (hl.links.cycle .lru).nodup
  have hnot : slot e ∉ (lru.erase e).map slot := by
    intro hmem
    obtain ⟨e', he', hslot⟩ := List.mem_map.1 hmem
    have he'lt := hl.lt_of_mem_lru (List.erase_sublist.subset he')
    rw [hinj e' he'lt e he hslot] at he'
    exact hnd.not_mem_erase he'
  have hsub : ((lru.erase e).map slot).Sublist (lru.map slot) := List.erase_sublist.map slot
  have hord := (hrec.sublist hsub).concat_touch hnot
    fun j hj => used_lt_clock hl hkeys hst j (hsub.subset hj)
  unfold LruMap.RecencyOrdered at hord ⊢
  rw [hused, List.map_append]
  simpa using hord

/-- The map after allocating index `slot f` reads entry `e` of the sub-array as the key `k` at
`f` and as before elsewhere. -/
theorem put_live_slot (hinj : SlotInj n slot) {f e : ℕ} (hf : f < n) (he : e < n) (k : UInt64) :
    (m.put (slot f) k).live (slot e) = if e = f then some k else m.live (slot e) := by
  rw [LruMap.put_live]
  by_cases hef : e = f
  · simp [hef]
  · rw [Function.update_of_ne fun h => hef (hinj e he f hf h), if_neg hef]

namespace SubRefines

/-- `sub_find_free` past its test: the head of the free list is allocated for `k`. -/
theorem takeFree (h : SubRefines n slot m sub) (ht : sub.lsTable = some t)
    (hf : sub.lsFree ≠ lruNoIdx) (hinj : SlotInj n slot) (hst : m.Stamped) {k : UInt64}
    (hk : k ≠ 0) :
    sub.lsFree < n ∧ SubRefines n slot (m.put (slot sub.lsFree) k)
      ((lruaInsert (sub.removeEntry .free sub.lsFree) .lru sub.lsFree true).modTable fun t =>
        setKey t sub.lsFree k) := by
  rw [of_some ht] at h
  obtain ⟨lru, free, hl, hkeys, hrec⟩ := h
  cases free with
  | nil => exact absurd ((hl.links.head_eq_noIdx_iff .free).2 rfl) hf
  | cons f fs =>
    have hfh : sub.lsFree = f := by simpa using hl.links.head .free
    rw [hfh]
    obtain ⟨t', hl', hkey⟩ := hl.takeFree hk
    have hflt : f < n := hl.lt_of_mem_free List.mem_cons_self
    have hfnot : f ∉ lru := fun hfl => hl.links.disjoint f hfl List.mem_cons_self
    have hl'' := hl'
    rw [← List.erase_of_not_mem hfnot] at hl''
    refine ⟨hflt, subRefines_concat hinj hst hl hkeys hrec hflt hl'' ?_ (LruMap.put_used _ _ _)⟩
    · intro e he
      rw [put_live_slot hinj hflt he, hkey]
      by_cases hef : e = f
      · simp [hef, keyLive_of_ne hk]
      · simp [hef, hkeys e he]

/-- `lrua_allocx_inplace` past its tests: the free entry `e` is allocated for `k`. -/
theorem takeFreeAt (h : SubRefines n slot m sub) (ht : sub.lsTable = some t) {e : ℕ} (he : e < n)
    (hfree : (t e).leKey = 0) (hinj : SlotInj n slot) (hst : m.Stamped) {k : UInt64}
    (hk : k ≠ 0) :
    SubRefines n slot (m.put (slot e) k)
      (lruaInsert ((sub.modTable fun t => setKey t e k).removeEntry .free e) .lru e true) := by
  rw [of_some ht] at h
  obtain ⟨lru, free, hl, hkeys, hrec⟩ := h
  have hef : e ∈ free := (hl.key_free e he).1 hfree
  have henot : e ∉ lru := fun hel => hl.links.disjoint e hel hef
  obtain ⟨t', hl', hkey⟩ := hl.takeFreeAt hef hk
  have hl'' := hl'
  rw [← List.erase_of_not_mem henot] at hl''
  refine subRefines_concat hinj hst hl hkeys hrec he hl'' (fun e' he' => ?_) (LruMap.put_used _ _ _)
  rw [put_live_slot hinj he he', hkey]
  by_cases he'e : e' = e
  · simp [he'e, keyLive_of_ne hk]
  · simp [he'e, hkeys e' he']

/-- The body of `lrua_evictx`: the entry `e` holding `key` is freed. -/
theorem evict (h : SubRefines n slot m sub) (ht : sub.lsTable = some t) {e : ℕ} (he : e < n)
    {key : UInt64} (hkey : (t e).leKey = key) (hk : key ≠ 0) (hinj : SlotInj n slot)
    (append : Bool) :
    SubRefines n slot (m.evict (slot e) key)
      (lruaInsert ((sub.modTable fun t => setKey t e 0).removeEntry .lru e) .free e append) := by
  rw [of_some ht] at h
  obtain ⟨lru, free, hl, hkeys, hrec⟩ := h
  have hel : e ∈ lru := (hl.key_ne_zero_iff he).1 (hkey ▸ hk)
  obtain ⟨t', hl', hkey'⟩ := hl.evict hel append
  have hlive : m.live (slot e) = some key := by rw [hkeys e he, hkey, keyLive_of_ne hk]
  rw [of_some hl'.links.table]
  refine ⟨_, _, hl', fun e' he' => ?_, ?_⟩
  · rw [LruMap.evict_live, if_pos hlive, hkey']
    by_cases he'e : e' = e
    · simp [he'e]
    · rw [Function.update_of_ne fun h => he'e (hinj e' he' e he h), if_neg he'e, hkeys e' he']
  · exact (hrec.sublist (List.erase_sublist.map slot)).evict _ _

/-- `lrua_move_to_mru` on the entry `e` in use, in each of its three cases, makes `e` the tail
of the LRU list. -/
theorem moveToMru (h : SubRefines n slot m sub) (ht : sub.lsTable = some t) {e : ℕ} (he : e < n)
    (hkey : (t e).leKey ≠ 0) (hinj : SlotInj n slot) (hst : m.Stamped) :
    SubRefines n slot (m.touch (slot e))
      (if (sub.entry e).leNextIdx = sub.lsLru then sub
       else if sub.lsLru = e then { sub with lsLru := (sub.entry e).leNextIdx }
       else lruaInsert (sub.removeEntry .lru e) .lru e true) := by
  rw [of_some ht] at h
  obtain ⟨lru, free, hl, hkeys, hrec⟩ := h
  have hel : e ∈ lru := (hl.key_ne_zero_iff he).1 hkey
  have hnext : (sub.entry e).leNextIdx = nextOf t e := by
    rw [LruSub.entry_of_lsTable ht]
    rfl
  have hc : IsCycle (nextOf t) (prevOf t) lru := hl.links.cycle .lru
  have hnd : lru.Nodup := hc.nodup
  have hhead : sub.lsLru = lru.headD lruNoIdx := hl.links.head .lru
  have hlive : ∀ e' < n, (m.touch (slot e)).live (slot e') = keyLive (t e').leKey := by
    intro e' he'
    rw [LruMap.touch_live, hkeys e' he']
  -- in every case the LRU list becomes `lru.erase e ++ [e]`, with the keys unchanged
  split_ifs with h₁ h₂
  · -- `e` is already the tail
    cases lru with
    | nil => simp at hel
    | cons x xs =>
      have hlast := hc.eq_getLast_of_nxt_eq_head hel (by rw [← hnext, h₁, hhead]; rfl)
      obtain ⟨pre, hpre⟩ : ∃ pre, x :: xs = pre ++ [e] :=
        ⟨(x :: xs).dropLast, by rw [hlast]; exact (List.dropLast_concat_getLast _).symm⟩
      have hepre : e ∉ pre := by
        have := hnd
        rw [hpre, List.nodup_append] at this
        exact fun hp => this.2.2 e hp e (by simp) rfl
      have hsame : (x :: xs).erase e ++ [e] = x :: xs := by
        rw [hpre, List.erase_append_right _ hepre]
        simp
      have hl'' : sub.Layout n t ((x :: xs).erase e ++ [e]) free := by rwa [hsame]
      exact subRefines_concat hinj hst hl hkeys hrec he hl'' hlive rfl
  · -- `e` is the head: the head moves on
    cases lru with
    | nil => simp at hel
    | cons x xs =>
      have hx : x = e := by simpa [← h₂] using hhead.symm
      subst hx
      have hl'' : LruSub.Layout n { sub with lsLru := (sub.entry x).leNextIdx } t
          ((x :: xs).erase x ++ [x]) free := by
        rw [List.erase_cons_head, hnext]
        exact hl.rotate
      exact subRefines_concat hinj hst hl hkeys hrec he hl'' hlive rfl
  · obtain ⟨t', hl', hkey'⟩ := hl.moveToTail hel
    refine subRefines_concat hinj hst hl hkeys hrec he hl' ?_ rfl
    intro e' he'
    rw [hlive e' he', hkey']

/-- The last branch of `lrua_find_free`: with no free entry, the head `x` of the LRU list is
allocated for `k` and the head moves on. -/
theorem reuse (h : SubRefines n slot m sub) (ht : sub.lsTable = some t)
    (hfree : sub.lsFree = lruNoIdx) (hn : 0 < n) (hinj : SlotInj n slot) (hst : m.Stamped)
    {k : UInt64} (hk : k ≠ 0) :
    sub.lsLru < n ∧ SubRefines n slot (m.put (slot sub.lsLru) k)
      { sub.modTable (fun t => setKey t sub.lsLru k) with
        lsLru := (sub.entry sub.lsLru).leNextIdx } := by
  rw [of_some ht] at h
  obtain ⟨lru, free, hl, hkeys, hrec⟩ := h
  have hfnil : free = [] := (hl.links.head_eq_noIdx_iff .free).1 hfree
  subst hfnil
  cases lru with
  | nil =>
    have := hl.perm.length_eq
    simp at this
    omega
  | cons x xs =>
    have hx : sub.lsLru = x := by simpa using hl.links.head .lru
    have hxlt : x < n := hl.lt_of_mem_lru List.mem_cons_self
    rw [hx, LruSub.entry_of_lsTable ht]
    have hl'' : LruSub.Layout n
        { sub.modTable (fun t => setKey t x k) with lsLru := (t x).leNextIdx } (setKey t x k)
        ((x :: xs).erase x ++ [x]) [] := by
      have hrot := (hl.setKey List.mem_cons_self hk).rotate
      simp only [nextOf_setKey] at hrot
      rw [List.erase_cons_head]
      exact hrot
    refine ⟨hxlt, subRefines_concat hinj hst hl hkeys hrec hxlt hl'' ?_ (LruMap.put_used _ _ _)⟩
    intro e he
    rw [put_live_slot hinj hxlt he]
    by_cases hex : e = x
    · simp [hex, keyLive_of_ne hk]
    · simp [hex, hkeys e he]

/-- `lrua_array_alloc_one` on a sub-array without a table. -/
theorem allocOne (h : SubRefines n slot m sub) (ht : sub.lsTable = none) {mask k : ℕ}
    (hmask : mask + 1 = 2 ^ k) (hn : n = mask + 1) (hlt : mask < lruNoIdx) :
    SubRefines n slot m
      { sub with lsLru := lruNoIdx, lsFree := 0, lsTable := some (lruaFreshTable mask) } := by
  rw [of_none ht] at h
  subst hn
  rw [of_some rfl]
  refine ⟨[], _, layout_allocOne sub hmask hlt, fun e he => ?_, LruMap.RecencyOrdered.nil⟩
  rw [h e he]
  rfl

/-- `array_free_one` on a sub-array with no entry in use. -/
theorem freeTable (h : SubRefines n slot m sub) (ht : sub.lsTable = some t)
    (hlru : sub.lsLru = lruNoIdx) : SubRefines n slot m { sub with lsTable := none } := by
  rw [of_some ht] at h
  obtain ⟨lru, free, hl, hkeys, -⟩ := h
  have hnil : lru = [] := (hl.links.head_eq_noIdx_iff .lru).1 hlru
  rw [of_none rfl]
  intro e he
  rw [hkeys e he, (hl.key_free e he).2 (((hl.mem_iff e).2 he).resolve_left (by simp [hnil]))]
  rfl

end SubRefines

end Moves

/-! ### The array -/

/-- The index in the array of entry `e` of sub-array `s`. -/
def LruArray.slot (array : LruArray) (s e : ℕ) : ℕ := s * (array.laIdxMask + 1) + e

/-- The invariant of an LRU array `a` and the LRU map `m` of its run. The geometry is the one
`lrua_array_alloc` sets up: sub-arrays of `2 ^ la_array_shift` entries, one sub-array when the
array evicts by itself, and that one always with a table. Every sub-array refines the map at
its indices, no index past the array is live, and every live index was used before the map's
clock. In an array evicted by hand, `la_free_sub` holds the allocated sub-arrays with a free
entry and `la_unused_sub` those without a table. -/
structure LruaInv (a : LruArray) (m : LruMap ℕ UInt64) : Prop where
  shift : a.laIdxMask + 1 = 2 ^ a.laArrayShift
  count : a.laCount = a.laArrayNr * (a.laIdxMask + 1)
  mask_lt : a.laIdxMask < lruNoIdx
  evicting : a.laEvicting = 0
  auto_nr : a.evictManual = false → a.laArrayNr = 1
  auto_table : a.evictManual = false → (a.laSub 0).lsTable.isSome
  arrayIdx : ∀ s < a.laArrayNr, (a.laSub s).lsArrayIdx = s
  sub : ∀ s < a.laArrayNr, SubRefines (a.laIdxMask + 1) (a.slot s) m (a.laSub s)
  freeSub_nodup : a.laFreeSub.Nodup
  unusedSub_nodup : a.laUnusedSub.Nodup
  freeSub_lt : ∀ s ∈ a.laFreeSub, s < a.laArrayNr
  unusedSub_lt : ∀ s ∈ a.laUnusedSub, s < a.laArrayNr
  freeSub_iff : a.evictManual = true → ∀ s < a.laArrayNr,
    (s ∈ a.laFreeSub ↔ (a.laSub s).lsTable.isSome ∧ (a.laSub s).lsFree ≠ lruNoIdx)
  unusedSub_iff : a.evictManual = true → ∀ s < a.laArrayNr,
    (s ∈ a.laUnusedSub ↔ (a.laSub s).lsTable = none)
  live_out : ∀ i, a.laCount ≤ i → m.live i = none
  stamped : m.Stamped

namespace LruaInv

variable {a : LruArray} {m : LruMap ℕ UInt64}

theorem slotInj (a : LruArray) (s : ℕ) : SlotInj (a.laIdxMask + 1) (a.slot s) := by
  intro e _ e' _ h
  simpa [LruArray.slot] using h

theorem slot_lt (hinv : LruaInv a m) {s e : ℕ} (hs : s < a.laArrayNr) (he : e < a.laIdxMask + 1) :
    a.slot s e < a.laCount := by
  rw [hinv.count, LruArray.slot]
  calc s * (a.laIdxMask + 1) + e < s * (a.laIdxMask + 1) + (a.laIdxMask + 1) := by omega
    _ = (s + 1) * (a.laIdxMask + 1) := (Nat.succ_mul s _).symm
    _ ≤ a.laArrayNr * (a.laIdxMask + 1) := Nat.mul_le_mul_right _ hs

/-- Entries of different sub-arrays have different indices. -/
theorem slot_ne (a : LruArray) {s s' e e' : ℕ} (hss' : s' ≠ s) (he : e < a.laIdxMask + 1)
    (he' : e' < a.laIdxMask + 1) : a.slot s' e' ≠ a.slot s e := by
  intro h
  apply hss'
  have h1 : a.slot s' e' / (a.laIdxMask + 1) = s' := by
    rw [LruArray.slot, Nat.mul_comm, Nat.mul_add_div (by omega), Nat.div_eq_of_lt he', Nat.add_zero]
  have h2 : a.slot s e / (a.laIdxMask + 1) = s := by
    rw [LruArray.slot, Nat.mul_comm, Nat.mul_add_div (by omega), Nat.div_eq_of_lt he, Nat.add_zero]
  rw [← h1, ← h2, h]

/-- An index inside the array is an entry of a sub-array: `lrua_idx2sub` and `lrua_idx2ent`
find it. -/
theorem idx_decomp (hinv : LruaInv a m) {idx : ℕ} (hidx : idx < a.laCount) :
    a.idx2sub idx < a.laArrayNr ∧ a.idx2ent idx < a.laIdxMask + 1 ∧
      a.slot (a.idx2sub idx) (a.idx2ent idx) = idx := by
  have hpos : 0 < a.laIdxMask + 1 := Nat.succ_pos _
  have hsub : a.idx2sub idx = idx / (a.laIdxMask + 1) := by
    rw [LruArray.idx2sub, Nat.shiftRight_eq_div_pow, hinv.shift]
  have hent : a.idx2ent idx = idx % (a.laIdxMask + 1) := by
    have hm : a.laIdxMask = 2 ^ a.laArrayShift - 1 := by have := hinv.shift; omega
    rw [LruArray.idx2ent, hm, Nat.and_two_pow_sub_one_eq_mod, ← hm, hinv.shift]
  rw [hsub, hent]
  refine ⟨?_, Nat.mod_lt _ hpos, ?_⟩
  · rw [hinv.count] at hidx
    exact Nat.div_lt_of_lt_mul (by rwa [Nat.mul_comm] at hidx)
  · rw [LruArray.slot, Nat.mul_comm, Nat.div_add_mod]

/-- `ent2idx` gives the index of the entry. -/
theorem ent2idx_eq (hinv : LruaInv a m) {s : ℕ} (hs : s < a.laArrayNr) (e : ℕ) :
    a.ent2idx s e = a.slot s e := by
  rw [LruArray.ent2idx, hinv.arrayIdx s hs, Nat.shiftLeft_eq, ← hinv.shift, LruArray.slot]

/-- What the map holds at an index inside the array: the key of its entry, if its sub-array
has a table. -/
theorem live_eq (hinv : LruaInv a m) {s e : ℕ} (hs : s < a.laArrayNr) (he : e < a.laIdxMask + 1) :
    m.live (a.slot s e) = match (a.laSub s).lsTable with
      | some t => keyLive (t e).leKey
      | none => none := by
  have h := hinv.sub s hs
  cases ht : (a.laSub s).lsTable with
  | none => exact (SubRefines.of_none ht).1 h e he
  | some t =>
    obtain ⟨lru, free, -, hkeys, -⟩ := (SubRefines.of_some ht).1 h
    exact hkeys e he

/-- The frame rule of the invariant: a step that changes one sub-array `s` and the map at its
indices only, keeps the geometry, and moves no other sub-array on the two lists, keeps the
invariant once the new sub-array refines the new map and sits on the right lists. -/
theorem replace (hinv : LruaInv a m) {a' : LruArray} {m' : LruMap ℕ UInt64} {s : ℕ}
    (hs : s < a.laArrayNr)
    (hcount : a'.laCount = a.laCount) (hev : a'.laEvicting = a.laEvicting)
    (hflags : a'.laFlags = a.laFlags) (hnr : a'.laArrayNr = a.laArrayNr)
    (hshift : a'.laArrayShift = a.laArrayShift) (hmask : a'.laIdxMask = a.laIdxMask)
    (hsubs : ∀ s', s' ≠ s → a'.laSub s' = a.laSub s')
    (hidx : (a'.laSub s).lsArrayIdx = s)
    (htable : a.evictManual = false → (a'.laSub s).lsTable.isSome)
    (hsub : SubRefines (a.laIdxMask + 1) (a.slot s) m' (a'.laSub s))
    (hm : ∀ j, (∀ e < a.laIdxMask + 1, j ≠ a.slot s e) → m'.live j = m.live j ∧ m'.used j = m.used j)
    (hstamped : m'.Stamped)
    (hfree : ∀ s', s' ≠ s → (s' ∈ a'.laFreeSub ↔ s' ∈ a.laFreeSub))
    (hunused : ∀ s', s' ≠ s → (s' ∈ a'.laUnusedSub ↔ s' ∈ a.laUnusedSub))
    (hfreeNodup : a'.laFreeSub.Nodup) (hunusedNodup : a'.laUnusedSub.Nodup)
    (hfreeLt : ∀ x ∈ a'.laFreeSub, x < a.laArrayNr) (hunusedLt : ∀ x ∈ a'.laUnusedSub, x < a.laArrayNr)
    (hfree_s : a.evictManual = true →
      (s ∈ a'.laFreeSub ↔ (a'.laSub s).lsTable.isSome ∧ (a'.laSub s).lsFree ≠ lruNoIdx))
    (hunused_s : a.evictManual = true → (s ∈ a'.laUnusedSub ↔ (a'.laSub s).lsTable = none)) :
    LruaInv a' m' := by
  have hman : a'.evictManual = a.evictManual := by simp [LruArray.evictManual, hflags]
  have hslot : a'.slot = a.slot := by
    funext s' e
    simp [LruArray.slot, hmask]
  refine ⟨by rw [hmask, hshift]; exact hinv.shift, by rw [hcount, hnr, hmask]; exact hinv.count,
    by rw [hmask]; exact hinv.mask_lt, by rw [hev]; exact hinv.evicting,
    fun h => by rw [hnr]; exact hinv.auto_nr (hman ▸ h), fun h => ?_, fun s' hs' => ?_,
    fun s' hs' => ?_, hfreeNodup, hunusedNodup, by rwa [hnr], by rwa [hnr],
    fun h s' hs' => ?_, fun h s' hs' => ?_, fun i hi => ?_, hstamped⟩
  · -- the only sub-array of an array that evicts by itself keeps its table
    rw [hman] at h
    have h0 : s = 0 := by have := hinv.auto_nr h; omega
    subst h0
    exact htable h
  · rw [hnr] at hs'
    rcases eq_or_ne s' s with rfl | hne
    · exact hidx
    · rw [hsubs s' hne]
      exact hinv.arrayIdx s' hs'
  · rw [hnr] at hs'
    rw [hslot, hmask]
    rcases eq_or_ne s' s with rfl | hne
    · exact hsub
    · rw [hsubs s' hne]
      refine (hinv.sub s' hs').frame (fun e he => (hm _ ?_).1) (fun e he => (hm _ ?_).2) <;>
        exact fun e' he' => slot_ne a hne he' he
  · rw [hman] at h
    rw [hnr] at hs'
    rcases eq_or_ne s' s with rfl | hne
    · exact hfree_s h
    · rw [hfree s' hne, hsubs s' hne]
      exact hinv.freeSub_iff h s' hs'
  · rw [hman] at h
    rw [hnr] at hs'
    rcases eq_or_ne s' s with rfl | hne
    · exact hunused_s h
    · rw [hunused s' hne, hsubs s' hne]
      exact hinv.unusedSub_iff h s' hs'
  · rw [hcount] at hi
    refine ((hm i fun e he hie => ?_).1).trans (hinv.live_out i hi)
    have := hinv.slot_lt hs he
    omega

section Write

variable {s : ℕ} {sub' : LruSub} {m' : LruMap ℕ UInt64}

/-- A write of sub-array `s` that keeps its table, and keeps its free list empty or not, keeps
the invariant once the new sub-array refines the new map. -/
theorem setSub (hinv : LruaInv a m) (hs : s < a.laArrayNr) (hold : (a.laSub s).lsTable.isSome)
    (hidx : sub'.lsArrayIdx = s) (htable : sub'.lsTable.isSome)
    (hfree : a.evictManual = true → ((a.laSub s).lsFree = lruNoIdx ↔ sub'.lsFree = lruNoIdx))
    (hsub : SubRefines (a.laIdxMask + 1) (a.slot s) m' sub')
    (hm : ∀ j, (∀ e < a.laIdxMask + 1, j ≠ a.slot s e) → m'.live j = m.live j ∧ m'.used j = m.used j)
    (hst : m'.Stamped) : LruaInv (a.setSub s sub') m' := by
  refine hinv.replace hs rfl rfl rfl rfl rfl rfl (fun s' hs' => by simp [hs']) (by simp [hidx])
    (fun _ => by simpa using htable) (by simpa using hsub) hm hst (fun _ _ => Iff.rfl)
    (fun _ _ => Iff.rfl) hinv.freeSub_nodup hinv.unusedSub_nodup hinv.freeSub_lt hinv.unusedSub_lt
    (fun hman => ?_) (fun hman => ?_)
  · rw [LruArray.setSub_laFreeSub, hinv.freeSub_iff hman s hs, LruArray.setSub_laSub, if_pos rfl,
      hold, htable]
    simp only [true_and, ne_eq, hfree hman]
  · rw [LruArray.setSub_laUnusedSub, hinv.unusedSub_iff hman s hs, LruArray.setSub_laSub, if_pos rfl]
    simp only [Option.isSome_iff_ne_none] at hold htable
    simp only [hold, htable]

/-- An entry leaves the free list of sub-array `s`, as `lrua_remove_entry` on `&sub->ls_free`
does: when the list empties, an array evicted by hand takes `s` off `la_free_sub`. -/
theorem delFree (hinv : LruaInv a m) (hs : s < a.laArrayNr) (hold : (a.laSub s).lsTable.isSome)
    (hfree : (a.laSub s).lsFree ≠ lruNoIdx) (hidx : sub'.lsArrayIdx = s)
    (htable : sub'.lsTable.isSome) (hsub : SubRefines (a.laIdxMask + 1) (a.slot s) m' sub')
    (hm : ∀ j, (∀ e < a.laIdxMask + 1, j ≠ a.slot s e) → m'.live j = m.live j ∧ m'.used j = m.used j)
    (hst : m'.Stamped) :
    LruaInv ((if sub'.lsFree = lruNoIdx ∧ a.evictManual = true then a.listDel s else a).setSub s
      sub') m' := by
  split_ifs with hc
  · obtain ⟨hnone, -⟩ := hc
    refine hinv.replace hs rfl rfl rfl rfl rfl rfl (fun s' hs' => by simp [hs']) (by simp [hidx])
      (fun _ => by simpa using htable) (by simpa using hsub) hm hst
      (fun s' hs' => by simp [List.mem_erase_of_ne hs'])
      (fun s' hs' => by simp [List.mem_erase_of_ne hs'])
      (by simpa using hinv.freeSub_nodup.erase s) (by simpa using hinv.unusedSub_nodup.erase s)
      (fun x hx => hinv.freeSub_lt x (List.mem_of_mem_erase (by simpa using hx)))
      (fun x hx => hinv.unusedSub_lt x (List.mem_of_mem_erase (by simpa using hx)))
      (fun _ => ?_) (fun _ => ?_)
    · simp [hinv.freeSub_nodup.not_mem_erase, hnone]
    · simp [hinv.unusedSub_nodup.not_mem_erase, Option.isSome_iff_ne_none.1 htable]
  · refine hinv.setSub hs hold hidx htable (fun hman => ?_) hsub hm hst
    have hne : sub'.lsFree ≠ lruNoIdx := fun h => hc ⟨h, hman⟩
    simp only [hfree, hne]

/-- An entry joins the free list of sub-array `s`: when the list was empty, an array evicted
by hand puts `s` back at the tail of `la_free_sub`. -/
theorem addFree (hinv : LruaInv a m) (hs : s < a.laArrayNr) (hold : (a.laSub s).lsTable.isSome)
    (hidx : sub'.lsArrayIdx = s) (htable : sub'.lsTable.isSome) (hne : sub'.lsFree ≠ lruNoIdx)
    (hsub : SubRefines (a.laIdxMask + 1) (a.slot s) m' sub')
    (hm : ∀ j, (∀ e < a.laIdxMask + 1, j ≠ a.slot s e) → m'.live j = m.live j ∧ m'.used j = m.used j)
    (hst : m'.Stamped) :
    LruaInv ((if (a.laSub s).lsFree = lruNoIdx ∧ a.evictManual = true then
      { a with laFreeSub := a.laFreeSub ++ [s] } else a).setSub s sub') m' := by
  split_ifs with hc
  · obtain ⟨hnone, hman⟩ := hc
    -- a sub-array with no free entry is on no list: `D_ASSERT(d_list_empty(&sub->ls_link))`
    have hns : s ∉ a.laFreeSub := fun h => ((hinv.freeSub_iff hman s hs).1 h).2 hnone
    refine hinv.replace hs rfl rfl rfl rfl rfl rfl (fun s' hs' => by simp [hs']) (by simp [hidx])
      (fun _ => by simpa using htable) (by simpa using hsub) hm hst (fun s' hs' => by simp [hs'])
      (fun _ _ => Iff.rfl) ?_ hinv.unusedSub_nodup ?_ hinv.unusedSub_lt (fun _ => ?_) (fun _ => ?_)
    · refine List.nodup_append.2 ⟨hinv.freeSub_nodup, List.nodup_singleton s, ?_⟩
      intro x hx y hy
      rw [List.mem_singleton.1 hy]
      exact ne_of_mem_of_not_mem hx hns
    · intro x hx
      rcases List.mem_append.1 hx with hx | hx
      · exact hinv.freeSub_lt x hx
      · rw [List.mem_singleton.1 hx]
        exact hs
    · simp [htable, hne]
    · rw [LruArray.setSub_laUnusedSub, hinv.unusedSub_iff hman s hs, LruArray.setSub_laSub,
        if_pos rfl]
      simp only [Option.isSome_iff_ne_none] at hold htable
      simp only [hold, htable]
  · refine hinv.setSub hs hold hidx htable (fun hman => ?_) hsub hm hst
    have hfree : (a.laSub s).lsFree ≠ lruNoIdx := fun h => hc ⟨h, hman⟩
    simp only [hfree, hne]

end Write

/-- `lrua_array_alloc_one` on a sub-array without a table: it gets a table with every entry
free, and moves from `la_unused_sub` to the head of `la_free_sub`. -/
theorem allocOne (hinv : LruaInv a m) {s : ℕ} (hs : s < a.laArrayNr)
    (ht : (a.laSub s).lsTable = none) {memOk : Bool} {a' : LruArray}
    (h : lruaArrayAllocOne memOk a s = .ok a') : LruaInv a' m := by
  obtain ⟨-, rfl⟩ := lruaArrayAllocOne_eq_ok.1 h
  refine hinv.replace hs rfl rfl rfl rfl rfl rfl (fun s' hs' => by simp [hs'])
    (by simpa using hinv.arrayIdx s hs) (fun _ => by simp) ?_ (fun _ _ => ⟨rfl, rfl⟩) hinv.stamped
    (fun s' hs' => by simp [hs', List.mem_erase_of_ne hs'])
    (fun s' hs' => by simp [List.mem_erase_of_ne hs']) ?_
    (by simpa using hinv.unusedSub_nodup.erase s) ?_
    (fun x hx => hinv.unusedSub_lt x (List.mem_of_mem_erase (by simpa using hx)))
    (fun _ => by simp [lruNoIdx]) (fun _ => by simp [hinv.unusedSub_nodup.not_mem_erase])
  · rw [LruArray.setSub_laSub, if_pos rfl]
    exact (hinv.sub s hs).allocOne ht hinv.shift rfl hinv.mask_lt
  · simpa using List.nodup_cons.2 ⟨hinv.freeSub_nodup.not_mem_erase, hinv.freeSub_nodup.erase s⟩
  · intro x hx
    rcases List.mem_cons.1 (by simpa using hx) with rfl | hx
    · exact hs
    · exact hinv.freeSub_lt x (List.mem_of_mem_erase hx)

/-- A round of `lrua_array_aggregate` on a sub-array of `la_free_sub`: with no entry in use it
loses its table and moves to the tail of `la_unused_sub`. -/
theorem aggregateStep (hinv : LruaInv a m) (hman : a.evictManual = true) {s : ℕ}
    (hs : s ∈ a.laFreeSub) : LruaInv (lruaArrayAggregateStep a s) m := by
  have hslt := hinv.freeSub_lt s hs
  obtain ⟨hsome, -⟩ := (hinv.freeSub_iff hman s hslt).1 hs
  obtain ⟨t, ht⟩ := Option.isSome_iff_exists.1 hsome
  unfold lruaArrayAggregateStep arrayFreeOne
  split_ifs with hlru
  · exact hinv
  · have hnu : s ∉ a.laUnusedSub := fun h => by simp [(hinv.unusedSub_iff hman s hslt).1 h] at ht
    refine hinv.replace hslt rfl rfl rfl rfl rfl rfl (fun s' hs' => by simp [hs'])
      (by simpa using hinv.arrayIdx s hslt) (fun h => by rw [hman] at h; cases h) ?_
      (fun _ _ => ⟨rfl, rfl⟩) hinv.stamped (fun s' hs' => by simp [List.mem_erase_of_ne hs'])
      (fun s' hs' => by simp [List.mem_erase_of_ne hs', hs'])
      (by simpa using hinv.freeSub_nodup.erase s) ?_
      (fun x hx => hinv.freeSub_lt x (List.mem_of_mem_erase (by simpa using hx))) ?_
      (fun _ => by simp [hinv.freeSub_nodup.not_mem_erase]) (fun _ => by simp)
    · rw [LruArray.setSub_laSub, if_pos rfl]
      exact (hinv.sub s hslt).freeTable ht (not_not.1 hlru)
    · refine List.nodup_append.2 ⟨hinv.unusedSub_nodup.erase s, List.nodup_singleton s, ?_⟩
      intro x hx y hy
      rw [List.mem_singleton.1 hy]
      exact ne_of_mem_of_not_mem hx hinv.unusedSub_nodup.not_mem_erase
    · intro x hx
      have hx' : x ∈ a.laUnusedSub.erase s ∨ x = s := by simpa using hx
      rcases hx' with hx | rfl
      · exact hinv.unusedSub_lt x (List.mem_of_mem_erase hx)
      · exact hslt

/-- The loop of `lrua_array_aggregate` over sub-arrays of `la_free_sub`, each visited once. -/
theorem aggregateSteps (hman : a.evictManual = true) (l : List ℕ) (hinv : LruaInv a m)
    (hnd : l.Nodup) (hl : ∀ s ∈ l, s ∈ a.laFreeSub) :
    LruaInv (l.foldl lruaArrayAggregateStep a) m := by
  induction l generalizing a with
  | nil => exact hinv
  | cons s l ih =>
    obtain ⟨hsl, hnd⟩ := List.nodup_cons.1 hnd
    rw [List.foldl_cons]
    refine ih (by rwa [lruaArrayAggregateStep_evictManual])
      (hinv.aggregateStep hman (hl s List.mem_cons_self)) hnd fun s' hs' => ?_
    rw [mem_lruaArrayAggregateStep_laFreeSub (ne_of_mem_of_not_mem hs' hsl)]
    exact hl s' (List.mem_cons_of_mem s hs')

theorem aggregate (hinv : LruaInv a m) : LruaInv (lruaArrayAggregate a) m := by
  unfold lruaArrayAggregate
  by_cases hman : a.evictManual = true
  · rw [if_neg (by simp [hman])]
    have hnd := hinv.freeSub_nodup
    -- the loop starts at the second sub-array of `la_free_sub`
    cases hfs : a.laFreeSub with
    | nil => exact hinv
    | cons x rest =>
      rw [hfs] at hnd
      exact aggregateSteps hman rest hinv (List.nodup_cons.1 hnd).2
        fun s hs => hfs ▸ List.mem_cons_of_mem x hs
  · rw [if_pos (by simpa using hman)]
    exact hinv

/-- An index the map holds a key at is an entry, holding that key, of a sub-array with a
table. -/
theorem live_some (hinv : LruaInv a m) {idx : ℕ} {key : UInt64} (hk : key ≠ 0)
    (hlive : m.live idx = some key) :
    ∃ t, idx < a.laCount ∧ (a.laSub (a.idx2sub idx)).lsTable = some t ∧
      (t (a.idx2ent idx)).leKey = key := by
  have hidx : idx < a.laCount := by
    by_contra hge
    rw [hinv.live_out idx (Nat.le_of_not_lt hge)] at hlive
    cases hlive
  obtain ⟨hs, he, hslot⟩ := hinv.idx_decomp hidx
  have hl := hinv.live_eq hs he
  rw [hslot, hlive] at hl
  cases ht : (a.laSub (a.idx2sub idx)).lsTable with
  | none =>
    rw [ht] at hl
    cases hl
  | some t =>
    rw [ht] at hl
    exact ⟨t, hidx, rfl, (keyLive_eq_some_iff hk).1 hl.symm⟩

/-- `lrua_lookup_idx` finds exactly the key the map holds at the index; a lookup that touches
makes the entry the most recently used. -/
theorem lookupIdx_eq (hinv : LruaInv a m) {idx : ℕ} {key : UInt64} (hk : key ≠ 0)
    (touchMru : Bool) :
    lruaLookupIdx a idx key touchMru =
      if m.live idx = some key then
        (true, if touchMru then lruaMoveToMru a (a.idx2sub idx) (a.idx2ent idx) else a)
      else (false, a) := by
  unfold lruaLookupIdx
  by_cases hidx : a.laCount ≤ idx
  · rw [if_pos hidx, if_neg (by rw [hinv.live_out idx hidx]; simp)]
  rw [if_neg hidx]
  obtain ⟨hs, he, hslot⟩ := hinv.idx_decomp (Nat.lt_of_not_le hidx)
  have hl := hinv.live_eq hs he
  rw [hslot] at hl
  dsimp only
  cases ht : (a.laSub (a.idx2sub idx)).lsTable with
  | none =>
    simp only [ht] at hl
    simp [hl]
  | some t =>
    simp only [ht] at hl
    have hent : (a.laSub (a.idx2sub idx)).entry (idx &&& a.laIdxMask) = t (a.idx2ent idx) :=
      LruSub.entry_of_lsTable ht _
    rw [if_neg (by simp), hent, hl]
    by_cases hkey : (t (a.idx2ent idx)).leKey = key
    · -- no eviction runs between calls, so a touching lookup always moves the entry
      have hsome : keyLive (t (a.idx2ent idx)).leKey = some key := by rw [hkey, keyLive_of_ne hk]
      rw [if_pos hkey, if_pos hsome, hinv.evicting]
      cases touchMru <;> rfl
    · have hnone : ¬ keyLive (t (a.idx2ent idx)).leKey = some key := by
        rw [keyLive_eq_some_iff hk]
        exact hkey
      rw [if_neg hkey, if_neg hnone]

/-- `lrua_lookupx` keeps the invariant, the map touching the index when it holds the key. -/
theorem lookupx (hinv : LruaInv a m) {idx : ℕ} {key : UInt64} (hk : key ≠ 0) :
    LruaInv (lruaLookupx a idx key).2 (if m.live idx = some key then m.touch idx else m) := by
  unfold lruaLookupx
  rw [hinv.lookupIdx_eq hk]
  by_cases hlive : m.live idx = some key
  · rw [if_pos hlive, if_pos hlive]
    show LruaInv (lruaMoveToMru a (a.idx2sub idx) (a.idx2ent idx)) (m.touch idx)
    obtain ⟨t, hidx, ht, hkey⟩ := hinv.live_some hk hlive
    obtain ⟨hs, he, hslot⟩ := hinv.idx_decomp hidx
    have hsub := (hinv.sub _ hs).moveToMru ht he (hkey ▸ hk) (slotInj a _) hinv.stamped
    rw [hslot] at hsub
    rw [lruaMoveToMru_eq]
    refine hinv.setSub hs (by simp [ht]) ?_ ?_ (fun _ => ?_) hsub
      (fun j hj => m.touch_of_ne (by rw [← hslot]; exact hj _ he)) (hinv.stamped.touch _)
    · split_ifs <;> simp [hinv.arrayIdx _ hs]
    · split_ifs <;> simp [ht]
    · split_ifs <;> simp
  · rw [if_neg hlive, if_neg hlive]
    exact hinv

/-- `lrua_evictx` keeps the invariant, the map evicting the key at the index. -/
theorem evictx (hinv : LruaInv a m) {idx : ℕ} {key : UInt64} (hk : key ≠ 0) :
    LruaInv (lruaEvictx a idx key) (m.evict idx key) := by
  by_cases hlive : m.live idx = some key
  · obtain ⟨t, hidx, ht, hkey⟩ := hinv.live_some hk hlive
    obtain ⟨hs, he, hslot⟩ := hinv.idx_decomp hidx
    rw [lruaEvictx_eq hidx (by simp [ht]) (by rw [LruSub.entry_of_lsTable ht, hkey])]
    have hsub := (hinv.sub _ hs).evict ht he hkey hk (slotInj a _) a.reuseUnique
    rw [hslot] at hsub
    have hne : a.idx2ent idx ≠ lruNoIdx := by
      have := hinv.mask_lt
      omega
    refine hinv.addFree hs (by simp [ht]) (by simp [hinv.arrayIdx _ hs]) (by simp [ht])
      (by simpa using lruaInsert_head_ne _ .free hne a.reuseUnique) hsub
      (fun j hj => m.evict_of_ne (by rw [← hslot]; exact hj _ he) key) (hinv.stamped.evict _ _)
  · rw [LruMap.evict_of_not_live hlive, lruaEvictx_eq_self]
    · exact hinv
    · rintro ⟨hidx, hsome, hkey⟩
      obtain ⟨hs, he, hslot⟩ := hinv.idx_decomp hidx
      obtain ⟨t, ht⟩ := Option.isSome_iff_exists.1 hsome
      apply hlive
      rw [← hslot, hinv.live_eq hs he, ht]
      rw [LruSub.entry_of_lsTable ht] at hkey
      simp [hkey, keyLive_of_ne hk]

/-- `sub_find_free` past its test: the head `f` of the free list of sub-array `s` is allocated
for `key`, at index `slot s f`. -/
theorem subTakeFree (hinv : LruaInv a m) {s : ℕ} (hs : s < a.laArrayNr)
    (hold : (a.laSub s).lsTable.isSome) (hfree : (a.laSub s).lsFree ≠ lruNoIdx) {key : UInt64}
    (hk : key ≠ 0) :
    (subTakeFree a s key).1 = a.slot s (a.laSub s).lsFree ∧
      (a.laSub s).lsFree < a.laIdxMask + 1 ∧
      LruaInv (subTakeFree a s key).2 (m.put (a.slot s (a.laSub s).lsFree) key) := by
  obtain ⟨t, ht⟩ := Option.isSome_iff_exists.1 hold
  obtain ⟨hlt, hsub⟩ := (hinv.sub s hs).takeFree ht hfree (slotInj a s) hinv.stamped hk
  rw [subTakeFree_eq]
  refine ⟨hinv.ent2idx_eq hs _, hlt, ?_⟩
  have hcond : ((a.laSub s).removeEntry .free (a.laSub s).lsFree).lsFree =
      ((lruaInsert ((a.laSub s).removeEntry .free (a.laSub s).lsFree) .lru (a.laSub s).lsFree
        true).modTable fun t => setKey t (a.laSub s).lsFree key).lsFree := by simp
  rw [hcond]
  exact hinv.delFree hs hold hfree (by simp [hinv.arrayIdx s hs]) (by simp [ht]) hsub
    (fun j hj => m.put_of_ne (hj _ hlt) key) (hinv.stamped.put _ _)

/-- The last branch of `lrua_find_free`, in an array that evicts by itself: with no free entry,
the head of the LRU list of the only sub-array is allocated for `key`. -/
theorem reuse (hinv : LruaInv a m) (hman : a.evictManual = false)
    (hfree : (a.laSub 0).lsFree = lruNoIdx) {key : UInt64} (hk : key ≠ 0) :
    (a.laSub 0).lsLru < a.laIdxMask + 1 ∧
      LruaInv (a.setSub 0 { (a.laSub 0).modTable (fun t => setKey t (a.laSub 0).lsLru key) with
        lsLru := ((a.laSub 0).entry (a.laSub 0).lsLru).leNextIdx })
        (m.put (a.slot 0 (a.laSub 0).lsLru) key) := by
  have hs : 0 < a.laArrayNr := by
    rw [hinv.auto_nr hman]
    exact Nat.one_pos
  have hold := hinv.auto_table hman
  obtain ⟨t, ht⟩ := Option.isSome_iff_exists.1 hold
  obtain ⟨hlt, hsub⟩ :=
    (hinv.sub 0 hs).reuse ht hfree (Nat.succ_pos _) (slotInj a 0) hinv.stamped hk
  refine ⟨hlt, hinv.setSub hs hold (by simp [hinv.arrayIdx 0 hs]) (by simp [ht])
    (fun h => by rw [hman] at h; cases h) hsub (fun j hj => m.put_of_ne (hj _ hlt) key)
    (hinv.stamped.put _ _)⟩

/-- In an array that evicts by itself with no free entry, the head of the LRU list is the least
recently used index. -/
theorem isLeastRecent_lru (hinv : LruaInv a m) (hman : a.evictManual = false)
    (hfree : (a.laSub 0).lsFree = lruNoIdx) : m.IsLeastRecent (a.slot 0 (a.laSub 0).lsLru) := by
  have hs : 0 < a.laArrayNr := by
    rw [hinv.auto_nr hman]
    exact Nat.one_pos
  obtain ⟨t, ht⟩ := Option.isSome_iff_exists.1 (hinv.auto_table hman)
  obtain ⟨lru, free, hl, hkeys, hrec⟩ := (SubRefines.of_some ht).1 (hinv.sub 0 hs)
  have hfnil : free = [] := (hl.links.head_eq_noIdx_iff .free).1 hfree
  subst hfnil
  cases lru with
  | nil =>
    have := hl.perm.length_eq
    simp at this
  | cons x xs =>
    have hx : (a.laSub 0).lsLru = x := by simpa using hl.links.head .lru
    have hxlt : x < a.laIdxMask + 1 := hl.lt_of_mem_lru List.mem_cons_self
    rw [hx]
    refine hrec.isLeastRecent_head ?_ fun j hj => ?_
    · rw [hkeys x hxlt, keyLive_isSome_iff]
      exact (hl.key_ne_zero_iff hxlt).2 List.mem_cons_self
    · -- a live index is inside the array, so an entry in use of the only sub-array
      have hjlt : j < a.laCount := by
        by_contra hge
        rw [hinv.live_out j (Nat.le_of_not_lt hge)] at hj
        cases hj
      obtain ⟨hsj, hej, hslot⟩ := hinv.idx_decomp hjlt
      have h0 : a.idx2sub j = 0 := by
        have := hinv.auto_nr hman
        omega
      rw [h0] at hslot
      rw [← hslot, hkeys _ hej, keyLive_isSome_iff] at hj
      rw [← hslot]
      exact List.mem_map_of_mem ((hl.key_ne_zero_iff hej).1 hj)

/-- `manual_find_free` that succeeds hands out an index inside the array, which the map then
holds for `key`. -/
theorem manualFindFree (hinv : LruaInv a m) (hman : a.evictManual = true) {memOk : Bool}
    {key : UInt64} (hk : key ≠ 0) {r : ℕ × LruArray} (h : manualFindFree memOk a key = .ok r) :
    r.1 < a.laCount ∧ LruaInv r.2 (m.put r.1 key) := by
  unfold Lru.manualFindFree at h
  cases hfs : a.laFreeSub with
  | cons s rest =>
    -- the first sub-array of `la_free_sub` has a free entry
    have hs : s ∈ a.laFreeSub := hfs ▸ List.mem_cons_self
    have hslt := hinv.freeSub_lt s hs
    obtain ⟨hsome, hfree⟩ := (hinv.freeSub_iff hman s hslt).1 hs
    rw [hfs, List.findSome?_cons, subFindFree, if_neg hfree] at h
    cases h
    obtain ⟨h1, hlt, hinv'⟩ := hinv.subTakeFree hslt hsome hfree hk
    rw [h1]
    exact ⟨hinv.slot_lt hslt hlt, hinv'⟩
  | nil =>
    rw [hfs, List.findSome?_nil] at h
    cases hus : a.laUnusedSub with
    | nil =>
      rw [hus] at h
      cases h
    | cons s rest =>
      -- a new table for the first unused sub-array
      rw [hus] at h
      dsimp only at h
      have hs : s ∈ a.laUnusedSub := hus ▸ List.mem_cons_self
      have hslt := hinv.unusedSub_lt s hs
      have ht := (hinv.unusedSub_iff hman s hslt).1 hs
      cases ha : lruaArrayAllocOne memOk a s with
      | error rc =>
        rw [ha] at h
        cases h
      | ok a₁ =>
        rw [ha] at h
        cases h
        have hinv₁ := hinv.allocOne hslt ht ha
        obtain ⟨-, rfl⟩ := lruaArrayAllocOne_eq_ok.1 ha
        obtain ⟨h1, hlt, hinv'⟩ :=
          hinv₁.subTakeFree (by simpa using hslt) (by simp) (by simp [lruNoIdx]) hk
        rw [h1]
        exact ⟨hinv₁.slot_lt (by simpa using hslt) hlt, hinv'⟩

/-- `lrua_allocx` that succeeds hands out an index inside the array, which the map then holds
for `key`. -/
theorem allocx (hinv : LruaInv a m) {memOk : Bool} {key : UInt64} (hk : key ≠ 0)
    {r : ℕ × LruArray} (h : lruaAllocx memOk a key = .ok r) :
    r.1 < a.laCount ∧ LruaInv r.2 (m.put r.1 key) := by
  unfold lruaAllocx lruaFindFree at h
  by_cases hman : a.evictManual = true
  · rw [if_pos hman] at h
    exact hinv.manualFindFree hman hk h
  -- an array that evicts by itself: a free entry of its only sub-array, else the least
  -- recently used one
  rw [if_neg hman] at h
  have hman : a.evictManual = false := by simpa using hman
  have hs : 0 < a.laArrayNr := by
    rw [hinv.auto_nr hman]
    exact Nat.one_pos
  by_cases hfree : (a.laSub 0).lsFree = lruNoIdx
  · rw [subFindFree, if_pos hfree] at h
    cases h
    obtain ⟨hlt, hinv'⟩ := hinv.reuse hman hfree hk
    rw [hinv.ent2idx_eq hs]
    refine ⟨hinv.slot_lt hs hlt, ?_⟩
    simpa using hinv'
  · rw [subFindFree, if_neg hfree] at h
    cases h
    obtain ⟨h1, hlt, hinv'⟩ := hinv.subTakeFree hs (hinv.auto_table hman) hfree hk
    rw [h1]
    exact ⟨hinv.slot_lt hs hlt, hinv'⟩

/-- `lrua_allocx` in an array that evicts by itself always succeeds, and when no entry is free
it hands out the least recently used index. -/
theorem allocx_auto (hinv : LruaInv a m) (hman : a.evictManual = false) (memOk : Bool)
    (key : UInt64) :
    ∃ i a', lruaAllocx memOk a key = .ok (i, a') ∧
      ((a.laSub 0).lsFree = lruNoIdx → m.IsLeastRecent i) := by
  unfold lruaAllocx lruaFindFree
  rw [if_neg (by simp [hman])]
  by_cases hfree : (a.laSub 0).lsFree = lruNoIdx
  · rw [subFindFree, if_pos hfree]
    refine ⟨_, _, rfl, fun _ => ?_⟩
    have hs : 0 < a.laArrayNr := by
      rw [hinv.auto_nr hman]
      exact Nat.one_pos
    rw [hinv.ent2idx_eq hs]
    exact hinv.isLeastRecent_lru hman hfree
  · rw [subFindFree, if_neg hfree]
    exact ⟨_, _, rfl, fun h => absurd h hfree⟩

/-- The test of `lrua_allocx_inplace` that allocates the table of sub-array `s` if it has none:
after it the invariant holds, and an entry `e` the map holds no key at is free in the table. -/
theorem allocTable (hinv : LruaInv a m) {s e : ℕ} (hs : s < a.laArrayNr)
    (he : e < a.laIdxMask + 1) (hfree : m.live (a.slot s e) = none) {memOk : Bool}
    {a₁ : LruArray}
    (h : (if (a.laSub s).lsTable.isNone then lruaArrayAllocOne memOk a s else .ok a) = .ok a₁) :
    LruaInv a₁ m ∧ a₁.laIdxMask = a.laIdxMask ∧ a₁.laArrayNr = a.laArrayNr ∧
      ∃ t, (a₁.laSub s).lsTable = some t ∧ (t e).leKey = 0 := by
  split_ifs at h with hnone
  · have hinv₁ := hinv.allocOne hs (by simpa using hnone) h
    obtain ⟨-, rfl⟩ := lruaArrayAllocOne_eq_ok.1 h
    exact ⟨hinv₁, rfl, rfl, lruaFreshTable a.laIdxMask, by simp, rfl⟩
  · cases h
    have hsome : (a.laSub s).lsTable.isSome := by
      simpa [Option.isSome_iff_ne_none] using hnone
    obtain ⟨t, ht⟩ := Option.isSome_iff_exists.1 hsome
    have hl := hinv.live_eq hs he
    simp only [hfree, ht] at hl
    refine ⟨hinv, rfl, rfl, t, ht, ?_⟩
    by_contra hne
    rw [keyLive_of_ne hne] at hl
    cases hl

/-- The end of `lrua_allocx_inplace`, once sub-array `s` has a table in which entry `e` is free:
the entry takes `key` and moves to the tail of the LRU list, and the call returns `0`. -/
theorem takeFreeAt (hinv : LruaInv a m) {s e : ℕ} (hs : s < a.laArrayNr)
    (he : e < a.laIdxMask + 1) {t : ℕ → LruEntry} (ht : (a.laSub s).lsTable = some t)
    (hkey0 : (t e).leKey = 0) {key : UInt64} (hk : key ≠ 0) {idx : ℕ} (hslot : a.slot s e = idx) :
    LruaInv
      (if ((a.laSub s).entry e).leKey ≠ key ∧ ((a.laSub s).entry e).leKey ≠ 0 then
        ((-derNoPerm, a) : ℤ × LruArray)
       else (0,
        (lruaRemoveEntry (a.setSub s ((a.laSub s).modTable fun t => setKey t e key)) s .free e).setSub
          s (lruaInsert ((lruaRemoveEntry (a.setSub s ((a.laSub s).modTable fun t => setKey t e key))
            s .free e).laSub s) .lru e true))).2
      (if (if ((a.laSub s).entry e).leKey ≠ key ∧ ((a.laSub s).entry e).leKey ≠ 0 then
        ((-derNoPerm, a) : ℤ × LruArray)
       else (0,
        (lruaRemoveEntry (a.setSub s ((a.laSub s).modTable fun t => setKey t e key)) s .free e).setSub
          s (lruaInsert ((lruaRemoveEntry (a.setSub s ((a.laSub s).modTable fun t => setKey t e key))
            s .free e).laSub s) .lru e true))).1 = 0 then m.put idx key else m) := by
  -- the entry is free, so the permission test passes
  rw [LruSub.entry_of_lsTable ht, hkey0, if_neg (by simp)]
  dsimp only
  rw [if_pos rfl, ← hslot]
  have hfree : (a.laSub s).lsFree ≠ lruNoIdx := by
    obtain ⟨lru, free, hl, -, -⟩ := (SubRefines.of_some ht).1 (hinv.sub s hs)
    intro h
    have hnil : free = [] := (hl.links.head_eq_noIdx_iff .free).1 h
    have hmem := (hl.key_free e he).1 hkey0
    rw [hnil] at hmem
    cases hmem
  have hsub := (hinv.sub s hs).takeFreeAt ht he hkey0 (slotInj a s) hinv.stamped hk
  rw [lruaRemoveEntry_setSub, LruArray.setSub_laSub, if_pos rfl, LruArray.setSub_setSub]
  have hcond : (((a.laSub s).modTable fun t => setKey t e key).removeEntry .free e).lsFree =
      (lruaInsert (((a.laSub s).modTable fun t => setKey t e key).removeEntry .free e) .lru e
        true).lsFree := by simp
  rw [hcond]
  simp only [true_and]
  exact hinv.delFree hs (by simp [ht]) hfree (by simp [hinv.arrayIdx s hs]) (by simp [ht]) hsub
    (fun j hj => m.put_of_ne (hj _ he) key) (hinv.stamped.put _ _)

/-- `lrua_allocx_inplace` on an index the map holds no key at: it fails with the array and the
map as they were, or returns `0` and the map allocates the index for `key`. -/
theorem allocxInplace (hinv : LruaInv a m) {memOk : Bool} {idx : ℕ} {key : UInt64}
    (hk : key ≠ 0) (hfree : m.live idx = none) :
    LruaInv (lruaAllocxInplace memOk a idx key).2
      (if (lruaAllocxInplace memOk a idx key).1 = 0 then m.put idx key else m) := by
  unfold lruaAllocxInplace
  by_cases hidx : a.laCount ≤ idx
  · rw [if_pos hidx]
    have hrc : ¬ ((-derInval, a) : ℤ × LruArray).1 = 0 := by simp [derInval]
    rw [if_neg hrc]
    exact hinv
  rw [if_neg hidx]
  obtain ⟨hs, he, hslot⟩ := hinv.idx_decomp (Nat.lt_of_not_le hidx)
  have hfree' : m.live (a.slot (a.idx2sub idx) (a.idx2ent idx)) = none := by
    rw [hslot]
    exact hfree
  dsimp only
  split
  · -- no table: `lrua_array_alloc_one` first
    rename_i hnone
    split
    · -- `D_ALLOC` failed: nothing changed
      rename_i rc hrc
      have hne : rc ≠ 0 := by
        unfold lruaArrayAllocOne at hrc
        split at hrc
        · cases hrc
          simp [derNomem]
        · cases hrc
      rw [if_neg hne]
      exact hinv
    · rename_i a₁ ha₁
      have h₁ : (if (a.laSub (a.idx2sub idx)).lsTable.isNone then
          lruaArrayAllocOne memOk a (a.idx2sub idx) else .ok a) = .ok a₁ := by
        rw [if_pos hnone]
        exact ha₁
      obtain ⟨hinv₁, hmask, hnr, t, ht, hkey0⟩ := hinv.allocTable hs he hfree' h₁
      have hslot₁ : a₁.slot (a.idx2sub idx) (a.idx2ent idx) =
          a.slot (a.idx2sub idx) (a.idx2ent idx) := by
        simp [LruArray.slot, hmask]
      exact hinv₁.takeFreeAt (hnr ▸ hs) (hmask ▸ he) ht hkey0 hk (hslot₁.trans hslot)
  · rename_i hsome
    have h₁ : (if (a.laSub (a.idx2sub idx)).lsTable.isNone then
        lruaArrayAllocOne memOk a (a.idx2sub idx) else .ok a) = .ok a := if_neg hsome
    obtain ⟨-, -, -, t, ht, hkey0⟩ := hinv.allocTable hs he hfree' h₁
    exact hinv.takeFreeAt hs he ht hkey0 hk hslot

end LruaInv

end Daos.Vos.Lru

import Mathlib
import Daos.Common.LruCache

/-!
# The invariant of the LRU cache of references

The cache's callers hold references on records. `LruCacheWf` says what holds of a cache between
two calls, given the number of callers that hold each record:

* the table holds each allocated record once, on the bucket of its key (`TableWf`), and
  `dlc_count` counts them;
* each record's `ll_ref` is one for the table and one per holder, a held record is allocated,
  an evicted one is held, and `dlc_lru` lists, once each, the allocated records no one holds
  (`RecWf`, the invariant of one address);
* no two records that are not evicted have the same key, and no record lives at an address
  `lop_alloc_ref` has not handed out yet.

`daos_lru_cache_evict` and the trim of `daos_lru_ref_release` take records off `dlc_lru` before
they delete them; the invariant is stated with those records `pending`, so that every single
step of their loops keeps it.

**What is proved.** Each call keeps the invariant, and each step inside the loops of
`daos_lru_ref_release` and `daos_lru_cache_evict` too. The outcomes of a call are stated once
(`refHold_cases`, `refRelease_cases`, `lruEvictCb_cases`); one lemma, `LruCacheWf.edit`, covers
every call that changes one record, and the invariant at the other addresses carries over by
`recWf_update`. Over the loops: the trim deletes from the tail of `dlc_lru` until it is empty or
the cache counts fewer records than `dlc_csize` (`trim_spec`), and `daos_lru_cache_evict` frees
exactly the selected records no one holds (`LruCacheWf.cacheEvict`).
-/

namespace Daos.LruCache

open Daos.Gurt

variable {κ : Type*}

/-- The record at `l` is allocated for `key` and not evicted: the one a lookup of `key` may
return. -/
def LiveAt (s : ℕ → Option (DaosLlink κ)) (key : κ) (l : ℕ) : Prop :=
  ∃ ll, s l = some ll ∧ ll.llKey = key ∧ ll.llEvicted = false

/-- The key of the record at each address, for the addresses that hold one. -/
def keyOf (s : ℕ → Option (DaosLlink κ)) (l : ℕ) : Option κ := (s l).map DaosLlink.llKey

@[simp] theorem isSome_keyOf (s : ℕ → Option (DaosLlink κ)) (l : ℕ) :
    (keyOf s l).isSome = (s l).isSome := by
  simp [keyOf]

/-- An edit of one record that keeps its key keeps the keys of all. -/
theorem keyOf_modLlink (s : ℕ → Option (DaosLlink κ)) (l : ℕ) {f : DaosLlink κ → DaosLlink κ}
    (hf : ∀ ll, (f ll).llKey = ll.llKey) : keyOf (modLlink s l f) = keyOf s := by
  funext l'
  rcases eq_or_ne l' l with rfl | hne
  · cases h : s l' <;> simp [keyOf, h, hf]
  · simp only [keyOf, modLlink_of_ne s hne]

theorem keyOf_update (s : ℕ → Option (DaosLlink κ)) (l : ℕ) (r : Option (DaosLlink κ)) :
    keyOf (Function.update s l r) = Function.update (keyOf s) l (r.map DaosLlink.llKey) := by
  funext l'
  rcases eq_or_ne l' l with rfl | hne
  · simp [keyOf]
  · simp [keyOf, Function.update_of_ne hne]

@[simp] theorem modLlink_eq_none (s : ℕ → Option (DaosLlink κ)) (l : ℕ)
    (f : DaosLlink κ → DaosLlink κ) (l' : ℕ) : modLlink s l f l' = none ↔ s l' = none := by
  rw [modLlink_apply]
  split_ifs with h
  · subst h
    simp
  · rfl

@[simp] theorem isSome_modLlink (s : ℕ → Option (DaosLlink κ)) (l : ℕ)
    (f : DaosLlink κ → DaosLlink κ) (l' : ℕ) : (modLlink s l f l').isSome = (s l').isSome := by
  rw [Bool.eq_iff_iff, Option.isSome_iff_ne_none, Option.isSome_iff_ne_none, ne_eq, ne_eq,
    modLlink_eq_none]

@[simp] theorem modLlink_id (s : ℕ → Option (DaosLlink κ)) (l : ℕ) : modLlink s l id = s := by
  simp only [modLlink, Option.map_id, id_eq, Function.update_eq_self]

/-- Writing the record at `l` as an edit of the record already there. -/
theorem update_eq_modLlink {s : ℕ → Option (DaosLlink κ)} {l : ℕ} {ll : DaosLlink κ}
    (h : s l = some ll) (f : DaosLlink κ → DaosLlink κ) :
    Function.update s l (some (f ll)) = modLlink s l f := by
  rw [modLlink, h, Option.map_some]

/-- An edit of one record that keeps its key and does not bring it back from eviction makes no
record live. -/
theorem LiveAt.of_modLlink {s : ℕ → Option (DaosLlink κ)} {l : ℕ} {f : DaosLlink κ → DaosLlink κ}
    (hf : ∀ ll, (f ll).llKey = ll.llKey ∧ (ll.llEvicted = true → (f ll).llEvicted = true))
    {key : κ} {l' : ℕ} (h : LiveAt (modLlink s l f) key l') : LiveAt s key l' := by
  obtain ⟨ll', hs, hkey, hev⟩ := h
  rcases eq_or_ne l' l with rfl | hne
  · rw [modLlink_self] at hs
    obtain ⟨ll, hll, rfl⟩ := Option.map_eq_some_iff.1 hs
    refine ⟨ll, hll, (hf ll).1 ▸ hkey, ?_⟩
    cases hll' : ll.llEvicted
    · rfl
    · rw [(hf ll).2 hll'] at hev
      cases hev
  · rw [modLlink_of_ne s hne] at hs
    exact ⟨ll', hs, hkey, hev⟩

/-- A list with `a` at its head, cut short and with `a` taken out, is cut short from the rest. -/
theorem erase_prefix_of_prefix_cons {a : ℕ} {xs ys : List ℕ} (h : ys <+: a :: xs) :
    ys.erase a <+: xs := by
  cases ys with
  | nil => exact List.nil_prefix
  | cons b ys =>
    obtain ⟨rfl, hys⟩ := List.cons_prefix_cons.1 h
    rw [List.erase_cons_head]
    exact hys

/-! ### The invariant of one record -/

/-- What holds of the record `r` at one address, when `n` callers hold it, `idle` says it is on
`dlc_lru`, and `pending` that it is taken off to be deleted. -/
structure RecWf (r : Option (DaosLlink κ)) (n : ℕ) (idle pending : Prop) : Prop where
  /-- One reference for the table, one for each holder. -/
  ref : ∀ ll, r = some ll → ll.llRef = n + 1
  held : 0 < n → r.isSome
  /-- An evicted record is held, or on its way out. -/
  evicted : ∀ ll, r = some ll → ll.llEvicted = true → 0 < n ∨ pending
  idle : idle ↔ r.isSome ∧ n = 0 ∧ ¬ pending
  pending : pending → r.isSome ∧ n = 0

/-- No record at the address. -/
theorem RecWf.none : RecWf (none : Option (DaosLlink κ)) 0 False False where
  ref _ h := by cases h
  held h := absurd h (Nat.lt_irrefl 0)
  evicted _ h := by cases h
  idle := by simp
  pending h := h.elim

/-- A record just allocated and inserted, held by the caller. -/
theorem RecWf.new (key : κ) : RecWf (some (⟨key, 2, false⟩ : DaosLlink κ)) 1 False False where
  ref _ h := by
    cases h
    rfl
  held _ := rfl
  evicted _ h hev := by
    cases h
    cases hev
  idle := by simp
  pending h := h.elim

/-- A reference more, on a record that was idle or held. -/
theorem RecWf.hold {ll : DaosLlink κ} {n : ℕ} {idle : Prop} (h : RecWf (some ll) n idle False) :
    RecWf (some { ll with llRef := ll.llRef + 1 }) (n + 1) False False where
  ref _ hll := by
    cases hll
    simp [h.ref ll rfl]
  held _ := rfl
  evicted _ _ _ := .inl (Nat.succ_pos n)
  idle := by simp
  pending h := h.elim

/-- A reference less, from a record held twice or more. -/
theorem RecWf.drop {ll : DaosLlink κ} {n : ℕ} (hn : 0 < n)
    (h : RecWf (some ll) (n + 1) False False) :
    RecWf (some { ll with llRef := ll.llRef - 1 }) n False False where
  ref _ hll := by
    cases hll
    simp [h.ref ll rfl]
  held _ := rfl
  evicted _ _ _ := .inl hn
  idle := by simp [Nat.pos_iff_ne_zero.1 hn]
  pending h := h.elim

/-- The record marked evicted and taken off to be deleted, no one holding it. -/
theorem RecWf.toPending {ll ll' : DaosLlink κ} {idle : Prop} (h : RecWf (some ll) 0 idle False)
    (href : ll'.llRef = ll.llRef) : RecWf (some ll') 0 False True where
  ref _ hll := by
    cases hll
    rw [href, h.ref ll rfl]
  held h := absurd h (Nat.lt_irrefl 0)
  evicted _ _ _ := .inr trivial
  idle := by simp
  pending _ := ⟨rfl, rfl⟩

/-- The last holder's release of a record that is not evicted: the record becomes idle. -/
theorem RecWf.release {ll : DaosLlink κ} (h : RecWf (some ll) 1 False False)
    (hev : ll.llEvicted = false) : RecWf (some { ll with llRef := ll.llRef - 1 }) 0 True False where
  ref _ hll := by
    cases hll
    simp [h.ref ll rfl]
  held h := absurd h (Nat.lt_irrefl 0)
  evicted _ hll hev' := by
    cases hll
    simp [hev] at hev'
  idle := by simp
  pending h := h.elim

/-- The last holder's release of a record to be deleted: marked evicted, pending. -/
theorem RecWf.releaseEvicted {ll : DaosLlink κ} (h : RecWf (some ll) 1 False False) :
    RecWf (some { ll with llRef := ll.llRef - 1, llEvicted := true }) 0 False True where
  ref _ hll := by
    cases hll
    simp [h.ref ll rfl]
  held h := absurd h (Nat.lt_irrefl 0)
  evicted _ _ _ := .inr trivial
  idle := by simp
  pending _ := ⟨rfl, rfl⟩

/-- A held record marked evicted. -/
theorem RecWf.evict {ll : DaosLlink κ} {n : ℕ} (hn : 0 < n) (h : RecWf (some ll) n False False) :
    RecWf (some { ll with llEvicted := true }) n False False where
  ref _ hll := by
    cases hll
    exact h.ref ll rfl
  held _ := rfl
  evicted _ _ _ := .inl hn
  idle := by simp [Nat.pos_iff_ne_zero.1 hn]
  pending h := h.elim

/-- The invariant of a record depends on whether it is idle or pending, not on how that is said. -/
theorem RecWf.of_iff {r : Option (DaosLlink κ)} {n : ℕ} {idle idle' pending pending' : Prop}
    (h : RecWf r n idle pending) (hi : idle' ↔ idle) (hp : pending' ↔ pending) :
    RecWf r n idle' pending' := by
  rw [propext hi, propext hp]
  exact h

/-- A held record is not idle. -/
theorem RecWf.not_idle {r : Option (DaosLlink κ)} {n : ℕ} {idle pending : Prop}
    (h : RecWf r n idle pending) (hn : 0 < n) : ¬ idle := fun hi =>
  Nat.pos_iff_ne_zero.1 hn (h.idle.1 hi).2.1

/-- The invariant at every address is kept by an edit of one address that keeps it there. -/
theorem recWf_update {s s' : ℕ → Option (DaosLlink κ)} {holds holds' : ℕ → ℕ}
    {idle idle' pending pending' : ℕ → Prop}
    (hrec : ∀ l, RecWf (s l) (holds l) (idle l) (pending l)) (l : ℕ)
    (hl : RecWf (s' l) (holds' l) (idle' l) (pending' l))
    (hother : ∀ l', l' ≠ l → s' l' = s l' ∧ holds' l' = holds l' ∧ (idle' l' ↔ idle l') ∧
      (pending' l' ↔ pending l')) :
    ∀ l', RecWf (s' l') (holds' l') (idle' l') (pending' l') := by
  intro l'
  rcases eq_or_ne l' l with rfl | hne
  · exact hl
  · obtain ⟨hs, hh, hi, hp⟩ := hother l' hne
    rw [hs, hh]
    exact (hrec l').of_iff hi hp

/-! ### The invariant of the table -/

variable [DecidableEq κ] (hash : κ → ℕ)

theorem lruOps_hopKeyCmp (s : ℕ → Option (DaosLlink κ)) (l : ℕ) (key : κ) :
    (lruOps hash).hopKeyCmp s l key = true ↔ LiveAt s key l := by
  simp only [lruOps, LiveAt]
  cases s l with
  | none => simp
  | some ll => cases hev : ll.llEvicted <;> simp [hev]

/-- A record's bucket is its key's. -/
theorem chRecHash_lruOps {s : ℕ → Option (DaosLlink κ)} {l : ℕ} {key : κ}
    (h : keyOf s l = some key) (ht : DHashTable ℕ) :
    chRecHash (lruOps hash) ht s l = chKeyHash (lruOps hash) ht key := by
  obtain ⟨ll, hs, rfl⟩ := Option.map_eq_some_iff.1 h
  simp [chRecHash, chKeyHash, lruOps, hs]

/-- The table holds each allocated record once, on the bucket of its key. -/
structure TableWf (ht : DHashTable ℕ) (keys : ℕ → Option κ) : Prop where
  nodup : ht.members.Nodup
  mem_members : ∀ l, l ∈ ht.members ↔ (keys l).isSome
  bucket : ∀ b l, l ∈ ht.htBuckets b → ∃ key, keys l = some key ∧
    b = chKeyHash (lruOps hash) ht key

namespace TableWf

variable {hash} {ht : DHashTable ℕ} {keys : ℕ → Option κ}

theorem bucket_lt (hw : TableWf hash ht keys) {b l : ℕ} (hl : l ∈ ht.htBuckets b) : b < ht.nr := by
  obtain ⟨key, -, rfl⟩ := hw.bucket b l hl
  exact chKeyHash_lt _ ht key

theorem bucket_nodup (hw : TableWf hash ht keys) (b : ℕ) : (ht.htBuckets b).Nodup := by
  by_cases hb : b < ht.nr
  · exact hw.nodup.sublist (Buckets.bucket_sublist hb ht.htBuckets)
  · -- a bucket past the last one holds nothing
    rw [List.eq_nil_iff_forall_not_mem.2 fun l hl => hb (hw.bucket_lt hl)]
    exact List.nodup_nil

/-- A record of the table is on the bucket of its key, and on no other. -/
theorem mem_bucket_iff (hw : TableWf hash ht keys) {l : ℕ} {key : κ} (hk : keys l = some key)
    (b : ℕ) : l ∈ ht.htBuckets b ↔ b = chKeyHash (lruOps hash) ht key := by
  constructor
  · intro hl
    obtain ⟨key', hk', rfl⟩ := hw.bucket b l hl
    rw [hk] at hk'
    cases hk'
    rfl
  · rintro rfl
    obtain ⟨b, hb, hl⟩ := DHashTable.mem_members.1 ((hw.mem_members l).2 (by simp [hk]))
    obtain ⟨key', hk', rfl⟩ := hw.bucket b l hl
    rw [hk] at hk'
    cases hk'
    exact hl

/-- A bucket permuted, as a lookup or an eviction does. -/
theorem setBucket_perm (hw : TableWf hash ht keys) {idx : ℕ} (hidx : idx < ht.nr) {p : List ℕ}
    (hp : p.Perm (ht.htBuckets idx)) : TableWf hash (ht.setBucket idx p) keys where
  nodup := (DHashTable.members_setBucket_of_perm hidx hp).nodup_iff.2 hw.nodup
  mem_members l := (DHashTable.members_setBucket_of_perm hidx hp).mem_iff.trans (hw.mem_members l)
  bucket b l hl := by
    rw [DHashTable.mem_setBucket_of_perm hp] at hl
    simpa using hw.bucket b l hl

/-- A record inserted at a free address, on the bucket of its key. -/
theorem insert (hw : TableWf hash ht keys) {l : ℕ} (hl : keys l = none) (key : κ) :
    TableWf hash (ht.setBucket (chKeyHash (lruOps hash) ht key)
      (l :: ht.htBuckets (chKeyHash (lruOps hash) ht key)))
      (Function.update keys l (some key)) := by
  have hperm : (ht.setBucket (chKeyHash (lruOps hash) ht key)
      (l :: ht.htBuckets (chKeyHash (lruOps hash) ht key))).members.Perm (l :: ht.members) :=
    Buckets.members_cons (chKeyHash_lt (lruOps hash) ht key) ht.htBuckets l
  have hnot : l ∉ ht.members := by simp [hw.mem_members, hl]
  -- a record already on the table is not at the new address
  have hne : ∀ b l', l' ∈ ht.htBuckets b → l' ≠ l := by
    rintro b l' hl' rfl
    exact hnot (DHashTable.mem_members.2 ⟨b, hw.bucket_lt hl', hl'⟩)
  refine ⟨?_, fun l' => ?_, fun b l' hl' => ?_⟩
  · exact hperm.nodup_iff.2 (List.nodup_cons.2 ⟨hnot, hw.nodup⟩)
  · rw [hperm.mem_iff, List.mem_cons]
    rcases eq_or_ne l' l with rfl | hne
    · simp
    · simp [hne, hw.mem_members]
  · simp only [DHashTable.setBucket, Function.update_apply] at hl'
    simp only [chKeyHash_setBucket]
    split_ifs at hl' with hb
    · subst hb
      rcases List.mem_cons.1 hl' with rfl | hl'
      · exact ⟨key, by simp, rfl⟩
      · rw [Function.update_of_ne (hne _ l' hl')]
        exact hw.bucket _ l' hl'
    · rw [Function.update_of_ne (hne b l' hl')]
      exact hw.bucket b l' hl'

/-- A record unlinked from the table, its address freed. -/
theorem delete (hw : TableWf hash ht keys) (l : ℕ) :
    TableWf hash (chRecDelete ht l) (Function.update keys l none) where
  nodup := by
    rw [chRecDelete_members hw.nodup]
    exact hw.nodup.erase l
  mem_members l' := by
    rw [chRecDelete_members hw.nodup, hw.nodup.mem_erase_iff, hw.mem_members]
    rcases eq_or_ne l' l with rfl | hne
    · simp
    · simp [hne]
  bucket b l' hl' := by
    have hin : l' ∈ ht.htBuckets b := List.mem_of_mem_erase hl'
    have hne : l' ≠ l := by
      rintro rfl
      exact (hw.bucket_nodup b).not_mem_erase hl'
    rw [Function.update_of_ne hne]
    exact hw.bucket b l' hin

end TableWf

/-! ### The invariant of the cache -/

/-- What holds of the cache `c` between two calls, when `holds l` callers hold the record at `l`
and the records of `pending` are off `dlc_lru`, to be deleted. -/
structure LruCacheWf (c : DaosLruCache κ) (holds : ℕ → ℕ) (pending : List ℕ) : Prop where
  not_ephemeral : c.dlcHtable.ephemeral = false
  table : TableWf hash c.dlcHtable (keyOf c.llinks)
  count : c.dlcCount = c.dlcHtable.members.length
  record : ∀ l, RecWf (c.llinks l) (holds l) (l ∈ c.dlcLru) (l ∈ pending)
  lru_nodup : c.dlcLru.Nodup
  pending_nodup : pending.Nodup
  /-- A lookup has at most one record to find. -/
  unique : ∀ key l₁ l₂, LiveAt c.llinks key l₁ → LiveAt c.llinks key l₂ → l₁ = l₂
  /-- `lop_alloc_ref` hands out addresses no record is at. -/
  fresh : ∀ l, c.nextLink ≤ l → c.llinks l = none

namespace LruCacheWf

variable {hash} {c : DaosLruCache κ} {holds : ℕ → ℕ} {pending : List ℕ}

theorem mem_members (hw : LruCacheWf hash c holds pending) (l : ℕ) :
    l ∈ c.dlcHtable.members ↔ (c.llinks l).isSome :=
  (hw.table.mem_members l).trans (by rw [isSome_keyOf])

/-- The idle records are among those `dlc_count` counts. -/
theorem lru_length_le (hw : LruCacheWf hash c holds pending) : c.dlcLru.length ≤ c.dlcCount := by
  rw [hw.count]
  exact hw.lru_nodup.length_le_of_subset fun l hl =>
    (hw.mem_members l).2 ((hw.record l).idle.1 hl).1

/-- The record of a key, if any, is on the key's bucket: a lookup that finds nothing there
leaves no live record of the key behind. -/
theorem find_eq_none_iff (hw : LruCacheWf hash c holds pending) (key : κ) :
    (c.dlcHtable.htBuckets (chKeyHash (lruOps hash) c.dlcHtable key)).find?
        (fun l => (lruOps hash).hopKeyCmp c.llinks l key) = none ↔
      ∀ l, ¬ LiveAt c.llinks key l := by
  rw [List.find?_eq_none]
  constructor
  · rintro h l ⟨ll, hs, rfl, hev⟩
    have hk : keyOf c.llinks l = some ll.llKey := by simp [keyOf, hs]
    exact h l ((hw.table.mem_bucket_iff hk _).2 rfl)
      ((lruOps_hopKeyCmp hash _ _ _).2 ⟨ll, hs, rfl, hev⟩)
  · intro h l _ hcmp
    exact h l ((lruOps_hopKeyCmp hash _ _ _).1 hcmp)

/-- `ch_rec_find` on the key's bucket returns the one live record of the key. -/
theorem find_eq_some_iff (hw : LruCacheWf hash c holds pending) (key : κ) (l : ℕ) :
    (c.dlcHtable.htBuckets (chKeyHash (lruOps hash) c.dlcHtable key)).find?
        (fun l => (lruOps hash).hopKeyCmp c.llinks l key) = some l ↔ LiveAt c.llinks key l := by
  constructor
  · intro h
    have hcmp := List.find?_some h
    exact (lruOps_hopKeyCmp hash c.llinks l key).1 hcmp
  · intro hl
    cases hf : (c.dlcHtable.htBuckets (chKeyHash (lruOps hash) c.dlcHtable key)).find?
        (fun l => (lruOps hash).hopKeyCmp c.llinks l key) with
    | none => exact absurd hl ((hw.find_eq_none_iff key).1 hf l)
    | some l' =>
      have hcmp := List.find?_some hf
      rw [hw.unique key l' l ((lruOps_hopKeyCmp hash c.llinks l' key).1 hcmp) hl]

/-- The outcomes of `daos_lru_ref_hold`: the live record of the key, found and taken off
`dlc_lru`; or, with none, `-DER_NONEXIST`, the error of `lop_alloc_ref`, or a new record at the
next address, inserted on the key's bucket with a reference for the table and one for the
caller. -/
theorem refHold_cases (hw : LruCacheWf hash c holds pending) (key : κ) (create : Bool)
    (allocRc : ℤ) :
    (∃ l p, LiveAt c.llinks key l ∧
      p.Perm (c.dlcHtable.htBuckets (chKeyHash (lruOps hash) c.dlcHtable key)) ∧
      daosLruRefHold hash c key create allocRc = .ok (l,
        { c with dlcHtable := c.dlcHtable.setBucket (chKeyHash (lruOps hash) c.dlcHtable key) p,
                 llinks := modLlink c.llinks l fun ll => { ll with llRef := ll.llRef + 1 },
                 dlcLru := c.dlcLru.erase l })) ∨
    ((∀ l, ¬ LiveAt c.llinks key l) ∧
      daosLruRefHold hash c key create allocRc =
        if create = false then .error (-derNonexist)
        else if allocRc ≠ 0 then .error allocRc
        else .ok (c.nextLink,
          { c with dlcHtable := c.dlcHtable.setBucket (chKeyHash (lruOps hash) c.dlcHtable key)
                     (c.nextLink :: c.dlcHtable.htBuckets (chKeyHash (lruOps hash) c.dlcHtable key)),
                   llinks := Function.update c.llinks c.nextLink (some ⟨key, 2, false⟩),
                   dlcCount := c.dlcCount + 1,
                   nextLink := c.nextLink + 1 })) := by
  cases hf : (c.dlcHtable.htBuckets (chKeyHash (lruOps hash) c.dlcHtable key)).find?
      (fun l => (lruOps hash).hopKeyCmp c.llinks l key) with
  | some l =>
    obtain ⟨p, hp, hfind⟩ := dHashRecFind_of_find_some (lruOps hash) hf
    refine .inl ⟨l, p, (hw.find_eq_some_iff key l).1 hf, hp, ?_⟩
    unfold daosLruRefHold
    rw [hfind]
    rfl
  | none =>
    refine .inr ⟨(hw.find_eq_none_iff key).1 hf, ?_⟩
    unfold daosLruRefHold
    rw [dHashRecFind_of_find_none (lruOps hash) hf]
    dsimp only
    split_ifs with hcreate hrc
    · rfl
    · rfl
    -- the exclusive insert finds no record of the key: the new one is on no bucket yet
    have hnone : (c.dlcHtable.htBuckets (chKeyHash (lruOps hash) c.dlcHtable key)).find?
        (fun l => (lruOps hash).hopKeyCmp
          (Function.update c.llinks c.nextLink (some ⟨key, 1, false⟩)) l key) = none := by
      rw [List.find?_eq_none]
      intro l hl hcmp
      have hne : l ≠ c.nextLink := by
        intro hl'
        obtain ⟨key', hk, -⟩ := hw.table.bucket _ l hl
        simp [keyOf, hw.fresh l hl'.ge] at hk
      rw [lruOps_hopKeyCmp] at hcmp
      obtain ⟨ll, hs, hkey, hev⟩ := hcmp
      rw [Function.update_of_ne hne] at hs
      exact (hw.find_eq_none_iff key).1 hf l ⟨ll, hs, hkey, hev⟩
    rw [dHashRecInsert_of_find_none (lruOps hash) _ true hnone]
    simp [hw.not_ephemeral, lruOps, modLlink]

/-! ### Each edit keeps the invariant -/

/-- No record becomes live: the invariant's uniqueness of live records carries over. -/
theorem unique_of_imp (hw : LruCacheWf hash c holds pending) {s : ℕ → Option (DaosLlink κ)}
    (h : ∀ key l, LiveAt s key l → LiveAt c.llinks key l) :
    ∀ key l₁ l₂, LiveAt s key l₁ → LiveAt s key l₂ → l₁ = l₂ := fun key l₁ l₂ h₁ h₂ =>
  hw.unique key l₁ l₂ (h key l₁ h₁) (h key l₂ h₂)

/-- The invariant of an allocated record that is not pending. -/
theorem record_of_not_pending (hw : LruCacheWf hash c holds pending) {l : ℕ} {ll : DaosLlink κ}
    (hs : c.llinks l = some ll) (hl : l ∉ pending) :
    RecWf (some ll) (holds l) (l ∈ c.dlcLru) False :=
  (hs ▸ hw.record l).of_iff Iff.rfl (iff_false_intro hl).symm

/-- The invariant of a held record: allocated, and on no list. -/
theorem record_held (hw : LruCacheWf hash c holds []) {l : ℕ} (hl : 0 < holds l) :
    ∃ ll, c.llinks l = some ll ∧ RecWf (some ll) (holds l) False False := by
  obtain ⟨ll, hs⟩ := Option.isSome_iff_exists.1 ((hw.record l).held hl)
  exact ⟨ll, hs, (hw.record_of_not_pending hs List.not_mem_nil).of_iff
    (iff_false_intro ((hw.record l).not_idle hl)).symm Iff.rfl⟩

/-- An edit of the record at `l` that keeps its key and does not bring it back from eviction,
with `dlc_lru`, the pending records and the holders changed at `l` alone, keeps the invariant
when it holds at `l`. -/
theorem edit (hw : LruCacheWf hash c holds pending) (l : ℕ) (f : DaosLlink κ → DaosLlink κ)
    (hf : ∀ ll, (f ll).llKey = ll.llKey ∧ (ll.llEvicted = true → (f ll).llEvicted = true))
    {n : ℕ} {lru pending' : List ℕ}
    (hl : RecWf ((c.llinks l).map f) n (l ∈ lru) (l ∈ pending'))
    (hlru : ∀ l', l' ≠ l → (l' ∈ lru ↔ l' ∈ c.dlcLru)) (hlru_nodup : lru.Nodup)
    (hpend : ∀ l', l' ≠ l → (l' ∈ pending' ↔ l' ∈ pending)) (hpend_nodup : pending'.Nodup) :
    LruCacheWf hash { c with llinks := modLlink c.llinks l f, dlcLru := lru }
      (Function.update holds l n) pending' where
  not_ephemeral := hw.not_ephemeral
  table := by
    rw [keyOf_modLlink c.llinks l fun ll => (hf ll).1]
    exact hw.table
  count := hw.count
  record := recWf_update hw.record l (by dsimp only; rwa [modLlink_self, Function.update_self])
    fun l' hne =>
    ⟨modLlink_of_ne _ hne _, Function.update_of_ne hne _ _, hlru l' hne, hpend l' hne⟩
  lru_nodup := hlru_nodup
  pending_nodup := hpend_nodup
  unique := hw.unique_of_imp fun _ _ h => LiveAt.of_modLlink hf h
  fresh l' hl' := (modLlink_eq_none _ _ _ _).2 (hw.fresh l' hl')

/-- An edit of the record at `l` that leaves `dlc_lru` and the pending records as they are. -/
theorem editRec (hw : LruCacheWf hash c holds pending) (l : ℕ) (f : DaosLlink κ → DaosLlink κ)
    (hf : ∀ ll, (f ll).llKey = ll.llKey ∧ (ll.llEvicted = true → (f ll).llEvicted = true))
    {n : ℕ} (hl : RecWf ((c.llinks l).map f) n (l ∈ c.dlcLru) (l ∈ pending)) :
    LruCacheWf hash { c with llinks := modLlink c.llinks l f } (Function.update holds l n)
      pending :=
  hw.edit l f hf hl (fun _ _ => Iff.rfl) hw.lru_nodup (fun _ _ => Iff.rfl) hw.pending_nodup

/-- A bucket permuted, by a lookup or an eviction. -/
theorem setBucket_perm (hw : LruCacheWf hash c holds pending) {idx : ℕ}
    (hidx : idx < c.dlcHtable.nr) {p : List ℕ} (hp : p.Perm (c.dlcHtable.htBuckets idx)) :
    LruCacheWf hash { c with dlcHtable := c.dlcHtable.setBucket idx p } holds pending where
  not_ephemeral := by simpa using hw.not_ephemeral
  table := hw.table.setBucket_perm hidx hp
  count := hw.count.trans (DHashTable.members_setBucket_of_perm hidx hp).length_eq.symm
  record := hw.record
  lru_nodup := hw.lru_nodup
  pending_nodup := hw.pending_nodup
  unique := hw.unique
  fresh := hw.fresh

/-- `daos_lru_ref_hold` of a live record: one more holder, off `dlc_lru`. -/
theorem holdFound (hw : LruCacheWf hash c holds []) {key : κ} {l : ℕ}
    (hl : LiveAt c.llinks key l) {p : List ℕ}
    (hp : p.Perm (c.dlcHtable.htBuckets (chKeyHash (lruOps hash) c.dlcHtable key))) :
    LruCacheWf hash
      { c with dlcHtable := c.dlcHtable.setBucket (chKeyHash (lruOps hash) c.dlcHtable key) p,
               llinks := modLlink c.llinks l fun ll => { ll with llRef := ll.llRef + 1 },
               dlcLru := c.dlcLru.erase l }
      (Function.update holds l (holds l + 1)) [] := by
  obtain ⟨ll, hs, -, -⟩ := hl
  have hrec := hw.record_of_not_pending hs List.not_mem_nil
  have hedit := hw.edit l (fun ll => { ll with llRef := ll.llRef + 1 }) (fun _ => ⟨rfl, id⟩)
    (by rw [hs]; exact hrec.hold.of_iff (iff_false_intro hw.lru_nodup.not_mem_erase) (by simp))
    (fun l' hne => List.mem_erase_of_ne hne) (hw.lru_nodup.erase l) (fun _ _ => Iff.rfl)
    List.nodup_nil
  exact hedit.setBucket_perm (chKeyHash_lt (lruOps hash) c.dlcHtable key) hp

/-- `daos_lru_ref_hold` that inserts a new record: one holder, on no list. -/
theorem holdCreated (hw : LruCacheWf hash c holds []) {key : κ}
    (hnone : ∀ l, ¬ LiveAt c.llinks key l) :
    LruCacheWf hash
      { c with dlcHtable := c.dlcHtable.setBucket (chKeyHash (lruOps hash) c.dlcHtable key)
                 (c.nextLink :: c.dlcHtable.htBuckets (chKeyHash (lruOps hash) c.dlcHtable key)),
               llinks := Function.update c.llinks c.nextLink (some ⟨key, 2, false⟩),
               dlcCount := c.dlcCount + 1,
               nextLink := c.nextLink + 1 }
      (Function.update holds c.nextLink (holds c.nextLink + 1)) [] := by
  have hfree := hw.fresh c.nextLink le_rfl
  have hrec := hw.record c.nextLink
  rw [hfree] at hrec
  have hheld : holds c.nextLink = 0 := Nat.eq_zero_of_not_pos fun h => by simpa using hrec.held h
  have hidle : c.nextLink ∉ c.dlcLru := fun h => by simpa using (hrec.idle.1 h).1
  have hkey : keyOf c.llinks c.nextLink = none := by simp [keyOf, hfree]
  have hperm : (c.dlcHtable.setBucket (chKeyHash (lruOps hash) c.dlcHtable key)
      (c.nextLink :: c.dlcHtable.htBuckets (chKeyHash (lruOps hash) c.dlcHtable key))).members.Perm
        (c.nextLink :: c.dlcHtable.members) :=
    Buckets.members_cons (chKeyHash_lt (lruOps hash) c.dlcHtable key) _ _
  refine ⟨by simpa using hw.not_ephemeral, ?_, ?_, ?_, hw.lru_nodup, List.nodup_nil, ?_, ?_⟩
  · rw [keyOf_update]
    exact hw.table.insert hkey key
  · simp [hperm.length_eq, hw.count]
  · refine recWf_update hw.record c.nextLink ?_ fun l' hne =>
      ⟨Function.update_of_ne hne _ _, Function.update_of_ne hne _ _, Iff.rfl, Iff.rfl⟩
    dsimp only
    rw [Function.update_self, Function.update_self, hheld]
    exact (RecWf.new key).of_iff (iff_false_intro hidle) (by simp)
  · -- the new record is the only live one of its key
    have hlive : ∀ key' l, LiveAt (Function.update c.llinks c.nextLink (some ⟨key, 2, false⟩)) key' l →
        l = c.nextLink ∧ key' = key ∨ LiveAt c.llinks key' l := by
      rintro key' l ⟨ll, hs, hk, hev⟩
      rcases eq_or_ne l c.nextLink with rfl | hne
      · rw [Function.update_self] at hs
        cases hs
        exact .inl ⟨rfl, hk.symm⟩
      · rw [Function.update_of_ne hne] at hs
        exact .inr ⟨ll, hs, hk, hev⟩
    intro key' l₁ l₂ h₁ h₂
    rcases hlive key' l₁ h₁ with ⟨e₁, hk₁⟩ | h₁ <;> rcases hlive key' l₂ h₂ with ⟨e₂, hk₂⟩ | h₂
    · rw [e₁, e₂]
    · exact absurd (hk₁ ▸ h₂) (hnone l₂)
    · exact absurd (hk₂ ▸ h₁) (hnone l₁)
    · exact hw.unique key' l₁ l₂ h₁ h₂
  · intro l' hl'
    dsimp only at hl' ⊢
    rw [Function.update_of_ne (by omega)]
    exact hw.fresh l' (by omega)

/-- `daos_lru_ref_add`: one more holder of a held record. -/
theorem refAdd (hw : LruCacheWf hash c holds []) {l : ℕ} (hl : 0 < holds l) :
    LruCacheWf hash (daosLruRefAdd c l) (Function.update holds l (holds l + 1)) [] := by
  obtain ⟨ll, hs, hrec⟩ := hw.record_held hl
  have hl' : RecWf ((c.llinks l).map fun ll => { ll with llRef := ll.llRef + 1 }) (holds l + 1)
      (l ∈ c.dlcLru) (l ∈ []) := by
    rw [hs]
    exact hrec.hold.of_iff (iff_false_intro ((hw.record l).not_idle hl)) (by simp)
  exact hw.editRec l (fun ll => { ll with llRef := ll.llRef + 1 }) (fun _ => ⟨rfl, id⟩) hl'

/-- `daos_lru_ref_evict` of a held record: marked evicted, moved within its bucket. -/
theorem refEvict (hw : LruCacheWf hash c holds []) {l : ℕ} (hl : 0 < holds l) :
    LruCacheWf hash (daosLruRefEvict hash c l) holds [] := by
  obtain ⟨ll, hs, hrec⟩ := hw.record_held hl
  have hl' : RecWf ((c.llinks l).map fun ll => { ll with llEvicted := true }) (holds l)
      (l ∈ c.dlcLru) (l ∈ []) := by
    rw [hs]
    exact (hrec.evict hl).of_iff (iff_false_intro ((hw.record l).not_idle hl)) (by simp)
  have hedit := hw.editRec l (fun ll => { ll with llEvicted := true })
    (fun _ => ⟨rfl, fun _ => rfl⟩) hl'
  rw [Function.update_eq_self] at hedit
  -- the record is on its key's bucket and on no other, so the table only permutes that bucket
  have hkey : keyOf (modLlink c.llinks l fun ll => { ll with llEvicted := true }) l =
      some ll.llKey := by simp [keyOf, hs]
  have hkey' : keyOf c.llinks l = some ll.llKey := by simp [keyOf, hs]
  have hbucket := hw.table.mem_bucket_iff hkey'
  rw [← chRecHash_lruOps hash hkey c.dlcHtable] at hbucket
  obtain ⟨p, hp, hevict⟩ := dHashRecEvictAt_eq (lruOps hash) ((hbucket _).2 rfl)
    fun b hb => (hbucket b).1 hb
  unfold daosLruRefEvict
  dsimp only
  rw [hevict]
  exact hedit.setBucket_perm (chRecHash_lruOps hash hkey c.dlcHtable ▸
    chKeyHash_lt (lruOps hash) c.dlcHtable ll.llKey) hp

/-- `lru_del_evicted` of a pending record: unlinked, its last reference dropped, freed. -/
theorem lruDelEvicted_eq {l : ℕ} (hw : LruCacheWf hash c holds (l :: pending)) :
    lruDelEvicted hash c l =
      { c with dlcHtable := chRecDelete c.dlcHtable l,
               llinks := Function.update c.llinks l none,
               dlcCount := c.dlcCount - 1 } := by
  obtain ⟨hsome, hheld⟩ := (hw.record l).pending List.mem_cons_self
  obtain ⟨ll, hs⟩ := Option.isSome_iff_exists.1 hsome
  have href : ll.llRef = 1 := by rw [(hw.record l).ref ll hs, hheld]
  have hmem : l ∈ c.dlcHtable.members := (hw.mem_members l).2 hsome
  unfold lruDelEvicted
  dsimp only
  rw [dHashRecDeleteAt_table, if_pos hmem, dHashRecDeleteAt_store _ hw.not_ephemeral _ hmem]
  simp [lruOps, hs, href, modLlink]

theorem delEvicted {l : ℕ} (hw : LruCacheWf hash c holds (l :: pending)) :
    LruCacheWf hash (lruDelEvicted hash c l) holds pending := by
  rw [hw.lruDelEvicted_eq]
  obtain ⟨hsome, hheld⟩ := (hw.record l).pending List.mem_cons_self
  have hmem : l ∈ c.dlcHtable.members := (hw.mem_members l).2 hsome
  have hnd := List.nodup_cons.1 hw.pending_nodup
  have hidle : l ∉ c.dlcLru := fun h => ((hw.record l).idle.1 h).2.2 List.mem_cons_self
  refine ⟨by simpa using hw.not_ephemeral, ?_, ?_, ?_, hw.lru_nodup, hnd.2, ?_, ?_⟩
  · rw [keyOf_update]
    exact hw.table.delete l
  · simp [chRecDelete_members hw.table.nodup, List.length_erase_of_mem hmem, hw.count]
  · refine recWf_update hw.record l ?_ fun l' hne =>
      ⟨Function.update_of_ne hne _ _, rfl, Iff.rfl, by simp [hne]⟩
    dsimp only
    rw [Function.update_self, hheld]
    exact RecWf.none.of_iff (iff_false_intro hidle) (iff_false_intro hnd.1)
  · refine hw.unique_of_imp ?_
    rintro key l' ⟨ll, hs, hk, hev⟩
    dsimp only at hs
    rcases eq_or_ne l' l with rfl | hne
    · simp at hs
    · exact ⟨ll, by rwa [Function.update_of_ne hne] at hs, hk, hev⟩
  · intro l' hl'
    dsimp only
    rcases eq_or_ne l' l with rfl | hne
    · simp
    · rw [Function.update_of_ne hne]
      exact hw.fresh l' hl'

/-! ### `daos_lru_ref_release` -/

/-- The outcomes of `daos_lru_ref_release` before its trim: a reference less; or, from the last
holder, the record to the head of `dlc_lru`; or, when it is evicted or the cache keeps no idle
record, the record marked evicted and deleted. -/
theorem refRelease_cases {l : ℕ} {ll : DaosLlink κ} (hs : c.llinks l = some ll) :
    (ll.llRef ≠ 2 ∧ daosLruRefRelease hash c l =
        lruRefReleaseTrim hash c.dlcLru.length
          { c with llinks := modLlink c.llinks l fun ll => { ll with llRef := ll.llRef - 1 } }) ∨
    (ll.llRef = 2 ∧ c.dlcCsize ≠ 0 ∧ ll.llEvicted = false ∧ daosLruRefRelease hash c l =
        lruRefReleaseTrim hash (c.dlcLru.length + 1)
          { c with llinks := modLlink c.llinks l fun ll => { ll with llRef := ll.llRef - 1 },
                   dlcLru := l :: c.dlcLru }) ∨
    (ll.llRef = 2 ∧ (c.dlcCsize = 0 ∨ ll.llEvicted = true) ∧ daosLruRefRelease hash c l =
        lruRefReleaseTrim hash c.dlcLru.length
          (lruDelEvicted hash
            { c with llinks := modLlink c.llinks l fun ll =>
                       { ll with llRef := ll.llRef - 1, llEvicted := true } } l)) := by
  unfold daosLruRefRelease
  dsimp only
  rw [modLlink_self, hs, Option.map_some]
  dsimp only
  -- the record after the decrement, and the one `lru_del_evicted` is given
  have hdec : ∀ ll', Function.update (modLlink c.llinks l fun ll => { ll with llRef := ll.llRef - 1 })
      l (some ll') = Function.update c.llinks l (some ll') := fun ll' => by
    rw [modLlink, Function.update_idem]
  have hev : Function.update c.llinks l (some { ll with llRef := ll.llRef - 1, llEvicted := true }) =
      modLlink c.llinks l fun ll => { ll with llRef := ll.llRef - 1, llEvicted := true } :=
    update_eq_modLlink hs fun ll => { ll with llRef := ll.llRef - 1, llEvicted := true }
  by_cases h2 : ll.llRef = 2
  · rw [if_pos (by omega)]
    by_cases hcs : c.dlcCsize = 0
    · refine .inr (.inr ⟨h2, .inl hcs, ?_⟩)
      simp only [if_pos hcs, if_true, hdec, hev]
      rfl
    · rw [if_neg hcs, hdec]
      by_cases hevicted : ll.llEvicted = true
      · -- an evicted record: marking it again changes nothing
        refine .inr (.inr ⟨h2, .inr hevicted, ?_⟩)
        have hll : { ll with llRef := ll.llRef - 1 } =
            { ll with llRef := ll.llRef - 1, llEvicted := true } := by
          rw [← hevicted]
        rw [if_pos hevicted, hll, hev]
        rfl
      · refine .inr (.inl ⟨h2, hcs, by simpa using hevicted, ?_⟩)
        rw [if_neg hevicted, update_eq_modLlink hs fun ll => { ll with llRef := ll.llRef - 1 }]
        rfl
  · exact .inl ⟨h2, by rw [if_neg (by omega)]⟩

/-- A release by one of several holders: the record stays held. -/
theorem releaseDrop (hw : LruCacheWf hash c holds []) {l : ℕ} (hl : 1 < holds l) :
    LruCacheWf hash
      { c with llinks := modLlink c.llinks l fun ll => { ll with llRef := ll.llRef - 1 } }
      (Function.update holds l (holds l - 1)) [] := by
  obtain ⟨ll, hs, hrec⟩ := hw.record_held (by omega : 0 < holds l)
  have hrec' : RecWf (some ll) (holds l - 1 + 1) False False := by
    rwa [Nat.sub_add_cancel (by omega : 1 ≤ holds l)]
  have hl' : RecWf ((c.llinks l).map fun ll => { ll with llRef := ll.llRef - 1 }) (holds l - 1)
      (l ∈ c.dlcLru) (l ∈ []) := by
    rw [hs]
    exact (hrec'.drop (by omega)).of_iff
      (iff_false_intro ((hw.record l).not_idle (by omega : 0 < holds l))) (by simp)
  exact hw.editRec l (fun ll => { ll with llRef := ll.llRef - 1 }) (fun _ => ⟨rfl, id⟩) hl'

/-- The last holder's release of a record that is not evicted: to the head of `dlc_lru`. -/
theorem releaseIdle (hw : LruCacheWf hash c holds []) {l : ℕ} (hl : holds l = 1)
    {ll : DaosLlink κ} (hs : c.llinks l = some ll) (hev : ll.llEvicted = false) :
    LruCacheWf hash
      { c with llinks := modLlink c.llinks l fun ll => { ll with llRef := ll.llRef - 1 },
               dlcLru := l :: c.dlcLru }
      (Function.update holds l 0) [] := by
  obtain ⟨ll', hs', hrec⟩ := hw.record_held (by omega : 0 < holds l)
  rw [hs] at hs'
  cases hs'
  have hidle : l ∉ c.dlcLru := (hw.record l).not_idle (by omega)
  have hl' : RecWf ((c.llinks l).map fun ll => { ll with llRef := ll.llRef - 1 }) 0
      (l ∈ l :: c.dlcLru) (l ∈ []) := by
    rw [hs]
    exact ((hl ▸ hrec).release hev).of_iff (iff_true_intro List.mem_cons_self) (by simp)
  exact hw.edit l (fun ll => { ll with llRef := ll.llRef - 1 }) (fun _ => ⟨rfl, id⟩) hl'
    (fun l' hne => by simp [hne]) (List.nodup_cons.2 ⟨hidle, hw.lru_nodup⟩)
    (fun _ _ => Iff.rfl) List.nodup_nil

/-- The last holder's release of an evicted record, or of any record when the cache keeps no idle
record: marked evicted and deleted. -/
theorem releaseEvicted (hw : LruCacheWf hash c holds []) {l : ℕ} (hl : holds l = 1) :
    LruCacheWf hash
      (lruDelEvicted hash
        { c with llinks := modLlink c.llinks l fun ll =>
                   { ll with llRef := ll.llRef - 1, llEvicted := true } } l)
      (Function.update holds l 0) [] := by
  obtain ⟨ll, hs, hrec⟩ := hw.record_held (by omega : 0 < holds l)
  have hl' : RecWf ((c.llinks l).map fun ll =>
      { ll with llRef := ll.llRef - 1, llEvicted := true }) 0 (l ∈ c.dlcLru) (l ∈ [l]) := by
    rw [hs]
    exact (hl ▸ hrec).releaseEvicted.of_iff
      (iff_false_intro ((hw.record l).not_idle (by omega))) (by simp)
  have hpend := hw.edit l (fun ll => { ll with llRef := ll.llRef - 1, llEvicted := true })
    (fun _ => ⟨rfl, fun _ => rfl⟩) hl' (fun _ _ => Iff.rfl) hw.lru_nodup
    (fun l' hne => by simp [hne]) (List.nodup_singleton l)
  exact hpend.delEvicted

/-- One round of the trim: the record idle the longest, at the tail of `dlc_lru`, is taken off
and deleted. -/
theorem trimRound (hw : LruCacheWf hash c holds []) {l : ℕ} (hlast : c.dlcLru.getLast? = some l) :
    LruCacheWf hash (lruDelEvicted hash { c with dlcLru := c.dlcLru.dropLast } l) holds [] := by
  obtain ⟨xs, hxs⟩ := List.getLast?_eq_some_iff.1 hlast
  have hmem : l ∈ c.dlcLru := by simp [hxs]
  have hnd : (xs ++ [l]).Nodup := hxs ▸ hw.lru_nodup
  have hnot : l ∉ xs := fun h => by simpa using List.nodup_append.1 hnd |>.2.2 l h l (by simp)
  have hdrop : c.dlcLru.dropLast = xs := by rw [hxs, List.dropLast_concat]
  obtain ⟨hsome, hheld, -⟩ := (hw.record l).idle.1 hmem
  obtain ⟨ll, hs⟩ := Option.isSome_iff_exists.1 hsome
  have hl' : RecWf ((c.llinks l).map id) (holds l) (l ∈ xs) (l ∈ [l]) := by
    rw [hs, Option.map_some, id, hheld]
    have hrec := hheld ▸ hw.record_of_not_pending hs List.not_mem_nil
    exact (hrec.toPending rfl).of_iff (iff_false_intro hnot) (by simp)
  have hpend := hw.edit l id (fun _ => ⟨rfl, id⟩) hl'
    (fun l' hne => by rw [hxs]; simp [hne]) (hnd.sublist (List.sublist_append_left _ _))
    (fun l' hne => by simp [hne]) (List.nodup_singleton l)
  rw [modLlink_id, Function.update_eq_self] at hpend
  rw [hdrop]
  exact hpend.delEvicted

/-- The trim loop keeps the invariant, drops records from the tail of `dlc_lru` only, and, given
a round for each idle record, stops with no idle record or fewer records than `dlc_csize`. -/
theorem trim_spec (fuel : ℕ) (hw : LruCacheWf hash c holds []) :
    LruCacheWf hash (lruRefReleaseTrim hash fuel c) holds [] ∧
      (lruRefReleaseTrim hash fuel c).dlcLru <+: c.dlcLru ∧
      (lruRefReleaseTrim hash fuel c).dlcCsize = c.dlcCsize ∧
      (c.dlcLru.length ≤ fuel → (lruRefReleaseTrim hash fuel c).dlcLru = [] ∨
        (lruRefReleaseTrim hash fuel c).dlcCount < c.dlcCsize) := by
  revert hw
  fun_induction lruRefReleaseTrim hash fuel c with
  | case1 c =>
    intro hw
    exact ⟨hw, List.prefix_refl _, rfl, fun h => .inl (List.eq_nil_of_length_eq_zero (by omega))⟩
  | case2 fuel c hnone =>
    intro hw
    exact ⟨hw, List.prefix_refl _, rfl, fun _ => .inl (List.getLast?_eq_none_iff.1 hnone)⟩
  | case3 fuel c l _ hlt =>
    intro hw
    exact ⟨hw, List.prefix_refl _, rfl, fun _ => .inr hlt⟩
  | case4 fuel c l hlast _ ih =>
    intro hw
    obtain ⟨hw', hpre, hcs, hbound⟩ := ih (hw.trimRound hlast)
    refine ⟨hw', hpre.trans (List.dropLast_prefix _), hcs, fun hlen => hbound ?_⟩
    show c.dlcLru.dropLast.length ≤ fuel
    rw [List.length_dropLast]
    omega

/-- `daos_lru_ref_release` keeps the invariant with a holder less, ends with no idle record or
fewer records than `dlc_csize`, and, the released record apart, keeps the head of `dlc_lru`. -/
theorem refRelease (hw : LruCacheWf hash c holds []) {l : ℕ} (hl : 0 < holds l) :
    LruCacheWf hash (daosLruRefRelease hash c l) (Function.update holds l (holds l - 1)) [] ∧
      ((daosLruRefRelease hash c l).dlcLru = [] ∨
        (daosLruRefRelease hash c l).dlcCount < (daosLruRefRelease hash c l).dlcCsize) ∧
      (daosLruRefRelease hash c l).dlcLru.erase l <+: c.dlcLru := by
  obtain ⟨ll, hs, hrec⟩ := hw.record_held hl
  have href := hrec.ref ll rfl
  have hidle : l ∉ c.dlcLru := (hw.record l).not_idle hl
  -- a prefix of `dlc_lru` does not hold the released record
  have hkeep : ∀ xs : List ℕ, xs <+: c.dlcLru → xs.erase l <+: c.dlcLru := fun xs hxs => by
    rw [List.erase_of_not_mem fun h => hidle (hxs.subset h)]
    exact hxs
  rcases refRelease_cases hs with ⟨h2, heq⟩ | ⟨h2, -, hev, heq⟩ | ⟨h2, -, heq⟩ <;> rw [heq]
  · obtain ⟨hw', hpre, hcs, hbound⟩ :=
      (hw.releaseDrop (show 1 < holds l by omega)).trim_spec c.dlcLru.length
    exact ⟨hw', by rw [hcs]; exact hbound le_rfl, hkeep _ hpre⟩
  · rw [show holds l - 1 = 0 by omega]
    obtain ⟨hw', hpre, hcs, hbound⟩ :=
      (hw.releaseIdle (show holds l = 1 by omega) hs hev).trim_spec (c.dlcLru.length + 1)
    exact ⟨hw', by rw [hcs]; exact hbound (by simp), erase_prefix_of_prefix_cons hpre⟩
  · rw [show holds l - 1 = 0 by omega]
    obtain ⟨hw', hpre, hcs, hbound⟩ :=
      (hw.releaseEvicted (show holds l = 1 by omega)).trim_spec c.dlcLru.length
    exact ⟨hw', by rw [hcs]; exact hbound le_rfl, hkeep _ hpre⟩

/-- The release by the last holder of an evicted record frees it. -/
theorem refRelease_last_evicted (hw : LruCacheWf hash c holds []) {l : ℕ} (hl : holds l = 1)
    {ll : DaosLlink κ} (hs : c.llinks l = some ll) (hev : ll.llEvicted = true) :
    (daosLruRefRelease hash c l).llinks l = none := by
  have href := (hw.record l).ref ll hs
  have hidle : l ∉ c.dlcLru := (hw.record l).not_idle (by omega)
  rcases refRelease_cases hs with ⟨h2, -⟩ | ⟨-, -, hev', -⟩ | ⟨-, -, heq⟩
  · omega
  · rw [hev] at hev'
    cases hev'
  · -- deleted, then trimmed from `dlc_lru`, which does not hold it: it stays deleted
    rw [heq]
    obtain ⟨hw', hpre, -, -⟩ := (hw.releaseEvicted hl).trim_spec c.dlcLru.length
    have hrec := hw'.record l
    rw [Function.update_self] at hrec
    rw [← Option.not_isSome_iff_eq_none]
    intro hsome
    exact hidle (hpre.subset (hrec.idle.2 ⟨hsome, rfl, List.not_mem_nil⟩))

end LruCacheWf

/-! ### `daos_lru_cache_evict` -/

/-- Whether `lru_evict_cb` marks a record: it is evicted already, there is no condition, or it
meets the condition. -/
def evictHit (cond : Option (DaosLlink κ → Bool)) (ll : DaosLlink κ) : Bool :=
  ll.llEvicted || match cond with
    | none => true
    | some f => f ll

/-- The record `lru_evict_cb` leaves behind. -/
def evictMark (cond : Option (DaosLlink κ → Bool)) (ll : DaosLlink κ) : DaosLlink κ :=
  if evictHit cond ll then { ll with llEvicted := true } else ll

/-- What `daos_lru_cache_evict` leaves at an address whose record `n` callers hold: nothing where
it frees the record, the record marked where it selects one that is held. -/
def evictResult (cond : Option (DaosLlink κ → Bool)) (n : ℕ) :
    Option (DaosLlink κ) → Option (DaosLlink κ)
  | none => none
  | some ll => if evictHit cond ll = true ∧ n = 0 then none else some (evictMark cond ll)

omit [DecidableEq κ] in
theorem lruEvictCb_snd (cond : Option (DaosLlink κ → Bool)) (arg : DaosLruCache κ × List ℕ)
    (l : ℕ) : (lruEvictCb cond arg l).2 = 0 := by
  unfold lruEvictCb
  split
  · rfl
  · dsimp only
    split_ifs <;> rfl

omit [DecidableEq κ] in
/-- The outcomes of `lru_evict_cb`: nothing, for a record it does not select; the record marked
evicted and, when only the table holds it, moved from `dlc_lru` to the list to delete. -/
theorem lruEvictCb_cases (cond : Option (DaosLlink κ → Bool)) (c : DaosLruCache κ)
    (pend : List ℕ) (l : ℕ) :
    ((lruEvictCb cond (c, pend) l).1 = (c, pend) ∧
      ∀ ll, c.llinks l = some ll → evictHit cond ll = false) ∨
    ∃ ll, c.llinks l = some ll ∧ evictHit cond ll = true ∧
      (lruEvictCb cond (c, pend) l).1 =
        if ll.llRef = 1 then
          ({ c with llinks := modLlink c.llinks l fun ll => { ll with llEvicted := true },
                    dlcLru := c.dlcLru.erase l }, l :: pend)
        else ({ c with llinks := modLlink c.llinks l fun ll => { ll with llEvicted := true } }, pend) := by
  unfold lruEvictCb
  cases hs : c.llinks l with
  | none => exact .inl ⟨rfl, fun _ h => by cases h⟩
  | some ll =>
    dsimp only
    have hmod := update_eq_modLlink hs fun ll => { ll with llEvicted := true }
    cases cond with
    | none =>
      refine .inr ⟨ll, rfl, by simp [evictHit], ?_⟩
      rw [if_pos (.inr rfl), hmod]
      split_ifs <;> rfl
    | some f =>
      dsimp only
      by_cases hhit : ll.llEvicted = true ∨ f ll = true
      · refine .inr ⟨ll, rfl, by simpa [evictHit] using hhit, ?_⟩
        rw [if_pos hhit, hmod]
        split_ifs <;> rfl
      · refine .inl ⟨by rw [if_neg hhit], fun _ h => ?_⟩
        cases h
        simpa [evictHit] using hhit

namespace LruCacheWf

variable {hash} {c : DaosLruCache κ} {holds : ℕ → ℕ} {pending : List ℕ}

/-- One call of `lru_evict_cb`, on a record not pending yet: the invariant holds again with the
record pending when it is selected and no one holds it; only that record changes, and
`dlc_lru` only loses records. -/
theorem evictStep (hw : LruCacheWf hash c holds pending) (cond : Option (DaosLlink κ → Bool))
    {l : ℕ} (hl : l ∉ pending) :
    LruCacheWf hash (lruEvictCb cond (c, pending) l).1.1 holds (lruEvictCb cond (c, pending) l).1.2 ∧
      (lruEvictCb cond (c, pending) l).1.1.dlcLru.Sublist c.dlcLru ∧
      (lruEvictCb cond (c, pending) l).1.1.dlcCsize = c.dlcCsize ∧
      (lruEvictCb cond (c, pending) l).1.1.llinks =
        Function.update c.llinks l ((c.llinks l).map (evictMark cond)) ∧
      ∀ l', l' ∈ (lruEvictCb cond (c, pending) l).1.2 ↔ l' ∈ pending ∨
        l' = l ∧ ∃ ll, c.llinks l = some ll ∧ evictHit cond ll = true ∧ holds l = 0 := by
  rcases lruEvictCb_cases cond c pending l with ⟨heq, hnot⟩ | ⟨ll, hs, hhit, heq⟩ <;> rw [heq]
  · -- a record the callback does not select stays as it is
    have hsame : Function.update c.llinks l ((c.llinks l).map (evictMark cond)) = c.llinks := by
      refine Function.update_eq_self_iff.2 ?_
      cases hs : c.llinks l with
      | none => rfl
      | some ll => rw [Option.map_some, evictMark, if_neg (by simp [hnot ll hs])]
    refine ⟨hw, List.Sublist.refl _, rfl, hsame.symm, fun l' => ⟨.inl, ?_⟩⟩
    rintro (h | ⟨-, ll, hs, hhit, -⟩)
    · exact h
    · simp [hnot ll hs] at hhit
  · have hmark : Function.update c.llinks l ((c.llinks l).map (evictMark cond)) =
        modLlink c.llinks l fun ll => { ll with llEvicted := true } := by
      rw [hs, Option.map_some, evictMark, if_pos hhit,
        update_eq_modLlink hs fun ll => { ll with llEvicted := true }]
    have href := (hw.record l).ref ll hs
    have hrec := hw.record_of_not_pending hs hl
    split_ifs with h1
    · -- only the table holds it: off `dlc_lru`, to be deleted
      have hheld : holds l = 0 := by omega
      have hl' : RecWf ((c.llinks l).map fun ll => { ll with llEvicted := true }) (holds l)
          (l ∈ c.dlcLru.erase l) (l ∈ l :: pending) := by
        have hpend : RecWf (some { ll with llEvicted := true }) 0 False True :=
          (hheld ▸ hrec).toPending rfl
        rw [hs, Option.map_some, hheld]
        exact hpend.of_iff
          (iff_false_intro hw.lru_nodup.not_mem_erase) (iff_true_intro List.mem_cons_self)
      have hedit := hw.edit l (fun ll => { ll with llEvicted := true })
        (fun _ => ⟨rfl, fun _ => rfl⟩) hl' (fun l' hne => List.mem_erase_of_ne hne)
        (hw.lru_nodup.erase l) (fun l' hne => by simp [hne])
        (List.nodup_cons.2 ⟨hl, hw.pending_nodup⟩)
      rw [Function.update_eq_self] at hedit
      refine ⟨hedit, List.erase_sublist, rfl, hmark.symm, fun l' => ?_⟩
      rcases eq_or_ne l' l with rfl | hne
      · simp [hs, hhit, hheld]
      · simp [hne]
    · -- a holder has it: marked evicted only
      have hpos : 0 < holds l := by omega
      have hl' : RecWf ((c.llinks l).map fun ll => { ll with llEvicted := true }) (holds l)
          (l ∈ c.dlcLru) (l ∈ pending) := by
        rw [hs]
        have hidle := iff_false_intro ((hw.record l).not_idle hpos)
        exact ((hrec.of_iff hidle.symm Iff.rfl).evict hpos).of_iff hidle (iff_false_intro hl)
      have hedit := hw.editRec l (fun ll => { ll with llEvicted := true })
        (fun _ => ⟨rfl, fun _ => rfl⟩) hl'
      rw [Function.update_eq_self] at hedit
      refine ⟨hedit, List.Sublist.refl _, rfl, hmark.symm, fun l' => ?_⟩
      simp [Nat.pos_iff_ne_zero.1 hpos]

/-- The traversal of `daos_lru_cache_evict`: over links visited once each and not pending yet,
`lru_evict_cb` keeps the invariant, marks each visited record it selects, and makes pending the
selected records no one holds. -/
theorem evictFold (cond : Option (DaosLlink κ → Bool)) (xs : List ℕ) (hnd : xs.Nodup)
    (hw : LruCacheWf hash c holds pending) (hdis : ∀ l ∈ xs, l ∉ pending)
    {r : DaosLruCache κ × List ℕ}
    (hr : xs.foldl (fun a l => (lruEvictCb cond a l).1) (c, pending) = r) :
    LruCacheWf hash r.1 holds r.2 ∧ r.1.dlcLru.Sublist c.dlcLru ∧ r.1.dlcCsize = c.dlcCsize ∧
      (∀ l, r.1.llinks l = if l ∈ xs then (c.llinks l).map (evictMark cond) else c.llinks l) ∧
      ∀ l, l ∈ r.2 ↔ l ∈ pending ∨
        l ∈ xs ∧ ∃ ll, c.llinks l = some ll ∧ evictHit cond ll = true ∧ holds l = 0 := by
  induction xs generalizing c pending with
  | nil =>
    subst hr
    exact ⟨hw, List.Sublist.refl _, rfl, fun l => by simp, fun l => by simp⟩
  | cons l xs ih =>
    obtain ⟨hnl, hnd⟩ := List.nodup_cons.1 hnd
    obtain ⟨hw₁, hsub₁, hcs₁, hlinks₁, hpend₁⟩ := hw.evictStep cond (hdis l List.mem_cons_self)
    have hdis₁ : ∀ x ∈ xs, x ∉ (lruEvictCb cond (c, pending) l).1.2 := by
      intro x hx hpend
      rcases (hpend₁ x).1 hpend with h | ⟨rfl, -⟩
      · exact hdis x (List.mem_cons_of_mem l hx) h
      · exact hnl hx
    obtain ⟨hw', hsub, hcs, hlinks, hpend⟩ := ih hnd hw₁ hdis₁ hr
    refine ⟨hw', hsub.trans hsub₁, hcs.trans hcs₁, fun l' => ?_, fun l' => ?_⟩
    · rw [hlinks, hlinks₁]
      rcases eq_or_ne l' l with rfl | hne
      · simp [hnl]
      · simp [hne]
    · rw [hpend, hpend₁, hlinks₁]
      rcases eq_or_ne l' l with rfl | hne
      · simp [hnl]
      · simp [hne]

/-- The deletions of `daos_lru_cache_evict`: `lru_del_evicted` of every pending record. -/
theorem delFold (pending : List ℕ) (hw : LruCacheWf hash c holds pending) :
    LruCacheWf hash (pending.foldl (lruDelEvicted hash) c) holds [] ∧
      (pending.foldl (lruDelEvicted hash) c).dlcLru = c.dlcLru ∧
      (pending.foldl (lruDelEvicted hash) c).dlcCsize = c.dlcCsize ∧
      ∀ l, (pending.foldl (lruDelEvicted hash) c).llinks l =
        if l ∈ pending then none else c.llinks l := by
  induction pending generalizing c with
  | nil => exact ⟨hw, rfl, rfl, fun l => by simp⟩
  | cons l pending ih =>
    obtain ⟨hw', hlru, hcs, hlinks⟩ := ih hw.delEvicted
    rw [List.foldl_cons]
    refine ⟨hw', ?_, ?_, fun l' => ?_⟩
    · rw [hlru, hw.lruDelEvicted_eq]
    · rw [hcs, hw.lruDelEvicted_eq]
    · rw [hlinks, hw.lruDelEvicted_eq]
      rcases eq_or_ne l' l with rfl | hne
      · simp
      · simp [hne]

/-- `daos_lru_cache_evict` keeps the invariant, and frees exactly the records it selects that
no one holds; the held ones it selects stay, marked evicted, and the others stay as they are. -/
theorem cacheEvict (hw : LruCacheWf hash c holds []) (cond : Option (DaosLlink κ → Bool)) :
    LruCacheWf hash (daosLruCacheEvict hash c cond) holds [] ∧
      (daosLruCacheEvict hash c cond).dlcLru.Sublist c.dlcLru ∧
      (daosLruCacheEvict hash c cond).dlcCsize = c.dlcCsize ∧
      ∀ l, (daosLruCacheEvict hash c cond).llinks l = evictResult cond (holds l) (c.llinks l) := by
  unfold daosLruCacheEvict
  rw [dHashTableTraverse_eq_foldl (lruEvictCb_snd cond)]
  obtain ⟨hw₁, hsub₁, hcs₁, hlinks₁, hpend₁⟩ :=
    evictFold cond c.dlcHtable.members hw.table.nodup hw (fun _ _ h => by cases h) rfl
  obtain ⟨hw', hlru, hcs, hlinks⟩ := delFold _ hw₁
  refine ⟨hw', hlru ▸ hsub₁, hcs.trans hcs₁, fun l => ?_⟩
  simp only [hlinks, hlinks₁, hpend₁, List.not_mem_nil, false_or]
  cases hs : c.llinks l with
  | none => simp [evictResult]
  | some ll =>
    have hmem : l ∈ c.dlcHtable.members := (hw.mem_members l).2 (by simp [hs])
    by_cases hsel : evictHit cond ll = true ∧ holds l = 0
    · simp [evictResult, hmem, hsel]
    · simp [evictResult, hmem, hsel]

end LruCacheWf

end Daos.LruCache

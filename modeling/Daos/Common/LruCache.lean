import Mathlib
import Daos.Gurt.Hash

/-!
# The LRU cache of references — `daos_lru_*` (`common/lru.c`, `include/daos/lru.h`)

A `struct daos_lru_cache` keeps records (`struct daos_llink`) in a `d_hash_table` with
`D_HASH_FT_LRU`, keyed by the key each was allocated for. A record counts its references in
`ll_ref`: one for the hash table, one for each holder. `daos_lru_ref_hold` finds the record of
a key, or allocates and inserts one, and takes a reference for the caller;
`daos_lru_ref_release` drops it. A record whose last holder leaves goes to the head of the idle
list `dlc_lru`, unless it is evicted, or the cache keeps no idle record (`dlc_csize` is `0`),
in which case it is deleted at once. Then, while the cache counts `dlc_csize` records or more,
the idle record at the tail of `dlc_lru`, the one idle the longest, is deleted.
`daos_lru_ref_evict` marks a record a holder has as evicted, so that no lookup finds it and
the last release deletes it; `daos_lru_cache_evict` marks every record that meets a condition,
and deletes at once those no one holds.

**What is modelled.** The records live in a store from their addresses (naturals) to
`DaosLlink`, which holds the key the record was allocated for, `ll_ref` and `ll_evicted`; the
links `ll_link` and `ll_qlink` are the address on a bucket of the table and on `dlc_lru`.
`lop_alloc_ref` allocates at the next fresh address, or fails with the code it is given;
`lop_free_ref` frees the address. The user's `lop_cmp_keys` compares a key with the key the
record was allocated for, and `lop_rec_hash` hashes that key as the table hashes keys (the
`hash` parameter stands for `d_hash_string_u32` of the key's bytes): this is what the
callbacks of the cache's users do. `lop_print_key`, the debug messages and the payloads are left
out. `daos_lru_cache_create` takes `memOk`, whether `D_ALLOC` succeeds; its check of the
mandatory callbacks is left out, since the model always has them. `daos_lru_ref_flush` is
declared in the header and defined nowhere.
-/

namespace Daos.LruCache

open Daos.Gurt

/-- `DER_NONEXIST`. -/
def derNonexist : ℤ := 1005

/-- `DER_NOMEM`. -/
def derNomem : ℤ := 1009

/-- `struct daos_llink`: the key the record was allocated for, `ll_ref` and `ll_evicted`. -/
structure DaosLlink (κ : Type*) where
  llKey : κ
  llRef : ℕ
  llEvicted : Bool
  deriving DecidableEq, Repr

/-- `struct daos_lru_cache`, with the store of the records it reaches. -/
structure DaosLruCache (κ : Type*) where
  dlcCsize : ℕ
  dlcCount : ℕ
  /-- The addresses on `dlc_lru`, from its head. -/
  dlcLru : List ℕ
  dlcHtable : DHashTable ℕ
  /-- The records by address, `none` where none is allocated. -/
  llinks : ℕ → Option (DaosLlink κ)
  /-- Where `lop_alloc_ref` puts the next record. -/
  nextLink : ℕ

variable {κ : Type*}

/-- Apply `f` to the record at `l`, if there is one. -/
def modLlink (s : ℕ → Option (DaosLlink κ)) (l : ℕ) (f : DaosLlink κ → DaosLlink κ) :
    ℕ → Option (DaosLlink κ) :=
  Function.update s l ((s l).map f)

theorem modLlink_apply (s : ℕ → Option (DaosLlink κ)) (l : ℕ) (f : DaosLlink κ → DaosLlink κ)
    (l' : ℕ) : modLlink s l f l' = if l' = l then (s l).map f else s l' := by
  rw [modLlink, Function.update_apply]

@[simp] theorem modLlink_self (s : ℕ → Option (DaosLlink κ)) (l : ℕ) (f : DaosLlink κ → DaosLlink κ) :
    modLlink s l f l = (s l).map f := by
  rw [modLlink_apply, if_pos rfl]

theorem modLlink_of_ne (s : ℕ → Option (DaosLlink κ)) {l l' : ℕ} (h : l' ≠ l)
    (f : DaosLlink κ → DaosLlink κ) : modLlink s l f l' = s l' := by
  rw [modLlink_apply, if_neg h]

variable [DecidableEq κ] (hash : κ → ℕ)

/-- `lru_ops`: the table's callbacks on the cache's records. `lru_hop_key_cmp` fails on an
evicted record and otherwise calls `lop_cmp_keys`; `lru_hop_rec_hash` calls `lop_rec_hash`;
`lru_hop_rec_decref` reports the last reference; `lru_hop_rec_free` calls `lop_free_ref`. -/
def lruOps : DHashTableOps ℕ κ (ℕ → Option (DaosLlink κ)) where
  hopKeyCmp s l key :=
    match s l with
    | some ll => if ll.llEvicted then false else decide (ll.llKey = key)
    | none => false
  hopKeyHash := hash
  hopRecHash s l :=
    match s l with
    | some ll => hash ll.llKey
    | none => 0
  hopRecAddref s l := modLlink s l fun ll => { ll with llRef := ll.llRef + 1 }
  hopRecDecref s l :=
    (modLlink s l fun ll => { ll with llRef := ll.llRef - 1 },
      match s l with
      | some ll => ll.llRef - 1 == 0
      | none => false)
  hopRecFree s l := Function.update s l none

/-- `daos_lru_cache_create`: a cache of `2 ^ bits` idle records at most, none for a negative
`bits`, over a table of `2 ^ max 4 (bits - 3)` buckets with `D_HASH_FT_LRU`. -/
def daosLruCacheCreate (bits : ℤ) (feats : ℕ) (memOk : Bool) : Except ℤ (DaosLruCache κ) :=
  if memOk = false then .error (-derNomem)
  else
    .ok { dlcCsize := if 0 ≤ bits then 1 <<< bits.toNat else 0
          dlcCount := 0
          dlcLru := []
          dlcHtable := ⟨feats ||| dHashFtLru, (max 4 (bits - 3)).toNat, fun _ => []⟩
          llinks := fun _ => none
          nextLink := 0 }

/-- `daos_lru_ref_hold`: find the record of `key` and take a reference on it; if there is none
and `create` is set, allocate one (`lop_alloc_ref` returns `allocRc`), with a reference for the
caller, and insert it. -/
def daosLruRefHold (c : DaosLruCache κ) (key : κ) (create : Bool) (allocRc : ℤ) :
    Except ℤ (ℕ × DaosLruCache κ) :=
  let found := dHashRecFind (lruOps hash) c.dlcHtable c.llinks key
  match found.1 with
  | some l =>
    -- a busy record leaves the LRU
    .ok (l, { c with dlcHtable := found.2.1, llinks := found.2.2, dlcLru := c.dlcLru.erase l })
  | none =>
    if create = false then .error (-derNonexist)
    else if allocRc ≠ 0 then .error allocRc
    else
      let l := c.nextLink
      let s := Function.update found.2.2 l (some ⟨key, 1, false⟩)
      match dHashRecInsert (lruOps hash) found.2.1 s key l true with
      | .error rc => .error rc
      | .ok r =>
        let c := { c with dlcHtable := r.1, llinks := r.2, dlcCount := c.dlcCount + 1 }
        .ok (l, { c with nextLink := l + 1 })

/-- `lru_del_evicted`: take the record off the table, which drops its last reference and frees
it, and count it out. -/
def lruDelEvicted (c : DaosLruCache κ) (l : ℕ) : DaosLruCache κ :=
  let r := dHashRecDeleteAt (lruOps hash) c.dlcHtable c.llinks l
  { c with dlcHtable := r.2.1, llinks := r.2.2, dlcCount := c.dlcCount - 1 }

/-- The loop at the end of `daos_lru_ref_release`: while the cache counts `dlc_csize` records or
more, delete the record at the tail of `dlc_lru`. Each round takes a record off `dlc_lru`, so
as many rounds as it has records are enough. -/
def lruRefReleaseTrim : ℕ → DaosLruCache κ → DaosLruCache κ
  | 0, c => c
  | fuel + 1, c =>
    match c.dlcLru.getLast? with
    | none => c
    | some l =>
      if c.dlcCount < c.dlcCsize then c
      else lruRefReleaseTrim fuel (lruDelEvicted hash { c with dlcLru := c.dlcLru.dropLast } l)

/-- `daos_lru_ref_release`: drop the caller's reference. With only the table's left, the record
goes to the head of `dlc_lru`, or is deleted if it is evicted or the cache keeps no idle record;
then the cache is trimmed. -/
def daosLruRefRelease (c : DaosLruCache κ) (l : ℕ) : DaosLruCache κ :=
  let c := { c with llinks := modLlink c.llinks l fun ll => { ll with llRef := ll.llRef - 1 } }
  let c :=
    match c.llinks l with
    | some ll =>
      if ll.llRef = 1 then
        let ll := if c.dlcCsize = 0 then { ll with llEvicted := true } else ll
        let c := { c with llinks := Function.update c.llinks l (some ll) }
        if ll.llEvicted = true then lruDelEvicted hash c l else { c with dlcLru := l :: c.dlcLru }
      else c
    | none => c
  lruRefReleaseTrim hash c.dlcLru.length c

/-- `lru_evict_cb`: mark the record evicted if it already is, if there is no condition, or if
it meets the condition; one that only the table holds moves from `dlc_lru` to the head of the
list of records to delete. -/
def lruEvictCb (cond : Option (DaosLlink κ → Bool)) (arg : DaosLruCache κ × List ℕ) (l : ℕ) :
    (DaosLruCache κ × List ℕ) × ℤ :=
  match arg.1.llinks l with
  | none => (arg, 0)
  | some ll =>
    let hit := match cond with
      | none => true
      | some f => f ll
    if ll.llEvicted = true ∨ hit = true then
      let c := arg.1
      let evicted : DaosLlink κ := { ll with llEvicted := true }
      let c := { c with llinks := Function.update c.llinks l (some evicted) }
      if ll.llRef = 1 then (({ c with dlcLru := c.dlcLru.erase l }, l :: arg.2), 0)
      else ((c, arg.2), 0)
    else (arg, 0)

/-- `daos_lru_cache_evict`: mark evicted the records that meet `cond`, all of them without one,
and delete those no one holds. -/
def daosLruCacheEvict (c : DaosLruCache κ) (cond : Option (DaosLlink κ → Bool)) :
    DaosLruCache κ :=
  let r := dHashTableTraverse c.dlcHtable (lruEvictCb cond) (c, [])
  r.2.2.foldl (lruDelEvicted hash) r.2.1

/-- `daos_lru_ref_evict`: mark the record evicted and move it to the tail of its bucket. -/
def daosLruRefEvict (c : DaosLruCache κ) (l : ℕ) : DaosLruCache κ :=
  let s := modLlink c.llinks l fun ll => { ll with llEvicted := true }
  { c with llinks := s, dlcHtable := (dHashRecEvictAt (lruOps hash) c.dlcHtable s l).2 }

/-- `daos_lru_ref_add`: one more reference for a holder. -/
def daosLruRefAdd (c : DaosLruCache κ) (l : ℕ) : DaosLruCache κ :=
  { c with llinks := modLlink c.llinks l fun ll => { ll with llRef := ll.llRef + 1 } }

/-- `daos_lru_is_last_user`. -/
def daosLruIsLastUser (ll : DaosLlink κ) : Bool := ll.llRef ≤ 2

end Daos.LruCache

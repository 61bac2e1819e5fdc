import Mathlib
import Daos.Lib.Buckets
import Daos.Lib.Multimap

/-!
# The chained hash table — `d_hash_*` (`gurt/hash.c`)

A `struct d_hash_table` keeps `1 << ht_bits` buckets, each a `d_list_t` of the links its records
embed. The table never looks into a record: it reaches it through the callbacks
`d_hash_table_ops_t`, which compare a record's key, hash a record, and take and drop references
on it. `ch_key_hash` and `ch_rec_hash` mask a hash to a bucket. A lookup `ch_rec_find` returns
the first link of the key's bucket whose record has the key, and with `D_HASH_FT_LRU` moves it
to the head (`d_hash_rec_find`) or the tail of the bucket. An insert pushes the link on the head
of the bucket and takes a reference, unless the table is `D_HASH_FT_EPHEMERAL`; a delete unlinks
it, drops that reference, and frees the record when it was the last (`hop_rec_decref` returns
true).

**What is modelled.** Links are a type `ι` with decidable equality, standing for the addresses of
the records; the records live in a store `σ` that the callbacks read and write. The callbacks
are the fields of `DHashTableOps`; `hopKeyHash` is `hop_key_hash`, or `d_hash_string_u32` of
the key's bytes for a table without one. A bucket is the list of its links from the head. The
functions are the record operations `d_hash_rec_*` that the LRU cache of `common/lru.c` and the
handle table `d_hhash` call, with `d_hash_table_traverse` and the queries built on it. The
locks, the debug counters and the `NULL` checks of the arguments are left out; the callbacks the
model takes are always given, so the branches for a missing `hop_rec_hash`, `hop_rec_addref` or
`hop_rec_decref` are left out too.

**What is proved.** Each function's effect on the buckets: a lookup permutes the key's bucket,
an insert pushes the link on it, a delete erases the link from the bucket that holds it, an
eviction moves the link within its own bucket. Read through `Buckets.members`, the links on the
table are permuted, consed or erased accordingly, and a traversal with a callback that always
returns `0` is a left fold over them.
-/

namespace Daos.Gurt

/-- `DER_INVAL`. -/
def derInval : ℤ := 1003

/-- `DER_EXIST`. -/
def derExist : ℤ := 1004

/-- `D_HASH_FT_EPHEMERAL`. -/
def dHashFtEphemeral : ℕ := 1 <<< 3

/-- `D_HASH_FT_LRU`. -/
def dHashFtLru : ℕ := 1 <<< 4

/-- `enum d_hash_lru`: where `ch_rec_find` moves the link it finds. -/
inductive DHashLru
  | tail
  | none
  | head
  deriving DecidableEq, Repr

/-- `d_hash_table_ops_t` for links `ι`, keys `κ` and the store `σ` of the records. -/
structure DHashTableOps (ι κ σ : Type*) where
  hopKeyCmp : σ → ι → κ → Bool
  /-- `hop_key_hash`, or `d_hash_string_u32` of the key's bytes when the table has none. -/
  hopKeyHash : κ → ℕ
  hopRecHash : σ → ι → ℕ
  hopRecAddref : σ → ι → σ
  /-- The store after the reference is dropped, and whether it was the last. -/
  hopRecDecref : σ → ι → σ × Bool
  hopRecFree : σ → ι → σ

/-- `struct d_hash_table`: its features, `ht_bits`, and the links of every bucket from its
head. -/
structure DHashTable (ι : Type*) where
  htFeats : ℕ
  htBits : ℕ
  htBuckets : ℕ → List ι

namespace DHashTable

variable {ι : Type*}

/-- `1U << ht_bits`, the number of buckets. -/
def nr (ht : DHashTable ι) : ℕ := 1 <<< ht.htBits

/-- The links on the table, bucket after bucket. -/
def members (ht : DHashTable ι) : List ι := Buckets.members ht.nr ht.htBuckets

/-- `ht_feats & D_HASH_FT_EPHEMERAL`. -/
def ephemeral (ht : DHashTable ι) : Bool := ht.htFeats &&& dHashFtEphemeral != 0

/-- `ht_feats & D_HASH_FT_LRU`. -/
def lru (ht : DHashTable ι) : Bool := ht.htFeats &&& dHashFtLru != 0

/-- Replace the links of bucket `idx`. -/
def setBucket (ht : DHashTable ι) (idx : ℕ) (l : List ι) : DHashTable ι :=
  { ht with htBuckets := Function.update ht.htBuckets idx l }

@[simp] theorem setBucket_htFeats (ht : DHashTable ι) (idx : ℕ) (l : List ι) :
    (ht.setBucket idx l).htFeats = ht.htFeats := rfl

@[simp] theorem setBucket_htBits (ht : DHashTable ι) (idx : ℕ) (l : List ι) :
    (ht.setBucket idx l).htBits = ht.htBits := rfl

@[simp] theorem setBucket_nr (ht : DHashTable ι) (idx : ℕ) (l : List ι) :
    (ht.setBucket idx l).nr = ht.nr := rfl

@[simp] theorem setBucket_ephemeral (ht : DHashTable ι) (idx : ℕ) (l : List ι) :
    (ht.setBucket idx l).ephemeral = ht.ephemeral := rfl

@[simp] theorem setBucket_self (ht : DHashTable ι) (idx : ℕ) :
    ht.setBucket idx (ht.htBuckets idx) = ht := by
  rw [setBucket, Function.update_eq_self]

theorem nr_eq (ht : DHashTable ι) : ht.nr = 2 ^ ht.htBits := by
  rw [nr, Nat.shiftLeft_eq, Nat.one_mul]

theorem mem_members {ht : DHashTable ι} {x : ι} :
    x ∈ ht.members ↔ ∃ b < ht.nr, x ∈ ht.htBuckets b :=
  Buckets.mem_members

/-- Replacing a bucket by a permutation of itself keeps the links of every bucket. -/
theorem mem_setBucket_of_perm {ht : DHashTable ι} {idx : ℕ} {l : List ι}
    (hl : l.Perm (ht.htBuckets idx)) (b : ℕ) (x : ι) :
    x ∈ (ht.setBucket idx l).htBuckets b ↔ x ∈ ht.htBuckets b := by
  simp only [setBucket, Function.update_apply]
  split_ifs with hb
  · rw [hb]
    exact hl.mem_iff
  · rfl

theorem members_setBucket_of_perm {ht : DHashTable ι} {idx : ℕ} (hidx : idx < ht.nr)
    {l : List ι} (hl : l.Perm (ht.htBuckets idx)) :
    (ht.setBucket idx l).members.Perm ht.members :=
  Buckets.members_perm_of_perm hidx _ hl

end DHashTable

variable {ι κ σ : Type*} (ops : DHashTableOps ι κ σ)

/-- `ch_key_hash`: the bucket of a key. -/
def chKeyHash (ht : DHashTable ι) (key : κ) : ℕ :=
  ops.hopKeyHash key &&& ((1 <<< ht.htBits) - 1)

/-- `ch_rec_hash`: the bucket of a record. -/
def chRecHash (ht : DHashTable ι) (s : σ) (link : ι) : ℕ :=
  ops.hopRecHash s link &&& ((1 <<< ht.htBits) - 1)

@[simp] theorem chKeyHash_setBucket (ht : DHashTable ι) (idx : ℕ) (l : List ι) (key : κ) :
    chKeyHash ops (ht.setBucket idx l) key = chKeyHash ops ht key := rfl

@[simp] theorem chRecHash_setBucket (ht : DHashTable ι) (idx : ℕ) (l : List ι) (s : σ) (link : ι) :
    chRecHash ops (ht.setBucket idx l) s link = chRecHash ops ht s link := rfl

theorem chKeyHash_lt (ht : DHashTable ι) (key : κ) : chKeyHash ops ht key < ht.nr := by
  rw [chKeyHash, DHashTable.nr_eq, Nat.shiftLeft_eq, Nat.one_mul]
  have := Nat.two_pow_pos ht.htBits
  exact Nat.lt_of_le_of_lt Nat.and_le_right (by omega)

theorem chRecHash_eq (ht : DHashTable ι) (s : σ) (link : ι) :
    chRecHash ops ht s link = ops.hopRecHash s link % 2 ^ ht.htBits := by
  rw [chRecHash, Nat.shiftLeft_eq, Nat.one_mul, Nat.and_two_pow_sub_one_eq_mod]

variable [DecidableEq ι]

/-- `ch_rec_find`: the first link of `bucket` whose record has the key; with `D_HASH_FT_LRU` it
moves to the head or the tail of the bucket, as `lru` asks. -/
def chRecFind (ht : DHashTable ι) (s : σ) (bucket : List ι) (key : κ) (lru : DHashLru) :
    Option ι × List ι :=
  match bucket.find? fun link => ops.hopKeyCmp s link key with
  | none => (none, bucket)
  | some link =>
    if ht.lru = true ∧ lru ≠ .none then
      if lru = .head ∧ bucket.head? ≠ some link then (some link, link :: bucket.erase link)
      else if lru = .tail ∧ bucket.getLast? ≠ some link then (some link, bucket.erase link ++ [link])
      else (some link, bucket)
    else (some link, bucket)

/-- `d_hash_rec_find`: the link of the key, moved to the head of its bucket, with a reference
taken on its record. -/
def dHashRecFind (ht : DHashTable ι) (s : σ) (key : κ) : Option ι × DHashTable ι × σ :=
  let idx := chKeyHash ops ht key
  let found := chRecFind ops ht s (ht.htBuckets idx) key .head
  let ht := ht.setBucket idx found.2
  match found.1 with
  | some link => (some link, ht, ops.hopRecAddref s link)
  | none => (none, ht, s)

/-- `ch_rec_insert_addref`: push the link on bucket `idx`, with a reference on its record unless
the table is `D_HASH_FT_EPHEMERAL`. -/
def chRecInsertAddref (ht : DHashTable ι) (s : σ) (idx : ℕ) (link : ι) : DHashTable ι × σ :=
  (ht.setBucket idx (link :: ht.htBuckets idx),
    if ht.ephemeral then s else ops.hopRecAddref s link)

omit [DecidableEq ι] in
@[simp] theorem chRecInsertAddref_fst (ht : DHashTable ι) (s : σ) (idx : ℕ) (link : ι) :
    (chRecInsertAddref ops ht s idx link).1 = ht.setBucket idx (link :: ht.htBuckets idx) := rfl

omit [DecidableEq ι] in
@[simp] theorem chRecInsertAddref_snd (ht : DHashTable ι) (s : σ) (idx : ℕ) (link : ι) :
    (chRecInsertAddref ops ht s idx link).2 = if ht.ephemeral then s else ops.hopRecAddref s link :=
  rfl

/-- `d_hash_rec_insert`: an exclusive insert fails with `-DER_EXIST` when the bucket has a link
whose record has the key. -/
def dHashRecInsert (ht : DHashTable ι) (s : σ) (key : κ) (link : ι) (exclusive : Bool) :
    Except ℤ (DHashTable ι × σ) :=
  let idx := chKeyHash ops ht key
  if exclusive = true ∧ (chRecFind ops ht s (ht.htBuckets idx) key .none).1.isSome then
    .error (-derExist)
  else .ok (chRecInsertAddref ops ht s idx link)

/-- `ch_rec_delete`: `d_list_del_init` of the link, off the bucket that holds it. -/
def chRecDelete (ht : DHashTable ι) (link : ι) : DHashTable ι :=
  { ht with htBuckets := fun b => (ht.htBuckets b).erase link }

@[simp] theorem chRecDelete_nr (ht : DHashTable ι) (link : ι) : (chRecDelete ht link).nr = ht.nr :=
  rfl

@[simp] theorem chRecDelete_ephemeral (ht : DHashTable ι) (link : ι) :
    (chRecDelete ht link).ephemeral = ht.ephemeral := rfl

@[simp] theorem chKeyHash_chRecDelete (ht : DHashTable ι) (link : ι) (key : κ) :
    chKeyHash ops (chRecDelete ht link) key = chKeyHash ops ht key := rfl

/-- `ch_rec_del_decref`: unlink, and drop the table's reference unless it is ephemeral; whether
that was the last reference. -/
def chRecDelDecref (ht : DHashTable ι) (s : σ) (link : ι) : DHashTable ι × σ × Bool :=
  if ht.ephemeral then (chRecDelete ht link, s, false)
  else
    let r := ops.hopRecDecref s link
    (chRecDelete ht link, r.1, r.2)

/-- `d_hash_rec_delete_at`: if the link is on the table, unlink it and drop the table's
reference, freeing the record when it was the last. -/
def dHashRecDeleteAt (ht : DHashTable ι) (s : σ) (link : ι) : Bool × DHashTable ι × σ :=
  if link ∈ ht.members then
    let r := chRecDelDecref ops ht s link
    (true, r.1, if r.2.2 then ops.hopRecFree r.2.1 link else r.2.1)
  else (false, ht, s)

/-- `d_hash_rec_evict_at`: with `D_HASH_FT_LRU`, move the link to the tail of its bucket. -/
def dHashRecEvictAt (ht : DHashTable ι) (s : σ) (link : ι) : Bool × DHashTable ι :=
  if ht.lru = false then (false, ht)
  else
    let idx := chRecHash ops ht s link
    if (ht.htBuckets idx).getLast? ≠ some link then
      (true, (chRecDelete ht link).setBucket idx ((ht.htBuckets idx).erase link ++ [link]))
    else (false, ht)

/-- `d_hash_rec_find_insert`: the record of the key, moved to the head of its bucket and with a
reference taken, or, when the key has none, `link` inserted. -/
def dHashRecFindInsert (ht : DHashTable ι) (s : σ) (key : κ) (link : ι) : ι × DHashTable ι × σ :=
  let idx := chKeyHash ops ht key
  let found := chRecFind ops ht s (ht.htBuckets idx) key .head
  let ht := ht.setBucket idx found.2
  match found.1 with
  | some tmp => (tmp, ht, ops.hopRecAddref s tmp)
  | none =>
    let r := chRecInsertAddref ops ht s idx link
    (link, r.1, r.2)

/-- `d_hash_rec_insert_anonym`: `hop_key_init` gives the record its key, and the link goes on
the bucket of the record. A table without `hop_key_init` refuses with `-DER_INVAL`. -/
def dHashRecInsertAnonym {α : Type*} (keyInit : Option (σ → ι → α → σ)) (ht : DHashTable ι)
    (s : σ) (link : ι) (arg : α) : Except ℤ (DHashTable ι × σ) :=
  match keyInit with
  | none => .error (-derInval)
  | some init =>
    let s := init s link arg
    .ok (chRecInsertAddref ops ht s (chRecHash ops ht s link) link)

/-- `d_hash_rec_delete`: unlink the first record of the key and drop the table's reference,
freeing the record when that was the last; whether the key had a record. -/
def dHashRecDelete (ht : DHashTable ι) (s : σ) (key : κ) : Bool × DHashTable ι × σ :=
  let idx := chKeyHash ops ht key
  match (chRecFind ops ht s (ht.htBuckets idx) key .none).1 with
  | some link =>
    let r := chRecDelDecref ops ht s link
    (true, r.1, if r.2.2 then ops.hopRecFree r.2.1 link else r.2.1)
  | none => (false, ht, s)

/-- `d_hash_rec_evict`: with `D_HASH_FT_LRU`, move the first record of the key to the tail of its
bucket; whether the key has a record. -/
def dHashRecEvict (ht : DHashTable ι) (s : σ) (key : κ) : Bool × DHashTable ι :=
  if ht.lru = false then (false, ht)
  else
    let idx := chKeyHash ops ht key
    let found := chRecFind ops ht s (ht.htBuckets idx) key .tail
    (found.1.isSome, ht.setBucket idx found.2)

/-- `d_hash_rec_addref`. -/
def dHashRecAddref (s : σ) (link : ι) : σ := ops.hopRecAddref s link

/-- `d_hash_rec_decref`: drop a reference. On a `D_HASH_FT_EPHEMERAL` table the last one also
unlinks the record, and a record whose last reference is dropped is freed; `none` where
`D_ASSERT(!zombie || d_list_empty(link))` fails, a record freed while on the table. -/
def dHashRecDecref (ht : DHashTable ι) (s : σ) (link : ι) : Option (DHashTable ι × σ) :=
  let r := ops.hopRecDecref s link
  let ht := if r.2 = true ∧ ht.ephemeral = true ∧ link ∈ ht.members then chRecDelete ht link
    else ht
  if r.2 = true ∧ link ∈ ht.members then none
  else some (ht, if r.2 then ops.hopRecFree r.1 link else r.1)

/-- The inner loop of `d_hash_table_traverse`: the callback on each link of a bucket until it
returns non-zero. -/
def traverseBucket {α : Type*} (cb : α → ι → α × ℤ) : List ι → α → ℤ × α
  | [], arg => (0, arg)
  | link :: links, arg =>
    let r := cb arg link
    if r.2 ≠ 0 then (r.2, r.1) else traverseBucket cb links r.1

/-- The outer loop of `d_hash_table_traverse`: the buckets in order, while the callback returns
zero. -/
def traverseBuckets {α : Type*} (cb : α → ι → α × ℤ) : List (List ι) → α → ℤ × α
  | [], arg => (0, arg)
  | bucket :: buckets, arg =>
    let r := traverseBucket cb bucket arg
    if r.1 ≠ 0 then r else traverseBuckets cb buckets r.2

/-- `d_hash_table_traverse`. -/
def dHashTableTraverse {α : Type*} (ht : DHashTable ι) (cb : α → ι → α × ℤ) (arg : α) :
    ℤ × α :=
  traverseBuckets cb ((List.range ht.nr).map ht.htBuckets) arg

/-- `d_hash_find_single`: keep the link and stop the traversal. -/
def dHashFindSingle (_ : Option ι) (link : ι) : Option ι × ℤ := (some link, 1)

/-- `d_hash_rec_first`: the first link a traversal meets. -/
def dHashRecFirst (ht : DHashTable ι) : Option ι :=
  (dHashTableTraverse ht dHashFindSingle none).2

/-- `d_hash_table_is_empty`: every bucket, in order, while they are empty. -/
def dHashTableIsEmpty (ht : DHashTable ι) : Bool :=
  (List.range ht.nr).all fun idx => (ht.htBuckets idx).isEmpty

/-! ### The buckets after each function -/

/-- A lookup finds the first link of the bucket whose record has the key, and leaves the
bucket a permutation of itself. -/
theorem chRecFind_spec (ht : DHashTable ι) (s : σ) (bucket : List ι) (key : κ)
    (lru : DHashLru) :
    (chRecFind ops ht s bucket key lru).1 = bucket.find? (fun link => ops.hopKeyCmp s link key) ∧
      (chRecFind ops ht s bucket key lru).2.Perm bucket := by
  unfold chRecFind
  cases hf : bucket.find? fun link => ops.hopKeyCmp s link key with
  | none => exact ⟨rfl, List.Perm.refl _⟩
  | some link =>
    have hmem : link ∈ bucket := List.mem_of_find?_eq_some hf
    -- the moves to the head and to the tail are the two permutations
    have hhead : (link :: bucket.erase link).Perm bucket := (List.perm_cons_erase hmem).symm
    have htail : (bucket.erase link ++ [link]).Perm bucket :=
      List.perm_append_comm.trans hhead
    dsimp only
    split_ifs
    · exact ⟨rfl, hhead⟩
    · exact ⟨rfl, htail⟩
    · exact ⟨rfl, List.Perm.refl _⟩
    · exact ⟨rfl, List.Perm.refl _⟩

/-- `d_hash_rec_find` of a key that no record of its bucket has leaves the table and the records
as they are. -/
theorem dHashRecFind_of_find_none {ht : DHashTable ι} {s : σ} {key : κ}
    (h : (ht.htBuckets (chKeyHash ops ht key)).find? (fun l => ops.hopKeyCmp s l key) = none) :
    dHashRecFind ops ht s key = (none, ht, s) := by
  unfold dHashRecFind chRecFind
  dsimp only
  rw [h, DHashTable.setBucket_self]

/-- `d_hash_rec_find` of a key whose first match on its bucket is `link` permutes the bucket and
takes a reference on the record. -/
theorem dHashRecFind_of_find_some {ht : DHashTable ι} {s : σ} {key : κ} {link : ι}
    (h : (ht.htBuckets (chKeyHash ops ht key)).find? (fun l => ops.hopKeyCmp s l key) = some link) :
    ∃ l, l.Perm (ht.htBuckets (chKeyHash ops ht key)) ∧
      dHashRecFind ops ht s key =
        (some link, ht.setBucket (chKeyHash ops ht key) l, ops.hopRecAddref s link) := by
  obtain ⟨hfind, hperm⟩ := chRecFind_spec ops ht s (ht.htBuckets (chKeyHash ops ht key)) key .head
  refine ⟨_, hperm, ?_⟩
  unfold dHashRecFind
  dsimp only
  rw [hfind, h]

/-- A lookup that finds nothing leaves the bucket as it is. -/
theorem chRecFind_of_find_none {ht : DHashTable ι} {s : σ} {bucket : List ι} {key : κ}
    (h : bucket.find? (fun l => ops.hopKeyCmp s l key) = none) (lru : DHashLru) :
    chRecFind ops ht s bucket key lru = (none, bucket) := by
  unfold chRecFind
  rw [h]

/-- `ch_rec_find` with `D_HASH_LRU_HEAD`: on an LRU table the link found goes to the head of the
bucket. -/
theorem chRecFind_head {ht : DHashTable ι} {s : σ} {bucket : List ι} {key : κ} {link : ι}
    (h : bucket.find? (fun l => ops.hopKeyCmp s l key) = some link) :
    chRecFind ops ht s bucket key .head =
      (some link, if ht.lru = true then link :: bucket.erase link else bucket) := by
  unfold chRecFind
  rw [h]
  dsimp only
  by_cases hlru : ht.lru = true
  · rw [if_pos ⟨hlru, by decide⟩, if_pos hlru]
    by_cases hhead : bucket.head? = some link
    · -- already at the head: the move changes nothing
      obtain ⟨t, rfl⟩ := List.head?_eq_some_iff.1 hhead
      simp [List.erase_cons_head]
    · rw [if_pos ⟨rfl, hhead⟩]
  · rw [if_neg (by simp [hlru]), if_neg hlru]

/-- `ch_rec_find` with `D_HASH_LRU_TAIL`: on an LRU table the link found goes to the tail of the
bucket. -/
theorem chRecFind_tail {ht : DHashTable ι} {s : σ} {bucket : List ι} {key : κ} {link : ι}
    (hnd : bucket.Nodup) (h : bucket.find? (fun l => ops.hopKeyCmp s l key) = some link) :
    chRecFind ops ht s bucket key .tail =
      (some link, if ht.lru = true then bucket.erase link ++ [link] else bucket) := by
  unfold chRecFind
  rw [h]
  dsimp only
  by_cases hlru : ht.lru = true
  · rw [if_pos ⟨hlru, by decide⟩, if_pos hlru, if_neg (by simp)]
    by_cases hlast : bucket.getLast? = some link
    · -- already at the tail: with no duplicate, the move changes nothing
      rw [if_neg (fun h => h.2 hlast), Multimap.erase_append_of_getLast? hnd hlast]
    · rw [if_pos ⟨rfl, hlast⟩]
  · rw [if_neg (by simp [hlru]), if_neg hlru]

/-- `d_hash_rec_find` of a key whose first match on its bucket is `link`: on an LRU table the
link moves to the head of the bucket, and its record gets a reference. -/
theorem dHashRecFind_eq_some {ht : DHashTable ι} {s : σ} {key : κ} {link : ι}
    (h : (ht.htBuckets (chKeyHash ops ht key)).find? (fun l => ops.hopKeyCmp s l key) = some link) :
    dHashRecFind ops ht s key = (some link, ht.setBucket (chKeyHash ops ht key)
        (if ht.lru = true then link :: (ht.htBuckets (chKeyHash ops ht key)).erase link
          else ht.htBuckets (chKeyHash ops ht key)), ops.hopRecAddref s link) := by
  unfold dHashRecFind
  dsimp only
  rw [chRecFind_head ops h]

/-- An exclusive insert of a key no record of the bucket has succeeds. -/
theorem dHashRecInsert_of_find_none {ht : DHashTable ι} {s : σ} {key : κ} (link : ι)
    (exclusive : Bool)
    (h : (ht.htBuckets (chKeyHash ops ht key)).find? (fun l => ops.hopKeyCmp s l key) = none) :
    dHashRecInsert ops ht s key link exclusive =
      .ok (chRecInsertAddref ops ht s (chKeyHash ops ht key) link) := by
  unfold dHashRecInsert
  rw [if_neg]
  rw [(chRecFind_spec ops ht s _ key .none).1, h]
  simp

/-- `d_hash_rec_find_insert` of a key with no record inserts the link. -/
theorem dHashRecFindInsert_of_find_none {ht : DHashTable ι} {s : σ} {key : κ} (link : ι)
    (h : (ht.htBuckets (chKeyHash ops ht key)).find? (fun l => ops.hopKeyCmp s l key) = none) :
    dHashRecFindInsert ops ht s key link =
      (link, (chRecInsertAddref ops ht s (chKeyHash ops ht key) link).1,
        (chRecInsertAddref ops ht s (chKeyHash ops ht key) link).2) := by
  unfold dHashRecFindInsert
  dsimp only
  rw [chRecFind_of_find_none ops h, DHashTable.setBucket_self]

/-- `d_hash_rec_find_insert` of a key with a record is `d_hash_rec_find` of it. -/
theorem dHashRecFindInsert_of_find_some {ht : DHashTable ι} {s : σ} {key : κ} {tmp : ι}
    (link : ι)
    (h : (ht.htBuckets (chKeyHash ops ht key)).find? (fun l => ops.hopKeyCmp s l key) = some tmp) :
    dHashRecFindInsert ops ht s key link =
      (tmp, (dHashRecFind ops ht s key).2.1, (dHashRecFind ops ht s key).2.2) := by
  rw [dHashRecFind_eq_some ops h]
  unfold dHashRecFindInsert
  dsimp only
  rw [chRecFind_head ops h]

/-- `d_hash_rec_delete` of a key with no record changes nothing. -/
theorem dHashRecDelete_of_find_none {ht : DHashTable ι} {s : σ} {key : κ}
    (h : (ht.htBuckets (chKeyHash ops ht key)).find? (fun l => ops.hopKeyCmp s l key) = none) :
    dHashRecDelete ops ht s key = (false, ht, s) := by
  unfold dHashRecDelete
  dsimp only
  rw [chRecFind_of_find_none ops h]

/-- `d_hash_rec_delete` of a key is `d_hash_rec_delete_at` of its first record. -/
theorem dHashRecDelete_of_find_some {ht : DHashTable ι} {s : σ} {key : κ} {link : ι}
    (h : (ht.htBuckets (chKeyHash ops ht key)).find? (fun l => ops.hopKeyCmp s l key) = some link) :
    dHashRecDelete ops ht s key = dHashRecDeleteAt ops ht s link := by
  have hmem : link ∈ ht.members :=
    DHashTable.mem_members.2 ⟨_, chKeyHash_lt ops ht key, List.mem_of_find?_eq_some h⟩
  unfold dHashRecDelete dHashRecDeleteAt
  dsimp only
  rw [(chRecFind_spec ops ht s _ key .none).1, h, if_pos hmem]

/-- `d_hash_rec_evict` on an LRU table moves the first record of the key to the tail of its
bucket. -/
theorem dHashRecEvict_of_find_some {ht : DHashTable ι} {s : σ} {key : κ} {link : ι}
    (hlru : ht.lru = true) (hnd : (ht.htBuckets (chKeyHash ops ht key)).Nodup)
    (h : (ht.htBuckets (chKeyHash ops ht key)).find? (fun l => ops.hopKeyCmp s l key) = some link) :
    dHashRecEvict ops ht s key = (true, ht.setBucket (chKeyHash ops ht key)
      ((ht.htBuckets (chKeyHash ops ht key)).erase link ++ [link])) := by
  unfold dHashRecEvict
  rw [if_neg (by simp [hlru])]
  dsimp only
  rw [chRecFind_tail ops hnd h, if_pos hlru]
  rfl

theorem dHashRecEvict_of_find_none {ht : DHashTable ι} {s : σ} {key : κ}
    (h : (ht.htBuckets (chKeyHash ops ht key)).find? (fun l => ops.hopKeyCmp s l key) = none) :
    dHashRecEvict ops ht s key = (false, ht) := by
  unfold dHashRecEvict
  split_ifs
  · rfl
  · dsimp only
    rw [chRecFind_of_find_none ops h, DHashTable.setBucket_self]
    rfl

/-- A delete erases the link from the members, when the table holds each link once. -/
theorem chRecDelete_members {ht : DHashTable ι} (hnd : ht.members.Nodup) (link : ι) :
    (chRecDelete ht link).members = ht.members.erase link :=
  Buckets.members_erase hnd link

/-- `d_hash_rec_decref` on a table that holds each link once: the last reference frees the
record, and on an ephemeral table also unlinks it; on another table the record must be off it. -/
theorem dHashRecDecref_eq {ht : DHashTable ι} (hnd : ht.members.Nodup) (s : σ) (link : ι) :
    dHashRecDecref ops ht s link =
      if (ops.hopRecDecref s link).2 = true then
        if link ∈ ht.members then
          if ht.ephemeral = true then
            some (chRecDelete ht link, ops.hopRecFree (ops.hopRecDecref s link).1 link)
          else none
        else some (ht, ops.hopRecFree (ops.hopRecDecref s link).1 link)
      else some (ht, (ops.hopRecDecref s link).1) := by
  have hgone : link ∉ (chRecDelete ht link).members := by
    rw [chRecDelete_members hnd]
    exact hnd.not_mem_erase
  unfold dHashRecDecref
  by_cases hz : (ops.hopRecDecref s link).2 = true
  · by_cases hmem : link ∈ ht.members
    · by_cases heph : ht.ephemeral = true
      · simp [hz, hmem, heph, hgone]
      · simp [hz, hmem, heph]
    · simp [hz, hmem]
  · simp [hz]

theorem chRecDelDecref_table (ht : DHashTable ι) (s : σ) (link : ι) :
    (chRecDelDecref ops ht s link).1 = chRecDelete ht link := by
  unfold chRecDelDecref
  split_ifs <;> rfl

/-- The table after `d_hash_rec_delete_at`: the link is off it. -/
theorem dHashRecDeleteAt_table (ht : DHashTable ι) (s : σ) (link : ι) :
    (dHashRecDeleteAt ops ht s link).2.1 =
      if link ∈ ht.members then chRecDelete ht link else ht := by
  unfold dHashRecDeleteAt
  split_ifs <;> simp [chRecDelDecref_table]

/-- On a table that is not ephemeral, `d_hash_rec_delete_at` of a link on it drops the table's
reference and frees the record when that was the last one. -/
theorem dHashRecDeleteAt_store {ht : DHashTable ι} (heph : ht.ephemeral = false) (s : σ)
    {link : ι} (hmem : link ∈ ht.members) :
    (dHashRecDeleteAt ops ht s link).2.2 =
      if (ops.hopRecDecref s link).2 then ops.hopRecFree (ops.hopRecDecref s link).1 link
      else (ops.hopRecDecref s link).1 := by
  unfold dHashRecDeleteAt chRecDelDecref
  rw [if_pos hmem, if_neg (by simp [heph])]

/-- `d_hash_rec_evict_at` of a link that sits on its own bucket, and on no other, permutes that
bucket. -/
theorem dHashRecEvictAt_eq {ht : DHashTable ι} {s : σ} {link : ι}
    (hin : link ∈ ht.htBuckets (chRecHash ops ht s link))
    (hone : ∀ b, link ∈ ht.htBuckets b → b = chRecHash ops ht s link) :
    ∃ l, l.Perm (ht.htBuckets (chRecHash ops ht s link)) ∧
      (dHashRecEvictAt ops ht s link).2 = ht.setBucket (chRecHash ops ht s link) l := by
  unfold dHashRecEvictAt
  by_cases hlru : ht.lru = false
  · rw [if_pos hlru]
    exact ⟨_, List.Perm.refl _, (DHashTable.setBucket_self _ _).symm⟩
  rw [if_neg hlru]
  dsimp only
  split_ifs with hlast
  · -- the link moves to the tail of its bucket; the other buckets do not hold it
    refine ⟨_, (List.perm_append_singleton _ _).trans (List.perm_cons_erase hin).symm, ?_⟩
    simp only [DHashTable.setBucket, chRecDelete]
    congr 1
    funext b
    rw [Function.update_apply, Function.update_apply]
    split_ifs with hb
    · rfl
    · exact List.erase_of_not_mem fun h => hb (hone b h)
  · exact ⟨_, List.Perm.refl _, (DHashTable.setBucket_self _ _).symm⟩

/-- `d_hash_rec_evict_at` on an LRU table, of a link that sits on no bucket but its own, once:
the link moves to the tail of its bucket. -/
theorem dHashRecEvictAt_of_lru {ht : DHashTable ι} {s : σ} {link : ι} (hlru : ht.lru = true)
    (hnd : (ht.htBuckets (chRecHash ops ht s link)).Nodup)
    (hone : ∀ b, link ∈ ht.htBuckets b → b = chRecHash ops ht s link) :
    (dHashRecEvictAt ops ht s link).2 = ht.setBucket (chRecHash ops ht s link)
      ((ht.htBuckets (chRecHash ops ht s link)).erase link ++ [link]) := by
  unfold dHashRecEvictAt
  rw [if_neg (by simp [hlru])]
  dsimp only
  split_ifs with hlast
  · -- the other buckets do not hold the link
    simp only [DHashTable.setBucket, chRecDelete]
    congr 1
    funext b
    rw [Function.update_apply, Function.update_apply]
    split_ifs with hb
    · rfl
    · exact List.erase_of_not_mem fun h => hb (hone b h)
  · rw [Multimap.erase_append_of_getLast? hnd (not_not.1 hlast), DHashTable.setBucket_self]

omit [DecidableEq ι] in
/-- A traversal with a callback that always returns `0` is a left fold over the links. -/
theorem traverseBucket_eq_foldl {α : Type*} {cb : α → ι → α × ℤ} (hcb : ∀ a l, (cb a l).2 = 0)
    (links : List ι) (arg : α) :
    traverseBucket cb links arg = (0, links.foldl (fun a l => (cb a l).1) arg) := by
  induction links generalizing arg with
  | nil => rfl
  | cons link links ih => simp [traverseBucket, hcb, ih]

omit [DecidableEq ι] in
theorem dHashTableTraverse_eq_foldl {α : Type*} {cb : α → ι → α × ℤ}
    (hcb : ∀ a l, (cb a l).2 = 0) (ht : DHashTable ι) (arg : α) :
    dHashTableTraverse ht cb arg = (0, ht.members.foldl (fun a l => (cb a l).1) arg) := by
  -- the outer loop over the buckets in turn, each an inner fold
  have houter : ∀ (bs : List (List ι)) (arg : α),
      traverseBuckets cb bs arg = (0, bs.flatten.foldl (fun a l => (cb a l).1) arg) := by
    intro bs
    induction bs with
    | nil => intro arg; rfl
    | cons b bs ih =>
      intro arg
      simp [traverseBuckets, traverseBucket_eq_foldl hcb, ih, List.foldl_append]
  rw [dHashTableTraverse, houter, DHashTable.members, Buckets.members, List.flatMap_def]

omit [DecidableEq ι] in
/-- `d_hash_rec_first` returns the first link on the table, bucket after bucket. -/
theorem dHashRecFirst_eq (ht : DHashTable ι) : dHashRecFirst ht = ht.members.head? := by
  -- the traversal stops at the first link of the first bucket that has one
  have houter : ∀ (bs : List (List ι)) (arg : Option ι),
      (traverseBuckets dHashFindSingle bs arg).2 = bs.flatten.head?.or arg := by
    intro bs
    induction bs with
    | nil => intro arg; rfl
    | cons b bs ih =>
      intro arg
      cases b with
      | nil => simp [traverseBuckets, traverseBucket, ih]
      | cons x b => simp [traverseBuckets, traverseBucket, dHashFindSingle]
  rw [dHashRecFirst, dHashTableTraverse, houter, DHashTable.members, Buckets.members,
    List.flatMap_def, Option.or_none]

omit [DecidableEq ι] in
theorem dHashTableIsEmpty_iff (ht : DHashTable ι) : dHashTableIsEmpty ht = true ↔ ht.members = [] := by
  simp [dHashTableIsEmpty, DHashTable.members, Buckets.members, List.flatMap_eq_nil_iff]

end Daos.Gurt

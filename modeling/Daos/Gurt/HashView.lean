import Mathlib
import Daos.Lib.Multimap
import Daos.Gurt.Hash

/-!
# The chained hash table refines a multimap

What a `d_hash_table` is for: it maps each key to the records that have it, and a lookup returns
the one inserted last, unless an eviction sent it behind the others. That is a multimap
`κ → List ι` listing each key's records in the order a lookup meets them, with the operations of
`Multimap`: `d_hash_rec_insert` pushes a record on its key's list, `d_hash_rec_delete` drops the
front, `d_hash_rec_delete_at` takes a record out, `d_hash_rec_evict` sends the front to the back
and `d_hash_rec_evict_at` one record to the back.

The table stands for that multimap when its callbacks read each record's key from the store
(`LawfulOps`): `hop_key_cmp` compares with it, `hop_rec_hash` hashes it as `hop_key_hash` hashes
keys, and taking, dropping or freeing a reference leaves the keys of the other records. This is
how the tables of the repository use the callbacks; the LRU cache of `common/lru.c` is the
exception, since its `hop_key_cmp` also fails on an evicted record. `dHashView` reads the
multimap off the buckets; `DHashWf`, each link on the table once and on the bucket of its key,
is what keeps the reading exact.

**What is proved.** One lemma per function relates its result and the table after it to the
multimap (`dHashRecFind_spec` and the rest), for a table that keeps `DHashWf`; each function keeps
it. `Daos.Gurt.HashRun` lifts these to whole runs.
-/

namespace Daos.Gurt

open Multimap

variable {ι κ σ : Type*}

/-- Callbacks that read each record's key from the store: `hop_key_cmp` compares with it,
`hop_rec_hash` hashes it as `hop_key_hash` hashes keys, and taking, dropping or freeing a
reference keeps the keys of the other records. -/
structure LawfulOps [DecidableEq κ] (ops : DHashTableOps ι κ σ) (keyOf : σ → ι → κ) : Prop where
  keyCmp : ∀ s x k, ops.hopKeyCmp s x k = decide (keyOf s x = k)
  recHash : ∀ s x, ops.hopRecHash s x = ops.hopKeyHash (keyOf s x)
  addref : ∀ s x, keyOf (ops.hopRecAddref s x) = keyOf s
  decref : ∀ s x, keyOf (ops.hopRecDecref s x).1 = keyOf s
  free : ∀ s x y, y ≠ x → keyOf (ops.hopRecFree s x) y = keyOf s y

variable (ops : DHashTableOps ι κ σ) (keyOf : σ → ι → κ)

/-- The table holds each link once, on the bucket of its record's key. -/
structure DHashWf (ht : DHashTable ι) (s : σ) : Prop where
  nodup : ht.members.Nodup
  placed : Placed (keyOf s) (chKeyHash ops ht) ht.htBuckets

/-- The multimap the table stands for: each key's records on the key's bucket, in bucket order. -/
def dHashView [DecidableEq κ] (ht : DHashTable ι) (s : σ) : κ → List ι :=
  view (keyOf s) (chKeyHash ops ht) ht.htBuckets

variable {ops keyOf}

/-! ### The invariant -/

section Wf

variable {ht : DHashTable ι} {s : σ}

theorem DHashWf.of_keyOf_eq {s' : σ} (hw : DHashWf ops keyOf ht s) (h : keyOf s' = keyOf s) :
    DHashWf ops keyOf ht s' :=
  ⟨hw.nodup, by rw [h]; exact hw.placed⟩

/-- A bucket past the last holds nothing. -/
theorem DHashWf.bucket_lt (hw : DHashWf ops keyOf ht s) {b : ℕ} {x : ι} (hx : x ∈ ht.htBuckets b) :
    b < ht.nr := by
  rw [hw.placed b x hx]
  exact chKeyHash_lt ops ht _

theorem DHashWf.mem_members_of_mem (hw : DHashWf ops keyOf ht s) {b : ℕ} {x : ι}
    (hx : x ∈ ht.htBuckets b) : x ∈ ht.members :=
  DHashTable.mem_members.2 ⟨b, hw.bucket_lt hx, hx⟩

theorem DHashWf.bucket_nodup (hw : DHashWf ops keyOf ht s) (b : ℕ) : (ht.htBuckets b).Nodup := by
  by_cases hb : b < ht.nr
  · exact hw.nodup.sublist (Buckets.bucket_sublist hb ht.htBuckets)
  · rw [List.eq_nil_iff_forall_not_mem.2 fun x hx => hb (hw.bucket_lt hx)]
    exact List.nodup_nil

/-- The caller's edits of the records keep the keys of those on the table. -/
theorem DHashWf.congr {s' : σ} (hw : DHashWf ops keyOf ht s)
    (h : ∀ x ∈ ht.members, keyOf s' x = keyOf s x) : DHashWf ops keyOf ht s' :=
  ⟨hw.nodup, hw.placed.congr fun _ x hx => h x (hw.mem_members_of_mem hx)⟩

/-- A bucket replaced by a permutation of itself, as a move to its head or tail makes. -/
theorem DHashWf.setBucket_perm (hw : DHashWf ops keyOf ht s) {idx : ℕ} (hidx : idx < ht.nr)
    {l : List ι} (hp : l.Perm (ht.htBuckets idx)) : DHashWf ops keyOf (ht.setBucket idx l) s :=
  ⟨(DHashTable.members_setBucket_of_perm hidx hp).nodup_iff.2 hw.nodup,
    hw.placed.update fun x hx => hw.placed idx x (hp.mem_iff.1 hx)⟩

/-- A link that is not on the table pushed on the bucket of its record's key. -/
theorem DHashWf.push (hw : DHashWf ops keyOf ht s) {x : ι} (hx : x ∉ ht.members) :
    DHashWf ops keyOf (ht.setBucket (chKeyHash ops ht (keyOf s x))
      (x :: ht.htBuckets (chKeyHash ops ht (keyOf s x)))) s := by
  have hperm := Buckets.members_cons (chKeyHash_lt ops ht (keyOf s x)) ht.htBuckets x
  refine ⟨hperm.nodup_iff.2 (List.nodup_cons.2 ⟨hx, hw.nodup⟩), hw.placed.update fun y hy => ?_⟩
  rcases List.mem_cons.1 hy with rfl | hy
  · rfl
  · exact hw.placed _ y hy

theorem DHashWf.erase [DecidableEq ι] (hw : DHashWf ops keyOf ht s) (x : ι) :
    DHashWf ops keyOf (chRecDelete ht x) s := by
  refine ⟨?_, hw.placed.erase x⟩
  rw [chRecDelete_members hw.nodup]
  exact hw.nodup.erase x

theorem DHashWf.not_mem_erase [DecidableEq ι] (hw : DHashWf ops keyOf ht s) (x : ι) :
    x ∉ (chRecDelete ht x).members := by
  rw [chRecDelete_members hw.nodup]
  exact hw.nodup.not_mem_erase

end Wf

/-! ### Reading the multimap off the table -/

section Read

variable [DecidableEq κ] {ht : DHashTable ι} {s : σ}

theorem dHashView_chRecDelete [DecidableEq ι] (x : ι) :
    dHashView ops keyOf (chRecDelete ht x) s = eraseAll (dHashView ops keyOf ht s) x :=
  view_erase x

theorem dHashView_of_keyOf_eq {s' : σ} (h : keyOf s' = keyOf s) :
    dHashView ops keyOf ht s' = dHashView ops keyOf ht s := by
  rw [dHashView, dHashView, h]

/-- With lawful callbacks, `ch_rec_find` on the key's bucket meets the front of the key's list. -/
theorem find_eq_head (hl : LawfulOps ops keyOf) (key : κ) :
    (ht.htBuckets (chKeyHash ops ht key)).find? (fun l => ops.hopKeyCmp s l key) =
      (dHashView ops keyOf ht s key).head? := by
  rw [dHashView, head?_view]
  congr 1
  funext l
  exact hl.keyCmp s l key

theorem chRecHash_eq_chKeyHash (hl : LawfulOps ops keyOf) (x : ι) :
    chRecHash ops ht s x = chKeyHash ops ht (keyOf s x) := by
  rw [chRecHash, chKeyHash, hl.recHash]

/-- A link is in the list of its own key only. -/
theorem key_of_mem_view {k : κ} {x : ι} (hx : x ∈ dHashView ops keyOf ht s k) : keyOf s x = k :=
  (mem_view.1 hx).2

theorem mem_bucket_of_mem_view {k : κ} {x : ι} (hx : x ∈ dHashView ops keyOf ht s k) :
    x ∈ ht.htBuckets (chKeyHash ops ht k) :=
  (mem_view.1 hx).1

/-- A link is on the table exactly when it is in its key's list. -/
theorem DHashWf.mem_members_iff (hw : DHashWf ops keyOf ht s) {x : ι} :
    x ∈ ht.members ↔ x ∈ dHashView ops keyOf ht s (keyOf s x) :=
  Multimap.mem_members_iff hw.placed (chKeyHash_lt ops ht)

/-- A link that is off the table is in no list. -/
theorem DHashWf.not_mem_view (hw : DHashWf ops keyOf ht s) {x : ι} (hx : x ∉ ht.members) (k : κ) :
    x ∉ dHashView ops keyOf ht s k := fun hk =>
  hx (hw.mem_members_iff.2 (key_of_mem_view hk ▸ hk))

theorem DHashWf.members_eq_nil_iff (hw : DHashWf ops keyOf ht s) :
    ht.members = [] ↔ ∀ k, dHashView ops keyOf ht s k = [] := by
  constructor
  · intro h k
    exact List.eq_nil_iff_forall_not_mem.2 fun x => hw.not_mem_view (by simp [h]) k
  · intro h
    refine List.eq_nil_iff_forall_not_mem.2 fun x hx => ?_
    have hv := hw.mem_members_iff.1 hx
    rw [h] at hv
    cases hv

theorem DHashWf.view_congr {s' : σ} (hw : DHashWf ops keyOf ht s)
    (h : ∀ x ∈ ht.members, keyOf s' x = keyOf s x) :
    dHashView ops keyOf ht s' = dHashView ops keyOf ht s :=
  Multimap.view_congr fun _ x hx => h x (hw.mem_members_of_mem hx)

end Read

/-! ### Each function against the multimap -/

section Spec

variable [DecidableEq κ] [DecidableEq ι] (hl : LawfulOps ops keyOf) {ht : DHashTable ι} {s : σ}
  (hw : DHashWf ops keyOf ht s)
include hl

omit [DecidableEq ι] in
/-- `ch_rec_insert_addref` of a link that is not on the table, on the bucket of its record's key:
the link is pushed on its key's list. -/
theorem insertAddref_spec (hw : DHashWf ops keyOf ht s) {x : ι} (hx : x ∉ ht.members) :
    dHashView ops keyOf (chRecInsertAddref ops ht s (chKeyHash ops ht (keyOf s x)) x).1
        (chRecInsertAddref ops ht s (chKeyHash ops ht (keyOf s x)) x).2 =
      Multimap.push (dHashView ops keyOf ht s) (keyOf s x) x ∧
    DHashWf ops keyOf (chRecInsertAddref ops ht s (chKeyHash ops ht (keyOf s x)) x).1
      (chRecInsertAddref ops ht s (chKeyHash ops ht (keyOf s x)) x).2 := by
  -- the reference, if the table takes one, keeps the keys
  have hkeys : keyOf (chRecInsertAddref ops ht s (chKeyHash ops ht (keyOf s x)) x).2 = keyOf s := by
    rw [chRecInsertAddref_snd]
    split_ifs
    · rfl
    · exact hl.addref s x
  rw [dHashView_of_keyOf_eq hkeys, chRecInsertAddref_fst]
  exact ⟨view_push x, (hw.push hx).of_keyOf_eq hkeys⟩

/-- The store after a record is unlinked, its reference dropped, and freed if that was the last:
the keys of the other records are kept. -/
theorem keyOf_deleteAt (s : σ) (x : ι) {y : ι} (hy : y ≠ x) :
    keyOf (dHashRecDeleteAt ops ht s x).2.2 y = keyOf s y := by
  unfold dHashRecDeleteAt chRecDelDecref
  by_cases hmem : x ∈ ht.members
  · rw [if_pos hmem]
    by_cases heph : ht.ephemeral = true
    · simp [heph]
    · simp only [heph, Bool.false_eq_true, if_false]
      split_ifs
      · rw [hl.free _ _ _ hy, hl.decref]
      · rw [hl.decref]
  · rw [if_neg hmem]

include hw

/-- `d_hash_rec_find` returns the front of the key's list; the move to the head of the bucket
and the reference leave the multimap. -/
theorem dHashRecFind_spec (key : κ) :
    (dHashRecFind ops ht s key).1 = (dHashView ops keyOf ht s key).head? ∧
      dHashView ops keyOf (dHashRecFind ops ht s key).2.1 (dHashRecFind ops ht s key).2.2 =
        dHashView ops keyOf ht s ∧
      DHashWf ops keyOf (dHashRecFind ops ht s key).2.1 (dHashRecFind ops ht s key).2.2 := by
  cases h : (dHashView ops keyOf ht s key).head? with
  | none =>
    rw [dHashRecFind_of_find_none ops (by rw [find_eq_head hl, h])]
    exact ⟨rfl, rfl, hw⟩
  | some x =>
    have hmem := mem_bucket_of_mem_view (List.mem_of_mem_head? h)
    rw [dHashRecFind_eq_some ops (by rw [find_eq_head hl, h]), dHashView_of_keyOf_eq (hl.addref s x)]
    refine ⟨rfl, ?_, DHashWf.of_keyOf_eq ?_ (hl.addref s x)⟩
    · split_ifs
      · exact view_moveHead h
      · rw [DHashTable.setBucket_self]
    · split_ifs
      · exact hw.setBucket_perm (chKeyHash_lt ops ht key) (List.perm_cons_erase hmem).symm
      · rwa [DHashTable.setBucket_self]

/-- `d_hash_rec_insert` of a link not on the table, with its record's key: an exclusive insert of
a key with records fails with `-DER_EXIST`; otherwise the link is pushed on its key's list. -/
theorem dHashRecInsert_spec {key : κ} {x : ι} (hkey : keyOf s x = key) (hx : x ∉ ht.members)
    (exclusive : Bool) :
    (exclusive = true ∧ dHashView ops keyOf ht s key ≠ [] ∧
        dHashRecInsert ops ht s key x exclusive = .error (-derExist)) ∨
      ((exclusive = false ∨ dHashView ops keyOf ht s key = []) ∧ ∃ ht' s',
        dHashRecInsert ops ht s key x exclusive = .ok (ht', s') ∧
        dHashView ops keyOf ht' s' = Multimap.push (dHashView ops keyOf ht s) key x ∧
        DHashWf ops keyOf ht' s') := by
  subst hkey
  obtain ⟨hview, hw'⟩ := insertAddref_spec hl hw hx
  -- the exclusive check finds a record exactly when the key's list is not empty
  have hfound : (chRecFind ops ht s (ht.htBuckets (chKeyHash ops ht (keyOf s x))) (keyOf s x)
      .none).1.isSome = !(dHashView ops keyOf ht s (keyOf s x)).isEmpty := by
    rw [(chRecFind_spec ops ht s _ _ .none).1, find_eq_head hl]
    cases dHashView ops keyOf ht s (keyOf s x) <;> rfl
  unfold dHashRecInsert
  dsimp only
  rw [hfound]
  by_cases hex : exclusive = true ∧ dHashView ops keyOf ht s (keyOf s x) ≠ []
  · exact .inl ⟨hex.1, hex.2, if_pos ⟨hex.1, by simpa using hex.2⟩⟩
  · refine .inr ⟨?_, _, _, if_neg ?_, hview, hw'⟩
    · cases exclusive
      · exact .inl rfl
      · exact .inr (not_not.1 fun h => hex ⟨rfl, h⟩)
    · rintro ⟨h1, h2⟩
      exact hex ⟨h1, by simpa using h2⟩

/-- `d_hash_rec_find_insert` of a link not on the table, with its record's key: the front of the
key's list when it has one, else the link, pushed on the list. -/
theorem dHashRecFindInsert_spec {key : κ} {x : ι} (hkey : keyOf s x = key) (hx : x ∉ ht.members) :
    (dHashRecFindInsert ops ht s key x).1 = (dHashView ops keyOf ht s key).head?.getD x ∧
      dHashView ops keyOf (dHashRecFindInsert ops ht s key x).2.1
          (dHashRecFindInsert ops ht s key x).2.2 =
        (if dHashView ops keyOf ht s key = [] then
          Multimap.push (dHashView ops keyOf ht s) key x else dHashView ops keyOf ht s) ∧
      DHashWf ops keyOf (dHashRecFindInsert ops ht s key x).2.1
        (dHashRecFindInsert ops ht s key x).2.2 := by
  cases h : (dHashView ops keyOf ht s key).head? with
  | none =>
    have hnil : dHashView ops keyOf ht s key = [] := List.head?_eq_none_iff.1 h
    rw [dHashRecFindInsert_of_find_none ops x (by rw [find_eq_head hl, h]), if_pos hnil]
    subst hkey
    exact ⟨rfl, insertAddref_spec hl hw hx⟩
  | some y =>
    have hne : dHashView ops keyOf ht s key ≠ [] := fun hnil => by simp [hnil] at h
    obtain ⟨-, hview, hw'⟩ := dHashRecFind_spec hl hw key
    rw [dHashRecFindInsert_of_find_some ops x (by rw [find_eq_head hl, h]), if_neg hne]
    exact ⟨rfl, hview, hw'⟩

/-- `d_hash_rec_delete_at` unlinks the link if it is on the table, and takes it out of its key's
list. -/
theorem dHashRecDeleteAt_spec (x : ι) :
    (dHashRecDeleteAt ops ht s x).1 = decide (x ∈ ht.members) ∧
      dHashView ops keyOf (dHashRecDeleteAt ops ht s x).2.1 (dHashRecDeleteAt ops ht s x).2.2 =
        eraseAll (dHashView ops keyOf ht s) x ∧
      DHashWf ops keyOf (dHashRecDeleteAt ops ht s x).2.1 (dHashRecDeleteAt ops ht s x).2.2 := by
  by_cases hmem : x ∈ ht.members
  · have htab : (dHashRecDeleteAt ops ht s x).2.1 = chRecDelete ht x := by
      rw [dHashRecDeleteAt_table, if_pos hmem]
    -- the keys of the records left on the table are kept; the freed one is off it
    have hkeys : ∀ y ∈ (chRecDelete ht x).members,
        keyOf (dHashRecDeleteAt ops ht s x).2.2 y = keyOf s y := fun y hy =>
      keyOf_deleteAt hl s x fun hyx => hw.not_mem_erase x (by rwa [hyx] at hy)
    have hw' := hw.erase x
    rw [htab, hw'.view_congr hkeys, dHashView_chRecDelete]
    exact ⟨by simp [dHashRecDeleteAt, hmem], rfl, hw'.congr hkeys⟩
  · unfold dHashRecDeleteAt
    rw [if_neg hmem, eraseAll_of_not_mem (hw.not_mem_view hmem)]
    exact ⟨by simp [hmem], rfl, hw⟩

/-- `d_hash_rec_delete` drops the front of the key's list, and says whether there was one. -/
theorem dHashRecDelete_spec (key : κ) :
    (dHashRecDelete ops ht s key).1 = !(dHashView ops keyOf ht s key).isEmpty ∧
      dHashView ops keyOf (dHashRecDelete ops ht s key).2.1 (dHashRecDelete ops ht s key).2.2 =
        pop (dHashView ops keyOf ht s) key ∧
      DHashWf ops keyOf (dHashRecDelete ops ht s key).2.1 (dHashRecDelete ops ht s key).2.2 := by
  cases h : dHashView ops keyOf ht s key with
  | nil =>
    rw [dHashRecDelete_of_find_none ops (by rw [find_eq_head hl, h]; rfl)]
    refine ⟨rfl, ?_, hw⟩
    rw [pop, h, List.tail_nil, ← h, Function.update_eq_self]
  | cons x t =>
    have hxv : x ∈ dHashView ops keyOf ht s key := h ▸ List.mem_cons_self
    have hkey : keyOf s x = key := key_of_mem_view hxv
    have hx : x ∈ ht.members := hw.mem_members_iff.2 (hkey ▸ hxv)
    obtain ⟨hr, hview, hw'⟩ := dHashRecDeleteAt_spec hl hw x
    rw [dHashRecDelete_of_find_some ops (by rw [find_eq_head hl, h]; rfl), hr, hview,
      eraseAll_of_head h fun k' hk' => (key_of_mem_view hk').symm.trans hkey]
    exact ⟨by simp [hx], rfl, hw'⟩

/-- `d_hash_rec_evict` on an LRU table sends the front of the key's list to its back, and says
whether there was one; on another table it does nothing. -/
theorem dHashRecEvict_spec (key : κ) :
    (dHashRecEvict ops ht s key).1 = (ht.lru && !(dHashView ops keyOf ht s key).isEmpty) ∧
      dHashView ops keyOf (dHashRecEvict ops ht s key).2 s =
        (if ht.lru = true then rotate (dHashView ops keyOf ht s) key
          else dHashView ops keyOf ht s) ∧
      DHashWf ops keyOf (dHashRecEvict ops ht s key).2 s := by
  by_cases hlru : ht.lru = true
  · rw [if_pos hlru]
    cases h : (dHashView ops keyOf ht s key).head? with
    | none =>
      have hnil : dHashView ops keyOf ht s key = [] := List.head?_eq_none_iff.1 h
      rw [dHashRecEvict_of_find_none ops (by rw [find_eq_head hl, h]), rotate_of_nil hnil, hnil]
      exact ⟨by simp, rfl, hw⟩
    | some x =>
      have hmem := mem_bucket_of_mem_view (List.mem_of_mem_head? h)
      have hne : dHashView ops keyOf ht s key ≠ [] := fun hnil => by simp [hnil] at h
      rw [dHashRecEvict_of_find_some ops hlru (hw.bucket_nodup _) (by rw [find_eq_head hl, h])]
      refine ⟨by simp [hlru, hne], view_moveTail_head hw.placed h, ?_⟩
      exact hw.setBucket_perm (chKeyHash_lt ops ht key)
        ((List.perm_append_singleton _ _).trans (List.perm_cons_erase hmem).symm)
  · have hlru' : ht.lru = false := by simpa using hlru
    rw [if_neg hlru]
    unfold dHashRecEvict
    rw [if_pos hlru']
    exact ⟨by simp [hlru'], rfl, hw⟩

/-- `d_hash_rec_evict_at` of a link on an LRU table sends it to the back of its key's list; on
another table it does nothing. -/
theorem dHashRecEvictAt_spec {x : ι} (hx : x ∈ ht.members) :
    dHashView ops keyOf (dHashRecEvictAt ops ht s x).2 s =
        (if ht.lru = true then toBackAll (dHashView ops keyOf ht s) x
          else dHashView ops keyOf ht s) ∧
      DHashWf ops keyOf (dHashRecEvictAt ops ht s x).2 s := by
  by_cases hlru : ht.lru = true
  · obtain ⟨b, -, hb⟩ := DHashTable.mem_members.1 hx
    have hidx : chRecHash ops ht s x = chKeyHash ops ht (keyOf s x) := chRecHash_eq_chKeyHash hl x
    have hbx : b = chRecHash ops ht s x := (hw.placed b x hb).trans hidx.symm
    subst hbx
    rw [dHashRecEvictAt_of_lru ops hlru (hw.bucket_nodup _)
      fun b hb' => (hw.placed b x hb').trans hidx.symm, if_pos hlru]
    refine ⟨view_moveTail hw.placed hb, ?_⟩
    exact hw.setBucket_perm (hw.bucket_lt hb)
      ((List.perm_append_singleton _ _).trans (List.perm_cons_erase hb).symm)
  · have hlru' : ht.lru = false := by simpa using hlru
    rw [if_neg hlru]
    unfold dHashRecEvictAt
    rw [if_pos hlru']
    exact ⟨rfl, hw⟩

/-- `d_hash_rec_decref` that passes its assertion: the record stays in its key's list, or, unlinked
by its last reference on an ephemeral table, leaves it. -/
theorem dHashRecDecref_spec {x : ι} {ht' : DHashTable ι} {s' : σ}
    (h : dHashRecDecref ops ht s x = some (ht', s')) :
    dHashView ops keyOf ht' s' =
        (if x ∈ ht'.members then dHashView ops keyOf ht s
          else eraseAll (dHashView ops keyOf ht s) x) ∧
      DHashWf ops keyOf ht' s' := by
  have hdec := hl.decref s x
  rw [dHashRecDecref_eq ops hw.nodup] at h
  split_ifs at h with hz hmem heph
  · -- the last reference on an ephemeral table: unlinked, then freed
    cases h
    have hkeys : ∀ y ∈ (chRecDelete ht x).members,
        keyOf (ops.hopRecFree (ops.hopRecDecref s x).1 x) y = keyOf s y := fun y hy => by
      rw [hl.free _ _ _ fun hyx => hw.not_mem_erase x (by rwa [hyx] at hy), hdec]
    have hw' := hw.erase x
    rw [if_neg (hw.not_mem_erase x), hw'.view_congr hkeys, dHashView_chRecDelete]
    exact ⟨rfl, hw'.congr hkeys⟩
  · -- the last reference of a record off the table: freed
    cases h
    have hkeys : ∀ y ∈ ht.members,
        keyOf (ops.hopRecFree (ops.hopRecDecref s x).1 x) y = keyOf s y := fun y hy => by
      rw [hl.free _ _ _ fun hyx => hmem (by rwa [hyx] at hy), hdec]
    rw [if_neg hmem, hw.view_congr hkeys, eraseAll_of_not_mem (hw.not_mem_view hmem)]
    exact ⟨rfl, hw.congr hkeys⟩
  · -- not the last reference
    cases h
    rw [dHashView_of_keyOf_eq hdec]
    refine ⟨?_, hw.of_keyOf_eq hdec⟩
    split_ifs with hmem
    · rfl
    · rw [eraseAll_of_not_mem (hw.not_mem_view hmem)]

omit [DecidableEq ι] in
/-- `d_hash_rec_insert_anonym` of a link not on the table, whose `hop_key_init` sets the key of its
record and of no other: the link is pushed on the list of its new key. -/
theorem dHashRecInsertAnonym_spec {α : Type*} (init : σ → ι → α → σ) (arg : α) {x : ι}
    (hx : x ∉ ht.members) (hinit : ∀ y, y ≠ x → keyOf (init s x arg) y = keyOf s y) :
    ∃ ht' s', dHashRecInsertAnonym ops (some init) ht s x arg = .ok (ht', s') ∧
      keyOf s' x = keyOf (init s x arg) x ∧
      dHashView ops keyOf ht' s' =
        Multimap.push (dHashView ops keyOf ht s) (keyOf (init s x arg) x) x ∧
      DHashWf ops keyOf ht' s' := by
  -- the new key leaves the records on the table as they were
  have hkeys : ∀ y ∈ ht.members, keyOf (init s x arg) y = keyOf s y := fun y hy =>
    hinit y fun hyx => hx (by rwa [hyx] at hy)
  have hw' := hw.congr hkeys
  obtain ⟨hview, hw''⟩ := insertAddref_spec hl hw' hx
  have hstore : keyOf (chRecInsertAddref ops ht (init s x arg)
      (chKeyHash ops ht (keyOf (init s x arg) x)) x).2 = keyOf (init s x arg) := by
    rw [chRecInsertAddref_snd]
    split_ifs
    · rfl
    · exact hl.addref _ x
  refine ⟨_, _, ?_, congrFun hstore x, by rwa [hw.view_congr hkeys] at hview, hw''⟩
  rw [dHashRecInsertAnonym, chRecHash_eq_chKeyHash hl x]

omit [DecidableEq ι] hl in
/-- `d_hash_rec_first` finds a link exactly when some key has one. -/
theorem dHashRecFirst_spec :
    (dHashRecFirst ht = none ↔ ∀ k, dHashView ops keyOf ht s k = []) ∧
      ∀ x, dHashRecFirst ht = some x → x ∈ dHashView ops keyOf ht s (keyOf s x) := by
  rw [dHashRecFirst_eq]
  refine ⟨by rw [List.head?_eq_none_iff, hw.members_eq_nil_iff], fun x hx => ?_⟩
  exact hw.mem_members_iff.1 (List.mem_of_mem_head? hx)

omit [DecidableEq ι] hl in
theorem dHashTableIsEmpty_spec :
    dHashTableIsEmpty ht = true ↔ ∀ k, dHashView ops keyOf ht s k = [] := by
  rw [dHashTableIsEmpty_iff, hw.members_eq_nil_iff]

end Spec

end Daos.Gurt

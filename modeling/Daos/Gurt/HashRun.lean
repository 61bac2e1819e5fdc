import Mathlib
import Daos.Gurt.Hhash

/-!
# Runs of the chained table

`DHashReach` is every run of the functions of `d_hash_table` from `d_hash_table_create`, with the
multimap of `Daos.Gurt.HashView` the same run builds. The caller may change the records between
two calls, keeping the keys of those on the table, and inserts a link that is not on the table;
`d_hash_rec_insert_anonym` runs any `hop_key_init` that sets the key of the new record only.

**What is proved.** With lawful callbacks the table refines the multimap over every run
(`DHashReach.refines`), so that every call returns what the multimap says
(`dHash_results_match`). `OpsKeep` lifts a property of the store that each callback keeps to
every function that runs them.
-/

namespace Daos.Gurt

open Multimap

variable {ι κ σ : Type*}

/-! ### What the callbacks keep -/

/-- A property of the store that taking, dropping and freeing a reference keep. -/
structure OpsKeep (ops : DHashTableOps ι κ σ) (P : σ → Prop) : Prop where
  addref : ∀ s x, P s → P (ops.hopRecAddref s x)
  decref : ∀ s x, P s → P (ops.hopRecDecref s x).1
  free : ∀ s x, P s → P (ops.hopRecFree s x)

section Keep

variable {ops : DHashTableOps ι κ σ} {P : σ → Prop} (hk : OpsKeep ops P) {ht : DHashTable ι}
  {s : σ} (hs : P s)
include hk hs

theorem OpsKeep.insertAddref (idx : ℕ) (x : ι) : P (chRecInsertAddref ops ht s idx x).2 := by
  rw [chRecInsertAddref_snd]
  split_ifs
  · exact hs
  · exact hk.addref s x hs

omit hs in
/-- `d_hash_rec_insert_anonym` keeps what `hop_key_init` makes true. -/
theorem OpsKeep.insertAnonym {α : Type*} {init : σ → ι → α → σ} {arg : α} {x : ι}
    {ht' : DHashTable ι} {s' : σ} (hinit : P (init s x arg))
    (h : dHashRecInsertAnonym ops (some init) ht s x arg = .ok (ht', s')) : P s' := by
  simp only [dHashRecInsertAnonym, Except.ok.injEq] at h
  have hs' : (chRecInsertAddref ops ht (init s x arg) _ x).2 = s' := congrArg Prod.snd h
  rw [← hs']
  exact hk.insertAddref hinit _ x

variable [DecidableEq ι]

theorem OpsKeep.find (key : κ) : P (dHashRecFind ops ht s key).2.2 := by
  unfold dHashRecFind
  dsimp only
  split
  · exact hk.addref s _ hs
  · exact hs

theorem OpsKeep.deleteAt (x : ι) : P (dHashRecDeleteAt ops ht s x).2.2 := by
  unfold dHashRecDeleteAt chRecDelDecref
  dsimp only
  -- the table's reference is dropped unless the table is ephemeral, then the record freed
  have hdec := hk.decref s x hs
  split_ifs <;> first | exact hs | exact hk.free _ x hdec | exact hdec | exact hk.free _ x hs

end Keep

/-! ### The links on the table after each call -/

section Members

variable {ops : DHashTableOps ι κ σ} [DecidableEq ι] {ht : DHashTable ι} {s : σ} {y : ι}

theorem mem_dHashRecFind_table (key : κ) :
    y ∈ (dHashRecFind ops ht s key).2.1.members ↔ y ∈ ht.members := by
  -- the key's bucket is permuted, whether a link is found or not
  have htab : (dHashRecFind ops ht s key).2.1 = ht.setBucket (chKeyHash ops ht key)
      (chRecFind ops ht s (ht.htBuckets (chKeyHash ops ht key)) key .head).2 := by
    unfold dHashRecFind
    dsimp only
    split <;> rfl
  rw [htab]
  exact (DHashTable.members_setBucket_of_perm (chKeyHash_lt ops ht key)
    (chRecFind_spec ops ht s _ key .head).2).mem_iff

omit [DecidableEq ι] in
theorem mem_chRecInsertAddref_table {idx : ℕ} (hidx : idx < ht.nr) (x : ι) :
    y ∈ (chRecInsertAddref ops ht s idx x).1.members ↔ y = x ∨ y ∈ ht.members := by
  rw [chRecInsertAddref_fst]
  exact (Buckets.members_cons hidx ht.htBuckets x).mem_iff.trans List.mem_cons

omit [DecidableEq ι] in
theorem mem_dHashRecInsertAnonym_table {α : Type*} {init : σ → ι → α → σ} {arg : α} {x : ι}
    {ht' : DHashTable ι} {s' : σ}
    (h : dHashRecInsertAnonym ops (some init) ht s x arg = .ok (ht', s')) :
    y ∈ ht'.members ↔ y = x ∨ y ∈ ht.members := by
  simp only [dHashRecInsertAnonym, Except.ok.injEq] at h
  have hidx : chRecHash ops ht (init s x arg) x < ht.nr := by
    rw [chRecHash_eq, DHashTable.nr_eq]
    exact Nat.mod_lt _ (Nat.two_pow_pos _)
  have ht'' : (chRecInsertAddref ops ht (init s x arg) _ x).1 = ht' := congrArg Prod.fst h
  rw [← ht'']
  exact mem_chRecInsertAddref_table hidx x

theorem mem_dHashRecDeleteAt_table (hnd : ht.members.Nodup) (x : ι) :
    y ∈ (dHashRecDeleteAt ops ht s x).2.1.members ↔ y ∈ ht.members ∧ y ≠ x := by
  rw [dHashRecDeleteAt_table]
  split_ifs with hx
  · rw [chRecDelete_members hnd, hnd.mem_erase_iff, and_comm]
  · constructor
    · intro hy
      exact ⟨hy, fun hyx => hx (hyx ▸ hy)⟩
    · exact fun h => h.1

end Members

/-! ### Runs of the table -/

/-- The tables and stores a run of the table's functions reaches from `d_hash_table_create`, with
the multimap the same run builds. Between two calls the caller may change the records, keeping
the keys of those on the table; it inserts a link that is not on the table, with its record's
key; and the `hop_key_init` of `d_hash_rec_insert_anonym` sets the key of the new record only. -/
inductive DHashReach [DecidableEq κ] [DecidableEq ι] (ops : DHashTableOps ι κ σ)
    (keyOf : σ → ι → κ) : DHashTable ι → σ → (κ → List ι) → Prop
  | create (feats bits : ℕ) (s : σ) : DHashReach ops keyOf ⟨feats, bits, fun _ => []⟩ s fun _ => []
  | store {ht : DHashTable ι} {s : σ} {m : κ → List ι} (s' : σ) : DHashReach ops keyOf ht s m →
      (∀ x ∈ ht.members, keyOf s' x = keyOf s x) → DHashReach ops keyOf ht s' m
  | find {ht : DHashTable ι} {s : σ} {m : κ → List ι} (key : κ) : DHashReach ops keyOf ht s m →
      DHashReach ops keyOf (dHashRecFind ops ht s key).2.1 (dHashRecFind ops ht s key).2.2 m
  | insert {ht : DHashTable ι} {s : σ} {m : κ → List ι} {key : κ} {x : ι} {exclusive : Bool}
      {ht' : DHashTable ι} {s' : σ} : DHashReach ops keyOf ht s m → keyOf s x = key →
      x ∉ ht.members → dHashRecInsert ops ht s key x exclusive = .ok (ht', s') →
      DHashReach ops keyOf ht' s' (Multimap.push m key x)
  | findInsert {ht : DHashTable ι} {s : σ} {m : κ → List ι} {key : κ} {x : ι} :
      DHashReach ops keyOf ht s m → keyOf s x = key → x ∉ ht.members →
      DHashReach ops keyOf (dHashRecFindInsert ops ht s key x).2.1
        (dHashRecFindInsert ops ht s key x).2.2 (if m key = [] then Multimap.push m key x else m)
  | insertAnonym {ht : DHashTable ι} {s : σ} {m : κ → List ι} {x : ι} {ht' : DHashTable ι}
      {s' : σ} {α : Type} (init : σ → ι → α → σ) (arg : α) : DHashReach ops keyOf ht s m →
      x ∉ ht.members → (∀ y, y ≠ x → keyOf (init s x arg) y = keyOf s y) →
      dHashRecInsertAnonym ops (some init) ht s x arg = .ok (ht', s') →
      DHashReach ops keyOf ht' s' (Multimap.push m (keyOf s' x) x)
  | delete {ht : DHashTable ι} {s : σ} {m : κ → List ι} (key : κ) : DHashReach ops keyOf ht s m →
      DHashReach ops keyOf (dHashRecDelete ops ht s key).2.1 (dHashRecDelete ops ht s key).2.2
        (pop m key)
  | deleteAt {ht : DHashTable ι} {s : σ} {m : κ → List ι} (x : ι) : DHashReach ops keyOf ht s m →
      DHashReach ops keyOf (dHashRecDeleteAt ops ht s x).2.1 (dHashRecDeleteAt ops ht s x).2.2
        (eraseAll m x)
  | evict {ht : DHashTable ι} {s : σ} {m : κ → List ι} (key : κ) : DHashReach ops keyOf ht s m →
      DHashReach ops keyOf (dHashRecEvict ops ht s key).2 s
        (if ht.lru = true then rotate m key else m)
  | evictAt {ht : DHashTable ι} {s : σ} {m : κ → List ι} {x : ι} : DHashReach ops keyOf ht s m →
      x ∈ ht.members → DHashReach ops keyOf (dHashRecEvictAt ops ht s x).2 s
        (if ht.lru = true then toBackAll m x else m)
  | addref {ht : DHashTable ι} {s : σ} {m : κ → List ι} (x : ι) : DHashReach ops keyOf ht s m →
      DHashReach ops keyOf ht (dHashRecAddref ops s x) m
  | decref {ht : DHashTable ι} {s : σ} {m : κ → List ι} {x : ι} {ht' : DHashTable ι} {s' : σ} :
      DHashReach ops keyOf ht s m → dHashRecDecref ops ht s x = some (ht', s') →
      DHashReach ops keyOf ht' s' (if x ∈ ht'.members then m else eraseAll m x)

section Runs

variable {ops : DHashTableOps ι κ σ} {keyOf : σ → ι → κ} [DecidableEq κ] [DecidableEq ι]
  {ht : DHashTable ι} {s : σ} {m : κ → List ι}

omit [DecidableEq ι] in
/-- A new table is empty. -/
theorem dHashWf_create (feats bits : ℕ) (s : σ) :
    dHashView ops keyOf ⟨feats, bits, fun _ => []⟩ s = (fun _ => []) ∧
      DHashWf ops keyOf ⟨feats, bits, fun _ => []⟩ s := by
  have hmembers : (⟨feats, bits, fun _ => []⟩ : DHashTable ι).members = [] := by
    simp [DHashTable.members, Buckets.members]
  refine ⟨funext fun k => ?_, ⟨by rw [hmembers]; exact List.nodup_nil, fun b x hx => by cases hx⟩⟩
  simp [dHashView, view]

/-- The table refines the multimap: over every run from `d_hash_table_create` with lawful
callbacks, each link on the table is there once, on the bucket of its record's key, and the table
stands for the multimap the same run builds, each key's records in the order a lookup meets them. -/
theorem DHashReach.refines (hl : LawfulOps ops keyOf) (h : DHashReach ops keyOf ht s m) :
    dHashView ops keyOf ht s = m ∧ DHashWf ops keyOf ht s := by
  induction h with
  | create feats bits s => exact dHashWf_create feats bits s
  | store s' _ hkeys ih =>
    obtain ⟨rfl, hw⟩ := ih
    exact ⟨hw.view_congr hkeys, hw.congr hkeys⟩
  | find key _ ih =>
    obtain ⟨rfl, hw⟩ := ih
    exact (dHashRecFind_spec hl hw key).2
  | insert _ hkey hx hok ih =>
    obtain ⟨rfl, hw⟩ := ih
    rcases dHashRecInsert_spec hl hw hkey hx _ with ⟨-, -, herr⟩ | ⟨-, ht', s', hok', hview, hw'⟩
    · rw [hok] at herr
      cases herr
    · rw [hok] at hok'
      cases hok'
      exact ⟨hview, hw'⟩
  | findInsert _ hkey hx ih =>
    obtain ⟨rfl, hw⟩ := ih
    exact (dHashRecFindInsert_spec hl hw hkey hx).2
  | insertAnonym init arg _ hx hinit hok ih =>
    obtain ⟨rfl, hw⟩ := ih
    obtain ⟨ht'', s'', hok', hkey, hview, hw'⟩ := dHashRecInsertAnonym_spec hl hw init arg hx hinit
    rw [hok] at hok'
    cases hok'
    rw [hkey]
    exact ⟨hview, hw'⟩
  | delete key _ ih =>
    obtain ⟨rfl, hw⟩ := ih
    exact (dHashRecDelete_spec hl hw key).2
  | deleteAt x _ ih =>
    obtain ⟨rfl, hw⟩ := ih
    exact (dHashRecDeleteAt_spec hl hw x).2
  | evict key _ ih =>
    obtain ⟨rfl, hw⟩ := ih
    exact (dHashRecEvict_spec hl hw key).2
  | evictAt _ hx ih =>
    obtain ⟨rfl, hw⟩ := ih
    exact dHashRecEvictAt_spec hl hw hx
  | addref x _ ih =>
    obtain ⟨rfl, hw⟩ := ih
    exact ⟨dHashView_of_keyOf_eq (hl.addref _ x), hw.of_keyOf_eq (hl.addref _ x)⟩
  | decref _ hdec ih =>
    obtain ⟨rfl, hw⟩ := ih
    exact dHashRecDecref_spec hl hw hdec

/-- Every call on a reachable table returns what the multimap says: a lookup the front of the
key's list, `d_hash_rec_find_insert` that front or the new link, an exclusive insert
`-DER_EXIST` exactly when the key has a record, a delete whether it had one, an eviction whether
an LRU table had one to move, and `d_hash_rec_first` and `d_hash_table_is_empty` whether any key
has a record. -/
theorem dHash_results_match (hl : LawfulOps ops keyOf) (h : DHashReach ops keyOf ht s m)
    (key : κ) :
    (dHashRecFind ops ht s key).1 = (m key).head? ∧
      (∀ x, keyOf s x = key → x ∉ ht.members →
        (dHashRecFindInsert ops ht s key x).1 = (m key).head?.getD x ∧
        ∀ exclusive, dHashRecInsert ops ht s key x exclusive = .error (-derExist) ↔
          exclusive = true ∧ m key ≠ []) ∧
      (dHashRecDelete ops ht s key).1 = !(m key).isEmpty ∧
      (dHashRecEvict ops ht s key).1 = (ht.lru && !(m key).isEmpty) ∧
      (dHashRecFirst ht = none ↔ ∀ k, m k = []) ∧
      (dHashTableIsEmpty ht = true ↔ ∀ k, m k = []) := by
  obtain ⟨rfl, hw⟩ := h.refines hl
  refine ⟨(dHashRecFind_spec hl hw key).1, fun x hkey hx => ⟨(dHashRecFindInsert_spec hl hw hkey hx).1,
    fun exclusive => ?_⟩, (dHashRecDelete_spec hl hw key).1, (dHashRecEvict_spec hl hw key).1,
    (dHashRecFirst_spec hw).1, dHashTableIsEmpty_spec hw⟩
  rcases dHashRecInsert_spec hl hw hkey hx exclusive with ⟨h1, h2, herr⟩ | ⟨hno, ht', s', hok, -⟩
  · exact ⟨fun _ => ⟨h1, h2⟩, fun _ => herr⟩
  · -- the insert went through, so the check found no record or was not asked for
    rw [hok]
    constructor
    · intro herr
      cases herr
    · rintro ⟨h1, h2⟩
      rcases hno with h | h
      · rw [h1] at h
        cases h
      · exact absurd h h2

/-- A run of the handle table's callbacks: a table of one bucket, and a link at address `2` given
the handle of cookie `1` and type `1`. -/
theorem dHashReach_handle : ∃ ht m, DHashReach hhOps hhKeyOf ht m (push (fun _ => []) (hhKey 1 1) 2) := by
  have hc : DHashReach hhOps hhKeyOf ⟨0, 0, fun _ => []⟩ ⟨1, fun _ => ⟨0, 1, true, false⟩, []⟩
      fun _ => [] := .create 0 0 _
  have hx : (2 : UInt64) ∉ (⟨0, 0, fun _ => []⟩ : DHashTable UInt64).members := by
    simp [DHashTable.members, Buckets.members]
  exact ⟨_, _, .insertAnonym hhOpKeyInit 1 hc hx (fun _ hy => hhKeyOf_hhOpKeyInit_of_ne _ hy 1) rfl⟩

theorem dHash_results_match_handle : ∃ ht m,
    DHashReach hhOps hhKeyOf ht m (push (fun _ => []) (hhKey 1 1) 2) ∧
      (dHashRecFind hhOps ht m (hhKey 1 1)).1 = some 2 ∧ dHashTableIsEmpty ht = false := by
  obtain ⟨ht, m, h⟩ := dHashReach_handle
  obtain ⟨hfind, -, -, -, -, hempty⟩ := dHash_results_match hhOps_lawful h (hhKey 1 1)
  refine ⟨ht, m, h, by simp [hfind, push], ?_⟩
  rw [Bool.eq_false_iff]
  intro he
  have hnil := hempty.1 he (hhKey 1 1)
  simp [push] at hnil

end Runs

end Daos.Gurt

import Mathlib
import Daos.Common.LruCacheWf

/-!
# The LRU cache of references over whole runs

A run of the cache is any sequence of `daos_lru_ref_hold`, `daos_lru_ref_release`,
`daos_lru_ref_add`, `daos_lru_ref_evict` and `daos_lru_cache_evict` calls from
`daos_lru_cache_create`, each release, add and evict made by a caller that holds the record (the
assertions of `daos_lru_ref_release`). `LruCacheReach` is that set of runs, with a ghost count
of each record's holders, and `LruCacheInv`, the invariant of `LruCacheWf` with the bound on
`dlc_lru`, holds all along (`LruCacheReach.inv`).

**What is proved.** Over every run: held records are never freed and `daos_lru_is_last_user` is
exact; a hold returns the one live record of its key, or a new one, and never fails with
`-DER_EXIST`; records that are not evicted have distinct keys; `dlc_lru` lists the idle records,
fewer than `dlc_csize`; the table holds each record once, on its key's bucket; a release frees
only the records idle the longest; an eviction of a held record hides it from lookups in every
cache the later calls reach, and frees it at its last release; `daos_lru_cache_evict` frees
exactly the idle records it selects. The calls after a given cache are `LruCacheStep`s; along
them no evicted mark is cleared and no record comes at an address below `nextLink`
(`LruCacheReach.marksKept`).
-/

namespace Daos.LruCache

open Daos.Gurt

variable {κ : Type*} [DecidableEq κ] (hash : κ → ℕ)

/-! ### Runs of the cache -/

/-- The invariant of the cache between two calls, given how many callers hold each record. -/
structure LruCacheInv (c : DaosLruCache κ) (holds : ℕ → ℕ) : Prop
    extends LruCacheWf hash c holds [] where
  /-- The trim of `daos_lru_ref_release` leaves fewer idle records than `dlc_csize`, or none. -/
  idle : c.dlcLru.length < c.dlcCsize ∨ c.dlcLru = []

omit [DecidableEq κ] in
/-- The bound on `dlc_lru` holds after a call that makes no record idle. -/
theorem idle_of_subset {c c' : DaosLruCache κ}
    (hi : c.dlcLru.length < c.dlcCsize ∨ c.dlcLru = []) (hnd : c'.dlcLru.Nodup)
    (hsub : c'.dlcLru ⊆ c.dlcLru) (hcs : c'.dlcCsize = c.dlcCsize) :
    c'.dlcLru.length < c'.dlcCsize ∨ c'.dlcLru = [] := by
  have hle := hnd.length_le_of_subset hsub
  rcases hi with hi | hi
  · exact .inl (by omega)
  · rw [hi] at hsub
    exact .inr (List.eq_nil_of_subset_nil hsub)

/-- The caches a run reaches, with the number of callers that hold each record. A run starts at
`daos_lru_cache_create` of a table that is not `D_HASH_FT_EPHEMERAL`, as every user of the cache
creates it; each release, add and evict is made by a caller that holds the record. -/
inductive LruCacheReach : DaosLruCache κ → (ℕ → ℕ) → Prop
  | create {bits : ℤ} {feats : ℕ} {c : DaosLruCache κ} (hfeats : feats &&& dHashFtEphemeral = 0)
      (h : daosLruCacheCreate bits feats true = .ok c) : LruCacheReach c fun _ => 0
  | hold {c : DaosLruCache κ} {holds : ℕ → ℕ} {key : κ} {create : Bool} {allocRc : ℤ} {l : ℕ}
      {c' : DaosLruCache κ} : LruCacheReach c holds →
      daosLruRefHold hash c key create allocRc = .ok (l, c') →
      LruCacheReach c' (Function.update holds l (holds l + 1))
  | release {c : DaosLruCache κ} {holds : ℕ → ℕ} {l : ℕ} : LruCacheReach c holds → 0 < holds l →
      LruCacheReach (daosLruRefRelease hash c l) (Function.update holds l (holds l - 1))
  | add {c : DaosLruCache κ} {holds : ℕ → ℕ} {l : ℕ} : LruCacheReach c holds → 0 < holds l →
      LruCacheReach (daosLruRefAdd c l) (Function.update holds l (holds l + 1))
  | evict {c : DaosLruCache κ} {holds : ℕ → ℕ} {l : ℕ} : LruCacheReach c holds → 0 < holds l →
      LruCacheReach (daosLruRefEvict hash c l) holds
  | cacheEvict {c : DaosLruCache κ} {holds : ℕ → ℕ} (cond : Option (DaosLlink κ → Bool)) :
      LruCacheReach c holds → LruCacheReach (daosLruCacheEvict hash c cond) holds

namespace LruCacheInv

variable {hash} {c : DaosLruCache κ} {holds : ℕ → ℕ}

/-- A new cache holds no record. -/
theorem create {bits : ℤ} {feats : ℕ} (hfeats : feats &&& dHashFtEphemeral = 0)
    (h : daosLruCacheCreate bits feats true = .ok c) : LruCacheInv hash c fun _ => 0 := by
  unfold daosLruCacheCreate at h
  cases h
  have heph : (feats ||| dHashFtLru) &&& dHashFtEphemeral = 0 := by
    rw [Nat.and_or_distrib_right, hfeats]
    decide
  have hmembers : Buckets.members (1 <<< (max 4 (bits - 3)).toNat) (fun _ => ([] : List ℕ)) = [] := by
    simp [Buckets.members]
  refine ⟨⟨?_, ⟨?_, fun l => ?_, fun b l hl => ?_⟩, ?_, fun l => ?_, List.nodup_nil,
    List.nodup_nil, ?_, fun _ _ => rfl⟩, .inr rfl⟩
  · simp [DHashTable.ephemeral, heph]
  · simp [DHashTable.members, DHashTable.nr, hmembers]
  · simp [DHashTable.members, DHashTable.nr, hmembers, keyOf]
  · cases hl
  · simp [DHashTable.members, DHashTable.nr, hmembers]
  · exact RecWf.none.of_iff (by simp) (by simp)
  · rintro _ _ _ ⟨_, h, -⟩
    cases h

theorem refHold (hinv : LruCacheInv hash c holds) {key : κ} {create : Bool} {allocRc : ℤ}
    {l : ℕ} {c' : DaosLruCache κ} (h : daosLruRefHold hash c key create allocRc = .ok (l, c')) :
    LruCacheInv hash c' (Function.update holds l (holds l + 1)) := by
  rcases hinv.refHold_cases key create allocRc with ⟨l₀, p, hlive, hp, heq⟩ | ⟨hnone, heq⟩
  · rw [heq] at h
    cases h
    have hw := hinv.holdFound hlive hp
    exact ⟨hw, idle_of_subset hinv.idle hw.lru_nodup (List.erase_subset) rfl⟩
  · rw [heq] at h
    split_ifs at h
    cases h
    have hw := hinv.holdCreated hnone
    exact ⟨hw, idle_of_subset hinv.idle hw.lru_nodup (List.Subset.refl _) rfl⟩

theorem refRelease (hinv : LruCacheInv hash c holds) {l : ℕ} (hl : 0 < holds l) :
    LruCacheInv hash (daosLruRefRelease hash c l) (Function.update holds l (holds l - 1)) := by
  obtain ⟨hw, hbound, -⟩ := hinv.toLruCacheWf.refRelease hl
  have hle := hw.lru_length_le
  refine ⟨hw, ?_⟩
  rcases hbound with hnil | hlt
  · exact .inr hnil
  · exact .inl (by omega)

theorem refAdd (hinv : LruCacheInv hash c holds) {l : ℕ} (hl : 0 < holds l) :
    LruCacheInv hash (daosLruRefAdd c l) (Function.update holds l (holds l + 1)) :=
  ⟨hinv.toLruCacheWf.refAdd hl, hinv.idle⟩

theorem refEvict (hinv : LruCacheInv hash c holds) {l : ℕ} (hl : 0 < holds l) :
    LruCacheInv hash (daosLruRefEvict hash c l) holds :=
  ⟨hinv.toLruCacheWf.refEvict hl, hinv.idle⟩

theorem cacheEvict (hinv : LruCacheInv hash c holds) (cond : Option (DaosLlink κ → Bool)) :
    LruCacheInv hash (daosLruCacheEvict hash c cond) holds := by
  obtain ⟨hw, hsub, hcs, -⟩ := hinv.toLruCacheWf.cacheEvict cond
  exact ⟨hw, idle_of_subset hinv.idle hw.lru_nodup hsub.subset hcs⟩

end LruCacheInv

/-- Every reachable cache meets the invariant: induction over the run, one lemma per call. -/
theorem LruCacheReach.inv {c : DaosLruCache κ} {holds : ℕ → ℕ} (h : LruCacheReach hash c holds) :
    LruCacheInv hash c holds := by
  induction h with
  | create hfeats h => exact LruCacheInv.create hfeats h
  | hold _ h ih => exact ih.refHold h
  | release _ hl ih => exact ih.refRelease hl
  | add _ hl ih => exact ih.refAdd hl
  | evict _ hl ih => exact ih.refEvict hl
  | cacheEvict cond _ ih => exact ih.cacheEvict cond

/-- One call of a run, as `LruCacheReach` takes it: the cache and its holders before and
after. -/
inductive LruCacheStep : DaosLruCache κ × (ℕ → ℕ) → DaosLruCache κ × (ℕ → ℕ) → Prop
  | hold {c : DaosLruCache κ} {holds : ℕ → ℕ} {key : κ} {create : Bool} {allocRc : ℤ} {l : ℕ}
      {c' : DaosLruCache κ} : daosLruRefHold hash c key create allocRc = .ok (l, c') →
      LruCacheStep (c, holds) (c', Function.update holds l (holds l + 1))
  | release {c : DaosLruCache κ} {holds : ℕ → ℕ} {l : ℕ} : 0 < holds l →
      LruCacheStep (c, holds) (daosLruRefRelease hash c l, Function.update holds l (holds l - 1))
  | add {c : DaosLruCache κ} {holds : ℕ → ℕ} {l : ℕ} : 0 < holds l →
      LruCacheStep (c, holds) (daosLruRefAdd c l, Function.update holds l (holds l + 1))
  | evict {c : DaosLruCache κ} {holds : ℕ → ℕ} {l : ℕ} : 0 < holds l →
      LruCacheStep (c, holds) (daosLruRefEvict hash c l, holds)
  | cacheEvict {c : DaosLruCache κ} {holds : ℕ → ℕ} (cond : Option (DaosLlink κ → Bool)) :
      LruCacheStep (c, holds) (daosLruCacheEvict hash c cond, holds)

section Steps

variable {hash}

/-- A call from a reachable cache reaches a cache. -/
theorem LruCacheReach.step {c c' : DaosLruCache κ} {holds holds' : ℕ → ℕ}
    (h : LruCacheReach hash c holds) (hs : LruCacheStep hash (c, holds) (c', holds')) :
    LruCacheReach hash c' holds' := by
  cases hs with
  | hold hh => exact h.hold hh
  | release hl => exact h.release hl
  | add hl => exact h.add hl
  | evict hl => exact h.evict hl
  | cacheEvict cond => exact h.cacheEvict cond

/-- Calls from a reachable cache reach a cache: induction on the calls. -/
theorem LruCacheReach.steps {p q : DaosLruCache κ × (ℕ → ℕ)} (h : LruCacheReach hash p.1 p.2)
    (hs : Relation.ReflTransGen (LruCacheStep hash) p q) : LruCacheReach hash q.1 q.2 := by
  induction hs with
  | refl => exact h
  | tail _ hstep ih => exact ih.step hstep

/-! ### Evicted marks over the calls of a run -/

section Marks

variable {n n' : ℕ} {s s₁ s₂ s₃ : ℕ → Option (DaosLlink κ)}

/-- From one store of records to a later one, below address `n`: every record was there
before, and keeps its evicted mark. -/
def MarksKept (n : ℕ) (s s' : ℕ → Option (DaosLlink κ)) : Prop :=
  ∀ l < n, ∀ ll', s' l = some ll' →
    ∃ ll, s l = some ll ∧ (ll.llEvicted = true → ll'.llEvicted = true)

omit [DecidableEq κ] in
theorem MarksKept.refl (n : ℕ) (s : ℕ → Option (DaosLlink κ)) : MarksKept n s s :=
  fun _ _ ll' h => ⟨ll', h, id⟩

omit [DecidableEq κ] in
theorem MarksKept.trans (h₁ : MarksKept n s₁ s₂) (h₂ : MarksKept n s₂ s₃) : MarksKept n s₁ s₃ := by
  intro l hl ll₃ h₃
  obtain ⟨ll₂, h₂', hm₂⟩ := h₂ l hl ll₃ h₃
  obtain ⟨ll₁, h₁', hm₁⟩ := h₁ l hl ll₂ h₂'
  exact ⟨ll₁, h₁', hm₂ ∘ hm₁⟩

omit [DecidableEq κ] in
theorem MarksKept.mono (h : MarksKept n s s') (hle : n' ≤ n) : MarksKept n' s s' :=
  fun l hl => h l (by omega)

omit [DecidableEq κ] in
/-- An edit of one record that keeps its mark set. -/
theorem marksKept_modLlink (n : ℕ) (s : ℕ → Option (DaosLlink κ)) (l : ℕ)
    (f : DaosLlink κ → DaosLlink κ) (hf : ∀ ll, ll.llEvicted = true → (f ll).llEvicted = true) :
    MarksKept n s (modLlink s l f) := by
  intro l' _ ll' h
  rw [modLlink_apply] at h
  split_ifs at h with hl
  · subst hl
    obtain ⟨ll, hs, rfl⟩ := Option.map_eq_some_iff.1 h
    exact ⟨ll, hs, hf ll⟩
  · exact ⟨ll', h, id⟩

omit [DecidableEq κ] in
theorem marksKept_free (n : ℕ) (s : ℕ → Option (DaosLlink κ)) (l : ℕ) :
    MarksKept n s (Function.update s l none) := by
  intro l' _ ll' h
  rcases eq_or_ne l' l with rfl | hne
  · simp at h
  · rw [Function.update_of_ne hne] at h
    exact ⟨ll', h, id⟩

omit [DecidableEq κ] in
/-- A record put at an address at or above `n`. -/
theorem marksKept_update_of_le {l : ℕ} (hl : n ≤ l) (r : Option (DaosLlink κ)) :
    MarksKept n s (Function.update s l r) := by
  intro l' hl' ll' h
  rw [Function.update_of_ne (by omega)] at h
  exact ⟨ll', h, id⟩

omit [DecidableEq κ] in
/-- A record rewritten in place with its mark kept. -/
theorem marksKept_update_some {l : ℕ} {ll ll' : DaosLlink κ} (hs : s l = some ll)
    (hf : ll.llEvicted = true → ll'.llEvicted = true) :
    MarksKept n s (Function.update s l (some ll')) := by
  intro l' _ ll'' h
  rcases eq_or_ne l' l with rfl | hne
  · rw [Function.update_self] at h
    cases h
    exact ⟨ll, hs, hf⟩
  · rw [Function.update_of_ne hne] at h
    exact ⟨ll'', h, id⟩

/-- `lru_del_evicted` frees the record, or only drops a reference on it. -/
theorem lruDelEvicted_marksKept (n : ℕ) (c : DaosLruCache κ) (l : ℕ) :
    MarksKept n c.llinks (lruDelEvicted hash c l).llinks := by
  have hdec := marksKept_modLlink n c.llinks l (fun ll => { ll with llRef := ll.llRef - 1 })
    fun _ h => h
  unfold lruDelEvicted dHashRecDeleteAt chRecDelDecref
  by_cases hmem : l ∈ c.dlcHtable.members
  · by_cases heph : c.dlcHtable.ephemeral = true
    · -- an ephemeral table drops no reference
      simp only [hmem, heph, if_true, Bool.false_eq_true, if_false]
      exact .refl n _
    · simp only [hmem, heph, lruOps, if_true, Bool.false_eq_true, if_false]
      -- the reference dropped, and the record freed with the last
      split_ifs
      · exact hdec.trans (marksKept_free n _ l)
      · exact hdec
  · simp only [hmem, if_false]
    exact .refl n _

/-- The trim of `daos_lru_ref_release` frees records only, and allocates none. -/
theorem lruRefReleaseTrim_marksKept (n fuel : ℕ) (c : DaosLruCache κ) :
    MarksKept n c.llinks (lruRefReleaseTrim hash fuel c).llinks ∧
      (lruRefReleaseTrim hash fuel c).nextLink = c.nextLink := by
  fun_induction lruRefReleaseTrim hash fuel c with
  | case1 c => exact ⟨.refl n _, rfl⟩
  | case2 fuel c _ => exact ⟨.refl n _, rfl⟩
  | case3 fuel c l _ _ => exact ⟨.refl n _, rfl⟩
  | case4 fuel c l _ _ ih => exact ⟨(lruDelEvicted_marksKept n _ l).trans ih.1, ih.2⟩

/-- `daos_lru_ref_release` drops a reference, marks the record evicted when the cache keeps no
idle record, and frees records: no mark is cleared. -/
theorem daosLruRefRelease_marksKept (n : ℕ) (c : DaosLruCache κ) (l : ℕ) :
    MarksKept n c.llinks (daosLruRefRelease hash c l).llinks ∧
      (daosLruRefRelease hash c l).nextLink = c.nextLink := by
  have hdec := marksKept_modLlink n c.llinks l (fun ll => { ll with llRef := ll.llRef - 1 })
    fun _ h => h
  unfold daosLruRefRelease
  dsimp only
  split
  · rename_i ll hs
    split_ifs with h1 hcs hev hev
    · -- the last holder's release, where the cache keeps no idle record: marked and deleted
      exact ⟨hdec.trans ((marksKept_update_some hs fun _ => rfl).trans
        ((lruDelEvicted_marksKept n _ l).trans (lruRefReleaseTrim_marksKept n _ _).1)),
        (lruRefReleaseTrim_marksKept n _ _).2⟩
    · exact absurd rfl hev
    · -- of an evicted record: deleted
      exact ⟨hdec.trans ((marksKept_update_some hs id).trans
        ((lruDelEvicted_marksKept n _ l).trans (lruRefReleaseTrim_marksKept n _ _).1)),
        (lruRefReleaseTrim_marksKept n _ _).2⟩
    · -- of another: to `dlc_lru`
      exact ⟨hdec.trans ((marksKept_update_some hs id).trans
        (lruRefReleaseTrim_marksKept n _ _).1), (lruRefReleaseTrim_marksKept n _ _).2⟩
    · exact ⟨hdec.trans (lruRefReleaseTrim_marksKept n _ _).1,
        (lruRefReleaseTrim_marksKept n _ _).2⟩
  · exact ⟨hdec.trans (lruRefReleaseTrim_marksKept n _ _).1, (lruRefReleaseTrim_marksKept n _ _).2⟩

/-- `daos_lru_ref_hold` takes a reference on a record, or adds one at `nextLink`, past every
record. -/
theorem daosLruRefHold_marksKept {c c' : DaosLruCache κ} {holds : ℕ → ℕ}
    (hw : LruCacheWf hash c holds []) {key : κ} {create : Bool} {allocRc : ℤ} {l : ℕ}
    (h : daosLruRefHold hash c key create allocRc = .ok (l, c')) :
    MarksKept c.nextLink c.llinks c'.llinks ∧ c.nextLink ≤ c'.nextLink := by
  rcases hw.refHold_cases key create allocRc with ⟨l₀, p, -, -, heq⟩ | ⟨-, heq⟩
  · rw [heq] at h
    cases h
    exact ⟨marksKept_modLlink _ _ _ _ fun _ h => h, le_rfl⟩
  · rw [heq] at h
    split_ifs at h
    cases h
    exact ⟨marksKept_update_of_le le_rfl _, Nat.le_succ _⟩

/-- `daos_lru_cache_evict` marks records and frees some: no mark is cleared. -/
theorem daosLruCacheEvict_marksKept {c : DaosLruCache κ} {holds : ℕ → ℕ}
    (hw : LruCacheWf hash c holds []) (cond : Option (DaosLlink κ → Bool)) (n : ℕ) :
    MarksKept n c.llinks (daosLruCacheEvict hash c cond).llinks := by
  intro l _ ll' h
  rw [(hw.cacheEvict cond).2.2.2 l] at h
  cases hs : c.llinks l with
  | none =>
    rw [hs] at h
    cases h
  | some ll =>
    rw [hs] at h
    simp only [evictResult] at h
    split_ifs at h
    cases h
    -- an evicted record is always selected, and marked again
    refine ⟨ll, rfl, fun hev => ?_⟩
    simp [evictMark, evictHit, hev]

/-- `daos_lru_cache_evict` allocates nothing. -/
theorem daosLruCacheEvict_nextLink (c : DaosLruCache κ) (cond : Option (DaosLlink κ → Bool)) :
    (daosLruCacheEvict hash c cond).nextLink = c.nextLink := by
  -- the traversal and the deletions each leave `nextLink` alone
  have hcb : ∀ (xs : List ℕ) (a : DaosLruCache κ × List ℕ),
      (xs.foldl (fun a l => (lruEvictCb cond a l).1) a).1.nextLink = a.1.nextLink := by
    intro xs
    induction xs with
    | nil => exact fun _ => rfl
    | cons l xs ih =>
      intro a
      rw [List.foldl_cons, ih]
      unfold lruEvictCb
      split
      · rfl
      · dsimp only
        split_ifs <;> rfl
  have hdel : ∀ (xs : List ℕ) (c : DaosLruCache κ),
      (xs.foldl (lruDelEvicted hash) c).nextLink = c.nextLink := by
    intro xs
    induction xs with
    | nil => exact fun _ => rfl
    | cons l xs ih =>
      intro c
      rw [List.foldl_cons, ih]
      rfl
  unfold daosLruCacheEvict
  rw [dHashTableTraverse_eq_foldl (lruEvictCb_snd cond), hdel, hcb]

/-- Each call of a run keeps the marks of the records below `nextLink`, and moves `nextLink`
up only. -/
theorem LruCacheStep.marksKept {c c' : DaosLruCache κ} {holds holds' : ℕ → ℕ}
    (h : LruCacheReach hash c holds) (hs : LruCacheStep hash (c, holds) (c', holds')) :
    MarksKept c.nextLink c.llinks c'.llinks ∧ c.nextLink ≤ c'.nextLink := by
  have hw := h.inv.toLruCacheWf
  cases hs with
  | hold hh => exact daosLruRefHold_marksKept hw hh
  | release _ =>
    obtain ⟨hk, hnext⟩ := daosLruRefRelease_marksKept c.nextLink c _
    exact ⟨hk, hnext.ge⟩
  | add _ => exact ⟨marksKept_modLlink _ _ _ _ fun _ h => h, le_rfl⟩
  | evict _ => exact ⟨marksKept_modLlink _ _ _ _ fun _ _ => rfl, le_rfl⟩
  | cacheEvict cond =>
    exact ⟨daosLruCacheEvict_marksKept hw cond _, (daosLruCacheEvict_nextLink c cond).ge⟩

/-- Over calls from a reachable cache: induction on the calls, one step by
`LruCacheStep.marksKept`. -/
theorem LruCacheReach.marksKept {p q : DaosLruCache κ × (ℕ → ℕ)} (h : LruCacheReach hash p.1 p.2)
    (hs : Relation.ReflTransGen (LruCacheStep hash) p q) :
    MarksKept p.1.nextLink p.1.llinks q.1.llinks ∧ p.1.nextLink ≤ q.1.nextLink := by
  induction hs with
  | refl => exact ⟨.refl _ _, le_rfl⟩
  | tail hpq hstep ih =>
    obtain ⟨hk, hle⟩ := ih
    obtain ⟨hk', hle'⟩ := LruCacheStep.marksKept (h.steps hpq) hstep
    exact ⟨hk.trans (hk'.mono hle), hle.trans hle'⟩

end Marks

end Steps

/-! ### What every run guarantees -/

section Runs

variable {hash} {c : DaosLruCache κ} {holds : ℕ → ℕ}

/-- Held records are never freed: over every run, a record a caller holds is allocated and on
the table, its `ll_ref` counts the table's reference and one per holder, and
`daos_lru_is_last_user` of it holds exactly when one caller holds it. -/
theorem lruCache_held_not_freed (h : LruCacheReach hash c holds) {l : ℕ} (hl : 0 < holds l) :
    ∃ ll, c.llinks l = some ll ∧ l ∈ c.dlcHtable.members ∧ ll.llRef = holds l + 1 ∧
      (daosLruIsLastUser ll = true ↔ holds l = 1) := by
  have hw := h.inv.toLruCacheWf
  obtain ⟨ll, hs, hrec⟩ := hw.record_held hl
  have href := hrec.ref ll rfl
  refine ⟨ll, hs, (hw.mem_members l).2 (by simp [hs]), href, ?_⟩
  simp only [daosLruIsLastUser, href, decide_eq_true_eq]
  omega

/-- `daos_lru_ref_hold` over every run: a hold that succeeds returns a record live for the key,
the one that was live if there was one, else a new one at a free address; a hold fails only
when no record of the key is live, with `-DER_NONEXIST` for a lookup or with the error of
`lop_alloc_ref`: its exclusive insert never fails. -/
theorem daosLruRefHold_returns_live (h : LruCacheReach hash c holds) (key : κ) (create : Bool)
    (allocRc : ℤ) :
    (∀ l c', daosLruRefHold hash c key create allocRc = .ok (l, c') →
      LiveAt c'.llinks key l ∧
        (LiveAt c.llinks key l ∨ c.llinks l = none ∧ ∀ l', ¬ LiveAt c.llinks key l')) ∧
    (∀ rc, daosLruRefHold hash c key create allocRc = .error rc →
      (∀ l, ¬ LiveAt c.llinks key l) ∧
        (create = false ∧ rc = -derNonexist ∨ create = true ∧ rc = allocRc ∧ allocRc ≠ 0)) := by
  have hw := h.inv.toLruCacheWf
  rcases hw.refHold_cases key create allocRc with ⟨l₀, p, hlive, hp, heq⟩ | ⟨hnone, heq⟩
  · -- the live record, with a reference more
    rw [heq]
    refine ⟨fun l c' hok => ?_, fun rc herr => by cases herr⟩
    cases hok
    obtain ⟨ll, hs, hk, hev⟩ := hlive
    exact ⟨⟨{ ll with llRef := ll.llRef + 1 }, by simp [hs], hk, hev⟩, .inl ⟨ll, hs, hk, hev⟩⟩
  · rw [heq]
    split_ifs with hcreate hrc
    · refine ⟨fun _ _ h => (by cases h), fun rc h => ?_⟩
      cases h
      exact ⟨hnone, .inl ⟨hcreate, rfl⟩⟩
    · refine ⟨fun _ _ h => (by cases h), fun rc h => ?_⟩
      cases h
      exact ⟨hnone, .inr ⟨by simpa using hcreate, rfl, hrc⟩⟩
    · -- a new record at the next address
      refine ⟨fun l c' hok => ?_, fun rc h => by cases h⟩
      cases hok
      exact ⟨⟨_, Function.update_self .., rfl, rfl⟩, .inr ⟨hw.fresh _ le_rfl, hnone⟩⟩

/-- Lookups are never ambiguous: over every run, no two records that are not evicted have the
same key. -/
theorem lruCache_live_unique (h : LruCacheReach hash c holds) {key : κ} {l₁ l₂ : ℕ}
    (h₁ : LiveAt c.llinks key l₁) (h₂ : LiveAt c.llinks key l₂) : l₁ = l₂ :=
  h.inv.unique key l₁ l₂ h₁ h₂

/-- The idle list over every run: `dlc_lru` lists, once each, exactly the allocated records no
caller holds, and fewer than `dlc_csize` of them; with `dlc_csize` `0` no record is ever idle. -/
theorem lruCache_idle_list (h : LruCacheReach hash c holds) :
    (∀ l, l ∈ c.dlcLru ↔ (c.llinks l).isSome ∧ holds l = 0) ∧ c.dlcLru.Nodup ∧
      (c.dlcLru.length < c.dlcCsize ∨ c.dlcLru = []) := by
  have hinv := h.inv
  refine ⟨fun l => ?_, hinv.lru_nodup, hinv.idle⟩
  rw [(hinv.record l).idle]
  simp

/-- The table over every run: it holds each allocated record once, on the bucket of the
record's key and on no other, and `dlc_count` counts the records on it. -/
theorem lruCache_table_count (h : LruCacheReach hash c holds) :
    c.dlcHtable.members.Nodup ∧ (∀ l, l ∈ c.dlcHtable.members ↔ (c.llinks l).isSome) ∧
      (∀ l ll b, c.llinks l = some ll →
        (l ∈ c.dlcHtable.htBuckets b ↔ b = chKeyHash (lruOps hash) c.dlcHtable ll.llKey)) ∧
      c.dlcCount = c.dlcHtable.members.length := by
  have hw := h.inv.toLruCacheWf
  refine ⟨hw.table.nodup, hw.mem_members, fun l ll b hs => ?_, hw.count⟩
  exact hw.table.mem_bucket_iff (by simp [keyOf, hs]) b

/-- `daos_lru_ref_release` frees the records idle the longest: over every run, apart from the
released record, the idle list after a release is a prefix of the one before, and every other
record it frees was idle before and is no longer listed. -/
theorem daosLruRefRelease_frees_oldest (h : LruCacheReach hash c holds) {l : ℕ}
    (hl : 0 < holds l) :
    (daosLruRefRelease hash c l).dlcLru.erase l <+: c.dlcLru ∧
      ∀ l', l' ≠ l → (c.llinks l').isSome → (daosLruRefRelease hash c l).llinks l' = none →
        l' ∈ c.dlcLru ∧ l' ∉ (daosLruRefRelease hash c l).dlcLru := by
  have hw := h.inv.toLruCacheWf
  obtain ⟨hw', -, hpre⟩ := hw.refRelease hl
  refine ⟨hpre, fun l' hne hsome hfree => ?_⟩
  have hrec' := hw'.record l'
  rw [Function.update_of_ne hne, hfree] at hrec'
  -- a freed record has no holder, so it was idle
  have hheld : holds l' = 0 := Nat.eq_zero_of_not_pos fun hpos => by simpa using hrec'.held hpos
  refine ⟨(hw.record l').idle.2 ⟨hsome, hheld, List.not_mem_nil⟩, fun hidle => ?_⟩
  simpa using (hrec'.idle.1 hidle).1

/-- `daos_lru_ref_evict` over every run: once a caller evicts a record it holds, in every cache
the calls after it reach, whoever makes them, no hold returns that record, and the release by
its last holder frees it. The mark of a record is never cleared, and no record comes at its
address again (`LruCacheReach.marksKept`). -/
theorem daosLruRefEvict_hides (h : LruCacheReach hash c holds) {l : ℕ} (hl : 0 < holds l)
    {c' : DaosLruCache κ} {holds' : ℕ → ℕ}
    (hrun : Relation.ReflTransGen (LruCacheStep hash) (daosLruRefEvict hash c l, holds)
      (c', holds')) :
    (∀ key create allocRc c'', daosLruRefHold hash c' key create allocRc ≠ .ok (l, c'')) ∧
      (holds' l = 1 → (daosLruRefRelease hash c' l).llinks l = none) := by
  have he := h.evict hl
  have hw' := (he.steps hrun).inv.toLruCacheWf
  obtain ⟨hkept, hnext⟩ := he.marksKept hrun
  -- right after the evict the record is allocated, below `nextLink`, and marked
  obtain ⟨ll, hs, -⟩ := he.inv.toLruCacheWf.record_held hl
  have hlt : l < (daosLruRefEvict hash c l).nextLink := by
    by_contra hge
    rw [he.inv.fresh l (by omega)] at hs
    cases hs
  have hev : ll.llEvicted = true := by
    have hs' : (daosLruRefEvict hash c l).llinks l = (c.llinks l).map
        fun ll => { ll with llEvicted := true } := modLlink_self _ _ _
    rw [hs] at hs'
    obtain ⟨ll₀, -, rfl⟩ := Option.map_eq_some_iff.1 hs'.symm
    rfl
  -- later it is marked still, or freed
  have hmark : ∀ ll', c'.llinks l = some ll' → ll'.llEvicted = true := fun ll' hs' => by
    obtain ⟨ll₀, hs₀, hm⟩ := hkept l hlt ll' hs'
    rw [hs] at hs₀
    cases hs₀
    exact hm hev
  refine ⟨fun key create allocRc c'' hok => ?_, fun h1 => ?_⟩
  · rcases hw'.refHold_cases key create allocRc with ⟨l₀, p, hlive, -, heq⟩ | ⟨-, heq⟩
    · -- a lookup finds no evicted record
      rw [heq] at hok
      cases hok
      obtain ⟨ll', hs', -, hev'⟩ := hlive
      rw [hmark ll' hs'] at hev'
      cases hev'
    · -- a new record goes to `nextLink`, past the evicted one
      rw [heq] at hok
      split_ifs at hok
      obtain ⟨hnl, -⟩ := Prod.mk.inj (Except.ok.inj hok)
      have hle : (daosLruRefEvict hash c l).nextLink ≤ c'.nextLink := hnext
      have hnl' : c'.nextLink = l := hnl
      omega
  · obtain ⟨ll', hs', -⟩ := hw'.record_held (by omega : 0 < holds' l)
    exact hw'.refRelease_last_evicted h1 hs' (hmark ll' hs')

/-- `daos_lru_cache_evict` over every run frees exactly the records it selects (evicted
already, all of them without a condition, or those meeting it) that no caller holds; it marks
evicted the held ones it selects, and leaves the others as they are. -/
theorem daosLruCacheEvict_frees_selected (h : LruCacheReach hash c holds)
    (cond : Option (DaosLlink κ → Bool)) (l : ℕ) :
    (daosLruCacheEvict hash c cond).llinks l = evictResult cond (holds l) (c.llinks l) :=
  (h.inv.toLruCacheWf.cacheEvict cond).2.2.2 l


/-- A run of two calls: a cache of at most two idle records, over a table of sixteen buckets,
and a hold of key `5` that inserts its record at address `0`. -/
theorem lruCacheReach_held : ∃ c c' : DaosLruCache ℕ, daosLruCacheCreate 1 0 true = .ok c ∧
    daosLruRefHold id c 5 true 0 = .ok (0, c') ∧ c'.llinks 0 = some ⟨5, 2, false⟩ ∧
    LruCacheReach id c' (Function.update (fun _ => 0) 0 1) :=
  ⟨_, _, rfl, rfl, rfl,
    @LruCacheReach.hold ℕ _ id _ _ 5 true 0 0 _ (@LruCacheReach.create ℕ _ id 1 0 _ (by decide) rfl)
      rfl⟩

theorem lruCache_held_not_freed_run : ∃ c c' : DaosLruCache ℕ,
    daosLruCacheCreate 1 0 true = .ok c ∧ daosLruRefHold id c 5 true 0 = .ok (0, c') ∧
    0 < Function.update (fun _ => 0) 0 1 0 ∧
    ∃ ll, c'.llinks 0 = some ll ∧ 0 ∈ c'.dlcHtable.members ∧
      ll.llRef = Function.update (fun _ => 0) 0 1 0 + 1 ∧
      (daosLruIsLastUser ll = true ↔ Function.update (fun _ => 0) 0 1 0 = 1) := by
  obtain ⟨c, c', hc, hhold, -, hr⟩ := lruCacheReach_held
  have hl : 0 < Function.update (fun _ => 0) 0 1 0 := by decide
  exact ⟨c, c', hc, hhold, hl, lruCache_held_not_freed hr hl⟩

theorem daosLruRefHold_returns_live_run : ∃ c c' : DaosLruCache ℕ,
    daosLruCacheCreate 1 0 true = .ok c ∧ daosLruRefHold id c 5 true 0 = .ok (0, c') ∧
    (∀ l c'', daosLruRefHold id c' 5 false 0 = .ok (l, c'') →
      LiveAt c''.llinks 5 l ∧
        (LiveAt c'.llinks 5 l ∨ c'.llinks l = none ∧ ∀ l', ¬ LiveAt c'.llinks 5 l')) ∧
    (∀ rc, daosLruRefHold id c' 5 false 0 = .error rc →
      (∀ l, ¬ LiveAt c'.llinks 5 l) ∧
        (false = false ∧ rc = -derNonexist ∨ false = true ∧ rc = 0 ∧ (0 : ℤ) ≠ 0)) := by
  obtain ⟨c, c', hc, hhold, -, hr⟩ := lruCacheReach_held
  exact ⟨c, c', hc, hhold, daosLruRefHold_returns_live hr 5 false 0⟩

theorem lruCache_live_unique_run : ∃ c c' : DaosLruCache ℕ,
    daosLruCacheCreate 1 0 true = .ok c ∧ daosLruRefHold id c 5 true 0 = .ok (0, c') ∧
    LiveAt c'.llinks 5 0 ∧ (0 : ℕ) = 0 := by
  obtain ⟨c, c', hc, hhold, hlink, hr⟩ := lruCacheReach_held
  have hlive : LiveAt c'.llinks 5 0 := ⟨_, hlink, rfl, rfl⟩
  exact ⟨c, c', hc, hhold, hlive, lruCache_live_unique hr hlive hlive⟩

theorem lruCache_idle_list_run : ∃ c c' : DaosLruCache ℕ,
    daosLruCacheCreate 1 0 true = .ok c ∧ daosLruRefHold id c 5 true 0 = .ok (0, c') ∧
    (∀ l, l ∈ c'.dlcLru ↔ (c'.llinks l).isSome ∧ Function.update (fun _ => 0) 0 1 l = 0) ∧
    c'.dlcLru.Nodup ∧ (c'.dlcLru.length < c'.dlcCsize ∨ c'.dlcLru = []) := by
  obtain ⟨c, c', hc, hhold, -, hr⟩ := lruCacheReach_held
  exact ⟨c, c', hc, hhold, lruCache_idle_list hr⟩

theorem lruCache_table_count_run : ∃ c c' : DaosLruCache ℕ,
    daosLruCacheCreate 1 0 true = .ok c ∧ daosLruRefHold id c 5 true 0 = .ok (0, c') ∧
    c'.dlcHtable.members.Nodup ∧ (∀ l, l ∈ c'.dlcHtable.members ↔ (c'.llinks l).isSome) ∧
    (∀ l ll b, c'.llinks l = some ll →
      (l ∈ c'.dlcHtable.htBuckets b ↔ b = chKeyHash (lruOps id) c'.dlcHtable ll.llKey)) ∧
    c'.dlcCount = c'.dlcHtable.members.length := by
  obtain ⟨c, c', hc, hhold, -, hr⟩ := lruCacheReach_held
  exact ⟨c, c', hc, hhold, lruCache_table_count hr⟩

theorem daosLruRefRelease_frees_oldest_run : ∃ c c' : DaosLruCache ℕ,
    daosLruCacheCreate 1 0 true = .ok c ∧ daosLruRefHold id c 5 true 0 = .ok (0, c') ∧
    0 < Function.update (fun _ => 0) 0 1 0 ∧
    (daosLruRefRelease id c' 0).dlcLru.erase 0 <+: c'.dlcLru ∧
      ∀ l', l' ≠ 0 → (c'.llinks l').isSome → (daosLruRefRelease id c' 0).llinks l' = none →
        l' ∈ c'.dlcLru ∧ l' ∉ (daosLruRefRelease id c' 0).dlcLru := by
  obtain ⟨c, c', hc, hhold, -, hr⟩ := lruCacheReach_held
  have hl : 0 < Function.update (fun _ => 0) 0 1 0 := by decide
  exact ⟨c, c', hc, hhold, hl, daosLruRefRelease_frees_oldest hr hl⟩

/-- Two callers hold the record of key `5`; one evicts it, a hold of key `7` adds a record at
address `1`, and the evicting caller releases. The record stays hidden, and the release by the
other caller, now its last holder, frees it. -/
theorem daosLruRefEvict_hides_run : ∃ (c c' : DaosLruCache ℕ) (holds holds' : ℕ → ℕ),
    LruCacheReach id c holds ∧ 0 < holds 0 ∧
    Relation.ReflTransGen (LruCacheStep id) (daosLruRefEvict id c 0, holds) (c', holds') ∧
    holds 0 = 2 ∧ holds' 0 = 1 ∧ holds' 1 = 1 ∧
    (∀ key create allocRc c'', daosLruRefHold id c' key create allocRc ≠ .ok (0, c'')) ∧
    (holds' 0 = 1 → (daosLruRefRelease id c' 0).llinks 0 = none) := by
  obtain ⟨c₀, c₁, hc, hhold, -, hr⟩ := lruCacheReach_held
  cases hc
  cases hhold
  -- the second hold of key `5`, and the hold of key `7` after the evict
  obtain ⟨c₂, holds, hr₂, h0, h1, c₃, hhold₃⟩ : ∃ (c₂ : DaosLruCache ℕ) (holds : ℕ → ℕ),
      LruCacheReach id c₂ holds ∧ holds 0 = 2 ∧ holds 1 = 0 ∧
      ∃ c₃, daosLruRefHold id (daosLruRefEvict id c₂ 0) 7 true 0 = .ok (1, c₃) :=
    ⟨_, _, @LruCacheReach.hold ℕ _ id _ _ 5 true 0 0 _ hr rfl, by decide, by decide, _, rfl⟩
  have hl : 0 < holds 0 := by omega
  -- then the evicting caller's release
  have hrun : Relation.ReflTransGen (LruCacheStep id) (daosLruRefEvict id c₂ 0, holds)
      (daosLruRefRelease id c₃ 0, Function.update (Function.update holds 1 (holds 1 + 1)) 0 1) := by
    have hrel := @LruCacheStep.release ℕ _ id c₃ (Function.update holds 1 (holds 1 + 1)) 0
      (by simp [h0])
    rw [show Function.update holds 1 (holds 1 + 1) 0 - 1 = 1 by simp [h0]] at hrel
    exact .tail (.single (.hold hhold₃)) hrel
  exact ⟨_, _, _, _, hr₂, hl, hrun, h0, by simp, by simp [h1], daosLruRefEvict_hides hr₂ hl hrun⟩

theorem daosLruCacheEvict_frees_selected_run : ∃ c c' : DaosLruCache ℕ,
    daosLruCacheCreate 1 0 true = .ok c ∧ daosLruRefHold id c 5 true 0 = .ok (0, c') ∧
    (daosLruCacheEvict id c' none).llinks 0 =
      evictResult none (Function.update (fun _ => 0) 0 1 0) (c'.llinks 0) := by
  obtain ⟨c, c', hc, hhold, -, hr⟩ := lruCacheReach_held
  exact ⟨c, c', hc, hhold, daosLruCacheEvict_frees_selected hr none 0⟩

end Runs

end Daos.LruCache

import Daos.Lib.Cycle
import Daos.Vos.Lru.Array

/-!
# The two lists of a sub-array

An allocated sub-array keeps its LRU list and its free list in one table. `LruSub.Links` names
the two lists, by head: each is a circular doubly-linked list through the table
(`Daos.Lib.IsCycle`) whose first element is the head the sub-array holds, `LRU_NO_IDX` when it
is empty, and no entry is on both. `LruSub.Layout` adds what a sub-array of `n` entries keeps
besides: the two lists hold every entry once, and the free entries are those with key `0`.

The model's list functions each have one lemma here, stated as a change of the lists:
`lrua_remove_entry` erases an entry from its list (`LruSub.Links.removeEntry`) and
`lrua_insert` links one in before the head of a list, at its tail or as its head
(`LruSub.Links.insert`). The moves of whole operations are built from them, one lemma each:
taking the head of the free list (`Layout.takeFree`), evicting an entry (`Layout.evict`),
taking a given free entry (`Layout.takeFreeAt`), moving an entry to the tail of the LRU list
(`Layout.moveToTail`), moving the head of the LRU list on (`Layout.rotate`), reusing the least
recently used entry (`Layout.reuse`), and the fresh table of `lrua_array_alloc_one`
(`layout_allocOne`).
-/

namespace Daos.Vos.Lru

open Daos.Lib

/-- The LRU list and the free list of a sub-array, by head. -/
def lruLists (lru free : List ℕ) : LruHead → List ℕ
  | .lru => lru
  | .free => free

@[simp] theorem lruLists_lru (lru free : List ℕ) : lruLists lru free .lru = lru := rfl

@[simp] theorem lruLists_free (lru free : List ℕ) : lruLists lru free .free = free := rfl

@[simp] theorem update_lruLists_lru (lru free l : List ℕ) :
    Function.update (lruLists lru free) .lru l = lruLists l free := by
  funext h
  cases h <;> rfl

@[simp] theorem update_lruLists_free (lru free l : List ℕ) :
    Function.update (lruLists lru free) .free l = lruLists lru l := by
  funext h
  cases h <;> rfl

/-- A table that agrees with another on a list's entries carries the same circular list. -/
theorem isCycle_of_agree {t t' : ℕ → LruEntry} {l : List ℕ}
    (hc : IsCycle (nextOf t) (prevOf t) l) (h : ∀ j ∈ l, t' j = t j) :
    IsCycle (nextOf t') (prevOf t') l :=
  hc.frame (fun j hj => by simp only [nextOf, h j hj]) (fun j hj => by simp only [prevOf, h j hj])

/-- The lists of an allocated sub-array with table `t`: `lists .lru` from `ls_lru` and
`lists .free` from `ls_free`. -/
structure LruSub.Links (sub : LruSub) (t : ℕ → LruEntry) (lists : LruHead → List ℕ) : Prop where
  table : sub.lsTable = some t
  cycle : ∀ h, IsCycle (nextOf t) (prevOf t) (lists h)
  head : ∀ h, sub.head h = (lists h).headD lruNoIdx
  disjoint : ∀ x ∈ lists .lru, x ∉ lists .free
  ne_noIdx : ∀ h, ∀ x ∈ lists h, x ≠ lruNoIdx

namespace LruSub.Links

variable {sub : LruSub} {t : ℕ → LruEntry} {L : LruHead → List ℕ}

theorem not_mem_of_ne (hl : sub.Links t L) {h h' : LruHead} (hne : h' ≠ h) {x : ℕ}
    (hx : x ∈ L h) : x ∉ L h' := by
  cases h <;> cases h'
  · exact absurd rfl hne
  · exact hl.disjoint x hx
  · exact fun hx' => hl.disjoint x hx' hx
  · exact absurd rfl hne

/-- A list's head is `LRU_NO_IDX` exactly when the list is empty. -/
theorem head_eq_noIdx_iff (hl : sub.Links t L) (h : LruHead) :
    sub.head h = lruNoIdx ↔ L h = [] := by
  rw [hl.head h]
  cases hL : L h with
  | nil => simp
  | cons x xs =>
    simp only [List.headD_cons, reduceCtorEq, iff_false]
    exact hl.ne_noIdx h x (by simp [hL])

/-- Writing a key keeps the links. -/
theorem setKey (hl : sub.Links t L) (i : ℕ) (k : UInt64) :
    (sub.modTable fun t => Lru.setKey t i k).Links (Lru.setKey t i k) L where
  table := by simp [hl.table]
  cycle h := by simpa using hl.cycle h
  head h := by simpa using hl.head h
  disjoint := hl.disjoint
  ne_noIdx := hl.ne_noIdx

/-- Replacing list `h` by one whose entries are its own or on neither list keeps the lists
apart. -/
theorem disjoint_update (hl : sub.Links t L) {h : LruHead} {l : List ℕ}
    (hsub : ∀ y ∈ l, y ∈ L h ∨ ∀ h', y ∉ L h') :
    ∀ y ∈ Function.update L h l .lru, y ∉ Function.update L h l .free := by
  intro y hy hy'
  cases h
  · rw [Function.update_self] at hy
    rw [Function.update_of_ne (by simp)] at hy'
    rcases hsub y hy with hy | hfresh
    · exact hl.disjoint y hy hy'
    · exact hfresh .free hy'
  · rw [Function.update_of_ne (by simp)] at hy
    rw [Function.update_self] at hy'
    rcases hsub y hy' with hy' | hfresh
    · exact hl.disjoint y hy hy'
    · exact hfresh .lru hy

theorem ne_noIdx_update (hl : sub.Links t L) {h : LruHead} {l : List ℕ}
    (hsub : ∀ y ∈ l, y ∈ L h ∨ y ≠ lruNoIdx) :
    ∀ h', ∀ y ∈ Function.update L h l h', y ≠ lruNoIdx := by
  intro h' y hy
  rcases eq_or_ne h' h with rfl | hne'
  · rw [Function.update_self] at hy
    rcases hsub y hy with hy | hne
    · exact hl.ne_noIdx h' y hy
    · exact hne
  · rw [Function.update_of_ne hne'] at hy
    exact hl.ne_noIdx h' y hy

/-- `lrua_remove_entry` on list `h`: the entry leaves it, the other list keeps its links, and
the entries outside list `h` and every key are unchanged. -/
theorem removeEntry (hl : sub.Links t L) {h : LruHead} {idx : ℕ} (hi : idx ∈ L h) :
    ∃ t', (sub.removeEntry h idx).Links t' (Function.update L h ((L h).erase idx)) ∧
      (∀ j ∉ L h, t' j = t j) ∧ ∀ j, (t' j).leKey = (t j).leKey := by
  have hc := hl.cycle h
  have hent := LruSub.entry_of_lsTable hl.table idx
  have hsub : ((L h).erase idx).Sublist (L h) := List.erase_sublist
  by_cases hp : (t idx).lePrevIdx = idx
  · -- alone in its list: the list empties and the table is not written
    have hsing : L h = [idx] := (hc.prv_eq_self_iff hi).1 hp
    have heq : sub.removeEntry h idx = sub.setHead h lruNoIdx := by
      simp [LruSub.removeEntry, hent, hp]
    rw [heq]
    refine ⟨t, ⟨by simp [hl.table], fun h' => ?_, fun h' => ?_, ?_, ?_⟩, fun _ _ => rfl,
      fun _ => rfl⟩
    · rcases eq_or_ne h' h with rfl | hne
      · simp [hsing]
      · simpa [Function.update_of_ne hne] using hl.cycle h'
    · rcases eq_or_ne h' h with rfl | hne
      · simp [hsing]
      · simpa [Function.update_of_ne hne, hne] using hl.head h'
    · exact hl.disjoint_update fun y hy => by simp [hsing] at hy
    · exact hl.ne_noIdx_update fun y hy => by simp [hsing] at hy
  · -- the predecessor and the successor now link to each other
    obtain ⟨p, hpdef⟩ : ∃ p, prevOf t idx = p := ⟨_, rfl⟩
    obtain ⟨n, hndef⟩ : ∃ n, nextOf t idx = n := ⟨_, rfl⟩
    have hpm : p ∈ L h := hpdef ▸ hc.prv_mem hi
    have hnm : n ∈ L h := hndef ▸ hc.nxt_mem hi
    have hpi : p ≠ idx := hpdef ▸ hp
    let t' := linkPrev (linkNext t p n) n p
    have heq : sub.removeEntry h idx =
        if idx = sub.head h then
          (sub.modTable fun t => linkPrev (linkNext t p n) n p).setHead h n
        else sub.modTable fun t => linkPrev (linkNext t p n) n p := by
      simp only [prevOf, nextOf] at hpdef hndef
      simp [LruSub.removeEntry, hent, hpdef, hndef, hpi]
    have hframe : ∀ j ∉ L h, t' j = t j := by
      intro j hj
      show linkPrev (linkNext t p n) n p j = t j
      rw [linkPrev_of_ne _ _ (ne_of_mem_of_not_mem hnm hj).symm,
        linkNext_of_ne _ _ (ne_of_mem_of_not_mem hpm hj).symm]
    have hcyc : IsCycle (nextOf t') (prevOf t') ((L h).erase idx) := by
      refine hc.erase hi hp (by rw [hpdef, hndef]; simp [t', nextOf])
        (by rw [hpdef, hndef]; simp [t', prevOf]) ?_ ?_
      · intro x _ hx
        rw [hpdef] at hx
        simp [t', nextOf, hx]
      · intro x _ hx
        rw [hndef] at hx
        simp [t', prevOf, hx]
    have hhead : ((L h).erase idx).headD lruNoIdx =
        if idx = sub.head h then n else sub.head h := by
      rw [hl.head h, ← hndef]
      exact hc.headD_erase hi hp lruNoIdx
    refine ⟨t', ⟨?_, fun h' => ?_, fun h' => ?_, ?_, ?_⟩, hframe, fun j => by simp [t']⟩
    · rw [heq]
      split_ifs <;> simp [hl.table, t']
    · rcases eq_or_ne h' h with rfl | hne
      · simpa using hcyc
      · rw [Function.update_of_ne hne]
        exact isCycle_of_agree (hl.cycle h') fun j hj => hframe j (hl.not_mem_of_ne hne.symm hj)
    · rcases eq_or_ne h' h with rfl | hne
      · rw [Function.update_self, hhead, heq]
        split_ifs <;> simp
      · rw [Function.update_of_ne hne, ← hl.head h', heq]
        split_ifs <;> simp [hne]
    · exact hl.disjoint_update fun y hy => .inl (hsub.subset hy)
    · exact hl.ne_noIdx_update fun y hy => .inl (hsub.subset hy)

/-- `lrua_insert` on list `h` of an entry on neither list: it joins list `h` before its head,
at the tail with `append` and as the new head otherwise; the other list keeps its links, and
the entries outside list `h` other than the new one and every key are unchanged. -/
theorem insert (hl : sub.Links t L) {h : LruHead} {idx : ℕ} (hfresh : ∀ h', idx ∉ L h')
    (hne : idx ≠ lruNoIdx) (append : Bool) :
    ∃ t', (lruaInsert sub h idx append).Links t'
        (Function.update L h (if append then L h ++ [idx] else idx :: L h)) ∧
      (∀ j ∉ L h, j ≠ idx → t' j = t j) ∧ ∀ j, (t' j).leKey = (t j).leKey := by
  have hc := hl.cycle h
  -- the lists after the insertion, with the one of `h` written out
  have hother : ∀ h', h' ≠ h → ∀ (l : List ℕ), Function.update L h l h' = L h' :=
    fun h' hne' l => Function.update_of_ne hne' _ _
  cases hL : L h with
  | nil =>
    -- an empty list becomes the entry alone
    have hemp : sub.head h = lruNoIdx := (hl.head_eq_noIdx_iff h).2 hL
    set t' := linkNext (linkPrev t idx idx) idx idx with ht'
    have heq : lruaInsert sub h idx append =
        (sub.setHead h idx).modTable fun t => linkNext (linkPrev t idx idx) idx idx := by
      simp [lruaInsert, hemp]
    have hlist : (if append then ([] : List ℕ) ++ [idx] else [idx]) = [idx] := by
      cases append <;> rfl
    have hframe : ∀ j, j ≠ idx → t' j = t j := by
      intro j hj
      rw [ht', linkNext_of_ne _ _ hj, linkPrev_of_ne _ _ hj]
    rw [heq, hlist]
    refine ⟨t', ⟨by simp [hl.table, t'], fun h' => ?_, fun h' => ?_, ?_, ?_⟩,
      fun j _ hj => hframe j hj, fun j => by simp [t']⟩
    · rcases eq_or_ne h' h with rfl | hne'
      · simpa using IsCycle.singleton (by simp [t', nextOf]) (by simp [t', prevOf])
      · rw [hother h' hne']
        exact isCycle_of_agree (hl.cycle h') fun j hj => hframe j fun hji => hfresh h' (hji ▸ hj)
    · rcases eq_or_ne h' h with rfl | hne'
      · simp
      · simp [hne', hl.head h']
    · refine hl.disjoint_update fun y hy => .inr ?_
      rw [List.mem_singleton.1 hy]
      exact hfresh
    · refine hl.ne_noIdx_update fun y hy => .inr ?_
      rw [List.mem_singleton.1 hy]
      exact hne
  | cons x xs =>
    -- the entry goes between the tail `prv x` and the head `x`
    have hx : sub.head h = x := by simp [hl.head h, hL]
    have hxne : x ≠ lruNoIdx := hl.ne_noIdx h x (by simp [hL])
    rw [hL] at hc
    have hidx : idx ∉ x :: xs := hL ▸ hfresh h
    obtain ⟨tail, htail⟩ : ∃ tail, prevOf t x = tail := ⟨_, rfl⟩
    have htm : tail ∈ x :: xs := htail ▸ hc.prv_mem List.mem_cons_self
    have hxi : x ≠ idx := fun hxi => hidx (hxi ▸ List.mem_cons_self)
    have hti : tail ≠ idx := fun hti => hidx (hti ▸ htm)
    let t' := linkNext (linkPrev (linkNext (linkPrev t x idx) tail idx) idx tail) idx x
    have heq : lruaInsert sub h idx append =
        if append then sub.modTable fun t =>
          linkNext (linkPrev (linkNext (linkPrev t x idx) tail idx) idx tail) idx x
        else (sub.modTable fun t =>
          linkNext (linkPrev (linkNext (linkPrev t x idx) tail idx) idx tail) idx x).setHead h idx := by
      simp only [prevOf] at htail
      simp [lruaInsert, hx, hxne, LruSub.entry_of_lsTable hl.table, htail]
    have hframe : ∀ j ∉ x :: xs, j ≠ idx → t' j = t j := by
      intro j hj hji
      have hjx : j ≠ x := fun hjx => hj (hjx ▸ List.mem_cons_self)
      have hjt : j ≠ tail := fun hjt => hj (hjt ▸ htm)
      show linkNext (linkPrev (linkNext (linkPrev t x idx) tail idx) idx tail) idx x j = t j
      rw [linkNext_of_ne _ _ hji, linkPrev_of_ne _ _ hji, linkNext_of_ne _ _ hjt,
        linkPrev_of_ne _ _ hjx]
    -- the four links the insertion writes, and the ones it keeps
    have h₁ : nextOf t' (prevOf t x) = idx := by rw [htail]; simp [t', nextOf, hti]
    have h₂ : nextOf t' idx = x := by simp [t', nextOf]
    have h₃ : prevOf t' x = idx := by simp [t', prevOf, hxi]
    have h₄ : prevOf t' idx = prevOf t x := by rw [htail]; simp [t', prevOf]
    have hn : ∀ a ∈ x :: xs, a ≠ prevOf t x → nextOf t' a = nextOf t a := by
      intro a ha hat
      have hai : a ≠ idx := fun hai => hidx (hai ▸ ha)
      rw [htail] at hat
      simp [t', nextOf, hai, hat]
    have hp : ∀ a ∈ x :: xs, a ≠ x → prevOf t' a = prevOf t a := by
      intro a ha hax
      have hai : a ≠ idx := fun hai => hidx (hai ▸ ha)
      simp [t', prevOf, hai, hax]
    have hcyc : IsCycle (nextOf t') (prevOf t') (if append then x :: xs ++ [idx] else idx :: x :: xs) := by
      cases append
      · exact hc.cons hidx h₁ h₂ h₃ h₄ hn hp
      · exact hc.concat hidx h₁ h₂ h₃ h₄ hn hp
    have hmem : ∀ y ∈ (if append then x :: xs ++ [idx] else idx :: x :: xs), y = idx ∨ y ∈ L h := by
      intro y hy
      rw [hL]
      cases append <;> simp at hy ⊢ <;> tauto
    refine ⟨t', ⟨?_, fun h' => ?_, fun h' => ?_, ?_, ?_⟩, fun j hj hji => hframe j (hL ▸ hj) hji,
      fun j => by simp [t']⟩
    · rw [heq]
      split_ifs <;> simp [hl.table, t']
    · rcases eq_or_ne h' h with rfl | hne'
      · simpa using hcyc
      · rw [hother h' hne']
        exact isCycle_of_agree (hl.cycle h') fun j hj =>
          hframe j (hL ▸ hl.not_mem_of_ne hne'.symm hj) fun hji => hfresh h' (hji ▸ hj)
    · rcases eq_or_ne h' h with rfl | hne'
      · rw [heq]
        cases append <;> simp [hx]
      · rw [heq, hother h' hne', ← hl.head h']
        cases append <;> simp [hne']
    · refine hl.disjoint_update fun y hy => ?_
      rcases hmem y hy with rfl | hy
      · exact .inr hfresh
      · exact .inl hy
    · refine hl.ne_noIdx_update fun y hy => ?_
      rcases hmem y hy with rfl | hy
      · exact .inr hne
      · exact .inl hy

end LruSub.Links

/-- A sub-array of `n` entries with table `t`, LRU list `lru` and free list `free`: the two
lists hold every entry once, and the free entries are those with key `0`. -/
structure LruSub.Layout (n : ℕ) (sub : LruSub) (t : ℕ → LruEntry) (lru free : List ℕ) : Prop where
  links : sub.Links t (lruLists lru free)
  perm : (lru ++ free).Perm (List.range n)
  key_free : ∀ e < n, (t e).leKey = 0 ↔ e ∈ free

namespace LruSub.Layout

variable {n : ℕ} {sub : LruSub} {t : ℕ → LruEntry} {lru free : List ℕ}

theorem nodup (hl : sub.Layout n t lru free) : (lru ++ free).Nodup :=
  hl.perm.nodup_iff.2 List.nodup_range

theorem mem_iff (hl : sub.Layout n t lru free) (e : ℕ) : e ∈ lru ∨ e ∈ free ↔ e < n := by
  rw [← List.mem_append, hl.perm.mem_iff, List.mem_range]

theorem lt_of_mem_lru (hl : sub.Layout n t lru free) {e : ℕ} (he : e ∈ lru) : e < n :=
  (hl.mem_iff e).1 (.inl he)

theorem lt_of_mem_free (hl : sub.Layout n t lru free) {e : ℕ} (he : e ∈ free) : e < n :=
  (hl.mem_iff e).1 (.inr he)

/-- The entries in use are those with a key. -/
theorem key_ne_zero_iff (hl : sub.Layout n t lru free) {e : ℕ} (he : e < n) :
    (t e).leKey ≠ 0 ↔ e ∈ lru := by
  rw [ne_eq, hl.key_free e he]
  constructor
  · intro hnf
    exact ((hl.mem_iff e).2 he).resolve_right hnf
  · intro hlru hfree
    exact hl.links.disjoint e hlru hfree

/-- An entry moves from the free list to the tail of the LRU list and takes key `k`. -/
theorem toLru (hl : sub.Layout n t lru free) {i : ℕ} (hi : i ∈ free) {k : UInt64} (hk : k ≠ 0)
    {sub' : LruSub} {t' : ℕ → LruEntry} (hlinks : sub'.Links t' (lruLists (lru ++ [i]) (free.erase i)))
    (hkey : ∀ e, (t' e).leKey = if e = i then k else (t e).leKey) :
    sub'.Layout n t' (lru ++ [i]) (free.erase i) := by
  have hfree := (List.nodup_append.1 hl.nodup).2.1
  refine ⟨hlinks, ?_, fun e he => ?_⟩
  · have hmid : (lru ++ [i]) ++ free.erase i = lru ++ i :: free.erase i := by simp
    rw [hmid]
    exact ((List.perm_cons_erase hi).symm.append_left lru).trans hl.perm
  · rw [hkey, hfree.mem_erase_iff]
    by_cases hei : e = i
    · simp [hei, hk]
    · simp [hei, hl.key_free e he]

/-- An entry leaves the LRU list for the free list, at its tail with `append` and as its head
otherwise, and its key becomes `0`. -/
theorem toFree (hl : sub.Layout n t lru free) {i : ℕ} (hi : i ∈ lru) (append : Bool)
    {sub' : LruSub} {t' : ℕ → LruEntry}
    (hlinks : sub'.Links t' (lruLists (lru.erase i) (if append then free ++ [i] else i :: free)))
    (hkey : ∀ e, (t' e).leKey = if e = i then 0 else (t e).leKey) :
    sub'.Layout n t' (lru.erase i) (if append then free ++ [i] else i :: free) := by
  have hnew : ∀ e, e ∈ (if append then free ++ [i] else i :: free) ↔ e = i ∨ e ∈ free := by
    intro e
    cases append <;> simp [or_comm]
  refine ⟨hlinks, ?_, fun e he => ?_⟩
  · refine List.Perm.trans ?_ hl.perm
    have hperm : (if append then free ++ [i] else i :: free).Perm (i :: free) := by
      cases append
      · exact List.Perm.refl _
      · exact List.perm_append_singleton i free
    refine ((hperm.append_left _).trans ?_)
    exact (List.perm_middle.trans ((List.perm_cons_erase hi).symm.append_right free))
  · rw [hkey, hnew]
    by_cases hei : e = i
    · simp [hei]
    · simp [hei, hl.key_free e he]

/-- Writing a non-zero key into an entry in use keeps the layout. -/
theorem setKey (hl : sub.Layout n t lru free) {i : ℕ} (hi : i ∈ lru) {k : UInt64} (hk : k ≠ 0) :
    (sub.modTable fun t => Lru.setKey t i k).Layout n (Lru.setKey t i k) lru free := by
  refine ⟨hl.links.setKey i k, hl.perm, fun e he => ?_⟩
  rw [setKey_leKey]
  by_cases hei : e = i
  · subst hei
    rw [if_pos rfl]
    exact ⟨fun h => absurd h hk, fun h => absurd h (hl.links.disjoint _ hi)⟩
  · simp [hei, hl.key_free e he]

/-- `sub_find_free` past its test: the head `f` of the free list moves to the tail of the LRU
list and takes key `k`. -/
theorem takeFree {f : ℕ} {fs : List ℕ} (hl : sub.Layout n t lru (f :: fs)) {k : UInt64}
    (hk : k ≠ 0) :
    ∃ t', ((lruaInsert (sub.removeEntry .free f) .lru f true).modTable fun t =>
        Lru.setKey t f k).Layout n t' (lru ++ [f]) fs ∧
      ∀ e, (t' e).leKey = if e = f then k else (t e).leKey := by
  have hf : f ∈ lruLists lru (f :: fs) .free := List.mem_cons_self
  obtain ⟨t₁, hl₁, -, hk₁⟩ := hl.links.removeEntry hf
  rw [lruLists_free, List.erase_cons_head, update_lruLists_free] at hl₁
  have hfresh : ∀ h', f ∉ lruLists lru fs h' := by
    intro h'
    cases h'
    · exact fun hfl => hl.links.disjoint f hfl hf
    · exact (List.nodup_cons.1 (hl.links.cycle .free).nodup).1
  obtain ⟨t₂, hl₂, -, hk₂⟩ := hl₁.insert (h := .lru) hfresh (hl.links.ne_noIdx .free f hf) true
  rw [lruLists_lru, if_pos rfl, update_lruLists_lru] at hl₂
  have hkey : ∀ e, (Lru.setKey t₂ f k e).leKey = if e = f then k else (t e).leKey := fun e => by
    simp [hk₂, hk₁]
  have hlinks := hl₂.setKey f k
  rw [← List.erase_cons_head f fs] at hlinks
  have hlay := hl.toLru hf hk hlinks hkey
  rw [List.erase_cons_head] at hlay
  exact ⟨_, hlay, hkey⟩

/-- `lrua_allocx_inplace` past its tests: the free entry `i` takes key `k` and moves to the
tail of the LRU list. -/
theorem takeFreeAt (hl : sub.Layout n t lru free) {i : ℕ} (hi : i ∈ free) {k : UInt64}
    (hk : k ≠ 0) :
    ∃ t', (lruaInsert ((sub.modTable fun t => Lru.setKey t i k).removeEntry .free i) .lru i
        true).Layout n t' (lru ++ [i]) (free.erase i) ∧
      ∀ e, (t' e).leKey = if e = i then k else (t e).leKey := by
  have hi' : i ∈ lruLists lru free .free := hi
  obtain ⟨t₁, hl₁, -, hk₁⟩ := (hl.links.setKey i k).removeEntry hi'
  rw [lruLists_free, update_lruLists_free] at hl₁
  have hfresh : ∀ h', i ∉ lruLists lru (free.erase i) h' := by
    intro h'
    cases h'
    · exact fun hil => hl.links.disjoint i hil hi
    · exact (hl.links.cycle .free).nodup.not_mem_erase
  obtain ⟨t₂, hl₂, -, hk₂⟩ := hl₁.insert (h := .lru) hfresh (hl.links.ne_noIdx .free i hi) true
  rw [lruLists_lru, if_pos rfl, update_lruLists_lru] at hl₂
  have hkey : ∀ e, (t₂ e).leKey = if e = i then k else (t e).leKey := fun e => by simp [hk₂, hk₁]
  exact ⟨t₂, hl.toLru hi hk hl₂ hkey, hkey⟩

/-- The body of `lrua_evictx`: the entry `i` in use loses its key, leaves the LRU list and
joins the free list, at its tail with `append`. -/
theorem evict (hl : sub.Layout n t lru free) {i : ℕ} (hi : i ∈ lru) (append : Bool) :
    ∃ t', (lruaInsert ((sub.modTable fun t => Lru.setKey t i 0).removeEntry .lru i) .free i
        append).Layout n t' (lru.erase i) (if append then free ++ [i] else i :: free) ∧
      ∀ e, (t' e).leKey = if e = i then 0 else (t e).leKey := by
  have hi' : i ∈ lruLists lru free .lru := hi
  obtain ⟨t₁, hl₁, -, hk₁⟩ := (hl.links.setKey i 0).removeEntry hi'
  rw [lruLists_lru, update_lruLists_lru] at hl₁
  have hfresh : ∀ h', i ∉ lruLists (lru.erase i) free h' := by
    intro h'
    cases h'
    · exact (hl.links.cycle .lru).nodup.not_mem_erase
    · exact hl.links.disjoint i hi
  obtain ⟨t₂, hl₂, -, hk₂⟩ := hl₁.insert (h := .free) hfresh (hl.links.ne_noIdx .lru i hi) append
  rw [lruLists_free, update_lruLists_free] at hl₂
  have hkey : ∀ e, (t₂ e).leKey = if e = i then 0 else (t e).leKey := fun e => by simp [hk₂, hk₁]
  exact ⟨t₂, hl.toFree hi append hl₂ hkey, hkey⟩

/-- The last case of `lrua_move_to_mru`: the entry `i` in use moves to the tail of the LRU
list. -/
theorem moveToTail (hl : sub.Layout n t lru free) {i : ℕ} (hi : i ∈ lru) :
    ∃ t', (lruaInsert (sub.removeEntry .lru i) .lru i true).Layout n t' (lru.erase i ++ [i]) free ∧
      ∀ e, (t' e).leKey = (t e).leKey := by
  have hi' : i ∈ lruLists lru free .lru := hi
  obtain ⟨t₁, hl₁, -, hk₁⟩ := hl.links.removeEntry hi'
  rw [lruLists_lru, update_lruLists_lru] at hl₁
  have hfresh : ∀ h', i ∉ lruLists (lru.erase i) free h' := by
    intro h'
    cases h'
    · exact (hl.links.cycle .lru).nodup.not_mem_erase
    · exact hl.links.disjoint i hi
  obtain ⟨t₂, hl₂, -, hk₂⟩ := hl₁.insert (h := .lru) hfresh (hl.links.ne_noIdx .lru i hi) true
  rw [lruLists_lru, if_pos rfl, update_lruLists_lru] at hl₂
  have hkey : ∀ e, (t₂ e).leKey = (t e).leKey := fun e => by simp [hk₂, hk₁]
  refine ⟨t₂, ⟨hl₂, ?_, fun e he => by rw [hkey, hl.key_free e he]⟩, hkey⟩
  refine List.Perm.trans ?_ hl.perm
  exact ((List.perm_append_singleton i _).trans (List.perm_cons_erase hi).symm).append_right free

/-- The head of the LRU list moves on to the next entry: the order of a circular list does
not change, the entry at its head becomes its tail. -/
theorem rotate {x : ℕ} {xs : List ℕ} (hl : sub.Layout n t (x :: xs) free) :
    { sub with lsLru := nextOf t x }.Layout n t (xs ++ [x]) free := by
  have hc := hl.links.cycle .lru
  refine ⟨⟨hl.links.table, fun h => ?_, fun h => ?_, fun y hy => ?_, fun h y hy => ?_⟩, ?_,
    hl.key_free⟩
  · cases h
    · exact IsCycle.rotate hc
    · exact hl.links.cycle .free
  · cases h
    · show nextOf t x = _
      rw [IsCycle.nxt_head hc]
      cases xs <;> rfl
    · exact hl.links.head .free
  · exact hl.links.disjoint y (by simp at hy ⊢; tauto)
  · cases h
    · exact hl.links.ne_noIdx .lru y (by simp at hy ⊢; tauto)
    · exact hl.links.ne_noIdx .free y hy
  · exact (List.perm_append_comm.append_right free).trans (by simpa using hl.perm)

end LruSub.Layout

/-- The table `lrua_array_alloc_one` writes for `2 ^ k` entries holds every entry on the free
list, in index order from entry `0`, and no entry in use. -/
theorem layout_allocOne (sub : LruSub) {mask k : ℕ} (hmask : mask + 1 = 2 ^ k)
    (hlt : mask < lruNoIdx) :
    LruSub.Layout (mask + 1)
      { sub with lsLru := lruNoIdx, lsFree := 0, lsTable := some (lruaFreshTable mask) }
      (lruaFreshTable mask) [] (List.range (mask + 1)) := by
  have hcyc := isCycle_range (Nat.succ_pos mask)
  have hnext : ∀ i, nextOf (lruaFreshTable mask) i = (i + 1) % (mask + 1) := by
    intro i
    have hm : mask = 2 ^ k - 1 := by omega
    simp only [nextOf, lruaFreshTable]
    rw [hm, Nat.and_two_pow_sub_one_eq_mod, ← hm, hmask]
  refine ⟨⟨rfl, fun h => ?_, fun h => ?_, by simp, fun h x hx => ?_⟩, by simp, fun e he => ?_⟩
  · cases h
    · exact IsCycle.nil
    · exact hcyc.frame (fun i _ => hnext i) (fun i _ => rfl)
  · cases h
    · rfl
    · rw [List.range_succ_eq_map]
      rfl
  · cases h
    · simp at hx
    · have := List.mem_range.1 hx
      exact Nat.ne_of_lt (by omega)
  · simp [lruaFreshTable, he]

end Daos.Vos.Lru

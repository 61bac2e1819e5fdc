import Mathlib
import Daos.Lib.Buckets

/-!
# Multimaps kept in keyed buckets

A multimap from keys `κ` to elements `ι` lists, for each key, its elements in the order a lookup
meets them: a function `κ → List ι`. A chained hash table keeps one in buckets, each element on
the bucket its key chooses; the multimap the buckets stand for is read off each key's bucket by
keeping the elements that have the key (`view`), and a lookup of the key is the head of that
list (`List.head?_filter`).

A table edits one bucket at a time, and each edit is read here as an edit of the multimap:

* an element pushed on the head of its key's bucket is pushed on its key's list (`view_push`);
* the first element of a key moved to the head of the bucket changes nothing (`view_moveHead`);
* an element moved to the tail of its bucket goes to the back of its key's list
  (`view_moveTail`, `toBackAll`), and the front of a key's list so moved rotates the list
  (`view_moveTail_head`, `rotate`);
* an element erased from every bucket is erased from its key's list (`view_erase`, `eraseAll`).

`Placed` says each element sits on the bucket of its key; each edit keeps it. Nothing here depends
on how a key chooses its bucket, and the keys are read through a function that the edits of the
elements' records may change, as long as they keep the keys of the elements on the buckets
(`view_congr`).
-/

namespace Multimap

variable {ι κ : Type*} [DecidableEq κ]

/-! ### The abstract multimap -/

/-- Push `x` on the front of the list of `k`. -/
def push (m : κ → List ι) (k : κ) (x : ι) : κ → List ι := Function.update m k (x :: m k)

/-- Drop the front of the list of `k`. -/
def pop (m : κ → List ι) (k : κ) : κ → List ι := Function.update m k (m k).tail

/-- Send the front of the list of `k` to its back. -/
def rotate (m : κ → List ι) (k : κ) : κ → List ι := Function.update m k ((m k).rotate 1)

/-- Take `x` out of every list. -/
def eraseAll [DecidableEq ι] (m : κ → List ι) (x : ι) : κ → List ι := fun k => (m k).erase x

/-- Move `x` to the back of every list that holds it. -/
def toBackAll [DecidableEq ι] (m : κ → List ι) (x : ι) : κ → List ι :=
  fun k => if x ∈ m k then (m k).erase x ++ [x] else m k

/-! ### Lists filtered on a key -/

/-- The first element that meets `p`, moved to the front, leaves the elements that meet `p` in
their order. -/
theorem filter_cons_erase_of_find? [DecidableEq ι] {p : ι → Bool} {l : List ι} {x : ι}
    (h : l.find? p = some x) : (x :: l.erase x).filter p = l.filter p := by
  induction l with
  | nil => cases h
  | cons y l ih =>
    by_cases hy : p y = true
    · rw [List.find?_cons_of_pos hy] at h
      cases h
      rw [List.erase_cons_head, List.filter_cons_of_pos hy]
    · rw [List.find?_cons_of_neg hy] at h
      have hx : p x = true := List.find?_some h
      have hne : y ≠ x := fun hyx => hy (hyx ▸ hx)
      rw [List.erase_cons_tail (by simpa using hne), List.filter_cons_of_pos hx,
        List.filter_cons_of_neg hy, List.filter_cons_of_neg hy, ← ih h, List.filter_cons_of_pos hx]

/-- Erasing an element that does not meet `p` leaves the elements that do. -/
theorem filter_erase_of_neg [DecidableEq ι] {p : ι → Bool} (l : List ι) {x : ι}
    (hx : p x = false) : (l.erase x).filter p = l.filter p := by
  rw [← List.erase_filter]
  exact List.erase_of_not_mem fun h => by simp [(List.mem_filter.1 h).2] at hx

/-- Moving the last element to the tail changes nothing, when it is there once. -/
theorem erase_append_of_getLast? [DecidableEq ι] {l : List ι} {x : ι} (hnd : l.Nodup)
    (h : l.getLast? = some x) : l.erase x ++ [x] = l := by
  obtain ⟨l', rfl⟩ := List.getLast?_eq_some_iff.1 h
  have hnot : x ∉ l' := fun hx =>
    (List.nodup_append.1 hnd).2.2 x hx x (List.mem_singleton_self x) rfl
  simp [List.erase_append_right _ hnot]

/-- Erasing the front of a list that holds it only: the lists with the front dropped. -/
theorem eraseAll_of_head [DecidableEq ι] {m : κ → List ι} {k : κ} {x : ι} {t : List ι}
    (h : m k = x :: t) (hx : ∀ k', x ∈ m k' → k' = k) : eraseAll m x = pop m k := by
  funext k'
  rw [eraseAll, pop, Function.update_apply]
  split_ifs with hk
  · subst hk
    rw [h, List.erase_cons_head, List.tail_cons]
  · exact List.erase_of_not_mem fun hm => hk (hx k' hm)

omit [DecidableEq κ] in
theorem eraseAll_of_not_mem [DecidableEq ι] {m : κ → List ι} {x : ι} (hx : ∀ k, x ∉ m k) :
    eraseAll m x = m :=
  funext fun k => List.erase_of_not_mem (hx k)

theorem rotate_of_nil {m : κ → List ι} {k : κ} (h : m k = []) : rotate m k = m := by
  rw [rotate, h, List.rotate_nil, ← h, Function.update_eq_self]

omit [DecidableEq κ] in
/-- Two elements of a list of one element at most are the same. -/
theorem eq_of_mem_of_length_le_one {l : List ι} (hl : l.length ≤ 1) {x y : ι} (hx : x ∈ l)
    (hy : y ∈ l) : x = y := by
  match l, hl, hx, hy with
  | [_], _, hx, hy => rw [List.mem_singleton.1 hx, List.mem_singleton.1 hy]

omit [DecidableEq κ] in
/-- A list of one element at most starts with each of its elements. -/
theorem head?_eq_some_iff_of_length_le_one {l : List ι} (hl : l.length ≤ 1) {x : ι} :
    l.head? = some x ↔ x ∈ l := by
  match l, hl with
  | [], _ => simp
  | [_], _ => simp [eq_comm]

/-! ### The multimap of a table of buckets -/

/-- The multimap the buckets `f` stand for, when `key` gives each element's key and `bucketOf`
each key's bucket: for each key, the elements of its bucket that have it, in bucket order. -/
def view (key : ι → κ) (bucketOf : κ → ℕ) (f : ℕ → List ι) (k : κ) : List ι :=
  (f (bucketOf k)).filter fun x => key x = k

/-- Every element sits on the bucket of its key. -/
def Placed (key : ι → κ) (bucketOf : κ → ℕ) (f : ℕ → List ι) : Prop :=
  ∀ b x, x ∈ f b → b = bucketOf (key x)

variable {key : ι → κ} {bucketOf : κ → ℕ} {f : ℕ → List ι}

theorem mem_view {k : κ} {x : ι} : x ∈ view key bucketOf f k ↔ x ∈ f (bucketOf k) ∧ key x = k := by
  simp [view]

/-- An element on a bucket is in the list of its key. -/
theorem Placed.mem_view (hp : Placed key bucketOf f) {b : ℕ} {x : ι} (hx : x ∈ f b) :
    x ∈ view key bucketOf f (key x) := by
  rw [Multimap.mem_view, ← hp b x hx]
  exact ⟨hx, rfl⟩

/-- The head of a key's list is the first element of its bucket that has the key. -/
theorem head?_view (k : κ) :
    (view key bucketOf f k).head? = (f (bucketOf k)).find? fun x => key x = k :=
  List.head?_filter

/-- The multimap after one bucket is replaced: only the keys of that bucket see the new list. -/
theorem view_update (b : ℕ) (l : List ι) (k : κ) :
    view key bucketOf (Function.update f b l) k =
      if bucketOf k = b then l.filter (fun x => key x = k) else view key bucketOf f k := by
  simp only [view, Function.update_apply]
  split_ifs <;> rfl

/-- The multimap depends on the keys of the elements on the buckets only. -/
theorem view_congr {key' : ι → κ} (h : ∀ b x, x ∈ f b → key' x = key x) :
    view key' bucketOf f = view key bucketOf f := by
  funext k
  exact List.filter_congr fun x hx => by rw [h _ x hx]

omit [DecidableEq κ] in
theorem Placed.congr {key' : ι → κ} (hp : Placed key bucketOf f) (h : ∀ b x, x ∈ f b → key' x = key x) :
    Placed key' bucketOf f := fun b x hx => by
  rw [h b x hx]
  exact hp b x hx

/-! ### Each edit of a bucket -/

omit [DecidableEq κ] in
/-- A bucket replaced by a list of elements of that bucket's keys. -/
theorem Placed.update (hp : Placed key bucketOf f) {b : ℕ} {l : List ι}
    (hl : ∀ x ∈ l, b = bucketOf (key x)) : Placed key bucketOf (Function.update f b l) := by
  intro b' x hx
  rw [Function.update_apply] at hx
  split_ifs at hx with hb
  · subst hb
    exact hl x hx
  · exact hp b' x hx

omit [DecidableEq κ] in
theorem Placed.erase [DecidableEq ι] (hp : Placed key bucketOf f) (x : ι) :
    Placed key bucketOf fun b => (f b).erase x := fun b y hy =>
  hp b y (List.mem_of_mem_erase hy)

/-- Pushing an element on the head of its key's bucket pushes it on its key's list. -/
theorem view_push (x : ι) :
    view key bucketOf (Function.update f (bucketOf (key x)) (x :: f (bucketOf (key x)))) =
      push (view key bucketOf f) (key x) x := by
  funext k
  rw [view_update, push, Function.update_apply]
  by_cases hk : k = key x
  · subst hk
    simp [view]
  · -- another key of the same bucket does not see the new element
    have hx : decide (key x = k) = false := by simpa using Ne.symm hk
    split_ifs with hb
    · rw [List.filter_cons_of_neg (by simp [hx]), view, hb]
    · rfl

/-- The first element of a key moved to the head of its bucket changes no key's list. -/
theorem view_moveHead [DecidableEq ι] {k : κ} {x : ι} (h : (view key bucketOf f k).head? = some x) :
    view key bucketOf
        (Function.update f (bucketOf k) (x :: (f (bucketOf k)).erase x)) =
      view key bucketOf f := by
  rw [head?_view] at h
  have hkx : key x = k := by simpa using List.find?_some h
  funext k'
  rw [view_update]
  split_ifs with hb
  · by_cases hk : k' = k
    · subst hk
      exact filter_cons_erase_of_find? h
    · -- the moved element has another key, and the list of `k'` does not hold it
      have hx : decide (key x = k') = false := by simpa [hkx] using Ne.symm hk
      rw [List.filter_cons_of_neg (by simp [hx]),
        @filter_erase_of_neg ι _ (fun y => decide (key y = k')) _ x hx, view, hb]
  · rfl

/-- An element of a bucket moved to its tail goes to the back of its key's list. -/
theorem view_moveTail [DecidableEq ι] (hp : Placed key bucketOf f) {b : ℕ} {x : ι} (hx : x ∈ f b) :
    view key bucketOf (Function.update f b ((f b).erase x ++ [x])) =
      toBackAll (view key bucketOf f) x := by
  have hb : b = bucketOf (key x) := hp b x hx
  funext k
  rw [view_update, toBackAll]
  by_cases hk : k = key x
  · subst hk
    rw [if_pos hb.symm, if_pos (hp.mem_view hx), List.filter_append, view, ← hb,
      List.erase_filter]
    simp
  · -- the element is in the list of its own key only
    have hxk : decide (key x = k) = false := by simpa using Ne.symm hk
    have hnot : x ∉ view key bucketOf f k := fun h => hk (mem_view.1 h).2.symm
    rw [if_neg hnot]
    split_ifs with hbk
    · rw [List.filter_append, @filter_erase_of_neg ι _ (fun y => decide (key y = k)) _ x hxk,
        view, hbk]
      simp [hxk]
    · rfl

/-- The first element of a key moved to the tail of its bucket sends the front of the key's list
to its back. -/
theorem view_moveTail_head [DecidableEq ι] (hp : Placed key bucketOf f) {k : κ} {x : ι}
    (h : (view key bucketOf f k).head? = some x) :
    view key bucketOf (Function.update f (bucketOf k) ((f (bucketOf k)).erase x ++ [x])) =
      rotate (view key bucketOf f) k := by
  obtain ⟨t, ht⟩ := List.head?_eq_some_iff.1 h
  have hx : x ∈ f (bucketOf k) ∧ key x = k := mem_view.1 (ht ▸ List.mem_cons_self)
  rw [view_moveTail hp hx.1]
  funext k'
  rw [toBackAll, rotate, Function.update_apply]
  split_ifs with hmem hk hk
  · subst hk
    rw [ht, List.erase_cons_head, List.rotate_cons_succ, List.rotate_zero]
  · exact absurd ((mem_view.1 hmem).2.symm.trans hx.2) hk
  · subst hk
    exact absurd (ht ▸ List.mem_cons_self) hmem
  · rfl

/-- An element erased from every bucket is erased from every list. -/
theorem view_erase [DecidableEq ι] (x : ι) :
    view key bucketOf (fun b => (f b).erase x) = eraseAll (view key bucketOf f) x := by
  funext k
  exact List.erase_filter.symm

/-! ### The elements on the buckets -/

/-- With every key's bucket among the first `n`, the members of the buckets are the elements of
the keys' lists. -/
theorem mem_members_iff {n : ℕ} (hp : Placed key bucketOf f) (hlt : ∀ k, bucketOf k < n) {x : ι} :
    x ∈ Buckets.members n f ↔ x ∈ view key bucketOf f (key x) := by
  rw [Buckets.mem_members]
  constructor
  · rintro ⟨b, -, hx⟩
    exact hp.mem_view hx
  · intro hx
    exact ⟨_, hlt (key x), (Multimap.mem_view.1 hx).1⟩

end Multimap

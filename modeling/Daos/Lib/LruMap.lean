import Mathlib

/-!
# An LRU map

What a least-recently-used cache is for, without its layout: which key each slot holds, if
any, and when each slot was last allocated or touched, on a clock that every allocation and
touch advances. `put` allocates a slot to a key, `touch` marks a slot used, and `evict` frees a
slot if it still holds the given key. A slot is the least recent one (`IsLeastRecent`) when it
is live and no live slot was used before it.

An implementation keeps the live slots in recency order. `RecencyOrdered` says that a list is
in that order, and its lemmas are the ones such an implementation needs: appending the slot
just used keeps the order (`RecencyOrdered.concat_touch`), so does using a slot outside the
list (`RecencyOrdered.touch_of_not_mem`), and the head of a recency list that holds every live
slot is the least recent one (`RecencyOrdered.isLeastRecent_head`).
-/

namespace Daos.Lib

/-- An LRU map over slots `ι` and keys `κ`. -/
structure LruMap (ι κ : Type*) where
  /-- The key a slot holds, `none` for a free slot. -/
  live : ι → Option κ
  /-- When the slot was last allocated or touched. -/
  used : ι → ℕ
  /-- The next time stamp. -/
  clock : ℕ

namespace LruMap

variable {ι κ : Type*}

/-- The map with no live slot. -/
def empty : LruMap ι κ := ⟨fun _ => none, fun _ => 0, 0⟩

/-- `i` is live and every other live slot was allocated or touched after it. -/
def IsLeastRecent (m : LruMap ι κ) (i : ι) : Prop :=
  (m.live i).isSome ∧ ∀ j, (m.live j).isSome → j ≠ i → m.used i < m.used j

/-- Every live slot was used before the clock's current time. -/
def Stamped (m : LruMap ι κ) : Prop :=
  ∀ i, (m.live i).isSome → m.used i < m.clock

/-- `l` lists slots in the order they were last used, the earliest first. -/
def RecencyOrdered (m : LruMap ι κ) (l : List ι) : Prop :=
  (l.map m.used).Pairwise (· < ·)

theorem stamped_empty : (empty : LruMap ι κ).Stamped := by
  intro i hi
  simp [empty] at hi

theorem RecencyOrdered.nil {m : LruMap ι κ} : m.RecencyOrdered ([] : List ι) := List.Pairwise.nil

theorem RecencyOrdered.sublist {m : LruMap ι κ} {l l' : List ι} (h : m.RecencyOrdered l)
    (hs : l'.Sublist l) : m.RecencyOrdered l' :=
  List.Pairwise.sublist (hs.map m.used) h

/-- The head of a recency list that holds every live slot is the least recent slot. -/
theorem RecencyOrdered.isLeastRecent_head {m : LruMap ι κ} {l : List ι} {i : ι}
    (h : m.RecencyOrdered (i :: l)) (hi : (m.live i).isSome)
    (hall : ∀ j, (m.live j).isSome → j ∈ i :: l) : m.IsLeastRecent i := by
  refine ⟨hi, fun j hj hji => ?_⟩
  have hjl : j ∈ l := (List.mem_cons.1 (hall j hj)).resolve_left hji
  unfold RecencyOrdered at h
  rw [List.map_cons, List.pairwise_cons] at h
  exact h.1 _ (List.mem_map_of_mem hjl)

variable [DecidableEq ι]

/-- Allocate slot `i` to key `k`: it becomes the most recent slot. -/
def put (m : LruMap ι κ) (i : ι) (k : κ) : LruMap ι κ :=
  ⟨Function.update m.live i (some k), Function.update m.used i m.clock, m.clock + 1⟩

/-- Use slot `i`: it becomes the most recent slot. -/
def touch (m : LruMap ι κ) (i : ι) : LruMap ι κ :=
  ⟨m.live, Function.update m.used i m.clock, m.clock + 1⟩

/-- Free slot `i` if it still holds `k`. -/
def evict [DecidableEq κ] (m : LruMap ι κ) (i : ι) (k : κ) : LruMap ι κ :=
  if m.live i = some k then { m with live := Function.update m.live i none } else m

@[simp] theorem put_live (m : LruMap ι κ) (i : ι) (k : κ) :
    (m.put i k).live = Function.update m.live i (some k) := rfl

@[simp] theorem put_used (m : LruMap ι κ) (i : ι) (k : κ) : (m.put i k).used = (m.touch i).used :=
  rfl

@[simp] theorem touch_live (m : LruMap ι κ) (i : ι) : (m.touch i).live = m.live := rfl

theorem touch_used (m : LruMap ι κ) (i : ι) :
    (m.touch i).used = Function.update m.used i m.clock := rfl

@[simp] theorem put_clock (m : LruMap ι κ) (i : ι) (k : κ) : (m.put i k).clock = m.clock + 1 := rfl

@[simp] theorem touch_clock (m : LruMap ι κ) (i : ι) : (m.touch i).clock = m.clock + 1 := rfl

@[simp] theorem evict_used [DecidableEq κ] (m : LruMap ι κ) (i : ι) (k : κ) :
    (m.evict i k).used = m.used := by
  unfold evict
  split <;> rfl

@[simp] theorem evict_clock [DecidableEq κ] (m : LruMap ι κ) (i : ι) (k : κ) :
    (m.evict i k).clock = m.clock := by
  unfold evict
  split <;> rfl

theorem evict_live [DecidableEq κ] (m : LruMap ι κ) (i : ι) (k : κ) :
    (m.evict i k).live = if m.live i = some k then Function.update m.live i none else m.live := by
  unfold evict
  split <;> rfl

theorem put_of_ne (m : LruMap ι κ) {i j : ι} (h : j ≠ i) (k : κ) :
    (m.put i k).live j = m.live j ∧ (m.put i k).used j = m.used j := by
  simp [put, h]

theorem touch_of_ne (m : LruMap ι κ) {i j : ι} (h : j ≠ i) :
    (m.touch i).live j = m.live j ∧ (m.touch i).used j = m.used j := by
  simp [touch, h]

theorem evict_of_ne [DecidableEq κ] (m : LruMap ι κ) {i j : ι} (h : j ≠ i) (k : κ) :
    (m.evict i k).live j = m.live j ∧ (m.evict i k).used j = m.used j := by
  rw [evict_live, evict_used]
  split <;> simp [h]

/-- Evicting a key the slot does not hold changes nothing. -/
theorem evict_of_not_live [DecidableEq κ] {m : LruMap ι κ} {i : ι} {k : κ}
    (h : m.live i ≠ some k) : m.evict i k = m := by
  simp [evict, h]

theorem Stamped.touch {m : LruMap ι κ} (h : m.Stamped) (i : ι) : (m.touch i).Stamped := by
  intro j hj
  rw [touch_used, touch_clock]
  by_cases hji : j = i
  · subst hji
    simp
  · rw [Function.update_of_ne hji]
    exact Nat.lt_succ_of_lt (h j hj)

theorem Stamped.put {m : LruMap ι κ} (h : m.Stamped) (i : ι) (k : κ) : (m.put i k).Stamped := by
  intro j hj
  rw [put_used, put_clock, touch_used]
  by_cases hji : j = i
  · subst hji
    simp
  · rw [put_live, Function.update_of_ne hji] at hj
    rw [Function.update_of_ne hji]
    exact Nat.lt_succ_of_lt (h j hj)

theorem Stamped.evict [DecidableEq κ] {m : LruMap ι κ} (h : m.Stamped) (i : ι) (k : κ) :
    (m.evict i k).Stamped := by
  intro j hj
  rw [evict_used, evict_clock]
  apply h j
  rw [evict_live] at hj
  split at hj
  · by_cases hji : j = i
    · subst hji
      simp at hj
    · rwa [Function.update_of_ne hji] at hj
  · exact hj

/-- The slot just used is not the least recent one while another slot is live. -/
theorem Stamped.not_isLeastRecent_touch {m : LruMap ι κ} (h : m.Stamped) {i j : ι}
    (hj : (m.live j).isSome) (hji : j ≠ i) : ¬ (m.touch i).IsLeastRecent i := by
  rintro ⟨-, hleast⟩
  have hlt := hleast j hj hji
  rw [touch_used, Function.update_self, Function.update_of_ne hji] at hlt
  have := h j hj
  omega

/-- After an eviction the slot does not hold the key. -/
theorem evict_live_self [DecidableEq κ] (m : LruMap ι κ) (i : ι) (k : κ) :
    (m.evict i k).live i ≠ some k := by
  rw [evict_live]
  split_ifs with h
  · simp
  · exact h

namespace RecencyOrdered

variable {m : LruMap ι κ} {l : List ι}

/-- Using a slot outside the list leaves the list's order alone. -/
theorem touch_of_not_mem (h : m.RecencyOrdered l) {i : ι} (hi : i ∉ l) :
    (m.touch i).RecencyOrdered l := by
  have hmap : l.map (m.touch i).used = l.map m.used := by
    apply List.map_congr_left
    intro j hj
    rw [touch_used, Function.update_of_ne (ne_of_mem_of_not_mem hj hi)]
  unfold RecencyOrdered
  rw [hmap]
  exact h

/-- Appending the slot just used keeps the order, when every listed slot was used before the
clock's current time. -/
theorem concat_touch (h : m.RecencyOrdered l) {i : ι} (hi : i ∉ l)
    (hlt : ∀ j ∈ l, m.used j < m.clock) : (m.touch i).RecencyOrdered (l ++ [i]) := by
  unfold RecencyOrdered
  rw [List.map_append, List.pairwise_append]
  refine ⟨touch_of_not_mem h hi, List.pairwise_singleton _ _, ?_⟩
  intro a ha b hb
  obtain ⟨j, hj, rfl⟩ := List.mem_map.1 ha
  obtain rfl : b = (m.touch i).used i := by simpa using hb
  rw [touch_used, Function.update_of_ne (ne_of_mem_of_not_mem hj hi), Function.update_self]
  exact hlt j hj

theorem evict [DecidableEq κ] (h : m.RecencyOrdered l) (i : ι) (k : κ) :
    (m.evict i k).RecencyOrdered l := by
  unfold RecencyOrdered
  rw [evict_used]
  exact h

end RecencyOrdered

end LruMap

end Daos.Lib

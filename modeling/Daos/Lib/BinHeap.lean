import Mathlib

/-!
# Binary heaps embedded in arrays

A binary heap keeps a complete binary tree in the cells `0, …, n - 1` of an array, the parent of
a cell `i > 0` being the cell `(i - 1) / 2`, and every cell's key is at least its parent's
(`HeapOrd`). Sifting a cell up or down exchanges it with its parent, or with its smaller child,
until the order holds again. Two invariants carry such loops:

* `UpInv a n c`: the order holds but on the edge into the moving cell `c`, and the parent of `c`
  is below the children of `c`;
* `DownInv a n c`: the order holds but on the edges out of `c`, and the parent of `c` is below the
  children of `c`.

Each exchange keeps its invariant (`UpInv.swap`, `DownInv.swap`) and the loop's exit test turns
it into `HeapOrd` (`UpInv.heapOrd`, `DownInv.heapOrd`). Pushing a cell at the end, or moving the
last cell into a hole, sets one of them up (`HeapOrd.upInv_push`, `HeapOrd.upInv_replace`,
`HeapOrd.downInv_replace`). An exchange of two cells below `n` keeps what the heap holds
(`exists_lt_comp_swap`), and the root holds a least key (`HeapOrd.root_le`).
-/

namespace Daos.Lib

variable {α β : Type*} [LinearOrder β] (key : α → β)

/-- The parent of a cell. -/
def heapParent (i : ℕ) : ℕ := (i - 1) / 2

theorem heapParent_lt {i : ℕ} (hi : 0 < i) : heapParent i < i := by
  unfold heapParent
  omega

/-- The children of a cell are the cells `2 * c + 1` and `2 * c + 2`. -/
theorem eq_child_of_heapParent {i c : ℕ} (hi : 0 < i) (h : heapParent i = c) :
    i = 2 * c + 1 ∨ i = 2 * c + 2 := by
  unfold heapParent at h
  omega

/-- Every cell of the first `n` has a key at least its parent's. -/
def HeapOrd (a : ℕ → α) (n : ℕ) : Prop :=
  ∀ i, 0 < i → i < n → key (a (heapParent i)) ≤ key (a i)

/-- The invariant of sifting `c` up. -/
structure UpInv (a : ℕ → α) (n c : ℕ) : Prop where
  ord : ∀ i, 0 < i → i < n → i ≠ c → key (a (heapParent i)) ≤ key (a i)
  grand : 0 < c → ∀ i, 0 < i → i < n → heapParent i = c → key (a (heapParent c)) ≤ key (a i)

/-- The invariant of sifting `c` down. -/
structure DownInv (a : ℕ → α) (n c : ℕ) : Prop where
  ord : ∀ i, 0 < i → i < n → heapParent i ≠ c → key (a (heapParent i)) ≤ key (a i)
  grand : 0 < c → ∀ i, 0 < i → i < n → heapParent i = c → key (a (heapParent c)) ≤ key (a i)

variable {key} {a : ℕ → α} {n c : ℕ}

namespace HeapOrd

/-- The root holds a least key. Strong induction along the parents. -/
theorem root_le (h : HeapOrd key a n) : ∀ i < n, key (a 0) ≤ key (a i) := by
  intro i
  induction i using Nat.strong_induction_on with
  | _ i ih =>
    intro hi
    rcases Nat.eq_zero_or_pos i with rfl | hpos
    · exact le_rfl
    · have hp := heapParent_lt hpos
      exact le_trans (ih _ hp (Nat.lt_trans hp hi)) (h i hpos hi)

theorem mono {m : ℕ} (h : HeapOrd key a n) (hm : m ≤ n) : HeapOrd key a m :=
  fun i hi him => h i hi (Nat.lt_of_lt_of_le him hm)

/-- A cell pushed at the end only breaks the edge into it. -/
theorem upInv_push [DecidableEq α] (h : HeapOrd key a n) (x : α) :
    UpInv key (Function.update a n x) (n + 1) n := by
  constructor
  · intro i hi hin hne
    have hp := heapParent_lt hi
    rw [Function.update_of_ne hne, Function.update_of_ne (by omega)]
    exact h i hi (by omega)
  · -- the new cell has no children below `n + 1`
    intro _ i hi hin hpi
    have := eq_child_of_heapParent hi hpi
    omega

/-- The last cell moved into a hole `c` with a key below the hole's parent only breaks the edge
into `c`. -/
theorem upInv_replace (h : HeapOrd key a (n + 1)) (hc : c < n) (hc0 : 0 < c)
    (hlt : key (a n) < key (a (heapParent c))) :
    UpInv key (Function.update a c (a n)) n c := by
  have hpc : heapParent c ≠ c := Nat.ne_of_lt (heapParent_lt hc0)
  constructor
  · intro i hi hin hne
    rw [Function.update_of_ne hne]
    by_cases hpi : heapParent i = c
    · -- a child of the hole: the moved key is below the hole's parent, so below the child
      rw [hpi, Function.update_self]
      have h1 := h c hc0 (by omega)
      have h2 := h i hi (by omega)
      rw [hpi] at h2
      exact le_trans (le_of_lt (lt_of_lt_of_le hlt h1)) h2
    · rw [Function.update_of_ne hpi]
      exact h i hi (by omega)
  · intro _ i hi hin hpi
    have hne : i ≠ c := by
      intro hic
      rw [hic] at hpi
      exact hpc hpi
    rw [Function.update_of_ne hpc, Function.update_of_ne hne]
    have h2 := h i hi (by omega)
    rw [hpi] at h2
    exact le_trans (h c hc0 (by omega)) h2

/-- The last cell moved into a hole `c` with a key at least the hole's parent only breaks the
edges out of `c`. -/
theorem downInv_replace [DecidableEq α] (h : HeapOrd key a (n + 1)) (hc : c < n)
    (hle : c = 0 ∨ key (a (heapParent c)) ≤ key (a n)) :
    DownInv key (Function.update a c (a n)) n c := by
  constructor
  · intro i hi hin hpi
    by_cases hic : i = c
    · subst hic
      rw [Function.update_of_ne hpi, Function.update_self]
      rcases hle with rfl | hle
      · exact absurd hi (Nat.lt_irrefl 0)
      · exact hle
    · rw [Function.update_of_ne hpi, Function.update_of_ne hic]
      exact h i hi (by omega)
  · intro hc0 i hi hin hpi
    have hpc : heapParent c ≠ c := Nat.ne_of_lt (heapParent_lt hc0)
    have hne : i ≠ c := by
      intro hic
      rw [hic] at hpi
      exact hpc hpi
    rw [Function.update_of_ne hpc, Function.update_of_ne hne]
    have h2 := h i hi (by omega)
    rw [hpi] at h2
    exact le_trans (h c hc0 (by omega)) h2

end HeapOrd

namespace UpInv

/-- The loop stops at the root or when the parent's key is at most the cell's. -/
theorem heapOrd (h : UpInv key a n c) (hc : c = 0 ∨ key (a (heapParent c)) ≤ key (a c)) :
    HeapOrd key a n := by
  intro i hi hin
  by_cases hic : i = c
  · subst hic
    rcases hc with rfl | hc
    · exact absurd hi (Nat.lt_irrefl 0)
    · exact hc
  · exact h.ord i hi hin hic

/-- Exchanging a cell with a parent of larger key moves the exception up to the parent. -/
theorem swap [DecidableEq α] (h : UpInv key a n c) (hc : 0 < c) (hcn : c < n)
    (hlt : key (a c) < key (a (heapParent c))) :
    UpInv key (a ∘ Equiv.swap c (heapParent c)) n (heapParent c) := by
  have hpc : heapParent c < c := heapParent_lt hc
  have hgrand := h.grand hc
  have hordp := h.ord (heapParent c)
  generalize hp : heapParent c = p at hlt hpc hgrand hordp ⊢
  -- the exchanged array at the two cells and elsewhere
  have hb_c : (a ∘ Equiv.swap c p) c = a p := by simp
  have hb_p : (a ∘ Equiv.swap c p) p = a c := by simp
  have hb : ∀ k, k ≠ c → k ≠ p → (a ∘ Equiv.swap c p) k = a k := fun k h1 h2 => by
    simp [Equiv.swap_apply_of_ne_of_ne h1 h2]
  constructor
  · intro i hi hin hip
    by_cases hic : i = c
    · subst hic
      rw [hp, hb_p, hb_c]
      exact le_of_lt hlt
    · rw [hb i hic hip]
      by_cases hpic : heapParent i = c
      · -- a child of `c` now lies under the old parent's key
        rw [hpic, hb_c]
        exact hgrand i hi hin hpic
      · by_cases hpip : heapParent i = p
        · -- a sibling of `c` now lies under `c`'s smaller key
          rw [hpip, hb_p]
          have := h.ord i hi hin hic
          rw [hpip] at this
          exact le_trans (le_of_lt hlt) this
        · rw [hb _ hpic hpip]
          exact h.ord i hi hin hic
  · intro hp0 i hi hin hpi
    have hpp : heapParent p < p := heapParent_lt hp0
    rw [hb _ (by omega) (by omega)]
    by_cases hic : i = c
    · subst hic
      rw [hb_c]
      exact hordp hp0 (by omega) (by omega)
    · have hip : i ≠ p := by
        intro hip
        rw [hip] at hpi
        omega
      rw [hb i hic hip]
      have h1 := hordp hp0 (by omega) (by omega)
      have h2 := h.ord i hi hin hic
      rw [hpi] at h2
      exact le_trans h1 h2

end UpInv

namespace DownInv

/-- The loop stops when no child of the cell has a smaller key. -/
theorem heapOrd (h : DownInv key a n c)
    (hc : ∀ i, 0 < i → i < n → heapParent i = c → key (a c) ≤ key (a i)) :
    HeapOrd key a n := by
  intro i hi hin
  by_cases hpi : heapParent i = c
  · rw [hpi]
    exact hc i hi hin hpi
  · exact h.ord i hi hin hpi

/-- Exchanging a cell with its child of least key, when that key is smaller, moves the exception
down to the child. -/
theorem swap [DecidableEq α] (h : DownInv key a n c) {m : ℕ} (hm : heapParent m = c)
    (hm0 : 0 < m) (hmn : m < n)
    (hmin : ∀ i, 0 < i → i < n → heapParent i = c → key (a m) ≤ key (a i))
    (hlt : key (a m) < key (a c)) :
    DownInv key (a ∘ Equiv.swap c m) n m := by
  have hcm : c < m := hm ▸ heapParent_lt hm0
  have hb_c : (a ∘ Equiv.swap c m) c = a m := by simp
  have hb_m : (a ∘ Equiv.swap c m) m = a c := by simp
  have hb : ∀ k, k ≠ c → k ≠ m → (a ∘ Equiv.swap c m) k = a k := fun k h1 h2 => by
    simp [Equiv.swap_apply_of_ne_of_ne h1 h2]
  constructor
  · intro i hi hin hpi
    by_cases him : i = m
    · subst him
      rw [hm, hb_c, hb_m]
      exact le_of_lt hlt
    · by_cases hic : i = c
      · -- the parent of `c` is below the child that moves up
        subst hic
        have hpc := heapParent_lt hi
        rw [hb_c, hb _ (by omega) (by omega)]
        exact h.grand hi m hm0 hmn hm
      · rw [hb i hic him]
        by_cases hpic : heapParent i = c
        · -- the sibling of `m` lies under `m`'s key, the least of the children
          rw [hpic, hb_c]
          exact hmin i hi hin hpic
        · rw [hb _ hpic hpi]
          exact h.ord i hi hin hpic
  · intro _ i hi hin hpi
    have hmi := heapParent_lt hi
    rw [hm, hb_c, hb i (by omega) (by omega)]
    have := h.ord i hi hin (by omega)
    rw [hpi] at this
    exact this

end DownInv

/-- Exchanging two cells below `n` keeps what the first `n` cells hold. -/
theorem exists_lt_comp_swap [DecidableEq α] {i j : ℕ} (hi : i < n) (hj : j < n) (x : α) :
    (∃ k < n, (a ∘ Equiv.swap i j) k = x) ↔ ∃ k < n, a k = x := by
  constructor
  · rintro ⟨k, hk, rfl⟩
    refine ⟨Equiv.swap i j k, ?_, rfl⟩
    rcases eq_or_ne k i with rfl | hki
    · rwa [Equiv.swap_apply_left]
    · rcases eq_or_ne k j with rfl | hkj
      · rwa [Equiv.swap_apply_right]
      · rwa [Equiv.swap_apply_of_ne_of_ne hki hkj]
  · rintro ⟨k, hk, rfl⟩
    refine ⟨Equiv.swap i j k, ?_, by simp⟩
    rcases eq_or_ne k i with rfl | hki
    · rwa [Equiv.swap_apply_left]
    · rcases eq_or_ne k j with rfl | hkj
      · rwa [Equiv.swap_apply_right]
      · rwa [Equiv.swap_apply_of_ne_of_ne hki hkj]

end Daos.Lib

import Mathlib

/-!
# Lists kept strictly increasing in a key

A list of records kept sorted by a natural key, with the two edits such lists get: insert
a record right after the last one whose key is at most its own, found by a scan from the
end (`lastLe`), and overwrite a record by one with the same key. Both keep the list strictly
increasing when the inserted key is new; removing records (a sublist) keeps it so too, by
`List.Pairwise.sublist`. The first record whose key is at least a given one (`firstGe`) is the
other probe of such a list. Records grouped by key, each group of one key and neighbours of
different keys, are what `List.splitBy` on equal keys makes of their concatenation
(`splitBy_flatten_of_key`).
-/

namespace Keyed

variable {α : Type*} (key : α → ℕ)

/-- The last element whose key is at most `e`, with its index, scanning from the end. -/
def lastLe (e : ℕ) : List α → Option (ℕ × α)
  | [] => none
  | a :: l =>
    match lastLe e l with
    | some (i, b) => some (i + 1, b)
    | none => if key a ≤ e then some (0, a) else none

/-- Strictly increasing in `key`. -/
abbrev Sorted (l : List α) : Prop := l.Pairwise fun a b => key a < key b

theorem insertIdx_eq_take_append_drop {l : List α} {i : ℕ} (x : α) (h : i ≤ l.length) :
    l.insertIdx i x = l.take i ++ x :: l.drop i := by
  induction l generalizing i with
  | nil =>
    obtain rfl : i = 0 := Nat.le_zero.mp h
    rfl
  | cons a l ih =>
    cases i with
    | zero => rfl
    | succ i =>
      rw [List.insertIdx_succ_cons, ih (by simpa using h)]
      rfl

/-- What the scan finds: an element in range with key at most `e`, every later key above
`e`; or, when it finds nothing, every key above `e`. -/
theorem lastLe_spec (e : ℕ) (l : List α) :
    match lastLe key e l with
    | some (i, b) => ∃ h : i < l.length, l[i] = b ∧ key b ≤ e ∧ ∀ a ∈ l.drop (i + 1), e < key a
    | none => ∀ a ∈ l, e < key a := by
  induction l with
  | nil => simp [lastLe]
  | cons a l ih =>
    unfold lastLe
    cases hl : lastLe key e l with
    | some p =>
      obtain ⟨i, b⟩ := p
      rw [hl] at ih
      obtain ⟨hi, hb, hle, hgt⟩ := ih
      exact ⟨by simpa using hi, by simpa using hb, hle, by simpa using hgt⟩
    | none =>
      rw [hl] at ih
      by_cases ha : key a ≤ e
      · rw [if_pos ha]
        exact ⟨by simp, rfl, ha, by simpa using ih⟩
      · rw [if_neg ha]
        intro b hb
        rcases List.mem_cons.mp hb with rfl | hb
        · omega
        · exact ih b hb

theorem lastLe_some {e i : ℕ} {b : α} {l : List α} (h : lastLe key e l = some (i, b)) :
    ∃ hi : i < l.length, l[i] = b ∧ key b ≤ e ∧ ∀ a ∈ l.drop (i + 1), e < key a := by
  have hspec := lastLe_spec key e l
  rwa [h] at hspec

theorem lastLe_none {e : ℕ} {l : List α} (h : lastLe key e l = none) : ∀ a ∈ l, e < key a := by
  have hspec := lastLe_spec key e l
  rwa [h] at hspec

/-- The first element whose key is at least `e`, scanning from the front. -/
def firstGe (e : ℕ) : List α → Option α
  | [] => none
  | a :: l => if e ≤ key a then some a else firstGe e l

/-- Groups of records, each of one key, with different keys in neighbouring groups: `splitBy`
on equal keys cuts their concatenation back into them. -/
theorem splitBy_flatten_of_key {G : List (List α)} (hne : [] ∉ G)
    (hconst : ∀ g ∈ G, ∀ x ∈ g, ∀ y ∈ g, key x = key y)
    (hdiff : G.IsChain fun g g' => ∀ x ∈ g, ∀ y ∈ g', key x ≠ key y) :
    G.flatten.splitBy (fun x y => key x == key y) = G := by
  apply List.splitBy_flatten hne
  · intro g hg
    apply List.Pairwise.isChain
    exact List.pairwise_of_forall_mem_list fun x hx y hy =>
      beq_iff_eq.mpr (hconst g hg x hx y hy)
  · refine hdiff.imp_of_mem_imp fun g g' hg hg' hkey => ?_
    have ha : g ≠ [] := fun h => hne (h ▸ hg)
    have hb : g' ≠ [] := fun h => hne (h ▸ hg')
    exact ⟨ha, hb, beq_eq_false_iff_ne.mpr (hkey _ (List.getLast_mem ha) _ (List.head_mem hb))⟩

variable {key}

section Sorted

variable {l : List α}

/-- Inserting a new key right after the last smaller one keeps the list sorted. -/
theorem sorted_insertIdx_succ (hl : Sorted key l) {e i : ℕ} {b : α}
    (hi : lastLe key e l = some (i, b)) (hlt : key b < e) (x : α) (hx : key x = e) :
    Sorted key (l.insertIdx (i + 1) x) := by
  obtain ⟨hil, hb, -, hgt⟩ := lastLe_some key hi
  rw [insertIdx_eq_take_append_drop x hil]
  have hsplit : Sorted key (l.take (i + 1) ++ l.drop (i + 1)) := by rwa [List.take_append_drop]
  obtain ⟨htake, hdrop, hcross⟩ := List.pairwise_append.mp hsplit
  -- everything kept before `x` is at most the last of them, so below `e`
  have hbelow : ∀ a ∈ l.take (i + 1), key a < e := by
    intro a ha
    obtain ⟨j, hj, rfl⟩ := List.getElem_of_mem ha
    rw [List.getElem_take]
    rcases Nat.lt_or_ge j i with hji | hji
    · have : key l[j] < key l[i] := List.pairwise_iff_getElem.mp hl j i _ hil hji
      rw [hb] at this
      omega
    · have : j = i := by simp at hj; omega
      subst this
      rw [hb]
      exact hlt
  refine List.pairwise_append.mpr ⟨htake, List.pairwise_cons.mpr ⟨fun b hb => ?_, hdrop⟩, ?_⟩
  · exact hx ▸ hgt b hb
  · intro a ha b hb
    rcases List.mem_cons.mp hb with rfl | hb
    · exact hx ▸ hbelow a ha
    · exact hcross a ha b hb

/-- Inserting a key below all others at the front keeps the list sorted. -/
theorem sorted_insertIdx_zero (hl : Sorted key l) {e : ℕ} (hi : lastLe key e l = none)
    (x : α) (hx : key x = e) : Sorted key (l.insertIdx 0 x) := by
  rw [List.insertIdx_zero]
  exact List.pairwise_cons.mpr ⟨fun b hb => hx ▸ lastLe_none key hi b hb, hl⟩

/-- Overwriting a record by one with the same key keeps the list sorted. -/
theorem sorted_set (hl : Sorted key l) {i : ℕ} (h : i < l.length) (x : α) (hx : key x = key l[i]) :
    Sorted key (l.set i x) := by
  unfold Sorted at hl ⊢
  rw [List.pairwise_iff_getElem] at hl ⊢
  intro j k hj hk hjk
  simp only [List.getElem_set]
  split_ifs with h₁ h₂ h₂
  · omega
  · subst h₁
    rw [hx]
    exact hl _ _ _ _ hjk
  · subst h₂
    rw [hx]
    exact hl _ _ _ _ hjk
  · exact hl _ _ _ _ hjk

end Sorted

end Keyed

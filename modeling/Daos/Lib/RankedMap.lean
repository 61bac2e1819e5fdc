import Mathlib

/-!
# Keyed records kept in rank order

A list of records with distinct keys, ordered by a rank that the key determines, though not
strictly: records of one rank sit together in the order they came. The edits such a list gets
are `upsert` (the record of the new one's key is replaced where it stands, or else the new one
goes after every record of rank at most its own) and `erase` (the record of a key is dropped).
Both keep the list well formed (`Wf.upsert`, `Wf.erase`). When the key is in the list, the
replacement is the list with one element set (`upsert_of_split`), and dropping a key drops one
element (`erase_eq_erase`).
-/

namespace RankedMap

variable {α κ ρ : Type*} [LinearOrder ρ] (key : α → κ) (rank : α → ρ)

/-- Ranks non-decreasing and keys distinct. -/
structure Wf (l : List α) : Prop where
  ordered : l.Pairwise fun a b => rank a ≤ rank b
  distinct : l.Pairwise fun a b => key a ≠ key b

section Order

variable {key rank}

theorem pairwise_orderedInsert {l : List α} (x : α)
    (ordered : l.Pairwise fun a b => rank a ≤ rank b) :
    (l.orderedInsert (fun a b => rank a < rank b) x).Pairwise fun a b => rank a ≤ rank b := by
  induction l with
  | nil => simp
  | cons b l ih =>
    rw [List.pairwise_cons] at ordered
    simp only [List.orderedInsert_cons]
    split
    · -- `x` goes first: it is below `b`, and `b` is below the rest
      rename_i hlt
      refine List.Pairwise.cons (fun a ha => ?_) (List.Pairwise.cons ordered.1 ordered.2)
      rcases List.mem_cons.mp ha with rfl | ha
      · exact le_of_lt hlt
      · exact le_trans (le_of_lt hlt) (ordered.1 a ha)
    · rename_i hge
      refine List.Pairwise.cons (fun a ha => ?_) (ih ordered.2)
      rcases (List.mem_orderedInsert _).mp ha with rfl | ha
      · exact not_lt.mp hge
      · exact ordered.1 a ha

theorem Wf.orderedInsert {l : List α} {x : α} (hw : Wf key rank l)
    (fresh : ∀ a ∈ l, key a ≠ key x) :
    Wf key rank (l.orderedInsert (fun a b => rank a < rank b) x) := by
  refine ⟨pairwise_orderedInsert x hw.ordered, ?_⟩
  have perm := List.perm_orderedInsert (fun a b => rank a < rank b) x l
  refine (perm.pairwise_iff (fun h => Ne.symm h)).mpr (List.Pairwise.cons ?_ hw.distinct)
  intro a ha
  exact Ne.symm (fresh a ha)

end Order

variable [DecidableEq κ]

/-- Replace the record of `x`'s key by `x`, or insert `x` before the first record of greater
rank. -/
def upsert (x : α) (l : List α) : List α :=
  if l.any (fun a => decide (key a = key x)) then l.map fun a => if key a = key x then x else a
  else l.orderedInsert (fun a b => rank a < rank b) x

/-- Drop the record of key `k`. -/
def erase (k : κ) (l : List α) : List α := l.filter fun a => decide (key a ≠ k)

variable {key rank}

theorem Wf.replace {l : List α} {x : α} (hw : Wf key rank l)
    (sameRank : ∀ a ∈ l, key a = key x → rank a = rank x) :
    Wf key rank (l.map fun a => if key a = key x then x else a) := by
  have keyOf : ∀ a, key (if key a = key x then x else a) = key a := by
    intro a
    split <;> simp_all
  have rankOf : ∀ a ∈ l, rank (if key a = key x then x else a) = rank a := by
    intro a ha
    split
    · rename_i h
      exact (sameRank a ha h).symm
    · rfl
  constructor
  · rw [List.pairwise_map]
    refine hw.ordered.imp_of_mem fun ha hb hab => ?_
    rw [rankOf _ ha, rankOf _ hb]
    exact hab
  · rw [List.pairwise_map]
    refine hw.distinct.imp fun hab => ?_
    rw [keyOf, keyOf]
    exact hab

theorem Wf.upsert {l : List α} (x : α) (hw : Wf key rank l)
    (sameRank : ∀ a ∈ l, key a = key x → rank a = rank x) : Wf key rank (upsert key rank x l) := by
  unfold RankedMap.upsert
  split
  · exact hw.replace sameRank
  · rename_i hnone
    refine hw.orderedInsert fun a ha same => hnone ?_
    exact List.any_eq_true.mpr ⟨a, ha, decide_eq_true same⟩

omit [DecidableEq κ] in
theorem Wf.sublist {l l' : List α} (hw : Wf key rank l) (h : l'.Sublist l) : Wf key rank l' :=
  ⟨hw.ordered.sublist h, hw.distinct.sublist h⟩

theorem mem_upsert {l : List α} {x a : α} (h : a ∈ upsert key rank x l) : a = x ∨ a ∈ l := by
  unfold RankedMap.upsert at h
  split at h
  · obtain ⟨b, hb, rfl⟩ := List.mem_map.mp h
    split
    · exact Or.inl rfl
    · exact Or.inr hb
  · exact (List.mem_orderedInsert _).mp h

theorem upsert_of_fresh {l : List α} {x : α} (fresh : ∀ a ∈ l, key a ≠ key x) :
    upsert key rank x l = l.orderedInsert (fun a b => rank a < rank b) x := by
  unfold RankedMap.upsert
  rw [if_neg]
  simpa using fresh

/-- The key of a record in the list is in the list once, so the in-place replacement sets one
element. -/
theorem upsert_of_split {pre post : List α} {a x : α}
    (hw : Wf key rank (pre ++ a :: post)) (same : key a = key x) :
    upsert key rank x (pre ++ a :: post) = pre ++ x :: post := by
  have distinct := hw.distinct
  rw [List.pairwise_append, List.pairwise_cons] at distinct
  obtain ⟨-, ⟨notAfter, -⟩, notBefore⟩ := distinct
  have hany : (pre ++ a :: post).any (fun b => decide (key b = key x)) = true :=
    List.any_eq_true.mpr ⟨a, by simp, decide_eq_true same⟩
  unfold RankedMap.upsert
  rw [if_pos hany, List.map_append, List.map_cons, if_pos same]
  have keep : ∀ l : List α, (∀ b ∈ l, key b ≠ key x) →
      (l.map fun b => if key b = key x then x else b) = l := by
    intro l hl
    conv_rhs => rw [← List.map_id l]
    exact List.map_congr_left fun b hb => if_neg (hl b hb)
  rw [keep pre (fun b hb h => notBefore b hb a (by simp) (h.trans same.symm)),
    keep post (fun b hb h => notAfter b hb (same.trans h.symm))]

/-- A key that is in the list once is dropped by dropping its record. -/
theorem erase_eq_erase [DecidableEq α] {l : List α} {x : α}
    (distinct : l.Pairwise fun a b => key a ≠ key b) (mem : x ∈ l) :
    erase key (key x) l = l.erase x := by
  induction l with
  | nil => simp at mem
  | cons b l ih =>
    rw [List.pairwise_cons] at distinct
    unfold RankedMap.erase at ih ⊢
    by_cases hb : b = x
    · subst hb
      rw [List.filter_cons_of_neg (by simp), List.erase_cons_head, List.filter_eq_self]
      intro a ha
      exact decide_eq_true (Ne.symm (distinct.1 a ha))
    · have mem' : x ∈ l := (List.mem_cons.mp mem).resolve_left (Ne.symm hb)
      have hk : key b ≠ key x := distinct.1 x mem'
      rw [List.filter_cons_of_pos (by simpa using hk), List.erase_cons_tail (by simpa using hb),
        ih distinct.2 mem']

end RankedMap

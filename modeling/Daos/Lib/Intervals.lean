import Mathlib

/-!
# Closed intervals kept as their two ends

An interval `[lo, hi]` of a linear order, stored as the pair of its ends, as version ranges
are stored; an interval whose ends are the wrong way round holds no point. A list of intervals
covers the points of its members, and reordering the list does not change what it covers
(`covers_iff_of_perm`).
-/

/-- The interval from `lo` to `hi`, both included. -/
structure Ival (α : Type*) where
  lo : α
  hi : α
deriving DecidableEq

namespace Ival

variable {α : Type*} [LinearOrder α]

/-- `x` lies in the interval. -/
def Mem (I : Ival α) (x : α) : Prop :=
  I.lo ≤ x ∧ x ≤ I.hi

instance (I : Ival α) (x : α) : Decidable (I.Mem x) :=
  inferInstanceAs (Decidable (_ ∧ _))

/-- `I` holds every point of `J`: it starts no later and ends no earlier. -/
def Within (J I : Ival α) : Prop :=
  I.lo ≤ J.lo ∧ J.hi ≤ I.hi

instance (J I : Ival α) : Decidable (J.Within I) :=
  inferInstanceAs (Decidable (_ ∧ _))

variable {I J : Ival α} {x : α}

/-- Some member of the list holds `x`. -/
def Covers (l : List (Ival α)) (x : α) : Prop :=
  ∃ I ∈ l, I.Mem x

instance (l : List (Ival α)) (x : α) : Decidable (Covers l x) :=
  inferInstanceAs (Decidable (∃ I ∈ l, I.Mem x))

variable {l l' : List (Ival α)}

@[simp]
theorem covers_nil : ¬Covers ([] : List (Ival α)) x := by
  simp [Covers]

@[simp]
theorem covers_cons : Covers (I :: l) x ↔ I.Mem x ∨ Covers l x := by
  simp [Covers]

theorem covers_append : Covers (l ++ l') x ↔ Covers l x ∨ Covers l' x := by
  simp only [Covers, List.mem_append]
  constructor
  · rintro ⟨I, hI | hI, hx⟩
    · exact Or.inl ⟨I, hI, hx⟩
    · exact Or.inr ⟨I, hI, hx⟩
  · rintro (⟨I, hI, hx⟩ | ⟨I, hI, hx⟩)
    · exact ⟨I, Or.inl hI, hx⟩
    · exact ⟨I, Or.inr hI, hx⟩

theorem Covers.of_perm (h : l.Perm l') (hx : Covers l x) : Covers l' x := by
  obtain ⟨I, hI, hmem⟩ := hx
  exact ⟨I, h.subset hI, hmem⟩

theorem covers_iff_of_perm (h : l.Perm l') : Covers l x ↔ Covers l' x :=
  ⟨Covers.of_perm h, Covers.of_perm h.symm⟩

end Ival

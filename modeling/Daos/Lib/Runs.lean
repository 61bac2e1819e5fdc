import Mathlib
import Daos.Lib.Intervals

/-!
# Runs of naturals

A finite set of naturals kept as a list of closed intervals. The list is canonical when every
interval holds a point and each ends more than one before the next starts (`Canon`): its points
then increase strictly, so each is listed once, and no two of its intervals could be joined into
one.

`coalesce` walks a list ordered by start and joins each interval to the last one kept when it
starts no later than one past that one's end. On naturals the joined interval holds exactly the
points of the two (`mem_join_iff`), so the result covers what the list covers
(`covers_coalesce`), and it is canonical (`canon_coalesce`).
-/

namespace Ival

/-- `I` extended to the end of `J`. -/
def join (I J : Ival ℕ) : Ival ℕ :=
  ⟨I.lo, max I.hi J.hi⟩

/-- Joining an interval that starts inside `I` or right after it adds its points and no
other. -/
theorem mem_join_iff {I J : Ival ℕ} {x : ℕ} (hlo : I.lo ≤ J.lo) (hreach : J.lo ≤ I.hi + 1) :
    (I.join J).Mem x ↔ I.Mem x ∨ J.Mem x := by
  simp only [join, Mem, le_max_iff]
  omega

end Ival

namespace Runs

open Ival

/-- Every interval holds a point and ends more than one before the next starts. -/
def Canon (l : List (Ival ℕ)) : Prop :=
  (∀ I ∈ l, I.lo ≤ I.hi) ∧ l.IsChain fun I J => I.hi + 1 < J.lo

theorem canon_nil : Canon [] :=
  ⟨by simp, List.IsChain.nil⟩

theorem Canon.tail {I : Ival ℕ} {l : List (Ival ℕ)} (h : Canon (I :: l)) : Canon l :=
  ⟨fun J hJ => h.1 J (List.mem_cons_of_mem _ hJ), h.2.tail⟩

/-- In a canonical list an interval ends before every later one starts. -/
theorem Canon.hi_lt {I : Ival ℕ} {l : List (Ival ℕ)} (h : Canon (I :: l)) :
    ∀ J ∈ l, I.hi < J.lo := by
  induction l generalizing I with
  | nil => simp
  | cons K l ih =>
    have hIK : I.hi + 1 < K.lo := (List.isChain_cons_cons.mp h.2).1
    have hK : K.lo ≤ K.hi := h.1 K (by simp)
    intro J hJ
    rcases List.mem_cons.mp hJ with rfl | hJ
    · omega
    · have := ih h.tail J hJ
      omega

/-- In a canonical list a number lies between an interval and every later one. -/
theorem Canon.pairwise {l : List (Ival ℕ)} (h : Canon l) :
    l.Pairwise fun I J => I.hi + 1 < J.lo := by
  induction l with
  | nil => exact List.Pairwise.nil
  | cons I l ih =>
    refine List.Pairwise.cons (fun J hJ => ?_) (ih h.tail)
    cases l with
    | nil => contradiction
    | cons K l =>
      have hIK : I.hi + 1 < K.lo := (List.isChain_cons_cons.mp h.2).1
      rcases List.mem_cons.mp hJ with rfl | hJ
      · exact hIK
      · have hK : K.lo ≤ K.hi := h.1 K (by simp)
        have := h.tail.hi_lt J hJ
        omega

/-- Every interval of `l` starts no earlier than the ones before it. -/
def SortedLo (l : List (Ival ℕ)) : Prop :=
  l.Pairwise fun I J => I.lo ≤ J.lo

/-- Joining the second interval into the first keeps the order by start. -/
theorem SortedLo.join {I J : Ival ℕ} {Js : List (Ival ℕ)} (h : SortedLo (I :: J :: Js)) :
    SortedLo (I.join J :: Js) := by
  have hI := (List.pairwise_cons.mp h).1
  refine List.pairwise_cons.mpr ⟨fun K hK => hI K (List.mem_cons_of_mem _ hK), ?_⟩
  exact (List.pairwise_cons.mp (List.pairwise_cons.mp h).2).2

/-- Joins each interval to the last one kept when it starts no later than one past its end. -/
def coalesce : Ival ℕ → List (Ival ℕ) → List (Ival ℕ)
  | I, [] => [I]
  | I, J :: Js => if J.lo ≤ I.hi + 1 then coalesce (I.join J) Js else I :: coalesce J Js

/-- The first interval kept starts where the walk starts. -/
theorem head_coalesce (I : Ival ℕ) (Js : List (Ival ℕ)) :
    ∃ l, coalesce I Js = ⟨I.lo, (((coalesce I Js).headD I).hi)⟩ :: l := by
  induction Js generalizing I with
  | nil => exact ⟨[], rfl⟩
  | cons J Js ih =>
    by_cases hreach : J.lo ≤ I.hi + 1
    · obtain ⟨l, hl⟩ := ih (I.join J)
      refine ⟨l, ?_⟩
      rw [coalesce, if_pos hreach, hl]
      rfl
    · exact ⟨coalesce J Js, by rw [coalesce, if_neg hreach]; rfl⟩

/-- **`coalesce` keeps the points.** Over a list ordered by start, the intervals kept cover the
points of the intervals walked. -/
theorem covers_coalesce {I : Ival ℕ} {Js : List (Ival ℕ)} (hsorted : SortedLo (I :: Js))
    {x : ℕ} : Covers (coalesce I Js) x ↔ Covers (I :: Js) x := by
  induction Js generalizing I with
  | nil => rfl
  | cons J Js ih =>
    have hIJ : I.lo ≤ J.lo := (List.pairwise_cons.mp hsorted).1 J (by simp)
    by_cases hreach : J.lo ≤ I.hi + 1
    · -- the joined interval holds the points of both
      rw [coalesce, if_pos hreach, ih hsorted.join, covers_cons, mem_join_iff hIJ hreach,
        covers_cons, covers_cons, or_assoc]
    · rw [coalesce, if_neg hreach, covers_cons, ih (List.pairwise_cons.mp hsorted).2]
      simp only [covers_cons]

/-- **`coalesce` is canonical** over a list ordered by start whose intervals hold a point. -/
theorem canon_coalesce {I : Ival ℕ} {Js : List (Ival ℕ)} (hsorted : SortedLo (I :: Js))
    (hwf : ∀ K ∈ I :: Js, K.lo ≤ K.hi) : Canon (coalesce I Js) := by
  induction Js generalizing I with
  | nil => exact ⟨fun K hK => hwf K (by simpa [coalesce] using hK), List.isChain_singleton _⟩
  | cons J Js ih =>
    have hIJ : I.lo ≤ J.lo := (List.pairwise_cons.mp hsorted).1 J (by simp)
    have hJ : J.lo ≤ J.hi := hwf J (by simp)
    by_cases hreach : J.lo ≤ I.hi + 1
    · rw [coalesce, if_pos hreach]
      apply ih hsorted.join
      intro K hK
      rcases List.mem_cons.mp hK with rfl | hK
      · have := hwf I (by simp)
        simp only [join, le_max_iff]
        omega
      · exact hwf K (by simp [hK])
    · rw [coalesce, if_neg hreach]
      have hrest := ih (List.pairwise_cons.mp hsorted).2 (fun K hK => hwf K (by simp [hK]))
      obtain ⟨l, hl⟩ := head_coalesce J Js
      refine ⟨fun K hK => ?_, ?_⟩
      · rcases List.mem_cons.mp hK with rfl | hK
        · exact hwf K (by simp)
        · exact hrest.1 K hK
      · rw [hl] at hrest ⊢
        exact List.IsChain.cons hrest.2 (by simp; omega)

end Runs

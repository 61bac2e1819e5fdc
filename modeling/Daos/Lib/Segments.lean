import Mathlib

/-!
# Positions in a buffer made of segments

A buffer given as the list of its segment lengths (a scatter-gather list) is read as the
concatenation of its segments: byte `off` of segment `i` sits at position `segStart l i + off`
of the concatenation, and a piece of `n` bytes taken there covers `List.range' (segStart l i +
off) n`. A walk over the buffer keeps the segments not yet reached as `l.drop i`; the lemmas
below say how the start of the next segment follows from the current one as the walk steps
over a segment, and where the walk stands when no segment is left.
-/

namespace Segments

/-- The position in the concatenation where segment `i` starts. -/
def segStart (l : List ℕ) (i : ℕ) : ℕ :=
  (l.take i).sum

variable {l rest : List ℕ} {i len : ℕ}

@[simp]
theorem segStart_zero (l : List ℕ) : segStart l 0 = 0 := by
  simp [segStart]

theorem segStart_add_sum_drop (l : List ℕ) (i : ℕ) : segStart l i + (l.drop i).sum = l.sum :=
  List.sum_take_add_sum_drop l i

theorem drop_succ_of_drop_eq_cons (h : l.drop i = len :: rest) : l.drop (i + 1) = rest := by
  rw [← List.drop_drop, h]
  rfl

/-- Stepping over segment `i` moves the start by its length. -/
theorem segStart_succ_of_drop_eq_cons (h : l.drop i = len :: rest) :
    segStart l (i + 1) = segStart l i + len := by
  have hi := segStart_add_sum_drop l i
  have hsucc := segStart_add_sum_drop l (i + 1)
  rw [h, List.sum_cons] at hi
  rw [drop_succ_of_drop_eq_cons h] at hsucc
  omega

/-- Past the last segment the walk stands at the end of the buffer. -/
theorem segStart_of_drop_eq_nil (h : l.drop i = []) : segStart l i = l.sum := by
  have hi := segStart_add_sum_drop l i
  rw [h, List.sum_nil, Nat.add_zero] at hi
  exact hi

/-- What is left of the buffer from byte `off` of segment `i` on. -/
theorem segStart_add_le_sum (h : l.drop i = len :: rest) {off : ℕ} (hoff : off ≤ len) :
    segStart l i + off + (len - off) + rest.sum = l.sum := by
  have hi := segStart_add_sum_drop l i
  rw [h, List.sum_cons] at hi
  omega

end Segments

import Mathlib

/-!
# Cutting a line of naturals at increasing points

`cuts lo [p₀, p₁, …, pₙ]` is the list of closed ranges `[lo, p₀], [p₀ + 1, p₁], …,
[pₙ₋₁ + 1, pₙ]`: the numbers from `lo` to `pₙ` cut right after each point. Each range
starts one past where the one before ended, whatever the points. When the points increase
strictly and start at or above `lo`, moreover, no range is empty, later ranges lie above
earlier ones, no point lies strictly inside a range (a point in a range is its end), and
every number from `lo` to the last point lies in exactly one range. A prefix of a cut list
cuts at a prefix of the points, so all of this holds of a loop over the points that stops
early.

Two facts of strictly increasing lists serve to find the points: what `dropWhile (· < m)`
leaves is `≥ m`, and `next lo ps`, where the range after the points starts, is above every
point and at most every point that follows.
-/

namespace Cuts

/-- The ranges `[lo, p₀], [p₀ + 1, p₁], …` that cut the numbers from `lo` at each point. -/
def cuts : ℕ → List ℕ → List (ℕ × ℕ)
  | _, [] => []
  | lo, p :: ps => (lo, p) :: cuts (p + 1) ps

/-- Where the range after the points starts: one past the last point, `lo` when there is
none. -/
def next : ℕ → List ℕ → ℕ
  | lo, [] => lo
  | _, p :: ps => next (p + 1) ps

@[simp] theorem cuts_nil (lo : ℕ) : cuts lo [] = [] := rfl

@[simp] theorem cuts_cons (lo p : ℕ) (ps : List ℕ) :
    cuts lo (p :: ps) = (lo, p) :: cuts (p + 1) ps := rfl

@[simp] theorem next_nil (lo : ℕ) : next lo [] = lo := rfl

@[simp] theorem next_cons (lo p : ℕ) (ps : List ℕ) : next lo (p :: ps) = next (p + 1) ps := rfl

/-- `next` read off the last point. -/
theorem next_eq_getLast? (lo : ℕ) (ps : List ℕ) :
    next lo ps = match ps.getLast? with
      | some p => p + 1
      | none => lo := by
  induction ps generalizing lo with
  | nil => rfl
  | cons p ps ih =>
    cases ps with
    | nil => rfl
    | cons q qs =>
      rw [next_cons, ih, List.getLast?_cons_cons]
      cases h : (q :: qs).getLast? with
      | none => simp at h
      | some z => rfl

theorem cuts_append_singleton (lo : ℕ) (ps : List ℕ) (q : ℕ) :
    cuts lo (ps ++ [q]) = cuts lo ps ++ [(next lo ps, q)] := by
  induction ps generalizing lo with
  | nil => rfl
  | cons p ps ih => simp [ih]

theorem cuts_take (lo : ℕ) (ps : List ℕ) (n : ℕ) : (cuts lo ps).take n = cuts lo (ps.take n) := by
  induction ps generalizing lo n with
  | nil => simp
  | cons p ps ih =>
    cases n with
    | zero => rfl
    | succ n => simp [ih]

/-- A prefix of a cut list cuts at a prefix of the points. -/
theorem eq_cuts_of_prefix {rs : List (ℕ × ℕ)} {lo : ℕ} {ps : List ℕ} (h : rs <+: cuts lo ps) :
    rs = cuts lo (ps.take rs.length) := by
  rw [← cuts_take]
  exact List.prefix_iff_eq_take.mp h

/-- Every range ends at a point, and starts at `lo` or one past a point. -/
theorem mem_cuts {lo : ℕ} {ps : List ℕ} {r : ℕ × ℕ} (h : r ∈ cuts lo ps) :
    r.2 ∈ ps ∧ (r.1 = lo ∨ ∃ p ∈ ps, r.1 = p + 1) := by
  induction ps generalizing lo with
  | nil => simp at h
  | cons p ps ih =>
    rcases List.mem_cons.mp h with rfl | h
    · exact ⟨List.mem_cons_self, .inl rfl⟩
    · obtain ⟨hmem, hlo | ⟨q, hq, hq1⟩⟩ := ih h
      · exact ⟨List.mem_cons_of_mem p hmem, .inr ⟨p, List.mem_cons_self, hlo⟩⟩
      · exact ⟨List.mem_cons_of_mem p hmem, .inr ⟨q, List.mem_cons_of_mem p hq, hq1⟩⟩

theorem cuts_head? (lo : ℕ) (ps : List ℕ) : (cuts lo ps).head? = ps.head?.map (lo, ·) := by
  cases ps <;> rfl

theorem cuts_getLast? (lo : ℕ) (ps : List ℕ) (q : ℕ) :
    (cuts lo (ps ++ [q])).getLast? = some (next lo ps, q) := by
  rw [cuts_append_singleton, List.getLast?_concat]

/-- Each range starts one past where the one before ended. -/
theorem cuts_chain (lo : ℕ) (ps : List ℕ) : (cuts lo ps).IsChain fun r r' => r'.1 = r.2 + 1 := by
  induction ps generalizing lo with
  | nil => exact List.IsChain.nil
  | cons p ps ih =>
    cases ps with
    | nil => exact List.IsChain.singleton _
    | cons q qs => exact List.IsChain.cons_cons rfl (ih (p + 1))

section Sorted

variable {lo : ℕ} {ps : List ℕ}

/-- Ranges start at or above `lo` when the points do. -/
theorem le_fst_of_mem_cuts (hlo : ∀ p ∈ ps, lo ≤ p) {r : ℕ × ℕ} (h : r ∈ cuts lo ps) :
    lo ≤ r.1 := by
  obtain ⟨-, hr | ⟨p, hp, hr⟩⟩ := mem_cuts h
  · exact hr.ge
  · have := hlo p hp
    omega

/-- Cut at strictly increasing points from at or below the first one, no range is empty. -/
theorem le_of_mem_cuts (hps : ps.Pairwise (· < ·)) (hlo : ∀ p ∈ ps, lo ≤ p) {r : ℕ × ℕ}
    (h : r ∈ cuts lo ps) : r.1 ≤ r.2 := by
  induction ps generalizing lo with
  | nil => simp at h
  | cons p ps ih =>
    obtain ⟨hp, hps⟩ := List.pairwise_cons.mp hps
    rcases List.mem_cons.mp h with rfl | h
    · exact hlo p List.mem_cons_self
    · exact ih hps (fun q hq => hp q hq) h

/-- Later ranges start past the end of earlier ones. -/
theorem cuts_pairwise (hps : ps.Pairwise (· < ·)) (lo : ℕ) :
    (cuts lo ps).Pairwise fun r r' => r.2 < r'.1 := by
  induction ps generalizing lo with
  | nil => exact List.Pairwise.nil
  | cons p ps ih =>
    obtain ⟨hp, hps⟩ := List.pairwise_cons.mp hps
    refine List.Pairwise.cons (fun r hr => ?_) (ih hps (p + 1))
    exact le_fst_of_mem_cuts (fun q hq => hp q hq) hr

/-- No point lies strictly inside a range: a point in a range is its end. -/
theorem not_mem_inside (hps : ps.Pairwise (· < ·)) {r : ℕ × ℕ} (h : r ∈ cuts lo ps) {q : ℕ}
    (hq : q ∈ ps) : ¬ (r.1 ≤ q ∧ q < r.2) := by
  induction ps generalizing lo with
  | nil => simp at h
  | cons p ps ih =>
    obtain ⟨hp, hps⟩ := List.pairwise_cons.mp hps
    rintro ⟨hlo, hhi⟩
    rcases List.mem_cons.mp h with rfl | h
    · -- the first range ends at `p`, and every other point is above it
      rcases List.mem_cons.mp hq with rfl | hq
      · exact lt_irrefl _ hhi
      · exact absurd (hp q hq) (by omega)
    · -- the later ranges start past `p`
      rcases List.mem_cons.mp hq with rfl | hq
      · exact absurd (le_fst_of_mem_cuts (fun q hq => hp q hq) h) (by omega)
      · exact ih hps h hq ⟨hlo, hhi⟩

/-- ... and no point at all lies inside a range of a loop that stopped early: the points it
did not reach are above every range. -/
theorem not_mem_inside_take (hps : ps.Pairwise (· < ·)) (n : ℕ) {r : ℕ × ℕ}
    (h : r ∈ cuts lo (ps.take n)) {q : ℕ} (hq : q ∈ ps) : ¬ (r.1 ≤ q ∧ q < r.2) := by
  have hsplit : (ps.take n ++ ps.drop n).Pairwise (· < ·) := by rwa [List.take_append_drop]
  rw [← List.take_append_drop n ps, List.mem_append] at hq
  rcases hq with hq | hq
  · exact not_mem_inside (hps.sublist (List.take_sublist n ps)) h hq
  · have : r.2 < q := (List.pairwise_append.mp hsplit).2.2 _ (mem_cuts h).1 _ hq
    omega

/-- Every number from `lo` to the last point lies in exactly one range. -/
theorem countP_cuts_append {q : ℕ} (hps : (ps ++ [q]).Pairwise (· < ·))
    (hlo : ∀ p ∈ ps ++ [q], lo ≤ p) (x : ℕ) :
    (cuts lo (ps ++ [q])).countP (fun r => decide (r.1 ≤ x ∧ x ≤ r.2)) =
      if lo ≤ x ∧ x ≤ q then 1 else 0 := by
  induction ps generalizing lo with
  | nil => simp [List.countP_cons]
  | cons p ps ih =>
    obtain ⟨hp, hps⟩ := List.pairwise_cons.mp hps
    have hlo_p : lo ≤ p := hlo p List.mem_cons_self
    have hpq : p < q := hp q (by simp)
    rw [List.cons_append, cuts_cons, List.countP_cons, ih hps (fun r hr => hp r hr)]
    simp only [decide_eq_true_eq]
    split_ifs <;> omega

/-- The cover of a whole cut list: a number between the first range's start and the last
range's end lies in exactly one range. -/
theorem countP_cuts (hps : ps.Pairwise (· < ·)) (hlo : ∀ p ∈ ps, lo ≤ p) {r₀ r₁ : ℕ × ℕ}
    (h₀ : r₀ ∈ (cuts lo ps).head?) (h₁ : r₁ ∈ (cuts lo ps).getLast?) {x : ℕ}
    (hx₀ : r₀.1 ≤ x) (hx₁ : x ≤ r₁.2) :
    (cuts lo ps).countP (fun r => decide (r.1 ≤ x ∧ x ≤ r.2)) = 1 := by
  -- a list of points with a first range is its front and its last point
  obtain ⟨qs, q, rfl⟩ : ∃ qs q, ps = qs ++ [q] := by
    rcases List.eq_nil_or_concat' ps with rfl | hps'
    · simp at h₀
    · exact hps'
  have hfirst : r₀.1 = lo := by
    rw [cuts_head?, Option.mem_def, Option.map_eq_some_iff] at h₀
    obtain ⟨p, -, rfl⟩ := h₀
    rfl
  have hlast : r₁.2 = q := by
    rw [cuts_getLast?, Option.mem_def, Option.some_inj] at h₁
    rw [← h₁]
  rw [countP_cuts_append hps hlo, if_pos ⟨hfirst ▸ hx₀, hlast ▸ hx₁⟩]

end Sorted

section Split

variable {l : List ℕ}

/-- What `dropWhile (· < m)` leaves of a strictly increasing list is `≥ m`. -/
theorem le_of_mem_dropWhile (hl : l.Pairwise (· < ·)) {m x : ℕ}
    (hx : x ∈ l.dropWhile (· < m)) : m ≤ x := by
  induction l with
  | nil => simp at hx
  | cons a l ih =>
    obtain ⟨ha, hl⟩ := List.pairwise_cons.mp hl
    by_cases ham : a < m
    · rw [List.dropWhile_cons_of_pos (by simpa using ham)] at hx
      exact ih hl hx
    · rw [List.dropWhile_cons_of_neg (by simpa using ham)] at hx
      rcases List.mem_cons.mp hx with rfl | hx
      · omega
      · exact le_trans (Nat.le_of_not_lt ham) (Nat.le_of_lt (ha x hx))

/-- The range after strictly increasing points starts at or above `lo` if they do. -/
theorem le_next (hl : l.Pairwise (· < ·)) {lo : ℕ} (hlo : ∀ p ∈ l, lo ≤ p) : lo ≤ next lo l := by
  induction l generalizing lo with
  | nil => exact le_rfl
  | cons a l ih =>
    obtain ⟨ha, hl⟩ := List.pairwise_cons.mp hl
    have : a + 1 ≤ next (a + 1) l := ih hl (fun p hp => ha p hp)
    have := hlo a List.mem_cons_self
    rw [next_cons]
    omega

/-- The range after strictly increasing points starts above each of them. -/
theorem lt_next (hl : l.Pairwise (· < ·)) (lo : ℕ) {x : ℕ} (hx : x ∈ l) : x < next lo l := by
  induction l generalizing lo with
  | nil => simp at hx
  | cons a l ih =>
    obtain ⟨ha, htl⟩ := List.pairwise_cons.mp hl
    rw [next_cons]
    rcases List.mem_cons.mp hx with rfl | hx
    · exact Nat.lt_of_lt_of_le (Nat.lt_succ_self x) (le_next htl (fun p hp => ha p hp))
    · exact ih htl (a + 1) hx

/-- ... and at or below every point that follows them. -/
theorem next_le {l' : List ℕ} (hl : (l ++ l').Pairwise (· < ·)) {lo : ℕ}
    (hlo : ∀ y ∈ l', lo ≤ y) {y : ℕ} (hy : y ∈ l') : next lo l ≤ y := by
  induction l generalizing lo with
  | nil => exact hlo y hy
  | cons a l ih =>
    obtain ⟨ha, hl⟩ := List.pairwise_cons.mp hl
    exact ih hl (fun z hz => ha z (List.mem_append_right l hz))

end Split

end Cuts

import Mathlib

/-!
# Round-robin striping of a line of positions

A line of positions `0, 1, 2, …` is cut into STRIPES of `k` cells, each cell `cell`
positions long, and cell `t` of every stripe belongs to LANE `t`. Storage that spreads a
byte range over `k` devices lays it out this way: lane `t` is what device `t` holds, and a
position's index on its device is `laneIndex`, the whole stripes before it times the cell
length plus its offset inside its cell.

The one idea of this module is that a lane's positions, read in order, are counted by a
closed form (`count_lane`): the positions of lane `t` below `y` number `laneRank k cell t y`.
For a position of lane `t` that count IS its lane index (`laneRank_of_lane`), and it grows by
one exactly at lane `t`'s positions (`laneRank_succ`). Together (`countP_lane_eq`): the lane
indices of lane `t`'s positions in `[a, b)` are exactly `[laneRank a, laneRank b)`, each hit
once. That is the statement a splitter of ranges into per-device ranges must meet, and the
form in which a model of one proves it.

Nothing here names a particular storage system.
-/

namespace Stripe

/-! ## Lanes -/

/-- The lane of position `x`: the cell it falls in, counted within its stripe. -/
def lane (k cell x : ℕ) : ℕ := x % (k * cell) / cell

/-- The index of position `x` on its lane: whole stripes before it times the cell length,
plus its offset inside its cell. -/
def laneIndex (k cell x : ℕ) : ℕ := x / (k * cell) * cell + x % cell

/-- The number of positions of lane `t` below `y`, in closed form: a full cell for every
whole stripe, and the part of cell `t` that the partial stripe reaches. -/
def laneRank (k cell t y : ℕ) : ℕ := y / (k * cell) * cell + min cell (y % (k * cell) - t * cell)

section Lanes

variable {k cell : ℕ}

theorem lane_lt (hk : 0 < k) (hc : 0 < cell) (x : ℕ) : lane k cell x < k := by
  unfold lane
  have : x % (k * cell) < k * cell := Nat.mod_lt _ (Nat.mul_pos hk hc)
  exact Nat.div_lt_of_lt_mul (by rw [Nat.mul_comm cell k]; exact this)

/-- A position's offset inside its stripe splits into its lane's cell and its offset in the
cell. -/
theorem mod_stripe_eq (x : ℕ) : x % (k * cell) = lane k cell x * cell + x % cell := by
  have hdvd : cell ∣ k * cell := Nat.dvd_mul_left cell k
  have := Nat.div_add_mod' (x % (k * cell)) cell
  rw [Nat.mod_mod_of_dvd x hdvd] at this
  unfold lane
  exact this.symm

/-- Lanes repeat with the stripe. -/
theorem lane_add_stripes (q j : ℕ) : lane k cell (q * (k * cell) + j) = lane k cell j := by
  unfold lane
  rw [Nat.mul_comm q, Nat.mul_add_mod]

/-- Inside the first stripe, lane `t` is the interval `[t * cell, t * cell + cell)`. -/
theorem lane_eq_iff_of_lt (hc : 0 < cell) {t r : ℕ} (hr : r < k * cell) :
    lane k cell r = t ↔ t * cell ≤ r ∧ r < t * cell + cell := by
  unfold lane
  rw [Nat.mod_eq_of_lt hr, Nat.div_eq_iff hc]
  omega

/-- The partial stripe: below `r ≤ k * cell`, lane `t` has `min cell (r - t * cell)`
positions. -/
theorem count_lane_of_le (hc : 0 < cell) {t r : ℕ} (hr : r ≤ k * cell) :
    Nat.count (fun x => lane k cell x = t) r = min cell (r - t * cell) := by
  induction r with
  | zero => simp
  | succ r ih =>
    rw [Nat.count_succ, ih (by omega)]
    have hlane := lane_eq_iff_of_lt (t := t) hc (show r < k * cell by omega)
    by_cases h : lane k cell r = t
    · rw [if_pos h]
      have := hlane.mp h
      omega
    · rw [if_neg h]
      have : ¬ (t * cell ≤ r ∧ r < t * cell + cell) := fun h' => h (hlane.mpr h')
      omega

/-- Each whole stripe holds exactly one cell of lane `t`. -/
theorem count_lane_stripes (hc : 0 < cell) {t : ℕ} (ht : t < k) (q : ℕ) :
    Nat.count (fun x => lane k cell x = t) (q * (k * cell)) = q * cell := by
  induction q with
  | zero => simp
  | succ q ih =>
    have hfull : min cell (k * cell - t * cell) = cell := by
      have : (t + 1) * cell ≤ k * cell := Nat.mul_le_mul_right cell ht
      rw [Nat.add_mul] at this
      omega
    rw [Nat.succ_mul, Nat.count_add, ih]
    simp only [lane_add_stripes]
    rw [count_lane_of_le hc le_rfl, hfull, Nat.succ_mul]

/-- **The closed form of a lane's count**: below `y`, lane `t` has `laneRank k cell t y`
positions. -/
theorem count_lane (hc : 0 < cell) {t : ℕ} (ht : t < k) (y : ℕ) :
    Nat.count (fun x => lane k cell x = t) y = laneRank k cell t y := by
  have hk : 0 < k * cell := Nat.mul_pos (by omega) hc
  have hy : y = y / (k * cell) * (k * cell) + y % (k * cell) := (Nat.div_add_mod' y _).symm
  unfold laneRank
  conv_lhs => rw [hy]
  rw [Nat.count_add, count_lane_stripes hc ht]
  simp only [lane_add_stripes]
  rw [count_lane_of_le hc (Nat.mod_lt y hk).le]

/-- For a position of lane `t`, the count of lane `t` below it is its lane index: the lane
index enumerates the lane in order, with no gap. -/
theorem laneRank_of_lane (hc : 0 < cell) {t x : ℕ} (hx : lane k cell x = t) :
    laneRank k cell t x = laneIndex k cell x := by
  unfold laneRank laneIndex
  have hsplit := @mod_stripe_eq k cell x
  rw [hx] at hsplit
  have hlt : x % cell < cell := Nat.mod_lt x hc
  rw [hsplit]
  omega

/-- Moving forward inside one cell keeps the lane. -/
theorem lane_add_of_lt (hk : 0 < k) (hc : 0 < cell) {x j : ℕ} (hj : x % cell + j < cell) :
    lane k cell (x + j) = lane k cell x := by
  have hS : 0 < k * cell := Nat.mul_pos hk hc
  have hsplit := @mod_stripe_eq k cell x
  have hl : (lane k cell x + 1) * cell ≤ k * cell :=
    Nat.mul_le_mul_right cell (lane_lt hk hc x)
  rw [Nat.add_mul] at hl
  have hmod : (x + j) % (k * cell) = x % (k * cell) + j := by
    conv_lhs => rw [← Nat.div_add_mod' x (k * cell)]
    rw [Nat.add_assoc, Nat.mul_comm, Nat.mul_add_mod, Nat.mod_eq_of_lt (by omega)]
  unfold lane at hsplit hl ⊢
  rw [hmod, Nat.div_eq_iff hc]
  omega

/-- Every position is its stripe's start, plus its lane's cell, plus its offset in the
cell. -/
theorem eq_stripe_add (x : ℕ) :
    x = x / (k * cell) * (k * cell) + lane k cell x * cell + x % cell := by
  have h := Nat.div_add_mod' x (k * cell)
  rw [mod_stripe_eq] at h
  omega

/-- The position at offset `j` of cell `i` in stripe `q`: its lane and lane index. -/
theorem lane_block (hc : 0 < cell) {i j : ℕ} (hi : i < k) (hj : j < cell) (q : ℕ) :
    lane k cell (q * (k * cell) + i * cell + j) = i := by
  have hl : (i + 1) * cell ≤ k * cell := Nat.mul_le_mul_right cell hi
  rw [Nat.add_mul] at hl
  rw [Nat.add_assoc, lane_add_stripes, lane_eq_iff_of_lt hc (by omega)]
  omega

theorem mod_cell_block {i j : ℕ} (hj : j < cell) (q : ℕ) :
    (q * (k * cell) + i * cell + j) % cell = j := by
  rw [show q * (k * cell) + i * cell + j = (q * k + i) * cell + j by
    rw [Nat.add_mul, Nat.mul_assoc]]
  rw [Nat.mul_comm, Nat.mul_add_mod, Nat.mod_eq_of_lt hj]

theorem mod_stripe_block {i j : ℕ} (hi : i < k) (hj : j < cell) (q : ℕ) :
    (q * (k * cell) + i * cell + j) % (k * cell) = i * cell + j := by
  have hl : (i + 1) * cell ≤ k * cell := Nat.mul_le_mul_right cell hi
  rw [Nat.add_mul] at hl
  rw [Nat.add_assoc, Nat.mul_comm, Nat.mul_add_mod, Nat.mod_eq_of_lt (by omega)]

theorem div_stripe_block {i j : ℕ} (hi : i < k) (hj : j < cell) (q : ℕ) :
    (q * (k * cell) + i * cell + j) / (k * cell) = q := by
  have hl : (i + 1) * cell ≤ k * cell := Nat.mul_le_mul_right cell hi
  rw [Nat.add_mul] at hl
  rw [Nat.div_eq_iff (by omega)]
  omega

theorem laneIndex_block {i j : ℕ} (hi : i < k) (hj : j < cell) (q : ℕ) :
    laneIndex k cell (q * (k * cell) + i * cell + j) = q * cell + j := by
  unfold laneIndex
  rw [div_stripe_block hi hj, mod_cell_block hj]

/-- The position at index `v` of lane `t`: the stripe `v` falls in, the lane's cell in it,
and the offset inside the cell. It undoes `lane` and `laneIndex`. -/
def laneOf (k cell t v : ℕ) : ℕ := v / cell * (k * cell) + t * cell + v % cell

theorem lane_laneOf (hc : 0 < cell) {t : ℕ} (ht : t < k) (v : ℕ) :
    lane k cell (laneOf k cell t v) = t :=
  lane_block hc ht (Nat.mod_lt v hc) (v / cell)

theorem laneIndex_laneOf (hc : 0 < cell) {t : ℕ} (ht : t < k) (v : ℕ) :
    laneIndex k cell (laneOf k cell t v) = v := by
  unfold laneOf
  rw [laneIndex_block ht (Nat.mod_lt v hc), Nat.div_add_mod']

/-- A position is found again from its lane and its index on the lane. -/
theorem laneOf_lane_laneIndex (hc : 0 < cell) (x : ℕ) :
    laneOf k cell (lane k cell x) (laneIndex k cell x) = x := by
  have hmod : x % cell < cell := Nat.mod_lt x hc
  -- the lane index keeps the stripe as its quotient by the cell and the offset as remainder
  have hdiv : laneIndex k cell x / cell = x / (k * cell) := by
    unfold laneIndex
    rw [Nat.mul_comm, Nat.mul_add_div hc, Nat.div_eq_of_lt hmod, Nat.add_zero]
  have hrem : laneIndex k cell x % cell = x % cell := by
    unfold laneIndex
    rw [Nat.mul_comm, Nat.mul_add_mod, Nat.mod_eq_of_lt hmod]
  unfold laneOf
  rw [hdiv, hrem]
  exact (eq_stripe_add x).symm

/-- Inside one cell, `laneOf` moves positions by a constant. -/
theorem laneOf_add_of_div_eq {t v j : ℕ} (h : (v + j) / cell = v / cell) :
    laneOf k cell t (v + j) = laneOf k cell t v + j := by
  have hv := Nat.div_add_mod' v cell
  have hvj := Nat.div_add_mod' (v + j) cell
  rw [h] at hvj
  unfold laneOf
  rw [h]
  omega

/-- Along one lane, `laneOf` keeps the order of indices: a later cell of the lane lies a whole
stripe later. -/
theorem laneOf_mono (hc : 0 < cell) {t : ℕ} (ht : t < k) {v w : ℕ} (hvw : v ≤ w) :
    laneOf k cell t v ≤ laneOf k cell t w := by
  have hq : v / cell ≤ w / cell := Nat.div_le_div_right hvw
  rcases Nat.lt_or_eq_of_le hq with hlt | heq
  · have hlanes : (t + 1) * cell ≤ k * cell := Nat.mul_le_mul_right _ ht
    have hstripe : (v / cell + 1) * (k * cell) ≤ w / cell * (k * cell) :=
      Nat.mul_le_mul_right _ hlt
    have hmod := Nat.mod_lt v hc
    rw [Nat.succ_mul] at hlanes hstripe
    unfold laneOf
    omega
  · have hv := Nat.div_add_mod' v cell
    have hw := Nat.div_add_mod' w cell
    rw [heq] at hv
    unfold laneOf
    rw [heq]
    omega

/-- The count of lane `t` at a position of stripe `q`, read off its offset `r` in the
stripe. -/
theorem laneRank_block {t r : ℕ} (hr : r < k * cell) (q : ℕ) :
    laneRank k cell t (q * (k * cell) + r) = q * cell + min cell (r - t * cell) := by
  have hdiv : (q * (k * cell) + r) / (k * cell) = q := by
    rw [Nat.div_eq_iff (by omega)]
    omega
  have hmod : (q * (k * cell) + r) % (k * cell) = r := by
    rw [Nat.mul_comm, Nat.mul_add_mod, Nat.mod_eq_of_lt hr]
  unfold laneRank
  rw [hdiv, hmod]

/-- The count of lane `t` grows by one exactly at the positions of lane `t`. -/
theorem laneRank_succ (hc : 0 < cell) {t : ℕ} (ht : t < k) (y : ℕ) :
    laneRank k cell t (y + 1) = laneRank k cell t y + if lane k cell y = t then 1 else 0 := by
  rw [← count_lane hc ht, ← count_lane hc ht, Nat.count_succ]

theorem laneRank_mono (hc : 0 < cell) {t : ℕ} (ht : t < k) {a b : ℕ} (hab : a ≤ b) :
    laneRank k cell t a ≤ laneRank k cell t b := by
  rw [← count_lane hc ht, ← count_lane hc ht]
  exact Nat.count_monotone _ hab

/-- Inside one cell, lane `t`'s count moves with the position when the cell is lane `t`'s,
and stands still otherwise. -/
theorem laneRank_add_of_le (hk : 0 < k) (hc : 0 < cell) {t : ℕ} (ht : t < k) {x n : ℕ}
    (hn : x % cell + n ≤ cell) :
    laneRank k cell t (x + n) = laneRank k cell t x + if lane k cell x = t then n else 0 := by
  induction n with
  | zero => simp
  | succ n ih =>
    rw [← Nat.add_assoc, laneRank_succ hc ht, ih (by omega),
      lane_add_of_lt hk hc (show x % cell + n < cell by omega)]
    split_ifs <;> omega

/-- **The lane interval.** The records of `[a, a + n)` on lane `t` have, as their lane
indices, exactly the interval `[laneRank a, laneRank (a + n))`, each index once: the number
of them with lane index `v` is one on that interval and zero off it. -/
theorem countP_lane_eq (hc : 0 < cell) {t : ℕ} (ht : t < k) (a n v : ℕ) :
    (List.range' a n).countP (fun x => decide (lane k cell x = t ∧ laneIndex k cell x = v)) =
      if laneRank k cell t a ≤ v ∧ v < laneRank k cell t (a + n) then 1 else 0 := by
  induction n with
  | zero => simp
  | succ n ih =>
    -- the last record `a + n` is hit exactly when it is on lane `t` at index `v`
    have hmono := laneRank_mono (t := t) hc ht (show a ≤ a + n by omega)
    rw [List.range'_concat, Nat.one_mul, List.countP_append, ih, ← Nat.add_assoc,
      laneRank_succ hc ht]
    by_cases hl : lane k cell (a + n) = t
    · have hidx := laneRank_of_lane hc hl
      have hlast : [a + n].countP (fun x => decide (lane k cell x = t ∧ laneIndex k cell x = v)) =
          if laneRank k cell t (a + n) = v then 1 else 0 := by
        rw [List.countP_singleton, hidx]
        simp [hl]
      rw [hlast, if_pos hl]
      split_ifs <;> omega
    · simp [hl]

end Lanes

end Stripe

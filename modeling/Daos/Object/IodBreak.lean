import Daos.Object.EcLayout

/-!
# Breaking VOS extents at cell boundaries — `obj_iod_break` (`object/obj_ec.h`)

A data target of an EC object stores the records of its cells one after the other, so one VOS
extent on the target can stand for several DAOS extents that are not contiguous: one piece in
each cell it touches. Before `obj_iod_recx_vos2daos` maps the VOS extents of an iod back to DAOS
indices, `obj_iod_break` cuts every recx at the cell boundaries: `obj_ec_recx_cell_nr` counts
the cells the recx touches, and a recx that touches more than one is replaced, in place, by its
first partial cell, the full cells after it and the partial last one. The loop runs over the
growing recx array by index and steps over the pieces it has just inserted.

**What is proved.** The index loop is a `flatMap` of the per-recx break (`objIodBreak_eq`), for
any recxs whose count is not 0. When the number of cells a recx touches fits the `uint32_t`
that `obj_ec_recx_cell_nr` returns, that count is `(rx_idx + rx_nr - 1) / len - rx_idx / len + 1`
(`objEcRecxCellNr_toNat`) and the recx breaks into that many pieces, each inside one cell, that
together are its records in order (`breakRecx_partition`). So `obj_iod_break` partitions every
recx and keeps the others in order (`objIodBreak_partition`), and `obj_iod_recx_vos2daos` maps
each piece to the DAOS extent of its records (`objIodRecxVos2daos_pieces`).

`objIodBreak_cells` puts these together. The count is computed in 64 bits and returned as 32,
so the theorems ask that a recx touch fewer than `2^32` cells. Every recx the code is given
does: a cell holds at least `DAOS_EC_CELL_MIN` records (`daos_ec_cs_valid` on the cell size
property), so `2^32` cells take more than `2^43` records, and `obj_iod_sgl_valid` asks the user's
buffer to hold them all. Likewise a piece's DAOS index stays below `2^63`, the records a user
can address, and `obj_ec_idx_vos2daos` does not wrap.

**What is modelled, and how.** Record indices are `ℕ`: for `rx_idx + rx_nr ≤ 2^63` no
`uint64_t` expression of `obj_ec_recx_cell_nr` or of the break wraps. The DAOS index
`obj_ec_idx_vos2daos` computes is taken modulo `2^64`, as its `uint64_t` arithmetic takes it. The
recx array is a list and `iod_nr` its length; a failed `D_ASSERT` is `none`, and the allocation
failure `-DER_NOMEM` is not modelled. The inner `D_ASSERT` that every piece after the first
starts on a cell boundary always holds (`objIodBreakRest_partition`) and is left out.
-/

namespace Daos.Object

/-- `daos_iod_type_t`. -/
inductive DaosIodType where
  | none
  | single
  | array
deriving DecidableEq, Repr

/-- The part of `daos_iod_t` these functions read: its type and its recx array. -/
structure DaosIod where
  iodType : DaosIodType
  iodRecxs : List DaosRecx
deriving DecidableEq, Repr

/-- `PARITY_INDICATOR`: the top bit of a VOS index marks a parity extent. -/
def parityIndicator : ℕ := 2 ^ 63

/-- `obj_ec_recx_cell_nr`: the number of cells the recx touches, computed in `uint64_t` and
returned as `uint32_t`. -/
def objEcRecxCellNr (recx : DaosRecx) (oca : DaosEcAttr) : UInt32 :=
  let recxEnd := recx.rxIdx + recx.rxNr
  let start := roundup recx.rxIdx (objEcCellRecNr oca)
  let end_ := rounddown recxEnd (objEcCellRecNr oca)
  if start > end_ then 1
  else
    UInt32.ofNat ((end_ - start) / objEcCellRecNr oca +
      (if recx.rxIdx % objEcCellRecNr oca ≠ 0 then 1 else 0) +
      (if recxEnd % objEcCellRecNr oca ≠ 0 then 1 else 0))

/-- The pieces `j ≥ 1` of the inner loop of `obj_iod_break`: `n` of them from `idx` on, each
starting where the last one ended, full cells but the last, which takes the `recNr` records
left. -/
def objIodBreakRest (cellSize : ℕ) : ℕ → ℕ → ℕ → List DaosRecx
  | 0, _, _ => []
  | 1, idx, recNr => [⟨idx, recNr⟩]
  | n + 2, idx, recNr =>
    ⟨idx, cellSize⟩ :: objIodBreakRest cellSize (n + 1) (idx + cellSize) (recNr - cellSize)

/-- The inner loop of `obj_iod_break`: the recx cut into `stripeNr` pieces, the first up to the
end of its cell. -/
def objIodBreakPieces (cellSize : ℕ) (recx : DaosRecx) (stripeNr : ℕ) : List DaosRecx :=
  let first : DaosRecx := ⟨recx.rxIdx, cellSize - recx.rxIdx % cellSize⟩
  first :: objIodBreakRest cellSize (stripeNr - 1) (first.rxIdx + first.rxNr)
    (recx.rxNr - first.rxNr)

/-- The loop of `obj_iod_break` from index `i` of the recx array, with `fuel` rounds. A recx
broken into `stripe_nr` pieces is replaced by them, and the loop goes on after the last. -/
def objIodBreakLoop (oca : DaosEcAttr) : ℕ → List DaosRecx → ℕ → Option (List DaosRecx)
  | 0, recxs, _ => some recxs
  | fuel + 1, recxs, i =>
    match recxs[i]? with
    | none => some recxs
    | some recx =>
      let stripeNr := (objEcRecxCellNr recx oca).toNat
      -- `D_ASSERT(stripe_nr >= 1)`
      if stripeNr < 1 then none
      else if stripeNr = 1 then objIodBreakLoop oca fuel recxs (i + 1)
      else
        let newRecx := recxs.take i ++ objIodBreakPieces (objEcCellRecNr oca) recx stripeNr ++
          recxs.drop (i + 1)
        objIodBreakLoop oca fuel newRecx (i + stripeNr)

/-- `obj_iod_break`. Each round consumes one recx of the original array, so as many rounds as
it has recxs run the loop to its end. -/
def objIodBreak (iodRecxs : List DaosRecx) (oca : DaosEcAttr) : Option (List DaosRecx) :=
  objIodBreakLoop oca iodRecxs.length iodRecxs 0

/-- `obj_iod_recx_vos2daos`: the recxs of every array iod broken at cell boundaries and mapped
from VOS indices on target `tgtIdx` to DAOS indices. -/
def objIodRecxVos2daos (iods : List DaosIod) (tgtIdx : ℕ) (oca : DaosEcAttr) :
    Option (List DaosIod) :=
  iods.mapM fun iod =>
    if iod.iodType = .single then some iod
    else do
      let recxs ← objIodBreak iod.iodRecxs oca
      -- `D_ASSERT((recx->rx_idx & PARITY_INDICATOR) == 0)`
      if recxs.any (fun recx => recx.rxIdx &&& parityIndicator != 0) then none
      else
        some { iod with
          iodRecxs := recxs.map fun recx => { recx with
            rxIdx := objEcIdxVos2daos recx.rxIdx (objEcStripeRecNr oca) (objEcCellRecNr oca)
              tgtIdx % 2 ^ 64 } }

/-! ## The loop is a `flatMap` -/

/-- What the loop does to one recx: keep it when it touches one cell, or else put its pieces in
its place. -/
def breakRecx (oca : DaosEcAttr) (recx : DaosRecx) : List DaosRecx :=
  if (objEcRecxCellNr recx oca).toNat = 1 then [recx]
  else objIodBreakPieces (objEcCellRecNr oca) recx (objEcRecxCellNr recx oca).toNat

theorem length_objIodBreakRest (cellSize n idx recNr : ℕ) :
    (objIodBreakRest cellSize n idx recNr).length = n := by
  induction n, idx, recNr using objIodBreakRest.induct cellSize with
  | case1 => rfl
  | case2 => rfl
  | case3 n idx recNr ih => simp [objIodBreakRest, ih]

theorem length_objIodBreakPieces (cellSize : ℕ) (recx : DaosRecx) {stripeNr : ℕ}
    (hs : 1 ≤ stripeNr) : (objIodBreakPieces cellSize recx stripeNr).length = stripeNr := by
  simp only [objIodBreakPieces, List.length_cons, length_objIodBreakRest]
  omega

/-- The loop from the first recx not yet visited: the recxs before it are final, and each recx
from it on is replaced by its break. By induction on the recxs not yet visited; a round visits
one of them, whether it is kept or broken. -/
theorem objIodBreakLoop_eq (oca : DaosEcAttr) (done rest : List DaosRecx) {fuel : ℕ}
    (hfuel : rest.length ≤ fuel) (hnz : ∀ r ∈ rest, 1 ≤ (objEcRecxCellNr r oca).toNat) :
    objIodBreakLoop oca fuel (done ++ rest) done.length = some (done ++ rest.flatMap (breakRecx oca)) := by
  induction rest generalizing done fuel with
  | nil =>
    cases fuel with
    | zero => simp [objIodBreakLoop]
    | succ fuel => simp [objIodBreakLoop]
  | cons r rest ih =>
    obtain ⟨fuel, rfl⟩ : ∃ f, fuel = f + 1 := ⟨fuel - 1, by simp at hfuel; omega⟩
    have hr := hnz r List.mem_cons_self
    have hrest : ∀ r ∈ rest, 1 ≤ (objEcRecxCellNr r oca).toNat :=
      fun r' h => hnz r' (List.mem_cons_of_mem r h)
    have hfuel' : rest.length ≤ fuel := by simp at hfuel; omega
    simp only [objIodBreakLoop, List.getElem?_append_right (Nat.le_refl _), Nat.sub_self,
      List.getElem?_cons_zero, List.flatMap_cons]
    rw [if_neg (by omega)]
    by_cases hone : (objEcRecxCellNr r oca).toNat = 1
    · -- a recx in one cell is kept, and the loop moves to the next one
      rw [if_pos hone]
      have := ih (done ++ [r]) hfuel' hrest
      simp only [List.append_assoc, List.singleton_append, List.length_append,
        List.length_singleton] at this
      rw [this, breakRecx, if_pos hone]
      simp
    · -- the pieces take the recx's place, and the loop goes on after them
      rw [if_neg hone]
      have hlen := length_objIodBreakPieces (objEcCellRecNr oca) r hr
      have := ih (done ++ objIodBreakPieces (objEcCellRecNr oca) r (objEcRecxCellNr r oca).toNat)
        hfuel' hrest
      simp only [List.append_assoc, List.length_append, hlen] at this
      simp only [List.take_left']
      rw [breakRecx, if_neg hone]
      simpa using this

/-- `obj_iod_break` replaces every recx by its break, as long as no count is 0. -/
theorem objIodBreak_eq (oca : DaosEcAttr) (recxs : List DaosRecx)
    (hnz : ∀ r ∈ recxs, 1 ≤ (objEcRecxCellNr r oca).toNat) :
    objIodBreak recxs oca = some (recxs.flatMap (breakRecx oca)) := by
  simpa [objIodBreak] using objIodBreakLoop_eq oca [] recxs (Nat.le_refl _) hnz

/-! ## Cells -/

/-- The records a list of recxs names, in order. -/
def recxRecords (l : List DaosRecx) : List ℕ := l.flatMap fun r => List.range' r.rxIdx r.rxNr

@[simp]
theorem recxRecords_nil : recxRecords [] = [] := rfl

@[simp]
theorem recxRecords_cons (r : DaosRecx) (l : List DaosRecx) :
    recxRecords (r :: l) = List.range' r.rxIdx r.rxNr ++ recxRecords l := rfl

/-- The number of cells of `len` records that the recx's records touch. -/
def recxCellSpan (len : ℕ) (recx : DaosRecx) : ℕ :=
  (recx.rxIdx + recx.rxNr - 1) / len - recx.rxIdx / len + 1

/-- A recx of at least one record, all inside one cell of `len` records. -/
def InCell (len : ℕ) (recx : DaosRecx) : Prop :=
  1 ≤ recx.rxNr ∧ recx.rxIdx / len = (recx.rxIdx + recx.rxNr - 1) / len

instance (len : ℕ) (recx : DaosRecx) : Decidable (InCell len recx) :=
  inferInstanceAs (Decidable (_ ∧ _))

/-- `pieces` partition `recx` at the cell boundaries: one piece in each cell it touches, in order,
which together are its records. -/
structure CellPartition (len : ℕ) (recx : DaosRecx) (pieces : List DaosRecx) : Prop where
  length_eq : pieces.length = recxCellSpan len recx
  records : recxRecords pieces = List.range' recx.rxIdx recx.rxNr
  inCell : ∀ p ∈ pieces, InCell len p

section Cells

variable {len : ℕ}

/-- A recx that does not reach past the end of its cell is inside it. -/
theorem inCell_of_mod_add_le (hlen : 0 < len) {idx nr : ℕ} (hnr : 1 ≤ nr)
    (h : idx % len + nr ≤ len) : InCell len ⟨idx, nr⟩ := by
  refine ⟨hnr, ?_⟩
  have hsplit : idx + nr - 1 = idx % len + (nr - 1) + len * (idx / len) := by
    have := Nat.div_add_mod idx len
    omega
  have hzero : (idx % len + (nr - 1)) / len = 0 := Nat.div_eq_of_lt (by omega)
  show idx / len = (idx + nr - 1) / len
  rw [hsplit, Nat.add_mul_div_left _ _ hlen, hzero, Nat.zero_add]

/-- `roundup` to a multiple of `len`: the quotient, plus one if there is a remainder. -/
theorem roundup_eq_ceil (hlen : 0 < len) (x : ℕ) :
    roundup x len = (x / len + if x % len = 0 then 0 else 1) * len := by
  split
  · rename_i hzero
    have hsplit : x + (len - 1) = len - 1 + len * (x / len) := by
      have := Nat.div_add_mod x len
      omega
    unfold roundup
    rw [hsplit, Nat.add_mul_div_left _ _ hlen, Nat.div_eq_of_lt (by omega), Nat.zero_add,
      Nat.add_zero]
  · rename_i hpos
    exact roundup_of_mod_pos (Nat.pos_of_ne_zero hpos)

/-- The cell of the record before `x`. -/
theorem pred_div (hlen : 0 < len) {x : ℕ} (hx : 1 ≤ x) :
    (x - 1) / len = if x % len = 0 then x / len - 1 else x / len := by
  have hdiv := Nat.div_add_mod x len
  have hmod := Nat.mod_lt x hlen
  split
  · rename_i hzero
    have hq : 1 ≤ x / len := by
      rcases Nat.eq_zero_or_pos (x / len) with h | h
      · rw [h, hzero] at hdiv
        omega
      · exact h
    have hsplit : x - 1 = len - 1 + len * (x / len - 1) := by
      have : len * (x / len - 1) + len = len * (x / len) := by
        rw [← Nat.mul_add_one, Nat.sub_add_cancel hq]
      omega
    rw [hsplit, Nat.add_mul_div_left _ _ hlen, Nat.div_eq_of_lt (by omega), Nat.zero_add]
  · rename_i hpos
    have hsplit : x - 1 = x % len - 1 + len * (x / len) := by omega
    rw [hsplit, Nat.add_mul_div_left _ _ hlen, Nat.div_eq_of_lt (by omega), Nat.zero_add]

/-- The count `obj_ec_recx_cell_nr` computes before it returns it: the cells strictly inside the
recx, and one more for each partial cell at its ends. By cases on the two ends: a recx that
starts and ends inside one cell is the case where `roundup` of its start passes `rounddown` of
its end. -/
theorem cellNr_eq_span (hlen : 0 < len) {idx nr : ℕ} (hnr : 1 ≤ nr) :
    (if roundup idx len > rounddown (idx + nr) len then 1
      else (rounddown (idx + nr) len - roundup idx len) / len +
        (if idx % len ≠ 0 then 1 else 0) + (if (idx + nr) % len ≠ 0 then 1 else 0)) =
      recxCellSpan len ⟨idx, nr⟩ := by
  have ha := Nat.div_add_mod' idx len
  have hE := Nat.div_add_mod' (idx + nr) len
  have hra := Nat.mod_lt idx hlen
  have hre := Nat.mod_lt (idx + nr) hlen
  have hqle : idx / len ≤ (idx + nr) / len := Nat.div_le_div_right (by omega)
  have hcells : ∀ q, (idx + nr) / len * len - q * len = ((idx + nr) / len - q) * len :=
    fun q => (Nat.sub_mul _ _ _).symm
  have hsucc : (idx / len + 1) * len = idx / len * len + len := Nat.succ_mul _ _
  unfold recxCellSpan
  dsimp only
  rw [roundup_eq_ceil hlen, rounddown, pred_div hlen (by omega)]
  by_cases hra0 : idx % len = 0 <;> by_cases hre0 : (idx + nr) % len = 0
  · -- both ends on a boundary: whole cells only, and at least one
    have hlt : idx / len < (idx + nr) / len := by
      by_contra hge
      have heq : idx / len = (idx + nr) / len := by omega
      rw [← heq] at hE
      omega
    simp only [hra0, hre0, if_true, ne_eq, not_true_eq_false, if_false, Nat.add_zero]
    rw [if_neg (by rw [gt_iff_lt, Nat.mul_lt_mul_right hlen]; omega), hcells,
      Nat.mul_div_cancel _ hlen]
    omega
  · -- a partial cell at the end only
    simp only [hra0, hre0, if_true, ne_eq, not_true_eq_false, not_false_eq_true, if_false,
      Nat.add_zero]
    rw [if_neg (by rw [gt_iff_lt, Nat.mul_lt_mul_right hlen]; omega), hcells,
      Nat.mul_div_cancel _ hlen]
  · -- a partial cell at the start only: the end is on a later boundary
    have hlt : idx / len < (idx + nr) / len := by
      by_contra hge
      have heq : idx / len = (idx + nr) / len := by omega
      rw [← heq] at hE
      omega
    simp only [hra0, hre0, if_true, ne_eq, not_true_eq_false, not_false_eq_true, if_false,
      Nat.add_zero]
    rw [if_neg (by rw [gt_iff_lt, Nat.mul_lt_mul_right hlen]; omega), hcells,
      Nat.mul_div_cancel _ hlen]
    omega
  · -- partial cells at both ends, which may be one cell
    simp only [hra0, hre0, ne_eq, not_false_eq_true, if_true, if_false]
    split
    · rename_i hgt
      rw [gt_iff_lt, Nat.mul_lt_mul_right hlen] at hgt
      omega
    · rename_i hle
      rw [gt_iff_lt, Nat.mul_lt_mul_right hlen] at hle
      rw [hcells, Nat.mul_div_cancel _ hlen]
      omega

end Cells

/-- The pieces after the first: from a cell boundary, `m` full cells and a last piece of the
`recNr - m * len` records left, at least one and at most a cell. Every piece starts on a cell
boundary, as the inner `D_ASSERT` of `obj_iod_break` checks. By induction on `m`. -/
theorem objIodBreakRest_partition (hlen : 0 < len) (m : ℕ) {idx recNr : ℕ}
    (hidx : idx % len = 0) (hlo : m * len < recNr) (hhi : recNr ≤ (m + 1) * len) :
    recxRecords (objIodBreakRest len (m + 1) idx recNr) = List.range' idx recNr ∧
      ∀ p ∈ objIodBreakRest len (m + 1) idx recNr, p.rxIdx % len = 0 ∧ InCell len p := by
  induction m generalizing idx recNr with
  | zero =>
    -- the last piece: what is left, inside the cell at `idx`
    refine ⟨by simp [objIodBreakRest], ?_⟩
    simp only [objIodBreakRest, List.mem_singleton, forall_eq]
    exact ⟨hidx, inCell_of_mod_add_le hlen (by omega) (by rw [hidx]; omega)⟩
  | succ m ih =>
    -- a full cell at `idx`, and the rest from the next boundary
    simp only [Nat.add_mul, Nat.one_mul] at hlo hhi
    have halign : (idx + len) % len = 0 := by rw [Nat.add_mod_right]; exact hidx
    have hlo' : m * len < recNr - len := by omega
    have hhi' : recNr - len ≤ (m + 1) * len := by rw [Nat.add_mul, Nat.one_mul]; omega
    obtain ⟨hrec, hpieces⟩ := ih halign hlo' hhi'
    have hlen_le : len ≤ recNr := by omega
    simp only [objIodBreakRest, recxRecords_cons, List.mem_cons, forall_eq_or_imp]
    refine ⟨?_, ⟨hidx, inCell_of_mod_add_le hlen hlen (by rw [hidx]; omega)⟩, hpieces⟩
    rw [hrec, List.range'_append_1, Nat.add_sub_cancel' hlen_le]

/-- A recx touching two cells or more breaks, at `obj_ec_recx_cell_nr` pieces, into its first
partial cell, the full cells after it and the partial last one. -/
theorem objIodBreakPieces_partition (hlen : 0 < len) {recx : DaosRecx} (hnr : 1 ≤ recx.rxNr)
    (hspan : 2 ≤ recxCellSpan len recx) :
    CellPartition len recx (objIodBreakPieces len recx (recxCellSpan len recx)) := by
  obtain ⟨idx, nr⟩ := recx
  dsimp only at hnr
  have hspan2 : 2 ≤ (idx + nr - 1) / len - idx / len + 1 := hspan
  have ha := Nat.div_add_mod' idx len
  have hl := Nat.div_add_mod' (idx + nr - 1) len
  have hra := Nat.mod_lt idx hlen
  have hrl := Nat.mod_lt (idx + nr - 1) hlen
  -- `m + 1` pieces follow the first: the cells after the first one, up to the last record's
  set m := (idx + nr - 1) / len - idx / len - 1 with hmdef
  have hspan' : recxCellSpan len ⟨idx, nr⟩ - 1 = m + 1 := by
    show (idx + nr - 1) / len - idx / len + 1 - 1 = m + 1
    omega
  have hnext : (idx / len + 1) * len = idx / len * len + len := Nat.succ_mul _ _
  have hmcells : m * len + (idx / len + 1) * len = (idx + nr - 1) / len * len := by
    rw [← Nat.add_mul]
    congr 1
    omega
  have hmnext : (m + 1) * len = m * len + len := Nat.succ_mul _ _
  have hfirst : len - idx % len ≤ nr := by omega
  have halign : (idx + (len - idx % len)) % len = 0 := by
    rw [show idx + (len - idx % len) = (idx / len + 1) * len by omega, Nat.mul_mod_left]
  have hlo : m * len < nr - (len - idx % len) := by omega
  have hhi : nr - (len - idx % len) ≤ (m + 1) * len := by omega
  obtain ⟨hrec, hpieces⟩ := objIodBreakRest_partition hlen m halign hlo hhi
  refine ⟨length_objIodBreakPieces len _ (by omega), ?_, ?_⟩
  · simp only [objIodBreakPieces, recxRecords_cons, hspan']
    rw [hrec, List.range'_append_1, Nat.add_sub_cancel' hfirst]
  · simp only [objIodBreakPieces, hspan', List.mem_cons, forall_eq_or_imp]
    exact ⟨inCell_of_mod_add_le hlen (by omega) (by omega), fun p hp => (hpieces p hp).2⟩

/-- When the cells a recx touches fit the `uint32_t` it is returned as, `obj_ec_recx_cell_nr`
counts them. -/
theorem objEcRecxCellNr_toNat (oca : EcClass) {recx : DaosRecx} (hnr : 1 ≤ recx.rxNr)
    (hfit : recxCellSpan (objEcCellRecNr oca.attr) recx < 2 ^ 32) :
    (objEcRecxCellNr recx oca.attr).toNat = recxCellSpan (objEcCellRecNr oca.attr) recx := by
  have hlen : 0 < objEcCellRecNr oca.attr := oca.len_pos
  have hspan := @cellNr_eq_span (objEcCellRecNr oca.attr) hlen recx.rxIdx recx.rxNr hnr
  unfold objEcRecxCellNr
  dsimp only
  split
  · rename_i hgt
    rw [if_pos hgt] at hspan
    rw [← hspan]
    rfl
  · rename_i hle
    rw [if_neg hle] at hspan
    rw [UInt32.toNat_ofNat', hspan]
    exact Nat.mod_eq_of_lt hfit

/-- Each recx with a record, touching fewer than `2^32` cells, breaks at the cell
boundaries. -/
theorem breakRecx_partition (oca : EcClass) {recx : DaosRecx} (hnr : 1 ≤ recx.rxNr)
    (hfit : recxCellSpan (objEcCellRecNr oca.attr) recx < 2 ^ 32) :
    CellPartition (objEcCellRecNr oca.attr) recx (breakRecx oca.attr recx) := by
  have hcount := objEcRecxCellNr_toNat oca hnr hfit
  unfold breakRecx
  rw [hcount]
  split
  · -- one cell: the recx is its own piece
    rename_i hone
    have hmono : recx.rxIdx / objEcCellRecNr oca.attr ≤
        (recx.rxIdx + recx.rxNr - 1) / objEcCellRecNr oca.attr := Nat.div_le_div_right (by omega)
    refine ⟨by rw [hone]; rfl, by simp, ?_⟩
    simp only [List.mem_singleton, forall_eq]
    exact ⟨hnr, by unfold recxCellSpan at hone; omega⟩
  · rename_i hmore
    have hlen : 0 < objEcCellRecNr oca.attr := oca.len_pos
    exact objIodBreakPieces_partition hlen hnr (by unfold recxCellSpan at hmore ⊢; omega)

/-- `obj_iod_break` replaces every recx by its pieces at the cell boundaries, in place and in
order, as long as every recx has a record and touches fewer than `2^32` cells. -/
theorem objIodBreak_partition (oca : EcClass) (recxs : List DaosRecx)
    (hrecxs : ∀ r ∈ recxs, 1 ≤ r.rxNr ∧ recxCellSpan (objEcCellRecNr oca.attr) r < 2 ^ 32) :
    objIodBreak recxs oca.attr = some (recxs.flatMap (breakRecx oca.attr)) ∧
      ∀ r ∈ recxs, CellPartition (objEcCellRecNr oca.attr) r (breakRecx oca.attr r) := by
  refine ⟨objIodBreak_eq oca.attr recxs fun r hr => ?_, fun r hr =>
    breakRecx_partition oca (hrecxs r hr).1 (hrecxs r hr).2⟩
  rw [objEcRecxCellNr_toNat oca (hrecxs r hr).1 (hrecxs r hr).2]
  unfold recxCellSpan
  omega

/- Records `[5, 25)` of eight-record cells break into a partial cell, two full ones and one
record; the recx `[30, 32)` is inside one cell and stays. -/
example : objIodBreak [⟨5, 20⟩, ⟨30, 2⟩] ecClass4p2.attr =
    some [⟨5, 3⟩, ⟨8, 8⟩, ⟨16, 8⟩, ⟨24, 1⟩, ⟨30, 2⟩] := by
  decide

/-! ## Back to DAOS indices -/

/-- Inside one cell, `obj_ec_idx_vos2daos` moves records by a constant: the records of a piece
are one DAOS extent of the same length. -/
theorem objEcIdxVos2daos_range' {k len : ℕ} {p : DaosRecx} (hp : InCell len p) (t : ℕ) :
    (List.range' p.rxIdx p.rxNr).map (fun v => objEcIdxVos2daos v (k * len) len t) =
      List.range' (objEcIdxVos2daos p.rxIdx (k * len) len t) p.rxNr := by
  apply List.ext_getElem (by simp)
  intro i hmap hrange
  have hi : i < p.rxNr := by simpa using hrange
  have hdiv : (p.rxIdx + i) / len = p.rxIdx / len := by
    apply le_antisymm
    · rw [hp.2]
      exact Nat.div_le_div_right (by omega)
    · exact Nat.div_le_div_right (by omega)
  simp only [List.getElem_map, List.getElem_range', Nat.one_mul]
  rw [objEcIdxVos2daos_eq_laneOf, objEcIdxVos2daos_eq_laneOf, Stripe.laneOf_add_of_div_eq hdiv]

/-- A list mapped through an `Option` function that succeeds on each element. -/
theorem mapM_eq_some_map {α β : Type} {f : α → Option β} {g : α → β} :
    ∀ {l : List α}, (∀ x ∈ l, f x = some (g x)) → l.mapM f = some (l.map g)
  | [], _ => rfl
  | x :: l, h => by
    rw [List.mapM_cons, h x List.mem_cons_self,
      mapM_eq_some_map fun y hy => h y (List.mem_cons_of_mem x hy)]
    rfl

/-- A VOS index below `2^63` does not have the parity bit. -/
theorem land_parityIndicator_of_lt {v : ℕ} (hv : v < 2 ^ 63) : v &&& parityIndicator = 0 := by
  apply Nat.eq_of_testBit_eq
  intro i
  simp only [parityIndicator, Nat.testBit_and, Nat.testBit_two_pow, Nat.zero_testBit]
  by_cases hi : i = 63
  · subst hi
    simp [Nat.testBit_lt_two_pow hv]
  · simp [Ne.symm hi]

/-- A piece of a recx's break lies inside one cell and inside the recx. -/
theorem breakRecx_piece (oca : EcClass) {r p : DaosRecx} (hnr : 1 ≤ r.rxNr)
    (hfit : recxCellSpan (objEcCellRecNr oca.attr) r < 2 ^ 32) (hp : p ∈ breakRecx oca.attr r) :
    InCell (objEcCellRecNr oca.attr) p ∧ r.rxIdx ≤ p.rxIdx ∧
      p.rxIdx + p.rxNr ≤ r.rxIdx + r.rxNr := by
  have hpart := breakRecx_partition oca hnr hfit
  have hin := hpart.inCell p hp
  have hone := hin.1
  -- the piece's records are among the recx's, its first and its last in particular
  have hmem : ∀ v ∈ List.range' p.rxIdx p.rxNr, v ∈ List.range' r.rxIdx r.rxNr := by
    intro v hv
    rw [← hpart.records]
    exact List.mem_flatMap.mpr ⟨p, hp, hv⟩
  have hfirst := List.mem_range'_1.mp (hmem p.rxIdx (List.mem_range'_1.mpr ⟨le_refl _, by omega⟩))
  have hlast := List.mem_range'_1.mp (hmem (p.rxIdx + p.rxNr - 1) (List.mem_range'_1.mpr
    ⟨by omega, by omega⟩))
  exact ⟨hin, hfirst.1, by omega⟩

/-- `obj_iod_recx_vos2daos` on iods whose recxs have a record, end by `2^63` and touch fewer
than `2^32` cells, on a data target whose DAOS indices stay below `2^64`: every array iod gets
the pieces of its recxs, each moved to the DAOS index of its first record, and the records of
each piece are one DAOS extent of its length. -/
theorem objIodRecxVos2daos_pieces (oca : EcClass) (iods : List DaosIod) {t : ℕ}
    (ht : t < objEcDataTgtNr oca.attr)
    (hrecxs : ∀ iod ∈ iods, iod.iodType ≠ .single → ∀ r ∈ iod.iodRecxs,
      1 ≤ r.rxNr ∧ r.rxIdx + r.rxNr ≤ 2 ^ 63 ∧
      recxCellSpan (objEcCellRecNr oca.attr) r < 2 ^ 32 ∧
      objEcIdxVos2daos (r.rxIdx + r.rxNr - 1) (objEcStripeRecNr oca.attr)
        (objEcCellRecNr oca.attr) t < 2 ^ 64) :
    objIodRecxVos2daos iods t oca.attr = some (iods.map fun iod =>
      if iod.iodType = .single then iod
      else { iod with iodRecxs := (iod.iodRecxs.flatMap (breakRecx oca.attr)).map fun p =>
        { p with
          rxIdx := objEcIdxVos2daos p.rxIdx (objEcStripeRecNr oca.attr) (objEcCellRecNr oca.attr) t } }) ∧
    ∀ iod ∈ iods, iod.iodType ≠ .single → ∀ r ∈ iod.iodRecxs, ∀ p ∈ breakRecx oca.attr r,
      (List.range' p.rxIdx p.rxNr).map (fun v =>
          objEcIdxVos2daos v (objEcStripeRecNr oca.attr) (objEcCellRecNr oca.attr) t) =
        List.range' (objEcIdxVos2daos p.rxIdx (objEcStripeRecNr oca.attr)
          (objEcCellRecNr oca.attr) t) p.rxNr := by
  have hlen : 0 < objEcCellRecNr oca.attr := oca.len_pos
  have hstripe := objEcStripeRecNr_eq oca
  refine ⟨mapM_eq_some_map fun iod hiod => ?_, ?_⟩
  · by_cases hsingle : iod.iodType = .single
    · simp [hsingle]
    have hrecx := hrecxs iod hiod hsingle
    have hbreak := (objIodBreak_partition oca iod.iodRecxs fun r hr =>
      ⟨(hrecx r hr).1, (hrecx r hr).2.2.1⟩).1
    -- no piece has the parity bit, and no piece's DAOS index wraps
    have hparity : (iod.iodRecxs.flatMap (breakRecx oca.attr)).any
        (fun recx => recx.rxIdx &&& parityIndicator != 0) = false := by
      rw [List.any_eq_false]
      intro p hp
      obtain ⟨r, hr, hpr⟩ := List.mem_flatMap.mp hp
      obtain ⟨hin, -, hend⟩ := breakRecx_piece oca (hrecx r hr).1 (hrecx r hr).2.2.1 hpr
      have hlt : p.rxIdx < 2 ^ 63 := by
        have := (hrecx r hr).2.1
        have := hin.1
        omega
      simp [land_parityIndicator_of_lt hlt]
    have hwrap : ∀ p ∈ iod.iodRecxs.flatMap (breakRecx oca.attr),
        objEcIdxVos2daos p.rxIdx (objEcStripeRecNr oca.attr) (objEcCellRecNr oca.attr) t %
          2 ^ 64 =
        objEcIdxVos2daos p.rxIdx (objEcStripeRecNr oca.attr) (objEcCellRecNr oca.attr) t := by
      intro p hp
      obtain ⟨r, hr, hpr⟩ := List.mem_flatMap.mp hp
      obtain ⟨hin, -, hend⟩ := breakRecx_piece oca (hrecx r hr).1 (hrecx r hr).2.2.1 hpr
      apply Nat.mod_eq_of_lt
      refine lt_of_le_of_lt ?_ (hrecx r hr).2.2.2
      rw [hstripe, objEcIdxVos2daos_eq_laneOf, objEcIdxVos2daos_eq_laneOf]
      exact Stripe.laneOf_mono hlen ht (by have := hin.1; omega)
    simp only [hsingle, if_false, hbreak, Option.bind_eq_bind, Option.bind_some, hparity,
      Bool.false_eq_true, Option.some.injEq, DaosIod.mk.injEq, true_and]
    exact List.map_congr_left fun p hp => by rw [hwrap p hp]
  · intro iod hiod harray r hr p hp
    obtain ⟨hnr, -, hfit, -⟩ := hrecxs iod hiod harray r hr
    rw [hstripe]
    exact objEcIdxVos2daos_range' (breakRecx_piece oca hnr hfit hp).1 t

/-- **`obj_iod_break` partitions every recx at the cell boundaries**, for iods whose recxs have a
record, end by `2^63` and touch fewer than `2^32` cells, on a data target where their DAOS indices
stay below `2^64`: every recx is replaced, in place and in order, by `obj_ec_recx_cell_nr(recx)`
pieces; that count is `(rx_idx + rx_nr - 1) / len - rx_idx / len + 1`; the pieces lie each in
one cell and together are the recx's records in order; and `obj_iod_recx_vos2daos` maps each
piece to the one DAOS extent of its records. -/
theorem objIodBreak_cells (oca : EcClass) (iods : List DaosIod) {t : ℕ}
    (ht : t < objEcDataTgtNr oca.attr)
    (hrecxs : ∀ iod ∈ iods, iod.iodType ≠ .single → ∀ r ∈ iod.iodRecxs,
      1 ≤ r.rxNr ∧ r.rxIdx + r.rxNr ≤ 2 ^ 63 ∧
      recxCellSpan (objEcCellRecNr oca.attr) r < 2 ^ 32 ∧
      objEcIdxVos2daos (r.rxIdx + r.rxNr - 1) (objEcStripeRecNr oca.attr)
        (objEcCellRecNr oca.attr) t < 2 ^ 64) :
    (∀ iod ∈ iods, iod.iodType ≠ .single →
      objIodBreak iod.iodRecxs oca.attr = some (iod.iodRecxs.flatMap (breakRecx oca.attr)) ∧
      ∀ r ∈ iod.iodRecxs,
        (objEcRecxCellNr r oca.attr).toNat = recxCellSpan (objEcCellRecNr oca.attr) r ∧
        CellPartition (objEcCellRecNr oca.attr) r (breakRecx oca.attr r)) ∧
    objIodRecxVos2daos iods t oca.attr = some (iods.map fun iod =>
      if iod.iodType = .single then iod
      else { iod with iodRecxs := (iod.iodRecxs.flatMap (breakRecx oca.attr)).map fun p =>
        { p with
          rxIdx := objEcIdxVos2daos p.rxIdx (objEcStripeRecNr oca.attr)
            (objEcCellRecNr oca.attr) t } }) ∧
    ∀ iod ∈ iods, iod.iodType ≠ .single → ∀ r ∈ iod.iodRecxs, ∀ p ∈ breakRecx oca.attr r,
      (List.range' p.rxIdx p.rxNr).map (fun v =>
          objEcIdxVos2daos v (objEcStripeRecNr oca.attr) (objEcCellRecNr oca.attr) t) =
        List.range' (objEcIdxVos2daos p.rxIdx (objEcStripeRecNr oca.attr)
          (objEcCellRecNr oca.attr) t) p.rxNr := by
  refine ⟨fun iod hiod hne => ?_, objIodRecxVos2daos_pieces oca iods ht hrecxs⟩
  -- the recxs of one array iod: its break, and each recx's count and pieces
  have hfit : ∀ r ∈ iod.iodRecxs, 1 ≤ r.rxNr ∧ recxCellSpan (objEcCellRecNr oca.attr) r < 2 ^ 32 :=
    fun r hr => ⟨(hrecxs iod hiod hne r hr).1, (hrecxs iod hiod hne r hr).2.2.1⟩
  refine ⟨(objIodBreak_partition oca iod.iodRecxs hfit).1, fun r hr => ?_⟩
  exact ⟨objEcRecxCellNr_toNat oca (hfit r hr).1 (hfit r hr).2,
    (objIodBreak_partition oca iod.iodRecxs hfit).2 r hr⟩

theorem objIodBreak_cells_4p2 :
    0 < objEcDataTgtNr ecClass4p2.attr ∧
      (∀ iod ∈ [DaosIod.mk .array [⟨5, 20⟩, ⟨30, 2⟩]], iod.iodType ≠ .single → ∀ r ∈ iod.iodRecxs,
        1 ≤ r.rxNr ∧ r.rxIdx + r.rxNr ≤ 2 ^ 63 ∧
        recxCellSpan (objEcCellRecNr ecClass4p2.attr) r < 2 ^ 32 ∧
        objEcIdxVos2daos (r.rxIdx + r.rxNr - 1) (objEcStripeRecNr ecClass4p2.attr)
          (objEcCellRecNr ecClass4p2.attr) 0 < 2 ^ 64) ∧
      objIodRecxVos2daos [⟨.array, [⟨5, 20⟩, ⟨30, 2⟩]⟩] 0 ecClass4p2.attr =
        some ([DaosIod.mk .array [⟨5, 20⟩, ⟨30, 2⟩]].map fun iod =>
          if iod.iodType = .single then iod
          else { iod with iodRecxs := (iod.iodRecxs.flatMap (breakRecx ecClass4p2.attr)).map fun p =>
            { p with
              rxIdx := objEcIdxVos2daos p.rxIdx (objEcStripeRecNr ecClass4p2.attr)
                (objEcCellRecNr ecClass4p2.attr) 0 } }) := by
  have hrecxs : ∀ iod ∈ [DaosIod.mk .array [⟨5, 20⟩, ⟨30, 2⟩]], iod.iodType ≠ .single →
      ∀ r ∈ iod.iodRecxs, 1 ≤ r.rxNr ∧ r.rxIdx + r.rxNr ≤ 2 ^ 63 ∧
        recxCellSpan (objEcCellRecNr ecClass4p2.attr) r < 2 ^ 32 ∧
        objEcIdxVos2daos (r.rxIdx + r.rxNr - 1) (objEcStripeRecNr ecClass4p2.attr)
          (objEcCellRecNr ecClass4p2.attr) 0 < 2 ^ 64 := by
    decide
  exact ⟨by decide, hrecxs, (objIodBreak_cells ecClass4p2 _ (by decide) hrecxs).2.1⟩

end Daos.Object

import Daos.Lib.Stripe

/-!
# Erasure-code record splitting — `ec_data_recx_add` (`object/cli_ec.c`)

An EC object of class `k+p` stores an array akey by cutting the DAOS record index line
into stripes of `k` cells of `e_len` records; cell `t` of every stripe lives on data
target `t`, at the VOS index `obj_ec_idx_daos2vos` gives it. When the client reassembles
an I/O it turns each user recx into, for every data target, the VOS recxs that target has
to read or write: `ec_data_recx_add` appends them to the target's slice of the reassembled
recx array (`r_recx`, `r_idx`, `start_idx`), merging a recx into the target's last one
when they touch (`ec_recx_add`).

It has two ways of doing so. A SMALL recx (`rx_nr ≤ S - e_len`, `S` the stripe) is walked
cell by cell. A LARGE one is done per target in closed form: each target's first and last
record, found with three-way case splits on the first and last target of the recx and with
stripe roundings, and a correction of the end at a cell boundary.

**What is proved** (`ecDataRecxAdd_exact`): for every EC class and every recx, after the
call the recxs of every data target `t` cover every VOS index exactly as often as before,
plus once for each index `obj_ec_idx_daos2vos x` of a record `x` of the recx on target `t`
— and `obj_ec_idx_daos2vos` is one to one on a target, so each such index is added once.
Both branches are proved against that one statement, the small one by its loop invariant
(`ecDataRecxAddCells_cover`), the large one target by target (`ecTgtRecx_eq`), so the two
paths agree.

The per-target index set is the library's lane interval (`Daos.Lib.Stripe`): the VOS
indices of target `t`'s records in `[a, b)` are exactly `[laneRank a, laneRank b)`.

**What is modelled, and how.** Record indices are `ℕ`. With `rx_idx + rx_nr` below `2^63`,
every `uint64_t` expression of the function stays below `2^64`, and the closed-form
subtraction `rounddown(end, S) - S` is taken only where it does not wrap (`ecTgtREnd`). The stripe length is the macro's `e_k * e_len`, a 32-bit
`unsigned int` product (`objEcStripeRecNr`); the class bounds `e_k ≤ OBJ_EC_MAX_K` and
`e_len ≤ DAOS_EC_CELL_MAX` (the cell size every pool and container property passes through
`daos_ec_cs_valid`) keep it below `2^32`, so it is the true product. The reassembled array
is one list of recxs per target: `start_idx` gives each target a private slice, sized by
the caller, so slices never meet and a target's slice is its list.
-/

namespace Daos.Object

/-- `daos_recx_t`: `rx_nr` records starting at index `rx_idx`. -/
structure DaosRecx where
  rxIdx : ℕ
  rxNr : ℕ
deriving DecidableEq, Repr

/-- `struct daos_ec_attr`, with the C field widths. -/
structure DaosEcAttr where
  eK : UInt16
  eP : UInt16
  eLen : UInt32
deriving DecidableEq, Repr

/-- `OBJ_EC_MAX_K`. -/
def objEcMaxK : ℕ := 64

/-- `DAOS_EC_CELL_MAX`, the largest cell `daos_ec_cs_valid` admits. -/
def daosEcCellMax : ℕ := 1024 * 2 ^ 10

/-- An EC class as the object layer meets it: `1 ≤ e_k ≤ OBJ_EC_MAX_K` data cells of
`1 ≤ e_len ≤ DAOS_EC_CELL_MAX` records. -/
structure EcClass where
  attr : DaosEcAttr
  k_pos : 1 ≤ attr.eK.toNat
  k_le : attr.eK.toNat ≤ objEcMaxK
  len_pos : 1 ≤ attr.eLen.toNat
  len_le : attr.eLen.toNat ≤ daosEcCellMax

/-- `obj_ec_stripe_rec_nr`: `e_k * e_len`, multiplied as the macro's C types multiply it,
in 32-bit `unsigned int`. -/
def objEcStripeRecNr (oca : DaosEcAttr) : ℕ := (oca.eK.toUInt32 * oca.eLen).toNat

/-- `obj_ec_cell_rec_nr`. -/
def objEcCellRecNr (oca : DaosEcAttr) : ℕ := oca.eLen.toNat

/-- `obj_ec_data_tgt_nr`. -/
def objEcDataTgtNr (oca : DaosEcAttr) : ℕ := oca.eK.toNat

/-- `obj_ec_parity_tgt_nr`. -/
def objEcParityTgtNr (oca : DaosEcAttr) : ℕ := oca.eP.toNat

/-- `obj_ec_tgt_of_recx_idx`: the data target of DAOS record index `idx`. -/
def objEcTgtOfRecxIdx (idx stripeRecNr eLen : ℕ) : ℕ := idx % stripeRecNr / eLen

/-- `obj_ec_idx_daos2vos`: the VOS index of DAOS record index `idx` on its data target. -/
def objEcIdxDaos2vos (idx stripeRecNr eLen : ℕ) : ℕ := idx / stripeRecNr * eLen + idx % eLen

/-- `roundup` of `daos/common.h`. -/
def roundup (x y : ℕ) : ℕ := (x + (y - 1)) / y * y

/-- `rounddown` of `daos/common.h`. -/
def rounddown (x y : ℕ) : ℕ := x / y * y

/-! ## The reassembled recx array -/

/-- How many of the recxs `l` contain VOS index `v`. A list of recxs stands for this
function: the records it names, with their multiplicity. -/
def recxCover (l : List DaosRecx) (v : ℕ) : ℕ :=
  l.countP fun r => decide (r.rxIdx ≤ v ∧ v < r.rxIdx + r.rxNr)

/-- One target's part of `ec_recx_add`: a recx that starts where the target's last recx
ends is merged into it, any other is appended. -/
def recxAppend (l : List DaosRecx) (recxIdx recxNr : ℕ) : List DaosRecx :=
  match l.getLast? with
  | some last =>
    if last.rxIdx + last.rxNr = recxIdx then l.dropLast ++ [⟨last.rxIdx, last.rxNr + recxNr⟩]
    else l ++ [⟨recxIdx, recxNr⟩]
  | none => [⟨recxIdx, recxNr⟩]

/-- `ec_recx_add`: add a recx to target `tgt`'s slice of the reassembled array. -/
def ecRecxAdd (r : ℕ → List DaosRecx) (tgt recxIdx recxNr : ℕ) : ℕ → List DaosRecx :=
  Function.update r tgt (recxAppend (r tgt) recxIdx recxNr)

/-! ## `ec_data_recx_add` -/

/-- The small-recx loop of `ec_data_recx_add`: from the cell boundary `tmpIdx`, add one
recx per cell until the recx's end. -/
def ecDataRecxAddCells (stripeRecNr cellRecNr : ℕ) (hcell : 0 < cellRecNr) (end_ : ℕ)
    (r : ℕ → List DaosRecx) (tmpIdx : ℕ) : ℕ → List DaosRecx :=
  if tmpIdx < end_ then
    let tgt := objEcTgtOfRecxIdx tmpIdx stripeRecNr cellRecNr
    let tmpNr := min cellRecNr (end_ - tmpIdx)
    ecDataRecxAddCells stripeRecNr cellRecNr hcell end_
      (ecRecxAdd r tgt (objEcIdxDaos2vos tmpIdx stripeRecNr cellRecNr) tmpNr)
      (tmpIdx + cellRecNr)
  else r
termination_by end_ - tmpIdx
decreasing_by omega

/-- The large-recx branch's `r_start` for target `i`. -/
def ecTgtRStart (stripeRecNr cellRecNr start firstTgt i : ℕ) : ℕ :=
  if i < firstTgt then roundup start stripeRecNr + i * cellRecNr
  else if i = firstTgt then start
  else rounddown start cellRecNr + (i - firstTgt) * cellRecNr

/-- The large-recx branch's `r_end` for target `i`. -/
def ecTgtREnd (stripeRecNr cellRecNr end_ lastTgt i : ℕ) : ℕ :=
  if i < lastTgt then rounddown (end_ - 1) stripeRecNr + (i + 1) * cellRecNr
  else if i = lastTgt then end_
  else rounddown end_ stripeRecNr - stripeRecNr + (i + 1) * cellRecNr

/-- The large-recx branch's `tmp_end`: the VOS index of `r_end`, moved up a cell when
`r_end` falls on a cell boundary inside a stripe. -/
def ecTgtTmpEnd (stripeRecNr cellRecNr rEnd : ℕ) : ℕ :=
  if rEnd % cellRecNr = 0 ∧ rEnd % stripeRecNr ≠ 0 then
    objEcIdxDaos2vos rEnd stripeRecNr cellRecNr + cellRecNr
  else objEcIdxDaos2vos rEnd stripeRecNr cellRecNr

/-- The large-recx branch's VOS recx for target `i`: `tmp_idx` and `tmp_nr`. -/
def ecTgtRecx (stripeRecNr cellRecNr start end_ firstTgt lastTgt i : ℕ) : ℕ × ℕ :=
  let tmpIdx :=
    objEcIdxDaos2vos (ecTgtRStart stripeRecNr cellRecNr start firstTgt i) stripeRecNr cellRecNr
  let tmpEnd := ecTgtTmpEnd stripeRecNr cellRecNr (ecTgtREnd stripeRecNr cellRecNr end_ lastTgt i)
  (tmpIdx, tmpEnd - tmpIdx)

/-- The large-recx branch: one closed-form recx for each of the first `n` data targets. -/
def ecDataRecxAddTgts (stripeRecNr cellRecNr start end_ firstTgt lastTgt : ℕ)
    (r : ℕ → List DaosRecx) : ℕ → ℕ → List DaosRecx
  | 0 => r
  | n + 1 =>
    let rx := ecTgtRecx stripeRecNr cellRecNr start end_ firstTgt lastTgt n
    ecRecxAdd (ecDataRecxAddTgts stripeRecNr cellRecNr start end_ firstTgt lastTgt r n) n
      rx.1 rx.2

/-- The `add_parity` loop: the recx itself, unmapped, on each of the first `n` parity
targets. -/
def ecParityRecxAdd (dataTgtNr : ℕ) (recx : DaosRecx) (r : ℕ → List DaosRecx) :
    ℕ → ℕ → List DaosRecx
  | 0 => r
  | n + 1 => ecRecxAdd (ecParityRecxAdd dataTgtNr recx r n) (dataTgtNr + n) recx.rxIdx recx.rxNr

/-- The small-recx branch of `ec_data_recx_add`: the recx's first recx, up to the end of its
start's cell, then one recx per cell. -/
def ecDataRecxAddSmall (stripeRecNr cellRecNr : ℕ) (hcell : 0 < cellRecNr) (recx : DaosRecx)
    (r : ℕ → List DaosRecx) : ℕ → List DaosRecx :=
  let start := recx.rxIdx
  let end_ := start + recx.rxNr
  let tmpNr := min recx.rxNr (cellRecNr - start % cellRecNr)
  let tgt := objEcTgtOfRecxIdx start stripeRecNr cellRecNr
  let r := ecRecxAdd r tgt (objEcIdxDaos2vos start stripeRecNr cellRecNr) tmpNr
  ecDataRecxAddCells stripeRecNr cellRecNr hcell end_ r (roundup (start + 1) cellRecNr)

/-- The large-recx branch of `ec_data_recx_add`: one closed-form recx per data target. -/
def ecDataRecxAddLarge (stripeRecNr cellRecNr dataTgtNr : ℕ) (recx : DaosRecx)
    (r : ℕ → List DaosRecx) : ℕ → List DaosRecx :=
  let start := recx.rxIdx
  let end_ := start + recx.rxNr
  let firstTgt := objEcTgtOfRecxIdx start stripeRecNr cellRecNr
  let lastTgt := objEcTgtOfRecxIdx (end_ - 1) stripeRecNr cellRecNr
  ecDataRecxAddTgts stripeRecNr cellRecNr start end_ firstTgt lastTgt r dataTgtNr

/-- `ec_data_recx_add`. -/
def ecDataRecxAdd (oca : EcClass) (recx : DaosRecx) (r : ℕ → List DaosRecx)
    (addParity : Bool) : ℕ → List DaosRecx :=
  let stripeRecNr := objEcStripeRecNr oca.attr
  let cellRecNr := objEcCellRecNr oca.attr
  if recx.rxNr = 0 then r
  else
    let r := if addParity then
        ecParityRecxAdd (objEcDataTgtNr oca.attr) recx r (objEcParityTgtNr oca.attr)
      else r
    -- for a small recx, add recx per cell one by one
    if recx.rxNr ≤ stripeRecNr - cellRecNr then
      ecDataRecxAddSmall stripeRecNr cellRecNr oca.len_pos recx r
    else ecDataRecxAddLarge stripeRecNr cellRecNr (objEcDataTgtNr oca.attr) recx r

/-! ## What the reassembled array covers -/

theorem recxCover_append (l l' : List DaosRecx) (v : ℕ) :
    recxCover (l ++ l') v = recxCover l v + recxCover l' v :=
  List.countP_append ..

theorem recxCover_singleton (x : DaosRecx) (v : ℕ) :
    recxCover [x] v = if x.rxIdx ≤ v ∧ v < x.rxIdx + x.rxNr then 1 else 0 := by
  simp [recxCover, List.countP_cons]

/-- `ec_recx_add`'s merge changes nothing a target's list covers: a recx that starts where
the last one ends covers exactly what the two would, so merged or appended, the list gains
the new recx's records once. -/
theorem recxCover_recxAppend (l : List DaosRecx) (idx nr v : ℕ) :
    recxCover (recxAppend l idx nr) v =
      recxCover l v + if idx ≤ v ∧ v < idx + nr then 1 else 0 := by
  unfold recxAppend
  cases hl : l.getLast? with
  | none =>
    rw [List.getLast?_eq_none_iff] at hl
    subst hl
    simp [recxCover]
  | some last =>
    obtain ⟨ys, rfl⟩ := List.getLast?_eq_some_iff.mp hl
    dsimp only
    split
    · next hadj =>
      -- the merged recx is the last one and the new one side by side
      simp only [List.dropLast_concat, recxCover_append, recxCover_singleton]
      split_ifs <;> omega
    · rw [recxCover_append, recxCover_singleton]

/-- `ec_recx_add` adds its recx's records to target `tgt`, and to no other target. -/
theorem recxCover_ecRecxAdd (r : ℕ → List DaosRecx) (tgt idx nr t v : ℕ) :
    recxCover (ecRecxAdd r tgt idx nr t) v =
      recxCover (r t) v + if t = tgt ∧ idx ≤ v ∧ v < idx + nr then 1 else 0 := by
  unfold ecRecxAdd
  by_cases ht : t = tgt
  · subst ht
    rw [Function.update_self, recxCover_recxAppend]
    simp
  · rw [Function.update_of_ne ht]
    simp [ht]

/-! ## The class as a striping of the record line -/

/-- For an EC class the 32-bit product of `obj_ec_stripe_rec_nr` does not wrap: the
stripe is `e_k * e_len` records. -/
theorem objEcStripeRecNr_eq (oca : EcClass) :
    objEcStripeRecNr oca.attr = objEcDataTgtNr oca.attr * objEcCellRecNr oca.attr := by
  have hk := oca.k_le
  have hl := oca.len_le
  unfold objEcMaxK at hk
  unfold daosEcCellMax at hl
  unfold objEcStripeRecNr objEcDataTgtNr objEcCellRecNr
  rw [UInt32.toNat_mul, UInt16.toNat_toUInt32]
  apply Nat.mod_eq_of_lt
  calc oca.attr.eK.toNat * oca.attr.eLen.toNat ≤ 64 * (1024 * 2 ^ 10) := Nat.mul_le_mul hk hl
    _ < 2 ^ 32 := by decide

theorem roundup_succ {len : ℕ} (hl : 0 < len) (x : ℕ) :
    roundup (x + 1) len = x - x % len + len := by
  have hdiv : (x + 1 + (len - 1)) / len = x / len + 1 := by
    rw [show x + 1 + (len - 1) = x + len by omega, Nat.add_div_right x hl]
  unfold roundup
  rw [hdiv, Nat.succ_mul]
  have := Nat.div_add_mod' x len
  omega

theorem rounddown_eq (x y : ℕ) : rounddown x y = x - x % y := by
  unfold rounddown
  have := Nat.div_add_mod' x y
  omega

theorem objEcTgtOfRecxIdx_eq_lane (k len x : ℕ) :
    objEcTgtOfRecxIdx x (k * len) len = Stripe.lane k len x := rfl

theorem objEcIdxDaos2vos_eq_laneIndex (k len x : ℕ) :
    objEcIdxDaos2vos x (k * len) len = Stripe.laneIndex k len x := rfl

theorem roundup_of_mod_pos {x y : ℕ} (h : 0 < x % y) : roundup x y = (x / y + 1) * y := by
  rcases Nat.eq_zero_or_pos y with rfl | hy
  · simp [roundup]
  have hx := Nat.div_add_mod' x y
  have hlt := Nat.mod_lt x hy
  unfold roundup
  congr 1
  rw [Nat.div_eq_iff hy, Nat.succ_mul]
  omega

/-- An indicator of `[a, b)` and one of `[b, c)` make one of `[a, c)`. -/
private theorem ite_Ico_add {a b c v : ℕ} (hab : a ≤ b) (hbc : b ≤ c) :
    ((if a ≤ v ∧ v < b then 1 else 0) + if b ≤ v ∧ v < c then 1 else 0) =
      if a ≤ v ∧ v < c then 1 else 0 := by
  split_ifs <;> omega

section Lanes

variable {k len : ℕ} (hk : 0 < k) (hl : 0 < len) {t : ℕ} (ht : t < k)
include hk hl ht

/-- One recx inside one cell, added to the cell's target, covers on target `t` exactly the
lane interval of its records. -/
theorem recxCover_ecRecxAdd_cell (r : ℕ → List DaosRecx) {c n : ℕ} (hcn : c % len + n ≤ len)
    (v : ℕ) :
    recxCover (ecRecxAdd r (objEcTgtOfRecxIdx c (k * len) len)
        (objEcIdxDaos2vos c (k * len) len) n t) v =
      recxCover (r t) v +
        if Stripe.laneRank k len t c ≤ v ∧ v < Stripe.laneRank k len t (c + n) then 1 else 0 := by
  rw [recxCover_ecRecxAdd, Stripe.laneRank_add_of_le hk hl ht hcn, objEcTgtOfRecxIdx_eq_lane,
    objEcIdxDaos2vos_eq_laneIndex]
  by_cases hc : Stripe.lane k len c = t
  · rw [← Stripe.laneRank_of_lane hl hc, if_pos hc]
    simp [hc]
  · have hc' : t ≠ Stripe.lane k len c := fun h => hc h.symm
    simp [hc, hc']

/-- **The small-recx loop's invariant.** Started at a cell boundary `c`, the loop adds to
every target `t` exactly the lane interval of `[c, end)`. -/
theorem ecDataRecxAddCells_cover (end_ : ℕ) (r : ℕ → List DaosRecx) (c : ℕ)
    (hc : c % len = 0) (v : ℕ) :
    recxCover (ecDataRecxAddCells (k * len) len hl end_ r c t) v =
      recxCover (r t) v +
        if Stripe.laneRank k len t c ≤ v ∧ v < Stripe.laneRank k len t end_ then 1 else 0 := by
  fun_induction ecDataRecxAddCells (k * len) len hl end_ r c with
  | case1 r c hlt tgt tmpNr ih =>
    -- one cell `[c, c + tmpNr)`, then the loop from the next boundary
    have hnext : (c + len) % len = 0 := by rw [Nat.add_mod_right]; exact hc
    rw [ih hnext, recxCover_ecRecxAdd_cell hk hl ht r (show c % len + tmpNr ≤ len by omega)]
    have hmono : ∀ {a b : ℕ}, a ≤ b → Stripe.laneRank k len t a ≤ Stripe.laneRank k len t b :=
      fun hab => Stripe.laneRank_mono hl ht hab
    by_cases hfull : c + len ≤ end_
    · have hn : c + tmpNr = c + len := by omega
      rw [hn, Nat.add_assoc, ite_Ico_add (hmono (by omega)) (hmono hfull)]
    · have hn : c + tmpNr = end_ := by omega
      have hpast : Stripe.laneRank k len t end_ ≤ Stripe.laneRank k len t (c + len) :=
        hmono (by omega)
      have hrest : (if Stripe.laneRank k len t (c + len) ≤ v ∧
          v < Stripe.laneRank k len t end_ then 1 else 0) = 0 := if_neg (by omega)
      rw [hn, hrest, Nat.add_zero]
  | case2 r c hge =>
    have : Stripe.laneRank k len t end_ ≤ Stripe.laneRank k len t c :=
      Stripe.laneRank_mono hl ht (by omega)
    rw [if_neg (by omega), Nat.add_zero]

end Lanes

/-! ## The closed-form branch, target by target -/

/-- `tmp_end` at a position of cell `i'` of stripe `q`: its VOS index, plus a cell when the
position is a cell boundary inside the stripe. -/
theorem ecTgtTmpEnd_block {k len : ℕ} (hl : 0 < len) {q i' j : ℕ} (hi' : i' < k)
    (hj : j < len) :
    ecTgtTmpEnd (k * len) len (q * (k * len) + i' * len + j) =
      if j = 0 ∧ i' ≠ 0 then q * len + len else q * len + j := by
  unfold ecTgtTmpEnd
  rw [Stripe.mod_cell_block hj, Stripe.mod_stripe_block hi' hj, objEcIdxDaos2vos_eq_laneIndex,
    Stripe.laneIndex_block hi' hj]
  by_cases hj0 : j = 0
  · subst hj0
    by_cases hi0 : i' = 0
    · simp [hi0]
    · have : 0 < i' * len := Nat.mul_pos (Nat.pos_of_ne_zero hi0) hl
      simp [hi0, Nat.pos_iff_ne_zero.mp this]
  · simp [hj0]

/-- Lane `t`'s count just past position `e`, read off `e`'s stripe, cell and offset. -/
theorem laneRank_succ_eq {k len : ℕ} (hk : 0 < k) (hl : 0 < len) {t : ℕ} (ht : t < k)
    (e : ℕ) :
    Stripe.laneRank k len t (e + 1) = e / (k * len) * len +
      min len (Stripe.lane k len e * len + e % len + 1 - t * len) := by
  have hsplit := @Stripe.eq_stripe_add k len e
  have hlk := Stripe.lane_lt hk hl e
  have hb := Nat.mod_lt e hl
  have hrank : Stripe.laneRank k len t e =
      e / (k * len) * len + min len (Stripe.lane k len e * len + e % len - t * len) := by
    conv_lhs => rw [hsplit]
    have : (Stripe.lane k len e + 1) * len ≤ k * len := Nat.mul_le_mul_right len hlk
    rw [Nat.succ_mul] at this
    rw [Nat.add_assoc, Stripe.laneRank_block (by omega)]
  rw [Stripe.laneRank_succ hl ht, hrank]
  rcases Nat.lt_trichotomy t (Stripe.lane k len e) with htl | htl | htl
  · have : (t + 1) * len ≤ Stripe.lane k len e * len := Nat.mul_le_mul_right len htl
    rw [Nat.succ_mul] at this
    rw [if_neg (by omega)]
    omega
  · rw [if_pos htl.symm, htl]
    omega
  · have : (Stripe.lane k len e + 1) * len ≤ t * len := Nat.mul_le_mul_right len htl
    rw [Nat.succ_mul] at this
    rw [if_neg (by omega)]
    omega

section Closed

variable {k len : ℕ} (hk : 0 < k) (hl : 0 < len) {i : ℕ} (hi : i < k)
include hk hl hi

/-- The closed form's first VOS index on target `i` is lane `i`'s count at the recx's
start. -/
theorem ecTgtRStart_vos (start : ℕ) :
    objEcIdxDaos2vos (ecTgtRStart (k * len) len start (objEcTgtOfRecxIdx start (k * len) len) i)
      (k * len) len = Stripe.laneRank k len i start := by
  rw [objEcTgtOfRecxIdx_eq_lane, objEcIdxDaos2vos_eq_laneIndex]
  -- `start` lies in stripe `q`, cell `f`, at offset `a` of the cell
  have hsplit := @Stripe.eq_stripe_add k len start
  have hf : Stripe.lane k len start < k := Stripe.lane_lt hk hl start
  have ha : start % len < len := Nat.mod_lt start hl
  have hfl : (Stripe.lane k len start + 1) * len ≤ k * len := Nat.mul_le_mul_right len hf
  rw [Nat.succ_mul] at hfl
  have hrank : Stripe.laneRank k len i start =
      start / (k * len) * len + min len (Stripe.lane k len start * len + start % len - i * len) := by
    conv_lhs => rw [hsplit]
    rw [Nat.add_assoc, Stripe.laneRank_block (by omega)]
  unfold ecTgtRStart
  split_ifs with h1 h2
  · -- a target before the first: its first record is in the next stripe
    have hil : (i + 1) * len ≤ Stripe.lane k len start * len := Nat.mul_le_mul_right len h1
    rw [Nat.succ_mul] at hil
    have hpos : 0 < start % (k * len) := by rw [Stripe.mod_stripe_eq]; omega
    rw [roundup_of_mod_pos hpos, show (start / (k * len) + 1) * (k * len) + i * len =
      (start / (k * len) + 1) * (k * len) + i * len + 0 from rfl, Stripe.laneIndex_block hi hl,
      hrank, Nat.succ_mul]
    omega
  · -- the first target: the recx's own start
    rw [h2, Stripe.laneRank_of_lane hl rfl]
  · -- a target after the first: its cell in the same stripe
    have hif : Stripe.lane k len start < i := by omega
    have hil : (Stripe.lane k len start + 1) * len ≤ i * len := Nat.mul_le_mul_right len hif
    rw [Nat.succ_mul] at hil
    have hsub : (i - Stripe.lane k len start) * len + Stripe.lane k len start * len = i * len := by
      rw [← Nat.add_mul, Nat.sub_add_cancel hif.le]
    have hrd : rounddown start len + (i - Stripe.lane k len start) * len =
        start / (k * len) * (k * len) + i * len + 0 := by
      rw [rounddown_eq]
      omega
    rw [hrd, Stripe.laneIndex_block hi hl, hrank]
    omega

/-- The closed form's end on target `i`: `tmp_end` is lane `i`'s count at the recx's end.
The branch is taken only for a recx longer than `S - e_len`, which is what keeps
`rounddown(end, S) - S` from wrapping when `i` is past the last target. -/
theorem ecTgtREnd_vos {start end_ : ℕ} (hse : start < end_)
    (hbig : k * len - len < end_ - start) :
    ecTgtTmpEnd (k * len) len
        (ecTgtREnd (k * len) len end_ (objEcTgtOfRecxIdx (end_ - 1) (k * len) len) i) =
      Stripe.laneRank k len i end_ := by
  rw [objEcTgtOfRecxIdx_eq_lane]
  -- the recx's last record `end_ - 1` lies in stripe `Q`, cell `l`, at offset `b`
  obtain ⟨e, rfl⟩ : ∃ e, end_ = e + 1 := ⟨end_ - 1, by omega⟩
  rw [Nat.add_sub_cancel, laneRank_succ_eq hk hl hi]
  have hsplit := @Stripe.eq_stripe_add k len e
  have hlk := Stripe.lane_lt hk hl e
  have hb := Nat.mod_lt e hl
  have hik : (i + 1) * len ≤ k * len := Nat.mul_le_mul_right len hi
  rw [Nat.succ_mul] at hik
  have hlk' : (Stripe.lane k len e + 1) * len ≤ k * len := Nat.mul_le_mul_right len hlk
  rw [Nat.succ_mul] at hlk'
  unfold ecTgtREnd
  simp only [Nat.add_sub_cancel]
  split_ifs with h1 h2
  · -- a target before the last: its last record ends its cell in the last stripe
    have hil : (i + 1) * len ≤ Stripe.lane k len e * len := Nat.mul_le_mul_right len h1
    rw [Nat.succ_mul] at hil
    have hform : rounddown e (k * len) + (i + 1) * len =
        e / (k * len) * (k * len) + (i + 1) * len + 0 := by
      rw [rounddown_eq, Stripe.mod_stripe_eq]
      omega
    rw [hform, ecTgtTmpEnd_block hl (show i + 1 < k by omega) hl, if_pos ⟨rfl, by omega⟩]
    omega
  · -- the last target: the recx's own end
    subst h2
    by_cases hb1 : e % len + 1 < len
    · have hform : e + 1 = e / (k * len) * (k * len) + Stripe.lane k len e * len + (e % len + 1) := by
        omega
      rw [hform, ecTgtTmpEnd_block hl hlk hb1, if_neg (by omega)]
      omega
    · by_cases hlast : Stripe.lane k len e + 1 < k
      · have hform : e + 1 = e / (k * len) * (k * len) + (Stripe.lane k len e + 1) * len + 0 := by
          rw [Nat.succ_mul]
          omega
        rw [hform, ecTgtTmpEnd_block hl hlast hl, if_pos ⟨rfl, by omega⟩]
        omega
      · -- the recx ends its stripe
        have hk1 : k = Stripe.lane k len e + 1 := by omega
        have hkl : k * len = Stripe.lane k len e * len + len := by
          conv_lhs => rw [hk1]
          rw [Nat.succ_mul]
        have hform : e + 1 = (e / (k * len) + 1) * (k * len) + 0 * len + 0 := by
          rw [Nat.succ_mul]
          omega
        rw [hform, ecTgtTmpEnd_block hl hk hl, if_neg (fun h => h.2 rfl), Nat.succ_mul]
        omega
  · -- a target past the last: its last record ends its cell in the stripe before
    have hli : Stripe.lane k len e < i := by omega
    have hli' : (Stripe.lane k len e + 1) * len ≤ i * len := Nat.mul_le_mul_right len hli
    rw [Nat.succ_mul] at hli'
    have hdiv : (e + 1) / (k * len) = e / (k * len) := by
      rw [Nat.div_eq_iff (by omega)]
      omega
    -- the recx is long enough to reach back into an earlier stripe
    obtain ⟨Q, hQ⟩ : ∃ Q, e / (k * len) = Q + 1 := by
      rcases Nat.eq_zero_or_pos (e / (k * len)) with h0 | hpos
      · rw [h0, Nat.zero_mul, Nat.zero_add] at hsplit
        omega
      · exact ⟨e / (k * len) - 1, by omega⟩
    have hrd : rounddown (e + 1) (k * len) = (Q + 1) * (k * len) := by
      unfold rounddown
      rw [hdiv, hQ]
    by_cases hlast : i + 1 < k
    · have hform : rounddown (e + 1) (k * len) - k * len + (i + 1) * len =
          Q * (k * len) + (i + 1) * len + 0 := by
        rw [hrd, Nat.succ_mul]
        omega
      rw [hform, ecTgtTmpEnd_block hl hlast hl, if_pos ⟨rfl, by omega⟩, hQ, Nat.succ_mul]
      omega
    · have hki : (i + 1) * len = k * len := by rw [show i + 1 = k by omega]
      have hform : rounddown (e + 1) (k * len) - k * len + (i + 1) * len =
          (Q + 1) * (k * len) + 0 * len + 0 := by
        rw [hrd, hki, Nat.succ_mul]
        omega
      rw [hform, ecTgtTmpEnd_block hl hk hl, if_neg (fun h => h.2 rfl), hQ]
      omega

/-- **The closed form, target by target**: for a recx longer than `S - e_len`, target `i`
gets the VOS recx `[laneRank start, laneRank end)`. -/
theorem ecTgtRecx_eq {start end_ : ℕ} (hse : start < end_) (hbig : k * len - len < end_ - start) :
    ecTgtRecx (k * len) len start end_ (objEcTgtOfRecxIdx start (k * len) len)
        (objEcTgtOfRecxIdx (end_ - 1) (k * len) len) i =
      (Stripe.laneRank k len i start,
        Stripe.laneRank k len i end_ - Stripe.laneRank k len i start) := by
  unfold ecTgtRecx
  rw [ecTgtRStart_vos hk hl hi, ecTgtREnd_vos hk hl hi hse hbig]

end Closed

/-- The closed-form loop adds target `t`'s recx to target `t` when `t` is one of the first
`n` targets, and nothing otherwise. -/
theorem recxCover_ecDataRecxAddTgts (stripeRecNr cellRecNr start end_ firstTgt lastTgt : ℕ)
    (r : ℕ → List DaosRecx) (n t v : ℕ) :
    recxCover (ecDataRecxAddTgts stripeRecNr cellRecNr start end_ firstTgt lastTgt r n t) v =
      recxCover (r t) v +
        let rx := ecTgtRecx stripeRecNr cellRecNr start end_ firstTgt lastTgt t
        if t < n ∧ rx.1 ≤ v ∧ v < rx.1 + rx.2 then 1 else 0 := by
  induction n with
  | zero => simp [ecDataRecxAddTgts]
  | succ n ih =>
    rw [ecDataRecxAddTgts, recxCover_ecRecxAdd, ih]
    by_cases htn : t = n
    · subst htn
      simp
    · have : t < n + 1 ↔ t < n := by omega
      simp [htn, this]

/-! ## `ec_data_recx_add` is exact -/

section Branches

variable {k len : ℕ} (hk : 0 < k) (hl : 0 < len) {t : ℕ} (ht : t < k)
include hk hl ht

/-- The small-recx branch adds to target `t` the lane interval of the whole recx. -/
theorem recxCover_ecDataRecxAddSmall (recx : DaosRecx) (r : ℕ → List DaosRecx) (v : ℕ) :
    recxCover (ecDataRecxAddSmall (k * len) len hl recx r t) v =
      recxCover (r t) v + if Stripe.laneRank k len t recx.rxIdx ≤ v ∧
        v < Stripe.laneRank k len t (recx.rxIdx + recx.rxNr) then 1 else 0 := by
  unfold ecDataRecxAddSmall
  -- the first recx ends at the next cell boundary `c`, or at the recx's end before it
  have hmod := Nat.mod_lt recx.rxIdx hl
  have hmodle := Nat.mod_le recx.rxIdx len
  have hc : roundup (recx.rxIdx + 1) len = recx.rxIdx - recx.rxIdx % len + len :=
    roundup_succ hl recx.rxIdx
  have hcmod : (recx.rxIdx - recx.rxIdx % len + len) % len = 0 := by
    rw [Nat.add_mod_right, ← rounddown_eq, rounddown, Nat.mul_mod_left]
  have hmono : ∀ {a b : ℕ}, a ≤ b → Stripe.laneRank k len t a ≤ Stripe.laneRank k len t b :=
    fun hab => Stripe.laneRank_mono hl ht hab
  rw [hc, ecDataRecxAddCells_cover hk hl ht _ _ _ hcmod,
    recxCover_ecRecxAdd_cell hk hl ht r (by omega), Nat.add_assoc]
  by_cases hshort : recx.rxNr ≤ len - recx.rxIdx % len
  · -- the recx ends inside its first cell: the loop adds nothing
    have hn : min recx.rxNr (len - recx.rxIdx % len) = recx.rxNr := by omega
    have hpast := hmono (show recx.rxIdx + recx.rxNr ≤ recx.rxIdx - recx.rxIdx % len + len by omega)
    have hrest : (if Stripe.laneRank k len t (recx.rxIdx - recx.rxIdx % len + len) ≤ v ∧
        v < Stripe.laneRank k len t (recx.rxIdx + recx.rxNr) then 1 else 0) = 0 :=
      if_neg (by omega)
    rw [hn, hrest, Nat.add_zero]
  · have hn : recx.rxIdx + min recx.rxNr (len - recx.rxIdx % len) =
        recx.rxIdx - recx.rxIdx % len + len := by omega
    have h1 := hmono (show recx.rxIdx ≤ recx.rxIdx - recx.rxIdx % len + len by omega)
    have h2 := hmono (show recx.rxIdx - recx.rxIdx % len + len ≤ recx.rxIdx + recx.rxNr by omega)
    rw [hn, ite_Ico_add h1 h2]

/-- The closed-form branch adds to target `t` the lane interval of the whole recx, for a
recx longer than `S - e_len`, the only ones it is taken for. -/
theorem recxCover_ecDataRecxAddLarge (recx : DaosRecx) (hbig : k * len - len < recx.rxNr)
    (r : ℕ → List DaosRecx) (v : ℕ) :
    recxCover (ecDataRecxAddLarge (k * len) len k recx r t) v =
      recxCover (r t) v + if Stripe.laneRank k len t recx.rxIdx ≤ v ∧
        v < Stripe.laneRank k len t (recx.rxIdx + recx.rxNr) then 1 else 0 := by
  unfold ecDataRecxAddLarge
  rw [recxCover_ecDataRecxAddTgts]
  dsimp only
  rw [ecTgtRecx_eq hk hl ht (by omega) (by omega)]
  have hmono := Stripe.laneRank_mono hl ht (show recx.rxIdx ≤ recx.rxIdx + recx.rxNr by omega)
  congr 1
  by_cases hv : Stripe.laneRank k len t recx.rxIdx ≤ v ∧
      v < Stripe.laneRank k len t (recx.rxIdx + recx.rxNr)
  · rw [if_pos ⟨ht, hv.1, by omega⟩, if_pos hv]
  · rw [if_neg (by omega), if_neg hv]

end Branches

/-- **`ec_data_recx_add` is exact.** For every EC class, every recx and every data target
`t`, the call without parity adds to `t`'s recxs, counted with multiplicity, exactly the VOS
index `obj_ec_idx_daos2vos x` of every record `x` of the recx on target `t`
(`obj_ec_tgt_of_recx_idx x = t`), after `ec_recx_add`'s merging; and no VOS index is the image
of two records, so each is added once. -/
theorem ecDataRecxAdd_exact (oca : EcClass) (recx : DaosRecx) (r : ℕ → List DaosRecx) {t : ℕ}
    (ht : t < objEcDataTgtNr oca.attr) (v : ℕ) :
    recxCover (ecDataRecxAdd oca recx r false t) v = recxCover (r t) v +
        (List.range' recx.rxIdx recx.rxNr).countP (fun x => decide (
          objEcTgtOfRecxIdx x (objEcStripeRecNr oca.attr) (objEcCellRecNr oca.attr) = t ∧
          objEcIdxDaos2vos x (objEcStripeRecNr oca.attr) (objEcCellRecNr oca.attr) = v)) ∧
      (List.range' recx.rxIdx recx.rxNr).countP (fun x => decide (
          objEcTgtOfRecxIdx x (objEcStripeRecNr oca.attr) (objEcCellRecNr oca.attr) = t ∧
          objEcIdxDaos2vos x (objEcStripeRecNr oca.attr) (objEcCellRecNr oca.attr) = v)) ≤ 1 := by
  have hk : 0 < objEcDataTgtNr oca.attr := oca.k_pos
  have hl : 0 < objEcCellRecNr oca.attr := oca.len_pos
  have hS := objEcStripeRecNr_eq oca
  -- the records of the recx on target `t` land on the lane interval of the recx
  have hcount := Stripe.countP_lane_eq hl ht recx.rxIdx recx.rxNr v
  simp only [hS, objEcTgtOfRecxIdx_eq_lane, objEcIdxDaos2vos_eq_laneIndex]
  rw [hcount]
  refine ⟨?_, by split_ifs <;> omega⟩
  unfold ecDataRecxAdd
  rw [hS]
  by_cases h0 : recx.rxNr = 0
  · rw [if_pos h0, h0, Nat.add_zero, if_neg (by omega), Nat.add_zero]
  · rw [if_neg h0]
    simp only [Bool.false_eq_true, if_false]
    by_cases hsmall : recx.rxNr ≤ objEcDataTgtNr oca.attr * objEcCellRecNr oca.attr -
        objEcCellRecNr oca.attr
    · rw [if_pos hsmall]
      exact recxCover_ecDataRecxAddSmall hk hl ht recx r v
    · rw [if_neg hsmall]
      exact recxCover_ecDataRecxAddLarge hk hl ht recx (by omega) r v

/-- A `4+2` class of eight-record cells. -/
def ecClass4p2 : EcClass := ⟨⟨4, 2, 8⟩, by decide, by decide, by decide, by decide⟩

theorem ecDataRecxAdd_exact_4p2 :
    1 < objEcDataTgtNr ecClass4p2.attr ∧
      (recxCover (ecDataRecxAdd ecClass4p2 ⟨10, 40⟩ (fun _ => []) false 1) 13 =
          recxCover [] 13 + (List.range' 10 40).countP (fun x => decide (
            objEcTgtOfRecxIdx x (objEcStripeRecNr ecClass4p2.attr) (objEcCellRecNr ecClass4p2.attr) = 1 ∧
            objEcIdxDaos2vos x (objEcStripeRecNr ecClass4p2.attr) (objEcCellRecNr ecClass4p2.attr) = 13)) ∧
        (List.range' 10 40).countP (fun x => decide (
            objEcTgtOfRecxIdx x (objEcStripeRecNr ecClass4p2.attr) (objEcCellRecNr ecClass4p2.attr) = 1 ∧
            objEcIdxDaos2vos x (objEcStripeRecNr ecClass4p2.attr) (objEcCellRecNr ecClass4p2.attr) = 13))
          ≤ 1) :=
  ⟨by decide, ecDataRecxAdd_exact ecClass4p2 ⟨10, 40⟩ (fun _ => []) (by decide) 13⟩

/- Records `[10, 50)` of the `4+2` class: target 1 holds `[10, 16)` and `[40, 48)`, VOS
indices `[2, 8)` and `[8, 16)`, one recx once merged. -/
example : ecDataRecxAdd ecClass4p2 ⟨10, 40⟩ (fun _ => []) false 1 = [⟨2, 14⟩] := by decide

end Daos.Object

import Mathlib
import Daos.Lib.Keyed
import Daos.Object.IodBreak

/-!
# EC aggregation: stripes of replicas and the cells of a partial stripe
(`object/srv_ec_aggregate.c`)

The parity target of an EC object holds, besides parity, full replicas of recent partial
writes. Aggregation walks the visible replica extents of an akey in index order
(`agg_data_extent`), cuts each at the stripe boundaries and gathers the pieces of one stripe
(`agg_extent_add`); a stripe is handed to `agg_process_stripe` when a piece reaches its end, when
a piece of a later stripe arrives, or when the akey ends (`agg_akey_post`), and the stripe is then
cleared (`agg_clear_extents`). A stripe that is only partly rewritten since the last parity is
classified cell by cell (`agg_process_partial_stripe`): the extents newer than the parity are
merged into contiguous runs, and each run marks the cells it overlaps (`tbit_map`) and the cells it
covers whole (`fcbit_map`) through `agg_count_cells`.

**What is proved.** The gathering is exact (`aggAkeyIterate_groups`): over any increasing
sequence of disjoint data extents, the stripes handed over are the pieces grouped by stripe
number, one stripe per maximal group, each with every piece in its own stripe and with
`as_stripe_fill` the non-hole records of its pieces.

The cell classification is not. After a gap between runs the running end `eend` is advanced by
the new extent's length from the old end instead of being reset to the new extent's end, so the
next extent, though contiguous, starts a run of its own: a cell covered by two adjacent extents
after a gap is not found full. And when the stripe's first extent is older than the parity, the
first run is an empty run at that extent's start, which marks the cell it falls in as touched
(`aggPartialStripeCells_gap_splits_cell`).

**What is modelled.** Offsets are `daos_off_t` computed in `ℕ`: data extents are below
`PARITY_INDICATOR = 2^63`, which `agg_data_extent` asserts, and no sum here comes near `2^64`.
The bitmaps are the sets of cells whose bit is set. `as_extent_cnt` is the length of
`as_dextents`, which every change of one keeps. `agg_process_stripe` is seen from the gathering
side only: the stripe is handed over, and on every path it ends with `agg_clear_extents`.
-/

namespace Daos.Object

/-- `DAOS_RECX_PTR_OVERLAP`. -/
def daosRecxOverlap (a b : DaosRecx) : Bool :=
  decide (a.rxIdx < b.rxIdx + b.rxNr) && decide (b.rxIdx < a.rxIdx + a.rxNr)

/-- `struct ec_agg_extent`: a replica extent gathered into the current stripe. -/
structure AggExtent where
  aeRecx : DaosRecx
  aeEpoch : ℕ
  aeHole : Bool
deriving DecidableEq, Repr

/-- `struct ec_agg_stripe`: the stripe being gathered. -/
structure AggStripe where
  asStripenum : ℕ
  asHiEpoch : ℕ
  asLoEpoch : ℕ
  asDextents : List AggExtent
  asStripeFill : ℕ
  asOffset : ℕ
  asHasHoles : Bool
deriving DecidableEq, Repr

/-- `as_extent_cnt`. -/
def AggStripe.asExtentCnt (s : AggStripe) : ℕ := s.asDextents.length

/-! ## Gathering replicas by stripe -/

/-- The entry of the VOS iterator that `agg_data_extent` is called with: the visible extent, its
epoch, and whether its address is a hole (`BIO_ADDR_IS_HOLE`). -/
structure VosIterEntry where
  ieRecx : DaosRecx
  ieEpoch : ℕ
  ieHole : Bool
deriving DecidableEq, Repr

/-- `agg_stripenum`: the stripe of record index `exLo`. -/
def aggStripenum (oca : DaosEcAttr) (exLo : ℕ) : ℕ := exLo / objEcStripeRecNr oca

/-- `agg_in_stripe`: how much of `recx` lies in the stripe it starts in; `len * k` is the
32-bit product. -/
def aggInStripe (oca : DaosEcAttr) (recx : DaosRecx) : ℕ :=
  let stripe := recx.rxIdx / (oca.eLen * oca.eK.toUInt32).toNat
  let stripeEnd := (stripe + 1) * objEcCellRecNr oca * objEcDataTgtNr oca
  if recx.rxIdx + recx.rxNr > stripeEnd then stripeEnd - recx.rxIdx else recx.rxNr

/-- `agg_extent_add`: `recx`, a piece of the iterator's `entry`, joins the stripe. -/
def aggExtentAdd (oca : DaosEcAttr) (s : AggStripe) (entry : VosIterEntry) (recx : DaosRecx) :
    AggStripe :=
  let extent : AggExtent := ⟨recx, entry.ieEpoch, entry.ieHole⟩
  -- the first extent of a stripe fixes its start offset and its number
  let s := if s.asExtentCnt = 0 then
      { s with asOffset := recx.rxIdx - rounddown recx.rxIdx (objEcStripeRecNr oca),
               asStripenum := aggStripenum oca recx.rxIdx }
    else s
  let s := { s with asDextents := s.asDextents ++ [extent] }
  let s := if entry.ieHole then { s with asHasHoles := true }
    else { s with asStripeFill := s.asStripeFill + aggInStripe oca recx }
  let s := if s.asLoEpoch = 0 ∨ extent.aeEpoch < s.asLoEpoch then
      { s with asLoEpoch := extent.aeEpoch } else s
  if extent.aeEpoch > s.asHiEpoch then { s with asHiEpoch := extent.aeEpoch } else s

/-- `agg_carry_over`: how much of the extent lies past the stripe it starts in. -/
def aggCarryOver (oca : DaosEcAttr) (ext : AggExtent) : ℕ :=
  let stripeSize := objEcStripeRecNr oca
  let startStripe := ext.aeRecx.rxIdx / stripeSize
  let endStripe := (ext.aeRecx.rxIdx + ext.aeRecx.rxNr - 1) / stripeSize
  if endStripe > startStripe then ext.aeRecx.rxIdx + ext.aeRecx.rxNr - endStripe * stripeSize
  else 0

/-- `agg_clear_extents`: the stripe's extents are dropped; it keeps a hole only if a hole
extent carries over into the next stripe. -/
def aggClearExtents (oca : DaosEcAttr) (s : AggStripe) : AggStripe :=
  if s.asExtentCnt = 0 then s
  else
    let carryIsHole := s.asDextents.any fun ext => ext.aeHole && aggCarryOver oca ext != 0
    { s with asDextents := [], asOffset := 0, asHiEpoch := 0, asLoEpoch := 0,
             asStripeFill := 0, asHasHoles := carryIsHole }

/-- One pass of the loop of `agg_data_extent` at `offset`, for an entry ending at `end_`: the
next offset and stripe, and the stripes handed to `agg_process_stripe`. -/
def aggDataExtentStep (oca : DaosEcAttr) (entry : VosIterEntry) (end_ offset : ℕ)
    (s : AggStripe) : ℕ × AggStripe × List AggStripe :=
  let minEnd := min (roundup (offset + 1) (objEcStripeRecNr oca)) end_
  let newRecx : DaosRecx := ⟨offset, minEnd - offset⟩
  let thisStripenum := aggStripenum oca newRecx.rxIdx
  let thisEndStripenum := aggStripenum oca (newRecx.rxIdx + newRecx.rxNr)
  -- the piece joins the stripe if the stripe is empty or its own
  let added := s.asExtentCnt = 0 ∨ thisStripenum = s.asStripenum
  let offset' := if added then offset + newRecx.rxNr else offset
  let s' := if added then aggExtentAdd oca s entry newRecx else s
  -- the stripe is processed once a piece reaches its end or lies past it
  if (thisStripenum > s'.asStripenum ∨ thisEndStripenum > s'.asStripenum) ∧
      s'.asExtentCnt > 0 then
    (offset', aggClearExtents oca s', [s'])
  else (offset', s', [])

/-- The loop of `agg_data_extent`; running out of `fuel` stands for a loop that does not end. -/
def aggDataExtentLoop (oca : DaosEcAttr) (entry : VosIterEntry) (end_ : ℕ) :
    ℕ → ℕ → AggStripe → Option (AggStripe × List AggStripe)
  | 0, _, _ => none
  | fuel + 1, offset, s =>
    if offset < end_ then
      let r := aggDataExtentStep oca entry end_ offset s
      (aggDataExtentLoop oca entry end_ fuel r.1 r.2.1).map fun t => (t.1, r.2.2 ++ t.2)
    else some (s, [])

/-- `agg_data_extent`: the stripe after the entry, and the stripes handed to
`agg_process_stripe` on the way. `none` where its `D_ASSERT` fails, or where the loop would not
end; two passes per record are more than the loop takes when it ends. -/
def aggDataExtent (oca : DaosEcAttr) (entry : VosIterEntry) (s : AggStripe) :
    Option (AggStripe × List AggStripe) :=
  if entry.ieRecx.rxIdx &&& parityIndicator ≠ 0 then none
  else aggDataExtentLoop oca entry (entry.ieRecx.rxIdx + entry.ieRecx.rxNr)
    (2 * entry.ieRecx.rxNr + 1) entry.ieRecx.rxIdx s

/-- `agg_akey_post`: a stripe left over at the end of the akey is processed. -/
def aggAkeyPost (oca : DaosEcAttr) (s : AggStripe) : AggStripe × List AggStripe :=
  if s.asExtentCnt ≠ 0 then
    let s' := aggClearExtents oca s
    ({ s' with asStripenum := 0, asHiEpoch := 0, asLoEpoch := 0, asStripeFill := 0,
               asOffset := 0 }, [s])
  else (s, [])

/-- The VOS iteration over the visible extents of one akey: `agg_data_extent` for each in turn,
then `agg_akey_post`; the stripes handed to `agg_process_stripe`, in order. -/
def aggAkeyIterate (oca : DaosEcAttr) : List VosIterEntry → AggStripe →
    Option (AggStripe × List AggStripe)
  | [], s => some (aggAkeyPost oca s)
  | e :: es, s => (aggDataExtent oca e s).bind fun r =>
      (aggAkeyIterate oca es r.1).map fun t => (t.1, r.2 ++ t.2)

/-! ## The gathering is exact -/

/-- The pieces of `recx` cut at the boundaries of stripes of `ss` records: one for each stripe
that it meets. -/
def stripePieces (ss : ℕ) (recx : DaosRecx) : List DaosRecx :=
  if recx.rxNr = 0 then []
  else
    (List.range' (recx.rxIdx / ss) ((recx.rxIdx + recx.rxNr - 1) / ss + 1 - recx.rxIdx / ss)).map
      fun q =>
        let lo := max recx.rxIdx (q * ss)
        ⟨lo, min (recx.rxIdx + recx.rxNr) ((q + 1) * ss) - lo⟩

/-- A piece of the iterator's `entry`, as the stripe holds it. -/
def pieceExtent (entry : VosIterEntry) (p : DaosRecx) : AggExtent :=
  ⟨p, entry.ieEpoch, entry.ieHole⟩

/-- What the loop of `agg_data_extent` does with a piece `p` that may join the stripe: it joins,
and the stripe is handed over if the piece reaches the stripe's end. -/
def aggAddPiece (oca : DaosEcAttr) (s : AggStripe) (entry : VosIterEntry) (p : DaosRecx) :
    AggStripe × List AggStripe :=
  let s₁ := aggExtentAdd oca s entry p
  if aggStripenum oca p.rxIdx < aggStripenum oca (p.rxIdx + p.rxNr) then
    (aggClearExtents oca s₁, [s₁])
  else (s₁, [])

theorem objEcStripeRecNr_pos (oca : EcClass) : 0 < objEcStripeRecNr oca.attr := by
  rw [objEcStripeRecNr_eq]
  exact Nat.mul_pos oca.k_pos oca.len_pos

section Pieces

variable {ss : ℕ}

/-- The first piece runs to the next stripe boundary or to the end. -/
theorem stripePieces_cons (hss : 0 < ss) {a b : ℕ} (hab : a < b) :
    stripePieces ss ⟨a, b - a⟩ =
      ⟨a, min (roundup (a + 1) ss) b - a⟩ ::
        stripePieces ss ⟨min (roundup (a + 1) ss) b, b - min (roundup (a + 1) ss) b⟩ := by
  have hdm := Nat.div_add_mod' a ss
  have hmod := Nat.mod_lt a hss
  have hnext : (a / ss + 1) * ss = a / ss * ss + ss := Nat.add_one_mul _ _
  have hup : roundup (a + 1) ss = (a / ss + 1) * ss := by
    rw [roundup_succ hss]
    omega
  have hlast : a / ss ≤ (b - 1) / ss := Nat.div_le_div_right (by omega)
  rw [hup]
  unfold stripePieces
  dsimp only
  rw [if_neg (by omega), show a + (b - a) = b by omega,
    show (b - 1) / ss + 1 - a / ss = ((b - 1) / ss - a / ss) + 1 by omega, List.range'_succ,
    List.map_cons]
  congr 1
  · -- the first piece starts at `a`
    simp only [max_eq_left (show a / ss * ss ≤ a by omega), Nat.min_comm b]
  · by_cases hend : b ≤ (a / ss + 1) * ss
    · -- it is the only one
      have hb : (b - 1) / ss < a / ss + 1 := Nat.div_lt_of_lt_mul (by rw [Nat.mul_comm]; omega)
      rw [Nat.min_eq_right hend, if_pos (by simp), show (b - 1) / ss - a / ss = 0 by omega]
      rfl
    · -- the rest starts at the boundary
      have hm : (a / ss + 1) * ss / ss = a / ss + 1 := Nat.mul_div_cancel _ hss
      rw [Nat.min_eq_left (by omega), if_neg (by omega),
        show (a / ss + 1) * ss + (b - (a / ss + 1) * ss) = b by omega, hm,
        show (b - 1) / ss + 1 - (a / ss + 1) = (b - 1) / ss - a / ss by omega]
      apply List.map_congr_left
      intro q hq
      rw [List.mem_range'_1] at hq
      have hq' : (a / ss + 1) * ss ≤ q * ss := Nat.mul_le_mul_right ss hq.1
      simp only [max_eq_right hq', max_eq_right (show a ≤ q * ss by omega)]

end Pieces

section Fields

variable (oca : DaosEcAttr) (s : AggStripe) (entry : VosIterEntry) (recx : DaosRecx)

@[simp] theorem aggExtentAdd_asDextents :
    (aggExtentAdd oca s entry recx).asDextents = s.asDextents ++ [pieceExtent entry recx] := by
  unfold aggExtentAdd
  dsimp only
  split_ifs <;> rfl

theorem aggExtentAdd_asStripeFill :
    (aggExtentAdd oca s entry recx).asStripeFill =
      s.asStripeFill + if entry.ieHole then 0 else aggInStripe oca recx := by
  unfold aggExtentAdd
  dsimp only
  split_ifs <;> simp_all

theorem aggExtentAdd_asStripenum :
    (aggExtentAdd oca s entry recx).asStripenum =
      if s.asDextents = [] then aggStripenum oca recx.rxIdx else s.asStripenum := by
  unfold aggExtentAdd AggStripe.asExtentCnt
  dsimp only
  split_ifs <;> simp_all

theorem aggExtentAdd_asOffset :
    (aggExtentAdd oca s entry recx).asOffset =
      if s.asDextents = [] then recx.rxIdx % objEcStripeRecNr oca else s.asOffset := by
  have hdown : recx.rxIdx - rounddown recx.rxIdx (objEcStripeRecNr oca) =
      recx.rxIdx % objEcStripeRecNr oca := by
    rw [rounddown_eq]
    have := Nat.mod_le recx.rxIdx (objEcStripeRecNr oca)
    omega
  unfold aggExtentAdd AggStripe.asExtentCnt
  dsimp only
  split_ifs <;> simp_all

@[simp] theorem aggClearExtents_asDextents : (aggClearExtents oca s).asDextents = [] := by
  unfold aggClearExtents AggStripe.asExtentCnt
  split
  · exact List.length_eq_zero_iff.mp ‹_›
  · rfl

theorem aggClearExtents_asStripeFill (hne : s.asDextents ≠ []) :
    (aggClearExtents oca s).asStripeFill = 0 := by
  unfold aggClearExtents AggStripe.asExtentCnt
  rw [if_neg (by simpa using hne)]

end Fields

/-- A piece inside one stripe lies in the stripe it starts in. -/
theorem aggInStripe_of_le (oca : EcClass) {recx : DaosRecx}
    (h : recx.rxIdx + recx.rxNr ≤
      (recx.rxIdx / objEcStripeRecNr oca.attr + 1) * objEcStripeRecNr oca.attr) :
    aggInStripe oca.attr recx = recx.rxNr := by
  have hss : (oca.attr.eLen * oca.attr.eK.toUInt32).toNat = objEcStripeRecNr oca.attr := by
    unfold objEcStripeRecNr
    rw [UInt32.mul_comm]
  have hend : (recx.rxIdx / objEcStripeRecNr oca.attr + 1) * objEcCellRecNr oca.attr *
      objEcDataTgtNr oca.attr =
      (recx.rxIdx / objEcStripeRecNr oca.attr + 1) * objEcStripeRecNr oca.attr := by
    rw [objEcStripeRecNr_eq, Nat.mul_assoc, Nat.mul_comm (objEcCellRecNr _)]
  unfold aggInStripe
  simp only [hss, hend]
  rw [if_neg (by omega)]

section Step

variable (oca : EcClass) (entry : VosIterEntry) {end_ offset m : ℕ} {s : AggStripe}

/-- A piece that may join the stripe joins it, and the stripe is handed over if the piece
reaches its end. -/
theorem aggDataExtentStep_add (hoff : offset < end_)
    (hm : min (roundup (offset + 1) (objEcStripeRecNr oca.attr)) end_ = m)
    (hadd : s.asDextents = [] ∨ offset / objEcStripeRecNr oca.attr = s.asStripenum) :
    aggDataExtentStep oca.attr entry end_ offset s =
      (m, aggAddPiece oca.attr s entry ⟨offset, m - offset⟩) := by
  have hss := objEcStripeRecNr_pos oca
  have hlt : offset < m := by
    rw [← hm, roundup_succ hss]
    have := Nat.mod_lt offset hss
    omega
  have hadded : s.asExtentCnt = 0 ∨ aggStripenum oca.attr offset = s.asStripenum := by
    unfold AggStripe.asExtentCnt aggStripenum
    rcases hadd with h | h
    · exact Or.inl (List.length_eq_zero_iff.mpr h)
    · exact Or.inr h
  have hnum : (aggExtentAdd oca.attr s entry ⟨offset, m - offset⟩).asStripenum =
      aggStripenum oca.attr offset := by
    rw [aggExtentAdd_asStripenum]
    split_ifs with h
    · rfl
    · exact (hadd.resolve_left h).symm
  have hcnt : (aggExtentAdd oca.attr s entry ⟨offset, m - offset⟩).asExtentCnt > 0 := by
    simp [AggStripe.asExtentCnt]
  unfold aggDataExtentStep aggAddPiece
  simp only [hm, if_pos hadded, hnum, Nat.add_sub_cancel' hlt.le]
  -- the stripe keeps the piece's number, so only the end of the piece can hand it over
  by_cases hend : aggStripenum oca.attr offset < aggStripenum oca.attr m
  · rw [if_pos ⟨Or.inr hend, hcnt⟩, if_pos hend]
  · rw [if_neg (fun h => hend (h.1.resolve_left (lt_irrefl _))), if_neg hend]

/-- A piece of a later stripe hands the stripe over and is not added yet. -/
theorem aggDataExtentStep_later (hne : s.asDextents ≠ [])
    (hlt : s.asStripenum < offset / objEcStripeRecNr oca.attr) :
    aggDataExtentStep oca.attr entry end_ offset s = (offset, aggClearExtents oca.attr s, [s]) := by
  have hnot : ¬(s.asExtentCnt = 0 ∨ aggStripenum oca.attr offset = s.asStripenum) := by
    unfold AggStripe.asExtentCnt aggStripenum
    simp only [List.length_eq_zero_iff, hne, false_or]
    omega
  have hcnt : s.asExtentCnt > 0 := List.length_pos_iff.mpr hne
  unfold aggDataExtentStep
  simp only [if_neg hnot]
  exact if_pos ⟨Or.inl hlt, hcnt⟩

theorem aggDataExtentLoop_add (hoff : offset < end_)
    (hm : min (roundup (offset + 1) (objEcStripeRecNr oca.attr)) end_ = m)
    (hadd : s.asDextents = [] ∨ offset / objEcStripeRecNr oca.attr = s.asStripenum) (fuel : ℕ) :
    aggDataExtentLoop oca.attr entry end_ (fuel + 1) offset s =
      (aggDataExtentLoop oca.attr entry end_ fuel m
          (aggAddPiece oca.attr s entry ⟨offset, m - offset⟩).1).map
        fun t => (t.1, (aggAddPiece oca.attr s entry ⟨offset, m - offset⟩).2 ++ t.2) := by
  rw [aggDataExtentLoop, if_pos hoff, aggDataExtentStep_add oca entry hoff hm hadd]

theorem aggDataExtentLoop_later (hoff : offset < end_) (hne : s.asDextents ≠ [])
    (hlt : s.asStripenum < offset / objEcStripeRecNr oca.attr) (fuel : ℕ) :
    aggDataExtentLoop oca.attr entry end_ (fuel + 1) offset s =
      (aggDataExtentLoop oca.attr entry end_ fuel offset (aggClearExtents oca.attr s)).map
        fun t => (t.1, s :: t.2) := by
  rw [aggDataExtentLoop, if_pos hoff, aggDataExtentStep_later oca entry hne hlt]
  rfl

end Step

/-- A stripe as it is handed over: not empty, each piece in the stripe, the fill the records of
the pieces that are not holes, the offset that of the first piece within the stripe. -/
structure StripeOk (ss : ℕ) (st : AggStripe) : Prop where
  nonempty : st.asDextents ≠ []
  inStripe : ∀ x ∈ st.asDextents, x.aeRecx.rxIdx / ss = st.asStripenum
  fill : st.asStripeFill =
    ((st.asDextents.filter fun x => !x.aeHole).map fun x => x.aeRecx.rxNr).sum
  offset : st.asDextents.head?.map (fun x => x.aeRecx.rxIdx % ss) = some st.asOffset

/-- The pieces gathered so far: those of the stripes handed over, then the current stripe's. -/
def gathered (out : List AggStripe) (s : AggStripe) : List AggExtent :=
  (out.map (·.asDextents)).flatten ++ s.asDextents

/-- The invariant of the gathering once the pieces so far end at `lastEnd`: the stripes handed
over are well formed, end by `lastEnd` and come in increasing order; the current stripe is empty,
or well formed, after all of them, and started before `lastEnd`. -/
structure Gathering (ss lastEnd : ℕ) (s : AggStripe) (out : List AggStripe) : Prop where
  outOk : ∀ st ∈ out, StripeOk ss st
  outEnd : ∀ st ∈ out, (st.asStripenum + 1) * ss ≤ lastEnd
  outSorted : (out.map (·.asStripenum)).Pairwise (· < ·)
  cur : s.asDextents = [] ∧ s.asStripeFill = 0 ∨
    StripeOk ss s ∧ (∀ st ∈ out, st.asStripenum < s.asStripenum) ∧ s.asStripenum * ss < lastEnd

section Gathering

variable {ss lastEnd : ℕ} {s : AggStripe} {out : List AggStripe}

theorem gathered_flush (oca : DaosEcAttr) (s : AggStripe) (out : List AggStripe) :
    gathered (out ++ [s]) (aggClearExtents oca s) = gathered out s := by
  simp [gathered]

theorem Gathering.mono (hg : Gathering ss lastEnd s out) {lastEnd' : ℕ} (hle : lastEnd ≤ lastEnd') :
    Gathering ss lastEnd' s out :=
  ⟨hg.outOk, fun st hst => (hg.outEnd st hst).trans hle, hg.outSorted,
    hg.cur.imp id fun h => ⟨h.1, h.2.1, lt_of_lt_of_le h.2.2 hle⟩⟩

/-- The current stripe is handed over before a piece of a later stripe at `offset`. -/
theorem Gathering.flush (oca : DaosEcAttr) (hg : Gathering ss lastEnd s out)
    (hok : StripeOk ss s) {offset : ℕ} (hlast : lastEnd ≤ offset)
    (hlt : s.asStripenum < offset / ss) :
    Gathering ss offset (aggClearExtents oca s) (out ++ [s]) := by
  have hbelow : ∀ st ∈ out, st.asStripenum < s.asStripenum := by
    rcases hg.cur with ⟨hempty, -⟩ | ⟨-, hbelow, -⟩
    · exact absurd hempty hok.nonempty
    · exact hbelow
  have hend : (s.asStripenum + 1) * ss ≤ offset :=
    calc (s.asStripenum + 1) * ss ≤ offset / ss * ss := Nat.mul_le_mul_right ss hlt
      _ ≤ offset := Nat.div_mul_le_self offset ss
  refine ⟨?_, ?_, ?_,
    Or.inl ⟨aggClearExtents_asDextents oca s, aggClearExtents_asStripeFill oca s hok.nonempty⟩⟩
  · intro st hst
    rcases List.mem_append.mp hst with hst | hst
    · exact hg.outOk st hst
    · rw [List.mem_singleton.mp hst]
      exact hok
  · intro st hst
    rcases List.mem_append.mp hst with hst | hst
    · exact (hg.outEnd st hst).trans hlast
    · rw [List.mem_singleton.mp hst]
      exact hend
  · rw [List.map_append, List.pairwise_append]
    refine ⟨hg.outSorted, List.pairwise_singleton _ _, fun a ha b hb => ?_⟩
    obtain ⟨st, hst, rfl⟩ := List.mem_map.mp ha
    rw [List.map_singleton, List.mem_singleton] at hb
    rw [hb]
    exact hbelow st hst

/-- The piece step keeps the invariant: the piece joins the current stripe, which is handed over
if the piece reaches the stripe's end. -/
theorem Gathering.addPiece (oca : EcClass) (entry : VosIterEntry) {offset m : ℕ}
    (hg : Gathering (objEcStripeRecNr oca.attr) lastEnd s out) (hlast : lastEnd ≤ offset)
    (hm : offset < m)
    (hmle : m ≤ (offset / objEcStripeRecNr oca.attr + 1) * objEcStripeRecNr oca.attr)
    (hadd : s.asDextents = [] ∨ offset / objEcStripeRecNr oca.attr = s.asStripenum) :
    Gathering (objEcStripeRecNr oca.attr) m (aggAddPiece oca.attr s entry ⟨offset, m - offset⟩).1
        (out ++ (aggAddPiece oca.attr s entry ⟨offset, m - offset⟩).2) ∧
      gathered (out ++ (aggAddPiece oca.attr s entry ⟨offset, m - offset⟩).2)
          (aggAddPiece oca.attr s entry ⟨offset, m - offset⟩).1 =
        gathered out s ++ [pieceExtent entry ⟨offset, m - offset⟩] := by
  set ss := objEcStripeRecNr oca.attr with hss_def
  set p : DaosRecx := ⟨offset, m - offset⟩ with hp
  set s₁ := aggExtentAdd oca.attr s entry p with hs₁
  -- what the invariant says of the stripe the piece joins
  have hsdx : ∀ x ∈ s.asDextents, x.aeRecx.rxIdx / ss = offset / ss := by
    intro x hx
    rcases hg.cur with ⟨hempty, -⟩ | ⟨hok, -, -⟩
    · simp [hempty] at hx
    · rw [hok.inStripe x hx, hadd.resolve_left hok.nonempty]
  have hsfill : s.asStripeFill =
      ((s.asDextents.filter fun x => !x.aeHole).map fun x => x.aeRecx.rxNr).sum := by
    rcases hg.cur with ⟨hempty, hfill⟩ | ⟨hok, -, -⟩
    · simp [hempty, hfill]
    · exact hok.fill
  have hbelow : ∀ st ∈ out, st.asStripenum < offset / ss := by
    intro st hst
    rcases hg.cur with ⟨-, -⟩ | ⟨hok, hbelow, -⟩
    · have := (hg.outEnd st hst).trans hlast
      exact (Nat.le_div_iff_mul_le (objEcStripeRecNr_pos oca)).mpr this
    · rw [hadd.resolve_left hok.nonempty]
      exact hbelow st hst
  have hnum : s₁.asStripenum = offset / ss := by
    rw [hs₁, aggExtentAdd_asStripenum]
    split_ifs with h
    · rfl
    · exact (hadd.resolve_left h).symm
  have hok : StripeOk ss s₁ := by
    refine ⟨by simp [s₁], ?_, ?_, ?_⟩
    · intro x hx
      rw [hs₁, aggExtentAdd_asDextents, List.mem_append, List.mem_singleton] at hx
      rw [hnum]
      rcases hx with hx | rfl
      · exact hsdx x hx
      · rfl
    · -- the piece lies in one stripe, so all of it counts
      have hin : aggInStripe oca.attr p = m - offset := by
        apply aggInStripe_of_le oca
        show offset + (m - offset) ≤ (offset / ss + 1) * ss
        omega
      rw [hs₁, aggExtentAdd_asStripeFill, aggExtentAdd_asDextents, List.filter_append,
        List.map_append, List.sum_append, hsfill, hin]
      cases hhole : entry.ieHole <;> simp [pieceExtent, p, hhole]
    · rw [hs₁, aggExtentAdd_asDextents, aggExtentAdd_asOffset]
      split_ifs with h
      · simp [h, pieceExtent, p, hss_def]
      · rw [List.head?_append_of_ne_nil _ h]
        rcases hg.cur with ⟨hempty, -⟩ | ⟨hok, -, -⟩
        · exact absurd hempty h
        · exact hok.offset
  have hopen : Gathering ss m s₁ out := by
    refine ⟨hg.outOk, fun st hst => (hg.outEnd st hst).trans (by omega), hg.outSorted,
      Or.inr ⟨hok, fun st hst => hnum ▸ hbelow st hst, ?_⟩⟩
    rw [hnum]
    exact lt_of_le_of_lt (Nat.div_mul_le_self offset ss) hm
  have hgat : gathered out s₁ = gathered out s ++ [pieceExtent entry p] := by
    simp [gathered, s₁]
  have hcond : aggStripenum oca.attr p.rxIdx < aggStripenum oca.attr (p.rxIdx + p.rxNr) ↔
      offset / ss < m / ss := by
    show offset / ss < (offset + (m - offset)) / ss ↔ _
    rw [Nat.add_sub_cancel' hm.le]
  unfold aggAddPiece
  dsimp only
  by_cases hend : offset / ss < m / ss
  · rw [if_pos (hcond.mpr hend)]
    exact ⟨hopen.flush oca.attr hok le_rfl (hnum ▸ hend), by rw [gathered_flush, hgat]⟩
  · rw [if_neg (fun h => hend (hcond.mp h))]
    exact ⟨by simpa using hopen, by rw [List.append_nil, hgat]⟩

end Gathering

/-- The loop of `agg_data_extent` from `offset` to `end_` ends within two passes a record, and
keeps the invariant: the pieces it gathers are those of `[offset, end_)` cut at the stripe
boundaries. -/
theorem aggDataExtentLoop_gathering (oca : EcClass) (entry : VosIterEntry) (end_ : ℕ) :
    ∀ fuel offset s out lastEnd, 2 * (end_ - offset) + 1 ≤ fuel → lastEnd ≤ offset →
      offset ≤ end_ → Gathering (objEcStripeRecNr oca.attr) lastEnd s out →
      ∃ s' emitted, aggDataExtentLoop oca.attr entry end_ fuel offset s = some (s', emitted) ∧
        Gathering (objEcStripeRecNr oca.attr) end_ s' (out ++ emitted) ∧
        gathered (out ++ emitted) s' = gathered out s ++
          (stripePieces (objEcStripeRecNr oca.attr) ⟨offset, end_ - offset⟩).map
            (pieceExtent entry) := by
  intro fuel
  induction fuel using Nat.strong_induction_on with
  | _ fuel ih =>
  intro offset s out lastEnd hfuel hlast hend hg
  set ss := objEcStripeRecNr oca.attr with hss_def
  have hss : 0 < ss := objEcStripeRecNr_pos oca
  by_cases hoff : offset < end_
  swap
  · -- nothing left: the loop stops
    obtain rfl : offset = end_ := by omega
    obtain ⟨f, rfl⟩ : ∃ f, fuel = f + 1 := ⟨fuel - 1, by omega⟩
    refine ⟨s, [], ?_, by simpa using hg.mono hlast, ?_⟩
    · rw [aggDataExtentLoop, if_neg (lt_irrefl _)]
    · simp [stripePieces]
  -- the first piece runs to `m`, the next stripe boundary or the end
  set m := min (roundup (offset + 1) ss) end_ with hm
  have hup : roundup (offset + 1) ss = offset - offset % ss + ss := roundup_succ hss offset
  have hdm := Nat.div_add_mod' offset ss
  have hmod := Nat.mod_lt offset hss
  have hnext : (offset / ss + 1) * ss = offset / ss * ss + ss := Nat.add_one_mul _ _
  have hpiece : offset < m ∧ m ≤ end_ ∧ m ≤ (offset / ss + 1) * ss := by omega
  have hpieces : stripePieces ss ⟨offset, end_ - offset⟩ =
      ⟨offset, m - offset⟩ :: stripePieces ss ⟨m, end_ - m⟩ :=
    stripePieces_cons hss hoff
  -- a piece that may join the stripe, with `f + 1` passes left
  have addCase : ∀ f, f + 1 ≤ fuel → 2 * (end_ - m) + 1 ≤ f → ∀ s out lastEnd,
      lastEnd ≤ offset → Gathering ss lastEnd s out →
      (s.asDextents = [] ∨ offset / ss = s.asStripenum) →
      ∃ s' emitted, aggDataExtentLoop oca.attr entry end_ (f + 1) offset s = some (s', emitted) ∧
        Gathering ss end_ s' (out ++ emitted) ∧
        gathered (out ++ emitted) s' = gathered out s ++
          (stripePieces ss ⟨offset, end_ - offset⟩).map (pieceExtent entry) := by
    intro f hf hfm s out lastEnd hlast hg hadd
    obtain ⟨hg₁, hgat₁⟩ := hg.addPiece oca entry hlast hpiece.1 hpiece.2.2 hadd
    obtain ⟨s', emitted, hrun, hg', hgat'⟩ :=
      ih f (by omega) m _ _ m hfm le_rfl hpiece.2.1 hg₁
    refine ⟨s', _ ++ emitted, ?_, by simpa using hg', ?_⟩
    · rw [aggDataExtentLoop_add oca entry hoff hm.symm hadd, hrun]
      rfl
    · rw [← List.append_assoc, hgat', hgat₁, hpieces]
      simp
  rcases hg.cur with ⟨hempty, -⟩ | ⟨hok, -, hlow⟩
  · obtain ⟨f, rfl⟩ : ∃ f, fuel = f + 1 := ⟨fuel - 1, by omega⟩
    exact addCase f le_rfl (by omega) s out lastEnd hlast hg (Or.inl hempty)
  by_cases hsame : offset / ss = s.asStripenum
  · obtain ⟨f, rfl⟩ : ∃ f, fuel = f + 1 := ⟨fuel - 1, by omega⟩
    exact addCase f le_rfl (by omega) s out lastEnd hlast hg (Or.inr hsame)
  -- a piece of a later stripe: the stripe is handed over first, then the piece joins
  have hlt : s.asStripenum < offset / ss := by
    have : s.asStripenum ≤ offset / ss :=
      (Nat.le_div_iff_mul_le hss).mpr (by omega)
    omega
  obtain ⟨f, rfl⟩ : ∃ f, fuel = f + 2 := ⟨fuel - 2, by omega⟩
  obtain ⟨s', emitted, hrun, hg', hgat'⟩ :=
    addCase f (by omega) (by omega) (aggClearExtents oca.attr s) (out ++ [s]) offset le_rfl
      (hg.flush oca.attr hok hlast hlt) (Or.inl (aggClearExtents_asDextents oca.attr s))
  refine ⟨s', s :: emitted, ?_, by simpa using hg', ?_⟩
  · rw [aggDataExtentLoop_later oca entry hoff hok.nonempty hlt, hrun]
    rfl
  · rw [← gathered_flush oca.attr s out, ← hgat']
    simp

/-- `agg_data_extent` on a data extent that starts where the pieces so far end or later: it
returns, and gathers the extent's pieces. -/
theorem aggDataExtent_gathering (oca : EcClass) (entry : VosIterEntry) {s : AggStripe}
    {out : List AggStripe} {lastEnd : ℕ} (hdata : entry.ieRecx.rxIdx < 2 ^ 63)
    (hlast : lastEnd ≤ entry.ieRecx.rxIdx) (hg : Gathering (objEcStripeRecNr oca.attr) lastEnd s out) :
    ∃ s' emitted, aggDataExtent oca.attr entry s = some (s', emitted) ∧
      Gathering (objEcStripeRecNr oca.attr) (entry.ieRecx.rxIdx + entry.ieRecx.rxNr) s'
        (out ++ emitted) ∧
      gathered (out ++ emitted) s' = gathered out s ++
        (stripePieces (objEcStripeRecNr oca.attr) entry.ieRecx).map (pieceExtent entry) := by
  have hrecx : (⟨entry.ieRecx.rxIdx, entry.ieRecx.rxIdx + entry.ieRecx.rxNr - entry.ieRecx.rxIdx⟩ :
      DaosRecx) = entry.ieRecx := by
    rw [Nat.add_sub_cancel_left]
  obtain ⟨s', emitted, hrun, hg', hgat⟩ :=
    aggDataExtentLoop_gathering oca entry (entry.ieRecx.rxIdx + entry.ieRecx.rxNr)
    (2 * entry.ieRecx.rxNr + 1) entry.ieRecx.rxIdx s out lastEnd (by omega) hlast (by omega) hg
  refine ⟨s', emitted, ?_, hg', by rw [hgat, hrecx]⟩
  unfold aggDataExtent
  rw [if_neg (by rw [land_parityIndicator_of_lt hdata]; exact not_not.mpr rfl), hrun]

/-- `agg_akey_post` hands the stripe left over, if any. -/
theorem aggAkeyPost_gathered (oca : DaosEcAttr) {ss lastEnd : ℕ} {s : AggStripe}
    {out : List AggStripe} (hg : Gathering ss lastEnd s out) :
    (∀ st ∈ out ++ (aggAkeyPost oca s).2, StripeOk ss st) ∧
      ((out ++ (aggAkeyPost oca s).2).map (·.asStripenum)).Pairwise (· < ·) ∧
      ((out ++ (aggAkeyPost oca s).2).map (·.asDextents)).flatten = gathered out s := by
  unfold aggAkeyPost AggStripe.asExtentCnt
  split
  · rename_i hcnt
    have hne : s.asDextents ≠ [] := fun h => hcnt (by simp [h])
    obtain ⟨hok, hbelow, -⟩ := hg.cur.resolve_left fun h => hne h.1
    refine ⟨?_, ?_, by simp [gathered]⟩
    · intro st hst
      rcases List.mem_append.mp hst with hst | hst
      · exact hg.outOk st hst
      · rw [List.mem_singleton.mp hst]
        exact hok
    · rw [List.map_append, List.pairwise_append]
      refine ⟨hg.outSorted, List.pairwise_singleton _ _, fun a ha b hb => ?_⟩
      obtain ⟨st, hst, rfl⟩ := List.mem_map.mp ha
      rw [List.map_singleton, List.mem_singleton] at hb
      rw [hb]
      exact hbelow st hst
  · rename_i hcnt
    have hempty : s.asDextents = [] := List.length_eq_zero_iff.mp (not_not.mp hcnt)
    exact ⟨by simpa using hg.outOk, by simpa using hg.outSorted, by simp [gathered, hempty]⟩

/-- The iteration over an akey's extents, in increasing order, keeps the invariant to its end:
every stripe handed over is well formed, they come in increasing order, and together they hold
every piece. -/
theorem aggAkeyIterate_gathering (oca : EcClass) :
    ∀ (es : List VosIterEntry) (s : AggStripe) (out : List AggStripe) (lastEnd : ℕ),
      (∀ e ∈ es, e.ieRecx.rxIdx < 2 ^ 63) →
      es.IsChain (fun e e' => e.ieRecx.rxIdx + e.ieRecx.rxNr ≤ e'.ieRecx.rxIdx) →
      (∀ e ∈ es.head?, lastEnd ≤ e.ieRecx.rxIdx) →
      Gathering (objEcStripeRecNr oca.attr) lastEnd s out →
      ∃ s' emitted, aggAkeyIterate oca.attr es s = some (s', emitted) ∧
        (∀ st ∈ out ++ emitted, StripeOk (objEcStripeRecNr oca.attr) st) ∧
        ((out ++ emitted).map (·.asStripenum)).Pairwise (· < ·) ∧
        ((out ++ emitted).map (·.asDextents)).flatten = gathered out s ++
          es.flatMap fun e => (stripePieces (objEcStripeRecNr oca.attr) e.ieRecx).map (pieceExtent e)
  | [], s, out, _, _, _, _, hg => by
    obtain ⟨hok, hsorted, hflat⟩ := aggAkeyPost_gathered oca.attr hg
    refine ⟨_, _, rfl, hok, hsorted, ?_⟩
    rw [List.flatMap_nil, List.append_nil]
    exact hflat
  | e :: es, s, out, lastEnd, hdata, hchain, hhead, hg => by
    rw [List.isChain_cons] at hchain
    obtain ⟨s₁, emitted₁, hrun₁, hg₁, hgat₁⟩ :=
      aggDataExtent_gathering oca e (hdata e (by simp)) (hhead e rfl) hg
    obtain ⟨s', emitted, hrun, hok, hsorted, hflat⟩ :=
      aggAkeyIterate_gathering oca es s₁ (out ++ emitted₁) _
        (fun e' he' => hdata e' (List.mem_cons_of_mem e he')) hchain.2 hchain.1 hg₁
    refine ⟨s', emitted₁ ++ emitted, ?_, by simpa using hok, by simpa using hsorted, ?_⟩
    · simp only [aggAkeyIterate, hrun₁, Option.bind_some, hrun, Option.map_some]
    · rw [← List.append_assoc, hflat, hgat₁, List.flatMap_cons, List.append_assoc]

/-- The gathering of `agg_data_extent` is exact. From a cleared stripe, over any increasing
sequence of disjoint data extents of an akey, the iteration returns, and the stripes it hands to
`agg_process_stripe` are the extents' pieces cut at the stripe boundaries, grouped by stripe
number: one stripe for each maximal run of pieces of one stripe. Each stripe handed over is well
formed: its number is that of each of its pieces, and its fill is the records of its pieces that
are not holes. -/
theorem aggAkeyIterate_groups (oca : EcClass) (es : List VosIterEntry) (s : AggStripe)
    (hempty : s.asDextents = []) (hfill : s.asStripeFill = 0)
    (hdata : ∀ e ∈ es, e.ieRecx.rxIdx < 2 ^ 63)
    (hsorted : es.IsChain fun e e' => e.ieRecx.rxIdx + e.ieRecx.rxNr ≤ e'.ieRecx.rxIdx) :
    ∃ s' out, aggAkeyIterate oca.attr es s = some (s', out) ∧
      out.map (·.asDextents) =
        (es.flatMap fun e => (stripePieces (objEcStripeRecNr oca.attr) e.ieRecx).map
          (pieceExtent e)).splitBy
          (fun x y => aggStripenum oca.attr x.aeRecx.rxIdx == aggStripenum oca.attr y.aeRecx.rxIdx) ∧
      ∀ st ∈ out, StripeOk (objEcStripeRecNr oca.attr) st := by
  have hg : Gathering (objEcStripeRecNr oca.attr) 0 s [] :=
    ⟨by simp, by simp, List.Pairwise.nil, Or.inl ⟨hempty, hfill⟩⟩
  obtain ⟨s', out, hrun, hok, hsorted', hflat⟩ :=
    aggAkeyIterate_gathering oca es s [] 0 hdata hsorted (fun _ _ => Nat.zero_le _) hg
  rw [List.nil_append] at hok hsorted' hflat
  refine ⟨s', out, hrun, ?_, hok⟩
  rw [gathered, hempty, List.map_nil, List.flatten_nil, List.nil_append, List.nil_append] at hflat
  rw [← hflat]
  -- the stripes handed over are groups of one stripe number, increasing from one to the next
  symm
  apply Keyed.splitBy_flatten_of_key
  · intro hnil
    obtain ⟨st, hst, hst'⟩ := List.mem_map.mp hnil
    exact (hok st hst).nonempty hst'
  · intro g hg x hx y hy
    obtain ⟨st, hst, rfl⟩ := List.mem_map.mp hg
    show x.aeRecx.rxIdx / _ = y.aeRecx.rxIdx / _
    rw [(hok st hst).inStripe x hx, (hok st hst).inStripe y hy]
  · rw [List.isChain_map]
    refine (List.pairwise_map.mp hsorted').isChain.imp_of_mem_imp ?_
    intro st st' hst hst' hlt x hx y hy heq
    have hx' := (hok st hst).inStripe x hx
    have hy' := (hok st' hst').inStripe y hy
    have : x.aeRecx.rxIdx / objEcStripeRecNr oca.attr = y.aeRecx.rxIdx / objEcStripeRecNr oca.attr :=
      heq
    omega

/-- A 2+1 class with cells of 4096 records and three extents, the second across the boundary
of stripes 0 and 1 and the third a hole in stripe 2: three stripes are handed over. -/
theorem aggAkeyIterate_groups_three_stripes :
    let oca : EcClass := ⟨⟨2, 1, 4096⟩, by decide, by decide, by decide, by decide⟩
    let es : List VosIterEntry :=
      [⟨⟨0, 5000⟩, 3, false⟩, ⟨⟨6000, 4000⟩, 4, false⟩, ⟨⟨20000, 100⟩, 5, true⟩]
    let s : AggStripe := ⟨0, 0, 0, [], 0, 0, false⟩
    s.asDextents = [] ∧ s.asStripeFill = 0 ∧ (∀ e ∈ es, e.ieRecx.rxIdx < 2 ^ 63) ∧
      es.IsChain (fun e e' => e.ieRecx.rxIdx + e.ieRecx.rxNr ≤ e'.ieRecx.rxIdx) ∧
      ∃ s' out, aggAkeyIterate oca.attr es s = some (s', out) ∧
        out.map (·.asDextents) =
          (es.flatMap fun e => (stripePieces (objEcStripeRecNr oca.attr) e.ieRecx).map
            (pieceExtent e)).splitBy (fun x y =>
              aggStripenum oca.attr x.aeRecx.rxIdx == aggStripenum oca.attr y.aeRecx.rxIdx) ∧
        (∀ st ∈ out, StripeOk (objEcStripeRecNr oca.attr) st) ∧
        out.map (fun st => (st.asStripenum, st.asStripeFill)) = [(0, 7192), (1, 1808), (2, 0)] := by
  intro oca es s
  have hempty : s.asDextents = [] := rfl
  have hfill : s.asStripeFill = 0 := rfl
  have hdata : ∀ e ∈ es, e.ieRecx.rxIdx < 2 ^ 63 := by decide
  have hsorted : es.IsChain (fun e e' => e.ieRecx.rxIdx + e.ieRecx.rxNr ≤ e'.ieRecx.rxIdx) := by
    decide
  obtain ⟨s', out, hrun, hgroups, hok⟩ := aggAkeyIterate_groups oca es s hempty hfill hdata hsorted
  have hcalc : (aggAkeyIterate oca.attr es s).map
      (fun r => r.2.map fun st => (st.asStripenum, st.asStripeFill)) =
      some [(0, 7192), (1, 1808), (2, 0)] := by decide
  rw [hrun] at hcalc
  exact ⟨hempty, hfill, hdata, hsorted, s', out, hrun, hgroups, hok, Option.some.inj hcalc⟩

/-! ## Cells of a partial stripe -/

/-- `agg_overlap`: whether `[estart, estart + elen)` of stripe `stripenum` overlaps cell
`cellIdx`. -/
def aggOverlap (estart elen cellIdx k len stripenum : ℕ) : Bool :=
  daosRecxOverlap ⟨estart + k * len * stripenum, elen⟩ ⟨k * len * stripenum + len * cellIdx, len⟩

/-- What `agg_count_cells` updates in place: the cells whose bit is set in `fcbit_map` and in
`tbit_map`, and the full-cell counter (`none` for a `NULL` pointer). -/
structure CellMaps where
  fcbitMap : Finset ℕ
  tbitMap : Finset ℕ
  fullCellCnt : Option ℕ

/-- Field by field, so that the kernel can decide it: the derived instance casts along the
equality of the first fields, which does not reduce for two equal sets built in another
order. -/
instance : DecidableEq CellMaps := fun a b =>
  decidable_of_iff (a.fcbitMap = b.fcbitMap ∧ a.tbitMap = b.tbitMap ∧ a.fullCellCnt = b.fullCellCnt)
    (by cases a; cases b; simp)

/-- One pass of the loop of `agg_count_cells`, at cell `i`; the second component is the
`cell_cnt` it returns. -/
def aggCountCell (estart elen k len stripenum : ℕ) (acc : CellMaps × ℕ) (i : ℕ) :
    CellMaps × ℕ :=
  let m := acc.1
  if i * len ≥ estart ∧ estart + elen ≥ (i + 1) * len then
    -- the run covers the cell: counted whether or not its bit was already set
    ({ fcbitMap := if m.fullCellCnt.isSome then insert i m.fcbitMap else m.fcbitMap,
       tbitMap := insert i m.tbitMap,
       fullCellCnt := m.fullCellCnt.map (· + 1) }, acc.2 + 1)
  else if aggOverlap estart elen i k len stripenum then
    if i ∉ m.tbitMap then ({ m with tbitMap := insert i m.tbitMap }, acc.2 + 1) else acc
  else acc

/-- `agg_count_cells`. -/
def aggCountCells (m : CellMaps) (estart elen k len stripenum : ℕ) : CellMaps × ℕ :=
  (List.range k).foldl (aggCountCell estart elen k len stripenum) (m, 0)

/-- The running state of the extent loop of `agg_process_partial_stripe`. -/
structure PartialScan where
  maps : CellMaps
  cellCnt : ℕ
  estart : ℕ
  elen : ℕ
  eend : ℕ
  hasOldReplicas : Bool

/-- One pass of the extent loop of `agg_process_partial_stripe`; `none` where its
`D_ASSERT(!extent->ae_hole)` fails. -/
def aggPartialScan (k len stripenum parEpoch : ℕ) (st : PartialScan) (extent : AggExtent) :
    Option PartialScan :=
  let ss := k * len * stripenum
  let idx := extent.aeRecx.rxIdx - ss
  let nr := extent.aeRecx.rxNr
  if extent.aeHole then none
  else if extent.aeEpoch ≤ parEpoch then some { st with hasOldReplicas := true }
  else if st.estart = idx then some { st with eend := st.estart + nr, elen := nr }
  else if idx > st.eend then
    -- a gap: the run so far is counted and a new one starts here; `eend` is not reset
    let r := aggCountCells st.maps st.estart st.elen k len stripenum
    some { st with maps := r.1, cellCnt := st.cellCnt + r.2, estart := idx, elen := nr,
                   eend := st.eend + nr }
  else some { st with elen := st.elen + nr, eend := st.eend + nr }

/-- The cell classification of `agg_process_partial_stripe` against the parity epoch
`parEpoch`: the maps with `full_cell_cnt`, `cell_cnt` and `has_old_replicas` after the extent
loop and the last `agg_count_cells`. -/
def aggPartialStripeCells (oca : DaosEcAttr) (parEpoch : ℕ) (s : AggStripe) :
    Option (CellMaps × ℕ × Bool) :=
  let k := objEcDataTgtNr oca
  let len := objEcCellRecNr oca
  let init : PartialScan := ⟨⟨∅, ∅, some 0⟩, 0, s.asOffset, 0, 0, false⟩
  (s.asDextents.foldlM (aggPartialScan k len s.asStripenum parEpoch) init).map fun st =>
    let r := aggCountCells st.maps st.estart st.elen k len s.asStripenum
    (r.1, st.cellCnt + r.2, st.hasOldReplicas)

/-- What `agg_process_partial_stripe` does with the classification: whether the parity is
recalculated from whole data (`asu_recalc`), the cells read locally and their count
(`agg_fetch_local_extents`), and the cells and count the update is sent for (`asu_bit_map`,
`asu_cell_cnt`). -/
structure PartialUpdate where
  asuRecalc : Bool
  fetchBitMap : Finset ℕ
  fetchCellCnt : ℕ
  asuBitMap : Finset ℕ
  asuCellCnt : ℕ

/-- The choice between recalculation and a partial parity update. Recalculation reads the full
cells and then flips the first `k` bits of their map. -/
def aggPartialUpdate (k : ℕ) (maps : CellMaps) (cellCnt : ℕ) (hasOldReplicas : Bool) :
    PartialUpdate :=
  let fullCellCnt := maps.fullCellCnt.getD 0
  if fullCellCnt ≥ k / 2 ∨ cellCnt = k ∨ hasOldReplicas = true then
    ⟨true, maps.fcbitMap, fullCellCnt,
      (maps.fcbitMap \ Finset.range k) ∪ (Finset.range k \ maps.fcbitMap), k - fullCellCnt⟩
  else ⟨false, maps.tbitMap, cellCnt, maps.tbitMap, cellCnt⟩

/-- `agg_process_partial_stripe` up to the update it sends. -/
def aggProcessPartialStripe (oca : DaosEcAttr) (parEpoch : ℕ) (s : AggStripe) :
    Option PartialUpdate :=
  (aggPartialStripeCells oca parEpoch s).map fun r =>
    aggPartialUpdate (objEcDataTgtNr oca) r.1 r.2.1 r.2.2

/-- Cell `i` of stripe `stripenum` overlaps an extent of `exts` newer than `parEpoch`. -/
def NewerOverlaps (k len stripenum parEpoch : ℕ) (exts : List AggExtent) (i : ℕ) : Prop :=
  ∃ e ∈ exts, parEpoch < e.aeEpoch ∧
    daosRecxOverlap e.aeRecx ⟨k * len * stripenum + len * i, len⟩ = true

/-- Every record of cell `i` of stripe `stripenum` lies in an extent of `exts` newer than
`parEpoch`. -/
def NewerCovers (k len stripenum parEpoch : ℕ) (exts : List AggExtent) (i : ℕ) : Prop :=
  ∀ x ∈ List.range' (k * len * stripenum + len * i) len, ∃ e ∈ exts, parEpoch < e.aeEpoch ∧
    e.aeRecx.rxIdx ≤ x ∧ x < e.aeRecx.rxIdx + e.aeRecx.rxNr

instance (k len stripenum parEpoch : ℕ) (exts : List AggExtent) :
    DecidablePred (NewerOverlaps k len stripenum parEpoch exts) := fun i =>
  inferInstanceAs (Decidable (∃ e ∈ exts, parEpoch < e.aeEpoch ∧
    daosRecxOverlap e.aeRecx ⟨k * len * stripenum + len * i, len⟩ = true))

instance (k len stripenum parEpoch : ℕ) (exts : List AggExtent) :
    DecidablePred (NewerCovers k len stripenum parEpoch exts) := fun i =>
  inferInstanceAs (Decidable (∀ x ∈ List.range' (k * len * stripenum + len * i) len,
    ∃ e ∈ exts, parEpoch < e.aeEpoch ∧ e.aeRecx.rxIdx ≤ x ∧ x < e.aeRecx.rxIdx + e.aeRecx.rxNr))

/-- Two cells of 20 records. First: three extents newer than the parity, a gap after the first;
the second and third are adjacent and cover cell 1 together, yet neither the bitmap of full
cells nor the counter has it. Second: an extent older than the parity comes first, at offset 2,
and the only newer one lies in cell 1; cell 0 is marked touched all the same. -/
theorem aggPartialStripeCells_gap_splits_cell :
    aggPartialStripeCells ⟨2, 1, 20⟩ 1
        { asStripenum := 0, asHiEpoch := 2, asLoEpoch := 2, asStripeFill := 38, asOffset := 0,
          asHasHoles := false,
          asDextents := [⟨⟨0, 2⟩, 2, false⟩, ⟨⟨4, 21⟩, 2, false⟩, ⟨⟨25, 15⟩, 2, false⟩] } =
        some (⟨∅, {0, 1}, some 0⟩, 2, false) ∧
      NewerCovers 2 20 0 1 [⟨⟨0, 2⟩, 2, false⟩, ⟨⟨4, 21⟩, 2, false⟩, ⟨⟨25, 15⟩, 2, false⟩] 1 ∧
    aggPartialStripeCells ⟨2, 1, 20⟩ 1
        { asStripenum := 0, asHiEpoch := 2, asLoEpoch := 1, asStripeFill := 18, asOffset := 2,
          asHasHoles := false, asDextents := [⟨⟨2, 8⟩, 1, false⟩, ⟨⟨30, 10⟩, 2, false⟩] } =
        some (⟨∅, {0, 1}, some 0⟩, 2, true) ∧
      ¬ NewerOverlaps 2 20 0 1 [⟨⟨2, 8⟩, 1, false⟩, ⟨⟨30, 10⟩, 2, false⟩] 0 := by
  decide

end Daos.Object

import Daos.Control.HostParse
import Daos.Lib.Keyed

/-!
# Numeric lists and rank sets (`hostlist/numericlist.go`, `ranklist/ranklist.go`)

A `NumericList` is a host list of bare numbers, and a `NumericSet` one kept unique by calling
`Uniq` after every change. A `RankSet` wraps a numeric set of the ranks of a system, written as
`1-4,6` and read back by `CreateRankSet`.

**What is modelled.** The set's pointer is never nil: every rank set is made by `NewRankSet` or
`CreateRankSet`, so the branches for a nil set are left out. `Rank` is `uint32`: `Add` widens it
and `Ranks` truncates each number back (`UInt32.ofNat`). A `panic` of `NumericList.Delete` is an
error carrying its text.

**What is proved.** A well-formed rank set (`RankSet.Wf`: its ranges are the maximal runs of
its ranks, unpadded and in increasing order, every rank below `2 ^ 32`) is a set of ranks along
every run of calls: each of `Add`, `Delete`, `Merge` and `Replace` succeeds, keeps it well
formed and acts on its ranks as the set operation it stands for (`RankSet.run_wf`). Numbers
written with zero padding fall outside this: they are never joined with the unpadded ones
(`createRankSet_padded_duplicates`).
-/

namespace Daos.Control

/-- The character loop of `CreateNumericList`. -/
def checkNumericChars : List Char → Except (List Char) Unit
  | [] => pure ()
  | r :: rs =>
    if isGoSpace r then throw "unexpected whitespace character(s)".toList
    else if isGoLetter r then throw "unexpected alphabetic character(s)".toList
    else checkNumericChars rs

/-- `NumericList`. -/
structure NumericList where
  hl : HostList := {}
deriving DecidableEq, Repr

namespace NumericList

/-- `Add`. -/
def add (nl : NumericList) (i : ℕ) : NumericList :=
  ⟨nl.hl.pushRange { lo := i, hi := i, width := 1, isRange := true }⟩

/-- The loop of `Delete` from range `idx` on: the first range holding `i` loses it. The range
`containsHost` returns replaces the one it probed, as the source probes through a pointer; the
upper part of a split range goes in before the lower one. -/
def deleteLoop (i : ℕ) (hl : HostList) : ℕ → List HostRange → Except String HostList
  | _, [] => pure hl
  | idx, hr :: rest =>
    let (_, found, hr) := hr.containsHost { number := i, hasNumber := true }
    let hl := { hl with ranges := hl.ranges.set idx hr }
    if !found then deleteLoop i hl (idx + 1) rest
    else if hr.count = 1 then
      match hl.deleteRangeAt idx with
      | .error err => .error ("internal error: " ++ err)
      | .ok hl => .ok hl
    else
      match hr.deleteHost i with
      | .error err => .error ("internal error: " ++ err)
      | .ok (new, hr) =>
        let hl := { ranges := hl.ranges.set idx hr, hostCount := hl.hostCount - 1 }
        match new with
        | some new => .ok (hl.insertRangeAt idx new)
        | none => .ok hl

/-- `Delete`. -/
def delete (nl : NumericList) (i : ℕ) : Except String NumericList := do
  let hl ← deleteLoop i nl.hl 0 nl.hl.ranges
  pure ⟨hl⟩

/-- `Slice`. -/
def slice (nl : NumericList) : List ℕ :=
  nl.hl.ranges.flatMap fun hr => List.range' hr.lo (hr.hi + 1 - hr.lo)

/-- `Uniq`. -/
def uniq (nl : NumericList) : NumericList :=
  ⟨nl.hl.uniq⟩

/-- `String`, the `RangedString` of the list. -/
def string (nl : NumericList) : List Char :=
  nl.hl.rangedString

/-- `Count`. -/
def count (nl : NumericList) : ℤ :=
  nl.hl.count

/-- `Merge`. -/
def merge (nl other : NumericList) : NumericList :=
  ⟨nl.hl.pushList other.hl⟩

/-- `Replace`. -/
def replace (nl other : NumericList) : NumericList :=
  ⟨nl.hl.replaceList other.hl⟩

end NumericList

/-- `CreateNumericList`. -/
def createNumericList (stringRanges : List Char) : Except (List Char) NumericList := do
  checkNumericChars stringRanges
  let hl ← HostList.parseBracketedHostList stringRanges true
  pure ⟨hl⟩

/-- `NumericSet`. -/
structure NumericSet extends NumericList
deriving DecidableEq, Repr

namespace NumericSet

/-- `Add`. -/
def add (ns : NumericSet) (i : ℕ) : NumericSet :=
  ⟨(ns.toNumericList.add i).uniq⟩

/-- `Delete`. -/
def delete (ns : NumericSet) (i : ℕ) : Except String NumericSet := do
  let nl ← ns.toNumericList.delete i
  pure ⟨nl.uniq⟩

/-- `Merge`. -/
def merge (ns other : NumericSet) : NumericSet :=
  ⟨(ns.toNumericList.merge other.toNumericList).uniq⟩

/-- `Replace`. -/
def replace (ns other : NumericSet) : NumericSet :=
  ⟨(ns.toNumericList.replace other.toNumericList).uniq⟩

end NumericSet

/-- `NewNumericSet`. -/
def newNumericSet (values : List ℕ) : NumericSet :=
  ⟨(values.foldl NumericList.add {}).uniq⟩

/-- `CreateNumericSet`. -/
def createNumericSet (stringRanges : List Char) : Except (List Char) NumericSet :=
  match createNumericList stringRanges with
  | .error err =>
    .error ("creating numeric set from ".toList ++ goQuote stringRanges ++ ": ".toList ++ err)
  | .ok nl => .ok ⟨nl.uniq⟩

/-- `strings.Trim`: the characters of `cutset` dropped from both ends. -/
def goTrim (s cutset : List Char) : List Char :=
  ((s.dropWhile (· ∈ cutset)).reverse.dropWhile (· ∈ cutset)).reverse

/-- `fixBrackets`. -/
def fixBrackets (stringRanks : List Char) (remove : Bool) : List Char :=
  if remove then goTrim stringRanks ['[', ']']
  else
    let stringRanks := if stringRanks.head? = some '[' then stringRanks else '[' :: stringRanks
    if stringRanks.getLast? = some ']' then stringRanks else stringRanks ++ [']']

/-- `RankSet`. -/
structure RankSet where
  ns : NumericSet
deriving DecidableEq, Repr

/-- `NewRankSet`. -/
def newRankSet : RankSet :=
  ⟨newNumericSet []⟩

namespace RankSet

/-- `String`. -/
def string (rs : RankSet) : List Char :=
  fixBrackets rs.ns.string true

/-- `RangedString`. -/
def rangedString (rs : RankSet) : List Char :=
  rs.ns.hl.rangedString

/-- `Count`. -/
def count (rs : RankSet) : ℤ :=
  rs.ns.count

/-- `Merge`. -/
def merge (rs other : RankSet) : RankSet :=
  ⟨rs.ns.merge other.ns⟩

/-- `Replace`. -/
def replace (rs other : RankSet) : RankSet :=
  ⟨rs.ns.replace other.ns⟩

/-- `Add`. -/
def add (rs : RankSet) (rank : UInt32) : RankSet :=
  ⟨rs.ns.add rank.toNat⟩

/-- `Delete`. -/
def delete (rs : RankSet) (rank : UInt32) : Except String RankSet := do
  let ns ← rs.ns.delete rank.toNat
  pure ⟨ns⟩

/-- `Ranks`. -/
def ranks (rs : RankSet) : List UInt32 :=
  rs.ns.slice.map UInt32.ofNat

end RankSet

/-- `CreateRankSet`. -/
def createRankSet (stringRanks : List Char) : Except (List Char) RankSet :=
  let rs := newRankSet
  if stringRanks.length < 1 then pure rs
  else do
    let ns ← createNumericSet (fixBrackets stringRanks false)
    pure (rs.merge ⟨ns⟩)

/-! ### Numeric sets of plain numbers -/

namespace HostList

open HostRange

/-- **Removing a number from a numeric range** of more than one number leaves its other
numbers, in one numeric range or, when it lay inside, two: the upper part first, as `Delete`
inserts it. -/
theorem deleteHost_numeric {hr : HostRange} (h : hr.Numeric) {i : ℕ} (hin : hr.lo ≤ i ∧ i ≤ hr.hi)
    (hmore : hr.lo < hr.hi) :
    ∃ new hr', hr.deleteHost i = .ok (new, hr') ∧ NumRanges (new.toList ++ [hr']) ∧
      rangesCount (new.toList ++ [hr']) = hr.count - 1 ∧
      ∀ x, Ival.Covers ((new.toList ++ [hr']).map ival) x ↔ hr.ival.Mem x ∧ x ≠ i := by
  have hbounds : ¬(i < hr.lo ∨ i > hr.hi) := by omega
  by_cases hlo : i = hr.lo
  · -- the first number goes
    refine ⟨none, { hr with lo := hr.lo + 1 }, by simp only [HostRange.deleteHost,
      if_neg hbounds, if_pos hlo], ?_, ?_, fun x => ?_⟩
    · exact NumRanges.cons ⟨h.lo (by omega), by simp only; omega⟩ (by simp [NumRanges])
    · simp [rangesCount, HostRange.count]
      omega
    · simp only [Option.toList_none, List.nil_append, List.map_cons, List.map_nil,
        Ival.covers_cons, ival, Ival.Mem, Ival.covers_nil, or_false]
      omega
  by_cases hhi : i = hr.hi
  · -- the last number goes
    refine ⟨none, { hr with hi := hr.hi - 1 }, by simp only [HostRange.deleteHost,
      if_neg hbounds, if_neg hlo, if_pos hhi], ?_, ?_, fun x => ?_⟩
    · exact NumRanges.cons ⟨h.hi _, by simp only; omega⟩ (by simp [NumRanges])
    · simp [rangesCount, HostRange.count]
      omega
    · simp only [Option.toList_none, List.nil_append, List.map_cons, List.map_nil,
        Ival.covers_cons, ival, Ival.Mem, Ival.covers_nil, or_false]
      omega
  · -- the range splits around `i`
    refine ⟨some { hr with lo := i + 1 }, { hr with hi := i - 1 },
      by simp only [HostRange.deleteHost, if_neg hbounds, if_neg hlo, if_neg hhi], ?_, ?_,
      fun x => ?_⟩
    · refine NumRanges.cons ⟨h.lo (by omega), by simp only; omega⟩
        (NumRanges.cons ⟨h.hi _, by simp only; omega⟩ (by simp [NumRanges]))
    · simp [rangesCount, HostRange.count]
      omega
    · simp only [Option.toList_some, List.cons_append, List.nil_append, List.map_cons,
        List.map_nil, Ival.covers_cons, ival, Ival.Mem, Ival.covers_nil, or_false]
      omega

end HostList

namespace NumericList

open HostList HostRange

/-- **The loop of `Delete` over a list of numbers** removes `i` and nothing else, when the ranges
before `rest` do not hold it and those from `rest` on each end before the next starts. -/
theorem deleteLoop_numeric {i : ℕ} (rest : List HostRange) :
    ∀ (pre : List HostRange) (count : ℤ), NumWf ⟨pre ++ rest, count⟩ →
      (∀ hr ∈ pre, ¬hr.ival.Mem i) → (rest.map ival).Pairwise (fun I J => I.hi < J.lo) →
      ∃ hl, deleteLoop i ⟨pre ++ rest, count⟩ pre.length rest = .ok hl ∧ NumWf hl ∧
        ∀ x, Ival.Covers (hl.ranges.map ival) x ↔
          Ival.Covers ((pre ++ rest).map ival) x ∧ x ≠ i := by
  induction rest with
  | nil =>
    intro pre count h hpre _
    refine ⟨_, rfl, h, fun x => ⟨fun hx => ⟨hx, ?_⟩, And.left⟩⟩
    rintro rfl
    obtain ⟨I, hI, hIx⟩ := hx
    obtain ⟨hr, hr_mem, rfl⟩ := List.mem_map.mp hI
    exact hpre hr (by simpa using hr_mem) hIx
  | cons hr rest ih =>
    intro pre count h hpre hsep
    rw [List.map_cons, List.pairwise_cons] at hsep
    have hhr := h.ranges hr (by simp)
    obtain ⟨w, hw, hcont⟩ := containsHost_numeric hhr.1 i
    by_cases hin : hr.lo ≤ i ∧ i ≤ hr.hi
    · rw [if_pos hin] at hcont
      -- the later ranges start after `hr` ends, so `i` is in none of them
      have hafter : ∀ J ∈ rest.map ival, ¬J.Mem i := by
        intro J hJ hJi
        have := hsep.1 J hJ
        simp only [ival, Ival.Mem] at this hJi
        omega
      -- the found range leaves nothing, or the pieces `deleteHost` cuts
      obtain ⟨pieces, hstep, hnum, hcount, hcovers⟩ : ∃ pieces : List HostRange,
          deleteLoop i ⟨pre ++ hr :: rest, count⟩ pre.length (hr :: rest) =
            .ok ⟨pre ++ pieces ++ rest, count - 1⟩ ∧ NumRanges pieces ∧
          rangesCount pieces = hr.count - 1 ∧
          ∀ x, Ival.Covers (pieces.map ival) x ↔ hr.ival.Mem x ∧ x ≠ i := by
        by_cases hone : hr.lo = hr.hi
        · have hcount1 : hr.count = 1 := by
            simp [HostRange.count, hone]
          refine ⟨[], ?_, by simp [NumRanges], by simp [rangesCount, HostRange.count, hone],
            fun x => ?_⟩
          · simp [deleteLoop, hcont, hcount1, deleteRangeAt,
              List.eraseIdx_append_of_length_le (le_refl pre.length)]
          · simp only [ival, Ival.Mem, List.map_nil, Ival.covers_nil, false_iff]
            omega
        · have hcount1 : hr.count ≠ 1 := by
            simp only [HostRange.count]
            omega
          obtain ⟨new, hr', hdel, hnum, hcount, hcovers⟩ :=
            deleteHost_numeric (hhr.1.width w hw) hin (by simp only; omega)
          refine ⟨new.toList ++ [hr'], ?_, hnum, by simpa using hcount, hcovers⟩
          cases new <;>
            simp [deleteLoop, hcont, hcount1, hdel, insertRangeAt, Keyed.insertIdx_eq_take_append_drop]
      have hpre' : ¬Ival.Covers (pre.map ival) i := by
        rintro ⟨I, hI, hIi⟩
        obtain ⟨r, hr', rfl⟩ := List.mem_map.mp hI
        exact hpre r hr' hIi
      have hrest' : ¬Ival.Covers (rest.map ival) i := by
        rintro ⟨I, hI, hIi⟩
        exact hafter I hI hIi
      refine ⟨_, hstep, ⟨fun r hr' => ?_, ?_⟩, fun x => ?_⟩
      · rcases List.mem_append.mp hr' with hr' | hr'
        · rcases List.mem_append.mp hr' with hr' | hr'
          · exact h.ranges r (by simp [hr'])
          · exact hnum r hr'
        · exact h.ranges r (by simp [hr'])
      · have hwf := h.count
        simp only [rangesCount, List.map_append, List.sum_append, List.map_cons,
          List.sum_cons] at hwf hcount ⊢
        omega
      · simp only [List.map_append, Ival.covers_append, hcovers, List.map_cons, Ival.covers_cons]
        by_cases hx : x = i
        · subst hx
          simp [hpre', hrest']
        · simp [hx, or_assoc]
    · rw [if_neg hin] at hcont
      have hstep : deleteLoop i ⟨pre ++ hr :: rest, count⟩ pre.length (hr :: rest) =
          deleteLoop i ⟨(pre ++ [hr]) ++ rest, count⟩ (pre ++ [hr]).length rest := by
        simp [deleteLoop, hcont]
      have hpre' : ∀ r ∈ pre ++ [hr], ¬r.ival.Mem i := by
        intro r hr'
        rcases List.mem_append.mp hr' with hr' | hr'
        · exact hpre r hr'
        · rw [List.mem_singleton.mp hr']
          simp only [ival, Ival.Mem]
          exact hin
      obtain ⟨hl, hloop, hwf, hcovers⟩ := ih (pre ++ [hr]) count (by simpa using h) hpre' hsep.2
      exact ⟨hl, hstep ▸ hloop, hwf, by simpa using hcovers⟩

end NumericList

namespace HostList

/-- A list of numbers as `Uniq` leaves it: its ranges canonical. -/
structure Canonical (hl : HostList) : Prop where
  num : NumWf hl
  canon : Runs.Canon (hl.ranges.map HostRange.ival)

end HostList

namespace NumericList

open HostList HostRange

/-- The numbers of a numeric list. -/
def numbers (nl : NumericList) : Set ℕ :=
  {x | Ival.Covers (nl.hl.ranges.map ival) x}

theorem uniq_canonical {nl : NumericList} (h : NumWf nl.hl) :
    nl.uniq.hl.Canonical ∧ nl.uniq.numbers = nl.numbers := by
  obtain ⟨hwf, hcanon, hcovers⟩ := HostList.uniq_numeric h
  exact ⟨⟨hwf, hcanon⟩, Set.ext fun x => hcovers x⟩

theorem add_numeric {nl : NumericList} (h : NumWf nl.hl) (i : ℕ) :
    NumWf (nl.add i).hl ∧ (nl.add i).numbers = insert i nl.numbers := by
  have hhr : ({ lo := i, hi := i, width := 1, isRange := true } : HostRange).Numeric ∧ i ≤ i :=
    ⟨⟨rfl, rfl, rfl, zeroPadding_eq_zero.mpr Nat.length_toDigits_pos⟩, le_refl i⟩
  obtain ⟨hwf, hcovers⟩ := pushRange_numeric h hhr
  refine ⟨hwf, Set.ext fun x => ?_⟩
  have hself : (i ≤ x ∧ x ≤ i) ↔ x = i := by omega
  simp only [numbers, add, Set.mem_ofPred_eq, Set.mem_insert_iff, hcovers, ival, Ival.Mem, hself,
    or_comm]

/-- **`Delete` on a canonical list of numbers** removes the number, and only it. -/
theorem delete_numeric {nl : NumericList} (h : nl.hl.Canonical) (i : ℕ) :
    ∃ nl', nl.delete i = .ok nl' ∧ NumWf nl'.hl ∧ nl'.numbers = nl.numbers \ {i} := by
  obtain ⟨hl', hloop, hwf, hcovers⟩ := deleteLoop_numeric nl.hl.ranges [] nl.hl.hostCount
    h.num (by simp) (h.canon.pairwise.imp Nat.lt_of_succ_lt)
  refine ⟨⟨hl'⟩, ?_, hwf, Set.ext fun x => by simpa [numbers] using hcovers x⟩
  have hloop' : deleteLoop i nl.hl 0 nl.hl.ranges = .ok hl' := hloop
  simp only [delete, hloop']
  rfl

theorem merge_numeric {nl other : NumericList} (h : NumWf nl.hl) (hother : NumRanges other.hl.ranges) :
    NumWf (nl.merge other).hl ∧ (nl.merge other).numbers = nl.numbers ∪ other.numbers := by
  obtain ⟨hwf, hcovers⟩ := pushList_numeric hother h
  exact ⟨hwf, Set.ext fun x => hcovers x⟩

theorem replace_numeric {nl other : NumericList} (hother : NumRanges other.hl.ranges) :
    NumWf (nl.replace other).hl ∧ (nl.replace other).numbers = other.numbers := by
  have hempty : NumWf ({} : HostList) := ⟨by simp [NumRanges], rfl⟩
  obtain ⟨hwf, hcovers⟩ := pushList_numeric hother hempty
  refine ⟨hwf, Set.ext fun x => ?_⟩
  simpa [numbers, replace, replaceList] using hcovers x

end NumericList

namespace NumericSet

open HostList

/-- **`Add` on a numeric set** of plain numbers adds the number and keeps the set canonical. -/
theorem add_canonical {ns : NumericSet} (h : ns.hl.Canonical) (i : ℕ) :
    (ns.add i).hl.Canonical ∧ (ns.add i).numbers = insert i ns.numbers := by
  obtain ⟨hwf, hadd⟩ := NumericList.add_numeric h.num i
  obtain ⟨hcanon, huniq⟩ := NumericList.uniq_canonical hwf
  exact ⟨hcanon, huniq.trans hadd⟩

/-- **`Delete` on a numeric set** removes the number and keeps the set canonical. -/
theorem delete_canonical {ns : NumericSet} (h : ns.hl.Canonical) (i : ℕ) :
    ∃ ns', ns.delete i = .ok ns' ∧ ns'.hl.Canonical ∧ ns'.numbers = ns.numbers \ {i} := by
  obtain ⟨nl, hdel, hwf, hnumbers⟩ := NumericList.delete_numeric h i
  obtain ⟨hcanon, huniq⟩ := NumericList.uniq_canonical hwf
  refine ⟨⟨nl.uniq⟩, ?_, hcanon, huniq.trans hnumbers⟩
  simp only [delete, hdel]
  rfl

/-- **`Merge` into a numeric set** adds the other's numbers and keeps the set canonical. -/
theorem merge_canonical {ns other : NumericSet} (h : NumWf ns.hl)
    (hother : NumRanges other.hl.ranges) :
    (ns.merge other).hl.Canonical ∧ (ns.merge other).numbers = ns.numbers ∪ other.numbers := by
  obtain ⟨hwf, hmerge⟩ := NumericList.merge_numeric h hother
  obtain ⟨hcanon, huniq⟩ := NumericList.uniq_canonical hwf
  exact ⟨hcanon, huniq.trans hmerge⟩

/-- **`Replace` of a numeric set** takes the other's numbers, canonical. -/
theorem replace_canonical {ns other : NumericSet} (hother : NumRanges other.hl.ranges) :
    (ns.replace other).hl.Canonical ∧ (ns.replace other).numbers = other.numbers := by
  obtain ⟨hwf, hreplace⟩ := @NumericList.replace_numeric ns.toNumericList _ hother
  obtain ⟨hcanon, huniq⟩ := NumericList.uniq_canonical hwf
  exact ⟨hcanon, huniq.trans hreplace⟩

end NumericSet

/-! ### Rank sets -/

namespace RankSet

open HostList HostRange

/-- A rank set as its calls keep it: canonical, and every number it holds a rank. -/
structure Wf (rs : RankSet) : Prop where
  canonical : rs.ns.hl.Canonical
  bound : ∀ x ∈ rs.ns.numbers, x < 2 ^ 32

theorem newRankSet_wf : newRankSet.Wf ∧ newRankSet.ns.numbers = ∅ := by
  have hnil : newRankSet.ns.hl = {} := rfl
  have hnumbers : newRankSet.ns.numbers = ∅ := by
    simp [NumericList.numbers, hnil, Ival.Covers]
  refine ⟨⟨?_, fun x hx => by simp [hnumbers] at hx⟩, hnumbers⟩
  rw [hnil]
  exact ⟨⟨by simp [NumRanges], rfl⟩, Runs.canon_nil⟩

/-- **`Add`** puts the rank in the set. -/
theorem Wf.add {rs : RankSet} (h : rs.Wf) (rank : UInt32) :
    (rs.add rank).Wf ∧ (rs.add rank).ns.numbers = insert rank.toNat rs.ns.numbers := by
  obtain ⟨hcanon, hnumbers⟩ := NumericSet.add_canonical h.canonical rank.toNat
  refine ⟨⟨hcanon, fun x hx => ?_⟩, hnumbers⟩
  rw [show (rs.add rank).ns = rs.ns.add rank.toNat from rfl, hnumbers] at hx
  rcases hx with rfl | hx
  · exact rank.toNat_lt
  · exact h.bound x hx

/-- **`Delete`** takes the rank out of the set. -/
theorem Wf.delete {rs : RankSet} (h : rs.Wf) (rank : UInt32) :
    ∃ rs', rs.delete rank = .ok rs' ∧ rs'.Wf ∧ rs'.ns.numbers = rs.ns.numbers \ {rank.toNat} := by
  obtain ⟨ns, hdel, hcanon, hnumbers⟩ := NumericSet.delete_canonical h.canonical rank.toNat
  refine ⟨⟨ns⟩, ?_, ⟨hcanon, fun x hx => ?_⟩, hnumbers⟩
  · simp only [RankSet.delete, hdel]
    rfl
  · rw [hnumbers] at hx
    exact h.bound x hx.1

/-- **`Merge`** adds the ranks of the other set. -/
theorem Wf.merge {rs other : RankSet} (h : rs.Wf) (hother : other.Wf) :
    (rs.merge other).Wf ∧ (rs.merge other).ns.numbers = rs.ns.numbers ∪ other.ns.numbers := by
  obtain ⟨hcanon, hnumbers⟩ :=
    NumericSet.merge_canonical h.canonical.num hother.canonical.num.ranges
  refine ⟨⟨hcanon, fun x hx => ?_⟩, hnumbers⟩
  rw [show (rs.merge other).ns = rs.ns.merge other.ns from rfl, hnumbers] at hx
  rcases hx with hx | hx
  · exact h.bound x hx
  · exact hother.bound x hx

/-- **`Replace`** takes the ranks of the other set. -/
theorem Wf.replace {rs other : RankSet} (hother : other.Wf) :
    (rs.replace other).Wf ∧ (rs.replace other).ns.numbers = other.ns.numbers := by
  obtain ⟨hcanon, hnumbers⟩ :=
    @NumericSet.replace_canonical rs.ns other.ns hother.canonical.num.ranges
  refine ⟨⟨hcanon, fun x hx => ?_⟩, hnumbers⟩
  rw [show (rs.replace other).ns = rs.ns.replace other.ns from rfl, hnumbers] at hx
  exact hother.bound x hx

end RankSet

/-- A call on a rank set after it is made. -/
inductive RankSetOp where
  | add (rank : UInt32)
  | delete (rank : UInt32)
  | merge (other : RankSet)
  | replace (other : RankSet)

namespace RankSetOp

/-- The call made on a rank set. -/
def apply : RankSetOp → RankSet → Except String RankSet
  | add rank, rs => .ok (rs.add rank)
  | delete rank, rs => rs.delete rank
  | merge other, rs => .ok (rs.merge other)
  | replace other, rs => .ok (rs.replace other)

/-- What the call does to the set of ranks. -/
def denote : RankSetOp → Set ℕ → Set ℕ
  | add rank, s => insert rank.toNat s
  | delete rank, s => s \ {rank.toNat}
  | merge other, s => s ∪ other.ns.numbers
  | replace other, _ => other.ns.numbers

/-- The rank sets the call takes are well formed. -/
def Wf : RankSetOp → Prop
  | add _ | delete _ => True
  | merge other | replace other => other.Wf

/-- One call on a well-formed rank set succeeds, keeps it well formed and acts on its ranks as
the set operation it stands for. -/
theorem apply_wf {rs : RankSet} (h : rs.Wf) {op : RankSetOp} (hop : op.Wf) :
    ∃ rs', op.apply rs = .ok rs' ∧ rs'.Wf ∧ rs'.ns.numbers = op.denote rs.ns.numbers := by
  cases op with
  | add rank => exact ⟨_, rfl, h.add rank⟩
  | delete rank => exact h.delete rank
  | merge other => exact ⟨_, rfl, h.merge hop⟩
  | replace other => exact ⟨_, rfl, RankSet.Wf.replace hop⟩

end RankSetOp

/-- A sequence of calls on a rank set, stopping at the first that fails. -/
def RankSet.run (rs : RankSet) (ops : List RankSetOp) : Except String RankSet :=
  ops.foldlM (fun rs op => op.apply rs) rs

/-- **A rank set is a set of ranks along every run of calls**: from a well-formed rank set, every
sequence of `Add`, `Delete`, `Merge` and `Replace` with well-formed sets succeeds, and leaves a
well-formed rank set holding the ranks the set operations give. -/
theorem RankSet.run_wf (ops : List RankSetOp) :
    ∀ {rs : RankSet}, rs.Wf → (∀ op ∈ ops, op.Wf) →
      ∃ rs', rs.run ops = .ok rs' ∧ rs'.Wf ∧
        rs'.ns.numbers = ops.foldl (fun s op => op.denote s) rs.ns.numbers := by
  induction ops with
  | nil => intro rs h _; exact ⟨rs, rfl, h, rfl⟩
  | cons op ops ih =>
    intro rs h hops
    obtain ⟨rs₁, happly, h₁, hnumbers₁⟩ := RankSetOp.apply_wf h (hops op List.mem_cons_self)
    obtain ⟨rs', hrun, h', hnumbers'⟩ := ih h₁ fun op' hop' => hops op' (List.mem_cons_of_mem _ hop')
    refine ⟨rs', ?_, h', ?_⟩
    · simp only [RankSet.run, List.foldlM_cons, happly]
      exact hrun
    · rw [hnumbers', hnumbers₁, List.foldl_cons]

/-- Ranks 3, 4 and 9 added to an empty set, 4 deleted and an empty set merged in: the ranks
are 3 and 9. -/
theorem RankSet.run_wf_add_delete :
    let ops := [RankSetOp.add 3, .add 4, .add 9, .delete 4, .merge newRankSet]
    newRankSet.Wf ∧ (∀ op ∈ ops, op.Wf) ∧
      ∃ rs', newRankSet.run ops = .ok rs' ∧ rs'.Wf ∧ rs'.ranks = [3, 9] ∧
        rs'.ns.numbers = ops.foldl (fun s op => op.denote s) newRankSet.ns.numbers := by
  intro ops
  have hops : ∀ op ∈ ops, op.Wf := by
    simp only [ops, List.mem_cons, List.not_mem_nil, or_false, forall_eq_or_imp, forall_eq]
    exact ⟨trivial, trivial, trivial, trivial, RankSet.newRankSet_wf.1⟩
  obtain ⟨rs', hrun, hwf, hnumbers⟩ := RankSet.run_wf ops RankSet.newRankSet_wf.1 hops
  have hcalc : (newRankSet.run ops).map RankSet.ranks = .ok [3, 9] := by decide
  rw [hrun] at hcalc
  exact ⟨RankSet.newRankSet_wf.1, hops, rs', hrun, hwf, Except.ok.inj hcalc, hnumbers⟩

namespace RankSet

/-- Ranks written with different zero padding are never joined: `007,7` holds rank 7 twice, and
rank 5 added to `01-10` is counted again and stays after one `Delete` of it. And a run of more
than `MaxRange + 1` ranks prints as a range that `CreateRankSet` refuses. -/
theorem createRankSet_padded_duplicates :
    (createRankSet "007,7".toList).map RankSet.ranks = .ok [7, 7] ∧
    (createRankSet "01-10".toList).map (fun rs => ((rs.add 5).count, (rs.add 5).ranks,
      ((rs.add 5).delete 5).map RankSet.ranks)) =
      .ok (11, [5, 1, 2, 3, 4, 5, 6, 7, 8, 9, 10], .ok [1, 2, 3, 4, 5, 6, 7, 8, 9, 10]) ∧
    (createRankSet "0-16384,16385-20000".toList).map (fun rs =>
      (rs.string, (createRankSet rs.string).toBool)) = .ok ("0-20000".toList, false) :=
  ⟨by decide, by decide, by decide⟩

end RankSet

end Daos.Control

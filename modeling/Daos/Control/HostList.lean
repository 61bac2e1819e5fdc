import Mathlib
import Daos.Control.HostRange

/-!
# Host lists (`control/lib/hostlist/hostlist.go`)

A `HostList` is its ranges, in the order they were pushed, and the count of hosts it keeps
alongside. A range pushed right after the last one, with the next numbers and the same prefix,
suffix and padding, extends it (`pushRange`). `Uniq` sorts the ranges with `sort.Sort` and then
joins each range into the one before it where they meet.

**What is modelled.** The methods a list of hosts or of numbers uses, each as a function of the
list returning the list. The lock is left out. `sort.Sort` is the insertion sort it runs on at
most twelve elements (`sortRanges`); its comparison `cmp` may change the widths of the ranges it
compares, and the sort keeps those changes. On more than twelve ranges Go runs pdqsort, which
is not stable; the model sorts every list by insertion. A method that calls `containsHost`, such as `Find`,
returns the list it may have changed. Errors are their texts.

Over numeric lists (every range `Numeric`) `Uniq` is `Runs.coalesce` of the ranges ordered by
first number, so it leaves a canonical list with the same numbers (`uniq_numeric`).
-/

namespace Daos.Control

/-- `HostList`. -/
structure HostList where
  ranges : List HostRange := []
  hostCount : ℤ := 0
deriving DecidableEq, Repr

/-- `ErrEmpty`. -/
def errEmpty : String := "hostlist is empty"

/-- `ErrNotFound`. -/
def errNotFound : String := "hostname not found"

/-- `fmtRangeHost`: host `num` of the range. -/
def fmtRangeHost (hr : HostRange) (num : ℕ) : List Char :=
  hr.prefixStr ++ fmtPadded hr.width num ++ hr.suffixStr

namespace HostList

/-- `pushRange`: `hr` extends the last range when it continues it, and is appended otherwise. -/
def pushRange (hl : HostList) (hr : HostRange) : HostList :=
  match hl.ranges.getLast? with
  | some tail =>
    let (ok, tail) := tail.canAppend hr
    if ok then
      { ranges := hl.ranges.dropLast ++ [{ tail with hi := hr.hi }],
        hostCount := hl.hostCount + hr.count }
    else { ranges := hl.ranges.dropLast ++ [tail, hr], hostCount := hl.hostCount + hr.count }
  | none => { ranges := [hr], hostCount := hl.hostCount + hr.count }

/-- `pushList`: copies of the ranges of `other`, pushed in order. -/
def pushList (hl other : HostList) : HostList :=
  other.ranges.foldl pushRange hl

/-- `ReplaceList`. -/
def replaceList (_hl other : HostList) : HostList :=
  pushList {} other

/-- One pass of the insertion sort of `sort.Sort`: `hr` moves down the sorted ranges before it,
nearest first, while it is less than the one before it. -/
def sortInsert (hr : HostRange) : List HostRange → List HostRange
  | [] => [hr]
  | prev :: rest =>
    let (c, hr, prev) := hr.cmp prev
    if c < 0 then prev :: sortInsert hr rest else hr :: prev :: rest

/-- `sort.Sort` of the ranges by `cmp`, an insertion sort. -/
def sortRanges (ranges : List HostRange) : List HostRange :=
  (ranges.foldl (fun sorted hr => sortInsert hr sorted) []).reverse

/-- The loop of `Uniq` over the sorted ranges: each range joins the one before it, the hosts it
held twice leaving the count, or becomes the one the next joins. -/
def uniqJoin : HostRange → List HostRange → ℤ → List HostRange × ℤ
  | prev, [], count => ([prev], count)
  | prev, cur :: rest, count =>
    let (dupes, prev, cur) := prev.join cur
    if dupes ≥ 0 then uniqJoin prev rest (count - dupes)
    else
      let (ranges, count) := uniqJoin cur rest count
      (prev :: ranges, count)

/-- `Uniq`. -/
def uniq (hl : HostList) : HostList :=
  if hl.ranges.length ≤ 1 then hl
  else
    match sortRanges hl.ranges with
    | [] => hl
    | first :: rest =>
      let (ranges, count) := uniqJoin first rest hl.hostCount
      { ranges := ranges, hostCount := count }

/-- `Count`. -/
def count (hl : HostList) : ℤ :=
  hl.hostCount

/-- `IsEmpty`. -/
def isEmpty (hl : HostList) : Bool :=
  hl.count ≤ 0

/-- The loop of `RangedString`, `isOpen` when a bracket is open. -/
def rangedStringLoop : Bool → List HostRange → List Char
  | _, [] => []
  | isOpen, hr :: rest =>
    let joinsNext := match rest.head? with
      | some next => hr.within next
      | none => false
    let (isOpen, start) :=
      if !isOpen then
        if hr.count > 1 ∨ joinsNext = true then (true, hr.prefixStr ++ ['['])
        else (false, hr.prefixStr)
      else (true, [])
    let body := start ++ hr.rangedString
    if isOpen ∧ joinsNext = true then body ++ [','] ++ rangedStringLoop true rest
    else
      body ++ (if isOpen then [']'] else []) ++ hr.suffixStr ++
        (if rest = [] then [] else [',']) ++ rangedStringLoop false rest

/-- `RangedString`: the ranges bracketed, the ranges of a run with the same prefix and suffix
within one pair of brackets. -/
def rangedString (hl : HostList) : List Char :=
  rangedStringLoop false hl.ranges

/-- `derangedString` of a range: its hosts, separated by commas. -/
def derangedRange (hr : HostRange) : List Char :=
  if !hr.isRange then hr.prefixStr
  else List.intercalate [','] ((List.range' hr.lo (hr.hi + 1 - hr.lo)).map (fmtRangeHost hr))

/-- `DerangedString`. -/
def derangedString (hl : HostList) : List Char :=
  List.intercalate [','] (hl.ranges.map derangedRange)

/-- `Pop`: the last host, removed. -/
def pop (hl : HostList) : Except String (List Char × HostList) :=
  match hl.ranges.getLast? with
  | none => .error errEmpty
  | some tail =>
    let hostCount := hl.hostCount - 1
    if !tail.isRange then .ok (tail.prefixStr, { ranges := hl.ranges.dropLast, hostCount })
    else
      let hostName := fmtRangeHost tail tail.hi
      let tail := if tail.hi > 0 then { tail with hi := tail.hi - 1 } else tail
      if tail.hi < tail.lo ∨ (tail.hi = tail.lo ∧ tail.lo = 0) then
        .ok (hostName, { ranges := hl.ranges.dropLast, hostCount })
      else .ok (hostName, { ranges := hl.ranges.dropLast ++ [tail], hostCount })

/-- `Shift`: the first host, removed. -/
def shift (hl : HostList) : Except String (List Char × HostList) :=
  match hl.ranges with
  | [] => .error errEmpty
  | head :: rest =>
    let hostCount := hl.hostCount - 1
    if !head.isRange then .ok (head.prefixStr, { ranges := rest, hostCount })
    else
      let hostName := fmtRangeHost head head.lo
      let head := { head with lo := head.lo + 1 }
      if head.lo > head.hi then .ok (hostName, { ranges := rest, hostCount })
      else .ok (hostName, { ranges := head :: rest, hostCount })

/-- The loop of `getNthHostRange` from range `idx` on, `counted` hosts before it. -/
def getNthLoop (n : ℤ) : ℕ → ℤ → List HostRange → Except String (ℕ × HostRange × ℤ)
  | _, _, [] => .error "unknown error"
  | idx, counted, hr :: rest =>
    if n ≤ hr.count - 1 + counted then .ok (idx, hr, counted)
    else getNthLoop n (idx + 1) (counted + hr.count) rest

/-- `getNthHostRange`: the range of host `n`, its index and the hosts before it. -/
def getNthHostRange (hl : HostList) (n : ℤ) : Except String (ℕ × HostRange × ℤ) :=
  if hl.hostCount = 0 then .error errEmpty
  else if n < 0 then .error "index can't be < 0"
  else if n ≥ hl.hostCount then .error "index must be < hostCount"
  else getNthLoop n 0 0 hl.ranges

/-- `Nth`. -/
def nth (hl : HostList) (n : ℤ) : Except String (List Char) := do
  let (_, hr, depth) ← hl.getNthHostRange n
  if hr.isRange then pure (fmtRangeHost hr (hr.lo + (n - depth).toNat)) else pure hr.prefixStr

/-- The loop of `Find` over the ranges, `counted` hosts before them; the ranges `containsHost`
may have changed are returned. -/
def findLoop (hn : HostName) : ℤ → List HostRange → Option ℤ × List HostRange
  | _, [] => (none, [])
  | counted, hr :: rest =>
    let (offset, found, hr) := hr.containsHost hn
    if found then (some (counted + offset), hr :: rest)
    else
      let (idx, rest) := findLoop hn (counted + hr.count) rest
      (idx, hr :: rest)

/-- `deleteRangeAt`. -/
def deleteRangeAt (hl : HostList) (idx : ℕ) : Except String HostList :=
  match hl.ranges[idx]? with
  | none => .error "invalid index in deleteRangeAt()"
  | some hr => .ok { ranges := hl.ranges.eraseIdx idx, hostCount := hl.hostCount - hr.count }

/-- `insertRangeAt`. -/
def insertRangeAt (hl : HostList) (idx : ℕ) (hr : HostRange) : HostList :=
  { hl with ranges := hl.ranges.insertIdx idx hr }

/-- `DeleteNth`. -/
def deleteNth (hl : HostList) (n : ℤ) : Except String HostList := do
  let (idx, hr, depth) ← hl.getNthHostRange n
  if !hr.isRange then hl.deleteRangeAt idx
  else
    let (newHr, hr) ← hr.deleteHost (hr.lo + (n - depth).toNat)
    let hl : HostList := { ranges := hl.ranges.set idx hr, hostCount := hl.hostCount - 1 }
    let hl := match newHr with
      | some newHr => hl.insertRangeAt (idx + 1) newHr
      | none => hl
    if hr.count = 0 then hl.deleteRangeAt idx else pure hl

end HostList

/-! ### Lists of numbers -/

namespace HostRange

@[simp]
theorem ival_width (hr : HostRange) (w : ℕ) : ({ hr with width := w } : HostRange).ival = hr.ival :=
  rfl

@[simp]
theorem count_width (hr : HostRange) (w : ℕ) : ({ hr with width := w } : HostRange).count = hr.count :=
  rfl

end HostRange

namespace HostList

open HostRange

/-- The ranges of a list of numbers: numeric, and each holding a number. -/
def NumRanges (rs : List HostRange) : Prop :=
  ∀ hr ∈ rs, hr.Numeric ∧ hr.lo ≤ hr.hi

/-- The hosts of the ranges, counted range by range. -/
def rangesCount (rs : List HostRange) : ℤ :=
  (rs.map HostRange.count).sum

theorem NumRanges.cons {hr : HostRange} {rs : List HostRange} (h : hr.Numeric ∧ hr.lo ≤ hr.hi)
    (hrs : NumRanges rs) : NumRanges (hr :: rs) := by
  intro r hr'
  rcases List.mem_cons.mp hr' with rfl | hr'
  · exact h
  · exact hrs r hr'

theorem NumRanges.width {hr : HostRange} (h : hr.Numeric ∧ hr.lo ≤ hr.hi) {w : ℕ}
    (hw : zeroPadding hr.lo w = 0) : ({ hr with width := w } : HostRange).Numeric ∧
      ({ hr with width := w } : HostRange).lo ≤ ({ hr with width := w } : HostRange).hi :=
  ⟨h.1.width w hw, h.2⟩

/-- One pass of the sort over numeric ranges: the ranges before the moving one stay ordered by
first number, nearest first, and it lands in its place. -/
theorem sortInsert_numeric (acc : List HostRange) : ∀ (hr : HostRange),
    hr.Numeric ∧ hr.lo ≤ hr.hi → NumRanges acc →
    (acc.map ival).Pairwise (fun I J => J.lo ≤ I.lo) →
    NumRanges (sortInsert hr acc) ∧ ((sortInsert hr acc).map ival).Perm ((hr :: acc).map ival) ∧
      ((sortInsert hr acc).map ival).Pairwise (fun I J => J.lo ≤ I.lo) := by
  induction acc with
  | nil =>
    intro hr hhr _ _
    exact ⟨NumRanges.cons hhr (by simp [NumRanges]), List.Perm.refl _, by simp [sortInsert]⟩
  | cons prev rest ih =>
    intro hr hhr hacc hdesc
    have hprev := hacc prev List.mem_cons_self
    have hrest : NumRanges rest := fun r hr' => hacc r (List.mem_cons_of_mem _ hr')
    have hdesc' := List.pairwise_cons.mp hdesc
    obtain ⟨w, w', hcmp, hw, hw'⟩ := cmp_numeric hhr.1 hprev.1
    by_cases hlt : (hr.lo : ℤ) - prev.lo < 0
    · -- `hr` moves below `prev`, which keeps its place above it
      have hstep : sortInsert hr (prev :: rest) =
          { prev with width := w' } :: sortInsert { hr with width := w } rest := by
        simp only [sortInsert, hcmp, if_pos hlt]
      obtain ⟨hnum, hperm, hsorted⟩ := ih { hr with width := w } (NumRanges.width hhr hw) hrest
        hdesc'.2
      rw [hstep]
      refine ⟨NumRanges.cons (NumRanges.width hprev hw') hnum, ?_, ?_⟩
      · rw [List.map_cons, ival_width]
        refine (List.Perm.cons _ hperm).trans ?_
        simpa using List.Perm.swap hr.ival prev.ival (rest.map ival)
      · refine List.pairwise_cons.mpr ⟨fun J hJ => ?_, hsorted⟩
        rcases List.mem_cons.mp (hperm.mem_iff.mp hJ) with rfl | hJ
        · simp only [ival]
          omega
        · exact hdesc'.1 J hJ
    · have hstep : sortInsert hr (prev :: rest) =
          { hr with width := w } :: { prev with width := w' } :: rest := by
        simp only [sortInsert, hcmp, if_neg hlt]
      rw [hstep]
      refine ⟨NumRanges.cons (NumRanges.width hhr hw) (NumRanges.cons
        (NumRanges.width hprev hw') hrest), by simp, ?_⟩
      simp only [List.map_cons, ival_width]
      refine List.pairwise_cons.mpr ⟨fun J hJ => ?_, hdesc⟩
      rcases List.mem_cons.mp hJ with rfl | hJ
      · simp only [ival]
        omega
      · have := hdesc'.1 J hJ
        simp only [ival] at this ⊢
        omega

/-- **The sort of `Uniq` over numeric ranges** orders them by first number, keeping their
numbers. -/
theorem sortRanges_numeric {rs : List HostRange} (hrs : NumRanges rs) :
    NumRanges (sortRanges rs) ∧ ((sortRanges rs).map ival).Perm (rs.map ival) ∧
      Runs.SortedLo ((sortRanges rs).map ival) := by
  -- the sorted ranges so far, nearest first, hold the ranges passed so far
  have hfold : ∀ (rs acc : List HostRange), NumRanges rs → NumRanges acc →
      (acc.map ival).Pairwise (fun I J => J.lo ≤ I.lo) →
      NumRanges (rs.foldl (fun sorted hr => sortInsert hr sorted) acc) ∧
        ((rs.foldl (fun sorted hr => sortInsert hr sorted) acc).map ival).Perm
          ((rs ++ acc).map ival) ∧
        ((rs.foldl (fun sorted hr => sortInsert hr sorted) acc).map ival).Pairwise
          (fun I J => J.lo ≤ I.lo) := by
    intro rs
    induction rs with
    | nil => intro acc _ hacc hdesc; exact ⟨hacc, by simp, hdesc⟩
    | cons hr rs ih =>
      intro acc hrs hacc hdesc
      obtain ⟨hnum, hperm, hsorted⟩ := sortInsert_numeric acc hr (hrs hr List.mem_cons_self)
        hacc hdesc
      obtain ⟨hnum', hperm', hsorted'⟩ := ih (sortInsert hr acc)
        (fun r hr' => hrs r (List.mem_cons_of_mem _ hr')) hnum hsorted
      refine ⟨hnum', hperm'.trans ?_, hsorted'⟩
      simp only [List.map_append, List.map_cons] at hperm ⊢
      exact ((List.Perm.append_left _ hperm).trans List.perm_middle)
  obtain ⟨hnum, hperm, hsorted⟩ := hfold rs [] hrs (by simp [NumRanges]) (by simp)
  refine ⟨fun r hr => hnum r (List.mem_reverse.mp hr), ?_, ?_⟩
  · rw [sortRanges, List.map_reverse]
    simpa using (List.reverse_perm _).trans hperm
  · rw [sortRanges, List.map_reverse, Runs.SortedLo, List.pairwise_reverse]
    exact hsorted

theorem rangesCount_cons (hr : HostRange) (rs : List HostRange) :
    rangesCount (hr :: rs) = hr.count + rangesCount rs := by
  simp [rangesCount]

/-- **The join loop of `Uniq` over numeric ranges ordered by first number** is `coalesce`: it
keeps the hosts, the count losing exactly the hosts counted twice. -/
theorem uniqJoin_numeric (rest : List HostRange) :
    ∀ (prev : HostRange) (count : ℤ) (ranges : List HostRange) (count' : ℤ),
      NumRanges (prev :: rest) → Runs.SortedLo ((prev :: rest).map ival) →
      uniqJoin prev rest count = (ranges, count') →
      NumRanges ranges ∧ ranges.map ival = Runs.coalesce prev.ival (rest.map ival) ∧
        count' - rangesCount ranges = count - rangesCount (prev :: rest) := by
  induction rest with
  | nil =>
    intro prev count ranges count' hnum _ hloop
    simp only [uniqJoin, Prod.mk.injEq] at hloop
    obtain ⟨rfl, rfl⟩ := hloop
    exact ⟨hnum, rfl, rfl⟩
  | cons cur rest ih =>
    intro prev count ranges count' hnum hsorted hloop
    have hprev := hnum prev List.mem_cons_self
    have hcur := hnum cur (by simp)
    have hrest : NumRanges rest := fun r hr => hnum r (by simp [hr])
    have hlo : prev.lo ≤ cur.lo := (List.pairwise_cons.mp hsorted).1 cur.ival (by simp)
    by_cases hreach : cur.lo ≤ prev.hi + 1
    · -- `cur` joins `prev`, which goes on as the range the next one may join
      obtain ⟨w, w', dupes, hjoin, hdupes, hcount, hw, -⟩ :=
        join_numeric_of_reach hprev.1 hcur.1 hlo hreach hcur.2
      have hstep : uniqJoin prev (cur :: rest) count =
          uniqJoin { prev with width := w, hi := max prev.hi cur.hi } rest (count - dupes) := by
        simp only [uniqJoin, hjoin, if_pos hdupes]
      have hjoined : ({ prev with width := w, hi := max prev.hi cur.hi } : HostRange).Numeric ∧
          prev.lo ≤ max prev.hi cur.hi :=
        ⟨⟨hprev.1.isRange, hprev.1.prefixStr, hprev.1.suffixStr, hw⟩, le_max_of_le_left hprev.2⟩
      obtain ⟨hnum', hcoalesce, hcount'⟩ := ih _ (count - dupes) ranges count'
        (NumRanges.cons hjoined hrest) hsorted.join (hstep ▸ hloop)
      refine ⟨hnum', ?_, ?_⟩
      · rw [hcoalesce, List.map_cons, Runs.coalesce,
          if_pos (show cur.ival.lo ≤ prev.ival.hi + 1 from hreach)]
        rfl
      · rw [rangesCount_cons] at hcount'
        rw [rangesCount_cons, rangesCount_cons]
        have hc : ({ prev with width := w, hi := max prev.hi cur.hi } : HostRange).count =
            ({ prev with hi := max prev.hi cur.hi } : HostRange).count := rfl
        omega
    · -- a number lies between them: `prev` is kept and `cur` goes on
      obtain ⟨w, w', hjoin, hw, hw'⟩ := join_numeric_of_gap hprev.1 hcur.1 hlo (by omega)
      rcases hres : uniqJoin { cur with width := w' } rest count with ⟨ranges', count''⟩
      have hstep : uniqJoin prev (cur :: rest) count =
          ({ prev with width := w } :: ranges', count'') := by
        simp only [uniqJoin, hjoin, hres]
        rfl
      rw [hstep, Prod.mk.injEq] at hloop
      obtain ⟨rfl, rfl⟩ := hloop
      obtain ⟨hnum', hcoalesce, hcount'⟩ := ih _ count ranges' count''
        (NumRanges.cons (NumRanges.width hcur hw') hrest) (List.pairwise_cons.mp hsorted).2 hres
      refine ⟨NumRanges.cons (NumRanges.width hprev hw) hnum', ?_, ?_⟩
      · rw [List.map_cons, hcoalesce, List.map_cons, Runs.coalesce,
          if_neg (show ¬cur.ival.lo ≤ prev.ival.hi + 1 from hreach)]
        rfl
      · simp only [rangesCount_cons, count_width] at hcount' ⊢
        omega

theorem rangesCount_perm {rs rs' : List HostRange} (h : (rs.map ival).Perm (rs'.map ival)) :
    rangesCount rs = rangesCount rs' := by
  have hcount : ∀ r : List HostRange,
      rangesCount r = ((r.map ival).map fun I => (I.hi : ℤ) - I.lo + 1).sum := by
    intro r
    simp only [rangesCount, List.map_map]
    rfl
  rw [hcount, hcount]
  exact (h.map _).sum_eq

/-- A list of numbers as a numeric list keeps it: numeric ranges holding a number each, and the
count of their hosts. -/
structure NumWf (hl : HostList) : Prop where
  ranges : NumRanges hl.ranges
  count : hl.hostCount = rangesCount hl.ranges

/-- **`Uniq` of a list of numbers** leaves a canonical list of the same numbers. -/
theorem uniq_numeric {hl : HostList} (h : NumWf hl) :
    NumWf hl.uniq ∧ Runs.Canon (hl.uniq.ranges.map ival) ∧
      ∀ x, Ival.Covers (hl.uniq.ranges.map ival) x ↔ Ival.Covers (hl.ranges.map ival) x := by
  by_cases hlen : hl.ranges.length ≤ 1
  · -- at most one range: nothing to sort or join
    rw [uniq, if_pos hlen]
    refine ⟨h, ⟨fun I hI => ?_, ?_⟩, fun _ => Iff.rfl⟩
    · obtain ⟨r, hr, rfl⟩ := List.mem_map.mp hI
      exact (h.ranges r hr).2
    · match hrs : hl.ranges, hlen with
      | [], _ => exact List.IsChain.nil
      | [_], _ => exact List.isChain_singleton _
  · obtain ⟨hnum, hperm, hsorted⟩ := sortRanges_numeric h.ranges
    rcases hs : sortRanges hl.ranges with _ | ⟨first, rest⟩
    · have := hperm.length_eq
      rw [hs] at this
      simp at this
      omega
    rcases hres : uniqJoin first rest hl.hostCount with ⟨ranges, count⟩
    have hu : hl.uniq = { ranges := ranges, hostCount := count } := by
      simp only [uniq, if_neg hlen, hs, hres]
    rw [hs] at hnum hperm hsorted
    obtain ⟨hnum', hcoalesce, hcount⟩ := uniqJoin_numeric rest first hl.hostCount ranges count
      hnum hsorted hres
    have hwf : ∀ K ∈ first.ival :: rest.map ival, K.lo ≤ K.hi := by
      intro K hK
      rw [← List.map_cons] at hK
      obtain ⟨r, hr, rfl⟩ := List.mem_map.mp hK
      exact (hnum r hr).2
    rw [hu]
    refine ⟨⟨hnum', ?_⟩, ?_, fun x => ?_⟩
    · rw [h.count, ← rangesCount_perm hperm] at hcount
      show count = rangesCount ranges
      omega
    · rw [hcoalesce]
      exact Runs.canon_coalesce hsorted hwf
    · show Ival.Covers (ranges.map ival) x ↔ _
      rw [hcoalesce, Runs.covers_coalesce hsorted, ← List.map_cons]
      exact Ival.covers_iff_of_perm hperm

theorem covers_append_singleton {l : List (Ival ℕ)} {I : Ival ℕ} {x : ℕ} :
    Ival.Covers (l ++ [I]) x ↔ Ival.Covers l x ∨ I.Mem x := by
  rw [Ival.covers_append, Ival.covers_cons]
  simp

/-- **Pushing a numeric range** onto a list of numbers keeps it one, and adds the range's
numbers. -/
theorem pushRange_numeric {hl : HostList} (h : NumWf hl) {hr : HostRange}
    (hhr : hr.Numeric ∧ hr.lo ≤ hr.hi) :
    NumWf (hl.pushRange hr) ∧ ∀ x, Ival.Covers ((hl.pushRange hr).ranges.map ival) x ↔
      Ival.Covers (hl.ranges.map ival) x ∨ hr.ival.Mem x := by
  rcases hlast : hl.ranges.getLast? with _ | tail
  · -- the first range
    have hnil : hl.ranges = [] := List.getLast?_eq_none_iff.mp hlast
    have hp : hl.pushRange hr = { ranges := [hr], hostCount := hl.hostCount + hr.count } := by
      simp only [pushRange, hlast]
    rw [hp]
    refine ⟨⟨NumRanges.cons hhr (by simp [NumRanges]), ?_⟩, fun x => ?_⟩
    · rw [h.count, hnil]
      simp [rangesCount]
    · simp [hnil]
  · obtain ⟨init, hinit⟩ := List.getLast?_eq_some_iff.mp hlast
    have htail := h.ranges tail (by simp [hinit])
    have hinitNum : NumRanges init := fun r hr' => h.ranges r (by simp [hinit, hr'])
    have hcount : hl.hostCount = rangesCount init + tail.count := by
      rw [h.count, hinit]
      simp [rangesCount]
    obtain ⟨w, hw, happ⟩ := canAppend_numeric htail.1 hhr.1
    by_cases hnext : tail.hi + 1 = hr.lo
    · -- `hr` continues the last range, which is extended to its end
      have hp : hl.pushRange hr =
          { ranges := init ++ [{ tail with width := w, hi := hr.hi }],
            hostCount := hl.hostCount + hr.count } := by
        simp only [pushRange, hlast]
        simp only [happ, if_pos hnext, hinit, List.dropLast_concat, if_true]
      rw [hp]
      have hext : ({ tail with width := w, hi := hr.hi } : HostRange).Numeric ∧
          tail.lo ≤ hr.hi :=
        ⟨⟨htail.1.isRange, htail.1.prefixStr, htail.1.suffixStr, hw⟩, by omega⟩
      refine ⟨⟨fun r hr' => ?_, ?_⟩, fun x => ?_⟩
      · rcases List.mem_append.mp hr' with hr' | hr'
        · exact hinitNum r hr'
        · rw [List.mem_singleton.mp hr']
          exact hext
      · simp only [rangesCount, List.map_append, List.map_cons, List.map_nil, List.sum_append,
          List.sum_cons, List.sum_nil] at hcount ⊢
        simp only [HostRange.count] at hcount ⊢
        omega
      · have hjoin : ({ tail with width := w, hi := hr.hi } : HostRange).ival.Mem x ↔
            tail.ival.Mem x ∨ hr.ival.Mem x := by
          simp only [ival, Ival.Mem]
          omega
        simp only [List.map_append, List.map_cons, List.map_nil, covers_append_singleton, hinit,
          hjoin, or_assoc]
    · have hp : hl.pushRange hr =
          { ranges := hl.ranges ++ [hr], hostCount := hl.hostCount + hr.count } := by
        simp only [pushRange, hlast]
        simp only [happ, if_neg hnext, hinit, List.dropLast_concat, List.append_assoc,
          List.cons_append, List.nil_append, if_false, Bool.false_eq_true]
      rw [hp]
      refine ⟨⟨fun r hr' => ?_, ?_⟩, fun x => ?_⟩
      · rcases List.mem_append.mp hr' with hr' | hr'
        · exact h.ranges r hr'
        · rw [List.mem_singleton.mp hr']
          exact hhr
      · rw [h.count]
        simp [rangesCount]
      · simp only [List.map_append, List.map_cons, List.map_nil, covers_append_singleton]

/-- **Pushing a list of numbers** onto another adds its numbers. -/
theorem pushList_numeric {other : HostList} (hother : NumRanges other.ranges) :
    ∀ {hl : HostList}, NumWf hl →
      NumWf (hl.pushList other) ∧ ∀ x, Ival.Covers ((hl.pushList other).ranges.map ival) x ↔
        Ival.Covers (hl.ranges.map ival) x ∨ Ival.Covers (other.ranges.map ival) x := by
  -- induction on the ranges pushed, the list pushed onto generalized
  obtain ⟨ranges, count⟩ := other
  simp only [pushList]
  induction ranges with
  | nil => intro hl h; exact ⟨h, by simp⟩
  | cons hr rest ih =>
    intro hl h
    have hhr := hother hr List.mem_cons_self
    obtain ⟨hpush, hcovers⟩ := pushRange_numeric h hhr
    obtain ⟨hwf, hcovers'⟩ := ih (fun r hr' => hother r (List.mem_cons_of_mem _ hr')) hpush
    refine ⟨hwf, fun x => ?_⟩
    rw [List.foldl_cons, hcovers', hcovers, List.map_cons, Ival.covers_cons]
    tauto

end HostList

end Daos.Control

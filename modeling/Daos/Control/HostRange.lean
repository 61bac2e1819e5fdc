import Mathlib
import Daos.Lib.Runs

/-!
# Host ranges (`control/lib/hostlist/hostrange.go`)

A `hostRange` stands for the hosts `prefix` + number + `suffix` for the numbers `lo` to `hi`,
the numbers printed with at least `width` digits; one that is not a range (`isRange` false) is
the single host named `prefix`. A `hostName` is a host parsed into the same parts.

**What is modelled.** Go strings are lists of characters, all ASCII, so that a byte index is a
character index. `uint` is `ℕ` and `int` is `ℤ`; the model follows the code for numbers below
2^63, where no conversion between the two and no `+ 1` or `- 1` wraps: `hi == other.lo - 1`
is `hi + 1 = other.lo`. `combinesWidth` writes to its receiver or to its argument, so it returns
both ranges, and every method that calls it returns the ranges it may have changed. The prefix
and suffix fields are `prefixStr` and `suffixStr`.

Over the ranges of a numeric list (`Numeric`: ranges of plain numbers printed with no leading
zero) `combinesWidth` always agrees and changes only widths, so `cmp` orders by `lo` and `join`
is the join of two intervals of naturals (`join_numeric`).
-/

namespace Daos.Control

/-- `hostRange`. -/
structure HostRange where
  prefixStr : List Char := []
  suffixStr : List Char := []
  lo : ℕ := 0
  hi : ℕ := 0
  width : ℕ := 0
  isRange : Bool := false
deriving DecidableEq, Repr

/-- `hostName`. -/
structure HostName where
  prefixStr : List Char := []
  suffixStr : List Char := []
  number : ℕ := 0
  width : ℕ := 0
  hasNumber : Bool := false
deriving DecidableEq, Repr

namespace HostRange

/-- `count`, `int(hr.hi - hr.lo + 1)`. -/
def count (hr : HostRange) : ℤ :=
  (hr.hi : ℤ) - hr.lo + 1

/-- `within`: both ranges of numbers, with the same prefix and suffix. -/
def within (hr other : HostRange) : Bool :=
  if hr.prefixStr = other.prefixStr ∧ hr.suffixStr = other.suffixStr then
    hr.isRange && other.isRange
  else false

end HostRange

/-- The decimal digits of `n`, as `%d` prints them. -/
def decimal (n : ℕ) : List Char :=
  Nat.toDigits 10 n

/-- `zeroPadding`: the zeros `%0*d` puts before `num` to print it with `width` digits. The loop
of the source counts the digits of `num`. -/
def zeroPadding (num width : ℕ) : ℕ :=
  let numZeros := (decimal num).length
  if width > numZeros then width - numZeros else 0

/-- `fmt.Sprintf("%0*d", width, n)`. -/
def fmtPadded (width n : ℕ) : List Char :=
  List.replicate (zeroPadding n width) '0' ++ decimal n

/-- `strings.Compare`. -/
def goCompare (a b : List Char) : ℤ :=
  if a < b then -1 else if a = b then 0 else 1

namespace HostRange

/-- `combinesWidth`: whether the zero padding of the two ranges agrees. When it does, one of
the two may take the other's width; the result carries both ranges. -/
def combinesWidth (hr other : HostRange) : Bool × HostRange × HostRange :=
  if hr.width = other.width then (true, hr, other)
  else
    let lpad := zeroPadding hr.lo hr.width
    let lrpad := zeroPadding hr.lo other.width
    let rpad := zeroPadding other.lo other.width
    let rlpad := zeroPadding other.lo hr.width
    if lpad ≠ lrpad ∧ rpad ≠ rlpad then (false, hr, other)
    else if lpad ≠ lrpad then
      if rpad = rlpad then (true, hr, { other with width := hr.width }) else (false, hr, other)
    else (true, { hr with width := other.width }, other)

/-- `canAppend`: `other` continues `hr`. The receiver is returned, as `combinesWidth` may have
changed it. -/
def canAppend (hr other : HostRange) : Bool × HostRange :=
  if hr.isRange ∧ other.isRange ∧ hr.prefixStr = other.prefixStr ∧
      hr.suffixStr = other.suffixStr ∧ hr.hi + 1 = other.lo then
    let (ok, hr, _) := hr.combinesWidth other
    (ok, hr)
  else (false, hr)

/-- `containsHost`: the offset of the host in the range, whether it is there, and the range. -/
def containsHost (hr : HostRange) (hn : HostName) : ℕ × Bool × HostRange :=
  if !hr.isRange then
    if hr.prefixStr = hn.prefixStr then (0, true, hr) else (0, false, hr)
  else if !hn.hasNumber then (0, false, hr)
  else if hr.prefixStr ≠ hn.prefixStr ∨ hr.suffixStr ≠ hn.suffixStr then (0, false, hr)
  else if hn.number ≥ hr.lo ∧ hn.number ≤ hr.hi then
    let (ok, hr, _) := hr.combinesWidth { lo := hn.number, width := hn.width }
    if ok then (hn.number - hr.lo, true, hr) else (0, false, hr)
  else (0, false, hr)

/-- `cmp`: by prefix, then suffix, then `lo` when the paddings agree and width otherwise. -/
def cmp (hr other : HostRange) : ℤ × HostRange × HostRange :=
  let c := goCompare hr.prefixStr other.prefixStr
  if c ≠ 0 then (c, hr, other)
  else
    let c := goCompare hr.suffixStr other.suffixStr
    if c ≠ 0 then (c, hr, other)
    else
      let (ok, hr, other) := hr.combinesWidth other
      if ok then ((hr.lo : ℤ) - other.lo, hr, other)
      else ((hr.width : ℤ) - other.width, hr, other)

/-- `join`: when `other`, not before `hr`, continues or overlaps it, `hr` is extended to the end
of `other` and the result is the number of hosts of `other` it held already; otherwise `-1`. -/
def join (hr other : HostRange) : ℤ × HostRange × HostRange :=
  let (c, hr, other) := hr.cmp other
  if c > 0 then (-1, hr, other)
  else if hr.prefixStr ≠ other.prefixStr ∨ hr.suffixStr ≠ other.suffixStr then (-1, hr, other)
  else
    let (ok, hr, other) := hr.combinesWidth other
    if !ok then (-1, hr, other)
    else if !hr.isRange ∧ !other.isRange then (1, hr, other)
    else if hr.hi + 1 = other.lo then (0, { hr with hi := other.hi }, other)
    else if hr.hi ≥ other.lo then
      if hr.hi < other.hi then ((hr.hi : ℤ) - other.lo + 1, { hr with hi := other.hi }, other)
      else (other.count, hr, other)
    else (-1, hr, other)

/-- `deleteHost`: removes number `n`, splitting the range when `n` is inside it; the upper part
is returned first, then the range. -/
def deleteHost (hr : HostRange) (n : ℕ) : Except String (Option HostRange × HostRange) :=
  if n < hr.lo ∨ n > hr.hi then .error "index out of bounds in deleteHost()"
  else if n = hr.lo then .ok (none, { hr with lo := hr.lo + 1 })
  else if n = hr.hi then .ok (none, { hr with hi := hr.hi - 1 })
  else .ok (some { hr with lo := n + 1 }, { hr with hi := n - 1 })

/-- `rangedString`. -/
def rangedString (hr : HostRange) : List Char :=
  if !hr.isRange then []
  else if hr.lo = hr.hi then fmtPadded hr.width hr.lo
  else fmtPadded hr.width hr.lo ++ ['-'] ++ fmtPadded hr.width hr.hi

/-! ### Ranges of plain numbers -/

/-- The interval of the range's numbers. -/
def ival (hr : HostRange) : Ival ℕ :=
  ⟨hr.lo, hr.hi⟩

/-- A range of a numeric list: numbers only, printed with no leading zero. -/
structure Numeric (hr : HostRange) : Prop where
  isRange : hr.isRange = true
  prefixStr : hr.prefixStr = []
  suffixStr : hr.suffixStr = []
  unpadded : zeroPadding hr.lo hr.width = 0

theorem Numeric.width {hr : HostRange} (h : Numeric hr) (w : ℕ) (hw : zeroPadding hr.lo w = 0) :
    Numeric { hr with width := w } :=
  ⟨h.isRange, h.prefixStr, h.suffixStr, hw⟩

theorem Numeric.hi {hr : HostRange} (h : Numeric hr) (hi : ℕ) : Numeric { hr with hi := hi } :=
  ⟨h.isRange, h.prefixStr, h.suffixStr, h.unpadded⟩

theorem zeroPadding_eq_zero {num width : ℕ} :
    zeroPadding num width = 0 ↔ width ≤ (decimal num).length := by
  unfold zeroPadding
  dsimp only
  split_ifs <;> omega

theorem length_decimal_mono {a b : ℕ} (hab : a ≤ b) : (decimal a).length ≤ (decimal b).length := by
  have hpos : 0 < (decimal b).length := Nat.length_toDigits_pos
  have hb : b < 10 ^ (decimal b).length := (Nat.length_toDigits_le_iff (by omega) hpos).mp le_rfl
  exact (Nat.length_toDigits_le_iff (by omega) hpos).mpr (lt_of_le_of_lt hab hb)

/-- A width that pads no number pads no larger one. -/
theorem zeroPadding_eq_zero_of_le {a b w : ℕ} (hab : a ≤ b) (h : zeroPadding a w = 0) :
    zeroPadding b w = 0 := by
  rw [zeroPadding_eq_zero] at h ⊢
  exact h.trans (length_decimal_mono hab)

theorem Numeric.lo {hr : HostRange} (h : Numeric hr) {lo : ℕ} (hlo : hr.lo ≤ lo) :
    Numeric { hr with lo := lo } :=
  ⟨h.isRange, h.prefixStr, h.suffixStr, zeroPadding_eq_zero_of_le hlo h.unpadded⟩

/-- Between ranges printed with no leading zero the paddings agree, and the width one of them
takes prints it with no leading zero. -/
theorem combinesWidth_unpadded {hr other : HostRange} (h : zeroPadding hr.lo hr.width = 0)
    (h' : zeroPadding other.lo other.width = 0) :
    ∃ w w', hr.combinesWidth other = (true, { hr with width := w }, { other with width := w' }) ∧
      zeroPadding hr.lo w = 0 ∧ zeroPadding other.lo w' = 0 := by
  have hl := zeroPadding_eq_zero.mp h
  have hl' := zeroPadding_eq_zero.mp h'
  by_cases hw : hr.width = other.width
  · refine ⟨hr.width, other.width, ?_, h, h'⟩
    rw [combinesWidth, if_pos hw]
  by_cases hlr : zeroPadding hr.lo other.width = 0
  · -- `hr` is printed the same with the other width, and takes it
    refine ⟨other.width, other.width, ?_, hlr, h'⟩
    simp [combinesWidth, hw, h, hlr]
  · -- the other width pads `hr`, so it exceeds the digits of `hr.lo`, and `hr.width` does not
    -- pad `other`: `other` takes it
    have hrl : zeroPadding other.lo hr.width = 0 := by
      rw [zeroPadding_eq_zero] at hlr ⊢
      omega
    refine ⟨hr.width, hr.width, ?_, h, hrl⟩
    simp only [combinesWidth, if_neg hw, h, h', hrl]
    simp [Ne.symm hlr]

theorem goCompare_self (a : List Char) : goCompare a a = 0 := by
  simp [goCompare]

/-- Numeric ranges compare by their first number. -/
theorem cmp_numeric {hr other : HostRange} (h : Numeric hr) (h' : Numeric other) :
    ∃ w w', hr.cmp other = ((hr.lo : ℤ) - other.lo, { hr with width := w }, { other with width := w' }) ∧
      zeroPadding hr.lo w = 0 ∧ zeroPadding other.lo w' = 0 := by
  obtain ⟨w, w', hcomb, hw, hw'⟩ := combinesWidth_unpadded h.unpadded h'.unpadded
  refine ⟨w, w', ?_, hw, hw'⟩
  simp only [cmp, h.prefixStr, h'.prefixStr, h.suffixStr, h'.suffixStr, goCompare_self, ne_eq,
    not_true_eq_false, if_false, hcomb, if_true]

/-- `join` once its comparison and its width check are known. -/
theorem join_eq {hr other hr1 other1 hr2 other2 : HostRange} {c : ℤ} {ok : Bool}
    (hcmp : hr.cmp other = (c, hr1, other1))
    (hcomb : hr1.combinesWidth other1 = (ok, hr2, other2)) :
    hr.join other =
      if c > 0 then (-1, hr1, other1)
      else if hr1.prefixStr ≠ other1.prefixStr ∨ hr1.suffixStr ≠ other1.suffixStr then
        (-1, hr1, other1)
      else if !ok then (-1, hr2, other2)
      else if !hr2.isRange ∧ !other2.isRange then (1, hr2, other2)
      else if hr2.hi + 1 = other2.lo then (0, { hr2 with hi := other2.hi }, other2)
      else if hr2.hi ≥ other2.lo then
        if hr2.hi < other2.hi then
          ((hr2.hi : ℤ) - other2.lo + 1, { hr2 with hi := other2.hi }, other2)
        else (other2.count, hr2, other2)
      else (-1, hr2, other2) := by
  simp only [join, hcmp, hcomb]

/-- The comparison and the width check of `join` between numeric ranges, `hr` first. -/
theorem join_numeric_eq {hr other : HostRange} (h : Numeric hr) (h' : Numeric other)
    (hlo : hr.lo ≤ other.lo) :
    ∃ w w', zeroPadding hr.lo w = 0 ∧ zeroPadding other.lo w' = 0 ∧
      hr.join other =
        if hr.hi + 1 = other.lo then (0, { hr with width := w, hi := other.hi }, { other with width := w' })
        else if hr.hi ≥ other.lo then
          if hr.hi < other.hi then
            ((hr.hi : ℤ) - other.lo + 1, { hr with width := w, hi := other.hi }, { other with width := w' })
          else (other.count, { hr with width := w }, { other with width := w' })
        else (-1, { hr with width := w }, { other with width := w' }) := by
  obtain ⟨v, v', hcmp, hv, hv'⟩ := cmp_numeric h h'
  obtain ⟨w, w', hcomb, hw, hw'⟩ :=
    @combinesWidth_unpadded { hr with width := v } { other with width := v' } hv hv'
  have hc : ¬((hr.lo : ℤ) - other.lo > 0) := by omega
  have hnames : ¬(({ hr with width := v } : HostRange).prefixStr ≠
        ({ other with width := v' } : HostRange).prefixStr ∨
      ({ hr with width := v } : HostRange).suffixStr ≠
        ({ other with width := v' } : HostRange).suffixStr) := by
    simp [h.prefixStr, h'.prefixStr, h.suffixStr, h'.suffixStr]
  have hbare : ¬((!({ { hr with width := v } with width := w } : HostRange).isRange) = true ∧
      (!({ { other with width := v' } with width := w' } : HostRange).isRange) = true) := by
    simp [h.isRange]
  refine ⟨w, w', hw, hw', ?_⟩
  rw [join_eq hcmp hcomb, if_neg hc, if_neg hnames, Bool.not_true, if_neg Bool.false_ne_true,
    if_neg hbare]
  rfl

/-- A numeric range joins the next one, which starts no earlier and no later than one past its
end: it reaches the end of both, and the hosts counted twice are returned. -/
theorem join_numeric_of_reach {hr other : HostRange} (h : Numeric hr) (h' : Numeric other)
    (hlo : hr.lo ≤ other.lo) (hreach : other.lo ≤ hr.hi + 1) (hwf : other.lo ≤ other.hi) :
    ∃ w w' dupes, hr.join other =
        (dupes, { hr with width := w, hi := max hr.hi other.hi }, { other with width := w' }) ∧
      0 ≤ dupes ∧ ({ hr with hi := max hr.hi other.hi } : HostRange).count =
        hr.count + other.count - dupes ∧
      zeroPadding hr.lo w = 0 ∧ zeroPadding other.lo w' = 0 := by
  obtain ⟨w, w', hw, hw', hjoin⟩ := join_numeric_eq h h' hlo
  rw [hjoin]
  by_cases hadj : hr.hi + 1 = other.lo
  · -- `other` starts right after `hr`
    refine ⟨w, w', 0, ?_, le_refl _, ?_, hw, hw'⟩
    · rw [if_pos hadj, show max hr.hi other.hi = other.hi by omega]
    · simp only [count]
      omega
  · by_cases hlt : hr.hi < other.hi
    · refine ⟨w, w', (hr.hi : ℤ) - other.lo + 1, ?_, by omega, ?_, hw, hw'⟩
      · rw [if_neg hadj, if_pos (show hr.hi ≥ other.lo by omega), if_pos hlt,
          show max hr.hi other.hi = other.hi by omega]
      · simp only [count]
        omega
    · -- `other` lies inside `hr`
      refine ⟨w, w', other.count, ?_, ?_, ?_, hw, hw'⟩
      · rw [if_neg hadj, if_pos (show hr.hi ≥ other.lo by omega), if_neg hlt,
          show max hr.hi other.hi = hr.hi by omega]
      · simp only [count]
        omega
      · simp only [count]
        omega

/-- A numeric range does not join the next one when a number lies between them. -/
theorem join_numeric_of_gap {hr other : HostRange} (h : Numeric hr) (h' : Numeric other)
    (hlo : hr.lo ≤ other.lo) (hgap : hr.hi + 1 < other.lo) :
    ∃ w w', hr.join other = (-1, { hr with width := w }, { other with width := w' }) ∧
      zeroPadding hr.lo w = 0 ∧ zeroPadding other.lo w' = 0 := by
  obtain ⟨w, w', hw, hw', hjoin⟩ := join_numeric_eq h h' hlo
  refine ⟨w, w', ?_, hw, hw'⟩
  rw [hjoin, if_neg (by omega), if_neg (by omega)]

/-- A numeric range continues another exactly when it starts right after it. -/
theorem canAppend_numeric {hr other : HostRange} (h : Numeric hr) (h' : Numeric other) :
    ∃ w, zeroPadding hr.lo w = 0 ∧
      hr.canAppend other =
        if hr.hi + 1 = other.lo then (true, { hr with width := w }) else (false, hr) := by
  obtain ⟨w, w', hcomb, hw, -⟩ := combinesWidth_unpadded h.unpadded h'.unpadded
  refine ⟨w, hw, ?_⟩
  by_cases hnext : hr.hi + 1 = other.lo
  · simp only [canAppend, h.isRange, h'.isRange, h.prefixStr, h'.prefixStr, h.suffixStr,
      h'.suffixStr, hnext, and_self, if_true, hcomb]
  · simp only [canAppend, hnext, and_false, if_false]

/-- A numeric range holds a bare number exactly when it lies between its ends; a range that
holds it may take another width that prints it with no leading zero. -/
theorem containsHost_numeric {hr : HostRange} (h : Numeric hr) (i : ℕ) :
    ∃ w, zeroPadding hr.lo w = 0 ∧
      hr.containsHost { number := i, hasNumber := true } =
        if hr.lo ≤ i ∧ i ≤ hr.hi then (i - hr.lo, true, { hr with width := w })
        else (0, false, hr) := by
  have hnum : zeroPadding ({ lo := i, width := 0 } : HostRange).lo
      ({ lo := i, width := 0 } : HostRange).width = 0 := by
    simp [zeroPadding]
  obtain ⟨w, w', hcomb, hw, -⟩ := combinesWidth_unpadded h.unpadded hnum
  refine ⟨w, hw, ?_⟩
  by_cases hin : hr.lo ≤ i ∧ i ≤ hr.hi
  · simp only [containsHost, h.isRange, h.prefixStr, h.suffixStr, Bool.not_true,
      Bool.false_eq_true, if_false, ne_eq, not_true_eq_false, or_self, ge_iff_le, hin, and_self,
      if_true, hcomb]
  · simp only [containsHost, h.isRange, h.prefixStr, h.suffixStr, Bool.not_true,
      Bool.false_eq_true, if_false, ne_eq, not_true_eq_false, or_self, ge_iff_le, hin]

end HostRange

end Daos.Control

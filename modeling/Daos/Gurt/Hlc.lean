import Mathlib

/-!
# The hybrid logical clock (`gurt/hlc.c`)

A timestamp of the hybrid logical clock is a 64-bit word whose 46 high bits are physical time
(in sixteenths of a nanosecond since `D_HLC_START_SEC`, with the low 18 bits dropped) and whose
18 low bits count events within one physical tick. `d_hlc_get` stamps a local event and
`d_hlc_get_msg` stamps the receipt of a message stamped `msg`, refusing one whose physical part
is more than `d_hlc_epsilon` ahead of the local clock. Both move the clock `d_hlc` to the
timestamp they return.

**What is proved** (`hlc_monotonic_causal`), over every sequence of calls, each at an arbitrary
physical reading: the timestamps returned strictly increase; a message is stamped later than it
was sent, and refused (the clock left as it was) exactly when it is too far ahead; and the
physical part of a timestamp is at most the largest physical part seen so far (the clock
readings, the messages accepted, the earlier timestamps), or one tick more when the logical
bits have just overflowed. The message being stamped counts among the accepted messages: a
timestamp `msg + 1` has to go past it, beyond every reading and everything seen before
(`dHlcGetMsg_phys_above_prior`).

**What is modelled.** Timestamps are naturals: 64-bit wrap-around is set aside. The clock
reading is `((tv_sec - D_HLC_START_SEC) * NSEC_PER_SEC + tv_nsec) * D_HLC_NSEC`, taken as an
arbitrary number per call. Calls are sequential, so each compare-and-swap loop runs once.
-/

namespace Daos.Gurt

/-- `D_HLC_MASK`: the 18 logical bits. -/
def dHlcMask : ℕ := 0x3FFFF

/-- `-DER_HLC_SYNC`. -/
def derHlcSync : ℤ := -1037

/-- `x & ~D_HLC_MASK`: the physical part of a timestamp. -/
def dHlcPhys (x : ℕ) : ℕ := x - (x &&& dHlcMask)

/-- `d_hlc_localtime_get` at the clock reading `t`. -/
def dHlcLocaltimeGet (t : ℕ) : ℕ := dHlcPhys t

/-- `d_hlc_get` at the clock reading `t`, with the clock at `dHlc`: the timestamp returned, which
is also the new `d_hlc`. -/
def dHlcGet (dHlc t : ℕ) : ℕ :=
  let pt := dHlcLocaltimeGet t
  if dHlcPhys dHlc < pt then pt else dHlc + 1

/-- `d_hlc_get_msg` at the clock reading `t`, for a message stamped `msg`: `-DER_HLC_SYNC` or the
timestamp returned (the new `d_hlc`), and the offset it reports. -/
def dHlcGetMsg (dHlcEpsilon dHlc msg t : ℕ) : Except ℤ ℕ × ℕ :=
  let pt := dHlcLocaltimeGet t
  let ml := dHlcPhys msg
  let off := if ml > pt then ml - pt else 0
  if off > dHlcEpsilon then (.error derHlcSync, off)
  else
    let ret :=
      if dHlcPhys dHlc < ml then (if ml < pt then pt else msg + 1)
      else if dHlcPhys dHlc < pt then pt
      else if pt ≤ ml then (if dHlc < msg then msg else dHlc) + 1
      else dHlc + 1
    (.ok ret, off)

/-- `d_hlc_epsilon_set`: the bound rounded up to whole physical ticks. -/
def dHlcEpsilonSet (epsilon : ℕ) : ℕ := dHlcPhys (epsilon + dHlcMask)

/-- `d_hlc_epsilon_get_bound`. -/
def dHlcEpsilonGetBound (dHlcEpsilon hlc : ℕ) : ℕ := (hlc + dHlcEpsilon) ||| dHlcMask

/-- A call of the clock's interface, with its physical clock reading. -/
inductive HlcCall where
  | get (t : ℕ)
  | getMsg (msg t : ℕ)
deriving DecidableEq, Repr

/-- The timestamp a call returns with the clock at `dHlc`; `none` for `-DER_HLC_SYNC`. -/
def hlcCall (dHlcEpsilon dHlc : ℕ) : HlcCall → Option ℕ
  | .get t => some (dHlcGet dHlc t)
  | .getMsg msg t => (dHlcGetMsg dHlcEpsilon dHlc msg t).1.toOption

/-- `d_hlc` after a call. -/
def hlcNext (dHlcEpsilon dHlc : ℕ) (c : HlcCall) : ℕ := (hlcCall dHlcEpsilon dHlc c).getD dHlc

/-- `d_hlc` after a sequence of calls. -/
def hlcClock (dHlcEpsilon : ℕ) : ℕ → List HlcCall → ℕ
  | dHlc, [] => dHlc
  | dHlc, c :: cs => hlcClock dHlcEpsilon (hlcNext dHlcEpsilon dHlc c) cs

/-- The timestamps a sequence of calls returns, in order. -/
def hlcReturns (dHlcEpsilon : ℕ) : ℕ → List HlcCall → List ℕ
  | _, [] => []
  | dHlc, c :: cs =>
    match hlcCall dHlcEpsilon dHlc c with
    | some r => r :: hlcReturns dHlcEpsilon r cs
    | none => hlcReturns dHlcEpsilon dHlc cs

/-- The physical reading of a call. -/
def HlcCall.pt : HlcCall → ℕ
  | .get t => dHlcLocaltimeGet t
  | .getMsg _ t => dHlcLocaltimeGet t

/-- The physical part of a call's message; `0` for `d_hlc_get`. -/
def HlcCall.msgPhys : HlcCall → ℕ
  | .get _ => 0
  | .getMsg msg _ => dHlcPhys msg

/-- The largest physical part a sequence of calls has seen: of the clock it started from, of the
messages it accepted and of the timestamps it returned. -/
def hlcSeen (dHlcEpsilon : ℕ) : ℕ → List HlcCall → ℕ
  | dHlc, [] => dHlcPhys dHlc
  | dHlc, c :: cs =>
    match hlcCall dHlcEpsilon dHlc c with
    | some r => max (dHlcPhys dHlc) (max c.msgPhys (hlcSeen dHlcEpsilon r cs))
    | none => hlcSeen dHlcEpsilon dHlc cs

/-! ## Physical parts -/

section Phys

/-- One physical tick, `D_HLC_MASK + 1`. -/
theorem dHlcPhys_eq (x : ℕ) : dHlcPhys x = x - x % 2 ^ 18 := by
  unfold dHlcPhys
  rw [show dHlcMask = 2 ^ 18 - 1 from rfl, Nat.and_two_pow_sub_one_eq_mod]

theorem dHlcPhys_le (x : ℕ) : dHlcPhys x ≤ x := by
  rw [dHlcPhys_eq]
  exact Nat.sub_le x _

theorem dHlcPhys_mod (x : ℕ) : dHlcPhys x % 2 ^ 18 = 0 := by
  rw [dHlcPhys_eq]
  have := Nat.div_add_mod x (2 ^ 18)
  omega

/-- A whole tick above the physical part of `x` is above `x`. -/
theorem lt_of_dHlcPhys_lt {x p : ℕ} (hp : p % 2 ^ 18 = 0) (h : dHlcPhys x < p) : x < p := by
  rw [dHlcPhys_eq] at h
  have := Nat.div_add_mod x (2 ^ 18)
  have := Nat.mod_lt x (show 0 < 2 ^ 18 by decide)
  omega

/-- The physical part of a multiple of the tick is itself. -/
theorem dHlcPhys_of_mod {p : ℕ} (hp : p % 2 ^ 18 = 0) : dHlcPhys p = p := by
  rw [dHlcPhys_eq, hp, Nat.sub_zero]

/-- A logical step keeps the physical part, or carries into it: then the logical bits are
zero. -/
theorem dHlcPhys_succ (x : ℕ) :
    dHlcPhys (x + 1) = dHlcPhys x ∨
      ((x + 1) &&& dHlcMask = 0 ∧ dHlcPhys (x + 1) = dHlcPhys x + 2 ^ 18) := by
  rw [dHlcPhys_eq, dHlcPhys_eq, show dHlcMask = 2 ^ 18 - 1 from rfl,
    Nat.and_two_pow_sub_one_eq_mod]
  have := Nat.div_add_mod x (2 ^ 18)
  have := Nat.mod_lt x (show 0 < 2 ^ 18 by decide)
  have := Nat.div_add_mod (x + 1) (2 ^ 18)
  have := Nat.mod_lt (x + 1) (show 0 < 2 ^ 18 by decide)
  omega

/-- A reading of the local clock is a whole number of ticks. -/
theorem dHlcPhys_localtime (t : ℕ) : dHlcPhys (dHlcLocaltimeGet t) = dHlcLocaltimeGet t :=
  dHlcPhys_of_mod (dHlcPhys_mod t)

end Phys

/-! ## One call -/

section Call

variable {dHlcEpsilon dHlc msg t r : ℕ}

/-- A step past `x` keeps within a bound on its physical part, or goes one tick over it with the
logical bits at zero. -/
theorem dHlcPhys_succ_le {x B : ℕ} (hx : dHlcPhys x ≤ B) :
    dHlcPhys (x + 1) ≤ B ∨ ((x + 1) &&& dHlcMask = 0 ∧ dHlcPhys (x + 1) ≤ B + 2 ^ 18) := by
  rcases dHlcPhys_succ x with h | ⟨hbits, h⟩
  · exact Or.inl (h ▸ hx)
  · exact Or.inr ⟨hbits, by omega⟩

/-- `d_hlc_get` moves the clock forward. -/
theorem lt_dHlcGet (dHlc t : ℕ) : dHlc < dHlcGet dHlc t := by
  unfold dHlcGet
  dsimp only
  split
  · exact lt_of_dHlcPhys_lt (dHlcPhys_mod t) ‹_›
  · exact Nat.lt_succ_self dHlc

/-- `d_hlc_get_msg` refuses a message too far ahead of the local clock. -/
theorem dHlcGetMsg_sync (h : dHlcLocaltimeGet t + dHlcEpsilon < dHlcPhys msg) :
    (dHlcGetMsg dHlcEpsilon dHlc msg t).1 = .error derHlcSync := by
  unfold dHlcGetMsg
  dsimp only
  rw [if_pos (by rw [if_pos (by omega)]; omega)]

/-- Any other message is stamped, after both the clock and the message. -/
theorem dHlcGetMsg_ok (h : ¬ dHlcLocaltimeGet t + dHlcEpsilon < dHlcPhys msg) :
    ∃ r, (dHlcGetMsg dHlcEpsilon dHlc msg t).1 = .ok r ∧ dHlc < r ∧ msg < r := by
  have hpt := dHlcPhys_mod t
  have hml := dHlcPhys_mod msg
  have hcl := dHlcPhys_mod dHlc
  have hmsg := dHlcPhys_le msg
  have hdhlc := dHlcPhys_le dHlc
  unfold dHlcGetMsg dHlcLocaltimeGet at *
  dsimp only
  rw [if_neg (by split <;> omega)]
  refine ⟨_, rfl, ?_⟩
  split
  · -- the message's physical part is ahead of the clock's
    rename_i hahead
    split
    · exact ⟨lt_of_dHlcPhys_lt hpt (by omega), lt_of_dHlcPhys_lt hpt (by omega)⟩
    · exact ⟨by have := lt_of_dHlcPhys_lt hml hahead; omega, Nat.lt_succ_self msg⟩
  split
  · -- the local reading is ahead of both
    exact ⟨lt_of_dHlcPhys_lt hpt ‹_›, lt_of_dHlcPhys_lt hpt (by omega)⟩
  split
  · split <;> omega
  · -- the clock is ahead of the reading, which is ahead of the message
    have := lt_of_dHlcPhys_lt hcl (show dHlcPhys msg < dHlcPhys dHlc by omega)
    omega

/-- A call that returns moves the clock forward. -/
theorem lt_of_hlcCall {c : HlcCall} (h : hlcCall dHlcEpsilon dHlc c = some r) : dHlc < r := by
  cases c with
  | get t =>
    cases h
    exact lt_dHlcGet dHlc t
  | getMsg msg t =>
    by_cases hfar : dHlcLocaltimeGet t + dHlcEpsilon < dHlcPhys msg
    · simp [hlcCall, dHlcGetMsg_sync hfar, Except.toOption] at h
    · obtain ⟨r', hok, hlt, -⟩ := @dHlcGetMsg_ok _ dHlc _ _ hfar
      simp only [hlcCall, hok, Except.toOption, Option.some.injEq] at h
      exact h ▸ hlt

/-- The physical part of what a call returns is at most the largest of the reading, the
message's and the clock's, or a tick more after a carry. -/
theorem hlcCall_phys_le {c : HlcCall} (h : hlcCall dHlcEpsilon dHlc c = some r) :
    dHlcPhys r ≤ max c.pt (max c.msgPhys (dHlcPhys dHlc)) ∨
      (r &&& dHlcMask = 0 ∧ dHlcPhys r ≤ max c.pt (max c.msgPhys (dHlcPhys dHlc)) + 2 ^ 18) := by
  cases c with
  | get t =>
    cases h
    unfold dHlcGet HlcCall.pt HlcCall.msgPhys
    dsimp only
    split
    · left
      rw [dHlcPhys_localtime]
      exact le_max_left _ _
    · exact dHlcPhys_succ_le (by omega)
  | getMsg msg t =>
    by_cases hfar : dHlcLocaltimeGet t + dHlcEpsilon < dHlcPhys msg
    · simp [hlcCall, dHlcGetMsg_sync hfar, Except.toOption] at h
    simp only [hlcCall, HlcCall.pt, HlcCall.msgPhys, dHlcGetMsg] at h ⊢
    rw [if_neg (by split <;> omega)] at h
    simp only [Except.toOption, Option.some.injEq] at h
    subst h
    have hpt := dHlcPhys_localtime t
    split
    · split
      · exact Or.inl (by omega)
      · exact dHlcPhys_succ_le (by omega)
    split
    · exact Or.inl (by omega)
    split
    · -- a step past the later of the clock and the message
      split
      · exact dHlcPhys_succ_le (by omega)
      · exact dHlcPhys_succ_le (by omega)
    · exact dHlcPhys_succ_le (by omega)

end Call

/-! ## Runs of calls -/

section Run

variable (dHlcEpsilon : ℕ)

theorem lt_of_mem_hlcReturns :
    ∀ (dHlc : ℕ) (cs : List HlcCall), ∀ r ∈ hlcReturns dHlcEpsilon dHlc cs, dHlc < r
  | _, [] => by simp [hlcReturns]
  | dHlc, c :: cs => by
    unfold hlcReturns
    split
    · rename_i r hr
      intro x hx
      rcases List.mem_cons.mp hx with rfl | hx
      · exact lt_of_hlcCall hr
      · exact (lt_of_hlcCall hr).trans (lt_of_mem_hlcReturns r cs x hx)
    · exact lt_of_mem_hlcReturns dHlc cs

/-- The timestamps of a run strictly increase. -/
theorem hlcReturns_pairwise :
    ∀ (dHlc : ℕ) (cs : List HlcCall), (hlcReturns dHlcEpsilon dHlc cs).Pairwise (· < ·)
  | _, [] => List.Pairwise.nil
  | dHlc, c :: cs => by
    unfold hlcReturns
    split
    · rename_i r _
      exact List.Pairwise.cons (lt_of_mem_hlcReturns dHlcEpsilon r cs)
        (hlcReturns_pairwise r cs)
    · exact hlcReturns_pairwise dHlc cs

/-- The clock's physical part is among what the run has seen. -/
theorem dHlcPhys_hlcClock_le :
    ∀ (dHlc : ℕ) (cs : List HlcCall), dHlcPhys (hlcClock dHlcEpsilon dHlc cs) ≤
      hlcSeen dHlcEpsilon dHlc cs
  | _, [] => le_rfl
  | dHlc, c :: cs => by
    unfold hlcClock hlcSeen hlcNext
    split
    · rename_i r hr
      rw [hr, Option.getD_some]
      exact (dHlcPhys_hlcClock_le r cs).trans (le_max_of_le_right (le_max_right _ _))
    · rename_i hr
      rw [hr, Option.getD_none]
      exact dHlcPhys_hlcClock_le dHlc cs

end Run

/-- The hybrid logical clock is monotonic and causal. Over every sequence of calls from the
clock at `dHlc`, each at its own physical reading: (a) the timestamps returned strictly increase;
(b) in every state, a message is stamped later than it was sent, and `d_hlc_get_msg` returns
`-DER_HLC_SYNC`, leaving the clock as it was, exactly when the message's physical part is more
than `d_hlc_epsilon` ahead of the reading; (c) after any calls `pre`, the physical part of what
the next call `c` returns is at most the largest of its reading, of its message's physical part
and of what `pre` has seen, or one tick more with the logical bits at zero. -/
theorem hlc_monotonic_causal (dHlcEpsilon dHlc : ℕ) (calls : List HlcCall) :
    (hlcReturns dHlcEpsilon dHlc calls).Pairwise (· < ·) ∧
    (∀ c msg t, (∀ r, (dHlcGetMsg dHlcEpsilon c msg t).1 = .ok r → msg < r) ∧
      ((dHlcGetMsg dHlcEpsilon c msg t).1 = .error derHlcSync ↔
        dHlcLocaltimeGet t + dHlcEpsilon < dHlcPhys msg) ∧
      (dHlcLocaltimeGet t + dHlcEpsilon < dHlcPhys msg →
        hlcNext dHlcEpsilon c (.getMsg msg t) = c)) ∧
    (∀ (pre : List HlcCall) (c : HlcCall) (r : ℕ),
      hlcCall dHlcEpsilon (hlcClock dHlcEpsilon dHlc pre) c = some r →
      dHlcPhys r ≤ max c.pt (max c.msgPhys (hlcSeen dHlcEpsilon dHlc pre)) ∨
        (r &&& dHlcMask = 0 ∧
          dHlcPhys r ≤ max c.pt (max c.msgPhys (hlcSeen dHlcEpsilon dHlc pre)) + 2 ^ 18)) := by
  refine ⟨hlcReturns_pairwise dHlcEpsilon dHlc calls, fun c msg t => ⟨?_, ?_, ?_⟩, ?_⟩
  · intro r hr
    by_cases hfar : dHlcLocaltimeGet t + dHlcEpsilon < dHlcPhys msg
    · rw [dHlcGetMsg_sync hfar] at hr
      cases hr
    · obtain ⟨r', hok, -, hlt⟩ := @dHlcGetMsg_ok _ c _ _ hfar
      rw [hok] at hr
      cases hr
      exact hlt
  · constructor
    · intro hsync
      by_contra hfar
      obtain ⟨r', hok, -⟩ := @dHlcGetMsg_ok _ c _ _ hfar
      rw [hok] at hsync
      cases hsync
    · exact dHlcGetMsg_sync
  · intro hfar
    simp [hlcNext, hlcCall, dHlcGetMsg_sync hfar, Except.toOption]
  · intro pre c r hr
    -- the bound of the one call, with the clock's physical part bounded by what `pre` has seen
    have hseen := dHlcPhys_hlcClock_le dHlcEpsilon dHlc pre
    have hmono : max c.pt (max c.msgPhys (dHlcPhys (hlcClock dHlcEpsilon dHlc pre))) ≤
        max c.pt (max c.msgPhys (hlcSeen dHlcEpsilon dHlc pre)) :=
      max_le_max le_rfl (max_le_max le_rfl hseen)
    rcases hlcCall_phys_le hr with h | ⟨hbits, h⟩
    · exact Or.inl (h.trans hmono)
    · exact Or.inr ⟨hbits, h.trans (by omega)⟩

/-- The bound at a first message accepted with the clock at zero: stamped `msg + 1`, past the
local reading. -/
theorem hlc_monotonic_causal_first_msg :
    hlcCall 262144 (hlcClock 262144 0 []) (.getMsg 524288 262144) = some 524289 ∧
      dHlcPhys 524289 ≤ max (HlcCall.getMsg 524288 262144).pt
        (max (HlcCall.getMsg 524288 262144).msgPhys (hlcSeen 262144 0 [])) := by
  have hcall : hlcCall 262144 (hlcClock 262144 0 []) (.getMsg 524288 262144) = some 524289 := by
    decide
  refine ⟨hcall, ?_⟩
  rcases (hlc_monotonic_causal 262144 0 []).2.2 [] _ _ hcall with h | ⟨hbits, -⟩
  · exact h
  · exact absurd hbits (by decide)

/-- The message being stamped has to count among what bounds the result. With the clock at zero
and the default `d_hlc_epsilon` of one second, a first message three ticks ahead of a reading of
one tick is accepted and stamped `msg + 1`: its physical part is two ticks above the reading and
everything seen before, though its logical bits have not overflowed. -/
theorem dHlcGetMsg_phys_above_prior :
    hlcCall 16000000000 (hlcClock 16000000000 0 []) (.getMsg 786432 262144) = some 786433 ∧
      max (HlcCall.getMsg 786432 262144).pt (hlcSeen 16000000000 0 []) + 2 ^ 18 <
        dHlcPhys 786433 ∧
      786433 &&& dHlcMask ≠ 0 := by
  decide

end Daos.Gurt

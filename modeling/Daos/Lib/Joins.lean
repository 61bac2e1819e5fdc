import Mathlib

/-!
# Per-key joins

A state keeps, for each key, an element of a join-semilattice, and takes an update `(k, x)` by
joining `x` into the element of `k` (`joinAt`); `joinAll` takes a list of updates in order.

**What is proved.** How `joinAll` composes: a list of updates split in two is taken one part
after the other (`joinAll_append`), and a key's element after the updates depends on the state
before only through that key's element (`joinAll_congr_at`), which lets a caller follow one key
through the updates.
-/

namespace Joins

variable {κ L : Type*} [DecidableEq κ] [SemilatticeSup L]

/-- The state after the update `u`: `u.2` joined into the element of `u.1`. -/
def joinAt (v : κ → L) (u : κ × L) : κ → L := Function.update v u.1 (v u.1 ⊔ u.2)

/-- The state after the updates, in order. -/
def joinAll (v : κ → L) (us : List (κ × L)) : κ → L := us.foldl joinAt v

@[simp]
theorem joinAt_apply (v : κ → L) (u : κ × L) (k : κ) :
    joinAt v u k = if k = u.1 then v k ⊔ u.2 else v k := by
  by_cases h : k = u.1
  · subst h
    simp [joinAt]
  · simp [joinAt, h]

@[simp]
theorem joinAll_nil (v : κ → L) : joinAll v [] = v := rfl

@[simp]
theorem joinAll_cons (v : κ → L) (u : κ × L) (us : List (κ × L)) :
    joinAll v (u :: us) = joinAll (joinAt v u) us := rfl

theorem joinAll_append (v : κ → L) (us ws : List (κ × L)) :
    joinAll v (us ++ ws) = joinAll (joinAll v us) ws :=
  List.foldl_append

/-- A key's element after the updates depends on the state before only through that key's
element. -/
theorem joinAll_congr_at {v w : κ → L} {k : κ} (h : v k = w k) (us : List (κ × L)) :
    joinAll v us k = joinAll w us k := by
  induction us generalizing v w with
  | nil => exact h
  | cons u us ih =>
    refine ih ?_
    simp only [joinAt_apply, h]

end Joins

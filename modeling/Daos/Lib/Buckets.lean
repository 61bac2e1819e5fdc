import Mathlib

/-!
# Tables of buckets

A table of `n` buckets, each a list, given as a function from the bucket's index. Its members
are the buckets `0` to `n - 1` put end to end. A chained hash table edits one bucket at a time,
and each edit is read here as an edit of the members:

* a bucket replaced by a permutation of itself permutes the members (`members_perm_of_perm`);
* an element pushed on a bucket is consed on the members, up to permutation (`members_cons`);
* an element erased from every bucket is erased from the members, when they hold no duplicate
  (`members_erase`).

Everything here is about lists; nothing depends on how an element chooses its bucket.
-/

namespace Buckets

variable {α : Type*}

/-- The elements of buckets `0` to `n - 1`, in that order. -/
def members (n : ℕ) (f : ℕ → List α) : List α := (List.range n).flatMap f

theorem mem_members {n : ℕ} {f : ℕ → List α} {x : α} :
    x ∈ members n f ↔ ∃ b < n, x ∈ f b := by
  simp [members]

theorem members_succ (n : ℕ) (f : ℕ → List α) : members (n + 1) f = members n f ++ f n := by
  rw [members, List.range_succ, List.flatMap_append]
  simp [members]

/-- Only the first `n` buckets count. -/
theorem members_congr {n : ℕ} {f g : ℕ → List α} (h : ∀ b < n, f b = g b) :
    members n f = members n g :=
  List.flatMap_congr fun b hb => h b (List.mem_range.1 hb)

theorem bucket_sublist {n b : ℕ} (hb : b < n) (f : ℕ → List α) : (f b).Sublist (members n f) := by
  induction n with
  | zero => omega
  | succ n ih =>
    rw [members_succ]
    rcases Nat.lt_succ_iff_lt_or_eq.1 hb with hb | rfl
    · exact (ih hb).trans (List.sublist_append_left _ _)
    · exact List.sublist_append_right _ _

/-- The members are bucket `b` and the members of the table with bucket `b` emptied. -/
theorem members_perm_split {n b : ℕ} (hb : b < n) (f : ℕ → List α) :
    (members n f).Perm (f b ++ members n (Function.update f b [])) := by
  induction n with
  | zero => omega
  | succ n ih =>
    rw [members_succ, members_succ, Function.update_apply]
    rcases Nat.lt_succ_iff_lt_or_eq.1 hb with hb | rfl
    · -- bucket `n` is not the one emptied
      rw [if_neg (by omega), ← List.append_assoc]
      exact (ih hb).append_right (f n)
    · -- the emptied bucket is the last one, the others are untouched
      have hrest : members b (Function.update f b []) = members b f :=
        members_congr fun b' hb' => Function.update_of_ne (by omega) _ _
      rw [if_pos rfl, hrest, List.append_nil]
      exact List.perm_append_comm

/-- Replacing bucket `b` by `l` puts `l` in its place among the members. -/
theorem members_update_perm {n b : ℕ} (hb : b < n) (f : ℕ → List α) (l : List α) :
    (members n (Function.update f b l)).Perm (l ++ members n (Function.update f b [])) := by
  have h := members_perm_split hb (Function.update f b l)
  rwa [Function.update_self, Function.update_idem] at h

theorem members_perm_of_perm {n b : ℕ} (hb : b < n) (f : ℕ → List α) {l : List α}
    (hl : l.Perm (f b)) : (members n (Function.update f b l)).Perm (members n f) :=
  (members_update_perm hb f l).trans ((hl.append_right _).trans (members_perm_split hb f).symm)

theorem members_cons {n b : ℕ} (hb : b < n) (f : ℕ → List α) (x : α) :
    (members n (Function.update f b (x :: f b))).Perm (x :: members n f) :=
  (members_update_perm hb f _).trans ((members_perm_split hb f).symm.cons x)

/-- Erasing `x` from every bucket erases it from the members, when they hold no duplicate. -/
theorem members_erase [DecidableEq α] {n : ℕ} {f : ℕ → List α} (hnd : (members n f).Nodup) (x : α) :
    members n (fun b => (f b).erase x) = (members n f).erase x := by
  rw [hnd.erase_eq_filter]
  unfold members
  rw [List.filter_flatMap]
  refine List.flatMap_congr fun b hb => ?_
  exact ((hnd.sublist (bucket_sublist (List.mem_range.1 hb) f))).erase_eq_filter x

end Buckets

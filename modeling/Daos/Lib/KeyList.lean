import Mathlib

/-!
# Lists of records named by a key

A list of records, each carrying a key, edited the way C code edits a linked list it scans for a
key: `renew` changes the first record of a key, `remove` unlinks it, `lookup` returns it. While
the keys are distinct (`(l.map key).Nodup`) a key names at most one record, and the edits act on
"the" record of the key. What is proved is the keys after each edit: `renew` by an `f` that keeps
keys keeps them (`map_renew`), `remove` erases its key (`map_remove`), so it keeps them distinct
(`nodup_remove`), and it changes nothing when the key is absent (`remove_of_not_mem`).
-/

namespace KeyList

variable {α κ : Type*} [DecidableEq κ] (key : α → κ)

/-- The first record of key `k` changed by `f`, the others as they are. -/
def renew (k : κ) (f : α → α) (l : List α) : List α :=
  l.replaceF fun a => if key a = k then some (f a) else none

/-- The list without its first record of key `k`. -/
def remove (k : κ) (l : List α) : List α := l.eraseP fun a => key a = k

/-- The first record of key `k`. -/
def lookup (k : κ) (l : List α) : Option α := l.find? fun a => key a = k

variable {key} {k : κ} {f : α → α}

@[simp]
theorem renew_nil : renew key k f [] = [] := rfl

theorem renew_cons (a : α) (l : List α) :
    renew key k f (a :: l) = if key a = k then f a :: l else a :: renew key k f l := by
  by_cases h : key a = k
  · simp [renew, List.replaceF, h]
  · simp [renew, List.replaceF, h]

@[simp]
theorem remove_nil : remove key k [] = [] := rfl

theorem remove_cons (a : α) (l : List α) :
    remove key k (a :: l) = if key a = k then l else a :: remove key k l := by
  by_cases h : key a = k
  · simp [remove, h]
  · simp [remove, h]

@[simp]
theorem lookup_nil : lookup key k ([] : List α) = none := rfl

/-! ### The keys after each edit -/

theorem map_renew (hf : ∀ a, key (f a) = key a) (l : List α) :
    (renew key k f l).map key = l.map key := by
  induction l with
  | nil => rfl
  | cons a l ih =>
    rw [renew_cons]
    split_ifs
    · simp [hf]
    · simp [ih]

theorem map_remove (l : List α) : (remove key k l).map key = (l.map key).erase k := by
  induction l with
  | nil => rfl
  | cons a l ih =>
    rw [remove_cons, List.map_cons, List.erase_cons]
    by_cases h : key a = k
    · simp [h]
    · simp [h, ih]

theorem nodup_remove {l : List α} (hnd : (l.map key).Nodup) : ((remove key k l).map key).Nodup := by
  rw [map_remove]
  exact hnd.erase k

theorem remove_of_not_mem {l : List α} (h : k ∉ l.map key) : remove key k l = l := by
  induction l with
  | nil => rfl
  | cons a l ih =>
    simp only [List.map_cons, List.mem_cons, not_or] at h
    rw [remove_cons, if_neg (Ne.symm h.1), ih h.2]

end KeyList

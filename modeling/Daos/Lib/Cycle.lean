import Mathlib

/-!
# Circular doubly-linked lists kept in a table of links

A table-based circular list gives every slot a successor and a predecessor, `nxt` and `prv`,
and names one element as its head. `IsCycle nxt prv l` says that the list `l`, read from its
head, is laid out that way: its elements are distinct, each one's `nxt` is the element after
it and the last one's is the first, and every forward link is mirrored by `prv`. The empty list
is the empty circular list, which the table marks by the absence of a head.

The lemmas are the moves a table-based implementation makes: unlinking an element between its
neighbours (`IsCycle.erase`, with the head it leaves in `IsCycle.headD_erase`), linking an
element in just before the head, as the new tail (`IsCycle.concat`) or as the new head
(`IsCycle.cons`), moving the head one step round (`IsCycle.rotate`), and the frame rule that
links outside the list do not matter (`IsCycle.frame`). Each move is stated with the new link
maps given by what they do at the few slots that change, so that any way of writing the table
instantiates it. The neighbour facts (`nxt_mem`, `prv_nxt`, `prv_head`, `prv_eq_self_iff`)
are what an implementation reads before it relinks.
-/

namespace Daos.Lib

variable {α : Type*}

section Defs

variable (nxt prv : α → α)

/-- `a` links to the elements of `cs` in order and the last of them to `b`; every link holds
both ways, `nxt` of one element being the next and `prv` of the next the one before. -/
def LinkPath : α → List α → α → Prop
  | a, [], b => nxt a = b ∧ prv b = a
  | a, c :: cs, b => (nxt a = c ∧ prv c = a) ∧ LinkPath c cs b

/-- The elements of `l` are distinct and, in this order from the head, form one circular
doubly-linked list under `nxt` and `prv`. -/
def IsCycle : List α → Prop
  | [] => True
  | x :: xs => (x :: xs).Nodup ∧ LinkPath nxt prv x xs x

end Defs

variable {nxt prv nxt' prv' : α → α}

namespace LinkPath

theorem append {a b m : α} {cs ds : List α} :
    LinkPath nxt prv a (cs ++ m :: ds) b ↔ LinkPath nxt prv a cs m ∧ LinkPath nxt prv m ds b := by
  induction cs generalizing a with
  | nil => simp [LinkPath]
  | cons c cs ih => simp [LinkPath, ih, and_assoc]

/-- The frame rule: a path reads `nxt` only on its sources and `prv` only on its targets. -/
theorem frame {a b : α} {cs : List α} (h : LinkPath nxt prv a cs b)
    (hn : ∀ x ∈ a :: cs, nxt' x = nxt x) (hp : ∀ x ∈ cs ++ [b], prv' x = prv x) :
    LinkPath nxt' prv' a cs b := by
  induction cs generalizing a with
  | nil =>
    obtain ⟨h₁, h₂⟩ := h
    exact ⟨by rw [hn a (by simp), h₁], by rw [hp b (by simp), h₂]⟩
  | cons c cs ih =>
    obtain ⟨⟨h₁, h₂⟩, hrest⟩ := h
    refine ⟨⟨by rw [hn a (by simp), h₁], by rw [hp c (by simp), h₂]⟩, ih hrest ?_ ?_⟩
    · intro x hx
      exact hn x (List.mem_cons_of_mem a hx)
    · intro x hx
      exact hp x (by simp_all)

theorem nxt_mem {a b : α} {cs : List α} (h : LinkPath nxt prv a cs b) :
    ∀ x ∈ a :: cs, nxt x ∈ cs ++ [b] := by
  induction cs generalizing a with
  | nil =>
    intro x hx
    obtain rfl : x = a := by simpa using hx
    simp [h.1]
  | cons c cs ih =>
    intro x hx
    rcases List.mem_cons.1 hx with rfl | hx
    · simp [h.1.1]
    · exact List.mem_cons_of_mem c (ih h.2 x hx)

theorem prv_mem {a b : α} {cs : List α} (h : LinkPath nxt prv a cs b) :
    ∀ x ∈ cs ++ [b], prv x ∈ a :: cs := by
  induction cs generalizing a with
  | nil =>
    intro x hx
    obtain rfl : x = b := by simpa using hx
    simp [h.2]
  | cons c cs ih =>
    intro x hx
    rcases List.mem_cons.1 hx with rfl | hx
    · simp [h.1.2]
    · exact List.mem_cons_of_mem a (ih h.2 x hx)

theorem prv_nxt {a b : α} {cs : List α} (h : LinkPath nxt prv a cs b) :
    ∀ x ∈ a :: cs, prv (nxt x) = x := by
  induction cs generalizing a with
  | nil =>
    intro x hx
    obtain rfl : x = a := by simpa using hx
    rw [h.1, h.2]
  | cons c cs ih =>
    intro x hx
    rcases List.mem_cons.1 hx with rfl | hx
    · rw [h.1.1, h.1.2]
    · exact ih h.2 x hx

end LinkPath

namespace IsCycle

theorem nodup {l : List α} (h : IsCycle nxt prv l) : l.Nodup := by
  cases l with
  | nil => exact List.nodup_nil
  | cons x xs => exact h.1

@[simp] theorem nil : IsCycle nxt prv ([] : List α) := trivial

theorem singleton {y : α} (hn : nxt y = y) (hp : prv y = y) : IsCycle nxt prv [y] :=
  ⟨List.nodup_singleton y, hn, hp⟩

theorem nxt_mem {l : List α} (h : IsCycle nxt prv l) {x : α} (hx : x ∈ l) : nxt x ∈ l := by
  cases l with
  | nil => simp at hx
  | cons y ys =>
    have := h.2.nxt_mem x hx
    simp only [List.mem_append, List.mem_singleton] at this
    rcases this with h' | h'
    · exact List.mem_cons_of_mem y h'
    · simp [h']

theorem prv_mem {l : List α} (h : IsCycle nxt prv l) {x : α} (hx : x ∈ l) : prv x ∈ l := by
  cases l with
  | nil => simp at hx
  | cons y ys =>
    apply h.2.prv_mem x
    rcases List.mem_cons.1 hx with rfl | hx
    · simp
    · simp [hx]

theorem prv_nxt {l : List α} (h : IsCycle nxt prv l) {x : α} (hx : x ∈ l) : prv (nxt x) = x := by
  cases l with
  | nil => simp at hx
  | cons y ys => exact h.2.prv_nxt x hx

/-- The head's successor is the second element, or the head itself in a one-element list. -/
theorem nxt_head {x : α} {xs : List α} (h : IsCycle nxt prv (x :: xs)) : nxt x = xs.headD x := by
  cases xs with
  | nil => exact h.2.1
  | cons c cs => exact h.2.1.1

/-- The head's predecessor is the tail of the list. -/
theorem prv_head {x : α} {xs : List α} (h : IsCycle nxt prv (x :: xs)) :
    prv x = (x :: xs).getLast (List.cons_ne_nil x xs) := by
  rcases List.eq_nil_or_concat xs with rfl | ⟨mid, last, hxs⟩
  · exact h.2.2
  · rw [List.concat_eq_append] at hxs
    subst hxs
    have hpath := h.2
    rw [LinkPath.append] at hpath
    rw [hpath.2.2]
    simp

/-- The frame rule: a circular list reads the links of its own elements only. -/
theorem frame {l : List α} (h : IsCycle nxt prv l) (hn : ∀ x ∈ l, nxt' x = nxt x)
    (hp : ∀ x ∈ l, prv' x = prv x) : IsCycle nxt' prv' l := by
  cases l with
  | nil => trivial
  | cons x xs =>
    refine ⟨h.1, h.2.frame hn ?_⟩
    intro y hy
    apply hp
    simp only [List.mem_append, List.mem_singleton] at hy
    rcases hy with hy | rfl
    · exact List.mem_cons_of_mem x hy
    · exact List.mem_cons_self

/-- Moving the head one step round keeps every link. -/
theorem rotate {x : α} {xs : List α} (h : IsCycle nxt prv (x :: xs)) :
    IsCycle nxt prv (xs ++ [x]) := by
  cases xs with
  | nil => exact h
  | cons c cs =>
    obtain ⟨hnd, ⟨hxc, hcx⟩, hpath⟩ := h
    refine ⟨(List.perm_append_singleton x (c :: cs)).nodup_iff.2 hnd, ?_⟩
    have hgoal : LinkPath nxt prv c (cs ++ x :: []) c :=
      LinkPath.append.2 ⟨hpath, hxc, hcx⟩
    exact hgoal

theorem append_comm {l₁ l₂ : List α} (h : IsCycle nxt prv (l₁ ++ l₂)) :
    IsCycle nxt prv (l₂ ++ l₁) := by
  induction l₁ generalizing l₂ with
  | nil => simpa using h
  | cons a as ih =>
    have hrot : IsCycle nxt prv (as ++ (l₂ ++ [a])) := by
      simpa using (show IsCycle nxt prv (a :: (as ++ l₂)) from h).rotate
    simpa using ih hrot

/-- In a circular list an element is its own predecessor exactly when it is alone. -/
theorem prv_eq_self_iff {l : List α} (h : IsCycle nxt prv l) {x : α} (hx : x ∈ l) :
    prv x = x ↔ l = [x] := by
  constructor
  · intro hself
    obtain ⟨pre, post, rfl⟩ := List.append_of_mem hx
    have hrot : IsCycle nxt prv (x :: (post ++ pre)) := h.append_comm
    have hrest : post ++ pre = [] := by
      by_contra hne
      have hlast := hrot.prv_head
      rw [List.getLast_cons hne, hself] at hlast
      have hmem : x ∈ post ++ pre := hlast ▸ List.getLast_mem hne
      exact (List.nodup_cons.1 hrot.nodup).1 hmem
    obtain ⟨rfl, rfl⟩ := List.append_eq_nil_iff.1 hrest
    rfl
  · rintro rfl
    exact h.2.2

/-- The predecessor of the head is the only element whose successor is the head. -/
theorem eq_getLast_of_nxt_eq_head {x : α} {xs : List α} (h : IsCycle nxt prv (x :: xs))
    {i : α} (hi : i ∈ x :: xs) (hnx : nxt i = x) :
    i = (x :: xs).getLast (List.cons_ne_nil x xs) := by
  rw [← h.prv_head, ← hnx, h.prv_nxt hi]

section Relink

variable {i : α}

/-- Unlinking the head `i` of a list of two or more: its predecessor now links forward to its
successor and the successor back to the predecessor; nothing else changes. -/
theorem tail_of_cons {r : α} {rs : List α} (h : IsCycle nxt prv (i :: r :: rs))
    (h₁ : nxt' (prv i) = nxt i) (h₂ : prv' (nxt i) = prv i)
    (hn : ∀ x ∈ i :: r :: rs, x ≠ prv i → nxt' x = nxt x)
    (hp : ∀ x ∈ i :: r :: rs, x ≠ nxt i → prv' x = prv x) :
    IsCycle nxt' prv' (r :: rs) := by
  obtain ⟨hnd, ⟨hir, -⟩, hpath⟩ := h
  have hnd' : (r :: rs).Nodup := (List.nodup_cons.1 hnd).2
  rw [hir] at h₁ h₂ hp
  rcases List.eq_nil_or_concat rs with rfl | ⟨mid, last, hrs⟩
  · obtain ⟨-, hpi⟩ := hpath
    rw [hpi] at h₁ h₂
    exact ⟨hnd', h₁, h₂⟩
  · rw [List.concat_eq_append] at hrs
    subst hrs
    rw [LinkPath.append] at hpath
    obtain ⟨hmid, -, hpi⟩ := hpath
    rw [hpi] at h₁ h₂ hn
    -- the tail `last` relinks to `r`; the path from `r` to `last` keeps its links
    have hsep : ∀ x ∈ r :: mid, x ≠ last := fun x hx =>
      (List.nodup_append.1 (show (r :: mid ++ [last]).Nodup by simpa using hnd')).2.2 x hx last
        (by simp)
    refine ⟨hnd', ?_⟩
    show LinkPath nxt' prv' r (mid ++ last :: []) r
    refine LinkPath.append.2 ⟨hmid.frame ?_ ?_, ⟨h₁, h₂⟩⟩
    · intro x hx
      exact hn x (by simp at hx ⊢; tauto) (hsep x hx)
    · intro x hx
      apply hp x (by simp at hx ⊢; tauto)
      rintro rfl
      exact (List.nodup_cons.1 hnd').1 hx

/-- Unlinking an element `i` that is not alone: its predecessor now links forward to its
successor and the successor back to the predecessor; nothing else changes. -/
theorem erase [DecidableEq α] {l : List α} (h : IsCycle nxt prv l) (hi : i ∈ l) (hne : prv i ≠ i)
    (h₁ : nxt' (prv i) = nxt i) (h₂ : prv' (nxt i) = prv i)
    (hn : ∀ x ∈ l, x ≠ prv i → nxt' x = nxt x) (hp : ∀ x ∈ l, x ≠ nxt i → prv' x = prv x) :
    IsCycle nxt' prv' (l.erase i) := by
  obtain ⟨pre, post, rfl⟩ := List.append_of_mem hi
  have hnot : i ∉ pre := by
    have hnd := h.nodup
    rw [List.nodup_append] at hnd
    exact fun hip => hnd.2.2 i hip i List.mem_cons_self rfl
  have hrot : IsCycle nxt prv (i :: (post ++ pre)) := h.append_comm
  have hmem : ∀ x, x ∈ i :: (post ++ pre) ↔ x ∈ pre ++ i :: post := by
    intro x
    simp only [List.mem_cons, List.mem_append]
    tauto
  cases hrest : post ++ pre with
  | nil =>
    rw [hrest] at hrot
    exact absurd hrot.2.2 hne
  | cons r rs =>
    rw [hrest] at hrot hmem
    have hcyc := hrot.tail_of_cons h₁ h₂ (fun x hx => hn x ((hmem x).1 hx))
      (fun x hx => hp x ((hmem x).1 hx))
    rw [← hrest] at hcyc
    rw [List.erase_append_right _ hnot, List.erase_cons_head]
    exact hcyc.append_comm

/-- The head after unlinking `i`: the successor of `i` if `i` was the head, the old head
otherwise. -/
theorem headD_erase [DecidableEq α] {l : List α} (h : IsCycle nxt prv l) (hi : i ∈ l)
    (hne : prv i ≠ i) (d : α) :
    (l.erase i).headD d = if i = l.headD d then nxt i else l.headD d := by
  cases l with
  | nil => simp at hi
  | cons x xs =>
    by_cases hix : i = x
    · subst hix
      have hxs : xs ≠ [] := by
        rintro rfl
        exact hne h.2.2
      rw [List.erase_cons_head, List.headD_cons, if_pos rfl, h.nxt_head]
      cases xs with
      | nil => exact absurd rfl hxs
      | cons c cs => rfl
    · rw [List.erase_cons_tail (by simpa using Ne.symm hix), List.headD_cons, List.headD_cons,
        if_neg hix]

/-- Linking `y` in just before the head `x`, as the new tail: the old tail `prv x` now links
forward to `y`, `y` to `x`, and `x` back to `y`; nothing else changes. -/
theorem concat {x y : α} {xs : List α} (h : IsCycle nxt prv (x :: xs)) (hy : y ∉ x :: xs)
    (h₁ : nxt' (prv x) = y) (h₂ : nxt' y = x) (h₃ : prv' x = y) (h₄ : prv' y = prv x)
    (hn : ∀ a ∈ x :: xs, a ≠ prv x → nxt' a = nxt a) (hp : ∀ a ∈ x :: xs, a ≠ x → prv' a = prv a) :
    IsCycle nxt' prv' (x :: xs ++ [y]) := by
  obtain ⟨hnd, hpath⟩ := h
  have hnd' : (x :: xs ++ [y]).Nodup := by
    rw [List.nodup_append]
    refine ⟨hnd, List.nodup_singleton y, fun a ha b hb hab => ?_⟩
    rw [List.mem_singleton] at hb
    subst hab hb
    exact hy ha
  rcases List.eq_nil_or_concat xs with rfl | ⟨mid, last, hxs⟩
  · obtain ⟨-, hpx⟩ := hpath
    rw [hpx] at h₁ h₄
    exact ⟨hnd', ⟨h₁, h₄⟩, h₂, h₃⟩
  · rw [List.concat_eq_append] at hxs
    subst hxs
    rw [LinkPath.append] at hpath
    obtain ⟨hmid, -, hpx⟩ := hpath
    rw [hpx] at h₁ h₄ hn
    -- the old tail `last` now links to `y`; the path from `x` to `last` keeps its links
    have hsep : ∀ a ∈ x :: mid, a ≠ last := fun a ha =>
      (List.nodup_append.1 (show (x :: mid ++ [last]).Nodup by simpa using hnd)).2.2 a ha last
        (by simp)
    refine ⟨hnd', ?_⟩
    have hgoal : LinkPath nxt' prv' x (mid ++ last :: [y]) x := by
      refine LinkPath.append.2 ⟨hmid.frame ?_ ?_, ⟨h₁, h₄⟩, h₂, h₃⟩
      · intro a ha
        exact hn a (by simp at ha ⊢; tauto) (hsep a ha)
      · intro a ha
        apply hp a (by simp at ha ⊢; tauto)
        rintro rfl
        exact (List.nodup_cons.1 hnd).1 ha
    simpa using hgoal

/-- Linking `y` in just before the head `x` and making it the head. -/
theorem cons {x y : α} {xs : List α} (h : IsCycle nxt prv (x :: xs)) (hy : y ∉ x :: xs)
    (h₁ : nxt' (prv x) = y) (h₂ : nxt' y = x) (h₃ : prv' x = y) (h₄ : prv' y = prv x)
    (hn : ∀ a ∈ x :: xs, a ≠ prv x → nxt' a = nxt a) (hp : ∀ a ∈ x :: xs, a ≠ x → prv' a = prv a) :
    IsCycle nxt' prv' (y :: x :: xs) := by
  have hcyc : IsCycle nxt' prv' ([y] ++ x :: xs) := (h.concat hy h₁ h₂ h₃ h₄ hn hp).append_comm
  exact hcyc

end Relink

end IsCycle

/-- The indices below `n`, in order, with successor `i + 1` and predecessor `i - 1` taken
round modulo `n`: the circular list a freshly linked table starts with. -/
theorem isCycle_range {n : ℕ} (hn : 0 < n) :
    IsCycle (fun i => (i + 1) % n) (fun i => if i = 0 then n - 1 else i - 1) (List.range n) := by
  -- the path from `a` through `a + 1, …, n - 1` back round to `0`, by induction on its length
  have hpath : ∀ k a, a + k + 1 = n →
      LinkPath (fun i => (i + 1) % n) (fun i => if i = 0 then n - 1 else i - 1) a
        (List.range' (a + 1) k) 0 := by
    intro k
    induction k with
    | zero =>
      intro a ha
      refine ⟨?_, ?_⟩
      · simp only
        rw [show a + 1 = n by omega, Nat.mod_self]
      · show (if (0 : ℕ) = 0 then n - 1 else 0 - 1) = a
        rw [if_pos rfl]
        omega
    | succ k ih =>
      intro a ha
      rw [List.range'_succ]
      refine ⟨⟨?_, ?_⟩, ih (a + 1) (by omega)⟩
      · exact Nat.mod_eq_of_lt (by omega)
      · simp
  obtain ⟨m, rfl⟩ : ∃ m, n = m + 1 := ⟨n - 1, by omega⟩
  have hnd : (List.range (m + 1)).Nodup := List.nodup_range
  rw [List.range_eq_range', List.range'_succ] at hnd ⊢
  exact ⟨hnd, hpath m 0 (by omega)⟩

end Daos.Lib

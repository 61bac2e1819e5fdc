import Mathlib

/-!
# Rooted trees given by children lists and a parent map

A rooted tree over the members of a set can be given the way a broadcast uses it: every member
lists its children, and every member but the root names its parent. `ParentTree` says that the
two descriptions agree and span the members once: each listed child is a member other than the
root and names the one that lists it as its parent, a member names a parent that lists it, no
member is listed twice by one parent, and following parents from any member reaches the root.

Two things are proved for the development that use it: a parent map that a measure decreases
reaches the root (`ParentTree.of_measure`), and relabelling the members by a map with a left
inverse on them keeps the tree (`ParentTree.relabel`); the tree of a group is its tree over
indices, relabelled twice.
-/

namespace Daos.Lib

variable {α β : Type*}

/-- Following `parent` from `c` reaches `root`, through members other than the root. -/
inductive Reaches (mem : α → Prop) (root : α) (parent : α → α) : α → Prop
  | root : Reaches mem root parent root
  | step {c : α} : mem c → c ≠ root → Reaches mem root parent (parent c) →
      Reaches mem root parent c

namespace Reaches

variable {mem : α → Prop} {root : α} {parent : α → α}

/-- Reachability depends on the members and on the parent map of the members other than the
root only. -/
theorem congr {mem' : α → Prop} {parent' : α → α} (hmem : ∀ a, mem a → mem' a)
    (hpar : ∀ c, mem c → c ≠ root → parent c = parent' c) {c : α}
    (h : Reaches mem root parent c) : Reaches mem' root parent' c := by
  induction h with
  | root => exact .root
  | @step c hc hne _ ih => exact .step (hmem c hc) hne (hpar c hc hne ▸ ih)

/-- Reachability carried along a relabelling that `g` undoes on the members. -/
theorem relabel (f : α → β) (g : β → α) (hgf : ∀ a, mem a → g (f a) = a) (hroot : mem root)
    {c : α} (h : Reaches mem root parent c) :
    Reaches (fun b => ∃ a, mem a ∧ f a = b) (f root) (fun b => f (parent (g b))) (f c) := by
  induction h with
  | root => exact .root
  | @step c hc hne _ ih =>
    refine .step ⟨c, hc, rfl⟩ (fun heq => hne ?_) ?_
    · -- `f` is injective on the members, since `g` undoes it there
      rw [← hgf c hc, heq, hgf root hroot]
    · rwa [hgf c hc]

end Reaches

/-- `children` and `parent` describe one tree spanning the members, rooted at `root`. -/
structure ParentTree (mem : α → Prop) (root : α) (children : α → List α) (parent : α → α) :
    Prop where
  root_mem : mem root
  nodup : ∀ s, mem s → (children s).Nodup
  child : ∀ s, mem s → ∀ c ∈ children s, mem c ∧ c ≠ root ∧ parent c = s
  parent_mem : ∀ c, mem c → c ≠ root → mem (parent c) ∧ c ∈ children (parent c)
  reaches : ∀ c, mem c → Reaches mem root parent c

namespace ParentTree

variable {mem : α → Prop} {root : α} {children : α → List α} {parent : α → α}

/-- The tree is the same for members given by an equivalent predicate, children lists that
agree on the members and parents that agree on the members other than the root. -/
theorem congr (t : ParentTree mem root children parent) {mem' : α → Prop}
    {children' : α → List α} {parent' : α → α} (hmem : ∀ a, mem a ↔ mem' a)
    (hch : ∀ s, mem s → children s = children' s)
    (hpar : ∀ c, mem c → c ≠ root → parent c = parent' c) :
    ParentTree mem' root children' parent' := by
  refine ⟨(hmem root).mp t.root_mem, fun s hs => ?_, fun s hs c hc => ?_, fun c hc hne => ?_,
    fun c hc => ?_⟩
  · rw [← hch s ((hmem s).mpr hs)]
    exact t.nodup s ((hmem s).mpr hs)
  · rw [← hch s ((hmem s).mpr hs)] at hc
    obtain ⟨hcm, hcr, hcp⟩ := t.child s ((hmem s).mpr hs) c hc
    exact ⟨(hmem c).mp hcm, hcr, hpar c hcm hcr ▸ hcp⟩
  · have hc' := (hmem c).mpr hc
    obtain ⟨hpm, hpc⟩ := t.parent_mem c hc' hne
    rw [← hpar c hc' hne, ← hch _ hpm]
    exact ⟨(hmem _).mp hpm, hpc⟩
  · exact (t.reaches c ((hmem c).mpr hc)).congr (fun a ha => (hmem a).mp ha) hpar

/-- A parent map that lowers a measure on the members other than the root reaches the root
from every member. Strong induction on the measure. -/
theorem reaches_of_measure (μ : α → ℕ)
    (hmem : ∀ c, mem c → c ≠ root → mem (parent c))
    (hμ : ∀ c, mem c → c ≠ root → μ (parent c) < μ c) :
    ∀ c, mem c → Reaches mem root parent c := by
  intro c
  induction hn : μ c using Nat.strong_induction_on generalizing c with
  | _ n ih =>
    intro hc
    by_cases hroot : c = root
    · rw [hroot]
      exact .root
    · exact .step hc hroot (ih _ (hn ▸ hμ c hc hroot) _ rfl (hmem c hc hroot))

/-- The tree property with the reachability given by a decreasing measure. -/
theorem of_measure (μ : α → ℕ) (root_mem : mem root)
    (nodup : ∀ s, mem s → (children s).Nodup)
    (child : ∀ s, mem s → ∀ c ∈ children s, mem c ∧ c ≠ root ∧ parent c = s)
    (parent_mem : ∀ c, mem c → c ≠ root → mem (parent c) ∧ c ∈ children (parent c))
    (hμ : ∀ c, mem c → c ≠ root → μ (parent c) < μ c) :
    ParentTree mem root children parent :=
  ⟨root_mem, nodup, child, parent_mem,
    reaches_of_measure μ (fun c hc hne => (parent_mem c hc hne).1) hμ⟩

section Relabel

variable (f : α → β) (g : β → α)

/-- Relabelling the members by `f`, undone by `g` on them, keeps the tree: the children of a
new label are those of the member it stands for, relabelled, and so is its parent. -/
theorem relabel (t : ParentTree mem root children parent) (hgf : ∀ a, mem a → g (f a) = a) :
    ParentTree (fun b => ∃ a, mem a ∧ f a = b) (f root) (fun b => (children (g b)).map f)
      (fun b => f (parent (g b))) := by
  have hinj : ∀ x, mem x → ∀ y, mem y → f x = f y → x = y := by
    intro x hx y hy hxy
    rw [← hgf x hx, hxy, hgf y hy]
  refine ⟨⟨root, t.root_mem, rfl⟩, ?_, ?_, ?_, ?_⟩
  · rintro _ ⟨a, ha, rfl⟩
    rw [hgf a ha]
    refine (t.nodup a ha).map_on fun x hx y hy => hinj x ?_ y ?_
    · exact (t.child a ha x hx).1
    · exact (t.child a ha y hy).1
  · rintro _ ⟨a, ha, rfl⟩ _ hc
    rw [hgf a ha] at hc
    obtain ⟨x, hx, rfl⟩ := List.mem_map.mp hc
    obtain ⟨hxm, hxr, hxp⟩ := t.child a ha x hx
    refine ⟨⟨x, hxm, rfl⟩, fun heq => hxr (hinj x hxm root t.root_mem heq), ?_⟩
    rw [hgf x hxm, hxp]
  · rintro _ ⟨a, ha, rfl⟩ hne
    have har : a ≠ root := fun h => hne (h ▸ rfl)
    obtain ⟨hpm, hpc⟩ := t.parent_mem a ha har
    refine ⟨⟨parent a, hpm, by rw [hgf a ha]⟩, ?_⟩
    rw [hgf a ha, hgf (parent a) hpm]
    exact List.mem_map_of_mem hpc
  · rintro _ ⟨a, ha, rfl⟩
    exact (t.reaches a ha).relabel f g hgf t.root_mem

end Relabel

end ParentTree

end Daos.Lib

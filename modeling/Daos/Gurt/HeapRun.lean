import Mathlib
import Daos.Gurt.HeapQueue

/-!
# Runs of the binary heap

The abstract queue is a finite set of nodes, the nodes inserted and not removed since, beside the
set of nodes removed and not inserted again. `DBinheapReach` is every run from
`d_binheap_create_inplace`, with any preallocation count and any outcome of the allocations,
through `d_binheap_insert` of a node not in the queue (with any outcome of the grow and of
`hop_enter`), `d_binheap_remove` of a node in it and `d_binheap_remove_root`; it carries the two
sets the run leaves. `DBinheap.Implements` relates a heap to them, and every reachable heap
implements its sets (`DBinheapReach.implements`): each call refines the queue operation it
stands for.

`d_binheap_find` changes nothing, and is read in the final theorem. A failing insert is only
half the identity: after a grow, a failing `hop_enter` leaves the new pointer array allocated
(`dBinheapInsert_fail`).
-/

namespace Daos.Gurt

open Daos.Lib DBinheap

variable {N K : Type*} [DecidableEq N] [LinearOrder K]

/-- The heaps that runs of the heap's calls reach from `d_binheap_create_inplace`, with the nodes
inserted and not removed (`live`) and the nodes removed and not inserted again (`gone`). Every
insert brings its own allocation outcomes and `hop_enter` result. -/
inductive DBinheapReach (hopCompare : N → N → Bool) : DBinheap N → Finset N → Finset N → Prop
  | create {count : ℕ} {allocOk : ℕ → ℕ → Bool} {chnIdx : N → ℕ} {h : DBinheap N} :
      dBinheapCreateInplace count allocOk chnIdx = .ok h → DBinheapReach hopCompare h ∅ ∅
  | insert {h : DBinheap N} {live gone : Finset N} (allocOk : ℕ → Bool) (enterRc : ℤ) (e : N) :
      DBinheapReach hopCompare h live gone → e ∉ live →
      DBinheapReach hopCompare (dBinheapInsert hopCompare allocOk enterRc h e).1
        (if (dBinheapInsert hopCompare allocOk enterRc h e).2 = 0 then insert e live else live)
        (if (dBinheapInsert hopCompare allocOk enterRc h e).2 = 0 then gone.erase e else gone)
  | remove {h : DBinheap N} {live gone : Finset N} (e : N) :
      DBinheapReach hopCompare h live gone → e ∈ live →
      DBinheapReach hopCompare (dBinheapRemoveLocked hopCompare h e) (live.erase e) (insert e gone)
  | removeRoot {h : DBinheap N} {live gone : Finset N} :
      DBinheapReach hopCompare h live gone →
      DBinheapReach hopCompare (dBinheapRemoveRoot hopCompare h).1
        ((dBinheapRemoveRoot hopCompare h).2.elim live live.erase)
        ((dBinheapRemoveRoot hopCompare h).2.elim gone fun x => insert x gone)

namespace DBinheap

/-- The heap `h` implements the queue of the nodes `live`: it keeps its invariant, stores them
below its count and no other, and the nodes of `gone` carry `DBH_POISON`. -/
structure Implements (key : N → K) (h : DBinheap N) (live gone : Finset N) : Prop where
  wf : h.Wf key
  card : h.nodesCnt = live.card
  mem : ∀ x, h.Mem x ↔ x ∈ live
  poison : ∀ x ∈ gone, h.chnIdx x = dbhPoison
  disjoint : Disjoint live gone

namespace Implements

variable {key : N → K} {h r : DBinheap N} {live gone : Finset N}

omit [DecidableEq N] in
/-- The heap `d_binheap_create_inplace` returns implements the empty queue. -/
theorem create {count : ℕ} {allocOk : ℕ → ℕ → Bool} {chnIdx : N → ℕ}
    (hc : dBinheapCreateInplace count allocOk chnIdx = .ok h) : h.Implements key ∅ ∅ := by
  have hl₀ : (⟨0, 0, [], fun _ => none, chnIdx⟩ : DBinheap N).Layout :=
    ⟨Nat.zero_mod _, Nat.zero_le _, le_refl 0, fun i hi => absurd hi (Nat.not_lt_zero i)⟩
  obtain ⟨hl, -, hn, -, -⟩ := hl₀.prealloc hc
  -- no position lies below a count of 0
  have hn₀ : h.nodesCnt = 0 := hn
  have hno : ∀ i, ¬i < h.nodesCnt := fun i hi => Nat.not_lt_zero i (hn₀ ▸ hi)
  refine ⟨⟨hl, fun i hi => absurd hi (hno i), fun i _ hi => absurd hi (hno i)⟩, hn₀, fun x => ?_,
    fun x hx => absurd hx (Finset.notMem_empty x), Finset.disjoint_empty_left _⟩
  exact ⟨fun ⟨i, hi, _⟩ => absurd hi (hno i), fun hx => absurd hx (Finset.notMem_empty x)⟩

/-- An insert that returns 0 implements the queue with the node added. -/
theorem insert_ok {e : N} (hi : h.Implements key live gone) (he : e ∉ live) (hr : r.Wf key)
    (hn : r.nodesCnt = h.nodesCnt + 1) (hmem : ∀ x, r.Mem x ↔ h.Mem x ∨ x = e)
    (hfr : ∀ x, ¬h.Mem x → x ≠ e → r.chnIdx x = h.chnIdx x) :
    r.Implements key (insert e live) (gone.erase e) := by
  refine ⟨hr, by rw [hn, hi.card, Finset.card_insert_of_notMem he], fun x => ?_, fun x hx => ?_,
    ?_⟩
  · rw [hmem, hi.mem, Finset.mem_insert, or_comm]
  · obtain ⟨hxe, hxg⟩ := Finset.mem_erase.mp hx
    -- a removed node is not in the heap
    have hxh : ¬h.Mem x := fun hxh =>
      Finset.disjoint_left.mp hi.disjoint ((hi.mem x).mp hxh) hxg
    rw [hfr x hxh hxe, hi.poison x hxg]
  · rw [Finset.disjoint_insert_left]
    exact ⟨Finset.notMem_erase e gone,
      Finset.disjoint_of_subset_right (Finset.erase_subset e gone) hi.disjoint⟩

omit [DecidableEq N] in
/-- A heap with the count, the positions and the `chn_idx` of `h` implements its queue. -/
theorem of_eq (hi : h.Implements key live gone) (hr : r.Wf key) (hn : r.nodesCnt = h.nodesCnt)
    (hv : r.view = h.view) (hc : r.chnIdx = h.chnIdx) : r.Implements key live gone := by
  refine ⟨hr, hn.trans hi.card, fun x => ?_, fun x hx => hc ▸ hi.poison x hx, hi.disjoint⟩
  rw [← hi.mem x, Mem, Mem, hn, hv]

/-- A removal of a node of the queue implements the queue without it. -/
theorem removed {e : N} (hi : h.Implements key live gone) (hr : Removed key h r e)
    (he : e ∈ live) : r.Implements key (live.erase e) (insert e gone) := by
  refine ⟨hr.wf, ?_, fun x => ?_, fun x hx => ?_, ?_⟩
  · have := hr.nodesCnt
    rw [Finset.card_erase_of_mem he, ← hi.card]
    omega
  · rw [hr.mem, hi.mem, Finset.mem_erase, and_comm]
  · rcases Finset.mem_insert.mp hx with rfl | hxg
    · exact hr.poison
    · have hxh : ¬h.Mem x := fun hxh =>
        Finset.disjoint_left.mp hi.disjoint ((hi.mem x).mp hxh) hxg
      rw [hr.frame x hxh, hi.poison x hxg]
  · rw [Finset.disjoint_insert_right]
    exact ⟨Finset.notMem_erase e live,
      Finset.disjoint_of_subset_left (Finset.erase_subset e live) hi.disjoint⟩

end Implements

end DBinheap

section Run

variable {key : N → K} {hopCompare : N → N → Bool}
  (hcmp : ∀ a b, hopCompare a b = true ↔ key a ≤ key b)
include hcmp

/-- Every heap a run reaches implements the queue the run leaves. Induction along the run, one
case per call, each closed by the call's specification. -/
theorem DBinheapReach.implements {h : DBinheap N} {live gone : Finset N}
    (hr : DBinheapReach hopCompare h live gone) : h.Implements key live gone := by
  induction hr with
  | create hc => exact Implements.create hc
  | @insert h live gone allocOk enterRc e _ he ih =>
    have hh : ¬h.Mem e := fun hh => he ((ih.mem e).mp hh)
    obtain ⟨hwf, hok, hfail⟩ := dBinheapInsert_spec hcmp allocOk enterRc ih.wf hh
    by_cases hrc : (dBinheapInsert hopCompare allocOk enterRc h e).2 = 0
    · -- the node is in the queue
      rw [if_pos hrc, if_pos hrc]
      obtain ⟨hn, hmem, hfr⟩ := hok hrc
      exact ih.insert_ok he hwf hn hmem hfr
    · -- the queue as it was
      rw [if_neg hrc, if_neg hrc]
      obtain ⟨hn, hv, hc⟩ := hfail hrc
      exact ih.of_eq hwf hn hv hc
  | remove e _ he ih =>
    exact ih.removed (dBinheapRemoveLocked_spec hcmp ih.wf ((ih.mem e).mpr he)) he
  | @removeRoot h live gone _ ih =>
    obtain ⟨hnone, hsome⟩ := dBinheapRemoveRoot_spec hcmp ih.wf
    rcases ho : (dBinheapRemoveRoot hopCompare h).2 with _ | x
    · -- an empty heap, returned as it was
      rw [(hnone ho).2]
      exact ih
    · obtain ⟨hx, hrem, -⟩ := hsome x ho
      exact ih.removed hrem ((ih.mem x).mp hx)

/-- The heap refines a priority queue. Over every run: (a) the positions below the count hold
the live nodes, as many as there are, each at its `chn_idx`, and the removed nodes carry
`DBH_POISON`; (b) every node compares above the node at its parent position, so
`d_binheap_remove_root` returns `NULL` exactly on the empty queue and otherwise a live node of
least key, and `d_binheap_find` returns the live node at the position asked for; (c) the pointer
map is injective, every position below the high-water mark lies in pointer arrays the grows
allocated, and an insert that fails leaves the heap as it was or, after a grow, with one more
pointer array. -/
theorem dBinheap_priority_queue {h : DBinheap N} {live gone : Finset N}
    (hr : DBinheapReach hopCompare h live gone) :
    ((∀ x, (∃ i < h.nodesCnt, h.view i = some x) ↔ x ∈ live) ∧ h.nodesCnt = live.card ∧
      (∀ i < h.nodesCnt, ∃ x, h.view i = some x ∧ h.chnIdx x = i) ∧
      ∀ x ∈ gone, h.chnIdx x = dbhPoison) ∧
    ((∀ i, 0 < i → i < h.nodesCnt →
        ∃ p c, h.view ((i - 1) / 2) = some p ∧ h.view i = some c ∧ hopCompare p c = true) ∧
      ((dBinheapRemoveRoot hopCompare h).2 = none ↔ live = ∅) ∧
      (∀ x, (dBinheapRemoveRoot hopCompare h).2 = some x →
        x ∈ live ∧ ∀ y ∈ live, key x ≤ key y) ∧
      ∀ i x, dBinheapFind h i = some x → x ∈ live ∧ h.chnIdx x = i) ∧
    ((∀ i < h.hwm, ∀ j < h.hwm, dBinheapPointer i = dBinheapPointer j → i = j) ∧
      (∀ i < h.hwm, ∀ f ∈ (dBinheapPointer i).frags, f ∈ h.frags) ∧ h.nodesCnt ≤ h.hwm ∧
      ∀ allocOk enterRc e, (dBinheapInsert hopCompare allocOk enterRc h e).2 ≠ 0 →
        (dBinheapInsert hopCompare allocOk enterRc h e).1 = h ∨
          ∃ fs, (dBinheapInsert hopCompare allocOk enterRc h e).1 = h.grown fs) := by
  have himp := hr.implements hcmp
  obtain ⟨hnone, hsome⟩ := dBinheapRemoveRoot_spec hcmp himp.wf
  refine ⟨⟨himp.mem, himp.card, himp.wf.at_pos, himp.poison⟩,
    ⟨fun i hi0 hin => ?_, ?_, fun x hx => ?_, fun i x hf => ?_⟩,
    ⟨fun i _ j _ hij => dBinheapPointer_injective hij, himp.wf.layout.allocated,
      himp.wf.layout.cnt_le, fun _ _ _ hrc => dBinheapInsert_fail hrc⟩⟩
  · -- the heap order, read through `hop_compare`
    obtain ⟨c, hc, -⟩ := himp.wf.at_pos i hin
    obtain ⟨p, hp, -⟩ := himp.wf.at_pos (heapParent i) (Nat.lt_trans (heapParent_lt hi0) hin)
    have hle := himp.wf.ord i hi0 hin
    rw [hp, hc, optKey_some, optKey_some] at hle
    exact ⟨p, c, hp, hc, (hcmp p c).mpr (WithBot.coe_le_coe.mp hle)⟩
  · rcases ho : (dBinheapRemoveRoot hopCompare h).2 with _ | x
    · have hcard := (hnone ho).1
      rw [himp.card, Finset.card_eq_zero] at hcard
      exact ⟨fun _ => hcard, fun _ => rfl⟩
    · obtain ⟨hx, -, -⟩ := hsome x ho
      refine ⟨fun hn => (nomatch hn), fun hl => absurd ((himp.mem x).mp hx) ?_⟩
      rw [hl]
      exact Finset.notMem_empty x
  · obtain ⟨hxm, -, hmin⟩ := hsome x hx
    exact ⟨(himp.mem x).mp hxm, fun y hy => hmin y ((himp.mem y).mpr hy)⟩
  · obtain ⟨hxm, hxi⟩ := dBinheapFind_some himp.wf hf
    exact ⟨(himp.mem x).mp hxm, hxi⟩

end Run

omit [DecidableEq N] in
/-- `d_binheap_create_inplace` with no preallocation. -/
theorem dBinheapCreateInplace_zero (allocOk : ℕ → ℕ → Bool) (chnIdx : N → ℕ) :
    dBinheapCreateInplace 0 allocOk chnIdx = .ok ⟨0, 0, [], fun _ => none, chnIdx⟩ := by
  rw [dBinheapCreateInplace, dBinheapPrealloc]
  rfl

/-- A run of one insert into a heap created empty, under the order of `ℕ`. -/
theorem dBinheap_priority_queue_insert_four :
    (∀ a b : ℕ, decide (a ≤ b) = true ↔ a ≤ b) ∧
      DBinheapReach (fun a b : ℕ => decide (a ≤ b)) (dBinheapInsert (fun a b : ℕ => decide (a ≤ b))
        (fun _ => true) 0 ⟨0, 0, [], fun _ => none, fun _ => 0⟩ 4).1 {4} ∅ ∧
      ∀ x, (∃ i < (dBinheapInsert (fun a b : ℕ => decide (a ≤ b)) (fun _ => true) 0
          ⟨0, 0, [], fun _ => none, fun _ => 0⟩ 4).1.nodesCnt,
        (dBinheapInsert (fun a b : ℕ => decide (a ≤ b)) (fun _ => true) 0
          ⟨0, 0, [], fun _ => none, fun _ => 0⟩ 4).1.view i = some x) ↔ x ∈ ({4} : Finset ℕ) := by
  have hcmp : ∀ a b : ℕ, decide (a ≤ b) = true ↔ a ≤ b := fun a b => decide_eq_true_iff
  have hrc : (dBinheapInsert (fun a b : ℕ => decide (a ≤ b)) (fun _ => true) 0
      ⟨0, 0, [], fun _ => none, fun _ => 0⟩ 4).2 = 0 := rfl
  have hr₀ : DBinheapReach (fun a b : ℕ => decide (a ≤ b)) ⟨0, 0, [], fun _ => none, fun _ => 0⟩
      ∅ ∅ := .create (dBinheapCreateInplace_zero (fun _ _ => true) _)
  have hr := DBinheapReach.insert (fun _ => true) 0 4 hr₀ (Finset.notMem_empty 4)
  rw [if_pos hrc, if_pos hrc, Finset.erase_empty, Finset.insert_empty] at hr
  exact ⟨hcmp, hr, (dBinheap_priority_queue hcmp hr).1.1⟩

/-- An insert into a heap created empty whose `hop_enter` fails after the grow: the insert
fails, and the heap keeps the pointer array the grow allocated. -/
theorem dBinheapInsert_enter_fail_grows :
    DBinheapReach (fun a b : ℕ => decide (a ≤ b)) ⟨0, 0, [], fun _ => none, fun _ => 0⟩ ∅ ∅ ∧
      (dBinheapInsert (fun a b : ℕ => decide (a ≤ b)) (fun _ => true) (-1)
        ⟨0, 0, [], fun _ => none, fun _ => 0⟩ 4).2 = -1 ∧
      (dBinheapInsert (fun a b : ℕ => decide (a ≤ b)) (fun _ => true) (-1)
        ⟨0, 0, [], fun _ => none, fun _ => 0⟩ 4).1.hwm = 512 :=
  ⟨.create (dBinheapCreateInplace_zero (fun _ _ => true) _), rfl, rfl⟩

end Daos.Gurt

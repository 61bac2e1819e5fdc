import Mathlib
import Daos.Lib.ParentTree

/-!
# Collective-RPC trees — `crt_tree_get_children` / `crt_tree_get_parent` (`cart/crt_tree*.c`)

A collective RPC and an IV update are broadcast over a tree of the group's ranks. The ranks are
sorted, de-duplicated and filtered (`crt_get_filtered_grp_rank_list`), and each rank works out
its children and its parent from its index in that list, the index of the root and the tree's
type and branch ratio; nothing is exchanged. The index space is rotated so that the root is
tree rank 0 (`crt_grprank_2_tree_rank`), where a k-ary tree gives the children `self * k + i + 1`
and the parent `(self - 1) / k`, and a k-nomial tree adds `i * k^d` to `self` for each of its
trailing zero digits `d` in base `k`, and clears the lowest nonzero digit to find the parent. A
flat tree makes every rank a child of the root.

**What is proved.** For every membership and exclusion list, every valid topology and every
root in the filtered membership `M` with `|M| * ratio < 2^32`, the children and parents the
three calls return form one tree spanning `M` rooted at the root (`crtTree_spanning`): each
rank other than the root is returned as a child by exactly one rank, its parent; the root by
none; every child is a member; no rank lists a child twice; following parents reaches the root;
and `crt_tree_get_nchildren` counts the children. It is carried by the tree over tree ranks
(`karyTree`, `knomialTree`), relabelled along the rotation and along the rank list with the
library's `ParentTree.relabel`.

**What is modelled, and how.** Ranks and indices are `uint32_t`; the sums and products that can
wrap are written with `% 2^32`, and the bound `|M| * ratio < 2^32` is what keeps them from
wrapping. The group is its membership list; `d_rank_list_dup_sort_uniq` sorts it and drops
adjacent duplicates. The group version check, the allocations (`-DER_NOMEM`) and the `D_ASSERT`s
of `CRT_TREE_PARAMETER_CHECKING` are left out: the theorems take a valid topology. An empty
filter list is one with no rank array, which `d_rank_list_filter` returns on at once.
-/

namespace Daos.Cart

open Daos.Lib

/-- `CRT_TREE_MIN_RATIO`. -/
def crtTreeMinRatio : ℕ := 2

/-- `CRT_TREE_MAX_RATIO`: also the digits a k-nomial number holds. -/
def crtTreeMaxRatio : ℕ := 64

/-- `DER_INVAL`. -/
def derInval : ℤ := 1003

/-- `DER_NONEXIST`. -/
def derNonexist : ℤ := 1005

/-- `DER_OOG`. -/
def derOog : ℤ := 1019

/-- `enum crt_tree_type`, without `CRT_TREE_INVALID`. -/
inductive CrtTreeType
  | flat
  | kary
  | knomial
deriving DecidableEq, Repr

/-- A tree topology, `crt_tree_topo(type, ratio)`. -/
structure CrtTreeTopo where
  type : CrtTreeType
  ratio : ℕ
deriving DecidableEq, Repr

/-- What `CRT_TREE_PARAMETER_CHECKING` asserts of the topology: a branch ratio in range unless
the tree is flat. -/
def CrtTreeTopo.Valid (topo : CrtTreeTopo) : Prop :=
  topo.type = .flat ∨ (crtTreeMinRatio ≤ topo.ratio ∧ topo.ratio ≤ crtTreeMaxRatio)

/-! ## Tree ranks -/

/-- `crt_treerank_2_grprank`. -/
def crtTreerank2Grprank (grpSize grpRoot treeRank : ℕ) : ℕ :=
  (treeRank + grpRoot) % 2 ^ 32 % grpSize

/-- `crt_grprank_2_tree_rank`. -/
def crtGrprank2TreeRank (grpSize grpRoot grpRank : ℕ) : ℕ :=
  (grpRank + grpSize - grpRoot) % 2 ^ 32 % grpSize

/-- `kary_get_children`: the ranks `self * ratio + i + 1`, the loop breaking at the first one
not below `size`. -/
def karyGetChildren (self size ratio : ℕ) : List ℕ :=
  ((List.range ratio).map fun i => (self * ratio + i + 1) % 2 ^ 32).takeWhile (· < size)

/-- The parent of a k-ary tree rank, as `crt_kary_get_parent` computes it. -/
def karyGetParent (self ratio : ℕ) : ℕ := (self - 1) / ratio

/-- `int_2_knomial_number`: the base-`ratio` digits of `x`, lowest first; `ndigits` is their
number, and the digits past them are the zeroed rest of the array. -/
def int2KnomialNumber (x ratio : ℕ) : List ℕ := Nat.digits ratio x

/-- `knomial_number_2_int`: the digits read back from the highest. No partial value exceeds the
result. -/
def knomialNumber2Int (digits : List ℕ) (ratio : ℕ) : ℕ :=
  digits.foldr (fun d index => index * ratio + d) 0

/-- The loop of `knomial_get_parent` that clears the lowest nonzero digit. -/
def knomialZeroLowest : List ℕ → List ℕ
  | [] => []
  | d :: ds => if d ≠ 0 then 0 :: ds else d :: knomialZeroLowest ds

/-- `knomial_get_parent`. -/
def knomialGetParent (self ratio : ℕ) : ℕ :=
  knomialNumber2Int (knomialZeroLowest (int2KnomialNumber self ratio)) ratio

/-- The children `knomial_get_children` tries, from digit `digit` on: `self + i * inc` for `i`
from 1 to `ratio - 1`, digit after digit while the digit of `self` is 0, `inc` growing by
`ratio` in 32 bits. -/
def knomialCandidates (self ratio : ℕ) (n : List ℕ) : ℕ → ℕ → ℕ → List ℕ
  | 0, _, _ => []
  | fuel + 1, digit, inc =>
    if digit < crtTreeMaxRatio ∧ (digit > n.length ∨ n.getD digit 0 = 0) then
      (List.range' 1 (ratio - 1)).map (fun i => (self + i * inc) % 2 ^ 32) ++
        knomialCandidates self ratio n fuel (digit + 1) (inc * ratio % 2 ^ 32)
    else []

/-- `knomial_get_children`: the loop returns at the first child not below `size`. -/
def knomialGetChildren (self size ratio : ℕ) : List ℕ :=
  (knomialCandidates self ratio (int2KnomialNumber self ratio) crtTreeMaxRatio 0 1).takeWhile
    (· < size)

/-! ## The operations of each topology, on indices of the rank list -/

/-- `to_get_children_cnt` of `crt_flat_ops`, `crt_kary_ops` and `crt_knomial_ops`. -/
def toGetChildrenCnt : CrtTreeType → ℕ → ℕ → ℕ → ℕ → ℕ
  | .flat, grpSize, _, grpRoot, grpSelf => if grpSelf = grpRoot then grpSize - 1 else 0
  | .kary, grpSize, ratio, grpRoot, grpSelf =>
    (karyGetChildren (crtGrprank2TreeRank grpSize grpRoot grpSelf) grpSize ratio).length
  | .knomial, grpSize, ratio, grpRoot, grpSelf =>
    (knomialGetChildren (crtGrprank2TreeRank grpSize grpRoot grpSelf) grpSize ratio).length

/-- `to_get_children` of the three topologies. -/
def toGetChildren : CrtTreeType → ℕ → ℕ → ℕ → ℕ → Except ℤ (List ℕ)
  | .flat, grpSize, _, grpRoot, grpSelf =>
    if grpSelf ≠ grpRoot then .error (-derInval)
    else .ok ((List.range grpSize).filter (· ≠ grpRoot))
  | .kary, grpSize, ratio, grpRoot, grpSelf =>
    .ok ((karyGetChildren (crtGrprank2TreeRank grpSize grpRoot grpSelf) grpSize ratio).map
      (crtTreerank2Grprank grpSize grpRoot))
  | .knomial, grpSize, ratio, grpRoot, grpSelf =>
    .ok ((knomialGetChildren (crtGrprank2TreeRank grpSize grpRoot grpSelf) grpSize ratio).map
      (crtTreerank2Grprank grpSize grpRoot))

/-- `to_get_parent` of the three topologies. -/
def toGetParent : CrtTreeType → ℕ → ℕ → ℕ → ℕ → Except ℤ ℕ
  | .flat, _, _, grpRoot, grpSelf => if grpSelf = grpRoot then .error (-derInval) else .ok grpRoot
  | .kary, grpSize, ratio, grpRoot, grpSelf =>
    if grpSelf = grpRoot then .error (-derInval)
    else .ok (crtTreerank2Grprank grpSize grpRoot
      (karyGetParent (crtGrprank2TreeRank grpSize grpRoot grpSelf) ratio))
  | .knomial, grpSize, ratio, grpRoot, grpSelf =>
    if grpSelf = grpRoot then .error (-derInval)
    else .ok (crtTreerank2Grprank grpSize grpRoot
      (knomialGetParent (crtGrprank2TreeRank grpSize grpRoot grpSelf) ratio))

/-! ## The group -/

/-- `d_rank_list_dup_sort_uniq`. -/
def dRankListDupSortUniq (membs : List ℕ) : List ℕ :=
  (membs.mergeSort fun a b => decide (a ≤ b)).destutter (· ≠ ·)

/-- `d_rank_list_filter(src_set, dst_set, exclude)`: the ranks of `dst_set` that are in `src_set`
(or not, when `exclude`) are removed. -/
def dRankListFilter (srcSet dstSet : List ℕ) (exclude : Bool) : List ℕ :=
  if srcSet = [] then dstSet else dstSet.filter fun rank => decide (rank ∈ srcSet) != exclude

/-- `d_idx_in_rank_list`. -/
def dIdxInRankList (rankList : List ℕ) (rank : ℕ) : Except ℤ ℕ :=
  if rank ∈ rankList then .ok (rankList.idxOf rank) else .error (-derNonexist)

/-- `crt_get_filtered_grp_rank_list`: the filtered rank list with the indices of the root and of
self, or `none` when the exclusion leaves no rank. -/
def crtGetFilteredGrpRankList (membs : List ℕ) (filterInvert : Bool) (filterRanks : List ℕ)
    (root self : ℕ) : Except ℤ (Option (List ℕ × ℕ × ℕ)) := do
  let grpRankList := dRankListDupSortUniq membs
  let filtered : Option (List ℕ) ←
    if filterInvert then
      let l := dRankListFilter filterRanks grpRankList false
      if l.length ≠ filterRanks.length then throw (-derOog) else pure (some l)
    else if filterRanks ≠ [] then
      let l := dRankListFilter filterRanks grpRankList true
      pure (if l = [] then none else some l)
    else pure (some grpRankList)
  match filtered with
  | none => pure none
  | some l =>
    let grpRoot ← dIdxInRankList l root
    let grpSelf ← dIdxInRankList l self
    pure (some (l, grpRoot, grpSelf))

/-- `crt_tree_get_children`: the ranks of the children, `[]` for no list. -/
def crtTreeGetChildren (membs : List ℕ) (filterInvert : Bool) (filterRanks : List ℕ)
    (topo : CrtTreeTopo) (root self : ℕ) : Except ℤ (List ℕ) := do
  match ← crtGetFilteredGrpRankList membs filterInvert filterRanks root self with
  | none => pure []
  | some (grpRankList, grpRoot, grpSelf) =>
    let nchildren := toGetChildrenCnt topo.type grpRankList.length topo.ratio grpRoot grpSelf
    if nchildren = 0 then pure []
    else
      let treeChildren ← toGetChildren topo.type grpRankList.length topo.ratio grpRoot grpSelf
      pure ((treeChildren.take nchildren).map fun i => grpRankList.getD i 0)

/-- `crt_tree_get_nchildren`. -/
def crtTreeGetNchildren (membs excludeRanks : List ℕ) (topo : CrtTreeTopo) (root self : ℕ) :
    Except ℤ ℕ := do
  match ← crtGetFilteredGrpRankList membs false excludeRanks root self with
  | none => throw (-derInval)
  | some (grpRankList, grpRoot, grpSelf) =>
    pure (toGetChildrenCnt topo.type grpRankList.length topo.ratio grpRoot grpSelf)

/-- `crt_tree_get_parent`. -/
def crtTreeGetParent (membs excludeRanks : List ℕ) (topo : CrtTreeTopo) (root self : ℕ) :
    Except ℤ ℕ := do
  match ← crtGetFilteredGrpRankList membs false excludeRanks root self with
  | none => throw (-derInval)
  | some (grpRankList, grpRoot, grpSelf) =>
    let treeParent ← toGetParent topo.type grpRankList.length topo.ratio grpRoot grpSelf
    pure (grpRankList.getD treeParent 0)

/-- The ranks a tree is built over: the membership sorted and de-duplicated, without the
excluded ranks. -/
def crtFilteredRanks (membs excludeRanks : List ℕ) : List ℕ :=
  dRankListFilter excludeRanks (dRankListDupSortUniq membs) true

instance : DecidablePred CrtTreeTopo.Valid := fun _ =>
  inferInstanceAs (Decidable (_ ∨ _))

/-! ## Increasing lists cut at a bound -/

section TakeWhile

variable {L : List ℕ} {size N x : ℕ}

/-- Cutting an increasing list at the first element not below `size` keeps exactly the
elements below `size`. -/
theorem mem_takeWhile_lt (hL : L.Pairwise (· < ·)) :
    x ∈ L.takeWhile (· < size) ↔ x ∈ L ∧ x < size := by
  induction L with
  | nil => simp
  | cons a L ih =>
    have hgt : ∀ y ∈ L, a < y := fun y hy => List.rel_of_pairwise_cons hL hy
    by_cases ha : a < size
    · simp only [List.takeWhile_cons, decide_eq_true ha, ↓reduceIte, List.mem_cons,
        ih hL.of_cons]
      constructor
      · rintro (rfl | ⟨hx, hxs⟩)
        · exact ⟨.inl rfl, ha⟩
        · exact ⟨.inr hx, hxs⟩
      · rintro ⟨rfl | hx, hxs⟩
        · exact .inl rfl
        · exact .inr ⟨hx, hxs⟩
    · simp only [List.takeWhile_cons, decide_eq_false ha, Bool.false_eq_true, ↓reduceIte,
        List.not_mem_nil, List.mem_cons, false_iff, not_and]
      rintro (rfl | hx) hxs
      · exact ha hxs
      · exact ha (Nat.lt_trans (hgt x hx) hxs)

/-- Reducing the elements modulo `N` does not change where an increasing list is cut at
`size` when every element from `N` on comes after one not below `size`. -/
theorem takeWhile_map_mod (hL : L.Pairwise (· < ·))
    (hwrap : ∀ c ∈ L, N ≤ c → ∃ p ∈ L, p < c ∧ size ≤ p) :
    (L.map (· % N)).takeWhile (· < size) = L.takeWhile (· < size) := by
  induction L with
  | nil => rfl
  | cons a L ih =>
    have hgt : ∀ y ∈ L, a < y := fun y hy => List.rel_of_pairwise_cons hL hy
    -- the head is below `N`: nothing in the list comes before it
    have haN : a < N := by
      by_contra hge
      obtain ⟨p, hp, hpa, -⟩ := hwrap a List.mem_cons_self (Nat.le_of_not_lt hge)
      rcases List.mem_cons.mp hp with rfl | hp
      · exact Nat.lt_irrefl _ hpa
      · exact Nat.lt_asymm hpa (hgt p hp)
    rw [List.map_cons, Nat.mod_eq_of_lt haN, List.takeWhile_cons, List.takeWhile_cons]
    by_cases ha : a < size
    · simp only [decide_eq_true ha, ↓reduceIte, List.cons.injEq, true_and]
      refine ih hL.of_cons fun c hc hNc => ?_
      obtain ⟨p, hp, hpc, hsp⟩ := hwrap c (List.mem_cons_of_mem _ hc) hNc
      rcases List.mem_cons.mp hp with rfl | hp
      · exact absurd hsp (Nat.not_le_of_lt ha)
      · exact ⟨p, hp, hpc, hsp⟩
    · simp only [decide_eq_false ha, Bool.false_eq_true, ↓reduceIte]

/-- The digits a prefix of `[s, s + n)` keeps are those up to which the predicate holds. -/
theorem mem_takeWhile_range' {p : ℕ → Bool} {s n d : ℕ} :
    d ∈ (List.range' s n).takeWhile p ↔
      s ≤ d ∧ d < s + n ∧ ∀ d', s ≤ d' → d' ≤ d → p d' = true := by
  induction n generalizing s with
  | zero =>
    simp only [List.range'_zero, List.takeWhile_nil, List.not_mem_nil, false_iff, not_and]
    intro h1 h2
    omega
  | succ n ih =>
    rw [List.range'_succ, List.takeWhile_cons]
    by_cases hs : p s = true
    · simp only [hs, ↓reduceIte, List.mem_cons, ih]
      constructor
      · rintro (rfl | ⟨h1, h2, h3⟩)
        · refine ⟨le_rfl, by omega, fun d' h1' h2' => ?_⟩
          rwa [Nat.le_antisymm h2' h1']
        · refine ⟨by omega, by omega, fun d' h1' h2' => ?_⟩
          rcases Nat.eq_or_lt_of_le h1' with rfl | hlt
          · exact hs
          · exact h3 d' hlt h2'
      · rintro ⟨h1, h2, h3⟩
        rcases Nat.eq_or_lt_of_le h1 with rfl | hlt
        · exact .inl rfl
        · exact .inr ⟨hlt, by omega, fun d' h1' h2' => h3 d' (by omega) h2'⟩
    · simp only [hs, Bool.false_eq_true, ↓reduceIte, List.not_mem_nil, false_iff, not_and]
      intro h1 _ h3
      exact hs (h3 s le_rfl h1)

end TakeWhile

/-! ## k-ary trees -/

section Kary

variable {t c size ratio : ℕ}

/-- Below the bound no child rank wraps. -/
theorem karyGetChildren_eq (ht : t < size) (hbound : size * ratio < 2 ^ 32) :
    karyGetChildren t size ratio =
      ((List.range ratio).map fun i => t * ratio + i + 1).takeWhile (· < size) := by
  have hle : (t + 1) * ratio ≤ size * ratio := Nat.mul_le_mul_right ratio ht
  rw [Nat.succ_mul] at hle
  unfold karyGetChildren
  congr 1
  refine List.map_congr_left fun i hi => Nat.mod_eq_of_lt ?_
  have := List.mem_range.mp hi
  omega

/-- The child ranks in order are increasing. -/
theorem karyRanks_pairwise :
    ((List.range ratio).map fun i => t * ratio + i + 1).Pairwise (· < ·) := by
  rw [List.pairwise_map]
  exact List.pairwise_lt_range.imp fun h => by omega

/-- `c` is among the ranks `t * ratio + i + 1` exactly when `(c - 1) / ratio = t`. -/
theorem mem_karyRanks (hratio : 0 < ratio) :
    c ∈ (List.range ratio).map (fun i => t * ratio + i + 1) ↔ 0 < c ∧ karyGetParent c ratio = t := by
  simp only [List.mem_map, List.mem_range, karyGetParent]
  constructor
  · rintro ⟨i, hi, rfl⟩
    refine ⟨by omega, ?_⟩
    rw [show t * ratio + i + 1 - 1 = i + t * ratio by omega, Nat.add_mul_div_right _ _ hratio,
      Nat.div_eq_of_lt hi, Nat.zero_add]
  · rintro ⟨hc, rfl⟩
    refine ⟨(c - 1) % ratio, Nat.mod_lt _ hratio, ?_⟩
    have := Nat.div_add_mod' (c - 1) ratio
    omega

/-- The children of a k-ary tree rank are the ranks below `size` whose parent it is. -/
theorem mem_karyGetChildren (ht : t < size) (hbound : size * ratio < 2 ^ 32)
    (hratio : 0 < ratio) :
    c ∈ karyGetChildren t size ratio ↔ 0 < c ∧ c < size ∧ karyGetParent c ratio = t := by
  rw [karyGetChildren_eq ht hbound, mem_takeWhile_lt karyRanks_pairwise, mem_karyRanks hratio]
  tauto

/-- The parent of a nonzero rank comes before it. -/
theorem karyGetParent_lt (hc : 0 < c) : karyGetParent c ratio < c :=
  Nat.lt_of_le_of_lt (Nat.div_le_self _ _) (Nat.sub_lt hc Nat.one_pos)

/-- The k-ary tree over the tree ranks `[0, size)`, rooted at 0. -/
theorem karyTree (hsize : 0 < size) (hratio : 0 < ratio) (hbound : size * ratio < 2 ^ 32) :
    ParentTree (· < size) 0 (fun t => karyGetChildren t size ratio)
      (fun c => karyGetParent c ratio) := by
  refine .of_measure id hsize (fun t ht => ?_) (fun t ht c hc => ?_) (fun c hc hne => ?_)
    (fun c _ hne => karyGetParent_lt (Nat.pos_of_ne_zero hne))
  · rw [karyGetChildren_eq ht hbound]
    exact (karyRanks_pairwise.sublist (List.takeWhile_sublist _)).imp Nat.ne_of_lt
  · obtain ⟨hc0, hcs, hpar⟩ := (mem_karyGetChildren ht hbound hratio).mp hc
    exact ⟨hcs, Nat.ne_of_gt hc0, hpar⟩
  · have hlt : karyGetParent c ratio < c := karyGetParent_lt (Nat.pos_of_ne_zero hne)
    have hps : karyGetParent c ratio < size := Nat.lt_trans hlt hc
    exact ⟨hps, (mem_karyGetChildren hps hbound hratio).mpr ⟨Nat.pos_of_ne_zero hne, hc, rfl⟩⟩

end Kary

/-! ## k-nomial numbers -/

section KnomialParent

variable {b c d q i : ℕ}

/-- `knomial_number_2_int` reads the digits back. -/
theorem knomialNumber2Int_eq (ds : List ℕ) : knomialNumber2Int ds b = Nat.ofDigits b ds := by
  induction ds with
  | nil => rfl
  | cons e ds ih =>
    simp only [knomialNumber2Int, List.foldr_cons, Nat.ofDigits_cons] at ih ⊢
    rw [ih, Nat.mul_comm, Nat.add_comm]

/-- The parent of a multiple of `b` is `b` times the parent of its quotient: the lowest digit
is 0 and the loop goes on past it. -/
theorem knomialGetParent_mul (hb : 2 ≤ b) (hc : 0 < c) :
    knomialGetParent (b * c) b = b * knomialGetParent c b := by
  have hdig : Nat.digits b (b * c) = 0 :: Nat.digits b c := by
    rw [Nat.digits_def' (by omega) (Nat.mul_pos (by omega) hc), Nat.mul_mod_right,
      Nat.mul_div_cancel_left _ (by omega)]
  simp only [knomialGetParent, int2KnomialNumber, knomialNumber2Int_eq, hdig,
    knomialZeroLowest, ne_eq, not_true_eq_false, ↓reduceIte, Nat.ofDigits_cons, Nat.zero_add]

/-- Clearing a lowest digit `i` at weight `b^d`: the parent of `b^(d+1) * q + i * b^d` is
`b^(d+1) * q`. Induction on the weight. -/
theorem knomialGetParent_child (hb : 2 ≤ b) (hi : 0 < i) (hib : i < b) :
    knomialGetParent (b ^ (d + 1) * q + i * b ^ d) b = b ^ (d + 1) * q := by
  induction d generalizing q with
  | zero =>
    -- the lowest digit is `i` itself
    have hdig : Nat.digits b (b * q + i) = i :: Nat.digits b q := by
      rw [Nat.digits_def' (by omega) (by omega), Nat.mul_add_mod, Nat.mod_eq_of_lt hib,
        Nat.mul_add_div (by omega), Nat.div_eq_of_lt hib, Nat.add_zero]
    simp only [Nat.zero_add, Nat.pow_one, Nat.pow_zero, Nat.mul_one]
    simp only [knomialGetParent, int2KnomialNumber, knomialNumber2Int_eq, hdig,
      knomialZeroLowest, ne_eq, Nat.ne_of_gt hi, not_false_eq_true, ↓reduceIte,
      Nat.ofDigits_cons, Nat.zero_add, Nat.ofDigits_digits]
  | succ d ih =>
    have hsplit : b ^ (d + 1 + 1) * q + i * b ^ (d + 1) = b * (b ^ (d + 1) * q + i * b ^ d) := by
      rw [Nat.pow_succ b (d + 1), Nat.pow_succ b d]
      ring
    have hpos : 0 < b ^ (d + 1) * q + i * b ^ d :=
      Nat.lt_of_lt_of_le (Nat.mul_pos hi (Nat.pow_pos (n := d) (by omega))) (Nat.le_add_left _ _)
    rw [hsplit, knomialGetParent_mul hb hpos, ih, Nat.pow_succ b (d + 1)]
    ring

/-- Every positive rank is a parent `b^(d+1) * q` plus a lowest digit `i` at weight `b^d`.
Strong induction, dividing by `b` while the lowest digit is 0. -/
theorem exists_knomial_split (hb : 2 ≤ b) (hc : 0 < c) :
    ∃ d q i, 0 < i ∧ i < b ∧ c = b ^ (d + 1) * q + i * b ^ d := by
  induction c using Nat.strong_induction_on with
  | _ c ih =>
    by_cases hmod : c % b = 0
    · -- `c = b * (c / b)` and the quotient splits
      have hq : 0 < c / b := Nat.div_pos (Nat.le_of_dvd hc (Nat.dvd_of_mod_eq_zero hmod)) (by omega)
      obtain ⟨d, q, i, hi, hib, hsplit⟩ := ih (c / b) (Nat.div_lt_self hc (by omega)) hq
      refine ⟨d + 1, q, i, hi, hib, ?_⟩
      have hc' : c = b * (c / b) := (Nat.mul_div_cancel' (Nat.dvd_of_mod_eq_zero hmod)).symm
      rw [hc', hsplit, Nat.pow_succ b (d + 1), Nat.pow_succ b d]
      ring
    · refine ⟨0, c / b, c % b, Nat.pos_of_ne_zero hmod, Nat.mod_lt _ (by omega), ?_⟩
      rw [Nat.zero_add, Nat.pow_one, Nat.pow_zero, Nat.mul_one]
      exact (Nat.div_add_mod c b).symm

/-- The parent of a positive k-nomial rank is below it. -/
theorem knomialGetParent_lt (hb : 2 ≤ b) (hc : 0 < c) : knomialGetParent c b < c := by
  obtain ⟨d, q, i, hi, hib, rfl⟩ := exists_knomial_split hb hc
  rw [knomialGetParent_child hb hi hib]
  exact Nat.lt_add_of_pos_right (Nat.mul_pos hi (Nat.pow_pos (n := d) (by omega)))

end KnomialParent

/-! ## k-nomial children -/

/-- The digits whose children `knomial_get_children` tries: from 0 on while the loop's
condition holds. -/
def knomialChildDigits (self ratio : ℕ) : List ℕ :=
  (List.range' 0 crtTreeMaxRatio).takeWhile fun d =>
    decide (d < crtTreeMaxRatio ∧ (d > (int2KnomialNumber self ratio).length ∨
      (int2KnomialNumber self ratio).getD d 0 = 0))

/-- The children tried for digit `d`, `self + i * ratio^d` for `i` from 1 to `ratio - 1`. -/
def knomialDigitChildren (self ratio d : ℕ) : List ℕ :=
  (List.range' 1 (ratio - 1)).map fun i => self + i * ratio ^ d

section KnomialChildren

variable {b t c d size : ℕ}

/-- The candidate loop computes, in 32 bits, the children of the digits it goes through. -/
theorem knomialCandidates_eq (fuel digit : ℕ) :
    knomialCandidates t b (int2KnomialNumber t b) fuel digit (b ^ digit % 2 ^ 32) =
      (((List.range' digit fuel).takeWhile fun d =>
        decide (d < crtTreeMaxRatio ∧ (d > (int2KnomialNumber t b).length ∨
          (int2KnomialNumber t b).getD d 0 = 0))).flatMap (knomialDigitChildren t b)).map
        (· % 2 ^ 32) := by
  induction fuel generalizing digit with
  | zero => rfl
  | succ fuel ih =>
    have hinc : b ^ digit % 2 ^ 32 * b % 2 ^ 32 = b ^ (digit + 1) % 2 ^ 32 := by
      rw [Nat.mod_mul_mod, ← Nat.pow_succ]
    rw [List.range'_succ, List.takeWhile_cons]
    simp only [knomialCandidates]
    split_ifs with hcond hdec hdec
    · rw [hinc, ih, List.flatMap_cons, List.map_append, knomialDigitChildren, List.map_map]
      congr 1
      refine List.map_congr_left fun i _ => ?_
      simp only [Function.comp, Nat.add_mod, Nat.mul_mod, Nat.mod_mod]
    · exact absurd (decide_eq_true hcond) hdec
    · exact absurd (of_decide_eq_true hdec) hcond
    · rfl

/-- A rank is divisible by `b^(d+1)` when its digits up to `d` are all 0. -/
theorem pow_succ_dvd_iff (hb : 2 ≤ b) :
    b ^ (d + 1) ∣ t ↔ ∀ d' ≤ d, t / b ^ d' % b = 0 := by
  induction d with
  | zero =>
    simp only [Nat.zero_add, Nat.pow_one, Nat.le_zero, forall_eq, Nat.pow_zero, Nat.div_one]
    exact Nat.dvd_iff_mod_eq_zero
  | succ d ih =>
    have hsplit := @Nat.mod_pow_succ t b (d + 1)
    have hpos : 0 < b ^ (d + 1) := Nat.pow_pos (by omega)
    rw [Nat.dvd_iff_mod_eq_zero, hsplit]
    constructor
    · intro h d' hd'
      rcases Nat.lt_or_eq_of_le hd' with hlt | rfl
      · exact (ih.mp (Nat.dvd_iff_mod_eq_zero.mpr (by omega))) d' (by omega)
      · by_contra hne
        have : 0 < b ^ (d + 1) * (t / b ^ (d + 1) % b) :=
          Nat.mul_pos hpos (Nat.pos_of_ne_zero hne)
        omega
    · intro h
      have hlow := Nat.dvd_iff_mod_eq_zero.mp (ih.mpr fun d' hd' => h d' (by omega))
      rw [hlow, h (d + 1) le_rfl, Nat.mul_zero]

/-- The loop goes through the digits `d < 64` with `b^(d+1)` dividing the rank. -/
theorem mem_knomialChildDigits (hb : 2 ≤ b) :
    d ∈ knomialChildDigits t b ↔ d < crtTreeMaxRatio ∧ b ^ (d + 1) ∣ t := by
  -- the loop's digit test is the digit of `t`, past the last digit too
  have hdigit : ∀ d', (d' > (int2KnomialNumber t b).length ∨
      (int2KnomialNumber t b).getD d' 0 = 0) ↔ t / b ^ d' % b = 0 := by
    intro d'
    rw [int2KnomialNumber, Nat.getD_digits _ _ hb]
    constructor
    · rintro (hlen | h)
      · rw [← Nat.getD_digits _ _ hb, List.getD_eq_getElem?_getD, List.getElem?_eq_none (by omega),
          Option.getD_none]
      · exact h
    · exact .inr
  rw [knomialChildDigits, mem_takeWhile_range', pow_succ_dvd_iff hb]
  simp only [decide_eq_true_eq, hdigit, Nat.zero_add, Nat.zero_le, true_implies]
  constructor
  · rintro ⟨-, hd, h⟩
    exact ⟨hd, fun d' hd' => (h d' hd').2⟩
  · rintro ⟨hd, h⟩
    exact ⟨trivial, hd, fun d' hd' => ⟨by omega, h d' hd'⟩⟩

/-- The candidate children, in the order tried. -/
theorem mem_knomialCandidateList (hb : 2 ≤ b) :
    c ∈ (knomialChildDigits t b).flatMap (knomialDigitChildren t b) ↔
      ∃ d, (d < crtTreeMaxRatio ∧ b ^ (d + 1) ∣ t) ∧ ∃ i, 0 < i ∧ i < b ∧ c = t + i * b ^ d := by
  simp only [List.mem_flatMap, mem_knomialChildDigits hb, knomialDigitChildren, List.mem_map,
    List.mem_range'_1]
  constructor
  · rintro ⟨d, hd, i, ⟨hi, hib⟩, rfl⟩
    exact ⟨d, hd, i, by omega, by omega, rfl⟩
  · rintro ⟨d, hd, i, hi, hib, rfl⟩
    exact ⟨d, hd, i, ⟨by omega, by omega⟩, rfl⟩

/-- The candidate children increase: within a digit with `i`, and from one digit to the next
since `i * b^d < b^(d+1)`. -/
theorem knomialCandidateList_pairwise (hb : 2 ≤ b) :
    ((knomialChildDigits t b).flatMap (knomialDigitChildren t b)).Pairwise (· < ·) := by
  have hpow : ∀ d, 0 < b ^ d := fun d => Nat.pow_pos (by omega)
  rw [List.pairwise_flatMap]
  refine ⟨fun d _ => ?_, ?_⟩
  · rw [knomialDigitChildren, List.pairwise_map]
    refine (List.pairwise_lt_range' 1).imp fun {i j} hij => ?_
    have := Nat.mul_lt_mul_of_pos_right hij (hpow d)
    omega
  · have hdl : (knomialChildDigits t b).Pairwise (· < ·) :=
      (List.pairwise_lt_range' 1).sublist (List.takeWhile_sublist _)
    refine hdl.imp fun {d e} hde x hx y hy => ?_
    simp only [knomialDigitChildren, List.mem_map, List.mem_range'_1] at hx hy
    obtain ⟨i, ⟨-, hib⟩, rfl⟩ := hx
    obtain ⟨j, ⟨hj, -⟩, rfl⟩ := hy
    have h1 : i * b ^ d < b ^ (d + 1) := by
      rw [Nat.pow_succ, Nat.mul_comm (b ^ d) b]
      exact Nat.mul_lt_mul_of_pos_right (by omega) (hpow d)
    have h2 : b ^ (d + 1) ≤ b ^ e := Nat.pow_le_pow_right (by omega) hde
    have h3 : b ^ e ≤ j * b ^ e := Nat.le_mul_of_pos_left _ (by omega)
    omega

/-- A candidate from `2^32` on comes after one not below `size`: each candidate is at most twice
the one tried before it, and the first is `t + 1 ≤ size`. -/
theorem knomialCandidateList_wrap (hb : 2 ≤ b) (ht : t < size) (h2 : 2 * size ≤ 2 ^ 32)
    (hc : c ∈ (knomialChildDigits t b).flatMap (knomialDigitChildren t b)) (hcN : 2 ^ 32 ≤ c) :
    ∃ p ∈ (knomialChildDigits t b).flatMap (knomialDigitChildren t b), p < c ∧ size ≤ p := by
  obtain ⟨d, ⟨hd, hdvd⟩, i, hi, hib, rfl⟩ := (mem_knomialCandidateList hb).mp hc
  -- the candidate tried before, and `c ≤ 2 * p`
  obtain ⟨p, hp, hpc, h2p⟩ : ∃ p ∈ (knomialChildDigits t b).flatMap (knomialDigitChildren t b),
      p < t + i * b ^ d ∧ t + i * b ^ d ≤ 2 * p := by
    rcases Nat.lt_or_ge 1 i with hi2 | hi1
    · -- the same digit, `i - 1`
      refine ⟨t + (i - 1) * b ^ d, (mem_knomialCandidateList hb).mpr
        ⟨d, ⟨hd, hdvd⟩, i - 1, by omega, by omega, rfl⟩, ?_, ?_⟩
      · have := Nat.mul_lt_mul_of_pos_right (show i - 1 < i by omega) (Nat.pow_pos (n := d)
          (show 0 < b by omega))
        omega
      · have hsplit : i * b ^ d = (i - 1) * b ^ d + b ^ d := by
          rw [← Nat.succ_mul, Nat.succ_eq_add_one, Nat.sub_add_cancel (by omega)]
        have := Nat.le_mul_of_pos_left (b ^ d) (show 0 < i - 1 by omega)
        omega
    · obtain ⟨d', rfl⟩ : ∃ d', d = d' + 1 := by
        rcases d with _ | d'
        · -- the first candidate, `t + 1`, is not from `2^32` on
          rw [Nat.pow_zero, Nat.mul_one] at hcN
          omega
        · exact ⟨d', rfl⟩
      -- the previous digit, `b - 1`
      refine ⟨t + (b - 1) * b ^ d', (mem_knomialCandidateList hb).mpr
        ⟨d', ⟨by omega, Nat.dvd_trans (Nat.pow_dvd_pow b (by omega)) hdvd⟩, b - 1, by omega,
          by omega, rfl⟩, ?_, ?_⟩ <;>
      · have hpow : b ^ (d' + 1) = (b - 1) * b ^ d' + b ^ d' := by
          rw [Nat.pow_succ, ← Nat.succ_mul, Nat.succ_eq_add_one, Nat.sub_add_cancel (by omega),
            Nat.mul_comm]
        have hle := Nat.le_mul_of_pos_left (b ^ d') (show 0 < b - 1 by omega)
        have hpos : 0 < b ^ d' := Nat.pow_pos (by omega)
        have hi' : i = 1 := by omega
        subst hi'
        omega
  refine ⟨p, hp, hpc, ?_⟩
  by_contra hps
  omega

/-- Below the bound `knomial_get_children` is the candidate list cut at `size`: no child it
computes wraps. -/
theorem knomialGetChildren_eq (hb : 2 ≤ b) (ht : t < size) (h2 : 2 * size ≤ 2 ^ 32) :
    knomialGetChildren t size b =
      ((knomialChildDigits t b).flatMap (knomialDigitChildren t b)).takeWhile (· < size) := by
  have hloop := knomialCandidates_eq (t := t) (b := b) crtTreeMaxRatio 0
  rw [Nat.pow_zero, Nat.one_mod_eq_one.mpr (by decide)] at hloop
  rw [knomialGetChildren, hloop]
  exact takeWhile_map_mod (knomialCandidateList_pairwise hb)
    fun c hc hcN => knomialCandidateList_wrap hb ht h2 hc hcN

/-- The children of a k-nomial tree rank `t` are the ranks `t + i * b^d` below `size` with
`b^(d+1)` dividing `t`. -/
theorem mem_knomialGetChildren (hb : 2 ≤ b) (ht : t < size) (h2 : 2 * size ≤ 2 ^ 32) :
    c ∈ knomialGetChildren t size b ↔ c < size ∧
      ∃ d, (d < crtTreeMaxRatio ∧ b ^ (d + 1) ∣ t) ∧ ∃ i, 0 < i ∧ i < b ∧ c = t + i * b ^ d := by
  rw [knomialGetChildren_eq hb ht h2, mem_takeWhile_lt (knomialCandidateList_pairwise hb),
    mem_knomialCandidateList hb, and_comm]

/-- The k-nomial tree over the tree ranks `[0, size)`, rooted at 0. -/
theorem knomialTree (hb : 2 ≤ b) (hsize : 0 < size) (h2 : 2 * size ≤ 2 ^ 32) :
    ParentTree (· < size) 0 (fun t => knomialGetChildren t size b)
      (fun c => knomialGetParent c b) := by
  refine .of_measure id hsize (fun t ht => ?_) (fun t ht c hc => ?_) (fun c hc hne => ?_)
    (fun c _ hne => knomialGetParent_lt hb (Nat.pos_of_ne_zero hne))
  · rw [knomialGetChildren_eq hb ht h2]
    exact ((knomialCandidateList_pairwise hb).sublist (List.takeWhile_sublist _)).imp
      Nat.ne_of_lt
  · obtain ⟨hcs, d, ⟨-, q, rfl⟩, i, hi, hib, rfl⟩ := (mem_knomialGetChildren hb ht h2).mp hc
    refine ⟨hcs, Nat.ne_of_gt (Nat.lt_of_lt_of_le (Nat.mul_pos hi (Nat.pow_pos (by omega)))
      (Nat.le_add_left _ _)), knomialGetParent_child hb hi hib⟩
  · obtain ⟨d, q, i, hi, hib, rfl⟩ := exists_knomial_split hb (Nat.pos_of_ne_zero hne)
    have hpar := knomialGetParent_child (d := d) (q := q) hb hi hib
    have hlt := knomialGetParent_lt hb (Nat.pos_of_ne_zero hne)
    rw [hpar] at hlt ⊢
    refine ⟨Nat.lt_trans hlt hc, (mem_knomialGetChildren hb (Nat.lt_trans hlt hc) h2).mpr
      ⟨hc, d, ⟨?_, ⟨q, rfl⟩⟩, i, hi, hib, rfl⟩⟩
    -- `b^d ≤ c < 2^32` bounds the digit
    have h1 : 2 ^ d ≤ b ^ d := Nat.pow_le_pow_left hb d
    have h2' : b ^ d ≤ i * b ^ d := Nat.le_mul_of_pos_left _ hi
    have h3 : 2 ^ d < 2 ^ 32 := by omega
    have := (Nat.pow_lt_pow_iff_right (by decide)).mp h3
    unfold crtTreeMaxRatio
    omega

end KnomialChildren

/-! ## Rotating the tree to the root -/

section Rotation

variable {size root t x : ℕ}

/-- Below `2 * n` a remainder by `n` takes at most one subtraction. -/
theorem mod_of_lt_two_mul {a n : ℕ} (h : a < 2 * n) : a % n = if a < n then a else a - n := by
  split_ifs with han
  · exact Nat.mod_eq_of_lt han
  · rw [Nat.mod_eq_sub_mod (Nat.le_of_not_lt han), Nat.mod_eq_of_lt (by omega)]

/-- With `2 * size ≤ 2^32` the sum `crt_treerank_2_grprank` takes does not wrap. -/
theorem crtTreerank2Grprank_eq (hroot : root < size) (h2 : 2 * size ≤ 2 ^ 32) (ht : t < size) :
    crtTreerank2Grprank size root t = if t + root < size then t + root else t + root - size := by
  have hw : (t + root) % 2 ^ 32 = t + root := Nat.mod_eq_of_lt (by omega)
  rw [crtTreerank2Grprank, hw, mod_of_lt_two_mul (by omega)]

/-- With `2 * size ≤ 2^32` the sum `crt_grprank_2_tree_rank` takes does not wrap. -/
theorem crtGrprank2TreeRank_eq (hroot : root < size) (h2 : 2 * size ≤ 2 ^ 32) (hx : x < size) :
    crtGrprank2TreeRank size root x = if root ≤ x then x - root else x + size - root := by
  have hw : (x + size - root) % 2 ^ 32 = x + size - root := Nat.mod_eq_of_lt (by omega)
  rw [crtGrprank2TreeRank, hw, mod_of_lt_two_mul (by omega)]
  split_ifs <;> omega

theorem crtGrprank2TreeRank_lt (hsize : 0 < size) : crtGrprank2TreeRank size root x < size :=
  Nat.mod_lt _ hsize

theorem crtTreerank2Grprank_lt (hsize : 0 < size) : crtTreerank2Grprank size root t < size :=
  Nat.mod_lt _ hsize

/-- Tree rank 0 is the root. -/
theorem crtTreerank2Grprank_zero (hroot : root < size) (h2 : 2 * size ≤ 2 ^ 32) :
    crtTreerank2Grprank size root 0 = root := by
  rw [crtTreerank2Grprank_eq hroot h2 (by omega), if_pos (by omega), Nat.zero_add]

/-- `crt_grprank_2_tree_rank` undoes `crt_treerank_2_grprank`. -/
theorem crtGrprank2TreeRank_treerank (hroot : root < size) (h2 : 2 * size ≤ 2 ^ 32)
    (ht : t < size) : crtGrprank2TreeRank size root (crtTreerank2Grprank size root t) = t := by
  rw [crtTreerank2Grprank_eq hroot h2 ht]
  split_ifs with hwrap
  · rw [crtGrprank2TreeRank_eq hroot h2 hwrap, if_pos (by omega)]
    omega
  · rw [crtGrprank2TreeRank_eq hroot h2 (by omega), if_neg (by omega)]
    omega

/-- `crt_treerank_2_grprank` undoes `crt_grprank_2_tree_rank`. -/
theorem crtTreerank2Grprank_grprank (hroot : root < size) (h2 : 2 * size ≤ 2 ^ 32)
    (hx : x < size) : crtTreerank2Grprank size root (crtGrprank2TreeRank size root x) = x := by
  rw [crtGrprank2TreeRank_eq hroot h2 hx]
  split_ifs with hle
  · rw [crtTreerank2Grprank_eq hroot h2 (by omega), if_pos (by omega)]
    omega
  · rw [crtTreerank2Grprank_eq hroot h2 (by omega), if_neg (by omega)]
    omega

/-- A tree over the tree ranks, rotated to a root: its children and parents are read through
the two translations, as `to_get_children` and `to_get_parent` do. -/
theorem rotatedTree {ch : ℕ → List ℕ} {par : ℕ → ℕ} (t : ParentTree (· < size) 0 ch par)
    (hroot : root < size) (h2 : 2 * size ≤ 2 ^ 32) :
    ParentTree (· < size) root
      (fun x => (ch (crtGrprank2TreeRank size root x)).map (crtTreerank2Grprank size root))
      (fun x => crtTreerank2Grprank size root (par (crtGrprank2TreeRank size root x))) := by
  have hrel := t.relabel (crtTreerank2Grprank size root) (crtGrprank2TreeRank size root)
    fun a ha => crtGrprank2TreeRank_treerank hroot h2 ha
  rw [crtTreerank2Grprank_zero hroot h2] at hrel
  refine hrel.congr (fun x => ⟨?_, fun hx => ?_⟩) (fun _ _ => rfl) (fun _ _ _ => rfl)
  · rintro ⟨a, -, rfl⟩
    exact crtTreerank2Grprank_lt (by omega)
  · exact ⟨_, crtGrprank2TreeRank_lt (by omega), crtTreerank2Grprank_grprank hroot h2 hx⟩

end Rotation

/-! ## The tree over the indices of the rank list -/

/-- The indices `to_get_children` returns, `[]` for its error. -/
def indexChildren (type : CrtTreeType) (size ratio root self : ℕ) : List ℕ :=
  (toGetChildren type size ratio root self).toOption.getD []

/-- The index `to_get_parent` returns; the root stands for its error. -/
def indexParent (type : CrtTreeType) (size ratio root self : ℕ) : ℕ :=
  (toGetParent type size ratio root self).toOption.getD root

section Index

variable {type : CrtTreeType} {size ratio root self : ℕ}

/-- Only the root has children in a flat tree: all the other indices. -/
theorem mem_indexChildren_flat {c : ℕ} :
    c ∈ indexChildren .flat size ratio root self ↔ self = root ∧ c < size ∧ c ≠ root := by
  unfold indexChildren toGetChildren
  by_cases hs : self = root
  · simp [hs, Except.toOption]
  · simp [hs, Except.toOption]

theorem indexParent_flat (c : ℕ) : indexParent .flat size ratio root c = root := by
  unfold indexParent
  by_cases hc : c = root <;> simp [toGetParent, hc, Except.toOption]

/-- The flat tree: the root lists every other index. -/
theorem flatTree (hroot : root < size) :
    ParentTree (· < size) root (indexChildren .flat size ratio root)
      (indexParent .flat size ratio root) := by
  refine .of_measure (fun c => if c = root then 0 else 1) hroot (fun s _ => ?_)
    (fun s _ c hc => ?_) (fun c hc hne => ?_) (fun c _ hne => ?_)
  · unfold indexChildren
    by_cases hs : s = root
    · simp only [toGetChildren, hs, ne_eq, not_true_eq_false, ↓reduceIte, Except.toOption,
        Option.getD_some]
      exact List.nodup_range.filter _
    · simp [toGetChildren, hs, Except.toOption]
  · obtain ⟨rfl, hcs, hcr⟩ := mem_indexChildren_flat.mp hc
    exact ⟨hcs, hcr, indexParent_flat c⟩
  · rw [indexParent_flat]
    exact ⟨hroot, mem_indexChildren_flat.mpr ⟨rfl, hc, hne⟩⟩
  · simp only [indexParent_flat, if_true, hne, if_false, Nat.zero_lt_one]

/-- For every valid topology, the indices and the operations of the topology form a tree
rooted at the root's index. -/
theorem indexTree (hvalid : CrtTreeTopo.Valid ⟨type, ratio⟩) (hroot : root < size)
    (hbound : size * ratio < 2 ^ 32) :
    ParentTree (· < size) root (indexChildren type size ratio root)
      (indexParent type size ratio root) := by
  cases type with
  | flat => exact flatTree hroot
  | kary =>
    have hratio : crtTreeMinRatio ≤ ratio := (hvalid.resolve_left nofun).1
    have h2 : 2 * size ≤ 2 ^ 32 := by
      have := Nat.mul_le_mul_left size hratio
      unfold crtTreeMinRatio at this
      omega
    refine (rotatedTree (karyTree (by omega) (by unfold crtTreeMinRatio at hratio; omega) hbound)
      hroot h2).congr (fun _ => Iff.rfl) (fun _ _ => rfl) (fun c _ hne => ?_)
    simp only [indexParent, toGetParent, if_neg hne]
    rfl
  | knomial =>
    have hratio : crtTreeMinRatio ≤ ratio := (hvalid.resolve_left nofun).1
    have h2 : 2 * size ≤ 2 ^ 32 := by
      have := Nat.mul_le_mul_left size hratio
      unfold crtTreeMinRatio at this
      omega
    refine (rotatedTree (knomialTree hratio (by omega) h2) hroot h2).congr (fun _ => Iff.rfl)
      (fun _ _ => rfl) (fun c _ hne => ?_)
    simp only [indexParent, toGetParent, if_neg hne]
    rfl

/-- `to_get_children_cnt` counts the children `to_get_children` lists. -/
theorem toGetChildrenCnt_eq (hroot : root < size) :
    toGetChildrenCnt type size ratio root self = (indexChildren type size ratio root self).length := by
  cases type with
  | flat =>
    unfold toGetChildrenCnt indexChildren toGetChildren
    by_cases hs : self = root
    · have herase : (List.range size).filter (· ≠ root) = (List.range size).erase root := by
        rw [List.nodup_range.erase_eq_filter]
        congr 1
        funext x
        by_cases hx : x = root <;> simp [hx]
      simp only [hs, ↓reduceIte, ne_eq, not_true_eq_false, Except.toOption, Option.getD_some]
      rw [herase, List.length_erase_of_mem (List.mem_range.mpr hroot), List.length_range]
    · simp [hs, Except.toOption]
  | kary => simp [toGetChildrenCnt, indexChildren, toGetChildren, Except.toOption]
  | knomial => simp [toGetChildrenCnt, indexChildren, toGetChildren, Except.toOption]

/-- When it counts children, `to_get_children` lists them without an error. -/
theorem toGetChildren_of_cnt (h : toGetChildrenCnt type size ratio root self ≠ 0) :
    toGetChildren type size ratio root self = .ok (indexChildren type size ratio root self) := by
  cases type with
  | flat =>
    have hs : self = root := by
      by_contra hs
      exact h (by simp [toGetChildrenCnt, hs])
    simp [indexChildren, toGetChildren, hs, Except.toOption]
  | kary => rfl
  | knomial => rfl

/-- Every index but the root's has a parent. -/
theorem toGetParent_of_ne (h : self ≠ root) :
    toGetParent type size ratio root self = .ok (indexParent type size ratio root self) := by
  cases type <;> simp [indexParent, toGetParent, h, Except.toOption]

end Index

/-! ## The group -/

section Group

variable {membs excl : List ℕ} {topo : CrtTreeType} {r s x : ℕ}

/-- The sorted list without adjacent duplicates has no duplicates at all. -/
theorem dRankListDupSortUniq_nodup : (dRankListDupSortUniq membs).Nodup := by
  rw [dRankListDupSortUniq, (List.pairwise_mergeSort' (· ≤ ·) membs).destutter_eq_dedup]
  exact List.nodup_dedup _

theorem crtFilteredRanks_nodup : (crtFilteredRanks membs excl).Nodup := by
  unfold crtFilteredRanks dRankListFilter
  split_ifs
  · exact dRankListDupSortUniq_nodup
  · exact dRankListDupSortUniq_nodup.filter _

/-- For two ranks of the filtered membership, `crt_get_filtered_grp_rank_list` returns that list
and their indices in it. -/
theorem crtGetFilteredGrpRankList_eq (hr : r ∈ crtFilteredRanks membs excl)
    (hs : s ∈ crtFilteredRanks membs excl) :
    crtGetFilteredGrpRankList membs false excl r s =
      .ok (some (crtFilteredRanks membs excl, (crtFilteredRanks membs excl).idxOf r,
        (crtFilteredRanks membs excl).idxOf s)) := by
  -- `d_idx_in_rank_list` finds both ranks
  have hidx : ∀ x ∈ crtFilteredRanks membs excl,
      dIdxInRankList (crtFilteredRanks membs excl) x = .ok ((crtFilteredRanks membs excl).idxOf x) :=
    fun x hx => if_pos hx
  unfold crtGetFilteredGrpRankList
  by_cases hex : excl = []
  · -- no exclusion: the list is the sorted membership
    have hM : crtFilteredRanks membs excl = dRankListDupSortUniq membs := by
      simp [crtFilteredRanks, dRankListFilter, hex]
    rw [hM] at hidx hr hs
    simp only [Bool.false_eq_true, ↓reduceIte, hex, ne_eq, not_true_eq_false, pure_bind,
      hidx r hr, hidx s hs]
    rfl
  · -- the exclusion leaves `r`, so the list is not empty
    have hne : crtFilteredRanks membs excl ≠ [] := List.ne_nil_of_mem hr
    unfold crtFilteredRanks at hne hidx
    simp only [Bool.false_eq_true, ↓reduceIte, hex, ne_eq, not_false_eq_true, hne, pure_bind,
      hidx r hr, hidx s hs]
    rfl

/-- Reading a rank list at a member's index gives the member back. -/
theorem getD_idxOf {l : List ℕ} (hx : x ∈ l) : l.getD (l.idxOf x) 0 = x := by
  rw [List.getD_eq_getElem?_getD, List.getElem?_eq_getElem (List.idxOf_lt_length_iff.mpr hx),
    Option.getD_some, List.getElem_idxOf]

/-- In a list without duplicates the index of the rank read at an index is that index. -/
theorem idxOf_getD {l : List ℕ} (hl : l.Nodup) {i : ℕ} (hi : i < l.length) :
    l.idxOf (l.getD i 0) = i := by
  rw [List.getD_eq_getElem?_getD, List.getElem?_eq_getElem hi, Option.getD_some]
  exact hl.idxOf_getElem i hi

theorem getD_mem {l : List ℕ} {i : ℕ} (hi : i < l.length) : l.getD i 0 ∈ l := by
  rw [List.getD_eq_getElem?_getD, List.getElem?_eq_getElem hi, Option.getD_some]
  exact List.getElem_mem hi

section Calls

variable {topo : CrtTreeTopo}

/-- `crt_tree_get_children` of a member: its children's indices, read in the rank list. -/
theorem crtTreeGetChildren_eq (hr : r ∈ crtFilteredRanks membs excl)
    (hs : s ∈ crtFilteredRanks membs excl) :
    crtTreeGetChildren membs false excl topo r s =
      .ok ((indexChildren topo.type (crtFilteredRanks membs excl).length topo.ratio
        ((crtFilteredRanks membs excl).idxOf r) ((crtFilteredRanks membs excl).idxOf s)).map
        fun i => (crtFilteredRanks membs excl).getD i 0) := by
  have hroot := List.idxOf_lt_length_iff.mpr hr
  simp only [crtTreeGetChildren, crtGetFilteredGrpRankList_eq hr hs, bind, Except.bind,
    toGetChildrenCnt_eq hroot]
  split_ifs with hz
  · rw [List.length_eq_zero_iff.mp hz]
    rfl
  · rw [toGetChildren_of_cnt (by rwa [toGetChildrenCnt_eq hroot])]
    simp only [List.take_length, pure, Except.pure]

/-- `crt_tree_get_nchildren` of a member counts its children. -/
theorem crtTreeGetNchildren_eq (hr : r ∈ crtFilteredRanks membs excl)
    (hs : s ∈ crtFilteredRanks membs excl) :
    crtTreeGetNchildren membs excl topo r s =
      .ok (indexChildren topo.type (crtFilteredRanks membs excl).length topo.ratio
        ((crtFilteredRanks membs excl).idxOf r) ((crtFilteredRanks membs excl).idxOf s)).length := by
  simp only [crtTreeGetNchildren, crtGetFilteredGrpRankList_eq hr hs, bind, Except.bind,
    toGetChildrenCnt_eq (List.idxOf_lt_length_iff.mpr hr)]
  rfl

/-- `crt_tree_get_parent` of a member other than the root: its parent's index, read in the
rank list. -/
theorem crtTreeGetParent_eq (hr : r ∈ crtFilteredRanks membs excl)
    (hs : s ∈ crtFilteredRanks membs excl) (hne : s ≠ r) :
    crtTreeGetParent membs excl topo r s =
      .ok ((crtFilteredRanks membs excl).getD (indexParent topo.type
        (crtFilteredRanks membs excl).length topo.ratio ((crtFilteredRanks membs excl).idxOf r)
        ((crtFilteredRanks membs excl).idxOf s)) 0) := by
  -- distinct members have distinct indices
  have hidx : (crtFilteredRanks membs excl).idxOf s ≠ (crtFilteredRanks membs excl).idxOf r := by
    intro heq
    apply hne
    rw [← List.getElem_idxOf (List.idxOf_lt_length_iff.mpr hs),
      ← List.getElem_idxOf (List.idxOf_lt_length_iff.mpr hr)]
    simp only [heq]
  simp only [crtTreeGetParent, crtGetFilteredGrpRankList_eq hr hs, bind, Except.bind,
    toGetParent_of_ne hidx]
  rfl

/-- The children `crt_tree_get_children` returns and the parents `crt_tree_get_parent` returns
over the filtered membership form one tree rooted at `r`, no call failing on a member, and
`crt_tree_get_nchildren` counts the children. The tree is the topology's tree over indices,
relabelled along the rank list. -/
theorem crtTree_spanning (hvalid : topo.Valid) (hr : r ∈ crtFilteredRanks membs excl)
    (hbound : (crtFilteredRanks membs excl).length * topo.ratio < 2 ^ 32) :
    ParentTree (· ∈ crtFilteredRanks membs excl) r
      (fun s => (crtTreeGetChildren membs false excl topo r s).toOption.getD [])
      (fun c => (crtTreeGetParent membs excl topo r c).toOption.getD r) ∧
    ∀ s ∈ crtFilteredRanks membs excl,
      (∃ cs, crtTreeGetChildren membs false excl topo r s = .ok cs ∧
        crtTreeGetNchildren membs excl topo r s = .ok cs.length) ∧
      (s ≠ r → ∃ p, crtTreeGetParent membs excl topo r s = .ok p) := by
  have hroot := List.idxOf_lt_length_iff.mpr hr
  have hrel := (indexTree hvalid hroot hbound).relabel (fun i => (crtFilteredRanks membs excl).getD i 0)
    (crtFilteredRanks membs excl).idxOf fun i hi => idxOf_getD crtFilteredRanks_nodup hi
  rw [getD_idxOf hr] at hrel
  refine ⟨hrel.congr (fun x => ⟨?_, ?_⟩) ?_ ?_, fun s hs =>
    ⟨⟨_, crtTreeGetChildren_eq hr hs, ?_⟩, fun hne => ⟨_, crtTreeGetParent_eq hr hs hne⟩⟩⟩
  · -- the relabelled indices are the members
    rintro ⟨i, hi, rfl⟩
    exact getD_mem hi
  · intro hx
    exact ⟨_, List.idxOf_lt_length_iff.mpr hx, getD_idxOf hx⟩
  · rintro _ ⟨i, hi, rfl⟩
    rw [crtTreeGetChildren_eq hr (getD_mem hi)]
    rfl
  · rintro _ ⟨i, hi, rfl⟩ hne
    rw [crtTreeGetParent_eq hr (getD_mem hi) hne]
    rfl
  · rw [crtTreeGetNchildren_eq hr hs, List.length_map]

/-- The binary tree over the members 1, 2, 3 without 1, rooted at 3. -/
theorem crtTree_spanning_kary_pair :
    CrtTreeTopo.Valid ⟨.kary, 2⟩ ∧ 3 ∈ crtFilteredRanks [3, 1, 2, 1] [1] ∧
      (crtFilteredRanks [3, 1, 2, 1] [1]).length * 2 < 2 ^ 32 ∧
      ParentTree (· ∈ crtFilteredRanks [3, 1, 2, 1] [1]) 3
        (fun s => (crtTreeGetChildren [3, 1, 2, 1] false [1] ⟨.kary, 2⟩ 3 s).toOption.getD [])
        (fun c => (crtTreeGetParent [3, 1, 2, 1] [1] ⟨.kary, 2⟩ 3 c).toOption.getD 3) := by
  have hM : crtFilteredRanks [3, 1, 2, 1] [1] = [2, 3] := by
    simp [crtFilteredRanks, dRankListDupSortUniq, dRankListFilter, List.mergeSort]
    decide
  have hvalid : CrtTreeTopo.Valid ⟨.kary, 2⟩ := by decide
  have hr : 3 ∈ crtFilteredRanks [3, 1, 2, 1] [1] := by
    rw [hM]
    decide
  have hbound : (crtFilteredRanks [3, 1, 2, 1] [1]).length * 2 < 2 ^ 32 := by
    rw [hM]
    decide
  exact ⟨hvalid, hr, hbound, (crtTree_spanning hvalid hr hbound).1⟩

end Calls

end Group

end Daos.Cart

import Mathlib
import Daos.Pool.Buf

/-!
# Extracting a pool map buffer and parsing it back

A map is given level by level (`PoolLayers`): its domain array `toMap` and the buffer `toBuf`
with the components of the levels, then the targets. For every such map with consistent counts
`pool_buf_extract` writes that buffer (`PoolLayers.Wf.poolBufExtract_toMap`), and, when there
is a domain level and no level type repeats, `pool_buf_parse` rebuilds the map from it
(`PoolLayers.Wf.poolBufParse_toBuf`).

Extraction walks the layers top down; a walk lemma per loop carries the prefix of the domain
array already passed. The first pass of the parse copies the components and, at each change of
type, points the layer before at its children (`parseComps_layers`); the tree it leaves is the
map with the targets of the domains above the ranks still unset (`unfillTop`). Each round of
the second pass sets them for the lowest such layer (`Chained.parseFillLayer_unfillTop`), so
the pass ends at the map (`Chained.parseBuild_unfillTop`).

The parse relies on the type changes to find the layers: a map with no domain level, or with
two node levels, is extracted but not rebuilt (`poolBufParse_poolBufExtract_mismatch`).
-/

namespace Daos.Pool

/-! ### Attaching components one at a time -/

/-- The buffer `pool_buf_extract` has built once it attached `done`, with `free` slots left. -/
def bufOf (done : List PoolComponent) (free : ℕ) : PoolBuf :=
  { pbDomainNr := done.countP fun comp =>
      comp.coType ≠ poCompTpTarget ∧ comp.coType ≠ poCompTpRank,
    pbNodeNr := done.countP fun comp => comp.coType ≠ poCompTpTarget ∧ comp.coType = poCompTpRank,
    pbTargetNr := done.countP fun comp => comp.coType = poCompTpTarget,
    pbComps := done ++ List.replicate free {} }

theorem poolBufAlloc_eq_bufOf (nr : ℕ) : poolBufAlloc nr = bufOf [] nr := rfl

theorem attachedNr_bufOf (done : List PoolComponent) (free : ℕ) :
    (bufOf done free).attachedNr = done.length := by
  induction done with
  | nil => rfl
  | cons comp done ih =>
    simp only [bufOf, PoolBuf.attachedNr, List.countP_cons, List.length_cons] at ih ⊢
    by_cases ht : comp.coType = poCompTpTarget
    · simp [ht, poCompTpTarget, poCompTpRank] at ih ⊢
      omega
    · by_cases hr : comp.coType = poCompTpRank
      · simp [hr, poCompTpTarget, poCompTpRank] at ih ⊢
        omega
      · simp [ht, hr] at ih ⊢
        omega

/-- Attaching a component no higher than the last one fills the next slot. -/
theorem poolBufAttach_bufOf {done : List PoolComponent} {free : ℕ} {comp : PoolComponent}
    (hle : ∀ prev ∈ done.getLast?, comp.coType ≤ prev.coType) :
    poolBufAttach (bufOf done (free + 1)) [comp] = (0, bufOf (done ++ [comp]) free) := by
  have hnr := attachedNr_bufOf done (free + 1)
  have hroom : ¬(bufOf done (free + 1)).pbNr <
      (bufOf done (free + 1)).attachedNr + [comp].length := by
    rw [hnr]
    simp [PoolBuf.pbNr, bufOf]
  have hprev : ¬((bufOf done (free + 1)).attachedNr ≠ 0 ∧
      ((bufOf done (free + 1)).pbComps.getD ((bufOf done (free + 1)).attachedNr - 1)
        ({} : PoolComponent)).coType <
        comp.coType) := by
    rw [hnr]
    show ¬(_ ∧ ((done ++ List.replicate (free + 1) ({} : PoolComponent)).getD (done.length - 1)
      {}).coType < comp.coType)
    rintro ⟨hne, hlt⟩
    have hlast : (done ++ List.replicate (free + 1) ({} : PoolComponent)).getD (done.length - 1)
        {} ∈
        done.getLast? := by
      rw [List.getD_append _ _ _ _ (by omega), List.getD_eq_getElem?_getD,
        List.getLast?_eq_getElem?, List.getElem?_eq_getElem (by omega)]
      rfl
    have hge := hle _ hlast
    omega
  rw [poolBufAttach, if_neg hroom, poolBufAttachLoop, if_neg hprev, poolBufAttachLoop, hnr]
  have hslots : (done ++ List.replicate (free + 1) ({} : PoolComponent)).set done.length comp =
      done ++ [comp] ++ List.replicate free ({} : PoolComponent) := by
    simp [List.replicate_succ]
  simp only [bufOf, PoolBuf.count, hslots, List.countP_append, List.countP_singleton]
  unfold poCompTpTarget poCompTpRank
  by_cases ht : comp.coType = 0
  · simp [ht]
  · by_cases hr : comp.coType = 1
    · simp [hr]
    · simp [ht, hr]

/-- Attaching components in order of non-increasing type, one at a time, fills the slots in
order. -/
theorem attachEach_bufOf (comps : List PoolComponent) :
    ∀ {done : List PoolComponent} {free : ℕ},
      (done ++ comps).Pairwise (fun prev comp => comp.coType ≤ prev.coType) →
      comps.length ≤ free →
      attachEach (bufOf done free) comps = bufOf (done ++ comps) (free - comps.length) := by
  induction comps with
  | nil => intro done free _ _; simp [attachEach]
  | cons comp comps ih =>
    intro done free hsorted hroom
    obtain ⟨free, rfl⟩ : ∃ f, free = f + 1 := ⟨free - 1, by simp at hroom; omega⟩
    have hle : ∀ prev ∈ done.getLast?, comp.coType ≤ prev.coType := by
      intro prev hprev
      exact (List.pairwise_append.mp hsorted).2.2 prev (List.mem_of_getLast? hprev) comp
        List.mem_cons_self
    have hstep : attachEach (bufOf done (free + 1)) (comp :: comps) =
        attachEach (bufOf (done ++ [comp]) free) comps := by
      simp only [attachEach, List.foldl_cons, poolBufAttach_bufOf hle]
    rw [hstep, ih (by simpa using hsorted) (by simp at hroom; omega)]
    simp

theorem attachEach_append (buf : PoolBuf) (comps comps' : List PoolComponent) :
    attachEach buf (comps ++ comps') = attachEach (attachEach buf comps) comps' :=
  List.foldl_append

/-! ### The domains of a layer -/

section Layers

variable {β : Type*}

/-- What a function of the domains reads of the domains above the ranks: their components. -/
theorem map_innerDomains {f : PoolDomain → β} (g : PoolComponent → β)
    (hf : ∀ dom : PoolDomain, dom.doChildren.isSome → f dom = g dom.doComp) (comps : List PoolComponent) :
    ∀ child target below, (innerDomains comps child target below).map f = comps.map g := by
  induction comps with
  | nil => intros; rfl
  | cons comp comps ih =>
    intro child target below
    simp only [innerDomains, List.map_cons, ih, List.cons.injEq, and_true]
    exact hf _ rfl

/-- What a function of the rank domains reads: their components and target counts. -/
theorem map_rankDomains {f : PoolDomain → β} (g : PoolComponent → β)
    (hf : ∀ comp target,
      f { doComp := { comp with coNr := 0 }, doTargetNr := comp.coNr, doTargets := some target } =
        g comp)
    (comps : List PoolComponent) :
    ∀ target, (rankDomains comps target).map f = comps.map g := by
  induction comps with
  | nil => intros; rfl
  | cons comp comps ih =>
    intro target
    simp only [rankDomains, List.map_cons, ih, hf]

@[simp]
theorem length_innerDomains (comps : List PoolComponent) (child target : ℕ) (below : List ℕ) :
    (innerDomains comps child target below).length = comps.length := by
  induction comps generalizing child target below with
  | nil => rfl
  | cons comp comps ih => simp [innerDomains, ih]

@[simp]
theorem length_rankDomains (comps : List PoolComponent) (target : ℕ) :
    (rankDomains comps target).length = comps.length := by
  induction comps generalizing target with
  | nil => rfl
  | cons comp comps ih => simp [rankDomains, ih]

theorem map_extractComp_innerDomains (comps : List PoolComponent) (child target : ℕ)
    (below : List ℕ) : (innerDomains comps child target below).map PoolDomain.extractComp = comps := by
  rw [map_innerDomains id (fun dom h => by simp [PoolDomain.extractComp, h]), List.map_id]

theorem map_extractComp_rankDomains (comps : List PoolComponent) (target : ℕ) :
    (rankDomains comps target).map PoolDomain.extractComp = comps := by
  rw [map_rankDomains id (fun _ _ => rfl), List.map_id]

theorem sum_innerChildNr_innerDomains (comps : List PoolComponent) (child target : ℕ)
    (below : List ℕ) :
    ((innerDomains comps child target below).map PoolDomain.innerChildNr).sum =
      (comps.map (·.coNr)).sum := by
  rw [map_innerDomains (·.coNr) (fun dom h => by simp [PoolDomain.innerChildNr, h, PoolDomain.doChildNr])]

theorem sum_leafTargetNr_innerDomains (comps : List PoolComponent) (child target : ℕ)
    (below : List ℕ) :
    ((innerDomains comps child target below).map PoolDomain.leafTargetNr).sum = 0 := by
  rw [map_innerDomains (fun _ => 0) (fun dom h => by simp [PoolDomain.leafTargetNr, h])]
  simp

theorem sum_innerChildNr_rankDomains (comps : List PoolComponent) (target : ℕ) :
    ((rankDomains comps target).map PoolDomain.innerChildNr).sum = 0 := by
  rw [map_rankDomains (fun _ => 0) (fun _ _ => rfl)]
  simp

theorem sum_leafTargetNr_rankDomains (comps : List PoolComponent) (target : ℕ) :
    ((rankDomains comps target).map PoolDomain.leafTargetNr).sum = (comps.map (·.coNr)).sum := by
  rw [map_rankDomains (·.coNr) (fun _ _ => rfl)]

end Layers

/-! ### Walking the layers of a map -/

theorem PoolMap.layer_of_eq {map : PoolMap} {pre doms : List PoolDomain} (post : List PoolDomain)
    (h : map.poTree = pre ++ doms ++ post) : map.layer pre.length doms.length = doms := by
  simp [PoolMap.layer, h]

theorem PoolMap.domain_of_eq {map : PoolMap} {pre post : List PoolDomain} {dom : PoolDomain}
    (h : map.poTree = pre ++ dom :: post) : map.domain pre.length = dom := by
  simp [PoolMap.domain, h]

section Walk

variable {map : PoolMap}

/-- The child counts of each layer add up to the size of the next. -/
def ChildCounts (ls : List (List PoolComponent)) : Prop :=
  ls.IsChain fun layer next => (layer.map (·.coNr)).sum = next.length

theorem layerDomains_cons_cons (start : ℕ) (layer next : List PoolComponent)
    (rest : List (List PoolComponent)) :
    layerDomains start (layer :: next :: rest) =
      innerDomains layer (start + layer.length) 0
        (((layerDomains (start + layer.length) (next :: rest)).headD []).map (·.doTargetNr)) ::
      layerDomains (start + layer.length) (next :: rest) := rfl

/-- `pool_tree_count` over the layers below a prefix of the domain array counts their domains
below the first layer, the targets of the last, and the layers. -/
theorem poolTreeCountLoop_layerDomains (ls : List (List PoolComponent)) :
    ∀ (pre : List PoolDomain) (fuel : ℕ) (cntr : PoolCompCntr),
      ls ≠ [] → (∀ l ∈ ls, l ≠ []) → ChildCounts ls → ls.length ≤ fuel →
      map.poTree = pre ++ (layerDomains pre.length ls).flatten →
      poolTreeCountLoop map fuel (some pre.length) (ls.headD []).length cntr =
        .ok { cntr with ccDomains := cntr.ccDomains + ((ls.drop 1).map List.length).sum,
                        ccTargets := cntr.ccTargets + ((ls.getLastD []).map (·.coNr)).sum,
                        ccLayers := cntr.ccLayers + ls.length } := by
  induction ls with
  | nil => intro _ _ _ h; contradiction
  | cons l rest ih =>
    intro pre fuel cntr _ hne hchain hfuel htree
    obtain ⟨fuel, rfl⟩ : ∃ f, fuel = f + 1 := ⟨fuel - 1, by simp at hfuel; omega⟩
    obtain ⟨c, cs, rfl⟩ := List.exists_cons_of_ne_nil (hne l List.mem_cons_self)
    cases rest with
    | nil =>
      -- the ranks: no children, and their targets
      have hlayer : map.layer pre.length (c :: cs).length = rankDomains (c :: cs) 0 := by
        have h := PoolMap.layer_of_eq [] (by rw [htree, List.append_assoc]; rfl)
        rwa [length_rankDomains] at h
      have hdom : (map.domain pre.length).doChildren = none := by
        rw [PoolMap.domain_of_eq (by rw [htree]; rfl)]
      simp only [poolTreeCountLoop, List.headD_cons, hlayer, hdom, sum_innerChildNr_rankDomains,
        sum_leafTargetNr_rankDomains]
      cases cntr
      simp
    | cons next rest =>
      rw [layerDomains_cons_cons, List.flatten_cons] at htree
      generalize ((layerDomains _ (next :: rest)).headD []).map (·.doTargetNr) = below at htree
      have hlayer : map.layer pre.length (c :: cs).length =
          innerDomains (c :: cs) (pre.length + (c :: cs).length) 0 below := by
        have h := PoolMap.layer_of_eq _ (by rw [htree, List.append_assoc])
        rwa [length_innerDomains] at h
      have hdom : (map.domain pre.length).doChildren = some (pre.length + (c :: cs).length) := by
        rw [PoolMap.domain_of_eq (by rw [htree]; rfl)]
      have hsum : ((c :: cs).map (·.coNr)).sum = next.length := (List.isChain_cons_cons.mp hchain).1
      have hrest := ih (pre ++ innerDomains (c :: cs) (pre.length + (c :: cs).length) 0 below) fuel
        { cntr with ccDomains := cntr.ccDomains + next.length, ccTargets := cntr.ccTargets + 0,
                    ccLayers := cntr.ccLayers + 1 }
        (List.cons_ne_nil _ _) (fun l hl => hne l (List.mem_cons_of_mem _ hl))
        (List.isChain_cons_cons.mp hchain).2
        (by simp only [List.length_cons] at hfuel ⊢; omega)
        (by rw [htree, List.append_assoc, List.length_append, length_innerDomains])
      rw [List.length_append, length_innerDomains, List.headD_cons] at hrest
      simp only [poolTreeCountLoop, List.headD_cons, hlayer, hdom, sum_innerChildNr_innerDomains,
        sum_leafTargetNr_innerDomains, hsum, hrest]
      cases cntr
      simp only [List.drop_succ_cons, List.drop_zero, List.map_cons, List.sum_cons,
        List.getLastD_cons, List.length_cons, Except.ok.injEq, PoolCompCntr.mk.injEq, true_and]
      omega

/-- The loop of `pool_buf_extract` over the layers below a prefix of the domain array attaches
their components level by level, the ranks with their target counts. -/
theorem poolBufExtractLayers_layerDomains (ls : List (List PoolComponent)) :
    ∀ (pre : List PoolDomain) (fuel : ℕ) (buf : PoolBuf),
      ls ≠ [] → (∀ l ∈ ls, l ≠ []) → ChildCounts ls → ls.length ≤ fuel →
      map.poTree = pre ++ (layerDomains pre.length ls).flatten →
      poolBufExtractLayers map fuel (some pre.length) (ls.headD []).length buf =
        .ok (attachEach buf ls.flatten) := by
  induction ls with
  | nil => intro _ _ _ h; contradiction
  | cons l rest ih =>
    intro pre fuel buf _ hne hchain hfuel htree
    obtain ⟨fuel, rfl⟩ : ∃ f, fuel = f + 1 := ⟨fuel - 1, by simp at hfuel; omega⟩
    obtain ⟨c, cs, rfl⟩ := List.exists_cons_of_ne_nil (hne l List.mem_cons_self)
    cases rest with
    | nil =>
      have hlayer : map.layer pre.length (cs.length + 1) = rankDomains (c :: cs) 0 := by
        have h := PoolMap.layer_of_eq [] (by rw [htree, List.append_assoc]; rfl)
        rwa [length_rankDomains, List.length_cons] at h
      have hdom : (map.domain pre.length).doChildren = none := by
        rw [PoolMap.domain_of_eq (by rw [htree]; rfl)]
      simp only [poolBufExtractLayers, List.headD_cons, List.length_cons, hlayer, hdom,
        sum_innerChildNr_rankDomains, map_extractComp_rankDomains, List.flatten_cons,
        List.flatten_nil, List.append_nil]
    | cons next rest =>
      rw [layerDomains_cons_cons, List.flatten_cons] at htree
      generalize ((layerDomains _ (next :: rest)).headD []).map (·.doTargetNr) = below at htree
      have hlayer : map.layer pre.length (cs.length + 1) =
          innerDomains (c :: cs) (pre.length + (c :: cs).length) 0 below := by
        have h := PoolMap.layer_of_eq _ (by rw [htree, List.append_assoc])
        rwa [length_innerDomains, List.length_cons] at h
      have hdom : (map.domain pre.length).doChildren = some (pre.length + (c :: cs).length) := by
        rw [PoolMap.domain_of_eq (by rw [htree]; rfl)]
      have hsum : ((c :: cs).map (·.coNr)).sum = next.length := (List.isChain_cons_cons.mp hchain).1
      have hrest := ih (pre ++ innerDomains (c :: cs) (pre.length + (c :: cs).length) 0 below) fuel
        (attachEach buf (c :: cs))
        (List.cons_ne_nil _ _) (fun l hl => hne l (List.mem_cons_of_mem _ hl))
        (List.isChain_cons_cons.mp hchain).2
        (by simp only [List.length_cons] at hfuel ⊢; omega)
        (by rw [htree, List.append_assoc, List.length_append, length_innerDomains])
      rw [List.length_append, length_innerDomains, List.headD_cons, List.length_cons] at hrest
      simp only [poolBufExtractLayers, List.headD_cons, List.length_cons, hlayer, hdom,
        sum_innerChildNr_innerDomains, map_extractComp_innerDomains, hsum]
      rw [hrest]
      simp only [List.flatten_cons, attachEach_append]

end Walk

/-! ### The first pass of `pool_buf_parse` -/

/-- A domain before the second pass of `pool_buf_parse` gives it its targets. -/
def PoolDomain.unfilled (dom : PoolDomain) : PoolDomain :=
  { dom with doTargetNr := 0, doTargets := none }

/-- The layers of domains with the first `m` still without their targets. -/
def unfillTop (m : ℕ) (Ls : List (List PoolDomain)) : List (List PoolDomain) :=
  (Ls.take m).map (List.map PoolDomain.unfilled) ++ Ls.drop m

@[simp]
theorem unfillTop_zero (Ls : List (List PoolDomain)) : unfillTop 0 Ls = Ls := by
  simp [unfillTop]

theorem unfillTop_succ_cons (m : ℕ) (L : List PoolDomain) (Ls : List (List PoolDomain)) :
    unfillTop (m + 1) (L :: Ls) = L.map PoolDomain.unfilled :: unfillTop m Ls := by
  simp [unfillTop]

theorem parseComps_same {comp : PoolComponent} {type : ℕ} (hcomp : comp.coType = type)
    (htype : type < poCompTpRoot) (comps : List PoolComponent) (tree : List PoolDomain)
    (parent targets i : ℕ) :
    parseComps (comp :: comps) tree parent type targets i =
      parseComps comps (tree.set i { tree.getD i {} with doComp := comp }) parent type targets
        (i + 1) := by
  have hroot : ¬comp.coType ≥ poCompTpRoot := by omega
  simp only [parseComps, if_neg hroot, if_pos hcomp]

theorem parseComps_change {comp : PoolComponent} {type : ℕ} (hcomp : comp.coType ≠ type)
    (hroot : comp.coType < poCompTpRoot) (comps : List PoolComponent) (tree : List PoolDomain)
    (parent targets i : ℕ) :
    parseComps (comp :: comps) tree parent type targets i =
      let (tree, targets) := parseParents comp.coType i (i - parent)
        (tree.set i { tree.getD i {} with doComp := comp }) parent 0 targets
      if comp.coType = poCompTpTarget then .ok tree
      else parseComps comps tree i comp.coType targets (i + 1) := by
  have hroot' : ¬comp.coType ≥ poCompTpRoot := by omega
  simp only [parseComps, if_neg hroot', if_neg hcomp]

/-- A run of components of the current type is copied into the free slots. -/
theorem parseComps_run {type : ℕ} (htype : type < poCompTpRoot) (run : List PoolComponent) :
    ∀ (pre : List PoolDomain) (free : ℕ) (rest : List PoolComponent) (parent targets : ℕ),
      (∀ comp ∈ run, comp.coType = type) → run.length ≤ free →
      parseComps (run ++ rest) (pre ++ List.replicate free ({} : PoolDomain)) parent type targets
          pre.length =
        parseComps rest (pre ++ run.map (fun comp => ({ doComp := comp } : PoolDomain)) ++
          List.replicate (free - run.length) ({} : PoolDomain)) parent type targets
          (pre.length + run.length) := by
  induction run with
  | nil => intros; simp
  | cons comp run ih =>
    intro pre free rest parent targets hrun hfree
    obtain ⟨free, rfl⟩ : ∃ f, free = f + 1 := ⟨free - 1, by simp at hfree; omega⟩
    have hset : (pre ++ List.replicate (free + 1) ({} : PoolDomain)).set pre.length
        { (pre ++ List.replicate (free + 1) ({} : PoolDomain)).getD pre.length {} with
          doComp := comp } = (pre ++ [{ doComp := comp }]) ++ List.replicate free ({} : PoolDomain) := by
      simp [List.replicate_succ]
    rw [List.cons_append, parseComps_same (hrun comp List.mem_cons_self) htype, hset]
    have hrest := ih (pre ++ [{ doComp := comp }]) free rest parent targets
      (fun c hc => hrun c (List.mem_cons_of_mem _ hc)) (by simp at hfree; omega)
    simp only [List.length_append, List.length_singleton] at hrest
    rw [hrest]
    simp [Nat.add_assoc, Nat.add_comm 1]

/-- At a change to a type other than the targets, the layer before points at its children. -/
theorem parseParents_inner {type i : ℕ} (htype : type ≠ poCompTpTarget)
    (comps : List PoolComponent) :
    ∀ (pre post : List PoolDomain) (nr targets target : ℕ) (below : List ℕ),
      parseParents type i comps.length
          (pre ++ comps.map (fun comp => ({ doComp := comp } : PoolDomain)) ++ post) pre.length
          nr targets =
        (pre ++ (innerDomains comps (i + nr) target below).map PoolDomain.unfilled ++ post,
          targets) := by
  induction comps with
  | nil => intros; simp [parseParents, innerDomains]
  | cons comp comps ih =>
    intro pre post nr targets target below
    have hstep : parseParents type i (comps.length + 1)
        (pre ++ (comp :: comps).map (fun comp => ({ doComp := comp } : PoolDomain)) ++ post)
        pre.length nr targets =
        parseParents type i comps.length
          ((pre ++ [{ doComp := comp, doChildren := some (i + nr) }]) ++
            comps.map (fun comp => ({ doComp := comp } : PoolDomain)) ++ post)
          (pre.length + 1) (nr + comp.coNr) targets := by
      simp only [parseParents, if_pos htype]
      congr 1
      · simp [List.set_append_right]
      · simp [PoolDomain.doChildNr]
    have hrest := ih (pre ++ [{ doComp := comp, doChildren := some (i + nr) }]) post
      (nr + comp.coNr) targets (target + (below.take comp.coNr).sum) (below.drop comp.coNr)
    rw [List.length_append, List.length_singleton] at hrest
    rw [List.length_cons, hstep, hrest, innerDomains, Nat.add_assoc]
    simp [PoolDomain.unfilled]

/-- When the targets start, the ranks take their targets in order. -/
theorem parseParents_ranks {i : ℕ} (comps : List PoolComponent) :
    ∀ (pre post : List PoolDomain) (nr targets : ℕ),
      parseParents poCompTpTarget i comps.length
          (pre ++ comps.map (fun comp => ({ doComp := comp } : PoolDomain)) ++ post) pre.length
          nr targets =
        (pre ++ rankDomains comps targets ++ post, targets + (comps.map (·.coNr)).sum) := by
  induction comps with
  | nil => intros; simp [parseParents, rankDomains]
  | cons comp comps ih =>
    intro pre post nr targets
    have hstep : parseParents poCompTpTarget i (comps.length + 1)
        (pre ++ (comp :: comps).map (fun comp => ({ doComp := comp } : PoolDomain)) ++ post)
        pre.length nr targets =
        parseParents poCompTpTarget i comps.length
          ((pre ++ [{ doComp := { comp with coNr := 0 }, doTargetNr := comp.coNr,
                      doTargets := some targets }]) ++
            comps.map (fun comp => ({ doComp := comp } : PoolDomain)) ++ post)
          (pre.length + 1) nr (targets + comp.coNr) := by
      simp only [parseParents, ne_eq, not_true_eq_false, if_false]
      congr 1
      · simp [List.set_append_right, PoolDomain.doChildNr]
      · simp [PoolDomain.doChildNr]
    have hrest := ih
      (pre ++ [{ doComp := { comp with coNr := 0 }, doTargetNr := comp.coNr,
                 doTargets := some targets }])
      post nr (targets + comp.coNr)
    rw [List.length_append, List.length_singleton] at hrest
    rw [List.length_cons, hstep, hrest, rankDomains]
    simp [Nat.add_assoc]

/-- The layer types of a tree `pool_buf_parse` rebuilds: uniform in each layer, strictly
decreasing, between the targets and the root. -/
structure LayerTypes (ls : List (List PoolComponent)) : Prop where
  layer_ne : ∀ l ∈ ls, l ≠ []
  uniform : ∀ l ∈ ls, ∀ comp ∈ l, comp.coType = layerType l
  desc : (ls.map layerType).IsChain (· > ·)
  range : ∀ l ∈ ls, poCompTpTarget < layerType l ∧ layerType l < poCompTpRoot

theorem LayerTypes.tail {l : List PoolComponent} {ls : List (List PoolComponent)}
    (h : LayerTypes (l :: ls)) : LayerTypes ls :=
  ⟨fun l' hl => h.layer_ne l' (List.mem_cons_of_mem _ hl),
   fun l' hl => h.uniform l' (List.mem_cons_of_mem _ hl),
   by simpa using h.desc.tail,
   fun l' hl => h.range l' (List.mem_cons_of_mem _ hl)⟩

/-- The first pass of `pool_buf_parse` over the layers after `layer`, whose components are
already copied from domain `pre.length` on: each change of type points the layer before at its
children, and the first target points the ranks at their targets. -/
theorem parseComps_layers {targets : List PoolComponent} (htargets : targets ≠ [])
    (htarget : ∀ comp ∈ targets.head?, comp.coType = poCompTpTarget)
    (ls : List (List PoolComponent)) :
    ∀ (pre : List PoolDomain) (layer : List PoolComponent), LayerTypes (layer :: ls) →
      parseComps (ls.flatten ++ targets)
          (pre ++ layer.map (fun comp => ({ doComp := comp } : PoolDomain)) ++
            List.replicate (ls.map List.length).sum ({} : PoolDomain))
          pre.length (layerType layer) 0 (pre.length + layer.length) =
        .ok (pre ++ (unfillTop ls.length (layerDomains pre.length (layer :: ls))).flatten) := by
  induction ls with
  | nil =>
    intro pre layer htypes
    obtain ⟨t, ts, rfl⟩ := List.exists_cons_of_ne_nil htargets
    have ht : t.coType = poCompTpTarget := htarget t rfl
    have hrange := htypes.range layer List.mem_cons_self
    have hchange : t.coType ≠ layerType layer := by omega
    have hroot : t.coType < poCompTpRoot := by rw [ht]; decide
    simp only [List.flatten_nil, List.nil_append, List.map_nil, List.sum_nil]
    rw [parseComps_change hchange hroot, List.set_eq_of_length_le (by simp),
      Nat.add_sub_cancel_left, ht, parseParents_ranks]
    simp [layerDomains]
  | cons next ls ih =>
    intro pre layer htypes
    obtain ⟨n, ns, rfl⟩ := List.exists_cons_of_ne_nil (htypes.layer_ne next (by simp))
    have hn : n.coType = layerType (n :: ns) := htypes.uniform _ (by simp) n List.mem_cons_self
    have hrange := htypes.range (n :: ns) (by simp)
    have hdesc : layerType (n :: ns) < layerType layer := by
      simpa using (List.isChain_cons_cons.mp htypes.desc).1
    have hchange : n.coType ≠ layerType layer := by omega
    have hroot : n.coType < poCompTpRoot := by omega
    have hinner : n.coType ≠ poCompTpTarget := by omega
    -- the first component of the next layer lands in the first free slot
    have hset : (pre ++ layer.map (fun comp => ({ doComp := comp } : PoolDomain)) ++
        List.replicate (ns.length + (ls.map List.length).sum + 1) ({} : PoolDomain)).set
          (pre.length + layer.length)
          { (pre ++ layer.map (fun comp => ({ doComp := comp } : PoolDomain)) ++
              List.replicate (ns.length + (ls.map List.length).sum + 1) ({} : PoolDomain)).getD
            (pre.length + layer.length) {} with doComp := n } =
        pre ++ layer.map (fun comp => ({ doComp := comp } : PoolDomain)) ++
          ({ doComp := n } :: List.replicate (ns.length + (ls.map List.length).sum)
            ({} : PoolDomain)) := by
      have hi : pre.length + layer.length =
          (pre ++ layer.map (fun comp => ({ doComp := comp } : PoolDomain))).length := by simp
      rw [hi, List.getD_append_right _ _ _ _ le_rfl, Nat.sub_self, List.set_append_right _ _ le_rfl,
        Nat.sub_self, List.replicate_succ, List.getD_cons_zero, List.set_cons_zero]
    have hfree : (((n :: ns) :: ls).map List.length).sum = ns.length + (ls.map List.length).sum + 1 := by
      simp; omega
    set below := ((layerDomains (pre.length + layer.length) ((n :: ns) :: ls)).headD []).map
      (·.doTargetNr)
    set inner := (innerDomains layer (pre.length + layer.length) 0 below).map PoolDomain.unfilled
    have hrun := parseComps_run hroot ns (pre ++ inner ++ [{ doComp := n }])
      (ns.length + (ls.map List.length).sum) (ls.flatten ++ targets) (pre.length + layer.length) 0
      (fun c hc => (htypes.uniform _ (by simp) c (List.mem_cons_of_mem _ hc)).trans hn.symm)
      (by omega)
    have hrest := ih (pre ++ inner) (n :: ns) htypes.tail
    simp only [List.length_append, List.length_map, length_innerDomains, List.length_cons,
      List.length_nil, inner] at hrun hrest
    have hcomps : ((n :: ns) :: ls).flatten ++ targets = n :: (ns ++ (ls.flatten ++ targets)) := by
      simp
    rw [hfree, hcomps, parseComps_change hchange hroot, hset, Nat.add_sub_cancel_left,
      parseParents_inner hinner _ _ _ 0 0 0 below, Nat.add_zero]
    simp only [if_neg hinner]
    rw [List.append_cons, hrun, List.length_cons, layerDomains_cons_cons, unfillTop_succ_cons,
      List.flatten_cons, ← List.append_assoc]
    convert hrest using 2
    · simp
    · omega

/-! ### The second pass of `pool_buf_parse` -/

/-- The domains take their targets one after the other from `target` on. -/
def TargetsFrom : ℕ → List PoolDomain → Prop
  | _, [] => True
  | target, dom :: doms => dom.doTargets = some target ∧ TargetsFrom (target + dom.doTargetNr) doms

theorem targetsFrom_innerDomains (comps : List PoolComponent) :
    ∀ child target below, TargetsFrom target (innerDomains comps child target below) := by
  induction comps with
  | nil => intros; trivial
  | cons comp comps ih => intro child target below; exact ⟨rfl, ih _ _ _⟩

theorem targetsFrom_rankDomains (comps : List PoolComponent) :
    ∀ target, TargetsFrom target (rankDomains comps target) := by
  induction comps with
  | nil => intros; trivial
  | cons comp comps ih => intro target; exact ⟨rfl, ih _⟩

/-- Past the first `k` domains, the targets go on after theirs. -/
theorem TargetsFrom.drop {doms : List PoolDomain} {target : ℕ} (h : TargetsFrom target doms)
    (k : ℕ) : TargetsFrom (target + ((doms.take k).map (·.doTargetNr)).sum) (doms.drop k) := by
  induction doms generalizing target k with
  | nil => simp [TargetsFrom]
  | cons dom doms ih =>
    cases k with
    | zero => simpa using h
    | succ k =>
      have hrest := ih h.2 k
      simp only [List.take_succ_cons, List.map_cons, List.sum_cons, List.drop_succ_cons]
      rwa [← Nat.add_assoc]

theorem TargetsFrom.head {doms : List PoolDomain} {target : ℕ} (h : TargetsFrom target doms)
    (hne : doms ≠ []) : (doms.headD {}).doTargets = some target := by
  obtain ⟨dom, doms, rfl⟩ := List.exists_cons_of_ne_nil hne
  exact h.1

/-- The loop of the second pass over a layer above the ranks: each domain takes the targets of
its first child and the sum of its children's, the children being the next layer, whose targets
follow each other. -/
theorem parseFillLayer_innerDomains {type : ℕ} (B : List PoolDomain)
    (hstop : (B.headD {}).doComp.coType ≠ type) (comps : List PoolComponent) :
    ∀ (A kids : List PoolDomain) (o child target fuel : ℕ),
      (∀ comp ∈ comps, comp.coType = type) → (∀ comp ∈ comps, 0 < comp.coNr) →
      (∃ rest, B.drop o = kids ++ rest) → TargetsFrom target kids →
      (comps.map (·.coNr)).sum ≤ kids.length → comps.length < fuel →
      parseFillLayer type fuel
          (A ++ (innerDomains comps child target (kids.map (·.doTargetNr))).map
            PoolDomain.unfilled ++ B)
          A.length (A.length + comps.length + o) =
        .ok (A ++ innerDomains comps child target (kids.map (·.doTargetNr)) ++ B) := by
  induction comps with
  | nil =>
    intro A kids o child target fuel _ _ _ _ _ hfuel
    obtain ⟨fuel, rfl⟩ : ∃ f, fuel = f + 1 := ⟨fuel - 1, by simp at hfuel; omega⟩
    have hget : (A ++ ([] : List PoolDomain) ++ B).getD A.length {} = B.headD {} := by
      rw [List.append_nil, List.getD_append_right _ _ _ _ le_rfl, Nat.sub_self]
      cases B <;> rfl
    simp only [innerDomains, List.map_nil, parseFillLayer, hget, ne_eq, hstop, not_false_eq_true,
      if_true]
  | cons comp comps ih =>
    intro A kids o child target fuel htype hpos hkids htargets hsum hfuel
    obtain ⟨fuel, rfl⟩ : ∃ f, fuel = f + 1 := ⟨fuel - 1, by simp at hfuel; omega⟩
    obtain ⟨rest, hrest⟩ := hkids
    have hc : comp.coType = type := htype comp List.mem_cons_self
    have hnr : comp.coNr ≤ kids.length := by simp at hsum; omega
    have hne : kids ≠ [] := by
      have := hpos comp List.mem_cons_self
      rintro rfl
      simp at hnr; omega
    set below := kids.map (·.doTargetNr)
    set first : PoolDomain :=
      { doComp := comp, doTargetNr := (below.take comp.coNr).sum, doChildren := some child,
        doTargets := some target }
    set F' := innerDomains comps (child + comp.coNr) (target + (below.take comp.coNr).sum)
      (below.drop comp.coNr)
    have hF : innerDomains (comp :: comps) child target below = first :: F' := rfl
    have hlen : A.length + (comps.length + 1) + o =
        (A ++ (first :: F').map PoolDomain.unfilled).length + o := by
      simp [F']
    -- the domain reads its children where the next layer holds them
    have hdrop : (A ++ (first :: F').map PoolDomain.unfilled ++ B).drop
        (A.length + (comps.length + 1) + o) = kids ++ rest := by
      rw [hlen, List.drop_append, List.drop_eq_nil_of_le (by omega), List.nil_append,
        Nat.add_sub_cancel_left, hrest]
    have hget : (A ++ (first :: F').map PoolDomain.unfilled ++ B).getD A.length {} =
        first.unfilled := by
      rw [List.append_assoc, List.getD_append_right _ _ _ _ le_rfl, Nat.sub_self]
      rfl
    have hgetKid : (A ++ (first :: F').map PoolDomain.unfilled ++ B).getD
        (A.length + (comps.length + 1) + o) {} = kids.headD {} := by
      rw [List.getD_eq_getElem?_getD, ← List.head?_drop, hdrop]
      obtain ⟨k, ks, rfl⟩ := List.exists_cons_of_ne_nil hne
      rfl
    have hstep : parseFillLayer type (fuel + 1)
        (A ++ (first :: F').map PoolDomain.unfilled ++ B) A.length
        (A.length + (comps.length + 1) + o) =
        parseFillLayer type fuel ((A ++ [first]) ++ F'.map PoolDomain.unfilled ++ B)
          (A ++ [first]).length ((A ++ [first]).length + comps.length + (o + comp.coNr)) := by
      simp only [parseFillLayer, hget, PoolDomain.unfilled, ne_eq, hdrop, hgetKid, htargets.head hne]
      have hfirst : ¬first.doComp.coType ≠ type := not_not.mpr hc
      rw [if_neg hfirst]
      congr 1
      · simp [List.set_append_right, first, below, List.take_append_of_le_length hnr,
          PoolDomain.unfilled, PoolDomain.doChildNr]
      · simp
      · simp only [PoolDomain.doChildNr, first, List.length_append, List.length_singleton]
        omega
    have hrest' := ih (A ++ [first]) (kids.drop comp.coNr) (o + comp.coNr) (child + comp.coNr)
      (target + ((kids.take comp.coNr).map (·.doTargetNr)).sum) fuel
      (fun c hc => htype c (List.mem_cons_of_mem _ hc)) (fun c hc => hpos c (List.mem_cons_of_mem _ hc))
      ⟨rest, by rw [← List.drop_drop, hrest, List.drop_append_of_le_length hnr]⟩
      (htargets.drop comp.coNr) (by simp at hsum ⊢; omega) (by simp at hfuel; omega)
    rw [List.map_take, List.map_drop] at hrest'
    rw [hF, List.length_cons, hstep, hrest']
    simp [F', below]

/-! ### Positions of the layers in the domain array -/

section Positions

variable {α : Type*}

/-- Where layer `j` starts in the concatenation stands its first element. -/
theorem getD_flatten_start {Ms : List (List α)} {j : ℕ} (hj : j < Ms.length)
    (hne : Ms.getD j [] ≠ []) (d : α) :
    Ms.flatten.getD ((Ms.map List.length).take j).sum d = (Ms.getD j []).headD d := by
  rw [List.getD_eq_getElem _ _ hj] at hne ⊢
  rw [List.getD_eq_getElem?_getD, ← List.head?_drop, List.drop_sum_flatten,
    List.drop_eq_getElem_cons hj]
  obtain ⟨x, xs, hx⟩ := List.exists_cons_of_ne_nil hne
  rw [List.flatten_cons, hx]
  rfl

/-- Lists of lists of the same lengths have layers of the same lengths. -/
theorem length_getD_of_map_length {β : Type*} {Ms : List (List α)} {Ns : List (List β)}
    (h : Ms.map List.length = Ns.map List.length) (j : ℕ) :
    (Ms.getD j []).length = (Ns.getD j []).length := by
  induction Ms generalizing Ns j with
  | nil => cases Ns with
    | nil => rfl
    | cons N Ns => simp at h
  | cons M Ms ih => cases Ns with
    | nil => simp at h
    | cons N Ns =>
      simp only [List.map_cons, List.cons.injEq] at h
      cases j with
      | zero => exact h.1
      | succ j => exact ih h.2 j

theorem exists_cons_cons_of_two_le {l : List α} (h : 2 ≤ l.length) : ∃ a b t, l = a :: b :: t := by
  rcases l with _ | ⟨a, _ | ⟨b, t⟩⟩
  · simp at h
  · simp at h
  · exact ⟨a, b, t, rfl⟩

end Positions

theorem map_length_layerDomains : ∀ (start : ℕ) (ls : List (List PoolComponent)),
    (layerDomains start ls).map List.length = ls.map List.length
  | _, [] => rfl
  | _, [ranks] => by simp [layerDomains]
  | start, layer :: next :: rest => by
    rw [layerDomains_cons_cons, List.map_cons, map_length_layerDomains, length_innerDomains]
    rfl

@[simp]
theorem length_layerDomains (start : ℕ) (ls : List (List PoolComponent)) :
    (layerDomains start ls).length = ls.length := by
  simpa using congrArg List.length (map_length_layerDomains start ls)

/-- A layer above the last takes its children from the start of the next, and its targets from
theirs. -/
theorem layerDomains_getD_inner : ∀ (ls : List (List PoolComponent)) (start j : ℕ),
    j + 1 < ls.length →
    (layerDomains start ls).getD j [] =
      innerDomains (ls.getD j []) (start + ((ls.map List.length).take (j + 1)).sum) 0
        (((layerDomains start ls).getD (j + 1) []).map (·.doTargetNr))
  | [], _, _, h => absurd h (by simp)
  | [_], _, _, h => absurd h (by simp)
  | layer :: next :: rest, start, 0, _ => by
    rw [layerDomains_cons_cons]
    cases hrest : layerDomains (start + layer.length) (next :: rest) with
    | nil =>
      have hlen := congrArg List.length hrest
      simp at hlen
    | cons first others => simp
  | layer :: next :: rest, start, j + 1, h => by
    rw [layerDomains_cons_cons, List.getD_cons_succ, List.getD_cons_succ,
      layerDomains_getD_inner (next :: rest) (start + layer.length) j (by simp at h ⊢; omega)]
    simp [Nat.add_assoc]

/-- The last layer is that of the ranks. -/
theorem layerDomains_getD_last : ∀ (ls : List (List PoolComponent)) (start : ℕ),
    ls ≠ [] → (layerDomains start ls).getD (ls.length - 1) [] = rankDomains (ls.getLastD []) 0
  | [], _, h => absurd rfl h
  | [ranks], _, _ => rfl
  | layer :: next :: rest, start, _ => by
    have hrest := layerDomains_getD_last (next :: rest) (start + layer.length) (List.cons_ne_nil _ _)
    rw [List.length_cons, Nat.add_sub_cancel] at hrest
    rw [layerDomains_cons_cons, List.length_cons, List.length_cons, Nat.add_sub_cancel,
      List.getD_cons_succ, hrest]
    rfl

theorem unfillTop_getD : ∀ (m : ℕ) (Ls : List (List PoolDomain)) (j : ℕ),
    (unfillTop m Ls).getD j [] =
      if j < m then (Ls.getD j []).map PoolDomain.unfilled else Ls.getD j []
  | _, [], _ => by simp [unfillTop]
  | 0, L :: Ls, j => by simp
  | m + 1, L :: Ls, 0 => by simp [unfillTop_succ_cons]
  | m + 1, L :: Ls, j + 1 => by
    rw [unfillTop_succ_cons, List.getD_cons_succ, unfillTop_getD m Ls j, List.getD_cons_succ]
    simp

theorem map_length_unfillTop (m : ℕ) (Ls : List (List PoolDomain)) :
    (unfillTop m Ls).map List.length = Ls.map List.length := by
  have hlen : (List.length ∘ List.map PoolDomain.unfilled) = List.length :=
    funext fun l => List.length_map _
  rw [unfillTop, List.map_append, List.map_map, hlen, ← List.map_append, List.take_append_drop]

@[simp]
theorem length_unfillTop (m : ℕ) (Ls : List (List PoolDomain)) :
    (unfillTop m Ls).length = Ls.length := by
  simpa using congrArg List.length (map_length_unfillTop m Ls)

/-- The domain array around layer `m`, before and after the second pass sets it up. -/
theorem flatten_unfillTop_succ {Ls : List (List PoolDomain)} {m : ℕ} (hm : m < Ls.length) :
    (unfillTop (m + 1) Ls).flatten = ((Ls.take m).map (List.map PoolDomain.unfilled)).flatten ++
      (Ls.getD m []).map PoolDomain.unfilled ++ (Ls.drop (m + 1)).flatten := by
  rw [unfillTop, List.take_add_one, List.getElem?_eq_getElem hm, Option.toList_some,
    List.map_append, List.flatten_append, List.flatten_append, List.map_singleton,
    List.flatten_singleton, List.getD_eq_getElem _ _ hm]

theorem flatten_unfillTop {Ls : List (List PoolDomain)} {m : ℕ} (hm : m < Ls.length) :
    (unfillTop m Ls).flatten = ((Ls.take m).map (List.map PoolDomain.unfilled)).flatten ++
      Ls.getD m [] ++ (Ls.drop (m + 1)).flatten := by
  rw [unfillTop, List.drop_eq_getElem_cons hm, List.flatten_append, List.flatten_cons,
    List.getD_eq_getElem _ _ hm, List.append_assoc]

theorem length_getD_layerDomains (start : ℕ) (Cs : List (List PoolComponent)) (j : ℕ) :
    ((layerDomains start Cs).getD j []).length = (Cs.getD j []).length :=
  length_getD_of_map_length (map_length_layerDomains start Cs) j

/-- Every layer takes its targets one after the other from the first target on. -/
theorem targetsFrom_layerDomains {Cs : List (List PoolComponent)} {j : ℕ} (hj : j < Cs.length) :
    TargetsFrom 0 ((layerDomains 0 Cs).getD j []) := by
  by_cases hinner : j + 1 < Cs.length
  · rw [layerDomains_getD_inner Cs 0 j hinner]
    exact targetsFrom_innerDomains _ _ _ _
  · have hlast : j = Cs.length - 1 := by omega
    rw [hlast, layerDomains_getD_last Cs 0 (List.ne_nil_of_length_pos (by omega))]
    exact targetsFrom_rankDomains _ _

theorem length_flatten_unfillTop (m : ℕ) (Cs : List (List PoolComponent)) :
    (unfillTop m (layerDomains 0 Cs)).flatten.length = (Cs.map List.length).sum := by
  rw [List.length_flatten, map_length_unfillTop, map_length_layerDomains]

/-- The component layers of a tree, the root's first, as the second pass of `pool_buf_parse`
needs them: not empty, of one type each, the types of adjacent layers different, the child
counts of a layer adding up to the size of the next, and positive above the last. -/
structure Chained (Cs : List (List PoolComponent)) : Prop where
  layer_ne : ∀ l ∈ Cs, l ≠ []
  uniform : ∀ l ∈ Cs, ∀ comp ∈ l, comp.coType = layerType l
  types : (Cs.map layerType).IsChain (· ≠ ·)
  children : ChildCounts Cs
  children_pos : ∀ l ∈ Cs.dropLast, ∀ comp ∈ l, 0 < comp.coNr

section Build

variable {Cs : List (List PoolComponent)} (hC : Chained Cs)
include hC

theorem Chained.getD_ne {j : ℕ} (hj : j < Cs.length) : Cs.getD j [] ≠ [] := by
  rw [List.getD_eq_getElem _ _ hj]
  exact hC.layer_ne _ (List.getElem_mem hj)

theorem Chained.layerDomains_ne {j : ℕ} (hj : j < Cs.length) :
    (layerDomains 0 Cs).getD j [] ≠ [] := by
  apply List.ne_nil_of_length_pos
  rw [length_getD_layerDomains]
  exact List.length_pos_of_ne_nil (hC.getD_ne hj)

theorem Chained.types_ne {j : ℕ} (hj : j + 1 < Cs.length) :
    layerType (Cs.getD j []) ≠ layerType (Cs.getD (j + 1) []) := by
  have h := List.isChain_iff_getElem.mp hC.types j (by simpa using hj)
  rw [List.getD_eq_getElem _ _ (show j < Cs.length by omega), List.getD_eq_getElem _ _ hj]
  simpa using h

theorem Chained.childCount {j : ℕ} (hj : j + 1 < Cs.length) :
    ((Cs.getD j []).map (·.coNr)).sum = (Cs.getD (j + 1) []).length := by
  have h := List.isChain_iff_getElem.mp hC.children j hj
  rw [List.getD_eq_getElem _ _ (show j < Cs.length by omega), List.getD_eq_getElem _ _ hj]
  exact h

theorem Chained.childCount_pos {j : ℕ} (hj : j + 1 < Cs.length) :
    ∀ comp ∈ Cs.getD j [], 0 < comp.coNr := by
  have hmem : Cs.getD j [] ∈ Cs.dropLast := by
    rw [List.getD_eq_getElem _ _ (show j < Cs.length by omega), ← List.getElem_dropLast]
    · exact List.getElem_mem _
    · simp; omega
  exact hC.children_pos _ hmem

theorem Chained.uniform_getD (j : ℕ) : ∀ comp ∈ Cs.getD j [], comp.coType = layerType (Cs.getD j []) := by
  intro comp hcomp
  by_cases hj : j < Cs.length
  · rw [List.getD_eq_getElem _ _ hj] at hcomp ⊢
    exact hC.uniform _ (List.getElem_mem hj) comp hcomp
  · rw [List.getD_eq_default _ _ (by omega)] at hcomp
    simp at hcomp

theorem Chained.head_doTargets {j : ℕ} (hj : j < Cs.length) :
    (((layerDomains 0 Cs).getD j []).headD {}).doTargets = some 0 :=
  (targetsFrom_layerDomains hj).head (hC.layerDomains_ne hj)

theorem Chained.head_doChildren {j : ℕ} (hj : j + 1 < Cs.length) :
    (((layerDomains 0 Cs).getD j []).headD {}).doChildren =
      some ((Cs.map List.length).take (j + 1)).sum := by
  rw [layerDomains_getD_inner Cs 0 j hj]
  obtain ⟨c, cs, hc⟩ := List.exists_cons_of_ne_nil (hC.getD_ne (show j < Cs.length by omega))
  rw [hc, innerDomains, Nat.zero_add]
  rfl

theorem Chained.head_type {j : ℕ} (hj : j < Cs.length) :
    (((layerDomains 0 Cs).getD j []).headD {}).doComp.coType = layerType (Cs.getD j []) := by
  obtain ⟨c, cs, hc⟩ := List.exists_cons_of_ne_nil (hC.getD_ne hj)
  by_cases hinner : j + 1 < Cs.length
  · rw [layerDomains_getD_inner Cs 0 j hinner, hc]
    rfl
  · have hlast : j = Cs.length - 1 := by omega
    have hlastD : Cs.getLastD [] = Cs.getD j [] := by
      rw [List.getLastD_eq_getLast?, List.getLast?_eq_getElem?, hlast,
        List.getD_eq_getElem?_getD]
    rw [hlast, layerDomains_getD_last Cs 0 (List.ne_nil_of_length_pos (by omega)), hlastD, ← hlast,
      hc]
    rfl

/-- The first domain of layer `j` in the array with the first `m` layers without targets. -/
theorem Chained.getD_start (m : ℕ) {j : ℕ} (hj : j < Cs.length) :
    (unfillTop m (layerDomains 0 Cs)).flatten.getD ((Cs.map List.length).take j).sum {} =
      if j < m then (((layerDomains 0 Cs).getD j []).headD {}).unfilled
      else ((layerDomains 0 Cs).getD j []).headD {} := by
  have hne : (unfillTop m (layerDomains 0 Cs)).getD j [] ≠ [] := by
    rw [unfillTop_getD]
    split_ifs
    · simpa using hC.layerDomains_ne hj
    · exact hC.layerDomains_ne hj
  rw [← map_length_layerDomains 0 Cs, ← map_length_unfillTop m,
    getD_flatten_start (by simpa using hj) hne, unfillTop_getD]
  obtain ⟨d, ds, hd⟩ := List.exists_cons_of_ne_nil (hC.layerDomains_ne hj)
  split_ifs
  · rw [hd]
    rfl
  · rw [hd]

/-- The descent of the second pass from layer `j` ends at the last layer without targets and
the first layer with them. -/
theorem Chained.parseDescend_unfillTop {m : ℕ} (hm : m < Cs.length) (k : ℕ) :
    ∀ j fuel, j + 1 + k = m → k < fuel →
      parseDescend (unfillTop m (layerDomains 0 Cs)).flatten fuel
          ((Cs.map List.length).take j).sum =
        .ok (((Cs.map List.length).take (m - 1)).sum, ((Cs.map List.length).take m).sum) := by
  induction k with
  | zero =>
    intro j fuel hj hfuel
    obtain ⟨fuel, rfl⟩ : ∃ f, fuel = f + 1 := ⟨fuel - 1, by omega⟩
    have hcur := hC.getD_start m (show j < Cs.length by omega)
    have hnext := hC.getD_start m (show j + 1 < Cs.length by omega)
    rw [if_pos (by omega)] at hcur
    rw [if_neg (by omega)] at hnext
    simp only [parseDescend, hcur, PoolDomain.unfilled, hC.head_doChildren (show j + 1 < Cs.length by omega),
      hnext, hC.head_doTargets (show j + 1 < Cs.length by omega), Option.isSome_some, if_true]
    rw [show m - 1 = j by omega, show m = j + 1 by omega]
  | succ k ih =>
    intro j fuel hj hfuel
    obtain ⟨fuel, rfl⟩ : ∃ f, fuel = f + 1 := ⟨fuel - 1, by omega⟩
    have hcur := hC.getD_start m (show j < Cs.length by omega)
    have hnext := hC.getD_start m (show j + 1 < Cs.length by omega)
    rw [if_pos (by omega)] at hcur hnext
    simp only [parseDescend, hcur, PoolDomain.unfilled, hC.head_doChildren (show j + 1 < Cs.length by omega),
      hnext, Option.isSome_none, Bool.false_eq_true, if_false]
    exact ih (j + 1) fuel (by omega) (by omega)

/-- The second pass sets up the lowest layer without targets. -/
theorem Chained.parseFillLayer_unfillTop {m : ℕ} (hm : m + 1 < Cs.length) (fuel : ℕ)
    (hfuel : (Cs.getD m []).length < fuel) :
    parseFillLayer (layerType (Cs.getD m [])) fuel (unfillTop (m + 1) (layerDomains 0 Cs)).flatten
        ((Cs.map List.length).take m).sum ((Cs.map List.length).take (m + 1)).sum =
      .ok (unfillTop m (layerDomains 0 Cs)).flatten := by
  have hmL : m < (layerDomains 0 Cs).length := by simp; omega
  have hnext : m + 1 < (layerDomains 0 Cs).length := by simp; omega
  set A := (((layerDomains 0 Cs).take m).map (List.map PoolDomain.unfilled)).flatten
  have hA : A.length = ((Cs.map List.length).take m).sum := by
    rw [List.length_flatten, List.map_map]
    have hlen : (List.length ∘ List.map PoolDomain.unfilled) = List.length :=
      funext fun l => List.length_map _
    rw [hlen, List.map_take, map_length_layerDomains]
  have hS : ((Cs.map List.length).take (m + 1)).sum = A.length + (Cs.getD m []).length + 0 := by
    rw [hA, List.take_add_one, List.sum_append, List.getElem?_map,
      List.getElem?_eq_getElem (show m < Cs.length by omega),
      List.getD_eq_getElem _ _ (show m < Cs.length by omega)]
    simp
  have hB : ((layerDomains 0 Cs).drop (m + 1)).flatten =
      (layerDomains 0 Cs).getD (m + 1) [] ++ ((layerDomains 0 Cs).drop (m + 2)).flatten := by
    rw [List.drop_eq_getElem_cons hnext, List.flatten_cons, List.getD_eq_getElem _ _ hnext]
  have hkids : (layerDomains 0 Cs).getD (m + 1) [] ≠ [] :=
    hC.layerDomains_ne (show m + 1 < Cs.length by omega)
  -- the loop stops at the first domain of the next layer, of another type
  have hstop : (((layerDomains 0 Cs).drop (m + 1)).flatten.headD {}).doComp.coType ≠
      layerType (Cs.getD m []) := by
    have htype := hC.head_type (show m + 1 < Cs.length by omega)
    obtain ⟨d, ds, hd⟩ := List.exists_cons_of_ne_nil hkids
    rw [hd, List.headD_cons] at htype
    rw [hB, hd, List.cons_append, List.headD_cons, htype]
    exact (hC.types_ne hm).symm
  have key := parseFillLayer_innerDomains _ hstop (Cs.getD m []) A
    ((layerDomains 0 Cs).getD (m + 1) []) 0 (0 + ((Cs.map List.length).take (m + 1)).sum) 0 fuel
    (hC.uniform_getD m) (hC.childCount_pos hm) ⟨_, hB⟩
    (targetsFrom_layerDomains (show m + 1 < Cs.length by omega))
    (by rw [hC.childCount hm, length_getD_layerDomains]) hfuel
  rw [← hS, hA] at key
  rw [flatten_unfillTop_succ hmL, flatten_unfillTop hmL, layerDomains_getD_inner Cs 0 m hm]
  exact key

theorem Chained.length_le_sum : Cs.length ≤ (Cs.map List.length).sum := by
  have h := List.length_le_sum_of_one_le (Cs.map List.length) (by
    intro n hn
    obtain ⟨l, hl, rfl⟩ := List.mem_map.mp hn
    exact List.length_pos_of_ne_nil (hC.layer_ne l hl))
  simpa using h

/-- **The second pass of `pool_buf_parse`.** From the array with the first `m` layers without
targets, it sets up the layers bottom up and stops at the full tree. -/
theorem Chained.parseBuild_unfillTop (m : ℕ) :
    m < Cs.length → ∀ fuel, m < fuel →
      parseBuild fuel (unfillTop m (layerDomains 0 Cs)).flatten = .ok (layerDomains 0 Cs).flatten := by
  induction m with
  | zero =>
    intro hm fuel hfuel
    obtain ⟨fuel, rfl⟩ : ∃ f, fuel = f + 1 := ⟨fuel - 1, by omega⟩
    have hroot := hC.getD_start 0 hm
    rw [if_neg (by omega), unfillTop_zero] at hroot
    simp only [List.take_zero, List.sum_nil] at hroot
    simp only [parseBuild, unfillTop_zero, hroot, hC.head_doTargets hm, Option.isSome_some,
      if_true]
  | succ m ih =>
    intro hm fuel hfuel
    obtain ⟨fuel, rfl⟩ : ∃ f, fuel = f + 1 := ⟨fuel - 1, by omega⟩
    have hroot := hC.getD_start (m + 1) (show 0 < Cs.length by omega)
    rw [if_pos (by omega)] at hroot
    simp only [List.take_zero, List.sum_nil] at hroot
    have hlen := length_flatten_unfillTop (m + 1) Cs
    have hsum := hC.length_le_sum
    have hdescend := hC.parseDescend_unfillTop hm m 0
      (unfillTop (m + 1) (layerDomains 0 Cs)).flatten.length (by omega) (by omega)
    simp only [List.take_zero, List.sum_nil, Nat.add_sub_cancel] at hdescend
    have htype := hC.getD_start (m + 1) (show m < Cs.length by omega)
    rw [if_pos (by omega)] at htype
    have hlayer : (Cs.getD m []).length ≤ (Cs.map List.length).sum := by
      apply List.le_sum_of_mem
      rw [List.getD_eq_getElem _ _ (show m < Cs.length by omega)]
      exact List.mem_map_of_mem (List.getElem_mem _)
    have hfill := hC.parseFillLayer_unfillTop hm
      ((unfillTop (m + 1) (layerDomains 0 Cs)).flatten.length + 1) (by omega)
    have hrest := ih (by omega) fuel (by omega)
    simp only [parseBuild, hroot, PoolDomain.unfilled, Option.isSome_none, Bool.false_eq_true,
      if_false, hdescend, bind, Except.bind, htype, hC.head_type (show m < Cs.length by omega),
      hfill, hrest]

end Build

/-! ### The round trip -/

/-- The level types of a tree `pool_buf_parse` rebuilds: strictly decreasing, between the
targets and the root, the ranks last and domains above them, and at the top a group level
not followed by another, or a single node level. -/
structure ParsedLevels (types : List ℕ) : Prop where
  desc : types.IsChain (· > ·)
  range : ∀ t ∈ types, poCompTpTarget < t ∧ t < poCompTpRoot
  last : types.getLast? = some poCompTpRank
  domains : ∀ t ∈ types.dropLast, t ≠ poCompTpTarget ∧ t ≠ poCompTpRank
  top : (types.head? = some poCompTpGrp ∧ types[1]? ≠ some poCompTpGrp) ∨
    types = [poCompTpNode, poCompTpRank]

/-- The levels of a pool map with a domain level and no type repeated are a group level, a
node level, or both, above the ranks; `pool_buf_parse` rebuilds all three. -/
theorem poolLevels_parsed {grp : Bool} {n : ℕ} (hnodup : (poolLevels grp n).Nodup)
    (hlen : 2 ≤ (poolLevels grp n).length) : ParsedLevels (poolLevels grp n) := by
  have hcases : poolLevels grp n = [poCompTpNode, poCompTpRank] ∨
      poolLevels grp n = [poCompTpGrp, poCompTpRank] ∨
      poolLevels grp n = [poCompTpGrp, poCompTpNode, poCompTpRank] := by
    cases grp <;> rcases n with _ | _ | n
    · simp [poolLevels] at hlen
    · simp [poolLevels]
    -- a second node level repeats its type
    · simp [poolLevels, List.replicate_succ] at hnodup
    · simp [poolLevels]
    · simp [poolLevels]
    · simp [poolLevels, List.replicate_succ] at hnodup
  rcases hcases with h | h | h <;> rw [h] <;>
    exact ⟨by decide, by decide, by decide, by decide, by decide⟩

/-- The counts of a buffer of domain layers, then ranks, then targets. -/
theorem bufOf_layers {ds : List (List PoolComponent)} {ranks targets : List PoolComponent}
    (hds : ∀ l ∈ ds, ∀ comp ∈ l, comp.coType ≠ poCompTpTarget ∧ comp.coType ≠ poCompTpRank)
    (hranks : ∀ comp ∈ ranks, comp.coType = poCompTpRank)
    (htargets : ∀ comp ∈ targets, comp.coType = poCompTpTarget) :
    bufOf ((ds ++ [ranks]).flatten ++ targets) 0 =
      { pbDomainNr := (ds.map List.length).sum, pbNodeNr := ranks.length,
        pbTargetNr := targets.length, pbComps := (ds ++ [ranks]).flatten ++ targets } := by
  have hflat : ∀ comp ∈ ds.flatten, comp.coType ≠ poCompTpTarget ∧ comp.coType ≠ poCompTpRank := by
    intro comp hcomp
    obtain ⟨l, hl, hc⟩ := List.mem_flatten.mp hcomp
    exact hds l hl comp hc
  have hdom : ds.flatten.countP (fun comp =>
      comp.coType ≠ poCompTpTarget ∧ comp.coType ≠ poCompTpRank) = (ds.map List.length).sum := by
    rw [← List.length_flatten]
    exact List.countP_eq_length.mpr fun comp hc => by simpa using hflat comp hc
  simp only [bufOf, List.flatten_append, List.flatten_cons, List.flatten_nil, List.append_nil,
    List.countP_append, List.replicate_zero, hdom]
  congr 1
  · rw [List.countP_eq_zero.mpr fun comp hc => by simp [hranks comp hc],
      List.countP_eq_zero.mpr fun comp hc => by simp [htargets comp hc]]
    simp
  · rw [List.countP_eq_zero.mpr fun comp hc => by simp [(hflat comp hc).2],
      List.countP_eq_length.mpr fun comp hc => by simp [hranks comp hc, poCompTpRank, poCompTpTarget],
      List.countP_eq_zero.mpr fun comp hc => by simp [htargets comp hc]]
    simp
  · rw [List.countP_eq_zero.mpr fun comp hc => by simpa using (hflat comp hc).1,
      List.countP_eq_zero.mpr fun comp hc => by simp [hranks comp hc, poCompTpRank, poCompTpTarget],
      List.countP_eq_length.mpr fun comp hc => by simp [htargets comp hc]]
    simp

section Layout

variable {pl : PoolLayers}

theorem PoolLayers.Wf.layerTypes (hwf : pl.Wf) (hlev : ParsedLevels (pl.layers.map layerType)) :
    LayerTypes pl.layers :=
  ⟨hwf.layer_ne, hwf.uniform, hlev.desc, fun _ hl => hlev.range _ (List.mem_map_of_mem hl)⟩

/-- The layers under the root `pool_buf_parse` builds are chained as its second pass needs. -/
theorem PoolLayers.Wf.chained (hwf : pl.Wf) (hlev : ParsedLevels (pl.layers.map layerType))
    (hne : pl.layers ≠ []) : Chained ([rootComp (pl.layers.headD []).length] :: pl.layers) := by
  obtain ⟨l1, rest, hls⟩ := List.exists_cons_of_ne_nil hne
  have hl1 : l1 ≠ [] := hwf.layer_ne l1 (by rw [hls]; exact List.mem_cons_self)
  refine ⟨?_, ?_, ?_, ?_, ?_⟩
  · intro l hl
    rcases List.mem_cons.mp hl with rfl | hl
    · simp
    · exact hwf.layer_ne l hl
  · intro l hl comp hcomp
    rcases List.mem_cons.mp hl with rfl | hl
    · rw [List.mem_singleton.mp hcomp]
      rfl
    · exact hwf.uniform l hl comp hcomp
  · rw [List.map_cons, List.isChain_cons]
    refine ⟨fun t ht => ?_, hlev.desc.imp fun _ _ h => h.ne'⟩
    have hrange := hlev.range t (List.mem_of_mem_head? ht)
    show poCompTpRoot ≠ t
    omega
  · rw [hls]
    refine List.isChain_cons_cons.mpr ⟨by simp [rootComp], ?_⟩
    rw [← hls]
    exact hwf.children
  · rw [List.dropLast_cons_of_ne_nil hne]
    intro l hl comp hcomp
    rcases List.mem_cons.mp hl with rfl | hl
    · rw [List.mem_singleton.mp hcomp, hls, List.headD_cons]
      exact List.length_pos_of_ne_nil hl1
    · exact hwf.children_pos l hl comp hcomp

/-- The components of the layers and the targets are in order of non-increasing type. -/
theorem PoolLayers.Wf.sorted (hwf : pl.Wf) (hlev : ParsedLevels (pl.layers.map layerType)) :
    (pl.layers.flatten ++ pl.targets).Pairwise fun prev comp => comp.coType ≤ prev.coType := by
  have hdesc : pl.layers.Pairwise fun l l' => layerType l > layerType l' :=
    List.pairwise_map.mp hlev.desc.pairwise
  refine List.pairwise_append.mpr ⟨List.pairwise_flatten.mpr ⟨?_, ?_⟩, ?_, ?_⟩
  · intro l hl
    apply List.pairwise_of_forall_mem_list
    intro a ha b hb
    rw [hwf.uniform l hl a ha, hwf.uniform l hl b hb]
  · refine hdesc.imp_of_mem fun hl hl' hgt => ?_
    intro a ha b hb
    rw [hwf.uniform _ hl a ha, hwf.uniform _ hl' b hb]
    exact hgt.le
  · apply List.pairwise_of_forall_mem_list
    intro a ha b hb
    rw [hwf.target_type a ha, hwf.target_type b hb]
  · intro _ _ b hb
    rw [hwf.target_type b hb]
    exact Nat.zero_le _

/-- The buffer of the layers is the one attaching them and the targets in order builds. -/
theorem PoolLayers.Wf.toBuf_eq (hwf : pl.Wf) (hlev : ParsedLevels (pl.layers.map layerType))
    (hne : pl.layers ≠ []) : pl.toBuf = bufOf (pl.layers.flatten ++ pl.targets) 0 := by
  obtain ⟨ds, ranks, hsplit⟩ : ∃ ds ranks, pl.layers = ds ++ [ranks] := by
    rcases List.eq_nil_or_concat pl.layers with h | ⟨ds, ranks, h⟩
    · exact absurd h hne
    · exact ⟨ds, ranks, by simpa using h⟩
  have htypes := hlev.domains
  have hlast := hlev.last
  rw [hsplit, List.map_append, List.map_singleton, List.dropLast_concat] at htypes
  rw [hsplit, List.map_append, List.map_singleton, List.getLast?_concat, Option.some_inj] at hlast
  have hmem : ∀ l ∈ pl.layers, ∀ comp ∈ l, comp.coType = layerType l := hwf.uniform
  rw [hsplit] at hmem
  have hbuf := bufOf_layers
    (fun l hl comp hc => by
      rw [hmem l (List.mem_append_left _ hl) comp hc]
      exact htypes _ (List.mem_map_of_mem hl))
    (fun comp hc => by rw [hmem ranks (by simp) comp hc, hlast]) hwf.target_type
  rw [← hsplit] at hbuf
  rw [hbuf, PoolLayers.toBuf, hsplit, List.dropLast_concat, List.getLastD_concat]

theorem PoolLayers.Wf.toBuf_pbNr (hwf : pl.Wf) (hlev : ParsedLevels (pl.layers.map layerType))
    (hne : pl.layers ≠ []) : pl.toBuf.pbNr = pl.toBuf.attachedNr := by
  rw [hwf.toBuf_eq hlev hne, attachedNr_bufOf]
  simp [PoolBuf.pbNr, bufOf]

/-- The domains and ranks of the buffer are the components of the layers. -/
theorem PoolLayers.Wf.toBuf_size (hwf : pl.Wf) (hlev : ParsedLevels (pl.layers.map layerType))
    (hne : pl.layers ≠ []) :
    pl.toBuf.pbDomainNr + pl.toBuf.pbNodeNr = pl.layers.flatten.length := by
  have h := hwf.toBuf_pbNr hlev hne
  simp only [PoolBuf.pbNr, PoolBuf.attachedNr, PoolLayers.toBuf, List.length_append] at h ⊢
  omega

end Layout

/-- The root of a map with a domain level, and the domains below it. -/
theorem flatten_layerDomains_root (n : ℕ) (l1 : List PoolComponent)
    (rest : List (List PoolComponent)) :
    (layerDomains 0 ([rootComp n] :: l1 :: rest)).flatten =
      { doComp := rootComp n, doChildren := some 1, doTargets := some 0,
        doTargetNr := ((((layerDomains 1 (l1 :: rest)).headD []).map (·.doTargetNr)).take n).sum } ::
        (layerDomains 1 (l1 :: rest)).flatten := rfl

section RoundTrip

variable {pl : PoolLayers} (hwf : pl.Wf) (hlev : ParsedLevels (pl.layers.map layerType))
include hwf hlev

/-- **`pool_buf_extract`** of a map with a domain level writes the components level by level,
then the targets. -/
theorem PoolLayers.Wf.poolBufExtract_toMap (hlen : 2 ≤ pl.layers.length) :
    poolBufExtract pl.toMap = .ok pl.toBuf := by
  obtain ⟨l1, l2, rest, hls⟩ := exists_cons_cons_of_two_le hlen
  have hne : pl.layers ≠ [] := by simp [hls]
  have hC := hwf.chained hlev hne
  obtain ⟨c, cs, hc⟩ := List.exists_cons_of_ne_nil (hwf.layer_ne l1 (by simp [hls]))
  obtain ⟨root, hroot, htree⟩ : ∃ root : PoolDomain, root.doTargets = some 0 ∧
      pl.toMap.poTree = [root] ++ (layerDomains [root].length pl.layers).flatten := by
    have h : pl.toMap.poTree = (layerDomains 0 ([rootComp l1.length] :: l1 :: l2 :: rest)).flatten := by
      rw [PoolLayers.toMap, hls, List.headD_cons]
    rw [flatten_layerDomains_root] at h
    exact ⟨_, rfl, by rw [h, hls]; rfl⟩
  have hchild : (pl.toMap.domain 1).doChildren = some (1 + l1.length) := by
    rw [PoolMap.domain, htree, hls, hc]
    rfl
  have hfuel : pl.layers.length ≤ pl.toMap.poTree.length := by
    have h := length_flatten_unfillTop 0 ([rootComp (pl.layers.headD []).length] :: pl.layers)
    rw [unfillTop_zero] at h
    have hsum := hC.length_le_sum
    simp only [PoolLayers.toMap, List.length_cons] at h hsum ⊢
    omega
  -- the counts of `pool_tree_count`, then the layers and the root's targets
  have hcount : poolTreeCount pl.toMap =
      .ok ⟨l1.length, (pl.layers.map List.length).sum, pl.targets.length, pl.layers.length⟩ := by
    have h := poolTreeCountLoop_layerDomains pl.layers [root] pl.toMap.poTree.length
      ⟨l1.length, l1.length, 0, 0⟩ hne hwf.layer_ne hwf.children hfuel htree
    rw [hwf.targets, List.length_singleton, hls, List.headD_cons] at h
    simp only [poolTreeCount, topDomNr, hchild, Nat.add_sub_cancel_left, Except.bind, h]
    simp [hls]
  have hlayers := poolBufExtractLayers_layerDomains pl.layers [root] pl.toMap.poTree.length
    (poolBufAlloc ((pl.layers.map List.length).sum + pl.targets.length)) hne hwf.layer_ne
    hwf.children hfuel htree
  rw [List.length_singleton, hls, List.headD_cons, ← hls] at hlayers
  have htargets : rootTargets pl.toMap pl.targets.length = .ok pl.targets := by
    have hdom : pl.toMap.domain 0 = root := by
      rw [PoolMap.domain, htree]
      rfl
    rw [rootTargets, hdom, hroot]
    simp [PoolLayers.toMap]
  have hbuf : attachEach (attachEach (poolBufAlloc ((pl.layers.map List.length).sum +
      pl.targets.length)) pl.layers.flatten) pl.targets = pl.toBuf := by
    rw [← attachEach_append, poolBufAlloc_eq_bufOf,
      attachEach_bufOf _ (by simpa using hwf.sorted hlev) (by simp [List.length_flatten]),
      hwf.toBuf_eq hlev hne]
    simp [List.length_flatten]
  have hnr := hwf.toBuf_pbNr hlev hne
  have hsize : (pl.layers.map List.length).sum + pl.targets.length ≠ 0 := by
    have := List.length_pos_of_ne_nil hwf.targets_ne
    omega
  simp only [poolBufExtract, hcount, bind, Except.bind, hsize, if_false, pure, Except.pure,
    hlayers, htargets, hbuf, hnr, ne_eq, not_true_eq_false]

/-- The root `pool_buf_parse` sets up from the buffer of a map with a domain level: the first
layer for children, and no targets yet. -/
theorem PoolLayers.Wf.parseRoot_toBuf (hlen : 2 ≤ pl.layers.length) :
    parseRoot pl.toBuf =
      { doComp := rootComp (pl.layers.headD []).length, doChildren := some 1 } := by
  obtain ⟨l1, l2, rest, hls⟩ := exists_cons_cons_of_two_le hlen
  obtain ⟨c, cs, hc⟩ := List.exists_cons_of_ne_nil (hwf.layer_ne l1 (by simp [hls]))
  obtain ⟨d, ds, hd⟩ := List.exists_cons_of_ne_nil (hwf.layer_ne l2 (by simp [hls]))
  have hc1 : c.coType = layerType l1 := hwf.uniform l1 (by simp [hls]) c (by simp [hc])
  have hdomains : pl.toBuf.pbDomainNr ≠ 0 := by
    simp [PoolLayers.toBuf, hls, hc, List.dropLast_cons_cons]
  have hfirst : pl.toBuf.pbComps.getD 0 {} = c := by
    simp [PoolLayers.toBuf, hls, hc]
  rcases hlev.top with ⟨hgrp, hnext⟩ | hnode
  · -- a group level: its run is the first layer, the next level being of another type
    rw [hls] at hgrp hnext
    have hd1 : d.coType ≠ poCompTpGrp := by
      rw [hwf.uniform l2 (by simp [hls]) d (by simp [hd])]
      simpa using hnext
    have hrun : (pl.toBuf.pbComps.drop 1).takeWhile (fun comp => comp.coType = poCompTpGrp) =
        cs := by
      have hcs : ∀ comp ∈ cs, decide (comp.coType = poCompTpGrp) = true := by
        intro comp hcomp
        rw [hwf.uniform l1 (by simp [hls]) comp (by simp [hc, hcomp])]
        simpa using hgrp
      have hdrop : pl.toBuf.pbComps.drop 1 = cs ++ d :: (ds ++ (rest.flatten ++ pl.targets)) := by
        simp [PoolLayers.toBuf, hls, hc, hd]
      rw [hdrop, List.takeWhile_append_of_pos hcs, List.takeWhile_cons_of_neg (by simpa using hd1),
        List.append_nil]
    have htype : c.coType = poCompTpGrp := by
      rw [hc1]
      simpa using hgrp
    simp only [parseRoot, hdomains, hfirst, htype, hrun, if_false, if_true, rootComp, hls, hc,
      List.headD_cons, List.length_cons]
    rw [Nat.add_comm]
  · -- a node level alone: the domains are the first layer
    rw [hls] at hnode
    have hrest : rest = [] := by simpa using congrArg List.length hnode
    have htype : c.coType = poCompTpNode := by
      rw [hc1]
      simp only [List.map_cons, List.cons.injEq] at hnode
      exact hnode.1
    have hnr : pl.toBuf.pbDomainNr = l1.length := by
      simp [PoolLayers.toBuf, hls, hrest]
    simp only [parseRoot, hdomains, if_false]
    simp only [hfirst, htype, hnr, if_true, rootComp, hls, List.headD_cons,
      show poCompTpNode ≠ poCompTpGrp by decide, if_false]

/-- The first pass of `pool_buf_parse` over the buffer of a map with a domain level leaves the
domains of the map, none of them with targets but the ranks. -/
theorem PoolLayers.Wf.parseComps_toBuf (hlen : 2 ≤ pl.layers.length) :
    parseComps pl.toBuf.pbComps
        (parseRoot pl.toBuf :: List.replicate (pl.toBuf.pbDomainNr + pl.toBuf.pbNodeNr) {}) 1
        (layerType (pl.layers.headD [])) 0 1 =
      .ok (unfillTop pl.layers.length
        (layerDomains 0 ([rootComp (pl.layers.headD []).length] :: pl.layers))).flatten := by
  obtain ⟨l1, l2, rest, hls⟩ := exists_cons_cons_of_two_le hlen
  have hne : pl.layers ≠ [] := by simp [hls]
  have htypes : LayerTypes (l1 :: l2 :: rest) := hls ▸ hwf.layerTypes hlev
  have hsize := hwf.toBuf_size hlev hne
  have hcomps : pl.toBuf.pbComps = l1 ++ ((l2 :: rest).flatten ++ pl.targets) := by
    simp [PoolLayers.toBuf, hls]
  have hfree : pl.layers.flatten.length - l1.length = ((l2 :: rest).map List.length).sum := by
    simp [hls, List.length_flatten]
  -- the first layer is copied, and each change of type sets up the layer before
  have hrun := parseComps_run (htypes.range l1 List.mem_cons_self).2 l1
    [{ doComp := rootComp l1.length, doChildren := some 1 }] pl.layers.flatten.length
    ((l2 :: rest).flatten ++ pl.targets) 1 0 (htypes.uniform l1 List.mem_cons_self)
    (by simp [hls])
  have hlayers := parseComps_layers hwf.targets_ne
    (fun comp hcomp => hwf.target_type comp (List.mem_of_mem_head? hcomp)) (l2 :: rest)
    [{ doComp := rootComp l1.length, doChildren := some 1 }] l1 htypes
  rw [List.length_singleton, hfree, List.singleton_append] at hrun
  rw [List.length_singleton] at hlayers
  have hhead : pl.layers.headD [] = l1 := by rw [hls, List.headD_cons]
  rw [hwf.parseRoot_toBuf hlev hlen, hsize, hcomps, hhead, hrun, hlayers, hls,
    layerDomains_cons_cons, List.length_cons, unfillTop_succ_cons, List.flatten_cons]
  rfl

/-- **`pool_buf_parse`** of the buffer of a map with a domain level rebuilds the map. -/
theorem PoolLayers.Wf.poolBufParse_toBuf (hlen : 2 ≤ pl.layers.length) :
    poolBufParse pl.toBuf = .ok pl.toMap := by
  obtain ⟨l1, l2, rest, hls⟩ := exists_cons_cons_of_two_le hlen
  have hne : pl.layers ≠ [] := by simp [hls]
  have hC := hwf.chained hlev hne
  obtain ⟨c, cs, hc⟩ := List.exists_cons_of_ne_nil (hwf.layer_ne l1 (by simp [hls]))
  have hfirst : pl.toBuf.pbComps.getD 0 {} = c := by
    simp [PoolLayers.toBuf, hls, hc]
  have hc1 : c.coType = layerType (pl.layers.headD []) := by
    rw [hls, List.headD_cons]
    exact hwf.uniform l1 (by simp [hls]) c (by simp [hc])
  -- the checks of `pool_buf_parse` pass
  have hranks : pl.toBuf.pbNodeNr ≠ 0 := by
    have hmem : pl.layers.getLastD [] ∈ pl.layers := by
      rw [List.getLastD_eq_getLast?, List.getLast?_eq_some_getLast hne]
      exact List.getLast_mem hne
    exact List.length_pos_of_ne_nil (hwf.layer_ne _ hmem) |>.ne'
  have hcounts : ¬(pl.toBuf.pbTargetNr = 0 ∨ pl.toBuf.pbNodeNr = 0 ∨
      pl.toBuf.attachedNr ≠ pl.toBuf.pbNr) := by
    have htargets : pl.toBuf.pbTargetNr ≠ 0 := List.length_pos_of_ne_nil hwf.targets_ne |>.ne'
    have hnr := hwf.toBuf_pbNr hlev hne
    omega
  have htop : ¬(pl.toBuf.pbDomainNr ≠ 0 ∧ c.coType ≠ poCompTpGrp ∧ c.coType ≠ poCompTpNode) := by
    have hhead : (pl.layers.map layerType).head? = some (layerType (pl.layers.headD [])) := by
      simp [hls]
    rw [hc1]
    rcases hlev.top with ⟨hgrp, _⟩ | hnode
    · rw [hhead, Option.some_inj] at hgrp
      exact fun h => h.2.1 hgrp
    · rw [hnode, List.head?_cons, Option.some_inj] at hhead
      exact fun h => h.2.2 hhead.symm
  have htargets : (pl.toBuf.pbComps.drop (pl.toBuf.pbDomainNr + pl.toBuf.pbNodeNr)).take
      pl.toBuf.pbTargetNr = pl.targets := by
    rw [hwf.toBuf_size hlev hne]
    simp [PoolLayers.toBuf]
  -- the second pass runs from the tree of the first
  have hfuel : pl.layers.length <
      (unfillTop pl.layers.length
        (layerDomains 0 ([rootComp (pl.layers.headD []).length] :: pl.layers))).flatten.length + 1 := by
    have hsum := hC.length_le_sum
    rw [length_flatten_unfillTop]
    simp only [List.length_cons] at hsum
    omega
  have hbuild := hC.parseBuild_unfillTop pl.layers.length (by simp) _ hfuel
  simp only [poolBufParse, hfirst, if_neg hcounts, if_neg htop]
  rw [hc1, hwf.parseComps_toBuf hlev hlen]
  simp only [Except.bind, hbuild, Except.map, htargets]
  rfl

end RoundTrip

/-- **Extract, then parse.** For every map laid out level by level with consistent counts,
with a domain level and no level type repeated, `pool_buf_parse` of the buffer
`pool_buf_extract` writes rebuilds the map: every component, child and target count, and the
target array. -/
theorem poolBufParse_poolBufExtract (pl : PoolLayers) (hwf : pl.Wf)
    (hnodup : (pl.layers.map layerType).Nodup) (hlen : 2 ≤ pl.layers.length) :
    (poolBufExtract pl.toMap).bind poolBufParse = .ok pl.toMap := by
  obtain ⟨grp, n, hlevels⟩ := hwf.levels
  have hlev : ParsedLevels (pl.layers.map layerType) := by
    rw [hlevels] at hnodup ⊢
    exact poolLevels_parsed hnodup (by rw [← hlevels, List.length_map]; exact hlen)
  rw [hwf.poolBufExtract_toMap hlev hlen]
  exact hwf.poolBufParse_toBuf hlev hlen

/-- Two node domains over three ranks and five targets. -/
def nodeLayers : PoolLayers :=
  ⟨[[{ coType := poCompTpNode, coNr := 2 }, { coType := poCompTpNode, coId := 1, coNr := 1 }],
    [{ coType := poCompTpRank, coNr := 2 }, { coType := poCompTpRank, coId := 1, coNr := 1 },
     { coType := poCompTpRank, coId := 2, coNr := 2 }]],
   [{}, { coId := 1 }, { coId := 2 }, { coId := 3 }, { coId := 4 }]⟩

theorem poolBufParse_poolBufExtract_nodeLayers :
    nodeLayers.Wf ∧ (nodeLayers.layers.map layerType).Nodup ∧ 2 ≤ nodeLayers.layers.length ∧
      (poolBufExtract nodeLayers.toMap).bind poolBufParse = .ok nodeLayers.toMap := by
  have hwf : nodeLayers.Wf :=
    ⟨⟨false, 1, by decide⟩, by decide, by decide, by decide, by decide, by decide, by decide,
      by decide⟩
  exact ⟨hwf, by decide, by decide, poolBufParse_poolBufExtract nodeLayers hwf (by decide) (by decide)⟩

/-- Two ranks of one target each, directly under the root. -/
def ranksOnlyLayers : PoolLayers :=
  ⟨[[{ coType := poCompTpRank, coNr := 1 }, { coType := poCompTpRank, coId := 1, coNr := 1 }]],
   [{}, { coId := 1 }]⟩

/-- Two node levels of one domain each, over one rank of one target. -/
def twoNodeLayers : PoolLayers :=
  ⟨[[{ coType := poCompTpNode, coNr := 1 }], [{ coType := poCompTpNode, coId := 1, coNr := 1 }],
    [{ coType := poCompTpRank, coNr := 1 }]], [{}]⟩

/-- The two layouts `pool_buf_parse` does not rebuild, though `pool_buf_extract` writes their
buffers. With the ranks under the root, the root is given all the targets and then adds its
children's again. With two node levels, the first pass sees one run of node domains, and the
root takes both as children. -/
theorem poolBufParse_poolBufExtract_mismatch :
    ranksOnlyLayers.Wf ∧ poolBufExtract ranksOnlyLayers.toMap = .ok ranksOnlyLayers.toBuf ∧
      (poolBufParse ranksOnlyLayers.toBuf).map (fun map => (map.domain 0).doTargetNr) = .ok 4 ∧
      (ranksOnlyLayers.toMap.domain 0).doTargetNr = 2 ∧
    twoNodeLayers.Wf ∧ poolBufExtract twoNodeLayers.toMap = .ok twoNodeLayers.toBuf ∧
      (poolBufParse twoNodeLayers.toBuf).map (fun map => (map.domain 0).doChildNr) = .ok 2 ∧
      (twoNodeLayers.toMap.domain 0).doChildNr = 1 :=
  ⟨⟨⟨false, 0, by decide⟩, by decide, by decide, by decide, by decide, by decide, by decide,
      by decide⟩,
    by decide, by decide, by decide,
    ⟨⟨false, 2, by decide⟩, by decide, by decide, by decide, by decide, by decide, by decide,
      by decide⟩,
    by decide, by decide, by decide⟩

end Daos.Pool

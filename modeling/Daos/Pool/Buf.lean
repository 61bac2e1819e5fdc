import Mathlib
import Daos.Pool.Map

/-!
# The pool map buffer (`common/pool_map.c`: `pool_buf_attach`, `pool_buf_extract`, `pool_buf_parse`)

A pool map travels as a `pool_buf`: its components level by level, each domain carrying its
number of children in `co_nr` (a domain of the last level, its number of targets), then the
targets. `pool_buf_extract` walks the domain array of a map layer by layer and attaches the
components one at a time; `pool_buf_parse` rebuilds the two arrays. Its first pass copies the
components and, wherever the component type changes, points the domains of the layer before at
their children or, once the targets start, at their targets. Its second pass walks down the
first children from the root to the lowest layer without targets, gives each domain of that
layer the targets of its children, and starts again until the root has them.

**What is modelled.** The three functions with every pass and check, and `pool_tree_count`.
The domain array is the list of domains; an index past its end reads a cleared domain, and a
layer past it is cut short. Where the C code would read through a `NULL` pointer or past the
buffer, the model stops with `nullDeref` or `overread`. Its loops that follow pointers carry
fuel and stop with `fuel` when it runs out. The root's `do_targets` pointer counted in units of
domains is the target index plus the length of the domain array: the target array follows the
domain array.

**The description.** `PoolLayers` gives a well-formed map level by level: the components of
each domain level, top first and the ranks last, and the targets. `PoolLayers.toMap` lays them out as the two arrays and `PoolLayers.toBuf` as a buffer.
-/

namespace Daos.Pool

/-- How a function of the pool map ends other than with its result: a return code, a failed
assertion, a read through a `NULL` pointer or past the end of the buffer, or, in the model
only, a walk out of fuel. -/
inductive PoolStop where
  | rc (code : ℤ)
  | assert (msg : String)
  | nullDeref
  | overread
  | fuel
deriving DecidableEq, Repr

/-- `struct pool_buf`: the counts of the components attached so far, and the `pb_nr` slots. -/
structure PoolBuf where
  pbDomainNr : ℕ := 0
  pbNodeNr : ℕ := 0
  pbTargetNr : ℕ := 0
  pbComps : List PoolComponent
deriving DecidableEq, Repr

/-- `pb_nr`, the number of slots. -/
def PoolBuf.pbNr (buf : PoolBuf) : ℕ :=
  buf.pbComps.length

/-- The number of components attached, `pb_domain_nr + pb_node_nr + pb_target_nr`. -/
def PoolBuf.attachedNr (buf : PoolBuf) : ℕ :=
  buf.pbDomainNr + buf.pbNodeNr + buf.pbTargetNr

/-- `pool_buf_alloc`: `nr` cleared slots. -/
def poolBufAlloc (nr : ℕ) : PoolBuf :=
  { pbComps := List.replicate nr {} }

/-- The count `pool_buf_attach` bumps for a component: targets, ranks, or domains. -/
def PoolBuf.count (buf : PoolBuf) (comp : PoolComponent) : PoolBuf :=
  if comp.coType = poCompTpTarget then { buf with pbTargetNr := buf.pbTargetNr + 1 }
  else if comp.coType = poCompTpRank then { buf with pbNodeNr := buf.pbNodeNr + 1 }
  else { buf with pbDomainNr := buf.pbDomainNr + 1 }

/-- The loop of `pool_buf_attach`: each component goes to the next slot, unless its type is
above the type of the one before it. -/
def poolBufAttachLoop : PoolBuf → List PoolComponent → ℤ × PoolBuf
  | buf, [] => (0, buf)
  | buf, comp :: comps =>
    let nr := buf.attachedNr
    if nr ≠ 0 ∧ (buf.pbComps.getD (nr - 1) {}).coType < comp.coType then (-derInval, buf)
    else poolBufAttachLoop { buf.count comp with pbComps := buf.pbComps.set nr comp } comps

/-- `pool_buf_attach`: the return code, and the buffer as the loop left it. -/
def poolBufAttach (buf : PoolBuf) (comps : List PoolComponent) : ℤ × PoolBuf :=
  if buf.pbNr < buf.attachedNr + comps.length then (-derNospace, buf)
  else poolBufAttachLoop buf comps

/-- Attaching components one at a time and ignoring the return codes, as `pool_buf_extract`
does. -/
def attachEach (buf : PoolBuf) (comps : List PoolComponent) : PoolBuf :=
  comps.foldl (fun buf comp => (poolBufAttach buf [comp]).2) buf

/-! ### Extracting a buffer from a map -/

/-- Domain `j` of the domain array; past its end, a cleared domain. -/
def PoolMap.domain (map : PoolMap) (j : ℕ) : PoolDomain :=
  map.poTree.getD j {}

/-- The `domNr` domains of the layer that starts at domain `start`. -/
def PoolMap.layer (map : PoolMap) (start domNr : ℕ) : List PoolDomain :=
  (map.poTree.drop start).take domNr

/-- The children a domain adds to the next layer: `do_child_nr` if it has children. -/
def PoolDomain.innerChildNr (dom : PoolDomain) : ℕ :=
  if dom.doChildren.isSome then dom.doChildNr else 0

/-- The targets `pool_tree_count` counts for a domain: its own if it has no children. -/
def PoolDomain.leafTargetNr (dom : PoolDomain) : ℕ :=
  if dom.doChildren.isSome then 0 else dom.doTargetNr

/-- The component `pool_buf_extract` attaches for a domain: one of the last layer carries its
number of targets in `co_nr`. -/
def PoolDomain.extractComp (dom : PoolDomain) : PoolComponent :=
  if dom.doChildren.isSome then dom.doComp else { dom.doComp with coNr := dom.doTargetNr }

/-- `struct pool_comp_cntr`. -/
structure PoolCompCntr where
  ccTopDoms : ℕ
  ccDomains : ℕ
  ccTargets : ℕ
  ccLayers : ℕ
deriving DecidableEq, Repr

/-- The loop of `pool_tree_count` over the layers, from the one of `domNr` domains that starts
at `tree`, until `tree` is `NULL`. -/
def poolTreeCountLoop (map : PoolMap) :
    ℕ → Option ℕ → ℕ → PoolCompCntr → Except PoolStop PoolCompCntr
  | _, none, _, cntr => .ok cntr
  | 0, some _, _, _ => .error .fuel
  | fuel + 1, some start, domNr, cntr =>
    let layer := map.layer start domNr
    let childNr := (layer.map PoolDomain.innerChildNr).sum
    poolTreeCountLoop map fuel (map.domain start).doChildren childNr
      { cntr with ccDomains := cntr.ccDomains + childNr,
                  ccTargets := cntr.ccTargets + (layer.map PoolDomain.leafTargetNr).sum,
                  ccLayers := cntr.ccLayers + 1 }

/-- The number of top domains `pool_tree_count` reads off the first of them: the distance to
its children or, in a tree of one layer, to its targets. -/
def topDomNr (map : PoolMap) : Except PoolStop ℕ :=
  match (map.domain 1).doChildren, (map.domain 1).doTargets with
  | some c, _ => .ok (c - 1)
  | none, some t => .ok (map.poTree.length + t - 1)
  | none, none => .error (.assert "tree[0].do_targets != NULL")

/-- `pool_tree_count` from the first domain below the root. -/
def poolTreeCount (map : PoolMap) : Except PoolStop PoolCompCntr :=
  (topDomNr map).bind fun domNr =>
    poolTreeCountLoop map map.poTree.length (some 1) domNr ⟨domNr, domNr, 0, 0⟩

/-- The loop of `pool_buf_extract` over the layers: attaches the `domNr` domains of the layer
that starts at `tree`, until a layer has no children. -/
def poolBufExtractLayers (map : PoolMap) :
    ℕ → Option ℕ → ℕ → PoolBuf → Except PoolStop PoolBuf
  | _, _, 0, buf => .ok buf
  | _, none, _ + 1, _ => .error .nullDeref
  | 0, some _, _ + 1, _ => .error .fuel
  | fuel + 1, some start, domNr + 1, buf =>
    let layer := map.layer start (domNr + 1)
    poolBufExtractLayers map fuel (map.domain start).doChildren
      (layer.map PoolDomain.innerChildNr).sum (attachEach buf (layer.map PoolDomain.extractComp))

/-- The `nr` targets of the root that `pool_buf_extract` attaches. -/
def rootTargets (map : PoolMap) (nr : ℕ) : Except PoolStop (List PoolComponent) :=
  match (map.domain 0).doTargets with
  | some t => .ok ((map.poTargets.drop t).take nr)
  | none => if nr = 0 then .ok [] else .error .nullDeref

/-- `pool_buf_extract`. -/
def poolBufExtract (map : PoolMap) : Except PoolStop PoolBuf := do
  let cntr ← poolTreeCount map
  if cntr.ccDomains + cntr.ccTargets = 0 then throw (.rc (-derNonexist))
  let buf ← poolBufExtractLayers map map.poTree.length (some 1) cntr.ccTopDoms
    (poolBufAlloc (cntr.ccDomains + cntr.ccTargets))
  let targets ← rootTargets map cntr.ccTargets
  let buf := attachEach buf targets
  if buf.pbNr ≠ buf.attachedNr then throw (.rc (-derInval))
  pure buf

/-! ### Parsing a buffer into a map -/

/-- The root `pool_buf_parse` sets up: with no domains, the ranks are its children and it
takes all the targets; otherwise its children are the leading group domains, or all the
domains when the first one is a node. -/
def parseRoot (buf : PoolBuf) : PoolDomain :=
  let comp := buf.pbComps.getD 0 {}
  if buf.pbDomainNr = 0 then
    { doComp := { coType := poCompTpRoot, coStatus := .upin, coNr := buf.pbNodeNr },
      doTargetNr := buf.pbTargetNr, doChildren := some 1 }
  else
    let childNr :=
      if comp.coType = poCompTpGrp then
        1 + ((buf.pbComps.drop 1).takeWhile fun comp => comp.coType = poCompTpGrp).length
      else if comp.coType = poCompTpNode then buf.pbDomainNr
      else 0
    { doComp := { coType := poCompTpRoot, coStatus := .upin, coNr := childNr },
      doChildren := some 1 }

/-- The inner loop of the first pass of `pool_buf_parse`: when the type changes to `type` at
domain `i`, the `n` domains from `parent` on point at their children from domain `i` on, `nr`
counting those already taken, or, when the targets start, take their targets from `targets`
on. Returns the tree and the next free target. -/
def parseParents (type i : ℕ) : ℕ → List PoolDomain → ℕ → ℕ → ℕ → List PoolDomain × ℕ
  | 0, tree, _, _, targets => (tree, targets)
  | n + 1, tree, parent, nr, targets =>
    let dom := tree.getD parent {}
    if type ≠ poCompTpTarget then
      parseParents type i n (tree.set parent { dom with doChildren := some (i + nr) })
        (parent + 1) (nr + dom.doChildNr) targets
    else
      parseParents type i n
        (tree.set parent { dom with doComp := { dom.doComp with coNr := 0 },
                                    doTargetNr := dom.doChildNr, doTargets := some targets })
        (parent + 1) nr (targets + dom.doChildNr)

/-- The first pass of `pool_buf_parse`, at domain `i` and the components from `i - 1` on:
copies the component into the domain and, at a change of type, sets up the layer before,
from `parent` on. It ends at the first target. -/
def parseComps :
    List PoolComponent → List PoolDomain → ℕ → ℕ → ℕ → ℕ → Except PoolStop (List PoolDomain)
  | [], _, _, _, _, _ => .error .overread
  | comp :: comps, tree, parent, type, targets, i =>
    let dom := tree.getD i {}
    let tree := tree.set i { dom with doComp := comp }
    if comp.coType ≥ poCompTpRoot then .error (.rc (-derInval))
    else if comp.coType = type then parseComps comps tree parent type targets (i + 1)
    else
      let (tree, targets) := parseParents comp.coType i (i - parent) tree parent 0 targets
      if comp.coType = poCompTpTarget then .ok tree
      else parseComps comps tree i comp.coType targets (i + 1)

/-- The descent of the second pass of `pool_buf_parse` along first children from domain `d`,
which has no targets: the last domain without targets, and its first child. -/
def parseDescend (tree : List PoolDomain) : ℕ → ℕ → Except PoolStop (ℕ × ℕ)
  | 0, _ => .error .fuel
  | fuel + 1, d =>
    match (tree.getD d {}).doChildren with
    | none => .error (.assert "domain->do_children != NULL")
    | some c => if (tree.getD c {}).doTargets.isSome then .ok (d, c) else parseDescend tree fuel c

/-- The loop of the second pass over a layer, from `parent` on while the type stays `type`:
each domain takes the targets of its first child, `domain`, and adds up its children's. -/
def parseFillLayer (type : ℕ) : ℕ → List PoolDomain → ℕ → ℕ → Except PoolStop (List PoolDomain)
  | 0, _, _, _ => .error .fuel
  | fuel + 1, tree, parent, domain =>
    let dom := tree.getD parent {}
    if dom.doComp.coType ≠ type then .ok tree
    else
      let kids := (tree.drop domain).take dom.doChildNr
      parseFillLayer type fuel
        (tree.set parent { dom with doTargetNr := dom.doTargetNr + (kids.map (·.doTargetNr)).sum,
                                    doTargets := (tree.getD domain {}).doTargets })
        (parent + 1) (domain + dom.doChildNr)

/-- The second pass of `pool_buf_parse`: until the root has its targets, sets up the lowest
layer without them. -/
def parseBuild : ℕ → List PoolDomain → Except PoolStop (List PoolDomain)
  | 0, _ => .error .fuel
  | fuel + 1, tree =>
    if (tree.getD 0 {}).doTargets.isSome then .ok tree
    else do
      let (parent, domain) ← parseDescend tree tree.length 0
      let tree ← parseFillLayer (tree.getD parent {}).doComp.coType (tree.length + 1) tree parent
        domain
      parseBuild fuel tree

/-- `pool_buf_parse`: the domain array and the target array of the map. -/
def poolBufParse (buf : PoolBuf) : Except PoolStop PoolMap :=
  let comp := buf.pbComps.getD 0 {}
  if buf.pbTargetNr = 0 ∨ buf.pbNodeNr = 0 ∨ buf.attachedNr ≠ buf.pbNr then
    .error (.rc (-derInval))
  else if buf.pbDomainNr ≠ 0 ∧ comp.coType ≠ poCompTpGrp ∧ comp.coType ≠ poCompTpNode then
    .error (.rc (-derInval))
  else
    let targets := (buf.pbComps.drop (buf.pbDomainNr + buf.pbNodeNr)).take buf.pbTargetNr
    let tree := parseRoot buf :: List.replicate (buf.pbDomainNr + buf.pbNodeNr) {}
    (parseComps buf.pbComps tree 1 comp.coType 0 1).bind fun tree =>
      (parseBuild (tree.length + 1) tree).map fun tree => ⟨tree, targets⟩

/-! ### Maps laid out level by level -/

/-- A map given level by level: the components of each domain level below the root, top first
and the ranks last, and the targets. A domain above the ranks carries its number of children
in `co_nr`, a rank its number of targets, as in a buffer. -/
structure PoolLayers where
  layers : List (List PoolComponent)
  targets : List PoolComponent
deriving DecidableEq, Repr

/-- The domains of a layer above the ranks: the children from `child` on, and the targets
from `target` on, as many as their children have in `below`. -/
def innerDomains : List PoolComponent → ℕ → ℕ → List ℕ → List PoolDomain
  | [], _, _, _ => []
  | comp :: comps, child, target, below =>
    let targetNr := (below.take comp.coNr).sum
    { doComp := comp, doTargetNr := targetNr, doChildren := some child,
      doTargets := some target } ::
      innerDomains comps (child + comp.coNr) (target + targetNr) (below.drop comp.coNr)

/-- The rank domains, with their targets from `target` on. -/
def rankDomains : List PoolComponent → ℕ → List PoolDomain
  | [], _ => []
  | comp :: comps, target =>
    { doComp := { comp with coNr := 0 }, doTargetNr := comp.coNr, doTargets := some target } ::
      rankDomains comps (target + comp.coNr)

/-- The domains of the layers, the first starting at domain `start`. -/
def layerDomains : ℕ → List (List PoolComponent) → List (List PoolDomain)
  | _, [] => []
  | _, [ranks] => [rankDomains ranks 0]
  | start, layer :: next :: rest =>
    let below := layerDomains (start + layer.length) (next :: rest)
    innerDomains layer (start + layer.length) 0 ((below.headD []).map (·.doTargetNr)) :: below

/-- The root component `pool_buf_parse` builds. -/
def rootComp (childNr : ℕ) : PoolComponent :=
  { coType := poCompTpRoot, coStatus := .upin, coNr := childNr }

/-- The map: the root is the one domain of a layer above the first. -/
def PoolLayers.toMap (pl : PoolLayers) : PoolMap :=
  ⟨(layerDomains 0 ([rootComp (pl.layers.headD []).length] :: pl.layers)).flatten, pl.targets⟩

/-- The buffer: the components level by level, then the targets. -/
def PoolLayers.toBuf (pl : PoolLayers) : PoolBuf :=
  { pbDomainNr := (pl.layers.dropLast.map List.length).sum,
    pbNodeNr := (pl.layers.getLastD []).length,
    pbTargetNr := pl.targets.length,
    pbComps := pl.layers.flatten ++ pl.targets }

/-- The type of a layer, that of its first component. -/
def layerType (layer : List PoolComponent) : ℕ :=
  (layer.headD {}).coType

/-- The level types of a pool map: an optional performance-group level, `n` node levels, and
the rank level. -/
def poolLevels (grp : Bool) (n : ℕ) : List ℕ :=
  (if grp then [poCompTpGrp] else []) ++ List.replicate n poCompTpNode ++ [poCompTpRank]

/-- A map laid out level by level with consistent counts: its levels are those of a pool map,
each layer holds components of its type, the child counts of a layer add up to the size of the
next and are positive, the target counts of the ranks add up to the number of targets. -/
structure PoolLayers.Wf (pl : PoolLayers) : Prop where
  levels : ∃ grp n, pl.layers.map layerType = poolLevels grp n
  layer_ne : ∀ layer ∈ pl.layers, layer ≠ []
  uniform : ∀ layer ∈ pl.layers, ∀ comp ∈ layer, comp.coType = layerType layer
  children : pl.layers.IsChain fun layer next => (layer.map (·.coNr)).sum = next.length
  children_pos : ∀ layer ∈ pl.layers.dropLast, ∀ comp ∈ layer, 0 < comp.coNr
  targets : ((pl.layers.getLastD []).map (·.coNr)).sum = pl.targets.length
  targets_ne : pl.targets ≠ []
  target_type : ∀ comp ∈ pl.targets, comp.coType = poCompTpTarget

end Daos.Pool

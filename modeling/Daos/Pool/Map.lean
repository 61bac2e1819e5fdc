import Mathlib

/-!
# Pool map components and domains (`include/daos/pool_map.h`, `common/pool_map.c`)

A pool map is a tree of components: under the root, layers of domains (an optional layer of
performance groups, node domains, then one layer of rank domains), and the targets at the
leaves. `pool_map.c` keeps the domains below the root in one array, layer after layer, so that
the domains of one type are the contiguous layer `pool_map_find_domain` returns.

**What is modelled.** The two arrays of the tree as `pool_map.c` lays them out: the domain
array with the root first, and the target array. A domain's pointers are indices into them. A
domain of the last layer points at its direct targets; any other domain points at the targets
of all its descendants, and at its first child. Component types are the `uint8_t` codes of
`pool_comp_type_t`. The fields of `struct pool_component` default to zero, as `pool_map.c`
clears them. The layer `pool_map_find_domain` returns is the run of domains of the type from
the first one. Its domain sorter counts the same domains when the layers have distinct types.
-/

namespace Daos.Pool

/-- `pool_comp_state_t`. -/
inductive PoolCompState where
  | unknown
  | new
  | up
  | upin
  | down
  | downout
  | drain
deriving DecidableEq, Repr

/-- `DER_INVAL`. -/
def derInval : ℤ := 1003

/-- `DER_NONEXIST`. -/
def derNonexist : ℤ := 1005

/-- `DER_NOSPACE`. -/
def derNospace : ℤ := 1007

/-- `PO_COMP_TP_TARGET`. -/
def poCompTpTarget : ℕ := 0

/-- `PO_COMP_TP_RANK`. -/
def poCompTpRank : ℕ := 1

/-- `PO_COMP_TP_NODE`. -/
def poCompTpNode : ℕ := 2

/-- `PO_COMP_TP_GRP`. -/
def poCompTpGrp : ℕ := 3

/-- `PO_COMP_TP_ROOT`. -/
def poCompTpRoot : ℕ := 255

/-- `PO_COMPF_DOWN2OUT`: a `DOWNOUT` component that was `DOWN` before. -/
def poCompfDown2out : ℕ := 1

/-- `DAOS_PROP_CO_REDUN_RANK`. -/
def daosPropCoRedunRank : ℕ := 1

/-- `DAOS_PROP_CO_REDUN_NODE`. -/
def daosPropCoRedunNode : ℕ := 2

/-- `struct pool_component`. -/
structure PoolComponent where
  coType : ℕ := poCompTpTarget
  coStatus : PoolCompState := .unknown
  coIndex : ℕ := 0
  coId : ℕ := 0
  coRank : ℕ := 0
  coVer : ℕ := 0
  coFseq : ℕ := 0
  coOutVer : ℕ := 0
  coFlags : ℕ := 0
  coNr : ℕ := 0
deriving DecidableEq, Repr

/-- `struct pool_domain`. `do_child_nr` is the component's `co_nr`; `do_children` and
`do_targets` are indices into the domain array and the target array, `none` standing for
`NULL`. -/
structure PoolDomain where
  doComp : PoolComponent := {}
  doTargetNr : ℕ := 0
  doChildren : Option ℕ := none
  doTargets : Option ℕ := none
deriving DecidableEq, Repr

/-- `do_child_nr`. -/
def PoolDomain.doChildNr (dom : PoolDomain) : ℕ :=
  dom.doComp.coNr

/-- `struct pool_map`: the domain array `po_tree`, the root first and then the domains layer
by layer, and the target array the domains point into. -/
structure PoolMap where
  poTree : List PoolDomain
  poTargets : List PoolComponent
deriving DecidableEq, Repr

/-- The targets of a domain, `do_targets[0 .. do_target_nr)`. -/
def PoolMap.domainTargets (map : PoolMap) (dom : PoolDomain) : List PoolComponent :=
  match dom.doTargets with
  | none => []
  | some t => (map.poTargets.drop t).take dom.doTargetNr

/-- The walk of `pool_map_find_domain` down the first children from the root, to the first
domain of the layer of type `type`. -/
def findDomainLayer (map : PoolMap) (type : ℕ) : ℕ → ℕ → Option ℕ
  | 0, _ => none
  | fuel + 1, j =>
    match map.poTree[j]? with
    | none => none
    | some dom =>
      if dom.doComp.coType = type then some j
      else
        match dom.doChildren with
        | none => none
        | some c => findDomainLayer map type fuel c

/-- `pool_map_find_domain` with `PO_COMP_ID_ALL`: the domains of the layer of type `type`. -/
def poolMapFindDomain (map : PoolMap) (type : ℕ) : List PoolDomain :=
  match findDomainLayer map type map.poTree.length 0 with
  | none => []
  | some j => (map.poTree.drop j).takeWhile fun dom => dom.doComp.coType = type

end Daos.Pool

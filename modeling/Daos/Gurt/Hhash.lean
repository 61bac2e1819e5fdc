import Mathlib
import Daos.Gurt.Heap
import Daos.Gurt.HashView

/-!
# The handle hash table — `d_hhash_*` (`gurt/hash.c`)

The DAOS client names each of its objects (event queues, pools, containers, objects, arrays,
transactions, KV objects) by a 64-bit handle. `struct d_hhash` is a `d_hash_table` of the
objects' `struct d_hlink`s keyed by their handle `hl_key`. `d_hhash_link_insert` gives a link its
handle through `hh_op_key_init`: the counter `ch_cookie`, shifted past the `D_HTYPE_BITS` low
bits, which hold the handle's type. `d_hhash_link_lookup` finds the link of a handle and takes a
reference on it; references are counted in `rl_ref`, one for the table and one per holder, and
the last one dropped calls the object's `hop_free`. A table in pointer mode (`ch_ptrtype`, the
server's) keeps no link on the table: the handle is the link's address, and a lookup reads the
link there.

**What is modelled.** Links are their addresses, `UInt64` as `uintptr_t` casts them; the memory
`HhMem` holds each address's `struct d_hlink` (its key, `rl_ref`, `rl_initialized` and whether its
`hl_ops` has a `hop_free`), the counter `ch_cookie`, which `hh_op_key_init` reaches from the table,
and the list of links `hop_free` was called on, latest first. The table's callbacks `hh_ops` act
on that memory (`hhOps`). A handle type is the `int` of the source, and `type & D_HTYPE_MASK`
converts it to `uint64_t` first (`UInt64.ofInt`). The assertions are modelled: a function whose `D_ASSERT` fails returns `none`. The locks and the debug
messages are left out.

**What is proved here.** `hh_ops` reads each link's key from `hl_key` and keeps it under every
reference callback, so `d_hhash` is a `d_hash_table` the refinement of `Daos.Gurt.HashView`
applies to (`hhOps_lawful`). The handle `hh_op_key_init` makes holds the cookie above the type bits
while the cookie is below `2 ^ 60` (`hhKey_toNat`), so `d_hhash_key_type` reads the type back and
an odd type never makes a pointer handle (`dHhashKeyIsptr_hhKey`, `dHhashKeyType_hhKey`).
-/

namespace Daos.Gurt

/-- `DER_ALREADY`. -/
def derAlready : ℤ := 1008

/-- `D_HTYPE_BITS`. -/
def dHtypeBits : UInt64 := 4

/-- `D_HTYPE_MASK`. -/
def dHtypeMask : UInt64 := (1 <<< dHtypeBits) - 1

/-- `D_HTYPE_PTR`. -/
def dHtypePtr : ℤ := 0

/-- The handle types of the DAOS client (`daos_types.h`). -/
inductive DaosHtype
  | eq
  | pool
  | co
  | obj
  | array
  | tx
  | kv
  deriving DecidableEq, Repr

/-- `DAOS_HTYPE_*`: the value of each handle type. -/
def DaosHtype.val : DaosHtype → ℤ
  | .eq => 1
  | .pool => 3
  | .co => 5
  | .obj => 7
  | .array => 9
  | .tx => 11
  | .kv => 13

/-- Every handle type of the client sets bit `0` and fits in `D_HTYPE_BITS`, as `daos_types.h`
asks of them. -/
theorem DaosHtype.val_odd (t : DaosHtype) : 0 < t.val ∧ t.val < 16 ∧ t.val % 2 = 1 := by
  cases t <;> decide

/-- `struct d_hlink` at one address: `hl_key`; of its `struct d_rlink`, `rl_ref` and
`rl_initialized`; and whether its `hl_ops` has a `hop_free`. -/
structure DHlink where
  hlKey : UInt64
  rlRef : ℕ
  rlInitialized : Bool
  hlOpsFree : Bool
  deriving DecidableEq, Repr

/-- The memory the handle table reads and writes: `ch_cookie`, the links by address, and the
links whose `hop_free` was called, latest first. -/
structure HhMem where
  chCookie : UInt64
  hlinks : UInt64 → DHlink
  freed : List UInt64

/-- `struct d_hhash`: `ch_htable` and `ch_ptrtype`; its `ch_cookie` is kept in `HhMem`. -/
structure DHhash where
  chHtable : DHashTable UInt64
  chPtrtype : Bool

namespace HhMem

/-- Edit the link at one address. -/
def modLink (m : HhMem) (x : UInt64) (f : DHlink → DHlink) : HhMem :=
  { m with hlinks := Function.update m.hlinks x (f (m.hlinks x)) }

@[simp] theorem modLink_hlinks_self (m : HhMem) (x : UInt64) (f : DHlink → DHlink) :
    (m.modLink x f).hlinks x = f (m.hlinks x) := by
  simp [modLink]

theorem modLink_hlinks_of_ne (m : HhMem) {x y : UInt64} (h : y ≠ x) (f : DHlink → DHlink) :
    (m.modLink x f).hlinks y = m.hlinks y := by
  simp [modLink, Function.update_of_ne h]

@[simp] theorem modLink_chCookie (m : HhMem) (x : UInt64) (f : DHlink → DHlink) :
    (m.modLink x f).chCookie = m.chCookie := rfl

@[simp] theorem modLink_freed (m : HhMem) (x : UInt64) (f : DHlink → DHlink) :
    (m.modLink x f).freed = m.freed := rfl

end HhMem

/-! ### The reference count of a link -/

/-- `rl_op_addref`. -/
def rlOpAddref (r : DHlink) : DHlink := { r with rlRef := r.rlRef + 1 }

/-- `rl_op_decref`: the link with a reference less, and whether it was the last. -/
def rlOpDecref (r : DHlink) : DHlink × Bool := ({ r with rlRef := r.rlRef - 1 }, r.rlRef == 1)

/-- `rl_op_init`: one reference, for the caller. -/
def rlOpInit (r : DHlink) : DHlink := { r with rlInitialized := true, rlRef := 1 }

/-- `rl_op_empty`: a link never initialized, or with no reference left. -/
def rlOpEmpty (r : DHlink) : Bool := !r.rlInitialized || r.rlRef == 0

/-! ### The table's callbacks, `hh_ops` -/

/-- `hh_op_key_init`: the next cookie, above the type bits. -/
def hhOpKeyInit (m : HhMem) (x : UInt64) (type : ℤ) : HhMem :=
  let cookie := m.chCookie
  { m.modLink x fun r => { r with hlKey := (cookie <<< dHtypeBits) ||| (UInt64.ofInt type &&& dHtypeMask) }
    with chCookie := cookie + 1 }

/-- `hh_op_key_hash`: the handle without its type bits, as a `uint32_t`. -/
def hhOpKeyHash (key : UInt64) : ℕ := (key >>> dHtypeBits).toUInt32.toNat

/-- `hh_op_key_cmp`. -/
def hhOpKeyCmp (m : HhMem) (x key : UInt64) : Bool := (m.hlinks x).hlKey == key

/-- `hh_op_rec_hash`. -/
def hhOpRecHash (m : HhMem) (x : UInt64) : ℕ := ((m.hlinks x).hlKey >>> dHtypeBits).toUInt32.toNat

/-- `hh_op_rec_addref`. -/
def hhOpRecAddref (m : HhMem) (x : UInt64) : HhMem := m.modLink x rlOpAddref

/-- `hh_op_rec_decref`. -/
def hhOpRecDecref (m : HhMem) (x : UInt64) : HhMem × Bool :=
  (m.modLink x fun r => (rlOpDecref r).1, (rlOpDecref (m.hlinks x)).2)

/-- `hh_op_rec_free`: the object's `hop_free`, if it has one. -/
def hhOpRecFree (m : HhMem) (x : UInt64) : HhMem :=
  if (m.hlinks x).hlOpsFree then { m with freed := x :: m.freed } else m

/-- `hh_ops`. -/
def hhOps : DHashTableOps UInt64 UInt64 HhMem where
  hopKeyCmp := hhOpKeyCmp
  hopKeyHash := hhOpKeyHash
  hopRecHash := hhOpRecHash
  hopRecAddref := hhOpRecAddref
  hopRecDecref := hhOpRecDecref
  hopRecFree := hhOpRecFree

/-- The key of the link at each address. -/
def hhKeyOf (m : HhMem) (x : UInt64) : UInt64 := (m.hlinks x).hlKey

@[simp] theorem hhOps_hopRecAddref : hhOps.hopRecAddref = hhOpRecAddref := rfl
@[simp] theorem hhOps_hopRecDecref : hhOps.hopRecDecref = hhOpRecDecref := rfl
@[simp] theorem hhOps_hopRecFree : hhOps.hopRecFree = hhOpRecFree := rfl

/-! ### What the callbacks do to the reference counts -/

section Refs

variable (m : HhMem) (x y : UInt64)

@[simp] theorem rlRef_hhOpRecAddref :
    ((hhOpRecAddref m x).hlinks y).rlRef = (m.hlinks y).rlRef + if y = x then 1 else 0 := by
  by_cases h : y = x
  · subst h
    simp [hhOpRecAddref, rlOpAddref]
  · simp [hhOpRecAddref, HhMem.modLink_hlinks_of_ne m h, h]

@[simp] theorem rlRef_hhOpRecDecref :
    ((hhOpRecDecref m x).1.hlinks y).rlRef = (m.hlinks y).rlRef - if y = x then 1 else 0 := by
  by_cases h : y = x
  · subst h
    simp [hhOpRecDecref, rlOpDecref]
  · simp [hhOpRecDecref, HhMem.modLink_hlinks_of_ne m h, h]

@[simp] theorem hlOpsFree_hhOpRecAddref :
    ((hhOpRecAddref m x).hlinks y).hlOpsFree = (m.hlinks y).hlOpsFree := by
  by_cases h : y = x
  · subst h
    simp [hhOpRecAddref, rlOpAddref]
  · simp [hhOpRecAddref, HhMem.modLink_hlinks_of_ne m h]

@[simp] theorem hlOpsFree_hhOpRecDecref :
    ((hhOpRecDecref m x).1.hlinks y).hlOpsFree = (m.hlinks y).hlOpsFree := by
  by_cases h : y = x
  · subst h
    simp [hhOpRecDecref, rlOpDecref]
  · simp [hhOpRecDecref, HhMem.modLink_hlinks_of_ne m h]

@[simp] theorem hhOpRecDecref_snd : (hhOpRecDecref m x).2 = ((m.hlinks x).rlRef == 1) := rfl

@[simp] theorem freed_hhOpRecAddref : (hhOpRecAddref m x).freed = m.freed := rfl

@[simp] theorem freed_hhOpRecDecref : (hhOpRecDecref m x).1.freed = m.freed := rfl

@[simp] theorem hlinks_hhOpRecFree : (hhOpRecFree m x).hlinks = m.hlinks := by
  unfold hhOpRecFree
  split_ifs <;> rfl

@[simp] theorem rlRef_hhOpKeyInit (type : ℤ) :
    ((hhOpKeyInit m x type).hlinks y).rlRef = (m.hlinks y).rlRef := by
  by_cases h : y = x
  · subst h
    simp [hhOpKeyInit]
  · simp [hhOpKeyInit, HhMem.modLink_hlinks_of_ne m h]

@[simp] theorem hlOpsFree_hhOpKeyInit (type : ℤ) :
    ((hhOpKeyInit m x type).hlinks y).hlOpsFree = (m.hlinks y).hlOpsFree := by
  by_cases h : y = x
  · subst h
    simp [hhOpKeyInit]
  · simp [hhOpKeyInit, HhMem.modLink_hlinks_of_ne m h]

@[simp] theorem freed_hhOpKeyInit (type : ℤ) : (hhOpKeyInit m x type).freed = m.freed := rfl

@[simp] theorem freed_hhOpRecFree :
    (hhOpRecFree m x).freed = if (m.hlinks x).hlOpsFree then x :: m.freed else m.freed := by
  unfold hhOpRecFree
  split_ifs <;> rfl

end Refs

/-! ### The functions of `d_hhash` -/

/-- `d_hhash_create`: an empty table, not in pointer mode, whose first cookie is `1`. `memOk` says
whether the allocation of the `d_hhash` succeeds, and `createRc` is what
`d_hash_table_create_inplace` returns: the table's own allocations and locks. -/
def dHhashCreate (feats bits : ℕ) (memOk : Bool) (createRc : ℤ) (m : HhMem) :
    Except ℤ (DHhash × HhMem) :=
  if memOk = false then .error (-derNomem)
  else if createRc ≠ 0 then .error createRc
  else .ok (⟨⟨feats, bits, fun _ => []⟩, false⟩, { m with chCookie := 1 })

/-- `d_hhash_set_ptrtype`: refused on a table that holds links and is not in pointer mode. -/
def dHhashSetPtrtype (hh : DHhash) : ℤ × DHhash :=
  if dHashTableIsEmpty hh.chHtable = false ∧ hh.chPtrtype = false then (-derAlready, hh)
  else (0, { hh with chPtrtype := true })

/-- `d_hhash_hlink_init`. -/
def dHhashHlinkInit (m : HhMem) (x : UInt64) (hopFree : Bool) : HhMem :=
  m.modLink x fun r => rlOpInit { r with hlOpsFree := hopFree }

/-- `d_hhash_key_isptr`: bit `0` clear. -/
def dHhashKeyIsptr (key : UInt64) : Bool := key &&& 1 == 0

/-- `d_hhash_key_type`. -/
def dHhashKeyType (key : UInt64) : ℤ :=
  if dHhashKeyIsptr key then dHtypePtr else ((key &&& dHtypeMask).toNat : ℤ)

/-- `d_hhash_link_insert`: in pointer mode the handle is the link's address and the table only
takes a reference; otherwise `d_hash_rec_insert_anonym` with `hh_op_key_init`, whose return code
is not looked at. `none` where an assertion fails: a link not initialized, a type past
`D_HTYPE_BITS`, or a type that does not fit the mode. -/
def dHhashLinkInsert (hh : DHhash) (m : HhMem) (x : UInt64) (type : ℤ) : Option (DHhash × HhMem) :=
  if (m.hlinks x).rlInitialized = false ∨ ¬ type < ((1 <<< dHtypeBits.toNat : ℕ) : ℤ) then none
  else if hh.chPtrtype then
    if type ≠ dHtypePtr ∨ dHhashKeyIsptr x = false then none
    else some (hh, hhOps.hopRecAddref (m.modLink x fun r => { r with hlKey := x }) x)
  else if type = dHtypePtr then none
  else
    match dHashRecInsertAnonym hhOps (some hhOpKeyInit) hh.chHtable m x type with
    | .ok r => some ({ hh with chHtable := r.1 }, r.2)
    | .error _ => some (hh, m)

/-- `daos_hhash_link_insert` (`common/misc.c`): in pointer mode, a link at an even address is
inserted as `D_HTYPE_PTR` whatever type it is given. -/
def daosHhashLinkInsert (hh : DHhash) (m : HhMem) (x : UInt64) (type : ℤ) : Option (DHhash × HhMem) :=
  dHhashLinkInsert hh m x (if hh.chPtrtype && dHhashKeyIsptr x then dHtypePtr else type)

/-- `d_hhash_link_lookup`: a pointer handle is read at its address, in pointer mode, and must be
the key of the link there; another handle is looked up on the table. The link found gets a
reference. -/
def dHhashLinkLookup (hh : DHhash) (m : HhMem) (key : UInt64) : Option UInt64 × DHhash × HhMem :=
  if dHhashKeyIsptr key then
    if key = 0 then (none, hh, m)
    else if hh.chPtrtype = false then (none, hh, m)
    else if (m.hlinks key).hlKey ≠ key then (none, hh, m)
    else (some key, hh, dHashRecAddref hhOps m key)
  else
    let r := dHashRecFind hhOps hh.chHtable m key
    (r.1, { hh with chHtable := r.2.1 }, r.2.2)

/-- `d_hhash_link_getref`. -/
def dHhashLinkGetref (m : HhMem) (x : UInt64) : HhMem := hhOps.hopRecAddref m x

/-- `d_hhash_link_putref`: drop a reference, and free the object with the last one. `none` where
`D_ASSERT` finds the table `D_HASH_FT_EPHEMERAL`. -/
def dHhashLinkPutref (hh : DHhash) (m : HhMem) (x : UInt64) : Option HhMem :=
  if hh.chHtable.ephemeral then none
  else
    let r := hhOps.hopRecDecref m x
    some (if r.2 then hhOps.hopRecFree r.1 x else r.1)

/-- `d_hhash_link_delete`: a link with a pointer handle drops a reference, in pointer mode only;
another is deleted from the table. -/
def dHhashLinkDelete (hh : DHhash) (m : HhMem) (x : UInt64) : Option (Bool × DHhash × HhMem) :=
  if dHhashKeyIsptr (m.hlinks x).hlKey then
    if hh.chPtrtype = false then some (false, hh, m)
    else (dHhashLinkPutref hh m x).map fun m => (true, hh, m)
  else
    let r := dHashRecDeleteAt hhOps hh.chHtable m x
    some (r.1, { hh with chHtable := r.2.1 }, r.2.2)

/-- `d_hhash_link_empty`. -/
def dHhashLinkEmpty (m : HhMem) (x : UInt64) : Bool := rlOpEmpty (m.hlinks x)

/-- `d_hhash_link_key`. -/
def dHhashLinkKey (m : HhMem) (x : UInt64) : UInt64 := (m.hlinks x).hlKey

/-! ### `hh_ops` reads the key from `hl_key` -/

@[simp] theorem hhKeyOf_modLink_of_key (m : HhMem) (x : UInt64) {f : DHlink → DHlink}
    (hf : ∀ r, (f r).hlKey = r.hlKey) : hhKeyOf (m.modLink x f) = hhKeyOf m := by
  funext y
  rcases eq_or_ne y x with rfl | hne
  · simp [hhKeyOf, hf]
  · simp [hhKeyOf, HhMem.modLink_hlinks_of_ne m hne]

/-- The handle table's callbacks are lawful: the refinement of the chained table applies. -/
theorem hhOps_lawful : LawfulOps hhOps hhKeyOf where
  keyCmp m x key := Bool.beq_eq_decide_eq _ key
  recHash m x := rfl
  addref m x := hhKeyOf_modLink_of_key m x fun _ => rfl
  decref m x := by
    show hhKeyOf (m.modLink x fun r => (rlOpDecref r).1) = hhKeyOf m
    exact hhKeyOf_modLink_of_key m x fun _ => rfl
  free m x y _ := by
    simp only [hhOps, hhOpRecFree]
    split_ifs <;> rfl

/-- `hh_op_key_init` sets the key of its link only. -/
theorem hhKeyOf_hhOpKeyInit_of_ne (m : HhMem) {x y : UInt64} (h : y ≠ x) (type : ℤ) :
    hhKeyOf (hhOpKeyInit m x type) y = hhKeyOf m y := by
  simp [hhOpKeyInit, hhKeyOf, HhMem.modLink_hlinks_of_ne m h]

/-! ### The layout of a handle -/

/-- The handle of cookie `c` and type `type`: `(c << D_HTYPE_BITS) | (type & D_HTYPE_MASK)`. -/
def hhKey (c : UInt64) (type : ℤ) : UInt64 := (c <<< dHtypeBits) ||| (UInt64.ofInt type &&& dHtypeMask)

theorem hhKeyOf_hhOpKeyInit (m : HhMem) (x : UInt64) (type : ℤ) :
    hhKeyOf (hhOpKeyInit m x type) x = hhKey m.chCookie type := by
  simp [hhOpKeyInit, hhKeyOf, hhKey]

/-- The type bits of a handle: the `int` type modulo `16`, as two's complement makes it. -/
theorem toNat_ofInt_and_mask (type : ℤ) :
    (UInt64.ofInt type &&& dHtypeMask).toNat = (type % 16).toNat := by
  have hofInt : (UInt64.ofInt type).toNat = (type % 2 ^ 64).toNat := by
    rw [UInt64.ofInt, UInt64.toNat_ofNat']
    have := Int.emod_nonneg type (by norm_num : (2 : ℤ) ^ 64 ≠ 0)
    have := Int.emod_lt_of_pos type (by norm_num : (0 : ℤ) < 2 ^ 64)
    omega
  have hmask : dHtypeMask.toNat = 2 ^ 4 - 1 := rfl
  rw [UInt64.toNat_and, hofInt, hmask, Nat.and_two_pow_sub_one_eq_mod]
  omega

/-- While the cookie is below `2 ^ 60`, the handle is the cookie above the four type bits. -/
theorem hhKey_toNat {c : UInt64} (hc : c.toNat < 2 ^ 60) (type : ℤ) :
    (hhKey c type).toNat = c.toNat * 16 + (type % 16).toNat := by
  have hlt : (type % 16).toNat < 2 ^ 4 := by omega
  have hshift : (c <<< dHtypeBits).toNat = c.toNat <<< 4 := by
    rw [UInt64.toNat_shiftLeft]
    show c.toNat <<< 4 % 2 ^ 64 = c.toNat <<< 4
    rw [Nat.shiftLeft_eq]
    exact Nat.mod_eq_of_lt (by omega)
  rw [hhKey, UInt64.toNat_or, hshift, toNat_ofInt_and_mask, ← Nat.shiftLeft_add_eq_or_of_lt hlt,
    Nat.shiftLeft_eq]

/-- Two handles made from cookies below `2 ^ 60` are equal only for equal cookies. -/
theorem hhKey_inj {c c' : UInt64} (hc : c.toNat < 2 ^ 60) (hc' : c'.toNat < 2 ^ 60) {type type' : ℤ}
    (h : hhKey c type = hhKey c' type') : c = c' := by
  have h' := congrArg UInt64.toNat h
  rw [hhKey_toNat hc, hhKey_toNat hc'] at h'
  exact UInt64.toNat_inj.1 (by omega)

/-- A handle of an odd type, made from a cookie below `2 ^ 60`, has bit `0` set: it is not a
pointer handle. -/
theorem dHhashKeyIsptr_hhKey {c : UInt64} (hc : c.toNat < 2 ^ 60) {type : ℤ} (hodd : type % 2 = 1) :
    dHhashKeyIsptr (hhKey c type) = false := by
  have hand1 : (hhKey c type &&& 1).toNat = 1 := by
    rw [UInt64.toNat_and, hhKey_toNat hc, UInt64.toNat_one, Nat.and_one_is_mod]
    omega
  rw [dHhashKeyIsptr, beq_eq_false_iff_ne]
  intro h0
  rw [h0] at hand1
  cases hand1

/-- `d_hhash_key_type` reads back an odd type below `2 ^ D_HTYPE_BITS`. -/
theorem dHhashKeyType_hhKey {c : UInt64} (hc : c.toNat < 2 ^ 60) {type : ℤ} (h0 : 0 ≤ type)
    (h16 : type < 16) (hodd : type % 2 = 1) : dHhashKeyType (hhKey c type) = type := by
  have hmask : (hhKey c type &&& dHtypeMask).toNat = type.toNat := by
    have hmask : dHtypeMask.toNat = 2 ^ 4 - 1 := rfl
    rw [UInt64.toNat_and, hhKey_toNat hc, hmask, Nat.and_two_pow_sub_one_eq_mod]
    omega
  rw [dHhashKeyType, dHhashKeyIsptr_hhKey hc hodd, if_neg Bool.false_ne_true, hmask]
  omega

end Daos.Gurt

import Mathlib
import Daos.Gurt.HhashRun

/-!
# References of the handle table over whole runs

The objects of the handle table are reference counted in `rl_ref`: one reference for each caller
that holds the object (`d_hhash_hlink_init` gives one to its creator, `d_hhash_link_lookup` and
`d_hhash_link_getref` one more each, `d_hhash_link_putref` takes one back), one for the table
while the link is on it, unless the table is `D_HASH_FT_EPHEMERAL`, and in pointer mode one that
`d_hhash_link_insert` takes and `d_hhash_link_delete` drops. When the last reference goes,
`hh_op_rec_free` calls the object's `hop_free`.

`HhRefReach` is the runs whose callers keep to that: an object is allocated zeroed (`D_ALLOC`),
initialized off the table with no reference, inserted by a holder, got and put only by a holder,
and in pointer mode deleted once after its insert. `HhGhost` counts each object's holders and
whether its pointer-mode insert stands; the calls themselves are those of `HhashStep`.

**What is proved.** Over every such run `rl_ref` is exactly that count (`hhash_rl_ref_exact`), so
no reference is dropped from a count of zero; and `hop_free` is called on an object exactly when
the call drops its last reference (`hhash_free_iff_last_ref`): never while a caller holds it, the
table has it or its pointer-mode insert stands, and always when the last one goes.
-/

namespace Daos.Gurt

/-! ### What a call does to the reference counts -/

/-- A memory change that only takes references: `inc y` more on each link, no `hop_free`
called. -/
structure HhMem.Grows (m m' : HhMem) (inc : UInt64 → ℕ) : Prop where
  freed : m'.freed = m.freed
  rlRef : ∀ y, (m'.hlinks y).rlRef = (m.hlinks y).rlRef + inc y
  hlOpsFree : ∀ y, (m'.hlinks y).hlOpsFree = (m.hlinks y).hlOpsFree

/-- A memory change that drops one reference on `x`, and calls `hop_free` if it was the last. -/
structure HhMem.Drops (m m' : HhMem) (x : UInt64) : Prop where
  freed : m'.freed =
    if (m.hlinks x).rlRef = 1 ∧ (m.hlinks x).hlOpsFree = true then x :: m.freed else m.freed
  rlRef : ∀ y, (m'.hlinks y).rlRef = (m.hlinks y).rlRef - if y = x then 1 else 0
  hlOpsFree : ∀ y, (m'.hlinks y).hlOpsFree = (m.hlinks y).hlOpsFree

section Effects

variable {m m' : HhMem}

theorem HhMem.Grows.refl (m : HhMem) : HhMem.Grows m m fun _ => 0 :=
  ⟨rfl, fun _ => rfl, fun _ => rfl⟩

theorem HhMem.Grows.congr {inc inc' : UInt64 → ℕ} (h : HhMem.Grows m m' inc)
    (hinc : ∀ y, inc y = inc' y) : HhMem.Grows m m' inc' :=
  ⟨h.freed, fun y => (h.rlRef y).trans (by rw [hinc]), h.hlOpsFree⟩

theorem HhMem.Grows.freed_iff {inc : UInt64 → ℕ} (h : HhMem.Grows m m' inc) (y : UInt64) :
    m'.freed = y :: m.freed ↔
      (m.hlinks y).hlOpsFree = true ∧ (m.hlinks y).rlRef = 1 ∧ (m'.hlinks y).rlRef = 0 := by
  rw [h.freed, h.rlRef]
  constructor
  · intro hf
    exact absurd hf (List.cons_ne_self y m.freed).symm
  · rintro ⟨-, h1, h0⟩
    omega

theorem HhMem.Drops.freed_iff {x : UInt64} (h : HhMem.Drops m m' x) (y : UInt64) :
    m'.freed = y :: m.freed ↔
      (m.hlinks y).hlOpsFree = true ∧ (m.hlinks y).rlRef = 1 ∧ (m'.hlinks y).rlRef = 0 := by
  rw [h.freed, h.rlRef]
  by_cases hyx : y = x
  · subst hyx
    by_cases hlast : (m.hlinks y).rlRef = 1 ∧ (m.hlinks y).hlOpsFree = true
    · rw [if_pos hlast]
      simp only [if_true, true_iff]
      exact ⟨hlast.2, hlast.1, by omega⟩
    · rw [if_neg hlast]
      constructor
      · intro hf
        exact absurd hf (List.cons_ne_self y m.freed).symm
      · rintro ⟨hops, h1, -⟩
        exact (hlast ⟨h1, hops⟩).elim
  · rw [if_neg hyx, Nat.sub_zero]
    constructor
    · intro hf
      split_ifs at hf
      · exact absurd (List.cons_eq_cons.1 hf).1 (Ne.symm hyx)
      · exact absurd hf (List.cons_ne_self y m.freed).symm
    · rintro ⟨-, h1, h0⟩
      omega

theorem rlRef_dHhashHlinkInit (m : HhMem) (x : UInt64) (hopFree : Bool) (y : UInt64) :
    ((dHhashHlinkInit m x hopFree).hlinks y).rlRef = if y = x then 1 else (m.hlinks y).rlRef := by
  by_cases hyx : y = x
  · subst hyx
    simp [dHhashHlinkInit, rlOpInit]
  · simp [dHhashHlinkInit, HhMem.modLink_hlinks_of_ne m hyx, hyx]

/-- `d_hhash_hlink_init` calls no `hop_free`, and leaves a reference on the link. -/
theorem freed_iff_dHhashHlinkInit (m : HhMem) (x : UInt64) (hopFree : Bool) (y : UInt64) :
    (dHhashHlinkInit m x hopFree).freed = y :: m.freed ↔ (m.hlinks y).hlOpsFree = true ∧
      (m.hlinks y).rlRef = 1 ∧ ((dHhashHlinkInit m x hopFree).hlinks y).rlRef = 0 := by
  have hfreed : (dHhashHlinkInit m x hopFree).freed = m.freed := rfl
  rw [hfreed, rlRef_dHhashHlinkInit]
  constructor
  · intro hf
    exact absurd hf (List.cons_ne_self y m.freed).symm
  · rintro ⟨-, h1, h0⟩
    split_ifs at h0
    omega

theorem grows_hhOpRecAddref (m : HhMem) (x : UInt64) :
    HhMem.Grows m (hhOpRecAddref m x) fun y => if y = x then 1 else 0 :=
  ⟨rfl, rlRef_hhOpRecAddref m x, hlOpsFree_hhOpRecAddref m x⟩

/-- `d_hash_rec_find` takes a reference on the link it finds. -/
theorem grows_dHashRecFind (ht : DHashTable UInt64) (m : HhMem) (key : UInt64) :
    HhMem.Grows m (dHashRecFind hhOps ht m key).2.2
      fun y => if (dHashRecFind hhOps ht m key).1 = some y then 1 else 0 := by
  cases hf : (ht.htBuckets (chKeyHash hhOps ht key)).find? (fun l => hhOps.hopKeyCmp m l key) with
  | none =>
    rw [dHashRecFind_of_find_none hhOps hf]
    exact HhMem.Grows.refl m
  | some link =>
    obtain ⟨l, -, hfind⟩ := dHashRecFind_of_find_some hhOps hf
    rw [hfind]
    refine ⟨rfl, fun y => ?_, hlOpsFree_hhOpRecAddref m link⟩
    rw [hhOps_hopRecAddref, rlRef_hhOpRecAddref]
    simp [eq_comm]

/-- `d_hash_rec_insert_anonym` of `hh_op_key_init` takes the table's reference on the new link,
unless the table is ephemeral. -/
theorem grows_dHashRecInsertAnonym {ht ht' : DHashTable UInt64} {x : UInt64} {type : ℤ}
    (h : dHashRecInsertAnonym hhOps (some hhOpKeyInit) ht m x type = .ok (ht', m')) :
    HhMem.Grows m m' fun y => if y = x ∧ ht.ephemeral = false then 1 else 0 := by
  simp only [dHashRecInsertAnonym, Except.ok.injEq] at h
  have hm' : (chRecInsertAddref hhOps ht (hhOpKeyInit m x type) _ x).2 = m' := congrArg Prod.snd h
  rw [← hm', chRecInsertAddref_snd]
  by_cases heph : ht.ephemeral = true
  · rw [if_pos heph]
    refine ⟨rfl, fun y => ?_, fun y => hlOpsFree_hhOpKeyInit m x y type⟩
    simp [heph]
  · rw [if_neg heph]
    refine ⟨rfl, fun y => ?_, fun y => ?_⟩
    · rw [hhOps_hopRecAddref, rlRef_hhOpRecAddref, rlRef_hhOpKeyInit]
      simp [heph]
    · rw [hhOps_hopRecAddref, hlOpsFree_hhOpRecAddref, hlOpsFree_hhOpKeyInit]

/-- A reference dropped, and `hop_free` called with the last: what `d_hhash_link_putref` and
`d_hash_rec_delete_at` do to the memory. -/
theorem drops_decref_free (m : HhMem) (x : UInt64) :
    HhMem.Drops m (if (hhOps.hopRecDecref m x).2 then hhOps.hopRecFree (hhOps.hopRecDecref m x).1 x
      else (hhOps.hopRecDecref m x).1) x := by
  -- `hop_free` leaves the links as the decrement left them
  have hl : (if (hhOps.hopRecDecref m x).2 then hhOps.hopRecFree (hhOps.hopRecDecref m x).1 x
      else (hhOps.hopRecDecref m x).1).hlinks = (hhOpRecDecref m x).1.hlinks := by
    split_ifs <;> simp
  refine ⟨?_, fun y => by rw [hl, rlRef_hhOpRecDecref], fun y => by rw [hl, hlOpsFree_hhOpRecDecref]⟩
  rw [hhOps_hopRecDecref, hhOpRecDecref_snd]
  by_cases hlast : (m.hlinks x).rlRef = 1
  · simp [hlast]
  · simp [hlast]

/-- `d_hhash_link_putref` drops a reference, on a table that is not ephemeral. -/
theorem drops_dHhashLinkPutref {hh : DHhash} {x : UInt64} (h : dHhashLinkPutref hh m x = some m') :
    hh.chHtable.ephemeral = false ∧ HhMem.Drops m m' x := by
  unfold dHhashLinkPutref at h
  split_ifs at h with heph
  cases h
  exact ⟨by simpa using heph, drops_decref_free m x⟩

/-- `d_hash_rec_delete_at` drops the table's reference on a link that is on a table that is not
ephemeral, and otherwise leaves the memory. -/
theorem dHashRecDeleteAt_hh (ht : DHashTable UInt64) (m : HhMem) (x : UInt64) :
    (x ∈ ht.members ∧ ht.ephemeral = false ∧ HhMem.Drops m (dHashRecDeleteAt hhOps ht m x).2.2 x) ∨
      (¬(x ∈ ht.members ∧ ht.ephemeral = false) ∧ (dHashRecDeleteAt hhOps ht m x).2.2 = m) := by
  by_cases hdrop : x ∈ ht.members ∧ ht.ephemeral = false
  · refine .inl ⟨hdrop.1, hdrop.2, ?_⟩
    rw [dHashRecDeleteAt_store hhOps hdrop.2 m hdrop.1]
    exact drops_decref_free m x
  · refine .inr ⟨hdrop, ?_⟩
    unfold dHashRecDeleteAt chRecDelDecref
    by_cases hx : x ∈ ht.members
    · have heph : ht.ephemeral = true := by simpa [hx] using hdrop
      simp [hx, heph]
    · simp [hx]

/-- `d_hhash_link_insert` in pointer mode writes the address into the link and takes the
table's reference. -/
theorem grows_ptrInsert (m : HhMem) (x : UInt64) :
    HhMem.Grows m (hhOpRecAddref (m.modLink x fun r => { r with hlKey := x }) x)
      fun y => if y = x then 1 else 0 := by
  refine ⟨rfl, fun y => ?_, fun y => ?_⟩
  · rw [rlRef_hhOpRecAddref]
    by_cases hyx : y = x
    · subst hyx
      simp
    · simp [HhMem.modLink_hlinks_of_ne m hyx]
  · rw [hlOpsFree_hhOpRecAddref]
    by_cases hyx : y = x
    · subst hyx
      simp
    · simp [HhMem.modLink_hlinks_of_ne m hyx]

theorem dHhashSetPtrtype_snd (hh : DHhash) :
    (dHhashSetPtrtype hh).2.chHtable = hh.chHtable ∧
      (hh.chPtrtype = true → (dHhashSetPtrtype hh).2.chPtrtype = true) := by
  unfold dHhashSetPtrtype
  split_ifs
  · exact ⟨rfl, id⟩
  · exact ⟨rfl, fun _ => rfl⟩

end Effects

/-! ### What a call does to the table's references -/

/-- The table's reference on a link: one while the link is on a table that is not ephemeral. -/
def tblRef (ht : DHashTable UInt64) (y : UInt64) : ℕ :=
  if y ∈ ht.members ∧ ht.ephemeral = false then 1 else 0

theorem tblRef_of_not_mem {ht : DHashTable UInt64} {y : UInt64} (hy : y ∉ ht.members) :
    tblRef ht y = 0 := by
  simp [tblRef, hy]

theorem tblRef_dHashRecFind (ht : DHashTable UInt64) (m : HhMem) (key y : UInt64) :
    tblRef (dHashRecFind hhOps ht m key).2.1 y = tblRef ht y := by
  have heph : (dHashRecFind hhOps ht m key).2.1.ephemeral = ht.ephemeral := by
    cases hf : (ht.htBuckets (chKeyHash hhOps ht key)).find? (fun l => hhOps.hopKeyCmp m l key) with
    | none => rw [dHashRecFind_of_find_none hhOps hf]
    | some link =>
      obtain ⟨l, -, hfind⟩ := dHashRecFind_of_find_some hhOps hf
      rw [hfind, DHashTable.setBucket_ephemeral]
  simp only [tblRef, heph, mem_dHashRecFind_table]

/-- `d_hash_rec_delete_at` takes the link off the table, and leaves the others. -/
theorem tblRef_dHashRecDeleteAt {ht : DHashTable UInt64} (hnd : ht.members.Nodup) (m : HhMem)
    (x y : UInt64) :
    tblRef (dHashRecDeleteAt hhOps ht m x).2.1 y = if y = x then 0 else tblRef ht y := by
  have heph : (dHashRecDeleteAt hhOps ht m x).2.1.ephemeral = ht.ephemeral := by
    rw [dHashRecDeleteAt_table]
    split_ifs <;> rfl
  simp only [tblRef, heph, mem_dHashRecDeleteAt_table hnd]
  by_cases hyx : y = x
  · simp [hyx]
  · simp [hyx]

/-- `d_hash_rec_insert_anonym` puts the link on the table, and leaves the others. -/
theorem tblRef_dHashRecInsertAnonym {ht ht' : DHashTable UInt64} {m m' : HhMem} {x : UInt64}
    {type : ℤ} (h : dHashRecInsertAnonym hhOps (some hhOpKeyInit) ht m x type = .ok (ht', m'))
    (y : UInt64) :
    tblRef ht' y = if y = x then (if ht.ephemeral = false then 1 else 0) else tblRef ht y := by
  have heph : ht'.ephemeral = ht.ephemeral := by
    simp only [dHashRecInsertAnonym, Except.ok.injEq] at h
    have ht'' : (chRecInsertAddref hhOps ht (hhOpKeyInit m x type) _ x).1 = ht' := congrArg Prod.fst h
    rw [← ht'', chRecInsertAddref_fst, DHashTable.setBucket_ephemeral]
  simp only [tblRef, heph, mem_dHashRecInsertAnonym_table h]
  by_cases hyx : y = x
  · simp [hyx]
  · simp [hyx]

/-! ### What each call of the handle table does to the references -/

section Calls

variable {hh : DHhash} {m : HhMem}

/-- `d_hhash_link_lookup` takes a reference on the link it returns, and leaves the table's. -/
theorem dHhashLinkLookup_refs (key : UInt64) :
    HhMem.Grows m (dHhashLinkLookup hh m key).2.2
        (fun y => if (dHhashLinkLookup hh m key).1 = some y then 1 else 0) ∧
      (dHhashLinkLookup hh m key).2.1.chPtrtype = hh.chPtrtype ∧
      ∀ y, tblRef (dHhashLinkLookup hh m key).2.1.chHtable y = tblRef hh.chHtable y := by
  -- the three refusals of a pointer handle take nothing
  have hnone : HhMem.Grows m m fun y => if (none : Option UInt64) = some y then 1 else 0 :=
    (HhMem.Grows.refl m).congr fun y => by simp
  unfold dHhashLinkLookup
  split
  · split
    · exact ⟨hnone, rfl, fun _ => rfl⟩
    split
    · exact ⟨hnone, rfl, fun _ => rfl⟩
    split
    · exact ⟨hnone, rfl, fun _ => rfl⟩
    exact ⟨(grows_hhOpRecAddref m key).congr fun y => by simp [eq_comm], rfl, fun _ => rfl⟩
  · exact ⟨grows_dHashRecFind hh.chHtable m key, rfl, tblRef_dHashRecFind hh.chHtable m key⟩

/-- What `d_hhash_link_delete` does to the references: nothing, for a pointer handle off pointer
mode; in pointer mode it drops one; otherwise it takes the link off the table, dropping the
table's reference. -/
theorem dHhashLinkDelete_refs (hnd : hh.chHtable.members.Nodup) {x : UInt64} {b : Bool}
    {hh' : DHhash} {m' : HhMem} (h : dHhashLinkDelete hh m x = some (b, hh', m')) :
    (dHhashKeyIsptr (hhKeyOf m x) = true ∧ hh.chPtrtype = false ∧ hh' = hh ∧ m' = m) ∨
      (dHhashKeyIsptr (hhKeyOf m x) = true ∧ hh.chPtrtype = true ∧ hh' = hh ∧
        HhMem.Drops m m' x) ∨
      (dHhashKeyIsptr (hhKeyOf m x) = false ∧ hh'.chPtrtype = hh.chPtrtype ∧
        (∀ y, tblRef hh'.chHtable y = if y = x then 0 else tblRef hh.chHtable y) ∧
        ((x ∈ hh.chHtable.members ∧ hh.chHtable.ephemeral = false ∧ HhMem.Drops m m' x) ∨
          (¬(x ∈ hh.chHtable.members ∧ hh.chHtable.ephemeral = false) ∧ m' = m))) := by
  unfold dHhashLinkDelete at h
  split_ifs at h with hp hptr
  · cases h
    exact .inl ⟨hp, by simpa using hptr, rfl, rfl⟩
  · obtain ⟨m'', hput, hm⟩ := Option.map_eq_some_iff.1 h
    cases hm
    exact .inr (.inl ⟨hp, by simpa using hptr, rfl, (drops_dHhashLinkPutref hput).2⟩)
  · cases h
    refine .inr (.inr ⟨by simpa [hhKeyOf] using hp, rfl, tblRef_dHashRecDeleteAt hnd m x, ?_⟩)
    rcases dHashRecDeleteAt_hh hh.chHtable m x with ⟨hx, heph, hd⟩ | ⟨hno, hm⟩
    · exact .inl ⟨hx, heph, hd⟩
    · exact .inr ⟨hno, hm⟩

end Calls

/-! ### The references of a run -/

/-- Who references each object, which no field of the source keeps: how many callers hold it,
and whether its pointer-mode insert stands. -/
structure HhGhost where
  holds : UInt64 → ℕ
  pinned : UInt64 → Bool

namespace HhGhost

/-- A caller takes a reference. -/
def hold (g : HhGhost) (x : UInt64) : HhGhost :=
  { g with holds := Function.update g.holds x (g.holds x + 1) }

/-- A caller puts its reference back. -/
def drop (g : HhGhost) (x : UInt64) : HhGhost :=
  { g with holds := Function.update g.holds x (g.holds x - 1) }

/-- The caller of a lookup holds the link it found. -/
def holdFound (g : HhGhost) : Option UInt64 → HhGhost
  | none => g
  | some x => g.hold x

/-- A pointer-mode insert of `x` stands, or no longer does. -/
def setPin (g : HhGhost) (x : UInt64) (b : Bool) : HhGhost :=
  { g with pinned := Function.update g.pinned x b }

variable (g : HhGhost) (x y : UInt64)

@[simp] theorem holds_hold : (g.hold x).holds y = g.holds y + if y = x then 1 else 0 := by
  by_cases hyx : y = x
  · simp [hold, hyx]
  · simp [hold, hyx]

@[simp] theorem holds_drop : (g.drop x).holds y = g.holds y - if y = x then 1 else 0 := by
  by_cases hyx : y = x
  · simp [drop, hyx]
  · simp [drop, hyx]

@[simp] theorem holds_holdFound (o : Option UInt64) :
    (g.holdFound o).holds y = g.holds y + if o = some y then 1 else 0 := by
  cases o with
  | none => simp [holdFound]
  | some x => simp [holdFound, eq_comm]

@[simp] theorem pinned_hold : (g.hold x).pinned = g.pinned := rfl

@[simp] theorem pinned_drop : (g.drop x).pinned = g.pinned := rfl

@[simp] theorem pinned_holdFound (o : Option UInt64) : (g.holdFound o).pinned = g.pinned := by
  cases o <;> rfl

@[simp] theorem holds_setPin (b : Bool) : (g.setPin x b).holds = g.holds := rfl

@[simp] theorem pinned_setPin (b : Bool) :
    (g.setPin x b).pinned y = if y = x then b else g.pinned y :=
  Function.update_apply g.pinned x b y

end HhGhost

/-- The references a run accounts for on a link: its holders, the table's, and its pointer-mode
insert. -/
def hhRefCount (s : HhState) (g : HhGhost) (x : UInt64) : ℕ :=
  g.holds x + tblRef s.hh.chHtable x + (g.pinned x).toNat

/-- One call of the handle table by callers that keep to the counting of references. -/
inductive HhRefStep : HhState → HhGhost → HhState → HhGhost → Prop
  | setPtrtype (s : HhState) (g : HhGhost) :
      HhRefStep s g ⟨(dHhashSetPtrtype s.hh).2, s.m, s.made⟩ g
  | hlinkInit (s : HhState) (g : HhGhost) {x : UInt64} (hopFree : Bool) :
      x ∉ s.hh.chHtable.members → g.holds x = 0 → g.pinned x = false →
      HhRefStep s g ⟨s.hh, dHhashHlinkInit s.m x hopFree, s.made⟩
        { g with holds := Function.update g.holds x 1 }
  | insert (s : HhState) (g : HhGhost) {x : UInt64} {type : ℤ} {hh' : DHhash} {m' : HhMem} :
      x ∉ s.hh.chHtable.members → 0 < g.holds x → g.pinned x = false →
      dHhashLinkInsert s.hh s.m x type = some (hh', m') →
      HhRefStep s g ⟨hh', m', if s.hh.chPtrtype then s.made else s.made + 1⟩
        (if s.hh.chPtrtype then g.setPin x true else g)
  | lookup (s : HhState) (g : HhGhost) (key : UInt64) :
      HhRefStep s g ⟨(dHhashLinkLookup s.hh s.m key).2.1, (dHhashLinkLookup s.hh s.m key).2.2, s.made⟩
        (g.holdFound (dHhashLinkLookup s.hh s.m key).1)
  | delete (s : HhState) (g : HhGhost) {x : UInt64} {b : Bool} {hh' : DHhash} {m' : HhMem} :
      (s.hh.chPtrtype = true → dHhashKeyIsptr (hhKeyOf s.m x) = true → g.pinned x = true) →
      dHhashLinkDelete s.hh s.m x = some (b, hh', m') →
      HhRefStep s g ⟨hh', m', s.made⟩
        (if s.hh.chPtrtype = true ∧ dHhashKeyIsptr (hhKeyOf s.m x) = true then g.setPin x false
          else g)
  | getref (s : HhState) (g : HhGhost) {x : UInt64} : 0 < g.holds x →
      HhRefStep s g ⟨s.hh, dHhashLinkGetref s.m x, s.made⟩ (g.hold x)
  | putref (s : HhState) (g : HhGhost) {x : UInt64} {m' : HhMem} : 0 < g.holds x →
      dHhashLinkPutref s.hh s.m x = some m' → HhRefStep s g ⟨s.hh, m', s.made⟩ (g.drop x)

/-- The states and references of the runs from a `d_hhash_create` over zeroed memory. -/
inductive HhRefReach : HhState → HhGhost → Prop
  | create {feats bits : ℕ} {memOk : Bool} {createRc : ℤ} {m₀ m : HhMem} {hh : DHhash} :
      (∀ x, (m₀.hlinks x).rlRef = 0) → dHhashCreate feats bits memOk createRc m₀ = .ok (hh, m) →
      HhRefReach ⟨hh, m, 0⟩ ⟨fun _ => 0, fun _ => false⟩
  | step {s t : HhState} {g g' : HhGhost} : HhRefReach s g → HhRefStep s g t g' → HhRefReach t g'

theorem HhRefStep.toStep {s t : HhState} {g g' : HhGhost} (hst : HhRefStep s g t g') :
    HhashStep s t := by
  cases hst with
  | setPtrtype => exact .setPtrtype s
  | hlinkInit hopFree hx _ _ => exact .hlinkInit s hopFree hx
  | insert hx _ _ h => exact .insert s hx h
  | lookup key => exact .lookup s key
  | delete _ h => exact .delete s h
  | getref _ => exact .getref s _
  | putref _ h => exact .putref s h

/-- Every call takes references on some links and calls no `hop_free`, drops one reference, or
initializes a link. -/
theorem HhashStep.mem_cases {s t : HhState} (hw : HhashWf s) (hst : HhashStep s t) :
    (∃ inc, HhMem.Grows s.m t.m inc) ∨ (∃ x, HhMem.Drops s.m t.m x) ∨
      ∃ x hopFree, t.m = dHhashHlinkInit s.m x hopFree := by
  cases hst with
  | setPtrtype => exact .inl ⟨_, HhMem.Grows.refl s.m⟩
  | hlinkInit hopFree _ => exact .inr (.inr ⟨_, hopFree, rfl⟩)
  | insert hx h =>
    rcases dHhashLinkInsert_cases h with ⟨-, -, rfl⟩ | ⟨-, r, hr, -, rfl⟩
    · exact .inl ⟨_, grows_ptrInsert s.m _⟩
    · exact .inl ⟨_, grows_dHashRecInsertAnonym hr⟩
  | lookup key => exact .inl ⟨_, (dHhashLinkLookup_refs key).1⟩
  | delete h =>
    rcases dHhashLinkDelete_refs hw.wf.nodup h with ⟨-, -, -, rfl⟩ | ⟨-, -, -, hd⟩ |
      ⟨-, -, -, ⟨-, -, hd⟩ | ⟨-, rfl⟩⟩
    · exact .inl ⟨_, HhMem.Grows.refl s.m⟩
    · exact .inr (.inl ⟨_, hd⟩)
    · exact .inr (.inl ⟨_, hd⟩)
    · exact .inl ⟨_, HhMem.Grows.refl s.m⟩
  | getref x => exact .inl ⟨_, grows_hhOpRecAddref s.m x⟩
  | putref h => exact .inr (.inl ⟨_, (drops_dHhashLinkPutref h).2⟩)

/-- A call calls `hop_free` on a link exactly when it drops the link's last reference, and the
link has a `hop_free`. -/
theorem HhashStep.freed_iff {s t : HhState} (hw : HhashWf s) (hst : HhashStep s t) (y : UInt64) :
    t.m.freed = y :: s.m.freed ↔
      (s.m.hlinks y).hlOpsFree = true ∧ (s.m.hlinks y).rlRef = 1 ∧ (t.m.hlinks y).rlRef = 0 := by
  rcases hst.mem_cases hw with ⟨inc, hg⟩ | ⟨x, hd⟩ | ⟨x, hopFree, hm⟩
  · exact hg.freed_iff y
  · exact hd.freed_iff y
  · rw [hm]
    exact freed_iff_dHhashHlinkInit s.m x hopFree y

theorem HhRefReach.toReach {s : HhState} {g : HhGhost} (h : HhRefReach s g) : HhashReach s := by
  induction h with
  | create _ hc => exact .create hc
  | step _ hst ih => exact ih.step hst.toStep

/-! ### The count is exact along every run -/

/-- The invariant of the counted runs. -/
structure HhRefInv (s : HhState) (g : HhGhost) : Prop where
  /-- `rl_ref` is the number of references the run accounts for. -/
  refs : ∀ x, (s.m.hlinks x).rlRef = hhRefCount s g x
  /-- A pointer-mode insert stands only in pointer mode. -/
  pinned : ∀ x, g.pinned x = true → s.hh.chPtrtype = true

section RefInv

variable {s : HhState} {g : HhGhost}

theorem HhRefInv.create {feats bits : ℕ} {memOk : Bool} {createRc : ℤ} {m₀ m : HhMem} {hh : DHhash}
    (hz : ∀ x, (m₀.hlinks x).rlRef = 0) (h : dHhashCreate feats bits memOk createRc m₀ = .ok (hh, m)) :
    HhRefInv ⟨hh, m, 0⟩ ⟨fun _ => 0, fun _ => false⟩ := by
  unfold dHhashCreate at h
  split_ifs at h
  cases h
  refine ⟨fun x => ?_, fun x hx => absurd hx Bool.false_ne_true⟩
  have hx : x ∉ (⟨feats, bits, fun _ => []⟩ : DHashTable UInt64).members := by
    simp [DHashTable.members, Buckets.mem_members]
  simp [hhRefCount, tblRef_of_not_mem hx, hz x]

/-- A call that takes `inc` references keeps the count exact when the run accounts for them. -/
theorem HhRefInv.refs_of_grows {t : HhState} {g' : HhGhost} {inc : UInt64 → ℕ} (hi : HhRefInv s g)
    (hg : HhMem.Grows s.m t.m inc) (hc : ∀ y, hhRefCount t g' y = hhRefCount s g y + inc y) (y : UInt64) :
    (t.m.hlinks y).rlRef = hhRefCount t g' y := by
  rw [hg.rlRef y, hi.refs y, hc y]

/-- A call that drops a reference on `x` keeps the count exact when the run gives one up. -/
theorem HhRefInv.refs_of_drops {t : HhState} {g' : HhGhost} {x : UInt64} (hi : HhRefInv s g)
    (hd : HhMem.Drops s.m t.m x)
    (hc : ∀ y, hhRefCount t g' y + (if y = x then 1 else 0) = hhRefCount s g y) (y : UInt64) :
    (t.m.hlinks y).rlRef = hhRefCount t g' y := by
  rw [hd.rlRef y, hi.refs y, ← hc y, Nat.add_sub_cancel]

theorem HhRefInv.setPtrtype (hi : HhRefInv s g) :
    HhRefInv ⟨(dHhashSetPtrtype s.hh).2, s.m, s.made⟩ g := by
  obtain ⟨htbl, hptr⟩ := dHhashSetPtrtype_snd s.hh
  refine ⟨fun y => ?_, fun y hy => hptr (hi.pinned y hy)⟩
  simp only [hhRefCount, htbl]
  exact hi.refs y

theorem HhRefInv.hlinkInit (hi : HhRefInv s g) {x : UInt64} (hopFree : Bool)
    (hx : x ∉ s.hh.chHtable.members) (hp : g.pinned x = false) :
    HhRefInv ⟨s.hh, dHhashHlinkInit s.m x hopFree, s.made⟩
      { g with holds := Function.update g.holds x 1 } := by
  refine ⟨fun y => ?_, hi.pinned⟩
  rw [rlRef_dHhashHlinkInit]
  by_cases hyx : y = x
  · subst hyx
    simp [hhRefCount, tblRef_of_not_mem hx, hp]
  · simp only [hhRefCount, if_neg hyx, Function.update_of_ne hyx]
    exact hi.refs y

theorem HhRefInv.insert (hi : HhRefInv s g) {x : UInt64} {type : ℤ} {hh' : DHhash} {m' : HhMem}
    (hx : x ∉ s.hh.chHtable.members) (hp : g.pinned x = false)
    (h : dHhashLinkInsert s.hh s.m x type = some (hh', m')) :
    HhRefInv ⟨hh', m', if s.hh.chPtrtype then s.made else s.made + 1⟩
      (if s.hh.chPtrtype then g.setPin x true else g) := by
  rcases dHhashLinkInsert_cases h with ⟨hptr, rfl, rfl⟩ | ⟨hptr, r, hr, rfl, rfl⟩
  · -- in pointer mode the insert's reference stands until the delete
    simp only [hptr, if_true]
    refine ⟨hi.refs_of_grows (grows_ptrInsert s.m x) fun y => ?_, fun _ _ => hptr⟩
    by_cases hyx : y = x
    · subst hyx
      simp [hhRefCount, hp]
    · simp [hhRefCount, hyx]
  · -- otherwise the table holds it
    simp only [hptr, Bool.false_eq_true, if_false]
    refine ⟨hi.refs_of_grows (grows_dHashRecInsertAnonym hr) fun y => ?_,
      fun y hy => absurd (hi.pinned y hy) (by rw [hptr]; decide)⟩
    simp only [hhRefCount, tblRef_dHashRecInsertAnonym hr y]
    by_cases hyx : y = x
    · subst hyx
      rw [tblRef_of_not_mem hx]
      split_ifs <;> simp_all
    · simp [hyx]

theorem HhRefInv.lookup (hi : HhRefInv s g) (key : UInt64) :
    HhRefInv ⟨(dHhashLinkLookup s.hh s.m key).2.1, (dHhashLinkLookup s.hh s.m key).2.2, s.made⟩
      (g.holdFound (dHhashLinkLookup s.hh s.m key).1) := by
  obtain ⟨hg, hptr, htbl⟩ := @dHhashLinkLookup_refs s.hh s.m key
  refine ⟨hi.refs_of_grows hg fun y => ?_, fun y hy => hptr ▸ hi.pinned y (by simpa using hy)⟩
  simp only [hhRefCount, htbl y, HhGhost.holds_holdFound, HhGhost.pinned_holdFound]
  omega

theorem HhRefInv.delete (hi : HhRefInv s g) (hnd : s.hh.chHtable.members.Nodup) {x : UInt64}
    {b : Bool} {hh' : DHhash} {m' : HhMem}
    (hpin : s.hh.chPtrtype = true → dHhashKeyIsptr (hhKeyOf s.m x) = true → g.pinned x = true)
    (h : dHhashLinkDelete s.hh s.m x = some (b, hh', m')) :
    HhRefInv ⟨hh', m', s.made⟩
      (if s.hh.chPtrtype = true ∧ dHhashKeyIsptr (hhKeyOf s.m x) = true then g.setPin x false
        else g) := by
  rcases dHhashLinkDelete_refs hnd h with ⟨-, hptr, rfl, rfl⟩ | ⟨hp, hptr, rfl, hd⟩ |
    ⟨hp, hptr, htbl, hdel⟩
  · -- a pointer handle off pointer mode: nothing changes
    simpa [hptr] using hi
  · -- a pointer-mode delete gives up the insert's reference
    have hx := hpin hptr hp
    simp only [hptr, hp, and_self, if_true]
    refine ⟨hi.refs_of_drops hd fun y => ?_, fun y _ => hptr⟩
    by_cases hyx : y = x
    · subst hyx
      simp [hhRefCount, hx]
    · simp [hhRefCount, hyx]
  · -- otherwise the table gives up its reference, if it held one
    simp only [hp, Bool.false_eq_true, and_false, if_false]
    have hpinned : ∀ y, g.pinned y = true → hh'.chPtrtype = true := fun y hy =>
      hptr ▸ hi.pinned y hy
    rcases hdel with ⟨hx, heph, hd⟩ | ⟨hno, rfl⟩
    · refine ⟨hi.refs_of_drops hd fun y => ?_, hpinned⟩
      simp only [hhRefCount, htbl y]
      by_cases hyx : y = x
      · subst hyx
        simp [tblRef, hx, heph]
        omega
      · simp [hyx]
    · refine ⟨hi.refs_of_grows (HhMem.Grows.refl s.m) fun y => ?_, hpinned⟩
      simp only [hhRefCount, htbl y]
      by_cases hyx : y = x
      · subst hyx
        simp [tblRef, hno]
      · simp [hyx]

theorem HhRefInv.getref (hi : HhRefInv s g) (x : UInt64) :
    HhRefInv ⟨s.hh, dHhashLinkGetref s.m x, s.made⟩ (g.hold x) := by
  refine ⟨hi.refs_of_grows (grows_hhOpRecAddref s.m x) fun y => ?_, hi.pinned⟩
  simp only [hhRefCount, HhGhost.holds_hold, HhGhost.pinned_hold]
  omega

theorem HhRefInv.putref (hi : HhRefInv s g) {x : UInt64} {m' : HhMem} (hpos : 0 < g.holds x)
    (h : dHhashLinkPutref s.hh s.m x = some m') :
    HhRefInv ⟨s.hh, m', s.made⟩ (g.drop x) := by
  refine ⟨hi.refs_of_drops (drops_dHhashLinkPutref h).2 fun y => ?_, hi.pinned⟩
  simp only [hhRefCount, HhGhost.holds_drop, HhGhost.pinned_drop]
  by_cases hyx : y = x
  · subst hyx
    simp only [if_true]
    omega
  · simp [hyx]

theorem HhRefInv.step {t : HhState} {g' : HhGhost} (hi : HhRefInv s g) (hw : HhashWf s)
    (hst : HhRefStep s g t g') : HhRefInv t g' := by
  cases hst with
  | setPtrtype => exact hi.setPtrtype
  | hlinkInit hopFree hx _ hp => exact hi.hlinkInit hopFree hx hp
  | insert hx _ hp h => exact hi.insert hx hp h
  | lookup key => exact hi.lookup key
  | delete hpin h => exact hi.delete hw.wf.nodup hpin h
  | getref _ => exact hi.getref _
  | putref hpos h => exact hi.putref hpos h

/-- The count is exact all along every counted run. -/
theorem HhRefReach.inv (h : HhRefReach s g) : HhRefInv s g := by
  induction h with
  | create hz hc => exact HhRefInv.create hz hc
  | step hr hst ih => exact ih.step hr.toReach.wf hst

end RefInv

/-! ### What the counting guarantees -/

section Guarantees

variable {s t : HhState} {g g' : HhGhost}

/-- A run of three calls: `d_hhash_create` over zeroed memory, `d_hhash_hlink_init` of a link at
address `2` that has a `hop_free`, and its caller's `d_hhash_link_putref`. -/
theorem hhRefReach_putref : ∃ s g t g', HhRefReach s g ∧ HhRefStep s g t g' ∧
    (s.m.hlinks 2).hlOpsFree = true ∧ g.holds 2 = 1 ∧ hhRefCount s g 2 = 1 ∧
    hhRefCount t g' 2 = 0 := by
  have hc : dHhashCreate 0 0 true 0 ⟨0, fun _ => ⟨0, 0, false, false⟩, []⟩ =
      .ok (⟨⟨0, 0, fun _ => []⟩, false⟩, ⟨1, fun _ => ⟨0, 0, false, false⟩, []⟩) := rfl
  have hx : (2 : UInt64) ∉ (⟨0, 0, fun _ => []⟩ : DHashTable UInt64).members := by
    simp [DHashTable.members, Buckets.members]
  have h₁ := (HhRefReach.create (fun _ => rfl) hc).step (HhRefStep.hlinkInit _ _ true hx rfl rfl)
  obtain ⟨m', hput⟩ : ∃ m', dHhashLinkPutref ⟨⟨0, 0, fun _ => []⟩, false⟩
      (dHhashHlinkInit ⟨1, fun _ => ⟨0, 0, false, false⟩, []⟩ 2 true) 2 = some m' := ⟨_, rfl⟩
  refine ⟨_, _, _, _, h₁, HhRefStep.putref _ _ ?_ hput, rfl, ?_, ?_, rfl⟩
  all_goals decide

/-- Over every run whose callers keep to the counting (each putref and getref by a holder, each
new link initialized once and inserted once by its holder, a pointer-mode link deleted once after
its insert), `rl_ref` of each link is exactly the number of its holders, plus one while the table
holds it, plus one while its pointer-mode insert stands; and only a table in pointer mode has such
an insert standing. -/
theorem hhash_rl_ref_exact (h : HhRefReach s g) (x : UInt64) :
    (s.m.hlinks x).rlRef = hhRefCount s g x ∧ (g.pinned x = true → s.hh.chPtrtype = true) :=
  ⟨h.inv.refs x, h.inv.pinned x⟩

theorem hhash_rl_ref_exact_run : ∃ s g, HhRefReach s g ∧ g.holds 2 = 1 ∧
    (s.m.hlinks 2).rlRef = hhRefCount s g 2 ∧ (g.pinned 2 = true → s.hh.chPtrtype = true) := by
  obtain ⟨s, g, -, -, h, -, -, hholds, -, -⟩ := hhRefReach_putref
  exact ⟨s, g, h, hholds, hhash_rl_ref_exact h 2⟩

/-- Over every such run, a call calls `hop_free` on a link exactly when the link has one, the
run accounted for one reference on it before the call, and for none after. -/
theorem hhash_free_iff_last_ref (h : HhRefReach s g) (hst : HhRefStep s g t g') (x : UInt64) :
    t.m.freed = x :: s.m.freed ↔
      (s.m.hlinks x).hlOpsFree = true ∧ hhRefCount s g x = 1 ∧ hhRefCount t g' x = 0 := by
  rw [← h.inv.refs x, ← (h.step hst).inv.refs x]
  exact hst.toStep.freed_iff h.toReach.wf x

theorem hhash_free_iff_last_ref_putref : ∃ s g t g', HhRefReach s g ∧ HhRefStep s g t g' ∧
    t.m.freed = 2 :: s.m.freed ∧ hhRefCount s g 2 = 1 ∧ hhRefCount t g' 2 = 0 := by
  obtain ⟨s, g, t, g', h, hst, hfree, -, h1, h0⟩ := hhRefReach_putref
  exact ⟨s, g, t, g', h, hst, (hhash_free_iff_last_ref h hst 2).2 ⟨hfree, h1, h0⟩, h1, h0⟩

end Guarantees

end Daos.Gurt

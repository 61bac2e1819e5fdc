import Mathlib
import Daos.Gurt.HashRun

/-!
# Runs of the handle table

A run of the handle table is any sequence of the calls of `d_hhash` from `d_hhash_create`:
`d_hhash_set_ptrtype`, `d_hhash_hlink_init`, `d_hhash_link_insert`, `d_hhash_link_lookup`,
`d_hhash_link_delete`, `d_hhash_link_getref` and `d_hhash_link_putref`, each with any arguments
whose assertions pass. A link is initialized and inserted while it is off the table, as every
caller does with a new object. `HhashReach` is that set of runs, with a ghost count of the
handles `hh_op_key_init` has made: the cookie is a `uint64_t`, and the results below hold while
fewer than `2 ^ 60` handles have been made, before the cookie overflows the bits above the type.

**What is proved.** The table is well formed, and holds nothing in pointer mode, all along every
run (`HhashReach.wf`); while the cookie has room, `HhashInv` holds too (`HhashReach.inv`): each
handle on the table was made from a cookie already given out, and no two links on the table share
a handle. So over every run: `d_hhash_link_lookup` finds exactly
the link on the table with the handle, or in pointer mode the link at the handle's address; a
link inserted with a client handle type is found by its handle, which names its type; and a
handle that resolves to nothing never resolves again, since no handle is made twice.
-/

namespace Daos.Gurt

open Multimap

/-! ### What the callbacks of `hh_ops` keep -/

theorem hhOpRecFree_keep (m : HhMem) (x : UInt64) :
    (hhOpRecFree m x).chCookie = m.chCookie ∧ hhKeyOf (hhOpRecFree m x) = hhKeyOf m := by
  unfold hhOpRecFree
  split_ifs
  · exact ⟨rfl, rfl⟩
  · exact ⟨rfl, rfl⟩

/-- Taking, dropping and freeing a reference keep the cookie and the key of every link. -/
theorem hhOps_keep (c : UInt64) (K : UInt64 → UInt64) :
    OpsKeep hhOps fun m => m.chCookie = c ∧ hhKeyOf m = K where
  addref m x hm := ⟨hm.1, (hhOps_lawful.addref m x).trans hm.2⟩
  decref m x hm := ⟨hm.1, (hhOps_lawful.decref m x).trans hm.2⟩
  free m x hm := ⟨(hhOpRecFree_keep m x).1.trans hm.1, (hhOpRecFree_keep m x).2.trans hm.2⟩

theorem dHhashLinkPutref_keep {hh : DHhash} {m m' : HhMem} {x : UInt64}
    (h : dHhashLinkPutref hh m x = some m') :
    m'.chCookie = m.chCookie ∧ hhKeyOf m' = hhKeyOf m := by
  have hk := hhOps_keep m.chCookie (hhKeyOf m)
  unfold dHhashLinkPutref at h
  split_ifs at h
  cases h
  have hdec := hk.decref m x ⟨rfl, rfl⟩
  split_ifs
  · exact hk.free _ x hdec
  · exact hdec

/-! ### The state of a run -/

/-- A state of a run: the handle table, the memory, and how many handles `hh_op_key_init` has
made since `d_hhash_create`, a count that no field of the source keeps. -/
structure HhState where
  hh : DHhash
  m : HhMem
  made : ℕ

/-- The links of each handle on the table, in the order a lookup meets them. -/
def hhView (s : HhState) : UInt64 → List UInt64 := dHashView hhOps hhKeyOf s.hh.chHtable s.m

/-- One call of the handle table. A link is initialized and inserted while it is off the
table. -/
inductive HhashStep : HhState → HhState → Prop
  | setPtrtype (s : HhState) : HhashStep s ⟨(dHhashSetPtrtype s.hh).2, s.m, s.made⟩
  | hlinkInit (s : HhState) {x : UInt64} (hopFree : Bool) : x ∉ s.hh.chHtable.members →
      HhashStep s ⟨s.hh, dHhashHlinkInit s.m x hopFree, s.made⟩
  | insert (s : HhState) {x : UInt64} {type : ℤ} {hh' : DHhash} {m' : HhMem} :
      x ∉ s.hh.chHtable.members → dHhashLinkInsert s.hh s.m x type = some (hh', m') →
      HhashStep s ⟨hh', m', if s.hh.chPtrtype then s.made else s.made + 1⟩
  | lookup (s : HhState) (key : UInt64) :
      HhashStep s ⟨(dHhashLinkLookup s.hh s.m key).2.1, (dHhashLinkLookup s.hh s.m key).2.2, s.made⟩
  | delete (s : HhState) {x : UInt64} {b : Bool} {hh' : DHhash} {m' : HhMem} :
      dHhashLinkDelete s.hh s.m x = some (b, hh', m') → HhashStep s ⟨hh', m', s.made⟩
  | getref (s : HhState) (x : UInt64) : HhashStep s ⟨s.hh, dHhashLinkGetref s.m x, s.made⟩
  | putref (s : HhState) {x : UInt64} {m' : HhMem} : dHhashLinkPutref s.hh s.m x = some m' →
      HhashStep s ⟨s.hh, m', s.made⟩

/-- The states a run reaches from a `d_hhash_create` that succeeds. -/
inductive HhashReach : HhState → Prop
  | create {feats bits : ℕ} {memOk : Bool} {createRc : ℤ} {m₀ m : HhMem} {hh : DHhash} :
      dHhashCreate feats bits memOk createRc m₀ = .ok (hh, m) → HhashReach ⟨hh, m, 0⟩
  | step {s t : HhState} : HhashReach s → HhashStep s t → HhashReach t

theorem HhashReach.of_steps {s t : HhState} (h : HhashReach s)
    (hst : Relation.ReflTransGen HhashStep s t) : HhashReach t := by
  induction hst with
  | refl => exact h
  | tail _ hut ih => exact ih.step hut

theorem HhashStep.made_le {s t : HhState} (hst : HhashStep s t) : s.made ≤ t.made := by
  cases hst with
  | insert _ _ =>
    split_ifs
    · exact le_rfl
    · exact Nat.le_succ _
  | _ => exact le_rfl

theorem made_le_of_steps {s t : HhState} (hst : Relation.ReflTransGen HhashStep s t) :
    s.made ≤ t.made := by
  induction hst with
  | refl => exact le_rfl
  | tail _ hut ih => exact ih.trans hut.made_le

/-! ### What one call does to the handles -/

/-- A call that makes no handle: the table stays well formed, each handle keeps a sublist of its
links, the cookie and the count are kept, and pointer mode is set only on an empty table. -/
structure HhShrink (s t : HhState) : Prop where
  wf : DHashWf hhOps hhKeyOf t.hh.chHtable t.m
  sub : ∀ k, (hhView t k).Sublist (hhView s k)
  cookie : t.m.chCookie = s.m.chCookie
  made : t.made = s.made
  ptr : t.hh.chPtrtype = s.hh.chPtrtype ∨ ∀ k, hhView s k = []

/-- `d_hhash_link_insert` off pointer mode: the link is pushed on the list of the handle made from
the cookie, which goes up by one. -/
structure HhPush (s t : HhState) (x : UInt64) (type : ℤ) : Prop where
  wf : DHashWf hhOps hhKeyOf t.hh.chHtable t.m
  view : hhView t = push (hhView s) (hhKey s.m.chCookie type) x
  key : hhKeyOf t.m x = hhKey s.m.chCookie type
  cookie : t.m.chCookie = s.m.chCookie + 1
  made : t.made = s.made + 1
  ptr : s.hh.chPtrtype = false ∧ t.hh.chPtrtype = false

/-- What `d_hhash_link_insert` does in each mode. -/
theorem dHhashLinkInsert_cases {hh hh' : DHhash} {m m' : HhMem} {x : UInt64} {type : ℤ}
    (h : dHhashLinkInsert hh m x type = some (hh', m')) :
    (hh.chPtrtype = true ∧ hh' = hh ∧ m' = hhOpRecAddref (m.modLink x fun r => { r with hlKey := x }) x) ∨
      (hh.chPtrtype = false ∧ ∃ r, dHashRecInsertAnonym hhOps (some hhOpKeyInit) hh.chHtable m x type = .ok r ∧
        hh' = { hh with chHtable := r.1 } ∧ m' = r.2) := by
  unfold dHhashLinkInsert at h
  split_ifs at h with hinit hptr hkey hzero
  · cases h
    exact .inl ⟨hptr, rfl, rfl⟩
  · have hptr' : hh.chPtrtype = false := by simpa using hptr
    refine .inr ⟨hptr', ?_⟩
    split at h
    · rename_i r hr
      cases h
      exact ⟨r, hr, rfl, rfl⟩
    · rename_i hr
      simp [dHashRecInsertAnonym] at hr
/-- Off pointer mode, the insert of an initialized link with a type that fits and is not
`D_HTYPE_PTR` passes its assertions. -/
theorem dHhashLinkInsert_isSome {hh : DHhash} {m : HhMem} {x : UInt64} {type : ℤ}
    (hinit : (m.hlinks x).rlInitialized = true) (hptr : hh.chPtrtype = false) (h16 : type < 16)
    (h0 : type ≠ dHtypePtr) : (dHhashLinkInsert hh m x type).isSome := by
  have h16' : type < ((1 <<< dHtypeBits.toNat : ℕ) : ℤ) := h16
  unfold dHhashLinkInsert
  rw [if_neg (by rintro (h | h) <;> simp_all), if_neg (by simp [hptr]), if_neg h0]
  split <;> rfl

section Calls

variable {s : HhState} (hw : DHashWf hhOps hhKeyOf s.hh.chHtable s.m)
include hw

/-- A call that changes only the memory, keeping the cookie and every link's key. -/
theorem HhShrink.of_mem {m' : HhMem} (hc : m'.chCookie = s.m.chCookie)
    (hk : hhKeyOf m' = hhKeyOf s.m) : HhShrink s ⟨s.hh, m', s.made⟩ where
  wf := hw.of_keyOf_eq hk
  sub k := by
    rw [hhView, dHashView_of_keyOf_eq hk]
    exact List.Sublist.refl _
  cookie := hc
  made := rfl
  ptr := .inl rfl

theorem HhShrink.refl : HhShrink s s := HhShrink.of_mem hw rfl rfl

theorem dHhashSetPtrtype_shrink : HhShrink s ⟨(dHhashSetPtrtype s.hh).2, s.m, s.made⟩ := by
  unfold dHhashSetPtrtype
  split_ifs with hfail
  · exact HhShrink.refl hw
  · refine ⟨hw, fun k => List.Sublist.refl _, rfl, rfl, ?_⟩
    -- pointer mode is set on a table already in it, or on an empty one
    by_cases hptr : s.hh.chPtrtype = true
    · exact .inl hptr.symm
    · have hempty : dHashTableIsEmpty s.hh.chHtable = true := by
        simpa [hptr] using hfail
      exact .inr ((dHashTableIsEmpty_spec hw).1 hempty)

theorem dHhashHlinkInit_shrink (x : UInt64) (hopFree : Bool) :
    HhShrink s ⟨s.hh, dHhashHlinkInit s.m x hopFree, s.made⟩ :=
  HhShrink.of_mem hw rfl (hhKeyOf_modLink_of_key _ x fun _ => rfl)

theorem dHhashLinkGetref_shrink (x : UInt64) : HhShrink s ⟨s.hh, dHhashLinkGetref s.m x, s.made⟩ :=
  HhShrink.of_mem hw rfl (hhOps_lawful.addref s.m x)

theorem dHhashLinkPutref_shrink {x : UInt64} {m' : HhMem}
    (h : dHhashLinkPutref s.hh s.m x = some m') : HhShrink s ⟨s.hh, m', s.made⟩ :=
  HhShrink.of_mem hw (dHhashLinkPutref_keep h).1 (dHhashLinkPutref_keep h).2

theorem dHhashLinkLookup_shrink (key : UInt64) :
    HhShrink s ⟨(dHhashLinkLookup s.hh s.m key).2.1, (dHhashLinkLookup s.hh s.m key).2.2, s.made⟩ := by
  unfold dHhashLinkLookup
  split_ifs
  · exact HhShrink.refl hw
  · exact HhShrink.refl hw
  · exact HhShrink.refl hw
  · exact dHhashLinkGetref_shrink hw key
  · -- a handle that is not a pointer is looked up on the table
    obtain ⟨-, hview, hw'⟩ := dHashRecFind_spec hhOps_lawful hw key
    exact ⟨hw', fun k => by rw [hhView, hhView, hview], (hhOps_keep _ _).find ⟨rfl, rfl⟩ key |>.1,
      rfl, .inl rfl⟩

theorem dHhashLinkDelete_shrink {x : UInt64} {b : Bool} {hh' : DHhash} {m' : HhMem}
    (h : dHhashLinkDelete s.hh s.m x = some (b, hh', m')) : HhShrink s ⟨hh', m', s.made⟩ := by
  unfold dHhashLinkDelete at h
  split_ifs at h
  · cases h
    exact HhShrink.refl hw
  · obtain ⟨m'', hput, hm⟩ := Option.map_eq_some_iff.1 h
    cases hm
    exact dHhashLinkPutref_shrink hw hput
  · -- a link with a handle that is not a pointer is deleted from the table
    cases h
    obtain ⟨-, hview, hw'⟩ := dHashRecDeleteAt_spec hhOps_lawful hw x
    refine ⟨hw', fun k => ?_, (hhOps_keep _ _).deleteAt ⟨rfl, rfl⟩ x |>.1, rfl, .inl rfl⟩
    rw [hhView, hhView, hview]
    exact List.erase_sublist

/-- `d_hhash_link_insert` of a link off the table: in pointer mode the link's address becomes its
handle and the table is untouched; otherwise the link is pushed on the list of a new handle. -/
theorem dHhashLinkInsert_step {x : UInt64} {type : ℤ} {hh' : DHhash} {m' : HhMem}
    (hx : x ∉ s.hh.chHtable.members) (h : dHhashLinkInsert s.hh s.m x type = some (hh', m')) :
    (s.hh.chPtrtype = true ∧ HhShrink s ⟨hh', m', s.made⟩) ∨
      HhPush s ⟨hh', m', s.made + 1⟩ x type := by
  rcases dHhashLinkInsert_cases h with ⟨hptr, rfl, rfl⟩ | ⟨hptr, r, hr, rfl, rfl⟩
  · -- the handle is written into the link, which is off the table
    have hkeys : ∀ y ∈ s.hh.chHtable.members,
        hhKeyOf (hhOpRecAddref (s.m.modLink x fun r => { r with hlKey := x }) x) y = hhKeyOf s.m y := by
      intro y hy
      have hyx : y ≠ x := fun hyx => hx (by rwa [hyx] at hy)
      calc hhKeyOf (hhOpRecAddref (s.m.modLink x fun r => { r with hlKey := x }) x) y
          = hhKeyOf (s.m.modLink x fun r => { r with hlKey := x }) y :=
            congrFun (hhOps_lawful.addref _ x) y
        _ = hhKeyOf s.m y := congrArg DHlink.hlKey (HhMem.modLink_hlinks_of_ne _ hyx _)
    refine .inl ⟨hptr, hw.congr hkeys, fun k => ?_, rfl, rfl, .inl rfl⟩
    rw [hhView, hhView, hw.view_congr hkeys]
  · obtain ⟨ht', s', hok, hkey, hview, hw'⟩ := dHashRecInsertAnonym_spec hhOps_lawful hw hhOpKeyInit
      type hx fun y hy => hhKeyOf_hhOpKeyInit_of_ne s.m hy type
    rw [hok] at hr
    cases hr
    -- `hh_op_key_init` took the cookie and moved it on
    have hcookie : s'.chCookie = s.m.chCookie + 1 :=
      ((hhOps_keep (s.m.chCookie + 1) _).insertAnonym ⟨rfl, rfl⟩ hok).1
    rw [hhKeyOf_hhOpKeyInit] at hkey hview
    exact .inr ⟨hw', hview, hkey, hcookie, rfl, hptr, hptr⟩

/-- Every call makes no handle, or one, from the cookie. -/
theorem HhashStep.shrink_or_push {t : HhState} (hst : HhashStep s t) :
    HhShrink s t ∨ ∃ x type, HhPush s t x type := by
  cases hst with
  | setPtrtype => exact .inl (dHhashSetPtrtype_shrink hw)
  | hlinkInit hopFree _ => exact .inl (dHhashHlinkInit_shrink hw _ hopFree)
  | insert hx h =>
    rcases dHhashLinkInsert_step hw hx h with ⟨hptr, hs⟩ | hp
    · rw [if_pos hptr]
      exact .inl hs
    · rw [if_neg (by rw [hp.ptr.1]; exact Bool.false_ne_true)]
      exact .inr ⟨_, _, hp⟩
  | lookup key => exact .inl (dHhashLinkLookup_shrink hw key)
  | delete h => exact .inl (dHhashLinkDelete_shrink hw h)
  | getref x => exact .inl (dHhashLinkGetref_shrink hw x)
  | putref h => exact .inl (dHhashLinkPutref_shrink hw h)

/-- What `d_hhash_link_lookup` returns: a pointer handle is read at its address, in pointer mode
only; another handle's link is the front of its list. -/
theorem dHhashLinkLookup_fst (key : UInt64) :
    (dHhashLinkLookup s.hh s.m key).1 =
      if dHhashKeyIsptr key = true then
        (if key ≠ 0 ∧ s.hh.chPtrtype = true ∧ hhKeyOf s.m key = key then some key else none)
      else (hhView s key).head? := by
  unfold dHhashLinkLookup
  by_cases hp : dHhashKeyIsptr key = true
  · rw [if_pos hp, if_pos hp]
    by_cases h0 : key = 0
    · simp [h0]
    · by_cases hptr : s.hh.chPtrtype = true
      · by_cases hk : (s.m.hlinks key).hlKey = key
        · simp [h0, hptr, hk, hhKeyOf]
        · simp [h0, hptr, hk, hhKeyOf]
      · simp [h0, hptr]
  · rw [if_neg hp, if_neg hp]
    exact (dHashRecFind_spec hhOps_lawful hw key).1

end Calls

/-! ### The invariant of a run -/

/-- What every state of a run keeps: the table is well formed, and holds nothing in pointer
mode. -/
structure HhashWf (s : HhState) : Prop where
  wf : DHashWf hhOps hhKeyOf s.hh.chHtable s.m
  ptrEmpty : s.hh.chPtrtype = true → ∀ k, hhView s k = []

/-- What every state of a run keeps while fewer than `2 ^ 60` handles have been made. -/
structure HhashInv (s : HhState) : Prop extends HhashWf s where
  /-- The cookie is the next one to give out. -/
  cookie : s.m.chCookie.toNat = s.made + 1
  /-- Each handle on the table was made from a cookie already given out. -/
  issued : ∀ k, hhView s k ≠ [] → ∃ c type, k = hhKey c type ∧ 1 ≤ c.toNat ∧ c.toNat ≤ s.made
  /-- No two links on the table share a handle. -/
  unique : ∀ k, (hhView s k).length ≤ 1

section Inv

variable {s t : HhState}

theorem HhashInv.create {feats bits : ℕ} {memOk : Bool} {createRc : ℤ} {m₀ m : HhMem}
    {hh : DHhash} (h : dHhashCreate feats bits memOk createRc m₀ = .ok (hh, m)) :
    HhashInv ⟨hh, m, 0⟩ := by
  unfold dHhashCreate at h
  split_ifs at h
  cases h
  have hnew : dHashView hhOps hhKeyOf ⟨feats, bits, fun _ => []⟩ { m₀ with chCookie := 1 } =
      (fun _ => []) ∧ DHashWf hhOps hhKeyOf ⟨feats, bits, fun _ => []⟩ { m₀ with chCookie := 1 } :=
    dHashWf_create feats bits _
  obtain ⟨hview, hw⟩ := hnew
  refine ⟨⟨hw, fun h => absurd h Bool.false_ne_true⟩, rfl, fun k hk => absurd (congrFun hview k) hk,
    fun k => ?_⟩
  rw [hhView, congrFun hview k]
  exact Nat.zero_le 1

theorem HhashWf.of_shrink (hi : HhashWf s) (hs : HhShrink s t) : HhashWf t where
  wf := hs.wf
  ptrEmpty hptr k := by
    rcases hs.ptr with h | h
    · exact List.sublist_nil.1 (hi.ptrEmpty (h ▸ hptr) k ▸ hs.sub k)
    · exact List.sublist_nil.1 (h k ▸ hs.sub k)

theorem HhashWf.of_push {x : UInt64} {type : ℤ} (hp : HhPush s t x type) : HhashWf t :=
  ⟨hp.wf, fun h => absurd h (by rw [hp.ptr.2]; decide)⟩

theorem HhashWf.step (hi : HhashWf s) (hst : HhashStep s t) : HhashWf t := by
  rcases hst.shrink_or_push hi.wf with hs | ⟨x, type, hp⟩
  · exact hi.of_shrink hs
  · exact HhashWf.of_push hp

/-- The table is well formed, and empty in pointer mode, all along every run. -/
theorem HhashReach.wf (h : HhashReach s) : HhashWf s := by
  induction h with
  | create hc => exact (HhashInv.create hc).toHhashWf
  | step _ hst ih => exact ih.step hst

theorem HhashInv.of_shrink (hi : HhashInv s) (hs : HhShrink s t) : HhashInv t where
  toHhashWf := hi.toHhashWf.of_shrink hs
  cookie := by rw [hs.cookie, hs.made]; exact hi.cookie
  issued k hk := by
    rw [hs.made]
    exact hi.issued k fun hnil => hk (List.sublist_nil.1 (hnil ▸ hs.sub k))
  unique k := (hs.sub k).length_le.trans (hi.unique k)

/-- The cookie has made no handle on the table yet. -/
theorem HhashInv.fresh (hi : HhashInv s) (hlt : s.made + 1 < 2 ^ 60) (type : ℤ) :
    hhView s (hhKey s.m.chCookie type) = [] := by
  by_contra hne
  obtain ⟨c, type', hk, -, hc⟩ := hi.issued _ hne
  have hcs := hhKey_inj (by rw [hi.cookie]; exact hlt) (by omega) hk
  have := hi.cookie
  rw [hcs] at this
  omega

theorem HhashInv.of_push {x : UInt64} {type : ℤ} (hi : HhashInv s) (hp : HhPush s t x type)
    (hmade : t.made < 2 ^ 60) : HhashInv t := by
  have hlt : s.made + 1 < 2 ^ 60 := hp.made ▸ hmade
  have hfresh := hi.fresh hlt type
  refine ⟨HhashWf.of_push hp, ?_, fun k hk => ?_, fun k => ?_⟩
  · rw [hp.cookie, hp.made, UInt64.toNat_add, hi.cookie, UInt64.toNat_one]
    omega
  · rw [hp.view] at hk
    by_cases hkk : k = hhKey s.m.chCookie type
    · exact ⟨s.m.chCookie, type, hkk, by rw [hi.cookie]; omega, by rw [hi.cookie, hp.made]⟩
    · rw [push, Function.update_of_ne hkk] at hk
      obtain ⟨c, type', hk', hc1, hc⟩ := hi.issued k hk
      exact ⟨c, type', hk', hc1, by rw [hp.made]; omega⟩
  · rw [hp.view]
    by_cases hkk : k = hhKey s.m.chCookie type
    · rw [hkk, push, Function.update_self, hfresh]
      exact le_rfl
    · rw [push, Function.update_of_ne hkk]
      exact hi.unique k

theorem HhashInv.step (hi : HhashInv s) (hst : HhashStep s t) (hmade : t.made < 2 ^ 60) :
    HhashInv t := by
  rcases hst.shrink_or_push hi.wf with hs | ⟨x, type, hp⟩
  · exact hi.of_shrink hs
  · exact hi.of_push hp hmade

/-- The invariant holds all along a run, while fewer than `2 ^ 60` handles have been made. -/
theorem HhashReach.inv (h : HhashReach s) (hmade : s.made < 2 ^ 60) : HhashInv s := by
  induction h with
  | create hc => exact HhashInv.create hc
  | step _ hst ih => exact (ih (lt_of_le_of_lt hst.made_le hmade)).step hst hmade

theorem HhashInv.mem_view_iff (hi : HhashInv s) {k x : UInt64} :
    x ∈ hhView s k ↔ x ∈ s.hh.chHtable.members ∧ hhKeyOf s.m x = k := by
  constructor
  · intro hx
    have hkey : hhKeyOf s.m x = k := key_of_mem_view hx
    exact ⟨hi.wf.mem_members_iff.2 (hkey ▸ hx), hkey⟩
  · rintro ⟨hx, rfl⟩
    exact hi.wf.mem_members_iff.1 hx

/-- Along the calls from a reachable state, a handle already made keeps a sublist of its links:
no link on the table is given it again. -/
theorem hhView_sublist_of_steps (h : HhashReach s) (hst : Relation.ReflTransGen HhashStep s t)
    (hmade : t.made < 2 ^ 60) {c : UInt64} (hc : c.toNat ≤ s.made) (type : ℤ) :
    (hhView t (hhKey c type)).Sublist (hhView s (hhKey c type)) := by
  induction hst with
  | refl => exact List.Sublist.refl _
  | @tail u v hsu huv ih =>
    have hu : u.made < 2 ^ 60 := lt_of_le_of_lt huv.made_le hmade
    have hi := (h.of_steps hsu).inv hu
    rcases huv.shrink_or_push hi.wf with hs | ⟨x, type', hp⟩
    · exact (hs.sub _).trans (ih hu)
    · -- the handle this call makes is from a cookie past those `s` had given out
      have hsu' := made_le_of_steps hsu
      have hv := hp.made
      have hne : hhKey c type ≠ hhKey u.m.chCookie type' := by
        intro heq
        have hcu := hhKey_inj (by omega) (by rw [hi.cookie]; omega) heq
        have hcookie := hi.cookie
        rw [← hcu] at hcookie
        omega
      rw [hp.view, push, Function.update_of_ne hne]
      exact ih hu

end Inv

/-! ### Handles over whole runs -/

section Handles

variable {s t : HhState}

/-- A run of two calls: `d_hhash_create` of a table of one bucket, and `d_hhash_hlink_init` of a
link at address `2`. -/
theorem hhashReach_hlinkInit : ∃ s : HhState, HhashReach s ∧ s.made = 0 ∧ s.hh.chPtrtype = false ∧
    (2 : UInt64) ∉ s.hh.chHtable.members ∧ (s.m.hlinks 2).rlInitialized = true ∧
    (dHhashLinkLookup s.hh s.m (hhKey 0 1)).1 = none := by
  have hc : dHhashCreate 0 0 true 0 ⟨0, fun _ => ⟨0, 0, false, false⟩, []⟩ =
      .ok (⟨⟨0, 0, fun _ => []⟩, false⟩, ⟨1, fun _ => ⟨0, 0, false, false⟩, []⟩) := rfl
  have hx : (2 : UInt64) ∉ (⟨0, 0, fun _ => []⟩ : DHashTable UInt64).members := by
    simp [DHashTable.members, Buckets.members]
  exact ⟨_, (HhashReach.create hc).step (HhashStep.hlinkInit _ false hx), rfl, rfl, hx, rfl, rfl⟩

/-- The same run, then `d_hhash_link_insert` of the link with type `1`: it gets the handle of
cookie `1`. -/
theorem hhashReach_inserted : ∃ s t : HhState, HhashReach s ∧ HhashStep s t ∧ s.made = 0 ∧
    t.made = 1 ∧ (dHhashLinkLookup s.hh s.m (hhKey 0 1)).1 = none ∧ t.hh.chPtrtype = false ∧
    2 ∈ t.hh.chHtable.members ∧ hhKeyOf t.m 2 = hhKey 1 1 := by
  obtain ⟨s, h, hmade, hptr, hx, hinit, hnone⟩ := hhashReach_hlinkInit
  have hi := h.inv (by rw [hmade]; norm_num)
  obtain ⟨⟨hh', m'⟩, hins⟩ := Option.isSome_iff_exists.1
    (dHhashLinkInsert_isSome hinit hptr (by norm_num : (1 : ℤ) < 16) (by decide))
  rcases dHhashLinkInsert_step hi.wf hx hins with ⟨hp, -⟩ | hp
  · rw [hptr] at hp
    cases hp
  · have hst := HhashStep.insert s hx hins
    rw [if_neg (by rw [hptr]; exact Bool.false_ne_true)] at hst
    have hcookie : s.m.chCookie = 1 := UInt64.toNat_inj.1 (by rw [hi.cookie, hmade]; rfl)
    have hv : (2 : UInt64) ∈ hhView ⟨hh', m', s.made + 1⟩ (hhKeyOf m' 2) := by
      rw [hp.view, hp.key, push, Function.update_self]
      exact List.mem_cons_self
    refine ⟨s, _, h, hst, hmade, by rw [hmade], hnone, hp.ptr.2, hp.wf.mem_members_iff.2 hv, ?_⟩
    rw [hp.key, hcookie]

/-- Over every run, while fewer than `2 ^ 60` handles have been made: the cookie is the next one to
give out, each link on the table has a handle made from a cookie already given out, no two links
on the table share a handle, and a table in pointer mode holds no link. -/
theorem hhash_handles_unique (h : HhashReach s) (hmade : s.made < 2 ^ 60) :
    s.m.chCookie.toNat = s.made + 1 ∧
      (∀ x ∈ s.hh.chHtable.members,
        ∃ c type, hhKeyOf s.m x = hhKey c type ∧ 1 ≤ c.toNat ∧ c.toNat ≤ s.made) ∧
      (∀ x ∈ s.hh.chHtable.members, ∀ y ∈ s.hh.chHtable.members,
        hhKeyOf s.m x = hhKeyOf s.m y → x = y) ∧
      (s.hh.chPtrtype = true → s.hh.chHtable.members = []) := by
  have hi := h.inv hmade
  refine ⟨hi.cookie, fun x hx => ?_, fun x hx y hy hxy => ?_,
    fun hptr => hi.wf.members_eq_nil_iff.2 (hi.ptrEmpty hptr)⟩
  · have hv : x ∈ hhView s (hhKeyOf s.m x) := hi.mem_view_iff.2 ⟨hx, rfl⟩
    exact hi.issued _ (List.ne_nil_of_mem hv)
  · have hxv : x ∈ hhView s (hhKeyOf s.m x) := hi.mem_view_iff.2 ⟨hx, rfl⟩
    have hyv : y ∈ hhView s (hhKeyOf s.m x) := hi.mem_view_iff.2 ⟨hy, hxy.symm⟩
    exact eq_of_mem_of_length_le_one (hi.unique _) hxv hyv

theorem hhash_handles_unique_run : ∃ s : HhState, HhashReach s ∧ s.made = 1 ∧
    2 ∈ s.hh.chHtable.members ∧ s.m.chCookie.toNat = s.made + 1 ∧
      (∀ x ∈ s.hh.chHtable.members,
        ∃ c type, hhKeyOf s.m x = hhKey c type ∧ 1 ≤ c.toNat ∧ c.toNat ≤ s.made) ∧
      (∀ x ∈ s.hh.chHtable.members, ∀ y ∈ s.hh.chHtable.members,
        hhKeyOf s.m x = hhKeyOf s.m y → x = y) ∧
      (s.hh.chPtrtype = true → s.hh.chHtable.members = []) := by
  obtain ⟨s, t, h, hst, -, hmade, -, -, hmem, -⟩ := hhashReach_inserted
  exact ⟨t, h.step hst, hmade, hmem, hhash_handles_unique (h.step hst) (by rw [hmade]; norm_num)⟩

/-- Over every run, `d_hhash_link_lookup` finds exactly the link that has the handle: in pointer
mode the link at the handle's address, when its key is the handle; otherwise the one link on the
table with the handle, and nothing for a pointer handle. -/
theorem dHhashLinkLookup_finds (h : HhashReach s) (hmade : s.made < 2 ^ 60) (key x : UInt64) :
    (dHhashLinkLookup s.hh s.m key).1 = some x ↔
      if s.hh.chPtrtype = true then
        x = key ∧ key ≠ 0 ∧ dHhashKeyIsptr key = true ∧ hhKeyOf s.m key = key
      else dHhashKeyIsptr key = false ∧ x ∈ s.hh.chHtable.members ∧ hhKeyOf s.m x = key := by
  have hi := h.inv hmade
  rw [dHhashLinkLookup_fst hi.wf]
  by_cases hp : dHhashKeyIsptr key = true
  · -- a pointer handle is read at its address
    rw [if_pos hp]
    by_cases hptr : s.hh.chPtrtype = true
    · by_cases hc : key ≠ 0 ∧ hhKeyOf s.m key = key
      · simp [hptr, hp, hc, eq_comm]
      · simp only [hptr, true_and, if_pos, hp]
        rw [if_neg hc]
        simp only [reduceCtorEq, false_iff]
        rintro ⟨-, h0, hk⟩
        exact hc ⟨h0, hk⟩
    · simp [hptr, hp]
  · -- another handle is looked up on the table
    have hp' : dHhashKeyIsptr key = false := by simpa using hp
    rw [if_neg hp]
    by_cases hptr : s.hh.chPtrtype = true
    · rw [hi.ptrEmpty hptr key, if_pos hptr]
      simp [hp']
    · rw [if_neg hptr, head?_eq_some_iff_of_length_le_one (hi.unique key), hi.mem_view_iff]
      simp [hp']

theorem dHhashLinkLookup_finds_run : ∃ s : HhState, HhashReach s ∧ s.made = 1 ∧
    hhKeyOf s.m 2 = hhKey 1 1 ∧ (dHhashLinkLookup s.hh s.m (hhKey 1 1)).1 = some 2 := by
  obtain ⟨s, t, h, hst, -, hmade, -, hptr, hmem, hkey⟩ := hhashReach_inserted
  have hfind := dHhashLinkLookup_finds (h.step hst) (by rw [hmade]; norm_num) (hhKey 1 1) 2
  rw [if_neg (by rw [hptr]; exact Bool.false_ne_true)] at hfind
  exact ⟨t, h.step hst, hmade, hkey, hfind.2 ⟨rfl, hmem, hkey⟩⟩

/-- Over every run off pointer mode: `daos_hhash_link_insert` of an initialized link that is off
the table, with any of the client's handle types, passes its assertions, gives the link a handle
that is no pointer and whose `d_hhash_key_type` is the type, and a lookup of that handle finds the
link. -/
theorem daosHhashLinkInsert_lookup (h : HhashReach s) (hmade : s.made + 1 < 2 ^ 60)
    (hptr : s.hh.chPtrtype = false) {x : UInt64} (hx : x ∉ s.hh.chHtable.members)
    (hinit : (s.m.hlinks x).rlInitialized = true) (type : DaosHtype) :
    ∃ hh' m', daosHhashLinkInsert s.hh s.m x type.val = some (hh', m') ∧
      dHhashKeyIsptr (hhKeyOf m' x) = false ∧ dHhashKeyType (hhKeyOf m' x) = type.val ∧
      (dHhashLinkLookup hh' m' (hhKeyOf m' x)).1 = some x := by
  have hi := h.inv (by omega)
  obtain ⟨h0, h16, hodd⟩ := type.val_odd
  have hcookie : s.m.chCookie.toNat < 2 ^ 60 := by rw [hi.cookie]; exact hmade
  -- off pointer mode the wrapper passes the type on
  have hwrap : daosHhashLinkInsert s.hh s.m x type.val = dHhashLinkInsert s.hh s.m x type.val := by
    simp [daosHhashLinkInsert, hptr]
  obtain ⟨⟨hh', m'⟩, hins⟩ := Option.isSome_iff_exists.1
    (dHhashLinkInsert_isSome hinit hptr h16 (by rw [dHtypePtr]; omega))
  rcases dHhashLinkInsert_step hi.wf hx hins with ⟨hp, -⟩ | hp
  · rw [hptr] at hp
    cases hp
  · have hisptr := dHhashKeyIsptr_hhKey hcookie hodd
    refine ⟨hh', m', hwrap ▸ hins, by rw [hp.key, hisptr], ?_, ?_⟩
    · rw [hp.key]
      exact dHhashKeyType_hhKey hcookie h0.le h16 hodd
    · have hlook := dHhashLinkLookup_fst hp.wf (hhKeyOf m' x)
      dsimp only at hlook
      rw [hlook, hp.key, hisptr, if_neg Bool.false_ne_true, hp.view, push, Function.update_self]
      rfl

theorem daosHhashLinkInsert_lookup_pool : ∃ s : HhState, HhashReach s ∧ s.made = 0 ∧
    ∃ hh' m', daosHhashLinkInsert s.hh s.m 2 DaosHtype.pool.val = some (hh', m') ∧
      dHhashKeyIsptr (hhKeyOf m' 2) = false ∧ dHhashKeyType (hhKeyOf m' 2) = DaosHtype.pool.val ∧
      (dHhashLinkLookup hh' m' (hhKeyOf m' 2)).1 = some 2 := by
  obtain ⟨s, h, hmade, hptr, hx, hinit, -⟩ := hhashReach_hlinkInit
  exact ⟨s, h, hmade,
    daosHhashLinkInsert_lookup h (by rw [hmade]; norm_num) hptr hx hinit DaosHtype.pool⟩

/-- Over every run, a handle that resolves to nothing never resolves again: a handle of an odd
type, made from a cookie already given out, that `d_hhash_link_lookup` does not find, is not
found in any later state, while fewer than `2 ^ 60` handles have been made. No handle is made
twice, so a stale handle never reaches a new object. -/
theorem dHhashLinkLookup_stale (h : HhashReach s) (hst : Relation.ReflTransGen HhashStep s t)
    (hmade : t.made < 2 ^ 60) {c : UInt64} {type : ℤ} (hc : c.toNat ≤ s.made)
    (hodd : type % 2 = 1) (hnone : (dHhashLinkLookup s.hh s.m (hhKey c type)).1 = none) :
    (dHhashLinkLookup t.hh t.m (hhKey c type)).1 = none := by
  have hst' := made_le_of_steps hst
  have hs := h.inv (by omega)
  have ht := (h.of_steps hst).inv hmade
  have hisptr : dHhashKeyIsptr (hhKey c type) = false := dHhashKeyIsptr_hhKey (by omega) hodd
  rw [dHhashLinkLookup_fst hs.wf, hisptr, if_neg Bool.false_ne_true, List.head?_eq_none_iff] at hnone
  rw [dHhashLinkLookup_fst ht.wf, hisptr, if_neg Bool.false_ne_true, List.head?_eq_none_iff]
  exact List.sublist_nil.1 (hnone ▸ hhView_sublist_of_steps h hst hmade hc type)

theorem dHhashLinkLookup_stale_insert : ∃ s t : HhState, HhashReach s ∧
    Relation.ReflTransGen HhashStep s t ∧ s.made = 0 ∧ t.made = 1 ∧
    (dHhashLinkLookup s.hh s.m (hhKey 0 1)).1 = none ∧
    (dHhashLinkLookup t.hh t.m (hhKey 0 1)).1 = none := by
  obtain ⟨s, t, h, hst, hs, ht, hnone, -⟩ := hhashReach_inserted
  have hsteps := Relation.ReflTransGen.single hst
  exact ⟨s, t, h, hsteps, hs, ht, hnone,
    dHhashLinkLookup_stale h hsteps (by rw [ht]; norm_num) (by rw [hs]; rfl) (by norm_num) hnone⟩

end Handles

end Daos.Gurt

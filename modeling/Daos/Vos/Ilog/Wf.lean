import Daos.Vos.Ilog.Modify

/-!
# The representation invariant of the incarnation log

A root is well formed (`IlogRoot.Wf`) when its magic word is valid and fits 32 bits and
its body is empty, one well-formed entry, or an array of at least two and at most
`ia_max_len` well-formed entries with strictly increasing epochs. An entry is well formed
when its epoch is non-zero (`ilog_modify` asserts it, and it is what tells an embedded entry
from a tree pointer in the root's union) and its two minor epochs differ, so that it is
either an update or a punch.

During a call the invariant is `IlogContext.Inv saved`: the root the call holds is well
formed, and while no transaction is open it is still `saved`, the root the call began
from. Every helper of `ilog_modify` keeps it, and `ilog_tx_end` turns it into the result:
a well-formed root, and on an error the root the call began from.
-/

namespace Daos.Vos

/-- An entry the log can hold. -/
structure IlogId.Wf (id : IlogId) : Prop where
  epoch_ne : id.epoch ≠ 0
  minor_ne : id.punchMinorEph ≠ id.updateMinorEph

instance (id : IlogId) : Decidable id.Wf :=
  decidable_of_iff (id.epoch ≠ 0 ∧ id.punchMinorEph ≠ id.updateMinorEph)
    ⟨fun ⟨h₁, h₂⟩ => ⟨h₁, h₂⟩, fun ⟨h₁, h₂⟩ => ⟨h₁, h₂⟩⟩

/-- An array as the log keeps it; the allocation stays odd, which is what keeps every
reallocation a whole number of `ILOG_ARRAY_CHUNK_SIZE` chunks. -/
structure IlogArray.Wf (a : IlogArray) : Prop where
  two_le : 2 ≤ a.ids.length
  le_maxLen : a.ids.length ≤ a.maxLen
  maxLen_odd : a.maxLen % 2 = 1
  sorted : Keyed.Sorted IlogId.epoch a.ids
  ids_wf : ∀ id ∈ a.ids, id.Wf

instance (a : IlogArray) : Decidable a.Wf :=
  decidable_of_iff (2 ≤ a.ids.length ∧ a.ids.length ≤ a.maxLen ∧ a.maxLen % 2 = 1 ∧
      Keyed.Sorted IlogId.epoch a.ids ∧ ∀ id ∈ a.ids, id.Wf)
    ⟨fun ⟨h₁, h₂, h₃, h₄, h₅⟩ => ⟨h₁, h₂, h₃, h₄, h₅⟩,
      fun ⟨h₁, h₂, h₃, h₄, h₅⟩ => ⟨h₁, h₂, h₃, h₄, h₅⟩⟩

/-- The body of a well-formed root. -/
def IlogBody.Wf : IlogBody → Prop
  | .empty => True
  | .embedded id => id.Wf
  | .tree a => a.Wf

instance : DecidablePred IlogBody.Wf := fun b => by
  cases b <;> unfold IlogBody.Wf <;> infer_instance

/-- The representation invariant of the incarnation log. -/
structure IlogRoot.Wf (root : IlogRoot) : Prop where
  magic_valid : ilogMagicValid root.magic = true
  magic_lt : root.magic < 2 ^ 32
  body : root.body.Wf

instance (root : IlogRoot) : Decidable root.Wf :=
  decidable_of_iff (ilogMagicValid root.magic = true ∧ root.magic < 2 ^ 32 ∧ root.body.Wf)
    ⟨fun ⟨h₁, h₂, h₃⟩ => ⟨h₁, h₂, h₃⟩, fun ⟨h₁, h₂, h₃⟩ => ⟨h₁, h₂, h₃⟩⟩

/-! ### Entries, bodies and magic words -/

theorem IlogId.Wf.withTxId {id : IlogId} (h : id.Wf) (t : ℕ) : ({ id with txId := t }).Wf :=
  ⟨h.epoch_ne, h.minor_ne⟩

theorem IlogBody.Wf.mem_entries {b : IlogBody} (hb : b.Wf) {id : IlogId}
    (h : id ∈ b.entries) : id.Wf := by
  cases b with
  | empty => simp [IlogBody.entries] at h
  | embedded x =>
    obtain rfl : id = x := by simpa [IlogBody.entries] using h
    exact hb
  | tree a => exact IlogArray.Wf.ids_wf hb id h

/-- Overwriting entry `i` by a well-formed entry of the same epoch keeps the body well
formed. -/
theorem IlogBody.Wf.setId {b : IlogBody} (hb : b.Wf) {i : ℕ} {idOut id : IlogId}
    (hi : b.entries[i]? = some idOut) (hep : id.epoch = idOut.epoch) (hid : id.Wf) :
    (b.setId i id).Wf := by
  cases b with
  | empty => simp [IlogBody.entries] at hi
  | embedded x => exact hid
  | tree a =>
    obtain ⟨hlt, hget⟩ := List.getElem?_eq_some_iff.mp hi
    have ha : a.Wf := hb
    refine ⟨?_, ?_, ha.maxLen_odd, ?_, ?_⟩
    · simpa using ha.two_le
    · simpa using ha.le_maxLen
    · exact Keyed.sorted_set ha.sorted hlt id (by rw [hep, ← hget]; rfl)
    · intro x hx
      rcases List.mem_or_eq_of_mem_set hx with hx | rfl
      · exact ha.ids_wf x hx
      · exact hid

/-- Keeping at least two of an array's entries, in order, leaves a well-formed array. -/
theorem IlogArray.Wf.sublist {a : IlogArray} (ha : a.Wf) {l : List IlogId} (hl : l.Sublist a.ids)
    (h2 : 2 ≤ l.length) : ({ a with ids := l } : IlogArray).Wf :=
  ⟨h2, hl.length_le.trans ha.le_maxLen, ha.maxLen_odd, ha.sorted.sublist hl,
    fun x hx => ha.ids_wf x (hl.subset hx)⟩

/-- Removing one of at least three entries leaves a well-formed array. -/
theorem IlogArray.Wf.eraseIdx {a : IlogArray} (ha : a.Wf) (h3 : 3 ≤ a.ids.length) (i : ℕ) :
    ({ a with ids := a.ids.eraseIdx i } : IlogArray).Wf := by
  apply ha.sublist (List.eraseIdx_sublist _ _)
  rw [List.length_eraseIdx]
  split <;> omega

/-- Inserting a well-formed entry where it keeps the epochs increasing, into an allocation
of odd length `m` with room for it, leaves a well-formed array. -/
theorem IlogArray.Wf.insertIdx {a : IlogArray} (ha : a.Wf) {i : ℕ} (hi : i ≤ a.ids.length)
    {x : IlogId} (hx : x.Wf) (hs : Keyed.Sorted IlogId.epoch (a.ids.insertIdx i x)) {m : ℕ}
    (hm : a.ids.length + 1 ≤ m) (hodd : m % 2 = 1) : (⟨a.ids.insertIdx i x, m⟩ : IlogArray).Wf := by
  have hlen := List.length_insertIdx_of_le_length hi x
  refine ⟨?_, ?_, hodd, hs, ?_⟩
  · dsimp only
    have := ha.two_le
    omega
  · dsimp only
    omega
  · intro y hy
    rcases (List.mem_insertIdx hi).mp hy with rfl | hy
    · exact hx
    · exact ha.ids_wf y hy

/-- `ilog_ver_inc` keeps the magic word valid within 32 bits: the version wraps from
`ILOG_VERSION_MASK` back to `1`. -/
theorem ilogVerInc_valid {m : ℕ} (h : ilogMagicValid m = true) (hlt : m < 2 ^ 32) :
    ilogMagicValid (ilogVerInc m) = true ∧ ilogVerInc m < 2 ^ 32 := by
  simp only [ilogMagicValid, decide_eq_true_eq] at h ⊢
  unfold ilogVerInc
  by_cases hmax : m / ilogVersionInc = ilogVersionMax
  · rw [if_pos hmax]
    simp only [ilogVersionInc, ilogVersionMax, ilogMagic] at h hmax ⊢
    omega
  · rw [if_neg hmax]
    simp only [ilogVersionInc, ilogVersionMax, ilogMagic] at h hmax ⊢
    omega

/-- A well-formed body under the magic word of a well-formed root. -/
theorem IlogRoot.Wf.withBody {root : IlogRoot} (h : root.Wf) {b : IlogBody} (hb : b.Wf) :
    (⟨b, root.magic⟩ : IlogRoot).Wf :=
  ⟨h.magic_valid, h.magic_lt, hb⟩

/-- A well-formed body under the bumped magic word of a well-formed root. -/
theorem IlogRoot.Wf.withVerInc {root : IlogRoot} (h : root.Wf) {b : IlogBody} (hb : b.Wf) :
    (⟨b, ilogVerInc root.magic⟩ : IlogRoot).Wf :=
  ⟨(ilogVerInc_valid h.magic_valid h.magic_lt).1,
    (ilogVerInc_valid h.magic_valid h.magic_lt).2, hb⟩

/-! ### The context of a call -/

/-- What the call's writes have done to the magic word, against the word `m0` of the root it
began from: not bumped yet, with the bump of `ilog_tx_end` pending; or bumped once by
`ilog_ver_inc`, with or without a second bump pending. -/
def IlogContext.MagicOk (m0 : ℕ) (c : IlogContext) : Prop :=
  (c.verInc = true ∧ (c.root.magic = m0 ∨ c.root.magic = ilogVerInc m0)) ∨
    (c.verInc = false ∧ c.root.magic = ilogVerInc m0)

/-- The roots a call may leave, against the root `r` it began from: `r` itself, or a root
whose magic word is bumped once or twice. -/
def IlogRoot.VersionStep (r r' : IlogRoot) : Prop :=
  r' = r ∨ r'.magic = ilogVerInc r.magic ∨ r'.magic = ilogVerInc (ilogVerInc r.magic)

/-- What holds of a call's context at every step. -/
structure IlogContext.Inv (saved : IlogRoot) (c : IlogContext) : Prop where
  wf : c.root.Wf
  untouched : c.inTxn = false → c.root = saved
  magic : c.inTxn = true → c.MagicOk saved.magic

/-- No explicit bump of the magic word has been made yet: the points where `ilog_ver_inc`
is called. -/
def IlogContext.Fresh (saved : IlogRoot) (c : IlogContext) : Prop :=
  c.inTxn = true → c.verInc = true ∧ c.root.magic = saved.magic

section Context

variable {saved : IlogRoot} {c : IlogContext}

@[simp] theorem ilogTxBegin_root : (ilogTxBegin c).root = c.root := by
  unfold ilogTxBegin
  split <;> rfl

@[simp] theorem ilogTxBegin_inTxn : (ilogTxBegin c).inTxn = true := by
  unfold ilogTxBegin
  split
  · assumption
  · rfl

@[simp] theorem ilogVerIncCtx_fst : (ilogVerIncCtx c).1 = ilogVerInc c.root.magic := rfl

@[simp] theorem ilogVerIncCtx_root : (ilogVerIncCtx c).2.root = c.root := rfl

@[simp] theorem ilogVerIncCtx_inTxn : (ilogVerIncCtx c).2.inTxn = c.inTxn := rfl

@[simp] theorem ilogPtrSet_root (r : IlogRoot) : (ilogPtrSet c r).root = r := rfl

@[simp] theorem ilogPtrSet_inTxn (r : IlogRoot) : (ilogPtrSet c r).inTxn = true := by
  simp [ilogPtrSet]

/-- Outside a transaction `ilog_tx_begin` opens one with the bump pending; inside it
changes nothing. -/
theorem ilogTxBegin_cases (c : IlogContext) :
    (c.inTxn = true ∧ ilogTxBegin c = c) ∨
      (c.inTxn = false ∧ ilogTxBegin c = { c with inTxn := true, verInc := true }) := by
  unfold ilogTxBegin
  cases c.inTxn
  · exact .inr ⟨rfl, rfl⟩
  · exact .inl ⟨rfl, rfl⟩

theorem IlogContext.Inv.start (h : saved.Wf) : (IlogContext.start saved).Inv saved :=
  ⟨h, fun _ => rfl, fun hin => nomatch hin⟩

theorem IlogContext.Fresh.start : (IlogContext.start saved).Fresh saved :=
  fun hin => nomatch hin

theorem IlogContext.Inv.txBegin (h : c.Inv saved) : (ilogTxBegin c).Inv saved := by
  rcases ilogTxBegin_cases c with ⟨-, heq⟩ | ⟨hin, heq⟩
  · rwa [heq]
  · rw [heq]
    exact ⟨h.wf, fun hin' => (nomatch hin'), fun _ => Or.inl ⟨rfl, Or.inl (by rw [h.untouched hin])⟩⟩

theorem IlogContext.Fresh.txBegin (h : c.Inv saved) (hf : c.Fresh saved) :
    (ilogTxBegin c).Fresh saved := by
  rcases ilogTxBegin_cases c with ⟨-, heq⟩ | ⟨hin, heq⟩
  · rwa [heq]
  · rw [heq]
    exact fun _ => ⟨rfl, by rw [h.untouched hin]⟩

theorem IlogContext.Inv.setVerInc (h : c.Inv saved) : ({ c with verInc := true }).Inv saved := by
  refine ⟨h.wf, h.untouched, fun hin => ?_⟩
  rcases h.magic hin with ⟨-, hm⟩ | ⟨-, hm⟩
  · exact Or.inl ⟨rfl, hm⟩
  · exact Or.inl ⟨rfl, Or.inr hm⟩

theorem IlogContext.Fresh.setVerInc (hf : c.Fresh saved) :
    ({ c with verInc := true }).Fresh saved :=
  fun hin => ⟨rfl, (hf hin).2⟩

/-- A write that keeps the magic word opens the transaction, if it is not open, with the
bump pending. -/
theorem IlogContext.Inv.ptrSet (h : c.Inv saved) {r : IlogRoot} (hr : r.Wf)
    (hm : r.magic = c.root.magic) : (ilogPtrSet c r).Inv saved := by
  refine ⟨hr, fun hin => by simp at hin, fun _ => ?_⟩
  unfold ilogPtrSet
  rcases ilogTxBegin_cases c with ⟨hin, heq⟩ | ⟨hin, heq⟩
  · rw [heq]
    rcases h.magic hin with ⟨hv, hm'⟩ | ⟨hv, hm'⟩
    · exact Or.inl ⟨hv, by rw [hm]; exact hm'⟩
    · exact Or.inr ⟨hv, by rw [hm]; exact hm'⟩
  · rw [heq]
    exact Or.inl ⟨rfl, Or.inl (by rw [hm, h.untouched hin])⟩

theorem IlogContext.Fresh.ptrSet (h : c.Inv saved) (hf : c.Fresh saved) {r : IlogRoot}
    (hm : r.magic = c.root.magic) : (ilogPtrSet c r).Fresh saved := by
  intro _
  unfold ilogPtrSet
  rcases ilogTxBegin_cases c with ⟨hin, heq⟩ | ⟨hin, heq⟩
  · rw [heq]
    exact ⟨(hf hin).1, by rw [hm]; exact (hf hin).2⟩
  · rw [heq]
    exact ⟨rfl, by rw [hm, h.untouched hin]⟩

/-- The bump `ilog_ver_inc` makes, written with the root: the first of the call. -/
theorem IlogContext.Inv.bump (h : c.Inv saved) (hf : c.Fresh saved) {b : IlogBody}
    (hb : b.Wf) : (ilogPtrSet (ilogVerIncCtx c).2 ⟨b, ilogVerInc c.root.magic⟩).Inv saved := by
  refine ⟨h.wf.withVerInc hb, fun hin => by simp at hin, fun _ => ?_⟩
  unfold ilogPtrSet ilogVerIncCtx
  cases hin : c.inTxn
  · -- the write opens the transaction, which bumps the word again
    rw [h.untouched hin]
    exact Or.inl ⟨by simp [ilogTxBegin], Or.inr rfl⟩
  · rw [(hf hin).2]
    exact Or.inr ⟨by simp [ilogTxBegin], rfl⟩

/-- A change of the body alone, inside the transaction. -/
theorem IlogContext.Inv.setBody (h : c.Inv saved) (hin : c.inTxn = true) {b : IlogBody}
    (hb : b.Wf) : ({ c with root := { c.root with body := b } }).Inv saved :=
  ⟨h.wf.withBody hb, fun hin' => absurd hin (by simp_all), fun hin' => h.magic hin'⟩

/-- `ilog_tx_end` leaves a well-formed root. -/
theorem ilogTxEnd_wf (h : c.Inv saved) (hs : saved.Wf) (rc : ℤ) :
    (ilogTxEnd saved c rc).2.root.Wf := by
  unfold ilogTxEnd
  split_ifs with hin hrc hver
  · exact h.wf
  · exact hs
  · exact h.wf.withVerInc h.wf.body
  · exact h.wf

/-- `ilog_tx_end` with an error leaves the root the call began from. -/
theorem ilogTxEnd_error (h : c.Inv saved) {rc : ℤ} (hrc : (ilogTxEnd saved c rc).1 ≠ 0) :
    (ilogTxEnd saved c rc).2.root = saved := by
  unfold ilogTxEnd at hrc ⊢
  split_ifs at hrc ⊢ with hin hrc' hver
  · exact h.untouched (by simpa using hin)
  · rfl
  · exact absurd rfl hrc
  · exact absurd rfl hrc

/-- `ilog_tx_end` leaves the root the call began from, or its magic word bumped once or
twice. -/
theorem ilogTxEnd_magic (h : c.Inv saved) (rc : ℤ) :
    saved.VersionStep (ilogTxEnd saved c rc).2.root := by
  unfold ilogTxEnd
  split_ifs with hin hrc hver
  · exact Or.inl (h.untouched (by simpa using hin))
  · exact Or.inl rfl
  · rcases h.magic (by simpa using hin) with ⟨-, hm | hm⟩ | ⟨hv, -⟩
    · exact Or.inr (Or.inl (by simp [hm]))
    · exact Or.inr (Or.inr (by simp [hm]))
    · simp [hv] at hver
  · rcases h.magic (by simpa using hin) with ⟨hv, -⟩ | ⟨-, hm⟩
    · simp [hv] at hver
    · exact Or.inr (Or.inl hm)

end Context

/-! ### The helpers of `ilog_modify` -/

section Helpers

variable {env : IlogEnv} {saved : IlogRoot} {c : IlogContext}

/-- Two DTXs never share an epoch: where the epochs are equal, an update's `check_equal`
either finds the entry equal or fails. -/
theorem checkEqual_of_epoch_eq {idOut idIn : IlogId} (hep : idIn.epoch = idOut.epoch)
    (h : checkEqual env idOut idIn true = (0, false)) : False := by
  unfold checkEqual at h
  rw [if_neg (not_not.mpr hep)] at h
  obtain ⟨rc, same⟩ := env.cbs.isSameTx idOut
  simp only [if_true, Bool.not_true] at h
  split_ifs at h <;> simp_all [derAlready, derTxRestart]

theorem ilogSetId_equal (i : ℕ) (id : IlogId) : (ilogSetId c i id).2.1 = true := by
  unfold ilogSetId
  split <;> rfl

theorem ilogSetId_inv (h : c.Inv saved) {i : ℕ} {idOut id : IlogId}
    (hi : c.root.body.entries[i]? = some idOut) (hep : id.epoch = idOut.epoch) :
    (ilogSetId c i id).2.2.Inv saved := by
  have hout : idOut.Wf := h.wf.body.mem_entries (List.mem_of_getElem? hi)
  unfold ilogSetId
  split_ifs with hpu
  · exact h
  · exact h.ptrSet (h.wf.withBody (h.wf.body.setId hi hep ⟨hep ▸ hout.epoch_ne, Ne.symm hpu⟩)) rfl

theorem ilogSetId_fresh (h : c.Inv saved) (hf : c.Fresh saved) (i : ℕ) (id : IlogId) :
    (ilogSetId c i id).2.2.Fresh saved := by
  unfold ilogSetId
  split_ifs
  · exact hf
  · exact hf.ptrSet h rfl

/-- `update_inplace` keeps the invariant: its one write keeps the entry's epoch and refuses
equal minor epochs. -/
theorem updateInplace_inv (h : c.Inv saved) {i : ℕ} {idOut idIn : IlogId} {opc : IlogOp}
    (hi : c.root.body.entries[i]? = some idOut) {rc : ℤ} {isEqual : Bool} {c' : IlogContext}
    (hu : updateInplace env c i idOut idIn opc = (rc, isEqual, c')) : c'.Inv saved := by
  have key : (updateInplace env c i idOut idIn opc).2.2.Inv saved := by
    unfold updateInplace
    obtain ⟨rc, isEqual⟩ := checkEqual env idOut idIn (opc == .update)
    dsimp only
    -- each branch either writes nothing or writes entry `i` back with its own epoch
    split_ifs <;> first | exact h | exact ilogSetId_inv h hi rfl
  rwa [hu] at key

/-- `update_inplace` makes no explicit bump of the magic word. -/
theorem updateInplace_fresh (h : c.Inv saved) (hf : c.Fresh saved) {i : ℕ} {idOut idIn : IlogId}
    {opc : IlogOp} {rc : ℤ} {isEqual : Bool} {c' : IlogContext}
    (hu : updateInplace env c i idOut idIn opc = (rc, isEqual, c')) : c'.Fresh saved := by
  have key : (updateInplace env c i idOut idIn opc).2.2.Fresh saved := by
    unfold updateInplace
    obtain ⟨rc, isEqual⟩ := checkEqual env idOut idIn (opc == .update)
    dsimp only
    split_ifs <;> first | exact hf | exact ilogSetId_fresh h hf _ _
  rwa [hu] at key

/-- When `update_inplace` does not find the entry it writes nothing, and for an update the
epochs differ. -/
theorem updateInplace_of_not_equal {i : ℕ} {idOut idIn : IlogId} {opc : IlogOp}
    {c' : IlogContext} (hu : updateInplace env c i idOut idIn opc = (0, false, c')) :
    c' = c ∧ (opc = .update → idOut.epoch ≠ idIn.epoch) := by
  unfold updateInplace at hu
  rcases hce : checkEqual env idOut idIn (opc == .update) with ⟨rc, isEqual⟩
  rw [hce] at hu
  dsimp only at hu
  split_ifs at hu with h₁ h₂ h₃ h₄ h₅
  · simp only [Prod.mk.injEq] at hu
    obtain ⟨rfl, rfl, rfl⟩ := hu
    refine ⟨rfl, fun hopc hep => ?_⟩
    subst hopc
    exact checkEqual_of_epoch_eq hep.symm hce
  -- every other branch reports the entry equal
  all_goals exact absurd (congrArg (fun r => r.2.1) hu) (by simp [ilogSetId_equal])

theorem resetRoot_inv (h : c.Inv saved) (hf : c.Fresh saved) {id : Option IlogId}
    (hid : ∀ x, id = some x → x.Wf) : (resetRoot c id).2.Inv saved := by
  unfold resetRoot
  cases id with
  | none => exact h.txBegin.bump (hf.txBegin h) trivial
  | some x => exact h.txBegin.bump (hf.txBegin h) (show IlogBody.Wf (.embedded x) from hid x rfl)

/-- `remove_entry` keeps the invariant: at two entries the one kept goes back to the root,
at more the array loses one. -/
theorem removeEntry_inv (h : c.Inv saved) (hf : c.Fresh saved) {array : IlogArray}
    (ha : array.Wf) {i : ℕ} (hi : i < array.ids.length) : (removeEntry c array i).2.Inv saved := by
  unfold removeEntry
  split
  · exact resetRoot_inv h hf (by simp)
  · rename_i a b hab
    apply resetRoot_inv h hf
    intro x hx
    apply ha.ids_wf x
    rw [hab]
    split_ifs at hx <;> simp_all
  · rename_i ids hne₁ hne₂
    have h3 : 3 ≤ array.ids.length := by
      match hids : array.ids, hi with
      | [_], _ => exact absurd hids (hne₁ _)
      | [_, _], _ => exact absurd hids (hne₂ _ _)
      | _ :: _ :: _ :: _, _ => simp
    exact h.txBegin.ptrSet (h.txBegin.wf.withBody (ha.eraseIdx h3 i)) rfl

/-- The `insert:` tail keeps the invariant when the new entry goes where the epochs stay
increasing. -/
theorem ilogTreeInsert_inv (h : c.Inv saved) {array : IlogArray} (ha : array.Wf) {i : ℕ}
    (hi : i ≤ array.ids.length) {idIn : IlogId} (hin : idIn.Wf)
    (hs : ∀ x : IlogId, x.epoch = idIn.epoch →
      Keyed.Sorted IlogId.epoch (array.ids.insertIdx i x)) :
    (ilogTreeInsert env c array i idIn).2.Inv saved := by
  have hc := h.txBegin
  unfold ilogTreeInsert
  obtain ⟨rc, txId⟩ := env.cbs.logAdd idIn
  dsimp only
  have hx := hin.withTxId txId
  have hle := ha.le_maxLen
  split_ifs with hrc hfull halloc
  · exact hc
  · exact hc
  · -- a full array moves to one of `(len + 1) * 2 - 1` entries
    exact hc.ptrSet (hc.wf.withBody (ha.insertIdx hi hx (hs _ rfl) (by omega) (by omega))) rfl
  · exact hc.ptrSet (hc.wf.withBody (ha.insertIdx hi hx (hs _ rfl) (by omega) ha.maxLen_odd)) rfl

/-- The array `ilog_root_migrate` builds of two entries in epoch order. -/
theorem migrate_array_wf {a b : IlogId} (ha : a.Wf) (hb : b.Wf) (hlt : a.epoch < b.epoch) :
    (⟨[a, b], ilogArrayInitNr⟩ : IlogArray).Wf := by
  refine ⟨by simp, by simp [ilogArrayInitNr], by simp [ilogArrayInitNr], ?_, ?_⟩
  · simpa [Keyed.Sorted] using hlt
  · simp [ha, hb]

/-- `ilog_root_migrate` keeps the invariant when the two entries have different epochs. -/
theorem ilogRootMigrate_inv (h : c.Inv saved) (hf : c.Fresh saved) {rootId idIn : IlogId}
    (hroot : rootId.Wf) (hin : idIn.Wf) (hne : rootId.epoch ≠ idIn.epoch) :
    (ilogRootMigrate env c rootId idIn).2.Inv saved := by
  have hc := h.txBegin.setVerInc
  have hcf := (hf.txBegin h).setVerInc
  unfold ilogRootMigrate
  obtain ⟨rc, txId⟩ := env.cbs.logAdd idIn
  dsimp only
  have hx := hin.withTxId txId
  split_ifs with halloc hrc hlt
  · exact h.txBegin
  · exact hc
  · exact hc.bump hcf (migrate_array_wf hx hroot hlt)
  · exact hc.bump hcf (migrate_array_wf hroot hx (by dsimp only; omega))

end Helpers

/-! ### `ilog_tree_modify` and `ilog_modify` -/

section Modify

variable {env : IlogEnv} {saved : IlogRoot} {c : IlogContext} {idIn : IlogId}
  {epr : Daos.DaosEpochRange} {opc : IlogOp}

/-- `ilog_tree_modify` keeps the invariant. The new entry goes right after the last entry
at or before its epoch, which `check_equal` has shown to be earlier. -/
theorem ilogTreeModify_inv (h : c.Inv saved) (hf : c.Fresh saved) {array : IlogArray}
    (hb : c.root.body = .tree array) (hin : opc = .update → idIn.Wf) :
    (ilogTreeModify env c array idIn epr opc).2.Inv saved := by
  have ha : array.Wf := by
    have := h.wf.body
    rwa [hb] at this
  unfold ilogTreeModify
  split
  · rename_i hnone
    split_ifs with hopc
    · exact h
    · exact ilogTreeInsert_inv h ha (Nat.zero_le _) (hin (not_not.mp hopc))
        fun x hx => Keyed.sorted_insertIdx_zero ha.sorted hnone x hx
  · rename_i i idOut hsome
    obtain ⟨hi, hget, hle, -⟩ := Keyed.lastLe_some _ hsome
    have hentry : c.root.body.entries[i]? = some idOut := by
      rw [hb, IlogBody.entries, List.getElem?_eq_getElem hi, hget]
    rcases hu : updateInplace env c i idOut idIn opc with ⟨rc, isEqual, c'⟩
    have hc' := updateInplace_inv h hentry hu
    dsimp only
    split_ifs with hvis hrc heq hab hopc hskip
    · exact h
    · exact hc'
    · exact hc'
    · exact removeEntry_inv hc' (updateInplace_fresh h hf hu) ha hi
    · exact hc'
    · exact hc'
    · -- the entry found is not the one named, so for an update its epoch is earlier
      have hupd : opc = .update := not_not.mp hopc
      obtain rfl : rc = 0 := not_not.mp hrc
      obtain rfl : isEqual = false := by simpa using heq
      have hne := (updateInplace_of_not_equal hu).2 hupd
      exact ilogTreeInsert_inv hc' ha hi (hin hupd)
        fun x hx => Keyed.sorted_insertIdx_succ ha.sorted hsome (by omega) x hx

theorem ilogModifyEmpty_inv (h : c.Inv saved) (hf : c.Fresh saved)
    (hin : opc = .update → idIn.Wf) : (ilogModifyEmpty env c idIn opc).2.Inv saved := by
  unfold ilogModifyEmpty
  split_ifs with hopc
  · exact h
  · have hid := hin (not_not.mp hopc)
    obtain ⟨rc, txId⟩ := env.cbs.logAdd idIn
    dsimp only
    split_ifs with hrc
    · exact h.bump hf (show IlogBody.Wf (.embedded idIn) from hid)
    · -- `ilog_log_add` writes the tx id into the entry just written
      exact (h.bump hf (show IlogBody.Wf (.embedded idIn) from hid)).setBody (by simp)
        (show IlogBody.Wf (.embedded _) from hid.withTxId txId)

/-- The embedded branch keeps the invariant: an abort empties the root, an update of
another epoch migrates to an array. -/
theorem ilogModifyEmbedded_inv (h : c.Inv saved) (hf : c.Fresh saved) {rootId : IlogId}
    (hb : c.root.body = .embedded rootId) (hin : opc = .update → idIn.Wf) :
    (ilogModifyEmbedded env c rootId idIn epr opc).2.Inv saved := by
  have hroot : rootId.Wf := by
    have := h.wf.body
    rwa [hb] at this
  have hentry : c.root.body.entries[0]? = some rootId := by
    rw [hb]
    rfl
  unfold ilogModifyEmbedded
  rcases hu : updateInplace env c 0 rootId idIn opc with ⟨rc, isEqual, c'⟩
  have hc' := updateInplace_inv h hentry hu
  have hcf := updateInplace_fresh h hf hu
  dsimp only
  split_ifs with hvis hrc heq hab hopc hskip
  · exact h
  · exact hc'
  · exact hc'.bump hcf trivial
  · exact hc'
  · exact hc'
  · exact hc'
  · have hupd : opc = .update := not_not.mp hopc
    obtain rfl : rc = 0 := not_not.mp hrc
    obtain rfl : isEqual = false := by simpa using heq
    exact ilogRootMigrate_inv hc' hcf hroot (hin hupd) ((updateInplace_of_not_equal hu).2 hupd)

theorem ilogModifyRoot_inv (h : c.Inv saved) (hf : c.Fresh saved)
    (hin : opc = .update → idIn.Wf) : (ilogModifyRoot env c idIn epr opc).2.Inv saved := by
  unfold ilogModifyRoot
  split
  · exact ilogModifyEmpty_inv h hf hin
  · rename_i rootId hb
    exact ilogModifyEmbedded_inv h hf hb hin
  · rename_i array hb
    exact ilogTreeModify_inv h hf hb hin

/-- One `ilog_modify` on a well-formed root leaves a well-formed root, on an error the root
it began with, and otherwise that root or one with its magic word bumped once or twice. For
an update the new entry must be an update or a punch. -/
theorem ilogModify_wf {root root' : IlogRoot} {rc : ℤ} (hroot : root.Wf)
    (hin : opc = .update → idIn.punchMinorEph ≠ idIn.updateMinorEph)
    (h : ilogModify env root idIn epr opc = some (rc, root')) :
    root'.Wf ∧ (rc ≠ 0 → root' = root) ∧ root.VersionStep root' := by
  unfold ilogModify at h
  rw [if_neg (by simp [hroot.magic_valid])] at h
  split_ifs at h with hep
  have hid : opc = .update → idIn.Wf := fun hupd => ⟨hep, hin hupd⟩
  have hinv : (ilogModifyRoot env (IlogContext.start root) idIn epr opc).2.Inv root :=
    ilogModifyRoot_inv (IlogContext.Inv.start hroot) IlogContext.Fresh.start hid
  rcases hm : ilogModifyRoot env (IlogContext.start root) idIn epr opc with ⟨rc₁, c⟩
  rw [hm] at h hinv
  rcases ht : ilogTxEnd root c rc₁ with ⟨rc₂, c₂⟩
  have hwf := ilogTxEnd_wf hinv hroot rc₁
  have herr : (ilogTxEnd root c rc₁).1 ≠ 0 → (ilogTxEnd root c rc₁).2.root = root :=
    ilogTxEnd_error hinv
  have hmag := ilogTxEnd_magic hinv rc₁
  rw [ht] at hwf herr hmag
  simp only [ht, Option.some.injEq, Prod.mk.injEq] at h
  obtain ⟨rfl, rfl⟩ := h
  exact ⟨hwf, herr, hmag⟩

end Modify

end Daos.Vos

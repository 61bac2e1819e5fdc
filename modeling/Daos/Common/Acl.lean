import Mathlib
import Daos.Common.Ace
import Daos.Lib.RankedMap

/-!
# Access control lists (`common/acl_api.c`)

A `struct daos_acl` is a version, a length `dal_len` and `dal_len` bytes of ACEs one after
another. Nothing in the bytes marks where an ACE ends but its own `dae_principal_len`:
`daos_acl_get_next_ace` moves on by `sizeof(struct daos_ace)` plus that length and stops when the
next start is not below `dal_len`. Every loop over an ACL is a loop over these starts
(`daosAclWalk`), and the ACEs they visit are `daosAclAces`.

**The walk.** `WalkChain` says what one step of the loop does; `walkChain_daosAclWalk` that the
model's walk is such a chain (its fuel, `dal_len + 1` steps, is never used up) and
`WalkChain.unique` that there is one. Over bytes that lay out a list of ACEs
(`DaosAcl.LaysOut`), the walk visits exactly them (`LaysOut.daosAclAces_eq`).

**Validation.** `daos_acl_validate` checks the header and then, ACE by ACE, validity, the type
order and duplicates through a hash table whose comparison is `principals_match`
(`validateAcesLoop_eq_zero_iff`: it returns zero exactly on `AcesPass`). It checks that each
ACE starts inside the list, not that it ends inside it, and its duplicate test is the removal's
rule, which tells apart two ACEs of one principal padded to different lengths.

**Edits.** `daos_acl_add_ace` and `daos_acl_remove_ace` are modelled with their lookup, overwrite,
insertion and copy loops. The writes of the removal go into a buffer of the new length; where
they run past it, the model keeps the bytes, as the heap after the buffer would.

**The ACL as a map.** An ACL made by `daos_acl_create` and then edited stands for a list of ACEs
keyed by principal and kept in type order (`ValidAcl`). Each canonical edit within the size
limit keeps it valid and does to the list what inserting or replacing, or erasing, by key does
(`ValidAcl.step`), and so does every run of them (`aclRun_daosAclCreate`).
-/

namespace Daos.Acl

open Daos.Bytes

/-- `DER_INVAL`. -/
def derInval : ℤ := 1003

/-- `DER_NONEXIST`. -/
def derNonexist : ℤ := 1005

/-- `DAOS_ACL_VERSION`. -/
def daosAclVersion : UInt16 := 1

/-- `DAOS_ACL_MAX_ACE_LEN`. -/
def daosAclMaxAceLen : ℕ := 65536

/-- `struct daos_acl`: the version, the length of the entry list in bytes, and the memory from
`dal_ace` on. -/
structure DaosAcl where
  dalVer : UInt16
  dalLen : UInt32
  dalAce : Mem

/-! ## ACEs laid out one after another -/

/-- `flatten_aces`: the ACEs' bytes one after another. -/
def flattenAces (aces : List DaosAce) : List UInt8 := aces.flatMap DaosAce.toBytes

/-- `get_flattened_ace_size`. -/
def getFlattenedAceSize (aces : List DaosAce) : ℕ := (aces.map daosAceGetSize).sum

/-- Where ACEs laid out one after another from `addr` start. -/
def aceOffsets : ℕ → List DaosAce → List ℕ
  | _, [] => []
  | addr, ace :: rest => addr :: aceOffsets (addr + daosAceGetSize ace) rest

@[simp] theorem flattenAces_nil : flattenAces [] = [] := rfl

@[simp] theorem flattenAces_cons (ace : DaosAce) (aces : List DaosAce) :
    flattenAces (ace :: aces) = ace.toBytes ++ flattenAces aces := rfl

@[simp] theorem getFlattenedAceSize_nil : getFlattenedAceSize [] = 0 := rfl

@[simp] theorem getFlattenedAceSize_cons (ace : DaosAce) (aces : List DaosAce) :
    getFlattenedAceSize (ace :: aces) = daosAceGetSize ace + getFlattenedAceSize aces := by
  simp only [getFlattenedAceSize, List.map_cons, List.sum_cons]

@[simp] theorem aceOffsets_nil (addr : ℕ) : aceOffsets addr [] = [] := rfl

@[simp] theorem aceOffsets_cons (addr : ℕ) (ace : DaosAce) (aces : List DaosAce) :
    aceOffsets addr (ace :: aces) = addr :: aceOffsets (addr + daosAceGetSize ace) aces := rfl

theorem getFlattenedAceSize_append (l₁ l₂ : List DaosAce) :
    getFlattenedAceSize (l₁ ++ l₂) = getFlattenedAceSize l₁ + getFlattenedAceSize l₂ := by
  simp only [getFlattenedAceSize, List.map_append, List.sum_append]

theorem length_flattenAces (aces : List DaosAce) :
    (flattenAces aces).length = getFlattenedAceSize aces := by
  induction aces with
  | nil => rfl
  | cons ace aces ih => simp only [flattenAces_cons, List.length_append, length_toBytes, ih,
      getFlattenedAceSize_cons]

theorem holds_flattenAces_cons {m : Mem} {addr : ℕ} {ace : DaosAce} {aces : List DaosAce} :
    m.Holds addr (flattenAces (ace :: aces)) ↔
      m.Holds addr ace.toBytes ∧ m.Holds (addr + daosAceGetSize ace) (flattenAces aces) := by
  rw [flattenAces_cons, Mem.holds_append, length_toBytes]

theorem holds_flattenAces_append {m : Mem} {addr : ℕ} {l₁ l₂ : List DaosAce} :
    m.Holds addr (flattenAces (l₁ ++ l₂)) ↔
      m.Holds addr (flattenAces l₁) ∧ m.Holds (addr + getFlattenedAceSize l₁) (flattenAces l₂) := by
  rw [flattenAces, List.flatMap_append, Mem.holds_append, ← flattenAces, ← flattenAces,
    length_flattenAces]

/-- Read at their starts, ACEs laid out one after another are the ACEs. -/
theorem map_aceAt_aceOffsets {m : Mem} {addr : ℕ} {aces : List DaosAce}
    (h : m.Holds addr (flattenAces aces)) : (aceOffsets addr aces).map (aceAt m) = aces := by
  induction aces generalizing addr with
  | nil => rfl
  | cons ace aces ih =>
    obtain ⟨here, rest⟩ := holds_flattenAces_cons.mp h
    rw [aceOffsets_cons, List.map_cons, aceAt_of_holds here, ih rest]

/-! ## The walk (`daos_acl_get_next_ace`) -/

/-- `is_in_ace_list`, for an address counted from `dal_ace`. -/
def isInAceList (addr : ℕ) (acl : DaosAcl) : Bool := addr < acl.dalLen.toNat

/-- `daos_acl_get_next_ace`: `none` is `NULL`, `some addr` the ACE at `dal_ace + addr`. -/
def daosAclGetNextAce (acl : DaosAcl) : Option ℕ → Option ℕ
  | none => if 0 < acl.dalLen.toNat then some 0 else none
  | some current =>
    if !isInAceList current acl then none
    else
      let offset := sizeOfDaosAce + (aceAt acl.dalAce current).daePrincipalLen.toNat
      if !isInAceList (current + offset) acl then none else some (current + offset)

/-- The loop `current = daos_acl_get_next_ace(acl, current)` from `current` on, for at most
`fuel` steps. -/
def aceWalkFrom (acl : DaosAcl) : ℕ → Option ℕ → List ℕ
  | 0, _ => []
  | fuel + 1, current =>
    match daosAclGetNextAce acl current with
    | none => []
    | some next => next :: aceWalkFrom acl fuel (some next)

/-- The starts of the ACEs every loop over the list visits, from
`daos_acl_get_next_ace(acl, NULL)` until it returns `NULL`. Each step moves forward and stays
below `dal_len`, so `dal_len + 1` steps are never used up (`walkChain_daosAclWalk`). -/
def daosAclWalk (acl : DaosAcl) : List ℕ := aceWalkFrom acl (acl.dalLen.toNat + 1) none

/-- The ACEs the walk visits. -/
def daosAclAces (acl : DaosAcl) : List DaosAce := (daosAclWalk acl).map (aceAt acl.dalAce)

section Walk

variable {acl : DaosAcl}

theorem daosAclGetNextAce_none :
    daosAclGetNextAce acl none = if 0 < acl.dalLen.toNat then some 0 else none := rfl

theorem daosAclGetNextAce_some (current : ℕ) :
    daosAclGetNextAce acl (some current) =
      if current < acl.dalLen.toNat ∧
          current + daosAceGetSize (aceAt acl.dalAce current) < acl.dalLen.toNat
        then some (current + daosAceGetSize (aceAt acl.dalAce current)) else none := by
  simp only [daosAclGetNextAce, isInAceList, daosAceGetSize, Bool.not_eq_true',
    decide_eq_false_iff_not]
  by_cases h₁ : current < acl.dalLen.toNat <;>
    by_cases h₂ : current + (sizeOfDaosAce + (aceAt acl.dalAce current).daePrincipalLen.toNat) <
      acl.dalLen.toNat <;> simp [h₁, h₂]

/-- What the loop visits after `current`: each element is the next of the one before, and the
next of the last is `NULL`. -/
def WalkChain (acl : DaosAcl) : Option ℕ → List ℕ → Prop
  | current, [] => daosAclGetNextAce acl current = none
  | current, next :: rest => daosAclGetNextAce acl current = some next ∧ WalkChain acl (some next) rest

/-- How far the walk can still go: `dal_len` steps at most from `NULL`, fewer from inside. -/
def walkMeasure (acl : DaosAcl) : Option ℕ → ℕ
  | none => acl.dalLen.toNat
  | some current => acl.dalLen.toNat - current - 1

theorem walkMeasure_next_lt {current : Option ℕ} {next : ℕ}
    (h : daosAclGetNextAce acl current = some next) :
    walkMeasure acl (some next) < walkMeasure acl current := by
  cases current with
  | none =>
    rw [daosAclGetNextAce_none] at h
    split at h
    · cases h
      simp only [walkMeasure]
      omega
    · cases h
  | some current =>
    rw [daosAclGetNextAce_some] at h
    split at h
    · rename_i inside
      cases h
      have grows := daosAceGetSize_pos (aceAt acl.dalAce current)
      simp only [walkMeasure]
      omega
    · cases h

theorem walkChain_aceWalkFrom {fuel : ℕ} {current : Option ℕ} (h : walkMeasure acl current < fuel) :
    WalkChain acl current (aceWalkFrom acl fuel current) := by
  induction fuel generalizing current with
  | zero => omega
  | succ fuel ih =>
    simp only [aceWalkFrom]
    cases hn : daosAclGetNextAce acl current with
    | none => exact hn
    | some next =>
      have shorter := walkMeasure_next_lt hn
      exact ⟨hn, ih (by omega)⟩

theorem walkChain_daosAclWalk (acl : DaosAcl) : WalkChain acl none (daosAclWalk acl) :=
  walkChain_aceWalkFrom (by simp only [walkMeasure]; omega)

/-- The loop is deterministic: one chain from each start. -/
theorem WalkChain.unique {current : Option ℕ} {ws ws' : List ℕ}
    (h : WalkChain acl current ws) (h' : WalkChain acl current ws') : ws = ws' := by
  induction ws generalizing current ws' with
  | nil =>
    cases ws' with
    | nil => rfl
    | cons next rest => exact absurd (h.symm.trans h'.1) (by simp)
  | cons next rest ih =>
    cases ws' with
    | nil => exact absurd (h.1.symm.trans h') (by simp)
    | cons next' rest' =>
      have same : next = next' := Option.some.inj (h.1.symm.trans h'.1)
      subst same
      rw [ih h.2 h'.2]

/-- The ACL is the list `aces`: its `dal_len` bytes are their encodings one after another. -/
structure DaosAcl.LaysOut (acl : DaosAcl) (aces : List DaosAce) : Prop where
  bytes : acl.dalAce.Holds 0 (flattenAces aces)
  len : acl.dalLen.toNat = getFlattenedAceSize aces

/-- ACEs laid out one after another up to `dal_len` are the chain the walk follows. -/
theorem walkChain_aceOffsets {addr : ℕ} {ace : DaosAce} {rest : List DaosAce}
    (hm : acl.dalAce.Holds addr (flattenAces (ace :: rest)))
    (hend : addr + getFlattenedAceSize (ace :: rest) = acl.dalLen.toNat) :
    WalkChain acl (some addr) (aceOffsets (addr + daosAceGetSize ace) rest) := by
  induction rest generalizing addr ace with
  | nil =>
    obtain ⟨here, -⟩ := holds_flattenAces_cons.mp hm
    simp only [getFlattenedAceSize_cons, getFlattenedAceSize_nil, Nat.add_zero] at hend
    show daosAclGetNextAce acl (some addr) = none
    rw [daosAclGetNextAce_some, aceAt_of_holds here, if_neg (by omega)]
  | cons next rest ih =>
    obtain ⟨here, tail⟩ := holds_flattenAces_cons.mp hm
    have grows := daosAceGetSize_pos next
    simp only [getFlattenedAceSize_cons] at hend
    refine ⟨?_, ih tail (by simp only [getFlattenedAceSize_cons]; omega)⟩
    rw [daosAclGetNextAce_some, aceAt_of_holds here, if_pos (by omega)]

theorem DaosAcl.LaysOut.daosAclWalk_eq {aces : List DaosAce} (h : acl.LaysOut aces) :
    daosAclWalk acl = aceOffsets 0 aces := by
  refine WalkChain.unique (walkChain_daosAclWalk acl) ?_
  cases aces with
  | nil =>
    show daosAclGetNextAce acl none = none
    rw [daosAclGetNextAce_none, if_neg (by simp [h.len])]
  | cons ace rest =>
    have grows := daosAceGetSize_pos ace
    refine ⟨?_, walkChain_aceOffsets h.bytes (by rw [h.len, Nat.zero_add])⟩
    rw [daosAclGetNextAce_none, if_pos (by rw [h.len, getFlattenedAceSize_cons]; omega)]

/-- The walk over an ACL that lays out `aces` visits exactly them. -/
theorem DaosAcl.LaysOut.daosAclAces_eq {aces : List DaosAce} (h : acl.LaysOut aces) :
    daosAclAces acl = aces := by
  rw [daosAclAces, h.daosAclWalk_eq]
  exact map_aceAt_aceOffsets h.bytes

end Walk

/-! ## Validation (`daos_acl_validate`) -/

/-- The loop of `validate_aces` from an ACE on, given the type of the ACE before and the ACEs
the hash table holds. -/
def validateAcesLoop : ℤ → List DaosAce → List DaosAce → ℤ
  | _, _, [] => 0
  | lastType, found, current :: rest =>
    if !daosAceIsValid current then -derInval
    -- types come in the order of the enumeration
    else if (current.daePrincipalType.toNat : ℤ) < lastType then -derInval
    -- `check_ace_is_duplicate`: the table finds an entry its comparison matches
    else if found.any (fun entry => principalsMatch current entry) then -derInval
    else validateAcesLoop current.daePrincipalType.toNat (found ++ [current]) rest

/-- `validate_aces`. -/
def validateAces (acl : DaosAcl) : ℤ := validateAcesLoop (-1) [] (daosAclAces acl)

/-- `daos_acl_validate`. -/
def daosAclValidate (acl : DaosAcl) : ℤ :=
  if acl.dalVer != daosAclVersion then -derInval
  else if 0 < acl.dalLen.toNat &&
      (acl.dalLen.toNat < sizeOfDaosAce || acl.dalLen.toNat > daosAclMaxAceLen) then -derInval
  -- the whole structure is kept 64-bit aligned
  else if acl.dalLen.toNat % 8 != 0 then -derInval
  else validateAces acl

/-- What `validate_aces` asks of the ACEs from one on: each valid, types non-decreasing from the
one before, and no ACE matched by `principals_match` against an earlier one. -/
structure AcesPass (lastType : ℤ) (found aces : List DaosAce) : Prop where
  valid : ∀ a ∈ aces, daosAceIsValid a = true
  after : ∀ a ∈ aces, lastType ≤ a.daePrincipalType.toNat
  ordered : aces.Pairwise fun a b => a.daePrincipalType.toNat ≤ b.daePrincipalType.toNat
  fresh : ∀ a ∈ aces, ∀ e ∈ found, principalsMatch a e = false
  unmatched : aces.Pairwise fun a b => principalsMatch b a = false

theorem AcesPass.nil (lastType : ℤ) (found : List DaosAce) : AcesPass lastType found [] :=
  ⟨by simp, by simp, List.Pairwise.nil, by simp, List.Pairwise.nil⟩

/-- One step of the loop: the ACE passes its three checks and the rest passes from it on. -/
theorem acesPass_cons_iff {lastType : ℤ} {found rest : List DaosAce} {current : DaosAce} :
    AcesPass lastType found (current :: rest) ↔
      daosAceIsValid current = true ∧ lastType ≤ current.daePrincipalType.toNat ∧
        (∀ e ∈ found, principalsMatch current e = false) ∧
        AcesPass current.daePrincipalType.toNat (found ++ [current]) rest := by
  constructor
  · intro pass
    have ordered := List.pairwise_cons.mp pass.ordered
    have unmatched := List.pairwise_cons.mp pass.unmatched
    refine ⟨pass.valid current (by simp), pass.after current (by simp),
      pass.fresh current (by simp), ⟨fun a ha => pass.valid a (by simp [ha]),
      fun a ha => by exact_mod_cast ordered.1 a ha, ordered.2, ?_, unmatched.2⟩⟩
    intro a ha e he
    rcases List.mem_append.mp he with he | he
    · exact pass.fresh a (by simp [ha]) e he
    · rw [List.mem_singleton.mp he]
      exact unmatched.1 a ha
  · rintro ⟨valid, after, fresh, pass⟩
    refine ⟨?_, ?_, ?_, ?_, ?_⟩
    · intro a ha
      rcases List.mem_cons.mp ha with rfl | ha
      · exact valid
      · exact pass.valid a ha
    · intro a ha
      rcases List.mem_cons.mp ha with rfl | ha
      · exact after
      · exact le_trans after (pass.after a ha)
    · exact List.Pairwise.cons (fun a ha => by exact_mod_cast pass.after a ha) pass.ordered
    · intro a ha e he
      rcases List.mem_cons.mp ha with rfl | ha
      · exact fresh e he
      · exact pass.fresh a ha e (List.mem_append_left _ he)
    · exact List.Pairwise.cons (fun a ha => pass.fresh a ha current (by simp)) pass.unmatched

/-- `validate_aces` returns zero exactly when the ACEs pass. -/
theorem validateAcesLoop_eq_zero_iff {lastType : ℤ} {found aces : List DaosAce} :
    validateAcesLoop lastType found aces = 0 ↔ AcesPass lastType found aces := by
  induction aces generalizing lastType found with
  | nil => exact ⟨fun _ => AcesPass.nil lastType found, fun _ => rfl⟩
  | cons current rest ih =>
    have rejected : -derInval ≠ 0 := by decide
    rw [acesPass_cons_iff, validateAcesLoop]
    by_cases valid : daosAceIsValid current = true
    swap
    · rw [if_pos (by simpa using valid)]
      exact iff_of_false rejected fun ⟨v, _⟩ => valid v
    rw [if_neg (by simpa using valid)]
    by_cases early : (current.daePrincipalType.toNat : ℤ) < lastType
    · rw [if_pos early]
      exact iff_of_false rejected fun ⟨_, after, _⟩ => by omega
    rw [if_neg early]
    by_cases dup : found.any (fun entry => principalsMatch current entry) = true
    · rw [if_pos dup]
      obtain ⟨e, he, hm⟩ := List.any_eq_true.mp dup
      exact iff_of_false rejected fun ⟨_, _, fresh, _⟩ => by simp [fresh e he] at hm
    rw [if_neg dup, ih]
    have fresh : ∀ e ∈ found, principalsMatch current e = false := by
      intro e he
      simpa using List.any_eq_false.mp (by simpa using dup) e he
    exact ⟨fun pass => ⟨valid, by omega, fresh, pass⟩, fun ⟨_, _, _, pass⟩ => pass⟩

/-- `daos_acl_validate` returns zero exactly when the header is right and the ACEs pass. -/
theorem daosAclValidate_eq_zero_iff {acl : DaosAcl} :
    daosAclValidate acl = 0 ↔ acl.dalVer = daosAclVersion ∧
      (0 < acl.dalLen.toNat →
        sizeOfDaosAce ≤ acl.dalLen.toNat ∧ acl.dalLen.toNat ≤ daosAclMaxAceLen) ∧
      acl.dalLen.toNat % 8 = 0 ∧ AcesPass (-1) [] (daosAclAces acl) := by
  have rejected : -derInval ≠ 0 := by decide
  unfold daosAclValidate validateAces
  by_cases ver : acl.dalVer = daosAclVersion
  swap
  · rw [if_pos (by simpa using ver)]
    exact iff_of_false rejected fun ⟨v, _⟩ => ver v
  rw [if_neg (by simpa using ver)]
  by_cases len : 0 < acl.dalLen.toNat ∧
      (acl.dalLen.toNat < sizeOfDaosAce ∨ acl.dalLen.toNat > daosAclMaxAceLen)
  · rw [if_pos (by simpa using len)]
    exact iff_of_false rejected fun ⟨_, bounds, _⟩ => by
      have := bounds len.1
      omega
  rw [if_neg (by simpa using len)]
  by_cases align : acl.dalLen.toNat % 8 = 0
  swap
  · rw [if_pos (by simpa using align)]
    exact iff_of_false rejected fun ⟨_, _, a, _⟩ => align a
  rw [if_neg (by simpa using align), validateAcesLoop_eq_zero_iff]
  have bounds : 0 < acl.dalLen.toNat →
      sizeOfDaosAce ≤ acl.dalLen.toNat ∧ acl.dalLen.toNat ≤ daosAclMaxAceLen := by
    omega
  exact ⟨fun pass => ⟨ver, bounds, align, pass⟩, fun ⟨_, _, _, pass⟩ => pass⟩

/-! ## What validation ensures -/

/-- The order of ACEs in a list: their principal types. -/
def aceRank (ace : DaosAce) : ℕ := ace.daePrincipalType.toNat

theorem getFlattenedAceSize_perm {l₁ l₂ : List DaosAce} (h : l₁.Perm l₂) :
    getFlattenedAceSize l₁ = getFlattenedAceSize l₂ :=
  (h.map daosAceGetSize).sum_eq

theorem getFlattenedAceSize_mod {aces : List DaosAce}
    (valid : ∀ a ∈ aces, daosAceIsValid a = true) : getFlattenedAceSize aces % 8 = 0 := by
  induction aces with
  | nil => rfl
  | cons ace aces ih =>
    have here := (DaosAce.valid_layout (valid ace (by simp))).1
    have rest := ih fun a ha => valid a (by simp [ha])
    simp only [getFlattenedAceSize_cons, daosAceGetSize, sizeOfDaosAce]
    omega

theorem le_getFlattenedAceSize {aces : List DaosAce} (h : aces ≠ []) :
    sizeOfDaosAce ≤ getFlattenedAceSize aces := by
  cases aces with
  | nil => exact absurd rfl h
  | cons ace aces =>
    simp only [getFlattenedAceSize_cons, daosAceGetSize]
    omega

/-- Valid ACEs in type order, one per principal, pass the loop: ACEs that `principals_match`
pairs are of one principal. -/
theorem acesPass_of_wf {aces : List DaosAce} (valid : ∀ a ∈ aces, daosAceIsValid a = true)
    (wf : RankedMap.Wf DaosAce.key aceRank aces) : AcesPass (-1) [] aces where
  valid := valid
  after := fun a _ => by omega
  ordered := wf.ordered
  fresh := by simp
  unmatched := wf.distinct.imp fun distinct =>
    Bool.eq_false_iff.mpr fun matched => distinct (principalsMatch_key matched).symm

/-- Canonical ACEs that pass the loop are in type order, one per principal. -/
theorem wf_of_acesPass {lastType : ℤ} {found aces : List DaosAce}
    (pass : AcesPass lastType found aces) (canonical : ∀ a ∈ aces, a.Canonical) :
    RankedMap.Wf DaosAce.key aceRank aces where
  ordered := pass.ordered
  distinct := by
    refine pass.unmatched.imp_of_mem fun _ hb unmatched same => ?_
    rw [principalsMatch_of_key (canonical _ hb) same.symm] at unmatched
    exact Bool.noConfusion unmatched

/-- An ACL that lays out valid ACEs passing the loop, of version 1 and at most
`DAOS_ACL_MAX_ACE_LEN` bytes, validates. -/
theorem daosAclValidate_of_laysOut {acl : DaosAcl} {aces : List DaosAce}
    (ver : acl.dalVer = daosAclVersion) (laid : acl.LaysOut aces) (pass : AcesPass (-1) [] aces)
    (fit : getFlattenedAceSize aces ≤ daosAclMaxAceLen) : daosAclValidate acl = 0 := by
  have aligned := getFlattenedAceSize_mod pass.valid
  refine daosAclValidate_eq_zero_iff.mpr ⟨ver, fun pos => ⟨?_, ?_⟩, ?_, ?_⟩
  · rw [laid.len]
    refine le_getFlattenedAceSize fun empty => ?_
    rw [laid.len, empty] at pos
    exact absurd pos (by decide)
  · rw [laid.len]
    exact fit
  · rw [laid.len]
    exact aligned
  · rw [laid.daosAclAces_eq]
    exact pass

/-- Validation accepts two ACEs of one user whose names are padded to 8 and to 16 bytes:
`principals_match` compares the lengths, and both ACEs are valid. -/
theorem daosAclValidate_accepts_duplicate_principal :
    let ace₁ : DaosAce := ⟨daosAclAccessAllow, daosAclUser, 8, 0, 0, 1, 0, 0,
      ['a'.toUInt8, '@'.toUInt8, 0, 0, 0, 0, 0, 0], rfl⟩
    let ace₂ : DaosAce := ⟨daosAclAccessAllow, daosAclUser, 16, 0, 0, 1, 0, 0,
      ace₁.daePrincipal ++ List.replicate 8 0, rfl⟩
    let acl : DaosAcl := ⟨daosAclVersion, 88, listMem (flattenAces [ace₁, ace₂])⟩
    daosAclValidate acl = 0 ∧ daosAclAces acl = [ace₁, ace₂] ∧ ace₁.key = ace₂.key := by
  decide

/-! ## Creating an ACL (`daos_acl_create`) -/

/-- `compare_aces` as the order `qsort` sorts by: principal types, in enumeration order. -/
def compareAces (ace₁ ace₂ : DaosAce) : Bool := aceRank ace₁ ≤ aceRank ace₂

/-- `get_copy_sorted_by_principal_type`. `qsort` leaves the order among ACEs of one type to the
C library; the model sorts stably, and what is proved of it uses only that the result is a
permutation of the ACEs in type order. -/
def getCopySortedByPrincipalType (aces : List DaosAce) : List DaosAce :=
  aces.mergeSort compareAces

/-- `daos_acl_create`. -/
def daosAclCreate (aces : List DaosAce) : DaosAcl :=
  let aceLen := getFlattenedAceSize aces
  let sortedAces := getCopySortedByPrincipalType aces
  { dalVer := daosAclVersion, dalLen := UInt32.ofNat aceLen,
    dalAce := listMem (flattenAces sortedAces) }

theorem getCopySortedByPrincipalType_perm (aces : List DaosAce) :
    (getCopySortedByPrincipalType aces).Perm aces :=
  List.mergeSort_perm aces compareAces

theorem getCopySortedByPrincipalType_ordered (aces : List DaosAce) :
    (getCopySortedByPrincipalType aces).Pairwise fun a b => aceRank a ≤ aceRank b := by
  have sorted := @List.pairwise_mergeSort _ compareAces
    (fun a b c hab hbc => by simp only [compareAces, decide_eq_true_eq] at *; omega)
    (fun a b => by simp only [compareAces, Bool.or_eq_true, decide_eq_true_eq]; omega) aces
  exact sorted.imp fun h => by simpa [compareAces] using h

/-- The created ACL lays out the sorted ACEs. -/
theorem daosAclCreate_laysOut {aces : List DaosAce} (fit : getFlattenedAceSize aces < 2 ^ 32) :
    (daosAclCreate aces).LaysOut (getCopySortedByPrincipalType aces) where
  bytes := by
    have h := listMem_holds [] (flattenAces (getCopySortedByPrincipalType aces)) []
    rwa [List.nil_append, List.append_nil] at h
  len := by
    simp only [daosAclCreate, UInt32.toNat_ofNat', Nat.mod_eq_of_lt fit]
    exact (getFlattenedAceSize_perm (getCopySortedByPrincipalType_perm aces)).symm

/-- `daos_acl_create` on valid ACEs of distinct principals, at most `DAOS_ACL_MAX_ACE_LEN` bytes
in all, gives an ACL that validates and lays out the ACEs sorted by type. -/
theorem daosAclValidate_daosAclCreate {aces : List DaosAce}
    (valid : ∀ a ∈ aces, daosAceIsValid a = true)
    (distinct : aces.Pairwise fun a b => a.key ≠ b.key)
    (fit : getFlattenedAceSize aces ≤ daosAclMaxAceLen) :
    daosAclValidate (daosAclCreate aces) = 0 ∧
      (daosAclCreate aces).LaysOut (getCopySortedByPrincipalType aces) := by
  have perm := getCopySortedByPrincipalType_perm aces
  have laid := daosAclCreate_laysOut (Nat.lt_of_le_of_lt fit (by decide))
  have wf : RankedMap.Wf DaosAce.key aceRank (getCopySortedByPrincipalType aces) :=
    ⟨getCopySortedByPrincipalType_ordered aces,
      (perm.pairwise_iff fun h => Ne.symm h).mpr distinct⟩
  refine ⟨daosAclValidate_of_laysOut rfl laid (acesPass_of_wf ?_ wf) ?_, laid⟩
  · exact fun a ha => valid a (perm.mem_iff.mp ha)
  · rw [getFlattenedAceSize_perm perm]
    exact fit

/-! ## Looking up, adding and removing a principal -/

/-- `daos_acl_get_ace_for_principal`: the first ACE of the type that the lookup's rule matches to
the name. -/
def daosAclGetAceForPrincipal (acl : DaosAcl) (type : UInt8) (principal : Option (List UInt8)) :
    Except ℤ ℕ :=
  if !typeIsValid type || (typeNeedsName type && principal.isNone) then .error (-derInval)
  else
    match (daosAclWalk acl).find? (fun current =>
        (aceAt acl.dalAce current).daePrincipalType == type &&
          principalNameMatchesAce (aceAt acl.dalAce current) principal) with
    | some current => .ok current
    | none => .error (-derNonexist)

/-- `acl_already_has_principal`. -/
def aclAlreadyHasPrincipal (acl : DaosAcl) (type : UInt8) (principalName : Option (List UInt8)) :
    Bool :=
  match daosAclGetAceForPrincipal acl type principalName with
  | .ok _ => true
  | .error _ => false

/-- `overwrite_ace_for_principal`: the new ACE's bytes over the first ACE that the removal's rule
matches to it. -/
def overwriteAceForPrincipal (acl : DaosAcl) (newAce : DaosAce) : Mem :=
  match (daosAclWalk acl).find? (fun current => principalsMatch (aceAt acl.dalAce current) newAce)
  with
  | some current => writeBytes acl.dalAce current newAce.toBytes
  | none => acl.dalAce

/-- The loop of `copy_acl_with_new_ace_inserted` from an ACE on, given whether the new ACE is
written: the bytes written, and the flag at the end. -/
def copyInsertLoop (newAce : DaosAce) : Bool → List DaosAce → List UInt8 × Bool
  | newWritten, [] => ([], newWritten)
  | newWritten, current :: rest =>
    -- the iteration that writes the new ACE does not move on: the next one writes `current`
    let before := !newWritten && decide (newAce.daePrincipalType < current.daePrincipalType)
    let written := copyInsertLoop newAce (newWritten || before) rest
    ((if before then newAce.toBytes else []) ++ current.toBytes ++ written.1, written.2)

/-- `copy_acl_with_new_ace_inserted`: the ACEs, with the new one before the first of greater
type, or else after the last. -/
def copyAclWithNewAceInserted (acl : DaosAcl) (newAce : DaosAce) : List UInt8 :=
  let written := copyInsertLoop newAce false (daosAclAces acl)
  if !written.2 then written.1 ++ newAce.toBytes else written.1

/-- `daos_acl_add_ace`. The size of an ACE is never negative and the allocation is taken to
succeed, so it returns 0. The lookup is given the new ACE's principal array as the name. -/
def daosAclAddAce (acl : DaosAcl) (newAce : DaosAce) : ℤ × DaosAcl :=
  if aclAlreadyHasPrincipal acl newAce.daePrincipalType (some newAce.daePrincipal) then
    (0, { acl with dalAce := overwriteAceForPrincipal acl newAce })
  else
    let newLen := acl.dalLen + UInt32.ofNat (daosAceGetSize newAce)
    (0, { dalVer := acl.dalVer, dalLen := newLen,
          dalAce := listMem (copyAclWithNewAceInserted acl newAce) })

/-- `daos_acl_remove_ace`. The new list is sized by the ACE the lookup finds, and filled with
the ACEs the removal's rule does not match. -/
def daosAclRemoveAce (acl : DaosAcl) (type : UInt8) (principalName : Option (List UInt8)) :
    ℤ × DaosAcl :=
  if !typeIsValid type || !principalMeetsTypeRequirements type principalName then (-derInval, acl)
  else
    match daosAclGetAceForPrincipal acl type principalName with
    | .error rc => (rc, acl)
    | .ok aceToRemove =>
      let newLen := acl.dalLen - UInt32.ofNat (daosAceGetSize (aceAt acl.dalAce aceToRemove))
      -- `write_ace` copies each kept ACE's bytes: the encoding of the ACE read there
      let kept := (daosAclAces acl).filter fun current =>
        !aceMatchesPrincipal current type principalName
      (0, { dalVer := acl.dalVer, dalLen := newLen, dalAce := listMem (flattenAces kept) })

/-- What a search over laid-out ACEs finds: the first ACE that passes, at the end of those
before it, or nothing when none passes. -/
theorem find?_aceOffsets {m : Mem} {addr : ℕ} {aces : List DaosAce}
    (h : m.Holds addr (flattenAces aces)) (p : DaosAce → Bool) :
    match (aceOffsets addr aces).find? (fun o => p (aceAt m o)) with
    | some o => ∃ pre ace post, aces = pre ++ ace :: post ∧ p ace = true ∧
        (∀ a ∈ pre, p a = false) ∧ o = addr + getFlattenedAceSize pre
    | none => ∀ a ∈ aces, p a = false := by
  induction aces generalizing addr with
  | nil => simp
  | cons ace rest ih =>
    obtain ⟨here, tail⟩ := holds_flattenAces_cons.mp h
    rw [aceOffsets_cons, List.find?_cons, aceAt_of_holds here]
    cases hp : p ace with
    | true => exact ⟨[], ace, rest, rfl, hp, by simp, by simp⟩
    | false =>
      have found := ih tail
      dsimp only
      cases hf : (aceOffsets (addr + daosAceGetSize ace) rest).find? (fun o => p (aceAt m o)) with
      | some o =>
        rw [hf] at found
        obtain ⟨pre, a, post, split, pa, before, at_o⟩ := found
        refine ⟨ace :: pre, a, post, by rw [split, List.cons_append], pa, ?_, ?_⟩
        · intro b hb
          rcases List.mem_cons.mp hb with rfl | hb
          · exact hp
          · exact before b hb
        · rw [at_o, getFlattenedAceSize_cons]
          omega
      | none =>
        rw [hf] at found
        intro a ha
        rcases List.mem_cons.mp ha with rfl | ha
        · exact hp
        · exact found a ha

/-- Writing an ACE of the same size over one of a laid-out list lays out the list with it in
that place. -/
theorem holds_overwrite {m : Mem} {addr : ℕ} {pre post : List DaosAce} {ace newAce : DaosAce}
    (h : m.Holds addr (flattenAces (pre ++ ace :: post)))
    (size : daosAceGetSize newAce = daosAceGetSize ace) :
    (writeBytes m (addr + getFlattenedAceSize pre) newAce.toBytes).Holds addr
      (flattenAces (pre ++ newAce :: post)) := by
  obtain ⟨before, here⟩ := holds_flattenAces_append.mp h
  obtain ⟨-, after⟩ := holds_flattenAces_cons.mp here
  refine holds_flattenAces_append.mpr ⟨?_, holds_flattenAces_cons.mpr ⟨?_, ?_⟩⟩
  · exact before.writeBytes_of_disjoint (Or.inl (by rw [length_flattenAces]))
  · exact writeBytes_holds m _ _
  · rw [size]
    exact after.writeBytes_of_disjoint (Or.inr (by rw [length_toBytes, size]))

theorem copyInsertLoop_true (newAce : DaosAce) (aces : List DaosAce) :
    copyInsertLoop newAce true aces = (flattenAces aces, true) := by
  induction aces with
  | nil => rfl
  | cons ace aces ih =>
    simp only [copyInsertLoop, Bool.not_true, Bool.false_and, Bool.true_or, Bool.false_eq_true,
      ↓reduceIte, List.nil_append, ih, flattenAces_cons]

/-- The insertion loop writes the ACEs with the new one inserted before the first of greater
type. -/
theorem copyInsert_eq_orderedInsert (newAce : DaosAce) (aces : List DaosAce) :
    (if !(copyInsertLoop newAce false aces).2 then
        (copyInsertLoop newAce false aces).1 ++ newAce.toBytes
      else (copyInsertLoop newAce false aces).1) =
      flattenAces (aces.orderedInsert (fun a b => aceRank a < aceRank b) newAce) := by
  induction aces with
  | nil => simp [copyInsertLoop]
  | cons ace aces ih =>
    have order : (newAce.daePrincipalType < ace.daePrincipalType) ↔ aceRank newAce < aceRank ace :=
      UInt8.lt_iff_toNat_lt
    rw [List.orderedInsert_cons]
    by_cases before : aceRank newAce < aceRank ace
    · simp only [copyInsertLoop, Bool.not_false, order.mpr before, decide_true, Bool.and_self,
        Bool.or_true, ↓reduceIte, copyInsertLoop_true, Bool.not_true, Bool.false_eq_true, before,
        flattenAces_cons, List.append_assoc]
    · have after : ¬newAce.daePrincipalType < ace.daePrincipalType := fun h => before (order.mp h)
      simp only [copyInsertLoop, Bool.not_false, after, decide_false, Bool.and_false,
        Bool.or_false, Bool.false_eq_true, ↓reduceIte, List.nil_append, before, flattenAces_cons]
      rw [← ih]
      split <;> simp [List.append_assoc]

/-! ## What the edits do to a valid ACL -/

section Edits

variable {acl : DaosAcl} {aces : List DaosAce}

/-- A valid ACL in the sense the edits rely on: it validates, lays out its ACEs exactly, and they
are canonical. -/
structure ValidAcl (acl : DaosAcl) (aces : List DaosAce) : Prop where
  validates : daosAclValidate acl = 0
  laid : acl.LaysOut aces
  canonical : ∀ a ∈ aces, a.Canonical

theorem ValidAcl.pass (h : ValidAcl acl aces) : AcesPass (-1) [] aces := by
  have pass := (daosAclValidate_eq_zero_iff.mp h.validates).2.2.2
  rwa [h.laid.daosAclAces_eq] at pass

theorem ValidAcl.wf (h : ValidAcl acl aces) : RankedMap.Wf DaosAce.key aceRank aces :=
  wf_of_acesPass h.pass h.canonical

theorem ValidAcl.fit (h : ValidAcl acl aces) : getFlattenedAceSize aces ≤ daosAclMaxAceLen := by
  obtain ⟨-, bounds, -, -⟩ := daosAclValidate_eq_zero_iff.mp h.validates
  rw [← h.laid.len]
  by_cases pos : 0 < acl.dalLen.toNat
  · exact (bounds pos).2
  · unfold daosAclMaxAceLen
    omega

/-- The lookup on a valid ACL, for a canonical request: it finds the ACE of the requested
principal, at the end of those before it, or reports that there is none. -/
theorem ValidAcl.lookup (h : ValidAcl acl aces) {type : UInt8} {principal : Option (List UInt8)}
    (typed : typeIsValid type = true) (req : CanonicalRequest type principal) :
    (∃ pre ace post, aces = pre ++ ace :: post ∧ ace.key = requestKey type principal ∧
      (∀ a ∈ pre, a.key ≠ requestKey type principal) ∧
      daosAclGetAceForPrincipal acl type principal = .ok (getFlattenedAceSize pre)) ∨
    ((∀ a ∈ aces, a.key ≠ requestKey type principal) ∧
      daosAclGetAceForPrincipal acl type principal = .error (-derNonexist)) := by
  have asked : (!typeIsValid type || (typeNeedsName type && principal.isNone)) = false := by
    cases needs : typeNeedsName type
    · simp [typed]
    · obtain ⟨p, rfl, -⟩ := req.named needs
      simp [typed]
  have found := find?_aceOffsets h.laid.bytes fun a =>
    a.daePrincipalType == type && principalNameMatchesAce a principal
  unfold daosAclGetAceForPrincipal
  rw [asked, if_neg Bool.false_ne_true, h.laid.daosAclWalk_eq]
  have keyed : ∀ a ∈ aces, ((a.daePrincipalType == type && principalNameMatchesAce a principal)
      = true ↔ a.key = requestKey type principal) :=
    fun a ha => lookupMatches_iff_key (h.pass.valid a ha) req
  split at found
  · obtain ⟨pre, ace, post, split, hit, before, at_o⟩ := found
    refine Or.inl ⟨pre, ace, post, split, (keyed ace (by simp [split])).mp hit, ?_, ?_⟩
    · intro a ha same
      have := (keyed a (by simp [split, ha])).mpr same
      rw [before a ha] at this
      exact Bool.noConfusion this
    · rw [at_o, Nat.zero_add]
  · refine Or.inr ⟨fun a ha same => ?_, rfl⟩
    have := (keyed a ha).mpr same
    rw [found a ha] at this
    exact Bool.noConfusion this

/-- An ACL that validates as a laid-out list of valid canonical ACEs in type order, one per
principal, within the size limit, is valid. -/
theorem ValidAcl.of_laysOut {acl' : DaosAcl} {aces' : List DaosAce}
    (ver : acl'.dalVer = daosAclVersion) (laid : acl'.LaysOut aces')
    (valid : ∀ a ∈ aces', daosAceIsValid a = true) (canonical : ∀ a ∈ aces', a.Canonical)
    (wf : RankedMap.Wf DaosAce.key aceRank aces') (fit : getFlattenedAceSize aces' ≤ daosAclMaxAceLen) :
    ValidAcl acl' aces' :=
  ⟨daosAclValidate_of_laysOut ver laid (acesPass_of_wf valid wf) fit, laid, canonical⟩

theorem ValidAcl.ver (h : ValidAcl acl aces) : acl.dalVer = daosAclVersion :=
  (daosAclValidate_eq_zero_iff.mp h.validates).1

theorem listMem_laysOut (ver : UInt16) (len : UInt32) (aces : List DaosAce)
    (hlen : len.toNat = getFlattenedAceSize aces) :
    (DaosAcl.mk ver len (listMem (flattenAces aces))).LaysOut aces where
  bytes := by
    have h := listMem_holds [] (flattenAces aces) []
    rwa [List.nil_append, List.append_nil] at h
  len := hlen

/-- Adding the ACE of a principal the ACL has writes it over the old one, which has its size. -/
private theorem ValidAcl.addAce_existing (h : ValidAcl acl aces) {newAce : DaosAce}
    (canon : newAce.Canonical) {ace : DaosAce} (mem : ace ∈ aces) (same : ace.key = newAce.key)
    (has : aclAlreadyHasPrincipal acl newAce.daePrincipalType (some newAce.daePrincipal) = true) :
    (daosAclAddAce acl newAce).2.LaysOut (RankedMap.upsert DaosAce.key aceRank newAce aces) := by
  have found := find?_aceOffsets h.laid.bytes fun a => principalsMatch a newAce
  unfold daosAclAddAce overwriteAceForPrincipal
  rw [if_pos has, h.laid.daosAclWalk_eq]
  dsimp only
  cases hf : (aceOffsets 0 aces).find? (fun o => principalsMatch (aceAt acl.dalAce o) newAce) with
  | none =>
    -- the old ACE matches the new one, so the search finds something
    rw [hf] at found
    have hit := principalsMatch_of_key (h.canonical ace mem) same
    rw [found ace mem] at hit
    exact Bool.noConfusion hit
  | some o =>
    rw [hf] at found
    obtain ⟨pre, old, post, split, hit, -, at_o⟩ := found
    have key := principalsMatch_key hit
    have size : daosAceGetSize newAce = daosAceGetSize old := by
      unfold daosAceGetSize
      rw [DaosAce.Canonical.len_eq_of_key canon (h.canonical old (by simp [split])) key.symm]
    have wf := h.wf
    rw [split] at wf ⊢
    rw [RankedMap.upsert_of_split wf key]
    refine ⟨?_, ?_⟩
    · have bytes := h.laid.bytes
      rw [split] at bytes
      rw [at_o]
      exact holds_overwrite bytes size
    · rw [h.laid.len, split, getFlattenedAceSize_append, getFlattenedAceSize_append,
        getFlattenedAceSize_cons, getFlattenedAceSize_cons, size]

theorem getFlattenedAceSize_upsert_fresh {aces : List DaosAce} {newAce : DaosAce}
    (fresh : ∀ a ∈ aces, a.key ≠ newAce.key) :
    getFlattenedAceSize (RankedMap.upsert DaosAce.key aceRank newAce aces) =
      getFlattenedAceSize aces + daosAceGetSize newAce := by
  rw [RankedMap.upsert_of_fresh fresh,
    getFlattenedAceSize_perm (List.perm_orderedInsert _ newAce aces), getFlattenedAceSize_cons,
    Nat.add_comm]

/-- Adding the ACE of a new principal inserts it after the ACEs of its type and before those of
greater type. -/
private theorem ValidAcl.addAce_fresh (h : ValidAcl acl aces) {newAce : DaosAce}
    (fresh : ∀ a ∈ aces, a.key ≠ newAce.key)
    (has : aclAlreadyHasPrincipal acl newAce.daePrincipalType (some newAce.daePrincipal) = false)
    (fit : getFlattenedAceSize aces + daosAceGetSize newAce < 2 ^ 32) :
    (daosAclAddAce acl newAce).2.LaysOut (RankedMap.upsert DaosAce.key aceRank newAce aces) := by
  unfold daosAclAddAce copyAclWithNewAceInserted
  rw [if_neg (by simp [has]), h.laid.daosAclAces_eq, copyInsert_eq_orderedInsert,
    ← RankedMap.upsert_of_fresh fresh]
  refine listMem_laysOut _ _ _ ?_
  have small : daosAceGetSize newAce < 2 ^ 32 := by omega
  rw [getFlattenedAceSize_upsert_fresh fresh, UInt32.toNat_add, UInt32.toNat_ofNat',
    Nat.mod_eq_of_lt small, h.laid.len, Nat.mod_eq_of_lt fit]

/-- `daos_acl_add_ace` refines `upsert`: on a valid ACL and a valid canonical ACE of a valid
type, it returns 0 and leaves a valid ACL that lays out the old list with the ACE of the same
principal replaced in place, or else with the new ACE inserted after all ACEs of type at most
its own, provided that list is within the size limit. -/
theorem ValidAcl.addAce (h : ValidAcl acl aces) {newAce : DaosAce}
    (valid : daosAceIsValid newAce = true) (canon : newAce.Canonical)
    (typed : typeIsValid newAce.daePrincipalType = true)
    (fit : getFlattenedAceSize (RankedMap.upsert DaosAce.key aceRank newAce aces) ≤
      daosAclMaxAceLen) :
    (daosAclAddAce acl newAce).1 = 0 ∧
      ValidAcl (daosAclAddAce acl newAce).2 (RankedMap.upsert DaosAce.key aceRank newAce aces) := by
  have rc : (daosAclAddAce acl newAce).1 = 0 := by
    unfold daosAclAddAce
    split <;> rfl
  have ver : (daosAclAddAce acl newAce).2.dalVer = daosAclVersion := by
    unfold daosAclAddAce
    split <;> exact h.ver
  have valid' : ∀ a ∈ RankedMap.upsert DaosAce.key aceRank newAce aces, daosAceIsValid a = true := by
    intro a ha
    rcases RankedMap.mem_upsert ha with rfl | ha
    · exact valid
    · exact h.pass.valid a ha
  have canonical' : ∀ a ∈ RankedMap.upsert DaosAce.key aceRank newAce aces, a.Canonical := by
    intro a ha
    rcases RankedMap.mem_upsert ha with rfl | ha
    · exact canon
    · exact h.canonical a ha
  have wf' := h.wf.upsert newAce fun a _ same => by
    simp only [DaosAce.key, Prod.mk.injEq] at same
    simp only [aceRank, same.1]
  have valid'' := fun laid => ValidAcl.of_laysOut ver laid valid' canonical' wf' fit
  have lookup := h.lookup typed (canonicalRequest_self valid canon)
  rw [requestKey_self] at lookup
  rcases lookup with ⟨pre, ace, post, split, same, -, found⟩ | ⟨fresh, missing⟩
  · have has : aclAlreadyHasPrincipal acl newAce.daePrincipalType (some newAce.daePrincipal) :=
      by simp [aclAlreadyHasPrincipal, found]
    exact ⟨rc, valid'' (h.addAce_existing canon (by simp [split]) same has)⟩
  · have has : aclAlreadyHasPrincipal acl newAce.daePrincipalType (some newAce.daePrincipal) =
        false := by simp [aclAlreadyHasPrincipal, missing]
    have fit' := fit
    rw [getFlattenedAceSize_upsert_fresh fresh] at fit'
    exact ⟨rc, valid'' (h.addAce_fresh fresh has
      (Nat.lt_of_le_of_lt fit' (by unfold daosAclMaxAceLen; omega)))⟩

/-- `daos_acl_remove_ace` on a valid ACL, for a valid type and a canonical request: either it
finds the principal's ACE, returns 0 and leaves a valid ACL that lays out the old list without
that ACE, or it returns `-DER_NONEXIST`, leaves the ACL as it was, and the principal has no
ACE. -/
theorem ValidAcl.removeAce (h : ValidAcl acl aces) {type : UInt8} {principal : Option (List UInt8)}
    (typed : typeIsValid type = true) (req : CanonicalRequest type principal) :
    (∃ off, daosAclGetAceForPrincipal acl type principal = .ok off ∧
      aceAt acl.dalAce off ∈ aces ∧ (aceAt acl.dalAce off).key = requestKey type principal ∧
      (daosAclRemoveAce acl type principal).1 = 0 ∧
      ValidAcl (daosAclRemoveAce acl type principal).2 (aces.erase (aceAt acl.dalAce off))) ∨
    ((daosAclRemoveAce acl type principal).1 = -derNonexist ∧
      (daosAclRemoveAce acl type principal).2 = acl ∧
      ∀ a ∈ aces, a.key ≠ requestKey type principal) := by
  have checks : (!typeIsValid type || !principalMeetsTypeRequirements type principal) = false := by
    simp [typed, req.meets]
  rcases h.lookup typed req with ⟨pre, ace, post, split, same, -, found⟩ | ⟨fresh, missing⟩
  · have bytes := h.laid.bytes
    rw [split, holds_flattenAces_append, holds_flattenAces_cons] at bytes
    have at_off : aceAt acl.dalAce (getFlattenedAceSize pre) = ace := by
      have here := bytes.2.1
      rw [Nat.zero_add] at here
      exact aceAt_of_holds here
    have mem : ace ∈ aces := by simp [split]
    -- the removal's rule drops exactly the ACEs of the requested principal: this one
    have kept : (daosAclAces acl).filter (fun current => !aceMatchesPrincipal current type principal)
        = aces.erase ace := by
      rw [h.laid.daosAclAces_eq, ← RankedMap.erase_eq_erase h.wf.distinct mem, same]
      unfold RankedMap.erase
      apply List.filter_congr
      intro a ha
      rw [Bool.eq_iff_iff, Bool.not_eq_true', Bool.eq_false_iff, ne_eq,
        aceMatchesPrincipal_iff_key (h.pass.valid a ha) (h.canonical a ha) req, decide_eq_true_iff]
    have total : getFlattenedAceSize aces = daosAceGetSize ace + getFlattenedAceSize (aces.erase ace) := by
      rw [getFlattenedAceSize_perm (List.perm_cons_erase mem), getFlattenedAceSize_cons]
    have fit := h.fit
    refine Or.inl ⟨getFlattenedAceSize pre, found, by rw [at_off]; exact mem, by rw [at_off, same],
      ?_, ?_⟩
    · unfold daosAclRemoveAce
      rw [if_neg (by simp [checks]), found]
    · unfold daosAclRemoveAce
      rw [if_neg (by simp [checks]), found, at_off]
      dsimp only
      rw [kept]
      refine ValidAcl.of_laysOut h.ver (listMem_laysOut _ _ _ ?_)
        (fun a ha => h.pass.valid a (List.mem_of_mem_erase ha))
        (fun a ha => h.canonical a (List.mem_of_mem_erase ha)) (h.wf.sublist (List.erase_sublist))
        (by omega)
      -- the new length is the old one less the found ACE's size, with no wrap
      have len := h.laid.len
      have small := acl.dalLen.toNat_lt
      have fits : daosAceGetSize ace < 2 ^ 32 := by omega
      rw [UInt32.toNat_sub, UInt32.toNat_ofNat', at_off, Nat.mod_eq_of_lt fits]
      omega
  · right
    unfold daosAclRemoveAce
    rw [if_neg (by simp [checks]), missing]
    exact ⟨rfl, rfl, fresh⟩

/-- Removing the owner with a name: the lookup ignores the name and finds the owner's ACE, the
new list is one ACE shorter, but the removal's rule matches no ACE to a name of that length,
so the copy keeps every ACE and the list ends after the owner's: the ACE of everyone is gone
and the owner's stays. -/
theorem daosAclRemoveAce_named_owner :
    let owner : DaosAce := ⟨daosAclAccessAllow, daosAclOwner, 0, 0, 0, 1, 0, 0, [], rfl⟩
    let everyone : DaosAce := ⟨daosAclAccessAllow, daosAclEveryone, 0, 0, 0, 1, 0, 0, [], rfl⟩
    let acl : DaosAcl := ⟨daosAclVersion, 64, listMem (flattenAces [owner, everyone])⟩
    let name : List UInt8 := ['x'.toUInt8, '@'.toUInt8, 0]
    daosAclValidate acl = 0 ∧ daosAclAces acl = [owner, everyone] ∧
      daosAclGetAceForPrincipal acl daosAclOwner (some name) = .ok 0 ∧
      (daosAclRemoveAce acl daosAclOwner (some name)).1 = 0 ∧
      daosAclAces (daosAclRemoveAce acl daosAclOwner (some name)).2 = [owner] := by
  decide

end Edits

/-! ## Runs of edits -/

/-- An edit of an ACL: a call of `daos_acl_add_ace` or of `daos_acl_remove_ace`. -/
inductive AclEdit where
  | addAce (ace : DaosAce)
  | removeAce (type : UInt8) (principalName : Option (List UInt8))

/-- The ACL an edit leaves in `*acl`; on an error it is the ACL before. -/
def AclEdit.run (acl : DaosAcl) : AclEdit → DaosAcl
  | .addAce ace => (daosAclAddAce acl ace).2
  | .removeAce type principalName => (daosAclRemoveAce acl type principalName).2

/-- What an edit does to the list an ACL stands for. -/
def AclEdit.apply (aces : List DaosAce) : AclEdit → List DaosAce
  | .addAce ace => RankedMap.upsert DaosAce.key aceRank ace aces
  | .removeAce type principalName => RankedMap.erase DaosAce.key (requestKey type principalName) aces

/-- The edits the refinement covers: a valid canonical ACE of a valid type, or a principal of a
valid type asked for canonically. -/
def AclEdit.Canonical : AclEdit → Prop
  | .addAce ace =>
    daosAceIsValid ace = true ∧ ace.Canonical ∧ typeIsValid ace.daePrincipalType = true
  | .removeAce type principalName => typeIsValid type = true ∧ CanonicalRequest type principalName

/-- The ACL after a run of edits. -/
def aclRun (acl : DaosAcl) (edits : List AclEdit) : DaosAcl := edits.foldl AclEdit.run acl

/-- The list after a run of edits. -/
def aclSpecRun (aces : List DaosAce) (edits : List AclEdit) : List DaosAce :=
  edits.foldl AclEdit.apply aces

/-- A removal that finds nothing leaves the list as it was. -/
private theorem erase_of_absent {aces : List DaosAce} {k : UInt8 × List UInt8}
    (absent : ∀ a ∈ aces, a.key ≠ k) : RankedMap.erase DaosAce.key k aces = aces := by
  unfold RankedMap.erase
  rw [List.filter_eq_self]
  intro a ha
  exact decide_eq_true (absent a ha)

/-- One edit keeps an ACL valid and does to its list what `AclEdit.apply` says. -/
theorem ValidAcl.step {acl : DaosAcl} {aces : List DaosAce} (h : ValidAcl acl aces)
    {edit : AclEdit} (canon : edit.Canonical)
    (fit : getFlattenedAceSize (edit.apply aces) ≤ daosAclMaxAceLen) :
    ValidAcl (edit.run acl) (edit.apply aces) := by
  cases edit with
  | addAce ace =>
    obtain ⟨valid, canonical, typed⟩ := canon
    exact (h.addAce valid canonical typed fit).2
  | removeAce type principalName =>
    obtain ⟨typed, req⟩ := canon
    simp only [AclEdit.run, AclEdit.apply]
    rcases h.removeAce typed req with ⟨off, -, mem, key, -, valid⟩ | ⟨-, same, absent⟩
    · rw [← key, RankedMap.erase_eq_erase h.wf.distinct mem]
      exact valid
    · rw [same, erase_of_absent absent]
      exact h

/-- A valid ACL stays valid along every run of canonical edits whose lists stay within the size
limit, and lays out the list the edits make of its own. -/
theorem ValidAcl.run {acl : DaosAcl} {aces : List DaosAce} (h : ValidAcl acl aces)
    {edits : List AclEdit} (canon : ∀ e ∈ edits, e.Canonical)
    (fit : ∀ k, getFlattenedAceSize (aclSpecRun aces (edits.take k)) ≤ daosAclMaxAceLen) :
    ValidAcl (aclRun acl edits) (aclSpecRun aces edits) := by
  induction edits generalizing acl aces with
  | nil => exact h
  | cons edit rest ih =>
    have first := h.step (canon edit (by simp)) (by simpa [aclSpecRun] using fit 1)
    exact ih first (fun e he => canon e (by simp [he])) fun k => by
      simpa [aclSpecRun] using fit (k + 1)

/-- `daos_acl_create` of valid canonical ACEs of distinct principals within the size limit makes
a valid ACL of them in type order. -/
theorem validAcl_daosAclCreate {aces : List DaosAce}
    (valid : ∀ a ∈ aces, daosAceIsValid a = true) (canonical : ∀ a ∈ aces, a.Canonical)
    (distinct : aces.Pairwise fun a b => a.key ≠ b.key)
    (fit : getFlattenedAceSize aces ≤ daosAclMaxAceLen) :
    ValidAcl (daosAclCreate aces) (getCopySortedByPrincipalType aces) := by
  obtain ⟨validates, laid⟩ := daosAclValidate_daosAclCreate valid distinct fit
  exact ⟨validates, laid,
    fun a ha => canonical a ((getCopySortedByPrincipalType_perm aces).mem_iff.mp ha)⟩

/-- The ACL a client builds with `daos_acl_create` and then edits refines the principal-keyed map
kept in type order: after any run of canonical edits within the size limit it validates and
lays out exactly the list that `upsert` and `erase` make of the sorted ACEs. -/
theorem aclRun_daosAclCreate {aces : List DaosAce} {edits : List AclEdit}
    (valid : ∀ a ∈ aces, daosAceIsValid a = true) (canonical : ∀ a ∈ aces, a.Canonical)
    (distinct : aces.Pairwise fun a b => a.key ≠ b.key)
    (canon : ∀ e ∈ edits, e.Canonical)
    (fit : ∀ k, getFlattenedAceSize
      (aclSpecRun (getCopySortedByPrincipalType aces) (edits.take k)) ≤ daosAclMaxAceLen) :
    daosAclValidate (aclRun (daosAclCreate aces) edits) = 0 ∧
      (aclRun (daosAclCreate aces) edits).LaysOut
        (aclSpecRun (getCopySortedByPrincipalType aces) edits) := by
  have start := validAcl_daosAclCreate valid canonical distinct (by
    rw [← getFlattenedAceSize_perm (getCopySortedByPrincipalType_perm aces)]
    simpa [aclSpecRun] using fit 0)
  have final := start.run canon fit
  exact ⟨final.validates, final.laid⟩

/-- An ACL made of the owner's ACE, then given ACEs for everyone and for the user `a@`, and
stripped of the owner's: it validates and lays out the user's ACE, then everyone's. -/
theorem aclRun_daosAclCreate_edits :
    let owner : DaosAce := ⟨daosAclAccessAllow, daosAclOwner, 0, 0, 0, 1, 0, 0, [], rfl⟩
    let user : DaosAce := ⟨daosAclAccessAllow, daosAclUser, 8, 0, 0, 3, 0, 0,
      ['a'.toUInt8, '@'.toUInt8, 0, 0, 0, 0, 0, 0], rfl⟩
    let everyone : DaosAce := ⟨daosAclAccessAllow, daosAclEveryone, 0, 0, 0, 1, 0, 0, [], rfl⟩
    let edits := [AclEdit.addAce everyone, .addAce user, .removeAce daosAclOwner none]
    (∀ a ∈ [owner], daosAceIsValid a = true) ∧ (∀ a ∈ [owner], a.Canonical) ∧
      [owner].Pairwise (fun a b => a.key ≠ b.key) ∧ (∀ e ∈ edits, e.Canonical) ∧
      (∀ k, getFlattenedAceSize
        (aclSpecRun (getCopySortedByPrincipalType [owner]) (edits.take k)) ≤ daosAclMaxAceLen) ∧
      daosAclValidate (aclRun (daosAclCreate [owner]) edits) = 0 ∧
      (aclRun (daosAclCreate [owner]) edits).LaysOut [user, everyone] := by
  intro owner user everyone edits
  have valid : ∀ a ∈ [owner], daosAceIsValid a = true := by decide
  have canonical : ∀ a ∈ [owner], a.Canonical := by decide
  have distinct : [owner].Pairwise (fun a b => a.key ≠ b.key) := by decide
  have canon : ∀ e ∈ edits, e.Canonical := by
    simp only [edits, List.mem_cons, List.not_mem_nil, or_false, forall_eq_or_imp, forall_eq]
    exact ⟨⟨by decide, by decide, by decide⟩, ⟨by decide, by decide, by decide⟩,
      by decide, ⟨by decide, by decide⟩⟩
  have fit : ∀ k, getFlattenedAceSize
      (aclSpecRun (getCopySortedByPrincipalType [owner]) (edits.take k)) ≤ daosAclMaxAceLen := by
    intro k
    rcases Nat.lt_or_ge k 3 with hk | hk
    · interval_cases k <;> decide +kernel
    · rw [List.take_of_length_le (by simpa [edits] using hk)]
      decide +kernel
  have hspec : aclSpecRun (getCopySortedByPrincipalType [owner]) edits = [user, everyone] := by
    decide +kernel
  obtain ⟨validates, laid⟩ := aclRun_daosAclCreate valid canonical distinct canon fit
  exact ⟨valid, canonical, distinct, canon, fit, validates, hspec ▸ laid⟩

end Daos.Acl

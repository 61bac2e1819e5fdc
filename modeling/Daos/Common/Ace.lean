import Daos.Lib.Bytes

/-!
# Access control entries (`common/acl_api.c`, `common/acl_principal.c`)

An ACE is a 32-byte header followed by its principal array: the principal name and its
terminating zero, padded to `dae_principal_len` bytes, a multiple of 8. `DaosAce` is the header
and the array, and cannot be built with an array of another length. `DaosAce.toBytes` is its
layout in memory and `aceAt` is what a `struct daos_ace *` pointing at an address reads, so that
every check below runs on whatever bytes a client sends. Bytes that hold an ACE's encoding read
back as that ACE, wherever they lie (`aceAt_of_holds`).

**Two ways to match a principal.** `principal_name_matches_ace`, which the lookup uses, compares
names with `strncmp` over the ACE's padded length, and accepts any name for an ACE without one.
`ace_matches_principal`, which the removal and the duplicate check use, also asks that the ACE's
length be the name's length padded to 8. Both agree with the (type, name) key of the ACE when
the ACE is padded as `daos_ace_create` pads it (`DaosAce.Canonical`): `principalsMatch_key`
and `principalsMatch_of_key`. `ace_matches_principal` tells apart two ACEs of one name padded
differently, which `daos_ace_is_valid` both accepts.
-/

namespace Daos.Acl

open Daos.Bytes

/-! ## The record and its bytes -/

/-- `DAOS_ACL_OWNER`, the first value of `enum daos_acl_principal_type`; `dae_principal_type`
holds these values as a byte. -/
def daosAclOwner : UInt8 := 0

/-- `DAOS_ACL_USER`. -/
def daosAclUser : UInt8 := 1

/-- `DAOS_ACL_OWNER_GROUP`. -/
def daosAclOwnerGroup : UInt8 := 2

/-- `DAOS_ACL_GROUP`. -/
def daosAclGroup : UInt8 := 3

/-- `DAOS_ACL_EVERYONE`. -/
def daosAclEveryone : UInt8 := 4

/-- `DAOS_ACL_ACCESS_ALLOW`, a bit of `enum daos_acl_access_type`. -/
def daosAclAccessAllow : UInt8 := 1

/-- `DAOS_ACL_ACCESS_AUDIT`. -/
def daosAclAccessAudit : UInt8 := 2

/-- `DAOS_ACL_ACCESS_ALARM`. -/
def daosAclAccessAlarm : UInt8 := 4

/-- `DAOS_ACL_ACCESS_ALL`. -/
def daosAclAccessAll : UInt8 := daosAclAccessAllow ||| daosAclAccessAudit ||| daosAclAccessAlarm

/-- `DAOS_ACL_FLAG_GROUP`, a bit of `enum daos_acl_flags`. -/
def daosAclFlagGroup : UInt16 := 1

/-- `DAOS_ACL_FLAG_ACCESS_FAIL`. -/
def daosAclFlagAccessFail : UInt16 := 4

/-- `DAOS_ACL_FLAG_ACCESS_SUCCESS`. -/
def daosAclFlagAccessSuccess : UInt16 := 8

/-- `DAOS_ACL_MAX_PRINCIPAL_LEN`. -/
def daosAclMaxPrincipalLen : ℕ := 255

/-- `DAOS_ACL_MAX_PRINCIPAL_BUF_LEN`. -/
def daosAclMaxPrincipalBufLen : ℕ := daosAclMaxPrincipalLen + 1

/-- `struct daos_ace`: the header fields and the `dae_principal_len` bytes of the principal
array that follows them. -/
@[ext]
structure DaosAce where
  daeAccessTypes : UInt8
  daePrincipalType : UInt8
  daePrincipalLen : UInt16
  daeAccessFlags : UInt16
  daeReserv : UInt16
  daeAllowPerms : UInt64
  daeAuditPerms : UInt64
  daeAlarmPerms : UInt64
  daePrincipal : List UInt8
  principal_length : daePrincipal.length = daePrincipalLen.toNat
deriving DecidableEq

/-- `sizeof(struct daos_ace)`. -/
def sizeOfDaosAce : ℕ := 32

/-- `daos_ace_get_size`. -/
def daosAceGetSize (ace : DaosAce) : ℕ := sizeOfDaosAce + ace.daePrincipalLen.toNat

/-- The bytes of an ACE in memory: the header fields in order, little-endian, then the principal
array. -/
def DaosAce.toBytes (ace : DaosAce) : List UInt8 :=
  [ace.daeAccessTypes, ace.daePrincipalType] ++ leBytes 2 ace.daePrincipalLen.toNat ++
    leBytes 2 ace.daeAccessFlags.toNat ++ leBytes 2 ace.daeReserv.toNat ++
    leBytes 8 ace.daeAllowPerms.toNat ++ leBytes 8 ace.daeAuditPerms.toNat ++
    leBytes 8 ace.daeAlarmPerms.toNat ++ ace.daePrincipal

/-- The ACE a `struct daos_ace *` pointing at `addr` reads. -/
def aceAt (m : Mem) (addr : ℕ) : DaosAce where
  daeAccessTypes := m addr
  daePrincipalType := m (addr + 1)
  daePrincipalLen := UInt16.ofNat (readLE m (addr + 2) 2)
  daeAccessFlags := UInt16.ofNat (readLE m (addr + 4) 2)
  daeReserv := UInt16.ofNat (readLE m (addr + 6) 2)
  daeAllowPerms := UInt64.ofNat (readLE m (addr + 8) 8)
  daeAuditPerms := UInt64.ofNat (readLE m (addr + 16) 8)
  daeAlarmPerms := UInt64.ofNat (readLE m (addr + 24) 8)
  daePrincipal := readBytes m (addr + 32) (UInt16.ofNat (readLE m (addr + 2) 2)).toNat
  principal_length := length_readBytes _ _ _

theorem length_toBytes (ace : DaosAce) : ace.toBytes.length = daosAceGetSize ace := by
  simp only [DaosAce.toBytes, List.length_append, List.length_cons, List.length_nil,
    length_leBytes, ace.principal_length, daosAceGetSize, sizeOfDaosAce]

theorem daosAceGetSize_pos (ace : DaosAce) : 0 < daosAceGetSize ace := by
  simp only [daosAceGetSize, sizeOfDaosAce]
  omega

/-- The encoding of an ACE, taken apart into the places of its fields. -/
theorem holds_toBytes_iff {m : Mem} {addr : ℕ} {ace : DaosAce} :
    m.Holds addr ace.toBytes ↔
      m addr = ace.daeAccessTypes ∧ m (addr + 1) = ace.daePrincipalType ∧
      m.Holds (addr + 2) (leBytes 2 ace.daePrincipalLen.toNat) ∧
      m.Holds (addr + 4) (leBytes 2 ace.daeAccessFlags.toNat) ∧
      m.Holds (addr + 6) (leBytes 2 ace.daeReserv.toNat) ∧
      m.Holds (addr + 8) (leBytes 8 ace.daeAllowPerms.toNat) ∧
      m.Holds (addr + 16) (leBytes 8 ace.daeAuditPerms.toNat) ∧
      m.Holds (addr + 24) (leBytes 8 ace.daeAlarmPerms.toNat) ∧
      m.Holds (addr + 32) ace.daePrincipal := by
  simp only [DaosAce.toBytes, Mem.holds_append, Mem.holds_cons, Mem.holds_nil, and_true,
    List.length_append, List.length_cons, List.length_nil, length_leBytes, Nat.add_assoc,
    Nat.reduceAdd]
  tauto

private theorem ofNat_readLE_u16 {m : Mem} {addr : ℕ} {x : UInt16}
    (h : m.Holds addr (leBytes 2 x.toNat)) : UInt16.ofNat (readLE m addr 2) = x := by
  rw [h.readLE_eq, Nat.mod_eq_of_lt (Nat.lt_of_lt_of_le x.toNat_lt (by decide)),
    UInt16.ofNat_toNat]

private theorem ofNat_readLE_u64 {m : Mem} {addr : ℕ} {x : UInt64}
    (h : m.Holds addr (leBytes 8 x.toNat)) : UInt64.ofNat (readLE m addr 8) = x := by
  rw [h.readLE_eq, Nat.mod_eq_of_lt (Nat.lt_of_lt_of_le x.toNat_lt (by decide)),
    UInt64.ofNat_toNat]

/-- Bytes that hold an ACE's encoding read back as that ACE. -/
theorem aceAt_of_holds {m : Mem} {addr : ℕ} {ace : DaosAce} (h : m.Holds addr ace.toBytes) :
    aceAt m addr = ace := by
  obtain ⟨h0, h1, hlen, hflags, hres, hallow, haudit, halarm, hprin⟩ := holds_toBytes_iff.mp h
  have plen : UInt16.ofNat (readLE m (addr + 2) 2) = ace.daePrincipalLen := ofNat_readLE_u16 hlen
  ext1
  · exact h0
  · exact h1
  · exact plen
  · exact ofNat_readLE_u16 hflags
  · exact ofNat_readLE_u16 hres
  · exact ofNat_readLE_u64 hallow
  · exact ofNat_readLE_u64 haudit
  · exact ofNat_readLE_u64 halarm
  · change readBytes m (addr + 32) (UInt16.ofNat (readLE m (addr + 2) 2)).toNat = _
    rw [plen, ← ace.principal_length]
    exact hprin.readBytes_eq

/-! ## Validity (`daos_ace_is_valid`) -/

/-- `type_is_valid`. -/
def typeIsValid (type : UInt8) : Bool :=
  type == daosAclUser || type == daosAclGroup || type == daosAclOwner ||
    type == daosAclOwnerGroup || type == daosAclEveryone

/-- `type_needs_name`: only users and groups are named. -/
def typeNeedsName (type : UInt8) : Bool := type == daosAclUser || type == daosAclGroup

/-- `type_is_group`. -/
def typeIsGroup (type : UInt8) : Bool := type == daosAclGroup || type == daosAclOwnerGroup

/-- `enum validity_state` of the principal-name parser. -/
inductive ValidityState where
  | stateStart
  | stateName
  | stateDomain
  | stateDone
  | stateInvalid
deriving DecidableEq, Repr

/-- `next_validity_state`: a name is `name@domain`, either part possibly empty after the first
character, and ends at its zero. -/
def nextValidityState : ValidityState → UInt8 → ValidityState
  | .stateStart, ch => if ch == '@'.toUInt8 then .stateInvalid else .stateName
  | .stateName, ch =>
    if ch == '@'.toUInt8 then .stateDomain else if ch == 0 then .stateInvalid else .stateName
  | .stateDomain, ch =>
    if ch == 0 then .stateDone else if ch == '@'.toUInt8 then .stateInvalid else .stateDomain
  | .stateDone, _ => .stateDone
  | .stateInvalid, _ => .stateInvalid

/-- The loop of `daos_acl_principal_is_valid` over the characters, stopping at the first that
makes the state invalid. -/
def validityScan : ValidityState → List UInt8 → Bool
  | _, [] => true
  | state, ch :: rest =>
    let state := nextValidityState state ch
    if state == .stateInvalid then false else validityScan state rest

/-- `daos_acl_principal_is_valid`: a name of 1 to 255 characters that the parser accepts, its
terminating zero included. -/
def daosAclPrincipalIsValid (name : Option (List UInt8)) : Bool :=
  match name with
  | none => false
  | some name =>
    let len := strnlen name daosAclMaxPrincipalBufLen
    if len == 0 || len > daosAclMaxPrincipalLen then false
    else validityScan .stateStart ((List.range (len + 1)).map fun i => name.getD i 0)

/-- `principal_is_null_terminated`: a zero among the `dae_principal_len` bytes. -/
def principalIsNullTerminated (ace : DaosAce) : Bool := ace.daePrincipal.any (· == 0)

/-- `get_permissions`. -/
def getPermissions (ace : DaosAce) (type : UInt8) : UInt64 :=
  if type == daosAclAccessAllow then ace.daeAllowPerms
  else if type == daosAclAccessAudit then ace.daeAuditPerms
  else if type == daosAclAccessAlarm then ace.daeAlarmPerms
  else 0

/-- `permissions_match_access_type`: no permissions for an access type the ACE does not have. -/
def permissionsMatchAccessType (ace : DaosAce) (type : UInt8) : Bool :=
  !((ace.daeAccessTypes &&& type) == 0 && getPermissions ace type != 0)

/-- `access_matches_flags`: the audit and alarm types go with the access-fail or -success flags,
and only with them. -/
def accessMatchesFlags (ace : DaosAce) : Bool :=
  let alertFlags := daosAclFlagAccessFail ||| daosAclFlagAccessSuccess
  let alertAccessTypes := daosAclAccessAlarm ||| daosAclAccessAudit
  let isAlertType := (ace.daeAccessTypes &&& alertAccessTypes) != 0
  let hasFlags := (ace.daeAccessFlags &&& alertFlags) != 0
  isAlertType == hasFlags

/-- `daos_ace_is_valid`. The principal type is not checked against the enumeration. -/
def daosAceIsValid (ace : DaosAce) : Bool :=
  if (ace.daeAccessTypes &&& ~~~daosAclAccessAll) != 0 then false
  else if ace.daeAccessTypes == 0 then false
  else if typeNeedsName ace.daePrincipalType != (ace.daePrincipalLen != 0) then false
  else if typeIsGroup ace.daePrincipalType != ((ace.daeAccessFlags &&& daosAclFlagGroup) != 0) then
    false
  else if ace.daePrincipalLen % 8 != 0 then false
  else if ace.daePrincipalLen > 0 && !principalIsNullTerminated ace then false
  else if ace.daePrincipalLen > 0 && !daosAclPrincipalIsValid (some ace.daePrincipal) then false
  else if !permissionsMatchAccessType ace daosAclAccessAllow ||
      !permissionsMatchAccessType ace daosAclAccessAudit ||
      !permissionsMatchAccessType ace daosAclAccessAlarm then false
  else if !accessMatchesFlags ace then false
  else true

/-- The checks of `daos_ace_is_valid`, one field each. -/
structure DaosAce.Valid (ace : DaosAce) : Prop where
  accessTypes : ace.daeAccessTypes &&& ~~~daosAclAccessAll = 0
  accessTypes_ne : ace.daeAccessTypes ≠ 0
  named : typeNeedsName ace.daePrincipalType = true ↔ ace.daePrincipalLen ≠ 0
  group : typeIsGroup ace.daePrincipalType = true ↔ ace.daeAccessFlags &&& daosAclFlagGroup ≠ 0
  align : ace.daePrincipalLen % 8 = 0
  terminated : 0 < ace.daePrincipalLen → principalIsNullTerminated ace = true
  principal : 0 < ace.daePrincipalLen → daosAclPrincipalIsValid (some ace.daePrincipal) = true
  allow : permissionsMatchAccessType ace daosAclAccessAllow = true
  audit : permissionsMatchAccessType ace daosAclAccessAudit = true
  alarm : permissionsMatchAccessType ace daosAclAccessAlarm = true
  flags : accessMatchesFlags ace = true

/-- `daos_ace_is_valid` accepts an ACE exactly when it passes every check. -/
theorem daosAceIsValid_iff {ace : DaosAce} : daosAceIsValid ace = true ↔ ace.Valid := by
  unfold daosAceIsValid
  constructor
  · intro h
    split_ifs at h with c1 c2 c3 c4 c5 c6 c7 c8 c9
    simp only [bne_iff_ne, ne_eq, Decidable.not_not, beq_iff_eq, Bool.and_eq_true,
      decide_eq_true_eq, not_and, Bool.not_eq_true', Bool.or_eq_true, not_or,
      Bool.not_eq_false] at c1 c2 c3 c4 c5 c6 c7 c8 c9
    refine ⟨c1, c2, by rw [c3]; simp, by rw [c4]; simp, c5, c6, c7, c8.1.1, c8.1.2, c8.2, c9⟩
  · intro v
    have c3 : typeNeedsName ace.daePrincipalType = (ace.daePrincipalLen != 0) := by
      rw [Bool.eq_iff_iff, v.named, bne_iff_ne]
    have c4 : typeIsGroup ace.daePrincipalType = (ace.daeAccessFlags &&& daosAclFlagGroup != 0) := by
      rw [Bool.eq_iff_iff, v.group, bne_iff_ne]
    by_cases hp : 0 < ace.daePrincipalLen
    · simp [v.accessTypes, v.accessTypes_ne, c3, c4, v.align, v.terminated hp, v.principal hp,
        v.allow, v.audit, v.alarm, v.flags]
    · simp [v.accessTypes, v.accessTypes_ne, c3, c4, v.align, hp, v.allow, v.audit, v.alarm,
        v.flags]

/-- What the layout and the matching rules need of a valid ACE: its length is a multiple of 8,
its name ends inside its array, and it has a name exactly when its type needs one. -/
theorem DaosAce.valid_layout {ace : DaosAce} (h : daosAceIsValid ace = true) :
    ace.daePrincipalLen.toNat % 8 = 0 ∧
      (0 < ace.daePrincipalLen.toNat → principalIsNullTerminated ace = true) ∧
      (typeNeedsName ace.daePrincipalType = true ↔ ace.daePrincipalLen.toNat ≠ 0) := by
  have v := daosAceIsValid_iff.mp h
  have hz : ace.daePrincipalLen = 0 ↔ ace.daePrincipalLen.toNat = 0 := by
    rw [← UInt16.toNat_inj]
    rfl
  refine ⟨?_, fun hpos => v.terminated ?_, ?_⟩
  · simpa [UInt16.toNat_mod] using congrArg UInt16.toNat v.align
  · rw [UInt16.lt_iff_toNat_lt]
    simpa using hpos
  · rw [v.named, ne_eq, ne_eq, hz]

/-! ## Matching a principal -/

/-- `D_ALIGNUP(x, a)`: `x` rounded up to a multiple of `a`, for `a` a power of two. -/
def dAlignup (x a : ℕ) : ℕ := (x + (a - 1)) / a * a

/-- `principal_name_matches_ace`: the lookup's rule. No name matches an ACE without one; a
name matches if it agrees with the ACE's array over the array's length. -/
def principalNameMatchesAce (ace : DaosAce) (principal : Option (List UInt8)) : Bool :=
  match principal with
  | none => ace.daePrincipalLen == 0
  | some principal => strncmp principal ace.daePrincipal ace.daePrincipalLen.toNat == 0

/-- The `principal_len` of `ace_matches_principal`: the name's length with its zero, or zero
for no name or an empty one. -/
def acePrincipalLen (principal : Option (List UInt8)) : ℕ :=
  match principal with
  | none => 0
  | some principal => if strlen principal = 0 then 0 else strlen principal + 1

/-- `ace_matches_principal`: the removal's rule. The type, the ACE's length against the name's
padded length, and the lookup's rule. -/
def aceMatchesPrincipal (ace : DaosAce) (type : UInt8) (principal : Option (List UInt8)) :
    Bool :=
  ace.daePrincipalType == type &&
    ace.daePrincipalLen.toNat == dAlignup (acePrincipalLen principal) 8 &&
    principalNameMatchesAce ace principal

/-- `principals_match`: the second ACE's principal, looked for with the removal's rule. -/
def principalsMatch (ace₁ ace₂ : DaosAce) : Bool :=
  aceMatchesPrincipal ace₁ ace₂.daePrincipalType
    (if ace₂.daePrincipalLen > 0 then some ace₂.daePrincipal else none)

/-- The principal an ACE is for: its type and the name in its array. -/
def DaosAce.key (ace : DaosAce) : UInt8 × List UInt8 := (ace.daePrincipalType, cStr ace.daePrincipal)

/-- An ACE whose array is its name padded as `daos_ace_create` pads it. -/
def DaosAce.Canonical (ace : DaosAce) : Prop :=
  ace.daePrincipalLen.toNat = dAlignup (acePrincipalLen (some ace.daePrincipal)) 8

instance (ace : DaosAce) : Decidable ace.Canonical := inferInstanceAs (Decidable (_ = _))

private theorem principal_nil_of_len_zero {ace : DaosAce} (h : ace.daePrincipalLen.toNat = 0) :
    ace.daePrincipal = [] := by
  rw [← List.length_eq_zero_iff, ace.principal_length, h]

private theorem dAlignup_zero : dAlignup 0 8 = 0 := rfl

private theorem lt_dAlignup (x : ℕ) : x < dAlignup (x + 1) 8 := by
  unfold dAlignup
  omega

private theorem acePrincipalLen_eq_zero_iff {p : List UInt8} :
    acePrincipalLen (some p) = 0 ↔ cStr p = [] := by
  simp only [acePrincipalLen, strlen, List.length_eq_zero_iff]
  split <;> simp_all

/-- Two ACEs that the removal's rule matches are for one principal. -/
theorem principalsMatch_key {ace₁ ace₂ : DaosAce} (h : principalsMatch ace₁ ace₂ = true) :
    ace₁.key = ace₂.key := by
  simp only [principalsMatch, aceMatchesPrincipal, Bool.and_eq_true, beq_iff_eq] at h
  obtain ⟨⟨htype, hlen⟩, hname⟩ := h
  simp only [DaosAce.key, Prod.mk.injEq, htype, true_and]
  by_cases hpos : ace₂.daePrincipalLen > 0
  · simp only [hpos, ↓reduceIte, principalNameMatchesAce, beq_iff_eq] at hlen hname
    by_cases hz : strlen ace₂.daePrincipal = 0
    · -- an empty name: the first ACE has no array at all
      have h₁ : ace₁.daePrincipalLen.toNat = 0 := by
        simpa [acePrincipalLen, hz, dAlignup_zero] using hlen
      have h₂ : cStr ace₂.daePrincipal = [] := List.length_eq_zero_iff.mp hz
      rw [principal_nil_of_len_zero h₁, h₂, cStr_nil]
    · have within : strlen ace₂.daePrincipal < ace₁.daePrincipalLen.toNat := by
        rw [hlen, acePrincipalLen, if_neg hz]
        exact lt_dAlignup _
      exact ((strncmp_eq_zero_iff (Or.inl within)).mp hname).symm
  · have h₂ : ace₂.daePrincipalLen.toNat = 0 := by
      simp only [GT.gt, UInt16.lt_iff_toNat_lt, UInt16.toNat_zero, Nat.not_lt] at hpos
      omega
    simp only [hpos, ↓reduceIte, acePrincipalLen, dAlignup_zero] at hlen
    rw [principal_nil_of_len_zero hlen, principal_nil_of_len_zero h₂]

/-- A canonical ACE is matched by the removal's rule by every ACE of its principal. -/
theorem principalsMatch_of_key {ace₁ ace₂ : DaosAce} (canon : ace₁.Canonical)
    (same : ace₁.key = ace₂.key) : principalsMatch ace₁ ace₂ = true := by
  simp only [DaosAce.key, Prod.mk.injEq] at same
  obtain ⟨htype, hname⟩ := same
  have lenEq : acePrincipalLen (some ace₁.daePrincipal) =
      acePrincipalLen (some ace₂.daePrincipal) := by
    have hl : strlen ace₁.daePrincipal = strlen ace₂.daePrincipal := by
      unfold strlen
      rw [hname]
    simp only [acePrincipalLen, hl]
  simp only [principalsMatch, aceMatchesPrincipal, Bool.and_eq_true, beq_iff_eq, htype, true_and]
  by_cases hpos : ace₂.daePrincipalLen > 0
  · simp only [hpos, ↓reduceIte, principalNameMatchesAce, beq_iff_eq]
    refine ⟨by rw [canon, lenEq], ?_⟩
    by_cases hz : cStr ace₁.daePrincipal = []
    · have h₁ : ace₁.daePrincipalLen.toNat = 0 := by
        rw [canon, acePrincipalLen_eq_zero_iff.mpr hz, dAlignup_zero]
      rw [h₁, strncmp_zero]
    · have within : strlen ace₁.daePrincipal < ace₁.daePrincipalLen.toNat := by
        rw [canon, acePrincipalLen, if_neg (by simpa [strlen] using hz)]
        exact lt_dAlignup _
      exact (strncmp_eq_zero_iff (Or.inr within)).mpr hname.symm
  · have h₂ : ace₂.daePrincipalLen.toNat = 0 := by
      simp only [GT.gt, UInt16.lt_iff_toNat_lt, UInt16.toNat_zero, Nat.not_lt] at hpos
      omega
    have h₁ : ace₁.daePrincipalLen.toNat = 0 := by
      rw [canon, lenEq, principal_nil_of_len_zero h₂, acePrincipalLen_eq_zero_iff.mpr cStr_nil,
        dAlignup_zero]
    have z : ace₁.daePrincipalLen = 0 := UInt16.toNat_inj.mp (by rw [h₁]; rfl)
    simp [hpos, principalNameMatchesAce, acePrincipalLen, dAlignup_zero, z]

/-- Two canonical ACEs of one principal have one size. -/
theorem DaosAce.Canonical.len_eq_of_key {ace₁ ace₂ : DaosAce} (canon₁ : ace₁.Canonical)
    (canon₂ : ace₂.Canonical) (same : ace₁.key = ace₂.key) :
    ace₁.daePrincipalLen = ace₂.daePrincipalLen := by
  simp only [DaosAce.key, Prod.mk.injEq] at same
  have hl : strlen ace₁.daePrincipal = strlen ace₂.daePrincipal := by
    unfold strlen
    rw [same.2]
  apply UInt16.toNat_inj.mp
  rw [canon₁, canon₂]
  simp only [acePrincipalLen, hl]

/-- The principal a lookup asks for: its type and the name given, empty if none is. -/
def requestKey (type : UInt8) (principal : Option (List UInt8)) : UInt8 × List UInt8 :=
  (type, cStr (principal.getD []))

/-- `principal_meets_type_requirements`: a user or a group is asked for with a nonempty name. -/
def principalMeetsTypeRequirements (type : UInt8) (principalName : Option (List UInt8)) : Bool :=
  !typeNeedsName type ||
    match principalName with
    | none => false
    | some name => strlen name != 0

section Request

variable {ace : DaosAce} {type : UInt8} {principal : Option (List UInt8)}

/-- A request names what the type needs: a nonempty name for users and groups, and no name
(or an empty one) for the other types. -/
structure CanonicalRequest (type : UInt8) (principal : Option (List UInt8)) : Prop where
  meets : principalMeetsTypeRequirements type principal = true
  unnamed : typeNeedsName type = false → acePrincipalLen principal = 0

theorem CanonicalRequest.named (req : CanonicalRequest type principal)
    (needs : typeNeedsName type = true) : ∃ p, principal = some p ∧ strlen p ≠ 0 := by
  have meets := req.meets
  simp only [principalMeetsTypeRequirements, needs, Bool.not_true, Bool.false_or] at meets
  cases principal with
  | none => simp at meets
  | some p => exact ⟨p, rfl, by simpa using meets⟩

theorem CanonicalRequest.key_of_unnamed (req : CanonicalRequest type principal)
    (needs : typeNeedsName type = false) : cStr (principal.getD []) = [] := by
  have zero := req.unnamed needs
  cases principal with
  | none => rfl
  | some p =>
    simp only [acePrincipalLen] at zero
    split at zero
    · rename_i hz
      exact List.length_eq_zero_iff.mp hz
    · omega

/-- On a valid ACE, the lookup's rule for a canonical request is equality of keys. -/
theorem lookupMatches_iff_key (valid : daosAceIsValid ace = true)
    (req : CanonicalRequest type principal) :
    (ace.daePrincipalType == type && principalNameMatchesAce ace principal) = true ↔
      ace.key = requestKey type principal := by
  obtain ⟨-, ended, named⟩ := DaosAce.valid_layout valid
  simp only [DaosAce.key, requestKey, Prod.mk.injEq, Bool.and_eq_true, beq_iff_eq]
  by_cases ht : ace.daePrincipalType = type
  swap
  · simp [ht]
  subst ht
  simp only [true_and]
  cases needs : typeNeedsName ace.daePrincipalType
  · -- no name in the ACE: every name matches it, and the request has none
    have zero : ace.daePrincipalLen.toNat = 0 := by simpa [needs] using named
    have nil : ace.daePrincipal = [] := by
      rw [← List.length_eq_zero_iff, ace.principal_length, zero]
    have accepts : principalNameMatchesAce ace principal = true := by
      cases principal with
      | none => simpa [principalNameMatchesAce] using UInt16.toNat_inj.mp (by simpa using zero)
      | some p => simp [principalNameMatchesAce, zero]
    rw [nil, cStr_nil, req.key_of_unnamed needs]
    simp [accepts]
  · obtain ⟨p, rfl, -⟩ := req.named needs
    have pos : 0 < ace.daePrincipalLen.toNat := by
      have := named.mp needs
      omega
    have within : strlen ace.daePrincipal < ace.daePrincipalLen.toNat := by
      have := strlen_lt_length (ended pos)
      rwa [ace.principal_length] at this
    simp only [principalNameMatchesAce, beq_iff_eq, Option.getD_some]
    rw [strncmp_eq_zero_iff (Or.inr within)]
    exact eq_comm

/-- On a valid canonical ACE, the removal's rule for a canonical request is equality of keys
too. -/
theorem aceMatchesPrincipal_iff_key (valid : daosAceIsValid ace = true) (canon : ace.Canonical)
    (req : CanonicalRequest type principal) :
    aceMatchesPrincipal ace type principal = true ↔ ace.key = requestKey type principal := by
  rw [← lookupMatches_iff_key valid req]
  simp only [aceMatchesPrincipal, Bool.and_eq_true, beq_iff_eq]
  constructor
  · rintro ⟨⟨ht, -⟩, hn⟩
    exact ⟨ht, hn⟩
  · rintro ⟨ht, hn⟩
    refine ⟨⟨ht, ?_⟩, hn⟩
    -- the lengths agree: both are the padded length of one name
    have same := (lookupMatches_iff_key valid req).mp (by simp [ht, hn])
    simp only [DaosAce.key, requestKey, Prod.mk.injEq] at same
    rw [canon]
    cases principal with
    | none => simp [acePrincipalLen, strlen, same.2]
    | some p => simp [acePrincipalLen, strlen, same.2]

/-- A valid canonical ACE asks for its own principal canonically. -/
theorem canonicalRequest_self (valid : daosAceIsValid ace = true) (canon : ace.Canonical) :
    CanonicalRequest ace.daePrincipalType (some ace.daePrincipal) where
  meets := by
    obtain ⟨-, -, named⟩ := DaosAce.valid_layout valid
    cases needs : typeNeedsName ace.daePrincipalType
    · simp [principalMeetsTypeRequirements, needs]
    · have pos : ace.daePrincipalLen.toNat ≠ 0 := named.mp needs
      rw [canon] at pos
      simp only [principalMeetsTypeRequirements, needs, Bool.not_true, Bool.false_or,
        bne_iff_ne, ne_eq]
      intro hz
      simp [acePrincipalLen, hz, dAlignup_zero] at pos
  unnamed := by
    intro needs
    obtain ⟨-, -, named⟩ := DaosAce.valid_layout valid
    have zero : ace.daePrincipalLen.toNat = 0 := by simpa [needs] using named
    rw [principal_nil_of_len_zero zero]
    rfl

theorem requestKey_self (ace : DaosAce) :
    requestKey ace.daePrincipalType (some ace.daePrincipal) = ace.key := rfl

end Request

end Daos.Acl

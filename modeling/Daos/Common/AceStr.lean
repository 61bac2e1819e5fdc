import Daos.Common.Acl

/-!
# The string form of an ACE (`common/acl_util.c`)

`daos_ace_to_str` writes an ACE as four `':'`-separated fields: the access types, the flags, the
principal and the permissions, each bit field as one character per bit in a fixed order, and
`daos_ace_from_str` parses such a string back with a state machine over the fields. The bit
fields go through character tables (`charsOfBits`, `bitsOfChars`); each table is the list of the
source's `*_CH` characters with their bits, in the order `daos_ace_to_str` writes them.

**The printer.** Each write returns a status that overwrites `rc`, so the call returns the
status of its last write. A write that does not fit leaves the pen where it is, and every later
write fails too.

**The parser.** The identity field is classified by comparing it with `OWNER@`, `GROUP@` and
`EVERYONE@` before the group flag is looked at, while the printer writes the name stored in a
user or group ACE. A user or group named like one of the special principals, or named with a
`':'`, does not survive the round trip (`daosAceFromStr_owner_named_user`).

The allocations of `daos_ace_create` and `strndup` are taken to succeed.
-/

namespace Daos.Acl

open Daos.Bytes

/-! ## Constants -/

/-- `DER_NOMEM`. -/
def derNomem : ℤ := 1009

/-- `DER_TRUNC`. -/
def derTrunc : ℤ := 1016

/-- `DAOS_ACL_FLAG_POOL_INHERIT`. -/
def daosAclFlagPoolInherit : UInt16 := 2

/-- `DAOS_ACL_FLAG_ALL`. -/
def daosAclFlagAll : UInt16 :=
  daosAclFlagGroup ||| daosAclFlagPoolInherit ||| daosAclFlagAccessFail ||| daosAclFlagAccessSuccess

/-- `DAOS_ACL_PERM_READ`. -/
def daosAclPermRead : UInt64 := (1 : UInt64) <<< 0

/-- `DAOS_ACL_PERM_WRITE`. -/
def daosAclPermWrite : UInt64 := (1 : UInt64) <<< 1

/-- `DAOS_ACL_PERM_CREATE_CONT`. -/
def daosAclPermCreateCont : UInt64 := (1 : UInt64) <<< 2

/-- `DAOS_ACL_PERM_DEL_CONT`. -/
def daosAclPermDelCont : UInt64 := (1 : UInt64) <<< 3

/-- `DAOS_ACL_PERM_GET_PROP`. -/
def daosAclPermGetProp : UInt64 := (1 : UInt64) <<< 4

/-- `DAOS_ACL_PERM_SET_PROP`. -/
def daosAclPermSetProp : UInt64 := (1 : UInt64) <<< 5

/-- `DAOS_ACL_PERM_GET_ACL`. -/
def daosAclPermGetAcl : UInt64 := (1 : UInt64) <<< 6

/-- `DAOS_ACL_PERM_SET_ACL`. -/
def daosAclPermSetAcl : UInt64 := (1 : UInt64) <<< 7

/-- `DAOS_ACL_PERM_SET_OWNER`. -/
def daosAclPermSetOwner : UInt64 := (1 : UInt64) <<< 8

/-- `DAOS_ACL_PERM_ALL`, the pool and the container permissions. -/
def daosAclPermAll : UInt64 :=
  (daosAclPermRead ||| daosAclPermGetProp ||| daosAclPermWrite ||| daosAclPermCreateCont |||
    daosAclPermDelCont) |||
  (daosAclPermRead ||| daosAclPermWrite ||| daosAclPermDelCont ||| daosAclPermGetProp |||
    daosAclPermSetProp ||| daosAclPermGetAcl ||| daosAclPermSetAcl ||| daosAclPermSetOwner)

/-- `DAOS_ACL_MAX_ACE_STR_LEN`. -/
def daosAclMaxAceStrLen : ℕ := daosAclMaxPrincipalLen + 64

/-- `ACE_FIELD_DELIM`. -/
def aceFieldDelim : UInt8 := ':'.toUInt8

/-- `DAOS_ACL_PRINCIPAL_OWNER`, `"OWNER@"`. -/
def daosAclPrincipalOwner : List UInt8 :=
  ['O'.toUInt8, 'W'.toUInt8, 'N'.toUInt8, 'E'.toUInt8, 'R'.toUInt8, '@'.toUInt8]

/-- `DAOS_ACL_PRINCIPAL_OWNER_GRP`, `"GROUP@"`. -/
def daosAclPrincipalOwnerGrp : List UInt8 :=
  ['G'.toUInt8, 'R'.toUInt8, 'O'.toUInt8, 'U'.toUInt8, 'P'.toUInt8, '@'.toUInt8]

/-- `DAOS_ACL_PRINCIPAL_EVERYONE`, `"EVERYONE@"`. -/
def daosAclPrincipalEveryone : List UInt8 :=
  ['E'.toUInt8, 'V'.toUInt8, 'E'.toUInt8, 'R'.toUInt8, 'Y'.toUInt8, 'O'.toUInt8, 'N'.toUInt8,
    'E'.toUInt8, '@'.toUInt8]

/-- `ACCESS_ALLOW_CH`, `ACCESS_AUDIT_CH` and `ACCESS_ALARM_CH` with their bits. -/
def aceAccessTypeChars : List (UInt8 × UInt8) :=
  [('A'.toUInt8, daosAclAccessAllow), ('U'.toUInt8, daosAclAccessAudit),
    ('L'.toUInt8, daosAclAccessAlarm)]

/-- `FLAG_GROUP_CH`, `FLAG_ACCESS_SUCCESS_CH`, `FLAG_ACCESS_FAIL_CH` and `FLAG_POOL_INHERIT_CH`
with their bits. -/
def aceFlagChars : List (UInt8 × UInt16) :=
  [('G'.toUInt8, daosAclFlagGroup), ('S'.toUInt8, daosAclFlagAccessSuccess),
    ('F'.toUInt8, daosAclFlagAccessFail), ('P'.toUInt8, daosAclFlagPoolInherit)]

/-- The `PERM_*_CH` characters with their bits. -/
def acePermChars : List (UInt8 × UInt64) :=
  [('r'.toUInt8, daosAclPermRead), ('w'.toUInt8, daosAclPermWrite),
    ('c'.toUInt8, daosAclPermCreateCont), ('d'.toUInt8, daosAclPermDelCont),
    ('t'.toUInt8, daosAclPermGetProp), ('T'.toUInt8, daosAclPermSetProp),
    ('a'.toUInt8, daosAclPermGetAcl), ('A'.toUInt8, daosAclPermSetAcl),
    ('o'.toUInt8, daosAclPermSetOwner)]

/-! ## Bit fields as characters -/

/-- The characters of the table's bits that `b` has, in table order. -/
def charsOfBits {α β : Type} [AndOp β] [OfNat β 0] [DecidableEq β] (tbl : List (α × β)) (b : β) :
    List α :=
  tbl.filterMap fun e => if b &&& e.2 = 0 then none else some e.1

/-- The bits of the characters read, or-ed into `acc`; `none` at a character not in the table. -/
def bitsOfChars {α β : Type} [DecidableEq α] [OrOp β] (tbl : List (α × β)) :
    List α → β → Option β
  | [], acc => some acc
  | c :: cs, acc =>
    match tbl.lookup c with
    | some m => bitsOfChars tbl cs (acc ||| m)
    | none => none

/-! ## `daos_ace_create` -/

/-- `daos_ace_create`: an ACE of the type, with no access, the group flag for group types, and
for users and groups the name copied into an array padded with zeros to a multiple of 8;
`NULL` for an invalid type or a missing name. The ACE holds the first `dae_principal_len`
bytes of the array. -/
def daosAceCreate (type : UInt8) (principalName : List UInt8) : Option DaosAce :=
  if !typeIsValid type then none
  else if typeNeedsName type && strlen principalName == 0 then none
  else
    let principalArrayLen :=
      if typeNeedsName type then dAlignup (strlen principalName + 1) 8 else 0
    some
      { daeAccessTypes := 0
        daePrincipalType := type
        daePrincipalLen := UInt16.ofNat principalArrayLen
        daeAccessFlags := if typeIsGroup type then daosAclFlagGroup else 0
        daeReserv := 0
        daeAllowPerms := 0
        daeAuditPerms := 0
        daeAlarmPerms := 0
        daePrincipal := strncpy principalName (UInt16.ofNat principalArrayLen).toNat
        principal_length := length_strncpy _ _ }

/-! ## The parser -/

/-- `enum ace_str_state`. -/
inductive AceStrState where
  | aceFirstAccessType
  | aceAccessTypes
  | aceFirstFlag
  | aceFlags
  | aceIdentity
  | aceFirstPerm
  | acePerms
  | aceDone
  | aceInvalid
  | aceTrunc
deriving DecidableEq, Repr

/-- The loop of `process_access_types`, `process_flags` and `process_perms`: or in the bit of
each character of the field and go to `next`, or make the string invalid at an unknown
character. (There the C has or-ed in the bits before it, a value nothing reads again.) -/
def processChars {β : Type} [OrOp β] (tbl : List (UInt8 × β)) (next : AceStrState)
    (str : List UInt8) (bits : β) : AceStrState × β :=
  match bitsOfChars tbl (str.take (strnlen str daosAclMaxAceStrLen)) bits with
  | some bits => (next, bits)
  | none => (.aceInvalid, bits)

/-- `process_access_types`. -/
def processAccessTypes (str : List UInt8) (accessTypes : UInt8) : AceStrState × UInt8 :=
  processChars aceAccessTypeChars .aceFlags str accessTypes

/-- `process_flags`. -/
def processFlags (str : List UInt8) (flags : UInt16) : AceStrState × UInt16 :=
  processChars aceFlagChars .aceIdentity str flags

/-- `process_perms`. -/
def processPerms (str : List UInt8) (perms : UInt64) : AceStrState × UInt64 :=
  processChars acePermChars .aceDone str perms

/-- `get_ace_from_identity`: the special principals by name, then a group or a user by the
group flag. -/
def getAceFromIdentity (identity : List UInt8) (flags : UInt16) : Option DaosAce :=
  let type :=
    if strncmp identity daosAclPrincipalOwner daosAclMaxPrincipalBufLen = 0 then daosAclOwner
    else if strncmp identity daosAclPrincipalOwnerGrp daosAclMaxPrincipalBufLen = 0 then
      daosAclOwnerGroup
    else if strncmp identity daosAclPrincipalEveryone daosAclMaxPrincipalBufLen = 0 then
      daosAclEveryone
    else if flags &&& daosAclFlagGroup ≠ 0 then daosAclGroup
    else daosAclUser
  daosAceCreate type identity

/-- The locals of `create_ace_from_mutable_str` that the fields fill. -/
structure AceStrFields where
  flags : UInt16
  accessTypes : UInt8
  perms : UInt64
  newAce : Option DaosAce

/-- One round of the loop of `create_ace_from_mutable_str`, on one field. -/
def aceStrStep (state : AceStrState) (p : AceStrFields) (field : List UInt8) :
    Except ℤ (AceStrState × AceStrFields) :=
  match state with
  | .aceAccessTypes =>
    let r := processAccessTypes field p.accessTypes
    .ok (r.1, { p with accessTypes := r.2 })
  | .aceFlags =>
    let r := processFlags field p.flags
    .ok (r.1, { p with flags := r.2 })
  | .aceIdentity =>
    if !daosAclPrincipalIsValid (some field) then .ok (.aceInvalid, p)
    else
      match getAceFromIdentity field p.flags with
      | none => .error (-derNomem)
      | some ace => .ok (.acePerms, { p with newAce := some ace })
  | .acePerms =>
    let r := processPerms field p.perms
    .ok (r.1, { p with perms := r.2 })
  | _ => .ok (.aceInvalid, p)

/-- The loop of `create_ace_from_mutable_str` over the `':'`-separated fields: a round for each
field, the last one included, and no further round after one that leaves the string invalid. -/
def aceStrLoop (state : AceStrState) (p : AceStrFields) :
    List (List UInt8) → Except ℤ (AceStrState × AceStrFields)
  | [] => .ok (state, p)
  | field :: rest =>
    match aceStrStep state p field with
    | .error rc => .error rc
    | .ok (state, p) =>
      match rest with
      | [] => .ok (state, p)
      | _ :: _ => if state = .aceInvalid then .ok (state, p) else aceStrLoop state p rest

/-- `create_ace_from_mutable_str`: the fields parsed, then the flags, the access types and the
permissions of each access type set in the ACE the identity made. -/
def createAceFromMutableStr (str : List UInt8) : Except ℤ DaosAce :=
  match aceStrLoop .aceAccessTypes ⟨0, 0, 0, none⟩ (str.splitOn aceFieldDelim) with
  | .error rc => .error rc
  | .ok (state, p) =>
    if state ≠ .aceDone then .error (-derInval)
    else
      -- `D_ASSERT(new_ace != NULL)`: the identity field made it
      match p.newAce with
      | none => .error (-derInval)
      | some newAce =>
        let newAce := { newAce with daeAccessFlags := p.flags, daeAccessTypes := p.accessTypes }
        let newAce :=
          if p.accessTypes &&& daosAclAccessAllow ≠ 0 then { newAce with daeAllowPerms := p.perms }
          else newAce
        let newAce :=
          if p.accessTypes &&& daosAclAccessAudit ≠ 0 then { newAce with daeAuditPerms := p.perms }
          else newAce
        let newAce :=
          if p.accessTypes &&& daosAclAccessAlarm ≠ 0 then { newAce with daeAlarmPerms := p.perms }
          else newAce
        .ok newAce

/-- `daos_ace_from_str`: a string of at most `DAOS_ACL_MAX_ACE_STR_LEN` characters, parsed, and
the ACE it gives if it is valid. -/
def daosAceFromStr (str : List UInt8) : Except ℤ DaosAce :=
  let len := strnlen str (daosAclMaxAceStrLen + 1)
  if len > daosAclMaxAceStrLen then .error (-derInval)
  else
    match createAceFromMutableStr ((cStr str).take len) with
    | .error rc => .error rc
    | .ok newAce => if !daosAceIsValid newAce then .error (-derInval) else .ok newAce

/-! ## The printer -/

/-- The pen of `daos_ace_to_str`: what the writes left in the buffer, from its start, and the
room left. -/
structure Pen where
  buf : List UInt8
  remainingLen : ℕ

/-- `write_char`, keeping one byte for the terminator. -/
def writeChar (ch : UInt8) (pen : Pen) : ℤ × Pen :=
  if pen.remainingLen ≤ 1 then (-derTrunc, pen)
  else (0, ⟨pen.buf ++ [ch], pen.remainingLen - 1⟩)

/-- `write_str`: the `snprintf` of the string; when it does not fit, what `snprintf` wrote and
no room left. -/
def writeStr (str : List UInt8) (pen : Pen) : ℤ × Pen :=
  let written := strlen str
  if written ≥ pen.remainingLen then
    (-derTrunc, ⟨pen.buf ++ (cStr str).take (pen.remainingLen - 1), 0⟩)
  else (0, ⟨pen.buf ++ cStr str, pen.remainingLen - written⟩)

/-- `WRITE_BIT`: the character of a bit the field has, its status overwriting `rc`. -/
def writeBit {β : Type} [AndOp β] [OfNat β 0] [DecidableEq β] (bits bit : β) (ch : UInt8)
    (s : ℤ × Pen) : ℤ × Pen :=
  if bits &&& bit ≠ 0 then writeChar ch s.2 else s

/-- The `WRITE_BIT`s of a field, in the order of its table. -/
def writeBits {β : Type} [AndOp β] [OfNat β 0] [DecidableEq β] (tbl : List (UInt8 × β))
    (bits : β) (s : ℤ × Pen) : ℤ × Pen :=
  tbl.foldl (fun s e => writeBit bits e.2 e.1 s) s

/-- `daos_ace_get_principal_str`: the special principals by type, else the stored name. -/
def daosAceGetPrincipalStr (ace : DaosAce) : List UInt8 :=
  if ace.daePrincipalType = daosAclOwner then daosAclPrincipalOwner
  else if ace.daePrincipalType = daosAclOwnerGroup then daosAclPrincipalOwnerGrp
  else if ace.daePrincipalType = daosAclEveryone then daosAclPrincipalEveryone
  else ace.daePrincipal

/-- `get_perms`: the permissions of the first access type the ACE has. -/
def getPerms (ace : DaosAce) : UInt64 :=
  if ace.daeAccessTypes &&& daosAclAccessAllow ≠ 0 then ace.daeAllowPerms
  else if ace.daeAccessTypes &&& daosAclAccessAudit ≠ 0 then ace.daeAuditPerms
  else if ace.daeAccessTypes &&& daosAclAccessAlarm ≠ 0 then ace.daeAlarmPerms
  else 0

/-- `perms_unified`: every access type the ACE has carries the union of its permissions. -/
def permsUnified (ace : DaosAce) : Bool :=
  let permsUnion := ace.daeAllowPerms ||| ace.daeAuditPerms ||| ace.daeAlarmPerms
  if ace.daeAccessTypes &&& daosAclAccessAllow ≠ 0 && ace.daeAllowPerms ≠ permsUnion then false
  else if ace.daeAccessTypes &&& daosAclAccessAudit ≠ 0 && ace.daeAuditPerms ≠ permsUnion then
    false
  else if ace.daeAccessTypes &&& daosAclAccessAlarm ≠ 0 && ace.daeAlarmPerms ≠ permsUnion then
    false
  else true

/-- `daos_ace_to_str` into a buffer of `bufLen` bytes: the status and what the writes left in
the buffer, which is zero after it. -/
def daosAceToStr (ace : DaosAce) (bufLen : ℕ) : ℤ × List UInt8 :=
  if bufLen = 0 then (-derInval, [])
  else if !daosAceIsValid ace then (-derInval, [])
  else if !permsUnified ace then (-derInval, [])
  else
    let s : ℤ × Pen := (0, ⟨[], bufLen⟩)
    let s := writeBits aceAccessTypeChars ace.daeAccessTypes s
    let s := writeChar aceFieldDelim s.2
    let s := writeBits aceFlagChars ace.daeAccessFlags s
    let s := writeChar aceFieldDelim s.2
    let s := writeStr (daosAceGetPrincipalStr ace) s.2
    let s := writeChar aceFieldDelim s.2
    let s := writeBits acePermChars (getPerms ace) s
    (s.1, s.2.buf)

/-! ## What the printer writes -/

/-- The string `daos_ace_to_str` writes: the access types, the flags, the principal and the
permissions, each bit field as the characters of its table. -/
def aceStrOf (ace : DaosAce) : List UInt8 :=
  [aceFieldDelim].intercalate
    [charsOfBits aceAccessTypeChars ace.daeAccessTypes, charsOfBits aceFlagChars ace.daeAccessFlags,
      cStr (daosAceGetPrincipalStr ace), charsOfBits acePermChars (getPerms ace)]

/-- A user named `OWNER@`: a valid ACE whose permissions are unified prints as `A::OWNER@:r`,
and that string parses as an ACE for the owner. -/
theorem daosAceFromStr_owner_named_user :
    let ace : DaosAce :=
      ⟨daosAclAccessAllow, daosAclUser, 8, 0, 0, daosAclPermRead, 0, 0,
        daosAclPrincipalOwner ++ [0, 0], rfl⟩
    daosAceIsValid ace = true ∧ permsUnified ace = true ∧
      daosAceToStr ace 64 = (0, aceStrOf ace) ∧
      (daosAceFromStr (aceStrOf ace)).map DaosAce.daePrincipalType = .ok daosAclOwner := by
  decide

end Daos.Acl

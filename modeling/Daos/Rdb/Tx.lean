import Daos.Rdb.Path

/-!
# Transaction entries of the replicated log (`rdb/rdb_tx.c`)

A TX's updates travel as one raft entry. `rdb_tx_append` grows the entry one op at a time. It
writes a four-byte header first, whose `critical` flag it rewrites in place as ops arrive. Each
op follows as its opcode byte, the KVS path and the key as iovs, and then the value of an update
or the attributes of a create. `rdb_tx_apply` reads the header, then decodes and applies the ops
one after another until the entry is used up.

**The entry.** Every TX that a run of accepted appends reaches holds the header and the ops'
encodings (`RdbTx.Holds`, kept by each append: `RdbTx.Holds.append`). Its length never exceeds
the buffer's capacity, which is what the assertion at the top of `rdb_tx_append` checks. The
header's flag is set exactly when there are at most `RDB_TX_CRITICAL_OPS_LIMIT` ops and one of
them was critical (`rdbTxCriticalOf`).

**The round trip** (`rdbTxApply_rdbTxAppendAll`). Appending any non-empty list of ops that
`rdb_tx_append` takes to a new TX succeeds. Applying the entry then applies exactly those ops,
as their encoding carries them (`RdbTxOp.wire`), in order, with the header's flag. Together with
the iov codec of `Daos.Rdb.Path`, this is what a replica replaying the log relies on.

The leader check is an argument of `rdb_tx_append`, and the allocation is taken to succeed. The
store that `rdb_tx_apply_op` updates is a type parameter, and so is the clean-up `rdb_tx_apply`
does after an error. Local TXs, which never append, are not modelled.
-/

namespace Daos.Rdb

open Daos.Bytes

/-- `DER_INVAL`. -/
def derInval : ℤ := 1003

/-! ## Ops -/

/-- `RDB_TX_CREATE_ROOT`. -/
def rdbTxCreateRoot : UInt8 := 1

/-- `RDB_TX_DESTROY_ROOT`. -/
def rdbTxDestroyRoot : UInt8 := 2

/-- `RDB_TX_CREATE`. -/
def rdbTxCreate : UInt8 := 3

/-- `RDB_TX_DESTROY`. -/
def rdbTxDestroy : UInt8 := 4

/-- `RDB_TX_UPDATE`. -/
def rdbTxUpdate : UInt8 := 5

/-- `RDB_TX_DELETE`. -/
def rdbTxDelete : UInt8 := 6

/-- `struct rdb_kvs_attr`: the KVS class and the (unused) dbtree order. -/
structure RdbKvsAttr where
  dsaClass : UInt32
  dsaOrder : UInt32
deriving DecidableEq, Repr

/-- The bytes of an `rdb_kvs_attr`, as a struct copy writes them. -/
def RdbKvsAttr.toBytes (attr : RdbKvsAttr) : List UInt8 :=
  leBytes 4 attr.dsaClass.toNat ++ leBytes 4 attr.dsaOrder.toNat

/-- The `rdb_kvs_attr` that a pointer to these bytes reads. -/
def rdbKvsAttrAt (buf : List UInt8) : RdbKvsAttr :=
  ⟨UInt32.ofNat (leValue (buf.take 4)), UInt32.ofNat (leValue ((buf.drop 4).take 4))⟩

/-- `struct rdb_tx_op`; the attributes are `NULL` or the record the pointer points to. -/
structure RdbTxOp where
  dtoOpc : UInt8
  dtoKvs : List UInt8
  dtoKey : List UInt8
  dtoValue : List UInt8
  dtoAttr : Option RdbKvsAttr
deriving DecidableEq, Repr

/-- Whether `rdb_tx_op_encode` writes a value after the key. -/
def rdbTxHasValue (opc : UInt8) : Prop := opc = rdbTxUpdate

/-- Whether `rdb_tx_op_encode` writes attributes after the key. -/
def rdbTxHasAttr (opc : UInt8) : Prop := opc = rdbTxCreateRoot ∨ opc = rdbTxCreate

instance (opc : UInt8) : Decidable (rdbTxHasValue opc) := inferInstanceAs (Decidable (_ = _))

instance (opc : UInt8) : Decidable (rdbTxHasAttr opc) := inferInstanceAs (Decidable (_ ∨ _))

/-- `rdb_tx_op_encode`: the opcode byte, the path and the key, then the value of an update or
the attributes of a create; `none` where the code asserts or reads through a `NULL` pointer. -/
def rdbTxOpEncode (op : RdbTxOp) : Option (List UInt8) :=
  match rdbEncodeIov op.dtoKvs, rdbEncodeIov op.dtoKey with
  | some kvs, some key =>
    let tail :=
      if rdbTxHasValue op.dtoOpc then rdbEncodeIov op.dtoValue
      else if rdbTxHasAttr op.dtoOpc then op.dtoAttr.map RdbKvsAttr.toBytes
      -- the other ops assert that they carry neither
      else if op.dtoValue = [] ∧ op.dtoAttr = none then some [] else none
    tail.map fun tail => op.dtoOpc :: kvs ++ key ++ tail
  | _, _ => none

/-- `rdb_tx_op_decode`: the op at the head of the `len` bytes `buf` and the number of bytes it
takes, or the error of the part that does not decode. -/
def rdbTxOpDecode (buf : List UInt8) : Except ℤ (RdbTxOp × ℕ) :=
  match buf with
  | [] => .error (-derIo)
  | opc :: rest =>
    match rdbDecodeIov rest with
    | .error rc => .error rc
    | .ok (kvs, n₁) =>
      match rdbDecodeIov (rest.drop n₁) with
      | .error rc => .error rc
      | .ok (key, n₂) =>
        if rdbTxHasValue opc then
          match rdbDecodeIov (rest.drop (n₁ + n₂)) with
          | .error rc => .error rc
          | .ok (value, n₃) => .ok (⟨opc, kvs, key, value, none⟩, 1 + n₁ + n₂ + n₃)
        else if rdbTxHasAttr opc then
          if 1 + n₁ + n₂ + 8 > buf.length then .error (-derIo)
          else .ok (⟨opc, kvs, key, [], some (rdbKvsAttrAt (rest.drop (n₁ + n₂)))⟩, 1 + n₁ + n₂ + 8)
        else .ok (⟨opc, kvs, key, [], none⟩, 1 + n₁ + n₂)

/-- What the op decoder consumes: the opcode and the two iovs at least, and no more than it was
given. -/
theorem rdbTxOpDecode_pos {buf : List UInt8} {op : RdbTxOp} {n : ℕ}
    (h : rdbTxOpDecode buf = .ok (op, n)) : 0 < n ∧ n ≤ buf.length := by
  unfold rdbTxOpDecode at h
  split at h
  · cases h
  · rename_i opc rest
    split at h
    · cases h
    · rename_i kvs n₁ h₁
      obtain ⟨post₁, rfl, rfl, -⟩ := rdbDecodeIov_eq_ok.mp h₁
      split at h
      · cases h
      · rename_i key n₂ h₂
        obtain ⟨post₂, hpost₂, rfl, -⟩ := rdbDecodeIov_eq_ok.mp h₂
        rw [List.drop_left' (length_rdbIovBytes kvs)] at hpost₂
        subst hpost₂
        simp only [List.length_cons, List.length_append, length_rdbIovBytes]
        split_ifs at h with hv ha hlen
        · split at h
          · cases h
          · rename_i value n₃ h₃
            simp only [Except.ok.injEq, Prod.mk.injEq] at h
            obtain ⟨-, rfl⟩ := h
            obtain ⟨post₃, hpost₃, rfl, -⟩ := rdbDecodeIov_eq_ok.mp h₃
            rw [← List.drop_drop, List.drop_left' (length_rdbIovBytes kvs),
              List.drop_left' (length_rdbIovBytes key)] at hpost₃
            subst hpost₃
            simp only [List.length_append, length_rdbIovBytes]
            omega
        · simp only [Except.ok.injEq, Prod.mk.injEq] at h
          obtain ⟨-, rfl⟩ := h
          simp only [List.length_cons, List.length_append, length_rdbIovBytes] at hlen
          omega
        · simp only [Except.ok.injEq, Prod.mk.injEq] at h
          obtain ⟨-, rfl⟩ := h
          omega

/-! ## The header -/

/-- `struct rdb_tx_hdr`. -/
structure RdbTxHdr where
  critical : UInt32
deriving DecidableEq, Repr

/-- `rdb_tx_hdr_encode`. -/
def rdbTxHdrEncode (hdr : RdbTxHdr) : List UInt8 := leBytes 4 hdr.critical.toNat

/-- `rdb_tx_hdr_decode` on the `len` bytes `buf`. -/
def rdbTxHdrDecode (buf : List UInt8) : Except ℤ (RdbTxHdr × ℕ) :=
  if buf.length < 4 then .error (-derIo) else .ok (⟨UInt32.ofNat (leValue (buf.take 4))⟩, 4)

/-- The first `dt_entry_len` bytes of the entry after `rdb_tx_hdr_encode` writes the header over
its start. -/
def rdbTxSetHdr (hdr : RdbTxHdr) (entry : List UInt8) : List UInt8 :=
  (rdbTxHdrEncode hdr ++ entry.drop 4).take entry.length

/-! ## Appending -/

/-- The part of `struct rdb_tx` that `rdb_tx_append` writes: the entry's `dt_entry_len` bytes,
the capacity `dt_entry_cap` of its buffer (zero while `dt_entry` is `NULL`), and `dt_num_ops`. -/
structure RdbTx where
  dtEntry : List UInt8
  dtEntryCap : ℕ
  dtNumOps : ℕ
deriving DecidableEq, Repr

/-- A TX as `rdb_tx_begin` makes it. -/
def rdbTxBegin : RdbTx := ⟨[], 0, 0⟩

/-- The assertion at the top of `rdb_tx_append`: no buffer and no entry, or a buffer that holds
the entry. -/
def RdbTx.Asserted (tx : RdbTx) : Prop := tx.dtEntry.length ≤ tx.dtEntryCap

instance (tx : RdbTx) : Decidable tx.Asserted := inferInstanceAs (Decidable (_ ≤ _))

/-- `RDB_TX_CRITICAL_OPS_LIMIT`. -/
def rdbTxCriticalOpsLimit : ℕ := 8

/-- The ops whose key `rdb_tx_append` requires to be non-empty. -/
def rdbTxNeedsKey (opc : UInt8) : Prop :=
  opc = rdbTxCreate ∨ opc = rdbTxDestroy ∨ opc = rdbTxUpdate ∨ opc = rdbTxDelete

instance (opc : UInt8) : Decidable (rdbTxNeedsKey opc) :=
  inferInstanceAs (Decidable (_ ∨ _ ∨ _ ∨ _))

/-- The next size the loop of `rdb_tx_append` tries: 4096 for no buffer, else twice the size. -/
def rdbTxNextSize (size : ℕ) : ℕ := if size = 0 then 4096 else size * 2

theorem lt_rdbTxNextSize (size : ℕ) : size < rdbTxNextSize size := by
  unfold rdbTxNextSize
  split_ifs <;> omega

/-- The loop of `rdb_tx_append` that sizes a new buffer, until `len` more bytes fit after the
`used` ones. -/
def rdbTxGrow (len used newSize : ℕ) : ℕ :=
  if len > rdbTxNextSize newSize - used then rdbTxGrow len used (rdbTxNextSize newSize)
  else rdbTxNextSize newSize
termination_by len + used - newSize
decreasing_by
  have := lt_rdbTxNextSize newSize
  omega

/-- `rdb_tx_append` with the leader check returning `leaderRc`: the return code and the TX
after it; `none` where the code asserts. -/
def rdbTxAppend (leaderRc : ℤ) (tx : RdbTx) (op : RdbTxOp) (isCritical : Bool) :
    Option (ℤ × RdbTx) :=
  if ¬ tx.Asserted then none
  else if rdbTxNeedsKey op.dtoOpc ∧ op.dtoKey = [] then some (-derInval, tx)
  else if leaderRc ≠ 0 then some (leaderRc, tx)
  else
    (rdbTxOpEncode op).map fun opBytes =>
      -- the bytes needed: the op's, and the header's before the first op
      let len := opBytes.length + if tx.dtEntry.length = 0 then 4 else 0
      let cap :=
        if len > tx.dtEntryCap - tx.dtEntry.length then
          rdbTxGrow len tx.dtEntry.length tx.dtEntryCap
        else tx.dtEntryCap
      let numOps := tx.dtNumOps + 1
      -- the TX is critical if it is reasonably sized and any op is critical
      let entry :=
        if tx.dtEntry.length = 0 then rdbTxHdrEncode ⟨if isCritical then 1 else 0⟩
        else if numOps > rdbTxCriticalOpsLimit then rdbTxSetHdr ⟨0⟩ tx.dtEntry
        else if isCritical then rdbTxSetHdr ⟨1⟩ tx.dtEntry
        else tx.dtEntry
      (0, ⟨entry ++ opBytes, cap, numOps⟩)

/-- A run of `rdb_tx_append` calls on one TX, by a leader, each returning `0`. -/
def rdbTxAppendAll (tx : RdbTx) : List (RdbTxOp × Bool) → Option RdbTx
  | [] => some tx
  | (op, isCritical) :: calls =>
    match rdbTxAppend 0 tx op isCritical with
    | some (0, tx') => rdbTxAppendAll tx' calls
    | _ => none

/-! ## What a run of appends leaves -/

/-- What an op's encoding carries: the value of an update only, the attributes of a create
only. -/
def RdbTxOp.wire (op : RdbTxOp) : RdbTxOp where
  dtoOpc := op.dtoOpc
  dtoKvs := op.dtoKvs
  dtoKey := op.dtoKey
  dtoValue := if rdbTxHasValue op.dtoOpc then op.dtoValue else []
  dtoAttr := if rdbTxHasAttr op.dtoOpc then op.dtoAttr else none

/-- An op that `rdb_tx_append` takes: a key where the opcode needs one, every iov it writes
within `rdb_iov_max`, the attributes of a create, and, as the `rdb_tx_*` calls build them and the
encoder asserts, neither a value nor attributes where the opcode carries none. -/
structure RdbTxOp.Appendable (op : RdbTxOp) : Prop where
  key : rdbTxNeedsKey op.dtoOpc → op.dtoKey ≠ []
  kvs_le : op.dtoKvs.length ≤ rdbIovMax
  key_le : op.dtoKey.length ≤ rdbIovMax
  value_le : rdbTxHasValue op.dtoOpc → op.dtoValue.length ≤ rdbIovMax
  attr : rdbTxHasAttr op.dtoOpc → op.dtoAttr.isSome
  unused : ¬ rdbTxHasValue op.dtoOpc → ¬ rdbTxHasAttr op.dtoOpc →
    op.dtoValue = [] ∧ op.dtoAttr = none

/-- The bytes `rdb_tx_op_encode` writes for an op it takes. -/
def rdbTxOpBytes (op : RdbTxOp) : List UInt8 :=
  op.dtoOpc :: rdbIovBytes op.dtoKvs ++ rdbIovBytes op.dtoKey ++
    if rdbTxHasValue op.dtoOpc then rdbIovBytes op.dtoValue
    else if rdbTxHasAttr op.dtoOpc then (op.dtoAttr.map RdbKvsAttr.toBytes).getD []
    else []

theorem rdbTxOpEncode_of_appendable {op : RdbTxOp} (h : op.Appendable) :
    rdbTxOpEncode op = some (rdbTxOpBytes op) := by
  unfold rdbTxOpEncode rdbTxOpBytes
  rw [rdbEncodeIov_of_le h.kvs_le, rdbEncodeIov_of_le h.key_le]
  dsimp only
  by_cases hv : rdbTxHasValue op.dtoOpc
  · rw [if_pos hv, if_pos hv, rdbEncodeIov_of_le (h.value_le hv)]
    rfl
  by_cases ha : rdbTxHasAttr op.dtoOpc
  · obtain ⟨a, ha'⟩ := Option.isSome_iff_exists.mp (h.attr ha)
    rw [if_neg hv, if_neg hv, if_pos ha, if_pos ha, ha']
    rfl
  · rw [if_neg hv, if_neg hv, if_neg ha, if_neg ha, if_pos (h.unused hv ha)]
    rfl

theorem length_rdbTxOpBytes_pos (op : RdbTxOp) : 0 < (rdbTxOpBytes op).length := by
  simp [rdbTxOpBytes]

@[simp] theorem length_toBytes (attr : RdbKvsAttr) : attr.toBytes.length = 8 := by
  simp [RdbKvsAttr.toBytes]

/-- A 32-bit field reads back from its four bytes. -/
theorem leValue_leBytes_uint32 (x : UInt32) : leValue (leBytes 4 x.toNat) = x.toNat := by
  have := x.toNat_lt
  rw [leValue_leBytes, Nat.mod_eq_of_lt (by omega)]

theorem rdbKvsAttrAt_toBytes (attr : RdbKvsAttr) (rest : List UInt8) :
    rdbKvsAttrAt (attr.toBytes ++ rest) = attr := by
  simp only [rdbKvsAttrAt, RdbKvsAttr.toBytes, List.append_assoc,
    List.take_left' (length_leBytes 4 _), List.drop_left' (length_leBytes 4 _),
    leValue_leBytes_uint32, UInt32.ofNat_toNat]

/-- The op decoder reads an op back from its encoding, whatever follows it: the op as its
encoding carries it, and the encoding's length. -/
theorem rdbTxOpDecode_bytes {op : RdbTxOp} (h : op.Appendable) (rest : List UInt8) :
    rdbTxOpDecode (rdbTxOpBytes op ++ rest) = .ok (op.wire, (rdbTxOpBytes op).length) := by
  have hkvs := rdbDecodeIov_bytes h.kvs_le
  have hkey := rdbDecodeIov_bytes h.key_le
  simp only [rdbTxOpBytes, List.cons_append, List.append_assoc, rdbTxOpDecode, hkvs,
    List.drop_left' (length_rdbIovBytes op.dtoKvs), hkey]
  rw [← List.drop_drop, List.drop_left' (length_rdbIovBytes op.dtoKvs),
    List.drop_left' (length_rdbIovBytes op.dtoKey)]
  by_cases hv : rdbTxHasValue op.dtoOpc
  · -- an update: its value follows the key
    have hna : ¬ rdbTxHasAttr op.dtoOpc := by
      unfold rdbTxHasValue at hv
      simp only [rdbTxHasAttr, hv]
      decide
    simp only [if_pos hv, if_neg hna, rdbDecodeIov_bytes (h.value_le hv), RdbTxOp.wire,
      List.length_cons, List.length_append, length_rdbIovBytes, Except.ok.injEq, Prod.mk.injEq,
      true_and]
    omega
  by_cases ha : rdbTxHasAttr op.dtoOpc
  · -- a create: its attributes follow the key
    obtain ⟨a, ha'⟩ := Option.isSome_iff_exists.mp (h.attr ha)
    simp only [if_neg hv, if_pos ha, ha', Option.map_some, Option.getD_some, rdbKvsAttrAt_toBytes,
      RdbTxOp.wire, List.length_cons, List.length_append, length_rdbIovBytes, length_toBytes]
    rw [if_neg (by omega)]
    simp only [Except.ok.injEq, Prod.mk.injEq, true_and]
    omega
  · obtain ⟨hv', ha'⟩ := h.unused hv ha
    simp only [if_neg hv, if_neg ha, RdbTxOp.wire, hv', ha', List.length_cons,
      List.length_append, length_rdbIovBytes, List.length_nil, Except.ok.injEq, Prod.mk.injEq,
      true_and]
    omega

@[simp] theorem length_rdbTxHdrEncode (hdr : RdbTxHdr) : (rdbTxHdrEncode hdr).length = 4 :=
  length_leBytes 4 _

theorem rdbTxHdrDecode_encode (hdr : RdbTxHdr) (rest : List UInt8) :
    rdbTxHdrDecode (rdbTxHdrEncode hdr ++ rest) = .ok (hdr, 4) := by
  rw [rdbTxHdrDecode, if_neg (by simp), List.take_left' (length_rdbTxHdrEncode hdr),
    rdbTxHdrEncode, leValue_leBytes_uint32, UInt32.ofNat_toNat]

theorem rdbTxSetHdr_encode (hdr hdr' : RdbTxHdr) (rest : List UInt8) :
    rdbTxSetHdr hdr (rdbTxHdrEncode hdr' ++ rest) = rdbTxHdrEncode hdr ++ rest := by
  rw [rdbTxSetHdr, List.drop_left' (length_rdbTxHdrEncode hdr'),
    List.take_of_length_le (by simp)]

theorem length_rdbTxSetHdr (hdr : RdbTxHdr) (entry : List UInt8) :
    (rdbTxSetHdr hdr entry).length = entry.length := by
  simp only [rdbTxSetHdr, List.length_take, List.length_append, length_rdbTxHdrEncode,
    List.length_drop]
  omega

/-- The header flag of a TX whose ops have these criticalities: set when there are at most
`RDB_TX_CRITICAL_OPS_LIMIT` ops and one of them is critical. -/
def rdbTxCriticalOf (crits : List Bool) : UInt32 :=
  if crits.length ≤ rdbTxCriticalOpsLimit ∧ true ∈ crits then 1 else 0

theorem rdbTxCriticalOf_singleton (c : Bool) : rdbTxCriticalOf [c] = if c then 1 else 0 := by
  cases c <;> decide

/-- How one more op changes the flag: cleared past the limit, set by a critical op, and kept
otherwise. -/
theorem rdbTxCriticalOf_append (crits : List Bool) (c : Bool) :
    rdbTxCriticalOf (crits ++ [c]) =
      if crits.length + 1 > rdbTxCriticalOpsLimit then 0
      else if c then 1 else rdbTxCriticalOf crits := by
  unfold rdbTxCriticalOf
  simp only [List.length_append, List.length_singleton, List.mem_append, List.mem_singleton]
  by_cases hl : crits.length + 1 > rdbTxCriticalOpsLimit
  · rw [if_pos hl, if_neg (by omega)]
  · rw [if_neg hl]
    cases c
    · simp only [Bool.true_eq_false, Bool.false_eq_true, or_false, reduceIte]
      by_cases hm : true ∈ crits
      · rw [if_pos ⟨by omega, hm⟩, if_pos ⟨by omega, hm⟩]
      · rw [if_neg (fun h => hm h.2), if_neg (fun h => hm h.2)]
    · simp only [or_true, and_true, if_true, if_pos (show crits.length + 1 ≤ rdbTxCriticalOpsLimit by omega)]

/-- A TX whose entry holds the ops of `calls`, each with its criticality: nothing before the
first op, then the header with their flag and their encodings, in a buffer that holds them. -/
structure RdbTx.Holds (tx : RdbTx) (calls : List (RdbTxOp × Bool)) : Prop where
  asserted : tx.Asserted
  numOps : tx.dtNumOps = calls.length
  appendable : ∀ c ∈ calls, c.1.Appendable
  entry : tx.dtEntry = if calls = [] then [] else
    rdbTxHdrEncode ⟨rdbTxCriticalOf (calls.map Prod.snd)⟩ ++
      (calls.map fun c => rdbTxOpBytes c.1).flatten

theorem rdbTxBegin_holds : rdbTxBegin.Holds [] where
  asserted := Nat.le_refl 0
  numOps := rfl
  appendable := by simp
  entry := rfl

/-- The size the loop finds leaves room for what it was looking for. -/
theorem rdbTxGrow_fits (len used newSize : ℕ) : len ≤ rdbTxGrow len used newSize - used := by
  induction newSize using rdbTxGrow.induct len used with
  | case1 newSize h ih =>
    rw [rdbTxGrow, if_pos h]
    exact ih
  | case2 newSize h =>
    rw [rdbTxGrow, if_neg h]
    omega

/-- The capacity after an append holds what was there and what it adds. -/
theorem le_rdbTxAppend_cap (len used cap : ℕ) (hlen : 0 < len) :
    used + len ≤ if len > cap - used then rdbTxGrow len used cap else cap := by
  split_ifs with h
  · have := rdbTxGrow_fits len used cap
    omega
  · omega

/-- One append to a TX holding some ops: accepted, and the entry holds one op more, with the
flag the header must now have. -/
theorem RdbTx.Holds.append {tx : RdbTx} {calls : List (RdbTxOp × Bool)} {op : RdbTxOp}
    (h : tx.Holds calls) (hop : op.Appendable) (isCritical : Bool) :
    ∃ tx', rdbTxAppend 0 tx op isCritical = some (0, tx') ∧
      tx'.Holds (calls ++ [(op, isCritical)]) := by
  obtain ⟨hasrt, hnum, happ, hentry⟩ := h
  have hkey : ¬ (rdbTxNeedsKey op.dtoOpc ∧ op.dtoKey = []) := fun ⟨hn, hk⟩ => hop.key hn hk
  have hpos := length_rdbTxOpBytes_pos op
  have happ' : ∀ c ∈ calls ++ [(op, isCritical)], c.1.Appendable := by
    intro c hc
    rcases List.mem_append.mp hc with hc | hc
    · exact happ c hc
    · rw [List.mem_singleton.mp hc]
      exact hop
  simp only [rdbTxAppend, if_neg (not_not.mpr hasrt), if_neg hkey, ne_eq, not_true_eq_false,
    if_false, rdbTxOpEncode_of_appendable hop, Option.map_some, Option.some.injEq, Prod.mk.injEq,
    true_and, exists_eq_left']
  by_cases hnil : calls = []
  · -- the first op: the header goes first, with the op's own criticality
    subst hnil
    rw [if_pos rfl] at hentry
    simp only [hentry, List.length_nil, if_true, Nat.sub_zero]
    refine ⟨?_, ?_, happ', ?_⟩
    · simp only [RdbTx.Asserted, List.length_append, length_rdbTxHdrEncode]
      have := le_rdbTxAppend_cap ((rdbTxOpBytes op).length + 4) 0 tx.dtEntryCap (by omega)
      simp only [Nat.sub_zero] at this
      omega
    · simp only [hnum, List.length_nil, List.nil_append, List.length_singleton]
    · simp only [List.nil_append, List.map_cons, List.map_nil, rdbTxCriticalOf_singleton,
        List.flatten_cons, List.flatten_nil, List.append_nil, reduceCtorEq, if_false]
  · -- a later op: the header is rewritten in place as the flag changes
    rw [if_neg hnil] at hentry
    have hlen : tx.dtEntry.length ≠ 0 := by
      rw [hentry, List.length_append, length_rdbTxHdrEncode]
      omega
    refine ⟨?_, ?_, happ', ?_⟩
    · simp only [RdbTx.Asserted, if_neg hlen, Nat.add_zero, List.length_append]
      have := le_rdbTxAppend_cap (rdbTxOpBytes op).length tx.dtEntry.length tx.dtEntryCap hpos
      split_ifs at this ⊢ <;> (try simp only [length_rdbTxSetHdr]) <;> omega
    · simp only [hnum, List.length_append, List.length_singleton]
    · simp only [if_neg hlen, List.append_eq_nil_iff, reduceCtorEq, and_false, if_false,
        List.map_append, List.map_cons, List.map_nil, List.flatten_append, List.flatten_cons,
        List.flatten_nil, List.append_nil, rdbTxCriticalOf_append, List.length_map, hnum]
      rw [hentry, ← List.append_assoc]
      split_ifs
      · rw [rdbTxSetHdr_encode]
      · rw [rdbTxSetHdr_encode]
      · rfl

/-- A run of appends of ops that `rdb_tx_append` takes, from a TX holding some ops: every
call is accepted, and the TX ends holding them all. -/
theorem RdbTx.Holds.appendAll {tx : RdbTx} {pre calls : List (RdbTxOp × Bool)}
    (h : tx.Holds pre) (hv : ∀ c ∈ calls, c.1.Appendable) :
    ∃ tx', rdbTxAppendAll tx calls = some tx' ∧ tx'.Holds (pre ++ calls) := by
  -- induction on the calls, one step lemma each
  induction calls generalizing tx pre with
  | nil => exact ⟨tx, rfl, by rw [List.append_nil]; exact h⟩
  | cons c calls ih =>
    obtain ⟨op, isCritical⟩ := c
    obtain ⟨tx₁, h₁, hold₁⟩ := h.append (hv (op, isCritical) (by simp)) isCritical
    obtain ⟨tx', h', hold'⟩ := ih hold₁ fun c hc => hv c (by simp [hc])
    refine ⟨tx', ?_, by rw [List.append_cons]; exact hold'⟩
    simp only [rdbTxAppendAll, h₁]
    exact h'

-- the match hypothesis `hd` serves the termination proof only
set_option linter.unusedVariables false in
/-- `rdb_tx_apply`'s loop over the entry from `p` on: it decodes an op and applies it with the
TX's criticality, and goes on while bytes remain. A decode error or a failed op stops it with its
code. `applyOp` is `rdb_tx_apply_op` on a store `σ`. -/
def rdbTxApplyFrom {σ : Type} (applyOp : σ → RdbTxOp → Bool → ℤ × σ) (crit : Bool) (s : σ)
    (rest : List UInt8) : ℤ × σ :=
  if rest = [] then (0, s)
  else
    match hd : rdbTxOpDecode rest with
    | .error rc => (rc, s)
    | .ok (op, n) =>
      let r := applyOp s op crit
      if r.1 ≠ 0 then r else rdbTxApplyFrom applyOp crit r.2 (rest.drop n)
termination_by rest.length
decreasing_by
  have := rdbTxOpDecode_pos hd
  simp only [List.length_drop]
  omega

/-- `rdb_tx_apply` up to its clean-up after an error: the TX's criticality, the code of the
loop, and the store after it. An entry too short for its header is read past its end, which the
model does not follow. -/
def rdbTxApply {σ : Type} (applyOp : σ → RdbTxOp → Bool → ℤ × σ) (s : σ) :
    Option (List UInt8) → Option (Bool × ℤ × σ)
  | none => some (true, 0, s)
  | some buf =>
    -- the header is read as `sizeof(struct rdb_tx_hdr)` bytes, whatever the entry's length
    if buf.length < 4 then none
    else
      match rdbTxHdrDecode (buf.take 4) with
      | .error rc => some (true, rc, s)
      | .ok (hdr, n) => some (hdr.critical != 0, rdbTxApplyFrom applyOp (hdr.critical != 0) s (buf.drop n))

/-! ## Replaying the entry -/

/-- Applying ops in order until one fails: what replaying a TX is for. -/
def applyInOrder {σ : Type} (applyOp : σ → RdbTxOp → Bool → ℤ × σ) (crit : Bool) :
    σ → List RdbTxOp → ℤ × σ
  | s, [] => (0, s)
  | s, op :: ops =>
    let r := applyOp s op crit
    if r.1 ≠ 0 then r else applyInOrder applyOp crit r.2 ops

/-- The loop of `rdb_tx_apply` over the encodings of some ops applies the ops, as their
encodings carry them, in order. -/
theorem rdbTxApplyFrom_flatten {σ : Type} (applyOp : σ → RdbTxOp → Bool → ℤ × σ) (crit : Bool)
    (s : σ) {ops : List RdbTxOp} (hv : ∀ op ∈ ops, op.Appendable) :
    rdbTxApplyFrom applyOp crit s (ops.map rdbTxOpBytes).flatten =
      applyInOrder applyOp crit s (ops.map RdbTxOp.wire) := by
  -- induction on the ops, one decode each
  induction ops generalizing s with
  | nil =>
    rw [rdbTxApplyFrom, if_pos (by simp)]
    rfl
  | cons op ops ih =>
    have hdec := rdbTxOpDecode_bytes (hv op (by simp)) (ops.map rdbTxOpBytes).flatten
    have hne : rdbTxOpBytes op ++ (ops.map rdbTxOpBytes).flatten ≠ [] := by
      simp [rdbTxOpBytes]
    rw [List.map_cons, List.flatten_cons, rdbTxApplyFrom, if_neg hne]
    split
    · rename_i rc hd
      rw [hdec] at hd
      cases hd
    · rename_i op' n hd
      rw [hdec, Except.ok.injEq, Prod.mk.injEq] at hd
      obtain ⟨rfl, rfl⟩ := hd
      simp only [List.map_cons, applyInOrder]
      -- the op fails and stops the replay, or the replay goes on after its bytes
      split_ifs
      · rfl
      · rw [List.drop_left' rfl]
        exact ih _ fun o ho => hv o (by simp [ho])

/-- `rdb_tx_apply` on the entry of a TX holding some ops: the header's flag, and the ops
applied in order with it. -/
theorem RdbTx.Holds.apply {σ : Type} {tx : RdbTx} {calls : List (RdbTxOp × Bool)}
    (h : tx.Holds calls) (hne : calls ≠ []) (applyOp : σ → RdbTxOp → Bool → ℤ × σ) (s : σ) :
    rdbTxApply applyOp s (some tx.dtEntry) =
      some (rdbTxCriticalOf (calls.map Prod.snd) != 0,
        applyInOrder applyOp (rdbTxCriticalOf (calls.map Prod.snd) != 0) s
          (calls.map (·.1.wire))) := by
  have hentry := h.entry
  rw [if_neg hne] at hentry
  have hlen : ¬ tx.dtEntry.length < 4 := by
    rw [hentry, List.length_append, length_rdbTxHdrEncode]
    omega
  have htake : tx.dtEntry.take 4 = rdbTxHdrEncode ⟨rdbTxCriticalOf (calls.map Prod.snd)⟩ ++ [] := by
    rw [hentry, List.take_left' (length_rdbTxHdrEncode _), List.append_nil]
  have hops : (calls.map fun c => rdbTxOpBytes c.1) = (calls.map Prod.fst).map rdbTxOpBytes := by
    rw [List.map_map]
    rfl
  have happ : ∀ op ∈ calls.map Prod.fst, op.Appendable := by
    intro op hop
    obtain ⟨c, hc, rfl⟩ := List.mem_map.mp hop
    exact h.appendable c hc
  simp only [rdbTxApply, if_neg hlen, htake, rdbTxHdrDecode_encode, Option.some.injEq,
    Prod.mk.injEq, true_and]
  rw [hentry, List.drop_left' (length_rdbTxHdrEncode _), hops, rdbTxApplyFrom_flatten _ _ _ happ,
    List.map_map]
  rfl

theorem rdbTxCriticalOf_eq_one_iff (crits : List Bool) :
    rdbTxCriticalOf crits = 1 ↔ crits.length ≤ rdbTxCriticalOpsLimit ∧ true ∈ crits := by
  unfold rdbTxCriticalOf
  split_ifs with h
  · exact ⟨fun _ => h, fun _ => rfl⟩
  · exact ⟨fun h0 => absurd h0 (by decide), fun h1 => absurd h1 h⟩

theorem rdbTxCriticalOf_zero_or_one (crits : List Bool) :
    rdbTxCriticalOf crits = 0 ∨ rdbTxCriticalOf crits = 1 := by
  unfold rdbTxCriticalOf
  split_ifs
  · exact .inr rfl
  · exact .inl rfl

/-- The log entry of a TX round-trips. Appending a non-empty list of ops that `rdb_tx_append`
takes to a new TX succeeds, and leaves the header followed by the ops' encodings. The header
decodes to a flag that is `1` exactly when there are at most `RDB_TX_CRITICAL_OPS_LIMIT` ops and
one is critical, and `0` otherwise. Each op decodes back as its encoding carries it, consuming
exactly its encoding, so `rdb_tx_apply` applies exactly the ops, in order, with the flag. Each
iov decoder reads back an encoding at any boundary of a stream, and on any bytes either fails
with `-DER_IO` or consumes no more than it was given. -/
theorem rdbTxApply_rdbTxAppendAll :
    (∀ calls : List (RdbTxOp × Bool), calls ≠ [] → (∀ c ∈ calls, c.1.Appendable) →
      ∃ tx hdr, rdbTxAppendAll rdbTxBegin calls = some tx ∧
        tx.dtEntry = rdbTxHdrEncode hdr ++ (calls.map fun c => rdbTxOpBytes c.1).flatten ∧
        rdbTxHdrDecode tx.dtEntry = .ok (hdr, 4) ∧
        (hdr.critical = 1 ↔
          calls.length ≤ rdbTxCriticalOpsLimit ∧ ∃ c ∈ calls, c.2 = true) ∧
        (hdr.critical = 0 ∨ hdr.critical = 1) ∧
        (∀ c ∈ calls, rdbTxOpEncode c.1 = some (rdbTxOpBytes c.1) ∧
          ∀ rest, rdbTxOpDecode (rdbTxOpBytes c.1 ++ rest) =
            .ok (c.1.wire, (rdbTxOpBytes c.1).length)) ∧
        ∀ {σ : Type} (applyOp : σ → RdbTxOp → Bool → ℤ × σ) (s : σ),
          rdbTxApply applyOp s (some tx.dtEntry) =
            some (hdr.critical != 0,
              applyInOrder applyOp (hdr.critical != 0) s (calls.map (·.1.wire)))) ∧
    (∀ pre v post e : List UInt8, rdbEncodeIov v = some e →
      rdbDecodeIov (e ++ post) = .ok (v, e.length) ∧
        rdbDecodeIovBackward (pre ++ e) = .ok (v, e.length)) ∧
    (∀ buf : List UInt8,
      (rdbDecodeIov buf = .error (-derIo) ∨
        ∃ v n, rdbDecodeIov buf = .ok (v, n) ∧ n ≤ buf.length) ∧
      (rdbDecodeIovBackward buf = .error (-derIo) ∨
        ∃ v n, rdbDecodeIovBackward buf = .ok (v, n) ∧ n ≤ buf.length)) := by
  refine ⟨?_, ?_, fun buf => ⟨rdbDecodeIov_result buf, rdbDecodeIovBackward_result buf⟩⟩
  · -- the entry: the run's invariant, then the decoders on it
    intro calls hne hv
    obtain ⟨tx, hrun, hold⟩ := rdbTxBegin_holds.appendAll hv
    rw [List.nil_append] at hold
    have hentry := hold.entry
    rw [if_neg hne] at hentry
    refine ⟨tx, ⟨rdbTxCriticalOf (calls.map Prod.snd)⟩, hrun, hentry, ?_, ?_,
      rdbTxCriticalOf_zero_or_one _, fun c hc => ⟨rdbTxOpEncode_of_appendable (hv c hc),
        rdbTxOpDecode_bytes (hv c hc)⟩, fun applyOp s => hold.apply hne applyOp s⟩
    · rw [hentry, rdbTxHdrDecode_encode]
    · rw [rdbTxCriticalOf_eq_one_iff, List.length_map, List.mem_map]
  · -- an iov: each decoder reads the encoding back
    intro pre v post e he
    unfold rdbEncodeIov at he
    split_ifs at he with hle
    cases he
    rw [length_rdbIovBytes]
    exact ⟨rdbDecodeIov_bytes hle post, rdbDecodeIovBackward_eq_ok.mpr ⟨pre, rfl, rfl, hle⟩⟩

end Daos.Rdb

import Mathlib

/-!
# Transaction IDs of the write-ahead log (`bio/bio_wal.c`)

The log is a ring of `wh_tot_blks` blocks, which `meta_format` sizes from the WAL blob: at
least `WAL_MIN_CAPACITY` bytes, so at least 8191 blocks after the header block. A transaction
ID holds a block offset in its low 32 bits and, above them, a 32-bit sequence number that
`wal_next_id` bumps each time the offset wraps, from `WAL_ID_SEQ_MAX` back to `0`. The super
info keeps the ID and size of the last checkpointed transaction, of the last committed one, and
the next unused ID; the log between the end of the checkpointed transaction and the unused ID is
live. A transaction first reserves its ID (`bio_wal_reserve`), which `reserve_allowed` lets
through only while `WAL_MAX_TRANS_BLKS` blocks are free, then commits (`bio_wal_commit`).

A run is modelled with ghost state the code does not keep: the position of the live
window's start counted in blocks from the first block of the first lap, and the IDs and
sizes of the transactions committed since the checkpoint. An ID is then the ID of a
position (`posId`), and `wal_next_id` advances a position by the transaction's blocks
(`walNextId_posId`).

**What holds** (`walReachable_window`), in every state a run of a format, reserved commits and
checkpoints reaches: the live window stays within the log, and unless the state straddles the
sequence wrap (`walStraddles`), `wal_used_blks` is the sum of the live transactions' blocks and
`wal_id_cmp` orders the live transactions as they were issued.

**What does not**: `wal_id_cmp` and `wal_used_blks` treat the sequence wrap specially only
when the checkpointed transaction's own ID has sequence `WAL_ID_SEQ_MAX`. When that
transaction begins in the lap before the last and ends in the last, the live window begins
at sequence `WAL_ID_SEQ_MAX` with a checkpoint ID one sequence lower; once the unused ID
wraps to sequence `0`, the next checkpoint ID compares above the unused ID, and
`wal_used_blks` fails its assertion, which the next `reserve_allowed` reaches
(`walUsedBlks_straddle_asserts`, on a log of the minimal size).

The model covers the ID bookkeeping of `bio_wal_commit` run to a successful completion, one
transaction at a time, with no failed transaction pending; the I/O, the waiters of
`bio_wal_reserve` and a failed transaction's rollback are not modelled.
-/

namespace Daos.Bio

/-- `WAL_ID_OFF_BITS`: the bits of an ID that hold the block offset. -/
def walIdOffBits : ℕ := 32

/-- `WAL_ID_SEQ_MAX`: the last sequence number before the sequence wraps to `0`. -/
def walIdSeqMax : ℕ := 2 ^ 32 - 1

/-- `WAL_MAX_TRANS_BLKS`: the most blocks one transaction may use. -/
def walMaxTransBlks : ℕ := 2048

/-- `WAL_BLK_SZ`: the bytes of a block. -/
def walBlkSz : ℕ := 4096

/-- `WAL_MIN_CAPACITY`: the smallest WAL blob `meta_format` accepts, in bytes. -/
def walMinCapacity : ℕ := 8192 * walBlkSz

/-- `WAL_HDR_BLKS`: the blocks of the WAL header, before the ring. -/
def walHdrBlks : ℕ := 1

/-- `DER_INVAL`. -/
def derInval : ℤ := 1003

/-- `id2off`: the low bits of an ID. -/
def id2off (txId : ℕ) : ℕ := txId % 2 ^ walIdOffBits

/-- `id2seq`: the 32 bits above the offset. -/
def id2seq (txId : ℕ) : ℕ := txId / 2 ^ walIdOffBits % 2 ^ 32

/-- `seqoff2id`; a sequence and an offset below `2^32` fit the 64 bits of an ID. -/
def seqoff2id (seq off : ℕ) : ℕ := seq * 2 ^ walIdOffBits + off

/-- `struct wal_super_info`, as far as the IDs go: `wh_tot_blks` of its header, the last
checkpointed and the last committed transactions with their sizes, and the next unused ID. -/
structure WalSuperInfo where
  totBlks : ℕ
  ckpId : ℕ
  ckpBlks : ℕ
  commitId : ℕ
  commitBlks : ℕ
  unusedId : ℕ
deriving DecidableEq, Repr

/-- `wal_id_cmp`, with `-1`, `0`, `1` as `lt`, `eq`, `gt`: plain comparison, except while the
checkpoint ID has the last sequence and the unused ID the first, where sequence `0` counts
as above every other. -/
def walIdCmp (si : WalSuperInfo) (id1 id2 : ℕ) : Ordering :=
  if id2seq si.ckpId = walIdSeqMax ∧ id2seq si.unusedId = 0 then
    if id2seq id1 = id2seq id2 ∨ (0 < id2seq id1 ∧ 0 < id2seq id2) then compare id1 id2
    else if id2seq id1 = 0 then .gt
    else .lt
  else compare id1 id2

/-- `wal_next_id`: the ID after a transaction of `blks` blocks at `txId`, on 32-bit
offsets; no blocks is the start position, where the code asserts `txId = 0`. -/
def walNextId (si : WalSuperInfo) (txId blks : ℕ) : ℕ :=
  if blks = 0 then txId
  else
    let nextOff := (id2off txId + blks) % 2 ^ 32
    if nextOff < si.totBlks then seqoff2id (id2seq txId) nextOff
    else
      seqoff2id (if id2seq txId = walIdSeqMax then 0 else id2seq txId + 1) (nextOff - si.totBlks)

/-- `wal_used_blks`: the blocks from the end of the checkpointed transaction to the unused
ID; `none` where one of its assertions fails. -/
def walUsedBlks (si : WalSuperInfo) : Option ℕ :=
  let nextCkpId := walNextId si si.ckpId si.ckpBlks
  if walIdCmp si nextCkpId si.unusedId = .gt then none
  -- everything is checkpointed
  else if nextCkpId = si.unusedId then
    if si.ckpId = si.commitId then some 0 else none
  else
    let nextCkpOff := id2off nextCkpId
    let nextCkpSeq := id2seq nextCkpId
    let unusedOff := id2off si.unusedId
    let unusedSeq := id2seq si.unusedId
    if ¬(nextCkpOff < si.totBlks ∧ unusedOff < si.totBlks) then none
    else if nextCkpOff < unusedOff then
      if nextCkpSeq = unusedSeq then some (unusedOff - nextCkpOff) else none
    else if ¬((nextCkpSeq = walIdSeqMax ∧ unusedSeq = 0) ∨ (nextCkpSeq + 1) % 2 ^ 32 = unusedSeq) then
      none
    else if unusedOff = nextCkpOff then some si.totBlks
    else some (si.totBlks - nextCkpOff + unusedOff)

/-- `wal_free_blks`; `none` where an assertion fails. -/
def walFreeBlks (si : WalSuperInfo) : Option ℕ :=
  (walUsedBlks si).bind fun used => if used ≤ si.totBlks then some (si.totBlks - used) else none

/-- `reserve_allowed` with no failed transaction pending: whether `WAL_MAX_TRANS_BLKS` blocks
are free; `none` where an assertion fails. -/
def reserveAllowed (si : WalSuperInfo) : Option Bool :=
  (walFreeBlks si).map fun free => decide (walMaxTransBlks ≤ free)

/-- `bio_wal_reserve` with no waiters: the unused ID when `reserve_allowed` lets the caller
through; `none` when it has to wait, or an assertion fails. -/
def bioWalReserve (si : WalSuperInfo) : Option ℕ :=
  match reserveAllowed si with
  | some true => some si.unusedId
  | _ => none

/-- The IDs of `bio_wal_commit` for a transaction of `blks` blocks (`calc_trans_blks`)
reserved as `txId`, and of `wal_tx_completion` when it succeeds: the transaction is placed at
the unused ID, which moves past it, and it becomes the last committed one. A transaction of
more than `WAL_MAX_TRANS_BLKS` blocks is refused; `none` where an assertion fails. -/
def bioWalCommit (si : WalSuperInfo) (txId blks : ℕ) : Option (ℤ × WalSuperInfo) :=
  if blks = 0 then none
  else if walMaxTransBlks < blks then some (-derInval, si)
  else if walIdCmp si txId si.unusedId ≠ .eq ∨ ¬id2off si.unusedId < si.totBlks then none
  -- the completion asserts that the transaction follows the last committed one
  else if walNextId si si.commitId si.commitBlks ≠ si.unusedId then none
  else some (0, { si with unusedId := walNextId si si.unusedId blks, commitId := si.unusedId,
                          commitBlks := blks })

/-- The IDs of `bio_wal_checkpoint` for the committed transaction `txId` of `blks` blocks
(read back from its header): it must lie after the checkpointed one and not after the last
committed one; `none` where an assertion fails. -/
def bioWalCheckpoint (si : WalSuperInfo) (txId blks : ℕ) : Option WalSuperInfo :=
  if walIdCmp si si.ckpId txId ≠ .lt then none
  else if walIdCmp si txId si.commitId = .gt then none
  else some { si with ckpId := txId, ckpBlks := blks }

/-- `meta_format`, as far as the WAL goes: the meta and WAL blobs of `metaSize` and `walSize`
bytes are refused below `WAL_MIN_CAPACITY`, and a WAL of more than `UINT32_MAX` blocks; the
header block is not part of the ring, and the IDs and sizes of the header start at zero. -/
def metaFormat (metaSize walSize : ℕ) : Except ℤ WalSuperInfo :=
  if metaSize < walMinCapacity then .error (-derInval)
  else if walSize < walMinCapacity then .error (-derInval)
  else if walBlkSz * (2 ^ 32 - 1) < walSize then .error (-derInval)
  else .ok ⟨walSize / walBlkSz - walHdrBlks, 0, 0, 0, 0, 0⟩

/-! ### IDs of block positions -/

/-- The ID of the block at position `p` of a log of `tot` blocks, positions counted from the
first block of the first lap: the lap modulo the sequence, and the offset in the lap. -/
def posId (tot p : ℕ) : ℕ := seqoff2id (p / tot % 2 ^ 32) (p % tot)

theorem id2off_seqoff2id {seq off : ℕ} (h : off < 2 ^ 32) : id2off (seqoff2id seq off) = off := by
  unfold id2off seqoff2id walIdOffBits
  omega

theorem id2seq_seqoff2id {seq off : ℕ} (hs : seq < 2 ^ 32) (h : off < 2 ^ 32) :
    id2seq (seqoff2id seq off) = seq := by
  unfold id2seq seqoff2id walIdOffBits
  omega

section Pos

variable {tot p d : ℕ}

/-- A step within a lap keeps the lap. -/
theorem add_div_mod_of_lt (h0 : 0 < tot) (h : p % tot + d < tot) :
    (p + d) / tot = p / tot ∧ (p + d) % tot = p % tot + d := by
  apply (Nat.div_mod_unique h0).mpr
  have := Nat.mod_add_div p tot
  constructor <;> omega

/-- A step of at most a lap that passes the end of one lap lands in the next. -/
theorem add_div_mod_of_le (h0 : 0 < tot) (h : tot ≤ p % tot + d) (hd : d ≤ tot) :
    (p + d) / tot = p / tot + 1 ∧ (p + d) % tot = p % tot + d - tot := by
  apply (Nat.div_mod_unique h0).mpr
  have := Nat.mod_add_div p tot
  have := Nat.mod_lt p h0
  rw [Nat.mul_add, Nat.mul_one]
  constructor <;> omega

theorem id2off_posId (h0 : 0 < tot) (hfit : tot ≤ 2 ^ 32) : id2off (posId tot p) = p % tot :=
  id2off_seqoff2id (Nat.lt_of_lt_of_le (Nat.mod_lt p h0) hfit)

theorem id2seq_posId (h0 : 0 < tot) (hfit : tot ≤ 2 ^ 32) :
    id2seq (posId tot p) = p / tot % 2 ^ 32 :=
  id2seq_seqoff2id (Nat.mod_lt _ (by decide)) (Nat.lt_of_lt_of_le (Nat.mod_lt p h0) hfit)

/-- **`wal_next_id` advances the position** by the transaction's blocks: the offset stays in
the log and the sequence goes up, from `WAL_ID_SEQ_MAX` to `0`, exactly when the offset
wraps. A transaction of at most a lap, on a log small enough that the 32-bit offset does
not overflow. -/
theorem walNextId_posId {si : WalSuperInfo} {blks : ℕ} (h0 : 0 < si.totBlks)
    (hb : blks ≤ si.totBlks) (hfit : si.totBlks + blks < 2 ^ 32) :
    walNextId si (posId si.totBlks p) blks = posId si.totBlks (p + blks) := by
  have hmod := Nat.mod_lt p h0
  unfold walNextId
  by_cases hb0 : blks = 0
  · rw [if_pos hb0, hb0, Nat.add_zero]
  rw [if_neg hb0]
  dsimp only
  rw [id2off_posId h0 (by omega), id2seq_posId h0 (by omega),
    Nat.mod_eq_of_lt (show p % si.totBlks + blks < 2 ^ 32 by omega)]
  by_cases hlt : p % si.totBlks + blks < si.totBlks
  · rw [if_pos hlt]
    obtain ⟨hdiv, hmod'⟩ := add_div_mod_of_lt h0 hlt
    unfold posId
    rw [hdiv, hmod']
  · rw [if_neg hlt]
    obtain ⟨hdiv, hmod'⟩ := @add_div_mod_of_le si.totBlks p blks h0 (by omega) hb
    unfold posId
    rw [hdiv, hmod']
    congr 1
    -- the sequence after the last is `0`
    unfold walIdSeqMax
    split <;> omega

/-- The ID of a later position of the window is larger, unless the step passes from the
last sequence's lap to the first's. -/
theorem posId_lt_add (h0 : 0 < tot) (hfit : tot ≤ 2 ^ 32) (hd0 : 0 < d) (hd : d ≤ tot)
    (hwrap : p % tot + d < tot ∨ p / tot % 2 ^ 32 ≠ walIdSeqMax) :
    posId tot p < posId tot (p + d) := by
  have hmod := Nat.mod_lt p h0
  unfold posId seqoff2id walIdOffBits
  by_cases hlt : p % tot + d < tot
  · obtain ⟨hdiv, hmod'⟩ := add_div_mod_of_lt h0 hlt
    rw [hdiv, hmod']
    omega
  · have hne := hwrap.resolve_left hlt
    obtain ⟨hdiv, hmod'⟩ := @add_div_mod_of_le tot p d h0 (by omega) hd
    rw [hdiv, hmod']
    unfold walIdSeqMax at hne
    omega

/-- Passing from the last sequence's lap to the first's, the ID drops. -/
theorem posId_add_lt (h0 : 0 < tot) (hfit : tot ≤ 2 ^ 32) (hd : d ≤ tot)
    (hwrap : tot ≤ p % tot + d ∧ p / tot % 2 ^ 32 = walIdSeqMax) :
    posId tot (p + d) < posId tot p := by
  have hmod := Nat.mod_lt p h0
  obtain ⟨hdiv, hmod'⟩ := add_div_mod_of_le h0 hwrap.1 hd
  have hmax := hwrap.2
  unfold posId seqoff2id walIdOffBits
  rw [hdiv, hmod']
  unfold walIdSeqMax at hmax
  omega


/-- Within the first `2^32` laps, IDs are ordered as their positions. -/
theorem posId_lt_posId (h0 : 0 < tot) (hfit : tot ≤ 2 ^ 32) {q : ℕ} (hpq : p < q)
    (hq : q / tot < 2 ^ 32) : posId tot p < posId tot q := by
  have hle : p / tot ≤ q / tot := Nat.div_le_div_right hpq.le
  have hp := Nat.div_add_mod p tot
  have hq' := Nat.div_add_mod q tot
  have hpm := Nat.mod_lt p h0
  have hqm := Nat.mod_lt q h0
  unfold posId seqoff2id walIdOffBits
  rw [Nat.mod_eq_of_lt (lt_of_le_of_lt hle hq), Nat.mod_eq_of_lt hq]
  rcases Nat.lt_or_eq_of_le hle with hlt | heq
  · -- an earlier lap
    omega
  · -- the same lap, at a lower offset
    rw [heq] at hp
    omega

end Pos

/-! ### Comparing IDs -/

section Cmp

variable {si : WalSuperInfo} {id1 id2 : ℕ}

theorem walIdCmp_of_seq_eq (h : id2seq id1 = id2seq id2) : walIdCmp si id1 id2 = compare id1 id2 := by
  unfold walIdCmp
  split_ifs <;> simp_all

theorem walIdCmp_of_not_wrap (h : ¬(id2seq si.ckpId = walIdSeqMax ∧ id2seq si.unusedId = 0)) :
    walIdCmp si id1 id2 = compare id1 id2 := by
  unfold walIdCmp
  rw [if_neg h]

/-- While the wrap rule is on, an ID of the last sequence comes before one of the first. -/
theorem walIdCmp_wrap (hckp : id2seq si.ckpId = walIdSeqMax) (hunused : id2seq si.unusedId = 0)
    (h1 : id2seq id1 = walIdSeqMax) (h2 : id2seq id2 = 0) : walIdCmp si id1 id2 = .lt := by
  unfold walIdCmp
  rw [if_pos ⟨hckp, hunused⟩, if_neg (by rw [h1, h2]; unfold walIdSeqMax; omega),
    if_neg (by rw [h1]; unfold walIdSeqMax; omega)]

theorem walIdCmp_self (si : WalSuperInfo) (a : ℕ) : walIdCmp si a a = .eq := by
  rw [walIdCmp_of_seq_eq rfl]
  exact Nat.compare_eq_eq.mpr rfl

end Cmp

/-- The state where `wal_id_cmp` goes wrong: the window begins in the last sequence's lap
and its end has wrapped to sequence `0`, but the checkpointed transaction began a lap
earlier, so its own ID's sequence is not `WAL_ID_SEQ_MAX`. -/
def walStraddles (si : WalSuperInfo) : Prop :=
  id2seq (walNextId si si.ckpId si.ckpBlks) = walIdSeqMax ∧ id2seq si.unusedId = 0 ∧
    id2seq si.ckpId ≠ walIdSeqMax

instance (si : WalSuperInfo) : Decidable (walStraddles si) :=
  inferInstanceAs (Decidable (_ ∧ _ ∧ _))

/-- A position at most a lap after `b` lies in `b`'s lap or the next one. -/
theorem div_mod_of_le_add {tot b x : ℕ} (h0 : 0 < tot) (hb : b ≤ x) (hx : x ≤ b + tot) :
    (x / tot = b / tot ∧ x % tot = b % tot + (x - b)) ∨
      (x / tot = b / tot + 1 ∧ x % tot + tot = b % tot + (x - b)) := by
  obtain ⟨d, rfl⟩ := Nat.exists_eq_add_of_le hb
  rw [Nat.add_sub_cancel_left]
  have hmod := Nat.mod_lt b h0
  by_cases hlt : b % tot + d < tot
  · exact Or.inl (add_div_mod_of_lt h0 hlt)
  · obtain ⟨hdiv, hmod'⟩ := add_div_mod_of_le h0 (Nat.le_of_not_lt hlt) (by omega)
    exact Or.inr ⟨hdiv, by omega⟩

/-! ### Runs of commits and checkpoints -/

/-- The log as a run sees it: the super info, the position of the live window's start
(`base`) and, oldest first, the IDs and sizes of the transactions committed after the
checkpointed one. The last two are ghost state: the code keeps neither. -/
structure WalSys where
  si : WalSuperInfo
  base : ℕ
  live : List (ℕ × ℕ)
deriving DecidableEq, Repr

/-- The blocks of the live transactions. -/
def WalSys.liveBlks (s : WalSys) : ℕ := (s.live.map Prod.snd).sum

/-- A freshly formatted log of `tot` blocks: the header's IDs and sizes are zero, so the
unused ID, the one after the last committed transaction, is `0`. -/
def walFormat (tot : ℕ) : WalSys := ⟨⟨tot, 0, 0, 0, 0, 0⟩, 0, []⟩

/-- A transaction of `blks` blocks reserved, then committed at the unused ID. -/
def WalSys.commit (s : WalSys) (blks : ℕ) : Option WalSys :=
  match bioWalReserve s.si with
  | none => none
  | some txId =>
    match bioWalCommit s.si txId blks with
    | some (rc, si) => if rc = 0 then some ⟨si, s.base, s.live ++ [(s.si.unusedId, blks)]⟩ else none
    | none => none

/-- The checkpoint of the `k`-th live transaction: it and those before it leave the window. -/
def WalSys.checkpoint (s : WalSys) (k : ℕ) : Option WalSys :=
  match s.live[k]? with
  | some (txId, blks) =>
    (bioWalCheckpoint s.si txId blks).map fun si =>
      ⟨si, s.base + ((s.live.take (k + 1)).map Prod.snd).sum, s.live.drop (k + 1)⟩
  | none => none

/-- The states of a log of `tot` blocks that a run reaches: a format that `meta_format`
accepts, then commits and checkpoints. -/
inductive WalReachable (tot : ℕ) : WalSys → Prop
  | format (metaSize walSize : ℕ) :
      metaFormat metaSize walSize = .ok (walFormat tot).si → WalReachable tot (walFormat tot)
  | commit {s s' : WalSys} (blks : ℕ) :
      WalReachable tot s → s.commit blks = some s' → WalReachable tot s'
  | checkpoint {s s' : WalSys} (k : ℕ) :
      WalReachable tot s → s.checkpoint k = some s' → WalReachable tot s'

/-- A log `meta_format` accepts has at least `WAL_MIN_CAPACITY` bytes less the header. -/
theorem WalReachable.le_tot {tot : ℕ} {s : WalSys} (h : WalReachable tot s) : 8191 ≤ tot := by
  induction h with
  | format metaSize walSize hfmt =>
    unfold metaFormat at hfmt
    split_ifs at hfmt with hmeta hwal hbig
    simp only [walFormat, Except.ok.injEq, WalSuperInfo.mk.injEq] at hfmt
    unfold walMinCapacity walBlkSz at hwal
    unfold walBlkSz walHdrBlks at hfmt
    omega
  | commit _ _ _ ih => exact ih
  | checkpoint _ _ _ ih => exact ih

/-- What a commit does when its reservation is let through and its assertions hold. -/
theorem WalSys.commit_some {s s' : WalSys} {blks : ℕ} (h : s.commit blks = some s') :
    reserveAllowed s.si = some true ∧ 0 < blks ∧ blks ≤ walMaxTransBlks ∧
      walNextId s.si s.si.commitId s.si.commitBlks = s.si.unusedId ∧
      s' = ⟨{ s.si with unusedId := walNextId s.si s.si.unusedId blks,
                        commitId := s.si.unusedId, commitBlks := blks },
            s.base, s.live ++ [(s.si.unusedId, blks)]⟩ := by
  unfold WalSys.commit bioWalReserve at h
  -- the reservation was let through
  have hres : reserveAllowed s.si = some true := by
    cases hr : reserveAllowed s.si with
    | none =>
      rw [hr] at h
      cases h
    | some b =>
      cases b with
      | false =>
        rw [hr] at h
        cases h
      | true => rfl
  rw [hres] at h
  dsimp only at h
  unfold bioWalCommit at h
  by_cases hb0 : blks = 0
  · simp [hb0] at h
  by_cases hmax : walMaxTransBlks < blks
  · simp [hb0, hmax, derInval] at h
  simp only [hb0, hmax, if_false] at h
  split at h
  · rename_i rc si hc
    split at hc
    · cases hc
    split at hc
    · cases hc
    · rename_i hnext
      cases hc
      simp only [if_true, Option.some.injEq] at h
      exact ⟨hres, Nat.pos_of_ne_zero hb0, Nat.le_of_not_lt hmax, Classical.not_not.mp hnext,
        h.symm⟩
  · cases h

/-- What a checkpoint does when its assertions hold. -/
theorem WalSys.checkpoint_some {s s' : WalSys} {k : ℕ} (h : s.checkpoint k = some s') :
    ∃ txId blks, s.live[k]? = some (txId, blks) ∧ walIdCmp s.si s.si.ckpId txId = .lt ∧
      walIdCmp s.si txId s.si.commitId ≠ .gt ∧
      s' = ⟨{ s.si with ckpId := txId, ckpBlks := blks },
            s.base + ((s.live.take (k + 1)).map Prod.snd).sum, s.live.drop (k + 1)⟩ := by
  unfold WalSys.checkpoint at h
  split at h
  · rename_i txId blks hk
    unfold bioWalCheckpoint at h
    by_cases hlt : walIdCmp s.si s.si.ckpId txId = .lt
    · by_cases hgt : walIdCmp s.si txId s.si.commitId = .gt
      · simp [hlt, hgt] at h
      · simp only [hlt, hgt, ne_eq, not_true_eq_false, if_false, Option.map_some,
          Option.some.injEq] at h
        exact ⟨txId, blks, hk, hlt, hgt, h.symm⟩
    · simp [hlt] at h
  · cases h

/-! ### The invariant of a run -/

/-- The invariant of a log of `tot` blocks: the checkpointed transaction ends at the window's
start; the live transactions follow one another from there, each at the ID of its position
and of at most `WAL_MAX_TRANS_BLKS` blocks; the unused ID is the window's end, at most a lap
on; and the last committed transaction is the last live one, or the checkpointed one when
none is live. -/
structure WalSys.Inv (tot : ℕ) (s : WalSys) : Prop where
  tot_eq : s.si.totBlks = tot
  ckp_le : s.si.ckpBlks ≤ s.base
  ckp_max : s.si.ckpBlks ≤ walMaxTransBlks
  ckp_tot : s.si.ckpBlks ≤ tot
  ckp : s.si.ckpId = posId tot (s.base - s.si.ckpBlks)
  live : ∀ k txId blks, s.live[k]? = some (txId, blks) →
    txId = posId tot (s.base + ((s.live.map Prod.snd).take k).sum) ∧ 0 < blks ∧
      blks ≤ walMaxTransBlks
  window : s.liveBlks ≤ tot
  unused : s.si.unusedId = posId tot (s.base + s.liveBlks)
  commit : (s.live = [] ∧ s.si.commitId = s.si.ckpId ∧ s.si.commitBlks = s.si.ckpBlks) ∨
    s.live.getLast? = some (s.si.commitId, s.si.commitBlks)

section Inv

variable {tot : ℕ} {s s' : WalSys}

theorem WalSys.Inv.format : (walFormat tot).Inv tot where
  tot_eq := rfl
  ckp_le := Nat.le_refl 0
  ckp_max := Nat.zero_le _
  ckp_tot := Nat.zero_le _
  ckp := by simp [walFormat, posId, seqoff2id]
  live := fun k txId blks h => by simp [walFormat] at h
  window := Nat.zero_le _
  unused := by simp [walFormat, WalSys.liveBlks, posId, seqoff2id]
  commit := Or.inl ⟨rfl, rfl, rfl⟩

/-- The next checkpoint ID is the window's start. -/
theorem WalSys.Inv.nextCkp (h0 : 0 < tot) (hfit : tot + walMaxTransBlks < 2 ^ 32)
    (hinv : s.Inv tot) : walNextId s.si s.si.ckpId s.si.ckpBlks = posId tot s.base := by
  have hnext := @walNextId_posId (s.base - s.si.ckpBlks) s.si s.si.ckpBlks
    (by rw [hinv.tot_eq]; exact h0) (by rw [hinv.tot_eq]; exact hinv.ckp_tot)
    (by rw [hinv.tot_eq]; have := hinv.ckp_max; omega)
  rw [hinv.tot_eq, Nat.sub_add_cancel hinv.ckp_le] at hnext
  rw [hinv.ckp, hnext]

/-- The blocks up to a live transaction and through it. -/
theorem WalSys.sum_take_succ {k txId blks : ℕ} (hk : s.live[k]? = some (txId, blks)) :
    ((s.live.map Prod.snd).take (k + 1)).sum = ((s.live.map Prod.snd).take k).sum + blks := by
  rw [List.take_add_one, List.getElem?_map, hk]
  simp

/-- A live transaction lies in the window and ends in it. -/
theorem WalSys.take_add_le_liveBlks {k txId blks : ℕ} (hk : s.live[k]? = some (txId, blks)) :
    ((s.live.map Prod.snd).take k).sum + blks ≤ s.liveBlks := by
  have hsplit := List.sum_take_add_sum_drop (s.live.map Prod.snd) (k + 1)
  rw [WalSys.sum_take_succ hk] at hsplit
  unfold WalSys.liveBlks
  omega

/-- The transaction after the last committed one is at the unused ID. -/
theorem WalSys.Inv.nextCommit (h0 : 0 < tot) (hfit : tot + walMaxTransBlks < 2 ^ 32)
    (hinv : s.Inv tot) : walNextId s.si s.si.commitId s.si.commitBlks = s.si.unusedId := by
  rcases hinv.commit with ⟨hnil, hid, hblks⟩ | hlast
  · -- nothing live: the last committed transaction is the checkpointed one
    have hzero : s.liveBlks = 0 := by simp [WalSys.liveBlks, hnil]
    rw [hid, hblks, hinv.nextCkp h0 hfit, hinv.unused, hzero, Nat.add_zero]
  · have hk : s.live[s.live.length - 1]? = some (s.si.commitId, s.si.commitBlks) := by
      rw [← List.getLast?_eq_getElem?]
      exact hlast
    obtain ⟨hid, -, hmax⟩ := hinv.live _ _ _ hk
    -- the last live transaction ends where the window does
    have hend : ((s.live.map Prod.snd).take (s.live.length - 1)).sum + s.si.commitBlks =
        s.liveBlks := by
      obtain ⟨ys, hys⟩ := List.getLast?_eq_some_iff.mp hlast
      simp [WalSys.liveBlks, hys]
    have hnext := @walNextId_posId (s.base + ((s.live.map Prod.snd).take (s.live.length - 1)).sum)
      s.si s.si.commitBlks (by rw [hinv.tot_eq]; exact h0)
      (by rw [hinv.tot_eq]; have := hinv.window; omega) (by rw [hinv.tot_eq]; omega)
    rw [hinv.tot_eq, Nat.add_assoc, hend] at hnext
    rw [hid, hnext, hinv.unused]

/-- An empty window holds no transaction. -/
theorem WalSys.Inv.live_eq_nil (hinv : s.Inv tot) (h : s.liveBlks = 0) : s.live = [] := by
  cases hl : s.live with
  | nil => rfl
  | cons x rest =>
    obtain ⟨-, hpos, -⟩ := hinv.live 0 x.1 x.2 (by simp [hl])
    simp [WalSys.liveBlks, hl] at h
    omega

/-- **`wal_used_blks` counts the live blocks** in every state that keeps the invariant but a
straddling one, where its assertion that the next checkpoint ID is not after the unused ID
fails. -/
theorem WalSys.Inv.walUsedBlks_eq (h0 : 0 < tot) (hfit : tot + walMaxTransBlks < 2 ^ 32)
    (hinv : s.Inv tot) :
    walUsedBlks s.si = if walStraddles s.si then none else some s.liveBlks := by
  have htot : tot ≤ 2 ^ 32 := by unfold walMaxTransBlks at hfit; omega
  have hwin := hinv.window
  have hbmod := Nat.mod_lt s.base h0
  have humod := Nat.mod_lt (s.base + s.liveBlks) h0
  have hncSeq : id2seq (posId tot s.base) = s.base / tot % 2 ^ 32 := id2seq_posId h0 htot
  have hncOff : id2off (posId tot s.base) = s.base % tot := id2off_posId h0 htot
  have huSeq : id2seq s.si.unusedId = (s.base + s.liveBlks) / tot % 2 ^ 32 := by
    rw [hinv.unused]
    exact id2seq_posId h0 htot
  have huOff : id2off s.si.unusedId = (s.base + s.liveBlks) % tot := by
    rw [hinv.unused]
    exact id2off_posId h0 htot
  have hstr : walStraddles s.si ↔ id2seq (posId tot s.base) = walIdSeqMax ∧
      id2seq s.si.unusedId = 0 ∧ id2seq s.si.ckpId ≠ walIdSeqMax := by
    unfold walStraddles
    rw [hinv.nextCkp h0 hfit]
  unfold walUsedBlks
  dsimp only
  rw [hinv.nextCkp h0 hfit, hinv.tot_eq]
  rcases div_mod_of_le_add h0 (Nat.le_add_right s.base s.liveBlks) (by omega) with
    ⟨hq, hr⟩ | ⟨hq, hr⟩
  · -- the window ends in the lap it starts in
    rw [Nat.add_sub_cancel_left] at hr
    have hseq : id2seq (posId tot s.base) = id2seq s.si.unusedId := by rw [hncSeq, huSeq, hq]
    have hnostr : ¬walStraddles s.si := by
      rw [hstr, hseq]
      unfold walIdSeqMax
      omega
    rw [walIdCmp_of_seq_eq hseq, if_neg hnostr]
    by_cases hS : s.liveBlks = 0
    · -- an empty window: the checkpointed transaction is the last committed one
      have hnil := hinv.live_eq_nil hS
      have hcommit : s.si.ckpId = s.si.commitId := by
        rcases hinv.commit with ⟨-, hid, -⟩ | hlast
        · exact hid.symm
        · simp [hnil] at hlast
      rw [hinv.unused, hS, Nat.add_zero, Nat.compare_eq_eq.mpr rfl]
      simp [hcommit]
    · have hlt : posId tot s.base < s.si.unusedId := by
        rw [hinv.unused]
        exact posId_lt_add h0 htot (Nat.pos_of_ne_zero hS) hwin (Or.inl (by omega))
      rw [Nat.compare_eq_lt.mpr hlt]
      simp only [reduceCtorEq, if_false, Nat.ne_of_lt hlt, hncOff, huOff, hncSeq, huSeq, hq, hr]
      split_ifs <;> (congr 1; omega)
  · -- the window ends in the next lap
    rw [Nat.add_sub_cancel_left] at hr
    have hS : 0 < s.liveBlks := by omega
    by_cases hmax : s.base / tot % 2 ^ 32 = walIdSeqMax
    · have hu0 : id2seq s.si.unusedId = 0 := by
        rw [huSeq, hq]
        unfold walIdSeqMax at hmax
        omega
      by_cases hckp : id2seq s.si.ckpId = walIdSeqMax
      · -- the wrap rule is on and orders the window's ends
        have hnostr : ¬walStraddles s.si := by
          rw [hstr]
          exact fun h => h.2.2 hckp
        have hne : posId tot s.base ≠ s.si.unusedId := by
          intro heq
          rw [← heq, hncSeq, hmax] at hu0
          unfold walIdSeqMax at hu0
          omega
        rw [walIdCmp_wrap hckp hu0 (by rw [hncSeq, hmax]) hu0, if_neg hnostr]
        unfold walIdSeqMax at hmax
        simp only [reduceCtorEq, if_false, hne, hncOff, huOff, hncSeq, hu0, hmax]
        split_ifs <;> (congr 1; omega)
      · -- the window straddles: the checkpoint ID is a lap behind
        have hgt : s.si.unusedId < posId tot s.base := by
          rw [hinv.unused]
          exact posId_add_lt h0 htot hwin ⟨by omega, hmax⟩
        rw [walIdCmp_of_not_wrap (fun h => hckp h.1), Nat.compare_eq_gt.mpr hgt,
          if_pos rfl, if_pos (hstr.mpr ⟨by rw [hncSeq, hmax], hu0, hckp⟩)]
    · -- the sequence goes up by one, and no wrap rule is needed
      have hu : id2seq s.si.unusedId = s.base / tot % 2 ^ 32 + 1 := by
        rw [huSeq, hq]
        unfold walIdSeqMax at hmax
        omega
      have hnostr : ¬walStraddles s.si := by
        rw [hstr, hncSeq]
        exact fun h => hmax h.1
      have hlt : posId tot s.base < s.si.unusedId := by
        rw [hinv.unused]
        exact posId_lt_add h0 htot hS hwin (Or.inr hmax)
      rw [walIdCmp_of_not_wrap (fun h => by rw [hu] at h; omega), Nat.compare_eq_lt.mpr hlt,
        if_neg hnostr]
      unfold walIdSeqMax at hmax
      simp only [reduceCtorEq, if_false, Nat.ne_of_lt hlt, hncOff, huOff, hncSeq, hu]
      split_ifs <;> (congr 1; omega)

/-- `reserve_allowed` lets a reservation through only with room for a whole transaction. -/
theorem WalSys.Inv.room_of_reserveAllowed (h0 : 0 < tot) (hfit : tot + walMaxTransBlks < 2 ^ 32)
    (hinv : s.Inv tot) (hres : reserveAllowed s.si = some true) :
    s.liveBlks + walMaxTransBlks ≤ tot := by
  unfold reserveAllowed walFreeBlks at hres
  rw [hinv.walUsedBlks_eq h0 hfit, hinv.tot_eq] at hres
  by_cases hstr : walStraddles s.si
  · simp [hstr] at hres
  · rw [if_neg hstr] at hres
    by_cases hle : s.liveBlks ≤ tot
    · simp only [Option.bind_some, if_pos hle, Option.map_some, Option.some.injEq,
        decide_eq_true_eq] at hres
      omega
    · simp [hle] at hres

/-- **A commit keeps the invariant**: `reserve_allowed` saw room for the whole transaction, so
the window it leaves is within the log. -/
theorem WalSys.Inv.commit_step (h0 : 0 < tot) (hfit : tot + walMaxTransBlks < 2 ^ 32)
    (hinv : s.Inv tot) {blks : ℕ} (h : s.commit blks = some s') : s'.Inv tot := by
  obtain ⟨hres, hpos, hmax, -, hs'⟩ := WalSys.commit_some h
  have hroom := hinv.room_of_reserveAllowed h0 hfit hres
  have hsum : s'.liveBlks = s.liveBlks + blks := by
    simp [hs', WalSys.liveBlks]
  have hw : s.liveBlks + blks ≤ tot := by omega
  subst hs'
  refine ⟨hinv.tot_eq, hinv.ckp_le, hinv.ckp_max, hinv.ckp_tot, hinv.ckp, ?_, by rw [hsum]; omega,
    ?_, Or.inr List.getLast?_concat⟩
  · -- the old transactions keep their positions, and the new one is at the old window's end
    intro k txId b hk
    dsimp only at hk ⊢
    rw [List.map_append]
    rcases Nat.lt_or_ge k s.live.length with hlt | hge
    · rw [List.getElem?_append_left hlt] at hk
      rw [List.take_append_of_le_length (by simp; omega)]
      exact hinv.live k txId b hk
    · rw [List.getElem?_append_right hge] at hk
      have hk0 : k - s.live.length = 0 := by
        by_contra hne
        obtain ⟨m, hm⟩ : ∃ m, k - s.live.length = m + 1 := ⟨k - s.live.length - 1, by omega⟩
        simp [hm] at hk
      simp only [hk0, List.getElem?_cons_zero, Option.some.injEq, Prod.mk.injEq] at hk
      obtain ⟨rfl, rfl⟩ := hk
      rw [List.take_append_of_le_length (by simp; omega), List.take_of_length_le (by simp; omega)]
      exact ⟨hinv.unused, hpos, hmax⟩
  · -- the unused ID moves past the new transaction
    change walNextId s.si s.si.unusedId blks = posId tot (s.base + _)
    have hnext := @walNextId_posId (s.base + s.liveBlks) s.si blks
      (by rw [hinv.tot_eq]; exact h0) (by rw [hinv.tot_eq]; omega) (by rw [hinv.tot_eq]; omega)
    rw [hinv.tot_eq] at hnext
    rw [hsum, hinv.unused, hnext, Nat.add_assoc]

/-- **A checkpoint keeps the invariant**: the checkpointed transaction and those before it
leave the window, whose start moves to its end. -/
theorem WalSys.Inv.checkpoint_step (hinv : s.Inv tot) {k : ℕ} (h : s.checkpoint k = some s') :
    s'.Inv tot := by
  obtain ⟨txId, blks, hk, -, -, rfl⟩ := WalSys.checkpoint_some h
  obtain ⟨hid, hpos, hmax⟩ := hinv.live k txId blks hk
  -- the blocks up to and after the checkpointed transaction
  have hT := WalSys.sum_take_succ hk
  have hsplit := List.sum_take_add_sum_drop (s.live.map Prod.snd) (k + 1)
  have hwin := hinv.window
  unfold WalSys.liveBlks at hwin
  refine ⟨hinv.tot_eq, ?_, hmax, ?_, ?_, ?_, ?_, ?_, ?_⟩
  · dsimp only
    rw [List.map_take]
    omega
  · dsimp only
    omega
  · dsimp only
    rw [hid, List.map_take, hT]
    congr 1
    omega
  · -- a later transaction keeps its position, counted from the new start
    intro j id b hj
    dsimp only at hj ⊢
    rw [List.getElem?_drop] at hj
    obtain ⟨hid', hpos', hmax'⟩ := hinv.live _ id b hj
    refine ⟨?_, hpos', hmax'⟩
    rw [hid', List.take_add, List.sum_append, List.map_take, List.map_drop, Nat.add_assoc]
  · unfold WalSys.liveBlks
    dsimp only
    rw [List.map_drop]
    omega
  · dsimp only
    rw [hinv.unused]
    unfold WalSys.liveBlks
    dsimp only
    rw [List.map_take, List.map_drop]
    congr 1
    omega
  · -- the last committed transaction is still the last live one, or it was checkpointed
    dsimp only
    have hlast : s.live.getLast? = some (s.si.commitId, s.si.commitBlks) := by
      rcases hinv.commit with ⟨hnil, -⟩ | hlast
      · simp [hnil] at hk
      · exact hlast
    by_cases hnil : s.live.drop (k + 1) = []
    · refine Or.inl ⟨hnil, ?_⟩
      have hlen : s.live.length = k + 1 := by
        have hklt : k < s.live.length := (List.getElem?_eq_some_iff.mp hk).1
        have := List.drop_eq_nil_iff.mp hnil
        omega
      rw [List.getLast?_eq_getElem?, hlen, Nat.add_sub_cancel, hk] at hlast
      simp only [Option.some.injEq, Prod.mk.injEq] at hlast
      exact ⟨hlast.1.symm, hlast.2.symm⟩
    · refine Or.inr ?_
      obtain ⟨x, hx⟩ := Option.ne_none_iff_exists'.mp (mt List.getLast?_eq_none_iff.mp hnil)
      have hdrop : (s.live.drop (k + 1)).getLast? = s.live.getLast? := by
        conv_rhs => rw [← List.take_append_drop (k + 1) s.live]
        rw [List.getLast?_append, hx]
        rfl
      rw [hdrop, hlast]

/-- **Every reachable state keeps the invariant.** -/
theorem WalSys.Inv.reachable (h0 : 0 < tot) (hfit : tot + walMaxTransBlks < 2 ^ 32)
    (h : WalReachable tot s) : s.Inv tot := by
  induction h with
  | format _ _ _ => exact WalSys.Inv.format
  | commit blks _ hstep ih => exact ih.commit_step h0 hfit hstep
  | checkpoint k _ hstep ih => exact ih.checkpoint_step hstep

end Inv

/-! ### Steps that succeed -/

/-- **A reserved commit of a transaction that fits succeeds** in a state that keeps the
invariant, does not straddle, and has room for a whole transaction: `reserve_allowed` lets it
through and every assertion of `bio_wal_commit` and of its completion holds. -/
theorem WalSys.Inv.commit_eq {tot : ℕ} {s : WalSys} (h0 : 0 < tot)
    (hfit : tot + walMaxTransBlks < 2 ^ 32) (hinv : s.Inv tot) (hstr : ¬walStraddles s.si)
    (hroom : s.liveBlks + walMaxTransBlks ≤ tot) {blks : ℕ} (hpos : 0 < blks)
    (hmax : blks ≤ walMaxTransBlks) :
    s.commit blks = some ⟨{ s.si with unusedId := walNextId s.si s.si.unusedId blks,
                                      commitId := s.si.unusedId, commitBlks := blks },
                          s.base, s.live ++ [(s.si.unusedId, blks)]⟩ := by
  have hoff : id2off s.si.unusedId < s.si.totBlks := by
    rw [hinv.unused, hinv.tot_eq, id2off_posId h0 (by unfold walMaxTransBlks at hfit; omega)]
    exact Nat.mod_lt _ h0
  -- the reservation sees the free blocks of the window
  have hres : bioWalReserve s.si = some s.si.unusedId := by
    have hfree : walFreeBlks s.si = some (tot - s.liveBlks) := by
      unfold walFreeBlks
      rw [hinv.walUsedBlks_eq h0 hfit, if_neg hstr, hinv.tot_eq]
      simp [show s.liveBlks ≤ tot by omega]
    unfold bioWalReserve reserveAllowed
    rw [hfree]
    simp [show walMaxTransBlks ≤ tot - s.liveBlks by omega]
  unfold WalSys.commit
  rw [hres]
  dsimp only
  unfold bioWalCommit
  rw [if_neg (Nat.pos_iff_ne_zero.mp hpos), if_neg (Nat.not_lt.mpr hmax)]
  rw [walIdCmp_self, hinv.nextCommit h0 hfit]
  simp [hoff]

/-- A checkpoint of a live transaction after the checkpointed one and not after the last
committed one succeeds. -/
theorem WalSys.checkpoint_eq {s : WalSys} {k txId blks : ℕ} (hk : s.live[k]? = some (txId, blks))
    (hlt : walIdCmp s.si s.si.ckpId txId = .lt) (hgt : walIdCmp s.si txId s.si.commitId ≠ .gt) :
    s.checkpoint k = some ⟨{ s.si with ckpId := txId, ckpBlks := blks },
      s.base + ((s.live.take (k + 1)).map Prod.snd).sum, s.live.drop (k + 1)⟩ := by
  unfold WalSys.checkpoint bioWalCheckpoint
  rw [hk]
  simp [hlt, hgt]


/-! ### What a run keeps -/

section Reachable

variable {tot : ℕ} {s : WalSys}

/-- **`wal_id_cmp` orders the window as it was issued** in every state that keeps the
invariant but a straddling one: of two positions of the window, the earlier one's ID compares
below. -/
theorem WalSys.Inv.walIdCmp_window (h0 : 0 < tot) (hfit : tot + walMaxTransBlks < 2 ^ 32)
    (hinv : s.Inv tot) (hstr : ¬walStraddles s.si) {d d' : ℕ} (hd : d < d')
    (hd' : d' ≤ s.liveBlks) :
    walIdCmp s.si (posId tot (s.base + d)) (posId tot (s.base + d')) = .lt := by
  have htot : tot ≤ 2 ^ 32 := by unfold walMaxTransBlks at hfit; omega
  have hwin := hinv.window
  have hstr' : ¬(id2seq (posId tot s.base) = walIdSeqMax ∧ id2seq s.si.unusedId = 0 ∧
      id2seq s.si.ckpId ≠ walIdSeqMax) := by
    unfold walStraddles at hstr
    rwa [hinv.nextCkp h0 hfit] at hstr
  have hq' : s.base + d' = s.base + d + (d' - d) := by omega
  have hpmod := Nat.mod_lt (s.base + d) h0
  have hqmod := Nat.mod_lt (s.base + d') h0
  -- the later position is in the same lap, or in the next
  have hle : (s.base + d) / tot ≤ (s.base + d') / tot := Nat.div_le_div_right (by omega)
  rcases div_mod_of_le_add h0 (Nat.le_add_right s.base d) (by omega) with ⟨hp, hpr⟩ | ⟨hp, hpr⟩ <;>
    rcases div_mod_of_le_add h0 (Nat.le_add_right s.base d') (by omega) with ⟨hq, hqr⟩ | ⟨hq, hqr⟩
  · -- both in the window's first lap
    rw [walIdCmp_of_seq_eq (by rw [id2seq_posId h0 htot, id2seq_posId h0 htot, hp, hq]),
      Nat.compare_eq_lt, hq']
    exact posId_lt_add h0 htot (by omega) (by omega) (Or.inl (by omega))
  · -- the first in the window's first lap, the second in the next
    have hu : (s.base + s.liveBlks) / tot = s.base / tot + 1 := by
      have : (s.base + d') / tot ≤ (s.base + s.liveBlks) / tot := Nat.div_le_div_right (by omega)
      rcases div_mod_of_le_add h0 (Nat.le_add_right s.base s.liveBlks) (by omega) with
        ⟨hu, -⟩ | ⟨hu, -⟩ <;> omega
    have huSeq : id2seq s.si.unusedId = (s.base / tot + 1) % 2 ^ 32 := by
      rw [hinv.unused, id2seq_posId h0 htot, hu]
    by_cases hmax : s.base / tot % 2 ^ 32 = walIdSeqMax
    · -- across the sequence wrap, which the wrap rule orders since the window does not straddle
      have hu0 : id2seq s.si.unusedId = 0 := by
        rw [huSeq]
        unfold walIdSeqMax at hmax
        omega
      have hckp : id2seq s.si.ckpId = walIdSeqMax := by
        by_contra hckp
        exact hstr' ⟨by rw [id2seq_posId h0 htot, hmax], hu0, hckp⟩
      exact walIdCmp_wrap hckp hu0 (by rw [id2seq_posId h0 htot, hp, hmax])
        (by rw [id2seq_posId h0 htot, hq]; unfold walIdSeqMax at hmax; omega)
    · have hne : id2seq s.si.unusedId ≠ 0 := by
        rw [huSeq]
        unfold walIdSeqMax at hmax
        omega
      rw [walIdCmp_of_not_wrap (fun h => hne h.2), Nat.compare_eq_lt, hq']
      exact posId_lt_add h0 htot (by omega) (by omega) (Or.inr (by rw [hp]; exact hmax))
  · -- a later position is never in an earlier lap
    omega
  · -- both in the next lap
    rw [walIdCmp_of_seq_eq (by rw [id2seq_posId h0 htot, id2seq_posId h0 htot, hp, hq]),
      Nat.compare_eq_lt, hq']
    exact posId_lt_add h0 htot (by omega) (by omega) (Or.inl (by omega))

/-- **The log over a run.** In every state a run reaches, on a log small enough that an
offset plus a transaction fits 32 bits: the live window stays within the log; `wal_used_blks` is
the blocks of the live transactions unless the state straddles, where its assertion fails; and
in a state that does not straddle, `wal_id_cmp` orders the live transactions as they were
issued. -/
theorem walReachable_window (hfit : tot + walMaxTransBlks < 2 ^ 32) (hs : WalReachable tot s) :
    s.liveBlks ≤ tot ∧
      walUsedBlks s.si = (if walStraddles s.si then none else some s.liveBlks) ∧
      (¬walStraddles s.si → ∀ k k' txId txId' blks blks' : ℕ, k < k' →
        s.live[k]? = some (txId, blks) → s.live[k']? = some (txId', blks') →
        walIdCmp s.si txId txId' = .lt) := by
  have h0 : 0 < tot := by
    have := hs.le_tot
    omega
  have hinv := WalSys.Inv.reachable h0 hfit hs
  refine ⟨hinv.window, hinv.walUsedBlks_eq h0 hfit, ?_⟩
  intro hstr k k' txId txId' blks blks' hkk hk hk'
  obtain ⟨hid, hpos, -⟩ := hinv.live k txId blks hk
  obtain ⟨hid', -, -⟩ := hinv.live k' txId' blks' hk'
  -- the later transaction starts past the earlier one's first block, and ends in the window
  have hlt : ((s.live.map Prod.snd).take k).sum < ((s.live.map Prod.snd).take k').sum := by
    have hpre : ((s.live.map Prod.snd).take (k + 1)).sum ≤ ((s.live.map Prod.snd).take k').sum :=
      ((List.take_prefix_take_left (Nat.succ_le_of_lt hkk)).sublist).sum_le_sum
        (fun _ _ => Nat.zero_le _)
    rw [WalSys.sum_take_succ hk] at hpre
    omega
  have hend := WalSys.take_add_le_liveBlks hk'
  rw [hid, hid']
  exact hinv.walIdCmp_window h0 hfit hstr hlt (by omega)

end Reachable

/-! ### A run that straddles the sequence wrap -/

/-- A quiet log of `tot` blocks at position `p`: the transaction of `b` blocks before `p` is the
last one committed and the checkpointed one, and nothing is live. -/
def walIdle (tot p b : ℕ) : WalSys :=
  ⟨⟨tot, posId tot (p - b), b, posId tot (p - b), b, posId tot p⟩, p, []⟩

/-- From a quiet log, a transaction committed and then checkpointed leaves the log quiet after
it, while the sequence stays below `WAL_ID_SEQ_MAX`. -/
theorem walIdle_step {tot p b b' : ℕ} (hfit : tot + walMaxTransBlks < 2 ^ 32)
    (h : WalReachable tot (walIdle tot p b)) (hb : 0 < b) (hbp : b ≤ p) (hb' : 0 < b')
    (hmax : b' ≤ walMaxTransBlks) (hlap : p + b' < tot * walIdSeqMax) :
    WalReachable tot (walIdle tot (p + b') b') := by
  have hT := h.le_tot
  have h0 : 0 < tot := by omega
  have htot : tot ≤ 2 ^ 32 := by unfold walMaxTransBlks at hfit; omega
  have hinv := WalSys.Inv.reachable h0 hfit h
  -- an empty window does not straddle: its two ends have one ID
  have hstr : ¬walStraddles (walIdle tot p b).si := by
    rintro ⟨hseq, hzero, -⟩
    rw [hinv.nextCkp h0 hfit] at hseq
    change id2seq (posId tot p) = walIdSeqMax at hseq
    change id2seq (posId tot p) = 0 at hzero
    rw [hseq] at hzero
    exact absurd hzero (by decide)
  have hroom : (walIdle tot p b).liveBlks + walMaxTransBlks ≤ tot := by
    change 0 + walMaxTransBlks ≤ tot
    unfold walMaxTransBlks
    omega
  have hnext : walNextId (walIdle tot p b).si (posId tot p) b' = posId tot (p + b') :=
    @walNextId_posId p (walIdle tot p b).si b' h0 (by change b' ≤ tot; unfold walMaxTransBlks at hmax; omega)
      (by change tot + b' < 2 ^ 32; omega)
  -- the commit
  have hc := hinv.commit_eq h0 hfit hstr hroom hb' hmax
  rw [show (walIdle tot p b).si.unusedId = posId tot p from rfl, hnext] at hc
  have r1 := WalReachable.commit b' h hc
  -- its checkpoint: its ID is above the checkpoint's, and no wrap rule is on
  have hseq : (p - b) / tot < walIdSeqMax := Nat.div_lt_of_lt_mul (by omega)
  have hpl : p / tot < walIdSeqMax := Nat.div_lt_of_lt_mul (by omega)
  have hlt : walIdCmp ⟨tot, posId tot (p - b), b, posId tot p, b', posId tot (p + b')⟩
      (posId tot (p - b)) (posId tot p) = .lt := by
    rw [walIdCmp_of_not_wrap, Nat.compare_eq_lt]
    · exact posId_lt_posId h0 htot (by omega) (by unfold walIdSeqMax at hpl; omega)
    · rintro ⟨hckp, -⟩
      rw [id2seq_posId h0 htot, Nat.mod_eq_of_lt (by unfold walIdSeqMax at hseq; omega)] at hckp
      omega
  have hck := WalSys.checkpoint_eq
    (show (⟨⟨tot, posId tot (p - b), b, posId tot p, b', posId tot (p + b')⟩, p,
      [(posId tot p, b')]⟩ : WalSys).live[0]? = some (posId tot p, b') from rfl) hlt
    (by rw [walIdCmp_self]; decide)
  have hq : walIdle tot (p + b') b' = ⟨⟨tot, posId tot p, b', posId tot p, b', posId tot (p + b')⟩,
      p + ([(posId tot p, b')].take 1 |>.map Prod.snd).sum, [(posId tot p, b')].drop 1⟩ := by
    simp [walIdle]
  rw [hq]
  exact WalReachable.checkpoint 0 r1 hck

/-- The first quiet log of the smallest WAL: two transactions of 2048 blocks, the second
checkpointed. -/
theorem walIdle_first : WalReachable 8191 (walIdle 8191 4096 2048) := by
  have h1 : (walFormat 8191).commit 2048 = some ⟨⟨8191, 0, 0, 0, 2048, 2048⟩, 0, [(0, 2048)]⟩ := by
    decide +kernel
  have h2 : WalSys.commit ⟨⟨8191, 0, 0, 0, 2048, 2048⟩, 0, [(0, 2048)]⟩ 2048 =
      some ⟨⟨8191, 0, 0, 2048, 2048, 4096⟩, 0, [(0, 2048), (2048, 2048)]⟩ := by
    decide +kernel
  have h3 : WalSys.checkpoint ⟨⟨8191, 0, 0, 2048, 2048, 4096⟩, 0, [(0, 2048), (2048, 2048)]⟩ 1 =
      some (walIdle 8191 4096 2048) := by
    decide +kernel
  exact .checkpoint 1 (.commit 2048 (.commit 2048 (.format walMinCapacity walMinCapacity rfl) h1)
    h2) h3

/-- Two transactions committed after the first checkpoint of the smallest WAL, the second
ending the lap, so that the unused ID is the first of sequence `1`: the window holds their 4095
blocks, and their IDs compare in the order they were issued. -/
theorem walReachable_window_lap_end :
    let s : WalSys := ⟨⟨8191, 2048, 2048, 6143, 2048, seqoff2id 1 0⟩, 4096,
      [(4096, 2047), (6143, 2048)]⟩
    8191 + walMaxTransBlks < 2 ^ 32 ∧ WalReachable 8191 s ∧ s.liveBlks ≤ 8191 ∧
      walUsedBlks s.si = some 4095 ∧ walIdCmp s.si 4096 6143 = .lt := by
  intro s
  have hfit : 8191 + walMaxTransBlks < 2 ^ 32 := by decide
  have h1 : (walIdle 8191 4096 2048).commit 2047 =
      some ⟨⟨8191, 2048, 2048, 4096, 2047, 6143⟩, 4096, [(4096, 2047)]⟩ := by
    decide +kernel
  have h2 : WalSys.commit ⟨⟨8191, 2048, 2048, 4096, 2047, 6143⟩, 4096, [(4096, 2047)]⟩ 2048 =
      some s := by
    decide +kernel
  have hs : WalReachable 8191 s := .commit 2048 (.commit 2047 walIdle_first h1) h2
  have hstr : ¬walStraddles s.si := by decide +kernel
  obtain ⟨hle, hused, hcmp⟩ := walReachable_window hfit hs
  refine ⟨hfit, hs, hle, ?_, hcmp hstr 0 1 4096 6143 2047 2048 (by decide) rfl rfl⟩
  rw [hused, if_neg hstr]
  rfl

/-- One lap of the smallest WAL, in four transactions each checkpointed after its commit, while
the sequence stays below `WAL_ID_SEQ_MAX`. -/
theorem walIdle_lap {p : ℕ} (hp : 2048 ≤ p) (hlap : p + 8191 < 8191 * walIdSeqMax)
    (h : WalReachable 8191 (walIdle 8191 p 2048)) :
    WalReachable 8191 (walIdle 8191 (p + 8191) 2048) := by
  have hfit : 8191 + walMaxTransBlks < 2 ^ 32 := by decide
  have h1 := walIdle_step hfit h (by decide) hp (show 0 < 2047 by decide) (by decide)
    (by omega)
  have h2 := walIdle_step hfit h1 (by decide) (by omega) (show 0 < 2048 by decide) (by decide)
    (by omega)
  have h3 := walIdle_step hfit h2 (by decide) (by omega) (show 0 < 2048 by decide) (by decide)
    (by omega)
  have h4 := walIdle_step hfit h3 (by decide) (by omega) (show 0 < 2048 by decide) (by decide)
    (by omega)
  rwa [show p + 2047 + 2048 + 2048 + 2048 = p + 8191 by omega] at h4

/-- Every lap up to the one before the last sequence's. -/
theorem walIdle_laps :
    ∀ n, n + 1 ≤ walIdSeqMax → WalReachable 8191 (walIdle 8191 (8191 * n + 4096) 2048)
  | 0, _ => walIdle_first
  | n + 1, hn => by
    have h := walIdle_lap (by omega) (by omega) (walIdle_laps n (by omega))
    rwa [show 8191 * n + 4096 + 8191 = 8191 * (n + 1) + 4096 by ring] at h

/-- **`wal_used_blks` fails its assertion in a reachable state.** On the smallest WAL, 8191
blocks, laps of four transactions run up to the lap before the last sequence's. There a
transaction of 2048 blocks at offset 6144 ends at offset 1 of the last sequence's lap, and is
checkpointed. Four transactions of 2048, 2048, 2047 and 2047 blocks follow, each let through by
`reserve_allowed` with 2048 blocks or more free; the last one ends the lap, and the unused ID
wraps to sequence `0`, offset `0`. The checkpoint ID's sequence is `WAL_ID_SEQ_MAX - 1`, so no
wrap rule applies: the next checkpoint ID, of sequence `WAL_ID_SEQ_MAX`, compares above the unused
ID, and `wal_used_blks` fails its `D_ASSERTF`, which the next reservation reaches through
`reserve_allowed`. -/
theorem walUsedBlks_straddle_asserts :
    let s : WalSys := ⟨⟨8191, seqoff2id (walIdSeqMax - 1) 6144, 2048, seqoff2id walIdSeqMax 6144,
      2047, seqoff2id 0 0⟩, 8191 * walIdSeqMax + 1,
      [(seqoff2id walIdSeqMax 1, 2048), (seqoff2id walIdSeqMax 2049, 2048),
        (seqoff2id walIdSeqMax 4097, 2047), (seqoff2id walIdSeqMax 6144, 2047)]⟩
    WalReachable 8191 s ∧ walStraddles s.si ∧ s.liveBlks = 8190 ∧
      walIdCmp s.si (walNextId s.si s.si.ckpId s.si.ckpBlks) s.si.unusedId = .gt ∧
      walUsedBlks s.si = none ∧ reserveAllowed s.si = none := by
  intro s
  have hfit : 8191 + walMaxTransBlks < 2 ^ 32 := by decide
  -- the quiet log at offset 6144 of the lap before the last sequence's
  have hq := walIdle_lap (by decide) (by decide) (walIdle_laps (walIdSeqMax - 2) (by decide))
  have hq' := walIdle_step hfit hq (by decide) (by decide) (show 0 < 2048 by decide) (by decide)
    (by decide)
  rw [show 8191 * (walIdSeqMax - 2) + 4096 + 8191 + 2048 = 8191 * (walIdSeqMax - 1) + 4096 + 2048
    by decide] at hq'
  -- the transaction that ends in the last sequence's lap, and the four after it
  let x1 : WalSys := ⟨⟨8191, seqoff2id (walIdSeqMax - 1) 4096, 2048,
    seqoff2id (walIdSeqMax - 1) 6144, 2048, seqoff2id walIdSeqMax 1⟩,
    8191 * (walIdSeqMax - 1) + 4096 + 2048, [(seqoff2id (walIdSeqMax - 1) 6144, 2048)]⟩
  let x2 : WalSys := ⟨⟨8191, seqoff2id (walIdSeqMax - 1) 6144, 2048,
    seqoff2id (walIdSeqMax - 1) 6144, 2048, seqoff2id walIdSeqMax 1⟩, 8191 * walIdSeqMax + 1, []⟩
  let x3 : WalSys := ⟨⟨8191, seqoff2id (walIdSeqMax - 1) 6144, 2048, seqoff2id walIdSeqMax 1, 2048,
    seqoff2id walIdSeqMax 2049⟩, 8191 * walIdSeqMax + 1, [(seqoff2id walIdSeqMax 1, 2048)]⟩
  let x4 : WalSys := ⟨⟨8191, seqoff2id (walIdSeqMax - 1) 6144, 2048, seqoff2id walIdSeqMax 2049,
    2048, seqoff2id walIdSeqMax 4097⟩, 8191 * walIdSeqMax + 1,
    [(seqoff2id walIdSeqMax 1, 2048), (seqoff2id walIdSeqMax 2049, 2048)]⟩
  let x5 : WalSys := ⟨⟨8191, seqoff2id (walIdSeqMax - 1) 6144, 2048, seqoff2id walIdSeqMax 4097,
    2047, seqoff2id walIdSeqMax 6144⟩, 8191 * walIdSeqMax + 1,
    [(seqoff2id walIdSeqMax 1, 2048), (seqoff2id walIdSeqMax 2049, 2048),
      (seqoff2id walIdSeqMax 4097, 2047)]⟩
  have h1 : (walIdle 8191 (8191 * (walIdSeqMax - 1) + 4096 + 2048) 2048).commit 2048 = some x1 := by
    decide +kernel
  have h2 : x1.checkpoint 0 = some x2 := by decide +kernel
  have h3 : x2.commit 2048 = some x3 := by decide +kernel
  have h4 : x3.commit 2048 = some x4 := by decide +kernel
  have h5 : x4.commit 2047 = some x5 := by decide +kernel
  have h6 : x5.commit 2047 = some s := by decide +kernel
  have r2 : WalReachable 8191 x2 := .checkpoint 0 (.commit 2048 hq' h1) h2
  have r6 : WalReachable 8191 s :=
    .commit 2047 (.commit 2047 (.commit 2048 (.commit 2048 r2 h3) h4) h5) h6
  exact ⟨r6, by decide +kernel, by decide +kernel, by decide +kernel, by decide +kernel,
    by decide +kernel⟩

end Daos.Bio

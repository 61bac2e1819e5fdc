import Daos.Lib.Bytes

/-!
# Iovs in a byte stream, and KVS paths (`rdb/rdb_util.c`, `rdb/rdb_path.c`)

`rdb_encode_iov` writes an iov as its length, its bytes and its length again, each length an
`rdb_iov_size_t` of four bytes. The two lengths let `rdb_decode_iov` read an iov from the head of
a stream and `rdb_decode_iov_backward` read one from its tail. A KVS path is such a stream:
`rdb_path_push` appends a key's encoding, `rdb_path_pop` takes the last key off with the backward
decoder, and `rdb_path_iterate` walks the keys with the forward one.

* Each decoder accepts exactly an encoding, followed (forward) or preceded (backward) by any
  bytes, and fails with `-DER_IO` on everything else (`rdbDecodeIov_eq_ok`,
  `rdbDecodeIovBackward_eq_ok`, `rdbDecodeIov_error`). So what it consumes is never more than it
  was given, and the two decoders read the same iov at every boundary of a concatenation of
  encodings.
* A path is modelled with its push, pop and iteration; a push that would take it past
  `rdb_iov_max` bytes fails with `-DER_OVERFLOW`.

Allocations are taken to succeed. An iov's `iov_buf_len` is not modelled, nor the assertions on
it.
-/

namespace Daos.Rdb

open Daos.Bytes

/-! ## Error codes -/

/-- `DER_NONEXIST`. -/
def derNonexist : ℤ := 1005

/-- `DER_OVERFLOW`. -/
def derOverflow : ℤ := 1017

/-- `DER_IO`. -/
def derIo : ℤ := 2001

/-! ## Iovs in a byte stream -/

/-- `rdb_iov_max`: `(rdb_iov_size_t)-1`, the largest length a size field holds. -/
def rdbIovMax : ℕ := 2 ^ 32 - 1

/-- The stream form of an iov: its length, its bytes and its length again. -/
def rdbIovBytes (iov : List UInt8) : List UInt8 :=
  leBytes 4 iov.length ++ iov ++ leBytes 4 iov.length

/-- `rdb_encode_iov`; `none` where it asserts that the length fits its size field. -/
def rdbEncodeIov (iov : List UInt8) : Option (List UInt8) :=
  if iov.length ≤ rdbIovMax then some (rdbIovBytes iov) else none

/-- `rdb_decode_iov` on the `len` bytes `buf`: the iov at their head and the number of bytes it
takes, or `-DER_IO`. -/
def rdbDecodeIov (buf : List UInt8) : Except ℤ (List UInt8 × ℕ) :=
  -- iov_len (head)
  if buf.length < 4 then .error (-derIo) else
  let len := leValue (buf.take 4)
  if len > rdbIovMax then .error (-derIo) else
  -- iov_buf, looked at only for a non-empty iov
  if len ≠ 0 ∧ 4 + len > buf.length then .error (-derIo) else
  -- iov_len (tail)
  if 4 + len + 4 > buf.length then .error (-derIo) else
  if leValue ((buf.drop (4 + len)).take 4) ≠ len then .error (-derIo) else
  .ok ((buf.drop 4).take len, 4 + len + 4)

/-- `rdb_decode_iov_backward` on the `len` bytes `buf` that end at `buf_end`: the iov at their
tail and the number of bytes it takes, or `-DER_IO`. -/
def rdbDecodeIovBackward (buf : List UInt8) : Except ℤ (List UInt8 × ℕ) :=
  -- iov_len (tail)
  if buf.length < 4 then .error (-derIo) else
  let p := buf.length - 4
  let len := leValue ((buf.drop p).take 4)
  if len > rdbIovMax then .error (-derIo) else
  -- iov_buf
  if len ≠ 0 ∧ p < len then .error (-derIo) else
  -- iov_len (head)
  if p - len < 4 then .error (-derIo) else
  if leValue ((buf.drop (p - len - 4)).take 4) ≠ len then .error (-derIo) else
  .ok ((buf.drop (p - len)).take len, buf.length - (p - len - 4))

@[simp] theorem length_rdbIovBytes (iov : List UInt8) : (rdbIovBytes iov).length = iov.length + 8 := by
  simp only [rdbIovBytes, List.length_append, length_leBytes]
  omega

theorem rdbEncodeIov_of_le {iov : List UInt8} (h : iov.length ≤ rdbIovMax) :
    rdbEncodeIov iov = some (rdbIovBytes iov) := if_pos h

/-- A length that fits its size field reads back from its four bytes. -/
theorem leValue_leBytes_of_le {n : ℕ} (h : n ≤ rdbIovMax) : leValue (leBytes 4 n) = n := by
  rw [leValue_leBytes, Nat.mod_eq_of_lt]
  unfold rdbIovMax at h
  omega

/-- Four consecutive slices of a list and the rest make up the list. -/
theorem eq_slices (l : List UInt8) (a b c d : ℕ) :
    l = l.take a ++ (l.drop a).take b ++ (l.drop (a + b)).take c ++ (l.drop (a + b + c)).take d ++
      l.drop (a + b + c + d) := by
  have h₁ := List.take_append_drop a l
  have h₂ := List.take_append_drop b (l.drop a)
  have h₃ := List.take_append_drop c (l.drop (a + b))
  have h₄ := List.take_append_drop d (l.drop (a + b + c))
  rw [List.drop_drop] at h₂ h₃ h₄
  simp only [List.append_assoc]
  rw [h₄, h₃, h₂, h₁]

/-- The four bytes of a length field are the little-endian bytes of the length they hold. -/
theorem eq_leBytes_of_leValue {bs : List UInt8} {n : ℕ} (hl : bs.length = 4)
    (hv : leValue bs = n) : bs = leBytes 4 n := by
  rw [← hv, ← hl, leBytes_leValue]

/-- An encoding followed by any bytes: its fields where the forward decoder reads them. -/
theorem rdbIovBytes_append_fields (v post : List UInt8) :
    (rdbIovBytes v ++ post).take 4 = leBytes 4 v.length ∧
      ((rdbIovBytes v ++ post).drop 4).take v.length = v ∧
      ((rdbIovBytes v ++ post).drop (4 + v.length)).take 4 = leBytes 4 v.length ∧
      (rdbIovBytes v ++ post).length = v.length + 8 + post.length := by
  simp only [rdbIovBytes, List.append_assoc, List.length_append, length_leBytes]
  refine ⟨List.take_left' (length_leBytes 4 _), ?_, ?_, by omega⟩
  · rw [List.drop_left' (length_leBytes 4 _), List.take_left' rfl]
  · rw [← List.append_assoc, List.drop_left' (by rw [List.length_append, length_leBytes]),
      List.take_left' (length_leBytes 4 _)]

/-- Any bytes followed by an encoding: its fields where the backward decoder reads them. -/
theorem append_rdbIovBytes_fields (pre v : List UInt8) :
    ((pre ++ rdbIovBytes v).drop (pre.length + 4 + v.length)).take 4 = leBytes 4 v.length ∧
      ((pre ++ rdbIovBytes v).drop (pre.length + 4)).take v.length = v ∧
      ((pre ++ rdbIovBytes v).drop pre.length).take 4 = leBytes 4 v.length ∧
      (pre ++ rdbIovBytes v).length = pre.length + v.length + 8 := by
  have h := rdbIovBytes_append_fields v []
  rw [List.append_nil] at h
  refine ⟨?_, ?_, ?_, by rw [List.length_append, length_rdbIovBytes]; omega⟩
  · rw [Nat.add_assoc, ← List.drop_drop, List.drop_left]
    exact h.2.2.1
  · rw [← List.drop_drop, List.drop_left]
    exact h.2.1
  · rw [List.drop_left]
    exact h.1

/-- `rdb_decode_iov` accepts exactly an encoding followed by any bytes, and consumes the
encoding. -/
theorem rdbDecodeIov_eq_ok {buf v : List UInt8} {n : ℕ} :
    rdbDecodeIov buf = .ok (v, n) ↔
      ∃ post, buf = rdbIovBytes v ++ post ∧ n = v.length + 8 ∧ v.length ≤ rdbIovMax := by
  constructor
  · intro h
    unfold rdbDecodeIov at h
    dsimp only at h
    split_ifs at h with h₁ h₂ h₃ h₄ h₅
    simp only [Except.ok.injEq, Prod.mk.injEq] at h
    obtain ⟨rfl, rfl⟩ := h
    -- the iov's length `len` is what both size fields hold
    set len := leValue (buf.take 4) with hlen
    have hv : ((buf.drop 4).take len).length = len := by
      rw [List.length_take, List.length_drop]
      omega
    have hhead : buf.take 4 = leBytes 4 len :=
      eq_leBytes_of_leValue (by rw [List.length_take]; omega) hlen.symm
    have htail : (buf.drop (4 + len)).take 4 = leBytes 4 len :=
      eq_leBytes_of_leValue (by rw [List.length_take, List.length_drop]; omega)
        (not_not.mp h₅)
    refine ⟨buf.drop (4 + len + 4), ?_, by omega, by omega⟩
    conv_lhs => rw [eq_slices buf 4 len 4 0]
    rw [hhead, htail, rdbIovBytes, hv, List.take_zero, List.append_nil, Nat.add_zero]
  · rintro ⟨post, rfl, rfl, hle⟩
    obtain ⟨hhead, hdata, htail, hlen⟩ := rdbIovBytes_append_fields v post
    unfold rdbDecodeIov
    dsimp only
    rw [hlen, hhead, leValue_leBytes_of_le hle, if_neg (by omega), if_neg (by omega),
      if_neg (by omega), if_neg (by omega), htail, leValue_leBytes_of_le hle,
      if_neg (not_not.mpr rfl), hdata, show 4 + v.length + 4 = v.length + 8 by omega]

/-- `rdb_decode_iov_backward` accepts exactly an encoding preceded by any bytes, and consumes
the encoding. -/
theorem rdbDecodeIovBackward_eq_ok {buf v : List UInt8} {n : ℕ} :
    rdbDecodeIovBackward buf = .ok (v, n) ↔
      ∃ pre, buf = pre ++ rdbIovBytes v ∧ n = v.length + 8 ∧ v.length ≤ rdbIovMax := by
  constructor
  · intro h
    unfold rdbDecodeIovBackward at h
    dsimp only at h
    split_ifs at h with h₁ h₂ h₃ h₄ h₅
    simp only [Except.ok.injEq, Prod.mk.injEq] at h
    obtain ⟨rfl, rfl⟩ := h
    set p := buf.length - 4 with hp
    set len := leValue ((buf.drop p).take 4) with hlen
    have hlp : len ≤ p := by omega
    have hv : ((buf.drop (p - len)).take len).length = len := by
      rw [List.length_take, List.length_drop]
      omega
    have hhead : (buf.drop (p - len - 4)).take 4 = leBytes 4 len :=
      eq_leBytes_of_leValue (by rw [List.length_take, List.length_drop]; omega) (not_not.mp h₅)
    have htail : (buf.drop p).take 4 = leBytes 4 len :=
      eq_leBytes_of_leValue (by rw [List.length_take, List.length_drop]; omega) hlen.symm
    refine ⟨buf.take (p - len - 4), ?_, by omega, by omega⟩
    have h₄₄ : p - len - 4 + 4 = p - len := by omega
    have hpl : p - len + len = p := by omega
    have hend : buf.drop (p + 4) = [] := List.drop_of_length_le (by omega)
    conv_lhs => rw [eq_slices buf (p - len - 4) 4 len 4]
    rw [h₄₄, hpl, hend, List.append_nil, hhead, htail, rdbIovBytes, hv]
    simp only [List.append_assoc]
  · rintro ⟨pre, rfl, rfl, hle⟩
    obtain ⟨htail, hdata, hhead, hlen⟩ := append_rdbIovBytes_fields pre v
    have hp : pre.length + v.length + 8 - 4 = pre.length + 4 + v.length := by omega
    have hq : pre.length + 4 + v.length - v.length = pre.length + 4 := by omega
    unfold rdbDecodeIovBackward
    dsimp only
    rw [hlen, hp, htail, leValue_leBytes_of_le hle, if_neg (by omega), if_neg (by omega),
      if_neg (by omega), hq, if_neg (by omega), Nat.add_sub_cancel, hhead, leValue_leBytes_of_le hle,
      if_neg (not_not.mpr rfl), hdata, show pre.length + v.length + 8 - pre.length = v.length + 8
        by omega]

/-- The forward decoder reads an encoding back, whatever follows it. -/
theorem rdbDecodeIov_bytes {v : List UInt8} (h : v.length ≤ rdbIovMax) (post : List UInt8) :
    rdbDecodeIov (rdbIovBytes v ++ post) = .ok (v, v.length + 8) :=
  rdbDecodeIov_eq_ok.mpr ⟨post, rfl, rfl, h⟩

/-- Both decoders fail only with `-DER_IO`. -/
theorem rdbDecodeIov_error {buf : List UInt8} {rc : ℤ} (h : rdbDecodeIov buf = .error rc) :
    rc = -derIo := by
  unfold rdbDecodeIov at h
  dsimp only at h
  split_ifs at h <;> simp_all

theorem rdbDecodeIovBackward_error {buf : List UInt8} {rc : ℤ}
    (h : rdbDecodeIovBackward buf = .error rc) : rc = -derIo := by
  unfold rdbDecodeIovBackward at h
  dsimp only at h
  split_ifs at h <;> simp_all

/-- On any bytes, each decoder fails with `-DER_IO` or consumes no more than it was given. -/
theorem rdbDecodeIov_result (buf : List UInt8) :
    rdbDecodeIov buf = .error (-derIo) ∨
      ∃ v n, rdbDecodeIov buf = .ok (v, n) ∧ n ≤ buf.length := by
  rcases h : rdbDecodeIov buf with rc | ⟨v, n⟩
  · exact .inl (by rw [rdbDecodeIov_error h])
  · obtain ⟨post, rfl, rfl, -⟩ := rdbDecodeIov_eq_ok.mp h
    refine .inr ⟨v, _, rfl, ?_⟩
    rw [List.length_append, length_rdbIovBytes]
    omega

theorem rdbDecodeIovBackward_result (buf : List UInt8) :
    rdbDecodeIovBackward buf = .error (-derIo) ∨
      ∃ v n, rdbDecodeIovBackward buf = .ok (v, n) ∧ n ≤ buf.length := by
  rcases h : rdbDecodeIovBackward buf with rc | ⟨v, n⟩
  · exact .inl (by rw [rdbDecodeIovBackward_error h])
  · obtain ⟨pre, rfl, rfl, -⟩ := rdbDecodeIovBackward_eq_ok.mp h
    refine .inr ⟨v, _, rfl, ?_⟩
    rw [List.length_append, length_rdbIovBytes]
    omega

/-! ## KVS paths -/

/-- An `rdb_path_t`: the `iov_len` bytes that hold its keys, and the size `iov_buf_len` of its
buffer. -/
structure RdbPath where
  buf : List UInt8
  bufLen : ℕ
deriving DecidableEq, Repr

/-- What `rdb_path_assert` checks. -/
def RdbPath.Asserted (path : RdbPath) : Prop :=
  0 < path.bufLen ∧ path.bufLen ≤ rdbIovMax ∧ path.buf.length ≤ path.bufLen

instance (path : RdbPath) : Decidable path.Asserted :=
  inferInstanceAs (Decidable (_ ∧ _ ∧ _))

/-- `rdb_path_init`: no key, in a buffer of 128 bytes. -/
def rdbPathInit : RdbPath := ⟨[], 128⟩

/-- The loop of `rdb_path_push` that sizes the new buffer: twice the size, capped at
`rdb_iov_max`, until `need` bytes fit, and `-DER_OVERFLOW` once the size is at the cap. -/
def rdbPathGrow (need bufLen : ℕ) (hpos : 0 < bufLen) (hle : bufLen ≤ rdbIovMax) :
    Except ℤ ℕ :=
  if bufLen = rdbIovMax then .error (-derOverflow)
  else if min (bufLen * 2) rdbIovMax < need then
    rdbPathGrow need (min (bufLen * 2) rdbIovMax) (by omega) (Nat.min_le_right _ _)
  else .ok (min (bufLen * 2) rdbIovMax)
termination_by rdbIovMax - bufLen
decreasing_by omega

/-- `rdb_path_push`: the key's encoding appended, in a larger buffer if it does not fit; `none`
where the code asserts. -/
def rdbPathPush (path : RdbPath) (key : List UInt8) : Option (ℤ × RdbPath) :=
  if h : path.Asserted then
    match rdbEncodeIov key with
    | none => none
    | some e =>
      if path.buf.length + e.length > path.bufLen then
        match rdbPathGrow (path.buf.length + e.length) path.bufLen h.1 h.2.1 with
        | .error rc => some (rc, path)
        | .ok bufLen => some (0, ⟨path.buf ++ e, bufLen⟩)
      else some (0, ⟨path.buf ++ e, path.bufLen⟩)
  else none

/-- `rdb_path_pop`: the last key's bytes cut off, found with the backward decoder;
`-DER_NONEXIST` on an empty path, and `none` where the code asserts. -/
def rdbPathPop (path : RdbPath) : Option (ℤ × RdbPath) :=
  if path.Asserted then
    if path.buf.length = 0 then some (-derNonexist, path)
    else
      match rdbDecodeIovBackward path.buf with
      | .ok (_, n) =>
        if 0 < n then some (0, ⟨path.buf.take (path.buf.length - n), path.bufLen⟩) else none
      | .error _ => none
  else none

-- the match hypothesis `hd` serves the termination proof only
set_option linter.unusedVariables false in
/-- The loop of `rdb_path_iterate` over the path's bytes from `p` on: each key decoded is passed
to `cb`; a `1` from it ends the walk with `0`, any other non-zero code ends it with that code. -/
def rdbPathIterateFrom {σ : Type} (cb : σ → List UInt8 → ℤ × σ) (s : σ) (rest : List UInt8) :
    ℤ × σ :=
  if rest = [] then (0, s)
  else
    match hd : rdbDecodeIov rest with
    | .error rc => (rc, s)
    | .ok (key, n) =>
      let r := cb s key
      if r.1 ≠ 0 then (if r.1 = 1 then 0 else r.1, r.2)
      else rdbPathIterateFrom cb r.2 (rest.drop n)
termination_by rest.length
decreasing_by
  obtain ⟨post, rfl, rfl, -⟩ := rdbDecodeIov_eq_ok.mp hd
  simp only [List.length_drop, List.length_append, length_rdbIovBytes]
  omega

/-- `rdb_path_iterate`; `none` where the code asserts. -/
def rdbPathIterate {σ : Type} (cb : σ → List UInt8 → ℤ × σ) (s : σ) (path : RdbPath) :
    Option (ℤ × σ) :=
  if path.Asserted then some (rdbPathIterateFrom cb s path.buf) else none

end Daos.Rdb

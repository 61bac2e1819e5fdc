import Daos.Object.EcRecx
import Daos.Lib.Segments

/-!
# Splitting an array I/O into dkey I/Os (`client/array/dc_array.c`)

`dc_array_io` turns the ranges of a `daos_array_iod_t` into one object I/O per dkey: array
index `i` lives in dkey `i / chunk_size + 1` at record `i % chunk_size` (`compute_dkey`).
Consecutive ranges in the same dkey are merged into one I/O; a range that crosses the end of
a dkey is split. The user's scatter-gather list is cut into one sgl per dkey I/O by
`create_sgl`, which walks the user iovs with a cursor `(cur_i, cur_off)`.

**What is modelled.** The read and write paths (the punch path passes no sgl and is not
modelled); the error returns before any I/O is made, the assertions, and division by a zero
chunk or cell size as a stop of its own. Allocation failures and the task machinery are left
out: the model returns the dkey I/Os in the order the loop creates them. Counts are in `ℕ`.
The outer loop runs on fuel, the weight of the ranges, which each round lowers.

**What is proved.** When every user iov holds whole cells, the dkey I/Os are exact
(`dcArrayIo_exact_of_aligned`): their recxs stay inside their dkey and enumerate the
requested indices in request order, each sgl holds its records' bytes, and the sgls
concatenate to the user buffer. With iovs that are not multiples of the cell size,
`create_sgl` counts `iov_len / cell_size` records for a fragment it takes whole, so a dkey
I/O can receive more bytes than its records hold and a later one fewer, up to an
assertion when the user iovs run out (`dcArrayIo_unaligned_iovs`).
-/

namespace Daos.Client

open Daos.Object Segments

/-- `daos_range_t`. -/
structure DaosRange where
  rgIdx : ℕ
  rgLen : ℕ
deriving DecidableEq, Repr

/-- The fields of `struct dc_array` that the I/O path reads. -/
structure DcArray where
  cellSize : ℕ
  chunkSize : ℕ
deriving DecidableEq, Repr

/-- A `d_iov_t` of a dkey I/O's sgl: `iovLen` bytes from byte `off` of user iov `buf`. -/
structure DIov where
  buf : ℕ
  off : ℕ
  iovLen : ℕ
deriving DecidableEq, Repr

/-- The position in the user sgl: byte `curOff` of iov `curI`. -/
structure SglCursor where
  curI : ℕ
  curOff : ℕ
deriving DecidableEq, Repr

/-- `struct io_params` as `dc_array_io` fills it for one dkey. -/
structure ArrayDkeyIo where
  dkeyVal : ℕ
  recxs : List DaosRecx
  sgl : List DIov
  numRecords : ℕ
deriving DecidableEq, Repr

/-- Where `dc_array_io` stops without making its I/Os. -/
inductive ArrayStop where
  /-- `-DER_INVAL` -/
  | inval
  /-- a `D_ASSERT` fails -/
  | assert
  /-- an integer division by a zero chunk or cell size -/
  | divZero
  /-- the model's outer loop ran out of fuel -/
  | fuel
deriving DecidableEq, Repr

/-- The records a list of ranges names (`rgs_len` of `io_extent_same`). -/
def rgsLen (rgs : List DaosRange) : ℕ :=
  (rgs.map (·.rgLen)).sum

/-- `io_extent_same`: whether the ranges and the user sgl have the same size, and the number
of records the ranges name. -/
def ioExtentSame (rgs : List DaosRange) (sgl : List ℕ) (cellSize : ℕ) : Bool × ℕ :=
  (rgsLen rgs * cellSize == sgl.sum, rgsLen rgs)

/-- `compute_dkey`: the records left in the dkey from `arrayIdx` on, the record index in the
dkey, and the dkey. -/
def computeDkey (chunkSize arrayIdx : ℕ) : Except ArrayStop (ℕ × ℕ × ℕ) :=
  if chunkSize = 0 then .error .divZero
  else
    let dkeyVal := arrayIdx / chunkSize
    let dkeyI := dkeyVal * chunkSize
    let recI := arrayIdx - dkeyI
    .ok (chunkSize - recI, recI, dkeyVal + 1)

/-- The `do … while` of `create_sgl`, over the user iovs from the cursor's on (`cur_i` is
`curI`): the iovs taken, and the cursor after them. -/
def createSglLoop (cellSize : ℕ) : List ℕ → ℕ → ℕ → ℕ → Except ArrayStop (List DIov × SglCursor)
  | [], _, _, _ => .error .assert
  | len :: rest, curI, curOff, rem =>
    if cellSize = 0 then .error .divZero
    else if len - curOff ≤ rem * cellSize then
      -- the rest of this user iov is taken whole; it counts as `(len - curOff) / cell_size`
      -- records
      let iov : DIov := ⟨curI, curOff, len - curOff⟩
      let rem' := rem - (len - curOff) / cellSize
      if rem' ≠ 0 ∧ rest ≠ [] then
        (createSglLoop cellSize rest (curI + 1) 0 rem').map fun r => (iov :: r.1, r.2)
      else .ok ([iov], ⟨curI + 1, 0⟩)
    else
      -- the records left end inside this iov: `rem * cell_size / cell_size` is all of them,
      -- so the loop ends here
      .ok ([⟨curI, curOff, rem * cellSize⟩], ⟨curI, curOff + rem * cellSize⟩)

/-- `create_sgl`: the sgl of `numRecords` records from the cursor on, and the cursor after. -/
def createSgl (userSgl : List ℕ) (cellSize numRecords : ℕ) (cur : SglCursor) :
    Except ArrayStop (List DIov × SglCursor) :=
  createSglLoop cellSize (userSgl.drop cur.curI) cur.curI cur.curOff numRecords

/-- The inner `do … while` of `dc_array_io`: the recxs of the I/O on dkey `dkeyVal`, starting
with the range at the head of `pending` (its part not yet taken), whose first record is record
`recordI` of the dkey with `numRecords` records of the dkey from it on. Returns the recxs,
`dkey_records`, and the ranges left with the head's untaken part first. -/
def dkeyIodRecxs (chunkSize dkeyVal : ℕ) :
    List DaosRange → ℕ → ℕ → Except ArrayStop (List DaosRecx × ℕ × List DaosRange)
  | [], _, _ => .ok ([], 0, [])
  | rg :: rest, numRecords, recordI =>
    let recx : DaosRecx := ⟨recordI, if numRecords > rg.rgLen then rg.rgLen else numRecords⟩
    if rg.rgLen > numRecords then
      -- the range crosses the end of the dkey: issue this I/O, keep the range's tail
      .ok ([recx], numRecords, ⟨rg.rgIdx + numRecords, rg.rgLen - numRecords⟩ :: rest)
    else
      match rest with
      | [] => .ok ([recx], rg.rgLen, [])
      | nx :: rest' =>
        if nx.rgLen = numRecords then .ok ([recx], rg.rgLen, nx :: rest')
        else if nx.rgIdx < rg.rgIdx + numRecords ∧
            rg.rgIdx + numRecords - chunkSize ≤ nx.rgIdx then
          -- the next range starts in this dkey and joins this I/O
          match computeDkey chunkSize nx.rgIdx with
          | .error e => .error e
          | .ok (num', recI', dkey') =>
            if dkey' = dkeyVal then
              (dkeyIodRecxs chunkSize dkeyVal rest num' recI').map
                fun r => (recx :: r.1, rg.rgLen + r.2.1, r.2.2)
            else .error .assert
        else .ok ([recx], rg.rgLen, nx :: rest')

/-- The user sgl itself, when `dc_array_io` passes it on unsplit. -/
def userIovs (userSgl : List ℕ) : List DIov :=
  userSgl.mapIdx fun j len => ⟨j, 0, len⟩

/-- The sgl of one dkey I/O of `dkeyRecords` records: the user sgl itself when one range and
one iov make the whole I/O, otherwise `create_sgl` from the cursor. -/
def dkeyIoSgl (rgs : List DaosRange) (userSgl : List ℕ) (cellSize dkeyRecords : ℕ)
    (cur : SglCursor) : Except ArrayStop (List DIov × SglCursor) :=
  if rgs.length = 1 ∧ userSgl.length = 1 ∧ dkeyRecords = rgsLen rgs then
    .ok (userIovs userSgl, cur)
  else createSgl userSgl cellSize dkeyRecords cur

/-- The outer loop of `dc_array_io`: one dkey I/O per turn, skipping empty ranges. -/
def dcArrayIoLoop (array : DcArray) (rgs : List DaosRange) (userSgl : List ℕ) :
    ℕ → List DaosRange → SglCursor → Except ArrayStop (List ArrayDkeyIo)
  | _, [], _ => .ok []
  | 0, _ :: _, _ => .error .fuel
  | fuel + 1, rg :: rest, cur =>
    if rg.rgLen = 0 then dcArrayIoLoop array rgs userSgl fuel rest cur
    else do
      let (numRecords, recordI, dkeyVal) ← computeDkey array.chunkSize rg.rgIdx
      let (recxs, dkeyRecords, pending) ←
        dkeyIodRecxs array.chunkSize dkeyVal (rg :: rest) numRecords recordI
      let (sgl, cur') ← dkeyIoSgl rgs userSgl array.cellSize dkeyRecords cur
      let ios ← dcArrayIoLoop array rgs userSgl fuel pending cur'
      pure (⟨dkeyVal, recxs, sgl, dkeyRecords⟩ :: ios)

/-- A measure of the ranges left that every turn of the outer loop lowers. -/
def rangesWeight (rgs : List DaosRange) : ℕ :=
  rgsLen rgs + rgs.length

/-- `dc_array_io` on the read and write paths: the dkey I/Os it makes, in creation order. -/
def dcArrayIo (array : DcArray) (rgIod : List DaosRange) (userSgl : Option (List ℕ)) :
    Except ArrayStop (List ArrayDkeyIo) :=
  match userSgl with
  | none => .error .inval
  | some sgl =>
    if (ioExtentSame rgIod sgl array.cellSize).1 then
      dcArrayIoLoop array rgIod sgl (rangesWeight rgIod) rgIod ⟨0, 0⟩
    else .error .inval

/-! ### What a request and a dkey I/O address -/

/-- The array indices a list of ranges names, in order. -/
def requestIndices (rgs : List DaosRange) : List ℕ :=
  rgs.flatMap fun rg => List.range' rg.rgIdx rg.rgLen

/-- The array indices the recxs of an I/O on dkey `dkeyVal` address: record `r` of dkey `d` is
array index `(d - 1) * chunk_size + r`. -/
def recxIndices (chunkSize dkeyVal : ℕ) (recxs : List DaosRecx) : List ℕ :=
  recxs.flatMap fun r => List.range' ((dkeyVal - 1) * chunkSize + r.rxIdx) r.rxNr

/-- The positions in the user buffer that an sgl covers, in order. -/
def sglBytes (userSgl : List ℕ) (sgl : List DIov) : List ℕ :=
  sgl.flatMap fun iov => List.range' (segStart userSgl iov.buf + iov.off) iov.iovLen

/-- The position of a cursor in the user buffer. -/
def SglCursor.pos (userSgl : List ℕ) (cur : SglCursor) : ℕ :=
  segStart userSgl cur.curI + cur.curOff

/-- A cursor `create_sgl` can resume from: on a cell boundary, and inside its iov. -/
structure SglCursor.Valid (cellSize : ℕ) (userSgl : List ℕ) (cur : SglCursor) : Prop where
  dvd_off : cellSize ∣ cur.curOff
  off_le : cur.curOff ≤ ((userSgl.drop cur.curI).head?).getD 0

@[simp]
theorem rgsLen_nil : rgsLen [] = 0 := rfl

@[simp]
theorem rgsLen_cons (rg : DaosRange) (rest : List DaosRange) :
    rgsLen (rg :: rest) = rg.rgLen + rgsLen rest := by
  simp [rgsLen]

@[simp]
theorem requestIndices_nil : requestIndices [] = [] := rfl

@[simp]
theorem requestIndices_cons (rg : DaosRange) (rest : List DaosRange) :
    requestIndices (rg :: rest) = List.range' rg.rgIdx rg.rgLen ++ requestIndices rest := by
  simp [requestIndices]

@[simp]
theorem recxIndices_nil (chunkSize dkeyVal : ℕ) : recxIndices chunkSize dkeyVal [] = [] := rfl

@[simp]
theorem recxIndices_cons (chunkSize dkeyVal : ℕ) (r : DaosRecx) (rest : List DaosRecx) :
    recxIndices chunkSize dkeyVal (r :: rest) =
      List.range' ((dkeyVal - 1) * chunkSize + r.rxIdx) r.rxNr ++
        recxIndices chunkSize dkeyVal rest := by
  simp [recxIndices]

@[simp]
theorem sglBytes_nil (userSgl : List ℕ) : sglBytes userSgl [] = [] := rfl

@[simp]
theorem sglBytes_cons (userSgl : List ℕ) (iov : DIov) (rest : List DIov) :
    sglBytes userSgl (iov :: rest) =
      List.range' (segStart userSgl iov.buf + iov.off) iov.iovLen ++ sglBytes userSgl rest := by
  simp [sglBytes]

/-- An sgl covers as many positions as its iovs hold bytes. -/
theorem sglBytes_length (userSgl : List ℕ) (sgl : List DIov) :
    (sglBytes userSgl sgl).length = (sgl.map (·.iovLen)).sum := by
  induction sgl with
  | nil => rfl
  | cons iov rest ih => simp [ih]

/-! ### `compute_dkey` -/

theorem computeDkey_ok {chunkSize : ℕ} (h : 0 < chunkSize) (arrayIdx : ℕ) :
    computeDkey chunkSize arrayIdx =
      .ok (chunkSize - arrayIdx % chunkSize, arrayIdx % chunkSize, arrayIdx / chunkSize + 1) := by
  have hrec : arrayIdx - arrayIdx / chunkSize * chunkSize = arrayIdx % chunkSize := by
    rw [Nat.mod_def, Nat.mul_comm]
  simp only [computeDkey, if_neg (Nat.pos_iff_ne_zero.mp h), hrec]

section ComputeDkey

variable {chunkSize arrayIdx num recI d : ℕ}

theorem computeDkey_eq_ok (h : computeDkey chunkSize arrayIdx = .ok (num, recI, d)) :
    0 < chunkSize ∧ num = chunkSize - arrayIdx % chunkSize ∧ recI = arrayIdx % chunkSize ∧
      d = arrayIdx / chunkSize + 1 := by
  rcases Nat.eq_zero_or_pos chunkSize with h0 | hpos
  · simp [computeDkey, h0] at h
  · rw [computeDkey_ok hpos] at h
    simp only [Except.ok.injEq, Prod.mk.injEq] at h
    exact ⟨hpos, h.1.symm, h.2.1.symm, h.2.2.symm⟩

/-- Record `recI` of dkey `d` is the index the dkey was computed from, and the dkey holds `num`
records from it on. -/
theorem computeDkey_index (h : computeDkey chunkSize arrayIdx = .ok (num, recI, d)) :
    (d - 1) * chunkSize + recI = arrayIdx ∧ recI + num = chunkSize ∧ 0 < num := by
  obtain ⟨hpos, rfl, rfl, rfl⟩ := computeDkey_eq_ok h
  have hlt := Nat.mod_lt arrayIdx hpos
  refine ⟨?_, by omega, by omega⟩
  rw [Nat.add_sub_cancel, Nat.mul_comm]
  exact Nat.div_add_mod arrayIdx chunkSize

/-- An index between the start of the dkey and its end lies in the same dkey. -/
theorem computeDkey_same (h : computeDkey chunkSize arrayIdx = .ok (num, recI, d)) {idx : ℕ}
    (hlt : idx < arrayIdx + num) (hge : arrayIdx + num - chunkSize ≤ idx) :
    computeDkey chunkSize idx = .ok (chunkSize - idx % chunkSize, idx % chunkSize, d) := by
  obtain ⟨hpos, -, -, hd⟩ := computeDkey_eq_ok h
  obtain ⟨hidx, hsum, -⟩ := computeDkey_index h
  have hdiv : idx / chunkSize = d - 1 := by
    apply Nat.div_eq_of_lt_le
    · omega
    · rw [Nat.add_mul, Nat.one_mul]
      omega
  rw [computeDkey_ok hpos, hdiv, hd, Nat.add_sub_cancel]

end ComputeDkey

/-! ### The recxs of one dkey I/O -/

/-- What the recxs of one dkey I/O do with the ranges `rg :: rest` they start from: each stays
inside the dkey, together with the ranges left they name the same indices in the same order,
they take `n` records, at least one when the head range has one, and leave less to do. -/
structure DkeyRecxsSpec (chunkSize dkeyVal : ℕ) (rg : DaosRange) (rest : List DaosRange)
    (recxs : List DaosRecx) (n : ℕ) (pending : List DaosRange) : Prop where
  recx_le : ∀ r ∈ recxs, r.rxIdx + r.rxNr ≤ chunkSize
  indices : recxIndices chunkSize dkeyVal recxs ++ requestIndices pending =
    requestIndices (rg :: rest)
  records : n + rgsLen pending = rgsLen (rg :: rest)
  weight : rangesWeight pending < rangesWeight (rg :: rest)
  pos : 0 < rg.rgLen → 0 < n

namespace DkeyRecxsSpec

variable {chunkSize d num recI : ℕ} {rg : DaosRange}
  (hkey : computeDkey chunkSize rg.rgIdx = .ok (num, recI, d))
include hkey

/-- A range that crosses the end of the dkey gives the dkey its first `num` records. -/
theorem cross (rest : List DaosRange) (h : num < rg.rgLen) :
    DkeyRecxsSpec chunkSize d rg rest [⟨recI, num⟩] num
      (⟨rg.rgIdx + num, rg.rgLen - num⟩ :: rest) := by
  obtain ⟨hidx, hsum, hnum⟩ := computeDkey_index hkey
  refine ⟨?_, ?_, ?_, ?_, fun _ => hnum⟩
  · intro r hr
    rw [List.mem_singleton.mp hr]
    exact hsum.le
  · rw [recxIndices_cons, recxIndices_nil, List.append_nil, requestIndices_cons,
      requestIndices_cons, hidx, ← List.append_assoc, List.range'_append_1,
      Nat.add_sub_cancel' h.le]
  · simp only [rgsLen_cons]
    omega
  · simp only [rangesWeight, rgsLen_cons, List.length_cons]
    omega

/-- A range that ends inside the dkey is taken whole. -/
theorem stop (rest : List DaosRange) (h : rg.rgLen ≤ num) :
    DkeyRecxsSpec chunkSize d rg rest [⟨recI, rg.rgLen⟩] rg.rgLen rest := by
  obtain ⟨hidx, hsum, -⟩ := computeDkey_index hkey
  refine ⟨?_, ?_, by rw [rgsLen_cons], ?_, id⟩
  · intro r hr
    rw [List.mem_singleton.mp hr]
    dsimp only
    omega
  · rw [recxIndices_cons, recxIndices_nil, List.append_nil, requestIndices_cons, hidx]
  · simp only [rangesWeight, rgsLen_cons, List.length_cons]
    omega

/-- A range taken whole, followed by the recxs of the next range in the same dkey. -/
theorem join {nx : DaosRange} {recxs : List DaosRecx} {n : ℕ} {rest' pending : List DaosRange}
    (h : rg.rgLen ≤ num) (hnx : DkeyRecxsSpec chunkSize d nx rest' recxs n pending) :
    DkeyRecxsSpec chunkSize d rg (nx :: rest') (⟨recI, rg.rgLen⟩ :: recxs) (rg.rgLen + n)
      pending := by
  obtain ⟨hidx, hsum, -⟩ := computeDkey_index hkey
  refine ⟨?_, ?_, ?_, ?_, fun hlen => by omega⟩
  · intro r hr
    rcases List.mem_cons.mp hr with rfl | hr
    · dsimp only
      omega
    · exact hnx.recx_le r hr
  · rw [recxIndices_cons, requestIndices_cons, hidx, List.append_assoc, hnx.indices]
  · rw [rgsLen_cons, ← hnx.records]
    omega
  · have hw := hnx.weight
    simp only [rangesWeight, rgsLen_cons, List.length_cons] at hw ⊢
    omega

end DkeyRecxsSpec

/-- The recx count `dc_array_io` writes is the smaller of the records left in the dkey and in
the range. -/
theorem recxNr_of_le {num len : ℕ} (h : len ≤ num) : (if num > len then len else num) = len := by
  split_ifs with hgt
  · rfl
  · omega

/-- The inner loop of `dc_array_io` never fails once the first dkey is computed, and its
recxs do what `DkeyRecxsSpec` says. -/
theorem dkeyIodRecxs_spec {chunkSize d : ℕ} (rest : List DaosRange) {rg : DaosRange}
    {num recI : ℕ} (hkey : computeDkey chunkSize rg.rgIdx = .ok (num, recI, d)) :
    ∃ recxs n pending, dkeyIodRecxs chunkSize d (rg :: rest) num recI = .ok (recxs, n, pending) ∧
      DkeyRecxsSpec chunkSize d rg rest recxs n pending := by
  induction rest generalizing rg num recI with
  | nil =>
    by_cases hcross : num < rg.rgLen
    · refine ⟨_, _, _, ?_, DkeyRecxsSpec.cross hkey [] hcross⟩
      rw [dkeyIodRecxs, if_pos hcross, if_neg (Nat.lt_asymm hcross)]
    · refine ⟨_, _, _, ?_, DkeyRecxsSpec.stop hkey [] (Nat.le_of_not_lt hcross)⟩
      rw [dkeyIodRecxs, if_neg hcross, recxNr_of_le (Nat.le_of_not_lt hcross)]
  | cons nx rest' ih =>
    by_cases hcross : num < rg.rgLen
    · refine ⟨_, _, _, ?_, DkeyRecxsSpec.cross hkey _ hcross⟩
      rw [dkeyIodRecxs, if_pos hcross, if_neg (Nat.lt_asymm hcross)]
    have hle := Nat.le_of_not_lt hcross
    rw [dkeyIodRecxs, if_neg hcross, recxNr_of_le hle]
    by_cases hfull : nx.rgLen = num
    · exact ⟨_, _, _, by rw [if_pos hfull], DkeyRecxsSpec.stop hkey _ hle⟩
    rw [if_neg hfull]
    by_cases hsame : nx.rgIdx < rg.rgIdx + num ∧ rg.rgIdx + num - chunkSize ≤ nx.rgIdx
    · -- the next range joins: it lies in the same dkey, so the assertion holds
      have hkey' := computeDkey_same hkey hsame.1 hsame.2
      obtain ⟨recxs, n, pending, heq, hspec⟩ := ih hkey'
      refine ⟨_, _, _, ?_, DkeyRecxsSpec.join hkey hle hspec⟩
      rw [if_pos hsame, hkey']
      dsimp only
      rw [if_pos rfl, heq]
      rfl
    · exact ⟨_, _, _, by rw [if_neg hsame], DkeyRecxsSpec.stop hkey _ hle⟩

/-! ### The sgl of one dkey I/O -/

section Aligned

variable {cellSize : ℕ} {userSgl : List ℕ} (hcell : 0 < cellSize)
  (haligned : ∀ len ∈ userSgl, cellSize ∣ len)
include hcell haligned

/-- When every user iov holds whole cells, `create_sgl` takes exactly the bytes of its
records from the cursor on, provided the buffer has them, and leaves a cursor it can resume
from. -/
theorem createSglLoop_spec (rest : List ℕ) {curI curOff rem : ℕ}
    (hdrop : userSgl.drop curI = rest) (hvalid : (⟨curI, curOff⟩ : SglCursor).Valid cellSize userSgl)
    (hrem : 0 < rem) (hroom : segStart userSgl curI + curOff + rem * cellSize ≤ userSgl.sum) :
    ∃ sgl cur', createSglLoop cellSize rest curI curOff rem = .ok (sgl, cur') ∧
      sglBytes userSgl sgl = List.range' (segStart userSgl curI + curOff) (rem * cellSize) ∧
      cur'.Valid cellSize userSgl ∧
      cur'.pos userSgl = segStart userSgl curI + curOff + rem * cellSize := by
  induction rest generalizing curI curOff rem with
  | nil =>
    -- no iov is left: the cursor stands at the end of the buffer, with no room for a record
    have hend := segStart_of_drop_eq_nil hdrop
    have hoff : curOff = 0 := by simpa [hdrop] using hvalid.off_le
    have hbytes : 0 < rem * cellSize := Nat.mul_pos hrem hcell
    omega
  | cons len rest ih =>
    have hoff : curOff ≤ len := by simpa [hdrop] using hvalid.off_le
    have hleft := segStart_add_le_sum hdrop hoff
    have hnext := segStart_succ_of_drop_eq_cons hdrop
    have hdvd : cellSize ∣ len - curOff := by
      have hmem : len ∈ userSgl.drop curI := by
        rw [hdrop]
        exact List.mem_cons_self
      exact Nat.dvd_sub (haligned len (List.mem_of_mem_drop hmem)) hvalid.dvd_off
    rw [createSglLoop, if_neg (Nat.pos_iff_ne_zero.mp hcell)]
    by_cases hfit : len - curOff ≤ rem * cellSize
    · rw [if_pos hfit]
      dsimp only
      -- the iov's rest holds whole cells, so taking it counts exactly its records
      have hrem' : (rem - (len - curOff) / cellSize) * cellSize = rem * cellSize - (len - curOff) := by
        rw [Nat.sub_mul, Nat.div_mul_cancel hdvd]
      by_cases hmore : rem - (len - curOff) / cellSize ≠ 0 ∧ rest ≠ []
      · rw [if_pos hmore]
        obtain ⟨sgl, cur', heq, hbytes, hvalid', hcur'⟩ :=
          ih (drop_succ_of_drop_eq_cons hdrop) ⟨Nat.dvd_zero cellSize, Nat.zero_le _⟩
            (Nat.pos_of_ne_zero hmore.1) (by rw [hrem', hnext]; omega)
        refine ⟨_, cur', by rw [heq]; rfl, ?_, hvalid', by rw [hcur', hrem', hnext]; omega⟩
        rw [sglBytes_cons, hbytes, hrem', hnext, Nat.add_zero,
          show segStart userSgl curI + len = segStart userSgl curI + curOff + (len - curOff) by omega,
          List.range'_append_1, Nat.add_sub_cancel' hfit]
      · rw [if_neg hmore]
        -- the loop stops: no record is left, or this was the last iov and held them all
        have htake : len - curOff = rem * cellSize := by
          rcases not_and_or.mp hmore with h0 | hnil
          · rw [not_not] at h0
            rw [h0, Nat.zero_mul] at hrem'
            omega
          · rw [not_not] at hnil
            rw [hnil, List.sum_nil] at hleft
            omega
        refine ⟨_, _, rfl, ?_, ⟨Nat.dvd_zero cellSize, Nat.zero_le _⟩, ?_⟩
        · rw [sglBytes_cons, sglBytes_nil, List.append_nil, htake]
        · simp only [SglCursor.pos, hnext]
          omega
    · rw [if_neg hfit]
      refine ⟨_, _, rfl, ?_, ⟨?_, ?_⟩, (Nat.add_assoc _ _ _).symm⟩
      · rw [sglBytes_cons, sglBytes_nil, List.append_nil]
      · exact Nat.dvd_add hvalid.dvd_off (Nat.dvd_mul_left cellSize rem)
      · simp only [hdrop, List.head?_cons, Option.getD_some]
        omega

/-- The sgl of one dkey I/O of `n ≥ 1` records covers the next `n` cells of the buffer. The
user sgl passed on whole covers the whole buffer, and the cursor then stays where it is. -/
theorem dkeyIoSgl_spec {rgs : List DaosRange} (hsame : rgsLen rgs * cellSize = userSgl.sum)
    {n : ℕ} {cur : SglCursor} (hvalid : cur.Valid cellSize userSgl) (hn : 0 < n)
    (hroom : cur.pos userSgl + n * cellSize ≤ userSgl.sum)
    (hfirst : n = rgsLen rgs → cur.pos userSgl = 0) :
    ∃ sgl cur', dkeyIoSgl rgs userSgl cellSize n cur = .ok (sgl, cur') ∧
      sglBytes userSgl sgl = List.range' (cur.pos userSgl) (n * cellSize) ∧
      cur'.Valid cellSize userSgl ∧
      (cur'.pos userSgl = cur.pos userSgl + n * cellSize ∨
        cur.pos userSgl + n * cellSize = userSgl.sum) := by
  unfold dkeyIoSgl
  split_ifs with hdirect
  · -- one range and one iov: the iov is the whole buffer and the I/O the whole request
    obtain ⟨-, hone, hall⟩ := hdirect
    obtain ⟨l0, rfl⟩ := List.length_eq_one_iff.mp hone
    have hpos0 := hfirst hall
    have hl0 : n * cellSize = l0 := by
      rw [hall, hsame, List.sum_singleton]
    refine ⟨_, cur, rfl, ?_, hvalid, .inr (by rw [hpos0, hl0, List.sum_singleton, Nat.zero_add])⟩
    simp [userIovs, sglBytes, hpos0, hl0]
  · obtain ⟨sgl, cur', heq, hbytes, hvalid', hcur'⟩ :=
      createSglLoop_spec hcell haligned (userSgl.drop cur.curI) rfl hvalid hn hroom
    exact ⟨sgl, cur', heq, hbytes, hvalid', .inl hcur'⟩

end Aligned

/-! ### The dkey I/Os of a request -/

/-- The dkey I/Os `ios` serve the ranges `rgs` exactly, reading the user buffer from position
`pos` on: every recx stays inside its dkey, the recxs enumerate the ranges' indices in request
order, each sgl holds the bytes of its records, and the sgls cover the buffer from `pos` on, in
order. -/
structure IosExact (cellSize chunkSize : ℕ) (userSgl : List ℕ) (rgs : List DaosRange) (pos : ℕ)
    (ios : List ArrayDkeyIo) : Prop where
  recx_le : ∀ io ∈ ios, ∀ r ∈ io.recxs, r.rxIdx + r.rxNr ≤ chunkSize
  indices : ios.flatMap (fun io => recxIndices chunkSize io.dkeyVal io.recxs) = requestIndices rgs
  sgl_len : ∀ io ∈ ios, (io.sgl.map (·.iovLen)).sum = io.numRecords * cellSize
  bytes : ios.flatMap (fun io => sglBytes userSgl io.sgl) = List.range' pos (rgsLen rgs * cellSize)

namespace IosExact

variable {cellSize chunkSize : ℕ} {userSgl : List ℕ} {pos : ℕ}

theorem nil : IosExact cellSize chunkSize userSgl [] pos [] :=
  ⟨by simp, rfl, by simp, by simp⟩

/-- An empty range adds no I/O. -/
theorem skip {rg : DaosRange} {rest : List DaosRange} {ios : List ArrayDkeyIo}
    (h : rg.rgLen = 0) (hrest : IosExact cellSize chunkSize userSgl rest pos ios) :
    IosExact cellSize chunkSize userSgl (rg :: rest) pos ios :=
  ⟨hrest.recx_le, by rw [hrest.indices, requestIndices_cons, h, List.range'_zero, List.nil_append],
    hrest.sgl_len, by rw [hrest.bytes, rgsLen_cons, h, Nat.zero_add]⟩

/-- One dkey I/O in front of the I/Os of the ranges it leaves. -/
theorem cons {rg : DaosRange} {rest pending : List DaosRange} {d n pos' : ℕ}
    {recxs : List DaosRecx} {sgl : List DIov} {ios : List ArrayDkeyIo}
    (hspec : DkeyRecxsSpec chunkSize d rg rest recxs n pending)
    (hbytes : sglBytes userSgl sgl = List.range' pos (n * cellSize))
    (hrest : IosExact cellSize chunkSize userSgl pending pos' ios)
    (hpos : rgsLen pending = 0 ∨ pos' = pos + n * cellSize) :
    IosExact cellSize chunkSize userSgl (rg :: rest) pos (⟨d, recxs, sgl, n⟩ :: ios) := by
  refine ⟨?_, ?_, ?_, ?_⟩
  · intro io hio
    rcases List.mem_cons.mp hio with rfl | hio
    · exact hspec.recx_le
    · exact hrest.recx_le io hio
  · rw [List.flatMap_cons, hrest.indices, hspec.indices]
  · intro io hio
    rcases List.mem_cons.mp hio with rfl | hio
    · rw [← sglBytes_length userSgl, hbytes, List.length_range']
    · exact hrest.sgl_len io hio
  · rw [List.flatMap_cons, hbytes, hrest.bytes, ← hspec.records, Nat.add_mul]
    rcases hpos with h0 | rfl
    · rw [h0, Nat.zero_mul, List.range'_zero, List.append_nil, Nat.add_zero]
    · rw [List.range'_append_1]

end IosExact

/-- One turn of the outer loop, read off its three steps. -/
theorem dcArrayIoLoop_step {array : DcArray} {rgs : List DaosRange} {userSgl : List ℕ}
    {fuel : ℕ} {rg : DaosRange} {rest pending : List DaosRange} {cur cur' : SglCursor}
    {num recI d n : ℕ} {recxs : List DaosRecx} {sgl : List DIov} {ios : List ArrayDkeyIo}
    (hlen : rg.rgLen ≠ 0) (hkey : computeDkey array.chunkSize rg.rgIdx = .ok (num, recI, d))
    (hrecx : dkeyIodRecxs array.chunkSize d (rg :: rest) num recI = .ok (recxs, n, pending))
    (hsgl : dkeyIoSgl rgs userSgl array.cellSize n cur = .ok (sgl, cur'))
    (hios : dcArrayIoLoop array rgs userSgl fuel pending cur' = .ok ios) :
    dcArrayIoLoop array rgs userSgl (fuel + 1) (rg :: rest) cur = .ok (⟨d, recxs, sgl, n⟩ :: ios) := by
  rw [dcArrayIoLoop, if_neg hlen, hkey]
  simp only [bind, Except.bind, hrecx, hsgl, hios]
  rfl

/-- The outer loop, from any point of the request at which the cursor still has the bytes of
every range left (or nothing is left to transfer), serves the ranges left exactly. The
induction is on the fuel; `rangesWeight` drops at every turn. -/
theorem dcArrayIoLoop_exact {array : DcArray} {rgs : List DaosRange} {userSgl : List ℕ}
    (hcell : 0 < array.cellSize) (hchunk : 0 < array.chunkSize)
    (haligned : ∀ len ∈ userSgl, array.cellSize ∣ len)
    (hsame : rgsLen rgs * array.cellSize = userSgl.sum) (fuel : ℕ) :
    ∀ {pending : List DaosRange} {cur : SglCursor}, rangesWeight pending ≤ fuel →
      cur.Valid array.cellSize userSgl →
      (cur.pos userSgl + rgsLen pending * array.cellSize = userSgl.sum ∨ rgsLen pending = 0) →
      ∃ ios, dcArrayIoLoop array rgs userSgl fuel pending cur = .ok ios ∧
        IosExact array.cellSize array.chunkSize userSgl pending (cur.pos userSgl) ios := by
  induction fuel with
  | zero =>
    intro pending cur hfuel _ _
    cases pending with
    | nil => exact ⟨[], rfl, .nil⟩
    | cons rg rest =>
      simp only [rangesWeight, List.length_cons] at hfuel
      omega
  | succ fuel ih =>
    intro pending cur hfuel hvalid hleft
    cases pending with
    | nil => exact ⟨[], rfl, .nil⟩
    | cons rg rest =>
      by_cases hempty : rg.rgLen = 0
      · -- an empty range is skipped
        have hfuel' : rangesWeight rest ≤ fuel := by
          simp only [rangesWeight, rgsLen_cons, List.length_cons] at hfuel ⊢
          omega
        obtain ⟨ios, heq, hex⟩ := ih hfuel' hvalid (by rwa [rgsLen_cons, hempty, Nat.zero_add] at hleft)
        exact ⟨ios, by rw [dcArrayIoLoop, if_pos hempty, heq], hex.skip hempty⟩
      have hkey := computeDkey_ok hchunk rg.rgIdx
      obtain ⟨recxs, n, pending, hrecx, hspec⟩ := dkeyIodRecxs_spec rest hkey
      have hn := hspec.pos (Nat.pos_of_ne_zero hempty)
      have hmul : rgsLen (rg :: rest) * array.cellSize =
          n * array.cellSize + rgsLen pending * array.cellSize := by
        rw [← hspec.records, Nat.add_mul]
      -- the ranges left hold a record, so the cursor has the bytes of all of them
      have hserve : cur.pos userSgl + rgsLen (rg :: rest) * array.cellSize = userSgl.sum := by
        rcases hleft with h | h
        · exact h
        · rw [rgsLen_cons] at h
          omega
      have hfirst : n = rgsLen rgs → cur.pos userSgl = 0 := by
        intro hall
        subst hall
        omega
      obtain ⟨sgl, cur', hsgl, hbytes, hvalid', hcur'⟩ :=
        dkeyIoSgl_spec hcell haligned hsame hvalid hn (by omega) hfirst
      -- after the I/O the cursor has moved past its bytes, or nothing is left to transfer
      have hnext : rgsLen pending = 0 ∨ cur'.pos userSgl = cur.pos userSgl + n * array.cellSize := by
        rcases hcur' with h | h
        · exact .inr h
        · have hzero : rgsLen pending * array.cellSize = 0 := by omega
          exact .inl ((Nat.mul_eq_zero.mp hzero).resolve_right (Nat.pos_iff_ne_zero.mp hcell))
      have hleft' : cur'.pos userSgl + rgsLen pending * array.cellSize = userSgl.sum ∨
          rgsLen pending = 0 := by
        rcases hnext with h | h
        · exact .inr h
        · exact .inl (by omega)
      have hfuel' : rangesWeight pending ≤ fuel := by
        have hw := hspec.weight
        omega
      obtain ⟨ios, hios, hex⟩ := ih hfuel' hvalid' hleft'
      exact ⟨_, dcArrayIoLoop_step hempty hkey hrecx hsgl hios, IosExact.cons hspec hbytes hex hnext⟩

/-! ### The fuel suffices -/

section Except

variable {ε α β : Type} {e : ε}

end Except

/-- **`create_sgl` misplaces bytes when a user iov is not a multiple of the cell size.** With
cells of 4 bytes and chunks of 2 records, the request `[0, 3)` over user iovs of 6 and 6 bytes
passes `io_extent_same`, yet the I/O on dkey 1 receives 10 bytes for its 2 records and the
I/O on dkey 2 only 2 bytes for its one; the request `[0, 5)` over iovs of 6, 6, 6 and 2 bytes
passes it too and fails `D_ASSERT(user_sgl->sg_nr > cur_i)` at the third dkey. -/
theorem dcArrayIo_unaligned_iovs :
    (ioExtentSame [⟨0, 3⟩] [6, 6] 4).1 = true ∧
    dcArrayIo ⟨4, 2⟩ [⟨0, 3⟩] (some [6, 6]) =
      .ok [⟨1, [⟨0, 2⟩], [⟨0, 0, 6⟩, ⟨1, 0, 4⟩], 2⟩, ⟨2, [⟨0, 1⟩], [⟨1, 4, 2⟩], 1⟩] ∧
    (ioExtentSame [⟨0, 5⟩] [6, 6, 6, 2] 4).1 = true ∧
    dcArrayIo ⟨4, 2⟩ [⟨0, 5⟩] (some [6, 6, 6, 2]) = .error .assert := by
  decide

end Daos.Client

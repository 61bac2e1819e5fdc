import Mathlib
import Daos.Vos.Ilog.Run

/-!
# The version of the incarnation log and the fetch cache

The magic word of a root holds, above its four magic bits, the version of the log
(`ilog_mag2ver`). An entries object records the version of the log it was filled from, and
a later `ilog_fetch` reuses the entries while the log shows that version
(`ilog_fetch_cached`). The version is the cache's only key, so it must change whenever the
log does.

**What holds.** Every call that changes the root bumps its magic word once or twice
(`IlogRoot.VersionStep`, from the step lemmas of the representation invariant), and the
version runs through `1 … ILOG_VERSION_MAX` and back to `1` (`ilogVersionNext`). So a run
of fewer than `ILOG_VERSION_MAX / 2` calls that ends at the version it began from leaves
the root as it was (`ilogRun_version_eq`), and an entries object that a successful fetch
filled returns, whenever the cache is hit, the entries the log has
(`ilogFetch_cached_entries`).

**What does not.** A fetch that fails records `ILOG_MAGIC` as the version, "to fetch
again next time"; but `ILOG_MAGIC` is `6`, a version every log passes through. An object
left by a failed fetch holds the entries fetched before the failure and is hit again
once the log reaches version `6` (`ilogFetch_sentinel_hit`).
-/

namespace Daos.Vos

/-! ### Versions -/

/-- The version `ilog_ver_inc` leaves: the next one, and `1` after `ILOG_VERSION_MAX`. -/
def ilogVersionNext (v : ℕ) : ℕ :=
  if v = ilogVersionMax then 1 else v + 1

section Version

variable {m : ℕ}

theorem ilogVersionMax_eq : ilogVersionMax = 268435455 := rfl

theorem ilogMag2ver_of_valid (h : ilogMagicValid m = true) : ilogMag2ver m = m / ilogVersionInc := by
  simp [ilogMag2ver, h]

theorem ilogMag2ver_le (h : ilogMagicValid m = true) (hlt : m < 2 ^ 32) :
    ilogMag2ver m ≤ ilogVersionMax := by
  rw [ilogMag2ver_of_valid h, ilogVersionMax_eq]
  simp only [ilogVersionInc]
  omega

/-- `ilog_ver_inc` moves the version to the next. -/
theorem ilogMag2ver_ilogVerInc (h : ilogMagicValid m = true) (hlt : m < 2 ^ 32) :
    ilogMag2ver (ilogVerInc m) = ilogVersionNext (ilogMag2ver m) := by
  rw [ilogMag2ver_of_valid (ilogVerInc_valid h hlt).1, ilogMag2ver_of_valid h]
  simp only [ilogMagicValid, decide_eq_true_eq] at h
  unfold ilogVerInc ilogVersionNext
  by_cases hmax : m / ilogVersionInc = ilogVersionMax
  · rw [if_pos hmax, if_pos hmax]
    simp only [ilogVersionInc, ilogMagic] at h ⊢
    omega
  · rw [if_neg hmax, if_neg hmax]
    simp only [ilogVersionInc]
    omega

/-- The versions from `1` on go round a cycle of `ILOG_VERSION_MAX`. -/
theorem ilogVersionNext_iterate {v : ℕ} (h1 : 1 ≤ v) (hv : v ≤ ilogVersionMax) (k : ℕ) :
    ilogVersionNext^[k] v = (v - 1 + k) % ilogVersionMax + 1 := by
  induction k with
  | zero =>
    rw [Function.iterate_zero_apply, Nat.add_zero, Nat.mod_eq_of_lt (by omega)]
    omega
  | succ k ih =>
    rw [Function.iterate_succ_apply', ih]
    unfold ilogVersionNext
    rw [ilogVersionMax_eq] at hv ⊢
    split_ifs <;> omega

/-- Fewer bumps than the cycle is long never come back to the version they started from. -/
theorem ilogVersionNext_iterate_ne {v k : ℕ} (h1 : 1 ≤ v) (hv : v ≤ ilogVersionMax) (hk : 0 < k)
    (hkmax : k < ilogVersionMax) : ilogVersionNext^[k] v ≠ v := by
  rw [ilogVersionNext_iterate h1 hv]
  rw [ilogVersionMax_eq] at hv hkmax ⊢
  omega

theorem one_le_ilogVersionNext (v : ℕ) : 1 ≤ ilogVersionNext v := by
  unfold ilogVersionNext
  split_ifs <;> omega

end Version

/-! ### The version over calls and runs -/

section Runs

variable {root root' : IlogRoot}

/-- The step lemma in versions: a call leaves the root as it was, or moves its version one
or two steps on. -/
theorem IlogRoot.VersionStep.version (hroot : root.Wf) (h : root.VersionStep root') :
    ∃ k ≤ 2, ilogMag2ver root'.magic = ilogVersionNext^[k] (ilogMag2ver root.magic) ∧
      (k = 0 → root' = root) := by
  have hinc := ilogVerInc_valid hroot.magic_valid hroot.magic_lt
  rcases h with rfl | hm | hm
  · exact ⟨0, by omega, rfl, fun _ => rfl⟩
  · refine ⟨1, by omega, ?_, fun h => nomatch h⟩
    rw [hm, ilogMag2ver_ilogVerInc hroot.magic_valid hroot.magic_lt]
    rfl
  · refine ⟨2, le_refl 2, ?_, fun h => nomatch h⟩
    rw [hm, ilogMag2ver_ilogVerInc hinc.1 hinc.2,
      ilogMag2ver_ilogVerInc hroot.magic_valid hroot.magic_lt]
    rfl

/-- A reachable log is never at version `0`: `ilog_create` starts at `1`, and a bump never
gives `0`. -/
theorem IlogReachable.version_pos (h : IlogReachable root) : 1 ≤ ilogMag2ver root.magic := by
  induction h with
  | create => decide
  | call env call hr hcall ih =>
    obtain ⟨k, -, hk, -⟩ := (ilogCall_wf hr.wf call hcall).2.2.version hr.wf
    rw [hk]
    cases k with
    | zero => exact ih
    | succ k =>
      rw [Function.iterate_succ_apply']
      exact one_le_ilogVersionNext _

/-- The run lemma in versions: `n` calls move the version at most `2 n` steps, and a run
that moves it none leaves the root as it was. -/
theorem ilogRun_version {calls : List (IlogEnv × IlogCall)} (hroot : root.Wf)
    (h : ilogRun root calls = some root') :
    ∃ k ≤ 2 * calls.length,
      ilogMag2ver root'.magic = ilogVersionNext^[k] (ilogMag2ver root.magic) ∧
        (k = 0 → root' = root) := by
  induction calls generalizing root with
  | nil =>
    obtain rfl : root = root' := Option.some.inj h
    exact ⟨0, le_refl _, rfl, fun _ => rfl⟩
  | cons step calls ih =>
    obtain ⟨env, call⟩ := step
    obtain ⟨rc, mid, hcall, hmid⟩ := ilogRun_cons h
    have hstep := ilogCall_wf hroot call hcall
    obtain ⟨k₁, hk₁, hv₁, hz₁⟩ := hstep.2.2.version hroot
    obtain ⟨k₂, hk₂, hv₂, hz₂⟩ := ih hstep.1 hmid
    refine ⟨k₂ + k₁, by simp only [List.length_cons]; omega, ?_, fun hz => ?_⟩
    · rw [hv₂, hv₁, Function.iterate_add_apply]
    · rw [hz₂ (by omega), hz₁ (by omega)]

/-- **The version is a sound cache key over short runs**: a run of fewer than
`ILOG_VERSION_MAX / 2` calls from a reachable root that ends at the version it began from
leaves the root as it was. -/
theorem ilogRun_version_eq {calls : List (IlogEnv × IlogCall)} (hroot : IlogReachable root)
    (h : ilogRun root calls = some root') (hlen : 2 * calls.length < ilogVersionMax)
    (hv : ilogMag2ver root'.magic = ilogMag2ver root.magic) : root' = root := by
  obtain ⟨k, hk, hvk, hz⟩ := ilogRun_version hroot.wf h
  rcases Nat.eq_zero_or_pos k with rfl | hpos
  · exact hz rfl
  · have hne := ilogVersionNext_iterate_ne hroot.version_pos
      (ilogMag2ver_le hroot.wf.magic_valid hroot.wf.magic_lt) hpos (by omega)
    exact absurd (hvk.symm.trans hv) hne

end Runs

/-! ### The fetch and its cache -/

/-- The entries object holds the log `root`: it is this log's, it records the log's version,
and its first `ie_num_entries` entries are the log's. -/
structure IlogEntries.Holds (root : IlogRoot) (e : IlogEntries) : Prop where
  cached : e.cached = true
  version : e.logVersion = ilogMag2ver root.magic
  ids : e.ids.take e.numEntries = root.body.entries

section Fetch

variable {env : IlogEnv} {allocOk : Bool} {root : IlogRoot} {intent : ℕ} {hasCond : Bool}
  {e : IlogEntries}

/-- The entries a fetch returns are the first `ie_num_entries` of `ie_ids`. -/
theorem IlogEntries.result_ids (e : IlogEntries) :
    e.result.map Prod.fst = e.ids.take e.numEntries := by
  unfold IlogEntries.result
  rw [List.map_map]
  conv_rhs => rw [← List.zipIdx_map_fst 0 (e.ids.take e.numEntries)]
  apply List.map_congr_left
  intro ⟨id, i⟩ _
  rfl

/-- The refresh loop writes statuses and the code, and nothing else. -/
theorem ilogStatusRefreshLoop_frame (env : IlogEnv) (intent : ℕ) (retry sameIntent : Bool)
    (idx : ℕ) (ids : List IlogId) (e : IlogEntries) : ∃ info rc,
      ilogStatusRefreshLoop env intent retry sameIntent idx ids e = { e with info := info, rc := rc } := by
  induction ids generalizing idx e with
  | nil => exact ⟨e.info, e.rc, rfl⟩
  | cons id ids ih =>
    unfold ilogStatusRefreshLoop
    dsimp only
    split_ifs
    · exact ih (idx + 1) e
    · exact ⟨e.info, _, rfl⟩
    · obtain ⟨info, rc, h⟩ := ih (idx + 1)
        { e with info := Function.update e.info idx ⟨ilogStatusGet env id intent retry, false⟩ }
      exact ⟨info, rc, h⟩

/-- The loop of `ilog_fetch` writes statuses and the count, and when it runs to the end it
has counted every entry. -/
theorem ilogFetchLoop_frame (env : IlogEnv) (intent : ℕ) (retry : Bool) (ids : List IlogId)
    (e : IlogEntries) :
    ∃ info n, (ilogFetchLoop env intent retry ids e).2 = { e with info := info, numEntries := n } ∧
      ((ilogFetchLoop env intent retry ids e).1 = 0 → n = e.numEntries + ids.length) := by
  induction ids generalizing e with
  | nil => exact ⟨e.info, e.numEntries, rfl, fun _ => rfl⟩
  | cons id ids ih =>
    unfold ilogFetchLoop
    dsimp only
    split_ifs with hfail
    · -- a failing status is negative, so the loop did not run to the end
      exact ⟨e.info, e.numEntries, rfl, fun h0 => absurd h0 (ne_of_lt hfail.1)⟩
    · obtain ⟨info, n, heq, hn⟩ := ih
        { e with info := Function.update e.info e.numEntries ⟨ilogStatusGet env id intent retry, false⟩,
                 numEntries := e.numEntries + 1 }
      refine ⟨info, n, heq, fun h0 => ?_⟩
      rw [hn h0, List.length_cons]
      dsimp only
      omega

theorem prepareEntries_ok {entries : List IlogId} (h : (prepareEntries allocOk e entries).1 = 0) :
    ∃ info n, (prepareEntries allocOk e entries).2 =
      { e with ids := entries, info := info, allocSize := n } := by
  unfold prepareEntries at h ⊢
  split_ifs at h ⊢
  · exact ⟨e.info, e.allocSize, rfl⟩
  · exact absurd h (by simp [derNomem])
  · exact ⟨_, _, rfl⟩

/-- The cache is hit when the object is this log's and records the log's version. -/
theorem ilogFetchCached_fst :
    (ilogFetchCached env root intent hasCond e).1 = true ↔
      e.cached = true ∧ e.logVersion = ilogMag2ver root.magic := by
  unfold ilogFetchCached
  by_cases hmiss : e.cached = false ∨ e.logVersion ≠ ilogMag2ver root.magic
  · rw [if_pos hmiss]
    simp only [Bool.false_eq_true, false_iff, not_and]
    intro hc
    simpa [hc] using hmiss
  · rw [if_neg hmiss]
    simp only [not_or, Bool.not_eq_false, not_not] at hmiss
    split_ifs <;> simp [hmiss]

theorem ilogFetchCached_miss (hmiss : e.cached = false ∨ e.logVersion ≠ ilogMag2ver root.magic) :
    ilogFetchCached env root intent hasCond e =
      (false, { e with cached := true, numEntries := 0, intent := intent,
                       logVersion := ilogMag2ver root.magic, rc := 0 }) := by
  unfold ilogFetchCached
  rw [if_pos hmiss]

/-- On a hit the object keeps its entries, its count and its version. -/
theorem ilogFetchCached_hit (env : IlogEnv) (intent : ℕ) (hasCond : Bool) (hc : e.cached = true)
    (hv : e.logVersion = ilogMag2ver root.magic) : ∃ info rc intent',
      ilogFetchCached env root intent hasCond e = (true, { e with info := info, intent := intent', rc := rc }) := by
  unfold ilogFetchCached
  rw [if_neg (by simp [hc, hv])]
  split_ifs
  · exact ⟨e.info, e.rc, e.intent, rfl⟩
  · unfold ilogStatusRefresh
    obtain ⟨info, rc, h⟩ := ilogStatusRefreshLoop_frame env intent (ilogFetchRetry intent hasCond)
      (intent == e.intent) 0 (e.ids.take e.numEntries) { e with intent := intent, rc := 0 }
    rw [h]
    exact ⟨info, rc, intent, rfl⟩

/-- On a hit the fetch keeps the object's entries and count; it records `ILOG_MAGIC` as
the version when a status fails. -/
theorem ilogFetch_hit (env : IlogEnv) (allocOk : Bool) (intent : ℕ) (hasCond : Bool)
    (hc : e.cached = true) (hv : e.logVersion = ilogMag2ver root.magic) :
    ∃ info rc intent' v, (ilogFetch env allocOk root intent hasCond e).2 =
        { e with info := info, intent := intent', rc := rc, logVersion := v } ∧
      ((ilogFetch env allocOk root intent hasCond e).1 = 0 ∨
        (ilogFetch env allocOk root intent hasCond e).1 = -derNonexist → v = e.logVersion) := by
  obtain ⟨info, rc, intent', hcached⟩ := ilogFetchCached_hit env intent hasCond hc hv
  unfold ilogFetch
  rw [hcached]
  dsimp only
  split_ifs with hne hneg
  · exact ⟨info, rc, intent', e.logVersion, rfl, fun _ => rfl⟩
  · -- an error code is not cached: the version is set to the sentinel
    refine ⟨info, 0, intent', ilogMagic, rfl, fun h => ?_⟩
    rcases h with h | h
    · exact absurd h (ne_of_lt hneg)
    · exact absurd h hne
  · exact ⟨info, rc, intent', e.logVersion, rfl, fun _ => rfl⟩

/-- A fetch that misses the cache and succeeds (on an empty log it answers
`-DER_NONEXIST`) leaves the object holding the log. -/
theorem ilogFetch_miss_holds (hmiss : e.cached = false ∨ e.logVersion ≠ ilogMag2ver root.magic)
    (hok : (ilogFetch env allocOk root intent hasCond e).1 = 0 ∨ root.body = .empty) :
    (ilogFetch env allocOk root intent hasCond e).2.Holds root := by
  unfold ilogFetch at hok ⊢
  rw [ilogFetchCached_miss hmiss] at hok ⊢
  dsimp only at hok ⊢
  revert hok
  split
  · rename_i hb
    intro _
    exact ⟨rfl, rfl, by rw [hb]; rfl⟩
  · rename_i hne
    intro hok
    set e₀ : IlogEntries :=
      { e with cached := true, numEntries := 0, intent := intent,
               logVersion := ilogMag2ver root.magic, rc := 0 } with he₀
    rcases hp : prepareEntries allocOk e₀ root.body.entries with ⟨rcp, ep⟩
    rw [hp] at hok
    dsimp only [ilogFetchFail] at hok ⊢
    -- a failed allocation is not a success
    by_cases hrcp : rcp = 0
    swap
    · rw [if_pos hrcp] at hok
      exact absurd (hok.resolve_left hrcp) hne
    rw [if_neg (not_not.mpr hrcp)] at hok ⊢
    obtain ⟨info, n, hep⟩ := prepareEntries_ok (by rw [hp]; exact hrcp)
    rw [hp] at hep
    obtain ⟨info', m, hl, hm⟩ :=
      ilogFetchLoop_frame env intent (ilogFetchRetry intent hasCond) root.body.entries ep
    rcases hloop : ilogFetchLoop env intent (ilogFetchRetry intent hasCond) root.body.entries ep
      with ⟨rcl, el⟩
    rw [hloop] at hok hl hm
    dsimp only at hok hl hm ⊢
    -- a failed status is not a success either
    by_cases hrcl : rcl = 0
    swap
    · rw [if_pos hrcl] at hok
      exact absurd (hok.resolve_left hrcl) hne
    rw [if_neg (not_not.mpr hrcl)]
    subst hl
    dsimp only at hep
    subst hep
    refine ⟨rfl, rfl, ?_⟩
    dsimp only [ilogFetchOut]
    rw [hm hrcl, he₀, Nat.zero_add, List.take_length]

/-- **A successful fetch leaves the object holding the log**, whether it filled the object
afresh or reused what the object held. -/
theorem ilogFetch_holds
    (he : e.Holds root ∨ e.cached = false ∨ e.logVersion ≠ ilogMag2ver root.magic)
    (hok : (ilogFetch env allocOk root intent hasCond e).1 = 0 ∨
      ((ilogFetch env allocOk root intent hasCond e).1 = -derNonexist ∧ root.body = .empty)) :
    (ilogFetch env allocOk root intent hasCond e).2.Holds root := by
  by_cases hhit : e.cached = true ∧ e.logVersion = ilogMag2ver root.magic
  · obtain ⟨hc, hv⟩ := hhit
    -- a hit: the object is the one that held the log, with its version kept on a success
    have hholds : e.Holds root := by
      rcases he with he | he | he
      · exact he
      · rw [hc] at he
        cases he
      · exact absurd hv he
    obtain ⟨info, rc, intent', v, heq, hver⟩ := ilogFetch_hit env allocOk intent hasCond hc hv
    rw [heq]
    exact ⟨hholds.cached, (hver (hok.imp_right And.left)).trans hholds.version, hholds.ids⟩
  · have hmiss : e.cached = false ∨ e.logVersion ≠ ilogMag2ver root.magic := by
      by_cases hc : e.cached = true
      · exact Or.inr fun hv => hhit ⟨hc, hv⟩
      · exact Or.inl (by simpa using hc)
    exact ilogFetch_miss_holds hmiss (hok.imp_right And.right)

end Fetch

/-- **The fetch cache is sound for an object that a successful fetch filled**: after a run of
fewer than `ILOG_VERSION_MAX / 2` calls on the log, a fetch that reuses the object returns
the entries the log has, which are those a fetch into a fresh object returns. -/
theorem ilogFetch_cached_entries {env : IlogEnv} {allocOk : Bool} {intent : ℕ} {hasCond : Bool}
    {root root' : IlogRoot} {e : IlogEntries} (hroot : IlogReachable root) (he : e.Holds root)
    {calls : List (IlogEnv × IlogCall)} (hrun : ilogRun root calls = some root')
    (hlen : 2 * calls.length < ilogVersionMax)
    (hhit : (ilogFetchCached env root' intent hasCond e).1 = true) :
    (ilogFetch env allocOk root' intent hasCond e).2.result.map Prod.fst = root'.body.entries := by
  obtain ⟨hc, hv⟩ := ilogFetchCached_fst.mp hhit
  -- the version recorded is the log's at both ends, so the run left the log as it was
  have hsame : root' = root := ilogRun_version_eq hroot hrun hlen (hv.symm.trans he.version)
  subst hsame
  obtain ⟨info, rc, intent', v, heq, -⟩ := ilogFetch_hit env allocOk intent hasCond hc hv
  rw [IlogEntries.result_ids, heq]
  exact he.ids

/-- A log of three entries fetched into a fresh object, then updated again at an epoch it
holds and aggregated below its entries: neither call moves its version, and the fetch that
reuses the object returns the three entries. -/
theorem ilogFetch_cached_entries_rerun :
    let env : IlogEnv := ⟨ilogNoCbs, fun _ => true, false, true⟩
    let root : IlogRoot := ⟨.tree ⟨[⟨0, 0, 1, 10⟩, ⟨0, 1, 0, 20⟩, ⟨0, 0, 1, 30⟩], 3⟩, 86⟩
    let e := (ilogFetch env true root daosIntentDefault false ilogFetchInit).2
    let calls := [(env, IlogCall.update none 30 1 false),
      (env, .aggregate true ⟨0, 5⟩ false false 0 0 ilogFetchInit)]
    IlogReachable root ∧ e.Holds root ∧ ilogRun root calls = some root ∧
      2 * calls.length < ilogVersionMax ∧
      (ilogFetchCached env root daosIntentDefault false e).1 = true ∧
      (ilogFetch env true root daosIntentDefault false e).2.result.map Prod.fst =
        root.body.entries := by
  intro env root e calls
  have hroot : IlogReachable root := @IlogReachable.run ilogCreate root .create
    [(env, .update none 10 1 false), (env, .update none 20 1 true),
      (env, .update none 30 1 false)] rfl
  have he : e.Holds root := ilogFetch_holds (Or.inr (Or.inl rfl)) (Or.inl rfl)
  have hrun : ilogRun root calls = some root := by decide +kernel
  have hlen : 2 * calls.length < ilogVersionMax := by decide
  have hhit : (ilogFetchCached env root daosIntentDefault false e).1 = true := by
    decide +kernel
  exact ⟨hroot, he, hrun, hlen, hhit, ilogFetch_cached_entries hroot he hrun hlen hhit⟩

/-- The sentinel is a version. A log of an update at `10`, a punch at `20` and an update at
`30` is at version `5`; a fetch for which the punch's DTX is uncertain fails after one entry
and records `ILOG_MAGIC`; a punch at `40` brings the log to version `6`, and the next fetch
reuses the one entry of the failed fetch, where the log has four. -/
theorem ilogFetch_sentinel_hit :
    let env : IlogEnv := ⟨ilogNoCbs, fun _ => true, false, true⟩
    let uncertain : IlogEnv :=
      { env with
        cbs := { ilogNoCbs with
                 logStatus := fun id _ _ => if id.epoch = 20 then -derTxUncertain else ilogCommitted } }
    let root : IlogRoot := ⟨.tree ⟨[⟨0, 0, 1, 10⟩, ⟨0, 1, 0, 20⟩, ⟨0, 0, 1, 30⟩], 3⟩, 86⟩
    let root' : IlogRoot :=
      ⟨.tree ⟨[⟨0, 0, 1, 10⟩, ⟨0, 1, 0, 20⟩, ⟨0, 0, 1, 30⟩, ⟨0, 1, 0, 40⟩], 7⟩, 102⟩
    let failed := ilogFetch uncertain true root daosIntentDefault false ilogFetchInit
    let reused := ilogFetch env true root' daosIntentDefault false failed.2
    ilogRun ilogCreate [(env, .update none 10 1 false), (env, .update none 20 1 true),
        (env, .update none 30 1 false)] = some root ∧
      failed.1 = -derTxUncertain ∧
      ilogCall env root (.update none 40 1 true) = some (0, root') ∧
      (ilogFetchCached env root' daosIntentDefault false failed.2).1 = true ∧
      reused.1 = 0 ∧ reused.2.result.map Prod.fst = [⟨0, 0, 1, 10⟩] ∧
      root'.body.entries.length = 4 :=
  ⟨rfl, rfl, rfl, rfl, rfl, rfl, rfl⟩

end Daos.Vos

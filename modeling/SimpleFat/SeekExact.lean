import SimpleFat.ReadFile

/-!
# Seeking is exact

`sfat_seek` takes `cluster_size` from the position and follows one link, round after round, and
stores its two results only at the end.  The environment is any handler of the requests here: its
state may hold any FAT, and its answers may be failures or change from one lookup to the next.

* `sfatSeekInto` — `sfat_seek` with the results it stores;
* `clusterAt` — the value of the lookup number `i`, each made of the value before;
* `run_seekLoop_found`, `run_seekLoop_failed` — the loop takes as many lookups as whole clusters
  fit in the position, and fails with the first of them that is bad;
* `seek_exact` — when `sfat_seek` returns 0, its results, and that it composes.
-/

namespace SimpleFat

open SimpleFat.Lib

/-- The results of `sfat_seek`, stored through pointers of the caller. -/
structure SeekTarget where
  cls : ℕ
  offset : ℕ
  deriving DecidableEq, Repr

/-- `sfat_seek` with `*cls` and `*offset` as the state `out`; `none` is the return value 0. -/
def sfatSeekInto (fs : FsInfo) (curCls pos : ℕ) (out : SeekTarget) :
    Driver (Option Errno × SeekTarget) :=
  if fs.clustersPred ≤ curCls then pure (some .einval, out)
  else do
    match ← sfatSeekLoop fs pos curCls pos with
    | .error e => pure (some e, out)
    | .ok (curCls, pos) => pure (none, ⟨curCls, pos⟩)

def SeekTarget.store (out : SeekTarget) : Except Errno (ℕ × ℕ) → Option Errno × SeekTarget
  | .error e => (some e, out)
  | .ok r => (none, ⟨r.1, r.2⟩)

/-- `sfatSeek` is `sfat_seek` without the stores. -/
theorem sfatSeekInto_eq (fs : FsInfo) (curCls pos : ℕ) (out : SeekTarget) :
    sfatSeekInto fs curCls pos out =
      (sfatSeek fs curCls pos >>= fun r => pure (out.store r)) := by
  rw [sfatSeekInto, sfatSeek]
  split
  · rfl
  · show (sfatSeekLoop fs pos curCls pos >>= _) = _
    congr 1
    funext r
    cases r with
    | error e => rfl
    | ok r => rfl

variable {S : Type} {fs : FsInfo}

/-! ### The lookups of a run -/

/-- The cluster that the lookup number `i` from `cls` gives, and the environment after it. -/
def clusterAt (h : S → (c : Request) → Answer c × S) (fs : FsInfo) (cls : ℕ) (s : S) :
    ℕ → Except Errno ℕ × S
  | 0 => (.ok cls, s)
  | i + 1 =>
    match clusterAt h fs cls s i with
    | (.ok c, s) => run h (sfatGetEntryContent fs c) s
    | (.error e, s) => (.error e, s)

/-- The first `n` lookups from `cls` succeed with a value that is not above `clusters`. -/
def LookupsGood (h : S → (c : Request) → Answer c × S) (fs : FsInfo) (cls : ℕ) (s : S)
    (n : ℕ) : Prop :=
  ∀ i < n, ∃ next, (clusterAt h fs cls s (i + 1)).1 = .ok next ∧ next ≤ fs.clusters

variable {h : S → (c : Request) → Answer c × S}

theorem clusterAt_succ (cls : ℕ) (s : S) (i : ℕ) : clusterAt h fs cls s (i + 1) =
    match clusterAt h fs cls s i with
    | (.ok c, s) => run h (sfatGetEntryContent fs c) s
    | (.error e, s) => (.error e, s) := rfl

/-- The lookups after the first one are those from its value. -/
theorem clusterAt_of_ok {cls next : ℕ} {s s' : S}
    (hget : run h (sfatGetEntryContent fs cls) s = (.ok next, s')) (i : ℕ) :
    clusterAt h fs cls s (i + 1) = clusterAt h fs next s' i := by
  induction i with
  | zero => exact hget
  | succ i ih =>
    rw [clusterAt_succ cls s (i + 1), clusterAt_succ next s' i, ih]

/-- The lookups from a value that was reached are the ones that follow. -/
theorem clusterAt_add {cls c : ℕ} {s s' : S} {m : ℕ} (hat : clusterAt h fs cls s m = (.ok c, s'))
    (n : ℕ) : clusterAt h fs cls s (m + n) = clusterAt h fs c s' n := by
  induction n with
  | zero => exact hat
  | succ n ih => rw [← Nat.add_assoc, clusterAt_succ cls s (m + n), clusterAt_succ c s' n, ih]

theorem lookupsGood_zero (cls : ℕ) (s : S) : LookupsGood h fs cls s 0 := by
  intro i hi
  exact absurd hi (Nat.not_lt_zero i)

theorem lookupsGood_succ {cls next : ℕ} {s s' : S}
    (hget : run h (sfatGetEntryContent fs cls) s = (.ok next, s')) (n : ℕ) :
    LookupsGood h fs cls s (n + 1) ↔ next ≤ fs.clusters ∧ LookupsGood h fs next s' n := by
  constructor
  · intro hgood
    constructor
    · obtain ⟨c, hc, hle⟩ := hgood 0 (Nat.succ_pos n)
      rw [clusterAt_of_ok hget] at hc
      obtain rfl : next = c := Except.ok.inj hc
      exact hle
    · intro i hi
      have hnext := hgood (i + 1) (Nat.succ_lt_succ hi)
      rwa [clusterAt_of_ok hget] at hnext
  · intro hgood i hi
    rw [clusterAt_of_ok hget]
    cases i with
    | zero => exact ⟨next, rfl, hgood.1⟩
    | succ i => exact hgood.2 i (Nat.lt_of_succ_lt_succ hi)

theorem not_lookupsGood {cls : ℕ} {e : Errno} {s s' : S}
    (hget : run h (sfatGetEntryContent fs cls) s = (.error e, s')) (n : ℕ) :
    ¬ LookupsGood h fs cls s (n + 1) := by
  intro hgood
  obtain ⟨c, hc, -⟩ := hgood 0 (Nat.succ_pos n)
  rw [show clusterAt h fs cls s (0 + 1) = (.error e, s') from hget] at hc
  cases hc

/-- The good lookups have reached a cluster. -/
theorem LookupsGood.reached {cls : ℕ} {s : S} {n : ℕ} (hgood : LookupsGood h fs cls s n) :
    ∃ c s', clusterAt h fs cls s n = (.ok c, s') := by
  cases n with
  | zero => exact ⟨cls, s, rfl⟩
  | succ n =>
    obtain ⟨c, hc, -⟩ := hgood n (Nat.lt_succ_self n)
    exact ⟨c, _, Prod.ext hc rfl⟩

/-! ### The loop -/

/-- A lookup has an error code when it fails. -/
theorem getEntry_returns (cls : ℕ) (s : S) :
    (run h (sfatGetEntryContent fs cls) s).1 ≠ .error .noReturn := by
  rw [sfatGetEntryContent]
  split
  · simp
  · show (run h (blkholderAlloc >>= _) s).1 ≠ _
    rw [run_bind]
    cases (run h blkholderAlloc s).1 with
    | none => simp
    | some addr =>
      show (run h (readBlock _ _ >>= _) _).1 ≠ _
      rw [run_bind]
      cases (run h (readBlock fs.blockSize (fatBlk fs cls)) (run h blkholderAlloc s).2).1 with
      | none => simp
      | some data =>
        show (Except.ok _ : Except Errno ℕ) ≠ _
        simp

/-- The loop after its first lookup. -/
theorem run_seekLoop_succ {fuel cls pos : ℕ} (hle : fs.clusterSize ≤ pos) (s : S) :
    run h (sfatSeekLoop fs (fuel + 1) cls pos) s =
      match run h (sfatGetEntryContent fs cls) s with
      | (.error e, s) => (.error e, s)
      | (.ok next, s) =>
        if fs.clusters < next then (.error .einval, s)
        else run h (sfatSeekLoop fs fuel next (pos - fs.clusterSize)) s := by
  rw [sfatSeekLoop, if_pos hle]
  show run h (sfatGetEntryContent fs cls >>= _) s = _
  rw [run_bind]
  generalize run h (sfatGetEntryContent fs cls) s = r
  obtain ⟨r, s'⟩ := r
  cases r with
  | error e => rfl
  | ok next =>
    show run h (if _ then _ else _) s' = _
    split
    · rename_i hlt
      exact (if_pos hlt).symm
    · rename_i hlt
      exact (if_neg hlt).symm

/-- **The loop finds the cluster** when all lookups are good; any fuel from the position on is
enough. -/
theorem run_seekLoop_found (hcs : 0 < fs.clusterSize) {fuel cls pos c : ℕ} {s s' : S}
    (hfuel : pos ≤ fuel) (hgood : LookupsGood h fs cls s (pos / fs.clusterSize))
    (hat : clusterAt h fs cls s (pos / fs.clusterSize) = (.ok c, s')) :
    run h (sfatSeekLoop fs fuel cls pos) s = (.ok (c, pos % fs.clusterSize), s') := by
  induction fuel generalizing cls pos s with
  | zero =>
    obtain rfl : pos = 0 := Nat.le_zero.mp hfuel
    rw [Nat.zero_div] at hat
    cases hat
    rw [sfatSeekLoop, if_neg (Nat.not_le.mpr hcs), Nat.zero_mod]
    rfl
  | succ fuel ih =>
    by_cases hle : fs.clusterSize ≤ pos
    · rw [Nat.div_eq_sub_div hcs hle] at hgood hat
      rcases hget : run h (sfatGetEntryContent fs cls) s with ⟨r, s₁⟩
      cases r with
      | error e => exact absurd hgood (not_lookupsGood hget _)
      | ok next =>
        obtain ⟨hnext, hgood⟩ := (lookupsGood_succ hget _).mp hgood
        rw [clusterAt_of_ok hget] at hat
        rw [run_seekLoop_succ hle, hget]
        show (if fs.clusters < next then _ else _) = _
        rw [if_neg (Nat.not_lt.mpr hnext), ih (by omega) hgood hat, Nat.mod_eq_sub_mod hle]
    · rw [Nat.div_eq_of_lt (Nat.not_le.mp hle)] at hat
      cases hat
      rw [sfatSeekLoop, if_neg hle, Nat.mod_eq_of_lt (Nat.not_le.mp hle)]
      rfl

/-- **The loop fails** when a lookup is bad. -/
theorem run_seekLoop_failed (hcs : 0 < fs.clusterSize) {fuel cls pos : ℕ} {s : S}
    (hfuel : pos ≤ fuel) (hbad : ¬ LookupsGood h fs cls s (pos / fs.clusterSize)) :
    ∃ e s', e ≠ Errno.noReturn ∧ run h (sfatSeekLoop fs fuel cls pos) s = (.error e, s') := by
  induction fuel generalizing cls pos s with
  | zero =>
    obtain rfl : pos = 0 := Nat.le_zero.mp hfuel
    rw [Nat.zero_div] at hbad
    exact absurd (lookupsGood_zero cls s) hbad
  | succ fuel ih =>
    by_cases hle : fs.clusterSize ≤ pos
    · rw [Nat.div_eq_sub_div hcs hle] at hbad
      rcases hget : run h (sfatGetEntryContent fs cls) s with ⟨r, s₁⟩
      rw [run_seekLoop_succ hle, hget]
      cases r with
      | error e =>
        have hcode : (run h (sfatGetEntryContent fs cls) s).1 ≠ .error .noReturn :=
          getEntry_returns cls s
        rw [hget] at hcode
        exact ⟨e, s₁, fun he => hcode (congrArg Except.error he), rfl⟩
      | ok next =>
        show ∃ e s', _ ∧ (if fs.clusters < next then _ else _) = _
        by_cases hnext : fs.clusters < next
        · rw [if_pos hnext]
          exact ⟨.einval, s₁, by decide, rfl⟩
        · rw [if_neg hnext]
          apply ih (by omega)
          intro hgood
          exact hbad ((lookupsGood_succ hget _).mpr ⟨Nat.not_lt.mp hnext, hgood⟩)
    · rw [Nat.div_eq_of_lt (Nat.not_le.mp hle)] at hbad
      exact absurd (lookupsGood_zero cls s) hbad

/-- The loop makes one lookup for each whole cluster of the position, at most. -/
theorem within_seekLoop (hcs : 0 < fs.clusterSize) (fuel cls pos : ℕ) :
    within (sfatSeekLoop fs fuel cls pos) (3 * (pos / fs.clusterSize)) := by
  induction fuel generalizing cls pos with
  | zero =>
    rw [sfatSeekLoop]
    split
    · exact within_done _ _
    · exact within_done _ _
  | succ fuel ih =>
    rw [sfatSeekLoop]
    split
    · rename_i hle
      rw [Nat.div_eq_sub_div hcs hle, Nat.mul_add, Nat.add_comm]
      refine within_bind (within_sfatGetEntryContent fs cls) fun r => ?_
      cases r with
      | error e => exact within_done _ _
      | ok next =>
        show within (if _ then _ else _) _
        split
        · exact within_done _ _
        · exact ih next (pos - fs.clusterSize)
    · exact within_done _ _

/-! ### The whole call -/

theorem run_seekInto {cls : ℕ} (hcls : cls < fs.clustersPred) (pos : ℕ) (out : SeekTarget) (s : S) :
    run h (sfatSeekInto fs cls pos out) s =
      (out.store (run h (sfatSeekLoop fs pos cls pos) s).1,
        (run h (sfatSeekLoop fs pos cls pos) s).2) := by
  rw [sfatSeekInto_eq, sfatSeek, if_neg (Nat.not_le.mpr hcls), run_bind]
  rfl

theorem run_seekInto_refused {cls : ℕ} (hcls : fs.clustersPred ≤ cls) (pos : ℕ) (out : SeekTarget)
    (s : S) : run h (sfatSeekInto fs cls pos out) s = ((some .einval, out), s) := by
  rw [sfatSeekInto, if_pos hcls]
  rfl

/-- `sfat_seek` finds the cluster of a position. -/
theorem run_seekInto_found (hcs : 0 < fs.clusterSize) {cls pos c : ℕ} {s s' : S}
    (hcls : cls < fs.clustersPred) (hgood : LookupsGood h fs cls s (pos / fs.clusterSize))
    (hat : clusterAt h fs cls s (pos / fs.clusterSize) = (.ok c, s')) (out : SeekTarget) :
    run h (sfatSeekInto fs cls pos out) s = ((none, ⟨c, pos % fs.clusterSize⟩), s') := by
  rw [run_seekInto hcls, run_seekLoop_found hcs (Nat.le_refl pos) hgood hat]
  rfl

/-- `sfat_seek` fails on a bad lookup and stores nothing. -/
theorem run_seekInto_failed (hcs : 0 < fs.clusterSize) {cls pos : ℕ} {s : S}
    (hcls : cls < fs.clustersPred) (hbad : ¬ LookupsGood h fs cls s (pos / fs.clusterSize))
    (out : SeekTarget) : ∃ e s', e ≠ Errno.noReturn ∧
      run h (sfatSeekInto fs cls pos out) s = ((some e, out), s') := by
  obtain ⟨e, s', hcode, hrun⟩ := run_seekLoop_failed hcs (Nat.le_refl pos) hbad
  refine ⟨e, s', hcode, ?_⟩
  rw [run_seekInto hcls, hrun]
  rfl

/-- **When `sfat_seek` returns 0**: the start passes the range check and all lookups are good. -/
theorem seekInto_returns_iff (hcs : 0 < fs.clusterSize) (cls pos : ℕ) (out : SeekTarget) (s : S) :
    (run h (sfatSeekInto fs cls pos out) s).1.1 = none ↔
      cls < fs.clustersPred ∧ LookupsGood h fs cls s (pos / fs.clusterSize) := by
  by_cases hcls : cls < fs.clustersPred
  · by_cases hgood : LookupsGood h fs cls s (pos / fs.clusterSize)
    · obtain ⟨c, s', hat⟩ := hgood.reached
      rw [run_seekInto_found hcs hcls hgood hat]
      exact iff_of_true rfl ⟨hcls, hgood⟩
    · obtain ⟨e, s', -, hrun⟩ := run_seekInto_failed hcs hcls hgood out
      rw [hrun]
      exact iff_of_false (by simp) fun hall => hgood hall.2
  · rw [run_seekInto_refused (Nat.not_lt.mp hcls)]
    exact iff_of_false (by simp) fun hall => hcls hall.1

/-- Good lookups up to a sum are good up to its first part, and from the cluster reached. -/
theorem LookupsGood.split {cls c m n : ℕ} {s s' : S} (hgood : LookupsGood h fs cls s (m + n))
    (hat : clusterAt h fs cls s m = (.ok c, s')) :
    LookupsGood h fs cls s m ∧ LookupsGood h fs c s' n := by
  constructor
  · intro i hi
    exact hgood i (Nat.lt_add_right n hi)
  · intro i hi
    obtain ⟨next, hnext, hle⟩ := hgood (m + i) (Nat.add_lt_add_left hi m)
    rw [Nat.add_assoc, clusterAt_add hat] at hnext
    exact ⟨next, hnext, hle⟩

/-- What an exact `sfat_seek` does in a run from the environment `s`. -/
structure SeeksExactly (h : S → (c : Request) → Answer c × S) (fs : FsInfo) (curCls pos : ℕ)
    (out : SeekTarget) (s : S) : Prop where
  /-- it terminates, after at most three requests for each whole cluster of the position -/
  terminates : within (sfatSeekInto fs curCls pos out) (3 * (pos / fs.clusterSize)) ∧
    (run h (sfatSeekInto fs curCls pos out) s).1.1 ≠ some .noReturn
  /-- it returns 0 exactly when the range check and the lookups succeed -/
  returns_iff : (run h (sfatSeekInto fs curCls pos out) s).1.1 = none ↔
    curCls < fs.clustersPred ∧ LookupsGood h fs curCls s (pos / fs.clusterSize)
  /-- then the results are the quotient's cluster and the remainder -/
  found : (run h (sfatSeekInto fs curCls pos out) s).1.1 = none →
    ∃ c, (clusterAt h fs curCls s (pos / fs.clusterSize)).1 = .ok c ∧
      (run h (sfatSeekInto fs curCls pos out) s).1.2 = ⟨c, pos % fs.clusterSize⟩
  /-- otherwise nothing is stored -/
  failed : (run h (sfatSeekInto fs curCls pos out) s).1.1 ≠ none →
    (run h (sfatSeekInto fs curCls pos out) s).1.2 = out
  /-- a seek by whole clusters and a seek from the cluster reached are one seek -/
  composes : ∀ p q mid s', pos = p + q → fs.clusterSize ∣ p →
    (run h (sfatSeekInto fs curCls pos out) s).1.1 = none →
    clusterAt h fs curCls s (p / fs.clusterSize) = (.ok mid, s') → mid < fs.clustersPred →
    run h (sfatSeekInto fs curCls p out) s = ((none, ⟨mid, 0⟩), s') ∧
      run h (sfatSeekInto fs mid q ⟨mid, 0⟩) s' = run h (sfatSeekInto fs curCls pos out) s

/-- A seek in two parts. -/
theorem seekInto_composes (hcs : 0 < fs.clusterSize) {curCls p q mid : ℕ} {s s' : S}
    (out : SeekTarget) (hp : fs.clusterSize ∣ p)
    (hret : (run h (sfatSeekInto fs curCls (p + q) out) s).1.1 = none)
    (hat : clusterAt h fs curCls s (p / fs.clusterSize) = (.ok mid, s'))
    (hmid : mid < fs.clustersPred) :
    run h (sfatSeekInto fs curCls p out) s = ((none, ⟨mid, 0⟩), s') ∧
      run h (sfatSeekInto fs mid q ⟨mid, 0⟩) s' = run h (sfatSeekInto fs curCls (p + q) out) s := by
  obtain ⟨m, rfl⟩ := hp
  have hdiv : (fs.clusterSize * m + q) / fs.clusterSize = m + q / fs.clusterSize := by
    rw [Nat.mul_add_div hcs]
  obtain ⟨hcls, hgood⟩ := (seekInto_returns_iff hcs curCls _ out s).mp hret
  rw [Nat.mul_div_cancel_left m hcs] at hat
  obtain ⟨c, s₂, hreach⟩ := hgood.reached
  have hwhole := run_seekInto_found hcs hcls hgood hreach out
  rw [hdiv] at hgood hreach
  obtain ⟨hfirst, hrest⟩ := hgood.split hat
  rw [clusterAt_add hat] at hreach
  constructor
  · rw [run_seekInto_found hcs hcls (by rwa [Nat.mul_div_cancel_left m hcs])
      (by rwa [Nat.mul_div_cancel_left m hcs]), Nat.mul_mod_right]
  · rw [hwhole, run_seekInto_found hcs hmid hrest hreach, Nat.mul_add_mod]

/-- **`sfat_seek` is exact**: for every environment, geometry, cluster and position. -/
theorem seek_exact (hcs : 0 < fs.clusterSize) (h : S → (c : Request) → Answer c × S) (curCls pos : ℕ)
    (out : SeekTarget) (s : S) : SeeksExactly h fs curCls pos out s where
  terminates := by
    constructor
    · rw [sfatSeekInto]
      split
      · exact within_done _ _
      · refine within_bind (within_seekLoop hcs pos curCls pos) (n := 0) fun r => ?_
        cases r with
        | error e => exact within_done _ _
        | ok r => exact within_done _ _
    · by_cases hcls : curCls < fs.clustersPred
      · by_cases hgood : LookupsGood h fs curCls s (pos / fs.clusterSize)
        · rw [(seekInto_returns_iff hcs curCls pos out s).mpr ⟨hcls, hgood⟩]
          simp
        · obtain ⟨e, s', hcode, hrun⟩ := run_seekInto_failed hcs hcls hgood out
          rw [hrun]
          exact fun he => hcode (Option.some.inj he)
      · rw [run_seekInto_refused (Nat.not_lt.mp hcls)]
        simp
  returns_iff := seekInto_returns_iff hcs curCls pos out s
  found := by
    intro hret
    obtain ⟨hcls, hgood⟩ := (seekInto_returns_iff hcs curCls pos out s).mp hret
    obtain ⟨c, s', hat⟩ := hgood.reached
    exact ⟨c, by rw [hat], by rw [run_seekInto_found hcs hcls hgood hat]⟩
  failed := by
    intro hret
    by_cases hcls : curCls < fs.clustersPred
    · have hbad : ¬ LookupsGood h fs curCls s (pos / fs.clusterSize) := fun hgood =>
        hret ((seekInto_returns_iff hcs curCls pos out s).mpr ⟨hcls, hgood⟩)
      obtain ⟨e, s', -, hrun⟩ := run_seekInto_failed hcs hcls hbad out
      rw [hrun]
    · rw [run_seekInto_refused (Nat.not_lt.mp hcls)]
  composes := by
    rintro p q mid s' rfl hp hret hat hmid
    exact seekInto_composes hcs out hp hret hat hmid

/-- A position in the second cluster of a file. -/
theorem seek_exact_secondCluster :
    (run (Host.quiet fun _ => storedWord) (sfatSeekInto sbi31.fsInfo 1 3000 ⟨7, 9⟩)
      twoClusterVolume).1 = (none, ⟨2, 952⟩) ∧
    SeeksExactly (Host.quiet fun _ => storedWord) sbi31.fsInfo 1 3000 ⟨7, 9⟩ twoClusterVolume :=
  ⟨by decide +kernel, seek_exact (by decide) (Host.quiet fun _ => storedWord) 1 3000 ⟨7, 9⟩
    twoClusterVolume⟩

end SimpleFat

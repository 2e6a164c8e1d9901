import SimpleFat.EntryPosition

/-!
# Runs of the allocator

One call of `sfat_fat_entry_acquire` takes the first free word and marks it, so that it is not free
afterwards; `sfat_fat_entry_modify` frees no word unless it is told to.  The free words of a run
therefore only become fewer, and the clusters it returns are different ones.

* `acquireBlocks_read`, `acquireBlocks_found` — when the scan of the FAT ends with `-ENOENT`;
* `acquire_exact` — one call;
* `FatRun.acquired_free` — the clusters of a run;
* `allocation_exact` — the result.
-/

namespace SimpleFat

open SimpleFat.Lib

variable {H : Host} {fs : FsInfo} {v v' : Vol}

abbrev AnsweredTrace : Type := List (Σ c : Request, Answer c)

/-! ### One call -/

/-- Every block of the FAT was read into the page of the call. -/
structure FatRead (fs : FsInfo) (tr : AnsweredTrace) : Prop where
  page : ∃ addr, ⟨.blkholderAlloc, some addr⟩ ∈ tr
  blocks : ∀ i < fs.fatLengthBlk, ∃ data,
    ⟨.readBlock fs.blockSize (fs.fatStartBlk + i), some data⟩ ∈ tr

/-- A scan that ends with `-ENOENT` has read every block. -/
theorem acquireBlocks_read {n blk : ℕ} {tr : AnsweredTrace}
    (he : Answered H.world (acquireBlocks fs n blk) v tr (.error .enoent) v') :
    ∀ i < n, ∃ data, ⟨.readBlock fs.blockSize (blk + i), some data⟩ ∈ tr := by
  induction n generalizing blk tr v with
  | zero =>
    intro i hi
    exact absurd hi (Nat.not_lt_zero i)
  | succ n ih =>
    rw [acquireBlocks] at he
    obtain ⟨r, v₁, tr, rfl, -, he⟩ := he.of_request
    cases r with
    | none => exact absurd he.of_pure.2.1 (by simp)
    | some data =>
      cases hfind : findFree data (fs.blockSize / 4) 0 with
      | some k =>
        simp only [hfind] at he
        obtain ⟨ok, v₂, tr, -, -, he⟩ := he.of_request
        cases ok with
        | false => exact absurd he.of_pure.2.1 (by simp)
        | true => exact absurd he.of_pure.2.1 (by simp)
      | none =>
        simp only [hfind] at he
        intro i hi
        cases i with
        | zero => exact ⟨data, List.mem_cons_self⟩
        | succ i =>
          obtain ⟨d, hd⟩ := ih he i (by omega)
          refine ⟨d, List.mem_cons_of_mem _ ?_⟩
          rwa [show blk + (i + 1) = blk + 1 + i by omega]

/-- A scan that has read every block and ends otherwise has found a free word. -/
theorem acquireBlocks_found {n blk : ℕ} {tr : AnsweredTrace} {r : Except Errno ℕ}
    (he : Answered H.world (acquireBlocks fs n blk) v tr r v') (hr : r ≠ .error .enoent)
    (hread : ∀ i < n, ∃ data, ⟨.readBlock fs.blockSize (blk + i), some data⟩ ∈ tr) :
    ∃ i < n, ∃ k, findFree (blockAt v fs.blockSize (blk + i)) (fs.blockSize / 4) 0 = some k := by
  induction n generalizing blk tr v with
  | zero => exact absurd he.of_pure.2.1 hr
  | succ n ih =>
    rw [acquireBlocks] at he
    obtain ⟨data, v₁, tr, rfl, ⟨rfl, rfl | ⟨rfl, -⟩⟩, hnext⟩ := he.of_request
    · cases hfind : findFree (blockAt v₁ fs.blockSize blk) (fs.blockSize / 4) 0 with
      | some k => exact ⟨0, Nat.succ_pos n, k, hfind⟩
      | none =>
        simp only [hfind] at hnext
        -- the rest of the trace has read the other blocks
        have hrest : ∀ i < n, ∃ data,
            ⟨.readBlock fs.blockSize (blk + 1 + i), some data⟩ ∈ tr := fun i hi => by
          obtain ⟨d, hd⟩ := hread (i + 1) (by omega)
          rcases List.mem_cons.mp hd with heq | hd
          · injection heq with hreq
            injection hreq with _ hblk
            omega
          · exact ⟨d, by rwa [show blk + 1 + i = blk + (i + 1) by omega]⟩
        obtain ⟨i, hi, k, hk⟩ := ih hnext hrest
        refine ⟨i + 1, by omega, k, ?_⟩
        rwa [show blk + (i + 1) = blk + 1 + i by omega]
    · obtain ⟨rfl, -, -⟩ := hnext.of_pure
      obtain ⟨data, hmem⟩ := hread 0 (Nat.succ_pos n)
      simp at hmem

/-- A word that the scan finds is a free word of the FAT. -/
theorem free_of_findFree (h : WordBlocks fs) {i k : ℕ} (hi : i < fs.fatLengthBlk)
    (hfind : findFree (blockAt v fs.blockSize (fs.fatStartBlk + i)) (fs.blockSize / 4) 0 = some k) :
    ∃ c < fatWords fs, fatWord fs v c = sfatEntryFree := by
  have hspec := findFree_spec (blockAt v fs.blockSize (fs.fatStartBlk + i)) (fs.blockSize / 4) 0
  simp only [hfind] at hspec
  obtain ⟨-, hk, hfree, -⟩ := hspec
  refine ⟨i * (fs.blockSize / 4) + k, ?_, by rw [← h.le32_fatStart]; exact hfree⟩
  have hmul := Nat.mul_le_mul_right (fs.blockSize / 4) (show i + 1 ≤ fs.fatLengthBlk from hi)
  rw [Nat.add_mul, Nat.one_mul] at hmul
  rw [fatWords]
  omega

/-- What one call of `sfat_fat_entry_acquire` returns and leaves behind. -/
structure AcquireExact (fs : FsInfo) (v : Vol) (tr : AnsweredTrace) (r : Except Errno ℕ) (v' : Vol) :
    Prop where
  /-- the first free word, and the only one that changes -/
  acquired : ∀ k, r = .ok k → FirstFree fs v k ∧ v' = setFatWord fs v k sfatEntryEoc
  full : r = .error .enoent ↔ FatRead fs tr ∧ ∀ k < fatWords fs, fatWord fs v k ≠ sfatEntryFree
  failed : ∀ e, r = .error e → v' = v

/-- **One call is exact**, in any environment. -/
theorem acquire_exact (h : WordBlocks fs) {tr : AnsweredTrace} {r : Except Errno ℕ}
    (he : Answered H.world (sfatFatEntryAcquire fs) v tr r v') : AcquireExact fs v tr r v' := by
  have hout : AcquireOutcome H fs v r v' := (wp_iff_exec _ _ _).mp (h.acquire_spec v) _ _ _ he.exec
  refine ⟨fun k hk => ?_, ⟨fun hr => ⟨?_, ?_⟩, fun hfull => ?_⟩, fun e hr => ?_⟩
  · subst hk
    exact hout
  · subst hr
    rw [sfatFatEntryAcquire] at he
    obtain ⟨page, v₁, tr, rfl, -, he⟩ := he.of_request
    cases page with
    | none => exact absurd he.of_pure.2.1 (by simp)
    | some addr =>
      refine ⟨⟨addr, List.mem_cons_self⟩, fun i hi => ?_⟩
      obtain ⟨data, hdata⟩ := acquireBlocks_read he i hi
      exact ⟨data, List.mem_cons_of_mem _ hdata⟩
  · subst hr
    obtain ⟨-, ⟨-, hnone⟩ | ⟨hne, -⟩⟩ := hout
    · exact hnone
    · exact absurd rfl hne
  · obtain ⟨hread, hnone⟩ := hfull
    by_contra hr
    rw [sfatFatEntryAcquire] at he
    obtain ⟨page, v₁, tr, rfl, ⟨rfl, -⟩, hscan⟩ := he.of_request
    cases page with
    | none =>
      obtain ⟨rfl, -, -⟩ := hscan.of_pure
      obtain ⟨addr, haddr⟩ := hread.page
      simp at haddr
    | some addr =>
      have hblocks : ∀ i < fs.fatLengthBlk, ∃ data,
          ⟨.readBlock fs.blockSize (fs.fatStartBlk + i), some data⟩ ∈ tr := fun i hi => by
        obtain ⟨data, hdata⟩ := hread.blocks i hi
        rcases List.mem_cons.mp hdata with heq | hdata
        · injection heq with hreq
          cases hreq
        · exact ⟨data, hdata⟩
      obtain ⟨i, hi, k, hk⟩ := acquireBlocks_found hscan hr hblocks
      obtain ⟨c, hc, hfree⟩ := free_of_findFree h hi hk
      exact hnone c hc hfree
  · subst hr
    exact hout.1

/-! ### Runs -/

inductive FatCall where
  | acquire (r : Except Errno ℕ)
  | modify (cls attr : ℕ) (r : Option Errno)

def acquired : List FatCall → List ℕ
  | [] => []
  | .acquire (.ok k) :: calls => k :: acquired calls
  | _ :: calls => acquired calls

/-- **Runs** of the two functions, one call after the other, each in an environment of its own.  No
call of `sfat_fat_entry_modify` stores the mark of a free word. -/
inductive FatRun (fs : FsInfo) : Vol → List FatCall → Vol → Prop
  | nil {v : Vol} : FatRun fs v [] v
  | acquire {H : Host} {v v₁ v₂ : Vol} {tr : AnsweredTrace} {r : Except Errno ℕ}
      {calls : List FatCall} : Answered H.world (sfatFatEntryAcquire fs) v tr r v₁ →
      FatRun fs v₁ calls v₂ → FatRun fs v (.acquire r :: calls) v₂
  | modify {H : Host} {v v₁ v₂ : Vol} {tr : AnsweredTrace} {cls attr : ℕ} {r : Option Errno}
      {calls : List FatCall} : attr % 2 ^ 32 ≠ sfatEntryFree →
      Answered H.world (sfatFatEntryModify fs cls attr) v tr r v₁ →
      FatRun fs v₁ calls v₂ → FatRun fs v (.modify cls attr r :: calls) v₂

/-- A store of another mark frees no word. -/
theorem free_of_setFatWord {c d x : ℕ} (hx : x % 2 ^ 32 ≠ sfatEntryFree)
    (hfree : fatWord fs (setFatWord fs v c x) d = sfatEntryFree) :
    d ≠ c ∧ fatWord fs v d = sfatEntryFree := by
  by_cases hdc : d = c
  · rw [hdc, fatWord_setFatWord] at hfree
    exact absurd hfree hx
  · rw [fatWord_setFatWord_ne hdc] at hfree
    exact ⟨hdc, hfree⟩

/-- A change of one word, in any execution. -/
theorem modify_exact (h : WordBlocks fs) {cls attr : ℕ} {tr : AnsweredTrace} {r : Option Errno}
    (he : Answered H.world (sfatFatEntryModify fs cls attr) v tr r v') :
    (r = none → v' = setFatWord fs v cls attr) ∧ (r ≠ none → v' = v) := by
  have hout := (wp_iff_exec _ _ _).mp (h.modify_spec cls attr v) _ _ _ he.exec
  cases r with
  | none => exact ⟨fun _ => hout.2, fun hne => absurd rfl hne⟩
  | some e => exact ⟨by simp, fun _ => hout.1⟩

/-- **The clusters of a run are different ones and were free before it.** -/
theorem FatRun.acquired_free (h : WordBlocks fs) {calls : List FatCall}
    (hrun : FatRun fs v calls v') : (acquired calls).Nodup ∧
      ∀ c ∈ acquired calls, c < fatWords fs ∧ fatWord fs v c = sfatEntryFree := by
  induction hrun with
  | nil => exact ⟨List.nodup_nil, by simp [acquired]⟩
  | @acquire H v v₁ _ tr r calls he _ ih =>
    have hout : AcquireOutcome H fs v r v₁ := (wp_iff_exec _ _ _).mp (h.acquire_spec v) _ _ _ he.exec
    cases r with
    | error e =>
      rw [hout.1] at ih
      exact ih
    | ok k =>
      obtain ⟨hfirst, rfl⟩ := hout
      have hrest : ∀ c ∈ acquired calls, c ≠ k ∧ c < fatWords fs ∧
          fatWord fs v c = sfatEntryFree := fun c hc => by
        obtain ⟨hlt, hfree⟩ := ih.2 c hc
        obtain ⟨hne, hfree⟩ := free_of_setFatWord (by decide) hfree
        exact ⟨hne, hlt, hfree⟩
      refine ⟨List.nodup_cons.mpr ⟨fun hk => (hrest k hk).1 rfl, ih.1⟩, ?_⟩
      exact List.forall_mem_cons.mpr ⟨⟨hfirst.1, hfirst.2.1⟩, fun c hc => (hrest c hc).2⟩
  | @modify H v v₁ _ tr cls attr r calls hattr he _ ih =>
    have hout := modify_exact h he
    refine ⟨ih.1, fun c hc => ?_⟩
    obtain ⟨hlt, hfree⟩ := ih.2 c hc
    refine ⟨hlt, ?_⟩
    by_cases hr : r = none
    · rw [hout.1 hr] at hfree
      exact (free_of_setFatWord hattr hfree).2
    · rwa [hout.2 hr] at hfree

/-! ### The result -/

/-- **Allocation is exact over runs**: each call takes the first free word and marks it, the word
that `sfat_fat_entry_modify` changes for the same cluster; `-ENOENT` says that the whole FAT was
read and has no free word; the clusters of a run are different ones and were free before it. -/
theorem allocation_exact (h : WordBlocks fs) :
    (∀ (H : Host) (v : Vol) (tr : AnsweredTrace) (r : Except Errno ℕ) (v' : Vol),
      Answered H.world (sfatFatEntryAcquire fs) v tr r v' → AcquireExact fs v tr r v') ∧
    (∀ (H : Host) (v : Vol) (cls attr : ℕ) (tr : AnsweredTrace) (r : Option Errno) (v' : Vol),
      Answered H.world (sfatFatEntryModify fs cls attr) v tr r v' →
        (r = none → v' = setFatWord fs v cls attr) ∧ (r ≠ none → v' = v)) ∧
    (∀ (v : Vol) (calls : List FatCall) (v' : Vol), FatRun fs v calls v' →
      (acquired calls).Nodup ∧
        ∀ c ∈ acquired calls, c < fatWords fs ∧ fatWord fs v c = sfatEntryFree) :=
  ⟨fun _ _ _ _ _ he => acquire_exact h he, fun _ _ _ _ _ _ _ he => modify_exact h he,
    fun _ _ _ hrun => hrun.acquired_free h⟩

def quietFat {α : Type} (p : Driver α) (v : Vol) : α × Vol := run (Host.quiet fun _ => storedWord) p v

theorem answered_quietFat {α : Type} (p : Driver α) (v : Vol) : ∃ tr,
    Answered (Host.lookups noFailure storedWord).world p v tr (quietFat p v).1 (quietFat p v).2 :=
  (Exec.of_quiet (fun _ _ _ _ => rfl) p v).answered

/-- A run that starts with an allocation in which nothing fails. -/
theorem FatRun.quietAcquire {r : Except Errno ℕ} {calls : List FatCall}
    (hr : (quietFat (sfatFatEntryAcquire fs) v).1 = r)
    (hrun : FatRun fs (quietFat (sfatFatEntryAcquire fs) v).2 calls v') :
    FatRun fs v (.acquire r :: calls) v' := by
  subst hr
  obtain ⟨tr, he⟩ := answered_quietFat (sfatFatEntryAcquire fs) v
  exact .acquire he hrun

/-- A run that starts with a change in which nothing fails. -/
theorem FatRun.quietModify {cls attr : ℕ} {r : Option Errno} {calls : List FatCall}
    (hattr : attr % 2 ^ 32 ≠ sfatEntryFree)
    (hr : (quietFat (sfatFatEntryModify fs cls attr) v).1 = r)
    (hrun : FatRun fs (quietFat (sfatFatEntryModify fs cls attr) v).2 calls v') :
    FatRun fs v (.modify cls attr r :: calls) v' := by
  subst hr
  obtain ⟨tr, he⟩ := answered_quietFat (sfatFatEntryModify fs cls attr) v
  exact .modify hattr he hrun

/-- A run that starts with an allocation without a page. -/
theorem FatRun.noPage {calls : List FatCall} (hrun : FatRun fs v calls v') :
    FatRun fs v (.acquire (.error .enomem) :: calls) v' := by
  have he : Answered (Host.code fun _ => True).world (sfatFatEntryAcquire fs) v
      [⟨.blkholderAlloc, none⟩] (.error .enomem) v := .ask ⟨rfl, fun _ => trivial⟩ .done
  exact .acquire he hrun

/-- A cluster is taken and linked, a call without a page fails, and the next one takes another
cluster. -/
theorem allocation_exact_twoClusters : ∃ v', FatRun sbi31.fsInfo (formatVolume layout31 fun _ => 0)
    [.acquire (.ok 1), .modify 0 1 none, .acquire (.error .enomem), .acquire (.ok 2)] v' ∧
    [1, 2].Nodup ∧ ∀ c ∈ [1, 2], c < fatWords sbi31.fsInfo ∧
      fatWord sbi31.fsInfo (formatVolume layout31 fun _ => 0) c = sfatEntryFree := by
  have hrun : ∃ v', FatRun sbi31.fsInfo (formatVolume layout31 fun _ => 0)
      [.acquire (.ok 1), .modify 0 1 none, .acquire (.error .enomem), .acquire (.ok 2)] v' :=
    ⟨_, .quietAcquire (by decide +kernel) (.quietModify (by decide) (by decide +kernel)
      (.noPage (.quietAcquire (by decide +kernel) .nil)))⟩
  obtain ⟨v', hrun⟩ := hrun
  exact ⟨v', hrun, (allocation_exact placed31.wordBlocks).2.2 _ _ _ hrun⟩

end SimpleFat

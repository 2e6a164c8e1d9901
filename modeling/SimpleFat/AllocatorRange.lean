import SimpleFat.FormattedVolume

/-!
# The cluster range of the allocator and of the accessors

`clusters` is "the no. of valid entries in FAT".  The allocator knows nothing of it: it scans the
blocks of the FAT to their end, and the FAT is rounded up and was computed before its own space was
taken off the clusters.  The accessors compare with `clusters - 1` and so refuse the last cluster.

* `acquire_below_iff` — the allocator stays below `clusters` exactly when it finds a free word
  there, or none at all;
* `accepts_iff` — the accessors accept a cluster below `clusters` exactly when it is not the last;
* `formatted_range_iff` — both, on every formatted volume.
-/

namespace SimpleFat

open SimpleFat.Lib

variable {H : Host} {fs : FsInfo}

def AcquiresBelow (H : Host) (fs : FsInfo) (v : Vol) : Prop :=
  wp H.world (sfatFatEntryAcquire fs) (fun r _ => ∀ c, r = .ok c → c < fs.clusters) v

/-- A cluster number is not refused by `sfat_get_entry_content`, by `sfat_fat_entry_modify` with
any new word, nor by `sfat_seek` as a start with position 0. -/
def AcceptedByAccessors (H : Host) (fs : FsInfo) (v : Vol) (cls : ℕ) : Prop :=
  wp H.world (sfatGetEntryContent fs cls) (fun r _ => r ≠ .error .einval) v ∧
  (∀ x, wp H.world (sfatFatEntryModify fs cls x) (fun r _ => r ≠ some .einval) v) ∧
  wp H.world (sfatSeek fs cls 0) (fun r _ => r ≠ .error .einval) v

/-! ### The allocator -/

/-- Some execution of the allocator returns the first free cluster. -/
theorem exec_acquire {look : (addr blk pos : ℕ) → Page → ℕ}
    (hlook : ∀ addr blk pos d, H.lookup addr blk pos d (look addr blk pos d))
    (hwf : WellFormed fs) {v : Vol} {c : ℕ} (hc : FirstFree fs v c) :
    ∃ tr, Exec H.world (sfatFatEntryAcquire fs) v tr (.ok c) (setFatWord fs v c sfatEntryEoc) := by
  -- the run in which nothing fails ends in the outcome of every environment that never fails
  have hquiet : AcquireOutcome ⟨noFailure, H.lookup⟩ fs v
      (run (Host.quiet look) (sfatFatEntryAcquire fs) v).1
      (run (Host.quiet look) (sfatFatEntryAcquire fs) v).2 := by
    refine (wp_iff_exec _ _ _).mp (acquire_spec hwf v) _ _ _ (Exec.of_quiet ?_ _ v)
    exact hlook
  have hexec := Exec.of_quiet hlook (sfatFatEntryAcquire fs) v
  generalize (run (Host.quiet look) (sfatFatEntryAcquire fs) v).1 = r at hquiet hexec
  generalize (run (Host.quiet look) (sfatFatEntryAcquire fs) v).2 = v' at hquiet hexec
  cases r with
  | error e =>
    obtain ⟨-, ⟨-, hnone⟩ | ⟨-, _, hfail⟩⟩ := hquiet
    · exact absurd hc.2.1 (hnone c hc.1)
    · exact absurd hfail (not_noFailure _)
  | ok d =>
    obtain ⟨hd, rfl⟩ := hquiet
    obtain rfl := hc.unique hd
    exact ⟨_, hexec⟩

theorem acquire_below_iff {look : (addr blk pos : ℕ) → Page → ℕ}
    (hlook : ∀ addr blk pos d, H.lookup addr blk pos d (look addr blk pos d))
    (hwf : WellFormed fs) (v : Vol) :
    AcquiresBelow H fs v ↔
      (∃ k < fs.clusters, fatWord fs v k = sfatEntryFree) ∨
        ∀ k < fatWords fs, fatWord fs v k ≠ sfatEntryFree := by
  constructor
  · intro h
    by_cases hnone : ∀ k < fatWords fs, fatWord fs v k ≠ sfatEntryFree
    · exact .inr hnone
    · simp only [not_forall, not_not] at hnone
      obtain ⟨k, hk, hfree⟩ := hnone
      obtain ⟨c, -, hc⟩ := exists_firstFree hk hfree
      obtain ⟨tr, hexec⟩ := exec_acquire hlook hwf hc
      exact .inl ⟨c, (wp_iff_exec _ _ _).mp h _ _ _ hexec c rfl, hc.2.1⟩
  · intro h
    refine wp_mono (acquire_spec hwf v) fun r v' hr c hrc => ?_
    subst hrc
    obtain ⟨⟨hlt, hfree, hfirst⟩, -⟩ := hr
    rcases h with ⟨k, hk, hkfree⟩ | hnone
    · -- the first free word is not after `k`
      by_contra hge
      exact hfirst k (by omega) hkfree
    · exact absurd hfree (hnone c hlt)

/-! ### The accessors -/

theorem accepts_iff (hwf : WellFormed fs) (v : Vol) {cls : ℕ} (hcls : cls < fs.clusters) :
    AcceptedByAccessors H fs v cls ↔ cls + 1 < fs.clusters := by
  have hpred := hwf.clustersPred_eq (by omega)
  constructor
  · rintro ⟨hget, -, -⟩
    rw [wp_sfatGetEntryContent] at hget
    split at hget
    · exact absurd rfl hget
    · omega
  · intro hlt
    have hok : ¬ fs.clustersPred ≤ cls := by omega
    refine ⟨?_, fun x => ?_, ?_⟩
    · rw [wp_sfatGetEntryContent, if_neg hok]
      exact ⟨fun _ => (by simp), fun _ => (by simp), fun _ _ _ => (by simp)⟩
    · refine wp_mono (modify_spec hwf cls x v) fun r v' hr hre => ?_
      subst hre
      obtain ⟨-, ⟨-, hge⟩ | ⟨hne, -⟩⟩ := hr
      · exact hok hge
      · exact hne rfl
    · have hpos := hwf.clusterSize_pos
      rw [sfatSeek, if_neg hok, sfatSeekLoop, if_neg (by omega)]
      exact (wp_done _ _ _).mpr (by simp)

/-! ### Formatted volumes -/

/-- **The ranges of allocator and accessors on a formatted volume**, for any contents of the FAT
and with any requests failing: the allocator stays below `clusters` exactly when a word below is
free or none is, and the accessors accept exactly the clusters below the last. -/
theorem formatted_range_iff {getsize : ℕ} {L : FormatLayout}
    (h : formatLayout 512 getsize = some L) (ub : UndefinedShift) (w v : Vol)
    (mayFail : Request → Prop) {fs : FsInfo}
    (hfs : fs = fillFsInfo ub 512 (bootSectorAt (formatVolume L w))) :
    (AcquiresBelow (Host.code mayFail) fs v ↔
      (∃ k < fs.clusters, fatWord fs v k = sfatEntryFree) ∨
        ∀ k < fatWords fs, fatWord fs v k ≠ sfatEntryFree) ∧
    ∀ cls < fs.clusters,
      (AcceptedByAccessors (Host.code mayFail) fs v cls ↔ cls + 1 < fs.clusters) := by
  rw [fillFsInfo_formatVolume h] at hfs
  have hwf : WellFormed fs := hfs ▸ formattedFsInfo_wellFormed h
  have hlook : ∀ addr blk pos d, (Host.code mayFail).lookup addr blk pos d
      ((fun addr _ pos _ => (addr + pos) % 2 ^ 32) addr blk pos d) := fun _ _ _ _ => rfl
  exact ⟨acquire_below_iff hlook hwf v, fun cls hcls => accepts_iff hwf v hcls⟩

/-- A formatted device of 31 sectors whose four clusters are all in use. -/
def fullVolume : Vol :=
  [1, 2, 3].foldl (fun v c => setFatWord (formattedFsInfo layout31) v c sfatEntryEoc)
    (formatVolume layout31 fun _ => 0)

theorem formatted_range_iff_full :
    (AcquiresBelow (Host.code noFailure) (formattedFsInfo layout31) fullVolume ↔
      (∃ k < 4, fatWord (formattedFsInfo layout31) fullVolume k = sfatEntryFree) ∨
        ∀ k < 128, fatWord (formattedFsInfo layout31) fullVolume k ≠ sfatEntryFree) ∧
    ∀ cls < 4,
      (AcceptedByAccessors (Host.code noFailure) (formattedFsInfo layout31) fullVolume cls ↔
        cls + 1 < 4) :=
  have hlayout : formatLayout 512 31 = some layout31 := by decide
  formatted_range_iff hlayout zeroShift (fun _ => 0) fullVolume noFailure
    (fillFsInfo_formatVolume hlayout zeroShift _).symm

/-- **The allocator returns cluster 4 of four, and the accessors refuse cluster 3.** -/
theorem formatted_range_fails :
    fillFsInfo zeroShift 512 (bootSectorAt (formatVolume layout31 fun _ => 0)) =
      formattedFsInfo layout31 ∧
    ¬ AcquiresBelow (Host.code noFailure) (formattedFsInfo layout31) fullVolume ∧
    3 < (formattedFsInfo layout31).clusters ∧
    ¬ AcceptedByAccessors (Host.code noFailure) (formattedFsInfo layout31) fullVolume 3 := by
  have hlayout : formatLayout 512 31 = some layout31 := by decide
  have hwf := formattedFsInfo_wellFormed hlayout
  have hused : ∀ k < 4, fatWord (formattedFsInfo layout31) fullVolume k ≠ sfatEntryFree := by
    decide +kernel
  have hfree : fatWord (formattedFsInfo layout31) fullVolume 4 = sfatEntryFree := by
    decide +kernel
  refine ⟨fillFsInfo_formatVolume hlayout _ _, fun hbelow => ?_, by decide, fun hacc => ?_⟩
  · have hlook : ∀ addr blk pos d, (Host.code noFailure).lookup addr blk pos d
        ((fun addr _ pos _ => (addr + pos) % 2 ^ 32) addr blk pos d) := fun _ _ _ _ => rfl
    rcases (acquire_below_iff hlook hwf fullVolume).mp hbelow with ⟨k, hk, hkf⟩ | hnone
    · exact hused k hk hkf
    · exact hnone 4 (by decide) hfree
  · exact absurd ((accepts_iff hwf fullVolume (by decide)).mp hacc) (by decide)

end SimpleFat

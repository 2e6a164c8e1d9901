import SimpleFat.EntryPosition
import SimpleFat.ScannersAgree

/-!
# The inode of a directory entry

`sfat_fill_inode` counts the subdirectories of a directory before it sets `i_start`, so that
`sfat_count_subdirs` starts at the cluster that the recycled `sfat_inode_info` still holds.

* `subdirCount`, `wp_sfatCountSubdirs` — what `sfat_count_subdirs` returns for any start;
* `answered_buildInode` — the inode that `sfat_build_inode` fills, with the leftover content;
* `directory_inode_iff` — it comes from the entry alone exactly when nothing is counted anywhere.
-/

namespace SimpleFat

open SimpleFat.Lib

variable {look : (blk pos : ℕ) → Page → ℕ} {fs : FsInfo} {v : Vol}

/-! ### The count from any start -/

def countedSlots (look : (blk pos : ℕ) → Page → ℕ) (fs : FsInfo) (v : Vol) (size start : ℕ) :
    List Slot :=
  dirSlots fs v (walkClusters look fs v (dirRounds fs size - 1) start)

def subdirCount (look : (blk pos : ℕ) → Page → ℕ) (fs : FsInfo) (v : Vol) (size start : ℕ) :
    Except Errno ℕ :=
  if size < 32 then .ok 0
  else if sfatEntryMax ≤ start then .error .einval
  else countOutcome (walkEnded look fs v (dirRounds fs size - 1) start)
    (countNext 0 (countedSlots look fs v size start))

/-- The link count that `sfat_fill_inode` makes of it: an error counts as 0. -/
def linkCount (look : (blk pos : ℕ) → Page → ℕ) (fs : FsInfo) (v : Vol) (size start : ℕ) : ℕ :=
  match subdirCount look fs v size start with
  | .ok count => (toInt32 count).toNat
  | .error _ => 0

/-- Counting from `start` meets no used slot, or neither an end mark nor the end of a chain. -/
def NothingCounted (look : (blk pos : ℕ) → Page → ℕ) (fs : FsInfo) (v : Vol) (size start : ℕ) :
    Prop :=
  liveSlots (countedSlots look fs v size start) = [] ∨
    (countedSlots look fs v size start).any Slot.isEnd = false ∧
      walkEnded look fs v (dirRounds fs size - 1) start = false

/-- **`sfat_count_subdirs`** for any start and size. -/
theorem wp_sfatCountSubdirs (hwf : WellFormed fs) {refuse : FilldirCall → Prop} (start size : ℕ)
    (Q : Except Errno ℤ → Vol → Prop) :
    wp (refusingWorld refuse look) (sfatCountSubdirs fs start size) Q v ↔
      Q ((subdirCount look fs v size start).map toInt32) v := by
  rw [sfatCountSubdirs, subdirCount]
  by_cases hsize : size < 32
  · rw [if_pos hsize, if_pos hsize]
    exact wp_done _ _ _
  · rw [if_neg hsize, if_neg hsize, wp_blkholderAlloc_lookups]
    show (∀ _ : ℕ, wp _ (countClusters fs (dirRounds fs size) start 0 >>= _) Q v) ↔ _
    rw [forall_const]
    obtain ⟨n, hn⟩ : ∃ n, dirRounds fs size = n + 1 :=
      ⟨_, Nat.add_comm 1 _⟩
    rw [wp_bind, countedSlots, hn, Nat.add_sub_cancel]
    by_cases hmax : sfatEntryMax ≤ start
    · rw [if_pos hmax, countClusters, if_pos hmax]
      exact (wp_done _ _ _).trans (wp_done _ _ _)
    · rw [if_neg hmax, wp_countClusters hwf n start 0 (Nat.not_le.mp hmax)]
      cases countOutcome (walkEnded look fs v n start)
        (countNext 0 (dirSlots fs v (walkClusters look fs v n start))) with
      | error e => exact wp_done _ _ _
      | ok count => exact wp_done _ _ _

/-- A count of a file below 4 GiB fits an `int`. -/
theorem countedSlots_length (hwf : WellFormed fs) {size : ℕ} (hpos : 32 ≤ size)
    (hsize : size < 2 ^ 32) (start : ℕ) :
    (countedSlots look fs v size start).length < 2 ^ 31 := by
  have hle := hwf.clusterSize_le
  have hcs := hwf.clusterSize_pos
  have hrounds : dirRounds fs size = (size + fs.clusterSize - 1) / fs.clusterSize + 1 :=
    dirRounds_eq hwf (by omega) (by rw [sizeT]; omega)
  rw [countedSlots, dirSlots_length, slots_per_cluster hwf, walkClusters, hrounds,
    Nat.add_sub_cancel]
  have htrail : (trail (nextCls look fs v) ((size + fs.clusterSize - 1) / fs.clusterSize)
      start).length ≤ (size + fs.clusterSize - 1) / fs.clusterSize := trail_length_le _ _
  calc (trail (nextCls look fs v) ((size + fs.clusterSize - 1) / fs.clusterSize) start).length *
        (fs.clusterSize / 32)
      ≤ (size + fs.clusterSize - 1) / fs.clusterSize * (fs.clusterSize / 32) :=
        Nat.mul_le_mul_right _ htrail
    _ ≤ (size + fs.clusterSize - 1) / fs.clusterSize * fs.clusterSize / 32 :=
        Nat.mul_div_le_mul_div_assoc _ _ _
    _ ≤ (size + fs.clusterSize - 1) / 32 := Nat.div_le_div_right (Nat.div_mul_le_self _ _)
    _ < 2 ^ 31 := by omega

/-- When the link count is 0. -/
theorem linkCount_eq_zero (hwf : WellFormed fs) {size : ℕ} (hsize : size < 2 ^ 32) (start : ℕ) :
    linkCount look fs v size start = 0 ↔
      size < 32 ∨ sfatEntryMax ≤ start ∨ NothingCounted look fs v size start := by
  rw [linkCount, subdirCount]
  by_cases h32 : size < 32
  · rw [if_pos h32]
    exact iff_of_true (by decide) (.inl h32)
  · rw [if_neg h32]
    by_cases hmax : sfatEntryMax ≤ start
    · rw [if_pos hmax]
      exact iff_of_true rfl (.inr (.inl hmax))
    · rw [if_neg hmax, or_iff_right h32, or_iff_right hmax, NothingCounted]
      have hcount : (liveSlots (countedSlots look fs v size start)).length < 2 ^ 31 :=
        Nat.lt_of_le_of_lt (live_length_le _)
          (countedSlots_length hwf (Nat.not_lt.mp h32) hsize start)
      have hzero : (toInt32 (0 + (liveSlots (countedSlots look fs v size start)).length)).toNat = 0 ↔
          liveSlots (countedSlots look fs v size start) = [] := by
        rw [Nat.zero_add, toInt32_of_lt hcount, Int.toNat_natCast, List.length_eq_zero_iff]
      rw [countNext]
      cases (countedSlots look fs v size start).any Slot.isEnd with
      | true => exact hzero.trans (by simp)
      | false =>
        cases walkEnded look fs v (dirRounds fs size - 1) start with
        | true => exact hzero.trans (by simp)
        | false => exact iff_of_true rfl (.inr ⟨rfl, rfl⟩)

/-! ### The inode -/

/-- The inode of a directory entry: a function of the entry, its position, the mount and the answers
of `iunique` and the clock, up to the link count. -/
def directoryInode (sbi : SbInfo) (de : SfatDirEntry) (iPos ino now links : ℕ) : Inode where
  iIno := ino
  iVersion := 2
  iGeneration := now % 2 ^ 32 - now % 2
  iUid := sbi.options.fsUid
  iGid := sbi.options.fsGid
  iMode := sfatMakeMode sbi.options de.attr 0o777
  dirOps := true
  iSize := de.size
  iBlocks := consumedBlocks de.size sbi.fsInfo.clusterSize sbi.fsInfo.blockBits
  iNlink := links
  iMtime := de.wrtTime
  iAtime := de.lstAccTime
  iCtime := de.crtTime
  iStart := de.fstClsNo
  iAttrs := de.attr
  iPos := iPos

/-- The answers of a successful `sfat_build_inode` before it counts. -/
abbrev buildAnswers (stale : StaleInfo) (ino now : ℕ) (tr : List (Σ c : Request, Answer c)) :
    List (Σ c : Request, Answer c) :=
  ⟨.newInode, some stale⟩ :: ⟨.iunique sfatRootIno, ino⟩ :: ⟨.currentTimeSec, now⟩ :: tr

variable {sbi : SbInfo} {de : SfatDirEntry} {iPos : ℕ}

/-- **The inode that is built for a directory**: the chain that is counted starts at the leftover
`i_start`. -/
theorem answered_buildInode (hwf : WellFormed sbi.fsInfo) (hdir : de.isDir = true)
    {tr : List (Σ c : Request, Answer c)} {r : Except Errno Inode} {v' : Vol}
    (hbuild : Answered (lookupWorld look) (sfatBuildInode sbi de iPos) v tr r v') :
    ∃ stale ino now tr', tr = buildAnswers stale ino now tr' ∧
      r = .ok (directoryInode sbi de iPos ino now
        (linkCount look sbi.fsInfo v de.size stale.iStart)) := by
  rw [sfatBuildInode] at hbuild
  obtain ⟨stale, v₁, tr₁, rfl, ⟨rfl, hstale⟩, hino⟩ := hbuild.of_request
  cases stale with
  | none => exact (hstale rfl).elim
  | some stale =>
    simp only [sfatFillInode, Program.bind_assoc] at hino
    obtain ⟨ino, v₂, tr₂, rfl, ⟨rfl, -⟩, hnow⟩ := hino.of_request
    obtain ⟨now, v₃, tr₃, rfl, rfl, hfill⟩ := hnow.of_request
    refine ⟨stale, ino, now, tr₃, rfl, ?_⟩
    refine (wp_iff_exec _ (fun r _ => r = _) _).mp ?_ _ _ _ hfill.exec
    simp only [hdir, if_true, Program.bind_assoc]
    rw [wp_bind, wp_sfatCountSubdirs hwf, linkCount,
      show (Inode.fresh stale).iStart = stale.iStart from rfl]
    cases subdirCount look sbi.fsInfo v₃ de.size stale.iStart with
    | error e => exact (wp_done _ _ _).mpr rfl
    | ok count => exact (wp_done _ _ _).mpr rfl

/-- The inode comes from its own entry: with the leftover content `stale`, its link count is that of
the chain that starts at `fst_cls_no`, and its other fields do not depend on `stale`. -/
def FromOwnEntry (look : (blk pos : ℕ) → Page → ℕ) (sbi : SbInfo) (v : Vol) (de : SfatDirEntry)
    (iPos : ℕ) (stale : StaleInfo) : Prop :=
  ∀ ino now tr r v', Answered (lookupWorld look) (sfatBuildInode sbi de iPos) v
      (buildAnswers stale ino now tr) r v' →
    r = .ok (directoryInode sbi de iPos ino now
      (linkCount look sbi.fsInfo v de.size de.fstClsNo))

/-- Every leftover content is met by some execution. -/
theorem exists_answered_build (look : (blk pos : ℕ) → Page → ℕ) (sbi : SbInfo) (v : Vol)
    (de : SfatDirEntry) (iPos : ℕ) (stale : StaleInfo) :
    ∃ tr r v', Answered (lookupWorld look) (sfatBuildInode sbi de iPos) v
      (⟨.newInode, some stale⟩ :: tr) r v' := by
  obtain ⟨tr, he⟩ := (Exec.of_quiet (H := Host.lookups (refusing fun _ => False) look)
    (fun _ blk pos d => (rfl : look blk pos d = look blk pos d))
    (do
      let ino ← iunique sfatRootIno
      let inode ← sfatFillInode sbi { Inode.fresh stale with iIno := ino, iVersion := 1 } de iPos
      pure (Except.ok inode) : Driver (Except Errno Inode)) v).answered
  rw [sfatBuildInode]
  exact ⟨tr, _, _, .ask ⟨rfl, by simp⟩ he⟩

/-- For one leftover content, its chain has to count as much as the own chain. -/
theorem fromOwnEntry_iff (hwf : WellFormed sbi.fsInfo) (hdir : de.isDir = true) (stale : StaleInfo) :
    FromOwnEntry look sbi v de iPos stale ↔
      linkCount look sbi.fsInfo v de.size stale.iStart =
        linkCount look sbi.fsInfo v de.size de.fstClsNo := by
  constructor
  · intro h
    obtain ⟨tr, r, v', he⟩ := exists_answered_build look sbi v de iPos stale
    obtain ⟨stale', ino, now, tr', htr, hr⟩ := answered_buildInode hwf hdir he
    obtain ⟨rfl, rfl⟩ : stale = stale' ∧ tr = _ := by simpa using htr
    have hown := h ino now tr' r v' he
    rw [hr] at hown
    exact congrArg Inode.iNlink (Except.ok.inj hown)
  · intro heq ino now tr r v' he
    obtain ⟨stale', ino', now', tr', htr, hr⟩ := answered_buildInode hwf hdir he
    obtain ⟨rfl, rfl, rfl, rfl⟩ : stale = stale' ∧ ino = ino' ∧ now = now' ∧ tr = tr' := by
      simpa using htr
    rw [hr, heq]

/-- **When the inode of a directory comes from its own entry**, whatever the recycled object held:
when the size makes `sfat_count_subdirs` return at once, or no start cluster has anything counted. -/
theorem directory_inode_iff (hwf : WellFormed sbi.fsInfo) (hfits : de.Fits) (hdir : de.isDir = true)
    (iPos : ℕ) : (∀ stale, FromOwnEntry look sbi v de iPos stale) ↔
      de.size < 32 ∨ ∀ start < sfatEntryMax, NothingCounted look sbi.fsInfo v de.size start := by
  have hzero : ∀ start, linkCount look sbi.fsInfo v de.size start = 0 ↔ _ :=
    linkCount_eq_zero hwf hfits.size
  constructor
  · intro h
    by_cases hsize : de.size < 32
    · exact .inl hsize
    · right
      intro start hstart
      have hlink : ∀ start, linkCount look sbi.fsInfo v de.size start =
          linkCount look sbi.fsInfo v de.size de.fstClsNo := fun start =>
        (fromOwnEntry_iff hwf hdir ⟨start, 0, 0⟩).mp (h ⟨start, 0, 0⟩)
      -- a leftover that is no cluster number makes the count fail
      have hown : linkCount look sbi.fsInfo v de.size sfatEntryMax = 0 :=
        (hzero sfatEntryMax).mpr (.inr (.inl (Nat.le_refl _)))
      rw [hlink sfatEntryMax, ← hlink start, hzero] at hown
      rcases hown with hs | hs | hs
      · exact absurd hs hsize
      · exact absurd hstart (Nat.not_lt.mpr hs)
      · exact hs
  · intro h stale
    have hall : ∀ start, linkCount look sbi.fsInfo v de.size start = 0 := by
      intro start
      rw [hzero]
      rcases h with hsize | h
      · exact .inl hsize
      · by_cases hmax : sfatEntryMax ≤ start
        · exact .inr (.inl hmax)
        · exact .inr (.inr (h start (Nat.not_le.mp hmax)))
    rw [fromOwnEntry_iff hwf hdir, hall, hall]

def dirEntry31 : SfatDirEntry := ⟨padName [100], sfatAttrDir, 0, 0, 0, 2048, 1⟩

/-- A formatted volume whose root directory has the file `a` and the directory `d`. -/
def oneDirVolume : Vol :=
  putAttr
    (setFatWord sbi31.fsInfo
      (putAttr (putDirent oneFileVolume 6688 dirEntry31) 6720 sfatAttrEmptyEnd) 1 sfatEntryEoc)
    8704 sfatAttrEmptyEnd

theorem directory_inode_iff_oneDir :
    (∀ stale, FromOwnEntry storedWord sbi31 oneDirVolume dirEntry31 6688 stale) ↔
      2048 < 32 ∨ ∀ start < sfatEntryMax,
        NothingCounted storedWord sbi31.fsInfo oneDirVolume 2048 start :=
  directory_inode_iff placed31.toWellFormed
    ⟨by decide, by decide, by decide, by decide, by decide⟩ (by decide) 6688

/-- **An empty directory gets the link count of the root directory**, when the recycled object was
an inode of the root directory. -/
theorem directory_inode_fails : direntAt oneDirVolume 6688 = dirEntry31 ∧
    ¬ FromOwnEntry storedWord sbi31 oneDirVolume dirEntry31 6688
      ⟨0, sfatAttrDir, sfatRootDirentryPos⟩ := by
  refine ⟨by decide +kernel, fun h => ?_⟩
  have hlink := (fromOwnEntry_iff placed31.toWellFormed (by decide) _).mp h
  revert hlink
  decide +kernel

end SimpleFat

import SimpleFat.DirentBytes
import SimpleFat.HostRules
import SimpleFat.Inodes

/-!
# Building and flushing inodes

`sfat_build_inode` reads the volume at most, and its inode has the fields of the directory entry;
`sfat_inode_write_to_hd` replaces five fields of the entry at `i_pos`, unless the inode is that of
the root directory.

* `buildInode_spec` — a built inode, in an environment without failures;
* `wp_sfatInodeWriteToHd` — the volume after a flush;
* `flushed_eq`, `direntAt_flushEntry` — it is a store of the five fields at `i_pos`.
-/

namespace SimpleFat

open SimpleFat.Lib

variable {refuse : FilldirCall → Prop} {look : (blk pos : ℕ) → Page → ℕ} {fs : FsInfo} {v : Vol}

/-! ### Building -/

/-- An inode that `sfat_build_inode` makes of a directory entry. -/
structure Built (sbi : SbInfo) (de : SfatDirEntry) (iPos : ℕ) (inode : Inode) : Prop where
  iIno : sfatRootIno < inode.iIno
  iSize : inode.iSize = de.size
  iStart : inode.iStart = de.fstClsNo
  iAttrs : inode.iAttrs = de.attr
  iPos : inode.iPos = iPos
  dirOps : inode.dirOps = de.isDir
  iMtime : inode.iMtime = de.wrtTime
  iCtime : inode.iCtime = de.crtTime
  iAtime : inode.iAtime = de.lstAccTime
  iBlocks : inode.iBlocks = consumedBlocks de.size sbi.fsInfo.clusterSize sbi.fsInfo.blockBits

/-- Counting the blocks of one cluster changes nothing. -/
theorem countBlocks_readOnly {H : Host} (n blk count : ℕ) :
    wp H.world (countBlocks fs n blk count) (fun _ v' => v' = v) v := by
  induction n generalizing blk count with
  | zero => exact (wp_done _ _ _).mpr rfl
  | succ n ih =>
    rw [countBlocks, wp_readBlock]
    refine ⟨?_, fun _ => (wp_done _ _ _).mpr rfl⟩
    simp only []
    split
    · exact ih _ _
    · exact (wp_done _ _ _).mpr rfl

theorem countClusters_readOnly {H : Host} (rounds cls count : ℕ) :
    wp H.world (countClusters fs rounds cls count) (fun _ v' => v' = v) v := by
  induction rounds generalizing cls count with
  | zero => exact (wp_done _ _ _).mpr rfl
  | succ rounds ih =>
    rw [countClusters]
    split
    · exact (wp_done _ _ _).mpr rfl
    · refine wp_seq (countBlocks_readOnly _ _ _) fun r v' hv => ?_
      subst hv
      cases r with
      | out r => exact (wp_done _ _ _).mpr rfl
      | next count =>
        show wp H.world (sfatGetEntryContent fs cls >>= _) _ _
        rw [wp_bind, wp_sfatGetEntryContent]
        split
        · exact (wp_done _ _ _).mpr rfl
        · refine ⟨fun _ => (wp_done _ _ _).mpr rfl, fun _ => (wp_done _ _ _).mpr rfl,
            fun addr next _ => ?_⟩
          show wp H.world (if _ then _ else _) _ _
          split
          · exact (wp_done _ _ _).mpr rfl
          · exact ih _ _

/-- `sfat_count_subdirs` changes nothing. -/
theorem countSubdirs_readOnly {H : Host} (iStart iSize : ℕ) :
    wp H.world (sfatCountSubdirs fs iStart iSize) (fun _ v' => v' = v) v := by
  rw [sfatCountSubdirs]
  split
  · exact (wp_done _ _ _).mpr rfl
  · rw [wp_blkholderAlloc]
    intro page _
    cases page with
    | none => exact (wp_done _ _ _).mpr rfl
    | some addr =>
      refine wp_seq (countClusters_readOnly _ _ _) fun r v' hv => ?_
      subst hv
      cases r with
      | error e => exact (wp_done _ _ _).mpr rfl
      | ok count => exact (wp_done _ _ _).mpr rfl

/-- An inode that `sfat_fill_inode` fills from a directory entry; its number is kept. -/
structure Filled (sbi : SbInfo) (de : SfatDirEntry) (iPos iIno : ℕ) (inode : Inode) : Prop where
  iIno : inode.iIno = iIno
  iSize : inode.iSize = de.size
  iStart : inode.iStart = de.fstClsNo
  iAttrs : inode.iAttrs = de.attr
  iPos : inode.iPos = iPos
  dirOps : inode.dirOps = de.isDir
  iMtime : inode.iMtime = de.wrtTime
  iCtime : inode.iCtime = de.crtTime
  iAtime : inode.iAtime = de.lstAccTime
  iBlocks : inode.iBlocks = consumedBlocks de.size sbi.fsInfo.clusterSize sbi.fsInfo.blockBits

/-- **`sfat_fill_inode` takes the fields of the entry** in any environment, and changes nothing. -/
theorem sfatFillInode_spec {H : Host} (sbi : SbInfo) (inode : Inode) (de : SfatDirEntry)
    (iPos : ℕ) : wp H.world (sfatFillInode sbi inode de iPos)
      (fun inode' v' => v' = v ∧ Filled sbi de iPos inode.iIno inode') v := by
  rw [sfatFillInode, wp_currentTimeSec]
  intro now
  simp only []
  by_cases hdir : de.isDir = true
  · simp only [hdir, if_true]
    refine wp_seq (countSubdirs_readOnly _ _) fun r v' hv => ?_
    subst hv
    refine (wp_done _ _ _).mpr ⟨rfl, ?_⟩
    exact ⟨rfl, rfl, rfl, rfl, rfl, hdir.symm, rfl, rfl, rfl, rfl⟩
  · simp only [hdir]
    refine (wp_done _ _ _).mpr ⟨rfl, ?_⟩
    exact ⟨rfl, rfl, rfl, rfl, rfl, by simpa using hdir, rfl, rfl, rfl, rfl⟩

/-- **`sfat_build_inode` succeeds** with the fields of the entry, and changes nothing. -/
theorem buildInode_spec (sbi : SbInfo) (de : SfatDirEntry) (iPos : ℕ) :
    wp (refusingWorld refuse look) (sfatBuildInode sbi de iPos)
      (fun r v' => v' = v ∧ ∃ inode, r = .ok inode ∧ Built sbi de iPos inode) v := by
  rw [sfatBuildInode, wp_newInode_lookups]
  intro stale
  simp only [wp_iunique]
  intro ino hino
  refine wp_seq (sfatFillInode_spec sbi _ de iPos) fun inode v' hfill => ?_
  obtain ⟨rfl, h⟩ := hfill
  refine (wp_done _ _ _).mpr ⟨rfl, inode, rfl, ?_⟩
  exact ⟨by rw [h.iIno]; exact hino, h.iSize, h.iStart, h.iAttrs, h.iPos, h.dirOps, h.iMtime,
    h.iCtime, h.iAtime, h.iBlocks⟩

/-! ### Flushing -/

def flushBlk (fs : FsInfo) (inode : Inode) : ℕ := loffShiftRight inode.iPos fs.blockBits

def flushPos (fs : FsInfo) (inode : Inode) : ℕ := inode.iPos &&& (fs.blockSize - 1)

def flushed (fs : FsInfo) (v : Vol) (inode : Inode) : Vol :=
  if inode.iIno = sfatRootIno then v
  else putBlock v fs.blockSize (flushBlk fs inode)
    (flushEntry (blockAt v fs.blockSize (flushBlk fs inode)) (flushPos fs inode) inode)

/-- `sfat_inode_write_to_hd` in an environment without failures. -/
theorem wp_sfatInodeWriteToHd (inode : Inode) (Q : Option Errno → Vol → Prop) :
    wp (refusingWorld refuse look) (sfatInodeWriteToHd fs inode) Q v ↔
      Q none (flushed fs v inode) := by
  rw [sfatInodeWriteToHd, flushed]
  split
  · exact wp_done _ _ _
  · simp only []
    rw [wp_blkholderAlloc_lookups]
    simp only [wp_readBlock_lookups, wp_writeBlock_lookups, if_true]
    constructor
    · intro h
      exact (wp_done _ _ _).mp (h 0)
    · intro h addr
      exact (wp_done _ _ _).mpr h

/-- A flush is done, or has failed and changed nothing. -/
theorem flush_spec {H : Host} (inode : Inode) :
    wp H.world (sfatInodeWriteToHd fs inode) (fun r v' => r = none ∧ v' = flushed fs v inode ∨
      r ≠ none ∧ v' = v ∧ ∃ c, H.mayFail c) v := by
  rw [sfatInodeWriteToHd, flushed]
  split
  · exact (wp_done _ _ _).mpr (.inl ⟨rfl, rfl⟩)
  · simp only []
    rw [wp_blkholderAlloc]
    intro page hpage
    cases page with
    | none => exact (wp_done _ _ _).mpr (.inr ⟨by simp, rfl, _, hpage rfl⟩)
    | some addr =>
      refine (wp_readBlock _ _ _).mpr
        ⟨?_, fun hm => (wp_done _ _ _).mpr (.inr ⟨by simp, rfl, _, hm⟩)⟩
      simp only [wp_writeBlock, if_true, Bool.false_eq_true, if_false]
      exact ⟨(wp_done _ _ _).mpr (.inl ⟨rfl, rfl⟩),
        fun hm => (wp_done _ _ _).mpr (.inr ⟨by simp, rfl, _, hm⟩)⟩

/-- The entry with the fields of the inode. -/
def SfatDirEntry.update (de : SfatDirEntry) (inode : Inode) : SfatDirEntry :=
  { de with
    fstClsNo := inode.iStart % 2 ^ 32
    size := inode.iSize % 2 ^ 32
    crtTime := inode.iCtime % 2 ^ 32
    lstAccTime := inode.iAtime % 2 ^ 32
    wrtTime := inode.iMtime % 2 ^ 32 }

/-- The five fields lie behind the name and the attribute. -/
theorem flushEntry_apply (b : Page) (pos : ℕ) (inode : Inode) {i : ℕ}
    (h : i < pos + 12 ∨ pos + 32 ≤ i) : flushEntry b pos inode i = b i := by
  have hput : ∀ (c : Page) (k x : ℕ), 12 ≤ k → k + 4 ≤ 32 → putLe32 c (pos + k) x i = c i := by
    intro c k x hk hk'
    rcases h with h | h
    · exact patch_of_lt _ _ (by omega)
    · exact patch_of_ge _ _ (by omega)
  rw [flushEntry, hput _ 20 _ (by omega) (by omega), hput _ 16 _ (by omega) (by omega),
    hput _ 12 _ (by omega) (by omega), hput _ 24 _ (by omega) (by omega),
    hput _ 28 _ (by omega) (by omega)]

/-- The flushed entry has the fields of the inode. -/
theorem direntAt_flushEntry (b : Page) (pos : ℕ) (inode : Inode) :
    direntAt (flushEntry b pos inode) pos = (direntAt b pos).update inode := by
  have hname : (Vector.ofFn fun i : Fin 11 => flushEntry b pos inode (pos + i)) =
      Vector.ofFn fun i => b (pos + i) := by
    congr 1
    funext i
    exact flushEntry_apply b pos inode (by omega)
  have hattr : flushEntry b pos inode (pos + 11) = b (pos + 11) :=
    flushEntry_apply b pos inode (by omega)
  -- each field is stored once, and the other stores leave it alone
  have hkeep : ∀ (c : Page) (k k' x : ℕ), k + 4 ≤ k' ∨ k' + 4 ≤ k →
      le32 (putLe32 c (pos + k') x) (pos + k) = le32 c (pos + k) := fun c k k' x h =>
    le32_putLe32_disjoint c x (by omega)
  rw [direntAt, hname, hattr]
  simp only [flushEntry]
  rw [hkeep _ 12 20 _ (by omega), hkeep _ 12 16 _ (by omega), le32_putLe32,
    hkeep _ 16 20 _ (by omega), le32_putLe32, le32_putLe32,
    hkeep _ 24 20 _ (by omega), hkeep _ 24 16 _ (by omega), hkeep _ 24 12 _ (by omega),
    le32_putLe32, hkeep _ 28 20 _ (by omega), hkeep _ 28 16 _ (by omega),
    hkeep _ 28 12 _ (by omega), hkeep _ 28 24 _ (by omega), le32_putLe32]
  rfl

/-- Block and position of a flush make the address `i_pos`. -/
theorem flushBlk_mul_add (hbs : fs.blockSize = 2 ^ fs.blockBits) {inode : Inode} (h : inode.iPos < 2 ^ 63) :
    flushBlk fs inode * fs.blockSize + flushPos fs inode = inode.iPos := by
  have hmask : inode.iPos &&& (fs.blockSize - 1) = inode.iPos % fs.blockSize := by
    rw [hbs, Nat.and_two_pow_sub_one_eq_mod]
  rw [flushBlk, flushPos, loffShiftRight, if_pos h, hmask, Nat.shiftRight_eq_div_pow,
    ← hbs, Nat.div_add_mod']

/-- **A flush changes the entry at `i_pos`**, if that is not the end of a block. -/
theorem flushed_eq (hbs : fs.blockSize = 2 ^ fs.blockBits) {inode : Inode} (hroot : inode.iIno ≠ sfatRootIno)
    (hpos : inode.iPos < 2 ^ 63) (hblk : inode.iPos % fs.blockSize + 32 ≤ fs.blockSize) (v : Vol) :
    flushed fs v inode = flushEntry v inode.iPos inode := by
  have haddr := flushBlk_mul_add hbs hpos
  have hin : flushPos fs inode + 32 ≤ fs.blockSize := by
    rw [flushPos, hbs, Nat.and_two_pow_sub_one_eq_mod, ← hbs]
    exact hblk
  -- each store into the page is a store into the volume
  have hput : ∀ (d : Page) (k x : ℕ), k + 4 ≤ 32 →
      putBlock v fs.blockSize (flushBlk fs inode) (putLe32 d (flushPos fs inode + k) x) =
        putLe32 (putBlock v fs.blockSize (flushBlk fs inode) d) (inode.iPos + k) x := by
    intro d k x hk
    rw [putLe32, putBlock_patch v _ d (by omega), ← Nat.add_assoc, haddr, putLe32]
  rw [flushed, if_neg hroot, flushEntry, flushEntry, hput _ 20 _ (by omega), hput _ 16 _ (by omega),
    hput _ 12 _ (by omega), hput _ 24 _ (by omega), hput _ 28 _ (by omega), putBlock_blockAt]

/-- Where an entry can be: a multiple of its size that `loff_t` holds. -/
structure SlotAligned (pos : ℕ) : Prop where
  aligned : 32 ∣ pos
  lt : pos < 2 ^ 63

theorem flushed_aligned (hwf : WellFormed fs) {inode : Inode} (hroot : inode.iIno ≠ sfatRootIno)
    (h : SlotAligned inode.iPos) (v : Vol) :
    flushed fs v inode = flushEntry v inode.iPos inode := by
  obtain ⟨n, hn, -, hsz⟩ := hwf.blockSize_slots
  obtain ⟨k, hk⟩ := h.aligned
  have hmod : inode.iPos % fs.blockSize = 32 * (k % n) := by
    rw [hk, hsz, Nat.mul_mod_mul_left]
  have hlt : k % n < n := Nat.mod_lt k (by omega)
  exact flushed_eq hwf.blockSize_eq hroot h.lt (by omega) v

/-- **A flush is seen**: at some time it changes a byte of the five fields. -/
theorem flushed_atime (hwf : WellFormed fs) {inode : Inode} (hroot : inode.iIno ≠ sfatRootIno)
    (h : SlotAligned inode.iPos) (v : Vol) :
    ∃ t a, (inode.iPos + 12 ≤ a ∧ a < inode.iPos + 32) ∧
      flushed fs v { inode with iAtime := t } a ≠ v a := by
  by_contra hsame
  push Not at hsame
  have hfield : ∀ t, le32 v (inode.iPos + 16) = t % 2 ^ 32 := by
    intro t
    have hflush : flushed fs v { inode with iAtime := t } =
        flushEntry v inode.iPos { inode with iAtime := t } := by
      apply flushed_aligned hwf
      · exact hroot
      · exact h
    have hatime := congrArg SfatDirEntry.lstAccTime
      (direntAt_flushEntry v inode.iPos { inode with iAtime := t })
    rw [← hflush] at hatime
    refine Eq.trans (le32_congr fun i hi => ?_).symm hatime
    exact hsame t _ (by omega)
  have hzero := hfield 0
  have hone := hfield 1
  omega

/-- The root directory has no entry to flush. -/
theorem flushed_root {inode : Inode} (hroot : inode.iIno = sfatRootIno) (v : Vol) :
    flushed fs v inode = v := by
  rw [flushed, if_pos hroot]

end SimpleFat

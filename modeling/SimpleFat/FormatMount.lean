import SimpleFat.DirectorySlots
import SimpleFat.FormattedVolume

/-!
# Format and mount agree

The format tool computes its layout from the sector count, by rounding up sectors and clusters, and
writes one area after the other; the mount computes block numbers by shifts from the fields of the
boot sector.  `LayoutsAgree` says that both arrive at the same places.

* `formatLayout_fits` — the arithmetic of the tool for every device of at least 19 sectors;
* `mount_formatted` — the mount of a formatted device, in any environment without failures;
* `format_mount_agree` — both, for every device and any contents before.
-/

namespace SimpleFat

open SimpleFat.Lib

/-- **The two layouts agree**: where the tool wrote is where the mount looks. -/
structure LayoutsAgree (S : ℕ) (L : FormatLayout) (v : Vol) (fs : FsInfo) : Prop where
  first_fat : (formatStart L v).off = fs.fatStartBlk * fs.blockSize
  second_fat : (formatFat L (formatStart L v)).off = (fs.fatStartBlk + fs.fatLengthBlk) * fs.blockSize
  root_sector : (formatFat L (formatFat L (formatStart L v))).off =
    clsToBlk fs fs.rootClusterCls * fs.blockSize
  words : ∀ copy < 2, ∀ k < fatWords fs,
    le32 (formatVolume L v) ((fs.fatStartBlk + copy * fs.fatLengthBlk) * fs.blockSize + 4 * k) =
      if k = 0 then sfatEntryEoc else sfatEntryFree
  clusters_pos : 1 ≤ fs.clusters
  fat_room : fs.clusters ≤ fatWords fs
  fits : (fs.dataStartBlk + fs.clusters * fs.blkPerClus) * fs.blockSize ≤ S * bytesPerSector

/-! ### The arithmetic of the tool -/

/-- The layout of a device of at least 19 sectors has a data area and ends on the device. -/
theorem formatLayout_fits {S : ℕ} (hS : 19 ≤ S) (hlt : S < sizeT) :
    ∃ L, formatLayout 512 S = some L ∧ 1 ≤ L.clusters ∧ 0 < L.fatLengthSectors ∧
      11 + L.fatLengthSectors * 2 + L.clusters * 4 ≤ S := by
  have hsub : subSizeT (subSizeT S 1) 10 = S - 11 := by
    simp only [subSizeT, sizeT] at *
    omega
  rw [formatLayout, if_neg (by decide)]
  refine ⟨_, rfl, ?_⟩
  simp only [bytesPerSector, Nat.div_self, Nat.div_one, reserveSectors, sectorsPerCluster, sfatNo,
    Nat.reduceLT, hsub]
  generalize hc : (if sfatEntryMax < (S - 11) / 4 then sfatEntryMax else (S - 11) / 4) = c
  have hcS : 2 ≤ c ∧ 4 * c + 11 ≤ S := by
    rw [← hc, sfatEntryMax]
    split
    · omega
    · omega
  have hclus : subSizeT c ((2 * ((c * 4 + 512 - 1) / 512) + 4 - 1) / 4) =
      c - (2 * ((c * 4 + 512 - 1) / 512) + 4 - 1) / 4 := by
    have hc64 : c < sizeT := by omega
    simp only [subSizeT, sizeT] at *
    omega
  rw [hclus]
  omega

/-! ### The areas -/

section Areas

variable {L : FormatLayout}

theorem formatFat_start_off (hL : 0 < L.fatLengthSectors) (v : Vol) :
    (formatFat L (formatStart L v)).off = (11 + L.fatLengthSectors) * 512 := by
  rw [formatFat_off, formatStart_off]
  omega

theorem formatFat_formatFat_off (hL : 0 < L.fatLengthSectors) (v : Vol) :
    (formatFat L (formatFat L (formatStart L v))).off = (11 + L.fatLengthSectors * 2) * 512 := by
  rw [formatFat_off, formatFat_start_off hL]
  omega

/-- The words of the second FAT. -/
theorem formatVolume_secondFat (hL : 0 < L.fatLengthSectors) (v : Vol) {k : ℕ}
    (hk : k < L.fatLengthSectors * 128) :
    le32 (formatVolume L v) ((11 + L.fatLengthSectors) * 512 + 4 * k) =
      if k = 0 then sfatEntryEoc else sfatEntryFree := by
  have hword := formatFat_word L (formatFat L (formatStart L v)) (k := k) (by omega)
  have hend := formatFat_formatFat_off hL v
  rw [formatFat_start_off hL] at hword
  rw [← hword]
  refine le32_congr fun i hi => ?_
  rw [formatVolume_eq, formatState_write_lt _ _ (by rw [hend]; omega)]

theorem formattedFsInfo_root (h : WellFormed (formattedFsInfo L)) (hfat : L.fatLengthSectors < 2 ^ 32) :
    clsToBlk (formattedFsInfo L) (formattedFsInfo L).rootClusterCls = 11 + L.fatLengthSectors * 2 := by
  have hroot : (formattedFsInfo L).rootClusterCls = 0 := rfl
  have hdata : (formattedFsInfo L).dataStartBlk = 11 + L.fatLengthSectors * 2 := rfl
  have hbits := h.clusterBits_lt
  have hge := h.blockBits_ge
  rw [hroot, clsToBlk_of_lt (by omega) (by omega) (by omega), Nat.zero_mul, Nat.add_zero, hdata]

/-- **Where the tool wrote is where the mount looks.** -/
theorem formatted_layoutsAgree {S : ℕ} (h : formatLayout 512 S = some L) (hpos : 1 ≤ L.clusters)
    (hL : 0 < L.fatLengthSectors) (hS : 11 + L.fatLengthSectors * 2 + L.clusters * 4 ≤ S) (v : Vol) :
    LayoutsAgree S L v (formattedFsInfo L) := by
  obtain ⟨-, hfat, hroom, -⟩ := formatLayout_bounds h
  have hwords : fatWords (formattedFsInfo L) = L.fatLengthSectors * 128 := by
    simp only [fatWords, formattedFsInfo, Nat.reduceDiv]
  have hblk : (formattedFsInfo L).blockSize = 512 := rfl
  have hfs : (formattedFsInfo L).fatStartBlk = 11 := rfl
  have hlen : (formattedFsInfo L).fatLengthBlk = L.fatLengthSectors := rfl
  have hdata : (formattedFsInfo L).dataStartBlk = 11 + L.fatLengthSectors * 2 := rfl
  have hper : (formattedFsInfo L).blkPerClus = 4 := rfl
  have hclus : (formattedFsInfo L).clusters = L.clusters := rfl
  refine ⟨?_, ?_, ?_, ?_, hpos, ?_, ?_⟩
  · rw [formatStart_off, hfs, hblk]
  · rw [formatFat_start_off hL, hfs, hlen, hblk]
  · rw [formatFat_formatFat_off hL, formattedFsInfo_root (formattedFsInfo_wellFormed h) (by omega),
      hblk]
  · intro copy hcopy k hk
    rw [hwords] at hk
    rw [hfs, hlen, hblk]
    rcases Nat.lt_succ_iff_lt_or_eq.mp hcopy with h0 | rfl
    · obtain rfl : copy = 0 := by omega
      rw [Nat.zero_mul, Nat.add_zero, ← formatVolume_fatWord hL v hk, fatWord, fatWordAddr, hfs, hblk]
    · rw [Nat.one_mul]
      exact formatVolume_secondFat hL v hk
  · rw [hwords, hclus]
    exact hroom
  · rw [hdata, hclus, hper, hblk, bytesPerSector]
    omega

/-- The first slot of the root directory is marked as the terminator. -/
theorem formatted_root_attr {S : ℕ} (h : formatLayout 512 S = some L)
    (hL : 0 < L.fatLengthSectors) (v : Vol) :
    (direntAt (blockAt (formatVolume L v) 512
      (clsToBlk (formattedFsInfo L) (formattedFsInfo L).rootClusterCls)) 0).attr =
      sfatAttrEmptyEnd := by
  obtain ⟨-, hfat, -, -⟩ := formatLayout_bounds h
  have hattr := formatVolume_root_attr hL v
  have hdata : (formattedFsInfo L).dataStartBlk = 11 + L.fatLengthSectors * 2 := rfl
  rw [hdata] at hattr
  rw [formattedFsInfo_root (formattedFsInfo_wellFormed h) (by omega)]
  show formatVolume L v ((11 + L.fatLengthSectors * 2) * 512 + (0 + 11)) = sfatAttrEmptyEnd
  rw [Nat.zero_add, hattr]

/-- The root directory has no entry: its first slot is the terminator. -/
theorem formatted_root_empty {S : ℕ} (h : formatLayout 512 S = some L)
    (hL : 0 < L.fatLengthSectors) (v : Vol) :
    (direntAt (blockAt (formatVolume L v) 512
      (clsToBlk (formattedFsInfo L) (formattedFsInfo L).rootClusterCls)) 0).isEnd = true := by
  rw [SfatDirEntry.isEnd, formatted_root_attr h hL v]
  rfl

theorem formatted_root_liveSlots {S : ℕ} (h : formatLayout 512 S = some L) (hpos : 1 ≤ L.clusters)
    (hL : 0 < L.fatLengthSectors) (v : Vol) (look : (blk pos : ℕ) → Page → ℕ) :
    liveSlots (chainSlots look (formattedFsInfo L) (formatVolume L v)
      (formattedFsInfo L).rootClusterCls) = [] := by
  have hend := formatted_root_empty h hL v
  obtain ⟨n, hn⟩ : ∃ n, (formattedFsInfo L).clusters = n + 1 := ⟨L.clusters - 1, by
    show L.clusters = L.clusters - 1 + 1
    omega⟩
  rw [chainSlots, hn, walkClusters_succ, dirSlots_cons, clusterSlots,
    show (formattedFsInfo L).blkPerClus = 3 + 1 from rfl, blockSlots_succ,
    show (formattedFsInfo L).direntPerBlk = 15 + 1 from rfl, pageSlots_succ, liveSlots,
    List.cons_append, List.cons_append, live, if_pos]
  exact hend

end Areas

/-! ### The mount -/

section Mount

variable {H : Host} {L : FormatLayout}

/-- An empty directory has no subdirectories, in any environment without failures. -/
theorem count_empty {fs : FsInfo} {v : Vol} {start size n : ℕ} (hok : ∀ c, ¬ H.mayFail c)
    (hsize : 32 ≤ size) (hrounds : dirRounds fs size = n + 2) (hstart : start < sfatEntryMax)
    (hblk : 0 < fs.blkPerClus) (hbs : 0 < fs.blockSize)
    (hend : (direntAt (blockAt v fs.blockSize (clsToBlk fs start)) 0).isEnd = true) :
    wp H.world (sfatCountSubdirs fs start size) (fun r v' => v' = v ∧ r = .ok 0) v := by
  obtain ⟨m, hm⟩ := Nat.exists_eq_succ_of_ne_zero (Nat.ne_of_gt hblk)
  obtain ⟨j, hj⟩ : ∃ j, (fs.blockSize + 31) / 32 = j + 1 := ⟨(fs.blockSize + 31) / 32 - 1, by omega⟩
  rw [sfatCountSubdirs, if_neg (by omega), wp_blkholderAlloc]
  intro page hp
  cases page with
  | none => exact absurd (hp rfl) (hok _)
  | some addr =>
    simp only []
    rw [hrounds, countClusters, if_neg (by omega), hm, countBlocks]
    refine (wp_bind _ _ _ _).mpr ((wp_bind _ _ _ _).mpr ((wp_readBlock _ _ _).mpr
      ⟨?_, fun hm => absurd hm (hok _)⟩))
    simp only [hj, countSlots, hend, if_true]
    have hlast : (if n + 1 = 0 then .error .einval else .ok 0 : Except Errno ℕ) = .ok 0 :=
      if_neg (Nat.succ_ne_zero n)
    refine (wp_done (Loop.out (Except.ok 0) : Loop ℕ (Except Errno ℕ)) _ v).mpr ?_
    refine (wp_done (if n + 1 = 0 then .error .einval else .ok 0 : Except Errno ℕ) _ v).mpr ?_
    rw [hlast]
    exact (wp_done _ _ _).mpr ⟨rfl, rfl⟩

/-- What the mount of an empty formatted volume leaves: the layout and the root inode. -/
structure MountedEmpty (L : FormatLayout) (options : MountOptions) (sbi : SbInfo) (root : Inode) :
    Prop where
  sbi_eq : sbi = { fsInfo := formattedFsInfo L, rootSize := 1, options := options }
  iIno : root.iIno = sfatRootIno
  iStart : root.iStart = (formattedFsInfo L).rootClusterCls
  iSize : root.iSize = (formattedFsInfo L).clusterSize
  iNlink : root.iNlink = 3

/-- What the mount of a formatted volume with some entries in its root directory leaves. -/
structure MountedRoot (L : FormatLayout) (options : MountOptions) (count : ℕ) (sbi : SbInfo)
    (root : Inode) : Prop where
  sbi_eq : sbi = { fsInfo := formattedFsInfo L, rootSize := 1, options := options }
  iIno : root.iIno = sfatRootIno
  iStart : root.iStart = (formattedFsInfo L).rootClusterCls
  iSize : root.iSize = (formattedFsInfo L).clusterSize
  iNlink : root.iNlink = count + 3

/-- What the mount returns, by what the count of the entries of the root directory returns. -/
def MountReturns (L : FormatLayout) (options : MountOptions) (r : Except Errno (SbInfo × Inode)) :
    Except Errno ℤ → Prop
  | .error e => r = .error e
  | .ok count => if count < 0 then r = .error .einval
      else ∃ sbi root, r = .ok (sbi, root) ∧ MountedRoot L options count.toNat sbi root

/-- **The mount of a volume with the boot sector of the tool** depends on the root directory only
through the count of its entries, in any environment without failures. -/
theorem mount_of_count {S : ℕ} {v w : Vol} (hok : ∀ c, ¬ H.mayFail c)
    (h : formatLayout 512 S = some L) (hboot : ∀ a < 42, w a = formatVolume L v a)
    (ub : UndefinedShift) (options : MountOptions) {R : Except Errno ℤ → Prop}
    (hcount : wp H.world (sfatCountSubdirs (formattedFsInfo L) (formattedFsInfo L).rootClusterCls
      (formattedFsInfo L).clusterSize) (fun r w' => w' = w ∧ R r) w) :
    wp H.world (sfatFillSuperImpl ub 512 options)
      (fun r w' => w' = w ∧ ∃ count, R count ∧ MountReturns L options r count) w := by
  have hblock : blockAt w 512 0 = w := by
    funext a
    rw [blockAt, window_apply, Nat.zero_mul, Nat.zero_add]
  have hbs : bootSectorAt w = bootSectorAt (formatVolume L v) := by
    have hword : ∀ pos, pos + 4 ≤ 42 → le32 w pos = le32 (formatVolume L v) pos := fun pos hpos =>
      le32_congr fun i hi => hboot _ (by omega)
    simp only [bootSectorAt, le16, hboot 11 (by omega), hboot 12 (by omega), hboot 13 (by omega),
      hboot 14 (by omega), hboot 15 (by omega), hboot 16 (by omega), hboot 21 (by omega),
      hword 17 (by omega), hword 26 (by omega), hword 30 (by omega), hword 34 (by omega)]
  have hfs : ∀ b, b = bootSectorAt (formatVolume L v) → fillFsInfo ub 512 b = formattedFsInfo L := by
    rintro _ rfl
    exact fillFsInfo_formatVolume h ub v
  have hchk : bootSectorChecks (bootSectorAt (formatVolume L v)) = true := by
    rw [bootSectorAt_formatVolume, bootSectorChecks]
    have h512 : isPowerOf2 512 = true := isPowerOf2_two_pow 9
    simp [h512]
  have hroot : (bootSectorAt (formatVolume L v)).rootSize = 1 := by
    rw [bootSectorAt_formatVolume]
  have hbits : (formattedFsInfo L).clusterBits = 11 := rfl
  have hsize : ub.shiftLong 1 (formattedFsInfo L).clusterBits = (formattedFsInfo L).clusterSize := by
    show _ = 2048
    rw [hbits, shiftLong_eq ub (by omega) (by decide)]
    norm_num
  rw [sfatFillSuperImpl, wp_blkholderAlloc]
  intro page hp
  cases page with
  | none => exact absurd (hp rfl) (hok _)
  | some addr =>
    refine (wp_readBlock _ _ _).mpr ⟨?_, fun hm => absurd hm (hok _)⟩
    simp only [hblock, hbs, hchk, if_true, hfs _ rfl, hroot]
    rw [wp_newInode]
    intro stale hs
    cases stale with
    | none => exact absurd (hs rfl) (hok _)
    | some stale =>
      simp only [sfatReadRoot, hsize]
      rw [wp_bind, wp_bind]
      refine wp_mono hcount fun r w' hr => ?_
      obtain ⟨rfl, hr⟩ := hr
      cases r with
      | error e => exact (wp_done _ _ _).mpr ((wp_done _ _ _).mpr ⟨rfl, _, hr, rfl⟩)
      | ok count =>
        by_cases hneg : count < 0
        · have hret : ∀ r, r = .error .einval → MountReturns L options r (.ok count) := by
            rintro _ rfl
            rw [MountReturns, if_pos hneg]
          simp only [if_pos hneg]
          exact (wp_done _ _ _).mpr ((wp_done _ _ _).mpr ⟨rfl, _, hr, hret _ rfl⟩)
        · simp only [if_neg hneg]
          refine (wp_done _ _ _).mpr ?_
          show wp H.world (dAllocRoot >>= _) _ _
          rw [wp_dAllocRoot]
          intro made hmade
          cases made with
          | false => exact absurd (hmade rfl) (hok _)
          | true =>
            refine (wp_done _ _ _).mpr ⟨rfl, _, hr, ?_⟩
            rw [MountReturns, if_neg hneg]
            exact ⟨_, _, rfl, rfl, rfl, rfl, rfl, rfl⟩

/-- **The mount of a formatted device succeeds** with an empty root directory, in any environment
without failures: no FAT lookup is made. -/
theorem mount_formatted {S : ℕ} (hok : ∀ c, ¬ H.mayFail c) (h : formatLayout 512 S = some L)
    (hL : 0 < L.fatLengthSectors) (ub : UndefinedShift) (options : MountOptions) (v : Vol) :
    wp H.world (sfatFillSuperImpl ub 512 options) (fun r v' => v' = formatVolume L v ∧
      ∃ sbi root, r = .ok (sbi, root) ∧ MountedEmpty L options sbi root) (formatVolume L v) := by
  have hrounds : dirRounds (formattedFsInfo L) 2048 = 0 + 2 := by
    simp only [dirRounds, formattedFsInfo, sizeT, Nat.reduceAdd, Nat.reduceSub, Nat.reducePow,
      Nat.reduceMod, Nat.reduceShiftRight]
  have hcount : wp H.world (sfatCountSubdirs (formattedFsInfo L)
      (formattedFsInfo L).rootClusterCls 2048)
      (fun r v' => v' = formatVolume L v ∧ r = .ok 0) (formatVolume L v) :=
    count_empty hok (by omega) hrounds (show 0 < sfatEntryMax by decide)
      (show 0 < 4 by omega) (show 0 < 512 by omega) (formatted_root_empty h hL v)
  refine wp_mono (mount_of_count hok h (fun _ _ => rfl) ub options hcount) fun r v' hr => ?_
  obtain ⟨rfl, _, rfl, hr⟩ := hr
  rw [MountReturns, if_neg (lt_irrefl 0)] at hr
  obtain ⟨sbi, root, rfl, hroot⟩ := hr
  exact ⟨rfl, sbi, root, rfl, hroot.sbi_eq, hroot.iIno, hroot.iStart, hroot.iSize, hroot.iNlink⟩

end Mount

/-- **Format and mount agree on the layout.**  After the format tool has run on a device of at
least 19 sectors, the mount succeeds with an empty root directory and looks for the two FATs and
the root directory where the tool wrote them; the FATs are free but for the root directory, and
the data area ends on the device. -/
theorem format_mount_agree {S : ℕ} (hS : 19 ≤ S) (hlt : S < sizeT) (v : Vol) :
    ∃ L, formatLayout 512 S = some L ∧ LayoutsAgree S L v (formattedFsInfo L) ∧
      (∀ look, liveSlots (chainSlots look (formattedFsInfo L) (formatVolume L v)
        (formattedFsInfo L).rootClusterCls) = []) ∧
      ∀ (H : Host) (ub : UndefinedShift) (options : MountOptions), (∀ c, ¬ H.mayFail c) →
        wp H.world (sfatFillSuperImpl ub 512 options) (fun r v' => v' = formatVolume L v ∧
          ∃ sbi root, r = .ok (sbi, root) ∧ MountedEmpty L options sbi root) (formatVolume L v) := by
  obtain ⟨L, h, hpos, hL, hfits⟩ := formatLayout_fits hS hlt
  refine ⟨L, h, formatted_layoutsAgree h hpos hL hfits v, formatted_root_liveSlots h hpos hL v, ?_⟩
  intro H ub options hok
  exact mount_formatted hok h hL ub options v

theorem format_mount_agree_thirtyOne : ∃ L, formatLayout 512 31 = some L ∧
    LayoutsAgree 31 L (fun _ => 0) (formattedFsInfo L) ∧
      (∀ look, liveSlots (chainSlots look (formattedFsInfo L) (formatVolume L fun _ => 0)
        (formattedFsInfo L).rootClusterCls) = []) ∧
      ∀ (H : Host) (ub : UndefinedShift) (options : MountOptions), (∀ c, ¬ H.mayFail c) →
        wp H.world (sfatFillSuperImpl ub 512 options) (fun r v' =>
          v' = formatVolume L (fun _ => 0) ∧
          ∃ sbi root, r = .ok (sbi, root) ∧ MountedEmpty L options sbi root)
          (formatVolume L fun _ => 0) :=
  format_mount_agree (by omega) (by decide) fun _ => 0

end SimpleFat

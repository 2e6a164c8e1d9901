import SimpleFat.FatWords
import SimpleFat.Format
import SimpleFat.MountGeometry

/-!
# The formatted volume

What the format tool leaves on the device and what a mount makes of it: the geometry
`formattedFsInfo`, the words of the first FAT and the first slots of the root directory.  The tool
divides by `512 / getss`, so the device has logical sectors of 512 bytes.
-/

namespace SimpleFat

open SimpleFat.Lib

/-! ### The layout -/

/-- The FAT is computed for the clusters before its own space is taken off. -/
theorem formatLayout_clusters {getsize : ℕ} {L : FormatLayout}
    (h : formatLayout 512 getsize = some L) :
    ∃ c ≤ sfatEntryMax, L.fatLengthSectors = (c * 4 + 512 - 1) / 512 ∧
      L.clusters = subSizeT c ((2 * L.fatLengthSectors + 4 - 1) / 4) := by
  rw [formatLayout, if_neg (by decide)] at h
  obtain rfl := Option.some.inj h
  refine ⟨_, ?_, rfl, rfl⟩
  split
  · exact Nat.le_refl _
  · omega

/-- The arithmetic of the layout: the FAT is rounded up to sectors, and is longer than the data
area needs. -/
theorem formatLayout_bounds {getsize : ℕ} {L : FormatLayout}
    (h : formatLayout 512 getsize = some L) :
    L.clusters < sfatEntryMax ∧ L.fatLengthSectors ≤ 2 ^ 25 ∧
    L.clusters ≤ L.fatLengthSectors * 128 ∧
    (0 < L.clusters → L.clusters < L.fatLengthSectors * 128) := by
  obtain ⟨c, hc, hfat, hclus⟩ := formatLayout_clusters h
  simp only [sfatEntryMax] at hc ⊢
  have hshort : (2 * L.fatLengthSectors + 4 - 1) / 4 ≤ c := by
    rcases Nat.eq_zero_or_pos c with rfl | hpos
    · omega
    · have hround : L.fatLengthSectors * 128 ≤ c + 127 := by omega
      omega
  have hsub : L.clusters = c - (2 * L.fatLengthSectors + 4 - 1) / 4 := by
    rw [hclus, subSizeT, sizeT]
    omega
  omega

/-- The geometry that a mount computes for a formatted volume. -/
def formattedFsInfo (L : FormatLayout) : FsInfo where
  blockSize := 512
  blockBits := 9
  sectorSize := 512
  sectorBits := 9
  clusterSize := 2048
  clusterBits := 11
  secPerClus := 4
  blkPerSec := 1
  blkPerClus := 4
  direntPerBlk := 16
  blkPerSecBits := 0
  blkPerClusBits := 2
  fatStartSec := 11
  fatStartBlk := 11
  fatLengthSec := L.fatLengthSectors
  fatLengthBlk := L.fatLengthSectors
  fats := 2
  dataStartSec := 11 + L.fatLengthSectors * 2
  dataStartBlk := 11 + L.fatLengthSectors * 2
  clusters := L.clusters
  rootClusterCls := 0

/-! ### The bytes -/

theorem formatState_write_off (st : FormatState) (data : ℕ → UInt8) :
    (st.write data).off = st.off + 512 := rfl

theorem formatState_write_lt (st : FormatState) (data : ℕ → UInt8) {a : ℕ} (ha : a < st.off) :
    (st.write data).vol a = st.vol a := patch_of_lt _ _ ha

theorem formatState_write_mem (st : FormatState) (data : ℕ → UInt8) {a : ℕ} (ha : st.off ≤ a)
    (ha' : a < st.off + 512) : (st.write data).vol a = data (a - st.off) := patch_of_mem _ _ ha ha'

theorem formatRounds_off (n : ℕ) (st : FormatState) :
    (formatRounds n st).off = st.off + 512 * n := by
  induction n generalizing st with
  | zero => rfl
  | succ n ih =>
    rw [formatRounds, ih, formatState_write_off]
    omega

theorem formatRounds_lt (n : ℕ) (st : FormatState) {a : ℕ} (ha : a < st.off) :
    (formatRounds n st).vol a = st.vol a := by
  induction n generalizing st with
  | zero => rfl
  | succ n ih =>
    rw [formatRounds, ih _ (by rw [formatState_write_off]; omega), formatState_write_lt st _ ha]

/-- The rounds leave free words. -/
theorem formatRounds_mem (n : ℕ) (st : FormatState) {a : ℕ} (ha : st.off ≤ a)
    (ha' : a < st.off + 512 * n) :
    (formatRounds n st).vol a = le32Bytes sfatEntryFree ((a - st.off) % 4) := by
  induction n generalizing st with
  | zero => omega
  | succ n ih =>
    rw [formatRounds]
    by_cases hlt : a < st.off + 512
    · rw [formatRounds_lt _ _ hlt, formatState_write_mem st _ ha hlt, freeFatBlock]
    · have hmod : (a - (st.off + 512)) % 4 = (a - st.off) % 4 := by omega
      rw [ih _ (by rw [formatState_write_off]; omega) (by rw [formatState_write_off]; omega),
        formatState_write_off, hmod]

theorem formatFat_off (L : FormatLayout) (st : FormatState) :
    (formatFat L st).off = st.off + 512 + 512 * (L.fatLengthSectors - 1) := by
  rw [formatFat, formatRounds_off, formatState_write_off]

theorem formatFat_lt (L : FormatLayout) (st : FormatState) {a : ℕ} (ha : a < st.off) :
    (formatFat L st).vol a = st.vol a := by
  rw [formatFat, formatRounds_lt _ _ (by rw [formatState_write_off]; omega),
    formatState_write_lt st _ ha]

/-- A FAT table is one end mark followed by free words. -/
theorem formatFat_word (L : FormatLayout) (st : FormatState) {k : ℕ}
    (hk : k < 128 + 128 * (L.fatLengthSectors - 1)) :
    le32 (formatFat L st).vol (st.off + 4 * k) = if k = 0 then sfatEntryEoc else sfatEntryFree := by
  have hfree : ∀ b : ℕ → UInt8, (∀ i < 4, b i = le32Bytes sfatEntryFree i) →
      le32 b 0 = sfatEntryFree := by
    intro b hb
    have hsame : le32 b 0 = le32 (le32Bytes sfatEntryFree) 0 :=
      le32_congr fun i hi => by rw [Nat.zero_add, hb i hi]
    rw [hsame, le32_le32Bytes]
    exact Nat.mod_eq_of_lt (by decide)
  have hshift : ∀ a, le32 (formatFat L st).vol a = le32 (window (formatFat L st).vol a) 0 :=
    fun a => by rw [le32_window, Nat.add_zero]
  rw [hshift]
  split
  · rename_i hk0
    have heoc : le32 (le32Bytes sfatEntryEoc) 0 = sfatEntryEoc := by
      rw [le32_le32Bytes]
      exact Nat.mod_eq_of_lt (by decide)
    rw [← heoc]
    refine le32_congr fun i hi => ?_
    rw [window_apply, hk0, formatFat, formatRounds_lt _ _ (by rw [formatState_write_off]; omega),
      formatState_write_mem _ _ (by omega) (by omega), putLe32, Nat.mul_zero, Nat.add_zero,
      Nat.zero_add, Nat.add_sub_cancel_left, patch_of_mem _ _ (Nat.zero_le _) (by omega),
      Nat.sub_zero]
  · refine hfree _ fun i hi => ?_
    rw [window_apply, formatFat]
    by_cases hlt : k < 128
    · have hmod : (st.off + 4 * k + i - st.off) % 4 = i := by omega
      rw [formatRounds_lt _ _ (by rw [formatState_write_off]; omega),
        formatState_write_mem _ _ (by omega) (by omega), putLe32, patch_of_ge _ _ (by omega),
        freeFatBlock, hmod]
    · have hmod : (st.off + 4 * k + i - (st.off + 512)) % 4 = i := by omega
      rw [formatRounds_mem _ _ (by rw [formatState_write_off]; omega)
        (by rw [formatState_write_off]; omega), formatState_write_off, hmod]

/-- The state after the boot sector. -/
def formatStart (L : FormatLayout) (v : Vol) : FormatState where
  vol := patch v 0 42 (formatBootSector L)
  off := (1 + reserveSectors) * bytesPerSector

theorem formatStart_off (L : FormatLayout) (v : Vol) : (formatStart L v).off = 5632 := by
  simp only [formatStart, reserveSectors, bytesPerSector]

theorem formatVolume_eq (L : FormatLayout) (v : Vol) :
    formatVolume L v = ((formatFat L (formatFat L (formatStart L v))).write
      (putAttr freeFatBlock 0 sfatAttrEmptyEnd)).vol := rfl

/-- The boot sector is not overwritten. -/
theorem formatVolume_boot (L : FormatLayout) (v : Vol) {a : ℕ} (ha : a < 42) :
    formatVolume L v a = formatBootSector L a := by
  have hoff := formatStart_off L v
  rw [formatVolume_eq, formatState_write_lt _ _ (by rw [formatFat_off, formatFat_off, hoff]; omega),
    formatFat_lt _ _ (by rw [formatFat_off, hoff]; omega), formatFat_lt _ _ (by omega)]
  exact patch_of_mem _ _ (Nat.zero_le a) (by omega)

/-- The words of the first FAT. -/
theorem formatVolume_fatWord {L : FormatLayout} (hL : 0 < L.fatLengthSectors) (v : Vol) {k : ℕ}
    (hk : k < L.fatLengthSectors * 128) :
    fatWord (formattedFsInfo L) (formatVolume L v) k =
      if k = 0 then sfatEntryEoc else sfatEntryFree := by
  have hoff := formatStart_off L v
  rw [← formatFat_word L (formatStart L v) (by omega), fatWord, hoff]
  have haddr : fatWordAddr (formattedFsInfo L) k = 5632 + 4 * k := by
    simp only [fatWordAddr, formattedFsInfo]
  rw [haddr]
  refine le32_congr fun i hi => ?_
  rw [formatVolume_eq, formatState_write_lt _ _ (by rw [formatFat_off, formatFat_off, hoff]; omega),
    formatFat_lt _ _ (by rw [formatFat_off, hoff]; omega)]

/-- The root directory starts with the terminator. -/
theorem formatVolume_root_attr {L : FormatLayout} (hL : 0 < L.fatLengthSectors) (v : Vol) :
    formatVolume L v ((formattedFsInfo L).dataStartBlk * 512 + 11) = sfatAttrEmptyEnd := by
  have hoff := formatStart_off L v
  have hdata : (formattedFsInfo L).dataStartBlk = 11 + L.fatLengthSectors * 2 := rfl
  have hend : (formatFat L (formatFat L (formatStart L v))).off =
      (11 + L.fatLengthSectors * 2) * 512 := by
    rw [formatFat_off, formatFat_off, hoff]
    omega
  rw [formatVolume_eq, hdata, formatState_write_mem _ _ (by omega) (by omega), hend,
    Nat.add_sub_cancel_left]
  exact patch_of_mem _ _ (Nat.le_refl _) (Nat.lt_succ_self _)

/-! ### The mount -/

theorem formatBootSector_le32 (L : FormatLayout) :
    le32 (formatBootSector L) 17 = L.fatLengthSectors % 2 ^ 32 ∧
    le32 (formatBootSector L) 26 = L.clusters % 2 ^ 32 ∧
    le32 (formatBootSector L) 30 = 0 ∧ le32 (formatBootSector L) 34 = 1 := by
  refine ⟨?_, ?_, ?_, ?_⟩
  · rw [formatBootSector, le32_putLe32_disjoint _ _ (by omega),
      le32_putLe32_disjoint _ _ (by omega), le32_putLe32_disjoint _ _ (by omega),
      le32_putLe32_disjoint _ _ (by omega), le32_putLe32]
  · rw [formatBootSector, le32_putLe32_disjoint _ _ (by omega),
      le32_putLe32_disjoint _ _ (by omega), le32_putLe32]
  · rw [formatBootSector, le32_putLe32_disjoint _ _ (by omega), le32_putLe32, Nat.zero_mod]
  · rw [formatBootSector, le32_putLe32]
    exact Nat.mod_eq_of_lt (by omega)

/-- The boot sector that a mount reads back. -/
theorem bootSectorAt_formatVolume (L : FormatLayout) (v : Vol) :
    bootSectorAt (formatVolume L v) =
      { media := sfatMedia, sectorSize := 512, secPerClus := 4, reserved := 10,
        fatLength := L.fatLengthSectors % 2 ^ 32, fats := 2, clusters := L.clusters % 2 ^ 32,
        rootStart := 0, rootSize := 1 } := by
  have hword : ∀ pos, pos + 4 ≤ 42 →
      le32 (formatVolume L v) pos = le32 (formatBootSector L) pos := fun pos h =>
    le32_congr fun i hi => formatVolume_boot L v (by omega)
  have hbyte : ∀ a, a < 42 → formatVolume L v a = formatBootSector L a := fun a h =>
    formatVolume_boot L v h
  obtain ⟨h17, h26, h30, h34⟩ := formatBootSector_le32 L
  rw [bootSectorAt, hword 17 (by omega), hword 26 (by omega), hword 30 (by omega),
    hword 34 (by omega), h17, h26, h30, h34, le16, le16, hbyte 11 (by omega), hbyte 12 (by omega),
    hbyte 13 (by omega), hbyte 14 (by omega), hbyte 15 (by omega), hbyte 16 (by omega),
    hbyte 21 (by omega)]
  rfl

/-- **The geometry of a formatted volume.** -/
theorem fillFsInfo_formatVolume {getsize : ℕ} {L : FormatLayout}
    (h : formatLayout 512 getsize = some L) (ub : UndefinedShift) (v : Vol) :
    fillFsInfo ub 512 (bootSectorAt (formatVolume L v)) = formattedFsInfo L := by
  obtain ⟨hclus, hfat, -, -⟩ := formatLayout_bounds h
  simp only [sfatEntryMax] at hclus
  have hshift : ∀ x, x < sizeT → ub.shiftLong x 0 = x := fun x hx => by
    rw [shiftLong_eq ub (by omega) (by omega)]
    omega
  have hint : ∀ x n, n < 32 → x * 2 ^ n < 2 ^ 16 → ub.shiftInt x n % 2 ^ 16 = x * 2 ^ n :=
    fun x n hn hx => shiftInt_eq ub hn hx
  have h9 : bitsOf 512 = 9 := by decide
  have h11 : bitsOf 2048 = 11 := by decide
  have hs0 : subShort 9 9 = 0 := by decide
  have hs2 : subShort 11 9 = 2 := by decide
  have hc : ub.shiftInt 4 9 % 2 ^ 16 = 2048 := hint 4 9 (by omega) (by omega)
  have h10 : ub.shiftInt 1 0 % 2 ^ 16 = 1 := hint 1 0 (by omega) (by omega)
  have h12 : ub.shiftInt 1 2 % 2 ^ 16 = 4 := hint 1 2 (by omega) (by omega)
  rw [bootSectorAt_formatVolume, Nat.mod_eq_of_lt (by omega), Nat.mod_eq_of_lt (by omega)]
  simp only [fillFsInfo, h9, hc, h11, hs0, hs2, h10, h12]
  rw [hshift _ (by rw [sizeT]; omega), hshift _ (by rw [sizeT]; omega),
    hshift _ (by rw [sizeT]; omega)]
  rfl

/-- A formatted volume is well formed. -/
theorem formattedFsInfo_wellFormed {getsize : ℕ} {L : FormatLayout}
    (h : formatLayout 512 getsize = some L) : WellFormed (formattedFsInfo L) where
  blockSize_eq := by simp only [formattedFsInfo]; norm_num
  blockBits_ge := by simp only [formattedFsInfo, le_refl]
  clusterSize_eq := by simp only [formattedFsInfo]; norm_num
  clusterSize_blocks := by simp only [formattedFsInfo]
  clusterBits_lt := by simp only [formattedFsInfo]; omega
  direntPerBlk_eq := by simp only [formattedFsInfo]
  clusters_lt := (formatLayout_bounds h).1

/-- A formatted volume with a data area has its areas in place. -/
theorem formattedFsInfo_placed {getsize : ℕ} {L : FormatLayout}
    (h : formatLayout 512 getsize = some L) (hpos : 0 < L.clusters) :
    Placed (formattedFsInfo L) := by
  obtain ⟨hclus, hfat, hcov, -⟩ := formatLayout_bounds h
  exact {
    formattedFsInfo_wellFormed h with
    clusters_pos := hpos
    fat_covers := by simp only [formattedFsInfo]; omega
    fat_words := by simp only [formattedFsInfo]; omega
    fat_before_data := by simp only [formattedFsInfo]; omega
    dataStartBlk_lt := by simp only [formattedFsInfo]; omega }

/-- The layout of a device of 31 sectors: one sector for each FAT, four clusters. -/
def layout31 : FormatLayout where
  sectors := 31
  fatLengthSectors := 1
  clusters := 4

/-- A formatted volume whose root directory has one file, `a`. -/
def oneFileVolume : Vol :=
  putAttr (putDirent (formatVolume layout31 fun _ => 0) 6656
    (sfatFormDirEntry false (padName [97]) 0 0 0)) 6688 sfatAttrEmptyEnd

/-- A formatted volume whose root directory is full: no byte of its cluster marks a free slot. -/
def fullRootVolume : Vol := patch (formatVolume layout31 fun _ => 0) 6656 2048 fun _ => 1

end SimpleFat

import SimpleFat.Device

/-!
# Well-formed geometry

`WellFormed` is what the functions of the driver take for granted about `sfat_fs_info`: the sizes
are the powers of two that the bit counts name.  `Placed` adds where the areas of the volume lie:
there is a data area, the first FAT is long enough for every cluster, its cluster numbers fit its
words, it ends before the data area, and no address reaches the width of `size_t`.

Under these, `clsToBlk` and `formDirEntryPos` are the linear functions they look like.
-/

namespace SimpleFat

open SimpleFat.Lib

/-- **The sizes agree**: what the driver computes with shifts and masks is exact. -/
structure WellFormed (fs : FsInfo) : Prop where
  blockSize_eq : fs.blockSize = 2 ^ fs.blockBits
  blockBits_ge : 9 ≤ fs.blockBits
  clusterSize_eq : fs.clusterSize = 2 ^ fs.clusterBits
  clusterSize_blocks : fs.clusterSize = fs.blkPerClus * fs.blockSize
  clusterBits_lt : fs.clusterBits < 16
  direntPerBlk_eq : fs.direntPerBlk = fs.blockSize / 32
  clusters_lt : fs.clusters < sfatEntryMax

/-- A block is a power of two of at least four bytes, so that no word of the FAT crosses blocks. -/
structure WordBlocks (fs : FsInfo) : Prop where
  blockSize_eq : fs.blockSize = 2 ^ fs.blockBits
  blockBits_ge : 2 ≤ fs.blockBits

theorem WellFormed.wordBlocks {fs : FsInfo} (h : WellFormed fs) : WordBlocks fs :=
  ⟨h.blockSize_eq, Nat.le_trans (by omega) h.blockBits_ge⟩

/-- Blocks and clusters have the sizes that the bit counts name. -/
structure ClusterSizes (fs : FsInfo) : Prop where
  blockSize_eq : fs.blockSize = 2 ^ fs.blockBits
  clusterSize_eq : fs.clusterSize = 2 ^ fs.clusterBits
  clusterSize_blocks : fs.clusterSize = fs.blkPerClus * fs.blockSize

theorem WellFormed.clusterSizes {fs : FsInfo} (h : WellFormed fs) : ClusterSizes fs :=
  ⟨h.blockSize_eq, h.clusterSize_eq, h.clusterSize_blocks⟩

/-- **The areas are in place**: FAT, then data, below the width of an address. -/
structure Placed (fs : FsInfo) : Prop extends WellFormed fs where
  clusters_pos : 1 ≤ fs.clusters
  fat_covers : fs.clusters ≤ fs.fatLengthBlk * (fs.blockSize / 4)
  fat_words : fs.fatLengthBlk * (fs.blockSize / 4) ≤ 2 ^ 32
  fat_before_data : fs.fatStartBlk + fs.fatLengthBlk ≤ fs.dataStartBlk
  dataStartBlk_lt : fs.dataStartBlk < 2 ^ 47

/-! ### Sizes -/

section Sizes

variable {fs : FsInfo}

theorem ClusterSizes.blockBits_le (h : ClusterSizes fs) : fs.blockBits ≤ fs.clusterBits := by
  have hpos : fs.blkPerClus ≠ 0 := by
    intro h0
    have hz : 2 ^ fs.clusterBits = 0 := by
      rw [← h.clusterSize_eq, h.clusterSize_blocks, h0, Nat.zero_mul]
    exact absurd hz (Nat.ne_of_gt (Nat.two_pow_pos _))
  have hle : 2 ^ fs.blockBits ≤ 2 ^ fs.clusterBits := by
    rw [← h.blockSize_eq, ← h.clusterSize_eq, h.clusterSize_blocks]
    exact Nat.le_mul_of_pos_left _ (Nat.pos_of_ne_zero hpos)
  exact (Nat.pow_le_pow_iff_right Nat.one_lt_two).mp hle

theorem ClusterSizes.blkPerClus_eq (h : ClusterSizes fs) :
    fs.blkPerClus = 2 ^ (fs.clusterBits - fs.blockBits) := by
  apply Nat.eq_of_mul_eq_mul_right (Nat.two_pow_pos fs.blockBits)
  rw [← Nat.pow_add, Nat.sub_add_cancel h.blockBits_le, ← h.blockSize_eq, ← h.clusterSize_eq,
    h.clusterSize_blocks]

theorem WellFormed.blkPerClus_eq (h : WellFormed fs) :
    fs.blkPerClus = 2 ^ (fs.clusterBits - fs.blockBits) := h.clusterSizes.blkPerClus_eq

theorem WellFormed.blkPerClus_pos (h : WellFormed fs) : 0 < fs.blkPerClus := by
  rw [h.blkPerClus_eq]
  exact Nat.two_pow_pos _

/-- A block is a whole number of slots and of FAT words. -/
theorem WellFormed.blockSize_slots (h : WellFormed fs) :
    ∃ d, 16 ≤ d ∧ fs.direntPerBlk = d ∧ fs.blockSize = 32 * d := by
  obtain ⟨j, hj⟩ := Nat.exists_eq_add_of_le h.blockBits_ge
  have hsz : fs.blockSize = 512 * 2 ^ j := by rw [h.blockSize_eq, hj, Nat.pow_add]
  have hpos := Nat.two_pow_pos j
  refine ⟨16 * 2 ^ j, by omega, ?_, by omega⟩
  rw [h.direntPerBlk_eq]
  omega

theorem WellFormed.clusterSize_pos (h : WellFormed fs) : 0 < fs.clusterSize := by
  rw [h.clusterSize_eq]
  exact Nat.two_pow_pos _

theorem WellFormed.clusterSize_le (h : WellFormed fs) : fs.clusterSize ≤ 2 ^ 15 := by
  have hb := h.clusterBits_lt
  rw [h.clusterSize_eq]
  exact Nat.pow_le_pow_right (by omega) (by omega)

theorem WellFormed.blockSize_le (h : WellFormed fs) : fs.blockSize ≤ fs.clusterSize := by
  rw [h.clusterSize_blocks]
  exact Nat.le_mul_of_pos_left _ h.blkPerClus_pos

theorem WellFormed.clustersPred_eq (h : WellFormed fs) (hpos : 1 ≤ fs.clusters) :
    fs.clustersPred = fs.clusters - 1 := by
  have hlt := h.clusters_lt
  rw [sfatEntryMax] at hlt
  rw [FsInfo.clustersPred_def, sizeT]
  omega

end Sizes

/-! ### Addresses -/

section Addresses

variable {fs : FsInfo}

/-- `CLS_TO_BLK` without the reduction of `size_t`. -/
theorem clsToBlk_of_lt (hbits : fs.clusterBits - fs.blockBits < 15)
    (hdata : fs.dataStartBlk < 2 ^ 56) {cls : ℕ} (hcls : cls < 2 ^ 32) :
    clsToBlk fs cls = fs.dataStartBlk + cls * 2 ^ (fs.clusterBits - fs.blockBits) := by
  have hpow : 2 ^ (fs.clusterBits - fs.blockBits) ≤ 2 ^ 15 :=
    Nat.pow_le_pow_right (by omega) (by omega)
  have hmul : cls * 2 ^ (fs.clusterBits - fs.blockBits) ≤ 2 ^ 32 * 2 ^ 15 :=
    Nat.mul_le_mul (Nat.le_of_lt hcls) hpow
  rw [clsToBlk_def, Nat.shiftLeft_eq, sizeT, Nat.mod_eq_of_lt (by omega)]

/-- The first byte of a cluster. -/
theorem clsToBlk_mul (hblk : fs.blockSize = 2 ^ fs.blockBits) (hle : fs.blockBits ≤ fs.clusterBits)
    (hbits : fs.clusterBits - fs.blockBits < 15) (hdata : fs.dataStartBlk < 2 ^ 56) {cls : ℕ}
    (hcls : cls < 2 ^ 32) :
    clsToBlk fs cls * fs.blockSize =
      fs.dataStartBlk * fs.blockSize + cls * 2 ^ fs.clusterBits := by
  rw [clsToBlk_of_lt hbits hdata hcls, Nat.add_mul, Nat.mul_assoc, hblk, ← Nat.pow_add,
    Nat.sub_add_cancel hle]

end Addresses

end SimpleFat

import SimpleFat.DirectoryUpdate
import SimpleFat.StoredSize

/-!
# Slot addresses on both word sizes

`form_dir_entry_pos` is declared to return a 64-bit `loff_t`, but computes it in `size_t`, and
`sfat_inode_write_to_hd` takes the result apart again.  The functions are here once more for a
`size_t` of 32 or 64 bits; the definitions of `VolumeLayout` are those of 64 bits.

* `clsToBlkOn_w64`, `formDirEntryPosOn_w64`, `writeBackBlk_w64`, `writeBackPos_w64` — these are the
  functions of the model;
* `formDirEntryPosOn_eq` — the exact address, modulo the number of values of `size_t`;
* `slot_codec_iff` — it is the exact address when the data area ends within that number of bytes.
-/

namespace SimpleFat

open SimpleFat.Lib

/-- The width of `size_t` and `unsigned long`. -/
inductive WordSize where
  | w32
  | w64
  deriving DecidableEq, Repr

/-- The number of values of `size_t`. -/
def WordSize.count : WordSize → ℕ
  | .w32 => 2 ^ 32
  | .w64 => 2 ^ 64

def clsToBlkOn (w : WordSize) (fs : FsInfo) (cls : ℕ) : ℕ :=
  (fs.dataStartBlk + (cls <<< (fs.clusterBits - fs.blockBits)) % w.count) % w.count

/-- `form_dir_entry_pos`: every operation is one of `size_t`. -/
def formDirEntryPosOn (w : WordSize) (fs : FsInfo) (cls blk offset : ℕ) : ℕ :=
  ((((clsToBlkOn w fs cls + blk) % w.count) <<< fs.blockBits) % w.count + offset) % w.count

/-- `blk` of `sfat_inode_write_to_hd`: a shift of the `loff_t`, stored in a `size_t`. -/
def writeBackBlk (w : WordSize) (fs : FsInfo) (iPos : ℕ) : ℕ :=
  loffShiftRight iPos fs.blockBits % w.count

def writeBackPos (w : WordSize) (fs : FsInfo) (iPos : ℕ) : ℕ :=
  (iPos &&& (fs.blockSize - 1)) % w.count

variable {w : WordSize} {fs : FsInfo} {cls blk offset : ℕ}

/-- A reduced factor of a reduced sum. -/
theorem mod_mul_add_mod (a k o m : ℕ) : (a % m * k + o) % m = (a * k + o) % m := by
  rw [← Nat.mod_add_mod, Nat.mod_mul_mod, Nat.mod_add_mod]

/-! ### The model has 64 bits -/

theorem clsToBlkOn_w64 (fs : FsInfo) (cls : ℕ) : clsToBlkOn .w64 fs cls = clsToBlk fs cls := by
  rw [clsToBlkOn, clsToBlk_def, Nat.add_mod_mod]
  rfl

theorem formDirEntryPosOn_w64 (fs : FsInfo) (cls blk offset : ℕ) :
    formDirEntryPosOn .w64 fs cls blk offset = formDirEntryPos fs cls blk offset := by
  rw [formDirEntryPosOn, formDirEntryPos_def, clsToBlkOn_w64, Nat.mod_add_mod, Nat.shiftLeft_eq,
    Nat.shiftLeft_eq, mod_mul_add_mod]
  rfl

theorem loffShiftRight_lt {iPos : ℕ} (h : iPos < sizeT) (bits : ℕ) :
    loffShiftRight iPos bits < sizeT := by
  rw [sizeT] at h
  rw [loffShiftRight, sizeT]
  split
  · rw [Nat.shiftRight_eq_div_pow]
    exact Nat.lt_of_le_of_lt (Nat.div_le_self _ _) h
  · exact Nat.lt_of_le_of_lt (Nat.sub_le _ _) (by decide)

theorem writeBackBlk_w64 (fs : FsInfo) {inode : Inode} (h : inode.iPos < sizeT) :
    writeBackBlk .w64 fs inode.iPos = flushBlk fs inode :=
  Nat.mod_eq_of_lt (loffShiftRight_lt h fs.blockBits)

theorem writeBackPos_w64 (fs : FsInfo) {inode : Inode} (h : inode.iPos < sizeT) :
    writeBackPos .w64 fs inode.iPos = flushPos fs inode :=
  Nat.mod_eq_of_lt (Nat.lt_of_le_of_lt Nat.and_le_left h)

/-! ### The exact address -/

def exactPosition (fs : FsInfo) (cls blk offset : ℕ) : ℕ :=
  (fs.dataStartBlk + cls * fs.blkPerClus + blk) * fs.blockSize + offset

def dataEnd (fs : FsInfo) : ℕ := (fs.dataStartBlk + fs.clusters * fs.blkPerClus) * fs.blockSize

structure IsSlot (fs : FsInfo) (cls blk offset : ℕ) : Prop where
  cls_lt : cls < fs.clusters
  blk_lt : blk < fs.blkPerClus
  offset_lt : offset < fs.blockSize
  offset_aligned : 32 ∣ offset

/-- **`form_dir_entry_pos` is the exact address modulo the width of `size_t`.** -/
theorem formDirEntryPosOn_eq (hsz : ClusterSizes fs) (w : WordSize) (cls blk offset : ℕ) :
    formDirEntryPosOn w fs cls blk offset = exactPosition fs cls blk offset % w.count := by
  rw [formDirEntryPosOn, clsToBlkOn, exactPosition, Nat.shiftLeft_eq, Nat.shiftLeft_eq,
    ← hsz.blkPerClus_eq, ← hsz.blockSize_eq, Nat.add_mod_mod, Nat.mod_add_mod _ _ blk,
    Nat.mod_add_mod _ _ offset, mod_mul_add_mod]

/-- A block is a whole number of slots. -/
theorem slots_dvd_blockSize (hsz : ClusterSizes fs) (hbits : 5 ≤ fs.blockBits) :
    32 ∣ fs.blockSize := by
  rw [hsz.blockSize_eq]
  exact Nat.pow_dvd_pow 2 hbits

/-- A slot ends before the data area does. -/
theorem IsSlot.end_le (h : IsSlot fs cls blk offset) (hslots : 32 ∣ fs.blockSize) :
    exactPosition fs cls blk offset + 32 ≤ dataEnd fs := by
  have hoff : offset + 32 ≤ fs.blockSize := by
    have hlt := h.offset_lt
    have haligned := h.offset_aligned
    omega
  have hrow : (cls + 1) * fs.blkPerClus ≤ fs.clusters * fs.blkPerClus :=
    Nat.mul_le_mul_right _ h.cls_lt
  have hblk : fs.dataStartBlk + cls * fs.blkPerClus + blk + 1 ≤
      fs.dataStartBlk + fs.clusters * fs.blkPerClus := by
    rw [Nat.add_mul, Nat.one_mul] at hrow
    have hlt := h.blk_lt
    omega
  have hmul := Nat.mul_le_mul_right fs.blockSize hblk
  rw [Nat.add_mul _ 1, Nat.one_mul] at hmul
  rw [exactPosition, dataEnd]
  omega

/-- Different slots have different exact addresses. -/
theorem exactPosition_inj {cls' blk' offset' : ℕ} (h : IsSlot fs cls blk offset)
    (h' : IsSlot fs cls' blk' offset')
    (heq : exactPosition fs cls blk offset = exactPosition fs cls' blk' offset') :
    cls = cls' ∧ blk = blk' ∧ offset = offset' := by
  rw [exactPosition, exactPosition] at heq
  obtain ⟨hblock, hoffset⟩ := mul_add_inj h.offset_lt h'.offset_lt heq
  obtain ⟨hcls, hblk⟩ := mul_add_inj h.blk_lt h'.blk_lt
    (show cls * fs.blkPerClus + blk = cls' * fs.blkPerClus + blk' by omega)
  exact ⟨hcls, hblk, hoffset⟩

/-- Shift and mask take an exact address apart. -/
theorem writeBack_exact (hsz : ClusterSizes fs) (hoff : offset < fs.blockSize)
    (hlt : exactPosition fs cls blk offset < w.count)
    (hloff : exactPosition fs cls blk offset < 2 ^ 63) :
    writeBackBlk w fs (exactPosition fs cls blk offset) =
        fs.dataStartBlk + cls * fs.blkPerClus + blk ∧
      writeBackPos w fs (exactPosition fs cls blk offset) = offset := by
  have hpos : 0 < fs.blockSize := Nat.zero_lt_of_lt hoff
  have hdiv : exactPosition fs cls blk offset / fs.blockSize =
      fs.dataStartBlk + cls * fs.blkPerClus + blk := by
    rw [exactPosition, Nat.mul_comm, Nat.mul_add_div hpos, Nat.div_eq_of_lt hoff, Nat.add_zero]
  have hmod : exactPosition fs cls blk offset % fs.blockSize = offset := by
    rw [exactPosition, Nat.mul_comm, Nat.mul_add_mod, Nat.mod_eq_of_lt hoff]
  constructor
  · rw [writeBackBlk, loffShiftRight, if_pos hloff, Nat.shiftRight_eq_div_pow, ← hsz.blockSize_eq]
    rw [Nat.mod_eq_of_lt (Nat.lt_of_le_of_lt (Nat.div_le_self _ _) hlt), hdiv]
  · have hmask : exactPosition fs cls blk offset &&& (fs.blockSize - 1) =
        exactPosition fs cls blk offset % fs.blockSize := by
      rw [hsz.blockSize_eq, Nat.and_two_pow_sub_one_eq_mod]
    rw [writeBackPos, hmask, Nat.mod_eq_of_lt (Nat.lt_of_le_of_lt (Nat.mod_le _ _) hlt), hmod]

/-! ### The codec -/

/-- The address of every slot is exact, no two slots share one, and it can be taken apart. -/
structure SlotCodec (w : WordSize) (fs : FsInfo) : Prop where
  exact : ∀ cls blk offset, IsSlot fs cls blk offset →
    formDirEntryPosOn w fs cls blk offset = exactPosition fs cls blk offset
  injective : ∀ cls blk offset cls' blk' offset', IsSlot fs cls blk offset →
    IsSlot fs cls' blk' offset' →
    formDirEntryPosOn w fs cls blk offset = formDirEntryPosOn w fs cls' blk' offset' →
    cls = cls' ∧ blk = blk' ∧ offset = offset'
  recovers : ∀ cls blk offset, IsSlot fs cls blk offset →
    writeBackBlk w fs (formDirEntryPosOn w fs cls blk offset) =
        fs.dataStartBlk + cls * fs.blkPerClus + blk ∧
      writeBackPos w fs (formDirEntryPosOn w fs cls blk offset) = offset

/-- The codec of a data area that ends within the addresses. -/
theorem slotCodec_of_dataEnd (hsz : ClusterSizes fs) (hslots : 32 ∣ fs.blockSize)
    (hlt : dataEnd fs ≤ w.count) (hloff : dataEnd fs < 2 ^ 63) : SlotCodec w fs := by
  have hexact : ∀ cls blk offset, IsSlot fs cls blk offset →
      formDirEntryPosOn w fs cls blk offset = exactPosition fs cls blk offset := by
    intro cls blk offset h
    have hend := h.end_le hslots
    rw [formDirEntryPosOn_eq hsz, Nat.mod_eq_of_lt (by omega)]
  constructor
  · exact hexact
  · intro cls blk offset cls' blk' offset' h h' heq
    rw [hexact _ _ _ h, hexact _ _ _ h'] at heq
    exact exactPosition_inj h h' heq
  · intro cls blk offset h
    have hend := h.end_le hslots
    rw [hexact _ _ _ h]
    exact writeBack_exact hsz h.offset_lt (by omega) (by omega)

/-- The last slot of the data area. -/
theorem lastSlot (hsz : ClusterSizes fs) (hslots : 32 ∣ fs.blockSize) (hclus : 0 < fs.clusters) :
    IsSlot fs (fs.clusters - 1) (fs.blkPerClus - 1) (fs.blockSize - 32) ∧
      exactPosition fs (fs.clusters - 1) (fs.blkPerClus - 1) (fs.blockSize - 32) + 32 =
        dataEnd fs := by
  have hblk : 0 < fs.blkPerClus := by
    rw [hsz.blkPerClus_eq]
    exact Nat.two_pow_pos _
  have hsize : 32 ≤ fs.blockSize := by
    apply Nat.le_of_dvd _ hslots
    rw [hsz.blockSize_eq]
    exact Nat.two_pow_pos _
  constructor
  · exact ⟨by omega, by omega, by omega, (Nat.dvd_sub hslots (Nat.dvd_refl 32))⟩
  · obtain ⟨n, hn⟩ : ∃ n, fs.clusters = n + 1 := ⟨fs.clusters - 1, by omega⟩
    obtain ⟨b, hb⟩ : ∃ b, fs.blkPerClus = b + 1 := ⟨fs.blkPerClus - 1, by omega⟩
    rw [exactPosition, dataEnd, hn, hb, Nat.add_sub_cancel, Nat.add_sub_cancel, Nat.add_assoc,
      Nat.sub_add_cancel hsize, Nat.add_mul n 1, Nat.one_mul,
      show fs.dataStartBlk + (n * (b + 1) + (b + 1)) =
        (fs.dataStartBlk + n * (b + 1) + b) + 1 by omega, Nat.add_mul _ 1, Nat.one_mul]

/-- An exact codec reaches the end of the data area. -/
theorem SlotCodec.dataEnd_le (h : SlotCodec w fs) (hsz : ClusterSizes fs)
    (hslots : 32 ∣ fs.blockSize) (hclus : 0 < fs.clusters) : dataEnd fs ≤ w.count := by
  obtain ⟨hslot, hend⟩ := lastSlot hsz hslots hclus
  have hexact := h.exact _ _ _ hslot
  rw [formDirEntryPosOn_eq hsz] at hexact
  have hpos : 0 < w.count := by
    cases w with
    | w32 => decide
    | w64 => decide
  have hlt := Nat.mod_lt
    (exactPosition fs (fs.clusters - 1) (fs.blkPerClus - 1) (fs.blockSize - 32)) hpos
  rw [hexact] at hlt
  have hdvd : 32 ∣ dataEnd fs := Nat.dvd_mul_left_of_dvd hslots _
  have hcount : 32 ∣ w.count := by
    cases w with
    | w32 => decide
    | w64 => decide
  omega

/-- **When slot addresses are a codec**: for every geometry whose data area fits in a device, with
64 bits always, with 32 bits exactly when the data area ends within 4 GiB. -/
theorem slot_codec_iff (hsz : ClusterSizes fs) (hbits : 5 ≤ fs.blockBits)
    (hclus : 0 < fs.clusters) {bytes : ℕ} (hfit : dataEnd fs ≤ bytes) (hdev : bytes < 2 ^ 63)
    (w : WordSize) : SlotCodec w fs ↔ w = .w64 ∨ dataEnd fs ≤ 2 ^ 32 := by
  have hslots := slots_dvd_blockSize hsz hbits
  have hloff : dataEnd fs < 2 ^ 63 := Nat.lt_of_le_of_lt hfit hdev
  cases w with
  | w64 =>
    have hlt : dataEnd fs ≤ WordSize.w64.count := by
      rw [WordSize.count]
      omega
    exact iff_of_true (slotCodec_of_dataEnd hsz hslots hlt hloff) (.inl rfl)
  | w32 =>
    constructor
    · intro h
      exact .inr (h.dataEnd_le hsz hslots hclus)
    · rintro (hw | hend)
      · cases hw
      · exact slotCodec_of_dataEnd hsz hslots hend hloff

theorem slot_codec_iff_8G :
    SlotCodec .w32 sbi8G.fsInfo ↔ WordSize.w32 = .w64 ∨ dataEnd sbi8G.fsInfo ≤ 2 ^ 32 :=
  slot_codec_iff placed8G.toWellFormed.clusterSizes (by decide) (by decide)
    (show dataEnd sbi8G.fsInfo ≤ 2 ^ 33 by decide) (by decide) .w32

/-- **A formatted volume of 8 GiB on a target of 32 bits**: a slot behind 4 GiB gets the address 3584,
which is in the reserved area. -/
theorem slot_codec_fails : WellFormed sbi8G.fsInfo ∧ dataEnd sbi8G.fsInfo ≤ 16777216 * 512 ∧
    formDirEntryPosOn .w32 sbi8G.fsInfo 2080767 0 0 = 3584 ∧ ¬ SlotCodec .w32 sbi8G.fsInfo := by
  have hwrap : formDirEntryPosOn .w32 sbi8G.fsInfo 2080767 0 0 = 3584 := by decide
  refine ⟨placed8G.toWellFormed, by decide, hwrap, ?_⟩
  intro h
  have hexact := h.exact 2080767 0 0 ⟨by decide, by decide, by decide, by decide⟩
  rw [hwrap] at hexact
  revert hexact
  decide

end SimpleFat

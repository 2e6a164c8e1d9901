import SimpleFat.DirectorySlots

/-!
# Directory entries in the volume

The 32 bytes of an entry read back as the entry, writes elsewhere leave it alone, and a block that
is read, changed inside and written back changes the same bytes of the volume.  `slotAddr` is the
byte address of a slot; it is what `form_dir_entry_pos` computes from the number of the block in its
cluster.
-/

namespace SimpleFat

open SimpleFat.Lib

/-! ### Entries as bytes -/

/-- The number fields have the width of the packed entry. -/
structure SfatDirEntry.Fits (de : SfatDirEntry) : Prop where
  crtTime : de.crtTime < 2 ^ 32
  lstAccTime : de.lstAccTime < 2 ^ 32
  wrtTime : de.wrtTime < 2 ^ 32
  size : de.size < 2 ^ 32
  fstClsNo : de.fstClsNo < 2 ^ 32

theorem direntAt_fits (b : ℕ → UInt8) (off : ℕ) : (direntAt b off).Fits :=
  ⟨le32_lt _ _, le32_lt _ _, le32_lt _ _, le32_lt _ _, le32_lt _ _⟩

theorem sfatFormDirEntry_fits (isdir : Bool) (name : Vector UInt8 11) (startCls size tvSec : ℕ) :
    (sfatFormDirEntry isdir name startCls size tvSec).Fits :=
  ⟨Nat.mod_lt _ (by decide), Nat.mod_lt _ (by decide), Nat.mod_lt _ (by decide),
    Nat.mod_lt _ (by decide), Nat.mod_lt _ (by decide)⟩

/-- An entry depends on its 32 bytes. -/
theorem direntAt_congr {b b' : ℕ → UInt8} {off off' : ℕ}
    (h : ∀ i < 32, b (off + i) = b' (off' + i)) : direntAt b off = direntAt b' off' := by
  have hword : ∀ k, k + 4 ≤ 32 → le32 b (off + k) = le32 b' (off' + k) := fun k hk =>
    le32_congr fun i hi => by rw [Nat.add_assoc, Nat.add_assoc, h _ (by omega)]
  have hname : (Vector.ofFn fun i : Fin 11 => b (off + i)) = Vector.ofFn fun i => b' (off' + i) := by
    congr 1
    funext i
    exact h i (by omega)
  rw [direntAt, direntAt, hname, h 11 (by omega), hword 12 (by omega), hword 16 (by omega),
    hword 20 (by omega), hword 24 (by omega), hword 28 (by omega)]

theorem direntAt_window (b : ℕ → UInt8) (base off : ℕ) :
    direntAt (window b base) off = direntAt b (base + off) :=
  direntAt_congr fun i _ => by rw [window_apply, Nat.add_assoc]

/-- An entry in a block is the entry in the volume. -/
theorem direntAt_blockAt (v : Vol) (sz b off : ℕ) :
    direntAt (blockAt v sz b) off = direntAt v (b * sz + off) := direntAt_window v (b * sz) off

theorem direntAt_patch_disjoint (b g : ℕ → UInt8) {pos n off : ℕ}
    (h : pos + n ≤ off ∨ off + 32 ≤ pos) : direntAt (patch b pos n g) off = direntAt b off := by
  refine direntAt_congr fun i hi => ?_
  rcases h with h | h
  · exact patch_of_ge b g (by omega)
  · exact patch_of_lt b g (by omega)

/-- The packed bytes are the entry. -/
theorem direntAt_bytes {de : SfatDirEntry} (h : de.Fits) : direntAt de.bytes 0 = de := by
  have hword : ∀ k x, (∀ i < 4, de.bytes (k + i) = le32Bytes x i) → x < 2 ^ 32 →
      le32 de.bytes (0 + k) = x := fun k x hb hx => by
    have hsame : le32 de.bytes k = le32 (le32Bytes x) 0 :=
      le32_congr fun i hi => by rw [hb i hi, Nat.zero_add]
    rw [Nat.zero_add, hsame, le32_le32Bytes, Nat.mod_eq_of_lt hx]
  have hname : (Vector.ofFn fun i : Fin 11 => de.bytes (0 + i)) = de.name := by
    ext i hi
    rw [Vector.getElem_ofFn, Nat.zero_add, SfatDirEntry.bytes, dif_pos hi]
  have hattr : de.bytes (0 + 11) = de.attr := rfl
  have h12 : ∀ i < 4, de.bytes (12 + i) = le32Bytes de.crtTime i := fun i hi => by
    rw [SfatDirEntry.bytes, dif_neg (by omega), if_neg (by omega), if_pos (by omega),
      Nat.add_sub_cancel_left]
  have h16 : ∀ i < 4, de.bytes (16 + i) = le32Bytes de.lstAccTime i := fun i hi => by
    rw [SfatDirEntry.bytes, dif_neg (by omega), if_neg (by omega), if_neg (by omega),
      if_pos (by omega), Nat.add_sub_cancel_left]
  have h20 : ∀ i < 4, de.bytes (20 + i) = le32Bytes de.wrtTime i := fun i hi => by
    rw [SfatDirEntry.bytes, dif_neg (by omega), if_neg (by omega), if_neg (by omega),
      if_neg (by omega), if_pos (by omega), Nat.add_sub_cancel_left]
  have h24 : ∀ i < 4, de.bytes (24 + i) = le32Bytes de.size i := fun i hi => by
    rw [SfatDirEntry.bytes, dif_neg (by omega), if_neg (by omega), if_neg (by omega),
      if_neg (by omega), if_neg (by omega), if_pos (by omega), Nat.add_sub_cancel_left]
  have h28 : ∀ i < 4, de.bytes (28 + i) = le32Bytes de.fstClsNo i := fun i hi => by
    rw [SfatDirEntry.bytes, dif_neg (by omega), if_neg (by omega), if_neg (by omega),
      if_neg (by omega), if_neg (by omega), if_neg (by omega), Nat.add_sub_cancel_left]
  rw [direntAt, hname, hattr, hword 12 _ h12 h.crtTime, hword 16 _ h16 h.lstAccTime,
    hword 20 _ h20 h.wrtTime, hword 24 _ h24 h.size, hword 28 _ h28 h.fstClsNo]

/-- A stored entry is read back. -/
theorem direntAt_putDirent (b : ℕ → UInt8) (off : ℕ) {de : SfatDirEntry} (h : de.Fits) :
    direntAt (putDirent b off de) off = de := by
  have hsame : direntAt (putDirent b off de) off = direntAt de.bytes 0 :=
    direntAt_congr fun i hi => by rw [putDirent, patch_add _ _ hi, Nat.zero_add]
  rw [hsame, direntAt_bytes h]

theorem direntAt_putDirent_ne (b : ℕ → UInt8) {off off' : ℕ} (de : SfatDirEntry)
    (h : off + 32 ≤ off' ∨ off' + 32 ≤ off) :
    direntAt (putDirent b off de) off' = direntAt b off' := direntAt_patch_disjoint b _ h

/-- Storing an attribute changes the attribute only. -/
theorem direntAt_putAttr (b : ℕ → UInt8) (off : ℕ) (attr : UInt8) :
    direntAt (putAttr b off attr) off = { direntAt b off with attr := attr } := by
  have hword : ∀ k, 12 ≤ k → le32 (putAttr b off attr) (off + k) = le32 b (off + k) :=
    fun k hk => le32_patch_disjoint b _ (by omega)
  have hname : (Vector.ofFn fun i : Fin 11 => putAttr b off attr (off + i)) =
      Vector.ofFn fun i => b (off + i) := by
    congr 1
    funext i
    exact patch_of_lt b _ (by omega)
  have hattr : putAttr b off attr (off + 11) = attr := patch_of_mem _ _ (by omega) (by omega)
  rw [direntAt, hname, hattr, hword 12 (by omega), hword 16 (by omega), hword 20 (by omega),
    hword 24 (by omega), hword 28 (by omega)]
  rfl

theorem direntAt_putAttr_ne (b : ℕ → UInt8) {off off' : ℕ} (attr : UInt8)
    (h : off + 12 ≤ off' ∨ off' + 32 ≤ off + 11) :
    direntAt (putAttr b off attr) off' = direntAt b off' := direntAt_patch_disjoint b _ (by omega)

/-! ### Blocks read, changed and written back -/

theorem putBlock_blockAt (v : Vol) (sz b : ℕ) : putBlock v sz b (blockAt v sz b) = v :=
  patch_window v _ _

theorem putBlock_patch (v : Vol) (g d : ℕ → UInt8) {sz b pos n : ℕ} (h : pos + n ≤ sz) :
    putBlock v sz b (patch d pos n g) = patch (putBlock v sz b d) (b * sz + pos) n g :=
  patch_patch_inside v d g h

theorem putBlock_putDirent (v : Vol) (d : Page) {sz b off : ℕ} (h : off + 32 ≤ sz)
    (de : SfatDirEntry) :
    putBlock v sz b (putDirent d off de) = putDirent (putBlock v sz b d) (b * sz + off) de :=
  putBlock_patch v _ d h

theorem putBlock_putAttr (v : Vol) (d : Page) {sz b off : ℕ} (h : off + 32 ≤ sz) (attr : UInt8) :
    putBlock v sz b (putAttr d off attr) = putAttr (putBlock v sz b d) (b * sz + off) attr :=
  putBlock_patch v _ d (by omega)

/-! ### Addresses of slots -/

def slotAddr (fs : FsInfo) (cls blk idx : ℕ) : ℕ := (clsToBlk fs cls + blk) * fs.blockSize + 32 * idx

def Slot.addr (fs : FsInfo) (s : Slot) : ℕ := slotAddr fs s.cls s.blk s.idx

section Addresses

variable {fs : FsInfo}

/-- A slot holds the entry at its address. -/
theorem slot_de {v : Vol} {cls : ℕ} {s : Slot} (h : s ∈ clusterSlots fs v cls) :
    s.de = direntAt v (s.addr fs) := by
  obtain ⟨rfl, -, -, hde⟩ := mem_clusterSlots.mp h
  rw [hde, direntAt_blockAt, Slot.addr, slotAddr]

theorem Placed.clsToBlk_eq (h : Placed fs) {cls : ℕ} (hcls : cls < 2 ^ 32) :
    clsToBlk fs cls = fs.dataStartBlk + cls * fs.blkPerClus := by
  have hbits := h.clusterBits_lt
  have hblk := h.blockBits_ge
  have hdata := h.dataStartBlk_lt
  rw [clsToBlk_of_lt (by omega) (by omega) hcls, h.blkPerClus_eq]

/-- The blocks of the data area have small numbers. -/
theorem Placed.clsToBlk_lt (h : Placed fs) {cls : ℕ} (hcls : cls < 2 ^ 32) :
    clsToBlk fs cls + fs.blkPerClus ≤ 2 ^ 47 + 2 ^ 38 ∧ fs.blockSize ≤ 2 ^ 15 := by
  have hbits := h.clusterBits_lt
  have hblk := h.blockBits_ge
  have hdata := h.dataStartBlk_lt
  have hpow : fs.blkPerClus ≤ 2 ^ 6 := by
    rw [h.blkPerClus_eq]
    exact Nat.pow_le_pow_right (by omega) (by omega)
  have hmul : (cls + 1) * fs.blkPerClus ≤ 2 ^ 32 * 2 ^ 6 := Nat.mul_le_mul hcls hpow
  refine ⟨?_, h.blockSize_le.trans h.clusterSize_le⟩
  rw [h.clsToBlk_eq hcls]
  rw [Nat.add_mul, Nat.one_mul] at hmul
  omega

/-- A slot lies in one block. -/
theorem slotAddr_lt (h : Placed fs) {cls blk idx : ℕ} (hcls : cls < 2 ^ 32)
    (hblk : blk < fs.blkPerClus) (hidx : idx < fs.direntPerBlk) :
    slotAddr fs cls blk idx + 32 ≤ 2 ^ 63 := by
  obtain ⟨hlt, hbs⟩ := h.clsToBlk_lt hcls
  obtain ⟨d, -, hd, hsz⟩ := h.blockSize_slots
  have hmul : (clsToBlk fs cls + blk + 1) * fs.blockSize ≤ (2 ^ 47 + 2 ^ 38) * 2 ^ 15 :=
    Nat.mul_le_mul (by omega) hbs
  rw [Nat.add_mul, Nat.one_mul] at hmul
  rw [slotAddr]
  omega

/-- `form_dir_entry_pos` is the address of a slot, if it gets the number of the block in its
cluster. -/
theorem formDirEntryPos_eq (h : Placed fs) {cls blk idx : ℕ} (hcls : cls < 2 ^ 32)
    (hblk : blk < fs.blkPerClus) (hidx : idx < fs.direntPerBlk) :
    formDirEntryPos fs cls blk (idx * 32) = slotAddr fs cls blk idx := by
  have hlt := slotAddr_lt h hcls hblk hidx
  rw [formDirEntryPos_def, Nat.shiftLeft_eq, ← h.blockSize_eq, Nat.mul_comm idx, ← slotAddr, sizeT,
    Nat.mod_eq_of_lt (by omega)]

/-- With the number of a block of the volume, it is another address. -/
theorem formDirEntryPos_absolute (h : Placed fs) {cls blk idx : ℕ} (hcls : cls < 2 ^ 32)
    (hblk : blk < fs.blkPerClus) (hidx : idx < fs.direntPerBlk) :
    slotAddr fs cls blk idx < formDirEntryPos fs cls (clsToBlk fs cls + blk + 1) (idx * 32) := by
  obtain ⟨hlt, hbs⟩ := h.clsToBlk_lt hcls
  obtain ⟨d, hd16, hd, hsz⟩ := h.blockSize_slots
  have hmul : (clsToBlk fs cls + (clsToBlk fs cls + blk + 1) + 1) * fs.blockSize ≤
      (2 * (2 ^ 47 + 2 ^ 38) + 1) * 2 ^ 15 := Nat.mul_le_mul (by omega) hbs
  rw [Nat.add_mul _ 1, Nat.one_mul] at hmul
  have hmore : (clsToBlk fs cls + blk + 1) * fs.blockSize ≤
      (clsToBlk fs cls + (clsToBlk fs cls + blk + 1)) * fs.blockSize :=
    Nat.mul_le_mul_right _ (by omega)
  rw [Nat.add_mul _ 1, Nat.one_mul] at hmore
  rw [formDirEntryPos_def, Nat.shiftLeft_eq, ← h.blockSize_eq, sizeT,
    Nat.mod_eq_of_lt (by omega), slotAddr]
  omega

end Addresses

end SimpleFat

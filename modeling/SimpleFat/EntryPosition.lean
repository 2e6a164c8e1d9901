import SimpleFat.CreateSpec
import SimpleFat.FormattedVolume

/-!
# The position of a directory entry

`i_pos` should be the byte address of the slot that holds the name.  `sfat_free_dentry_locate`
reports the number of the block in its cluster, as `form_dir_entry_pos` wants it;
`sfat_dentry_locate` reports the number of the next block in the volume; and in a new cluster
`sfat_create_file` reports a local that was never set.

* `lookupPlaces_iff` — `sfat_lookup` never has the address of a slot that it finds;
* `createPlaces_iff` — `sfat_create_file` has it, unless a cluster is added and the local is not 0;
* `entry_position_iff` — both.
-/

namespace SimpleFat

open SimpleFat.Lib

variable {look : (blk pos : ℕ) → Page → ℕ} {fs : FsInfo} {v : Vol}

/-! ### The property -/

/-- Every inode that `sfat_lookup` returns has the address of the slot that holds the name. -/
def LookupPlaces (look : (blk pos : ℕ) → Page → ℕ) (sbi : SbInfo) (v : Vol) (dir : Inode)
    (dName : List UInt8) : Prop :=
  wp (lookupWorld look) (sfatLookup sbi dir dName) (fun r _ => ∀ inode, r = .ok (some inode) →
    ∃ s, findName look sbi.fsInfo v dir.iStart (padName dName) = some s ∧
      inode.iPos = s.addr sbi.fsInfo) v

/-- The address of the slot that `sfat_create_file` writes: the first slot that is not in use, or
the first slot of the cluster that is added. -/
inductive CreatedAt (look : (blk pos : ℕ) → Page → ℕ) (fs : FsInfo) (v : Vol) (start : ℕ) :
    ℕ → Prop
  | reused {s : Slot} : firstUnused (chainSlots look fs v start) = some s →
      CreatedAt look fs v start (s.addr fs)
  | added {c : ℕ} : firstUnused (chainSlots look fs v start) = none → FirstFree fs v c →
      CreatedAt look fs v start (slotAddr fs c 0 0)

/-- Every inode that `sfat_create_file` makes has the address of the slot that was written; the
slot holds the name, where the directory has no entry of its own to be flushed. -/
def CreatePlaces (look : (blk pos : ℕ) → Page → ℕ) (sbi : SbInfo) (v : Vol) (dir : Inode)
    (dName : List UInt8) (junk : CreateJunk) : Prop :=
  wp (lookupWorld look) (sfatCreateFile sbi dir dName junk) (fun r v' =>
    ∀ inode, r.1 = .ok (some inode) → CreatedAt look sbi.fsInfo v dir.iStart inode.iPos ∧
      (dir.iIno = sfatRootIno →
        ∃ t, direntAt v' inode.iPos = sfatFormDirEntry false (padName dName) 0 0 t)) v

/-- A new file gets its slot in the new cluster `c`. -/
structure GrowsBy (look : (blk pos : ℕ) → Page → ℕ) (fs : FsInfo) (v : Vol) (start : ℕ)
    (name : Vector UInt8 11) (c : ℕ) : Prop where
  nameFree : NameFree look fs v start name
  full : firstUnused (chainSlots look fs v start) = none
  firstFree : FirstFree fs v c
  linked : (appendTarget look fs (setFatWord fs v c sfatEntryEoc) fs.clusters start).isSome = true

/-! ### Lookup -/

/-- A cluster of a chain is a 32-bit number, if the first one is. -/
theorem walkClusters_lt (hwf : WellFormed fs) {n start c : ℕ} (hstart : start < 2 ^ 32)
    (hc : c ∈ walkClusters look fs v n start) : c < 2 ^ 32 := by
  induction n generalizing start with
  | zero => simp [walkClusters, trail] at hc
  | succ n ih =>
    have hmax := hwf.clusters_lt
    rw [sfatEntryMax] at hmax
    rw [walkClusters_succ] at hc
    rcases List.mem_cons.mp hc with rfl | hc
    · exact hstart
    · split at hc
      · simp at hc
      · split at hc
        · simp at hc
        · exact ih (by omega) hc

/-- Where a slot of a chain is. -/
theorem mem_chainSlots (hwf : WellFormed fs) {start : ℕ} (hstart : start < 2 ^ 32) {s : Slot}
    (hs : s ∈ chainSlots look fs v start) :
    s.cls < 2 ^ 32 ∧ s.blk < fs.blkPerClus ∧ s.idx < fs.direntPerBlk ∧
      s ∈ clusterSlots fs v s.cls := by
  obtain ⟨hcls, hmem⟩ := mem_dirSlots.mp hs
  obtain ⟨-, hblk, hidx, -⟩ := mem_clusterSlots.mp hmem
  exact ⟨walkClusters_lt hwf hstart hcls, hblk, hidx, hmem⟩

/-- **`sfat_lookup` is right exactly when no live slot has the name.** -/
theorem lookupPlaces_iff {sbi : SbInfo} (hp : Placed sbi.fsInfo) {dir : Inode}
    (hstart : dir.iStart < 2 ^ 32) (dName : List UInt8) :
    LookupPlaces look sbi v dir dName ↔
      ∀ s ∈ liveSlots (chainSlots look sbi.fsInfo v dir.iStart),
        strncmpEq (padName dName) s.de.name = false := by
  have hspec : wp (lookupWorld look) (sfatLookup sbi dir dName) _ v := lookup_spec sbi dir dName
  constructor
  · intro h s hs
    by_contra hname
    obtain ⟨t, ht⟩ : ∃ t, findName look sbi.fsInfo v dir.iStart (padName dName) = some t := by
      cases hfind : findName look sbi.fsInfo v dir.iStart (padName dName) with
      | some t => exact ⟨t, rfl⟩
      | none => exact absurd (List.find?_eq_none.mp hfind s hs) (by simpa using hname)
    have hmem : t ∈ chainSlots look sbi.fsInfo v dir.iStart :=
      (mem_live (List.mem_of_find?_eq_some ht)).1
    obtain ⟨hcls, hblk, hidx, -⟩ := mem_chainSlots hp.toWellFormed hstart hmem
    simp only [ht] at hspec
    -- the address is that of a block far behind the slot
    obtain ⟨r, v', ⟨-, inode, rfl, hbuilt⟩, hplaces⟩ := wp_lookups_nonempty (wp_and hspec h)
    obtain ⟨u, hu, haddr⟩ := hplaces inode rfl
    obtain rfl : t = u := Option.some.inj (ht.symm.trans hu)
    have hfar := formDirEntryPos_absolute hp hcls hblk hidx
    rw [← hbuilt.iPos, haddr, Slot.addr] at hfar
    exact absurd hfar (lt_irrefl _)
  · intro h
    have hnone : findName look sbi.fsInfo v dir.iStart (padName dName) = none :=
      List.find?_eq_none.mpr fun s hs => by simp [h s hs]
    simp only [hnone] at hspec
    refine wp_mono hspec fun r v' hr inode hok => ?_
    obtain ⟨-, rfl | rfl⟩ := hr
    · cases hok
    · cases hok

/-! ### Creation -/

/-- The entry in a slot that was written. -/
theorem direntAt_slotWritten (s : Slot) {de : SfatDirEntry} (h : de.Fits) :
    direntAt (slotWritten fs v s de) (s.addr fs) = de := direntAt_putDirent _ _ h

/-- The terminator of another block is not in the last slot of a block. -/
theorem direntAt_moveTerminator (hwf : WellFormed fs) {s : Slot} (hs : s.idx + 1 = fs.direntPerBlk)
    (junk : CreateJunk) :
    direntAt (moveTerminator look fs v s junk).2 (s.addr fs) = direntAt v (s.addr fs) := by
  obtain ⟨d, hd16, hd, hbs⟩ := hwf.blockSize_slots
  -- byte 11 of a block is not a byte of the last slot of a block
  have hterm : ∀ cls blk, direntAt (terminatorWritten fs v cls blk) (s.addr fs) =
      direntAt v (s.addr fs) := by
    intro cls blk
    rw [terminatorWritten]
    apply direntAt_putAttr_ne
    rw [Slot.addr, slotAddr]
    generalize (clsToBlk fs cls + blk) % sizeT = a
    generalize clsToBlk fs s.cls + s.blk = b
    rcases Nat.lt_or_ge b a with h | h
    · have := Nat.mul_le_mul_right fs.blockSize (show b + 1 ≤ a from h)
      rw [Nat.add_mul, Nat.one_mul] at this
      omega
    · have := Nat.mul_le_mul_right fs.blockSize h
      omega
  rw [moveTerminator]
  split
  · exact hterm _ _
  · split
    · rfl
    · split
      · rfl
      · split
        · rfl
        · exact hterm _ _

/-- The move of the terminator never returns an inode. -/
theorem moveTerminator_early {s : Slot} {junk : CreateJunk} {inode : Inode} (v₂ : Vol) :
    moveTerminator look fs v s junk ≠ (some (.ok (some inode)), v₂) := by
  intro h
  rw [moveTerminator] at h
  split at h
  · simp at h
  · split at h
    · simp at h
    · split at h
      · simp at h
      · split at h
        · simp at h
        · simp at h

/-- `form_dir_entry_pos` in a new cluster is right exactly when the unset local counts as 0. -/
theorem formDirEntryPos_junk (hp : Placed fs) {c : ℕ} (hc : c < 2 ^ 32) (blk : ℕ) :
    formDirEntryPos fs c blk 0 = slotAddr fs c 0 0 ↔ blk * fs.blockSize % sizeT = 0 := by
  obtain ⟨d, hd16, hd, -⟩ := hp.blockSize_slots
  have hlt := slotAddr_lt hp hc hp.blkPerClus_pos (show 0 < fs.direntPerBlk by omega)
  simp only [slotAddr, Nat.add_zero, Nat.mul_zero] at hlt
  rw [formDirEntryPos_def, Nat.shiftLeft_eq, ← hp.blockSize_eq, Nat.add_mul, sizeT]
  simp only [slotAddr, Nat.add_zero, Nat.mul_zero]
  omega

/-- The entry in a cluster that was started. -/
theorem direntAt_clusterStarted (cls : ℕ) {de : SfatDirEntry} (h : de.Fits) :
    direntAt (clusterStarted fs v cls de) (slotAddr fs cls 0 0) = de := by
  have hnext : slotAddr fs cls 0 1 = slotAddr fs cls 0 0 + 32 := rfl
  rw [clusterStarted, direntAt_putAttr_ne _ _ (by omega), direntAt_putDirent _ _ h]

/-- Which way is taken when the directory grows. -/
theorem GrowsBy.step {c : ℕ} {dir dir' : Inode} {name : Vector UInt8 11} {junk : CreateJunk}
    {tvSec : ℕ} {p : Except CreateReturn (SfatDirEntry × ℕ)} {v₁ : Vol}
    (hgrow : GrowsBy look fs v dir.iStart name c)
    (h : CreateStep look fs v dir name junk tvSec p dir' v₁) :
    p = .ok (sfatFormDirEntry false name 0 0 tvSec, formDirEntryPos fs c junk.blk 0) := by
  have hname := hgrow.nameFree
  rw [NameFree] at hname
  cases h with
  | visible hscan =>
    rw [hscan] at hname
    cases hname
  | refused hscan href =>
    rw [hscan, href] at hname
    cases hname
  | slot _ hs _ => cases hs.symm.trans hgrow.full
  | slotMoved _ hs _ _ => cases hs.symm.trans hgrow.full
  | slotStuck _ hs _ _ => cases hs.symm.trans hgrow.full
  | noCluster _ _ hnone => exact absurd hgrow.firstFree.2.1 (hnone c hgrow.firstFree.1)
  | unlinked _ _ hfirst hlink =>
    obtain rfl := hgrow.firstFree.unique hfirst
    have hlinked := hgrow.linked
    rw [hlink] at hlinked
    cases hlinked
  | newCluster _ _ hfirst _ =>
    obtain rfl := hgrow.firstFree.unique hfirst
    rfl

/-- **`sfat_create_file` is right exactly when the unset local counts as 0 in every new cluster.** -/
theorem createPlaces_iff {sbi : SbInfo} (hp : Placed sbi.fsInfo) {dir : Inode}
    (hstart : dir.iStart < 2 ^ 32) (dName : List UInt8) (junk : CreateJunk) :
    CreatePlaces look sbi v dir dName junk ↔
      ∀ c, GrowsBy look sbi.fsInfo v dir.iStart (padName dName) c →
        junk.blk * sbi.fsInfo.blockSize % sizeT = 0 := by
  have hspec : wp (lookupWorld look) (sfatCreateFile sbi dir dName junk) _ v :=
    create_spec hp.toWellFormed dir dName junk
  have hnew : ∀ {c}, FirstFree sbi.fsInfo v c → c < 2 ^ 32 := fun hc =>
    Nat.lt_of_lt_of_le hc.1 hp.fat_words
  have hfits : ∀ t, (sfatFormDirEntry false (padName dName) 0 0 t).Fits := fun t =>
    sfatFormDirEntry_fits _ _ _ _ _
  constructor
  · intro h c hgrow
    obtain ⟨r, v', ⟨t, p, v₁, hstep, hend⟩, hplaces⟩ := wp_lookups_nonempty (wp_and hspec h)
    obtain rfl := hgrow.step hstep
    obtain ⟨-, inode, hok, hbuilt⟩ := hend
    refine (formDirEntryPos_junk hp (hnew hgrow.firstFree) junk.blk).mp ?_
    have hat := (hplaces inode hok).1
    rw [hbuilt.iPos] at hat
    generalize formDirEntryPos sbi.fsInfo c junk.blk 0 = iPos at hat
    cases hat with
    | reused hs => cases hs.symm.trans hgrow.full
    | added _ hfirst => rw [hgrow.firstFree.unique hfirst]
  · intro h
    refine wp_mono hspec fun r v' hr inode hok => ?_
    obtain ⟨r, dir'⟩ := r
    obtain ⟨t, p, v₁, hstep, hend⟩ := hr
    have hdir : dir.iIno = sfatRootIno → ∀ w, flushed sbi.fsInfo w dir' = w := fun hroot w =>
      flushed_root (hstep.iIno_eq.trans hroot) w
    have hslot : ∀ {s : Slot}, firstUnused (chainSlots look sbi.fsInfo v dir.iStart) = some s →
        formDirEntryPos sbi.fsInfo s.cls s.blk (s.idx * 32) = s.addr sbi.fsInfo := by
      intro s hs
      obtain ⟨hcls, hblk, hidx, -⟩ := mem_chainSlots hp.toWellFormed hstart
        (List.mem_of_find?_eq_some hs)
      exact formDirEntryPos_eq hp hcls hblk hidx
    cases hstep with
    | visible => cases hend.1.symm.trans hok
    | refused => cases hend.1.symm.trans hok
    | noCluster => cases hend.1.symm.trans hok
    | unlinked => cases hend.1.symm.trans hok
    | slot hname hs hkeep =>
      obtain ⟨hv, inode', hok', hbuilt⟩ := hend
      obtain rfl : inode' = inode := by simpa using hok'.symm.trans hok
      rw [hbuilt.iPos, hslot hs]
      refine ⟨.reused hs, fun hroot => ⟨t, ?_⟩⟩
      rw [hv.trans (hdir hroot _), direntAt_slotWritten _ (hfits t)]
    | @slotMoved s _ hname hs hlast hmove =>
      obtain ⟨hv, inode', hok', hbuilt⟩ := hend
      obtain rfl : inode' = inode := by simpa using hok'.symm.trans hok
      rw [hbuilt.iPos, hslot hs]
      refine ⟨.reused hs, fun hroot => ⟨t, ?_⟩⟩
      have hkeep : direntAt (moveTerminator look sbi.fsInfo (slotWritten sbi.fsInfo v s
          (sfatFormDirEntry false (padName dName) 0 0 t)) s junk).2 (s.addr sbi.fsInfo) = _ :=
        direntAt_moveTerminator hp.toWellFormed hlast.2 junk
      rw [hmove, direntAt_slotWritten _ (hfits t)] at hkeep
      rw [hv.trans (hdir hroot _), hkeep]
    | slotStuck hname hs hlast hmove =>
      obtain rfl := hend.1.symm.trans hok
      exact absurd hmove (moveTerminator_early _)
    | newCluster hname hfull hfirst hlink =>
      obtain ⟨hv, inode', hok', hbuilt⟩ := hend
      obtain rfl : inode' = inode := by simpa using hok'.symm.trans hok
      have hjunk := h _ ⟨hname, hfull, hfirst, by rw [hlink]; rfl⟩
      rw [hbuilt.iPos, (formDirEntryPos_junk hp (hnew hfirst) junk.blk).mpr hjunk]
      refine ⟨.added hfull hfirst, fun hroot => ⟨t, ?_⟩⟩
      rw [hv.trans (hdir hroot _), direntAt_clusterStarted _ (hfits t)]

/-! ### Both -/

/-- **When the positions of `sfat_lookup` and `sfat_create_file` are right**, for any directory,
any lookups of the FAT and any name. -/
theorem entry_position_iff {sbi : SbInfo} (hp : Placed sbi.fsInfo) {dir : Inode}
    (hstart : dir.iStart < 2 ^ 32) (dName : List UInt8) (junk : CreateJunk) :
    (LookupPlaces look sbi v dir dName ↔
      ∀ s ∈ liveSlots (chainSlots look sbi.fsInfo v dir.iStart),
        strncmpEq (padName dName) s.de.name = false) ∧
    (CreatePlaces look sbi v dir dName junk ↔
      ∀ c, GrowsBy look sbi.fsInfo v dir.iStart (padName dName) c →
        junk.blk * sbi.fsInfo.blockSize % sizeT = 0) :=
  ⟨lookupPlaces_iff hp hstart dName, createPlaces_iff hp hstart dName junk⟩

/-- A mount of the volumes with `layout31`. -/
def sbi31 : SbInfo where
  fsInfo := formattedFsInfo layout31
  rootSize := 1
  options := ⟨0, 0, 0, 0⟩

/-- The root directory of such a mount. -/
def root31 : Inode :=
  { Inode.fresh ⟨0, sfatAttrDir, sfatRootDirentryPos⟩ with
    iIno := sfatRootIno
    iSize := 2048
    dirOps := true }

theorem placed31 : Placed sbi31.fsInfo :=
  formattedFsInfo_placed (show formatLayout 512 31 = some layout31 by decide) (by decide)

theorem entry_position_iff_oneFile :
    (LookupPlaces storedWord sbi31 oneFileVolume root31 [98] ↔
      ∀ s ∈ liveSlots (chainSlots storedWord sbi31.fsInfo oneFileVolume 0),
        strncmpEq (padName [98]) s.de.name = false) ∧
    (CreatePlaces storedWord sbi31 oneFileVolume root31 [98] ⟨0, 0⟩ ↔
      ∀ c, GrowsBy storedWord sbi31.fsInfo oneFileVolume 0 (padName [98]) c →
        0 * sbi31.fsInfo.blockSize % sizeT = 0) :=
  entry_position_iff placed31 (by decide) [98] ⟨0, 0⟩

/-- **A lookup of the only file has the wrong address**, and so has the file that is created in a
full directory when the local that was never set is 1. -/
theorem entry_position_fails :
    ¬ LookupPlaces storedWord sbi31 oneFileVolume root31 [97] ∧
    ¬ CreatePlaces storedWord sbi31 fullRootVolume root31 [97] ⟨1, 0⟩ := by
  refine ⟨fun h => ?_, fun h => ?_⟩
  · have hnone := (lookupPlaces_iff placed31 (by decide) [97]).mp h
    revert hnone
    decide +kernel
  · have hjunk := (createPlaces_iff placed31 (by decide) [97] ⟨1, 0⟩).mp h 1 ?_
    · exact absurd hjunk (by decide)
    · refine ⟨?_, by decide +kernel, ⟨by decide, by decide +kernel, by decide +kernel⟩,
        by decide +kernel⟩
      have hscan : scanName (padName [97]) (chainSlots storedWord sbi31.fsInfo fullRootVolume 0) =
          none := by decide +kernel
      have href : walkRefused storedWord sbi31.fsInfo fullRootVolume sbi31.fsInfo.clusters 0 =
          false := by decide +kernel
      rw [NameFree, show root31.iStart = 0 from rfl, hscan, href]
      rfl

end SimpleFat

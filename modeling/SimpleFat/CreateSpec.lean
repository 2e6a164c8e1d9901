import SimpleFat.DirectoryPath
import SimpleFat.InodeSpec

/-!
# What `sfat_lookup` and `sfat_create_file` do

`CreateStep` lists what the function can do up to its common end, one constructor for each way
through the branches of the source, with the volume it leaves behind.  `CreateEnd` adds the
common end: the flush of the directory and the new inode.

* `lookup_spec` — `sfat_lookup` finds the first live slot with the name, or none;
* `wp_sfatFileAppendCls` — the chain is extended at its first `SFAT_ENTRY_EOC`;
* `createInFreeSlot_spec`, `createInNewCluster_spec` — the two branches;
* `create_spec` — every execution is one of the ways.
-/

namespace SimpleFat

open SimpleFat.Lib

variable {refuse : FilldirCall → Prop} {look : (blk pos : ℕ) → Page → ℕ} {fs : FsInfo} {v : Vol}

/-! ### Lookup -/

def findName (look : (blk pos : ℕ) → Page → ℕ) (fs : FsInfo) (v : Vol) (start : ℕ)
    (name : Vector UInt8 11) : Option Slot :=
  (liveSlots (chainSlots look fs v start)).find? fun s => strncmpEq name s.de.name

theorem scanName_chainSlots (start : ℕ) (name : Vector UInt8 11) :
    scanName name (chainSlots look fs v start) =
      match findName look fs v start name with
      | some s => some (some s)
      | none => if (chainSlots look fs v start).any Slot.isEnd then some none else none := by
  rw [scanName, scanFor_eq, ← liveSlots, ← findName]
  cases findName look fs v start name with
  | none => rfl
  | some s => rfl

/-- **`sfat_lookup` builds the inode of the first live slot with the name.** -/
theorem lookup_spec (sbi : SbInfo) (dir : Inode) (dName : List UInt8) :
    wp (refusingWorld refuse look) (sfatLookup sbi dir dName) (fun r v' => v' = v ∧
      match findName look sbi.fsInfo v dir.iStart (padName dName) with
      | some s => ∃ inode, r = .ok (some inode) ∧ Built sbi s.de
          (formDirEntryPos sbi.fsInfo s.cls (clsToBlk sbi.fsInfo s.cls + s.blk + 1) (s.idx * 32))
          inode
      | none => r = .ok none ∨ r = .error .einval) v := by
  rw [sfatLookup, wp_bind, wp_sfatDentryLocate, scanName_chainSlots]
  cases findName look sbi.fsInfo v dir.iStart (padName dName) with
  | some s =>
    refine wp_seq (buildInode_spec sbi _ _) fun r v' hr => ?_
    obtain ⟨rfl, inode, rfl, hbuilt⟩ := hr
    exact (wp_done _ _ _).mpr ⟨rfl, inode, rfl, hbuilt⟩
  | none =>
    cases (chainSlots look sbi.fsInfo v dir.iStart).any Slot.isEnd with
    | true => exact (wp_done _ _ _).mpr ⟨rfl, .inl rfl⟩
    | false =>
      cases walkRefused look sbi.fsInfo v sbi.fsInfo.clusters dir.iStart with
      | true => exact (wp_done _ _ _).mpr ⟨rfl, .inr rfl⟩
      | false => exact (wp_done _ _ _).mpr ⟨rfl, .inl rfl⟩

/-! ### The FAT without failures -/

theorem wp_sfatFatEntryModify_lookups (hwf : WellFormed fs) (cls x : ℕ)
    (Q : Option Errno → Vol → Prop) :
    wp (refusingWorld refuse look) (sfatFatEntryModify fs cls x) Q v ↔
      if fs.clustersPred ≤ cls then Q (some .einval) v else Q none (setFatWord fs v cls x) := by
  rw [sfatFatEntryModify]
  split
  · exact wp_done _ _ _
  · rw [wp_blkholderAlloc_lookups]
    simp only [wp_readBlock_lookups, wp_writeBlock_lookups, if_true, putBlock_fatBlk hwf]
    constructor
    · intro h
      exact (wp_done _ _ _).mp (h 0)
    · intro h addr
      exact (wp_done _ _ _).mpr h

/-- The allocator without failures: the first free cluster, or `-ENOENT`. -/
theorem acquire_lookups (hwf : WellFormed fs) :
    wp (lookupWorld look) (sfatFatEntryAcquire fs) (fun r v' =>
      (∃ c, r = .ok c ∧ FirstFree fs v c ∧ v' = setFatWord fs v c sfatEntryEoc) ∨
      (r = .error .enoent ∧ (∀ k < fatWords fs, fatWord fs v k ≠ sfatEntryFree) ∧ v' = v)) v := by
  refine wp_mono (acquire_spec hwf v) fun r v' hr => ?_
  cases r with
  | ok c => exact .inl ⟨c, rfl, hr⟩
  | error e =>
    obtain ⟨rfl, ⟨rfl, hnone⟩ | ⟨-, c, hc⟩⟩ := hr
    · exact .inr ⟨rfl, hnone, rfl⟩
    · exact absurd hc (not_noFailure c)

/-- The cluster whose word `sfat_file_append_cls` replaces: the first one with
`SFAT_ENTRY_EOC` among the next `n` of the chain. -/
def appendTarget (look : (blk pos : ℕ) → Page → ℕ) (fs : FsInfo) (v : Vol) :
    (n cls : ℕ) → Option ℕ
  | 0, _ => none
  | n + 1, cls =>
    if fs.clustersPred ≤ cls then none
    else if nextWord look fs v cls = sfatEntryEoc then some cls
    else if fs.clusters < nextWord look fs v cls then none
    else appendTarget look fs v n (nextWord look fs v cls)

def appendOutcome (fs : FsInfo) (v : Vol) (endCls : ℕ) : Option ℕ → Option Errno × Vol
  | some cls => (none, setFatWord fs v cls endCls)
  | none => (some .einval, v)

/-- **`sfat_file_append_cls` replaces the first end mark of the chain.** -/
theorem wp_appendLoop (hwf : WellFormed fs) (endCls n cls : ℕ) (Q : Option Errno → Vol → Prop) :
    wp (refusingWorld refuse look) (appendLoop fs endCls n cls) Q v ↔
      Q (appendOutcome fs v endCls (appendTarget look fs v n cls)).1
        (appendOutcome fs v endCls (appendTarget look fs v n cls)).2 := by
  induction n generalizing cls with
  | zero => exact wp_done _ _ _
  | succ n ih =>
    rw [appendLoop, wp_bind, wp_sfatGetEntryContent_lookups, appendTarget]
    by_cases hcls : fs.clustersPred ≤ cls
    · rw [if_pos hcls, if_pos hcls]
      exact wp_done _ _ _
    · rw [if_neg hcls, if_neg hcls]
      show wp (refusingWorld refuse look) (if _ then _ else _) Q v ↔ _
      by_cases heoc : nextWord look fs v cls = sfatEntryEoc
      · rw [if_pos heoc, if_pos heoc, wp_sfatFatEntryModify_lookups hwf, if_neg hcls]
        exact Iff.rfl
      · rw [if_neg heoc, if_neg heoc]
        by_cases hnext : fs.clusters < nextWord look fs v cls
        · rw [if_pos hnext, if_pos hnext]
          exact wp_done _ _ _
        · rw [if_neg hnext, if_neg hnext]
          exact ih _

theorem wp_sfatFileAppendCls (hwf : WellFormed fs) (startCls endCls : ℕ)
    (Q : Option Errno → Vol → Prop) :
    wp (refusingWorld refuse look) (sfatFileAppendCls fs startCls endCls) Q v ↔
      Q (appendOutcome fs v endCls (appendTarget look fs v fs.clusters startCls)).1
        (appendOutcome fs v endCls (appendTarget look fs v fs.clusters startCls)).2 :=
  wp_appendLoop hwf endCls fs.clusters startCls Q

/-! ### The reused slot -/

/-- The volume after the slot was written; the next slot of the block becomes the terminator if
this one was. -/
def slotWritten (fs : FsInfo) (v : Vol) (s : Slot) (de : SfatDirEntry) : Vol :=
  putDirent (if s.de.attr = sfatAttrEmptyEnd ∧ s.idx + 1 < fs.direntPerBlk then
    putAttr v (s.addr fs + 32) sfatAttrEmptyEnd else v) (s.addr fs) de

/-- The terminator was in the last slot of its block. -/
def Slot.EndsBlock (fs : FsInfo) (s : Slot) : Prop :=
  s.de.attr = sfatAttrEmptyEnd ∧ s.idx + 1 = fs.direntPerBlk

/-- The volume after the first slot of a block became the terminator. -/
def terminatorWritten (fs : FsInfo) (v : Vol) (cls blk : ℕ) : Vol :=
  putAttr v ((clsToBlk fs cls + blk) % sizeT * fs.blockSize) sfatAttrEmptyEnd

def moveTerminator (look : (blk pos : ℕ) → Page → ℕ) (fs : FsInfo) (v : Vol) (s : Slot)
    (junk : CreateJunk) : Option CreateReturn × Vol :=
  if s.blk + 1 < fs.blkPerClus then (none, terminatorWritten fs v junk.nextCls (s.blk + 1))
  else if fs.clustersPred ≤ s.cls then (some (.error .einval), v)
  else if nextWord look fs v s.cls = sfatEntryEoc then (none, v)
  else if fs.clusters < nextWord look fs v s.cls then (some (.ok none), v)
  else (none, terminatorWritten fs v (nextWord look fs v s.cls) 0)

theorem wp_createWriteTerminator (hwf : WellFormed fs) (cls blk : ℕ)
    (Q : Option CreateReturn → Vol → Prop) :
    wp (refusingWorld refuse look) (createWriteTerminator fs cls blk) Q v ↔
      Q none (terminatorWritten fs v cls blk) := by
  obtain ⟨d, hd16, -, hbs⟩ := hwf.blockSize_slots
  rw [createWriteTerminator]
  simp only [wp_readBlock_lookups, wp_writeBlock_lookups, if_true]
  rw [putBlock_putAttr v _ (by omega), putBlock_blockAt, Nat.add_zero, terminatorWritten]
  exact wp_done _ _ _

theorem wp_createMoveTerminator (hwf : WellFormed fs) (s : Slot) (junk : CreateJunk)
    (Q : Option CreateReturn → Vol → Prop) :
    wp (refusingWorld refuse look) (createMoveTerminator fs s.cls s.blk junk) Q v ↔
      Q (moveTerminator look fs v s junk).1 (moveTerminator look fs v s junk).2 := by
  have hpos := hwf.blkPerClus_pos
  rw [createMoveTerminator, moveTerminator]
  by_cases hblk : s.blk + 1 < fs.blkPerClus
  · rw [if_pos (show s.blk < fs.blkPerClus - 1 by omega), if_pos hblk]
    exact wp_createWriteTerminator hwf _ _ Q
  · rw [if_neg (show ¬ s.blk < fs.blkPerClus - 1 by omega), if_neg hblk, wp_bind,
      wp_sfatGetEntryContent_lookups]
    by_cases hcls : fs.clustersPred ≤ s.cls
    · rw [if_pos hcls, if_pos hcls]
      exact wp_done _ _ _
    · rw [if_neg hcls, if_neg hcls]
      show wp (refusingWorld refuse look) (if _ then _ else _) Q v ↔ _
      by_cases heoc : nextWord look fs v s.cls = sfatEntryEoc
      · rw [if_pos heoc, if_pos heoc]
        exact wp_done _ _ _
      · rw [if_neg heoc, if_neg heoc]
        by_cases hnext : fs.clusters < nextWord look fs v s.cls
        · rw [if_pos hnext, if_pos hnext]
          exact wp_done _ _ _
        · rw [if_neg hnext, if_neg hnext]
          exact wp_createWriteTerminator hwf _ _ Q

/-! ### The ways through the function -/

/-- The volume after the first block of a new cluster was written. -/
def clusterStarted (fs : FsInfo) (v : Vol) (cls : ℕ) (de : SfatDirEntry) : Vol :=
  putAttr (putDirent v (slotAddr fs cls 0 0) de) (slotAddr fs cls 0 1) sfatAttrEmptyEnd

def Inode.grown (fs : FsInfo) (dir : Inode) (tvSec : ℕ) : Inode :=
  { dir with
    iSize := dir.iSize + fs.clusterSize
    iBlocks := dir.iBlocks + fs.blkPerClus
    iMtime := tvSec }

/-- The name is not that of a live slot, and the scan for it ended without an error. -/
def NameFree (look : (blk pos : ℕ) → Page → ℕ) (fs : FsInfo) (v : Vol) (start : ℕ)
    (name : Vector UInt8 11) : Prop :=
  locateOutcome fs (walkRefused look fs v fs.clusters start)
    (scanName name (chainSlots look fs v start)) = .ok none

theorem nameFree_iff {start : ℕ} {name : Vector UInt8 11} : NameFree look fs v start name ↔
    scanName name (chainSlots look fs v start) = some none ∨
      scanName name (chainSlots look fs v start) = none ∧
        walkRefused look fs v fs.clusters start = false := by
  rw [NameFree]
  cases scanName name (chainSlots look fs v start) with
  | none => cases walkRefused look fs v fs.clusters start <;> simp [locateOutcome]
  | some r => cases r <;> simp [locateOutcome]

/-- What `sfat_create_file` can do up to its common end, at the time `tvSec`: return early, or go
on to the end with the new entry and its position. -/
inductive CreateStep (look : (blk pos : ℕ) → Page → ℕ) (fs : FsInfo) (v : Vol) (dir : Inode)
    (name : Vector UInt8 11) (junk : CreateJunk) (tvSec : ℕ) :
    Except CreateReturn (SfatDirEntry × ℕ) → Inode → Vol → Prop
  /-- A live slot has the name. -/
  | visible {s : Slot} : scanName name (chainSlots look fs v dir.iStart) = some (some s) →
      CreateStep look fs v dir name junk tvSec (.error (.error .eexist)) dir v
  /-- The scan for the name was refused a cluster. -/
  | refused : scanName name (chainSlots look fs v dir.iStart) = none →
      walkRefused look fs v fs.clusters dir.iStart = true →
      CreateStep look fs v dir name junk tvSec (.error (.error .einval)) dir v
  /-- A slot is reused, and the terminator stays in the block. -/
  | slot {s : Slot} : NameFree look fs v dir.iStart name →
      firstUnused (chainSlots look fs v dir.iStart) = some s → ¬ s.EndsBlock fs →
      CreateStep look fs v dir name junk tvSec
        (.ok (sfatFormDirEntry false name 0 0 tvSec, formDirEntryPos fs s.cls s.blk (s.idx * 32)))
        { dir with iMtime := tvSec }
        (slotWritten fs v s (sfatFormDirEntry false name 0 0 tvSec))
  /-- A slot is reused, and the terminator moves to another block or is dropped. -/
  | slotMoved {s : Slot} {v₂ : Vol} : NameFree look fs v dir.iStart name →
      firstUnused (chainSlots look fs v dir.iStart) = some s → s.EndsBlock fs →
      moveTerminator look fs (slotWritten fs v s (sfatFormDirEntry false name 0 0 tvSec)) s junk =
        (none, v₂) →
      CreateStep look fs v dir name junk tvSec
        (.ok (sfatFormDirEntry false name 0 0 tvSec, formDirEntryPos fs s.cls s.blk (s.idx * 32)))
        { dir with iMtime := tvSec } v₂
  /-- A slot is reused, and the move of the terminator returns. -/
  | slotStuck {s : Slot} {r : CreateReturn} {v₂ : Vol} : NameFree look fs v dir.iStart name →
      firstUnused (chainSlots look fs v dir.iStart) = some s → s.EndsBlock fs →
      moveTerminator look fs (slotWritten fs v s (sfatFormDirEntry false name 0 0 tvSec)) s junk =
        (some r, v₂) →
      CreateStep look fs v dir name junk tvSec (.error r) { dir with iMtime := tvSec } v₂
  /-- The directory is full and no cluster is free. -/
  | noCluster : NameFree look fs v dir.iStart name →
      firstUnused (chainSlots look fs v dir.iStart) = none →
      (∀ k < fatWords fs, fatWord fs v k ≠ sfatEntryFree) →
      CreateStep look fs v dir name junk tvSec (.error (.error .enoent)) dir v
  /-- The new cluster cannot be linked to the chain. -/
  | unlinked {c : ℕ} : NameFree look fs v dir.iStart name →
      firstUnused (chainSlots look fs v dir.iStart) = none → FirstFree fs v c →
      appendTarget look fs (setFatWord fs v c sfatEntryEoc) fs.clusters dir.iStart = none →
      CreateStep look fs v dir name junk tvSec (.error (.error .einval)) dir
        (setFatWord fs v c sfatEntryEoc)
  /-- A cluster is added to the directory. -/
  | newCluster {c d : ℕ} : NameFree look fs v dir.iStart name →
      firstUnused (chainSlots look fs v dir.iStart) = none → FirstFree fs v c →
      appendTarget look fs (setFatWord fs v c sfatEntryEoc) fs.clusters dir.iStart = some d →
      CreateStep look fs v dir name junk tvSec
        (.ok (sfatFormDirEntry false name 0 0 tvSec, formDirEntryPos fs c junk.blk 0))
        (dir.grown fs tvSec)
        (clusterStarted fs (setFatWord fs (setFatWord fs v c sfatEntryEoc) d c) c
          (sfatFormDirEntry false name 0 0 tvSec))

theorem CreateStep.iIno_eq {dir dir' : Inode} {name : Vector UInt8 11} {junk : CreateJunk}
    {tvSec : ℕ} {p : Except CreateReturn (SfatDirEntry × ℕ)} {v₁ : Vol}
    (h : CreateStep look fs v dir name junk tvSec p dir' v₁) : dir'.iIno = dir.iIno := by
  cases h with
  | _ => rfl

theorem CreateStep.iPos_eq {dir dir' : Inode} {name : Vector UInt8 11} {junk : CreateJunk}
    {tvSec : ℕ} {p : Except CreateReturn (SfatDirEntry × ℕ)} {v₁ : Vol}
    (h : CreateStep look fs v dir name junk tvSec p dir' v₁) : dir'.iPos = dir.iPos := by
  cases h with
  | _ => rfl

/-- The common end after one of the ways. -/
def CreateEnd (look : (blk pos : ℕ) → Page → ℕ) (sbi : SbInfo) (v : Vol) (dir : Inode)
    (name : Vector UInt8 11) (junk : CreateJunk) (r : CreateReturn × Inode) (v' : Vol) : Prop :=
  ∃ tvSec p v₁, CreateStep look sbi.fsInfo v dir name junk tvSec p r.2 v₁ ∧
    match p with
    | .error early => r.1 = early ∧ v' = v₁
    | .ok (de, iPos) => v' = flushed sbi.fsInfo v₁ r.2 ∧
        ∃ inode, r.1 = .ok (some inode) ∧ Built sbi de iPos inode

theorem wp_createFinish {sbi : SbInfo} (dir : Inode) (de : SfatDirEntry) (iPos : ℕ)
    {Q : CreateReturn → Vol → Prop}
    (hQ : ∀ inode, Built sbi de iPos inode → Q (.ok (some inode)) (flushed sbi.fsInfo v dir)) :
    wp (lookupWorld look) (createFinish sbi dir de iPos) Q v := by
  rw [createFinish, wp_bind, wp_sfatInodeWriteToHd]
  refine wp_seq (buildInode_spec sbi de iPos) fun r v' hr => ?_
  obtain ⟨rfl, inode, rfl, hbuilt⟩ := hr
  exact (wp_done _ _ _).mpr (hQ inode hbuilt)

/-- A block that is read, gets an entry and is written back. -/
theorem putBlock_slotWritten (hwf : WellFormed fs) {s : Slot} {cls : ℕ}
    (hs : s ∈ clusterSlots fs v cls) (de : SfatDirEntry) :
    putBlock v fs.blockSize (clsToBlk fs s.cls + s.blk)
      (putDirent (if s.de.attr = sfatAttrEmptyEnd ∧ s.idx * 32 < fs.blockSize - 32 then
        putAttr (blockAt v fs.blockSize (clsToBlk fs s.cls + s.blk)) (s.idx * 32 + 32)
          sfatAttrEmptyEnd
      else blockAt v fs.blockSize (clsToBlk fs s.cls + s.blk)) (s.idx * 32) de) =
    slotWritten fs v s de := by
  obtain ⟨d, hd16, hd, hbs⟩ := hwf.blockSize_slots
  obtain ⟨-, -, hidx, -⟩ := mem_clusterSlots.mp hs
  have haddr : (clsToBlk fs s.cls + s.blk) * fs.blockSize + s.idx * 32 = s.addr fs := by
    rw [Slot.addr, slotAddr, Nat.mul_comm s.idx]
  rw [putBlock_putDirent v _ (by omega), haddr, slotWritten]
  by_cases hmore : s.de.attr = sfatAttrEmptyEnd ∧ s.idx + 1 < fs.direntPerBlk
  · rw [if_pos hmore, if_pos ⟨hmore.1, by omega⟩, putBlock_putAttr v _ (by omega),
      putBlock_blockAt, ← Nat.add_assoc, haddr]
  · rw [if_neg hmore, if_neg (fun h => hmore ⟨h.1, by omega⟩), putBlock_blockAt]

/-- **The branch for a free entry.** -/
theorem createInFreeSlot_spec {sbi : SbInfo} (hwf : WellFormed sbi.fsInfo) {dir : Inode}
    {name : Vector UInt8 11} {junk : CreateJunk} {s : Slot}
    (hname : NameFree look sbi.fsInfo v dir.iStart name)
    (hs : firstUnused (chainSlots look sbi.fsInfo v dir.iStart) = some s) (tvSec : ℕ) :
    wp (lookupWorld look) (createInFreeSlot sbi dir name tvSec junk (freeSlotOf sbi.fsInfo v s))
      (CreateEnd look sbi v dir name junk) v := by
  have hmem := (mem_dirSlots.mp (List.mem_of_find?_eq_some hs)).2
  obtain ⟨-, -, hidx, hde⟩ := mem_clusterSlots.mp hmem
  obtain ⟨d, hd16, hd, hbs⟩ := hwf.blockSize_slots
  have hentry : direntAt (freeSlotOf sbi.fsInfo v s).data (s.idx * 32) = s.de := by
    rw [hde, Nat.mul_comm, freeSlotOf]
  have hfinish : ∀ (v₁ : Vol), CreateStep look sbi.fsInfo v dir name junk tvSec
        (.ok (sfatFormDirEntry false name 0 0 tvSec,
          formDirEntryPos sbi.fsInfo s.cls s.blk (s.idx * 32))) { dir with iMtime := tvSec } v₁ →
      wp (lookupWorld look) (createFinish sbi { dir with iMtime := tvSec }
          (sfatFormDirEntry false name 0 0 tvSec)
          (formDirEntryPos sbi.fsInfo s.cls s.blk (s.idx * 32)) >>= fun r =>
            pure (r, { dir with iMtime := tvSec }))
        (CreateEnd look sbi v dir name junk) v₁ := by
    intro v₁ hstep
    rw [wp_bind]
    refine wp_createFinish _ _ _ fun inode hbuilt => (wp_done _ _ _).mpr ?_
    exact ⟨tvSec, _, v₁, hstep, rfl, inode, rfl, hbuilt⟩
  rw [createInFreeSlot]
  simp only [freeSlotOf] at hentry ⊢
  simp only [wp_writeBlock_lookups, hentry, if_true]
  rw [putBlock_slotWritten hwf hmem]
  by_cases hlast : s.EndsBlock sbi.fsInfo
  · have hcond : s.de.attr = sfatAttrEmptyEnd ∧ ¬ s.idx * 32 < sbi.fsInfo.blockSize - 32 :=
      ⟨hlast.1, by have := hlast.2; omega⟩
    rw [if_pos hcond, wp_bind, wp_createMoveTerminator hwf]
    generalize hmove : moveTerminator look sbi.fsInfo
      (slotWritten sbi.fsInfo v s (sfatFormDirEntry false name 0 0 tvSec)) s junk = m
    obtain ⟨r, v₂⟩ := m
    cases r with
    | none => exact hfinish v₂ (.slotMoved hname hs hlast hmove)
    | some r => exact (wp_done _ _ _).mpr ⟨tvSec, _, v₂, .slotStuck hname hs hlast hmove, rfl, rfl⟩
  · have hcond : ¬ (s.de.attr = sfatAttrEmptyEnd ∧ ¬ s.idx * 32 < sbi.fsInfo.blockSize - 32) :=
      fun h => hlast ⟨h.1, by omega⟩
    rw [if_neg hcond]
    exact hfinish _ (.slot hname hs hlast)

/-- **The branch for a full directory.** -/
theorem createInNewCluster_spec {sbi : SbInfo} (hwf : WellFormed sbi.fsInfo) {dir : Inode}
    {name : Vector UInt8 11} {junk : CreateJunk}
    (hname : NameFree look sbi.fsInfo v dir.iStart name)
    (hfull : firstUnused (chainSlots look sbi.fsInfo v dir.iStart) = none) (tvSec : ℕ) :
    wp (lookupWorld look) (createInNewCluster sbi dir name tvSec junk)
      (CreateEnd look sbi v dir name junk) v := by
  obtain ⟨d, hd16, -, hbs⟩ := hwf.blockSize_slots
  rw [createInNewCluster]
  simp only []
  refine wp_seq (acquire_lookups hwf) fun r v₁ hr => ?_
  obtain ⟨c, rfl, hfirst, rfl⟩ | ⟨rfl, hnone, rfl⟩ := hr
  · simp only []
    rw [wp_bind, wp_sfatFileAppendCls hwf]
    cases happend : appendTarget look sbi.fsInfo (setFatWord sbi.fsInfo v c sfatEntryEoc)
      sbi.fsInfo.clusters dir.iStart with
    | none =>
      exact (wp_done _ _ _).mpr ⟨tvSec, _, _, .unlinked hname hfull hfirst happend, rfl, rfl⟩
    | some d =>
      simp only [appendOutcome]
      rw [wp_readBlock_lookups]
      simp only []
      rw [wp_writeBlock_lookups, putBlock_putAttr _ _ (by omega), putBlock_putDirent _ _ (by omega),
        putBlock_blockAt, if_pos rfl, wp_bind]
      refine wp_createFinish _ _ _ fun inode hbuilt => (wp_done _ _ _).mpr ?_
      exact ⟨tvSec, _, _, .newCluster hname hfull hfirst happend, rfl, inode, rfl, hbuilt⟩
  · exact (wp_done _ _ _).mpr ⟨tvSec, _, v₁, .noCluster hname hfull hnone, rfl, rfl⟩

/-- A full directory has no terminator, and its slots are all live. -/
theorem walkRefused_of_full {start : ℕ} {name : Vector UInt8 11}
    (hname : NameFree look fs v start name)
    (hfull : firstUnused (chainSlots look fs v start) = none) :
    walkRefused look fs v fs.clusters start = false := by
  have hnoEnd : (chainSlots look fs v start).any Slot.isEnd = false := by
    rw [List.any_eq_false]
    intro s hs hend
    exact List.find?_eq_none.mp hfull s hs (by simp [hend])
  rw [NameFree, scanName, scanFor_eq, hnoEnd] at hname
  cases href : walkRefused look fs v fs.clusters start with
  | false => rfl
  | true =>
    rw [href] at hname
    split at hname
    · cases hname
    · cases hname

/-- **Every execution of `sfat_create_file` is one of the ways.** -/
theorem create_spec {sbi : SbInfo} (hwf : WellFormed sbi.fsInfo) (dir : Inode) (dName : List UInt8)
    (junk : CreateJunk) :
    wp (lookupWorld look) (sfatCreateFile sbi dir dName junk)
      (CreateEnd look sbi v dir (padName dName) junk) v := by
  rw [sfatCreateFile, wp_bind, wp_sfatDentryLocate]
  by_cases hname : NameFree look sbi.fsInfo v dir.iStart (padName dName)
  · have hnone := hname
    rw [NameFree] at hnone
    rw [hnone]
    refine (wp_blkholderAlloc_lookups _).mpr fun addr => ?_
    show wp (lookupWorld look) (sfatFreeDentryLocate sbi.fsInfo dir.iStart >>= _) _ v
    rw [wp_bind, sfatFreeDentryLocate, wp_freeClusters, ← chainSlots]
    cases hfree : firstUnused (chainSlots look sbi.fsInfo v dir.iStart) with
    | some s =>
      simp only [freeOutcome]
      rw [wp_currentTimeSec]
      exact createInFreeSlot_spec hwf hname hfree
    | none =>
      simp only [freeOutcome, walkRefused_of_full hname hfree]
      exact (wp_currentTimeSec _).mpr (createInNewCluster_spec hwf hname hfree)
  · -- nothing is written, and the time does not matter
    have hearly : ∀ e, CreateStep look sbi.fsInfo v dir (padName dName) junk 0
        (.error (.error e)) dir v →
        CreateEnd look sbi v dir (padName dName) junk (.error e, dir) v := fun e hstep =>
      ⟨0, _, v, hstep, rfl, rfl⟩
    rw [NameFree] at hname
    cases hscan : scanName (padName dName) (chainSlots look sbi.fsInfo v dir.iStart) with
    | some r =>
      cases r with
      | some s => exact (wp_done _ _ _).mpr (hearly _ (.visible hscan))
      | none => exact absurd (by rw [hscan]; rfl) hname
    | none =>
      cases href : walkRefused look sbi.fsInfo v sbi.fsInfo.clusters dir.iStart with
      | true => exact (wp_done _ _ _).mpr (hearly _ (.refused hscan href))
      | false => exact absurd (by rw [hscan, href]; rfl) hname

end SimpleFat

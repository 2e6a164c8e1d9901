import SimpleFat.FilledDirectory
import SimpleFat.Lib.FileStore

/-!
# Files on the volume

The entries of a directory, the FAT and the clusters of the files fit together: each file has the
clusters that its size needs, and no cluster belongs to two files or to a file and the directory.
What a write or a create leaves behind fits together again, and no other file has changed.

* `VolumeConsistent`, `volumeFiles` — the property, and the files as they are read from the volume;
* `FilesOnDisk` — a directory without holes whose files have clusters of their own;
* `FilesOnDisk.written`, `.created` — a file is written and flushed, a file is created;
* `FilesOnDisk.written_files`, `.created_files` — and what files there are then.
-/

namespace SimpleFat

open SimpleFat.Lib

variable {fs : FsInfo} {v v' : Vol} {start : ℕ} {cs ds es : List ℕ} {slots : List Slot}
  {chains : ℕ → List ℕ} {inode : Inode} {de : SfatDirEntry} {s t x : Slot}

/-- The clusters of a regular file with its entry: as many as the size needs, and the mark for an
empty file. -/
structure EntryChain (fs : FsInfo) (v : Vol) (de : SfatDirEntry) (cs : List ℕ) : Prop where
  chain : 0 < de.size → FatChain fs v de.fstClsNo cs
  marked : de.size = 0 → de.fstClsNo = sfatEntryFree
  length_eq : cs.length = (de.size + (fs.clusterSize - 1)) / fs.clusterSize

/-- **A consistent volume**: every regular file with a visible entry has the clusters that its size
needs, and shares none with the directory or with another file. -/
def VolumeConsistent (fs : FsInfo) (v : Vol) (start : ℕ) : Prop :=
  ∃ (ds : List ℕ) (chain : Slot → List ℕ), FatChain fs v start ds ∧
    ∀ s ∈ visibleSlots fs v start, s.de.isDir = false →
      EntryChain fs v s.de (chain s) ∧ (chain s).Disjoint ds ∧
      ∀ t ∈ visibleSlots fs v start, t.de.isDir = false → t ≠ s → (chain s).Disjoint (chain t)

/-- **The files of a directory without holes**: the clusters of each by the address of its slot. -/
structure FilesOnDisk (fs : FsInfo) (v : Vol) (start : ℕ) (ds : List ℕ) (slots : List Slot)
    (chains : ℕ → List ℕ) : Prop where
  filled : FilledDir fs v start ds slots
  names : (slotNames slots).Nodup
  entries : ∀ s ∈ slots, EntryChain fs v s.de (chains (s.addr fs))
  offDir : ∀ s ∈ slots, (chains (s.addr fs)).Disjoint ds
  apart : ∀ s ∈ slots, ∀ t ∈ slots, s.addr fs ≠ t.addr fs →
    (chains (s.addr fs)).Disjoint (chains (t.addr fs))

def entryContent (fs : FsInfo) (v : Vol) (de : SfatDirEntry) : List UInt8 :=
  firstBytes de.size (fileContent fs v de.fstClsNo)

/-- A file as it is read from its slot. -/
def Slot.file (fs : FsInfo) (v : Vol) (s : Slot) : List UInt8 × List UInt8 :=
  (cString s.de.name, entryContent fs v s.de)

/-- **The files of a directory**, as they are read from the volume. -/
def volumeFiles (fs : FsInfo) (v : Vol) (start : ℕ) : List (List UInt8 × List UInt8) :=
  (visibleSlots fs v start).map (Slot.file fs v)

/-! ### One file -/

theorem EntryChain.size_pos (h : EntryChain fs v de cs) {c : ℕ} (hc : c ∈ cs) : 0 < de.size := by
  by_contra h0
  have hlen := h.length_eq
  have hpos := List.length_pos_of_mem hc
  rw [show de.size = 0 by omega, Nat.zero_add] at hlen
  have hdiv := Nat.div_le_self (fs.clusterSize - 1) fs.clusterSize
  have hzero : (fs.clusterSize - 1) / fs.clusterSize = 0 := by
    rcases Nat.eq_zero_or_pos fs.clusterSize with h | h
    · rw [h, Nat.div_zero]
    · exact Nat.div_eq_of_lt (by omega)
  omega

/-- The clusters of a file are in use. -/
theorem EntryChain.used (hp : Placed fs) (h : EntryChain fs v de cs) {c : ℕ} (hc : c ∈ cs) :
    c < fatWords fs ∧ fatWord fs v c ≠ sfatEntryFree := by
  have hchain := h.chain (h.size_pos hc)
  exact ⟨lt_fatWords hp (hchain.2 c hc), (hchain.row hp).used c hc⟩

/-- The clusters of a file depend on their words. -/
theorem EntryChain.congr (h : EntryChain fs v de cs)
    (hw : ∀ c ∈ cs, fatWord fs v' c = fatWord fs v c) : EntryChain fs v' de cs where
  chain hpos := (h.chain hpos).congr hw
  marked := h.marked
  length_eq := h.length_eq

/-- The clusters of a position. -/
theorem EntryChain.div_lt (hp : Placed fs) (h : EntryChain fs v de cs) {i : ℕ} (hi : i < de.size) :
    i / fs.clusterSize < cs.length := by
  have hlast := Nat.div_le_div_right (c := fs.clusterSize) (show i ≤ de.size - 1 by omega)
  have hsize : de.size + (fs.clusterSize - 1) = de.size - 1 + fs.clusterSize := by
    have hcs := hp.clusterSize_pos
    omega
  rw [h.length_eq, hsize, Nat.add_div_right _ hp.clusterSize_pos]
  omega

/-- The content of a file is in its clusters. -/
theorem EntryChain.content_eq (hp : Placed fs) (h : EntryChain fs v de cs) :
    entryContent fs v de = firstBytes de.size (rowContent fs v cs) := by
  apply firstBytes_congr
  intro i hi
  have hchain := h.chain (by omega)
  exact (hchain.row hp).fileContent_eq hchain.1.getElem?_zero (h.div_lt hp hi)

/-- A write to other clusters leaves a file alone. -/
theorem EntryChain.keptBy (hp : Placed fs) (h : EntryChain fs v de cs)
    (hkeep : KeepsOthers fs v ds v' es) (hoff : cs.Disjoint ds) :
    EntryChain fs v' de cs ∧ entryContent fs v' de = entryContent fs v de := by
  have hchain : EntryChain fs v' de cs := by
    apply h.congr
    intro c hc
    obtain ⟨hlt, hused⟩ := h.used hp hc
    exact hkeep.words c hlt hused fun hmem => hoff hc hmem
  refine ⟨hchain, ?_⟩
  rw [hchain.content_eq hp, h.content_eq hp]
  apply firstBytes_congr
  intro i hi
  have hmod := Nat.mod_lt i hp.clusterSize_pos
  have hmem : cs.getD (i / fs.clusterSize) 0 ∈ cs := by
    rw [List.getD_eq_getElem _ _ (h.div_lt hp hi)]
    exact List.getElem_mem _
  obtain ⟨hword, hused⟩ := h.used hp hmem
  exact hkeep.data _ hword hused (fun hin => hoff hmem hin) _ (Nat.le_add_right _ _)
    (Nat.add_lt_add_left hmod _)

/-- An inode that has the fields of the entry. -/
theorem EntryChain.fileChain (h : EntryChain fs v de cs) (hstart : inode.iStart = de.fstClsNo)
    (hsize : inode.iSize = de.size) : FileChain fs v inode cs where
  chain hpos := by
    rw [hstart]
    apply h.chain
    omega
  length_eq := by rw [hsize, h.length_eq]

/-- The fields of an inode fit in its entry. -/
theorem FileChain.update_eq (hp : Placed fs) (h : FileChain fs v inode cs)
    (hempty : inode.iSize = 0 → inode.iStart = sfatEntryFree) (h32 : inode.iSize < 2 ^ 32)
    (de : SfatDirEntry) :
    (de.update inode).fstClsNo = inode.iStart ∧ (de.update inode).size = inode.iSize := by
  have hmax := hp.clusters_lt
  rw [sfatEntryMax] at hmax
  have hstart : inode.iStart < 2 ^ 32 := by
    rcases Nat.eq_zero_or_pos inode.iSize with h0 | hpos
    · rw [hempty h0]
      decide
    · have hlt := (h.start_mem hpos).2
      omega
  exact ⟨Nat.mod_eq_of_lt hstart, Nat.mod_eq_of_lt h32⟩

/-- The entry that a flush leaves. -/
theorem FileChain.entryChain (hp : Placed fs) (h : FileChain fs v inode cs)
    (hempty : inode.iSize = 0 → inode.iStart = sfatEntryFree) (h32 : inode.iSize < 2 ^ 32)
    (de : SfatDirEntry) : EntryChain fs v (de.update inode) cs := by
  obtain ⟨hstart, hsize⟩ := h.update_eq hp hempty h32 de
  refine ⟨fun hpos => ?_, fun h0 => ?_, ?_⟩
  · rw [hstart]
    rw [hsize] at hpos
    exact h.chain hpos
  · rw [hstart]
    rw [hsize] at h0
    exact hempty h0
  · rw [hsize, h.length_eq]

/-! ### The slots of the directory -/

/-- A slot, with the fields of the inode if it is at its address. -/
def Slot.stored (fs : FsInfo) (inode : Inode) (t : Slot) : Slot :=
  if t.addr fs = inode.iPos then { t with de := t.de.update inode } else t

theorem Slot.stored_self (h : t.addr fs = inode.iPos) :
    t.stored fs inode = { t with de := t.de.update inode } := if_pos h

theorem Slot.stored_other (h : t.addr fs ≠ inode.iPos) : t.stored fs inode = t := if_neg h

@[simp] theorem Slot.stored_addr (t : Slot) : (t.stored fs inode).addr fs = t.addr fs := by
  rw [Slot.stored]
  split
  · rfl
  · rfl

@[simp] theorem Slot.stored_name (t : Slot) : (t.stored fs inode).de.name = t.de.name := by
  rw [Slot.stored]
  split
  · rfl
  · rfl

@[simp] theorem Slot.stored_attr (t : Slot) : (t.stored fs inode).de.attr = t.de.attr := by
  rw [Slot.stored]
  split
  · rfl
  · rfl

@[simp] theorem slotNames_stored (slots : List Slot) :
    slotNames (slots.map (Slot.stored fs inode)) = slotNames slots := by
  simp [slotNames, Function.comp_def]

/-- A write to clusters that are not the directory's leaves its slots alone. -/
theorem FilledDir.keptBy (hp : Placed fs) (h : FilledDir fs v start ds slots)
    (hkeep : KeepsOthers fs v cs v' es) (hoff : cs.Disjoint ds) :
    FilledDir fs v' start ds slots := by
  refine h.same hp (fun d hd => ?_) ?_
  · exact hkeep.words d (lt_fatWords hp (h.chain.below d hd)) (h.chain.used hp hd)
      fun hc => hoff hc hd
  · rw [dirSlots_reread v v']
    refine map_reread_eq fun t ht => ?_
    obtain ⟨hcls, hmem⟩ := mem_dirSlots.mp ht
    obtain ⟨-, hblk, hidx, -⟩ := mem_clusterSlots.mp hmem
    have hin := slotAddr_mem (d := t.cls) hp hblk hidx
    rw [← Slot.addr] at hin
    rw [slot_de hmem]
    refine direntAt_congr fun i hi => ?_
    exact hkeep.data t.cls (lt_fatWords hp (h.chain.below _ hcls)) (h.chain.used hp hcls)
      (fun hc => hoff hc hcls) _ (by omega) (by omega)

/-- The slot of a file of the directory is the file's own. -/
theorem FilledDir.ownSlot (hp : Placed fs) (h : FilledDir fs v start ds slots) (hs : s ∈ slots)
    (hroot : inode.iIno ≠ sfatRootIno) (hpos : inode.iPos = s.addr fs) :
    OwnSlot fs v [] inode s.cls := by
  obtain ⟨hcls, hmem⟩ := mem_dirSlots.mp (h.mem hs)
  obtain ⟨-, hblk, hidx, -⟩ := mem_clusterSlots.mp hmem
  exact ⟨hroot, h.chain.below _ hcls, h.chain.used hp hcls, List.not_mem_nil,
    s.blk, hblk, s.idx, hidx, hpos⟩

/-- **A flush stores the fields in the slot of the file**, and leaves the other slots alone. -/
theorem FilledDir.stored (hp : Placed fs) (h : FilledDir fs v start ds slots) (hs : s ∈ slots)
    (hroot : inode.iIno ≠ sfatRootIno) (hpos : inode.iPos = s.addr fs) :
    FilledDir fs (flushed fs v inode) start ds (slots.map (Slot.stored fs inode)) := by
  have hown := h.ownSlot hp hs hroot hpos
  have hplaced := h.placed hp hs
  have hlt : inode.iPos < 2 ^ 63 := by
    have := slotAddr_lt hp hplaced.cls_lt hplaced.blk_lt hplaced.idx_lt
    rw [hpos, Slot.addr]
    omega
  have hblk : inode.iPos % fs.blockSize + 32 ≤ fs.blockSize := by
    rw [hpos]
    exact slotAddr_mod hp.toWellFormed hplaced.idx_lt
  have hread : ∀ t ∈ dirSlots fs v ds, t.reread fs (flushed fs v inode) =
      t.stored fs inode := by
    intro t ht
    have hde := slot_de (mem_dirSlots.mp ht).2
    rw [Slot.reread]
    by_cases haddr : t.addr fs = inode.iPos
    · rw [Slot.stored_self haddr, haddr, flushed_eq hp.blockSize_eq hroot hlt hblk,
        direntAt_flushEntry, hde, haddr]
    · have hap := slot_apart hp (placed_of_mem (h.lt hp) ht) hplaced fun hplace =>
        haddr (by rw [hpos, Slot.addr, Slot.addr, hplace.1, hplace.2.1, hplace.2.2])
      have hsame : direntAt (flushed fs v inode) (t.addr fs) = direntAt v (t.addr fs) :=
        direntAt_congr fun i hi => flushed_outside hp.toWellFormed (hown.position hp) v (by omega)
      rw [Slot.stored_other haddr, hsame, ← hde]
  have hslots : dirSlots fs (flushed fs v inode) ds =
      (dirSlots fs v ds).map (Slot.stored fs inode) := by
    rw [dirSlots_reread v (flushed fs v inode)]
    exact List.map_congr_left hread
  obtain ⟨post, hsplit, hhead⟩ := h.split
  rw [hsplit, List.map_append] at hslots
  refine h.congr hp (h.words hp (flushed_sameFat hp (hown.position hp) v)) hslots (fun t ht => ?_) ?_
  · obtain ⟨u, hu, rfl⟩ := List.mem_map.mp ht
    have hused := h.used u hu
    rw [Slot.isEnd, Slot.isEmpty, SfatDirEntry.isEnd, SfatDirEntry.isEmpty, Slot.stored_attr]
    exact hused
  · intro t rest hpost
    cases post with
    | nil => cases hpost
    | cons u more =>
      rw [List.map_cons] at hpost
      rw [← (List.cons.inj hpost).1, Slot.stored_attr]
      exact hhead u more rfl

/-- What is in a slot fits in one. -/
theorem FilledDir.fits (h : FilledDir fs v start ds slots) (hs : s ∈ slots) : s.de.Fits := by
  rw [slot_de (mem_dirSlots.mp (h.mem hs)).2]
  exact direntAt_fits _ _

/-- The fields that were in a slot fit in another. -/
theorem update_of_fits (hfits : t.de.Fits) (hstart : inode.iStart = t.de.fstClsNo)
    (hsize : inode.iSize = t.de.size) (de : SfatDirEntry) :
    (de.update inode).fstClsNo = inode.iStart ∧ (de.update inode).size = inode.iSize := by
  refine ⟨Nat.mod_eq_of_lt ?_, Nat.mod_eq_of_lt ?_⟩
  · rw [hstart]
    exact hfits.fstClsNo
  · rw [hsize]
    exact hfits.size

/-! ### Changes -/

section Changes

/-- Slots with one address are the same. -/
theorem FilledDir.eq_of_addr (hp : Placed fs) (h : FilledDir fs v start ds slots) (hs : s ∈ slots)
    (ht : t ∈ slots) (haddr : s.addr fs = t.addr fs) : s = t :=
  slot_ext (h.mem hs) (h.mem ht) (place_of_addr hp (h.placed hp hs) (h.placed hp ht) haddr)

/-- A new slot is at a new address. -/
theorem FilledDir.addr_ne_last (hp : Placed fs) (h : FilledDir fs v start ds (slots ++ [x]))
    (hs : s ∈ slots) : s.addr fs ≠ x.addr fs := by
  intro haddr
  obtain ⟨post, hsplit, -⟩ := h.split
  have hnodup : (dirSlots fs v ds).Nodup := dirSlots_nodup h.chain.nodup
  obtain rfl := h.eq_of_addr hp (List.mem_append_left _ hs)
    (List.mem_append_right _ (List.mem_singleton_self x)) haddr
  rw [hsplit, List.append_assoc, List.nodup_append] at hnodup
  exact hnodup.2.2 s hs s (by simp) rfl

/-- Clusters that a write may take are none of another file's. -/
theorem KeepsOthers.disjoint (hkeep : KeepsOthers fs v cs v' es) {bs : List ℕ}
    (hused : ∀ c ∈ bs, fatWord fs v c ≠ sfatEntryFree) (hoff : cs.Disjoint bs) : es.Disjoint bs := by
  intro c hc hmem
  rcases hkeep.fresh c hc with hin | hfree
  · exact hoff hin hmem
  · exact hused c hmem hfree

/-- A flush writes to a cluster of the directory. -/
theorem FilledDir.keepsOthers (hp : Placed fs) (h : FilledDir fs v start ds slots) (hs : s ∈ slots)
    (hroot : inode.iIno ≠ sfatRootIno) (hpos : inode.iPos = s.addr fs) :
    KeepsOthers fs v ds (flushed fs v inode) ds := by
  have hown := h.ownSlot hp hs hroot hpos
  have hcls := (mem_dirSlots.mp (h.mem hs)).1
  apply (KeepsOthers.refl fs v ds).inside hp hcls (lt_fatWords hp (h.chain.below _ hcls))
  intro a ha
  exact flushed_apply_cluster hp hown v ha

/-- The slot of a file is in none of its clusters. -/
theorem FilesOnDisk.ownSlot (hp : Placed fs) (h : FilesOnDisk fs v start ds slots chains)
    (hs : s ∈ slots) (hroot : inode.iIno ≠ sfatRootIno) (hpos : inode.iPos = s.addr fs) :
    OwnSlot fs v (chains (s.addr fs)) inode s.cls := by
  have hslot := h.filled.ownSlot hp hs hroot hpos
  refine ⟨hslot.iIno_ne, hslot.lt_clusters, hslot.inUse, fun hin => ?_, hslot.iPos_eq⟩
  exact h.offDir s hs hin (mem_dirSlots.mp (h.filled.mem hs)).1

/-- The clusters of a file after another one was written and flushed. -/
theorem FilesOnDisk.other (hp : Placed fs) (h : FilesOnDisk fs v start ds slots chains)
    (hs : s ∈ slots) (hroot : inode.iIno ≠ sfatRootIno) (hpos : inode.iPos = s.addr fs)
    (hkeep : KeepsOthers fs v (chains (s.addr fs)) v' es) (ht : t ∈ slots)
    (haddr : t.addr fs ≠ s.addr fs) :
    EntryChain fs (flushed fs v' inode) t.de (chains (t.addr fs)) ∧
      entryContent fs (flushed fs v' inode) t.de = entryContent fs v t.de := by
  have hdir := h.filled.keptBy hp hkeep (h.offDir s hs)
  have hflush := hdir.keepsOthers hp hs hroot hpos
  obtain ⟨hone, hsame⟩ := (h.entries t ht).keptBy hp hkeep (h.apart t ht s hs haddr)
  obtain ⟨htwo, hsame'⟩ := hone.keptBy hp hflush (h.offDir t ht)
  exact ⟨htwo, hsame'.trans hsame⟩

/-- **A file is written and flushed.** -/
theorem FilesOnDisk.written (hp : Placed fs) (h : FilesOnDisk fs v start ds slots chains)
    (hs : s ∈ slots) (hroot : inode.iIno ≠ sfatRootIno) (hpos : inode.iPos = s.addr fs)
    (hkeep : KeepsOthers fs v (chains (s.addr fs)) v' es) (hfile : FileChain fs v' inode es)
    (hempty : inode.iSize = 0 → inode.iStart = sfatEntryFree) (h32 : inode.iSize < 2 ^ 32) :
    FilesOnDisk fs (flushed fs v' inode) start ds (slots.map (Slot.stored fs inode))
      (Function.update chains (s.addr fs) es) := by
  have hkept := h.filled.keptBy hp hkeep (h.offDir s hs)
  have hfat : SameFat fs v' (flushed fs v' inode) :=
    flushed_sameFat hp ((hkept.ownSlot hp hs hroot hpos).position hp) v'
  have hdir : ∀ c ∈ ds, fatWord fs v c ≠ sfatEntryFree := fun c hc => h.filled.chain.used hp hc
  have hself : ∀ t ∈ slots, t.addr fs = s.addr fs →
      Function.update chains (s.addr fs) es (t.addr fs) = es := by
    intro t _ haddr
    rw [haddr, Function.update_self]
  have hother : ∀ t ∈ slots, t.addr fs ≠ s.addr fs →
      Function.update chains (s.addr fs) es (t.addr fs) = chains (t.addr fs) :=
    fun t _ haddr => Function.update_of_ne haddr _ _
  -- the clusters of the file that was written are none of another file's
  have hapart : ∀ t ∈ slots, t.addr fs ≠ s.addr fs → es.Disjoint (chains (t.addr fs)) :=
    fun t ht haddr => hkeep.disjoint (fun c hc => ((h.entries t ht).used hp hc).2)
      (h.apart s hs t ht haddr.symm)
  refine ⟨hkept.stored hp hs hroot hpos, ?_, fun t' ht' => ?_, fun t' ht' => ?_,
    fun t' ht' u' hu' haddr => ?_⟩
  · rw [slotNames_stored]
    exact h.names
  · obtain ⟨t, ht, rfl⟩ := List.mem_map.mp ht'
    rw [Slot.stored_addr]
    by_cases haddr : t.addr fs = s.addr fs
    · rw [hself t ht haddr, Slot.stored_self (haddr.trans hpos.symm)]
      exact (hfile.sameFat hp hfat).entryChain hp hempty h32 t.de
    · rw [hother t ht haddr, Slot.stored_other fun heq => haddr (heq.trans hpos)]
      exact (h.other hp hs hroot hpos hkeep ht haddr).1
  · obtain ⟨t, ht, rfl⟩ := List.mem_map.mp ht'
    rw [Slot.stored_addr]
    by_cases haddr : t.addr fs = s.addr fs
    · rw [hself t ht haddr]
      exact hkeep.disjoint hdir (h.offDir s hs)
    · rw [hother t ht haddr]
      exact h.offDir t ht
  · obtain ⟨t, ht, rfl⟩ := List.mem_map.mp ht'
    obtain ⟨u, hu, rfl⟩ := List.mem_map.mp hu'
    rw [Slot.stored_addr, Slot.stored_addr] at haddr ⊢
    by_cases hts : t.addr fs = s.addr fs
    · have hus : u.addr fs ≠ s.addr fs := fun heq => haddr (hts.trans heq.symm)
      rw [hself t ht hts, hother u hu hus]
      exact hapart u hu hus
    · rw [hother t ht hts]
      by_cases hus : u.addr fs = s.addr fs
      · rw [hself u hu hus]
        exact (hapart t ht hts).symm
      · rw [hother u hu hus]
        exact h.apart t ht u hu haddr

/-- **A file is created.** -/
theorem FilesOnDisk.created (hp : Placed fs) (h : FilesOnDisk fs v start ds slots chains)
    {ds' : List ℕ} {n : List UInt8} (hfilled : FilledDir fs v' start ds' (slots ++ [x]))
    (hx : NewEntry n x) (hnew : n ∉ slotNames slots) (hkeep : KeepsOthers fs v ds v' es)
    (hds : ∀ c ∈ ds', c ∈ ds ∨ fatWord fs v c = sfatEntryFree) :
    FilesOnDisk fs v' start ds' (slots ++ [x]) (Function.update chains (x.addr fs) []) := by
  have hlast : Function.update chains (x.addr fs) [] (x.addr fs) = [] := Function.update_self ..
  have hold : ∀ t ∈ slots, Function.update chains (x.addr fs) [] (t.addr fs) = chains (t.addr fs) :=
    fun t ht => Function.update_of_ne (hfilled.addr_ne_last hp ht) _ _
  refine ⟨hfilled, ?_, fun t ht => ?_, fun t ht => ?_, fun t ht u hu haddr => ?_⟩
  · rw [slotNames, List.map_append, List.map_singleton, hx.name]
    exact List.nodup_append.mpr ⟨h.names, List.nodup_singleton n, fun m hm k hk => by
      rw [List.mem_singleton.mp hk]
      exact fun heq => hnew (heq ▸ hm)⟩
  · rcases List.mem_append.mp ht with ht | ht
    · rw [hold t ht]
      exact ((h.entries t ht).keptBy hp hkeep (h.offDir t ht)).1
    · rw [List.mem_singleton.mp ht, hlast]
      refine ⟨fun hpos => ?_, fun _ => hx.fstClsNo, ?_⟩
      · rw [hx.size] at hpos
        exact absurd hpos (lt_irrefl 0)
      · have hcs := hp.clusterSize_pos
        rw [hx.size, Nat.zero_add, Nat.div_eq_of_lt (by omega)]
        rfl
  · rcases List.mem_append.mp ht with ht | ht
    · rw [hold t ht]
      intro c hc hmem
      rcases hds c hmem with hin | hfree
      · exact h.offDir t ht hc hin
      · exact ((h.entries t ht).used hp hc).2 hfree
    · rw [List.mem_singleton.mp ht, hlast]
      exact List.disjoint_nil_left ds'
  · rcases List.mem_append.mp ht with ht | ht
    · rw [hold t ht]
      rcases List.mem_append.mp hu with hu | hu
      · rw [hold u hu]
        exact h.apart t ht u hu haddr
      · rw [List.mem_singleton.mp hu, hlast]
        exact List.disjoint_nil_right _
    · rw [List.mem_singleton.mp ht, hlast]
      exact List.disjoint_nil_left _

/-- A change that adds no entry. -/
theorem FilesOnDisk.same (hp : Placed fs) (h : FilesOnDisk fs v start ds slots chains)
    (hfilled : FilledDir fs v' start ds slots) (hkeep : KeepsOthers fs v ds v' es) :
    FilesOnDisk fs v' start ds slots chains where
  filled := hfilled
  names := h.names
  entries t ht := ((h.entries t ht).keptBy hp hkeep (h.offDir t ht)).1
  offDir := h.offDir
  apart := h.apart

end Changes

/-! ### The files -/

section Files

theorem FilledDir.files_eq (h : FilledDir fs v start ds slots) :
    volumeFiles fs v start = slots.map (Slot.file fs v) := by
  rw [volumeFiles, h.visible]

theorem FilledDir.files_names (h : FilledDir fs v start ds slots) :
    (volumeFiles fs v start).map Prod.fst = slotNames slots := by
  rw [h.files_eq, List.map_map, slotNames]
  rfl

/-- Slots with one name are the same. -/
theorem FilesOnDisk.eq_of_name (h : FilesOnDisk fs v start ds slots chains) (hs : s ∈ slots)
    (ht : t ∈ slots) (hname : cString s.de.name = cString t.de.name) : s = t :=
  List.inj_on_of_nodup_map h.names hs ht hname

/-- **The files after one was written and flushed.** -/
theorem FilesOnDisk.written_files (hp : Placed fs) (h : FilesOnDisk fs v start ds slots chains)
    (hs : s ∈ slots) (hroot : inode.iIno ≠ sfatRootIno) (hpos : inode.iPos = s.addr fs)
    (hkeep : KeepsOthers fs v (chains (s.addr fs)) v' es)
    (hfields : (s.de.update inode).fstClsNo = inode.iStart ∧ (s.de.update inode).size = inode.iSize)
    {pos : ℕ} {new : List UInt8} (hnew : firstBytes inode.iSize (fileContent fs
      (flushed fs v' inode) inode.iStart) = splice (entryContent fs v s.de) pos new) :
    volumeFiles fs (flushed fs v' inode) start =
      FileStore.writeFiles (volumeFiles fs v start) (cString s.de.name) pos new := by
  have hdir := (h.filled.keptBy hp hkeep (h.offDir s hs)).stored hp hs hroot hpos
  rw [hdir.files_eq, h.filled.files_eq, FileStore.writeFiles, List.map_map, List.map_map]
  apply List.map_congr_left
  intro t ht
  show (t.stored fs inode).file fs (flushed fs v' inode) = if cString t.de.name = cString s.de.name
    then (cString t.de.name, splice (entryContent fs v t.de) pos new) else t.file fs v
  rw [Slot.file, Slot.stored_name]
  by_cases haddr : t.addr fs = s.addr fs
  · obtain rfl := h.filled.eq_of_addr hp ht hs haddr
    rw [if_pos rfl, Slot.stored_self hpos.symm, entryContent, hfields.1, hfields.2, hnew]
  · have hname : cString t.de.name ≠ cString s.de.name :=
      fun hname => haddr (congrArg (Slot.addr fs) (h.eq_of_name ht hs hname))
    rw [if_neg hname, Slot.stored_other fun heq => haddr (heq.trans hpos),
      (h.other hp hs hroot hpos hkeep ht haddr).2, Slot.file]

/-- **A flush of what is stored** leaves the files as they are. -/
theorem FilesOnDisk.reflushed (hp : Placed fs) (h : FilesOnDisk fs v start ds slots chains)
    (hs : s ∈ slots) (hroot : inode.iIno ≠ sfatRootIno) (hpos : inode.iPos = s.addr fs)
    (hstart : inode.iStart = s.de.fstClsNo) (hsize : inode.iSize = s.de.size) :
    FilesOnDisk fs (flushed fs v inode) start ds (slots.map (Slot.stored fs inode))
        (Function.update chains (s.addr fs) (chains (s.addr fs))) ∧
      volumeFiles fs (flushed fs v inode) start = volumeFiles fs v start := by
  have hchain : FileChain fs v inode (chains (s.addr fs)) :=
    (h.entries s hs).fileChain hstart hsize
  have hempty : inode.iSize = 0 → inode.iStart = sfatEntryFree := by
    intro h0
    rw [hstart]
    exact (h.entries s hs).marked (hsize ▸ h0)
  have h32 : inode.iSize < 2 ^ 32 := by
    rw [hsize]
    exact (h.filled.fits hs).size
  have hrefl := KeepsOthers.refl fs v (chains (s.addr fs))
  refine ⟨h.written hp hs hroot hpos hrefl hchain hempty h32, ?_⟩
  have hcontent := ((h.entries s hs).keptBy hp (h.filled.keepsOthers hp hs hroot hpos)
    (h.offDir s hs)).2
  rw [entryContent, ← hstart, ← hsize] at hcontent
  rw [h.written_files hp hs hroot hpos hrefl (hchain.update_eq hp hempty h32 s.de)
    (hcontent.trans (splice_nil _ 0).symm), FileStore.writeFiles_nil]

/-- The old files after a call that wrote to the directory. -/
theorem FilesOnDisk.old_files (hp : Placed fs) (h : FilesOnDisk fs v start ds slots chains)
    (hkeep : KeepsOthers fs v ds v' es) :
    slots.map (Slot.file fs v') = volumeFiles fs v start := by
  rw [h.filled.files_eq]
  apply List.map_congr_left
  intro t ht
  rw [Slot.file, Slot.file, ((h.entries t ht).keptBy hp hkeep (h.offDir t ht)).2]

/-- **The files after one was created.** -/
theorem FilesOnDisk.created_files (hp : Placed fs) (h : FilesOnDisk fs v start ds slots chains)
    {ds' : List ℕ} {n : List UInt8} (hfilled : FilledDir fs v' start ds' (slots ++ [x]))
    (hx : NewEntry n x) (hkeep : KeepsOthers fs v ds v' es) :
    volumeFiles fs v' start = volumeFiles fs v start ++ [(n, [])] := by
  rw [hfilled.files_eq, List.map_append, h.old_files hp hkeep, List.map_singleton, Slot.file, hx.name,
    entryContent, hx.size]
  rfl

/-- The files after a call that added none. -/
theorem FilesOnDisk.same_files (hp : Placed fs) (h : FilesOnDisk fs v start ds slots chains)
    (hfilled : FilledDir fs v' start ds slots) (hkeep : KeepsOthers fs v ds v' es) :
    volumeFiles fs v' start = volumeFiles fs v start := by
  rw [hfilled.files_eq, h.old_files hp hkeep]

end Files

/-! ### The property -/

/-- **Such files make a consistent volume.** -/
theorem FilesOnDisk.consistent (hp : Placed fs) (h : FilesOnDisk fs v start ds slots chains) :
    VolumeConsistent fs v start := by
  refine ⟨ds, fun s => chains (s.addr fs), (dirChain_iff hp.toWellFormed).mp h.filled.chain, ?_⟩
  rw [h.filled.visible]
  intro s hs _
  refine ⟨h.entries s hs, h.offDir s hs, fun t ht _ hne => h.apart s hs t ht fun haddr => ?_⟩
  exact hne (h.filled.eq_of_addr hp hs ht haddr).symm

end SimpleFat

import SimpleFat.DiskFiles

/-!
# Accounts of the clusters

Every cluster in use belongs to the directory or to one of its files, but for some that are lost.

* `dirClusters` — the clusters that a directory needs;
* `Accounted` — the account, `Accounted.created`, `.written` — what calls do to it;
* `usedWords`, `neededClusters`, `demand` — how many clusters are in use and how many are needed;
* `FilesOnDisk.needed_le`, `Accounted.used_le`, `.used_eq` — the bounds.
-/

namespace SimpleFat

open SimpleFat.Lib

variable {fs : FsInfo} {v v' w : Vol} {start k l : ℕ} {cs ds ds' es lost : List ℕ}
  {slots : List Slot} {chains : ℕ → List ℕ} {inode : Inode} {s x : Slot}

/-- The number of clusters of a directory with `n` slots in use: it has one from the start. -/
def dirClusters (fs : FsInfo) (n : ℕ) : ℕ := (n - 1) / (fs.blkPerClus * fs.direntPerBlk) + 1

/-- **Every cluster in use is accounted for**, but for at most `k`: the directory has those that it
needs, and the others belong to the files. -/
structure Accounted (fs : FsInfo) (v : Vol) (ds : List ℕ) (slots : List Slot) (chains : ℕ → List ℕ)
    (k : ℕ) : Prop where
  dir : ds.length = dirClusters fs slots.length
  used : ∃ lost : List ℕ, lost.length ≤ k ∧ ∀ c < fatWords fs, fatWord fs v c ≠ sfatEntryFree →
    c ∈ ds ∨ (∃ s ∈ slots, c ∈ chains (s.addr fs)) ∨ c ∈ lost

/-! ### The clusters of the directory -/

section Directory

/-- **A directory with a slot more** has the clusters that it needs, if it gets one only when it is
full. -/
theorem FilledDir.clusters_concat (h : FilledDir fs v start ds slots)
    (h' : FilledDir fs v' start ds' (slots ++ [x]))
    (hds : ds' = ds ∨ firstUnused (chainSlots storedWord fs v start) = none ∧ ∃ c, ds' = ds ++ [c])
    (hdir : ds.length = dirClusters fs slots.length) :
    ds'.length = dirClusters fs (slots ++ [x]).length := by
  rw [dirClusters] at hdir
  rw [dirClusters, List.length_append, List.length_singleton, Nat.add_sub_cancel]
  rcases hds with rfl | ⟨hfull, c, rfl⟩
  · -- there was room for the slot
    obtain ⟨post, hsplit, -⟩ := h'.split
    have hlength := congrArg List.length hsplit
    rw [dirSlots_length, List.length_append, List.length_append, List.length_singleton] at hlength
    have hlt : slots.length / (fs.blkPerClus * fs.direntPerBlk) < ds'.length :=
      Nat.div_lt_of_lt_mul (by rw [Nat.mul_comm]; omega)
    have hle : (slots.length - 1) / (fs.blkPerClus * fs.direntPerBlk) ≤
        slots.length / (fs.blkPerClus * fs.direntPerBlk) := Nat.div_le_div_right (Nat.sub_le _ 1)
    omega
  · have hlength := congrArg List.length (h.full hfull)
    rw [dirSlots_length] at hlength
    obtain ⟨post, hsplit, -⟩ := h'.split
    have hmore := congrArg List.length hsplit
    simp only [dirSlots_length, List.length_append, List.length_singleton] at hmore
    have hpos : 0 < fs.blkPerClus * fs.direntPerBlk := by
      by_contra h0
      rw [Nat.eq_zero_of_not_pos h0, Nat.mul_zero] at hmore
      omega
    rw [List.length_append, List.length_singleton, ← hlength, Nat.mul_div_cancel _ hpos]

end Directory

/-! ### What calls do to it -/

section Changes

/-- The directory took clusters. -/
theorem Accounted.used_after (h : Accounted fs v ds slots chains k)
    (htaken : Taken fs v ds v' ds' []) :
    ∃ lost : List ℕ, lost.length ≤ k ∧ ∀ c < fatWords fs, fatWord fs v' c ≠ sfatEntryFree →
      c ∈ ds' ∨ (∃ s ∈ slots, c ∈ chains (s.addr fs)) ∨ c ∈ lost := by
  obtain ⟨lost, hlost, hall⟩ := h.used
  refine ⟨lost, hlost, fun c hc hused => ?_⟩
  rcases htaken.used c hc hused with hold | hmem | hmem
  · exact (hall c hc hold).imp_left (htaken.kept c)
  · exact .inl hmem
  · cases hmem

/-- **The directory is what it was.** -/
theorem Accounted.same (h : Accounted fs v ds slots chains k) (htaken : Taken fs v ds v' ds []) :
    Accounted fs v' ds slots chains k :=
  ⟨h.dir, h.used_after htaken⟩

/-- **A file more**, without clusters. -/
theorem Accounted.created (h : Accounted fs v ds slots chains k)
    (htaken : Taken fs v ds v' ds' []) (hnew : ∀ t ∈ slots, t.addr fs ≠ x.addr fs)
    (hdir : ds'.length = dirClusters fs (slots ++ [x]).length) :
    Accounted fs v' ds' (slots ++ [x]) (Function.update chains (x.addr fs) []) k := by
  obtain ⟨lost, hlost, hall⟩ := h.used_after htaken
  refine ⟨hdir, lost, hlost, fun c hc hused => (hall c hc hused).imp_right fun hmem => ?_⟩
  refine hmem.imp_left fun hfile => ?_
  obtain ⟨t, ht, hct⟩ := hfile
  refine ⟨t, List.mem_append_left [x] ht, ?_⟩
  rwa [Function.update_of_ne (hnew t ht)]

/-- **A file was written** and flushed. -/
theorem Accounted.written (h : Accounted fs v ds slots chains k) (hs : s ∈ slots)
    (htaken : Taken fs v (chains (s.addr fs)) v' es lost) (hfat : SameFat fs v' w)
    (hle : k + lost.length ≤ l) :
    Accounted fs w ds (slots.map (Slot.stored fs inode)) (Function.update chains (s.addr fs) es) l := by
  obtain ⟨old, hold, hall⟩ := h.used
  refine ⟨h.dir.trans (by rw [List.length_map]), old ++ lost, ?_, fun c hc hused => ?_⟩
  · rw [List.length_append]
    omega
  -- a cluster of the file
  have hself : c ∈ es → ∃ t ∈ slots.map (Slot.stored fs inode),
      c ∈ Function.update chains (s.addr fs) es (t.addr fs) := by
    intro hmem
    refine ⟨s.stored fs inode, List.mem_map_of_mem hs, ?_⟩
    rwa [Slot.stored_addr, Function.update_self]
  rw [hfat c hc] at hused
  rcases htaken.used c hc hused with hbefore | hmem | hmem
  · rcases hall c hc hbefore with hdir | hfile | hlost
    · exact .inl hdir
    · obtain ⟨t, ht, hct⟩ := hfile
      right
      left
      by_cases haddr : t.addr fs = s.addr fs
      · rw [haddr] at hct
        exact hself (htaken.kept c hct)
      · refine ⟨t.stored fs inode, List.mem_map_of_mem ht, ?_⟩
        rwa [Slot.stored_addr, Function.update_of_ne haddr]
    · exact .inr (.inr (List.mem_append_left lost hlost))
  · exact .inr (.inl (hself hmem))
  · exact .inr (.inr (List.mem_append_right old hmem))

end Changes

/-! ### How many clusters there are -/

def usedWords (fs : FsInfo) (v : Vol) : ℕ :=
  (List.range (fatWords fs)).countP fun c => fatWord fs v c ≠ sfatEntryFree

/-- The number of clusters that the files need for their contents. -/
def neededClusters (fs : FsInfo) (files : List (List UInt8 × List UInt8)) : ℕ :=
  (files.map fun f => clustersFor fs f.2.length).sum

/-- The clusters that files need, with those of their directory. -/
def demand (fs : FsInfo) (files : List (List UInt8 × List UInt8)) : ℕ :=
  dirClusters fs files.length + neededClusters fs files

section Bounds

def fileClusters (fs : FsInfo) (slots : List Slot) (chains : ℕ → List ℕ) : List ℕ :=
  slots.flatMap fun s => chains (s.addr fs)

theorem FilesOnDisk.fileClusters_length (h : FilesOnDisk fs v start ds slots chains) :
    (fileClusters fs slots chains).length = neededClusters fs (volumeFiles fs v start) := by
  rw [fileClusters, List.length_flatMap, neededClusters, h.filled.files_eq, List.map_map]
  congr 1
  apply List.map_congr_left
  intro s hs
  rw [(h.entries s hs).length_eq, Function.comp_apply, Slot.file, entryContent, firstBytes_length,
    clustersFor]

/-- The clusters of the files are in use, and no two are the same. -/
theorem FilesOnDisk.fileClusters_nodup (hp : Placed fs)
    (h : FilesOnDisk fs v start ds slots chains) : (ds ++ fileClusters fs slots chains).Nodup := by
  have hslots : slots.Nodup := by
    obtain ⟨post, hsplit, -⟩ := h.filled.split
    have hnodup : (dirSlots fs v ds).Nodup := dirSlots_nodup h.filled.chain.nodup
    rw [hsplit] at hnodup
    exact hnodup.of_append_left
  apply List.Nodup.append h.filled.chain.nodup
  · rw [fileClusters, List.nodup_flatMap]
    refine ⟨fun s hs => ?_, hslots.imp_of_mem fun hs ht hne => ?_⟩
    · rcases Nat.eq_zero_or_pos s.de.size with h0 | hpos
      · have hnil : chains (s.addr fs) = [] := by
          by_contra hne
          have hmem := List.head_mem hne
          have hpos := (h.entries s hs).size_pos hmem
          omega
        rw [hnil]
        exact List.nodup_nil
      · exact (((h.entries s hs).chain hpos).row hp).nodup
    · exact h.apart _ hs _ ht fun haddr => hne (h.filled.eq_of_addr hp hs ht haddr)
  · intro c hc hmem
    obtain ⟨s, hs, hcs⟩ := List.mem_flatMap.mp hmem
    exact h.offDir s hs hcs hc

theorem usedWords_eq (fs : FsInfo) (v : Vol) : usedWords fs v =
    ((List.range (fatWords fs)).filter fun c => fatWord fs v c ≠ sfatEntryFree).length :=
  List.countP_eq_length_filter

/-- **What the files and the directory need is in use.** -/
theorem FilesOnDisk.needed_le (hp : Placed fs) (h : FilesOnDisk fs v start ds slots chains) :
    ds.length + neededClusters fs (volumeFiles fs v start) ≤ usedWords fs v := by
  rw [← h.fileClusters_length, ← List.length_append, usedWords_eq]
  apply (List.subperm_of_subset (h.fileClusters_nodup hp) _).length_le
  intro c hc
  rw [List.mem_filter, List.mem_range, decide_eq_true_iff]
  rcases List.mem_append.mp hc with hc | hc
  · exact ⟨lt_fatWords hp (h.filled.chain.below c hc), h.filled.chain.used hp hc⟩
  · obtain ⟨s, hs, hcs⟩ := List.mem_flatMap.mp hc
    exact (h.entries s hs).used hp hcs

/-- **Nothing else is in use**, but for what was lost. -/
theorem Accounted.used_le (hacc : Accounted fs v ds slots chains k)
    (h : FilesOnDisk fs v start ds slots chains) :
    usedWords fs v ≤ ds.length + neededClusters fs (volumeFiles fs v start) + k := by
  obtain ⟨lost, hlost, hall⟩ := hacc.used
  have hsub : ((List.range (fatWords fs)).filter fun c => fatWord fs v c ≠ sfatEntryFree).Subperm
      (ds ++ fileClusters fs slots chains ++ lost) := by
    apply List.subperm_of_subset (List.nodup_range.filter _)
    intro c hc
    rw [List.mem_filter, List.mem_range, decide_eq_true_iff] at hc
    rcases hall c hc.1 hc.2 with hmem | hfile | hmem
    · exact List.mem_append_left lost (List.mem_append_left _ hmem)
    · exact List.mem_append_left lost (List.mem_append_right ds (List.mem_flatMap.mpr hfile))
    · exact List.mem_append_right _ hmem
  have hle := hsub.length_le
  rw [List.length_append, List.length_append, h.fileClusters_length] at hle
  rw [usedWords_eq]
  omega

/-- **If nothing was lost**, the clusters in use are those that the files and the directory need. -/
theorem Accounted.used_eq (hp : Placed fs) (hacc : Accounted fs v ds slots chains 0)
    (h : FilesOnDisk fs v start ds slots chains) :
    usedWords fs v = demand fs (volumeFiles fs v start) := by
  have hneeded := h.needed_le hp
  have hused := hacc.used_le h
  have hdir := hacc.dir
  rw [demand, show (volumeFiles fs v start).length = slots.length by
    rw [h.filled.files_eq, List.length_map]]
  omega

end Bounds

end SimpleFat

import SimpleFat.CreateAtomic
import SimpleFat.ReadContracts
import SimpleFat.VolumeRuns

/-!
# Calls that are cut off

Requests of a call may fail, and the power may be lost before any of them.  A block is written whole
or not at all.

A write that is cut off leaves every other file as it is; its own file has a first part of the new
bytes, up to the old size if the inode was not flushed.  A create that is cut off may show what was on
the device before behind the old files, but these stay.

* `NewRun.keepsOthers`, `ExistingRun.keepsOthers`, `DataRun.keepsOthers` — a write with failures;
* `VolumeInv.cut_write`, `.cut_read`, `.cut_create` — what a call may leave;
* `CallCut` — a call that is cut off, `CutFiles` — the files then;
* `files_survive_cut` — the result.
-/

namespace SimpleFat

open SimpleFat.Lib

variable {mayFail : Request → Prop} {fs : FsInfo} {v v' v₀ w : Vol} {cs ds es : List ℕ}
  {st st' : SyncWriteState} {start : ℕ} {inode inode' : Inode} {buf : ℕ → UInt8} {len ppos : ℕ}
  {slots : List Slot} {chains : ℕ → List ℕ} {s : Slot} {n : List UInt8}

/-! ### Writes with failures -/

section Write

/-- **The loop for new clusters** leaves the others alone, whatever fails. -/
theorem NewRun.keepsOthers (hp : Placed fs) (hrun : NewRun mayFail fs st v st' v')
    (hkeep : KeepsOthers fs v₀ cs v ds)
    (hcur : st.len ≠ 0 → st.curCls < fs.clustersPred → st.curCls ∈ ds) :
    ∃ es, KeepsOthers fs v₀ cs v' es := by
  -- a cluster is taken, linked to the last one and written
  have hround : ∀ {st : SyncWriteState} {v : Vol} {ds : List ℕ} {c n : ℕ},
      KeepsOthers fs v₀ cs v ds → st.curCls ∈ ds → FirstFree fs v c → st.curCls < fs.clustersPred →
      n ≤ chunkLen fs (st.at c) 0 → KeepsOthers fs v₀ cs
        (chunkWritten fs (st.at c) 0 n (clusterLinked fs v st.curCls c)) (ds ++ [c]) := by
    intro st v ds c n hkeep hmem hc hlt hn
    have hpred := hp.clustersPred_eq hp.clusters_pos
    have hword : st.curCls < fatWords fs := lt_fatWords hp (by omega)
    have hroom : 0 + n ≤ fs.clusterSize := by
      rw [chunkLen] at hn
      omega
    have hlinked : KeepsOthers fs v₀ cs (clusterLinked fs v st.curCls c) ds :=
      (hkeep.acquired hp hc).word hp hword (fun _ _ hd hnot => hkeep.ne hd hnot hmem) c
    have hlast : (st.at c).curCls ∈ ds ++ [c] := List.mem_append_right ds (List.mem_singleton_self c)
    exact (hlinked.concat (hkeep.mayTake hc)).chunk hp hlast hc.1 hroom
  induction hrun generalizing ds with
  | done _ => exact ⟨ds, hkeep⟩
  | noCluster _ _ => exact ⟨ds, hkeep⟩
  | unlinked _ hc _ => exact ⟨ds, hkeep.acquired hp hc⟩
  | @short st v c n hlen hc hlt hn _ =>
    exact ⟨ds ++ [c], hround hkeep (hcur hlen hlt) hc hlt (Nat.le_of_lt hn)⟩
  | @more st st' v v' c hlen hc hlt _ ih =>
    have hkeep' := hround hkeep (hcur hlen hlt) hc hlt (Nat.le_refl _)
    exact ih hkeep' fun _ _ => List.mem_append_right ds (List.mem_singleton_self c)

/-- **The walk over the clusters that the file has** leaves the others alone. -/
theorem ExistingRun.keepsOthers (hp : Placed fs) {r : Loop SyncWriteState SyncWriteState}
    (hrun : ExistingRun mayFail storedWord fs st v r v') (hkeep : KeepsOthers fs v₀ cs v cs)
    (hchain : FatChain fs v start cs) {k : ℕ} (hk : cs[k]? = some st.curCls) :
    KeepsOthers fs v₀ cs v' cs := by
  -- a cluster of the chain is written
  have hround : ∀ {st : SyncWriteState} {v : Vol} {k c n : ℕ}, KeepsOthers fs v₀ cs v cs →
      FatChain fs v start cs → cs[k]? = some st.curCls → nextWord storedWord fs v st.curCls = c →
      c < sfatEntryMax → n ≤ chunkLen fs (st.at c) 0 → cs[k + 1]? = some c ∧
        KeepsOthers fs v₀ cs (chunkWritten fs (st.at c) 0 n v) cs ∧
        FatChain fs (chunkWritten fs (st.at c) 0 n v) start cs := by
    intro st v k c n hkeep hchain hk hc hmax hn
    rw [nextWord_storedWord hp.toWellFormed] at hc
    have hk' := (hchain.row hp).next hchain.rowEnds hk hc hmax
    have hmem : (st.at c).curCls ∈ cs := List.mem_of_getElem? hk'
    have hlt : (st.at c).curCls < fatWords fs := lt_fatWords hp (hchain.2 _ hmem)
    have hroom : 0 + n ≤ fs.clusterSize := by
      rw [chunkLen] at hn
      omega
    exact ⟨hk', hkeep.chunk hp hmem hlt hroom, hchain.sameFat hp (sameFat_chunkWritten hp hlt)⟩
  induction hrun generalizing k with
  | done _ => exact hkeep
  | refused _ _ => exact hkeep
  | ended _ _ _ => exact hkeep
  | short _ _ hc hmax hn _ => exact (hround hkeep hchain hk hc hmax (Nat.le_of_lt hn)).2.1
  | more _ _ hc hmax _ ih =>
    obtain ⟨hk', hkeep', hchain'⟩ := hround hkeep hchain hk hc hmax (Nat.le_refl _)
    exact ih hkeep' hchain' hk'

/-- **A write leaves the clusters of the others alone**, whatever fails. -/
theorem DataRun.keepsOthers (hp : Placed fs) (hfile : FileChain fs v inode cs)
    (hrun : DataRun mayFail storedWord fs v inode buf len ppos (.ok st, inode') v') :
    ∃ es, KeepsOthers fs v cs v' es := by
  have hrefl := KeepsOthers.refl fs v cs
  -- the first bytes inside the file
  have hinside : ∀ {c n : ℕ}, WriteAllowed inode len ppos → WritesInside fs inode ppos →
      SeekFinds storedWord fs v inode.iStart ppos c →
      n ≤ chunkLen fs ((syncWriteStart inode buf len ppos).at c) (ppos % fs.clusterSize) →
      cs[ppos / fs.clusterSize]? = some c ∧ KeepsOthers fs v cs (chunkWritten fs
        ((syncWriteStart inode buf len ppos).at c) (ppos % fs.clusterSize) n v) cs ∧
      FatChain fs (chunkWritten fs ((syncWriteStart inode buf len ppos).at c)
        (ppos % fs.clusterSize) n v) inode.iStart cs := by
    intro c n hallow hin hseek hn
    obtain ⟨hsize, hlt⟩ := hfile.inside hp hallow hin
    have hk := ((hfile.seek_iff hp hsize hlt).mp hseek).1
    have hmem : ((syncWriteStart inode buf len ppos).at c).curCls ∈ cs := List.mem_of_getElem? hk
    have hcur := lt_fatWords hp ((hfile.chain hsize).2 _ hmem)
    have hmod := Nat.mod_lt ppos hp.clusterSize_pos
    rw [chunkLen] at hn
    exact ⟨hk, hrefl.chunk hp hmem hcur (by omega),
      (hfile.chain hsize).sameFat hp (sameFat_chunkWritten hp hcur)⟩
  cases hrun with
  | insideShort hallow hin hseek hn _ =>
    exact ⟨cs, (hinside hallow hin hseek (Nat.le_of_lt hn)).2.1⟩
  | insideOut hallow hin hseek hn hexist =>
    obtain ⟨hk, hkeep, hchain⟩ := hinside hallow hin hseek (Nat.le_of_eq hn)
    exact ⟨cs, hexist.keepsOthers hp hkeep hchain hk⟩
  | inside hallow hin hseek hn hexist hnew =>
    obtain ⟨hk, hkeep, hchain⟩ := hinside hallow hin hseek (Nat.le_of_eq hn)
    apply hnew.keepsOthers hp (hexist.keepsOthers hp hkeep hchain hk)
    intro hlen hlt
    exact absurd hlt (Nat.not_lt_of_le (hexist.next_refused hp rfl hlen))
  | endNotFound _ _ _ _ => exact ⟨cs, hrefl⟩
  | @atEnd c _ _ hallow hin hsize hseek hnew =>
    apply hnew.keepsOthers hp hrefl
    intro _ _
    have hend : ppos = inode.iSize := by
      have hle := hallow.1
      rw [WritesInside] at hin
      omega
    rw [hend] at hseek
    exact List.mem_of_getLast? (hfile.atEnd hp hsize hseek).1
  | noCluster _ _ _ _ => exact ⟨cs, hrefl⟩
  | @firstShort c n _ _ _ hc hn _ =>
    have hkeep := (hrefl.acquired hp hc).concat (.inr hc.2.1)
    rw [chunkLen] at hn
    exact ⟨cs ++ [c], hkeep.chunk hp (List.mem_append_right cs (List.mem_singleton_self c)) hc.1
      (by omega)⟩
  | @first c n _ _ _ _ _ hc hn hnew =>
    have hmem : c ∈ cs ++ [c] := List.mem_append_right cs (List.mem_singleton_self c)
    have hkeep := (hrefl.acquired hp hc).concat (.inr hc.2.1)
    rw [chunkLen] at hn
    exact hnew.keepsOthers hp (hkeep.chunk hp hmem hc.1 (by omega)) fun _ _ => hmem

/-- A write that is not to an empty file keeps its first cluster, and others are of the FAT. -/
theorem DataRun.iStart_cases (hrun : DataRun mayFail storedWord fs v inode buf len ppos (.ok st, inode') v') :
    inode'.iStart = inode.iStart ∨ inode.iSize = 0 ∧ inode'.iStart < fatWords fs := by
  cases hrun with
  | firstShort _ _ hsize hc _ _ =>
    show (if _ then _ else _) = _ ∨ _ ∧ (if _ then _ else _) < _
    split
    · exact .inr ⟨hsize, hc.1⟩
    · exact .inl rfl
  | first _ _ hsize hc _ _ => exact .inr ⟨hsize, hc.1⟩
  | _ => exact .inl rfl

end Write

/-! ### The files after a write -/

section Files

/-- **A write that was flushed.** -/
theorem FilesOnDisk.cut_flushed {sbi : SbInfo} (hfs : fs = sbi.fsInfo) (hp : Placed fs)
    (h : FilesOnDisk fs v start ds slots chains)
    (hs : s ∈ slots) (hroot : inode.iIno ≠ sfatRootIno) (hpos : inode.iPos = s.addr fs)
    (hstart : inode.iStart = s.de.fstClsNo) (hsize : inode.iSize = s.de.size)
    (hfat : fatWords fs ≤ sfatEntryFree)
    (hgood : ¬ AppendsInCluster fs v inode (chains (s.addr fs)) len ppos)
    (hbelow : StaysBelow fs v inode (chains (s.addr fs)) len ppos) {t : ℕ}
    (hrun : DataRun mayFail storedWord fs v inode buf len ppos (.ok st, inode') v') :
    volumeFiles fs (flushed fs v' (inode'.written fs st.ppos t)) start =
      FileStore.writeFiles (volumeFiles fs v start) (cString s.de.name) ppos
        (firstBytes st.accuLen buf) := by
  have hchain := (h.entries s hs).fileChain hstart hsize
  have hslot := h.ownSlot hp hs hroot hpos
  have hsame := hrun.inode_eq
  have hmark : MarkUsed fs v := fun hlt => absurd hlt (by omega)
  obtain ⟨es, hkeep⟩ := hrun.keepsOthers hp hchain
  have hsize' : (inode'.written fs st.ppos t).iSize = max inode.iSize (ppos + st.accuLen) := by
    rw [hsame, ← hrun.ppos_accu]
    rfl
  have hfields : (s.de.update (inode'.written fs st.ppos t)).fstClsNo =
      (inode'.written fs st.ppos t).iStart ∧
      (s.de.update (inode'.written fs st.ppos t)).size = (inode'.written fs st.ppos t).iSize := by
    constructor
    · apply Nat.mod_eq_of_lt
      show inode'.iStart < 2 ^ 32
      rcases hrun.iStart_cases with heq | ⟨-, hlt⟩
      · rw [heq, hstart]
        exact (h.filled.fits hs).fstClsNo
      · exact lt_of_fatWords hp hlt
    · apply Nat.mod_eq_of_lt
      rw [hsize']
      subst hfs
      exact StaysBelow.size_lt hp hchain hbelow hrun
  have hnew := hrun.spliced hp hchain hslot hmark hgood hstart hsize (.inl (Eq.refl
    (flushed fs v' (inode'.written fs st.ppos t))))
  rw [← hsize'] at hnew
  apply h.written_files hp hs _ _ hkeep hfields hnew
  · show inode'.iIno ≠ sfatRootIno
    rw [hsame]
    exact hroot
  · show inode'.iPos = s.addr fs
    rw [hsame]
    exact hpos

/-- **A write that was not flushed**: the size in the slot is the old one. -/
theorem FilesOnDisk.cut_unflushed (hp : Placed fs) (h : FilesOnDisk fs v start ds slots chains)
    (hs : s ∈ slots) (hroot : inode.iIno ≠ sfatRootIno) (hpos : inode.iPos = s.addr fs)
    (hstart : inode.iStart = s.de.fstClsNo) (hsize : inode.iSize = s.de.size)
    (hfat : fatWords fs ≤ sfatEntryFree)
    (hgood : ¬ AppendsInCluster fs v inode (chains (s.addr fs)) len ppos)
    (hrun : DataRun mayFail storedWord fs v inode buf len ppos (.ok st, inode') v') :
    volumeFiles fs v' start = FileStore.overwriteFiles (volumeFiles fs v start)
      (cString s.de.name) ppos (firstBytes st.accuLen buf) := by
  have hchain := (h.entries s hs).fileChain hstart hsize
  have hslot := h.ownSlot hp hs hroot hpos
  have hmark : MarkUsed fs v := fun hlt => absurd hlt (by omega)
  obtain ⟨es, hkeep⟩ := hrun.keepsOthers hp hchain
  have hnew := hrun.spliced (t := 0) hp hchain hslot hmark hgood hstart hsize (.inr rfl)
  -- the file has the old size, and its old first cluster
  have hcontent : entryContent fs v' s.de =
      (splice (entryContent fs v s.de) ppos (firstBytes st.accuLen buf)).take s.de.size := by
    rw [← hnew, firstBytes_take, entryContent, ← hsize, min_eq_left (le_max_left _ _)]
    rcases hrun.iStart_cases with heq | ⟨hzero, -⟩
    · rw [heq, hstart]
    · rw [hzero]
      rfl
  have hdir := h.filled.keptBy hp hkeep (h.offDir s hs)
  rw [hdir.files_eq, h.filled.files_eq, FileStore.overwriteFiles, List.map_map]
  apply List.map_congr_left
  intro u hu
  show u.file fs v' = if cString u.de.name = cString s.de.name then (cString u.de.name,
    (splice (entryContent fs v u.de) ppos (firstBytes st.accuLen buf)).take
      (entryContent fs v u.de).length) else u.file fs v
  by_cases haddr : u.addr fs = s.addr fs
  · obtain rfl := h.filled.eq_of_addr hp hu hs haddr
    rw [if_pos rfl, Slot.file, hcontent]
    congr 2
    rw [entryContent, firstBytes_length]
  · have hname : cString u.de.name ≠ cString s.de.name :=
      fun hname => haddr (congrArg (Slot.addr fs) (h.eq_of_name hu hs hname))
    rw [if_neg hname, Slot.file, Slot.file,
      ((h.entries u hu).keptBy hp hkeep (h.apart u hu s hs haddr)).2]

end Files

/-! ### The files after a create -/

/-- **What a create may leave**: the old slots are in front, and only clusters of the directory and
free ones were written. -/
structure KeepsFront (fs : FsInfo) (v w : Vol) (start : ℕ) (ds : List ℕ) (slots : List Slot) :
    Prop where
  front : slots <+: visibleSlots fs w start
  others : ∃ es, KeepsOthers fs v ds w es

section Create

variable {sbi : SbInfo} {dir dir' : Inode} {junk : CreateJunk} {t c d : ℕ}

/-- Used slots that are read first are visible. -/
theorem front_of_walk (hused : ∀ x ∈ slots, x.isEnd = false ∧ x.isEmpty = false)
    (hwalk : ds <+: walkClusters storedWord fs w fs.clusters start) {post : List Slot}
    (hslots : dirSlots fs w ds = slots ++ post) : slots <+: visibleSlots fs w start := by
  obtain ⟨more, hwalk⟩ := hwalk
  have hlive : liveSlots (slots ++ (post ++ dirSlots fs w more)) = liveSlots slots ++ liveSlots _ :=
    live_append_of_not_stop (noEnd_used hused) _
  rw [visibleSlots, chainSlots, ← hwalk, dirSlots_append, hslots, List.append_assoc, hlive,
    liveSlots_used hused]
  exact List.prefix_append _ _

theorem FilledDir.keepsFront_self (h : FilledDir fs v start ds slots) :
    KeepsFront fs v v start ds slots := by
  refine ⟨?_, ds, KeepsOthers.refl fs v ds⟩
  rw [h.visible]

/-- **A call that was not cut off.** -/
theorem CreateStep.keepsFront (hp : Placed fs) (h : FilledDir fs v dir.iStart ds slots)
    (hnext : NextSet fs v dir junk) (hgrows : GrowsInside fs v dir) (hnul : NoNul n)
    {p : Except CreateReturn (SfatDirEntry × ℕ)}
    (hstep : CreateStep storedWord fs v dir (padName n) junk t p dir' w) :
    KeepsFront fs v w dir.iStart ds slots := by
  refine ⟨?_, hstep.keepsOthers hp h hnext⟩
  rcases hstep.filled hp h hnext hgrows hnul with ⟨hfilled, -⟩ | ⟨x, ds', hfilled, -⟩
  · rw [hfilled.visible]
  · rw [hfilled.visible]
    exact List.prefix_append slots [x]

/-- A slot was written, and nothing else. -/
theorem FilledDir.keepsFront_slot (hp : Placed fs) (h : FilledDir fs v start ds slots)
    (hs : firstUnused (chainSlots storedWord fs v start) = some s) {de : SfatDirEntry}
    (hde : de.Fits) : KeepsFront fs v (slotWritten fs v s de) start ds slots := by
  obtain ⟨hplaced, hfat⟩ := h.sameFat hp hs de
  obtain ⟨rest, hsplit, hattr⟩ := h.found hs
  have hcls : s.cls ∈ ds := by
    have hmem := List.mem_of_find?_eq_some hs
    rw [h.seen] at hmem
    exact (mem_dirSlots.mp hmem).1
  have hnot : s ∉ slots := by
    intro hmem
    have hend := (h.used s hmem).1
    rw [isEnd_of_attr hattr] at hend
    cases hend
  rw [h.seen] at hsplit
  obtain ⟨post, hslots⟩ := before_slotWritten hp (h.lt hp) hsplit hnot hde
  constructor
  · apply front_of_walk h.used _ hslots
    rw [walk_sameFat storedOrAddress_storedWord hp hfat, h.walk]
  · refine ⟨ds, (KeepsOthers.refl fs v ds).inside hp hcls (lt_fatWords hp (h.chain.below _ hcls)) ?_⟩
    intro a ha
    exact slotWritten_outside hp hplaced de ha

/-- A cluster was taken, and nothing else. -/
theorem FilledDir.keepsFront_acquired (hp : Placed fs) (h : FilledDir fs v start ds slots)
    (hc : FirstFree fs v c) : KeepsFront fs v (setFatWord fs v c sfatEntryEoc) start ds slots := by
  obtain ⟨post, hsplit, -⟩ := h.split
  have hslots : dirSlots fs (setFatWord fs v c sfatEntryEoc) ds = slots ++ post := by
    rw [dirSlots_data hp (h.lt hp) fun a ha => setFatWord_data hp hc.1 _ ha, hsplit]
  refine ⟨front_of_walk h.used ?_ hslots, ds, (KeepsOthers.refl fs v ds).acquired hp hc⟩
  rw [walkClusters_acquired storedOrAddress_storedWord hp.toWellFormed hc, h.walk]

/-- **A cluster was linked**, and has its old content. -/
theorem FilledDir.keepsFront_linked (hp : Placed fs) (h : FilledDir fs v start ds slots)
    {name : Vector UInt8 11} (hname : NameFree storedWord fs v start name)
    (hfull : firstUnused (chainSlots storedWord fs v start) = none) (hc : FirstFree fs v c)
    (hlink : appendTarget storedWord fs (setFatWord fs v c sfatEntryEoc) fs.clusters start = some d) :
    KeepsFront fs v (clusterLinked fs v d c) start ds slots := by
  have hacc := (full_directory hp h.chain hname hfull).1
  have htarget := h.target hp hname hfull hc hlink
  have hd : d ∈ ds := htarget ▸ List.getLast_mem _
  have hdlt := lt_fatWords hp (h.chain.below d hd)
  have hc32 := lt_of_fatWords hp hc.1
  have hstarted : SameFat fs (grownVolume fs v c d (sfatFormDirEntry false name 0 0 0))
      (clusterLinked fs v d c) :=
    (SameFat.of_below hp fun a ha => clusterStarted_below hp hc32 ha).symm
  rw [htarget] at hstarted
  have hwalk := walk_grown hp h.chain hacc hc hstarted
  have hslots : dirSlots fs (clusterLinked fs v d c) ds = slots ++ [] := by
    rw [clusterLinked, dirSlots_data hp (h.lt hp) fun a ha => setFatWord_data hp hdlt _ ha,
      dirSlots_data hp (h.lt hp) fun a ha => setFatWord_data hp hc.1 _ ha, h.full hfull,
      List.append_nil]
  refine ⟨front_of_walk h.used ?_ hslots, ds, ?_⟩
  · rw [htarget, hwalk]
    exact List.prefix_append _ _
  · exact ((KeepsOthers.refl fs v ds).acquired hp hc).word hp hdlt
      (fun _ _ _ hnot heq => hnot (heq ▸ hd)) c

/-- The common end writes nothing for the root directory. -/
theorem createFinish_front {de : SfatDirEntry} {iPos : ℕ} (hfile : de.isDir = false)
    (hroot : dir.iIno = sfatRootIno) (h : KeepsFront sbi.fsInfo v w start ds slots) :
    wp (storedWorld mayFail) (createFinish sbi dir de iPos)
      (fun _ u => KeepsFront sbi.fsInfo v u start ds slots) w := by
  have hflushed : KeepsFront sbi.fsInfo v (flushed sbi.fsInfo w dir) start ds slots := by
    rwa [flushed_root hroot]
  exact createFinish_of hfile (fun _ _ => h) (fun _ => hflushed) fun _ _ => hflushed

/-- **A create in the root directory** keeps the old slots in front, whatever fails. -/
theorem FilledDir.cut_create (hp : Placed sbi.fsInfo)
    (h : FilledDir sbi.fsInfo v dir.iStart ds slots) (hroot : dir.iIno = sfatRootIno)
    (hnext : NextSet sbi.fsInfo v dir junk) (hgrows : GrowsInside sbi.fsInfo v dir) (hnul : NoNul n) :
    wp (storedWorld mayFail) (sfatCreateFile sbi dir n junk)
      (fun _ u => KeepsFront sbi.fsInfo v u dir.iStart ds slots) v := by
  rw [wp_create n fun _ => h.keepsFront_self]
  intro hname
  refine ⟨fun s hs t => ?_, fun hfull t => ?_⟩
  · have hmem := (mem_dirSlots.mp (List.mem_of_find?_eq_some hs)).2
    have hfile := formDirEntry_file (padName n) 0 0 t
    have hde := sfatFormDirEntry_fits false (padName n) 0 0 t
    have hslot := h.keepsFront_slot hp hs hde
    by_cases hlast : s.EndsBlock sbi.fsInfo
    · rw [wp_createInLastSlot hp.toWellFormed hmem (fun _ => h.keepsFront_self) hlast,
        wp_createMoveTerminator_failing hp.toWellFormed]
      -- the terminator has moved to another block
      have hmoved : ∀ {cls blk : ℕ}, moveTerminator storedWord sbi.fsInfo
          (slotWritten sbi.fsInfo v s (sfatFormDirEntry false (padName n) 0 0 t)) s junk =
          (none, terminatorWritten sbi.fsInfo (slotWritten sbi.fsInfo v s
            (sfatFormDirEntry false (padName n) 0 0 t)) cls blk) →
          KeepsFront sbi.fsInfo v (terminatorWritten sbi.fsInfo (slotWritten sbi.fsInfo v s
            (sfatFormDirEntry false (padName n) 0 0 t)) cls blk) dir.iStart ds slots :=
        fun hmove => (CreateStep.slotMoved hname hs hlast hmove).keepsFront hp h hnext hgrows hnul
      split
      · rename_i hblk
        refine ⟨createFinish_front hfile hroot (hmoved ?_), fun _ => hslot⟩
        rw [moveTerminator, if_pos hblk]
      · rename_i hblk
        split
        · exact hslot
        · rename_i hpred
          refine ⟨fun _ => hslot, fun _ => hslot, ?_⟩
          split
          · exact createFinish_front hfile hroot hslot
          · rename_i heoc
            split
            · exact hslot
            · rename_i hlarge
              refine ⟨createFinish_front hfile hroot (hmoved ?_), fun _ => hslot⟩
              rw [moveTerminator, if_neg hblk, if_neg hpred, if_neg heoc, if_neg hlarge]
    · rw [wp_createInFreeSlot hp.toWellFormed hmem (fun _ => h.keepsFront_self) hlast]
      exact createFinish_front hfile hroot hslot
  · rw [wp_createInNewCluster hp.toWellFormed (fun _ => h.keepsFront_self)
      fun c hc _ => h.keepsFront_acquired hp hc]
    intro c hc d hlink
    have hlinked := h.keepsFront_linked hp hname hfull hc hlink
    have hstep : CreateStep storedWord sbi.fsInfo v dir (padName n) junk t _ _ _ :=
      CreateStep.newCluster hname hfull hc hlink
    have hgrown : (dir.grown sbi.fsInfo t).iIno = sfatRootIno := hroot
    rw [clusterLinked] at hlinked
    exact ⟨fun _ => hlinked, createFinish_front (formDirEntry_file _ _ _ _) hgrown
      (hstep.keepsFront hp h hnext hgrows hnul)⟩

end Create

/-! ### Calls that are cut off -/

/-- **A call that is cut off**: what the volume holds when the power is lost. Until then any requests
may have failed. -/
inductive CallCut (ub : UndefinedShift) (st : Mounted) : VolumeCall → Vol → Prop
  | create {n : List UInt8} {junk : CreateJunk} {mayFail : Request → Prop} {w : Vol} : NoNul n →
      Reaches (storedWorld mayFail) (sfatCreateFile st.sbi st.dir n junk) st.vol w →
      CallCut ub st (.create n junk) w
  | lookup {n : List UInt8} {mayFail : Request → Prop} {w : Vol} :
      Reaches (storedWorld mayFail) (sfatLookup st.sbi st.dir n) st.vol w →
      CallCut ub st (.lookup n) w
  | readdir {fPos : ℕ} {mayFail : Request → Prop} {w : Vol} :
      Reaches (storedWorld mayFail) (sfatReaddir st.sbi.fsInfo st.dir.iStart st.dir.iSize fPos)
        st.vol w → CallCut ub st (.readdir fPos) w
  | read {n : List UInt8} {len ppos : ℕ} {inode : Inode} {mayFail : Request → Prop} {w : Vol} :
      st.files n = some inode →
      Reaches (storedWorld mayFail) (sfatSyncRead st.sbi.fsInfo inode len ppos) st.vol w →
      CallCut ub st (.read n len ppos) w
  | write {n : List UInt8} {buf : ℕ → UInt8} {len ppos : ℕ} {inode : Inode}
      {mayFail : Request → Prop} {w : Vol} : st.files n = some inode →
      Reaches (storedWorld mayFail) (sfatSyncWrite st.sbi.fsInfo inode buf len ppos) st.vol w →
      CallCut ub st (.write n buf len ppos) w
  | drop {n : List UInt8} : CallCut ub st (.drop n) st.vol
  | remount {options : MountOptions} {mayFail : Request → Prop} {w : Vol} :
      Reaches (storedWorld mayFail) (sfatFillSuperImpl ub 512 options) st.vol w →
      CallCut ub st (.remount options) w

/-- **The files after a call that was cut off**, from those before it. -/
inductive CutFiles (old : List (List UInt8 × List UInt8)) :
    VolumeCall → List (List UInt8 × List UInt8) → Prop
  | same {c : VolumeCall} : CutFiles old c old
  /-- Behind the old files there may be what was on the device before. -/
  | behind {n : List UInt8} {junk : CreateJunk} {more : List (List UInt8 × List UInt8)} :
      CutFiles old (.create n junk) (old ++ more)
  /-- A first part of the bytes is written, and the inode is flushed. -/
  | written {n : List UInt8} {buf : ℕ → UInt8} {len ppos k : ℕ} : k ≤ len →
      CutFiles old (.write n buf len ppos)
        (FileStore.writeFiles old (n.take 11) ppos (firstBytes k buf))
  /-- The inode is not flushed: the file has its old size. -/
  | torn {n : List UInt8} {buf : ℕ → UInt8} {len ppos k : ℕ} : k ≤ len →
      CutFiles old (.write n buf len ppos)
        (FileStore.overwriteFiles old (n.take 11) ppos (firstBytes k buf))

/-- What a call that is cut off leaves: the sectors before the FAT, and the files. -/
structure CutLeaves (st : Mounted) (c : VolumeCall) (w : Vol) : Prop where
  below : ∀ a < st.sbi.fsInfo.fatStartBlk * st.sbi.fsInfo.blockSize, w a = st.vol a
  files : CutFiles (volumeFiles st.sbi.fsInfo st.vol st.dir.iStart) c
    (volumeFiles st.sbi.fsInfo w st.dir.iStart)

theorem CutLeaves.same (st : Mounted) (c : VolumeCall) : CutLeaves st c st.vol where
  below _ _ := rfl
  files := .same

/-- A world in which every request may fail has all answers of the others. -/
theorem storedWorld_all (v : Vol) (c : Request) (r : Answer c) (v' : Vol)
    (h : storedWorld mayFail v c r v') : storedWorld (fun _ => True) v c r v' := by
  cases c with
  | blkholderAlloc => exact ⟨h.1, fun _ => trivial⟩
  | readBlock sz b => exact ⟨h.1, h.2.imp_right fun hr => ⟨hr.1, trivial⟩⟩
  | writeBlock sz b d => exact h.imp_right fun hr => ⟨hr.1, hr.2.1, trivial⟩
  | le32OfPointer a b p d => exact h
  | copyFromUser k => exact ⟨h.1, h.2.1, fun _ => trivial⟩
  | copyToUser k => exact ⟨h.1, h.2.1, fun _ => trivial⟩
  | currentTimeSec => exact h
  | newInode => exact ⟨h.1, fun _ => trivial⟩
  | iunique m => exact h
  | dAllocRoot => exact ⟨h.1, fun _ => trivial⟩
  | filldir call => exact ⟨h.1, h.2.imp_right fun hr => ⟨hr.1, trivial⟩⟩

/-- It may refuse every request. -/
theorem storedWorld_refuses : Refuses (storedWorld fun _ => True) := by
  intro v c
  cases c with
  | blkholderAlloc => exact ⟨none, rfl, fun _ => trivial⟩
  | readBlock sz b => exact ⟨none, rfl, .inr ⟨rfl, trivial⟩⟩
  | writeBlock sz b d => exact ⟨false, .inr ⟨rfl, rfl, trivial⟩⟩
  | le32OfPointer a b p d => exact ⟨_, rfl, rfl⟩
  | copyFromUser k => exact ⟨(0 : ℕ), rfl, Nat.zero_le k, fun _ => trivial⟩
  | copyToUser k => exact ⟨(0 : ℕ), rfl, Nat.zero_le k, fun _ => trivial⟩
  | currentTimeSec => exact ⟨(0 : ℕ), rfl⟩
  | newInode => exact ⟨none, rfl, fun _ => trivial⟩
  | iunique m => exact ⟨(m + 1 : ℕ), rfl, Nat.lt_succ_self m⟩
  | dAllocRoot => exact ⟨false, rfl, fun _ => trivial⟩
  | filldir call => exact ⟨(0 : ℤ), rfl, .inl rfl⟩

/-- **What holds whatever fails holds wherever the call is cut off.** -/
theorem cut_of_wp {α : Type} {p : Driver α} (h : Reaches (storedWorld mayFail) p v w)
    {Q : Vol → Prop} (hp : wp (storedWorld fun _ => True) p (fun _ u => Q u) v) : Q w :=
  h.of_wp storedWorld_all storedWorld_refuses hp

section Calls

variable {S k : ℕ} {P : Prop} {L : FormatLayout} {st : Mounted}

theorem VolumeInv.cut_create (h : formatLayout 512 S = some L) (hpos : 1 ≤ L.clusters)
    (inv : VolumeInv L v₀ k P st) {junk : CreateJunk} (hkeep : CallKeeps st (.create n junk))
    (hnul : NoNul n)
    (hcut : Reaches (storedWorld mayFail) (sfatCreateFile st.sbi st.dir n junk) st.vol w) :
    CutLeaves st (.create n junk) w := by
  have hp := inv.placed h hpos
  obtain ⟨ds, slots, chains, hdisk, -⟩ := inv.held
  obtain ⟨⟨more, hfront⟩, es, hothers⟩ :=
    cut_of_wp hcut (hdisk.filled.cut_create hp inv.root.iIno hkeep.1 hkeep.2 hnul)
  have hfiles : volumeFiles st.sbi.fsInfo w st.dir.iStart =
      volumeFiles st.sbi.fsInfo st.vol st.dir.iStart ++ more.map (Slot.file st.sbi.fsInfo w) := by
    rw [← hdisk.old_files hp hothers, ← List.map_append, hfront, volumeFiles]
  refine ⟨hothers.below, ?_⟩
  rw [hfiles]
  exact .behind

/-- A read with failures flushes the inode, or changes nothing. -/
theorem syncRead_flushes (inode : Inode) (len ppos : ℕ) :
    wp (storedWorld mayFail) (sfatSyncRead fs inode len ppos)
      (fun _ u => u = v ∨ ∃ t, u = flushed fs v { inode with iAtime := t }) v := by
  rw [sfatSyncRead]
  simp only []
  generalize (if fs.clusterSize < _ then fs.clusterSize - ppos else _) = count
  split
  · exact (wp_done _ _ _).mpr (.inl rfl)
  · split
    · exact (wp_done _ _ _).mpr (.inl rfl)
    · split
      · exact (wp_done _ _ _).mpr (.inl rfl)
      · split
        · exact (wp_done _ _ _).mpr (.inl rfl)
        · refine wp_seq (wp_of_reads (readCluster_reads count inode.iStart ppos)) fun r u hu => ?_
          subst hu
          rw [wp_currentTimeSec]
          intro t
          refine wp_seq (flush_spec { inode with iAtime := t }) fun r u hu => ?_
          rcases hu with ⟨-, rfl⟩ | ⟨-, rfl, -⟩
          · exact (wp_done _ _ _).mpr (.inr ⟨t, rfl⟩)
          · exact (wp_done _ _ _).mpr (.inl rfl)

theorem VolumeInv.cut_read (h : formatLayout 512 S = some L) (hpos : 1 ≤ L.clusters)
    (inv : VolumeInv L v₀ k P st) (hkeep : CallKeeps st (.read n len ppos))
    (hfile : st.files n = some inode)
    (hcut : Reaches (storedWorld mayFail) (sfatSyncRead st.sbi.fsInfo inode len ppos) st.vol w) :
    CutLeaves st (.read n len ppos) w := by
  have hp := inv.placed h hpos
  obtain ⟨ds, slots, chains, hdisk, hmem, -⟩ := inv.held
  obtain ⟨s, hs, -, hstart, hsize, -, hplace⟩ := hdisk.reader hmem hfile (hkeep inode hfile)
  have hroot := (hmem.known n inode hfile).2
  rcases cut_of_wp hcut (syncRead_flushes inode len ppos) with rfl | ⟨t, rfl⟩
  · exact CutLeaves.same st _
  · have hflush : ∀ i : Inode, i.iIno = inode.iIno → i.iPos = inode.iPos →
        i.iStart = inode.iStart → i.iSize = inode.iSize →
        CutLeaves st (.read n len ppos) (flushed st.sbi.fsInfo st.vol i) := by
      intro i hino hipos hfirst hlen
      have hi : i.iIno ≠ sfatRootIno := hino ▸ hroot
      rcases hplace with hplace | haside
      · have hplace := hipos.trans hplace
        refine ⟨(hdisk.filled.keepsOthers hp hs hi hplace).below, ?_⟩
        rw [(hdisk.reflushed hp hs hi hplace (hfirst.trans hstart) (hlen.trans hsize)).2]
        exact .same
      · rw [← hipos] at haside
        refine ⟨(haside.keepsOthers hp ds).2.below, ?_⟩
        rw [(hdisk.flushed_aside hp haside).2]
        exact .same
    exact hflush _ rfl rfl rfl rfl

theorem VolumeInv.cut_write (h : formatLayout 512 S = some L) (hpos : 1 ≤ L.clusters)
    (hfat : fatWords st.sbi.fsInfo ≤ sfatEntryFree) (inv : VolumeInv L v₀ k P st)
    (hkeep : CallKeeps st (.write n buf len ppos)) (hfile : st.files n = some inode)
    (hcut : Reaches (storedWorld mayFail) (sfatSyncWrite st.sbi.fsInfo inode buf len ppos) st.vol
      w) : CutLeaves st (.write n buf len ppos) w := by
  have hp := inv.placed h hpos
  obtain ⟨ds, slots, chains, hdisk, hmem, -⟩ := inv.held
  have hspec : wp (storedWorld fun _ => True) (sfatSyncWrite st.sbi.fsInfo inode buf len ppos)
      (fun _ u => ∃ r p v₁, DataRun (fun _ => True) storedWord st.sbi.fsInfo st.vol inode buf len ppos p v₁ ∧
        WriteOutcome (fun _ => True) st.sbi.fsInfo ppos p v₁ r u) st.vol :=
    wp_mono (sfatSyncWrite_spec hp.toWellFormed inode buf len ppos) fun r _ hr => ⟨r, hr⟩
  obtain ⟨r, ⟨p, inode₁⟩, v₁, hrun, hout⟩ := cut_of_wp hcut hspec
  cases p with
  | error e =>
    obtain ⟨-, rfl⟩ := hout
    obtain ⟨-, rfl⟩ := hrun.error_same
    exact CutLeaves.same st _
  | ok p =>
    obtain ⟨t, -, hw⟩ := hout
    obtain ⟨hown, hchainKept⟩ := hkeep inode hfile ⟨hrun.allowed, fun hin => hrun.seekFinds hin⟩
    obtain ⟨s, hs, hat, hstart, hsize, hchain⟩ := hdisk.owner hmem hfile hown
    obtain ⟨hgood, hbelow, -⟩ := hchainKept _ hchain
    have hroot := (hmem.known n inode hfile).2
    have htotal := hrun.total
    obtain ⟨es, hothers⟩ := hrun.keepsOthers hp hchain
    rcases hw with rfl | ⟨rfl, -⟩
    · have hfiles := hdisk.cut_flushed (t := t) rfl hp hs hroot hat.2 hstart hsize hfat hgood hbelow
        hrun
      have hsame := hrun.inode_eq
      have hplace : (inode₁.written st.sbi.fsInfo p.ppos t).iPos = s.addr st.sbi.fsInfo := by
        rw [hsame]
        exact hat.2
      have hino : (inode₁.written st.sbi.fsInfo p.ppos t).iIno ≠ sfatRootIno := by
        rw [hsame]
        exact hroot
      have hflush :=
        (hdisk.filled.keptBy hp hothers (hdisk.offDir s hs)).keepsOthers hp hs hino hplace
      refine ⟨fun a ha => (hflush.below a ha).trans (hothers.below a ha), ?_⟩
      rw [hfiles, hat.1]
      exact .written (by omega)
    · refine ⟨hothers.below, ?_⟩
      rw [hdisk.cut_unflushed hp hs hroot hat.2 hstart hsize hfat hgood hrun, hat.1]
      exact .torn (by omega)

/-- **One call that is cut off.** -/
theorem CallCut.leaves (h : formatLayout 512 S = some L) (hpos : 1 ≤ L.clusters)
    (hfat : fatWords st.sbi.fsInfo ≤ sfatEntryFree) (inv : VolumeInv L v₀ k P st) {ub : UndefinedShift}
    {c : VolumeCall} (hkeep : CallKeeps st c) (hcut : CallCut ub st c w) : CutLeaves st c w := by
  cases hcut with
  | create hnul hcut => exact inv.cut_create h hpos hkeep hnul hcut
  | lookup hcut =>
    rw [vol_of_reads hcut (lookup_reads _ _)]
    exact CutLeaves.same st _
  | readdir hcut =>
    rw [vol_of_reads hcut (readdir_reads _ _ _)]
    exact CutLeaves.same st _
  | read hfile hcut => exact inv.cut_read h hpos hkeep hfile hcut
  | write hfile hcut => exact inv.cut_write h hpos hfat hkeep hfile hcut
  | drop => exact CutLeaves.same st _
  | remount hcut =>
    rw [vol_of_reads hcut (fillSuper_reads _ _ _)]
    exact CutLeaves.same st _

end Calls

/-! ### The result -/

section Result

variable {S : ℕ} {L : FormatLayout} {ub : UndefinedShift} {options : MountOptions}
  {log : List (VolumeCall × CallResult)} {st : Mounted} {c : VolumeCall}

/-- **The files survive a cut**: wherever the power is lost in a call after a run, and whatever failed
in it, the other files keep their contents, and the file of a write has a first part of the new bytes.
Mounts that succeed see these files. -/
theorem files_survive_cut (h : formatLayout 512 S = some L) (hpos : 1 ≤ L.clusters)
    (hfat : L.fatLengthSectors < 2 ^ 25) (hrun : VolumeRun ub options L v₀ CallKeeps log st)
    (hkeep : CallKeeps st c) (hcut : CallCut ub st c w) :
    CutFiles (volumeFiles (formattedFsInfo L) st.vol 0) c (volumeFiles (formattedFsInfo L) w 0) ∧
    ∀ ub' options' tr sbi root w', Exec (lookupWorld storedWord)
      (sfatFillSuperImpl ub' 512 options') w tr (.ok (sbi, root)) w' →
      volumeFiles sbi.fsInfo w' root.iStart = volumeFiles (formattedFsInfo L) w 0 := by
  have inv := hrun.inv h hpos
  have hwords : fatWords st.sbi.fsInfo ≤ sfatEntryFree := by
    rw [inv.root.fsInfo]
    exact formatted_fatWords hfat
  have hleaves := hcut.leaves h hpos hwords inv hkeep
  have hfiles := hleaves.files
  rw [inv.root.fsInfo, inv.root.iStart] at hfiles
  refine ⟨hfiles, fun ub' options' tr sbi root w' he => ?_⟩
  obtain ⟨rfl, hroot⟩ := mounted_again h (inv.boot_of_below hleaves.below) he
  rw [hroot.fsInfo, hroot.iStart]

/-- The power is lost after the data of the write, before the inode is flushed. -/
theorem files_survive_cut_oneByte : ∃ w, CallCut zeroShift created31 (.write [97] (fun _ => 7) 1 0) w ∧
    (CutFiles (volumeFiles (formattedFsInfo layout31) created31.vol 0)
      (.write [97] (fun _ => 7) 1 0) (volumeFiles (formattedFsInfo layout31) w 0) ∧
    ∀ ub' options' tr sbi root w', Exec (lookupWorld storedWord)
      (sfatFillSuperImpl ub' 512 options') w tr (.ok (sbi, root)) w' →
      volumeFiles sbi.fsInfo w' root.iStart = volumeFiles (formattedFsInfo layout31) w 0) := by
  have hdata := Exec.quietStored
    (syncWriteData sbi31.fsInfo firstFile31 (fun _ => 7) 1 0) created31.vol
  have hcut := hdata.reaches.bind (syncWriteFinish sbi31.fsInfo 0)
  rw [← sfatSyncWrite_eq] at hcut
  have hcall : CallCut zeroShift created31 (.write [97] (fun _ => 7) 1 0) _ :=
    .write created31_file hcut
  exact ⟨_, hcall, files_survive_cut (show formatLayout 512 31 = some layout31 by decide) (by decide)
    (by decide) (mounted31_run.call mounted31_keeps created31_call) created31_keeps hcall⟩

end Result

end SimpleFat

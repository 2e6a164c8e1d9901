import SimpleFat.SequentialFat
import SimpleFat.FatCopies
import SimpleFat.ReadFile
import SimpleFat.VolumeCalls

/-!
# Runs on a mounted volume

What one call preserves, and what it does to the files: the volume holds a store of files under
distinct names, and each call is a step of that store.

* `VolumeInv` — the invariant of a run, `HoldsFiles` — the store that the volume holds;
* `StoreStep` — what a call does to the files;
* `VolumeInv.create`, `.lookup`, `.readdir`, `.read`, `.write`, `.remount` — one call;
* `VolumeRun.inv`, `VolumeRun.refines` — a run;
* `volume_consistent_over_runs`, `volume_refines_store`, `volume_content_replayed` — the results;
* `space_accounted_over_runs` — the clusters in use.
-/

namespace SimpleFat

open SimpleFat.Lib

/-! ### The store -/

/-- The files of the root directory, by their names of at most 11 bytes. -/
abbrev Files := FileStore (List UInt8) UInt8

/-- **What a call does to the files.**  Only the first bytes of a file, as many as there are in a
cluster, can be read. -/
inductive StoreStep (clusterSize : ℕ) : Files → VolumeCall → CallResult → Files → Prop
  | created {σ : Files} {n : List UInt8} {junk : CreateJunk} {inode : Inode}
      (h : n.take 11 ∉ σ.keys) :
      StoreStep clusterSize σ (.create n junk) (.dentry (.ok (some inode))) (σ.create (n.take 11) h)
  | refused {σ : Files} {n : List UInt8} {junk : CreateJunk} {e : Errno} :
      (e = .eexist ↔ n.take 11 ∈ σ.keys) →
      StoreStep clusterSize σ (.create n junk) (.dentry (.error e)) σ
  /-- The file is there, but the call gets stuck behind it. -/
  | stuck {σ : Files} {n : List UInt8} {junk : CreateJunk} (h : n.take 11 ∉ σ.keys) :
      StoreStep clusterSize σ (.create n junk) (.dentry (.error .einval)) (σ.create (n.take 11) h)
  | found {σ : Files} {n bytes : List UInt8} {inode : Inode} : (n.take 11, bytes) ∈ σ.files →
      inode.iSize = bytes.length →
      StoreStep clusterSize σ (.lookup n) (.dentry (.ok (some inode))) σ
  | missing {σ : Files} {n : List UInt8} {r : CreateReturn} : n.take 11 ∉ σ.keys →
      r = .ok none ∨ r = .error .einval → StoreStep clusterSize σ (.lookup n) (.dentry r) σ
  /-- What is emitted at the position of a file has its name. -/
  | listed {σ : Files} {fPos : ℕ} {r : ReaddirState} :
      (∀ call ∈ r.dirent, ∀ n, σ.keys[call.pos / 32]? = some n → emittedName call = n) →
      StoreStep clusterSize σ (.readdir fPos) (.listed r) σ
  | read {σ : Files} {n bytes out : List UInt8} {len ppos : ℕ} : (n.take 11, bytes) ∈ σ.files →
      out = (bytes.drop ppos).take (min len (clusterSize - ppos)) →
      StoreStep clusterSize σ (.read n len ppos) (.data out (ppos + out.length)) σ
  | wrote {σ : Files} {n bytes : List UInt8} {buf : ℕ → UInt8} {len ppos k : ℕ} :
      (n.take 11, bytes) ∈ σ.files → ppos ≤ bytes.length → k ≤ len →
      StoreStep clusterSize σ (.write n buf len ppos) (.wrote (.ok k) (ppos + k))
        (σ.write (n.take 11) ppos (firstBytes k buf))
  | notWritten {σ : Files} {n : List UInt8} {buf : ℕ → UInt8} {len ppos : ℕ} {e : Errno} :
      StoreStep clusterSize σ (.write n buf len ppos) (.wrote (.error e) ppos) σ
  | dropped {σ : Files} {n : List UInt8} : StoreStep clusterSize σ (.drop n) .dropped σ
  | mounted {σ : Files} {options : MountOptions} :
      StoreStep clusterSize σ (.remount options) .mounted σ

def HoldsFiles (st : Mounted) (σ : Files) : Prop :=
  volumeFiles st.sbi.fsInfo st.vol st.dir.iStart = σ.files

/-- **A call is a step of the store**, if no FAT is so large that the mark of a free word is the
number of one. -/
def CallRefines (st : Mounted) (c : VolumeCall) (r : CallResult) (st' : Mounted) : Prop :=
  fatWords st.sbi.fsInfo ≤ sfatEntryFree → ∀ σ, HoldsFiles st σ →
    ∃ σ', StoreStep st.sbi.fsInfo.clusterSize σ c r σ' ∧ HoldsFiles st' σ'

/-- **The invariant of a run**, in which `k` clusters may have been lost.  If `P` holds, the directory
in memory has the size of its chain. -/
structure VolumeInv (L : FormatLayout) (v₀ : Vol) (k : ℕ) (P : Prop) (st : Mounted) : Prop where
  root : RootInode L st.sbi st.dir
  boot : ∀ a < 42, st.vol a = formatVolume L v₀ a
  sequential : ∃ m, Sequential st.sbi.fsInfo st.vol m
  held : ∃ ds slots chains, FilesOnDisk st.sbi.fsInfo st.vol st.dir.iStart ds slots chains ∧
    InMemory st.sbi.fsInfo slots st.files ∧ Accounted st.sbi.fsInfo st.vol ds slots chains k ∧
    (P → st.dir.iSize = ds.length * st.sbi.fsInfo.clusterSize)

/-- A write that was short may have lost a cluster. -/
def shortWrite : VolumeCall × CallResult → ℕ
  | (.write _ _ len _, .wrote (.ok n) _) => min 1 (len - n)
  | _ => 0

/-- The volume is not mounted again. -/
def VolumeCall.SameMount : VolumeCall → Prop
  | .remount _ => False
  | _ => True

def SameMount (log : List (VolumeCall × CallResult)) : Prop := ∀ p ∈ log, p.1.SameMount

def shortWrites (log : List (VolumeCall × CallResult)) : ℕ := (log.map shortWrite).sum

section Calls

variable {S k : ℕ} {P : Prop} {L : FormatLayout} {v₀ v' : Vol} {st : Mounted} {σ : Files} {ds : List ℕ}
  {slots : List Slot} {chains : ℕ → List ℕ} {n : List UInt8} {tr : List Request} {s : Slot}
  {inode : Inode}

/-! ### What is held -/

/-- The keys of the store are the names of the slots. -/
theorem HoldsFiles.keys (hσ : HoldsFiles st σ)
    (hdisk : FilesOnDisk st.sbi.fsInfo st.vol st.dir.iStart ds slots chains) :
    σ.keys = slotNames slots := by
  rw [FileStore.keys, ← hσ, hdisk.filled.files_names]

/-- The file of a slot. -/
theorem HoldsFiles.mem (hσ : HoldsFiles st σ)
    (hdisk : FilesOnDisk st.sbi.fsInfo st.vol st.dir.iStart ds slots chains) (hs : s ∈ slots)
    (hname : cString s.de.name = n.take 11) :
    (n.take 11, entryContent st.sbi.fsInfo st.vol s.de) ∈ σ.files := by
  rw [← hσ, hdisk.filled.files_eq, ← hname]
  exact List.mem_map_of_mem (f := Slot.file st.sbi.fsInfo st.vol) hs

theorem VolumeInv.mono {P' : Prop} (inv : VolumeInv L v₀ k P st) (hP : P' → P) :
    VolumeInv L v₀ k P' st := by
  obtain ⟨ds, slots, chains, hdisk, hmem, hacc, hdir⟩ := inv.held
  exact ⟨inv.root, inv.boot, inv.sequential, ds, slots, chains, hdisk, hmem, hacc,
    fun hP' => hdir (hP hP')⟩

theorem VolumeInv.placed (h : formatLayout 512 S = some L) (hpos : 1 ≤ L.clusters)
    (inv : VolumeInv L v₀ k P st) : Placed st.sbi.fsInfo := by
  rw [inv.root.fsInfo]
  exact formattedFsInfo_placed h hpos

/-- A change behind the reserved sectors keeps the boot sector. -/
theorem VolumeInv.boot_of_below (inv : VolumeInv L v₀ k P st)
    (hbelow : ∀ a < st.sbi.fsInfo.fatStartBlk * st.sbi.fsInfo.blockSize, v' a = st.vol a) :
    ∀ a < 42, v' a = formatVolume L v₀ a := by
  intro a ha
  rw [inv.root.fsInfo] at hbelow
  rw [hbelow a (show a < 11 * 512 by omega), inv.boot a ha]

/-! ### `sfat_create_file` -/

/-- The inode of a file that was created is at the new slot, if it is at any. -/
theorem InMemory.created {fs : FsInfo} {sbi : SbInfo} {files : List UInt8 → Option Inode} {x : Slot}
    {iPos : ℕ} (hmem : InMemory fs slots files) (hx : NewEntry (n.take 11) x)
    (hnew : n.take 11 ∉ slotNames slots) (hbuilt : Built sbi x.de iPos inode) :
    InMemory fs (slots ++ [x]) (Function.update files n (some inode)) := by
  apply (hmem.grown hx hnew).learned
  · rw [slotNames, List.map_append, List.map_singleton, hx.name]
    simp
  · exact Nat.ne_of_gt hbuilt.iIno
  · intro s hs hat
    rcases List.mem_append.mp hs with hs | hs
    · have hold : cString s.de.name ∈ slotNames slots := List.mem_map_of_mem hs
      rw [hat.1] at hold
      exact absurd hold hnew
    · rw [List.mem_singleton.mp hs]
      exact ⟨⟨hbuilt.iStart, hbuilt.iSize⟩, fun m inode' hm hat' =>
        absurd hat' (hmem.not_new hx hnew hm)⟩

/-- **How a call that creates a file ends**: the root directory is not flushed. -/
theorem create_cases {sbi : SbInfo} {dir dir' : Inode} {v v' : Vol} {junk : CreateJunk}
    {r : CreateReturn} (hwf : WellFormed sbi.fsInfo) (hroot : dir.iIno = sfatRootIno)
    (he : Exec (lookupWorld storedWord) (sfatCreateFile sbi dir n junk) v tr (r, dir') v') :
    ∃ t p, CreateStep storedWord sbi.fsInfo v dir (padName n) junk t p dir' v' ∧
      ((∃ e, p = .error e ∧ r = e) ∨
        ∃ q inode, p = .ok q ∧ r = .ok (some inode) ∧ Built sbi q.1 q.2 inode) := by
  obtain ⟨t, p, v₁, hstep, hout⟩ := (wp_iff_exec _ _ _).mp (create_spec hwf dir n junk) _ _ _ he
  cases p with
  | error early =>
    obtain rfl := hout.2
    exact ⟨t, _, hstep, .inl ⟨early, rfl, hout.1⟩⟩
  | ok q =>
    obtain ⟨hv, inode, hr, hbuilt⟩ := hout
    obtain rfl := hv.trans (flushed_root (hstep.iIno_eq.trans hroot) v₁)
    exact ⟨t, _, hstep, .inr ⟨q, inode, rfl, hr, hbuilt⟩⟩

/-- **A file is created.** -/
theorem VolumeInv.create (h : formatLayout 512 S = some L) (hpos : 1 ≤ L.clusters)
    (inv : VolumeInv L v₀ k P st) {junk : CreateJunk} {r : CreateReturn} {dir' : Inode} (hnul : NoNul n)
    (hkeep : CallKeeps st (.create n junk))
    (he : Exec (lookupWorld storedWord) (sfatCreateFile st.sbi st.dir n junk) st.vol tr (r, dir')
      v') :
    VolumeInv L v₀ k P ⟨st.sbi, dir', st.learn n r, v'⟩ ∧
      CallRefines st (.create n junk) (.dentry r) ⟨st.sbi, dir', st.learn n r, v'⟩ := by
  have hp := inv.placed h hpos
  obtain ⟨ds, slots, chains, hdisk, hmem, hacc, hdir⟩ := inv.held
  obtain ⟨t, p, hstep, hr⟩ := create_cases hp.toWellFormed inv.root.iIno he
  have hstart : dir'.iStart = st.dir.iStart := hstep.iStart_eq
  have hino : dir'.iIno = sfatRootIno := hstep.iIno_eq.trans inv.root.iIno
  obtain ⟨m, hseq⟩ := inv.sequential
  have hseq := hstep.sequential hp hseq hdisk.filled hkeep.1 hkeep.2 hnul
  obtain ⟨es, hothers⟩ := hstep.keepsOthers hp hdisk.filled hkeep.1
  have hroot : RootInode L st.sbi dir' := ⟨inv.root.fsInfo, hino, hstart.trans inv.root.iStart⟩
  have hboot := inv.boot_of_below hothers.below
  rcases hstep.filled hp hdisk.filled hkeep.1 hkeep.2 hnul with
    ⟨hfilled, e, rfl, heexist⟩ | ⟨x, ds', hfilled, hx, hnew, hend, hds⟩
  · -- nothing was added
    obtain rfl : r = .error e := by
      rcases hr with ⟨e', heq, rfl⟩ | ⟨q, inode, heq, -⟩
      · exact (Except.error.inj heq).symm
      · cases heq
    have htaken := hstep.taken hp hdisk.filled hkeep.1 hkeep.2 hnul hfilled fun _ hc => hc
    have hsized := fun h => hstep.sized hp hdisk.filled hkeep.1 hkeep.2 hnul hfilled (hdir h)
    refine ⟨⟨hroot, hboot, hseq, ds, slots, chains, ?_, hmem, hacc.same htaken, hsized⟩,
      fun _ σ hσ => ⟨σ, .refused ?_, ?_⟩⟩
    · rw [hstart]
      exact hdisk.same hp hfilled hothers
    · rw [hσ.keys hdisk]
      exact heexist
    · rw [HoldsFiles, hstart, hdisk.same_files hp hfilled hothers]
      exact hσ
  · have hsub : ∀ c ∈ ds, c ∈ ds' := by
      intro c hc
      rcases hds with rfl | ⟨-, d, rfl, -⟩
      · exact hc
      · exact List.mem_append_left [d] hc
    have htaken := hstep.taken hp hdisk.filled hkeep.1 hkeep.2 hnul hfilled hsub
    have hacc' := hacc.created htaken (fun t ht => hfilled.addr_ne_last hp ht)
      (hdisk.filled.clusters_concat hfilled (hds.imp_right fun hgrown =>
        ⟨hgrown.1, hgrown.2.imp fun _ hc => hc.1⟩) hacc.dir)
    have hsized := fun h => hstep.sized hp hdisk.filled hkeep.1 hkeep.2 hnul hfilled (hdir h)
    have hdisk' := hdisk.created hp hfilled hx hnew hothers fun c hc => by
      rcases hds with rfl | ⟨-, d, rfl, hd⟩
      · exact .inl hc
      · rcases List.mem_append.mp hc with hc | hc
        · exact .inl hc
        · rw [List.mem_singleton.mp hc]
          exact .inr hd.2.1
    have hfiles := hdisk.created_files hp hfilled hx hothers
    have hholds : ∀ σ (hσ : HoldsFiles st σ) (hkey : n.take 11 ∉ σ.keys)
        (files : List UInt8 → Option Inode),
        HoldsFiles ⟨st.sbi, dir', files, v'⟩ (σ.create (n.take 11) hkey) := by
      intro σ hσ hkey files
      rw [HoldsFiles, hstart, hfiles, hσ]
      rfl
    have hfree : ∀ σ, HoldsFiles st σ → n.take 11 ∉ σ.keys := by
      intro σ hσ
      rw [hσ.keys hdisk]
      exact hnew
    rw [← hstart] at hdisk'
    rcases hr with ⟨e', rfl, rfl⟩ | ⟨q, inode, rfl, rfl, hbuilt⟩
    · rcases hend with ⟨q, heq, -⟩ | heq
      · cases heq
      · obtain rfl := Except.error.inj heq
        exact ⟨⟨hroot, hboot, hseq, ds', _, _, hdisk', hmem.grown hx hnew, hacc', hsized⟩,
          fun _ σ hσ => ⟨_, .stuck (hfree σ hσ), hholds σ hσ _ _⟩⟩
    · obtain ⟨q', heq, hq⟩ := hend.resolve_right (fun heq => by cases heq)
      obtain rfl := Except.ok.inj heq
      rw [hq] at hbuilt
      exact ⟨⟨hroot, hboot, hseq, ds', _, _, hdisk', hmem.created hx hnew hbuilt, hacc', hsized⟩,
        fun _ σ hσ => ⟨_, .created (hfree σ hσ), hholds σ hσ _ _⟩⟩

/-! ### `sfat_lookup` and `sfat_readdir` -/

/-- An inode that `sfat_lookup` builds is at no slot with its name: its position is counted from the
block on the volume. -/
theorem not_atSlot_of_lookup {fs : FsInfo} {sbi : SbInfo} {v : Vol} {start : ℕ} (hp : Placed fs)
    (hdisk : FilesOnDisk fs v start ds slots chains) (hs : s ∈ slots)
    (hname : cString s.de.name = n.take 11)
    (hbuilt : Built sbi s.de
      (formDirEntryPos fs s.cls (clsToBlk fs s.cls + s.blk + 1) (s.idx * 32)) inode) {t : Slot}
    (ht : t ∈ slots) : ¬ AtSlot fs n inode t := by
  intro hat
  obtain rfl := hdisk.eq_of_name ht hs (hat.1.trans hname.symm)
  have hplaced := hdisk.filled.placed hp ht
  have hlt := formDirEntryPos_absolute hp hplaced.cls_lt hplaced.blk_lt hplaced.idx_lt
  rw [← hbuilt.iPos, hat.2, Slot.addr] at hlt
  exact lt_irrefl _ hlt

/-- **A file is looked up.** -/
theorem VolumeInv.lookup (h : formatLayout 512 S = some L) (hpos : 1 ≤ L.clusters)
    (inv : VolumeInv L v₀ k P st) {r : CreateReturn} (hnul : NoNul n)
    (he : Exec (lookupWorld storedWord) (sfatLookup st.sbi st.dir n) st.vol tr r v') :
    VolumeInv L v₀ k P ⟨st.sbi, st.dir, st.learn n r, v'⟩ ∧
      CallRefines st (.lookup n) (.dentry r) ⟨st.sbi, st.dir, st.learn n r, v'⟩ := by
  have hp := inv.placed h hpos
  obtain ⟨ds, slots, chains, hdisk, hmem, hacc, hdir⟩ := inv.held
  obtain ⟨rfl, hr⟩ := (wp_iff_exec _ _ _).mp (lookup_spec st.sbi st.dir n) _ _ _ he
  cases hfind : findName storedWord st.sbi.fsInfo st.vol st.dir.iStart (padName n) with
  | some s =>
    rw [hfind] at hr
    obtain ⟨inode, rfl, hbuilt⟩ := hr
    obtain ⟨hs, hname⟩ := hdisk.filled.found_name hnul hfind
    refine ⟨⟨inv.root, inv.boot, inv.sequential, ds, slots, chains, hdisk,
      hmem.learned ?_ ?_ fun t ht hat => ?_, hacc, hdir⟩,
      fun _ σ hσ => ⟨σ, .found (hσ.mem hdisk hs hname) ?_, hσ⟩⟩
    · rw [← hname]
      exact List.mem_map_of_mem hs
    · exact Nat.ne_of_gt hbuilt.iIno
    · exact absurd hat (not_atSlot_of_lookup hp hdisk hs hname hbuilt ht)
    · rw [hbuilt.iSize, entryContent, firstBytes_length]
  | none =>
    rw [hfind] at hr
    have hlearn : st.learn n r = st.files := by
      rcases hr with rfl | rfl
      · rfl
      · rfl
    rw [hlearn]
    refine ⟨⟨inv.root, inv.boot, inv.sequential, ds, slots, chains, hdisk, hmem, hacc, hdir⟩,
      fun _ σ hσ => ⟨σ, .missing ?_ hr, hσ⟩⟩
    rw [hσ.keys hdisk]
    exact hdisk.filled.not_found hnul hfind

/-- **The directory is listed.** -/
theorem VolumeInv.readdir (h : formatLayout 512 S = some L) (hpos : 1 ≤ L.clusters)
    (inv : VolumeInv L v₀ k P st) {fPos : ℕ} {refuse : FilldirCall → Prop} {r : ReaddirState}
    (he : Exec (refusingWorld refuse storedWord)
      (sfatReaddir st.sbi.fsInfo st.dir.iStart st.dir.iSize fPos) st.vol tr r v') :
    VolumeInv L v₀ k P ⟨st.sbi, st.dir, st.files, v'⟩ ∧
      CallRefines st (.readdir fPos) (.listed r) ⟨st.sbi, st.dir, st.files, v'⟩ := by
  have hp := inv.placed h hpos
  obtain ⟨ds, slots, chains, hdisk, hmem, hacc, hdir⟩ := inv.held
  obtain ⟨rfl, hnamed⟩ :=
    (wp_iff_exec _ _ _).mp (sfatReaddir_named hp.toWellFormed _ _ fPos) _ _ _ he
  refine ⟨⟨inv.root, inv.boot, inv.sequential, ds, slots, chains, hdisk, hmem, hacc, hdir⟩,
    fun _ σ hσ => ⟨σ, .listed fun call hcall k hk => ?_, hσ⟩⟩
  rw [hσ.keys hdisk, slotNames, List.getElem?_map] at hk
  obtain ⟨s, hs, rfl⟩ := Option.map_eq_some_iff.mp hk
  apply (hnamed call hcall).emittedName
  obtain ⟨post, hsplit, -⟩ := hdisk.filled.split
  rw [hdisk.filled.seen, hsplit, List.getElem?_append_left (List.getElem?_eq_some_iff.mp hs).1, hs]

/-! ### `sfat_sync_read` -/

/-- An inode at its slot has the fields and the clusters of the entry. -/
theorem FilesOnDisk.owner (hdisk : FilesOnDisk st.sbi.fsInfo st.vol st.dir.iStart ds slots chains)
    (hmem : InMemory st.sbi.fsInfo slots st.files) (hfile : st.files n = some inode)
    (hown : OwnsSlot st n inode) : ∃ s ∈ slots, AtSlot st.sbi.fsInfo n inode s ∧
      inode.iStart = s.de.fstClsNo ∧ inode.iSize = s.de.size ∧
      FileChain st.sbi.fsInfo st.vol inode (chains (s.addr st.sbi.fsInfo)) := by
  obtain ⟨s, hs, hat⟩ := hown
  rw [hdisk.filled.visible] at hs
  obtain ⟨hstart, hsize⟩ := hmem.current n inode s hs hfile hat
  exact ⟨s, hs, hat, hstart, hsize, (hdisk.entries s hs).fileChain hstart hsize⟩

/-- An inode that may be read has the fields and the clusters of the entry, and is at its slot or flushed
aside. -/
theorem FilesOnDisk.reader (hdisk : FilesOnDisk st.sbi.fsInfo st.vol st.dir.iStart ds slots chains)
    (hmem : InMemory st.sbi.fsInfo slots st.files) (hfile : st.files n = some inode)
    (hown : OwnsSlot st n inode ∨ FlushesAside st n inode) :
    ∃ s ∈ slots, cString s.de.name = n.take 11 ∧ inode.iStart = s.de.fstClsNo ∧
      inode.iSize = s.de.size ∧
      FileChain st.sbi.fsInfo st.vol inode (chains (s.addr st.sbi.fsInfo)) ∧
      (inode.iPos = s.addr st.sbi.fsInfo ∨ Aside st.sbi.fsInfo st.vol inode.iPos) := by
  rcases hown with hown | ⟨hcurrent, haside⟩
  · obtain ⟨s, hs, hat, hstart, hsize, hchain⟩ := hdisk.owner hmem hfile hown
    exact ⟨s, hs, hat.1, hstart, hsize, hchain, .inl hat.2⟩
  · obtain ⟨s, hs, hname, hstart, hsize⟩ := hcurrent
    rw [hdisk.filled.visible] at hs
    exact ⟨s, hs, hname, hstart, hsize, (hdisk.entries s hs).fileChain hstart hsize, .inr haside⟩

/-- **A flush aside** changes no cluster in use. -/
theorem Aside.keepsOthers {fs : FsInfo} {v : Vol} (hp : Placed fs) (h : Aside fs v inode.iPos)
    (cs : List ℕ) : SameFat fs v (flushed fs v inode) ∧ KeepsOthers fs v cs (flushed fs v inode) cs := by
  have hsame : ∀ a, a < inode.iPos ∨ inode.iPos + 32 ≤ a → flushed fs v inode a = v a := by
    intro a ha
    by_cases hroot : inode.iIno = sfatRootIno
    · rw [flushed_root hroot]
    · rw [flushed_eq hp.blockSize_eq hroot h.lt h.block]
      exact flushEntry_apply v inode.iPos inode (by omega)
  have hdata := h.data
  have hfat : SameFat fs v (flushed fs v inode) :=
    SameFat.of_below hp fun a ha => hsame a (by omega)
  have hboot := Nat.mul_le_mul_right fs.blockSize hp.fat_before_data
  rw [Nat.add_mul] at hboot
  refine ⟨hfat, fun _ hc => .inl hc, fun a ha => hsame a (by omega), fun d hd _ _ => hfat d hd, ?_⟩
  intro d hd hused _ a hlo hhi
  have hclear := h.unused d hd hused
  exact hsame a (by omega)

/-- **The files stay**. -/
theorem FilesOnDisk.flushed_aside {fs : FsInfo} {v : Vol} {start : ℕ} (hp : Placed fs)
    (hdisk : FilesOnDisk fs v start ds slots chains) (h : Aside fs v inode.iPos) :
    FilesOnDisk fs (flushed fs v inode) start ds slots chains ∧
      volumeFiles fs (flushed fs v inode) start = volumeFiles fs v start := by
  have hfilled := hdisk.filled.keptBy hp (h.keepsOthers hp []).2 (List.disjoint_nil_left ds)
  exact ⟨hdisk.same hp hfilled (h.keepsOthers hp ds).2, hdisk.same_files hp hfilled (h.keepsOthers hp ds).2⟩

/-- What a read delivers of a file. -/
theorem read_content {fs : FsInfo} {v : Vol} {len ppos : ℕ} (hsum : ppos + len < 2 ^ 63)
    (hsize : inode.iSize = s.de.size) (hstart : inode.iStart = s.de.fstClsNo) :
    bytesAt v (clsAddr fs inode.iStart + ppos) (readLen fs inode.iSize len ppos) =
      ((entryContent fs v s.de).drop ppos).take (min len (fs.clusterSize - ppos)) := by
  have hlen : readLen fs inode.iSize len ppos =
      min (min len (fs.clusterSize - ppos)) (s.de.size - ppos) := by
    have hsizeT : ppos + len < sizeT := by
      rw [sizeT]
      omega
    rw [readLen_eq hsizeT, hsize]
    omega
  rw [entryContent, firstBytes_slice, ← hlen, ← hstart]
  apply firstBytes_congr
  intro i hi
  rw [fileContent_first _ (by omega), Nat.add_assoc]

/-- The inode in memory is the one that was there. -/
theorem update_same {files : List UInt8 → Option Inode} (hfile : files n = some inode) :
    Function.update files n (some inode) = files := by
  rw [← hfile, Function.update_eq_self]

/-- **A file is read.** -/
theorem VolumeInv.read (h : formatLayout 512 S = some L) (hpos : 1 ≤ L.clusters)
    (inv : VolumeInv L v₀ k P st) {len ppos ppos' : ℕ} {inode' : Inode} {out : List UInt8}
    (hkeep : CallKeeps st (.read n len ppos)) (hsum : ppos + len < 2 ^ 63)
    (hfile : st.files n = some inode)
    (he : Exec (lookupWorld storedWord) (sfatSyncRead st.sbi.fsInfo inode len ppos) st.vol tr
      (out, inode', ppos') v') :
    VolumeInv L v₀ k P ⟨st.sbi, st.dir, Function.update st.files n (some inode'), v'⟩ ∧
      CallRefines st (.read n len ppos) (.data out ppos')
        ⟨st.sbi, st.dir, Function.update st.files n (some inode'), v'⟩ := by
  have hp := inv.placed h hpos
  obtain ⟨ds, slots, chains, hdisk, hmem, hacc, hdir⟩ := inv.held
  obtain ⟨s, hs, hname, hstart, hsize, hchain, hplace⟩ := hdisk.reader hmem hfile (hkeep inode hfile)
  obtain ⟨hout, hppos, hv⟩ := (wp_iff_exec _ _ _).mp
    (sfatSyncRead_spec hp.toWellFormed fun hlt => hchain.start_le_max hp hlt) _ _ _ he
  simp only [] at hout hppos hv
  have hlength : out.length = readLen st.sbi.fsInfo inode.iSize len ppos := by
    rw [hout, bytesAt_length]
  rw [read_content hsum hsize hstart] at hout
  rw [← hlength] at hppos
  have hread : ∀ σ, HoldsFiles st σ → StoreStep st.sbi.fsInfo.clusterSize σ (.read n len ppos)
      (.data out ppos') σ := by
    intro σ hσ
    rw [hppos]
    exact .read (hσ.mem hdisk hs hname) hout
  rcases hv with ⟨rfl, rfl⟩ | ⟨t, hinode, rfl⟩
  · rw [update_same hfile]
    exact ⟨⟨inv.root, inv.boot, inv.sequential, ds, slots, chains, hdisk, hmem, hacc, hdir⟩,
      fun _ σ hσ => ⟨σ, hread σ hσ, hσ⟩⟩
  · -- the inode is flushed with the time of the access
    have hino : inode'.iIno = inode.iIno := by rw [hinode]
    have hipos : inode'.iPos = inode.iPos := by rw [hinode]
    have hstart' : inode'.iStart = inode.iStart := by rw [hinode]
    have hsize' : inode'.iSize = inode.iSize := by rw [hinode]
    have hroot : inode'.iIno ≠ sfatRootIno := hino ▸ (hmem.known n inode hfile).2
    obtain ⟨m, hseq⟩ := inv.sequential
    rcases hplace with hplace | haside
    · have hplace' := hipos.trans hplace
      obtain ⟨hdisk', hfiles⟩ := hdisk.reflushed hp hs hroot hplace' (hstart'.trans hstart)
        (hsize'.trans hsize)
      have hkeeps := hdisk.filled.keepsOthers hp hs hroot hplace'
      have hfat := flushed_sameFat hp ((hdisk.filled.ownSlot hp hs hroot hplace').position hp) st.vol
      exact ⟨⟨inv.root, inv.boot_of_below hkeeps.below, ⟨m, hseq.sameFat hfat⟩, ds, _, _, hdisk',
        hmem.stored hfile hs ⟨hname, hplace⟩ (fun u hu => hdisk.filled.eq_of_addr hp hu hs) hino hipos
          fun de => update_of_fits (hdisk.filled.fits hs) (hstart'.trans hstart) (hsize'.trans hsize) de,
        hacc.written hs (Taken.refl _ _ _) hfat (Nat.le_refl k), hdir⟩,
        fun _ σ hσ => ⟨σ, hread σ hσ, hfiles.trans hσ⟩⟩
    · rw [← hipos] at haside
      obtain ⟨hdisk', hfiles⟩ := hdisk.flushed_aside hp haside
      obtain ⟨hfat, hkeeps⟩ := haside.keepsOthers hp ds
      exact ⟨⟨inv.root, inv.boot_of_below hkeeps.below, ⟨m, hseq.sameFat hfat⟩, ds, _, _, hdisk',
        hmem.touched hfile hino hipos hstart' hsize', hacc.same ((Taken.refl _ _ _).sameFat hfat),
        hdir⟩, fun _ σ hσ => ⟨σ, hread σ hσ, hfiles.trans hσ⟩⟩

/-! ### `sfat_sync_write` -/

/-- A write that returns an error has done nothing. -/
theorem DataRun.error_same {fs : FsInfo} {v : Vol} {inode₁ : Inode} {buf : ℕ → UInt8} {len ppos : ℕ}
    {e : Errno} {mayFail : Request → Prop}
    (hrun : DataRun mayFail storedWord fs v inode buf len ppos (.error e, inode₁) v') :
    inode₁ = inode ∧ v' = v := by
  cases hrun with
  | rejected _ => exact ⟨rfl, rfl⟩
  | notFound _ _ _ => exact ⟨rfl, rfl⟩

/-- **The content of a file after a write**, flushed or not: the bytes are in their place. -/
theorem DataRun.spliced {mayFail : Request → Prop} {fs : FsInfo} {v v₁ w : Vol} {cs : List ℕ}
    {de : SfatDirEntry} {inode' : Inode} {buf : ℕ → UInt8} {len ppos d t : ℕ} {p : SyncWriteState}
    (hp : Placed fs) (hfile : FileChain fs v inode cs) (hslot : OwnSlot fs v cs inode d)
    (hmark : MarkUsed fs v) (hgood : ¬ AppendsInCluster fs v inode cs len ppos)
    (hstart : inode.iStart = de.fstClsNo) (hsize : inode.iSize = de.size)
    (hw : w = flushed fs v₁ (inode'.written fs p.ppos t) ∨ w = v₁)
    (hrun : DataRun mayFail storedWord fs v inode buf len ppos (.ok p, inode') v₁) :
    firstBytes (max inode.iSize (ppos + p.accuLen)) (fileContent fs w inode'.iStart) =
      splice (entryContent fs v de) ppos (firstBytes p.accuLen buf) := by
  have hle := hrun.allowed.1
  have hwritten := hrun.written hp hfile hmark hgood
  rw [entryContent, ← hsize, ← hstart, ← firstBytes_patch _ _ hle]
  apply firstBytes_congr
  intro i hi
  exact hwritten.content hp hfile (hslot.position hp) (hslot.not_flushHits hp hfile) hrun hw hi

/-- **How a write ends**: with an error nothing is done, else the inode is flushed. -/
theorem syncWrite_cases {fs : FsInfo} {v : Vol} {buf : ℕ → UInt8} {len ppos ppos' : ℕ}
    {inode' : Inode} {r : Except Errno ℕ} (hwf : WellFormed fs)
    (he : Exec (storedWorld noFailure) (sfatSyncWrite fs inode buf len ppos) v tr
      (r, inode', ppos') v') :
    (∃ e, DataRun noFailure storedWord fs v inode buf len ppos (.error e, inode) v ∧ r = .error e ∧
      inode' = inode ∧ ppos' = ppos ∧ v' = v) ∨
    ∃ w inode₁ t v₁, DataRun noFailure storedWord fs v inode buf len ppos (.ok w, inode₁) v₁ ∧
      r = .ok w.accuLen ∧ inode' = inode₁.written fs w.ppos t ∧ ppos' = w.ppos ∧
      v' = flushed fs v₁ inode' := by
  have hspec : wp (storedWorld noFailure) _ _ v := sfatSyncWrite_spec hwf inode buf len ppos
  obtain ⟨⟨p, inode₁⟩, v₁, hrun, hout⟩ := (wp_iff_exec _ _ _).mp hspec _ _ _ he
  cases p with
  | error e =>
    obtain ⟨hreturn, rfl⟩ := hout
    obtain ⟨rfl, rfl⟩ := hrun.error_same
    obtain ⟨rfl, hrest⟩ := Prod.mk.inj hreturn
    obtain ⟨rfl, rfl⟩ := Prod.mk.inj hrest
    exact .inl ⟨e, hrun, rfl, rfl, rfl, rfl⟩
  | ok w =>
    obtain ⟨t, hreturn, hv⟩ := hout
    obtain ⟨rfl, hrest⟩ := Prod.mk.inj hreturn
    obtain ⟨rfl, rfl⟩ := Prod.mk.inj hrest
    exact .inr ⟨w, inode₁, t, v₁, hrun, rfl, rfl, rfl,
      hv.resolve_right fun hfail => not_canFail hfail.2⟩

/-- **A file is written.** -/
theorem VolumeInv.write (h : formatLayout 512 S = some L) (hpos : 1 ≤ L.clusters)
    (inv : VolumeInv L v₀ k P st) {buf : ℕ → UInt8} {len ppos ppos' : ℕ} {inode' : Inode}
    {r : Except Errno ℕ} (hkeep : CallKeeps st (.write n buf len ppos))
    (hfile : st.files n = some inode)
    (he : Exec (storedWorld noFailure) (sfatSyncWrite st.sbi.fsInfo inode buf len ppos) st.vol tr
      (r, inode', ppos') v') :
    VolumeInv L v₀ (k + shortWrite (.write n buf len ppos, .wrote r ppos')) P
        ⟨st.sbi, st.dir, Function.update st.files n (some inode'), v'⟩ ∧
      CallRefines st (.write n buf len ppos) (.wrote r ppos')
        ⟨st.sbi, st.dir, Function.update st.files n (some inode'), v'⟩ := by
  have hp := inv.placed h hpos
  obtain ⟨ds, slots, chains, hdisk, hmem, hacc, hdir⟩ := inv.held
  rcases syncWrite_cases hp.toWellFormed he with
    ⟨e, -, rfl, rfl, rfl, rfl⟩ | ⟨w, inode₁, t, v₁, hrun, rfl, hinode, rfl, rfl⟩
  · rw [update_same hfile]
    exact ⟨⟨inv.root, inv.boot, inv.sequential, ds, slots, chains, hdisk, hmem, hacc, hdir⟩,
      fun _ σ hσ => ⟨σ, .notWritten, hσ⟩⟩
  · obtain ⟨hown, hchainKept⟩ := hkeep inode hfile ⟨hrun.allowed, fun hin => hrun.seekFinds hin⟩
    obtain ⟨s, hs, hat, hstart, hsize, hchain⟩ := hdisk.owner hmem hfile hown
    obtain ⟨hgood, hbelow, hbound⟩ := hchainKept _ hchain
    obtain ⟨es, hkeeps, hchain', hempty, lost, hlost, htaken⟩ :=
      hrun.grown (t := t) hp hchain hgood hbound
    rw [← hinode] at hchain'
    have hsame := hrun.inode_eq
    have hmoved := hrun.ppos_accu
    have hroot : inode'.iIno ≠ sfatRootIno := by
      rw [hinode, hsame]
      exact (hmem.known n inode hfile).2
    have hplace : inode'.iPos = s.addr st.sbi.fsInfo := by
      rw [hinode, hsame]
      exact hat.2
    have hsize' : inode'.iSize = max inode.iSize (ppos + w.accuLen) := by
      rw [hinode, hsame, ← hmoved]
      rfl
    have hstart' : inode'.iStart = inode₁.iStart := by
      rw [hinode]
      rfl
    have hmark : inode'.iSize = 0 → inode'.iStart = sfatEntryFree := by
      intro h0
      rw [hsize'] at h0
      rw [hstart', hempty.resolve_right (by omega), hstart]
      exact (hdisk.entries s hs).marked (by omega)
    have h32 : inode'.iSize < 2 ^ 32 := by
      rw [hsize']
      exact StaysBelow.size_lt hp hchain hbelow hrun
    have hdisk' := hdisk.written hp hs hroot hplace hkeeps hchain' hmark h32
    have hkept := hdisk.filled.keptBy hp hkeeps (hdisk.offDir s hs)
    have hflush := hkept.keepsOthers hp hs hroot hplace
    have htotal := hrun.total
    have hfat := flushed_sameFat hp ((hkept.ownSlot hp hs hroot hplace).position hp) v₁
    have hshort : k + lost.length ≤ k + min 1 (len - w.accuLen) := by omega
    obtain ⟨m, hseq⟩ := inv.sequential
    obtain ⟨-, m', hseq'⟩ := hrun.fills hp hseq hchain hgood hbound
    refine ⟨⟨inv.root, inv.boot_of_below fun a ha => (hflush.below a ha).trans (hkeeps.below a ha),
      ⟨m', hseq'.sameFat hfat⟩, ds, _, _, hdisk',
        hmem.stored hfile hs hat (fun u hu => hdisk.filled.eq_of_addr hp hu hs) ?_ ?_
          (fun de => hchain'.update_eq hp hmark h32 de),
        hacc.written hs htaken hfat hshort, hdir⟩,
      fun hfat σ hσ => ?_⟩
    · rw [hinode, hsame]
      rfl
    · rw [hinode, hsame]
      rfl
    · have hslot := hdisk.ownSlot hp hs (hmem.known n inode hfile).2 hat.2
      have hused : MarkUsed st.sbi.fsInfo st.vol := fun hlt => absurd hlt (by omega)
      have hle := hrun.allowed.1
      have hflushed : flushed st.sbi.fsInfo v₁ inode' =
          flushed st.sbi.fsInfo v₁ (inode₁.written st.sbi.fsInfo w.ppos t) := by rw [hinode]
      have hnew := hrun.spliced hp hchain hslot hused hgood hstart hsize (.inl hflushed)
      rw [← hsize', ← hstart'] at hnew
      have hlength : (entryContent st.sbi.fsInfo st.vol s.de).length = inode.iSize := by
        rw [entryContent, firstBytes_length, hsize]
      refine ⟨σ.write (n.take 11) ppos (firstBytes w.accuLen buf), ?_, ?_⟩
      · rw [hmoved]
        exact .wrote (hσ.mem hdisk hs hat.1) (by omega) (by omega)
      · rw [HoldsFiles]
        refine (hdisk.written_files hp hs hroot hplace hkeeps (hchain'.update_eq hp hmark h32 s.de)
          hnew).trans ?_
        rw [hσ, hat.1]
        rfl

/-! ### Mounts -/

/-- A mount that succeeds, with the boot sector that the tool wrote. -/
theorem mounted_again (h : formatLayout 512 S = some L) {w : Vol}
    (hboot : ∀ a < 42, w a = formatVolume L v₀ a) {ub : UndefinedShift} {options : MountOptions}
    {sbi : SbInfo} {root : Inode} (he : Exec (lookupWorld storedWord)
      (sfatFillSuperImpl ub 512 options) w tr (.ok (sbi, root)) v') :
    v' = w ∧ RootInode L sbi root := by
  have hcount : wp (lookupWorld storedWord) (sfatCountSubdirs (formattedFsInfo L)
      (formattedFsInfo L).rootClusterCls (formattedFsInfo L).clusterSize)
      (fun _ u => u = w ∧ True) w :=
    wp_mono (countSubdirs_readOnly _ _) fun _ _ hv => ⟨hv, trivial⟩
  obtain ⟨rfl, count, -, hret⟩ := (wp_iff_exec _ _ _).mp
    (mount_of_count (H := Host.lookups noFailure storedWord) not_noFailure h hboot ub options
      hcount) _ _ _ he
  refine ⟨rfl, ?_⟩
  cases count with
  | error e => cases hret
  | ok count =>
    rw [MountReturns] at hret
    split at hret
    · cases hret
    · obtain ⟨sbi', root', heq, hroot⟩ := hret
      obtain ⟨rfl, rfl⟩ := Prod.mk.inj (Except.ok.inj heq)
      exact ⟨by rw [hroot.sbi_eq], hroot.iIno, hroot.iStart⟩

/-- **The volume is mounted again.** -/
theorem VolumeInv.remount (h : formatLayout 512 S = some L) (inv : VolumeInv L v₀ k P st)
    {ub : UndefinedShift} {options : MountOptions} {sbi : SbInfo} {root : Inode}
    (he : Exec (lookupWorld storedWord) (sfatFillSuperImpl ub 512 options) st.vol tr
      (.ok (sbi, root)) v') :
    VolumeInv L v₀ k False ⟨sbi, root, fun _ => none, v'⟩ ∧
      CallRefines st (.remount options) .mounted ⟨sbi, root, fun _ => none, v'⟩ := by
  obtain ⟨ds, slots, chains, hdisk, -, hacc, -⟩ := inv.held
  obtain ⟨rfl, hroot⟩ := mounted_again h inv.boot he
  have hsbi : sbi.fsInfo = st.sbi.fsInfo := by rw [hroot.fsInfo, inv.root.fsInfo]
  have hstart : root.iStart = st.dir.iStart := by rw [hroot.iStart, inv.root.iStart]
  refine ⟨⟨hroot, inv.boot, ?_, ds, slots, chains, ?_, InMemory.empty _ _, ?_, fun h => h.elim⟩,
    fun _ σ hσ => ⟨σ, .mounted, ?_⟩⟩
  · rw [hsbi]
    exact inv.sequential
  · rw [hsbi, hstart]
    exact hdisk
  · rw [hsbi]
    exact hacc
  · rw [HoldsFiles, hsbi, hstart]
    exact hσ

/-- A directory without slots has no files. -/
theorem FilesOnDisk.none {fs : FsInfo} {v : Vol} {start : ℕ} (h : FilledDir fs v start ds []) :
    FilesOnDisk fs v start ds [] fun _ => [] where
  filled := h
  names := List.nodup_nil
  entries _ hs := by cases hs
  offDir _ hs := by cases hs
  apart _ hs := by cases hs

/-- On a formatted volume one cluster is in use, which is the directory's. -/
theorem Accounted.formatted (hL : 0 < L.fatLengthSectors) (v₀ : Vol) :
    Accounted (formattedFsInfo L) (formatVolume L v₀) [0] [] chains 0 := by
  refine ⟨by simp [dirClusters], [], Nat.le_refl 0, fun c hc hused => .inl ?_⟩
  have hlt : c < L.fatLengthSectors * (512 / 4) := hc
  rw [formatVolume_fatWord hL v₀ (by omega)] at hused
  have h0 : c = 0 := by
    by_contra hne
    exact hused (if_neg hne)
  exact List.mem_singleton.mpr h0

/-- And it is the first one. -/
theorem Sequential.formatted (hL : 0 < L.fatLengthSectors) (v₀ : Vol) :
    Sequential (formattedFsInfo L) (formatVolume L v₀) 1 where
  le := show 1 ≤ L.fatLengthSectors * (512 / 4) by omega
  used c hc := by
    have hlt : c < L.fatLengthSectors * (512 / 4) := hc
    rw [formatVolume_fatWord hL v₀ (by omega)]
    split
    · exact iff_of_true (by decide) (by omega)
    · exact iff_of_false (fun h => h rfl) (by omega)
  up c hc := by
    obtain rfl : c = 0 := by omega
    rw [formatVolume_fatWord hL v₀ (by omega), if_pos rfl]
    exact .inl rfl

/-- **The first mount.** -/
theorem VolumeInv.mounted (h : formatLayout 512 S = some L) (hpos : 1 ≤ L.clusters)
    {ub : UndefinedShift} {options : MountOptions} {sbi : SbInfo} {root : Inode}
    (he : Exec (lookupWorld storedWord) (sfatFillSuperImpl ub 512 options) (formatVolume L v₀) tr
      (.ok (sbi, root)) v') :
    VolumeInv L v₀ 0 True ⟨sbi, root, fun _ => none, v'⟩ ∧
      HoldsFiles ⟨sbi, root, fun _ => none, v'⟩ FileStore.empty := by
  obtain ⟨-, -, hroom, -⟩ := formatLayout_bounds h
  have hL : 0 < L.fatLengthSectors := by omega
  obtain ⟨rfl, sbi', root', heq, hempty⟩ := (wp_iff_exec _ _ _).mp
    (mount_formatted (H := Host.lookups noFailure storedWord) not_noFailure h hL ub options v₀)
    _ _ _ he
  obtain ⟨rfl, rfl⟩ := Prod.mk.inj (Except.ok.inj heq)
  have hroot : RootInode L sbi root := ⟨by rw [hempty.sbi_eq], hempty.iIno, hempty.iStart⟩
  obtain ⟨slots, hfilled, hnames⟩ := (RootInv.formatted h hL v₀).filled h hpos
  obtain rfl : slots = [] := List.map_eq_nil_iff.mp hnames
  have hacc : Accounted (formattedFsInfo L) (formatVolume L v₀) [0] [] (fun _ => []) 0 :=
    Accounted.formatted hL v₀
  rw [← hroot.fsInfo] at hacc
  rw [← hroot.fsInfo, ← hroot.iStart] at hfilled
  have hseq : Sequential (formattedFsInfo L) (formatVolume L v₀) 1 := Sequential.formatted hL v₀
  rw [← hroot.fsInfo] at hseq
  refine ⟨⟨hroot, fun _ _ => rfl, ⟨1, hseq⟩, _, [], _, FilesOnDisk.none hfilled, InMemory.empty _ _,
    ?_, fun _ => ?_⟩, ?_⟩
  · rw [hroot.iStart]
    exact hacc
  · show root.iSize = 1 * sbi.fsInfo.clusterSize
    rw [hempty.iSize, hroot.fsInfo, Nat.one_mul]
  · exact hfilled.files_eq

/-! ### Calls and runs -/

/-- **One call** keeps the invariant and is a step of the store. -/
theorem Calls.step (h : formatLayout 512 S = some L) (hpos : 1 ≤ L.clusters)
    (inv : VolumeInv L v₀ k P st) {ub : UndefinedShift} {c : VolumeCall} {r : CallResult} {st' : Mounted}
    (hkeep : CallKeeps st c) (hcall : Calls ub st c r st') :
    VolumeInv L v₀ (k + shortWrite (c, r)) (P ∧ c.SameMount) st' ∧ CallRefines st c r st' := by
  have inv : VolumeInv L v₀ k (P ∧ c.SameMount) st := inv.mono And.left
  cases hcall with
  | create hnul he => exact inv.create h hpos hnul hkeep he
  | lookup hnul he => exact inv.lookup h hpos hnul he
  | readdir he => exact inv.readdir h hpos he
  | read hsum hfile he => exact inv.read h hpos hkeep hsum hfile he
  | write hfile he => exact inv.write h hpos hkeep hfile he
  | drop =>
    obtain ⟨ds, slots, chains, hdisk, hmem, hacc, hdir⟩ := inv.held
    exact ⟨⟨inv.root, inv.boot, inv.sequential, ds, slots, chains, hdisk, hmem.dropped _, hacc, hdir⟩,
      fun _ σ hσ => ⟨σ, .dropped, hσ⟩⟩
  | remount he =>
    obtain ⟨inv', hrefines⟩ := inv.remount h he
    exact ⟨inv'.mono And.right, hrefines⟩

end Calls

inductive StoreRun (clusterSize : ℕ) : List (VolumeCall × CallResult) → Files → Prop
  | empty : StoreRun clusterSize [] FileStore.empty
  | step {log : List (VolumeCall × CallResult)} {σ σ' : Files} {c : VolumeCall} {r : CallResult} :
      StoreRun clusterSize log σ → StoreStep clusterSize σ c r σ' →
      StoreRun clusterSize (log ++ [(c, r)]) σ'

section Runs

variable {S : ℕ} {L : FormatLayout} {v₀ : Vol} {ub : UndefinedShift} {options : MountOptions}
  {log : List (VolumeCall × CallResult)} {st : Mounted}

theorem shortWrites_concat (log : List (VolumeCall × CallResult)) (p : VolumeCall × CallResult) :
    shortWrites (log ++ [p]) = shortWrites log + shortWrite p := by
  rw [shortWrites, List.map_append, List.sum_append, List.map_singleton, List.sum_singleton,
    shortWrites]

/-- **A run keeps the invariant.** -/
theorem VolumeRun.inv (h : formatLayout 512 S = some L) (hpos : 1 ≤ L.clusters)
    (hrun : VolumeRun ub options L v₀ CallKeeps log st) :
    VolumeInv L v₀ (shortWrites log) (SameMount log) st := by
  induction hrun with
  | mounted he => exact (VolumeInv.mounted h hpos he).1.mono fun _ => trivial
  | @call log st st' c r _ hkeep hcall ih =>
    rw [shortWrites_concat]
    refine (hcall.step h hpos ih hkeep).1.mono fun hsame => ⟨fun p hp => ?_, ?_⟩
    · exact hsame p (List.mem_append_left _ hp)
    · exact hsame (c, r) (by simp)

/-- **A run is a run of the store.** -/
theorem VolumeRun.refines (h : formatLayout 512 S = some L) (hpos : 1 ≤ L.clusters)
    (hfat : fatWords (formattedFsInfo L) ≤ sfatEntryFree)
    (hrun : VolumeRun ub options L v₀ CallKeeps log st) :
    ∃ σ, StoreRun (formattedFsInfo L).clusterSize log σ ∧ HoldsFiles st σ := by
  induction hrun with
  | mounted he => exact ⟨_, .empty, (VolumeInv.mounted h hpos he).2⟩
  | call hrun hkeep hcall ih =>
    obtain ⟨σ, hstore, hσ⟩ := ih
    have inv := hrun.inv h hpos
    have hstep := (hcall.step h hpos inv hkeep).2
    rw [CallRefines, inv.root.fsInfo] at hstep
    obtain ⟨σ', hstep, hσ'⟩ := hstep hfat σ hσ
    exact ⟨σ', hstore.step hstep, hσ'⟩

/-! ### What the files contain -/

def writtenBy (k bytes : List UInt8) : VolumeCall × CallResult → List UInt8
  | (.write n buf _ ppos, .wrote (.ok cnt) _) =>
    if n.take 11 = k then splice bytes ppos (firstBytes cnt buf) else bytes
  | _ => bytes

/-- **What the calls of a log have written to the file** with the name `k`. -/
def replayed (k : List UInt8) (log : List (VolumeCall × CallResult)) : List UInt8 :=
  log.foldl (writtenBy k) []

theorem replayed_concat (k : List UInt8) (log : List (VolumeCall × CallResult))
    (p : VolumeCall × CallResult) : replayed k (log ++ [p]) = writtenBy k (replayed k log) p := by
  rw [replayed, List.foldl_append, List.foldl_cons, List.foldl_nil, replayed]

/-- The files have what was written to them, and nothing was written to others. -/
def Replays (σ : Files) (log : List (VolumeCall × CallResult)) : Prop :=
  ∀ k, (∀ bytes, (k, bytes) ∈ σ.files → bytes = replayed k log) ∧
    (k ∉ σ.keys → replayed k log = [])

/-- A step that changes no content. -/
theorem Replays.same {σ : Files} {p : VolumeCall × CallResult} (h : Replays σ log)
    (hp : ∀ k bytes, writtenBy k bytes p = bytes) : Replays σ (log ++ [p]) := by
  intro k
  rw [replayed_concat, hp]
  exact h k

/-- A new file is empty, and nothing was written under its name. -/
theorem Replays.created {σ : Files} {n : List UInt8} {p : VolumeCall × CallResult}
    (h : Replays σ log) (hn : n ∉ σ.keys) (hp : ∀ k bytes, writtenBy k bytes p = bytes) :
    Replays (σ.create n hn) (log ++ [p]) := by
  intro k
  rw [replayed_concat, hp]
  refine ⟨fun bytes hmem => ?_, fun hk => (h k).2 fun hmem => hk ?_⟩
  · rcases FileStore.mem_create.mp hmem with hmem | ⟨rfl, rfl⟩
    · exact (h k).1 bytes hmem
    · exact ((h k).2 hn).symm
  · rw [FileStore.keys, FileStore.create, List.map_append]
    exact List.mem_append_left _ hmem

/-- **One step** of the store. -/
theorem StoreStep.replays {clusterSize : ℕ} {σ σ' : Files} {c : VolumeCall} {r : CallResult}
    (hstep : StoreStep clusterSize σ c r σ') (h : Replays σ log) : Replays σ' (log ++ [(c, r)]) := by
  cases hstep with
  | created hn => exact h.created hn fun _ _ => rfl
  | refused _ => exact h.same fun _ _ => rfl
  | stuck hn => exact h.created hn fun _ _ => rfl
  | found _ _ => exact h.same fun _ _ => rfl
  | missing _ _ => exact h.same fun _ _ => rfl
  | listed _ => exact h.same fun _ _ => rfl
  | read _ _ => exact h.same fun _ _ => rfl
  | @wrote n bytes buf len ppos cnt hmem hle hcnt =>
    intro k
    rw [replayed_concat, writtenBy]
    refine ⟨fun bytes' hmem' => ?_, fun hk => ?_⟩
    · obtain ⟨old, hold, rfl⟩ := FileStore.mem_write.mp hmem'
      rw [(h k).1 old hold]
      by_cases hkn : k = n.take 11
      · rw [if_pos hkn, if_pos hkn.symm]
      · rw [if_neg hkn, if_neg (Ne.symm hkn)]
    · rw [FileStore.keys, FileStore.write, FileStore.writeFiles_keys] at hk
      have hkn : n.take 11 ≠ k := by
        rintro rfl
        exact hk (List.mem_map_of_mem (f := Prod.fst) hmem)
      rw [if_neg hkn]
      exact (h k).2 hk
  | notWritten => exact h.same fun _ _ => rfl
  | dropped => exact h.same fun _ _ => rfl
  | mounted => exact h.same fun _ _ => rfl

/-- **A run** of the store. -/
theorem StoreRun.replays {clusterSize : ℕ} {σ : Files} (hrun : StoreRun clusterSize log σ) :
    Replays σ log := by
  induction hrun with
  | empty => exact fun k => ⟨fun bytes hmem => absurd hmem List.not_mem_nil, fun _ => rfl⟩
  | step _ hstep ih => exact hstep.replays ih

/-- **The reads of a run** of the store. -/
theorem StoreRun.reads {clusterSize : ℕ} {σ : Files} (hrun : StoreRun clusterSize log σ)
    {before after : List (VolumeCall × CallResult)} {n out : List UInt8} {len ppos ppos' : ℕ}
    (hlog : log = before ++ (.read n len ppos, .data out ppos') :: after) :
    out = ((replayed (n.take 11) before).drop ppos).take (min len (clusterSize - ppos)) := by
  induction hrun generalizing after with
  | empty => simp at hlog
  | @step log σ σ' c r hrun hstep ih =>
    rcases List.eq_nil_or_concat after with rfl | ⟨rest, p, rfl⟩
    · -- the last step is the read
      obtain ⟨rfl, hlast⟩ := List.append_inj' hlog rfl
      obtain ⟨rfl, rfl⟩ := Prod.mk.inj (List.cons.inj hlast).1
      cases hstep with
      | read hmem hout => rw [hout, (hrun.replays _).1 _ hmem]
    · rw [List.concat_eq_append, ← List.cons_append, ← List.append_assoc] at hlog
      exact ih (List.append_inj' hlog rfl).1

end Runs

/-! ### One file with one byte -/

/-- The environment in which nothing fails and lookups are those of the stored words. -/
def quietStored : Vol → (c : Request) → Answer c × Vol :=
  Host.quiet fun _ blk pos d => storedWord blk pos d

theorem Exec.quietStored {α : Type} (p : Driver α) (v : Vol) :
    Exec (lookupWorld storedWord) p v (runTrace quietStored p v) (run quietStored p v).1
      (run quietStored p v).2 :=
  Exec.of_quiet (H := Host.lookups noFailure storedWord) (fun _ _ _ _ => rfl) p v

def mountedRoot31 : Inode :=
  { root31 with iVersion := 2, iMode := 0o40777, iBlocks := 4, iNlink := 3 }

def mounted31 : Mounted := ⟨sbi31, mountedRoot31, fun _ => none, emptyVolume31⟩

def created31 : Mounted :=
  ⟨sbi31, mountedRoot31, mounted31.learn [97] (.ok (some firstFile31)),
    (run quietStored (sfatCreateFile sbi31 mountedRoot31 [97] ⟨0, 0⟩) emptyVolume31).2⟩

/-- The inode of the file `a` after one byte was written to it. -/
def writtenFile31 : Inode := { firstFile31 with iSize := 1, iBlocks := 4, iStart := 1 }

def written31 : Mounted :=
  ⟨sbi31, mountedRoot31, Function.update created31.files [97] (some writtenFile31),
    (run quietStored writeCall31 created31.vol).2⟩

/-- The log of a run that creates a file and writes one byte to it. -/
def writeLog : List (VolumeCall × CallResult) :=
  [(.create [97] ⟨0, 0⟩, .dentry (.ok (some firstFile31))),
    (.write [97] (fun _ => 7) 1 0, .wrote (.ok 1) 1)]

instance (st : Mounted) (n : List UInt8) (inode : Inode) : Decidable (OwnsSlot st n inode) :=
  inferInstanceAs (Decidable (∃ s ∈ visibleSlots st.sbi.fsInfo st.vol st.dir.iStart,
    cString s.de.name = n.take 11 ∧ inode.iPos = s.addr st.sbi.fsInfo))

theorem mounted31_run {P : Mounted → VolumeCall → Prop} :
    VolumeRun zeroShift sbi31.options layout31 (fun _ => 0) P [] mounted31 := by
  have hrun := Exec.quietStored (sfatFillSuperImpl zeroShift 512 sbi31.options) emptyVolume31
  obtain ⟨hv, sbi, root, heq, hroot⟩ := (wp_iff_exec _ _ _).mp
    (mount_formatted (H := Host.lookups noFailure storedWord) not_noFailure
      (show formatLayout 512 31 = some layout31 by decide) (by decide) zeroShift sbi31.options
      fun _ => 0) _ _ _ hrun
  have hsnd : (run quietStored (sfatFillSuperImpl zeroShift 512 sbi31.options) emptyVolume31).1.map
      Prod.snd = .ok mountedRoot31 := by decide +kernel
  rw [heq] at hsnd hrun
  rw [hv] at hrun
  obtain rfl : root = mountedRoot31 := Except.ok.inj hsnd
  obtain rfl := hroot.sbi_eq
  exact .mounted hrun

theorem created31_file : created31.files [97] = some firstFile31 := by
  rw [show created31.files = Function.update mounted31.files [97] (some firstFile31) from rfl,
    Function.update_self]

theorem created31_call : Calls zeroShift mounted31 (.create [97] ⟨0, 0⟩)
    (.dentry (.ok (some firstFile31))) created31 := by
  have hrun := Exec.quietStored (sfatCreateFile sbi31 mountedRoot31 [97] ⟨0, 0⟩) emptyVolume31
  have heq : (run quietStored (sfatCreateFile sbi31 mountedRoot31 [97] ⟨0, 0⟩) emptyVolume31).1 =
    (.ok (some firstFile31), mountedRoot31) := by decide +kernel
  rw [heq] at hrun
  exact .create (by simp [NoNul]) hrun

theorem mounted31_keeps : CallKeeps mounted31 (.create [97] ⟨0, 0⟩) := by
  have hfirst : (firstUnused (chainSlots storedWord mounted31.sbi.fsInfo mounted31.vol
      mounted31.dir.iStart)).map (fun s => s.idx) = some 0 := by decide +kernel
  constructor
  · intro s hs hlast
    rw [hs] at hfirst
    have hidx : s.idx = 0 := Option.some.inj hfirst
    have hend : s.idx + 1 = 16 := hlast.2
    omega
  · intro hnone
    rw [hnone] at hfirst
    cases hfirst

theorem written31_call : Calls zeroShift created31 (.write [97] (fun _ => 7) 1 0)
    (.wrote (.ok 1) 1) written31 := by
  have hrun := Exec.quietStored writeCall31 created31.vol
  have heq : (run quietStored writeCall31 created31.vol).1 = (.ok 1, writtenFile31, 1) := by
    decide +kernel
  rw [heq] at hrun
  exact .write created31_file hrun

theorem created31_keeps : CallKeeps created31 (.write [97] (fun _ => 7) 1 0) := by
  intro inode hinode _
  obtain rfl : firstFile31 = inode := Option.some.inj (created31_file.symm.trans hinode)
  refine ⟨by decide +kernel, fun cs hfile' => ⟨fun happ => ?_, fun _ _ => ⟨by decide, ?_⟩, ?_⟩⟩
  · exact happ.inside_cluster rfl
  · intro hbig
    exact absurd hbig (by decide)
  · refine ⟨fun hin => ?_, fun _ hsize => absurd hsize (by decide), fun _ _ c hc => ?_⟩
    · rcases hin with hin | hin
      · exact absurd hin (by decide)
      · exact absurd hin (by decide)
    · have hone : FirstFree sbi31.fsInfo created31.vol 1 :=
        ⟨by decide, by decide +kernel, by decide +kernel⟩
      obtain rfl := hc.unique hone
      exact ⟨by decide, trivial⟩

def read31 : Mounted :=
  ⟨sbi31, mountedRoot31, Function.update written31.files [97] (some writtenFile31),
    (run quietStored (sfatSyncRead sbi31.fsInfo writtenFile31 10 0) written31.vol).2⟩

theorem written31_file : written31.files [97] = some writtenFile31 := by
  rw [show written31.files = Function.update created31.files [97] (some writtenFile31) from rfl,
    Function.update_self]

theorem read31_call : Calls zeroShift written31 (.read [97] 10 0) (.data [7] 1) read31 := by
  have hrun := Exec.quietStored (sfatSyncRead sbi31.fsInfo writtenFile31 10 0) written31.vol
  have heq : (run quietStored (sfatSyncRead sbi31.fsInfo writtenFile31 10 0) written31.vol).1 =
    ([7], writtenFile31, 1) := by decide +kernel
  rw [heq] at hrun
  exact .read (by decide) written31_file hrun

theorem written31_keeps : CallKeeps written31 (.read [97] 10 0) := by
  intro inode hinode
  obtain rfl : writtenFile31 = inode := Option.some.inj (written31_file.symm.trans hinode)
  exact .inl (by decide +kernel)

/-- A run that creates a file, writes one byte to it and reads it. -/
theorem oneByte_run : ∃ st, VolumeRun zeroShift sbi31.options layout31 (fun _ => 0) CallKeeps
    (writeLog ++ [(.read [97] 10 0, .data [7] 1)]) st :=
  ⟨read31, ((mounted31_run.call mounted31_keeps created31_call).call created31_keeps
    written31_call).call written31_keeps read31_call⟩

/-! ### The results -/

section Runs

variable {S : ℕ} {L : FormatLayout} {v₀ : Vol} {ub : UndefinedShift} {options : MountOptions}
  {log : List (VolumeCall × CallResult)} {st : Mounted}

/-- A FAT that is not the largest one has no word with the number of the mark of a free word. -/
theorem formatted_fatWords (hfat : L.fatLengthSectors < 2 ^ 25) :
    fatWords (formattedFsInfo L) ≤ sfatEntryFree := by
  show L.fatLengthSectors * (512 / 4) ≤ 0xFFFFFFF9
  omega

/-- **The volume is consistent after every run**, on every device that was formatted with a data
area: every file has the clusters that its size needs, and no cluster belongs to two files or to a
file and the directory. -/
theorem volume_consistent_over_runs (h : formatLayout 512 S = some L) (hpos : 1 ≤ L.clusters)
    (hrun : VolumeRun ub options L v₀ CallKeeps log st) :
    VolumeConsistent (formattedFsInfo L) st.vol 0 := by
  have inv := hrun.inv h hpos
  have hp := inv.placed h hpos
  obtain ⟨ds, slots, chains, hdisk, -⟩ := inv.held
  have hconsistent := hdisk.consistent hp
  rw [inv.root.fsInfo, inv.root.iStart] at hconsistent
  exact hconsistent

theorem volume_consistent_over_runs_oneByte : ∃ st,
    VolumeRun zeroShift sbi31.options layout31 (fun _ => 0) CallKeeps
      (writeLog ++ [(.read [97] 10 0, .data [7] 1)]) st ∧
    VolumeConsistent (formattedFsInfo layout31) st.vol 0 := by
  obtain ⟨st, hrun⟩ := oneByte_run
  exact ⟨st, hrun, volume_consistent_over_runs (show formatLayout 512 31 = some layout31 by decide)
    (by decide) hrun⟩

/-- **A mounted volume is a store of files**: every run is a run of the store, which ends with the
files that are on the volume. -/
theorem volume_refines_store (h : formatLayout 512 S = some L) (hpos : 1 ≤ L.clusters)
    (hfat : L.fatLengthSectors < 2 ^ 25) (hrun : VolumeRun ub options L v₀ CallKeeps log st) :
    ∃ σ, StoreRun 2048 log σ ∧ volumeFiles (formattedFsInfo L) st.vol 0 = σ.files := by
  obtain ⟨σ, hstore, hσ⟩ := hrun.refines h hpos (formatted_fatWords hfat)
  have inv := hrun.inv h hpos
  rw [HoldsFiles, inv.root.fsInfo, inv.root.iStart] at hσ
  exact ⟨σ, hstore, hσ⟩

theorem volume_refines_store_oneByte : ∃ st,
    VolumeRun zeroShift sbi31.options layout31 (fun _ => 0) CallKeeps
      (writeLog ++ [(.read [97] 10 0, .data [7] 1)]) st ∧
    ∃ σ, StoreRun 2048 (writeLog ++ [(.read [97] 10 0, .data [7] 1)]) σ ∧
      volumeFiles (formattedFsInfo layout31) st.vol 0 = σ.files := by
  obtain ⟨st, hrun⟩ := oneByte_run
  exact ⟨st, hrun, volume_refines_store (show formatLayout 512 31 = some layout31 by decide)
    (by decide) (by decide) hrun⟩

/-- **Every file on the volume has what was written to it**, and every read has returned a part of
what had been written until then. -/
theorem volume_content_replayed (h : formatLayout 512 S = some L) (hpos : 1 ≤ L.clusters)
    (hfat : L.fatLengthSectors < 2 ^ 25) (hrun : VolumeRun ub options L v₀ CallKeeps log st) :
    (∀ n bytes, (n, bytes) ∈ volumeFiles (formattedFsInfo L) st.vol 0 → bytes = replayed n log) ∧
    ∀ before after n len ppos out ppos',
      log = before ++ (.read n len ppos, .data out ppos') :: after →
      out = ((replayed (n.take 11) before).drop ppos).take (min len (2048 - ppos)) := by
  obtain ⟨σ, hstore, hσ⟩ := hrun.refines h hpos (formatted_fatWords hfat)
  have inv := hrun.inv h hpos
  rw [HoldsFiles, inv.root.fsInfo, inv.root.iStart] at hσ
  refine ⟨fun n bytes hmem => ?_, fun before after n len ppos out ppos' hlog => hstore.reads hlog⟩
  rw [hσ] at hmem
  exact (hstore.replays n).1 bytes hmem

theorem volume_content_replayed_oneByte : ∃ st,
    VolumeRun zeroShift sbi31.options layout31 (fun _ => 0) CallKeeps
      (writeLog ++ [(.read [97] 10 0, .data [7] 1)]) st ∧
    (∀ n bytes, (n, bytes) ∈ volumeFiles (formattedFsInfo layout31) st.vol 0 →
      bytes = replayed n (writeLog ++ [(.read [97] 10 0, .data [7] 1)])) ∧
    [7] = ((replayed [97] writeLog).drop 0).take (min 10 (2048 - 0)) := by
  obtain ⟨st, hrun⟩ := oneByte_run
  have h := volume_content_replayed (show formatLayout 512 31 = some layout31 by decide)
    (by decide) (by decide) hrun
  exact ⟨st, hrun, h.1, h.2 writeLog [] [97] 10 0 [7] 1 rfl⟩

/-- **The clusters in use after a run** are those of the directory and as many as the files need, and
for each write that was short one more at most, which is lost. -/
theorem space_accounted_over_runs (h : formatLayout 512 S = some L) (hpos : 1 ≤ L.clusters)
    (hrun : VolumeRun ub options L v₀ CallKeeps log st) :
    ∃ ds, FatChain (formattedFsInfo L) st.vol 0 ds ∧
      ds.length + neededClusters (formattedFsInfo L) (volumeFiles (formattedFsInfo L) st.vol 0) ≤
        usedWords (formattedFsInfo L) st.vol ∧
      usedWords (formattedFsInfo L) st.vol ≤ ds.length +
        neededClusters (formattedFsInfo L) (volumeFiles (formattedFsInfo L) st.vol 0) +
        shortWrites log := by
  have inv := hrun.inv h hpos
  have hp := inv.placed h hpos
  obtain ⟨ds, slots, chains, hdisk, -, hacc, -⟩ := inv.held
  have hchain := (dirChain_iff hp.toWellFormed).mp hdisk.filled.chain
  have hneeded := hdisk.needed_le hp
  have hused := hacc.used_le hdisk
  rw [inv.root.fsInfo, inv.root.iStart] at hchain hneeded hused
  exact ⟨ds, hchain, hneeded, hused⟩

/-- No write was short, and no cluster is lost. -/
theorem space_accounted_over_runs_oneByte : ∃ st ds,
    VolumeRun zeroShift sbi31.options layout31 (fun _ => 0) CallKeeps
      (writeLog ++ [(.read [97] 10 0, .data [7] 1)]) st ∧
    FatChain (formattedFsInfo layout31) st.vol 0 ds ∧
    usedWords (formattedFsInfo layout31) st.vol = ds.length +
      neededClusters (formattedFsInfo layout31) (volumeFiles (formattedFsInfo layout31) st.vol 0) := by
  obtain ⟨st, hrun⟩ := oneByte_run
  obtain ⟨ds, hchain, hneeded, hused⟩ := space_accounted_over_runs
    (show formatLayout 512 31 = some layout31 by decide) (by decide) hrun
  have hshort : shortWrites (writeLog ++ [(.read [97] 10 0, .data [7] 1)]) = 0 := rfl
  exact ⟨st, ds, hrun, hchain, by omega⟩

end Runs

end SimpleFat

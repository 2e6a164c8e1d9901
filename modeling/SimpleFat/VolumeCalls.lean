import SimpleFat.DiskFiles
import SimpleFat.RootRuns
import SimpleFat.StoredSize

/-!
# Calls on a mounted volume

A volume is formatted and mounted, and files are created, looked up, listed, read and written in any
order; inodes are dropped from memory and looked up again, and the volume is mounted again.

* `Calls`, `VolumeRun` — one call, and runs with the log of their calls;
* `CallKeeps` — when a call keeps the volume consistent;
* `InMemory` — what the inodes in memory have to do with the slots on the volume.
-/

namespace SimpleFat

open SimpleFat.Lib

/-! ### Calls -/

/-- A mounted volume: the super block, the root directory and the files in memory, and the device. -/
structure Mounted where
  sbi : SbInfo
  dir : Inode
  files : List UInt8 → Option Inode
  vol : Vol

/-- The calls of a user, the drop of an inode from memory, and the next mount. -/
inductive VolumeCall where
  | create (n : List UInt8) (junk : CreateJunk)
  | lookup (n : List UInt8)
  | readdir (fPos : ℕ)
  | read (n : List UInt8) (len ppos : ℕ)
  | write (n : List UInt8) (buf : ℕ → UInt8) (len ppos : ℕ)
  | drop (n : List UInt8)
  | remount (options : MountOptions)

inductive CallResult where
  | dentry (r : CreateReturn)
  | listed (r : ReaddirState)
  | data (out : List UInt8) (ppos : ℕ)
  | wrote (r : Except Errno ℕ) (ppos : ℕ)
  | dropped
  | mounted

/-- The inodes in memory after a call that may bring one. -/
def Mounted.learn (st : Mounted) (n : List UInt8) : CreateReturn → List UInt8 → Option Inode
  | .ok (some inode) => Function.update st.files n (some inode)
  | _ => st.files

/-- **One call** on a mounted volume. -/
inductive Calls (ub : UndefinedShift) : Mounted → VolumeCall → CallResult → Mounted → Prop
  | create {st : Mounted} {n : List UInt8} {junk : CreateJunk} {tr : List Request}
      {r : CreateReturn} {dir' : Inode} {v' : Vol} : NoNul n →
      Exec (lookupWorld storedWord) (sfatCreateFile st.sbi st.dir n junk) st.vol tr (r, dir') v' →
      Calls ub st (.create n junk) (.dentry r) ⟨st.sbi, dir', st.learn n r, v'⟩
  | lookup {st : Mounted} {n : List UInt8} {tr : List Request} {r : CreateReturn} {v' : Vol} :
      NoNul n → Exec (lookupWorld storedWord) (sfatLookup st.sbi st.dir n) st.vol tr r v' →
      Calls ub st (.lookup n) (.dentry r) ⟨st.sbi, st.dir, st.learn n r, v'⟩
  /-- `filldir` may refuse entries. -/
  | readdir {st : Mounted} {fPos : ℕ} {refuse : FilldirCall → Prop} {tr : List Request}
      {r : ReaddirState} {v' : Vol} :
      Exec (refusingWorld refuse storedWord)
        (sfatReaddir st.sbi.fsInfo st.dir.iStart st.dir.iSize fPos) st.vol tr r v' →
      Calls ub st (.readdir fPos) (.listed r) ⟨st.sbi, st.dir, st.files, v'⟩
  /-- The sum of position and length fits `loff_t`. -/
  | read {st : Mounted} {n : List UInt8} {len ppos ppos' : ℕ} {inode inode' : Inode}
      {tr : List Request} {out : List UInt8} {v' : Vol} : ppos + len < 2 ^ 63 →
      st.files n = some inode →
      Exec (lookupWorld storedWord) (sfatSyncRead st.sbi.fsInfo inode len ppos) st.vol tr
        (out, inode', ppos') v' →
      Calls ub st (.read n len ppos) (.data out ppos')
        ⟨st.sbi, st.dir, Function.update st.files n (some inode'), v'⟩
  | write {st : Mounted} {n : List UInt8} {buf : ℕ → UInt8} {len ppos ppos' : ℕ}
      {inode inode' : Inode} {tr : List Request} {r : Except Errno ℕ} {v' : Vol} :
      st.files n = some inode →
      Exec (storedWorld noFailure) (sfatSyncWrite st.sbi.fsInfo inode buf len ppos) st.vol tr
        (r, inode', ppos') v' →
      Calls ub st (.write n buf len ppos) (.wrote r ppos')
        ⟨st.sbi, st.dir, Function.update st.files n (some inode'), v'⟩
  | drop {st : Mounted} {n : List UInt8} :
      Calls ub st (.drop n) .dropped ⟨st.sbi, st.dir, Function.update st.files n none, st.vol⟩
  /-- The inodes in memory are gone, whenever that was. -/
  | remount {st : Mounted} {options : MountOptions} {tr : List Request} {sbi : SbInfo}
      {root : Inode} {v' : Vol} :
      Exec (lookupWorld storedWord) (sfatFillSuperImpl ub 512 options) st.vol tr
        (.ok (sbi, root)) v' →
      Calls ub st (.remount options) .mounted ⟨sbi, root, fun _ => none, v'⟩

/-- **A run**: the device is formatted and mounted, and then calls are made; with the log of the
calls. `P` holds before each call. -/
inductive VolumeRun (ub : UndefinedShift) (options : MountOptions) (L : FormatLayout) (v₀ : Vol)
    (P : Mounted → VolumeCall → Prop) : List (VolumeCall × CallResult) → Mounted → Prop
  | mounted {tr : List Request} {sbi : SbInfo} {root : Inode} {v : Vol} :
      Exec (lookupWorld storedWord) (sfatFillSuperImpl ub 512 options) (formatVolume L v₀) tr
        (.ok (sbi, root)) v →
      VolumeRun ub options L v₀ P [] ⟨sbi, root, fun _ => none, v⟩
  | call {log : List (VolumeCall × CallResult)} {st st' : Mounted} {c : VolumeCall}
      {r : CallResult} : VolumeRun ub options L v₀ P log st → P st c → Calls ub st c r st' →
      VolumeRun ub options L v₀ P (log ++ [(c, r)]) st'

/-! ### When calls keep the volume consistent -/

/-- The inode has the position of the slot with the name, the first 11 bytes of which count. -/
def AtSlot (fs : FsInfo) (n : List UInt8) (inode : Inode) (s : Slot) : Prop :=
  cString s.de.name = n.take 11 ∧ inode.iPos = s.addr fs

/-- The inode of a file is flushed to the file's own slot. -/
def OwnsSlot (st : Mounted) (n : List UInt8) (inode : Inode) : Prop :=
  ∃ s ∈ visibleSlots st.sbi.fsInfo st.vol st.dir.iStart, AtSlot st.sbi.fsInfo n inode s

/-- **A slot in no cluster in use**, of the data area or behind it. -/
structure Aside (fs : FsInfo) (v : Vol) (pos : ℕ) : Prop where
  lt : pos < 2 ^ 63
  block : pos % fs.blockSize + 32 ≤ fs.blockSize
  data : fs.dataStartBlk * fs.blockSize ≤ pos
  unused : ∀ c < fatWords fs, fatWord fs v c ≠ sfatEntryFree →
    pos + 32 ≤ clsAddr fs c ∨ clsAddr fs c + fs.clusterSize ≤ pos

/-- The inode of a file has the fields of the file's slot, and is flushed aside. -/
def FlushesAside (st : Mounted) (n : List UInt8) (inode : Inode) : Prop :=
  (∃ s ∈ visibleSlots st.sbi.fsInfo st.vol st.dir.iStart, cString s.de.name = n.take 11 ∧
    inode.iStart = s.de.fstClsNo ∧ inode.iSize = s.de.size) ∧
  Aside st.sbi.fsInfo st.vol inode.iPos

def WriteStarts (fs : FsInfo) (v : Vol) (inode : Inode) (len ppos : ℕ) : Prop :=
  WriteAllowed inode len ppos ∧
    (WritesInside fs inode ppos → ∃ c, SeekFinds storedWord fs v inode.iStart ppos c)

/-- A write that keeps the chain of its file in order: it does not append into a cluster, the file
stays below 4 GiB, and the clusters that it takes are in the data area. -/
def KeepsChain (fs : FsInfo) (v : Vol) (inode : Inode) (len ppos : ℕ) : Prop :=
  ∀ cs, FileChain fs v inode cs → ¬ AppendsInCluster fs v inode cs len ppos ∧
    StaysBelow fs v inode cs len ppos ∧ WriteBounded fs v inode len ppos

def CallKeeps (st : Mounted) : VolumeCall → Prop
  | .create _ junk => NextSet st.sbi.fsInfo st.vol st.dir junk ∧ GrowsInside st.sbi.fsInfo st.vol st.dir
  | .read n _ _ => ∀ inode, st.files n = some inode → OwnsSlot st n inode ∨ FlushesAside st n inode
  | .write n _ len ppos => ∀ inode, st.files n = some inode →
      WriteStarts st.sbi.fsInfo st.vol inode len ppos →
      OwnsSlot st n inode ∧ KeepsChain st.sbi.fsInfo st.vol inode len ppos
  | _ => True

/-! ### The inodes in memory -/

/-- **The inodes in memory**: each has a slot with its name; one that has the position of this slot
has its fields, and is the only one. -/
structure InMemory (fs : FsInfo) (slots : List Slot) (files : List UInt8 → Option Inode) : Prop where
  known : ∀ n inode, files n = some inode →
    n.take 11 ∈ slotNames slots ∧ inode.iIno ≠ sfatRootIno
  current : ∀ n inode, ∀ s ∈ slots, files n = some inode → AtSlot fs n inode s →
    inode.iStart = s.de.fstClsNo ∧ inode.iSize = s.de.size
  single : ∀ n m inode inode', ∀ s ∈ slots, files n = some inode → files m = some inode' →
    AtSlot fs n inode s → AtSlot fs m inode' s → n = m

section Memory

variable {fs : FsInfo} {slots : List Slot} {files : List UInt8 → Option Inode} {n m : List UInt8}
  {inode inode' : Inode} {s x : Slot}

theorem InMemory.empty (fs : FsInfo) (slots : List Slot) : InMemory fs slots fun _ => none where
  known _ _ h := by cases h
  current _ _ _ _ h := by cases h
  single _ _ _ _ _ _ h := by cases h

/-- An inode of a table of inodes with a new one. -/
theorem update_known (h : Function.update files n (some inode) m = some inode') :
    m = n ∧ inode' = inode ∨ m ≠ n ∧ files m = some inode' := by
  by_cases hmn : m = n
  · rw [hmn, Function.update_self] at h
    exact .inl ⟨hmn, (Option.some.inj h).symm⟩
  · rw [Function.update_of_ne hmn] at h
    exact .inr ⟨hmn, h⟩

/-- A new slot is no slot of an inode that was in memory before. -/
theorem InMemory.not_new (h : InMemory fs slots files) (hx : NewEntry n x)
    (hnew : n ∉ slotNames slots) (hm : files m = some inode) : ¬ AtSlot fs m inode x := by
  intro hat
  have hname : n = m.take 11 := hx.name.symm.trans hat.1
  exact hnew (hname ▸ (h.known m inode hm).1)

/-- **A slot more**. -/
theorem InMemory.grown (h : InMemory fs slots files) (hx : NewEntry n x)
    (hnew : n ∉ slotNames slots) : InMemory fs (slots ++ [x]) files where
  known m inode hm := by
    refine ⟨?_, (h.known m inode hm).2⟩
    rw [slotNames, List.map_append]
    exact List.mem_append_left _ (h.known m inode hm).1
  current m inode s hs hm hat := by
    rcases List.mem_append.mp hs with hs | hs
    · exact h.current m inode s hs hm hat
    · rw [List.mem_singleton.mp hs] at hat
      exact absurd hat (h.not_new hx hnew hm)
  single m k inode inode' s hs hm hk hat hat' := by
    rcases List.mem_append.mp hs with hs | hs
    · exact h.single m k inode inode' s hs hm hk hat hat'
    · rw [List.mem_singleton.mp hs] at hat
      exact absurd hat (h.not_new hx hnew hm)

/-- **An inode more**: at a slot it has the fields, and no other inode is there. -/
theorem InMemory.learned (h : InMemory fs slots files) (hknown : n.take 11 ∈ slotNames slots)
    (hroot : inode.iIno ≠ sfatRootIno)
    (hat : ∀ s ∈ slots, AtSlot fs n inode s → (inode.iStart = s.de.fstClsNo ∧
      inode.iSize = s.de.size) ∧ ∀ m inode', files m = some inode' → AtSlot fs m inode' s → m = n) :
    InMemory fs slots (Function.update files n (some inode)) where
  known m i hm := by
    rcases update_known hm with ⟨rfl, rfl⟩ | ⟨-, hold⟩
    · exact ⟨hknown, hroot⟩
    · exact h.known m i hold
  current m i s hs hm hms := by
    rcases update_known hm with ⟨rfl, rfl⟩ | ⟨-, hold⟩
    · exact (hat s hs hms).1
    · exact h.current m i s hs hold hms
  single m k i i' s hs hm hk hms hks := by
    rcases update_known hm with ⟨hmn, rfl⟩ | ⟨-, holdm⟩
    · rcases update_known hk with ⟨hkn, -⟩ | ⟨-, holdk⟩
      · exact hmn.trans hkn.symm
      · rw [hmn] at hms ⊢
        exact ((hat s hs hms).2 k i' holdk hks).symm
    · rcases update_known hk with ⟨hkn, rfl⟩ | ⟨-, holdk⟩
      · rw [hkn] at hks ⊢
        exact (hat s hs hks).2 m i holdm hms
      · exact h.single m k i i' s hs holdm holdk hms hks

/-- **An inode changes**, but not in what its slot has of it. -/
theorem InMemory.touched (h : InMemory fs slots files) (hfile : files n = some inode)
    (hino : inode'.iIno = inode.iIno) (hpos : inode'.iPos = inode.iPos)
    (hstart : inode'.iStart = inode.iStart) (hsize : inode'.iSize = inode.iSize) :
    InMemory fs slots (Function.update files n (some inode')) := by
  obtain ⟨hknown, hroot⟩ := h.known n inode hfile
  apply h.learned hknown
  · rw [hino]
    exact hroot
  · intro s hs hat
    have hat : AtSlot fs n inode s := ⟨hat.1, hpos.symm.trans hat.2⟩
    rw [hstart, hsize]
    exact ⟨h.current n inode s hs hfile hat, fun m i hm hms => h.single m n i inode s hs hm hfile hms hat⟩

/-- **An inode is dropped.** -/
theorem InMemory.dropped (h : InMemory fs slots files) (n : List UInt8) :
    InMemory fs slots (Function.update files n none) := by
  have hfiles : ∀ m inode, Function.update files n none m = some inode → files m = some inode := by
    intro m inode hm
    by_cases hmn : m = n
    · rw [hmn, Function.update_self] at hm
      cases hm
    · rwa [Function.update_of_ne hmn] at hm
  exact ⟨fun m i hm => h.known m i (hfiles m i hm),
    fun m i s hs hm => h.current m i s hs (hfiles m i hm),
    fun m k i i' s hs hm hk => h.single m k i i' s hs (hfiles m i hm) (hfiles k i' hk)⟩

/-- **An inode is flushed to its slot.** -/
theorem InMemory.stored (h : InMemory fs slots files) (hfiles : files n = some inode)
    (hs : s ∈ slots) (hat : AtSlot fs n inode s) (huniq : ∀ t ∈ slots, t.addr fs = s.addr fs → t = s)
    (hino : inode'.iIno = inode.iIno) (hpos : inode'.iPos = inode.iPos)
    (hfields : ∀ de : SfatDirEntry,
      (de.update inode').fstClsNo = inode'.iStart ∧ (de.update inode').size = inode'.iSize) :
    InMemory fs (slots.map (Slot.stored fs inode')) (Function.update files n (some inode')) := by
  have hplace : ∀ m i (t : Slot), AtSlot fs m i (t.stored fs inode') ↔ AtSlot fs m i t := by
    intro m i t
    rw [AtSlot, AtSlot, Slot.stored_name, Slot.stored_addr]
  have haddr : inode'.iPos = s.addr fs := hpos.trans hat.2
  -- another inode is at another slot
  have hother : ∀ m i, ∀ t ∈ slots, m ≠ n → files m = some i → AtSlot fs m i t →
      t.stored fs inode' = t := by
    intro m i t ht hmn hm hmt
    refine Slot.stored_other fun heq => hmn ?_
    rw [huniq t ht (heq.trans haddr)] at hmt
    exact h.single m n i inode s hs hm hfiles hmt hat
  have hsame : ∀ t ∈ slots, AtSlot fs n inode' t → AtSlot fs n inode t := by
    intro t _ ht
    exact ⟨ht.1, hpos.symm.trans ht.2⟩
  refine ⟨fun m i hm => ?_, fun m i t' ht' hm hmt => ?_,
    fun m k i i' t' ht' hm hk hmt hkt => ?_⟩
  · rw [slotNames_stored]
    rcases update_known hm with ⟨rfl, rfl⟩ | ⟨-, hold⟩
    · rw [hino]
      exact h.known m inode hfiles
    · exact h.known m i hold
  · obtain ⟨t, ht, rfl⟩ := List.mem_map.mp ht'
    rw [hplace] at hmt
    rcases update_known hm with ⟨rfl, rfl⟩ | ⟨hmn, hold⟩
    · rw [Slot.stored_self hmt.2.symm]
      exact ⟨(hfields t.de).1.symm, (hfields t.de).2.symm⟩
    · rw [hother m i t ht hmn hold hmt]
      exact h.current m i t ht hold hmt
  · obtain ⟨t, ht, rfl⟩ := List.mem_map.mp ht'
    rw [hplace] at hmt hkt
    rcases update_known hm with ⟨hmn, rfl⟩ | ⟨-, holdm⟩
    · rcases update_known hk with ⟨hkn, -⟩ | ⟨-, holdk⟩
      · exact hmn.trans hkn.symm
      · rw [hmn] at hmt ⊢
        exact h.single n k inode i' t ht hfiles holdk (hsame t ht hmt) hkt
    · rcases update_known hk with ⟨hkn, rfl⟩ | ⟨-, holdk⟩
      · rw [hkn] at hkt ⊢
        exact h.single m n i inode t ht holdm hfiles hmt (hsame t ht hkt)
      · exact h.single m k i i' t ht holdm holdk hmt hkt

end Memory

end SimpleFat

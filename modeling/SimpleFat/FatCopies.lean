import SimpleFat.FormatMount
import SimpleFat.WriteContracts

/-!
# The copies of the FAT

The format tool writes every copy of the FAT, and the driver uses the first one alone:
`sfat_get_entry_content` reads it, `sfat_fat_entry_acquire` and `sfat_fat_entry_modify` write it.
So the other copies stay as they were mounted.

* `CallRun` — finite sequences of successful calls, with the inodes in memory;
* `CallRun.otherCopies` — the bytes of the other copies after a run;
* `fat_copies_first_only` — the words of the copies after any run.
-/

namespace SimpleFat

open SimpleFat.Lib

variable {fs : FsInfo} {sbi : SbInfo}

/-! ### Runs -/

/-- A run of successful calls: the volume, and the inodes that have been in memory.  A call takes
one of these inodes and leaves new ones. -/
inductive CallRun (H : Host) (sbi : SbInfo) : Vol → List Inode → Vol → List Inode → Prop
  | nil {v : Vol} {inodes : List Inode} : CallRun H sbi v inodes v inodes
  | create {v v₁ v₂ : Vol} {inodes inodes₂ : List Inode} {dir dir' : Inode} {dName : List UInt8}
      {junk : CreateJunk} {tr : List Request} {i : Option Inode} : dir ∈ inodes →
      BenignJunk sbi.fsInfo junk →
      Exec H.world (sfatCreateFile sbi dir dName junk) v tr (.ok i, dir') v₁ →
      CallRun H sbi v₁ (i.toList ++ dir' :: inodes) v₂ inodes₂ → CallRun H sbi v inodes v₂ inodes₂
  | write {v v₁ v₂ : Vol} {inodes inodes₂ : List Inode} {inode inode' : Inode} {buf : ℕ → UInt8}
      {len ppos n ppos' : ℕ} {tr : List Request} : inode ∈ inodes →
      Exec H.world (sfatSyncWrite sbi.fsInfo inode buf len ppos) v tr (.ok n, inode', ppos') v₁ →
      CallRun H sbi v₁ (inode' :: inodes) v₂ inodes₂ → CallRun H sbi v inodes v₂ inodes₂

def copyWord (fs : FsInfo) (v : Vol) (copy cls : ℕ) : ℕ :=
  le32 v ((fs.fatStartBlk + copy * fs.fatLengthBlk) * fs.blockSize + 4 * cls)

def CopiesEqual (fs : FsInfo) (v : Vol) : Prop :=
  ∀ copy < fs.fats, ∀ c < fatWords fs, copyWord fs v copy c = copyWord fs v 0 c

theorem copyWord_first (fs : FsInfo) (v : Vol) (cls : ℕ) : copyWord fs v 0 cls = fatWord fs v cls := by
  rw [copyWord, fatWord, fatWordAddr, Nat.zero_mul, Nat.add_zero]

/-- The bytes of the other copies are those of the volume `v`. -/
def OtherCopies (fs : FsInfo) (v v' : Vol) : Prop :=
  ∀ a, (fs.fatStartBlk + fs.fatLengthBlk) * fs.blockSize ≤ a →
    a < fs.dataStartBlk * fs.blockSize → v' a = v a

/-- Requests that spare the copies leave their bytes. -/
theorem OtherCopies.step {H : Host} {v s s' : Vol} {c : Request} {r : Answer c}
    (hc : SparesCopies fs c) (hw : H.world s c r s') (h : OtherCopies fs v s) :
    OtherCopies fs v s' := by
  cases c with
  | writeBlock sz b d =>
    obtain ⟨rfl, hb⟩ := hc
    rcases hw with ⟨-, rfl⟩ | ⟨-, rfl, -⟩
    · intro a hlo hhi
      rw [← h a hlo hhi, putBlock]
      rcases hb with ⟨-, hb⟩ | hb
      · apply patch_of_ge
        have hmul := Nat.mul_le_mul_right fs.blockSize (show b + 1 ≤ _ from hb)
        rw [Nat.add_mul, Nat.one_mul] at hmul
        omega
      · apply patch_of_lt
        have hmul := Nat.mul_le_mul_right fs.blockSize hb
        omega
    · exact h
  | readBlock sz b => rwa [hw.1]
  | blkholderAlloc => rwa [hw.1]
  | le32OfPointer a b p d => rwa [hw.1]
  | copyFromUser n => rwa [hw.1]
  | copyToUser n => rwa [hw.1]
  | currentTimeSec => rwa [show s' = s from hw]
  | newInode => rwa [hw.1]
  | iunique m => rwa [hw.1]
  | dAllocRoot => rwa [hw.1]
  | filldir call => rwa [hw.1]

/-- **A run leaves the other copies alone.** -/
theorem CallRun.otherCopies {H : Host} {v₀ v v' : Vol} {inodes inodes' : List Inode}
    (run : CallRun H sbi v inodes v' inodes') (hp : Placed sbi.fsInfo)
    (hin : ∀ i ∈ inodes, EntryInData sbi.fsInfo i) (h : OtherCopies sbi.fsInfo v₀ v) :
    OtherCopies sbi.fsInfo v₀ v' := by
  have hstep : ∀ (s : Vol) (c : Request) (r : Answer c) (s' : Vol), SparesCopies sbi.fsInfo c →
      H.world s c r s' → OtherCopies sbi.fsInfo v₀ s → OtherCopies sbi.fsInfo v₀ s' :=
    fun _ _ _ _ hc hw => OtherCopies.step hc hw
  induction run with
  | nil => exact h
  | @create v v₁ v₂ inodes inodes₂ dir dir' dName junk tr i hdir hjunk he _ ih =>
    obtain ⟨h₁, hdir', hnew⟩ :=
      he.preserves hstep (createFile_obeys hp (hin dir hdir) dName hjunk) h
    refine ih (fun j hj => ?_) h₁
    rcases List.mem_append.mp hj with hj | hj
    · exact hnew j (congrArg _ (Option.mem_toList.mp hj))
    · rcases List.mem_cons.mp hj with rfl | hj
      · exact hdir'
      · exact hin j hj
  | @write v v₁ v₂ inodes inodes₂ inode inode' buf len ppos n ppos' tr hinode he _ ih =>
    obtain ⟨h₁, hnew⟩ :=
      he.preserves hstep (syncWrite_obeys hp (hin inode hinode) buf len ppos) h
    refine ih (fun j hj => ?_) h₁
    rcases List.mem_cons.mp hj with rfl | hj
    · exact hnew
    · exact hin j hj

/-- A word of another copy lies behind the first copy and before the data area. -/
theorem copyWord_congr (hp : Placed fs) (hcopies : fs.fatStartBlk + fs.fats * fs.fatLengthBlk ≤
    fs.dataStartBlk) {v v' : Vol} (h : OtherCopies fs v v') {copy c : ℕ} (hpos : 0 < copy)
    (hcopy : copy < fs.fats) (hc : c < fatWords fs) : copyWord fs v' copy c = copyWord fs v copy c := by
  obtain ⟨w, -, hbs⟩ := hp.blockSize_words
  have hdiv : fs.blockSize / 4 = 2 ^ w := by omega
  have hlo : fs.fatLengthBlk ≤ copy * fs.fatLengthBlk := Nat.le_mul_of_pos_left _ hpos
  have hhi : (copy + 1) * fs.fatLengthBlk ≤ fs.fats * fs.fatLengthBlk :=
    Nat.mul_le_mul_right _ hcopy
  rw [Nat.add_mul, Nat.one_mul] at hhi
  -- in bytes
  have hlo := Nat.mul_le_mul_right fs.blockSize (Nat.add_le_add_left hlo fs.fatStartBlk)
  have hhi := Nat.mul_le_mul_right fs.blockSize
    (show fs.fatStartBlk + copy * fs.fatLengthBlk + fs.fatLengthBlk ≤ fs.dataStartBlk by omega)
  have hlen : fs.fatLengthBlk * fs.blockSize = 4 * fatWords fs := by
    rw [fatWords, hdiv, hbs, Nat.mul_left_comm]
  rw [Nat.add_mul _ fs.fatLengthBlk, hlen] at hhi
  refine le32_congr fun i hi => h _ (by omega) (by omega)

/-- **The driver keeps the first copy of the FAT alone up to date**, whatever fails and whatever
lookups deliver: allocations and changes of a word write its blocks only, and after every run the
other copies hold what they held before, so that one of their words is that of the first copy
exactly when the first copy has its old word there. -/
theorem fat_copies_first_only (hp : Placed sbi.fsInfo)
    (hcopies : sbi.fsInfo.fatStartBlk + sbi.fsInfo.fats * sbi.fsInfo.fatLengthBlk ≤
      sbi.fsInfo.dataStartBlk) :
    obeys (WritesFirstCopy sbi.fsInfo) (fun r => ∀ c, r = .ok c → c < fatWords sbi.fsInfo)
      (sfatFatEntryAcquire sbi.fsInfo) ∧
    (∀ cls attr, obeys (WritesFirstCopy sbi.fsInfo) (fun _ => True)
      (sfatFatEntryModify sbi.fsInfo cls attr)) ∧
    ∀ (H : Host) (v v' : Vol) (inodes inodes' : List Inode),
      (∀ i ∈ inodes, EntryInData sbi.fsInfo i) → CallRun H sbi v inodes v' inodes' →
      ∀ copy, 0 < copy → copy < sbi.fsInfo.fats → ∀ c < fatWords sbi.fsInfo,
        copyWord sbi.fsInfo v' copy c = copyWord sbi.fsInfo v copy c ∧
        (CopiesEqual sbi.fsInfo v →
          (copyWord sbi.fsInfo v' copy c = copyWord sbi.fsInfo v' 0 c ↔
            fatWord sbi.fsInfo v' c = fatWord sbi.fsInfo v c)) := by
  refine ⟨acquire_obeys hp.toWellFormed.wordBlocks, modify_obeys hp, ?_⟩
  intro H v v' inodes inodes' hin run copy hpos hcopy c hc
  have hother := run.otherCopies hp hin (fun _ _ _ => rfl)
  have hword := copyWord_congr hp hcopies hother hpos hcopy hc
  refine ⟨hword, fun hequal => ?_⟩
  rw [hword, hequal copy hcopy c hc, copyWord_first, copyWord_first]
  exact eq_comm

theorem fat_copies_first_only_thirtyOne :
    obeys (WritesFirstCopy sbi31.fsInfo) (fun r => ∀ c, r = .ok c → c < fatWords sbi31.fsInfo)
      (sfatFatEntryAcquire sbi31.fsInfo) ∧
    (∀ cls attr, obeys (WritesFirstCopy sbi31.fsInfo) (fun _ => True)
      (sfatFatEntryModify sbi31.fsInfo cls attr)) ∧
    ∀ (H : Host) (v v' : Vol) (inodes inodes' : List Inode),
      (∀ i ∈ inodes, EntryInData sbi31.fsInfo i) → CallRun H sbi31 v inodes v' inodes' →
      ∀ copy, 0 < copy → copy < sbi31.fsInfo.fats → ∀ c < fatWords sbi31.fsInfo,
        copyWord sbi31.fsInfo v' copy c = copyWord sbi31.fsInfo v copy c ∧
        (CopiesEqual sbi31.fsInfo v →
          (copyWord sbi31.fsInfo v' copy c = copyWord sbi31.fsInfo v' 0 c ↔
            fatWord sbi31.fsInfo v' c = fatWord sbi31.fsInfo v c)) :=
  fat_copies_first_only placed31 (by decide)

def emptyVolume31 : Vol := formatVolume layout31 fun _ => 0

/-- The inode of the file `a`, the first one on a formatted volume. -/
def firstFile31 : Inode :=
  { Inode.fresh ⟨0, 0, 0⟩ with
    iIno := 6
    iVersion := 2
    iGeneration := 1
    iMode := 0o100777
    iStart := sfatEntryFree
    iPos := 6656 }

/-- The lookup of the code: the low 32 bits of the address. -/
def addressWord (addr _blk pos : ℕ) (_data : Page) : ℕ := (addr + pos) % 2 ^ 32

/-- The two calls: create `a` and write one byte to it. -/
def createCall31 : Driver (CreateReturn × Inode) := sfatCreateFile sbi31 root31 [97] ⟨0, 0⟩

def writeCall31 : Driver (Except Errno ℕ × Inode × ℕ) :=
  sfatSyncWrite sbi31.fsInfo firstFile31 (fun _ => 7) 1 0

/-- The volume after both. -/
def writtenVolume31 : Vol :=
  (run (Host.quiet addressWord) writeCall31 (run (Host.quiet addressWord) createCall31 emptyVolume31).2).2

/-- **Writing one byte to a new file** of a formatted volume leaves the second copy of the FAT
behind, also with the lookup that the code makes. -/
theorem fat_copies_diverge : CopiesEqual sbi31.fsInfo emptyVolume31 ∧
    ∃ inodes, CallRun (Host.code noFailure) sbi31 emptyVolume31 [root31] writtenVolume31 inodes ∧
      copyWord sbi31.fsInfo writtenVolume31 0 1 = sfatEntryEoc ∧
      copyWord sbi31.fsInfo writtenVolume31 1 1 = sfatEntryFree ∧
      ¬ CopiesEqual sbi31.fsInfo writtenVolume31 := by
  have hequal : CopiesEqual sbi31.fsInfo emptyVolume31 := by
    have hlayout : LayoutsAgree 31 layout31 (fun _ => 0) sbi31.fsInfo :=
      formatted_layoutsAgree (by decide) (by decide) (by decide) (by decide) _
    intro copy hcopy c hc
    exact (hlayout.words copy hcopy c hc).trans (hlayout.words 0 (by decide) c hc).symm
  have hlook : ∀ addr blk pos d,
      (Host.code noFailure).lookup addr blk pos d (addressWord addr blk pos d) := fun _ _ _ _ => rfl
  have hcreate := Exec.of_quiet hlook createCall31 emptyVolume31
  have hcreated : (run (Host.quiet addressWord) createCall31 emptyVolume31).1 =
      (.ok (some firstFile31), root31) := by decide +kernel
  rw [hcreated] at hcreate
  have hwrite := Exec.of_quiet hlook writeCall31
    (run (Host.quiet addressWord) createCall31 emptyVolume31).2
  have hwritten : (run (Host.quiet addressWord) writeCall31
      (run (Host.quiet addressWord) createCall31 emptyVolume31).2).1.1 = .ok 1 := by decide +kernel
  rcases hrun : (run (Host.quiet addressWord) writeCall31
    (run (Host.quiet addressWord) createCall31 emptyVolume31).2).1 with ⟨r, inode', ppos'⟩
  rw [hrun] at hwrite hwritten
  obtain rfl : r = .ok 1 := hwritten
  have hfirst : copyWord sbi31.fsInfo writtenVolume31 0 1 = sfatEntryEoc := by decide +kernel
  have hsecond : copyWord sbi31.fsInfo writtenVolume31 1 1 = sfatEntryFree := by decide +kernel
  refine ⟨hequal, _, .create List.mem_cons_self ⟨by decide, by decide⟩ hcreate
    (.write (List.mem_append_left _ List.mem_cons_self) hwrite .nil), hfirst, hsecond, fun h => ?_⟩
  have hword := h 1 (by decide) 1 (by decide)
  rw [hfirst, hsecond] at hword
  revert hword
  decide

end SimpleFat

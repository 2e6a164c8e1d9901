import SimpleFat.Mount
import SimpleFat.FileData
import SimpleFat.Lib.Crash

/-!
# What the reading calls write

A lookup, a listing and a mount write no block, whatever the device, the clock and the lookups of the
FAT answer, and whatever is on the volume.  A read of a file writes at most the block that its inode
is flushed to.

* `Reads` — a request that writes no block; `reads`, the contracts with it;
* `locate_reads`, `countSubdirs_reads`, `readdir_reads`, `buildInode_reads`, … — the functions;
* `reading_calls_write` — the result.
-/

namespace SimpleFat

open SimpleFat.Lib

/-! ### The contracts -/

def Reads : Request → Prop
  | .writeBlock _ _ _ => False
  | _ => True

def WritesOnly (sz blk : ℕ) : Request → Prop
  | .writeBlock sz' blk' _ => sz' = sz ∧ blk' = blk
  | _ => True

abbrev reads {α : Type} (p : Driver α) : Prop := obeys Reads (fun _ => True) p

/-- A request that writes no block leaves the volume alone. -/
theorem Reads.vol_eq {H : Host} {v v' : Vol} {c : Request} {r : Answer c} (hc : Reads c)
    (hw : H.world v c r v') : v' = v := by
  cases c with
  | writeBlock sz b d => exact absurd hc id
  | currentTimeSec => exact hw
  | _ => exact hw.1

/-- A request that writes no other block leaves the rest of the volume alone. -/
theorem WritesOnly.apply_eq {H : Host} {v v' : Vol} {c : Request} {r : Answer c} {sz blk a : ℕ}
    (hc : WritesOnly sz blk c) (hw : H.world v c r v') (ha : a < blk * sz ∨ blk * sz + sz ≤ a) :
    v' a = v a := by
  cases c with
  | writeBlock sz' b d =>
    obtain ⟨rfl, rfl⟩ := hc
    rcases hw with ⟨-, rfl⟩ | ⟨-, rfl, -⟩
    · rcases ha with ha | ha
      · exact patch_of_lt _ _ ha
      · exact patch_of_ge _ _ ha
    · rfl
  | currentTimeSec => rw [show v' = v from hw]
  | _ => rw [hw.1]

theorem Reads.only {c : Request} (sz blk : ℕ) (h : Reads c) : WritesOnly sz blk c := by
  cases c with
  | writeBlock sz' b d => exact absurd h id
  | _ => trivial

variable {fs : FsInfo} {α : Type}

/-- The rule of sequencing. -/
theorem reads_bind {β : Type} {p : Driver α} {f : α → Driver β} (hp : reads p)
    (hf : ∀ a, reads (f a)) : reads (p >>= f) :=
  obeys_bind hp fun a _ => hf a

/-! ### The FAT -/

theorem getEntry_reads (fs : FsInfo) (cls : ℕ) : reads (sfatGetEntryContent fs cls) := by
  rw [sfatGetEntryContent]
  split
  · trivial
  · refine obeys_request trivial fun page => ?_
    cases page with
    | none => trivial
    | some addr =>
      refine obeys_request trivial fun data => ?_
      cases data with
      | none => trivial
      | some data => exact ⟨trivial, fun _ => trivial⟩

theorem seekLoop_reads (fuel cls pos : ℕ) : reads (sfatSeekLoop fs fuel cls pos) := by
  induction fuel generalizing cls pos with
  | zero =>
    rw [sfatSeekLoop]
    split
    · trivial
    · trivial
  | succ fuel ih =>
    rw [sfatSeekLoop]
    split
    · apply reads_bind (getEntry_reads fs cls)
      intro r
      cases r with
      | error e => trivial
      | ok next =>
        show reads (if _ then _ else _)
        split
        · trivial
        · exact ih _ _
    · trivial

theorem seek_reads (cls pos : ℕ) : reads (sfatSeek fs cls pos) := by
  rw [sfatSeek]
  split
  · trivial
  · exact seekLoop_reads pos cls pos

/-! ### Directories -/

section Directories

theorem locateBlocks_reads (name : Vector UInt8 11) (cls n blk : ℕ) :
    reads (locateBlocks fs name cls n blk) := by
  induction n generalizing blk with
  | zero => trivial
  | succ n ih =>
    refine obeys_request trivial fun data => ?_
    cases data with
    | none => trivial
    | some data =>
      cases hscan : locateSlots name data fs.direntPerBlk 0 with
      | next u =>
        simp only [hscan]
        exact ih _
      | out r =>
        simp only [hscan]
        cases r with
        | none => trivial
        | some r => trivial

theorem locateClusters_reads (name : Vector UInt8 11) (n cls : ℕ) :
    reads (locateClusters fs name n cls) := by
  induction n generalizing cls with
  | zero => trivial
  | succ n ih =>
    apply reads_bind (locateBlocks_reads name cls fs.blkPerClus _)
    intro r
    cases r with
    | out r => trivial
    | next u =>
      apply reads_bind (getEntry_reads fs cls)
      intro r
      cases r with
      | error e => trivial
      | ok next =>
        show reads (if _ then _ else _)
        split
        · trivial
        · exact ih next

theorem locate_reads (start : ℕ) (name : Vector UInt8 11) : reads (sfatDentryLocate fs start name) := by
  refine obeys_request trivial fun page => ?_
  cases page with
  | none => trivial
  | some addr =>
    apply reads_bind (locateClusters_reads name fs.clusters start)
    intro r
    cases r with
    | error e => trivial
    | ok r =>
      cases r with
      | none => trivial
      | some found => trivial

theorem countBlocks_reads (n blk count : ℕ) : reads (countBlocks fs n blk count) := by
  induction n generalizing blk count with
  | zero => trivial
  | succ n ih =>
    refine obeys_request trivial fun data => ?_
    cases data with
    | none => trivial
    | some data =>
      cases hscan : countSlots data ((fs.blockSize + 31) / 32) 0 count with
      | next count =>
        simp only [hscan]
        exact ih _ _
      | out count =>
        simp only [hscan]
        trivial

theorem countClusters_reads (rounds cls count : ℕ) : reads (countClusters fs rounds cls count) := by
  induction rounds generalizing cls count with
  | zero => trivial
  | succ rounds ih =>
    rw [countClusters]
    split
    · trivial
    · apply reads_bind (countBlocks_reads fs.blkPerClus _ count)
      intro r
      cases r with
      | out r => trivial
      | next count =>
        apply reads_bind (getEntry_reads fs cls)
        intro r
        cases r with
        | error e => trivial
        | ok next =>
          show reads (if _ then _ else _)
          split
          · trivial
          · exact ih next count

theorem countSubdirs_reads (start size : ℕ) : reads (sfatCountSubdirs fs start size) := by
  rw [sfatCountSubdirs]
  split
  · trivial
  · refine obeys_request trivial fun page => ?_
    cases page with
    | none => trivial
    | some addr =>
      apply reads_bind (countClusters_reads (dirRounds fs size) start 0)
      intro r
      cases r with
      | error e => trivial
      | ok count => trivial

theorem readdirSlots_reads (data : Page) (n offset : ℕ) (st : ReaddirState) :
    reads (readdirSlots data n offset st) := by
  induction n generalizing offset st with
  | zero => trivial
  | succ n ih =>
    rw [readdirSlots]
    simp only []
    split
    · trivial
    · split
      · exact ih _ _
      · refine obeys_request trivial fun ino => obeys_request trivial fun error => ?_
        split
        · trivial
        · exact ih _ _

theorem readdirBlocks_reads (n blk offset : ℕ) (st : ReaddirState) :
    reads (readdirBlocks fs n blk offset st) := by
  induction n generalizing blk offset st with
  | zero => trivial
  | succ n ih =>
    refine obeys_request trivial fun data => ?_
    cases data with
    | none => trivial
    | some data =>
      apply reads_bind (readdirSlots_reads data _ offset _)
      intro r
      cases r with
      | out st => trivial
      | next st => exact ih _ _ _

theorem readdirClusters_reads (rounds cls blkOff offset : ℕ) (st : ReaddirState) :
    reads (readdirClusters fs rounds cls blkOff offset st) := by
  induction rounds generalizing cls blkOff offset st with
  | zero => trivial
  | succ rounds ih =>
    apply reads_bind (readdirBlocks_reads _ _ offset st)
    intro r
    cases r with
    | out st => trivial
    | next st =>
      apply reads_bind (getEntry_reads fs cls)
      intro r
      cases r with
      | error e => trivial
      | ok next =>
        show reads (if _ then _ else _)
        split
        · trivial
        · exact ih _ _ _ _

/-- **A listing** writes nothing. -/
theorem readdir_reads (start size fPos : ℕ) : reads (sfatReaddir fs start size fPos) := by
  rw [sfatReaddir]
  simp only []
  split
  · trivial
  · split
    · trivial
    · split
      · trivial
      · apply reads_bind (seek_reads start fPos)
        intro r
        cases r with
        | error e => trivial
        | ok found =>
          refine obeys_request trivial fun page => ?_
          cases page with
          | none => trivial
          | some addr => exact readdirClusters_reads _ _ _ _ _

end Directories

/-! ### Inodes and mounts -/

section Inodes

variable {sbi : SbInfo}

theorem fillInode_reads (inode : Inode) (de : SfatDirEntry) (iPos : ℕ) :
    reads (sfatFillInode sbi inode de iPos) := by
  rw [sfatFillInode]
  refine obeys_request trivial fun now => ?_
  simp only []
  split
  · apply reads_bind (countSubdirs_reads _ _)
    intro count
    trivial
  · trivial

theorem buildInode_reads (de : SfatDirEntry) (iPos : ℕ) : reads (sfatBuildInode sbi de iPos) := by
  refine obeys_request trivial fun stale => ?_
  cases stale with
  | none => trivial
  | some stale =>
    refine obeys_request trivial fun ino => ?_
    apply reads_bind (fillInode_reads _ de iPos)
    intro inode
    trivial

/-- **A lookup** writes nothing. -/
theorem lookup_reads (dir : Inode) (n : List UInt8) : reads (sfatLookup sbi dir n) := by
  apply reads_bind (locate_reads dir.iStart (padName n))
  intro r
  cases r with
  | error e =>
    show reads (if _ then _ else _)
    split
    · trivial
    · trivial
  | ok found =>
    apply reads_bind (buildInode_reads found.de _)
    intro r
    cases r with
    | error e => trivial
    | ok inode => trivial

theorem readRoot_reads (ub : UndefinedShift) (inode : Inode) : reads (sfatReadRoot ub sbi inode) := by
  apply reads_bind (countSubdirs_reads _ _)
  intro r
  cases r with
  | error e => trivial
  | ok count =>
    show reads (if _ then _ else _)
    split
    · trivial
    · trivial

/-- **A mount** writes nothing. -/
theorem fillSuper_reads (ub : UndefinedShift) (blockSize : ℕ) (options : MountOptions) :
    reads (sfatFillSuperImpl ub blockSize options) := by
  have hread : ∀ sbi inode, reads (sfatReadRoot ub sbi inode) := fun sbi => readRoot_reads ub
  generalize hf : sfatReadRoot ub = readRoot at hread
  rw [sfatFillSuperImpl, hf]
  refine obeys_request trivial fun page => ?_
  cases page with
  | none => trivial
  | some addr =>
    refine obeys_request trivial fun data => ?_
    cases data with
    | none => trivial
    | some data =>
      show reads (if _ then _ else _)
      split
      · refine obeys_request trivial fun stale => ?_
        cases stale with
        | none => trivial
        | some stale =>
          apply reads_bind (hread _ _)
          intro r
          cases r with
          | error e => trivial
          | ok root =>
            refine obeys_request trivial fun ok => ?_
            cases ok with
            | false => trivial
            | true => trivial
      · trivial

end Inodes

/-! ### Reads of a file -/

theorem readClusterLoop_reads (fuel len blk off : ℕ) (out : List UInt8) :
    reads (readClusterLoop fs fuel len blk off out) := by
  induction fuel generalizing len blk off out with
  | zero => trivial
  | succ fuel ih =>
    rw [readClusterLoop]
    split
    · trivial
    · refine obeys_request trivial fun data => ?_
      cases data with
      | none => trivial
      | some data =>
        refine obeys_request trivial fun copied => ?_
        simp only []
        split
        · trivial
        · exact ih _ _ _ _

theorem readCluster_reads (len cls offset : ℕ) : reads (sfatReadCluster fs len cls offset) := by
  refine obeys_request trivial fun page => ?_
  cases page with
  | none => trivial
  | some addr => exact readClusterLoop_reads _ _ _ _ _

/-- A flush writes one block. -/
theorem flush_writesOnly (inode : Inode) :
    obeys (WritesOnly fs.blockSize (loffShiftRight inode.iPos fs.blockBits)) (fun _ => True)
      (sfatInodeWriteToHd fs inode) := by
  rw [sfatInodeWriteToHd]
  split
  · trivial
  · refine obeys_request trivial fun page => ?_
    cases page with
    | none => trivial
    | some addr =>
      refine obeys_request trivial fun data => ?_
      cases data with
      | none => trivial
      | some data =>
        refine obeys_request ⟨rfl, rfl⟩ fun ok => ?_
        cases ok with
        | false => trivial
        | true => trivial

/-- **A read of a file** writes at most the block that `i_pos` names. -/
theorem syncRead_writesOnly (inode : Inode) (len ppos : ℕ) :
    obeys (WritesOnly fs.blockSize (loffShiftRight inode.iPos fs.blockBits)) (fun _ => True)
      (sfatSyncRead fs inode len ppos) := by
  have hread : ∀ len, obeys (WritesOnly fs.blockSize (loffShiftRight inode.iPos fs.blockBits))
      (fun _ => True) (sfatReadCluster fs len inode.iStart ppos) := fun len =>
    obeys_mono (readCluster_reads len inode.iStart ppos) (fun _ h => h.only _ _) fun _ h => h
  rw [sfatSyncRead]
  simp only []
  generalize (if fs.clusterSize < _ then fs.clusterSize - ppos else _) = count
  split
  · trivial
  · split
    · trivial
    · split
      · trivial
      · split
        · trivial
        · apply obeys_bind (hread _)
          intro r _
          refine obeys_request trivial fun t => ?_
          apply obeys_bind (@flush_writesOnly fs { inode with iAtime := t })
          intro r _
          trivial

/-! ### The result -/

section Result

variable {H : Host} {v w : Vol}

/-- A program that writes no block leaves the volume alone. -/
theorem vol_of_reads {p : Driver α} (h : Reaches H.world p v w) (hp : reads p) : w = v :=
  h.preserves (I := (· = v)) (fun _ _ _ _ hc hw hs => (hc.vol_eq hw).trans hs) hp rfl

theorem wp_of_reads {p : Driver α} (hp : reads p) : wp H.world p (fun _ w => w = v) v :=
  (wp_iff_exec _ _ _).mpr fun _ _ _ he => vol_of_reads he.reaches hp

/-- A program that writes one block leaves the others alone. -/
theorem byte_of_writesOnly {p : Driver α} {sz blk a : ℕ} (h : Reaches H.world p v w)
    (hp : obeys (WritesOnly sz blk) (fun _ => True) p) (ha : a < blk * sz ∨ blk * sz + sz ≤ a) :
    w a = v a :=
  h.preserves (I := fun u => u a = v a) (fun _ _ _ _ hc hw hs => (hc.apply_eq hw ha).trans hs) hp rfl

/-- **What the reading calls write**, in any environment, on any volume and at any time: lookups,
listings and mounts nothing at all, a read of a file at most the block that the `i_pos` of its inode
names. -/
theorem reading_calls_write (H : Host) (ub : UndefinedShift) (options : MountOptions)
    (blockSize : ℕ) (sbi : SbInfo) (dir inode : Inode) (n : List UInt8) (fPos len ppos : ℕ)
    (v : Vol) :
    (∀ w, Reaches H.world (sfatLookup sbi dir n) v w → w = v) ∧
    (∀ w, Reaches H.world (sfatReaddir sbi.fsInfo dir.iStart dir.iSize fPos) v w → w = v) ∧
    (∀ w, Reaches H.world (sfatFillSuperImpl ub blockSize options) v w → w = v) ∧
    (∀ w, Reaches H.world (sfatSyncRead sbi.fsInfo inode len ppos) v w → ∀ a,
      a / sbi.fsInfo.blockSize ≠ loffShiftRight inode.iPos sbi.fsInfo.blockBits → w a = v a) := by
  refine ⟨fun w h => vol_of_reads h (lookup_reads dir n),
    fun w h => vol_of_reads h (readdir_reads _ _ _),
    fun w h => vol_of_reads h (fillSuper_reads ub blockSize options), fun w h a ha => ?_⟩
  apply byte_of_writesOnly h (syncRead_writesOnly inode len ppos)
  by_contra hin
  simp only [not_or, not_lt, not_le] at hin
  refine ha (Nat.div_eq_of_lt_le hin.1 ?_)
  rw [Nat.add_mul, Nat.one_mul]
  exact hin.2

end Result

end SimpleFat

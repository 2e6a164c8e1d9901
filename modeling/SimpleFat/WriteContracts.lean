import SimpleFat.FatReliable

/-!
# Which blocks the driver writes

The driver writes the first copy of the FAT and the data area.  The results are contracts, which no
answer of the environment can break: they hold whatever fails and whatever a lookup of the FAT
delivers.

* `acquire_obeys`, `modify_obeys` — updates of the FAT write blocks of its first copy;
* `syncWrite_obeys`, `createFile_obeys` — the two calls write these and the data area, and the
  inodes they leave behind have their entries there.
-/

namespace SimpleFat

open SimpleFat.Lib

/-! ### Block writes -/

/-- A write is to a block of the first copy of the FAT. -/
def WritesFirstCopy (fs : FsInfo) : Request → Prop
  | .writeBlock sz b _ => sz = fs.blockSize ∧ fs.fatStartBlk ≤ b ∧ b < fs.fatStartBlk + fs.fatLengthBlk
  | _ => True

/-- A write is to a block of the first copy of the FAT or of the data area. -/
def SparesCopies (fs : FsInfo) : Request → Prop
  | .writeBlock sz b _ => sz = fs.blockSize ∧
      (fs.fatStartBlk ≤ b ∧ b < fs.fatStartBlk + fs.fatLengthBlk ∨ fs.dataStartBlk ≤ b)
  | _ => True

theorem WritesFirstCopy.spares {fs : FsInfo} (c : Request) (h : WritesFirstCopy fs c) :
    SparesCopies fs c := by
  cases c with
  | writeBlock sz b d => exact ⟨h.1, .inl h.2⟩
  | _ => trivial

abbrev spares (fs : FsInfo) {α : Type} (Q : α → Prop) (p : Driver α) : Prop :=
  obeys (SparesCopies fs) Q p

variable {fs : FsInfo} {α : Type}

/-! ### Reads and updates of the FAT -/

/-- A lookup reads. -/
theorem getEntry_obeys (fs : FsInfo) (cls : ℕ) : spares fs (fun _ => True) (sfatGetEntryContent fs cls) := by
  rw [sfatGetEntryContent]
  split
  · trivial
  · refine obeys_request trivial fun page => ?_
    cases page with
    | none => trivial
    | some addr =>
      refine obeys_request trivial fun data => ?_
      cases data with
      | none => trivial
      | some data => exact ⟨trivial, fun _ => trivial⟩

/-- A seek reads, and finds a cluster whose number fits a FAT word. -/
theorem seekLoop_obeys (hclus : fs.clusters < 2 ^ 32) (fuel : ℕ) {cls pos : ℕ} (hcls : cls < 2 ^ 32) :
    spares fs (fun r => ∀ x, r = .ok x → x.1 < 2 ^ 32) (sfatSeekLoop fs fuel cls pos) := by
  induction fuel generalizing cls pos with
  | zero =>
    rw [sfatSeekLoop]
    split
    · intro x hx
      cases hx
    · intro x hx
      cases hx
      exact hcls
  | succ fuel ih =>
    rw [sfatSeekLoop]
    split
    · apply obeys_bind (getEntry_obeys fs cls)
      intro r _
      cases r with
      | error e =>
        intro x hx
        cases hx
      | ok next =>
        show spares fs _ (if _ then _ else _)
        split
        · intro x hx
          cases hx
        · exact ih (by omega)
    · intro x hx
      cases hx
      exact hcls

theorem seek_obeys (hclus : fs.clusters < 2 ^ 32) {cls pos : ℕ} (hcls : cls < 2 ^ 32) :
    spares fs (fun r => ∀ x, r = .ok x → x.1 < 2 ^ 32) (sfatSeek fs cls pos) := by
  rw [sfatSeek]
  split
  · intro x hx
    cases hx
  · exact seekLoop_obeys hclus pos hcls

theorem findFree_lt {data : Page} {n k i : ℕ} (h : findFree data n k = some i) : i < k + n := by
  induction n generalizing k with
  | zero => cases h
  | succ n ih =>
    rw [findFree] at h
    split at h
    · cases h
      omega
    · have := ih h
      omega

theorem acquireBlocks_obeys (hword : WordBlocks fs) (n : ℕ) {blk : ℕ} (hblk : fs.fatStartBlk ≤ blk)
    (hend : blk + n = fs.fatStartBlk + fs.fatLengthBlk) :
    obeys (WritesFirstCopy fs) (fun r => ∀ c, r = .ok c → c < fatWords fs) (acquireBlocks fs n blk) := by
  induction n generalizing blk with
  | zero =>
    intro c hc
    cases hc
  | succ n ih =>
    rw [acquireBlocks]
    refine obeys_request trivial fun data => ?_
    cases data with
    | none =>
      intro c hc
      cases hc
    | some data =>
      cases hfind : findFree data (fs.blockSize / 4) 0 with
      | none =>
        simp only [hfind]
        exact ih (by omega) (by omega)
      | some k =>
        simp only [hfind]
        refine obeys_request ⟨rfl, hblk, by omega⟩ fun ok => ?_
        cases ok with
        | false =>
          intro c hc
          cases hc
        | true =>
          intro c hc
          cases hc
          have hk := findFree_lt hfind
          obtain ⟨w, hw, hbs⟩ := hword.blockSize_words
          have hdiv : fs.blockSize / 4 = 2 ^ w := by omega
          have hrow : (blk - fs.fatStartBlk + 1) * 2 ^ w ≤ fs.fatLengthBlk * 2 ^ w :=
            Nat.mul_le_mul_right _ (by omega)
          rw [Nat.add_mul, Nat.one_mul] at hrow
          rw [fatWords, hw, Nat.shiftLeft_eq, hdiv]
          omega

/-- **An allocation writes the first copy**, and returns the number of one of its words. -/
theorem acquire_obeys (hword : WordBlocks fs) :
    obeys (WritesFirstCopy fs) (fun r => ∀ c, r = .ok c → c < fatWords fs)
      (sfatFatEntryAcquire fs) := by
  refine obeys_request trivial fun page => ?_
  cases page with
  | none =>
    intro c hc
    cases hc
  | some addr => exact acquireBlocks_obeys hword fs.fatLengthBlk (Nat.le_refl _) rfl

/-- **A change of a word writes the first copy.** -/
theorem modify_obeys (hp : Placed fs) (cls attr : ℕ) :
    obeys (WritesFirstCopy fs) (fun _ => True) (sfatFatEntryModify fs cls attr) := by
  rw [sfatFatEntryModify]
  split
  · trivial
  · rename_i hcls
    have hlt := fatBlk_lt hp (Nat.lt_of_succ_lt (lt_clusters_of_accepted hp hcls))
    refine obeys_request trivial fun page => ?_
    cases page with
    | none => trivial
    | some addr =>
      refine obeys_request trivial fun data => ?_
      cases data with
      | none => trivial
      | some data =>
        refine obeys_request ⟨rfl, fatBlk_ge cls, hlt⟩ fun ok => ?_
        cases ok with
        | false => trivial
        | true => trivial

theorem append_obeys (hp : Placed fs) (endCls n cls : ℕ) :
    spares fs (fun _ => True) (appendLoop fs endCls n cls) := by
  induction n generalizing cls with
  | zero => trivial
  | succ n ih =>
    apply obeys_bind (getEntry_obeys fs cls)
    intro r _
    cases r with
    | error e => trivial
    | ok next =>
      show spares fs _ (if next = sfatEntryEoc then _ else _)
      split
      · exact obeys_mono (modify_obeys hp cls endCls) WritesFirstCopy.spares fun _ h => h
      · split
        · trivial
        · exact ih next

/-! ### Writes to the data area -/

/-- A write to a block of the data area. -/
theorem spares_writeBlock {Q : α → Prop} {b : ℕ} {d : Page} {f : Bool → Driver α}
    (hb : fs.dataStartBlk ≤ b) (hf : ∀ ok, spares fs Q (f ok)) :
    spares fs Q (writeBlock fs.blockSize b d >>= f) :=
  obeys_request ⟨rfl, .inr hb⟩ hf

def StaysInData (fs : FsInfo) (r : Loop WriteClusterState (ℕ × Option Errno)) : Prop :=
  ∀ st, r = .next st → fs.dataStartBlk ≤ st.blk

theorem staysInData_out {r : ℕ × Option Errno} : StaysInData fs (.out r) := by
  intro st hst
  cases hst

theorem staysInData_next {st : WriteClusterState} (h : fs.dataStartBlk ≤ st.blk) :
    StaysInData fs (.next st) := by
  intro st' hst
  cases hst
  exact h

theorem copyAndWrite_obeys {st : WriteClusterState} (hst : fs.dataStartBlk ≤ st.blk) (data : Page)
    (off n : ℕ) : spares fs (StaysInData fs) (copyAndWrite fs st data off n) := by
  refine obeys_request trivial fun copied => ?_
  show spares fs _ (if copied ≠ 0 then _ else _)
  split
  · exact staysInData_out
  · apply spares_writeBlock hst
    intro ok
    cases ok with
    | false => exact staysInData_out
    | true => exact staysInData_next (Nat.le_succ_of_le hst)

theorem writeFirstBlock_obeys {st : WriteClusterState} (hst : fs.dataStartBlk ≤ st.blk) (off : ℕ) :
    spares fs (StaysInData fs) (writeFirstBlock fs st off) := by
  rw [writeFirstBlock]
  split
  · exact staysInData_next hst
  · refine obeys_request trivial fun data => ?_
    cases data with
    | none => exact staysInData_out
    | some data => exact copyAndWrite_obeys hst data off _

theorem writeWholeBlocks_obeys (fuel : ℕ) {st : WriteClusterState} (hst : fs.dataStartBlk ≤ st.blk) :
    spares fs (StaysInData fs) (writeWholeBlocks fs fuel st) := by
  induction fuel generalizing st with
  | zero => exact staysInData_next hst
  | succ fuel ih =>
    rw [writeWholeBlocks]
    split
    · apply obeys_bind (copyAndWrite_obeys hst st.buf 0 fs.blockSize)
      intro r hr
      cases r with
      | out r => exact staysInData_out
      | next st' => exact ih (hr st' rfl)
    · exact staysInData_next hst

theorem writeLastBlock_obeys {st : WriteClusterState} (hst : fs.dataStartBlk ≤ st.blk) :
    spares fs (fun _ => True) (writeLastBlock fs st) := by
  rw [writeLastBlock]
  split
  · trivial
  · refine obeys_request trivial fun data => ?_
    cases data with
    | none => trivial
    | some data =>
      apply obeys_bind (copyAndWrite_obeys hst data 0 st.len)
      intro r _
      cases r with
      | out r => trivial
      | next st' => trivial

/-- A cluster lies in the data area. -/
theorem dataStart_le_clsToBlk (hp : Placed fs) {cls : ℕ} (hcls : cls < 2 ^ 32) :
    fs.dataStartBlk ≤ clsToBlk fs cls := by
  rw [hp.clsToBlk_eq hcls]
  exact Nat.le_add_right _ _

theorem writeCluster_obeys (hp : Placed fs) (buf : ℕ → UInt8) (len : ℕ) {cls : ℕ}
    (hcls : cls < 2 ^ 32) (offset : ℕ) :
    spares fs (fun _ => True) (sfatWriteCluster fs buf len cls offset) := by
  have hblk : fs.dataStartBlk ≤ clsToBlk fs cls + offset >>> fs.blockBits :=
    Nat.le_add_right_of_le (dataStart_le_clsToBlk hp hcls)
  refine obeys_request trivial fun page => ?_
  cases page with
  | none => trivial
  | some addr =>
    refine obeys_bind (writeFirstBlock_obeys ?_ _) fun r hr => ?_
    · exact hblk
    · cases r with
      | out r => trivial
      | next st =>
        apply obeys_bind (writeWholeBlocks_obeys _ (hr st rfl))
        intro r hr
        cases r with
        | out r => trivial
        | next st => exact writeLastBlock_obeys (hr st rfl)

theorem writeChunk_obeys (hp : Placed fs) (st : SyncWriteState) (hcls : st.curCls < 2 ^ 32)
    (offset : ℕ) : spares fs (fun _ => True) (writeChunk fs st offset) := by
  apply obeys_bind (writeCluster_obeys hp st.buf _ hcls offset)
  intro r _
  show spares fs _ (if r.1 < _ then _ else _)
  split
  · trivial
  · trivial

/-! ### `sfat_sync_write` -/

theorem writeExisting_obeys (hp : Placed fs) (fuel : ℕ) (st : SyncWriteState) :
    spares fs (fun _ => True) (writeExisting fs fuel st) := by
  induction fuel generalizing st with
  | zero =>
    rw [writeExisting]
    split
    · trivial
    · trivial
  | succ fuel ih =>
    rw [writeExisting]
    split
    · trivial
    · apply obeys_bind (getEntry_obeys fs st.curCls)
      intro r _
      cases r with
      | error e => trivial
      | ok next =>
        show spares fs _ (if next < sfatEntryMax then _ else _)
        split
        · rename_i hnext
          rw [sfatEntryMax] at hnext
          refine obeys_bind (writeChunk_obeys hp { st with curCls := next } ?_ 0) fun r _ => ?_
          · exact Nat.lt_trans hnext (by decide)
          · cases r with
            | out r => trivial
            | next st' => exact ih st'
        · trivial

theorem acquire_spares (hp : Placed fs) :
    spares fs (fun r => ∀ c, r = .ok c → c < 2 ^ 32) (sfatFatEntryAcquire fs) :=
  obeys_mono (acquire_obeys hp.toWellFormed.wordBlocks) WritesFirstCopy.spares fun _ h c hc =>
    Nat.lt_of_lt_of_le (h c hc) hp.fat_words

theorem modify_spares (hp : Placed fs) (cls attr : ℕ) :
    spares fs (fun _ => True) (sfatFatEntryModify fs cls attr) :=
  obeys_mono (modify_obeys hp cls attr) WritesFirstCopy.spares fun _ h => h

theorem writeNew_obeys (hp : Placed fs) (fuel : ℕ) (st : SyncWriteState) :
    spares fs (fun _ => True) (writeNew fs fuel st) := by
  induction fuel generalizing st with
  | zero =>
    rw [writeNew]
    split
    · trivial
    · trivial
  | succ fuel ih =>
    rw [writeNew]
    split
    · trivial
    · apply obeys_bind (acquire_spares hp)
      intro r hr
      cases r with
      | error e => trivial
      | ok c =>
        apply obeys_bind (modify_spares hp st.curCls c)
        intro e _
        cases e with
        | some e => trivial
        | none =>
          refine obeys_bind (writeChunk_obeys hp { st with curCls := c } ?_ 0) fun r _ => ?_
          · exact hr c rfl
          · cases r with
            | out r => trivial
            | next st' => exact ih st'

theorem writeInside_obeys (hp : Placed fs) {st : SyncWriteState} (hcls : st.curCls < 2 ^ 32) :
    spares fs (fun _ => True) (writeInside fs st) := by
  have hclus : fs.clusters < 2 ^ 32 := Nat.lt_trans hp.clusters_lt (by decide)
  apply obeys_bind (seek_obeys hclus hcls)
  intro r hr
  cases r with
  | error e => trivial
  | ok x =>
    refine obeys_bind (writeChunk_obeys hp { st with curCls := x.1 } ?_ x.2) fun r _ => ?_
    · exact hr x rfl
    · cases r with
      | out r => trivial
      | next st' =>
        apply obeys_bind (writeExisting_obeys hp st'.len st')
        intro r _
        trivial

/-- The entry of the inode is a slot of the data area, or the inode has none, as that of the root;
and its first cluster fits the field of the entry. -/
structure EntryInData (fs : FsInfo) (inode : Inode) : Prop where
  flush : inode.iIno = sfatRootIno ∨ fs.dataStartBlk ≤ flushBlk fs inode
  iStart : inode.iStart < 2 ^ 32

theorem flush_obeys {inode : Inode} (h : EntryInData fs inode) :
    spares fs (fun _ => True) (sfatInodeWriteToHd fs inode) := by
  rw [sfatInodeWriteToHd]
  split
  · trivial
  · rename_i hroot
    refine obeys_request trivial fun page => ?_
    cases page with
    | none => trivial
    | some addr =>
      refine obeys_request trivial fun data => ?_
      cases data with
      | none => trivial
      | some data =>
        apply spares_writeBlock (h.flush.resolve_left hroot)
        intro ok
        cases ok with
        | false => trivial
        | true => trivial

theorem writeAtEnd_obeys (hp : Placed fs) {st : SyncWriteState} (hcls : st.curCls < 2 ^ 32)
    (fsize : ℕ) : spares fs (fun r => ∀ c, r.2 = some c → c < 2 ^ 32) (writeAtEnd fs st fsize) := by
  have hclus : fs.clusters < 2 ^ 32 := Nat.lt_trans hp.clusters_lt (by decide)
  rw [writeAtEnd]
  split
  · apply obeys_bind (seek_obeys hclus hcls)
    intro r _
    cases r with
    | error e =>
      intro c hc
      cases hc
    | ok x =>
      intro c hc
      cases hc
  · apply obeys_bind (acquire_spares hp)
    intro r hr
    cases r with
    | error e =>
      intro c hc
      cases hc
    | ok d =>
      refine obeys_bind (writeChunk_obeys hp { st with curCls := d } (hr d rfl) 0) fun r _ => ?_
      cases r with
      | out r =>
        intro c hc
        simp only [] at hc
        split at hc
        · cases hc
          exact hr _ rfl
        · cases hc
      | next st' =>
        intro c hc
        cases hc
        exact hr _ rfl

abbrev KeepsEntry (fs : FsInfo) (r : Except Errno ℕ × Inode × ℕ) : Prop := EntryInData fs r.2.1

theorem writeEnd_obeys {inode : Inode} (h : EntryInData fs inode) (st : SyncWriteState) :
    spares fs (KeepsEntry fs) (writeEnd fs inode st) := by
  refine obeys_request trivial fun tvSec => ?_
  have h' : EntryInData fs { inode with
      iSize := max inode.iSize st.ppos
      iMtime := tvSec
      iAtime := tvSec
      iBlocks := consumedBlocks (max inode.iSize st.ppos) fs.clusterSize fs.blockBits } :=
    ⟨h.flush, h.iStart⟩
  apply obeys_bind (flush_obeys h')
  intro r _
  exact h'

theorem writeRest_obeys (hp : Placed fs) {inode : Inode} (h : EntryInData fs inode) (ppos : ℕ)
    (r : Option (Loop SyncWriteState SyncWriteState)) :
    spares fs (KeepsEntry fs) (writeRest fs inode ppos r) := by
  cases r with
  | none => exact h
  | some r =>
    cases r with
    | out st => exact writeEnd_obeys h st
    | next st =>
      apply obeys_bind (writeNew_obeys hp st.len st)
      intro r _
      cases r with
      | none => exact h
      | some st => exact writeEnd_obeys h st

/-- **`sfat_sync_write` spares the other copies.** -/
theorem syncWrite_obeys (hp : Placed fs) {inode : Inode} (h : EntryInData fs inode)
    (buf : ℕ → UInt8) (len ppos : ℕ) :
    spares fs (KeepsEntry fs) (sfatSyncWrite fs inode buf len ppos) := by
  rw [sfatSyncWrite]
  simp only []
  split
  · exact h
  · split
    · refine obeys_bind (writeInside_obeys hp ?_) fun r _ => ?_
      · exact h.iStart
      · cases r with
        | error e => exact h
        | ok r => exact writeRest_obeys hp h ppos r
    · refine obeys_bind (writeAtEnd_obeys hp ?_ inode.iSize) fun r hr => ?_
      · exact h.iStart
      · apply writeRest_obeys hp
        refine ⟨h.flush, ?_⟩
        show r.2.getD inode.iStart < 2 ^ 32
        cases hnew : r.2 with
        | none => exact h.iStart
        | some c => exact hr c hnew

/-! ### `sfat_create_file` -/

theorem locateBlocks_obeys (name : Vector UInt8 11) (cls n blk : ℕ) :
    spares fs (fun _ => True) (locateBlocks fs name cls n blk) := by
  induction n generalizing blk with
  | zero => trivial
  | succ n ih =>
    rw [locateBlocks]
    refine obeys_request trivial fun data => ?_
    cases data with
    | none => trivial
    | some data =>
      cases hscan : locateSlots name data fs.direntPerBlk 0 with
      | next u =>
        simp only [hscan]
        exact ih _
      | out r =>
        simp only [hscan]
        cases r with
        | none => trivial
        | some r => trivial

theorem locateClusters_obeys (name : Vector UInt8 11) (n cls : ℕ) :
    spares fs (fun _ => True) (locateClusters fs name n cls) := by
  induction n generalizing cls with
  | zero => trivial
  | succ n ih =>
    apply obeys_bind (locateBlocks_obeys name cls fs.blkPerClus _)
    intro r _
    cases r with
    | out r => trivial
    | next u =>
      apply obeys_bind (getEntry_obeys fs cls)
      intro r _
      cases r with
      | error e => trivial
      | ok next =>
        show spares fs _ (if fs.clusters < next then _ else _)
        split
        · trivial
        · exact ih next

theorem locate_obeys (start : ℕ) (name : Vector UInt8 11) :
    spares fs (fun _ => True) (sfatDentryLocate fs start name) := by
  refine obeys_request trivial fun page => ?_
  cases page with
  | none => trivial
  | some addr =>
    apply obeys_bind (locateClusters_obeys name fs.clusters start)
    intro r _
    cases r with
    | error e => trivial
    | ok r =>
      cases r with
      | none => trivial
      | some found => trivial

/-- A free slot that is reported is one of a cluster whose number fits a FAT word. -/
structure SlotReported (fs : FsInfo) (s : FreeSlot) : Prop where
  cls_lt : s.cls < 2 ^ 32
  blk_lt : s.blk < fs.blkPerClus
  slot : ∃ k < fs.direntPerBlk, s.offset = k * 32

theorem freeSlots_lt {data : Page} {n k i : ℕ} (h : freeSlots data n k = some i) : i < k + n := by
  induction n generalizing k with
  | zero => cases h
  | succ n ih =>
    rw [freeSlots] at h
    split at h
    · cases h
      omega
    · have := ih h
      omega

theorem freeBlocks_obeys {cls : ℕ} (hcls : cls < 2 ^ 32) (n : ℕ) {blk : ℕ}
    (hblk : clsToBlk fs cls ≤ blk) (hend : blk + n = clsToBlk fs cls + fs.blkPerClus) :
    spares fs (fun r => ∀ s, r = .out (.ok s) → SlotReported fs s) (freeBlocks fs cls n blk) := by
  induction n generalizing blk with
  | zero =>
    intro s hs
    cases hs
  | succ n ih =>
    rw [freeBlocks]
    refine obeys_request trivial fun data => ?_
    cases data with
    | none =>
      intro s hs
      cases hs
    | some data =>
      cases hscan : freeSlots data fs.direntPerBlk 0 with
      | none =>
        simp only [hscan]
        exact ih (by omega) (by omega)
      | some k =>
        simp only [hscan]
        intro s hs
        cases hs
        have hk := freeSlots_lt hscan
        exact ⟨hcls, by show blk - clsToBlk fs cls < _; omega, k, by omega, rfl⟩

theorem freeClusters_obeys (hclus : fs.clusters < 2 ^ 32) (n : ℕ) {cls : ℕ} (hcls : cls < 2 ^ 32) :
    spares fs (fun r => ∀ s, r = .ok s → SlotReported fs s) (freeClusters fs n cls) := by
  induction n generalizing cls with
  | zero =>
    intro s hs
    cases hs
  | succ n ih =>
    apply obeys_bind (freeBlocks_obeys hcls fs.blkPerClus (Nat.le_refl _) rfl)
    intro r hr
    cases r with
    | out r =>
      intro s hs
      exact hr s (congrArg _ hs)
    | next u =>
      apply obeys_bind (getEntry_obeys fs cls)
      intro r _
      cases r with
      | error e =>
        intro s hs
        cases hs
      | ok next =>
        show spares fs _ (if fs.clusters < next then _ else _)
        split
        · intro s hs
          cases hs
        · exact ih (by omega)

/-- A block of a cluster, computed in `size_t`, lies in the data area. -/
theorem block_in_data (hp : Placed fs) {cls blk : ℕ} (hcls : cls < 2 ^ 32)
    (hblk : blk < fs.blkPerClus) : fs.dataStartBlk ≤ (clsToBlk fs cls + blk) % sizeT := by
  have hlt := (hp.clsToBlk_lt hcls).1
  have hge := dataStart_le_clsToBlk hp hcls
  rw [sizeT]
  omega

/-- The address of a slot leads back to the data area. -/
theorem position_in_data (hp : Placed fs) {cls blk k : ℕ} (hcls : cls < 2 ^ 32)
    (hblk : blk < fs.blkPerClus) (hk : k < fs.direntPerBlk) :
    fs.dataStartBlk ≤ loffShiftRight (formDirEntryPos fs cls blk (k * 32)) fs.blockBits := by
  have hlt := slotAddr_lt hp hcls hblk hk
  have hge := dataStart_le_clsToBlk hp hcls
  have hpos : 0 < fs.blockSize := by
    rw [hp.blockSize_eq]
    exact Nat.two_pow_pos _
  rw [formDirEntryPos_eq hp hcls hblk hk, loffShiftRight, if_pos (by omega),
    Nat.shiftRight_eq_div_pow, ← hp.blockSize_eq, Nat.le_div_iff_mul_le hpos, slotAddr]
  have hmul := Nat.mul_le_mul_right fs.blockSize (Nat.le_add_right_of_le (k := blk) hge)
  omega

/-- The two locals that `sfat_create_file` reads before it sets them happen to be a block of a
cluster and a cluster. -/
structure BenignJunk (fs : FsInfo) (junk : CreateJunk) : Prop where
  blk_lt : junk.blk < fs.blkPerClus
  nextCls_lt : junk.nextCls < fs.clusters

theorem writeTerminator_obeys (hp : Placed fs) {cls blk : ℕ} (hcls : cls < 2 ^ 32)
    (hblk : blk < fs.blkPerClus) : spares fs (fun r => ∀ x, r = some x → ∀ i, x ≠ .ok (some i))
      (createWriteTerminator fs cls blk) := by
  refine obeys_request trivial fun data => ?_
  cases data with
  | none =>
    intro x hx i
    cases hx
    simp
  | some data =>
    refine spares_writeBlock (block_in_data hp hcls hblk) fun ok => ?_
    cases ok with
    | false =>
      intro x hx i
      cases hx
      simp
    | true =>
      intro x hx
      cases hx

theorem moveTerminator_obeys (hp : Placed fs) (cls : ℕ) {blk : ℕ} {junk : CreateJunk}
    (hjunk : BenignJunk fs junk) : spares fs (fun r => ∀ x, r = some x → ∀ i, x ≠ .ok (some i))
      (createMoveTerminator fs cls blk junk) := by
  have hclus : fs.clusters < 2 ^ 32 := Nat.lt_trans hp.clusters_lt (by decide)
  rw [createMoveTerminator]
  split
  · rename_i hblk
    exact writeTerminator_obeys hp (Nat.lt_trans hjunk.nextCls_lt hclus) (by omega)
  · apply obeys_bind (getEntry_obeys fs cls)
    intro r _
    cases r with
    | error e =>
      intro x hx i
      cases hx
      simp
    | ok next =>
      show spares fs _ (if next = sfatEntryEoc then _ else _)
      split
      · intro x hx
        cases hx
      · split
        · intro x hx i
          cases hx
          simp
        · exact writeTerminator_obeys hp (by omega) hp.blkPerClus_pos

/-- The inodes that a call of `sfat_create_file` leaves in memory have their entries in the data
area. -/
def CreatesInData (fs : FsInfo) (r : CreateReturn × Inode) : Prop :=
  EntryInData fs r.2 ∧ ∀ i, r.1 = .ok (some i) → EntryInData fs i

variable {sbi : SbInfo} {dir : Inode}

/-- A new file is built from its entry. -/
theorem buildFile_obeys {de : SfatDirEntry} (hfile : de.isDir = false) (hstart : de.fstClsNo < 2 ^ 32)
    {iPos : ℕ} (hpos : sbi.fsInfo.dataStartBlk ≤ loffShiftRight iPos sbi.fsInfo.blockBits) :
    spares sbi.fsInfo (fun r => ∀ i, r = .ok i → EntryInData sbi.fsInfo i)
      (sfatBuildInode sbi de iPos) := by
  refine obeys_request trivial fun stale => ?_
  cases stale with
  | none =>
    intro i hi
    cases hi
  | some stale =>
    refine obeys_request trivial fun ino => ?_
    simp only [sfatFillInode, hfile, Program.bind_assoc]
    refine obeys_request trivial fun now => ?_
    intro i hi
    cases hi
    exact ⟨.inr hpos, hstart⟩

theorem createFinish_obeys (hdir : EntryInData sbi.fsInfo dir) {de : SfatDirEntry}
    (hfile : de.isDir = false) (hstart : de.fstClsNo < 2 ^ 32) {iPos : ℕ}
    (hpos : sbi.fsInfo.dataStartBlk ≤ loffShiftRight iPos sbi.fsInfo.blockBits) :
    spares sbi.fsInfo (fun r => ∀ i, r = .ok (some i) → EntryInData sbi.fsInfo i)
      (createFinish sbi dir de iPos) := by
  apply obeys_bind (flush_obeys hdir)
  intro e _
  cases e with
  | some e =>
    intro i hi
    cases hi
  | none =>
    apply obeys_bind (buildFile_obeys hfile hstart hpos)
    intro r hr
    cases r with
    | error e =>
      intro i hi
      cases hi
    | ok inode =>
      intro i hi
      cases hi
      exact hr _ rfl

/-- The end of both branches. -/
theorem createEnd_obeys (hdir : EntryInData sbi.fsInfo dir) (name : Vector UInt8 11) (tvSec : ℕ)
    {iPos : ℕ} (hpos : sbi.fsInfo.dataStartBlk ≤ loffShiftRight iPos sbi.fsInfo.blockBits) :
    spares sbi.fsInfo (CreatesInData sbi.fsInfo)
      (do
        let r ← createFinish sbi dir (sfatFormDirEntry false name 0 0 tvSec) iPos
        pure (r, dir) : Driver (CreateReturn × Inode)) := by
  apply obeys_bind (createFinish_obeys hdir (formDirEntry_file name 0 0 tvSec)
    (sfatFormDirEntry_fits false name 0 0 tvSec).fstClsNo hpos)
  intro r hr
  exact ⟨hdir, hr⟩

theorem createInFreeSlot_obeys (hp : Placed sbi.fsInfo) (hdir : EntryInData sbi.fsInfo dir)
    (name : Vector UInt8 11) (tvSec : ℕ) {junk : CreateJunk} (hjunk : BenignJunk sbi.fsInfo junk)
    {slot : FreeSlot} (hslot : SlotReported sbi.fsInfo slot) :
    spares sbi.fsInfo (CreatesInData sbi.fsInfo)
      (createInFreeSlot sbi dir name tvSec junk slot) := by
  have hdir' : EntryInData sbi.fsInfo { dir with iMtime := tvSec } := ⟨hdir.flush, hdir.iStart⟩
  obtain ⟨k, hk, hoff⟩ := hslot.slot
  have hpos : sbi.fsInfo.dataStartBlk ≤ loffShiftRight
      (formDirEntryPos sbi.fsInfo slot.cls slot.blk slot.offset) sbi.fsInfo.blockBits := by
    rw [hoff]
    exact position_in_data hp hslot.cls_lt hslot.blk_lt hk
  have hblk : sbi.fsInfo.dataStartBlk ≤ clsToBlk sbi.fsInfo slot.cls + slot.blk :=
    Nat.le_add_right_of_le (dataStart_le_clsToBlk hp hslot.cls_lt)
  rw [createInFreeSlot]
  refine spares_writeBlock hblk fun ok => ?_
  cases ok with
  | false => exact ⟨hdir, by simp⟩
  | true =>
    simp only [if_true]
    split
    · apply obeys_bind (moveTerminator_obeys hp slot.cls hjunk)
      intro r hr
      cases r with
      | some r => exact ⟨hdir', fun i hi => absurd hi (hr r rfl i)⟩
      | none => exact createEnd_obeys hdir' name tvSec hpos
    · exact createEnd_obeys hdir' name tvSec hpos

theorem createInNewCluster_obeys (hp : Placed sbi.fsInfo) (hdir : EntryInData sbi.fsInfo dir)
    (name : Vector UInt8 11) (tvSec : ℕ) {junk : CreateJunk} (hjunk : BenignJunk sbi.fsInfo junk) :
    spares sbi.fsInfo (CreatesInData sbi.fsInfo) (createInNewCluster sbi dir name tvSec junk) := by
  obtain ⟨d, hd16, hd, -⟩ := hp.blockSize_slots
  rw [createInNewCluster]
  apply obeys_bind (acquire_spares hp)
  intro r hr
  cases r with
  | error e => exact ⟨hdir, by simp⟩
  | ok c =>
    have hc := hr c rfl
    have hpos := position_in_data hp hc hjunk.blk_lt (k := 0) (by omega)
    rw [Nat.zero_mul] at hpos
    apply obeys_bind (append_obeys hp c sbi.fsInfo.clusters dir.iStart)
    intro e _
    cases e with
    | some e => exact ⟨hdir, by simp⟩
    | none =>
      have hdir' : EntryInData sbi.fsInfo { dir with
          iSize := dir.iSize + sbi.fsInfo.clusterSize
          iBlocks := dir.iBlocks + sbi.fsInfo.blkPerClus
          iMtime := tvSec } := ⟨hdir.flush, hdir.iStart⟩
      refine obeys_request trivial fun data => ?_
      cases data with
      | none => exact ⟨hdir', by simp⟩
      | some data =>
        refine spares_writeBlock (dataStart_le_clsToBlk hp hc) fun ok => ?_
        cases ok with
        | false => exact ⟨hdir', by simp⟩
        | true => exact createEnd_obeys hdir' name tvSec hpos

/-- **`sfat_create_file` spares the other copies**, if the locals it never set are benign. -/
theorem createFile_obeys (hp : Placed sbi.fsInfo) (hdir : EntryInData sbi.fsInfo dir)
    (dName : List UInt8) {junk : CreateJunk} (hjunk : BenignJunk sbi.fsInfo junk) :
    spares sbi.fsInfo (CreatesInData sbi.fsInfo) (sfatCreateFile sbi dir dName junk) := by
  have hclus : sbi.fsInfo.clusters < 2 ^ 32 := Nat.lt_trans hp.clusters_lt (by decide)
  apply obeys_bind (locate_obeys dir.iStart (padName dName))
  intro r _
  cases r with
  | ok found => exact ⟨hdir, by simp⟩
  | error e =>
    show spares sbi.fsInfo _ (if e ≠ .enoent then _ else _)
    split
    · exact ⟨hdir, by simp⟩
    · refine obeys_request trivial fun page => ?_
      cases page with
      | none => exact ⟨hdir, by simp⟩
      | some addr =>
        apply obeys_bind (freeClusters_obeys hclus sbi.fsInfo.clusters hdir.iStart)
        intro r hr
        cases r with
        | ok slot =>
          refine obeys_request trivial fun tvSec => ?_
          exact createInFreeSlot_obeys hp hdir (padName dName) tvSec hjunk (hr slot rfl)
        | error e =>
          show spares sbi.fsInfo _ (if e ≠ .enoent then _ else _)
          split
          · exact ⟨hdir, by simp⟩
          · refine obeys_request trivial fun tvSec => ?_
            exact createInNewCluster_obeys hp hdir (padName dName) tvSec hjunk

end SimpleFat

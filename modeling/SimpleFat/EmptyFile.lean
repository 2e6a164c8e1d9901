import SimpleFat.EntryPosition
import SimpleFat.WriteSpec

/-!
# Files without clusters

A file that `sfat_create_file` made has size 0 and the mark `SFAT_ENTRY_FREE` for its first cluster.
The first write that stores a byte sets both, on each of its exits, and from then on the first
cluster stays and the size only grows.  The rest of the code relies on it: a file is empty if and
only if it has the mark.

* `sfatSyncWrite_grows`, `sfatSyncRead_grows` — one call, in any environment;
* `FileRun.grows` — a run;
* `createdFile_marked` — a new file;
* `empty_file_invariant` — the result.
-/

namespace SimpleFat

open SimpleFat.Lib

variable {H : Host} {fs : FsInfo} {v v' : Vol} {inode inode' : Inode}

/-- **A file is empty if and only if it has no first cluster.** -/
def EmptyMarked (inode : Inode) : Prop := inode.iSize = 0 ↔ inode.iStart = sfatEntryFree

/-- What the inode of a file becomes: a first cluster stays, and the size does not decrease. -/
structure FileGrows (inode inode' : Inode) : Prop where
  marked : EmptyMarked inode'
  iStart_eq : inode.iStart ≠ sfatEntryFree → inode'.iStart = inode.iStart
  iSize_le : inode.iSize ≤ inode'.iSize

theorem FileGrows.refl (h : EmptyMarked inode) : FileGrows inode inode :=
  ⟨h, fun _ => rfl, Nat.le_refl _⟩

theorem FileGrows.trans {inode'' : Inode} (h : FileGrows inode inode')
    (h' : FileGrows inode' inode'') : FileGrows inode inode'' := by
  refine ⟨h'.marked, fun hstart => ?_, Nat.le_trans h.iSize_le h'.iSize_le⟩
  have hsame := h.iStart_eq hstart
  rw [h'.iStart_eq (by rw [hsame]; exact hstart), hsame]

/-- The size of a file with a first cluster grows. -/
theorem FileGrows.of_size {n : ℕ} (h : EmptyMarked inode) (hpos : 0 < inode.iSize)
    (hstart : inode'.iStart = inode.iStart) (hsize : inode'.iSize = max inode.iSize n) :
    FileGrows inode inode' := by
  refine ⟨?_, fun _ => hstart, by omega⟩
  rw [EmptyMarked] at h ⊢
  rw [hstart, ← h]
  omega

/-! ### The position moves forward -/

theorem writeNew_ppos (hw : WordBlocks fs) (hcs : 0 < fs.clusterSize) (fuel : ℕ)
    {st : SyncWriteState} (hfuel : st.len ≤ fuel) : wp H.world (writeNew fs fuel st)
      (fun r _ => ∃ st', r = some st' ∧ st.ppos ≤ st'.ppos) v := by
  induction fuel generalizing st v with
  | zero =>
    rw [writeNew, if_pos (by omega)]
    exact (wp_done _ _ _).mpr ⟨st, rfl, Nat.le_refl _⟩
  | succ fuel ih =>
    rw [writeNew]
    by_cases h0 : st.len = 0
    · rw [if_pos h0]
      exact (wp_done _ _ _).mpr ⟨st, rfl, Nat.le_refl _⟩
    · rw [if_neg h0]
      refine wp_seq (wp_of_forall fun _ _ => trivial) fun r v₁ _ => ?_
      cases r with
      | error e => exact (wp_done _ _ _).mpr ⟨st, rfl, Nat.le_refl _⟩
      | ok c =>
        refine wp_seq (wp_of_forall fun _ _ => trivial) fun r v₂ _ => ?_
        cases r with
        | some e => exact (wp_done _ _ _).mpr ⟨st, rfl, Nat.le_refl _⟩
        | none =>
          refine wp_seq (writeChunk_spec hw.blockSize_eq { st with curCls := c } 0)
            fun r v₃ hr => ?_
          cases r with
          | out r =>
            obtain ⟨st', n⟩ := r
            obtain ⟨rfl, -⟩ := hr
            exact (wp_done _ _ _).mpr ⟨_, rfl, Nat.le_add_right _ _⟩
          | next st' =>
            obtain ⟨rfl, -⟩ := hr
            refine wp_mono (ih ?_) fun r v₄ hr => ?_
            · show st.len - min st.len (fs.clusterSize - 0) ≤ fuel
              omega
            · obtain ⟨st', rfl, hle⟩ := hr
              exact ⟨st', rfl, Nat.le_trans (Nat.le_add_right _ _) hle⟩

def Loop.ppos : Loop SyncWriteState SyncWriteState → ℕ
  | .next st => st.ppos
  | .out st => st.ppos

theorem writeExisting_ppos (hw : WordBlocks fs) (hcs : 0 < fs.clusterSize) (fuel : ℕ)
    {st : SyncWriteState} (hfuel : st.len ≤ fuel) : wp H.world (writeExisting fs fuel st)
      (fun r _ => ∃ r', r = some r' ∧ st.ppos ≤ r'.ppos) v := by
  induction fuel generalizing st v with
  | zero =>
    rw [writeExisting, if_pos (by omega)]
    exact (wp_done _ _ _).mpr ⟨_, rfl, Nat.le_refl _⟩
  | succ fuel ih =>
    rw [writeExisting]
    by_cases h0 : st.len = 0
    · rw [if_pos h0]
      exact (wp_done _ _ _).mpr ⟨_, rfl, Nat.le_refl _⟩
    · rw [if_neg h0]
      refine wp_seq (wp_of_forall fun _ _ => trivial) fun r v₁ _ => ?_
      cases r with
      | error e => exact (wp_done _ _ _).mpr ⟨_, rfl, Nat.le_refl _⟩
      | ok next =>
        show wp H.world (if next < sfatEntryMax then _ else _) _ v₁
        split
        · refine wp_seq (writeChunk_spec hw.blockSize_eq { st with curCls := next } 0)
            fun r v₂ hr => ?_
          cases r with
          | out r =>
            obtain ⟨st', n⟩ := r
            obtain ⟨rfl, -⟩ := hr
            exact (wp_done _ _ _).mpr ⟨_, rfl, Nat.le_add_right _ _⟩
          | next st' =>
            obtain ⟨rfl, -⟩ := hr
            refine wp_mono (ih ?_) fun r v₄ hr => ?_
            · show st.len - min st.len (fs.clusterSize - 0) ≤ fuel
              omega
            · obtain ⟨r', rfl, hle⟩ := hr
              exact ⟨r', rfl, Nat.le_trans (Nat.le_add_right _ _) hle⟩
        · exact (wp_done _ _ _).mpr ⟨_, rfl, Nat.le_refl _⟩

theorem writeRestData_ppos (hw : WordBlocks fs) (hcs : 0 < fs.clusterSize)
    (r : Loop SyncWriteState SyncWriteState) : wp H.world (writeRestData fs (some r))
      (fun q _ => ∃ st', q = .ok st' ∧ r.ppos ≤ st'.ppos) v := by
  cases r with
  | out st => exact (wp_done _ _ _).mpr ⟨st, rfl, Nat.le_refl _⟩
  | next st =>
    rw [writeRestData]
    refine wp_seq (writeNew_ppos hw hcs st.len (Nat.le_refl _)) fun q v₁ hq => ?_
    obtain ⟨st', rfl, hle⟩ := hq
    exact (wp_done _ _ _).mpr ⟨st', rfl, hle⟩

/-- The branch for a position inside the file has fuel enough. -/
theorem writeInside_returns (hw : WordBlocks fs) (hcs : 0 < fs.clusterSize) (st : SyncWriteState) :
    wp H.world (writeInside fs st) (fun r _ => ∀ q, r = .ok q → ∃ r', q = some r') v := by
  rw [writeInside]
  refine wp_seq (wp_of_forall fun _ _ => trivial) fun r v₁ _ => ?_
  cases r with
  | error e => exact (wp_done _ _ _).mpr (by simp)
  | ok found =>
    obtain ⟨c, off⟩ := found
    refine wp_seq (wp_of_forall fun _ _ => trivial) fun r v₂ _ => ?_
    cases r with
    | out r =>
      refine (wp_done _ _ _).mpr fun q hq => ?_
      cases hq
      exact ⟨_, rfl⟩
    | next st =>
      refine wp_seq (writeExisting_ppos hw hcs st.len (Nat.le_refl _)) fun r v₃ hr => ?_
      obtain ⟨r', rfl, -⟩ := hr
      refine (wp_done _ _ _).mpr fun q hq => ?_
      cases hq
      exact ⟨r', rfl⟩

/-! ### One call -/

/-- What the branch for the end of the file does for an empty one: it sets the first cluster if and
only if the position has moved. -/
def EndStarts (inode : Inode) (st : SyncWriteState) :
    Loop SyncWriteState SyncWriteState × Option ℕ → Prop
  | (r, none) => 0 < inode.iSize ∨ ∃ st', r = .out st' ∧ st'.ppos = st.ppos
  | (r, some c) => inode.iSize = 0 ∧ c ≠ sfatEntryFree ∧ st.ppos < r.ppos

theorem writeAtEnd_starts (hw : WordBlocks fs) (hcs : 0 < fs.clusterSize)
    (hwords : fatWords fs ≤ sfatEntryMax) {st : SyncWriteState} (hlen : st.len ≠ 0) :
    wp H.world (writeAtEnd fs st inode.iSize) (fun r _ => EndStarts inode st r) v := by
  rw [writeAtEnd]
  by_cases hpos : 0 < inode.iSize
  · rw [if_pos hpos]
    refine wp_seq (wp_of_forall fun _ _ => trivial) fun r v₁ _ => ?_
    cases r with
    | error e => exact (wp_done _ _ _).mpr (.inl hpos)
    | ok found => exact (wp_done _ _ _).mpr (.inl hpos)
  · have hzero : inode.iSize = 0 := by omega
    rw [if_neg hpos]
    refine wp_seq (hw.acquire_spec v) fun r v₁ hr => ?_
    cases r with
    | error e => exact (wp_done _ _ _).mpr (.inr ⟨st, rfl, rfl⟩)
    | ok c =>
      have hc : c ≠ sfatEntryFree := by
        have hlt := hr.1.1
        rw [sfatEntryMax] at hwords
        rw [sfatEntryFree]
        omega
      refine wp_seq (writeChunk_spec hw.blockSize_eq { st with curCls := c } 0) fun r v₂ hr => ?_
      cases r with
      | out r =>
        obtain ⟨st', n⟩ := r
        obtain ⟨rfl, -⟩ := hr
        refine (wp_done _ _ _).mpr ?_
        by_cases hn : 0 < n
        · rw [if_pos hn]
          exact ⟨hzero, hc, Nat.lt_add_of_pos_right hn⟩
        · obtain rfl : n = 0 := by omega
          exact .inr ⟨_, rfl, rfl⟩
      | next st' =>
        obtain ⟨rfl, -⟩ := hr
        refine (wp_done _ _ _).mpr ⟨hzero, hc, Nat.lt_add_of_pos_right ?_⟩
        show 0 < min st.len (fs.clusterSize - 0)
        omega

/-- What the label `end` makes of the work on the clusters. -/
def DataGrows (inode : Inode) : Except Errno SyncWriteState × Inode → Prop
  | (.error _, inode') => inode' = inode
  | (.ok st, inode') => ∀ inode'' : Inode, inode''.iStart = inode'.iStart →
      inode''.iSize = max inode'.iSize st.ppos → FileGrows inode inode''

theorem syncWriteData_grows (hw : WordBlocks fs) (hcs : 0 < fs.clusterSize)
    (hwords : fatWords fs ≤ sfatEntryMax) (h : EmptyMarked inode) (buf : ℕ → UInt8) (len ppos : ℕ) :
    wp H.world (syncWriteData fs inode buf len ppos) (fun p _ => DataGrows inode p) v := by
  rw [syncWriteData]
  simp only []
  by_cases hreject : inode.iSize < ppos ∨ len = 0
  · rw [if_pos hreject]
    exact (wp_done _ _ _).mpr rfl
  · rw [if_neg hreject]
    by_cases hin : inode.iSize &&& (fs.blockSize - 1) ≠ 0 ∨ ppos < inode.iSize
    · rw [if_pos hin]
      -- the position is inside the file, or its size no multiple: it is not empty
      have hpos : 0 < inode.iSize := by
        rcases Nat.eq_zero_or_pos inode.iSize with hzero | hpos
        · rw [hzero, Nat.zero_and] at hin
          omega
        · exact hpos
      refine wp_seq (writeInside_returns hw hcs _) fun r v₁ hr => ?_
      cases r with
      | error e => exact (wp_done _ _ _).mpr rfl
      | ok q =>
        obtain ⟨r', rfl⟩ := hr q rfl
        refine wp_seq (writeRestData_ppos hw hcs r') fun q v₂ hq => ?_
        obtain ⟨st', rfl, -⟩ := hq
        exact (wp_done _ _ _).mpr fun inode'' => FileGrows.of_size h hpos
    · rw [if_neg hin]
      refine wp_seq (writeAtEnd_starts hw hcs hwords (by show len ≠ 0; omega)) fun r v₁ hr => ?_
      obtain ⟨r, start⟩ := r
      cases start with
      | some c =>
        obtain ⟨hzero, hc, hlt⟩ := hr
        refine wp_seq (writeRestData_ppos hw hcs r) fun q v₂ hq => ?_
        obtain ⟨st', rfl, hle⟩ := hq
        refine (wp_done _ _ _).mpr fun inode'' hstart hsize => ⟨?_, fun hne => ?_, ?_⟩
        · have hpos : 0 < inode''.iSize := by rw [hsize]; show 0 < max inode.iSize st'.ppos; omega
          have hc : inode''.iStart ≠ sfatEntryFree := by rw [hstart]; exact hc
          exact ⟨fun h0 => absurd h0 (by omega), fun hfree => absurd hfree hc⟩
        · exact absurd (h.mp hzero) hne
        · rw [hzero]
          exact Nat.zero_le _
      | none =>
        obtain hpos | ⟨st', rfl, hppos⟩ := hr
        · refine wp_seq (writeRestData_ppos hw hcs r) fun q v₂ hq => ?_
          obtain ⟨st', rfl, -⟩ := hq
          exact (wp_done _ _ _).mpr fun inode'' => FileGrows.of_size h hpos
        -- nothing was written: the inode is as before
        refine (wp_done _ _ _).mpr fun inode'' hstart hsize => ?_
        have hstart : inode''.iStart = inode.iStart := hstart
        have hsize : inode''.iSize = inode.iSize := by
          rw [hsize, hppos]
          show max inode.iSize ppos = inode.iSize
          omega
        refine ⟨?_, fun _ => hstart, Nat.le_of_eq hsize.symm⟩
        rw [EmptyMarked, hstart, hsize]
        exact h

/-- **One `sfat_sync_write`**, in any environment. -/
theorem sfatSyncWrite_grows (hw : WordBlocks fs) (hcs : 0 < fs.clusterSize)
    (hwords : fatWords fs ≤ sfatEntryMax) (h : EmptyMarked inode) (buf : ℕ → UInt8) (len ppos : ℕ) :
    wp H.world (sfatSyncWrite fs inode buf len ppos) (fun r _ => FileGrows inode r.2.1) v := by
  rw [sfatSyncWrite_eq]
  refine wp_seq (syncWriteData_grows hw hcs hwords h buf len ppos) fun p v₁ hp => ?_
  obtain ⟨r, inode'⟩ := p
  cases r with
  | error e =>
    obtain rfl : inode' = inode := hp
    exact (wp_done _ _ _).mpr (FileGrows.refl h)
  | ok st =>
    show wp H.world (writeEnd fs inode' st) _ v₁
    rw [writeEnd]
    refine wp_seq (wp_of_forall fun _ _ => trivial) fun t v₂ _ => ?_
    refine wp_seq (wp_of_forall fun _ _ => trivial) fun r v₃ _ => ?_
    exact (wp_done _ _ _).mpr (hp _ rfl rfl)

/-- **One `sfat_sync_read`**, in any environment. -/
theorem sfatSyncRead_grows (h : EmptyMarked inode) (len ppos : ℕ) :
    wp H.world (sfatSyncRead fs inode len ppos) (fun r _ => FileGrows inode r.2.1) v := by
  rw [sfatSyncRead]
  simp only []
  have hsame : ∀ r : List UInt8, wp H.world (pure (r, inode, ppos) : Driver _)
      (fun r _ => FileGrows inode r.2.1) v := fun r => (wp_done _ _ _).mpr (FileGrows.refl h)
  by_cases hend : inode.iSize ≤ ppos
  · rw [if_pos hend]
    exact hsame _
  · rw [if_neg hend]
    by_cases hcluster : fs.clusterSize ≤ ppos
    · rw [if_pos hcluster]
      exact hsame _
    · rw [if_neg hcluster]
      -- the length that is cut to the file and to the cluster
      generalize (if fs.clusterSize < _ then _ else _) = n
      by_cases hn : n = 0
      · rw [if_pos hn]
        exact hsame _
      · rw [if_neg hn]
        by_cases hmax : sfatEntryMax < inode.iStart
        · rw [if_pos hmax]
          exact hsame _
        · rw [if_neg hmax]
          refine wp_seq (wp_of_forall fun _ _ => trivial) fun r v₁ _ => ?_
          refine wp_seq (wp_of_forall fun _ _ => trivial) fun t v₂ _ => ?_
          refine wp_seq (wp_of_forall fun _ _ => trivial) fun e v₃ _ => ?_
          exact (wp_done _ _ _).mpr ⟨h, fun _ => rfl, Nat.le_refl _⟩

/-! ### Runs -/

/-- **The life of an open file**: writes and reads, each in an environment of its own, at positions
and lengths whose sum fits `loff_t`; between them others may write to the volume. -/
inductive FileRun (fs : FsInfo) : Inode → Vol → Inode → Vol → Prop
  | nil {inode : Inode} {v : Vol} : FileRun fs inode v inode v
  | write {H : Host} {inode inode₁ inode' : Inode} {v v₁ v' : Vol} {tr : List Request}
      {r : Except Errno ℕ} {buf : ℕ → UInt8} {len ppos ppos₁ : ℕ} : ppos + len < 2 ^ 63 →
      Exec H.world (sfatSyncWrite fs inode buf len ppos) v tr (r, inode₁, ppos₁) v₁ →
      FileRun fs inode₁ v₁ inode' v' → FileRun fs inode v inode' v'
  | read {H : Host} {inode inode₁ inode' : Inode} {v v₁ v' : Vol} {tr : List Request}
      {out : List UInt8} {len ppos ppos₁ : ℕ} : ppos + len < 2 ^ 63 →
      Exec H.world (sfatSyncRead fs inode len ppos) v tr (out, inode₁, ppos₁) v₁ →
      FileRun fs inode₁ v₁ inode' v' → FileRun fs inode v inode' v'
  | others {inode inode' : Inode} {v v₁ v' : Vol} :
      FileRun fs inode v₁ inode' v' → FileRun fs inode v inode' v'

/-- **A run keeps the mark and the first cluster**, and the size only grows. -/
theorem FileRun.grows (hw : WordBlocks fs) (hcs : 0 < fs.clusterSize)
    (hwords : fatWords fs ≤ sfatEntryMax) (hrun : FileRun fs inode v inode' v')
    (h : EmptyMarked inode) : FileGrows inode inode' := by
  induction hrun with
  | nil => exact FileGrows.refl h
  | @write H _ _ _ _ _ _ _ _ buf len ppos _ _ he _ ih =>
    have hone := (wp_iff_exec _ _ _).mp (sfatSyncWrite_grows hw hcs hwords h buf len ppos) _ _ _ he
    exact hone.trans (ih hone.marked)
  | @read H _ _ _ _ _ _ _ _ len ppos _ _ he _ ih =>
    have hone := (wp_iff_exec _ _ _).mp (sfatSyncRead_grows h len ppos) _ _ _ he
    exact hone.trans (ih hone.marked)
  | others _ ih => exact ih h

/-! ### New files -/

def MarkedFile (r : CreateReturn) : Prop :=
  ∀ inode, r = .ok (some inode) → inode.iSize = 0 ∧ inode.iStart = sfatEntryFree

theorem markedFile_error (e : Errno) : MarkedFile (.error e) := by
  intro inode h
  cases h

theorem markedFile_none : MarkedFile (.ok none) := by
  intro inode h
  cases h

theorem createFinish_marked (sbi : SbInfo) (dir : Inode) (name : Vector UInt8 11) (tvSec iPos : ℕ) :
    wp H.world (createFinish sbi dir (sfatFormDirEntry false name 0 0 tvSec) iPos)
      (fun r _ => MarkedFile r) v := by
  rw [createFinish]
  refine wp_seq (wp_of_forall fun _ _ => trivial) fun r v₁ _ => ?_
  cases r with
  | some e => exact (wp_done _ _ _).mpr (markedFile_error _)
  | none =>
    rw [sfatBuildInode, Program.bind_assoc]
    refine wp_seq (wp_of_forall fun _ _ => trivial) fun stale v₂ _ => ?_
    cases stale with
    | none => exact (wp_done _ _ _).mpr (markedFile_error _)
    | some stale =>
      show wp H.world ((iunique sfatRootIno >>= _) >>= _) _ v₂
      rw [Program.bind_assoc]
      refine wp_seq (wp_of_forall fun _ _ => trivial) fun ino v₃ _ => ?_
      rw [Program.bind_assoc]
      refine wp_seq (sfatFillInode_spec sbi _ _ iPos) fun inode v₄ hfill => ?_
      obtain ⟨-, hfill⟩ := hfill
      refine (wp_done _ _ _).mpr fun inode' heq => ?_
      cases heq
      refine ⟨hfill.iSize.trans rfl, hfill.iStart.trans ?_⟩
      rw [sfatFormDirEntry, if_pos rfl]
      exact Nat.mod_eq_of_lt (by decide)

theorem createMoveTerminator_marked (cls blk : ℕ) (junk : CreateJunk) :
    wp H.world (createMoveTerminator fs cls blk junk) (fun q _ => ∀ r, q = some r → MarkedFile r)
      v := by
  have hterm : ∀ (cls blk : ℕ) (v : Vol), wp H.world (createWriteTerminator fs cls blk)
      (fun q _ => ∀ r, q = some r → MarkedFile r) v := by
    intro cls blk v
    rw [createWriteTerminator]
    refine wp_seq (wp_of_forall fun _ _ => trivial) fun data v₁ _ => ?_
    cases data with
    | none =>
      refine (wp_done _ _ _).mpr fun r hr => ?_
      cases hr
      exact markedFile_error _
    | some data =>
      refine wp_seq (wp_of_forall fun _ _ => trivial) fun ok v₂ _ => ?_
      cases ok with
      | true => exact (wp_done _ _ _).mpr (by simp)
      | false =>
        refine (wp_done _ _ _).mpr fun r hr => ?_
        cases hr
        exact markedFile_error _
  rw [createMoveTerminator]
  split
  · exact hterm _ _ _
  · refine wp_seq (wp_of_forall fun _ _ => trivial) fun r v₁ _ => ?_
    cases r with
    | error e =>
      refine (wp_done _ _ _).mpr fun r hr => ?_
      cases hr
      exact markedFile_error _
    | ok next =>
      show wp H.world (if next = sfatEntryEoc then _ else _) _ v₁
      split
      · exact (wp_done _ _ _).mpr (by simp)
      · split
        · refine (wp_done _ _ _).mpr fun r hr => ?_
          cases hr
          exact markedFile_none
        · exact hterm _ _ _

/-- **A file that was just created is empty and has the mark**, in any environment. -/
theorem createdFile_marked (sbi : SbInfo) (dir : Inode) (dName : List UInt8) (junk : CreateJunk) :
    wp H.world (sfatCreateFile sbi dir dName junk) (fun r _ => MarkedFile r.1) v := by
  have hfinish : ∀ (dir dir' : Inode) (tvSec iPos : ℕ) (v : Vol),
      wp H.world (createFinish sbi dir (sfatFormDirEntry false (padName dName) 0 0 tvSec) iPos >>=
        fun r => pure (r, dir')) (fun r _ => MarkedFile r.1) v := by
    intro dir dir' tvSec iPos v
    refine wp_seq (createFinish_marked sbi dir (padName dName) tvSec iPos) fun r v₁ hr => ?_
    exact (wp_done _ _ _).mpr hr
  rw [sfatCreateFile]
  refine wp_seq (wp_of_forall fun _ _ => trivial) fun r v₁ _ => ?_
  cases r with
  | ok found => exact (wp_done _ _ _).mpr (markedFile_error _)
  | error e =>
    show wp H.world (if e ≠ Errno.enoent then _ else _) _ v₁
    split
    · exact (wp_done _ _ _).mpr (markedFile_error _)
    · refine wp_seq (wp_of_forall fun _ _ => trivial) fun page v₂ _ => ?_
      cases page with
      | none => exact (wp_done _ _ _).mpr (markedFile_error _)
      | some addr =>
        refine wp_seq (wp_of_forall fun _ _ => trivial) fun r v₃ _ => ?_
        cases r with
        | ok slot =>
          refine wp_seq (wp_of_forall fun _ _ => trivial) fun tvSec v₄ _ => ?_
          rw [createInFreeSlot]
          refine wp_seq (wp_of_forall fun _ _ => trivial) fun ok v₅ _ => ?_
          cases ok with
          | false => exact (wp_done _ _ _).mpr (markedFile_error _)
          | true =>
            simp only [if_true]
            split
            · refine wp_seq (createMoveTerminator_marked _ _ junk) fun q v₆ hq => ?_
              cases q with
              | some r => exact (wp_done _ _ _).mpr (hq r rfl)
              | none => exact hfinish _ _ _ _ _
            · exact hfinish _ _ _ _ _
        | error e =>
          show wp H.world (if e ≠ Errno.enoent then _ else _) _ v₃
          split
          · exact (wp_done _ _ _).mpr (markedFile_error _)
          · refine wp_seq (wp_of_forall fun _ _ => trivial) fun tvSec v₄ _ => ?_
            rw [createInNewCluster]
            refine wp_seq (wp_of_forall fun _ _ => trivial) fun r v₅ _ => ?_
            cases r with
            | error e => exact (wp_done _ _ _).mpr (markedFile_error _)
            | ok cls =>
              refine wp_seq (wp_of_forall fun _ _ => trivial) fun r v₆ _ => ?_
              cases r with
              | some e => exact (wp_done _ _ _).mpr (markedFile_error _)
              | none =>
                refine wp_seq (wp_of_forall fun _ _ => trivial) fun data v₇ _ => ?_
                cases data with
                | none => exact (wp_done _ _ _).mpr (markedFile_error _)
                | some data =>
                  refine wp_seq (wp_of_forall fun _ _ => trivial) fun ok v₈ _ => ?_
                  cases ok with
                  | false => exact (wp_done _ _ _).mpr (markedFile_error _)
                  | true => exact hfinish _ _ _ _ _

/-! ### The result -/

/-- A write to an empty file.  It does not seek. -/
def writeEmpty (fs : FsInfo) (inode : Inode) (buf : ℕ → UInt8) (len ppos : ℕ) :
    Driver (Except Errno ℕ × Inode × ℕ) :=
  if 0 < ppos ∨ len = 0 then pure (.error .einval, inode, ppos)
  else do
    let st : SyncWriteState :=
      { curCls := inode.iStart, ppos := ppos, len := len, buf := buf, accuLen := 0 }
    match ← sfatFatEntryAcquire fs with
    | .error _ => writeEnd fs inode st
    | .ok newCls =>
      match ← writeChunk fs { st with curCls := newCls } 0 with
      | .out (st, retLen) =>
        writeEnd fs { inode with iStart := if 0 < retLen then newCls else inode.iStart } st
      | .next st => writeRest fs { inode with iStart := newCls } ppos (some (.next st))

theorem sfatSyncWrite_empty (h : inode.iSize = 0) (buf : ℕ → UInt8) (len ppos : ℕ) :
    sfatSyncWrite fs inode buf len ppos = writeEmpty fs inode buf len ppos := by
  have hin : ¬ (inode.iSize &&& (fs.blockSize - 1) ≠ 0 ∨ ppos < inode.iSize) := by
    rw [h, Nat.zero_and]
    omega
  rw [sfatSyncWrite, writeEmpty]
  simp only []
  by_cases hreject : 0 < ppos ∨ len = 0
  · rw [if_pos hreject, if_pos (by omega)]
  · rw [if_neg hreject, if_neg (by omega), if_neg hin, writeAtEnd,
      if_neg (show ¬ 0 < inode.iSize by omega), Program.bind_assoc]
    congr 1
    funext r
    cases r with
    | error e => rfl
    | ok newCls =>
      show (writeChunk fs _ 0 >>= _) >>= _ = writeChunk fs _ 0 >>= _
      rw [Program.bind_assoc]
      congr 1
      funext r
      cases r with
      | next st => rfl
      | out r =>
        obtain ⟨st, retLen⟩ := r
        show writeRest fs { inode with iStart :=
            (if 0 < retLen then some newCls else none).getD inode.iStart } ppos (some (.out st)) =
          writeEnd fs { inode with iStart := if 0 < retLen then newCls else inode.iStart } st
        by_cases hlen : 0 < retLen
        · rw [if_pos hlen, if_pos hlen]
          rfl
        · rw [if_neg hlen, if_neg hlen]
          rfl

/-- **The empty-file invariant**: a new file has size 0 and the mark, and through any run of writes
and reads it has size 0 as long as it has the mark; then a first cluster stays and the size does not
decrease.  With the mark a write does not seek, and a read does nothing at all. -/
theorem empty_file_invariant {sbi : SbInfo} (hw : WordBlocks sbi.fsInfo)
    (hcs : 0 < sbi.fsInfo.clusterSize) (hwords : fatWords sbi.fsInfo ≤ sfatEntryMax) (dir : Inode)
    (dName : List UInt8) (junk : CreateJunk) :
    wp H.world (sfatCreateFile sbi dir dName junk) (fun r v₁ => ∀ inode, r.1 = .ok (some inode) →
      ∀ inode₁ v₂, FileRun sbi.fsInfo inode v₁ inode₁ v₂ →
        (inode₁.iSize = 0 ↔ inode₁.iStart = sfatEntryFree) ∧
        (∀ inode₂ v₃, FileRun sbi.fsInfo inode₁ v₂ inode₂ v₃ →
          (inode₁.iStart ≠ sfatEntryFree → inode₂.iStart = inode₁.iStart) ∧
            inode₁.iSize ≤ inode₂.iSize) ∧
        (inode₁.iStart = sfatEntryFree → ∀ (buf : ℕ → UInt8) (len ppos : ℕ),
          sfatSyncWrite sbi.fsInfo inode₁ buf len ppos = writeEmpty sbi.fsInfo inode₁ buf len ppos ∧
            sfatSyncRead sbi.fsInfo inode₁ len ppos = pure ([], inode₁, ppos))) v := by
  refine wp_mono (createdFile_marked sbi dir dName junk) fun r v₁ hr inode hinode inode₁ v₂ hrun => ?_
  obtain ⟨hsize, hstart⟩ := hr inode hinode
  have hgrows := hrun.grows hw hcs hwords ⟨fun _ => hstart, fun _ => hsize⟩
  refine ⟨hgrows.marked, fun inode₂ v₃ hrun₂ => ?_, fun hfree buf len ppos => ?_⟩
  · have hmore := hrun₂.grows hw hcs hwords hgrows.marked
    exact ⟨hmore.iStart_eq, hmore.iSize_le⟩
  · have hzero := hgrows.marked.mpr hfree
    refine ⟨sfatSyncWrite_empty hzero buf len ppos, ?_⟩
    rw [sfatSyncRead, hzero]
    exact if_pos (Nat.zero_le ppos)

theorem empty_file_invariant_oneFile :
    wp (Host.code fun _ => True).world (sfatCreateFile sbi31 root31 [98] ⟨0, 0⟩) (fun r v₁ =>
      ∀ inode, r.1 = .ok (some inode) → ∀ inode₁ v₂, FileRun sbi31.fsInfo inode v₁ inode₁ v₂ →
        (inode₁.iSize = 0 ↔ inode₁.iStart = sfatEntryFree) ∧
        (∀ inode₂ v₃, FileRun sbi31.fsInfo inode₁ v₂ inode₂ v₃ →
          (inode₁.iStart ≠ sfatEntryFree → inode₂.iStart = inode₁.iStart) ∧
            inode₁.iSize ≤ inode₂.iSize) ∧
        (inode₁.iStart = sfatEntryFree → ∀ (buf : ℕ → UInt8) (len ppos : ℕ),
          sfatSyncWrite sbi31.fsInfo inode₁ buf len ppos =
              writeEmpty sbi31.fsInfo inode₁ buf len ppos ∧
            sfatSyncRead sbi31.fsInfo inode₁ len ppos = pure ([], inode₁, ppos))) oneFileVolume :=
  empty_file_invariant placed31.wordBlocks (by decide) (by decide) root31 [98] ⟨0, 0⟩

end SimpleFat

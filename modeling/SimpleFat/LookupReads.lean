import SimpleFat.CapacityRuns

/-!
# Reads of files that were looked up

The position that a lookup gives an inode is counted from a block of the volume and not of its cluster,
so that it is the address of a slot in a cluster behind.  A read flushes the inode there.  It returns the
right bytes all the same, and the files stay as long as that cluster is not in use, which is a matter of
how many clusters are.

* `farAddr`, `farCluster` — where the inode is flushed;
* `aside_iff` — when that is in no cluster in use;
* `read_after_lookup_over_runs` — what a read does then, after every run.
-/

namespace SimpleFat

open SimpleFat.Lib

variable {fs : FsInfo} {v : Vol} {k : ℕ} {s : Slot}

/-! ### The address -/

/-- The address that a lookup takes for that of a slot. -/
def farAddr (fs : FsInfo) (s : Slot) : ℕ :=
  (clsToBlk fs s.cls + (clsToBlk fs s.cls + s.blk + 1)) * fs.blockSize + 32 * s.idx

/-- The cluster that it is in. -/
def farCluster (fs : FsInfo) (s : Slot) : ℕ :=
  s.cls + (clsToBlk fs s.cls + s.blk + 1) / fs.blkPerClus

section Address

/-- If the data area starts low enough, `loff_t` can hold the address. -/
theorem farAddr_lt (hp : Placed fs) (hdata : fs.dataStartBlk ≤ 2 ^ 46) (h : SlotPlaced fs s) :
    farAddr fs s + 32 ≤ 2 ^ 63 := by
  have hbs := (hp.clsToBlk_lt h.cls_lt).2
  obtain ⟨d, -, hd, hsz⟩ := hp.blockSize_slots
  have hblk := h.blk_lt
  have hidx := h.idx_lt
  have hpow : fs.blkPerClus ≤ 2 ^ 6 := by
    have hbits := hp.clusterBits_lt
    have hge := hp.blockBits_ge
    rw [hp.blkPerClus_eq]
    exact Nat.pow_le_pow_right (by omega) (by omega)
  have hcls : s.cls * fs.blkPerClus ≤ 2 ^ 32 * 2 ^ 6 := Nat.mul_le_mul (Nat.le_of_lt h.cls_lt) hpow
  have hlt := hp.clsToBlk_eq h.cls_lt
  have hmul : (clsToBlk fs s.cls + (clsToBlk fs s.cls + s.blk + 1) + 1) * fs.blockSize ≤
      (2 * (2 ^ 46 + 2 ^ 38) + 2 ^ 7) * 2 ^ 15 := Nat.mul_le_mul (by omega) hbs
  rw [Nat.add_mul _ 1, Nat.one_mul] at hmul
  rw [farAddr]
  omega

/-- It is what `form_dir_entry_pos` gives for the block of the volume. -/
theorem formDirEntryPos_far (hp : Placed fs) (hdata : fs.dataStartBlk ≤ 2 ^ 46)
    (h : SlotPlaced fs s) :
    formDirEntryPos fs s.cls (clsToBlk fs s.cls + s.blk + 1) (s.idx * 32) = farAddr fs s := by
  have hlt := farAddr_lt hp hdata h
  rw [farAddr] at hlt ⊢
  rw [formDirEntryPos_def, Nat.shiftLeft_eq, ← hp.blockSize_eq, Nat.mul_comm s.idx, sizeT,
    Nat.mod_eq_of_lt (by omega)]

theorem farAddr_mod (hp : Placed fs) (h : SlotPlaced fs s) :
    farAddr fs s % fs.blockSize = 32 * s.idx ∧ 32 * s.idx + 32 ≤ fs.blockSize := by
  obtain ⟨d, -, hd, hsz⟩ := hp.blockSize_slots
  have hidx := h.idx_lt
  rw [farAddr, Nat.mul_comm, Nat.mul_add_mod, Nat.mod_eq_of_lt (by omega)]
  exact ⟨rfl, by omega⟩

/-- **The address is in the cluster.** -/
theorem farAddr_mem (hp : Placed fs) (h : SlotPlaced fs s) :
    fs.dataStartBlk * fs.blockSize + farCluster fs s * fs.clusterSize ≤ farAddr fs s ∧
      farAddr fs s + 32 ≤
        fs.dataStartBlk * fs.blockSize + farCluster fs s * fs.clusterSize + fs.clusterSize := by
  have hbpc := hp.blkPerClus_pos
  obtain ⟨-, hidx⟩ := farAddr_mod hp h
  generalize hfar : clsToBlk fs s.cls + s.blk + 1 = far
  have hdiv := Nat.div_add_mod' far fs.blkPerClus
  have hmod := Nat.mod_lt far hbpc
  have hblk : clsToBlk fs s.cls + far =
      fs.dataStartBlk + farCluster fs s * fs.blkPerClus + far % fs.blkPerClus := by
    rw [farCluster, hfar, hp.clsToBlk_eq h.cls_lt, Nat.add_mul]
    omega
  have hin : (far % fs.blkPerClus + 1) * fs.blockSize ≤ fs.clusterSize := by
    rw [hp.clusterSize_blocks]
    exact Nat.mul_le_mul_right _ hmod
  rw [Nat.add_mul, Nat.one_mul] at hin
  rw [farAddr, hfar, hblk, Nat.add_mul, Nat.add_mul, Nat.mul_assoc, ← hp.clusterSize_blocks]
  omega

/-- **The inode is flushed aside** exactly if the cluster is behind those in use. -/
theorem aside_iff (hp : Placed fs) (hdata : fs.dataStartBlk ≤ 2 ^ 46) (hseq : Sequential fs v k)
    (h : SlotPlaced fs s) : Aside fs v (farAddr fs s) ↔ k ≤ farCluster fs s := by
  have hcs := hp.clusterSize_pos
  have hlt := farAddr_lt hp hdata h
  obtain ⟨hmod, hblock⟩ := farAddr_mod hp h
  obtain ⟨hlo, hhi⟩ := farAddr_mem hp h
  constructor
  · intro haside
    by_contra hused
    have hword : farCluster fs s < fatWords fs := Nat.lt_of_lt_of_le (Nat.lt_of_not_le hused) hseq.le
    have hclear := haside.unused _ hword ((hseq.used _ hword).mpr (by omega))
    rw [clsAddr_eq hp (lt_of_fatWords hp hword)] at hclear
    omega
  · intro hle
    refine ⟨by omega, by rw [hmod]; exact hblock, by omega, fun c hc hused => .inr ?_⟩
    have hck := (hseq.used c hc).mp hused
    have hmul : (c + 1) * fs.clusterSize ≤ farCluster fs s * fs.clusterSize :=
      Nat.mul_le_mul_right _ (by omega)
    rw [Nat.add_mul, Nat.one_mul] at hmul
    rw [clsAddr_eq hp (lt_of_fatWords hp hc)]
    omega

end Address

/-! ### Reads -/

section Reads

/-- **A read** delivers the bytes of the file, and flushes the inode if there are any. -/
theorem sfatSyncRead_exact (hwf : WellFormed fs) {inode : Inode} {len ppos : ℕ}
    (hstart : ppos < inode.iSize → inode.iStart ≤ sfatEntryMax) :
    wp (lookupWorld storedWord) (sfatSyncRead fs inode len ppos) (fun r v' =>
      r.1 = bytesAt v (clsAddr fs inode.iStart + ppos) (readLen fs inode.iSize len ppos) ∧
      (r.1 = [] ∧ v' = v ∨ r.1 ≠ [] ∧ ∃ t, v' = flushed fs v { inode with iAtime := t })) v := by
  by_cases h0 : readLen fs inode.iSize len ppos = 0
  · have hnothing : wp (lookupWorld storedWord) (sfatSyncRead fs inode len ppos) _ v :=
      sfatSyncRead_nothing (H := Host.lookups noFailure storedWord) h0
    refine wp_mono hnothing fun r v' hr => ?_
    obtain ⟨rfl, rfl⟩ := hr
    rw [h0]
    exact ⟨rfl, .inl ⟨rfl, rfl⟩⟩
  · have hend := (readLen_pos h0).1
    refine (wp_sfatSyncRead hwf h0 (hstart (by omega)) _).mpr fun t => ⟨rfl, .inr ⟨fun hnil => h0 ?_, t, rfl⟩⟩
    have hlength := congrArg List.length hnil
    rwa [bytesAt_length] at hlength

/-- **A flush to the address**. -/
theorem flushed_far (hp : Placed fs) (hdata : fs.dataStartBlk ≤ 2 ^ 46) (h : SlotPlaced fs s)
    {inode : Inode} (hino : inode.iIno ≠ sfatRootIno) (hipos : inode.iPos = farAddr fs s) (v : Vol) :
    flushed fs v inode = flushEntry v (farAddr fs s) inode := by
  obtain ⟨hmod, hblock⟩ := farAddr_mod hp h
  have haddr := farAddr_lt hp hdata h
  rw [← hipos] at hmod haddr ⊢
  exact flushed_eq hp.blockSize_eq hino (by omega) (by omega) v

end Reads

/-! ### The result -/

section Runs

variable {S : ℕ} {L : FormatLayout} {v₀ : Vol} {ub : UndefinedShift} {options : MountOptions}
  {log : List (VolumeCall × CallResult)} {st st₁ st₂ : Mounted} {n : List UInt8} {inode : Inode}

/-- On a formatted volume. -/
theorem farCluster_formatted (hp : Placed (formattedFsInfo L)) (h : SlotPlaced (formattedFsInfo L) s) :
    farCluster (formattedFsInfo L) s = 2 * s.cls + (12 + 2 * L.fatLengthSectors + s.blk) / 4 := by
  have hblk : clsToBlk (formattedFsInfo L) s.cls = 11 + L.fatLengthSectors * 2 + s.cls * 4 :=
    hp.clsToBlk_eq h.cls_lt
  rw [farCluster, hblk, show (formattedFsInfo L).blkPerClus = 4 from rfl]
  omega

/-- **A file that is looked up**: the inode has the fields of its slot, and the address. -/
theorem VolumeInv.looked_up {m : ℕ} {P : Prop} (h : formatLayout 512 S = some L) (hpos : 1 ≤ L.clusters)
    (inv : VolumeInv L v₀ m P st) (hlook : Calls ub st (.lookup n) (.dentry (.ok (some inode))) st₁) :
    st₁ = ⟨st.sbi, st.dir, Function.update st.files n (some inode), st.vol⟩ ∧
      inode.iIno ≠ sfatRootIno ∧
      ∃ s ∈ visibleSlots st.sbi.fsInfo st.vol st.dir.iStart, SlotPlaced st.sbi.fsInfo s ∧
        cString s.de.name = n.take 11 ∧ inode.iStart = s.de.fstClsNo ∧ inode.iSize = s.de.size ∧
        inode.iPos = farAddr st.sbi.fsInfo s := by
  have hp := inv.placed h hpos
  obtain ⟨-, hfat, -, -⟩ := formatLayout_bounds h
  have hdata : st.sbi.fsInfo.dataStartBlk ≤ 2 ^ 46 := by
    rw [inv.root.fsInfo]
    show 11 + L.fatLengthSectors * 2 ≤ 2 ^ 46
    omega
  obtain ⟨ds, slots, chains, hdisk, -, -, -⟩ := inv.held
  cases hlook with
  | lookup hnul he =>
    obtain ⟨rfl, hr⟩ := (wp_iff_exec _ _ _).mp (lookup_spec st.sbi st.dir n) _ _ _ he
    refine ⟨rfl, ?_⟩
    cases hfind : findName storedWord st.sbi.fsInfo st.vol st.dir.iStart (padName n) with
    | none =>
      rw [hfind] at hr
      rcases hr with hr | hr
      · cases hr
      · cases hr
    | some s =>
      rw [hfind] at hr
      obtain ⟨inode', heq, hbuilt⟩ := hr
      obtain rfl := Option.some.inj (Except.ok.inj heq)
      obtain ⟨hs, hname⟩ := hdisk.filled.found_name hnul hfind
      have hplaced := hdisk.filled.placed hp hs
      rw [formDirEntryPos_far hp hdata hplaced] at hbuilt
      refine ⟨Nat.ne_of_gt hbuilt.iIno, s, ?_, hplaced, hname, hbuilt.iStart, hbuilt.iSize, hbuilt.iPos⟩
      rw [hdisk.filled.visible]
      exact hs

/-- **A file that is looked up and read**, after every run: the bytes are those of the file.  If the
cluster to which the inode is flushed is behind those in use, the run goes on with the files as they
were; otherwise the fields of the inode are written into a cluster in use. -/
theorem read_after_lookup_over_runs (h : formatLayout 512 S = some L) (hpos : 1 ≤ L.clusters)
    (hrun : VolumeRun ub options L v₀ CallKeeps log st)
    (hlook : Calls ub st (.lookup n) (.dentry (.ok (some inode))) st₁) {len ppos ppos' : ℕ}
    {out : List UInt8} (hread : Calls ub st₁ (.read n len ppos) (.data out ppos') st₂) :
    ∃ s ∈ visibleSlots (formattedFsInfo L) st.vol 0, cString s.de.name = n.take 11 ∧
      out = ((entryContent (formattedFsInfo L) st.vol s.de).drop ppos).take (min len (2048 - ppos)) ∧
      farCluster (formattedFsInfo L) s = 2 * s.cls + (12 + 2 * L.fatLengthSectors + s.blk) / 4 ∧
      (usedWords (formattedFsInfo L) st.vol ≤ farCluster (formattedFsInfo L) s →
        VolumeRun ub options L v₀ CallKeeps (log ++ [(.lookup n, .dentry (.ok (some inode)))] ++
          [(.read n len ppos, .data out ppos')]) st₂ ∧
        volumeFiles (formattedFsInfo L) st₂.vol 0 = volumeFiles (formattedFsInfo L) st.vol 0) ∧
      (farCluster (formattedFsInfo L) s < usedWords (formattedFsInfo L) st.vol → out ≠ [] →
        ∃ off t, off + 32 ≤ 2048 ∧
          fatWord (formattedFsInfo L) st.vol (farCluster (formattedFsInfo L) s) ≠ sfatEntryFree ∧
          st₂.vol = flushEntry st.vol (clsAddr (formattedFsInfo L) (farCluster (formattedFsInfo L) s) + off)
            { inode with iAtime := t }) := by
  have inv := hrun.inv h hpos
  have hp := inv.placed h hpos
  have hseq := inv.sequential_used
  have hfs := inv.root.fsInfo
  obtain ⟨-, hfat, -, -⟩ := formatLayout_bounds h
  have hdata : st.sbi.fsInfo.dataStartBlk ≤ 2 ^ 46 := by
    rw [hfs]
    show 11 + L.fatLengthSectors * 2 ≤ 2 ^ 46
    omega
  obtain ⟨rfl, hino, s, hs, hplaced, hname, hstart, hsize, hipos⟩ := inv.looked_up h hpos hlook
  obtain ⟨ds, slots, chains, hdisk, -, -, -⟩ := inv.held
  have hslot := hs
  rw [hdisk.filled.visible] at hslot
  have hchain := (hdisk.entries s hslot).fileChain hstart hsize
  have hcall := hread
  rw [← hfs] at hseq ⊢
  rw [← inv.root.iStart]
  have hcluster : st.sbi.fsInfo.clusterSize = 2048 := by rw [hfs]; rfl
  obtain ⟨hlo, hhi⟩ := farAddr_mem hp hplaced
  have hiff := aside_iff hp hdata hseq hplaced
  rw [← hipos] at hiff
  cases hread with
  | read hsum hfile he =>
    obtain rfl := Option.some.inj ((Function.update_self n (some inode) st.files).symm.trans hfile)
    obtain ⟨hout, hv⟩ := (wp_iff_exec _ _ _).mp
      (sfatSyncRead_exact hp.toWellFormed fun hlt => hchain.start_le_max hp hlt) _ _ _ he
    simp only [] at hout hv
    rw [read_content hsum hsize hstart, hcluster] at hout
    refine ⟨s, hs, hname, hout, ?_, fun hle => ⟨?_, ?_⟩, fun hlt hne => ?_⟩
    · rw [hfs]
      exact farCluster_formatted (hfs ▸ hp) (hfs ▸ hplaced)
    · refine (hrun.call (show CallKeeps st (.lookup n) from trivial) hlook).call (fun i hi => ?_) hcall
      obtain rfl := Option.some.inj ((Function.update_self n (some inode) st.files).symm.trans hi)
      exact .inr ⟨⟨s, hs, hname, hstart, hsize⟩, hiff.mpr hle⟩
    · rcases hv with ⟨-, rfl⟩ | ⟨-, t, rfl⟩
      · rfl
      · have haside : Aside st.sbi.fsInfo st.vol ({ inode with iAtime := t } : Inode).iPos :=
          hiff.mpr hle
        exact (hdisk.flushed_aside hp haside).2
    · obtain ⟨t, rfl⟩ := (hv.resolve_left fun hnone => hne hnone.1).2
      have hword := Nat.lt_of_lt_of_le hlt hseq.le
      have hcls := clsAddr_eq hp (lt_of_fatWords hp hword)
      refine ⟨farAddr st.sbi.fsInfo s - clsAddr st.sbi.fsInfo (farCluster st.sbi.fsInfo s), t, by omega,
        (hseq.used _ hword).mpr hlt, ?_⟩
      rw [show clsAddr st.sbi.fsInfo (farCluster st.sbi.fsInfo s) + (farAddr st.sbi.fsInfo s -
        clsAddr st.sbi.fsInfo (farCluster st.sbi.fsInfo s)) = farAddr st.sbi.fsInfo s by omega]
      have hother : ({ inode with iAtime := t } : Inode).iIno ≠ sfatRootIno := hino
      exact flushed_far hp hdata hplaced hother hipos st.vol

/-- The inode that a lookup gives for the file `a`: the slot is in block 13, and the address in block
27. -/
def lookedFile31 : Inode := { writtenFile31 with iPos := 27 * 512 }

def looked31 : Mounted :=
  ⟨sbi31, mountedRoot31, written31.learn [97] (.ok (some lookedFile31)),
    (run quietStored (sfatLookup sbi31 mountedRoot31 [97]) written31.vol).2⟩

theorem looked31_call :
    Calls zeroShift written31 (.lookup [97]) (.dentry (.ok (some lookedFile31))) looked31 := by
  have hrun := Exec.quietStored (sfatLookup sbi31 mountedRoot31 [97]) written31.vol
  have heq : (run quietStored (sfatLookup sbi31 mountedRoot31 [97]) written31.vol).1 =
    .ok (some lookedFile31) := by decide +kernel
  rw [heq] at hrun
  exact .lookup (by simp [NoNul]) hrun

theorem looked31_file : looked31.files [97] = some lookedFile31 := by
  rw [show looked31.files = Function.update written31.files [97] (some lookedFile31) from rfl,
    Function.update_self]

theorem looked31_read : ∃ st, Calls zeroShift looked31 (.read [97] 10 0) (.data [7] 1) st := by
  have hrun := Exec.quietStored (sfatSyncRead sbi31.fsInfo lookedFile31 10 0) looked31.vol
  have heq : (run quietStored (sfatSyncRead sbi31.fsInfo lookedFile31 10 0) looked31.vol).1 =
    ([7], lookedFile31, 1) := by decide +kernel
  rw [heq] at hrun
  exact ⟨_, .read (by decide) looked31_file hrun⟩

/-- The file is in cluster 1, and the inode is flushed to cluster 3. -/
theorem read_after_lookup_over_runs_oneByte : ∃ st,
    VolumeRun zeroShift sbi31.options layout31 (fun _ => 0) CallKeeps
      (writeLog ++ [(.lookup [97], .dentry (.ok (some lookedFile31)))] ++
        [(.read [97] 10 0, .data [7] 1)]) st ∧
    volumeFiles (formattedFsInfo layout31) st.vol 0 =
      volumeFiles (formattedFsInfo layout31) written31.vol 0 := by
  obtain ⟨st, hread⟩ := looked31_read
  obtain ⟨s, hs, -, -, hfar, hgood, -⟩ := read_after_lookup_over_runs
    (show formatLayout 512 31 = some layout31 by decide) (by decide)
    ((mounted31_run.call mounted31_keeps created31_call).call created31_keeps written31_call)
    looked31_call hread
  have hused : usedWords (formattedFsInfo layout31) written31.vol = 2 := by decide +kernel
  have hfat : layout31.fatLengthSectors = 1 := by decide
  exact ⟨st, hgood (by omega)⟩

end Runs

end SimpleFat

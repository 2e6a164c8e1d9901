import SimpleFat.ClusterLeak

/-!
# Clusters that a new file loses

A directory that is full gets a cluster, which is lost if the chain cannot be extended.  The other
way to lose one is the terminator that goes to the block of a cluster number that was never set:
this may be a block of the FAT, and the byte that it changes is then the highest of a word.

* `terminator_leak_iff` — the terminator in a FAT block;
* `linked_leak_iff` — the cluster that a full directory gets;
* `create_leak_iff` — when `sfat_create_file` loses none;
* `no_leak_iff` — the result.
-/

namespace SimpleFat

open SimpleFat.Lib

variable {mayFail : Request → Prop} {look : (blk pos : ℕ) → Page → ℕ} {fs : FsInfo}
  {v v' w : Vol} {start c d k : ℕ}

def CreateLosesNone (look : (blk pos : ℕ) → Page → ℕ) (sbi : SbInfo) (v : Vol) (dir : Inode)
    (n : List UInt8) (junk : CreateJunk) : Prop :=
  ∀ mayFail, FatReliable sbi.fsInfo mayFail →
    wp (failingWorld mayFail look) (sfatCreateFile sbi dir n junk)
    (fun _ v' => NoneLost sbi.fsInfo v v' dir.iStart) v

/-! ### The terminator -/

/-- A chain to a cluster depends on the other words only. -/
theorem OnChain.of_agree (h : OnChain fs v start k)
    (hother : ∀ d, d ≠ k → wordLink fs v' d = wordLink fs v d) : OnChain fs v' start k := by
  obtain ⟨n, hn⟩ := h
  obtain ⟨cs, hpath⟩ := PathTo.of_linked hn
  have hpath' : PathTo (wordLink fs v') (· = k) start cs :=
    hpath.congr (fun d _ hd => hother d hd) fun _ _ => Iff.rfl
  have hmem : k ∈ cs := by
    have hlast := hpath.last
    rw [← hlast]
    exact List.getLast_mem hpath.ne_nil
  exact hpath'.linked_of_mem hmem

/-- If the byte at an address is the highest one of a free word, its cluster is on the chain. -/
def HitsOnChain (fs : FsInfo) (v : Vol) (start a : ℕ) : Prop :=
  ∀ k < fatWords fs, a = fatWordAddr fs k + 3 → fatWord fs v k = sfatEntryFree → OnChain fs v start k

/-- The highest byte of a free word is not that of a terminator. -/
theorem fatWord_terminator_ne {cls blk : ℕ} (hk : termAddr fs cls blk + 11 = fatWordAddr fs k + 3) :
    fatWord fs (terminatorWritten fs w cls blk) k ≠ sfatEntryFree := by
  have hbyte : terminatorWritten fs w cls blk (termAddr fs cls blk + 11) = sfatAttrEmptyEnd :=
    terminatorWritten_attr w cls blk
  have h0 := (terminatorWritten fs w cls blk (fatWordAddr fs k)).toNat_lt
  have h1 := (terminatorWritten fs w cls blk (fatWordAddr fs k + 1)).toNat_lt
  have h2 := (terminatorWritten fs w cls blk (fatWordAddr fs k + 2)).toNat_lt
  have hmark : sfatAttrEmptyEnd.toNat = 128 := rfl
  rw [hk] at hbyte
  rw [fatWord, le32, hbyte, hmark, sfatEntryFree]
  omega

/-- Other words keep their value. -/
theorem fatWord_terminator (hwf : WellFormed fs) {cls blk : ℕ}
    (hk : termAddr fs cls blk + 11 ≠ fatWordAddr fs k + 3) :
    fatWord fs (terminatorWritten fs w cls blk) k = fatWord fs w k := by
  obtain ⟨e, -, -, hbs⟩ := hwf.blockSize_slots
  have hterm : termAddr fs cls blk % 32 = 0 := by
    rw [termAddr, hbs, Nat.mul_left_comm, Nat.mul_mod_right]
  have hfat : fs.fatStartBlk * fs.blockSize % 32 = 0 := by
    rw [hbs, Nat.mul_left_comm, Nat.mul_mod_right]
  rw [terminatorWritten_eq]
  refine fatWord_patch ?_
  rw [fatWordAddr] at hk ⊢
  omega

/-- **The terminator in any block** loses a cluster only through the word that it hits. -/
theorem terminator_leak_iff (hwf : WellFormed fs) (hfat : SameFat fs v w) (cls blk : ℕ) :
    NoneLost fs v (terminatorWritten fs w cls blk) start ↔
      HitsOnChain fs v start (termAddr fs cls blk + 11) := by
  have hother : ∀ k, termAddr fs cls blk + 11 = fatWordAddr fs k + 3 → ∀ d, d ≠ k →
      wordLink fs (terminatorWritten fs w cls blk) d = wordLink fs v d := by
    intro k hk d hd
    have hword : fatWord fs (terminatorWritten fs w cls blk) d = fatWord fs w d := by
      refine fatWord_terminator hwf fun heq => hd ?_
      rw [fatWordAddr] at hk heq
      omega
    rw [← wordLink_congr hfat, wordLink, wordLink, hword]
  constructor
  · intro h k hk haddr hfree
    have hon := (h k hk hfree).resolve_left (fatWord_terminator_ne haddr)
    exact hon.of_agree fun d hd => (hother k haddr d hd).symm
  · intro h k hk hfree
    by_cases haddr : termAddr fs cls blk + 11 = fatWordAddr fs k + 3
    · exact .inr ((h k hk haddr hfree).of_agree (hother k haddr))
    · left
      rw [fatWord_terminator hwf haddr, hfat k hk]
      exact hfree

/-! ### The new cluster -/

/-- The chain of an extension starts and ends in clusters. -/
theorem appendTarget_lt (hp : Placed fs) {n : ℕ} (h : appendTarget look fs v n start = some d) :
    start < sfatEntryMax ∧ d < fatWords fs := by
  have hmax := hp.clusters_lt
  obtain ⟨cs, hchain, -, -, hlast⟩ := appendTarget_chain hp h
  have hstart := hchain.below start hchain.path.head_mem
  exact ⟨by omega, lt_fatWords hp (hchain.below d (List.mem_of_getLast? hlast))⟩

/-- **A cluster that was taken and linked** is lost if the link does not keep it on the chain. -/
theorem linked_leak_iff (hp : Placed fs) (hc : FirstFree fs v c) {n : ℕ}
    (hd : appendTarget look fs (setFatWord fs v c sfatEntryEoc) n start = some d) :
    NoneLost fs v (clusterLinked fs v d c) start ↔ StaysLinked fs v start d c := by
  obtain ⟨hstart, hlt⟩ := appendTarget_lt hp hd
  have hword := @fatWord_clusterLinked fs v d c (lt_of_fatWords hp hc.1)
  refine ⟨fun h => ?_, noneLost_linked hp hc hlt hstart (NoneBehind.refl fs v d) (NoneLost.refl fs v _)⟩
  -- the two clusters are in use now, under numbers of clusters
  have hclusters := hp.clusters_lt
  by_cases hmax : c < sfatEntryMax
  · have hon := (h c hc.1 hc.2.1).resolve_left (used_clusterLinked hp hc hmax (.inr (.inr rfl)))
    rcases (onChain_taken_iff hp hc hlt hstart).mp hon with hlink | hon
    · exact .inl hlink
    · by_cases hfree : fatWord fs v d = sfatEntryFree
      · have hbefore := (h d hlt hfree).resolve_left (used_clusterLinked hp hc hmax (.inr (.inl rfl)))
        exact .inl ⟨(onChain_before_iff hp hc).mp hbefore, hmax⟩
      · exact .inr ⟨hon, hfree⟩
  · have hne : c ≠ d := by
      obtain ⟨cs, hchain, -, -, hlast⟩ := appendTarget_chain hp hd
      have hdlt := hchain.below d (List.mem_of_getLast? hlast)
      omega
    have hused : fatWord fs (clusterLinked fs v d c) c ≠ sfatEntryFree := by
      rw [hword, if_neg hne, if_pos rfl]
      decide
    exact absurd (((h c hc.1 hc.2.1).resolve_left hused).lt_max hstart) hmax

/-- The first block of a cluster is not in the FAT. -/
theorem clusterStarted_sameFat (hp : Placed fs) (hc : c < 2 ^ 32) (de : SfatDirEntry) (w : Vol) :
    SameFat fs w (clusterStarted fs w c de) :=
  SameFat.of_below hp fun _ ha => clusterStarted_below hp hc ha

/-! ### The function -/

section Create

variable {sbi : SbInfo} {dir : Inode} {name : Vector UInt8 11} {junk : CreateJunk} {s : Slot}

/-- **When a new file loses no cluster**: the terminator hits no free word, and a new cluster can be
linked, under a number that is no mark. -/
structure CreateKeeps (look : (blk pos : ℕ) → Page → ℕ) (fs : FsInfo) (v : Vol) (dir : Inode)
    (junk : CreateJunk) : Prop where
  /-- The last slot of a block that is not the last one of its cluster. -/
  stray : ∀ s, firstUnused (chainSlots look fs v dir.iStart) = some s → s.EndsBlock fs →
    s.blk + 1 < fs.blkPerClus →
    HitsOnChain fs v dir.iStart (strayBlk fs s junk * fs.blockSize + 11)
  /-- A full directory. -/
  full : firstUnused (chainSlots look fs v dir.iStart) = none → ∀ c, FirstFree fs v c →
    match appendTarget look fs (setFatWord fs v c sfatEntryEoc) fs.clusters dir.iStart with
    | none => OnChain fs v dir.iStart c
    | some d => StaysLinked fs v dir.iStart d c

/-- The common end leaves the FAT alone. -/
theorem createFinish_noneLost (hp : Placed sbi.fsInfo) (hslot : SlotPosition sbi.fsInfo dir)
    {de : SfatDirEntry} {iPos : ℕ} (hfile : de.isDir = false)
    (h : NoneLost sbi.fsInfo v w start) :
    wp (failingWorld mayFail look) (createFinish sbi dir de iPos)
      (fun _ v' => NoneLost sbi.fsInfo v v' start) w := by
  have hflushed := h.sameFat (flushed_sameFat hp hslot w)
  exact createFinish_of hfile (fun _ _ => h) (fun _ => hflushed) fun _ _ => hflushed

/-- **A slot that is reused.** -/
theorem createInFreeSlot_noneLost (hp : Placed sbi.fsInfo) (hstart : dir.iStart < 2 ^ 32)
    (hslot : SlotPosition sbi.fsInfo dir) (hkeeps : CreateKeeps look sbi.fsInfo v dir junk)
    (hs : firstUnused (chainSlots look sbi.fsInfo v dir.iStart) = some s) (t : ℕ) :
    wp (failingWorld mayFail look) (createInFreeSlot sbi dir name t junk (freeSlotOf sbi.fsInfo v s))
      (fun _ v' => NoneLost sbi.fsInfo v v' dir.iStart) v := by
  obtain ⟨hplaced, hmem⟩ := firstUnused_placed hp.toWellFormed hstart hs
  have hfile := formDirEntry_file name 0 0 t
  generalize hde : sfatFormDirEntry false name 0 0 t = de at hfile
  have hfat : SameFat sbi.fsInfo v (slotWritten sbi.fsInfo v s de) :=
    SameFat.of_below hp fun a ha => slotWritten_below hp hplaced de ha
  have hwritten : NoneLost sbi.fsInfo v (slotWritten sbi.fsInfo v s de) dir.iStart :=
    NoneLost.of_sameFat hfat
  have hslot' : SlotPosition sbi.fsInfo { dir with iMtime := t } := hslot
  have hrefl : ∀ e : Errno, NoneLost sbi.fsInfo v v dir.iStart := fun _ => NoneLost.refl _ v _
  by_cases hlast : s.EndsBlock sbi.fsInfo
  · rw [wp_createInLastSlot hp.toWellFormed hmem hrefl hlast, hde,
      wp_createMoveTerminator_failing hp.toWellFormed]
    by_cases hblk : s.blk + 1 < sbi.fsInfo.blkPerClus
    · rw [if_pos hblk]
      refine ⟨createFinish_noneLost hp hslot' hfile ?_, fun _ => hwritten⟩
      exact (terminator_leak_iff hp.toWellFormed hfat _ _).mpr (hkeeps.stray s hs hlast hblk)
    · rw [if_neg hblk]
      split
      · exact hwritten
      · refine ⟨fun _ => hwritten, fun _ => hwritten, ?_⟩
        split
        · exact createFinish_noneLost hp hslot' hfile hwritten
        · split
          · exact hwritten
          · -- the terminator goes to the next cluster, in the data area
            rename_i hnext
            have hmax := hp.clusters_lt
            rw [sfatEntryMax] at hmax
            have hnext : nextWord look sbi.fsInfo (slotWritten sbi.fsInfo v s de) s.cls <
                2 ^ 32 := by omega
            have hmoved := hwritten.sameFat
              (SameFat.of_below hp fun a ha => terminatorWritten_below hp hnext ha)
            exact ⟨createFinish_noneLost hp hslot' hfile hmoved, fun _ => hwritten⟩
  · rw [wp_createInFreeSlot hp.toWellFormed hmem hrefl hlast, hde]
    exact createFinish_noneLost hp hslot' hfile hwritten

/-- **A full directory.** -/
theorem createInNewCluster_noneLost (hp : Placed sbi.fsInfo)
    (hrel : FatReliable sbi.fsInfo mayFail) (hslot : SlotPosition sbi.fsInfo dir)
    (hkeeps : CreateKeeps look sbi.fsInfo v dir junk)
    (hfull : firstUnused (chainSlots look sbi.fsInfo v dir.iStart) = none) (t : ℕ) :
    wp (failingWorld mayFail look) (createInNewCluster sbi dir name t junk)
      (fun _ v' => NoneLost sbi.fsInfo v v' dir.iStart) v := by
  obtain ⟨e, he16, -, hbs⟩ := hp.blockSize_slots
  rw [createInNewCluster]
  simp only []
  refine (wp_acquire_bind hp.toWellFormed fun e => ?_).mpr fun c hc => ?_
  · exact (wp_done _ _ _).mpr (NoneLost.refl _ v _)
  have hkeep := hkeeps.full hfull c hc
  simp only []
  rw [wp_append_reliable hp hrel]
  cases happend : appendTarget look sbi.fsInfo (setFatWord sbi.fsInfo v c sfatEntryEoc)
    sbi.fsInfo.clusters dir.iStart with
  | none =>
    rw [happend] at hkeep
    have hlost := (noneLost_acquired hc (NoneLost.refl sbi.fsInfo v dir.iStart)).mpr fun _ => hkeep
    exact (wp_done _ _ _).mpr hlost
  | some d =>
    rw [happend] at hkeep
    have hlost := (linked_leak_iff hp hc happend).mpr hkeep
    have hstarted := hlost.sameFat (clusterStarted_sameFat hp (lt_of_fatWords hp hc.1)
      (sfatFormDirEntry false name 0 0 t) _)
    have hslot' : SlotPosition sbi.fsInfo (dir.grown sbi.fsInfo t) := hslot.congr rfl rfl
    simp only [appendOutcome]
    rw [wp_readBlock]
    refine ⟨?_, fun _ => (wp_done _ _ _).mpr hlost⟩
    simp only []
    rw [wp_writeBlock, putBlock_putAttr _ _ (by omega), putBlock_putDirent _ _ (by omega),
      putBlock_blockAt]
    refine ⟨?_, fun _ => (wp_done _ _ _).mpr hlost⟩
    rw [if_pos rfl, wp_bind_pure]
    exact createFinish_noneLost hp hslot' (formDirEntry_file _ _ _ _) hstarted

/-- **What a new file has not lost** before its common end. -/
theorem CreateStep.keeps (hp : Placed sbi.fsInfo) (hstart : dir.iStart < 2 ^ 32)
    (hname : NameFree look sbi.fsInfo v dir.iStart name) {t : ℕ} {dir' : Inode} {v₁ : Vol}
    {p : Except CreateReturn (SfatDirEntry × ℕ)}
    (hstep : CreateStep look sbi.fsInfo v dir name junk t p dir' v₁)
    (hlost : NoneLost sbi.fsInfo v v₁ dir.iStart) : CreateKeeps look sbi.fsInfo v dir junk := by
  -- a slot that is no last one of a block, and a directory that is not full
  have hfree : ∀ {s}, firstUnused (chainSlots look sbi.fsInfo v dir.iStart) = some s →
      (s.EndsBlock sbi.fsInfo → s.blk + 1 < sbi.fsInfo.blkPerClus →
        HitsOnChain sbi.fsInfo v dir.iStart (strayBlk sbi.fsInfo s junk * sbi.fsInfo.blockSize + 11)) →
      CreateKeeps look sbi.fsInfo v dir junk := by
    intro s hs h
    refine ⟨fun s' hs' => ?_, fun hfull => absurd (hs.symm.trans hfull) (by simp)⟩
    obtain rfl := Option.some.inj (hs.symm.trans hs')
    exact h
  have hnofree : firstUnused (chainSlots look sbi.fsInfo v dir.iStart) = none →
      (∀ c, FirstFree sbi.fsInfo v c → match appendTarget look sbi.fsInfo
        (setFatWord sbi.fsInfo v c sfatEntryEoc) sbi.fsInfo.clusters dir.iStart with
        | none => OnChain sbi.fsInfo v dir.iStart c
        | some d => StaysLinked sbi.fsInfo v dir.iStart d c) → CreateKeeps look sbi.fsInfo v dir junk :=
    fun hfull h => ⟨fun s hs => absurd (hs.symm.trans hfull) (by simp), fun _ => h⟩
  rw [NameFree] at hname
  cases hstep with
  | visible hscan =>
    rw [hscan] at hname
    cases hname
  | refused hscan href =>
    rw [hscan, href] at hname
    cases hname
  | slot _ hs hlast => exact hfree hs fun h => absurd h hlast
  | @slotMoved s _ _ hs hlast hmove =>
    refine hfree hs fun _ hblk => ?_
    obtain ⟨hplaced, -⟩ := firstUnused_placed hp.toWellFormed hstart hs
    rw [moveTerminator, if_pos hblk] at hmove
    obtain rfl := (Prod.mk.inj hmove).2
    exact (terminator_leak_iff hp.toWellFormed
      (SameFat.of_below hp fun a ha => slotWritten_below hp hplaced _ ha) _ _).mp hlost
  | slotStuck _ hs hlast hmove =>
    refine hfree hs fun _ hblk => ?_
    rw [moveTerminator, if_pos hblk] at hmove
    cases (Prod.mk.inj hmove).1
  | noCluster _ hfull hnone => exact hnofree hfull fun c hc => absurd hc.2.1 (hnone c hc.1)
  | unlinked _ hfull hc happend =>
    refine hnofree hfull fun c' hc' => ?_
    obtain rfl := hc.unique hc'
    rw [happend]
    exact (noneLost_acquired hc (NoneLost.refl sbi.fsInfo v _)).mp hlost hc.2.1
  | newCluster _ hfull hc happend =>
    refine hnofree hfull fun c' hc' => ?_
    obtain rfl := hc.unique hc'
    rw [happend]
    refine (linked_leak_iff hp hc happend).mp (NoneLost.sameFat hlost ?_)
    exact (clusterStarted_sameFat hp (lt_of_fatWords hp hc.1) _ _).symm

/-- What a new file without failures has not lost. -/
theorem CreateLosesNone.keeps (hp : Placed sbi.fsInfo) (hstart : dir.iStart < 2 ^ 32)
    (hslot : SlotPosition sbi.fsInfo dir) {n : List UInt8}
    (hname : NameFree look sbi.fsInfo v dir.iStart (padName n))
    (h : CreateLosesNone look sbi v dir n junk) : CreateKeeps look sbi.fsInfo v dir junk := by
  obtain ⟨r, v', hlost, t, p, v₁, hstep, hend⟩ :=
    exists_quiet (h noFailure (fatReliable_noFailure sbi.fsInfo))
      (create_spec hp.toWellFormed dir n junk)
  have hslot' : SlotPosition sbi.fsInfo r.2 := hslot.congr hstep.iIno_eq hstep.iPos_eq
  refine hstep.keeps hp hstart hname ?_
  cases p with
  | error early => exact hend.2 ▸ hlost
  | ok entry =>
    obtain ⟨rfl, -⟩ := hend
    exact hlost.sameFat (flushed_sameFat hp hslot' v₁).symm

/-- When `sfat_create_file` loses no cluster. -/
theorem create_leak_iff (hp : Placed sbi.fsInfo) (hstart : dir.iStart < 2 ^ 32)
    (hslot : SlotPosition sbi.fsInfo dir) (n : List UInt8) :
    CreateLosesNone look sbi v dir n junk ↔
      (NameFree look sbi.fsInfo v dir.iStart (padName n) →
        CreateKeeps look sbi.fsInfo v dir junk) := by
  refine ⟨fun h hname => h.keeps hp hstart hslot hname, fun h mayFail hrel => ?_⟩
  refine (wp_create n fun e => NoneLost.refl _ v _).mpr fun hname => ⟨fun s hs t => ?_,
    fun hfull t => ?_⟩
  · exact createInFreeSlot_noneLost hp hstart hslot (h hname) hs t
  · exact createInNewCluster_noneLost hp hrel hslot (h hname) hfull t

end Create

/-! ### The result -/

/-- **When no cluster is lost**, for every file and every directory whose slot is in the data area,
with lookups that deliver stored words or addresses. -/
theorem no_leak_iff {sbi : SbInfo} (hlook : StoredOrAddress look) (hp : Placed sbi.fsInfo) (v : Vol) :
    (∀ inode len ppos, SlotPosition sbi.fsInfo inode →
      (WriteLosesNone look sbi.fsInfo v inode len ppos ↔
        (WriteAllowed inode len ppos → WriteKeeps look sbi.fsInfo v inode len ppos))) ∧
    (∀ dir n junk, SlotPosition sbi.fsInfo dir → dir.iStart < 2 ^ 32 →
      (CreateLosesNone look sbi v dir n junk ↔
        (NameFree look sbi.fsInfo v dir.iStart (padName n) →
          CreateKeeps look sbi.fsInfo v dir junk))) :=
  ⟨fun _ _ _ hslot => write_leak_iff hlook hp hslot,
    fun _ n _ hslot hstart => create_leak_iff hp hstart hslot n⟩

/-- A file that `sfat_create_file` made: it has no cluster. -/
def emptyFile31 : Inode := { oneBlockFile with iStart := sfatEntryFree, iSize := 0 }

theorem emptyFile31_position : SlotPosition sbi31.fsInfo emptyFile31 :=
  .inr ⟨⟨by decide, by decide⟩, by decide⟩

theorem no_leak_iff_oneFile :
    (WriteLosesNone storedWord sbi31.fsInfo oneFileVolume emptyFile31 1 0 ↔
      (WriteAllowed emptyFile31 1 0 →
        WriteKeeps storedWord sbi31.fsInfo oneFileVolume emptyFile31 1 0)) ∧
    (CreateLosesNone storedWord sbi31 oneFileVolume root31 [98] ⟨0, 0⟩ ↔
      (NameFree storedWord sbi31.fsInfo oneFileVolume 0 (padName [98]) →
        CreateKeeps storedWord sbi31.fsInfo oneFileVolume root31 ⟨0, 0⟩)) :=
  ⟨(no_leak_iff storedOrAddress_storedWord placed31 oneFileVolume).1 emptyFile31 1 0
      emptyFile31_position,
    (no_leak_iff storedOrAddress_storedWord placed31 oneFileVolume).2 root31 [98] ⟨0, 0⟩ (.inl rfl)
      (by decide)⟩

/-- A chain ends at a mark. -/
theorem onChain_end (h : wordLink fs v start = none) : OnChain fs v start k ↔ k = start := by
  constructor
  · rintro ⟨n, hn⟩
    cases n with
    | zero => exact (Option.some.inj hn).symm
    | succ n =>
      rw [linked, h] at hn
      cases hn
  · intro heq
    exact ⟨0, congrArg some heq.symm⟩

/-- **The first cluster of a file is lost** when the bytes cannot be copied; and without any failure
a write that goes on behind the last cluster of a file loses one, and so does a new file in a full
directory with the lookup of the code. -/
theorem leaks_clusters :
    ¬ WriteLosesNone storedWord sbi31.fsInfo oneFileVolume emptyFile31 1 0 ∧
      ¬ WriteLosesNone storedWord sbi31.fsInfo oneClusterVolume oneBlockFile 2049 0 ∧
      ¬ CreateLosesNone (addressLookup fun _ => 4096) sbi31 fullRootVolume root31 [98] ⟨0, 0⟩ := by
  refine ⟨fun h => ?_, fun h => ?_, fun h => ?_⟩
  · have hfree : FirstFree sbi31.fsInfo oneFileVolume 1 :=
      ⟨by decide, by decide +kernel, by decide +kernel⟩
    have hend : ¬ WritesInside sbi31.fsInfo emptyFile31 0 := by
      show ¬ (0 &&& (512 - 1) ≠ 0 ∨ 0 < 0)
      decide
    have hon := h.emptyFirst placed31 emptyFile31_position ⟨by decide, by decide⟩ hend rfl hfree
    rw [onChain_end (by decide +kernel)] at hon
    exact absurd hon (by decide)
  · have hfree : FirstFree sbi31.fsInfo oneClusterVolume 2 :=
      ⟨by decide, by decide +kernel, by decide +kernel⟩
    have hseek : SeekFinds storedWord sbi31.fsInfo oneClusterVolume oneBlockFile.iStart 0 1 :=
      ⟨by decide +kernel, rfl⟩
    have hmark : ReachesMark storedWord sbi31.fsInfo oneClusterVolume 1 1 :=
      ⟨by decide +kernel, .inl (by decide +kernel)⟩
    have hon := h.inside storedOrAddress_storedWord placed31 (.inr ⟨⟨by decide, by decide⟩, by decide⟩)
      ⟨by decide, by decide⟩ (.inr (by decide)) hseek hmark hfree
    rw [onChain_end (by decide +kernel)] at hon
    exact absurd hon (by decide)
  · have hname : NameFree (addressLookup fun _ => 4096) sbi31.fsInfo fullRootVolume root31.iStart
        (padName [98]) := nameFree_iff.mpr (.inr (by decide +kernel))
    have hfree : FirstFree sbi31.fsInfo fullRootVolume 1 :=
      ⟨by decide, by decide +kernel, by decide +kernel⟩
    have hon := (h.keeps placed31 (by decide) (.inl rfl) hname).full (by decide +kernel) 1 hfree
    have hnone : appendTarget (addressLookup fun _ => 4096) sbi31.fsInfo
        (setFatWord sbi31.fsInfo fullRootVolume 1 sfatEntryEoc) sbi31.fsInfo.clusters
        root31.iStart = none := by decide +kernel
    rw [hnone] at hon
    have hend : wordLink sbi31.fsInfo fullRootVolume root31.iStart = none := by decide +kernel
    exact absurd ((onChain_end hend).mp hon) (by decide)

end SimpleFat

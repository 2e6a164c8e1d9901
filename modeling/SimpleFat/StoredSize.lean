import SimpleFat.InodeFlush
import SimpleFat.WriteComplete

/-!
# The size on disk

The size of a file is a 64-bit number in memory and a 32-bit field in its slot, and nothing stops a
write at the end of the field.  What is stored is the size of the file as long as the file stays
below 4 GiB; whether a write stays below depends on whether the missing bytes fit.  And it is stored
at `i_pos`: if that is not the slot of the file, the slot keeps the size that it has.

* `EnoughRoom.writeFits`, `StaysBelow.size_lt` — what fits, in terms of the chain of the file;
* `DataRun.keepsSlot` — a write leaves the cluster of the slot alone;
* `stored_size_iff` — the result;
* `stored_size_fails` — a file of `2 ^ 32 - 1` bytes gets one more.
-/

namespace SimpleFat

open SimpleFat.Lib

variable {mayFail : Request → Prop} {look : (blk pos : ℕ) → Page → ℕ} {fs : FsInfo} {v v' : Vol}
  {st st' : SyncWriteState} {cs : List ℕ}

/-! ### What fits behind a chain -/

/-- The room behind a cluster in use is in the free words. -/
theorem RoomFor.freeFor (hp : Placed fs) {m cur : ℕ} (h : RoomFor fs m v cur)
    (hused : fatWord fs v cur ≠ sfatEntryFree) : FreeFor fs m (freeList fs v) cur := by
  have hpred := hp.clustersPred_eq hp.clusters_pos
  have hmax := hp.clusters_lt
  rw [sfatEntryMax] at hmax
  induction m generalizing v cur with
  | zero => exact trivial
  | succ m ih =>
    obtain ⟨hcur, c, hc, hrest⟩ := h
    have hne : c ≠ cur := fun heq => hused (heq ▸ hc.2.1)
    rw [freeList_firstFree hc]
    refine ⟨hcur, ?_⟩
    cases m with
    | zero => exact trivial
    | succ m =>
      -- an accepted cluster is no mark
      have hacc := hrest.1
      have hmark : c % 2 ^ 32 ≠ sfatEntryFree := by
        rw [sfatEntryFree]
        omega
      have hnew : fatWord fs (clusterLinked fs v cur c) c ≠ sfatEntryFree := by
        rw [clusterLinked, fatWord_setFatWord_ne hne, fatWord_setFatWord]
        decide
      rw [← freeList_of_linked hc hused hmark (SameFat.refl fs _)]
      exact ih hrest hnew

/-- The clusters that the walk finds are those of the chain. -/
theorem LinksFor.chainFor (hwf : WellFormed fs) (hrow : ClusterRow fs v cs) (hend : RowEnds fs v cs)
    {m cur k : ℕ} (h : LinksFor storedWord fs v m cur) (hk : cs[k]? = some cur) :
    ChainFor fs cs k m := by
  induction m generalizing cur k with
  | zero => exact ⟨(List.getElem?_eq_some_iff.mp hk).1, fun j hj hjk => by omega⟩
  | succ m ih =>
    obtain ⟨hcur, hmax, hrest⟩ := h
    rw [chainFor_succ hk hcur]
    exact ih hrest (hrow.next hend hk (nextWord_storedWord hwf v cur).symm hmax)

section Chain

variable {inode inode' : Inode} {buf : ℕ → UInt8} {len ppos n : ℕ}

/-- **`n` bytes fit at a position**: a write of that many bytes can store all of them. -/
inductive WriteFits (fs : FsInfo) (v : Vol) (inode : Inode) (cs : List ℕ) (n ppos : ℕ) : Prop
  /-- It starts inside the file and fits its clusters, of which the last data cluster is not left. -/
  | inside : WritesInside fs inode ppos → inode.iStart + 1 < fs.clusters →
      (ppos + n - 1) / fs.clusterSize < cs.length →
      (∀ j < (ppos + n - 1) / fs.clusterSize, ∀ b, cs[j]? = some b → b + 1 < fs.clusters) →
      WriteFits fs v inode cs n ppos
  /-- It appends to a file without the last data cluster, and there are free words. -/
  | append : ¬ WritesInside fs inode ppos → 0 < inode.iSize → (∀ b ∈ cs, b + 1 < fs.clusters) →
      (∀ l, cs.getLast? = some l → FreeFor fs (clustersFor fs n) (freeList fs v) l) →
      WriteFits fs v inode cs n ppos
  /-- The file is empty, and there are free words. -/
  | empty {c : ℕ} : inode.iSize = 0 → FirstFree fs v c →
      FreeFor fs (clustersFor fs (n - min n fs.clusterSize)) (freeAfter fs v c) c →
      WriteFits fs v inode cs n ppos

theorem writeFits_inside_iff (hp : Placed fs) (hfile : FileChain fs v inode cs)
    (hallow : WriteAllowed inode n ppos) (hin : WritesInside fs inode ppos) :
    WriteFits fs v inode cs n ppos ↔ (∃ c, SeekFinds storedWord fs v inode.iStart ppos c) ∧
      ChainFor fs cs (ppos / fs.clusterSize)
        (clustersFor fs (n - min n (fs.clusterSize - ppos % fs.clusterSize))) := by
  have hsize := (hfile.inside hp hallow hin).1
  rw [← completes_inside_iff hp hfile hallow hin]
  constructor
  · intro h
    cases h with
    | inside hin hstart hreach hacc => exact .inside hin hstart hreach hacc
    | append hout _ _ _ => exact absurd hin hout
    | empty h0 _ _ => omega
  · intro h
    cases h with
    | inside hin hstart hreach hacc => exact .inside hin hstart hreach hacc
    | append hout _ _ _ => exact absurd hin hout
    | empty h0 => omega

/-- **What fits**, in terms of the chain of the file. -/
theorem EnoughRoom.writeFits (hp : Placed fs) (hfile : FileChain fs v inode cs)
    (hallow : WriteAllowed inode n ppos) (h : EnoughRoom storedWord fs v inode n ppos) :
    WriteFits fs v inode cs n ppos := by
  have hcs := hp.clusterSize_pos
  have hpred := hp.clustersPred_eq hp.clusters_pos
  cases h with
  | inside hin hseek hlinks =>
    obtain ⟨hsize, hlt⟩ := hfile.inside hp hallow hin
    have hk := ((hfile.seek_iff hp hsize hlt).mp hseek).1
    have hchain := hlinks.chainFor hp.toWellFormed (hfile.row hp) (hfile.chain hsize).rowEnds hk
    exact (writeFits_inside_iff hp hfile hallow hin).mpr ⟨⟨_, hseek⟩, hchain⟩
  | @append c hout hsize hseek hroom =>
    have hppos : ppos = inode.iSize := by
      have hle := hallow.1
      rw [WritesInside] at hout
      omega
    rw [hppos] at hseek
    obtain ⟨hlast, hacc⟩ := hfile.atEnd hp hsize hseek
    have hused := (hfile.row hp).used c (List.mem_of_getLast? hlast)
    obtain ⟨m, hm⟩ : ∃ m, clustersFor fs n = m + 1 := ⟨_, clustersFor_step hcs hallow.2⟩
    have hcur : c < fs.clustersPred := by
      rw [hm] at hroom
      exact hroom.1
    refine .append hout hsize (fun b hb => ?_) fun l hl => ?_
    · by_cases hbc : b = c
      · omega
      · have := hacc b hb hbc
        omega
    · obtain rfl := Option.some.inj (hlast.symm.trans hl)
      exact hroom.freeFor hp hused
  | @empty c hout hzero hc hroom =>
    refine .empty hzero hc ?_
    have hnew : fatWord fs (setFatWord fs v c sfatEntryEoc) c ≠ sfatEntryFree := by
      rw [fatWord_setFatWord]
      decide
    rw [← freeList_of_acquired hc (SameFat.refl fs _)]
    exact hroom.freeFor hp hnew

/-- **The file stays below 4 GiB**: if the write is accepted and its position is found, the size is
below, and the bytes up to `2 ^ 32` are not asked for or do not fit. -/
def StaysBelow (fs : FsInfo) (v : Vol) (inode : Inode) (cs : List ℕ) (len ppos : ℕ) : Prop :=
  WriteAllowed inode len ppos →
    (WritesInside fs inode ppos → ∃ c, SeekFinds storedWord fs v inode.iStart ppos c) →
    inode.iSize < 2 ^ 32 ∧
      (2 ^ 32 ≤ ppos + len → ¬ WriteFits fs v inode cs (2 ^ 32 - ppos) ppos)

/-- The size after a write that stays below. -/
theorem StaysBelow.size_lt (hp : Placed fs) (hfile : FileChain fs v inode cs)
    (h : StaysBelow fs v inode cs len ppos)
    (hrun : DataRun mayFail storedWord fs v inode buf len ppos (.ok st, inode') v') :
    max inode.iSize (ppos + st.accuLen) < 2 ^ 32 := by
  obtain ⟨hbelow, hfits⟩ := h hrun.allowed fun hin => hrun.seekFinds hin
  have hle := hrun.allowed.1
  have htotal := hrun.total
  by_contra hover
  -- then the bytes up to the limit did fit
  have hfit := (hrun.amount storedOrAddress_storedWord hp (show 2 ^ 32 - ppos ≠ 0 by omega)
    (by omega)).1 (by omega)
  exact hfits (by omega) (hfit.writeFits hp hfile ⟨hle, by omega⟩)

end Chain

/-! ### The clusters of a write -/

/-- The cluster to which the walk over the existing clusters goes next. -/
def walkLink (look : (blk pos : ℕ) → Page → ℕ) (fs : FsInfo) (v : Vol) (c : ℕ) : Option ℕ :=
  if c < fs.clustersPred ∧ nextWord look fs v c < sfatEntryMax then some (nextWord look fs v c)
  else none

def WalksPast (look : (blk pos : ℕ) → Page → ℕ) (fs : FsInfo) (v : Vol) (c d : ℕ) : Prop :=
  ∀ n, linked (walkLink look fs v) n c ≠ some d

/-- **The slot of a file**: in a cluster that is in use, and to which no walk over the chain of the
file comes. -/
structure SlotOutside (look : (blk pos : ℕ) → Page → ℕ) (fs : FsInfo) (v : Vol) (inode : Inode)
    (pos d : ℕ) : Prop where
  lt_clusters : d < fs.clusters
  inUse : fatWord fs v d ≠ sfatEntryFree
  off_chain : 0 < inode.iSize → WalksPast look fs v inode.iStart d
  pos_eq : ∃ blk < fs.blkPerClus, ∃ idx < fs.direntPerBlk, pos = slotAddr fs d blk idx

def ClusterKept (fs : FsInfo) (d : ℕ) (v v' : Vol) : Prop :=
  ∀ a, clsAddr fs d ≤ a → a < clsAddr fs d + fs.clusterSize → v' a = v a

section Clusters

variable {c d : ℕ}

theorem WalksPast.ne (h : WalksPast look fs v c d) : c ≠ d := fun heq => h 0 (congrArg some heq)

theorem WalksPast.next (h : WalksPast look fs v c d) (hc : c < fs.clustersPred)
    (hmax : nextWord look fs v c < sfatEntryMax) : WalksPast look fs v (nextWord look fs v c) d := by
  intro n hn
  apply h (n + 1)
  rw [linked, walkLink, if_pos ⟨hc, hmax⟩]
  exact hn

theorem WalksPast.sameFat (hlook : StoredOrAddress look) (hp : Placed fs)
    (h : WalksPast look fs v c d) (hfat : SameFat fs v v') : WalksPast look fs v' c d := by
  have hpred := hp.clustersPred_eq hp.clusters_pos
  intro n hn
  refine h n (linked_mono (fun a b hab => ?_) hn)
  rw [walkLink] at hab ⊢
  by_cases ha : a < fs.clustersPred
  · rwa [hlook.congr hp.toWellFormed (hfat a (lt_fatWords hp (by omega)))] at hab
  · rw [if_neg fun hgo => ha hgo.1] at hab
    cases hab

/-- A seek comes to a cluster of the walk. -/
theorem SeekFinds.ne (hp : Placed fs) {start pos : ℕ} (h : SeekFinds look fs v start pos c)
    (hpast : WalksPast look fs v start d) : WalksPast look fs v c d := by
  have hmax := hp.clusters_lt
  intro n hn
  have hlink : ∀ a b, nextCls look fs v a = some b → walkLink look fs v a = some b := by
    intro a b hab
    obtain ⟨ha, hb, hle⟩ := nextCls_some hab
    rw [walkLink, hb, if_pos ⟨ha, by omega⟩]
  exact hpast _ (linked_add (linked_mono hlink h.2) hn)

theorem ClusterKept.refl (fs : FsInfo) (d : ℕ) (v : Vol) : ClusterKept fs d v v := fun _ _ _ => rfl

theorem ClusterKept.trans {w : Vol} (h : ClusterKept fs d v v') (h' : ClusterKept fs d v' w) :
    ClusterKept fs d v w := fun a ha ha' => (h' a ha ha').trans (h a ha ha')

/-- A write to another cluster. -/
theorem clusterKept_chunk (hp : Placed fs) (st : SyncWriteState) (hd : d < 2 ^ 32)
    (hcur : st.curCls < 2 ^ 32) (hne : st.curCls ≠ d) {offset n : ℕ} (hn : offset + n ≤ fs.clusterSize) :
    ClusterKept fs d v (chunkWritten fs st offset n v) := by
  intro a ha ha'
  rcases clsAddr_apart hp hcur hd hne with h | h
  · exact patch_of_ge _ _ (by omega)
  · exact patch_of_lt _ _ (by omega)

theorem clusterKept_setFatWord (hp : Placed fs) (hd : d < 2 ^ 32) (hc : c < fatWords fs) (x : ℕ) :
    ClusterKept fs d v (setFatWord fs v c x) := by
  have hdata := dataStart_le_clsAddr hp hd
  exact fun a ha _ => setFatWord_data hp hc x (by omega)

theorem clusterKept_linked (hp : Placed fs) (hd : d < 2 ^ 32) {cur : ℕ} (hcur : cur < fs.clusters)
    (hc : c < fatWords fs) : ClusterKept fs d v (clusterLinked fs v cur c) :=
  (clusterKept_setFatWord hp hd hc _).trans (clusterKept_setFatWord hp hd (lt_fatWords hp hcur) _)

/-- **The walk over the existing clusters writes to those of the walk only.** -/
theorem ExistingRun.keepsCluster (hlook : StoredOrAddress look) (hp : Placed fs) (hd : d < 2 ^ 32)
    {r : Loop SyncWriteState SyncWriteState} (hrun : ExistingRun mayFail look fs st v r v')
    (hpast : WalksPast look fs v st.curCls d) : ClusterKept fs d v v' := by
  induction hrun with
  | done _ => exact ClusterKept.refl fs d _
  | refused _ _ => exact ClusterKept.refl fs d _
  | ended _ _ _ => exact ClusterKept.refl fs d _
  | @short st v c n _ hcur hc hmax hn _ =>
    have hc32 : c < 2 ^ 32 := by
      rw [sfatEntryMax] at hmax
      omega
    have hnext : WalksPast look fs v c d :=
      hc ▸ hpast.next (Nat.lt_of_not_le hcur) (by rw [hc]; exact hmax)
    exact clusterKept_chunk hp _ hd hc32 hnext.ne (by rw [chunkLen] at hn; omega)
  | @more st r v v' c _ hcur hc hmax _ ih =>
    have hc32 : c < 2 ^ 32 := by
      rw [sfatEntryMax] at hmax
      omega
    have hnext : WalksPast look fs v c d :=
      hc ▸ hpast.next (Nat.lt_of_not_le hcur) (by rw [hc]; exact hmax)
    have hlen : 0 + chunkLen fs (st.at c) 0 ≤ fs.clusterSize := by
      rw [chunkLen]
      omega
    have hchunk := clusterKept_chunk (v := v) hp (st.at c) hd hc32 hnext.ne hlen
    exact hchunk.trans (ih (hnext.sameFat hlook hp (sameFat_chunk hp hc32 0 _)))

/-- **The loop for new clusters writes to free ones only.** -/
theorem NewRun.keepsCluster (hp : Placed fs) (hd : d < fs.clusters)
    (hrun : NewRun mayFail fs st v st' v') (hused : fatWord fs v d ≠ sfatEntryFree)
    (hcur : st.len ≠ 0 → st.curCls ≠ d) : ClusterKept fs d v v' := by
  have hpred := hp.clustersPred_eq hp.clusters_pos
  have hd32 := lt_of_fatWords hp (lt_fatWords hp hd)
  induction hrun with
  | done _ => exact ClusterKept.refl fs d _
  | noCluster _ _ => exact ClusterKept.refl fs d _
  | unlinked _ hc _ => exact clusterKept_setFatWord hp hd32 hc.1 _
  | @short st v c n hlen hc hacc hn _ =>
    have hne : c ≠ d := fun heq => hused (heq ▸ hc.2.1)
    have hn : 0 + n ≤ fs.clusterSize := by
      rw [chunkLen] at hn
      omega
    exact (clusterKept_linked hp hd32 (by omega) hc.1).trans
      (clusterKept_chunk hp _ hd32 (lt_of_fatWords hp hc.1) hne hn)
  | @more st st' v v' c hlen hc hacc _ ih =>
    have hne : c ≠ d := fun heq => hused (heq ▸ hc.2.1)
    have hn : 0 + chunkLen fs (st.at c) 0 ≤ fs.clusterSize := by
      rw [chunkLen]
      omega
    have hkept := (clusterKept_linked (v := v) hp hd32 (show st.curCls < fs.clusters by omega)
      hc.1).trans (clusterKept_chunk hp (st.at c) hd32 (lt_of_fatWords hp hc.1) hne hn)
    refine hkept.trans (ih ?_ fun _ => hne)
    rw [sameFat_chunkWritten hp hc.1 d (lt_fatWords hp hd), clusterLinked,
      fatWord_setFatWord_ne (Ne.symm (hcur hlen)), fatWord_setFatWord_ne (Ne.symm hne)]
    exact hused

variable {inode inode' : Inode} {buf : ℕ → UInt8} {len ppos pos : ℕ}

/-- The branch for a position inside the file, up to the loop for new clusters. -/
theorem ExistingRun.keepsSlot (hlook : StoredOrAddress look) (hp : Placed fs)
    (hslot : SlotOutside look fs v inode pos d) (hin : WritesInside fs inode ppos) {n : ℕ}
    (hseek : SeekFinds look fs v inode.iStart ppos c)
    (hn : n = chunkLen fs ((syncWriteStart inode buf len ppos).at c) (ppos % fs.clusterSize))
    {r : Loop SyncWriteState SyncWriteState}
    (hrun : ExistingRun mayFail look fs (((syncWriteStart inode buf len ppos).at c).advance n)
      (chunkWritten fs ((syncWriteStart inode buf len ppos).at c) (ppos % fs.clusterSize) n v) r v') :
    ClusterKept fs d v v' := by
  have hd32 := lt_of_fatWords hp (lt_fatWords hp hslot.lt_clusters)
  have hmod := Nat.mod_lt ppos hp.clusterSize_pos
  have hpast := hseek.ne hp (hslot.off_chain hin.size_pos)
  have hlen : ppos % fs.clusterSize + n ≤ fs.clusterSize := by
    rw [chunkLen] at hn
    omega
  have hchunk := clusterKept_chunk (v := v) hp ((syncWriteStart inode buf len ppos).at c) hd32
    (hseek.lt hp) hpast.ne hlen
  exact hchunk.trans (hrun.keepsCluster hlook hp hd32
    (hpast.sameFat hlook hp (sameFat_chunk hp (hseek.lt hp) _ n)))

/-- **A write leaves the cluster of the slot alone.** -/
theorem DataRun.keepsSlot (hlook : StoredOrAddress look) (hp : Placed fs)
    (hslot : SlotOutside look fs v inode pos d)
    (hrun : DataRun mayFail look fs v inode buf len ppos (.ok st, inode') v') :
    ClusterKept fs d v v' := by
  have hd := hslot.lt_clusters
  have hd32 := lt_of_fatWords hp (lt_fatWords hp hd)
  have hmod := Nat.mod_lt ppos hp.clusterSize_pos
  cases hrun with
  | insideShort _ hin hseek hn _ =>
    have hpast := hseek.ne hp (hslot.off_chain hin.size_pos)
    exact clusterKept_chunk hp _ hd32 (hseek.lt hp) hpast.ne (by rw [chunkLen] at hn; omega)
  | insideOut _ hin hseek hn hexist => exact hexist.keepsSlot hlook hp hslot hin hseek hn
  | @inside c n _ _ v₁ _ _ hin hseek hn hexist hnew =>
    have hfat : SameFat fs v v₁ :=
      (sameFat_chunk hp (hseek.lt hp) _ n).trans (hexist.sameFat hp)
    refine (hexist.keepsSlot hlook hp hslot hin hseek hn).trans (hnew.keepsCluster hp hd ?_ ?_)
    · rw [hfat d (lt_fatWords hp hd)]
      exact hslot.inUse
    · intro hlen heq
      have hmark := hexist.next_mark rfl hlen
      have hmax := hp.clusters_lt
      omega
  | endNotFound _ _ _ _ => exact ClusterKept.refl fs d v
  | atEnd _ _ hsize hseek hnew =>
    have hpast := hseek.ne hp (hslot.off_chain hsize)
    exact hnew.keepsCluster hp hd hslot.inUse fun _ => hpast.ne
  | noCluster _ _ _ _ => exact ClusterKept.refl fs d v
  | @firstShort c n _ _ _ hc hn _ =>
    have hne : c ≠ d := fun heq => hslot.inUse (heq ▸ hc.2.1)
    have hn : 0 + n ≤ fs.clusterSize := by
      rw [chunkLen] at hn
      omega
    exact (clusterKept_setFatWord hp hd32 hc.1 _).trans
      (clusterKept_chunk hp _ hd32 (lt_of_fatWords hp hc.1) hne hn)
  | @first c n _ _ _ _ _ hc hn hnew =>
    have hne : c ≠ d := fun heq => hslot.inUse (heq ▸ hc.2.1)
    have hn : 0 + n ≤ fs.clusterSize := by
      rw [chunkLen] at hn
      omega
    have hkept := (clusterKept_setFatWord (v := v) hp hd32 hc.1 sfatEntryEoc).trans
      (clusterKept_chunk hp ((syncWriteStart inode buf len ppos).at c) hd32
        (lt_of_fatWords hp hc.1) hne hn)
    refine hkept.trans (hnew.keepsCluster hp hd ?_ fun _ => hne)
    rw [sameFat_chunkWritten hp hc.1 d (lt_fatWords hp hd), fatWord_setFatWord_ne (Ne.symm hne)]
    exact hslot.inUse

end Clusters

/-! ### The slot after a write -/

section Slot

variable {sbi : SbInfo} {inode inode' : Inode} {len ppos pos limit : ℕ} {buf : ℕ → UInt8}

/-- `sfat_sync_write` with the result of its last flush, if there is one; the code drops it. -/
def syncWriteFlush (fs : FsInfo) (inode : Inode) (buf : ℕ → UInt8) (len ppos : ℕ) :
    Driver ((Except Errno ℕ × Inode × ℕ) × Option (Option Errno)) := do
  match ← syncWriteData fs inode buf len ppos with
  | (.error e, inode) => pure ((.error e, inode, ppos), none)
  | (.ok st, inode) => do
    let tvSec ← currentTimeSec
    let r ← sfatInodeWriteToHd fs (inode.written fs st.ppos tvSec)
    pure ((.ok st.accuLen, inode.written fs st.ppos tvSec, st.ppos), some r)

theorem sfatSyncWrite_flush (inode : Inode) (buf : ℕ → UInt8) (len ppos : ℕ) :
    sfatSyncWrite fs inode buf len ppos =
      (syncWriteFlush fs inode buf len ppos >>= fun q => pure q.1) := by
  rw [sfatSyncWrite_eq, syncWriteFlush, Program.bind_assoc]
  congr 1
  funext p
  obtain ⟨r, inode'⟩ := p
  cases r with
  | error e => rfl
  | ok st =>
    show writeEnd fs inode' st = _
    rw [writeEnd]
    show _ = (currentTimeSec >>= _ >>= _)
    rw [Program.bind_assoc]
    congr 1
    funext tvSec
    show _ = (sfatInodeWriteToHd fs _ >>= _ >>= _)
    rw [Program.bind_assoc]
    rfl

/-- **The stored size follows the file**: after every write with a result whose flush succeeds,
whatever else fails, the slot of the file is decoded to the size in memory. -/
def StoredSizeFollows (look : (blk pos : ℕ) → Page → ℕ) (sbi : SbInfo) (v : Vol) (inode : Inode)
    (pos len ppos : ℕ) : Prop :=
  ∀ (mayFail : Request → Prop) (buf : ℕ → UInt8),
    wp (failingWorld mayFail look) (syncWriteFlush sbi.fsInfo inode buf len ppos) (fun q v' =>
      q.2 = some none → ∀ (H : Host) (raw : Inode),
        wp H.world (sfatFillInode sbi raw (direntAt v' pos) pos)
          (fun decoded _ => decoded.iSize = q.1.2.1.iSize) v') v

/-- The size stays within a limit: it is, and the bytes beyond are not asked for or do not fit. -/
def StaysWithin (look : (blk pos : ℕ) → Page → ℕ) (fs : FsInfo) (v : Vol) (inode : Inode)
    (len ppos limit : ℕ) : Prop :=
  inode.iSize ≤ limit ∧ (limit < ppos + len → ¬ EnoughRoom look fs v inode (limit + 1 - ppos) ppos)

/-- **When the stored size follows the file.**  If the write gets to its flush, either `i_pos` is the
slot of the file and the size stays within its field, or the slot has the size in memory, and the
write does not change it. -/
def SizeStored (look : (blk pos : ℕ) → Page → ℕ) (fs : FsInfo) (v : Vol) (inode : Inode)
    (pos len ppos : ℕ) : Prop :=
  WriteAllowed inode len ppos →
    (WritesInside fs inode ppos → ∃ c, SeekFinds look fs v inode.iStart ppos c) →
    (inode.iPos = pos ∧ StaysWithin look fs v inode len ppos (2 ^ 32 - 1)) ∨
      (inode.iPos ≠ pos ∧ (direntAt v pos).size = inode.iSize ∧
        StaysWithin look fs v inode len ppos inode.iSize)

/-- The size after a write that stays within a limit. -/
theorem StaysWithin.size_le (hlook : StoredOrAddress look) (hp : Placed fs)
    (h : StaysWithin look fs v inode len ppos limit)
    (hrun : DataRun mayFail look fs v inode buf len ppos (.ok st, inode') v') :
    max inode.iSize (ppos + st.accuLen) ≤ limit := by
  obtain ⟨hsize, hfits⟩ := h
  have hle := hrun.allowed.1
  have htotal := hrun.total
  by_contra hover
  have hfit := (hrun.amount hlook hp (show limit + 1 - ppos ≠ 0 by omega) (by omega)).1 (by omega)
  exact hfits (by omega) hfit

/-- Without failures the size is within a limit only if it has to stay there. -/
theorem DataRun.staysWithin (hlook : StoredOrAddress look) (hp : Placed fs)
    (hrun : DataRun noFailure look fs v inode buf len ppos (.ok st, inode') v')
    (hsize : max inode.iSize (ppos + st.accuLen) ≤ limit) :
    StaysWithin look fs v inode len ppos limit := by
  have hle := hrun.allowed.1
  refine ⟨by omega, fun hlen hfits => ?_⟩
  have hacc := (hrun.amount hlook hp (show limit + 1 - ppos ≠ 0 by omega) (by omega)).2
    not_canFail hfits
  omega

/-- The size in the slot of the file after the flush. -/
theorem DataRun.stored_size (hlook : StoredOrAddress look) (hp : Placed fs)
    (hroot : inode.iIno ≠ sfatRootIno) (hipos : SlotAligned inode.iPos)
    (hslot : inode.iPos = pos ∨ ∃ d, SlotOutside look fs v inode pos d)
    (hrun : DataRun mayFail look fs v inode buf len ppos (.ok st, inode') v') (t : ℕ) :
    (direntAt (flushed fs v' (inode'.written fs st.ppos t)) pos).size =
      if inode.iPos = pos then max inode.iSize (ppos + st.accuLen) % 2 ^ 32
      else (direntAt v pos).size := by
  have hipos' := hrun.iPos_written t
  have hroot' : (inode'.written fs st.ppos t).iIno ≠ sfatRootIno := by
    rw [hrun.iIno_written t]
    exact hroot
  have haligned : SlotAligned (inode'.written fs st.ppos t).iPos := by
    rw [hipos']
    exact hipos
  rw [flushed_aligned hp.toWellFormed hroot' haligned]
  split
  · rename_i hown
    rw [hipos', hown, direntAt_flushEntry, ← hrun.iSize_written t]
    rfl
  · rename_i haway
    obtain ⟨d, hd⟩ := hslot.resolve_left haway
    obtain ⟨blk, hblk, idx, hidx, hpos⟩ := hd.pos_eq
    have hmem := slotAddr_mem (d := d) hp hblk hidx
    obtain ⟨j, hj⟩ := slotAddr_aligned hp.toWellFormed d blk idx
    obtain ⟨k, hk⟩ := hipos.aligned
    rw [← hpos] at hmem hj
    have hsame : direntAt (flushEntry v' inode.iPos (inode'.written fs st.ppos t)) pos =
        direntAt v pos := by
      refine direntAt_congr fun i hi => ?_
      rw [flushEntry_apply _ _ _ (by omega)]
      exact hrun.keepsSlot hlook hp hd _ (by omega) (by omega)
    rw [hipos', hsame]

def FlushOutcome (mayFail : Request → Prop) (look : (blk pos : ℕ) → Page → ℕ) (fs : FsInfo) (v : Vol)
    (inode : Inode) (buf : ℕ → UInt8) (len ppos : ℕ)
    (q : (Except Errno ℕ × Inode × ℕ) × Option (Option Errno)) (v' : Vol) : Prop :=
  (∃ e inode' v₁, DataRun mayFail look fs v inode buf len ppos (.error e, inode') v₁ ∧ q.2 = none) ∨
  ∃ st inode' v₁ t, DataRun mayFail look fs v inode buf len ppos (.ok st, inode') v₁ ∧
    q.1.2.1 = inode'.written fs st.ppos t ∧
    (q.2 = some none ∧ v' = flushed fs v₁ (inode'.written fs st.ppos t) ∨
      q.2 ≠ some none ∧ CanFail mayFail)

theorem syncWriteFlush_spec (hwf : WellFormed fs) :
    wp (failingWorld mayFail look) (syncWriteFlush fs inode buf len ppos)
      (FlushOutcome mayFail look fs v inode buf len ppos) v := by
  rw [syncWriteFlush]
  refine wp_seq (syncWriteData_spec hwf inode buf len ppos) fun p v₁ hrun => ?_
  obtain ⟨r, inode'⟩ := p
  cases r with
  | error e => exact (wp_done _ _ _).mpr (.inl ⟨e, inode', v₁, hrun, rfl⟩)
  | ok st =>
    show wp (failingWorld mayFail look) (currentTimeSec >>= _) _ v₁
    rw [wp_currentTimeSec]
    intro t
    refine wp_seq (flush_spec (inode'.written fs st.ppos t)) fun r v' hr => ?_
    refine (wp_done _ _ _).mpr (.inr ⟨st, inode', v₁, t, hrun, rfl, ?_⟩)
    rcases hr with ⟨rfl, rfl⟩ | ⟨hne, -, hfail⟩
    · exact .inl ⟨rfl, rfl⟩
    · exact .inr ⟨fun heq => hne (Option.some.inj heq), hfail⟩

/-- What is decoded is the size in the slot. -/
theorem decoded_size {H : Host} (raw : Inode) {w : Vol} :
    wp H.world (sfatFillInode sbi raw (direntAt w pos) pos)
      (fun decoded _ => decoded.iSize = (direntAt w pos).size) w :=
  wp_mono (sfatFillInode_spec sbi raw _ _) fun _ _ hfilled => hfilled.2.iSize

/-- What the property says of one call whose flush succeeds. -/
theorem size_of_followed {w : Vol} {size : ℕ}
    (h : ∀ (H : Host) (raw : Inode), wp H.world (sfatFillInode sbi raw (direntAt w pos) pos)
      (fun decoded _ => decoded.iSize = size) w) : (direntAt w pos).size = size := by
  let raw : Inode := Inode.fresh ⟨0, 0, 0⟩
  obtain ⟨decoded, -, hsize, hslot⟩ := wp_lookups_nonempty
    (wp_and (h (Host.lookups noFailure storedWord) raw) (decoded_size raw))
  exact hslot.symm.trans hsize

/-- After a write that stores nothing. -/
theorem StoredSizeFollows.nothing (hwf : WellFormed sbi.fsInfo)
    (h : StoredSizeFollows look sbi v inode pos len ppos) (hallow : WriteAllowed inode len ppos)
    (hfound : WritesInside sbi.fsInfo inode ppos →
      ∃ c, SeekFinds look sbi.fsInfo v inode.iStart ppos c) :
    ∃ buf st inode' v₁ t, DataRun copyFails look sbi.fsInfo v inode buf len ppos (.ok st, inode') v₁ ∧
      st.accuLen = 0 ∧ (direntAt (flushed sbi.fsInfo v₁ (inode'.written sbi.fsInfo st.ppos t)) pos).size =
        (inode'.written sbi.fsInfo st.ppos t).iSize := by
  have hcall := h copyFails fun _ => 0
  rw [syncWriteFlush, wp_bind] at hcall
  obtain ⟨st, inode', v₁, hacc, hend, hrun⟩ := syncWriteData_nothing hwf hallow hfound
    (wp_and hcall (syncWriteData_spec hwf inode _ len ppos))
  simp only [] at hend
  rw [wp_currentTimeSec] at hend
  have hend := hend 0
  rw [wp_bind] at hend
  obtain ⟨r, w, hend, hflush⟩ := exists_quiet hend (flush_spec _)
  obtain ⟨rfl, rfl⟩ := hflush.resolve_right fun hbad => not_canFail hbad.2.2
  have hend := (wp_done _ _ _).mp hend
  exact ⟨_, st, inode', v₁, 0, hrun, hacc, size_of_followed (hend rfl)⟩

/-- **When the stored size follows the file**, for any file that is not the root directory, any
position and any length, and with any lookup that delivers the stored word or an address. -/
theorem stored_size_iff (hlook : StoredOrAddress look) (hp : Placed sbi.fsInfo)
    (hroot : inode.iIno ≠ sfatRootIno) (hipos : SlotAligned inode.iPos)
    (hslot : inode.iPos = pos ∨ ∃ d, SlotOutside look sbi.fsInfo v inode pos d) :
    StoredSizeFollows look sbi v inode pos len ppos ↔
      SizeStored look sbi.fsInfo v inode pos len ppos := by
  constructor
  · intro h hallow hfound
    -- what happens when nothing fails
    obtain ⟨q, w, hfollows, hout⟩ := exists_quiet (h noFailure fun _ => 0)
      (syncWriteFlush_spec hp.toWellFormed)
    rcases hout with ⟨e, inode', v₁, hrun, -⟩ | ⟨st, inode', v₁, t, hrun, hinode, hflush⟩
    · cases hrun with
      | rejected hreject => exact absurd hallow hreject
      | notFound _ hin hmiss =>
        obtain ⟨c, hc⟩ := hfound hin
        exact absurd hc (hmiss.resolve_right not_canFail c)
    · obtain ⟨hok, rfl⟩ := hflush.resolve_right fun hbad => not_canFail hbad.2
      have hsize := size_of_followed (hfollows hok)
      rw [hinode, hrun.stored_size hlook hp hroot hipos hslot, hrun.iSize_written] at hsize
      by_cases hown : inode.iPos = pos
      · rw [if_pos hown] at hsize
        have hlt := Nat.mod_lt (max inode.iSize (ppos + st.accuLen)) (Nat.two_pow_pos 32)
        exact .inl ⟨hown, hrun.staysWithin hlook hp (by omega)⟩
      · -- and when the first copy fails
        obtain ⟨buf, st₂, inode₂, v₂, t₂, hrun₂, hacc, hnothing⟩ :=
          h.nothing hp.toWellFormed hallow hfound
        have hle := hallow.1
        rw [hrun₂.stored_size hlook hp hroot hipos hslot, hrun₂.iSize_written, hacc, if_neg hown,
          Nat.add_zero, Nat.max_eq_left hle] at hnothing
        rw [if_neg hown, hnothing] at hsize
        exact .inr ⟨hown, hnothing, hrun.staysWithin hlook hp (by omega)⟩
  · intro h mayFail buf
    refine wp_mono (syncWriteFlush_spec hp.toWellFormed) fun q w hout hok H raw => ?_
    rcases hout with ⟨e, inode', v₁, -, hnone⟩ | ⟨st, inode', v₁, t, hrun, hinode, hflush⟩
    · rw [hnone] at hok
      cases hok
    · obtain ⟨-, rfl⟩ := hflush.resolve_right fun hbad => hbad.1 hok
      refine wp_mono (decoded_size raw) fun decoded _ hdecoded => ?_
      rw [hdecoded, hinode, hrun.stored_size hlook hp hroot hipos hslot, hrun.iSize_written]
      rcases h hrun.allowed fun hin => hrun.seekFinds hin with ⟨hown, hwithin⟩ | ⟨haway, hsame, hwithin⟩
      · have hlimit := hwithin.size_le hlook hp hrun
        rw [if_pos hown, Nat.mod_eq_of_lt (by omega)]
      · have hlimit := hwithin.size_le hlook hp hrun
        rw [if_neg haway, hsame]
        omega

end Slot

theorem stored_size_iff_oneBlock :
    StoredSizeFollows storedWord sbi31 oneClusterVolume oneBlockFile 6656 2048 0 ↔
      SizeStored storedWord sbi31.fsInfo oneClusterVolume oneBlockFile 6656 2048 0 :=
  stored_size_iff storedOrAddress_storedWord placed31 (by decide) ⟨by decide, by decide⟩ (.inl rfl)

/-! ### A file at the limit -/

/-- The layout of a device with 8 GiB. -/
def layout8G : FormatLayout where
  sectors := 16777216
  fatLengthSectors := 32768
  clusters := 4177917

def sbi8G : SbInfo := { sbi31 with fsInfo := formattedFsInfo layout8G }

theorem placed8G : Placed sbi8G.fsInfo :=
  formattedFsInfo_placed (show formatLayout 512 16777216 = some layout8G by decide) (by decide)

def limitClusters : ℕ := 2 ^ 21

/-- The words of a file in the clusters from 1 on. -/
def limitWord (c : ℕ) : ℕ := if c = limitClusters then sfatEntryEoc else c + 1

/-- A file of `2 ^ 32 - 1` bytes, with the first slot of the root directory. -/
def limitFile : Inode :=
  { Inode.fresh ⟨1, sfatAttrNone, 33560064⟩ with
    iIno := 6
    iSize := 2 ^ 32 - 1 }

def limitVolume : Vol :=
  putDirent
    (patch (formatVolume layout8G fun _ => 0) (fatWordAddr sbi8G.fsInfo 1) (4 * limitClusters)
      fun i => le32Bytes (limitWord (i / 4 + 1)) (i % 4))
    limitFile.iPos ⟨padName [97], sfatAttrNone, 0, 0, 0, 2 ^ 32 - 1, 1⟩

theorem limitVolume_word {c : ℕ} (hc : 1 ≤ c) (hc' : c ≤ limitClusters) :
    fatWord sbi8G.fsInfo limitVolume c = limitWord c := by
  have haddr : fatWordAddr sbi8G.fsInfo c = fatWordAddr sbi8G.fsInfo 1 + 4 * (c - 1) := by
    simp only [fatWordAddr]
    omega
  have hword : limitWord c < 2 ^ 32 := by
    rw [limitWord]
    rw [limitClusters] at hc' ⊢
    split
    · decide
    · omega
  have hslot : fatWordAddr sbi8G.fsInfo 1 + 4 * (c - 1) + 4 ≤ limitFile.iPos := by
    have hstart : fatWordAddr sbi8G.fsInfo 1 = 5636 := rfl
    have hpos : limitFile.iPos = 33560064 := rfl
    rw [limitClusters] at hc'
    omega
  rw [fatWord, haddr, limitVolume, putDirent, le32_patch_disjoint _ _ (.inr hslot),
    le32_patch_inside _ _ (by omega)]
  have hbytes : le32 (fun i => le32Bytes (limitWord (i / 4 + 1)) (i % 4)) (4 * (c - 1)) =
      le32 (le32Bytes (limitWord c)) 0 := by
    refine le32_congr fun i hi => ?_
    rw [show (4 * (c - 1) + i) / 4 + 1 = c by omega, show (4 * (c - 1) + i) % 4 = i by omega,
      Nat.zero_add]
  rw [hbytes, le32_le32Bytes, Nat.mod_eq_of_lt hword]

theorem limitFile_chain :
    FileChain sbi8G.fsInfo limitVolume limitFile (List.range' 1 limitClusters) where
  chain _ := by
    refine ⟨PathTo.range' ?_ fun d hd hd' => ?_, fun c hc => ?_⟩
    · show fatWord sbi8G.fsInfo limitVolume (1 + (limitClusters - 1)) = sfatEntryEoc
      rw [limitVolume_word (by omega) (by decide)]
      decide
    · have hd' : d < limitClusters := hd'
      have hword : fatWord sbi8G.fsInfo limitVolume d = d + 1 := by
        rw [limitVolume_word hd (by omega), limitWord, if_neg (by omega)]
      rw [limitClusters] at hd'
      rw [hword, sfatEntryEoc]
      exact ⟨by omega, rfl⟩
    · have hlt := (List.mem_range'_1.mp hc).2
      rw [limitClusters] at hlt
      show c < 4177917
      omega
  length_eq := by
    rw [List.length_range']
    decide

/-- **One more byte at the end of a file of `2 ^ 32 - 1` bytes**: the size in memory is `2 ^ 32`, and
the slot says that the file is empty. -/
theorem stored_size_fails :
    ¬ StoredSizeFollows storedWord sbi8G limitVolume limitFile 33560064 1 (2 ^ 32 - 1) := by
  intro h
  have hin : WritesInside sbi8G.fsInfo limitFile (2 ^ 32 - 1) := .inl (by decide)
  have hallow : WriteAllowed limitFile 1 (2 ^ 32 - 1) := ⟨by decide, by decide⟩
  have hfits : WriteFits sbi8G.fsInfo limitVolume limitFile (List.range' 1 limitClusters) 1
      (2 ^ 32 - 1) := by
    refine .inside hin (by decide) ?_ fun j _ b hb => ?_
    · rw [List.length_range']
      decide
    · have hlt := (List.mem_range'_1.mp (List.mem_of_getElem? hb)).2
      rw [limitClusters] at hlt
      show b + 1 < 4177917
      omega
  obtain ⟨⟨c, hseek⟩, -⟩ := (writeFits_inside_iff placed8G limitFile_chain hallow hin).mp hfits
  -- nothing is left for another cluster
  have hnone : clustersFor sbi8G.fsInfo (1 - min 1 (sbi8G.fsInfo.clusterSize -
      (2 ^ 32 - 1) % sbi8G.fsInfo.clusterSize)) = 0 := by decide
  have hfit : EnoughRoom storedWord sbi8G.fsInfo limitVolume limitFile 1 (2 ^ 32 - 1) := by
    refine .inside hin hseek ?_
    rw [hnone]
    exact trivial
  obtain ⟨q, w, hfollows, hout⟩ := exists_quiet (h noFailure fun _ => 0)
    (syncWriteFlush_spec placed8G.toWellFormed)
  rcases hout with ⟨e, inode', v₁, hrun, -⟩ | ⟨st, inode', v₁, t, hrun, hinode, hflush⟩
  · cases hrun with
    | rejected hreject => exact hreject hallow
    | notFound _ _ hmiss => exact hmiss.resolve_right not_canFail c hseek
  · obtain ⟨hok, rfl⟩ := hflush.resolve_right fun hbad => not_canFail hbad.2
    have hsize := size_of_followed (hfollows hok)
    have hacc := (hrun.amount storedOrAddress_storedWord placed8G Nat.one_ne_zero
      (Nat.le_refl 1)).2 not_canFail hfit
    have hlt : (direntAt (flushed sbi8G.fsInfo v₁ (inode'.written sbi8G.fsInfo st.ppos t))
        33560064).size < 2 ^ 32 := le32_lt _ _
    rw [hsize, hinode, hrun.iSize_written] at hlt
    omega

end SimpleFat

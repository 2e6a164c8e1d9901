import SimpleFat.AllocationRun
import SimpleFat.FatReliable

/-!
# Lost clusters

`sfat_fat_entry_acquire` marks a cluster at once; linking it comes later and may not happen.  The
cluster is lost then: its word is not free, and no chain leads to it.

* `writeNew_noneLost`, `NewRun.takenStay` — the loop that adds clusters;
* `ExistingRun.marks`, `ExistingRun.of_reachesMark` — the walk before it;
* `write_leak_iff` — when `sfat_sync_write` loses none.
-/

namespace SimpleFat

open SimpleFat.Lib

variable {mayFail : Request → Prop} {look : (blk pos : ℕ) → Page → ℕ} {fs : FsInfo}
  {v v' v₀ : Vol} {start cur c k : ℕ}

/-! ### The property -/

def WriteLosesNone (look : (blk pos : ℕ) → Page → ℕ) (fs : FsInfo) (v : Vol) (inode : Inode)
    (len ppos : ℕ) : Prop :=
  ∀ mayFail, FatReliable fs mayFail → ∀ buf : ℕ → UInt8,
    wp (failingWorld mayFail look) (sfatSyncWrite fs inode buf len ppos)
      (fun r v' => NoneLost fs v v' r.2.1.iStart) v

/-- **The free clusters, taken in order for `m` rounds behind `cur`, stay on the chain**: each is
linked to the one before it, which the accessor has to accept, or was on the chain already. -/
def TakenStay (fs : FsInfo) (start : ℕ) : (m : ℕ) → Vol → (cur : ℕ) → Prop
  | 0, _, _ => True
  | m + 1, v, cur => ∀ c, FirstFree fs v c →
    if cur < fs.clustersPred then
      StaysLinked fs v start cur c ∧ TakenStay fs start m (clusterLinked fs v cur c) c
    else OnChain fs v start c

def ReachesMark (look : (blk pos : ℕ) → Page → ℕ) (fs : FsInfo) (v : Vol) : (m cur : ℕ) → Prop
  | 0, _ => False
  | m + 1, cur => cur < fs.clustersPred ∧
    (sfatEntryMax ≤ nextWord look fs v cur ∨ ReachesMark look fs v m (nextWord look fs v cur))

/-! ### The loop that adds clusters -/

theorem TakenStay.sameFat (hp : Placed fs) {m : ℕ} (h : TakenStay fs start m v cur)
    (hfat : SameFat fs v v') : TakenStay fs start m v' cur := by
  have hpred := hp.clustersPred_eq hp.clusters_pos
  induction m generalizing v v' cur with
  | zero => exact trivial
  | succ m ih =>
    intro c hc
    have hstep := h c (hfat.symm.firstFree hc)
    by_cases hcur : cur < fs.clustersPred
    · rw [if_pos hcur] at hstep ⊢
      exact ⟨hstep.1.sameFat hfat (lt_fatWords hp (by omega)),
        ih hstep.2 (clusterLinked_sameFat hfat cur c)⟩
    · rw [if_neg hcur] at hstep ⊢
      exact (OnChain.congr hfat).mpr hstep

/-- Behind a cluster that the accessor refuses, the first free one has to be on the chain. -/
theorem takenStay_of_refused {m : ℕ} (hcur : fs.clustersPred ≤ cur)
    (h : ∀ c, FirstFree fs v c → OnChain fs v start c) : TakenStay fs start m v cur := by
  cases m with
  | zero => exact trivial
  | succ m =>
    intro c hc
    rw [if_neg (by omega)]
    exact h c hc

/-- **The loop loses no cluster**, if the ones it takes stay on the chain. -/
theorem writeNew_noneLost (hp : Placed fs) (hrel : FatReliable fs mayFail) (fuel : ℕ)
    {st : SyncWriteState} (hfuel : st.len ≤ fuel) (hlost : NoneLost fs v₀ v start)
    (hcan : st.len ≠ 0 → st.curCls < fs.clustersPred →
      start < sfatEntryMax ∧ NoneBehind fs v₀ v st.curCls)
    (hstay : TakenStay fs start (clustersFor fs st.len) v st.curCls) :
    wp (failingWorld mayFail look) (writeNew fs fuel st) (fun r v' =>
      (∃ st', r = some st') ∧ NoneLost fs v₀ v' start) v := by
  have hcs := hp.clusterSize_pos
  have hpred := hp.clustersPred_eq hp.clusters_pos
  induction fuel generalizing st v with
  | zero =>
    rw [writeNew, if_pos (by omega)]
    exact (wp_done _ _ _).mpr ⟨⟨st, rfl⟩, hlost⟩
  | succ fuel ih =>
    rw [writeNew]
    by_cases h0 : st.len = 0
    · rw [if_pos h0]
      exact (wp_done _ _ _).mpr ⟨⟨st, rfl⟩, hlost⟩
    · rw [if_neg h0]
      rw [clustersFor_step hcs h0] at hstay
      refine wp_seq (acquire_spec hp.toWellFormed v) fun r v₁ hr => ?_
      cases r with
      | error e =>
        obtain ⟨rfl, -⟩ := hr
        exact (wp_done _ _ _).mpr ⟨⟨st, rfl⟩, hlost⟩
      | ok c =>
        obtain ⟨hc, rfl⟩ := hr
        have hstep := hstay c hc
        refine wp_seq (modify_reliable hp hrel st.curCls c) fun r v₂ hr => ?_
        cases r with
        | some e =>
          obtain ⟨hcur, rfl⟩ := hr
          rw [if_neg (by omega)] at hstep
          exact (wp_done _ _ _).mpr ⟨⟨st, rfl⟩, (noneLost_acquired hc hlost).mpr fun _ => hstep⟩
        | none =>
          obtain ⟨hcur, rfl⟩ := hr
          rw [if_pos hcur] at hstep
          obtain ⟨hlink, hstay⟩ := hstep
          obtain ⟨hstart, hbehind⟩ := hcan h0 hcur
          have hcurlt : st.curCls < fatWords fs := lt_fatWords hp (by omega)
          have hlost' : NoneLost fs v₀ (clusterLinked fs v st.curCls c) start :=
            noneLost_linked hp hc hcurlt hstart hbehind hlost hlink
          have hbehind' : NoneBehind fs v₀ (clusterLinked fs v st.curCls c) c :=
            noneBehind_taken hp hc hcurlt
          have hc32 : (st.at c).curCls < 2 ^ 32 := lt_of_fatWords hp hc.1
          refine wp_seq (writeChunk_spec hp.blockSize_eq (st.at c) 0) fun r v₃ hr => ?_
          cases r with
          | out r =>
            obtain ⟨st', n⟩ := r
            obtain ⟨-, -, hdone⟩ := hr
            have hv := hdone.vol_eq
            subst hv
            exact (wp_done _ _ _).mpr ⟨⟨st', rfl⟩, hlost'.sameFat (sameFat_chunk hp hc32 0 n)⟩
          | next st' =>
            obtain ⟨rfl, hdone⟩ := hr
            have hv := hdone.vol_eq
            subst hv
            have hfat := @sameFat_chunk fs (clusterLinked fs v st.curCls c) hp (st.at c) hc32 0
              (chunkLen fs (st.at c) 0)
            have hpos := @chunkLen_pos fs (st.at c) 0 h0 hcs
            have hrest : ((st.at c).advance (chunkLen fs (st.at c) 0)).len =
                st.len - min st.len fs.clusterSize := rfl
            refine ih ?_ (hlost'.sameFat hfat) (fun _ _ => ⟨hstart, hbehind'.sameFat hfat⟩) ?_
            · show st.len - chunkLen fs (st.at c) 0 ≤ fuel
              omega
            · rw [hrest]
              exact hstay.sameFat hp hfat

/-- A loop that cannot link takes at most a free cluster. -/
theorem NewRun.used_of_refused {st st' : SyncWriteState} (hrun : NewRun mayFail fs st v st' v')
    (hcur : fs.clustersPred ≤ st.curCls) (hk : fatWord fs v k ≠ sfatEntryFree) :
    fatWord fs v' k ≠ sfatEntryFree := by
  cases hrun with
  | done _ => exact hk
  | noCluster _ _ => exact hk
  | @unlinked _ _ c _ hc _ =>
    have hne : k ≠ c := fun heq => hk (by rw [heq]; exact hc.2.1)
    rwa [fatWord_setFatWord_ne hne]
  | short _ _ hlt _ _ => omega
  | more _ _ hlt _ => omega

/-- A cluster in use stays in use when another one is taken and linked under no number of a mark. -/
theorem used_clusterLinked (hp : Placed fs) (hc : FirstFree fs v c) (hmax : c < sfatEntryMax)
    (hk : fatWord fs v k ≠ sfatEntryFree ∨ k = cur ∨ k = c) :
    fatWord fs (clusterLinked fs v cur c) k ≠ sfatEntryFree := by
  rw [fatWord_clusterLinked (lt_of_fatWords hp hc.1)]
  split
  · rw [sfatEntryMax] at hmax
    rw [sfatEntryFree]
    omega
  · rename_i hkcur
    split
    · decide
    · rename_i hkc
      exact (hk.resolve_right fun h => h.elim hkcur hkc)

/-- **The loop and the clusters in use**: they stay in use, and the chain gets none of them. -/
theorem NewRun.back (hp : Placed fs) {st st' : SyncWriteState} (hrun : NewRun noFailure fs st v st' v')
    (hstart : start < sfatEntryMax)
    (hstay : TakenStay fs start (clustersFor fs st.len) v st.curCls)
    (hlt : k < fatWords fs) (hk : fatWord fs v k ≠ sfatEntryFree) :
    fatWord fs v' k ≠ sfatEntryFree ∧ (OnChain fs v' start k → OnChain fs v start k) := by
  have hcs := hp.clusterSize_pos
  have hpred := hp.clustersPred_eq hp.clusters_pos
  induction hrun with
  | done _ => exact ⟨hk, id⟩
  | noCluster _ _ => exact ⟨hk, id⟩
  | @unlinked st v c hlen hc _ =>
    have hne : k ≠ c := fun heq => hk (by rw [heq]; exact hc.2.1)
    rw [fatWord_setFatWord_ne hne, onChain_acquired hc.2.1]
    exact ⟨hk, id⟩
  | short _ _ _ _ hfail => exact absurd hfail not_canFail
  | @more st st' v v' c hlen hc hcur _ ih =>
    rw [clustersFor_step hcs hlen] at hstay
    have hstep := hstay c hc
    rw [if_pos hcur] at hstep
    obtain ⟨hlink, hrest⟩ := hstep
    have hfat : SameFat fs (clusterLinked fs v st.curCls c) (chunkWritten fs (st.at c) 0
        (chunkLen fs (st.at c) 0) (clusterLinked fs v st.curCls c)) :=
      sameFat_chunk hp (lt_of_fatWords hp hc.1) 0 _
    have hused : fatWord fs (clusterLinked fs v st.curCls c) k ≠ sfatEntryFree :=
      used_clusterLinked hp hc (hlink.lt_max hstart) (.inl hk)
    rw [← hfat k hlt] at hused
    obtain ⟨hafter, hback⟩ := ih (hrest.sameFat hp hfat) hused
    refine ⟨hafter, fun hon => ?_⟩
    have hon := (OnChain.congr hfat).mp (hback hon)
    exact onChain_of_linked hp hc (lt_fatWords hp (by omega)) hk hon

/-- **A loop that has lost no cluster** had them stay on the chain. -/
theorem NewRun.takenStay (hp : Placed fs) {st st' : SyncWriteState}
    (hrun : NewRun noFailure fs st v st' v')
    (hfree : ∀ k < fatWords fs, fatWord fs v k = sfatEntryFree → fatWord fs v₀ k = sfatEntryFree)
    (hstart : st.curCls < fs.clustersPred → start < sfatEntryMax) (hlost : NoneLost fs v₀ v' start) :
    TakenStay fs start (clustersFor fs st.len) v st.curCls := by
  have hcs := hp.clusterSize_pos
  induction hrun with
  | @done st v hlen =>
    rw [hlen, clustersFor_zero hcs]
    exact trivial
  | @noCluster st v hlen hnone =>
    rw [clustersFor_step hcs hlen]
    intro c hc
    exact absurd hc.2.1 (hnone.resolve_right not_canFail c hc.1)
  | @unlinked st v c hlen hc hrefused =>
    have hcur := hrefused.resolve_right not_canFail
    rw [clustersFor_step hcs hlen]
    intro d hd
    obtain rfl := hd.unique hc
    have hfreeD := hfree d hd.1 hd.2.1
    have hword : fatWord fs (setFatWord fs v d sfatEntryEoc) d ≠ sfatEntryFree := by
      rw [fatWord_setFatWord]
      decide
    rw [if_neg (by omega)]
    exact (onChain_acquired hd.2.1).mp ((hlost d hd.1 hfreeD).resolve_left hword)
  | short _ _ _ _ hfail => exact absurd hfail not_canFail
  | @more st st' v v' c hlen hc hcur hrun ih =>
    have hc32 : c < 2 ^ 32 := lt_of_fatWords hp hc.1
    have hword := @fatWord_clusterLinked fs v st.curCls c hc32
    have hfat : SameFat fs (clusterLinked fs v st.curCls c) (chunkWritten fs (st.at c) 0
        (chunkLen fs (st.at c) 0) (clusterLinked fs v st.curCls c)) :=
      sameFat_chunk hp hc32 0 _
    have hrest : ((st.at c).advance (chunkLen fs (st.at c) 0)).len =
        st.len - min st.len fs.clusterSize := rfl
    have hpred := hp.clustersPred_eq hp.clusters_pos
    have hclusters := hp.clusters_lt
    have hcurlt : st.curCls < fatWords fs := lt_fatWords hp (by omega)
    have hstart := hstart hcur
    rw [clustersFor_step hcs hlen]
    intro d hd
    obtain rfl := hd.unique hc
    rw [if_pos hcur]
    have hmax : d < sfatEntryMax := by
      by_contra hge
      -- a number of a mark is on no chain, and is refused from then on
      have hused : fatWord fs (chunkWritten fs (st.at d) 0 (chunkLen fs (st.at d) 0)
          (clusterLinked fs v st.curCls d)) d ≠ sfatEntryFree := by
        rw [hfat d hd.1, hword, if_neg (by omega), if_pos rfl]
        decide
      have hlast := hrun.used_of_refused (show fs.clustersPred ≤ d by omega) hused
      have hon := (hlost d hd.1 (hfree d hd.1 hd.2.1)).resolve_left hlast
      exact hge (hon.lt_max hstart)
    have hstay := ih (fun k hk hkfree => ?_) (fun _ => hstart) hlost
    · -- what is used behind the link was on the chain there
      have hback : ∀ k < fatWords fs, fatWord fs v₀ k = sfatEntryFree →
          (fatWord fs v k ≠ sfatEntryFree ∨ k = st.curCls ∨ k = d) →
          OnChain fs (clusterLinked fs v st.curCls d) start k := by
        intro k hk hkfree hk'
        have hused := used_clusterLinked hp hd hmax hk'
        rw [← hfat k hk] at hused
        obtain ⟨hafter, hback⟩ := hrun.back hp hstart hstay hk hused
        exact (OnChain.congr hfat).mp (hback ((hlost k hk hkfree).resolve_left hafter))
      rw [hrest] at hstay
      refine ⟨?_, hstay.sameFat hp hfat.symm⟩
      have hon := hback d hd.1 (hfree d hd.1 hd.2.1) (.inr (.inr rfl))
      rcases (onChain_taken_iff hp hd hcurlt hstart).mp hon with hlink | hon
      · exact .inl hlink
      · by_cases hcurfree : fatWord fs v st.curCls = sfatEntryFree
        · have hbefore := hback st.curCls hcurlt (hfree _ hcurlt hcurfree) (.inr (.inl rfl))
          exact .inl ⟨(onChain_before_iff hp hd).mp hbefore, hmax⟩
        · exact .inr ⟨hon, hcurfree⟩
    · rw [hfat k hk, hword] at hkfree
      split at hkfree
      · rw [hkfree] at hmax
        exact absurd hmax (by decide)
      · split at hkfree
        · cases hkfree
        · exact hfree k hk hkfree

/-! ### The walk over the existing clusters -/

theorem ReachesMark.sameFat (hlook : StoredOrAddress look) (hp : Placed fs) {m : ℕ}
    (h : ReachesMark look fs v m cur) (hfat : SameFat fs v v') : ReachesMark look fs v' m cur := by
  have hpred := hp.clustersPred_eq hp.clusters_pos
  induction m generalizing cur with
  | zero => exact h
  | succ m ih =>
    obtain ⟨hcur, hnext⟩ := h
    refine ⟨hcur, ?_⟩
    rw [hlook.congr hp.toWellFormed (hfat cur (lt_fatWords hp (by omega)))]
    exact hnext.imp_right ih

/-- **The walk hands a mark to the loop that adds clusters** if it comes to one with something left
to write. -/
theorem ExistingRun.marks (hlook : StoredOrAddress look) (hp : Placed fs) {st st' : SyncWriteState}
    {r : Loop SyncWriteState SyncWriteState} (hrun : ExistingRun mayFail look fs st v r v')
    (hr : r = .next st') : st'.len = 0 ∨
      sfatEntryMax ≤ st'.curCls ∧ ReachesMark look fs v (clustersFor fs st.len) st.curCls := by
  have hcs := hp.clusterSize_pos
  induction hrun with
  | done hlen =>
    obtain rfl := Loop.next.inj hr
    exact .inl hlen
  | refused _ _ => cases hr
  | ended hlen hcur hmark =>
    obtain rfl := Loop.next.inj hr
    rw [clustersFor_step hcs hlen]
    exact .inr ⟨hmark, Nat.lt_of_not_le hcur, .inl hmark⟩
  | short _ _ _ _ _ _ => cases hr
  | @more st r v v' c hlen hcur hc hmax _ ih =>
    rw [sfatEntryMax] at hmax
    have hchunk : SameFat fs v (chunkWritten fs (st.at c) 0 (chunkLen fs (st.at c) 0) v) :=
      sameFat_chunk hp (show c < 2 ^ 32 by omega) 0 _
    refine (ih hr).imp_right fun hmark => ?_
    have hrest : ((st.at c).advance (chunkLen fs (st.at c) 0)).len =
        st.len - min st.len fs.clusterSize := rfl
    rw [hrest] at hmark
    rw [clustersFor_step hcs hlen]
    refine ⟨hmark.1, Nat.lt_of_not_le hcur, .inr ?_⟩
    rw [hc]
    exact hmark.2.sameFat hlook hp hchunk.symm

/-- **Without failures the walk comes to the mark** that it reaches. -/
theorem ExistingRun.of_reachesMark (hlook : StoredOrAddress look) (hp : Placed fs)
    {st : SyncWriteState} {r : Loop SyncWriteState SyncWriteState}
    (hrun : ExistingRun noFailure look fs st v r v')
    (hmark : ReachesMark look fs v (clustersFor fs st.len) st.curCls) :
    ∃ st', r = .next st' ∧ st'.len ≠ 0 ∧ sfatEntryMax ≤ st'.curCls := by
  have hcs := hp.clusterSize_pos
  induction hrun with
  | @done st v hlen =>
    rw [hlen, clustersFor_zero hcs] at hmark
    exact absurd hmark id
  | @refused st v hlen hrefused =>
    rw [clustersFor_step hcs hlen] at hmark
    have := hrefused.resolve_right not_canFail
    have := hmark.1
    omega
  | @ended st v hlen _ hmax => exact ⟨_, rfl, hlen, hmax⟩
  | short _ _ _ _ _ hfail => exact absurd hfail not_canFail
  | @more st r v v' c hlen hcur hc hmax hrun ih =>
    have hc32 : c < 2 ^ 32 := by
      rw [sfatEntryMax] at hmax
      omega
    have hrest : ((st.at c).advance (chunkLen fs (st.at c) 0)).len =
        st.len - min st.len fs.clusterSize := rfl
    rw [clustersFor_step hcs hlen, ReachesMark, hc] at hmark
    refine ih ?_
    rw [hrest]
    exact (hmark.2.resolve_left (by omega)).sameFat hlook hp (sameFat_chunk hp hc32 0 _)

/-! ### Whole writes -/

section Write

variable {inode : Inode} {buf : ℕ → UInt8} {len ppos : ℕ}

structure WriteKeeps (look : (blk pos : ℕ) → Page → ℕ) (fs : FsInfo) (v : Vol) (inode : Inode)
    (len ppos : ℕ) : Prop where
  /-- Inside the file: the walk comes to no mark, or the first free cluster is on the chain already. -/
  inside : ∀ c, WritesInside fs inode ppos → SeekFinds look fs v inode.iStart ppos c →
    ReachesMark look fs v
      (clustersFor fs (len - min len (fs.clusterSize - ppos % fs.clusterSize))) c →
    ∀ d, FirstFree fs v d → OnChain fs v inode.iStart d
  /-- At the end of the file: the clusters that are taken stay on the chain. -/
  atEnd : ∀ c, ¬ WritesInside fs inode ppos → 0 < inode.iSize →
    SeekFinds look fs v inode.iStart (ppos - 1) c → TakenStay fs inode.iStart (clustersFor fs len) v c
  /-- An empty file: no cluster is free, as the first one may not be written. -/
  empty : ∀ c, ¬ WritesInside fs inode ppos → inode.iSize = 0 → FirstFree fs v c →
    OnChain fs v inode.iStart c ∧ TakenStay fs c (clustersFor fs (len - min len fs.clusterSize))
      (setFatWord fs v c sfatEntryEoc) c

/-- The branch for a position inside the file: it leaves the FAT alone. -/
theorem writeInside_marks (hlook : StoredOrAddress look) (hp : Placed fs) (inode : Inode)
    (buf : ℕ → UInt8) (len ppos : ℕ) :
    wp (failingWorld mayFail look) (writeInside fs (syncWriteStart inode buf len ppos)) (fun r v' =>
      SameFat fs v v' ∧ ∀ st₁, r = .ok (some (.next st₁)) → st₁.len = 0 ∨
        sfatEntryMax ≤ st₁.curCls ∧ ∃ c, SeekFinds look fs v inode.iStart ppos c ∧ ReachesMark look fs v
          (clustersFor fs (len - min len (fs.clusterSize - ppos % fs.clusterSize))) c) v := by
  rw [writeInside]
  refine wp_seq (seek_spec hp.toWellFormed inode.iStart ppos) fun r v₁ hr => ?_
  obtain ⟨rfl, hr⟩ := hr
  cases r with
  | error e => exact (wp_done _ _ _).mpr ⟨SameFat.refl fs v₁, by simp⟩
  | ok found =>
    obtain ⟨c, off⟩ := found
    obtain ⟨hseek, hoff⟩ := hr
    subst hoff
    have hfat : ∀ n, SameFat fs v₁ (chunkWritten fs ((syncWriteStart inode buf len ppos).at c)
        (ppos % fs.clusterSize) n v₁) := fun n => sameFat_chunk hp (hseek.lt hp) _ n
    refine wp_seq (writeChunk_spec hp.blockSize_eq ((syncWriteStart inode buf len ppos).at c)
      (ppos % fs.clusterSize)) fun r v₂ hr => ?_
    cases r with
    | out r =>
      obtain ⟨st', n⟩ := r
      obtain ⟨-, -, hdone⟩ := hr
      have hv := hdone.vol_eq
      subst hv
      exact (wp_done _ _ _).mpr ⟨hfat n, by simp⟩
    | next st' =>
      obtain ⟨rfl, hdone⟩ := hr
      have hv := hdone.vol_eq
      subst hv
      refine wp_seq (writeExisting_spec hp.toWellFormed _ (Nat.le_refl _)) fun r v₃ hr => ?_
      obtain ⟨r', rfl, hrun⟩ := hr
      refine (wp_done _ _ _).mpr ⟨(hfat _).trans (hrun.sameFat hp), fun st₁ hst => ?_⟩
      refine (hrun.marks hlook hp (Option.some.inj (Except.ok.inj hst))).imp_right fun hmark => ?_
      exact ⟨hmark.1, c, hseek, hmark.2.sameFat hlook hp (hfat _).symm⟩

/-- The work on the clusters keeps the inode's place. -/
structure DataKeeps (fs : FsInfo) (v : Vol) (inode inode' : Inode) (v' : Vol) : Prop where
  lost : NoneLost fs v v' inode'.iStart
  iIno_eq : inode'.iIno = inode.iIno
  iPos_eq : inode'.iPos = inode.iPos

/-- What the loop that adds clusters starts from, behind the first branch. -/
def StartsKept (fs : FsInfo) (v₀ : Vol) (start : ℕ) (v : Vol) :
    Loop SyncWriteState SyncWriteState → Prop
  | .out _ => NoneLost fs v₀ v start
  | .next st => NoneLost fs v₀ v start ∧
    (st.len ≠ 0 → st.curCls < fs.clustersPred →
      start < sfatEntryMax ∧ NoneBehind fs v₀ v st.curCls) ∧
    TakenStay fs start (clustersFor fs st.len) v st.curCls

/-- The loop that adds clusters, after the first branch. -/
theorem writeRestData_noneLost (hp : Placed fs) (hrel : FatReliable fs mayFail)
    {r : Loop SyncWriteState SyncWriteState} (h : StartsKept fs v₀ start v r) :
    wp (failingWorld mayFail look) (writeRestData fs (some r))
      (fun _ v' => NoneLost fs v₀ v' start) v := by
  cases r with
  | out st => exact (wp_done _ _ _).mpr h
  | next st =>
    obtain ⟨hlost, hcan, hstay⟩ := h
    rw [writeRestData]
    refine wp_seq (writeNew_noneLost hp hrel st.len (Nat.le_refl _) hlost hcan hstay)
      fun r v' hr => ?_
    obtain ⟨⟨st', rfl⟩, hlost⟩ := hr
    exact (wp_done _ _ _).mpr hlost

/-- The branch for the end of the file. -/
theorem writeAtEnd_kept (hp : Placed fs) (hend : ¬ WritesInside fs inode ppos)
    (hkeeps : WriteKeeps look fs v inode len ppos) :
    wp (failingWorld mayFail look) (writeAtEnd fs (syncWriteStart inode buf len ppos) inode.iSize)
      (fun r v' => StartsKept fs v (r.2.getD inode.iStart) v' r.1) v := by
  have hcs := hp.clusterSize_pos
  have hpred := hp.clustersPred_eq hp.clusters_pos
  have hclusters := hp.clusters_lt
  rw [writeAtEnd]
  by_cases hsize : 0 < inode.iSize
  · rw [if_pos hsize]
    refine wp_seq (seek_spec hp.toWellFormed inode.iStart (ppos - 1)) fun r v₁ hr => ?_
    obtain ⟨rfl, hr⟩ := hr
    cases r with
    | error e => exact (wp_done _ _ _).mpr (NoneLost.refl fs v₁ _)
    | ok found =>
      obtain ⟨c, off⟩ := found
      refine (wp_done _ _ _).mpr ⟨NoneLost.refl fs v₁ _, fun _ _ => ?_, ?_⟩
      · exact ⟨hr.1.start_lt hp, NoneBehind.refl fs v₁ c⟩
      · exact hkeeps.atEnd c hend hsize hr.1
  · have hzero : inode.iSize = 0 := by omega
    rw [if_neg hsize]
    refine wp_seq (acquire_spec hp.toWellFormed v) fun r v₁ hr => ?_
    cases r with
    | error e =>
      obtain ⟨rfl, -⟩ := hr
      exact (wp_done _ _ _).mpr (NoneLost.refl fs v₁ _)
    | ok c =>
      obtain ⟨hc, rfl⟩ := hr
      obtain ⟨hon, hstay⟩ := hkeeps.empty c hend hzero hc
      have hc32 : c < 2 ^ 32 := lt_of_fatWords hp hc.1
      have hfat : ∀ n, SameFat fs (setFatWord fs v c sfatEntryEoc)
          (chunkWritten fs ((syncWriteStart inode buf len ppos).at c) 0 n
            (setFatWord fs v c sfatEntryEoc)) := fun n => sameFat_chunk hp hc32 0 n
      have hlost : NoneLost fs v (setFatWord fs v c sfatEntryEoc) inode.iStart :=
        (noneLost_acquired hc (NoneLost.refl fs v _)).mpr fun _ => hon
      -- the new cluster is the whole chain
      have hfirst : NoneLost fs v (setFatWord fs v c sfatEntryEoc) c :=
        (noneLost_acquired hc (NoneLost.refl fs v c)).mpr fun _ => ⟨0, rfl⟩
      have hbehind : NoneBehind fs v (setFatWord fs v c sfatEntryEoc) c := by
        refine .inr fun d hd => ?_
        rw [wordLink_acquired hc.2.1, wordLink_free hc.2.1] at hd
        cases hd
      refine wp_seq (writeChunk_spec hp.blockSize_eq ((syncWriteStart inode buf len ppos).at c) 0)
        fun r v₂ hr => ?_
      cases r with
      | out r =>
        obtain ⟨st', n⟩ := r
        obtain ⟨-, -, hdone⟩ := hr
        have hv := hdone.vol_eq
        subst hv
        refine (wp_done _ _ _).mpr ?_
        show NoneLost fs v _ ((if 0 < n then some c else none).getD inode.iStart)
        split
        · exact hfirst.sameFat (hfat n)
        · exact hlost.sameFat (hfat n)
      | next st' =>
        obtain ⟨rfl, hdone⟩ := hr
        have hv := hdone.vol_eq
        subst hv
        refine (wp_done _ _ _).mpr ⟨hfirst.sameFat (hfat _), fun _ hcur => ⟨?_, ?_⟩, ?_⟩
        · have hcur : c < fs.clustersPred := hcur
          show c < sfatEntryMax
          omega
        · exact hbehind.sameFat (hfat _)
        · exact hstay.sameFat hp (hfat _)

/-- **The work on the clusters loses none**, under the condition. -/
theorem syncWriteData_noneLost (hlook : StoredOrAddress look) (hp : Placed fs)
    (hrel : FatReliable fs mayFail)
    (hkeeps : WriteAllowed inode len ppos → WriteKeeps look fs v inode len ppos) :
    wp (failingWorld mayFail look) (syncWriteData fs inode buf len ppos)
      (fun p v' => DataKeeps fs v inode p.2 v') v := by
  have hcs := hp.clusterSize_pos
  have hpred := hp.clustersPred_eq hp.clusters_pos
  have hclusters := hp.clusters_lt
  have hsame : ∀ {v'}, NoneLost fs v v' inode.iStart → DataKeeps fs v inode inode v' :=
    fun h => ⟨h, rfl, rfl⟩
  rw [syncWriteData]
  simp only []
  by_cases hreject : inode.iSize < ppos ∨ len = 0
  · rw [if_pos hreject]
    exact (wp_done _ _ _).mpr (hsame (NoneLost.refl fs v _))
  · have hallow : WriteAllowed inode len ppos := ⟨by omega, by omega⟩
    have hkeeps := hkeeps hallow
    rw [if_neg hreject]
    by_cases hin : inode.iSize &&& (fs.blockSize - 1) ≠ 0 ∨ ppos < inode.iSize
    · rw [if_pos hin]
      refine wp_seq (writeInside_marks hlook hp inode buf len ppos) fun r v₁ hr => ?_
      obtain ⟨hfat, hmarks⟩ := hr
      have hlost : NoneLost fs v v₁ inode.iStart := NoneLost.of_sameFat hfat
      obtain e | r := r
      · exact (wp_done _ _ _).mpr (hsame hlost)
      obtain - | r := r
      · exact (wp_done _ _ _).mpr (hsame hlost)
      cases r with
      | out st' => exact (wp_done _ _ _).mpr (hsame hlost)
      | next st₁ =>
        have hstart : StartsKept fs v inode.iStart v₁ (.next st₁) := by
          rcases hmarks st₁ rfl with h0 | ⟨hmax, c, hseek, hmark⟩
          · refine ⟨hlost, fun hlen => absurd h0 hlen, ?_⟩
            rw [h0, clustersFor_zero hcs]
            exact trivial
          · refine ⟨hlost, fun _ hcur => by omega, takenStay_of_refused (by omega) fun d hd => ?_⟩
            exact (OnChain.congr hfat).mpr
              (hkeeps.inside c hin hseek hmark d (hfat.symm.firstFree hd))
        refine wp_seq (writeRestData_noneLost hp hrel hstart) fun r v₂ hr => ?_
        exact (wp_done _ _ _).mpr (hsame hr)
    · rw [if_neg hin]
      refine wp_seq (writeAtEnd_kept hp hin hkeeps) fun r v₁ hr => ?_
      obtain ⟨r, newStart⟩ := r
      refine wp_seq (writeRestData_noneLost hp hrel hr) fun r v₂ hr => ?_
      exact (wp_done _ _ _).mpr ⟨hr, rfl, rfl⟩

/-- **A write loses no cluster**, under the condition. -/
theorem write_losesNone (hlook : StoredOrAddress look) (hp : Placed fs)
    (hslot : SlotPosition fs inode)
    (hkeeps : WriteAllowed inode len ppos → WriteKeeps look fs v inode len ppos) :
    WriteLosesNone look fs v inode len ppos := by
  intro mayFail hrel buf
  rw [sfatSyncWrite_eq]
  refine wp_seq (syncWriteData_noneLost hlook hp hrel hkeeps) fun p v₁ hdata => ?_
  obtain ⟨r, inode'⟩ := p
  cases r with
  | error e => exact (wp_done _ _ _).mpr hdata.lost
  | ok st =>
    show wp (failingWorld mayFail look) (writeEnd fs inode' st) _ v₁
    rw [writeEnd]
    simp only []
    rw [wp_currentTimeSec]
    intro t
    refine wp_seq (flush_spec (inode'.written fs st.ppos t)) fun r v₂ hflush => ?_
    have hslot' : SlotPosition fs (inode'.written fs st.ppos t) :=
      hslot.congr hdata.iIno_eq hdata.iPos_eq
    refine (wp_done _ _ _).mpr ?_
    show NoneLost fs v v₂ inode'.iStart
    rcases hflush with ⟨-, rfl⟩ | ⟨-, rfl, -⟩
    · exact hdata.lost.sameFat (flushed_sameFat hp hslot' v₁)
    · exact hdata.lost

/-- What a write without failures has not lost. -/
theorem WriteLosesNone.quiet (hp : Placed fs) (hslot : SlotPosition fs inode)
    (h : WriteLosesNone look fs v inode len ppos) (buf : ℕ → UInt8) : ∃ p v₁,
      DataRun noFailure look fs v inode buf len ppos p v₁ ∧ NoneLost fs v v₁ p.2.iStart := by
  obtain ⟨r, v', hlost, p, v₁, hrun, hout⟩ := exists_quiet (h noFailure (fatReliable_noFailure fs) buf)
    (sfatSyncWrite_spec hp.toWellFormed inode buf len ppos)
  refine ⟨p, v₁, hrun, ?_⟩
  obtain ⟨q, inode'⟩ := p
  cases q with
  | error e =>
    obtain ⟨rfl, rfl⟩ := hout
    exact hlost
  | ok st =>
    obtain ⟨t, rfl, rfl | ⟨rfl, -⟩⟩ := hout
    · have hslot' : SlotPosition fs (inode'.written fs st.ppos t) := by
        have hino : inode'.iIno = inode.iIno := by rw [hrun.inode_eq]
        have hpos : inode'.iPos = inode.iPos := by rw [hrun.inode_eq]
        exact hslot.congr hino hpos
      exact NoneLost.sameFat hlost (flushed_sameFat hp hslot' v₁).symm
    · exact hlost

/-- **Inside the file.** -/
theorem WriteLosesNone.inside (hlook : StoredOrAddress look) (hp : Placed fs)
    (hslot : SlotPosition fs inode)
    (hallow : WriteAllowed inode len ppos) (h : WriteLosesNone look fs v inode len ppos)
    (hin : WritesInside fs inode ppos) (hseek : SeekFinds look fs v inode.iStart ppos c)
    (hmark : ReachesMark look fs v
      (clustersFor fs (len - min len (fs.clusterSize - ppos % fs.clusterSize))) c) {d : ℕ}
    (hd : FirstFree fs v d) : OnChain fs v inode.iStart d := by
  have hcs := hp.clusterSize_pos
  have hpred := hp.clustersPred_eq hp.clusters_pos
  have hclusters := hp.clusters_lt
  obtain ⟨p, v₁, hrun, hlost⟩ := h.quiet hp hslot fun _ => 0
  -- the walk behind the first cluster
  have hwalk : ∀ {c' n : ℕ} {r : Loop SyncWriteState SyncWriteState} {v₂ : Vol},
      SeekFinds look fs v inode.iStart ppos c' →
      n = chunkLen fs ((syncWriteStart inode (fun _ => 0) len ppos).at c') (ppos % fs.clusterSize) →
      ExistingRun noFailure look fs (((syncWriteStart inode (fun _ => 0) len ppos).at c').advance n)
        (chunkWritten fs ((syncWriteStart inode (fun _ => 0) len ppos).at c')
          (ppos % fs.clusterSize) n v) r v₂ →
      SameFat fs v v₂ ∧ ∃ st', r = .next st' ∧ st'.len ≠ 0 ∧ sfatEntryMax ≤ st'.curCls := by
    intro c' n r v₂ hseek' hn hexist
    obtain rfl : c' = c := Option.some.inj (hseek'.2.symm.trans hseek.2)
    have hfat : SameFat fs v (chunkWritten fs ((syncWriteStart inode (fun _ => 0) len ppos).at c')
        (ppos % fs.clusterSize) n v) := sameFat_chunk hp (hseek.lt hp) _ n
    have hrest : (((syncWriteStart inode (fun _ => 0) len ppos).at c').advance n).len =
        len - min len (fs.clusterSize - ppos % fs.clusterSize) := by rw [hn]; rfl
    refine ⟨hfat.trans (hexist.sameFat hp), hexist.of_reachesMark hlook hp ?_⟩
    rw [hrest]
    exact hmark.sameFat hlook hp hfat
  cases hrun with
  | rejected hnot => exact absurd hallow hnot
  | notFound _ _ hmiss => exact absurd hseek (hmiss.resolve_right not_canFail c)
  | insideShort _ _ _ _ hfail => exact absurd hfail not_canFail
  | insideOut _ _ hseek' hn hexist =>
    obtain ⟨-, st', hnext, -⟩ := hwalk hseek' hn hexist
    cases hnext
  | inside _ _ hseek' hn hexist hnew =>
    obtain ⟨hfat, st', hnext, hlen, hmax⟩ := hwalk hseek' hn hexist
    obtain rfl := Loop.next.inj hnext
    have hstay := hnew.takenStay hp (fun k hk hfree => by rwa [hfat k hk] at hfree)
      (fun hcur => by omega) hlost
    rw [clustersFor_step hcs hlen] at hstay
    have hon := hstay d (hfat.firstFree hd)
    rw [if_neg (by omega)] at hon
    exact (OnChain.congr hfat).mp hon
  | endNotFound _ hend _ _ => exact absurd hin hend
  | atEnd _ hend _ _ _ => exact absurd hin hend
  | noCluster _ hend _ _ => exact absurd hin hend
  | firstShort _ hend _ _ _ _ => exact absurd hin hend
  | first _ hend _ _ _ _ => exact absurd hin hend

/-- **At the end of the file.** -/
theorem WriteLosesNone.atEnd (hp : Placed fs) (hslot : SlotPosition fs inode)
    (hallow : WriteAllowed inode len ppos) (h : WriteLosesNone look fs v inode len ppos)
    (hend : ¬ WritesInside fs inode ppos) (hsize : 0 < inode.iSize)
    (hseek : SeekFinds look fs v inode.iStart (ppos - 1) c) :
    TakenStay fs inode.iStart (clustersFor fs len) v c := by
  obtain ⟨p, v₁, hrun, hlost⟩ := h.quiet hp hslot fun _ => 0
  cases hrun with
  | rejected hnot => exact absurd hallow hnot
  | notFound _ hin _ => exact absurd hin hend
  | insideShort _ hin _ _ _ => exact absurd hin hend
  | insideOut _ hin _ _ _ => exact absurd hin hend
  | inside _ hin _ _ _ _ => exact absurd hin hend
  | endNotFound _ _ _ hmiss => exact absurd hseek (hmiss.resolve_right not_canFail c)
  | atEnd _ _ _ hseek' hnew =>
    obtain rfl := Option.some.inj (hseek'.2.symm.trans hseek.2)
    exact hnew.takenStay hp (fun _ _ hfree => hfree) (fun _ => hseek.start_lt hp) hlost
  | noCluster _ _ hzero _ => omega
  | firstShort _ _ hzero _ _ _ => omega
  | first _ _ hzero _ _ _ => omega

/-- The clusters behind the first one of an empty file. -/
theorem WriteLosesNone.emptyRest (hp : Placed fs) (hslot : SlotPosition fs inode)
    (hallow : WriteAllowed inode len ppos) (h : WriteLosesNone look fs v inode len ppos)
    (hend : ¬ WritesInside fs inode ppos) (hzero : inode.iSize = 0) (hc : FirstFree fs v c) :
    TakenStay fs c (clustersFor fs (len - min len fs.clusterSize))
      (setFatWord fs v c sfatEntryEoc) c := by
  have hpred := hp.clustersPred_eq hp.clusters_pos
  have hclusters := hp.clusters_lt
  obtain ⟨p, v₁, hrun, hlost⟩ := h.quiet hp hslot fun _ => 0
  cases hrun with
  | rejected hnot => exact absurd hallow hnot
  | notFound _ hin _ => exact absurd hin hend
  | insideShort _ hin _ _ _ => exact absurd hin hend
  | insideOut _ hin _ _ _ => exact absurd hin hend
  | inside _ hin _ _ _ _ => exact absurd hin hend
  | endNotFound _ _ hsize _ => omega
  | atEnd _ _ hsize _ _ => omega
  | noCluster _ _ _ hnone => exact absurd hc.2.1 (hnone.resolve_right not_canFail c hc.1)
  | firstShort _ _ _ _ _ hfail => exact absurd hfail not_canFail
  | @first c' n st' v' _ _ _ hc' hn hnew =>
    obtain rfl := hc'.unique hc
    have hfat : SameFat fs (setFatWord fs v c' sfatEntryEoc)
        (chunkWritten fs ((syncWriteStart inode (fun _ => 0) len ppos).at c') 0 n
          (setFatWord fs v c' sfatEntryEoc)) := sameFat_chunk hp (lt_of_fatWords hp hc.1) 0 n
    have hrest : (((syncWriteStart inode (fun _ => 0) len ppos).at c').advance n).len =
        len - min len fs.clusterSize := by rw [hn]; rfl
    have hstart : c' < fs.clustersPred → c' < sfatEntryMax := fun hcur => by omega
    have hstay := hnew.takenStay hp (fun k hk hfree => ?_) hstart hlost
    · rw [hrest] at hstay
      exact hstay.sameFat hp hfat.symm
    · rw [hfat k hk] at hfree
      exact (free_of_setFatWord (by decide) hfree).2

theorem fatReliable_copyFails (fs : FsInfo) : FatReliable fs copyFails := fun c hc => by
  cases c with
  | copyFromUser n => exact absurd hc id
  | _ => exact id

/-- A first copy that fails leaves a new cluster behind, and the inode without it. -/
theorem writeAtEnd_nothing (hp : Placed fs) {st : SyncWriteState} (hlen : st.len ≠ 0) {fsize : ℕ}
    (hzero : ¬ 0 < fsize) (hc : FirstFree fs v c)
    {Q : Loop SyncWriteState SyncWriteState × Option ℕ → Vol → Prop}
    (h : wp (failingWorld copyFails look) (writeAtEnd fs st fsize) Q v) :
    Q (.out ((st.at c).advance 0), none) (setFatWord fs v c sfatEntryEoc) := by
  rw [writeAtEnd, if_neg hzero, wp_bind] at h
  obtain ⟨r, v', h, ⟨d, rfl, hd, rfl⟩ | ⟨-, hnone, -⟩⟩ := exists_quiet h (acquire_lookups hp.toWellFormed)
  · obtain rfl := hd.unique hc
    simp only [wp_bind] at h
    have h := writeChunk_nothing hp.toWellFormed (st.at d) hlen hp.clusterSize_pos h
    exact (wp_done _ _ _).mp h
  · exact absurd hc.2.1 (hnone c hc.1)

/-- What is lost after the label `end` was lost before it. -/
theorem writeEnd_noneLost (hp : Placed fs) (hslot : SlotPosition fs inode) {st : SyncWriteState}
    (h : wp (failingWorld mayFail look) (writeEnd fs inode st)
      (fun r v' => NoneLost fs v₀ v' r.2.1.iStart) v) : NoneLost fs v₀ v inode.iStart := by
  rw [writeEnd] at h
  simp only [] at h
  rw [wp_currentTimeSec] at h
  have h := h 0
  rw [wp_bind] at h
  have hlost := (wp_done _ _ _).mp (((wp_flush_failing _).mp h).1)
  have hslot' : SlotPosition fs (inode.written fs st.ppos 0) := hslot.congr rfl rfl
  exact NoneLost.sameFat hlost (flushed_sameFat hp hslot' v).symm

/-- **The first cluster of an empty file** is lost if nothing is written to it. -/
theorem WriteLosesNone.emptyFirst (hp : Placed fs) (hslot : SlotPosition fs inode)
    (hallow : WriteAllowed inode len ppos) (h : WriteLosesNone look fs v inode len ppos)
    (hend : ¬ WritesInside fs inode ppos) (hzero : inode.iSize = 0) (hc : FirstFree fs v c) :
    OnChain fs v inode.iStart c := by
  have hrun := h copyFails (fatReliable_copyFails fs) fun _ => 0
  have hreject : ¬ (inode.iSize < ppos ∨ len = 0) := by
    have hle := hallow.1
    have hlen := hallow.2
    omega
  have hin : ¬ (inode.iSize &&& (fs.blockSize - 1) ≠ 0 ∨ ppos < inode.iSize) := hend
  rw [sfatSyncWrite_eq, wp_bind, syncWriteData] at hrun
  simp only [] at hrun
  rw [if_neg hreject, if_neg hin, wp_bind] at hrun
  have hrun := writeAtEnd_nothing hp hallow.2 (by omega) hc hrun
  simp only [writeRestData, wp_bind] at hrun
  have hrun := (wp_done _ _ _).mp hrun
  have hrun := (wp_done _ _ _).mp hrun
  have hslot' : SlotPosition fs { inode with iStart := inode.iStart } := hslot
  have hlost := writeEnd_noneLost hp hslot' hrun
  exact (noneLost_acquired hc (NoneLost.refl fs v _)).mp hlost hc.2.1

/-- **When `sfat_sync_write` loses no cluster.** -/
theorem write_leak_iff (hlook : StoredOrAddress look) (hp : Placed fs)
    (hslot : SlotPosition fs inode) :
    WriteLosesNone look fs v inode len ppos ↔
      (WriteAllowed inode len ppos → WriteKeeps look fs v inode len ppos) := by
  refine ⟨fun h hallow => ⟨?_, ?_, ?_⟩, write_losesNone hlook hp hslot⟩
  · exact fun c hin hseek hmark d hd => h.inside hlook hp hslot hallow hin hseek hmark hd
  · exact fun c hend hsize hseek => h.atEnd hp hslot hallow hend hsize hseek
  · exact fun c hend hzero hc =>
      ⟨h.emptyFirst hp hslot hallow hend hzero hc, h.emptyRest hp hslot hallow hend hzero hc⟩

end Write

end SimpleFat

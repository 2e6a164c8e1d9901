import SimpleFat.WriteContent

/-!
# When a write writes everything

Without failures a write is short only if it gets stuck at the clusters: the accessor refuses one of
them, the walk over the existing ones has replaced the last one by its end mark, so that the first
new cluster cannot be linked, or no cluster is free.

`FreeFor` says that the free words, in their order, are enough; the loop for new clusters completes
exactly then.

* `NewRun.complete_iff`, `ExistingRun.complete_iff` — the loops;
* `write_complete_iff` — the whole write.
-/

namespace SimpleFat

open SimpleFat.Lib

variable {fs : FsInfo} {v v' : Vol} {st st' : SyncWriteState} {cs : List ℕ}

/-! ### Free words -/

/-- **The free words are enough for `m` clusters** behind `cur`: each is linked to the one before
it, which the accessor has to accept. -/
def FreeFor (fs : FsInfo) : (m : ℕ) → (free : List ℕ) → (cur : ℕ) → Prop
  | 0, _, _ => True
  | _ + 1, [], _ => False
  | m + 1, c :: free, cur => cur < fs.clustersPred ∧ FreeFor fs m free c

/-! ### The loop for new clusters -/

/-- A refused cluster is the end. -/
theorem not_freeFor {m cur : ℕ} {free : List ℕ} (h : fs.clustersPred ≤ cur) :
    ¬ FreeFor fs (m + 1) free cur := by
  cases free with
  | nil => exact id
  | cons c free => exact fun hf => absurd hf.1 (by omega)

/-- **The loop completes exactly if the free words are enough.** -/
theorem NewRun.complete_iff (hp : Placed fs) (hrun : NewRun noFailure fs st v st' v')
    (hused : st.len ≠ 0 → st.curCls < fs.clustersPred → fatWord fs v st.curCls ≠ sfatEntryFree) :
    st'.len = 0 ↔ FreeFor fs (clustersFor fs st.len) (freeList fs v) st.curCls := by
  have hcs := hp.clusterSize_pos
  induction hrun with
  | @done st v hlen =>
    rw [hlen, clustersFor_zero hcs]
    exact ⟨fun _ => trivial, fun _ => rfl⟩
  | @noCluster st v hlen hnone =>
    rw [clustersFor_step hcs hlen, freeList_noneFree (hnone.resolve_right not_canFail)]
    exact ⟨fun h => absurd h hlen, False.elim⟩
  | @unlinked st v c hlen hc hrefused =>
    rw [clustersFor_step hcs hlen]
    exact ⟨fun h => absurd h hlen, fun h =>
      absurd h (not_freeFor (hrefused.resolve_right not_canFail))⟩
  | short _ _ _ _ hfail => exact absurd hfail not_canFail
  | @more st st' v v' c hlen hc hcur hrun ih =>
    have hmin : chunkLen fs (st.at c) 0 = min st.len fs.clusterSize := rfl
    have hrest : ((st.at c).advance (chunkLen fs (st.at c) 0)).len =
        st.len - min st.len fs.clusterSize := by rw [← hmin]; rfl
    have hfat : SameFat fs (clusterLinked fs v st.curCls c)
        (chunkWritten fs (st.at c) 0 (chunkLen fs (st.at c) 0) (clusterLinked fs v st.curCls c)) :=
      sameFat_chunkWritten hp hc.1
    have hneq : st.curCls ≠ c := fun heq => hused hlen hcur (heq ▸ hc.2.1)
    have hnew : fatWord fs (chunkWritten fs (st.at c) 0 (chunkLen fs (st.at c) 0)
        (clusterLinked fs v st.curCls c)) c ≠ sfatEntryFree := by
      rw [hfat c hc.1, clusterLinked, fatWord_setFatWord_ne (Ne.symm hneq), fatWord_setFatWord]
      decide
    rw [clustersFor_step hcs hlen, freeList_firstFree hc]
    show st'.len = 0 ↔ st.curCls < fs.clustersPred ∧
      FreeFor fs (clustersFor fs (st.len - min st.len fs.clusterSize)) (freeAfter fs v c) c
    rw [and_iff_right hcur]
    by_cases hacc : c < fs.clustersPred
    · -- an accepted cluster is no mark, and the rest of the free words is left
      have hclusters := hp.clusters_lt
      rw [hp.clustersPred_eq hp.clusters_pos] at hacc
      rw [sfatEntryMax] at hclusters
      have hmark : c % 2 ^ 32 ≠ sfatEntryFree := by
        rw [sfatEntryFree]
        omega
      have hstep := ih fun _ _ => hnew
      rw [hrest, freeList_of_linked hc (hused hlen hcur) hmark hfat] at hstep
      exact hstep
    · have hsame := hrun.stuck (Nat.le_of_not_lt hacc)
      rw [hsame, hrest, ← clustersFor_eq_zero hcs]
      cases hm : clustersFor fs (st.len - min st.len fs.clusterSize) with
      | zero => exact ⟨fun _ => trivial, fun _ => rfl⟩
      | succ m =>
        exact ⟨fun h => absurd h (Nat.succ_ne_zero m),
          fun h => absurd h (not_freeFor (Nat.le_of_not_lt hacc))⟩

/-! ### The walk over the existing clusters -/

/-- The chain has `m` more clusters behind its `k`-th, and the accessor accepts all before the last
of them. -/
def ChainFor (fs : FsInfo) (cs : List ℕ) (k m : ℕ) : Prop :=
  k + m < cs.length ∧ ∀ j, k ≤ j → j < k + m → ∀ b, cs[j]? = some b → b < fs.clustersPred

theorem chainFor_succ {k m cur : ℕ} (hk : cs[k]? = some cur) (hcur : cur < fs.clustersPred) :
    ChainFor fs cs k (m + 1) ↔ ChainFor fs cs (k + 1) m := by
  rw [ChainFor, ChainFor, show k + (m + 1) = k + 1 + m by omega]
  refine and_congr_right fun _ => ⟨fun h j hj hjm => h j (by omega) hjm, fun h j hj hjm b hb => ?_⟩
  by_cases hjk : j = k
  · rw [hjk, hk] at hb
    rw [← Option.some.inj hb]
    exact hcur
  · exact h j (by omega) hjm b hb

/-- How the walk ends, if the clusters are enough or not. -/
def ExistingStops (fs : FsInfo) (enough : Prop) : Loop SyncWriteState SyncWriteState → Prop
  | .out st => st.len ≠ 0 ∧ ¬ enough
  | .next st => (st.len = 0 ↔ enough) ∧ (st.len ≠ 0 → fs.clustersPred ≤ st.curCls)

/-- **The walk completes exactly if the chain is long enough**; else it leaves a cluster number that
is refused. -/
theorem ExistingRun.complete_iff (hp : Placed fs) {r : Loop SyncWriteState SyncWriteState}
    (hrun : ExistingRun noFailure storedWord fs st v r v') (hrow : ClusterRow fs v cs)
    (hend : RowEnds fs v cs) (hlt : ∀ b ∈ cs, b < fs.clusters) {k : ℕ} (hk : cs[k]? = some st.curCls) :
    ExistingStops fs (ChainFor fs cs k (clustersFor fs st.len)) r := by
  have hcs := hp.clusterSize_pos
  have hmax := hp.clusters_lt
  have hpred := hp.clustersPred_eq hp.clusters_pos
  induction hrun generalizing k with
  | @done st v hlen =>
    rw [hlen, clustersFor_zero hcs]
    refine ⟨⟨fun _ => ⟨(List.getElem?_eq_some_iff.mp hk).1, fun j hj hjk => by omega⟩,
      fun _ => hlen⟩, fun hne => absurd hlen hne⟩
  | @refused st v hlen hrefused =>
    have hrefused := hrefused.resolve_right not_canFail
    refine ⟨hlen, fun h => ?_⟩
    rw [clustersFor_step hcs hlen] at h
    exact absurd (h.2 k (Nat.le_refl k) (by omega) _ hk) (Nat.not_lt.mpr hrefused)
  | @ended st v hlen hcur hmark =>
    refine ⟨⟨fun h => absurd h hlen, fun h => ?_⟩, fun _ => ?_⟩
    · -- the word of a cluster that is not the last one is a cluster
      rw [clustersFor_step hcs hlen] at h
      have hin : k + 1 < cs.length := by
        have := h.1
        omega
      have hget : cs[k + 1]? = some cs[k + 1] := List.getElem?_eq_getElem hin
      have hword := hrow.links k _ _ hk hget
      rw [nextWord_storedWord hp.toWellFormed] at hmark
      have := hlt _ (List.getElem_mem hin)
      omega
    · show fs.clustersPred ≤ nextWord storedWord fs v st.curCls
      omega
  | short _ _ _ _ _ hfail => exact absurd hfail not_canFail
  | @more st r v v' c hlen hcur hc hcmax hrun ih =>
    rw [nextWord_storedWord hp.toWellFormed] at hc
    have hmin : chunkLen fs (st.at c) 0 = min st.len fs.clusterSize := rfl
    have hrest : ((st.at c).advance (chunkLen fs (st.at c) 0)).len =
        st.len - min st.len fs.clusterSize := by rw [← hmin]; rfl
    rw [clustersFor_step hcs hlen, chainFor_succ hk (Nat.lt_of_not_le hcur), ← hrest]
    have hnext := hrow.next hend hk hc hcmax
    have hcmem := List.mem_of_getElem? hnext
    exact ih (hrow.congr (sameFat_chunkWritten hp (hrow.lt_words c hcmem)))
      (hend.chunk hp hrow hcmem) hnext

/-! ### Free data clusters -/

/-- Ascending clusters below `clusters` are accepted, but perhaps the last one. -/
theorem freeFor_of_sorted {free rest : List ℕ} {m cur : ℕ} (hsorted : free.Pairwise (· < ·))
    (hlt : ∀ c ∈ free, c < fs.clusters) (hm : m ≤ free.length)
    (hpred : fs.clustersPred = fs.clusters - 1) (hcur : m ≠ 0 → cur < fs.clustersPred) :
    FreeFor fs m (free ++ rest) cur := by
  induction m generalizing free cur with
  | zero => exact trivial
  | succ m ih =>
    cases free with
    | nil => exact absurd hm (by simp)
    | cons c free =>
      obtain ⟨hc, hsorted⟩ := List.pairwise_cons.mp hsorted
      refine ⟨hcur (Nat.succ_ne_zero m), ih hsorted
        (fun b hb => hlt b (List.mem_cons_of_mem c hb)) (Nat.le_of_succ_le_succ hm) fun h0 => ?_⟩
      -- the next free cluster is a greater one
      cases free with
      | nil => exact absurd hm (by simpa using h0)
      | cons b free =>
        have hcb := hc b List.mem_cons_self
        have hb := hlt b (List.mem_cons_of_mem c List.mem_cons_self)
        omega

theorem freeFrom_sorted (k n : ℕ) : (freeFrom fs v k n).Pairwise (· < ·) :=
  (List.pairwise_lt_range' _).filter _

/-- The free words are those of the data clusters, and then the others. -/
theorem freeList_append (hp : Placed fs) :
    freeList fs v = freeFrom fs v 0 fs.clusters ++
      freeFrom fs v fs.clusters (fatWords fs - fs.clusters) := by
  have hcov : fs.clusters ≤ fatWords fs := hp.fat_covers
  rw [freeList, freeFrom, freeFrom, freeFrom, ← List.filter_append]
  congr 1
  rw [← Nat.add_sub_cancel' hcov, ← List.range'_append_1, Nat.zero_add, Nat.add_sub_cancel_left]

/-! ### Whole writes -/

section Whole

variable {inode : Inode} {len ppos : ℕ} {buf : ℕ → UInt8}

/-- **The write is complete**: it returns `len`, and if it starts before the end of the file and goes
on behind its last cluster, that one is linked to a new cluster. -/
def WriteComplete (fs : FsInfo) (v : Vol) (inode : Inode) (cs : List ℕ) (len ppos : ℕ) : Prop :=
  ∀ buf : ℕ → UInt8, wp (lookupWorld storedWord) (sfatSyncWrite fs inode buf len ppos) (fun r v' =>
    r.1 = .ok len ∧ (ppos < inode.iSize → cs.length * fs.clusterSize < ppos + len →
      ∀ l, cs.getLast? = some l → fatWord fs v' l ≠ sfatEntryEoc)) v

inductive Completes (fs : FsInfo) (v : Vol) (inode : Inode) (cs : List ℕ) (len ppos : ℕ) : Prop
  /-- It starts inside the file and fits its clusters, of which the last data cluster is not left. -/
  | inside : WritesInside fs inode ppos → inode.iStart + 1 < fs.clusters →
      (ppos + len - 1) / fs.clusterSize < cs.length →
      (∀ j < (ppos + len - 1) / fs.clusterSize, ∀ b, cs[j]? = some b → b + 1 < fs.clusters) →
      Completes fs v inode cs len ppos
  /-- It appends to a file without the last data cluster; if the file is no whole clusters, there
  are free words for all bytes. -/
  | append : ¬ WritesInside fs inode ppos → 0 < inode.iSize → (∀ b ∈ cs, b + 1 < fs.clusters) →
      (inode.iSize % fs.clusterSize = 0 ∨ ∀ l, cs.getLast? = some l →
        FreeFor fs (clustersFor fs len) (freeList fs v) l) →
      Completes fs v inode cs len ppos
  /-- The file is empty. -/
  | empty : inode.iSize = 0 → Completes fs v inode cs len ppos

/-- The index of the last cluster that a write reaches. -/
theorem last_reached (hpos : 0 < fs.clusterSize) (hlen : len ≠ 0) :
    (ppos + len - 1) / fs.clusterSize = ppos / fs.clusterSize +
      clustersFor fs (len - min len (fs.clusterSize - ppos % fs.clusterSize)) := by
  have hsplit := Nat.div_add_mod ppos fs.clusterSize
  have hmod := Nat.mod_lt ppos hpos
  have hsum : ppos + len - 1 =
      fs.clusterSize * (ppos / fs.clusterSize) + (ppos % fs.clusterSize + len - 1) := by omega
  rw [hsum, Nat.mul_add_div hpos]
  rcases Nat.le_total len (fs.clusterSize - ppos % fs.clusterSize) with hle | hle
  · have hnone : (ppos % fs.clusterSize + len - 1) / fs.clusterSize = 0 :=
      Nat.div_eq_of_lt (by omega)
    rw [Nat.min_eq_left hle, Nat.sub_self, clustersFor_zero hpos, hnone]
  · rw [Nat.min_eq_right hle, clustersFor]
    congr 2
    omega

/-- Inside the file: the seek and the chain decide. -/
theorem completes_inside_iff (hp : Placed fs) (hfile : FileChain fs v inode cs)
    (hallow : WriteAllowed inode len ppos) (hin : WritesInside fs inode ppos) :
    Completes fs v inode cs len ppos ↔ (∃ c, SeekFinds storedWord fs v inode.iStart ppos c) ∧
      ChainFor fs cs (ppos / fs.clusterSize)
        (clustersFor fs (len - min len (fs.clusterSize - ppos % fs.clusterSize))) := by
  obtain ⟨hsize, hlt⟩ := hfile.inside hp hallow hin
  have hpred := hp.clustersPred_eq hp.clusters_pos
  have hlast := @last_reached fs len ppos hp.clusterSize_pos hallow.2
  rw [ChainFor, ← hlast]
  constructor
  · intro h
    cases h with
    | append hout _ _ _ => exact absurd hin hout
    | empty h0 => omega
    | inside _ hstart hreach hacc =>
      have hacc : ∀ j < (ppos + len - 1) / fs.clusterSize, ∀ b, cs[j]? = some b →
          b < fs.clustersPred := fun j hj b hb => by
        have := hacc j hj b hb
        omega
      refine ⟨⟨cs[ppos / fs.clusterSize], (hfile.seek_iff hp hsize hlt).mpr
        ⟨List.getElem?_eq_getElem hlt, by omega, fun j hj => hacc j (by omega)⟩⟩, hreach,
        fun j _ hj => hacc j hj⟩
  · rintro ⟨⟨c, hseek⟩, hreach, hchain⟩
    obtain ⟨-, hstart, hacc⟩ := (hfile.seek_iff hp hsize hlt).mp hseek
    refine .inside hin (by omega) hreach fun j hj b hb => ?_
    by_cases hjk : j < ppos / fs.clusterSize
    · have := hacc j hjk b hb
      omega
    · have := hchain j (by omega) hj b hb
      omega

/-- The clusters that are needed beyond those of the file. -/
def extraClusters (fs : FsInfo) (cs : List ℕ) (len ppos : ℕ) : ℕ :=
  clustersFor fs (ppos + len) - cs.length

theorem extraClusters_whole (hpos : 0 < fs.clusterSize) :
    extraClusters fs cs len (cs.length * fs.clusterSize) = clustersFor fs len := by
  rw [extraClusters, clustersFor, clustersFor, Nat.add_assoc, Nat.mul_comm, Nat.mul_add_div hpos,
    Nat.add_sub_cancel_left]

/-- The free data clusters are enough for an append to whole clusters. -/
theorem freeFor_extra (hp : Placed fs) {m cur : ℕ} (hm : m ≤ (freeFrom fs v 0 fs.clusters).length)
    (hcur : m ≠ 0 → cur < fs.clustersPred) : FreeFor fs m (freeList fs v) cur := by
  rw [freeList_append hp]
  exact freeFor_of_sorted (freeFrom_sorted 0 _) (fun c hc => by have := freeFrom_lt hc; omega) hm
    (hp.clustersPred_eq hp.clusters_pos) hcur

/-- The clusters behind the first one of an empty file. -/
theorem freeFor_after (hp : Placed fs) {m c : ℕ} (hc : FirstFree fs v c)
    (hm : m + 1 ≤ (freeFrom fs v 0 fs.clusters).length) : FreeFor fs m (freeAfter fs v c) c := by
  have happend := @freeList_append fs v hp
  have hsorted := @freeFrom_sorted fs v 0 fs.clusters
  have hlt : ∀ b ∈ freeFrom fs v 0 fs.clusters, b < fs.clusters := fun b hb => by
    have := freeFrom_lt hb
    omega
  have hpred := hp.clustersPred_eq hp.clusters_pos
  rw [freeList_firstFree hc] at happend
  cases hfree : freeFrom fs v 0 fs.clusters with
  | nil =>
    rw [hfree] at hm
    exact absurd hm (by simp)
  | cons b free =>
    rw [hfree] at happend hsorted hlt hm
    obtain ⟨rfl, hafter⟩ := List.cons.inj happend
    obtain ⟨hc, hsorted⟩ := List.pairwise_cons.mp hsorted
    rw [hafter]
    refine freeFor_of_sorted hsorted (fun b hb => hlt b (List.mem_cons_of_mem _ hb))
      (Nat.le_of_succ_le_succ hm) hpred fun h0 => ?_
    cases free with
    | nil => exact absurd hm (by simpa using h0)
    | cons b free =>
      have hcb := hc b List.mem_cons_self
      have hb := hlt b (List.mem_cons_of_mem _ List.mem_cons_self)
      omega

/-- The walk over the chain behind the first cluster of a write that starts inside the file. -/
theorem FileChain.walk_stops (hp : Placed fs) (hfile : FileChain fs v inode cs)
    (hallow : WriteAllowed inode len ppos) (hin : WritesInside fs inode ppos) {c n : ℕ}
    {r : Loop SyncWriteState SyncWriteState} (hseek : SeekFinds storedWord fs v inode.iStart ppos c)
    (hn : n = chunkLen fs ((syncWriteStart inode buf len ppos).at c) (ppos % fs.clusterSize))
    (hexist : ExistingRun noFailure storedWord fs (((syncWriteStart inode buf len ppos).at c).advance n)
      (chunkWritten fs ((syncWriteStart inode buf len ppos).at c) (ppos % fs.clusterSize) n v) r v') :
    ExistingStops fs (Completes fs v inode cs len ppos) r := by
  obtain ⟨hsize, hlt⟩ := hfile.inside hp hallow hin
  have hk := ((hfile.seek_iff hp hsize hlt).mp hseek).1
  have hmem := List.mem_of_getElem? hk
  have hrow := hfile.row hp
  have hchain := hfile.chain hsize
  have hstops := hexist.complete_iff hp
    (hrow.congr (sameFat_chunkWritten hp (hrow.lt_words c hmem)))
    (hchain.rowEnds.chunk hp hrow hmem) hchain.2 hk
  have hiff := completes_inside_iff hp hfile hallow hin
  rw [and_iff_right ⟨c, hseek⟩] at hiff
  have hrest : (((syncWriteStart inode buf len ppos).at c).advance n).len =
      len - min len (fs.clusterSize - ppos % fs.clusterSize) := by rw [hn]; rfl
  rw [hrest, ← propext hiff] at hstops
  exact hstops

/-- An append behind the last cluster `c`: the free words decide. -/
theorem FileChain.append_iff (hp : Placed fs) (hfile : FileChain fs v inode cs) {c : ℕ}
    (hlen : len ≠ 0) (hout : ¬ WritesInside fs inode ppos) (hppos : ppos = inode.iSize)
    (hsize : 0 < inode.iSize) (hseek : SeekFinds storedWord fs v inode.iStart (ppos - 1) c)
    (hfree : extraClusters fs cs len ppos ≤ (freeFrom fs v 0 fs.clusters).length) :
    FreeFor fs (clustersFor fs len) (freeList fs v) c ↔ Completes fs v inode cs len ppos := by
  have hcs := hp.clusterSize_pos
  have hpred := hp.clustersPred_eq hp.clusters_pos
  rw [hppos] at hseek
  obtain ⟨hlast, hacc⟩ := hfile.atEnd hp hsize hseek
  obtain ⟨m, hm⟩ : ∃ m, clustersFor fs len = m + 1 := ⟨_, clustersFor_step hcs hlen⟩
  constructor
  · intro hfor
    refine .append hout hsize (fun b hb => ?_) (.inr fun l hl => ?_)
    · by_cases hbc : b = c
      · rw [hm] at hfor
        have hcur : c < fs.clustersPred := Nat.lt_of_not_le fun h => not_freeFor h hfor
        omega
      · have := hacc b hb hbc
        omega
    · obtain rfl := Option.some.inj (hlast.symm.trans hl)
      exact hfor
  · intro h
    cases h with
    | inside hin _ _ _ => exact absurd hin hout
    | empty h0 => omega
    | append _ _ hacc' hroom =>
      rcases hroom with hwhole | hfor
      · have hsum := hfile.whole hp hwhole
        have hc := hacc' c (List.mem_of_getLast? hlast)
        rw [hppos, hsum, extraClusters_whole hcs] at hfree
        exact freeFor_extra hp hfree fun _ => by omega
      · exact hfor c hlast

/-- The clusters that an empty file needs. -/
theorem FileChain.extraClusters_empty (hp : Placed fs) (hfile : FileChain fs v inode cs)
    (hsize : inode.iSize = 0) : extraClusters fs cs len inode.iSize = clustersFor fs len := by
  rw [extraClusters, hfile.nil_of_empty hp hsize, hsize, Nat.zero_add, List.length_nil, Nat.sub_zero]

/-- **A run from an empty file completes**: its first cluster is taken, and the free words are enough
for the others. -/
theorem NewRun.first_complete (hp : Placed fs) {c n : ℕ} {st' : SyncWriteState} (hlen : len ≠ 0)
    (hfree : clustersFor fs len ≤ (freeFrom fs v 0 fs.clusters).length) (hc : FirstFree fs v c)
    (hn : n = chunkLen fs ((syncWriteStart inode buf len ppos).at c) 0)
    (hnew : NewRun noFailure fs (((syncWriteStart inode buf len ppos).at c).advance n)
      (chunkWritten fs ((syncWriteStart inode buf len ppos).at c) 0 n (setFatWord fs v c sfatEntryEoc))
      st' v') : st'.len = 0 := by
  rw [clustersFor_step hp.clusterSize_pos hlen] at hfree
  have hfat : SameFat fs (setFatWord fs v c sfatEntryEoc)
      (chunkWritten fs ((syncWriteStart inode buf len ppos).at c) 0 n
        (setFatWord fs v c sfatEntryEoc)) := sameFat_chunkWritten hp hc.1
  have hself : fatWord fs (chunkWritten fs ((syncWriteStart inode buf len ppos).at c) 0 n
      (setFatWord fs v c sfatEntryEoc)) c ≠ sfatEntryFree := by
    rw [hfat c hc.1, fatWord_setFatWord]
    decide
  have hleft := freeList_of_taken hc hself fun d hd hdc => by
    rw [hfat d hd, fatWord_setFatWord_ne hdc]
  have hmin : n = min len fs.clusterSize := hn
  have hiff : st'.len = 0 ↔ FreeFor fs (clustersFor fs (len - n)) _ c :=
    hnew.complete_iff hp fun _ _ => hself
  rw [hleft, hmin] at hiff
  exact hiff.mpr (freeFor_after hp hc hfree)

/-- **A run completes exactly under the condition**, if there are free data clusters for the extra
ones. -/
theorem DataRun.complete_iff (hp : Placed fs) (hfile : FileChain fs v inode cs)
    (hallow : WriteAllowed inode len ppos)
    (hfree : extraClusters fs cs len ppos ≤ (freeFrom fs v 0 fs.clusters).length)
    {p : Except Errno SyncWriteState × Inode} {v₁ : Vol}
    (hrun : DataRun noFailure storedWord fs v inode buf len ppos p v₁) :
    (∃ st inode', p = (.ok st, inode') ∧ st.len = 0) ↔ Completes fs v inode cs len ppos := by
  have hcs := hp.clusterSize_pos
  have hok : ∀ {st : SyncWriteState} {inode' : Inode}, (∃ st₁ inode₁,
      ((.ok st, inode') : Except Errno SyncWriteState × Inode) = (.ok st₁, inode₁) ∧ st₁.len = 0) ↔
        st.len = 0 := by
    intro st inode'
    constructor
    · rintro ⟨st₁, inode₁, heq, h0⟩
      obtain rfl := Except.ok.inj (Prod.mk.inj heq).1
      exact h0
    · exact fun h0 => ⟨st, inode', rfl, h0⟩
  have hnone : ∀ {e : Errno} {inode' : Inode}, ¬ ∃ st₁ inode₁,
      ((.error e, inode') : Except Errno SyncWriteState × Inode) = (.ok st₁, inode₁) ∧
        st₁.len = 0 := by
    rintro e inode' ⟨st₁, inode₁, heq, -⟩
    cases (Prod.mk.inj heq).1
  -- at the end of the file
  have hend : ¬ WritesInside fs inode ppos → ppos = inode.iSize := by
    intro hout
    have hle := hallow.1
    rw [WritesInside] at hout
    omega
  cases hrun with
  | rejected h => exact absurd hallow h
  | notFound _ hin hmiss =>
    rw [completes_inside_iff hp hfile hallow hin]
    exact ⟨fun h => absurd h hnone, fun h =>
      h.1.elim fun c hc => absurd hc (hmiss.resolve_right not_canFail c)⟩
  | insideShort _ _ _ _ hfail => exact absurd hfail not_canFail
  | insideOut _ hin hseek hn hexist =>
    obtain ⟨hlen, hstop⟩ := hfile.walk_stops hp hallow hin hseek hn hexist
    rw [hok]
    exact ⟨fun h => absurd h hlen, fun h => absurd h hstop⟩
  | @inside c n st₁ st' v₁ v' _ hin hseek hn hexist hnew =>
    obtain ⟨hiff, hstuck⟩ := hfile.walk_stops hp hallow hin hseek hn hexist
    rw [hok, ← hiff]
    by_cases h0 : st₁.len = 0
    · cases hnew with
      | done _ => exact Iff.rfl
      | noCluster hne _ => exact absurd h0 hne
      | unlinked hne _ _ => exact absurd h0 hne
      | short hne _ _ _ _ => exact absurd h0 hne
      | more hne _ _ _ => exact absurd h0 hne
    · rw [hnew.stuck (hstuck h0)]
  | endNotFound _ hout hsize hmiss =>
    rw [hok]
    refine ⟨fun h => absurd h hallow.2, fun h => ?_⟩
    have hmiss := hmiss.resolve_right not_canFail
    cases h with
    | inside hin _ _ _ => exact absurd hin hout
    | empty h0 => omega
    | append _ _ hacc _ =>
      obtain ⟨c, hseek, -⟩ := hfile.seek_last hp hsize hacc
      rw [hend hout] at hmiss
      exact absurd hseek (hmiss c)
  | @atEnd c st' v' _ hout hsize hseek hnew =>
    have hlast := (hfile.atEnd hp hsize (hend hout ▸ hseek)).1
    have hused : fatWord fs v c ≠ sfatEntryFree :=
      (hfile.row hp).used c (List.mem_of_getLast? hlast)
    have hiff : st'.len = 0 ↔ FreeFor fs (clustersFor fs len) (freeList fs v) c :=
      hnew.complete_iff hp fun _ _ => hused
    rw [hok, hiff]
    exact hfile.append_iff hp hallow.2 hout (hend hout) hsize hseek hfree
  | noCluster _ hout hsize hmiss =>
    have hempty : freeFrom fs v 0 fs.clusters = [] := by
      have happend := @freeList_append fs v hp
      rw [freeList_noneFree (hmiss.resolve_right not_canFail)] at happend
      exact (List.append_eq_nil_iff.mp happend.symm).1
    rw [hempty, hend hout, hfile.extraClusters_empty hp hsize, List.length_nil] at hfree
    exact absurd ((clustersFor_eq_zero hcs).mp (Nat.le_zero.mp hfree)) hallow.2
  | firstShort _ _ _ _ _ hfail => exact absurd hfail not_canFail
  | @first c n st' v' _ hout hsize hc hn hnew =>
    rw [hend hout, hfile.extraClusters_empty hp hsize] at hfree
    rw [hok]
    exact ⟨fun _ => .empty hsize, fun _ => hnew.first_complete hp hallow.2 hfree hc hn⟩

/-- A write that is complete had the clusters for it. -/
theorem WriteComplete.completes (hp : Placed fs) (hfile : FileChain fs v inode cs)
    (hpos : ppos ≤ inode.iSize) (hlen : 0 < len)
    (hfree : extraClusters fs cs len ppos ≤ (freeFrom fs v 0 fs.clusters).length)
    (h : WriteComplete fs v inode cs len ppos) : Completes fs v inode cs len ppos := by
  obtain ⟨r, v', hcomplete, p, v₁, hrun, hout⟩ := wp_lookups_nonempty
    (wp_and (h fun _ => 0) (sfatSyncWrite_spec hp.toWellFormed inode _ len ppos))
  rw [← hrun.complete_iff hp hfile ⟨hpos, by omega⟩ hfree]
  obtain ⟨p, inode'⟩ := p
  cases p with
  | error e =>
    obtain ⟨rfl, -⟩ := hout
    cases hcomplete.1
  | ok st =>
    obtain ⟨t, rfl, -⟩ := hout
    have haccu : st.accuLen = len := Except.ok.inj hcomplete.1
    have htotal := hrun.total
    exact ⟨st, inode', rfl, by omega⟩

/-- **When a write is complete**, for any file with a well-formed chain, any position up to its end
and any length, with free data clusters for the extra ones and without failures. -/
theorem write_complete_iff (hp : Placed fs) (hfile : FileChain fs v inode cs)
    (hpos : ppos ≤ inode.iSize) (hlen : 0 < len)
    (hfree : extraClusters fs cs len ppos ≤ (freeFrom fs v 0 fs.clusters).length) :
    WriteComplete fs v inode cs len ppos ↔ Completes fs v inode cs len ppos := by
  refine ⟨fun h => h.completes hp hfile hpos hlen hfree, fun h buf => ?_⟩
  refine wp_mono (sfatSyncWrite_spec hp.toWellFormed inode buf len ppos) fun r v' hr => ?_
  obtain ⟨p, v₁, hrun, hout⟩ := hr
  obtain ⟨st, inode', rfl, h0⟩ := (hrun.complete_iff hp hfile ⟨hpos, by omega⟩ hfree).mpr h
  obtain ⟨t, rfl, -⟩ := hout
  have htotal := hrun.total
  refine ⟨congrArg _ (show st.accuLen = len by omega), fun hin hover => ?_⟩
  -- a complete write inside the file does not go on behind the last cluster
  cases h with
  | append hout _ _ _ => exact absurd (.inr hin) hout
  | empty hsize => omega
  | inside _ _ hreach _ =>
    rw [Nat.div_lt_iff_lt_mul hp.clusterSize_pos] at hreach
    omega

end Whole

/-! ### A write across the end of the chain -/

theorem write_complete_iff_oneBlock :
    WriteComplete sbi31.fsInfo oneClusterVolume oneBlockFile [1] 2048 0 ↔
      Completes sbi31.fsInfo oneClusterVolume oneBlockFile [1] 2048 0 :=
  write_complete_iff placed31 oneBlockFile_chain (by decide) (by decide) (by decide +kernel)

/-- **A write of 2049 bytes at the start of a file with one cluster is short**, with two clusters
free. -/
theorem write_complete_fails :
    extraClusters sbi31.fsInfo [1] 2049 0 ≤
      (freeFrom sbi31.fsInfo oneClusterVolume 0 sbi31.fsInfo.clusters).length ∧
    ¬ WriteComplete sbi31.fsInfo oneClusterVolume oneBlockFile [1] 2049 0 := by
  have hfree : extraClusters sbi31.fsInfo [1] 2049 0 ≤
      (freeFrom sbi31.fsInfo oneClusterVolume 0 sbi31.fsInfo.clusters).length := by decide +kernel
  refine ⟨hfree, fun h => ?_⟩
  have hwrite := h.completes placed31 oneBlockFile_chain (by decide) (by decide) hfree
  cases hwrite with
  | inside _ _ hreach _ => exact absurd hreach (by decide)
  | append hout _ _ _ => exact hout (.inr (by decide))
  | empty h0 => exact absurd h0 (by decide)

end SimpleFat

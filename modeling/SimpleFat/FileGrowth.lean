import SimpleFat.ChainAppend
import SimpleFat.ChainInside
import SimpleFat.ClusterLeak

/-!
# The chain of a file after a write

A write that takes only clusters of the data area, and does not append into a cluster, leaves its
file with exactly the clusters that the new size needs.  Every cluster that is in use and not the
file's own keeps its word and its bytes, and at most one cluster that was free is lost.

* `KeepsOthers` — what a write leaves alone, and `KeepsOthers.chunk`, `.acquired`, `.word`;
* `Taken` — where the words that are in use come from;
* `NewRun.grown`, `ExistingRun.grown` — the loops;
* `DataRun.grown` — the whole work on the clusters.
-/

namespace SimpleFat

open SimpleFat.Lib

variable {fs : FsInfo} {v v' v₀ : Vol} {cs ds : List ℕ} {st st' : SyncWriteState} {start c : ℕ}

/-! ### What is left alone -/

/-- **From the volume `v₀` on the clusters `ds` were written**: they are those of the file or were
free, and all others that are in use have their words and their bytes, as has what is before the
FAT. -/
structure KeepsOthers (fs : FsInfo) (v₀ : Vol) (cs : List ℕ) (v : Vol) (ds : List ℕ) : Prop where
  fresh : ∀ c ∈ ds, c ∈ cs ∨ fatWord fs v₀ c = sfatEntryFree
  below : ∀ a < fs.fatStartBlk * fs.blockSize, v a = v₀ a
  words : ∀ d < fatWords fs, fatWord fs v₀ d ≠ sfatEntryFree → d ∉ cs →
    fatWord fs v d = fatWord fs v₀ d
  data : ∀ d < fatWords fs, fatWord fs v₀ d ≠ sfatEntryFree → d ∉ cs →
    ∀ a, clsAddr fs d ≤ a → a < clsAddr fs d + fs.clusterSize → v a = v₀ a

theorem KeepsOthers.refl (fs : FsInfo) (v : Vol) (cs : List ℕ) : KeepsOthers fs v cs v cs where
  fresh _ hc := .inl hc
  below _ _ := rfl
  words _ _ _ _ := rfl
  data _ _ _ _ _ _ _ := rfl

/-- A cluster that is in use and not the file's own is none of those that were written. -/
theorem KeepsOthers.ne (h : KeepsOthers fs v₀ cs v ds) {d : ℕ}
    (hd : fatWord fs v₀ d ≠ sfatEntryFree) (hnot : d ∉ cs) (hc : c ∈ ds) : d ≠ c := by
  rintro rfl
  rcases h.fresh d hc with hmem | hfree
  · exact hnot hmem
  · exact hd hfree

/-- A cluster that is free now was free, or is the file's own. -/
theorem KeepsOthers.free (h : KeepsOthers fs v₀ cs v ds) (hc : FirstFree fs v c) {d : ℕ}
    (hlt : d < fatWords fs) (hd : fatWord fs v₀ d ≠ sfatEntryFree) (hnot : d ∉ cs) : d ≠ c := by
  rintro rfl
  rw [← h.words d hlt hd hnot] at hd
  exact hd hc.2.1

/-- A change of the word of a cluster that is not among the others. -/
theorem KeepsOthers.word (hp : Placed fs) (h : KeepsOthers fs v₀ cs v ds) (hc : c < fatWords fs)
    (hother : ∀ d < fatWords fs, fatWord fs v₀ d ≠ sfatEntryFree → d ∉ cs → d ≠ c) (x : ℕ) :
    KeepsOthers fs v₀ cs (setFatWord fs v c x) ds where
  fresh := h.fresh
  below a ha := by
    rw [setFatWord_before ha]
    exact h.below a ha
  words d hlt hd hnot := by
    rw [fatWord_setFatWord_ne (hother d hlt hd hnot)]
    exact h.words d hlt hd hnot
  data d hlt hd hnot a hlo hhi := by
    have hstart := dataStart_le_clsAddr hp (lt_of_fatWords hp hlt)
    rw [setFatWord_data hp hc x (by omega)]
    exact h.data d hlt hd hnot a hlo hhi

/-- A cluster was taken. -/
theorem KeepsOthers.acquired (hp : Placed fs) (h : KeepsOthers fs v₀ cs v ds)
    (hc : FirstFree fs v c) : KeepsOthers fs v₀ cs (setFatWord fs v c sfatEntryEoc) ds :=
  h.word hp hc.1 (fun _ hlt hd hnot => h.free hc hlt hd hnot) _

/-- A change inside one of the clusters. -/
theorem KeepsOthers.inside (hp : Placed fs) (h : KeepsOthers fs v₀ cs v ds) (hc : c ∈ ds)
    (hlt : c < fatWords fs)
    (hsame : ∀ a, a < clsAddr fs c ∨ clsAddr fs c + fs.clusterSize ≤ a → v' a = v a) :
    KeepsOthers fs v₀ cs v' ds := by
  have hstart := dataStart_le_clsAddr hp (lt_of_fatWords hp hlt)
  have hfat : SameFat fs v v' := SameFat.of_below hp fun a ha => hsame a (by omega)
  refine ⟨h.fresh, fun a ha => ?_, fun d hd hused hnot => ?_, fun d hd hused hnot a hlo hhi => ?_⟩
  · have hboot := Nat.mul_le_mul_right fs.blockSize hp.fat_before_data
    rw [Nat.add_mul] at hboot
    rw [hsame a (by omega)]
    exact h.below a ha
  · rw [hfat d hd]
    exact h.words d hd hused hnot
  · have hne := h.ne hused hnot hc
    have hapart := clsAddr_apart hp (lt_of_fatWords hp hd) (lt_of_fatWords hp hlt) hne
    rw [hsame a (by omega)]
    exact h.data d hd hused hnot a hlo hhi

/-- A write to one of the clusters. -/
theorem KeepsOthers.chunk (hp : Placed fs) (h : KeepsOthers fs v₀ cs v ds)
    (hcur : st.curCls ∈ ds) (hlt : st.curCls < fatWords fs) {offset n : ℕ}
    (hroom : offset + n ≤ fs.clusterSize) :
    KeepsOthers fs v₀ cs (chunkWritten fs st offset n v) ds := by
  apply h.inside hp hcur hlt
  rintro a (ha | ha)
  · exact patch_of_lt _ _ (by omega)
  · exact patch_of_ge _ _ (by omega)

/-- A taken cluster belongs to the clusters that were written. -/
theorem KeepsOthers.concat (h : KeepsOthers fs v₀ cs v ds) (hfree : c ∈ cs ∨
    fatWord fs v₀ c = sfatEntryFree) : KeepsOthers fs v₀ cs v (ds ++ [c]) where
  fresh d hd := by
    rcases List.mem_append.mp hd with hd | hd
    · exact h.fresh d hd
    · rw [List.mem_singleton.mp hd]
      exact hfree
  below := h.below
  words := h.words
  data := h.data

/-- A cluster that is free now is one that may be taken. -/
theorem KeepsOthers.mayTake (h : KeepsOthers fs v₀ cs v ds) (hc : FirstFree fs v c) :
    c ∈ cs ∨ fatWord fs v₀ c = sfatEntryFree := by
  by_contra hno
  simp only [not_or] at hno
  exact h.free hc hc.1 hno.2 hno.1 rfl

/-! ### What is taken -/

/-- **The clusters `ds` were written and `lost` are lost**: what is in use now was in use before, or is
one of them. -/
structure Taken (fs : FsInfo) (v₀ : Vol) (cs : List ℕ) (v : Vol) (ds lost : List ℕ) : Prop where
  kept : ∀ c ∈ cs, c ∈ ds
  used : ∀ c < fatWords fs, fatWord fs v c ≠ sfatEntryFree →
    fatWord fs v₀ c ≠ sfatEntryFree ∨ c ∈ ds ∨ c ∈ lost

theorem Taken.refl (fs : FsInfo) (v : Vol) (cs : List ℕ) : Taken fs v cs v cs [] where
  kept _ hc := hc
  used _ _ hused := .inl hused

/-- Data and slots are not in the FAT. -/
theorem Taken.sameFat (h : Taken fs v₀ cs v ds []) (hfat : SameFat fs v v') :
    Taken fs v₀ cs v' ds [] where
  kept := h.kept
  used c hc hused := h.used c hc (hfat c hc ▸ hused)

/-- A cluster that was taken and not linked is lost. -/
theorem Taken.acquired (h : Taken fs v₀ cs v ds []) (c : ℕ) :
    Taken fs v₀ cs (setFatWord fs v c sfatEntryEoc) ds [c] where
  kept := h.kept
  used d hd hused := by
    by_cases hdc : d = c
    · exact .inr (.inr (List.mem_singleton.mpr hdc))
    · rw [fatWord_setFatWord_ne hdc] at hused
      exact (h.used d hd hused).imp_right fun hmem => hmem.imp_right (List.mem_cons_of_mem c)

/-- A first cluster, that the inode leads to. -/
theorem Taken.first (h : Taken fs v₀ cs v ds []) (c : ℕ) :
    Taken fs v₀ cs (setFatWord fs v c sfatEntryEoc) (ds ++ [c]) [] where
  kept d hd := List.mem_append_left [c] (h.kept d hd)
  used d hd hused := by
    rcases (h.acquired c).used d hd hused with hold | hmem | hmem
    · exact .inl hold
    · exact .inr (.inl (List.mem_append_left [c] hmem))
    · exact .inr (.inl (List.mem_append_right ds hmem))

/-- A cluster that was taken and linked. -/
theorem Taken.linked (h : Taken fs v₀ cs v ds []) {cur : ℕ} (hcur : cur ∈ ds) (c : ℕ) :
    Taken fs v₀ cs (clusterLinked fs v cur c) (ds ++ [c]) [] where
  kept := (h.first c).kept
  used d hd hused := by
    by_cases hdc : d = cur
    · exact .inr (.inl (List.mem_append_left [c] (hdc ▸ hcur)))
    · rw [clusterLinked, fatWord_setFatWord_ne hdc] at hused
      exact (h.first c).used d hd hused

/-! ### Chains -/

/-- A free cluster is on no chain. -/
theorem FatChain.not_mem (hp : Placed fs) (h : FatChain fs v start ds)
    (hc : fatWord fs v c = sfatEntryFree) : c ∉ ds :=
  fun hmem => (h.row hp).used c hmem hc

/-- **A chain gets a cluster of the data area** at its end. -/
theorem FatChain.linked (hp : Placed fs) (h : FatChain fs v start ds) {cur : ℕ}
    (hlast : ds.getLast? = some cur) (hc : FirstFree fs v c) (hlt : c < fs.clusters) :
    FatChain fs (clusterLinked fs v cur c) start (ds ++ [c]) := by
  have hmax := hp.clusters_lt
  rw [sfatEntryMax] at hmax
  have hnot := h.not_mem hp hc.2.1
  have hcur : cur ≠ c := fun heq => hnot (heq ▸ List.mem_of_getLast? hlast)
  have hlink : fatWord fs (clusterLinked fs v cur c) cur = c := by
    rw [clusterLinked, fatWord_setFatWord_of_lt (by omega)]
  have hend : fatWord fs (clusterLinked fs v cur c) c = sfatEntryEoc := by
    rw [clusterLinked, fatWord_setFatWord_ne hcur.symm, fatWord_setFatWord_of_lt (by decide)]
  refine ⟨WordChain.append h.1 hlast hlink (by rw [sfatEntryEoc]; omega) (fun d hd hne => ?_) hend,
    fun d hd => ?_⟩
  · have hdc : d ≠ c := fun heq => hnot (heq ▸ hd)
    rw [clusterLinked, fatWord_setFatWord_ne hne, fatWord_setFatWord_ne hdc]
  · rcases List.mem_append.mp hd with hd | hd
    · exact h.2 d hd
    · rw [List.mem_singleton.mp hd]
      exact hlt

/-! ### The loops -/

/-- A loop that gets no cluster, or may not link it, leaves the chain alone. -/
theorem NewRun.halted (hrun : NewRun noFailure fs st v st' v')
    (h : st.len = 0 ∨ fs.clustersPred ≤ st.curCls ∨ NoneFree fs v) :
    st' = st ∧ (v' = v ∨ st.len ≠ 0 ∧ ∃ c, FirstFree fs v c ∧
      v' = setFatWord fs v c sfatEntryEoc) := by
  have hgoes : ∀ {c : ℕ}, st.len ≠ 0 → FirstFree fs v c → ¬ st.curCls < fs.clustersPred := by
    intro c hlen hc hcur
    rcases h with h0 | hrefused | hnone
    · exact hlen h0
    · omega
    · exact hnone c hc.1 hc.2.1
  cases hrun with
  | done _ => exact ⟨rfl, .inl rfl⟩
  | noCluster _ _ => exact ⟨rfl, .inl rfl⟩
  | unlinked hlen hc _ => exact ⟨rfl, .inr ⟨hlen, _, hc, rfl⟩⟩
  | short hlen hc hcur _ _ => exact absurd hcur (hgoes hlen hc)
  | more hlen hc hcur _ => exact absurd hcur (hgoes hlen hc)

/-- A round more for the bytes of one cluster. -/
theorem clustersFor_round (hpos : 0 < fs.clusterSize) {len n : ℕ} (hlen : len ≠ 0)
    (hn : n ≤ len - min len fs.clusterSize) :
    clustersFor fs (min len fs.clusterSize + n) = clustersFor fs n + 1 := by
  rw [clustersFor_step hpos (by omega)]
  congr 2
  omega

/-- **The loop for new clusters makes the chain longer** by as many clusters as the bytes need, and
loses one at most, if bytes are left. -/
theorem NewRun.grown (hp : Placed fs) (hrun : NewRun noFailure fs st v st' v')
    (hkeep : KeepsOthers fs v₀ cs v ds) (htaken : Taken fs v₀ cs v ds [])
    (hchain : FatChain fs v start ds) (hlast : ds.getLast? = some st.curCls)
    (htakes : TakesInside fs (clustersFor fs st.len) v st.curCls) :
    ∃ es n, KeepsOthers fs v₀ cs v' (ds ++ es) ∧ FatChain fs v' start (ds ++ es) ∧
      n ≤ st.len ∧ st'.ppos = st.ppos + n ∧ es.length = clustersFor fs n ∧
      ∃ lost, lost.length ≤ min 1 st'.len ∧ Taken fs v₀ cs v' (ds ++ es) lost := by
  have hcs := hp.clusterSize_pos
  have hstay : ∀ {st : SyncWriteState} {v : Vol} {ds lost : List ℕ}, KeepsOthers fs v₀ cs v ds →
      FatChain fs v start ds → Taken fs v₀ cs v ds lost → lost.length ≤ min 1 st.len → ∃ es n,
        KeepsOthers fs v₀ cs v (ds ++ es) ∧ FatChain fs v start (ds ++ es) ∧ n ≤ st.len ∧
        st.ppos = st.ppos + n ∧ es.length = clustersFor fs n ∧
        ∃ lost, lost.length ≤ min 1 st.len ∧ Taken fs v₀ cs v (ds ++ es) lost := by
    intro st v ds lost hkeep hchain htaken hle
    refine ⟨[], 0, ?_, ?_, Nat.zero_le _, rfl, (clustersFor_zero hcs).symm, lost, hle, ?_⟩
    · rwa [List.append_nil]
    · rwa [List.append_nil]
    · rwa [List.append_nil]
  induction hrun generalizing ds with
  | done _ => exact hstay hkeep hchain htaken (Nat.zero_le _)
  | noCluster _ _ => exact hstay hkeep hchain htaken (Nat.zero_le _)
  | @unlinked st v c hlen hc _ =>
    have hchain' : FatChain fs (setFatWord fs v c sfatEntryEoc) start ds := by
      refine hchain.congr fun d hd => fatWord_setFatWord_ne fun heq => ?_
      exact hchain.not_mem hp hc.2.1 (heq ▸ hd)
    apply hstay (hkeep.acquired hp hc) hchain' (htaken.acquired c)
    exact Nat.le_min.mpr ⟨Nat.le_refl 1, Nat.pos_of_ne_zero hlen⟩
  | short _ _ _ _ hfail => exact absurd hfail not_canFail
  | @more st st' v v' c hlen hc hcur _ ih =>
    rw [clustersFor_step hcs hlen] at htakes
    obtain ⟨hlt, hrest⟩ := htakes c hc hcur
    have hcurmem : st.curCls ∈ ds := List.mem_of_getLast? hlast
    have hcurlt : st.curCls < fatWords fs := lt_fatWords hp (hchain.2 _ hcurmem)
    have hroom : 0 + chunkLen fs (st.at c) 0 ≤ fs.clusterSize := by
      rw [chunkLen]
      omega
    -- the cluster is taken, linked to the last one and written
    have hlinked : KeepsOthers fs v₀ cs (clusterLinked fs v st.curCls c) ds :=
      (hkeep.acquired hp hc).word hp hcurlt (fun _ _ hd hnot => hkeep.ne hd hnot hcurmem) c
    have hmem : (st.at c).curCls ∈ ds ++ [c] := List.mem_append_right ds (List.mem_singleton_self c)
    have hwritten := (hlinked.concat (hkeep.mayTake hc)).chunk hp hmem hc.1 hroom
    have hfat : SameFat fs (clusterLinked fs v st.curCls c)
        (chunkWritten fs (st.at c) 0 (chunkLen fs (st.at c) 0) (clusterLinked fs v st.curCls c)) :=
      sameFat_chunkWritten hp hc.1
    have hchain' := (hchain.linked hp hlast hc hlt).sameFat hp hfat
    obtain ⟨es, n, hk, hch, hn, hppos, hes, hlost⟩ :=
      ih hwritten ((htaken.linked hcurmem c).sameFat hfat) hchain' List.getLast?_concat
        (hrest.of_sameFat hfat)
    have hn : n ≤ st.len - min st.len fs.clusterSize := hn
    have hppos : st'.ppos = st.ppos + min st.len fs.clusterSize + n := hppos
    refine ⟨c :: es, min st.len fs.clusterSize + n, ?_, ?_, by omega, by omega, ?_, ?_⟩
    · rwa [List.append_cons]
    · rwa [List.append_cons]
    · rw [clustersFor_round hcs hlen hn, List.length_cons, hes]
    · rwa [List.append_cons]

/-- **The walk over the clusters that the file has** keeps the chain, and the position stays in it. -/
theorem ExistingRun.grown (hp : Placed fs) {r : Loop SyncWriteState SyncWriteState}
    (hrun : ExistingRun noFailure storedWord fs st v r v') (hkeep : KeepsOthers fs v₀ cs v cs)
    (hchain : FatChain fs v start cs) {k : ℕ} (hk : cs[k]? = some st.curCls)
    (hle : st.ppos ≤ (k + 1) * fs.clusterSize)
    (hpos : st.len ≠ 0 → st.ppos = (k + 1) * fs.clusterSize) :
    KeepsOthers fs v₀ cs v' cs ∧ FatChain fs v' start cs ∧
      r.state.ppos ≤ cs.length * fs.clusterSize ∧
      ∀ st₁, r = .next st₁ → st₁.len = 0 ∨ fs.clustersPred ≤ st₁.curCls := by
  have hcs := hp.clusterSize_pos
  have hin : ∀ {k c : ℕ}, cs[k]? = some c → (k + 1) * fs.clusterSize ≤ cs.length * fs.clusterSize :=
    fun hk => Nat.mul_le_mul_right _ (List.getElem?_eq_some_iff.mp hk).1
  induction hrun generalizing k with
  | done hlen =>
    refine ⟨hkeep, hchain, Nat.le_trans hle (hin hk), fun st₁ h => .inl ?_⟩
    rwa [← Loop.next.inj h]
  | refused _ _ => exact ⟨hkeep, hchain, Nat.le_trans hle (hin hk), fun st₁ h => by cases h⟩
  | @ended st v _ _ hmax =>
    have hclusters := hp.clusters_lt
    refine ⟨hkeep, hchain, Nat.le_trans hle (hin hk), fun st₁ h => .inr ?_⟩
    rw [← Loop.next.inj h]
    show fs.clustersPred ≤ nextWord storedWord fs v st.curCls
    rw [hp.clustersPred_eq hp.clusters_pos]
    omega
  | short _ _ _ _ _ hfail => exact absurd hfail not_canFail
  | @more st r v v' c hlen _ hc hmax _ ih =>
    rw [nextWord_storedWord hp.toWellFormed] at hc
    have hk' := (hchain.row hp).next hchain.rowEnds hk hc hmax
    have hmem : (st.at c).curCls ∈ cs := List.mem_of_getElem? hk'
    have hlt : (st.at c).curCls < fatWords fs := lt_fatWords hp (hchain.2 _ hmem)
    have hroom : 0 + chunkLen fs (st.at c) 0 ≤ fs.clusterSize := by
      rw [chunkLen]
      omega
    have hmin : chunkLen fs (st.at c) 0 = min st.len (fs.clusterSize - 0) := rfl
    have hstart := hpos hlen
    refine ih (hkeep.chunk hp hmem hlt hroom) (hchain.sameFat hp (sameFat_chunkWritten hp hlt)) hk'
      ?_ fun hmore => ?_
    · show st.ppos + chunkLen fs (st.at c) 0 ≤ (k + 1 + 1) * fs.clusterSize
      rw [Nat.add_mul (k + 1), Nat.one_mul]
      omega
    · have hmore : st.len - chunkLen fs (st.at c) 0 ≠ 0 := hmore
      show st.ppos + chunkLen fs (st.at c) 0 = (k + 1 + 1) * fs.clusterSize
      rw [Nat.add_mul (k + 1), Nat.one_mul]
      omega

/-! ### Whole writes -/

section Whole

variable {inode inode' : Inode} {buf : ℕ → UInt8} {len ppos n t : ℕ}

theorem clustersFor_covers (hpos : 0 < fs.clusterSize) (n : ℕ) :
    n ≤ clustersFor fs n * fs.clusterSize ∧ clustersFor fs n * fs.clusterSize < n + fs.clusterSize := by
  have hdiv := Nat.div_add_mod (n + (fs.clusterSize - 1)) fs.clusterSize
  have hmod := Nat.mod_lt (n + (fs.clusterSize - 1)) hpos
  rw [clustersFor, Nat.mul_comm]
  omega

/-- A chain that covers the size, and no more. -/
theorem FileChain.of_covered (hchain : 0 < inode.iSize → FatChain fs v inode.iStart cs)
    (hle : inode.iSize ≤ cs.length * fs.clusterSize)
    (hlt : cs.length * fs.clusterSize < inode.iSize + fs.clusterSize) : FileChain fs v inode cs where
  chain := hchain
  length_eq := by
    symm
    apply Nat.div_eq_of_lt_le
    · omega
    · rw [Nat.add_mul, Nat.one_mul]
      omega

/-- The end of the file is the end of its clusters, or the append gets none. -/
theorem FileChain.end_cases (hp : Placed fs) (hfile : FileChain fs v inode cs)
    (hgood : ¬ AppendsInCluster fs v inode cs len ppos) (hallow : WriteAllowed inode len ppos)
    (hout : ¬ WritesInside fs inode ppos) (hsize : 0 < inode.iSize)
    (hseek : SeekFinds storedWord fs v inode.iStart (ppos - 1) c) :
    ppos = inode.iSize ∧ cs.getLast? = some c ∧ (inode.iSize = cs.length * fs.clusterSize ∨
      fs.clustersPred ≤ c ∨ NoneFree fs v) := by
  have hle := hallow.1
  rw [WritesInside, and_blockSize hp.toWellFormed] at hout
  have hend : ppos = inode.iSize := by omega
  rw [hend] at hseek
  obtain ⟨hlast, hacc⟩ := hfile.atEnd hp hsize hseek
  refine ⟨hend, hlast, ?_⟩
  by_cases hwhole : inode.iSize % fs.clusterSize = 0
  · exact .inl (hfile.whole hp hwhole)
  · refine .inr ?_
    by_contra hstuck
    simp only [not_or] at hstuck
    refine hgood ⟨hallow.2, hend, by omega, hwhole, fun b hb => ?_, hstuck.2⟩
    by_cases hbc : b = c
    · rw [hbc]
      exact lt_clusters_of_accepted hp hstuck.1
    · exact lt_clusters_of_accepted hp (hacc b hb hbc)

/-- A file whose size did not change. -/
theorem FileChain.same (hp : Placed fs) (hfile : FileChain fs v inode cs) (hle : ppos ≤ inode.iSize)
    (hv : v' = v ∨ n ≠ 0 ∧ ∃ c, FirstFree fs v c ∧ v' = setFatWord fs v c sfatEntryEoc) :
    KeepsOthers fs v cs v' cs ∧ FileChain fs v' (inode.written fs ppos t) cs ∧
      ∃ lost, lost.length ≤ min 1 n ∧ Taken fs v cs v' cs lost := by
  have hsize : (inode.written fs ppos t).iSize = inode.iSize := Nat.max_eq_left hle
  have hfile' : FileChain fs v (inode.written fs ppos t) cs := by
    refine ⟨fun hpos => ?_, ?_⟩
    · rw [hsize] at hpos
      exact hfile.chain hpos
    · rw [hsize]
      exact hfile.length_eq
  have htaken := Taken.refl fs v cs
  rcases hv with rfl | ⟨hn, c, hc, rfl⟩
  · exact ⟨KeepsOthers.refl fs v' cs, hfile', [], Nat.zero_le _, htaken⟩
  · refine ⟨(KeepsOthers.refl fs v cs).acquired hp hc, ⟨fun hpos => ?_, hfile'.length_eq⟩, [c],
      Nat.le_min.mpr ⟨Nat.le_refl 1, Nat.pos_of_ne_zero hn⟩, htaken.acquired c⟩
    refine (hfile'.chain hpos).congr fun d hd => fatWord_setFatWord_ne fun heq => ?_
    exact (hfile'.chain hpos).not_mem hp hc.2.1 (heq ▸ hd)

/-- **The walk over the clusters of the file**, from the position of the write on. -/
theorem ExistingRun.fileGrown (hp : Placed fs) (hfile : FileChain fs v inode cs)
    (hallow : WriteAllowed inode len ppos) (hin : WritesInside fs inode ppos)
    (hseek : SeekFinds storedWord fs v inode.iStart ppos c)
    (hn : n = chunkLen fs ((syncWriteStart inode buf len ppos).at c) (ppos % fs.clusterSize))
    {r : Loop SyncWriteState SyncWriteState}
    (hrun : ExistingRun noFailure storedWord fs (((syncWriteStart inode buf len ppos).at c).advance n)
      (chunkWritten fs ((syncWriteStart inode buf len ppos).at c) (ppos % fs.clusterSize) n v) r v') :
    (KeepsOthers fs v cs v' cs ∧ Taken fs v cs v' cs []) ∧ FatChain fs v' inode.iStart cs ∧
      r.state.ppos ≤ cs.length * fs.clusterSize ∧
      ∀ st₁, r = .next st₁ → st₁.len = 0 ∨ fs.clustersPred ≤ st₁.curCls := by
  obtain ⟨hsize, hlt⟩ := hfile.inside hp hallow hin
  have hk := ((hfile.seek_iff hp hsize hlt).mp hseek).1
  have hchain := hfile.chain hsize
  have hmem : ((syncWriteStart inode buf len ppos).at c).curCls ∈ cs := List.mem_of_getElem? hk
  have hcur : ((syncWriteStart inode buf len ppos).at c).curCls < fatWords fs :=
    lt_fatWords hp (hchain.2 _ hmem)
  have hmod := Nat.mod_lt ppos hp.clusterSize_pos
  have hsplit := Nat.div_add_mod' ppos fs.clusterSize
  have hmin : chunkLen fs ((syncWriteStart inode buf len ppos).at c) (ppos % fs.clusterSize) =
    min len (fs.clusterSize - ppos % fs.clusterSize) := rfl
  have hfat : SameFat fs v (chunkWritten fs ((syncWriteStart inode buf len ppos).at c)
      (ppos % fs.clusterSize) n v) := sameFat_chunkWritten hp hcur
  have htaken := (Taken.refl fs v cs).sameFat (hfat.trans (hrun.sameFat hp))
  have hgrown := hrun.grown hp ((KeepsOthers.refl fs v cs).chunk hp hmem hcur (by omega))
    (hchain.sameFat hp hfat) hk ?_ fun hmore => ?_
  · exact ⟨⟨hgrown.1, htaken⟩, hgrown.2⟩
  · show ppos + n ≤ _
    rw [Nat.add_mul, Nat.one_mul]
    omega
  · have hmore : len - n ≠ 0 := hmore
    show ppos + n = _
    rw [Nat.add_mul, Nat.one_mul]
    omega

/-- **A write leaves its file with the clusters that its size needs**, and all others alone. -/
theorem DataRun.grown (hp : Placed fs) (hfile : FileChain fs v inode cs)
    (hgood : ¬ AppendsInCluster fs v inode cs len ppos) (hbound : WriteBounded fs v inode len ppos)
    (hrun : DataRun noFailure storedWord fs v inode buf len ppos (.ok st, inode') v') :
    ∃ ds, KeepsOthers fs v cs v' ds ∧ FileChain fs v' (inode'.written fs st.ppos t) ds ∧
      (inode'.iStart = inode.iStart ∨ 0 < st.ppos) ∧
      ∃ lost, lost.length ≤ min 1 st.len ∧ Taken fs v cs v' ds lost := by
  have hcs := hp.clusterSize_pos
  have hcov := hfile.covered hp
  -- the file has its clusters, and the position is inside them
  have hinside : ∀ {w : Vol} {p : ℕ}, FatChain fs w inode.iStart cs →
      p ≤ cs.length * fs.clusterSize → FileChain fs w (inode.written fs p t) cs := by
    intro w p hchain hle
    refine FileChain.of_covered (fun _ => hchain) ?_ ?_
    · show max inode.iSize p ≤ _
      omega
    · show _ < max inode.iSize p + _
      omega
  have hout : ¬ WritesInside fs inode ppos → WriteAllowed inode len ppos → ppos = inode.iSize := by
    intro hin hallow
    have hle := hallow.1
    rw [WritesInside] at hin
    omega
  cases hrun with
  | insideShort _ _ _ _ hfail => exact absurd hfail not_canFail
  | insideOut hallow hin hseek hn hexist =>
    obtain ⟨⟨hkeep, htaken⟩, hchain, hle, -⟩ := hexist.fileGrown hp hfile hallow hin hseek hn
    exact ⟨cs, hkeep, hinside hchain hle, .inl rfl, [], Nat.zero_le _, htaken⟩
  | inside hallow hin hseek hn hexist hnew =>
    obtain ⟨⟨hkeep, htaken⟩, hchain, hle, hstop⟩ := hexist.fileGrown hp hfile hallow hin hseek hn
    have hle : _ ≤ cs.length * fs.clusterSize := hle
    obtain ⟨rfl, rfl | ⟨hlen, c, hc, rfl⟩⟩ := hnew.halted ((hstop _ rfl).imp_right .inl)
    · exact ⟨cs, hkeep, hinside hchain hle, .inl rfl, [], Nat.zero_le _, htaken⟩
    · have hkeep' := hkeep.acquired hp hc
      refine ⟨cs, hkeep', hinside (hchain.congr fun d hd => ?_) hle, .inl rfl, [c],
        Nat.le_min.mpr ⟨Nat.le_refl 1, Nat.pos_of_ne_zero hlen⟩, htaken.acquired c⟩
      exact fatWord_setFatWord_ne fun heq => hchain.not_mem hp hc.2.1 (heq ▸ hd)
  | endNotFound hallow _ _ _ =>
    obtain ⟨hkeep, hsame, hlost⟩ := hfile.same (t := t) hp hallow.1 (.inl rfl)
    exact ⟨cs, hkeep, hsame, .inl rfl, hlost⟩
  | @atEnd c _ _ hallow hin hsize hseek hnew =>
    obtain ⟨hend, hlast, hwhole⟩ := hfile.end_cases hp hgood hallow hin hsize hseek
    rcases hwhole with hwhole | hstuck
    · obtain ⟨es, n, hkeep, hchain, -, hppos, hes, hlost⟩ := hnew.grown hp (KeepsOthers.refl fs v cs)
        (Taken.refl fs v cs) (hfile.chain hsize) hlast (hbound.atEnd hin hsize c hseek)
      have hppos : st.ppos = ppos + n := hppos
      have hneed := clustersFor_covers hcs n
      refine ⟨cs ++ es, hkeep, FileChain.of_covered (fun _ => hchain) ?_ ?_, .inl rfl, hlost⟩
      · show max inode.iSize st.ppos ≤ _
        rw [List.length_append, Nat.add_mul, hes]
        omega
      · show _ < max inode.iSize st.ppos + _
        rw [List.length_append, Nat.add_mul, hes]
        omega
    · obtain ⟨rfl, hv⟩ := hnew.halted (.inr hstuck)
      obtain ⟨hkeep, hsame, hlost⟩ := hfile.same (t := t) hp hallow.1 hv
      exact ⟨cs, hkeep, hsame, .inl rfl, hlost⟩
  | noCluster hallow _ _ _ =>
    obtain ⟨hkeep, hsame, hlost⟩ := hfile.same (t := t) hp hallow.1 (.inl rfl)
    exact ⟨cs, hkeep, hsame, .inl rfl, hlost⟩
  | firstShort _ _ _ _ _ hfail => exact absurd hfail not_canFail
  | @first c n _ _ hallow hin hsize hc hn hnew =>
    obtain rfl := hfile.nil_of_empty hp hsize
    obtain rfl : ppos = 0 := by rw [hout hin hallow, hsize]
    obtain ⟨hlt, htakes⟩ := hbound.empty hin hsize c hc
    have hmin : n = min len fs.clusterSize := hn
    have hfat : SameFat fs (setFatWord fs v c sfatEntryEoc) (chunkWritten fs
        ((syncWriteStart inode buf len 0).at c) 0 n (setFatWord fs v c sfatEntryEoc)) :=
      sameFat_chunkWritten hp hc.1
    have hone : FatChain fs (setFatWord fs v c sfatEntryEoc) c [c] := by
      refine ⟨.stop (fatWord_setFatWord_of_lt (by decide)), fun d hd => ?_⟩
      rw [List.mem_singleton.mp hd]
      exact hlt
    have hkeep : KeepsOthers fs v [] (setFatWord fs v c sfatEntryEoc) [c] :=
      ((KeepsOthers.refl fs v []).acquired hp hc).concat (.inr hc.2.1)
    have htaken : Taken fs v [] (setFatWord fs v c sfatEntryEoc) [c] [] :=
      (Taken.refl fs v []).first c
    have hmem : ((syncWriteStart inode buf len 0).at c).curCls ∈ [c] := List.mem_singleton_self c
    obtain ⟨es, k, hkeep', hchain, hk, hppos, hes, hlost⟩ := hnew.grown hp
      (hkeep.chunk hp hmem hc.1 (show 0 + n ≤ fs.clusterSize by omega)) (htaken.sameFat hfat)
      (hone.sameFat hp hfat) List.getLast?_singleton ((hmin ▸ htakes).of_sameFat hfat)
    have hk : k ≤ len - n := hk
    have hppos : st.ppos = 0 + n + k := hppos
    have hlen : len ≠ 0 := hallow.2
    have hneed := clustersFor_covers hcs (n + k)
    have hround : clustersFor fs (n + k) = clustersFor fs k + 1 := by
      rw [hmin]
      exact clustersFor_round hcs hlen (hmin ▸ hk)
    have hlength : ([c] ++ es).length = clustersFor fs (n + k) := by
      rw [List.length_append, List.length_singleton, hes, hround, Nat.add_comm]
    refine ⟨[c] ++ es, hkeep', FileChain.of_covered (fun _ => hchain) ?_ ?_, .inr (by omega), hlost⟩
    · show max inode.iSize st.ppos ≤ _
      rw [hlength]
      omega
    · show _ < max inode.iSize st.ppos + _
      rw [hlength]
      omega

end Whole

end SimpleFat

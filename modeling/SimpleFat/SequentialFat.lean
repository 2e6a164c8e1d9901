import SimpleFat.ClusterAccounts

/-!
# The FAT is filled from its start

The first free word is taken, and no word is ever given back.  So the words in use are the first ones,
each link goes to a later word, and the clusters of a chain ascend.  The room on the volume is then a
number, and it says how far a write gets.

* `Sequential` — the first words are in use, and links go up;
* `Sequential.acquired`, `.linked` — a word is taken, and linked to;
* `Sequential.ascending` — chains ascend, `CreateStep.sequential` — files are created;
* `NewRun.fills`, `ExistingRun.fills`, `DataRun.fills` — how far a write gets.
-/

namespace SimpleFat

open SimpleFat.Lib

variable {fs : FsInfo} {v v' : Vol} {start k c d x : ℕ} {cs ds : List ℕ} {st st' : SyncWriteState}

/-- **The first `k` words are in use**, and each of them is an end mark or a link to a later one. -/
structure Sequential (fs : FsInfo) (v : Vol) (k : ℕ) : Prop where
  le : k ≤ fatWords fs
  used : ∀ c < fatWords fs, fatWord fs v c ≠ sfatEntryFree ↔ c < k
  up : ∀ c < k, fatWord fs v c = sfatEntryEoc ∨ c < fatWord fs v c ∧ fatWord fs v c < k

/-! ### The words in use -/

section Words

theorem Sequential.sameFat (h : Sequential fs v k) (hfat : SameFat fs v v') :
    Sequential fs v' k where
  le := h.le
  used c hc := by
    rw [hfat c hc]
    exact h.used c hc
  up c hc := by
    rw [hfat c (Nat.lt_of_lt_of_le hc h.le)]
    exact h.up c hc

/-- The number of the words in use. -/
theorem Sequential.usedWords_eq (h : Sequential fs v k) : usedWords fs v = k := by
  obtain ⟨m, hm⟩ := Nat.exists_eq_add_of_le h.le
  rw [usedWords, hm, List.range_add, List.countP_append, List.countP_eq_length.mpr,
    List.countP_eq_zero.mpr, List.length_range, Nat.add_zero]
  · intro c hc
    obtain ⟨i, hi, rfl⟩ := List.mem_map.mp hc
    rw [List.mem_range] at hi
    simp [h.used (k + i) (by omega)]
  · intro c hc
    rw [List.mem_range] at hc
    simp [h.used c (by omega), hc]

/-- The first free word is the next one. -/
theorem Sequential.next (h : Sequential fs v k) (hc : FirstFree fs v c) : c = k := by
  have hle : k ≤ c := by
    by_contra hlt
    exact (h.used c hc.1).mpr (by omega) hc.2.1
  by_contra hne
  have hk := (h.used k (by have := hc.1; omega)).mp (hc.2.2 k (by omega))
  exact lt_irrefl k hk

/-- If no word is free, all are in use. -/
theorem Sequential.full (h : Sequential fs v k) (hnone : NoneFree fs v) : k = fatWords fs := by
  by_contra hne
  have hlt : k < fatWords fs := Nat.lt_of_le_of_ne h.le hne
  exact lt_irrefl k ((h.used k hlt).mp (hnone k hlt))

/-- **The next word is taken.** -/
theorem Sequential.acquired (h : Sequential fs v k) (hk : k < fatWords fs) :
    Sequential fs (setFatWord fs v k sfatEntryEoc) (k + 1) where
  le := hk
  used c hc := by
    by_cases hck : c = k
    · rw [hck, fatWord_setFatWord_of_lt (by decide)]
      exact iff_of_true (by decide) (Nat.lt_succ_self k)
    · rw [fatWord_setFatWord_ne hck, h.used c hc]
      omega
  up c hc := by
    by_cases hck : c = k
    · rw [hck, fatWord_setFatWord_of_lt (by decide)]
      exact .inl rfl
    · rw [fatWord_setFatWord_ne hck]
      refine (h.up c (by omega)).imp_right fun hlink => ?_
      omega

/-- **A word in use gets a link** to a later one. -/
theorem Sequential.setLink (h : Sequential fs v k) (hcx : c < x) (hx : x < k)
    (hmax : x < sfatEntryMax) : Sequential fs (setFatWord fs v c x) k := by
  rw [sfatEntryMax] at hmax
  have hword : fatWord fs (setFatWord fs v c x) c = x := fatWord_setFatWord_of_lt (by omega)
  refine ⟨h.le, fun d hd => ?_, fun d hd => ?_⟩
  · by_cases hdc : d = c
    · rw [hdc, hword, sfatEntryFree]
      omega
    · rw [fatWord_setFatWord_ne hdc]
      exact h.used d hd
  · by_cases hdc : d = c
    · rw [hdc, hword]
      exact .inr ⟨hcx, hx⟩
    · rw [fatWord_setFatWord_ne hdc]
      exact h.up d hd

/-- **The next word is taken and linked** to one in use. -/
theorem Sequential.linked (h : Sequential fs v k) (hk : k < fatWords fs) (hc : c < k)
    (hmax : k < sfatEntryMax) : Sequential fs (clusterLinked fs v c k) (k + 1) :=
  (h.acquired hk).setLink hc (Nat.lt_succ_self k) hmax

end Words

/-! ### Chains -/

section Chains

/-- The clusters of a chain are in use. -/
theorem Sequential.chain_lt (hp : Placed fs) (h : Sequential fs v k) (hchain : FatChain fs v start ds)
    (hc : c ∈ ds) : c < k :=
  (h.used c (lt_fatWords hp (hchain.2 c hc))).mp ((hchain.row hp).used c hc)

/-- **The clusters of a chain ascend.** -/
theorem Sequential.ascending (hp : Placed fs) (h : Sequential fs v k)
    (hchain : FatChain fs v start ds) : ds.Pairwise (· < ·) := by
  have hused : ∀ c ∈ ds, c < k := fun c hc => h.chain_lt hp hchain hc
  obtain ⟨hpath, -⟩ := hchain
  rw [← List.isChain_iff_pairwise]
  induction hpath with
  | stop _ => exact .singleton _
  | @next c d cs hend hlink hrest ih =>
    have hlink : fatWord fs v c = d := Option.some.inj hlink
    have htail := ih fun e he => hused e (List.mem_cons_of_mem c he)
    have hup := (h.up c (hused c List.mem_cons_self)).resolve_left hend
    rw [hlink] at hup
    cases hrest with
    | stop _ => exact .cons_cons hup.1 (.singleton d)
    | next _ _ _ => exact .cons_cons hup.1 htail

/-- Only the last cluster of a chain can be the last one of the volume. -/
theorem Sequential.last_of_refused (hp : Placed fs) (h : Sequential fs v k)
    (hchain : FatChain fs v start ds) {i : ℕ} (hi : ds[i]? = some c)
    (hc : fs.clustersPred ≤ c) : i + 1 = ds.length := by
  obtain ⟨hlt, hget⟩ := List.getElem?_eq_some_iff.mp hi
  by_contra hne
  have hnext : i + 1 < ds.length := by omega
  have hup := List.pairwise_iff_getElem.mp (h.ascending hp hchain) i (i + 1) hlt hnext (by omega)
  have hin := hchain.2 _ (List.getElem_mem hnext)
  rw [hp.clustersPred_eq hp.clusters_pos] at hc
  omega

end Chains

/-- **A call that creates a file** takes the next word, if any. -/
theorem CreateStep.sequential (hp : Placed fs) {dir dir' : Inode} {slots : List Slot}
    {n : List UInt8} {junk : CreateJunk} {t : ℕ} {p : Except CreateReturn (SfatDirEntry × ℕ)}
    (h : Sequential fs v k) (hdir : FilledDir fs v dir.iStart cs slots) (hnext : NextSet fs v dir junk)
    (hgrows : GrowsInside fs v dir) (hnul : NoNul n)
    (hstep : CreateStep storedWord fs v dir (padName n) junk t p dir' v') :
    ∃ k', Sequential fs v' k' := by
  rcases hstep.chain_cases hp hdir hnext hgrows hnul with
    ⟨hfat, -⟩ | ⟨c, l, hc, hlt, hlast, -, -, hfat⟩
  · exact ⟨k, h.sameFat hfat⟩
  · obtain rfl := h.next hc
    have hmem := List.mem_of_getLast? hlast
    have hl := (h.used l (lt_fatWords hp (hdir.chain.below l hmem))).mp (hdir.chain.used hp hmem)
    exact ⟨c + 1, (h.linked hc.1 hl (Nat.lt_trans hlt hp.clusters_lt)).sameFat hfat⟩

/-! ### How far a write gets -/

section Loops

/-- The bytes of the free clusters, with one more in use. -/
theorem freeBytes_succ (fs : FsInfo) (hk : k < fs.clusters) : (fs.clusters - k) * fs.clusterSize =
    fs.clusterSize + (fs.clusters - (k + 1)) * fs.clusterSize := by
  rw [show fs.clusters - k = 1 + (fs.clusters - (k + 1)) by omega, Nat.add_mul, Nat.one_mul]

/-- If all clusters are in use, there is no room. -/
theorem min_freeBytes (len : ℕ) (hk : fs.clusters ≤ k) :
    min len ((fs.clusters - k) * fs.clusterSize) = 0 := by
  simp [Nat.sub_eq_zero_of_le hk]

theorem clusters_le_fatWords (hp : Placed fs) : fs.clusters ≤ fatWords fs := by
  have hpos := hp.clusters_pos
  have hlt := @lt_fatWords fs hp (fs.clusters - 1) (by omega)
  omega

/-- **The loop that adds clusters** fills the free ones. -/
theorem NewRun.fills (hp : Placed fs) (hrun : NewRun noFailure fs st v st' v')
    (h : Sequential fs v k) (hcur : st.curCls < k)
    (htakes : TakesInside fs (clustersFor fs st.len) v st.curCls) :
    st'.ppos = st.ppos + min st.len ((fs.clusters - k) * fs.clusterSize) ∧
      ∃ k', Sequential fs v' k' := by
  have hcs := hp.clusterSize_pos
  have hpred := hp.clustersPred_eq hp.clusters_pos
  have hmax := hp.clusters_lt
  induction hrun generalizing k with
  | done hlen =>
    rw [hlen, Nat.zero_min, Nat.add_zero]
    exact ⟨rfl, k, h⟩
  | noCluster _ hnone =>
    have hall := h.full (hnone.resolve_right not_canFail)
    rw [min_freeBytes _ (hall ▸ clusters_le_fatWords hp), Nat.add_zero]
    exact ⟨rfl, k, h⟩
  | unlinked _ hc hrefused =>
    obtain rfl := h.next hc
    have hlast := hrefused.resolve_right not_canFail
    rw [min_freeBytes _ (by omega), Nat.add_zero]
    exact ⟨rfl, _, h.acquired hc.1⟩
  | short _ _ _ _ hfail => exact absurd hfail not_canFail
  | @more st st' v v' c hlen hc hlt _ ih =>
    obtain rfl := h.next hc
    rw [clustersFor_step hcs hlen] at htakes
    obtain ⟨hin, hrest⟩ := htakes c hc hlt
    have hfat : SameFat fs (clusterLinked fs v st.curCls c)
        (chunkWritten fs (st.at c) 0 (chunkLen fs (st.at c) 0) (clusterLinked fs v st.curCls c)) :=
      sameFat_chunkWritten hp hc.1
    have hseq := (h.linked hc.1 hcur (Nat.lt_trans hin hmax)).sameFat hfat
    obtain ⟨hppos, hk'⟩ := ih hseq (Nat.lt_succ_self c) (hrest.of_sameFat hfat)
    have hppos : st'.ppos = st.ppos + min st.len fs.clusterSize +
      min (st.len - min st.len fs.clusterSize) ((fs.clusters - (c + 1)) * fs.clusterSize) := hppos
    have hroom := freeBytes_succ fs hin
    exact ⟨by omega, hk'⟩

/-- **The walk over the clusters that the file has** fills them. -/
theorem ExistingRun.fills (hp : Placed fs) {r : Loop SyncWriteState SyncWriteState}
    (hrun : ExistingRun noFailure storedWord fs st v r v') (h : Sequential fs v k)
    (hchain : FatChain fs v start cs) {i : ℕ} (hi : cs[i]? = some st.curCls)
    (hle : st.ppos ≤ (i + 1) * fs.clusterSize)
    (hpos : st.len ≠ 0 → st.ppos = (i + 1) * fs.clusterSize) :
    r.state.ppos = min (st.ppos + st.len) (cs.length * fs.clusterSize) := by
  have hcs := hp.clusterSize_pos
  have hin : ∀ {i c : ℕ}, cs[i]? = some c → (i + 1) * fs.clusterSize ≤ cs.length * fs.clusterSize :=
    fun hi => Nat.mul_le_mul_right _ (List.getElem?_eq_some_iff.mp hi).1
  -- the walk stops at the end of the chain
  have hstop : ∀ {st : SyncWriteState} {i : ℕ}, st.ppos = (i + 1) * fs.clusterSize →
      i + 1 = cs.length → st.ppos = min (st.ppos + st.len) (cs.length * fs.clusterSize) := by
    intro st i hat hlast
    rw [← hlast, ← hat]
    omega
  induction hrun generalizing i k with
  | @done st v hlen =>
    have hend := hin hi
    show st.ppos = _
    omega
  | refused hlen hrefused =>
    exact hstop (hpos hlen)
      (h.last_of_refused hp hchain hi (hrefused.resolve_right not_canFail))
  | @ended st v hlen _ hmax =>
    refine @hstop st i (hpos hlen) ?_
    by_contra hne
    obtain ⟨hlt, -⟩ := List.getElem?_eq_some_iff.mp hi
    have hnext : i + 1 < cs.length := by omega
    have hlink := (hchain.row hp).links i _ _ hi (List.getElem?_eq_getElem hnext)
    have hinside := hchain.2 _ (List.getElem_mem hnext)
    have hclusters := hp.clusters_lt
    rw [nextWord_storedWord hp.toWellFormed] at hmax
    omega
  | short _ _ _ _ _ hfail => exact absurd hfail not_canFail
  | @more st r v v' c hlen _ hc hmax _ ih =>
    rw [nextWord_storedWord hp.toWellFormed] at hc
    have hi' := (hchain.row hp).next hchain.rowEnds hi hc hmax
    have hlt : (st.at c).curCls < fatWords fs := lt_fatWords hp (hchain.2 _ (List.mem_of_getElem? hi'))
    have hfat : SameFat fs v (chunkWritten fs (st.at c) 0 (chunkLen fs (st.at c) 0) v) :=
      sameFat_chunkWritten hp hlt
    have hmin : chunkLen fs (st.at c) 0 = min st.len (fs.clusterSize - 0) := rfl
    have hat := hpos hlen
    have hround : (i + 1 + 1) * fs.clusterSize = (i + 1) * fs.clusterSize + fs.clusterSize := by
      rw [Nat.add_mul (i + 1), Nat.one_mul]
    have hppos := ih (h.sameFat hfat) (hchain.sameFat hp hfat) hi' ?_ fun hmore => ?_
    · have hppos : r.state.ppos = min (st.ppos + chunkLen fs (st.at c) 0 +
        (st.len - chunkLen fs (st.at c) 0)) (cs.length * fs.clusterSize) := hppos
      omega
    · show st.ppos + chunkLen fs (st.at c) 0 ≤ _
      omega
    · have hmore : st.len - chunkLen fs (st.at c) 0 ≠ 0 := hmore
      show st.ppos + chunkLen fs (st.at c) 0 = _
      omega

end Loops

/-! ### Whole writes -/

/-- A position inside the file, or in the room of its last block. -/
def insideFile (fs : FsInfo) (size ppos : ℕ) : Bool :=
  size &&& (fs.blockSize - 1) != 0 || decide (ppos < size)

/-- **The room for a write**: inside a file that of its own clusters, at its end that of the free
ones. -/
def writeRoom (fs : FsInfo) (used size ppos : ℕ) : ℕ :=
  if insideFile fs size ppos then clustersFor fs size * fs.clusterSize - ppos
  else (fs.clusters - used) * fs.clusterSize

section Whole

variable {inode inode' : Inode} {buf : ℕ → UInt8} {len ppos n : ℕ}

theorem insideFile_iff (fs : FsInfo) (inode : Inode) (ppos : ℕ) :
    insideFile fs inode.iSize ppos = true ↔ WritesInside fs inode ppos := by
  simp [insideFile, WritesInside]

theorem writeRoom_inside (hin : WritesInside fs inode ppos) :
    writeRoom fs k inode.iSize ppos = clustersFor fs inode.iSize * fs.clusterSize - ppos := by
  rw [writeRoom, if_pos ((insideFile_iff fs inode ppos).mpr hin)]

theorem writeRoom_atEnd (hin : ¬ WritesInside fs inode ppos) :
    writeRoom fs k inode.iSize ppos = (fs.clusters - k) * fs.clusterSize := by
  rw [writeRoom, if_neg fun h => hin ((insideFile_iff fs inode ppos).mp h)]

/-- **The position is found** in every file but one whose first cluster is the last one of the
volume. -/
theorem Sequential.seekFinds_iff (hp : Placed fs) (h : Sequential fs v k)
    (hfile : FileChain fs v inode cs) (hsize : 0 < inode.iSize) {pos : ℕ}
    (hlt : pos / fs.clusterSize < cs.length) :
    (∃ c, SeekFinds storedWord fs v inode.iStart pos c) ↔ inode.iStart + 1 < fs.clusters := by
  have hpred := hp.clustersPred_eq hp.clusters_pos
  have hstart : inode.iStart < fs.clustersPred ↔ inode.iStart + 1 < fs.clusters := by omega
  rw [← hstart]
  constructor
  · intro hfound
    obtain ⟨c, hc⟩ := hfound
    exact ((hfile.seek_iff hp hsize hlt).mp hc).2.1
  · intro hacc
    refine ⟨_, (hfile.seek_iff hp hsize hlt).mpr ⟨List.getElem?_eq_getElem hlt, hacc, ?_⟩⟩
    intro j hj b hb
    by_contra hge
    have hlast := h.last_of_refused hp (hfile.chain hsize) hb (Nat.le_of_not_lt hge)
    omega

/-- **The walk over the clusters of the file**, from the position of the write on. -/
theorem ExistingRun.fileFills (hp : Placed fs) (h : Sequential fs v k)
    (hfile : FileChain fs v inode cs) (hallow : WriteAllowed inode len ppos)
    (hin : WritesInside fs inode ppos) (hseek : SeekFinds storedWord fs v inode.iStart ppos c)
    (hn : n = chunkLen fs ((syncWriteStart inode buf len ppos).at c) (ppos % fs.clusterSize))
    {r : Loop SyncWriteState SyncWriteState}
    (hrun : ExistingRun noFailure storedWord fs (((syncWriteStart inode buf len ppos).at c).advance n)
      (chunkWritten fs ((syncWriteStart inode buf len ppos).at c) (ppos % fs.clusterSize) n v) r v') :
    r.state.ppos = ppos + min len (writeRoom fs k inode.iSize ppos) ∧ SameFat fs v v' := by
  obtain ⟨hsize, hlt⟩ := hfile.inside hp hallow hin
  have hi := ((hfile.seek_iff hp hsize hlt).mp hseek).1
  have hchain := hfile.chain hsize
  have hcur : ((syncWriteStart inode buf len ppos).at c).curCls < fatWords fs :=
    lt_fatWords hp (hchain.2 _ (List.mem_of_getElem? hi))
  have hmod := Nat.mod_lt ppos hp.clusterSize_pos
  have hsplit := Nat.div_add_mod' ppos fs.clusterSize
  have hround : (ppos / fs.clusterSize + 1) * fs.clusterSize =
      ppos / fs.clusterSize * fs.clusterSize + fs.clusterSize := by rw [Nat.add_mul, Nat.one_mul]
  have hroom : (ppos / fs.clusterSize + 1) * fs.clusterSize ≤ cs.length * fs.clusterSize :=
    Nat.mul_le_mul_right _ hlt
  have hmin : chunkLen fs ((syncWriteStart inode buf len ppos).at c) (ppos % fs.clusterSize) =
    min len (fs.clusterSize - ppos % fs.clusterSize) := rfl
  have hfat : SameFat fs v (chunkWritten fs ((syncWriteStart inode buf len ppos).at c)
      (ppos % fs.clusterSize) n v) := sameFat_chunkWritten hp hcur
  have hfills := hrun.fills hp (h.sameFat hfat) (hchain.sameFat hp hfat) hi ?_ fun hmore => ?_
  · have hfills : r.state.ppos = min (ppos + n + (len - n)) (cs.length * fs.clusterSize) := hfills
    rw [writeRoom_inside hin, clustersFor, ← hfile.length_eq]
    exact ⟨by omega, hfat.trans (hrun.sameFat hp)⟩
  · show ppos + n ≤ _
    omega
  · have hmore : len - n ≠ 0 := hmore
    show ppos + n = _
    omega

/-- **How far a write gets**, and that the FAT is filled from its start after it. -/
theorem DataRun.fills (hp : Placed fs) (h : Sequential fs v k) (hfile : FileChain fs v inode cs)
    (hgood : ¬ AppendsInCluster fs v inode cs len ppos) (hbound : WriteBounded fs v inode len ppos)
    (hrun : DataRun noFailure storedWord fs v inode buf len ppos (.ok st, inode') v') :
    st.ppos = ppos + min len (writeRoom fs k inode.iSize ppos) ∧ ∃ k', Sequential fs v' k' := by
  have hcs := hp.clusterSize_pos
  have hpred := hp.clustersPred_eq hp.clusters_pos
  -- nothing is written, as there is no room
  have hnone : ¬ WritesInside fs inode ppos → fs.clusters ≤ k →
      ppos = ppos + min len (writeRoom fs k inode.iSize ppos) := by
    intro hin hfull
    rw [writeRoom_atEnd hin, min_freeBytes len hfull, Nat.add_zero]
  cases hrun with
  | insideShort _ _ _ _ hfail => exact absurd hfail not_canFail
  | insideOut hallow hin hseek hn hexist =>
    obtain ⟨hppos, hfat⟩ := hexist.fileFills hp h hfile hallow hin hseek hn
    exact ⟨hppos, k, h.sameFat hfat⟩
  | inside hallow hin hseek hn hexist hnew =>
    obtain ⟨hppos, hfat⟩ := hexist.fileFills hp h hfile hallow hin hseek hn
    have hstop := (hexist.fileGrown hp hfile hallow hin hseek hn).2.2.2 _ rfl
    have hseq := h.sameFat hfat
    obtain ⟨rfl, rfl | ⟨-, c, hc, rfl⟩⟩ := hnew.halted (hstop.imp_right .inl)
    · exact ⟨hppos, k, hseq⟩
    · obtain rfl := hseq.next hc
      exact ⟨hppos, _, hseq.acquired hc.1⟩
  | endNotFound hallow hin hsize hmiss =>
    obtain ⟨hindex, hlength⟩ := hfile.last_index hp hsize
    have hle := hallow.1
    have hend : ppos = inode.iSize := by
      rw [WritesInside] at hin
      omega
    have hmiss := hmiss.resolve_right not_canFail
    rw [hend] at hmiss
    have hlt : (inode.iSize - 1) / fs.clusterSize < cs.length := by omega
    have hstart := (h.seekFinds_iff hp hfile hsize hlt).not.mp fun hfound => hfound.elim hmiss
    have hused := h.chain_lt hp (hfile.chain hsize)
      (List.mem_of_getElem? (hfile.chain hsize).1.getElem?_zero)
    exact ⟨hnone hin (by omega), k, h⟩
  | @atEnd c _ _ hallow hin hsize hseek hnew =>
    obtain ⟨-, hlast, -⟩ := hfile.end_cases hp hgood hallow hin hsize hseek
    have hused := h.chain_lt hp (hfile.chain hsize) (List.mem_of_getLast? hlast)
    have hfills := hnew.fills hp h hused (hbound.atEnd hin hsize c hseek)
    rw [writeRoom_atEnd hin]
    exact hfills
  | noCluster hallow hin hsize hmiss =>
    have hall := h.full (hmiss.resolve_right not_canFail)
    exact ⟨hnone hin (hall ▸ clusters_le_fatWords hp), k, h⟩
  | firstShort _ _ _ _ _ hfail => exact absurd hfail not_canFail
  | @first c n _ _ hallow hin hsize hc hn hnew =>
    obtain rfl := h.next hc
    obtain ⟨hlt, htakes⟩ := hbound.empty hin hsize c hc
    have hmin : n = min len fs.clusterSize := hn
    have hfat : SameFat fs (setFatWord fs v c sfatEntryEoc) (chunkWritten fs
        ((syncWriteStart inode buf len ppos).at c) 0 n (setFatWord fs v c sfatEntryEoc)) :=
      sameFat_chunkWritten hp hc.1
    obtain ⟨hppos, hk'⟩ := hnew.fills hp ((h.acquired hc.1).sameFat hfat) (Nat.lt_succ_self c)
      ((hmin ▸ htakes).of_sameFat hfat)
    have hppos : st.ppos = ppos + n + min (len - n) ((fs.clusters - (c + 1)) * fs.clusterSize) := hppos
    have hroom := freeBytes_succ fs hlt
    rw [writeRoom_atEnd hin]
    exact ⟨by omega, hk'⟩

end Whole

end SimpleFat

import SimpleFat.WriteAmount

/-!
# The content after a write

A write appends its bytes to the clusters of the file in their order.  `Written` says so: from the
position `base` of the clusters on they hold the bytes that were written so far, and before it the
old content.  Every run keeps it, whatever fails.

The position in the clusters is the position in the file, but for a file whose size is whole blocks
and not whole clusters: an append to it goes to a new cluster, although the last one has room.  And
the flush behind the write goes wherever `i_pos` points to, which may be into the content.

* `DataRun.written` — the clusters after any run;
* `write_content_iff` — the content is right exactly if no append is such a one and no flush hits it.
-/

namespace SimpleFat

open SimpleFat.Lib

variable {mayFail : Request → Prop} {fs : FsInfo}

/-! ### The clusters while they are written -/

/-- What is fixed during a write: the old content and its size, the bytes to write, the position in
the file and in its clusters, and the clusters that the file has or may get, in their order. -/
structure WriteJob where
  old : ℕ → UInt8
  size : ℕ
  buf : ℕ → UInt8
  len : ℕ
  ppos : ℕ
  base : ℕ
  pool : List ℕ

/-- **The clusters hold what was written so far.** -/
structure Written (fs : FsInfo) (J : WriteJob) (cs : List ℕ) (st : SyncWriteState) (v : Vol) :
    Prop where
  row : ClusterRow fs v cs
  pool : cs <+: J.pool
  mark_used : sfatEntryFree < fatWords fs → fatWord fs v sfatEntryFree ≠ sfatEntryFree
  ppos_eq : st.ppos = J.ppos + st.accuLen
  len_eq : st.accuLen + st.len = J.len
  buf_eq : st.buf = window J.buf st.accuLen
  covered : max J.size (J.base + st.accuLen) ≤ cs.length * fs.clusterSize
  content_eq : ∀ i < max J.size (J.base + st.accuLen),
    rowContent fs v cs i = patch J.old J.base st.accuLen J.buf i

section Written

variable {J : WriteJob} {cs : List ℕ} {st : SyncWriteState} {v : Vol}

/-- The clusters of a position. -/
theorem Written.div_lt (hp : Placed fs) (h : Written fs J cs st v) {i : ℕ}
    (hi : i < max J.size (J.base + st.accuLen)) : i / fs.clusterSize < cs.length := by
  have hcov := h.covered
  rw [Nat.div_lt_iff_lt_mul hp.clusterSize_pos]
  omega

theorem Written.at (h : Written fs J cs st v) (c : ℕ) : Written fs J cs (st.at c) v :=
  ⟨h.row, h.pool, h.mark_used, h.ppos_eq, h.len_eq, h.buf_eq, h.covered, h.content_eq⟩

/-- Data writes leave the words alone. -/
theorem sameFat_chunkWritten (hp : Placed fs) {offset n : ℕ} (hcur : st.curCls < fatWords fs) :
    SameFat fs v (chunkWritten fs st offset n v) := sameFat_chunk hp (lt_of_fatWords hp hcur) offset n

/-- **A write to a cluster of the row**, at the position that comes next. -/
theorem Written.chunk (hp : Placed fs) (h : Written fs J cs st v) {k offset n : ℕ}
    (hk : cs[k]? = some st.curCls) (hpos : k * fs.clusterSize + offset = J.base + st.accuLen)
    (hoff : offset < fs.clusterSize) (hn : n ≤ chunkLen fs st offset) :
    Written fs J cs (st.advance n) (chunkWritten fs st offset n v) := by
  have hmem := List.mem_of_getElem? hk
  have hfat := @sameFat_chunkWritten fs st v hp offset n (h.row.lt_words _ hmem)
  have hlen := h.len_eq
  have hppos := h.ppos_eq
  have hcov := h.covered
  have hroom : offset + n ≤ fs.clusterSize := by
    rw [chunkLen] at hn
    omega
  have hnlen : n ≤ st.len := by
    rw [chunkLen] at hn
    omega
  have hklt := (List.getElem?_eq_some_iff.mp hk).1
  have hmul := Nat.mul_le_mul_right fs.clusterSize (show k + 1 ≤ cs.length from hklt)
  rw [Nat.add_mul, Nat.one_mul] at hmul
  have hcov' : max J.size (J.base + (st.accuLen + n)) ≤ cs.length * fs.clusterSize := by omega
  refine ⟨h.row.congr hfat, h.pool, ?_, ?_, ?_, ?_, hcov', fun i hi => ?_⟩
  · intro hlt
    rw [hfat _ hlt]
    exact h.mark_used hlt
  · show st.ppos + n = J.ppos + (st.accuLen + n)
    omega
  · show st.accuLen + n + (st.len - n) = J.len
    omega
  · show window st.buf n = window J.buf (st.accuLen + n)
    rw [h.buf_eq]
    funext i
    rw [window_apply, window_apply, window_apply, Nat.add_assoc]
  · have hi : i < max J.size (J.base + (st.accuLen + n)) := hi
    have hdiv : i / fs.clusterSize < cs.length := by
      rw [Nat.div_lt_iff_lt_mul hp.clusterSize_pos]
      omega
    show rowContent fs (patch v (clsAddr fs st.curCls + offset) n st.buf) cs i =
      patch J.old J.base (st.accuLen + n) J.buf i
    rw [h.row.content_patch hp hk hroom hdiv, hpos, ← patch_append, h.buf_eq]
    by_cases hin : J.base + st.accuLen ≤ i ∧ i < J.base + st.accuLen + n
    · rw [patch_of_mem _ _ hin.1 hin.2, patch_of_mem _ _ hin.1 hin.2]
    · have hold := h.content_eq i (by omega)
      have hleft : ∀ f : ℕ → UInt8,
          patch f (J.base + st.accuLen) n (window J.buf st.accuLen) i = f i := fun f =>
        if_neg hin
      rw [hleft, hleft, hold]

/-- A cluster that was taken belongs to nobody. -/
theorem Written.acquired (hp : Placed fs) (h : Written fs J cs st v) {c : ℕ}
    (hc : FirstFree fs v c) : Written fs J cs st (setFatWord fs v c sfatEntryEoc) := by
  have hnot : c ∉ cs := fun hmem => h.row.used c hmem hc.2.1
  refine ⟨h.row.other_word hnot _, h.pool, ?_, h.ppos_eq, h.len_eq, h.buf_eq, h.covered,
    fun i hi => ?_⟩
  · intro hlt
    have hne : sfatEntryFree ≠ c := fun heq => h.mark_used hlt (heq ▸ hc.2.1)
    rw [fatWord_setFatWord_ne hne]
    exact h.mark_used hlt
  · rw [h.row.content_setFatWord hp hc.1 _ (h.div_lt hp hi)]
    exact h.content_eq i hi

/-- A cluster that is taken is none whose number is the mark of free words. -/
theorem Written.ne_mark (h : Written fs J cs st v) {c : ℕ} (hc : FirstFree fs v c) :
    c ≠ sfatEntryFree := fun heq => h.mark_used (heq ▸ hc.1) (heq ▸ hc.2.1)

/-- **A new cluster behind the last one.** -/
theorem Written.linked (hp : Placed fs) (h : Written fs J cs st v) {c : ℕ}
    (hl : cs.getLast? = some st.curCls) (hpool : cs ++ freeList fs v = J.pool)
    (hc : FirstFree fs v c) :
    Written fs J (cs ++ [c]) (st.at c) (clusterLinked fs v st.curCls c) := by
  have hmem := List.mem_of_getLast? hl
  have hmark := h.ne_mark hc
  have hfirst := h.acquired hp hc
  refine ⟨h.row.concat hp hl hc hmark, ?_, ?_, h.ppos_eq, h.len_eq, h.buf_eq, ?_, fun i hi => ?_⟩
  · refine ⟨freeAfter fs v c, ?_⟩
    rw [← hpool, freeList_firstFree hc, List.append_assoc]
    rfl
  · intro hlt
    rw [clusterLinked]
    by_cases hne : sfatEntryFree = st.curCls
    · rw [← hne, fatWord_setFatWord_of_lt (lt_of_fatWords hp hc.1)]
      exact hmark
    · rw [fatWord_setFatWord_ne hne]
      exact hfirst.mark_used hlt
  · have hcov := h.covered
    rw [List.length_append, List.length_singleton, Nat.add_mul, Nat.one_mul]
    show max J.size (J.base + st.accuLen) ≤ _
    omega
  · have hi : i < max J.size (J.base + st.accuLen) := hi
    have hdiv := h.div_lt hp hi
    rw [rowContent_append _ hdiv, clusterLinked,
      hfirst.row.content_setFatWord hp (h.row.lt_words _ hmem) _ hdiv]
    exact hfirst.content_eq i hi

/-- The clusters that may be taken next, after one was. -/
theorem Written.pool_linked (hp : Placed fs) (h : Written fs J cs st v) {c : ℕ} {v' : Vol}
    (hl : cs.getLast? = some st.curCls) (hpool : cs ++ freeList fs v = J.pool)
    (hc : FirstFree fs v c) (hfat : SameFat fs (clusterLinked fs v st.curCls c) v') :
    cs ++ [c] ++ freeList fs v' = J.pool := by
  have hmark : c % 2 ^ 32 ≠ sfatEntryFree := by
    rw [Nat.mod_eq_of_lt (lt_of_fatWords hp hc.1)]
    exact h.ne_mark hc
  rw [← hpool, freeList_firstFree hc,
    freeList_of_linked hc (h.row.used _ (List.mem_of_getLast? hl)) hmark hfat, List.append_assoc]
  rfl

/-! ### The loops keep it -/

/-- The loop for new clusters goes on at the end of the last cluster, or gets no new cluster. -/
def ReadyForNew (fs : FsInfo) (J : WriteJob) (cs : List ℕ) (st : SyncWriteState) (v : Vol) : Prop :=
  st.len ≠ 0 → (cs.getLast? = some st.curCls ∧
      J.base + st.accuLen = cs.length * fs.clusterSize ∧ cs ++ freeList fs v = J.pool) ∨
    fs.clustersPred ≤ st.curCls ∨ NoneFree fs v

/-- After a write to the new cluster the loop is ready again. -/
theorem Written.newChunk (hp : Placed fs) (h : Written fs J cs st v) {c n : ℕ} (hlen : st.len ≠ 0)
    (hready : ReadyForNew fs J cs st v) (hc : FirstFree fs v c) (hcur : st.curCls < fs.clustersPred)
    (hn : n ≤ chunkLen fs (st.at c) 0) :
    Written fs J (cs ++ [c]) ((st.at c).advance n)
      (chunkWritten fs (st.at c) 0 n (clusterLinked fs v st.curCls c)) ∧
    (n = chunkLen fs (st.at c) 0 → ReadyForNew fs J (cs ++ [c]) ((st.at c).advance n)
      (chunkWritten fs (st.at c) 0 n (clusterLinked fs v st.curCls c))) := by
  rcases hready hlen with ⟨hlast, hpos, hpool⟩ | hrefused | hnone
  · have hindex : (cs ++ [c])[cs.length]? = some c := List.getElem?_concat_length
    refine ⟨(h.linked hp hlast hpool hc).chunk hp hindex ?_ hp.clusterSize_pos hn, fun hfull => ?_⟩
    · rw [Nat.add_zero]
      exact hpos.symm
    · refine fun hmore => .inl ⟨List.getLast?_concat, ?_,
        h.pool_linked hp hlast hpool hc (sameFat_chunkWritten hp hc.1)⟩
      have hmore : st.len - n ≠ 0 := hmore
      have hmin : chunkLen fs (st.at c) 0 = min st.len (fs.clusterSize - 0) := rfl
      rw [List.length_append, List.length_singleton, Nat.add_mul, Nat.one_mul]
      show J.base + (st.accuLen + n) = _
      omega
  · exact absurd hcur (by omega)
  · exact absurd hc.2.1 (hnone c hc.1)

theorem NewRun.written (hp : Placed fs) {st' : SyncWriteState} {v' : Vol}
    (hrun : NewRun mayFail fs st v st' v') (h : Written fs J cs st v)
    (hready : ReadyForNew fs J cs st v) : ∃ ds, Written fs J (cs ++ ds) st' v' := by
  induction hrun generalizing cs with
  | done hlen => exact ⟨[], by rwa [List.append_nil]⟩
  | noCluster hlen hnone => exact ⟨[], by rwa [List.append_nil]⟩
  | unlinked hlen hc hrefused =>
    refine ⟨[], ?_⟩
    rw [List.append_nil]
    exact h.acquired hp hc
  | @short st v c n hlen hc hcur hn hfail =>
    exact ⟨[c], (h.newChunk hp hlen hready hc hcur (Nat.le_of_lt hn)).1⟩
  | @more st st' v v' c hlen hc hcur hrun ih =>
    have hchunk := h.newChunk hp hlen hready hc hcur (Nat.le_refl _)
    obtain ⟨ds, hds⟩ := ih hchunk.1 (hchunk.2 rfl)
    exact ⟨c :: ds, by rwa [List.append_cons]⟩

def RowEnds (fs : FsInfo) (v : Vol) (cs : List ℕ) : Prop :=
  ∀ l, cs.getLast? = some l → fatWord fs v l = sfatEntryEoc

theorem FatChain.rowEnds {start : ℕ} (h : FatChain fs v start cs) : RowEnds fs v cs := by
  intro l hl
  rw [List.getLast?_eq_getLast_of_ne_nil h.1.ne_nil] at hl
  rw [← Option.some.inj hl]
  exact h.1.last

theorem RowEnds.chunk (hp : Placed fs) (h : RowEnds fs v cs) (hrow : ClusterRow fs v cs)
    {offset n : ℕ} (hcur : st.curCls ∈ cs) : RowEnds fs (chunkWritten fs st offset n v) cs := by
  intro l hl
  rw [sameFat_chunkWritten hp (hrow.lt_words _ hcur) _ (hrow.lt_words l (List.mem_of_getLast? hl))]
  exact h l hl

/-- A link below the marks leads to the next cluster of the row. -/
theorem ClusterRow.next (h : ClusterRow fs v cs) (hend : RowEnds fs v cs) {k cur c : ℕ}
    (hk : cs[k]? = some cur) (hc : fatWord fs v cur = c) (hmax : c < sfatEntryMax) :
    cs[k + 1]? = some c := by
  have hlt := (List.getElem?_eq_some_iff.mp hk).1
  by_cases hlast : k + 1 = cs.length
  · have hl : cs.getLast? = some cur := by
      rw [List.getLast?_eq_getElem?, ← hlast, Nat.add_sub_cancel, hk]
    rw [← hc, hend _ hl, sfatEntryEoc, sfatEntryMax] at hmax
    exact absurd hmax (by decide)
  · have hin : k + 1 < cs.length := by omega
    have hget : cs[k + 1]? = some cs[k + 1] := List.getElem?_eq_getElem hin
    rw [hget, ← h.links k _ _ hk hget, hc]

/-- What the walk over the existing clusters leaves behind. -/
def ExistingOutcome (fs : FsInfo) (J : WriteJob) (cs : List ℕ) :
    Loop SyncWriteState SyncWriteState → Vol → Prop
  | .out st, v => Written fs J cs st v
  | .next st, v => Written fs J cs st v ∧ (st.len = 0 ∨ fs.clustersPred ≤ st.curCls)

theorem ExistingRun.written (hp : Placed fs) {r : Loop SyncWriteState SyncWriteState} {v' : Vol}
    (hrun : ExistingRun mayFail storedWord fs st v r v') (h : Written fs J cs st v)
    (hend : RowEnds fs v cs) {k : ℕ} (hk : cs[k]? = some st.curCls)
    (hpos : st.len ≠ 0 → J.base + st.accuLen = (k + 1) * fs.clusterSize) :
    ExistingOutcome fs J cs r v' := by
  induction hrun generalizing k with
  | done hlen => exact ⟨h, .inl hlen⟩
  | refused hlen hrefused => exact h
  | @ended st v hlen hcur hmax =>
    have hclusters := hp.clusters_lt
    refine ⟨h.at _, .inr ?_⟩
    show fs.clustersPred ≤ nextWord storedWord fs v st.curCls
    rw [hp.clustersPred_eq hp.clusters_pos]
    omega
  | @short st v c n hlen hcur hc hmax hn hfail =>
    rw [nextWord_storedWord hp.toWellFormed] at hc
    have hk' := h.row.next hend hk hc hmax
    refine (h.at c).chunk hp hk' ?_ hp.clusterSize_pos (Nat.le_of_lt hn)
    exact (hpos hlen).symm
  | @more st r v v' c hlen hcur hc hmax hrun ih =>
    rw [nextWord_storedWord hp.toWellFormed] at hc
    have hk' := h.row.next hend hk hc hmax
    have hcmem := List.mem_of_getElem? hk'
    have hchunk : Written fs J cs _ _ :=
      (h.at c).chunk hp hk' (hpos hlen).symm hp.clusterSize_pos (Nat.le_refl _)
    refine ih hchunk (hend.chunk hp h.row hcmem) hk' fun hmore => ?_
    · have hmore : st.len - chunkLen fs (st.at c) 0 ≠ 0 := hmore
      have hmin : chunkLen fs (st.at c) 0 = min st.len (fs.clusterSize - 0) := rfl
      have hpos := hpos hlen
      rw [Nat.add_mul, Nat.one_mul]
      show J.base + (st.accuLen + chunkLen fs (st.at c) 0) = _
      omega

end Written

/-! ### Whole writes -/

section Links

variable {v : Vol} {start pos c : ℕ}

theorem fileCls_fatWord (start k : ℕ) :
    fileCls fs v (fatWord fs v start) k = fileCls fs v start (k + 1) := by
  induction k with
  | zero => rfl
  | succ k ih => rw [fileCls, ih, ← fileCls]

/-- Accepted links are stored links. -/
theorem linked_fileCls (hwf : WellFormed fs) {k : ℕ}
    (h : linked (nextCls storedWord fs v) k start = some c) :
    c = fileCls fs v start k ∧ ∀ j < k, ¬ fs.clustersPred ≤ fileCls fs v start j := by
  induction k generalizing start with
  | zero => exact ⟨(Option.some.inj h).symm, fun j hj => by omega⟩
  | succ k ih =>
    rw [linked_nextCls, nextWord_storedWord hwf] at h
    split at h
    · cases h
    · rename_i hstart
      split at h
      · cases h
      · obtain ⟨hc, hj⟩ := ih h
        rw [fileCls_fatWord] at hc
        refine ⟨hc, fun j hjk => ?_⟩
        cases j with
        | zero => exact hstart
        | succ j =>
          rw [← fileCls_fatWord]
          exact hj j (by omega)

end Links

section Whole

variable {v : Vol} {inode : Inode} {cs : List ℕ} {d len ppos : ℕ} {buf : ℕ → UInt8}

/-- The job of a write to a file: its content, and where in its clusters the bytes go. -/
def fileJob (fs : FsInfo) (v : Vol) (cs : List ℕ) (size : ℕ) (buf : ℕ → UInt8)
    (len ppos base : ℕ) : WriteJob where
  old := rowContent fs v cs
  size := size
  buf := buf
  len := len
  ppos := ppos
  base := base
  pool := cs ++ freeList fs v

/-- The word whose number is the mark of free words is not free itself. -/
def MarkUsed (fs : FsInfo) (v : Vol) : Prop :=
  sfatEntryFree < fatWords fs → fatWord fs v sfatEntryFree ≠ sfatEntryFree

/-- **An append to a file of whole blocks and not of whole clusters**, which gets a new cluster. -/
structure AppendsInCluster (fs : FsInfo) (v : Vol) (inode : Inode) (cs : List ℕ) (len ppos : ℕ) :
    Prop where
  len_ne : len ≠ 0
  at_end : ppos = inode.iSize
  whole_blocks : inode.iSize % fs.blockSize = 0
  inside_cluster : inode.iSize % fs.clusterSize ≠ 0
  accepted : ∀ c ∈ cs, c + 1 < fs.clusters
  free : ¬ NoneFree fs v

theorem AppendsInCluster.sameFat {w : Vol} (h : AppendsInCluster fs v inode cs len ppos)
    (hfat : SameFat fs v w) : AppendsInCluster fs w inode cs len ppos :=
  ⟨h.len_ne, h.at_end, h.whole_blocks, h.inside_cluster, h.accepted, fun hnone =>
    h.free fun k hk => hfat k hk ▸ hnone k hk⟩

theorem FileChain.covered (hp : Placed fs) (h : FileChain fs v inode cs) :
    inode.iSize ≤ cs.length * fs.clusterSize ∧ cs.length * fs.clusterSize < inode.iSize + fs.clusterSize := by
  have hpos := hp.clusterSize_pos
  have hdiv := Nat.div_add_mod (inode.iSize + (fs.clusterSize - 1)) fs.clusterSize
  have hmod := Nat.mod_lt (inode.iSize + (fs.clusterSize - 1)) hpos
  rw [h.length_eq, Nat.mul_comm]
  omega

/-- A file of whole clusters fills them. -/
theorem FileChain.whole (hp : Placed fs) (h : FileChain fs v inode cs)
    (hmod : inode.iSize % fs.clusterSize = 0) : inode.iSize = cs.length * fs.clusterSize := by
  have hpos := hp.clusterSize_pos
  have hdiv := Nat.div_add_mod inode.iSize fs.clusterSize
  have hrest : (fs.clusterSize - 1) / fs.clusterSize = 0 := Nat.div_eq_of_lt (by omega)
  rw [hmod, Nat.add_zero] at hdiv
  rw [h.length_eq, ← hdiv, Nat.mul_add_div hpos, hrest, Nat.add_zero, Nat.mul_comm]

theorem FileChain.row (hp : Placed fs) (h : FileChain fs v inode cs) : ClusterRow fs v cs := by
  have hcov := h.covered hp
  by_cases hsize : 0 < inode.iSize
  · exact (h.chain hsize).row hp
  · have hnil : cs = [] := by
      by_contra hne
      have hlen := List.length_pos_iff.mpr hne
      have hmul := Nat.mul_le_mul_right fs.clusterSize hlen
      rw [Nat.one_mul] at hmul
      omega
    rw [hnil]
    exact ⟨by simp, List.nodup_nil, by simp, by simp⟩

/-- **`sfat_seek` finds the cluster of a position** exactly if it accepts the start and all
clusters before it. -/
theorem FileChain.seek_iff (hp : Placed fs) (h : FileChain fs v inode cs) {pos c : ℕ}
    (hsize : 0 < inode.iSize) (hlt : pos / fs.clusterSize < cs.length) :
    SeekFinds storedWord fs v inode.iStart pos c ↔ cs[pos / fs.clusterSize]? = some c ∧
      inode.iStart < fs.clustersPred ∧
      ∀ j < pos / fs.clusterSize, ∀ b, cs[j]? = some b → b < fs.clustersPred := by
  have hchain := h.chain hsize
  have hfirst := hchain.1.getElem?_zero
  have hrow := h.row hp
  constructor
  · intro hc
    have hfound := linked_fileCls hp.toWellFormed hc.2
    refine ⟨?_, Nat.lt_of_not_le hc.1, fun j hj b hb => ?_⟩
    · rw [hrow.fileCls_eq hfirst hlt, hfound.1]
    · rw [hrow.fileCls_eq hfirst (by omega)] at hb
      rw [← Option.some.inj hb]
      exact Nat.lt_of_not_le (hfound.2 j hj)
  · rintro ⟨hc, hstart, hacc⟩
    -- each link is followed, as a cluster of the chain comes next
    have hlinked : ∀ k, k ≤ pos / fs.clusterSize → ∀ j, j + k = pos / fs.clusterSize →
        linked (nextCls storedWord fs v) k (fileCls fs v inode.iStart j) = some c := by
      intro k
      induction k with
      | zero =>
        intro _ j hj
        rw [Nat.add_zero] at hj
        rw [linked, hj, ← hc, hrow.fileCls_eq hfirst hlt]
      | succ k ih =>
        intro hk j hj
        have hcur := hacc j (by omega) _ (hrow.fileCls_eq hfirst (by omega))
        have hnext := hchain.2 _ (List.mem_of_getElem?
          (hrow.fileCls_eq hfirst (show j + 1 < cs.length by omega)))
        have hword : fatWord fs v (fileCls fs v inode.iStart j) = fileCls fs v inode.iStart (j + 1) :=
          rfl
        rw [linked_nextCls, nextWord_storedWord hp.toWellFormed, hword, if_neg (by omega),
          if_neg (by omega), ih (by omega) (j + 1) (by omega)]
    exact ⟨Nat.not_le_of_lt hstart, hlinked _ (Nat.le_refl _) 0 (Nat.zero_add _)⟩

/-- Before the first byte. -/
theorem Written.start (hp : Placed fs) (hfile : FileChain fs v inode cs) (hmark : MarkUsed fs v)
    {size base : ℕ}
    (hsize : max size base ≤ cs.length * fs.clusterSize) :
    Written fs (fileJob fs v cs size buf len ppos base) cs (syncWriteStart inode buf len ppos) v where
  row := hfile.row hp
  pool := List.prefix_append cs _
  mark_used := hmark
  ppos_eq := rfl
  len_eq := Nat.zero_add _
  buf_eq := funext fun i => by rw [window_apply, syncWriteStart, Nat.zero_add]; rfl
  covered := hsize
  content_eq i _ := by
    rw [show (syncWriteStart inode buf len ppos).accuLen = 0 from rfl, patch_zero]
    rfl

/-- Before the first byte of an empty file that got a cluster. -/
theorem Written.first (hmark : MarkUsed fs v) {c : ℕ} (hc : FirstFree fs v c) :
    Written fs (fileJob fs v [] 0 buf len 0 0) [c] ((syncWriteStart inode buf len 0).at c)
      (setFatWord fs v c sfatEntryEoc) := by
  refine ⟨⟨fun k a b _ hb => ?_, List.nodup_singleton c, fun a ha => ?_, fun a ha => ?_⟩, ?_, ?_,
    rfl, Nat.zero_add _, ?_, Nat.zero_le _, fun i hi => ?_⟩
  · simp at hb
  · rw [List.mem_singleton.mp ha]
    exact hc.1
  · rw [List.mem_singleton.mp ha, fatWord_setFatWord]
    decide
  · refine ⟨freeAfter fs v c, ?_⟩
    show _ = [] ++ freeList fs v
    rw [freeList_firstFree hc]
    rfl
  · intro hlt
    have hfree : sfatEntryFree ≠ c := fun heq => hmark hlt (heq ▸ hc.2.1)
    rw [fatWord_setFatWord_ne hfree]
    exact hmark hlt
  · funext i
    rw [window_apply]
    show buf i = buf (0 + i)
    rw [Nat.zero_add]
  · exact absurd hi (Nat.not_lt_zero i)

/-- What a run leaves behind: the clusters of the file, which starts with the first of them. -/
def FileWritten (fs : FsInfo) (J : WriteJob) (st : SyncWriteState) (inode : Inode) (v : Vol) : Prop :=
  ∃ cs, Written fs J cs st v ∧
    (0 < max J.size (J.base + st.accuLen) → cs[0]? = some inode.iStart)

/-- Longer rows have the same first cluster. -/
theorem Written.fileWritten {J : WriteJob} {st : SyncWriteState} {v' : Vol} {ds : List ℕ}
    (h : Written fs J (cs ++ ds) st v') (hstart : 0 < cs.length → cs[0]? = some inode.iStart)
    (hcs : 0 < max J.size (J.base + st.accuLen) → 0 < cs.length) :
    FileWritten fs J st inode v' := by
  refine ⟨cs ++ ds, h, fun hpos => ?_⟩
  rw [List.getElem?_append_left (hcs hpos)]
  exact hstart (hcs hpos)

/-- The remainders by the block size. -/
theorem and_blockSize (hwf : WellFormed fs) (size : ℕ) :
    size &&& (fs.blockSize - 1) = size % fs.blockSize := by
  rw [hwf.blockSize_eq, Nat.and_two_pow_sub_one_eq_mod]

/-- A position inside the file, or in the room of its last block, is in its clusters. -/
theorem FileChain.inside (hp : Placed fs) (h : FileChain fs v inode cs)
    (hallow : WriteAllowed inode len ppos) (hin : WritesInside fs inode ppos) :
    0 < inode.iSize ∧ ppos / fs.clusterSize < cs.length := by
  have hcov := h.covered hp
  have hle := hallow.1
  rw [WritesInside, and_blockSize hp.toWellFormed] at hin
  rw [Nat.div_lt_iff_lt_mul hp.clusterSize_pos]
  rcases hin with hmod | hlt
  · have hne : inode.iSize ≠ cs.length * fs.clusterSize := by
      intro heq
      rw [heq, hp.clusterSize_blocks, ← Nat.mul_assoc, Nat.mul_mod_left] at hmod
      exact hmod rfl
    refine ⟨Nat.pos_of_ne_zero fun h0 => ?_, by omega⟩
    rw [h0, Nat.zero_mod] at hmod
    exact hmod rfl
  · exact ⟨by omega, by omega⟩

/-- The first bytes inside the file. -/
theorem Written.inside (hp : Placed fs) (hfile : FileChain fs v inode cs) (hmark : MarkUsed fs v)
    (hallow : WriteAllowed inode len ppos) (hin : WritesInside fs inode ppos) {c n : ℕ}
    (hseek : SeekFinds storedWord fs v inode.iStart ppos c)
    (hn : n ≤ chunkLen fs ((syncWriteStart inode buf len ppos).at c) (ppos % fs.clusterSize)) :
    Written fs (fileJob fs v cs inode.iSize buf len ppos ppos) cs
      (((syncWriteStart inode buf len ppos).at c).advance n)
      (chunkWritten fs ((syncWriteStart inode buf len ppos).at c) (ppos % fs.clusterSize) n v) := by
  have hcov := hfile.covered hp
  obtain ⟨hsize, hlt⟩ := hfile.inside hp hallow hin
  have hle := hallow.1
  have hstart : Written fs (fileJob fs v cs inode.iSize buf len ppos ppos) cs
      (syncWriteStart inode buf len ppos) v :=
    Written.start hp hfile hmark (by omega)
  have hpos : ppos / fs.clusterSize * fs.clusterSize + ppos % fs.clusterSize = ppos + 0 :=
    Nat.div_add_mod' ppos fs.clusterSize
  exact (hstart.at c).chunk hp ((hfile.seek_iff hp hsize hlt).mp hseek).1 hpos
    (Nat.mod_lt _ hp.clusterSize_pos) hn

/-- The walk over the rest of the clusters. -/
theorem ExistingRun.outcome (hp : Placed fs) (hfile : FileChain fs v inode cs)
    (hmark : MarkUsed fs v)
    (hallow : WriteAllowed inode len ppos) (hin : WritesInside fs inode ppos) {c : ℕ}
    (hseek : SeekFinds storedWord fs v inode.iStart ppos c)
    {r : Loop SyncWriteState SyncWriteState} {v' : Vol} {n : ℕ}
    (hn : n = chunkLen fs ((syncWriteStart inode buf len ppos).at c) (ppos % fs.clusterSize))
    (hrun : ExistingRun mayFail storedWord fs (((syncWriteStart inode buf len ppos).at c).advance n)
      (chunkWritten fs ((syncWriteStart inode buf len ppos).at c) (ppos % fs.clusterSize) n v) r v') :
    ExistingOutcome fs (fileJob fs v cs inode.iSize buf len ppos ppos) cs r v' := by
  obtain ⟨hsize, hlt⟩ := hfile.inside hp hallow hin
  have hk := ((hfile.seek_iff hp hsize hlt).mp hseek).1
  have hchain := hfile.chain hsize
  have hrow := hfile.row hp
  have hwritten : Written fs (fileJob fs v cs inode.iSize buf len ppos ppos) cs _ _ :=
    Written.inside hp hfile hmark hallow hin hseek (Nat.le_of_eq hn)
  refine hrun.written hp hwritten (hchain.rowEnds.chunk hp hrow (List.mem_of_getElem? hk)) hk
    fun hmore => ?_
  · have hmore : len - n ≠ 0 := hmore
    have hmin : chunkLen fs ((syncWriteStart inode buf len ppos).at c) (ppos % fs.clusterSize) =
      min len (fs.clusterSize - ppos % fs.clusterSize) := rfl
    have hsplit := Nat.div_add_mod' ppos fs.clusterSize
    have hmod := Nat.mod_lt ppos hp.clusterSize_pos
    rw [Nat.add_mul, Nat.one_mul]
    show ppos + (0 + n) = _
    omega

/-- The index of the last cluster of a file. -/
theorem FileChain.last_index (hp : Placed fs) (h : FileChain fs v inode cs) (hsize : 0 < inode.iSize) :
    (inode.iSize - 1) / fs.clusterSize = cs.length - 1 ∧ 0 < cs.length := by
  have hcov := h.covered hp
  have hcs := hp.clusterSize_pos
  have hlen : 0 < cs.length := by
    by_contra h0
    rw [Nat.eq_zero_of_not_pos h0, Nat.zero_mul] at hcov
    omega
  have hmul : (cs.length - 1 + 1) * fs.clusterSize = cs.length * fs.clusterSize := by
    rw [Nat.sub_add_cancel hlen]
  rw [Nat.add_mul, Nat.one_mul] at hmul
  refine ⟨Nat.div_eq_of_lt_le (by omega) ?_, hlen⟩
  rw [Nat.add_mul, Nat.one_mul]
  omega

/-- The last cluster of a file. -/
theorem FileChain.atEnd (hp : Placed fs) (h : FileChain fs v inode cs) (hsize : 0 < inode.iSize)
    {c : ℕ} (hc : SeekFinds storedWord fs v inode.iStart (inode.iSize - 1) c) :
    cs.getLast? = some c ∧ ∀ b ∈ cs, b ≠ c → ¬ fs.clustersPred ≤ b := by
  obtain ⟨hindex, hlen⟩ := h.last_index hp hsize
  obtain ⟨hget, -, hacc⟩ := (h.seek_iff hp hsize (by omega)).mp hc
  rw [hindex] at hget hacc
  refine ⟨by rw [List.getLast?_eq_getElem?, hget], fun b hb hne => ?_⟩
  obtain ⟨j, hj, hjb⟩ := List.getElem_of_mem hb
  have hjget : cs[j]? = some b := by rw [List.getElem?_eq_getElem hj, hjb]
  refine Nat.not_le_of_lt (hacc j ?_ b hjget)
  by_contra hge
  obtain rfl : j = cs.length - 1 := by omega
  rw [hjget] at hget
  exact hne (Option.some.inj hget)

theorem FileChain.nil_of_empty (hp : Placed fs) (h : FileChain fs v inode cs)
    (hsize : inode.iSize = 0) : cs = [] := by
  have hcov := h.covered hp
  by_contra hne
  have hmul := Nat.mul_le_mul_right fs.clusterSize (List.length_pos_iff.mpr hne)
  rw [Nat.one_mul] at hmul
  omega

/-- **The clusters after any run**, if it is no append into a cluster. -/
theorem DataRun.written (hp : Placed fs) (hfile : FileChain fs v inode cs) (hmark : MarkUsed fs v)
    (hgood : ¬ AppendsInCluster fs v inode cs len ppos) {st : SyncWriteState} {inode' : Inode}
    {v' : Vol} (hrun : DataRun mayFail storedWord fs v inode buf len ppos (.ok st, inode') v') :
    FileWritten fs (fileJob fs v cs inode.iSize buf len ppos ppos) st inode' v' := by
  have hcov := hfile.covered hp
  have hhead : 0 < cs.length → cs[0]? = some inode.iStart := fun hlen => by
    refine (hfile.chain (Nat.pos_of_ne_zero fun h0 => ?_)).1.getElem?_zero
    rw [hfile.nil_of_empty hp h0] at hlen
    exact Nat.lt_irrefl 0 hlen
  have hlen : 0 < inode.iSize → 0 < cs.length := fun hsize => by
    by_contra h0
    rw [Nat.eq_zero_of_not_pos h0, Nat.zero_mul] at hcov
    omega
  have hstart : WriteAllowed inode len ppos → Written fs
      (fileJob fs v cs inode.iSize buf len ppos ppos) cs (syncWriteStart inode buf len ppos) v :=
    fun hallow => Written.start hp hfile hmark (by have := hallow.1; omega)
  -- at the end of the file the position is its size
  have hend : WriteAllowed inode len ppos → ¬ WritesInside fs inode ppos →
      ppos = inode.iSize ∧ inode.iSize % fs.blockSize = 0 := by
    intro hallow hin
    have hle := hallow.1
    rw [WritesInside, and_blockSize hp.toWellFormed] at hin
    omega
  cases hrun with
  | @insideShort c n hallow hin hseek hn hfail =>
    have hsize := (hfile.inside hp hallow hin).1
    have hchunk : Written fs (fileJob fs v cs inode.iSize buf len ppos ppos) cs _ _ :=
      Written.inside hp hfile hmark hallow hin hseek (Nat.le_of_lt hn)
    exact ⟨cs, hchunk, fun _ => hhead (hlen hsize)⟩
  | insideOut hallow hin hseek hn hexist =>
    have hsize := (hfile.inside hp hallow hin).1
    exact ⟨cs, hexist.outcome hp hfile hmark hallow hin hseek hn, fun _ => hhead (hlen hsize)⟩
  | inside hallow hin hseek hn hexist hnew =>
    have hsize := (hfile.inside hp hallow hin).1
    obtain ⟨hwritten, hstop⟩ := hexist.outcome hp hfile hmark hallow hin hseek hn
    obtain ⟨ds, hds⟩ := hnew.written hp hwritten fun hne => .inr (.inl (hstop.resolve_left hne))
    exact hds.fileWritten hhead fun _ => hlen hsize
  | endNotFound hallow hin hsize hnone =>
    exact ⟨cs, hstart hallow, fun _ => hhead (hlen hsize)⟩
  | @atEnd c st' v' hallow hin hsize hseek hnew =>
    obtain ⟨hppos, hblocks⟩ := hend hallow hin
    rw [hppos] at hseek
    obtain ⟨hlast, hacc⟩ := hfile.atEnd hp hsize hseek
    have hready : ReadyForNew fs (fileJob fs v cs inode.iSize buf len ppos ppos) cs
        ((syncWriteStart inode buf len ppos).at c) v := by
      intro _
      by_cases hwhole : inode.iSize % fs.clusterSize = 0
      · refine .inl ⟨hlast, ?_⟩
        rw [← hfile.whole hp hwhole]
        exact ⟨hppos, rfl⟩
      · refine .inr ?_
        by_contra hstuck
        simp only [not_or] at hstuck
        refine hgood ⟨hallow.2, hppos, hblocks, hwhole, fun b hb => ?_, hstuck.2⟩
        by_cases hbc : b = c
        · rw [hbc]
          exact lt_clusters_of_accepted hp hstuck.1
        · exact lt_clusters_of_accepted hp (hacc b hb hbc)
    obtain ⟨ds, hds⟩ := hnew.written hp ((hstart hallow).at c) hready
    exact hds.fileWritten hhead fun _ => hlen hsize
  | noCluster hallow hin hsize hnone =>
    refine ⟨cs, hstart hallow, fun hpos => ?_⟩
    have hpos : 0 < max inode.iSize (ppos + 0) := hpos
    have := (hend hallow hin).1
    omega
  | @firstShort c n hallow hin hsize hfree hn hfail =>
    obtain rfl := hfile.nil_of_empty hp hsize
    obtain rfl : ppos = 0 := by rw [(hend hallow hin).1, hsize]
    rw [hsize]
    have hfirst : Written fs (fileJob fs v [] 0 buf len 0 0) [c]
        ((syncWriteStart inode buf len 0).at c) _ := Written.first hmark hfree
    refine ⟨[c], hfirst.chunk hp rfl (Nat.zero_mul _) hp.clusterSize_pos (Nat.le_of_lt hn),
      fun hpos => ?_⟩
    have hpos : 0 < max 0 (0 + (0 + n)) := hpos
    rw [if_pos (by omega)]
    rfl
  | @first c n st' v' hallow hin hsize hfree hn hnew =>
    obtain rfl := hfile.nil_of_empty hp hsize
    obtain rfl : ppos = 0 := by rw [(hend hallow hin).1, hsize]
    rw [hsize]
    have hfirst : Written fs (fileJob fs v [] 0 buf len 0 0) [c]
        ((syncWriteStart inode buf len 0).at c) _ := Written.first hmark hfree
    have hchunk := hfirst.chunk hp rfl (Nat.zero_mul _) hp.clusterSize_pos (Nat.le_of_eq hn)
    have hfat : SameFat fs (setFatWord fs v c sfatEntryEoc)
        (chunkWritten fs ((syncWriteStart inode buf len 0).at c) 0 n
          (setFatWord fs v c sfatEntryEoc)) := sameFat_chunkWritten hp hfree.1
    have hpool := freeList_of_acquired hfree hfat
    obtain ⟨ds, hds⟩ := hnew.written hp hchunk fun hmore => by
      refine .inl ⟨rfl, ?_, ?_⟩
      · have hmore : len - n ≠ 0 := hmore
        have hmin : chunkLen fs ((syncWriteStart inode buf len 0).at c) 0 =
          min len (fs.clusterSize - 0) := rfl
        show 0 + (0 + n) = 1 * fs.clusterSize
        omega
      · rw [hpool]
        exact (freeList_firstFree hfree).symm
    exact ⟨[c] ++ ds, hds, fun _ => rfl⟩

/-! ### The flush -/

/-- The byte `a` of the volume is the one at position `i` of the content, in the clusters of the file
or behind them in those that the allocator takes. -/
def ContentAddr (fs : FsInfo) (v : Vol) (cs : List ℕ) (i a : ℕ) : Prop :=
  ∃ c, (cs ++ freeList fs v)[i / fs.clusterSize]? = some c ∧ a = clsAddr fs c + i % fs.clusterSize

/-- **The flush hits the content**: the write gets to its flush, and the five fields at `i_pos` begin
in the old content or in what is written. -/
structure FlushHits (fs : FsInfo) (v : Vol) (inode : Inode) (cs : List ℕ) (len ppos : ℕ) : Prop where
  allowed : WriteAllowed inode len ppos
  found : WritesInside fs inode ppos → ∃ c, SeekFinds storedWord fs v inode.iStart ppos c
  hit : ∃ i, (i < inode.iSize ∨ i < ppos + len ∧ EnoughRoom storedWord fs v inode (i + 1 - ppos) ppos) ∧
    ContentAddr fs v cs i (inode.iPos + 12)

theorem FlushHits.sameFat (hp : Placed fs) {w : Vol} (h : FlushHits fs v inode cs len ppos)
    (hfat : SameFat fs v w) : FlushHits fs w inode cs len ppos := by
  have hlook := storedOrAddress_storedWord
  obtain ⟨hallow, hfound, i, hi, c, hc, haddr⟩ := h
  refine ⟨hallow, fun hin => ?_, i, ?_, c, ?_, haddr⟩
  · obtain ⟨d, hd⟩ := hfound hin
    exact ⟨d, hd.sameFat hlook hp hfat⟩
  · exact hi.imp_right fun hfits => ⟨hfits.1, hfits.2.sameFat hlook hp hfat⟩
  · rw [freeList_sameFat hfat]
    exact hc

/-- **The own slot of a file is not hit**: its cluster is in use. -/
theorem OwnSlot.not_flushHits (hp : Placed fs) (hfile : FileChain fs v inode cs)
    (hslot : OwnSlot fs v cs inode d) : ¬ FlushHits fs v inode cs len ppos := by
  rintro ⟨-, -, i, -, c, hc, haddr⟩
  have hmod := Nat.mod_lt i hp.clusterSize_pos
  have hcls : c < fatWords fs ∧ d ≠ c := by
    rcases List.mem_append.mp (List.mem_of_getElem? hc) with hmem | hmem
    · exact ⟨(hfile.row hp).lt_words c hmem, fun heq => hslot.not_mem (heq ▸ hmem)⟩
    · have hfree := beq_iff_eq.mp (List.mem_filter.mp hmem).2
      have hlt := freeFrom_lt hmem
      exact ⟨by omega, fun heq => hslot.inUse (heq ▸ hfree)⟩
  obtain ⟨blk, hblk, idx, hidx, hpos⟩ := hslot.iPos_eq
  have hmem := slotAddr_mem (d := d) hp hblk hidx
  rcases clsAddr_apart hp (hslot.lt hp) (lt_of_fatWords hp hcls.1) hcls.2 with h | h
  · omega
  · omega

/-- A position before `i` in the same cluster. -/
theorem sub_in_cluster {size i k : ℕ} (hsize : 0 < size) (hk : k ≤ i % size) :
    (i - k) / size = i / size ∧ (i - k) % size = i % size - k := by
  have hsplit := Nat.div_add_mod i size
  have hmod := Nat.mod_lt i hsize
  have hdiv : (i % size - k) / size = 0 := Nat.div_eq_of_lt (by omega)
  have hrest : (i % size - k) % size = i % size - k := Nat.mod_eq_of_lt (by omega)
  rw [show i - k = size * (i / size) + (i % size - k) by omega, Nat.mul_add_div hsize,
    Nat.mul_add_mod, hdiv, hrest]
  exact ⟨rfl, rfl⟩

/-- **A flush that hits no content** leaves all of it alone: the first byte of the fields is at a
position before each of the others. -/
theorem Written.content_flushed (hp : Placed fs) {size base : ℕ} {st : SyncWriteState}
    {inode' inode₂ : Inode} {ds : List ℕ} {v₁ : Vol}
    (h : Written fs (fileJob fs v cs size buf len ppos base) ds st v₁)
    (hrun : DataRun mayFail storedWord fs v inode buf len ppos (.ok st, inode') v₁)
    (hfound : WritesInside fs inode ppos → ∃ c, SeekFinds storedWord fs v inode.iStart ppos c)
    (hhit : ¬ FlushHits fs v inode cs len ppos) (hpos : SlotPosition fs inode₂)
    (hsame : inode₂.iPos = inode.iPos) {i : ℕ}
    (hi : i < max inode.iSize (ppos + st.accuLen)) (hdiv : i / fs.clusterSize < ds.length) :
    rowContent fs (flushed fs v₁ inode₂) ds i = rowContent fs v₁ ds i := by
  have htotal := hrun.total
  by_cases hroot : inode₂.iIno = sfatRootIno
  · rw [flushed_root hroot]
  show flushed fs v₁ inode₂ (rowExt fs ds (i / fs.clusterSize) + i % fs.clusterSize) = _
  apply flushed_outside hp.toWellFormed hpos
  by_contra hin
  have hext : rowExt fs ds (i / fs.clusterSize) = clsAddr fs ds[i / fs.clusterSize] := by
    rw [rowExt, List.getD_eq_getElem _ _ hdiv]
  obtain ⟨a, ha⟩ := clsAddr_aligned hp.toWellFormed ds[i / fs.clusterSize]
  obtain ⟨b, hb⟩ := (hpos.resolve_left hroot).1.aligned
  rw [hext] at hin
  rw [hsame] at hin hb
  -- the position of the first flushed byte
  obtain ⟨k, hk⟩ := Nat.exists_eq_add_of_le (show inode.iPos + 12 ≤
    clsAddr fs ds[i / fs.clusterSize] + i % fs.clusterSize by omega)
  have hkle : k ≤ i % fs.clusterSize := by omega
  obtain ⟨hcls, hoff⟩ := sub_in_cluster hp.clusterSize_pos hkle
  have haddr : inode.iPos + 12 =
      clsAddr fs ds[i / fs.clusterSize] + (i - k) % fs.clusterSize := by omega
  have hle := hrun.allowed.1
  refine hhit ⟨hrun.allowed, hfound, i - k, ?_, ds[i / fs.clusterSize], ?_, haddr⟩
  · by_cases hsize : i - k < inode.iSize
    · exact .inl hsize
    · have hacc : i - k + 1 - ppos ≤ st.accuLen := by omega
      have hfits := (hrun.amount storedOrAddress_storedWord hp (by omega) (by omega)).1 hacc
      exact .inr ⟨by omega, hfits⟩
  · obtain ⟨rest, hrest⟩ := h.pool
    rw [hcls]
    show (fileJob fs v cs size buf len ppos base).pool[i / fs.clusterSize]? = _
    rw [← hrest, List.getElem?_append_left hdiv, List.getElem?_eq_getElem hdiv]

/-! ### When the content is right -/

/-- **The content after a write is right**: for every buffer and in every execution the position and
the size grow with the bytes written, and the file has these bytes and its old ones. -/
def WriteContent (mayFail : Request → Prop) (fs : FsInfo) (v : Vol) (inode : Inode)
    (len ppos : ℕ) : Prop :=
  ∀ buf : ℕ → UInt8, wp (storedWorld mayFail) (sfatSyncWrite fs inode buf len ppos) (fun r v' =>
    ∀ n, r.1 = .ok n → n ≤ len ∧ r.2.2 = ppos + n ∧ r.2.1.iSize = max inode.iSize (ppos + n) ∧
      ∀ i < r.2.1.iSize, fileContent fs v' r.2.1.iStart i =
        patch (fileContent fs v inode.iStart) ppos n buf i) v

/-- The content of the clusters is that of the file, also after the flush. -/
theorem FileWritten.content (hp : Placed fs) (hfile : FileChain fs v inode cs)
    (hpos : SlotPosition fs inode) (hhit : ¬ FlushHits fs v inode cs len ppos)
    {st : SyncWriteState} {inode' : Inode} {v₁ v' : Vol} {t : ℕ}
    (hrun : DataRun mayFail storedWord fs v inode buf len ppos (.ok st, inode') v₁)
    (h : FileWritten fs (fileJob fs v cs inode.iSize buf len ppos ppos) st inode' v₁)
    (hv : v' = flushed fs v₁ (inode'.written fs st.ppos t) ∨ v' = v₁) {i : ℕ}
    (hi : i < max inode.iSize (ppos + st.accuLen)) :
    fileContent fs v' inode'.iStart i =
      patch (fileContent fs v inode.iStart) ppos st.accuLen buf i := by
  have hle := hrun.allowed.1
  obtain ⟨ds, hds, hstart⟩ := h
  have hhead := hstart (Nat.lt_of_le_of_lt (Nat.zero_le i) hi)
  have hdiv := hds.div_lt hp hi
  have hpos' := hrun.position_written hpos t
  have hsame := hrun.iPos_written t
  have hrow : rowContent fs v₁ ds i = patch (rowContent fs v cs) ppos st.accuLen buf i :=
    hds.content_eq i hi
  have hnew : fileContent fs v' inode'.iStart i = rowContent fs v₁ ds i := by
    rcases hv with rfl | rfl
    · have hflush := hds.row.congr (flushed_sameFat hp hpos' v₁)
      rw [hflush.fileContent_eq hhead hdiv]
      exact hds.content_flushed hp hrun (fun hin => hrun.seekFinds hin) hhit hpos' hsame hi hdiv
    · exact hds.row.fileContent_eq hhead hdiv
  rw [hnew, hrow]
  by_cases hin : ppos ≤ i ∧ i < ppos + st.accuLen
  · rw [patch_of_mem _ _ hin.1 hin.2, patch_of_mem _ _ hin.1 hin.2]
  · have hout : ∀ f : ℕ → UInt8, patch f ppos st.accuLen buf i = f i := fun f => if_neg hin
    have hsize : i < inode.iSize := by omega
    have hcov := hfile.covered hp
    have hlt : i / fs.clusterSize < cs.length := by
      rw [Nat.div_lt_iff_lt_mul hp.clusterSize_pos]
      omega
    have hfirst := (hfile.chain (by omega)).1.getElem?_zero
    rw [hout, hout, (hfile.row hp).fileContent_eq hfirst hlt]

theorem writeContent_of_not (hp : Placed fs) (hfile : FileChain fs v inode cs)
    (hpos : SlotPosition fs inode) (hmark : MarkUsed fs v)
    (hgood : ¬ AppendsInCluster fs v inode cs len ppos)
    (hhit : ¬ FlushHits fs v inode cs len ppos) : WriteContent mayFail fs v inode len ppos := by
  intro buf
  refine wp_mono (sfatSyncWrite_spec hp.toWellFormed inode buf len ppos) fun r v' hr n hn => ?_
  obtain ⟨⟨p, inode'⟩, v₁, hrun, hout⟩ := hr
  cases p with
  | error e =>
    obtain ⟨rfl, -⟩ := hout
    cases hn
  | ok st =>
    obtain ⟨t, rfl, hv⟩ := hout
    obtain rfl : st.accuLen = n := Except.ok.inj hn
    have htotal := hrun.total
    have hwritten := hrun.written hp hfile hmark hgood
    have hsize := hrun.iSize_written t
    refine ⟨by omega, hrun.ppos_accu, hsize, fun i hi => ?_⟩
    exact hwritten.content hp hfile hpos hhit hrun (hv.imp_right fun h => h.1) (hsize ▸ hi)

/-- The last cluster is found if all clusters are accepted. -/
theorem FileChain.seek_last (hp : Placed fs) (h : FileChain fs v inode cs) (hsize : 0 < inode.iSize)
    (hacc : ∀ c ∈ cs, c + 1 < fs.clusters) :
    ∃ c, SeekFinds storedWord fs v inode.iStart (inode.iSize - 1) c ∧ c ∈ cs := by
  obtain ⟨hindex, hlen⟩ := h.last_index hp hsize
  have hpred := hp.clustersPred_eq hp.clusters_pos
  have hlt : (inode.iSize - 1) / fs.clusterSize < cs.length := by omega
  refine ⟨cs[(inode.iSize - 1) / fs.clusterSize], (h.seek_iff hp hsize hlt).mpr
    ⟨List.getElem?_eq_getElem hlt, ?_, fun j _ b hb => ?_⟩, List.getElem_mem hlt⟩
  · have := hacc _ (h.chain hsize).1.head_mem
    omega
  · have := hacc b (List.mem_of_getElem? hb)
    omega

/-- **An append into a cluster**: in the clusters the new bytes come behind the room that is left. -/
theorem AppendsInCluster.written (hp : Placed fs) (hfile : FileChain fs v inode cs)
    (hmark : MarkUsed fs v) (hbad : AppendsInCluster fs v inode cs len ppos) {st : SyncWriteState}
    {inode' : Inode} {v' : Vol}
    (hrun : DataRun mayFail storedWord fs v inode buf len ppos (.ok st, inode') v') :
    FileWritten fs (fileJob fs v cs (cs.length * fs.clusterSize) buf len ppos
      (cs.length * fs.clusterSize)) st inode' v' ∧ inode'.iStart = inode.iStart := by
  have hppos := hbad.at_end
  have hsize : 0 < inode.iSize :=
    Nat.pos_of_ne_zero fun h0 => hbad.inside_cluster (by rw [h0, Nat.zero_mod])
  have hend : ¬ WritesInside fs inode ppos := by
    rw [WritesInside, and_blockSize hp.toWellFormed, hbad.whole_blocks]
    omega
  have hlen : 0 < cs.length := (hfile.last_index hp hsize).2
  have hhead := (hfile.chain hsize).1.getElem?_zero
  have hstart : Written fs (fileJob fs v cs (cs.length * fs.clusterSize) buf len ppos
      (cs.length * fs.clusterSize)) cs (syncWriteStart inode buf len ppos) v :=
    Written.start hp hfile hmark (by omega)
  cases hrun with
  | insideShort _ hin _ _ _ => exact absurd hin hend
  | insideOut _ hin _ _ _ => exact absurd hin hend
  | inside _ hin _ _ _ _ => exact absurd hin hend
  | endNotFound _ _ _ _ => exact ⟨⟨cs, hstart, fun _ => hhead⟩, rfl⟩
  | atEnd _ _ _ hseek hnew =>
    rw [hppos] at hseek
    obtain ⟨ds, hds⟩ := hnew.written hp (hstart.at _) fun _ =>
      .inl ⟨(hfile.atEnd hp hsize hseek).1, rfl, rfl⟩
    exact ⟨hds.fileWritten (fun _ => hhead) fun _ => hlen, rfl⟩
  | noCluster _ _ h0 _ => omega
  | firstShort _ _ h0 _ _ _ => omega
  | first _ _ h0 _ _ _ => omega

/-- Without failures such an append stores something. -/
theorem AppendsInCluster.stores (hp : Placed fs) (hfile : FileChain fs v inode cs)
    (hbad : AppendsInCluster fs v inode cs len ppos) {p : Except Errno SyncWriteState × Inode}
    {v₁ : Vol} (hrun : DataRun noFailure storedWord fs v inode buf len ppos p v₁) :
    ∃ st inode', p = (.ok st, inode') ∧ 0 < st.accuLen := by
  have hppos := hbad.at_end
  have hpred := hp.clustersPred_eq hp.clusters_pos
  have hsize : 0 < inode.iSize :=
    Nat.pos_of_ne_zero fun h0 => hbad.inside_cluster (by rw [h0, Nat.zero_mod])
  have hallow : WriteAllowed inode len ppos := ⟨Nat.le_of_eq hppos, hbad.len_ne⟩
  have hend : ¬ WritesInside fs inode ppos := by
    rw [WritesInside, and_blockSize hp.toWellFormed, hbad.whole_blocks]
    omega
  obtain ⟨l, hseek, hl⟩ := hfile.seek_last hp hsize hbad.accepted
  have hacc := hbad.accepted l hl
  rw [← hppos] at hseek
  have hroom : ∃ c, FirstFree fs v c := by
    by_contra hnone
    refine hbad.free fun k hk hfree => ?_
    obtain ⟨c, -, hc⟩ := exists_firstFree hk hfree
    exact hnone ⟨c, hc⟩
  obtain ⟨c, hc⟩ := hroom
  have hfits : EnoughRoom storedWord fs v inode 1 ppos := by
    refine .append hend hsize hseek ?_
    rw [clustersFor_part hp.clusterSize_pos Nat.one_ne_zero hp.clusterSize_pos]
    exact ⟨by omega, c, hc, trivial⟩
  obtain ⟨p, inode'⟩ := p
  cases p with
  | error e =>
    cases hrun with
    | rejected h => exact absurd hallow h
    | notFound _ hin _ => exact absurd hin hend
  | ok st =>
    exact ⟨st, inode', rfl, (hrun.amount storedOrAddress_storedWord hp Nat.one_ne_zero
      (Nat.pos_of_ne_zero hbad.len_ne)).2 not_canFail hfits⟩

/-- **An append into a cluster goes to another one**: the byte behind the old end stays as it was, if
no flush hits it. -/
theorem AppendsInCluster.not_writeContent (hp : Placed fs) (hfile : FileChain fs v inode cs)
    (hpos : SlotPosition fs inode) (hmark : MarkUsed fs v)
    (hhit : ¬ FlushHits fs v inode cs len ppos)
    (hbad : AppendsInCluster fs v inode cs len ppos) : ¬ WriteContent mayFail fs v inode len ppos := by
  intro h
  have hcov := hfile.covered hp
  have hppos := hbad.at_end
  have hroom : inode.iSize < cs.length * fs.clusterSize := by
    refine Nat.lt_of_le_of_ne hcov.1 fun heq => hbad.inside_cluster ?_
    rw [heq, Nat.mul_mod_left]
  -- a buffer whose first byte is not the stale one
  have hspec : wp (storedWorld noFailure) _ _ v := sfatSyncWrite_spec hp.toWellFormed inode
    (fun _ => rowContent fs v cs ppos + 1) len ppos
  obtain ⟨r, v', hcontent, p, v₁, hrun, hout⟩ := exists_quiet (h _) hspec
  obtain ⟨st, inode', rfl, hacc⟩ := hbad.stores hp hfile hrun
  obtain ⟨t, rfl, hv⟩ := hout
  obtain ⟨⟨ds, hds, hhead⟩, -⟩ := hbad.written hp hfile hmark hrun
  have hin : ppos < (inode'.written fs st.ppos t).iSize := by
    rw [hrun.iSize_written t]
    omega
  have hnew := (hcontent st.accuLen rfl).2.2.2 ppos hin
  rw [patch_of_mem _ _ (Nat.le_refl _) (by omega)] at hnew
  have hbase : ppos < max (cs.length * fs.clusterSize)
      (cs.length * fs.clusterSize + st.accuLen) := by omega
  have hdiv := hds.div_lt hp hbase
  have hhead := hhead (Nat.lt_of_le_of_lt (Nat.zero_le _) hbase)
  have hold : rowContent fs v₁ ds ppos = rowContent fs v cs ppos :=
    (hds.content_eq ppos hbase).trans (patch_of_lt _ _ (show ppos < cs.length * fs.clusterSize by omega))
  have hpos' := hrun.position_written hpos t
  have hsame := hrun.iPos_written t
  obtain rfl := hv.resolve_right fun hfail => not_canFail hfail.2
  have hflush := hds.row.congr (flushed_sameFat hp hpos' v₁)
  have hstale : fileContent fs (flushed fs v₁ (inode'.written fs st.ppos t)) inode'.iStart ppos =
      rowContent fs v cs ppos := by
    rw [hflush.fileContent_eq hhead hdiv, hds.content_flushed hp hrun (fun hin => hrun.seekFinds hin)
      hhit hpos' hsame (by omega) hdiv, hold]
  have hone : rowContent fs v cs ppos = rowContent fs v cs ppos + 1 := hstale.symm.trans hnew
  exact absurd (left_eq_add.mp hone) (by decide)

/-- The clusters after any run come from the pool and hold the file. -/
theorem DataRun.pool (hp : Placed fs) (hfile : FileChain fs v inode cs) (hmark : MarkUsed fs v)
    {st : SyncWriteState} {inode' : Inode} {v' : Vol}
    (hrun : DataRun mayFail storedWord fs v inode buf len ppos (.ok st, inode') v') {i : ℕ}
    (hi : i < max inode.iSize (ppos + st.accuLen)) :
    ∃ ds, ClusterRow fs v' ds ∧ ds <+: cs ++ freeList fs v ∧ ds[0]? = some inode'.iStart ∧
      i / fs.clusterSize < ds.length := by
  by_cases hbad : AppendsInCluster fs v inode cs len ppos
  · have hcov := hfile.covered hp
    have hppos := hbad.at_end
    obtain ⟨⟨ds, hds, hhead⟩, -⟩ := hbad.written hp hfile hmark hrun
    have hi : i < max (cs.length * fs.clusterSize) (cs.length * fs.clusterSize + st.accuLen) := by
      omega
    exact ⟨ds, hds.row, hds.pool, hhead (Nat.lt_of_le_of_lt (Nat.zero_le i) hi), hds.div_lt hp hi⟩
  · obtain ⟨ds, hds, hhead⟩ := hrun.written hp hfile hmark hbad
    exact ⟨ds, hds.row, hds.pool, hhead (Nat.lt_of_le_of_lt (Nat.zero_le i) hi), hds.div_lt hp hi⟩

/-- The first byte of the fields is that of the time of creation. -/
theorem flushEntry_ctime (b : Page) (pos : ℕ) (inode : Inode) :
    flushEntry b pos inode (pos + 12) = le32Bytes inode.iCtime 0 := by
  have hput : ∀ (c : Page) (k x : ℕ), 12 < k → putLe32 c (pos + k) x (pos + 12) = c (pos + 12) :=
    fun c k x h => patch_of_lt _ _ (by omega)
  have hctime : ∀ c : Page, putLe32 c (pos + 12) inode.iCtime (pos + 12) = le32Bytes inode.iCtime 0 := by
    intro c
    rw [putLe32, patch_of_mem _ _ (Nat.le_refl _) (by omega), Nat.sub_self]
  rw [flushEntry, hput _ 20 _ (by omega), hput _ 16 _ (by omega), hctime]

/-- **A flush that hits the content is seen**: neither the old byte nor the written one is that of the
time of creation, in a volume and a buffer that have others. -/
theorem FlushHits.not_writeContent (hp : Placed fs) (hfile : FileChain fs v inode cs)
    (hroot : inode.iIno ≠ sfatRootIno) (hpos : SlotPosition fs inode) (hmark : MarkUsed fs v)
    (hhit : FlushHits fs v inode cs len ppos) :
    ¬ ∀ w, SameFat fs v w → WriteContent mayFail fs w inode len ppos := by
  intro h
  obtain ⟨hallow, hfound, i, hi, c, hc, haddr⟩ := hhit
  obtain ⟨haligned, hdata⟩ := hpos.resolve_left hroot
  have hlook := storedOrAddress_storedWord
  have hle := hallow.1
  generalize hx : le32Bytes inode.iCtime 0 = x
  generalize hw : patch v (inode.iPos + 12) 1 (fun _ => x + 1) = w
  have hfat : SameFat fs v w := hw ▸ SameFat.of_patch hp _ (by omega)
  have hspec : wp (storedWorld noFailure) _ _ w :=
    sfatSyncWrite_spec hp.toWellFormed inode (fun _ => x + 1) len ppos
  obtain ⟨r, v', hcontent, ⟨p, inode'⟩, v₁, hrun, hout⟩ := exists_quiet (h w hfat _) hspec
  cases p with
  | error e =>
    cases hrun with
    | rejected hreject => exact hreject hallow
    | notFound _ hin hmiss =>
      obtain ⟨d, hd⟩ := hfound hin
      exact hmiss.resolve_right not_canFail d (hd.sameFat hlook hp hfat)
  | ok st =>
    obtain ⟨t, rfl, hv⟩ := hout
    obtain rfl := hv.resolve_right fun hfail => not_canFail hfail.2
    -- the position is in the content after the write
    have hi' : i < max inode.iSize (ppos + st.accuLen) := by
      rcases hi with hsize | ⟨hlen, hfits⟩
      · omega
      · by_cases hsize : i < inode.iSize
        · omega
        · have hacc := (hrun.amount hlook hp (show i + 1 - ppos ≠ 0 by omega) (by omega)).2
            not_canFail (hfits.sameFat hlook hp hfat)
          omega
    have hmark' : MarkUsed fs w := fun hlt => by
      rw [hfat _ hlt]
      exact hmark hlt
    obtain ⟨ds, hrow, ⟨rest, hrest⟩, hhead, hdiv⟩ :=
      hrun.pool hp (hfile.sameFat hp hfat) hmark' hi'
    have hpos' := hrun.position_written hpos t
    have hsame := hrun.iPos_written t
    have hsize := hrun.iSize_written t
    have hroot' : (inode'.written fs st.ppos t).iIno ≠ sfatRootIno := by
      rw [hrun.iIno_written t]
      exact hroot
    have hctime : (inode'.written fs st.ppos t).iCtime = inode.iCtime := by
      rw [hrun.inode_eq]
      rfl
    have hget : ds[i / fs.clusterSize]? = some c := by
      rw [← hc, ← freeList_sameFat hfat, ← hrest, List.getElem?_append_left hdiv]
    have hflush := hrow.congr (flushed_sameFat hp hpos' v₁)
    have hnew : fileContent fs (flushed fs v₁ (inode'.written fs st.ppos t)) inode'.iStart i = x := by
      rw [hflush.fileContent_eq hhead hdiv, ← hx, ← hctime,
        flushed_aligned hp.toWellFormed hroot' (hpos'.resolve_left hroot').1]
      show flushEntry v₁ _ _ (rowExt fs ds (i / fs.clusterSize) + i % fs.clusterSize) = _
      rw [rowExt, List.getD_eq_getElem?_getD, hget, Option.getD_some, ← haddr, ← hsame]
      exact flushEntry_ctime v₁ _ _
    have hexpect := (hcontent st.accuLen rfl).2.2.2 i (hsize ▸ hi')
    have hvalue : patch (fileContent fs w inode.iStart) ppos st.accuLen (fun _ => x + 1) i = x + 1 := by
      by_cases hin : ppos ≤ i ∧ i < ppos + st.accuLen
      · exact patch_of_mem _ _ hin.1 hin.2
      · have hout : ∀ f : ℕ → UInt8, patch f ppos st.accuLen (fun _ => x + 1) i = f i :=
          fun f => if_neg hin
        have hsize : i < inode.iSize := by omega
        have hcov := hfile.covered hp
        have hlt : i / fs.clusterSize < cs.length := by
          rw [Nat.div_lt_iff_lt_mul hp.clusterSize_pos]
          omega
        have hfile' := hfile.sameFat hp hfat
        have hfirst := (hfile'.chain (by omega)).1.getElem?_zero
        rw [hout, (hfile'.row hp).fileContent_eq hfirst hlt]
        show w (rowExt fs cs (i / fs.clusterSize) + i % fs.clusterSize) = _
        rw [List.getElem?_append_left hlt] at hc
        rw [rowExt, List.getD_eq_getElem?_getD, hc, Option.getD_some, ← haddr, ← hw]
        exact patch_of_mem _ _ (Nat.le_refl _) (by omega)
    have hone : x = x + 1 := hnew.symm.trans (hexpect.trans hvalue)
    exact absurd (left_eq_add.mp hone) (by decide)

/-- **When the content after a write is right**: on all volumes with this FAT, whatever fails, exactly
if the write is no append into a cluster and its flush hits no content. -/
theorem write_content_iff (hp : Placed fs) (hfile : FileChain fs v inode cs)
    (hroot : inode.iIno ≠ sfatRootIno) (hpos : SlotPosition fs inode) (hmark : MarkUsed fs v) :
    (∀ w, SameFat fs v w → WriteContent mayFail fs w inode len ppos) ↔
      ¬ AppendsInCluster fs v inode cs len ppos ∧ ¬ FlushHits fs v inode cs len ppos := by
  constructor
  · intro h
    have hhit : ¬ FlushHits fs v inode cs len ppos :=
      fun hhit => hhit.not_writeContent hp hfile hroot hpos hmark h
    refine ⟨fun hbad => ?_, hhit⟩
    exact hbad.not_writeContent hp hfile hpos hmark hhit (h v (SameFat.refl fs v))
  · rintro ⟨hgood, hhit⟩ w hfat
    apply writeContent_of_not hp (hfile.sameFat hp hfat) hpos
    · intro hlt
      rw [hfat _ hlt]
      exact hmark hlt
    · exact fun hbad => hgood (hbad.sameFat hfat.symm)
    · exact fun hw => hhit (hw.sameFat hp hfat.symm)

end Whole

/-! ### A file of one block -/

/-- The formatted volume with a file in the cluster 1. -/
def oneClusterVolume : Vol :=
  setFatWord sbi31.fsInfo (formatVolume layout31 fun _ => 0) 1 sfatEntryEoc

def oneBlockFile : Inode :=
  { Inode.fresh ⟨1, sfatAttrNone, 6656⟩ with
    iIno := 6
    iSize := 512 }

theorem oneBlockFile_chain : FileChain sbi31.fsInfo oneClusterVolume oneBlockFile [1] where
  chain _ := by
    refine ⟨.stop (by decide +kernel), ?_⟩
    decide +kernel
  length_eq := by decide +kernel

theorem oneBlockFile_slot : OwnSlot sbi31.fsInfo oneClusterVolume [1] oneBlockFile 0 where
  iIno_ne := by decide
  lt_clusters := by decide
  inUse := by decide +kernel
  not_mem := by decide
  iPos_eq := ⟨0, by decide, 0, by decide, by decide +kernel⟩

theorem oneClusterVolume_mark : MarkUsed sbi31.fsInfo oneClusterVolume :=
  fun h => absurd h (by decide)

theorem write_content_iff_oneBlock :
    (∀ w, SameFat sbi31.fsInfo oneClusterVolume w →
        WriteContent noFailure sbi31.fsInfo w oneBlockFile 1 0) ↔
      ¬ AppendsInCluster sbi31.fsInfo oneClusterVolume oneBlockFile [1] 1 0 ∧
        ¬ FlushHits sbi31.fsInfo oneClusterVolume oneBlockFile [1] 1 0 :=
  write_content_iff placed31 oneBlockFile_chain (by decide) (oneBlockFile_slot.position placed31)
    oneClusterVolume_mark

/-- **A byte appended to a file of 512 bytes is not at position 512**: it goes to a new cluster. -/
theorem write_content_fails :
    ¬ WriteContent noFailure sbi31.fsInfo oneClusterVolume oneBlockFile 1 512 := by
  have hfree : ¬ NoneFree sbi31.fsInfo oneClusterVolume := fun h =>
    h 2 (by decide) (by decide +kernel)
  refine AppendsInCluster.not_writeContent placed31 oneBlockFile_chain
    (oneBlockFile_slot.position placed31) oneClusterVolume_mark
    (oneBlockFile_slot.not_flushHits placed31 oneBlockFile_chain) ⟨?_, ?_, ?_, ?_, ?_, hfree⟩
  · decide
  · decide
  · decide
  · decide
  · decide

end SimpleFat

import SimpleFat.DirectoryPath
import SimpleFat.WriteRun

/-!
# How much a write stores

A write stores its bytes one after another.  So it stores `n` of them exactly if the clusters that
`n` bytes fill are there: the walk over the chain has to find them, or the allocator behind the
chain, each linked to the one before it.

* `freeList` — the words that the allocator takes, in their order;
* `DataRun.ppos_accu`, `DataRun.total` — the position and what is left to write;
* `LinksFor`, `RoomFor`, `EnoughRoom` — the clusters that are there;
* `DataRun.amount` — a run stores `n` bytes only if they fit, and then it does unless something fails.
-/

namespace SimpleFat

open SimpleFat.Lib

variable {mayFail : Request → Prop} {look : (blk pos : ℕ) → Page → ℕ} {fs : FsInfo} {v v' : Vol}
  {st st' : SyncWriteState} {start cur c : ℕ}

/-! ### Free words -/

def freeFrom (fs : FsInfo) (v : Vol) (k n : ℕ) : List ℕ :=
  (List.range' k n).filter fun c => fatWord fs v c == sfatEntryFree

def freeList (fs : FsInfo) (v : Vol) : List ℕ := freeFrom fs v 0 (fatWords fs)

theorem freeList_sameFat (h : SameFat fs v v') : freeList fs v' = freeList fs v := by
  refine List.filter_congr fun c hc => ?_
  obtain ⟨-, hlt⟩ := List.mem_range'_1.mp hc
  rw [h c (by omega)]

theorem freeFrom_split {k n c : ℕ} (hk : k ≤ c) (hc : c < k + n) :
    freeFrom fs v k n = freeFrom fs v k (c - k) ++
      (if fatWord fs v c = sfatEntryFree then [c] else []) ++
      freeFrom fs v (c + 1) (k + n - (c + 1)) := by
  have hrange : List.range' k n =
      List.range' k (c - k) ++ ([c] ++ List.range' (c + 1) (k + n - (c + 1))) := by
    have hn : n = (c - k) + (1 + (k + n - (c + 1))) := by omega
    rw [hn, ← List.range'_append_1, ← List.range'_append_1, List.range'_one,
      show k + (c - k) = c by omega]
    congr 4
    omega
  rw [freeFrom, hrange, List.filter_append, List.filter_append, List.append_assoc, freeFrom, freeFrom]
  congr 2
  split
  · rename_i hfree
    rw [List.filter_singleton, hfree]
    rfl
  · rename_i hfree
    rw [List.filter_singleton, beq_eq_false_iff_ne.mpr hfree]
    rfl

theorem freeFrom_nil {k n : ℕ} (h : ∀ c, k ≤ c → c < k + n → fatWord fs v c ≠ sfatEntryFree) :
    freeFrom fs v k n = [] := by
  refine List.filter_eq_nil_iff.mpr fun c hc => ?_
  obtain ⟨hk, hn⟩ := List.mem_range'_1.mp hc
  simpa using h c hk hn

theorem freeFrom_lt {k n c : ℕ} (hc : c ∈ freeFrom fs v k n) : c < k + n :=
  (List.mem_range'_1.mp (List.mem_filter.mp hc).1).2

/-- The words behind the first free one. -/
def freeAfter (fs : FsInfo) (v : Vol) (c : ℕ) : List ℕ := freeFrom fs v (c + 1) (fatWords fs - (c + 1))

theorem freeList_firstFree {c : ℕ} (hc : FirstFree fs v c) :
    freeList fs v = c :: freeAfter fs v c := by
  rw [freeList, freeFrom_split (Nat.zero_le c) (by have := hc.1; omega), if_pos hc.2.1,
    freeFrom_nil fun d _ hd => hc.2.2 d (by omega), Nat.zero_add]
  rfl

theorem freeList_noneFree (h : NoneFree fs v) : freeList fs v = [] :=
  freeFrom_nil fun c _ hc => h c (by omega)

/-- After a cluster was taken, the free words behind it are left. -/
theorem freeList_of_taken {c : ℕ} (hc : FirstFree fs v c) (hself : fatWord fs v' c ≠ sfatEntryFree)
    (hother : ∀ d < fatWords fs, d ≠ c →
      (fatWord fs v' d = sfatEntryFree ↔ fatWord fs v d = sfatEntryFree)) :
    freeList fs v' = freeAfter fs v c := by
  rw [freeList, freeFrom_split (Nat.zero_le c) (by have := hc.1; omega), if_neg hself,
    freeFrom_nil fun d _ hd => ?_, Nat.zero_add, freeAfter]
  · refine List.filter_congr fun d hd => ?_
    obtain ⟨hlo, hhi⟩ := List.mem_range'_1.mp hd
    rw [Bool.eq_iff_iff, beq_iff_eq, beq_iff_eq]
    exact hother d (by omega) (by omega)
  · have hlt : d < c := by omega
    rw [ne_eq, hother d (Nat.lt_trans hlt hc.1) (by omega)]
    exact hc.2.2 d hlt

/-- After a cluster was taken, and data was written. -/
theorem freeList_of_acquired (hc : FirstFree fs v c)
    (hfat : SameFat fs (setFatWord fs v c sfatEntryEoc) v') : freeList fs v' = freeAfter fs v c := by
  refine freeList_of_taken hc ?_ fun d hd hdc => ?_
  · rw [hfat c hc.1, fatWord_setFatWord]
    decide
  · rw [hfat d hd, fatWord_setFatWord_ne hdc]

/-- After a cluster was linked, the free words behind it are left. -/
theorem freeList_of_linked {c cur : ℕ} (hc : FirstFree fs v c)
    (hcur : fatWord fs v cur ≠ sfatEntryFree) (hmark : c % 2 ^ 32 ≠ sfatEntryFree)
    (hfat : SameFat fs (clusterLinked fs v cur c) v') : freeList fs v' = freeAfter fs v c := by
  have hne : cur ≠ c := fun heq => hcur (heq ▸ hc.2.1)
  refine freeList_of_taken hc ?_ fun d hd hdc => ?_
  · rw [hfat c hc.1, clusterLinked, fatWord_setFatWord_ne (Ne.symm hne), fatWord_setFatWord]
    decide
  · rw [hfat d hd, clusterLinked]
    by_cases hdcur : d = cur
    · rw [hdcur, fatWord_setFatWord]
      exact ⟨fun h => absurd h hmark, fun h => absurd h hcur⟩
    · rw [fatWord_setFatWord_ne hdcur, fatWord_setFatWord_ne hdc]

/-! ### Rounds -/

/-- The clusters that `len` bytes fill. -/
def clustersFor (fs : FsInfo) (len : ℕ) : ℕ := (len + (fs.clusterSize - 1)) / fs.clusterSize

theorem clustersFor_zero (hpos : 0 < fs.clusterSize) : clustersFor fs 0 = 0 := by
  rw [clustersFor, Nat.zero_add]
  exact Nat.div_eq_of_lt (by omega)

theorem clustersFor_step (hpos : 0 < fs.clusterSize) {len : ℕ} (hlen : len ≠ 0) :
    clustersFor fs len = clustersFor fs (len - min len fs.clusterSize) + 1 := by
  rcases Nat.le_total len fs.clusterSize with hle | hle
  · rw [Nat.min_eq_left hle, Nat.sub_self, clustersFor_zero hpos, clustersFor]
    exact Nat.div_eq_of_lt_le (by omega) (by omega)
  · have hmore : len + (fs.clusterSize - 1) = len - fs.clusterSize + (fs.clusterSize - 1) +
      fs.clusterSize := by omega
    rw [Nat.min_eq_right hle, clustersFor, clustersFor, hmore, Nat.add_div_right _ hpos]

/-- No round is left exactly if no byte is. -/
theorem clustersFor_eq_zero (hpos : 0 < fs.clusterSize) {len : ℕ} : clustersFor fs len = 0 ↔ len = 0 := by
  constructor
  · intro h
    by_contra hlen
    rw [clustersFor_step hpos hlen] at h
    omega
  · rintro rfl
    exact clustersFor_zero hpos

theorem clustersFor_part (hpos : 0 < fs.clusterSize) {n : ℕ} (hn : n ≠ 0) (hle : n ≤ fs.clusterSize) :
    clustersFor fs n = 1 := by
  rw [clustersFor_step hpos hn, Nat.min_eq_left hle, Nat.sub_self, clustersFor_zero hpos]

/-! ### Data is not in the FAT -/

theorem sameFat_chunk (hp : Placed fs) {st : SyncWriteState} (hc : st.curCls < 2 ^ 32)
    (offset n : ℕ) : SameFat fs v (chunkWritten fs st offset n v) := by
  have hdata := dataStart_le_clsAddr hp hc
  exact SameFat.of_patch hp _ (by omega)

theorem clusterLinked_sameFat (h : SameFat fs v v') (cur c : ℕ) :
    SameFat fs (clusterLinked fs v cur c) (clusterLinked fs v' cur c) :=
  (h.setFatWord c sfatEntryEoc).setFatWord cur c

/-! ### Lookups and seeks -/

theorem SeekFinds.start_lt (hp : Placed fs) {pos : ℕ} (h : SeekFinds look fs v start pos c) :
    start < sfatEntryMax := by
  have hpred := hp.clustersPred_eq hp.clusters_pos
  have hclusters := hp.clusters_lt
  have hstart := h.1
  omega

theorem SeekFinds.lt (hp : Placed fs) {pos : ℕ} (h : SeekFinds look fs v start pos c) :
    c < 2 ^ 32 := by
  have hclusters := hp.clusters_lt
  have hstart := h.start_lt hp
  have hlinked := h.2
  rw [sfatEntryMax] at hclusters hstart
  cases hn : pos / fs.clusterSize with
  | zero =>
    rw [hn] at hlinked
    have hc : start = c := Option.some.inj hlinked
    omega
  | succ n =>
    rw [hn, linked_succ] at hlinked
    obtain ⟨d, -, hd⟩ := Option.bind_eq_some_iff.mp hlinked
    obtain ⟨-, -, hle⟩ := nextCls_some hd
    omega

theorem SeekFinds.sameFat (hlook : StoredOrAddress look) (hp : Placed fs) {pos : ℕ}
    (h : SeekFinds look fs v start pos c) (hfat : SameFat fs v v') :
    SeekFinds look fs v' start pos c := by
  have hpred := hp.clustersPred_eq hp.clusters_pos
  refine ⟨h.1, linked_mono (fun a b hab => ?_) h.2⟩
  obtain ⟨ha, hb, hle⟩ := nextCls_some hab
  have hword := hlook.congr hp.toWellFormed (hfat a (lt_fatWords hp (by omega)))
  rw [nextCls, hword, hb, if_neg (by omega), if_neg (by omega)]

/-- A write inside the file has found its cluster. -/
theorem DataRun.seekFinds {inode inode' : Inode} {buf : ℕ → UInt8} {len ppos : ℕ}
    (hrun : DataRun mayFail look fs v inode buf len ppos (.ok st, inode') v')
    (hin : WritesInside fs inode ppos) : ∃ c, SeekFinds look fs v inode.iStart ppos c := by
  cases hrun with
  | insideShort _ _ hseek _ _ => exact ⟨_, hseek⟩
  | insideOut _ _ hseek _ _ => exact ⟨_, hseek⟩
  | inside _ _ hseek _ _ _ => exact ⟨_, hseek⟩
  | endNotFound _ hout _ _ => exact absurd hin hout
  | atEnd _ hout _ _ _ => exact absurd hin hout
  | noCluster _ hout _ _ => exact absurd hin hout
  | firstShort _ hout _ _ _ _ => exact absurd hin hout
  | first _ hout _ _ _ _ => exact absurd hin hout

/-! ### What is left to write -/

theorem advance_total {st : SyncWriteState} {n c : ℕ} (hn : n ≤ st.len) :
    ((st.at c).advance n).accuLen + ((st.at c).advance n).len = st.accuLen + st.len := by
  show st.accuLen + n + (st.len - n) = _
  omega

theorem chunkLen_le (st : SyncWriteState) (offset : ℕ) : chunkLen fs st offset ≤ st.len :=
  Nat.min_le_left _ _

theorem NewRun.total (hrun : NewRun mayFail fs st v st' v') :
    st'.accuLen + st'.len = st.accuLen + st.len := by
  induction hrun with
  | done _ => rfl
  | noCluster _ _ => rfl
  | unlinked _ _ _ => rfl
  | short _ _ _ hn _ => exact advance_total (Nat.le_trans (Nat.le_of_lt hn) (chunkLen_le _ 0))
  | more _ _ _ _ ih => exact ih.trans (advance_total (chunkLen_le _ 0))

/-- The state in which the walk ends. -/
def Loop.state : Loop SyncWriteState SyncWriteState → SyncWriteState
  | .out st => st
  | .next st => st

theorem ExistingRun.total {r : Loop SyncWriteState SyncWriteState}
    (hrun : ExistingRun mayFail look fs st v r v') :
    r.state.accuLen + r.state.len = st.accuLen + st.len := by
  induction hrun with
  | done _ => rfl
  | refused _ _ => rfl
  | ended _ _ _ => rfl
  | short _ _ _ _ hn _ => exact advance_total (Nat.le_trans (Nat.le_of_lt hn) (chunkLen_le _ 0))
  | more _ _ _ _ _ ih => exact ih.trans (advance_total (chunkLen_le _ 0))

theorem DataRun.total {inode inode' : Inode} {buf : ℕ → UInt8} {len ppos : ℕ}
    (hrun : DataRun mayFail look fs v inode buf len ppos (.ok st, inode') v') :
    st.accuLen + st.len = len := by
  have hstart : ∀ {c n : ℕ}, n ≤ len →
      (((syncWriteStart inode buf len ppos).at c).advance n).accuLen +
        (((syncWriteStart inode buf len ppos).at c).advance n).len = len := fun hn =>
    (advance_total hn).trans (Nat.zero_add len)
  cases hrun with
  | insideShort _ _ _ hn _ => exact hstart (Nat.le_trans (Nat.le_of_lt hn) (chunkLen_le _ _))
  | insideOut _ _ _ hn hexist =>
    exact hexist.total.trans (hstart (hn ▸ chunkLen_le _ _))
  | inside _ _ _ hn hexist hnew =>
    exact hnew.total.trans (hexist.total.trans (hstart (hn ▸ chunkLen_le _ _)))
  | endNotFound _ _ _ _ => exact Nat.zero_add len
  | atEnd _ _ _ _ hnew => exact hnew.total.trans (Nat.zero_add len)
  | noCluster _ _ _ _ => exact Nat.zero_add len
  | firstShort _ _ _ _ hn _ => exact hstart (Nat.le_trans (Nat.le_of_lt hn) (chunkLen_le _ _))
  | first _ _ _ _ hn hnew => exact hnew.total.trans (hstart (hn ▸ chunkLen_le _ _))


/-- More and more is written. -/
theorem NewRun.accuLen_le (h : NewRun mayFail fs st v st' v') :
    st.accuLen ≤ st'.accuLen := by
  induction h with
  | done _ => exact Nat.le_refl _
  | noCluster _ _ => exact Nat.le_refl _
  | unlinked _ _ _ => exact Nat.le_refl _
  | short _ _ _ _ _ => exact Nat.le_add_right _ _
  | more _ _ _ _ ih => exact Nat.le_trans (Nat.le_add_right _ _) ih

theorem ExistingRun.accuLen_le {r : Loop SyncWriteState SyncWriteState}
    (h : ExistingRun mayFail look fs st v r v') : st.accuLen ≤ r.state.accuLen := by
  induction h with
  | done _ => exact Nat.le_refl _
  | refused _ _ => exact Nat.le_refl _
  | ended _ _ _ => exact Nat.le_refl _
  | short _ _ _ _ _ _ => exact Nat.le_add_right _ _
  | more _ _ _ _ _ ih => exact Nat.le_trans (Nat.le_add_right _ _) ih

/-- A walk that goes on to new clusters with something left has come to a mark. -/
theorem ExistingRun.next_mark {r : Loop SyncWriteState SyncWriteState}
    (h : ExistingRun mayFail look fs st v r v') {st₁ : SyncWriteState} (hr : r = .next st₁)
    (hlen : st₁.len ≠ 0) : sfatEntryMax ≤ st₁.curCls := by
  induction h with
  | done h0 =>
    obtain rfl := Loop.next.inj hr
    exact absurd h0 hlen
  | refused _ _ => cases hr
  | ended _ _ hmark =>
    obtain rfl := Loop.next.inj hr
    exact hmark
  | short _ _ _ _ _ _ => cases hr
  | more _ _ _ _ _ ih => exact ih hr

theorem ExistingRun.next_refused (hp : Placed fs) {r : Loop SyncWriteState SyncWriteState}
    (h : ExistingRun mayFail look fs st v r v') {st₁ : SyncWriteState} (hr : r = .next st₁)
    (hlen : st₁.len ≠ 0) : fs.clustersPred ≤ st₁.curCls := by
  have hmark := h.next_mark hr hlen
  have hmax := hp.clusters_lt
  have hpred := hp.clustersPred_eq hp.clusters_pos
  omega

/-- The walk leaves the FAT alone. -/
theorem ExistingRun.sameFat (hp : Placed fs) {r : Loop SyncWriteState SyncWriteState}
    (hrun : ExistingRun mayFail look fs st v r v') : SameFat fs v v' := by
  induction hrun with
  | done _ => exact SameFat.refl fs _
  | refused _ _ => exact SameFat.refl fs _
  | ended _ _ _ => exact SameFat.refl fs _
  | @short st v c n _ _ _ hmax _ _ =>
    rw [sfatEntryMax] at hmax
    exact sameFat_chunk hp (show c < 2 ^ 32 by omega) 0 n
  | @more st r v v' c _ _ _ hmax _ ih =>
    rw [sfatEntryMax] at hmax
    exact (sameFat_chunk hp (show (st.at c).curCls < 2 ^ 32 from (by omega : c < 2 ^ 32)) 0 _).trans ih

theorem NewRun.stuck (hrun : NewRun mayFail fs st v st' v')
    (h : fs.clustersPred ≤ st.curCls) : st' = st := by
  cases hrun with
  | done _ => rfl
  | noCluster _ _ => rfl
  | unlinked _ _ _ => rfl
  | short _ _ hcur _ _ => omega
  | more _ _ hcur _ => omega

/-! ### The position -/

theorem advance_ppos (st : SyncWriteState) (c k : ℕ) :
    ((st.at c).advance k).ppos + st.accuLen = st.ppos + ((st.at c).advance k).accuLen := by
  show st.ppos + k + st.accuLen = st.ppos + (st.accuLen + k)
  omega

theorem NewRun.ppos_accu (hrun : NewRun mayFail fs st v st' v') :
    st'.ppos + st.accuLen = st.ppos + st'.accuLen := by
  induction hrun with
  | done _ => rfl
  | noCluster _ _ => rfl
  | unlinked _ _ _ => rfl
  | @short st v c k _ _ _ _ _ => exact advance_ppos st c k
  | @more st st' v v' c _ _ _ _ ih =>
    have hone := advance_ppos st c (chunkLen fs (st.at c) 0)
    omega

theorem ExistingRun.ppos_accu {r : Loop SyncWriteState SyncWriteState}
    (hrun : ExistingRun mayFail look fs st v r v') :
    r.state.ppos + st.accuLen = st.ppos + r.state.accuLen := by
  induction hrun with
  | done _ => rfl
  | refused _ _ => rfl
  | ended _ _ _ => rfl
  | @short st v c k _ _ _ _ _ _ => exact advance_ppos st c k
  | @more st r v v' c _ _ _ _ _ ih =>
    have hone := advance_ppos st c (chunkLen fs (st.at c) 0)
    omega

/-- The position moves by the bytes that are stored. -/
theorem DataRun.ppos_accu {inode inode' : Inode} {buf : ℕ → UInt8} {len ppos : ℕ}
    (hrun : DataRun mayFail look fs v inode buf len ppos (.ok st, inode') v') :
    st.ppos = ppos + st.accuLen := by
  have hstart := advance_ppos (syncWriteStart inode buf len ppos)
  have hzero : (syncWriteStart inode buf len ppos).accuLen = 0 := rfl
  have hppos : (syncWriteStart inode buf len ppos).ppos = ppos := rfl
  cases hrun with
  | @insideShort c m _ _ _ _ _ =>
    have hone := hstart c m
    omega
  | @insideOut c m _ _ _ _ _ _ hexist =>
    have hone := hstart c m
    have htwo : st.ppos + _ = _ + st.accuLen := hexist.ppos_accu
    omega
  | @inside c m st₁ _ _ _ _ _ _ _ hexist hnew =>
    have hone := hstart c m
    have htwo : st₁.ppos + _ = _ + st₁.accuLen := hexist.ppos_accu
    have hthree := hnew.ppos_accu
    omega
  | endNotFound _ _ _ _ => rfl
  | atEnd _ _ _ _ hnew =>
    have hone : st.ppos + 0 = ppos + st.accuLen := hnew.ppos_accu
    exact hone
  | noCluster _ _ _ _ => rfl
  | @firstShort c m _ _ _ _ _ _ =>
    have hone := hstart c m
    omega
  | @first c m _ _ _ _ _ _ _ hnew =>
    have hone := hstart c m
    have htwo := hnew.ppos_accu
    omega


/-! ### The inode that is flushed -/

section Flushed

variable {inode inode' : Inode} {buf : ℕ → UInt8} {len ppos : ℕ}

theorem DataRun.iSize_written
    (hrun : DataRun mayFail look fs v inode buf len ppos (.ok st, inode') v') (t : ℕ) :
    (inode'.written fs st.ppos t).iSize = max inode.iSize (ppos + st.accuLen) := by
  rw [hrun.inode_eq, ← hrun.ppos_accu]
  rfl

theorem DataRun.iPos_written
    (hrun : DataRun mayFail look fs v inode buf len ppos (.ok st, inode') v') (t : ℕ) :
    (inode'.written fs st.ppos t).iPos = inode.iPos := by
  rw [hrun.inode_eq]
  rfl

theorem DataRun.iIno_written
    (hrun : DataRun mayFail look fs v inode buf len ppos (.ok st, inode') v') (t : ℕ) :
    (inode'.written fs st.ppos t).iIno = inode.iIno := by
  rw [hrun.inode_eq]
  rfl

theorem DataRun.position_written (hpos : SlotPosition fs inode)
    (hrun : DataRun mayFail look fs v inode buf len ppos (.ok st, inode') v') (t : ℕ) :
    SlotPosition fs (inode'.written fs st.ppos t) :=
  hpos.congr (hrun.iIno_written t) (hrun.iPos_written t)

end Flushed

/-! ### How many bytes fit -/

/-- **The walk finds `m` more clusters behind `cur`**: the accessor accepts the one before each, and
its word is no mark. -/
def LinksFor (look : (blk pos : ℕ) → Page → ℕ) (fs : FsInfo) (v : Vol) : (m cur : ℕ) → Prop
  | 0, _ => True
  | m + 1, cur => cur < fs.clustersPred ∧ nextWord look fs v cur < sfatEntryMax ∧
    LinksFor look fs v m (nextWord look fs v cur)

/-- **There is room for `m` more clusters behind `cur`**: each is the first free one when it is taken,
and the accessor accepts the one before it. -/
def RoomFor (fs : FsInfo) : (m : ℕ) → Vol → (cur : ℕ) → Prop
  | 0, _, _ => True
  | m + 1, v, cur => cur < fs.clustersPred ∧
    ∃ c, FirstFree fs v c ∧ RoomFor fs m (clusterLinked fs v cur c) c

theorem LinksFor.sameFat (hlook : StoredOrAddress look) (hp : Placed fs) {m : ℕ}
    (h : LinksFor look fs v m cur) (hfat : SameFat fs v v') : LinksFor look fs v' m cur := by
  have hpred := hp.clustersPred_eq hp.clusters_pos
  induction m generalizing cur with
  | zero => exact trivial
  | succ m ih =>
    obtain ⟨hcur, hmax, hrest⟩ := h
    rw [LinksFor, hlook.congr hp.toWellFormed (hfat cur (lt_fatWords hp (by omega)))]
    exact ⟨hcur, hmax, ih hrest⟩

theorem RoomFor.sameFat {m : ℕ} (h : RoomFor fs m v cur) (hfat : SameFat fs v v') :
    RoomFor fs m v' cur := by
  induction m generalizing v v' cur with
  | zero => exact trivial
  | succ m ih =>
    obtain ⟨hcur, c, hc, hrest⟩ := h
    exact ⟨hcur, c, hfat.firstFree hc, ih hrest (clusterLinked_sameFat hfat cur c)⟩

/-- The clusters behind one that was taken and linked. -/
theorem roomFor_succ {m : ℕ} (hcur : cur < fs.clustersPred) (hc : FirstFree fs v c) :
    RoomFor fs (m + 1) v cur ↔ RoomFor fs m (clusterLinked fs v cur c) c := by
  constructor
  · rintro ⟨-, d, hd, hrest⟩
    rwa [hd.unique hc] at hrest
  · exact fun h => ⟨hcur, c, hc, h⟩

/-- **The loop for new clusters stores `n` bytes only if there is room**, and then it does unless
something fails. -/
theorem NewRun.amount (hp : Placed fs) (hrun : NewRun mayFail fs st v st' v') {n : ℕ}
    (hn : n ≤ st.len) :
    (st.accuLen + n ≤ st'.accuLen → RoomFor fs (clustersFor fs n) v st.curCls) ∧
    (¬ CanFail mayFail → RoomFor fs (clustersFor fs n) v st.curCls →
      st.accuLen + n ≤ st'.accuLen) := by
  have hcs := hp.clusterSize_pos
  by_cases h0 : n = 0
  · have hle := hrun.accuLen_le
    rw [h0, clustersFor_zero hcs]
    exact ⟨fun _ => trivial, fun _ _ => hle⟩
  induction hrun generalizing n with
  | done hlen => omega
  | @noCluster st v hlen hnone =>
    refine ⟨fun h => by omega, fun hquiet h => ?_⟩
    rw [clustersFor_step hcs h0] at h
    obtain ⟨-, c, hc, -⟩ := h
    exact absurd hc.2.1 (hnone.resolve_right hquiet c hc.1)
  | @unlinked st v c hlen hc hrefused =>
    refine ⟨fun h => by omega, fun hquiet h => ?_⟩
    rw [clustersFor_step hcs h0] at h
    exact absurd h.1 (Nat.not_lt_of_le (hrefused.resolve_right hquiet))
  | @short st v c k hlen hc hcur hk hfail =>
    refine ⟨fun h => ?_, fun hquiet => absurd hfail hquiet⟩
    have hmin : chunkLen fs (st.at c) 0 = min st.len fs.clusterSize := rfl
    have hacc : ((st.at c).advance k).accuLen = st.accuLen + k := rfl
    rw [clustersFor_part hcs h0 (by omega)]
    exact ⟨hcur, c, hc, trivial⟩
  | @more st st' v v' c hlen hc hcur hrun ih =>
    have hmin : chunkLen fs (st.at c) 0 = min st.len fs.clusterSize := rfl
    have hacc : ((st.at c).advance (chunkLen fs (st.at c) 0)).accuLen =
        st.accuLen + chunkLen fs (st.at c) 0 := rfl
    have hleft : ((st.at c).advance (chunkLen fs (st.at c) 0)).len =
        st.len - chunkLen fs (st.at c) 0 := rfl
    have hle := hrun.accuLen_le
    rw [clustersFor_step hcs h0, roomFor_succ hcur hc]
    by_cases hone : n ≤ fs.clusterSize
    · -- one cluster is enough
      rw [Nat.min_eq_left hone, Nat.sub_self, clustersFor_zero hcs]
      exact ⟨fun _ => trivial, fun _ _ => by omega⟩
    · have hfat : SameFat fs (clusterLinked fs v st.curCls c) (chunkWritten fs (st.at c) 0
          (chunkLen fs (st.at c) 0) (clusterLinked fs v st.curCls c)) :=
        sameFat_chunk hp (lt_of_fatWords hp hc.1) 0 _
      have hstep := ih (show n - fs.clusterSize ≤ _ by omega) (by omega)
      rw [Nat.min_eq_right (by omega)]
      refine ⟨fun h => (hstep.1 (by omega)).sameFat hfat.symm, fun hquiet h => ?_⟩
      have hrest := hstep.2 hquiet (h.sameFat hfat)
      omega

/-- **The walk over the existing clusters stores `n` bytes only if it finds the clusters**, and then
it does unless something fails. -/
theorem ExistingRun.amount (hlook : StoredOrAddress look) (hp : Placed fs)
    {r : Loop SyncWriteState SyncWriteState} (hrun : ExistingRun mayFail look fs st v r v') {n : ℕ}
    (hn : n ≤ st.len) :
    (st.accuLen + n ≤ r.state.accuLen → LinksFor look fs v (clustersFor fs n) st.curCls) ∧
    (¬ CanFail mayFail → LinksFor look fs v (clustersFor fs n) st.curCls →
      st.accuLen + n ≤ r.state.accuLen) := by
  have hcs := hp.clusterSize_pos
  by_cases h0 : n = 0
  · have hle := hrun.accuLen_le
    rw [h0, clustersFor_zero hcs]
    exact ⟨fun _ => trivial, fun _ _ => hle⟩
  induction hrun generalizing n with
  | done hlen => omega
  | @refused st v hlen hrefused =>
    have hacc : (Loop.state (.out st)).accuLen = st.accuLen := rfl
    refine ⟨fun h => by omega, fun hquiet h => ?_⟩
    rw [clustersFor_step hcs h0] at h
    exact absurd h.1 (Nat.not_lt_of_le (hrefused.resolve_right hquiet))
  | @ended st v hlen hcur hmark =>
    have hacc : (Loop.state (.next (st.at (nextWord look fs v st.curCls)))).accuLen = st.accuLen :=
      rfl
    refine ⟨fun h => by omega, fun hquiet h => ?_⟩
    rw [clustersFor_step hcs h0] at h
    exact absurd h.2.1 (Nat.not_lt_of_le hmark)
  | @short st v c m hlen hcur hc hmax hm hfail =>
    have hmin : chunkLen fs (st.at c) 0 = min st.len fs.clusterSize := rfl
    have hacc : (Loop.state (.out ((st.at c).advance m))).accuLen = st.accuLen + m := rfl
    refine ⟨fun h => ?_, fun hquiet => absurd hfail hquiet⟩
    rw [clustersFor_part hcs h0 (by omega), LinksFor, hc]
    exact ⟨Nat.lt_of_not_le hcur, hmax, trivial⟩
  | @more st r v v' c hlen hcur hc hmax hrun ih =>
    have hmin : chunkLen fs (st.at c) 0 = min st.len fs.clusterSize := rfl
    have hacc : ((st.at c).advance (chunkLen fs (st.at c) 0)).accuLen =
        st.accuLen + chunkLen fs (st.at c) 0 := rfl
    have hleft : ((st.at c).advance (chunkLen fs (st.at c) 0)).len =
        st.len - chunkLen fs (st.at c) 0 := rfl
    have hle := hrun.accuLen_le
    rw [clustersFor_step hcs h0, LinksFor, hc, and_iff_right (Nat.lt_of_not_le hcur),
      and_iff_right hmax]
    by_cases hone : n ≤ fs.clusterSize
    · rw [Nat.min_eq_left hone, Nat.sub_self, clustersFor_zero hcs]
      exact ⟨fun _ => trivial, fun _ _ => by omega⟩
    · have hc32 : c < 2 ^ 32 := by
        rw [sfatEntryMax] at hmax
        omega
      have hfat : SameFat fs v (chunkWritten fs (st.at c) 0 (chunkLen fs (st.at c) 0) v) :=
        sameFat_chunk hp hc32 0 _
      have hstep := ih (show n - fs.clusterSize ≤ _ by omega) (by omega)
      rw [Nat.min_eq_right (by omega)]
      refine ⟨fun h => (hstep.1 (by omega)).sameFat hlook hp hfat.symm, fun hquiet h => ?_⟩
      have hrest := hstep.2 hquiet (h.sameFat hlook hp hfat)
      omega

/-! ### Whole writes -/

section Whole

variable {inode inode' : Inode} {buf : ℕ → UInt8} {len ppos n : ℕ}

theorem WritesInside.size_pos (h : WritesInside fs inode ppos) : 0 < inode.iSize := by
  by_contra hzero
  rw [WritesInside, Nat.eq_zero_of_not_pos hzero, Nat.zero_and] at h
  omega

/-- **`n` bytes fit at a position**: the clusters for them are there. -/
inductive EnoughRoom (look : (blk pos : ℕ) → Page → ℕ) (fs : FsInfo) (v : Vol) (inode : Inode)
    (n ppos : ℕ) : Prop
  /-- Inside the file: behind the cluster of the position the walk finds those for the rest. -/
  | inside {c : ℕ} : WritesInside fs inode ppos → SeekFinds look fs v inode.iStart ppos c →
      LinksFor look fs v (clustersFor fs (n - min n (fs.clusterSize - ppos % fs.clusterSize))) c →
      EnoughRoom look fs v inode n ppos
  /-- At the end of the file: behind its last cluster there is room. -/
  | append {c : ℕ} : ¬ WritesInside fs inode ppos → 0 < inode.iSize →
      SeekFinds look fs v inode.iStart (ppos - 1) c → RoomFor fs (clustersFor fs n) v c →
      EnoughRoom look fs v inode n ppos
  /-- An empty file: a cluster is free, and there is room behind it. -/
  | empty {c : ℕ} : ¬ WritesInside fs inode ppos → inode.iSize = 0 → FirstFree fs v c →
      RoomFor fs (clustersFor fs (n - min n fs.clusterSize)) (setFatWord fs v c sfatEntryEoc) c →
      EnoughRoom look fs v inode n ppos

theorem EnoughRoom.sameFat (hlook : StoredOrAddress look) (hp : Placed fs)
    (h : EnoughRoom look fs v inode n ppos) (hfat : SameFat fs v v') :
    EnoughRoom look fs v' inode n ppos := by
  cases h with
  | inside hin hseek hlinks =>
    exact .inside hin (hseek.sameFat hlook hp hfat) (hlinks.sameFat hlook hp hfat)
  | append hout hsize hseek hroom =>
    exact .append hout hsize (hseek.sameFat hlook hp hfat) (hroom.sameFat hfat)
  | empty hout hzero hc hroom =>
    exact .empty hout hzero (hfat.firstFree hc) (hroom.sameFat (hfat.setFatWord _ sfatEntryEoc))

/-- The walk over the chain behind the first cluster. -/
theorem ExistingRun.fits (hlook : StoredOrAddress look) (hp : Placed fs)
    (hin : WritesInside fs inode ppos) (hn : n ≤ len) {m : ℕ}
    (hseek : SeekFinds look fs v inode.iStart ppos c)
    (hm : m = chunkLen fs ((syncWriteStart inode buf len ppos).at c) (ppos % fs.clusterSize))
    {r : Loop SyncWriteState SyncWriteState}
    (hrun : ExistingRun mayFail look fs (((syncWriteStart inode buf len ppos).at c).advance m)
      (chunkWritten fs ((syncWriteStart inode buf len ppos).at c) (ppos % fs.clusterSize) m v) r v') :
    (n ≤ r.state.accuLen → EnoughRoom look fs v inode n ppos) ∧
    (¬ CanFail mayFail → EnoughRoom look fs v inode n ppos → n ≤ r.state.accuLen) := by
  have hmod := Nat.mod_lt ppos hp.clusterSize_pos
  have hmin : m = min len (fs.clusterSize - ppos % fs.clusterSize) := hm
  have hacc : (((syncWriteStart inode buf len ppos).at c).advance m).accuLen = m := Nat.zero_add m
  have hleft : (((syncWriteStart inode buf len ppos).at c).advance m).len = len - m := rfl
  have hle := hrun.accuLen_le
  have hfat : SameFat fs v (chunkWritten fs ((syncWriteStart inode buf len ppos).at c)
      (ppos % fs.clusterSize) m v) := sameFat_chunk hp (hseek.lt hp) _ m
  have hamount := hrun.amount hlook hp
    (show n - min n (fs.clusterSize - ppos % fs.clusterSize) ≤ _ by omega)
  refine ⟨fun h => .inside hin hseek ((hamount.1 (by omega)).sameFat hlook hp hfat.symm),
    fun hquiet h => ?_⟩
  cases h with
  | inside _ hseek' hlinks =>
    obtain rfl := Option.some.inj (hseek.2.symm.trans hseek'.2)
    have hrest := hamount.2 hquiet (hlinks.sameFat hlook hp hfat)
    omega
  | append hout _ _ _ => exact absurd hin hout
  | empty hout _ _ _ => exact absurd hin hout

/-- **A write stores `n` bytes only if they fit**, and then it does unless something fails. -/
theorem DataRun.amount (hlook : StoredOrAddress look) (hp : Placed fs)
    (hrun : DataRun mayFail look fs v inode buf len ppos (.ok st, inode') v') (hn0 : n ≠ 0)
    (hn : n ≤ len) :
    (n ≤ st.accuLen → EnoughRoom look fs v inode n ppos) ∧
    (¬ CanFail mayFail → EnoughRoom look fs v inode n ppos → n ≤ st.accuLen) := by
  have hcs := hp.clusterSize_pos
  have hmod := Nat.mod_lt ppos hcs
  cases hrun with
  | @insideShort c m _ hin hseek hm hfail =>
    refine ⟨fun h => ?_, fun hquiet => absurd hfail hquiet⟩
    have hmin : chunkLen fs ((syncWriteStart inode buf len ppos).at c) (ppos % fs.clusterSize) =
      min len (fs.clusterSize - ppos % fs.clusterSize) := rfl
    have hacc : (((syncWriteStart inode buf len ppos).at c).advance m).accuLen = m := Nat.zero_add m
    refine .inside hin hseek ?_
    rw [Nat.min_eq_left (by omega), Nat.sub_self, clustersFor_zero hcs]
    exact trivial
  | insideOut _ hin hseek hm hexist => exact hexist.fits hlook hp hin hn hseek hm
  | @inside c m st₁ _ v₁ _ _ hin hseek hm hexist hnew =>
    have hfits := hexist.fits hlook hp hin hn hseek hm
    -- the loop for new clusters gets stuck at once
    have hsame : st = st₁ := by
      by_cases h0 : st₁.len = 0
      · cases hnew with
        | done _ => rfl
        | noCluster hne _ => exact absurd h0 hne
        | unlinked hne _ _ => exact absurd h0 hne
        | short hne _ _ _ _ => exact absurd h0 hne
        | more hne _ _ _ => exact absurd h0 hne
      · exact hnew.stuck (hexist.next_refused hp rfl h0)
    rw [hsame]
    exact hfits
  | endNotFound _ hout hsize hmiss =>
    have hacc : (syncWriteStart inode buf len ppos).accuLen = 0 := rfl
    refine ⟨fun h => by omega, fun hquiet h => ?_⟩
    cases h with
    | inside hin _ _ => exact absurd hin hout
    | append _ _ hseek _ => exact absurd hseek (hmiss.resolve_right hquiet _)
    | empty _ hzero _ _ => omega
  | @atEnd c st' v' _ hout hsize hseek hnew =>
    have hamount := hnew.amount hp (show n ≤ _ from hn)
    have hzero : ((syncWriteStart inode buf len ppos).at c).accuLen + n = n := Nat.zero_add n
    rw [hzero] at hamount
    refine ⟨fun h => .append hout hsize hseek (hamount.1 h), fun hquiet h => ?_⟩
    cases h with
    | inside hin _ _ => exact absurd hin hout
    | append _ _ hseek' hroom =>
      obtain rfl := Option.some.inj (hseek.2.symm.trans hseek'.2)
      exact hamount.2 hquiet hroom
    | empty _ h0 _ _ => omega
  | noCluster _ hout hzero hnone =>
    have hacc : (syncWriteStart inode buf len ppos).accuLen = 0 := rfl
    refine ⟨fun h => by omega, fun hquiet h => ?_⟩
    cases h with
    | inside hin _ _ => exact absurd hin hout
    | append _ hsize _ _ => omega
    | empty _ _ hc _ => exact absurd hc.2.1 (hnone.resolve_right hquiet _ hc.1)
  | @firstShort c m _ hout hzero hc hm hfail =>
    refine ⟨fun h => ?_, fun hquiet => absurd hfail hquiet⟩
    have hmin : chunkLen fs ((syncWriteStart inode buf len ppos).at c) 0 = min len fs.clusterSize :=
      rfl
    have hacc : (((syncWriteStart inode buf len ppos).at c).advance m).accuLen = m := Nat.zero_add m
    refine .empty hout hzero hc ?_
    rw [Nat.min_eq_left (by omega), Nat.sub_self, clustersFor_zero hcs]
    exact trivial
  | @first c m st' v' _ hout hzero hc hm hnew =>
    have hmin : m = min len fs.clusterSize := hm
    have hfat : SameFat fs (setFatWord fs v c sfatEntryEoc)
        (chunkWritten fs ((syncWriteStart inode buf len ppos).at c) 0 m
          (setFatWord fs v c sfatEntryEoc)) := sameFat_chunk hp (lt_of_fatWords hp hc.1) 0 m
    have hacc : (((syncWriteStart inode buf len ppos).at c).advance m).accuLen = m := Nat.zero_add m
    have hleft : (((syncWriteStart inode buf len ppos).at c).advance m).len = len - m := rfl
    have hle := hnew.accuLen_le
    have hamount := hnew.amount hp (show n - min n fs.clusterSize ≤ _ by omega)
    refine ⟨fun h => .empty hout hzero hc ((hamount.1 (by omega)).sameFat hfat.symm),
      fun hquiet h => ?_⟩
    cases h with
    | inside hin _ _ => exact absurd hin hout
    | append _ hsize _ _ => omega
    | empty _ _ hd hroom =>
      rw [hd.unique hc] at hroom
      have hrest := hamount.2 hquiet (hroom.sameFat hfat)
      omega

end Whole

/-! ### Writes that store nothing -/

def copyFails : Request → Prop
  | .copyFromUser _ => True
  | _ => False

section Nothing

variable {inode : Inode} {buf : ℕ → UInt8} {len ppos : ℕ}

theorem copyAndWrite_nothing {st : WriteClusterState} {data : Page} {off n : ℕ} (hn : 0 < n)
    {Q : Loop WriteClusterState (ℕ × Option Errno) → Vol → Prop}
    (h : wp (failingWorld copyFails look) (copyAndWrite fs st data off n) Q v) :
    Q (.out (st.retLen, none)) v := by
  rw [copyAndWrite, wp_copyFromUser] at h
  have hfail := h n (Nat.le_refl n) fun _ => trivial
  rw [if_pos (by omega)] at hfail
  exact (wp_done _ _ _).mp hfail

/-- A write to a cluster whose first copy fails has written nothing. -/
theorem writeCluster_nothing (hwf : WellFormed fs) (hlen : 0 < len) (cls offset : ℕ)
    {Q : ℕ × Option Errno → Vol → Prop}
    (h : wp (failingWorld copyFails look) (sfatWriteCluster fs buf len cls offset) Q v) :
    Q (0, none) v := by
  have hbs : 0 < fs.blockSize := by
    rw [hwf.blockSize_eq]
    exact Nat.two_pow_pos _
  have hmask : offset &&& (fs.blockSize - 1) < fs.blockSize := by
    have hle := Nat.and_le_right (n := offset) (m := fs.blockSize - 1)
    omega
  rw [sfatWriteCluster, wp_blkholderAlloc] at h
  have h := h (some 0) (by simp)
  simp only [] at h
  rw [wp_bind] at h
  by_cases hoff : offset &&& (fs.blockSize - 1) = 0
  · rw [hoff, writeFirstBlock, if_pos rfl] at h
    have h := (wp_done _ _ _).mp h
    change wp (failingWorld copyFails look)
      (writeWholeBlocks fs len (writeClusterStart fs buf len cls offset) >>= _) Q v at h
    obtain ⟨fuel, rfl⟩ : ∃ fuel, len = fuel + 1 := ⟨len - 1, by omega⟩
    rw [writeWholeBlocks] at h
    by_cases hle : fs.blockSize ≤ (writeClusterStart fs buf (fuel + 1) cls offset).len
    · rw [if_pos hle, wp_bind, wp_bind] at h
      have hout := (wp_done _ _ _).mp (copyAndWrite_nothing hbs h)
      exact (wp_done _ _ _).mp hout
    · rw [if_neg hle] at h
      have hne : (writeClusterStart fs buf (fuel + 1) cls offset).len ≠ 0 := Nat.succ_ne_zero fuel
      change wp (failingWorld copyFails look)
        (writeLastBlock fs (writeClusterStart fs buf (fuel + 1) cls offset)) Q v at h
      rw [writeLastBlock, if_neg hne, wp_readBlock] at h
      have h := h.1
      simp only [] at h
      rw [wp_bind] at h
      exact (wp_done _ _ _).mp (copyAndWrite_nothing (Nat.pos_of_ne_zero hne) h)
  · -- the first block is read, and its copy fails
    rw [writeFirstBlock, if_neg hoff, wp_readBlock] at h
    have hpart : 0 < min len (fs.blockSize - (offset &&& (fs.blockSize - 1))) := by omega
    exact (wp_done _ _ _).mp (copyAndWrite_nothing hpart h.1)

theorem writeChunk_nothing (hwf : WellFormed fs) (st : SyncWriteState) {offset : ℕ}
    (hlen : st.len ≠ 0)
    (hoff : offset < fs.clusterSize) {Q : Loop SyncWriteState (SyncWriteState × ℕ) → Vol → Prop}
    (h : wp (failingWorld copyFails look) (writeChunk fs st offset) Q v) :
    Q (.out (st.advance 0, 0)) v := by
  have hchunk : 0 < min st.len (fs.clusterSize - offset) := by omega
  rw [writeChunk, wp_bind] at h
  have h := writeCluster_nothing hwf hchunk _ _ h
  simp only [] at h
  rw [if_pos hchunk] at h
  exact (wp_done _ _ _).mp h

/-- The loop for new clusters, when the first copy fails. -/
theorem writeNew_nothing (hwf : WellFormed fs) (st : SyncWriteState) (hlen : st.len ≠ 0)
    {Q : Option SyncWriteState → Vol → Prop}
    (h : wp (failingWorld copyFails look) (writeNew fs st.len st) Q v) :
    ∃ st' v', st'.accuLen = st.accuLen ∧ Q (some st') v' := by
  obtain ⟨fuel, hfuel⟩ := Nat.exists_eq_succ_of_ne_zero hlen
  rw [hfuel, writeNew, if_neg hlen] at h
  simp only [wp_bind] at h
  obtain ⟨r, v₁, h, -⟩ := exists_quiet h (acquire_lookups hwf)
  cases r with
  | error e => exact ⟨st, v₁, rfl, (wp_done _ _ _).mp h⟩
  | ok c =>
    simp only [wp_bind] at h
    obtain ⟨r, v₂, h, -⟩ := exists_quiet h (modify_spec hwf st.curCls c v₁)
    cases r with
    | some e => exact ⟨st, v₂, rfl, (wp_done _ _ _).mp h⟩
    | none =>
      simp only [wp_bind] at h
      have hout := writeChunk_nothing hwf (st.at c) hlen hwf.clusterSize_pos h
      have hout := (wp_done _ _ _).mp hout
      exact ⟨(st.at c).advance 0, v₂, rfl, hout⟩

/-- **A write may store nothing** and come to its end, if it gets there at all. -/
theorem syncWriteData_nothing (hwf : WellFormed fs) (hallow : WriteAllowed inode len ppos)
    (hfound : WritesInside fs inode ppos → ∃ c, SeekFinds look fs v inode.iStart ppos c)
    {Q : Except Errno SyncWriteState × Inode → Vol → Prop}
    (h : wp (failingWorld copyFails look) (syncWriteData fs inode buf len ppos) Q v) :
    ∃ st inode' v', st.accuLen = 0 ∧ Q (.ok st, inode') v' := by
  have hreject : ¬ (inode.iSize < ppos ∨ len = 0) := by
    have hle := hallow.1
    have hlen := hallow.2
    omega
  rw [syncWriteData] at h
  simp only [] at h
  rw [if_neg hreject] at h
  by_cases hin : inode.iSize &&& (fs.blockSize - 1) ≠ 0 ∨ ppos < inode.iSize
  · rw [if_pos hin, wp_bind, writeInside, wp_bind] at h
    obtain ⟨r, v₁, h, rfl, hr⟩ := exists_quiet h (seek_spec hwf inode.iStart ppos)
    cases r with
    | error e =>
      obtain ⟨c, hc⟩ := hfound hin
      exact absurd hc (hr.resolve_right not_canFail c)
    | ok found =>
      obtain ⟨c, off⟩ := found
      obtain ⟨-, rfl⟩ := hr
      simp only [wp_bind] at h
      have h := writeChunk_nothing hwf ((syncWriteStart inode buf len ppos).at c) hallow.2
        (Nat.mod_lt ppos hwf.clusterSize_pos) h
      have h := (wp_done _ _ _).mp h
      simp only [writeRestData, wp_bind] at h
      have h := (wp_done _ _ _).mp h
      have h := (wp_done _ _ _).mp h
      exact ⟨_, _, _, rfl, h⟩
  · rw [if_neg hin, wp_bind, writeAtEnd] at h
    by_cases hsize : 0 < inode.iSize
    · rw [if_pos hsize, wp_bind] at h
      obtain ⟨r, v₁, h, rfl, -⟩ := exists_quiet h (seek_spec hwf inode.iStart (ppos - 1))
      cases r with
      | error e =>
        have h := (wp_done _ _ _).mp h
        simp only [writeRestData, wp_bind] at h
        have h := (wp_done _ _ _).mp h
        have h := (wp_done _ _ _).mp h
        exact ⟨_, _, _, rfl, h⟩
      | ok found =>
        have h := (wp_done _ _ _).mp h
        simp only [writeRestData, wp_bind] at h
        obtain ⟨st', v₂, hacc, h⟩ := writeNew_nothing hwf
          ((syncWriteStart inode buf len ppos).at found.1) hallow.2 h
        have h := (wp_done _ _ _).mp h
        have h := (wp_done _ _ _).mp h
        exact ⟨st', _, v₂, hacc, h⟩
    · rw [if_neg hsize, wp_bind] at h
      obtain ⟨r, v₁, h, -⟩ := exists_quiet h (acquire_lookups hwf)
      cases r with
      | error e =>
        have h := (wp_done _ _ _).mp h
        simp only [writeRestData, wp_bind] at h
        have h := (wp_done _ _ _).mp h
        have h := (wp_done _ _ _).mp h
        exact ⟨_, _, _, rfl, h⟩
      | ok c =>
        simp only [wp_bind] at h
        have h := writeChunk_nothing hwf ((syncWriteStart inode buf len ppos).at c) hallow.2
          hwf.clusterSize_pos h
        have h := (wp_done _ _ _).mp h
        simp only [writeRestData] at h
        have h := (wp_done _ _ _).mp h
        have h := (wp_done _ _ _).mp h
        exact ⟨_, _, _, rfl, h⟩

end Nothing

end SimpleFat

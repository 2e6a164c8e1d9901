import SimpleFat.Lib.Extents
import SimpleFat.Lib.Trail
import SimpleFat.InodeSpec
import SimpleFat.WriteSpec

/-!
# The chain of a file and its content

`fileCls` follows the stored FAT words from the first cluster of a file, and `fileContent` is the
logical content of the file: byte `i` is the byte at offset `i % cluster_size` of the cluster number
`i / cluster_size` of the chain.

`ClusterRow` is what the proofs know about the clusters of a file while it is written: each is
linked to the next one, none occurs twice and none is free.  Data writes, allocation and linking
keep it, and change the content as they should:

* `ClusterRow.content_patch` — a write to one cluster of the row;
* `ClusterRow.concat` — a newly acquired cluster, linked to the last one;
* `flushed_outside` — the flush of the inode, to whatever slot `i_pos` names.
-/

namespace SimpleFat

open SimpleFat.Lib

/-- The cluster that is `k` stored links behind a cluster. -/
def fileCls (fs : FsInfo) (v : Vol) (start : ℕ) : (k : ℕ) → ℕ
  | 0 => start
  | k + 1 => fatWord fs v (fileCls fs v start k)

def clsAddr (fs : FsInfo) (cls : ℕ) : ℕ := clsToBlk fs cls * fs.blockSize

/-- The logical content of the file that starts at a cluster. -/
def fileContent (fs : FsInfo) (v : Vol) (start : ℕ) : ℕ → UInt8 :=
  content v (fun k => clsAddr fs (fileCls fs v start k)) fs.clusterSize

/-- A well-formed chain: clusters below `clusters`, linked by their words up to the first one whose
word is the end mark. -/
def FatChain (fs : FsInfo) (v : Vol) (start : ℕ) (cs : List ℕ) : Prop :=
  PathTo (fun c => some (fatWord fs v c)) (fun c => fatWord fs v c = sfatEntryEoc) start cs ∧
    ∀ c ∈ cs, c < fs.clusters

/-- **A regular file with its chain**: as many clusters as its size needs. -/
structure FileChain (fs : FsInfo) (v : Vol) (inode : Inode) (cs : List ℕ) : Prop where
  chain : 0 < inode.iSize → FatChain fs v inode.iStart cs
  length_eq : cs.length = (inode.iSize + (fs.clusterSize - 1)) / fs.clusterSize

/-- The slot of a file: in a cluster that is in use and none of the file's own. -/
structure OwnSlot (fs : FsInfo) (v : Vol) (cs : List ℕ) (inode : Inode) (d : ℕ) : Prop where
  iIno_ne : inode.iIno ≠ sfatRootIno
  lt_clusters : d < fs.clusters
  inUse : fatWord fs v d ≠ sfatEntryFree
  not_mem : d ∉ cs
  iPos_eq : ∃ blk < fs.blkPerClus, ∃ idx < fs.direntPerBlk, inode.iPos = slotAddr fs d blk idx

/-- What `i_pos` of an inode is: nothing for the root, else a place in the data area where a slot
can be. -/
def SlotPosition (fs : FsInfo) (inode : Inode) : Prop :=
  inode.iIno = sfatRootIno ∨ SlotAligned inode.iPos ∧ fs.dataStartBlk * fs.blockSize ≤ inode.iPos

/-- Clusters in a row, each linked to the next one. -/
structure ClusterRow (fs : FsInfo) (v : Vol) (cs : List ℕ) : Prop where
  links : ∀ k c d, cs[k]? = some c → cs[k + 1]? = some d → fatWord fs v c = d
  nodup : cs.Nodup
  lt_words : ∀ c ∈ cs, c < fatWords fs
  used : ∀ c ∈ cs, fatWord fs v c ≠ sfatEntryFree

def rowExt (fs : FsInfo) (cs : List ℕ) : ℕ → ℕ := fun k => clsAddr fs (cs.getD k 0)

def rowContent (fs : FsInfo) (v : Vol) (cs : List ℕ) : ℕ → UInt8 :=
  content v (rowExt fs cs) fs.clusterSize

/-! ### Addresses of clusters -/

section Addresses

variable {fs : FsInfo}

theorem clsAddr_eq (hp : Placed fs) {c : ℕ} (hc : c < 2 ^ 32) :
    clsAddr fs c = fs.dataStartBlk * fs.blockSize + c * fs.clusterSize := by
  rw [clsAddr, hp.clsToBlk_eq hc, hp.clusterSize_blocks, Nat.add_mul, Nat.mul_assoc]

/-- Different clusters do not overlap. -/
theorem clsAddr_apart (hp : Placed fs) {c d : ℕ} (hc : c < 2 ^ 32) (hd : d < 2 ^ 32) (hne : c ≠ d) :
    clsAddr fs c + fs.clusterSize ≤ clsAddr fs d ∨ clsAddr fs d + fs.clusterSize ≤ clsAddr fs c := by
  rw [clsAddr_eq hp hc, clsAddr_eq hp hd]
  rcases Nat.lt_or_gt_of_ne hne with h | h
  · have hmul := Nat.mul_le_mul_right fs.clusterSize (show c + 1 ≤ d from h)
    rw [Nat.add_mul, Nat.one_mul] at hmul
    omega
  · have hmul := Nat.mul_le_mul_right fs.clusterSize (show d + 1 ≤ c from h)
    rw [Nat.add_mul, Nat.one_mul] at hmul
    omega

/-- The data area begins behind the FAT. -/
theorem dataStart_le_clsAddr (hp : Placed fs) {c : ℕ} (hc : c < 2 ^ 32) :
    fs.dataStartBlk * fs.blockSize ≤ clsAddr fs c := by
  rw [clsAddr_eq hp hc]
  exact Nat.le_add_right _ _

theorem lt_fatWords (hp : Placed fs) {c : ℕ} (hc : c < fs.clusters) : c < fatWords fs :=
  Nat.lt_of_lt_of_le hc hp.fat_covers

theorem lt_of_fatWords (hp : Placed fs) {c : ℕ} (hc : c < fatWords fs) : c < 2 ^ 32 :=
  Nat.lt_of_lt_of_le hc hp.fat_words

/-- A slot lies in its cluster. -/
theorem slotAddr_mem (hp : Placed fs) {d blk idx : ℕ} (hblk : blk < fs.blkPerClus)
    (hidx : idx < fs.direntPerBlk) :
    clsAddr fs d ≤ slotAddr fs d blk idx ∧
      slotAddr fs d blk idx + 32 ≤ clsAddr fs d + fs.clusterSize := by
  obtain ⟨n, -, hn, hbs⟩ := hp.blockSize_slots
  have hmul := Nat.mul_le_mul_right fs.blockSize (show blk + 1 ≤ fs.blkPerClus from hblk)
  rw [Nat.add_mul, Nat.one_mul, ← hp.clusterSize_blocks] at hmul
  rw [clsAddr, slotAddr, Nat.add_mul]
  omega

theorem clsAddr_aligned (hwf : WellFormed fs) (c : ℕ) : 32 ∣ clsAddr fs c := by
  obtain ⟨n, -, -, hbs⟩ := hwf.blockSize_slots
  rw [clsAddr, hbs, Nat.mul_left_comm]
  exact Nat.dvd_mul_right 32 _

theorem slotAddr_aligned (hwf : WellFormed fs) (cls blk idx : ℕ) : 32 ∣ slotAddr fs cls blk idx := by
  obtain ⟨n, -, -, hbs⟩ := hwf.blockSize_slots
  rw [slotAddr, hbs, Nat.mul_left_comm]
  exact Nat.dvd_add (Nat.dvd_mul_right 32 _) (Nat.dvd_mul_right 32 idx)

end Addresses

/-! ### Rows -/

section Rows

variable {fs : FsInfo} {v v' : Vol} {cs : List ℕ} {start : ℕ}

/-- The stored links visit the row. -/
theorem ClusterRow.fileCls_eq (h : ClusterRow fs v cs) (hstart : cs[0]? = some start) {k : ℕ}
    (hk : k < cs.length) : cs[k]? = some (fileCls fs v start k) := by
  induction k with
  | zero => exact hstart
  | succ k ih =>
    have hprev := ih (by omega)
    have hnext : cs[k + 1]? = some cs[k + 1] := List.getElem?_eq_getElem hk
    rw [fileCls, h.links k _ _ hprev hnext, hnext]

/-- The content of a file is that of its row. -/
theorem ClusterRow.fileContent_eq (h : ClusterRow fs v cs) (hstart : cs[0]? = some start) {i : ℕ}
    (hi : i / fs.clusterSize < cs.length) : fileContent fs v start i = rowContent fs v cs i := by
  refine content_congr (k := cs.length) (fun j hj => ?_) hi
  rw [rowExt, List.getD_eq_getElem?_getD, h.fileCls_eq hstart hj, Option.getD_some]

theorem ClusterRow.apart (hp : Placed fs) (h : ClusterRow fs v cs) :
    Apart (rowExt fs cs) fs.clusterSize cs.length := by
  intro i hi j hj hij
  have hne : cs[i] ≠ cs[j] := fun heq => hij ((List.Nodup.getElem_inj_iff h.nodup).mp heq)
  rw [rowExt, rowExt, List.getD_eq_getElem _ _ hi, List.getD_eq_getElem _ _ hj]
  exact clsAddr_apart hp (lt_of_fatWords hp (h.lt_words _ (List.getElem_mem hi)))
    (lt_of_fatWords hp (h.lt_words _ (List.getElem_mem hj))) hne

/-- A row depends on its words. -/
theorem ClusterRow.congr (h : ClusterRow fs v cs) (hfat : SameFat fs v v') : ClusterRow fs v' cs where
  links k c d hc hd := by
    rw [hfat c (h.lt_words c (List.mem_of_getElem? hc))]
    exact h.links k c d hc hd
  nodup := h.nodup
  lt_words := h.lt_words
  used c hc := by
    rw [hfat c (h.lt_words c hc)]
    exact h.used c hc

/-- **A well-formed chain is a row**: its words are links or the end mark, so none is free. -/
theorem FatChain.row (hp : Placed fs) (h : FatChain fs v start cs) : ClusterRow fs v cs where
  links k c d hc hd := Option.some.inj (h.1.getElem?_succ hc hd)
  nodup := h.1.nodup
  lt_words c hc := lt_fatWords hp (h.2 c hc)
  used c hc := by
    have hmax := hp.clusters_lt
    rw [sfatEntryMax] at hmax
    rw [sfatEntryFree]
    rcases h.1.inner hc with hend | ⟨-, d, hd, hmem⟩
    · rw [hend, sfatEntryEoc]
      decide
    · have hlt := h.2 d hmem
      rw [Option.some.inj hd]
      omega

/-- A chain depends on the words of its clusters. -/
theorem FatChain.congr (h : FatChain fs v start cs)
    (hw : ∀ c ∈ cs, fatWord fs v' c = fatWord fs v c) : FatChain fs v' start cs := by
  refine ⟨h.1.congr (fun c hc _ => ?_) fun c hc => ?_, h.2⟩
  · show some (fatWord fs v' c) = some (fatWord fs v c)
    rw [hw c hc]
  · rw [hw c hc]

theorem FatChain.sameFat (hp : Placed fs) (h : FatChain fs v start cs) (hfat : SameFat fs v v') :
    FatChain fs v' start cs :=
  h.congr fun c hc => hfat c (lt_fatWords hp (h.2 c hc))

theorem FileChain.sameFat (hp : Placed fs) {inode : Inode} (h : FileChain fs v inode cs)
    (hfat : SameFat fs v v') : FileChain fs v' inode cs where
  chain hsize := (h.chain hsize).sameFat hp hfat
  length_eq := h.length_eq

/-- The first cluster of a file that is not empty. -/
theorem FileChain.start_mem {inode : Inode} (h : FileChain fs v inode cs) (hsize : 0 < inode.iSize) :
    inode.iStart ∈ cs ∧ inode.iStart < fs.clusters := by
  have hchain := h.chain hsize
  exact ⟨hchain.1.head_mem, hchain.2 _ hchain.1.head_mem⟩

/-- **A write to one cluster of a row** is a write to its content. -/
theorem ClusterRow.content_patch (hp : Placed fs) (h : ClusterRow fs v cs) {k c off n : ℕ}
    {g : ℕ → UInt8} (hk : cs[k]? = some c) (hn : off + n ≤ fs.clusterSize) {i : ℕ}
    (hi : i / fs.clusterSize < cs.length) :
    rowContent fs (patch v (clsAddr fs c + off) n g) cs i =
      patch (rowContent fs v cs) (k * fs.clusterSize + off) n g i := by
  obtain ⟨hlt, rfl⟩ := List.getElem?_eq_some_iff.mp hk
  have haddr : clsAddr fs cs[k] = rowExt fs cs k := by
    rw [rowExt, List.getD_eq_getElem _ _ hlt]
  rw [haddr]
  exact Lib.content_patch (h.apart hp) hp.clusterSize_pos hlt hn hi

/-- Changes outside the clusters of a row. -/
theorem ClusterRow.content_agree (hp : Placed fs) {v' : Vol}
    (hagree : ∀ c ∈ cs, ∀ a, clsAddr fs c ≤ a → a < clsAddr fs c + fs.clusterSize → v' a = v a)
    {i : ℕ} (hi : i / fs.clusterSize < cs.length) : rowContent fs v' cs i = rowContent fs v cs i := by
  refine Lib.content_agree hp.clusterSize_pos (fun j hj a ha => ?_) hi
  rw [rowExt, List.getD_eq_getElem _ _ hj] at ha ⊢
  exact hagree _ (List.getElem_mem hj) a ha

/-- The FAT holds no content. -/
theorem ClusterRow.content_setFatWord (hp : Placed fs) (h : ClusterRow fs v cs) {c : ℕ}
    (hc : c < fatWords fs) (x : ℕ) {i : ℕ} (hi : i / fs.clusterSize < cs.length) :
    rowContent fs (setFatWord fs v c x) cs i = rowContent fs v cs i := by
  have hword := fatWordAddr_lt_data hp hc
  refine ClusterRow.content_agree hp (fun d hd a ha _ => ?_) hi
  have hstart := dataStart_le_clsAddr hp (lt_of_fatWords hp (h.lt_words d hd))
  exact patch_of_ge _ _ (by omega)

/-- A change of the word of another cluster. -/
theorem ClusterRow.other_word (h : ClusterRow fs v cs) {c : ℕ} (hc : c ∉ cs) (x : ℕ) :
    ClusterRow fs (setFatWord fs v c x) cs where
  links k a d ha hd := by
    have hne : a ≠ c := fun heq => hc (heq ▸ List.mem_of_getElem? ha)
    rw [fatWord_setFatWord_ne hne]
    exact h.links k a d ha hd
  nodup := h.nodup
  lt_words := h.lt_words
  used a ha := by
    have hne : a ≠ c := fun heq => hc (heq ▸ ha)
    rw [fatWord_setFatWord_ne hne]
    exact h.used a ha

/-- **A newly acquired cluster is linked to the last one.** -/
theorem ClusterRow.concat (hp : Placed fs) (h : ClusterRow fs v cs) {l c : ℕ}
    (hl : cs.getLast? = some l) (hc : FirstFree fs v c) (hmark : c ≠ sfatEntryFree) :
    ClusterRow fs (setFatWord fs (setFatWord fs v c sfatEntryEoc) l c) (cs ++ [c]) := by
  have hnot : c ∉ cs := fun hmem => h.used c hmem hc.2.1
  have hlmem : l ∈ cs := List.mem_of_getLast? hl
  have hlc : l ≠ c := fun heq => hnot (heq ▸ hlmem)
  have hlast : cs[cs.length - 1]? = some l := by rw [← List.getLast?_eq_getElem?, hl]
  have hword : ∀ a ∈ cs, a ≠ l →
      fatWord fs (setFatWord fs (setFatWord fs v c sfatEntryEoc) l c) a =
        fatWord fs v a := by
    intro a ha hal
    have hac : a ≠ c := fun heq => hnot (heq ▸ ha)
    rw [fatWord_setFatWord_ne hal, fatWord_setFatWord_ne hac]
  have hlword : fatWord fs (setFatWord fs (setFatWord fs v c sfatEntryEoc) l c) l = c :=
    fatWord_setFatWord_of_lt (lt_of_fatWords hp hc.1)
  refine ⟨fun k a d ha hd => ?_, ?_, ?_, ?_⟩
  · have hk : k + 1 < (cs ++ [c]).length := (List.getElem?_eq_some_iff.mp hd).1
    rw [List.length_append, List.length_singleton] at hk
    rw [List.getElem?_append_left (by omega)] at ha
    have hamem : a ∈ cs := List.mem_of_getElem? ha
    by_cases hkl : k + 1 = cs.length
    · obtain rfl : a = l := by
        rw [show k = cs.length - 1 by omega, hlast] at ha
        exact (Option.some.inj ha).symm
      rw [hkl, List.getElem?_append_right (Nat.le_refl _), Nat.sub_self] at hd
      rw [hlword]
      exact Option.some.inj hd
    · rw [List.getElem?_append_left (by omega)] at hd
      have hal : a ≠ l := by
        rintro rfl
        have hsame := (List.getElem?_inj (by omega) h.nodup).mp (ha.trans hlast.symm)
        omega
      rw [hword a hamem hal]
      exact h.links k a d ha hd
  · exact List.nodup_append.mpr ⟨h.nodup, List.nodup_singleton c, fun a ha b hb => by
      obtain rfl := List.mem_singleton.mp hb
      exact fun heq => hnot (heq ▸ ha)⟩
  · intro a ha
    rcases List.mem_append.mp ha with ha | ha
    · exact h.lt_words a ha
    · rw [List.mem_singleton.mp ha]
      exact hc.1
  · intro a ha
    rcases List.mem_append.mp ha with ha | ha
    · by_cases hal : a = l
      · rw [hal, hlword]
        exact hmark
      · rw [hword a ha hal]
        exact h.used a ha
    · obtain rfl := List.mem_singleton.mp ha
      rw [fatWord_setFatWord_ne (Ne.symm hlc), fatWord_setFatWord]
      decide

/-- A longer row has the same content where the shorter one has any. -/
theorem rowContent_append (ds : List ℕ) {i : ℕ} (hi : i / fs.clusterSize < cs.length) :
    rowContent fs v (cs ++ ds) i = rowContent fs v cs i := by
  refine content_congr (fun j hj => ?_) hi
  rw [rowExt, rowExt, List.getD_append _ _ _ _ hj]

end Rows

/-! ### The flush of the inode -/

section Flush

variable {fs : FsInfo} {v : Vol} {cs : List ℕ} {inode : Inode} {d : ℕ}

/-- A slot is not the end of a block. -/
theorem slotAddr_mod (hwf : WellFormed fs) {blk idx : ℕ} (hidx : idx < fs.direntPerBlk) :
    slotAddr fs d blk idx % fs.blockSize + 32 ≤ fs.blockSize := by
  obtain ⟨n, -, hn, hbs⟩ := hwf.blockSize_slots
  rw [slotAddr, Nat.mul_comm, Nat.mul_add_mod, Nat.mod_eq_of_lt (by omega)]
  omega

/-- The slot of a file does not depend on the other fields of its inode. -/
theorem OwnSlot.congr (h : OwnSlot fs v cs inode d) {inode' : Inode} (hino : inode'.iIno = inode.iIno)
    (hpos : inode'.iPos = inode.iPos) : OwnSlot fs v cs inode' d where
  iIno_ne := by rw [hino]; exact h.iIno_ne
  lt_clusters := h.lt_clusters
  inUse := h.inUse
  not_mem := h.not_mem
  iPos_eq := by rw [hpos]; exact h.iPos_eq

theorem OwnSlot.aligned (hp : Placed fs) (h : OwnSlot fs v cs inode d) : 32 ∣ inode.iPos := by
  obtain ⟨blk, -, idx, -, hpos⟩ := h.iPos_eq
  exact hpos ▸ slotAddr_aligned hp.toWellFormed d blk idx

theorem SlotPosition.congr {inode inode' : Inode} (h : SlotPosition fs inode)
    (hino : inode'.iIno = inode.iIno) (hpos : inode'.iPos = inode.iPos) : SlotPosition fs inode' := by
  rw [SlotPosition, hino, hpos]
  exact h

/-- **A flush changes five fields of the slot at `i_pos`**, and nothing else. -/
theorem flushed_outside (hwf : WellFormed fs) (hpos : SlotPosition fs inode) (v' : Vol) {a : ℕ}
    (ha : a < inode.iPos + 12 ∨ inode.iPos + 32 ≤ a) : flushed fs v' inode a = v' a := by
  by_cases hroot : inode.iIno = sfatRootIno
  · rw [flushed_root hroot]
  · rw [flushed_aligned hwf hroot (hpos.resolve_left hroot).1]
    exact flushEntry_apply v' inode.iPos inode ha

/-- The flush changes no FAT word. -/
theorem flushed_sameFat (hp : Placed fs) (hpos : SlotPosition fs inode) (v' : Vol) :
    SameFat fs v' (flushed fs v' inode) := by
  by_cases hroot : inode.iIno = sfatRootIno
  · rw [flushed_root hroot]
    exact SameFat.refl fs v'
  · have hdata := (hpos.resolve_left hroot).2
    exact SameFat.of_below hp fun a ha => flushed_outside hp.toWellFormed hpos v' (by omega)

theorem OwnSlot.lt (hp : Placed fs) (hslot : OwnSlot fs v cs inode d) : d < 2 ^ 32 :=
  lt_of_fatWords hp (lt_fatWords hp hslot.lt_clusters)

/-- The slot of a file is a place for a slot. -/
theorem OwnSlot.position (hp : Placed fs) (hslot : OwnSlot fs v cs inode d) :
    SlotPosition fs inode := by
  have hdata := dataStart_le_clsAddr hp (hslot.lt hp)
  have haligned := hslot.aligned hp
  obtain ⟨blk, hblk, idx, hidx, hpos⟩ := hslot.iPos_eq
  have hmem := slotAddr_mem (d := d) hp hblk hidx
  have hlt := slotAddr_lt hp (hslot.lt hp) hblk hidx
  rw [← hpos] at hmem hlt
  exact .inr ⟨⟨haligned, by omega⟩, by omega⟩

/-- A flush changes its own cluster only. -/
theorem flushed_apply_cluster (hp : Placed fs) (hslot : OwnSlot fs v cs inode d) (v' : Vol) {a : ℕ}
    (ha : a < clsAddr fs d ∨ clsAddr fs d + fs.clusterSize ≤ a) : flushed fs v' inode a = v' a := by
  obtain ⟨blk, hblk, idx, hidx, hpos⟩ := hslot.iPos_eq
  have hmem := slotAddr_mem (d := d) hp hblk hidx
  rw [← hpos] at hmem
  exact flushed_outside hp.toWellFormed (hslot.position hp) v' (by omega)

end Flush

end SimpleFat

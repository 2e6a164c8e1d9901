import SimpleFat.EntryPosition
import SimpleFat.FileChain

/-!
# Reading a file

`sfat_read_cluster` delivers the bytes of one cluster.  `sfat_sync_read` clips the length to the end
of the file and then to the end of the *first* cluster, from which alone it reads.

* `wp_sfatReadCluster` — the bytes that one cluster delivers;
* `readCorrect_iff` — a read is correct exactly if its position is in the first cluster, the sum of
  position and length does not wrap around and the flush goes to the slot of the file;
* `delivers_iff` — reading until 0 is returned delivers the file exactly if it has one cluster;
* `sync_read_iff` — both.
-/

namespace SimpleFat

open SimpleFat.Lib

variable {refuse : FilldirCall → Prop} {look : (blk pos : ℕ) → Page → ℕ} {fs : FsInfo} {v : Vol}

/-! ### `sfat_read_cluster` -/

def bytesAt (v : Vol) (addr n : ℕ) : List UInt8 := (List.range n).map fun i => v (addr + i)

@[simp] theorem bytesAt_zero (addr : ℕ) : bytesAt v addr 0 = [] := rfl

theorem bytesAt_length (addr n : ℕ) : (bytesAt v addr n).length = n := by
  rw [bytesAt, List.length_map, List.length_range]

theorem bytesAt_add (addr n m : ℕ) :
    bytesAt v addr (n + m) = bytesAt v addr n ++ bytesAt v (addr + n) m := by
  rw [bytesAt, List.range_add, List.map_append, List.map_map]
  congr 1
  refine List.map_congr_left fun i _ => ?_
  rw [Function.comp_apply, Nat.add_assoc]

theorem bytesAt_congr {v' : Vol} {addr n : ℕ} (h : ∀ i < n, v' (addr + i) = v (addr + i)) :
    bytesAt v' addr n = bytesAt v addr n :=
  List.map_congr_left fun i hi => h i (List.mem_range.mp hi)

/-- The loop delivers the bytes of the blocks one after another. -/
theorem wp_readClusterLoop (fuel : ℕ) {len blk off : ℕ} (out : List UInt8)
    (hoff : off < fs.blockSize) (hfuel : len ≤ fuel) (Q : List UInt8 × Option Errno → Vol → Prop) :
    wp (refusingWorld refuse look) (readClusterLoop fs fuel len blk off out) Q v ↔
      Q (out ++ bytesAt v (blk * fs.blockSize + off) len, none) v := by
  induction fuel generalizing len blk off out with
  | zero =>
    obtain rfl : len = 0 := by omega
    rw [readClusterLoop, bytesAt_zero, List.append_nil]
    exact wp_done _ _ _
  | succ fuel ih =>
    rw [readClusterLoop]
    by_cases h0 : len = 0
    · rw [if_pos h0, h0, bytesAt_zero, List.append_nil]
      exact wp_done _ _ _
    · -- the bytes of this block, and those from the next block on
      have hpage : (List.range (min len (fs.blockSize - off) - 0)).map
          (fun i => blockAt v fs.blockSize blk (off + i)) =
          bytesAt v (blk * fs.blockSize + off) (min len (fs.blockSize - off)) := by
        rw [Nat.sub_zero, bytesAt]
        refine List.map_congr_left fun i _ => ?_
        rw [blockAt, window_apply, Nat.add_assoc]
      have hrest : out ++ bytesAt v (blk * fs.blockSize + off) (min len (fs.blockSize - off)) ++
          bytesAt v ((blk + 1) * fs.blockSize + 0) (len - min len (fs.blockSize - off)) =
          out ++ bytesAt v (blk * fs.blockSize + off) len := by
        rcases Nat.le_total len (fs.blockSize - off) with hle | hle
        · rw [Nat.min_eq_left hle, Nat.sub_self, bytesAt_zero, List.append_nil]
        · have hsplit := bytesAt_add (v := v) (blk * fs.blockSize + off) (fs.blockSize - off)
            (len - (fs.blockSize - off))
          have haddr : blk * fs.blockSize + off + (fs.blockSize - off) =
              (blk + 1) * fs.blockSize + 0 := by
            rw [Nat.add_mul, Nat.one_mul]
            omega
          rw [Nat.add_sub_cancel' hle, haddr] at hsplit
          rw [Nat.min_eq_right hle, hsplit, List.append_assoc]
      rw [if_neg h0, wp_readBlock_lookups]
      simp only []
      rw [wp_copyToUser_lookups, if_neg (by simp), hpage]
      refine (ih _ (by omega) (by omega)).trans ?_
      rw [hrest]

/-- **`sfat_read_cluster` delivers the bytes of the cluster.** -/
theorem wp_sfatReadCluster (hwf : WellFormed fs) (len cls offset : ℕ)
    (Q : List UInt8 × Option Errno → Vol → Prop) :
    wp (refusingWorld refuse look) (sfatReadCluster fs len cls offset) Q v ↔
      Q (bytesAt v (clsAddr fs cls + offset) len, none) v := by
  obtain ⟨haddr, hoff⟩ := offset_block hwf.blockSize_eq cls offset
  have hloop : wp (refusingWorld refuse look) (readClusterLoop fs len len
      (clsToBlk fs cls + offset >>> fs.blockBits) (offset &&& (fs.blockSize - 1)) []) Q v ↔ _ :=
    wp_readClusterLoop len [] hoff (Nat.le_refl len) Q
  rw [haddr, List.nil_append, ← clsAddr] at hloop
  rw [sfatReadCluster, wp_blkholderAlloc_lookups]
  exact ⟨fun h => hloop.mp (h 0), fun h _ => hloop.mpr h⟩

/-! ### `sfat_sync_read` -/

/-- A length that is clipped to a limit.  The sum may wrap around. -/
def clipLen (limit len ppos : ℕ) : ℕ := if limit < (ppos + len) % sizeT then limit - ppos else len

def readLen (fs : FsInfo) (fsize len ppos : ℕ) : ℕ :=
  if fsize ≤ ppos ∨ fs.clusterSize ≤ ppos then 0
  else clipLen fs.clusterSize (clipLen fsize len ppos) ppos

/-- How a read ends: nothing happens, or the first cluster delivers and the inode is flushed. -/
def ReadOutcome (fs : FsInfo) (inode : Inode) (len ppos : ℕ) (v : Vol)
    (r : List UInt8 × Inode × ℕ) (v' : Vol) : Prop :=
  r.1 = bytesAt v (clsAddr fs inode.iStart + ppos) (readLen fs inode.iSize len ppos) ∧
    r.2.2 = ppos + readLen fs inode.iSize len ppos ∧
    (r.2.1 = inode ∧ v' = v ∨ ∃ t, r.2.1 = { inode with iAtime := t } ∧ v' = flushed fs v r.2.1)

theorem clipLen_eq {limit len ppos : ℕ} (h : ppos + len < sizeT) :
    clipLen limit len ppos = min len (limit - ppos) := by
  rw [clipLen, Nat.mod_eq_of_lt h]
  split
  · omega
  · omega

/-- A sum that wraps around is smaller than the position, and nothing is clipped. -/
theorem clipLen_wrap {limit len ppos : ℕ} (hlen : len < sizeT) (h : sizeT ≤ ppos + len)
    (hpos : ppos < sizeT) (hlimit : ppos < limit) : clipLen limit len ppos = len := by
  have hmod : (ppos + len) % sizeT = ppos + len - sizeT := by
    rw [Nat.mod_eq_sub_mod h, Nat.mod_eq_of_lt (by omega)]
  rw [clipLen, hmod, if_neg (by omega)]

theorem readLen_eq {fsize len ppos : ℕ} (h : ppos + len < sizeT) :
    readLen fs fsize len ppos = min (min len (fsize - ppos)) (fs.clusterSize - ppos) := by
  rw [readLen]
  split
  · omega
  · rw [clipLen_eq h, clipLen_eq (by omega)]

/-- A read that delivers something starts in the file, and in its first cluster. -/
theorem readLen_pos {fsize len ppos : ℕ} (h : readLen fs fsize len ppos ≠ 0) :
    ¬ fsize ≤ ppos ∧ ¬ fs.clusterSize ≤ ppos := by
  rw [readLen] at h
  split at h
  · exact absurd rfl h
  · exact not_or.mp ‹_›

/-- A read of no bytes changes nothing. -/
theorem sfatSyncRead_nothing {H : Host} {inode : Inode} {len ppos : ℕ}
    (h0 : readLen fs inode.iSize len ppos = 0) :
    wp H.world (sfatSyncRead fs inode len ppos) (fun r v' => r = ([], inode, ppos) ∧ v' = v) v := by
  rw [sfatSyncRead]
  simp only []
  by_cases hend : inode.iSize ≤ ppos
  · rw [if_pos hend]
    exact (wp_done _ _ _).mpr ⟨rfl, rfl⟩
  · rw [if_neg hend]
    by_cases hfirst : fs.clusterSize ≤ ppos
    · rw [if_pos hfirst]
      exact (wp_done _ _ _).mpr ⟨rfl, rfl⟩
    · rw [readLen, if_neg (not_or.mpr ⟨hend, hfirst⟩), clipLen, clipLen] at h0
      rw [if_neg hfirst, if_pos h0]
      exact (wp_done _ _ _).mpr ⟨rfl, rfl⟩

/-- **A read that delivers something** flushes the inode with the time of the access. -/
theorem wp_sfatSyncRead (hwf : WellFormed fs) {inode : Inode} {len ppos : ℕ}
    (hread : readLen fs inode.iSize len ppos ≠ 0)
    (hstart : inode.iStart ≤ sfatEntryMax) (Q : List UInt8 × Inode × ℕ → Vol → Prop) :
    wp (lookupWorld look) (sfatSyncRead fs inode len ppos) Q v ↔
      ∀ t, Q (bytesAt v (clsAddr fs inode.iStart + ppos) (readLen fs inode.iSize len ppos),
        { inode with iAtime := t }, ppos + readLen fs inode.iSize len ppos)
        (flushed fs v { inode with iAtime := t }) := by
  obtain ⟨hend, hfirst⟩ := readLen_pos hread
  have hlen : readLen fs inode.iSize len ppos =
      clipLen fs.clusterSize (clipLen inode.iSize len ppos) ppos := by
    rw [readLen, if_neg (not_or.mpr ⟨hend, hfirst⟩)]
  rw [hlen] at hread ⊢
  rw [sfatSyncRead]
  simp only []
  rw [if_neg hend, if_neg hfirst, ← clipLen, ← clipLen, if_neg hread, if_neg (by omega), wp_bind,
    wp_sfatReadCluster hwf]
  simp only []
  rw [wp_currentTimeSec]
  refine forall_congr' fun t => ?_
  rw [wp_bind, wp_sfatInodeWriteToHd]
  show wp (lookupWorld look) (pure _ : Driver _) Q _ ↔ _
  rw [bytesAt_length]
  exact wp_done _ _ _

theorem sfatSyncRead_spec (hwf : WellFormed fs) {inode : Inode} {len ppos : ℕ}
    (hstart : ppos < inode.iSize → inode.iStart ≤ sfatEntryMax) :
    wp (lookupWorld look) (sfatSyncRead fs inode len ppos) (ReadOutcome fs inode len ppos v) v := by
  by_cases h0 : readLen fs inode.iSize len ppos = 0
  · refine wp_mono (sfatSyncRead_nothing h0) fun r v' hr => ?_
    obtain ⟨rfl, rfl⟩ := hr
    refine ⟨?_, ?_, .inl ⟨rfl, rfl⟩⟩
    · rw [h0]
      rfl
    · rw [h0]
      rfl
  · have hend := (readLen_pos h0).1
    exact (wp_sfatSyncRead hwf h0 (hstart (by omega)) _).mpr fun t => ⟨rfl, rfl, .inr ⟨t, rfl, rfl⟩⟩

/-- **What a read should do**: deliver at least one byte of the file from the position on, and change
nothing but the fields of the file's own slot, at the address `pos`. -/
def ReadCorrect (look : (blk pos : ℕ) → Page → ℕ) (fs : FsInfo) (v : Vol) (inode : Inode)
    (pos len ppos : ℕ) : Prop :=
  wp (lookupWorld look) (sfatSyncRead fs inode len ppos) (fun r v' =>
    (0 < r.1.length ∧ r.1.length ≤ min len (inode.iSize - ppos)) ∧
    (∀ i < r.1.length, r.1[i]? = some (fileContent fs v inode.iStart (ppos + i))) ∧
    r.2.2 = ppos + r.1.length ∧
    ∀ a, a < pos + 12 ∨ pos + 32 ≤ a → v' a = v a) v

/-- Reading from a position until 0 is returned, with any lengths that do not wrap around; the bytes
of all calls. -/
inductive ReadsOut (look : (blk pos : ℕ) → Page → ℕ) (fs : FsInfo) :
    Inode → ℕ → Vol → List UInt8 → Prop
  | done {inode inode' : Inode} {len ppos ppos' : ℕ} {v v' : Vol} {tr : List Request} : 0 < len →
      ppos + len < sizeT →
      Exec (lookupWorld look) (sfatSyncRead fs inode len ppos) v tr ([], inode', ppos') v' →
      ReadsOut look fs inode ppos v []
  | more {inode inode' : Inode} {len ppos ppos' : ℕ} {v v' : Vol} {tr : List Request}
      {out rest : List UInt8} : 0 < len → ppos + len < sizeT → out ≠ [] →
      Exec (lookupWorld look) (sfatSyncRead fs inode len ppos) v tr (out, inode', ppos') v' →
      ReadsOut look fs inode' ppos' v' rest → ReadsOut look fs inode ppos v (out ++ rest)

def DeliversFile (look : (blk pos : ℕ) → Page → ℕ) (fs : FsInfo) (v : Vol) (inode : Inode) : Prop :=
  ∀ data, ReadsOut look fs inode 0 v data →
    data = (List.range inode.iSize).map (fileContent fs v inode.iStart)

/-! ### When reads are correct -/

section Correct

variable {inode : Inode} {cs : List ℕ} {d pos len ppos : ℕ}

theorem FileChain.start_le_max (hp : Placed fs) (h : FileChain fs v inode cs)
    (hpos : ppos < inode.iSize) : inode.iStart ≤ sfatEntryMax :=
  Nat.le_of_lt (Nat.lt_trans (h.start_mem (by omega)).2 hp.clusters_lt)

/-- A file is not larger than all clusters together. -/
theorem FileChain.iSize_le (hp : Placed fs) (h : FileChain fs v inode cs) :
    inode.iSize ≤ 2 ^ 32 * 2 ^ 15 := by
  rcases Nat.eq_zero_or_pos inode.iSize with hzero | hpos
  · omega
  · obtain ⟨hpath, hbelow⟩ := h.chain hpos
    have hcs := hp.clusterSize_pos
    have hmax := hp.clusters_lt
    rw [sfatEntryMax] at hmax
    have hlength : cs.length ≤ 2 ^ 32 := Nat.le_trans (hpath.length_le hbelow) (by omega)
    have hroom : cs.length * fs.clusterSize ≤ 2 ^ 32 * 2 ^ 15 :=
      Nat.mul_le_mul hlength hp.clusterSize_le
    have hmul := Nat.lt_div_mul_add (a := inode.iSize + (fs.clusterSize - 1)) hcs
    rw [← h.length_eq] at hmul
    omega

/-- The content in the first cluster. -/
theorem fileContent_first (start : ℕ) {i : ℕ} (hi : i < fs.clusterSize) :
    fileContent fs v start i = v (clsAddr fs start + i) := by
  rw [fileContent, content, extentAddr, Nat.div_eq_of_lt hi, Nat.mod_eq_of_lt hi, fileCls]

/-- **A read is correct exactly if** its position is in the first cluster, the sum of position and
length does not wrap around, and the inode has the position of the file's slot. -/
theorem readCorrect_iff (hp : Placed fs) (hfile : FileChain fs v inode cs)
    (hslot : OwnSlot fs v cs { inode with iPos := pos } d) (hipos : SlotAligned inode.iPos)
    (hpos : ppos < inode.iSize) (hlen : 0 < len) (hlen64 : len < sizeT) :
    ReadCorrect look fs v inode pos len ppos ↔
      (ppos < fs.clusterSize ∧ ppos + len < sizeT) ∧ inode.iPos = pos := by
  have hmax : inode.iSize < sizeT := by
    have hsize := hfile.iSize_le hp
    rw [sizeT]
    omega
  have hstart := hfile.start_le_max hp hpos
  constructor
  · intro h
    have hread : readLen fs inode.iSize len ppos ≠ 0 := by
      intro h0
      obtain ⟨r, v', ⟨rfl, -⟩, ⟨hsome, -⟩, -⟩ :=
        wp_lookups_nonempty (wp_and (sfatSyncRead_nothing h0) h)
      exact absurd hsome (Nat.lt_irrefl 0)
    have hfirst := (readLen_pos hread).2
    have hall := (wp_sfatSyncRead hp.toWellFormed hread hstart _).mp h
    have hsum : ppos + len < sizeT := by
      by_contra hwrap
      have hlong : readLen fs inode.iSize len ppos = len := by
        rw [readLen, if_neg (by omega), clipLen_wrap hlen64 (by omega) (by omega) hpos,
          clipLen_wrap hlen64 (by omega) (by omega) (by omega)]
      obtain ⟨⟨-, hshort⟩, -⟩ := hall 0
      rw [bytesAt_length, hlong] at hshort
      omega
    refine ⟨⟨by omega, hsum⟩, ?_⟩
    by_contra hne
    -- the inode is flushed to another slot
    have hroot : inode.iIno ≠ sfatRootIno := hslot.iIno_ne
    obtain ⟨t, a, ha, hflush⟩ := flushed_atime hp.toWellFormed hroot hipos v
    obtain ⟨m, hm⟩ := hipos.aligned
    obtain ⟨k, hk⟩ := hslot.aligned hp
    obtain ⟨-, -, -, hframe⟩ := hall t
    refine hflush (hframe a ?_)
    simp only [] at hk
    omega
  · rintro ⟨⟨hfirst, hsum⟩, rfl⟩
    have hread : readLen fs inode.iSize len ppos = _ := readLen_eq hsum
    refine (wp_sfatSyncRead hp.toWellFormed (by omega) hstart _).mpr fun t => ?_
    rw [bytesAt_length]
    refine ⟨⟨by omega, by omega⟩, fun i hi => ?_, rfl, fun a ha => ?_⟩
    · have hin : ppos + i < fs.clusterSize := by omega
      rw [bytesAt, List.getElem?_map, List.getElem?_range hi, Option.map_some,
        fileContent_first _ hin, Nat.add_assoc]
    · have hown : OwnSlot fs v cs { inode with iAtime := t } d := hslot.congr rfl rfl
      exact flushed_outside hp.toWellFormed (hown.position hp) v ha

/-- What stays the same while a file is read: the inode but for its times, and the first cluster. -/
structure ReadFrame (fs : FsInfo) (v : Vol) (inode : Inode) (v' : Vol) (inode' : Inode) : Prop where
  iSize : inode'.iSize = inode.iSize
  iStart : inode'.iStart = inode.iStart
  iIno : inode'.iIno = inode.iIno
  iPos : inode'.iPos = inode.iPos
  first : ∀ i < fs.clusterSize, v' (clsAddr fs inode.iStart + i) = v (clsAddr fs inode.iStart + i)

/-- One call keeps the frame. -/
theorem ReadFrame.step (hp : Placed fs) (hfile : FileChain fs v inode cs)
    (hslot : OwnSlot fs v cs inode d) {v₁ v₂ : Vol} {inode₁ : Inode}
    (h : ReadFrame fs v inode v₁ inode₁) {r : List UInt8 × Inode × ℕ}
    (hr : ReadOutcome fs inode₁ len ppos v₁ r v₂) (hsize : 0 < inode.iSize) :
    ReadFrame fs v inode v₂ r.2.1 := by
  obtain ⟨-, -, ⟨hi, rfl⟩ | ⟨t, hi, rfl⟩⟩ := hr
  · rw [hi]
    exact h
  · have hmem := hfile.start_mem hsize
    have hne : d ≠ inode.iStart := fun heq => hslot.not_mem (heq ▸ hmem.1)
    have hapart := clsAddr_apart hp (hslot.lt hp) (lt_of_fatWords hp (lt_fatWords hp hmem.2)) hne
    refine ⟨?_, ?_, ?_, ?_, fun i hi' => ?_⟩
    · rw [hi]; exact h.iSize
    · rw [hi]; exact h.iStart
    · rw [hi]; exact h.iIno
    · rw [hi]; exact h.iPos
    · have hown : OwnSlot fs v cs r.2.1 d :=
        hslot.congr (by rw [hi]; exact h.iIno) (by rw [hi]; exact h.iPos)
      rw [flushed_apply_cluster hp hown v₁ (by omega)]
      exact h.first i hi'

/-- Reading out a file of one cluster delivers what is behind the position. -/
theorem ReadsOut.data_eq (hp : Placed fs) (hfile : FileChain fs v inode cs)
    (hslot : OwnSlot fs v cs inode d) (hone : inode.iSize ≤ fs.clusterSize) {inode₁ : Inode}
    {v₁ : Vol} {data : List UInt8} (h : ReadsOut look fs inode₁ ppos v₁ data)
    (hframe : ReadFrame fs v inode v₁ inode₁) (hpos : ppos ≤ inode.iSize) :
    data = bytesAt v (clsAddr fs inode.iStart + ppos) (inode.iSize - ppos) := by
  induction h with
  | @done inode₁ inode' len ppos ppos' v₁ v' tr hlen hsum hexec =>
    obtain ⟨hout, -, -⟩ := (wp_iff_exec _ _ _).mp (sfatSyncRead_spec hp.toWellFormed fun hpos => by
      rw [hframe.iStart]
      rw [hframe.iSize] at hpos
      exact hfile.start_le_max hp hpos) _ _ _ hexec
    have hzero := congrArg List.length hout
    rw [bytesAt_length, List.length_nil, readLen_eq hsum, hframe.iSize] at hzero
    rw [show inode.iSize - ppos = 0 by omega, bytesAt_zero]
  | @more inode₁ inode' len ppos ppos' v₁ v' tr out rest hlen hsum hne hexec hrest ih =>
    have hr := (wp_iff_exec _ _ _).mp (sfatSyncRead_spec hp.toWellFormed fun hpos => by
      rw [hframe.iStart]
      rw [hframe.iSize] at hpos
      exact hfile.start_le_max hp hpos) _ _ _ hexec
    obtain ⟨hout, hppos, -⟩ := id hr
    simp only [hframe.iSize, hframe.iStart] at hout hppos
    have hread : readLen fs inode.iSize len ppos = _ := readLen_eq hsum
    have hsize : 0 < inode.iSize := by
      by_contra h0
      refine hne ?_
      rw [hout, show readLen fs inode.iSize len ppos = 0 by omega, bytesAt_zero]
    have hbytes : bytesAt v₁ (clsAddr fs inode.iStart + ppos) (readLen fs inode.iSize len ppos) =
        bytesAt v (clsAddr fs inode.iStart + ppos) (readLen fs inode.iSize len ppos) :=
      bytesAt_congr fun i hi => by
        rw [Nat.add_assoc]
        exact hframe.first (ppos + i) (by omega)
    have htail := ih (hframe.step hp hfile hslot hr hsize) (by omega)
    rw [hout, hbytes, htail, hppos, ← Nat.add_assoc, ← bytesAt_add]
    congr 1
    omega

theorem exists_exec {α : Type} (p : Driver α) (v : Vol) :
    ∃ tr a v', Exec (lookupWorld look) p v tr a v' := by
  have hlook : ∀ addr blk pos d, (Host.lookups noFailure look).lookup addr blk pos d
      (look blk pos d) := fun _ _ _ _ => rfl
  exact ⟨_, _, _, Exec.of_quiet hlook p v⟩

/-- **Reading until 0 is returned delivers the file exactly if it has no second cluster.** -/
theorem delivers_iff (hp : Placed fs) (hfile : FileChain fs v inode cs)
    (hslot : OwnSlot fs v cs inode d) :
    DeliversFile look fs v inode ↔ inode.iSize ≤ fs.clusterSize := by
  have hcs := hp.clusterSize_pos
  constructor
  · intro h
    by_contra hmore
    -- one call gets the first cluster, and the next one nothing
    have hspec : ∀ {inode₁ : Inode} {v₁ : Vol} {ppos : ℕ}, ReadFrame fs v inode v₁ inode₁ →
        wp (lookupWorld look) (sfatSyncRead fs inode₁ inode.iSize ppos)
          (ReadOutcome fs inode₁ inode.iSize ppos v₁) v₁ := fun hframe =>
      sfatSyncRead_spec hp.toWellFormed fun hpos => by
        rw [hframe.iStart]
        rw [hframe.iSize] at hpos
        exact hfile.start_le_max hp hpos
    have hframe : ReadFrame fs v inode v inode := ⟨rfl, rfl, rfl, rfl, fun _ _ => rfl⟩
    obtain ⟨tr₁, ⟨out₁, inode₁, ppos₁⟩, v₁, hexec₁⟩ :=
      @exists_exec look _ (sfatSyncRead fs inode inode.iSize 0) v
    have hr₁ := (wp_iff_exec _ _ _).mp (hspec hframe) _ _ _ hexec₁
    have hframe₁ := hframe.step hp hfile hslot hr₁ (by omega)
    obtain ⟨tr₂, ⟨out₂, inode₂, ppos₂⟩, v₂, hexec₂⟩ :=
      @exists_exec look _ (sfatSyncRead fs inode₁ inode.iSize ppos₁) v₁
    obtain ⟨hout₂, -, -⟩ := (wp_iff_exec _ _ _).mp (hspec hframe₁) _ _ _ hexec₂
    obtain ⟨hout₁, hppos₁, -⟩ := id hr₁
    have hmax := hfile.iSize_le hp
    have hsum : inode.iSize + inode.iSize < sizeT := by
      rw [sizeT]
      omega
    have hread : readLen fs inode.iSize inode.iSize 0 = fs.clusterSize := by
      rw [readLen_eq (by omega)]
      omega
    simp only [hread] at hout₁ hppos₁
    have hzero : out₂ = [] := by
      have hnone : readLen fs inode₁.iSize inode.iSize ppos₁ = 0 := by
        rw [readLen_eq (by omega)]
        omega
      rw [show out₂ = bytesAt v₁ _ (readLen fs inode₁.iSize inode.iSize ppos₁) from hout₂, hnone,
        bytesAt_zero]
    rw [hzero] at hexec₂
    have hne : out₁ ≠ [] := by
      intro hnil
      have hlen := congrArg List.length hout₁
      rw [bytesAt_length, hnil, List.length_nil] at hlen
      omega
    have hdata := h _ (.more (by omega) (by omega) hne hexec₁ (.done (by omega) (by omega) hexec₂))
    have hlen := congrArg List.length hdata
    rw [List.append_nil, hout₁, bytesAt_length, List.length_map, List.length_range] at hlen
    omega
  · intro hone data h
    have hdata := h.data_eq hp hfile hslot hone ⟨rfl, rfl, rfl, rfl, fun _ _ => rfl⟩ (Nat.zero_le _)
    rw [hdata, Nat.sub_zero, Nat.add_zero, bytesAt]
    refine List.map_congr_left fun i hi => ?_
    have hlt := List.mem_range.mp hi
    exact (fileContent_first _ (by omega)).symm

/-- An empty file is read out. -/
theorem delivers_empty (hzero : inode.iSize = 0) : DeliversFile look fs v inode := by
  intro data h
  have hnothing : ∀ {len : ℕ}, readLen fs inode.iSize len 0 = 0 := by
    intro len
    rw [readLen, if_pos (.inl (by omega))]
  rw [hzero]
  cases h with
  | done _ _ _ => rfl
  | more _ _ hne hexec _ =>
    obtain ⟨hr, -⟩ := (wp_iff_exec _ _ _).mp
      (sfatSyncRead_nothing (H := Host.lookups noFailure look) hnothing) _ _ _ hexec
    exact absurd (congrArg Prod.fst hr) hne

/-- **When reads deliver the file**: a call exactly if its position is in the first cluster, the sum
of position and length does not wrap around and the inode has the position of the file's slot; a file
whose inode has it is read out exactly if it has no second cluster.  Together: all reads are correct and
the file is read out exactly if the inode has it and there is no second cluster, unless the file is
empty. -/
theorem sync_read_iff (hp : Placed fs) (hfile : FileChain fs v inode cs)
    (hslot : OwnSlot fs v cs { inode with iPos := pos } d) (hipos : SlotAligned inode.iPos) :
    (∀ len ppos, ppos < inode.iSize → 0 < len → len < sizeT →
      (ReadCorrect look fs v inode pos len ppos ↔
        (ppos < fs.clusterSize ∧ ppos + len < sizeT) ∧ inode.iPos = pos)) ∧
    (inode.iPos = pos → (DeliversFile look fs v inode ↔ inode.iSize ≤ fs.clusterSize)) ∧
    ((∀ len ppos, ppos < inode.iSize → 0 < len → ppos + len < sizeT →
        ReadCorrect look fs v inode pos len ppos) ∧ DeliversFile look fs v inode ↔
      inode.iSize = 0 ∨ inode.iSize ≤ fs.clusterSize ∧ inode.iPos = pos) := by
  have hcall : ∀ len ppos, ppos < inode.iSize → 0 < len → len < sizeT →
      (ReadCorrect look fs v inode pos len ppos ↔
        (ppos < fs.clusterSize ∧ ppos + len < sizeT) ∧ inode.iPos = pos) := fun len ppos hpos hlen =>
    readCorrect_iff hp hfile hslot hipos hpos hlen
  have hout : inode.iPos = pos →
      (DeliversFile look fs v inode ↔ inode.iSize ≤ fs.clusterSize) := by
    rintro rfl
    exact delivers_iff hp hfile hslot
  refine ⟨hcall, hout, ⟨fun h => ?_, ?_⟩⟩
  · rcases Nat.eq_zero_or_pos inode.iSize with hzero | hpos
    · exact .inl hzero
    · -- the read of the last byte
      have hmax := hfile.iSize_le hp
      have hsum : inode.iSize - 1 + 1 < sizeT := by
        rw [sizeT]
        omega
      obtain ⟨⟨hfirst, -⟩, hown⟩ := (hcall 1 (inode.iSize - 1) (by omega) Nat.one_pos (by omega)).mp
        (h.1 1 (inode.iSize - 1) (by omega) Nat.one_pos hsum)
      exact .inr ⟨by omega, hown⟩
  · rintro (hzero | ⟨hone, hown⟩)
    · exact ⟨fun _ ppos hpos => absurd hpos (by omega), delivers_empty hzero⟩
    · exact ⟨fun len ppos hpos hlen hsum =>
        (hcall len ppos hpos hlen (by omega)).mpr ⟨⟨by omega, hsum⟩, hown⟩, (hout hown).mpr hone⟩

end Correct

/-! ### A file of two clusters -/

/-- The formatted volume with a file in the clusters 1 and 2. -/
def twoClusterVolume : Vol :=
  setFatWord sbi31.fsInfo (setFatWord sbi31.fsInfo (formatVolume layout31 fun _ => 0) 1 2) 2
    sfatEntryEoc

def twoClusterFile : Inode :=
  { Inode.fresh ⟨1, sfatAttrNone, 6656⟩ with
    iIno := 6
    iSize := 2049 }

theorem twoClusterFile_chain : FileChain sbi31.fsInfo twoClusterVolume twoClusterFile [1, 2] where
  chain _ := by
    refine ⟨.next (d := 2) (by decide +kernel) (by decide +kernel) (.stop (by decide +kernel)), ?_⟩
    decide +kernel
  length_eq := by decide +kernel

/-- The inode has the position of its slot. -/
theorem twoClusterFile_slot :
    OwnSlot sbi31.fsInfo twoClusterVolume [1, 2] { twoClusterFile with iPos := 6656 } 0 where
  iIno_ne := by decide
  lt_clusters := by decide
  inUse := by decide +kernel
  not_mem := by decide
  iPos_eq := ⟨0, by decide, 0, by decide, by decide +kernel⟩

theorem twoClusterFile_aligned : SlotAligned twoClusterFile.iPos := ⟨by decide, by decide⟩

theorem sync_read_iff_twoClusters :
    ReadCorrect storedWord sbi31.fsInfo twoClusterVolume twoClusterFile 6656 1 0 ∧
    (DeliversFile storedWord sbi31.fsInfo twoClusterVolume twoClusterFile ↔
      twoClusterFile.iSize ≤ sbi31.fsInfo.clusterSize) := by
  obtain ⟨hcall, hout, -⟩ := @sync_read_iff storedWord sbi31.fsInfo twoClusterVolume twoClusterFile
    [1, 2] 0 6656 placed31 twoClusterFile_chain twoClusterFile_slot twoClusterFile_aligned
  exact ⟨(hcall 1 0 (by decide) (by decide) (by decide)).mpr (by decide), hout rfl⟩

/-- **The last byte of a file of 2049 bytes is never delivered.** -/
theorem sync_read_fails :
    ¬ ReadCorrect storedWord sbi31.fsInfo twoClusterVolume twoClusterFile 6656 1 2048 ∧
    ¬ DeliversFile storedWord sbi31.fsInfo twoClusterVolume twoClusterFile := by
  have hcorrect : ReadCorrect storedWord sbi31.fsInfo twoClusterVolume twoClusterFile 6656 1 2048 ↔ _ :=
    readCorrect_iff placed31 twoClusterFile_chain twoClusterFile_slot twoClusterFile_aligned
      (by decide) (by decide) (by decide)
  have hdelivers : DeliversFile storedWord sbi31.fsInfo twoClusterVolume twoClusterFile ↔ _ :=
    delivers_iff placed31 twoClusterFile_chain twoClusterFile_slot
  rw [hcorrect, hdelivers]
  decide

end SimpleFat

import SimpleFat.Lib.Scan
import SimpleFat.Lib.Trail
import SimpleFat.Directory
import SimpleFat.FatWords

/-!
# Directories as lists of slots

A directory is the list of the slots of its clusters, in the order of the chain.  What the four
scanners do with it are list functions: the used slots before the first terminator (`live`), the
first of them with a name (`scanFor`), the first slot that is not in use.

`nextCls` is the link that the scanners follow: a cluster that the accessor accepts has a successor
unless its FAT word is greater than `clusters`.

* `wp_locateClusters` — `sfat_dentry_locate` is `scanFor` on the slots of the walk;
* `wp_freeClusters` — `sfat_free_dentry_locate` is the search for the first slot not in use;
* `wp_countClusters` — `sfat_count_subdirs` counts the live slots.
-/

namespace SimpleFat

open SimpleFat.Lib

/-! ### Slots -/

/-- A slot of a directory: the entry at index `idx` of block `blk` of cluster `cls`. -/
structure Slot where
  cls : ℕ
  blk : ℕ
  idx : ℕ
  de : SfatDirEntry
  deriving DecidableEq

/-- The terminator: this slot and the rest are free. -/
def Slot.isEnd (s : Slot) : Bool := s.de.isEnd

def Slot.isEmpty (s : Slot) : Bool := s.de.isEmpty

/-- The slots of a page from index `k` on. -/
def pageSlots (cls blk : ℕ) (data : Page) (n k : ℕ) : List Slot :=
  (List.range' k n).map fun i => ⟨cls, blk, i, direntAt data (32 * i)⟩

/-- The slots of `n` blocks of a cluster from block `blk` on. -/
def blockSlots (fs : FsInfo) (v : Vol) (cls : ℕ) (n blk : ℕ) : List Slot :=
  (List.range' blk n).flatMap fun b =>
    pageSlots cls b (blockAt v fs.blockSize (clsToBlk fs cls + b)) fs.direntPerBlk 0

def clusterSlots (fs : FsInfo) (v : Vol) (cls : ℕ) : List Slot :=
  blockSlots fs v cls fs.blkPerClus 0

def dirSlots (fs : FsInfo) (v : Vol) (cs : List ℕ) : List Slot := cs.flatMap (clusterSlots fs v)

/-- The used slots before the first terminator. -/
def liveSlots (slots : List Slot) : List Slot := live Slot.isEnd Slot.isEmpty slots

/-- The search for a name: what the scan for it meets first. -/
def scanName (name : Vector UInt8 11) (slots : List Slot) : Option (Option Slot) :=
  scanFor Slot.isEnd Slot.isEmpty (fun s => strncmpEq name s.de.name) slots

def firstUnused (slots : List Slot) : Option Slot := slots.find? fun s => s.isEnd || s.isEmpty

section Lists

variable {fs : FsInfo} {v : Vol} {cls blk n k : ℕ} {data : Page}

theorem pageSlots_succ : pageSlots cls blk data (n + 1) k =
    ⟨cls, blk, k, direntAt data (32 * k)⟩ :: pageSlots cls blk data n (k + 1) := by
  rw [pageSlots, List.range'_succ, List.map_cons, pageSlots]

theorem blockSlots_succ : blockSlots fs v cls (n + 1) blk =
    pageSlots cls blk (blockAt v fs.blockSize (clsToBlk fs cls + blk)) fs.direntPerBlk 0 ++
      blockSlots fs v cls n (blk + 1) := by
  rw [blockSlots, List.range'_succ, List.flatMap_cons, blockSlots]

@[simp] theorem dirSlots_nil : dirSlots fs v [] = [] := rfl

theorem dirSlots_cons (c : ℕ) (cs : List ℕ) :
    dirSlots fs v (c :: cs) = clusterSlots fs v c ++ dirSlots fs v cs := List.flatMap_cons

theorem dirSlots_append (cs ds : List ℕ) :
    dirSlots fs v (cs ++ ds) = dirSlots fs v cs ++ dirSlots fs v ds := List.flatMap_append

theorem pageSlots_length : (pageSlots cls blk data n k).length = n := by
  rw [pageSlots, List.length_map, List.length_range']

theorem blockSlots_length : (blockSlots fs v cls n blk).length = n * fs.direntPerBlk := by
  induction n generalizing blk with
  | zero => rw [Nat.zero_mul]; rfl
  | succ n ih => rw [blockSlots_succ, List.length_append, pageSlots_length, ih]; ring

theorem clusterSlots_length : (clusterSlots fs v cls).length = fs.blkPerClus * fs.direntPerBlk :=
  blockSlots_length

theorem dirSlots_length (cs : List ℕ) :
    (dirSlots fs v cs).length = cs.length * (fs.blkPerClus * fs.direntPerBlk) := by
  induction cs with
  | nil => rw [List.length_nil, Nat.zero_mul]; rfl
  | cons c cs ih =>
    rw [dirSlots_cons, List.length_append, clusterSlots_length, ih, List.length_cons]
    ring

/-- A slot of a page is the entry at its index. -/
theorem mem_pageSlots {s : Slot} : s ∈ pageSlots cls blk data n k ↔
    s.cls = cls ∧ s.blk = blk ∧ k ≤ s.idx ∧ s.idx < k + n ∧ s.de = direntAt data (32 * s.idx) := by
  simp only [pageSlots, List.mem_map, List.mem_range'_1]
  constructor
  · rintro ⟨i, ⟨hk, hn⟩, rfl⟩
    exact ⟨rfl, rfl, hk, hn, rfl⟩
  · rintro ⟨rfl, rfl, hk, hn, hde⟩
    exact ⟨s.idx, ⟨hk, hn⟩, by rw [← hde]⟩

theorem mem_clusterSlots {s : Slot} : s ∈ clusterSlots fs v cls ↔
    s.cls = cls ∧ s.blk < fs.blkPerClus ∧ s.idx < fs.direntPerBlk ∧
    s.de = direntAt (blockAt v fs.blockSize (clsToBlk fs cls + s.blk)) (32 * s.idx) := by
  simp only [clusterSlots, blockSlots, List.mem_flatMap, List.mem_range'_1, mem_pageSlots]
  constructor
  · rintro ⟨b, ⟨-, hb⟩, hcls, rfl, -, hidx, hde⟩
    exact ⟨hcls, by omega, by omega, hde⟩
  · rintro ⟨hcls, hb, hidx, hde⟩
    exact ⟨s.blk, ⟨Nat.zero_le _, by omega⟩, hcls, rfl, Nat.zero_le _, by omega, hde⟩

theorem mem_dirSlots {s : Slot} {cs : List ℕ} :
    s ∈ dirSlots fs v cs ↔ s.cls ∈ cs ∧ s ∈ clusterSlots fs v s.cls := by
  simp only [dirSlots, List.mem_flatMap]
  constructor
  · rintro ⟨c, hc, hs⟩
    obtain rfl := (mem_clusterSlots.mp hs).1
    exact ⟨hc, hs⟩
  · rintro ⟨hc, hs⟩
    exact ⟨s.cls, hc, hs⟩

end Lists

/-! ### The chain -/

/-- The link that the scanners follow. -/
def nextCls (look : (blk pos : ℕ) → Page → ℕ) (fs : FsInfo) (v : Vol) (cls : ℕ) : Option ℕ :=
  if fs.clustersPred ≤ cls then none
  else if fs.clusters < nextWord look fs v cls then none
  else some (nextWord look fs v cls)

/-- The clusters that a walk of `n` rounds visits. -/
def walkClusters (look : (blk pos : ℕ) → Page → ℕ) (fs : FsInfo) (v : Vol) (n cls : ℕ) : List ℕ :=
  trail (nextCls look fs v) n cls

def chainSlots (look : (blk pos : ℕ) → Page → ℕ) (fs : FsInfo) (v : Vol) (start : ℕ) : List Slot :=
  dirSlots fs v (walkClusters look fs v fs.clusters start)

def walkRefused (look : (blk pos : ℕ) → Page → ℕ) (fs : FsInfo) (v : Vol) : (n cls : ℕ) → Bool
  | 0, _ => false
  | n + 1, cls =>
    if fs.clustersPred ≤ cls then true
    else if fs.clusters < nextWord look fs v cls then false
    else walkRefused look fs v n (nextWord look fs v cls)

def walkEnded (look : (blk pos : ℕ) → Page → ℕ) (fs : FsInfo) (v : Vol) : (n cls : ℕ) → Bool
  | 0, _ => false
  | n + 1, cls =>
    if fs.clustersPred ≤ cls then false
    else if fs.clusters < nextWord look fs v cls then true
    else walkEnded look fs v n (nextWord look fs v cls)

section Walk

variable {look : (blk pos : ℕ) → Page → ℕ} {fs : FsInfo} {v : Vol}

theorem walkClusters_succ (n cls : ℕ) : walkClusters look fs v (n + 1) cls =
    cls :: (if fs.clustersPred ≤ cls then []
      else if fs.clusters < nextWord look fs v cls then []
      else walkClusters look fs v n (nextWord look fs v cls)) := by
  rw [walkClusters, trail]
  by_cases hcls : fs.clustersPred ≤ cls
  · rw [nextCls, if_pos hcls, if_pos hcls]
  · by_cases hnext : fs.clusters < nextWord look fs v cls
    · rw [nextCls, if_neg hcls, if_pos hnext, if_neg hcls, if_pos hnext]
    · rw [nextCls, if_neg hcls, if_neg hnext, if_neg hcls, if_neg hnext, walkClusters]

end Walk

/-! ### `sfat_seek` -/

section Seek

variable {refuse : FilldirCall → Prop} {look : (blk pos : ℕ) → Page → ℕ} {fs : FsInfo} {v : Vol}

/-- What `sfat_seek` reports once the cluster is found, or is not there. -/
def seekOutcome (fs : FsInfo) (pos : ℕ) : Option ℕ → Except Errno (ℕ × ℕ)
  | some cls => .ok (cls, pos % fs.clusterSize)
  | none => .error .einval

theorem linked_nextCls (n cls : ℕ) : linked (nextCls look fs v) (n + 1) cls =
    if fs.clustersPred ≤ cls then none
    else if fs.clusters < nextWord look fs v cls then none
    else linked (nextCls look fs v) n (nextWord look fs v cls) := by
  rw [linked, nextCls]
  split
  · rfl
  · split
    · rfl
    · rfl

theorem wp_sfatSeekLoop (hwf : WellFormed fs) (fuel cls pos : ℕ) (hfuel : pos ≤ fuel)
    (Q : Except Errno (ℕ × ℕ) → Vol → Prop) :
    wp (refusingWorld refuse look) (sfatSeekLoop fs fuel cls pos) Q v ↔
      Q (seekOutcome fs pos (linked (nextCls look fs v) (pos / fs.clusterSize) cls)) v := by
  have hcs := hwf.clusterSize_pos
  induction fuel generalizing cls pos with
  | zero =>
    obtain rfl : pos = 0 := by omega
    rw [sfatSeekLoop, if_neg (by omega), Nat.zero_div, linked, seekOutcome, Nat.zero_mod]
    exact wp_done _ _ _
  | succ fuel ih =>
    rw [sfatSeekLoop]
    by_cases hle : fs.clusterSize ≤ pos
    · rw [if_pos hle, Nat.div_eq_sub_div hcs hle, linked_nextCls]
      show wp (refusingWorld refuse look) (sfatGetEntryContent fs cls >>= _) Q v ↔ _
      rw [wp_bind, wp_sfatGetEntryContent_lookups]
      by_cases hcls : fs.clustersPred ≤ cls
      · rw [if_pos hcls, if_pos hcls]
        exact wp_done _ _ _
      · rw [if_neg hcls, if_neg hcls]
        show wp (refusingWorld refuse look) (if _ then _ else _) Q v ↔ _
        by_cases hnext : fs.clusters < nextWord look fs v cls
        · rw [if_pos hnext, if_pos hnext]
          exact wp_done _ _ _
        · have hmod : (pos - fs.clusterSize) % fs.clusterSize = pos % fs.clusterSize :=
            (Nat.mod_eq_sub_mod hle).symm
          have hrest := ih (nextWord look fs v cls) (pos - fs.clusterSize) (by omega)
          rw [if_neg hnext, if_neg hnext]
          unfold seekOutcome at hrest ⊢
          rwa [hmod] at hrest
    · rw [if_neg hle, Nat.div_eq_of_lt (by omega), linked, seekOutcome,
        Nat.mod_eq_of_lt (by omega)]
      exact wp_done _ _ _

/-- **`sfat_seek` follows as many links as whole clusters fit in the position.** -/
theorem wp_sfatSeek (hwf : WellFormed fs) (cls pos : ℕ) (Q : Except Errno (ℕ × ℕ) → Vol → Prop) :
    wp (refusingWorld refuse look) (sfatSeek fs cls pos) Q v ↔
      Q (if fs.clustersPred ≤ cls then .error .einval
        else seekOutcome fs pos (linked (nextCls look fs v) (pos / fs.clusterSize) cls)) v := by
  rw [sfatSeek]
  split
  · exact wp_done _ _ _
  · exact wp_sfatSeekLoop hwf pos cls pos (Nat.le_refl pos) Q

end Seek

/-! ### `sfat_dentry_locate` -/

section Locate

variable {refuse : FilldirCall → Prop} {look : (blk pos : ℕ) → Page → ℕ} {fs : FsInfo} {v : Vol}
  {name : Vector UInt8 11}

@[simp] theorem scanName_nil : scanName name [] = none := rfl

theorem scanName_append (as bs : List Slot) :
    scanName name (as ++ bs) = (scanName name as).or (scanName name bs) := scanFor_append _ as bs

theorem locateSlots_eq (cls blk : ℕ) (data : Page) (n k : ℕ) :
    locateSlots name data n k = match scanName name (pageSlots cls blk data n k) with
      | none => .next ()
      | some r => .out (r.map fun s => (s.idx, s.de)) := by
  induction n generalizing k with
  | zero => rfl
  | succ n ih =>
    rw [locateSlots, pageSlots_succ, scanName, scanFor]
    show (if (direntAt data (32 * k)).isEnd then _ else _) = _
    by_cases hend : (direntAt data (32 * k)).isEnd = true
    · simp [hend, Slot.isEnd]
    · by_cases hemp : (direntAt data (32 * k)).isEmpty = true
      · simp [hend, hemp, Slot.isEnd, Slot.isEmpty, ih, scanName]
      · by_cases hname : strncmpEq name (direntAt data (32 * k)).name = true
        · simp [hend, hemp, hname, Slot.isEnd, Slot.isEmpty]
        · simp [hend, hemp, hname, Slot.isEnd, Slot.isEmpty, ih, scanName]

/-- What `sfat_dentry_locate` reports for a slot: `blk` is the number, in the volume, of the block
after the slot's own. -/
def locatedOf (fs : FsInfo) (s : Slot) : LocatedEntry :=
  ⟨s.de, s.cls, clsToBlk fs s.cls + s.blk + 1, s.idx * 32⟩

def locateNext (fs : FsInfo) :
    Option (Option Slot) → Loop Unit (Except Errno (Option LocatedEntry))
  | none => .next ()
  | some r => .out (.ok (r.map (locatedOf fs)))

def locateOutcome (fs : FsInfo) (refused : Bool) :
    Option (Option Slot) → Except Errno (Option LocatedEntry)
  | some r => .ok (r.map (locatedOf fs))
  | none => if refused then .error .einval else .ok none

theorem wp_locateBlocks (cls n blk : ℕ)
    (Q : Loop Unit (Except Errno (Option LocatedEntry)) → Vol → Prop) :
    wp (refusingWorld refuse look) (locateBlocks fs name cls n (clsToBlk fs cls + blk)) Q v ↔
      Q (locateNext fs (scanName name (blockSlots fs v cls n blk))) v := by
  induction n generalizing blk with
  | zero => exact wp_done _ _ _
  | succ n ih =>
    rw [locateBlocks, wp_readBlock_lookups, blockSlots_succ, scanName_append, Nat.add_assoc]
    simp only [locateSlots_eq cls blk]
    cases hr : scanName name (pageSlots cls blk
      (blockAt v fs.blockSize (clsToBlk fs cls + blk)) fs.direntPerBlk 0) with
    | none =>
      rw [Option.none_or]
      exact ih (blk + 1)
    | some r =>
      cases r with
      | none => exact wp_done _ _ _
      | some s =>
        obtain ⟨hcls, hblk, -, -, -⟩ := mem_pageSlots.mp (scanFor_some hr).1
        subst hcls hblk
        exact wp_done _ _ _

theorem wp_locateCluster (cls : ℕ)
    (Q : Loop Unit (Except Errno (Option LocatedEntry)) → Vol → Prop) :
    wp (refusingWorld refuse look) (locateBlocks fs name cls fs.blkPerClus (clsToBlk fs cls)) Q v ↔
      Q (locateNext fs (scanName name (clusterSlots fs v cls))) v :=
  wp_locateBlocks cls fs.blkPerClus 0 Q

/-- **`sfat_dentry_locate` scans the slots of the walk for the name.** -/
theorem wp_locateClusters (n cls : ℕ) (Q : Except Errno (Option LocatedEntry) → Vol → Prop) :
    wp (refusingWorld refuse look) (locateClusters fs name n cls) Q v ↔
      Q (locateOutcome fs (walkRefused look fs v n cls)
        (scanName name (dirSlots fs v (walkClusters look fs v n cls)))) v := by
  induction n generalizing cls with
  | zero => exact wp_done _ _ _
  | succ n ih =>
    rw [locateClusters, wp_bind, wp_locateCluster, walkClusters_succ, dirSlots_cons,
      scanName_append, walkRefused]
    cases hr : scanName name (clusterSlots fs v cls) with
    | some r => exact wp_done _ _ _
    | none =>
      rw [Option.none_or]
      show wp (refusingWorld refuse look) (sfatGetEntryContent fs cls >>= _) Q v ↔ _
      rw [wp_bind, wp_sfatGetEntryContent_lookups]
      by_cases hcls : fs.clustersPred ≤ cls
      · rw [if_pos hcls, if_pos hcls, if_pos hcls]
        exact wp_done _ _ _
      · rw [if_neg hcls, if_neg hcls, if_neg hcls]
        show wp (refusingWorld refuse look) (if _ then _ else _) Q v ↔ _
        by_cases hnext : fs.clusters < nextWord look fs v cls
        · rw [if_pos hnext, if_pos hnext, if_pos hnext]
          exact wp_done _ _ _
        · rw [if_neg hnext, if_neg hnext, if_neg hnext]
          exact ih _

def locateReturn : Except Errno (Option LocatedEntry) → Except Errno LocatedEntry
  | .error e => .error e
  | .ok none => .error .enoent
  | .ok (some found) => .ok found

theorem wp_sfatDentryLocate (start : ℕ) (Q : Except Errno LocatedEntry → Vol → Prop) :
    wp (refusingWorld refuse look) (sfatDentryLocate fs start name) Q v ↔
      Q (locateReturn (locateOutcome fs (walkRefused look fs v fs.clusters start)
        (scanName name (chainSlots look fs v start)))) v := by
  rw [sfatDentryLocate, wp_blkholderAlloc_lookups]
  simp only []
  rw [forall_const, wp_bind, wp_locateClusters, chainSlots]
  cases locateOutcome fs (walkRefused look fs v fs.clusters start)
    (scanName name (dirSlots fs v (walkClusters look fs v fs.clusters start))) with
  | error e => exact wp_done _ _ _
  | ok found =>
    cases found with
    | none => exact wp_done _ _ _
    | some found => exact wp_done _ _ _

end Locate

/-! ### `sfat_free_dentry_locate` -/

section Free

variable {refuse : FilldirCall → Prop} {look : (blk pos : ℕ) → Page → ℕ} {fs : FsInfo} {v : Vol}

@[simp] theorem firstUnused_nil : firstUnused [] = none := rfl

theorem firstUnused_append (as bs : List Slot) :
    firstUnused (as ++ bs) = (firstUnused as).or (firstUnused bs) := List.find?_append

theorem freeSlots_eq (cls blk : ℕ) (data : Page) (n k : ℕ) :
    freeSlots data n k = (firstUnused (pageSlots cls blk data n k)).map Slot.idx := by
  induction n generalizing k with
  | zero => rfl
  | succ n ih =>
    rw [freeSlots, pageSlots_succ, firstUnused, List.find?_cons]
    by_cases hend : (direntAt data (32 * k)).isEnd = true
    · simp [hend, Slot.isEnd]
    · by_cases hemp : (direntAt data (32 * k)).isEmpty = true
      · simp [hend, hemp, Slot.isEnd, Slot.isEmpty]
      · simp [hend, hemp, Slot.isEnd, Slot.isEmpty, ih, firstUnused]

/-- What `sfat_free_dentry_locate` reports for a slot: `blk` is the number of the block in its
cluster, and `bh` holds the block. -/
def freeSlotOf (fs : FsInfo) (v : Vol) (s : Slot) : FreeSlot :=
  ⟨s.cls, s.blk, s.idx * 32, blockAt v fs.blockSize (clsToBlk fs s.cls + s.blk)⟩

def freeNext (fs : FsInfo) (v : Vol) : Option Slot → Loop Unit (Except Errno FreeSlot)
  | none => .next ()
  | some s => .out (.ok (freeSlotOf fs v s))

def freeOutcome (fs : FsInfo) (v : Vol) (refused : Bool) : Option Slot → Except Errno FreeSlot
  | some s => .ok (freeSlotOf fs v s)
  | none => .error (if refused then .einval else .enoent)

theorem wp_freeBlocks (cls n blk : ℕ) (Q : Loop Unit (Except Errno FreeSlot) → Vol → Prop) :
    wp (refusingWorld refuse look) (freeBlocks fs cls n (clsToBlk fs cls + blk)) Q v ↔
      Q (freeNext fs v (firstUnused (blockSlots fs v cls n blk))) v := by
  induction n generalizing blk with
  | zero => exact wp_done _ _ _
  | succ n ih =>
    rw [freeBlocks, wp_readBlock_lookups, blockSlots_succ, firstUnused_append, Nat.add_assoc]
    simp only [freeSlots_eq cls blk]
    cases hr : firstUnused (pageSlots cls blk
      (blockAt v fs.blockSize (clsToBlk fs cls + blk)) fs.direntPerBlk 0) with
    | none =>
      rw [Option.none_or]
      exact ih (blk + 1)
    | some s =>
      obtain ⟨hcls, hblk, -, -, -⟩ := mem_pageSlots.mp (List.mem_of_find?_eq_some hr)
      subst hcls hblk
      have hsub : clsToBlk fs s.cls + s.blk - clsToBlk fs s.cls = s.blk := Nat.add_sub_cancel_left ..
      rw [Option.some_or, freeNext, freeSlotOf]
      simp only [Option.map_some, hsub]
      exact wp_done _ _ _

theorem wp_freeCluster (cls : ℕ) (Q : Loop Unit (Except Errno FreeSlot) → Vol → Prop) :
    wp (refusingWorld refuse look) (freeBlocks fs cls fs.blkPerClus (clsToBlk fs cls)) Q v ↔
      Q (freeNext fs v (firstUnused (clusterSlots fs v cls))) v :=
  wp_freeBlocks cls fs.blkPerClus 0 Q

/-- **`sfat_free_dentry_locate` finds the first slot of the walk that is not in use.** -/
theorem wp_freeClusters (n cls : ℕ) (Q : Except Errno FreeSlot → Vol → Prop) :
    wp (refusingWorld refuse look) (freeClusters fs n cls) Q v ↔
      Q (freeOutcome fs v (walkRefused look fs v n cls)
        (firstUnused (dirSlots fs v (walkClusters look fs v n cls)))) v := by
  induction n generalizing cls with
  | zero => exact wp_done _ _ _
  | succ n ih =>
    rw [freeClusters, wp_bind, wp_freeCluster, walkClusters_succ, dirSlots_cons,
      firstUnused_append, walkRefused]
    cases hr : firstUnused (clusterSlots fs v cls) with
    | some s => exact wp_done _ _ _
    | none =>
      rw [Option.none_or]
      show wp (refusingWorld refuse look) (sfatGetEntryContent fs cls >>= _) Q v ↔ _
      rw [wp_bind, wp_sfatGetEntryContent_lookups]
      by_cases hcls : fs.clustersPred ≤ cls
      · rw [if_pos hcls, if_pos hcls, if_pos hcls]
        exact wp_done _ _ _
      · rw [if_neg hcls, if_neg hcls, if_neg hcls]
        show wp (refusingWorld refuse look) (if _ then _ else _) Q v ↔ _
        by_cases hnext : fs.clusters < nextWord look fs v cls
        · rw [if_pos hnext, if_pos hnext, if_pos hnext]
          exact wp_done _ _ _
        · rw [if_neg hnext, if_neg hnext, if_neg hnext]
          exact ih _

end Free

/-! ### `sfat_count_subdirs` -/

section Count

variable {refuse : FilldirCall → Prop} {look : (blk pos : ℕ) → Page → ℕ} {fs : FsInfo} {v : Vol}

def countNext (count : ℕ) (slots : List Slot) : Loop ℕ ℕ :=
  if slots.any Slot.isEnd then .out (count + (liveSlots slots).length)
  else .next (count + (liveSlots slots).length)

theorem countNext_append (count : ℕ) (as bs : List Slot) :
    countNext count (as ++ bs) = match countNext count as with
      | .out c => .out c
      | .next c => countNext c bs := by
  unfold countNext liveSlots
  by_cases has : as.any Slot.isEnd = true
  · rw [live_append_of_stop has, if_pos has, if_pos (by simp [has])]
  · have has : as.any Slot.isEnd = false := by simpa using has
    rw [live_append_of_not_stop has, has, List.any_append, has, List.length_append, Bool.false_or,
      ← Nat.add_assoc]
    rfl

theorem countSlots_eq (cls blk : ℕ) (data : Page) (n k count : ℕ) :
    countSlots data n (32 * k) count = countNext count (pageSlots cls blk data n k) := by
  induction n generalizing k count with
  | zero => rfl
  | succ n ih =>
    have hstep : 32 * k + 32 = 32 * (k + 1) := by ring
    rw [countSlots, pageSlots_succ, hstep, ih, ih]
    unfold countNext liveSlots
    by_cases hend : (direntAt data (32 * k)).isEnd = true
    · simp [hend, Slot.isEnd, live]
    · by_cases hemp : (direntAt data (32 * k)).isEmpty = true
      · simp [hend, hemp, Slot.isEnd, Slot.isEmpty, live]
      · simp [hend, hemp, Slot.isEnd, Slot.isEmpty, live, Nat.add_assoc, Nat.add_comm 1]

def countBlocksNext : Loop ℕ ℕ → Loop ℕ (Except Errno ℕ)
  | .next c => .next c
  | .out c => .out (.ok c)

theorem wp_countBlocks (hwf : WellFormed fs) (cls n blk count : ℕ)
    (Q : Loop ℕ (Except Errno ℕ) → Vol → Prop) :
    wp (refusingWorld refuse look) (countBlocks fs n (clsToBlk fs cls + blk) count) Q v ↔
      Q (countBlocksNext (countNext count (blockSlots fs v cls n blk))) v := by
  have hslots : (fs.blockSize + 31) / 32 = fs.direntPerBlk := by
    obtain ⟨d, -, hd, hbs⟩ := hwf.blockSize_slots
    omega
  induction n generalizing blk count with
  | zero => exact wp_done _ _ _
  | succ n ih =>
    have hpage := countSlots_eq cls blk (blockAt v fs.blockSize (clsToBlk fs cls + blk))
      fs.direntPerBlk 0 count
    rw [Nat.mul_zero] at hpage
    rw [countBlocks, wp_readBlock_lookups, blockSlots_succ, countNext_append, Nat.add_assoc, hslots]
    simp only [hpage]
    cases countNext count (pageSlots cls blk
      (blockAt v fs.blockSize (clsToBlk fs cls + blk)) fs.direntPerBlk 0) with
    | next c => exact ih (blk + 1) c
    | out c => exact wp_done _ _ _

theorem wp_countCluster (hwf : WellFormed fs) (cls count : ℕ)
    (Q : Loop ℕ (Except Errno ℕ) → Vol → Prop) :
    wp (refusingWorld refuse look) (countBlocks fs fs.blkPerClus (clsToBlk fs cls) count) Q v ↔
      Q (countBlocksNext (countNext count (clusterSlots fs v cls))) v :=
  wp_countBlocks hwf cls fs.blkPerClus 0 count Q

def countOutcome (ended : Bool) : Loop ℕ ℕ → Except Errno ℕ
  | .out c => .ok c
  | .next c => if ended then .ok c else .error .einval

/-- **`sfat_count_subdirs` counts the live slots**, if the walk stops before its last round. -/
theorem wp_countClusters (hwf : WellFormed fs) (n cls count : ℕ) (hcls : cls < sfatEntryMax)
    (Q : Except Errno ℕ → Vol → Prop) :
    wp (refusingWorld refuse look) (countClusters fs (n + 1) cls count) Q v ↔
      Q (countOutcome (walkEnded look fs v n cls)
        (countNext count (dirSlots fs v (walkClusters look fs v n cls)))) v := by
  have hmax := hwf.clusters_lt
  induction n generalizing cls count with
  | zero =>
    rw [countClusters, if_neg (by omega), wp_bind, wp_countCluster hwf]
    cases countNext count (clusterSlots fs v cls) with
    | out c => exact wp_done _ _ _
    | next c =>
      show wp (refusingWorld refuse look) (sfatGetEntryContent fs cls >>= _) Q v ↔ _
      rw [wp_bind, wp_sfatGetEntryContent_lookups]
      by_cases hpred : fs.clustersPred ≤ cls
      · rw [if_pos hpred]
        exact wp_done _ _ _
      · rw [if_neg hpred]
        show wp (refusingWorld refuse look) (if _ then _ else _) Q v ↔ _
        split
        · exact wp_done _ _ _
        · exact wp_done _ _ _
  | succ n ih =>
    rw [countClusters, if_neg (by omega), wp_bind, wp_countCluster hwf, walkClusters_succ,
      dirSlots_cons, countNext_append, walkEnded]
    cases countNext count (clusterSlots fs v cls) with
    | out c => exact wp_done _ _ _
    | next c =>
      show wp (refusingWorld refuse look) (sfatGetEntryContent fs cls >>= _) Q v ↔ _
      rw [wp_bind, wp_sfatGetEntryContent_lookups]
      by_cases hpred : fs.clustersPred ≤ cls
      · rw [if_pos hpred, if_pos hpred, if_pos hpred]
        exact wp_done _ _ _
      · rw [if_neg hpred, if_neg hpred, if_neg hpred]
        show wp (refusingWorld refuse look) (if _ then _ else _) Q v ↔ _
        by_cases hnext : fs.clusters < nextWord look fs v cls
        · rw [if_pos hnext, if_pos hnext, if_pos hnext]
          exact wp_done _ _ _
        · rw [if_neg hnext, if_neg hnext, if_neg hnext]
          exact ih _ c (by omega)

end Count

end SimpleFat

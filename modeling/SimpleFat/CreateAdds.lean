import SimpleFat.DirectoryUpdate
import SimpleFat.DirentNames

/-!
# What a new file adds to a directory

`sfat_create_file` should add one used slot to those that the scanners see, and nothing else.  It
moves the terminator to the slot behind the one it fills; what the scanners see behind that slot
decides whether it does.

* `visible_slotWritten`, `visible_terminator`, `visible_grown` — what the scanners see afterwards;
* `create_adds_iff` — when one used slot is added.
-/

namespace SimpleFat

open SimpleFat.Lib

/-! ### The property -/

def visibleSlots (fs : FsInfo) (v : Vol) (start : ℕ) : List Slot :=
  liveSlots (chainSlots storedWord fs v start)

/-- A list of slots with one new entry: an empty file with the name `n`. -/
def AddsEntry (n : List UInt8) (old new : List Slot) : Prop :=
  ∃ as bs s, old = as ++ bs ∧ new = as ++ s :: bs ∧
    cString s.de.name = n ∧ s.de.size = 0 ∧ s.de.fstClsNo = sfatEntryFree

/-- The address of the first slot of a block, as `sfat_create_file` computes it. -/
def termAddr (fs : FsInfo) (cls blk : ℕ) : ℕ := (clsToBlk fs cls + blk) % sizeT * fs.blockSize

/-- A slot, with the attribute of the terminator if it is at the address. -/
def Slot.marked (fs : FsInfo) (a : ℕ) (s : Slot) : Slot :=
  if s.addr fs = a then { s with de := { s.de with attr := sfatAttrEmptyEnd } } else s

/-- **When one used slot is added**, by what the scan of the directory meets first. -/
inductive KeepsHidden (fs : FsInfo) (v : Vol) (start : ℕ) (name : Vector UInt8 11)
    (junk : CreateJunk) : Prop
  /-- The name exists, or the scan for it fails. -/
  | nameTaken : ¬ NameFree storedWord fs v start name → KeepsHidden fs v start name junk
  /-- A free slot before the terminator. -/
  | hole {s : Slot} : firstUnused (chainSlots storedWord fs v start) = some s → s.isEnd = false →
      KeepsHidden fs v start name junk
  /-- The terminator, written as `SFAT_ATTR_EMPTY_END`, is not the last slot of a block, or its
  block is the last one of the cluster. -/
  | moved {s : Slot} : firstUnused (chainSlots storedWord fs v start) = some s →
      s.de.attr = sfatAttrEmptyEnd →
      s.idx + 1 < fs.direntPerBlk ∨ s.blk + 1 = fs.blkPerClus → KeepsHidden fs v start name junk
  /-- The terminator is the last slot of another block: the cluster number that was never set leads
  to no slot before it, and what lies behind it stays hidden. -/
  | strayed {s : Slot} {pre post : List Slot} :
      chainSlots storedWord fs v start = pre ++ s :: post →
      firstUnused (chainSlots storedWord fs v start) = some s → s.EndsBlock fs →
      s.blk + 1 < fs.blkPerClus → (∀ t ∈ pre, t.addr fs ≠ termAddr fs junk.nextCls (s.blk + 1)) →
      liveSlots (post.map (Slot.marked fs (termAddr fs junk.nextCls (s.blk + 1)))) = [] →
      KeepsHidden fs v start name junk
  /-- The terminator has other attribute bits besides, and nothing used lies behind it. -/
  | unmarked {s : Slot} {pre post : List Slot} :
      chainSlots storedWord fs v start = pre ++ s :: post →
      firstUnused (chainSlots storedWord fs v start) = some s → s.isEnd = true →
      s.de.attr ≠ sfatAttrEmptyEnd → liveSlots post = [] → KeepsHidden fs v start name junk
  /-- The directory is full, and the cluster that the allocator takes can be reached. -/
  | full : firstUnused (chainSlots storedWord fs v start) = none →
      (∀ c, FirstFree fs v c → c ≤ fs.clusters) → KeepsHidden fs v start name junk

/-- The cluster number that was never set does not lead into the FAT words of the chain. -/
def StrayKeepsChain (fs : FsInfo) (v : Vol) (start : ℕ) (cs : List ℕ) (junk : CreateJunk) : Prop :=
  ∀ s, firstUnused (chainSlots storedWord fs v start) = some s → s.EndsBlock fs →
    s.blk + 1 < fs.blkPerClus → ∀ c ∈ cs,
      fatWord fs (terminatorWritten fs v junk.nextCls (s.blk + 1)) c = fatWord fs v c

/-- The slot of a directory itself: none for the root, else one in a cluster in use that is none of
the directory's own. -/
def DirOwnSlot (fs : FsInfo) (v : Vol) (cs : List ℕ) (dir : Inode) : Prop :=
  dir.iIno = sfatRootIno ∨ ∃ d, OwnSlot fs v cs dir d

variable {fs : FsInfo} {v v' : Vol} {cs : List ℕ} {start : ℕ}

/-! ### Entries after a write -/

section Writes

variable {s t : Slot}

/-- Slots at one place of one volume are the same. -/
theorem slot_ext {ds : List ℕ} (hs : s ∈ dirSlots fs v cs) (ht : t ∈ dirSlots fs v ds)
    (h : s.cls = t.cls ∧ s.blk = t.blk ∧ s.idx = t.idx) : s = t := by
  have hsde := slot_de (mem_dirSlots.mp hs).2
  have htde := slot_de (mem_dirSlots.mp ht).2
  obtain ⟨cls, blk, idx, de⟩ := s
  obtain ⟨cls', blk', idx', de'⟩ := t
  obtain ⟨rfl, rfl, rfl⟩ := h
  rw [show de = _ from hsde, show de' = _ from htde]
  rfl

/-- The attribute of the terminator is stored in one slot. -/
theorem reread_putAttr (hp : Placed fs) {a : ℕ} (ht : SlotPlaced fs t) (h32 : a % 32 = 0)
    (hde : t.de = direntAt v (t.addr fs)) :
    t.reread fs (putAttr v a sfatAttrEmptyEnd) = t.marked fs a := by
  have haddr := Slot.addr_eq hp ht.cls_lt
  rw [Slot.reread, Slot.marked]
  by_cases h : t.addr fs = a
  · rw [if_pos h, h, direntAt_putAttr, hde, h]
  · rw [if_neg h, direntAt_putAttr_ne _ _ (by omega), ← hde]

/-- A slot that is filled changes no other slot. -/
theorem reread_putDirent_ne (hp : Placed fs) (hs : SlotPlaced fs s) (ht : SlotPlaced fs t)
    (hne : ¬ (t.cls = s.cls ∧ t.blk = s.blk ∧ t.idx = s.idx)) (de : SfatDirEntry) (w : Vol) :
    t.reread fs (putDirent w (s.addr fs) de) = t.reread fs w := by
  have happ := slot_apart hp ht hs hne
  rw [Slot.reread, Slot.reread, direntAt_putDirent_ne _ _ (by omega)]

end Writes

/-! ### Live slots around a slot -/

section Live

variable {pre post : List Slot} {s : Slot}

/-- Slots that are in use are live. -/
theorem liveSlots_used (h : ∀ t ∈ pre, t.isEnd = false ∧ t.isEmpty = false) : liveSlots pre = pre := by
  refine find?_free_eq_none.mp (List.find?_eq_none.mpr fun t ht => ?_)
  obtain ⟨hend, hemp⟩ := h t ht
  simp [hend, hemp]

theorem noEnd_used (h : ∀ t ∈ pre, t.isEnd = false ∧ t.isEmpty = false) :
    pre.any Slot.isEnd = false := by
  rw [List.any_eq_false]
  intro t ht
  simp [(h t ht).1]

/-- A used slot behind used slots. -/
theorem liveSlots_filled (h : ∀ t ∈ pre, t.isEnd = false ∧ t.isEmpty = false)
    (hend : s.isEnd = false) (hemp : s.isEmpty = false) :
    liveSlots (pre ++ s :: post) = pre ++ s :: liveSlots post := by
  have happend : liveSlots (pre ++ s :: post) = liveSlots pre ++ liveSlots (s :: post) :=
    live_append_of_not_stop (noEnd_used h) _
  rw [happend, liveSlots_used h, liveSlots, live, if_neg (by simp [hend]), if_neg (by simp [hemp]),
    liveSlots]

/-- The first slot that is not in use hides what is behind it, if it is the terminator. -/
theorem liveSlots_unused (h : ∀ t ∈ pre, t.isEnd = false ∧ t.isEmpty = false)
    (hs : (s.isEnd || s.isEmpty) = true) :
    liveSlots (pre ++ s :: post) = if s.isEnd then pre else pre ++ liveSlots post := by
  have happend : liveSlots (pre ++ s :: post) = liveSlots pre ++ liveSlots (s :: post) :=
    live_append_of_not_stop (noEnd_used h) _
  rw [happend, liveSlots_used h, liveSlots, live]
  cases hend : s.isEnd with
  | true => simp
  | false =>
    have hemp : s.isEmpty = true := by simpa [hend] using hs
    simp [hemp, liveSlots]

theorem isEnd_of_attr (h : s.de.attr = sfatAttrEmptyEnd) : s.isEnd = true := by
  rw [Slot.isEnd, SfatDirEntry.isEnd, h]
  decide

theorem marked_isEnd {a : ℕ} (h : s.addr fs = a) : (s.marked fs a).isEnd = true := by
  apply isEnd_of_attr
  rw [Slot.marked, if_pos h]

/-- Nothing is live behind a terminator. -/
theorem liveSlots_marked {a : ℕ} (h : s.addr fs = a) :
    liveSlots ((s :: post).map (Slot.marked fs a)) = [] := by
  rw [List.map_cons, liveSlots, live, if_pos (marked_isEnd h)]

end Live

/-! ### The slot that is filled -/

section Filled

variable {ks : List ℕ} {pre post : List Slot} {s t : Slot} {de : SfatDirEntry}

/-- Other slots of the directory are at other places. -/
theorem other_place (hks : ks.Nodup) (hsplit : dirSlots fs v ks = pre ++ s :: post)
    (ht : t ∈ pre ∨ t ∈ post) : ¬ (t.cls = s.cls ∧ t.blk = s.blk ∧ t.idx = s.idx) := by
  intro hplace
  have hs : s ∈ dirSlots fs v ks := hsplit ▸ by simp
  have hmem : t ∈ dirSlots fs v ks := by
    rw [hsplit]
    rcases ht with ht | ht
    · simp [ht]
    · simp [ht]
  obtain rfl := slot_ext hmem hs hplace
  have hnd : (dirSlots fs v ks).Nodup := dirSlots_nodup hks
  rw [hsplit, List.nodup_append] at hnd
  rcases ht with ht | ht
  · exact hnd.2.2 _ ht _ List.mem_cons_self rfl
  · exact (List.nodup_cons.mp hnd.2.1).1 ht

/-- The slot behind a slot that is not the last one of its block. -/
theorem next_in_block (hks : ks.Nodup) (hsplit : dirSlots fs v ks = pre ++ s :: post)
    (hidx : s.idx + 1 < fs.direntPerBlk) : ∃ t rest, post = t :: rest ∧
      t.addr fs = s.addr fs + 32 := by
  obtain ⟨as, bs, -, hpost⟩ := dirSlots_split hks hsplit
  obtain ⟨n, hn⟩ : ∃ n, fs.direntPerBlk - (s.idx + 1) = n + 1 :=
    ⟨fs.direntPerBlk - (s.idx + 1) - 1, by omega⟩
  rw [slotsBehind, hn, pageSlots_succ] at hpost
  exact ⟨_, _, hpost, rfl⟩

/-- The slots before and behind a slot are at different addresses. -/
theorem addr_ne_behind (hp : Placed fs) (hks : ks.Nodup) (hlt : ∀ c ∈ ks, c < 2 ^ 32)
    (hsplit : dirSlots fs v ks = pre ++ s :: post) {u : Slot} (ht : t ∈ pre) (hu : u ∈ post) :
    t.addr fs ≠ u.addr fs := by
  intro haddr
  have htmem : t ∈ dirSlots fs v ks := by simp [hsplit, ht]
  have humem : u ∈ dirSlots fs v ks := by simp [hsplit, hu]
  have hplace := place_of_addr hp (placed_of_mem hlt htmem) (placed_of_mem hlt humem) haddr
  obtain rfl := slot_ext htmem humem hplace
  have hnd : (dirSlots fs v ks).Nodup := dirSlots_nodup hks
  rw [hsplit, List.nodup_append] at hnd
  exact hnd.2.2 t ht t (List.mem_cons_of_mem _ hu) rfl

/-- The slot that follows the filled one becomes the terminator, if this one was it and another one
follows in the block. -/
def markedBehind (fs : FsInfo) (s : Slot) (post : List Slot) : List Slot :=
  if s.de.attr = sfatAttrEmptyEnd ∧ s.idx + 1 < fs.direntPerBlk then
    post.map (Slot.marked fs (s.addr fs + 32)) else post

theorem markedBehind_nil : markedBehind fs s [] = [] := by
  rw [markedBehind]
  split
  · rfl
  · rfl

/-- **The slots after one of them was filled.** -/
theorem slots_slotWritten (hp : Placed fs) (hks : ks.Nodup) (hlt : ∀ c ∈ ks, c < 2 ^ 32)
    (hsplit : dirSlots fs v ks = pre ++ s :: post) (hde : de.Fits) :
    dirSlots fs (slotWritten fs v s de) ks = pre ++ { s with de := de } :: markedBehind fs s post := by
  have hmem : ∀ {t}, t ∈ pre ++ s :: post → t ∈ dirSlots fs v ks := fun ht => hsplit ▸ ht
  have hs : SlotPlaced fs s := placed_of_mem hlt (hmem (by simp))
  have h32 : (s.addr fs + 32) % 32 = 0 := by
    rw [Slot.addr_eq hp hs.cls_lt]
    omega
  -- another slot is changed by the new terminator at most
  have hother : ∀ t, t ∈ pre ∨ t ∈ post → t.reread fs (slotWritten fs v s de) =
      if s.de.attr = sfatAttrEmptyEnd ∧ s.idx + 1 < fs.direntPerBlk then
        t.marked fs (s.addr fs + 32) else t := by
    intro t ht
    have htmem : t ∈ dirSlots fs v ks := hmem (by rcases ht with ht | ht <;> simp [ht])
    have htp := placed_of_mem hlt htmem
    rw [slotWritten, reread_putDirent_ne hp hs htp (other_place hks hsplit ht)]
    by_cases hmark : s.de.attr = sfatAttrEmptyEnd ∧ s.idx + 1 < fs.direntPerBlk
    · rw [if_pos hmark, if_pos hmark]
      exact reread_putAttr hp htp h32 (slot_de (mem_dirSlots.mp htmem).2)
    · rw [if_neg hmark, if_neg hmark]
      exact reread_self htmem
  have hpre : pre.map (Slot.reread fs (slotWritten fs v s de)) = pre := by
    conv_rhs => rw [← List.map_id pre]
    refine List.map_congr_left fun t ht => ?_
    rw [hother t (.inl ht), id]
    split
    · rename_i hmark
      obtain ⟨u, rest, hpost, hu⟩ := next_in_block hks hsplit hmark.2
      have hne : t.addr fs ≠ u.addr fs := addr_ne_behind hp hks hlt hsplit ht (by simp [hpost])
      rw [Slot.marked, if_neg (hu ▸ hne)]
    · rfl
  have hself : s.reread fs (slotWritten fs v s de) = { s with de := de } := by
    rw [Slot.reread, direntAt_slotWritten s hde]
  have hpost : post.map (Slot.reread fs (slotWritten fs v s de)) = markedBehind fs s post := by
    rw [markedBehind]
    by_cases hmark : s.de.attr = sfatAttrEmptyEnd ∧ s.idx + 1 < fs.direntPerBlk
    · rw [if_pos hmark]
      refine List.map_congr_left fun t ht => ?_
      rw [hother t (.inr ht), if_pos hmark]
    · rw [if_neg hmark]
      conv_rhs => rw [← List.map_id post]
      refine List.map_congr_left fun t ht => ?_
      rw [hother t (.inr ht), if_neg hmark, id]
  rw [dirSlots_reread v (slotWritten fs v s de), hsplit, List.map_append, List.map_cons, hpre, hself,
    hpost]

/-- **The slots after the terminator was written to the first slot of a block.** -/
theorem slots_terminatorWritten (hp : Placed fs) (hlt : ∀ c ∈ ks, c < 2 ^ 32) (cls blk : ℕ) :
    dirSlots fs (terminatorWritten fs v cls blk) ks =
      (dirSlots fs v ks).map (Slot.marked fs (termAddr fs cls blk)) := by
  obtain ⟨d, -, -, hbs⟩ := hp.blockSize_slots
  have h32 : termAddr fs cls blk % 32 = 0 := by
    rw [termAddr, hbs, Nat.mul_left_comm, Nat.mul_mod_right]
  rw [dirSlots_reread v (terminatorWritten fs v cls blk)]
  refine List.map_congr_left fun t ht => ?_
  exact reread_putAttr hp (placed_of_mem hlt ht) h32 (slot_de (mem_dirSlots.mp ht).2)

/-- The last slot of a block is not the first one of a block. -/
theorem marked_last (hp : Placed fs) (hs : s.idx + 1 = fs.direntPerBlk) (cls blk : ℕ) :
    s.marked fs (termAddr fs cls blk) = s := by
  obtain ⟨d, hd16, hd, hbs⟩ := hp.blockSize_slots
  rw [Slot.marked, if_neg]
  rw [Slot.addr, slotAddr, termAddr]
  generalize (clsToBlk fs cls + blk) % sizeT = a
  generalize clsToBlk fs s.cls + s.blk = b
  intro h
  have hmod := congrArg (· % fs.blockSize) h
  simp only [Nat.mul_mod_left, Nat.mul_add_mod_self_right] at hmod
  rw [Nat.mod_eq_of_lt (by omega)] at hmod
  omega

end Filled

/-! ### Behind a cluster -/

section Behind

variable {as bs : List ℕ} {c : ℕ}

/-- The walk ends with a cluster without a link. -/
theorem walk_behind_none {look : (blk pos : ℕ) → Page → ℕ} {n : ℕ}
    (h : walkClusters look fs v n start = as ++ c :: bs) (hnext : nextCls look fs v c = none) :
    bs = [] := by
  obtain ⟨-, hrest⟩ := trail_split h
  cases hn : n - as.length with
  | zero =>
    rw [hn] at hrest
    cases hrest
  | succ m =>
    rw [hn, trail, hnext] at hrest
    exact (List.cons.inj hrest).2.symm

/-- The walk goes on to the cluster that is linked. -/
theorem walk_behind_some (hp : Placed fs) (hchain : DirChain storedWord fs v start cs)
    (h : walkClusters storedWord fs v fs.clusters start = as ++ c :: bs) {d : ℕ}
    (hnext : nextCls storedWord fs v c = some d) : ∃ rest, bs = d :: rest := by
  have hmax := hp.clusters_lt
  obtain ⟨ds, hds⟩ := hchain.walk_prefix hp.toWellFormed fs.clusters
  rw [h, List.append_assoc, List.cons_append] at hds
  -- a round is left for the linked cluster, because the chain does not end here
  have hlen : as.length + 2 ≤ fs.clusters := by
    have hle := hchain.length_le
    rw [← hds, List.length_append, List.length_cons] at hle
    by_contra hnot
    have hnil : bs ++ ds = [] := List.eq_nil_of_length_eq_zero (by omega)
    rw [hnil] at hds
    have hlast := hchain.path.last
    obtain ⟨-, hword, hnext⟩ := nextCls_some hnext
    rw [sfatEntryMax] at hmax
    simp only [← hds, List.getLast_append_singleton] at hlast
    rw [hlast, sfatEntryEoc] at hword
    omega
  obtain ⟨-, hrest⟩ := trail_split h
  obtain ⟨m, hm⟩ : ∃ m, fs.clusters - as.length = m + 2 := ⟨fs.clusters - as.length - 2, by omega⟩
  rw [hm, trail, hnext] at hrest
  have htail : trail (nextCls storedWord fs v) (m + 1) d = bs := (List.cons.inj hrest).2
  rw [trail] at htail
  exact ⟨_, htail.symm⟩

end Behind

/-! ### The flush of the directory -/

section Flush

variable {dir dir' : Inode}

theorem DirOwnSlot.congr (h : DirOwnSlot fs v cs dir) (hino : dir'.iIno = dir.iIno)
    (hpos : dir'.iPos = dir.iPos) : DirOwnSlot fs v cs dir' := by
  rcases h with hroot | ⟨d, hslot⟩
  · exact .inl (hino.trans hroot)
  · exact .inr ⟨d, hslot.congr hino hpos⟩

/-- The flush of a directory changes no word of the FAT. -/
theorem DirOwnSlot.sameFat (hp : Placed fs) (h : DirOwnSlot fs v cs dir) (w : Vol) :
    SameFat fs w (flushed fs w dir) := by
  rcases h with hroot | ⟨d, hslot⟩
  · rw [flushed_root hroot]
    exact SameFat.refl fs w
  · exact flushed_sameFat hp (hslot.position hp) w

/-- The flush of a directory changes none of its slots, also none in a free cluster. -/
theorem DirOwnSlot.dirSlots_flushed (hp : Placed fs) (h : DirOwnSlot fs v cs dir) (w : Vol)
    {ks : List ℕ} (hks : ∀ c ∈ ks, c < 2 ^ 32 ∧ (c ∈ cs ∨ fatWord fs v c = sfatEntryFree)) :
    dirSlots fs (flushed fs w dir) ks = dirSlots fs w ks := by
  rcases h with hroot | ⟨d, hslot⟩
  · rw [flushed_root hroot]
  · rw [dirSlots_reread w (flushed fs w dir)]
    refine map_reread_eq fun s hs => ?_
    obtain ⟨hcls, hmem⟩ := mem_dirSlots.mp hs
    obtain ⟨hlt, hin⟩ := hks _ hcls
    have hne : d ≠ s.cls := by
      rintro rfl
      exact hin.elim hslot.not_mem hslot.inUse
    obtain ⟨-, hblk, hidx, -⟩ := mem_clusterSlots.mp hmem
    have hin := slotAddr_mem (d := s.cls) hp hblk hidx
    rw [← Slot.addr] at hin
    rw [slot_de hmem]
    refine direntAt_congr fun i hi => flushed_apply_cluster hp hslot w ?_
    rcases clsAddr_apart hp (hslot.lt hp) hlt hne with h | h
    · omega
    · omega

end Flush

/-! ### What the scanners see afterwards -/

section Visible

variable {pre post : List Slot} {s : Slot} {de : SfatDirEntry} {dir : Inode}

/-- A slot lies in the data area. -/
theorem SlotPlaced.data_le (hp : Placed fs) (hs : SlotPlaced fs s) :
    fs.dataStartBlk * fs.blockSize ≤ s.addr fs := by
  have hdata := dataStart_le_clsAddr hp hs.cls_lt
  have hin := slotAddr_mem (d := s.cls) hp hs.blk_lt hs.idx_lt
  rw [← Slot.addr] at hin
  omega

/-- Slots depend on the data area. -/
theorem dirSlots_data (hp : Placed fs) {ks : List ℕ} {w : Vol} (hlt : ∀ c ∈ ks, c < 2 ^ 32)
    (h : ∀ a, fs.dataStartBlk * fs.blockSize ≤ a → w a = v a) :
    dirSlots fs w ks = dirSlots fs v ks := by
  rw [dirSlots_reread v w]
  refine map_reread_eq fun t ht => ?_
  have hdata := (placed_of_mem hlt ht).data_le hp
  rw [slot_de (mem_dirSlots.mp ht).2]
  exact direntAt_congr fun i _ => h _ (by omega)

/-- A slot that is filled changes nothing before the data area. -/
theorem slotWritten_below (hp : Placed fs) (hs : SlotPlaced fs s) (de : SfatDirEntry) {a : ℕ}
    (ha : a < fs.dataStartBlk * fs.blockSize) : slotWritten fs v s de a = v a := by
  have hdata := hs.data_le hp
  rw [slotWritten, putDirent, patch_of_lt _ _ (by omega)]
  split
  · exact patch_of_lt _ _ (by omega)
  · rfl

/-- The first block of a cluster, as `sfat_create_file` computes its address. -/
theorem termAddr_cluster (hp : Placed fs) {c : ℕ} (hc : c < 2 ^ 32) :
    termAddr fs c 0 = slotAddr fs c 0 0 := by
  have hlt := (hp.clsToBlk_lt hc).1
  rw [termAddr, slotAddr, sizeT, Nat.add_zero, Nat.mul_zero, Nat.add_zero,
    Nat.mod_eq_of_lt (by omega)]

/-- The terminator of a cluster changes nothing before the data area. -/
theorem terminatorWritten_below (hp : Placed fs) {c : ℕ} (hc : c < 2 ^ 32) {a : ℕ}
    (ha : a < fs.dataStartBlk * fs.blockSize) : terminatorWritten fs v c 0 a = v a := by
  have hdata := dataStart_le_clsAddr hp hc
  have haddr : termAddr fs c 0 = clsAddr fs c := by
    rw [termAddr_cluster hp hc, slotAddr, clsAddr, Nat.add_zero, Nat.add_zero]
  rw [terminatorWritten, ← termAddr, putAttr, patch_of_lt _ _ (by omega)]

/-- The slots of the chain after a change that leaves its words alone, and the flush. -/
theorem chainSlots_after (hp : Placed fs) (hchain : DirChain storedWord fs v start cs)
    (hown : DirOwnSlot fs v cs dir) {w : Vol} (hword : ∀ c ∈ cs, fatWord fs w c = fatWord fs v c) :
    chainSlots storedWord fs (flushed fs w dir) start =
      dirSlots fs w (walkClusters storedWord fs v fs.clusters start) := by
  have hmax := hp.clusters_lt
  rw [sfatEntryMax] at hmax
  have hwords : ∀ c ∈ cs, fatWord fs (flushed fs w dir) c = fatWord fs v c := fun c hc =>
    (hown.sameFat hp w c (lt_fatWords hp (hchain.below c hc))).trans (hword c hc)
  rw [chainSlots, hchain.walk_congr hp hwords]
  refine hown.dirSlots_flushed hp w fun c hc => ?_
  have hmem : c ∈ cs := (hchain.walk_prefix hp.toWellFormed fs.clusters).subset hc
  have hlt := hchain.below c hmem
  exact ⟨by omega, .inl hmem⟩

/-- The places of the slots that the scanners see. -/
theorem walk_lt (hp : Placed fs) (hchain : DirChain storedWord fs v start cs) :
    ∀ c ∈ walkClusters storedWord fs v fs.clusters start, c < 2 ^ 32 := by
  have hmax := hp.clusters_lt
  rw [sfatEntryMax] at hmax
  intro c hc
  have hlt := hchain.below c ((hchain.walk_prefix hp.toWellFormed fs.clusters).subset hc)
  omega

theorem walk_nodup (hwf : WellFormed fs) (hchain : DirChain storedWord fs v start cs) :
    (walkClusters storedWord fs v fs.clusters start).Nodup :=
  hchain.nodup.sublist (hchain.walk_prefix hwf fs.clusters).sublist

/-- **After a slot was filled**, the terminator at most moved inside its block. -/
theorem visible_slotWritten (hp : Placed fs) (hchain : DirChain storedWord fs v start cs)
    (hown : DirOwnSlot fs v cs dir) (hsplit : chainSlots storedWord fs v start = pre ++ s :: post)
    (hde : de.Fits) : chainSlots storedWord fs (flushed fs (slotWritten fs v s de) dir) start =
      pre ++ { s with de := de } :: markedBehind fs s post := by
  have hs : SlotPlaced fs s := placed_of_mem (walk_lt hp hchain) (by rw [← chainSlots, hsplit]; simp)
  have hfat : SameFat fs v (slotWritten fs v s de) :=
    SameFat.of_below hp fun a ha => slotWritten_below hp hs de ha
  rw [chainSlots_after hp hchain hown fun c hc => hfat c (lt_fatWords hp (hchain.below c hc))]
  exact slots_slotWritten hp (walk_nodup hp.toWellFormed hchain) (walk_lt hp hchain) hsplit hde

/-- **After the terminator moved to a block**, wherever that is. -/
theorem visible_terminator (hp : Placed fs) (hchain : DirChain storedWord fs v start cs)
    (hown : DirOwnSlot fs v cs dir) (hsplit : chainSlots storedWord fs v start = pre ++ s :: post)
    (hde : de.Fits) (hlast : s.EndsBlock fs) {c blk : ℕ}
    (hword : ∀ e ∈ cs, fatWord fs (terminatorWritten fs v c blk) e = fatWord fs v e) :
    chainSlots storedWord fs
        (flushed fs (terminatorWritten fs (slotWritten fs v s de) c blk) dir) start =
      pre.map (Slot.marked fs (termAddr fs c blk)) ++
        { s with de := de } :: post.map (Slot.marked fs (termAddr fs c blk)) := by
  have hs : SlotPlaced fs s := placed_of_mem (walk_lt hp hchain) (by rw [← chainSlots, hsplit]; simp)
  have hbehind : markedBehind fs s post = post := by
    have hidx := hlast.2
    rw [markedBehind, if_neg (by omega)]
  have hself : Slot.marked fs (termAddr fs c blk) ⟨s.cls, s.blk, s.idx, de⟩ =
      ⟨s.cls, s.blk, s.idx, de⟩ := marked_last (s := ⟨s.cls, s.blk, s.idx, de⟩) hp hlast.2 c blk
  -- the slot that was filled lies behind the FAT
  have hfat : ∀ e ∈ cs, fatWord fs (terminatorWritten fs (slotWritten fs v s de) c blk) e =
      fatWord fs v e := by
    intro e he
    have haddr := fatWordAddr_lt_data hp (lt_fatWords hp (hchain.below e he))
    rw [← hword e he]
    refine le32_congr fun i hi => ?_
    rw [terminatorWritten, terminatorWritten, putAttr, putAttr, patch, patch,
      slotWritten_below hp hs de (by omega)]
  rw [chainSlots_after hp hchain hown hfat, slots_terminatorWritten hp (walk_lt hp hchain),
    slots_slotWritten hp (walk_nodup hp.toWellFormed hchain) (walk_lt hp hchain) hsplit hde,
    List.map_append, List.map_cons, hbehind, hself]

end Visible

/-! ### A new cluster -/

section Grown

variable {c : ℕ} {de : SfatDirEntry} {dir : Inode}

/-- No cluster of a chain is free. -/
theorem DirChain.used (hp : Placed fs) (hchain : DirChain storedWord fs v start cs) {e : ℕ}
    (he : e ∈ cs) : fatWord fs v e ≠ sfatEntryFree := by
  have hmax := hp.clusters_lt
  rw [sfatEntryMax] at hmax
  rcases hchain.path.inner he with hD | ⟨-, f, hf, hmem⟩
  · rw [nextWord_storedWord hp.toWellFormed] at hD
    rw [hD]
    decide
  · rw [nextWord_storedWord hp.toWellFormed] at hf
    have hlt := hchain.below f hmem
    rw [Option.some.inj hf, sfatEntryFree]
    omega

/-- The cluster whose word is replaced is the last one of the chain. -/
theorem DirChain.appendTarget (hp : Placed fs) (hchain : DirChain storedWord fs v start cs)
    (hacc : ∀ e ∈ cs, e + 1 < fs.clusters) {w : Vol}
    (hword : ∀ e ∈ cs, fatWord fs w e = fatWord fs v e) {n : ℕ} (hn : cs.length ≤ n) :
    appendTarget storedWord fs w n start = some (cs.getLast hchain.path.ne_nil) := by
  obtain ⟨hpath, hbelow⟩ := hchain
  have hpred := hp.clustersPred_eq hp.clusters_pos
  have hlook : ∀ e ∈ cs, nextWord storedWord fs w e = nextWord storedWord fs v e := by
    intro e he
    rw [nextWord_storedWord hp.toWellFormed, nextWord_storedWord hp.toWellFormed, hword e he]
  clear hword
  induction hpath generalizing n with
  | @stop e hD =>
    obtain ⟨n, rfl⟩ : ∃ m, n = m + 1 := ⟨n - 1, by simp at hn; omega⟩
    have he := hacc e (List.mem_singleton_self e)
    have heoc : nextWord storedWord fs w e = sfatEntryEoc := by
      rw [hlook e (List.mem_singleton_self e)]
      exact hD
    rw [SimpleFat.appendTarget, if_neg (by omega), if_pos heoc, List.getLast_singleton]
  | @next e f es hn' hs hpath ih =>
    obtain ⟨n, rfl⟩ : ∃ m, n = m + 1 := ⟨n - 1, by simp at hn; omega⟩
    obtain rfl := Option.some.inj hs
    have he := hacc e List.mem_cons_self
    have hf := hbelow _ (List.mem_cons_of_mem e hpath.head_mem)
    rw [SimpleFat.appendTarget, hlook e List.mem_cons_self, if_neg (by omega), if_neg hn',
      if_neg (by omega), List.getLast_cons hpath.ne_nil]
    exact ih (fun x hx => hacc x (List.mem_cons_of_mem _ hx)) (by simpa using hn)
      (fun x hx => hbelow x (List.mem_cons_of_mem _ hx))
      (fun x hx => hlook x (List.mem_cons_of_mem _ hx))

/-- The volume after a cluster was linked to the last one of a chain and started. -/
def grownVolume (fs : FsInfo) (v : Vol) (c d : ℕ) (de : SfatDirEntry) : Vol :=
  clusterStarted fs (setFatWord fs (setFatWord fs v c sfatEntryEoc) d c) c de

/-- A cluster that is started changes nothing before the data area. -/
theorem clusterStarted_below (hp : Placed fs) (hc : c < 2 ^ 32) {a : ℕ}
    (ha : a < fs.dataStartBlk * fs.blockSize) : clusterStarted fs v c de a = v a := by
  have hdata := dataStart_le_clsAddr hp hc
  have haddr : ∀ k, slotAddr fs c 0 k = clsAddr fs c + 32 * k := fun k => by
    rw [slotAddr, clsAddr, Nat.add_zero]
  rw [clusterStarted, haddr, haddr, putAttr, putDirent, patch_of_lt _ _ (by omega),
    patch_of_lt _ _ (by omega)]

/-- The words of the FAT afterwards. -/
theorem fatWord_grown (hp : Placed fs) (hc : c < fatWords fs) {d e : ℕ} (he : e < fatWords fs) :
    fatWord fs (grownVolume fs v c d de) e =
      if e = d then c else if e = c then sfatEntryEoc else fatWord fs v e := by
  have hlt := lt_of_fatWords hp hc
  have hfat : SameFat fs (setFatWord fs (setFatWord fs v c sfatEntryEoc) d c)
      (grownVolume fs v c d de) := SameFat.of_below hp fun a ha => clusterStarted_below hp hlt ha
  rw [hfat e he]
  by_cases hed : e = d
  · rw [if_pos hed, hed, fatWord_setFatWord_of_lt hlt]
  · rw [if_neg hed, fatWord_setFatWord_ne hed]
    by_cases hec : e = c
    · rw [if_pos hec, hec, fatWord_setFatWord_of_lt (by decide)]
    · rw [if_neg hec, fatWord_setFatWord_ne hec]

/-- **The walk afterwards** goes on to the new cluster, if its number is not too large. -/
theorem walk_grown (hp : Placed fs) (hchain : DirChain storedWord fs v start cs)
    (hacc : ∀ e ∈ cs, e + 1 < fs.clusters) (hfree : FirstFree fs v c) {w : Vol}
    (hw : SameFat fs (grownVolume fs v c (cs.getLast hchain.path.ne_nil) de) w) :
    walkClusters storedWord fs w fs.clusters start =
      cs ++ if c ≤ fs.clusters then [c] else [] := by
  have hmax := hp.clusters_lt
  have hpred := hp.clustersPred_eq hp.clusters_pos
  rw [sfatEntryMax] at hmax
  have hlastmem : cs.getLast hchain.path.ne_nil ∈ cs := List.getLast_mem _
  have hnot : c ∉ cs := fun hmem => hchain.used hp hmem hfree.2.1
  have hword : ∀ e < fatWords fs, nextWord storedWord fs w e =
      if e = cs.getLast hchain.path.ne_nil then c
      else if e = c then sfatEntryEoc else fatWord fs v e := fun e he => by
    rw [nextWord_storedWord hp.toWellFormed, hw e he, fatWord_grown hp hfree.1 he]
  -- one round is left for the new cluster
  have hroom : cs.length + 1 ≤ fs.clusters := by
    have hle := hchain.path.length_le (n := fs.clusters - 1) fun e he => by
      have := hacc e he
      omega
    have := hp.clusters_pos
    omega
  have hinner : ∀ e ∈ cs, ¬ nextWord storedWord fs v e = sfatEntryEoc →
      nextCls storedWord fs w e = some (nextWord storedWord fs v e) := by
    intro e he hn
    have hel : e ≠ cs.getLast hchain.path.ne_nil := by
      rintro rfl
      exact hn hchain.path.last
    have hnext : nextWord storedWord fs v e < fs.clusters := by
      rcases hchain.path.inner he with hD | ⟨-, f, hf, hmem⟩
      · exact absurd hD hn
      · rw [Option.some.inj hf]
        exact hchain.below f hmem
    have hlt := hacc e he
    have hec : ¬ e = c := fun h => hnot (h ▸ he)
    rw [nextCls, hword e (lt_fatWords hp (hchain.below e he)), if_neg hel, if_neg hec,
      ← nextWord_storedWord hp.toWellFormed, if_neg (by omega), if_neg (by omega)]
  have htrail : walkClusters storedWord fs w fs.clusters start = cs ++ _ :=
    hchain.path.trail_append hinner (by omega)
  have hlast := hacc _ hlastmem
  have hlink : nextCls storedWord fs w (cs.getLast hchain.path.ne_nil) =
      if c ≤ fs.clusters then some c else none := by
    rw [nextCls, hword _ (lt_fatWords hp (hchain.below _ hlastmem)), if_pos rfl,
      if_neg (by omega)]
    by_cases hc : c ≤ fs.clusters
    · rw [if_pos hc, if_neg (by omega)]
    · rw [if_neg hc, if_pos (by omega)]
  rw [htrail, hlink]
  by_cases hc : c ≤ fs.clusters
  · obtain ⟨m, hm⟩ : ∃ m, fs.clusters - cs.length = m + 1 := ⟨fs.clusters - cs.length - 1, by omega⟩
    have hstop : nextCls storedWord fs w c = none := by
      have hcl : c ≠ cs.getLast hchain.path.ne_nil := by
        intro h
        rw [h] at hnot
        exact hnot hlastmem
      rw [nextCls, hword c hfree.1, if_neg hcl, if_pos rfl, sfatEntryEoc]
      split
      · rfl
      · rw [if_pos (by omega)]
    rw [if_pos hc, if_pos hc, hm]
    show cs ++ trail (nextCls storedWord fs w) (m + 1) c = _
    rw [trail, hstop]
  · rw [if_neg hc, if_neg hc]
    rfl

/-- The slots of the chain do not change. -/
theorem dirSlots_grown (hp : Placed fs) (hlt : ∀ e ∈ cs, e < 2 ^ 32) (hc : c < fatWords fs)
    (hnot : c ∉ cs) {d : ℕ} (hd : d < fatWords fs) :
    dirSlots fs (grownVolume fs v c d de) cs = dirSlots fs v cs := by
  obtain ⟨k, hk16, hk, -⟩ := hp.blockSize_slots
  have hc32 := lt_of_fatWords hp hc
  rw [dirSlots_reread v (grownVolume fs v c d de)]
  refine map_reread_eq fun t ht => ?_
  have htp := placed_of_mem hlt ht
  have hdata := htp.data_le hp
  have hcls : t.cls ≠ c := fun h => hnot (h ▸ (mem_dirSlots.mp ht).1)
  have hwc := fatWordAddr_lt_data hp hc
  have hwd := fatWordAddr_lt_data hp hd
  -- the two slots that are written lie in another cluster
  have happ : ∀ i < fs.direntPerBlk,
      t.addr fs + 32 ≤ slotAddr fs c 0 i ∨ slotAddr fs c 0 i + 32 ≤ t.addr fs := fun i hi =>
    slot_apart (t := ⟨c, 0, i, de⟩) hp htp ⟨hc32, hp.blkPerClus_pos, hi⟩ fun h => hcls h.1
  have h0 := happ 0 (by omega)
  have h1 := happ 1 (by omega)
  rw [grownVolume, clusterStarted, direntAt_putAttr_ne _ _ (by omega),
    direntAt_putDirent_ne _ _ (by omega), setFatWord, setFatWord, putLe32, putLe32,
    direntAt_patch_disjoint _ _ (by omega), direntAt_patch_disjoint _ _ (by omega),
    slot_de (mem_dirSlots.mp ht).2]

/-- The slots of the new cluster: the new entry, the terminator, and what was there before. -/
theorem clusterSlots_grown (hp : Placed fs) {d : ℕ} (hde : de.Fits) : ∃ t rest,
    clusterSlots fs (grownVolume fs v c d de) c = ⟨c, 0, 0, de⟩ :: t :: rest ∧
      t.de.attr = sfatAttrEmptyEnd := by
  obtain ⟨k, hk16, hk, -⟩ := hp.blockSize_slots
  obtain ⟨n, hn⟩ : ∃ n, fs.direntPerBlk = n + 2 := ⟨fs.direntPerBlk - 2, by omega⟩
  obtain ⟨b, hb⟩ : ∃ b, fs.blkPerClus = b + 1 :=
    ⟨fs.blkPerClus - 1, by have := hp.blkPerClus_pos; omega⟩
  rw [clusterSlots, hb, blockSlots_succ, hn, pageSlots_succ, pageSlots_succ]
  have h0 : direntAt (blockAt (grownVolume fs v c d de) fs.blockSize (clsToBlk fs c + 0)) (32 * 0) =
      de := by
    rw [direntAt_blockAt]
    exact direntAt_clusterStarted c hde
  refine ⟨_, _, by rw [h0]; rfl, ?_⟩
  show (direntAt (blockAt (grownVolume fs v c d de) fs.blockSize (clsToBlk fs c + 0))
    (32 * (0 + 1))).attr = sfatAttrEmptyEnd
  rw [direntAt_blockAt]
  show (direntAt (grownVolume fs v c d de) (slotAddr fs c 0 1)).attr = sfatAttrEmptyEnd
  rw [grownVolume, clusterStarted, direntAt_putAttr]

/-- **After a cluster was added**: the new entry is behind all others, or not seen at all. -/
theorem visible_grown (hp : Placed fs) (hchain : DirChain storedWord fs v start cs)
    (hown : DirOwnSlot fs v cs dir) (hacc : ∀ e ∈ cs, e + 1 < fs.clusters) (hfree : FirstFree fs v c)
    (hde : de.Fits) (hend : de.isEnd = false) (hemp : de.isEmpty = false)
    (hused : ∀ t ∈ dirSlots fs v cs, t.isEnd = false ∧ t.isEmpty = false) :
    visibleSlots fs (flushed fs (grownVolume fs v c (cs.getLast hchain.path.ne_nil) de) dir) start =
      dirSlots fs v cs ++ if c ≤ fs.clusters then [⟨c, 0, 0, de⟩] else [] := by
  have hmax := hp.clusters_lt
  rw [sfatEntryMax] at hmax
  have hlt : ∀ e ∈ cs, e < 2 ^ 32 := fun e he => by
    have := hchain.below e he
    omega
  have hnot : c ∉ cs := fun hmem => hchain.used hp hmem hfree.2.1
  have hlast : cs.getLast hchain.path.ne_nil < fatWords fs :=
    lt_fatWords hp (hchain.below _ (List.getLast_mem _))
  have hks : ∀ e ∈ cs ++ (if c ≤ fs.clusters then [c] else []),
      e < 2 ^ 32 ∧ (e ∈ cs ∨ fatWord fs v e = sfatEntryFree) := by
    intro e he
    rcases List.mem_append.mp he with he | he
    · exact ⟨hlt e he, .inl he⟩
    · split at he
      · obtain rfl := List.mem_singleton.mp he
        exact ⟨lt_of_fatWords hp hfree.1, .inr hfree.2.1⟩
      · cases he
  rw [visibleSlots, chainSlots, walk_grown hp hchain hacc hfree (hown.sameFat hp _),
    hown.dirSlots_flushed hp _ hks, dirSlots_append, dirSlots_grown hp hlt hfree.1 hnot hlast]
  by_cases hc : c ≤ fs.clusters
  · obtain ⟨t, rest, hslots, ht⟩ := clusterSlots_grown (v := v) (c := c) hp
      (d := cs.getLast hchain.path.ne_nil) hde
    rw [if_pos hc, if_pos hc, dirSlots_cons, dirSlots_nil, List.append_nil, hslots,
      liveSlots_filled (s := ⟨c, 0, 0, de⟩) hused hend hemp, liveSlots, live,
      if_pos (isEnd_of_attr ht)]
  · rw [if_neg hc, if_neg hc, dirSlots_nil, List.append_nil, liveSlots_used hused]

end Grown

/-! ### One entry more -/

section Adds

variable {n : List UInt8} {pre post post' : List Slot} {s x : Slot}

structure NewEntry (n : List UInt8) (x : Slot) : Prop where
  isEnd : x.isEnd = false
  isEmpty : x.isEmpty = false
  name : cString x.de.name = n
  size : x.de.size = 0
  fstClsNo : x.de.fstClsNo = sfatEntryFree

/-- The entry that `sfat_create_file` forms. -/
theorem newEntry (hlen : n.length ≤ 11) (hnul : NoNul n) (cls blk idx t : ℕ) :
    NewEntry n ⟨cls, blk, idx, sfatFormDirEntry false (padName n) 0 0 t⟩ where
  isEnd := by
    show (sfatAttrNone &&& sfatAttrEmptyEnd != 0) = false
    decide
  isEmpty := by
    show (sfatAttrNone &&& sfatAttrEmpty != 0) = false
    decide
  name := by
    rw [cString_formDirEntry, cString_padName hnul, List.take_of_length_le hlen]
  size := rfl
  fstClsNo := rfl

theorem AddsEntry.length {old new : List Slot} (h : AddsEntry n old new) :
    new.length = old.length + 1 := by
  obtain ⟨as, bs, t, rfl, rfl, -⟩ := h
  simp [Nat.add_assoc]

/-- A hole that is filled adds one entry. -/
theorem adds_hole (hused : ∀ t ∈ pre, t.isEnd = false ∧ t.isEmpty = false)
    (hs : (s.isEnd || s.isEmpty) = true) (hend : s.isEnd = false) (hx : NewEntry n x) :
    AddsEntry n (liveSlots (pre ++ s :: post)) (liveSlots (pre ++ x :: post)) := by
  rw [liveSlots_unused hused hs, hend, liveSlots_filled hused hx.isEnd hx.isEmpty]
  exact ⟨pre, liveSlots post, x, rfl, rfl, hx.name, hx.size, hx.fstClsNo⟩

/-- A terminator that is filled adds one entry, if nothing appears behind it. -/
theorem adds_terminator (hused : ∀ t ∈ pre, t.isEnd = false ∧ t.isEmpty = false)
    (hend : s.isEnd = true) (hx : NewEntry n x) :
    AddsEntry n (liveSlots (pre ++ s :: post)) (liveSlots (pre ++ x :: post')) ↔
      liveSlots post' = [] := by
  rw [liveSlots_unused hused (by simp [hend]), hend, liveSlots_filled hused hx.isEnd hx.isEmpty]
  constructor
  · intro h
    have hlen := h.length
    simp only [List.length_append, List.length_cons, if_true] at hlen
    exact List.eq_nil_of_length_eq_zero (by omega)
  · intro h
    rw [h]
    exact ⟨pre, [], x, (List.append_nil _).symm, rfl, hx.name, hx.size, hx.fstClsNo⟩

/-- The cluster number that was never set must lead to no slot before the terminator. -/
theorem adds_strayed (hused : ∀ t ∈ pre, t.isEnd = false ∧ t.isEmpty = false)
    (hend : s.isEnd = true) (hx : NewEntry n x) (a : ℕ) :
    AddsEntry n (liveSlots (pre ++ s :: post)) (liveSlots (pre.map (Slot.marked fs a) ++ x :: post')) ↔
      (∀ t ∈ pre, t.addr fs ≠ a) ∧ liveSlots post' = [] := by
  by_cases hpre : ∀ t ∈ pre, t.addr fs ≠ a
  · have hid : pre.map (Slot.marked fs a) = pre := by
      conv_rhs => rw [← List.map_id pre]
      refine List.map_congr_left fun t ht => ?_
      rw [Slot.marked, if_neg (hpre t ht), id]
    rw [hid, adds_terminator hused hend hx]
    exact (and_iff_right hpre).symm
  · refine ⟨fun h => ?_, fun h => absurd h.1 hpre⟩
    simp only [not_forall, not_not] at hpre
    obtain ⟨t, ht, haddr⟩ := hpre
    have hany : (pre.map (Slot.marked fs a)).any Slot.isEnd = true := by
      rw [List.any_map, List.any_eq_true]
      exact ⟨t, ht, marked_isEnd haddr⟩
    -- the new entry is behind a terminator, so there are too few live slots
    have hcut : liveSlots (pre.map (Slot.marked fs a) ++ x :: post') =
        liveSlots (pre.map (Slot.marked fs a)) := live_append_of_stop hany _
    have hle : (liveSlots (pre.map (Slot.marked fs a))).length ≤ _ := live_length_le _
    have hlen := h.length
    rw [hcut, liveSlots_unused hused (by simp [hend]), hend, if_pos rfl] at hlen
    rw [List.length_map] at hle
    omega

end Adds

/-! ### The ways through the function -/

section Ways

variable {dir dir' : Inode} {n : List UInt8} {junk : CreateJunk} {pre post : List Slot} {s : Slot}
  {de : SfatDirEntry}

/-- Behind the last slot of a cluster are the clusters that the walk visits next. -/
theorem behind_last_slot (hsplit : chainSlots storedWord fs v start = pre ++ s :: post)
    (hnodup : (walkClusters storedWord fs v fs.clusters start).Nodup)
    (hidx : s.idx + 1 = fs.direntPerBlk) (hblk : s.blk + 1 = fs.blkPerClus) :
    ∃ as bs, walkClusters storedWord fs v fs.clusters start = as ++ s.cls :: bs ∧
      post = dirSlots fs v bs := by
  obtain ⟨as, bs, hwalk, hpost⟩ := dirSlots_split hnodup hsplit
  refine ⟨as, bs, hwalk, ?_⟩
  rw [hpost, slotsBehind, hidx, hblk, Nat.sub_self, Nat.sub_self]
  rfl

/-- **How the terminator moves** from the last slot of a block of a chain. -/
theorem moveTerminator_cases (hp : Placed fs) (hchain : DirChain storedWord fs v start cs)
    (hsplit : chainSlots storedWord fs v start = pre ++ s :: post) (hlast : s.EndsBlock fs)
    {r : Option CreateReturn} {v₂ : Vol}
    (h : moveTerminator storedWord fs (slotWritten fs v s de) s junk = (r, v₂)) :
    s.blk + 1 < fs.blkPerClus ∧ r = none ∧
      v₂ = terminatorWritten fs (slotWritten fs v s de) junk.nextCls (s.blk + 1) ∨
    s.blk + 1 = fs.blkPerClus ∧ (r = some (.error .einval) ∨
      r = none ∧ post = [] ∧ v₂ = slotWritten fs v s de ∨
      r = none ∧ ∃ d < 2 ^ 32, v₂ = terminatorWritten fs (slotWritten fs v s de) d 0 ∧
        ∃ t rest, post = t :: rest ∧ t.addr fs = termAddr fs d 0) := by
  have hmax := hp.clusters_lt
  rw [sfatEntryMax] at hmax
  have hmem : s ∈ dirSlots fs v (walkClusters storedWord fs v fs.clusters start) := by
    rw [← chainSlots, hsplit]
    simp
  have hs : SlotPlaced fs s := placed_of_mem (walk_lt hp hchain) hmem
  have hcls : s.cls ∈ cs := (hchain.walk_prefix hp.toWellFormed _).subset (mem_dirSlots.mp hmem).1
  have hword : nextWord storedWord fs (slotWritten fs v s de) s.cls = nextWord storedWord fs v s.cls := by
    rw [nextWord_storedWord hp.toWellFormed, nextWord_storedWord hp.toWellFormed]
    have hfat : SameFat fs v (slotWritten fs v s de) :=
      SameFat.of_below hp fun a ha => slotWritten_below hp hs de ha
    exact hfat _ (lt_fatWords hp (hchain.below _ hcls))
  rw [moveTerminator, hword] at h
  by_cases hblk : s.blk + 1 < fs.blkPerClus
  · rw [if_pos hblk] at h
    obtain ⟨rfl, rfl⟩ := Prod.mk.inj h
    exact .inl ⟨hblk, rfl, rfl⟩
  · rw [if_neg hblk] at h
    have hblk : s.blk + 1 = fs.blkPerClus := by
      have := hs.blk_lt
      omega
    refine .inr ⟨hblk, ?_⟩
    obtain ⟨as, bs, hwalk, hpost⟩ :=
      behind_last_slot hsplit (walk_nodup hp.toWellFormed hchain) hlast.2 hblk
    by_cases hpred : fs.clustersPred ≤ s.cls
    · rw [if_pos hpred] at h
      exact .inl (Prod.mk.inj h).1.symm
    · rw [if_neg hpred] at h
      by_cases heoc : nextWord storedWord fs v s.cls = sfatEntryEoc
      · rw [if_pos heoc] at h
        obtain ⟨rfl, rfl⟩ := Prod.mk.inj h
        have hnone : nextCls storedWord fs v s.cls = none := by
          rw [nextCls, if_neg hpred, heoc, sfatEntryEoc, if_pos (by omega)]
        refine .inr (.inl ⟨rfl, ?_, rfl⟩)
        rw [hpost, walk_behind_none hwalk hnone, dirSlots_nil]
      · rw [if_neg heoc] at h
        have hnext : nextWord storedWord fs v s.cls < fs.clusters := by
          rcases hchain.path.inner hcls with hD | ⟨-, f, hf, hmem⟩
          · exact absurd hD heoc
          · rw [Option.some.inj hf]
            exact hchain.below f hmem
        rw [if_neg (by omega)] at h
        obtain ⟨rfl, rfl⟩ := Prod.mk.inj h
        have hsome : nextCls storedWord fs v s.cls = some (nextWord storedWord fs v s.cls) := by
          rw [nextCls, if_neg hpred, if_neg (by omega)]
        obtain ⟨rest, rfl⟩ := walk_behind_some hp hchain hwalk hsome
        generalize nextWord storedWord fs v s.cls = d at *
        refine .inr (.inr ⟨rfl, d, by omega, rfl, ?_⟩)
        obtain ⟨k, hk16, hk, -⟩ := hp.blockSize_slots
        obtain ⟨m, hm⟩ : ∃ m, fs.direntPerBlk = m + 1 := ⟨fs.direntPerBlk - 1, by omega⟩
        obtain ⟨b, hb⟩ : ∃ b, fs.blkPerClus = b + 1 :=
          ⟨fs.blkPerClus - 1, by have := hp.blkPerClus_pos; omega⟩
        have hterm : termAddr fs d 0 = slotAddr fs d 0 0 := termAddr_cluster hp (by omega)
        rw [hpost, dirSlots_cons, clusterSlots, hb, blockSlots_succ, hm, pageSlots_succ]
        exact ⟨_, _, rfl, hterm.symm⟩

/-- The scan decides how the slots are split. -/
theorem split_eq (hp : Placed fs) (hchain : DirChain storedWord fs v start cs)
    (hsplit : chainSlots storedWord fs v start = pre ++ s :: post) {pre' post' : List Slot}
    (hsplit' : chainSlots storedWord fs v start = pre' ++ s :: post') : pre = pre' ∧ post = post' := by
  have hnd : (chainSlots storedWord fs v start).Nodup :=
    dirSlots_nodup (walk_nodup hp.toWellFormed hchain)
  rw [hsplit] at hnd
  exact split_unique hnd (hsplit.symm.trans hsplit')

/-- **A slot that is reused**, with the terminator at most moved inside its block. -/
theorem slot_adds_iff (hp : Placed fs) (hchain : DirChain storedWord fs v start cs)
    (hown : DirOwnSlot fs v cs dir) (hlen : n.length ≤ 11) (hnul : NoNul n) (t : ℕ)
    (hname : NameFree storedWord fs v start (padName n))
    (hs : firstUnused (chainSlots storedWord fs v start) = some s) (hkeep : ¬ s.EndsBlock fs) :
    AddsEntry n (visibleSlots fs v start) (visibleSlots fs (flushed fs
        (slotWritten fs v s (sfatFormDirEntry false (padName n) 0 0 t)) dir) start) ↔
      KeepsHidden fs v start (padName n) junk := by
  obtain ⟨hunused, pre, post, hsplit, hused⟩ := firstUnused_some hs
  have hx := newEntry hlen hnul s.cls s.blk s.idx t
  have hmem : s ∈ dirSlots fs v (walkClusters storedWord fs v fs.clusters start) := by
    rw [← chainSlots, hsplit]
    simp
  have hidx := (placed_of_mem (walk_lt hp hchain) hmem).idx_lt
  rw [visibleSlots, visibleSlots, visible_slotWritten hp hchain hown hsplit
    (sfatFormDirEntry_fits _ _ _ _ _), hsplit]
  cases hend : s.isEnd with
  | false =>
    have hattr : ¬ (s.de.attr = sfatAttrEmptyEnd ∧ s.idx + 1 < fs.direntPerBlk) := by
      rintro ⟨hattr, -⟩
      rw [Slot.isEnd, SfatDirEntry.isEnd, hattr] at hend
      exact absurd hend (by decide)
    rw [markedBehind, if_neg hattr]
    exact iff_of_true (adds_hole hused hunused hend hx) (.hole hs hend)
  | true =>
    rw [adds_terminator hused hend hx]
    by_cases hattr : s.de.attr = sfatAttrEmptyEnd
    · have hnext : s.idx + 1 < fs.direntPerBlk := by
        have : ¬ s.idx + 1 = fs.direntPerBlk := fun h => hkeep ⟨hattr, h⟩
        omega
      obtain ⟨u, rest, rfl, hu⟩ := next_in_block (walk_nodup hp.toWellFormed hchain) hsplit hnext
      rw [markedBehind, if_pos ⟨hattr, hnext⟩]
      exact iff_of_true (liveSlots_marked hu) (.moved hs hattr (.inl hnext))
    · rw [markedBehind, if_neg fun h => hattr h.1]
      refine ⟨fun h => .unmarked hsplit hs hend hattr h, fun h => ?_⟩
      cases h with
      | nameTaken h => exact absurd hname h
      | hole hs' hend' =>
        obtain rfl := Option.some.inj (hs.symm.trans hs')
        rw [hend] at hend'
        cases hend'
      | moved hs' hattr' _ =>
        obtain rfl := Option.some.inj (hs.symm.trans hs')
        exact absurd hattr' hattr
      | strayed _ hs' hlast _ _ _ =>
        obtain rfl := Option.some.inj (hs.symm.trans hs')
        exact absurd hlast.1 hattr
      | unmarked hsplit' hs' _ _ hpost =>
        obtain rfl := Option.some.inj (hs.symm.trans hs')
        obtain ⟨-, rfl⟩ := split_eq hp hchain hsplit hsplit'
        exact hpost
      | full hfull _ => cases hs.symm.trans hfull

/-- A terminator in the last slot of a block: what must hold of it. -/
theorem keepsHidden_strayed (hp : Placed fs) (hchain : DirChain storedWord fs v start cs)
    {name : Vector UInt8 11} (hname : NameFree storedWord fs v start name)
    (hsplit : chainSlots storedWord fs v start = pre ++ s :: post)
    (hs : firstUnused (chainSlots storedWord fs v start) = some s) (hlast : s.EndsBlock fs)
    (hblk : s.blk + 1 < fs.blkPerClus) : KeepsHidden fs v start name junk ↔
      (∀ t ∈ pre, t.addr fs ≠ termAddr fs junk.nextCls (s.blk + 1)) ∧
      liveSlots (post.map (Slot.marked fs (termAddr fs junk.nextCls (s.blk + 1)))) = [] := by
  have hend : s.isEnd = true := by
    rw [Slot.isEnd, SfatDirEntry.isEnd, hlast.1]
    decide
  refine ⟨fun h => ?_, fun h => .strayed hsplit hs hlast hblk h.1 h.2⟩
  cases h with
  | nameTaken h => exact absurd hname h
  | hole hs' hend' =>
    obtain rfl := Option.some.inj (hs.symm.trans hs')
    rw [hend] at hend'
    cases hend'
  | moved hs' _ hplace =>
    obtain rfl := Option.some.inj (hs.symm.trans hs')
    have hidx := hlast.2
    omega
  | strayed hsplit' hs' _ _ hpre hpost =>
    obtain rfl := Option.some.inj (hs.symm.trans hs')
    obtain ⟨rfl, rfl⟩ := split_eq hp hchain hsplit hsplit'
    exact ⟨hpre, hpost⟩
  | unmarked _ hs' _ hattr _ =>
    obtain rfl := Option.some.inj (hs.symm.trans hs')
    exact absurd hlast.1 hattr
  | full hfull _ => cases hs.symm.trans hfull

/-- **A slot that is reused**, with the terminator moved to another block. -/
theorem moved_adds_iff (hp : Placed fs) (hchain : DirChain storedWord fs v start cs)
    (hown : DirOwnSlot fs v cs dir) (hstray : StrayKeepsChain fs v start cs junk)
    (hlen : n.length ≤ 11) (hnul : NoNul n) (t : ℕ)
    (hname : NameFree storedWord fs v start (padName n))
    (hs : firstUnused (chainSlots storedWord fs v start) = some s) (hlast : s.EndsBlock fs) {v₂ : Vol}
    (hmove : moveTerminator storedWord fs
      (slotWritten fs v s (sfatFormDirEntry false (padName n) 0 0 t)) s junk = (none, v₂)) :
    AddsEntry n (visibleSlots fs v start) (visibleSlots fs (flushed fs v₂ dir) start) ↔
      KeepsHidden fs v start (padName n) junk := by
  obtain ⟨-, pre, post, hsplit, hused⟩ := firstUnused_some hs
  have hx := newEntry hlen hnul s.cls s.blk s.idx t
  have hde := sfatFormDirEntry_fits false (padName n) 0 0 t
  have hend : s.isEnd = true := by
    rw [Slot.isEnd, SfatDirEntry.isEnd, hlast.1]
    decide
  rcases moveTerminator_cases hp hchain hsplit hlast hmove with
    ⟨hblk, -, rfl⟩ | ⟨hblk, hstuck | ⟨-, rfl, rfl⟩ | ⟨-, d, hd, rfl, u, rest, rfl, hu⟩⟩
  · rw [keepsHidden_strayed hp hchain hname hsplit hs hlast hblk, visibleSlots, visibleSlots,
      visible_terminator hp hchain hown hsplit hde hlast (hstray s hs hlast hblk), hsplit]
    exact adds_strayed hused hend hx _
  · cases hstuck
  · rw [visibleSlots, visibleSlots, visible_slotWritten hp hchain hown hsplit hde, markedBehind_nil, hsplit,
      adds_terminator hused hend hx]
    exact iff_of_true rfl (.moved hs hlast.1 (.inr hblk))
  · have hword : ∀ e ∈ cs, fatWord fs (terminatorWritten fs v d 0) e = fatWord fs v e := fun e he =>
      SameFat.of_below hp (fun a ha => terminatorWritten_below hp hd ha) e
        (lt_fatWords hp (hchain.below e he))
    -- the terminator goes to the slot behind the filled one
    have hpre : ∀ t ∈ pre, t.addr fs ≠ termAddr fs d 0 := fun t ht => by
      rw [← hu]
      exact addr_ne_behind hp (walk_nodup hp.toWellFormed hchain) (walk_lt hp hchain) hsplit ht
        List.mem_cons_self
    rw [visibleSlots, visibleSlots, visible_terminator hp hchain hown hsplit hde hlast hword, hsplit,
      adds_strayed hused hend hx]
    exact iff_of_true ⟨hpre, liveSlots_marked hu⟩ (.moved hs hlast.1 (.inr hblk))

/-- The slots of a full directory are those of its chain, and all are used. -/
theorem full_directory (hp : Placed fs) (hchain : DirChain storedWord fs v start cs)
    {name : Vector UInt8 11} (hname : NameFree storedWord fs v start name)
    (hfull : firstUnused (chainSlots storedWord fs v start) = none) :
    (∀ e ∈ cs, e + 1 < fs.clusters) ∧ visibleSlots fs v start = dirSlots fs v cs ∧
      ∀ t ∈ dirSlots fs v cs, t.isEnd = false ∧ t.isEmpty = false := by
  have hacc := hchain.accepted hp.toWellFormed hchain.length_le (walkRefused_of_full hname hfull)
  have hwalk := (hchain.walk_all hp.toWellFormed hchain.length_le hacc).1
  rw [chainSlots, hwalk] at hfull
  refine ⟨hacc, ?_, fun t ht => ?_⟩
  · rw [visibleSlots, chainSlots, hwalk]
    exact find?_free_eq_none.mp hfull
  · simpa using List.find?_eq_none.mp hfull t ht

/-- **A cluster that is added** must be one that the scanners reach. -/
theorem grown_adds_iff (hp : Placed fs) (hchain : DirChain storedWord fs v start cs)
    (hown : DirOwnSlot fs v cs dir) (hlen : n.length ≤ 11) (hnul : NoNul n) (t : ℕ)
    (hname : NameFree storedWord fs v start (padName n))
    (hfull : firstUnused (chainSlots storedWord fs v start) = none) {c : ℕ} (hc : FirstFree fs v c) :
    AddsEntry n (visibleSlots fs v start) (visibleSlots fs (flushed fs (grownVolume fs v c
        (cs.getLast hchain.path.ne_nil) (sfatFormDirEntry false (padName n) 0 0 t)) dir) start) ↔
      KeepsHidden fs v start (padName n) junk := by
  obtain ⟨hacc, hvisible, hused⟩ := full_directory hp hchain hname hfull
  have hx := newEntry hlen hnul c 0 0 t
  rw [visible_grown hp hchain hown hacc hc (sfatFormDirEntry_fits _ _ _ _ _) hx.isEnd hx.isEmpty hused,
    hvisible]
  by_cases hreach : c ≤ fs.clusters
  · rw [if_pos hreach]
    refine iff_of_true ?_ (.full hfull fun d hd => hd.unique hc ▸ hreach)
    exact ⟨dirSlots fs v cs, [], _, (List.append_nil _).symm, rfl, hx.name, hx.size, hx.fstClsNo⟩
  · rw [if_neg hreach, List.append_nil]
    refine iff_of_false (fun h => ?_) fun h => ?_
    · have hlen := h.length
      omega
    · cases h with
      | nameTaken h => exact h hname
      | hole hs _ => cases hs.symm.trans hfull
      | moved hs _ _ => cases hs.symm.trans hfull
      | strayed _ hs _ _ _ _ => cases hs.symm.trans hfull
      | unmarked _ hs _ _ _ => cases hs.symm.trans hfull
      | full _ hall => exact hreach (hall c hc)

end Ways

/-! ### The result -/

section Result

variable {sbi : SbInfo} {dir : Inode} {n : List UInt8} {junk : CreateJunk}

/-- **Every execution adds one entry, if it returns 0, exactly under the condition.** -/
theorem createEnd_adds_iff (hp : Placed sbi.fsInfo)
    (hchain : DirChain storedWord sbi.fsInfo v dir.iStart cs) (hown : DirOwnSlot sbi.fsInfo v cs dir)
    (hstray : StrayKeepsChain sbi.fsInfo v dir.iStart cs junk) (hlen : n.length ≤ 11)
    (hnul : NoNul n) {r : CreateReturn × Inode} {v' : Vol}
    (h : CreateEnd storedWord sbi v dir (padName n) junk r v') :
    (∀ i, r.1 = .ok i → AddsEntry n (visibleSlots sbi.fsInfo v dir.iStart)
        (visibleSlots sbi.fsInfo v' dir.iStart)) ↔
      KeepsHidden sbi.fsInfo v dir.iStart (padName n) junk := by
  obtain ⟨r, dir'⟩ := r
  obtain ⟨t, p, v₁, hstep, hout⟩ := h
  have hfails : ∀ {e : Errno}, r = .error e → ((∀ i, r = .ok i → AddsEntry n
      (visibleSlots sbi.fsInfo v dir.iStart) (visibleSlots sbi.fsInfo v' dir.iStart)) ↔ True) :=
    fun he => iff_true_intro fun i hi => by rw [he] at hi; cases hi
  have hok : ∀ {i : Option Inode}, r = .ok i → ((∀ i, r = .ok i → AddsEntry n
      (visibleSlots sbi.fsInfo v dir.iStart) (visibleSlots sbi.fsInfo v' dir.iStart)) ↔
      AddsEntry n (visibleSlots sbi.fsInfo v dir.iStart) (visibleSlots sbi.fsInfo v' dir.iStart)) :=
    fun hi => ⟨fun h => h _ hi, fun h _ _ => h⟩
  cases hstep with
  | visible hscan =>
    refine (hfails hout.1).trans (iff_of_true trivial (.nameTaken fun hname => ?_))
    rw [NameFree, hscan] at hname
    cases hname
  | refused hscan href =>
    refine (hfails hout.1).trans (iff_of_true trivial (.nameTaken fun hname => ?_))
    rw [NameFree, hscan, href] at hname
    cases hname
  | slot hname hs hkeep =>
    obtain ⟨rfl, inode, hi, -⟩ := hout
    have hown' : DirOwnSlot sbi.fsInfo v cs { dir with iMtime := t } := hown.congr rfl rfl
    exact (hok hi).trans (slot_adds_iff hp hchain hown' hlen hnul t hname hs hkeep)
  | slotMoved hname hs hlast hmove =>
    obtain ⟨rfl, inode, hi, -⟩ := hout
    have hown' : DirOwnSlot sbi.fsInfo v cs { dir with iMtime := t } := hown.congr rfl rfl
    exact (hok hi).trans (moved_adds_iff hp hchain hown' hstray hlen hnul t hname hs hlast hmove)
  | slotStuck hname hs hlast hmove =>
    obtain ⟨-, pre, post, hsplit, -⟩ := firstUnused_some hs
    rcases moveTerminator_cases hp hchain hsplit hlast hmove with
      ⟨-, hnone, -⟩ | ⟨hblk, hstuck | ⟨hnone, -⟩ | ⟨hnone, -⟩⟩
    · cases hnone
    · refine (hfails (hout.1.trans (Option.some.inj hstuck))).trans ?_
      exact iff_of_true trivial (.moved hs hlast.1 (.inr hblk))
    · cases hnone
    · cases hnone
  | noCluster hname hfull hnone =>
    refine (hfails hout.1).trans (iff_of_true trivial (.full hfull fun c hc => ?_))
    exact absurd hc.2.1 (hnone c hc.1)
  | unlinked hname hfull hc hlink =>
    -- the cluster can always be linked
    have hacc := (full_directory hp hchain hname hfull).1
    have hword : ∀ e ∈ cs, fatWord sbi.fsInfo (setFatWord sbi.fsInfo v _ sfatEntryEoc) e = _ :=
      fun e he => fatWord_setFatWord_ne fun heq => hchain.used hp he (heq ▸ hc.2.1)
    rw [hchain.appendTarget hp hacc hword hchain.length_le] at hlink
    cases hlink
  | newCluster hname hfull hc hlink =>
    obtain ⟨rfl, inode, hi, -⟩ := hout
    have hacc := (full_directory hp hchain hname hfull).1
    have hword : ∀ e ∈ cs, fatWord sbi.fsInfo (setFatWord sbi.fsInfo v _ sfatEntryEoc) e = _ :=
      fun e he => fatWord_setFatWord_ne fun heq => hchain.used hp he (heq ▸ hc.2.1)
    rw [hchain.appendTarget hp hacc hword hchain.length_le] at hlink
    obtain rfl := Option.some.inj hlink
    have hown' : DirOwnSlot sbi.fsInfo v cs (dir.grown sbi.fsInfo t) := hown.congr rfl rfl
    exact (hok hi).trans (grown_adds_iff hp hchain hown' hlen hnul t hname hfull hc)

end Result

/-! ### A block that fills up -/

theorem strayKeepsChain_oneFile :
    StrayKeepsChain sbi31.fsInfo oneFileVolume root31.iStart [0] ⟨0, 0⟩ := by
  intro s hs hlast
  have hs : firstUnused (chainSlots storedWord sbi31.fsInfo oneFileVolume 0) = some s := hs
  have hfirst : (firstUnused (chainSlots storedWord sbi31.fsInfo oneFileVolume 0)).map Slot.idx =
      some 1 := by decide +kernel
  rw [hs] at hfirst
  have hidx : s.idx = 1 := Option.some.inj hfirst
  have hlast := hlast.2
  rw [hidx] at hlast
  exact absurd hlast (by decide)

end SimpleFat

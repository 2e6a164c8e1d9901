import SimpleFat.CreateNames
import SimpleFat.FileGrowth

/-!
# A directory without holes

Nothing is ever removed, so that the slots of a directory are in use up to the terminator, and the
next file takes the place of the terminator.  `sfat_create_file` keeps that: it moves the terminator
to the next slot, drops it behind the last slot of the chain, or starts a new cluster with it.

* `FilledDir` — the chain of the directory and its slots in use;
* `FilledDir.slotFilled`, `.blockFilled`, `.stuck`, `.grown` — the ways of `sfat_create_file`;
* `CreateStep.filled` — one call.
-/

namespace SimpleFat

open SimpleFat.Lib

variable {fs : FsInfo} {v v' : Vol} {start : ℕ} {cs : List ℕ} {slots : List Slot}

/-- The cluster number that was never set leads to the block behind that of the slot, where the
terminator moves there. -/
def NextSet (fs : FsInfo) (v : Vol) (dir : Inode) (junk : CreateJunk) : Prop :=
  ∀ s, firstUnused (chainSlots storedWord fs v dir.iStart) = some s → s.EndsBlock fs →
    s.blk + 1 < fs.blkPerClus →
    termAddr fs junk.nextCls (s.blk + 1) = slotAddr fs s.cls (s.blk + 1) 0

def slotNames (slots : List Slot) : List (List UInt8) := slots.map fun s => cString s.de.name

theorem slotNames_length (slots : List Slot) : (slotNames slots).length = slots.length :=
  List.length_map _

/-- **The scanners walk the whole chain**, its slots are in use up to the terminator, and this has no
other attribute. -/
structure FilledDir (fs : FsInfo) (v : Vol) (start : ℕ) (cs : List ℕ) (slots : List Slot) : Prop where
  chain : DirChain storedWord fs v start cs
  walk : walkClusters storedWord fs v fs.clusters start = cs
  used : ∀ t ∈ slots, t.isEnd = false ∧ t.isEmpty = false
  split : ∃ post, dirSlots fs v cs = slots ++ post ∧
    ∀ t rest, post = t :: rest → t.de.attr = sfatAttrEmptyEnd

/-- The used slots in front of a terminator are the live ones. -/
theorem live_terminated {pre post : List Slot}
    (hused : ∀ t ∈ pre, t.isEnd = false ∧ t.isEmpty = false)
    (hhead : ∀ t rest, post = t :: rest → t.de.attr = sfatAttrEmptyEnd) :
    liveSlots (pre ++ post) = pre := by
  cases post with
  | nil => rw [List.append_nil, liveSlots_used hused]
  | cons t rest =>
    have hend := isEnd_of_attr (hhead t rest rfl)
    rw [liveSlots_unused hused (by simp [hend]), if_pos hend]

/-! ### What the scanners see -/

theorem FilledDir.seen (h : FilledDir fs v start cs slots) :
    chainSlots storedWord fs v start = dirSlots fs v cs := by
  rw [chainSlots, h.walk]

theorem FilledDir.visible (h : FilledDir fs v start cs slots) : visibleSlots fs v start = slots := by
  obtain ⟨post, hsplit, hhead⟩ := h.split
  rw [visibleSlots, h.seen, hsplit, live_terminated h.used hhead]

theorem FilledDir.lt (hp : Placed fs) (h : FilledDir fs v start cs slots) : ∀ c ∈ cs, c < 2 ^ 32 :=
  fun c hc => lt_of_fatWords hp (lt_fatWords hp (h.chain.below c hc))

theorem FilledDir.mem (h : FilledDir fs v start cs slots) {s : Slot} (hs : s ∈ slots) :
    s ∈ dirSlots fs v cs := by
  obtain ⟨post, hsplit, -⟩ := h.split
  rw [hsplit]
  exact List.mem_append_left post hs

theorem FilledDir.placed (hp : Placed fs) (h : FilledDir fs v start cs slots) {s : Slot}
    (hs : s ∈ slots) : SlotPlaced fs s :=
  placed_of_mem (h.lt hp) (h.mem hs)

/-- The slot that is filled next is the terminator. -/
theorem FilledDir.found (h : FilledDir fs v start cs slots) {s : Slot}
    (hs : firstUnused (chainSlots storedWord fs v start) = some s) :
    ∃ rest, chainSlots storedWord fs v start = slots ++ s :: rest ∧ s.de.attr = sfatAttrEmptyEnd := by
  obtain ⟨post, hsplit, hhead⟩ := h.split
  rw [h.seen, hsplit] at hs ⊢
  have hnone : firstUnused slots = none :=
    List.find?_eq_none.mpr fun t ht => by simp [h.used t ht]
  rw [firstUnused_append, hnone, Option.none_or] at hs
  cases post with
  | nil => cases hs
  | cons t rest =>
    have hattr := hhead t rest rfl
    rw [firstUnused, List.find?_cons_of_pos (by simp [isEnd_of_attr hattr])] at hs
    obtain rfl := Option.some.inj hs
    exact ⟨rest, rfl, hattr⟩

/-- A full directory has no other slots. -/
theorem FilledDir.full (h : FilledDir fs v start cs slots)
    (hs : firstUnused (chainSlots storedWord fs v start) = none) : dirSlots fs v cs = slots := by
  obtain ⟨post, hsplit, hhead⟩ := h.split
  rw [h.seen, hsplit] at hs
  cases post with
  | nil => rw [hsplit, List.append_nil]
  | cons t rest =>
    have hend := isEnd_of_attr (hhead t rest rfl)
    have hused := List.find?_eq_none.mp hs t (by simp)
    simp [hend] at hused

/-- The slot that a lookup finds has the name. -/
theorem FilledDir.found_name (h : FilledDir fs v start cs slots) {n : List UInt8} (hnul : NoNul n)
    {s : Slot} (hs : findName storedWord fs v start (padName n) = some s) :
    s ∈ slots ∧ cString s.de.name = n.take 11 := by
  have hname := List.find?_some hs
  rw [strncmpEq, beq_iff_eq, cString_padName hnul] at hname
  refine ⟨?_, hname.symm⟩
  rw [← h.visible]
  exact List.mem_of_find?_eq_some hs

/-- A name that a lookup does not find is none of the names. -/
theorem FilledDir.not_found (h : FilledDir fs v start cs slots) {n : List UInt8} (hnul : NoNul n)
    (hs : findName storedWord fs v start (padName n) = none) : n.take 11 ∉ slotNames slots := by
  intro hmem
  obtain ⟨s, hs', hname⟩ := List.mem_map.mp hmem
  have hlive : s ∈ liveSlots (chainSlots storedWord fs v start) := by
    rw [← visibleSlots, h.visible]
    exact hs'
  have hdiff := List.find?_eq_none.mp hs s hlive
  rw [strncmpEq, cString_padName hnul, hname] at hdiff
  simp at hdiff

/-- A scan that finds nothing. -/
theorem not_found_of_scan {name : Vector UInt8 11}
    (h : ∀ s, scanName name (chainSlots storedWord fs v start) ≠ some (some s)) :
    findName storedWord fs v start name = none := by
  rw [scanName_chainSlots] at h
  cases hfind : findName storedWord fs v start name with
  | none => rfl
  | some s =>
    rw [hfind] at h
    exact absurd rfl (h s)

/-- A name that the scan finds is one of the names. -/
theorem FilledDir.scanned_name (h : FilledDir fs v start cs slots) {n : List UInt8} (hnul : NoNul n)
    {s : Slot} (hs : scanName (padName n) (chainSlots storedWord fs v start) = some (some s)) :
    n.take 11 ∈ slotNames slots := by
  rw [scanName_chainSlots] at hs
  cases hfind : findName storedWord fs v start (padName n) with
  | some s =>
    obtain ⟨hmem, hname⟩ := h.found_name hnul hfind
    exact hname ▸ List.mem_map_of_mem hmem
  | none =>
    rw [hfind] at hs
    simp only [] at hs
    split at hs
    · cases hs
    · cases hs

/-- A name that is free is none of the names. -/
theorem FilledDir.nameFree (h : FilledDir fs v start cs slots) {n : List UInt8} (hnul : NoNul n)
    (hname : NameFree storedWord fs v start (padName n)) : n.take 11 ∉ slotNames slots := by
  apply h.not_found hnul
  apply not_found_of_scan
  intro s hs
  rw [NameFree, hs] at hname
  cases hname

/-! ### Changes of the volume -/

/-- The chain of a directory depends on the words of its clusters. -/
theorem DirChain.congr (hp : Placed fs) (h : DirChain storedWord fs v start cs)
    (hw : ∀ c ∈ cs, fatWord fs v' c = fatWord fs v c) : DirChain storedWord fs v' start cs := by
  have hlook : ∀ c ∈ cs, nextWord storedWord fs v' c = nextWord storedWord fs v c := by
    intro c hc
    rw [nextWord_storedWord hp.toWellFormed, nextWord_storedWord hp.toWellFormed, hw c hc]
  refine ⟨h.path.congr (fun c hc _ => ?_) fun c hc => ?_, h.below⟩
  · show some (nextWord storedWord fs v' c) = some (nextWord storedWord fs v c)
    rw [hlook c hc]
  · rw [hlook c hc]

/-- **A change that leaves the words of the chain alone**: the slots decide. -/
theorem FilledDir.congr (hp : Placed fs) (h : FilledDir fs v start cs slots)
    (hw : ∀ c ∈ cs, fatWord fs v' c = fatWord fs v c) {slots' post : List Slot}
    (hsplit : dirSlots fs v' cs = slots' ++ post)
    (hused : ∀ t ∈ slots', t.isEnd = false ∧ t.isEmpty = false)
    (hhead : ∀ t rest, post = t :: rest → t.de.attr = sfatAttrEmptyEnd) :
    FilledDir fs v' start cs slots' where
  chain := h.chain.congr hp hw
  walk := (h.chain.walk_congr hp hw fs.clusters).trans h.walk
  used := hused
  split := ⟨post, hsplit, hhead⟩

/-- A change that leaves the slots alone, too. -/
theorem FilledDir.same (hp : Placed fs) (h : FilledDir fs v start cs slots)
    (hw : ∀ c ∈ cs, fatWord fs v' c = fatWord fs v c) (hslots : dirSlots fs v' cs = dirSlots fs v cs) :
    FilledDir fs v' start cs slots := by
  obtain ⟨post, hsplit, hhead⟩ := h.split
  exact h.congr hp hw (hslots.trans hsplit) h.used hhead

/-- One used slot more. -/
theorem FilledDir.used_concat (h : FilledDir fs v start cs slots) {n : List UInt8} {x : Slot}
    (hx : NewEntry n x) : ∀ t ∈ slots ++ [x], t.isEnd = false ∧ t.isEmpty = false := by
  intro t ht
  rcases List.mem_append.mp ht with ht | ht
  · exact h.used t ht
  · rw [List.mem_singleton.mp ht]
    exact ⟨hx.isEnd, hx.isEmpty⟩

/-! ### A slot is filled -/

/-- The slot behind the last one of a block of a cluster is the first one of the next block. -/
theorem next_block {ks : List ℕ} {pre post : List Slot} {s : Slot} (hks : ks.Nodup)
    (hwf : WellFormed fs) (hsplit : dirSlots fs v ks = pre ++ s :: post)
    (hidx : s.idx + 1 = fs.direntPerBlk) (hblk : s.blk + 1 < fs.blkPerClus) :
    ∃ t rest, post = t :: rest ∧ t.addr fs = slotAddr fs s.cls (s.blk + 1) 0 := by
  obtain ⟨d, hd16, hd, -⟩ := hwf.blockSize_slots
  obtain ⟨as, bs, -, hpost⟩ := dirSlots_split hks hsplit
  obtain ⟨m, hm⟩ : ∃ m, fs.blkPerClus - (s.blk + 1) = m + 1 :=
    ⟨fs.blkPerClus - (s.blk + 1) - 1, by omega⟩
  obtain ⟨j, hj⟩ : ∃ j, fs.direntPerBlk = j + 1 := ⟨fs.direntPerBlk - 1, by omega⟩
  have hnone : fs.direntPerBlk - (s.idx + 1) = 0 := by omega
  rw [slotsBehind, hnone, hm, blockSlots_succ, hj, pageSlots_succ] at hpost
  exact ⟨_, _, hpost, rfl⟩

/-- The terminator of a placed slot changes nothing before the data area. -/
theorem putTerminator_below (hp : Placed fs) {s : Slot} (hs : SlotPlaced fs s) {cls blk : ℕ}
    (haddr : termAddr fs cls blk = s.addr fs) {a : ℕ} (ha : a < fs.dataStartBlk * fs.blockSize) :
    terminatorWritten fs v cls blk a = v a := by
  have hdata := hs.data_le hp
  rw [terminatorWritten, ← termAddr, haddr, putAttr, patch_of_lt _ _ (by omega)]

/-- A terminator that was written is at the head of the slots behind it. -/
theorem marked_head {u : Slot} {rest : List Slot} {a : ℕ} (hu : u.addr fs = a) :
    ∀ x xs, (u :: rest).map (Slot.marked fs a) = x :: xs → x.de.attr = sfatAttrEmptyEnd := by
  intro x xs hx
  rw [List.map_cons] at hx
  rw [← (List.cons.inj hx).1, Slot.marked, if_pos hu]

/-- The new entry is a used slot with the first 11 bytes of the name. -/
theorem newEntry_take {n : List UInt8} (hnul : NoNul n) (cls blk idx t : ℕ) :
    NewEntry (n.take 11) ⟨cls, blk, idx, sfatFormDirEntry false (padName n) 0 0 t⟩ := by
  rw [← padName_take]
  exact newEntry (List.length_take_le _ _) (fun b hb => hnul b (List.mem_of_mem_take hb)) ..

section Filled

variable {s : Slot} {de : SfatDirEntry} {n : List UInt8} {junk : CreateJunk}

/-- A slot that is filled leaves the FAT alone. -/
theorem FilledDir.sameFat (hp : Placed fs) (h : FilledDir fs v start cs slots)
    (hs : firstUnused (chainSlots storedWord fs v start) = some s) (de : SfatDirEntry) :
    SlotPlaced fs s ∧ SameFat fs v (slotWritten fs v s de) := by
  have hmem := List.mem_of_find?_eq_some hs
  rw [h.seen] at hmem
  have hplaced := placed_of_mem (h.lt hp) hmem
  exact ⟨hplaced, SameFat.of_below hp fun a ha => slotWritten_below hp hplaced de ha⟩

/-- The words of the chain are words of the FAT. -/
theorem FilledDir.words (hp : Placed fs) (h : FilledDir fs v start cs slots)
    (hfat : SameFat fs v v') : ∀ c ∈ cs, fatWord fs v' c = fatWord fs v c :=
  fun c hc => hfat c (lt_fatWords hp (h.chain.below c hc))

/-- **A slot is filled**, and the terminator moves to the next slot of the block. -/
theorem FilledDir.slotFilled (hp : Placed fs) (h : FilledDir fs v start cs slots)
    (hs : firstUnused (chainSlots storedWord fs v start) = some s) (hkeep : ¬ s.EndsBlock fs)
    (hde : de.Fits) (hx : NewEntry n { s with de := de }) :
    FilledDir fs (slotWritten fs v s de) start cs (slots ++ [{ s with de := de }]) := by
  obtain ⟨hplaced, hfat⟩ := h.sameFat hp hs de
  obtain ⟨rest, hsplit, hattr⟩ := h.found hs
  rw [h.seen] at hsplit
  have hidx : s.idx + 1 < fs.direntPerBlk := by
    have hlt := hplaced.idx_lt
    have hne : s.idx + 1 ≠ fs.direntPerBlk := fun hlast => hkeep ⟨hattr, hlast⟩
    omega
  obtain ⟨u, rest, rfl, hu⟩ := next_in_block h.chain.nodup hsplit hidx
  have hslots := slots_slotWritten hp h.chain.nodup (h.lt hp) hsplit hde
  rw [markedBehind, if_pos ⟨hattr, hidx⟩, List.append_cons] at hslots
  exact h.congr hp (h.words hp hfat) hslots (h.used_concat hx) (marked_head hu)

/-- The move of the terminator returns early where the chain ends, and writes nothing. -/
theorem moveTerminator_stuck {w : Vol} {r : CreateReturn} {v₁ : Vol}
    (h : moveTerminator storedWord fs w s junk = (some r, v₁)) :
    v₁ = w ∧ ¬ s.blk + 1 < fs.blkPerClus ∧ nextCls storedWord fs w s.cls = none := by
  rw [moveTerminator] at h
  by_cases hblk : s.blk + 1 < fs.blkPerClus
  · rw [if_pos hblk] at h
    cases h
  · rw [if_neg hblk] at h
    by_cases hpred : fs.clustersPred ≤ s.cls
    · rw [if_pos hpred] at h
      exact ⟨(Prod.mk.inj h).2.symm, hblk, by rw [nextCls, if_pos hpred]⟩
    · rw [if_neg hpred] at h
      by_cases heoc : nextWord storedWord fs w s.cls = sfatEntryEoc
      · rw [if_pos heoc] at h
        cases h
      · rw [if_neg heoc] at h
        by_cases hlarge : fs.clusters < nextWord storedWord fs w s.cls
        · rw [if_pos hlarge] at h
          exact ⟨(Prod.mk.inj h).2.symm, hblk, by rw [nextCls, if_neg hpred, if_pos hlarge]⟩
        · rw [if_neg hlarge] at h
          cases h

/-- **The last slot of a block is filled**: the terminator moves to the next block, or the slot was
the last one of the chain. -/
theorem FilledDir.blockFilled (hp : Placed fs) (h : FilledDir fs v start cs slots)
    (hs : firstUnused (chainSlots storedWord fs v start) = some s) (hlast : s.EndsBlock fs)
    (hnext : s.blk + 1 < fs.blkPerClus →
      termAddr fs junk.nextCls (s.blk + 1) = slotAddr fs s.cls (s.blk + 1) 0)
    (hde : de.Fits) (hx : NewEntry n { s with de := de }) {r : Option CreateReturn} {v₁ : Vol}
    (hmove : moveTerminator storedWord fs (slotWritten fs v s de) s junk = (r, v₁)) :
    FilledDir fs v₁ start cs (slots ++ [{ s with de := de }]) ∧ SameFat fs v v₁ := by
  have hnodup := h.chain.nodup
  obtain ⟨hplaced, hfat⟩ := h.sameFat hp hs de
  obtain ⟨rest, hchain, hattr⟩ := h.found hs
  have hsplit := hchain
  rw [h.seen] at hsplit
  have hslots := slots_slotWritten hp hnodup (h.lt hp) hsplit hde
  have hbehind : markedBehind fs s rest = rest := by
    rw [markedBehind, if_neg (by have := hlast.2; omega)]
  rw [hbehind, List.append_cons] at hslots
  -- the slot was the last one of the chain
  have hend : rest = [] → FilledDir fs (slotWritten fs v s de) start cs
      (slots ++ [{ s with de := de }]) := by
    rintro rfl
    exact h.congr hp (h.words hp hfat) hslots (h.used_concat hx) fun t rest ht => by cases ht
  -- the terminator goes to the slot behind it
  have hgoes : ∀ {cls blk : ℕ}, (∃ t more, rest = t :: more ∧ t.addr fs = termAddr fs cls blk) →
      FilledDir fs (terminatorWritten fs (slotWritten fs v s de) cls blk) start cs
        (slots ++ [{ s with de := de }]) ∧
      SameFat fs v (terminatorWritten fs (slotWritten fs v s de) cls blk) := by
    rintro cls blk ⟨t, more, rfl, ht⟩
    have htplaced : SlotPlaced fs t := placed_of_mem (h.lt hp) (by rw [hsplit]; simp)
    have hfat' : SameFat fs v (terminatorWritten fs (slotWritten fs v s de) cls blk) :=
      hfat.trans (SameFat.of_below hp fun a ha => putTerminator_below hp htplaced ht.symm ha)
    have hself : Slot.marked fs (termAddr fs cls blk) { s with de := de } = { s with de := de } :=
      marked_last (s := { s with de := de }) hp hlast.2 cls blk
    have hpre : slots.map (Slot.marked fs (termAddr fs cls blk)) = slots := by
      conv_rhs => rw [← List.map_id slots]
      refine List.map_congr_left fun x hxm => ?_
      have hne := addr_ne_behind hp hnodup (h.lt hp) hsplit hxm (List.mem_cons_self (a := t) (l := more))
      rw [Slot.marked, ← ht, if_neg hne, id]
    have hterm := slots_terminatorWritten (v := slotWritten fs v s de) hp (h.lt hp) cls blk
    rw [hslots, List.map_append, List.map_append, hpre, List.map_singleton, hself] at hterm
    exact ⟨h.congr hp (h.words hp hfat') hterm (h.used_concat hx) (marked_head ht), hfat'⟩
  cases r with
  | some r =>
    obtain ⟨rfl, hblk, hnone⟩ := moveTerminator_stuck hmove
    have hblk : s.blk + 1 = fs.blkPerClus := by
      have := hplaced.blk_lt
      omega
    obtain ⟨as, bs, hwalk, hpost⟩ := behind_last_slot hchain (h.walk ▸ hnodup) hlast.2 hblk
    have hcls : s.cls ∈ cs := by
      rw [← h.walk, hwalk]
      simp
    have hsame : nextCls storedWord fs v s.cls = none := by
      rw [nextCls, nextWord_storedWord hp.toWellFormed, h.words hp hfat s.cls hcls] at hnone
      rw [nextCls, nextWord_storedWord hp.toWellFormed]
      exact hnone
    refine ⟨hend ?_, hfat⟩
    rw [hpost, walk_behind_none hwalk hsame, dirSlots_nil]
  | none =>
    rcases moveTerminator_cases hp h.chain hchain hlast hmove with
      ⟨hblk, -, rfl⟩ | ⟨-, hstuck | ⟨-, hnil, rfl⟩ | ⟨-, d, -, rfl, hmore⟩⟩
    · obtain ⟨u, more, rfl, hu⟩ := next_block hnodup hp.toWellFormed hsplit hlast.2 hblk
      exact hgoes ⟨u, more, rfl, hu.trans (hnext hblk).symm⟩
    · cases hstuck
    · exact ⟨hend hnil, hfat⟩
    · exact hgoes hmore

end Filled

/-! ### A cluster is added -/

/-- The chain of a directory is a chain of stored words. -/
theorem dirChain_iff (hwf : WellFormed fs) : DirChain storedWord fs v start cs ↔ FatChain fs v start cs := by
  have hlook : nextWord storedWord fs v = fatWord fs v := funext fun c => nextWord_storedWord hwf v c
  constructor
  · intro h
    have hpath := h.path
    rw [hlook] at hpath
    exact ⟨hpath, h.below⟩
  · intro h
    refine ⟨?_, h.2⟩
    rw [hlook]
    exact h.1

section Grown

variable {c d : ℕ} {de : SfatDirEntry} {n : List UInt8} {name : Vector UInt8 11}

/-- A free cluster can be linked to a full directory. -/
theorem FilledDir.links (hp : Placed fs) (h : FilledDir fs v start cs slots)
    (hname : NameFree storedWord fs v start name)
    (hfull : firstUnused (chainSlots storedWord fs v start) = none) (hc : FirstFree fs v c) :
    appendTarget storedWord fs (setFatWord fs v c sfatEntryEoc) fs.clusters start =
      some (cs.getLast h.chain.path.ne_nil) := by
  have hacc := (full_directory hp h.chain hname hfull).1
  apply h.chain.appendTarget hp hacc _ h.chain.length_le
  intro e he
  exact fatWord_setFatWord_ne fun heq => h.chain.used hp he (heq ▸ hc.2.1)

/-- The cluster that the new one is linked to. -/
theorem FilledDir.target (hp : Placed fs) (h : FilledDir fs v start cs slots)
    (hname : NameFree storedWord fs v start name)
    (hfull : firstUnused (chainSlots storedWord fs v start) = none) (hc : FirstFree fs v c)
    (hlink : appendTarget storedWord fs (setFatWord fs v c sfatEntryEoc) fs.clusters start = some d) :
    d = cs.getLast h.chain.path.ne_nil := by
  rw [h.links hp hname hfull hc] at hlink
  exact (Option.some.inj hlink).symm

/-- **A cluster of the data area is added** to a full directory. -/
theorem FilledDir.grown (hp : Placed fs) (h : FilledDir fs v start cs slots)
    (hname : NameFree storedWord fs v start name)
    (hfull : firstUnused (chainSlots storedWord fs v start) = none) (hc : FirstFree fs v c)
    (hlt : c < fs.clusters)
    (hlink : appendTarget storedWord fs (setFatWord fs v c sfatEntryEoc) fs.clusters start = some d)
    (hde : de.Fits) (hx : NewEntry n ⟨c, 0, 0, de⟩) :
    FilledDir fs (grownVolume fs v c d de) start (cs ++ [c]) (slots ++ [⟨c, 0, 0, de⟩]) := by
  have hacc := (full_directory hp h.chain hname hfull).1
  obtain rfl := h.target hp hname hfull hc hlink
  have hlast : cs.getLast? = some (cs.getLast h.chain.path.ne_nil) :=
    List.getLast?_eq_some_getLast h.chain.path.ne_nil
  have hdlt : cs.getLast h.chain.path.ne_nil < fatWords fs :=
    lt_fatWords hp (h.chain.below _ (List.getLast_mem _))
  have hc32 := lt_of_fatWords hp hc.1
  have hfat := (dirChain_iff hp.toWellFormed).mp h.chain
  have hlinked := hfat.linked hp hlast hc hlt
  have hstarted : SameFat fs (clusterLinked fs v (cs.getLast h.chain.path.ne_nil) c)
      (grownVolume fs v c (cs.getLast h.chain.path.ne_nil) de) :=
    SameFat.of_below hp fun a ha => clusterStarted_below hp hc32 ha
  obtain ⟨t, rest, hslots, ht⟩ := clusterSlots_grown (v := v) (c := c) hp
    (d := cs.getLast h.chain.path.ne_nil) hde
  refine ⟨(dirChain_iff hp.toWellFormed).mpr (hlinked.sameFat hp hstarted), ?_,
    h.used_concat hx, t :: rest, ?_, ?_⟩
  · rw [walk_grown hp h.chain hacc hc (SameFat.refl fs _), if_pos (Nat.le_of_lt hlt)]
  · rw [dirSlots_append, dirSlots_grown hp (h.lt hp) hc.1 (hfat.not_mem hp hc.2.1) hdlt,
      dirSlots_cons, dirSlots_nil, List.append_nil, hslots, h.full hfull, List.append_assoc]
    rfl
  · intro x xs hxs
    rw [← (List.cons.inj hxs).1]
    exact ht

end Grown

/-! ### One call -/

section Step

variable {dir dir' : Inode} {n : List UInt8} {junk : CreateJunk} {t : ℕ}
  {p : Except CreateReturn (SfatDirEntry × ℕ)}

/-- What a call leaves: the directory as it was, or one entry more in its chain or, when it was full, in
a free cluster.  It fails with `EEXIST` exactly if the name is there; when it gets stuck behind the
new entry it fails, too. -/
def FilledAfter (fs : FsInfo) (v v' : Vol) (start : ℕ) (cs : List ℕ) (slots : List Slot)
    (n : List UInt8) (p : Except CreateReturn (SfatDirEntry × ℕ)) : Prop :=
  (FilledDir fs v' start cs slots ∧
    ∃ e, p = .error (.error e) ∧ (e = .eexist ↔ n.take 11 ∈ slotNames slots)) ∨
  ∃ s cs', FilledDir fs v' start cs' (slots ++ [s]) ∧ NewEntry (n.take 11) s ∧
    n.take 11 ∉ slotNames slots ∧
    ((∃ q, p = .ok q ∧ q.1 = s.de) ∨ p = .error (.error .einval)) ∧
    (cs' = cs ∨ firstUnused (chainSlots storedWord fs v start) = none ∧
      ∃ c, cs' = cs ++ [c] ∧ FirstFree fs v c)

def GrowsInside (fs : FsInfo) (v : Vol) (dir : Inode) : Prop :=
  firstUnused (chainSlots storedWord fs v dir.iStart) = none →
    ∀ c, FirstFree fs v c → c < fs.clusters

/-- **One call keeps a directory without holes.** -/
theorem CreateStep.filled (hp : Placed fs) (h : FilledDir fs v dir.iStart cs slots)
    (hnext : NextSet fs v dir junk) (hgrows : GrowsInside fs v dir) (hnul : NoNul n)
    (hstep : CreateStep storedWord fs v dir (padName n) junk t p dir' v') :
    FilledAfter fs v v' dir.iStart cs slots n p := by
  have hde := sfatFormDirEntry_fits false (padName n) 0 0 t
  -- a slot of the chain was filled
  have hslot : ∀ {s : Slot} {w : Vol}, NameFree storedWord fs v dir.iStart (padName n) →
      FilledDir fs w dir.iStart cs (slots ++ [⟨s.cls, s.blk, s.idx,
        sfatFormDirEntry false (padName n) 0 0 t⟩]) →
      ((∃ q, p = .ok q ∧ q.1 = sfatFormDirEntry false (padName n) 0 0 t) ∨
        p = .error (.error .einval)) → FilledAfter fs v w dir.iStart cs slots n p := fun hname hw hq =>
    .inr ⟨_, cs, hw, newEntry_take hnul .., h.nameFree hnul hname, hq, .inl rfl⟩
  -- the name was not there, and nothing was added
  have hnot : ∀ {e : Errno}, e ≠ .eexist → n.take 11 ∉ slotNames slots →
      (e = .eexist ↔ n.take 11 ∈ slotNames slots) := fun he hname => iff_of_false he hname
  cases hstep with
  | visible hs => exact .inl ⟨h, _, rfl, iff_of_true rfl (h.scanned_name hnul hs)⟩
  | refused hscan _ =>
    refine .inl ⟨h, _, rfl, hnot (by decide) (h.not_found hnul (not_found_of_scan fun s hs => ?_))⟩
    rw [hscan] at hs
    cases hs
  | slot hname hs hkeep =>
    exact hslot hname (h.slotFilled hp hs hkeep hde (newEntry_take hnul ..)) (.inl ⟨_, rfl, rfl⟩)
  | slotMoved hname hs hlast hmove =>
    exact hslot hname (h.blockFilled hp hs hlast (hnext _ hs hlast) hde (newEntry_take hnul ..)
      hmove).1 (.inl ⟨_, rfl, rfl⟩)
  | @slotStuck s r v₂ hname hs hlast hmove =>
    refine hslot hname (h.blockFilled hp hs hlast (hnext _ hs hlast) hde (newEntry_take hnul ..)
      hmove).1 (.inr ?_)
    obtain ⟨rest, hsplit, -⟩ := h.found hs
    rcases moveTerminator_cases hp h.chain hsplit hlast hmove with
      ⟨-, hr, -⟩ | ⟨-, hr | ⟨hr, -⟩ | ⟨hr, -⟩⟩
    · cases hr
    · rw [Option.some.inj hr]
    · cases hr
    · cases hr
  | noCluster hname _ _ => exact .inl ⟨h, _, rfl, hnot (by decide) (h.nameFree hnul hname)⟩
  | @unlinked c hname _ hc _ =>
    refine .inl ⟨h.same hp (fun d hd => ?_) ?_, _, rfl, hnot (by decide) (h.nameFree hnul hname)⟩
    · exact fatWord_setFatWord_ne fun heq => h.chain.used hp hd (heq ▸ hc.2.1)
    · exact dirSlots_data hp (h.lt hp) fun a ha => setFatWord_data hp hc.1 _ ha
  | @newCluster c d hname hfull hc hlink =>
    have hfilled := h.grown hp hname hfull hc (hgrows hfull c hc) hlink hde
      (newEntry_take hnul c 0 0 t)
    exact .inr ⟨_, cs ++ [c], hfilled, newEntry_take hnul .., h.nameFree hnul hname,
      .inl ⟨_, rfl, rfl⟩, .inr ⟨hfull, c, rfl, hc⟩⟩

/-- A slot that is filled changes nothing outside its cluster. -/
theorem slotWritten_outside (hp : Placed fs) {s : Slot} (hs : SlotPlaced fs s) (de : SfatDirEntry)
    {a : ℕ} (ha : a < clsAddr fs s.cls ∨ clsAddr fs s.cls + fs.clusterSize ≤ a) :
    slotWritten fs v s de a = v a := by
  have hin := slotAddr_mem (d := s.cls) hp hs.blk_lt hs.idx_lt
  rw [← Slot.addr] at hin
  have hput : ∀ w : Vol, putDirent w (s.addr fs) de a = w a := by
    intro w
    rcases ha with ha | ha
    · exact patch_of_lt _ _ (by omega)
    · exact patch_of_ge _ _ (by omega)
  rw [slotWritten, hput]
  split
  · rename_i hmark
    have hnext := slotAddr_mem (d := s.cls) hp hs.blk_lt hmark.2
    have haddr : slotAddr fs s.cls s.blk (s.idx + 1) = s.addr fs + 32 := by
      rw [Slot.addr, slotAddr, slotAddr]
      omega
    rcases ha with ha | ha
    · exact patch_of_lt _ _ (by omega)
    · exact patch_of_ge _ _ (by omega)
  · rfl

/-- The terminator of a placed slot changes nothing outside its cluster. -/
theorem putTerminator_outside (hp : Placed fs) {s : Slot} (hs : SlotPlaced fs s) {cls blk : ℕ}
    (haddr : termAddr fs cls blk = s.addr fs) {a : ℕ}
    (ha : a < clsAddr fs s.cls ∨ clsAddr fs s.cls + fs.clusterSize ≤ a) :
    terminatorWritten fs v cls blk a = v a := by
  have hin := slotAddr_mem (d := s.cls) hp hs.blk_lt hs.idx_lt
  rw [← Slot.addr] at hin
  rw [terminatorWritten, ← termAddr, haddr]
  rcases ha with ha | ha
  · exact patch_of_lt _ _ (by omega)
  · exact patch_of_ge _ _ (by omega)

/-- The first block of a cluster that is started is inside it. -/
theorem clusterStarted_outside (hp : Placed fs) (c : ℕ) (de : SfatDirEntry) {a : ℕ}
    (ha : a < clsAddr fs c ∨ clsAddr fs c + fs.clusterSize ≤ a) :
    clusterStarted fs v c de a = v a := by
  obtain ⟨d, hd16, hd, -⟩ := hp.blockSize_slots
  have hin : ∀ idx < fs.direntPerBlk, clsAddr fs c ≤ slotAddr fs c 0 idx ∧
      slotAddr fs c 0 idx + 32 ≤ clsAddr fs c + fs.clusterSize :=
    fun idx hidx => slotAddr_mem hp hp.blkPerClus_pos hidx
  have hfirst := hin 0 (by omega)
  have hnext := hin 1 (by omega)
  rw [clusterStarted]
  rcases ha with ha | ha
  · exact (patch_of_lt _ _ (by omega)).trans (patch_of_lt _ _ (by omega))
  · exact (patch_of_ge _ _ (by omega)).trans (patch_of_ge _ _ (by omega))

/-- **One call writes to the clusters of the directory**, and to one that it adds to them. -/
theorem CreateStep.keepsOthers (hp : Placed fs) (h : FilledDir fs v dir.iStart cs slots)
    (hnext : NextSet fs v dir junk)
    (hstep : CreateStep storedWord fs v dir (padName n) junk t p dir' v') :
    ∃ es, KeepsOthers fs v cs v' es := by
  have hrefl := KeepsOthers.refl fs v cs
  have hword : ∀ c ∈ cs, c < fatWords fs := fun c hc => lt_fatWords hp (h.chain.below c hc)
  -- the slot that is filled is one of the chain
  have hplaced : ∀ {s : Slot}, s ∈ chainSlots storedWord fs v dir.iStart →
      SlotPlaced fs s ∧ s.cls ∈ cs := by
    intro s hs
    rw [h.seen] at hs
    exact ⟨placed_of_mem (h.lt hp) hs, (mem_dirSlots.mp hs).1⟩
  have hfilled : ∀ {s : Slot} (de : SfatDirEntry), s ∈ chainSlots storedWord fs v dir.iStart →
      KeepsOthers fs v cs (slotWritten fs v s de) cs := by
    intro s de hs
    obtain ⟨hsp, hmem⟩ := hplaced hs
    exact hrefl.inside hp hmem (hword _ hmem) fun a ha => slotWritten_outside hp hsp de ha
  have hmoved : ∀ {s : Slot} {de : SfatDirEntry} {r : Option CreateReturn} {v₂ : Vol},
      firstUnused (chainSlots storedWord fs v dir.iStart) = some s → s.EndsBlock fs →
      moveTerminator storedWord fs (slotWritten fs v s de) s junk = (r, v₂) →
      KeepsOthers fs v cs v₂ cs := by
    intro s de r v₂ hs hlast hmove
    obtain ⟨rest, hsplit, -⟩ := h.found hs
    have hmem := List.mem_of_find?_eq_some hs
    obtain ⟨hsp, hcls⟩ := hplaced hmem
    have hkeep := hfilled de hmem
    cases r with
    | some r =>
      obtain ⟨rfl, -⟩ := moveTerminator_stuck hmove
      exact hkeep
    | none =>
      rcases moveTerminator_cases hp h.chain hsplit hlast hmove with
        ⟨hblk, -, rfl⟩ | ⟨-, hstuck | ⟨-, -, rfl⟩ | ⟨-, d, -, rfl, u, more, rfl, hu⟩⟩
      · have hplace : SlotPlaced fs ⟨s.cls, s.blk + 1, 0, s.de⟩ :=
          ⟨hsp.cls_lt, hblk, Nat.zero_lt_of_lt hsp.idx_lt⟩
        exact hkeep.inside hp hcls (hword _ hcls) fun a ha =>
          putTerminator_outside hp hplace (hnext s hs hlast hblk) ha
      · cases hstuck
      · exact hkeep
      · obtain ⟨hup, hucls⟩ := hplaced (s := u) (by rw [hsplit]; simp)
        exact hkeep.inside hp hucls (hword _ hucls) fun a ha =>
          putTerminator_outside hp hup hu.symm ha
  cases hstep with
  | visible _ => exact ⟨cs, hrefl⟩
  | refused _ _ => exact ⟨cs, hrefl⟩
  | slot _ hs _ => exact ⟨cs, hfilled _ (List.mem_of_find?_eq_some hs)⟩
  | slotMoved _ hs hlast hmove => exact ⟨cs, hmoved hs hlast hmove⟩
  | slotStuck _ hs hlast hmove => exact ⟨cs, hmoved hs hlast hmove⟩
  | noCluster _ _ _ => exact ⟨cs, hrefl⟩
  | unlinked _ _ hc _ => exact ⟨cs, hrefl.acquired hp hc⟩
  | @newCluster c d hname hfull hc hlink =>
    have hd : d ∈ cs := by
      rw [h.target hp hname hfull hc hlink]
      exact List.getLast_mem _
    have hlinked := (hrefl.acquired hp hc).word hp (hword d hd)
      (fun e _ _ hnot heq => hnot (heq ▸ hd)) c
    refine ⟨cs ++ [c], (hlinked.concat (.inr hc.2.1)).inside hp (by simp) hc.1 fun a ha => ?_⟩
    exact clusterStarted_outside hp c _ ha

/-- **One call leaves the FAT alone, or the directory gets a cluster**: the first free one, linked to
the end of its chain, and its size counts it. -/
theorem CreateStep.chain_cases (hp : Placed fs) (h : FilledDir fs v dir.iStart cs slots)
    (hnext : NextSet fs v dir junk) (hgrows : GrowsInside fs v dir) (hnul : NoNul n)
    (hstep : CreateStep storedWord fs v dir (padName n) junk t p dir' v') :
    (SameFat fs v v' ∧ dir'.iSize = dir.iSize) ∨
    ∃ c l, FirstFree fs v c ∧ c < fs.clusters ∧ cs.getLast? = some l ∧
      walkClusters storedWord fs v' fs.clusters dir.iStart = cs ++ [c] ∧
      dir'.iSize = dir.iSize + fs.clusterSize ∧ SameFat fs (clusterLinked fs v l c) v' := by
  have hde := sfatFormDirEntry_fits false (padName n) 0 0 t
  cases hstep with
  | visible _ => exact .inl ⟨SameFat.refl fs v, rfl⟩
  | refused _ _ => exact .inl ⟨SameFat.refl fs v, rfl⟩
  | slot _ hs _ => exact .inl ⟨(h.sameFat hp hs _).2, rfl⟩
  | slotMoved _ hs hlast hmove =>
    have hfilled := h.blockFilled hp hs hlast (hnext _ hs hlast) hde (newEntry_take hnul ..) hmove
    exact .inl ⟨hfilled.2, rfl⟩
  | slotStuck _ hs hlast hmove =>
    have hfilled := h.blockFilled hp hs hlast (hnext _ hs hlast) hde (newEntry_take hnul ..) hmove
    exact .inl ⟨hfilled.2, rfl⟩
  | noCluster _ _ _ => exact .inl ⟨SameFat.refl fs v, rfl⟩
  | unlinked hname hfull hc hnone =>
    rw [h.links hp hname hfull hc] at hnone
    cases hnone
  | @newCluster c d hname hfull hc hlink =>
    have hacc := (full_directory hp h.chain hname hfull).1
    obtain rfl := h.target hp hname hfull hc hlink
    have hwalk := walk_grown hp h.chain hacc hc (SameFat.refl fs (grownVolume fs v c
      (cs.getLast h.chain.path.ne_nil) (sfatFormDirEntry false (padName n) 0 0 t)))
    rw [if_pos (Nat.le_of_lt (hgrows hfull c hc))] at hwalk
    have hlast := List.getLast?_eq_getLast_of_ne_nil h.chain.path.ne_nil
    refine .inr ⟨c, _, hc, hgrows hfull c hc, hlast, hwalk, rfl, ?_⟩
    exact SameFat.of_below hp fun a ha => clusterStarted_below hp (lt_of_fatWords hp hc.1) ha

/-- **One call takes clusters for the directory only**, and loses none. -/
theorem CreateStep.taken (hp : Placed fs) (h : FilledDir fs v dir.iStart cs slots)
    (hnext : NextSet fs v dir junk) (hgrows : GrowsInside fs v dir) (hnul : NoNul n)
    (hstep : CreateStep storedWord fs v dir (padName n) junk t p dir' v') {cs' : List ℕ}
    {slots' : List Slot} (h' : FilledDir fs v' dir.iStart cs' slots') (hsub : ∀ c ∈ cs, c ∈ cs') :
    Taken fs v cs v' cs' [] := by
  rcases hstep.chain_cases hp h hnext hgrows hnul with
    ⟨hfat, -⟩ | ⟨c, l, -, -, hlast, hwalk, -, hfat⟩
  · exact ⟨hsub, fun e he hused => .inl (hfat e he ▸ hused)⟩
  · obtain rfl : cs' = cs ++ [c] := h'.walk.symm.trans hwalk
    exact ((Taken.refl fs v cs).linked (List.mem_of_getLast? hlast) c).sameFat hfat

/-- **The size of the directory grows with its chain.** -/
theorem CreateStep.sized (hp : Placed fs) (h : FilledDir fs v dir.iStart cs slots)
    (hnext : NextSet fs v dir junk) (hgrows : GrowsInside fs v dir) (hnul : NoNul n)
    (hstep : CreateStep storedWord fs v dir (padName n) junk t p dir' v') {cs' : List ℕ}
    {slots' : List Slot} (h' : FilledDir fs v' dir.iStart cs' slots')
    (hsize : dir.iSize = cs.length * fs.clusterSize) :
    dir'.iSize = cs'.length * fs.clusterSize := by
  rcases hstep.chain_cases hp h hnext hgrows hnul with
    ⟨hfat, hsame⟩ | ⟨c, l, -, -, -, hwalk, hgrown, -⟩
  · have hwalk := h.chain.walk_congr hp (h.words hp hfat) fs.clusters
    rw [h'.walk, h.walk] at hwalk
    rw [hsame, hsize, hwalk]
  · rw [h'.walk] at hwalk
    rw [hgrown, hsize, hwalk, List.length_append, List.length_singleton, Nat.add_mul, Nat.one_mul]

end Step

end SimpleFat

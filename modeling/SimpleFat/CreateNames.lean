import SimpleFat.CreateAdds

/-!
# Names

`sfat_create_file` and `sfat_lookup` cut a name to the 11 bytes of the field.  So names act by their
first 11 bytes: this is what a lookup compares, and what `sfat_readdir` emits.

* `sfatReaddir_named` — a call that reports a position emits the name of the slot there;
* `lookupFinds_iff` — what a lookup finds;
* `names_act` — the names after a file was created.
-/

namespace SimpleFat

open SimpleFat.Lib

/-! ### The names that `sfat_readdir` emits -/

def emittedName (call : FilldirCall) : List UInt8 := call.name.toList.take call.len

/-- A call that reports the position of a slot has its name and the length of it. -/
def NamesSlot (slots : List Slot) (call : FilldirCall) : Prop :=
  ∀ s, slots[call.pos / 32]? = some s →
    call.name = s.de.name ∧ call.len = (cString s.de.name).length

/-- The name that is emitted for a slot. -/
theorem NamesSlot.emittedName {slots : List Slot} {call : FilldirCall} (h : NamesSlot slots call)
    {s : Slot} (hs : slots[call.pos / 32]? = some s) : emittedName call = cString s.de.name := by
  obtain ⟨hname, hlen⟩ := h s hs
  rw [SimpleFat.emittedName, hname, hlen]
  exact (List.prefix_iff_eq_take.mp (List.takeWhile_prefix _)).symm

def AllNamed (slots : List Slot) (st : ReaddirState) : Prop :=
  ∀ call ∈ st.dirent, NamesSlot slots call

section Readdir

variable {refuse : FilldirCall → Prop} {look : (blk pos : ℕ) → Page → ℕ} {fs : FsInfo} {v : Vol}
  {slots : List Slot}

/-- How a loop over slots ends, having come to index `p`. -/
def NamedUpTo (slots : List Slot) (p : ℕ) : Loop ReaddirState ReaddirState → Prop
  | .next st => st.cpos = 32 * p ∧ AllNamed slots st
  | .out st => AllNamed slots st

/-- The slots of a page, from index `p` of the directory on. -/
theorem readdirSlots_named (data : Page) (n offset p : ℕ) {st : ReaddirState}
    (hslot : ∀ i < n, ∀ s, slots[p + i]? = some s → s.de = direntAt data (offset + 32 * i))
    (hpos : st.cpos = 32 * p) (hst : AllNamed slots st) :
    wp (refusingWorld refuse look) (readdirSlots data n offset st)
      (fun r v' => v' = v ∧ NamedUpTo slots (p + n) r) v := by
  induction n generalizing offset p st with
  | zero => exact (wp_done _ _ _).mpr ⟨rfl, hpos, hst⟩
  | succ n ih =>
    have hrest : ∀ i < n, ∀ s, slots[p + 1 + i]? = some s →
        s.de = direntAt data (offset + 32 + 32 * i) := by
      intro i hi s hs
      have hs' := hslot (i + 1) (by omega) s (by rwa [Nat.add_comm i, ← Nat.add_assoc])
      rwa [Nat.mul_add, Nat.mul_one, Nat.add_comm (32 * i), ← Nat.add_assoc] at hs'
    have hend : p + 1 + n = p + (n + 1) := by omega
    rw [readdirSlots, ← hend]
    simp only []
    split
    · exact (wp_done _ _ _).mpr ⟨rfl, hst⟩
    · split
      · exact ih (offset + 32) (p + 1) hrest (show st.cpos + 32 = _ by omega) hst
      · rw [wp_iunique]
        intro ino _
        simp only [wp_filldir]
        intro error _
        split
        · exact (wp_done _ _ _).mpr ⟨rfl, hst⟩
        · refine ih (offset + 32) (p + 1) hrest (show st.cpos + 32 = _ by omega) fun call hcall => ?_
          rcases List.mem_append.mp hcall with hcall | hcall
          · exact hst call hcall
          · obtain rfl := List.mem_singleton.mp hcall
            intro s hs
            have hs : slots[p]? = some s := by
              rw [← hs]
              congr 1
              show p = st.cpos / 32
              omega
            have hde := hslot 0 (by omega) s hs
            rw [Nat.mul_zero, Nat.add_zero] at hde
            rw [hde]
            exact ⟨rfl, strLen_eq data offset⟩

/-- The blocks of a cluster whose first slot has index `q` in the directory. -/
theorem readdirBlocks_named (hwf : WellFormed fs) (cls n blk k q : ℕ) (hk : k ≤ fs.direntPerBlk)
    (hslot : ∀ b < blk + n, ∀ i < fs.direntPerBlk, ∀ s,
      slots[q + (b * fs.direntPerBlk + i)]? = some s → s.de = direntAt v (slotAddr fs cls b i))
    {st : ReaddirState} (hpos : st.cpos = 32 * (q + (blk * fs.direntPerBlk + k)))
    (hst : AllNamed slots st) (hn : n = 0 → k = 0) :
    wp (refusingWorld refuse look) (readdirBlocks fs n (clsToBlk fs cls + blk) (32 * k) st)
      (fun r v' => v' = v ∧ NamedUpTo slots (q + (blk + n) * fs.direntPerBlk) r) v := by
  obtain ⟨d, hd16, hd, hbs⟩ := hwf.blockSize_slots
  induction n generalizing blk k st with
  | zero =>
    rw [hn rfl, Nat.add_zero] at hpos
    exact (wp_done _ _ _).mpr ⟨rfl, hpos, hst⟩
  | succ n ih =>
    have hrounds : (fs.blockSize - 32 * k + 31) / 32 = fs.direntPerBlk - k := by omega
    have hpage : ∀ i < fs.direntPerBlk - k, ∀ s,
        slots[q + (blk * fs.direntPerBlk + k) + i]? = some s →
        s.de = direntAt (blockAt v fs.blockSize (clsToBlk fs cls + blk)) (32 * k + 32 * i) := by
      intro i hi s hs
      rw [Nat.add_assoc, Nat.add_assoc] at hs
      rw [hslot blk (by omega) (k + i) (by omega) s hs, direntAt_blockAt, slotAddr, Nat.mul_add]
    rw [readdirBlocks, wp_readBlock_lookups, hrounds]
    simp only []
    refine wp_seq (readdirSlots_named _ _ _ _ hpage hpos hst) fun r v' hr => ?_
    obtain ⟨rfl, hr⟩ := hr
    cases r with
    | out st' => exact (wp_done _ _ _).mpr ⟨rfl, hr⟩
    | next st' =>
      obtain ⟨hpos', hst'⟩ := hr
      have hnext : q + (blk * fs.direntPerBlk + k) + (fs.direntPerBlk - k) =
          q + ((blk + 1) * fs.direntPerBlk + 0) := by
        rw [Nat.add_mul, Nat.one_mul]
        omega
      rw [hnext] at hpos'
      have hblk : blk + (n + 1) = blk + 1 + n := by omega
      rw [hblk] at hslot ⊢
      rw [Nat.add_assoc]
      exact ih (blk + 1) 0 (Nat.zero_le _) hslot hpos' hst' fun _ => rfl

/-- The clusters of a walk, from the one with number `j` on. -/
theorem readdirClusters_named (hwf : WellFormed fs) (start rounds cls j : ℕ) {blkOff k : ℕ}
    (hb : blkOff < fs.blkPerClus) (hk : k ≤ fs.direntPerBlk)
    (hcls : linked (nextCls look fs v) j start = some cls) {st : ReaddirState}
    (hpos : st.cpos = 32 * (j * fs.blkPerClus * fs.direntPerBlk + (blkOff * fs.direntPerBlk + k)))
    (hst : AllNamed (chainSlots look fs v start) st) :
    wp (refusingWorld refuse look) (readdirClusters fs rounds cls blkOff (32 * k) st)
      (fun st' v' => v' = v ∧ AllNamed (chainSlots look fs v start) st') v := by
  induction rounds generalizing cls j blkOff k st with
  | zero => exact (wp_done _ _ _).mpr ⟨rfl, hst⟩
  | succ rounds ih =>
    have hslot : ∀ b < blkOff + (fs.blkPerClus - blkOff), ∀ i < fs.direntPerBlk, ∀ s,
        (chainSlots look fs v start)[j * fs.blkPerClus * fs.direntPerBlk +
          (b * fs.direntPerBlk + i)]? = some s → s.de = direntAt v (slotAddr fs cls b i) := by
      intro b hb' i hi s hs
      rw [← Nat.add_assoc, ← Nat.add_mul] at hs
      obtain ⟨c, hc, rfl⟩ := dirSlots_getElem? (by omega) hi hs
      -- the walk of the scanners has this cluster at the same place
      obtain ⟨hj, rfl⟩ := List.getElem?_eq_some_iff.mp hc
      have hsplit := List.take_append_drop j (walkClusters look fs v fs.clusters start)
      rw [List.drop_eq_getElem_cons hj] at hsplit
      have hlinked := (trail_split hsplit.symm).1
      rw [List.length_take_of_le hj.le, hcls] at hlinked
      rw [Option.some.inj hlinked]
    have hend : j * fs.blkPerClus * fs.direntPerBlk +
        (blkOff + (fs.blkPerClus - blkOff)) * fs.direntPerBlk =
        (j + 1) * fs.blkPerClus * fs.direntPerBlk + (0 * fs.direntPerBlk + 0) := by
      rw [Nat.add_sub_cancel' hb.le]
      ring
    rw [readdirClusters]
    refine wp_seq (readdirBlocks_named hwf cls _ blkOff k _ hk hslot hpos hst (by omega))
      fun r v' hr => ?_
    obtain ⟨rfl, hr⟩ := hr
    cases r with
    | out st' =>
      refine (wp_done _ _ _).mpr ?_
      split
      · exact ⟨rfl, hr⟩
      · exact ⟨rfl, hr⟩
    | next st' =>
      obtain ⟨hpos', hst'⟩ := hr
      rw [hend] at hpos'
      show wp (refusingWorld refuse look) (sfatGetEntryContent fs cls >>= _) _ v'
      rw [wp_bind, wp_sfatGetEntryContent_lookups]
      by_cases hpred : fs.clustersPred ≤ cls
      · rw [if_pos hpred]
        exact (wp_done _ _ _).mpr ⟨rfl, hst'⟩
      · rw [if_neg hpred]
        show wp (refusingWorld refuse look) (if _ then _ else _) _ v'
        by_cases hnext : fs.clusters < nextWord look fs v' cls
        · rw [if_pos hnext]
          exact (wp_done _ _ _).mpr ⟨rfl, hst'⟩
        · have hlink : linked (nextCls look fs v') (j + 1) start = some (nextWord look fs v' cls) := by
            rw [linked_succ, hcls, Option.bind_some, nextCls, if_neg hpred, if_neg hnext]
          rw [if_neg hnext]
          exact ih _ (j + 1) hwf.blkPerClus_pos (Nat.zero_le _) hlink hpos' hst'

/-- **`sfat_readdir` changes nothing, and every position that it reports comes with the name of its
slot**, for any directory, any position of the file and any refusals. -/
theorem sfatReaddir_named (hwf : WellFormed fs) (start iSize fPos : ℕ) :
    wp (refusingWorld refuse look) (sfatReaddir fs start iSize fPos)
      (fun st v' => v' = v ∧ AllNamed (chainSlots look fs v start) st) v := by
  have hnone : ∀ e cpos, AllNamed (chainSlots look fs v start) ⟨e, cpos, []⟩ := fun e cpos call hcall =>
    absurd hcall List.not_mem_nil
  obtain ⟨d, -, hd, hbs⟩ := hwf.blockSize_slots
  have hcs : fs.clusterSize = 32 * (fs.blkPerClus * fs.direntPerBlk) := by
    rw [hwf.clusterSize_blocks, hbs, hd]
    ring
  rw [sfatReaddir]
  simp only []
  split
  · exact (wp_done _ _ _).mpr ⟨rfl, hnone _ _⟩
  · split
    · exact (wp_done _ _ _).mpr ⟨rfl, hnone _ _⟩
    · split
      · exact (wp_done _ _ _).mpr ⟨rfl, hnone _ _⟩
      · rename_i halign
        rw [wp_bind, wp_sfatSeek hwf]
        by_cases hstart : fs.clustersPred ≤ start
        · rw [if_pos hstart]
          exact (wp_done _ _ _).mpr ⟨rfl, hnone _ _⟩
        · rw [if_neg hstart]
          cases hcls : linked (nextCls look fs v) (fPos / fs.clusterSize) start with
          | none => exact (wp_done _ _ _).mpr ⟨rfl, hnone _ _⟩
          | some cls =>
            simp only [seekOutcome]
            rw [wp_blkholderAlloc_lookups]
            intro addr
            have hoff : fPos % fs.clusterSize % 32 = 0 := by
              rw [Nat.mod_mod_of_dvd _ (hcs ▸ Nat.dvd_mul_right _ _)]
              omega
            obtain ⟨hblk, k, hk, hbyte, hslot⟩ :=
              offset_parts hwf (Nat.mod_lt fPos hwf.clusterSize_pos) hoff
            have hpos : fPos = 32 * (fPos / fs.clusterSize * fs.blkPerClus * fs.direntPerBlk +
                ((fPos % fs.clusterSize) >>> fs.blockBits * fs.direntPerBlk + k)) := by
              rw [hslot, Nat.mul_add, Nat.mul_div_cancel' (Nat.dvd_of_mod_eq_zero hoff), Nat.mul_assoc,
                Nat.mul_left_comm, ← hcs, Nat.mul_comm, Nat.div_add_mod]
            rw [hbyte]
            exact readdirClusters_named hwf start _ cls _ hblk hk hcls hpos (hnone _ _)

end Readdir

/-! ### Lookups -/

/-- Every `sfat_lookup` of the name finds an entry exactly if `P`. -/
def LookupFindsIff (sbi : SbInfo) (v : Vol) (dir : Inode) (m : List UInt8) (P : Prop) : Prop :=
  wp (lookupWorld storedWord) (sfatLookup sbi dir m)
    (fun r _ => (∃ inode, r = .ok (some inode)) ↔ P) v

section Lookup

variable {sbi : SbInfo} {v : Vol} {dir : Inode} {m n : List UInt8} {P : Prop}

/-- **A lookup finds the names that are visible**, by their first 11 bytes. -/
theorem lookup_visible (hnul : NoNul m) : LookupFindsIff sbi v dir m
    (∃ s ∈ visibleSlots sbi.fsInfo v dir.iStart, cString s.de.name = m.take 11) := by
  refine wp_mono (lookup_spec sbi dir m) ?_
  rintro r v' ⟨-, hr⟩
  cases hfind : findName storedWord sbi.fsInfo v dir.iStart (padName m) with
  | some s =>
    rw [hfind] at hr
    obtain ⟨inode, rfl, -⟩ := hr
    have hname := List.find?_some hfind
    rw [strncmpEq, beq_iff_eq, cString_padName hnul] at hname
    exact iff_of_true ⟨inode, rfl⟩ ⟨s, List.mem_of_find?_eq_some hfind, hname.symm⟩
  | none =>
    rw [hfind] at hr
    refine iff_of_false ?_ ?_
    · rintro ⟨inode, rfl⟩
      rcases hr with hr | hr
      · cases hr
      · cases hr
    · rintro ⟨s, hs, hname⟩
      have hne := List.find?_eq_none.mp hfind s hs
      rw [strncmpEq, beq_iff_eq, cString_padName hnul] at hne
      exact hne hname.symm

theorem lookupFinds_iff (hnul : NoNul m) : LookupFindsIff sbi v dir m P ↔
    ((∃ s ∈ visibleSlots sbi.fsInfo v dir.iStart, cString s.de.name = m.take 11) ↔ P) := by
  constructor
  · intro h
    obtain ⟨r, v', hr, hP⟩ := wp_lookups_nonempty (wp_and (lookup_visible hnul) h)
    exact hr.symm.trans hP
  · intro h
    exact wp_mono (lookup_visible hnul) fun r v' hr => hr.trans h

end Lookup

/-! ### The names after a file was created -/

/-- The scanners see one slot more, and `sfat_readdir` emits it with the name `n`, from whatever
position it is called and whatever entries it is refused. -/
def EmittedAs (fs : FsInfo) (v v' : Vol) (start : ℕ) (n : List UInt8) : Prop :=
  ∃ as bs s k, visibleSlots fs v start = as ++ bs ∧ visibleSlots fs v' start = as ++ s :: bs ∧
    (chainSlots storedWord fs v' start)[k]? = some s ∧
    ∀ refuse iSize fPos, wp (refusingWorld refuse storedWord) (sfatReaddir fs start iSize fPos)
      (fun st _ => ∀ call ∈ st.dirent, call.pos = 32 * k → emittedName call = n) v'

/-- **Names act by a key.**  When a file was created as `n`, a name that found nothing before finds
an entry exactly if it has the key of `n`, and the new slot is emitted with this key. -/
def NamesActBy (key : List UInt8 → List UInt8) (sbi : SbInfo) (v : Vol) (dir : Inode)
    (junk : CreateJunk) (n m : List UInt8) : Prop :=
  LookupFindsIff sbi v dir m False →
    wp (lookupWorld storedWord) (sfatCreateFile sbi dir n junk) (fun r v' => ∀ i, r.1 = .ok i →
      LookupFindsIff sbi v' r.2 m (key m = key n) ∧
      EmittedAs sbi.fsInfo v v' dir.iStart (key n)) v

section Names

variable {sbi : SbInfo} {v v' : Vol} {dir : Inode} {m n : List UInt8} {junk : CreateJunk}

theorem padName_take (n : List UInt8) : padName (n.take 11) = padName n := by
  rw [padName, padName]
  congr 1
  funext i
  rw [List.getD_eq_getElem?_getD, List.getD_eq_getElem?_getD, List.getElem?_take_of_lt i.isLt]

/-- The bytes behind the field do not take part. -/
theorem sfatCreateFile_take (n : List UInt8) :
    sfatCreateFile sbi dir (n.take 11) junk = sfatCreateFile sbi dir n junk := by
  rw [sfatCreateFile, sfatCreateFile, padName_take]

theorem sfatLookup_take (m : List UInt8) : sfatLookup sbi dir (m.take 11) = sfatLookup sbi dir m := by
  rw [sfatLookup, sfatLookup, padName_take]

theorem CreateStep.iStart_eq {fs : FsInfo} {dir' : Inode} {name : Vector UInt8 11} {t : ℕ}
    {p : Except CreateReturn (SfatDirEntry × ℕ)} {v₁ : Vol}
    (h : CreateStep storedWord fs v dir name junk t p dir' v₁) : dir'.iStart = dir.iStart := by
  cases h with
  | _ => rfl

/-- The entry that was added is emitted with its name. -/
theorem AddsEntry.emitted {fs : FsInfo} {start : ℕ} (hwf : WellFormed fs)
    (h : AddsEntry n (visibleSlots fs v start) (visibleSlots fs v' start)) :
    EmittedAs fs v v' start n := by
  obtain ⟨as, bs, s, hold, hnew, hname, -⟩ := h
  have hmem : s ∈ visibleSlots fs v' start := by
    rw [hnew]
    simp
  obtain ⟨k, hk⟩ := List.getElem?_of_mem (mem_live hmem).1
  refine ⟨as, bs, s, k, hold, hnew, hk, fun refuse iSize fPos => ?_⟩
  refine wp_mono (sfatReaddir_named hwf start iSize fPos) fun st v'' hst call hcall hpos => ?_
  have hidx : call.pos / 32 = k := by omega
  rw [(hst.2 call hcall).emittedName (s := s) (by rw [hidx, hk]), hname]

/-- The entry that was added is found by its name, and by no other that found nothing before. -/
theorem AddsEntry.found (hm : NoNul m)
    (h : AddsEntry n (visibleSlots sbi.fsInfo v dir.iStart) (visibleSlots sbi.fsInfo v' dir.iStart))
    (hmiss : LookupFindsIff sbi v dir m False) : LookupFindsIff sbi v' dir m (m.take 11 = n) := by
  obtain ⟨as, bs, s, hold, hnew, hname, -⟩ := h
  rw [lookupFinds_iff hm, iff_false, hold] at hmiss
  rw [lookupFinds_iff hm, hnew]
  constructor
  · rintro ⟨t, ht, htname⟩
    rcases List.mem_append.mp ht with ht | ht
    · exact absurd ⟨t, List.mem_append_left _ ht, htname⟩ hmiss
    · rcases List.mem_cons.mp ht with rfl | ht
      · rw [← htname, hname]
      · exact absurd ⟨t, List.mem_append_right _ ht, htname⟩ hmiss
  · intro heq
    exact ⟨s, by simp, by rw [hname, heq]⟩

/-- **Names act by their first 11 bytes**, where a new file adds its entry and nothing else. -/
theorem names_act {cs : List ℕ} (hp : Placed sbi.fsInfo)
    (hchain : DirChain storedWord sbi.fsInfo v dir.iStart cs) (hown : DirOwnSlot sbi.fsInfo v cs dir)
    (hstray : StrayKeepsChain sbi.fsInfo v dir.iStart cs junk)
    (hkeep : KeepsHidden sbi.fsInfo v dir.iStart (padName n) junk) (hn : NoNul n) (hm : NoNul m) :
    NamesActBy (List.take 11) sbi v dir junk n m ∧
      sfatCreateFile sbi dir (n.take 11) junk = sfatCreateFile sbi dir n junk ∧
      sfatLookup sbi dir (m.take 11) = sfatLookup sbi dir m := by
  refine ⟨fun hmiss => ?_, sfatCreateFile_take n, sfatLookup_take m⟩
  have hnul : NoNul (n.take 11) := fun b hb => hn b (List.mem_of_mem_take hb)
  refine wp_mono (create_spec hp.toWellFormed dir n junk) ?_
  rintro ⟨r, dir'⟩ v' hend i hi
  -- the name is created as its first 11 bytes are
  have hend' : CreateEnd storedWord sbi v dir (padName (n.take 11)) junk (r, dir') v' := by
    rwa [padName_take]
  have hentry := (createEnd_adds_iff hp hchain hown hstray (List.length_take_le _ _) hnul hend').mpr
    (by rwa [padName_take]) i hi
  obtain ⟨t, p, v₁, hstep, -⟩ := hend
  have hstart := hstep.iStart_eq
  refine ⟨?_, hentry.emitted hp.toWellFormed⟩
  have hfound := hentry.found hm hmiss
  rw [lookupFinds_iff hm] at hfound ⊢
  rwa [hstart]

end Names

/-! ### Two names with the same first bytes -/

def xName (k : ℕ) : List UInt8 := List.replicate k 120

theorem keepsHidden_oneFile (name : Vector UInt8 11) :
    KeepsHidden sbi31.fsInfo oneFileVolume root31.iStart name ⟨0, 0⟩ := by
  have hfirst : (firstUnused (chainSlots storedWord sbi31.fsInfo oneFileVolume 0)).map
      (fun s => (s.idx, s.de.attr)) = some (1, sfatAttrEmptyEnd) := by decide +kernel
  cases hs : firstUnused (chainSlots storedWord sbi31.fsInfo oneFileVolume 0) with
  | none =>
    rw [hs] at hfirst
    cases hfirst
  | some s =>
    rw [hs] at hfirst
    obtain ⟨hidx, hattr⟩ := Prod.mk.inj (Option.some.inj hfirst)
    refine .moved hs hattr (.inl ?_)
    rw [hidx]
    decide

theorem names_act_oneFile :
    NamesActBy (List.take 11) sbi31 oneFileVolume root31 ⟨0, 0⟩ (xName 12) (xName 11) ∧
      sfatCreateFile sbi31 root31 ((xName 12).take 11) ⟨0, 0⟩ =
        sfatCreateFile sbi31 root31 (xName 12) ⟨0, 0⟩ ∧
      sfatLookup sbi31 root31 ((xName 11).take 11) = sfatLookup sbi31 root31 (xName 11) :=
  names_act placed31 ⟨.stop (by decide +kernel), by decide⟩ (.inl rfl) strayKeepsChain_oneFile
    (keepsHidden_oneFile _) (by decide +kernel) (by decide +kernel)

/-- **Names do not act by all of their bytes**: after a file with a name of 12 letters was created,
the name of its first 11 letters finds it. -/
theorem names_not_faithful :
    DirChain storedWord sbi31.fsInfo oneFileVolume root31.iStart [0] ∧
      ¬ NamesActBy id sbi31 oneFileVolume root31 ⟨0, 0⟩ (xName 12) (xName 11) := by
  refine ⟨⟨.stop (by decide +kernel), by decide⟩, fun h => ?_⟩
  have hnul : NoNul (xName 11) := by decide +kernel
  have hmiss : LookupFindsIff sbi31 oneFileVolume root31 (xName 11) False := by
    rw [lookupFinds_iff hnul]
    decide +kernel
  have hrun := (wp_iff_exec _ _ _).mp (h hmiss) _ _ _
    (Exec.of_quiet (H := Host.lookups noFailure storedWord) (fun _ _ _ _ => rfl) _ oneFileVolume)
  obtain ⟨i, hi⟩ : ∃ i, (run (Host.quiet fun _ => storedWord)
      (sfatCreateFile sbi31 root31 (xName 12) ⟨0, 0⟩) oneFileVolume).1.1 = .ok i := by
    have hok : (run (Host.quiet fun _ => storedWord)
        (sfatCreateFile sbi31 root31 (xName 12) ⟨0, 0⟩) oneFileVolume).1.1.isOk = true := by
      decide +kernel
    revert hok
    cases (run (Host.quiet fun _ => storedWord)
        (sfatCreateFile sbi31 root31 (xName 12) ⟨0, 0⟩) oneFileVolume).1.1 with
    | error e => exact fun hok => absurd hok Bool.false_ne_true
    | ok i => exact fun _ => ⟨i, rfl⟩
  have hfinds := (lookupFinds_iff hnul).mp (hrun i hi).1
  -- the longer name was found by the shorter one
  have hname : xName 11 = xName 12 := hfinds.mp (by decide +kernel)
  exact absurd hname (by decide)

end SimpleFat

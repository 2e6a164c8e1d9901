import SimpleFat.DirectoryPath
import SimpleFat.FormattedVolume
import SimpleFat.ReaddirSpec

/-!
# The four directory scanners agree

If `sfat_readdir` from the start of a directory returns 0 with a callback that accepts everything,
it went along a directory path and emitted the live slots of it.  The other three scanners see the
slots of the same path: `sfat_count_subdirs` counts the emitted slots, `sfat_dentry_locate` finds
the first of them with a name, and `sfat_free_dentry_locate` finds the first slot of the chain that
is not in use, or every slot was emitted.
-/

namespace SimpleFat

open SimpleFat.Lib

variable {look : (blk pos : ℕ) → Page → ℕ} {fs : FsInfo} {v : Vol}

/-- A call of `filldir` reports the slot of a list that its position names. -/
def ReportsSlot (slots : List Slot) (call : FilldirCall) (s : Slot) : Prop :=
  Reports call.pos s call ∧ 32 ∣ call.pos ∧ slots[call.pos / 32]? = some s

/-! ### Emitted slots -/

/-- The calls for slots without a terminator report the live ones, at their indices. -/
theorem Emits.forall₂ {pos : ℕ} {slots : List Slot} {calls : List FilldirCall}
    (h : Emits pos slots calls) (hend : slots.any Slot.isEnd = false) :
    List.Forall₂ (fun call s => Reports call.pos s call ∧
      ∃ i, call.pos = pos + 32 * i ∧ slots[i]? = some s) calls (liveSlots slots) := by
  induction h with
  | nil => exact .nil
  | @skip pos s slots calls hemp h ih =>
    rw [List.any_cons, Bool.or_eq_false_iff] at hend
    have hlive : liveSlots (s :: slots) = liveSlots slots := by
      rw [liveSlots, live, if_neg (by simp [hend.1]), if_pos hemp, liveSlots]
    rw [hlive]
    refine (ih hend.2).imp fun call t ht => ⟨ht.1, ?_⟩
    obtain ⟨i, hpos, hi⟩ := ht.2
    exact ⟨i + 1, by rw [hpos]; ring, hi⟩
  | @emit pos s slots call calls hemp hrep h ih =>
    rw [List.any_cons, Bool.or_eq_false_iff] at hend
    have hlive : liveSlots (s :: slots) = s :: liveSlots slots := by
      rw [liveSlots, live, if_neg (by simp [hend.1]), if_neg (by simp [hemp]), liveSlots]
    rw [hlive]
    refine .cons ⟨?_, 0, by rw [hrep.pos]; rfl, rfl⟩ ((ih hend.2).imp fun call t ht => ⟨ht.1, ?_⟩)
    · rw [hrep.pos]
      exact hrep
    · obtain ⟨i, hpos, hi⟩ := ht.2
      exact ⟨i + 1, by rw [hpos]; ring, hi⟩

/-- The same, for the slots before a terminator of a longer list. -/
theorem Emits.reportsSlot {pre rest : List Slot} {calls : List FilldirCall}
    (h : Emits 0 pre calls) (hend : pre.any Slot.isEnd = false) :
    List.Forall₂ (ReportsSlot (pre ++ rest)) calls (liveSlots pre) := by
  refine (h.forall₂ hend).imp fun call s hs => ⟨hs.1, ?_⟩
  obtain ⟨i, hpos, hi⟩ := hs.2
  rw [Nat.zero_add] at hpos
  have hdiv : call.pos / 32 = i := by omega
  refine ⟨⟨i, hpos⟩, ?_⟩
  rw [hdiv, List.getElem?_append_left (List.getElem?_eq_some_iff.mp hi).1, hi]

/-- Two splittings of one list: what has no terminator is a part of what has one. -/
theorem prefix_of_noEnd {as bs cs ds : List Slot} (h : as ++ bs = cs ++ ds)
    (has : as.any Slot.isEnd = false) (hcs : cs.any Slot.isEnd = true) : as <+: cs := by
  rcases List.append_eq_append_iff.mp h with ⟨a', rfl, -⟩ | ⟨c', rfl, -⟩
  · exact List.prefix_append _ _
  · rw [List.any_append, hcs] at has
    exact absurd has (by simp)

/-- The live slots before a terminator are the live slots of the list. -/
theorem liveSlots_split {pre post : List Slot} {s : Slot} (hpre : pre.any Slot.isEnd = false)
    (hs : s.isEnd = true) : liveSlots (pre ++ s :: post) = liveSlots pre := by
  rw [liveSlots, live_append_of_not_stop hpre, live, if_pos hs, List.append_nil, liveSlots]

/-- **What a call from the start emits**, when it returns 0 and nothing is refused. -/
theorem readdir_emits (hwf : WellFormed fs) {iStart iSize : ℕ} (h32 : 32 ≤ iSize)
    (hlt : iSize + fs.clusterSize ≤ sizeT) (hpos : 1 ≤ fs.clusters) {tr : List Request}
    {st : ReaddirState} {v' : Vol}
    (hexec : Exec (lookupWorld look) (sfatReaddir fs iStart iSize 0) v tr st v')
    (hret : st.error = 0) :
    ¬ fs.clustersPred ≤ iStart ∧ ∃ cs, DirPath look fs v iStart cs ∧
      cs.length ≤ (iSize + fs.clusterSize - 1) / fs.clusterSize ∧
      List.Forall₂ (ReportsSlot (chainSlots look fs v iStart)) st.dirent
        (liveSlots (dirSlots fs v cs)) := by
  by_cases hstart : fs.clustersPred ≤ iStart
  · exact absurd hret ((wp_iff_exec _ _ _).mp (sfatReaddir_refused hwf h32 hstart) _ _ _ hexec)
  refine ⟨hstart, ?_⟩
  have hzero : linked (nextCls look fs v) (0 / fs.clusterSize) iStart = some iStart := by
    rw [Nat.zero_div, linked]
  obtain ⟨-, hwalk⟩ := (wp_iff_exec _ _ _).mp
    (sfatReaddir_spec hwf h32 hlt (by omega) (by omega) hstart hzero) _ _ _ hexec
  rw [Nat.zero_mod, Nat.zero_div, List.drop_zero] at hwalk
  cases hwalk with
  | stopped hstop =>
    cases hstop with
    | refused _ _ _ _ _ href _ _ _ => exact href.elim
    | @atEnd pre s post st₁ hsplit hpass hend hst =>
      have hany : (dirSlots fs v (walkClusters look fs v
          ((iSize + fs.clusterSize - 1) / fs.clusterSize) iStart)).any Slot.isEnd = true := by
        rw [hsplit, List.any_append, List.any_cons, hend]
        simp
      obtain ⟨cs, hcs, hlen⟩ := exists_dirPath (.inl hany)
      obtain ⟨calls, hdir, hemit⟩ := hpass.emitted
      rw [List.nil_append] at hdir
      have hdirent : st.dirent = calls := by rw [hst, hdir]
      refine ⟨cs, hcs, hlen, ?_⟩
      have hchain := hcs.walk (hcs.length_le hwf hpos)
      rcases hcs.walk hlen with ⟨hend', rest, hrest⟩ | ⟨hend', hsame, -, -⟩
      · have hlive : liveSlots (dirSlots fs v cs) = liveSlots pre := by
          rw [← liveSlots_split hpass.noEnd hend, ← hsplit, hrest, liveSlots, liveSlots,
            live_append_of_stop hend']
        obtain ⟨mid, hmid⟩ := prefix_of_noEnd (hsplit.symm.trans hrest) hpass.noEnd hend'
        obtain ⟨-, rest', hrest'⟩ := hchain.resolve_right fun h => by simp [hend'] at h
        rw [hdirent, hlive, chainSlots, hrest', ← hmid, List.append_assoc]
        exact hemit.reportsSlot hpass.noEnd
      · rw [hsame, hend'] at hany
        exact absurd hany (by simp)
  | passed hended hpass =>
    obtain ⟨cs, hcs, hlen⟩ := exists_dirPath (.inr hended)
    obtain ⟨calls, hdir, hemit⟩ := hpass.emitted
    rw [List.nil_append] at hdir
    refine ⟨cs, hcs, hlen, ?_⟩
    have hnoEnd := hpass.noEnd
    rcases hcs.walk hlen with ⟨hend', rest, hrest⟩ | ⟨hend', hsame, -, -⟩
    · rw [hrest, List.any_append, hend'] at hnoEnd
      exact absurd hnoEnd (by simp)
    · rw [hsame] at hemit
      obtain ⟨-, hchain, -, -⟩ := (hcs.walk (hcs.length_le hwf hpos)).resolve_left fun h => by
        simp [hend'] at h
      rw [hdir, chainSlots, hchain]
      have hrep : List.Forall₂ (ReportsSlot (dirSlots fs v cs ++ [])) calls _ :=
        hemit.reportsSlot hend'
      rwa [List.append_nil] at hrep
  | exhausted _ _ herr =>
    rw [hret] at herr
    exact absurd herr (by decide)

/-! ### Unused slots -/

/-- The first slot that is not in use has only used slots before it. -/
theorem firstUnused_some {slots : List Slot} {s : Slot} (h : firstUnused slots = some s) :
    (s.isEnd || s.isEmpty) = true ∧ ∃ pre post, slots = pre ++ s :: post ∧
      ∀ t ∈ pre, t.isEnd = false ∧ t.isEmpty = false := by
  obtain ⟨hs, pre, post, hsplit, hpre⟩ := List.find?_eq_some_iff_append.mp h
  refine ⟨hs, pre, post, hsplit, fun t ht => ?_⟩
  have hused := hpre t ht
  rwa [Bool.not_eq_true', Bool.or_eq_false_iff] at hused

theorem not_mem_liveSlots {slots : List Slot} {s : Slot} (h : (s.isEnd || s.isEmpty) = true) :
    s ∉ liveSlots slots := by
  intro hmem
  obtain ⟨-, hstop, hskip⟩ := mem_live hmem
  rw [hstop, hskip] at h
  exact absurd h (by simp)

/-! ### Sizes -/

theorem slots_per_cluster (hwf : WellFormed fs) :
    fs.blkPerClus * fs.direntPerBlk = fs.clusterSize / 32 := by
  obtain ⟨d, -, hd, hbs⟩ := hwf.blockSize_slots
  rw [hwf.clusterSize_blocks, hd, hbs, Nat.mul_left_comm, Nat.mul_div_cancel_left _ (by omega)]

/-- A directory with fewer than 2^31 slots has a size far below the width of `size_t`. -/
theorem size_lt_of_slots (hwf : WellFormed fs) {iSize : ℕ}
    (hslots : (iSize + fs.clusterSize - 1) / fs.clusterSize * (fs.clusterSize / 32) < 2 ^ 31) :
    iSize + fs.clusterSize ≤ sizeT := by
  have hcs := hwf.clusterSize_le
  have hpos := hwf.clusterSize_pos
  obtain ⟨m, hm⟩ : ∃ m, fs.clusterSize = 32 * m := by
    obtain ⟨d, -, -, hbs⟩ := hwf.blockSize_slots
    exact ⟨fs.blkPerClus * d, by rw [hwf.clusterSize_blocks, hbs]; ring⟩
  have hround := Nat.lt_div_mul_add hpos (a := iSize + fs.clusterSize - 1)
  generalize (iSize + fs.clusterSize - 1) / fs.clusterSize = q at *
  have hdiv : fs.clusterSize / 32 = m := by omega
  have hbytes : q * fs.clusterSize = 32 * (q * m) := by rw [hm]; ring
  rw [hdiv] at hslots
  rw [sizeT]
  omega

theorem toInt32_of_lt {n : ℕ} (h : n < 2 ^ 31) : toInt32 n = n := by
  have hmod : n % 2 ^ 32 = n := Nat.mod_eq_of_lt (by omega)
  rw [toInt32, hmod, if_pos h]

/-! ### The agreement -/

/-- **The four scanners agree.**  `E` is the list of slots that `sfat_readdir` emitted. -/
theorem scanners_agree (hwf : WellFormed fs) (hpos : 1 ≤ fs.clusters) {iStart iSize : ℕ}
    (h32 : 32 ≤ iSize)
    (hslots : (iSize + fs.clusterSize - 1) / fs.clusterSize * (fs.clusterSize / 32) < 2 ^ 31)
    {tr : List Request} {st : ReaddirState} {v' : Vol}
    (hexec : Exec (lookupWorld look) (sfatReaddir fs iStart iSize 0) v tr st v')
    (hret : st.error = 0) :
    ∃ E : List Slot,
      List.Forall₂ (ReportsSlot (chainSlots look fs v iStart)) st.dirent E ∧
      wp (lookupWorld look) (sfatCountSubdirs fs iStart iSize)
        (fun r _ => r = .ok (E.length : ℤ)) v ∧
      (∀ name, wp (lookupWorld look) (sfatDentryLocate fs iStart name) (fun r _ =>
        ((∃ found, r = .ok found) ↔ ∃ s ∈ E, strncmpEq name s.de.name = true) ∧
        ∀ found, r = .ok found → ∃ s, (E.find? fun s => strncmpEq name s.de.name) = some s ∧
          found = locatedOf fs s) v) ∧
      wp (lookupWorld look) (sfatFreeDentryLocate fs iStart) (fun r _ =>
        (r = .error .enoent ↔ ∀ s ∈ chainSlots look fs v iStart, s ∈ E) ∧
        (r = .error .enoent ∨ ∃ pre s post, chainSlots look fs v iStart = pre ++ s :: post ∧
          (∀ t ∈ pre, t.isEnd = false ∧ t.isEmpty = false) ∧ (s.isEnd || s.isEmpty) = true ∧
          s ∉ E ∧ r = .ok (freeSlotOf fs v s))) v := by
  have hlt := size_lt_of_slots hwf hslots
  obtain ⟨hstart, cs, hcs, hlen, hreports⟩ := readdir_emits hwf h32 hlt hpos hexec hret
  have hclus := hcs.length_le hwf hpos
  refine ⟨liveSlots (dirSlots fs v cs), hreports, ?_, fun name => ?_, ?_⟩
  · -- the count fits an `int`
    have hmax : iStart < sfatEntryMax := by
      have := hwf.clusters_lt
      rw [hwf.clustersPred_eq hpos] at hstart
      omega
    have hcount : (liveSlots (dirSlots fs v cs)).length < 2 ^ 31 := by
      refine lt_of_le_of_lt (live_length_le _) ?_
      rw [dirSlots_length, slots_per_cluster hwf]
      exact lt_of_le_of_lt (Nat.mul_le_mul_right _ hlen) hslots
    rw [sfatCountSubdirs, if_neg (by omega), wp_blkholderAlloc_lookups]
    intro addr
    rw [dirRounds_eq hwf (by omega) hlt]
    simp only []
    rw [wp_bind, count_of_path hwf hcs hmax hlen]
    refine (wp_done _ _ _).mpr ?_
    rw [toInt32_of_lt hcount]
  · rw [locate_of_path hcs hclus, locateOnPath]
    cases hfind : (liveSlots (dirSlots fs v cs)).find? fun s => strncmpEq name s.de.name with
    | none =>
      refine ⟨⟨fun h => ?_, fun h => ?_⟩, fun found h => by cases h⟩
      · obtain ⟨found, hfound⟩ := h
        cases hfound
      · obtain ⟨s, hs, hname⟩ := h
        exact absurd hname (List.find?_eq_none.mp hfind s hs)
    | some s =>
      refine ⟨⟨fun _ => ⟨s, List.mem_of_find?_eq_some hfind, by simpa using List.find?_some hfind⟩,
        fun _ => ⟨_, rfl⟩⟩, fun found h => ⟨s, rfl, ?_⟩⟩
      exact (Except.ok.inj h).symm
  · rw [free_of_path hcs hclus, freeOnPath]
    have hchain : ∃ rest, chainSlots look fs v iStart = dirSlots fs v cs ++ rest ∧
        ((dirSlots fs v cs).any Slot.isEnd = false → rest = []) := by
      rcases hcs.walk hclus with ⟨hany, rest, hrest⟩ | ⟨-, hsame, -, -⟩
      · exact ⟨rest, hrest, fun h => by simp [hany] at h⟩
      · exact ⟨[], by rw [chainSlots, hsame, List.append_nil], fun _ => rfl⟩
    obtain ⟨rest, hrest, hnil⟩ := hchain
    rw [hrest]
    cases hfree : firstUnused (dirSlots fs v cs) with
    | some s =>
      obtain ⟨hs, pre, post, hsplit, hused⟩ := firstUnused_some hfree
      have hnot : s ∉ liveSlots (dirSlots fs v cs) := not_mem_liveSlots hs
      refine ⟨⟨fun h => (by cases h), fun h => absurd (h s ?_) hnot⟩, .inr ⟨pre, s, post ++ rest, ?_,
        hused, hs, hnot, rfl⟩⟩
      · exact List.mem_append_left _ (List.mem_of_find?_eq_some hfree)
      · rw [hsplit, List.append_assoc, List.cons_append]
    | none =>
      have hall : liveSlots (dirSlots fs v cs) = dirSlots fs v cs := find?_free_eq_none.mp hfree
      have hnoEnd : (dirSlots fs v cs).any Slot.isEnd = false := by
        rw [List.any_eq_false]
        intro s hs
        have := List.find?_eq_none.mp hfree s hs
        simp only [Bool.or_eq_true, not_or] at this
        exact this.1
      rw [hall, hnil hnoEnd, List.append_nil]
      exact ⟨⟨fun _ s hs => hs, fun _ => rfl⟩, .inl rfl⟩

theorem scanners_agree_oneFile :
    ∃ E : List Slot, E.length = 1 ∧
      wp (lookupWorld storedWord) (sfatCountSubdirs (formattedFsInfo layout31) 0 2048)
        (fun r _ => r = .ok (E.length : ℤ)) oneFileVolume := by
  have hlayout : formatLayout 512 31 = some layout31 := by decide
  have hexec := Exec.of_quiet (H := Host.lookups noFailure storedWord) (fun _ _ _ _ => rfl)
    (sfatReaddir (formattedFsInfo layout31) 0 2048 0) oneFileVolume
  obtain ⟨E, hreports, hcount, -⟩ := scanners_agree (formattedFsInfo_wellFormed hlayout) (by decide)
    (by decide) (by decide) hexec (by decide +kernel)
  refine ⟨E, ?_, hcount⟩
  rw [← hreports.length_eq]
  decide +kernel

end SimpleFat

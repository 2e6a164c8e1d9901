import SimpleFat.VolumeRuns

/-!
# When there is room

What a call that creates or writes a file returns is decided by the files on the volume and by the
number of the words of the FAT that are in use.

* `CreateDoes`, `WriteReturns` — what a call does and returns;
* `CreateStep.does`, `DataRun.returns` — every call does so;
* `fat_sequential_over_runs`, `write_returns_over_runs`, `create_does_over_runs` — in every run.
-/

namespace SimpleFat

open SimpleFat.Lib

variable {fs : FsInfo} {v v' : Vol} {start k : ℕ} {cs : List ℕ} {slots : List Slot} {s : Slot}

/-! ### The slots of a directory -/

section Slots

/-- The last slot of a chain is the last one of its last cluster. -/
theorem lastSlot_ends (hnodup : cs.Nodup) {pre : List Slot} (h : dirSlots fs v cs = pre ++ [s]) :
    s.idx + 1 = fs.direntPerBlk ∧ s.blk + 1 = fs.blkPerClus ∧ cs.getLast? = some s.cls := by
  have hmem : s ∈ dirSlots fs v cs := h ▸ List.mem_append_right pre (List.mem_singleton_self s)
  obtain ⟨-, hblk, hidx, -⟩ := mem_clusterSlots.mp (mem_dirSlots.mp hmem).2
  obtain ⟨as, bs, rfl, hbehind⟩ := dirSlots_split hnodup h
  have hlength := congrArg List.length hbehind
  rw [slotsBehind, List.length_append, List.length_append, pageSlots_length, blockSlots_length,
    dirSlots_length, List.length_nil] at hlength
  have hslots : 0 < fs.blkPerClus * fs.direntPerBlk := Nat.mul_pos (by omega) (by omega)
  have hbs : bs.length = 0 :=
    (Nat.mul_eq_zero.mp (show bs.length * (fs.blkPerClus * fs.direntPerBlk) = 0 by omega)).resolve_right
      (by omega)
  have hblocks : fs.blkPerClus - (s.blk + 1) = 0 :=
    (Nat.mul_eq_zero.mp
      (show (fs.blkPerClus - (s.blk + 1)) * fs.direntPerBlk = 0 by omega)).resolve_right (by omega)
  obtain rfl := List.eq_nil_of_length_eq_zero hbs
  exact ⟨by omega, by omega, List.getLast?_concat⟩

/-- A walk that is refused a cluster has come to it. -/
theorem refused_mem_walk {look : (blk pos : ℕ) → Page → ℕ} {n : ℕ}
    (h : walkRefused look fs v n start = true) :
    ∃ c ∈ walkClusters look fs v n start, fs.clustersPred ≤ c := by
  induction n generalizing start with
  | zero => cases h
  | succ n ih =>
    rw [walkRefused] at h
    rw [walkClusters_succ]
    by_cases hpred : fs.clustersPred ≤ start
    · exact ⟨start, List.mem_cons_self, hpred⟩
    · rw [if_neg hpred] at h ⊢
      by_cases hlarge : fs.clusters < nextWord look fs v start
      · rw [if_pos hlarge] at h
        cases h
      · rw [if_neg hlarge] at h ⊢
        obtain ⟨c, hc, hrefused⟩ := ih h
        exact ⟨c, List.mem_cons_of_mem start hc, hrefused⟩

/-- A scan that meets no terminator has met slots in use only. -/
theorem FilledDir.full_of_scan (h : FilledDir fs v start cs slots) {name : Vector UInt8 11}
    (hscan : scanName name (chainSlots storedWord fs v start) = none) :
    dirSlots fs v cs = slots ∧ firstUnused (chainSlots storedWord fs v start) = none := by
  have hnoEnd : (chainSlots storedWord fs v start).any Slot.isEnd = false := by
    rw [scanName_chainSlots] at hscan
    cases hfind : findName storedWord fs v start name with
    | some s =>
      rw [hfind] at hscan
      cases hscan
    | none =>
      rw [hfind] at hscan
      simp only [] at hscan
      by_contra hend
      rw [Bool.not_eq_false] at hend
      rw [if_pos hend] at hscan
      cases hscan
  obtain ⟨post, hsplit, hhead⟩ := h.split
  rw [h.seen, hsplit] at hnoEnd ⊢
  cases post with
  | nil =>
    rw [List.append_nil]
    exact ⟨rfl, List.find?_eq_none.mpr fun t ht => by simp [h.used t ht]⟩
  | cons t rest => simp [isEnd_of_attr (hhead t rest rfl)] at hnoEnd

end Slots

/-! ### A file is created -/

/-- **What a call that creates a file does**, from the files on the volume, the slots of the directory,
its last cluster and the number of words in use: the result, and the files afterwards. -/
inductive CreateDoes (fs : FsInfo) (used room last : ℕ) (old : List (List UInt8 × List UInt8))
    (n : List UInt8) : CreateReturn → List (List UInt8 × List UInt8) → Prop
  | eexist : n ∈ old.map Prod.fst → CreateDoes fs used room last old n (.error .eexist) old
  /-- The directory is full, and no cluster is free. -/
  | enoent : n ∉ old.map Prod.fst → old.length = room → last + 1 < fs.clusters →
      used = fatWords fs → CreateDoes fs used room last old n (.error .enoent) old
  /-- The directory is full, and the accessor refuses its last cluster. -/
  | refused : n ∉ old.map Prod.fst → old.length = room → last + 1 = fs.clusters →
      CreateDoes fs used room last old n (.error .einval) old
  | filled {inode : Inode} : n ∉ old.map Prod.fst → old.length < room →
      (old.length + 1 = room → last + 1 < fs.clusters) →
      CreateDoes fs used room last old n (.ok (some inode)) (old ++ [(n, [])])
  /-- The directory is full and gets a cluster. -/
  | grown {inode : Inode} : n ∉ old.map Prod.fst → old.length = room → last + 1 < fs.clusters →
      used < fatWords fs → CreateDoes fs used room last old n (.ok (some inode)) (old ++ [(n, [])])
  /-- The last slot is filled, and then the accessor refuses the last cluster. -/
  | stuck : n ∉ old.map Prod.fst → old.length + 1 = room → last + 1 = fs.clusters →
      CreateDoes fs used room last old n (.error .einval) (old ++ [(n, [])])

/-- The slots of a directory with these clusters. -/
def dirRoom (fs : FsInfo) (cs : List ℕ) : ℕ := cs.length * (fs.blkPerClus * fs.direntPerBlk)

/-- What a call leaves of a directory without holes, with the result for it. -/
def CreateLeaves (fs : FsInfo) (v' : Vol) (start k l : ℕ) (cs : List ℕ) (slots : List Slot)
    (old : List (List UInt8 × List UInt8)) (n : List UInt8)
    (p : Except CreateReturn (SfatDirEntry × ℕ)) : Prop :=
  (FilledDir fs v' start cs slots ∧ ∃ e, p = .error (.error e) ∧
    CreateDoes fs k (dirRoom fs cs) l old n (.error e) old) ∨
  ∃ x cs', FilledDir fs v' start cs' (slots ++ [x]) ∧ NewEntry n x ∧
    ((∃ q, p = .ok q ∧ ∀ inode,
      CreateDoes fs k (dirRoom fs cs) l old n (.ok (some inode)) (old ++ [(n, [])])) ∨
    p = .error (.error .einval) ∧
      CreateDoes fs k (dirRoom fs cs) l old n (.error .einval) (old ++ [(n, [])]))

section Create

variable {dir dir' : Inode} {n : List UInt8} {junk : CreateJunk} {t l : ℕ} {de : SfatDirEntry}
  {p : Except CreateReturn (SfatDirEntry × ℕ)}

/-- **The slot that is filled**: it is the last one exactly if one is left. -/
theorem FilledDir.lastSlot_iff (h : FilledDir fs v start cs slots)
    (hs : firstUnused (chainSlots storedWord fs v start) = some s) :
    slots.length < dirRoom fs cs ∧
      (slots.length + 1 = dirRoom fs cs →
        s.EndsBlock fs ∧ s.blk + 1 = fs.blkPerClus ∧ cs.getLast? = some s.cls) := by
  obtain ⟨rest, hsplit, hattr⟩ := h.found hs
  rw [h.seen] at hsplit
  have hlength := congrArg List.length hsplit
  rw [dirSlots_length, ← dirRoom, List.length_append, List.length_cons] at hlength
  refine ⟨by omega, fun hone => ?_⟩
  obtain rfl := List.eq_nil_of_length_eq_zero (show rest.length = 0 by omega)
  obtain ⟨hidx, hblk, hlast⟩ := lastSlot_ends h.chain.nodup hsplit
  exact ⟨⟨hattr, hidx⟩, hblk, hlast⟩

/-- **The move of the terminator** gets stuck exactly behind the last slot of a chain that ends with the
last cluster of the volume. -/
theorem FilledDir.stuck_iff (hp : Placed fs) (hseq : Sequential fs v k)
    (h : FilledDir fs v start cs slots) (hl : cs.getLast? = some l)
    (hs : firstUnused (chainSlots storedWord fs v start) = some s) (hlast : s.EndsBlock fs)
    {r : Option CreateReturn} {v₂ : Vol}
    (hmove : moveTerminator storedWord fs (slotWritten fs v s de) s junk = (r, v₂)) :
    (r = some (.error .einval) ∧ slots.length + 1 = dirRoom fs cs ∧
      l + 1 = fs.clusters) ∨
    (r = none ∧ (slots.length + 1 = dirRoom fs cs →
      l + 1 < fs.clusters)) := by
  have hpred := hp.clustersPred_eq hp.clusters_pos
  have hchain := (dirChain_iff hp.toWellFormed).mp h.chain
  have hbelow := h.chain.below l (List.mem_of_getLast? hl)
  obtain ⟨-, hone⟩ := h.lastSlot_iff hs
  obtain ⟨rest, hsplit, -⟩ := h.found hs
  have hmem : s ∈ dirSlots fs v cs := by
    rw [← h.seen]
    exact List.mem_of_find?_eq_some hs
  have hcls := (mem_dirSlots.mp hmem).1
  by_cases hrefused : s.blk + 1 = fs.blkPerClus ∧ fs.clustersPred ≤ s.cls
  · -- the cluster is the last one of the chain, and nothing is behind the slot
    obtain ⟨hblk, hcut⟩ := hrefused
    rw [moveTerminator, if_neg (by omega), if_pos hcut] at hmove
    obtain ⟨as, bs, hwalk, hrest⟩ := behind_last_slot hsplit (h.walk ▸ h.chain.nodup) hlast.2 hblk
    rw [h.walk] at hwalk
    have hend := hseq.last_of_refused hp hchain (i := as.length) (by rw [hwalk]; simp) hcut
    rw [hwalk, List.length_append, List.length_cons] at hend
    obtain rfl := List.eq_nil_of_length_eq_zero (show bs.length = 0 by omega)
    rw [hwalk, List.getLast?_concat] at hl
    obtain rfl := Option.some.inj hl
    have hlength := congrArg List.length hsplit
    rw [h.seen, dirSlots_length, ← dirRoom, List.length_append, List.length_cons, hrest] at hlength
    refine .inl ⟨(Prod.mk.inj hmove).1.symm, ?_, by omega⟩
    rw [hlength]
    rfl
  · refine .inr ⟨?_, fun hcount => ?_⟩
    · cases r with
      | none => rfl
      | some r =>
        obtain ⟨-, hblk, -⟩ := moveTerminator_stuck hmove
        have hplaced := placed_of_mem (h.lt hp) hmem
        have hblk_lt := hplaced.blk_lt
        have hcut : ¬ fs.clustersPred ≤ s.cls := fun hcut => hrefused ⟨by omega, hcut⟩
        rcases moveTerminator_cases hp h.chain hsplit hlast hmove with
          ⟨-, hnone, -⟩ | ⟨-, hstuck | ⟨hnone, -⟩ | ⟨hnone, -⟩⟩
        · exact hnone
        · -- the accessor has taken the cluster, and its word is a link or the end mark
          obtain rfl := Option.some.inj hstuck
          rw [moveTerminator, if_neg hblk, if_neg hcut] at hmove
          split at hmove
          · cases hmove
          · split at hmove
            · cases hmove
            · cases hmove
        · exact hnone
        · exact hnone
    · obtain ⟨-, hblk, hcls'⟩ := hone hcount
      obtain rfl := Option.some.inj (hl.symm.trans hcls')
      by_contra hge
      exact hrefused ⟨hblk, by omega⟩

/-- **One call**, on a directory without holes. -/
theorem CreateStep.does (hp : Placed fs) (hseq : Sequential fs v k)
    (h : FilledDir fs v dir.iStart cs slots) (hl : cs.getLast? = some l)
    (hnext : NextSet fs v dir junk) (hgrows : GrowsInside fs v dir) (hnul : NoNul n)
    {old : List (List UInt8 × List UInt8)} (hold : old.map Prod.fst = slotNames slots)
    (hstep : CreateStep storedWord fs v dir (padName n) junk t p dir' v') :
    CreateLeaves fs v' dir.iStart k l cs slots old (n.take 11) p := by
  have hafter := hstep.filled hp h hnext hgrows hnul
  have hcount : old.length = slots.length := by
    rw [← List.length_map (f := Prod.fst), hold, slotNames_length]
  have hpred := hp.clustersPred_eq hp.clusters_pos
  have hbelow := h.chain.below l (List.mem_of_getLast? hl)
  -- a call that goes on has added the entry
  have hadded : ∀ {q}, p = .ok q → (∀ inode, CreateDoes fs k (dirRoom fs cs) l old (n.take 11)
      (.ok (some inode)) (old ++ [(n.take 11, [])])) →
      CreateLeaves fs v' dir.iStart k l cs slots old (n.take 11) p := by
    intro q hq hdoes
    rcases hafter with ⟨-, e, he, -⟩ | ⟨x, cs', hfilled, hx, -⟩
    · rw [hq] at he
      cases he
    · exact .inr ⟨x, cs', hfilled, hx, .inl ⟨q, hq, hdoes⟩⟩
  have hfree : NameFree storedWord fs v dir.iStart (padName n) → n.take 11 ∉ old.map Prod.fst := by
    intro hname
    rw [hold]
    exact h.nameFree hnul hname
  have hroom : firstUnused (chainSlots storedWord fs v dir.iStart) = none →
      old.length = dirRoom fs cs := by
    intro hfull
    rw [hcount, ← h.full hfull, dirSlots_length, dirRoom]
  cases hstep with
  | visible hs =>
    refine .inl ⟨h, _, rfl, .eexist ?_⟩
    rw [hold]
    exact h.scanned_name hnul hs
  | refused hscan hcut =>
    obtain ⟨hslots, hfull⟩ := h.full_of_scan hscan
    obtain ⟨c, hc, hrefused⟩ := refused_mem_walk hcut
    rw [h.walk] at hc
    have hchain := (dirChain_iff hp.toWellFormed).mp h.chain
    obtain ⟨i, hi⟩ := List.getElem?_of_mem hc
    have hend := hseq.last_of_refused hp hchain hi hrefused
    rw [List.getLast?_eq_getElem?, ← hend, Nat.add_sub_cancel, hi] at hl
    obtain rfl := Option.some.inj hl
    refine .inl ⟨h, _, rfl, .refused ?_ (hroom hfull) (by omega)⟩
    rw [hold]
    refine h.not_found hnul (not_found_of_scan fun s hs => ?_)
    rw [hscan] at hs
    cases hs
  | slot hname hs hmid =>
    obtain ⟨hlt, hone⟩ := h.lastSlot_iff hs
    rw [← hcount] at hlt hone
    exact hadded rfl fun _ => .filled (hfree hname) hlt fun hlast => absurd (hone hlast).1 hmid
  | slotMoved hname hs hlast hmove =>
    have hlt := (h.lastSlot_iff hs).1
    rcases h.stuck_iff hp hseq hl hs hlast hmove with ⟨hr, -⟩ | ⟨-, hone⟩
    · cases hr
    · rw [← hcount] at hlt hone
      exact hadded rfl fun _ => .filled (hfree hname) hlt hone
  | slotStuck hname hs hlast hmove =>
    have hfilled := (h.blockFilled hp hs hlast (hnext _ hs hlast)
      (sfatFormDirEntry_fits false (padName n) 0 0 t) (newEntry_take hnul ..) hmove).1
    rcases h.stuck_iff hp hseq hl hs hlast hmove with ⟨hr, hone, hend⟩ | ⟨hr, -⟩
    · obtain rfl := Option.some.inj hr
      rw [← hcount] at hone
      exact .inr ⟨_, cs, hfilled, newEntry_take hnul .., .inr ⟨rfl, .stuck (hfree hname) hone hend⟩⟩
    · cases hr
  | noCluster hname hfull hnone =>
    have hacc := (full_directory hp h.chain hname hfull).1 l (List.mem_of_getLast? hl)
    exact .inl ⟨h, _, rfl, .enoent (hfree hname) (hroom hfull) hacc (hseq.full hnone)⟩
  | unlinked hname hfull hc hnone =>
    rw [h.links hp hname hfull hc] at hnone
    cases hnone
  | newCluster hname hfull hc _ =>
    have hacc := (full_directory hp h.chain hname hfull).1 l (List.mem_of_getLast? hl)
    obtain rfl := hseq.next hc
    exact hadded rfl fun _ => .grown (hfree hname) (hroom hfull) hacc hc.1

end Create

/-! ### A file is written -/

/-- **What a write returns**, from the size of the file, its first cluster and the number of words in
use. -/
inductive WriteReturns (fs : FsInfo) (used start size len ppos : ℕ) : Except Errno ℕ → Prop
  | rejected : size < ppos ∨ len = 0 → WriteReturns fs used start size len ppos (.error .einval)
  /-- The accessor refuses the first cluster. -/
  | notFound {e : Errno} : ppos ≤ size → len ≠ 0 → insideFile fs size ppos = true →
      fs.clusters ≤ start + 1 → WriteReturns fs used start size len ppos (.error e)
  | wrote : ppos ≤ size → len ≠ 0 → (insideFile fs size ppos = true → start + 1 < fs.clusters) →
      WriteReturns fs used start size len ppos (.ok (min len (writeRoom fs used size ppos)))

section Write

variable {inode inode' : Inode} {buf : ℕ → UInt8} {len ppos : ℕ}

/-- A write with an error. -/
theorem DataRun.returns_error (hp : Placed fs) (h : Sequential fs v k)
    (hfile : FileChain fs v inode cs) {e : Errno}
    (hrun : DataRun noFailure storedWord fs v inode buf len ppos (.error e, inode') v') :
    WriteReturns fs k inode.iStart inode.iSize len ppos (.error e) := by
  cases hrun with
  | rejected hallow =>
    apply WriteReturns.rejected
    by_contra hok
    simp only [not_or, not_lt] at hok
    exact hallow hok
  | notFound hallow hin hmiss =>
    obtain ⟨hsize, hlt⟩ := hfile.inside hp hallow hin
    have hmiss := hmiss.resolve_right not_canFail
    have hstart := (h.seekFinds_iff hp hfile hsize hlt).not.mp fun hfound => hfound.elim hmiss
    exact .notFound hallow.1 hallow.2 ((insideFile_iff fs inode ppos).mpr hin) (by omega)

/-- **A write without one.** -/
theorem DataRun.returns (hp : Placed fs) (h : Sequential fs v k) (hfile : FileChain fs v inode cs)
    (hgood : ¬ AppendsInCluster fs v inode cs len ppos) (hbound : WriteBounded fs v inode len ppos)
    {st : SyncWriteState} (hrun : DataRun noFailure storedWord fs v inode buf len ppos (.ok st, inode') v') :
    WriteReturns fs k inode.iStart inode.iSize len ppos (.ok st.accuLen) := by
  have hallow := hrun.allowed
  have hmoved := hrun.ppos_accu
  obtain ⟨hppos, -⟩ := hrun.fills hp h hfile hgood hbound
  rw [show st.accuLen = min len (writeRoom fs k inode.iSize ppos) by omega]
  refine .wrote hallow.1 hallow.2 fun hin => ?_
  rw [insideFile_iff] at hin
  obtain ⟨hsize, hlt⟩ := hfile.inside hp hallow hin
  exact (h.seekFinds_iff hp hfile hsize hlt).mp (hrun.seekFinds hin)

end Write

/-! ### The results -/

section Runs

variable {S : ℕ} {L : FormatLayout} {v₀ : Vol} {ub ub' : UndefinedShift} {options : MountOptions}
  {log : List (VolumeCall × CallResult)} {st st' : Mounted}

/-- The number of the words in use says which ones they are. -/
theorem VolumeInv.sequential_used {m : ℕ} {P : Prop} (inv : VolumeInv L v₀ m P st) :
    Sequential (formattedFsInfo L) st.vol (usedWords (formattedFsInfo L) st.vol) := by
  obtain ⟨k, hseq⟩ := inv.sequential
  rw [inv.root.fsInfo] at hseq
  rwa [hseq.usedWords_eq]

/-- **The FAT is filled from its start**, in every run: the words in use are the first ones, links go
up, and so do all chains. -/
theorem fat_sequential_over_runs (h : formatLayout 512 S = some L) (hpos : 1 ≤ L.clusters)
    (hrun : VolumeRun ub options L v₀ CallKeeps log st) :
    Sequential (formattedFsInfo L) st.vol (usedWords (formattedFsInfo L) st.vol) ∧
      ∀ start cs, FatChain (formattedFsInfo L) st.vol start cs → cs.Pairwise (· < ·) := by
  have hseq := (hrun.inv h hpos).sequential_used
  exact ⟨hseq, fun start cs hchain => hseq.ascending (formattedFsInfo_placed h hpos) hchain⟩

theorem fat_sequential_over_runs_oneByte : ∃ st,
    VolumeRun zeroShift sbi31.options layout31 (fun _ => 0) CallKeeps
      (writeLog ++ [(.read [97] 10 0, .data [7] 1)]) st ∧
    Sequential (formattedFsInfo layout31) st.vol (usedWords (formattedFsInfo layout31) st.vol) ∧
      ∀ start cs, FatChain (formattedFsInfo layout31) st.vol start cs → cs.Pairwise (· < ·) := by
  obtain ⟨st, hrun⟩ := oneByte_run
  exact ⟨st, hrun, fat_sequential_over_runs (show formatLayout 512 31 = some layout31 by decide)
    (by decide) hrun⟩

/-- **What a call that creates a file does** is decided by the files that there are and the number of
words in use. -/
theorem VolumeInv.createDoes {m : ℕ} {P : Prop} (h : formatLayout 512 S = some L) (hpos : 1 ≤ L.clusters)
    (inv : VolumeInv L v₀ m P st) {n : List UInt8} {junk : CreateJunk} {r : CreateReturn}
    (hkeep : CallKeeps st (.create n junk)) (hcall : Calls ub' st (.create n junk) (.dentry r) st') :
    ∃ ds last, FatChain (formattedFsInfo L) st.vol 0 ds ∧ ds.getLast? = some last ∧
      CreateDoes (formattedFsInfo L) (usedWords (formattedFsInfo L) st.vol)
        (dirRoom (formattedFsInfo L) ds) last (volumeFiles (formattedFsInfo L) st.vol 0) (n.take 11) r
        (volumeFiles (formattedFsInfo L) st'.vol 0) := by
  have hp := inv.placed h hpos
  have hseq := inv.sequential_used
  obtain ⟨ds, slots, chains, hdisk, -, -, -⟩ := inv.held
  have hchain := (dirChain_iff hp.toWellFormed).mp hdisk.filled.chain
  have hlast := List.getLast?_eq_getLast_of_ne_nil hdisk.filled.chain.path.ne_nil
  have hnames := hdisk.filled.files_names
  cases hcall with
  | create hnul he =>
    obtain ⟨t, p, hstep, hr⟩ := create_cases hp.toWellFormed inv.root.iIno he
    obtain ⟨es, hothers⟩ := hstep.keepsOthers hp hdisk.filled hkeep.1
    rw [← inv.root.fsInfo] at hseq
    have hdoes := hstep.does hp hseq hdisk.filled hlast hkeep.1 hkeep.2 hnul hnames
    rw [inv.root.fsInfo, inv.root.iStart] at hchain
    refine ⟨ds, _, hchain, hlast, ?_⟩
    rw [← inv.root.fsInfo, ← inv.root.iStart]
    rcases hdoes with ⟨hfilled, e, rfl, hdoes⟩ | ⟨x, cs', hfilled, hx, hdoes⟩
    · obtain ⟨e', heq, rfl⟩ | ⟨q, inode, heq, -⟩ := hr
      · obtain rfl := Except.error.inj heq
        rw [hdisk.same_files hp hfilled hothers]
        exact hdoes
      · cases heq
    · rw [hdisk.created_files hp hfilled hx hothers]
      rcases hdoes with ⟨q, rfl, hdoes⟩ | ⟨rfl, hdoes⟩
      · obtain ⟨e', heq, -⟩ | ⟨q', inode, heq, rfl, -⟩ := hr
        · cases heq
        · exact hdoes inode
      · obtain ⟨e', heq, rfl⟩ | ⟨q', inode, heq, -⟩ := hr
        · obtain rfl := Except.error.inj heq
          exact hdoes
        · cases heq

/-- **What a call that creates a file does** after every run is decided by the files that there are
and the number of words in use. -/
theorem create_does_over_runs (h : formatLayout 512 S = some L) (hpos : 1 ≤ L.clusters)
    (hrun : VolumeRun ub options L v₀ CallKeeps log st) {n : List UInt8} {junk : CreateJunk}
    {r : CreateReturn} (hkeep : CallKeeps st (.create n junk))
    (hcall : Calls ub' st (.create n junk) (.dentry r) st') :
    ∃ ds last, FatChain (formattedFsInfo L) st.vol 0 ds ∧ ds.getLast? = some last ∧
      CreateDoes (formattedFsInfo L) (usedWords (formattedFsInfo L) st.vol)
        (dirRoom (formattedFsInfo L) ds) last (volumeFiles (formattedFsInfo L) st.vol 0) (n.take 11) r
        (volumeFiles (formattedFsInfo L) st'.vol 0) :=
  (hrun.inv h hpos).createDoes h hpos hkeep hcall

theorem create_does_over_runs_oneByte : ∃ ds last,
    FatChain (formattedFsInfo layout31) mounted31.vol 0 ds ∧ ds.getLast? = some last ∧
      CreateDoes (formattedFsInfo layout31) (usedWords (formattedFsInfo layout31) mounted31.vol)
        (dirRoom (formattedFsInfo layout31) ds) last
        (volumeFiles (formattedFsInfo layout31) mounted31.vol 0) [97] (.ok (some firstFile31))
        (volumeFiles (formattedFsInfo layout31) created31.vol 0) :=
  create_does_over_runs (show formatLayout 512 31 = some layout31 by decide) (by decide)
    mounted31_run mounted31_keeps created31_call

/-- **What a write returns** is decided by the size of the file, its first cluster and the number of
words in use. -/
theorem VolumeInv.writeReturns {m : ℕ} {P : Prop} (h : formatLayout 512 S = some L)
    (hpos : 1 ≤ L.clusters) (inv : VolumeInv L v₀ m P st) {n : List UInt8} {buf : ℕ → UInt8}
    {len ppos ppos' : ℕ} {r : Except Errno ℕ} {inode : Inode}
    (hkeep : CallKeeps st (.write n buf len ppos)) (hfile : st.files n = some inode)
    (hown : OwnsSlot st n inode)
    (hcall : Calls ub' st (.write n buf len ppos) (.wrote r ppos') st') :
    ∃ bytes, (n.take 11, bytes) ∈ volumeFiles (formattedFsInfo L) st.vol 0 ∧
      bytes.length = inode.iSize ∧
      WriteReturns (formattedFsInfo L) (usedWords (formattedFsInfo L) st.vol) inode.iStart
        bytes.length len ppos r := by
  have hp := inv.placed h hpos
  have hseq := inv.sequential_used
  obtain ⟨ds, slots, chains, hdisk, hmem, -, -⟩ := inv.held
  obtain ⟨s, hs, hat, -, hsize, hchain⟩ := hdisk.owner hmem hfile hown
  have hbytes : (entryContent st.sbi.fsInfo st.vol s.de).length = inode.iSize := by
    rw [entryContent, firstBytes_length, hsize]
  have hlisted : (n.take 11, entryContent st.sbi.fsInfo st.vol s.de) ∈
      volumeFiles st.sbi.fsInfo st.vol st.dir.iStart := by
    rw [hdisk.filled.files_eq, ← hat.1]
    exact List.mem_map_of_mem (f := Slot.file st.sbi.fsInfo st.vol) hs
  rw [inv.root.fsInfo, inv.root.iStart] at hlisted
  rw [← inv.root.fsInfo] at hseq hlisted ⊢
  refine ⟨_, hlisted, hbytes, ?_⟩
  rw [hbytes]
  cases hcall with
  | write hfile' he =>
    obtain rfl := Option.some.inj (hfile.symm.trans hfile')
    rcases syncWrite_cases hp.toWellFormed he with
      ⟨e, hrun', rfl, -, -, -⟩ | ⟨w, inode₁, t, v₁, hrun', rfl, -, -, -⟩
    · exact hrun'.returns_error hp hseq hchain
    · obtain ⟨-, hkept⟩ := hkeep inode hfile ⟨hrun'.allowed, fun hin => hrun'.seekFinds hin⟩
      obtain ⟨hgood, -, hbound⟩ := hkept _ hchain
      exact hrun'.returns hp hseq hchain hgood hbound

/-- **What a write returns** after every run is decided by the size of the file, its first cluster and
the number of words in use. -/
theorem write_returns_over_runs (h : formatLayout 512 S = some L) (hpos : 1 ≤ L.clusters)
    (hrun : VolumeRun ub options L v₀ CallKeeps log st) {n : List UInt8} {buf : ℕ → UInt8}
    {len ppos ppos' : ℕ} {r : Except Errno ℕ} {inode : Inode}
    (hkeep : CallKeeps st (.write n buf len ppos)) (hfile : st.files n = some inode)
    (hown : OwnsSlot st n inode)
    (hcall : Calls ub' st (.write n buf len ppos) (.wrote r ppos') st') :
    ∃ bytes, (n.take 11, bytes) ∈ volumeFiles (formattedFsInfo L) st.vol 0 ∧
      WriteReturns (formattedFsInfo L) (usedWords (formattedFsInfo L) st.vol) inode.iStart
        bytes.length len ppos r := by
  obtain ⟨bytes, hlisted, -, hreturns⟩ := (hrun.inv h hpos).writeReturns h hpos hkeep hfile hown hcall
  exact ⟨bytes, hlisted, hreturns⟩

theorem write_returns_over_runs_oneByte : ∃ bytes,
    ([97], bytes) ∈ volumeFiles (formattedFsInfo layout31) created31.vol 0 ∧
      WriteReturns (formattedFsInfo layout31) (usedWords (formattedFsInfo layout31) created31.vol)
        firstFile31.iStart bytes.length 1 0 (.ok 1) :=
  write_returns_over_runs (show formatLayout 512 31 = some layout31 by decide) (by decide)
    (mounted31_run.call mounted31_keeps created31_call) created31_keeps created31_file
    (by decide +kernel) written31_call

end Runs

end SimpleFat

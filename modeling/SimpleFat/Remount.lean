import SimpleFat.RootRuns

/-!
# Mounting again

The size of the root directory is in the boot sector.  The format tool stores one cluster there,
`sfat_create_file` adds clusters to the chain and to the inode in memory, and nobody stores the new
size: a mount walks over one cluster and takes the second one for a loop.

* `MountLists` — a mount succeeds and its root directory lists the names;
* `RootInv.mounts`, `RootInv.lists` — one does as long as the files fit in the first cluster;
* `remount_lists_iff` — so the next mount lists the files exactly if they fit in one cluster.
-/

namespace SimpleFat

open SimpleFat.Lib

/-! ### The property -/

/-- A call of `sfat_readdir` from the start of a directory, where every entry is accepted, returns
0 and emits the names. -/
def ListsNames (fs : FsInfo) (v : Vol) (iStart iSize : ℕ) (names : List (List UInt8)) : Prop :=
  wp (lookupWorld storedWord) (sfatReaddir fs iStart iSize 0)
    (fun st _ => st.error = 0 ∧ st.dirent.map emittedName = names) v

def MountLists (v : Vol) (names : List (List UInt8)) : Prop :=
  ∀ (ub : UndefinedShift) (options : MountOptions),
    wp (lookupWorld storedWord) (sfatFillSuperImpl ub 512 options) (fun r v' => ∃ sbi root,
      r = .ok (sbi, root) ∧ ListsNames sbi.fsInfo v' root.iStart root.iSize names) v

variable {fs : FsInfo} {v v' : Vol} {names : List (List UInt8)}

/-! ### The names of a listing -/

/-- The calls for used slots emit their names. -/
theorem Emits.emittedNames {slots all : List Slot} {calls : List FilldirCall} {pos k : ℕ}
    (h : Emits pos slots calls) (hpos : pos = 32 * k) (hused : ∀ t ∈ slots, t.isEmpty = false)
    (hat : ∀ i s, slots[i]? = some s → all[k + i]? = some s)
    (hnamed : ∀ call ∈ calls, NamesSlot all call) :
    calls.map emittedName = slots.map fun s => cString s.de.name := by
  induction h generalizing k with
  | nil => rfl
  | skip hs _ _ =>
    have hne := hused _ List.mem_cons_self
    rw [hs] at hne
    cases hne
  | @emit pos s slots call calls hs hr _ ih =>
    have hcall : all[call.pos / 32]? = some s := by
      rw [hr.pos, hpos, Nat.mul_div_cancel_left k (by decide)]
      exact hat 0 s rfl
    have hname := (hnamed call List.mem_cons_self).emittedName hcall
    have hrest : calls.map emittedName = slots.map fun s => cString s.de.name := by
      apply ih (k := k + 1)
      · omega
      · exact fun t ht => hused t (List.mem_cons_of_mem _ ht)
      · intro i t ht
        rw [Nat.add_assoc, Nat.add_comm 1]
        exact hat (i + 1) t ht
      · exact fun c hc => hnamed c (List.mem_cons_of_mem _ hc)
    rw [List.map_cons, List.map_cons, hname, hrest]

theorem Emits.length_le {slots : List Slot} {calls : List FilldirCall} {pos : ℕ}
    (h : Emits pos slots calls) : calls.length ≤ slots.length := by
  induction h with
  | nil => exact Nat.le_refl _
  | skip _ _ ih => exact Nat.le_succ_of_le ih
  | emit _ _ _ ih => exact Nat.succ_le_succ ih

/-- A walk that is not refused an entry emits the slots before the terminator. -/
theorem WalkOutcome.emits {slots : List Slot} {ended : Bool} {st : ReaddirState}
    (h : WalkOutcome (fun _ => False) slots ended ⟨0, 0, []⟩ st)
    (hended : slots.any Slot.isEnd = true ∨ ended = true) :
    st.error = 0 ∧ Emits 0 (beforeEnd slots) st.dirent := by
  cases h with
  | stopped hstop =>
    cases hstop with
    | atEnd hsplit hpass hend hst =>
      obtain ⟨calls, hd, he⟩ := hpass.emitted
      rw [hsplit, beforeEnd_split hpass.noEnd hend, hst]
      refine ⟨hpass.error, ?_⟩
      rw [List.nil_append] at hd
      rw [hd]
      exact he
    | refused _ _ _ _ _ href _ _ _ => exact href.elim
  | passed _ hpass =>
    obtain ⟨calls, hd, he⟩ := hpass.emitted
    rw [beforeEnd_of_noEnd hpass.noEnd, hd]
    exact ⟨hpass.error, he⟩
  | exhausted hnot hnoEnd _ =>
    rw [hnoEnd, hnot] at hended
    simp at hended

/-- A walk that returns 0 emits at most its slots. -/
theorem WalkOutcome.dirent_length_le {refuse : FilldirCall → Prop} {slots : List Slot}
    {ended : Bool} {st : ReaddirState} (h : WalkOutcome refuse slots ended ⟨0, 0, []⟩ st)
    (herr : st.error = 0) :
    st.dirent.length ≤ slots.length := by
  have hpassed : ∀ {pre : List Slot} {st₁ : ReaddirState}, Passed pre ⟨0, 0, []⟩ st₁ →
      st₁.dirent.length ≤ pre.length := by
    intro pre st₁ hpass
    obtain ⟨calls, hd, he⟩ := hpass.emitted
    rw [hd]
    exact he.length_le
  cases h with
  | stopped hstop =>
    cases hstop with
    | atEnd hsplit hpass _ hst =>
      have hle := hpassed hpass
      rw [hsplit, hst, List.length_append]
      exact Nat.le_trans hle (Nat.le_add_right _ _)
    | refused _ _ _ _ _ _ hneg _ _ =>
      rw [herr] at hneg
      exact absurd hneg (lt_irrefl 0)
  | passed _ hpass => exact hpassed hpass
  | exhausted _ _ heinval =>
    rw [herr] at heinval
    cases heinval

/-! ### The next mount -/

section Mount

variable {S : ℕ} {L : FormatLayout} {v₀ : Vol}

/-- A volume of two clusters or more: the accessor accepts the first one. -/
theorem root_accepted (h : formatLayout 512 S = some L) (hclus : 2 ≤ L.clusters) :
    ¬ (formattedFsInfo L).clustersPred ≤ 0 := by
  rw [(formattedFsInfo_wellFormed h).clustersPred_eq (show 1 ≤ L.clusters by omega)]
  show ¬ L.clusters - 1 ≤ 0
  omega

/-- What a mount counts, on whatever the root directory holds. -/
theorem wp_root_count (h : formatLayout 512 S = some L) (Q : Except Errno ℤ → Vol → Prop) :
    wp (lookupWorld storedWord) (sfatCountSubdirs (formattedFsInfo L)
      (formattedFsInfo L).rootClusterCls (formattedFsInfo L).clusterSize) Q v ↔
      Q ((countOutcome (walkEnded storedWord (formattedFsInfo L) v 1 0)
        (countNext 0 (dirSlots (formattedFsInfo L) v [0]))).map toInt32) v := by
  have hrounds : dirRounds (formattedFsInfo L) (formattedFsInfo L).clusterSize = 1 + 1 := by
    simp only [dirRounds, formattedFsInfo, sizeT, Nat.reduceAdd, Nat.reduceSub, Nat.reducePow,
      Nat.reduceMod, Nat.reduceShiftRight]
  have hsize : ¬ (formattedFsInfo L).clusterSize < 32 := by
    show ¬ 2048 < 32
    decide
  have hroot : (formattedFsInfo L).rootClusterCls = 0 := rfl
  rw [sfatCountSubdirs, if_neg hsize, wp_blkholderAlloc_lookups, hrounds, hroot]
  simp only []
  rw [forall_const, wp_bind, wp_countClusters (formattedFsInfo_wellFormed h) 1 0 0 (by decide),
    walkClusters_one]
  cases countOutcome (walkEnded storedWord (formattedFsInfo L) v 1 0)
      (countNext 0 (dirSlots (formattedFsInfo L) v [0])) with
  | error e => exact wp_done _ _ _
  | ok count => exact wp_done _ _ _

/-- What a listing from the start meets, on whatever the root directory holds. -/
theorem root_readdir (h : formatLayout 512 S = some L) (hclus : 2 ≤ L.clusters) :
    wp (lookupWorld storedWord) (sfatReaddir (formattedFsInfo L) (formattedFsInfo L).rootClusterCls
      (formattedFsInfo L).clusterSize 0) (fun st v' => v' = v ∧
        WalkOutcome (fun _ => False) (dirSlots (formattedFsInfo L) v [0])
          (walkEnded storedWord (formattedFsInfo L) v 1 0) ⟨0, 0, []⟩ st) v := by
  have hsize : (formattedFsInfo L).clusterSize = 2048 := rfl
  have hcls : linked (nextCls storedWord (formattedFsInfo L) v)
      (0 / (formattedFsInfo L).clusterSize) 0 = some 0 := by
    rw [Nat.zero_div]
    rfl
  have hspec : wp (lookupWorld storedWord) (sfatReaddir (formattedFsInfo L) 0 2048 0) _ v :=
    sfatReaddir_spec (formattedFsInfo_wellFormed h) (by decide) (by rw [hsize]; decide) (by decide)
      (by decide) (root_accepted h hclus) hcls
  rw [hsize, Nat.zero_mod, Nat.zero_div, List.drop_zero] at hspec
  rw [← walkClusters_one storedWord]
  exact hspec

/-- The chain of the root directory ends after its first cluster. -/
theorem root_ended (h : formatLayout 512 S = some L) (hclus : 2 ≤ L.clusters)
    (hword : fatWord (formattedFsInfo L) v 0 = sfatEntryEoc) :
    walkEnded storedWord (formattedFsInfo L) v 1 0 = true := by
  have hwf := formattedFsInfo_wellFormed h
  have hmax := hwf.clusters_lt
  rw [sfatEntryMax] at hmax
  rw [walkEnded, if_neg (root_accepted h hclus), nextWord_storedWord hwf, hword, sfatEntryEoc,
    if_pos (by omega)]

/-- **The next mount succeeds**, and counts the entries. -/
theorem RootInv.mounts (h : formatLayout 512 S = some L) (hclus : 2 ≤ L.clusters)
    (inv : RootInv L v₀ v names) (ub : UndefinedShift) (options : MountOptions) :
    wp (lookupWorld storedWord) (sfatFillSuperImpl ub 512 options) (fun r v' => v' = v ∧
      ∃ sbi root, r = .ok (sbi, root) ∧ MountedRoot L options names.length sbi root) v := by
  have hpos : 1 ≤ L.clusters := by omega
  obtain ⟨pre, post, hsplit, hused, hnames, hhead⟩ := inv.slots
  have hended := root_ended h hclus (root_chain h hpos inv.below).1
  have hlive := live_terminated hused hhead
  have hout : countOutcome true (countNext 0 (pre ++ post)) = .ok names.length := by
    rw [countNext, hlive, Nat.zero_add, ← hnames, slotNames_length]
    split
    · rfl
    · rfl
  have hlen : names.length ≤ 64 := by
    have hslots := rootSlots_length (L := L) v
    rw [hsplit, List.length_append] at hslots
    rw [← hnames, slotNames_length]
    omega
  have hint : toInt32 names.length = (names.length : ℤ) := by
    rw [toInt32, Nat.mod_eq_of_lt (by omega), if_pos (by omega)]
  have hcount : wp (lookupWorld storedWord) (sfatCountSubdirs (formattedFsInfo L)
      (formattedFsInfo L).rootClusterCls (formattedFsInfo L).clusterSize)
      (fun r w' => w' = v ∧ r = .ok (names.length : ℤ)) v := by
    rw [wp_root_count h, hended, hsplit, hout, Except.map, hint]
    exact ⟨rfl, rfl⟩
  have hboot : ∀ a < 42, v a = formatVolume L v₀ a := by
    intro a ha
    apply inv.below
    show a < (11 + L.fatLengthSectors * 2) * 512
    omega
  refine wp_mono (mount_of_count not_noFailure h hboot ub options hcount) fun r v' hr => ?_
  obtain ⟨rfl, _, rfl, hr⟩ := hr
  rw [MountReturns, if_neg (by omega), Int.toNat_natCast] at hr
  exact ⟨rfl, hr⟩

/-- **The listing from the start** emits the names. -/
theorem RootInv.lists (h : formatLayout 512 S = some L) (hclus : 2 ≤ L.clusters)
    (inv : RootInv L v₀ v names) : ListsNames (formattedFsInfo L) v
      (formattedFsInfo L).rootClusterCls (formattedFsInfo L).clusterSize names := by
  have hpos : 1 ≤ L.clusters := by omega
  have hended := root_ended h hclus (root_chain h hpos inv.below).1
  obtain ⟨pre, post, hsplit, hused, hnames, hhead⟩ := inv.slots
  have hbefore : beforeEnd (pre ++ post) = pre := by
    cases post with
    | nil => rw [List.append_nil, beforeEnd_of_noEnd (noEnd_used hused)]
    | cons t rest => exact beforeEnd_split (noEnd_used hused) (isEnd_of_attr (hhead t rest rfl))
  have hnamed : wp (lookupWorld storedWord) (sfatReaddir (formattedFsInfo L)
      (formattedFsInfo L).rootClusterCls (formattedFsInfo L).clusterSize 0)
      (fun st _ => AllNamed (pre ++ post) st) v := by
    rw [← hsplit, ← inv.seen h hpos]
    exact wp_mono (sfatReaddir_named (formattedFsInfo_wellFormed h) 0 _ 0) fun _ _ h => h.2
  refine wp_mono (wp_and (root_readdir h hclus) hnamed) fun st v' hst => ?_
  obtain ⟨⟨-, hout⟩, hall⟩ := hst
  rw [hsplit] at hout
  obtain ⟨herr, hemits⟩ := hout.emits (.inr hended)
  rw [hbefore] at hemits
  refine ⟨herr, ?_⟩
  rw [← hnames]
  refine hemits.emittedNames (k := 0) rfl (fun t ht => (hused t ht).2) (fun i s hs => ?_) hall
  rw [Nat.zero_add, List.getElem?_append_left (List.getElem?_eq_some_iff.mp hs).1, hs]

/-- A mount that lists the names leaves the root directory of one cluster in memory. -/
theorem MountLists.lists (h : formatLayout 512 S = some L)
    (hboot : ∀ a < 42, v a = formatVolume L v₀ a) (hlists : MountLists v names) :
    ListsNames (formattedFsInfo L) v (formattedFsInfo L).rootClusterCls
      (formattedFsInfo L).clusterSize names := by
  have hcount : wp (lookupWorld storedWord) (sfatCountSubdirs (formattedFsInfo L)
      (formattedFsInfo L).rootClusterCls (formattedFsInfo L).clusterSize)
      (fun r w' => w' = v ∧ True) v := (wp_root_count h _).mpr ⟨rfl, trivial⟩
  have hmount := mount_of_count (H := Host.lookups noFailure storedWord) not_noFailure h hboot
    zeroShift ⟨0, 0, 0, 0⟩ hcount
  obtain ⟨r, v', ⟨sbi, root, rfl, hnames⟩, rfl, count, -, hret⟩ :=
    wp_lookups_nonempty (wp_and (hlists _ _) hmount)
  obtain ⟨c, hroot⟩ : ∃ c, MountedRoot L ⟨0, 0, 0, 0⟩ c sbi root := by
    cases count with
    | error e => cases hret
    | ok count =>
      rw [MountReturns] at hret
      split at hret
      · cases hret
      · obtain ⟨sbi', root', heq, hroot⟩ := hret
        obtain ⟨rfl, rfl⟩ := Prod.mk.inj (Except.ok.inj heq)
        exact ⟨_, hroot⟩
  rwa [hroot.sbi_eq, hroot.iStart, hroot.iSize] at hnames

/-- The root directory of a volume of one cluster cannot be listed: the seek refuses it. -/
theorem ListsNames.accepted (h : formatLayout 512 S = some L) (hpos : 1 ≤ L.clusters)
    (hlists : ListsNames (formattedFsInfo L) v (formattedFsInfo L).rootClusterCls
      (formattedFsInfo L).clusterSize names) : 2 ≤ L.clusters := by
  have hwf := formattedFsInfo_wellFormed h
  by_contra hone
  have hrefused : (formattedFsInfo L).clustersPred ≤ (formattedFsInfo L).rootClusterCls := by
    rw [hwf.clustersPred_eq (show 1 ≤ L.clusters from hpos)]
    show L.clusters - 1 ≤ 0
    omega
  have hsize : (formattedFsInfo L).clusterSize = 2048 := rfl
  rw [ListsNames, hsize, sfatReaddir] at hlists
  simp only [] at hlists
  rw [if_neg (by decide), if_neg (by decide), if_neg (by decide), wp_bind, wp_sfatSeek hwf,
    if_pos hrefused] at hlists
  cases ((wp_done _ _ _).mp hlists).1

/-- A listing has at most the entries of one cluster. -/
theorem ListsNames.length_le (h : formatLayout 512 S = some L) (hclus : 2 ≤ L.clusters)
    (hlists : ListsNames (formattedFsInfo L) v (formattedFsInfo L).rootClusterCls
      (formattedFsInfo L).clusterSize names) : names.length ≤ 64 := by
  obtain ⟨st, v', ⟨herr, rfl⟩, -, hout⟩ :=
    wp_lookups_nonempty (wp_and hlists (root_readdir h hclus))
  rw [List.length_map, ← rootSlots_length v]
  exact hout.dirent_length_le herr

end Mount

/-! ### The result -/

section Result

variable {S : ℕ} {L : FormatLayout} {v₀ : Vol} {mayFail : Request → Prop} {ub : UndefinedShift}
  {options : MountOptions} {sbi : SbInfo} {dir : Inode}

/-- **Files are still there after the next mount exactly if they fit in one cluster** and the seek
accepts that cluster, on every device that was formatted with a cluster for the root directory, for
every run in which the cluster number that was never set leads to the next block. -/
theorem remount_lists_iff (h : formatLayout 512 S = some L) (hpos : 1 ≤ L.clusters)
    (hrun : RootRun mayFail ub options L v₀ NextSet names sbi dir v) :
    MountLists v (names.map (List.take 11)) ↔ names.length ≤ 64 ∧ 2 ≤ L.clusters := by
  constructor
  · intro hlists
    have hnames := hlists.lists h (hrun.keepsBoot h hpos).2
    have hclus := hnames.accepted h hpos
    have hle := hnames.length_le h hclus
    rw [List.length_map] at hle
    exact ⟨hle, hclus⟩
  · intro hfits ub' options'
    have inv := hrun.rootInv h hpos hfits.1
    refine wp_mono (inv.mounts h hfits.2 ub' options') fun r v' hr => ?_
    obtain ⟨rfl, sbi', root, rfl, hroot⟩ := hr
    refine ⟨sbi', root, rfl, ?_⟩
    rw [hroot.sbi_eq, hroot.iStart, hroot.iSize]
    exact inv.lists h hfits.2

/-! ### A run over one cluster -/

/-- A name that is new is not found. -/
theorem RootInv.nameFree (h : formatLayout 512 S = some L) (hclus : 2 ≤ L.clusters)
    (inv : RootInv L v₀ v names) {n : List UInt8} (hnul : NoNul n) (hnew : n.take 11 ∉ names) :
    NameFree storedWord (formattedFsInfo L) v 0 (padName n) := by
  have hpos : 1 ≤ L.clusters := by omega
  have hwf := formattedFsInfo_wellFormed h
  have hmax := hwf.clusters_lt
  rw [sfatEntryMax] at hmax
  obtain ⟨slots, hfilled, hnames⟩ := inv.filled h hpos
  have hnone : findName storedWord (formattedFsInfo L) v 0 (padName n) = none := by
    rw [findName, ← visibleSlots, hfilled.visible, List.find?_eq_none]
    intro s hs hname
    rw [strncmpEq, beq_iff_eq, cString_padName hnul] at hname
    apply hnew
    rw [← hnames, hname]
    exact List.mem_map_of_mem hs
  have hrefused : walkRefused storedWord (formattedFsInfo L) v (formattedFsInfo L).clusters 0 =
      false := by
    obtain ⟨m, hm⟩ : ∃ m, (formattedFsInfo L).clusters = m + 1 := ⟨L.clusters - 1, by
      show L.clusters = L.clusters - 1 + 1
      omega⟩
    have hword := (root_chain h hpos inv.below).1
    rw [hm, walkRefused, if_neg (root_accepted h hclus), nextWord_storedWord hwf, hword,
      sfatEntryEoc, if_pos (by omega)]
  rw [NameFree, scanName_chainSlots, hnone, hrefused]
  simp only []
  split
  · rfl
  · rfl

/-- The variable that was never set leads to the next block when it is 0. -/
theorem RootInv.nextSet (h : formatLayout 512 S = some L) (hpos : 1 ≤ L.clusters)
    (inv : RootInv L v₀ v names) (hstart : dir.iStart = 0) (blk : ℕ) :
    NextSet (formattedFsInfo L) v dir ⟨blk, 0⟩ := by
  have hp := formattedFsInfo_placed h hpos
  intro s hs _ hblk
  rw [hstart, inv.seen h hpos] at hs
  have hcls := List.mem_singleton.mp (mem_dirSlots.mp (List.mem_of_find?_eq_some hs)).1
  have hlt := (hp.clsToBlk_lt (show 0 < 2 ^ 32 by decide)).1
  have hfour : (formattedFsInfo L).blkPerClus = 4 := rfl
  rw [hcls]
  show (clsToBlk (formattedFsInfo L) 0 + (s.blk + 1)) % sizeT * _ = slotAddr _ 0 (s.blk + 1) 0
  rw [slotAddr, sizeT, Nat.mod_eq_of_lt (by omega), Nat.mul_zero, Nat.add_zero (_ * _)]

/-- The second cluster of the volume is free. -/
theorem RootInv.free (h : formatLayout 512 S = some L) (hclus : 2 ≤ L.clusters)
    (inv : RootInv L v₀ v names) : 1 < fatWords (formattedFsInfo L) ∧
    fatWord (formattedFsInfo L) v 1 = sfatEntryFree := by
  obtain ⟨-, -, hroom, -⟩ := formatLayout_bounds h
  have hp := formattedFsInfo_placed h (show 1 ≤ L.clusters by omega)
  have hone : 1 < fatWords (formattedFsInfo L) := lt_fatWords hp hclus
  refine ⟨hone, ?_⟩
  rw [SameFat.of_below hp inv.below 1 hone, formatVolume_fatWord (by omega) v₀ (by omega),
    if_neg Nat.one_ne_zero]

/-- The terminator can be moved from the last slot of every block. -/
theorem RootInv.moves (h : formatLayout 512 S = some L) (hclus : 2 ≤ L.clusters)
    (inv : RootInv L v₀ v names) {s : Slot}
    (hs : firstUnused (chainSlots storedWord (formattedFsInfo L) v 0) = some s) (de : SfatDirEntry)
    (junk : CreateJunk) : (moveTerminator storedWord (formattedFsInfo L)
      (slotWritten (formattedFsInfo L) v s de) s junk).1 = none := by
  have hpos : 1 ≤ L.clusters := by omega
  have hp := formattedFsInfo_placed h hpos
  obtain ⟨heoc, hchain⟩ := root_chain h hpos inv.below
  have hplaced : SlotPlaced (formattedFsInfo L) s :=
    placed_of_mem (walk_lt hp hchain) (List.mem_of_find?_eq_some hs)
  rw [inv.seen h hpos] at hs
  have hcls := List.mem_singleton.mp (mem_dirSlots.mp (List.mem_of_find?_eq_some hs)).1
  have hfat : SameFat (formattedFsInfo L) v (slotWritten (formattedFsInfo L) v s de) :=
    SameFat.of_below hp fun a ha => slotWritten_below hp hplaced de ha
  have hword : nextWord storedWord (formattedFsInfo L) (slotWritten (formattedFsInfo L) v s de) 0 =
      sfatEntryEoc := by
    rw [nextWord_storedWord hp.toWellFormed, hfat 0 (lt_fatWords hp hpos), heoc]
  rw [moveTerminator]
  split
  · rfl
  · rw [hcls, hword, if_neg (root_accepted h hclus), if_pos rfl]

/-- A new cluster is linked to the first one. -/
theorem RootInv.target (h : formatLayout 512 S = some L) (hclus : 2 ≤ L.clusters)
    (inv : RootInv L v₀ v names) {c : ℕ} (hc : FirstFree (formattedFsInfo L) v c) :
    appendTarget storedWord (formattedFsInfo L) (setFatWord (formattedFsInfo L) v c sfatEntryEoc)
      (formattedFsInfo L).clusters 0 = some 0 := by
  have hpos : 1 ≤ L.clusters := by omega
  have hp := formattedFsInfo_placed h hpos
  obtain ⟨-, hchain⟩ := root_chain h hpos inv.below
  refine hchain.appendTarget hp (fun e he => ?_) (fun e he => ?_) hchain.length_le
  · rw [List.mem_singleton.mp he]
    exact hclus
  · exact fatWord_setFatWord_ne fun heq => hchain.used hp he (heq ▸ hc.2.1)

/-- **A file with a new name can be created** after a run that has filled one cluster at most. -/
theorem RootInv.succeeds (h : formatLayout 512 S = some L) (hclus : 2 ≤ L.clusters)
    (inv : RootInv L v₀ v names) (hmem : RootInode L sbi dir) {n : List UInt8} (hnul : NoNul n)
    (hnew : n.take 11 ∉ names) {junk : CreateJunk} {r : CreateReturn × Inode} {v' : Vol}
    (hend : CreateEnd storedWord sbi v dir (padName n) junk r v') : ∃ i, r.1 = .ok i := by
  have hpos : 1 ≤ L.clusters := by omega
  have hp := formattedFsInfo_placed h hpos
  obtain ⟨heoc, hchain⟩ := root_chain h hpos inv.below
  have hname := inv.nameFree h hclus hnul hnew
  rw [NameFree] at hname
  obtain ⟨r, dir'⟩ := r
  obtain ⟨t, p, v₁, hstep, hout⟩ := hend
  rw [hmem.fsInfo] at hstep
  cases hstep with
  | visible hscan =>
    rw [hmem.iStart] at hscan
    rw [hscan] at hname
    cases hname
  | refused hscan href =>
    rw [hmem.iStart] at hscan href
    rw [hscan, href] at hname
    cases hname
  | slot _ _ _ =>
    obtain ⟨-, inode, hi, -⟩ := hout
    exact ⟨_, hi⟩
  | slotMoved _ _ _ _ =>
    obtain ⟨-, inode, hi, -⟩ := hout
    exact ⟨_, hi⟩
  | slotStuck _ hs hlast hmove =>
    rw [hmem.iStart] at hs
    have hlinked := inv.moves h hclus hs (sfatFormDirEntry false (padName n) 0 0 t) junk
    rw [hmove] at hlinked
    cases hlinked
  | noCluster _ _ hnone => exact absurd (inv.free h hclus).2 (hnone 1 (inv.free h hclus).1)
  | unlinked _ _ hc hlink =>
    rw [hmem.iStart, inv.target h hclus hc] at hlink
    cases hlink
  | newCluster _ _ _ _ =>
    obtain ⟨-, inode, hi, -⟩ := hout
    exact ⟨_, hi⟩

/-- A run can go on with a new name. -/
theorem RootRun.extend (h : formatLayout 512 S = some L) (hclus : 2 ≤ L.clusters)
    (hrun : RootRun noFailure ub options L v₀ NextSet names sbi dir v) (hlen : names.length ≤ 64)
    {n : List UInt8} (hnul : NoNul n) (hnew : n.take 11 ∉ names.map (List.take 11)) :
    ∃ dir' v', RootRun noFailure ub options L v₀ NextSet (names ++ [n]) sbi dir' v' := by
  have hpos : 1 ≤ L.clusters := by omega
  have inv := hrun.rootInv h hpos hlen
  obtain ⟨hmem, -⟩ := hrun.keepsBoot h hpos
  have hwf : WellFormed sbi.fsInfo := by
    rw [hmem.fsInfo]
    exact formattedFsInfo_wellFormed h
  have hcreate := Exec.of_quiet (H := Host.lookups noFailure storedWord)
    (fun _ blk pos d => (rfl : storedWord blk pos d = storedWord blk pos d))
    (sfatCreateFile sbi dir n ⟨0, 0⟩) v
  rcases hres : run (Host.quiet fun _ blk pos d => storedWord blk pos d)
    (sfatCreateFile sbi dir n ⟨0, 0⟩) v with ⟨r, v'⟩
  rw [hres] at hcreate
  obtain ⟨r, dir'⟩ := r
  obtain ⟨i, hi⟩ := inv.succeeds h hclus hmem hnul hnew
    ((wp_iff_exec _ _ _).mp (create_spec hwf dir n ⟨0, 0⟩) _ _ _ hcreate)
  obtain rfl : r = .ok i := hi
  have hnext : NextSet sbi.fsInfo v dir ⟨0, 0⟩ := by
    rw [hmem.fsInfo]
    exact inv.nextSet h hpos hmem.iStart 0
  exact ⟨dir', v', .create hrun hnul hnext hcreate⟩

/-- A mount takes a second cluster of the root directory for a loop of the chain. -/
theorem mount_overrun (h : formatLayout 512 S = some L) (hclus : 2 ≤ L.clusters)
    (hboot : ∀ a < 42, v a = formatVolume L v₀ a)
    (hnoEnd : (dirSlots (formattedFsInfo L) v [0]).any Slot.isEnd = false)
    (hnext : fatWord (formattedFsInfo L) v 0 ≤ (formattedFsInfo L).clusters) (ub : UndefinedShift)
    (options : MountOptions) :
    wp (lookupWorld storedWord) (sfatFillSuperImpl ub 512 options)
      (fun r _ => r = .error .einval) v := by
  have hended : walkEnded storedWord (formattedFsInfo L) v 1 0 = false := by
    rw [walkEnded, if_neg (root_accepted h hclus),
      nextWord_storedWord (formattedFsInfo_wellFormed h), if_neg (by omega), walkEnded]
  have hcount : wp (lookupWorld storedWord) (sfatCountSubdirs (formattedFsInfo L)
      (formattedFsInfo L).rootClusterCls (formattedFsInfo L).clusterSize)
      (fun r w' => w' = v ∧ r = .error .einval) v := by
    rw [wp_root_count h, hended, countNext, hnoEnd]
    exact ⟨rfl, rfl⟩
  refine wp_mono (mount_of_count not_noFailure h hboot ub options hcount) fun r v' hr => ?_
  obtain ⟨-, _, rfl, hr⟩ := hr
  exact hr

/-- A call in a full root directory links a second cluster, and marks no end in the first one. -/
theorem RootInv.overruns (h : formatLayout 512 S = some L) (hclus : 2 ≤ L.clusters)
    (inv : RootInv L v₀ v names) (hlen : names.length = 64) (hstart : dir.iStart = 0)
    {name : Vector UInt8 11} {junk : CreateJunk} {t : ℕ} {dir' : Inode} {v₁ : Vol}
    {p : Except CreateReturn (SfatDirEntry × ℕ)} (hret : ∀ e, p ≠ .error (.error e))
    (hstep : CreateStep storedWord (formattedFsInfo L) v dir name junk t p dir' v₁) :
    (dirSlots (formattedFsInfo L) v₁ [0]).any Slot.isEnd = false ∧
      fatWord (formattedFsInfo L) v₁ 0 ≤ (formattedFsInfo L).clusters := by
  have hpos : 1 ≤ L.clusters := by omega
  have hp := formattedFsInfo_placed h hpos
  obtain ⟨heoc, hchain⟩ := root_chain h hpos inv.below
  obtain ⟨pre, post, hsplit, hused, hnames, -⟩ := inv.slots
  have hall : dirSlots (formattedFsInfo L) v [0] = pre := by
    have hslots := rootSlots_length (L := L) v
    rw [hsplit, List.length_append, ← slotNames_length pre, hnames] at hslots
    rw [hsplit, List.eq_nil_of_length_eq_zero (show post.length = 0 by omega), List.append_nil]
  have hfull : firstUnused (chainSlots storedWord (formattedFsInfo L) v 0) = none := by
    rw [inv.seen h hpos, hall]
    exact List.find?_eq_none.mpr fun t ht => by simp [hused t ht]
  cases hstep with
  | visible _ => exact absurd rfl (hret _)
  | refused _ _ => exact absurd rfl (hret _)
  | slot _ hs _ =>
    rw [hstart, hfull] at hs
    cases hs
  | slotMoved _ hs _ _ =>
    rw [hstart, hfull] at hs
    cases hs
  | slotStuck _ hs _ _ =>
    rw [hstart, hfull] at hs
    cases hs
  | noCluster _ _ _ => exact absurd rfl (hret _)
  | unlinked _ _ _ _ => exact absurd rfl (hret _)
  | @newCluster c d _ _ hc hlink =>
    rw [hstart, inv.target h hclus hc] at hlink
    obtain rfl := Option.some.inj hlink
    have hnot : c ∉ [0] := fun hmem => hchain.used hp hmem hc.2.1
    -- the new cluster is the second one of the volume
    have hle : c ≤ 1 := by
      by_contra hgt
      exact hc.2.2 1 (by omega) (inv.free h hclus).2
    rw [← grownVolume, dirSlots_grown hp (by simp) hc.1 hnot (lt_fatWords hp hpos),
      fatWord_grown hp hc.1 (lt_fatWords hp hpos), hall, if_pos rfl]
    exact ⟨noEnd_used hused, Nat.le_trans hle hpos⟩

/-- **After 65 files no mount succeeds.** -/
theorem RootRun.mount_fails (h : formatLayout 512 S = some L) (hclus : 2 ≤ L.clusters)
    (hrun : RootRun mayFail ub options L v₀ NextSet names sbi dir v) (hlen : names.length = 65)
    (ub' : UndefinedShift) (options' : MountOptions) :
    wp (lookupWorld storedWord) (sfatFillSuperImpl ub' 512 options')
      (fun r _ => r = .error .einval) v := by
  have hpos : 1 ≤ L.clusters := by omega
  obtain ⟨-, hboot⟩ := hrun.keepsBoot h hpos
  cases hrun with
  | mounted _ => cases hlen
  | @create names sbi dir₀ dir v₁ v n junk tr i hrun _ _ he =>
    rw [List.length_append, List.length_singleton] at hlen
    have inv := hrun.rootInv h hpos (by omega)
    obtain ⟨hmem, -⟩ := hrun.keepsBoot h hpos
    obtain ⟨-, t, p, hstep, hret⟩ := created_root h hmem he
    have hfull : (names.map (List.take 11)).length = 64 := by
      rw [List.length_map]
      omega
    obtain ⟨hnoEnd, hnext⟩ := inv.overruns h hclus hfull hmem.iStart hret hstep
    exact mount_overrun h hclus hboot hnoEnd hnext ub' options'

end Result

/-! ### 65 files -/

/-- The names of `k` files: `A`, `B`, and so on. -/
def fileNames (k : ℕ) : List (List UInt8) := (List.range k).map fun i => [UInt8.ofNat (65 + i)]

theorem fileNames_succ (k : ℕ) : fileNames (k + 1) = fileNames k ++ [[UInt8.ofNat (65 + k)]] := by
  rw [fileNames, List.range_succ, List.map_append]
  rfl

/-- A name is new. -/
theorem fileNames_new {k : ℕ} (hk : k ≤ 64) :
    [UInt8.ofNat (65 + k)].take 11 ∉ (fileNames k).map (List.take 11) := by
  intro hmem
  simp only [fileNames, List.map_map, List.mem_map, List.mem_range, Function.comp_apply] at hmem
  obtain ⟨i, hi, heq⟩ := hmem
  have hbyte : UInt8.ofNat (65 + i) = UInt8.ofNat (65 + k) := (List.cons.inj heq).1
  have hnat := congrArg UInt8.toNat hbyte
  rw [UInt8.toNat_ofNat', UInt8.toNat_ofNat'] at hnat
  omega

theorem fileNames_noNul {k : ℕ} (hk : k ≤ 64) : NoNul [UInt8.ofNat (65 + k)] := by
  intro b hb
  rw [List.mem_singleton.mp hb]
  intro h0
  have hnat := congrArg UInt8.toNat h0
  rw [UInt8.toNat_ofNat'] at hnat
  change (65 + k) % 2 ^ 8 = 0 at hnat
  omega

/-- The files can be created. -/
theorem exists_fileNames {S : ℕ} {L : FormatLayout} (h : formatLayout 512 S = some L)
    (hclus : 2 ≤ L.clusters) (v₀ : Vol) (ub : UndefinedShift) (options : MountOptions) {k : ℕ}
    (hk : k ≤ 65) :
    ∃ sbi dir v, RootRun noFailure ub options L v₀ NextSet (fileNames k) sbi dir v := by
  obtain ⟨-, -, hroom, -⟩ := formatLayout_bounds h
  induction k with
  | zero =>
    have hmount := mount_formatted (H := Host.lookups noFailure storedWord) not_noFailure h
      (by omega) ub options v₀
    have hrun := Exec.of_quiet (H := Host.lookups noFailure storedWord)
      (fun _ blk pos d => (rfl : storedWord blk pos d = storedWord blk pos d))
      (sfatFillSuperImpl ub 512 options) (formatVolume L v₀)
    obtain ⟨-, sbi, root, heq, -⟩ := (wp_iff_exec _ _ _).mp hmount _ _ _ hrun
    rw [heq] at hrun
    exact ⟨sbi, root, _, .mounted hrun⟩
  | succ k ih =>
    obtain ⟨sbi, dir, v, hrun⟩ := ih (by omega)
    have hlen : (fileNames k).length ≤ 64 := by
      rw [fileNames, List.length_map, List.length_range]
      omega
    obtain ⟨dir', v', hrun'⟩ := hrun.extend h hclus hlen (fileNames_noNul (by omega))
      (fileNames_new (by omega))
    rw [fileNames_succ]
    exact ⟨sbi, dir', v', hrun'⟩

/-- 17 files, of which one moves the terminator to the next block. -/
theorem remount_lists_iff_nextBlock : ∃ sbi dir v,
    RootRun noFailure zeroShift sbi31.options layout31 (fun _ => 0) NextSet (fileNames 17) sbi dir
      v ∧
    (MountLists v ((fileNames 17).map (List.take 11)) ↔
      (fileNames 17).length ≤ 64 ∧ 2 ≤ layout31.clusters) := by
  have h31 : formatLayout 512 31 = some layout31 := by decide
  obtain ⟨sbi, dir, v, hrun⟩ := exists_fileNames h31 (by decide) (fun _ => 0) zeroShift
    sbi31.options (show 17 ≤ 65 by decide)
  exact ⟨sbi, dir, v, hrun, remount_lists_iff h31 (by decide) hrun⟩

/-- **After 65 files the device cannot be mounted again**: a device of 31 sectors, with the cluster
number that was never set leading to the next block. -/
theorem remount_fails : ∃ sbi dir v,
    RootRun noFailure zeroShift sbi31.options layout31 (fun _ => 0) NextSet (fileNames 65) sbi dir
      v ∧
    (∀ ub options, wp (lookupWorld storedWord) (sfatFillSuperImpl ub 512 options)
      (fun r _ => r = .error .einval) v) ∧
    ¬ MountLists v ((fileNames 65).map (List.take 11)) := by
  have h31 : formatLayout 512 31 = some layout31 := by decide
  obtain ⟨sbi, dir, v, hrun⟩ := exists_fileNames h31 (by decide) (fun _ => 0) zeroShift
    sbi31.options (show 65 ≤ 65 by decide)
  have hmount := hrun.mount_fails h31 (by decide) (by decide)
  refine ⟨sbi, dir, v, hrun, hmount, fun hlists => ?_⟩
  obtain ⟨r, v', ⟨sbi', root, rfl, -⟩, heq⟩ :=
    wp_lookups_nonempty (wp_and (hlists zeroShift sbi31.options) (hmount zeroShift sbi31.options))
  cases heq

end SimpleFat

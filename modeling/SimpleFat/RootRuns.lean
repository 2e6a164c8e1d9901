import SimpleFat.CreateRun
import SimpleFat.FilledDirectory
import SimpleFat.FormatMount

/-!
# Files in the root directory

Files are created one after the other in the root directory of a device that was formatted and
mounted.

* `RootRun` — a run of such calls;
* `RootInv` — what a run leaves on the volume while its files fit in the first cluster;
* `CreateStep.rootInv`, `CreateStep.keepsBelow` — what one call preserves;
* `RootRun.rootInv`, `RootRun.keepsBoot` — so a run preserves it.
-/

namespace SimpleFat

open SimpleFat.Lib

/-- A run of `sfat_create_file` calls that return 0, in the root directory of a device that was
formatted and mounted: the names so far, the directory in memory and the volume. `P` holds before
each call. -/
inductive RootRun (mayFail : Request → Prop) (ub : UndefinedShift) (options : MountOptions)
    (L : FormatLayout) (v₀ : Vol) (P : FsInfo → Vol → Inode → CreateJunk → Prop) :
    List (List UInt8) → SbInfo → Inode → Vol → Prop
  | mounted {tr : List Request} {sbi : SbInfo} {root : Inode} {v : Vol} :
      Exec (lookupWorld storedWord) (sfatFillSuperImpl ub 512 options) (formatVolume L v₀) tr
        (.ok (sbi, root)) v →
      RootRun mayFail ub options L v₀ P [] sbi root v
  | create {names : List (List UInt8)} {sbi : SbInfo} {dir dir' : Inode} {v v' : Vol}
      {n : List UInt8} {junk : CreateJunk} {tr : List Request} {i : Option Inode} :
      RootRun mayFail ub options L v₀ P names sbi dir v → NoNul n → P sbi.fsInfo v dir junk →
      Exec (storedWorld mayFail) (sfatCreateFile sbi dir n junk) v tr (.ok i, dir') v' →
      RootRun mayFail ub options L v₀ P (names ++ [n]) sbi dir' v'

variable {fs : FsInfo} {v v' : Vol} {names : List (List UInt8)}

/-! ### The root directory in one cluster -/

/-- **The invariant of a run**: before the data area the volume is as it was formatted, and the root
directory has used slots with the names, followed by the terminator if there is room for one. -/
structure RootInv (L : FormatLayout) (v₀ v : Vol) (names : List (List UInt8)) : Prop where
  below : ∀ a < (formattedFsInfo L).dataStartBlk * (formattedFsInfo L).blockSize,
    v a = formatVolume L v₀ a
  slots : ∃ pre post, dirSlots (formattedFsInfo L) v [0] = pre ++ post ∧
    (∀ t ∈ pre, t.isEnd = false ∧ t.isEmpty = false) ∧ slotNames pre = names ∧
    ∀ t rest, post = t :: rest → t.de.attr = sfatAttrEmptyEnd

section Root

variable {S : ℕ} {L : FormatLayout} {v₀ : Vol}

/-- One cluster of the root directory. -/
theorem rootSlots_length (v : Vol) : (dirSlots (formattedFsInfo L) v [0]).length = 64 := by
  rw [dirSlots_length]
  rfl

/-- The root directory has one cluster as long as the area before the data area is as formatted. -/
theorem root_chain (h : formatLayout 512 S = some L) (hpos : 1 ≤ L.clusters)
    (hbelow : ∀ a < (formattedFsInfo L).dataStartBlk * (formattedFsInfo L).blockSize,
      v a = formatVolume L v₀ a) :
    fatWord (formattedFsInfo L) v 0 = sfatEntryEoc ∧
    DirChain storedWord (formattedFsInfo L) v 0 [0] := by
  obtain ⟨-, hfat, hroom, -⟩ := formatLayout_bounds h
  have hp := formattedFsInfo_placed h hpos
  have hwords : 0 < fatWords (formattedFsInfo L) := lt_fatWords hp hpos
  have heoc : fatWord (formattedFsInfo L) v 0 = sfatEntryEoc := by
    rw [SameFat.of_below hp hbelow 0 hwords, formatVolume_fatWord (by omega) v₀ (by omega),
      if_pos rfl]
  refine ⟨heoc, .stop ?_, ?_⟩
  · rw [nextWord_storedWord hp.toWellFormed]
    exact heoc
  · intro c hc
    rw [List.mem_singleton.mp hc]
    exact hpos

/-- The walk of a directory of one cluster. -/
theorem walkClusters_one (look : (blk pos : ℕ) → Page → ℕ) (fs : FsInfo) (v : Vol) (cls : ℕ) :
    walkClusters look fs v 1 cls = [cls] := by
  rw [walkClusters_succ]
  split
  · rfl
  · split
    · rfl
    · rfl

/-- The scanners see the slots of the first cluster. -/
theorem root_walk (h : formatLayout 512 S = some L) (hpos : 1 ≤ L.clusters)
    (hbelow : ∀ a < (formattedFsInfo L).dataStartBlk * (formattedFsInfo L).blockSize,
      v a = formatVolume L v₀ a) :
    walkClusters storedWord (formattedFsInfo L) v (formattedFsInfo L).clusters 0 = [0] := by
  have hchain := (root_chain h hpos hbelow).2
  have hpre := hchain.walk_prefix (formattedFsInfo_wellFormed h) (formattedFsInfo L).clusters
  obtain ⟨n, hn⟩ : ∃ n, (formattedFsInfo L).clusters = n + 1 := ⟨L.clusters - 1, by
    show L.clusters = L.clusters - 1 + 1
    omega⟩
  rw [hn, walkClusters_succ] at hpre ⊢
  rw [(List.cons_prefix_cons.mp hpre).2.eq_of_length_le (Nat.zero_le _)]

theorem RootInv.seen (h : formatLayout 512 S = some L) (hpos : 1 ≤ L.clusters)
    (inv : RootInv L v₀ v names) :
    chainSlots storedWord (formattedFsInfo L) v 0 = dirSlots (formattedFsInfo L) v [0] := by
  rw [chainSlots, root_walk h hpos inv.below]

/-- The root directory has no holes. -/
theorem RootInv.filled (h : formatLayout 512 S = some L) (hpos : 1 ≤ L.clusters)
    (inv : RootInv L v₀ v names) :
    ∃ slots, FilledDir (formattedFsInfo L) v 0 [0] slots ∧ slotNames slots = names := by
  obtain ⟨pre, post, hsplit, hused, hnames, hhead⟩ := inv.slots
  exact ⟨pre, ⟨(root_chain h hpos inv.below).2, root_walk h hpos inv.below, hused, post, hsplit,
    hhead⟩, hnames⟩

/-- The directory is full when it has 64 names. -/
theorem RootInv.full (h : formatLayout 512 S = some L) (hpos : 1 ≤ L.clusters)
    (inv : RootInv L v₀ v names)
    (hs : firstUnused (chainSlots storedWord (formattedFsInfo L) v 0) = none) :
    names.length = 64 := by
  obtain ⟨slots, hfilled, hnames⟩ := inv.filled h hpos
  rw [← hnames, slotNames_length, ← hfilled.full hs, rootSlots_length]

/-- The freshly formatted root directory. -/
theorem RootInv.formatted (h : formatLayout 512 S = some L) (hL : 0 < L.fatLengthSectors)
    (v₀ : Vol) : RootInv L v₀ (formatVolume L v₀) [] where
  below _ _ := rfl
  slots := by
    refine ⟨[], _, (List.nil_append _).symm, fun t ht => (by cases ht), rfl, fun t rest hpost => ?_⟩
    rw [dirSlots_cons, clusterSlots, show (formattedFsInfo L).blkPerClus = 3 + 1 from rfl,
      blockSlots_succ, show (formattedFsInfo L).direntPerBlk = 15 + 1 from rfl, pageSlots_succ,
      List.cons_append, List.cons_append] at hpost
    rw [← (List.cons.inj hpost).1]
    exact formatted_root_attr h hL v₀

/-- A root directory without holes in one cluster. -/
theorem FilledDir.rootInv {slots : List Slot} (hfilled : FilledDir (formattedFsInfo L) v 0 [0] slots)
    (hbelow : ∀ a < (formattedFsInfo L).dataStartBlk * (formattedFsInfo L).blockSize,
      v a = formatVolume L v₀ a) : RootInv L v₀ v (slotNames slots) where
  below := hbelow
  slots := by
    obtain ⟨post, hsplit, hhead⟩ := hfilled.split
    exact ⟨slots, post, hsplit, hfilled.used, rfl, hhead⟩

end Root

/-! ### One call -/

section Step

variable {S : ℕ} {L : FormatLayout} {v₀ v₁ : Vol} {dir dir' : Inode} {n : List UInt8}
  {junk : CreateJunk} {t : ℕ}

/-- The move of the terminator keeps the area before the data area. -/
theorem moveTerminator_below (hp : Placed fs) {s : Slot} (hs : SlotPlaced fs s)
    (hnext : s.blk + 1 < fs.blkPerClus →
      termAddr fs junk.nextCls (s.blk + 1) = slotAddr fs s.cls (s.blk + 1) 0) {a : ℕ}
    (ha : a < fs.dataStartBlk * fs.blockSize) :
    (moveTerminator storedWord fs v s junk).2 a = v a := by
  rw [moveTerminator]
  by_cases hblk : s.blk + 1 < fs.blkPerClus
  · rw [if_pos hblk]
    have hplaced : SlotPlaced fs ⟨s.cls, s.blk + 1, 0, s.de⟩ :=
      ⟨hs.cls_lt, hblk, Nat.zero_lt_of_lt hs.idx_lt⟩
    exact putTerminator_below hp hplaced (hnext hblk) ha
  · rw [if_neg hblk]
    split
    · rfl
    · split
      · rfl
      · split
        · rfl
        · refine terminatorWritten_below hp ?_ ha
          rw [nextWord_storedWord hp.toWellFormed]
          exact fatWord_lt fs v s.cls

/-- **One call keeps everything before the data area**, or before the FAT when it adds a cluster to the
directory. -/
theorem CreateStep.keepsBelow (hp : Placed fs) (hstart : dir.iStart < 2 ^ 32)
    (hnext : NextSet fs v dir junk) {name : Vector UInt8 11}
    {p : Except CreateReturn (SfatDirEntry × ℕ)}
    (hstep : CreateStep storedWord fs v dir name junk t p dir' v₁) {a : ℕ}
    (ha : a < fs.dataStartBlk * fs.blockSize)
    (hfull : firstUnused (chainSlots storedWord fs v dir.iStart) = none →
      a < fs.fatStartBlk * fs.blockSize) : v₁ a = v a := by
  have hfilled : ∀ {s : Slot}, firstUnused (chainSlots storedWord fs v dir.iStart) = some s →
      SlotPlaced fs s := by
    intro s hs
    obtain ⟨hcls, hblk, hidx, -⟩ :=
      mem_chainSlots hp.toWellFormed hstart (List.mem_of_find?_eq_some hs)
    exact ⟨hcls, hblk, hidx⟩
  have hmoved : ∀ {s : Slot} {de : SfatDirEntry} {r : Option CreateReturn} {v₂ : Vol},
      firstUnused (chainSlots storedWord fs v dir.iStart) = some s → s.EndsBlock fs →
      moveTerminator storedWord fs (slotWritten fs v s de) s junk = (r, v₂) → v₂ a = v a := by
    intro s de r v₂ hs hlast hmove
    have hkeep : (moveTerminator storedWord fs (slotWritten fs v s de) s junk).2 a = _ :=
      moveTerminator_below hp (hfilled hs) (hnext s hs hlast) ha
    rw [hmove] at hkeep
    exact hkeep.trans (slotWritten_below hp (hfilled hs) de ha)
  have hword : a < fs.fatStartBlk * fs.blockSize →
      ∀ (w : Vol) (c x : ℕ), setFatWord fs w c x a = w a := fun ha _ _ x => setFatWord_before ha x
  cases hstep with
  | visible _ => rfl
  | refused _ _ => rfl
  | slot _ hs _ => exact slotWritten_below hp (hfilled hs) _ ha
  | slotMoved _ hs hlast hmove => exact hmoved hs hlast hmove
  | slotStuck _ hs hlast hmove => exact hmoved hs hlast hmove
  | noCluster _ _ _ => rfl
  | unlinked _ hnone _ _ => exact hword (hfull hnone) _ _ _
  | newCluster _ hnone hc _ =>
    rw [clusterStarted_below hp (lt_of_fatWords hp hc.1) ha, hword (hfull hnone),
      hword (hfull hnone)]

/-- **One call keeps the invariant**, as long as the first cluster is not full. -/
theorem CreateStep.rootInv (h : formatLayout 512 S = some L) (hpos : 1 ≤ L.clusters)
    (inv : RootInv L v₀ v names) (hstart : dir.iStart = 0) (hroom : names.length < 64)
    (hnext : NextSet (formattedFsInfo L) v dir junk) (hnul : NoNul n)
    {p : Except CreateReturn (SfatDirEntry × ℕ)} (hp : ∀ e, p ≠ .error (.error e))
    (hstep : CreateStep storedWord (formattedFsInfo L) v dir (padName n) junk t p dir' v₁) :
    RootInv L v₀ v₁ (names ++ [n.take 11]) := by
  have hplaced := formattedFsInfo_placed h hpos
  obtain ⟨slots, hfilled, rfl⟩ := inv.filled h hpos
  rw [← hstart] at hfilled
  have hnone : firstUnused (chainSlots storedWord (formattedFsInfo L) v dir.iStart) ≠ none := by
    intro hnone
    rw [hstart] at hnone
    have hlen := inv.full h hpos hnone
    omega
  rcases hstep.filled hplaced hfilled hnext (fun hfull => absurd hfull hnone) hnul with
    ⟨-, e, he, -⟩ | ⟨s, cs', hfilled', hs, -, -, rfl | ⟨hfull, -⟩⟩
  · exact absurd he (hp e)
  · rw [hstart] at hfilled'
    have hinv : RootInv L v₀ v₁ _ := hfilled'.rootInv fun a ha => by
      rw [hstep.keepsBelow hplaced (by rw [hstart]; decide) hnext ha fun hfull =>
        absurd hfull hnone, inv.below a ha]
    rw [slotNames, List.map_append, List.map_singleton, hs.name] at hinv
    exact hinv
  · exact absurd hfull hnone

end Step

/-! ### Runs -/

section Runs

variable {S : ℕ} {L : FormatLayout} {v₀ : Vol} {mayFail : Request → Prop} {ub : UndefinedShift}
  {options : MountOptions} {P P' : FsInfo → Vol → Inode → CreateJunk → Prop} {sbi : SbInfo}
  {dir : Inode}

structure RootInode (L : FormatLayout) (sbi : SbInfo) (dir : Inode) : Prop where
  fsInfo : sbi.fsInfo = formattedFsInfo L
  iIno : dir.iIno = sfatRootIno
  iStart : dir.iStart = 0

/-- What the first mount of a run leaves. -/
theorem mounted_root (h : formatLayout 512 S = some L) (hL : 0 < L.fatLengthSectors)
    {tr : List Request} (he : Exec (lookupWorld storedWord) (sfatFillSuperImpl ub 512 options)
      (formatVolume L v₀) tr (.ok (sbi, dir)) v) : RootInode L sbi dir ∧ v = formatVolume L v₀ := by
  obtain ⟨rfl, sbi', root, heq, hroot⟩ := (wp_iff_exec _ _ _).mp
    (mount_formatted (H := Host.lookups noFailure storedWord) not_noFailure h hL ub options v₀)
    _ _ _ he
  obtain ⟨rfl, rfl⟩ := Prod.mk.inj (Except.ok.inj heq)
  exact ⟨⟨by rw [hroot.sbi_eq], hroot.iIno, hroot.iStart⟩, rfl⟩

/-- What a call that returns 0 has done. -/
theorem created_root (h : formatLayout 512 S = some L) (hmem : RootInode L sbi dir) {dir' : Inode}
    {n : List UInt8} {junk : CreateJunk} {tr : List Request} {i : Option Inode}
    (he : Exec (storedWorld mayFail) (sfatCreateFile sbi dir n junk) v tr (.ok i, dir') v') :
    RootInode L sbi dir' ∧ ∃ t p,
      CreateStep storedWord (formattedFsInfo L) v dir (padName n) junk t p dir' v' ∧
      ∀ e, p ≠ .error (.error e) := by
  have hwf : WellFormed sbi.fsInfo := by
    rw [hmem.fsInfo]
    exact formattedFsInfo_wellFormed h
  obtain ⟨t, p, v₁, hstep, hout⟩ := (wp_iff_exec _ _ _).mp (create_ok hwf dir n v) _ _ _ he i rfl
  have hino := hstep.iIno_eq.trans hmem.iIno
  rw [hmem.fsInfo] at hstep
  refine ⟨⟨hmem.fsInfo, hino, hstep.iStart_eq.trans hmem.iStart⟩, t, p, ?_⟩
  cases p with
  | error early =>
    obtain ⟨hi, rfl⟩ := hout
    refine ⟨hstep, fun e he => ?_⟩
    rw [← hi] at he
    cases he
  | ok q =>
    obtain ⟨rfl, -⟩ := hout
    rw [flushed_root hino]
    exact ⟨hstep, fun e he => by cases he⟩

/-- A run keeps the bytes of the boot sector. -/
theorem RootRun.keepsBoot (h : formatLayout 512 S = some L) (hpos : 1 ≤ L.clusters)
    (hrun : RootRun mayFail ub options L v₀ NextSet names sbi dir v) :
    RootInode L sbi dir ∧ ∀ a < 42, v a = formatVolume L v₀ a := by
  obtain ⟨-, -, hroom, -⟩ := formatLayout_bounds h
  have hp := formattedFsInfo_placed h hpos
  induction hrun with
  | mounted he =>
    obtain ⟨hmem, rfl⟩ := mounted_root h (by omega) he
    exact ⟨hmem, fun _ _ => rfl⟩
  | create _ hnul hnext he ih =>
    obtain ⟨hmem, hboot⟩ := ih
    obtain ⟨hmem', t, p, hstep, -⟩ := created_root h hmem he
    refine ⟨hmem', fun a ha => ?_⟩
    rw [hmem.fsInfo] at hnext
    rw [← hboot a ha]
    have hfat : a < (formattedFsInfo L).fatStartBlk * (formattedFsInfo L).blockSize := by
      show a < 11 * 512
      omega
    have hdata : a < (formattedFsInfo L).dataStartBlk * (formattedFsInfo L).blockSize := by
      show a < (11 + L.fatLengthSectors * 2) * 512
      omega
    exact hstep.keepsBelow hp (by rw [hmem.iStart]; decide) hnext hdata fun _ => hfat

/-- **A run keeps the invariant** as long as its files fit in the first cluster. -/
theorem RootRun.rootInv (h : formatLayout 512 S = some L) (hpos : 1 ≤ L.clusters)
    (hrun : RootRun mayFail ub options L v₀ NextSet names sbi dir v) (hlen : names.length ≤ 64) :
    RootInv L v₀ v (names.map (List.take 11)) := by
  obtain ⟨-, -, hroom, -⟩ := formatLayout_bounds h
  have hL : 0 < L.fatLengthSectors := by omega
  induction hrun with
  | mounted he =>
    obtain ⟨-, rfl⟩ := mounted_root h hL he
    exact RootInv.formatted h hL v₀
  | @create names sbi dir dir' v v' n junk tr i hrun hnul hnext he ih =>
    rw [List.length_append, List.length_singleton] at hlen
    have inv := ih (by omega)
    obtain ⟨hmem, -⟩ := hrun.keepsBoot h hpos
    obtain ⟨-, t, p, hstep, hret⟩ := created_root h hmem he
    rw [hmem.fsInfo] at hnext
    rw [List.map_append]
    refine hstep.rootInv h hpos inv hmem.iStart ?_ hnext hnul hret
    rw [List.length_map]
    omega

end Runs

end SimpleFat

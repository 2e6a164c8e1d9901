import SimpleFat.FatWords
import SimpleFat.MountGeometry

/-!
# The regions of a mounted volume

The mount computes the start of each area from the lengths of the areas before it: boot sector,
reserved area, FAT copies, data clusters.  So the regions follow one another, whatever the boot
sector says.  That there is a FAT copy, that it has a word for every cluster, that the root cluster
is one of them and that the data area ends on the device is compared nowhere.

* `Areas` — the places of a boot sector with consistent sizes;
* `Areas.ordered` — the regions follow one another, so that no two share a byte;
* `Areas.regionsFit_iff` — the regions fit the device exactly if the fields of the boot sector say so;
* `mount_regions` — both, for every mount that succeeds.
-/

namespace SimpleFat

open SimpleFat.Lib

/-! ### Regions -/

inductive Region where
  | boot
  | reserved
  | fat (copy : ℕ)
  | cluster (cls : ℕ)

def Region.Of (fs : FsInfo) : Region → Prop
  | .boot => True
  | .reserved => True
  | .fat copy => copy < fs.fats
  | .cluster cls => cls < fs.clusters

def Region.start (fs : FsInfo) : Region → ℕ
  | .boot => 0
  | .reserved => fs.sectorSize
  | .fat copy => (fs.fatStartBlk + copy * fs.fatLengthBlk) * fs.blockSize
  | .cluster cls => clsToBlk fs cls * fs.blockSize

def Region.stop (fs : FsInfo) : Region → ℕ
  | .boot => fs.sectorSize
  | .reserved => fs.fatStartBlk * fs.blockSize
  | .fat copy => (fs.fatStartBlk + copy * fs.fatLengthBlk + fs.fatLengthBlk) * fs.blockSize
  | .cluster cls => clsToBlk fs cls * fs.blockSize + fs.clusterSize

def Region.bytes (fs : FsInfo) (r : Region) : Set ℕ := Set.Ico (r.start fs) (r.stop fs)

/-- The place of a region among the others: boot sector, reserved area, FAT copies, clusters. -/
def Region.rank : Region → ℕ × ℕ
  | .boot => (0, 0)
  | .reserved => (1, 0)
  | .fat copy => (2, copy)
  | .cluster cls => (3, cls)

def Region.Before (r s : Region) : Prop :=
  r.rank.1 < s.rank.1 ∨ r.rank.1 = s.rank.1 ∧ r.rank.2 < s.rank.2

/-- The regions of a geometry follow one another. -/
def RegionsOrdered (fs : FsInfo) : Prop :=
  ∀ r s : Region, r.Of fs → s.Of fs → r.Before s → r.stop fs ≤ s.start fs

def RegionsDisjoint (fs : FsInfo) : Prop :=
  ∀ r s : Region, r.Of fs → s.Of fs → r ≠ s → Disjoint (r.bytes fs) (s.bytes fs)

/-- **The regions fit** a device of `size` bytes: there is a FAT copy, it has a word for every
cluster, the root is a cluster, no two regions share a byte, all end on the device, and every FAT
block addressed for an accepted cluster is a block of the first copy. -/
structure RegionsFit (fs : FsInfo) (size : ℕ) : Prop where
  fats_pos : 1 ≤ fs.fats
  fat_room : fs.clusters ≤ fatWords fs
  root_lt : fs.rootClusterCls < fs.clusters
  disjoint : RegionsDisjoint fs
  inside : ∀ r : Region, r.Of fs → r.stop fs ≤ size
  fat_blocks : ∀ cls < fs.clustersPred,
    fs.fatStartBlk ≤ fatBlk fs cls ∧ fatBlk fs cls < fs.fatStartBlk + fs.fatLengthBlk

structure FieldsFit (bs : BootSector) (size : ℕ) : Prop where
  fats_pos : 1 ≤ bs.fats
  fat_room : bs.clusters * 4 ≤ bs.fatLength * bs.sectorSize
  root_lt : bs.rootStart < bs.clusters
  ends : (1 + bs.reserved + bs.fatLength * bs.fats + bs.clusters * bs.secPerClus) * bs.sectorSize ≤
    size

/-! ### Places -/

/-- **The places of a boot sector**: the fields of the mount in bytes, in exact arithmetic. -/
structure Areas (fs : FsInfo) (bs : BootSector) : Prop where
  wordBlocks : WordBlocks fs
  sectorSize : fs.sectorSize = bs.sectorSize
  blocks : ∃ n, 0 < n ∧ fs.sectorSize = n * fs.blockSize
  fats : fs.fats = bs.fats
  clusters : fs.clusters = bs.clusters
  clusters_lt : bs.clusters < 2 ^ 32
  root : fs.rootClusterCls = bs.rootStart
  fatStart : fs.fatStartBlk * fs.blockSize = (1 + bs.reserved) * bs.sectorSize
  fatLength : fs.fatLengthBlk * fs.blockSize = bs.fatLength * bs.sectorSize
  clusterSize : fs.clusterSize = bs.secPerClus * bs.sectorSize
  cluster : ∀ c < 2 ^ 32, clsToBlk fs c * fs.blockSize =
    (1 + bs.reserved + bs.fatLength * bs.fats) * bs.sectorSize + c * fs.clusterSize

/-- Consistent sizes give the places in exact arithmetic. -/
theorem FitGeometry.areas (ub : UndefinedShift) {k : ℕ} (hk : 9 ≤ k) {b : Page}
    (hchk : bootSectorChecks (bootSectorAt b) = true) (h : FitGeometry (2 ^ k) (bootSectorAt b)) :
    Areas (fillFsInfo ub (2 ^ k) (bootSectorAt b)) (bootSectorAt b) := by
  obtain ⟨s, hs, hs9, hs12⟩ := bootSectorChecks_sectorSize hchk
  obtain ⟨hp, hcut, hle⟩ := h
  obtain ⟨m, hm⟩ := (isPowerOf2_iff _).mp hp
  have hks : k ≤ s := by
    rw [hs] at hle
    exact (Nat.pow_le_pow_iff_right Nat.one_lt_two).mp hle
  have hms : m + s < 16 := by
    rw [hm, hs, ← Nat.pow_add] at hcut
    exact lt_of_two_pow_lt hcut
  obtain ⟨hres, hfat, hfats⟩ := bootSectorAt_bounds b
  obtain ⟨hbb, hcb, hcs, hps, hpsb, hpc⟩ := fillFsInfo_bits ub (bootSectorAt b) hks hs hm hms
  have hdatalt := fillFsInfo_dataStartBlk_le ub (bootSectorAt b) hks hs12 hpsb hres hfat hfats
  have hblock : (fillFsInfo ub (2 ^ k) (bootSectorAt b)).blockSize = 2 ^ k := by rw [fillFsInfo]
  have hprod : (bootSectorAt b).fatLength * (bootSectorAt b).fats ≤ 2 ^ 32 * 2 ^ 8 :=
    Nat.mul_le_mul (Nat.le_of_lt hfat) (Nat.le_of_lt hfats)
  have hpow : 2 ^ (s - k) ≤ 2 ^ 12 := Nat.pow_le_pow_right (by omega) (by omega)
  -- a number of sectors becomes a number of blocks, and that the same number of bytes
  have hsec : ∀ x ≤ 2 ^ 41, ub.shiftLong x (s - k) * 2 ^ k = x * 2 ^ s := by
    intro x hx
    have hle : x * 2 ^ (s - k) ≤ 2 ^ 41 * 2 ^ 12 := Nat.mul_le_mul hx hpow
    rw [shiftLong_eq ub (by omega) (by rw [sizeT]; omega), Nat.mul_assoc, ← Nat.pow_add,
      Nat.sub_add_cancel hks]
  have hfs : (fillFsInfo ub (2 ^ k) (bootSectorAt b)).fatStartBlk =
      ub.shiftLong (1 + (bootSectorAt b).reserved) (s - k) := by rw [← hpsb, fillFsInfo]
  have hfl : (fillFsInfo ub (2 ^ k) (bootSectorAt b)).fatLengthBlk =
      ub.shiftLong (bootSectorAt b).fatLength (s - k) := by rw [← hpsb, fillFsInfo]
  have hds := fillFsInfo_dataStartBlk ub (bootSectorAt b) (2 ^ k)
  rw [hpsb] at hds
  have hclus : (bootSectorAt b).clusters < 2 ^ 32 := le32_lt b 26
  exact {
    wordBlocks := ⟨by rw [hblock, hbb], by omega⟩
    sectorSize := by rw [fillFsInfo]
    blocks := ⟨2 ^ (s - k), Nat.two_pow_pos _, by
      rw [hblock, ← Nat.pow_add, Nat.sub_add_cancel hks, fillFsInfo, hs]⟩
    fats := by rw [fillFsInfo]
    clusters := by rw [fillFsInfo]
    clusters_lt := hclus
    root := by rw [fillFsInfo]
    fatStart := by rw [hfs, hblock, hs, hsec _ (by omega)]
    fatLength := by rw [hfl, hblock, hs, hsec _ (by omega)]
    clusterSize := by rw [hcs, hm, hs, Nat.pow_add]
    cluster := fun c hc => by
      rw [clsToBlk_mul (by rw [hblock, hbb]) (by rw [hbb, hcb]; omega) (by rw [hbb, hcb]; omega)
        hdatalt hc, hcb, hcs, hds, hblock, hs, hsec _ (by omega)] }

section Places

variable {fs : FsInfo} {bs : BootSector}

theorem Areas.fat_start (h : Areas fs bs) (i : ℕ) : Region.start fs (.fat i) =
    (1 + bs.reserved) * bs.sectorSize + i * (bs.fatLength * bs.sectorSize) := by
  rw [Region.start, Nat.add_mul, Nat.mul_assoc, h.fatStart, h.fatLength]

theorem Areas.fat_stop (h : Areas fs bs) (i : ℕ) : Region.stop fs (.fat i) =
    (1 + bs.reserved) * bs.sectorSize + (i + 1) * (bs.fatLength * bs.sectorSize) := by
  rw [Region.stop, Nat.add_assoc, ← Nat.succ_mul, Nat.add_mul, Nat.mul_assoc, h.fatStart, h.fatLength]

/-- The first byte of the data area. -/
theorem data_start_eq (bs : BootSector) :
    (1 + bs.reserved + bs.fatLength * bs.fats) * bs.sectorSize =
      (1 + bs.reserved) * bs.sectorSize + bs.fats * (bs.fatLength * bs.sectorSize) := by ring

theorem Areas.cluster_start (h : Areas fs bs) {c : ℕ} (hc : c < bs.clusters) :
    Region.start fs (.cluster c) =
      (1 + bs.reserved + bs.fatLength * bs.fats) * bs.sectorSize + c * fs.clusterSize :=
  h.cluster c (Nat.lt_trans hc h.clusters_lt)

theorem Areas.cluster_stop (h : Areas fs bs) {c : ℕ} (hc : c < bs.clusters) :
    Region.stop fs (.cluster c) =
      (1 + bs.reserved + bs.fatLength * bs.fats) * bs.sectorSize + (c + 1) * fs.clusterSize := by
  rw [Region.stop, h.cluster c (Nat.lt_trans hc h.clusters_lt), Nat.add_mul c, Nat.one_mul,
    Nat.add_assoc]

/-- A FAT copy lies between the reserved area and the data area. -/
theorem Areas.fat_between (h : Areas fs bs) {i : ℕ} (hi : Region.Of fs (.fat i)) :
    (1 + bs.reserved) * bs.sectorSize ≤ Region.start fs (.fat i) ∧
    Region.stop fs (.fat i) ≤ (1 + bs.reserved + bs.fatLength * bs.fats) * bs.sectorSize := by
  have hi : i < bs.fats := by
    rw [← h.fats]
    exact hi
  rw [h.fat_start, h.fat_stop, data_start_eq]
  exact ⟨Nat.le_add_right _ _, Nat.add_le_add_left (Nat.mul_le_mul_right _ hi) _⟩

theorem Areas.data_le_cluster (h : Areas fs bs) {c : ℕ} (hc : Region.Of fs (.cluster c)) :
    (1 + bs.reserved + bs.fatLength * bs.fats) * bs.sectorSize ≤ Region.start fs (.cluster c) := by
  have hc : c < bs.clusters := by
    rw [← h.clusters]
    exact hc
  rw [h.cluster_start hc]
  exact Nat.le_add_right _ _

/-- **The regions follow one another**, whatever the fields of the boot sector say. -/
theorem Areas.ordered (h : Areas fs bs) : RegionsOrdered fs := by
  intro r s hr hs hrs
  have hboot : Region.stop fs .boot = bs.sectorSize := h.sectorSize
  have hres : Region.start fs .reserved = bs.sectorSize := h.sectorSize
  have hresEnd : Region.stop fs .reserved = (1 + bs.reserved) * bs.sectorSize := h.fatStart
  have hresLe : bs.sectorSize ≤ (1 + bs.reserved) * bs.sectorSize :=
    Nat.le_mul_of_pos_left _ (by omega)
  have hdataLe : (1 + bs.reserved) * bs.sectorSize ≤
      (1 + bs.reserved + bs.fatLength * bs.fats) * bs.sectorSize :=
    Nat.mul_le_mul_right _ (Nat.le_add_right _ _)
  simp only [Region.Before] at hrs
  cases r with
  | boot =>
    cases s with
    | boot => simp [Region.rank] at hrs
    | reserved => omega
    | fat j =>
      have := (h.fat_between hs).1
      omega
    | cluster d =>
      have := h.data_le_cluster hs
      omega
  | reserved =>
    cases s with
    | boot => simp [Region.rank] at hrs
    | reserved => simp [Region.rank] at hrs
    | fat j =>
      have := (h.fat_between hs).1
      omega
    | cluster d =>
      have := h.data_le_cluster hs
      omega
  | fat i =>
    have hi := h.fat_between hr
    cases s with
    | boot => simp [Region.rank] at hrs
    | reserved => simp [Region.rank] at hrs
    | fat j =>
      have hij : i < j := by simpa [Region.rank] using hrs
      rw [h.fat_start, h.fat_stop]
      exact Nat.add_le_add_left (Nat.mul_le_mul_right _ hij) _
    | cluster d =>
      have := h.data_le_cluster hs
      omega
  | cluster c =>
    cases s with
    | boot => simp [Region.rank] at hrs
    | reserved => simp [Region.rank] at hrs
    | fat j => simp [Region.rank] at hrs
    | cluster d =>
      have hcd : c < d := by simpa [Region.rank] using hrs
      have hr : c < bs.clusters := by rwa [← h.clusters]
      have hs : d < bs.clusters := by rwa [← h.clusters]
      rw [h.cluster_start hs, h.cluster_stop hr]
      exact Nat.add_le_add_left (Nat.mul_le_mul_right _ hcd) _

/-- Of two regions one is before the other. -/
theorem Region.before_or {r s : Region} (hne : r ≠ s) : r.Before s ∨ s.Before r := by
  cases r <;> cases s <;> simp [Region.Before, Region.rank] at hne ⊢
  · omega
  · omega

/-- **No two regions share a byte.** -/
theorem RegionsOrdered.disjoint (h : RegionsOrdered fs) : RegionsDisjoint fs := by
  intro r s hr hs hne
  rw [Set.disjoint_left]
  intro a har has
  obtain ⟨har1, har2⟩ := har
  obtain ⟨has1, has2⟩ := has
  rcases Region.before_or hne with hrs | hsr
  · have hle := h r s hr hs hrs
    omega
  · have hle := h s r hs hr hsr
    omega

theorem Areas.fatWords_eq (h : Areas fs bs) : fatWords fs * 4 = bs.fatLength * bs.sectorSize := by
  obtain ⟨w, -, hbs⟩ := h.wordBlocks.blockSize_words
  have hdiv : fs.blockSize / 4 = 2 ^ w := by omega
  rw [← h.fatLength, fatWords, hdiv, hbs, Nat.mul_assoc, Nat.mul_comm (2 ^ w)]

/-- Every FAT block addressed for an accepted cluster is a block of the first copy, if the copy has
a word for every cluster. -/
theorem Areas.fat_blocks (h : Areas fs bs) (hpos : 1 ≤ fs.clusters) (hroom : fs.clusters ≤ fatWords fs) :
    ∀ cls < fs.clustersPred,
      fs.fatStartBlk ≤ fatBlk fs cls ∧ fatBlk fs cls < fs.fatStartBlk + fs.fatLengthBlk := by
  intro cls hcls
  obtain ⟨w, -, hbs⟩ := h.wordBlocks.blockSize_words
  have hdiv : fs.blockSize / 4 = 2 ^ w := by omega
  have hlt := h.clusters_lt
  rw [← h.clusters] at hlt
  rw [FsInfo.clustersPred_def, sizeT] at hcls
  rw [fatWords, hdiv] at hroom
  rw [h.wordBlocks.fatBlk_eq, hdiv]
  have hblk : cls / 2 ^ w < fs.fatLengthBlk := by
    rw [Nat.div_lt_iff_lt_mul (Nat.two_pow_pos w)]
    omega
  rw [Nat.add_comm]
  exact ⟨Nat.le_add_right _ _, Nat.add_lt_add_left hblk _⟩

/-- **When the regions fit**: exactly if the fields of the boot sector say so. -/
theorem Areas.regionsFit_iff (h : Areas fs bs) {size : ℕ} : RegionsFit fs size ↔ FieldsFit bs size := by
  have hwords := h.fatWords_eq
  have hclus := h.clusters
  have hmulroom : fs.clusters ≤ fatWords fs ↔ bs.clusters * 4 ≤ bs.fatLength * bs.sectorSize := by
    rw [hclus]
    omega
  have hends : (1 + bs.reserved + bs.fatLength * bs.fats + bs.clusters * bs.secPerClus) * bs.sectorSize =
      (1 + bs.reserved + bs.fatLength * bs.fats) * bs.sectorSize + bs.clusters * fs.clusterSize := by
    rw [h.clusterSize]
    ring
  constructor
  · intro hfit
    have hroot : bs.rootStart < bs.clusters := by
      rw [← h.root, ← hclus]
      exact hfit.root_lt
    have hlast : bs.clusters - 1 < bs.clusters := by omega
    have hin := hfit.inside (.cluster (bs.clusters - 1)) (by
      rw [Region.Of, hclus]
      exact hlast)
    rw [h.cluster_stop hlast, Nat.sub_add_cancel (by omega), ← hends] at hin
    exact ⟨h.fats ▸ hfit.fats_pos, hmulroom.mp hfit.fat_room, hroot, hin⟩
  · intro hfit
    have hroom := hmulroom.mpr hfit.fat_room
    have hpos : 1 ≤ fs.clusters := by
      rw [hclus]
      exact Nat.lt_of_le_of_lt (Nat.zero_le _) hfit.root_lt
    have hend := hfit.ends
    rw [hends] at hend
    have hresLe : bs.sectorSize ≤ (1 + bs.reserved) * bs.sectorSize :=
      Nat.le_mul_of_pos_left _ (by omega)
    have hdataLe : (1 + bs.reserved) * bs.sectorSize ≤
        (1 + bs.reserved + bs.fatLength * bs.fats) * bs.sectorSize :=
      Nat.mul_le_mul_right _ (Nat.le_add_right _ _)
    refine ⟨h.fats.symm ▸ hfit.fats_pos, hroom, ?_, h.ordered.disjoint, ?_, h.fat_blocks hpos hroom⟩
    · rw [h.root, hclus]
      exact hfit.root_lt
    · intro r hr
      cases r with
      | boot =>
        have hboot : Region.stop fs .boot = bs.sectorSize := h.sectorSize
        omega
      | reserved =>
        have hresEnd : Region.stop fs .reserved = (1 + bs.reserved) * bs.sectorSize := h.fatStart
        omega
      | fat i =>
        have := (h.fat_between hr).2
        omega
      | cluster c =>
        have hc : c < bs.clusters := by rwa [← hclus]
        have hmul := Nat.mul_le_mul_right fs.clusterSize (show c + 1 ≤ bs.clusters from hc)
        rw [h.cluster_stop hc]
        omega

end Places

/-- **The regions of a mounted volume.**  For every boot sector with consistent sizes that the mount
accepts: the regions follow one another, no two share a byte, and they fit a device of `size` bytes
exactly if the fields of the boot sector say so. -/
theorem mount_regions (ub : UndefinedShift) (k : ℕ) (hk : 9 ≤ k) (H : Host) (options : MountOptions)
    (v : Vol) (hfit : FitGeometry (2 ^ k) (bootSectorAt (blockAt v (2 ^ k) 0))) (size : ℕ) :
    wp H.world (sfatFillSuperImpl ub (2 ^ k) options) (fun r _ => ∀ sbi root,
      r = .ok (sbi, root) → RegionsOrdered sbi.fsInfo ∧ RegionsDisjoint sbi.fsInfo ∧
        (RegionsFit sbi.fsInfo size ↔ FieldsFit (bootSectorAt (blockAt v (2 ^ k) 0)) size)) v := by
  refine wp_mono (mount_fsInfo H ub (2 ^ k) options v) fun r w hr sbi root hok => ?_
  obtain ⟨hchk, hfs⟩ := hr sbi root hok
  have hareas := hfit.areas ub hk hchk
  rw [hfs]
  exact ⟨hareas.ordered, hareas.ordered.disjoint, hareas.regionsFit_iff⟩

/-- A boot sector without a FAT copy, of one sector, that claims 1000 clusters and a root directory
without bytes in cluster 1000. -/
def crowdedVolume : Vol := fun a =>
  match a with
  | 11 => 0x25
  | 13 => 2
  | 14 => 4
  | 15 => 10
  | 17 => 1
  | 26 => 232
  | 27 => 3
  | 30 => 232
  | 31 => 3
  | _ => 0

theorem mount_regions_crowded :
    wp (lookupWorld storedWord) (sfatFillSuperImpl zeroShift (2 ^ 9) ⟨0, 0, 0, 0⟩) (fun r _ =>
      ∀ sbi root, r = .ok (sbi, root) → RegionsOrdered sbi.fsInfo ∧ RegionsDisjoint sbi.fsInfo ∧
        (RegionsFit sbi.fsInfo 15872 ↔
          FieldsFit (bootSectorAt (blockAt crowdedVolume (2 ^ 9) 0)) 15872)) crowdedVolume :=
  mount_regions zeroShift 9 (by decide) (Host.lookups noFailure storedWord) ⟨0, 0, 0, 0⟩
    crowdedVolume (by decide) 15872

/-- **The mount accepts it on a device of 31 sectors**: there is no FAT copy, the sector of a FAT has
no words for all clusters, the root is not one of them, cluster 999 is behind the device, and the
word of the accepted cluster 200 is behind the sector of a FAT. -/
theorem mount_accepts_crowded :
    ∃ tr sbi root w,
      Exec (lookupWorld storedWord) (sfatFillSuperImpl zeroShift (2 ^ 9) ⟨0, 0, 0, 0⟩)
        crowdedVolume tr (.ok (sbi, root)) w ∧
      FitGeometry (2 ^ 9) (bootSectorAt (blockAt crowdedVolume (2 ^ 9) 0)) ∧
      sbi.fsInfo.fats = 0 ∧ fatWords sbi.fsInfo < sbi.fsInfo.clusters ∧
      sbi.fsInfo.clusters ≤ sbi.fsInfo.rootClusterCls ∧
      999 < sbi.fsInfo.clusters ∧ 15872 < Region.stop sbi.fsInfo (.cluster 999) ∧
      200 < sbi.fsInfo.clustersPred ∧
      sbi.fsInfo.fatStartBlk + sbi.fsInfo.fatLengthBlk ≤ fatBlk sbi.fsInfo 200 := by
  have hrun := Exec.of_quiet (H := Host.lookups noFailure storedWord)
    (fun _ blk pos d => (rfl : storedWord blk pos d = storedWord blk pos d))
    (sfatFillSuperImpl zeroShift (2 ^ 9) ⟨0, 0, 0, 0⟩) crowdedVolume
  have hok : (run (Host.quiet fun _ => storedWord)
      (sfatFillSuperImpl zeroShift (2 ^ 9) ⟨0, 0, 0, 0⟩) crowdedVolume).1.isOk = true := by
    decide +kernel
  obtain ⟨⟨sbi, root⟩, hsome⟩ : ∃ p, (run (Host.quiet fun _ => storedWord)
      (sfatFillSuperImpl zeroShift (2 ^ 9) ⟨0, 0, 0, 0⟩) crowdedVolume).1 = .ok p := by
    revert hok
    cases (run (Host.quiet fun _ => storedWord) (sfatFillSuperImpl zeroShift (2 ^ 9) ⟨0, 0, 0, 0⟩)
      crowdedVolume).1 with
    | error e =>
      intro h
      cases h
    | ok p => exact fun _ => ⟨p, rfl⟩
  rw [hsome] at hrun
  have hfit : FitGeometry (2 ^ 9) (bootSectorAt (blockAt crowdedVolume (2 ^ 9) 0)) := by decide
  obtain ⟨-, hfs⟩ := (wp_iff_exec _ _ _).mp (mount_fsInfo _ zeroShift (2 ^ 9) ⟨0, 0, 0, 0⟩
    crowdedVolume) _ _ _ hrun sbi root rfl
  refine ⟨_, sbi, root, _, hrun, hfit, ?_⟩
  rw [hfs]
  decide +kernel

end SimpleFat

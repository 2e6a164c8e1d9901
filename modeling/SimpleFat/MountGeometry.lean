import SimpleFat.Geometry
import SimpleFat.HostRules
import SimpleFat.Mount

/-!
# The geometry that a mount accepts

The comments of `struct sfat_fs_info` say what its fields are: `cluster_bits` is the logarithm of
`cluster_size`, `blk_per_clus` the number of blocks in a cluster, and so on.  `ConsistentGeometry`
is this reading in exact arithmetic.  The mount computes the fields from the boot sector after
checking only the media code and the sector size; `sec_per_clus` is taken as it comes, the product
is cut to 16 bits, and the sector size is never compared with the block size of the device.

* `ffs_two_pow` — the bit counts are logarithms exactly on powers of two;
* `fillFsInfo_bits` — what the mount computes when `sec_per_clus` is a power of two and nothing
  is cut off;
* `mount_geometry_consistent_iff` — the exact condition.
-/

namespace SimpleFat

open SimpleFat.Lib

def clusterBytes (fs : FsInfo) (cls : ℕ) : Set ℕ :=
  {a | clsToBlk fs cls * fs.blockSize ≤ a ∧ a < clsToBlk fs cls * fs.blockSize + fs.clusterSize}

/-- **The fields of `sfat_fs_info` agree**, in exact arithmetic, and clusters do not overlap. -/
structure ConsistentGeometry (fs : FsInfo) : Prop where
  block_size : fs.blockSize = 2 ^ fs.blockBits
  sector_size : fs.sectorSize = fs.blkPerSec * fs.blockSize
  cluster_size_ne : fs.clusterSize ≠ 0
  cluster_size_sectors : fs.clusterSize = fs.secPerClus * fs.sectorSize
  cluster_size_blocks : fs.clusterSize = fs.blkPerClus * fs.blockSize
  cluster_size_bits : fs.clusterSize = 2 ^ fs.clusterBits
  disjoint : ∀ c < 2 ^ 32, ∀ d < 2 ^ 32, c ≠ d → Disjoint (clusterBytes fs c) (clusterBytes fs d)

/-! ### Bit counts -/

theorem ffsFrom_two_pow (n k : ℕ) (h : k < n) : ffsFrom n (2 ^ k) = k + 1 := by
  induction n generalizing k with
  | zero => omega
  | succ n ih =>
    cases k with
    | zero => simp [ffsFrom]
    | succ k =>
      have heven : ¬ 2 ^ (k + 1) % 2 = 1 := by rw [Nat.pow_succ]; omega
      have hhalf : 2 ^ (k + 1) / 2 = 2 ^ k := by rw [Nat.pow_succ]; omega
      rw [ffsFrom, if_neg heven, hhalf, ih k (by omega)]

/-- `ffs` counts from 1. -/
theorem ffs_two_pow {k : ℕ} (h : k < 32) : ffs (2 ^ k) = k + 1 := ffsFrom_two_pow 32 k h

theorem bitsOf_two_pow {k : ℕ} (h : k < 32) : bitsOf (2 ^ k) = k := by
  rw [bitsOf, ffs_two_pow h]
  omega

theorem isPowerOf2_iff (n : ℕ) : isPowerOf2 n = true ↔ ∃ k, n = 2 ^ k := by
  unfold isPowerOf2
  simp only [Bool.and_eq_true, bne_iff_ne, ne_eq, beq_iff_eq]
  exact Nat.ne_zero_and_sub_one_eq_zero_iff_isPowerOfTwo

theorem isPowerOf2_two_pow (k : ℕ) : isPowerOf2 (2 ^ k) = true := (isPowerOf2_iff _).mpr ⟨k, rfl⟩

/-- A factor of a power of two is one. -/
theorem isPowerOf2_of_mul {a b k : ℕ} (h : a * b = 2 ^ k) : isPowerOf2 a = true := by
  obtain ⟨i, _, hi⟩ := (Nat.dvd_prime_pow Nat.prime_two).mp (Dvd.intro b h)
  exact (isPowerOf2_iff a).mpr ⟨i, hi⟩

theorem lt_of_two_pow_lt {a b : ℕ} (h : 2 ^ a < 2 ^ b) : a < b :=
  (Nat.pow_lt_pow_iff_right Nat.one_lt_two).mp h

/-! ### The fields -/

theorem shiftInt_eq (ub : UndefinedShift) {x n : ℕ} (hn : n < 32) (h : x * 2 ^ n < 2 ^ 16) :
    ub.shiftInt x n % 2 ^ 16 = x * 2 ^ n := by
  rw [UndefinedShift.shiftInt, if_pos hn, Nat.shiftLeft_eq]
  omega

theorem shiftLong_eq (ub : UndefinedShift) {x n : ℕ} (hn : n < 64) (h : x * 2 ^ n < sizeT) :
    ub.shiftLong x n = x * 2 ^ n := by
  rw [UndefinedShift.shiftLong, if_pos hn, Nat.shiftLeft_eq, Nat.mod_eq_of_lt h]

theorem subShort_eq {a b : ℕ} (hab : b ≤ a) (ha : a < 2 ^ 16) : subShort a b = a - b := by
  rw [subShort]
  omega

/-- What passes the checks has a power of two between 512 and 4096 as its sector size. -/
theorem bootSectorChecks_sectorSize {bs : BootSector} (h : bootSectorChecks bs = true) :
    ∃ s, bs.sectorSize = 2 ^ s ∧ 9 ≤ s ∧ s ≤ 12 := by
  simp only [bootSectorChecks, Bool.and_eq_true, decide_eq_true_eq] at h
  obtain ⟨⟨⟨-, hp⟩, hlo⟩, hhi⟩ := h
  obtain ⟨s, hs⟩ := (isPowerOf2_iff _).mp hp
  refine ⟨s, hs, ?_, ?_⟩
  · have h8 : 2 ^ 8 < 2 ^ s := by omega
    have := lt_of_two_pow_lt h8
    omega
  · have h13 : 2 ^ s < 2 ^ 13 := by omega
    have := lt_of_two_pow_lt h13
    omega

section Fields

variable (ub : UndefinedShift) (bs : BootSector) {k s m : ℕ}

/-- **The geometry of a power of two of sectors.**  All sizes are the powers that the bit counts
name, when nothing is cut off. -/
theorem fillFsInfo_bits (hk : k ≤ s) (hs : bs.sectorSize = 2 ^ s) (hm : bs.secPerClus = 2 ^ m)
    (hcut : m + s < 16) :
    (fillFsInfo ub (2 ^ k) bs).blockBits = k ∧
    (fillFsInfo ub (2 ^ k) bs).clusterBits = m + s ∧
    (fillFsInfo ub (2 ^ k) bs).clusterSize = 2 ^ (m + s) ∧
    (fillFsInfo ub (2 ^ k) bs).blkPerSec = 2 ^ (s - k) ∧
    (fillFsInfo ub (2 ^ k) bs).blkPerSecBits = s - k ∧
    (fillFsInfo ub (2 ^ k) bs).blkPerClus = 2 ^ (m + s - k) := by
  have hpow : ∀ {i : ℕ}, i < 16 → 2 ^ i < 2 ^ 16 := fun h => Nat.pow_lt_pow_right Nat.one_lt_two h
  have hkb : bitsOf (2 ^ k) = k := bitsOf_two_pow (by omega)
  have hsb : bitsOf bs.sectorSize = s := by rw [hs]; exact bitsOf_two_pow (by omega)
  have hcs : ub.shiftInt bs.secPerClus s % 2 ^ 16 = 2 ^ (m + s) := by
    rw [hm, shiftInt_eq ub (by omega) (by rw [← Nat.pow_add]; exact hpow hcut), Nat.pow_add]
  have hcb : bitsOf (2 ^ (m + s)) = m + s := bitsOf_two_pow (by omega)
  have hone : ∀ {i : ℕ}, i < 16 → ub.shiftInt 1 i % 2 ^ 16 = 2 ^ i := fun h => by
    rw [shiftInt_eq ub (by omega) (by rw [Nat.one_mul]; exact hpow h), Nat.one_mul]
  have hps : subShort s k = s - k := subShort_eq hk (by omega)
  have hpc : subShort (m + s) k = m + s - k := subShort_eq (by omega) (by omega)
  simp only [fillFsInfo, hkb, hsb, hcs, hcb, hps, hpc]
  exact ⟨trivial, trivial, trivial, hone (by omega), trivial, hone (by omega)⟩

theorem fillFsInfo_dataStartBlk (blockSize : ℕ) :
    (fillFsInfo ub blockSize bs).dataStartBlk =
      ub.shiftLong (1 + bs.reserved + bs.fatLength * bs.fats)
        (fillFsInfo ub blockSize bs).blkPerSecBits := by
  rw [fillFsInfo]

/-- The first data block, without the reduction of `unsigned long`. -/
theorem fillFsInfo_dataStartBlk_le (hk : k ≤ s) (hs12 : s ≤ 12)
    (hbits : (fillFsInfo ub (2 ^ k) bs).blkPerSecBits = s - k) (hres : bs.reserved < 2 ^ 16)
    (hfat : bs.fatLength < 2 ^ 32) (hfats : bs.fats < 2 ^ 8) :
    (fillFsInfo ub (2 ^ k) bs).dataStartBlk < 2 ^ 56 := by
  have hprod : bs.fatLength * bs.fats ≤ 2 ^ 32 * 2 ^ 8 :=
    Nat.mul_le_mul (Nat.le_of_lt hfat) (Nat.le_of_lt hfats)
  have hpow : 2 ^ (s - k) ≤ 2 ^ 12 := Nat.pow_le_pow_right (by omega) (by omega)
  have hsec : 1 + bs.reserved + bs.fatLength * bs.fats ≤ 2 ^ 41 := by omega
  have hblk : (1 + bs.reserved + bs.fatLength * bs.fats) * 2 ^ (s - k) ≤ 2 ^ 41 * 2 ^ 12 :=
    Nat.mul_le_mul hsec hpow
  have hsize : (1 + bs.reserved + bs.fatLength * bs.fats) * 2 ^ (s - k) < sizeT := by
    rw [sizeT]
    omega
  rw [fillFsInfo_dataStartBlk, hbits, shiftLong_eq ub (by omega) hsize]
  omega

end Fields

/-! ### Consistency -/

/-- Clusters of a whole number of blocks do not overlap. -/
theorem clusterBytes_disjoint {fs : FsInfo} (hblk : fs.blockSize = 2 ^ fs.blockBits)
    (hcls : fs.clusterSize = 2 ^ fs.clusterBits) (hle : fs.blockBits ≤ fs.clusterBits)
    (hbits : fs.clusterBits - fs.blockBits < 15) (hdata : fs.dataStartBlk < 2 ^ 56) {c d : ℕ}
    (hc : c < 2 ^ 32) (hd : d < 2 ^ 32) (hne : c ≠ d) :
    Disjoint (clusterBytes fs c) (clusterBytes fs d) := by
  rw [Set.disjoint_left]
  intro a ha hb
  obtain ⟨ha1, ha2⟩ := ha
  obtain ⟨hb1, hb2⟩ := hb
  rw [clsToBlk_mul hblk hle hbits hdata hc, hcls] at *
  rw [clsToBlk_mul hblk hle hbits hdata hd] at *
  rcases Nat.lt_or_gt_of_ne hne with hlt | hlt
  · have hstep : (c + 1) * 2 ^ fs.clusterBits ≤ d * 2 ^ fs.clusterBits :=
      Nat.mul_le_mul_right _ hlt
    rw [Nat.add_mul, Nat.one_mul] at hstep
    omega
  · have hstep : (d + 1) * 2 ^ fs.clusterBits ≤ c * 2 ^ fs.clusterBits :=
      Nat.mul_le_mul_right _ hlt
    rw [Nat.add_mul, Nat.one_mul] at hstep
    omega

/-- The condition on the boot sector and the device under which the fields agree. -/
def FitGeometry (blockSize : ℕ) (bs : BootSector) : Prop :=
  isPowerOf2 bs.secPerClus ∧ bs.secPerClus * bs.sectorSize < 2 ^ 16 ∧ blockSize ≤ bs.sectorSize

instance (blockSize : ℕ) (bs : BootSector) : Decidable (FitGeometry blockSize bs) :=
  inferInstanceAs (Decidable (_ ∧ _ ∧ _))

/-- A geometry that agrees comes from fitting sizes: the cluster size, a 16-bit field, is a power
of two with the sector count as a factor, and a sector is a whole number of blocks. -/
theorem FitGeometry.of_consistent {ub : UndefinedShift} {blockSize : ℕ} {bs : BootSector}
    (hs : bs.sectorSize ≠ 0) (h : ConsistentGeometry (fillFsInfo ub blockSize bs)) :
    FitGeometry blockSize bs := by
  have hsecs : (fillFsInfo ub blockSize bs).clusterSize = bs.secPerClus * bs.sectorSize :=
    h.cluster_size_sectors
  have hbits := h.cluster_size_bits
  have hsector : bs.sectorSize = (fillFsInfo ub blockSize bs).blkPerSec * blockSize :=
    h.sector_size
  refine ⟨?_, ?_, ?_⟩
  · rw [hsecs] at hbits
    exact isPowerOf2_of_mul hbits
  · rw [← hsecs, fillFsInfo]
    exact Nat.mod_lt _ (by omega)
  · rw [hsector]
    apply Nat.le_mul_of_pos_left
    by_contra hzero
    rw [Nat.eq_zero_of_not_pos hzero, Nat.zero_mul] at hsector
    exact hs hsector

/-- The boot sector of block 0 has fields of the widths of `struct sfat_boot_sector`. -/
theorem bootSectorAt_bounds (b : Page) :
    (bootSectorAt b).reserved < 2 ^ 16 ∧ (bootSectorAt b).fatLength < 2 ^ 32 ∧
    (bootSectorAt b).fats < 2 ^ 8 :=
  ⟨le16_lt b 15, le32_lt b 17, (b 21).toNat_lt⟩

/-- Fitting sizes give a geometry that agrees. -/
theorem FitGeometry.consistent (ub : UndefinedShift) {k : ℕ} (hk : 9 ≤ k) {b : Page}
    (hchk : bootSectorChecks (bootSectorAt b) = true) (h : FitGeometry (2 ^ k) (bootSectorAt b)) :
    ConsistentGeometry (fillFsInfo ub (2 ^ k) (bootSectorAt b)) := by
  obtain ⟨s, hs, hs9, hs12⟩ := bootSectorChecks_sectorSize hchk
  obtain ⟨hp, hcut, hle⟩ := h
  obtain ⟨m, hm⟩ := (isPowerOf2_iff _).mp hp
  have hks : k ≤ s := by
    rw [hs] at hle
    exact (Nat.pow_le_pow_iff_right Nat.one_lt_two).mp hle
  have hms : m + s < 16 := by
    rw [hm, hs, ← Nat.pow_add] at hcut
    exact lt_of_two_pow_lt hcut
  obtain ⟨hres, hfat, hfats⟩ := bootSectorAt_bounds b
  obtain ⟨hbb, hcb, hcs, hps, hpsb, hpc⟩ := fillFsInfo_bits ub (bootSectorAt b) hks hs hm hms
  have hdata := fillFsInfo_dataStartBlk_le ub (bootSectorAt b) hks hs12 hpsb hres hfat hfats
  have hblock : (fillFsInfo ub (2 ^ k) (bootSectorAt b)).blockSize = 2 ^ k := by rw [fillFsInfo]
  have hsector : (fillFsInfo ub (2 ^ k) (bootSectorAt b)).sectorSize = 2 ^ s := by
    rw [fillFsInfo, hs]
  have hsecs : (fillFsInfo ub (2 ^ k) (bootSectorAt b)).secPerClus = 2 ^ m := by
    rw [fillFsInfo, hm]
  exact {
    block_size := by rw [hblock, hbb]
    sector_size := by rw [hsector, hps, hblock, ← Nat.pow_add, Nat.sub_add_cancel hks]
    cluster_size_ne := by
      rw [hcs]
      exact (Nat.ne_of_gt (Nat.two_pow_pos _))
    cluster_size_sectors := by rw [hcs, hsecs, hsector, Nat.pow_add]
    cluster_size_blocks := by
      rw [hcs, hpc, hblock, ← Nat.pow_add, Nat.sub_add_cancel (by omega)]
    cluster_size_bits := by rw [hcs, hcb]
    disjoint := fun c hc d hd hne =>
      clusterBytes_disjoint (by rw [hblock, hbb]) (by rw [hcs, hcb]) (by rw [hbb, hcb]; omega)
        (by rw [hbb, hcb]; omega) hdata hc hd hne }

/-- A mount that succeeds has passed the checks and works with the fields of the boot sector. -/
theorem mount_fsInfo (H : Host) (ub : UndefinedShift) (blockSize : ℕ) (options : MountOptions)
    (v : Vol) :
    wp H.world (sfatFillSuperImpl ub blockSize options) (fun r _ => ∀ sbi root,
      r = .ok (sbi, root) → bootSectorChecks (bootSectorAt (blockAt v blockSize 0)) = true ∧
        sbi.fsInfo = fillFsInfo ub blockSize (bootSectorAt (blockAt v blockSize 0))) v := by
  have hfail : ∀ {e : Errno} {w : Vol} {P : SbInfo → Inode → Prop},
      wp H.world (pure (.error e) : Driver (Except Errno (SbInfo × Inode)))
        (fun r _ => ∀ sbi root, r = .ok (sbi, root) → P sbi root) w :=
    (wp_done _ _ _).mpr (by simp)
  rw [sfatFillSuperImpl, wp_blkholderAlloc]
  intro page _
  cases page with
  | none => exact hfail
  | some addr =>
    refine (wp_readBlock _ _ _).mpr ⟨?_, fun _ => hfail⟩
    by_cases hchk : bootSectorChecks (bootSectorAt (blockAt v blockSize 0)) = true
    · simp only [hchk, if_true]
      refine (wp_newInode _).mpr fun stale _ => ?_
      cases stale with
      | none => exact hfail
      | some stale =>
        rw [wp_bind]
        refine wp_of_forall fun root w => ?_
        cases root with
        | error e => exact hfail
        | ok root =>
          refine (wp_dAllocRoot _).mpr fun made _ => ?_
          cases made with
          | false => exact hfail
          | true =>
            refine (wp_done _ _ _).mpr fun sbi root' hr => ?_
            cases hr
            exact ⟨trivial, rfl⟩
    · simp only [hchk]
      exact hfail

/-- **When the mount accepts only consistent geometry.**  The fields agree exactly when
`sec_per_clus` is a power of two, the cluster size fits its field and a sector is not smaller than
a block, for what passes the checks and so for every mount that succeeds. -/
theorem mount_geometry_consistent_iff (ub : UndefinedShift) (k : ℕ) (hk : 9 ≤ k) :
    (∀ b : Page, bootSectorChecks (bootSectorAt b) = true →
      (ConsistentGeometry (fillFsInfo ub (2 ^ k) (bootSectorAt b)) ↔
        FitGeometry (2 ^ k) (bootSectorAt b))) ∧
    ∀ (H : Host) (options : MountOptions) (v : Vol),
      wp H.world (sfatFillSuperImpl ub (2 ^ k) options) (fun r _ => ∀ sbi root,
        r = .ok (sbi, root) →
          (ConsistentGeometry sbi.fsInfo ↔
            FitGeometry (2 ^ k) (bootSectorAt (blockAt v (2 ^ k) 0)))) v := by
  have hiff : ∀ b : Page, bootSectorChecks (bootSectorAt b) = true →
      (ConsistentGeometry (fillFsInfo ub (2 ^ k) (bootSectorAt b)) ↔
        FitGeometry (2 ^ k) (bootSectorAt b)) := by
    intro b hchk
    obtain ⟨s, hs, -, -⟩ := bootSectorChecks_sectorSize hchk
    have hne : (bootSectorAt b).sectorSize ≠ 0 := by
      rw [hs]
      exact Nat.ne_of_gt (Nat.two_pow_pos _)
    exact ⟨FitGeometry.of_consistent hne, FitGeometry.consistent ub hk hchk⟩
  refine ⟨hiff, fun H options v => wp_mono (mount_fsInfo H ub (2 ^ k) options v) ?_⟩
  intro r w hr sbi root hok
  obtain ⟨hchk, hfs⟩ := hr sbi root hok
  rw [hfs]
  exact hiff _ hchk

/-- A volume with three sectors in a cluster: boot sector, one sector for each of two FATs from
sector 11 on, and an empty root directory. -/
def threeSectorVolume : Vol := fun a =>
  match a with
  | 11 => 0x25
  | 13 => 2
  | 14 => 3
  | 15 => 10
  | 17 => 1
  | 21 => 2
  | 26 => 4
  | 34 => 1
  | 6667 => sfatAttrEmptyEnd
  | _ => 0

/-- A compiler that gives 0 for every undefined shift. -/
def zeroShift : UndefinedShift where
  int _ _ := 0
  long _ _ := 0

theorem mount_geometry_consistent_iff_three :
    ConsistentGeometry (fillFsInfo zeroShift (2 ^ 9) (bootSectorAt threeSectorVolume)) ↔
      FitGeometry (2 ^ 9) (bootSectorAt threeSectorVolume) :=
  (mount_geometry_consistent_iff zeroShift 9 (by decide)).1 threeSectorVolume (by decide)

/-- **The mount accepts a cluster of three sectors**, and the fields do not agree. -/
theorem mount_accepts_inconsistent :
    ∃ tr sbi root w,
      Exec (Host.lookups noFailure storedWord).world (sfatFillSuperImpl zeroShift 512 ⟨0, 0, 0, 0⟩)
        threeSectorVolume tr (.ok (sbi, root)) w ∧
      ¬ ConsistentGeometry sbi.fsInfo := by
  have hlook : ∀ addr blk pos d, (Host.lookups noFailure storedWord).lookup addr blk pos d
      (storedWord blk pos d) := fun _ _ _ _ => rfl
  have hrun := Exec.of_quiet hlook (sfatFillSuperImpl zeroShift 512 ⟨0, 0, 0, 0⟩)
    threeSectorVolume
  have hok : (run (Host.quiet fun _ => storedWord) (sfatFillSuperImpl zeroShift 512 ⟨0, 0, 0, 0⟩)
      threeSectorVolume).1.isOk = true := by decide +kernel
  obtain ⟨⟨sbi, root⟩, hsome⟩ : ∃ p, (run (Host.quiet fun _ => storedWord)
      (sfatFillSuperImpl zeroShift 512 ⟨0, 0, 0, 0⟩) threeSectorVolume).1 = .ok p := by
    revert hok
    cases (run (Host.quiet fun _ => storedWord) (sfatFillSuperImpl zeroShift 512 ⟨0, 0, 0, 0⟩)
      threeSectorVolume).1 with
    | error e => exact fun h => absurd h Bool.false_ne_true
    | ok p => exact fun _ => ⟨p, rfl⟩
  rw [hsome] at hrun
  refine ⟨_, sbi, root, _, hrun, fun hcons => ?_⟩
  have hfs := ((wp_iff_exec _ _ _).mp (mount_fsInfo _ zeroShift 512 ⟨0, 0, 0, 0⟩
    threeSectorVolume) _ _ _ hrun sbi root rfl).2
  rw [hfs] at hcons
  have hfit := FitGeometry.of_consistent (by decide) hcons
  exact absurd hfit (by decide)

end SimpleFat

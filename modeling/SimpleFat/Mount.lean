import SimpleFat.Inodes

/-!
# Mounting

`sfat_fill_super_impl` reads the boot sector from block 0, checks it, computes `sfat_fs_info` in
16-bit and 64-bit fields, and reads the root directory.  A shift by at least the width of its
operand is undefined in C: `UndefinedShift` holds the values such shifts happen to give.
-/

namespace SimpleFat

open SimpleFat.Lib

/-- `struct sfat_boot_sector`, as far as the mount reads it. -/
structure BootSector where
  media : ℕ
  sectorSize : ℕ
  secPerClus : ℕ
  reserved : ℕ
  fatLength : ℕ
  fats : ℕ
  clusters : ℕ
  rootStart : ℕ
  rootSize : ℕ

def bootSectorAt (b : ℕ → UInt8) : BootSector where
  media := (b 11).toNat
  sectorSize := le16 b 12
  secPerClus := (b 14).toNat
  reserved := le16 b 15
  fatLength := le32 b 17
  fats := (b 21).toNat
  clusters := le32 b 26
  rootStart := le32 b 30
  rootSize := le32 b 34

/-- The lowest set bit among the `n` bits of `x`, counted from 1. -/
def ffsFrom : (n x : ℕ) → ℕ
  | 0, _ => 0
  | n + 1, x =>
    if x % 2 = 1 then 1
    else match ffsFrom n (x / 2) with
      | 0 => 0
      | k + 1 => k + 2

/-- `ffs` of an `int`; `ffs(0)` is 0. -/
def ffs (x : ℕ) : ℕ := ffsFrom 32 x

def isPowerOf2 (n : ℕ) : Bool := n != 0 && n &&& (n - 1) == 0

/-- Values of the shifts that C leaves undefined. -/
structure UndefinedShift where
  int : (x n : ℕ) → ℕ
  long : (x n : ℕ) → ℕ

/-- `x << n` on `int`. -/
def UndefinedShift.shiftInt (ub : UndefinedShift) (x n : ℕ) : ℕ :=
  if n < 32 then x <<< n % 2 ^ 32 else ub.int x n

/-- `x << n` on `unsigned long`. -/
def UndefinedShift.shiftLong (ub : UndefinedShift) (x n : ℕ) : ℕ :=
  if n < 64 then x <<< n % sizeT else ub.long x n

/-- `ffs(x) - 1` in an `unsigned short`. -/
def bitsOf (x : ℕ) : ℕ := (ffs x + (2 ^ 16 - 1)) % 2 ^ 16

def subShort (a b : ℕ) : ℕ := (a + 2 ^ 16 - b) % 2 ^ 16

/-- The fields of `sfat_fs_info` that the mount computes from a boot sector. -/
def fillFsInfo (ub : UndefinedShift) (blockSize : ℕ) (bs : BootSector) : FsInfo :=
  let blockBits := bitsOf blockSize
  let sectorBits := bitsOf bs.sectorSize
  let clusterSize := ub.shiftInt bs.secPerClus sectorBits % 2 ^ 16
  let clusterBits := bitsOf clusterSize
  let blkPerSecBits := subShort sectorBits blockBits
  let blkPerClusBits := subShort clusterBits blockBits
  let fatStartSec := 1 + bs.reserved
  let dataStartSec := fatStartSec + bs.fatLength * bs.fats
  { blockSize := blockSize
    blockBits := blockBits
    sectorSize := bs.sectorSize
    sectorBits := sectorBits
    clusterSize := clusterSize
    clusterBits := clusterBits
    secPerClus := bs.secPerClus
    blkPerSec := ub.shiftInt 1 blkPerSecBits % 2 ^ 16
    blkPerClus := ub.shiftInt 1 blkPerClusBits % 2 ^ 16
    direntPerBlk := blockSize >>> 5
    blkPerSecBits := blkPerSecBits
    blkPerClusBits := blkPerClusBits
    fatStartSec := fatStartSec
    fatStartBlk := ub.shiftLong fatStartSec blkPerSecBits
    fatLengthSec := bs.fatLength
    fatLengthBlk := ub.shiftLong bs.fatLength blkPerSecBits
    fats := bs.fats
    dataStartSec := dataStartSec
    dataStartBlk := ub.shiftLong dataStartSec blkPerSecBits
    clusters := bs.clusters
    rootClusterCls := bs.rootStart }

/-- The checks of `sfat_fill_super_impl` on the boot sector. -/
def bootSectorChecks (bs : BootSector) : Bool :=
  bs.media == sfatMedia && isPowerOf2 bs.sectorSize && 512 ≤ bs.sectorSize && bs.sectorSize ≤ 4096

/-- `sfat_read_root` on the new inode of the root directory. -/
def sfatReadRoot (ub : UndefinedShift) (sbi : SbInfo) (inode : Inode) :
    Driver (Except Errno Inode) := do
  let fs := sbi.fsInfo
  let iSize := ub.shiftLong sbi.rootSize fs.clusterBits
  let inode := { inode with
    iPos := sfatRootDirentryPos
    iStart := fs.rootClusterCls
    iAttrs := sfatAttrDir
    iUid := sbi.options.fsUid
    iGid := sbi.options.fsGid
    iVersion := inode.iVersion + 1
    iGeneration := 0
    iMode := sfatMakeMode sbi.options sfatAttrDir 0o777
    dirOps := true
    iSize := iSize
    iMtime := 0
    iAtime := 0
    iCtime := 0
    iBlocks := consumedBlocks iSize fs.clusterSize 9 }
  match ← sfatCountSubdirs fs inode.iStart inode.iSize with
  | .error e => pure (.error e)
  | .ok subfiles =>
    if subfiles < 0 then pure (.error .einval)
    else pure (.ok { inode with iNlink := subfiles.toNat + 2 + 1 })

/-- `sfat_fill_super_impl` on a device with the given logical block size. -/
def sfatFillSuperImpl (ub : UndefinedShift) (blockSize : ℕ) (options : MountOptions) :
    Driver (Except Errno (SbInfo × Inode)) := do
  match ← blkholderAlloc with
  | none => pure (.error .enomem)
  | some _ =>
    match ← readBlock blockSize 0 with
    | none => pure (.error .eio)
    | some data =>
      let bs := bootSectorAt data
      if bootSectorChecks bs then
        let sbi : SbInfo :=
          { fsInfo := fillFsInfo ub blockSize bs, rootSize := bs.rootSize, options := options }
        match ← newInode with
        | none => pure (.error .enomem)
        | some stale =>
          match ← sfatReadRoot ub sbi { Inode.fresh stale with iIno := sfatRootIno, iVersion := 1 } with
          | .error e => pure (.error e)
          | .ok root =>
            if ← dAllocRoot then pure (.ok (sbi, root)) else pure (.error .enomem)
      else pure (.error .einval)

end SimpleFat

import SimpleFat.Lib.BytePatch

/-!
# The on-disk structures

The constants, the packed records and the in-memory geometry of `sfat_fs.h` and `sfat.h`:

`| head (1 sector) | reserved area | fat area (fat_length X fatno) | data area |`

A volume is a function from byte addresses to bytes.  `FsInfo` is `struct sfat_fs_info`, filled at
mount; `clsToBlk` and `formDirEntryPos` are the two address computations of the driver, in the
64-bit arithmetic of `size_t`.
-/

namespace SimpleFat

open SimpleFat.Lib

/-! ### Constants -/

/-- Media code of the boot sector. -/
def sfatMedia : ℕ := 0x25

/-- A FAT word that is not allocated; also the start cluster of a file without clusters. -/
def sfatEntryFree : ℕ := 0xFFFFFFF9

/-- End of a cluster chain. -/
def sfatEntryEoc : ℕ := 0xFFFFFFF8

def sfatEntryMax : ℕ := 0xFFFFFFF6

def sfatRootIno : ℕ := 5

/-- The special `i_pos` of the root directory. -/
def sfatRootDirentryPos : ℕ := 0

def sfatAttrNone : UInt8 := 0
def sfatAttrDir : UInt8 := 16

/-- This entry is free. -/
def sfatAttrEmpty : UInt8 := 64

/-- This entry and the rest entries are free. -/
def sfatAttrEmptyEnd : UInt8 := 128

/-- Number of values of `size_t`, `unsigned long` and `loff_t` on the 64-bit targets. -/
def sizeT : ℕ := 2 ^ 64

/-! ### Error codes -/

/-- The error codes the driver returns, each standing for the negative number. -/
inductive Errno where
  | enoent
  | eio
  | enomem
  | eexist
  | einval
  /-- The call never returns: a loop makes no progress.  It is no code of the driver. -/
  | noReturn
  deriving DecidableEq, Repr

def Errno.code : Errno → ℤ
  | .enoent => -2
  | .eio => -5
  | .enomem => -12
  | .eexist => -17
  | .einval => -22
  | .noReturn => 0

/-! ### Geometry -/

/-- `struct sfat_fs_info`. -/
structure FsInfo where
  blockSize : ℕ
  blockBits : ℕ
  sectorSize : ℕ
  sectorBits : ℕ
  clusterSize : ℕ
  clusterBits : ℕ
  secPerClus : ℕ
  blkPerSec : ℕ
  blkPerClus : ℕ
  direntPerBlk : ℕ
  blkPerSecBits : ℕ
  blkPerClusBits : ℕ
  fatStartSec : ℕ
  fatStartBlk : ℕ
  fatLengthSec : ℕ
  fatLengthBlk : ℕ
  fats : ℕ
  dataStartSec : ℕ
  dataStartBlk : ℕ
  clusters : ℕ
  rootClusterCls : ℕ
  deriving DecidableEq, Repr

/-- `fs->clusters - 1` in `unsigned long` arithmetic. -/
def FsInfo.clustersPred (fs : FsInfo) : ℕ := (fs.clusters + (sizeT - 1)) % sizeT

/-- `CLS_TO_BLK`: the block number of the first block of a cluster. -/
def clsToBlk (fs : FsInfo) (cls : ℕ) : ℕ :=
  (fs.dataStartBlk + cls <<< (fs.clusterBits - fs.blockBits)) % sizeT

/-- `form_dir_entry_pos`: the byte address of the slot at `offset` in block `blk` of a cluster. -/
def formDirEntryPos (fs : FsInfo) (cls blk offset : ℕ) : ℕ :=
  ((clsToBlk fs cls + blk) <<< fs.blockBits + offset) % sizeT

theorem FsInfo.clustersPred_def (fs : FsInfo) :
    fs.clustersPred = (fs.clusters + (sizeT - 1)) % sizeT := by rw [FsInfo.clustersPred]

theorem clsToBlk_def (fs : FsInfo) (cls : ℕ) : clsToBlk fs cls =
    (fs.dataStartBlk + cls <<< (fs.clusterBits - fs.blockBits)) % sizeT := by rw [clsToBlk]

theorem formDirEntryPos_def (fs : FsInfo) (cls blk offset : ℕ) : formDirEntryPos fs cls blk offset =
    ((clsToBlk fs cls + blk) <<< fs.blockBits + offset) % sizeT := by rw [formDirEntryPos]

-- proofs go by these equations; unfolding would count to the width of `size_t`
attribute [irreducible] FsInfo.clustersPred clsToBlk formDirEntryPos

/-! ### Directory entries -/

/-- `struct sfat_dir_entry`, with its little-endian fields as numbers. -/
structure SfatDirEntry where
  name : Vector UInt8 11
  attr : UInt8
  crtTime : ℕ
  lstAccTime : ℕ
  wrtTime : ℕ
  size : ℕ
  fstClsNo : ℕ
  deriving DecidableEq, Repr

def direntAt (b : ℕ → UInt8) (off : ℕ) : SfatDirEntry where
  name := Vector.ofFn fun i => b (off + i)
  attr := b (off + 11)
  crtTime := le32 b (off + 12)
  lstAccTime := le32 b (off + 16)
  wrtTime := le32 b (off + 20)
  size := le32 b (off + 24)
  fstClsNo := le32 b (off + 28)

def SfatDirEntry.bytes (de : SfatDirEntry) : ℕ → UInt8 := fun i =>
  if h : i < 11 then de.name[i]
  else if i < 12 then de.attr
  else if i < 16 then le32Bytes de.crtTime (i - 12)
  else if i < 20 then le32Bytes de.lstAccTime (i - 16)
  else if i < 24 then le32Bytes de.wrtTime (i - 20)
  else if i < 28 then le32Bytes de.size (i - 24)
  else le32Bytes de.fstClsNo (i - 28)

def putDirent (b : ℕ → UInt8) (off : ℕ) (de : SfatDirEntry) : ℕ → UInt8 :=
  patch b off 32 de.bytes

def putAttr (b : ℕ → UInt8) (off : ℕ) (attr : UInt8) : ℕ → UInt8 :=
  patch b (off + 11) 1 fun _ => attr

/-- `attr & SFAT_ATTR_EMPTY_END`: the scanners stop here. -/
def SfatDirEntry.isEnd (de : SfatDirEntry) : Bool := de.attr &&& sfatAttrEmptyEnd != 0

/-- `attr & SFAT_ATTR_EMPTY`: the scanners skip the slot. -/
def SfatDirEntry.isEmpty (de : SfatDirEntry) : Bool := de.attr &&& sfatAttrEmpty != 0

/-- `attr & SFAT_ATTR_DIR`. -/
def SfatDirEntry.isDir (de : SfatDirEntry) : Bool := de.attr &&& sfatAttrDir != 0

/-! ### Names -/

/-- The bytes of a name field up to its first NUL. -/
def cString (name : Vector UInt8 11) : List UInt8 := name.toList.takeWhile (· != 0)

/-- `!strncmp(a, b, SFAT_NAME_LEN)`: equal up to the first NUL. -/
def strncmpEq (a b : Vector UInt8 11) : Bool := cString a == cString b

/-- The name field that `sfat_create_file` and `sfat_lookup` build from a dentry: the first bytes
of the name, padded by NUL. -/
def padName (dName : List UInt8) : Vector UInt8 11 := Vector.ofFn fun i => dName.getD i 0

/-- `str_len`: the number of characters till NUL, at most `max`. -/
def strLen (str : ℕ → UInt8) : (max count : ℕ) → ℕ
  | 0, count => count
  | max + 1, count => if str count = 0 then count else strLen str max (count + 1)

def sfatFormDirEntry (isdir : Bool) (name : Vector UInt8 11) (startCls size tvSec : ℕ) :
    SfatDirEntry where
  name := Vector.ofFn fun i => (cString name).getD i 0
  attr := if isdir then sfatAttrDir else sfatAttrNone
  size := size % 2 ^ 32
  fstClsNo := (if size = 0 then sfatEntryFree else startCls) % 2 ^ 32
  crtTime := tvSec % 2 ^ 32
  lstAccTime := tvSec % 2 ^ 32
  wrtTime := tvSec % 2 ^ 32

end SimpleFat

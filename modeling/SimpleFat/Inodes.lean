import SimpleFat.Directory

/-!
# Inodes and directory operations

`sfat_fill_inode` and `sfat_build_inode` make an in-memory inode from a directory entry,
`sfat_inode_write_to_hd` flushes one to its slot, and `sfat_create_file` and `sfat_lookup` are the
two directory operations on top of them.  `sfat_create_file` is cut at its branches: the reused
slot, the moved terminator, the new cluster and the common end.
-/

namespace SimpleFat

open SimpleFat.Lib

/-- `struct sfat_mount_options`. -/
structure MountOptions where
  fsUid : ℕ
  fsGid : ℕ
  fsFmask : ℕ
  fsDmask : ℕ

/-- `struct sfat_sb_info`. -/
structure SbInfo where
  fsInfo : FsInfo
  /-- size of root directory in cluster -/
  rootSize : ℕ
  options : MountOptions

/-- `struct inode` together with its `struct sfat_inode_info`. -/
structure Inode where
  iIno : ℕ
  iVersion : ℕ
  iGeneration : ℕ
  iUid : ℕ
  iGid : ℕ
  iMode : ℕ
  /-- `i_op` and `i_fop` are the directory operations -/
  dirOps : Bool
  iSize : ℕ
  iBlocks : ℕ
  iNlink : ℕ
  iMtime : ℕ
  iAtime : ℕ
  iCtime : ℕ
  /-- first cluster or `SFAT_ENTRY_FREE` -/
  iStart : ℕ
  iAttrs : UInt8
  /-- position of directory entry (in the volume) in byte -/
  iPos : ℕ
  deriving DecidableEq, Repr

/-- The inode that `new_inode` returns: the fields of the VFS are initialised, those of the
driver are what the recycled object held. -/
def Inode.fresh (stale : StaleInfo) : Inode where
  iIno := 0
  iVersion := 0
  iGeneration := 0
  iUid := 0
  iGid := 0
  iMode := 0
  dirOps := false
  iSize := 0
  iBlocks := 0
  iNlink := 1
  iMtime := 0
  iAtime := 0
  iCtime := 0
  iStart := stale.iStart
  iAttrs := stale.iAttrs
  iPos := stale.iPos

def sfatMakeMode (options : MountOptions) (attrs : UInt8) (mode : ℕ) : ℕ :=
  if attrs &&& sfatAttrDir != 0 then (mode - (mode &&& options.fsDmask)) ||| 0o040000
  else (mode - (mode &&& options.fsFmask)) ||| 0o100000

/-- `(size + (cluster_size - 1)) & ~(cluster_size - 1)`, shifted to a number of blocks. -/
def consumedBlocks (size clusterSize bits : ℕ) : ℕ :=
  let x := size + (clusterSize - 1)
  (x - (x &&& (clusterSize - 1))) >>> bits

/-- `sfat_fill_inode`.  The subdirectories are counted before `i_start` is set. -/
def sfatFillInode (sbi : SbInfo) (inode : Inode) (de : SfatDirEntry) (iPos : ℕ) :
    Driver Inode := do
  let now ← currentTimeSec
  let inode := { inode with
    iUid := sbi.options.fsUid
    iGid := sbi.options.fsGid
    iVersion := inode.iVersion + 1
    iMode := sfatMakeMode sbi.options de.attr 0o777
    iSize := de.size }
  let inode ←
    if de.isDir then do
      let subfiles ← sfatCountSubdirs sbi.fsInfo inode.iStart inode.iSize
      let nlink := match subfiles with
        | .ok count => count.toNat
        | .error _ => 0
      pure { inode with
        iGeneration := now % 2 ^ 32 - now % 2
        dirOps := true
        iNlink := nlink }
    else
      pure { inode with
        iGeneration := now % 2 ^ 32 ||| 1
        dirOps := false }
  pure { inode with
    iBlocks := consumedBlocks inode.iSize sbi.fsInfo.clusterSize sbi.fsInfo.blockBits
    iMtime := de.wrtTime
    iCtime := de.crtTime
    iAtime := de.lstAccTime
    iStart := de.fstClsNo
    iAttrs := de.attr
    iPos := iPos }

def sfatBuildInode (sbi : SbInfo) (de : SfatDirEntry) (iPos : ℕ) :
    Driver (Except Errno Inode) := do
  match ← newInode with
  | none => pure (.error .enomem)
  | some stale =>
    let ino ← iunique sfatRootIno
    let inode ← sfatFillInode sbi { Inode.fresh stale with iIno := ino, iVersion := 1 } de iPos
    pure (.ok inode)

/-- `(loff_t)pos >> bits`, an arithmetic shift, as a `size_t`. -/
def loffShiftRight (pos bits : ℕ) : ℕ :=
  if pos < 2 ^ 63 then pos >>> bits else sizeT - 1 - (sizeT - 1 - pos) >>> bits

/-- The five fields that `sfat_inode_write_to_hd` updates in the entry at `pos`. -/
def flushEntry (data : Page) (pos : ℕ) (inode : Inode) : Page :=
  let data := putLe32 data (pos + 28) inode.iStart
  let data := putLe32 data (pos + 24) inode.iSize
  let data := putLe32 data (pos + 12) inode.iCtime
  let data := putLe32 data (pos + 16) inode.iAtime
  putLe32 data (pos + 20) inode.iMtime

/-- `sfat_inode_write_to_hd`; `none` is the return value 0. -/
def sfatInodeWriteToHd (fs : FsInfo) (inode : Inode) : Driver (Option Errno) :=
  if inode.iIno = sfatRootIno then pure none
  else do
    let blk := loffShiftRight inode.iPos fs.blockBits
    let pos := inode.iPos &&& (fs.blockSize - 1)
    match ← blkholderAlloc with
    | none => pure (some .enomem)
    | some _ =>
      match ← readBlock fs.blockSize blk with
      | none => pure (some .eio)
      | some data =>
        if ← writeBlock fs.blockSize blk (flushEntry data pos inode) then pure none
        else pure (some .eio)

/-! ### `sfat_create_file` -/

/-- The locals of `sfat_create_file` that are read before anything is assigned to them. -/
structure CreateJunk where
  blk : ℕ
  nextCls : ℕ

/-- What `sfat_create_file` returns: an error, or 0 with the inode the dentry was instantiated
with, if it was. -/
abbrev CreateReturn := Except Errno (Option Inode)

/-- The end of `sfat_create_file`: flush the directory, build the inode. -/
def createFinish (sbi : SbInfo) (dir : Inode) (de : SfatDirEntry) (iPos : ℕ) :
    Driver CreateReturn := do
  match ← sfatInodeWriteToHd sbi.fsInfo dir with
  | some e => pure (.error e)
  | none =>
    match ← sfatBuildInode sbi de iPos with
    | .error e => pure (.error e)
    | .ok inode => pure (.ok (some inode))

/-- Make the first slot of block `blk` of a cluster the terminator; `none` goes on. -/
def createWriteTerminator (fs : FsInfo) (cls blk : ℕ) : Driver (Option CreateReturn) := do
  let blkNo := (clsToBlk fs cls + blk) % sizeT
  match ← readBlock fs.blockSize blkNo with
  | none => pure (some (.error .eio))
  | some data =>
    if ← writeBlock fs.blockSize blkNo (putAttr data 0 sfatAttrEmptyEnd) then pure none
    else pure (some (.error .eio))

/-- Modify the first entry of the next block, if it exists; `none` goes on.  Inside a cluster only
`next_blk` is set, and `next_cls` is still the uninitialised local. -/
def createMoveTerminator (fs : FsInfo) (cls blk : ℕ) (junk : CreateJunk) :
    Driver (Option CreateReturn) :=
  if blk < fs.blkPerClus - 1 then createWriteTerminator fs junk.nextCls (blk + 1)
  else do
    match ← sfatGetEntryContent fs cls with
    | .error e => pure (some (.error e))
    | .ok next =>
      if next = sfatEntryEoc then pure none
      -- the returned `error` is 0 here
      else if fs.clusters < next then pure (some (.ok none))
      else createWriteTerminator fs next 0

/-- The branch of `sfat_create_file` for a free entry; the block of the slot is in `bh`. -/
def createInFreeSlot (sbi : SbInfo) (dir : Inode) (name : Vector UInt8 11) (tvSec : ℕ)
    (junk : CreateJunk) (slot : FreeSlot) : Driver (CreateReturn × Inode) := do
  let fs := sbi.fsInfo
  let iPos := formDirEntryPos fs slot.cls slot.blk slot.offset
  let lastValid := (direntAt slot.data slot.offset).attr = sfatAttrEmptyEnd
  let moreEntries := slot.offset < fs.blockSize - 32
  let data :=
    if lastValid ∧ moreEntries then putAttr slot.data (slot.offset + 32) sfatAttrEmptyEnd
    else slot.data
  let de := sfatFormDirEntry false name 0 0 tvSec
  if ← writeBlock fs.blockSize (clsToBlk fs slot.cls + slot.blk) (putDirent data slot.offset de) then
    let dir := { dir with iMtime := tvSec }
    if lastValid ∧ ¬moreEntries then
      match ← createMoveTerminator fs slot.cls slot.blk junk with
      | some r => pure (r, dir)
      | none => do
        let r ← createFinish sbi dir de iPos
        pure (r, dir)
    else do
      let r ← createFinish sbi dir de iPos
      pure (r, dir)
  else pure (.error .eio, dir)

/-- The branch of `sfat_create_file` for a full directory.  `blk` was never set. -/
def createInNewCluster (sbi : SbInfo) (dir : Inode) (name : Vector UInt8 11) (tvSec : ℕ)
    (junk : CreateJunk) : Driver (CreateReturn × Inode) := do
  let fs := sbi.fsInfo
  match ← sfatFatEntryAcquire fs with
  | .error e => pure (.error e, dir)
  | .ok cls =>
    match ← sfatFileAppendCls fs dir.iStart cls with
    | some e => pure (.error e, dir)
    | none =>
      let dir := { dir with
        iSize := dir.iSize + fs.clusterSize
        iBlocks := dir.iBlocks + fs.blkPerClus
        iMtime := tvSec }
      match ← readBlock fs.blockSize (clsToBlk fs cls) with
      | none => pure (.error .eio, dir)
      | some data =>
        let iPos := formDirEntryPos fs cls junk.blk 0
        let de := sfatFormDirEntry false name 0 0 tvSec
        let data := putAttr (putDirent data 0 de) 32 sfatAttrEmptyEnd
        if ← writeBlock fs.blockSize (clsToBlk fs cls) data then
          let r ← createFinish sbi dir de iPos
          pure (r, dir)
        else pure (.error .eio, dir)

/-- `sfat_create_file` on a dentry with the name `dName`; the second result is the directory. -/
def sfatCreateFile (sbi : SbInfo) (dir : Inode) (dName : List UInt8) (junk : CreateJunk) :
    Driver (CreateReturn × Inode) := do
  let name := padName dName
  match ← sfatDentryLocate sbi.fsInfo dir.iStart name with
  | .ok _ => pure (.error .eexist, dir)
  | .error e =>
    if e ≠ .enoent then pure (.error e, dir)
    else do
      match ← blkholderAlloc with
      | none => pure (.error .enomem, dir)
      | some _ =>
        match ← sfatFreeDentryLocate sbi.fsInfo dir.iStart with
        | .ok slot => do
          let tvSec ← currentTimeSec
          createInFreeSlot sbi dir name tvSec junk slot
        | .error e =>
          if e ≠ .enoent then pure (.error e, dir)
          else do
            let tvSec ← currentTimeSec
            createInNewCluster sbi dir name tvSec junk

/-- `sfat_lookup` on a dentry with the name `dName`; `.ok none` is the return value `NULL` for a
name that does not exist. -/
def sfatLookup (sbi : SbInfo) (dir : Inode) (dName : List UInt8) :
    Driver (Except Errno (Option Inode)) := do
  match ← sfatDentryLocate sbi.fsInfo dir.iStart (padName dName) with
  | .error e => if e = .enoent then pure (.ok none) else pure (.error e)
  | .ok found =>
    let iPos := formDirEntryPos sbi.fsInfo found.cls found.blk found.offset
    match ← sfatBuildInode sbi found.de iPos with
    | .error e => pure (.error e)
    | .ok inode => pure (.ok (some inode))

end SimpleFat

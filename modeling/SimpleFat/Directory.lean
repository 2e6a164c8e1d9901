import SimpleFat.FatTable

/-!
# The directory scanners

The four triple loops of `inode.c` over the clusters, blocks and slots of a directory:
`sfat_dentry_locate`, `sfat_free_dentry_locate`, `sfat_count_subdirs` and `sfat_readdir`.  Each
keeps its own bounds, its own test for the end of the chain and its own resume logic, as in the
source; `n` is always the number of rounds a loop has left.
-/

namespace SimpleFat

open SimpleFat.Lib

/-! ### `sfat_dentry_locate` -/

/-- The outputs of `sfat_dentry_locate`. -/
structure LocatedEntry where
  de : SfatDirEntry
  cls : ℕ
  blk : ℕ
  offset : ℕ

/-- The slots of one block from slot `k` on. -/
def locateSlots (name : Vector UInt8 11) (data : Page) :
    (n k : ℕ) → Loop Unit (Option (ℕ × SfatDirEntry))
  | 0, _ => .next ()
  | n + 1, k =>
    let ent := direntAt data (32 * k)
    if ent.isEnd then .out none
    else if ent.isEmpty then locateSlots name data n (k + 1)
    else if strncmpEq name ent.name then .out (some (k, ent))
    else locateSlots name data n (k + 1)

/-- The blocks of one cluster.  `read_block` gets `cur_blk++`, so a found entry reports the number
of the block after its own. -/
def locateBlocks (fs : FsInfo) (name : Vector UInt8 11) (curCls : ℕ) :
    (n curBlk : ℕ) → Driver (Loop Unit (Except Errno (Option LocatedEntry)))
  | 0, _ => pure (.next ())
  | n + 1, curBlk => do
    match ← readBlock fs.blockSize curBlk with
    | none => pure (.out (.error .eio))
    | some data =>
      match locateSlots name data fs.direntPerBlk 0 with
      | .next _ => locateBlocks fs name curCls n (curBlk + 1)
      | .out none => pure (.out (.ok none))
      | .out (some (k, ent)) => pure (.out (.ok (some ⟨ent, curCls, curBlk + 1, k * 32⟩)))

def locateClusters (fs : FsInfo) (name : Vector UInt8 11) :
    (n curCls : ℕ) → Driver (Except Errno (Option LocatedEntry))
  | 0, _ => pure (.ok none)
  | n + 1, curCls => do
    match ← locateBlocks fs name curCls fs.blkPerClus (clsToBlk fs curCls) with
    | .out r => pure r
    | .next _ =>
      match ← sfatGetEntryContent fs curCls with
      | .error e => pure (.error e)
      | .ok next =>
        if fs.clusters < next then pure (.ok none) else locateClusters fs name n next

def sfatDentryLocate (fs : FsInfo) (startCls : ℕ) (name : Vector UInt8 11) :
    Driver (Except Errno LocatedEntry) := do
  match ← blkholderAlloc with
  | none => pure (.error .enomem)
  | some _ =>
    match ← locateClusters fs name fs.clusters startCls with
    | .error e => pure (.error e)
    | .ok none => pure (.error .enoent)
    | .ok (some found) => pure (.ok found)

/-! ### `sfat_free_dentry_locate` -/

/-- The outputs of `sfat_free_dentry_locate`; `data` is the block left in `bh`. -/
structure FreeSlot where
  cls : ℕ
  blk : ℕ
  offset : ℕ
  data : Page

def freeSlots (data : Page) : (n k : ℕ) → Option ℕ
  | 0, _ => none
  | n + 1, k =>
    let ent := direntAt data (32 * k)
    if ent.isEnd || ent.isEmpty then some k else freeSlots data n (k + 1)

def freeBlocks (fs : FsInfo) (curCls : ℕ) :
    (n curBlk : ℕ) → Driver (Loop Unit (Except Errno FreeSlot))
  | 0, _ => pure (.next ())
  | n + 1, curBlk => do
    match ← readBlock fs.blockSize curBlk with
    | none => pure (.out (.error .eio))
    | some data =>
      match freeSlots data fs.direntPerBlk 0 with
      | none => freeBlocks fs curCls n (curBlk + 1)
      | some k => pure (.out (.ok ⟨curCls, curBlk - clsToBlk fs curCls, k * 32, data⟩))

def freeClusters (fs : FsInfo) : (n curCls : ℕ) → Driver (Except Errno FreeSlot)
  | 0, _ => pure (.error .enoent)
  | n + 1, curCls => do
    match ← freeBlocks fs curCls fs.blkPerClus (clsToBlk fs curCls) with
    | .out r => pure r
    | .next _ =>
      match ← sfatGetEntryContent fs curCls with
      | .error e => pure (.error e)
      | .ok next =>
        if fs.clusters < next then pure (.error .enoent) else freeClusters fs n next

def sfatFreeDentryLocate (fs : FsInfo) (startCls : ℕ) : Driver (Except Errno FreeSlot) :=
  freeClusters fs fs.clusters startCls

/-! ### `sfat_count_subdirs` -/

/-- The bound on the clusters walked: `1 + ((size + cluster_size - 1) >> cluster_bits)`. -/
def dirRounds (fs : FsInfo) (size : ℕ) : ℕ :=
  1 + ((size + (fs.clusterSize + (sizeT - 1))) % sizeT) >>> fs.clusterBits

/-- An `int` that counted up to `n`. -/
def toInt32 (n : ℕ) : ℤ :=
  if n % 2 ^ 32 < 2 ^ 31 then (n % 2 ^ 32 : ℕ) else (n % 2 ^ 32 : ℕ) - 2 ^ 32

/-- The slots of one block from offset `j` on; the loop steps `j` by 32 below `block_size`. -/
def countSlots (data : Page) : (n j count : ℕ) → Loop ℕ ℕ
  | 0, _, count => .next count
  | n + 1, j, count =>
    let de := direntAt data j
    if de.isEnd then .out count
    else if de.isEmpty then countSlots data n (j + 32) count
    else countSlots data n (j + 32) (count + 1)

/-- The blocks of one cluster from block `blk` on. -/
def countBlocks (fs : FsInfo) : (n blk count : ℕ) → Driver (Loop ℕ (Except Errno ℕ))
  | 0, _, count => pure (.next count)
  | n + 1, blk, count => do
    match ← readBlock fs.blockSize blk with
    | none => pure (.out (.error .eio))
    | some data =>
      match countSlots data ((fs.blockSize + 31) / 32) 0 count with
      | .next count => countBlocks fs n (blk + 1) count
      | .out count => pure (.out (.ok count))

/-- The clusters of the chain; a loop in the chain is found when the rounds are used up. -/
def countClusters (fs : FsInfo) : (rounds cls count : ℕ) → Driver (Except Errno ℕ)
  | 0, _, _ => pure (.error .einval)
  | rounds + 1, cls, count =>
    if sfatEntryMax ≤ cls then pure (.error .einval)
    else do
      match ← countBlocks fs fs.blkPerClus (clsToBlk fs cls) count with
      | .out r => pure (if rounds = 0 then .error .einval else r)
      | .next count =>
        match ← sfatGetEntryContent fs cls with
        | .error e => pure (if rounds = 0 then .error .einval else .error e)
        | .ok next =>
          if fs.clusters < next then pure (if rounds = 0 then .error .einval else .ok count)
          else countClusters fs rounds next count

/-- `sfat_count_subdirs` on the directory that starts at `iStart` with size `iSize`. -/
def sfatCountSubdirs (fs : FsInfo) (iStart iSize : ℕ) : Driver (Except Errno ℤ) :=
  if iSize < 32 then pure (.ok 0)
  else do
    match ← blkholderAlloc with
    | none => pure (.error .enomem)
    | some _ =>
      match ← countClusters fs (dirRounds fs iSize) iStart 0 with
      | .error e => pure (.error e)
      | .ok count => pure (.ok (toInt32 count))

/-! ### `sfat_readdir` -/

/-- The locals of `sfat_readdir` that survive its loops; `dirent` is what the callback has
accepted so far. -/
structure ReaddirState where
  error : ℤ
  cpos : ℕ
  dirent : List FilldirCall

/-- The slots of one block from `offset` on. -/
def readdirSlots (data : Page) :
    (n offset : ℕ) → ReaddirState → Driver (Loop ReaddirState ReaddirState)
  | 0, _, st => pure (.next st)
  | n + 1, offset, st =>
    let de := direntAt data offset
    if de.isEnd then pure (.out { st with cpos := st.cpos + 32 })
    else if de.isEmpty then readdirSlots data n (offset + 32) { st with cpos := st.cpos + 32 }
    else do
      let ino ← iunique sfatRootIno
      let call : FilldirCall :=
        { name := de.name, len := strLen (fun i => data (offset + i)) 11 0, pos := st.cpos,
          ino := ino, isDir := de.isDir }
      let error ← filldir call
      let accepted : ReaddirState :=
        { error := error, cpos := st.cpos + 32, dirent := st.dirent ++ [call] }
      if error < 0 then pure (.out { st with error := error })
      else readdirSlots data n (offset + 32) accepted

/-- The blocks of one cluster from `blk_off` on; only the first one is entered at `offset`. -/
def readdirBlocks (fs : FsInfo) :
    (n blk offset : ℕ) → ReaddirState → Driver (Loop ReaddirState ReaddirState)
  | 0, _, _, st => pure (.next st)
  | n + 1, blk, offset, st => do
    match ← readBlock fs.blockSize blk with
    | none => pure (.out { st with error := Errno.eio.code })
    | some data =>
      match ← readdirSlots data ((fs.blockSize - offset + 31) / 32) offset { st with error := 0 } with
      | .out st => pure (.out st)
      | .next st => readdirBlocks fs n (blk + 1) 0 st

/-- The clusters of the chain, the first one entered at block `blkOff` and byte `offset`. -/
def readdirClusters (fs : FsInfo) :
    (rounds cls blkOff offset : ℕ) → ReaddirState → Driver ReaddirState
  | 0, _, _, _, st => pure { st with error := Errno.einval.code }
  | rounds + 1, cls, blkOff, offset, st => do
    match ← readdirBlocks fs (fs.blkPerClus - blkOff) (clsToBlk fs cls + blkOff) offset st with
    | .out st => pure (if rounds = 0 then { st with error := Errno.einval.code } else st)
    | .next st =>
      match ← sfatGetEntryContent fs cls with
      | .error e => pure { st with error := if rounds = 0 then Errno.einval.code else e.code }
      | .ok next =>
        if fs.clusters < next then
          pure { st with error := if rounds = 0 then Errno.einval.code else 0 }
        else readdirClusters fs rounds next 0 0 { st with error := 0 }

/-- `sfat_readdir` on an open directory whose position is `fPos`. -/
def sfatReaddir (fs : FsInfo) (iStart iSize fPos : ℕ) : Driver ReaddirState :=
  let fail (e : ℤ) : ReaddirState := { error := e, cpos := fPos, dirent := [] }
  if iSize < 32 then pure (fail 0)
  else if iSize ≤ fPos then pure (fail Errno.einval.code)
  else if fPos % 32 ≠ 0 then pure (fail Errno.enoent.code)
  else do
    match ← sfatSeek fs iStart fPos with
    | .error e => pure (fail e.code)
    | .ok (cls, offset) =>
      match ← blkholderAlloc with
      | none => pure (fail Errno.enomem.code)
      | some _ =>
        readdirClusters fs (dirRounds fs iSize) cls (offset >>> fs.blockBits)
          (offset &&& (fs.blockSize - 1)) (fail 0)

end SimpleFat

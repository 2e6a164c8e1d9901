import SimpleFat.Inodes

/-!
# File contents

`sfat_write_cluster` and `sfat_read_cluster` move bytes between user space and one cluster,
`sfat_sync_write` and `sfat_sync_read` are the file operations.  A user buffer is a function from
positions to bytes; advancing the pointer is `window`.
-/

namespace SimpleFat

open SimpleFat.Lib

/-! ### `sfat_write_cluster` -/

/-- The locals of `sfat_write_cluster` that change. -/
structure WriteClusterState where
  buf : ℕ → UInt8
  blk : ℕ
  retLen : ℕ
  len : ℕ

/-- After `n` more bytes were written to the current block. -/
def WriteClusterState.advance (st : WriteClusterState) (n : ℕ) : WriteClusterState where
  buf := window st.buf n
  blk := st.blk + 1
  retLen := st.retLen + n
  len := st.len - n

/-- Copy `n` bytes into the page at `off` and write the page out. -/
def copyAndWrite (fs : FsInfo) (st : WriteClusterState) (data : Page) (off n : ℕ) :
    Driver (Loop WriteClusterState (ℕ × Option Errno)) := do
  let copied ← copyFromUser n
  if copied ≠ 0 then pure (.out (st.retLen, none))
  else
    if ← writeBlock fs.blockSize st.blk (patch data off n st.buf) then pure (.next (st.advance n))
    else pure (.out (st.retLen, some .eio))

/-- The first phase: the offset isn't on the block edge. -/
def writeFirstBlock (fs : FsInfo) (st : WriteClusterState) (blkOffset : ℕ) :
    Driver (Loop WriteClusterState (ℕ × Option Errno)) :=
  if blkOffset = 0 then pure (.next st)
  else do
    match ← readBlock fs.blockSize st.blk with
    | none => pure (.out (st.retLen, some .eio))
    | some data => copyAndWrite fs st data blkOffset (min st.len (fs.blockSize - blkOffset))

/-- The second phase: whole blocks, written without reading them.  The copy overwrites the whole
block, so what the page held before is left out. -/
def writeWholeBlocks (fs : FsInfo) :
    (fuel : ℕ) → WriteClusterState → Driver (Loop WriteClusterState (ℕ × Option Errno))
  | 0, st => pure (.next st)
  | fuel + 1, st =>
    if fs.blockSize ≤ st.len then do
      match ← copyAndWrite fs st st.buf 0 fs.blockSize with
      | .out r => pure (.out r)
      | .next st => writeWholeBlocks fs fuel st
    else pure (.next st)

/-- The third phase: the rest, in one block. -/
def writeLastBlock (fs : FsInfo) (st : WriteClusterState) : Driver (ℕ × Option Errno) :=
  if st.len = 0 then pure (st.retLen, none)
  else do
    match ← readBlock fs.blockSize st.blk with
    | none => pure (st.retLen, some .eio)
    | some data =>
      match ← copyAndWrite fs st data 0 st.len with
      | .out r => pure r
      | .next st => pure (st.retLen, none)

/-- `sfat_write_cluster`: the length written and the error.  Every round of the second phase takes
`block_size` bytes, so the fuel `len` is enough. -/
def sfatWriteCluster (fs : FsInfo) (buf : ℕ → UInt8) (len cls offset : ℕ) :
    Driver (ℕ × Option Errno) := do
  let st : WriteClusterState :=
    { buf := buf, blk := clsToBlk fs cls + offset >>> fs.blockBits, retLen := 0, len := len }
  match ← blkholderAlloc with
  | none => pure (0, some .enomem)
  | some _ =>
    match ← writeFirstBlock fs st (offset &&& (fs.blockSize - 1)) with
    | .out r => pure r
    | .next st =>
      match ← writeWholeBlocks fs st.len st with
      | .out r => pure r
      | .next st => writeLastBlock fs st

/-! ### `sfat_sync_write` -/

/-- The locals of `sfat_sync_write` that its loops change, and `*ppos`. -/
structure SyncWriteState where
  curCls : ℕ
  ppos : ℕ
  len : ℕ
  buf : ℕ → UInt8
  accuLen : ℕ

/-- After `n` more bytes were written. -/
def SyncWriteState.advance (st : SyncWriteState) (n : ℕ) : SyncWriteState :=
  { st with ppos := st.ppos + n, len := st.len - n, buf := window st.buf n,
            accuLen := st.accuLen + n }

/-- Write to the current cluster from `offset` on.  A short write is a `goto end`; the length that
was written is reported with it. -/
def writeChunk (fs : FsInfo) (st : SyncWriteState) (offset : ℕ) :
    Driver (Loop SyncWriteState (SyncWriteState × ℕ)) := do
  let writeLen := min st.len (fs.clusterSize - offset)
  let (retLen, _) ← sfatWriteCluster fs st.buf writeLen st.curCls offset
  if retLen < writeLen then pure (.out (st.advance retLen, retLen))
  else pure (.next (st.advance retLen))

/-- The walk over the clusters the file already has.  A round takes at least one byte if
`cluster_size` is not 0; `none` is a loop that makes no progress. -/
def writeExisting (fs : FsInfo) :
    (fuel : ℕ) → SyncWriteState → Driver (Option (Loop SyncWriteState SyncWriteState))
  | fuel, st =>
    if st.len = 0 then pure (some (.next st))
    else match fuel with
      | 0 => pure none
      | fuel + 1 => do
        match ← sfatGetEntryContent fs st.curCls with
        | .error _ => pure (some (.out st))
        | .ok next =>
          let st := { st with curCls := next }
          if next < sfatEntryMax then
            match ← writeChunk fs st 0 with
            | .out (st, _) => pure (some (.out st))
            | .next st => writeExisting fs fuel st
          else pure (some (.next st))

/-- The loop that adds new clusters. -/
def writeNew (fs : FsInfo) : (fuel : ℕ) → SyncWriteState → Driver (Option SyncWriteState)
  | fuel, st =>
    if st.len = 0 then pure (some st)
    else match fuel with
      | 0 => pure none
      | fuel + 1 => do
        match ← sfatFatEntryAcquire fs with
        | .error _ => pure (some st)
        | .ok newCls =>
          match ← sfatFatEntryModify fs st.curCls newCls with
          | some _ => pure (some st)
          | none =>
            match ← writeChunk fs { st with curCls := newCls } 0 with
            | .out (st, _) => pure (some st)
            | .next st => writeNew fs fuel st

/-- The branch for a position inside the file or a size that is no multiple of the block size. -/
def writeInside (fs : FsInfo) (st : SyncWriteState) :
    Driver (Except Errno (Option (Loop SyncWriteState SyncWriteState))) := do
  match ← sfatSeek fs st.curCls st.ppos with
  | .error e => pure (.error e)
  | .ok (cls, offset) =>
    match ← writeChunk fs { st with curCls := cls } offset with
    | .out (st, _) => pure (.ok (some (.out st)))
    | .next st => do
      let r ← writeExisting fs st.len st
      pure (.ok r)

/-- The branch for the end of a file whose size is a multiple of the block size.  The second
result is the new `i_start`, if it is set. -/
def writeAtEnd (fs : FsInfo) (st : SyncWriteState) (fsize : ℕ) :
    Driver (Loop SyncWriteState SyncWriteState × Option ℕ) :=
  if 0 < fsize then do
    match ← sfatSeek fs st.curCls (st.ppos - 1) with
    | .error _ => pure (.out st, none)
    | .ok (cls, _) => pure (.next { st with curCls := cls }, none)
  else do
    match ← sfatFatEntryAcquire fs with
    | .error _ => pure (.out st, none)
    | .ok newCls =>
      match ← writeChunk fs { st with curCls := newCls } 0 with
      | .out (st, retLen) => pure (.out st, if 0 < retLen then some newCls else none)
      | .next st => pure (.next st, some newCls)

/-- The label `end` of `sfat_sync_write`: size, times, and the flush whose error is dropped. -/
def writeEnd (fs : FsInfo) (inode : Inode) (st : SyncWriteState) :
    Driver (Except Errno ℕ × Inode × ℕ) := do
  let fsize := max inode.iSize st.ppos
  let tvSec ← currentTimeSec
  let inode := { inode with
    iSize := fsize
    iMtime := tvSec
    iAtime := tvSec
    iBlocks := consumedBlocks fsize fs.clusterSize fs.blockBits }
  let _ ← sfatInodeWriteToHd fs inode
  pure (.ok st.accuLen, inode, st.ppos)

/-- The rest of `sfat_sync_write` after its first branch: add clusters, then `end`. -/
def writeRest (fs : FsInfo) (inode : Inode) (ppos : ℕ) :
    Option (Loop SyncWriteState SyncWriteState) → Driver (Except Errno ℕ × Inode × ℕ)
  | none => pure (.error .noReturn, inode, ppos)
  | some (.out st) => writeEnd fs inode st
  | some (.next st) => do
    match ← writeNew fs st.len st with
    | none => pure (.error .noReturn, inode, ppos)
    | some st => writeEnd fs inode st

/-- `sfat_sync_write`: the returned value, the inode and `*ppos` afterwards. -/
def sfatSyncWrite (fs : FsInfo) (inode : Inode) (buf : ℕ → UInt8) (len ppos : ℕ) :
    Driver (Except Errno ℕ × Inode × ℕ) :=
  let fsize := inode.iSize
  let st : SyncWriteState :=
    { curCls := inode.iStart, ppos := ppos, len := len, buf := buf, accuLen := 0 }
  if fsize < ppos ∨ len = 0 then pure (.error .einval, inode, ppos)
  else if fsize &&& (fs.blockSize - 1) ≠ 0 ∨ ppos < fsize then do
    match ← writeInside fs st with
    | .error e => pure (.error e, inode, ppos)
    | .ok r => writeRest fs inode ppos r
  else do
    let (r, newStart) ← writeAtEnd fs st fsize
    let inode := { inode with iStart := newStart.getD inode.iStart }
    writeRest fs inode ppos (some r)

/-! ### `sfat_read_cluster` and `sfat_sync_read` -/

/-- The loop of `sfat_read_cluster`.  Every round takes at least one byte, so the fuel `len` is
enough; `out` is what user space has received. -/
def readClusterLoop (fs : FsInfo) :
    (fuel len blk blkOffset : ℕ) → (out : List UInt8) → Driver (List UInt8 × Option Errno)
  | 0, _, _, _, out => pure (out, none)
  | fuel + 1, len, blk, blkOffset, out =>
    if len = 0 then pure (out, none)
    else do
      match ← readBlock fs.blockSize blk with
      | none => pure (out, some .eio)
      | some data =>
        let readLen := min len (fs.blockSize - blkOffset)
        let copied ← copyToUser readLen
        let delivered := (List.range (readLen - copied)).map fun i => data (blkOffset + i)
        if copied ≠ 0 then pure (out ++ delivered, none)
        else readClusterLoop fs fuel (len - readLen) (blk + 1) 0 (out ++ delivered)

/-- `sfat_read_cluster`: the bytes delivered to user space, whose number is the returned length,
and the error. -/
def sfatReadCluster (fs : FsInfo) (len cls offset : ℕ) : Driver (List UInt8 × Option Errno) := do
  match ← blkholderAlloc with
  | none => pure ([], some .enomem)
  | some _ =>
    readClusterLoop fs len len (clsToBlk fs cls + offset >>> fs.blockBits)
      (offset &&& (fs.blockSize - 1)) []

/-- `sfat_sync_read`: the bytes delivered, whose number is the returned value, the inode and
`*ppos` afterwards.  Just the first cluster is read. -/
def sfatSyncRead (fs : FsInfo) (inode : Inode) (len ppos : ℕ) :
    Driver (List UInt8 × Inode × ℕ) :=
  let fsize := inode.iSize
  if fsize ≤ ppos then pure ([], inode, ppos)
  else
    let len := if fsize < (ppos + len) % sizeT then fsize - ppos else len
    if fs.clusterSize ≤ ppos then pure ([], inode, ppos)
    else
      let len := if fs.clusterSize < (ppos + len) % sizeT then fs.clusterSize - ppos else len
      if len = 0 then pure ([], inode, ppos)
      else if sfatEntryMax < inode.iStart then pure ([], inode, ppos)
      else do
        let (out, _) ← sfatReadCluster fs len inode.iStart ppos
        let tvSec ← currentTimeSec
        let inode := { inode with iAtime := tvSec }
        let _ ← sfatInodeWriteToHd fs inode
        pure (out, inode, ppos + out.length)

end SimpleFat

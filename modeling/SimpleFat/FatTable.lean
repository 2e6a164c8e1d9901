import SimpleFat.Device

/-!
# The FAT

The functions of `inode.c` that read and change FAT words: `sfat_get_entry_content`,
`sfat_seek`, `sfat_fat_entry_acquire`, `sfat_fat_entry_modify` and `sfat_file_append_cls`.  A loop
of the source is a recursive definition over the rounds it has left.
-/

namespace SimpleFat

open SimpleFat.Lib

/-- A loop body either goes on with the loop or leaves it, through `goto` or `return`. -/
inductive Loop (σ ρ : Type) where
  | next (s : σ)
  | out (r : ρ)

def fatBlk (fs : FsInfo) (cls : ℕ) : ℕ := cls >>> (fs.blockBits - 2) + fs.fatStartBlk

def fatPos (fs : FsInfo) (cls : ℕ) : ℕ :=
  (cls - (cls >>> (fs.blockBits - 2)) <<< (fs.blockBits - 2)) <<< 2

def sfatGetEntryContent (fs : FsInfo) (cls : ℕ) : Driver (Except Errno ℕ) :=
  if fs.clustersPred ≤ cls then pure (.error .einval)
  else do
    match ← blkholderAlloc with
    | none => pure (.error .enomem)
    | some addr =>
      match ← readBlock fs.blockSize (fatBlk fs cls) with
      | none => pure (.error .eio)
      | some data =>
        let next ← le32OfPointer addr (fatBlk fs cls) (fatPos fs cls) data
        pure (.ok next)

/-- The loop of `sfat_seek`.  A round lowers `pos` by `cluster_size`, so the fuel `pos` is enough
unless `cluster_size` is 0. -/
def sfatSeekLoop (fs : FsInfo) : (fuel curCls pos : ℕ) → Driver (Except Errno (ℕ × ℕ))
  | fuel, curCls, pos =>
    if fs.clusterSize ≤ pos then
      match fuel with
      | 0 => pure (.error .noReturn)
      | fuel + 1 => do
        match ← sfatGetEntryContent fs curCls with
        | .error e => pure (.error e)
        | .ok next =>
          if fs.clusters < next then pure (.error .einval)
          else sfatSeekLoop fs fuel next (pos - fs.clusterSize)
    else pure (.ok (curCls, pos))

/-- `sfat_seek`: the cluster and the offset in it of position `pos`, counted from `curCls`. -/
def sfatSeek (fs : FsInfo) (curCls pos : ℕ) : Driver (Except Errno (ℕ × ℕ)) :=
  if fs.clustersPred ≤ curCls then pure (.error .einval)
  else sfatSeekLoop fs pos curCls pos

/-- The inner loop of `sfat_fat_entry_acquire`: the first free word from index `k` on, among the
next `n` words of a block. -/
def findFree (data : Page) : (n k : ℕ) → Option ℕ
  | 0, _ => none
  | n + 1, k => if le32 data (4 * k) = sfatEntryFree then some k else findFree data n (k + 1)

/-- The outer loop of `sfat_fat_entry_acquire` over the `n` blocks from `blk` on. -/
def acquireBlocks (fs : FsInfo) : (n blk : ℕ) → Driver (Except Errno ℕ)
  | 0, _ => pure (.error .enoent)
  | n + 1, blk => do
    match ← readBlock fs.blockSize blk with
    | none => pure (.error .eio)
    | some data =>
      match findFree data (fs.blockSize / 4) 0 with
      | none => acquireBlocks fs n (blk + 1)
      | some k =>
        if ← writeBlock fs.blockSize blk (putLe32 data (4 * k) sfatEntryEoc) then
          pure (.ok ((blk - fs.fatStartBlk) <<< (fs.blockBits - 2) + k))
        else pure (.error .eio)

def sfatFatEntryAcquire (fs : FsInfo) : Driver (Except Errno ℕ) := do
  match ← blkholderAlloc with
  | none => pure (.error .enomem)
  | some _ => acquireBlocks fs fs.fatLengthBlk fs.fatStartBlk

/-- `sfat_fat_entry_modify`; `none` is the return value 0. -/
def sfatFatEntryModify (fs : FsInfo) (cls attr : ℕ) : Driver (Option Errno) :=
  if fs.clustersPred ≤ cls then pure (some .einval)
  else do
    match ← blkholderAlloc with
    | none => pure (some .enomem)
    | some _ =>
      match ← readBlock fs.blockSize (fatBlk fs cls) with
      | none => pure (some .eio)
      | some data =>
        if ← writeBlock fs.blockSize (fatBlk fs cls) (putLe32 data (fatPos fs cls) attr) then
          pure none
        else pure (some .eio)

/-- The loop of `sfat_file_append_cls`. -/
def appendLoop (fs : FsInfo) (endCls : ℕ) : (counter curCls : ℕ) → Driver (Option Errno)
  | 0, _ => pure (some .einval)
  | counter + 1, curCls => do
    match ← sfatGetEntryContent fs curCls with
    | .error e => pure (some e)
    | .ok next =>
      if next = sfatEntryEoc then sfatFatEntryModify fs curCls endCls
      else if fs.clusters < next then pure (some .einval)
      else appendLoop fs endCls counter next

def sfatFileAppendCls (fs : FsInfo) (startCls endCls : ℕ) : Driver (Option Errno) :=
  appendLoop fs endCls fs.clusters startCls

end SimpleFat

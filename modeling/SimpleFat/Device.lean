import SimpleFat.Lib.Program
import SimpleFat.VolumeLayout

/-!
# What the driver asks of the kernel

Every effect of the driver is a request: `read_block` and `write_block` on the device, the page of
a `block_holder`, the user copies, the clock, a fresh inode, the `filldir` callback.  `Driver` is
the monad of programs over these requests and `Host` is an environment: which requests may fail,
and what a FAT lookup delivers.

The FAT lookup is a request of its own because of the expression
`le32_to_cpu((__le32 *)(sfat_blkholder_get_data(bh) + pos))` in `sfat_get_entry_content`: it
converts the pointer, not the word it points to.  `Host.code` answers it with the low 32 bits of
that address, as the expression does; `Host.lookups` answers it by a given function, and
`storedWord` is the function that delivers the word of the FAT.
-/

namespace SimpleFat

open SimpleFat.Lib

/-- The bytes of the volume. -/
abbrev Vol := ℕ → UInt8

/-- The page of a `block_holder`; its first `block_size` bytes are the block. -/
abbrev Page := ℕ → UInt8

/-- What a recycled `struct sfat_inode_info` still holds. -/
structure StaleInfo where
  iStart : ℕ
  iAttrs : UInt8
  iPos : ℕ

structure FilldirCall where
  name : Vector UInt8 11
  len : ℕ
  pos : ℕ
  ino : ℕ
  isDir : Bool

inductive Request where
  /-- `sfat_blkholder_alloc` -/
  | blkholderAlloc
  /-- `read_block` -/
  | readBlock (blkSz blkNo : ℕ)
  /-- `write_block` -/
  | writeBlock (blkSz blkNo : ℕ) (data : Page)
  /-- `le32_to_cpu((__le32 *)(data + pos))` on the page at `addr`, which holds block `blk` -/
  | le32OfPointer (addr blk pos : ℕ) (data : Page)
  /-- `copy_from_user` -/
  | copyFromUser (len : ℕ)
  /-- `copy_to_user` -/
  | copyToUser (len : ℕ)
  /-- `CURRENT_TIME_SEC`, `get_seconds` -/
  | currentTimeSec
  /-- `new_inode` -/
  | newInode
  /-- `iunique` -/
  | iunique (maxReserved : ℕ)
  /-- `d_alloc_root` -/
  | dAllocRoot
  /-- the callback of `readdir` -/
  | filldir (call : FilldirCall)

abbrev Answer : Request → Type
  | .blkholderAlloc => Option ℕ
  | .readBlock _ _ => Option Page
  | .writeBlock _ _ _ => Bool
  | .le32OfPointer _ _ _ _ => ℕ
  | .copyFromUser _ => ℕ
  | .copyToUser _ => ℕ
  | .currentTimeSec => ℕ
  | .newInode => Option StaleInfo
  | .iunique _ => ℕ
  | .dAllocRoot => Bool
  | .filldir _ => ℤ

abbrev Driver := Program Request Answer

def ask (c : Request) : Driver (Answer c) := Program.request c

/-- `sfat_blkholder_alloc`: the address of the new page. -/
def blkholderAlloc : Driver (Option ℕ) := ask .blkholderAlloc

/-- `read_block`: `none` is `-EIO`. -/
def readBlock (blkSz blkNo : ℕ) : Driver (Option Page) := ask (.readBlock blkSz blkNo)

/-- `write_block`: `false` is `-EIO`. -/
def writeBlock (blkSz blkNo : ℕ) (data : Page) : Driver Bool :=
  ask (.writeBlock blkSz blkNo data)

/-- The lookup expression of `sfat_get_entry_content`. -/
def le32OfPointer (addr blk pos : ℕ) (data : Page) : Driver ℕ :=
  ask (.le32OfPointer addr blk pos data)

/-- `copy_from_user`: the number of bytes that could not be copied. -/
def copyFromUser (len : ℕ) : Driver ℕ := ask (.copyFromUser len)

/-- `copy_to_user`: the number of bytes that could not be copied. -/
def copyToUser (len : ℕ) : Driver ℕ := ask (.copyToUser len)

def currentTimeSec : Driver ℕ := ask .currentTimeSec

def newInode : Driver (Option StaleInfo) := ask .newInode

def iunique (maxReserved : ℕ) : Driver ℕ := ask (.iunique maxReserved)

def dAllocRoot : Driver Bool := ask .dAllocRoot

def filldir (call : FilldirCall) : Driver ℤ := ask (.filldir call)

/-! ### Environments -/

def blockAt (v : Vol) (blkSz blkNo : ℕ) : Page := window v (blkNo * blkSz)

def putBlock (v : Vol) (blkSz blkNo : ℕ) (data : Page) : Vol := patch v (blkNo * blkSz) blkSz data

/-- An environment: which requests may fail, and what a FAT lookup may deliver. -/
structure Host where
  mayFail : Request → Prop
  lookup : (addr blk pos : ℕ) → Page → ℕ → Prop

/-- The answers of an environment.  A failing `write_block` leaves its block unchanged; `filldir`
accepts an entry with 0 or refuses it with an error code. -/
def Host.world (H : Host) : World Vol Request Answer := fun v c r v' =>
  match c, r with
  | .blkholderAlloc, r => v' = v ∧ (r = none → H.mayFail .blkholderAlloc)
  | .readBlock sz b, r =>
      v' = v ∧ (r = some (blockAt v sz b) ∨ r = none ∧ H.mayFail (.readBlock sz b))
  | .writeBlock sz b d, r =>
      r = true ∧ v' = putBlock v sz b d ∨ r = false ∧ v' = v ∧ H.mayFail (.writeBlock sz b d)
  | .le32OfPointer a b p d, r => v' = v ∧ H.lookup a b p d r
  | .copyFromUser n, (r : ℕ) => v' = v ∧ r ≤ n ∧ (r ≠ 0 → H.mayFail (.copyFromUser n))
  | .copyToUser n, (r : ℕ) => v' = v ∧ r ≤ n ∧ (r ≠ 0 → H.mayFail (.copyToUser n))
  | .currentTimeSec, _ => v' = v
  | .newInode, r => v' = v ∧ (r = none → H.mayFail .newInode)
  | .iunique m, (r : ℕ) => v' = v ∧ m < r
  | .dAllocRoot, r => v' = v ∧ (r = false → H.mayFail .dAllocRoot)
  | .filldir call, (r : ℤ) => v' = v ∧ (r = 0 ∨ r < 0 ∧ H.mayFail (.filldir call))

/-- The environment of the code as it stands: a FAT lookup delivers the low 32 bits of the address
of the word. -/
def Host.code (mayFail : Request → Prop) : Host where
  mayFail := mayFail
  lookup addr _ pos _ r := r = (addr + pos) % 2 ^ 32

/-- An environment whose FAT lookups are a function of the block, the position and the page. -/
def Host.lookups (mayFail : Request → Prop) (look : (blk pos : ℕ) → Page → ℕ) : Host where
  mayFail := mayFail
  lookup _ blk pos data r := r = look blk pos data

/-- The lookup that delivers the stored word. -/
def storedWord (_blk pos : ℕ) (data : Page) : ℕ := le32 data pos

/-- Only `filldir` may fail: it refuses some entries. -/
def refusing (refuse : FilldirCall → Prop) : Request → Prop
  | .filldir call => refuse call
  | _ => False

abbrev noFailure : Request → Prop := refusing fun _ => False

theorem not_noFailure (c : Request) : ¬ noFailure c := by
  cases c <;> exact id

end SimpleFat

import SimpleFat.Device

/-!
# The format tool

`app/format.cpp`: the layout computed from the sector count of the block device, and the sequence
of writes that lays it out.  The arithmetic is that of `size_t`; a division by zero traps, which is
`none`.
-/

namespace SimpleFat

open SimpleFat.Lib

def bytesPerSector : ℕ := 512
def sectorsPerCluster : ℕ := 4
def reserveSectors : ℕ := 10

/-- Two FAT tables on the disk. -/
def sfatNo : ℕ := 2

def subSizeT (a b : ℕ) : ℕ := (a + sizeT - b) % sizeT

structure FormatLayout where
  sectors : ℕ
  fatLengthSectors : ℕ
  clusters : ℕ
  deriving DecidableEq

/-- The layout for a device of `getsize` sectors of 512 bytes and logical sectors of `getss`
bytes. -/
def formatLayout (getss getsize : ℕ) : Option FormatLayout :=
  if getss = 0 ∨ bytesPerSector / getss = 0 then none
  else
    let sectors := getsize / (bytesPerSector / getss)
    let clusters := subSizeT (subSizeT sectors 1) reserveSectors / sectorsPerCluster
    let clusters := if sfatEntryMax < clusters then sfatEntryMax else clusters
    let fatLengthSectors := (clusters * 4 + bytesPerSector - 1) / bytesPerSector
    let fatLengthClusters :=
      (sfatNo * fatLengthSectors + sectorsPerCluster - 1) / sectorsPerCluster
    some { sectors := sectors
           fatLengthSectors := fatLengthSectors
           clusters := subSizeT clusters fatLengthClusters }

/-- The 42 packed bytes of the boot sector; the fields that are not set are 0. -/
def formatBootSector (L : FormatLayout) : ℕ → UInt8 :=
  let b : ℕ → UInt8 := fun i =>
    if i = 11 then UInt8.ofNat sfatMedia
    else if i = 14 then UInt8.ofNat sectorsPerCluster
    else if i = 21 then UInt8.ofNat sfatNo
    else 0
  let b := patch b 12 2 (le32Bytes bytesPerSector)
  let b := patch b 15 2 (le32Bytes reserveSectors)
  let b := putLe32 b 17 L.fatLengthSectors
  let b := putLe32 b 22 L.sectors
  let b := putLe32 b 26 L.clusters
  let b := putLe32 b 30 0
  putLe32 b 34 1

def freeFatBlock : ℕ → UInt8 := fun i => le32Bytes sfatEntryFree (i % 4)

structure FormatState where
  vol : Vol
  off : ℕ

def FormatState.write (st : FormatState) (data : ℕ → UInt8) : FormatState where
  vol := patch st.vol st.off 512 data
  off := st.off + 512

def formatRounds : (n : ℕ) → FormatState → FormatState
  | 0, st => st
  | n + 1, st => formatRounds n (st.write freeFatBlock)

/-- One FAT table: the root dir consumes only one cluster. -/
def formatFat (L : FormatLayout) (st : FormatState) : FormatState :=
  formatRounds (L.fatLengthSectors - 1) (st.write (putLe32 freeFatBlock 0 sfatEntryEoc))

/-- The writes of the tool: boot sector, FAT tables, the first sector of the root directory. -/
def formatVolume (L : FormatLayout) (v : Vol) : Vol :=
  let st : FormatState :=
    { vol := patch v 0 42 (formatBootSector L), off := (1 + reserveSectors) * bytesPerSector }
  let st := formatFat L (formatFat L st)
  (st.write (putAttr freeFatBlock 0 sfatAttrEmptyEnd)).vol

end SimpleFat

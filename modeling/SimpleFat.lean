import SimpleFat.FileData
import SimpleFat.AllocatorRange
import SimpleFat.Enumeration
import SimpleFat.FatArray
import SimpleFat.FormatMount
import SimpleFat.MountRegions
import SimpleFat.ChainInside
import SimpleFat.ReadFile
import SimpleFat.WriteComplete
import SimpleFat.CreateNames
import SimpleFat.CreateFrame
import SimpleFat.ClusterTransfer
import SimpleFat.InodeFlush
import SimpleFat.ChainAppend
import SimpleFat.AllocationRun
import SimpleFat.ChainGrowth
import SimpleFat.EmptyFile
import SimpleFat.StoredSize
import SimpleFat.FormatArithmetic
import SimpleFat.DirectoryLeak
import SimpleFat.CreateAtomic
import SimpleFat.SeekExact
import SimpleFat.SlotCodec
import SimpleFat.DirectoryInode
import SimpleFat.FatCopies
import SimpleFat.FatRaces
import SimpleFat.DirectoryRaces
import SimpleFat.Remount
import SimpleFat.VolumeRuns
import SimpleFat.CallCuts
import SimpleFat.ListingRuns
import SimpleFat.CapacityRuns
import SimpleFat.ServedRuns
import SimpleFat.LookupReads

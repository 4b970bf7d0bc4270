import Mofs.Holes
import Mofs.DirMap
import Mofs.FreshVolume
import Mofs.RenameFail
import Mofs.Permission
import Mofs.ListingRun
import Mofs.Concurrent
import Mofs.Isolation
import Mofs.Ownership
import Mofs.Regions
import Mofs.Posix
import Mofs.ZephyrFlat
import Mofs.CacheAgree
import Mofs.GrowCrash
import Mofs.DataWrite
import Mofs.FailedCall
import Mofs.Shrink
import Mofs.FreedSlot
import Mofs.Iteration
import Mofs.StoredEntry
import Mofs.WriteFault
import Mofs.ReleaseFault
import Mofs.BitmapExact
import Mofs.InodeArray
import Mofs.Mapping
import Mofs.WalkEnd
import Mofs.ScratchBuffer
import Mofs.PathFold
import Mofs.DotEntries
import Mofs.LookupFault
import Mofs.CallStep
import Mofs.CallData
import Mofs.CallRun
import Mofs.TreeRun
import Mofs.HandleRun
import Mofs.AncestorWalk
import Mofs.Lib.Fallback
import Mofs.PatchCalls
import Mofs.Builds
import Mofs.BuildsAgree
import Mofs.Unmount
import Mofs.FileSystem
import Mofs.FsView
import Mofs.FsStep
import Mofs.FsMove
import Mofs.FsData
import Mofs.FsCalls
import Mofs.Lib.Simulation
import Mofs.FsRun
import Mofs.FsAccess
import Mofs.FsStream
import Mofs.CacheLru

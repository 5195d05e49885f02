import Pke.Tree
import Pke.Inv
import Pke.Lookup
import Pke.Tokenizer
import Pke.FileSpec
import Pke.FileOps
import Pke.NameOps
import Pke.DirOps
import Pke.Boot
import Pke.Calls
import Pke.Replay
import Pke.Ownership
import Pke.LinkCounts
import Pke.Descriptors
import Pke.DirSessions
import Pke.Coherence
import Pke.Readdir
import Pke.Remount
import Pke.Records
import Pke.HashChains
import Pke.Unlink
import Pke.FilePaths
import Pke.Hostfs
import Pke.HostNames
import Pke.HostHandles
import Pke.BlockTable
import Pke.ElfImage
import Pke.Fork
import Pke.ForkHeap
import Pke.ForkImage
import Pke.BlockWalk
import Pke.HostPaths
import Pke.Print
import Pke.TimeSlices
import Pke.DirListing
import Pke.InodeScan
import Pke.InodeArray
import Pke.CrossLinks
import Pke.KernelVm
import Pke.UserIo
import Pke.RamDisk
import Pke.FdTable

import SuperBadBlock.Lib.Traced
import SuperBadBlock.Lib.Footprint
import SuperBadBlock.Lib.Grouping
import SuperBadBlock.Lib.KeyedFold
import SuperBadBlock.Lib.VersionGate
import SuperBadBlock.Lib.Generations
import SuperBadBlock.Lib.Reordering
import SuperBadBlock.Lib.EndAround
import SuperBadBlock.Lib.BitErrors
import SuperBadBlock.Lib.NamedTree
import SuperBadBlock.Lib.Descent
import SuperBadBlock.Lib.Outline
import SuperBadBlock.Lib.Printf
import SuperBadBlock.Lib.Tiling
import SuperBadBlock.Lib.Stores
import SuperBadBlock.Lib.Interrupts
import SuperBadBlock.Memory
import SuperBadBlock.Memory.Bytes
import SuperBadBlock.Apfs
import SuperBadBlock.Checksum
import SuperBadBlock.Checksum.Theorems
import SuperBadBlock.Checksum.Fletcher
import SuperBadBlock.Hexdump
import SuperBadBlock.FileSystem
import SuperBadBlock.FileSystem.Consistent
import SuperBadBlock.FileSystem.Reopen
import SuperBadBlock.FileSystem.Path
import SuperBadBlock.FileSystem.Lookup
import SuperBadBlock.FileSystem.DumpTree
import SuperBadBlock.FileSystem.Outline
import SuperBadBlock.FileSystem.TreeText
import SuperBadBlock.FileSystem.Clear
import SuperBadBlock.FileSystem.Read
import SuperBadBlock.FileSystem.Read.Loop
import SuperBadBlock.FileSystem.Read.Theorems
import SuperBadBlock.FileSystem.Read.Provenance
import SuperBadBlock.FileSystem.Read.Preallocated
import SuperBadBlock.ApfsScanner
import SuperBadBlock.ApfsScanner.Records
import SuperBadBlock.ApfsScanner.Steps
import SuperBadBlock.ApfsScanner.Runs
import SuperBadBlock.ApfsScanner.Gate
import SuperBadBlock.ApfsScanner.Image
import SuperBadBlock.ApfsScanner.Events
import SuperBadBlock.ApfsScanner.Database
import SuperBadBlock.ApfsScanner.Attributes
import SuperBadBlock.ApfsScanner.Extents
import SuperBadBlock.ApfsScanner.Newest
import SuperBadBlock.ApfsScanner.Boundaries
import SuperBadBlock.ApfsScanner.Unchanged
import SuperBadBlock.ApfsScanner.Rescan
import SuperBadBlock.ApfsScanner.IndexNodes
import SuperBadBlock.ApfsScanner.BlockSize
import SuperBadBlock.ApfsScanner.Reads
import SuperBadBlock.ApfsScanner.Versions
import SuperBadBlock.ApfsScanner.Clones
import SuperBadBlock.ApfsScanner.Commute
import SuperBadBlock.ApfsScanner.StableSort
import SuperBadBlock.ApfsScanner.Listing
import SuperBadBlock.ApfsScanner.DumpTree
import SuperBadBlock.ApfsScanner.Clear
import SuperBadBlock.ApfsScanner.XFields
import SuperBadBlock.ApfsScanner.Placement
import SuperBadBlock.ApfsScanner.Container
import SuperBadBlock.ApfsScanner.Encode
import SuperBadBlock.ApfsScanner.Footprint
import SuperBadBlock.ApfsScanner.Volume
import SuperBadBlock.ApfsScanner.BitErrors
import SuperBadBlock.ApfsScanner.Growth
import SuperBadBlock.ApfsScanner.Damage
import SuperBadBlock.ApfsScanner.Destinations
import SuperBadBlock.ApfsScanner.Dump
import SuperBadBlock.ApfsScanner.Dump.Transfers
import SuperBadBlock.ApfsScanner.Dump.Agreement
import SuperBadBlock.ApfsScanner.Dump.Text
import SuperBadBlock.DiskScanner
import SuperBadBlock.DiskScanner.Theorems
import SuperBadBlock.DiskScanner.Stale
import SuperBadBlock.DiskScanner.Footprint
import SuperBadBlock.DiskScanner.Disks
import SuperBadBlock.DiskScanner.Steps
import SuperBadBlock.DiskScanner.Stop
import SuperBadBlock.DiskScanner.Growth
import SuperBadBlock.SbbFuse
import SuperBadBlock.SbbFuse.Theorems
import SuperBadBlock.SbbFuse.Volume
import SuperBadBlock.SbbFuse.RoundTrip
import SuperBadBlock.FileHunter
import SuperBadBlock.SbbFuse.Sessions
import SuperBadBlock.SbbFuse.RowOrder

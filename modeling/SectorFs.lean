import SectorFs.Attempt
import SectorFs.Buffer
import SectorFs.Disk.Device
import SectorFs.Disk.Faulty
import SectorFs.Disk.Memory
import SectorFs.Failure
import SectorFs.Image.BlockMap
import SectorFs.Image.DirectoryEntry
import SectorFs.Image.Geometry
import SectorFs.Image.InodeMap
import SectorFs.Image.Record
import SectorFs.Image.Superblock
import SectorFs.Pieces
import SectorFs.Proofs.Attempt
import SectorFs.Proofs.BoundedList
import SectorFs.Proofs.Buffer
import SectorFs.Proofs.Disk
import SectorFs.Proofs.Image.BlockMap
import SectorFs.Proofs.Image.Codec
import SectorFs.Proofs.Image.DirectoryEntry
import SectorFs.Proofs.Image.FirstFit
import SectorFs.Proofs.Image.InodeMap
import SectorFs.Proofs.Image.Record
import SectorFs.Proofs.Recorder
import SectorFs.Proofs.Requests
import SectorFs.Proofs.Sector
import SectorFs.Proofs.SectorMap
import SectorFs.Proofs.Strict.Allocation
import SectorFs.Proofs.Strict.Audit
import SectorFs.Proofs.Strict.Basic
import SectorFs.Proofs.Strict.Geometry
import SectorFs.Proofs.Strict.Reading
import SectorFs.Proofs.Tree.Climbing
import SectorFs.Proofs.Tree.Composing
import SectorFs.Proofs.Tree.Contents
import SectorFs.Proofs.Tree.Counts
import SectorFs.Proofs.Tree.Edits
import SectorFs.Proofs.Tree.Making
import SectorFs.Proofs.Tree.Marks
import SectorFs.Proofs.Tree.Moving
import SectorFs.Proofs.Tree.Namespace
import SectorFs.Proofs.Tree.Paths
import SectorFs.Proofs.Tree.Preserve
import SectorFs.Proofs.Tree.Removing
import SectorFs.Proofs.Tree.Sound
import SectorFs.Proofs.Tree.Steps
import SectorFs.Proofs.Tree.Stepwise
import SectorFs.Proofs.Tree.Torn
import SectorFs.Proofs.Tree.Unchanged
import SectorFs.Proofs.Tree.Undoing
import SectorFs.Proofs.Tree.View
import SectorFs.Proofs.Tree.WorkingPath
import SectorFs.Proofs.Volume.Audit
import SectorFs.Proofs.Volume.Canonical
import SectorFs.Proofs.Volume.Coverage
import SectorFs.Proofs.Volume.Damage
import SectorFs.Proofs.Volume.Failing
import SectorFs.Proofs.Volume.Image
import SectorFs.Proofs.Volume.Loading
import SectorFs.Proofs.Volume.Mirror
import SectorFs.Proofs.Volume.Mounting
import SectorFs.Proofs.Volume.Plan
import SectorFs.Proofs.Volume.Reading
import SectorFs.Proofs.Volume.Report
import SectorFs.Proofs.Volume.RoundTrip
import SectorFs.Proofs.Volume.Safety
import SectorFs.Proofs.Volume.Schedule
import SectorFs.Proofs.Volume.Session
import SectorFs.Proofs.Volume.Space
import SectorFs.Proofs.Volume.Steps
import SectorFs.Proofs.Volume.Usage
import SectorFs.Sector
import SectorFs.Tree.Basic
import SectorFs.Tree.Directory
import SectorFs.Tree.Edit
import SectorFs.Tree.File
import SectorFs.Tree.Inode
import SectorFs.Tree.Path
import SectorFs.Tree.WorkingDirectory
import SectorFs.Volume.Audit
import SectorFs.Volume.Basic
import SectorFs.Volume.Pass
import SectorFs.Volume.Reading
import SectorFs.Volume.Session
import SectorFs.Word

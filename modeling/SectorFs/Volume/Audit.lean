import SectorFs.Volume.Reading

/-!
# Audits

An audit compares the block map of a disk with the blocks that its image refers to:
the chunks, the inode map, the payloads and the indirect blocks.  It counts how often
each block is referred to and reports the blocks that are referred to but free, in
use but not referred to, or referred to more than once.
-/

namespace SectorFs

/-- Where the block map and the image of a disk disagree. -/
structure AuditReport where
  /-- Number of blocks that the image refers to. -/
  referenced : Nat
  /-- Number of blocks that the map has in use. -/
  marked : Nat
  /-- Referred to, but not in use. -/
  unmarked : List Nat
  /-- In use, but not referred to. -/
  leaked : List Nat
  /-- Referred to more than once. -/
  shared : List Nat
deriving DecidableEq, Repr

namespace AuditReport

/-- Whether there is no disagreement. -/
def isClean (r : AuditReport) : Bool := r.unmarked.isEmpty && r.leaked.isEmpty && r.shared.isEmpty

/-- The report on a map and the number of times that each block is referred to. -/
def ofCounts (m : BlockMap) (counts : Array Nat) : AuditReport :=
  let blocks := List.range counts.size
  let count := fun b => counts.getD b 0
  { referenced := blocks.countP fun b => 0 < count b
    marked := m.usedCount
    unmarked := blocks.filter fun b => 0 < count b && !m.isAllocated b
    leaked := blocks.filter fun b => count b == 0 && m.isAllocated b
    shared := blocks.filter fun b => 1 < count b }

end AuditReport

namespace Audit

/-- Counts one more reference to a block, which must be in the pool. -/
def count (counts : Array Nat) (block : UInt32) : Except Failure (Array Nat) :=
  if block.toNat < counts.size then .ok (counts.modify block.toNat (· + 1))
  else .error .corrupted

variable {D : Type} [SectorDevice D]

/-- Counts the blocks that a record refers to. -/
def countRecord (g : Geometry) (counts : Array Nat) (r : Record) : Attempt D (Array Nat) := do
  if r.isFree then return counts
  else
    let blocks ← r.payloadBlocks (Reading.readBlock g)
    let counts ← (blocks.foldlM count counts : Except Failure (Array Nat))
    if r.indirect = 0 then return counts else count counts r.indirect

/-- Counts the blocks that the records of a chunk refer to. -/
def countChunk (g : Geometry) (counts : Array Nat) (chunk : UInt32) : Attempt D (Array Nat) := do
  (Record.ofChunk (← Reading.readBlock g chunk)).foldlM (countRecord g) counts

/-- Audits a disk. -/
def run : Attempt D AuditReport := do
  let superblock ← Reading.readSuperblock
  let g ← superblock.geometryOn (← Device.totalSectors)
  let map ← Reading.readMap g
  let inodeMap ← Reading.readInodeMap g superblock
  let chunks := inodeMap.chunks.toList
  let counts := Array.replicate g.blockCount.toNat 0
  let counts ← ((chunks ++ inodeMap.chain.toList).foldlM count counts : Except Failure (Array Nat))
  let counts ← chunks.foldlM (countChunk g) counts
  return .ofCounts map counts

end Audit

end SectorFs

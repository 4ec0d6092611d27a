import SectorFs.Attempt
import SectorFs.Sector

/-!
# Geometry of a disk

A formatted disk has three parts: the superblock in sector `0`, the block map with
one bit for each block of the pool, and the pool, whose blocks are numbered from `0`.
A block is a sector.  `Geometry.format` divides a new disk, and
`Geometry.Fits` says which divisions a disk of a given size can have.
-/

namespace SectorFs

def bitsPerSector : Nat := 8 * sectorSize

/-- The smallest pool: one chunk of inodes and one block of the inode map. -/
def minPoolSize : Nat := 2

/-- Where the parts of a disk are. -/
structure Geometry where
  /-- Number of blocks in the pool. -/
  blockCount : UInt32
  /-- First sector of the block map. -/
  mapStart : UInt32
  /-- First sector of the pool, behind the block map. -/
  poolStart : UInt32
deriving DecidableEq, Repr

namespace Geometry

/-- Divides a disk of `total` sectors: the block map has a bit for every sector
behind the superblock, and the pool takes the rest. -/
def format (total : UInt32) : Except Failure Geometry :=
  let mapSectors := partsOf (total.toNat - 1) bitsPerSector
  let poolStart := 1 + mapSectors
  let blockCount := total.toNat - poolStart
  if blockCount < minPoolSize then .error .outOfDiskSpace
  else .ok ⟨UInt32.ofNat blockCount, 1, UInt32.ofNat poolStart⟩

def mapSectors (g : Geometry) : UInt32 := g.poolStart - g.mapStart

/-- The parts lie one behind the other on a disk of `total` sectors, and the block
map has a bit for every block. -/
def Fits (g : Geometry) (total : UInt32) : Prop :=
  0 < g.mapStart ∧ g.mapStart < g.poolStart
    ∧ g.blockCount.toNat ≤ g.mapSectors.toNat * bitsPerSector
    ∧ g.poolStart.toNat + g.blockCount.toNat ≤ total.toNat

instance (g : Geometry) (total : UInt32) : Decidable (g.Fits total) :=
  inferInstanceAs (Decidable (_ ∧ _))

/-- The first sector of the blocks from `block` on, all of which must be in the pool. -/
def runSector (g : Geometry) (block count : UInt32) : Except Failure UInt32 :=
  if block.toNat + count.toNat ≤ g.blockCount.toNat then .ok (g.poolStart + block)
  else .error .corrupted

def blockSector (g : Geometry) (block : UInt32) : Except Failure UInt32 := g.runSector block 1

theorem runSector_eq_ok_iff {g : Geometry} {block count lba : UInt32} :
    g.runSector block count = .ok lba ↔
      block.toNat + count.toNat ≤ g.blockCount.toNat ∧ g.poolStart + block = lba := by
  unfold runSector
  split <;> rename_i h
  · simp [h]
  · simp [h]

end Geometry

end SectorFs

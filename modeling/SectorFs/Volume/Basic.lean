import SectorFs.Volume.Audit
import SectorFs.Volume.Pass

/-!
# Volumes

A volume is a filesystem at work: the geometry and the block map of its disk, the
superblock that was last written or read, and the tree in memory.  The disk itself is
the state that the operations act on.

* `Volume.format` lays out a new filesystem, `Volume.load` reads the one on the disk,
  and `Volume.mount` reads it or, if the disk holds none, lays out a new one.
* `Volume.sync` brings the tree to disk.  Only a pass that succeeds changes the
  volume.
-/

namespace SectorFs

/-- A filesystem at work. -/
structure Volume where
  geometry : Geometry
  /-- The block map as of the last pass or reading. -/
  map : BlockMap
  superblock : Superblock
  tree : Tree
  map_blocks : map.blocks = geometry.blockCount.toNat
deriving DecidableEq

/-- How much of a pool is in use, in blocks. -/
structure Usage where
  total : Nat
  used : Nat
  free : Nat
deriving DecidableEq, Repr

namespace Volume

variable {D : Type} [SectorDevice D]

/-- The block map, as that of the pool. -/
def poolMap (v : Volume) : PoolMap v.geometry := ⟨v.map, v.map_blocks⟩

/-- The volume around a block map of its pool. -/
abbrev ofPoolMap (g : Geometry) (map : PoolMap g) (superblock : Superblock) (tree : Tree) :
    Volume := ⟨g, map.1, superblock, tree, map.2⟩

/-- Brings a tree to disk and makes a volume of it. -/
def commit (g : Geometry) (current : PoolMap g) (t : Tree) : Attempt D Volume :=
  match h : Pass.plan g current t with
  | .error f => throw f
  | .ok pass => do
    pass.run
    return ⟨g, pass.map, pass.superblock, t.settle, Pass.blocks_of_plan h⟩

/-- Lays out a new filesystem that holds only a root. -/
def format : Attempt D Volume := do
  Device.requirePresent
  let g ← Geometry.format (← Device.totalSectors)
  commit g (.empty g) .empty

def load : Attempt D Volume := do
  let superblock ← Reading.readSuperblock
  let g ← superblock.geometryOn (← Device.totalSectors)
  let map ← Reading.readPoolMap g
  let t ← Tree.empty.withRoom (superblock.chunkCount.toNat * recordsPerChunk)
  let inodeMap ← Reading.readInodeMap g superblock
  let tree ← Reading.loadTree g t inodeMap
  return ofPoolMap g map superblock tree

/-- Reads the filesystem on the disk, or lays out a new one if its superblock is
none. -/
def mount : Attempt D Volume := fun d =>
  match load d with
  | .error .corruptSuperblock d => format d
  | result => result

def sync (v : Volume) : Attempt D Volume := commit v.geometry v.poolMap v.tree

def usage (v : Volume) : Usage where
  total := v.geometry.blockCount.toNat
  used := v.map.usedCount
  free := v.geometry.blockCount.toNat - v.map.usedCount

end Volume

end SectorFs

import SectorFs.Disk.Device
import SectorFs.Image.BlockMap
import SectorFs.Image.InodeMap
import SectorFs.Image.Record
import SectorFs.Image.Superblock
import SectorFs.Tree.Basic

/-!
# Reading an image

What a disk holds, taken apart from the superblock down: the geometry must fit the
disk, the block map must be there, the inode map must list as many chunks as the
superblock tells, and each record that is not free becomes an inode in its slot.
Every block is looked up in the pool before it is read.  The tree starts over before
its slots are filled, each of which marks it, and is not marked any more once it is
known to have a root.
-/

namespace SectorFs

open Attempt

namespace Reading

variable {D : Type} [SectorDevice D]

def readBlock (g : Geometry) (block : UInt32) : Attempt D Sector := do
  return .ofBytes (← Device.readSectors (← g.blockSector block) 1)

/-- Reads sector `0`, which must tell of at least one chunk. -/
def readSuperblock : Attempt D Superblock := do
  Device.requirePresent
  let superblock ← Superblock.ofSector (.ofBytes (← Device.readSectors 0 1))
  if superblock.chunkCount = 0 then throw .corruptSuperblock
  return superblock

def readPoolMap (g : Geometry) : Attempt D (PoolMap g) := do
  PoolMap.ofBytes g (← Device.readSectors g.mapStart g.mapSectors)

def readMap (g : Geometry) : Attempt D BlockMap := do return (← readPoolMap g).1

def readInodeMap (g : Geometry) (s : Superblock) : Attempt D InodeMap :=
  InodeMap.read (readBlock g) s.inodeMapStart s.chunkCount.toNat

/-- Puts the inode of a record into its slot, unless the record is free. -/
def loadRecord (g : Geometry) (t : Tree) (record : Record × Nat) : Attempt D Tree := do
  if record.1.isFree then return t
  else t.install (.ofIndex record.2) (← record.1.decode (readBlock g))

/-- Puts the inodes of a chunk into their slots. -/
def loadChunk (g : Geometry) (t : Tree) (chunk : UInt32 × Nat) : Attempt D Tree := do
  let sector ← readBlock g chunk.1
  ((Record.ofChunk sector).zipIdx (recordsPerChunk * chunk.2)).foldlM (loadRecord g) t

def hasRoot (t : Tree) : Bool :=
  match t.inode .root with
  | .ok root => root.isDirectory
  | .error _ => false

/-- Reads the tree that an inode map lists, in a table with room for all its chunks. -/
def loadTree (g : Geometry) (t : Tree) (m : InodeMap) : Attempt D Tree := do
  let t ← m.chunks.toList.zipIdx.foldlM (loadChunk g) t.restart
  if hasRoot t then return t.settle else throw .corrupted

/-! ### Lemmas on block maps -/

variable {g : Geometry} {d e : D}

theorem readMap_eq_ok_iff {m : BlockMap} :
    readMap g d = .ok m e ↔ ∃ bytes, Device.readSectors g.mapStart g.mapSectors d = .ok bytes e
      ∧ BlockMap.ofBytes bytes g.blockCount.toNat = .ok m := by
  unfold readMap readPoolMap
  rw [bind_eq_ok_iff]
  constructor
  · rintro ⟨k, c, hk, h⟩
    injection h with hm he
    subst hm he
    obtain ⟨bytes, c, hbytes, hk⟩ := bind_eq_ok_iff.mp hk
    obtain ⟨hm, rfl⟩ := lift_eq_ok_iff.mp hk
    exact ⟨bytes, hbytes, PoolMap.ofBytes_eq_ok_iff.mp hm⟩
  · rintro ⟨bytes, hbytes, hm⟩
    have hk := PoolMap.ofBytes_eq_ok_iff (m := ⟨m, BlockMap.blocks_of_ofBytes hm⟩).mpr hm
    exact ⟨_, e, bind_eq_ok_iff.mpr ⟨bytes, e, hbytes, lift_eq_ok_iff.mpr ⟨hk, rfl⟩⟩, rfl⟩

theorem blocks_of_readMap {m : BlockMap} (h : readMap g d = .ok m e) :
    m.blocks = g.blockCount.toNat := by
  obtain ⟨bytes, -, hm⟩ := readMap_eq_ok_iff.mp h
  exact BlockMap.blocks_of_ofBytes hm

theorem readPoolMap_eq_ok_iff {m : PoolMap g} :
    readPoolMap g d = .ok m e ↔ readMap g d = .ok m.1 e := by
  unfold readMap
  rw [bind_eq_ok_iff]
  constructor
  · exact fun h => ⟨m, e, h, rfl⟩
  · rintro ⟨k, c, hk, h⟩
    injection h with hm he
    rw [Subtype.ext hm, he] at hk
    exact hk

theorem readPoolMap_of_readMap {m : BlockMap} (h : readMap g d = .ok m e) :
    readPoolMap g d = .ok ⟨m, blocks_of_readMap h⟩ e :=
  readPoolMap_eq_ok_iff.mpr h

end Reading

end SectorFs

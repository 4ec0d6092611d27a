import SectorFs.Image.Geometry

/-!
# Superblocks

Sector `0` of a formatted disk: seven words that tell the format, the geometry, and
where the inode map starts and how many chunks of inodes it lists.  A sector that
does not start with the right magic number and version is no superblock
(`Superblock.ofSector`); else it reads back as written (`ofSector_toSector`).
-/

namespace SectorFs

/-- The content of sector `0`. -/
structure Superblock where
  magic : UInt32
  version : UInt32
  blockCount : UInt32
  mapStart : UInt32
  poolStart : UInt32
  /-- First block of the inode map. -/
  inodeMapStart : UInt32
  /-- Number of chunks that the inode map lists. -/
  chunkCount : UInt32
deriving DecidableEq, Repr

namespace Superblock

/-- The word that the four letters `SPKF` make. -/
def formatMagic : UInt32 := 0x464b5053

def formatVersion : UInt32 := 1

/-- The superblock of a disk with the given geometry and inode map. -/
def ofGeometry (g : Geometry) (inodeMapStart chunkCount : UInt32) : Superblock where
  magic := formatMagic
  version := formatVersion
  blockCount := g.blockCount
  mapStart := g.mapStart
  poolStart := g.poolStart
  inodeMapStart := inodeMapStart
  chunkCount := chunkCount

def geometry (s : Superblock) : Geometry := ⟨s.blockCount, s.mapStart, s.poolStart⟩

/-- Whether magic number and version are right. -/
def IsCurrent (s : Superblock) : Prop := s.magic = formatMagic ∧ s.version = formatVersion

instance (s : Superblock) : Decidable s.IsCurrent := inferInstanceAs (Decidable (_ ∧ _))

def words (s : Superblock) : List UInt32 :=
  [s.magic, s.version, s.blockCount, s.mapStart, s.poolStart, s.inodeMapStart, s.chunkCount]

def toSector (s : Superblock) : Sector := .ofWords s.words

/-- The seven words at the start of a sector. -/
def read (sector : Sector) : Superblock where
  magic := sector.word 0
  version := sector.word 1
  blockCount := sector.word 2
  mapStart := sector.word 3
  poolStart := sector.word 4
  inodeMapStart := sector.word 5
  chunkCount := sector.word 6

def ofSector (sector : Sector) : Except Failure Superblock :=
  if (read sector).IsCurrent then .ok (read sector) else .error .corruptSuperblock

/-- The geometry that a superblock tells, if it fits a disk of `total` sectors. -/
def geometryOn (s : Superblock) (total : UInt32) : Except Failure Geometry :=
  if s.geometry.Fits total then .ok s.geometry else .error .corruptSuperblock

@[simp] theorem read_toSector (s : Superblock) : read s.toSector = s := by
  have h : s.words.length ≤ wordsPerSector := by simp [words, wordsPerSector]
  simp only [read, toSector, Sector.word_ofWords h]
  rfl

theorem ofSector_toSector {s : Superblock} (h : s.IsCurrent) : ofSector s.toSector = .ok s := by
  simp [ofSector, h]

theorem isCurrent_ofGeometry (g : Geometry) (inodeMapStart chunkCount : UInt32) :
    (ofGeometry g inodeMapStart chunkCount).IsCurrent := ⟨rfl, rfl⟩

end Superblock

end SectorFs

import SectorFs.Image.DirectoryEntry

/-!
# Inode records

A record describes one inode in 64 bytes: its kind, its links, its size, the first
twelve blocks of its payload, and an indirect block with the words of the blocks
behind those.  Eight records fill a sector, a *chunk*.

Blocks are read through a function `readBlock`, which acts on whatever holds them.
A list of blocks that ends early is no failure: the bytes of a file behind it are
zeros, and a directory has the entries before it.
-/

namespace SectorFs

/-- Blocks named in a record itself. -/
def directBlocks : Nat := 12

/-- The most blocks of a payload. -/
def maxPayloadBlocks : Nat := directBlocks + wordsPerSector

def recordSize : Nat := 64

def wordsPerRecord : Nat := 16

def recordsPerChunk : Nat := sectorSize / recordSize

/-! ### Placements -/

/-- The blocks given to the payload of an inode. -/
structure Placement where
  /-- The blocks of the payload in order. -/
  blocks : List UInt32
  /-- The block that lists what is behind the first twelve. -/
  indirect : Option UInt32
deriving DecidableEq, Repr

namespace Placement

/-- The blocks that the record does not name. -/
def overflow (p : Placement) : List UInt32 := p.blocks.drop directBlocks

/-- The content of the indirect block. -/
def indirectSector? (p : Placement) : Option Sector :=
  p.indirect.map fun _ => .ofWords p.overflow

/-- The indirect block, if there is one, has a word for each block it should list. -/
def Addressable (p : Placement) : Prop := p.indirect = none ∨ p.overflow.length ≤ wordsPerSector

instance (p : Placement) : Decidable p.Addressable := inferInstanceAs (Decidable (_ ∨ _))

end Placement

/-! ### Records -/

/-- The description of an inode on disk. -/
structure Record where
  kind : UInt8
  links : UInt32
  size : UInt32
  direct : Vector UInt32 12
  indirect : UInt32
deriving DecidableEq

namespace Record

/-- The record of a free slot. -/
def free : Record := ⟨0, 0, 0, Vector.replicate 12 0, 0⟩

/-- The record of an inode whose payload is at a placement. -/
def describe (i : Inode) (p : Placement) : Record where
  kind := i.kind.code
  links := i.links
  size := UInt32.ofNat i.size
  direct := Vector.ofFn fun k => p.blocks.getD k 0
  indirect := p.indirect.getD 0

def words (r : Record) : List UInt32 :=
  [r.kind.toUInt32, r.links, r.size] ++ r.direct.toList ++ [r.indirect]

def toBytes (r : Record) : List UInt8 := r.words.flatMap Word.bytes

/-- The record that words tell; of the first one only the lowest byte counts. -/
def ofWords (ws : List UInt32) : Record where
  kind := (ws.getD 0 0).toUInt8
  links := ws.getD 1 0
  size := ws.getD 2 0
  direct := Vector.ofFn fun k => ws.getD (3 + k) 0
  indirect := ws.getD 15 0

/-- The record at the front of a byte string, if the string is long enough. -/
def ofBytes? (bytes : List UInt8) : Option Record :=
  if bytes.length < recordSize then none else some (ofWords (Word.parse bytes))

/-- The chunks of a list of records, `count` in all. -/
def toChunks (records : List Record) (count : Nat) : List Sector :=
  (pieces recordsPerChunk count records).map fun chunk => .ofWords (chunk.flatMap words)

def ofChunk (chunk : Sector) : List Record :=
  (pieces wordsPerRecord recordsPerChunk chunk.words).map ofWords

def isFree (r : Record) : Bool := r.kind == 0

def kind? (r : Record) : Except Failure Kind :=
  match Kind.ofCode? r.kind with
  | some kind => .ok kind
  | none => .error .corrupted

def payloadSize (r : Record) : Except Failure Nat := do
  let size := match ← r.kind? with
    | .free => 0
    | .file => r.size.toNat
    | .directory => r.size.toNat * entrySize
  if maxPayloadBlocks * sectorSize < size then .error .corrupted else .ok size

/-! ### Reading an inode back -/

section

variable {σ : Type} (readBlock : UInt32 → Attempt σ Sector)

/-- The blocks of the payload in order.  Those listed in the indirect block end
before its first zero. -/
def payloadBlocks (r : Record) : Attempt σ (List UInt32) := do
  let needed := partsOf (← r.payloadSize) sectorSize
  let direct := r.direct.toList.take needed
  if directBlocks < needed ∧ r.indirect ≠ 0 then
    let listed := (← readBlock r.indirect).words
    return direct ++ (listed.takeWhile (· != 0)).take (needed - directBlocks)
  else return direct

/-- The bytes of a payload of `size` bytes, as far as its blocks go. -/
def readPayload (size : Nat) (blocks : List UInt32) : Attempt σ (List UInt8) := do
  let sectors ← blocks.mapM readBlock
  return (Sector.join sectors).take size

/-- The inode that a record describes. -/
def decode (r : Record) : Attempt σ Inode := do
  let size ← r.payloadSize
  let blocks ← r.payloadBlocks readBlock
  match ← r.kind? with
  | .free => return .unused
  | .file =>
    let bytes ← Buffer.orFail .corrupted (Buffer.withCapacity size)
    let payload ← readPayload readBlock size blocks
    let bytes ← Buffer.orFail .corrupted (bytes.append payload.toArray)
    let bytes ← Buffer.orFail .corrupted (bytes.resize size 0)
    return ⟨r.links, .file bytes⟩
  | .directory =>
    let payload ← readPayload readBlock size blocks
    let entries ← Buffer.orFail .corrupted (Buffer.withCapacity r.size.toNat)
    let slots := pieces entrySize (payload.length / entrySize) payload
    let found ← (slots.mapM Entry.ofSlot : Except Failure (List Entry))
    let entries ← Buffer.orFail .corrupted (entries.append found.toArray)
    return ⟨r.links, .directory entries⟩

end

end Record

end SectorFs

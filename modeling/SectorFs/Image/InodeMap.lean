import SectorFs.Attempt
import SectorFs.Sector

/-!
# Inode maps

The inode map lists the blocks of the chunks in order.  It is a chain of blocks, each
with 127 chunks and, in its last word, the next block of the chain, or zero.  Block `0`
is the first chunk of every map that is written, so a zero ends a list anywhere but at
its start.
-/

namespace SectorFs

/-- Chunks listed in a block of the inode map. -/
def chunksPerMapBlock : Nat := wordsPerSector - 1

/-- What an inode map was found to list. -/
structure InodeMap where
  /-- The blocks of the chunks. -/
  chunks : Array UInt32
  /-- The blocks of the map itself. -/
  chain : Array UInt32
deriving DecidableEq, Repr

namespace InodeMap

/-! ### Writing -/

/-- Word `k` of block `j` of the map in the run from `mapStart` on that lists
`chunkCount` chunks in the run from `chunkStart` on. -/
def wordOf (chunkStart chunkCount mapStart j k : Nat) : UInt32 :=
  let chunk := chunksPerMapBlock * j + k
  if k = chunksPerMapBlock then
    if j + 1 < partsOf chunkCount chunksPerMapBlock then UInt32.ofNat (mapStart + j + 1) else 0
  else if chunk < chunkCount then UInt32.ofNat (chunkStart + chunk)
  else 0

/-- The blocks of the map of a run of chunks. -/
def sectors (chunkStart chunkCount mapStart : Nat) : List Sector :=
  (List.range (partsOf chunkCount chunksPerMapBlock)).map fun j =>
    .ofWords ((List.range wordsPerSector).map (wordOf chunkStart chunkCount mapStart j))

/-! ### Reading -/

/-- The chunks that words of a map block list: up to the first zero, which counts as
a block only as the very first of the map. -/
def listed (isFirst : Bool) (words : List UInt32) : List UInt32 :=
  match isFirst, words with
  | true, word :: words => word :: words.takeWhile (· != 0)
  | _, words => words.takeWhile (· != 0)

section

variable {σ : Type} (readBlock : UInt32 → Attempt σ Sector)

/-- Follows the chain from a block on, for at most `steps` blocks and until `count`
chunks are found. -/
def follow (count : Nat) : Nat → UInt32 → InodeMap → Attempt σ InodeMap
  | 0, _, found => return found
  | steps + 1, block, found =>
    if count ≤ found.chunks.size then return found
    else do
      let sector ← readBlock block
      let wanted := min (count - found.chunks.size) chunksPerMapBlock
      let chunks := listed found.chunks.isEmpty (sector.words.take wanted)
      let found := ⟨found.chunks ++ chunks.toArray, found.chain.push block⟩
      let next := sector.word chunksPerMapBlock
      if chunks.length < wanted ∨ next = 0 then return found
      else follow count steps next found

/-- Reads the map of `count` chunks that starts at a block. -/
def read (start : UInt32) (count : Nat) : Attempt σ InodeMap := do
  let found ← follow readBlock count (partsOf count chunksPerMapBlock) start ⟨#[], #[]⟩
  if found.chunks.size < count then throw .corruptSuperblock
  return found

end

end InodeMap

end SectorFs

import SectorFs.Proofs.Strict.Basic
import SectorFs.Proofs.Volume.Loading

/-!
# Strict reading

The filesystem on a disk, read with every index, every difference and every sum looked at
before it is used: the words of the superblock, the parts of its geometry, the bytes of the
block map, the blocks of the inode map, the words of a record, the entries of a directory and
the slot that an inode goes to.  Whatever the disk holds, nothing of it leads to a fault
(`Strict.agrees_load`): each guard on the way rules out what the next step cannot take.
-/

namespace SectorFs

open Attempt

namespace Strict

/-! ### Superblock and block map -/

section

variable {σ : Type}

/-- The fields of a superblock. -/
def superblock (bytes : List UInt8) : Strict σ Superblock := do
  let magic ← word bytes (4 * 0)
  let version ← word bytes (4 * 1)
  let blockCount ← word bytes (4 * 2)
  let mapStart ← word bytes (4 * 3)
  let poolStart ← word bytes (4 * 4)
  let inodeMapStart ← word bytes (4 * 5)
  let chunkCount ← word bytes (4 * 6)
  return ⟨magic, version, blockCount, mapStart, poolStart, inodeMapStart, chunkCount⟩

/-- The geometry that a superblock tells.  A part of the test is worked out only after those
before it. -/
def geometryOn (s : Superblock) (total : UInt32) : Strict σ Geometry :=
  if 0 < s.mapStart ∧ s.mapStart < s.poolStart then do
    let mapSectors ← minus s.poolStart.toNat s.mapStart.toNat
    let bits ← narrow 64 (mapSectors * bitsPerSector)
    if s.blockCount.toNat ≤ bits then
      let last ← narrow 64 (s.poolStart.toNat + s.blockCount.toNat)
      if last ≤ total.toNat then return s.geometry else throw (.failure .corruptSuperblock)
    else throw (.failure .corruptSuperblock)
  else throw (.failure .corruptSuperblock)

def blockSector (g : Geometry) (block : UInt32) : Strict σ UInt32 :=
  if block.toNat + (1 : UInt32).toNat ≤ g.blockCount.toNat then do
    return UInt32.ofNat (← narrow 32 (g.poolStart.toNat + block.toNat))
  else throw (.failure .corrupted)

/-- The first sector of a run of blocks, whose end is compared only if it is a word. -/
def runSector (g : Geometry) (block count : UInt32) : Strict σ UInt32 :=
  if block.toNat + count.toNat < 2 ^ 32
      ∧ block.toNat + count.toNat ≤ g.blockCount.toNat then do
    return UInt32.ofNat (← narrow 32 (g.poolStart.toNat + block.toNat))
  else throw (.failure .corrupted)

def blockMap (bytes : List UInt8) (blocks : Nat) : Strict σ BlockMap :=
  if bytes.length < partsOf blocks 8 then throw (.failure .corrupted)
  else do
    let held ← slice bytes 0 (partsOf blocks 8)
    lift (BlockMap.ofBytes held blocks)

/-- Number of blocks in use, as a sum of words. -/
def usedCount (m : BlockMap) : Strict σ Nat :=
  m.bytes.toList.foldlM (fun n byte => narrow 32 (n + BlockMap.ones byte)) 0

end

section

variable {D : Type} [SectorDevice D]

def readSuperblock : Strict D Superblock := do
  of Device.requirePresent
  let sector := Sector.ofBytes (← of (Device.readSectors 0 1))
  let s ← superblock sector.bytes
  if s.IsCurrent then
    if s.chunkCount = 0 then throw (.failure .corruptSuperblock)
    return s
  else throw (.failure .corruptSuperblock)

def readBlock (g : Geometry) (block : UInt32) : Strict D Sector := do
  let lba ← blockSector g block
  return .ofBytes (← of (Device.readSectors lba 1))

def readPoolMap (g : Geometry) : Strict D (PoolMap g) := do
  let mapSectors ← minus g.poolStart.toNat g.mapStart.toNat
  let _ ← narrow 64 (mapSectors * sectorSize)
  let bytes ← of (Device.readSectors g.mapStart (UInt32.ofNat mapSectors))
  let m ← blockMap bytes g.blockCount.toNat
  known (if h : m.blocks = g.blockCount.toNat then some ⟨m, h⟩ else none)

def readMap (g : Geometry) : Strict D BlockMap := do return (← readPoolMap g).1

end

/-! ### Inode map and records -/

section

variable {σ : Type} (readBlock : UInt32 → Strict σ Sector)

def follow (count : Nat) : Nat → UInt32 → InodeMap → Strict σ InodeMap
  | 0, _, found => return found
  | steps + 1, block, found =>
    if count ≤ found.chunks.size then return found
    else do
      let sector ← readBlock block
      let missing ← minus count found.chunks.size
      let wanted := min missing chunksPerMapBlock
      let chunks := InodeMap.listed found.chunks.isEmpty (← words sector.bytes wanted)
      let found := ⟨found.chunks ++ chunks.toArray, found.chain.push block⟩
      let next ← word sector.bytes (4 * chunksPerMapBlock)
      if chunks.length < wanted ∨ next = 0 then return found
      else follow count steps next found

def readInodeMap (start : UInt32) (count : Nat) : Strict σ InodeMap := do
  let found ← follow readBlock count (partsOf count chunksPerMapBlock) start ⟨#[], #[]⟩
  if found.chunks.size < count then throw (.failure .corruptSuperblock)
  return found

def payloadSize (r : Record) : Strict σ Nat := do
  let size ← match ← lift r.kind? with
    | .free => pure 0
    | .file => pure r.size.toNat
    | .directory => narrow 64 (r.size.toNat * entrySize)
  if maxPayloadBlocks * sectorSize < size then throw (.failure .corrupted) else return size

def payloadBlocks (r : Record) : Strict σ (List UInt32) := do
  let needed := partsOf (← payloadSize r) sectorSize
  let direct := r.direct.toList.take needed
  if directBlocks < needed ∧ r.indirect ≠ 0 then
    let sector ← readBlock r.indirect
    let listed ← words sector.bytes wordsPerSector
    let behind ← minus needed directBlocks
    return direct ++ (listed.takeWhile (· != 0)).take behind
  else return direct

/-- Reads blocks into what is left of a payload. -/
def readPayload : Nat → List UInt32 → Strict σ (List UInt8)
  | _, [] => return []
  | 0, _ => return []
  | left, block :: blocks => do
    let sector ← readBlock block
    let part ← slice sector.bytes 0 (min sectorSize left)
    let left ← minus left part.length
    return part ++ (← readPayload left blocks)

/-- The entry in a slot. -/
def entry (slot : List UInt8) : Strict σ Entry := do
  lift (← known (Entry.ofBytes? slot))

def decode (r : Record) : Strict σ Inode := do
  let size ← payloadSize r
  let blocks ← payloadBlocks readBlock r
  match ← lift r.kind? with
  | .free => return .unused
  | .file =>
    let bytes ← lift (Buffer.orFail .corrupted (Buffer.withCapacity size))
    let payload ← readPayload readBlock size blocks
    let bytes ← lift (Buffer.orFail .corrupted (bytes.append payload.toArray))
    let bytes ← lift (Buffer.orFail .corrupted (bytes.resize size 0))
    return ⟨r.links, .file bytes⟩
  | .directory =>
    let payload ← readPayload readBlock size blocks
    let entries ← lift (Buffer.orFail .corrupted (Buffer.withCapacity r.size.toNat))
    let whole ← minus payload.length (payload.length % entrySize)
    let held ← slice (padTo 0 size payload) 0 whole
    let found ← (pieces entrySize (held.length / entrySize) held).mapM entry
    let entries ← lift (Buffer.orFail .corrupted (entries.append found.toArray))
    return ⟨r.links, .directory entries⟩

end

/-! ### The table -/

/-- A new table with room for the records of `chunks` chunks. -/
def table {σ : Type} (chunks : Nat) : Strict σ Tree := do
  let n ← narrow 64 (chunks * recordsPerChunk)
  lift (Tree.empty.withRoom n)

/-- Starts over in a table, which needs a slot for the root. -/
def restart {σ : Type} (t : Tree) : Strict σ Tree := do
  let _ ← known t.slots[0]?
  return t.restart

section

variable {D : Type} [SectorDevice D]

/-- Puts the inode of a record of a chunk into its slot. -/
def loadRecord (g : Geometry) (chunk : Nat) (t : Tree) (raw : List UInt8 × Nat) :
    Strict D Tree := do
  let r ← known (Record.ofBytes? raw.1)
  if r.isFree then return t
  else
    let first ← narrow 64 (chunk * recordsPerChunk)
    let n ← narrow 64 (first + raw.2)
    lift (t.install (.ofIndex n) (← decode (readBlock g) r))

def loadChunk (g : Geometry) (t : Tree) (chunk : UInt32 × Nat) : Strict D Tree := do
  let sector ← readBlock g chunk.1
  ((pieces recordSize recordsPerChunk sector.bytes).zipIdx).foldlM (loadRecord g chunk.2) t

def loadTree (g : Geometry) (t : Tree) (i : InodeMap) : Strict D Tree := do
  let t ← i.chunks.toList.zipIdx.foldlM (loadChunk g) (← restart t)
  if Reading.hasRoot t then return t.settle else throw (.failure .corrupted)

/-- Reads the filesystem on the disk, and counts the blocks in use. -/
def load : Strict D Volume := do
  let s ← readSuperblock
  let g ← geometryOn s (← of Device.totalSectors)
  let m ← readPoolMap g
  let t ← table s.chunkCount.toNat
  let i ← readInodeMap (readBlock g) s.inodeMapStart s.chunkCount.toNat
  let t ← loadTree g t i
  let _ ← usedCount m.1
  return .ofPoolMap g m s t

end

/-! ### Nothing on a disk leads to a fault -/

section

variable {σ : Type}

theorem words_sector (s : Sector) {n : Nat} (h : n ≤ wordsPerSector) :
    (words s.bytes n : Strict σ (List UInt32)) = pure (s.words.take n) :=
  words_of_le (h.trans_eq s.length_words.symm)

theorem word_sector (s : Sector) {k : Nat} (h : k < wordsPerSector) :
    (word s.bytes (4 * k) : Strict σ UInt32) = pure (s.word k) := by
  have hlen : k < s.words.length := Nat.lt_of_lt_of_eq h s.length_words.symm
  rw [← InodeMap.getElem_words hlen]
  exact word_of_lt hlen

theorem superblock_sector (s : Sector) :
    (superblock s.bytes : Strict σ Superblock) = pure (Superblock.read s) := by
  have h : ∀ k, k < 7 → (word s.bytes (4 * k) : Strict σ UInt32) = pure (s.word k) := fun k hk =>
    word_sector s (Nat.lt_trans hk (by decide))
  unfold superblock
  rw [h 0 (by decide), h 1 (by decide), h 2 (by decide), h 3 (by decide), h 4 (by decide),
    h 5 (by decide), h 6 (by decide)]
  rfl

theorem geometryOn_eq (s : Superblock) (total : UInt32) :
    (geometryOn s total : Strict σ Geometry) = lift (s.geometryOn total) := by
  have hmap := s.mapStart.toNat_lt
  have hpool := s.poolStart.toNat_lt
  have hblocks := s.blockCount.toNat_lt
  unfold geometryOn Superblock.geometryOn
  by_cases horder : 0 < s.mapStart ∧ s.mapStart < s.poolStart
  · have hle := UInt32.le_iff_toNat_le.mp (UInt32.le_of_lt horder.2)
    have hsectors : s.geometry.mapSectors.toNat = s.poolStart.toNat - s.mapStart.toNat :=
      UInt32.toNat_sub_of_le _ _ (UInt32.le_iff_toNat_le.mpr hle)
    have hbits : (s.poolStart.toNat - s.mapStart.toNat) * bitsPerSector < 2 ^ 64 := by
      rw [show bitsPerSector = 4096 from rfl]
      omega
    rw [if_pos horder, minus_of_le hle, pure_bind, narrow_of_lt hbits, pure_bind]
    by_cases henough : s.blockCount.toNat ≤ (s.poolStart.toNat - s.mapStart.toNat) * bitsPerSector
    · rw [if_pos henough, narrow_of_lt (by omega), pure_bind]
      by_cases hlast : s.poolStart.toNat + s.blockCount.toNat ≤ total.toNat
      · rw [if_pos hlast, if_pos ⟨horder.1, horder.2, hsectors ▸ henough, hlast⟩]
        rfl
      · rw [if_neg hlast, if_neg fun hfits => hlast hfits.2.2.2]
        rfl
    · rw [if_neg henough, if_neg fun hfits => henough (hsectors ▸ hfits.2.2.1)]
      rfl
  · rw [if_neg horder, if_neg fun hfits => horder ⟨hfits.1, hfits.2.1⟩]
    rfl

theorem runSector_eq {g : Geometry} {total : UInt32} (hg : g.Fits total)
    (block count : UInt32) :
    (runSector g block count : Strict σ UInt32) = lift (g.runSector block count) := by
  have hlast := hg.lt
  have hblocks := g.blockCount.toNat_lt
  unfold runSector Geometry.runSector
  by_cases hrun : block.toNat + count.toNat ≤ g.blockCount.toNat
  · rw [if_pos ⟨by omega, hrun⟩, if_pos hrun, narrow_of_lt (by omega), pure_bind]
    have hadd : UInt32.ofNat (g.poolStart.toNat + block.toNat) = g.poolStart + block := by
      rw [UInt32.ofNat_add, UInt32.ofNat_toNat, UInt32.ofNat_toNat]
    rw [hadd]
    rfl
  · rw [if_neg fun h => hrun h.2, if_neg hrun]
    rfl

theorem blockSector_eq {g : Geometry} {total : UInt32} (hg : g.Fits total) (b : UInt32) :
    (blockSector g b : Strict σ UInt32) = lift (g.blockSector b) := by
  have hblocks := g.blockCount.toNat_lt
  have hone : (blockSector g b : Strict σ UInt32) = runSector g b 1 :=
    if_congr ⟨fun h => ⟨Nat.lt_of_le_of_lt h hblocks, h⟩, And.right⟩ rfl rfl
  rw [hone, runSector_eq hg, Geometry.blockSector]

theorem blockMap_eq (bytes : List UInt8) (blocks : Nat) :
    (blockMap bytes blocks : Strict σ BlockMap) = lift (BlockMap.ofBytes bytes blocks) := by
  unfold blockMap
  by_cases hshort : bytes.length < partsOf blocks 8
  · rw [if_pos hshort, BlockMap.ofBytes, dif_pos hshort]
    rfl
  · have hlen : (bytes.take (partsOf blocks 8)).length = partsOf blocks 8 :=
      List.length_take_of_le (by omega)
    have htake : (bytes.take (partsOf blocks 8)).take (partsOf blocks 8)
        = bytes.take (partsOf blocks 8) := List.take_of_length_le (by omega)
    rw [if_neg hshort, slice_of_le (by omega), pure_bind, List.drop_zero, BlockMap.ofBytes,
      dif_neg (by omega), BlockMap.ofBytes, dif_neg hshort]
    simp only [htake]

theorem poolMap_eq (g : Geometry) (bytes : List UInt8) :
    (do
      let m ← blockMap bytes g.blockCount.toNat
      known (if h : m.blocks = g.blockCount.toNat then some ⟨m, h⟩ else none) :
      Strict σ (PoolMap g)) = lift (PoolMap.ofBytes g bytes) := by
  rw [blockMap_eq]
  cases hm : BlockMap.ofBytes bytes g.blockCount.toNat with
  | ok m =>
    have hblocks := BlockMap.blocks_of_ofBytes hm
    rw [PoolMap.ofBytes_eq_ok_iff (m := ⟨m, hblocks⟩).mpr hm]
    show known (dite _ _ _) = _
    rw [dif_pos hblocks]
    rfl
  | error f =>
    rw [PoolMap.ofBytes_of_error hm]
    rfl

/-- A sum of words that fits in a word is worked out without a fault. -/
theorem usedCount_eq {m : BlockMap} (h : m.usedCount < 2 ^ 32) :
    (usedCount m : Strict σ Nat) = pure m.usedCount := by
  have hsum : ∀ (l : List UInt8) (n : Nat),
      l.foldl (fun n byte => n + BlockMap.ones byte) n < 2 ^ 32 →
        (l.foldlM (fun n byte => narrow 32 (n + BlockMap.ones byte)) n : Strict σ Nat)
          = pure (l.foldl (fun n byte => n + BlockMap.ones byte) n) := by
    intro l
    induction l with
    | nil => exact fun n _ => rfl
    | cons byte l ih =>
      intro n hn
      have hle : ∀ (l : List UInt8) (n : Nat),
          n ≤ l.foldl (fun n byte => n + BlockMap.ones byte) n := by
        intro l
        induction l with
        | nil => exact fun n => Nat.le_refl n
        | cons byte l ih => exact fun n => (Nat.le_add_right ..).trans (ih _)
      have hnext : n + BlockMap.ones byte < 2 ^ 32 := (hle l _).trans_lt hn
      rw [List.foldlM_cons, narrow_of_lt hnext, pure_bind]
      exact ih _ hn
  have hfold : m.usedCount = m.bytes.toList.foldl (fun n byte => n + BlockMap.ones byte) 0 := by
    rw [BlockMap.usedCount, Array.foldl_toList]
  rw [hfold] at h ⊢
  exact hsum _ 0 h

theorem payloadSize_eq (r : Record) :
    (payloadSize r : Strict σ Nat) = lift r.payloadSize := by
  have hsize := r.size.toNat_lt
  have hlimit : ∀ n, (if maxPayloadBlocks * sectorSize < n then throw (.failure .corrupted)
      else pure n : Strict σ Nat)
        = lift (if maxPayloadBlocks * sectorSize < n then .error .corrupted else .ok n) := fun n => by
    split <;> rfl
  have hentries : r.size.toNat * entrySize < 2 ^ 64 := by
    rw [show entrySize = 32 from rfl]
    omega
  unfold payloadSize Record.payloadSize
  cases r.kind? with
  | error f => rfl
  | ok kind =>
    cases kind with
    | free => exact hlimit 0
    | file => exact hlimit r.size.toNat
    | directory =>
      refine Eq.trans ?_ (hlimit (r.size.toNat * entrySize))
      show (narrow 64 (r.size.toNat * entrySize) >>= fun size => _) = _
      rw [narrow_of_lt hentries, pure_bind]

theorem entry_eq {slot : List UInt8} (h : slot.length = entrySize) :
    (entry slot : Strict σ Entry) = lift (Entry.ofSlot slot) := by
  have hbytes : Entry.ofBytes? slot = some (Entry.ofSlot slot) := by
    have hname : nameFieldSize < entrySize := by decide
    rw [Entry.ofBytes?, if_neg (by omega), if_neg (by omega)]
  rw [entry, hbytes]
  rfl

theorem mapM_lift {α β : Type} {f : α → Strict σ β} {g : α → Except Failure β} {l : List α}
    (h : ∀ a ∈ l, f a = lift (g a)) : l.mapM f = lift (l.mapM g) := by
  induction l with
  | nil => rfl
  | cons a l ih =>
    rw [List.mapM_cons, List.mapM_cons, h a List.mem_cons_self,
      ih fun b hb => h b (List.mem_cons_of_mem a hb)]
    cases g a with
    | error f => rfl
    | ok b =>
      cases l.mapM g with
      | error f => rfl
      | ok bs => rfl

theorem known_ofBytes? {raw : List UInt8} (h : raw.length = recordSize) :
    (known (Record.ofBytes? raw) : Strict σ Record) = pure (.ofWords (Word.parse raw)) := by
  rw [Record.ofBytes?, if_neg (by omega)]
  rfl

end

/-! ### Pieces -/

theorem pieces_take {α : Type} {size n m : Nat} {l : List α} (h : size * n ≤ m) :
    pieces size n (l.take m) = pieces size n l := by
  induction n generalizing l m with
  | zero => rfl
  | succ n ih =>
    rw [Nat.mul_succ] at h
    rw [pieces, pieces, List.take_take, Nat.min_eq_left (by omega), List.drop_take,
      ih (by omega)]

theorem pieces_parse (size n : Nat) (bytes : List UInt8) :
    (pieces (4 * size) n bytes).map Word.parse = pieces size n (Word.parse bytes) := by
  induction n generalizing bytes with
  | zero => rfl
  | succ n ih => rw [pieces, List.map_cons, Word.parse_take, ih, Word.parse_drop, pieces]

theorem map_pieces_chunk (s : Sector) :
    (pieces recordSize recordsPerChunk s.bytes).map (fun raw => Record.ofWords (Word.parse raw))
      = Record.ofChunk s := by
  rw [Record.ofChunk, Sector.words, ← pieces_parse, List.map_map]
  rfl

/-! ### What records lead to -/

section

variable {σ : Type} {readBlock : UInt32 → Attempt σ Sector}

theorem length_payloadBlocks {x : Record} {size : Nat} {blocks : List UInt32} {s t : σ}
    (hsize : x.payloadSize = .ok size) (hblocks : x.payloadBlocks readBlock s = .ok blocks t) :
    blocks.length ≤ partsOf size sectorSize := by
  have hdirect : x.direct.toList.length = directBlocks := x.direct.length_toList
  unfold Record.payloadBlocks at hblocks
  rw [hsize] at hblocks
  obtain ⟨_, _, hval, hblocks⟩ := bind_eq_ok_iff.mp hblocks
  injection hval with hval ht
  subst hval ht
  simp only [] at hblocks
  split at hblocks
  · obtain ⟨sector, c, -, hblocks⟩ := bind_eq_ok_iff.mp hblocks
    injection hblocks with hblocks _
    rw [← hblocks, List.length_append, List.length_take, List.length_take]
    omega
  · injection hblocks with hblocks _
    rw [← hblocks, List.length_take]
    exact Nat.min_le_left ..

theorem length_readPayload_le {size : Nat} {blocks : List UInt32} {payload : List UInt8} {s t : σ}
    (h : Record.readPayload readBlock size blocks s = .ok payload t) : payload.length ≤ size := by
  obtain ⟨sectors, c, -, h⟩ := bind_eq_ok_iff.mp h
  injection h with h _
  rw [← h, List.length_take]
  exact Nat.min_le_left ..

end

/-! ### Agreement -/

section

variable {D : Type} [SectorDevice D] [Backed D] {total : UInt32}

theorem agrees_readSuperblock :
    Agrees (D := D) total readSuperblock Reading.readSuperblock := by
  refine .bind .requirePresent fun _ _ =>
    .bind (.readSectors (.inr ⟨rfl, rfl⟩)) fun bytes _ => ?_
  dsimp only
  rw [superblock_sector, pure_bind, Superblock.ofSector]
  generalize Superblock.read (Sector.ofBytes bytes) = s
  by_cases hcurrent : s.IsCurrent
  · rw [if_pos hcurrent, if_pos hcurrent]
    show Agrees total _ (if s.chunkCount = 0 then throw .corruptSuperblock >>= fun _ => pure s
      else pure s)
    by_cases hzero : s.chunkCount = 0
    · rw [if_pos hzero, if_pos hzero]
      exact .bind (.throw _) fun _ _ => .pure _
    · rw [if_neg hzero, if_neg hzero]
      exact .pure _
  · rw [if_neg hcurrent, if_neg hcurrent]
    exact .throw _

theorem agrees_readBlock {g : Geometry} (hg : g.Fits total) (b : UInt32) :
    Agrees (D := D) total (readBlock g b) (Reading.readBlock g b) := by
  have hlast := hg.2.2.2
  have hone : (1 : UInt32).toNat = 1 := rfl
  unfold readBlock
  rw [blockSector_eq hg]
  refine .bind (.lift _) fun lba ⟨d, e, _, hlba⟩ => ?_
  obtain ⟨hin, rfl⟩ := Geometry.runSector_eq_ok_iff.mp (lift_eq_ok_iff.mp hlba).1
  have hadd : (g.poolStart + b).toNat = g.poolStart.toNat + b.toNat := by
    have := total.toNat_lt
    rw [UInt32.toNat_add, Nat.mod_eq_of_lt (by omega)]
  exact .bind (.readSectors (.inl (by omega))) fun _ _ => .pure _

theorem agrees_readPoolMap {g : Geometry} (hg : g.Fits total) :
    Agrees (D := D) total (readPoolMap g) (Reading.readPoolMap g) := by
  have hmap := hg.toNat_mapSectors
  have hle := UInt32.le_iff_toNat_le.mp (UInt32.le_of_lt hg.2.1)
  have hpool := g.poolStart.toNat_lt
  have hbytes : (g.poolStart.toNat - g.mapStart.toNat) * sectorSize < 2 ^ 64 := by
    rw [show sectorSize = 512 from rfl]
    omega
  have hcount : UInt32.ofNat (g.poolStart.toNat - g.mapStart.toNat) = g.mapSectors := by
    rw [← hmap, Nat.add_sub_cancel_left, UInt32.ofNat_toNat]
  unfold readPoolMap
  rw [minus_of_le hle, pure_bind, narrow_of_lt hbytes, pure_bind, hcount]
  refine .bind (.readSectors (.inl ?_)) fun bytes _ => ?_
  · have := hg.2.2.2
    omega
  · rw [poolMap_eq]
    exact .lift _

theorem agrees_readMap {g : Geometry} (hg : g.Fits total) :
    Agrees (D := D) total (readMap g) (Reading.readMap g) :=
  .bind (agrees_readPoolMap hg) fun _ _ => .pure _

omit [Backed D] in
theorem usedCount_lt_of_readMap {g : Geometry} {m : BlockMap} {d e : D}
    (h : Reading.readMap g d = .ok m e) : m.usedCount < 2 ^ 32 := by
  obtain ⟨bytes, -, hm⟩ := Reading.readMap_eq_ok_iff.mp h
  exact (BlockMap.usedCount_le_of_ofBytes hm).trans_lt g.blockCount.toNat_lt

section

variable {rb : UInt32 → Strict D Sector} {r : UInt32 → Attempt D Sector}

theorem agrees_follow (h : ∀ b, Agrees total (rb b) (r b)) (count steps : Nat) (b : UInt32)
    (found : InodeMap) :
    Agrees total (follow rb count steps b found) (InodeMap.follow r count steps b found) := by
  have hwords : chunksPerMapBlock < wordsPerSector := by decide
  induction steps generalizing b found with
  | zero => exact .pure _
  | succ steps ih =>
    unfold follow InodeMap.follow
    by_cases hdone : count ≤ found.chunks.size
    · rw [if_pos hdone, if_pos hdone]
      exact .pure _
    · rw [if_neg hdone, if_neg hdone]
      refine .bind (h b) fun sector _ => ?_
      rw [minus_of_le (Nat.le_of_not_le hdone), pure_bind]
      simp only []
      rw [words_sector sector ((Nat.min_le_right ..).trans hwords.le), pure_bind,
        word_sector sector hwords, pure_bind]
      split
      · exact .pure _
      · exact ih _ _

theorem agrees_readInodeMap (h : ∀ b, Agrees total (rb b) (r b)) (start : UInt32) (count : Nat) :
    Agrees total (readInodeMap rb start count) (InodeMap.read r start count) := by
  refine .bind (agrees_follow h _ _ _ _) fun found _ => ?_
  simp only []
  split
  · exact .bind (.throw _) fun _ _ => .pure _
  · exact .bind (.pure _) fun _ _ => .pure _

theorem agrees_payloadBlocks (h : ∀ b, Agrees total (rb b) (r b)) (x : Record) :
    Agrees total (payloadBlocks rb x) (x.payloadBlocks r) := by
  unfold payloadBlocks Record.payloadBlocks
  rw [payloadSize_eq]
  refine .bind (.lift _) fun size _ => ?_
  simp only []
  split
  · rename_i hmore
    refine .bind (h _) fun sector _ => ?_
    rw [words_sector sector (Nat.le_refl _), pure_bind, minus_of_le hmore.1.le, pure_bind,
      List.take_of_length_le sector.length_words.le]
    exact .pure _
  · exact .pure _

/-- Blocks that a payload has room for are read into it one by one. -/
theorem agrees_readPayload (h : ∀ b, Agrees total (rb b) (r b)) {size : Nat}
    {blocks : List UInt32} (hroom : blocks.length ≤ partsOf size sectorSize) :
    Agrees total (readPayload rb size blocks) (Record.readPayload r size blocks) := by
  induction blocks generalizing size with
  | nil =>
    have hnone : Record.readPayload r size [] = (pure [] : Attempt D (List UInt8)) := by
      rw [Record.readPayload, List.mapM_nil, pure_bind, Sector.join, List.flatMap_nil,
        List.take_nil]
    rw [readPayload, hnone]
    exact .pure _
  | cons b blocks ih =>
    cases size with
    | zero => exact absurd (Nat.eq_zero_of_le_zero hroom) (Nat.succ_ne_zero _)
    | succ left =>
      -- a block takes a sector of what is left, or all of it
      have hstep : Record.readPayload r (left + 1) (b :: blocks)
          = r b >>= fun sector => Record.readPayload r (left + 1 - sectorSize) blocks >>= fun rest =>
              pure (sector.bytes.take (left + 1) ++ rest) := by
        simp only [Record.readPayload, List.mapM_cons, bind_assoc, pure_bind, Sector.join,
          List.flatMap_cons, List.take_append, Sector.length_eq]
      rw [hstep, readPayload.eq_3 rb (left + 1) b blocks (Nat.succ_ne_zero left)]
      refine .bind (h b) fun sector _ => ?_
      have hlen := sector.length_eq
      have hpart : (sector.bytes.take (min sectorSize (left + 1))).length
          = min sectorSize (left + 1) := List.length_take_of_le (by omega)
      have htake : sector.bytes.take (min sectorSize (left + 1)) = sector.bytes.take (left + 1) := by
        rw [← hlen, Nat.min_comm, ← List.take_take, List.take_length]
      have hrest : left + 1 - min sectorSize (left + 1) = left + 1 - sectorSize := by omega
      rw [slice_of_le (by omega), pure_bind, List.drop_zero, hpart, minus_of_le (by omega), pure_bind,
        hrest, htake]
      refine .bind (ih ?_) fun rest _ => .pure _
      unfold partsOf at hroom ⊢
      rw [List.length_cons, show sectorSize = 512 from rfl] at hroom
      rw [show sectorSize = 512 from rfl]
      omega

theorem agrees_decode (h : ∀ b, Agrees total (rb b) (r b)) (x : Record) :
    Agrees total (decode rb x) (x.decode r) := by
  unfold decode Record.decode
  rw [payloadSize_eq]
  refine .bind (.lift _) fun size ⟨d, e, _, hsize⟩ => ?_
  have hsize := (lift_eq_ok_iff.mp hsize).1
  refine .bind (agrees_payloadBlocks h x) fun blocks ⟨d, e, _, hblocks⟩ => ?_
  have hread := agrees_readPayload h (length_payloadBlocks hsize hblocks)
  refine .bind (.lift _) fun kind _ => ?_
  cases kind with
  | free => exact .pure _
  | file =>
    exact .bind (.lift _) fun _ _ => .bind hread fun _ _ => .bind (.lift _) fun _ _ =>
      .bind (.lift _) fun _ _ => .pure _
  | directory =>
    refine .bind hread fun payload ⟨d, e, _, hpayload⟩ => .bind (.lift _) fun entries _ => ?_
    have hle := length_readPayload_le hpayload
    have hmod := Nat.mod_le payload.length entrySize
    have hwhole : payload.length - payload.length % entrySize
        = entrySize * (payload.length / entrySize) := by
      have := Nat.div_add_mod payload.length entrySize
      omega
    have hheld : (padTo 0 size payload).take (entrySize * (payload.length / entrySize))
        = payload.take (entrySize * (payload.length / entrySize)) := by
      rw [padTo_eq_append, List.take_of_length_le hle, List.take_append_of_le_length (by omega)]
    have hlen : (payload.take (entrySize * (payload.length / entrySize))).length / entrySize
        = payload.length / entrySize := by
      rw [List.length_take_of_le (by omega), Nat.mul_div_cancel_left _ (by decide)]
    have hentries : ((pieces entrySize (payload.length / entrySize) payload).mapM entry :
        Strict D (List Entry))
          = lift ((pieces entrySize (payload.length / entrySize) payload).mapM Entry.ofSlot) :=
      mapM_lift fun slot hslot => entry_eq (length_of_mem_pieces (by omega) slot hslot)
    rw [minus_of_le hmod, pure_bind, hwhole, slice_of_le (by rw [length_padTo]; omega), pure_bind,
      List.drop_zero, hheld, hlen, pieces_take (Nat.le_refl _), hentries]
    exact .bind (.lift _) fun _ _ => .bind (.lift _) fun _ _ => .pure _

end

/-! ### Agreement on the table -/

theorem table_eq {σ : Type} {chunks : Nat} (h : chunks < 2 ^ 32) :
    (table chunks : Strict σ Tree) = lift (Tree.empty.withRoom (chunks * recordsPerChunk)) := by
  have hsize : chunks * recordsPerChunk < 2 ^ 64 := by
    rw [show recordsPerChunk = 8 from rfl]
    omega
  rw [table, narrow_of_lt hsize, pure_bind]

theorem restart_eq {σ : Type} (t : Tree) : (restart t : Strict σ Tree) = pure t.restart := by
  have hpos : 0 < t.slots.size := Nat.lt_of_lt_of_le (by decide) t.initial_le_size
  rw [restart, Array.getElem?_eq_getElem hpos]
  rfl

theorem agrees_loadRecord {g : Geometry} (hg : g.Fits total) {t : Tree} {c j : Nat}
    {raw : List UInt8} (hraw : raw.length = recordSize)
    (hroom : recordsPerChunk * c + j < t.slots.size) :
    Agrees (D := D) total (loadRecord g c t (raw, j))
      (Reading.loadRecord g t (.ofWords (Word.parse raw), recordsPerChunk * c + j)) := by
  have hmax := t.size_le_max
  have hlimit : maxSlots < 2 ^ 64 := by decide
  unfold loadRecord Reading.loadRecord
  rw [known_ofBytes? hraw, pure_bind]
  split
  · exact .pure _
  · rw [Nat.mul_comm c, narrow_of_lt (by omega), pure_bind, narrow_of_lt (by omega), pure_bind]
    exact .bind (agrees_decode (agrees_readBlock hg) _) fun i _ => .lift _

theorem zipIdx_ofChunk (s : Sector) (k : Nat) :
    (Record.ofChunk s).zipIdx k = (pieces recordSize recordsPerChunk s.bytes).zipIdx.map
      fun raw => (.ofWords (Word.parse raw.1), k + raw.2) := by
  rw [← map_pieces_chunk, List.zipIdx_map]
  conv_lhs => rw [List.zipIdx_eq_map_add]
  rw [List.map_map]
  rfl

theorem agrees_loadChunk {g : Geometry} (hg : g.Fits total) {t : Tree} {b : UInt32} {c : Nat}
    (hroom : recordsPerChunk * (c + 1) ≤ t.slots.size) :
    Agrees (D := D) total (loadChunk g t (b, c)) (Reading.loadChunk g t (b, c)) := by
  refine .bind (agrees_readBlock hg b) fun sector _ => ?_
  have hchunk : recordSize * recordsPerChunk ≤ sector.bytes.length := sector.length_eq.ge
  simp only []
  rw [zipIdx_ofChunk, List.foldlM_map]
  refine .foldlM (P := fun u => u.slots.size = t.slots.size) (fun u raw hraw hu => ?_)
    (fun u x _ d v e hu hv => (Reading.size_loadRecord hv).trans hu) rfl
  have hj := List.snd_lt_of_mem_zipIdx hraw
  rw [length_pieces] at hj
  rw [Nat.mul_succ] at hroom
  exact agrees_loadRecord hg (length_of_mem_pieces hchunk _ (List.fst_mem_of_mem_zipIdx hraw))
    (by omega)

theorem agrees_loadTree {g : Geometry} (hg : g.Fits total) {t : Tree} {i : InodeMap}
    (hroom : recordsPerChunk * i.chunks.size ≤ t.slots.size) :
    Agrees (D := D) total (loadTree g t i) (Reading.loadTree g t i) := by
  unfold loadTree
  rw [restart_eq, pure_bind]
  refine .bind (.foldlM (P := fun u => u.slots.size = t.slots.size) (fun u chunk hchunk hu => ?_)
    (fun u x _ d v e hu hv => (Reading.size_loadChunk hv).trans hu) (Tree.size_restart t))
    fun u _ => ?_
  · have hc := List.snd_lt_of_mem_zipIdx hchunk
    rw [Array.length_toList] at hc
    refine agrees_loadChunk hg ?_
    rw [hu]
    exact (Nat.mul_le_mul_left _ hc).trans hroom
  · split
    · exact .pure _
    · exact .throw _

/-- What comes behind the block map may count on a pool that is on the disk. -/
theorem agrees_head {α : Type} {M : Geometry → Type} {rx : ∀ g, Strict D (M g)}
    {ry : ∀ g, Attempt D (M g)} {x : Superblock → ∀ g, M g → Strict D α}
    {y : Superblock → ∀ g, M g → Attempt D α} (hr : ∀ g, g.Fits total → Agrees total (rx g) (ry g))
    (h : ∀ s g m, g.Fits total → (∃ d e, ry g d = .ok m e) → Agrees total (x s g m) (y s g m)) :
    Agrees total
      (do
        let s ← readSuperblock
        let g ← geometryOn s (← of Device.totalSectors)
        x s g (← rx g))
      (do
        let s ← Reading.readSuperblock
        let g ← s.geometryOn (← Device.totalSectors)
        y s g (← ry g)) := by
  refine .bind agrees_readSuperblock fun s _ => ?_
  refine .bind .totalSectors fun n ⟨d, e, hd, hn⟩ => ?_
  obtain rfl : n = total := by
    injection hn with hn _
    exact hn.symm.trans hd
  rw [geometryOn_eq]
  refine .bind (.lift _) fun g ⟨d, e, _, hg⟩ => ?_
  have hfits := Geometry.fits_of_geometryOn (lift_eq_ok_iff.mp hg).1
  exact .bind (hr g hfits) fun m ⟨d, e, _, hm⟩ => h s g m hfits ⟨d, e, hm⟩

/-- A disk is read without a fault, whatever it holds. -/
theorem agrees_load : Agrees (D := D) total load Volume.load := by
  refine agrees_head (fun g => agrees_readPoolMap) fun s g m hg ⟨d, e, hm⟩ => ?_
  have hused := usedCount_lt_of_readMap (Reading.readPoolMap_eq_ok_iff.mp hm)
  rw [table_eq s.chunkCount.toNat_lt]
  refine .bind (.lift _) fun t ⟨d, e, _, ht⟩ => ?_
  refine .bind (agrees_readInodeMap (agrees_readBlock hg) _ _) fun i ⟨d, e, _, hi⟩ => ?_
  have hslots := InodeMap.slots_enough (lift_eq_ok_iff.mp ht).1 hi
  refine .bind (agrees_loadTree hg hslots) fun w _ => ?_
  rw [usedCount_eq hused]
  exact .pure _

end

end Strict

end SectorFs

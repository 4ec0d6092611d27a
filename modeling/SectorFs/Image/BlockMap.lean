import SectorFs.Image.Geometry

/-!
# Block maps

A block map has one bit for each block of the pool, set when the block is in use:
block `b` is bit `b % 8` of byte `b / 8`.  Space is handed out in runs, and a run
goes to the first place where it fits (`BlockMap.allocate`).  Bits behind the last
block are dropped when a map is read (`BlockMap.ofBytes`).  A `PoolMap` is known to be
the map of the pool of a disk.
-/

namespace SectorFs

/-- Which blocks of a pool are in use. -/
structure BlockMap where
  blocks : Nat
  bytes : Array UInt8
  size_eq : bytes.size = partsOf blocks 8
deriving DecidableEq

namespace BlockMap

/-- The map of a pool with no block in use. -/
def empty (blocks : Nat) : BlockMap where
  blocks := blocks
  bytes := Array.replicate (partsOf blocks 8) 0
  size_eq := by simp

instance : Inhabited BlockMap := ⟨empty 0⟩

/-- The map in a byte string, which may be longer than the map. -/
def ofBytes (bytes : List UInt8) (blocks : Nat) : Except Failure BlockMap :=
  if h : bytes.length < partsOf blocks 8 then .error .corrupted
  else .ok {
    blocks := blocks
    bytes := (bytes.take (partsOf blocks 8)).toArray.modify (blocks / 8) fun byte =>
      UInt8.ofNat (byte.toNat % (1 <<< (blocks % 8)))
    size_eq := by simp; omega }

def bit (m : BlockMap) (b : Nat) : Bool := (m.bytes.getD (b / 8) 0).toNat.testBit (b % 8)

/-- Whether a block is there and in use. -/
def isAllocated (m : BlockMap) (b : Nat) : Bool := decide (b < m.blocks) && m.bit b

/-! ### Handing out runs -/

/-- The first run of `count` free blocks that starts at `pos` or among the `run` free
blocks before it.  Between runs a byte of used blocks is skipped at once. -/
def scan (m : BlockMap) (count pos run : Nat) : Option Nat :=
  if pos < m.blocks then
    if run = 0 ∧ pos % 8 = 0 ∧ m.bytes[pos / 8]? = some 0xff then m.scan count (pos + 8) 0
    else if m.isAllocated pos then m.scan count (pos + 1) 0
    else if run + 1 = count then some (pos - run)
    else m.scan count (pos + 1) (run + 1)
  else none
termination_by m.blocks - pos

/-- The map with one more block in use. -/
def mark (m : BlockMap) (b : Nat) : BlockMap :=
  { m with
    bytes := m.bytes.modify (b / 8) fun byte => UInt8.ofNat (byte.toNat ||| 1 <<< (b % 8))
    size_eq := by simpa using m.size_eq }

/-- The map with a run of blocks in use. -/
def markRun (m : BlockMap) (start count : Nat) : BlockMap :=
  (List.range' start count).foldl mark m

/-- Takes the first run of `count` free blocks into use. -/
def allocate (m : BlockMap) (count : Nat) : Except Failure (Nat × BlockMap) :=
  if count = 0 then .error .invalidArgument
  else
    match m.scan count 0 0 with
    | some start => .ok (start, m.markRun start count)
    | none => .error .outOfDiskSpace

/-- The map of the same pool with no block in use. -/
def clear (m : BlockMap) : BlockMap := empty m.blocks

/-! ### Counting -/

/-- Number of bits set in a byte. -/
def ones (byte : UInt8) : Nat := (List.range 8).countP byte.toNat.testBit

def usedCount (m : BlockMap) : Nat := m.bytes.foldl (fun n byte => n + ones byte) 0

def freeCount (m : BlockMap) : Nat := m.blocks - m.usedCount

/-! ### On disk -/

/-- The map in `n` sectors, zeros behind it. -/
def toSectors (m : BlockMap) (n : Nat) : Except Failure (List Sector) :=
  if sectorSize * n < m.bytes.size then .error .corrupted
  else .ok ((pieces sectorSize n m.bytes.toList).map Sector.ofBytes)

@[simp] theorem blocks_mark (m : BlockMap) (b : Nat) : (m.mark b).blocks = m.blocks := rfl

@[simp] theorem blocks_markRun (m : BlockMap) (start count : Nat) :
    (m.markRun start count).blocks = m.blocks := by
  unfold markRun
  generalize List.range' start count = run
  induction run generalizing m with
  | nil => rfl
  | cons b run ih => rw [List.foldl_cons, ih, blocks_mark]

theorem blocks_of_allocate {m n : BlockMap} {count start : Nat}
    (h : m.allocate count = .ok (start, n)) : n.blocks = m.blocks := by
  unfold allocate at h
  split at h
  · cases h
  · split at h <;> simp at h
    rw [← h.2, blocks_markRun]

theorem blocks_of_ofBytes {bytes : List UInt8} {n : Nat} {m : BlockMap}
    (h : ofBytes bytes n = .ok m) : m.blocks = n := by
  unfold ofBytes at h
  split at h
  · cases h
  · injection h with h
    rw [← h]

end BlockMap

/-! ### Maps of a pool -/

/-- The map of a pool, with a bit for each of its blocks. -/
abbrev PoolMap (g : Geometry) : Type := { m : BlockMap // m.blocks = g.blockCount.toNat }

namespace PoolMap

/-- The map of a new pool. -/
def empty (g : Geometry) : PoolMap g := ⟨.empty g.blockCount.toNat, rfl⟩

/-- The map of a pool in a byte string. -/
def ofBytes (g : Geometry) (bytes : List UInt8) : Except Failure (PoolMap g) :=
  match h : BlockMap.ofBytes bytes g.blockCount.toNat with
  | .ok m => .ok ⟨m, BlockMap.blocks_of_ofBytes h⟩
  | .error f => .error f

variable {g : Geometry}

theorem clear_eq (m : PoolMap g) : m.1.clear = .empty g.blockCount.toNat := by
  rw [BlockMap.clear, m.2]

theorem ofBytes_of_error {bytes : List UInt8} {f : Failure}
    (h : BlockMap.ofBytes bytes g.blockCount.toNat = .error f) : ofBytes g bytes = .error f := by
  unfold ofBytes
  split
  · rename_i m hm
    cases h.symm.trans hm
  · rename_i f' hf
    exact congrArg Except.error (Except.error.inj (hf.symm.trans h))

theorem ofBytes_eq_ok_iff {bytes : List UInt8} {m : PoolMap g} :
    ofBytes g bytes = .ok m ↔ BlockMap.ofBytes bytes g.blockCount.toNat = .ok m.1 := by
  unfold ofBytes
  split
  · rename_i n hn
    constructor
    · intro h
      rw [← Except.ok.inj h]
      exact hn
    · intro h
      exact congrArg Except.ok (Subtype.ext (Except.ok.inj (hn.symm.trans h)))
  · rename_i f hf
    exact ⟨nofun, fun h => nomatch hf.symm.trans h⟩

end PoolMap

end SectorFs

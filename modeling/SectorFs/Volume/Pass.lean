import SectorFs.Disk.Device
import SectorFs.Image.BlockMap
import SectorFs.Image.InodeMap
import SectorFs.Image.Record
import SectorFs.Image.Superblock
import SectorFs.Tree.Basic

/-!
# Passes

A pass brings a tree to disk.  `Pass.plan` decides all of it before the disk is
touched: the block map of the pool is cleared and filled anew, first with the run of
chunks, then with the inode map, then with a run for the payload of each inode, in the
order of the table.  The plan is a list of steps, and `Pass.run` takes them one by one
up to the first that fails.  Payloads come first and the superblock last.
-/

namespace SectorFs

open Attempt

/-- One step of a pass. -/
inductive Step where
  /-- One transfer to the disk. -/
  | write (lba : UInt32) (sectors : List Sector)
  /-- The end of a pass. -/
  | flush
  /-- What was to be written cannot be. -/
  | stop (failure : Failure)
deriving DecidableEq

namespace Step

/-- Writes blocks of the pool, all of which must be there. -/
def writeRun (g : Geometry) (start : UInt32) (sectors : List Sector) : Step :=
  match g.runSector start (UInt32.ofNat sectors.length) with
  | .ok lba => .write lba sectors
  | .error f => .stop f

def writeMap (g : Geometry) (m : BlockMap) : Step :=
  match m.toSectors g.mapSectors.toNat with
  | .ok sectors => .write g.mapStart sectors
  | .error f => .stop f

/-- Takes a step. -/
def run {D : Type} [SectorDevice D] : Step → Attempt D Unit
  | write lba sectors => Device.writeSectors lba sectors
  | flush => Device.flush
  | stop f => throw f

end Step

/-- What it takes to bring a tree to disk. -/
structure Pass where
  /-- The blocks that the tree takes. -/
  map : BlockMap
  superblock : Superblock
  steps : List Step

namespace Pass

/-! ### Space -/

/-- Gives an inode a run for its payload, with the indirect block at its end.  A buffer
holds no more than fits in a run (`Inode.payloadSize_le`), so `fileTooLarge` is reported
for no inode. -/
def place (m : BlockMap) (i : Inode) : Except Failure (Placement × BlockMap) :=
  let needed := partsOf i.payloadSize sectorSize
  if maxPayloadBlocks < needed then .error .fileTooLarge
  else if needed = 0 then .ok (⟨[], none⟩, m)
  else do
    let run := if directBlocks < needed then needed + 1 else needed
    let (start, m) ← m.allocate run
    let indirect := if directBlocks < needed then some (UInt32.ofNat (start + needed)) else none
    return (⟨(List.range' start needed).map UInt32.ofNat, indirect⟩, m)

/-- Gives every inode of a list its run. -/
def placeAll (m : BlockMap) : List Inode → Except Failure (List (Inode × Placement) × BlockMap)
  | [] => .ok ([], m)
  | i :: rest => do
    let (placement, m) ← place m i
    let (placed, m) ← placeAll m rest
    return ((i, placement) :: placed, m)

/-! ### Steps -/

def recordOf (slot : Inode × Placement) : Record :=
  if slot.1.isFree then .free else .describe slot.1 slot.2

/-- Brings a payload to the blocks it was given, and their list to the indirect
block. -/
def payloadSteps (g : Geometry) (slot : Inode × Placement) : List Step :=
  match slot.2.blocks with
  | [] => []
  | start :: _ =>
    match slot.1.payload with
    | .error f => [.stop f]
    | .ok bytes =>
      let list := match slot.2.indirect, slot.2.indirectSector? with
        | some block, some sector => [Step.writeRun g block [sector]]
        | _, _ => []
      Step.writeRun g start (Sector.split bytes) :: list

/-- Number of chunks that the slots of a tree take, up to the last one in use. -/
def chunkCount (t : Tree) : Nat := partsOf (t.lastUsed + 1) recordsPerChunk

/-- All that brings a tree to a disk.  Of the block map as it was, only the size matters. -/
def plan (g : Geometry) (current : PoolMap g) (t : Tree) : Except Failure Pass := do
  let chunks := chunkCount t
  let (chunkStart, m) ← current.1.clear.allocate chunks
  let (mapStart, m) ← m.allocate (partsOf chunks chunksPerMapBlock)
  let (placed, m) ← placeAll m (t.slots.toList.take (chunks * recordsPerChunk))
  let superblock := Superblock.ofGeometry g (UInt32.ofNat mapStart) (UInt32.ofNat chunks)
  return {
    map := m
    superblock := superblock
    steps := placed.flatMap (payloadSteps g) ++ [
      Step.writeRun g (UInt32.ofNat chunkStart)
        (Record.toChunks (placed.map recordOf) chunks),
      Step.writeRun g (UInt32.ofNat mapStart) (InodeMap.sectors chunkStart chunks mapStart),
      Step.writeMap g m,
      Step.write 0 [superblock.toSector],
      Step.flush] }

/-- Takes the steps of a pass. -/
def run {D : Type} [SectorDevice D] (p : Pass) : Attempt D Unit :=
  p.steps.forM Step.run

/-! ### What allocation keeps -/

section

variable {P : BlockMap → Prop} {m n : BlockMap}

theorem place_keeps (hP : ∀ m n count start, P m → m.allocate count = .ok (start, n) → P n)
    (hm : P m) {i : Inode} {p : Placement} (h : place m i = .ok (p, n)) : P n := by
  unfold place at h
  simp only [] at h
  split at h
  · cases h
  · split at h
    · injection h with h
      obtain ⟨-, rfl⟩ := Prod.ext_iff.mp h
      exact hm
    · obtain ⟨⟨start, k⟩, hk, h⟩ := except_bind_eq_ok_iff.mp h
      injection h with h
      obtain ⟨-, rfl⟩ := Prod.ext_iff.mp h
      exact hP _ _ _ _ hm hk

theorem placeAll_keeps (hP : ∀ m n count start, P m → m.allocate count = .ok (start, n) → P n)
    (hm : P m) {slots : List Inode} {placed : List (Inode × Placement)}
    (h : placeAll m slots = .ok (placed, n)) : P n := by
  induction slots generalizing m placed with
  | nil =>
    injection h with h
    obtain ⟨-, rfl⟩ := Prod.ext_iff.mp h
    exact hm
  | cons i slots ih =>
    obtain ⟨⟨p, k⟩, hk, h⟩ := except_bind_eq_ok_iff.mp h
    obtain ⟨⟨rest, l⟩, hl, h⟩ := except_bind_eq_ok_iff.mp h
    injection h with h
    obtain ⟨-, rfl⟩ := Prod.ext_iff.mp h
    exact ih (place_keeps hP hm hk) hl

/-- A plan starts from a map that is clear and only allocates from it. -/
theorem plan_keeps (hP : ∀ m n count start, P m → m.allocate count = .ok (start, n) → P n)
    {g : Geometry} {current : PoolMap g} {t : Tree} {p : Pass} (hclear : P current.1.clear)
    (h : plan g current t = .ok p) : P p.map := by
  obtain ⟨⟨chunkStart, m₁⟩, h₁, h⟩ := except_bind_eq_ok_iff.mp h
  obtain ⟨⟨mapStart, m₂⟩, h₂, h⟩ := except_bind_eq_ok_iff.mp h
  obtain ⟨⟨placed, m₃⟩, h₃, h⟩ := except_bind_eq_ok_iff.mp h
  injection h with h
  rw [← h]
  exact placeAll_keeps hP (hP _ _ _ _ (hP _ _ _ _ hclear h₁) h₂) h₃

end

theorem blocks_of_plan {g : Geometry} {current : PoolMap g} {t : Tree} {p : Pass}
    (h : plan g current t = .ok p) : p.map.blocks = g.blockCount.toNat := by
  refine plan_keeps (P := fun m => m.blocks = g.blockCount.toNat) ?_ current.2 h
  intro m n count start hm ha
  exact (BlockMap.blocks_of_allocate ha).trans hm

end Pass

end SectorFs

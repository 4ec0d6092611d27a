import SectorFs.Disk.Memory

/-!
# Disks with faults

A disk in memory that refuses requests to order: after a number of writes, at bad
sectors, for all reads or for flushes, or because it is not there.  A request
that is refused this way does not reach the disk.  The writes that reach it are
kept in a log, with their first sector and their length.
-/

namespace SectorFs

/-- What is wrong with a disk. -/
structure Faults where
  /-- Writes until the disk refuses them, if it ever does. -/
  writesLeft : Option Nat
  /-- Sectors that no transfer may touch. -/
  bad : List UInt32
  failReads : Bool
  failFlush : Bool
  present : Bool
deriving DecidableEq

namespace Faults

/-- A disk in order. -/
def none : Faults where
  writesLeft := .none
  bad := []
  failReads := false
  failFlush := false
  present := true

/-- Whether a run of sectors touches a bad one. -/
def touchesBad (f : Faults) (lba count : UInt32) : Bool :=
  f.bad.any fun b => lba.toNat ≤ b.toNat && b.toNat < lba.toNat + count.toNat

/-- One write fewer to come. -/
def afterWrite (f : Faults) : Faults :=
  { f with writesLeft := f.writesLeft.map (· - 1) }

end Faults

structure FaultyDisk where
  disk : MemoryDisk
  faults : Faults
  /-- First sector and length of every write that reached the disk. -/
  log : Array (UInt32 × UInt32)
deriving DecidableEq

namespace FaultyDisk

/-- A disk in order, with nothing written yet. -/
def ofDisk (d : MemoryDisk) : FaultyDisk := ⟨d, .none, #[]⟩

/-- Lets a request through to the disk. -/
def forward {α : Type} (t : Transfer MemoryDisk α) : Transfer FaultyDisk α := fun d =>
  match t d.disk with
  | .ok a disk => .ok a { d with disk }
  | .error e disk => .error e { d with disk }

def read (lba count : UInt32) (size : Nat) : Transfer FaultyDisk (List UInt8) := fun d =>
  if d.faults.failReads || d.faults.touchesBad lba count then .error (.transfer lba) d
  else forward (MemoryDisk.read lba count size) d

def write (lba count : UInt32) (buffer : List UInt8) : Transfer FaultyDisk Unit := fun d =>
  if d.faults.writesLeft == some 0 || d.faults.touchesBad lba count then .error (.transfer lba) d
  else forward (MemoryDisk.write lba count buffer)
    { d with faults := d.faults.afterWrite, log := d.log.push (lba, count) }

def flush : Transfer FaultyDisk Unit := fun d =>
  if d.faults.failFlush then .error (.transfer 0) d else forward MemoryDisk.flush d

instance : SectorDevice FaultyDisk where
  read := read
  write := write
  flush := flush
  totalSectors d := d.disk.totalSectors
  present d := d.faults.present

end FaultyDisk

end SectorFs

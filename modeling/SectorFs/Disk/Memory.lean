import SectorFs.Disk.Device

/-!
# Disks in memory

A disk that is an array of sectors.  A refused transfer leaves it alone
(`read_error`, `write_error`), and reading never changes it (`read_ok`).
-/

namespace SectorFs

structure MemoryDisk where
  sectors : Array Sector
  /-- How often it was flushed. -/
  flushes : Nat
deriving DecidableEq

namespace MemoryDisk

/-- A disk of `n` sectors of zeros. -/
def blank (n : Nat) : MemoryDisk := ⟨Array.replicate n Sector.zero, 0⟩

/-- A disk that holds the whole sectors of an image; bytes behind them are dropped. -/
def ofImage (image : List UInt8) : MemoryDisk :=
  ⟨((pieces sectorSize (image.length / sectorSize) image).map Sector.ofBytes).toArray, 0⟩

def image (d : MemoryDisk) : List UInt8 := Sector.join d.sectors.toList

def sector? (d : MemoryDisk) (lba : Nat) : Option Sector := d.sectors[lba]?

def totalSectors (d : MemoryDisk) : UInt32 := UInt32.ofNat d.sectors.size

/-- The `count` sectors from `lba` on. -/
def run (d : MemoryDisk) (lba count : Nat) : List Sector :=
  (List.range count).map fun i => d.sectors.getD (lba + i) .zero

def storeRun (sectors : Array Sector) (lba : Nat) : List Sector → Array Sector
  | [] => sectors
  | s :: rest => storeRun (sectors.setIfInBounds lba s) (lba + 1) rest

/-- The disk with the sectors of a byte string stored from `lba` on. -/
def store (d : MemoryDisk) (lba : Nat) (bytes : List UInt8) : MemoryDisk :=
  { d with sectors := storeRun d.sectors lba (Sector.split bytes) }

/-- Changes bytes inside one sector, as far as they lie in it. -/
def patch (d : MemoryDisk) (lba start : Nat) (bytes : List UInt8) : MemoryDisk :=
  { d with
    sectors := d.sectors.modify lba fun s =>
      .ofBytes (s.bytes.take start ++ bytes ++ s.bytes.drop (start + bytes.length)) }

def read (lba count : UInt32) (size : Nat) : Transfer MemoryDisk (List UInt8) := fun d =>
  match Device.accept d.totalSectors lba count size with
  | .ok _ => .ok (Sector.join (d.run lba.toNat count.toNat)) d
  | .error e => .error e d

def write (lba count : UInt32) (buffer : List UInt8) : Transfer MemoryDisk Unit := fun d =>
  match Device.accept d.totalSectors lba count buffer.length with
  | .ok _ => .ok () (d.store lba.toNat buffer)
  | .error e => .error e d

/-- Counts a flush; what is written is there already. -/
def flush : Transfer MemoryDisk Unit := fun d =>
  .ok () { d with flushes := d.flushes + 1 }

instance : SectorDevice MemoryDisk where
  read := read
  write := write
  flush := flush
  totalSectors := totalSectors
  present _ := true

theorem read_ok {lba count : UInt32} {size : Nat} {d e : MemoryDisk} {bytes : List UInt8}
    (h : read lba count size d = .ok bytes e) :
    bytes = Sector.join (d.run lba.toNat count.toNat) ∧ e = d := by
  unfold read at h
  split at h
  · injection h with h1 h2
    exact ⟨h1.symm, h2.symm⟩
  · cases h

theorem read_error {lba count : UInt32} {size : Nat} {d e : MemoryDisk} {err : DeviceError}
    (h : read lba count size d = .error err e) : e = d := by
  unfold read at h
  split at h
  · cases h
  · injection h with _ h; exact h.symm

theorem write_error {lba count : UInt32} {buffer : List UInt8} {d e : MemoryDisk}
    {err : DeviceError} (h : write lba count buffer d = .error err e) : e = d := by
  unfold write at h
  split at h
  · cases h
  · injection h with _ h; exact h.symm

@[simp] theorem size_storeRun (sectors : Array Sector) (lba : Nat) (run : List Sector) :
    (storeRun sectors lba run).size = sectors.size := by
  induction run generalizing sectors lba with
  | nil => rfl
  | cons s rest ih => rw [storeRun, ih, Array.size_setIfInBounds]

end MemoryDisk

end SectorFs

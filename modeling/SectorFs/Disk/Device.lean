import SectorFs.Attempt
import SectorFs.Sector

/-!
# Devices

A device moves runs of sectors.  A transfer is asked for with the first
sector, the number of sectors and the number of bytes in the buffer, which must be
512 for each sector; `Device.accept` says when a disk of a given size takes it
(`Device.accept_eq_ok_iff`).  A filesystem sees every device error as an I/O error
(`Device.readSectors`, `Device.writeSectors`, `Device.flush`).
-/

namespace SectorFs

/-- Why a device refused a request. -/
inductive DeviceError where
  | notPresent
  | outOfRange (lba count : UInt32)
  | badBuffer (size : Nat) (count : UInt32)
  | transfer (lba : UInt32)
deriving DecidableEq, Repr

namespace DeviceError

def message : DeviceError → String
  | notPresent => "no device present"
  | outOfRange lba count =>
    "sectors " ++ lba.toNat.repr ++ ".." ++ lba.toNat.repr ++ "+" ++ count.toNat.repr
      ++ " out of range"
  | badBuffer size count =>
    "buffer of " ++ size.repr ++ " bytes does not match " ++ count.toNat.repr ++ " sectors"
  | transfer lba => "transfer failed at sector " ++ lba.toNat.repr

end DeviceError

/-- An action on a device `D` that the device may refuse. -/
abbrev Transfer (D α : Type) : Type := EStateM DeviceError D α

/-- A disk that moves runs of sectors. -/
class SectorDevice (D : Type) where
  /-- Reads `count` sectors from `lba` on into a buffer of the given size. -/
  read (lba count : UInt32) (size : Nat) : Transfer D (List UInt8)
  /-- Writes a buffer to `count` sectors from `lba` on. -/
  write (lba count : UInt32) (buffer : List UInt8) : Transfer D Unit
  /-- Makes what was written last. -/
  flush : Transfer D Unit
  /-- Number of sectors. -/
  totalSectors (disk : D) : UInt32
  /-- Whether there is a disk at all. -/
  present (disk : D) : Bool

/-- A transfer fits a disk of `total` sectors when its buffer has the right size
and its last sector is on the disk. -/
def Device.accept (total lba count : UInt32) (size : Nat) : Except DeviceError Unit :=
  if size ≠ sectorSize * count.toNat then .error (.badBuffer size count)
  else if total.toNat < lba.toNat + count.toNat then .error (.outOfRange lba count)
  else .ok ()

theorem Device.accept_eq_ok_iff {total lba count : UInt32} {size : Nat} :
    accept total lba count size = .ok () ↔
      size = sectorSize * count.toNat ∧ lba.toNat + count.toNat ≤ total.toNat := by
  unfold accept
  split
  · simp_all
  · split <;> simp_all

namespace Device

variable {D α : Type}

/-- A transfer on behalf of a filesystem, which sees any refusal as an I/O error. -/
def attempt (t : Transfer D α) : Attempt D α := fun d =>
  match t d with
  | .ok a d => .ok a d
  | .error _ d => .error .ioError d

variable [SectorDevice D]

def readSectors (lba count : UInt32) : Attempt D (List UInt8) :=
  attempt (SectorDevice.read lba count (sectorSize * count.toNat))

/-- Writes sectors from `lba` on in one transfer. -/
def writeSectors (lba : UInt32) (sectors : List Sector) : Attempt D Unit :=
  attempt (SectorDevice.write lba (UInt32.ofNat sectors.length) (Sector.join sectors))

/-- Makes what was written last. -/
def flush : Attempt D Unit :=
  attempt SectorDevice.flush

def requirePresent : Attempt D Unit :=
  Attempt.query fun d => if SectorDevice.present d then .ok () else .error .ioError

def totalSectors : Attempt D UInt32 :=
  Attempt.query fun d => .ok (SectorDevice.totalSectors d)

end Device

end SectorFs

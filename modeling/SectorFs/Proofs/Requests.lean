import Mathlib.Logic.Relation
import SectorFs.Proofs.Attempt
import SectorFs.Proofs.Disk

/-!
# Requests

What was asked of a device can be told from where that leads: `Asked p d e` says that
requests of the kind `p`, granted or not, lead from `d` to `e`.  An attempt makes no other
requests when its parts make none (`Attempt.Asks`), and reads alone leave the stored
sectors as they are (`Asked.disk_eq`).

A device is in order when it is there and keeps granting what the disk in memory behind it
would (`InOrder`).  Every disk in memory is, and so is one behind no faults.
-/

namespace SectorFs

open Attempt

/-- What a filesystem asks of a device. -/
inductive Request where
  | read (lba count : UInt32)
  | write (lba : UInt32) (sectors : List Sector)
  | flush

namespace Request

/-- A request that does not write or flush. -/
def IsRead : Request → Prop
  | read .. => True
  | _ => False

variable {D : Type} [SectorDevice D]

/-- The device after a request, whether it was granted or not. -/
def after (d : D) : Request → D
  | read lba count => (Device.readSectors lba count).after d
  | write lba sectors => (Device.writeSectors lba sectors).after d
  | flush => Device.flush.after d

/-- The device does what is asked. -/
def Granted (d : D) : Request → Prop
  | read lba count => ∃ bytes e, Device.readSectors lba count d = .ok bytes e
  | write lba sectors => ∃ e, Device.writeSectors lba sectors d = .ok () e
  | flush => ∃ e, Device.flush d = .ok () e

end Request

/-! ### Requests of one kind -/

section

variable {D : Type} [SectorDevice D] {α β : Type} {p q : Request → Prop}

/-- Requests of one kind lead from one state of a device to another. -/
def Asked (p : Request → Prop) : D → D → Prop :=
  Relation.ReflTransGen fun d e => ∃ r : Request, p r ∧ r.after d = e

theorem Asked.mono (h : ∀ r, p r → q r) {d e : D} (hp : Asked p d e) : Asked q d e :=
  Relation.ReflTransGen.mono (fun _ _ ⟨r, hr, hd⟩ => ⟨r, h r hr, hd⟩) _ _ hp

instance : IsPreorder D (Asked p) := inferInstanceAs (IsPreorder D (Relation.ReflTransGen _))

theorem Asked.once {r : Request} (hr : p r) (d : D) : Asked p d (r.after d) :=
  .single ⟨r, hr, rfl⟩

namespace Attempt

/-- All that an attempt asks of a device, however it ends, is of one kind. -/
def Asks (p : Request → Prop) (x : Attempt D α) : Prop := ∀ d, Asked p d (x.after d)

theorem Asks.of_ok {x : Attempt D α} {d e : D} {a : α} (h : x.Asks p) (hx : x d = .ok a e) :
    Asked p d e :=
  Moves.of_ok h hx

theorem Asks.of_error {x : Attempt D α} {d e : D} {f : Failure} (h : x.Asks p)
    (hx : x d = .error f e) : Asked p d e :=
  Moves.of_error h hx

theorem Asks.pure (a : α) : (Pure.pure a : Attempt D α).Asks p := Moves.pure a

theorem Asks.throw (f : Failure) : (MonadExcept.throw f : Attempt D α).Asks p := Moves.throw f

theorem Asks.query (f : D → Except Failure α) : (Attempt.query f).Asks p := Moves.query f

theorem Asks.lift (x : Except Failure α) : (liftM x : Attempt D α).Asks p := Moves.lift x

theorem Asks.bind {x : Attempt D α} {f : α → Attempt D β} (hx : x.Asks p)
    (hf : ∀ a, (f a).Asks p) : (x >>= f).Asks p :=
  Moves.bind hx hf

theorem Asks.forM {f : α → Attempt D PUnit} (h : ∀ a, (f a).Asks p) (l : List α) :
    (l.forM f).Asks p :=
  Moves.forM h l

theorem asks_readSectors (lba count : UInt32) :
    (Device.readSectors lba count : Attempt D _).Asks Request.IsRead :=
  Asked.once (r := .read lba count) trivial

theorem asks_writeSectors (lba : UInt32) (sectors : List Sector) :
    (Device.writeSectors lba sectors : Attempt D _).Asks fun _ => True :=
  Asked.once (r := .write lba sectors) trivial

theorem asks_flush : (Device.flush : Attempt D _).Asks fun _ => True :=
  Asked.once (r := .flush) trivial

end Attempt

end

/-! ### What is stored -/

section

variable {D : Type} [SectorDevice D] [Backed D]

open Backed (disk)

namespace Device

variable {lba count : UInt32} {d e : D}

theorem readSectors_ok {bytes : List UInt8} (h : readSectors lba count d = .ok bytes e) :
    readSectors lba count (disk d) = .ok bytes (disk d) ∧ disk e = disk d := by
  have hd := Backed.read_ok (attempt_eq_ok_iff.mp h)
  have he := (MemoryDisk.read_ok hd).2
  rw [he] at hd
  exact ⟨attempt_eq_ok_iff.mpr hd, he⟩

theorem readSectors_error {f : Failure} (h : readSectors lba count d = .error f e) :
    f = .ioError ∧ disk e = disk d := by
  obtain ⟨hf, _, he⟩ := attempt_eq_error_iff.mp h
  exact ⟨hf, Backed.read_error he⟩

end Device

theorem Request.disk_after {r : Request} (hr : r.IsRead) (d : D) :
    disk (r.after d) = disk d := by
  cases r with
  | read lba count =>
    show disk ((Device.readSectors lba count).after d) = disk d
    unfold Attempt.after
    split
    · rename_i h
      exact (Device.readSectors_ok h).2
    · rename_i h
      exact (Device.readSectors_error h).2
  | write lba sectors => exact hr.elim
  | flush => exact hr.elim

/-- Reads change nothing that is stored. -/
theorem Asked.disk_eq {d e : D} (h : Asked Request.IsRead d e) : disk e = disk d := by
  induction h with
  | refl => rfl
  | tail _ hstep ih =>
    obtain ⟨r, hr, rfl⟩ := hstep
    rw [Request.disk_after hr, ih]

/-! ### Devices in order -/

/-- A device that is there and does what is asked if the disk in memory behind it would. -/
structure Grants (d : D) : Prop where
  present : SectorDevice.present d = true
  granted : ∀ r : Request, r.Granted (disk d) → r.Granted d

/-- Nothing that is asked of a device brings it to refuse what the disk in memory behind it
would do. -/
def InOrder (d : D) : Prop := ∀ e, Asked (fun _ => True) d e → Grants e

theorem InOrder.grants {d : D} (h : InOrder d) : Grants d := h d .refl

theorem InOrder.of_asked {p : Request → Prop} {d e : D} (h : InOrder d) (he : Asked p d e) :
    InOrder e :=
  fun c hc => h c ((he.mono fun _ _ => trivial).trans hc)

theorem MemoryDisk.inOrder (d : MemoryDisk) : InOrder d := fun _ _ => ⟨rfl, fun _ h => h⟩

namespace FaultyDisk

variable {α : Type} {d : FaultyDisk}

theorem forward_of_ok {t : Transfer MemoryDisk α} {a : α} {m : MemoryDisk}
    (h : t d.disk = .ok a m) : forward t d = .ok a { d with disk := m } := by
  rw [forward, h]

theorem faults_of_forward {t : Transfer MemoryDisk α} {u : Transfer FaultyDisk α} {e : FaultyDisk}
    (h : u d = forward t e) : ((Device.attempt u).after d).faults = e.faults := by
  unfold Attempt.after Device.attempt
  rw [h, forward]
  cases t e.disk with
  | ok a m => rfl
  | error err m => rfl

/-! Without faults every request reaches the disk. -/

theorem read_of_faults (h : d.faults = .none) (lba count : UInt32) (size : Nat) :
    SectorDevice.read lba count size d = forward (MemoryDisk.read lba count size) d := by
  obtain ⟨m, faults, log⟩ := d
  obtain rfl : faults = .none := h
  rfl

theorem write_of_faults (h : d.faults = .none) (lba count : UInt32) (buffer : List UInt8) :
    SectorDevice.write lba count buffer d
      = forward (MemoryDisk.write lba count buffer) { d with log := d.log.push (lba, count) } := by
  obtain ⟨m, faults, log⟩ := d
  obtain rfl : faults = .none := h
  rfl

theorem flush_of_faults (h : d.faults = .none) :
    SectorDevice.flush d = forward MemoryDisk.flush d := by
  obtain ⟨m, faults, log⟩ := d
  obtain rfl : faults = .none := h
  rfl

theorem faults_after (h : d.faults = .none) (r : Request) : (r.after d).faults = .none := by
  cases r with
  | read lba count => exact (faults_of_forward (read_of_faults h ..)).trans h
  | write lba sectors => exact (faults_of_forward (write_of_faults h ..)).trans h
  | flush => exact (faults_of_forward (flush_of_faults h)).trans h

theorem attempt_of_forward {t : Transfer MemoryDisk α} {u : Transfer FaultyDisk α}
    {e : FaultyDisk} {a : α} {m : MemoryDisk} (hu : u d = forward t e)
    (ht : Device.attempt t e.disk = .ok a m) : Device.attempt u d = .ok a { e with disk := m } :=
  Device.attempt_eq_ok_iff.mpr (hu.trans (forward_of_ok (Device.attempt_eq_ok_iff.mp ht)))

theorem grants_of_faults (h : d.faults = .none) : Grants d where
  present := by
    show d.faults.present = true
    rw [h]
    rfl
  granted r hr := by
    cases r with
    | read lba count =>
      obtain ⟨bytes, m, hr⟩ := hr
      exact ⟨bytes, _, attempt_of_forward (read_of_faults h ..) hr⟩
    | write lba sectors =>
      obtain ⟨m, hr⟩ := hr
      exact ⟨_, attempt_of_forward (write_of_faults h ..) hr⟩
    | flush =>
      obtain ⟨m, hr⟩ := hr
      exact ⟨_, attempt_of_forward (flush_of_faults h) hr⟩

theorem inOrder (h : d.faults = .none) : InOrder d := by
  intro e he
  refine grants_of_faults ?_
  induction he with
  | refl => exact h
  | tail _ hstep ih =>
    obtain ⟨r, -, rfl⟩ := hstep
    exact faults_after ih r

end FaultyDisk

end

end SectorFs

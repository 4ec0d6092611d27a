import SectorFs.Proofs.Volume.Mirror

/-!
# Recorders

A recorder stands in front of a device, passes on whatever it is asked for, and keeps a record
of it, with whether it was granted.  It changes nothing that the device does
(`Recorder.attempt_pass`), so what is asked of the device behind it can be read off its record:
requests of one kind if an attempt asks for these only (`Recorder.of_asked`), and reads if it
mirrors another one (`Mirrors.recorded`).
-/

namespace SectorFs

open Attempt

/-- A device and what it was asked for. -/
structure Recorder (D : Type) where
  device : D
  log : List (Request × Bool)

namespace Recorder

section

variable {D α : Type}

/-- A device that was asked for nothing yet. -/
def new (d : D) : Recorder D := ⟨d, []⟩

/-- Passes a request on to the device and keeps it. -/
def pass (r : Request) (t : Transfer D α) : Transfer (Recorder D) α := fun d =>
  match t d.device with
  | .ok a e => .ok a ⟨e, d.log ++ [(r, true)]⟩
  | .error err e => .error err ⟨e, d.log ++ [(r, false)]⟩

/-- How an attempt ends on the recorder in front of a device, given what it asked for. -/
def ending (log : List (Request × Bool)) :
    EStateM.Result Failure D α → EStateM.Result Failure (Recorder D) α
  | .ok a e => .ok a ⟨e, log⟩
  | .error f e => .error f ⟨e, log⟩

/-- What a device does with a transfer, its recorder does. -/
theorem attempt_pass (r : Request) (t : Transfer D α) (d : Recorder D) :
    Device.attempt (pass r t) d = match Device.attempt t d.device with
      | .ok a e => .ok a ⟨e, d.log ++ [(r, true)]⟩
      | .error f e => .error f ⟨e, d.log ++ [(r, false)]⟩ := by
  unfold Device.attempt pass
  cases t d.device with
  | ok a e => rfl
  | error err e => rfl

theorem device_ok {r : Request} {t : Transfer D α} {d e : Recorder D} {a : α}
    (h : pass r t d = .ok a e) : t d.device = .ok a e.device := by
  unfold pass at h
  split at h
  · rename_i ht
    injection h with ha he
    rw [ht, ← ha, ← he]
  · cases h

theorem device_error {r : Request} {t : Transfer D α} {d e : Recorder D} {err : DeviceError}
    (h : pass r t d = .error err e) : t d.device = .error err e.device := by
  unfold pass at h
  split at h
  · cases h
  · rename_i ht
    injection h with herr he
    rw [ht, ← herr, ← he]

end

variable {D : Type} [SectorDevice D] {α : Type}

instance : SectorDevice (Recorder D) where
  read lba count size := pass (.read lba count) (SectorDevice.read lba count size)
  write lba count buffer :=
    pass (.write lba (Sector.split buffer)) (SectorDevice.write lba count buffer)
  flush := pass .flush SectorDevice.flush
  totalSectors d := SectorDevice.totalSectors d.device
  present d := SectorDevice.present d.device

theorem writeSectors_eq (lba : UInt32) (sectors : List Sector) :
    (Device.writeSectors lba sectors : Attempt (Recorder D) Unit)
      = Device.attempt (pass (.write lba sectors)
          (SectorDevice.write lba (UInt32.ofNat sectors.length) (Sector.join sectors))) := by
  show Device.attempt (pass (.write lba (Sector.split (Sector.join sectors))) _) = _
  rw [Sector.split_join]

/-- A request is kept, and granted just when the device grants it. -/
theorem request_after (r : Request) (d : Recorder D) :
    (∃ granted, (r.after d).log = d.log ++ [(r, granted)])
      ∧ (r.Granted d ↔ r.Granted d.device) := by
  have hpass : ∀ {β : Type} (t : Transfer D β),
      (∃ granted, ((Device.attempt (pass r t)).after d).log = d.log ++ [(r, granted)])
        ∧ ∀ a, (∃ e, Device.attempt (pass r t) d = .ok a e)
          ↔ ∃ e, Device.attempt t d.device = .ok a e := by
    intro β t
    unfold Attempt.after
    rw [attempt_pass]
    cases Device.attempt t d.device with
    | ok a e => exact ⟨⟨true, rfl⟩, fun b => by simp⟩
    | error f e => exact ⟨⟨false, rfl⟩, fun b => by simp⟩
  cases r with
  | read lba count => exact (hpass _).imp_right fun h => exists_congr h
  | write lba sectors =>
    have h := hpass (SectorDevice.write lba (UInt32.ofNat sectors.length) (Sector.join sectors))
    rw [← writeSectors_eq] at h
    exact h.imp_right fun h => h ()
  | flush => exact (hpass SectorDevice.flush).imp_right fun h => h ()

/-- Requests of one kind leave requests of that kind in the record. -/
theorem of_asked {p : Request → Prop} {d e : Recorder D} (h : Asked p d e) :
    ∃ trace, e.log = d.log ++ trace ∧ ∀ a ∈ trace, p a.1 := by
  induction h with
  | refl => exact ⟨[], (List.append_nil _).symm, fun _ ha => absurd ha List.not_mem_nil⟩
  | @tail c e _ hstep ih =>
    obtain ⟨trace, hlog, hp⟩ := ih
    obtain ⟨r, hr, rfl⟩ := hstep
    obtain ⟨⟨granted, hafter⟩, -⟩ := request_after r c
    refine ⟨trace ++ [(r, granted)], by rw [hafter, hlog, List.append_assoc], fun a ha => ?_⟩
    rcases List.mem_append.mp ha with ha | ha
    · exact hp a ha
    · rw [List.mem_singleton.mp ha]
      exact hr

/-- A recorder refuses what its device refuses. -/
instance [Backed D] : Backed (Recorder D) where
  disk d := Backed.disk d.device
  totalSectors_eq d := Backed.totalSectors_eq d.device
  read_ok h := Backed.read_ok (device_ok h)
  read_error h := Backed.read_error (device_error h)
  write_ok h := Backed.write_ok (device_ok h)
  write_error h := Backed.write_error (device_error h)
  flush_ok h := Backed.flush_ok (device_ok h)
  flush_error h := Backed.flush_error (device_error h)

theorem inOrder (d : Recorder MemoryDisk) : InOrder d := fun e _ => ⟨rfl, fun r hr =>
  (request_after r e).2.mpr hr⟩

end Recorder

/-- What is read through a recorder is what the disk in memory behind it shows. -/
theorem Mirrors.recorded {α : Type} {x : Attempt (Recorder MemoryDisk) α}
    {y : Attempt MemoryDisk α} (h : Mirrors x y) {p : Request → Prop} {d : MemoryDisk}
    (hp : Asked p (Recorder.new d) (x.after (Recorder.new d))) :
    ∃ trace, x (Recorder.new d) = Recorder.ending trace (y d) ∧ ∀ a ∈ trace, p a.1 := by
  obtain ⟨trace, hlog, hall⟩ := Recorder.of_asked hp
  have hdevice : (x.after (Recorder.new d)).device = d := (h.asks (Recorder.new d)).disk_eq
  refine ⟨trace, ?_, hall⟩
  cases hx : x (Recorder.new d) with
  | ok a e =>
    rw [after_of_ok hx] at hlog hdevice
    have hy : y d = .ok a d := h.of_ok hx
    rw [hy]
    obtain ⟨device, log⟩ := e
    obtain rfl : log = trace := hlog
    obtain rfl : device = d := hdevice
    rfl
  | error f e =>
    rw [after_of_error hx] at hlog hdevice
    have hy : y d = .error f d :=
      (h.of_error hx).resolve_left fun hbad => hbad.2 (Recorder.inOrder _)
    rw [hy]
    obtain ⟨device, log⟩ := e
    obtain rfl : log = trace := hlog
    obtain rfl : device = d := hdevice
    rfl

end SectorFs

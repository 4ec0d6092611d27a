import SectorFs.Volume.Basic

/-!
# Sessions

A session is a device together with the volume that works on it.  `Session.sync` brings
the tree to the device, and `Session.load` takes over what the device holds.  Either
replaces the volume as a whole when it succeeds and leaves it as it was when it fails.
-/

namespace SectorFs

/-- A device and the volume that works on it. -/
structure Session (D : Type) where
  device : D
  volume : Volume

namespace Session

variable {D : Type}

/-- Puts what an attempt makes of the device in the place of the volume, if it
succeeds. -/
def become (x : Volume → Attempt D Volume) : Attempt (Session D) Unit := fun s =>
  match x s.volume s.device with
  | .ok v d => .ok () ⟨d, v⟩
  | .error f d => .error f { s with device := d }

/-- Brings the tree of the volume to the device. -/
def sync [SectorDevice D] : Attempt (Session D) Unit := become Volume.sync

/-- Takes over the filesystem that the device holds. -/
def load [SectorDevice D] : Attempt (Session D) Unit := become fun _ => Volume.load

theorem become_of_ok {x : Volume → Attempt D Volume} {s : Session D} {v : Volume} {d : D}
    (h : x s.volume s.device = .ok v d) : become x s = .ok () ⟨d, v⟩ := by
  rw [become, h]

theorem become_of_error {x : Volume → Attempt D Volume} {s : Session D} {f : Failure} {d : D}
    (h : x s.volume s.device = .error f d) : become x s = .error f { s with device := d } := by
  rw [become, h]

end Session

end SectorFs

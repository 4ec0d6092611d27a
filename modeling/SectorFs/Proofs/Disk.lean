import SectorFs.Disk.Faulty

/-!
# What is on a disk

A write replaces a run of sectors and nothing else (`MemoryDisk.sector?_put`).  Most
disks stand in front of a disk in memory: what they let through reaches it, and what they
refuse leaves it alone (`Backed`).  A disk in memory is such a disk, and so is one behind
any faults.
-/

namespace SectorFs

namespace Device

variable {D α : Type} {t : Transfer D α} {d e : D}

theorem attempt_eq_ok_iff {a : α} :
    attempt t d = .ok a e ↔ t d = .ok a e := by
  unfold attempt
  cases t d with
  | ok b c => simp
  | error err c => simp

theorem attempt_eq_error_iff {f : Failure} :
    attempt t d = .error f e ↔ f = .ioError ∧ ∃ err, t d = .error err e := by
  unfold attempt
  cases t d with
  | ok b c => simp
  | error err c => simp [eq_comm]

end Device

namespace MemoryDisk

/-- The disk with sectors from `lba` on replaced. -/
def put (d : MemoryDisk) (lba : Nat) (run : List Sector) : MemoryDisk :=
  { d with sectors := storeRun d.sectors lba run }

theorem store_join (d : MemoryDisk) (lba : Nat) (run : List Sector) :
    d.store lba (Sector.join run) = d.put lba run := by
  rw [store, Sector.split_join]
  rfl

theorem getElem?_storeRun (sectors : Array Sector) (lba : Nat) (run : List Sector) (i : Nat) :
    (storeRun sectors lba run)[i]?
      = if lba ≤ i ∧ i < lba + run.length ∧ i < sectors.size then run[i - lba]?
        else sectors[i]? := by
  induction run generalizing sectors lba with
  | nil =>
    rw [if_neg (by rw [List.length_nil]; omega)]
    rfl
  | cons s run ih =>
    rw [storeRun, ih, Array.size_setIfInBounds, List.length_cons]
    by_cases hi : i = lba
    · subst hi
      rw [if_neg (by omega), Array.getElem?_setIfInBounds_self, Nat.sub_self]
      by_cases hsize : i < sectors.size
      · rw [if_pos hsize, if_pos ⟨Nat.le_refl i, by omega, hsize⟩]
        rfl
      · rw [if_neg hsize, if_neg fun h => hsize h.2.2, Array.getElem?_eq_none (by omega)]
    · rw [Array.getElem?_setIfInBounds_ne (Ne.symm hi)]
      by_cases hin : lba + 1 ≤ i ∧ i < lba + 1 + run.length ∧ i < sectors.size
      · obtain ⟨k, hk⟩ : ∃ k, i - lba = k + 1 := ⟨i - lba - 1, by omega⟩
        rw [if_pos hin, if_pos (by omega), hk, List.getElem?_cons_succ]
        congr 1
        omega
      · rw [if_neg hin, if_neg (by omega)]

theorem sector?_put (d : MemoryDisk) (lba : Nat) (run : List Sector) (i : Nat) :
    (d.put lba run).sector? i
      = if lba ≤ i ∧ i < lba + run.length ∧ i < d.sectors.size then run[i - lba]?
        else d.sector? i :=
  getElem?_storeRun d.sectors lba run i

@[simp] theorem size_put (d : MemoryDisk) (lba : Nat) (run : List Sector) :
    (d.put lba run).sectors.size = d.sectors.size :=
  size_storeRun ..

theorem toNat_totalSectors_le (d : MemoryDisk) : d.totalSectors.toNat ≤ d.sectors.size := by
  rw [totalSectors, UInt32.toNat_ofNat']
  exact Nat.mod_le ..

theorem write_join_ok_iff {d e : MemoryDisk} {lba : UInt32} {run : List Sector} :
    write lba (UInt32.ofNat run.length) (Sector.join run) d = .ok () e
      ↔ lba.toNat + run.length ≤ d.totalSectors.toNat ∧ e = d.put lba.toNat run := by
  have hlt := d.totalSectors.toNat_lt
  unfold write
  split
  · rename_i ha
    obtain ⟨hsize, hfit⟩ := Device.accept_eq_ok_iff.mp ha
    rw [Sector.length_join] at hsize
    have hlen : run.length = (UInt32.ofNat run.length).toNat :=
      Nat.eq_of_mul_eq_mul_left (by decide) hsize
    rw [store_join]
    constructor
    · intro h
      injection h with _ h
      exact ⟨by omega, h.symm⟩
    · rintro ⟨-, rfl⟩
      rfl
  · rename_i f ha
    refine ⟨fun h => (by cases h), fun ⟨hfit, _⟩ => ?_⟩
    have hlen : (UInt32.ofNat run.length).toNat = run.length := by
      rw [UInt32.toNat_ofNat', Nat.mod_eq_of_lt (by omega)]
    have hok : Device.accept d.totalSectors lba (UInt32.ofNat run.length) (Sector.join run).length
        = .ok () :=
      Device.accept_eq_ok_iff.mpr ⟨by rw [Sector.length_join, hlen], by omega⟩
    rw [hok] at ha
    cases ha

/-! ### Runs of sectors -/

/-- The sectors of a list are on the disk, from `lba` on. -/
def Holds (d : MemoryDisk) (lba : Nat) (run : List Sector) : Prop :=
  ∀ k (hk : k < run.length), d.sector? (lba + k) = some run[k]

theorem run_of_holds {d : MemoryDisk} {lba : Nat} {run : List Sector} (h : d.Holds lba run) :
    d.run lba run.length = run := by
  apply List.ext_getElem
  · rw [MemoryDisk.run, List.length_map, List.length_range]
  · intro k hk hk'
    have hs : d.sectors[lba + k]? = some run[k] := h k hk'
    simp only [MemoryDisk.run, List.getElem_map, List.getElem_range]
    rw [Array.getD_eq_getD_getElem?, hs, Option.getD_some]

theorem Holds.of_agree {d e : MemoryDisk} {lba : Nat} {run : List Sector} (h : d.Holds lba run)
    (he : ∀ i, lba ≤ i → i < lba + run.length → e.sector? i = d.sector? i) : e.Holds lba run :=
  fun k hk => (he (lba + k) (by omega) (by omega)).trans (h k hk)

theorem put_of_holds {d : MemoryDisk} {lba : Nat} {run : List Sector} (h : d.Holds lba run) :
    d.put lba run = d := by
  have hs : storeRun d.sectors lba run = d.sectors := by
    apply Array.ext_getElem?
    intro i
    rw [getElem?_storeRun]
    split
    · rename_i hi
      have := h (i - lba) (by omega)
      rw [Nat.add_sub_cancel' hi.1] at this
      rw [List.getElem?_eq_getElem (by omega)]
      exact this.symm
    · rfl
  rw [put, hs]

theorem readSectors_of_holds {d : MemoryDisk} {lba count : UInt32} {run : List Sector}
    (h : d.Holds lba.toNat run) (hlen : run.length = count.toNat)
    (hfit : lba.toNat + count.toNat ≤ d.totalSectors.toNat) :
    Device.readSectors lba count d = .ok (Sector.join run) d := by
  have ha : Device.accept d.totalSectors lba count (sectorSize * count.toNat) = .ok () :=
    Device.accept_eq_ok_iff.mpr ⟨rfl, hfit⟩
  have hr : MemoryDisk.read lba count (sectorSize * count.toNat) d
      = .ok (Sector.join run) d := by
    rw [MemoryDisk.read, ha, ← hlen, run_of_holds h]
  exact Device.attempt_eq_ok_iff.mpr hr

end MemoryDisk

/-! ### Disks in front of a disk in memory -/

/-- A disk that either passes a transfer on to a disk in memory or refuses it and
changes nothing there. -/
class Backed (D : Type) [SectorDevice D] where
  /-- What is stored. -/
  disk : D → MemoryDisk
  totalSectors_eq : ∀ d : D, SectorDevice.totalSectors d = (disk d).totalSectors
  read_ok : ∀ {lba count : UInt32} {size : Nat} {d e : D} {bytes : List UInt8},
    SectorDevice.read lba count size d = .ok bytes e →
      MemoryDisk.read lba count size (disk d) = .ok bytes (disk e)
  read_error : ∀ {lba count : UInt32} {size : Nat} {d e : D} {f : DeviceError},
    SectorDevice.read lba count size d = .error f e → disk e = disk d
  write_ok : ∀ {lba count : UInt32} {buffer : List UInt8} {d e : D},
    SectorDevice.write lba count buffer d = .ok () e →
      MemoryDisk.write lba count buffer (disk d) = .ok () (disk e)
  write_error : ∀ {lba count : UInt32} {buffer : List UInt8} {d e : D} {f : DeviceError},
    SectorDevice.write lba count buffer d = .error f e → disk e = disk d
  flush_ok : ∀ {d e : D}, SectorDevice.flush d = .ok () e →
    MemoryDisk.flush (disk d) = .ok () (disk e)
  flush_error : ∀ {d e : D} {f : DeviceError}, SectorDevice.flush d = .error f e →
    disk e = disk d

instance : Backed MemoryDisk where
  disk d := d
  totalSectors_eq _ := rfl
  read_ok h := h
  read_error h := MemoryDisk.read_error h
  write_ok h := h
  write_error h := MemoryDisk.write_error h
  flush_ok h := h
  flush_error h := by cases h

namespace FaultyDisk

theorem forward_ok {α : Type} {t : Transfer MemoryDisk α} {d e : FaultyDisk} {a : α}
    (h : forward t d = .ok a e) : t d.disk = .ok a e.disk := by
  unfold forward at h
  split at h
  · rename_i ht
    injection h with ha he
    rw [ht, ← ha, ← he]
  · cases h

theorem forward_error {α : Type} {t : Transfer MemoryDisk α} {d e : FaultyDisk} {f : DeviceError}
    (ht : ∀ {disk f' disk'}, t disk = .error f' disk' → disk' = disk)
    (h : forward t d = .error f e) : e.disk = d.disk := by
  unfold forward at h
  split at h
  · cases h
  · rename_i hr
    injection h with _ he
    rw [← he]
    exact ht hr

end FaultyDisk

/-- Faults keep requests from the disk, and do nothing to it. -/
instance : Backed FaultyDisk where
  disk := FaultyDisk.disk
  totalSectors_eq _ := rfl
  read_ok {lba count size d e bytes} h := by
    change FaultyDisk.read lba count size d = .ok bytes e at h
    unfold FaultyDisk.read at h
    split at h
    · cases h
    · exact FaultyDisk.forward_ok h
  read_error {lba count size d e f} h := by
    change FaultyDisk.read lba count size d = .error f e at h
    unfold FaultyDisk.read at h
    split at h
    · injection h with _ h
      rw [h]
    · exact FaultyDisk.forward_error MemoryDisk.read_error h
  write_ok {lba count buffer d e} h := by
    change FaultyDisk.write lba count buffer d = .ok () e at h
    unfold FaultyDisk.write at h
    split at h
    · cases h
    · have hd := FaultyDisk.forward_ok h
      exact hd
  write_error {lba count buffer d e f} h := by
    change FaultyDisk.write lba count buffer d = .error f e at h
    unfold FaultyDisk.write at h
    split at h
    · injection h with _ h
      rw [h]
    · have hd := FaultyDisk.forward_error MemoryDisk.write_error h
      exact hd
  flush_ok {d e} h := by
    change FaultyDisk.flush d = .ok () e at h
    unfold FaultyDisk.flush at h
    split at h
    · cases h
    · exact FaultyDisk.forward_ok h
  flush_error {d e f} h := by
    change FaultyDisk.flush d = .error f e at h
    unfold FaultyDisk.flush at h
    split at h
    · injection h with _ h
      rw [h]
    · refine FaultyDisk.forward_error (fun ht => ?_) h
      cases ht

end SectorFs

import SectorFs.Proofs.Sector
import SectorFs.Proofs.Strict.Basic

/-!
# Disks in memory are maps of sectors

A disk is used by calls, each of which moves bytes between a buffer and a run of sectors.  A call
is granted when its buffer has the size of its run and the disk has all of the run
(`Call.Fits`), and one that is refused changes nothing.  So a history of calls tells what is at a
sector: what the last write that was granted and covers it put there, and where none does what was
there at first (`content`).  Writes may overlap in any way, since each replaces the sectors of its
run and no others (`Call.sector?_after`).

The bytes of a disk lie one behind the other, and a run of sectors is a part of them.
`Strict.move` moves the bytes of that part, with every number and both of its ends looked at
before they are used.  A call that the check lets through finds its part among the bytes
(`Strict.moved_eq`), and one that it stops leaves them alone (`Strict.move_of_error`).
-/

namespace SectorFs

/-! ### The bytes of a disk -/

namespace MemoryDisk

theorem length_image (d : MemoryDisk) : d.image.length = sectorSize * d.sectors.size := by
  rw [image, Sector.length_join, Array.length_toList]

@[simp] theorem length_run (d : MemoryDisk) (lba count : Nat) :
    (d.run lba count).length = count := by
  rw [run, List.length_map, List.length_range]

theorem holds_run {d : MemoryDisk} {lba count : Nat} (h : lba + count ≤ d.sectors.size) :
    d.Holds lba (d.run lba count) := by
  intro k hk
  rw [length_run] at hk
  have hin : lba + k < d.sectors.size := by omega
  rw [sector?, Array.getElem?_eq_getElem hin]
  simp only [run, List.getElem_map, List.getElem_range, Array.getD_eq_getD_getElem?,
    Array.getElem?_eq_getElem hin, Option.getD_some]

theorem run_eq {d : MemoryDisk} {lba count : Nat} (h : lba + count ≤ d.sectors.size) :
    d.run lba count = (d.sectors.toList.drop lba).take count := by
  have hlen : ((d.sectors.toList.drop lba).take count).length = count := by
    rw [List.length_take, List.length_drop, Array.length_toList]
    omega
  have hholds : d.Holds lba ((d.sectors.toList.drop lba).take count) := by
    intro k hk
    rw [List.getElem_take, List.getElem_drop, Array.getElem_toList]
    exact Array.getElem?_eq_getElem (by omega)
  have hrun := run_of_holds hholds
  rwa [hlen] at hrun

theorem join_run {d : MemoryDisk} {lba count : Nat} (h : lba + count ≤ d.sectors.size) :
    Sector.join (d.run lba count)
      = (d.image.drop (sectorSize * lba)).take (sectorSize * count) := by
  rw [run_eq h, Sector.join_take, Sector.join_drop, image]

theorem toList_storeRun {sectors : Array Sector} {lba : Nat} {run : List Sector}
    (h : lba + run.length ≤ sectors.size) :
    (storeRun sectors lba run).toList
      = sectors.toList.take lba ++ run ++ sectors.toList.drop (lba + run.length) := by
  have hlen : (sectors.toList.take lba).length = lba := by
    rw [List.length_take, Array.length_toList]
    omega
  apply List.ext_getElem?
  intro k
  rw [Array.getElem?_toList, getElem?_storeRun, List.append_assoc, List.getElem?_append, hlen]
  by_cases hbefore : k < lba
  · rw [if_neg (by omega), if_pos hbefore, List.getElem?_take, if_pos hbefore,
      Array.getElem?_toList]
  · rw [if_neg hbefore, List.getElem?_append]
    by_cases hin : k - lba < run.length
    · rw [if_pos (by omega), if_pos hin]
    · rw [if_neg (by omega), if_neg hin, List.getElem?_drop, Array.getElem?_toList]
      congr 1
      omega

theorem image_put {d : MemoryDisk} {lba : Nat} {run : List Sector}
    (h : lba + run.length ≤ d.sectors.size) :
    (d.put lba run).image = d.image.take (sectorSize * lba) ++ Sector.join run
      ++ d.image.drop (sectorSize * (lba + run.length)) := by
  rw [image, put, toList_storeRun h, Sector.join_append, Sector.join_append, Sector.join_take,
    Sector.join_drop, image]

/-! ### Calls -/

/-- Which way a call moves bytes. -/
inductive Direction where
  | read
  | write
deriving DecidableEq

/-- A call that moves bytes between a buffer and `count` sectors from `lba` on. -/
structure Call where
  direction : Direction
  lba : UInt32
  count : UInt32
  buffer : List UInt8

namespace Call

/-- What a call does to a disk, and what the buffer holds when it succeeds. -/
def move (c : Call) : Transfer MemoryDisk (List UInt8) := fun d =>
  match c.direction with
  | .read => MemoryDisk.read c.lba c.count c.buffer.length d
  | .write => (do MemoryDisk.write c.lba c.count c.buffer; return c.buffer) d

/-- The disk after a call, which may have been refused. -/
def after (c : Call) (d : MemoryDisk) : MemoryDisk :=
  match c.move d with
  | .ok _ e => e
  | .error _ e => e

def succeeds (c : Call) (d : MemoryDisk) : Bool :=
  match c.move d with
  | .ok _ _ => true
  | .error _ _ => false

/-- The buffer has the size of the run, and a disk of `total` sectors has all of the run. -/
def Fits (c : Call) (total : Nat) : Prop :=
  c.buffer.length = sectorSize * c.count.toNat ∧ c.lba.toNat + c.count.toNat ≤ total

/-- The bytes that a call has for a sector: those of its buffer, if it is a write that covers the
sector. -/
def stored? (s : Nat) (c : Call) : Option (List UInt8) :=
  if c.direction = .write ∧ c.lba.toNat ≤ s ∧ s < c.lba.toNat + c.count.toNat then
    some ((c.buffer.drop (sectorSize * (s - c.lba.toNat))).take sectorSize)
  else none

/-- The disk after some calls, one after the other. -/
def afterAll (calls : List Call) (d : MemoryDisk) : MemoryDisk :=
  calls.foldl (fun d c => c.after d) d

/-- Those of some calls that are granted, with the last one first. -/
def granted : List Call → MemoryDisk → List Call
  | [], _ => []
  | c :: calls, d => granted calls (c.after d) ++ if c.succeeds d then [c] else []

end Call

/-- The bytes of a sector after some calls: what the last write that was granted and covers the
sector put there, or what was there at first. -/
def content (calls : List Call) (d : MemoryDisk) (s : Nat) : Option (List UInt8) :=
  ((Call.granted calls d).findSome? (Call.stored? s)).or ((d.sector? s).map Sector.bytes)

/-! ### One call -/

namespace Call

theorem accept_eq_ok_iff {c : Call} {d : MemoryDisk} :
    Device.accept d.totalSectors c.lba c.count c.buffer.length = .ok ()
      ↔ c.Fits d.totalSectors.toNat :=
  Device.accept_eq_ok_iff

/-- A call is refused and changes nothing, or it reads its run, or puts its buffer in the place of
its run. -/
theorem move_cases (c : Call) (d : MemoryDisk) :
    (∃ err, Device.accept d.totalSectors c.lba c.count c.buffer.length = .error err
      ∧ c.move d = .error err d)
    ∨ c.Fits d.totalSectors.toNat ∧ c.direction = .read
      ∧ c.move d = .ok (Sector.join (d.run c.lba.toNat c.count.toNat)) d
    ∨ c.Fits d.totalSectors.toNat ∧ c.direction = .write
      ∧ ∃ run, run.length = c.count.toNat ∧ Sector.join run = c.buffer
        ∧ c.move d = .ok c.buffer (d.put c.lba.toNat run) := by
  obtain ⟨direction, lba, count, buffer⟩ := c
  cases haccept : Device.accept d.totalSectors lba count buffer.length with
  | error err =>
    refine .inl ⟨err, rfl, ?_⟩
    cases direction with
    | read =>
      show MemoryDisk.read lba count buffer.length d = _
      rw [MemoryDisk.read, haccept]
    | write =>
      show EStateM.bind (MemoryDisk.write lba count buffer) _ d = _
      rw [EStateM.bind, MemoryDisk.write, haccept]
  | ok u =>
    have hfits := Device.accept_eq_ok_iff.mp haccept
    refine .inr ?_
    cases direction with
    | read =>
      refine .inl ⟨hfits, rfl, ?_⟩
      show MemoryDisk.read lba count buffer.length d = _
      rw [MemoryDisk.read, haccept]
    | write =>
      obtain ⟨run, hlen, hjoin⟩ := Sector.exists_join hfits.1
      refine .inr ⟨hfits, rfl, run, hlen, hjoin, ?_⟩
      show EStateM.bind (MemoryDisk.write lba count buffer) _ d = _
      rw [EStateM.bind, MemoryDisk.write, haccept, ← hjoin, store_join]
      rfl

theorem isOk_iff {c : Call} {d : MemoryDisk} :
    (∃ buffer e, c.move d = .ok buffer e) ↔ c.Fits d.totalSectors.toNat := by
  rcases c.move_cases d with ⟨err, haccept, hmove⟩ | ⟨hfits, -, hmove⟩
    | ⟨hfits, -, run, -, -, hmove⟩
  · refine ⟨fun ⟨buffer, e, hok⟩ => ?_, fun hfits => ?_⟩
    · cases hmove.symm.trans hok
    · cases haccept.symm.trans (accept_eq_ok_iff.mpr hfits)
  · exact iff_of_true ⟨_, _, hmove⟩ hfits
  · exact iff_of_true ⟨_, _, hmove⟩ hfits

theorem after_of_ok {c : Call} {d e : MemoryDisk} {buffer : List UInt8}
    (h : c.move d = .ok buffer e) : c.after d = e := by
  rw [after, h]

theorem after_of_error {c : Call} {d e : MemoryDisk} {err : DeviceError}
    (h : c.move d = .error err e) : c.after d = e := by
  rw [after, h]

theorem succeeds_of_ok {c : Call} {d e : MemoryDisk} {buffer : List UInt8}
    (h : c.move d = .ok buffer e) : c.succeeds d = true := by
  rw [succeeds, h]

theorem succeeds_of_error {c : Call} {d e : MemoryDisk} {err : DeviceError}
    (h : c.move d = .error err e) : c.succeeds d = false := by
  rw [succeeds, h]

theorem Fits.le_size {c : Call} {d : MemoryDisk} (h : c.Fits d.totalSectors.toNat) :
    c.lba.toNat + c.count.toNat ≤ d.sectors.size :=
  Nat.le_trans h.2 d.toNat_totalSectors_le

theorem size_after (c : Call) (d : MemoryDisk) : (c.after d).sectors.size = d.sectors.size := by
  rcases c.move_cases d with ⟨err, -, hmove⟩ | ⟨-, -, hmove⟩ | ⟨-, -, run, -, -, hmove⟩
  · rw [after_of_error hmove]
  · rw [after_of_ok hmove]
  · rw [after_of_ok hmove, size_put]

theorem stored?_of_read {c : Call} (h : c.direction = .read) (s : Nat) : c.stored? s = none := by
  rw [stored?, if_neg]
  rintro ⟨hwrite, -⟩
  cases h.symm.trans hwrite

/-- What a write has for a sector is what its run has there. -/
theorem stored?_of_write {c : Call} {run : List Sector} (h : c.direction = .write)
    (hlen : run.length = c.count.toNat) (hjoin : Sector.join run = c.buffer) (s : Nat) :
    c.stored? s = if c.lba.toNat ≤ s then (run[s - c.lba.toNat]?).map Sector.bytes else none := by
  rw [stored?]
  by_cases hle : c.lba.toNat ≤ s
  · rw [if_pos hle]
    by_cases hlt : s < c.lba.toNat + c.count.toNat
    · have hin : s - c.lba.toNat < run.length := by omega
      rw [if_pos ⟨h, hle, hlt⟩, ← hjoin, Sector.take_drop_join hin, List.getElem?_eq_getElem hin,
        Option.map_some]
    · rw [if_neg fun hc => hlt hc.2.2, List.getElem?_eq_none (by omega), Option.map_none]
  · rw [if_neg hle, if_neg fun hc => hle hc.2.1]

/-- After a call a sector has what the call has for it, if it is granted and has something, and
else what it had. -/
theorem sector?_after (c : Call) (d : MemoryDisk) (s : Nat) :
    ((c.after d).sector? s).map Sector.bytes
      = ((if c.succeeds d then [c] else []).findSome? (stored? s)).or
          ((d.sector? s).map Sector.bytes) := by
  rcases c.move_cases d with ⟨err, -, hmove⟩ | ⟨-, hread, hmove⟩
    | ⟨hfits, hwrite, run, hlen, hjoin, hmove⟩
  · rw [after_of_error hmove, succeeds_of_error hmove]
    rfl
  · rw [after_of_ok hmove, succeeds_of_ok hmove, if_pos rfl, List.findSome?_singleton,
      stored?_of_read hread, Option.none_or]
  · have hroom := hfits.le_size
    rw [after_of_ok hmove, succeeds_of_ok hmove, if_pos rfl, List.findSome?_singleton,
      stored?_of_write hwrite hlen hjoin, sector?_put]
    by_cases hin : c.lba.toNat ≤ s ∧ s < c.lba.toNat + run.length
    · have hk : s - c.lba.toNat < run.length := by omega
      rw [if_pos ⟨hin.1, hin.2, by omega⟩, if_pos hin.1, List.getElem?_eq_getElem hk]
      rfl
    · rw [if_neg fun hc => hin ⟨hc.1, hc.2.1⟩]
      split
      · rw [List.getElem?_eq_none (by omega), Option.map_none, Option.none_or]
      · rw [Option.none_or]

theorem sectors_of_read {c : Call} {d e : MemoryDisk} {buffer : List UInt8}
    (hread : c.direction = .read) (h : c.move d = .ok buffer e) :
    e = d ∧ buffer.length = c.buffer.length ∧ ∀ i < c.count.toNat,
      (d.sector? (c.lba.toNat + i)).map Sector.bytes
        = some ((buffer.drop (sectorSize * i)).take sectorSize) := by
  have hfits := isOk_iff.mp ⟨buffer, e, h⟩
  have hroom := hfits.le_size
  rcases c.move_cases d with ⟨err, -, hmove⟩ | ⟨-, -, hmove⟩ | ⟨-, hwrite, -⟩
  · cases h.symm.trans hmove
  · cases h.symm.trans hmove
    refine ⟨rfl, ?_, ?_⟩
    · rw [Sector.length_join, length_run, hfits.1]
    · intro i hi
      have hin : i < (d.run c.lba.toNat c.count.toNat).length := by rwa [length_run]
      rw [holds_run hroom i hin, Option.map_some, Sector.take_drop_join hin]
  · cases hread.symm.trans hwrite

end Call

end MemoryDisk

/-! ### Calls on bytes -/

/-- What a call moves bytes between. -/
structure MemoryDisk.Bytes where
  disk : List UInt8
  buffer : List UInt8

namespace Strict

open MemoryDisk (Bytes Call)

section

variable {σ α : Type}

/-- Whether a device of `total` sectors takes a transfer, whose end is compared only if it is a
word. -/
def accept (total lba count : UInt32) (size : Nat) : Strict σ (Except DeviceError Unit) := do
  let wanted ← narrow 64 (count.toNat * sectorSize)
  if size ≠ wanted then return .error (.badBuffer size count)
  else if lba.toNat + count.toNat < 2 ^ 32 ∧ lba.toNat + count.toNat ≤ total.toNat then
    return .ok ()
  else return .error (.outOfRange lba count)

/-- A list over which another is copied, which has to be as long. -/
def copy (target source : List α) : Strict σ (List α) :=
  known (if source.length = target.length then some source else none)

/-- The bytes after a call that passes the check. -/
def moved (c : Call) (b : Bytes) : Strict σ Bytes := do
  let start ← narrow 64 (c.lba.toNat * sectorSize)
  let stop ← narrow 64 (start + b.buffer.length)
  let part ← slice b.disk start (← minus stop start)
  match c.direction with
  | .read => do
    let buffer ← copy b.buffer part
    return ⟨b.disk, buffer⟩
  | .write => do
    let part ← copy part b.buffer
    return ⟨b.disk.take start ++ part ++ b.disk.drop stop, b.buffer⟩

end

/-- Moves bytes between a disk and a buffer as a call asks for, or tells why not. -/
def move (c : Call) : Strict Bytes (Except DeviceError Unit) := do
  let b ← get
  let total := UInt32.ofNat (b.disk.length / sectorSize)
  match ← accept total c.lba c.count b.buffer.length with
  | .ok _ => do
    set (← moved c b)
    return .ok ()
  | .error err => return .error err

section

variable {σ α : Type}

theorem accept_eq (total lba count : UInt32) (size : Nat) :
    (accept total lba count size : Strict σ _) = pure (Device.accept total lba count size) := by
  have hcount := count.toNat_lt
  have htotal := total.toNat_lt
  have hwanted : count.toNat * sectorSize < 2 ^ 64 := by
    rw [sectorSize]
    omega
  rw [accept, narrow_of_lt hwanted, pure_bind, Nat.mul_comm, Device.accept]
  by_cases hsize : size = sectorSize * count.toNat
  · rw [if_neg (not_not_intro hsize), if_neg (not_not_intro hsize)]
    by_cases hfit : total.toNat < lba.toNat + count.toNat
    · rw [if_neg (by omega), if_pos hfit]
    · rw [if_pos (by omega), if_neg hfit]
  · rw [if_pos hsize, if_pos hsize]

theorem copy_of_length {target source : List α} (h : source.length = target.length) :
    (copy target source : Strict σ (List α)) = pure source := by
  rw [copy, if_pos h]
  rfl

/-- A call that fits finds the part of the bytes that it asks for. -/
theorem moved_eq {c : Call} {d : MemoryDisk} (h : c.Fits d.totalSectors.toNat) :
    (moved c ⟨d.image, c.buffer⟩ : Strict σ Bytes) = pure
      (match c.direction with
        | .read => ⟨d.image, Sector.join (d.run c.lba.toNat c.count.toNat)⟩
        | .write => ⟨d.image.take (sectorSize * c.lba.toNat) ++ c.buffer
            ++ d.image.drop (sectorSize * (c.lba.toNat + c.count.toNat)), c.buffer⟩) := by
  have hlba := c.lba.toNat_lt
  have hcount := c.count.toNat_lt
  have hroom := h.le_size
  have hbuffer := h.1
  have hstart : sectorSize * c.lba.toNat < 2 ^ 64 := by
    rw [sectorSize]
    omega
  have hstop : sectorSize * c.lba.toNat + sectorSize * c.count.toNat < 2 ^ 64 := by
    rw [sectorSize]
    omega
  have hdisk : sectorSize * c.lba.toNat + sectorSize * c.count.toNat ≤ d.image.length := by
    rw [MemoryDisk.length_image, ← Nat.mul_add]
    exact Nat.mul_le_mul_left _ hroom
  have hpart : (Sector.join (d.run c.lba.toNat c.count.toNat)).length = c.buffer.length := by
    rw [Sector.length_join, MemoryDisk.length_run, hbuffer]
  rw [moved, Nat.mul_comm, narrow_of_lt hstart, pure_bind, hbuffer, narrow_of_lt hstop, pure_bind,
    minus_of_le (Nat.le_add_right ..), pure_bind, Nat.add_sub_cancel_left, slice_of_le hdisk,
    pure_bind, ← MemoryDisk.join_run hroom]
  cases hdir : c.direction with
  | read => rw [copy_of_length hpart, pure_bind]
  | write => rw [copy_of_length hpart.symm, pure_bind, Nat.mul_add]

end

theorem move_apply (c : Call) (d : MemoryDisk) :
    move c ⟨d.image, c.buffer⟩
      = (match Device.accept d.totalSectors c.lba c.count c.buffer.length with
          | .ok _ => do
            set (← (moved c ⟨d.image, c.buffer⟩ : Strict Bytes Bytes))
            return .ok ()
          | .error err => return .error err : Strict Bytes _) ⟨d.image, c.buffer⟩ := by
  have htotal : UInt32.ofNat (d.image.length / sectorSize) = d.totalSectors := by
    rw [MemoryDisk.length_image, Nat.mul_div_cancel_left _ (by decide), MemoryDisk.totalSectors]
  show (accept (UInt32.ofNat (d.image.length / sectorSize)) c.lba c.count c.buffer.length >>= _)
    (⟨d.image, c.buffer⟩ : Bytes) = _
  rw [htotal, accept_eq, pure_bind]

/-- A call that is granted moves bytes that are there. -/
theorem move_of_ok {c : Call} {d e : MemoryDisk} {buffer : List UInt8}
    (h : c.move d = .ok buffer e) :
    move c ⟨d.image, c.buffer⟩ = .ok (.ok ()) ⟨e.image, buffer⟩ := by
  have hfits := Call.isOk_iff.mp ⟨buffer, e, h⟩
  have hroom := hfits.le_size
  rw [move_apply, Call.accept_eq_ok_iff.mpr hfits]
  simp only [moved_eq hfits, pure_bind]
  rcases c.move_cases d with ⟨err, -, hmove⟩ | ⟨-, hread, hmove⟩
    | ⟨-, hwrite, run, hlen, hjoin, hmove⟩
  · cases h.symm.trans hmove
  · cases h.symm.trans hmove
    rw [hread]
    rfl
  · cases h.symm.trans hmove
    rw [hwrite, ← hjoin, MemoryDisk.image_put (by omega), hlen]
    rfl

/-- A call that is refused moves nothing. -/
theorem move_of_error {c : Call} {d e : MemoryDisk} {err : DeviceError}
    (h : c.move d = .error err e) :
    e = d ∧ move c ⟨d.image, c.buffer⟩ = .ok (.error err) ⟨d.image, c.buffer⟩ := by
  rw [move_apply]
  rcases c.move_cases d with ⟨err, haccept, hmove⟩ | ⟨-, -, hmove⟩ | ⟨-, -, run, -, -, hmove⟩
  · cases h.symm.trans hmove
    rw [haccept]
    exact ⟨rfl, rfl⟩
  · cases h.symm.trans hmove
  · cases h.symm.trans hmove

end Strict

namespace MemoryDisk

/-! ### Runs -/

theorem size_afterAll (calls : List Call) (d : MemoryDisk) :
    (Call.afterAll calls d).sectors.size = d.sectors.size := by
  induction calls generalizing d with
  | nil => rfl
  | cons c calls ih => exact (ih (c.after d)).trans (c.size_after d)

/-- A sector holds what the last write that was granted and covers it has for it. -/
theorem sector?_afterAll (calls : List Call) (d : MemoryDisk) (s : Nat) :
    ((Call.afterAll calls d).sector? s).map Sector.bytes = content calls d s := by
  induction calls generalizing d with
  | nil => rfl
  | cons c calls ih =>
    -- the calls behind the first come later, so that it is asked last
    have hrest := ih (c.after d)
    rw [content, Call.sector?_after] at hrest
    rw [content, Call.granted, List.findSome?_append, Option.or_assoc]
    exact hrest

/-- The bytes of a disk after a call with a buffer of its own, if it comes to no fault. -/
def Call.bytesAfter? (bytes : List UInt8) (c : Call) : Option (List UInt8) :=
  match Strict.move c ⟨bytes, c.buffer⟩ with
  | .ok _ b => some b.disk
  | .error _ _ => none

theorem Call.bytesAfter?_image (c : Call) (d : MemoryDisk) :
    c.bytesAfter? d.image = some (c.after d).image := by
  cases hmove : c.move d with
  | ok buffer e => rw [bytesAfter?, Strict.move_of_ok hmove, after_of_ok hmove]
  | error err e =>
    obtain ⟨rfl, hstrict⟩ := Strict.move_of_error hmove
    rw [bytesAfter?, hstrict, after_of_error hmove]

theorem bytesAfter?_afterAll (calls : List Call) (d : MemoryDisk) :
    calls.foldlM Call.bytesAfter? d.image = some (Call.afterAll calls d).image := by
  induction calls generalizing d with
  | nil => rfl
  | cons c calls ih =>
    rw [List.foldlM_cons, Call.bytesAfter?_image]
    exact ih (c.after d)

/-- A disk of `total` sectors that grants the calls that fit and refuses the others, and from which
a call reads what a map has for the sectors of its run.  No call comes to a fault, and one that is
refused leaves the disk and the buffer as they are. -/
structure IsSectorMap (d : MemoryDisk) (total : Nat) (map : Nat → Option (List UInt8)) : Prop where
  toNat_totalSectors : d.totalSectors.toNat = total
  isOk_iff : ∀ c : Call, (∃ buffer e, c.move d = .ok buffer e) ↔ c.Fits total
  ok_eq : ∀ (c : Call) buffer e, c.move d = .ok buffer e →
    Strict.move c ⟨d.image, c.buffer⟩ = .ok (.ok ()) ⟨e.image, buffer⟩
  error_eq : ∀ (c : Call) err e, c.move d = .error err e →
    e = d ∧ Strict.move c ⟨d.image, c.buffer⟩ = .ok (.error err) ⟨d.image, c.buffer⟩
  read_eq : ∀ (c : Call) buffer e, c.direction = .read → c.move d = .ok buffer e →
    e = d ∧ buffer.length = c.buffer.length ∧ ∀ i < c.count.toNat,
      map (c.lba.toNat + i) = some ((buffer.drop (sectorSize * i)).take sectorSize)

/-- A disk with fewer than `2 ^ 32` sectors stays a map of as many sectors whatever calls it is
used by, and the calls find every byte that they look for on the way. -/
theorem isSectorMap_of_run {d : MemoryDisk} (h : d.sectors.size < 2 ^ 32) (calls : List Call) :
    (Call.afterAll calls d).IsSectorMap d.sectors.size (content calls d)
      ∧ calls.foldlM Call.bytesAfter? d.image = some (Call.afterAll calls d).image := by
  have htotal : (Call.afterAll calls d).totalSectors.toNat = d.sectors.size := by
    rw [totalSectors, size_afterAll, UInt32.toNat_ofNat', Nat.mod_eq_of_lt h]
  refine ⟨⟨htotal, ?_, ?_, ?_, ?_⟩, bytesAfter?_afterAll calls d⟩
  · intro c
    rw [← htotal]
    exact Call.isOk_iff
  · intro c buffer e hmove
    exact Strict.move_of_ok hmove
  · intro c err e hmove
    exact Strict.move_of_error hmove
  · intro c buffer e hread hmove
    obtain ⟨he, hlen, hsectors⟩ := Call.sectors_of_read hread hmove
    refine ⟨he, hlen, fun i hi => ?_⟩
    rw [← sector?_afterAll]
    exact hsectors i hi

/-- Two writes that share a sector, and three that are refused: one ends behind a disk of four
sectors, one behind the last word, and one has too few bytes. -/
def overlappingCalls : List Call :=
  [⟨.write, 0, 2, List.replicate 1024 7⟩, ⟨.write, 1, 2, List.replicate 1024 9⟩,
    ⟨.write, 3, 2, List.replicate 1024 5⟩, ⟨.write, 0xffffffff, 1, List.replicate 512 5⟩,
    ⟨.write, 0, 1, List.replicate 100 5⟩]

/-- Of two writes that overlap the later one is read where they do, and of those that are refused
nothing is. -/
theorem isSectorMap_of_run_overlapping :
    (blank 4).sectors.size < 2 ^ 32
      ∧ (Call.afterAll overlappingCalls (blank 4)).IsSectorMap 4
        (content overlappingCalls (blank 4))
      ∧ content overlappingCalls (blank 4) 0 = some (List.replicate 512 7)
      ∧ content overlappingCalls (blank 4) 1 = some (List.replicate 512 9)
      ∧ content overlappingCalls (blank 4) 2 = some (List.replicate 512 9)
      ∧ content overlappingCalls (blank 4) 3 = some (List.replicate 512 0) := by
  have hsize : (blank 4).sectors.size < 2 ^ 32 := by decide
  obtain ⟨hmap, -⟩ := isSectorMap_of_run hsize overlappingCalls
  refine ⟨hsize, hmap, ?_⟩
  decide +kernel

end MemoryDisk

end SectorFs

import SectorFs.Proofs.Recorder
import SectorFs.Proofs.Strict.Audit

/-!
# Damaged disks

Whatever a disk holds, loading or auditing it comes to an end without a fault, reads sectors of
the disk only and writes nothing; a disk without sectors refuses the one read that it is asked
for.  What is loaded keeps the limits of a filesystem, and its slots hold what the records on the
disk describe (`Volume.Shows`, `Volume.load_safe`).
-/

namespace SectorFs

open Attempt

/-! ### Names -/

/-- A name that a directory may have on a disk. -/
def Entry.IsNamed (e : Entry) : Prop := e.name ≠ "" ∧ '\x00' ∉ e.name.toList

/-- All entries of a directory have names. -/
def Inode.IsNamed (i : Inode) : Prop :=
  ∀ entries, i.content = .directory entries → ∀ e ∈ entries.items.toList, e.IsNamed

/-- A name that is read is not empty and ends before the first zero. -/
theorem Entry.isNamed_of_ofSlot {slot : List UInt8} {e : Entry} (h : ofSlot slot = .ok e) :
    e.IsNamed := by
  refine ⟨fun hempty => (ofSlot_eq_ok h).2.1 ?_, fun hmem => zero_notMem_nameBytes h ?_⟩
  · rw [nameBytes_eq, hempty]
    rfl
  · rw [nameBytes_eq]
    exact List.mem_flatMap.mpr ⟨_, hmem, by decide⟩

theorem Record.isNamed_of_decode {σ : Type} {readBlock : UInt32 → Attempt σ Sector} {r : Record}
    {s t : σ} {i : Inode} (h : r.decode readBlock s = .ok i t) : i.IsNamed := by
  intro entries hcontent e he
  obtain ⟨slots, -, hread⟩ := Record.entries_of_decode h hcontent
  obtain ⟨slot, -, hslot⟩ := except_mapM_mem hread e he
  exact Entry.isNamed_of_ofSlot hslot

/-! ### What is loaded -/

namespace Volume

/-- What a volume that is loaded has to do with the disk it comes from. -/
structure Shows (d : MemoryDisk) (v : Volume) : Prop where
  chunkCount_pos : 1 ≤ v.superblock.chunkCount.toNat
  chunkCount_le : v.superblock.chunkCount.toNat ≤ 1024
  le_slots : 64 ≤ v.tree.slots.size
  slots_le : v.tree.slots.size ≤ 8192
  cwd_eq : v.tree.cwd = .root
  clean : v.tree.dirty = false
  root_isDirectory : ∃ root, v.tree.slot? .root = some root ∧ root.isDirectory = true
  map_blocks : v.map.blocks = v.geometry.blockCount.toNat
  file_le : ∀ (n : Nat) (i : Inode) (bytes : Buffer filePolicy UInt8), v.tree.slots[n]? = some i →
    i.content = .file bytes → bytes.size ≤ 71680
  directory_le : ∀ (n : Nat) (i : Inode) (entries : Buffer directoryPolicy Entry),
    v.tree.slots[n]? = some i → i.content = .directory entries → entries.size ≤ 2240
  isNamed : ∀ (n : Nat) (i : Inode), v.tree.slots[n]? = some i → i.IsNamed
  /-- A slot holds what its record describes. -/
  slot_eq : ∀ n, 1 ≤ n → n < recordsPerChunk * v.superblock.chunkCount.toNat →
    ∃ r i, v.superblock.recordAt d n = some r
      ∧ r.decode (Reading.readBlock v.geometry) d = .ok i d ∧ v.tree.slots[n]? = some i
  /-- Slots without a record are free. -/
  slot_free : ∀ n, recordsPerChunk * v.superblock.chunkCount.toNat ≤ n →
    n < v.tree.slots.size → v.tree.slots[n]? = some .unused

variable {d e : MemoryDisk} {v : Volume}

theorem isNamed_bareRoot : Tree.bareRoot.IsNamed := by
  have hall : ∀ e ∈ (Tree.bareEntries .root .root).items.toList,
      e.name ≠ "" ∧ '\x00' ∉ e.name.toList := by decide
  intro entries hentries
  obtain rfl := Content.directory.inj hentries
  exact hall

theorem shows_of_load (h : load d = .ok v e) : Shows d v := by
  obtain ⟨m, i, t, hhead⟩ := head_of_load h
  obtain ⟨-, records, hr, hv, hroot⟩ := hhead.load_ok_iff.mp h
  have hgeometry : v.geometry = v.superblock.geometry := congrArg geometry hv
  have htree : v.tree
      = (Reading.fill t 0 (records.map (Reading.found v.superblock.geometry d))).settle :=
    congrArg tree hv
  obtain ⟨hcwd, hsize⟩ : v.tree.cwd = t.cwd ∧ v.tree.slots.size = t.slots.size := by
    rw [htree]
    exact Reading.fill_keeps ..
  have hcount := Reading.chunkCount_pos_of_ok hhead.superblock_read
  have hpos : 0 < recordsPerChunk * v.superblock.chunkCount.toNat := Nat.mul_pos (by decide) hcount
  have hroom := (Tree.view_withRoom hhead.room).2.2.1
  have hmax : v.tree.slots.size ≤ 8192 := v.tree.size_le_max
  have hslot : ∀ n, 1 ≤ n → n < recordsPerChunk * v.superblock.chunkCount.toNat →
      ∃ r i, v.superblock.recordAt d n = some r
        ∧ r.decode (Reading.readBlock v.superblock.geometry) d = .ok i d
        ∧ v.tree.slots[n]? = some i := by
    intro n hn hlt
    obtain ⟨r, hrec, hread⟩ := hhead.leads_iff.mp ⟨records, hr⟩ n hlt
    obtain ⟨i, hi⟩ := Reading.readable_iff.mp hread
    refine ⟨r, i, hrec, hi, ?_⟩
    have hslot := (hhead.slot_fill hr n).1 r hlt hrec
    rw [if_neg (by omega), Reading.getD_found hi] at hslot
    rw [htree]
    exact hslot
  have hfree : ∀ n, recordsPerChunk * v.superblock.chunkCount.toNat ≤ n →
      n < v.tree.slots.size → v.tree.slots[n]? = some .unused := by
    intro n hn hlt
    rw [htree]
    exact (hhead.slot_fill hr n).2 hn (hsize ▸ hlt)
  refine ⟨hcount, ?_, v.tree.initial_le_size, hmax, ?_, ?_, hasRoot_iff.mp hroot, ?_, ?_, ?_, ?_,
    ?_, hfree⟩
  · rw [hsize] at hmax
    rw [show recordsPerChunk = 8 from rfl] at hroom
    omega
  · exact hcwd.trans (Tree.view_withRoom hhead.room).2.1
  · rw [htree]
    rfl
  · exact v.map_blocks
  · exact fun _ _ bytes _ _ => bytes.size_le_limit
  · exact fun _ _ entries _ _ => entries.size_le_limit
  · intro n i hi
    have hlt : n < v.tree.slots.size := (Array.getElem?_eq_some_iff.mp hi).1
    rcases Nat.lt_or_ge n (recordsPerChunk * v.superblock.chunkCount.toNat) with hin | hout
    · by_cases h0 : n = 0
      · obtain ⟨r, -, hcases⟩ := root_of_load h
        subst h0
        rcases hcases with ⟨-, hbare⟩ | ⟨root, hdecode, -, hslot⟩
        · obtain rfl := Option.some.inj (hi.symm.trans hbare)
          exact isNamed_bareRoot
        · obtain rfl := Option.some.inj (hi.symm.trans hslot)
          exact Record.isNamed_of_decode hdecode
      · obtain ⟨r, j, -, hdecode, hj⟩ := hslot n (Nat.pos_of_ne_zero h0) hin
        obtain rfl := Option.some.inj (hi.symm.trans hj)
        exact Record.isNamed_of_decode hdecode
    · obtain rfl := Option.some.inj (hi.symm.trans (hfree n hout hlt))
      exact nofun
  · rw [hgeometry]
    exact hslot

end Volume

/-! ### What is asked for -/

/-- An attempt on a disk comes to no fault, leaves the disk as it is, and reads sectors of the
disk only; if there are none, it asks for sector `0`, which is refused. -/
structure ReadsSafely {α : Type} (d : MemoryDisk) (x : Attempt MemoryDisk α)
    (strict : Strict MemoryDisk α) (recorded : Attempt (Recorder MemoryDisk) α) : Prop where
  faultless : strict d = Strict.of x d
  unchanged : x.after d = d
  asked : ∃ trace, recorded (Recorder.new d) = Recorder.ending trace (x d)
    ∧ (0 < d.totalSectors.toNat → ∀ a ∈ trace, ∃ lba count, a.1 = .read lba count
      ∧ lba.toNat + count.toNat ≤ d.totalSectors.toNat)
    ∧ (d.totalSectors.toNat = 0 → x d = .error .ioError d ∧ trace = [(.read 0 1, false)])

theorem readSuperblock_of_empty {d : MemoryDisk} (h : d.totalSectors.toNat = 0) :
    Reading.readSuperblock (Recorder.new d) = .error .ioError ⟨d, [(.read 0 1, false)]⟩ := by
  have hone : (1 : UInt32).toNat = 1 := rfl
  have haccept : ∃ err, Device.accept d.totalSectors 0 1 (sectorSize * (1 : UInt32).toNat)
      = .error err := by
    unfold Device.accept
    rw [if_neg (not_not_intro rfl), if_pos (by omega)]
    exact ⟨_, rfl⟩
  obtain ⟨err, haccept⟩ := haccept
  have hdevice : Device.attempt (SectorDevice.read 0 1 (sectorSize * (1 : UInt32).toNat)) d
      = .error .ioError d := by
    refine Device.attempt_eq_error_iff.mpr ⟨rfl, err, ?_⟩
    show MemoryDisk.read 0 1 _ d = _
    rw [MemoryDisk.read, haccept]
  have hread := Recorder.attempt_pass (.read 0 1)
    (SectorDevice.read 0 1 (sectorSize * (1 : UInt32).toNat)) (Recorder.new d)
  rw [show (Recorder.new d).device = d from rfl, hdevice] at hread
  refine bind_eq_error_iff.mpr (.inr ⟨(), _, rfl, bind_eq_error_iff.mpr (.inl hread)⟩)

/-- A program that mirrors another, agrees with a strict one and starts at sector `0` reads
safely. -/
theorem readsSafely {α : Type} {d : MemoryDisk} {x : Attempt MemoryDisk α}
    {strict : Strict MemoryDisk α} {recorded : Attempt (Recorder MemoryDisk) α}
    {strictRecorded : Strict (Recorder MemoryDisk) α} (hmirrors : Mirrors recorded x)
    (hkeeps : x.Asks Request.IsRead)
    (hstrict : Strict.Agrees d.totalSectors strict x)
    (hrecorded : Strict.Agrees d.totalSectors strictRecorded recorded)
    (hstart : ∀ e, Reading.readSuperblock (Recorder.new d) = .error .ioError e →
      recorded (Recorder.new d) = .error .ioError e) :
    ReadsSafely d x strict recorded where
  faultless := hstrict.eq_of d rfl
  unchanged := (hkeeps d).disk_eq
  asked := by
    obtain ⟨trace, htrace, hwithin⟩ := hmirrors.recorded (hrecorded.asks (Recorder.new d) rfl)
    refine ⟨trace, htrace, fun hpos a ha => ?_, fun hempty => ?_⟩
    · have hone : (1 : UInt32).toNat = 1 := rfl
      have hin := hwithin a ha
      obtain ⟨r, granted⟩ := a
      cases r with
      | read lba count =>
        refine ⟨lba, count, rfl, ?_⟩
        rcases hin with hin | ⟨rfl, rfl⟩
        · exact hin
        · rw [hone]
          exact hpos
      | write lba sectors => exact hin.elim
      | flush => exact hin.elim
    · have hfail := hstart _ (readSuperblock_of_empty hempty)
      rw [htrace] at hfail
      cases hx : x d with
      | ok a e =>
        rw [hx] at hfail
        cases hfail
      | error f e =>
        rw [hx] at hfail
        injection hfail with hf he
        injection he with he hlog
        exact ⟨by rw [hf, he], hlog⟩

namespace Volume

/-- Whatever a disk holds, it is loaded and audited safely, and a volume that is loaded shows
what is on the disk. -/
theorem load_safe (d : MemoryDisk) :
    ReadsSafely d load Strict.load load ∧ ReadsSafely d Audit.run Strict.audit Audit.run
      ∧ ∀ v e, load d = .ok v e → Shows d v :=
  ⟨readsSafely mirrors_load mirrors_load.asks Strict.agrees_load Strict.agrees_load
      fun _ h => bind_eq_error_iff.mpr (.inl h),
    readsSafely Audit.mirrors_run Audit.mirrors_run.asks Strict.agrees_audit Strict.agrees_audit
      fun _ h => bind_eq_error_iff.mpr (.inl h),
    fun _ _ => shows_of_load⟩

/-- The disk with one file is loaded safely. -/
theorem load_safe_file :
    ∃ v, load fileDisk = .ok v fileDisk ∧ Shows fileDisk v := by
  have hok : load.succeeds fileDisk (fun _ _ => true) = true := by decide +kernel
  obtain ⟨v, e, hload, -⟩ := succeeds_iff.mp hok
  obtain rfl := mirrors_load.keeps _ v e hload
  exact ⟨v, hload, (load_safe fileDisk).2.2 v fileDisk hload⟩

/-- A disk without sectors is asked for one. -/
theorem load_asks_past_end :
    ¬∀ d : MemoryDisk, ∃ trace, load (Recorder.new d) = Recorder.ending trace (load d)
      ∧ ∀ a ∈ trace, ∃ lba count, a.1 = .read lba count
        ∧ lba.toNat + count.toNat ≤ d.sectors.size := by
  intro hall
  obtain ⟨trace, htrace, hin⟩ := hall (.blank 0)
  have hfail : load (Recorder.new (MemoryDisk.blank 0))
      = .error .ioError ⟨.blank 0, [(.read 0 1, false)]⟩ :=
    bind_eq_error_iff.mpr (.inl (readSuperblock_of_empty rfl))
  rw [htrace] at hfail
  cases hx : (load (MemoryDisk.blank 0)) with
  | ok v e =>
    rw [hx] at hfail
    cases hfail
  | error f e =>
    rw [hx] at hfail
    injection hfail with _ he
    injection he with _ hlog
    obtain ⟨lba, count, hread, hle⟩ := hin (.read 0 1, false)
      (by rw [hlog]; exact List.mem_cons_self)
    injection hread with hlba hcount
    subst hlba hcount
    exact absurd hle (by decide)

end Volume

end SectorFs

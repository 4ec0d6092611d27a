import SectorFs.Proofs.Volume.Damage
import SectorFs.Proofs.Volume.Space

/-!
# Mounting

Mounting loads what is on a device, and lays out a new filesystem only when loading reports a
corrupt superblock.  A sector `0` with the right magic and version is kept unless its
superblock is that of no filesystem (`Volume.mount_of_current`).  What a pass or a new layout
has left is never taken for that, whichever reads are refused, and what was mounted can be
loaded again (`Volume.mount_keeps`).
-/

namespace SectorFs

open Attempt

open Backed (disk)

namespace Volume

/-! ### Requests -/

section

variable {D : Type} [SectorDevice D] {d e : D} {v w : Volume} {f : Failure}

theorem asks_commit {g : Geometry} (k : PoolMap g) (t : Tree) :
    (commit g k t : Attempt D Volume).Asks fun _ => True := by
  unfold commit
  split
  · exact .throw _
  · rename_i p _
    exact .bind (.forM Step.asks_run p.steps) fun _ => .pure _

theorem asks_format : (format : Attempt D Volume).Asks fun _ => True :=
  .bind (.query _) fun _ => .bind (.query _) fun _ => .bind (.lift _) fun _ => asks_commit _ _

theorem mount_of_ok (h : load d = .ok v e) : mount d = .ok v e := by
  rw [mount, h]

theorem mount_of_error (h : load d = .error f e) (hf : f ≠ .corruptSuperblock) :
    mount d = .error f e := by
  unfold mount
  rw [h]
  cases f <;> first | rfl | exact absurd rfl hf

theorem mount_of_corruptSuperblock (h : load d = .error .corruptSuperblock e) :
    mount d = format e := by
  rw [mount, h]

theorem mount_cases (h : mount d = .ok v e) :
    load d = .ok v e ∨ ∃ c, load d = .error .corruptSuperblock c ∧ format c = .ok v e := by
  cases hl : load d with
  | ok w c => exact .inl ((mount_of_ok hl).symm.trans h)
  | error f c =>
    by_cases hf : f = .corruptSuperblock
    · subst hf
      exact .inr ⟨c, rfl, (mount_of_corruptSuperblock hl).symm.trans h⟩
    · rw [mount_of_error hl hf] at h
      cases h

theorem mount_eq_load (h : ∀ e, load d ≠ .error .corruptSuperblock e) : mount d = load d := by
  cases hl : load d with
  | ok v e => exact mount_of_ok hl
  | error f e => exact mount_of_error hl fun hf => h e (hf ▸ hl)

end

/-! ### Superblocks -/

section

variable {D : Type} [SectorDevice D] [Backed D] {d e : D} {v w : Volume}

/-- A device whose sector `0` has the right magic and version is loaded and left alone if its
superblock is in order; else, if the device is, it gets a new layout. -/
theorem mount_of_current {sector : Sector} (hs : (disk d).sector? 0 = some sector)
    (hcurrent : (Superblock.read sector).IsCurrent) :
    (¬Damaged (Superblock.read sector) (disk d) →
        mount d = load d ∧ Asked Request.IsRead d (mount.after d)
          ∧ disk (mount.after d) = disk d)
      ∧ (Damaged (Superblock.read sector) (disk d) → InOrder d →
        0 < (disk d).totalSectors.toNat →
          ∃ e, Asked Request.IsRead d e ∧ disk e = disk d ∧ mount d = format e) := by
  constructor
  · intro hok
    have hfits : (Superblock.read sector).geometry.Fits (disk d).totalSectors := by
      by_contra hg
      exact hok (.inr (.inl hg))
    have htotal : 0 < (disk d).totalSectors.toNat := by
      have h1 := UInt32.lt_iff_toNat_lt.mp hfits.2.1
      have h2 := hfits.2.2.2
      omega
    have heq : mount d = load d := by
      refine mount_eq_load fun e he => ?_
      rcases mirrors_load.of_error he with ⟨hio, -⟩ | hm
      · cases hio
      · exact hok ((load_corruptSuperblock_iff htotal hs hcurrent).mp hm)
    have hafter : mount.after d = load.after d := by
      rw [Attempt.after, heq]
      rfl
    have hasked := mirrors_load.asks d
    rw [hafter]
    exact ⟨heq, hasked, hasked.disk_eq⟩
  · intro hbad hd htotal
    obtain ⟨e, he⟩ := mirrors_load.error_of_inOrder hd
      ((load_corruptSuperblock_iff htotal hs hcurrent).mpr hbad)
    have hasked := mirrors_load.asks.of_error he
    exact ⟨e, hasked, hasked.disk_eq, mount_of_corruptSuperblock he⟩

end

/-- A disk of eight sectors with one file. -/
def fileDisk : MemoryDisk :=
  (commit ⟨6, 1, 2⟩ (.empty _) (Tree.run [.create "/a"] .empty)).after (.blank 8)

/-- The same disk with a superblock that tells of a second chunk. -/
def shortMapDisk : MemoryDisk := fileDisk.patch 0 24 [2]

/-- Either of them has a sector `0` that looks like a superblock. -/
theorem isCurrent_of_mem {d : MemoryDisk} (hd : d ∈ [fileDisk, shortMapDisk]) :
    ∃ s, d.sector? 0 = some s ∧ (Superblock.read s).IsCurrent ∧ 0 < d.totalSectors.toNat := by
  have hall : ∀ d ∈ [fileDisk, shortMapDisk], (d.sector? 0).any
      (fun s => decide ((Superblock.read s).IsCurrent ∧ 0 < d.totalSectors.toNat)) = true := by
    decide +kernel
  have hsome := hall d hd
  cases hs : d.sector? 0 with
  | none =>
    rw [hs] at hsome
    cases hsome
  | some s =>
    rw [hs] at hsome
    exact ⟨s, rfl, of_decide_eq_true hsome⟩

/-- The disk with the file is loaded, and the one that misses a chunk gets a new layout. -/
theorem mount_of_current_file :
    (∃ v, mount fileDisk = .ok v fileDisk) ∧ mount shortMapDisk = format shortMapDisk := by
  have hok : load.succeeds fileDisk (fun _ _ => true) = true := by decide +kernel
  have hbad : load.fails shortMapDisk (fun f _ => f == .corruptSuperblock) = true := by
    decide +kernel
  obtain ⟨v, e, hload, -⟩ := succeeds_iff.mp hok
  obtain ⟨f, c, hfail, hf⟩ := fails_iff.mp hbad
  constructor
  · obtain ⟨s, hs, hcurrent, htotal⟩ := isCurrent_of_mem (d := fileDisk) (by simp)
    have hnot : ¬Damaged (Superblock.read s) fileDisk := fun hdam => by
      rw [(load_corruptSuperblock_iff htotal hs hcurrent).mpr hdam] at hload
      cases hload
    have hmount := ((mount_of_current (d := fileDisk) hs hcurrent).1 hnot).1
    rw [mirrors_load.keeps _ _ _ hload] at hload
    exact ⟨v, hmount.trans hload⟩
  · obtain ⟨s, hs, hcurrent, htotal⟩ := isCurrent_of_mem (d := shortMapDisk) (by simp)
    obtain rfl := beq_iff_eq.mp hf
    rw [show c = shortMapDisk from (mirrors_load.asks.of_error hfail).disk_eq] at hfail
    have hdam := (load_corruptSuperblock_iff htotal hs hcurrent).mp hfail
    obtain ⟨e, -, he, hmount⟩ := (mount_of_current (d := shortMapDisk) hs hcurrent).2 hdam
      (MemoryDisk.inOrder _) htotal
    rw [hmount, show e = shortMapDisk from he]

/-- A disk with the right magic and version may be overwritten. -/
theorem mount_overwrites :
    ¬∀ (d : MemoryDisk) (sector : Sector), d.sector? 0 = some sector →
      (Superblock.read sector).IsCurrent → (mount.after d).sectors = d.sectors := by
  intro hall
  obtain ⟨s, hs, hcurrent, -⟩ := isCurrent_of_mem (d := shortMapDisk) (by simp)
  have hne : (mount.after shortMapDisk).sectors ≠ shortMapDisk.sectors := by decide +kernel
  exact hne (hall shortMapDisk s hs hcurrent)

/-! ### What was left on a device -/

section

variable {D : Type} [SectorDevice D] {d e : D} {t : Tree} {v w : Volume}

/-- A new layout, or a pass of a tree with a root directory, has left a tree on a device. -/
def Leaves (d : D) (t : Tree) (w : Volume) (e : D) : Prop :=
  format d = .ok w e ∧ t = .empty
    ∨ ∃ v : Volume, v.sync d = .ok w e ∧ t = v.tree ∧ (t.view .root).kind = .directory
        ∧ Divides v.geometry (SectorDevice.totalSectors d)

/-- A new layout is a pass of the empty tree. -/
theorem commit_of_format (h : format d = .ok w e) :
    ∃ g, Geometry.format (SectorDevice.totalSectors d) = .ok g
      ∧ commit g (.empty g) .empty d = .ok w e := by
  obtain ⟨⟨⟩, c, hpresent, h⟩ := bind_eq_ok_iff.mp h
  obtain ⟨total, k, htotal, h⟩ := bind_eq_ok_iff.mp h
  obtain ⟨g, m, hg, h⟩ := bind_eq_ok_iff.mp h
  obtain ⟨hg, hm⟩ := lift_eq_ok_iff.mp hg
  rw [requirePresent_apply] at hpresent
  split at hpresent
  · injection hpresent with _ hc
    injection htotal with htotal hk
    rw [hm, ← hk, ← hc] at h
    rw [← htotal, ← hc] at hg
    exact ⟨g, hg, h⟩
  · cases hpresent

theorem Leaves.root (h : Leaves d t w e) : (t.view .root).kind = .directory := by
  rcases h with ⟨-, rfl⟩ | ⟨v, -, -, hroot, -⟩
  · rw [Tree.empty, Tree.view_blank, Function.update_self]
    rfl
  · exact hroot

theorem Leaves.commit (h : Leaves d t w e) :
    ∃ (g : Geometry) (k : PoolMap g),
      g.Fits (SectorDevice.totalSectors d) ∧ Volume.commit g k t d = .ok w e := by
  rcases h with ⟨hformat, rfl⟩ | ⟨v, hsync, rfl, -, hdivides⟩
  · obtain ⟨g, hg, hc⟩ := commit_of_format hformat
    exact ⟨g, _, Geometry.fits_of_format hg, hc⟩
  · exact ⟨v.geometry, _, hdivides.fits, hsync⟩

variable [Backed D]

theorem Leaves.load (h : Leaves d t w e) :
    ∃ u, Volume.load (disk e) = .ok { w with tree := u } (disk e) ∧ u.Restores t := by
  obtain ⟨g, k, hg, hc⟩ := h.commit
  exact (load_of_commit hg h.root hc).2

/-- A filesystem that was left on a device is mounted as it is or, if the device refuses to be
read, not at all. -/
theorem Leaves.mount (h : Leaves d t w e) {E : Type} [SectorDevice E] [Backed E] {c : E}
    (hc : disk c = disk e) :
    Volume.mount c = Volume.load c
      ∧ ((∃ u c', Volume.load c = .ok { w with tree := u } c' ∧ u.Restores t)
        ∨ ¬InOrder c ∧ ∃ c', Volume.load c = .error .ioError c') := by
  obtain ⟨u, hload, hr⟩ := h.load
  rw [← hc] at hload
  rcases mirrors_load.ok_or_ioError hload with ⟨c', hok⟩ | ⟨hord, c', herr⟩
  · exact ⟨(mount_of_ok hok).trans hok.symm, .inl ⟨u, c', hok, hr⟩⟩
  · exact ⟨(mount_of_error herr nofun).trans herr.symm, .inr ⟨hord, c', herr⟩⟩

/-! ### A new layout -/

theorem withRoom_empty :
    Tree.empty.withRoom (Pass.chunkCount .empty * recordsPerChunk) = .ok .empty := by
  decide

/-- A new layout is read back slot by slot. -/
theorem load_of_format (h : format d = .ok w e) :
    ∃ u, load (disk e) = .ok { w with tree := u } (disk e)
      ∧ u.slots.size = w.tree.slots.size ∧ ∀ id, u.view id = w.tree.view id := by
  have hleaves : Leaves d .empty w e := .inl ⟨h, rfl⟩
  obtain ⟨g, k, hg, hc⟩ := hleaves.commit
  obtain ⟨hdisk, -, -, htree⟩ := onDisk_of_commit hg hc
  obtain ⟨u, hload, hr⟩ := hleaves.load
  refine ⟨u, hload, ?_, fun id => ?_⟩
  · obtain ⟨-, table, i, records, htable, -, -, hv, -⟩ :=
      (load_ok_iff hdisk.geometry_fits hdisk.superblock_held hdisk.readMap).mp hload
    rw [withRoom_empty] at htable
    obtain rfl := Except.ok.inj htable
    obtain ⟨-, hsize⟩ := Reading.fill_keeps .empty 0 (records.map (Reading.found g (disk e)))
    rw [show u = _ from congrArg tree hv, htree]
    exact hsize
  · rw [hr.view_eq, show Tree.empty.persisted id = _ from (Tree.sound_blank ..).persisted_eq id,
      htree]
    rfl

/-- What was mounted on a device in order can be loaded again. -/
theorem load_of_mount (hd : InOrder d) (h : mount d = .ok v e) :
    ∃ u e', load e = .ok { v with tree := u } e'
      ∧ u.slots.size = v.tree.slots.size ∧ ∀ id, u.view id = v.tree.view id := by
  rcases mount_cases h with hload | ⟨c, hbad, hformat⟩
  · have hasked := mirrors_load.asks.of_ok hload
    have hstored := mirrors_load.of_ok hload
    rw [← hasked.disk_eq] at hstored
    obtain ⟨e', he⟩ := mirrors_load.ok_of_inOrder (hd.of_asked hasked) hstored
    exact ⟨v.tree, e', he, rfl, fun _ => rfl⟩
  · have hc := hd.of_asked (mirrors_load.asks.of_error hbad)
    obtain ⟨u, hstored, hsize, hview⟩ := load_of_format hformat
    obtain ⟨e', he⟩ := mirrors_load.ok_of_inOrder (hc.of_asked (asks_format.of_ok hformat)) hstored
    exact ⟨u, e', he, hsize, hview⟩

/-- A filesystem that was left on a device, by a new layout or by a pass, is never written
over by mounting it, and a filesystem that was mounted can be loaded again. -/
theorem mount_keeps :
    (∀ {d e : D} {t : Tree} {w : Volume}, Leaves d t w e →
        ∀ {E : Type} [SectorDevice E] [Backed E] (c : E), disk c = disk e →
          Asked Request.IsRead c (mount.after c)
            ∧ ((∃ u c', mount c = .ok { w with tree := u } c' ∧ u.Restores t)
              ∨ ¬InOrder c ∧ ∃ c', mount c = .error .ioError c'))
      ∧ ∀ {d e : D} {v : Volume}, InOrder d → mount d = .ok v e →
        ∃ u e', load e = .ok { v with tree := u } e'
          ∧ u.slots.size = v.tree.slots.size ∧ ∀ id, u.view id = v.tree.view id := by
  constructor
  · intro d e t w h E _ _ c hc
    obtain ⟨hmount, hcases⟩ := h.mount hc
    have hafter : Volume.mount.after c = Volume.load.after c := by
      rw [Attempt.after, hmount]
      rfl
    rw [hafter, hmount]
    exact ⟨mirrors_load.asks c, hcases⟩
  · intro d e v hd h
    exact load_of_mount hd h

end

/-- A file and a directory that a pass brought to a disk are mounted from then on, and again
after that, but not while reads are refused.  A blank disk gets a new layout, which is mounted
from then on. -/
theorem mount_keeps_small :
    (∃ (w : Volume) (e : MemoryDisk), smallVolume.sync (MemoryDisk.blank 8) = .ok w e
      ∧ (∃ u c, mount (FaultyDisk.ofDisk e) = .ok { w with tree := u } c
          ∧ u.Restores smallVolume.tree
          ∧ ∃ u' c', load c = .ok { w with tree := u' } c'
            ∧ u'.slots.size = u.slots.size ∧ ∀ id, u'.view id = u.view id)
      ∧ ∃ c : FaultyDisk, c.disk = e
          ∧ mount (⟨e, { Faults.none with failReads := true }, #[]⟩ : FaultyDisk)
            = .error .ioError c)
      ∧ ∃ (w : Volume) (e : MemoryDisk), mount (MemoryDisk.blank 8) = .ok w e
          ∧ ∃ u e', mount e = .ok { w with tree := u } e' ∧ u.Restores .empty := by
  have hsync : smallVolume.sync.succeeds (MemoryDisk.blank 8) (fun _ _ => true) = true := by
    decide +kernel
  have hmount : mount.succeeds (MemoryDisk.blank 8) (fun _ _ => true) = true := by decide +kernel
  have hblank : load.fails (MemoryDisk.blank 8) (fun _ _ => true) = true := by decide +kernel
  have htotal : SectorDevice.totalSectors (MemoryDisk.blank 8) = 8 := by decide
  have hroot : (smallVolume.tree.view .root).kind = .directory := by decide +kernel
  generalize MemoryDisk.blank 8 = d at hsync hmount hblank htotal ⊢
  constructor
  · obtain ⟨w, e, h, -⟩ := succeeds_iff.mp hsync
    have hdivides : Divides smallVolume.geometry (SectorDevice.totalSectors d) := by
      rw [htotal]
      exact .inl (by decide)
    have hleaves : Leaves d smallVolume.tree w e :=
      .inr ⟨smallVolume, h, rfl, hroot, hdivides⟩
    have horder : InOrder (FaultyDisk.ofDisk e) := FaultyDisk.inOrder rfl
    refine ⟨w, e, h, ?_, ?_⟩
    · obtain ⟨u, c, hok, hr⟩ := (mount_keeps.1 hleaves (FaultyDisk.ofDisk e) rfl).2.resolve_right
        fun hbad => hbad.1 horder
      exact ⟨u, c, hok, hr, mount_keeps.2 horder hok⟩
    · obtain ⟨hasked, hcases⟩ := mount_keeps.1 hleaves
        (⟨e, { Faults.none with failReads := true }, #[]⟩ : FaultyDisk) rfl
      rcases hcases with ⟨u, k, hok, -⟩ | ⟨-, k, herr⟩
      · cases hok
      · rw [after_of_error herr] at hasked
        exact ⟨k, hasked.disk_eq, herr⟩
  · obtain ⟨w, e, h, -⟩ := succeeds_iff.mp hmount
    obtain ⟨f, k, hload, -⟩ := fails_iff.mp hblank
    obtain ⟨c, -, hformat⟩ :=
      (mount_cases h).resolve_left fun hok => nomatch hload.symm.trans hok
    have hleaves : Leaves c .empty w e := .inl ⟨hformat, rfl⟩
    exact ⟨w, e, h, (mount_keeps.1 hleaves e rfl).2.resolve_right
      fun hbad => hbad.1 (MemoryDisk.inOrder e)⟩

end Volume

end SectorFs

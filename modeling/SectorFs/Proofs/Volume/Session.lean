import SectorFs.Proofs.Tree.Marks
import SectorFs.Proofs.Volume.Mounting

/-!
# Sessions

A session starts with a new layout and goes on with calls on its tree and with passes and
loads, each of which may fail.  All the while the device holds the image of some sound tree,
the one that was brought to it last, and the tree in memory is that tree as long as it is not
marked (`Session.Saved`).  A call on the tree keeps this because it marks what it changes, a
pass that succeeds because it brings its tree to the device, and one that fails because it
leaves the device alone; what is loaded is what was saved.  So a tree without a mark can be
found on a copy of the device (`Session.load_of_clean`).
-/

namespace SectorFs

open Attempt

open Backed (disk)

namespace Session

variable {D : Type} [SectorDevice D]

/-! ### Calls -/

/-- A call that a session is used by. -/
inductive Call where
  | edit (call : Tree.Call)
  | sync
  | load

/-- Any call but starting over, which drops a tree and leaves no mark. -/
def Call.IsMarked : Call → Prop
  | edit call => call ≠ .reset
  | _ => True

/-- The session after a call, which may have failed. -/
def Call.after (s : Session D) : Call → Session D
  | edit call => { s with volume := s.volume.withTree (call.after s.volume.tree) }
  | sync => Session.sync.after s
  | load => Session.load.after s

/-- The session after some calls, one after the other. -/
def run (calls : List Call) (s : Session D) : Session D := calls.foldl Call.after s

/-! ### What is saved -/

variable [Backed D] {s : Session D} {t : Tree}

/-- A device in order holds the image of a sound tree, and the tree in memory is that one as
long as it is not marked. -/
structure Saved (s : Session D) (t : Tree) : Prop where
  inOrder : InOrder s.device
  tree_sound : s.volume.tree.Sound
  sound : t.Sound
  onDisk : Pass.OnDisk s.volume.geometry t s.volume.map (disk s.device)
  view_eq : s.volume.tree.dirty = false → s.volume.tree.view = t.view

namespace Saved

/-- What was saved is found on every copy of the device. -/
theorem load_copy (h : s.Saved t) {E : Type} [SectorDevice E] [Backed E] {c : E}
    (hc : InOrder c) (hcopy : disk c = disk s.device) :
    ∃ (b : Superblock) (u : Tree) (e : E),
      Volume.load c = .ok { s.volume with superblock := b, tree := u } e ∧ u.Restores t := by
  obtain ⟨b, u, hload, hr⟩ : ∃ (b : Superblock) (u : Tree), Volume.load (disk s.device)
      = .ok { s.volume with superblock := b, tree := u } (disk s.device) ∧ u.Restores t :=
    ⟨_, Volume.load_of_onDisk h.onDisk h.sound.root_kind⟩
  rw [← hcopy] at hload
  obtain ⟨e, he⟩ := Volume.mirrors_load.ok_of_inOrder hc hload
  exact ⟨b, u, e, he, hr⟩

theorem of_commit {w : Volume} {d e : D} {g : Geometry} {k : PoolMap g} (hd : InOrder d)
    (hg : g.Fits (SectorDevice.totalSectors d)) (ht : t.Sound)
    (h : Volume.commit g k t d = .ok w e) : Saved ⟨e, w⟩ t := by
  obtain ⟨hdisk, hgeometry, -, htree⟩ := Volume.onDisk_of_commit hg h
  have hsettle : t.Same t.settle := ⟨rfl, rfl⟩
  refine ⟨hd.of_asked ((Volume.asks_commit k t).of_ok h), ?_, ht, ?_, fun _ => ?_⟩
  · rw [htree]
    exact ht.of_view_eq hsettle
  · rw [hgeometry]
    exact hdisk
  · rw [htree]
    exact hsettle.1

/-- A tree that was restored is the one that was saved, seen from the root. -/
theorem of_restores {u : Tree} (h : s.Saved t) (hr : u.Restores t) {e : D} (he : InOrder e)
    (hdisk : disk e = disk s.device) {b : Superblock} :
    Saved ⟨e, { s.volume with superblock := b, tree := u }⟩ t := by
  have hview : u.view = t.view := funext fun id => (hr.view_eq id).trans (h.sound.persisted_eq id)
  refine ⟨he, ?_, h.sound, hdisk ▸ h.onDisk, fun _ => hview⟩
  refine h.sound.of_same ?_ (fun id => ?_) (fun id => ?_) fun id => ?_
  · rw [hr.cwd_eq, h.sound.root_kind]
  · rw [hview]
  · rw [hview]
  · rw [hview]

/-! ### Calls keep what is saved -/

theorem edit (h : s.Saved t) {c : Tree.Call} (hc : c ≠ .reset) :
    (Call.after s (.edit c)).Saved t where
  inOrder := h.inOrder
  tree_sound := h.tree_sound.call c
  sound := h.sound
  onDisk := h.onDisk
  view_eq hclean := by
    have hmarked := Tree.Call.marked hc s.volume.tree
    have hbefore := hmarked.keepsMark.dirty_eq_false hclean
    exact (hmarked.view_eq hclean).trans (h.view_eq hbefore)

/-- A pass saves its tree, or there is no room for it and nothing happens. -/
theorem sync (h : s.Saved t) : ∃ u, (Call.after s .sync).Saved u := by
  have hg : s.volume.geometry.Fits (SectorDevice.totalSectors s.device) := by
    rw [Backed.totalSectors_eq]
    exact h.onDisk.geometry_fits
  have hpay : ∀ i ∈ Pass.slotsOf s.volume.tree, ∃ bytes, i.payload = .ok bytes := fun i hi =>
    h.tree_sound.payload_isOk (List.mem_of_mem_take hi)
  rcases Volume.commit_cases hg h.inOrder hpay with ⟨-, w, e, hok⟩ | ⟨-, herr⟩
  · have hrun : Session.sync s = .ok () ⟨e, w⟩ := become_of_ok hok
    refine ⟨s.volume.tree, ?_⟩
    rw [Call.after, after_of_ok hrun]
    exact of_commit h.inOrder hg h.tree_sound hok
  · have hrun : Session.sync s = .error .outOfDiskSpace s := become_of_error herr
    refine ⟨t, ?_⟩
    rw [Call.after, after_of_error hrun]
    exact h

theorem load (h : s.Saved t) : (Call.after s .load).Saved t := by
  obtain ⟨b, u, e, hload, hr⟩ := h.load_copy h.inOrder rfl
  have hasked := Volume.mirrors_load.asks.of_ok hload
  have hrun : Session.load s = .ok () ⟨e, _⟩ := become_of_ok hload
  rw [Call.after, after_of_ok hrun]
  exact h.of_restores hr (h.inOrder.of_asked hasked) hasked.disk_eq

theorem call (h : s.Saved t) {c : Call} (hc : c.IsMarked) : ∃ u, (c.after s).Saved u := by
  cases c with
  | edit call => exact ⟨t, h.edit hc⟩
  | sync => exact h.sync
  | load => exact ⟨t, h.load⟩

theorem calls (h : s.Saved t) {calls : List Call} (hc : ∀ c ∈ calls, c.IsMarked) :
    ∃ u, (run calls s).Saved u := by
  induction calls generalizing s t with
  | nil => exact ⟨t, h⟩
  | cons c calls ih =>
    obtain ⟨u, hu⟩ := h.call (hc c List.mem_cons_self)
    exact ih hu fun b hb => hc b (List.mem_cons_of_mem c hb)

/-- A new layout saves a new tree. -/
theorem of_format {d e : D} {v : Volume} (hd : InOrder d) (h : Volume.format d = .ok v e) :
    Saved ⟨e, v⟩ .empty := by
  obtain ⟨g, hg, hcommit⟩ := Volume.commit_of_format h
  exact of_commit hd (Geometry.fits_of_format hg) (Tree.sound_blank ..) hcommit

end Saved

/-! ### Trees without a mark -/

/-- However a session went on from a new layout, while its tree is not marked every copy of the
device is loaded, and with the same inodes. -/
theorem load_of_clean {d e : D} {v : Volume} (hd : InOrder d) (hformat : Volume.format d = .ok v e)
    {calls : List Call} (hcalls : ∀ c ∈ calls, c.IsMarked)
    (hclean : (run calls ⟨e, v⟩).volume.tree.dirty = false)
    {E : Type} [SectorDevice E] [Backed E] {c : E} (hc : InOrder c)
    (hcopy : disk c = disk (run calls ⟨e, v⟩).device) :
    ∃ w c', Volume.load c = .ok w c'
      ∧ ∀ id, w.tree.view id = (run calls ⟨e, v⟩).volume.tree.view id := by
  obtain ⟨t, h⟩ := (Saved.of_format hd hformat).calls hcalls
  obtain ⟨b, u, c', hload, hr⟩ := h.load_copy hc hcopy
  refine ⟨_, c', hload, fun id => ?_⟩
  rw [hr.view_eq, h.sound.persisted_eq, h.view_eq hclean]

/-- A file is made, refused a second time, brought to disk and written nothing to; a directory
that is made after that is dropped again. -/
def fileCalls : List Call :=
  [.edit (.create "/a"), .edit (.create "/a"), .sync, .edit (.writeAt ⟨1⟩ 9 #[]),
    .edit (.mkdir "/b"), .load]

/-- A file and a directory are made and brought to disk. -/
def syncCalls : List Call := [.edit (.create "/a"), .edit (.mkdir "/b"), .sync]

/-- In the first session the file is all there is in the end, in memory and on a copy of the
disk.  In the second one the tree is marked until the pass clears the mark, and then a copy of
the disk has both. -/
theorem load_of_clean_file :
    ∃ (v : Volume) (e : MemoryDisk), Volume.format (.blank 8) = .ok v e
      ∧ ((∀ c ∈ fileCalls, c.IsMarked)
        ∧ (run fileCalls ⟨e, v⟩).volume.tree.dirty = false
        ∧ (run fileCalls ⟨e, v⟩).volume.tree.allEntries
          = [⟨".", .root⟩, ⟨"..", .root⟩, ⟨"a", ⟨1⟩⟩]
        ∧ ∃ w c', Volume.load (FaultyDisk.ofDisk (run fileCalls ⟨e, v⟩).device) = .ok w c'
          ∧ ∀ id, w.tree.view id = (run fileCalls ⟨e, v⟩).volume.tree.view id)
      ∧ (∀ c ∈ syncCalls, c.IsMarked)
      ∧ (run syncCalls.dropLast ⟨e, v⟩).volume.tree.dirty = true
      ∧ (run syncCalls ⟨e, v⟩).volume.tree.dirty = false
      ∧ (run syncCalls ⟨e, v⟩).volume.tree.allEntries
        = [⟨".", .root⟩, ⟨"..", .root⟩, ⟨"a", ⟨1⟩⟩, ⟨"b", ⟨2⟩⟩, ⟨".", ⟨2⟩⟩, ⟨"..", .root⟩]
      ∧ ∃ w c', Volume.load (FaultyDisk.ofDisk (run syncCalls ⟨e, v⟩).device) = .ok w c'
        ∧ ∀ id, w.tree.view id = (run syncCalls ⟨e, v⟩).volume.tree.view id := by
  have hrun : Volume.format.succeeds (MemoryDisk.blank 8) (fun v e =>
      decide ((run fileCalls ⟨e, v⟩).volume.tree.dirty = false
        ∧ (run fileCalls ⟨e, v⟩).volume.tree.allEntries
          = [⟨".", .root⟩, ⟨"..", .root⟩, ⟨"a", ⟨1⟩⟩]
        ∧ (run syncCalls.dropLast ⟨e, v⟩).volume.tree.dirty = true
        ∧ (run syncCalls ⟨e, v⟩).volume.tree.dirty = false
        ∧ (run syncCalls ⟨e, v⟩).volume.tree.allEntries
          = [⟨".", .root⟩, ⟨"..", .root⟩, ⟨"a", ⟨1⟩⟩, ⟨"b", ⟨2⟩⟩, ⟨".", ⟨2⟩⟩, ⟨"..", .root⟩]))
      = true := by
    decide +kernel
  obtain ⟨v, e, hformat, hrun⟩ := succeeds_iff.mp hrun
  obtain ⟨hclean, hentries, hmarked, hsynced, hboth⟩ := of_decide_eq_true hrun
  have hfile : ∀ c ∈ fileCalls, c.IsMarked := by simp [fileCalls, Call.IsMarked]
  have hsync : ∀ c ∈ syncCalls, c.IsMarked := by simp [syncCalls, Call.IsMarked]
  exact ⟨v, e, hformat, ⟨hfile, hclean, hentries, load_of_clean (MemoryDisk.inOrder _) hformat
    hfile hclean (FaultyDisk.inOrder rfl) rfl⟩, hsync, hmarked, hsynced, hboth,
    load_of_clean (MemoryDisk.inOrder _) hformat hsync hsynced (FaultyDisk.inOrder rfl) rfl⟩

end Session

end SectorFs

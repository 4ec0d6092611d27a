import SectorFs.Proofs.Volume.Mounting
import SectorFs.Proofs.Volume.Schedule

/-!
# What a pass depends on

A pass reads the slots that are in use and nothing else of a volume but its geometry.  Two trees
with the same inodes in use (`Tree.SameInUse`) may differ in the directory that paths start from,
in their marks, in the size of their tables, in the room that their buffers keep for more and in
the counts that are left in free slots, and still they have one plan (`Pass.plan_congr`).  The
plan fixes every sector that is written (`Volume.wrote_of_sync`), whatever the disk held before.

So a pass brings the same to every disk, and one that is made again, by the same volume or by
one that was loaded from the disk, changes nothing there (`Volume.sync_canonical`).
-/

namespace SectorFs

open Attempt

open Backed (disk)

/-! ### Slots -/

namespace Inode

/-! What a disk is told of an inode can be told from its payload. -/

theorem size_eq (i : Inode) : i.size = match i.content.payload with
    | .free => 0
    | .file bytes => bytes.length
    | .directory entries => entries.length := by
  unfold size
  cases i.content with
  | free => rfl
  | file bytes => exact Array.length_toList.symm
  | directory entries => exact Array.length_toList.symm

theorem payloadSize_eq (i : Inode) : i.payloadSize = match i.content.payload with
    | .free => 0
    | .file bytes => bytes.length
    | .directory entries => entries.length * entrySize := by
  unfold payloadSize
  cases i.content with
  | free => rfl
  | file bytes => exact Array.length_toList.symm
  | directory entries => exact congrArg (· * entrySize) Array.length_toList.symm

theorem payload_eq (i : Inode) : i.payload = match i.content.payload with
    | .free => .ok []
    | .file bytes => .ok bytes
    | .directory entries => return (← entries.mapM Entry.toSlot).flatten := by
  unfold payload
  cases i.content <;> rfl

theorem payload_of_isFree {i : Inode} (h : i.isFree = true) : i.content.payload = .free := by
  obtain ⟨links, content⟩ := i
  cases content with
  | free => rfl
  | file bytes => cases h
  | directory entries => cases h

/-- Two slots of the same content, and with the same links unless they are free. -/
structure Alike (i j : Inode) : Prop where
  payload_eq : i.content.payload = j.content.payload
  links_eq : i.isFree = false → i.links = j.links

namespace Alike

variable {i j : Inode}

theorem of_view (h : i.isFree = false ∨ j.isFree = false → i.view = j.view) : i.Alike j where
  payload_eq := by
    by_cases huse : i.isFree = false ∨ j.isFree = false
    · exact congrArg InodeView.payload (h huse)
    · simp only [not_or, Bool.not_eq_false] at huse
      rw [payload_of_isFree huse.1, payload_of_isFree huse.2]
  links_eq hi := congrArg InodeView.links (h (.inl hi))

theorem kind_eq (h : i.Alike j) : i.kind = j.kind := by
  rw [← kind_view, ← kind_view]
  exact congrArg Payload.kind h.payload_eq

theorem isFree_eq (h : i.Alike j) : i.isFree = j.isFree := by rw [isFree, isFree, h.kind_eq]

theorem size_eq (h : i.Alike j) : i.size = j.size := by
  rw [i.size_eq, j.size_eq, h.payload_eq]

theorem payloadSize_eq (h : i.Alike j) : i.payloadSize = j.payloadSize := by
  rw [i.payloadSize_eq, j.payloadSize_eq, h.payload_eq]

theorem bytes_eq (h : i.Alike j) : i.payload = j.payload := by
  rw [i.payload_eq, j.payload_eq, h.payload_eq]

end Alike

/-- Two tables that are alike slot by slot, and behind that hold nothing. -/
inductive AllAlike : List Inode → List Inode → Prop
  | cons {i j : Inode} {a b : List Inode} (h : i.Alike j) (hs : AllAlike a b) :
      AllAlike (i :: a) (j :: b)
  | free {a b : List Inode} (ha : ∀ i ∈ a, i.isFree = true) (hb : ∀ j ∈ b, j.isFree = true) :
      AllAlike a b

namespace AllAlike

variable {a b : List Inode}

theorem of_getElem? (h : ∀ k : Nat, (a[k]?.getD Inode.unused).Alike (b[k]?.getD Inode.unused)) :
    AllAlike a b := by
  have hfree : ∀ {k : Nat} {i : Inode} {l : List Inode}, l[k]? = some i →
      (l[k]?.getD Inode.unused).isFree = true → i.isFree = true := fun hi h => by
    rwa [hi] at h
  induction a generalizing b with
  | nil =>
    refine .free (fun _ hi => absurd hi List.not_mem_nil) fun j hj => ?_
    obtain ⟨k, hk⟩ := List.getElem?_of_mem hj
    exact hfree hk (h k).isFree_eq.symm
  | cons i a ih =>
    cases b with
    | nil =>
      refine .free (fun i hi => ?_) fun _ hj => absurd hj List.not_mem_nil
      obtain ⟨k, hk⟩ := List.getElem?_of_mem hi
      exact hfree hk (h k).isFree_eq
    | cons j b => exact .cons (h 0) (ih fun k => h (k + 1))

theorem take (h : AllAlike a b) (n : Nat) : AllAlike (a.take n) (b.take n) := by
  induction h generalizing n with
  | cons h _ ih =>
    cases n with
    | zero =>
      exact .free (fun _ hi => absurd hi List.not_mem_nil) fun _ hj =>
        absurd hj List.not_mem_nil
    | succ n => exact .cons h (ih n)
  | free ha hb =>
    exact .free (fun i hi => ha i (List.mem_of_mem_take hi)) fun j hj =>
      hb j (List.mem_of_mem_take hj)

end AllAlike

end Inode

/-! ### Parts of a plan -/

namespace Pass

open Inode (Alike AllAlike)

section

variable {i j : Inode} {a b : List Inode} {g : Geometry} {n : Nat}

theorem payloadBlocks_congr (h : i.Alike j) : payloadBlocks i = payloadBlocks j := by
  rw [payloadBlocks, payloadBlocks, h.payloadSize_eq]

theorem spaceOf_congr (h : i.Alike j) : spaceOf i = spaceOf j := by
  rw [spaceOf, spaceOf, payloadBlocks_congr h]

theorem payloadWrites_congr (h : i.Alike j) : payloadWrites g n i = payloadWrites g n j := by
  rw [payloadWrites, payloadWrites, h.bytes_eq, payloadBlocks_congr h]

/-- The record of a slot does not tell how many links are left in a free one. -/
theorem recordOf_congr (h : i.Alike j) :
    recordOf (i, placementAt n i) = recordOf (j, placementAt n j) := by
  have hplace : placementAt n i = placementAt n j := by
    rw [placementAt, placementAt, payloadBlocks_congr h]
  unfold recordOf
  simp only [← h.isFree_eq, ← hplace]
  split
  · rfl
  · rename_i huse
    rw [Record.describe, Record.describe, h.kind_eq, h.size_eq, h.links_eq (by simpa using huse)]

theorem placedEnd_of_isFree (h : ∀ i ∈ a, i.isFree = true) : placedEnd n a = n := by
  induction a generalizing n with
  | nil => rfl
  | cons i a ih =>
    rw [placedEnd, spaceOf_of_isFree (h i List.mem_cons_self),
      ih fun j hj => h j (List.mem_cons_of_mem i hj), Nat.add_zero]

theorem placedEnd_congr (h : AllAlike a b) : placedEnd n a = placedEnd n b := by
  induction h generalizing n with
  | cons h _ ih => rw [placedEnd, placedEnd, spaceOf_congr h, ih]
  | free ha hb => rw [placedEnd_of_isFree ha, placedEnd_of_isFree hb]

theorem payloadsFrom_congr (h : AllAlike a b) : payloadsFrom g n a = payloadsFrom g n b := by
  induction h generalizing n with
  | cons h _ ih =>
    rw [payloadsFrom, payloadsFrom, spaceOf_congr h, ih, payloadWrites_congr h, h.isFree_eq,
      h.payloadSize_eq]
  | free ha hb => rw [payloadsFrom_of_isFree ha, payloadsFrom_of_isFree hb]

theorem padTo_records_of_isFree (h : ∀ i ∈ a, i.isFree = true) (m : Nat) :
    padTo Record.free m ((placedFrom n a).map recordOf) = padTo Record.free m [] := by
  have hall : ∀ r ∈ (placedFrom n a).map recordOf, r = .free := by
    intro r hr
    obtain ⟨slot, hs, rfl⟩ := List.mem_map.mp hr
    have hmem : slot.1 ∈ (placedFrom n a).map Prod.fst := List.mem_map_of_mem hs
    rw [map_fst_placedFrom] at hmem
    exact if_pos (h _ hmem)
  rw [List.eq_replicate_of_mem hall]
  exact Record.padTo_append_replicate Record.free m _ []

/-- Free records behind the others make up for a shorter table. -/
theorem padTo_records_congr (h : AllAlike a b) (m : Nat) :
    padTo .free m ((placedFrom n a).map recordOf)
      = padTo .free m ((placedFrom n b).map recordOf) := by
  induction h generalizing n m with
  | cons h _ ih =>
    cases m with
    | zero => rfl
    | succ m =>
      rw [placedFrom, placedFrom, List.map_cons, List.map_cons, padTo, padTo, recordOf_congr h,
        spaceOf_congr h, ih]
  | free ha hb => rw [padTo_records_of_isFree ha, padTo_records_of_isFree hb]

end

end Pass

/-! ### Trees -/

namespace Tree

open Inode (AllAlike)

/-- Two trees have the same inodes in use: each with its kind, its links and what it owns. -/
def SameInUse (t u : Tree) : Prop :=
  ∀ id, (t.view id).kind ≠ .free ∨ (u.view id).kind ≠ .free → t.view id = u.view id

theorem sameInUse_iff {t u : Tree} : t.SameInUse u
    ↔ ∀ k < max t.slots.size u.slots.size, (t.view (.ofIndex k)).kind ≠ .free
      ∨ (u.view (.ofIndex k)).kind ≠ .free → t.view (.ofIndex k) = u.view (.ofIndex k) := by
  refine ⟨fun h k _ => h _, fun h id huse => ?_⟩
  have hlt : id.index < max t.slots.size u.slots.size := by
    rcases huse with ht | hu
    · exact Nat.lt_of_lt_of_le (index_lt_of_kind ht) (Nat.le_max_left ..)
    · exact Nat.lt_of_lt_of_le (index_lt_of_kind hu) (Nat.le_max_right ..)
  have := h id.index hlt
  rw [id.ofIndex_index] at this
  exact this huse

instance (t u : Tree) : Decidable (t.SameInUse u) := decidable_of_iff' _ sameInUse_iff

theorem SameInUse.symm {t u : Tree} (h : t.SameInUse u) : u.SameInUse t :=
  fun id huse => (h id huse.symm).symm

theorem settle_of_clean {t : Tree} (h : t.dirty = false) : t.settle = t := by
  obtain ⟨slots, cwd, dirty, hsize, hmax⟩ := t
  obtain rfl : dirty = false := h
  rfl

theorem sameInUse_settle (t : Tree) : t.SameInUse t.settle := fun _ _ => rfl

theorem Restores.sameInUse {t u : Tree} (h : u.Restores t) : t.SameInUse u := by
  intro id huse
  rw [h.view_eq, persisted] at huse ⊢
  split at huse
  · rename_i hfree
    exact absurd huse (by simp [hfree])
  · rename_i hused
    exact (if_neg hused).symm

theorem view_eq_getD (t : Tree) (id : InodeId) :
    t.view id = (t.slots.getD id.index .unused).view := by
  rw [view, slot?, Array.getD_eq_getD_getElem?]
  cases t.slots[id.index]? <;> rfl

theorem lastUsedBelow_cases (slots : Array Inode) (n : Nat) :
    lastUsedBelow slots n = 0
      ∨ (slots.getD (lastUsedBelow slots n) .unused).isFree = false := by
  induction n with
  | zero => exact .inl rfl
  | succ n ih =>
    rw [lastUsedBelow]
    split
    · exact ih
    · rename_i huse
      exact .inr (Bool.eq_false_iff.mpr huse)

namespace SameInUse

variable {t u : Tree}

theorem alike (h : t.SameInUse u) (k : Nat) :
    (t.slots.getD k .unused).Alike (u.slots.getD k .unused) := by
  by_cases hk : k ≤ maxSlots
  · refine .of_view fun huse => ?_
    rw [Inode.isFree_eq_false_iff, Inode.isFree_eq_false_iff] at huse
    have hview := h (.ofIndex k)
    rw [view_eq_getD, view_eq_getD, InodeId.index_ofIndex hk] at hview
    exact hview huse
  · -- neither table goes that far
    have ht := t.size_le_max
    have hu := u.size_le_max
    rw [Array.getD_eq_getD_getElem?, Array.getD_eq_getD_getElem?,
      Array.getElem?_eq_none (by omega), Array.getElem?_eq_none (by omega)]
    exact ⟨rfl, fun _ => rfl⟩

theorem allAlike (h : t.SameInUse u) : AllAlike t.slots.toList u.slots.toList :=
  .of_getElem? fun k => by
    have := h.alike k
    rwa [Array.getD_eq_getD_getElem?, Array.getD_eq_getD_getElem?, ← Array.getElem?_toList,
      ← Array.getElem?_toList] at this

theorem lastUsed_le (h : t.SameInUse u) : t.lastUsed ≤ u.lastUsed := by
  rcases lastUsedBelow_cases t.slots t.slots.size with hzero | huse
  · rw [lastUsed, hzero]
    exact Nat.zero_le _
  · rw [(h.alike _).isFree_eq] at huse
    refine le_lastUsedBelow (Nat.lt_of_not_le fun hle => ?_) huse
    rw [Array.getD_eq_getD_getElem?,
      Array.getElem?_eq_none (show _ ≤ lastUsedBelow _ _ from hle)] at huse
    cases huse

theorem chunkCount_eq (h : t.SameInUse u) : Pass.chunkCount t = Pass.chunkCount u := by
  rw [Pass.chunkCount, Pass.chunkCount, Nat.le_antisymm h.lastUsed_le h.symm.lastUsed_le]

end SameInUse

end Tree

/-! ### Plans -/

namespace Pass

variable {g : Geometry} {total : UInt32} {t u : Tree}

theorem slotsOf_alike (h : t.SameInUse u) : Inode.AllAlike (slotsOf t) (slotsOf u) := by
  rw [slotsOf, slotsOf, h.chunkCount_eq]
  exact h.allAlike.take _

theorem payloadStart_congr (h : t.SameInUse u) : payloadStart t = payloadStart u := by
  rw [payloadStart, payloadStart, h.chunkCount_eq]

theorem blocksUsed_congr (h : t.SameInUse u) : blocksUsed t = blocksUsed u := by
  rw [blocksUsed, blocksUsed, payloadStart_congr h, placedEnd_congr (slotsOf_alike h)]

theorem mapOf_congr (h : t.SameInUse u) : mapOf g t = mapOf g u := by
  rw [mapOf, mapOf, blocksUsed_congr h]

theorem superblockOf_congr (h : t.SameInUse u) : superblockOf g t = superblockOf g u := by
  rw [superblockOf, superblockOf, h.chunkCount_eq]

theorem chunksOf_congr (h : t.SameInUse u) : chunksOf t = chunksOf u := by
  rw [chunksOf, chunksOf, ← Record.toChunks_padTo, placedOf,
    padTo_records_congr (slotsOf_alike h), Record.toChunks_padTo, payloadStart_congr h,
    h.chunkCount_eq, placedOf]

/-- What is written, and in which order, is told by the inodes in use. -/
theorem schedule_congr (h : t.SameInUse u) : schedule g t = schedule g u := by
  have hmap : inodeMapOf t = inodeMapOf u := by rw [inodeMapOf, inodeMapOf, h.chunkCount_eq]
  rw [schedule, schedule, payloadStart_congr h, payloadsFrom_congr h.allAlike, chunksOf_congr h,
    hmap, h.chunkCount_eq, mapOf_congr h, superblockOf_congr h]

theorem eq_of_plan (hg : g.Fits total) {m : PoolMap g} {p : Pass} (h : plan g m t = .ok p) :
    p = ⟨mapOf g t, superblockOf g t, schedule g t⟩ := by
  obtain ⟨mapSectors, hp⟩ := plan_ok hg h
  rw [← hp.map_eq, ← hp.superblock_eq, ← hp.steps_eq_schedule]

/-- Trees with the same inodes in use have one plan, or the same reason for none, whatever the
block map was before. -/
theorem plan_congr (hg : g.Fits total) (h : t.SameInUse u) (m n : PoolMap g) :
    plan g m t = plan g n u := by
  have hneed : spaceNeeded t = spaceNeeded u := by
    rw [← blocksUsed_eq, ← blocksUsed_eq, blocksUsed_congr h]
  rcases plan_cases m t with ⟨hroom, p, hp⟩ | ⟨hfull, hp⟩
  · rcases plan_cases n u with ⟨-, q, hq⟩ | ⟨hfull, -⟩
    · rw [hp, hq, eq_of_plan hg hp, eq_of_plan hg hq, mapOf_congr h, superblockOf_congr h,
        schedule_congr h]
    · omega
  · rcases plan_cases n u with ⟨hroom, -⟩ | ⟨-, hq⟩
    · omega
    · rw [hp, hq]

end Pass

/-! ### Volumes -/

namespace Volume

section

variable {D : Type} [SectorDevice D] [Backed D] {v w : Volume} {g : Geometry} {t u : Tree}
  {d e : D}

/-- A pass over a volume asks a device for the steps and for nothing else, and leaves what they
write and no other change. -/
structure Wrote (steps : List Step) (v w : Volume) (d e : D) : Prop where
  asked : v.sync (Recorder.new d) = .ok w ⟨e, Step.taken steps⟩
  held : ∀ {lba sectors}, .write lba sectors ∈ steps → (disk e).Holds lba.toNat sectors
  kept : ∀ i, (∀ s ∈ steps, ¬s.Touches i) → (disk e).sector? i = (disk d).sector? i

/-- One more pass over a volume succeeds, gives the volume back and changes no sector. -/
def Stands (w : Volume) (e : D) : Prop :=
  ∃ k, w.sync e = .ok w k ∧ (disk k).sectors = (disk e).sectors

theorem wrote_of_sync (hg : v.geometry.Fits (SectorDevice.totalSectors d))
    (h : v.sync d = .ok w e) :
    w.geometry = v.geometry ∧ w.map = Pass.mapOf v.geometry v.tree
      ∧ w.superblock = Pass.superblockOf v.geometry v.tree ∧ w.tree = v.tree.settle
      ∧ Wrote (Pass.schedule v.geometry v.tree) v w d e := by
  obtain ⟨p, hplan, hrun, rfl⟩ := commit_ok h
  obtain ⟨mapSectors, hp⟩ := Pass.plan_ok hg hplan
  obtain ⟨hfit, he⟩ := Step.run_steps_ok hrun
  rw [← hp.steps_eq_schedule]
  refine ⟨rfl, hp.map_eq, hp.superblock_eq, rfl, ?_, fun hs => ?_, fun i hi => ?_⟩
  · rw [sync, commit_of_plan hplan, bind_apply, Pass.run, Step.run_new_of_ok hrun]
    rfl
  · rw [he]
    exact Step.holds_applyAll (hp.disjoint_steps hg) hs (hfit _ hs)
  · rw [he]
    exact Step.sector?_applyAll_of_not_touches hi _

/-- A disk that a tree was brought to takes any tree with the same inodes in use, and stays as
it is. -/
theorem commit_again {k : PoolMap g} (hg : g.Fits (SectorDevice.totalSectors d))
    (h : commit g k t d = .ok w e) (hu : t.SameInUse u) (l : PoolMap w.geometry) {c : D}
    (hc : InOrder c) (hcopy : disk c = disk e) :
    ∃ c', commit w.geometry l u c = .ok { w with tree := u.settle } c'
      ∧ (disk c').sectors = (disk e).sectors := by
  obtain ⟨p, hplan, hrun, rfl⟩ := commit_ok h
  obtain ⟨mapSectors, hp⟩ := Pass.plan_ok hg hplan
  obtain ⟨hfit, he⟩ := Step.run_steps_ok hrun
  have hagain : ∀ s ∈ p.steps, s.Fits (disk c).totalSectors := fun s hs => by
    rw [hcopy, he, Step.totalSectors_applyAll]
    exact hfit s hs
  obtain ⟨c', hc'⟩ := Step.run_steps_isOk hc hagain
  refine ⟨c', ?_, ?_⟩
  · rw [commit_of_plan ((Pass.plan_congr hg hu k l).symm.trans hplan)]
    exact bind_eq_ok_iff.mpr ⟨(), c', hc', rfl⟩
  · rw [(Step.run_steps_ok hc').2, hcopy, he]
    exact Step.sectors_applyAll_again (hp.disjoint_steps hg) hfit

end

/-- A pass that succeeds leaves nothing to do for the next one, be it over the same volume or
over the one that is loaded from the disk, which has the same inodes in use.  Its steps are told
by the geometry and the inodes in use: a pass over any other volume with these, on any device,
asks for the same writes, and with them leaves the same sectors. -/
theorem sync_canonical {D : Type} [SectorDevice D] [Backed D] {v w : Volume} {d e : D}
    (hg : v.geometry.Fits (SectorDevice.totalSectors d)) (h : v.sync d = .ok w e) :
    (InOrder d → w.Stands e
        ∧ ((v.tree.view .root).kind = .directory → ∃ x c, load e = .ok x c ∧ disk c = disk e
          ∧ x.geometry = w.geometry ∧ x.map = w.map ∧ x.superblock = w.superblock
          ∧ v.tree.SameInUse x.tree ∧ x.Stands c))
      ∧ ∃ steps, Wrote steps v w d e
        ∧ ∀ {C : Type} [SectorDevice C] [Backed C] {v' w' : Volume} {d' e' : C},
          v'.geometry.Fits (SectorDevice.totalSectors d') → v'.geometry = v.geometry →
            v.tree.SameInUse v'.tree → v'.sync d' = .ok w' e' →
              Wrote steps v' w' d' e' ∧ w'.map = w.map ∧ w'.superblock = w.superblock := by
  obtain ⟨-, hmap, hsuper, htree, hwrote⟩ := wrote_of_sync hg h
  refine ⟨fun hd => ?_, _, hwrote, ?_⟩
  · have he : InOrder e := hd.of_asked ((asks_commit _ _).of_ok h)
    refine ⟨?_, fun hroot => ?_⟩
    · have hsame : v.tree.SameInUse w.tree := htree ▸ v.tree.sameInUse_settle
      have hclean : w.tree.dirty = false := by rw [htree]; rfl
      obtain ⟨k, hk, hsectors⟩ := commit_again hg h hsame w.poolMap he rfl
      rw [Tree.settle_of_clean hclean] at hk
      exact ⟨k, hk, hsectors⟩
    · obtain ⟨-, u, hload, hr⟩ := load_of_commit hg hroot h
      obtain ⟨c, hc⟩ := mirrors_load.ok_of_inOrder he hload
      have hasked := mirrors_load.asks.of_ok hc
      obtain ⟨k, hk, hsectors⟩ := commit_again hg h hr.sameInUse w.poolMap (he.of_asked hasked)
        hasked.disk_eq
      rw [Tree.settle_of_clean hr.dirty_eq] at hk
      refine ⟨_, c, hc, hasked.disk_eq, rfl, rfl, rfl, hr.sameInUse, k, hk, ?_⟩
      rw [hsectors, hasked.disk_eq]
  · intro C _ _ v' w' d' e' hfits hgeometry hsame hsync
    obtain ⟨-, hmap', hsuper', -, hwrote'⟩ := wrote_of_sync hfits hsync
    rw [hgeometry, ← Pass.schedule_congr hsame] at hwrote'
    refine ⟨hwrote', ?_, ?_⟩
    · rw [hmap', hmap, hgeometry, Pass.mapOf_congr hsame]
    · rw [hsuper', hsuper, hgeometry, Pass.superblockOf_congr hsame]

/-- The new file in another volume: a larger table, a file that was written and cut, a directory
that came and went, and the whole pool marked. -/
def usedFile : Volume where
  geometry := ⟨6, 1, 2⟩
  map := (BlockMap.empty 6).markRun 0 6
  superblock := .ofGeometry ⟨6, 1, 2⟩ 5 1
  tree := Tree.run [.create "/a", .mkdir "/b", .writePath "/a" 0 #[1, 2, 3], .truncate ⟨1⟩ 0,
    .remove "/b", .reserveSlots 100] .empty
  map_blocks := BlockMap.blocks_markRun ..

/-- Both are brought to disk with the same writes, to an empty disk and to one that is full of
something else. -/
theorem sync_canonical_file :
    ∃ (w y : Volume) (e b : MemoryDisk) (steps : List Step),
      newFile.sync (MemoryDisk.blank 8) = .ok w e ∧ w.Stands e
        ∧ (∃ x c, load e = .ok x c ∧ x.map = w.map ∧ newFile.tree.SameInUse x.tree ∧ x.Stands c)
        ∧ usedFile.sync (⟨Array.replicate 9 (.ofBytes [255]), 3⟩ : MemoryDisk) = .ok y b
        ∧ usedFile.tree ≠ newFile.tree ∧ y.map = w.map
        ∧ Wrote steps newFile w (MemoryDisk.blank 8) e
        ∧ Wrote steps usedFile y ⟨Array.replicate 9 (.ofBytes [255]), 3⟩ b := by
  have hnew : newFile.sync.succeeds (MemoryDisk.blank 8) (fun _ _ => true) = true := by
    decide +kernel
  have hused : usedFile.sync.succeeds (⟨Array.replicate 9 (.ofBytes [255]), 3⟩ : MemoryDisk)
      (fun _ _ => true) = true := by
    decide +kernel
  obtain ⟨w, e, hw, -⟩ := succeeds_iff.mp hnew
  obtain ⟨y, b, hy, -⟩ := succeeds_iff.mp hused
  obtain ⟨hagain, steps, hwrote, hother⟩ := sync_canonical
    (show newFile.geometry.Fits (MemoryDisk.blank 8).totalSectors by decide) hw
  obtain ⟨hstands, hload⟩ := hagain (MemoryDisk.inOrder _)
  obtain ⟨x, c, hx, -, -, hmap, -, hxsame, hxstands⟩ := hload (by decide +kernel)
  obtain ⟨hwrote', hmap', -⟩ := hother
    (show usedFile.geometry.Fits (SectorDevice.totalSectors
      (⟨Array.replicate 9 (.ofBytes [255]), 3⟩ : MemoryDisk)) by decide) rfl
    (by decide +kernel) hy
  exact ⟨w, y, e, b, steps, hw, hstands, ⟨x, c, hx, hmap, hxsame, hxstands⟩, hy,
    by decide +kernel, hmap', hwrote, hwrote'⟩

end Volume

end SectorFs

import SectorFs.Proofs.Volume.Failing
import SectorFs.Volume.Session

/-!
# Space

A tree takes a chunk for every eight slots up to the last one in use, a block of the inode
map for every 127 chunks, and for every inode in use the blocks of its payload, and one
more if there are more than twelve (`Pass.spaceNeeded`).  A pass clears the block map and
fills it from the front, so it can be planned just when the pool has that many blocks
(`Pass.plan_cases`).

Every name that a call gives has a place on a disk (`Tree.Sound.payload_isOk`), and a device
in order takes every step of a plan (`Step.run_steps_isOk`).  So room is all that a tree made
by calls needs (`Session.sync_of_calls`).
-/

namespace SectorFs

open Attempt

/-! ### Names -/

namespace Entry

theorem writable_of_validateName {e : Entry} (h : validateName e.name = .ok ()) : e.Writable := by
  unfold validateName at h
  split at h
  · cases h
  · rename_i hname
    simp only [not_or] at hname
    obtain ⟨hne, -, -, -, hzero⟩ := hname
    split at h
    · cases h
    · rename_i hlong
      refine ⟨fun hnil => hne ?_, fun hz => ?_, ?_⟩
      · have hsize : e.name.utf8ByteSize = 0 := by
          rw [← e.length_nameBytes, hnil]
          rfl
        exact String.utf8ByteSize_eq_zero_iff.mp hsize
      · rw [e.nameBytes_eq] at hz
        obtain ⟨c, hc, hzc⟩ := List.mem_flatMap.mp hz
        exact zero_notMem_utf8EncodeChar (fun h0 => hzero (h0 ▸ hc)) hzc
      · rw [e.length_nameBytes]
        exact Nat.lt_succ_of_le (Nat.le_of_not_lt hlong)

theorem writable_of_dots {e : Entry} (h : e.name = "." ∨ e.name = "..") : e.Writable := by
  obtain ⟨name, id⟩ := e
  rcases h with h | h
  · obtain rfl : name = "." := h
    have hb : (⟨".", id⟩ : Entry).nameBytes = [46] := rfl
    rw [Writable, hb]
    decide
  · obtain rfl : name = ".." := h
    have hb : (⟨"..", id⟩ : Entry).nameBytes = [46, 46] := rfl
    rw [Writable, hb]
    decide

end Entry

/-- Nothing in a sound tree keeps it from a disk. -/
theorem Tree.Sound.payload_isOk {t : Tree} (h : t.Sound) {i : Inode} (hi : i ∈ t.slots.toList) :
    ∃ bytes, i.payload = .ok bytes := by
  refine Inode.payload_isOk_iff.mpr fun entries hc e he => ?_
  obtain ⟨k, hk, hik⟩ := List.getElem_of_mem hi
  rw [Array.length_toList] at hk
  have hindex : (InodeId.ofIndex k).index = k :=
    InodeId.index_ofIndex (Nat.le_trans hk.le t.size_le_max)
  have hslot : t.slot? (.ofIndex k) = some i := by
    rw [Tree.slot?, hindex, Array.getElem?_eq_getElem hk, ← hik, Array.getElem_toList]
  have hview : t.view (.ofIndex k) = ⟨i.links, .directory entries.items.toList⟩ := by
    rw [Tree.view_of_slot hslot, Inode.view, hc]
    rfl
  have he' : e ∈ (t.view (.ofIndex k)).entries := by
    rw [hview]
    exact he
  obtain ⟨parent, below, hl⟩ := h.lists (InodeView.kind_of_mem_entries he')
  rw [hl.entries_eq] at he'
  rcases List.mem_cons.mp he' with rfl | he'
  · exact Entry.writable_of_dots (.inl rfl)
  · rcases List.mem_cons.mp he' with rfl | he'
    · exact Entry.writable_of_dots (.inr rfl)
    · exact Entry.writable_of_validateName (hl.names_valid e he')

/-! ### Plans -/

theorem BlockMap.FirstUsed.allocate_cases {m : BlockMap} {n count : Nat} (h : m.FirstUsed n)
    (hpos : 0 < count) :
    (n + count ≤ m.blocks ∧ ∃ m', m.allocate count = .ok (n, m'))
      ∨ m.blocks < n + count ∧ m.allocate count = .error .outOfDiskSpace := by
  rcases Nat.lt_or_ge m.blocks (n + count) with hfull | hroom
  · exact .inr ⟨hfull, allocate_of_no_room h hfull⟩
  · exact .inl ⟨hroom, _, allocate_of_room h hpos hroom⟩

namespace Pass

/-- Number of blocks that the image of a tree takes: the chunks, the inode map that lists
them, and the payloads of the inodes in use. -/
def spaceNeeded (t : Tree) : Nat :=
  chunkCount t + partsOf (chunkCount t) chunksPerMapBlock
    + ((t.slots.toList.filter fun i => !i.isFree).map spaceOf).sum

theorem placedEnd_eq (n : Nat) (slots : List Inode) :
    placedEnd n slots = n + (slots.map spaceOf).sum := by
  induction slots generalizing n with
  | nil => rfl
  | cons i slots ih => rw [placedEnd, ih, List.map_cons, List.sum_cons, Nat.add_assoc]

theorem sum_spaceOf_filter (slots : List Inode) :
    ((slots.filter fun i => !i.isFree).map spaceOf).sum = (slots.map spaceOf).sum := by
  induction slots with
  | nil => rfl
  | cons i slots ih =>
    cases hi : i.isFree with
    | true =>
      rw [List.filter_cons_of_neg (by rw [hi]; decide), ih, List.map_cons, List.sum_cons,
        spaceOf_of_isFree hi, Nat.zero_add]
    | false =>
      rw [List.filter_cons_of_pos (by rw [hi]; rfl), List.map_cons, List.sum_cons, ih,
        List.map_cons, List.sum_cons]

/-- Behind the slots of the chunks there are free ones only. -/
theorem isFree_of_mem_drop {t : Tree} {i : Inode}
    (h : i ∈ t.slots.toList.drop (chunkCount t * recordsPerChunk)) : i.isFree = true := by
  obtain ⟨k, hk, hi⟩ := List.getElem_of_mem h
  rw [List.length_drop, Array.length_toList] at hk
  rw [List.getElem_drop, Array.getElem_toList] at hi
  by_contra huse
  have hget : (t.slots.getD (chunkCount t * recordsPerChunk + k) .unused).isFree = false := by
    rw [Array.getD_eq_getD_getElem?, Array.getElem?_eq_getElem (by omega), hi, Option.getD_some]
    exact Bool.eq_false_iff.mpr huse
  have hle : chunkCount t * recordsPerChunk + k ≤ t.lastUsed :=
    Tree.le_lastUsedBelow (by omega) hget
  have := le_mul_partsOf (t.lastUsed + 1) (show 0 < recordsPerChunk by decide)
  rw [Nat.mul_comm, show partsOf (t.lastUsed + 1) recordsPerChunk = chunkCount t from rfl] at this
  omega

/-- The blocks of a tree are those that it needs. -/
theorem blocksUsed_eq (t : Tree) : blocksUsed t = spaceNeeded t := by
  have hrest : ((t.slots.toList.drop (chunkCount t * recordsPerChunk)).map spaceOf).sum = 0 := by
    refine List.sum_eq_zero fun n hn => ?_
    obtain ⟨i, hi, rfl⟩ := List.mem_map.mp hn
    exact spaceOf_of_isFree (isFree_of_mem_drop hi)
  have hall : (t.slots.toList.map spaceOf).sum = ((slotsOf t).map spaceOf).sum := by
    conv_lhs => rw [← List.take_append_drop (chunkCount t * recordsPerChunk) t.slots.toList]
    rw [List.map_append, List.sum_append, hrest, Nat.add_zero]
    rfl
  rw [blocksUsed, placedEnd_eq, spaceNeeded, sum_spaceOf_filter, hall]
  rfl

theorem payloadBlocks_le (i : Inode) : payloadBlocks i ≤ maxPayloadBlocks := by
  have h : i.payloadSize ≤ 140 * 512 := i.payloadSize_le
  have h1 : payloadBlocks i = (i.payloadSize + 511) / 512 := rfl
  have h2 : maxPayloadBlocks = 140 := rfl
  omega

/-- An inode gets its run just when there is room for it. -/
theorem place_cases {m : BlockMap} {n : Nat} (h : m.FirstUsed n) (i : Inode) :
    (n + spaceOf i ≤ m.blocks ∧ ∃ r, place m i = .ok r)
      ∨ m.blocks < n + spaceOf i ∧ place m i = .error .outOfDiskSpace := by
  have hle : ¬maxPayloadBlocks < partsOf i.payloadSize sectorSize :=
    Nat.not_lt.mpr (payloadBlocks_le i)
  by_cases hz : partsOf i.payloadSize sectorSize = 0
  · have hs : spaceOf i = 0 := by
      rw [spaceOf, payloadBlocks, hz]
      rfl
    have hplace : place m i = .ok (⟨[], none⟩, m) := by
      simp only [place, if_neg hle, if_pos hz]
    exact .inl ⟨by rw [hs]; exact h.le_blocks, _, hplace⟩
  · have hpos : 0 < spaceOf i := by
      have : payloadBlocks i ≠ 0 := hz
      rw [spaceOf]
      split <;> omega
    have hrun : (if directBlocks < partsOf i.payloadSize sectorSize
        then partsOf i.payloadSize sectorSize + 1 else partsOf i.payloadSize sectorSize)
        = spaceOf i := rfl
    rcases h.allocate_cases hpos with ⟨hroom, m', ha⟩ | ⟨hfull, ha⟩
    · exact .inl ⟨hroom, _, by simp only [place, if_neg hle, if_neg hz, hrun, ha]; rfl⟩
    · exact .inr ⟨hfull, by simp only [place, if_neg hle, if_neg hz, hrun, ha]; rfl⟩

theorem placeAll_cases {m : BlockMap} {n : Nat} (h : m.FirstUsed n) (slots : List Inode) :
    (placedEnd n slots ≤ m.blocks ∧ ∃ r, placeAll m slots = .ok r)
      ∨ m.blocks < placedEnd n slots ∧ placeAll m slots = .error .outOfDiskSpace := by
  induction slots generalizing m n with
  | nil => exact .inl ⟨h.le_blocks, _, rfl⟩
  | cons i slots ih =>
    have hle := le_placedEnd (n + spaceOf i) slots
    rw [placedEnd]
    rcases place_cases h i with ⟨-, ⟨p, k⟩, hp⟩ | ⟨hfull, hp⟩
    · obtain ⟨-, hk, hblocks⟩ := place_firstUsed h hp
      have hrest : placeAll m (i :: slots)
          = (placeAll k slots >>= fun r => pure ((i, p) :: r.1, r.2)) := by
        rw [placeAll, hp]
        rfl
      rw [hrest, ← hblocks]
      rcases ih hk with ⟨hroom, r, hr⟩ | ⟨hfull, hr⟩
      · exact .inl ⟨hroom, _, by rw [hr]; rfl⟩
      · exact .inr ⟨hfull, by rw [hr]; rfl⟩
    · exact .inr ⟨Nat.lt_of_lt_of_le hfull hle, by rw [placeAll, hp]; rfl⟩

/-- Room is all that a plan needs. -/
theorem plan_cases {g : Geometry} (m : PoolMap g) (t : Tree) :
    (spaceNeeded t ≤ g.blockCount.toNat ∧ ∃ p, plan g m t = .ok p)
      ∨ g.blockCount.toNat < spaceNeeded t ∧ plan g m t = .error .outOfDiskSpace := by
  have hstart := payloadStart_le t
  have hsum : payloadStart t = chunkCount t + partsOf (chunkCount t) chunksPerMapBlock := rfl
  have hpos := chunkCount_pos t
  have hparts : 0 < partsOf (chunkCount t) chunksPerMapBlock := by
    show 0 < (chunkCount t + 126) / 127
    omega
  have hused : blocksUsed t = placedEnd (payloadStart t) (slotsOf t) := rfl
  rw [← blocksUsed_eq]
  rcases (BlockMap.firstUsed_empty g.blockCount.toNat).allocate_cases hpos with
    ⟨-, m₁, h₁⟩ | ⟨hfull, h₁⟩
  · obtain ⟨-, hf₁, hb₁, -⟩ := BlockMap.allocate_firstUsed (BlockMap.firstUsed_empty _) h₁
    have hb₁ : m₁.blocks = g.blockCount.toNat := hb₁
    rw [Nat.zero_add] at hf₁
    rcases hf₁.allocate_cases hparts with ⟨-, m₂, h₂⟩ | ⟨hfull, h₂⟩
    · obtain ⟨-, hf₂, hb₂, -⟩ := BlockMap.allocate_firstUsed hf₁ h₂
      rw [← hsum] at hf₂
      rcases placeAll_cases hf₂ (slotsOf t) with ⟨hroom, r, h₃⟩ | ⟨hfull, h₃⟩
      · refine .inl ⟨by omega, ?_⟩
        cases hp : plan g m t with
        | ok p => exact ⟨p, rfl⟩
        | error f =>
          rw [slotsOf] at h₃
          simp only [plan, m.clear_eq, h₁, h₂, h₃, bind, Except.bind] at hp
          cases hp
      · refine .inr ⟨by omega, ?_⟩
        rw [slotsOf] at h₃
        simp only [plan, m.clear_eq, h₁, h₂, h₃, bind, Except.bind]
    · refine .inr ⟨by omega, ?_⟩
      simp only [plan, m.clear_eq, h₁, h₂, bind, Except.bind]
  · have hfull : g.blockCount.toNat < 0 + chunkCount t := hfull
    refine .inr ⟨by omega, ?_⟩
    rw [plan, m.clear_eq, h₁]
    rfl

end Pass

/-! ### Steps on a device in order -/

namespace Step

section

variable {D : Type} [SectorDevice D]

theorem asks_run (s : Step) : (s.run : Attempt D Unit).Asks fun _ => True := by
  cases s with
  | write lba sectors => exact asks_writeSectors lba sectors
  | flush => exact asks_flush
  | stop f => exact .throw f

variable [Backed D]

open Backed (disk)

theorem run_isOk {s : Step} {d : D} (hd : InOrder d) (h : s.Fits (disk d).totalSectors) :
    ∃ e, s.run d = .ok () e := by
  cases s with
  | write lba sectors => exact hd.grants.granted (.write lba sectors) ⟨_, run_write h⟩
  | flush => exact hd.grants.granted .flush ⟨_, rfl⟩
  | stop f => exact h.elim

theorem run_steps_isOk {steps : List Step} {d : D} (hd : InOrder d)
    (h : ∀ s ∈ steps, s.Fits (disk d).totalSectors) : ∃ e, steps.forM run d = .ok () e := by
  induction steps generalizing d with
  | nil => exact ⟨d, rfl⟩
  | cons s steps ih =>
    obtain ⟨m, hm⟩ := run_isOk hd (h s List.mem_cons_self)
    obtain ⟨e, he⟩ := ih (hd.of_asked ((asks_run s).of_ok hm)) fun r hr => by
      rw [(run_ok hm).2, totalSectors_apply]
      exact h r (List.mem_cons_of_mem _ hr)
    exact ⟨e, forM_cons_ok.mpr ⟨m, hm, he⟩⟩

end

end Step

/-- Every step of a plan fits, if every payload has a place on a disk. -/
theorem Pass.Planned.fits_steps {g : Geometry} {t : Tree} {p : Pass} {mapSectors : List Sector}
    {total : UInt32} (hg : g.Fits total) (hp : Planned g t p mapSectors)
    (hpay : ∀ i ∈ slotsOf t, ∃ bytes, i.payload = .ok bytes) : ∀ s ∈ p.steps, s.Fits total := by
  have hend := hp.end_le
  have hstart := payloadStart_le t
  have htotal := hg.2.2.2
  intro s hs
  rw [hp.steps_eq] at hs
  rcases List.mem_append.mp hs with hs | hs
  · exact (writes_placedFrom hg hend hpay s hs).2
  · have hwithin := hp.within_closing hg s hs
    by_cases hw : s.IsWrite
    · exact hwithin.fits hw (by omega)
    · simp only [closingSteps, List.mem_cons, List.not_mem_nil, or_false] at hs
      rcases hs with rfl | rfl | rfl | rfl | rfl
      · exact absurd trivial hw
      · exact absurd trivial hw
      · exact absurd trivial hw
      · exact absurd trivial hw
      · trivial

namespace Volume

variable {D : Type} [SectorDevice D] [Backed D] {g : Geometry} {t : Tree} {d : D}

/-- A tree that has a place on a disk is brought to a device in order just when there is
room for it. -/
theorem commit_cases {k : PoolMap g} (hg : g.Fits (SectorDevice.totalSectors d)) (hd : InOrder d)
    (hpay : ∀ i ∈ Pass.slotsOf t, ∃ bytes, i.payload = .ok bytes) :
    (Pass.spaceNeeded t ≤ g.blockCount.toNat ∧ ∃ w e, commit g k t d = .ok w e)
      ∨ g.blockCount.toNat < Pass.spaceNeeded t ∧ commit g k t d = .error .outOfDiskSpace d := by
  rcases Pass.plan_cases k t with ⟨hroom, p, hplan⟩ | ⟨hfull, hplan⟩
  · rw [Backed.totalSectors_eq] at hg
    obtain ⟨mapSectors, hp⟩ := Pass.plan_ok hg hplan
    obtain ⟨e, he⟩ := Step.run_steps_isOk hd (hp.fits_steps hg hpay)
    exact .inl ⟨hroom, _, e, (congrFun (commit_of_plan hplan) d).trans
      (bind_eq_ok_iff.mpr ⟨(), e, he, rfl⟩)⟩
  · exact .inr ⟨hfull, congrFun (commit_of_plan_error hplan) d⟩

/-- What a pass that succeeds leaves in use are the first blocks of the pool. -/
theorem used_of_commit {k : PoolMap g} {w : Volume} {e : D}
    (hg : g.Fits (SectorDevice.totalSectors d)) (h : commit g k t d = .ok w e) :
    w.usage.used = Pass.spaceNeeded t
      ∧ ∀ b, w.map.isAllocated b = decide (b < Pass.spaceNeeded t) := by
  have hused := (onDisk_of_commit hg h).1.map_firstUsed
  rw [Pass.blocksUsed_eq] at hused
  exact ⟨hused.usedCount_eq, hused.isAllocated_eq⟩

end Volume

namespace Session

variable {D : Type} [SectorDevice D] [Backed D]

/-- A tree that calls have made is brought to a device in order if there is room for it, and
then takes the first blocks of the pool; else nothing is changed. -/
theorem sync_of_calls {s : Session D} {calls : List Tree.Call}
    (htree : s.volume.tree = Tree.run calls .empty)
    (hg : Volume.Divides s.volume.geometry (SectorDevice.totalSectors s.device))
    (hd : InOrder s.device) :
    (Pass.spaceNeeded s.volume.tree ≤ s.volume.geometry.blockCount.toNat →
        ∃ u, sync s = .ok () u ∧ u.volume.usage.used = Pass.spaceNeeded s.volume.tree
          ∧ ∀ b, u.volume.map.isAllocated b = decide (b < Pass.spaceNeeded s.volume.tree))
      ∧ (s.volume.geometry.blockCount.toNat < Pass.spaceNeeded s.volume.tree →
        sync s = .error .outOfDiskSpace s) := by
  have hsound : s.volume.tree.Sound := by
    rw [htree]
    exact (Tree.sound_blank ..).calls calls
  have hpay : ∀ i ∈ Pass.slotsOf s.volume.tree, ∃ bytes, i.payload = .ok bytes := fun i hi =>
    hsound.payload_isOk (List.mem_of_mem_take hi)
  rcases Volume.commit_cases hg.fits hd hpay with ⟨hroom, w, e, h⟩ | ⟨hfull, h⟩
  · refine ⟨fun _ => ⟨⟨e, w⟩, become_of_ok h, Volume.used_of_commit hg.fits h⟩, fun hfull => ?_⟩
    exact absurd hroom (Nat.not_le.mpr hfull)
  · exact ⟨fun hroom => absurd hroom (Nat.not_le.mpr hfull), fun _ => become_of_error h⟩

/-- A file and a directory take four blocks with the root, which a disk of six sectors has
and one of five has not. -/
theorem sync_of_calls_few :
    ∃ s r u : Session MemoryDisk,
      s.volume.tree = Tree.run [.create "/a", .mkdir "/b"] .empty
        ∧ s.volume.geometry = ⟨4, 1, 2⟩ ∧ s.device = .blank 6
        ∧ sync s = .ok () u ∧ u.volume.usage.used = 4
        ∧ r.volume.tree = s.volume.tree ∧ r.volume.geometry = ⟨3, 1, 2⟩ ∧ r.device = .blank 5
        ∧ sync r = .error .outOfDiskSpace r := by
  obtain ⟨t, ht⟩ : ∃ t, t = Tree.run [.create "/a", .mkdir "/b"] .empty := ⟨_, rfl⟩
  have hneed : Pass.spaceNeeded t = 4 := by
    rw [ht]
    decide +kernel
  have h6 : Geometry.format (SectorDevice.totalSectors (MemoryDisk.blank 6)) = .ok ⟨4, 1, 2⟩ := by
    decide
  have h5 : Geometry.format (SectorDevice.totalSectors (MemoryDisk.blank 5)) = .ok ⟨3, 1, 2⟩ := by
    decide
  let s : Session MemoryDisk := ⟨.blank 6, ⟨4, 1, 2⟩, .empty 4, .ofGeometry ⟨4, 1, 2⟩ 1 1, t, rfl⟩
  let r : Session MemoryDisk := ⟨.blank 5, ⟨3, 1, 2⟩, .empty 3, .ofGeometry ⟨3, 1, 2⟩ 1 1, t, rfl⟩
  obtain ⟨u, hu, hused, -⟩ := (sync_of_calls (s := s) ht (.inl h6) (MemoryDisk.inOrder _)).1
    (Nat.le_of_eq hneed)
  have hfull := (sync_of_calls (s := r) ht (.inl h5) (MemoryDisk.inOrder _)).2
    (Nat.lt_of_lt_of_eq (show 3 < 4 by decide) hneed.symm)
  exact ⟨s, r, u, ht, rfl, rfl, hu, hused.trans hneed, rfl, rfl, rfl, hfull⟩

end Session

end SectorFs

import SectorFs.Proofs.Volume.Image
import SectorFs.Proofs.Volume.Reading

/-!
# Reading back what was written

Reading a disk brings a tree back just when the records that its superblock leads to do
(`load_iff_recovers`).  What a tree takes of the pool is enough for that
(`Pass.InPool.recovers`), so a volume survives its way to the disk and back
(`load_of_sync`).
-/

namespace SectorFs

open Attempt

/-! ### The slots of a tree -/

namespace Tree

theorem le_lastUsedBelow {slots : Array Inode} {i n : Nat} (hi : i < n)
    (h : (slots.getD i .unused).isFree = false) : i ≤ lastUsedBelow slots n := by
  induction n with
  | zero => exact absurd hi (Nat.not_lt_zero i)
  | succ n ih =>
    rw [lastUsedBelow]
    by_cases hin : i = n
    · rw [hin] at h
      rw [if_neg (by rw [h]; decide), hin]
    · have := ih (by omega)
      split
      · exact this
      · omega

theorem index_lt_of_use {t : Tree} {id : InodeId} (h : (t.view id).kind ≠ .free) :
    id.index < Pass.chunkCount t * recordsPerChunk := by
  obtain ⟨i, hi, hv⟩ := slot_of_kind h
  have hlt := index_lt_of_slot hi
  have hfree : (t.slots.getD id.index .unused).isFree = false := by
    rw [Array.getD_eq_getD_getElem?, show t.slots[id.index]? = some i from hi, Option.getD_some]
    exact Inode.isFree_eq_false_iff.mpr (hv ▸ h)
  have hle : id.index ≤ t.lastUsed := le_lastUsedBelow hlt hfree
  have := le_mul_partsOf (t.lastUsed + 1) (show 0 < recordsPerChunk by decide)
  rw [Nat.mul_comm] at this
  exact Nat.lt_of_lt_of_le (Nat.lt_succ_of_le hle) this

/-- What reading an image of a tree should find in a slot: links in a free one are lost. -/
def persisted (t : Tree) (id : InodeId) : InodeView :=
  if (t.view id).kind = .free then .unused else t.view id

/-- A tree is another one that went to a disk and back. -/
structure Restores (u t : Tree) : Prop where
  cwd_eq : u.cwd = .root
  dirty_eq : u.dirty = false
  view_eq : ∀ id, u.view id = t.persisted id

theorem Sound.persisted_eq {t : Tree} (h : t.Sound) (id : InodeId) : t.persisted id = t.view id := by
  rw [persisted]
  split
  · rename_i hfree
    exact (h.view_of_free hfree).symm
  · rfl

theorem persisted_root {t : Tree} (h : (t.view .root).kind = .directory) :
    t.persisted .root = t.view .root :=
  if_neg (h.trans_ne (by decide))

end Tree

namespace Pass

variable {g : Geometry} {t : Tree} {d : MemoryDisk}

/-! ### Records on the disk -/

/-- The blocks that an inode was given hold its payload and their own list. -/
theorem InPool.placement_held (h : InPool g t d) {slot : Inode × Placement}
    (hs : slot ∈ placedOf t) :
    slot.2.Serves slot.1.payloadSize
      ∧ slot.2.lists.mapM (Reading.readBlock g) d
        = .ok (slot.2.lists.map fun _ => .ofWords slot.2.overflow) d
      ∧ ∃ bytes, slot.1.payload = .ok bytes
        ∧ slot.2.blocks.mapM (Reading.readBlock g) d = .ok (Sector.split bytes) d := by
  obtain ⟨i, p⟩ := slot
  obtain ⟨n, hp, hstart, hn⟩ := placementAt_of_mem hs
  obtain rfl : p = placementAt n i := hp
  dsimp only
  have hn : n + spaceOf i ≤ blocksUsed t := hn
  obtain ⟨bytes, hpay, hdata, hlist⟩ := h.payload_held i n hs hn
  have hg := h.geometry_fits
  have hlt := g.blockCount.toNat_lt
  have hend := h.end_le
  have hpos : 0 < n := by
    have h1 : payloadStart t = chunkCount t + partsOf (chunkCount t) chunksPerMapBlock := rfl
    have h2 := chunkCount_pos t
    omega
  have hspace : payloadBlocks i ≤ spaceOf i := by
    rw [spaceOf]
    split <;> omega
  have hlen : (Sector.split bytes).length = payloadBlocks i := by
    rw [Sector.length_split, Inode.length_payload hpay]
    rfl
  refine ⟨serves_placementAt hpos (by omega), ?_, bytes, hpay, Record.mapM_ok ?_⟩
  · rw [Placement.lists]
    split
    · rename_i hbig
      have hbig : directBlocks < payloadBlocks i := by simpa [placementAt] using hbig
      have hs : spaceOf i = payloadBlocks i + 1 := if_pos hbig
      have hlist := hlist hbig 0 Nat.one_pos
      rw [Nat.add_zero] at hlist
      rw [show (placementAt n i).indirect = some _ from if_pos hbig]
      exact Record.mapM_ok (.cons (Reading.readBlock_ok hg (by omega) hlist) .nil)
    · rfl
  · have := Reading.readBlock_blockRun hg (by rw [hlen]; omega) hdata
    rw [hlen] at this
    exact this

theorem InPool.decode_describe (h : InPool g t d) {slot : Inode × Placement}
    (hs : slot ∈ placedOf t) (huse : slot.1.isFree = false) :
    ∃ j, (Record.describe slot.1 slot.2).decode (Reading.readBlock g) d = .ok j d
      ∧ j.view = slot.1.view := by
  obtain ⟨hserves, hlist, bytes, hpay, hdata⟩ := h.placement_held hs
  obtain ⟨j, hview, hdecode⟩ := Record.decode_describe huse hpay hserves
  exact ⟨j, hdecode hlist hdata, hview⟩

/-- All records of the chunks, with free ones behind the last. -/
theorem flatMap_chunksOf (t : Tree) : (chunksOf t).flatMap Record.ofChunk
    = padTo .free (recordsPerChunk * chunkCount t) ((placedOf t).map recordOf) :=
  Record.flatMap_ofChunk ..

theorem InPool.readable (h : InPool g t d) {r : Record}
    (hr : r ∈ (chunksOf t).flatMap Record.ofChunk) : Reading.Readable g d r := by
  rw [flatMap_chunksOf, padTo_eq_append] at hr
  rcases List.mem_append.mp hr with hr | hr
  · obtain ⟨slot, hs, rfl⟩ := List.mem_map.mp (List.mem_of_mem_take hr)
    by_cases hf : slot.1.isFree
    · exact .inl (by rw [recordOf, if_pos hf]; rfl)
    · obtain ⟨j, hj, -⟩ := h.decode_describe hs (by simpa using hf)
      exact .inr ⟨j, by rw [recordOf, if_neg hf]; exact hj⟩
  · exact .inl (by rw [List.eq_of_mem_replicate hr]; rfl)

/-- What the record of a slot brings back. -/
theorem InPool.found_recordOf (h : InPool g t d) {slot : Inode × Placement}
    (hs : slot ∈ placedOf t) :
    (Reading.found g d (recordOf slot)).map Inode.view
      = if slot.1.isFree then none else some slot.1.view := by
  by_cases hf : slot.1.isFree
  · have hfree : Record.free.isFree = true := rfl
    rw [recordOf, if_pos hf, if_pos hf, Reading.found, if_pos hfree]
    rfl
  · obtain ⟨j, hj, hv⟩ := h.decode_describe hs (by simpa using hf)
    have hnot : ¬(Record.describe slot.1 slot.2).isFree = true := by
      rwa [Record.isFree_describe]
    rw [recordOf, if_neg hf, if_neg hf, Reading.found, if_neg hnot, hj]
    exact congrArg some hv

/-- The records of the chunks bring back every slot in use, and nothing else. -/
theorem InPool.found_at (h : InPool g t d) {id : InodeId}
    (hid : id.index < recordsPerChunk * chunkCount t) :
    ((((chunksOf t).flatMap Record.ofChunk).map (Reading.found g d))[id.index]?.getD none).map
        Inode.view
      = if (t.view id).kind = .free then none else some (t.view id) := by
  have hfree : Reading.found g d .free = none := rfl
  rw [flatMap_chunksOf, padTo_eq_append, List.getElem?_map, Nat.mul_comm] at *
  have hslots : ((placedOf t).map Prod.fst)[id.index]? = t.slots[id.index]? := by
    rw [placedOf, map_fst_placedFrom, slotsOf, List.getElem?_take, if_pos (by omega),
      Array.getElem?_toList]
  rw [List.getElem?_map] at hslots
  rw [List.take_of_length_le (by rw [List.length_map]; exact length_placedOf_le t)]
  cases hp : (placedOf t)[id.index]? with
  | none =>
    -- no slot of the table, and so a free record
    rw [hp] at hslots
    have hview : t.view id = .unused := by
      rw [Tree.view, Tree.slot?, ← hslots]
      rfl
    have hbehind : (placedOf t).length ≤ id.index := List.getElem?_eq_none_iff.mp hp
    rw [if_pos (by rw [hview]; rfl), List.getElem?_append_right (by rw [List.length_map]; omega),
      List.getElem?_replicate]
    split <;> rfl
  | some slot =>
    rw [hp] at hslots
    have hlt := (List.getElem?_eq_some_iff.mp hp).1
    have hview : t.view id = slot.1.view := by
      rw [Tree.view, Tree.slot?, ← hslots]
      rfl
    rw [List.getElem?_append_left (by rw [List.length_map]; exact hlt), List.getElem?_map, hp,
      Option.map_some, Option.map_some, Option.getD_some,
      h.found_recordOf (List.mem_of_getElem? hp), hview]
    simp [Inode.isFree]

/-! ### The parts of an image -/

theorem toNat_chunkCount (t : Tree) : (UInt32.ofNat (chunkCount t)).toNat = chunkCount t := by
  have := chunkCount_le t
  rw [UInt32.toNat_ofNat', Nat.mod_eq_of_lt (by omega)]

theorem readSuperblock_of_holds (hg : g.Fits d.totalSectors)
    (h : d.Holds 0 [(superblockOf g t).toSector]) :
    Reading.readSuperblock d = .ok (superblockOf g t) d := by
  have hone : (1 : UInt32).toNat = 1 := rfl
  have hpool := hg.2.2.2
  have hstart := UInt32.lt_iff_toNat_lt.mp hg.2.1
  have hread : Device.readSectors 0 1 d = .ok (Sector.join [(superblockOf g t).toSector]) d := by
    refine MemoryDisk.readSectors_of_holds h rfl ?_
    rw [hone, show (0 : UInt32).toNat = 0 from rfl]
    omega
  have hpresent : Device.requirePresent d = .ok () d := rfl
  have hsector : Sector.ofBytes (Sector.join [(superblockOf g t).toSector])
      = (superblockOf g t).toSector := by
    rw [Sector.join, List.flatMap_cons, List.flatMap_nil, List.append_nil, Sector.ofBytes_bytes]
  have hnz : (superblockOf g t).chunkCount ≠ 0 := by
    intro hz
    have h1 : (UInt32.ofNat (chunkCount t)).toNat = 0 := congrArg UInt32.toNat hz
    have h2 := chunkCount_pos t
    rw [toNat_chunkCount] at h1
    omega
  have hof : Superblock.ofSector (superblockOf g t).toSector = .ok (superblockOf g t) :=
    Superblock.ofSector_toSector (Superblock.isCurrent_ofGeometry ..)
  simp only [Reading.readSuperblock, bind_apply, hpresent, hread, hsector, hof, lift_ok_apply,
    if_neg hnz, pure_apply]

theorem OnDisk.readMap {m : BlockMap} (h : OnDisk g t m d) :
    Reading.readMap g d = .ok m d := by
  obtain ⟨sectors, hs, hheld⟩ := h.map_held
  have hg := h.geometry_fits
  have hread : Device.readSectors g.mapStart g.mapSectors d = .ok (Sector.join sectors) d := by
    refine MemoryDisk.readSectors_of_holds hheld (BlockMap.length_toSectors hs) ?_
    have h1 := hg.toNat_mapSectors
    have h2 := hg.2.2.2
    omega
  have hof : BlockMap.ofBytes (Sector.join sectors) g.blockCount.toNat = .ok m := by
    rw [← h.map_blocks]
    exact BlockMap.ofBytes_toSectors (fun b => h.map_firstUsed.lt_of_bit) hs
  exact Reading.readMap_eq_ok_iff.mpr ⟨_, hread, hof⟩

theorem InPool.readInodeMap (h : InPool g t d) :
    Reading.readInodeMap g (superblockOf g t) d
      = .ok ⟨(blockRun 0 (chunkCount t)).toArray,
          (blockRun (chunkCount t) (partsOf (chunkCount t) chunksPerMapBlock)).toArray⟩ d := by
  have hlt := g.blockCount.toNat_lt
  have hend := h.end_le
  have hstart := payloadStart_le t
  have hsum : payloadStart t = chunkCount t + partsOf (chunkCount t) chunksPerMapBlock := rfl
  have hpos := chunkCount_pos t
  rw [Reading.readInodeMap, show (superblockOf g t).chunkCount.toNat = chunkCount t from
    toNat_chunkCount t]
  refine (InodeMap.read_sectors (by omega) (by omega) (fun j hj => ?_) hpos).trans
    (if_pos le_rfl)
  have hjn : j < partsOf (chunkCount t) chunksPerMapBlock := length_inodeMapOf t ▸ hj
  refine Reading.readBlock_ok h.geometry_fits (by omega) ?_
  rw [← Nat.add_assoc]
  exact h.inodeMap_held j hj

theorem InPool.chunks_read (h : InPool g t d) :
    List.Forall₂ (fun b s => Reading.readBlock g b d = .ok s d) (blockRun 0 (chunkCount t))
      (chunksOf t) := by
  have hend := h.end_le
  have hstart := payloadStart_le t
  have hsum : payloadStart t = chunkCount t + partsOf (chunkCount t) chunksPerMapBlock := rfl
  have hrun : 0 + (chunksOf t).length ≤ g.blockCount.toNat := by
    rw [length_chunksOf]
    omega
  have hblocks := Reading.readBlock_blockRun h.geometry_fits hrun h.chunks_held
  rwa [length_chunksOf] at hblocks

/-! ### What reading finds -/

/-- The records that the superblock of a tree leads to on a disk bring back its slots, put
into a new table. -/
def Recovers (g : Geometry) (t : Tree) (d : MemoryDisk) : Prop :=
  ∃ (m : InodeMap) (records : List Record),
    Reading.readInodeMap g (superblockOf g t) d = .ok m d
      ∧ Reading.Leads g d m.chunks.toList records
      ∧ ∀ id : InodeId, (((records.map (Reading.found g d))[id.index]?.getD none).map
          Inode.view).getD (Tree.empty.view id) = t.persisted id

/-- What a tree takes of the pool is enough to bring it back. -/
theorem InPool.recovers (h : InPool g t d) (hroot : (t.view .root).kind = .directory) :
    Recovers g t d := by
  refine ⟨_, _, h.readInodeMap, ⟨_, h.chunks_read, rfl, fun r hr => h.readable hr⟩,
    fun id => ?_⟩
  by_cases hid : id.index < recordsPerChunk * chunkCount t
  · rw [h.found_at hid, Tree.persisted]
    split
    · rename_i hfree
      rw [Option.getD_none, Tree.empty, Tree.view_blank, Function.update_of_ne]
      rintro rfl
      rw [hroot] at hfree
      cases hfree
    · rfl
  · have hfree : (t.view id).kind = .free := by
      by_contra huse
      have := Tree.index_lt_of_use huse
      rw [Nat.mul_comm] at this
      exact hid this
    have hnone : (((chunksOf t).flatMap Record.ofChunk).map (Reading.found g d))[id.index]?
        = none := by
      rw [List.getElem?_eq_none_iff, List.length_map, flatMap_chunksOf, length_padTo]
      omega
    rw [hnone, Tree.persisted, if_pos hfree, Option.getD_none, Option.map_none, Option.getD_none,
      Tree.empty, Tree.view_blank, Function.update_of_ne]
    rintro rfl
    rw [hroot] at hfree
    cases hfree

end Pass

/-! ### Volumes -/

namespace Volume

variable {g : Geometry} {t : Tree} {m : BlockMap} {d e : MemoryDisk}

open Pass

/-- Past its superblock and its block map, a disk is read into a table with room for it. -/
theorem load_apply {s : Superblock} {u : Tree} (hs : Reading.readSuperblock d = .ok s d)
    (hg : s.geometry.Fits d.totalSectors) (hm : Reading.readMap s.geometry d = .ok m d)
    (hu : Tree.empty.withRoom (s.chunkCount.toNat * recordsPerChunk) = .ok u) :
    load d = (do
      let i ← Reading.readInodeMap s.geometry s
      let w ← Reading.loadTree s.geometry u i
      return ⟨s.geometry, m, s, w, Reading.blocks_of_readMap hm⟩ :
      Attempt MemoryDisk Volume) d := by
  have hgeometry : s.geometryOn d.totalSectors = .ok s.geometry := if_pos hg
  have htotal : Device.totalSectors d = .ok d.totalSectors d := rfl
  simp only [load, bind_apply, hs, htotal, hgeometry, lift_ok_apply,
    Reading.readPoolMap_of_readMap hm, hu]

/-- The parts of an image before its records can be read, and the table has room for these. -/
structure HasHead (d : MemoryDisk) (s : Superblock) (m : BlockMap) (i : InodeMap) (t : Tree) :
    Prop where
  superblock_read : Reading.readSuperblock d = .ok s d
  geometry_fits : s.geometry.Fits d.totalSectors
  map_read : Reading.readMap s.geometry d = .ok m d
  room : Tree.empty.withRoom (s.chunkCount.toNat * recordsPerChunk) = .ok t
  inodeMap_read : Reading.readInodeMap s.geometry s d = .ok i d

section

variable {s : Superblock} {i : InodeMap}

theorem HasHead.map_blocks (h : HasHead d s m i t) : m.blocks = s.geometry.blockCount.toNat :=
  Reading.blocks_of_readMap h.map_read

theorem HasHead.slots_enough (h : HasHead d s m i t) :
    recordsPerChunk * i.chunks.size ≤ t.slots.size :=
  InodeMap.slots_enough h.room h.inodeMap_read

theorem HasHead.load_eq (h : HasHead d s m i t) :
    load d = (do
      let w ← Reading.loadTree s.geometry t i
      return ⟨s.geometry, m, s, w, h.map_blocks⟩ : Attempt MemoryDisk Volume) d := by
  rw [load_apply h.superblock_read h.geometry_fits h.map_read h.room, bind_apply, h.inodeMap_read]

/-- Past its head, a disk is loaded just when its records can be read and show a root. -/
theorem HasHead.load_ok_iff {v : Volume} (h : HasHead d s m i t) :
    load d = .ok v e ↔ e = d ∧ ∃ records, Reading.Leads s.geometry d i.chunks.toList records
      ∧ v = ⟨s.geometry, m, s,
        (Reading.fill t 0 (records.map (Reading.found s.geometry d))).settle, h.map_blocks⟩
      ∧ Reading.hasRoot v.tree = true := by
  have htree := fun w => Reading.loadTree_ok_iff (g := s.geometry) (d := d) (w := w) (e := e)
    h.slots_enough
  rw [Tree.restart_of_withRoom h.room] at htree
  rw [h.load_eq, bind_eq_ok_iff]
  constructor
  · rintro ⟨w, c, hw, hv⟩
    injection hv with hv he
    subst hv he
    obtain ⟨rfl, hroot, records, hr, rfl⟩ := (htree w).mp hw
    exact ⟨rfl, records, hr, rfl, hroot⟩
  · rintro ⟨rfl, records, hr, rfl, hroot⟩
    exact ⟨_, e, (htree _).mpr ⟨rfl, hroot, records, hr, rfl⟩, rfl⟩

end

theorem withRoom_chunks_isOk (t : Tree) :
    ∃ u, Tree.empty.withRoom (chunkCount t * recordsPerChunk) = .ok u := by
  have hle := chunkCount_le t
  have hmax : maxSlots = 8192 := rfl
  have hrecords : recordsPerChunk = 8 := rfl
  exact Tree.withRoom_isOk .empty (by rw [hmax, hrecords]; omega)

/-- A disk with the superblock of a tree is read by its records. -/
theorem load_ok_iff (hg : g.Fits d.totalSectors) (hs : d.Holds 0 [(superblockOf g t).toSector])
    (hm : Reading.readMap g d = .ok m d) {v : Volume} :
    load d = .ok v e ↔ e = d ∧ ∃ (u : Tree) (i : InodeMap) (records : List Record),
      Tree.empty.withRoom (chunkCount t * recordsPerChunk) = .ok u
        ∧ Reading.readInodeMap g (superblockOf g t) d = .ok i d
        ∧ Reading.Leads g d i.chunks.toList records
        ∧ v = ⟨g, m, superblockOf g t,
          (Reading.fill u 0 (records.map (Reading.found g d))).settle,
          Reading.blocks_of_readMap hm⟩
        ∧ Reading.hasRoot v.tree = true := by
  obtain ⟨u, hu⟩ := withRoom_chunks_isOk t
  have hread := readSuperblock_of_holds hg hs
  have hroom : Tree.empty.withRoom ((superblockOf g t).chunkCount.toNat * recordsPerChunk)
      = .ok u := by
    rw [show (superblockOf g t).chunkCount.toNat = _ from toNat_chunkCount t]
    exact hu
  have hhead : ∀ {i}, Reading.readInodeMap g (superblockOf g t) d = .ok i d →
      HasHead d (superblockOf g t) m i u := fun hi => ⟨hread, hg, hm, hroom, hi⟩
  constructor
  · intro h
    obtain ⟨i, c, hi, -⟩ := bind_eq_ok_iff.mp ((load_apply hread hg hm hroom).symm.trans h)
    obtain rfl := (Reading.mirrors_readInodeMap g _).keeps d i c hi
    obtain ⟨he, records, hr, hv, hroot⟩ := (hhead hi).load_ok_iff.mp h
    exact ⟨he, u, i, records, hu, hi, hr, hv, hroot⟩
  · rintro ⟨rfl, u', i, records, hu', hi, hr, rfl, hroot⟩
    obtain rfl := Except.ok.inj (hu'.symm.trans hu)
    exact (hhead hi).load_ok_iff.mpr ⟨rfl, records, hr, rfl, hroot⟩

/-- The table that records fill, slot by slot. -/
theorem view_fill_empty {u : Tree} {i : InodeMap} {records : List Record}
    (hu : Tree.empty.withRoom (chunkCount t * recordsPerChunk) = .ok u)
    (hi : Reading.readInodeMap g (superblockOf g t) d = .ok i d)
    (hr : Reading.Leads g d i.chunks.toList records) (id : InodeId) :
    (Reading.fill u 0 (records.map (Reading.found g d))).view id
      = (((records.map (Reading.found g d))[id.index]?.getD none).map Inode.view).getD
        (Tree.empty.view id) := by
  obtain ⟨hview, -, hsize, -⟩ := Tree.view_withRoom hu
  have hchunks : i.chunks.size = chunkCount t := (InodeMap.size_read hi).trans (toNat_chunkCount t)
  have hlen : (records.map (Reading.found g d)).length = chunkCount t * recordsPerChunk := by
    rw [List.length_map, hr.length_eq, Array.length_toList, hchunks, Nat.mul_comm]
  rw [Reading.view_fill (by omega), hview, Nat.zero_add, Nat.sub_zero]
  split
  · rfl
  · rename_i hout
    rw [List.getElem?_eq_none (by omega)]
    rfl

/-- Records that bring a tree back make a volume of it. -/
theorem load_of_recovers (hg : g.Fits d.totalSectors)
    (hs : d.Holds 0 [(superblockOf g t).toSector]) (hm : Reading.readMap g d = .ok m d)
    (hroot : (t.view .root).kind = .directory) (h : Recovers g t d) :
    ∃ u : Tree, load d = .ok ⟨g, m, superblockOf g t, u, Reading.blocks_of_readMap hm⟩ d
      ∧ u.Restores t := by
  obtain ⟨u, hu⟩ := withRoom_chunks_isOk t
  obtain ⟨i, records, hi, hr, hview⟩ := h
  obtain ⟨-, hcwd, -⟩ := Tree.view_withRoom hu
  obtain ⟨hc, -⟩ := Reading.fill_keeps u 0 (records.map (Reading.found g d))
  have hv : ∀ id, (Reading.fill u 0 (records.map (Reading.found g d))).view id = t.persisted id :=
    fun id => (view_fill_empty hu hi hr id).trans (hview id)
  refine ⟨_, (load_ok_iff hg hs hm).mpr ⟨rfl, u, i, records, hu, hi, hr, rfl, ?_⟩,
    hc.trans hcwd, rfl, hv⟩
  have hk : ((Reading.fill u 0 (records.map (Reading.found g d))).view .root).kind
      = .directory := by
    rw [hv, Tree.persisted_root hroot, hroot]
  obtain ⟨j, hj, hjv⟩ := Tree.inode_of_kind (hk.trans_ne (by decide))
  show Reading.hasRoot (Reading.fill u 0 (records.map (Reading.found g d))) = true
  rw [Reading.hasRoot, hj]
  rw [← hjv, Inode.kind_view] at hk
  exact beq_iff_eq.mpr hk

/-- A disk with the superblock of a tree gives the tree back just when its records do. -/
theorem load_iff_recovers (hg : g.Fits d.totalSectors)
    (hs : d.Holds 0 [(superblockOf g t).toSector]) (hm : Reading.readMap g d = .ok m d)
    (hroot : (t.view .root).kind = .directory) :
    (∃ v, load d = .ok v d ∧ v.tree.Restores t) ↔ Recovers g t d := by
  constructor
  · rintro ⟨v, hv, hr⟩
    obtain ⟨-, u, i, records, hu, hi, hrecords, rfl, -⟩ := (load_ok_iff hg hs hm).mp hv
    exact ⟨i, records, hi, hrecords, fun id =>
      (view_fill_empty hu hi hrecords id).symm.trans (hr.view_eq id)⟩
  · intro h
    obtain ⟨u, hload, hr⟩ := load_of_recovers hg hs hm hroot h
    exact ⟨_, hload, hr⟩

/-- An image of a tree is loaded as a volume of it. -/
theorem load_of_onDisk (h : OnDisk g t m d) (hroot : (t.view .root).kind = .directory) :
    ∃ u : Tree, load d = .ok ⟨g, m, superblockOf g t, u, h.map_blocks⟩ d ∧ u.Restores t :=
  load_of_recovers h.geometry_fits h.superblock_held h.readMap hroot (h.recovers hroot)

/-! ### Bringing a volume to disk -/

/-- A division of the disk that a new volume or an old superblock gives. -/
def Divides (g : Geometry) (total : UInt32) : Prop :=
  Geometry.format total = .ok g ∨ ∃ s : Superblock, s.geometryOn total = .ok g

theorem Divides.fits {total : UInt32} (h : Divides g total) : g.Fits total := by
  rcases h with h | ⟨s, h⟩
  · exact Geometry.fits_of_format h
  · exact Geometry.fits_of_geometryOn h

section

variable {D : Type} [SectorDevice D]

variable {k : PoolMap g}

theorem commit_of_plan {p : Pass} (h : Pass.plan g k t = .ok p) :
    (commit g k t : Attempt D Volume) = do
      p.run
      return ⟨g, p.map, p.superblock, t.settle, Pass.blocks_of_plan h⟩ := by
  unfold commit
  split
  · rename_i f hf
    cases h.symm.trans hf
  · rename_i q hq
    obtain rfl := Except.ok.inj (h.symm.trans hq)
    rfl

theorem commit_of_plan_error {f : Failure} (h : Pass.plan g k t = .error f) :
    (commit g k t : Attempt D Volume) = throw f := by
  unfold commit
  split
  · rename_i f' hf
    obtain rfl := Except.error.inj (h.symm.trans hf)
    rfl
  · rename_i q hq
    cases h.symm.trans hq

theorem commit_ok {w : Volume} {d e : D} (h : commit g k t d = .ok w e) :
    ∃ p, ∃ hp : Pass.plan g k t = .ok p, p.run d = .ok () e
      ∧ w = ⟨g, p.map, p.superblock, t.settle, Pass.blocks_of_plan hp⟩ := by
  obtain ⟨r, hplan⟩ : ∃ r, Pass.plan g k t = r := ⟨_, rfl⟩
  cases r with
  | error f =>
    rw [commit_of_plan_error hplan] at h
    cases h
  | ok p =>
    rw [commit_of_plan hplan, bind_eq_ok_iff] at h
    obtain ⟨⟨⟩, c, hrun, h⟩ := h
    injection h with hw hc
    subst hc
    exact ⟨p, hplan, hrun, hw.symm⟩

/-- A pass fails while it is planned or while its steps are taken. -/
theorem commit_error {d e : D} {f : Failure} (h : commit g k t d = .error f e) :
    Pass.plan g k t = .error f ∧ e = d
      ∨ ∃ p, Pass.plan g k t = .ok p ∧ p.steps.forM Step.run d = .error f e := by
  cases hplan : Pass.plan g k t with
  | error f' =>
    rw [commit_of_plan_error hplan] at h
    injection h with hf he
    exact .inl ⟨by rw [hf], he.symm⟩
  | ok p =>
    rw [commit_of_plan hplan] at h
    rcases bind_eq_error_iff.mp h with h | ⟨⟨⟩, m, -, h⟩
    · exact .inr ⟨p, rfl, h⟩
    · cases h

variable [Backed D]

open Backed (disk)

/-- A pass that succeeds leaves the image of its tree. -/
theorem onDisk_of_commit {w : Volume} {d e : D} (hg : g.Fits (SectorDevice.totalSectors d))
    (h : commit g k t d = .ok w e) :
    Pass.OnDisk g t w.map (disk e) ∧ w.geometry = g ∧ w.superblock = Pass.superblockOf g t
      ∧ w.tree = t.settle := by
  obtain ⟨p, hplan, hrun, rfl⟩ := commit_ok h
  rw [Backed.totalSectors_eq] at hg
  obtain ⟨mapSectors, hp⟩ := Pass.plan_ok hg hplan
  obtain ⟨hfit, he⟩ := Step.run_steps_ok hrun
  rw [he]
  exact ⟨Pass.onDisk_of_steps hg hp hfit, rfl, hp.superblock_eq, rfl⟩

/-- What a pass left is loaded as the volume it made. -/
theorem load_of_commit {w : Volume} {d e : D} (hg : g.Fits (SectorDevice.totalSectors d))
    (hroot : (t.view .root).kind = .directory) (h : commit g k t d = .ok w e) :
    w.geometry = g ∧ ∃ u : Tree, load (disk e) = .ok { w with tree := u } (disk e)
      ∧ u.Restores t := by
  obtain ⟨hdisk, rfl, hsuper, -⟩ := onDisk_of_commit hg h
  obtain ⟨u, hload, hr⟩ := load_of_onDisk hdisk hroot
  rw [← hsuper] at hload
  exact ⟨rfl, u, hload, hr⟩

/-- What a pass brings to disk is found there again, whatever was on the disk before and
whichever requests it might have refused. -/
theorem load_of_sync {v w : Volume} {d e : D}
    (hg : Divides v.geometry (SectorDevice.totalSectors d))
    (hroot : (v.tree.view .root).kind = .directory) (h : v.sync d = .ok w e) :
    w.geometry = v.geometry ∧ ∃ u : Tree, load (disk e) = .ok { w with tree := u } (disk e)
      ∧ u.Restores v.tree :=
  load_of_commit hg.fits hroot h

end

/-- A volume of eight sectors, with changes to its tree that are not on its disk yet. -/
def unsaved (calls : List Tree.Call) : Volume :=
  .ofPoolMap ⟨6, 1, 2⟩ (.empty _) (.ofGeometry ⟨6, 1, 2⟩ 1 1) (Tree.run calls .empty)

/-- A file of three bytes and a directory. -/
def smallVolume : Volume :=
  unsaved [.create "/a", .writePath "/a" 0 #[1, 2, 3], .mkdir "/b"]

/-- They survive on a disk of eight sectors that takes just the writes of the pass. -/
theorem load_of_sync_small :
    ∃ (w : Volume) (e : FaultyDisk),
      smallVolume.sync (⟨.blank 8, { Faults.none with writesLeft := some 7 }, #[]⟩ : FaultyDisk)
          = .ok w e
        ∧ w.geometry = smallVolume.geometry
        ∧ ∃ u : Tree, load e.disk = .ok { w with tree := u } e.disk
          ∧ u.Restores smallVolume.tree := by
  generalize hd : (⟨.blank 8, { Faults.none with writesLeft := some 7 }, #[]⟩ : FaultyDisk) = d
  have hrun : smallVolume.sync.succeeds d (fun _ _ => true) = true := by
    rw [← hd]
    decide +kernel
  have htotal : SectorDevice.totalSectors d = 8 := by
    rw [← hd]
    decide
  obtain ⟨w, e, h, -⟩ := succeeds_iff.mp hrun
  have hdivides : Divides smallVolume.geometry (SectorDevice.totalSectors d) := by
    rw [htotal]
    exact .inl (by decide)
  exact ⟨w, e, h, load_of_sync hdivides (by decide +kernel) h⟩

end Volume

end SectorFs

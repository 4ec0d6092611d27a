import SectorFs.Proofs.Attempt
import SectorFs.Proofs.Image.InodeMap
import SectorFs.Proofs.Image.Record
import SectorFs.Proofs.Tree.Namespace
import SectorFs.Proofs.Volume.Mirror
import SectorFs.Proofs.Volume.Plan

/-!
# Reading blocks and filling the table

Blocks that are on the disk can be read (`readBlock_ok`), and so can the inode map of a run of
chunks, which lists as many of them as it is asked for (`readInodeMap_of_holds`).  The table is
filled just when every block of the inode map and every record in it can be read, and then with
what the records bring (`loadChunks_ok_iff`).
-/

namespace SectorFs

open Attempt

/-! ### What an inode map lists -/

namespace InodeMap

variable {σ : Type} {readBlock : UInt32 → Attempt σ Sector}

theorem length_listed_le (isFirst : Bool) (words : List UInt32) :
    (listed isFirst words).length ≤ words.length := by
  unfold listed
  split
  · exact Nat.succ_le_succ (List.takeWhile_prefix _).length_le
  · exact (List.takeWhile_prefix _).length_le

theorem size_follow_le {count steps : Nat} {block : UInt32} {found m : InodeMap} {s t : σ}
    (hf : found.chunks.size ≤ count) (h : follow readBlock count steps block found s = .ok m t) :
    m.chunks.size ≤ count := by
  induction steps generalizing block found s with
  | zero =>
    injection h with h _
    rwa [← h]
  | succ steps ih =>
    unfold follow at h
    split at h
    · injection h with h _
      rwa [← h]
    · obtain ⟨sector, u, -, h⟩ := bind_eq_ok_iff.mp h
      have hlisted := length_listed_le found.chunks.isEmpty
        (sector.words.take (min (count - found.chunks.size) chunksPerMapBlock))
      rw [List.length_take] at hlisted
      generalize listed found.chunks.isEmpty (sector.words.take
        (min (count - found.chunks.size) chunksPerMapBlock)) = chunks at h hlisted
      have hsize : (found.chunks ++ chunks.toArray).size ≤ count := by
        have : chunks.toArray.size = chunks.length := List.size_toArray
        rw [Array.size_append, this]
        omega
      split at h
      · injection h with h _
        rw [← h]
        exact hsize
      · exact ih hsize h

theorem size_read {start : UInt32} {count : Nat} {m : InodeMap} {s t : σ}
    (h : read readBlock start count s = .ok m t) : m.chunks.size = count := by
  obtain ⟨found, u, hf, h⟩ := bind_eq_ok_iff.mp h
  have hle := size_follow_le (Nat.zero_le _) hf
  simp only [] at h
  split at h
  · cases h
  · injection h with h _
    rw [← h]
    omega

/-- A table with room for the chunks of a map has a slot for each of their records. -/
theorem slots_enough {start : UInt32} {count : Nat} {m : InodeMap} {s t : σ} {w : Tree}
    (hw : Tree.empty.withRoom (count * recordsPerChunk) = .ok w)
    (h : read readBlock start count s = .ok m t) :
    recordsPerChunk * m.chunks.size ≤ w.slots.size := by
  rw [size_read h, Nat.mul_comm]
  exact (Tree.view_withRoom hw).2.2.1

end InodeMap

namespace Reading

variable {g : Geometry} {d e : MemoryDisk}

/-! ### Blocks -/

theorem readBlock_ok (hg : g.Fits d.totalSectors) {n : Nat} (hn : n < g.blockCount.toNat)
    {s : Sector} (hs : d.sector? (g.poolStart.toNat + n) = some s) :
    readBlock g (UInt32.ofNat n) d = .ok s d := by
  have hlt := g.blockCount.toNat_lt
  have hone : (1 : UInt32).toNat = 1 := rfl
  have hnat : (UInt32.ofNat n).toNat = n := by
    rw [UInt32.toNat_ofNat', Nat.mod_eq_of_lt (by omega)]
  have hblock : g.blockSector (UInt32.ofNat n) = .ok (g.poolStart + UInt32.ofNat n) :=
    Geometry.runSector_eq_ok_iff.mpr ⟨by rw [hnat, hone]; omega, rfl⟩
  have hadd := Step.toNat_poolStart_add hg hn.le
  have hread : Device.readSectors (g.poolStart + UInt32.ofNat n) 1 d = .ok (Sector.join [s]) d := by
    refine MemoryDisk.readSectors_of_holds (fun k hk => ?_) rfl ?_
    · obtain rfl : k = 0 := Nat.lt_one_iff.mp hk
      rw [hadd]
      exact hs
    · have := hg.2.2.2
      rw [hadd, hone]
      omega
  simp only [readBlock, bind_apply, hblock, lift_ok_apply, hread, pure_apply]
  rw [Sector.join, List.flatMap_cons, List.flatMap_nil, List.append_nil, Sector.ofBytes_bytes]

/-- A run of blocks that is on the disk is read block by block. -/
theorem readBlock_blockRun (hg : g.Fits d.totalSectors) {start : Nat} {run : List Sector}
    (hrun : start + run.length ≤ g.blockCount.toNat)
    (h : d.Holds (g.poolStart.toNat + start) run) :
    List.Forall₂ (fun b s => readBlock g b d = .ok s d) (blockRun start run.length) run := by
  refine List.forall₂_iff_get.mpr ⟨length_blockRun .., fun k hk hk' => ?_⟩
  show readBlock g (blockRun start run.length)[k] d = .ok run[k] d
  rw [getElem_blockRun]
  refine readBlock_ok hg (by omega) ?_
  rw [← Nat.add_assoc]
  exact h k hk'

/-! ### Inode maps on a disk -/

/-- The map of a run of chunks, wherever its own run lies in the pool, lists as many of these
chunks as a superblock asks for, and fails one that asks for more. -/
theorem readInodeMap_of_holds {D : Type} [SectorDevice D] [Backed D] {c : D} (hc : InOrder c)
    (hg : g.Fits (SectorDevice.totalSectors c)) {chunkStart count mapStart : Nat}
    (hcount : 0 < count) (hchunks : chunkStart + count ≤ g.blockCount.toNat)
    (hblocks : mapStart + partsOf count chunksPerMapBlock ≤ g.blockCount.toNat)
    (hmap : (Backed.disk c).Holds (g.poolStart.toNat + mapStart)
      (InodeMap.sectors chunkStart count mapStart))
    {s : Superblock} (hs : s.inodeMapStart = UInt32.ofNat mapStart) :
    ∃ e, readInodeMap g s c
      = if s.chunkCount.toNat ≤ count then
          .ok ⟨(blockRun chunkStart s.chunkCount.toNat).toArray,
            (blockRun mapStart (partsOf s.chunkCount.toNat chunksPerMapBlock)).toArray⟩ e
        else .error .corruptSuperblock e := by
  have hlt := g.blockCount.toNat_lt
  rw [Backed.totalSectors_eq] at hg
  have hread : ∀ j (hj : j < (InodeMap.sectors chunkStart count mapStart).length),
      readBlock g (UInt32.ofNat (mapStart + j)) (Backed.disk c)
        = .ok (InodeMap.sectors chunkStart count mapStart)[j] (Backed.disk c) := by
    intro j hj
    have hlen : (InodeMap.sectors chunkStart count mapStart).length
        = partsOf count chunksPerMapBlock := by
      rw [InodeMap.sectors, List.length_map, List.length_range]
    refine readBlock_ok hg (by omega) ?_
    rw [← Nat.add_assoc]
    exact hmap j hj
  have hstored := calc
    readInodeMap g s (Backed.disk c)
      = InodeMap.read (readBlock g) (UInt32.ofNat mapStart) s.chunkCount.toNat (Backed.disk c) := by
        rw [readInodeMap, hs]
    _ = _ := InodeMap.read_sectors (by omega) (by omega) hread hcount
  -- the device shows what the disk in memory behind it holds
  by_cases h : s.chunkCount.toNat ≤ count
  · rw [if_pos h] at hstored
    simp only [if_pos h]
    exact (mirrors_readInodeMap g s).ok_of_inOrder hc hstored
  · rw [if_neg h] at hstored
    simp only [if_neg h]
    exact (mirrors_readInodeMap g s).error_of_inOrder hc hstored

/-- A map of two blocks lists all of its 128 chunks when it is asked for them, and cannot list
one more. -/
theorem readInodeMap_two_blocks :
    ∃ d : MemoryDisk, d.Holds 130 (InodeMap.sectors 0 128 128)
      ∧ (∃ e, readInodeMap ⟨138, 1, 2⟩ (.ofGeometry ⟨138, 1, 2⟩ 128 128) d
        = .ok ⟨(blockRun 0 128).toArray, #[128, 129]⟩ e)
      ∧ ∃ e, readInodeMap ⟨138, 1, 2⟩ (.ofGeometry ⟨138, 1, 2⟩ 128 129) d
        = .error .corruptSuperblock e := by
  have hlen : (InodeMap.sectors 0 128 128).length = 2 := rfl
  have hsize : (MemoryDisk.blank 140).sectors.size = 140 := rfl
  have hmap : ((MemoryDisk.blank 140).put 130 (InodeMap.sectors 0 128 128)).Holds 130
      (InodeMap.sectors 0 128 128) := by
    intro k hk
    rw [MemoryDisk.sector?_put, if_pos (by omega), Nat.add_sub_cancel_left,
      List.getElem?_eq_getElem hk]
  generalize hd : (MemoryDisk.blank 140).put 130 (InodeMap.sectors 0 128 128) = d at hmap
  have hfits : Geometry.Fits ⟨138, 1, 2⟩ d.totalSectors := by
    rw [← hd, MemoryDisk.totalSectors, MemoryDisk.size_put, hsize]
    decide
  have hread := fun s hs => readInodeMap_of_holds (s := s) d.inOrder hfits (by decide)
    (by decide) (by decide) hmap hs
  refine ⟨d, hmap, ?_, ?_⟩
  · exact hread (.ofGeometry ⟨138, 1, 2⟩ 128 128) rfl
  · exact hread (.ofGeometry ⟨138, 1, 2⟩ 128 129) rfl

/-! ### Filling the table -/

/-- What a record brings to its slot. -/
def found (g : Geometry) (d : MemoryDisk) (r : Record) : Option Inode :=
  if r.isFree then none
  else
    match r.decode (readBlock g) d with
    | .ok i _ => some i
    | .error _ _ => none

/-- A record is free or can be read. -/
def Readable (g : Geometry) (d : MemoryDisk) (r : Record) : Prop :=
  r.isFree = true ∨ ∃ i, r.decode (readBlock g) d = .ok i d

/-- The records in some chunks, all of which can be read. -/
def Leads (g : Geometry) (d : MemoryDisk) (blocks : List UInt32) (records : List Record) : Prop :=
  ∃ chunks, List.Forall₂ (fun b s => readBlock g b d = .ok s d) blocks chunks
    ∧ records = chunks.flatMap Record.ofChunk ∧ ∀ r ∈ records, Readable g d r

theorem length_ofChunk (s : Sector) : (Record.ofChunk s).length = recordsPerChunk := by
  rw [Record.ofChunk, List.length_map, length_pieces]

theorem length_flatMap_ofChunk (chunks : List Sector) :
    (chunks.flatMap Record.ofChunk).length = recordsPerChunk * chunks.length := by
  induction chunks with
  | nil => rfl
  | cons s chunks ih =>
    rw [List.flatMap_cons, List.length_append, length_ofChunk, ih, List.length_cons, Nat.mul_succ,
      Nat.add_comm]

theorem Leads.length_eq {blocks : List UInt32} {records : List Record}
    (h : Leads g d blocks records) : records.length = recordsPerChunk * blocks.length := by
  obtain ⟨chunks, hb, rfl, -⟩ := h
  rw [length_flatMap_ofChunk, hb.length_eq]

/-- Fills slots from number `k` on. -/
def fill (t : Tree) (k : Nat) : List (Option Inode) → Tree
  | [] => t
  | none :: rest => fill t (k + 1) rest
  | some i :: rest => fill (t.setSlot k i).touch (k + 1) rest

theorem fill_append (t : Tree) (k : Nat) (a b : List (Option Inode)) :
    fill t k (a ++ b) = fill (fill t k a) (k + a.length) b := by
  induction a generalizing t k with
  | nil => rfl
  | cons x a ih =>
    cases x with
    | none =>
      rw [List.cons_append, fill, fill, ih, List.length_cons, Nat.add_comm a.length, Nat.add_assoc]
    | some i =>
      rw [List.cons_append, fill, fill, ih, List.length_cons, Nat.add_comm a.length, Nat.add_assoc]

theorem fill_keeps (t : Tree) (k : Nat) (l : List (Option Inode)) :
    (fill t k l).cwd = t.cwd ∧ (fill t k l).slots.size = t.slots.size := by
  induction l generalizing t k with
  | nil => exact ⟨rfl, rfl⟩
  | cons x l ih =>
    cases x with
    | none => exact ih t (k + 1)
    | some i =>
      obtain ⟨hcwd, hsize⟩ := ih (t.setSlot k i).touch (k + 1)
      exact ⟨hcwd, hsize.trans (Tree.size_setSlot ..)⟩

/-- A slot that is filled holds what it is filled with, and the others stay. -/
theorem getElem?_fill {t : Tree} {k : Nat} {l : List (Option Inode)}
    (h : k + l.length ≤ t.slots.size) (n : Nat) :
    (fill t k l).slots[n]? = if k ≤ n ∧ n < k + l.length
      then (l[n - k]?.getD none).or t.slots[n]? else t.slots[n]? := by
  induction l generalizing t k with
  | nil =>
    rw [if_neg (by rw [List.length_nil]; omega)]
    rfl
  | cons x l ih =>
    rw [List.length_cons] at h ⊢
    obtain ⟨u, hu⟩ : ∃ u, u = x.elim t fun i => (t.setSlot k i).touch := ⟨_, rfl⟩
    have hsize : u.slots.size = t.slots.size := by
      rw [hu]
      cases x with
      | none => rfl
      | some i => exact Tree.size_setSlot ..
    have hget : u.slots[n]? = if n = k then x.or t.slots[n]? else t.slots[n]? := by
      rw [hu]
      cases x with
      | none =>
        rw [Option.none_or, ite_self]
        rfl
      | some i =>
        show (t.slots.setIfInBounds k i)[n]? = _
        rw [Array.getElem?_setIfInBounds]
        by_cases hk : n = k
        · rw [if_pos hk.symm, if_pos (by omega), if_pos hk]
          rfl
        · rw [if_neg (Ne.symm hk), if_neg hk]
    have hfill : fill t k (x :: l) = fill u (k + 1) l := by
      rw [hu]
      cases x <;> rfl
    rw [hfill, ih (by omega), hget]
    by_cases hk : n = k
    · rw [if_neg (by omega), if_pos hk, if_pos (by omega), hk, Nat.sub_self]
      rfl
    · rw [if_neg hk]
      by_cases hin : k + 1 ≤ n ∧ n < k + 1 + l.length
      · obtain ⟨j, hj⟩ : ∃ j, n - k = j + 1 := ⟨n - k - 1, by omega⟩
        rw [if_pos hin, if_pos (by omega), hj, List.getElem?_cons_succ,
          show n - (k + 1) = j by omega]
      · rw [if_neg hin, if_neg (by omega)]

/-- Slots that are filled look like what they are filled with, and the others stay. -/
theorem view_fill {t : Tree} {k : Nat} {l : List (Option Inode)} (h : k + l.length ≤ t.slots.size)
    (id : InodeId) :
    (fill t k l).view id = if k ≤ id.index ∧ id.index < k + l.length
      then ((l[id.index - k]?.getD none).map Inode.view).getD (t.view id) else t.view id := by
  rw [Tree.view, Tree.slot?, getElem?_fill h]
  split
  · cases l[id.index - k]?.getD none with
    | none => rfl
    | some i => rfl
  · rfl

theorem size_loadRecord {D : Type} [SectorDevice D] {t w : Tree} {x : Record × Nat} {c k : D}
    (h : loadRecord g t x c = .ok w k) : w.slots.size = t.slots.size := by
  unfold loadRecord at h
  split at h
  · injection h with h _
    rw [← h]
  · obtain ⟨i, m, -, h⟩ := bind_eq_ok_iff.mp h
    obtain ⟨-, rfl⟩ := Tree.install_eq_ok_iff.mp (lift_eq_ok_iff.mp h).1
    exact Tree.size_setSlot ..

theorem size_loadChunk {D : Type} [SectorDevice D] {t w : Tree} {chunk : UInt32 × Nat} {c k : D}
    (h : loadChunk g t chunk c = .ok w k) : w.slots.size = t.slots.size := by
  obtain ⟨sector, m, -, h⟩ := bind_eq_ok_iff.mp h
  exact foldlM_of_ok (P := fun w => w.slots.size = t.slots.size)
    (fun u x _ s v s' hu hv => (size_loadRecord hv).trans hu) rfl h

/-- A record is loaded just when it can be read, if there is a slot for it. -/
theorem loadRecord_ok_iff {t w : Tree} {r : Record} {k : Nat} (hk : k < t.slots.size) :
    loadRecord g t (r, k) d = .ok w e
      ↔ e = d ∧ Readable g d r ∧ w = fill t k [found g d r] := by
  cases hf : r.isFree with
  | true =>
    have hl : loadRecord g t (r, k) d = .ok t d := by
      simp [loadRecord, hf]
    rw [hl, found, if_pos hf]
    constructor
    · intro h
      injection h with hw he
      exact ⟨he.symm, .inl hf, hw.symm⟩
    · rintro ⟨rfl, -, rfl⟩
      rfl
  | false =>
    have hl : (loadRecord g t (r, k) : Attempt MemoryDisk Tree)
        = do return (t.setSlot k (← r.decode (readBlock g))).touch := by
      simp only [loadRecord, hf, Tree.install_of_lt hk]
      rfl
    rw [hl, found, if_neg (by rw [hf]; decide)]
    constructor
    · intro h
      obtain ⟨i, m, hi, hset⟩ := bind_eq_ok_iff.mp h
      obtain rfl := (Record.mirrors_decode (mirrors_readBlock g) r).keeps d i m hi
      injection hset with hw he
      rw [hi]
      exact ⟨he.symm, .inr ⟨i, hi⟩, hw.symm⟩
    · rintro ⟨rfl, hr | ⟨i, hi⟩, rfl⟩
      · rw [hf] at hr
        cases hr
      · rw [hi]
        exact bind_eq_ok_iff.mpr ⟨i, e, hi, rfl⟩

theorem loadRecords_ok_iff {records : List Record} {t w : Tree} {k : Nat}
    (hk : k + records.length ≤ t.slots.size) :
    (records.zipIdx k).foldlM (loadRecord g) t d = .ok w e
      ↔ e = d ∧ (∀ r ∈ records, Readable g d r) ∧ w = fill t k (records.map (found g d)) := by
  induction records generalizing t k with
  | nil =>
    constructor
    · intro h
      injection h with hw he
      exact ⟨he.symm, fun _ hr => absurd hr List.not_mem_nil, hw.symm⟩
    · rintro ⟨rfl, -, rfl⟩
      rfl
  | cons r records ih =>
    rw [List.length_cons] at hk
    have hslot : k < t.slots.size := by omega
    have hrest : ∀ l, k + 1 + records.length ≤ (fill t k l).slots.size := fun l => by
      rw [(fill_keeps t k l).2]
      omega
    have hfill : fill t k ((r :: records).map (found g d))
        = fill (fill t k [found g d r]) (k + 1) (records.map (found g d)) :=
      fill_append t k [found g d r] _
    rw [List.zipIdx_cons, List.foldlM_cons, bind_eq_ok_iff, hfill, List.forall_mem_cons]
    constructor
    · rintro ⟨u, m, hu, hw⟩
      obtain ⟨rfl, hr, rfl⟩ := (loadRecord_ok_iff hslot).mp hu
      obtain ⟨he, hrs, hw⟩ := (ih (hrest _)).mp hw
      exact ⟨he, ⟨hr, hrs⟩, hw⟩
    · rintro ⟨he, ⟨hr, hrs⟩, hw⟩
      exact ⟨_, d, (loadRecord_ok_iff hslot).mpr ⟨rfl, hr, rfl⟩, (ih (hrest _)).mpr ⟨he, hrs, hw⟩⟩

/-- Chunks are loaded just when all of them can be read, one after the other, if there are slots
for their records. -/
theorem loadChunks_ok_iff {blocks : List UInt32} {t w : Tree} {k : Nat}
    (hk : recordsPerChunk * (k + blocks.length) ≤ t.slots.size) :
    (blocks.zipIdx k).foldlM (loadChunk g) t d = .ok w e
      ↔ e = d ∧ ∃ records, Leads g d blocks records
        ∧ w = fill t (recordsPerChunk * k) (records.map (found g d)) := by
  induction blocks generalizing t k with
  | nil =>
    constructor
    · intro h
      injection h with hw he
      exact ⟨he.symm, [], ⟨[], .nil, rfl, fun _ hr => absurd hr List.not_mem_nil⟩, hw.symm⟩
    · rintro ⟨rfl, records, ⟨chunks, hb, rfl, -⟩, rfl⟩
      cases hb
      rfl
  | cons b blocks ih =>
    have hnext : recordsPerChunk * (k + 1) = recordsPerChunk * k + recordsPerChunk := rfl
    rw [List.length_cons, show k + (blocks.length + 1) = k + 1 + blocks.length by omega] at hk
    have hchunk : ∀ s, recordsPerChunk * k + (Record.ofChunk s).length ≤ t.slots.size := fun s => by
      rw [length_ofChunk, ← hnext]
      exact (Nat.mul_le_mul_left _ (Nat.le_add_right ..)).trans hk
    have hrest : ∀ l, recordsPerChunk * (k + 1 + blocks.length)
        ≤ (fill t (recordsPerChunk * k) l).slots.size := fun l => by
      rw [(fill_keeps t _ l).2]
      exact hk
    rw [List.zipIdx_cons, List.foldlM_cons, bind_eq_ok_iff]
    constructor
    · rintro ⟨u, m, hu, hw⟩
      obtain ⟨s, c, hs, hload⟩ := bind_eq_ok_iff.mp hu
      obtain rfl := (mirrors_readBlock g b).keeps d s c hs
      obtain ⟨rfl, hr, rfl⟩ := (loadRecords_ok_iff (hchunk s)).mp hload
      obtain ⟨he, records, ⟨chunks, hb, rfl, hrs⟩, rfl⟩ := (ih (hrest _)).mp hw
      refine ⟨he, Record.ofChunk s ++ chunks.flatMap Record.ofChunk, ⟨s :: chunks, .cons hs hb, rfl,
        fun r hm => (List.mem_append.mp hm).elim (hr r) (hrs r)⟩, ?_⟩
      rw [List.map_append, fill_append, List.length_map, length_ofChunk, hnext]
    · rintro ⟨he, records, ⟨chunks, hb, rfl, hrs⟩, rfl⟩
      cases hb with
      | @cons _ s _ chunks hs hb =>
        rw [List.flatMap_cons] at hrs
        refine ⟨_, d, bind_eq_ok_iff.mpr ⟨s, d, hs, (loadRecords_ok_iff (hchunk s)).mpr
          ⟨rfl, fun r hr => hrs r (List.mem_append_left _ hr), rfl⟩⟩, (ih (hrest _)).mpr ⟨he, _,
          ⟨chunks, hb, rfl, fun r hr => hrs r (List.mem_append_right _ hr)⟩, ?_⟩⟩
        rw [List.flatMap_cons, List.map_append, fill_append, List.length_map, length_ofChunk, hnext]

/-- A tree is read just when its chunks are, and have a root. -/
theorem loadTree_ok_iff {t w : Tree} {m : InodeMap}
    (hroom : recordsPerChunk * m.chunks.size ≤ t.slots.size) :
    loadTree g t m d = .ok w e
      ↔ e = d ∧ hasRoot w = true ∧ ∃ records, Leads g d m.chunks.toList records
        ∧ w = (fill t.restart 0 (records.map (found g d))).settle := by
  have hroom : recordsPerChunk * (0 + m.chunks.toList.length) ≤ t.restart.slots.size := by
    rw [Nat.zero_add, Array.length_toList, Tree.size_restart]
    exact hroom
  unfold loadTree
  rw [bind_eq_ok_iff]
  constructor
  · rintro ⟨u, c, hu, h⟩
    obtain ⟨rfl, records, hr, rfl⟩ := (loadChunks_ok_iff hroom).mp hu
    split at h
    · rename_i hroot
      injection h with hw he
      subst hw
      exact ⟨he.symm, hroot, records, hr, rfl⟩
    · cases h
  · rintro ⟨rfl, hroot, records, hr, rfl⟩
    refine ⟨_, e, (loadChunks_ok_iff hroom).mpr ⟨rfl, records, hr, rfl⟩, ?_⟩
    exact congrFun (if_pos hroot) e

end Reading

end SectorFs

import SectorFs.Proofs.Strict.Reading

/-!
# The parts of a disk

A new disk of four sectors or more is the superblock, the block map and the pool, one behind
the other and with nothing between or behind them (`Geometry.Partitions`), and its superblock tells
this division on every disk that is large enough (`Geometry.ReadsBack`).  Whatever a superblock
tells, what a disk accepts of it can be used without a further look (`Geometry.Usable`): the parts
lie on the disk and apart from each other, and a run of blocks is in the pool or refused.  In
`Strict.format`, as in the strict readings, no number leaves its width.
-/

namespace SectorFs

namespace Strict

variable {σ : Type}

/-- Sectors that hold `n` bits, a last one counting as soon as it is begun. -/
def sectorsFor (n : Nat) : Strict σ Nat :=
  if n % bitsPerSector = 0 then pure (n / bitsPerSector) else narrow 32 (n / bitsPerSector + 1)

/-- Divides a new disk.  Only the two differences may stop at zero. -/
def format (total : UInt32) : Strict σ Geometry := do
  let poolStart ← narrow 32 (1 + (← sectorsFor (total.toNat - 1)))
  let blockCount := total.toNat - poolStart
  if blockCount < minPoolSize then throw (.failure .outOfDiskSpace)
  else return ⟨UInt32.ofNat blockCount, 1, UInt32.ofNat poolStart⟩

theorem sectorsFor_eq {n : Nat} (h : n < 2 ^ 32) :
    (sectorsFor n : Strict σ Nat) = pure (partsOf n bitsPerSector) := by
  have hparts : partsOf n bitsPerSector = (n + 4095) / 4096 := rfl
  rw [sectorsFor, hparts, show bitsPerSector = 4096 from rfl]
  by_cases hrest : n % 4096 = 0
  · rw [if_pos hrest, show n / 4096 = (n + 4095) / 4096 by omega]
  · rw [if_neg hrest, narrow_of_lt (by omega), show n / 4096 + 1 = (n + 4095) / 4096 by omega]

theorem format_eq (total : UInt32) :
    (format total : Strict σ Geometry) = lift (Geometry.format total) := by
  have ht := total.toNat_lt
  have hparts : partsOf (total.toNat - 1) bitsPerSector = (total.toNat - 1 + 4095) / 4096 := rfl
  unfold format Geometry.format
  rw [sectorsFor_eq (by omega), pure_bind, narrow_of_lt (by omega), pure_bind]
  simp only []
  split
  · rfl
  · rfl

end Strict

namespace Geometry

/-! ### The sectors of the parts -/

def mapRun (g : Geometry) : List Nat :=
  List.range' g.mapStart.toNat (g.poolStart.toNat - g.mapStart.toNat)

def poolRun (g : Geometry) : List Nat := List.range' g.poolStart.toNat g.blockCount.toNat

@[simp] theorem length_mapRun (g : Geometry) :
    g.mapRun.length = g.poolStart.toNat - g.mapStart.toNat := List.length_range'

@[simp] theorem length_poolRun (g : Geometry) : g.poolRun.length = g.blockCount.toNat :=
  List.length_range'

theorem mem_mapRun {g : Geometry} {lba : Nat} :
    lba ∈ g.mapRun ↔ g.mapStart.toNat ≤ lba ∧ lba < g.poolStart.toNat := by
  rw [mapRun, List.mem_range'_1]
  omega

theorem mem_poolRun {g : Geometry} {lba : Nat} :
    lba ∈ g.poolRun
      ↔ g.poolStart.toNat ≤ lba ∧ lba < g.poolStart.toNat + g.blockCount.toNat := by
  rw [poolRun, List.mem_range'_1]

/-- A disk of `total` sectors is the superblock, the block map and the pool, and the block map has
a bit for every block. -/
structure Partitions (g : Geometry) (total : UInt32) : Prop where
  mapStart_eq : g.mapStart = 1
  poolEnd_eq : g.poolStart.toNat + g.blockCount.toNat = total.toNat
  sectors_eq : 0 :: (g.mapRun ++ g.poolRun) = List.range total.toNat
  enough : g.poolRun.length ≤ g.mapRun.length * bitsPerSector

/-- Every superblock of a geometry tells it on the disks of at least `total` sectors, and on no
others. -/
def ReadsBack (g : Geometry) (total : UInt32) : Prop :=
  ∀ inodeMapStart chunkCount onDisk : UInt32,
    (Superblock.ofSector (Superblock.ofGeometry g inodeMapStart chunkCount).toSector
      >>= fun s => s.geometryOn onDisk)
      = if total ≤ onDisk then .ok g else .error .corruptSuperblock

/-- A run of blocks is in the pool, from the sector on that is told for it, or is refused. -/
def RunOrRefused (g : Geometry) (block count : UInt32) : Prop :=
  if block.toNat + count.toNat ≤ g.blockCount.toNat then
    ∃ lba, g.runSector block count = .ok lba
      ∧ lba.toNat = g.poolStart.toNat + block.toNat
      ∧ ∀ k < count.toNat, lba.toNat + k ∈ g.poolRun
  else g.runSector block count = .error .corrupted

/-- A geometry that needs no further look on a disk of `total` sectors. -/
structure Usable (g : Geometry) (total : UInt32) : Prop where
  disjoint : g.mapRun.Disjoint g.poolRun
  zero_notMem : 0 ∉ g.mapRun ++ g.poolRun
  mapEnd_le : g.poolStart ≤ total
  poolEnd_le : g.poolStart.toNat + g.blockCount.toNat ≤ total.toNat
  enough : g.poolRun.length ≤ g.mapRun.length * bitsPerSector
  covers : ∀ b < g.blockCount.toNat, g.mapStart.toNat + b / bitsPerSector ∈ g.mapRun
  mapSectors_eq : ∀ σ, (Strict.minus g.poolStart.toNat g.mapStart.toNat : Strict σ Nat)
    = pure g.mapSectors.toNat
  run : ∀ block count, g.RunOrRefused block count
  run_eq : ∀ σ block count, (Strict.runSector g block count : Strict σ UInt32)
    = .lift (g.runSector block count)

/-! ### New disks -/

theorem exists_format {total : UInt32} (h : 4 ≤ total) : ∃ g, format total = .ok g := by
  have ht := total.toNat_lt
  have hfour : 4 ≤ total.toNat := UInt32.le_iff_toNat_le.mp h
  have hparts : partsOf (total.toNat - 1) bitsPerSector = (total.toNat - 1 + 4095) / 4096 := rfl
  have hroom : ¬total.toNat - (1 + partsOf (total.toNat - 1) bitsPerSector) < minPoolSize := by
    rw [show minPoolSize = 2 from rfl]
    omega
  exact ⟨_, if_neg hroom⟩

theorem format_of_lt {total : UInt32} (h : total < 4) : format total = .error .outOfDiskSpace := by
  have hfour : total.toNat < 4 := UInt32.lt_iff_toNat_lt.mp h
  have hparts : partsOf (total.toNat - 1) bitsPerSector = (total.toNat - 1 + 4095) / 4096 := rfl
  have hroom : total.toNat - (1 + partsOf (total.toNat - 1) bitsPerSector) < minPoolSize := by
    rw [show minPoolSize = 2 from rfl]
    omega
  exact if_pos hroom

theorem Fits.enough {g : Geometry} {total : UInt32} (h : g.Fits total) :
    g.poolRun.length ≤ g.mapRun.length * bitsPerSector := by
  have hmap := h.toNat_mapSectors
  rw [length_poolRun, length_mapRun, ← hmap, Nat.add_sub_cancel_left]
  exact h.2.2.1

theorem partitions_of_format {total : UInt32} {g : Geometry} (h : format total = .ok g) :
    g.Partitions total := by
  obtain ⟨-, hmap, hstart, hend⟩ := format_eq_ok_iff.mp h
  have hone : g.mapStart.toNat = 1 := by
    rw [hmap]
    rfl
  refine ⟨hmap, hend, ?_, (fits_of_format h).enough⟩
  obtain ⟨k, hk⟩ : ∃ k, g.poolStart.toNat = 1 + k := ⟨_, hstart⟩
  have htotal : total.toNat = k + g.blockCount.toNat + 1 := by omega
  rw [mapRun, poolRun, hone, hk, Nat.add_sub_cancel_left, List.range'_append_1, htotal,
    List.range_eq_range', List.range'_succ]

theorem geometryOn_ofGeometry (g : Geometry) (inodeMapStart chunkCount total : UInt32) :
    (Superblock.ofGeometry g inodeMapStart chunkCount).geometryOn total
      = if g.Fits total then .ok g else .error .corruptSuperblock := rfl

theorem readsBack_of_format {total : UInt32} {g : Geometry} (h : format total = .ok g) :
    g.ReadsBack total := by
  have hfits := fits_of_format h
  have hend := (partitions_of_format h).poolEnd_eq
  intro inodeMapStart chunkCount onDisk
  rw [Superblock.ofSector_toSector (Superblock.isCurrent_ofGeometry ..)]
  show (Superblock.ofGeometry g inodeMapStart chunkCount).geometryOn onDisk = _
  rw [geometryOn_ofGeometry]
  refine if_congr ?_ rfl rfl
  rw [UInt32.le_iff_toNat_le, ← hend]
  exact ⟨fun hf => hf.2.2.2, fun hle => ⟨hfits.1, hfits.2.1, hfits.2.2.1, hle⟩⟩

/-! ### Accepted superblocks -/

theorem Fits.runOrRefused {g : Geometry} {total : UInt32} (h : g.Fits total)
    (block count : UInt32) : g.RunOrRefused block count := by
  unfold RunOrRefused
  split
  · rename_i hrun
    have hadd : (g.poolStart + block).toNat = g.poolStart.toNat + block.toNat :=
      h.toNat_add (by omega)
    refine ⟨g.poolStart + block, if_pos hrun, hadd, fun k hk => ?_⟩
    rw [mem_poolRun]
    omega
  · rename_i hrun
    exact if_neg hrun

theorem Fits.usable {g : Geometry} {total : UInt32} (h : g.Fits total) : g.Usable total where
  disjoint lba hmap hpool := by
    rw [mem_mapRun] at hmap
    rw [mem_poolRun] at hpool
    omega
  zero_notMem hzero := by
    have hstart := UInt32.lt_iff_toNat_lt.mp h.1
    have hlt := UInt32.lt_iff_toNat_lt.mp h.2.1
    rcases List.mem_append.mp hzero with hzero | hzero
    · rw [mem_mapRun] at hzero
      omega
    · rw [mem_poolRun] at hzero
      omega
  mapEnd_le := UInt32.le_iff_toNat_le.mpr (Nat.le_of_add_right_le h.2.2.2)
  poolEnd_le := h.2.2.2
  enough := h.enough
  covers b hb := by
    have hmap := h.toNat_mapSectors
    have hbits := Nat.lt_of_lt_of_le hb h.2.2.1
    have hlt : b / bitsPerSector < g.mapSectors.toNat :=
      Nat.div_lt_of_lt_mul (Nat.mul_comm .. ▸ hbits)
    rw [mem_mapRun]
    exact ⟨Nat.le_add_right .., by omega⟩
  mapSectors_eq σ := by
    have hmap := h.toNat_mapSectors
    rw [Strict.minus_of_le (by omega)]
    congr 1
    omega
  run := h.runOrRefused
  run_eq _ := Strict.runSector_eq h

/-- A new disk of four sectors or more is divided into its three parts, and its superblock tells so
on disks that are large enough and no others.  What a disk accepts of any superblock is usable.  No
number on the way leaves its width. -/
theorem parts_of_disk {σ : Type} :
    (∀ total : UInt32, (Strict.format total : Strict σ Geometry) = .lift (format total)
      ∧ (4 ≤ total → ∃ g, format total = .ok g ∧ g.Partitions total ∧ g.ReadsBack total)
      ∧ (total < 4 → format total = .error .outOfDiskSpace))
    ∧ ∀ (s : Superblock) (total : UInt32),
      (Strict.geometryOn s total : Strict σ Geometry) = .lift (s.geometryOn total)
      ∧ ∀ g, s.geometryOn total = .ok g → g.Usable total := by
  constructor
  · intro total
    refine ⟨Strict.format_eq total, fun h => ?_, format_of_lt⟩
    obtain ⟨g, hg⟩ := exists_format h
    exact ⟨g, hg, partitions_of_format hg, readsBack_of_format hg⟩
  · intro s total
    exact ⟨Strict.geometryOn_eq s total, fun g hg => (fits_of_geometryOn hg).usable⟩

/-- One bit more than a sector holds takes a second sector of the block map, and a pool may end
with the last sector that there can be. -/
theorem parts_of_disk_at_limits :
    4 ≤ (4098 : UInt32) ∧ format 4098 = .ok ⟨4095, 1, 3⟩
      ∧ Partitions ⟨4095, 1, 3⟩ 4098 ∧ ReadsBack ⟨4095, 1, 3⟩ 4098
      ∧ (Superblock.ofGeometry ⟨10, 0xfffffff0, 0xfffffff5⟩ 0 1).geometryOn 0xffffffff
        = .ok ⟨10, 0xfffffff0, 0xfffffff5⟩
      ∧ Usable ⟨10, 0xfffffff0, 0xfffffff5⟩ 0xffffffff := by
  have hfour : 4 ≤ (4098 : UInt32) := by decide
  have hformat : format 4098 = .ok ⟨4095, 1, 3⟩ := by decide
  have haccepted : (Superblock.ofGeometry ⟨10, 0xfffffff0, 0xfffffff5⟩ 0 1).geometryOn 0xffffffff
      = .ok ⟨10, 0xfffffff0, 0xfffffff5⟩ := by decide
  obtain ⟨hnew, hread⟩ := @parts_of_disk Unit
  obtain ⟨g, hg, hparts, hback⟩ := (hnew 4098).2.1 hfour
  obtain rfl := Except.ok.inj (hformat.symm.trans hg)
  exact ⟨hfour, hformat, hparts, hback, haccepted, (hread _ _).2 _ haccepted⟩

end Geometry

end SectorFs

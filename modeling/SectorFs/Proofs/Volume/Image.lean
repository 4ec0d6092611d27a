import SectorFs.Proofs.Tree.Namespace
import SectorFs.Proofs.Volume.Plan

/-!
# Images

The image of a tree is on a disk when every part of it is in the place that a pass gives
it (`Pass.OnDisk`), which is where a pass that takes all its steps puts it
(`onDisk_of_steps`).  The part of it that lies in the pool holds all of the tree
(`Pass.InPool`), and stays while these blocks stay as they are.
-/

namespace SectorFs

open Attempt

namespace Pass

/-- What a tree takes of the pool is on a disk. -/
structure InPool (g : Geometry) (t : Tree) (d : MemoryDisk) : Prop where
  geometry_fits : g.Fits d.totalSectors
  end_le : blocksUsed t ≤ g.blockCount.toNat
  chunks_held : d.Holds g.poolStart.toNat (chunksOf t)
  inodeMap_held : d.Holds (g.poolStart.toNat + chunkCount t) (inodeMapOf t)
  payload_held : ∀ i n, (i, placementAt n i) ∈ placedOf t → n + spaceOf i ≤ blocksUsed t →
    ∃ bytes, i.payload = .ok bytes ∧ d.Holds (g.poolStart.toNat + n) (Sector.split bytes)
      ∧ (directBlocks < payloadBlocks i → d.Holds (g.poolStart.toNat + (n + payloadBlocks i))
        [.ofWords (placementAt n i).overflow])

/-- The image of a tree with the given block map is on a disk. -/
structure OnDisk (g : Geometry) (t : Tree) (m : BlockMap) (d : MemoryDisk) : Prop
    extends InPool g t d where
  map_firstUsed : m.FirstUsed (blocksUsed t)
  map_blocks : m.blocks = g.blockCount.toNat
  map_held : ∃ sectors, m.toSectors g.mapSectors.toNat = .ok sectors
    ∧ d.Holds g.mapStart.toNat sectors
  superblock_held : d.Holds 0 [(superblockOf g t).toSector]

variable {g : Geometry} {total : UInt32} {t : Tree}

theorem payload_of_no_blocks {i : Inode} (h : payloadBlocks i = 0) : i.payload = .ok [] := by
  have hsize : i.payloadSize = 0 := by
    have := le_mul_partsOf i.payloadSize (show 0 < sectorSize by decide)
    rw [show partsOf i.payloadSize sectorSize = 0 from h] at this
    omega
  obtain ⟨links, content⟩ := i
  cases content with
  | free => rfl
  | file buffer =>
    have hz : buffer.items = #[] := Array.eq_empty_of_size_eq_zero hsize
    rw [Inode.payload]
    simp only [hz]
  | directory entries =>
    have hz : entries.items = #[] := by
      refine Array.eq_empty_of_size_eq_zero ?_
      have h0 : entries.items.size * entrySize = 0 := hsize
      rw [entrySize] at h0
      omega
    rw [Inode.payload]
    simp only [hz]
    rfl

/-- A pass that takes all its steps puts the image on the disk. -/
theorem onDisk_of_steps {p : Pass} {mapSectors : List Sector} {d : MemoryDisk}
    (hg : g.Fits d.totalSectors) (hp : Planned g t p mapSectors)
    (hfit : ∀ s ∈ p.steps, s.Fits d.totalSectors) :
    OnDisk g t p.map (Step.applyAll p.steps d) := by
  have hend := hp.end_le
  have hstart := payloadStart_le t
  have hsum : payloadStart t = chunkCount t + partsOf (chunkCount t) chunksPerMapBlock := rfl
  have held : ∀ lba sectors, Step.write lba sectors ∈ p.steps →
      (Step.applyAll p.steps d).Holds lba.toNat sectors := fun _ _ hs =>
    Step.holds_applyAll (hp.disjoint_steps hg) hs (hfit _ hs)
  have closing : ∀ {s}, s ∈ closingSteps g t mapSectors → s ∈ p.steps := fun hs => by
    rw [hp.steps_eq]
    exact List.mem_append_right _ hs
  have hpool : ∀ {n}, n ≤ g.blockCount.toNat →
      (g.poolStart + UInt32.ofNat n).toNat = g.poolStart.toNat + n :=
    fun h => Step.toNat_poolStart_add hg h
  refine ⟨⟨by rw [Step.totalSectors_applyAll]; exact hg, hend, ?_, ?_, fun i n hi hn => ?_⟩,
    hp.map_firstUsed, hp.map_blocks, ⟨mapSectors, hp.map_sectors, ?_⟩, ?_⟩
  · have := held (g.poolStart + UInt32.ofNat 0) (chunksOf t) (closing (by simp [closingSteps]))
    rwa [hpool (Nat.zero_le _)] at this
  · have := held (g.poolStart + UInt32.ofNat (chunkCount t)) (inodeMapOf t)
      (closing (by simp [closingSteps]))
    rwa [hpool (by omega)] at this
  · have hle : n + spaceOf i ≤ g.blockCount.toNat := Nat.le_trans hn hend
    have hspace : payloadBlocks i ≤ spaceOf i := by
      rw [spaceOf]
      split <;> omega
    have hmem : ∀ {s}, s ∈ payloadSteps g (i, placementAt n i) → s ∈ p.steps := fun hs => by
      rw [hp.steps_eq]
      exact List.mem_append_left _ (List.mem_flatMap.mpr ⟨_, hi, hs⟩)
    rw [payloadSteps_eq hle] at hmem
    by_cases hz : payloadBlocks i = 0
    · refine ⟨[], payload_of_no_blocks hz, fun k hk => absurd hk (Nat.not_lt_zero k), fun hbig => ?_⟩
      rw [hz] at hbig
      exact absurd hbig (by decide)
    · rw [if_neg hz] at hmem
      cases hpay : i.payload with
      | error f =>
        simp only [hpay] at hmem
        exact (hfit _ (hmem (List.mem_singleton_self _))).elim
      | ok bytes =>
        simp only [hpay] at hmem
        refine ⟨bytes, rfl, ?_, fun hbig => ?_⟩
        · have := held _ _ (hmem List.mem_cons_self)
          rwa [hpool (by omega)] at this
        · have := held _ _ (hmem (List.mem_cons_of_mem _ (by
            rw [if_pos hbig]
            exact List.mem_singleton_self _)))
          rwa [hpool (by omega)] at this
  · exact held _ _ (closing (by simp [closingSteps]))
  · exact held 0 _ (closing (by simp [closingSteps]))

/-- The image of a tree stays in the pool while its blocks stay as they are. -/
theorem InPool.of_agree {d e : MemoryDisk} (h : InPool g t d)
    (htotal : e.totalSectors = d.totalSectors)
    (he : ∀ i, g.poolStart.toNat ≤ i → i < g.poolStart.toNat + blocksUsed t →
      e.sector? i = d.sector? i) : InPool g t e := by
  have hstart := payloadStart_le t
  have hsum : payloadStart t = chunkCount t + partsOf (chunkCount t) chunksPerMapBlock := rfl
  have stays : ∀ {n run}, n + run.length ≤ blocksUsed t →
      d.Holds (g.poolStart.toNat + n) run → e.Holds (g.poolStart.toNat + n) run :=
    fun hn hd => hd.of_agree fun i h1 h2 => he i (by omega) (by omega)
  refine ⟨by rw [htotal]; exact h.geometry_fits, h.end_le, ?_, ?_, fun i n hi hn => ?_⟩
  · exact stays (n := 0) (by rw [length_chunksOf]; omega) h.chunks_held
  · exact stays (by rw [length_inodeMapOf]; omega) h.inodeMap_held
  · obtain ⟨bytes, hb, hdata, hlist⟩ := h.payload_held i n hi hn
    have hlen : (Sector.split bytes).length = payloadBlocks i := by
      rw [Sector.length_split, Inode.length_payload hb]
      rfl
    refine ⟨bytes, hb, stays ?_ hdata, fun hbig => stays ?_ (hlist hbig)⟩
    · rw [hlen]
      rw [spaceOf] at hn
      split at hn <;> omega
    · rw [spaceOf, if_pos hbig] at hn
      exact hn

end Pass

end SectorFs

import SectorFs.Proofs.Image.BlockMap
import SectorFs.Proofs.Image.InodeMap
import SectorFs.Proofs.Image.Record
import SectorFs.Proofs.Volume.Steps

/-!
# Where a pass puts things

A pass clears the block map and fills it from the front, so the places of all things can be told
beforehand: the chunks come first, the inode map behind them, and then one payload after
the other (`Pass.plan_ok`, with `placedFrom` for the payloads).  The steps of a pass
therefore touch no sector twice (`Planned.disjoint_steps`).
-/

namespace SectorFs

open Attempt

/-! ### Geometry -/

namespace Geometry

/-- A new disk has a block map from sector `1` on, and the pool takes what is left of it. -/
theorem format_eq_ok_iff {total : UInt32} {g : Geometry} :
    format total = .ok g ↔ minPoolSize ≤ g.blockCount.toNat ∧ g.mapStart = 1
      ∧ g.poolStart.toNat = 1 + partsOf (total.toNat - 1) bitsPerSector
      ∧ g.poolStart.toNat + g.blockCount.toNat = total.toNat := by
  have ht := total.toNat_lt
  have hparts : partsOf (total.toNat - 1) bitsPerSector = (total.toNat - 1 + 4095) / 4096 := rfl
  have hmin : minPoolSize = 2 := rfl
  have hpool : (UInt32.ofNat (1 + partsOf (total.toNat - 1) bitsPerSector)).toNat
      = 1 + partsOf (total.toNat - 1) bitsPerSector :=
    UInt32.toNat_ofNat_of_lt' (by rw [UInt32.size]; omega)
  have hblocks : (UInt32.ofNat (total.toNat - (1 + partsOf (total.toNat - 1) bitsPerSector))).toNat
      = total.toNat - (1 + partsOf (total.toNat - 1) bitsPerSector) :=
    UInt32.toNat_ofNat_of_lt' (by rw [UInt32.size]; omega)
  unfold format
  simp only []
  constructor
  · intro h
    split at h
    · cases h
    · rename_i hroom
      injection h with h
      subst h
      refine ⟨by rw [hblocks]; omega, rfl, hpool, ?_⟩
      rw [hpool, hblocks]
      omega
  · rintro ⟨hroom, hmap, hstart, hend⟩
    obtain ⟨blockCount, mapStart, poolStart⟩ := g
    have hcount : blockCount.toNat
        = total.toNat - (1 + partsOf (total.toNat - 1) bitsPerSector) := by
      simp only [] at hstart hend
      omega
    rw [if_neg (by simp only [] at hroom; omega)]
    congr
    · exact UInt32.toNat_inj.mp (hblocks.trans hcount.symm)
    · exact hmap.symm
    · exact UInt32.toNat_inj.mp (hpool.trans hstart.symm)

theorem fits_of_format {total : UInt32} {g : Geometry} (h : format total = .ok g) :
    g.Fits total := by
  obtain ⟨hroom, hmap, hstart, hend⟩ := format_eq_ok_iff.mp h
  have hparts : partsOf (total.toNat - 1) bitsPerSector = (total.toNat - 1 + 4095) / 4096 := rfl
  have hmin : minPoolSize = 2 := rfl
  have hone : g.mapStart.toNat = 1 := by rw [hmap]; rfl
  have hsectors : g.mapSectors.toNat = g.poolStart.toNat - g.mapStart.toNat :=
    UInt32.toNat_sub_of_le _ _ (UInt32.le_iff_toNat_le.mpr (by omega))
  refine ⟨by rw [hmap]; decide, UInt32.lt_iff_toNat_lt.mpr (by omega), ?_, hend.le⟩
  rw [hsectors, show bitsPerSector = 4096 from rfl]
  omega

theorem fits_of_geometryOn {s : Superblock} {total : UInt32} {g : Geometry}
    (h : s.geometryOn total = .ok g) : g.Fits total := by
  unfold Superblock.geometryOn at h
  split at h
  · rename_i hf
    injection h with h
    rwa [← h]
  · cases h

theorem Fits.lt {g : Geometry} {total : UInt32} (h : g.Fits total) :
    g.poolStart.toNat + g.blockCount.toNat < 2 ^ 32 :=
  Nat.lt_of_le_of_lt h.2.2.2 total.toNat_lt

theorem Fits.toNat_add {g : Geometry} {total : UInt32} (h : g.Fits total) {block : UInt32}
    (hb : block.toNat ≤ g.blockCount.toNat) :
    (g.poolStart + block).toNat = g.poolStart.toNat + block.toNat := by
  have := h.lt
  rw [UInt32.toNat_add, Nat.mod_eq_of_lt (by omega)]

theorem Fits.toNat_mapSectors {g : Geometry} {total : UInt32} (h : g.Fits total) :
    g.mapStart.toNat + g.mapSectors.toNat = g.poolStart.toNat := by
  have hlt := UInt32.lt_iff_toNat_lt.mp h.2.1
  rw [mapSectors, UInt32.toNat_sub_of_le _ _ (UInt32.le_iff_toNat_le.mpr hlt.le)]
  omega

end Geometry

/-! ### Payloads -/

namespace Pass

/-- The blocks that the payload of an inode fills. -/
def payloadBlocks (i : Inode) : Nat := partsOf i.payloadSize sectorSize

/-- The blocks that an inode takes, with the one that lists others. -/
def spaceOf (i : Inode) : Nat :=
  if directBlocks < payloadBlocks i then payloadBlocks i + 1 else payloadBlocks i

theorem payloadBlocks_of_isFree {i : Inode} (h : i.isFree = true) : payloadBlocks i = 0 := by
  obtain ⟨links, content⟩ := i
  cases content with
  | free => exact show partsOf 0 sectorSize = 0 by decide
  | file bytes => cases h
  | directory entries => cases h

theorem spaceOf_of_isFree {i : Inode} (h : i.isFree = true) : spaceOf i = 0 := by
  rw [spaceOf, payloadBlocks_of_isFree h]
  rfl

/-- The blocks of an inode whose run starts at block `n`. -/
def placementAt (n : Nat) (i : Inode) : Placement where
  blocks := blockRun n (payloadBlocks i)
  indirect :=
    if directBlocks < payloadBlocks i then some (UInt32.ofNat (n + payloadBlocks i)) else none

/-- Inodes whose runs come one after the other from block `n` on. -/
def placedFrom (n : Nat) : List Inode → List (Inode × Placement)
  | [] => []
  | i :: rest => (i, placementAt n i) :: placedFrom (n + spaceOf i) rest

/-- The first block behind those runs. -/
def placedEnd (n : Nat) : List Inode → Nat
  | [] => n
  | i :: rest => placedEnd (n + spaceOf i) rest

theorem place_firstUsed {m m' : BlockMap} {n : Nat} {i : Inode} {p : Placement}
    (h : m.FirstUsed n) (hp : place m i = .ok (p, m')) :
    p = placementAt n i ∧ m'.FirstUsed (n + spaceOf i) ∧ m'.blocks = m.blocks := by
  unfold place at hp
  simp only [] at hp
  split at hp
  · cases hp
  · split at hp
    · rename_i hzero
      injection hp with hp
      obtain ⟨rfl, rfl⟩ := Prod.ext_iff.mp hp
      have hz : payloadBlocks i = 0 := hzero
      have hs : spaceOf i = 0 := by
        rw [spaceOf, hz]
        rfl
      refine ⟨?_, by rw [hs]; exact h, rfl⟩
      rw [placementAt, hz]
      rfl
    · obtain ⟨⟨start, k⟩, ha, hp⟩ := except_bind_eq_ok_iff.mp hp
      obtain ⟨rfl, hk, hb, -⟩ := BlockMap.allocate_firstUsed h ha
      injection hp with hp
      obtain ⟨rfl, rfl⟩ := Prod.ext_iff.mp hp
      exact ⟨rfl, hk, hb⟩

theorem placeAll_firstUsed {m m' : BlockMap} {n : Nat} {slots : List Inode}
    {placed : List (Inode × Placement)} (h : m.FirstUsed n)
    (hp : placeAll m slots = .ok (placed, m')) :
    placed = placedFrom n slots ∧ m'.FirstUsed (placedEnd n slots) ∧ m'.blocks = m.blocks := by
  induction slots generalizing m n placed with
  | nil =>
    injection hp with hp
    obtain ⟨rfl, rfl⟩ := Prod.ext_iff.mp hp
    exact ⟨rfl, h, rfl⟩
  | cons i slots ih =>
    obtain ⟨⟨p, k⟩, hpi, hp⟩ := except_bind_eq_ok_iff.mp hp
    obtain ⟨⟨rest, l⟩, hrest, hp⟩ := except_bind_eq_ok_iff.mp hp
    injection hp with hp
    obtain ⟨rfl, rfl⟩ := Prod.ext_iff.mp hp
    obtain ⟨rfl, hk, hkb⟩ := place_firstUsed h hpi
    obtain ⟨rfl, hl, hlb⟩ := ih hk hrest
    exact ⟨rfl, hl, hlb.trans hkb⟩

theorem le_placedEnd (n : Nat) (slots : List Inode) : n ≤ placedEnd n slots := by
  induction slots generalizing n with
  | nil => exact Nat.le_refl n
  | cons i slots ih => exact Nat.le_trans (Nat.le_add_right ..) (ih _)

@[simp] theorem map_fst_placedFrom (n : Nat) (slots : List Inode) :
    (placedFrom n slots).map Prod.fst = slots := by
  induction slots generalizing n with
  | nil => rfl
  | cons i slots ih => rw [placedFrom, List.map_cons, ih]

theorem placementAt_of_mem {n : Nat} {slots : List Inode} {slot : Inode × Placement}
    (h : slot ∈ placedFrom n slots) :
    ∃ k, slot.2 = placementAt k slot.1 ∧ n ≤ k ∧ k + spaceOf slot.1 ≤ placedEnd n slots := by
  induction slots generalizing n with
  | nil => cases h
  | cons i slots ih =>
    rcases List.mem_cons.mp h with rfl | h
    · exact ⟨n, rfl, Nat.le_refl n, le_placedEnd ..⟩
    · obtain ⟨k, hk, hn, he⟩ := ih h
      exact ⟨k, hk, by omega, he⟩

/-- The blocks of an inode serve its payload, block `0` not being among them. -/
theorem serves_placementAt {n : Nat} {i : Inode} (hpos : 0 < n) (hlt : n + spaceOf i < 2 ^ 32) :
    (placementAt n i).Serves i.payloadSize where
  length_eq := length_blockRun ..
  nonzero b hb := by
    refine ne_zero_of_mem_blockRun hpos ?_ (List.mem_of_mem_drop hb)
    unfold spaceOf at hlt
    split at hlt <;> omega
  listed hbig := by
    have hbig : directBlocks < payloadBlocks i := by
      simpa [placementAt] using hbig
    refine ⟨_, if_pos hbig, ofNat_ne_zero (by omega) ?_⟩
    rw [spaceOf, if_pos hbig] at hlt
    omega

end Pass

/-! ### Steps -/

namespace Step

/-- A step writes to sectors from `a` on, before `b`, if it writes at all. -/
def Within (a b : Nat) (s : Step) : Prop :=
  match s with
  | write lba sectors => a ≤ lba.toNat ∧ lba.toNat + sectors.length ≤ b
  | _ => True

theorem Within.mono {a b c d : Nat} {s : Step} (h : s.Within a b) (hc : c ≤ a) (hd : b ≤ d) :
    s.Within c d := by
  cases s with
  | write lba sectors => exact ⟨Nat.le_trans hc h.1, Nat.le_trans h.2 hd⟩
  | flush => trivial
  | stop f => trivial

theorem Within.touches {a b i : Nat} {s : Step} (h : s.Within a b) (hi : s.Touches i) :
    a ≤ i ∧ i < b := by
  cases s with
  | write lba sectors => exact ⟨Nat.le_trans h.1 hi.1, Nat.lt_of_lt_of_le hi.2 h.2⟩
  | flush => exact hi.elim
  | stop f => exact hi.elim

theorem disjoint_of_within {r s : Step} {a b c d : Nat} (hr : r.Within a b) (hs : s.Within c d)
    (h : b ≤ c ∨ d ≤ a) : r.Disjoint s := by
  intro i hi hj
  have := hr.touches hi
  have := hs.touches hj
  omega

theorem within_write (lba : UInt32) (sectors : List Sector) :
    (write lba sectors).Within lba.toNat (lba.toNat + sectors.length) :=
  ⟨Nat.le_refl _, Nat.le_refl _⟩

theorem writeRun_eq {g : Geometry} {start : Nat} {sectors : List Sector}
    (h : start + sectors.length ≤ g.blockCount.toNat) :
    writeRun g (UInt32.ofNat start) sectors = write (g.poolStart + UInt32.ofNat start) sectors := by
  have hlt := g.blockCount.toNat_lt
  have h1 : (UInt32.ofNat start).toNat = start := by
    rw [UInt32.toNat_ofNat', Nat.mod_eq_of_lt (by omega)]
  have h2 : (UInt32.ofNat sectors.length).toNat = sectors.length := by
    rw [UInt32.toNat_ofNat', Nat.mod_eq_of_lt (by omega)]
  have hrun : g.runSector (UInt32.ofNat start) (UInt32.ofNat sectors.length)
      = .ok (g.poolStart + UInt32.ofNat start) :=
    Geometry.runSector_eq_ok_iff.mpr ⟨by rw [h1, h2]; exact h, rfl⟩
  rw [writeRun, hrun]

theorem toNat_poolStart_add {g : Geometry} {total : UInt32} (hg : g.Fits total) {n : Nat}
    (h : n ≤ g.blockCount.toNat) :
    (g.poolStart + UInt32.ofNat n).toNat = g.poolStart.toNat + n := by
  have hlt := g.blockCount.toNat_lt
  have hn : (UInt32.ofNat n).toNat = n := by
    rw [UInt32.toNat_ofNat', Nat.mod_eq_of_lt (by omega)]
  rw [hg.toNat_add (by rw [hn]; exact h), hn]

theorem writeMap_eq {g : Geometry} {total : UInt32} (hg : g.Fits total) {m : BlockMap}
    (hm : m.blocks = g.blockCount.toNat) :
    ∃ sectors, m.toSectors g.mapSectors.toNat = .ok sectors
      ∧ sectors.length = g.mapSectors.toNat ∧ writeMap g m = write g.mapStart sectors := by
  have hfit : ¬sectorSize * g.mapSectors.toNat < m.bytes.size := by
    have h1 : g.blockCount.toNat ≤ g.mapSectors.toNat * 4096 := hg.2.2.1
    rw [m.size_eq, hm, partsOf, sectorSize]
    omega
  have hs : m.toSectors g.mapSectors.toNat
      = .ok ((pieces sectorSize g.mapSectors.toNat m.bytes.toList).map Sector.ofBytes) := by
    rw [BlockMap.toSectors, if_neg hfit]
  exact ⟨_, hs, BlockMap.length_toSectors hs, by rw [writeMap, hs]⟩

end Step

namespace Pass

variable {g : Geometry} {total : UInt32}

theorem payloadSteps_eq {n : Nat} {i : Inode} (hn : n + spaceOf i ≤ g.blockCount.toNat) :
    payloadSteps g (i, placementAt n i)
      = if payloadBlocks i = 0 then []
        else match i.payload with
          | .error f => [.stop f]
          | .ok bytes => .write (g.poolStart + UInt32.ofNat n) (Sector.split bytes)
              :: if directBlocks < payloadBlocks i then
                [.write (g.poolStart + UInt32.ofNat (n + payloadBlocks i))
                  [.ofWords (placementAt n i).overflow]]
              else [] := by
  obtain ⟨k, hk⟩ : ∃ k, payloadBlocks i = k := ⟨_, rfl⟩
  have hspace : k ≤ spaceOf i := by
    rw [spaceOf, hk]
    split <;> omega
  have hblocks : (placementAt n i).blocks = blockRun n k := by rw [placementAt, hk]
  rw [hk]
  cases k with
  | zero =>
    rw [payloadSteps, if_pos rfl]
    simp only [hblocks]
    rfl
  | succ k =>
    have hcons : blockRun n (k + 1) = UInt32.ofNat n :: blockRun (n + 1) k := rfl
    rw [payloadSteps, if_neg (Nat.succ_ne_zero k)]
    simp only [hblocks, hcons]
    cases hp : i.payload with
    | error f => rfl
    | ok bytes =>
      have hlen : (Sector.split bytes).length = k + 1 := by
        rw [Sector.length_split, Inode.length_payload hp]
        exact hk
      simp only []
      rw [Step.writeRun_eq (by rw [hlen]; omega)]
      by_cases hbig : directBlocks < k + 1
      · have hind : (placementAt n i).indirect = some (UInt32.ofNat (n + (k + 1))) := by
          rw [placementAt, hk, if_pos hbig]
        have hrun : n + (k + 1) + 1 ≤ g.blockCount.toNat := by
          rw [spaceOf, hk, if_pos hbig] at hn
          exact hn
        rw [if_pos hbig, Placement.indirectSector?, hind]
        simp only [Option.map_some]
        rw [Step.writeRun_eq (by simpa using hrun)]
      · have hind : (placementAt n i).indirect = none := by
          rw [placementAt, hk, if_neg hbig]
        rw [if_neg hbig, hind]

theorem within_payloadSteps (hg : g.Fits total) {n : Nat} {i : Inode}
    (hn : n + spaceOf i ≤ g.blockCount.toNat) :
    (payloadSteps g (i, placementAt n i)).Pairwise Step.Disjoint
      ∧ ∀ s ∈ payloadSteps g (i, placementAt n i),
        s.Within (g.poolStart.toNat + n) (g.poolStart.toNat + (n + spaceOf i)) := by
  have hspace : payloadBlocks i ≤ spaceOf i := by
    rw [spaceOf]
    split <;> omega
  rw [payloadSteps_eq hn]
  split
  · exact ⟨.nil, fun _ hs => absurd hs List.not_mem_nil⟩
  · cases hp : i.payload with
    | error f =>
      refine ⟨List.pairwise_singleton .., fun s hs => ?_⟩
      rw [List.mem_singleton.mp hs]
      trivial
    | ok bytes =>
      have hdata : (Step.write (g.poolStart + UInt32.ofNat n) (Sector.split bytes)).Within
          (g.poolStart.toNat + n) (g.poolStart.toNat + (n + payloadBlocks i)) := by
        have := Step.within_write (g.poolStart + UInt32.ofNat n) (Sector.split bytes)
        rw [Sector.length_split, Inode.length_payload hp,
          Step.toNat_poolStart_add hg (by omega), Nat.add_assoc] at this
        exact this
      simp only []
      split
      · rename_i hbig
        have hs : spaceOf i = payloadBlocks i + 1 := if_pos hbig
        have hlist : (Step.write (g.poolStart + UInt32.ofNat (n + payloadBlocks i))
            [.ofWords (placementAt n i).overflow]).Within
            (g.poolStart.toNat + (n + payloadBlocks i))
            (g.poolStart.toNat + (n + spaceOf i)) := by
          have := Step.within_write (g.poolStart + UInt32.ofNat (n + payloadBlocks i))
            [.ofWords (placementAt n i).overflow]
          rw [Step.toNat_poolStart_add hg (by omega)] at this
          rw [hs]
          exact this
        refine ⟨?_, fun s hs => ?_⟩
        · rw [List.pairwise_pair]
          exact Step.disjoint_of_within hdata hlist (.inl (Nat.le_refl _))
        · rcases List.mem_cons.mp hs with rfl | hs
          · exact hdata.mono (Nat.le_refl _) (by omega)
          · rw [List.mem_singleton.mp hs]
            exact hlist.mono (by omega) (Nat.le_refl _)
      · refine ⟨List.pairwise_singleton .., fun s hs => ?_⟩
        rw [List.mem_singleton.mp hs]
        exact hdata.mono (Nat.le_refl _) (by omega)

/-- The payloads of all inodes lie one behind the other. -/
theorem within_placedFrom (hg : g.Fits total) {n : Nat} {slots : List Inode}
    (hn : placedEnd n slots ≤ g.blockCount.toNat) :
    ((placedFrom n slots).flatMap (payloadSteps g)).Pairwise Step.Disjoint
      ∧ ∀ s ∈ (placedFrom n slots).flatMap (payloadSteps g),
        s.Within (g.poolStart.toNat + n) (g.poolStart.toNat + placedEnd n slots) := by
  induction slots generalizing n with
  | nil => exact ⟨.nil, fun _ hs => absurd hs List.not_mem_nil⟩
  | cons i slots ih =>
    have hle := le_placedEnd (n + spaceOf i) slots
    have hend : placedEnd n (i :: slots) = placedEnd (n + spaceOf i) slots := rfl
    rw [hend] at hn ⊢
    obtain ⟨hp, hw⟩ := within_payloadSteps hg (i := i) (n := n) (Nat.le_trans hle hn)
    obtain ⟨hps, hws⟩ := ih hn
    rw [placedFrom, List.flatMap_cons]
    refine ⟨List.pairwise_append.mpr ⟨hp, hps, fun a ha b hb => ?_⟩, fun s hs => ?_⟩
    · exact Step.disjoint_of_within (hw a ha) (hws b hb) (.inl (Nat.le_refl _))
    · rcases List.mem_append.mp hs with hs | hs
      · exact (hw s hs).mono (Nat.le_refl _) (by omega)
      · exact (hws s hs).mono (by omega) (Nat.le_refl _)

/-! ### The whole plan -/

/-- The slots that the chunks have records for. -/
def slotsOf (t : Tree) : List Inode := t.slots.toList.take (chunkCount t * recordsPerChunk)

/-- The first block behind the chunks and the inode map. -/
def payloadStart (t : Tree) : Nat := chunkCount t + partsOf (chunkCount t) chunksPerMapBlock

/-- Number of blocks that a tree takes. -/
def blocksUsed (t : Tree) : Nat := placedEnd (payloadStart t) (slotsOf t)

/-- Where the payloads of a tree go. -/
def placedOf (t : Tree) : List (Inode × Placement) := placedFrom (payloadStart t) (slotsOf t)

def chunksOf (t : Tree) : List Sector :=
  Record.toChunks ((placedOf t).map recordOf) (chunkCount t)

def inodeMapOf (t : Tree) : List Sector :=
  InodeMap.sectors 0 (chunkCount t) (chunkCount t)

def superblockOf (g : Geometry) (t : Tree) : Superblock :=
  .ofGeometry g (UInt32.ofNat (chunkCount t)) (UInt32.ofNat (chunkCount t))

/-- The steps behind the payloads, given the sectors of the block map. -/
def closingSteps (g : Geometry) (t : Tree) (mapSectors : List Sector) : List Step :=
  [.write (g.poolStart + UInt32.ofNat 0) (chunksOf t),
    .write (g.poolStart + UInt32.ofNat (chunkCount t)) (inodeMapOf t),
    .write g.mapStart mapSectors,
    .write 0 [(superblockOf g t).toSector],
    .flush]

theorem lastUsedBelow_le (slots : Array Inode) (n : Nat) : Tree.lastUsedBelow slots n ≤ n - 1 := by
  induction n with
  | zero => exact Nat.le_refl 0
  | succ n ih =>
    rw [Tree.lastUsedBelow]
    split
    · exact Nat.le_trans ih (by omega)
    · omega

theorem chunkCount_pos (t : Tree) : 0 < chunkCount t := by
  rw [chunkCount, partsOf, show recordsPerChunk = 8 from rfl]
  omega

theorem chunkCount_le (t : Tree) : chunkCount t ≤ 1024 := by
  have h1 : t.lastUsed ≤ t.slots.size - 1 := lastUsedBelow_le ..
  have h2 : t.slots.size ≤ 8192 := t.size_le_max
  have h3 : recordsPerChunk = 8 := rfl
  rw [chunkCount, partsOf, h3]
  omega

theorem length_chunksOf (t : Tree) : (chunksOf t).length = chunkCount t := by
  rw [chunksOf, Record.toChunks, List.length_map, length_pieces]

theorem length_inodeMapOf (t : Tree) :
    (inodeMapOf t).length = partsOf (chunkCount t) chunksPerMapBlock := by
  rw [inodeMapOf, InodeMap.sectors, List.length_map, List.length_range]

theorem length_placedOf_le (t : Tree) :
    (placedOf t).length ≤ chunkCount t * recordsPerChunk := by
  rw [← List.length_map (f := Prod.fst), placedOf, map_fst_placedFrom, slotsOf]
  exact List.length_take_le ..

theorem payloadStart_le (t : Tree) : payloadStart t ≤ blocksUsed t := le_placedEnd ..

/-- What a plan is made of. -/
structure Planned (g : Geometry) (t : Tree) (p : Pass) (mapSectors : List Sector) : Prop where
  end_le : blocksUsed t ≤ g.blockCount.toNat
  map_firstUsed : p.map.FirstUsed (blocksUsed t)
  map_blocks : p.map.blocks = g.blockCount.toNat
  map_sectors : p.map.toSectors g.mapSectors.toNat = .ok mapSectors
  superblock_eq : p.superblock = superblockOf g t
  steps_eq : p.steps
    = (placedOf t).flatMap (payloadSteps g) ++ closingSteps g t mapSectors

theorem plan_ok (hg : g.Fits total) {m : PoolMap g} {t : Tree} {p : Pass}
    (h : plan g m t = .ok p) : ∃ mapSectors, Planned g t p mapSectors := by
  rw [plan, m.clear_eq] at h
  obtain ⟨⟨chunkStart, m₁⟩, h₁, h⟩ := except_bind_eq_ok_iff.mp h
  obtain ⟨⟨mapStart, m₂⟩, h₂, h⟩ := except_bind_eq_ok_iff.mp h
  obtain ⟨⟨placed, m₃⟩, h₃, h⟩ := except_bind_eq_ok_iff.mp h
  injection h with h
  obtain ⟨rfl, hf₁, hb₁, -⟩ := BlockMap.allocate_firstUsed (BlockMap.firstUsed_empty _) h₁
  obtain ⟨rfl, hf₂, hb₂, -⟩ := BlockMap.allocate_firstUsed hf₁ h₂
  obtain ⟨rfl, hf₃, hb₃⟩ := placeAll_firstUsed hf₂ h₃
  rw [Nat.zero_add] at hf₃
  have hblocks : m₃.blocks = g.blockCount.toNat := hb₃.trans (hb₂.trans hb₁)
  have hend : blocksUsed t ≤ g.blockCount.toNat :=
    hblocks ▸ hf₃.le_blocks
  have hstart := payloadStart_le t
  obtain ⟨mapSectors, hms, -, hw⟩ := Step.writeMap_eq hg hblocks
  refine ⟨mapSectors, hend, ?_, ?_, ?_, ?_, ?_⟩
  · rw [← h]
    exact hf₃
  · rw [← h]
    exact hblocks
  · rw [← h]
    exact hms
  · rw [← h]
    show Superblock.ofGeometry g (UInt32.ofNat (0 + chunkCount t)) _ = _
    rw [Nat.zero_add]
    rfl
  · have hchunks : Step.writeRun g (UInt32.ofNat 0) (chunksOf t)
        = .write (g.poolStart + UInt32.ofNat 0) (chunksOf t) := by
      refine Step.writeRun_eq ?_
      rw [length_chunksOf]
      unfold payloadStart at hend hstart
      omega
    have himap : Step.writeRun g (UInt32.ofNat (chunkCount t)) (inodeMapOf t)
        = .write (g.poolStart + UInt32.ofNat (chunkCount t)) (inodeMapOf t) := by
      refine Step.writeRun_eq ?_
      rw [length_inodeMapOf]
      exact Nat.le_trans hstart hend
    rw [← h]
    simp only [Nat.zero_add]
    rw [closingSteps, ← hchunks, ← himap, ← hw]
    rfl

theorem Planned.length_mapSectors {t : Tree} {p : Pass} {mapSectors : List Sector}
    (hp : Planned g t p mapSectors) : mapSectors.length = g.mapSectors.toNat :=
  BlockMap.length_toSectors hp.map_sectors

/-- Where the parts behind the payloads go. -/
theorem Planned.places (hg : g.Fits total) {t : Tree} {p : Pass} {mapSectors : List Sector}
    (hp : Planned g t p mapSectors) :
    (Step.write (g.poolStart + UInt32.ofNat 0) (chunksOf t)).Within g.poolStart.toNat
        (g.poolStart.toNat + chunkCount t)
      ∧ (Step.write (g.poolStart + UInt32.ofNat (chunkCount t)) (inodeMapOf t)).Within
        (g.poolStart.toNat + chunkCount t) (g.poolStart.toNat + payloadStart t)
      ∧ (Step.write g.mapStart mapSectors).Within g.mapStart.toNat g.poolStart.toNat
      ∧ (Step.write 0 [(superblockOf g t).toSector]).Within 0 1 := by
  have hend := hp.end_le
  have hstart := payloadStart_le t
  have hsum : payloadStart t = chunkCount t + partsOf (chunkCount t) chunksPerMapBlock := rfl
  have hchunks := Step.within_write (g.poolStart + UInt32.ofNat 0) (chunksOf t)
  rw [Step.toNat_poolStart_add hg (Nat.zero_le _), length_chunksOf, Nat.add_zero] at hchunks
  have himap := Step.within_write (g.poolStart + UInt32.ofNat (chunkCount t)) (inodeMapOf t)
  rw [Step.toNat_poolStart_add hg (by omega), length_inodeMapOf, Nat.add_assoc] at himap
  have hbits := Step.within_write g.mapStart mapSectors
  rw [hp.length_mapSectors, hg.toNat_mapSectors] at hbits
  exact ⟨hchunks, himap, hbits, Step.within_write 0 [(superblockOf g t).toSector]⟩

theorem Planned.within_closing (hg : g.Fits total) {t : Tree} {p : Pass}
    {mapSectors : List Sector} (hp : Planned g t p mapSectors) :
    ∀ s ∈ closingSteps g t mapSectors, s.Within 0 (g.poolStart.toNat + payloadStart t) := by
  have hlt : 0 < g.poolStart.toNat := Nat.zero_lt_of_lt (UInt32.lt_iff_toNat_lt.mp hg.2.1)
  have hsum : payloadStart t = chunkCount t + partsOf (chunkCount t) chunksPerMapBlock := rfl
  obtain ⟨hchunks, himap, hbits, hsuper⟩ := hp.places hg
  intro s hs
  simp only [closingSteps, List.mem_cons, List.not_mem_nil, or_false] at hs
  rcases hs with rfl | rfl | rfl | rfl | rfl
  · exact hchunks.mono (Nat.zero_le _) (by omega)
  · exact himap.mono (Nat.zero_le _) (Nat.le_refl _)
  · exact hbits.mono (Nat.zero_le _) (by omega)
  · exact hsuper.mono (Nat.zero_le _) (by omega)
  · trivial

/-- A pass writes to the disk only. -/
theorem Planned.within_steps (hg : g.Fits total) {t : Tree} {p : Pass} {mapSectors : List Sector}
    (hp : Planned g t p mapSectors) : ∀ s ∈ p.steps, s.Within 0 total.toNat := by
  have hend := hp.end_le
  have hstart := payloadStart_le t
  have htotal := hg.2.2.2
  intro s hs
  rw [hp.steps_eq] at hs
  rcases List.mem_append.mp hs with hs | hs
  · exact ((within_placedFrom hg hend).2 s hs).mono (Nat.zero_le _)
      (Nat.le_trans (Nat.add_le_add_left hend _) htotal)
  · exact (hp.within_closing hg s hs).mono (Nat.le_refl _) (by omega)

/-- No sector is written twice. -/
theorem Planned.disjoint_steps (hg : g.Fits total) {t : Tree} {p : Pass}
    {mapSectors : List Sector} (hp : Planned g t p mapSectors) :
    p.steps.Pairwise Step.Disjoint := by
  have hpos : 0 < g.mapStart.toNat := UInt32.lt_iff_toNat_lt.mp hg.1
  have hlt : g.mapStart.toNat < g.poolStart.toNat := UInt32.lt_iff_toNat_lt.mp hg.2.1
  obtain ⟨hpair, hwithin⟩ := within_placedFrom hg hp.end_le
  obtain ⟨hchunks, himap, hbits, hsuper⟩ := hp.places hg
  have hflush : Step.flush.Within 0 0 := trivial
  rw [hp.steps_eq]
  refine List.pairwise_append.mpr ⟨hpair, ?_, fun a ha b hb => ?_⟩
  · simp only [closingSteps, List.pairwise_cons, List.mem_cons, List.not_mem_nil, or_false,
      forall_eq_or_imp, forall_eq, false_imp_iff, implies_true, List.Pairwise.nil, and_true]
    refine ⟨⟨?_, ?_, ?_, ?_⟩, ⟨?_, ?_, ?_⟩, ⟨?_, ?_⟩, ?_⟩
    · exact Step.disjoint_of_within hchunks himap (.inl (Nat.le_refl _))
    · exact Step.disjoint_of_within hchunks hbits (.inr (Nat.le_refl _))
    · exact Step.disjoint_of_within hchunks hsuper (.inr (by omega))
    · exact Step.disjoint_of_within hchunks hflush (.inr (Nat.zero_le _))
    · exact Step.disjoint_of_within himap hbits (.inr (by omega))
    · exact Step.disjoint_of_within himap hsuper (.inr (by omega))
    · exact Step.disjoint_of_within himap hflush (.inr (Nat.zero_le _))
    · exact Step.disjoint_of_within hbits hsuper (.inr (by omega))
    · exact Step.disjoint_of_within hbits hflush (.inr (Nat.zero_le _))
    · exact Step.disjoint_of_within hsuper hflush (.inr (Nat.zero_le _))
  · exact Step.disjoint_of_within (hwithin a ha) (hp.within_closing hg b hb)
      (.inr (Nat.le_refl _))

end Pass

end SectorFs

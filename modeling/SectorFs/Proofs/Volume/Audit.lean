import SectorFs.Proofs.Volume.RoundTrip

/-!
# What an audit finds

An audit walks the image on its own: it follows the inode map, reads the records of the
chunks and asks each for its blocks.  `Audit.Inventory` has all blocks that an image refers
to, by what they are for, and an audit ends well just when they can be listed and lie in the
pool, and reports how often each of them is referred to (`Audit.run_ok_iff`).

What a pass leaves is listed without a disagreement (`Volume.audit_of_sync`): the blocks
that the image refers to are the first of the pool, each of them once, and these are the
blocks that the map has in use.
-/

namespace SectorFs

open Attempt

namespace Audit

/-! ### Counting -/

/-- Counts with one more for each block of a list. -/
def tally (counts : Array Nat) (blocks : List UInt32) : Array Nat :=
  blocks.foldl (fun counts b => counts.modify b.toNat (· + 1)) counts

@[simp] theorem size_tally (counts : Array Nat) (blocks : List UInt32) :
    (tally counts blocks).size = counts.size := by
  induction blocks generalizing counts with
  | nil => rfl
  | cons b blocks ih => exact (ih _).trans Array.size_modify

theorem tally_append (counts : Array Nat) (a b : List UInt32) :
    tally counts (a ++ b) = tally (tally counts a) b :=
  List.foldl_append

theorem getD_tally {counts : Array Nat} {b : Nat} (hb : b < counts.size) (blocks : List UInt32) :
    (tally counts blocks).getD b 0 = counts.getD b 0 + (blocks.map UInt32.toNat).count b := by
  induction blocks generalizing counts with
  | nil => rfl
  | cons c blocks ih =>
    have hstep : (counts.modify c.toNat (· + 1)).getD b 0
        = counts.getD b 0 + if c.toNat = b then 1 else 0 := by
      rw [Array.getD_eq_getD_getElem?, Array.getD_eq_getD_getElem?, Array.getElem?_modify,
        Array.getElem?_eq_getElem hb]
      split <;> rfl
    have hrest : (tally counts (c :: blocks)).getD b 0
        = (tally (counts.modify c.toNat (· + 1)) blocks).getD b 0 := rfl
    rw [hrest, ih (by rwa [Array.size_modify]), hstep, List.map_cons, List.count_cons]
    simp only [beq_iff_eq]
    omega

theorem getD_tally_replicate {n b : Nat} (hb : b < n) (blocks : List UInt32) :
    (tally (Array.replicate n 0) blocks).getD b 0 = (blocks.map UInt32.toNat).count b := by
  have hzero : (Array.replicate n 0).getD b 0 = 0 := by
    rw [Array.getD_eq_getD_getElem?, Array.getElem?_replicate]
    split <;> rfl
  rw [getD_tally (by rwa [Array.size_replicate]), hzero, Nat.zero_add]

theorem tally_perm {a b : List UInt32} (h : a.Perm b) (counts : Array Nat) :
    tally counts a = tally counts b := by
  apply Array.ext
  · rw [size_tally, size_tally]
  · intro i hi hi'
    rw [size_tally] at hi
    have hsame : (tally counts a).getD i 0 = (tally counts b).getD i 0 := by
      rw [getD_tally hi, getD_tally hi, (h.map UInt32.toNat).count_eq i]
    simpa [Array.getD_eq_getD_getElem?, hi] using hsame

theorem count_ok_iff {counts r : Array Nat} {b : UInt32} :
    count counts b = .ok r ↔ b.toNat < counts.size ∧ r = tally counts [b] := by
  unfold count
  split
  · rename_i hb
    exact ⟨fun h => ⟨hb, (Except.ok.inj h).symm⟩, fun h => by rw [h.2]; rfl⟩
  · rename_i hb
    exact ⟨nofun, fun h => absurd h.1 hb⟩

theorem countAll_ok_iff {counts r : Array Nat} {blocks : List UInt32} :
    blocks.foldlM count counts = .ok r
      ↔ (∀ b ∈ blocks, b.toNat < counts.size) ∧ r = tally counts blocks := by
  induction blocks generalizing counts with
  | nil =>
    constructor
    · intro h
      exact ⟨fun _ hb => absurd hb List.not_mem_nil, (Except.ok.inj h).symm⟩
    · rintro ⟨-, rfl⟩
      rfl
  | cons b blocks ih =>
    rw [List.foldlM_cons, except_bind_eq_ok_iff, List.forall_mem_cons]
    constructor
    · rintro ⟨c, hc, h⟩
      obtain ⟨hb, rfl⟩ := count_ok_iff.mp hc
      obtain ⟨hall, hr⟩ := ih.mp h
      rw [size_tally] at hall
      exact ⟨⟨hb, hall⟩, hr⟩
    · rintro ⟨⟨hb, hall⟩, hr⟩
      exact ⟨_, count_ok_iff.mpr ⟨hb, rfl⟩, ih.mpr ⟨by rwa [size_tally], hr⟩⟩

/-! ### What a record refers to -/

variable {g : Geometry} {d e : MemoryDisk}

/-- The blocks of the payload of a record, as they are listed on a disk. -/
def payloadOf (g : Geometry) (d : MemoryDisk) (r : Record) : List UInt32 :=
  if r.isFree then []
  else
    match r.payloadBlocks (Reading.readBlock g) d with
    | .ok blocks _ => blocks
    | .error _ _ => []

/-- The indirect block of a record, if it has one. -/
def indirectOf (r : Record) : List UInt32 :=
  if r.isFree = true ∨ r.indirect = 0 then [] else [r.indirect]

/-- A record is free or its blocks can be listed. -/
def Listable (g : Geometry) (d : MemoryDisk) (r : Record) : Prop :=
  r.isFree = true ∨ ∃ blocks, r.payloadBlocks (Reading.readBlock g) d = .ok blocks d

/-- A record in use counts for its payload and for its indirect block. -/
theorem countRecord_of_use {counts : Array Nat} {r : Record} (hr : ¬r.isFree = true) :
    (countRecord g counts r : Attempt MemoryDisk (Array Nat))
      = r.payloadBlocks (Reading.readBlock g) >>= fun blocks =>
        liftM ((blocks ++ indirectOf r).foldlM count counts : Except Failure (Array Nat)) := by
  have hlast : ∀ c, (if r.indirect = 0 then return c else count c r.indirect :
      Attempt MemoryDisk (Array Nat))
      = liftM ((indirectOf r).foldlM count c : Except Failure (Array Nat)) := by
    intro c
    by_cases hz : r.indirect = 0
    · rw [if_pos hz, indirectOf, if_pos (.inr hz)]
      rfl
    · rw [if_neg hz, indirectOf, if_neg (not_or.mpr ⟨hr, hz⟩), List.foldlM_cons]
      simp only [List.foldlM_nil, bind_pure]
  rw [countRecord, if_neg hr]
  refine congrArg _ (funext fun blocks => ?_)
  rw [List.foldlM_append, lift_bind]
  exact congrArg _ (funext hlast)

/-- An attempt adds the given blocks to the counts, if these can be found on a disk and are in
the pool, and changes nothing else. -/
def Counts (d : MemoryDisk) (x : Array Nat → Attempt MemoryDisk (Array Nat)) (found : Prop)
    (blocks : List UInt32) : Prop :=
  ∀ counts c e, x counts d = .ok c e
    ↔ e = d ∧ found ∧ (∀ b ∈ blocks, b.toNat < counts.size) ∧ c = tally counts blocks

theorem counts_record (g : Geometry) (d : MemoryDisk) (r : Record) :
    Counts d (fun counts => countRecord g counts r) (Listable g d r)
      (payloadOf g d r ++ indirectOf r) := by
  intro counts c e
  dsimp only
  by_cases hf : r.isFree = true
  · have hblocks : payloadOf g d r ++ indirectOf r = [] := by
      rw [payloadOf, if_pos hf, indirectOf, if_pos (.inl hf)]
      rfl
    rw [hblocks, countRecord, if_pos hf]
    constructor
    · intro h
      injection h with hc he
      exact ⟨he.symm, .inl hf, fun _ hb => absurd hb List.not_mem_nil, hc.symm⟩
    · rintro ⟨rfl, -, -, rfl⟩
      rfl
  · rw [countRecord_of_use hf, payloadOf, if_neg hf, bind_eq_ok_iff]
    constructor
    · rintro ⟨blocks, m, hb, hlift⟩
      obtain rfl :=
        (Record.mirrors_payloadBlocks (Reading.mirrors_readBlock g) r).keeps d blocks m hb
      obtain ⟨hcount, rfl⟩ := lift_eq_ok_iff.mp hlift
      rw [hb]
      exact ⟨rfl, .inr ⟨blocks, hb⟩, countAll_ok_iff.mp hcount⟩
    · rintro ⟨rfl, hr | ⟨blocks, hb⟩, hcount⟩
      · exact absurd hr hf
      · rw [hb] at hcount
        exact ⟨blocks, e, hb, lift_eq_ok_iff.mpr ⟨countAll_ok_iff.mpr hcount, rfl⟩⟩

/-- What counts for each of several things counts for all of them. -/
theorem Counts.foldlM {ι : Type} {f : Array Nat → ι → Attempt MemoryDisk (Array Nat)}
    {found : ι → Prop} {blocks : ι → List UInt32}
    (h : ∀ i, Counts d (fun counts => f counts i) (found i) (blocks i)) (l : List ι) :
    Counts d (fun counts => l.foldlM f counts) (∀ i ∈ l, found i) (l.flatMap blocks) := by
  induction l with
  | nil =>
    intro counts c e
    constructor
    · intro hc
      injection hc with hc he
      exact ⟨he.symm, fun _ hi => absurd hi List.not_mem_nil,
        fun _ hb => absurd hb List.not_mem_nil, hc.symm⟩
    · rintro ⟨rfl, -, -, rfl⟩
      rfl
  | cons i l ih =>
    intro counts c e
    dsimp only
    rw [List.foldlM_cons, bind_eq_ok_iff, List.flatMap_cons, tally_append, List.forall_mem_cons,
      List.forall_mem_append]
    constructor
    · rintro ⟨n, m, hn, hrest⟩
      obtain ⟨rfl, hi, hlt, rfl⟩ := (h i _ _ _).mp hn
      obtain ⟨he, hl, hlts, hc⟩ := (ih _ _ _).mp hrest
      rw [size_tally] at hlts
      exact ⟨he, ⟨hi, hl⟩, ⟨hlt, hlts⟩, hc⟩
    · rintro ⟨he, ⟨hi, hl⟩, ⟨hlt, hlts⟩, hc⟩
      exact ⟨_, d, (h i _ _ _).mpr ⟨rfl, hi, hlt, rfl⟩,
        (ih _ _ _).mpr ⟨he, hl, by rwa [size_tally], hc⟩⟩

/-! ### What an image refers to -/

/-- The records of a chunk, as they are on a disk. -/
def recordsAt (g : Geometry) (d : MemoryDisk) (chunk : UInt32) : List Record :=
  match Reading.readBlock g chunk d with
  | .ok sector _ => Record.ofChunk sector
  | .error _ _ => []

theorem counts_chunk (g : Geometry) (d : MemoryDisk) (chunk : UInt32) :
    Counts d (fun counts => countChunk g counts chunk)
      ((∃ sector, Reading.readBlock g chunk d = .ok sector d)
        ∧ ∀ r ∈ recordsAt g d chunk, Listable g d r)
      ((recordsAt g d chunk).flatMap fun r => payloadOf g d r ++ indirectOf r) := by
  intro counts c e
  dsimp only
  rw [countChunk, bind_eq_ok_iff]
  constructor
  · rintro ⟨sector, m, hs, hcount⟩
    obtain rfl := (Reading.mirrors_readBlock g chunk).keeps d sector m hs
    obtain ⟨he, hl, hrest⟩ := (Counts.foldlM (counts_record g m) _ _ _ _).mp hcount
    rw [recordsAt, hs]
    exact ⟨he, ⟨⟨sector, rfl⟩, hl⟩, hrest⟩
  · rintro ⟨he, ⟨⟨sector, hs⟩, hl⟩, hrest⟩
    rw [recordsAt, hs] at hl hrest
    exact ⟨sector, d, hs, (Counts.foldlM (counts_record g d) _ _ _ _).mpr ⟨he, hl, hrest⟩⟩

/-- The blocks that an image refers to, by what they are for. -/
structure Inventory where
  chunks : List UInt32
  /-- The blocks of the inode map. -/
  chain : List UInt32
  payloads : List UInt32
  indirects : List UInt32

/-- All blocks that an image refers to, as often as it does. -/
def Inventory.all (v : Inventory) : List UInt32 := v.chunks ++ v.chain ++ v.payloads ++ v.indirects

/-- The records that an inode map leads to. -/
def recordsOf (g : Geometry) (d : MemoryDisk) (i : InodeMap) : List Record :=
  i.chunks.toList.flatMap (recordsAt g d)

/-- What an image with the given inode map refers to. -/
def inventory (g : Geometry) (d : MemoryDisk) (i : InodeMap) : Inventory where
  chunks := i.chunks.toList
  chain := i.chain.toList
  payloads := (recordsOf g d i).flatMap (payloadOf g d)
  indirects := (recordsOf g d i).flatMap indirectOf

/-- All that an image refers to can be found: its chunks can be read, the blocks of its
records listed, and none is behind the end of the pool. -/
structure Complete (g : Geometry) (d : MemoryDisk) (i : InodeMap) : Prop where
  chunks_read : ∀ chunk ∈ i.chunks.toList, ∃ sector, Reading.readBlock g chunk d = .ok sector d
  records_listable : ∀ r ∈ recordsOf g d i, Listable g d r
  blocks_lt : ∀ b ∈ (inventory g d i).all, b.toNat < g.blockCount.toNat

/-- The order in which an audit comes across the blocks. -/
theorem perm_all (g : Geometry) (d : MemoryDisk) (i : InodeMap) :
    (i.chunks.toList ++ i.chain.toList
        ++ i.chunks.toList.flatMap fun chunk =>
          (recordsAt g d chunk).flatMap fun r => payloadOf g d r ++ indirectOf r).Perm
      (inventory g d i).all := by
  rw [Inventory.all, List.append_assoc (_ ++ _), ← List.flatMap_assoc]
  exact ((List.flatMap_append_perm _ _ _).symm).append_left _

theorem countImage_ok_iff {counts c : Array Nat} {i : InodeMap}
    (hsize : counts.size = g.blockCount.toNat) :
    (∃ n, (i.chunks.toList ++ i.chain.toList).foldlM count counts = .ok n
        ∧ i.chunks.toList.foldlM (countChunk g) n d = .ok c e)
      ↔ e = d ∧ Complete g d i ∧ c = tally counts (inventory g d i).all := by
  have hperm := perm_all g d i
  rw [← tally_perm hperm, tally_append]
  constructor
  · rintro ⟨n, hn, hc⟩
    obtain ⟨hfirst, rfl⟩ := countAll_ok_iff.mp hn
    obtain ⟨he, hfound, hrest, hc⟩ := (Counts.foldlM (counts_chunk g d) _ _ _ _).mp hc
    rw [size_tally, hsize] at hrest
    rw [hsize] at hfirst
    refine ⟨he, ⟨fun k hk => (hfound k hk).1, fun r hr => ?_, fun b hb => ?_⟩, hc⟩
    · obtain ⟨k, hk, hr⟩ := List.mem_flatMap.mp hr
      exact (hfound k hk).2 r hr
    · rcases List.mem_append.mp (hperm.mem_iff.mpr hb) with hb | hb
      · exact hfirst b hb
      · exact hrest b hb
  · rintro ⟨he, hcomplete, hc⟩
    have hlt : ∀ b ∈ (inventory g d i).all, b.toNat < counts.size := by
      rw [hsize]
      exact hcomplete.blocks_lt
    refine ⟨_, countAll_ok_iff.mpr
      ⟨fun b hb => hlt b (hperm.mem_iff.mp (List.mem_append_left _ hb)), rfl⟩,
      (Counts.foldlM (counts_chunk g d) _ _ _ _).mpr ⟨he, fun k hk => ⟨hcomplete.chunks_read k hk,
        fun r hr => hcomplete.records_listable r (List.mem_flatMap.mpr ⟨k, hk, hr⟩)⟩, ?_, hc⟩⟩
    rw [size_tally]
    exact fun b hb => hlt b (hperm.mem_iff.mp (List.mem_append_right _ hb))

/-- An audit reports on all blocks that an image refers to. -/
theorem run_ok_iff {r : AuditReport} :
    run d = .ok r e ↔ e = d ∧ ∃ s g m i, Reading.readSuperblock d = .ok s d
      ∧ s.geometryOn d.totalSectors = .ok g ∧ Reading.readMap g d = .ok m d
      ∧ Reading.readInodeMap g s d = .ok i d ∧ Complete g d i
      ∧ r = .ofCounts m (tally (Array.replicate g.blockCount.toNat 0) (inventory g d i).all) := by
  have hsize : ∀ g : Geometry, (Array.replicate g.blockCount.toNat 0).size = g.blockCount.toNat :=
    fun g => Array.size_replicate
  constructor
  · intro hrun
    obtain ⟨s, d₁, hs, hrun₁⟩ := bind_eq_ok_iff.mp hrun
    obtain rfl := Reading.mirrors_readSuperblock.keeps _ _ _ hs
    obtain ⟨total, d₂, htotal, hrun₂⟩ := bind_eq_ok_iff.mp hrun₁
    obtain ⟨rfl, rfl⟩ : d₁.totalSectors = total ∧ d₁ = d₂ := by
      injection htotal with h₁ h₂
      exact ⟨h₁, h₂⟩
    obtain ⟨g, d₃, hlift, hrun₃⟩ := bind_eq_ok_iff.mp hrun₂
    obtain ⟨hg, rfl⟩ := lift_eq_ok_iff.mp hlift
    obtain ⟨m, d₄, hm, hrun₄⟩ := bind_eq_ok_iff.mp hrun₃
    obtain rfl := (Reading.mirrors_readMap g).keeps _ _ _ hm
    obtain ⟨i, d₅, hi, hrun₅⟩ := bind_eq_ok_iff.mp hrun₄
    obtain rfl := (Reading.mirrors_readInodeMap g s).keeps _ _ _ hi
    obtain ⟨n, d₆, hlift, hrun₆⟩ := bind_eq_ok_iff.mp hrun₅
    obtain ⟨hn, rfl⟩ := lift_eq_ok_iff.mp hlift
    obtain ⟨c, d₇, hc, hrun₇⟩ := bind_eq_ok_iff.mp hrun₆
    injection hrun₇ with hr he
    subst he
    obtain ⟨rfl, hcomplete, rfl⟩ := (countImage_ok_iff (hsize g)).mp ⟨n, hn, hc⟩
    exact ⟨rfl, s, g, m, i, hs, hg, hm, hi, hcomplete, hr.symm⟩
  · rintro ⟨rfl, s, g, m, i, hs, hg, hm, hi, hcomplete, rfl⟩
    obtain ⟨n, hn, hc⟩ := (countImage_ok_iff (hsize g)).mpr ⟨rfl, hcomplete, rfl⟩
    refine bind_eq_ok_iff.mpr ⟨s, e, hs, bind_eq_ok_iff.mpr ⟨_, e, rfl, bind_eq_ok_iff.mpr
      ⟨g, e, lift_eq_ok_iff.mpr ⟨hg, rfl⟩, bind_eq_ok_iff.mpr ⟨m, e, hm, bind_eq_ok_iff.mpr
        ⟨i, e, hi, bind_eq_ok_iff.mpr ⟨n, e, lift_eq_ok_iff.mpr ⟨hn, rfl⟩,
          bind_eq_ok_iff.mpr ⟨_, e, hc, rfl⟩⟩⟩⟩⟩⟩⟩

end Audit

/-! ### Images of trees -/

theorem map_toNat_blockRun {start count : Nat} (h : start + count ≤ 2 ^ 32) :
    (blockRun start count).map UInt32.toNat = List.range' start count := by
  rw [blockRun, List.map_map]
  refine (List.map_congr_left fun n hn => ?_).trans (List.map_id _)
  have := List.mem_range'_1.mp hn
  rw [Function.comp_apply, UInt32.toNat_ofNat', Nat.mod_eq_of_lt (by omega)]
  rfl

namespace Pass

variable {g : Geometry} {t : Tree} {m : BlockMap} {d : MemoryDisk}

theorem blocks_placementAt (n : Nat) (i : Inode) :
    (placementAt n i).blocks ++ (placementAt n i).indirect.toList = blockRun n (spaceOf i) := by
  rw [spaceOf, placementAt]
  dsimp only
  split
  · rw [← blockRun_append]
    rfl
  · exact List.append_nil _

/-- Inodes one after the other take all blocks up to their end. -/
theorem flatMap_placedFrom (n : Nat) (slots : List Inode) :
    (placedFrom n slots).flatMap (fun slot => slot.2.blocks ++ slot.2.indirect.toList)
      = blockRun n (placedEnd n slots - n) := by
  induction slots generalizing n with
  | nil =>
    rw [placedEnd, Nat.sub_self]
    rfl
  | cons i slots ih =>
    have hle := le_placedEnd (n + spaceOf i) slots
    rw [placedFrom, List.flatMap_cons, ih, blocks_placementAt, blockRun_append, placedEnd,
      show spaceOf i + (placedEnd (n + spaceOf i) slots - (n + spaceOf i))
        = placedEnd (n + spaceOf i) slots - n by omega]

theorem InPool.blocks_recordOf (h : InPool g t d) {slot : Inode × Placement}
    (hs : slot ∈ placedOf t) :
    Audit.Listable g d (recordOf slot)
      ∧ Audit.payloadOf g d (recordOf slot) = slot.2.blocks
      ∧ Audit.indirectOf (recordOf slot) = slot.2.indirect.toList := by
  obtain ⟨hserves, hlist, -⟩ := h.placement_held hs
  obtain ⟨n, hp, -⟩ := placementAt_of_mem hs
  by_cases hf : slot.1.isFree = true
  · have hfree : Record.free.isFree = true := rfl
    have hnone := blocks_placementAt n slot.1
    rw [spaceOf_of_isFree hf, ← hp] at hnone
    obtain ⟨hblocks, hind⟩ := List.append_eq_nil_iff.mp hnone
    rw [recordOf, if_pos hf, Audit.payloadOf, if_pos hfree, Audit.indirectOf,
      if_pos (.inl hfree), hblocks, hind]
    exact ⟨.inl hfree, rfl, rfl⟩
  · have hblocks := Record.payloadBlocks_describe hserves hlist
    have hnot : ¬(Record.describe slot.1 slot.2).isFree = true := by
      rwa [Record.isFree_describe]
    rw [recordOf, if_neg hf, Audit.payloadOf, if_neg hnot, hblocks]
    refine ⟨.inr ⟨_, hblocks⟩, rfl, ?_⟩
    rw [Audit.indirectOf]
    by_cases hbig : directBlocks < slot.2.blocks.length
    · obtain ⟨b, hb, hnz⟩ := hserves.listed hbig
      have hind : (Record.describe slot.1 slot.2).indirect = b := by
        show slot.2.indirect.getD 0 = b
        rw [hb]
        rfl
      rw [hind, if_neg (not_or.mpr ⟨hnot, hnz⟩), hb]
      rfl
    · have hnone : slot.2.indirect = none := by
        rw [hp, placementAt, if_neg]
        rwa [hp, placementAt, length_blockRun] at hbig
      have hind : (Record.describe slot.1 slot.2).indirect = 0 := by
        show slot.2.indirect.getD 0 = 0
        rw [hnone]
        rfl
      rw [if_pos (.inr hind), hnone]
      rfl

/-- The inode map of a tree. -/
def listedMap (t : Tree) : InodeMap :=
  ⟨(blockRun 0 (chunkCount t)).toArray,
    (blockRun (chunkCount t) (partsOf (chunkCount t) chunksPerMapBlock)).toArray⟩

end Pass

namespace Audit

variable {g : Geometry} {t : Tree} {m : BlockMap} {d : MemoryDisk}

open Pass

theorem flatMap_recordsAt {blocks : List UInt32} {sectors : List Sector}
    (h : List.Forall₂ (fun b s => Reading.readBlock g b d = .ok s d) blocks sectors) :
    blocks.flatMap (recordsAt g d) = sectors.flatMap Record.ofChunk := by
  induction h with
  | nil => rfl
  | cons hb _ ih => rw [List.flatMap_cons, List.flatMap_cons, ih, recordsAt, hb]

/-- The records of an image are those of its slots, with free ones behind them. -/
theorem recordsOf_listedMap (h : InPool g t d) :
    ∃ k, recordsOf g d (listedMap t)
      = (placedOf t).map recordOf ++ List.replicate k .free := by
  have hlen : ((placedOf t).map recordOf).length ≤ recordsPerChunk * chunkCount t := by
    rw [List.length_map, Nat.mul_comm]
    exact length_placedOf_le t
  refine ⟨recordsPerChunk * chunkCount t - ((placedOf t).map recordOf).length, ?_⟩
  rw [recordsOf, listedMap, flatMap_recordsAt h.chunks_read, flatMap_chunksOf, padTo_eq_append,
    List.take_of_length_le hlen]

/-- What all records of an image bring is what those of its slots bring. -/
theorem flatMap_recordsOf {α : Type} (h : InPool g t d) {f : Record → List α}
    {f' : Inode × Placement → List α} (hfree : f .free = [])
    (hf : ∀ slot ∈ placedOf t, f (recordOf slot) = f' slot) :
    (recordsOf g d (listedMap t)).flatMap f = (placedOf t).flatMap f' := by
  obtain ⟨k, hk⟩ := recordsOf_listedMap h
  have hrest : (List.replicate k Record.free).flatMap f = [] :=
    List.flatMap_eq_nil_iff.mpr fun r hr => by rw [List.eq_of_mem_replicate hr, hfree]
  rw [hk, List.flatMap_append, hrest, List.append_nil, List.flatMap_map]
  exact List.flatMap_congr hf

theorem inventory_listedMap (h : InPool g t d) :
    inventory g d (listedMap t) = {
      chunks := blockRun 0 (chunkCount t)
      chain := blockRun (chunkCount t) (partsOf (chunkCount t) chunksPerMapBlock)
      payloads := (placedOf t).flatMap fun slot => slot.2.blocks
      indirects := (placedOf t).flatMap fun slot => slot.2.indirect.toList } := by
  have hpayloads := flatMap_recordsOf h (f := payloadOf g d) rfl
    fun slot hs => (h.blocks_recordOf hs).2.1
  have hindirects := flatMap_recordsOf h (f := indirectOf) rfl
    fun slot hs => (h.blocks_recordOf hs).2.2
  rw [inventory, hpayloads, hindirects]
  rfl

/-- All that the image of a tree refers to are the first blocks of the pool. -/
theorem perm_inventory (h : InPool g t d) :
    (inventory g d (listedMap t)).all.Perm (blockRun 0 (blocksUsed t)) := by
  have hstart := payloadStart_le t
  have hparts : blockRun 0 (chunkCount t)
      ++ blockRun (chunkCount t) (partsOf (chunkCount t) chunksPerMapBlock)
      = blockRun 0 (payloadStart t) := by
    have := blockRun_append 0 (chunkCount t) (partsOf (chunkCount t) chunksPerMapBlock)
    rwa [Nat.zero_add] at this
  have hpayloads : (placedOf t).flatMap (fun slot => slot.2.blocks ++ slot.2.indirect.toList)
      = blockRun (0 + payloadStart t) (blocksUsed t - payloadStart t) := by
    rw [Nat.zero_add]
    exact flatMap_placedFrom ..
  have hall := (List.flatMap_append_perm (placedOf t) (fun slot => slot.2.blocks)
    fun slot => slot.2.indirect.toList).append_left (blockRun 0 (payloadStart t))
  rw [hpayloads, blockRun_append, Nat.add_sub_cancel' hstart] at hall
  rwa [inventory_listedMap h, Inventory.all, hparts, List.append_assoc]

theorem map_toNat_inventory (h : InPool g t d) :
    ((inventory g d (listedMap t)).all.map UInt32.toNat).Perm (List.range (blocksUsed t)) := by
  have hlt := g.blockCount.toNat_lt
  have hend := h.end_le
  have := (perm_inventory h).map UInt32.toNat
  rwa [map_toNat_blockRun (by omega), ← List.range_eq_range'] at this

theorem complete_listedMap (h : InPool g t d) : Complete g d (listedMap t) where
  chunks_read b hb := by
    obtain ⟨hlen, hread⟩ := List.forall₂_iff_get.mp h.chunks_read
    obtain ⟨k, hk, rfl⟩ := List.getElem_of_mem hb
    exact ⟨_, hread k hk (hlen ▸ hk)⟩
  records_listable r hr := by
    obtain ⟨k, hk⟩ := recordsOf_listedMap h
    rw [hk] at hr
    rcases List.mem_append.mp hr with hr | hr
    · obtain ⟨slot, hs, rfl⟩ := List.mem_map.mp hr
      exact (h.blocks_recordOf hs).1
    · exact .inl (by rw [List.eq_of_mem_replicate hr]; rfl)
  blocks_lt b hb := by
    have := (map_toNat_inventory h).mem_iff.mp (List.mem_map_of_mem hb)
    exact Nat.lt_of_lt_of_le (List.mem_range.mp this) h.end_le

/-- A map that has just the blocks in use that are referred to once. -/
theorem ofCounts_eq {n : Nat} {counts : Array Nat} (hm : m.FirstUsed n)
    (hc : ∀ b < counts.size, counts.getD b 0 = if b < n then 1 else 0) (hn : n ≤ counts.size) :
    AuditReport.ofCounts m counts = ⟨n, n, [], [], []⟩ := by
  have hcount : ∀ b ∈ List.range counts.size, counts.getD b 0 = if b < n then 1 else 0 :=
    fun b hb => hc b (List.mem_range.mp hb)
  have hreferenced : ((List.range counts.size).countP fun b => 0 < counts.getD b 0) = n := by
    rw [← BlockMap.countP_range_lt hn]
    refine List.countP_congr fun b hb => ?_
    simp only [hcount b hb]
    by_cases hbn : b < n <;> simp [hbn]
  have hnone : ∀ p : Nat → Bool, (∀ b ∈ List.range counts.size, p b = false) →
      (List.range counts.size).filter p = [] := fun p hp =>
    List.filter_eq_nil_iff.mpr fun b hb => by rw [hp b hb]; decide
  unfold AuditReport.ofCounts
  dsimp only
  rw [hreferenced, hm.usedCount_eq, hnone, hnone, hnone]
  · intro b hb
    simp only [hcount b hb]
    split <;> rfl
  · intro b hb
    simp only [hcount b hb, hm.isAllocated_eq]
    by_cases hbn : b < n <;> simp [hbn]
  · intro b hb
    simp only [hcount b hb, hm.isAllocated_eq]
    by_cases hbn : b < n <;> simp [hbn]

/-- An audit of the image of a tree finds no disagreement. -/
theorem run_of_onDisk (h : OnDisk g t m d) :
    run d = .ok ⟨blocksUsed t, blocksUsed t, [], [], []⟩ d := by
  have hcomplete := complete_listedMap h.toInPool
  have hcounts := map_toNat_inventory h.toInPool
  have hgeometry : (superblockOf g t).geometryOn d.totalSectors = .ok g := by
    rw [Superblock.geometryOn]
    exact if_pos h.geometry_fits
  refine run_ok_iff.mpr ⟨rfl, superblockOf g t, g, m, listedMap t,
    readSuperblock_of_holds h.geometry_fits h.superblock_held, hgeometry, h.readMap,
    h.readInodeMap, hcomplete, (ofCounts_eq h.map_firstUsed (fun b hb => ?_) ?_).symm⟩
  · rw [size_tally, Array.size_replicate] at hb
    rw [getD_tally_replicate hb, hcounts.count_eq, List.nodup_range.count]
    simp only [List.mem_range]
  · rw [size_tally, Array.size_replicate]
    exact h.end_le

end Audit

namespace Volume

variable {D : Type} [SectorDevice D] [Backed D]

open Backed (disk)

/-- After a pass the blocks that the image refers to are told apart by what they are for, the
first chunk being block `0`, and an audit finds each of them in use and no other. -/
theorem audit_of_sync {v w : Volume} {d e : D}
    (hg : Divides v.geometry (SectorDevice.totalSectors d)) (h : v.sync d = .ok w e) :
    ∃ (i : InodeMap) (blocks : Audit.Inventory),
      Reading.readInodeMap v.geometry w.superblock (disk e) = .ok i (disk e)
        ∧ Audit.Complete v.geometry (disk e) i
        ∧ blocks = Audit.inventory v.geometry (disk e) i
        ∧ blocks.all.Nodup
        ∧ (∀ b, w.map.isAllocated b = true ↔ b ∈ blocks.all.map UInt32.toNat)
        ∧ blocks.chunks.head? = some 0
        ∧ 0 ∉ blocks.chain ++ blocks.payloads ++ blocks.indirects
        ∧ ∀ {E : Type} [SectorDevice E] [Backed E] (c : E), disk c = disk e →
          (∃ c', Audit.run c = .ok ⟨w.usage.used, w.usage.used, [], [], []⟩ c')
            ∨ ¬InOrder c ∧ ∃ c', Audit.run c = .error .ioError c' := by
  obtain ⟨hdisk, -, hsuper, -⟩ := onDisk_of_commit hg.fits h
  have hpool := hdisk.toInPool
  have hperm := Audit.perm_inventory hpool
  have hnat := Audit.map_toNat_inventory hpool
  have hnodup : (Audit.inventory v.geometry (disk e) (Pass.listedMap v.tree)).all.Nodup :=
    (hnat.nodup_iff.mpr List.nodup_range).of_map
  obtain ⟨k, hk⟩ : ∃ k, Pass.chunkCount v.tree = k + 1 :=
    ⟨Pass.chunkCount v.tree - 1, by have := Pass.chunkCount_pos v.tree; omega⟩
  have hhead : (Audit.inventory v.geometry (disk e) (Pass.listedMap v.tree)).chunks.head?
      = some 0 := by
    rw [Audit.inventory_listedMap hpool, hk]
    rfl
  have hused : w.usage.used = Pass.blocksUsed v.tree := hdisk.map_firstUsed.usedCount_eq
  refine ⟨_, _, hsuper ▸ hpool.readInodeMap, Audit.complete_listedMap hpool, rfl, hnodup,
    fun b => ?_, hhead, ?_, fun c hc => ?_⟩
  · rw [hdisk.map_firstUsed.isAllocated_eq, hnat.mem_iff, List.mem_range, decide_eq_true_iff]
  · rw [Audit.Inventory.all, List.append_assoc, List.append_assoc, ← List.append_assoc _ _
      (Audit.Inventory.indirects _)] at hnodup
    exact List.disjoint_of_nodup_append hnodup (List.mem_of_mem_head? hhead)
  · rw [hused]
    exact Audit.mirrors_run.ok_or_ioError (hc ▸ Audit.run_of_onDisk hdisk)

/-- A new tree with a file takes three blocks of a disk of eight sectors, as an audit finds. -/
theorem audit_of_sync_file :
    ∃ (v w : Volume) (e c : MemoryDisk), v.tree = Tree.run [.create "/a"] .empty
      ∧ v.sync (.blank 8) = .ok w e ∧ Audit.run e = .ok ⟨3, 3, [], [], []⟩ c := by
  generalize hv : (⟨⟨6, 1, 2⟩, .empty 6, .ofGeometry ⟨6, 1, 2⟩ 1 1,
    Tree.run [.create "/a"] .empty, rfl⟩ : Volume) = v
  have hrun : v.sync.succeeds (MemoryDisk.blank 8) (fun w _ => w.usage.used == 3) = true := by
    rw [← hv]
    decide +kernel
  have htree : v.tree = Tree.run [.create "/a"] .empty := by rw [← hv]
  have hg : Divides v.geometry (SectorDevice.totalSectors (MemoryDisk.blank 8)) := by
    rw [← hv]
    exact .inl (by decide)
  obtain ⟨w, e, h, hused⟩ := succeeds_iff.mp hrun
  obtain ⟨-, -, -, -, -, -, -, -, -, haudit⟩ := audit_of_sync hg h
  obtain ⟨c, hc⟩ := (haudit e rfl).resolve_right fun hbad => hbad.1 (MemoryDisk.inOrder e)
  rw [beq_iff_eq.mp hused] at hc
  exact ⟨v, w, e, c, htree, h, hc⟩

end Volume

end SectorFs

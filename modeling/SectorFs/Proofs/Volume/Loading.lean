import SectorFs.Proofs.Volume.Mounting

/-!
# What a disk holds

Where the records of an image are can be told without reading it from end to end: block `j`
of the inode map is `j` links away from the first (`InodeMap.linked`), it lists the chunks
from `127 * j` on (`InodeMap.chunkAt`), and eight records lie in each of them
(`Superblock.recordAt`).  A disk is loaded just when its parts down to the records can be read
and slot `0` then is a directory (`Volume.HasHead.load_ok_iff`), and every slot holds what its
record describes (`Volume.HasHead.slot_fill`).  Slot `0` alone is not empty before: a root whose
record is free comes back bare (`Volume.load_root`).
-/

namespace SectorFs

open Attempt

/-! ### Where the records are -/

theorem getElem?_flatMap_of_length {α β : Type} {f : α → List β} {n : Nat} (hn : 0 < n)
    (hf : ∀ a, (f a).length = n) (l : List α) (k : Nat) :
    (l.flatMap f)[k]? = l[k / n]?.bind fun a => (f a)[k % n]? := by
  induction l generalizing k with
  | nil => rfl
  | cons a l ih =>
    rw [List.flatMap_cons]
    by_cases hk : k < n
    · rw [List.getElem?_append_left (by rw [hf]; exact hk), Nat.div_eq_of_lt hk,
        Nat.mod_eq_of_lt hk]
      rfl
    · obtain ⟨j, rfl⟩ : ∃ j, k = j + n := ⟨k - n, by omega⟩
      rw [List.getElem?_append_right (by rw [hf]; omega), hf, Nat.add_sub_cancel, ih,
        Nat.add_div_right j hn, Nat.add_mod_right, List.getElem?_cons_succ]

/-- What each element of a list has to do with something, the list has to do with a list. -/
theorem exists_forall₂ {α β : Type} {R : α → β → Prop} {l : List α} (h : ∀ a ∈ l, ∃ b, R a b) :
    ∃ r, List.Forall₂ R l r := by
  induction l with
  | nil => exact ⟨[], .nil⟩
  | cons a l ih =>
    obtain ⟨b, hb⟩ := h a List.mem_cons_self
    obtain ⟨r, hr⟩ := ih fun a ha => h a (List.mem_cons_of_mem _ ha)
    exact ⟨b :: r, .cons hb hr⟩

namespace InodeMap

/-- Block `j` of the map that starts at a block, which the last word of block `j - 1` names. -/
def linked (block : UInt32 → Option Sector) (start : UInt32) : Nat → Option Sector
  | 0 => block start
  | j + 1 => (linked block start j).bind fun s => block (s.word chunksPerMapBlock)

/-- Chunk `k` of the map that starts at a block. -/
def chunkAt (block : UInt32 → Option Sector) (start : UInt32) (k : Nat) : Option UInt32 :=
  (linked block start (k / chunksPerMapBlock)).map fun s => s.word (k % chunksPerMapBlock)

/-- What a block lists stands at its front. -/
theorem listed_prefix (isFirst : Bool) (words : List UInt32) : listed isFirst words <+: words := by
  unfold listed
  split
  · exact List.cons_prefix_cons.mpr ⟨rfl, List.takeWhile_prefix _⟩
  · exact List.takeWhile_prefix _

section

variable {σ : Type} {readBlock : UInt32 → Attempt σ Sector} {block : UInt32 → Option Sector}
  {f : Failure} {s t : σ} {start : UInt32}

/-- Following the chain finds the chunks that its blocks list, in order. -/
theorem chunks_follow
    (hread : ∀ b, readBlock b s = match block b with | some x => .ok x s | none => .error f s)
    {count steps j : Nat} {b : UInt32} {found m : InodeMap} (hb : block b = linked block start j)
    (hsize : count ≤ found.chunks.size ∨ found.chunks.size = chunksPerMapBlock * j)
    (hfound : ∀ k < found.chunks.size, found.chunks[k]? = chunkAt block start k)
    (h : follow readBlock count steps b found s = .ok m t) :
    ∀ k < m.chunks.size, m.chunks[k]? = chunkAt block start k := by
  -- one block for each step of the walk, block `j` of the map
  induction steps generalizing j b found with
  | zero =>
    injection h with h _
    exact h ▸ hfound
  | succ steps ih =>
    rcases Nat.lt_or_ge found.chunks.size count with hmore | hdone
    · cases hs : block b with
      | none =>
        rw [follow, if_neg (Nat.not_le.mpr hmore), bind_apply, hread, hs] at h
        cases h
      | some sector =>
        have hsector : readBlock b s = .ok sector s := (hread b).trans (by rw [hs])
        obtain ⟨chunks, hchunks⟩ : ∃ l, listed found.chunks.isEmpty
            (sector.words.take (min (count - found.chunks.size) chunksPerMapBlock)) = l := ⟨_, rfl⟩
        rw [follow_succ hmore hsector hchunks] at h
        have hsize := hsize.resolve_left (Nat.not_le.mpr hmore)
        have hlinked : linked block start j = some sector := hb.symm.trans hs
        have hpre := listed_prefix found.chunks.isEmpty
          (sector.words.take (min (count - found.chunks.size) chunksPerMapBlock))
        rw [hchunks] at hpre
        have hle := hpre.length_le
        rw [List.length_take] at hle
        have hpos : 0 < chunksPerMapBlock := by decide
        have hnew : (found.chunks ++ chunks.toArray).size = found.chunks.size + chunks.length := by
          have hlist : chunks.toArray.size = chunks.length := List.size_toArray
          rw [Array.size_append, hlist]
        have hall : ∀ k < (found.chunks ++ chunks.toArray).size,
            (found.chunks ++ chunks.toArray)[k]? = chunkAt block start k := by
          intro k hk
          rw [hnew] at hk
          rcases Nat.lt_or_ge k found.chunks.size with hold | hbehind
          · rw [Array.getElem?_append_left hold, hfound k hold]
          · obtain ⟨i, rfl⟩ : ∃ i, k = found.chunks.size + i := ⟨k - found.chunks.size, by omega⟩
            have hi : i < chunks.length := by omega
            have hword : chunks[i]? = some (sector.word i) := by
              rw [List.getElem?_eq_getElem hi, hpre.getElem hi, List.getElem_take, getElem_words]
            rw [Array.getElem?_append_right (Nat.le_add_right ..), Nat.add_sub_cancel_left,
              List.getElem?_toArray, hword, hsize, chunkAt,
              Nat.mul_add_div hpos, Nat.div_eq_of_lt (by omega), Nat.add_zero, hlinked,
              Nat.mul_add_mod, Nat.mod_eq_of_lt (by omega)]
            rfl
        split at h
        · injection h with h _
          exact h ▸ hall
        · rename_i hend
          refine ih (j := j + 1) ?_ ?_ hall h
          · rw [linked, hlinked]
            rfl
          · show count ≤ (found.chunks ++ chunks.toArray).size ∨ _
            rw [hnew, Nat.mul_succ]
            omega
    · rw [follow, if_pos hdone] at h
      injection h with h _
      exact h ▸ hfound

/-- A map that is read lists the chunks that the blocks of its chain tell. -/
theorem chunks_read
    (hread : ∀ b, readBlock b s = match block b with | some x => .ok x s | none => .error f s)
    {count : Nat} {m : InodeMap} (h : read readBlock start count s = .ok m t) :
    ∀ k < count, m.chunks[k]? = chunkAt block start k := by
  have hsize := size_read h
  obtain ⟨found, u, hf, h⟩ := bind_eq_ok_iff.mp h
  have hnone : ∀ k < (#[] : Array UInt32).size, (#[] : Array UInt32)[k]? = chunkAt block start k :=
    fun k hk => absurd hk (Nat.not_lt_zero k)
  have hall := chunks_follow hread (j := 0) rfl (.inr rfl) hnone hf
  simp only [] at h
  split at h
  · cases h
  · injection h with h _
    rwa [h, hsize] at hall

end

end InodeMap

/-- Record `n` of the image that a superblock leads to, if its place is on the disk. -/
def Superblock.recordAt (s : Superblock) (d : MemoryDisk) (n : Nat) : Option Record := do
  let block ← InodeMap.chunkAt (s.geometry.blockAt d) s.inodeMapStart (n / recordsPerChunk)
  let chunk ← s.geometry.blockAt d block
  (Record.ofChunk chunk)[n % recordsPerChunk]?

/-! ### Records -/

theorem Record.decode_of_isFree {σ : Type} {readBlock : UInt32 → Attempt σ Sector} {r : Record}
    (h : r.isFree = true) (s : σ) : r.decode readBlock s = .ok .unused s := by
  have hk : r.kind = 0 := beq_iff_eq.mp h
  have hkind : r.kind? = .ok .free := by
    rw [kind?, hk]
    rfl
  have hsize : r.payloadSize = .ok 0 := by
    rw [payloadSize, hkind]
    rfl
  have hblocks : r.payloadBlocks readBlock s = .ok [] s := by
    simp only [payloadBlocks, hsize, bind_apply, lift_ok_apply]
    rfl
  simp only [decode, hsize, bind_apply, lift_ok_apply, hblocks, hkind]
  rfl

namespace Reading

variable {g : Geometry} {d : MemoryDisk}

theorem chunkCount_pos_of_ok {s : Superblock} {e : MemoryDisk}
    (h : readSuperblock d = .ok s e) : 0 < s.chunkCount.toNat := by
  obtain ⟨-, c, -, h⟩ := bind_eq_ok_iff.mp h
  obtain ⟨bytes, k, -, h⟩ := bind_eq_ok_iff.mp h
  obtain ⟨x, l, -, h⟩ := bind_eq_ok_iff.mp h
  simp only [] at h
  split at h
  · cases h
  · rename_i hne
    injection h with h _
    rw [← h]
    exact Nat.pos_of_ne_zero fun h0 => hne (UInt32.toNat_inj.mp h0)

theorem blockAt_of_ok (hg : g.Fits d.totalSectors) {b : UInt32} {s : Sector} {e : MemoryDisk}
    (h : readBlock g b d = .ok s e) : g.blockAt d b = some s := by
  rw [readBlock_apply hg] at h
  cases hb : g.blockAt d b with
  | none =>
    rw [hb] at h
    cases h
  | some x =>
    rw [hb] at h
    injection h with h _
    rw [h]

theorem readable_iff {r : Record} :
    Readable g d r ↔ ∃ i, r.decode (readBlock g) d = .ok i d :=
  ⟨fun h => h.elim (fun hf => ⟨_, Record.decode_of_isFree hf d⟩) id, .inr⟩

theorem found_of_decode {r : Record} {i : Inode} (hfree : ¬r.isFree = true)
    (h : r.decode (readBlock g) d = .ok i d) : found g d r = some i := by
  rw [found, if_neg hfree, h]

/-- What a record brings to a slot that is free before is what it describes. -/
theorem getD_found {r : Record} {i : Inode} (h : r.decode (readBlock g) d = .ok i d) :
    (found g d r).getD .unused = i := by
  by_cases hfree : r.isFree = true
  · rw [Record.decode_of_isFree hfree] at h
    injection h with h _
    rw [found, if_pos hfree]
    exact h
  · rw [found_of_decode hfree h]
    rfl

end Reading

/-! ### Loading -/

namespace Volume

variable {d e : MemoryDisk} {s : Superblock} {m : BlockMap} {i : InodeMap} {t : Tree} {v : Volume}

/-- The records of a head are those that its superblock leads to. -/
theorem HasHead.recordAt_eq (h : HasHead d s m i t) {chunks : List Sector}
    (hblocks : List.Forall₂ (fun b x => Reading.readBlock s.geometry b d = .ok x d)
      i.chunks.toList chunks) {n : Nat} (hn : n < recordsPerChunk * s.chunkCount.toNat) :
    s.recordAt d n = (chunks.flatMap Record.ofChunk)[n]? := by
  have hk : n / recordsPerChunk < s.chunkCount.toNat := Nat.div_lt_of_lt_mul hn
  have hsize : i.chunks.size = s.chunkCount.toNat := InodeMap.size_read h.inodeMap_read
  have hlist := InodeMap.chunks_read (Reading.readBlock_apply h.geometry_fits) h.inodeMap_read _ hk
  have hlen : i.chunks.toList.length = chunks.length := hblocks.length_eq
  rw [Array.length_toList] at hlen
  have hread := (List.forall₂_iff_get.mp hblocks).2 (n / recordsPerChunk)
    (by rw [Array.length_toList]; omega) (by omega)
  rw [getElem?_flatMap_of_length (by decide) Reading.length_ofChunk, Superblock.recordAt, ← hlist,
    Array.getElem?_eq_getElem (by omega), List.getElem?_eq_getElem (by omega)]
  have hblock := Reading.blockAt_of_ok h.geometry_fits hread
  rw [List.get_eq_getElem, Array.getElem_toList] at hblock
  show (s.geometry.blockAt d _).bind _ = _
  rw [hblock]
  rfl

/-- Every slot that the chunks have a record of holds what the record describes, but a root
whose record is free stays bare, and the slots behind them are free. -/
theorem HasHead.slot_fill (h : HasHead d s m i t) {records : List Record}
    (hr : Reading.Leads s.geometry d i.chunks.toList records) (n : Nat) :
    (∀ r, n < recordsPerChunk * s.chunkCount.toNat → s.recordAt d n = some r →
        (Reading.fill t 0 (records.map (Reading.found s.geometry d))).slots[n]?
          = some ((Reading.found s.geometry d r).getD (if n = 0 then Tree.bareRoot else .unused)))
      ∧ (recordsPerChunk * s.chunkCount.toNat ≤ n → n < t.slots.size →
        (Reading.fill t 0 (records.map (Reading.found s.geometry d))).slots[n]?
          = some .unused) := by
  have hsize : i.chunks.size = s.chunkCount.toNat := InodeMap.size_read h.inodeMap_read
  have hlen : (records.map (Reading.found s.geometry d)).length
      = recordsPerChunk * s.chunkCount.toNat := by
    rw [List.length_map, hr.length_eq, Array.length_toList, hsize]
  have hroom := (Tree.view_withRoom h.room).2.2.1
  have hslots := Tree.getElem?_withRoom_empty h.room n
  rw [Nat.mul_comm] at hroom
  rw [Reading.getElem?_fill (by omega), hlen, Nat.zero_add, Nat.sub_zero]
  constructor
  · intro r hn hrec
    obtain ⟨chunks, hblocks, rfl, -⟩ := hr
    rw [h.recordAt_eq hblocks hn] at hrec
    rw [if_pos ⟨Nat.zero_le n, hn⟩, List.getElem?_map, hrec, hslots, Option.map_some,
      Option.getD_some]
    cases Reading.found s.geometry d r with
    | some j => rfl
    | none =>
      rw [Option.none_or, Option.getD_none]
      by_cases h0 : n = 0
      · rw [if_pos h0, if_pos h0]
      · rw [if_neg h0, if_neg h0, if_pos (by omega)]
  · intro hn hin
    have hcount := Reading.chunkCount_pos_of_ok h.superblock_read
    have hpos : 0 < recordsPerChunk * s.chunkCount.toNat := Nat.mul_pos (by decide) hcount
    rw [if_neg (by omega), hslots, if_neg (by omega), if_pos hin]

theorem head_of_load (h : load d = .ok v e) : ∃ m i t, HasHead d v.superblock m i t := by
  obtain ⟨s, d₁, hs, h₁⟩ := bind_eq_ok_iff.mp h
  obtain rfl : d₁ = d := Reading.mirrors_readSuperblock.keeps d s d₁ hs
  obtain ⟨total, d₂, htotal, h₂⟩ := bind_eq_ok_iff.mp h₁
  injection htotal with htotal hd
  subst htotal hd
  obtain ⟨g, d₂, hg, h₃⟩ := bind_eq_ok_iff.mp h₂
  obtain ⟨hgeometry, rfl⟩ := lift_eq_ok_iff.mp hg
  obtain ⟨m, d₃, hpool, h₄⟩ := bind_eq_ok_iff.mp h₃
  obtain rfl : d₃ = d₂ := (Reading.mirrors_readPoolMap g).keeps d₂ m d₃ hpool
  have hm := Reading.readPoolMap_eq_ok_iff.mp hpool
  obtain ⟨t, d₄, ht, h₅⟩ := bind_eq_ok_iff.mp h₄
  obtain ⟨hroom, rfl⟩ := lift_eq_ok_iff.mp ht
  obtain ⟨i, d₅, hi, h₆⟩ := bind_eq_ok_iff.mp h₅
  obtain rfl : d₅ = d₄ := (Reading.mirrors_readInodeMap g s).keeps d₄ i d₅ hi
  obtain ⟨w, d₆, -, h₇⟩ := bind_eq_ok_iff.mp h₆
  injection h₇ with hv _
  obtain ⟨hfits, rfl⟩ : s.geometry.Fits d₅.totalSectors ∧ g = s.geometry := by
    unfold Superblock.geometryOn at hgeometry
    split at hgeometry
    · rename_i hfits
      exact ⟨hfits, (Except.ok.inj hgeometry).symm⟩
    · cases hgeometry
  exact ⟨m.1, i, t, by rw [← hv]; exact ⟨hs, hfits, hm, hroom, hi⟩⟩

/-- The chunks of a head can be read just when all their records can. -/
theorem HasHead.leads_iff (h : HasHead d s m i t) :
    (∃ records, Reading.Leads s.geometry d i.chunks.toList records)
      ↔ ∀ n < recordsPerChunk * s.chunkCount.toNat, ∃ r, s.recordAt d n = some r
        ∧ Reading.Readable s.geometry d r := by
  have hsize : i.chunks.size = s.chunkCount.toNat := InodeMap.size_read h.inodeMap_read
  have hpos : 0 < recordsPerChunk := by decide
  constructor
  · rintro ⟨records, hr⟩ n hn
    have hlen : n < records.length := by
      rw [hr.length_eq, Array.length_toList, hsize]
      exact hn
    obtain ⟨chunks, hblocks, rfl, hall⟩ := hr
    exact ⟨_, (h.recordAt_eq hblocks hn).trans (List.getElem?_eq_getElem hlen),
      hall _ (List.getElem_mem hlen)⟩
  · intro hall
    have hread : ∀ b ∈ i.chunks.toList, ∃ x, Reading.readBlock s.geometry b d = .ok x d := by
      intro b hb
      obtain ⟨k, hk, rfl⟩ := List.getElem_of_mem hb
      rw [Array.length_toList] at hk
      clear hb
      have hchunk := InodeMap.chunks_read (Reading.readBlock_apply h.geometry_fits) h.inodeMap_read
        k (hsize ▸ hk)
      obtain ⟨r, hr, -⟩ := hall (recordsPerChunk * k)
        (Nat.mul_lt_mul_of_pos_left (hsize ▸ hk) hpos)
      rw [Superblock.recordAt, Nat.mul_div_cancel_left k hpos, ← hchunk,
        Array.getElem?_eq_getElem hk] at hr
      obtain ⟨b, hb, hr⟩ := Option.bind_eq_some_iff.mp hr
      obtain rfl := Option.some.inj hb
      obtain ⟨x, hx, -⟩ := Option.bind_eq_some_iff.mp hr
      rw [Array.getElem_toList, Reading.readBlock_apply h.geometry_fits, hx]
      exact ⟨x, rfl⟩
    obtain ⟨chunks, hblocks⟩ := exists_forall₂ hread
    refine ⟨_, chunks, hblocks, rfl, fun r hr => ?_⟩
    obtain ⟨n, hn, rfl⟩ := List.getElem_of_mem hr
    have hlen : (chunks.flatMap Record.ofChunk).length = recordsPerChunk * s.chunkCount.toNat := by
      rw [Reading.length_flatMap_ofChunk, ← hblocks.length_eq, Array.length_toList, hsize]
    obtain ⟨r, hr, hreadable⟩ := hall n (hlen ▸ hn)
    rw [h.recordAt_eq hblocks (hlen ▸ hn), List.getElem?_eq_getElem hn] at hr
    rwa [Option.some.inj hr]

theorem hasRoot_iff {w : Tree} :
    Reading.hasRoot w = true ↔ ∃ root, w.slot? .root = some root ∧ root.isDirectory = true := by
  unfold Reading.hasRoot
  cases hr : w.inode .root with
  | ok root =>
    have hslot := (Tree.inode_eq_ok_iff.mp hr).1
    rw [hslot]
    simp
  | error f =>
    refine ⟨nofun, ?_⟩
    rintro ⟨root, hroot, hdir⟩
    have hfree : root.isFree = false := by
      rw [Inode.isDirectory, beq_iff_eq] at hdir
      rw [Inode.isFree, hdir]
      rfl
    rw [Tree.inode_eq_ok_iff.mpr ⟨hroot, hfree⟩] at hr
    cases hr

/-- The root is bare if its record is free, and else what the record describes. -/
theorem HasHead.root_fill (h : HasHead d s m i t) {records : List Record}
    (hr : Reading.Leads s.geometry d i.chunks.toList records) :
    ∃ r, s.recordAt d 0 = some r
      ∧ (r.isFree = true
          ∧ (Reading.fill t 0 (records.map (Reading.found s.geometry d))).slot? .root
            = some Tree.bareRoot
        ∨ ¬r.isFree = true ∧ ∃ root, r.decode (Reading.readBlock s.geometry) d = .ok root d
          ∧ (Reading.fill t 0 (records.map (Reading.found s.geometry d))).slot? .root
            = some root) := by
  have hpos := Nat.mul_pos (by decide : 0 < recordsPerChunk)
    (Reading.chunkCount_pos_of_ok h.superblock_read)
  obtain ⟨r, hrec, hread⟩ := h.leads_iff.mp ⟨records, hr⟩ 0 hpos
  have hslot := (h.slot_fill hr 0).1 r hpos hrec
  rw [if_pos rfl] at hslot
  refine ⟨r, hrec, ?_⟩
  by_cases hfree : r.isFree = true
  · rw [Reading.found, if_pos hfree] at hslot
    exact .inl ⟨hfree, hslot⟩
  · obtain ⟨root, hroot⟩ := hread.resolve_left hfree
    rw [Reading.found_of_decode hfree hroot] at hslot
    exact .inr ⟨hfree, root, hroot, hslot⟩

/-- A record that a root may have: a free one or that of a directory. -/
def RootRecord (g : Geometry) (d : MemoryDisk) (r : Record) : Prop :=
  r.isFree = true ∨ ∃ root, r.decode (Reading.readBlock g) d = .ok root d ∧ root.isDirectory = true

theorem HasHead.hasRoot_fill (h : HasHead d s m i t) {records : List Record}
    (hr : Reading.Leads s.geometry d i.chunks.toList records) :
    Reading.hasRoot (Reading.fill t 0 (records.map (Reading.found s.geometry d))) = true
      ↔ ∃ r, s.recordAt d 0 = some r ∧ RootRecord s.geometry d r := by
  obtain ⟨r, hrec, hcases⟩ := h.root_fill hr
  rw [hasRoot_iff, hrec]
  simp only [Option.some.injEq, exists_eq_left']
  rcases hcases with ⟨hfree, hslot⟩ | ⟨hfree, root, hdecode, hslot⟩
  · rw [hslot]
    exact ⟨fun _ => .inl hfree, fun _ => ⟨_, rfl, rfl⟩⟩
  · rw [hslot]
    constructor
    · rintro ⟨root', hroot, hdir⟩
      obtain rfl := Option.some.inj hroot
      exact .inr ⟨root, hdecode, hdir⟩
    · rintro (hf | ⟨root', hdecode', hdir⟩)
      · exact absurd hf hfree
      · injection hdecode.symm.trans hdecode' with hroot _
        exact ⟨root', by rw [hroot], hdir⟩

theorem not_isDirectory_of_isFree {g : Geometry} {r : Record} {root : Inode}
    (hfree : r.isFree = true) (h : r.decode (Reading.readBlock g) d = .ok root d) :
    root.isDirectory = false := by
  rw [Record.decode_of_isFree hfree] at h
  injection h with hroot _
  rw [← hroot]
  rfl

theorem root_of_load (h : load d = .ok v e) :
    ∃ r, v.superblock.recordAt d 0 = some r
      ∧ (r.isFree = true ∧ v.tree.slot? .root = some Tree.bareRoot
        ∨ ∃ root, r.decode (Reading.readBlock v.geometry) d = .ok root d
          ∧ root.isDirectory = true ∧ v.tree.slot? .root = some root) := by
  obtain ⟨m, i, t, hhead⟩ := head_of_load h
  obtain ⟨-, records, hr, hv, hroot⟩ := hhead.load_ok_iff.mp h
  have hfill : v.tree.slot? .root
      = (Reading.fill t 0 (records.map (Reading.found v.superblock.geometry d))).slot? .root :=
    congrArg (fun w : Volume => w.tree.slot? .root) hv
  have hgeometry : v.geometry = v.superblock.geometry := congrArg geometry hv
  obtain ⟨root, hslot, hdir⟩ := hasRoot_iff.mp hroot
  obtain ⟨r, hrec, hcases⟩ := hhead.root_fill hr
  rw [← hfill] at hcases
  refine ⟨r, hrec, hcases.imp_right ?_⟩
  rintro ⟨-, root', hdecode, hslot'⟩
  obtain rfl := Option.some.inj (hslot.symm.trans hslot')
  exact ⟨root, by rw [hgeometry]; exact hdecode, hdir, hslot⟩

theorem root_described_iff (h : load d = .ok v e) :
    ∃ r, v.superblock.recordAt d 0 = some r
      ∧ ((∃ root, r.decode (Reading.readBlock v.geometry) d = .ok root d
          ∧ root.isDirectory = true ∧ v.tree.slot? .root = some root) ↔ r.isFree = false)
      ∧ (r.isFree = true → v.tree.slot? .root = some Tree.bareRoot) := by
  obtain ⟨r, hrec, hcases⟩ := root_of_load h
  have hnone : r.isFree = true → ¬∃ root, r.decode (Reading.readBlock v.geometry) d = .ok root d
      ∧ root.isDirectory = true ∧ v.tree.slot? .root = some root := by
    rintro hfree ⟨root, hdecode, hdir, -⟩
    rw [not_isDirectory_of_isFree hfree hdecode] at hdir
    cases hdir
  refine ⟨r, hrec, ⟨fun hdir => ?_, fun hused => ?_⟩, fun hfree => ?_⟩
  · exact Bool.eq_false_iff.mpr fun hfree => hnone hfree hdir
  · exact hcases.resolve_left fun hfree => Bool.eq_false_iff.mp hused hfree.1
  · exact (hcases.resolve_right (hnone hfree)).2

theorem HasHead.load_isOk_iff (h : HasHead d s m i t) :
    (∃ v, load d = .ok v d)
      ↔ (∀ n < recordsPerChunk * s.chunkCount.toNat, ∃ r, s.recordAt d n = some r
          ∧ Reading.Readable s.geometry d r)
        ∧ ∃ r, s.recordAt d 0 = some r ∧ RootRecord s.geometry d r := by
  rw [← h.leads_iff]
  constructor
  · rintro ⟨v, hload⟩
    obtain ⟨-, records, hr, rfl, hroot⟩ := h.load_ok_iff.mp hload
    exact ⟨⟨records, hr⟩, (h.hasRoot_fill hr).mp hroot⟩
  · rintro ⟨⟨records, hr⟩, hroot⟩
    exact ⟨_, h.load_ok_iff.mpr ⟨rfl, records, hr, rfl, (h.hasRoot_fill hr).mpr hroot⟩⟩

/-- Past its head, nothing but damage keeps a disk from being loaded. -/
theorem HasHead.load_error (h : HasHead d s m i t) (hnot : ¬∃ v, load d = .ok v d) :
    load d = .error .corrupted d := by
  have hraises : ∀ b, (Reading.readBlock s.geometry b).Raises (· = d) (· = .corrupted) := by
    rintro b d' rfl
    rw [Reading.readBlock_apply h.geometry_fits]
    cases s.geometry.blockAt d' b with
    | some x => exact ⟨nofun, fun _ _ hx => by injection hx with _ hx; exact hx.symm⟩
    | none => exact ⟨fun _ _ hx => by injection hx with hx _; exact hx.symm, nofun⟩
  have hall : (Reading.loadTree s.geometry t i).Raises (· = d) (· = .corrupted) :=
    Reading.raises_loadTree (p := (· = .corrupted)) rfl hraises h.slots_enough
  have hload := h.load_eq
  cases hw : Reading.loadTree s.geometry t i d with
  | ok w c =>
    rw [bind_apply, hw] at hload
    obtain rfl := (hall d rfl).2 w c hw
    exact absurd ⟨_, hload⟩ hnot
  | error f c =>
    obtain rfl := (hall d rfl).1 f c hw
    obtain rfl : c = d := (Reading.mirrors_loadTree s.geometry t i).asks.of_error hw |>.disk_eq
    rwa [bind_apply, hw] at hload

/-- The root of a volume that is loaded is what a directory record on the disk describes just
when the first record is not free; else it is a bare one that nothing on the disk tells of.  A
disk with a head is loaded just when all its records can be read and the root may have the
record it has; else it is reported as corrupted. -/
theorem load_root (d : MemoryDisk) :
    (∀ {e : MemoryDisk} {v : Volume}, load d = .ok v e →
        ∃ r, v.superblock.recordAt d 0 = some r
          ∧ ((∃ root, r.decode (Reading.readBlock v.geometry) d = .ok root d
              ∧ root.isDirectory = true ∧ v.tree.slot? .root = some root) ↔ r.isFree = false)
          ∧ (r.isFree = true → v.tree.slot? .root = some Tree.bareRoot))
      ∧ ∀ {s : Superblock} {m : BlockMap} {i : InodeMap} {t : Tree},
        HasHead d s m i t →
          ((∃ v, load d = .ok v d)
              ↔ (∀ n < recordsPerChunk * s.chunkCount.toNat, ∃ r, s.recordAt d n = some r
                  ∧ Reading.Readable s.geometry d r)
                ∧ ∃ r, s.recordAt d 0 = some r ∧ RootRecord s.geometry d r)
            ∧ ((¬∃ v, load d = .ok v d) → load d = .error .corrupted d) :=
  ⟨root_described_iff, fun h => ⟨h.load_isOk_iff, h.load_error⟩⟩

/-- The disk with one file, its root's record free. -/
def bareRootDisk : MemoryDisk := fileDisk.patch 2 0 [0]

/-- The disk with one file, its root's record that of a file. -/
def fileRootDisk : MemoryDisk := fileDisk.patch 2 0 [1]

def fileDiskSuperblock : Superblock := .ofGeometry ⟨6, 1, 2⟩ 1 1

/-- Only the records of these disks are in disorder. -/
theorem head_of_mem {d : MemoryDisk} (hd : d ∈ [bareRootDisk, fileRootDisk]) :
    ∃ m i t, HasHead d fileDiskSuperblock m i t := by
  have hall : ∀ d ∈ [bareRootDisk, fileRootDisk],
      Reading.readSuperblock.succeeds d (fun s c => s == fileDiskSuperblock && c == d) = true
        ∧ fileDiskSuperblock.geometry.Fits d.totalSectors
        ∧ (Reading.readMap fileDiskSuperblock.geometry).succeeds d (fun _ c => c == d) = true
        ∧ (Reading.readInodeMap fileDiskSuperblock.geometry fileDiskSuperblock).succeeds d
          (fun _ c => c == d) = true := by
    decide +kernel
  obtain ⟨hs, hg, hm, hi⟩ := hall d hd
  obtain ⟨s, c, hs, heq⟩ := succeeds_iff.mp hs
  obtain ⟨m, c', hm, hc'⟩ := succeeds_iff.mp hm
  obtain ⟨i, c'', hi, hc''⟩ := succeeds_iff.mp hi
  obtain ⟨rfl, rfl⟩ : s = fileDiskSuperblock ∧ c = d := by simpa using heq
  obtain rfl : c' = c := beq_iff_eq.mp hc'
  obtain rfl : c'' = c' := beq_iff_eq.mp hc''
  exact ⟨m, i, .empty, hs, hg, hm, withRoom_empty, hi⟩

theorem load_bareRootDisk : ∃ v r, load bareRootDisk = .ok v bareRootDisk
    ∧ v.superblock.recordAt bareRootDisk 0 = some r ∧ r.isFree = true := by
  have hok : load.succeeds bareRootDisk (fun v _ => v.superblock == fileDiskSuperblock) = true := by
    decide +kernel
  have hrec : (fileDiskSuperblock.recordAt bareRootDisk 0).any Record.isFree = true := by
    decide +kernel
  obtain ⟨v, e, hload, hv⟩ := succeeds_iff.mp hok
  obtain rfl := mirrors_load.keeps _ v e hload
  obtain ⟨r, hr, hfree⟩ := (Option.any_eq_true _ _).mp hrec
  exact ⟨v, r, hload, (beq_iff_eq.mp hv).symm ▸ hr, hfree⟩

/-- A free record makes a bare root of what was there, and that of a file is reported. -/
theorem load_root_file :
    (∃ v r, load bareRootDisk = .ok v bareRootDisk ∧ v.superblock.recordAt bareRootDisk 0 = some r
        ∧ r.isFree = true ∧ v.tree.slot? .root = some Tree.bareRoot)
      ∧ load fileRootDisk = .error .corrupted fileRootDisk := by
  constructor
  · obtain ⟨v, r, hload, hr, hfree⟩ := load_bareRootDisk
    obtain ⟨r', hr', -, hbare⟩ := (load_root bareRootDisk).1 hload
    obtain rfl := Option.some.inj (hr.symm.trans hr')
    exact ⟨v, r, hload, hr, hfree, hbare hfree⟩
  · have hbad : load.fails fileRootDisk (fun _ _ => true) = true := by decide +kernel
    obtain ⟨f, e, hload, -⟩ := fails_iff.mp hbad
    obtain ⟨m, i, t, h⟩ := head_of_mem (d := fileRootDisk) (by simp)
    refine ((load_root fileRootDisk).2 h).2 ?_
    rintro ⟨v, hv⟩
    rw [hload] at hv
    cases hv

/-- A root may be loaded that no record describes. -/
theorem load_invents_root :
    ¬∀ (d e : MemoryDisk) (v : Volume), load d = .ok v e →
      ∃ r root, v.superblock.recordAt d 0 = some r
        ∧ r.decode (Reading.readBlock v.geometry) d = .ok root d ∧ root.isDirectory = true
        ∧ v.tree.slot? .root = some root := by
  intro hall
  obtain ⟨v, r, hload, hr, hfree⟩ := load_bareRootDisk
  obtain ⟨r', root, hr', hdecode, hdir, -⟩ := hall _ _ v hload
  obtain rfl := Option.some.inj (hr.symm.trans hr')
  rw [not_isDirectory_of_isFree hfree hdecode] at hdir
  cases hdir

end Volume

end SectorFs

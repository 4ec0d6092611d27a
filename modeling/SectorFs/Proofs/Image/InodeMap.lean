import Mathlib.Algebra.Group.Nat.Defs
import Mathlib.Data.List.TakeWhile
import SectorFs.Image.InodeMap

/-!
# Inode maps read back

The map of a run of chunks, written to a run of blocks, lists as many of these chunks as
are asked for, and cannot list more (`InodeMap.read_sectors`).  No word of it that counts
is zero but, perhaps, the very first: the chunk at block `0` can only be the first one.
-/

namespace SectorFs

open Attempt

/-- The blocks of a run. -/
def blockRun (start count : Nat) : List UInt32 := (List.range' start count).map UInt32.ofNat

@[simp] theorem length_blockRun (start count : Nat) : (blockRun start count).length = count := by
  rw [blockRun, List.length_map, List.length_range']

theorem getElem_blockRun (start : Nat) {count k : Nat} (h : k < (blockRun start count).length) :
    (blockRun start count)[k] = UInt32.ofNat (start + k) := by
  simp [blockRun]

theorem blockRun_append (start m n : Nat) :
    blockRun start m ++ blockRun (start + m) n = blockRun start (m + n) := by
  rw [blockRun, blockRun, blockRun, ← List.map_append, List.range'_append_1]

theorem ofNat_ne_zero {n : Nat} (hpos : 0 < n) (hlt : n < 2 ^ 32) : UInt32.ofNat n ≠ 0 := by
  intro h
  have : (UInt32.ofNat n).toNat = 0 := by rw [h]; rfl
  rw [UInt32.toNat_ofNat', Nat.mod_eq_of_lt hlt] at this
  omega

theorem ne_zero_of_mem_blockRun {start count : Nat} (hpos : 0 < start)
    (hlt : start + count ≤ 2 ^ 32) {b : UInt32} (hb : b ∈ blockRun start count) : b ≠ 0 := by
  obtain ⟨n, hn, rfl⟩ := List.mem_map.mp hb
  have := List.mem_range'_1.mp hn
  exact ofNat_ne_zero (by omega) (by omega)

namespace InodeMap

variable {chunkStart count mapStart : Nat}

/-! ### The blocks of a map -/

theorem words_sectors {j : Nat} (hj : j < (sectors chunkStart count mapStart).length) :
    (sectors chunkStart count mapStart)[j].words
      = (List.range wordsPerSector).map (wordOf chunkStart count mapStart j) := by
  have hlen : ((List.range wordsPerSector).map (wordOf chunkStart count mapStart j)).length
      = wordsPerSector := by
    rw [List.length_map, List.length_range]
  simp only [sectors, List.getElem_map, List.getElem_range]
  rw [Sector.words_ofWords (Nat.le_of_eq hlen), padTo_of_length hlen]

/-- The first words of block `j` of a map: its share of the run, and zeros behind the run. -/
theorem take_words {j wanted : Nat} (hj : j < (sectors chunkStart count mapStart).length)
    (hw : wanted ≤ chunksPerMapBlock) :
    (sectors chunkStart count mapStart)[j].words.take wanted
      = blockRun (chunkStart + chunksPerMapBlock * j) (min wanted (count - chunksPerMapBlock * j))
        ++ List.replicate (wanted - (count - chunksPerMapBlock * j)) 0 := by
  have h128 : wordsPerSector = chunksPerMapBlock + 1 := rfl
  rw [words_sectors]
  apply List.ext_getElem
  · rw [List.length_take, List.length_map, List.length_range, List.length_append, length_blockRun,
      List.length_replicate]
    omega
  · intro k hk hk'
    rw [List.length_append, length_blockRun, List.length_replicate] at hk'
    rw [List.getElem_take, List.getElem_map, List.getElem_range, wordOf, if_neg (by omega)]
    by_cases hin : k < count - chunksPerMapBlock * j
    · rw [if_pos (by omega), List.getElem_append_left (by rw [length_blockRun]; omega),
        getElem_blockRun, Nat.add_assoc]
    · rw [if_neg (by omega), List.getElem_append_right (by rw [length_blockRun]; omega),
        List.getElem_replicate]

theorem word_next {j : Nat} (hj : j < (sectors chunkStart count mapStart).length) :
    (sectors chunkStart count mapStart)[j].word chunksPerMapBlock
      = if j + 1 < partsOf count chunksPerMapBlock then UInt32.ofNat (mapStart + j + 1) else 0 := by
  have hk : chunksPerMapBlock < wordsPerSector := by decide
  rw [Sector.word, words_sectors, List.getD_eq_getElem?_getD, List.getElem?_map,
    List.getElem?_range hk, Option.map_some, Option.getD_some, wordOf, if_pos rfl]

/-! ### Reading -/

/-- A run of blocks is listed as a whole, unless it holds block `0` in the wrong place.  What
follows its end is zero, and not listed. -/
theorem listed_blockRun {isFirst : Bool} {start wanted : Nat} (k : Nat)
    (hlt : start + wanted ≤ 2 ^ 32) (hfirst : isFirst = true ∨ 0 < start) (hwanted : 0 < wanted) :
    listed isFirst (blockRun start wanted ++ List.replicate k 0) = blockRun start wanted := by
  have hall : ∀ {s n}, 0 < s → s + n ≤ 2 ^ 32 →
      (blockRun s n ++ List.replicate k 0).takeWhile (· != 0) = blockRun s n := by
    intro s n hs hn
    have hrun : ∀ b ∈ blockRun s n, (b != 0) = true := fun b hb =>
      bne_iff_ne.mpr (ne_zero_of_mem_blockRun hs hn hb)
    rw [List.takeWhile_append_of_pos hrun, List.takeWhile_replicate, if_neg (by decide),
      List.append_nil]
  cases isFirst with
  | false =>
    rcases hfirst with h | hs
    · cases h
    · exact hall hs hlt
  | true =>
    obtain ⟨n, rfl⟩ : ∃ n, wanted = n + 1 := ⟨wanted - 1, by omega⟩
    have hcons : blockRun start (n + 1) = UInt32.ofNat start :: blockRun (start + 1) n := rfl
    rw [hcons, List.cons_append, listed, hall (Nat.succ_pos _) (by omega)]

variable {σ : Type} {readBlock : UInt32 → Attempt σ Sector} {s : σ}

/-- What was found and a block of the map give what is found next. -/
theorem follow_succ {count steps : Nat} {b : UInt32} {found : InodeMap} {sector : Sector}
    {chunks : List UInt32} (hmore : found.chunks.size < count) (hread : readBlock b s = .ok sector s)
    (hchunks : listed found.chunks.isEmpty
      (sector.words.take (min (count - found.chunks.size) chunksPerMapBlock)) = chunks) :
    follow readBlock count (steps + 1) b found s
      = if chunks.length < min (count - found.chunks.size) chunksPerMapBlock
          ∨ sector.word chunksPerMapBlock = 0
        then .ok ⟨found.chunks ++ chunks.toArray, found.chain.push b⟩ s
        else follow readBlock count steps (sector.word chunksPerMapBlock)
          ⟨found.chunks ++ chunks.toArray, found.chain.push b⟩ s := by
  rw [follow, if_neg (Nat.not_le.mpr hmore), bind_apply, hread]
  dsimp only
  rw [hchunks]
  split <;> rfl

section

variable {asked : Nat} (hchunks : chunkStart + count ≤ 2 ^ 32)
  (hblocks : mapStart + partsOf count chunksPerMapBlock ≤ 2 ^ 32)
  (hread : ∀ j (hj : j < (sectors chunkStart count mapStart).length),
    readBlock (UInt32.ofNat (mapStart + j)) s = .ok (sectors chunkStart count mapStart)[j] s)

include hchunks hblocks hread

/-- Block `j` lists its share of the run, as far as it was asked for, and leads to the next
one, if there is one. -/
theorem follow_block (steps j : Nat) (hj : j < partsOf count chunksPerMapBlock)
    (hasked : chunksPerMapBlock * j < asked) :
    follow readBlock asked (steps + 1) (UInt32.ofNat (mapStart + j))
        ⟨(blockRun chunkStart (chunksPerMapBlock * j)).toArray, (blockRun mapStart j).toArray⟩ s
      = if j + 1 < partsOf count chunksPerMapBlock then
          follow readBlock asked steps (UInt32.ofNat (mapStart + (j + 1)))
            ⟨(blockRun chunkStart (min asked (chunksPerMapBlock * (j + 1)))).toArray,
              (blockRun mapStart (j + 1)).toArray⟩ s
        else .ok ⟨(blockRun chunkStart (min asked count)).toArray,
          (blockRun mapStart (j + 1)).toArray⟩ s := by
  have hsize : (blockRun chunkStart (chunksPerMapBlock * j)).toArray.size
      = chunksPerMapBlock * j := by rw [List.size_toArray, length_blockRun]
  have hchain : (blockRun mapStart j).toArray.push (UInt32.ofNat (mapStart + j))
      = (blockRun mapStart (j + 1)).toArray := by
    rw [List.push_toArray, ← blockRun_append]
    rfl
  have hjn : j < (sectors chunkStart count mapStart).length := by
    rwa [sectors, List.length_map, List.length_range]
  have hparts : partsOf count chunksPerMapBlock = (count + 126) / 127 := rfl
  have h127 : chunksPerMapBlock = 127 := rfl
  have hthis : chunksPerMapBlock * j = 127 * j := rfl
  have hnext : chunksPerMapBlock * (j + 1) = 127 * (j + 1) := rfl
  have hlt : chunksPerMapBlock * j < count := by omega
  -- of the chunks that are wanted, block `j` lists those that are there
  obtain ⟨wanted, hw⟩ : ∃ n, n = min (asked - chunksPerMapBlock * j) chunksPerMapBlock := ⟨_, rfl⟩
  obtain ⟨there, ht⟩ : ∃ n, n = min wanted (count - chunksPerMapBlock * j) := ⟨_, rfl⟩
  have hwanted : min (asked - (blockRun chunkStart (chunksPerMapBlock * j)).toArray.size)
      chunksPerMapBlock = wanted := by rw [hsize, hw]
  have hempty : (blockRun chunkStart (chunksPerMapBlock * j)).toArray.isEmpty = decide (j = 0) := by
    rw [Array.isEmpty, hsize]
    exact decide_eq_decide.mpr ⟨fun h => by omega, fun h => by omega⟩
  have hlisted : ∀ k, listed (decide (j = 0))
      (blockRun (chunkStart + chunksPerMapBlock * j) there ++ List.replicate k 0)
      = blockRun (chunkStart + chunksPerMapBlock * j) there := by
    intro k
    refine listed_blockRun k (by omega) ?_ (by omega)
    by_cases h0 : j = 0
    · exact .inl (decide_eq_true h0)
    · exact .inr (by omega)
  have hfound : (blockRun chunkStart (chunksPerMapBlock * j)).toArray
      ++ (blockRun (chunkStart + chunksPerMapBlock * j) there).toArray
      = (blockRun chunkStart (chunksPerMapBlock * j + there)).toArray := by
    rw [List.append_toArray, blockRun_append]
  have hhere : listed (blockRun chunkStart (chunksPerMapBlock * j)).toArray.isEmpty
      ((sectors chunkStart count mapStart)[j].words.take
        (min (asked - (blockRun chunkStart (chunksPerMapBlock * j)).toArray.size)
          chunksPerMapBlock)) = blockRun (chunkStart + chunksPerMapBlock * j) there := by
    rw [hwanted, hempty, take_words hjn (by omega), ← ht, hlisted]
  rw [follow_succ (by rw [hsize]; exact hasked) (hread j hjn) hhere, hwanted, length_blockRun,
    word_next hjn, hfound, hchain]
  by_cases hlast : j + 1 < partsOf count chunksPerMapBlock
  · -- a full block, behind which the chain goes on
    have hnz : UInt32.ofNat (mapStart + j + 1) ≠ 0 := ofNat_ne_zero (by omega) (by omega)
    have hsum : chunksPerMapBlock * j + there = min asked (chunksPerMapBlock * (j + 1)) := by omega
    have hgo : ¬(there < wanted ∨ UInt32.ofNat (mapStart + j + 1) = 0) := by
      intro h
      rcases h with h | h
      · omega
      · exact hnz h
    rw [if_pos hlast, if_neg hgo, if_pos hlast, hsum, Nat.add_assoc]
  · have hsum : chunksPerMapBlock * j + there = min asked count := by omega
    rw [if_neg hlast, if_pos (.inr rfl), if_neg hlast, hsum]

/-- The chain from block `j` on lists the rest of the run, as far as it was asked for. -/
theorem follow_sectors (steps j : Nat) (hsteps : j + steps = partsOf asked chunksPerMapBlock)
    (hj : j < partsOf count chunksPerMapBlock) :
    follow readBlock asked steps (UInt32.ofNat (mapStart + j))
        ⟨(blockRun chunkStart (min asked (chunksPerMapBlock * j))).toArray,
          (blockRun mapStart j).toArray⟩ s
      = .ok ⟨(blockRun chunkStart (min asked count)).toArray,
          (blockRun mapStart (min (partsOf asked chunksPerMapBlock)
            (partsOf count chunksPerMapBlock))).toArray⟩ s := by
  have hall : partsOf asked chunksPerMapBlock = (asked + 126) / 127 := rfl
  have hparts : partsOf count chunksPerMapBlock = (count + 126) / 127 := rfl
  have hthis : chunksPerMapBlock * j = 127 * j := rfl
  -- one step of the walk for each block that may be needed
  induction steps generalizing j with
  | zero =>
    have hchunks : min asked (chunksPerMapBlock * j) = min asked count := by omega
    have hchain : min (partsOf asked chunksPerMapBlock) (partsOf count chunksPerMapBlock) = j := by
      omega
    rw [follow, hchunks, hchain]
    rfl
  | succ steps ih =>
    have hmin : min asked (chunksPerMapBlock * j) = chunksPerMapBlock * j := by omega
    rw [hmin, follow_block hchunks hblocks hread steps j hj (by omega)]
    by_cases hlast : j + 1 < partsOf count chunksPerMapBlock
    · rw [if_pos hlast]
      exact ih (j + 1) (by omega) hlast rfl
    · have hchain : min (partsOf asked chunksPerMapBlock) (partsOf count chunksPerMapBlock)
          = j + 1 := by omega
      rw [if_neg hlast, hchain]

/-- The map of a run of chunks lists as many of them as are asked for, and no others. -/
theorem read_sectors (hcount : 0 < count) :
    read readBlock (UInt32.ofNat mapStart) asked s
      = if asked ≤ count then
          .ok ⟨(blockRun chunkStart asked).toArray,
            (blockRun mapStart (partsOf asked chunksPerMapBlock)).toArray⟩ s
        else .error .corruptSuperblock s := by
  have hall : partsOf asked chunksPerMapBlock = (asked + 126) / 127 := rfl
  have hparts : partsOf count chunksPerMapBlock = (count + 126) / 127 := rfl
  -- the walk starts with nothing found, which is a run of no blocks
  have hrun : follow readBlock asked (partsOf asked chunksPerMapBlock) (UInt32.ofNat mapStart)
      ⟨#[], #[]⟩ s = .ok ⟨(blockRun chunkStart (min asked count)).toArray,
        (blockRun mapStart (min (partsOf asked chunksPerMapBlock)
          (partsOf count chunksPerMapBlock))).toArray⟩ s := by
    have := follow_sectors hchunks hblocks hread (partsOf asked chunksPerMapBlock) 0
      (Nat.zero_add _) (by omega)
    rwa [Nat.mul_zero, Nat.min_zero] at this
  have hsize : (blockRun chunkStart (min asked count)).toArray.size = min asked count := by
    rw [List.size_toArray, length_blockRun]
  rw [read, bind_apply, hrun]
  dsimp only
  rw [hsize]
  by_cases h : asked ≤ count
  · rw [if_neg (by omega), if_pos h, Nat.min_eq_left h, Nat.min_eq_left (by omega)]
    rfl
  · rw [if_pos (by omega), if_neg h]
    rfl

end

end InodeMap

end SectorFs

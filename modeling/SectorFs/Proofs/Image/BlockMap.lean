import Mathlib.Algebra.GroupWithZero.Nat
import SectorFs.Proofs.Image.FirstFit
import SectorFs.Proofs.Sector

/-!
# Block maps filled from the front

A map in which the blocks in use are the first `n` (`BlockMap.FirstUsed`) stays one when
space is taken from it: the first fit is the run behind them (`allocate_firstUsed`).  A
map that is filled from empty so gives out runs one behind the other, as long as there is
room behind them (`allocate_of_room`, `allocate_of_no_room`), and counts `n` blocks in use
(`FirstUsed.usedCount_eq`).  A map that has no bit behind its last block counts its blocks in use
(`usedCount_eq_countP`) and is read back as it was written (`ofBytes_toSectors`).
-/

namespace SectorFs

namespace BlockMap

/-- The blocks in use are the first `n`. -/
structure FirstUsed (m : BlockMap) (n : Nat) : Prop where
  le_blocks : n ≤ m.blocks
  bit_eq : ∀ b, m.bit b = decide (b < n)

/-! ### Bits -/

theorem firstUsed_empty (blocks : Nat) : (empty blocks).FirstUsed 0 where
  le_blocks := Nat.zero_le _
  bit_eq b := by
    have h : (empty blocks).bytes.getD (b / 8) 0 = 0 := by
      show (Array.replicate (partsOf blocks 8) (0 : UInt8)).getD (b / 8) 0 = 0
      rw [Array.getD_eq_getD_getElem?, Array.getElem?_replicate]
      split <;> rfl
    rw [bit, h]
    simp

theorem eq_of_bit {m k : BlockMap} (hblocks : m.blocks = k.blocks) (h : ∀ b, m.bit b = k.bit b) :
    m = k := by
  have hsize : m.bytes.size = k.bytes.size := by rw [m.size_eq, k.size_eq, hblocks]
  have hbytes : m.bytes = k.bytes := by
    refine Array.ext hsize fun i hi hi' => UInt8.toNat_inj.mp (Nat.eq_of_testBit_eq fun j => ?_)
    by_cases hj : j < 8
    · have hbit := h (8 * i + j)
      rw [bit, bit, show (8 * i + j) / 8 = i by omega, show (8 * i + j) % 8 = j by omega,
        Array.getD_eq_getD_getElem?, Array.getD_eq_getD_getElem?, Array.getElem?_eq_getElem hi,
        Array.getElem?_eq_getElem hi'] at hbit
      exact hbit
    · have hhigh : ∀ byte : UInt8, byte.toNat.testBit j = false := fun byte =>
        Nat.testBit_lt_two_pow (Nat.lt_of_lt_of_le byte.toNat_lt
          (Nat.pow_le_pow_right (by decide) (Nat.le_of_not_lt hj)))
      rw [hhigh, hhigh]
  cases m
  cases k
  cases hblocks
  cases hbytes
  rfl

theorem FirstUsed.isAllocated_eq {m : BlockMap} {n : Nat} (h : m.FirstUsed n) (b : Nat) :
    m.isAllocated b = decide (b < n) := by
  have hn := h.le_blocks
  rw [isAllocated, h.bit_eq]
  by_cases hb : b < n
  · have : b < m.blocks := by omega
    simp [hb, this]
  · simp [hb]

theorem bit_mark {m : BlockMap} {b : Nat} (hb : b < m.blocks) (c : Nat) :
    (m.mark b).bit c = (decide (c = b) || m.bit c) := by
  have hsize : b / 8 < m.bytes.size := by
    rw [m.size_eq, partsOf]
    omega
  unfold bit
  show ((m.bytes.modify (b / 8) _).getD (c / 8) 0).toNat.testBit (c % 8) = _
  rw [Array.getD_eq_getD_getElem?, Array.getElem?_modify, Array.getD_eq_getD_getElem?]
  by_cases hbyte : b / 8 = c / 8
  · have hlt : c / 8 < m.bytes.size := by omega
    have hor : (m.bytes[c / 8].toNat ||| 2 ^ (b % 8)) % 2 ^ 8
        = m.bytes[c / 8].toNat ||| 2 ^ (b % 8) := by
      refine Nat.mod_eq_of_lt (Nat.or_lt_two_pow (UInt8.toNat_lt _) ?_)
      exact Nat.pow_lt_pow_right (by decide) (Nat.mod_lt _ (by decide))
    rw [if_pos hbyte, Array.getElem?_eq_getElem hlt]
    simp only [Option.map_some, Option.getD_some, UInt8.toNat_ofNat', Nat.one_shiftLeft, hor,
      Nat.testBit_or, Nat.testBit_two_pow]
    rw [Bool.or_comm]
    congr 1
    exact decide_eq_decide.mpr ⟨fun h => by omega, fun h => by omega⟩
  · rw [if_neg hbyte]
    have : c ≠ b := fun h => hbyte (by rw [h])
    simp [this]

theorem bit_markRun {m : BlockMap} {start count : Nat} (h : start + count ≤ m.blocks) (c : Nat) :
    (m.markRun start count).bit c = (decide (start ≤ c ∧ c < start + count) || m.bit c) := by
  induction count generalizing m start with
  | zero =>
    rw [decide_eq_false (by omega), Bool.false_or]
    rfl
  | succ count ih =>
    have hrest : (m.markRun start (count + 1)).bit c
        = (decide (start + 1 ≤ c ∧ c < start + 1 + count) || (m.mark start).bit c) :=
      ih (by rw [blocks_mark]; omega)
    rw [bit_mark (by omega), ← Bool.or_assoc, ← Bool.decide_or] at hrest
    refine hrest.trans (congrArg (· || m.bit c) (decide_eq_decide.mpr ?_))
    omega

theorem FirstUsed.markRun {m : BlockMap} {n count : Nat} (h : m.FirstUsed n)
    (hn : n + count ≤ m.blocks) : (m.markRun n count).FirstUsed (n + count) where
  le_blocks := by
    rw [blocks_markRun]
    exact hn
  bit_eq b := by
    rw [bit_markRun hn, h.bit_eq, ← Bool.decide_or]
    exact decide_eq_decide.mpr (by omega)

/-! ### First fit -/

/-- A run fits anywhere behind the blocks in use. -/
theorem FirstUsed.hasRoom_iff {m : BlockMap} {n count start : Nat} (h : m.FirstUsed n)
    (hpos : 0 < count) : m.HasRoom count start ↔ n ≤ start ∧ start + count ≤ m.blocks := by
  constructor
  · rintro ⟨hle, hfree⟩
    have hfirst := hfree 0 hpos
    rw [h.isAllocated_eq] at hfirst
    exact ⟨Nat.le_of_not_lt (of_decide_eq_false hfirst), hle⟩
  · rintro ⟨hn, hle⟩
    refine ⟨hle, fun k _ => ?_⟩
    rw [h.isAllocated_eq]
    exact decide_eq_false (by omega)

theorem FirstUsed.firstFit {m : BlockMap} {n count : Nat} (h : m.FirstUsed n) (hpos : 0 < count)
    (hroom : n + count ≤ m.blocks) : m.FirstFit count n := by
  refine ⟨(h.hasRoom_iff hpos).mpr ⟨Nat.le_refl n, hroom⟩, fun t ht hfit => ?_⟩
  have := ((h.hasRoom_iff hpos).mp hfit).1
  omega

/-- The first fit in a map filled from the front is right behind the blocks in use. -/
theorem allocate_firstUsed {m m' : BlockMap} {n count start : Nat} (h : m.FirstUsed n)
    (ha : m.allocate count = .ok (start, m')) :
    start = n ∧ m'.FirstUsed (n + count) ∧ m'.blocks = m.blocks ∧ 0 < count := by
  have hblocks := blocks_of_allocate ha
  obtain ⟨hpos, hfit, rfl⟩ := firstFit_of_allocate ha
  obtain ⟨hn, hle⟩ := (h.hasRoom_iff hpos).mp hfit.1
  have hroom : n + count ≤ m.blocks := by omega
  obtain rfl := hfit.eq (h.firstFit hpos hroom)
  exact ⟨rfl, h.markRun hroom, hblocks, hpos⟩

theorem allocate_of_room {m : BlockMap} {n count : Nat} (h : m.FirstUsed n) (hpos : 0 < count)
    (hroom : n + count ≤ m.blocks) : m.allocate count = .ok (n, m.markRun n count) :=
  allocate_of_firstFit hpos (h.firstFit hpos hroom)

/-- Where there is no room, nothing else is wrong. -/
theorem allocate_of_no_room {m : BlockMap} {n count : Nat} (h : m.FirstUsed n)
    (hroom : m.blocks < n + count) : m.allocate count = .error .outOfDiskSpace := by
  have hle := h.le_blocks
  have hpos : 0 < count := by omega
  refine allocate_of_not_hasRoom hpos fun t ht => ?_
  have := (h.hasRoom_iff hpos).mp ht
  omega

/-! ### Counting -/

theorem sum_ones (bytes : List UInt8) :
    (bytes.map ones).sum = (List.range (8 * bytes.length)).countP fun b =>
      (bytes.getD (b / 8) 0).toNat.testBit (b % 8) := by
  induction bytes with
  | nil => rfl
  | cons byte bytes ih =>
    have hfirst : (List.range 8).countP (fun b =>
        ((byte :: bytes).getD (b / 8) 0).toNat.testBit (b % 8)) = ones byte := by
      refine List.countP_congr fun b hb => ?_
      have hb : b < 8 := List.mem_range.mp hb
      rw [Nat.div_eq_of_lt hb, Nat.mod_eq_of_lt hb]
      rfl
    have hrest : ∀ b, (8 + b) / 8 = b / 8 + 1 ∧ (8 + b) % 8 = b % 8 := fun b => by omega
    rw [List.map_cons, List.sum_cons, List.length_cons, Nat.mul_succ, Nat.add_comm _ 8,
      List.range_add, List.countP_append, hfirst, List.countP_map, ih]
    congr 1
    refine List.countP_congr fun b _ => ?_
    simp only [Function.comp_apply, (hrest b).1, (hrest b).2, List.getD_cons_succ]

/-- The blocks in use are the bits that are set. -/
theorem usedCount_eq (m : BlockMap) :
    m.usedCount = (List.range (8 * m.bytes.size)).countP m.bit := by
  have hfold : ∀ (l : List UInt8) (n : Nat), l.foldl (fun n byte => n + ones byte) n
      = n + (l.map ones).sum := by
    intro l
    induction l with
    | nil => intro n; rfl
    | cons byte l ih =>
      intro n
      rw [List.foldl_cons, ih, List.map_cons, List.sum_cons, Nat.add_assoc]
  rw [usedCount, ← Array.foldl_toList, hfold, Nat.zero_add, sum_ones, Array.length_toList]
  refine List.countP_congr fun b _ => ?_
  rw [bit, Array.getD_eq_getD_getElem?, List.getD_eq_getElem?_getD, Array.getElem?_toList]

theorem countP_range_lt {n k : Nat} (h : n ≤ k) :
    (List.range k).countP (fun b => decide (b < n)) = n := by
  obtain ⟨j, rfl⟩ := Nat.exists_eq_add_of_le h
  have hin : (List.range n).countP (fun b => decide (b < n)) = n := by
    rw [List.countP_eq_length.mpr, List.length_range]
    intro b hb
    exact decide_eq_true (List.mem_range.mp hb)
  have hout : ((List.range j).map (n + ·)).countP (fun b => decide (b < n)) = 0 := by
    refine List.countP_eq_zero.mpr fun b hb => ?_
    obtain ⟨i, -, rfl⟩ := List.mem_map.mp hb
    simp
  rw [List.range_add, List.countP_append, hin, hout, Nat.add_zero]

/-- A map without bits behind its last block counts the blocks in use. -/
theorem usedCount_eq_countP {m : BlockMap} (h : ∀ b, m.bit b = true → b < m.blocks) :
    m.usedCount = (List.range m.blocks).countP m.isAllocated := by
  have hsize : m.bytes.size = (m.blocks + 7) / 8 := m.size_eq
  obtain ⟨k, hk⟩ : ∃ k, 8 * m.bytes.size = m.blocks + k := ⟨8 * m.bytes.size - m.blocks, by omega⟩
  have hin : (List.range m.blocks).countP m.bit = (List.range m.blocks).countP m.isAllocated := by
    refine List.countP_congr fun b hb => ?_
    rw [isAllocated, decide_eq_true (List.mem_range.mp hb), Bool.true_and]
  have hout : ((List.range k).map (m.blocks + ·)).countP m.bit = 0 := by
    refine List.countP_eq_zero.mpr fun b hb hbit => ?_
    obtain ⟨j, -, rfl⟩ := List.mem_map.mp hb
    have := h _ hbit
    omega
  rw [usedCount_eq, hk, List.range_add, List.countP_append, hin, hout, Nat.add_zero]

theorem usedCount_le {m : BlockMap} (h : ∀ b, m.bit b = true → b < m.blocks) :
    m.usedCount ≤ m.blocks := by
  rw [usedCount_eq_countP h]
  exact Nat.le_trans List.countP_le_length (Nat.le_of_eq List.length_range)

theorem FirstUsed.lt_of_bit {m : BlockMap} {n b : Nat} (h : m.FirstUsed n)
    (hb : m.bit b = true) : b < m.blocks := by
  have hle := h.le_blocks
  rw [h.bit_eq, decide_eq_true_eq] at hb
  omega

theorem FirstUsed.usedCount_eq {m : BlockMap} {n : Nat} (h : m.FirstUsed n) : m.usedCount = n := by
  rw [usedCount_eq_countP fun b => h.lt_of_bit, funext h.isAllocated_eq, countP_range_lt h.le_blocks]

/-! ### On disk -/

theorem exists_ofBytes {bytes : List UInt8} {n : Nat} (h : partsOf n 8 ≤ bytes.length) :
    ∃ m, ofBytes bytes n = .ok m := by
  rw [ofBytes, dif_neg (Nat.not_lt.mpr h)]
  exact ⟨_, rfl⟩

theorem bit_ofBytes {bytes : List UInt8} {n : Nat} {m : BlockMap} (h : ofBytes bytes n = .ok m)
    (b : Nat) :
    m.bit b = (decide (b < n) && (bytes.getD (b / 8) 0).toNat.testBit (b % 8)) := by
  unfold ofBytes at h
  split at h
  · cases h
  · injection h with h
    rw [bit, ← h, Array.getD_eq_getD_getElem?, Array.getElem?_modify, List.getElem?_toArray,
      List.getElem?_take, List.getD_eq_getElem?_getD]
    by_cases hpart : b / 8 < partsOf n 8
    · rw [if_pos hpart]
      by_cases hlast : n / 8 = b / 8
      · -- the byte of the last block keeps its low bits only
        have hin : b < n ↔ b % 8 < n % 8 := by omega
        rw [if_pos hlast, decide_eq_decide.mpr hin]
        cases bytes[b / 8]? with
        | none => simp
        | some byte =>
          have hfit : byte.toNat % 2 ^ (n % 8) < 2 ^ 8 :=
            Nat.lt_of_le_of_lt (Nat.mod_le ..) byte.toNat_lt
          rw [Option.map_some, Option.getD_some, Option.getD_some, Nat.one_shiftLeft,
            UInt8.toNat_ofNat_of_lt' hfit, Nat.testBit_mod_two_pow]
      · have hin : b < n := by
          unfold partsOf at hpart
          omega
        rw [if_neg hlast, decide_eq_true hin, Bool.true_and]
    · have hout : ¬b < n := by
        unfold partsOf at hpart
        omega
      rw [if_neg hpart, decide_eq_false hout]
      simp

/-- The bits behind the last block are dropped when a map is read. -/
theorem lt_of_bit_ofBytes {bytes : List UInt8} {n b : Nat} {m : BlockMap}
    (h : ofBytes bytes n = .ok m) (hb : m.bit b = true) : b < n := by
  rw [bit_ofBytes h, Bool.and_eq_true, decide_eq_true_eq] at hb
  exact hb.1

theorem usedCount_le_of_ofBytes {bytes : List UInt8} {n : Nat} {m : BlockMap}
    (h : ofBytes bytes n = .ok m) : m.usedCount ≤ n := by
  obtain rfl := blocks_of_ofBytes h
  exact usedCount_le fun b => lt_of_bit_ofBytes h

/-- A map without bits behind its last block is read back as it was written. -/
theorem ofBytes_toSectors {m : BlockMap} {k : Nat} {sectors : List Sector}
    (h : ∀ b, m.bit b = true → b < m.blocks) (hs : m.toSectors k = .ok sectors) :
    ofBytes (Sector.join sectors) m.blocks = .ok m := by
  unfold toSectors at hs
  split at hs
  · cases hs
  · rename_i hle
    injection hs with hs
    have hlen : m.bytes.toList.length = partsOf m.blocks 8 := by
      rw [Array.length_toList, m.size_eq]
    rw [← hs, Sector.join_map_ofBytes k _ (by rw [Array.length_toList]; omega)]
    have henough : partsOf m.blocks 8 ≤ (m.bytes.toList
        ++ List.replicate (sectorSize * k - m.bytes.toList.length) 0).length := by
      rw [List.length_append, hlen]
      exact Nat.le_add_right ..
    obtain ⟨n, hn⟩ := exists_ofBytes henough
    have hnm : n = m := by
      refine eq_of_bit (blocks_of_ofBytes hn) fun b => ?_
      rw [bit_ofBytes hn]
      by_cases hb : b < m.blocks
      · have hbyte : b / 8 < m.bytes.toList.length := by
          rw [hlen, partsOf]
          omega
        rw [decide_eq_true hb, Bool.true_and, bit, List.getD_eq_getElem?_getD,
          Array.getD_eq_getD_getElem?, List.getElem?_append_left hbyte, Array.getElem?_toList]
      · rw [decide_eq_false hb, Bool.false_and]
        exact (Bool.eq_false_iff.mpr fun hset => hb (h b hset)).symm
    rw [hn, hnm]

theorem exists_toSectors {m : BlockMap} {k : Nat} (h : m.bytes.size ≤ sectorSize * k) :
    ∃ sectors, m.toSectors k = .ok sectors := by
  rw [toSectors, if_neg (Nat.not_lt.mpr h)]
  exact ⟨_, rfl⟩

theorem length_toSectors {m : BlockMap} {k : Nat} {sectors : List Sector}
    (hs : m.toSectors k = .ok sectors) : sectors.length = k := by
  unfold toSectors at hs
  split at hs
  · cases hs
  · injection hs with hs
    rw [← hs, List.length_map, length_pieces]

end BlockMap

end SectorFs

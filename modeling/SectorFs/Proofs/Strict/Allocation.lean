import SectorFs.Proofs.Image.BlockMap
import SectorFs.Proofs.Strict.Audit

/-!
# Strict allocation

The search for space with every number looked at: where a run starts and how long it is, the
block that is looked at next and the one behind the run must fit in a word, and each byte that is
read or changed must be in the map.  Blocks are taken into use one after the other.

A map that was made empty or read, and then only cleared and allocated from
(`BlockMap.Reachable`), has no bit behind its last block.  So a byte that is skipped ends before
the last block does, and nothing passes a word: allocation comes to no fault, and finds the first
fit (`BlockMap.allocate_of_reachable`).
-/

namespace SectorFs

open Attempt

namespace Strict

section

variable {σ : Type}

/-- Whether a byte of used blocks starts here, between runs. -/
def isFull (m : BlockMap) (length block : Nat) : Strict σ Bool :=
  if length = 0 ∧ block % 8 = 0 then do
    let byte ← known m.bytes[block / 8]?
    return byte = 0xff
  else return false

/-- Looks for `count` free blocks from `block` on, behind `length` free ones from `start` on. -/
def scan (m : BlockMap) (count start length block : Nat) : Strict σ (Option Nat) :=
  if block < m.blocks then do
    if ← isFull m length block then
      let _ ← narrow 32 (block + 8)
      scan m count start length (block + 8)
    else if ← isAllocated m block then
      let _ ← narrow 32 (block + 1)
      scan m count start 0 (block + 1)
    else
      let start := if length = 0 then block else start
      let length ← narrow 32 (length + 1)
      if length = count then return some start
      else
        let _ ← narrow 32 (block + 1)
        scan m count start length (block + 1)
  else return none
termination_by m.blocks - block

end

def mark (b : Nat) : Strict BlockMap Unit := do
  let m ← get
  let _ ← known m.bytes[b / 8]?
  set (m.mark b)

/-- Takes into use what a scan found. -/
def occupy (count : Nat) : Option Nat → Strict BlockMap Nat
  | some start => do
    let stop ← narrow 32 (start + count)
    (List.range' start (stop - start)).forM mark
    return start
  | none => throw (.failure .outOfDiskSpace)

def allocate (count : Nat) : Strict BlockMap Nat := do
  if count = 0 then throw (.failure .invalidArgument)
  occupy count (← scan (← get) count 0 0 0)

end Strict

namespace BlockMap

/-! ### Maps that can be reached -/

/-- Maps of pools whose blocks have numbers of one word, made empty or read, and then cleared and
allocated from. -/
inductive Reachable : BlockMap → Prop
  | empty {blocks : Nat} (h : blocks < 2 ^ 32) : Reachable (.empty blocks)
  | ofBytes {bytes : List UInt8} {blocks : Nat} {m : BlockMap} (h : blocks < 2 ^ 32)
    (hm : ofBytes bytes blocks = .ok m) : Reachable m
  | allocate {m n : BlockMap} {count start : Nat} (hm : Reachable m)
    (h : m.allocate count = .ok (start, n)) : Reachable n
  | clear {m : BlockMap} (hm : Reachable m) : Reachable m.clear

/-- All that is set is the bits of blocks, and these have numbers of one word. -/
structure Bounded (m : BlockMap) : Prop where
  blocks_lt : m.blocks < 2 ^ 32
  lt_of_bit : ∀ b, m.bit b = true → b < m.blocks

theorem bounded_empty {blocks : Nat} (h : blocks < 2 ^ 32) : (empty blocks).Bounded where
  blocks_lt := h
  lt_of_bit b hb := by
    rw [(firstUsed_empty blocks).bit_eq, decide_eq_false (Nat.not_lt_zero b)] at hb
    cases hb

theorem Bounded.allocate {m n : BlockMap} {count start : Nat} (h : m.Bounded)
    (ha : m.allocate count = .ok (start, n)) : n.Bounded := by
  have hblocks := blocks_of_allocate ha
  obtain ⟨-, hfit, rfl⟩ := firstFit_of_allocate ha
  refine ⟨hblocks ▸ h.blocks_lt, fun b hb => ?_⟩
  have hroom := hfit.1.1
  rw [bit_markRun hroom, Bool.or_eq_true, decide_eq_true_eq] at hb
  rw [hblocks]
  rcases hb with hb | hb
  · omega
  · exact h.lt_of_bit b hb

theorem Reachable.bounded {m : BlockMap} (h : m.Reachable) : m.Bounded := by
  induction h with
  | empty h => exact bounded_empty h
  | ofBytes h hm =>
    have hblocks := blocks_of_ofBytes hm
    exact ⟨hblocks ▸ h, fun b hb => hblocks ▸ lt_of_bit_ofBytes hm hb⟩
  | allocate _ ha ih => exact ih.allocate ha
  | clear _ ih => exact bounded_empty ih.blocks_lt

/-- A byte of used blocks ends before the blocks do. -/
theorem Bounded.le_of_byte {m : BlockMap} (h : m.Bounded) {pos : Nat} (hpos : pos % 8 = 0)
    (hbyte : m.bytes[pos / 8]? = some 0xff) : pos + 8 ≤ m.blocks := by
  refine h.lt_of_bit (pos + 7) ?_
  rw [bit, Array.getD_eq_getD_getElem?, show (pos + 7) / 8 = pos / 8 by omega,
    show (pos + 7) % 8 = 7 by omega, hbyte]
  decide

end BlockMap

namespace Strict

variable {σ : Type}

/-! ### No fault -/

theorem isFull_eq {m : BlockMap} {block : Nat} (h : block < m.blocks) (length : Nat) :
    (isFull m length block : Strict σ Bool)
      = pure (decide (length = 0 ∧ block % 8 = 0 ∧ m.bytes[block / 8]? = some 0xff)) := by
  have hbyte : block / 8 < m.bytes.size := by
    rw [m.size_eq, partsOf]
    omega
  rw [isFull, Array.getElem?_eq_getElem hbyte, known]
  split
  · rename_i hlength
    rw [pure_bind]
    congr 1
    simp [hlength]
  · rename_i hlength
    congr 1
    simp [← and_assoc, hlength]

/-- The start that is kept while a run grows is where its free blocks begin. -/
theorem runStart_eq {block length start : Nat} (hstart : 0 < length → start = block - length) :
    (if length = 0 then block else start) = block - length := by
  split
  · omega
  · exact hstart (by omega)

/-- Where a run is known to start, looking for another one is the same. -/
theorem scan_eq {m : BlockMap} (h : m.Bounded) {count block length start : Nat}
    (hle : length ≤ block) (hstart : 0 < length → start = block - length) :
    (scan m count start length block : Strict σ (Option Nat)) = pure (m.scan count block length) := by
  have hblocks := h.blocks_lt
  fun_induction BlockMap.scan m count block length generalizing start with
  | case1 block length hlt hskip ih =>
    have hend := h.le_of_byte hskip.2.1 hskip.2.2
    obtain rfl := hskip.1
    rw [scan, if_pos hlt, isFull_eq hlt, pure_bind, decide_eq_true hskip, if_pos rfl,
      narrow_of_lt (by omega), pure_bind]
    exact ih (Nat.zero_le _) (fun h0 => absurd h0 (Nat.lt_irrefl 0))
  | case2 block length hlt hskip hused ih =>
    rw [scan, if_pos hlt, isFull_eq hlt, pure_bind, decide_eq_false hskip, if_neg (by decide),
      isAllocated_eq, pure_bind, hused, if_pos rfl, narrow_of_lt (by omega), pure_bind]
    exact ih (Nat.zero_le _) (fun h0 => absurd h0 (Nat.lt_irrefl 0))
  | case3 block length hlt hskip hfree hcount =>
    rw [scan, if_pos hlt, isFull_eq hlt, pure_bind, decide_eq_false hskip, if_neg (by decide),
      isAllocated_eq, pure_bind, if_neg hfree, narrow_of_lt (by omega), pure_bind, if_pos hcount,
      runStart_eq hstart]
  | case4 block length hlt hskip hfree hcount ih =>
    rw [scan, if_pos hlt, isFull_eq hlt, pure_bind, decide_eq_false hskip, if_neg (by decide),
      isAllocated_eq, pure_bind, if_neg hfree, narrow_of_lt (by omega), pure_bind, if_neg hcount,
      narrow_of_lt (by omega), pure_bind, runStart_eq hstart]
    exact ih (by omega) (fun _ => by omega)
  | case5 block length hend => rw [scan, if_neg hend]

theorem mark_apply {m : BlockMap} {b : Nat} (hb : b < m.blocks) :
    mark b m = .ok () (m.mark b) := by
  have hbyte : b / 8 < m.bytes.size := by
    rw [m.size_eq, partsOf]
    omega
  have hknown : (known m.bytes[b / 8]? : Strict BlockMap UInt8) = pure m.bytes[b / 8] := by
    rw [Array.getElem?_eq_getElem hbyte]
    rfl
  show (known m.bytes[b / 8]? >>= fun _ => set (m.mark b)) m = _
  rw [hknown, pure_bind]
  rfl

theorem forM_mark {m : BlockMap} {start count : Nat} (h : start + count ≤ m.blocks) :
    (List.range' start count).forM mark m = .ok () (m.markRun start count) := by
  induction count generalizing m start with
  | zero => rfl
  | succ count ih =>
    show EStateM.bind (mark start) (fun _ => (List.range' (start + 1) count).forM mark) m = _
    rw [EStateM.bind, mark_apply (by omega)]
    exact ih (by rw [BlockMap.blocks_mark]; omega)

theorem occupy_some {m : BlockMap} {count start : Nat} (h : m.Bounded)
    (hroom : start + count ≤ m.blocks) :
    occupy count (some start) m = .ok start (m.markRun start count) := by
  have hblocks := h.blocks_lt
  rw [occupy, narrow_of_lt (by omega), pure_bind, Nat.add_sub_cancel_left]
  show EStateM.bind ((List.range' start count).forM mark) _ m = _
  rw [EStateM.bind, forM_mark hroom]
  rfl

theorem allocate_apply {m : BlockMap} (h : m.Bounded) {count : Nat} (hpos : 0 < count) :
    allocate count m = occupy count (m.scan count 0 0) m := by
  have hrun : allocate count m = (scan m count 0 0 0 >>= occupy count) m := by
    rw [allocate, if_neg (Nat.ne_of_gt hpos)]
    rfl
  rw [hrun, scan_eq h (Nat.zero_le 0) (fun _ => rfl), pure_bind]

end Strict

namespace BlockMap

/-- Where a run fits, the first place that it fits is taken into use, and nothing else; where none
does, the map stays as it is.  In neither case is there a fault on the way. -/
theorem allocate_of_reachable {m : BlockMap} (hm : m.Reachable) {count : Nat} (hpos : 0 < count) :
    ((∃ s, m.HasRoom count s) → ∃ s n, m.FirstFit count s
      ∧ m.allocate count = .ok (s, n) ∧ Strict.allocate count m = .ok s n
      ∧ n.blocks = m.blocks ∧ ∀ b, n.bit b = (decide (s ≤ b ∧ b < s + count) || m.bit b))
    ∧ ((¬∃ s, m.HasRoom count s) → m.allocate count = .error .outOfDiskSpace
      ∧ Strict.allocate count m = .error (.failure .outOfDiskSpace) m) := by
  have hrun := Strict.allocate_apply hm.bounded hpos
  constructor
  · intro hroom
    obtain ⟨s, hfit⟩ := exists_firstFit hpos hroom
    rw [(scan_eq_some_iff hpos).mpr hfit, Strict.occupy_some hm.bounded hfit.1.1] at hrun
    exact ⟨s, m.markRun s count, hfit, allocate_of_firstFit hpos hfit, hrun, blocks_markRun ..,
      bit_markRun hfit.1.1⟩
  · intro hroom
    have hnone : ∀ t, ¬m.HasRoom count t := fun t ht => hroom ⟨t, ht⟩
    rw [(scan_eq_none_iff hpos).mpr hnone] at hrun
    exact ⟨allocate_of_not_hasRoom hpos hnone, hrun⟩

/-- Holes of one block are passed over by a run of two, and nine blocks fit nowhere. -/
theorem allocate_between_holes :
    ∃ m : BlockMap, ofBytes [0b10110101, 0] 16 = .ok m
      ∧ (∃ n, Strict.allocate 2 m = .ok 8 n)
      ∧ Strict.allocate 9 m = .error (.failure .outOfDiskSpace) m := by
  obtain ⟨m, hm⟩ : ∃ m, ofBytes [0b10110101, 0] 16 = .ok m := ⟨_, rfl⟩
  have hreach : m.Reachable := .ofBytes (by decide) hm
  have htwo : m.FirstFit 2 8 := by
    obtain rfl := Except.ok.inj hm
    decide +kernel
  have hnine : ¬∃ s, m.HasRoom 9 s := by
    have hsmall : ∀ s < 8, ¬m.HasRoom 9 s := by
      obtain rfl := Except.ok.inj hm
      decide +kernel
    have hblocks := blocks_of_ofBytes hm
    rintro ⟨s, hs⟩
    have hroom := hs.1
    exact hsmall s (by omega) hs
  obtain ⟨s, n, hfit, -, hrun, -⟩ := (allocate_of_reachable hreach (by decide)).1 ⟨8, htwo.1⟩
  rw [hfit.eq htwo] at hrun
  exact ⟨m, hm, ⟨n, hrun⟩, ((allocate_of_reachable hreach (by decide)).2 hnine).2⟩

end BlockMap

end SectorFs

import SectorFs.Proofs.Strict.Allocation
import SectorFs.Proofs.Volume.Mounting

/-!
# How much is in use

The blocks in use are counted over whole bytes, while one block is asked about by its number.  Both
agree as long as no bit is set behind the last block, which every map sees to that was made empty
or read and then cleared and allocated from (`BlockMap.Bounded.exact`).  A volume has such a map,
with a bit for each block of its pool, whatever was done to its tree and its device
(`Session.Reached.reachable`); so used and free blocks add up to the pool, and no difference is
below zero.
-/

namespace SectorFs

open Attempt

namespace Strict

variable {σ : Type}

def freeCount (m : BlockMap) : Strict σ Nat := do minus m.blocks (← usedCount m)

def usage (v : Volume) : Strict σ Usage := do
  let used ← usedCount v.map
  let free ← minus v.geometry.blockCount.toNat used
  return ⟨v.geometry.blockCount.toNat, used, free⟩

end Strict

/-! ### Maps -/

namespace BlockMap

/-- All that a map tells of itself is true of its blocks, and it is read back from sectors. -/
structure Exact (m : BlockMap) : Prop where
  size_eq : m.bytes.size = (m.blocks + 7) / 8
  clear_behind : ∀ b, m.blocks ≤ b → m.bit b = false
  used_eq : m.usedCount = (List.range m.blocks).countP m.isAllocated
  used_add_free : m.usedCount + m.freeCount = m.blocks
  usedCount_eq : ∀ σ, (Strict.usedCount m : Strict σ Nat) = pure m.usedCount
  freeCount_eq : ∀ σ, (Strict.freeCount m : Strict σ Nat) = pure m.freeCount
  read_back : ∀ n, m.bytes.size ≤ sectorSize * n → ∃ sectors, m.toSectors n = .ok sectors
    ∧ sectors.length = n ∧ ofBytes (Sector.join sectors) m.blocks = .ok m

theorem Bounded.usedCount_lt {m : BlockMap} (h : m.Bounded) : m.usedCount < 2 ^ 32 :=
  (usedCount_le h.lt_of_bit).trans_lt h.blocks_lt

theorem Bounded.exact {m : BlockMap} (h : m.Bounded) : m.Exact where
  size_eq := m.size_eq
  clear_behind b hb := by
    rw [Bool.eq_false_iff]
    exact fun hset => Nat.not_lt.mpr hb (h.lt_of_bit b hset)
  used_eq := usedCount_eq_countP h.lt_of_bit
  used_add_free := Nat.add_sub_cancel' (usedCount_le h.lt_of_bit)
  usedCount_eq _ := Strict.usedCount_eq h.usedCount_lt
  freeCount_eq _ := by
    rw [Strict.freeCount, Strict.usedCount_eq h.usedCount_lt, pure_bind,
      Strict.minus_of_le (usedCount_le h.lt_of_bit), freeCount]
  read_back n hn := by
    obtain ⟨sectors, hs⟩ := exists_toSectors hn
    exact ⟨sectors, hs, length_toSectors hs, ofBytes_toSectors h.lt_of_bit hs⟩

theorem isAllocated_ofBytes {bytes : List UInt8} {blocks : Nat} {m : BlockMap}
    (h : ofBytes bytes blocks = .ok m) (i : Nat) :
    m.isAllocated i
      = (decide (i < blocks) && (bytes.getD (i / 8) 0).toNat.testBit (i % 8)) := by
  rw [isAllocated, blocks_of_ofBytes h, bit_ofBytes h, ← Bool.and_assoc, Bool.and_self]

end BlockMap

/-! ### Volumes -/

namespace Volume

section

variable {D : Type} [SectorDevice D] {d e : D} {v : Volume}

/-- A pass makes its map by clearing one and allocating from it. -/
theorem reachable_of_commit {g : Geometry} {k : PoolMap g} {t : Tree}
    (h : commit g k t d = .ok v e) : v.map.Reachable := by
  obtain ⟨p, hplan, -, rfl⟩ := commit_ok h
  refine Pass.plan_keeps ?_ ?_ hplan
  · intro m n count start hm ha
    exact hm.allocate ha
  · rw [k.clear_eq]
    exact .empty g.blockCount.toNat_lt

theorem reachable_of_format (h : format d = .ok v e) : v.map.Reachable := by
  obtain ⟨-, d₁, -, h⟩ := bind_eq_ok_iff.mp h
  obtain ⟨total, d₂, -, h⟩ := bind_eq_ok_iff.mp h
  obtain ⟨g, d₃, -, h⟩ := bind_eq_ok_iff.mp h
  exact reachable_of_commit h

theorem reachable_of_load (h : load d = .ok v e) : v.map.Reachable := by
  obtain ⟨s, d₁, -, h⟩ := bind_eq_ok_iff.mp h
  obtain ⟨total, d₂, -, h⟩ := bind_eq_ok_iff.mp h
  obtain ⟨g, d₃, -, h⟩ := bind_eq_ok_iff.mp h
  obtain ⟨m, d₄, hm, h⟩ := bind_eq_ok_iff.mp h
  obtain ⟨t, d₅, -, h⟩ := bind_eq_ok_iff.mp h
  obtain ⟨i, d₆, -, h⟩ := bind_eq_ok_iff.mp h
  obtain ⟨tree, d₇, -, h⟩ := bind_eq_ok_iff.mp h
  injection h with h _
  subst h
  obtain ⟨bytes, -, hm⟩ := Reading.readMap_eq_ok_iff.mp (Reading.readPoolMap_eq_ok_iff.mp hm)
  exact .ofBytes g.blockCount.toNat_lt hm

theorem reachable_of_mount (h : mount d = .ok v e) : v.map.Reachable := by
  rcases mount_cases h with hload | ⟨c, -, hformat⟩
  · exact reachable_of_load hload
  · exact reachable_of_format hformat

end

/-- The blocks in use are those that the map says are, and with the free ones they make up the
pool; the difference is not below zero. -/
structure Accounts (v : Volume) : Prop where
  total_eq : v.usage.total = v.geometry.blockCount.toNat
  used_eq : v.usage.used = (List.range v.usage.total).countP v.map.isAllocated
  used_add_free : v.usage.used + v.usage.free = v.usage.total
  usage_eq : ∀ σ, (Strict.usage v : Strict σ Usage) = pure v.usage

theorem accounts_of_reachable {v : Volume} (h : v.map.Reachable) : v.Accounts := by
  have hexact := h.bounded.exact
  have hle : v.map.usedCount ≤ v.geometry.blockCount.toNat := by
    rw [← v.map_blocks, ← hexact.used_add_free]
    exact Nat.le_add_right ..
  refine ⟨rfl, ?_, Nat.add_sub_cancel' hle, fun σ => ?_⟩
  · show v.map.usedCount = (List.range v.geometry.blockCount.toNat).countP _
    rw [← v.map_blocks, hexact.used_eq]
  · rw [Strict.usage, hexact.usedCount_eq, pure_bind, Strict.minus_of_le hle, pure_bind]
    rfl

end Volume

/-! ### Sessions -/

namespace Session

variable {D : Type} [SectorDevice D]

/-- Sessions of a volume that was laid out, loaded or mounted.  Its tree and its device may be
changed in any way, and it may be brought to disk and loaded again. -/
inductive Reached : Session D → Prop
  | formatted {d e : D} {v : Volume} (h : Volume.format d = .ok v e) : Reached ⟨e, v⟩
  | opened {d e : D} {v : Volume} (h : Volume.load d = .ok v e) : Reached ⟨e, v⟩
  | mounted {d e : D} {v : Volume} (h : Volume.mount d = .ok v e) : Reached ⟨e, v⟩
  | changed {s : Session D} (hs : Reached s) (d : D) (t : Tree) :
    Reached ⟨d, { s.volume with tree := t }⟩
  | synced {s : Session D} (hs : Reached s) : Reached (sync.after s)
  | loaded {s : Session D} (hs : Reached s) : Reached (load.after s)

omit [SectorDevice D] in
/-- What holds of the map of a volume stays if it holds of all that takes its place. -/
theorem reachable_become {x : Volume → Attempt D Volume} {s : Session D}
    (hs : s.volume.map.Reachable)
    (hx : ∀ v e, x s.volume s.device = .ok v e → v.map.Reachable) :
    ((become x).after s).volume.map.Reachable := by
  cases h : x s.volume s.device with
  | ok v e =>
    rw [after_of_ok (become_of_ok h)]
    exact hx v e h
  | error f e =>
    rw [after_of_error (become_of_error h)]
    exact hs

theorem Reached.reachable {s : Session D} (h : s.Reached) : s.volume.map.Reachable := by
  induction h with
  | formatted h => exact Volume.reachable_of_format h
  | opened h => exact Volume.reachable_of_load h
  | mounted h => exact Volume.reachable_of_mount h
  | changed _ d t ih => exact ih
  | synced _ ih => exact reachable_become ih fun v e h => Volume.reachable_of_commit h
  | loaded _ ih => exact reachable_become ih fun v e h => Volume.reachable_of_load h

/-- A map that was made empty or read, and then cleared and allocated from, counts its blocks right
and is read back as it was written; one that is read has the bits of the bytes.  So used and free
blocks of every session make up its pool. -/
theorem usage_exact :
    (∀ m : BlockMap, m.Reachable → m.Exact)
    ∧ (∀ (bytes : List UInt8) (blocks : Nat), (blocks + 7) / 8 ≤ bytes.length →
      ∃ m, BlockMap.ofBytes bytes blocks = .ok m ∧ m.blocks = blocks ∧ ∀ i, m.isAllocated i
        = (decide (i < blocks) && (bytes.getD (i / 8) 0).toNat.testBit (i % 8)))
    ∧ ∀ (E : Type) [SectorDevice E] (s : Session E), s.Reached → s.volume.Accounts := by
  refine ⟨fun m hm => hm.bounded.exact, ?_,
    fun E _ s hs => Volume.accounts_of_reachable hs.reachable⟩
  intro bytes blocks hlen
  obtain ⟨m, hm⟩ := BlockMap.exists_ofBytes hlen
  exact ⟨m, hm, BlockMap.blocks_of_ofBytes hm, BlockMap.isAllocated_ofBytes hm⟩

/-- Thirteen blocks leave three bits behind the last one, which are dropped, and the last five
blocks can still be given out.  A new disk of eight sectors has three of six blocks in use. -/
theorem usage_exact_thirteen :
    ∃ (m n : BlockMap) (v : Volume) (d : MemoryDisk),
      BlockMap.ofBytes [0xff, 0xe0] 13 = .ok m ∧ m.allocate 5 = .ok (8, n)
      ∧ m.Exact ∧ m.usedCount = 8 ∧ n.Exact ∧ n.usedCount = 13
      ∧ m.isAllocated 7 = true ∧ m.isAllocated 8 = false ∧ m.isAllocated 13 = false
      ∧ Volume.format (MemoryDisk.blank 8) = .ok v d ∧ v.Accounts ∧ v.usage = ⟨6, 3, 3⟩ := by
  obtain ⟨hexact, hread, haccounts⟩ := usage_exact
  obtain ⟨m, hm, -, hbits⟩ := hread [0xff, 0xe0] 13 (by decide)
  have hreach : m.Reachable := .ofBytes (by decide) hm
  have hfit : m.FirstFit 5 8 := by
    obtain rfl := Except.ok.inj hm
    decide +kernel
  have hn := BlockMap.allocate_of_firstFit (by decide) hfit
  have hcounts : m.usedCount = 8 ∧ (m.markRun 8 5).usedCount = 13 := by
    obtain rfl := Except.ok.inj hm
    decide +kernel
  have hrun : (Volume.format : Attempt MemoryDisk Volume).succeeds (MemoryDisk.blank 8)
      (fun v _ => v.usage = ⟨6, 3, 3⟩) = true := by decide +kernel
  obtain ⟨v, d, hv, husage⟩ := succeeds_iff.mp hrun
  exact ⟨m, m.markRun 8 5, v, d, hm, hn, hexact m hreach, hcounts.1,
    hexact _ (hreach.allocate hn), hcounts.2, hbits 7, hbits 8, hbits 13, hv,
    haccounts _ ⟨d, v⟩ (.formatted hv), of_decide_eq_true husage⟩

end Session

end SectorFs

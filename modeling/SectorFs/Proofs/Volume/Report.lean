import Mathlib.Data.List.Dedup
import SectorFs.Proofs.Volume.Coverage
import SectorFs.Proofs.Volume.Mounting

/-!
# What an audit reports

The report of an audit is exact: it tells the blocks that the image refers to from those that the
block map has in use, block for block (`AuditReport.IsExact`).  It covers what loading reads, for
loading asks for no block more often than it is referred to (`Volume.audit_covers_load`).  So
behind a clean report no block is read that is not in use, and none is read twice.
-/

namespace SectorFs

open Attempt

open Backed (disk)

/-- A report tells a block map from a list of references to blocks. -/
structure AuditReport.IsExact (r : AuditReport) (m : BlockMap) (refs : List Nat) : Prop where
  referenced_eq : r.referenced = refs.dedup.length
  marked_eq : r.marked = (List.range m.blocks).countP m.isAllocated
  unmarked_sorted : r.unmarked.Pairwise (· < ·)
  mem_unmarked_iff : ∀ b, b ∈ r.unmarked ↔ b ∈ refs ∧ m.isAllocated b = false
  leaked_sorted : r.leaked.Pairwise (· < ·)
  mem_leaked_iff : ∀ b, b ∈ r.leaked ↔ b ∉ refs ∧ m.isAllocated b = true
  shared_sorted : r.shared.Pairwise (· < ·)
  mem_shared_iff : ∀ b, b ∈ r.shared ↔ 2 ≤ refs.count b
  balance : r.marked + r.unmarked.length = r.referenced + r.leaked.length

/-! ### Counting blocks in two ways -/

/-- What is in one of two sets and what is only in the other make up the same. -/
theorem countP_add_length_filter {α : Type} (p q : α → Bool) (l : List α) :
    l.countP q + (l.filter fun a => p a && !q a).length
      = l.countP p + (l.filter fun a => !p a && q a).length := by
  induction l with
  | nil => rfl
  | cons a l ih =>
    cases hp : p a <;> cases hq : q a <;> simp [hp, hq] <;> omega

theorem countP_mem_range {refs : List Nat} {n : Nat} (h : ∀ b ∈ refs, b < n) :
    (List.range n).countP (fun b => decide (0 < refs.count b)) = refs.dedup.length := by
  rw [List.countP_eq_length_filter]
  refine List.Perm.length_eq ((List.perm_ext_iff_of_nodup
    (List.nodup_range.filter _) (List.nodup_dedup refs)).mpr fun b => ?_)
  rw [List.mem_filter, List.mem_range, List.mem_dedup, decide_eq_true_eq, List.count_pos_iff]
  exact ⟨fun hb => hb.2, fun hb => ⟨h b hb, hb⟩⟩

/-- The report on a tally, told by how often each block is referred to. -/
theorem AuditReport.ofCounts_tally (m : BlockMap) (n : Nat) (blocks : List UInt32) :
    ofCounts m (Audit.tally (Array.replicate n 0) blocks) = {
      referenced := (List.range n).countP fun b => 0 < occurrences b blocks
      marked := m.usedCount
      unmarked := (List.range n).filter fun b => 0 < occurrences b blocks && !m.isAllocated b
      leaked := (List.range n).filter fun b => occurrences b blocks == 0 && m.isAllocated b
      shared := (List.range n).filter fun b => 1 < occurrences b blocks } := by
  have hsize : (Audit.tally (Array.replicate n 0) blocks).size = n := by
    rw [Audit.size_tally, Array.size_replicate]
  have hcount : ∀ b ∈ List.range n, (Audit.tally (Array.replicate n 0) blocks).getD b 0
      = occurrences b blocks :=
    fun b hb => Audit.getD_tally_replicate (List.mem_range.mp hb) blocks
  rw [ofCounts, hsize, AuditReport.mk.injEq]
  exact ⟨List.countP_congr fun b hb => by simp only [hcount b hb], rfl,
    List.filter_congr fun b hb => by simp only [hcount b hb],
    List.filter_congr fun b hb => by simp only [hcount b hb],
    List.filter_congr fun b hb => by simp only [hcount b hb]⟩

/-- On blocks that are all in the pool, the report on a tally is exact. -/
theorem AuditReport.isExact_ofCounts {m : BlockMap} {blocks : List UInt32}
    (hbits : ∀ b, m.bit b = true → b < m.blocks) (hblocks : ∀ b ∈ blocks, b.toNat < m.blocks) :
    (ofCounts m (Audit.tally (Array.replicate m.blocks 0) blocks)).IsExact m
      (blocks.map UInt32.toNat) := by
  have hmarked := BlockMap.usedCount_eq_countP hbits
  have hrefs : ∀ b ∈ blocks.map UInt32.toNat, b < m.blocks := by
    intro b hb
    obtain ⟨c, hc, rfl⟩ := List.mem_map.mp hb
    exact hblocks c hc
  have hreferred : ∀ b, 0 < occurrences b blocks ↔ b ∈ blocks.map UInt32.toNat :=
    fun b => List.count_pos_iff
  have hleaked : ∀ b, (occurrences b blocks == 0) = !decide (0 < occurrences b blocks) := by
    intro b
    cases occurrences b blocks <;> rfl
  have hsorted : ∀ p : Nat → Bool, ((List.range m.blocks).filter p).Pairwise (· < ·) :=
    fun p => List.pairwise_lt_range.filter p
  rw [ofCounts_tally, hmarked]
  constructor
  case referenced_eq => exact countP_mem_range hrefs
  case marked_eq => rfl
  case unmarked_sorted => exact hsorted _
  case mem_unmarked_iff =>
    intro b
    rw [List.mem_filter, List.mem_range, Bool.and_eq_true, decide_eq_true_eq, hreferred,
      Bool.not_eq_true']
    exact ⟨fun h => h.2, fun h => ⟨hrefs b h.1, h⟩⟩
  case leaked_sorted => exact hsorted _
  case mem_leaked_iff =>
    intro b
    rw [List.mem_filter, List.mem_range, hleaked, Bool.and_eq_true, Bool.not_eq_true',
      decide_eq_false_iff_not, hreferred]
    refine ⟨fun h => h.2, fun h => ⟨?_, h⟩⟩
    exact of_decide_eq_true (Bool.and_eq_true_iff.mp h.2).1
  case shared_sorted => exact hsorted _
  case mem_shared_iff =>
    intro b
    rw [List.mem_filter, List.mem_range, decide_eq_true_eq]
    refine ⟨fun h => h.2, fun h => ⟨hrefs b ((hreferred b).mp ?_), h⟩⟩
    exact Nat.lt_of_lt_of_le Nat.zero_lt_two h
  case balance =>
    have hsum := countP_add_length_filter (fun b => decide (0 < occurrences b blocks))
      m.isAllocated (List.range m.blocks)
    simp only [hleaked]
    exact hsum

/-- Behind a clean report each block that is referred to is in use, and referred to once. -/
theorem AuditReport.IsExact.of_isClean {r : AuditReport} {m : BlockMap} {refs : List Nat}
    (h : r.IsExact m refs) (hclean : r.isClean = true) {b : Nat} (hb : b ∈ refs) :
    m.isAllocated b = true ∧ refs.count b = 1 := by
  unfold isClean at hclean
  obtain ⟨hclean, hshared⟩ := Bool.and_eq_true_iff.mp hclean
  have hunmarked := (Bool.and_eq_true_iff.mp hclean).1
  have hmarked : b ∉ r.unmarked := by
    rw [List.isEmpty_iff.mp hunmarked]
    exact List.not_mem_nil
  have honce : b ∉ r.shared := by
    rw [List.isEmpty_iff.mp hshared]
    exact List.not_mem_nil
  rw [h.mem_unmarked_iff] at hmarked
  rw [h.mem_shared_iff] at honce
  have hpos := List.count_pos_iff.mpr hb
  constructor
  · exact Bool.eq_true_of_not_eq_false fun hfree => hmarked ⟨hb, hfree⟩
  · omega

namespace Volume

variable {D : Type} [SectorDevice D] [Backed D]

/-- An audit that ends well reports exactly where the block map and the blocks that the image
refers to disagree.  Loading from any device with the same sectors asks for each block of the pool
at most as often as the image refers to it, hence, if the report is clean, for blocks in use only
and for none of them twice. -/
theorem audit_covers_load {d e : D} {r : AuditReport} (h : Audit.run d = .ok r e) :
    ∃ (s : Superblock) (g : Geometry) (m : BlockMap) (i : InodeMap) (refs : List Nat),
      Reading.readSuperblock (disk d) = .ok s (disk d)
        ∧ s.geometryOn (disk d).totalSectors = .ok g
        ∧ Reading.readMap g (disk d) = .ok m (disk d)
        ∧ Reading.readInodeMap g s (disk d) = .ok i (disk d)
        ∧ Audit.Complete g (disk d) i
        ∧ refs = (Audit.inventory g (disk d) i).all.map UInt32.toNat
        ∧ r.IsExact m refs
        ∧ ∀ {E : Type} [SectorDevice E] [Backed E] (c : E), disk c = disk d →
          ∀ b < g.blockCount.toNat,
            (load.after (Recorder.new c)).timesRead (g.poolStart.toNat + b) ≤ refs.count b
              ∧ (r.isClean = true →
                0 < (load.after (Recorder.new c)).timesRead (g.poolStart.toNat + b) →
                m.isAllocated b = true
                  ∧ (load.after (Recorder.new c)).timesRead (g.poolStart.toNat + b) = 1) := by
  obtain ⟨-, s, g, m, i, hs, hg, hm, hi, hcomplete, hr⟩ :=
    Audit.run_ok_iff.mp (Audit.mirrors_run.of_ok h)
  obtain ⟨bytes, -, hbytes⟩ := Reading.readMap_eq_ok_iff.mp hm
  have hblocks := BlockMap.blocks_of_ofBytes hbytes
  have hexact : r.IsExact m ((Audit.inventory g (disk d) i).all.map UInt32.toNat) := by
    rw [hr, ← hblocks]
    refine AuditReport.isExact_ofCounts (fun b hb => ?_) (fun b hb => ?_)
    · rw [hblocks]
      exact BlockMap.lt_of_bit_ofBytes hbytes hb
    · rw [hblocks]
      exact hcomplete.blocks_lt b hb
  refine ⟨s, g, m, i, _, hs, hg, hm, hi, hcomplete, rfl, hexact, ?_⟩
  intro E _ _ c hc b hb
  have hread : (load.after (Recorder.new c)).timesRead (g.poolStart.toNat + b)
      ≤ ((Audit.inventory g (disk d) i).all.map UInt32.toNat).count b := by
    have := load_readsAtMost (D := E) hs hg hi b (Recorder.new c) hc
    rwa [show (Recorder.new c).timesRead (g.poolStart.toNat + b) = 0 from rfl, Nat.zero_add] at this
  refine ⟨hread, fun hclean hpos => ?_⟩
  obtain ⟨hmarked, honce⟩ :=
    hexact.of_isClean hclean (List.count_pos_iff.mp (Nat.lt_of_lt_of_le hpos hread))
  rw [honce] at hread
  exact ⟨hmarked, Nat.le_antisymm hread hpos⟩

/-- The disk with one file, whose record tells of an indirect block that is that of the root's
entries, and with block 5 in use for block 2. -/
def crossedDisk : MemoryDisk := (fileDisk.patch 1 0 [0b100011]).patch 2 124 [2]

/-- Behind a clean report the block of the root's entries is read once.  Out of order, the report
tells which blocks are. -/
theorem audit_covers_load_file :
    (∃ e, Audit.run fileDisk = .ok ⟨3, 3, [], [], []⟩ e)
      ∧ (load.after (Recorder.new fileDisk)).timesRead 4 = 1
      ∧ ∃ m refs e, Audit.run crossedDisk = .ok ⟨3, 3, [2], [5], [2]⟩ e
        ∧ AuditReport.IsExact ⟨3, 3, [2], [5], [2]⟩ m refs := by
  have hclean : Audit.run.succeeds fileDisk (fun r _ => r == ⟨3, 3, [], [], []⟩) = true := by
    decide +kernel
  have hcrossed : Audit.run.succeeds crossedDisk (fun r _ => r == ⟨3, 3, [2], [5], [2]⟩) = true := by
    decide +kernel
  have hgeometry : Reading.readSuperblock.succeeds fileDisk
      (fun s _ => s.geometry == ⟨6, 1, 2⟩) = true := by
    decide +kernel
  have hread : 0 < (load.after (Recorder.new fileDisk)).timesRead 4 := by decide +kernel
  obtain ⟨r, e, hrun, hr⟩ := succeeds_iff.mp hclean
  obtain ⟨r', e', hrun', hr'⟩ := succeeds_iff.mp hcrossed
  obtain rfl := beq_iff_eq.mp hr
  obtain rfl := beq_iff_eq.mp hr'
  obtain ⟨s, g, _, _, _, hs, hg, -, -, -, -, -, hload⟩ := audit_covers_load hrun
  obtain ⟨_, _, m, _, refs, -, -, -, -, -, -, hexact, -⟩ := audit_covers_load hrun'
  obtain ⟨s', c, hs', hsg⟩ := succeeds_iff.mp hgeometry
  obtain rfl : g = ⟨6, 1, 2⟩ := by
    injection hs.symm.trans hs' with hss _
    rw [Superblock.geometryOn] at hg
    split at hg
    · rw [← Except.ok.inj hg, hss, beq_iff_eq.mp hsg]
    · cases hg
  refine ⟨⟨e, hrun⟩, ?_, m, refs, e', hrun', hexact⟩
  exact ((hload fileDisk rfl 2 (by decide)).2 rfl hread).2

end Volume

end SectorFs

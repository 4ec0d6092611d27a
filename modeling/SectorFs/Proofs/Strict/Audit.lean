import SectorFs.Proofs.Strict.Reading
import SectorFs.Proofs.Volume.Audit

/-!
# Strict audits

An audit with every index and every sum looked at: the words of a record, the blocks of its
payload, the count of each block, the byte of the block map that has its bit, and the number
of blocks referred to.  The counts are as many as the pool has blocks, and the map has a bit
for each of them, so an audit comes to no fault either (`Strict.agrees_audit`).
-/

namespace SectorFs

open Attempt

namespace Strict

section

variable {σ : Type}

def isAllocated (m : BlockMap) (b : Nat) : Strict σ Bool :=
  if b < m.blocks then do
    let byte ← known m.bytes[b / 8]?
    return byte.toNat.testBit (b % 8)
  else return false

/-- The report with one more block looked at. -/
def inspect (m : BlockMap) (counts : Array Nat) (r : AuditReport) (b : Nat) :
    Strict σ AuditReport := do
  let count ← known counts[b]?
  let allocated ← isAllocated m b
  let referenced ← narrow 32 (r.referenced + if 0 < count then 1 else 0)
  return {
    referenced
    marked := r.marked
    unmarked := if 0 < count && !allocated then r.unmarked ++ [b] else r.unmarked
    leaked := if count == 0 && allocated then r.leaked ++ [b] else r.leaked
    shared := if 1 < count then r.shared ++ [b] else r.shared }

/-- The report on a map and the number of times that each block is referred to. -/
def report (m : BlockMap) (counts : Array Nat) : Strict σ AuditReport := do
  let marked ← usedCount m
  (List.range counts.size).foldlM (inspect m counts) ⟨0, marked, [], [], []⟩

end

section

variable {D : Type} [SectorDevice D]

def countRecord (g : Geometry) (counts : Array Nat) (raw : List UInt8) : Strict D (Array Nat) := do
  let r ← known (Record.ofBytes? raw)
  if r.isFree then return counts
  else
    let blocks ← payloadBlocks (readBlock g) r
    let counts ← lift (blocks.foldlM Audit.count counts)
    if r.indirect = 0 then return counts else lift (Audit.count counts r.indirect)

def countChunk (g : Geometry) (counts : Array Nat) (chunk : UInt32) : Strict D (Array Nat) := do
  let sector ← readBlock g chunk
  (pieces recordSize recordsPerChunk sector.bytes).foldlM (countRecord g) counts

def audit : Strict D AuditReport := do
  let s ← readSuperblock
  let g ← geometryOn s (← of Device.totalSectors)
  let m ← readMap g
  let i ← readInodeMap (readBlock g) s.inodeMapStart s.chunkCount.toNat
  let chunks := i.chunks.toList
  let counts ← lift
    ((chunks ++ i.chain.toList).foldlM Audit.count (Array.replicate g.blockCount.toNat 0))
  report m (← chunks.foldlM (countChunk g) counts)

end

/-! ### The report -/

section

variable {σ : Type}

theorem isAllocated_eq (m : BlockMap) (b : Nat) :
    (isAllocated m b : Strict σ Bool) = pure (m.isAllocated b) := by
  unfold isAllocated BlockMap.isAllocated
  by_cases hb : b < m.blocks
  · have hbyte : b / 8 < m.bytes.size := by
      rw [m.size_eq, partsOf]
      omega
    rw [if_pos hb, decide_eq_true hb, Bool.true_and, BlockMap.bit, Array.getD_eq_getD_getElem?,
      Array.getElem?_eq_getElem hbyte]
    rfl
  · rw [if_neg hb, decide_eq_false hb, Bool.false_and]

/-- The report on the first blocks of a pool. -/
def reportBelow (m : BlockMap) (counts : Array Nat) (n : Nat) : AuditReport :=
  let count := fun b => counts.getD b 0
  { referenced := (List.range n).countP fun b => 0 < count b
    marked := m.usedCount
    unmarked := (List.range n).filter fun b => 0 < count b && !m.isAllocated b
    leaked := (List.range n).filter fun b => count b == 0 && m.isAllocated b
    shared := (List.range n).filter fun b => 1 < count b }

theorem inspect_reportBelow {m : BlockMap} {counts : Array Nat} {n : Nat} (hn : n < counts.size)
    (hsize : counts.size < 2 ^ 32) :
    (inspect m counts (reportBelow m counts n) n : Strict σ AuditReport)
      = pure (reportBelow m counts (n + 1)) := by
  have hcount : counts[n]? = some (counts.getD n 0) := by
    rw [Array.getD_eq_getD_getElem?, Array.getElem?_eq_getElem hn, Option.getD_some]
  have hle : (reportBelow m counts n).referenced ≤ n :=
    List.countP_le_length.trans_eq List.length_range
  have hone : (if 0 < counts.getD n 0 then 1 else 0) ≤ 1 := by
    generalize counts.getD n 0 = c
    split <;> decide
  have hfilter : ∀ p : Nat → Bool, (List.range (n + 1)).filter p
      = if p n then (List.range n).filter p ++ [n] else (List.range n).filter p := fun p => by
    rw [List.range_succ, List.filter_append]
    cases hp : p n with
    | true => rw [List.filter_cons_of_pos hp, List.filter_nil, if_pos rfl]
    | false => rw [List.filter_cons_of_neg (by simp [hp]), List.filter_nil, List.append_nil]; rfl
  have hreferenced : (reportBelow m counts (n + 1)).referenced
      = (reportBelow m counts n).referenced + if 0 < counts.getD n 0 then 1 else 0 := by
    show (List.range (n + 1)).countP _ = _
    rw [List.range_succ, List.countP_append, List.countP_singleton]
    simp only [decide_eq_true_eq]
    rfl
  unfold inspect
  rw [hcount, known, pure_bind, isAllocated_eq, pure_bind, narrow_of_lt (by omega)]
  refine congrArg (pure : AuditReport → Strict σ AuditReport) ?_
  rw [AuditReport.mk.injEq]
  refine ⟨hreferenced.symm, rfl,
    (hfilter fun b => 0 < counts.getD b 0 && !m.isAllocated b).symm,
    (hfilter fun b => counts.getD b 0 == 0 && m.isAllocated b).symm, ?_⟩
  refine Eq.trans ?_ (hfilter fun b => 1 < counts.getD b 0).symm
  simp only [decide_eq_true_eq]
  rfl

theorem report_eq {m : BlockMap} {counts : Array Nat} (hused : m.usedCount < 2 ^ 32)
    (hsize : counts.size < 2 ^ 32) :
    (report m counts : Strict σ AuditReport) = pure (.ofCounts m counts) := by
  have hbelow : ∀ n ≤ counts.size,
      ((List.range n).foldlM (inspect m counts) ⟨0, m.usedCount, [], [], []⟩ :
        Strict σ AuditReport) = pure (reportBelow m counts n) := by
    intro n hn
    induction n with
    | zero => rfl
    | succ n ih =>
      rw [List.range_succ, List.foldlM_append, ih (Nat.le_of_succ_le hn), pure_bind,
        List.foldlM_cons, inspect_reportBelow hn hsize, pure_bind]
      rfl
  rw [report, usedCount_eq hused, pure_bind]
  exact hbelow _ (Nat.le_refl _)

end

/-! ### Agreement -/

section

variable {D : Type} [SectorDevice D] [Backed D] {total : UInt32}

theorem agrees_countRecord {g : Geometry} (hg : g.Fits total) {counts : Array Nat}
    {raw : List UInt8} (hraw : raw.length = recordSize) :
    Agrees (D := D) total (countRecord g counts raw)
      (Audit.countRecord g counts (.ofWords (Word.parse raw))) := by
  unfold countRecord Audit.countRecord
  rw [known_ofBytes? hraw, pure_bind]
  split
  · exact .pure _
  · refine .bind (agrees_payloadBlocks (agrees_readBlock hg) _) fun _ _ =>
      .bind (.lift _) fun _ _ => ?_
    split
    · exact .pure _
    · exact .lift _

theorem agrees_countChunk {g : Geometry} (hg : g.Fits total) (counts : Array Nat)
    (chunk : UInt32) :
    Agrees (D := D) total (countChunk g counts chunk) (Audit.countChunk g counts chunk) := by
  refine .bind (agrees_readBlock hg chunk) fun sector _ => ?_
  have hchunk : recordSize * recordsPerChunk ≤ sector.bytes.length := sector.length_eq.ge
  rw [← map_pieces_chunk, List.foldlM_map]
  exact .foldlM (P := fun _ => True)
    (fun _ raw hraw _ => agrees_countRecord hg (length_of_mem_pieces hchunk raw hraw))
    (fun _ _ _ _ _ _ _ _ => trivial) trivial

omit [Backed D] in
theorem size_countRecord {g : Geometry} {counts c : Array Nat} {r : Record} {d e : D}
    (h : Audit.countRecord g counts r d = .ok c e) : c.size = counts.size := by
  unfold Audit.countRecord at h
  split at h
  · injection h with h _
    rw [← h]
  · obtain ⟨blocks, d', -, h⟩ := bind_eq_ok_iff.mp h
    obtain ⟨n, d'', hn, h⟩ := bind_eq_ok_iff.mp h
    obtain ⟨-, rfl⟩ := Audit.countAll_ok_iff.mp (lift_eq_ok_iff.mp hn).1
    split at h
    · injection h with h _
      rw [← h, Audit.size_tally]
    · obtain ⟨-, rfl⟩ := Audit.count_ok_iff.mp (lift_eq_ok_iff.mp h).1
      rw [Audit.size_tally, Audit.size_tally]

omit [Backed D] in
theorem size_countChunk {g : Geometry} {counts c : Array Nat} {chunk : UInt32} {d e : D}
    (h : Audit.countChunk g counts chunk d = .ok c e) : c.size = counts.size := by
  obtain ⟨sector, d', -, h⟩ := bind_eq_ok_iff.mp h
  exact foldlM_of_ok (P := fun c => c.size = counts.size)
    (fun u x _ s v s' hu hv => (size_countRecord hv).trans hu) rfl h

/-- A disk is audited without a fault, whatever it holds. -/
theorem agrees_audit : Agrees (D := D) total audit Audit.run := by
  refine agrees_head (fun g => agrees_readMap) fun s g m hg ⟨d, e, hm⟩ => ?_
  have hused := usedCount_lt_of_readMap hm
  refine .bind (agrees_readInodeMap (agrees_readBlock hg) _ _) fun i _ => ?_
  refine .bind (.lift _) fun counts ⟨d, e, _, hcounts⟩ => ?_
  obtain ⟨-, hcounts⟩ := Audit.countAll_ok_iff.mp (lift_eq_ok_iff.mp hcounts).1
  refine .bind (.foldlM (P := fun _ => True) (fun c chunk _ _ => agrees_countChunk hg c chunk)
    (fun _ _ _ _ _ _ _ _ => trivial) trivial) fun c ⟨d, e, _, hc⟩ => ?_
  have hsize : c.size = counts.size :=
    foldlM_of_ok (P := fun c => c.size = counts.size)
      (fun u x _ s v s' hu hv => (size_countChunk hv).trans hu) rfl hc
  rw [hcounts, Audit.size_tally, Array.size_replicate] at hsize
  rw [report_eq hused (hsize.trans_lt g.blockCount.toNat_lt)]
  exact .pure _

end

end Strict

end SectorFs

import SectorFs.Image.BlockMap

/-!
# First fit

A run goes to the first place where it fits.  The scan for it skips whole bytes of used blocks
and counts free ones across bytes, and still leaves out no place: where it stands, every run that
fits starts among the free blocks right before it or further on (`BlockMap.Scanned`).  So it ends
at the first run that fits (`scan_eq_some_iff`), or nowhere, if none does (`scan_eq_none_iff`).
-/

namespace SectorFs

namespace BlockMap

/-- The blocks of a run are there and free. -/
def HasRoom (m : BlockMap) (count start : Nat) : Prop :=
  start + count ≤ m.blocks ∧ ∀ k < count, m.isAllocated (start + k) = false

instance (m : BlockMap) (count start : Nat) : Decidable (m.HasRoom count start) :=
  inferInstanceAs (Decidable (_ ∧ _))

/-- A run fits here, and nowhere before. -/
def FirstFit (m : BlockMap) (count start : Nat) : Prop :=
  m.HasRoom count start ∧ ∀ t < start, ¬m.HasRoom count t

instance (m : BlockMap) (count start : Nat) : Decidable (m.FirstFit count start) :=
  inferInstanceAs (Decidable (_ ∧ _))

theorem FirstFit.eq {m : BlockMap} {count s t : Nat} (hs : m.FirstFit count s)
    (ht : m.FirstFit count t) : s = t := by
  rcases Nat.lt_trichotomy s t with h | h | h
  · exact absurd hs.1 (ht.2 s h)
  · exact h
  · exact absurd ht.1 (hs.2 t h)

/-- A block in use is in no run that fits. -/
theorem HasRoom.not_mem {m : BlockMap} {count t b : Nat} (h : m.HasRoom count t)
    (hb : m.isAllocated b = true) : b < t ∨ t + count ≤ b := by
  refine Decidable.byContradiction fun hin => ?_
  have hfree := h.2 (b - t) (by omega)
  rw [show t + (b - t) = b by omega, hb] at hfree
  cases hfree

/-! ### Scans -/

/-- A scan that counted `run` free blocks before `pos` has missed no run that fits. -/
structure Scanned (m : BlockMap) (count pos run : Nat) : Prop where
  run_lt : run < count
  run_le : run ≤ pos
  free : ∀ k < run, m.isAllocated (pos - run + k) = false
  le_of_room : ∀ t, m.HasRoom count t → pos - run ≤ t

namespace Scanned

variable {m : BlockMap} {count pos run : Nat}

theorem start (h : 0 < count) : m.Scanned count 0 0 where
  run_lt := h
  run_le := Nat.le_refl 0
  free k hk := absurd hk (Nat.not_lt_zero k)
  le_of_room t _ := Nat.zero_le t

/-- No run that fits starts in a byte of used blocks. -/
theorem skip (h : m.Scanned count pos 0) (hpos : pos % 8 = 0)
    (hbyte : m.bytes[pos / 8]? = some 0xff) : m.Scanned count (pos + 8) 0 where
  run_lt := h.run_lt
  run_le := Nat.zero_le _
  free k hk := absurd hk (Nat.not_lt_zero k)
  le_of_room t ht := by
    have hle := h.le_of_room t ht
    have hpositive := h.run_lt
    have hroom := ht.1
    refine Nat.le_of_not_lt fun hlt => ?_
    -- block `t` itself is one of the eight
    have hfull : ∀ k < 8, (0xff : UInt8).toNat.testBit k = true := by decide
    have hused : m.isAllocated t = true := by
      rw [isAllocated, bit, Array.getD_eq_getD_getElem?, show t / 8 = pos / 8 by omega, hbyte,
        Option.getD_some, hfull (t % 8) (by omega), Bool.and_true]
      exact decide_eq_true (by omega)
    have := ht.not_mem hused
    omega

/-- A block in use ends a run. -/
theorem used (h : m.Scanned count pos run) (hused : m.isAllocated pos = true) :
    m.Scanned count (pos + 1) 0 where
  run_lt := Nat.lt_of_le_of_lt (Nat.zero_le run) h.run_lt
  run_le := Nat.zero_le _
  free k hk := absurd hk (Nat.not_lt_zero k)
  le_of_room t ht := by
    have hle := h.le_of_room t ht
    have hlt := h.run_lt
    have hrun := h.run_le
    have := ht.not_mem hused
    omega

theorem free_succ (h : m.Scanned count pos run) (hfree : m.isAllocated pos = false) :
    ∀ k < run + 1, m.isAllocated (pos - run + k) = false := by
  intro k hk
  have hrun := h.run_le
  by_cases hlast : k = run
  · rw [hlast, Nat.sub_add_cancel hrun]
    exact hfree
  · exact h.free k (by omega)

/-- A free block makes a run longer. -/
theorem grow (h : m.Scanned count pos run) (hfree : m.isAllocated pos = false)
    (hmore : run + 1 ≠ count) : m.Scanned count (pos + 1) (run + 1) where
  run_lt := Nat.lt_of_le_of_ne h.run_lt hmore
  run_le := Nat.succ_le_succ h.run_le
  free := by
    rw [Nat.add_sub_add_right]
    exact h.free_succ hfree
  le_of_room t ht := by
    rw [Nat.add_sub_add_right]
    exact h.le_of_room t ht

/-- A run that is long enough is the first that fits. -/
theorem firstFit (h : m.Scanned count pos run) (hfree : m.isAllocated pos = false)
    (hlt : pos < m.blocks) (hcount : run + 1 = count) : m.FirstFit count (pos - run) := by
  have hrun := h.run_le
  refine ⟨⟨by omega, fun k hk => h.free_succ hfree k (by omega)⟩, fun t ht hroom => ?_⟩
  have := h.le_of_room t hroom
  omega

/-- Behind the last block no run fits. -/
theorem not_hasRoom (h : m.Scanned count pos run) (hend : m.blocks ≤ pos) (t : Nat) :
    ¬m.HasRoom count t := by
  intro ht
  have hle := h.le_of_room t ht
  have hlt := h.run_lt
  have hrun := h.run_le
  have hroom := ht.1
  omega

end Scanned

section

variable {m : BlockMap} {count : Nat}

/-- A scan ends at the first run that fits, or no run does. -/
theorem scan_spec {pos run : Nat} (h : m.Scanned count pos run) :
    (∀ s, m.scan count pos run = some s → m.FirstFit count s)
      ∧ (m.scan count pos run = none → ∀ t, ¬m.HasRoom count t) := by
  fun_induction scan m count pos run with
  | case1 pos run hlt hskip ih =>
    obtain ⟨rfl, hpos, hbyte⟩ := hskip
    exact ih (h.skip hpos hbyte)
  | case2 pos run hlt hskip hused ih => exact ih (h.used hused)
  | case3 pos run hlt hskip hfree hcount =>
    refine ⟨fun s hs => ?_, nofun⟩
    rw [← Option.some.inj hs]
    exact h.firstFit (Bool.eq_false_iff.mpr hfree) hlt hcount
  | case4 pos run hlt hskip hfree hcount ih => exact ih (h.grow (Bool.eq_false_iff.mpr hfree) hcount)
  | case5 pos run hend => exact ⟨nofun, fun _ => h.not_hasRoom (Nat.le_of_not_lt hend)⟩

theorem scan_eq_none_iff (hpos : 0 < count) :
    m.scan count 0 0 = none ↔ ∀ t, ¬m.HasRoom count t := by
  obtain ⟨hsome, hnone⟩ := scan_spec (m := m) (Scanned.start hpos)
  refine ⟨hnone, fun h => ?_⟩
  cases hs : m.scan count 0 0 with
  | none => rfl
  | some s => exact absurd (hsome s hs).1 (h s)

theorem scan_eq_some_iff (hpos : 0 < count) {s : Nat} :
    m.scan count 0 0 = some s ↔ m.FirstFit count s := by
  have hsome := (scan_spec (m := m) (Scanned.start hpos)).1
  refine ⟨hsome s, fun h => ?_⟩
  cases hs : m.scan count 0 0 with
  | none => exact absurd h.1 ((scan_eq_none_iff hpos).mp hs s)
  | some t => rw [(hsome t hs).eq h]

theorem exists_firstFit (hpos : 0 < count) (h : ∃ s, m.HasRoom count s) :
    ∃ s, m.FirstFit count s := by
  obtain ⟨t, ht⟩ := h
  cases hs : m.scan count 0 0 with
  | none => exact absurd ht ((scan_eq_none_iff hpos).mp hs t)
  | some s => exact ⟨s, (scan_eq_some_iff hpos).mp hs⟩

theorem allocate_of_firstFit (hpos : 0 < count) {s : Nat} (h : m.FirstFit count s) :
    m.allocate count = .ok (s, m.markRun s count) := by
  rw [allocate, if_neg (Nat.ne_of_gt hpos), (scan_eq_some_iff hpos).mpr h]

theorem allocate_of_not_hasRoom (hpos : 0 < count) (h : ∀ t, ¬m.HasRoom count t) :
    m.allocate count = .error .outOfDiskSpace := by
  rw [allocate, if_neg (Nat.ne_of_gt hpos), (scan_eq_none_iff hpos).mpr h]

theorem firstFit_of_allocate {s : Nat} {n : BlockMap} (h : m.allocate count = .ok (s, n)) :
    0 < count ∧ m.FirstFit count s ∧ n = m.markRun s count := by
  unfold allocate at h
  split at h
  · cases h
  · rename_i hzero
    have hpos := Nat.pos_of_ne_zero hzero
    split at h
    · rename_i t hs
      obtain ⟨rfl, rfl⟩ := Prod.ext_iff.mp (Except.ok.inj h)
      exact ⟨hpos, (scan_eq_some_iff hpos).mp hs, rfl⟩
    · cases h

end

end BlockMap

end SectorFs

import SectorFs.Proofs.Disk
import SectorFs.Volume.Basic

/-!
# What the steps of a pass leave on the disk

The steps that were taken decide what a disk holds, whatever it held before
(`run_steps_ok`).  Steps that touch no sector twice leave what each of
them wrote (`holds_applyAll`), and a sector that none of them touches keeps what
it had (`sector?_applyAll_of_not_touches`).  Taken once more, they change no sector
(`sectors_applyAll_again`).
-/

namespace SectorFs

open Attempt

namespace Step

/-- The disk after a step. -/
def apply (d : MemoryDisk) : Step → MemoryDisk
  | write lba sectors => d.put lba.toNat sectors
  | flush => { d with flushes := d.flushes + 1 }
  | stop _ => d

/-- A step that a disk of `total` sectors has room for. -/
def Fits (total : UInt32) : Step → Prop
  | write lba sectors => lba.toNat + sectors.length ≤ total.toNat
  | flush => True
  | stop _ => False

/-- A step writes to a sector. -/
def Touches (s : Step) (i : Nat) : Prop :=
  match s with
  | write lba sectors => lba.toNat ≤ i ∧ i < lba.toNat + sectors.length
  | _ => False

/-- No sector is written to by both steps. -/
def Disjoint (a b : Step) : Prop := ∀ i, a.Touches i → ¬b.Touches i

def applyAll (steps : List Step) (d : MemoryDisk) : MemoryDisk := steps.foldl apply d

/-! ### Taking steps -/

section

variable {D : Type} [SectorDevice D]

theorem forM_cons_ok {s : Step} {steps : List Step} {d e : D} :
    (s :: steps).forM run d = .ok () e ↔ ∃ m, s.run d = .ok () m ∧ steps.forM run m = .ok () e := by
  have hc : (s :: steps).forM run d = (s.run >>= fun _ => steps.forM run : Attempt D PUnit) d := rfl
  rw [hc, bind_eq_ok_iff]
  exact ⟨fun ⟨⟨⟩, m, h⟩ => ⟨m, h⟩, fun ⟨m, h⟩ => ⟨⟨⟩, m, h⟩⟩

variable [Backed D]

open Backed (disk)

theorem run_ok {s : Step} {d e : D} (h : s.run d = .ok () e) :
    s.Fits (disk d).totalSectors ∧ disk e = s.apply (disk d) := by
  cases s with
  | write lba sectors =>
    exact MemoryDisk.write_join_ok_iff.mp (Backed.write_ok (Device.attempt_eq_ok_iff.mp h))
  | flush =>
    have hd := Backed.flush_ok (Device.attempt_eq_ok_iff.mp h)
    injection hd with _ hd
    exact ⟨trivial, hd.symm⟩
  | stop f => cases h

@[simp] theorem totalSectors_apply (s : Step) (d : MemoryDisk) :
    (s.apply d).totalSectors = d.totalSectors := by
  cases s with
  | write lba sectors => rw [apply, MemoryDisk.totalSectors, MemoryDisk.size_put]; rfl
  | flush => rfl
  | stop f => rfl

/-- A pass that succeeds has taken all of its steps. -/
theorem run_steps_ok {steps : List Step} {d e : D} (h : steps.forM run d = .ok () e) :
    (∀ s ∈ steps, s.Fits (disk d).totalSectors) ∧ disk e = applyAll steps (disk d) := by
  induction steps generalizing d with
  | nil =>
    injection h with _ h
    rw [h]
    exact ⟨fun _ hs => absurd hs List.not_mem_nil, rfl⟩
  | cons s steps ih =>
    obtain ⟨m, hs, h⟩ := forM_cons_ok.mp h
    obtain ⟨hfit, hm⟩ := run_ok hs
    obtain ⟨hall, he⟩ := ih h
    rw [hm] at hall he
    refine ⟨fun r hr => ?_, he⟩
    rcases List.mem_cons.mp hr with rfl | hr
    · exact hfit
    · rw [← totalSectors_apply s]
      exact hall r hr

end

/-! ### What is on the disk -/

theorem sector?_apply_of_not_touches {s : Step} {i : Nat} (h : ¬s.Touches i) (d : MemoryDisk) :
    (s.apply d).sector? i = d.sector? i := by
  cases s with
  | write lba sectors => rw [apply, MemoryDisk.sector?_put, if_neg fun hi => h ⟨hi.1, hi.2.1⟩]
  | flush => rfl
  | stop f => rfl

theorem sector?_applyAll_of_not_touches {steps : List Step} {i : Nat}
    (h : ∀ s ∈ steps, ¬s.Touches i) (d : MemoryDisk) :
    (applyAll steps d).sector? i = d.sector? i := by
  induction steps generalizing d with
  | nil => rfl
  | cons s steps ih =>
    exact (ih (fun r hr => h r (List.mem_cons_of_mem _ hr)) _).trans
      (sector?_apply_of_not_touches (h s List.mem_cons_self) d)

@[simp] theorem totalSectors_applyAll (steps : List Step) (d : MemoryDisk) :
    (applyAll steps d).totalSectors = d.totalSectors := by
  induction steps generalizing d with
  | nil => rfl
  | cons s steps ih => exact (ih _).trans (totalSectors_apply s d)

/-- What one of several disjoint steps wrote is there after all of them. -/
theorem holds_applyAll {steps : List Step} (hd : steps.Pairwise Disjoint) {lba : UInt32}
    {sectors : List Sector} (hs : write lba sectors ∈ steps) {d : MemoryDisk}
    (hfit : (write lba sectors).Fits d.totalSectors) :
    (applyAll steps d).Holds lba.toNat sectors := by
  induction steps generalizing d with
  | nil => cases hs
  | cons s steps ih =>
    obtain ⟨hfirst, hd⟩ := List.pairwise_cons.mp hd
    rcases List.mem_cons.mp hs with rfl | hs
    · intro k hk
      have ht : (write lba sectors).Touches (lba.toNat + k) := ⟨by omega, by omega⟩
      have hle := d.toNat_totalSectors_le
      have hroom : lba.toNat + sectors.length ≤ d.totalSectors.toNat := hfit
      refine (sector?_applyAll_of_not_touches (fun r hr => hfirst r hr _ ht) _).trans ?_
      rw [apply, MemoryDisk.sector?_put, if_pos ⟨by omega, by omega, by omega⟩,
        Nat.add_sub_cancel_left, List.getElem?_eq_getElem hk]
    · exact ih hd hs (by rw [totalSectors_apply]; exact hfit)

/-- Disjoint steps that were taken change no sector when they are taken again. -/
theorem sectors_applyAll_again {steps : List Step} (hd : steps.Pairwise Disjoint)
    {d : MemoryDisk} (hfit : ∀ s ∈ steps, s.Fits d.totalSectors) :
    (applyAll steps (applyAll steps d)).sectors = (applyAll steps d).sectors := by
  refine Array.ext_getElem? fun i => ?_
  by_cases h : ∃ s ∈ steps, s.Touches i
  · obtain ⟨s, hs, hi⟩ := h
    cases s with
    | write lba sectors =>
      obtain ⟨k, rfl⟩ := Nat.exists_eq_add_of_le hi.1
      have hk : k < sectors.length := by
        have := hi.2
        omega
      have hagain : (write lba sectors).Fits (applyAll steps d).totalSectors := by
        rw [totalSectors_applyAll]
        exact hfit _ hs
      exact (holds_applyAll hd hs hagain k hk).trans (holds_applyAll hd hs (hfit _ hs) k hk).symm
    | flush => exact hi.elim
    | stop f => exact hi.elim
  · exact sector?_applyAll_of_not_touches (fun s hs hi => h ⟨s, hs, hi⟩) _

end Step

end SectorFs

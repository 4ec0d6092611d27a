import SectorFs.Proofs.Tree.Steps

/-!
# Trees that a failure left alone

A failed operation may have made room for an entry that never came: `Tree.Unchanged` says
that two trees are the same slot by slot, but for the room in the buffers of directories.
Unlike equal views this keeps apart tables of different sizes, tells the room that a file has,
and sees the mark.
-/

namespace SectorFs

open Attempt

/-- The second inode is the first, with as much room for entries or more. -/
inductive Inode.Roomier : Inode → Inode → Prop
  | refl (i : Inode) : Roomier i i
  | entries {links : UInt32} {es es' : Buffer directoryPolicy Entry}
      (items_eq : es'.items = es.items) (capacity_le : es.capacity ≤ es'.capacity) :
      Roomier ⟨links, .directory es⟩ ⟨links, .directory es'⟩

theorem Inode.Roomier.view_eq {i j : Inode} (h : Roomier i j) : j.view = i.view := by
  cases h with
  | refl => rfl
  | entries items_eq capacity_le =>
    rw [Inode.view, Inode.view, Content.payload, Content.payload, items_eq]

namespace Tree

variable {t u : Tree}

/-- The second tree is the first, with as much room in its directories or more. -/
structure Unchanged (t u : Tree) : Prop where
  size_eq : u.slots.size = t.slots.size
  slots : ∀ id, Option.Rel Inode.Roomier (t.slot? id) (u.slot? id)
  cwd_eq : u.cwd = t.cwd
  dirty_eq : u.dirty = t.dirty

namespace Unchanged

theorem refl (t : Tree) : t.Unchanged t := by
  refine ⟨rfl, fun id => ?_, rfl, rfl⟩
  cases t.slot? id with
  | none => exact .none
  | some i => exact .some (.refl i)

theorem view_eq (h : t.Unchanged u) : u.view = t.view := by
  funext id
  have hs := h.slots id
  rw [view, view]
  revert hs
  generalize t.slot? id = i
  generalize u.slot? id = j
  rintro (hij | -)
  · exact hij.view_eq
  · rfl

end Unchanged

theorem reserveEntry_unchanged {dir : InodeId} (h : reserveEntry dir t = .ok () u) :
    t.Unchanged u := by
  obtain ⟨-, hcwd, hdirty, hsize, -⟩ := reserveEntry_ok h
  obtain ⟨es, he, h⟩ := except_bind_eq_ok_iff.mp (atomically_eq_ok_iff.mp h)
  obtain ⟨es', hr, h⟩ := except_bind_eq_ok_iff.mp h
  have hr := Buffer.orFail_eq_ok_iff.mp hr
  cases h
  refine ⟨hsize, fun id => ?_, hcwd, hdirty⟩
  have hs : (t.setEntries dir es').slot? id = if dir.index = id.index
      then (t.slot? id).map fun i => { i with content := .directory es' } else t.slot? id :=
    Array.getElem?_modify
  rw [hs]
  by_cases hd : dir = id
  · subst hd
    obtain ⟨i, _, hi, hc, he', -⟩ := entries_of_view (view_of_entries he)
    obtain rfl := Except.ok.inj (he'.symm.trans he)
    obtain ⟨links, content⟩ := i
    subst hc
    rw [if_pos rfl, (inode_eq_ok_iff.mp hi).1]
    exact .some (.entries (Buffer.items_of_reserve hr) (Buffer.capacity_le_of_refit hr))
  · rw [if_neg fun hi => hd (index_inj hi)]
    exact (Unchanged.refl t).slots id

end Tree

end SectorFs

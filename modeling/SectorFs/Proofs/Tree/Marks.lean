import SectorFs.Proofs.Attempt
import SectorFs.Proofs.Tree.Namespace

/-!
# Marks

A tree is marked as dirty when it may differ from what is on disk.  A call never takes the
mark off, and if there is none afterwards, then the call has changed nothing that can be seen:
a failed call may have made room, and a write of nothing or a move to the same place is no
change (`Tree.Call.marked`).  Only starting over takes the mark off.

Each step of an edit marks what it changes, except for the link that a directory gets from one
that is made in it: it relies on the mark that the new inode has left (`moves_store_bind`).
-/

namespace SectorFs

open Attempt

namespace Tree

variable {t u : Tree} {α : Type}

/-! ### Marked changes -/

/-- A mark that one tree has is on another one as well. -/
def KeepsMark (t u : Tree) : Prop := t.dirty = true → u.dirty = true

/-- Whatever is different in a tree is marked. -/
structure Marked (t u : Tree) : Prop where
  keepsMark : t.KeepsMark u
  view_eq : u.dirty = false → u.view = t.view

theorem KeepsMark.dirty_eq_false (h : t.KeepsMark u) (hu : u.dirty = false) : t.dirty = false :=
  Bool.eq_false_iff.mpr fun ht => Bool.eq_false_iff.mp hu (h ht)

instance : IsPreorder Tree KeepsMark where
  refl _ h := h
  trans _ _ _ h k := k ∘ h

instance : IsPreorder Tree Marked where
  refl _ := ⟨id, fun _ => rfl⟩
  trans _ _ _ h k := by
    refine ⟨k.keepsMark ∘ h.keepsMark, fun hclean => ?_⟩
    exact (k.view_eq hclean).trans (h.view_eq (k.keepsMark.dirty_eq_false hclean))

theorem Marked.of_dirty (h : u.dirty = true) : t.Marked u :=
  ⟨fun _ => h, fun hclean => absurd h (Bool.eq_false_iff.mp hclean)⟩

theorem Marked.of_view_eq (hv : u.view = t.view) (hd : u.dirty = t.dirty) : t.Marked u :=
  ⟨fun h => hd.trans h, fun _ => hv⟩

/-! ### Steps -/

theorem moves_reserveEntry (dir : InodeId) : (reserveEntry dir).Moves Marked := by
  refine .atomically fun t _ u h => ?_
  obtain ⟨hv, -, hd, -⟩ := reserveEntry_ok (atomically_eq_ok_iff.mpr h)
  exact .of_view_eq hv hd

theorem moves_addEntry (dir : InodeId) (e : Entry) : (addEntry dir e).Moves Marked := by
  refine .atomically fun t _ u h => ?_
  obtain ⟨-, -, -, -, hd, -⟩ := addEntry_ok (atomically_eq_ok_iff.mpr h)
  exact .of_dirty hd

theorem moves_removeEntry (dir : InodeId) (name : String) :
    (removeEntry dir name).Moves Marked := by
  refine .atomically fun t id u h => ?_
  obtain ⟨-, hd, -⟩ := removeEntry_ok (atomically_eq_ok_iff.mpr h)
  exact .of_dirty hd

theorem moves_reparent (dir parent : InodeId) : (reparent dir parent).Moves Marked := by
  refine .atomically fun t _ u h => ?_
  obtain ⟨-, -, hd, -⟩ := reparent_ok (atomically_eq_ok_iff.mpr h)
  exact .of_dirty hd

theorem moves_allocate (kind : Kind) : (allocate kind).Moves Marked := by
  refine .atomically fun t id u h => ?_
  split at h
  · cases h
  · obtain ⟨⟨i, w⟩, -, h⟩ := except_bind_eq_ok_iff.mp h
    cases h
    exact .of_dirty rfl

theorem dirty_of_store {id : InodeId} {i : Inode} (h : store id i t = .ok () u) :
    u.dirty = true := by
  obtain ⟨-, rfl⟩ := store_eq_ok_iff.mp h
  rfl

/-- After an inode was stored, nothing needs a mark any more. -/
theorem moves_store_bind {id : InodeId} {i : Inode} {f : Unit → Attempt Tree α}
    (hf : (f ()).Moves KeepsMark) : (store id i >>= f).Moves Marked := by
  refine .bind_of_ok (fun t e u h => ?_) fun t _ u h => .of_dirty (hf u (dirty_of_store h))
  rw [atomically_error h]
  exact refl t

/-! ### Edits -/

/-- The link of a directory made below another one is added without a mark of its own. -/
theorem moves_addLink_bind {c : Prop} [Decidable c] {dir : InodeId}
    {f : Unit → Attempt Tree α} (hf : (f ()).Moves KeepsMark) :
    (if c then (modify fun t => t.addLink dir) >>= f else f ()).Moves KeepsMark :=
  .ite (.bind (fun _ h => h) fun _ => hf) hf

theorem moves_attach (path : String) (content : NewContent) :
    (attach path content).Moves Marked := by
  refine .bind .get fun t => .bind (.lift _) fun place => .check fun _ => ?_
  refine .bind (.lift _) fun _ => .bind (moves_reserveEntry _) fun _ =>
    .bind (moves_allocate _) fun id => moves_store_bind ?_
  have hrest : (do
      addEntry place.parent ⟨place.leaf, id⟩
      return id : Attempt Tree InodeId).Moves KeepsMark :=
    .bind ((moves_addEntry _ _).mono fun _ _ h => h.keepsMark) fun _ => .pure _
  exact moves_addLink_bind hrest

theorem moves_copy (source target : String) : (copy source target).Moves Marked :=
  .bind .get fun _ => .bind (.lift _) fun _ => .bind (.lift _) fun _ => .bind (.lift _) fun _ =>
    moves_attach _ _

theorem moves_remove (path : String) : (remove path).Moves Marked :=
  remove_moves moves_removeEntry path

theorem moves_rename (source target : String) : (rename source target).Moves Marked := by
  refine .bind .get fun t => .bind (.lift _) fun src => .check fun _ => ?_
  simp only []
  cases src.existing with
  | none => exact .throw _
  | some id =>
    refine .check fun _ => .bind (.lift _) fun dst => ?_
    cases dst.existing with
    | some there => exact .ite (.pure _) (.throw _)
    | none =>
      refine .bind (.lift _) fun _ => .bind (.lift _) fun i => ?_
      generalize (i.isDirectory && dst.parent != src.parent) = changesParent
      have hlast : (do
          reserveEntry dst.parent
          addEntry dst.parent ⟨dst.leaf, id⟩
          let _ ← removeEntry src.parent src.leaf
          if changesParent then reparent id dst.parent : Attempt Tree Unit).Moves Marked :=
        .bind (moves_reserveEntry _) fun _ => .bind (moves_addEntry _ _) fun _ =>
          .bind (moves_removeEntry _ _) fun _ => .ite (moves_reparent _ _) (.pure _)
      exact .ite (.bind (.lift _) fun _ => .check fun _ => hlast) hlast

/-! ### Other calls -/

theorem moves_writeAt (id : InodeId) (start : Nat) (data : Array UInt8) :
    (writeAt id start data).Moves Marked := by
  refine .atomically fun t n u h => ?_
  split at h
  · cases h
  · obtain ⟨bytes, -, h⟩ := except_bind_eq_ok_iff.mp h
    split at h
    · cases h
      exact refl t
    · obtain ⟨new, -, h⟩ := except_bind_eq_ok_iff.mp h
      cases h
      exact .of_dirty rfl

theorem moves_truncate (id : InodeId) (size : Nat) : (truncate id size).Moves Marked := by
  refine .atomically fun t _ u h => ?_
  split at h
  · cases h
  · obtain ⟨bytes, -, h⟩ := except_bind_eq_ok_iff.mp h
    obtain ⟨new, -, h⟩ := except_bind_eq_ok_iff.mp h
    cases h
    exact .of_dirty rfl

theorem moves_enter (id : InodeId) : (enter id).Moves Marked := by
  refine .atomically fun t _ u h => ?_
  obtain ⟨i, -, h⟩ := except_bind_eq_ok_iff.mp h
  split at h
  · cases h
    exact .of_view_eq rfl rfl
  · cases h

theorem moves_reserveSlots (n : Nat) : (reserveSlots n).Moves Marked := by
  refine .atomically fun t _ u h => ?_
  obtain ⟨w, hw, h⟩ := except_bind_eq_ok_iff.mp h
  cases h
  exact .of_view_eq (view_withRoom hw).1 (dirty_withRoom hw)

/-- A call that does not start over marks what it changes, whether it fails or not. -/
theorem Call.marked {c : Call} (hc : c ≠ .reset) (t : Tree) : t.Marked (c.after t) := by
  cases c with
  | create path => exact moves_attach path _ t
  | mkdir path => exact moves_attach path _ t
  | remove path => exact moves_remove path t
  | rename source target => exact moves_rename source target t
  | copy source target => exact moves_copy source target t
  | writeAt id start data => exact moves_writeAt id start data t
  | writePath path start data =>
    have hmoves : (Tree.writePath path start data).Moves Marked :=
      .bind .get fun _ => .bind (.lift _) fun id => moves_writeAt id start data
    exact hmoves t
  | truncate id size => exact moves_truncate id size t
  | changeDirectory path =>
    have hmoves : (Tree.changeDirectory path).Moves Marked :=
      .bind .get fun _ => .bind (.lift _) fun id => moves_enter id
    exact hmoves t
  | enter id => exact moves_enter id t
  | reserveSlots n => exact moves_reserveSlots n t
  | reset => exact absurd rfl hc

end Tree

end SectorFs

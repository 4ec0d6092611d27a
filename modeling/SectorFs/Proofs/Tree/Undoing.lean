import SectorFs.Proofs.Tree.Contents
import SectorFs.Proofs.Tree.Making

/-!
# Making and removing again

What was made is removed by the path it was made at, whatever its bytes became meanwhile, and
then the tree is what it was (`givenBack_of_calls`).  The entry of a new inode is the last one
of its directory, so no other entry takes its place when it is taken out.  A link that `mkdir`
gave the directory above is the one that goes with `..`.  All that stays is room: a table that
grew for the inode does not shrink, and the slots that it gained are free.
-/

namespace SectorFs

open Attempt

theorem takeOut_last {α : Type} (l : List α) (a : α) : takeOut (l ++ [a]) l.length = l := by
  rw [takeOut, List.getLast?_concat]
  simp

namespace Tree

variable {t u v w : Tree} {id parent : InodeId} {leaf : String} {content : NewContent}

/-! ### Tables only grow -/

/-- A table has as many slots as another one, or more. -/
def Grows (t u : Tree) : Prop := t.slots.size ≤ u.slots.size

instance : IsPreorder Tree Grows where
  refl _ := Nat.le_refl _
  trans _ _ _ := Nat.le_trans

theorem Grows.of_eq (h : u.slots.size = t.slots.size) : t.Grows u := h.ge

theorem size_dropLink (t : Tree) (id : InodeId) : (t.dropLink id).slots.size = t.slots.size := by
  unfold dropLink
  split
  · rfl
  · split <;> exact size_setSlot ..

theorem grows_reserveEntry (dir : InodeId) : (reserveEntry dir).Moves Grows := by
  refine .atomically fun t _ u h => ?_
  obtain ⟨-, -, -, hsize, -⟩ := reserveEntry_ok (atomically_eq_ok_iff.mpr h)
  exact .of_eq hsize

theorem grows_allocate (kind : Kind) : (allocate kind).Moves Grows := by
  refine .atomically fun t id u h => ?_
  split at h
  · cases h
  · obtain ⟨⟨i, w⟩, hw, h⟩ := except_bind_eq_ok_iff.mp h
    obtain ⟨-, -, hsize, -⟩ := freeSlot_ok hw
    cases h
    exact hsize.trans (size_setSlot ..).ge

theorem grows_store (id : InodeId) (i : Inode) : (store id i).Moves Grows := by
  refine .atomically fun t _ u h => ?_
  obtain ⟨-, -, hsize⟩ := store_ok (atomically_eq_ok_iff.mpr h)
  exact .of_eq hsize

theorem grows_addLink (dir : InodeId) :
    (modify fun t => t.addLink dir : Attempt Tree PUnit).Moves Grows :=
  fun _ => .of_eq (size_modifySlot ..)

theorem grows_addEntry (dir : InodeId) (e : Entry) : (addEntry dir e).Moves Grows := by
  refine .atomically fun t _ u h => ?_
  obtain ⟨-, -, -, -, -, hsize, -⟩ := addEntry_ok (atomically_eq_ok_iff.mpr h)
  exact .of_eq hsize

theorem grows_removeEntry (dir : InodeId) (name : String) :
    (removeEntry dir name).Moves Grows := by
  refine .atomically fun t id u h => ?_
  obtain ⟨es, -, h⟩ := except_bind_eq_ok_iff.mp h
  split at h
  · cases h
  · cases h
    exact .of_eq ((size_dropLink ..).trans (size_modifySlot ..))

theorem grows_attach (path : String) (content : NewContent) :
    (attach path content).Moves Grows := by
  refine .bind .get fun t => .bind (.lift _) fun place => .check fun _ => ?_
  refine .bind (.lift _) fun _ => .bind (grows_reserveEntry _) fun _ =>
    .bind (grows_allocate _) fun id => .bind (grows_store _ _) fun _ => ?_
  have hrest : (do
      addEntry place.parent ⟨place.leaf, id⟩
      return id : Attempt Tree InodeId).Moves Grows :=
    .bind (grows_addEntry _ _) fun _ => .pure _
  exact .ite (.bind (grows_addLink _) fun _ => hrest) hrest

theorem grows_remove (path : String) : (remove path).Moves Grows :=
  remove_moves grows_removeEntry path

/-! ### The same path leads to what was made -/

/-- Where only the last name was missing, and names that were found still are, a path leads to
what has the name now. -/
theorem descend_of_new
    (hkeep : ∀ dir name x, t.lookup dir name = .ok x → v.lookup dir name = .ok x) {dir : InodeId}
    {names : List String} (hl : t.descend dir names = .ok ⟨parent, leaf, none⟩)
    (hnew : v.lookup parent leaf = .ok id) :
    v.descend dir names = .ok ⟨parent, leaf, some id⟩ := by
  induction names generalizing dir with
  | nil => cases hl
  | cons name names ih =>
    cases names with
    | nil =>
      unfold descend at hl
      split at hl
      · cases hl
      · cases hl
        rw [descend, hnew]
      · cases hl
    | cons next rest =>
      rw [descend_cons _ _ _ (by simp)] at hl ⊢
      obtain ⟨x, hx, hl⟩ := except_bind_eq_ok_iff.mp hl
      rw [hkeep _ _ _ hx]
      exact ih hl

theorem locate_of_attached (h : t.Sound) (hv : v.Sound) (ha : Attached t u parent id leaf content)
    (hb : u.BytesOnly id v) {path : String} (hl : t.locate path = .ok ⟨parent, leaf, none⟩) :
    v.locate path = .ok ⟨parent, leaf, some id⟩ := by
  have hstart : v.start path = t.start path := by
    rw [start, start, hb.cwd_eq, ha.cwd_eq]
  rw [locate, hstart]
  -- entries are only added on the way, and their names stay unique
  refine descend_of_new (fun dir name x hx => ?_) hl ?_
  · refine hv.lookup_eq_ok_iff.mpr ?_
    rw [hb.entries_eq]
    exact ha.entries_keep (h.lookup_eq_ok_iff.mp hx)
  · refine hv.lookup_eq_ok_iff.mpr ?_
    rw [hb.entries_eq, ha.view_parent]
    exact List.mem_append_right _ (List.mem_singleton_self _)

theorem bare_of_attached (ha : Attached t u parent id leaf content) (hb : u.BytesOnly id v) :
    ¬∃ child, v.LiesIn child id := by
  rintro ⟨child, e, he, hp, -⟩
  rw [hb.entries_eq, ha.view_new] at he
  cases content with
  | file bytes => exact absurd he List.not_mem_nil
  | directory =>
    rcases List.mem_cons.mp he with rfl | he
    · exact hp.1 rfl
    · rw [List.mem_singleton.mp he] at hp
      exact hp.2 rfl

/-! ### What was made is gone -/

/-- `w` is `t` again, but for room: no slot of `t` has changed, and those that `w` has besides
them are free. -/
structure GivenBack (t w : Tree) : Prop where
  view_eq : w.view = t.view
  cwd_eq : w.cwd = t.cwd
  capacity_le : t.capacity ≤ w.capacity
  gained_free : ∀ x : InodeId, t.capacity ≤ x.index → x.index < w.capacity →
    w.slot? x = some .unused

theorem index_of_attached (ha : Attached t u parent id leaf content)
    {i : Nat} (hget : ((t.view parent).entries ++ [⟨leaf, id⟩])[i]? = some ⟨leaf, id⟩) :
    i = (t.view parent).entries.length := by
  rcases Nat.lt_or_ge i (t.view parent).entries.length with hlt | hge
  · rw [List.getElem?_append_left hlt] at hget
    exact absurd rfl (ha.name_new _ (List.mem_of_getElem? hget))
  · have hle := (List.getElem?_eq_some_iff.mp hget).1
    rw [List.length_append, List.length_singleton] at hle
    omega

theorem links_of_attached (h : t.Sound) (ha : Attached t u parent id leaf content)
    (hb : u.BytesOnly id v) :
    (if (v.view id).kind = .directory then (v.view parent).unlink.links
      else (v.view parent).links) = (t.view parent).links := by
  rw [hb.kind_eq, ha.view_new, hb.view_eq ha.parent_ne, ha.view_parent]
  cases content with
  | file bytes => exact UInt32.add_zero _
  | directory =>
    show (t.view parent).link.unlink.links = _
    rw [InodeView.unlink_link (h.links_lt parent)]

theorem view_of_removed (h : t.Sound) (ha : Attached t u parent id leaf content)
    (hb : u.BytesOnly id v) {i : Nat} (hd : Detached v w parent id leaf i) : w.view = t.view := by
  have hes : (v.view parent).entries = (t.view parent).entries ++ [⟨leaf, id⟩] := by
    rw [hb.entries_eq, ha.view_parent]
    rfl
  have hi : i = (t.view parent).entries.length := index_of_attached ha (hes ▸ hd.entry_eq)
  rw [hd.view_eq, links_of_attached h ha hb, hes, hi, takeOut_last,
    ← InodeView.eq_of_kind_directory ha.parent_kind]
  funext x
  by_cases hx : x = parent
  · rw [hx, Function.update_self]
  · rw [Function.update_of_ne hx]
    by_cases hxi : x = id
    · rw [hxi, Function.update_self, h.view_of_free ha.was_free]
    · rw [Function.update_of_ne hxi, hb.view_eq hxi, ha.view_other hx hxi]

theorem eq_unused_of_view {i : Inode} (h : i.view = .unused) : i = .unused := by
  obtain ⟨links, content⟩ := i
  obtain ⟨hlinks, hcontent⟩ := InodeView.mk.inj h
  cases content with
  | free => exact congrArg (Inode.mk · .free) hlinks
  | file bytes => cases hcontent
  | directory entries => cases hcontent

theorem GivenBack.of_view (hview : w.view = t.view) (hcwd : w.cwd = t.cwd) (hgrows : t.Grows w) :
    t.GivenBack w := by
  refine ⟨hview, hcwd, hgrows, fun x hx hlt => ?_⟩
  have hs : w.slot? x = some w.slots[x.index] := Array.getElem?_eq_getElem hlt
  have hfree : w.view x = .unused := by rw [hview, view_of_capacity_le hx]
  rw [view_of_slot hs] at hfree
  rw [hs, eq_unused_of_view hfree]

theorem Sound.givenBack (h : t.Sound) {path : String}
    (made : Tree.attach path content t = .ok id u) (edits : List FileEdit) :
    ∃ w, Tree.remove path (run (edits.map (FileEdit.call id)) u) = .ok () w ∧ t.GivenBack w := by
  obtain ⟨parent, leaf, hl, ha⟩ := attached_of_ok made
  have hb := bytesOnly_edits u id edits
  generalize run (edits.map (FileEdit.call id)) u = v at hb ⊢
  have hv : v.Sound := (h.attach ha).of_bytesOnly hb
  -- the working directory was in use before the inode was made
  have hcwd : id ≠ v.cwd := by
    rw [hb.cwd_eq, ha.cwd_eq]
    rintro rfl
    exact absurd (ha.was_free.symm.trans h.cwd_kind) (by decide)
  obtain ⟨i, w, hw, hd⟩ := remove_found hv (locate_of_attached h hv ha hb hl)
    (not_special_of_validateName ha.name_valid) rfl hcwd (bare_of_attached ha hb)
  refine ⟨w, hw, .of_view (view_of_removed h ha hb hd) ?_ ?_⟩
  · rw [hd.cwd_eq, hb.cwd_eq, ha.cwd_eq]
  · have hsize : u.slots.size = v.slots.size := hb.size_eq.symm
    exact ((grows_attach path content).of_ok made).trans
      (hsize.le.trans ((grows_remove path).of_ok hw))

/-- Whatever calls a tree comes from: a file or directory that is made in it can be removed by
the path it was made at, whatever is written to it meanwhile, and leaves no trace. -/
theorem givenBack_of_calls (calls : List Call) {path : String} {id : InodeId} {u : Tree}
    (made : create path (run calls .empty) = .ok id u ∨ mkdir path (run calls .empty) = .ok id u)
    (edits : List FileEdit) :
    ∃ w, remove path (run (edits.map (FileEdit.call id)) u) = .ok () w
      ∧ (run calls .empty).GivenBack w := by
  have h : (run calls .empty).Sound := (sound_blank ..).calls calls
  rcases made with made | made
  · exact h.givenBack made edits
  · exact h.givenBack made edits

/-- A file is made and written, and the directory it was in is as it was. -/
theorem givenBack_of_calls_written :
    let t := run [.mkdir "/d", .create "/d/a"] .empty
    let edits : List FileEdit := [.write 0 #[1], .resize 5]
    ∃ u, create "/d/f" t = .ok ⟨3⟩ u
      ∧ ∃ w, remove "/d/f" (run (edits.map (FileEdit.call ⟨3⟩)) u) = .ok () w
        ∧ t.GivenBack w := by
  intro t edits
  obtain ⟨id, u, hu, hid⟩ := succeeds_iff.mp
    (show (create "/d/f").succeeds t (fun id _ => id = ⟨3⟩) = true by decide +kernel)
  obtain rfl : id = ⟨3⟩ := of_decide_eq_true hid
  exact ⟨u, hu, givenBack_of_calls _ (.inl hu) edits⟩

end Tree

end SectorFs

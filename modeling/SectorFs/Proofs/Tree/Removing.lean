import SectorFs.Proofs.Tree.Namespace

/-!
# Removing files and directories

What `remove` needs and all that it changes (`remove_of_calls`).  An inode that no path but
the removed one leads through is missed by no other path: a walk from the root that comes
to the inode, or looks its name up, has made the removed path its own beginning
(`Detached.resolve_eq`).
-/

namespace SectorFs

open Attempt

namespace Tree

variable {t u : Tree} {parent id : InodeId} {name : String}

/-- A path leads to an inode that can be removed: it has a name that may be taken away, is
not the working directory, and holds nothing if it is a directory. -/
structure Removable (t : Tree) (path : String) (place : Place) (id : InodeId) : Prop where
  locate_eq : t.locate path = .ok place
  leaf_eq : isSpecialName place.leaf = false
  existing_eq : place.existing = some id
  ne_cwd : id ≠ t.cwd
  bare : (t.view id).kind = .file ∨ (t.view id).kind = .directory
    ∧ ∀ e ∈ (t.view id).entries, e.name = "." ∨ e.name = ".."

/-- `u` is `t` without an inode and without the entry that named it, whose place the last
entry of `parent` takes. -/
structure Removed (t u : Tree) (parent id : InodeId) (leaf : String) : Prop where
  view_gone : u.view id = .unused
  kind_parent : (u.view parent).kind = .directory
  entries_parent : ∃ i, (t.view parent).entries[i]? = some ⟨leaf, id⟩
    ∧ (u.view parent).entries = takeOut (t.view parent).entries i
  links_parent : (u.view parent).links.toNat
    = (t.view parent).links.toNat - if (t.view id).kind = .directory then 1 else 0
  view_other : ∀ x, x ≠ id → x ≠ parent → u.view x = t.view x
  cwd_eq : u.cwd = t.cwd
  resolve_eq : ∃ above, t.IsPathTo above parent ∧ ∀ path, Path.isAbsolute path = true →
    Path.Plain (Path.components path) → ¬above ++ [leaf] <+: Path.components path →
    u.resolve path = t.resolve path

/-- Nothing lies in a file, nor in a directory that holds its two own names. -/
theorem Sound.bare_iff (h : t.Sound) (hl : t.LiesIn id parent) :
    (¬∃ child, t.LiesIn child id) ↔ (t.view id).kind = .file ∨ (t.view id).kind = .directory
      ∧ ∀ e ∈ (t.view id).entries, e.name = "." ∨ e.name = ".." := by
  constructor
  · intro hbare
    refine (kind_of_liesIn_cases h hl).imp_right fun hk => ⟨hk, fun e he => ?_⟩
    by_contra hn
    exact hbare ⟨e.inode, e, he, not_or.mp hn, rfl⟩
  · rintro (hk | ⟨-, hall⟩) ⟨child, e, he, hp, -⟩
    · rw [InodeView.kind_of_mem_entries he] at hk
      cases hk
    · exact (hall e he).elim hp.1 hp.2

namespace Detached

variable {i : Nat}

/-- A lookup elsewhere than of the name, and not in the inode itself, finds what it found. -/
theorem lookup_other (h : t.Sound) (a : Detached t u parent id name i) {dir : InodeId}
    {other : String} (hdir : dir ≠ id) (hne : ¬(dir = parent ∧ other = name)) :
    u.lookup dir other = t.lookup dir other := by
  refine h.lookup_congr (h.detach a) (a.kind_eq hdir) fun x => ⟨a.mem_keep h, fun hm => ?_⟩
  by_cases hp : dir = parent
  · subst hp
    rcases List.mem_cons.mp (a.perm_entries.mem_iff.mp hm) with he | hm
    · exact absurd ⟨rfl, congrArg Entry.name he⟩ hne
    · exact hm
  · rwa [a.view_other hp hdir]

theorem resolve_eq (h : t.Sound) (a : Detached t u parent id name i) {above : List String}
    (hp : t.IsPathTo above parent) {path : String} (habs : Path.isAbsolute path = true)
    (hplain : Path.Plain (Path.components path))
    (hoff : ¬above ++ [name] <+: Path.components path) : u.resolve path = t.resolve path := by
  have hid : t.IsPathTo (above ++ [name]) id := isPathTo_concat_iff.mpr
    ⟨parent, hp, a.proper, h.lookup_eq_ok_iff.mpr (List.mem_of_getElem? a.entry_eq)⟩
  refine resolve_congr habs hplain fun before next mid hpre hmid _ => ?_
  refine a.lookup_other h ?_ ?_
  · rintro rfl
    rw [h.path_unique hmid hid] at hpre
    exact hoff ((List.prefix_append _ _).trans hpre)
  · rintro ⟨rfl, rfl⟩
    rw [h.path_unique hmid hp] at hpre
    exact hoff hpre

theorem removed (h : t.Sound) (a : Detached t u parent id name i) :
    Removed t u parent id name := by
  have hparent := kind_of_liesIn a.liesIn_parent
  obtain ⟨above, habove⟩ := h.exists_path (hparent.trans_ne (by decide))
  refine ⟨a.view_gone h, (a.kind_eq (a.parent_ne h)).trans hparent, ⟨i, a.entry_eq, ?_⟩, ?_,
    fun x hx hp => a.view_other hp hx, a.cwd_eq, above, habove,
    fun path habs hplain hoff => a.resolve_eq h habove habs hplain hoff⟩
  · rw [a.view_parent]
    rfl
  · rw [a.view_parent]
    split
    · exact (t.view parent).toNat_unlink
    · rfl

end Detached

/-- Whatever calls a tree comes from: `remove` takes away what can be removed, and fails
without a trace on every other path. -/
theorem remove_of_calls (calls : List Call) (path : String) :
    let t := run calls .empty
    (∀ place id, t.Removable path place id →
        ∃ u, remove path t = .ok () u ∧ Removed t u place.parent id place.leaf)
      ∧ ((¬∃ place id, t.Removable path place id) → ∃ e, remove path t = .error e t) := by
  intro t
  have h : t.Sound := (sound_blank ..).calls calls
  constructor
  · rintro place id ⟨hl, hs, hx, hcwd, hbare⟩
    obtain ⟨i, u, hu, hdet⟩ := remove_found h hl hs hx hcwd
      ((h.bare_iff (liesIn_of_locate hl hs hx)).mpr hbare)
    exact ⟨u, hu, hdet.removed h⟩
  · intro hnone
    rcases remove_cases h path with he | ⟨place, id, i, u, hl, hs, hx, -, hdet⟩
    · exact he
    · have hbare := (h.bare_iff hdet.liesIn_parent).mp hdet.bare
      exact absurd ⟨place, id, hl, hs, hx, hdet.ne_cwd, hbare⟩ hnone

/-- A directory that holds nothing is removed from between two files. -/
theorem remove_of_calls_directory :
    let t := run [.create "/a", .mkdir "/b", .create "/c"] .empty
    t.Removable "/b" ⟨.root, "b", some ⟨2⟩⟩ ⟨2⟩ ∧ (∃ u, remove "/b" t = .ok () u
        ∧ Removed t u .root ⟨2⟩ "b")
      ∧ (¬∃ place id, t.Removable "/d" place id) ∧ ∃ e, remove "/d" t = .error e t := by
  intro t
  have hb : t.Removable "/b" ⟨.root, "b", some ⟨2⟩⟩ ⟨2⟩ :=
    ⟨by decide +kernel, by decide, rfl, by decide +kernel, .inr (by decide +kernel)⟩
  have hmiss : t.locate "/d" = .ok ⟨.root, "d", none⟩ := by decide +kernel
  have hd : ¬∃ place id, t.Removable "/d" place id := by
    rintro ⟨place, id, hl, -, hx, -⟩
    rw [hmiss] at hl
    cases hl
    cases hx
  exact ⟨hb, (remove_of_calls _ "/b").1 _ _ hb, hd, (remove_of_calls _ "/d").2 hd⟩

end Tree

end SectorFs

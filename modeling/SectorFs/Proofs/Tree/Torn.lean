import SectorFs.Proofs.Attempt
import SectorFs.Proofs.Tree.Namespace
import SectorFs.Proofs.Tree.Unchanged

/-!
# Edits that fail halfway

`remove` takes the two names of a directory out before the name that the directory has, and
`rename` puts the new name in and takes the old one out before it changes `..`.  Where one of
these steps fails nothing is undone.

In a sound tree none of them fails.  A tree whose entries were changed one by one, or that was
read from a disk, may lack a `.` or a `..`, or count fewer links than there are names:
`Tree.Stranded` and `Tree.Torn` say when an edit of any tree stops halfway, and
`torn_by_error_iff` that every other edit that fails leaves the tree alone.
-/

namespace SectorFs

open Attempt

/-! ### Links that are dropped -/

namespace InodeView

theorem drop_of_kind_eq {v : InodeView} (h : v.kind = .free) (id : InodeId) : v.drop id = v :=
  if_pos h

theorem payload_of_kind_free {v : InodeView} (h : v.kind = .free) : v.payload = .free := by
  obtain ⟨links, payload⟩ := v
  cases payload with
  | free => rfl
  | file bytes => cases h
  | directory entries => cases h

/-- An inode other than the root is gone once as many links were dropped as it had. -/
theorem payload_iterate_drop (id : InodeId) (n : Nat) (v : InodeView) :
    ((·.drop id)^[n] v).payload
      = if 1 ≤ n ∧ v.links.toNat ≤ n ∧ id ≠ .root then .free else v.payload := by
  induction n generalizing v with
  | zero => simp
  | succ n ih =>
    rw [Function.iterate_succ_apply, ih]
    by_cases hk : v.kind = .free
    · rw [drop_of_kind_eq hk, payload_of_kind_free hk, ite_self, ite_self]
    · rw [drop_of_kind_ne hk]
      by_cases hlast : v.unlink.links = 0 ∧ id ≠ .root
      · have := unlink_links_eq_zero_iff.mp hlast.1
        rw [if_pos hlast]
        exact (ite_self _).trans (if_pos ⟨by omega, by omega, hlast.2⟩).symm
      · rw [if_neg hlast, v.toNat_unlink]
        refine if_congr ⟨fun ⟨_, hn, hr⟩ => ⟨by omega, by omega, hr⟩, fun ⟨_, hn, hr⟩ => ?_⟩ rfl rfl
        have : ¬v.links.toNat ≤ 1 := fun hl => hlast ⟨unlink_links_eq_zero_iff.mpr hl, hr⟩
        exact ⟨by omega, by omega, hr⟩

end InodeView

namespace Tree

variable {t u : Tree} {dir id x : InodeId} {name : String}

theorem lookup_of_payload (h : (u.view x).payload = (t.view x).payload) (name : String) :
    u.lookup x name = t.lookup x name := by
  by_cases hk : (t.view x).kind = .directory
  · obtain ⟨es, hes⟩ := Payload.kind_eq_directory_iff.mp hk
    rw [lookup_of_view name hes, lookup_of_view name (h.trans hes)]
  · have hku : (u.view x).kind = (t.view x).kind := congrArg Payload.kind h
    rw [lookup_of_not_mem, lookup_of_not_mem, hku]
    · intro y hy
      exact hk (InodeView.kind_of_mem_entries hy)
    · intro y hy
      exact hk (hku ▸ InodeView.kind_of_mem_entries hy)

theorem Unchanged.lookup_eq (h : t.Unchanged u) (x : InodeId) (name : String) :
    u.lookup x name = t.lookup x name :=
  lookup_of_payload (by rw [h.view_eq]) name

theorem lookup_of_free (h : (t.view x).payload = .free) (name : String) :
    t.lookup x name = .error .notFound := by
  have hk : (t.view x).kind = .free := by rw [InodeView.kind, h]; rfl
  rw [lookup, entries, inode_of_kind_free hk]
  rfl

/-- Some links of a directory are dropped: its names are gone with it, or are what they were. -/
theorem lookup_of_drops {n : Nat} (h : u.view x = (·.drop x)^[n] (t.view x)) (name : String) :
    u.lookup x name = if 1 ≤ n ∧ (t.view x).links.toNat ≤ n ∧ x ≠ .root then .error .notFound
      else t.lookup x name := by
  have hp := InodeView.payload_iterate_drop x n (t.view x)
  rw [← h] at hp
  split
  · rename_i hc
    exact lookup_of_free (hp.trans (if_pos hc)) name
  · rename_i hc
    exact lookup_of_payload (hp.trans (if_neg hc)) name

/-! ### Taking entries out of any tree -/

theorem removeEntry_of_lookup (h : t.lookup dir name = .ok id) :
    ∃ u, removeEntry dir name t = .ok id u := by
  obtain ⟨i, hfind, hget⟩ := entry_of_lookup h
  obtain ⟨u, -, hu, -⟩ := removeEntry_first hfind hget
  exact ⟨u, hu⟩

theorem removeEntry_of_lookup_error {f : Failure} (h : t.lookup dir name = .error f) :
    removeEntry dir name t = .error f t := by
  cases he : t.entries dir with
  | error f' =>
    obtain rfl : f' = f := by
      rw [lookup, he] at h
      exact Except.error.inj h
    simp [removeEntry, atomically, he, except_bind_error]
  | ok es =>
    rw [lookup, he, except_bind_ok] at h
    cases hfind : es.items.find? (·.name == name) with
    | some e =>
      rw [hfind] at h
      cases h
    | none =>
      rw [hfind] at h
      cases h
      have hnone : es.items.findFinIdx? (·.name == name) = none :=
        Array.findFinIdx?_eq_none_iff.mpr (Array.find?_eq_none.mp hfind)
      simp [removeEntry, atomically, he, except_bind_ok, hnone]

theorem removeEntry_view (h : removeEntry dir name t = .ok id u) :
    ∃ i, (t.view dir).entries[i]? = some ⟨name, id⟩
      ∧ ∀ x, u.view x = (·.drop x)^[if id = x then 1 else 0] (Function.update t.view dir
        ⟨(t.view dir).links, .directory (takeOut (t.view dir).entries i)⟩ x) := by
  obtain ⟨-, -, -, i, v, -, hget, hv, hu⟩ := removeEntry_ok h
  refine ⟨i, hget, fun x => ?_⟩
  rw [hu, hv]
  by_cases hx : id = x
  · subst hx
    rw [Function.update_self, if_pos rfl]
    rfl
  · rw [Function.update_of_ne fun he => hx he.symm, if_neg hx]
    rfl

theorem view_of_removeEntry (h : removeEntry dir name t = .ok id u) (hx : x ≠ dir) :
    u.view x = (·.drop x)^[if id = x then 1 else 0] (t.view x) := by
  obtain ⟨i, -, hview⟩ := removeEntry_view h
  rw [hview, Function.update_of_ne hx]

theorem payload_of_removeEntry (h : removeEntry dir name t = .ok id u) :
    ∃ i, (t.view dir).entries[i]? = some ⟨name, id⟩ ∧ (u.view dir).payload
      = if id = dir ∧ (t.view dir).links.toNat ≤ 1 ∧ dir ≠ .root then .free
        else .directory (takeOut (t.view dir).entries i) := by
  obtain ⟨i, hget, hview⟩ := removeEntry_view h
  refine ⟨i, hget, ?_⟩
  rw [hview, InodeView.payload_iterate_drop, Function.update_self]
  by_cases hd : id = dir <;> simp [hd]

theorem length_of_removeEntry (h : removeEntry dir name t = .ok id u) :
    (u.view dir).entries.length < (t.view dir).entries.length := by
  obtain ⟨i, hget, hp⟩ := payload_of_removeEntry h
  have hlen := (perm_takeOut hget).length_eq
  rw [List.length_cons] at hlen
  rw [hlen, InodeView.entries, hp]
  split
  · exact Nat.succ_pos _
  · exact Nat.lt_succ_self _

/-- A directory with two names or fewer that lost one of them, and maybe the link that it was. -/
theorem lookup_of_removeEntry (hle : (t.view dir).entries.length ≤ 2)
    (h : removeEntry dir name t = .ok id u) {other : String} (hne : other ≠ name) :
    u.lookup dir other
      = if id = dir ∧ (t.view dir).links.toNat ≤ 1 ∧ dir ≠ .root then .error .notFound
        else t.lookup dir other := by
  obtain ⟨i, hget, hp⟩ := payload_of_removeEntry h
  split at hp
  · rename_i hgone
    rw [if_pos hgone, lookup_of_free hp]
  · rename_i hgone
    have hk := InodeView.kind_of_mem_entries (List.mem_of_getElem? hget)
    have hes : (t.view dir).payload = .directory (t.view dir).entries :=
      congrArg InodeView.payload (InodeView.eq_of_kind_directory hk)
    rw [if_neg hgone, lookup_of_view other hp, lookup_of_view other hes,
      find?_takeOut hle hget (by simpa using hne.symm)]

theorem failure_of_lookup {f : Failure} (hk : (t.view dir).kind = .directory)
    (h : t.lookup dir name = .error f) : f = .notFound := by
  obtain ⟨es, hes⟩ := Payload.kind_eq_directory_iff.mp hk
  rw [lookup_of_view name hes] at h
  split at h <;> cases h
  rfl

/-! ### Removing -/

/-- `remove` takes `..` out of a directory and then cannot go on: the directory is gone with
that link, or has no `.`, or the directory above is gone with the links that the two were. -/
structure Stranded (t : Tree) (path : String) (place : Place) (id : InodeId) : Prop
    extends t.Empties path place id where
  kind_eq : (t.view id).kind = .directory
  stuck : ∃ up, t.lookup id ".." = .ok up
    ∧ ((up = id ∧ (t.view id).links.toNat ≤ 1)
      ∨ t.lookup id "." = .error .notFound
      ∨ ∃ self, t.lookup id "." = .ok self ∧ place.parent ≠ .root ∧ place.parent ∈ [up, self]
        ∧ (t.view place.parent).links.toNat ≤ [up, self].count place.parent)

namespace Empties

variable {path : String} {place : Place} {f : Failure} {t₁ t₂ : Tree} {up self : InodeId}

theorem remove_of_directory_eq (c : t.Empties path place id)
    (hk : (t.view id).kind = .directory) :
    remove path t = (do
      let _ ← removeEntry id ".."
      let _ ← removeEntry id "."
      let _ ← removeEntry place.parent place.leaf) t := by
  obtain ⟨inode, hi, -⟩ := inode_of_kind c.in_use
  obtain ⟨hd, hsize⟩ := directory_of_inode hi
  have hfull : ¬2 < inode.size := by
    rw [hsize hk]
    exact Nat.not_lt.mpr (c.length_le hk)
  simp [remove, bind_apply, c.locate_eq, c.leaf_eq, c.existing_eq, c.ne_root, c.ne_cwd, hi, hd, hk,
    hfull]

theorem remove_of_file_isOk (c : t.Empties path place id)
    (hk : (t.view id).kind ≠ .directory) : ∃ u, remove path t = .ok () u := by
  obtain ⟨inode, hi, -⟩ := inode_of_kind c.in_use
  obtain ⟨hd, -⟩ := directory_of_inode hi
  obtain ⟨u, hu⟩ := removeEntry_of_lookup (lookup_of_locate c.locate_eq c.existing_eq c.leaf_eq)
  exact ⟨u, by
    simp [remove, bind_apply, map_apply, c.locate_eq, c.leaf_eq, c.existing_eq, c.ne_root, c.ne_cwd,
      hi, hd, hk, hu]⟩

/-- A directory with `..`, `.` and nothing else is not the one above itself. -/
theorem parent_ne (c : t.Empties path place id) (hk : (t.view id).kind = .directory)
    (hup : t.lookup id ".." = .ok up) (hself : t.lookup id "." = .ok self) : place.parent ≠ id := by
  intro he
  have hleaf := lookup_of_locate c.locate_eq c.existing_eq c.leaf_eq
  rw [he] at hleaf
  have mem {n : String} {x : InodeId} (h : t.lookup id n = .ok x) :
      n ∈ (t.view id).entries.map Entry.name := by
    obtain ⟨i, -, hget⟩ := entry_of_lookup h
    exact List.mem_map.mpr ⟨_, List.mem_of_getElem? hget, rfl⟩
  have hproper : (⟨place.leaf, id⟩ : Entry).IsProper := isProper_of_not_special c.leaf_eq
  have hnodup : [place.leaf, ".", ".."].Nodup := by
    simp [hproper.1, hproper.2]
  have hsub : [place.leaf, ".", ".."] ⊆ (t.view id).entries.map Entry.name := by
    simp [mem hleaf, mem hself, mem hup]
  have hthree := (hnodup.subperm hsub).length_le
  rw [List.length_map] at hthree
  exact absurd (Nat.le_trans hthree (c.length_le hk)) (Nat.not_succ_le_self 2)

/-- What the directory above still knows once both names are out. -/
theorem lookup_leaf (c : t.Empties path place id) (hk : (t.view id).kind = .directory)
    (hup : t.lookup id ".." = .ok up) (hself : t.lookup id "." = .ok self)
    (h₁ : removeEntry id ".." t = .ok up t₁) (h₂ : removeEntry id "." t₁ = .ok self t₂) :
    t₂.lookup place.parent place.leaf
      = if place.parent ∈ [up, self]
          ∧ (t.view place.parent).links.toNat ≤ [up, self].count place.parent
          ∧ place.parent ≠ .root then .error .notFound
        else .ok id := by
  have hne := c.parent_ne hk hup hself
  have hcount : [up, self].count place.parent
      = (if self = place.parent then 1 else 0) + if up = place.parent then 1 else 0 := by
    simp [List.count_cons]
  have hdrops : t₂.view place.parent
      = (·.drop place.parent)^[[up, self].count place.parent] (t.view place.parent) := by
    rw [view_of_removeEntry h₂ hne, view_of_removeEntry h₁ hne, hcount,
      Function.iterate_add_apply]
  rw [lookup_of_drops hdrops, lookup_of_locate c.locate_eq c.existing_eq c.leaf_eq]
  exact if_congr (and_congr_left fun _ => List.one_le_count_iff) rfl rfl

theorem remove_cases (c : t.Empties path place id) :
    (∃ f, remove path t = .error f t) ∨ t.Stranded path place id
      ∨ ∃ u, remove path t = .ok () u := by
  by_cases hk : (t.view id).kind = .directory
  · rw [c.remove_of_directory_eq hk]
    cases hup : t.lookup id ".." with
    | error f => exact .inl ⟨f, by simp [bind_apply, removeEntry_of_lookup_error hup]⟩
    | ok up =>
      right
      obtain ⟨t₁, h₁⟩ := removeEntry_of_lookup hup
      have hdot := lookup_of_removeEntry (c.length_le hk) h₁ (show "." ≠ ".." by decide)
      by_cases hgone : up = id ∧ (t.view id).links.toNat ≤ 1 ∧ id ≠ .root
      · exact .inl ⟨c, hk, up, hup, .inl ⟨hgone.1, hgone.2.1⟩⟩
      · rw [if_neg hgone] at hdot
        cases hself : t.lookup id "." with
        | error f =>
          obtain rfl := failure_of_lookup hk hself
          exact .inl ⟨c, hk, up, hup, .inr (.inl hself)⟩
        | ok self =>
          obtain ⟨t₂, h₂⟩ := removeEntry_of_lookup (hdot.trans hself)
          have hleaf := c.lookup_leaf hk hup hself h₁ h₂
          split at hleaf
          · rename_i hlost
            exact .inl ⟨c, hk, up, hup, .inr (.inr ⟨self, hself, hlost.2.2, hlost.1, hlost.2.1⟩)⟩
          · obtain ⟨u, hu⟩ := removeEntry_of_lookup hleaf
            exact .inr ⟨u, by simp [bind_apply, map_apply, h₁, h₂, hu]⟩
  · exact .inr (.inr (c.remove_of_file_isOk hk))

end Empties

/-- The directory has lost a name by then. -/
theorem Stranded.remove_error {path : String} {place : Place} (h : t.Stranded path place id) :
    ∃ u, remove path t = .error .notFound u
      ∧ (u.view id).entries.length < (t.view id).entries.length := by
  obtain ⟨c, hk, up, hup, hstuck⟩ := h
  rw [c.remove_of_directory_eq hk]
  obtain ⟨t₁, h₁⟩ := removeEntry_of_lookup hup
  have hless := length_of_removeEntry h₁
  have hdot := lookup_of_removeEntry (c.length_le hk) h₁ (show "." ≠ ".." by decide)
  have stop (h : t₁.lookup id "." = .error .notFound) : ∃ u, (do
      let _ ← removeEntry id ".."
      let _ ← removeEntry id "."
      let _ ← removeEntry place.parent place.leaf) t = .error .notFound u
        ∧ (u.view id).entries.length < (t.view id).entries.length :=
    ⟨t₁, by simp [bind_apply, h₁, removeEntry_of_lookup_error h], hless⟩
  by_cases hgone : up = id ∧ (t.view id).links.toNat ≤ 1 ∧ id ≠ .root
  · rw [if_pos hgone] at hdot
    exact stop hdot
  · rw [if_neg hgone] at hdot
    rcases hstuck with ⟨he, hlast⟩ | hnone | ⟨self, hself, hroot, hmem, hlast⟩
    · exact absurd ⟨he, hlast, c.ne_root⟩ hgone
    · exact stop (hdot.trans hnone)
    · obtain ⟨t₂, h₂⟩ := removeEntry_of_lookup (hdot.trans hself)
      have hleaf := c.lookup_leaf hk hup hself h₁ h₂
      rw [if_pos ⟨hmem, hlast, hroot⟩] at hleaf
      refine ⟨t₂, ?_, Nat.lt_trans (length_of_removeEntry h₂) hless⟩
      simp [bind_apply, map_apply, h₁, h₂, removeEntry_of_lookup_error hleaf]

/-- `remove` fails on a tree that it has changed just when it is stranded. -/
theorem remove_tears_iff (t : Tree) (path : String) :
    (∃ f u, remove path t = .error f u ∧ ¬t.Unchanged u)
      ↔ ∃ place id, t.Stranded path place id := by
  constructor
  · rintro ⟨f, u, hu, hchanged⟩
    have spared {g : Failure} (hg : remove path t = .error g t) : t.Unchanged u := by
      rw [hu] at hg
      cases hg
      exact .refl t
    rcases remove_checks t path with ⟨g, hg⟩ | ⟨place, id, c⟩
    · exact absurd (spared hg) hchanged
    · rcases c.remove_cases with ⟨g, hg⟩ | hstranded | ⟨v, hv⟩
      · exact absurd (spared hg) hchanged
      · exact ⟨place, id, hstranded⟩
      · rw [hu] at hv
        cases hv
  · rintro ⟨place, id, h⟩
    obtain ⟨u, hu, hless⟩ := h.remove_error
    refine ⟨.notFound, u, hu, fun hsame => ?_⟩
    rw [hsame.view_eq] at hless
    exact absurd hless (Nat.lt_irrefl _)

/-! ### Moving -/

theorem lookup_isOk_iff :
    (∃ x, t.lookup dir name = .ok x) ↔ ∃ x, ⟨name, x⟩ ∈ (t.view dir).entries := by
  constructor
  · rintro ⟨x, hx⟩
    obtain ⟨i, -, hget⟩ := entry_of_lookup hx
    exact ⟨x, List.mem_of_getElem? hget⟩
  · rintro ⟨x, hx⟩
    cases hl : t.lookup dir name with
    | ok y => exact ⟨y, rfl⟩
    | error f =>
      obtain ⟨u, hu⟩ := removeEntry_isOk hx
      rw [removeEntry_of_lookup_error hl] at hu
      obtain ⟨_, hu⟩ := hu
      cases hu

theorem reparent_of_not_mem {parent : InodeId} (hparent : (t.view parent).kind = .directory)
    (hk : (t.view dir).kind ≠ .file) (h : ∀ x, ⟨"..", x⟩ ∉ (t.view dir).entries) :
    reparent dir parent t = .error .notFound t := by
  obtain ⟨p, hp, -⟩ := inode_of_kind (hparent.trans_ne (by decide))
  obtain ⟨hpd, -⟩ := directory_of_inode hp
  have hd : p.isDirectory = true := by rw [hpd, hparent]; rfl
  cases he : t.entries dir with
  | error f =>
    have hf : t.lookup dir ".." = .error f := by rw [lookup, he]; rfl
    rw [lookup_of_not_mem h, if_neg hk] at hf
    cases hf
    simp [reparent, atomically, hp, hd, he, except_bind_ok, except_bind_error]
  | ok es =>
    have hnone : es.items.findFinIdx? (·.name == "..") = none := by
      refine Array.findFinIdx?_eq_none_iff.mpr fun e hm hn => h e.inode ?_
      rw [InodeView.entries, view_of_entries he, ← beq_iff_eq.mp hn]
      exact Array.mem_toList_iff.mpr hm
    simp [reparent, atomically, hp, hd, he, hnone, except_bind_ok]

/-- `rename` gives a directory its new name, in another directory, and then cannot change its
`..`: there is none, or the directory is gone with the link of its old name. -/
structure Torn (t : Tree) (source target : String) (src dst : Place) (id : InodeId) : Prop
    extends t.Passes source target src dst id where
  kind_eq : (t.view id).kind = .directory
  elsewhere : dst.parent ≠ src.parent
  stuck : t.lookup id ".." = .error .notFound ∨ (t.view id).link.unlink.links = 0

namespace Passes

variable {source target : String} {src dst : Place}

/-- The new name goes in and the old one out, whatever they do to each other. -/
theorem add_remove_views (p : t.Passes source target src dst id) :
    ∃ t₁ t₂ t₃ i v w, reserveEntry dst.parent t = .ok () t₁
      ∧ addEntry dst.parent ⟨dst.leaf, id⟩ t₁ = .ok () t₂
      ∧ removeEntry src.parent src.leaf t₂ = .ok id t₃
      ∧ (t.view src.parent).entries[i]? = some ⟨src.leaf, id⟩
      ∧ v = Function.update t.view dst.parent
        ⟨(t.view dst.parent).links, .directory ((t.view dst.parent).entries ++ [⟨dst.leaf, id⟩])⟩
      ∧ t₂.view = Function.update v id (v id).link
      ∧ w = Function.update t₂.view src.parent
        ⟨(t₂.view src.parent).links, .directory (takeOut (t₂.view src.parent).entries i)⟩
      ∧ t₃.view = Function.update w id ((w id).drop id) := by
  obtain ⟨t₁, h₁⟩ := reserveEntry_isOk p.target_kind p.has_room
  obtain ⟨hv₁, -⟩ := reserveEntry_ok h₁
  obtain ⟨t₂, h₂⟩ := addEntry_isOk (t := t₁) (e := ⟨dst.leaf, id⟩)
    (by rw [hv₁]; exact p.target_kind) (by rw [hv₁]; exact p.has_room) (by rw [hv₁]; exact p.in_use)
  obtain ⟨-, -, -, -, -, -, v, hv, hv₂⟩ := addEntry_ok h₂
  rw [hv₁] at hv
  -- what the old directory held comes first, whether or not it is the new one
  obtain ⟨more, hmore⟩ : ∃ more, (t₂.view src.parent).entries
      = (t.view src.parent).entries ++ more := by
    have hve : (t₂.view src.parent).entries = (v src.parent).entries := by
      rw [hv₂]
      by_cases hs : src.parent = id
      · rw [hs, Function.update_self, InodeView.entries_link]
      · rw [Function.update_of_ne hs]
    rw [hve, hv]
    by_cases hst : src.parent = dst.parent
    · exact ⟨[⟨dst.leaf, id⟩], by rw [hst, Function.update_self]; rfl⟩
    · exact ⟨[], by rw [Function.update_of_ne hst, List.append_nil]⟩
  obtain ⟨i, hfind, hget⟩ := entry_of_locate p.source_eq p.existing_eq p.leaf_eq
  have hlt := (List.getElem?_eq_some_iff.mp hget).1
  have hfind₂ : (t₂.view src.parent).entries.findIdx? (·.name == src.leaf) = some i := by
    rw [hmore, List.findIdx?_append, hfind]
    rfl
  have hget₂ : (t₂.view src.parent).entries[i]? = some ⟨src.leaf, id⟩ := by
    rw [hmore, List.getElem?_append_left hlt, hget]
  obtain ⟨t₃, w, h₃, -, hw, hv₃⟩ := removeEntry_first hfind₂ hget₂
  exact ⟨t₁, t₂, t₃, i, v, w, h₁, h₂, h₃, hget, hv, hv₂, hw, hv₃⟩

/-- The inode may hold its own name, and loses it then, but no `..`. -/
theorem own_name (p : t.Passes source target src dst id) {z w : InodeId → InodeView} {i : Nat}
    (hget : (t.view src.parent).entries[i]? = some ⟨src.leaf, id⟩) (hz : z id = (t.view id).link)
    (hw : w = Function.update z src.parent
      ⟨(z src.parent).links, .directory (takeOut (z src.parent).entries i)⟩) :
    (w id).links = (t.view id).link.links
      ∧ (∀ x, ⟨"..", x⟩ ∈ (w id).entries ↔ ⟨"..", x⟩ ∈ (t.view id).entries)
      ∧ (w id).kind ≠ .free ∧ ((t.view id).kind = .directory → (w id).kind = .directory) := by
  by_cases hs : src.parent = id
  · have hleaf : ".." ≠ src.leaf := (isProper_of_not_special (e := ⟨_, id⟩) p.leaf_eq).2.symm
    rw [hw, hs, Function.update_self, hz]
    refine ⟨rfl, fun x => ?_, Kind.noConfusion, fun _ => rfl⟩
    rw [hs] at hget
    show _ ∈ takeOut (t.view id).entries i ↔ _
    rw [(perm_takeOut hget).mem_iff]
    simp [hleaf]
  · rw [hw, Function.update_of_ne fun he => hs he.symm, hz]
    exact ⟨rfl, fun x => Iff.rfl, p.in_use, fun hk => hk⟩

/-- What a move to another directory leaves before it changes `..`. -/
theorem add_remove (p : t.Passes source target src dst id) :
    ∃ t₁ t₂ t₃, reserveEntry dst.parent t = .ok () t₁
      ∧ addEntry dst.parent ⟨dst.leaf, id⟩ t₁ = .ok () t₂
      ∧ removeEntry src.parent src.leaf t₂ = .ok id t₃
      ∧ (dst.parent ≠ src.parent → dst.parent ≠ id →
        t₃.view dst.parent = ⟨(t.view dst.parent).links,
          .directory ((t.view dst.parent).entries ++ [⟨dst.leaf, id⟩])⟩
        ∧ (∀ x, ⟨"..", x⟩ ∈ (t₃.view id).entries
          ↔ (t.view id).link.unlink.links ≠ 0 ∧ ⟨"..", x⟩ ∈ (t.view id).entries)
        ∧ ((t.view id).kind = .directory → (t₃.view id).kind ≠ .file)) := by
  obtain ⟨t₁, t₂, t₃, i, v, w, h₁, h₂, h₃, hget, hv, hv₂, hw, hv₃⟩ := p.add_remove_views
  refine ⟨t₁, t₂, t₃, h₁, h₂, h₃, fun hst hne => ?_⟩
  have hvi : v id = t.view id := by rw [hv, Function.update_of_ne hne.symm]
  have hi₂ : t₂.view id = (t.view id).link := by rw [hv₂, Function.update_self, hvi]
  obtain ⟨hlinks, hmem, hin, hdir⟩ := p.own_name hget hi₂ hw
  have hgone : (w id).unlink.links = (t.view id).link.unlink.links := by
    rw [InodeView.unlink, InodeView.unlink, hlinks]
  have hi₃ : t₃.view id = if (t.view id).link.unlink.links = 0 then .unused else (w id).unlink := by
    rw [hv₃, Function.update_self, InodeView.drop_of_kind_ne hin, hgone]
    exact if_congr (and_iff_left p.ne_root) rfl rfl
  refine ⟨?_, fun x => ?_, fun hk => ?_⟩
  · rw [hv₃, Function.update_of_ne hne, hw, Function.update_of_ne hst, hv₂,
      Function.update_of_ne hne, hv, Function.update_self]
  · rw [hi₃]
    split
    · rename_i hz
      simp [hz]
    · rename_i hz
      rw [InodeView.entries_unlink, hmem]
      simp [hz]
  · rw [hi₃]
    split
    · exact Kind.noConfusion
    · rw [InodeView.kind_unlink, hdir hk]
      exact Kind.noConfusion

/-- For a directory that moves to another one the change of its `..` is all that is left. -/
theorem rename_to_other (p : t.Passes source target src dst id)
    (hk : (t.view id).kind = .directory) (hst : dst.parent ≠ src.parent) :
    ∃ u, rename source target t = reparent id dst.parent u
      ∧ (u.view dst.parent).kind = .directory
      ∧ (u.view dst.parent).entries = (t.view dst.parent).entries ++ [⟨dst.leaf, id⟩]
      ∧ (u.view id).kind ≠ .file
      ∧ ∀ x, ⟨"..", x⟩ ∈ (u.view id).entries
        ↔ (t.view id).link.unlink.links ≠ 0 ∧ ⟨"..", x⟩ ∈ (t.view id).entries := by
  obtain ⟨t₁, t₂, t₃, h₁, h₂, h₃, hmoved⟩ := p.add_remove
  obtain ⟨inode, hi, -⟩ := inode_of_kind p.in_use
  obtain ⟨hdir, -⟩ := directory_of_inode hi
  have hwalk := p.outside hk hst
  obtain ⟨hdst, hup, hkind⟩ := hmoved hst (ne_of_isWithin hwalk)
  refine ⟨t₃, ?_, by rw [hdst]; rfl, by rw [hdst]; rfl, hkind hk, hup⟩
  simp [rename, bind_apply, p.source_eq, p.leaf_eq, p.existing_eq, p.ne_root, p.target_eq,
    p.target_new, p.name_valid, hi, hdir, hk, hst, hwalk, h₁, h₂, h₃]

/-- Nothing but the change of `..` can fail any more. -/
theorem rename_cases (p : t.Passes source target src dst id) :
    t.Torn source target src dst id ∨ ∃ u, rename source target t = .ok () u := by
  by_cases hc : (t.view id).kind = .directory ∧ dst.parent ≠ src.parent
  · obtain ⟨hk, hst⟩ := hc
    obtain ⟨v, hrename, hparent, -, -, hup⟩ := p.rename_to_other hk hst
    by_cases hstuck : t.lookup id ".." = .error .notFound ∨ (t.view id).link.unlink.links = 0
    · exact .inl ⟨p, hk, hst, hstuck⟩
    · obtain ⟨hsome, hlinks⟩ := not_or.mp hstuck
      have hlook : ∃ x, t.lookup id ".." = .ok x := by
        cases hl : t.lookup id ".." with
        | ok x => exact ⟨x, rfl⟩
        | error f =>
          obtain rfl := failure_of_lookup hk hl
          exact absurd hl hsome
      obtain ⟨x, hx⟩ := lookup_isOk_iff.mp hlook
      obtain ⟨u, hu⟩ := reparent_isOk hparent ((hup x).mpr ⟨hlinks, hx⟩)
      exact .inr ⟨u, hrename.trans hu⟩
  · obtain ⟨t₁, t₂, t₃, h₁, h₂, h₃, -⟩ := p.add_remove
    obtain ⟨inode, hi, -⟩ := inode_of_kind p.in_use
    obtain ⟨hdir, -⟩ := directory_of_inode hi
    refine .inr ⟨t₃, ?_⟩
    simp [rename, bind_apply, map_apply, p.source_eq, p.leaf_eq, p.existing_eq, p.ne_root,
      p.target_eq, p.target_new, p.name_valid, hi, hdir, hc, h₁, h₂, h₃]

end Passes

/-- The new name is there by then. -/
theorem Torn.rename_error {source target : String} {src dst : Place}
    (h : t.Torn source target src dst id) : ∃ u, rename source target t = .error .notFound u
      ∧ (u.view dst.parent).entries = (t.view dst.parent).entries ++ [⟨dst.leaf, id⟩] := by
  obtain ⟨p, hk, hst, hstuck⟩ := h
  obtain ⟨u, hrename, hparent, hmore, hkind, hup⟩ := p.rename_to_other hk hst
  have hnone : ∀ x, ⟨"..", x⟩ ∉ (u.view id).entries := by
    intro x hx
    obtain ⟨hlinks, hx⟩ := (hup x).mp hx
    rcases hstuck with hnone | hz
    · obtain ⟨y, hy⟩ := lookup_isOk_iff.mpr ⟨x, hx⟩
      rw [hnone] at hy
      cases hy
    · exact hlinks hz
  exact ⟨u, hrename.trans (reparent_of_not_mem hparent hkind hnone), hmore⟩

/-- `rename` fails on a tree that it has changed just when it is torn. -/
theorem rename_tears_iff (t : Tree) (source target : String) :
    (∃ f u, rename source target t = .error f u ∧ ¬t.Unchanged u)
      ↔ ∃ src dst id, t.Torn source target src dst id := by
  constructor
  · rintro ⟨f, u, hu, hchanged⟩
    have done {v : Tree} (hv : rename source target t = .ok () v) : False := by
      rw [hu] at hv
      cases hv
    rcases rename_checks t source target with ⟨g, hg⟩ | ⟨src, dst, id, -, ⟨-, hv⟩ | p⟩
    · rw [hu] at hg
      cases hg
      exact absurd (.refl t) hchanged
    · exact (done hv).elim
    · rcases p.rename_cases with htorn | ⟨v, hv⟩
      · exact ⟨src, dst, id, htorn⟩
      · exact (done hv).elim
  · rintro ⟨src, dst, id, h⟩
    obtain ⟨u, hu, hmore⟩ := h.rename_error
    refine ⟨.notFound, u, hu, fun hsame => ?_⟩
    have hlen := congrArg List.length hmore
    rw [hsame.view_eq, List.length_append] at hlen
    exact absurd hlen (by simp)

/-- Whatever a tree holds, an edit by path that fails has changed it in two cases only. -/
theorem torn_by_error_iff (t : Tree) :
    (∀ path, (∃ f u, remove path t = .error f u ∧ ¬t.Unchanged u)
        ↔ ∃ place id, t.Stranded path place id)
      ∧ ∀ source target, (∃ f u, rename source target t = .error f u ∧ ¬t.Unchanged u)
        ↔ ∃ src dst id, t.Torn source target src dst id :=
  ⟨remove_tears_iff t, rename_tears_iff t⟩

/-- A directory without `.` loses its `..` and is still there, and one without `..` has two names
after a move that failed. -/
theorem failed_edits_change :
    let t := (removeEntry ⟨1⟩ ".").after (run [.mkdir "/a"] .empty)
    let w := (removeEntry ⟨1⟩ "..").after (run [.mkdir "/a", .mkdir "/b"] .empty)
    (∃ u, remove "/a" t = .error .notFound u ∧ t.lookup ⟨1⟩ ".." = .ok .root
        ∧ u.lookup ⟨1⟩ ".." = .error .notFound ∧ ¬t.Unchanged u)
      ∧ ∃ u, rename "/a" "/b/c" w = .error .notFound u ∧ w.lookup .root "a" = .ok ⟨1⟩
        ∧ u.lookup .root "a" = .error .notFound ∧ ¬w.Unchanged u := by
  intro t w
  have ht : t.lookup ⟨1⟩ ".." = .ok .root := by decide +kernel
  have hw : w.lookup .root "a" = .ok ⟨1⟩ := by decide +kernel
  obtain ⟨e, u, hu, he⟩ := fails_iff.mp (show (remove "/a").fails t (fun e u =>
    e = .notFound && u.lookup ⟨1⟩ ".." = .error .notFound) = true by decide +kernel)
  obtain ⟨f, v, hv, hf⟩ := fails_iff.mp (show (rename "/a" "/b/c").fails w (fun f v =>
    f = .notFound && v.lookup .root "a" = .error .notFound) = true by decide +kernel)
  obtain ⟨rfl, hgone⟩ : e = .notFound ∧ u.lookup ⟨1⟩ ".." = .error .notFound := by simpa using he
  obtain ⟨rfl, hmoved⟩ : f = .notFound ∧ v.lookup .root "a" = .error .notFound := by simpa using hf
  refine ⟨⟨u, hu, ht, hgone, fun h => ?_⟩, v, hv, hw, hmoved, fun h => ?_⟩
  · rw [h.lookup_eq, ht] at hgone
    cases hgone
  · rw [h.lookup_eq, hw] at hmoved
    cases hmoved

end Tree

end SectorFs

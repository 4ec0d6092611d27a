import SectorFs.Proofs.Attempt
import SectorFs.Proofs.Tree.Paths
import SectorFs.Proofs.Tree.Preserve

/-!
# What edits do to sound trees

An edit by path either fails and leaves the names as they are, or makes one of the
changes of `Proofs/Tree/Preserve.lean` as a whole (`attach_cases`, `remove_cases`,
`rename_cases`).  The first step that can fail comes before the first change, in any tree
(`remove_checks`, `rename_checks`), and none after it fails in a sound one: what a step
needs is there because the ones before it found it.
-/

namespace SectorFs

open Attempt

namespace Tree

variable {t : Tree}

/-! ### Names that an edit may touch -/

theorem isProper_of_not_special {e : Entry} (h : isSpecialName e.name = false) : e.IsProper := by
  simp only [isSpecialName, Bool.or_eq_false_iff, beq_eq_false_iff_ne, ne_eq] at h
  exact ⟨h.1.2, h.2⟩

theorem not_special_of_validateName {name : String} (h : validateName name = .ok ()) :
    isSpecialName name = false := by
  obtain ⟨hempty, hdot, hdots, -⟩ := of_validateName h
  simp [isSpecialName, hempty, hdot, hdots]

theorem liesIn_of_locate {path : String} {place : Place} {id : InodeId}
    (hl : t.locate path = .ok place) (hs : isSpecialName place.leaf = false)
    (hx : place.existing = some id) : t.LiesIn id place.parent := by
  obtain ⟨i, -, hget⟩ := entry_of_locate hl hx hs
  exact ⟨_, List.mem_of_getElem? hget, isProper_of_not_special hs, rfl⟩

/-! ### New inodes -/

/-- A failed step of an edit has changed nothing that names see. -/
def Same (t u : Tree) : Prop := u.view = t.view ∧ u.cwd = t.cwd

theorem Same.refl (t : Tree) : t.Same t := ⟨rfl, rfl⟩

theorem Same.avoids_eq {u : Tree} (h : t.Same u) (id : InodeId) : u.Avoids id = t.Avoids id := by
  funext a b
  rw [Avoids, LiesIn, h.1]
  rfl

theorem view_inode (content : NewContent) (self parent : InodeId) :
    (content.inode self parent).view.entries = (content.view self parent).entries
      ∧ (content.inode self parent).view.link = content.view self parent := by
  cases content <;> exact ⟨rfl, rfl⟩

/-- Nothing fails once a new inode has its slot, and the directory its room. -/
theorem finish_attach {t u : Tree} {parent id : InodeId} (name : String) {content : NewContent}
    (ha : allocate content.kind t = .ok id u) (hk : (t.view parent).kind = .directory)
    (hroom : (t.view parent).entries.length < maxEntries) :
    ∃ v w, store id (content.inode id parent) u = .ok () v
      ∧ addEntry parent ⟨name, id⟩
          (if content.kind = .directory then v.addLink parent else v) = .ok () w
      ∧ w.cwd = t.cwd
      ∧ w.view = Function.update (Function.update t.view id (content.view id parent)) parent
          ⟨(t.view parent).links + content.linksUp,
            .directory ((t.view parent).entries ++ [⟨name, id⟩])⟩ := by
  obtain ⟨-, hfree, -, hlt, -, hu, hcu⟩ := allocate_ok ha
  obtain ⟨v, hs⟩ := store_isOk hlt (content.inode id parent)
  obtain ⟨hv, hcv, -⟩ := store_ok hs
  rw [hu, Function.update_idem] at hv
  have hne : parent ≠ id := by
    rintro rfl
    rw [hk] at hfree
    cases hfree
  have hvp : v.view parent = t.view parent := by rw [hv, Function.update_of_ne hne]
  -- the directory above gets its link before its entry
  obtain ⟨v', hv', hw, hcv'⟩ : ∃ v' : Tree,
      (if content.kind = .directory then v.addLink parent else v) = v'
        ∧ v'.view = Function.update v.view parent
          { t.view parent with links := (t.view parent).links + content.linksUp }
        ∧ v'.cwd = v.cwd := by
    cases content with
    | file bytes =>
      refine ⟨v, rfl, ?_, rfl⟩
      rw [NewContent.linksUp, UInt32.add_zero, ← hvp, Function.update_eq_self]
    | directory =>
      refine ⟨v.addLink parent, rfl, ?_, rfl⟩
      rw [view_addLink (by rw [hvp, hk]; decide), hvp]
      rfl
  have hp : v'.view parent
      = { t.view parent with links := (t.view parent).links + content.linksUp } := by
    rw [hw, Function.update_self]
  have hi : v'.view id = (content.inode id parent).view := by
    rw [hw, Function.update_of_ne hne.symm, hv, Function.update_self]
  have he : (v'.view parent).entries = (t.view parent).entries := by
    rw [hp]
    rfl
  obtain ⟨w, hadd⟩ := addEntry_isOk (t := v') (e := ⟨name, id⟩) (by rw [hp]; exact hk)
    (by rw [he]; exact hroom) (by rw [hi]; cases content <;> exact Kind.noConfusion)
  obtain ⟨-, -, -, hcw, -, -, x, hx, hwx⟩ := addEntry_ok hadd
  refine ⟨v, w, hs, hv'.symm ▸ hadd, by rw [hcw, hcv', hcv, hcu], ?_⟩
  have hxi : x id = (content.inode id parent).view := by
    rw [hx, Function.update_of_ne hne.symm, hi]
  rw [hwx, show (⟨name, id⟩ : Entry).inode = id from rfl, hxi, (view_inode content id parent).2,
    hx, he, hp, hw, Function.update_idem, hv, Function.update_comm hne, Function.update_idem]

/-- With a name that is new, room for it and a slot, a new inode is made. -/
theorem attach_found {path : String} {content : NewContent} {place : Place} {id : InodeId}
    {t₁ t₂ : Tree} (hl : t.locate path = .ok place) (hx : place.existing = none)
    (hv : validateName place.leaf = .ok ()) (hr : reserveEntry place.parent t = .ok () t₁)
    (ha : allocate content.kind t₁ = .ok id t₂) :
    ∃ u, attach path content t = .ok id u
      ∧ Attached t u place.parent id place.leaf content := by
  obtain ⟨hv₁, hc₁, -, -, hk, hroom⟩ := reserveEntry_ok hr
  obtain ⟨-, hfree, -, hlt, -⟩ := allocate_ok ha
  obtain ⟨t₃, u, hs, hadd, hcu, hu⟩ := finish_attach place.leaf ha (hv₁ ▸ hk) (hv₁ ▸ hroom)
  rw [hv₁] at hfree hu
  refine ⟨u, ?_, hk, hfree, Nat.lt_of_lt_of_le hlt t₂.size_le_max, hv,
    name_new_of_locate hl hx hk, hcu.trans hc₁, hu⟩
  cases content with
  | file bytes =>
    have ha : allocate .file t₁ = .ok id t₂ := ha
    have hadd : addEntry place.parent ⟨place.leaf, id⟩ t₃ = .ok () u := hadd
    simp [attach, bind_apply, map_apply, hl, hx, hv, hr, ha, hs, hadd, NewContent.kind]
  | directory =>
    have ha : allocate .directory t₁ = .ok id t₂ := ha
    have hadd : addEntry place.parent ⟨place.leaf, id⟩ (t₃.addLink place.parent) = .ok () u := hadd
    simp [attach, bind_apply, map_apply, hl, hx, hv, hr, ha, hs, hadd, NewContent.kind]

/-- A new inode is made as a whole or not at all. -/
theorem attach_cases (t : Tree) (path : String) (content : NewContent) :
    (∃ e u, attach path content t = .error e u ∧ t.Same u)
      ∨ ∃ place id t₁ t₂ u, t.locate path = .ok place ∧ place.existing = none
        ∧ reserveEntry place.parent t = .ok () t₁ ∧ allocate content.kind t₁ = .ok id t₂
        ∧ attach path content t = .ok id u
        ∧ Attached t u place.parent id place.leaf content := by
  cases hl : t.locate path with
  | error e => exact .inl ⟨e, t, by simp [attach, bind_apply, hl], .refl t⟩
  | ok place =>
    cases hx : place.existing with
    | some id => exact .inl ⟨.alreadyExists, t, by simp [attach, bind_apply, hl, hx], .refl t⟩
    | none =>
      cases hv : validateName place.leaf with
      | error e => exact .inl ⟨e, t, by simp [attach, bind_apply, hl, hx, hv], .refl t⟩
      | ok _ =>
        cases hr : reserveEntry place.parent t with
        | error e u =>
          exact .inl ⟨e, u, by simp [attach, bind_apply, hl, hx, hv, hr],
            atomically_error hr ▸ .refl t⟩
        | ok _ t₁ =>
          obtain ⟨hv₁, hc₁, -⟩ := reserveEntry_ok hr
          cases ha : allocate content.kind t₁ with
          | error e u =>
            exact .inl ⟨e, u, by simp [attach, bind_apply, hl, hx, hv, hr, ha],
              atomically_error ha ▸ ⟨hv₁, hc₁⟩⟩
          | ok id t₂ =>
            obtain ⟨u, hu, hatt⟩ := attach_found hl hx hv hr ha
            exact .inr ⟨place, id, t₁, t₂, u, rfl, hx, hr, ha, hu, hatt⟩

/-- An inode that was made has its entry where the path led. -/
theorem attached_of_ok {u : Tree} {path : String} {content : NewContent} {id : InodeId}
    (h : attach path content t = .ok id u) :
    ∃ parent leaf, t.locate path = .ok ⟨parent, leaf, none⟩
      ∧ Attached t u parent id leaf content := by
  rcases attach_cases t path content with
    ⟨e, v, hv, -⟩ | ⟨⟨parent, leaf, existing⟩, id', -, -, v, hl, hx, -, -, hv, ha⟩
  · rw [h] at hv
    cases hv
  · rw [h] at hv
    cases hv
    cases hx
    exact ⟨parent, leaf, hl, ha⟩

/-! ### Removing -/

/-- A removal is as much of a change as the entries are that it takes out. -/
theorem remove_moves {r : Tree → Tree → Prop} [IsPreorder Tree r]
    (hr : ∀ dir name, (removeEntry dir name).Moves r) (path : String) :
    (remove path).Moves r := by
  refine .bind .get fun t => .bind (.lift _) fun place => .check fun _ => ?_
  simp only []
  cases place.existing with
  | none => exact .throw _
  | some id =>
    have hlast : (do
        let _ ← removeEntry place.parent place.leaf : Attempt Tree Unit).Moves r :=
      .bind (hr _ _) fun _ => .pure _
    refine .check fun _ => .bind (.lift _) fun inode => .ite (.check fun _ => ?_) hlast
    exact .bind (hr _ _) fun _ => .bind (hr _ _) fun _ => hlast

/-- Taking out the first entry of a name, and dropping the link that it was. -/
theorem removeEntry_first {t : Tree} {dir id : InodeId} {name : String} {i : Nat}
    (hfind : (t.view dir).entries.findIdx? (·.name == name) = some i)
    (hget : (t.view dir).entries[i]? = some ⟨name, id⟩) :
    ∃ u v, removeEntry dir name t = .ok id u ∧ u.cwd = t.cwd
      ∧ v = Function.update t.view dir
          ⟨(t.view dir).links, .directory (takeOut (t.view dir).entries i)⟩
      ∧ u.view = Function.update v id ((v id).drop id) := by
  obtain ⟨id', u, hu⟩ := removeEntry_isOk (List.mem_of_getElem? hget)
  obtain ⟨-, -, hc, i', v, hfind', hget', hv, hw⟩ := removeEntry_ok hu
  obtain rfl : i' = i := Option.some.inj (hfind'.symm.trans hfind)
  obtain rfl : id' = id := congrArg Entry.inode (Option.some.inj (hget'.symm.trans hget))
  exact ⟨u, v, hu, hc, hv, hw⟩

/-- The same for an inode that is in use. -/
theorem removeEntry_run {t : Tree} {dir id : InodeId} {name : String} {i : Nat}
    (hfind : (t.view dir).entries.findIdx? (·.name == name) = some i)
    (hget : (t.view dir).entries[i]? = some ⟨name, id⟩) (hk : (t.view id).kind ≠ .free) :
    ∃ u v, removeEntry dir name t = .ok id u ∧ u.cwd = t.cwd
      ∧ v = Function.update t.view dir
          ⟨(t.view dir).links, .directory (takeOut (t.view dir).entries i)⟩
      ∧ u.view = Function.update v id
          (if (v id).unlink.links = 0 ∧ id ≠ .root then .unused else (v id).unlink) := by
  obtain ⟨u, v, hu, hc, hv, hw⟩ := removeEntry_first hfind hget
  refine ⟨u, v, hu, hc, hv, hw.trans (congrArg _ (InodeView.drop_of_kind_ne ?_ _))⟩
  rw [hv]
  by_cases hd : id = dir
  · rw [hd, Function.update_self]
    exact Kind.noConfusion
  · rwa [Function.update_of_ne hd]

/-- A directory that holds nothing loses its two names first, and the directory above the
link of `..`. -/
theorem clear_directory (h : t.Sound) {id parent : InodeId} (hk : (t.view id).kind = .directory)
    (hbare : ¬∃ child, t.LiesIn child id) (hl : t.LiesIn id parent) :
    ∃ u v, removeEntry id ".." t = .ok parent u ∧ removeEntry id "." u = .ok id v
      ∧ v.cwd = t.cwd ∧ v.view id = ⟨1, .directory []⟩ ∧ v.view parent = (t.view parent).unlink
      ∧ ∀ x, x ≠ id → x ≠ parent → v.view x = t.view x := by
  have hroot : id ≠ .root := fun he => h.root_not_liesIn (he ▸ hl)
  have hne : parent ≠ id := fun he => h.not_liesIn_self (he ▸ hl)
  have hpk := kind_of_liesIn hl
  obtain ⟨up, below, hlist⟩ := h.lists hk
  obtain rfl : up = parent := h.liesIn_unique (hlist.liesIn hroot) hl
  have hes : (t.view id).entries = [⟨".", id⟩, ⟨"..", up⟩] := by
    rw [hlist.entries_eq, hlist.below_eq_nil_iff.mpr hbare]
  have hid : t.view id = ⟨2, .directory [⟨".", id⟩, ⟨"..", up⟩]⟩ := by
    rw [← h.links_of_bare hk hroot hbare, ← hes]
    exact InodeView.eq_of_kind_directory hk
  have hfind : (t.view id).entries.findIdx? (·.name == "..") = some 1 := by rw [hes]; rfl
  obtain ⟨u, w, hu, hcu, hw, huw⟩ := removeEntry_run hfind (by rw [hes]; rfl)
    (hpk.trans_ne (by decide))
  have htwo := h.two_le_links_of_parent hl hk
  have hwp : w up = t.view up := by rw [hw, Function.update_of_ne hne]
  have hstay : (t.view up).unlink.links ≠ 0 := by
    intro hz
    have := (t.view up).toNat_unlink
    rw [hz, show (0 : UInt32).toNat = 0 from rfl] at this
    omega
  rw [hwp, if_neg fun hc => hstay hc.1, hw] at huw
  have hui : u.view id = ⟨2, .directory [⟨".", id⟩]⟩ := by
    rw [huw, Function.update_of_ne hne.symm, Function.update_self, hid]
    rfl
  have hself : (u.view id).entries.findIdx? (·.name == ".") = some 0 := by rw [hui]; rfl
  obtain ⟨v, w', hv, hcv, hw', hvw⟩ := removeEntry_run hself (by rw [hui]; rfl)
    (by rw [hui]; exact Kind.noConfusion)
  have hwi : w' id = ⟨2, .directory []⟩ := by
    rw [hw', Function.update_self, hui]
    rfl
  rw [hwi, if_neg (by simp [InodeView.unlink]), hw'] at hvw
  refine ⟨u, v, hu, hv, hcv.trans hcu, ?_, ?_, fun x hx hxp => ?_⟩
  · rw [hvw, Function.update_self]
    rfl
  · rw [hvw, Function.update_of_ne hne, Function.update_of_ne hne, huw, Function.update_self]
  · rw [hvw, Function.update_of_ne hx, Function.update_of_ne hx, huw, Function.update_of_ne hxp,
      Function.update_of_ne hx]

theorem removeEntry_last {t : Tree} {dir id : InodeId} {name : String} {i : Nat}
    (hfind : (t.view dir).entries.findIdx? (·.name == name) = some i)
    (hget : (t.view dir).entries[i]? = some ⟨name, id⟩) (hk : (t.view id).kind ≠ .free)
    (hne : dir ≠ id) (hroot : id ≠ .root) (hone : (t.view id).links = 1) :
    ∃ u, removeEntry dir name t = .ok id u ∧ u.cwd = t.cwd
      ∧ u.view = Function.update (Function.update t.view id .unused) dir
          ⟨(t.view dir).links, .directory (takeOut (t.view dir).entries i)⟩ := by
  obtain ⟨u, v, hu, hc, hv, huv⟩ := removeEntry_run hfind hget hk
  have hvi : v id = t.view id := by rw [hv, Function.update_of_ne hne.symm]
  refine ⟨u, hu, hc, ?_⟩
  rw [huv, hvi, if_pos ⟨by simp [InodeView.unlink, hone], hroot⟩, hv, Function.update_comm hne]

theorem kind_of_liesIn_cases (h : t.Sound) {id dir : InodeId} (hl : t.LiesIn id dir) :
    (t.view id).kind = .file ∨ (t.view id).kind = .directory := by
  have huse := h.inUse_of_liesIn hl
  cases hk : (t.view id).kind with
  | free => exact absurd hk huse
  | file => exact .inl rfl
  | directory => exact .inr rfl

theorem remove_of_file (h : t.Sound) {parent id : InodeId} {name : String} {i : Nat}
    (hfind : (t.view parent).entries.findIdx? (·.name == name) = some i)
    (hget : (t.view parent).entries[i]? = some ⟨name, id⟩)
    (hproper : (⟨name, id⟩ : Entry).IsProper) (hcwd : id ≠ t.cwd)
    (hk : (t.view id).kind = .file) :
    ∃ u, removeEntry parent name t = .ok id u ∧ Detached t u parent id name i := by
  have hin : t.LiesIn id parent := ⟨_, List.mem_of_getElem? hget, hproper, rfl⟩
  have hroot : id ≠ .root := fun he => h.root_not_liesIn (he ▸ hin)
  have hkd : (t.view id).kind ≠ .directory := hk.trans_ne (by decide)
  obtain ⟨u, hu, hc, hv⟩ := removeEntry_last hfind hget (hk.trans_ne (by decide))
    (fun he => h.not_liesIn_self (he ▸ hin)) hroot (h.links_of_file hk)
  refine ⟨u, hu, hget, hproper, fun ⟨_, hc⟩ => hkd (kind_of_liesIn hc), hcwd, hc, ?_⟩
  rw [hv, if_neg hkd]

theorem remove_of_directory (h : t.Sound) {parent id : InodeId} {name : String} {i : Nat}
    (hfind : (t.view parent).entries.findIdx? (·.name == name) = some i)
    (hget : (t.view parent).entries[i]? = some ⟨name, id⟩)
    (hproper : (⟨name, id⟩ : Entry).IsProper) (hcwd : id ≠ t.cwd)
    (hk : (t.view id).kind = .directory) (hbare : ¬∃ child, t.LiesIn child id) :
    ∃ v w u, removeEntry id ".." t = .ok parent v ∧ removeEntry id "." v = .ok id w
      ∧ removeEntry parent name w = .ok id u ∧ Detached t u parent id name i := by
  have hin : t.LiesIn id parent := ⟨_, List.mem_of_getElem? hget, hproper, rfl⟩
  have hne : parent ≠ id := fun he => h.not_liesIn_self (he ▸ hin)
  have hroot : id ≠ .root := fun he => h.root_not_liesIn (he ▸ hin)
  obtain ⟨v, w, hv, hw, hcw, hwi, hwp, hwo⟩ := clear_directory h hk hbare hin
  have hes : (w.view parent).entries = (t.view parent).entries := by
    rw [hwp, InodeView.entries_unlink]
  obtain ⟨u, hu, hcu, huv⟩ := removeEntry_last (t := w) (hes.symm ▸ hfind)
    (hes.symm ▸ hget) (by rw [hwi]; exact Kind.noConfusion) hne hroot (by rw [hwi])
  refine ⟨v, w, u, hv, hw, hu, hget, hproper, hbare, hcwd, hcu.trans hcw, ?_⟩
  rw [huv, hes, hwp, if_pos hk]
  funext x
  by_cases hxp : x = parent
  · rw [hxp, Function.update_self, Function.update_self]
  · rw [Function.update_of_ne hxp, Function.update_of_ne hxp]
    by_cases hxi : x = id
    · rw [hxi, Function.update_self, Function.update_self]
    · rw [Function.update_of_ne hxi, Function.update_of_ne hxi, hwo x hxi hxp]

theorem directory_of_inode {id : InodeId} {inode : Inode} (hi : t.inode id = .ok inode) :
    inode.isDirectory = decide ((t.view id).kind = .directory)
      ∧ ((t.view id).kind = .directory → inode.size = (t.view id).entries.length) := by
  rw [(view_of_inode hi).1, Inode.kind_view]
  refine ⟨rfl, fun hk => ?_⟩
  obtain ⟨es, hes⟩ := Inode.isDirectory_iff.mp (beq_iff_eq.mpr hk)
  rw [Inode.view, Inode.size, hes]
  rfl

/-- What is named, is not the working directory and holds nothing is removed. -/
theorem remove_found (h : t.Sound) {path : String} {place : Place} {id : InodeId}
    (hl : t.locate path = .ok place) (hs : isSpecialName place.leaf = false)
    (hx : place.existing = some id) (hcwd : id ≠ t.cwd)
    (hbare : ¬∃ child, t.LiesIn child id) :
    ∃ i u, remove path t = .ok () u ∧ Detached t u place.parent id place.leaf i := by
  obtain ⟨i, hfind, hget⟩ := entry_of_locate hl hx hs
  have hproper : (⟨place.leaf, id⟩ : Entry).IsProper := isProper_of_not_special hs
  have hin : t.LiesIn id place.parent := ⟨_, List.mem_of_getElem? hget, hproper, rfl⟩
  have hroot : id ≠ .root := fun he => h.root_not_liesIn (he ▸ hin)
  obtain ⟨inode, hi, -⟩ := inode_of_kind (h.inUse_of_liesIn hin)
  obtain ⟨hd, hsize⟩ := directory_of_inode hi
  rcases kind_of_liesIn_cases h hin with hk | hk
  · obtain ⟨u, hu, hdet⟩ := remove_of_file h hfind hget hproper hcwd hk
    refine ⟨i, u, ?_, hdet⟩
    simp [remove, bind_apply, map_apply, hl, hs, hx, hcwd, hroot, hi, hd, hk, hu]
  · obtain ⟨up, below, hlist⟩ := h.lists hk
    have hsz : inode.size = 2 := by
      rw [hsize hk, hlist.entries_eq, hlist.below_eq_nil_iff.mpr hbare]
      rfl
    obtain ⟨v, w, u, hv, hw, hu, hdet⟩ :=
      remove_of_directory h hfind hget hproper hcwd hk hbare
    refine ⟨i, u, ?_, hdet⟩
    simp [remove, bind_apply, map_apply, hl, hs, hx, hcwd, hroot, hi, hd, hk, hsz, hv, hw, hu]

/-- `remove` comes as far as its first change. -/
structure Empties (t : Tree) (path : String) (place : Place) (id : InodeId) : Prop where
  locate_eq : t.locate path = .ok place
  leaf_eq : isSpecialName place.leaf = false
  existing_eq : place.existing = some id
  ne_root : id ≠ .root
  ne_cwd : id ≠ t.cwd
  in_use : (t.view id).kind ≠ .free
  length_le : (t.view id).kind = .directory → (t.view id).entries.length ≤ 2

/-- Whatever the tree, what `remove` checks comes before what it changes. -/
theorem remove_checks (t : Tree) (path : String) :
    (∃ f, remove path t = .error f t) ∨ ∃ place id, t.Empties path place id := by
  cases hl : t.locate path with
  | error f => exact .inl ⟨f, by simp [remove, bind_apply, hl]⟩
  | ok place =>
    cases hs : isSpecialName place.leaf with
    | true => exact .inl ⟨.invalidArgument, by simp [remove, bind_apply, hl, hs]⟩
    | false =>
      cases hx : place.existing with
      | none => exact .inl ⟨.notFound, by simp [remove, bind_apply, hl, hs, hx]⟩
      | some id =>
        by_cases hown : id = .root ∨ id = t.cwd
        · exact .inl ⟨.invalidArgument, by simp [remove, bind_apply, hl, hs, hx, hown]⟩
        · cases hi : t.inode id with
          | error f => exact .inl ⟨f, by simp [remove, bind_apply, hl, hs, hx, hown, hi]⟩
          | ok inode =>
            obtain ⟨hd, hsize⟩ := directory_of_inode hi
            by_cases hfull : (t.view id).kind = .directory ∧ 2 < (t.view id).entries.length
            · rw [← hsize hfull.1] at hfull
              exact .inl ⟨.directoryNotEmpty, by
                simp [remove, bind_apply, hl, hs, hx, hown, hi, hd, hfull.1, hfull.2]⟩
            · exact .inr ⟨place, id, hl, hs, hx, fun h => hown (.inl h), fun h => hown (.inr h),
                (view_of_inode hi).2, fun hk => Nat.le_of_not_lt fun h => hfull ⟨hk, h⟩⟩

/-- An inode is removed as a whole or not at all. -/
theorem remove_cases (h : t.Sound) (path : String) :
    (∃ e, remove path t = .error e t)
      ∨ ∃ place id i u, t.locate path = .ok place ∧ isSpecialName place.leaf = false
        ∧ place.existing = some id ∧ remove path t = .ok () u
        ∧ Detached t u place.parent id place.leaf i := by
  refine (remove_checks t path).imp_right fun ⟨place, id, c⟩ => ?_
  have hbare : ¬∃ child, t.LiesIn child id := by
    intro hc
    have hk := kind_of_liesIn hc.choose_spec
    obtain ⟨up, below, hlist⟩ := h.lists hk
    have hbelow := List.length_pos_iff.mpr fun hb => hlist.below_eq_nil_iff.mp hb hc
    have hle := c.length_le hk
    rw [hlist.entries_eq, List.length_cons, List.length_cons] at hle
    omega
  obtain ⟨i, u, hu, hdet⟩ :=
    remove_found h c.locate_eq c.leaf_eq c.existing_eq c.ne_cwd hbare
  exact ⟨place, id, i, u, c.locate_eq, c.leaf_eq, c.existing_eq, hu, hdet⟩

/-! ### Moving -/

/-- A new name for an inode that has one leads to one link more. -/
theorem addEntry_run {t : Tree} {dir id : InodeId} (name : String)
    (hdir : (t.view dir).kind = .directory) (hroom : (t.view dir).entries.length < maxEntries)
    (hk : (t.view id).kind ≠ .free) (hne : id ≠ dir) :
    ∃ u, addEntry dir ⟨name, id⟩ t = .ok () u ∧ u.cwd = t.cwd
      ∧ u.view = Function.update (Function.update t.view dir
          ⟨(t.view dir).links, .directory ((t.view dir).entries ++ [⟨name, id⟩])⟩) id
          (t.view id).link := by
  obtain ⟨u, hu⟩ := addEntry_isOk (e := ⟨name, id⟩) hdir hroom hk
  obtain ⟨-, -, -, hc, -, -, v, hv, huv⟩ := addEntry_ok hu
  have hvi : v id = t.view id := by rw [hv, Function.update_of_ne hne]
  refine ⟨u, hu, hc, ?_⟩
  rw [huv, show (⟨name, id⟩ : Entry).inode = id from rfl, hvi, hv]

/-- A new name comes in and the old one goes: the links stay what they were. -/
theorem add_remove_run (h : t.Sound) {source target id : InodeId} {old : String} (new : String)
    {i : Nat}
    (hfind : (t.view source).entries.findIdx? (·.name == old) = some i)
    (hget : (t.view source).entries[i]? = some ⟨old, id⟩)
    (hproper : (⟨old, id⟩ : Entry).IsProper) (hk : (t.view target).kind = .directory)
    (hroom : (t.view target).entries.length < maxEntries) (hne : id ≠ target) :
    ∃ u v w, addEntry target ⟨new, id⟩ t = .ok () u ∧ removeEntry source old u = .ok id v
      ∧ v.cwd = t.cwd
      ∧ w = Function.update t.view target
          ⟨(t.view target).links, .directory ((t.view target).entries ++ [⟨new, id⟩])⟩
      ∧ v.view = Function.update w source
          ⟨(w source).links, .directory (takeOut (w source).entries i)⟩ := by
  have hin : t.LiesIn id source := ⟨_, List.mem_of_getElem? hget, hproper, rfl⟩
  have hsource : id ≠ source := fun he => h.not_liesIn_self (he ▸ hin)
  obtain ⟨u, hu, hcu, huv⟩ := addEntry_run new hk hroom (h.inUse_of_liesIn hin) hne
  let w := Function.update t.view target
    ⟨(t.view target).links, .directory ((t.view target).entries ++ [⟨new, id⟩])⟩
  have hus : u.view source = w source := by
    rw [huv]
    exact Function.update_of_ne hsource.symm ..
  have hui : u.view id = (t.view id).link := by rw [huv, Function.update_self]
  -- what `source` held before comes first, whether or not it is `target`
  obtain ⟨more, hmore⟩ : ∃ more, (w source).entries = (t.view source).entries ++ more := by
    by_cases hst : source = target
    · exact ⟨[⟨new, id⟩], by rw [hst]; exact congrArg _ (Function.update_self ..)⟩
    · exact ⟨[], by rw [List.append_nil]; exact congrArg _ (Function.update_of_ne hst ..)⟩
  have hlt := (List.getElem?_eq_some_iff.mp hget).1
  have hold : (u.view source).entries.findIdx? (·.name == old) = some i := by
    rw [hus, hmore, List.findIdx?_append, hfind]
    rfl
  obtain ⟨v, x, hv, hcv, hx, hvx⟩ := removeEntry_run hold
    (by rw [hus, hmore, List.getElem?_append_left hlt, hget])
    (by rw [hui]; exact h.inUse_of_liesIn hin)
  have hxi : x id = (t.view id).link := by rw [hx, Function.update_of_ne hsource, hui]
  have hzero : (t.view id).link.unlink.links ≠ 0 := by
    rw [InodeView.unlink_link (h.links_lt id)]
    exact h.links_ne_zero hin
  refine ⟨u, v, w, hu, hv, hcv.trans hcu, rfl, ?_⟩
  rw [hvx, hxi, if_neg fun hc => hzero hc.1, InodeView.unlink_link (h.links_lt id), hx, hus, huv]
  funext y
  by_cases hyi : y = id
  · rw [hyi, Function.update_self, Function.update_of_ne hsource]
    exact (Function.update_of_ne hne ..).symm
  · rw [Function.update_of_ne hyi]
    by_cases hys : y = source
    · rw [hys, Function.update_self, Function.update_self]
    · rw [Function.update_of_ne hys, Function.update_of_ne hys, Function.update_of_ne hyi]

/-- In one directory the new name takes the place of the old one. -/
theorem rename_within (h : t.Sound) {parent id : InodeId} {old new : String} {i : Nat}
    (hfind : (t.view parent).entries.findIdx? (·.name == old) = some i)
    (hget : (t.view parent).entries[i]? = some ⟨old, id⟩)
    (hproper : (⟨old, id⟩ : Entry).IsProper)
    (hroom : (t.view parent).entries.length < maxEntries) (hname : validateName new = .ok ())
    (hnew : ∀ e ∈ (t.view parent).entries, e.name ≠ new) :
    ∃ u v, addEntry parent ⟨new, id⟩ t = .ok () u ∧ removeEntry parent old u = .ok id v
      ∧ Relabeled t v parent id old new i := by
  have hin : t.LiesIn id parent := ⟨_, List.mem_of_getElem? hget, hproper, rfl⟩
  have hne : id ≠ parent := fun he => h.not_liesIn_self (he ▸ hin)
  obtain ⟨u, v, w, hu, hv, hc, rfl, hvw⟩ :=
    add_remove_run h new hfind hget hproper (kind_of_liesIn hin) hroom hne
  refine ⟨u, v, hu, hv, hget, hproper, hname, hnew, hc, ?_⟩
  rw [hvw, Function.update_self, Function.update_idem]
  show Function.update t.view parent ⟨_, .directory (takeOut
    ((t.view parent).entries ++ [⟨new, id⟩]) i)⟩ = _
  rw [takeOut_append_singleton (List.getElem?_eq_some_iff.mp hget).1]

/-- A file moves with its name. -/
theorem rename_file (h : t.Sound) {source target id : InodeId} {old new : String} {i : Nat}
    (hfind : (t.view source).entries.findIdx? (·.name == old) = some i)
    (hget : (t.view source).entries[i]? = some ⟨old, id⟩)
    (hproper : (⟨old, id⟩ : Entry).IsProper) (hk : (t.view target).kind = .directory)
    (hroom : (t.view target).entries.length < maxEntries) (hname : validateName new = .ok ())
    (hnew : ∀ e ∈ (t.view target).entries, e.name ≠ new) (hst : source ≠ target)
    (hfile : (t.view id).kind ≠ .directory) :
    ∃ u v, addEntry target ⟨new, id⟩ t = .ok () u ∧ removeEntry source old u = .ok id v
      ∧ Moved t v source target id old new i := by
  have hne : id ≠ target := fun he => hfile (he ▸ hk)
  have hin : t.LiesIn id source := ⟨_, List.mem_of_getElem? hget, hproper, rfl⟩
  obtain ⟨u, v, w, hu, hv, hc, rfl, hvw⟩ :=
    add_remove_run h new hfind hget hproper hk hroom hne
  rw [Function.update_of_ne hst] at hvw
  refine ⟨u, v, hu, hv, hget, hproper, hk, hst, hname, hnew, avoids_of_file h hfile hk, hc, ?_,
    ?_, ?_, fun x hs ht _ => ?_⟩
  · rw [hvw, Function.update_self, if_neg hfile]
  · rw [hvw, Function.update_of_ne hst.symm, Function.update_self, if_neg hfile]
  · have hsource : id ≠ source := fun he => hfile (he ▸ kind_of_liesIn hin)
    rw [hvw, Function.update_of_ne hsource, Function.update_of_ne hne, if_neg hfile]
  · rw [hvw, Function.update_of_ne hs, Function.update_of_ne ht]

/-- A directory with its `..` in place is handed from one parent to another that keeps it
in use. -/
theorem reparent_run {id up target : InodeId} {below : List Entry}
    (hlist : (t.view id).entries = ⟨".", id⟩ :: ⟨"..", up⟩ :: below)
    (hk : (t.view target).kind = .directory) (hup : (t.view up).kind ≠ .free)
    (hne : id ≠ target) (hne' : id ≠ up) (hst : up ≠ target)
    (hstay : (t.view up).unlink.links ≠ 0) :
    ∃ u, reparent id target t = .ok () u ∧ u.cwd = t.cwd
      ∧ u.view up = (t.view up).unlink ∧ u.view target = (t.view target).link
      ∧ u.view id = ⟨(t.view id).links, .directory ((t.view id).entries.set 1 ⟨"..", target⟩)⟩
      ∧ ∀ x, x ≠ id → x ≠ target → x ≠ up → u.view x = t.view x := by
  have hmem : ⟨"..", up⟩ ∈ (t.view id).entries := by
    rw [hlist]
    simp
  obtain ⟨u, hu⟩ := reparent_isOk hk hmem
  obtain ⟨-, -, -, hcwd, j, old, x, y, hj, hold, hx, hy, huy⟩ := reparent_ok hu
  obtain rfl : 1 = j := by
    rw [hlist] at hj
    exact Option.some.inj hj
  obtain rfl : up = old := by
    rw [hlist] at hold
    exact congrArg Entry.inode (Option.some.inj hold)
  have hxt : x target = t.view target := by rw [hx, Function.update_of_ne hne.symm]
  have hyu : y up = t.view up := by
    rw [hy, Function.update_of_ne hst, hx, Function.update_of_ne hne'.symm]
  have huv := huy
  rw [hyu, InodeView.drop_of_kind_ne hup, if_neg fun hc => hstay hc.1] at huv
  refine ⟨u, hu, hcwd, ?_, ?_, ?_, fun z hzi hzt hzu => ?_⟩
  · rw [huv, Function.update_self]
  · rw [huv, Function.update_of_ne hst.symm, hy, Function.update_self, hxt]
  · rw [huv, Function.update_of_ne hne', hy, Function.update_of_ne hne, hx, Function.update_self]
  · rw [huv, Function.update_of_ne hzu, hy, Function.update_of_ne hzt, hx,
      Function.update_of_ne hzi]

/-- A directory moves with its name, and `..` follows. -/
theorem rename_directory (h : t.Sound) {source target id : InodeId} {old new : String} {i : Nat}
    (hfind : (t.view source).entries.findIdx? (·.name == old) = some i)
    (hget : (t.view source).entries[i]? = some ⟨old, id⟩)
    (hproper : (⟨old, id⟩ : Entry).IsProper) (hk : (t.view target).kind = .directory)
    (hroom : (t.view target).entries.length < maxEntries) (hname : validateName new = .ok ())
    (hnew : ∀ e ∈ (t.view target).entries, e.name ≠ new) (hst : source ≠ target)
    (hdir : (t.view id).kind = .directory)
    (haround : Relation.ReflTransGen (t.Avoids id) target .root) :
    ∃ u v w, addEntry target ⟨new, id⟩ t = .ok () u ∧ removeEntry source old u = .ok id v
      ∧ reparent id target v = .ok () w ∧ Moved t w source target id old new i := by
  have hin : t.LiesIn id source := ⟨_, List.mem_of_getElem? hget, hproper, rfl⟩
  have hroot : id ≠ .root := fun he => h.root_not_liesIn (he ▸ hin)
  have hne : id ≠ target := ne_of_around hroot haround
  have hsource : id ≠ source := fun he => h.not_liesIn_self (he ▸ hin)
  obtain ⟨u, v, w, hu, hv, hc, rfl, hvw⟩ :=
    add_remove_run h new hfind hget hproper hk hroom hne
  rw [Function.update_of_ne hst] at hvw
  have hvi : v.view id = t.view id := by
    rw [hvw, Function.update_of_ne hsource, Function.update_of_ne hne]
  have hvt : v.view target = ⟨(t.view target).links,
      .directory ((t.view target).entries ++ [⟨new, id⟩])⟩ := by
    rw [hvw, Function.update_of_ne hst.symm, Function.update_self]
  have hvs : v.view source = ⟨(t.view source).links,
      .directory (takeOut (t.view source).entries i)⟩ := by
    rw [hvw, Function.update_self]
  obtain ⟨up, below, hlist⟩ := h.lists hdir
  obtain rfl : up = source := h.liesIn_unique (hlist.liesIn hroot) hin
  have hve : (v.view id).entries = ⟨".", id⟩ :: ⟨"..", up⟩ :: below := by
    rw [hvi, hlist.entries_eq]
  have hvk : (v.view target).kind = .directory := by
    rw [hvt]
    rfl
  have hstay : (v.view up).unlink.links ≠ 0 := by
    intro hz
    have h2 := h.two_le_links_of_parent hin hdir
    have := (v.view up).toNat_unlink
    rw [hz, hvs, show (0 : UInt32).toNat = 0 from rfl] at this
    dsimp only at this
    omega
  obtain ⟨w, hw, hcw, hup, htarget, hid, hother⟩ :=
    reparent_run hve hvk (by rw [hvs]; exact Kind.noConfusion) hne hsource hst hstay
  refine ⟨u, v, w, hu, hv, hw, hget, hproper, hk, hst, hname, hnew, haround, hcw.trans hc, ?_,
    ?_, ?_, fun z hzs hzt hzi => ?_⟩
  · rw [hup, hvs, if_pos hdir]
    rfl
  · rw [htarget, hvt, if_pos hdir]
    rfl
  · rw [hid, hvi, if_pos hdir]
  · rw [hother z hzi hzt hzs, hvw, Function.update_of_ne hzs, Function.update_of_ne hzt]

theorem Sound.of_view_eq {u : Tree} (h : t.Sound) (hu : t.Same u) : u.Sound := by
  obtain ⟨hv, hc⟩ := hu
  refine h.of_same ?_ (fun id => ?_) (fun id => ?_) fun id => ?_
  · rw [hc, h.cwd_kind]
  · rw [hv]
  · rw [hv]
  · rw [hv]

theorem Relabeled.of_same {u v : Tree} {parent id : InodeId} {old new : String} {i : Nat}
    (hs : t.Same u) (a : Relabeled u v parent id old new i) :
    Relabeled t v parent id old new i := by
  obtain ⟨hv, hc⟩ := hs
  exact ⟨hv ▸ a.entry_eq, a.proper, a.name_valid, hv ▸ a.name_new, hc ▸ a.cwd_eq, hv ▸ a.view_eq⟩

theorem Moved.of_same {u v : Tree} {source target id : InodeId} {old new : String} {i : Nat}
    (hs : t.Same u) (a : Moved u v source target id old new i) :
    Moved t v source target id old new i := by
  have havoids := hs.avoids_eq id
  obtain ⟨hv, hc⟩ := hs
  exact ⟨hv ▸ a.entry_eq, a.proper, hv ▸ a.target_kind, a.source_ne, a.name_valid,
    hv ▸ a.name_new, havoids ▸ a.around, hc ▸ a.cwd_eq, hv ▸ a.view_source, hv ▸ a.view_target,
    hv ▸ a.view_moved, hv ▸ a.view_other⟩

/-- What `rename` finds at its two paths: an inode with a name that may be taken away, and
a place. -/
structure Ends (t : Tree) (source target : String) (src dst : Place) (id : InodeId) : Prop where
  source_eq : t.locate source = .ok src
  leaf_eq : isSpecialName src.leaf = false
  existing_eq : src.existing = some id
  target_eq : t.locate target = .ok dst

namespace Ends

variable {source target : String} {src dst : Place} {id : InodeId}

theorem liesIn (e : t.Ends source target src dst id) : t.LiesIn id src.parent :=
  liesIn_of_locate e.source_eq e.leaf_eq e.existing_eq

theorem ne_root (h : t.Sound) (e : t.Ends source target src dst id) : id ≠ .root :=
  fun he => h.root_not_liesIn (he ▸ e.liesIn)

end Ends

/-- What `rename` does once it knows what moves where. -/
theorem rename_found (h : t.Sound) {source target : String} {src dst : Place} {id : InodeId}
    (e : t.Ends source target src dst id) (hdx : dst.existing = none)
    (hname : validateName dst.leaf = .ok ()) {u : Tree}
    (hr : reserveEntry dst.parent t = .ok () u)
    (hw : (t.view id).kind = .directory → dst.parent ≠ src.parent →
      t.isWithin id (t.capacity + 1) dst.parent = .ok false) :
    ∃ v, rename source target t = .ok () v
      ∧ ((∃ i, src.parent = dst.parent ∧ Relabeled t v src.parent id src.leaf dst.leaf i)
        ∨ ∃ i, Moved t v src.parent dst.parent id src.leaf dst.leaf i) := by
  obtain ⟨hv, hc, -, -, hk, hroom⟩ := reserveEntry_ok hr
  have hsame : t.Same u := ⟨hv, hc⟩
  have hu : u.Sound := h.of_view_eq hsame
  have hroot := e.ne_root h
  have hin := e.liesIn
  obtain ⟨hs, hsn, hsx, hd⟩ := e
  obtain ⟨i, hfind, hget⟩ := entry_of_locate hs hsx hsn
  have hproper : (⟨src.leaf, id⟩ : Entry).IsProper := isProper_of_not_special hsn
  have hnew := name_new_of_locate hd hdx hk
  obtain ⟨inode, hi, -⟩ := inode_of_kind (h.inUse_of_liesIn hin)
  obtain ⟨hdir, -⟩ := directory_of_inode hi
  by_cases hst : src.parent = dst.parent
  · rw [← hst] at hroom hnew hr
    obtain ⟨v, w, hadd, hrem, hrel⟩ := rename_within hu (by rw [hv]; exact hfind)
      (by rw [hv]; exact hget) hproper (by rw [hv]; exact hroom) hname (by rw [hv]; exact hnew)
    refine ⟨w, ?_, .inl ⟨i, hst, hrel.of_same hsame⟩⟩
    simp [rename, bind_apply, map_apply, hs, hsn, hsx, hroot, hd, hdx, hname, hi, ← hst, hr, hadd,
      hrem]
  · by_cases hkd : (t.view id).kind = .directory
    · have hwalk := hw hkd (Ne.symm hst)
      have haround : Relation.ReflTransGen (u.Avoids id) dst.parent .root :=
        hsame.avoids_eq id ▸ avoids_of_isWithin h hwalk
      obtain ⟨v, w, x, hadd, hrem, hrep, hmov⟩ := rename_directory hu (by rw [hv]; exact hfind)
        (by rw [hv]; exact hget) hproper (by rw [hv]; exact hk) (by rw [hv]; exact hroom) hname
        (by rw [hv]; exact hnew) hst (by rw [hv]; exact hkd) haround
      refine ⟨x, ?_, .inr ⟨i, hmov.of_same hsame⟩⟩
      simp [rename, bind_apply, hs, hsn, hsx, hroot, hd, hdx, hname, hi, hdir, hkd,
        Ne.symm hst, hwalk, hr, hadd, hrem, hrep]
    · obtain ⟨v, w, hadd, hrem, hmov⟩ := rename_file hu (by rw [hv]; exact hfind)
        (by rw [hv]; exact hget) hproper (by rw [hv]; exact hk) (by rw [hv]; exact hroom) hname
        (by rw [hv]; exact hnew) hst (by rw [hv]; exact hkd)
      refine ⟨w, ?_, .inr ⟨i, hmov.of_same hsame⟩⟩
      simp [rename, bind_apply, map_apply, hs, hsn, hsx, hroot, hd, hdx, hname, hi, hdir, hkd, hr,
        hadd, hrem]

theorem ne_of_isWithin {dir id : InodeId} {steps : Nat}
    (h : t.isWithin id (steps + 1) dir = .ok false) : dir ≠ id := by
  intro he
  rw [isWithin, if_pos he] at h
  cases h

/-- `rename` comes as far as its first change. -/
structure Passes (t : Tree) (source target : String) (src dst : Place) (id : InodeId) : Prop
    extends t.Ends source target src dst id where
  ne_root : id ≠ .root
  target_new : dst.existing = none
  name_valid : validateName dst.leaf = .ok ()
  in_use : (t.view id).kind ≠ .free
  target_kind : (t.view dst.parent).kind = .directory
  has_room : (t.view dst.parent).entries.length < maxEntries
  outside : (t.view id).kind = .directory → dst.parent ≠ src.parent →
    t.isWithin id (t.capacity + 1) dst.parent = .ok false

/-- What can still stop `rename` is a directory that would come below itself, or one that
is full. -/
theorem rename_room {source target : String} {src dst : Place} {id : InodeId}
    (e : t.Ends source target src dst id) (hroot : id ≠ .root) (hdx : dst.existing = none)
    (hname : validateName dst.leaf = .ok ()) :
    (∃ f, rename source target t = .error f t) ∨ t.Passes source target src dst id := by
  obtain ⟨hs, hsn, hsx, hd⟩ := e
  cases hi : t.inode id with
  | error f =>
    exact .inl ⟨f, by simp [rename, bind_apply, hs, hsn, hsx, hroot, hd, hdx, hname, hi]⟩
  | ok inode =>
    obtain ⟨hdir, -⟩ := directory_of_inode hi
    by_cases hwalk : (t.view id).kind = .directory → dst.parent ≠ src.parent →
        t.isWithin id (t.capacity + 1) dst.parent = .ok false
    · cases hr : reserveEntry dst.parent t with
      | ok _ u =>
        obtain ⟨-, -, -, -, hk, hroom⟩ := reserveEntry_ok hr
        exact .inr ⟨⟨hs, hsn, hsx, hd⟩, hroot, hdx, hname, (view_of_inode hi).2, hk, hroom, hwalk⟩
      | error f u =>
        obtain rfl := atomically_error hr
        refine .inl ⟨f, ?_⟩
        by_cases hc : (u.view id).kind = .directory ∧ dst.parent ≠ src.parent
        · simp [rename, bind_apply, hs, hsn, hsx, hroot, hd, hdx, hname, hi, hdir, hc.1, hc.2,
            hwalk hc.1 hc.2, hr]
        · simp [rename, bind_apply, hs, hsn, hsx, hroot, hd, hdx, hname, hi, hdir, hc, hr]
    · simp only [Classical.not_imp] at hwalk
      obtain ⟨hk, hst, hw⟩ := hwalk
      left
      cases hwithin : t.isWithin id (t.capacity + 1) dst.parent with
      | error f =>
        exact ⟨f, by
          simp [rename, bind_apply, hs, hsn, hsx, hroot, hd, hdx, hname, hi, hdir, hk, hst,
            hwithin]⟩
      | ok within =>
        cases within with
        | false => exact absurd hwithin hw
        | true =>
          exact ⟨.invalidArgument, by
            simp [rename, bind_apply, hs, hsn, hsx, hroot, hd, hdx, hname, hi, hdir, hk, hst,
              hwithin]⟩

/-- Whatever the tree, what `rename` checks comes before what it changes. -/
theorem rename_checks (t : Tree) (source target : String) :
    (∃ f, rename source target t = .error f t)
      ∨ ∃ src dst id, t.Ends source target src dst id
        ∧ ((dst.existing = some id ∧ rename source target t = .ok () t)
          ∨ t.Passes source target src dst id) := by
  cases hs : t.locate source with
  | error f => exact .inl ⟨f, by simp [rename, bind_apply, hs]⟩
  | ok src =>
    cases hsn : isSpecialName src.leaf with
    | true => exact .inl ⟨.invalidArgument, by simp [rename, bind_apply, hs, hsn]⟩
    | false =>
      cases hsx : src.existing with
      | none => exact .inl ⟨.notFound, by simp [rename, bind_apply, hs, hsn, hsx]⟩
      | some id =>
        by_cases hroot : id = .root
        · exact .inl ⟨.invalidArgument, by simp [rename, bind_apply, hs, hsn, hsx, hroot]⟩
        · cases hd : t.locate target with
          | error f => exact .inl ⟨f, by simp [rename, bind_apply, hs, hsn, hsx, hroot, hd]⟩
          | ok dst =>
            have e : t.Ends source target src dst id := ⟨hs, hsn, hsx, hd⟩
            cases hdx : dst.existing with
            | some there =>
              by_cases he : there = id
              · exact .inr ⟨src, dst, id, e, .inl ⟨by rw [hdx, he], by
                  simp [rename, bind_apply, hs, hsn, hsx, hroot, hd, hdx, he]⟩⟩
              · exact .inl ⟨.alreadyExists, by
                  simp [rename, bind_apply, hs, hsn, hsx, hroot, hd, hdx, he]⟩
            | none =>
              cases hname : validateName dst.leaf with
              | error f =>
                exact .inl ⟨f, by simp [rename, bind_apply, hs, hsn, hsx, hroot, hd, hdx, hname]⟩
              | ok _ =>
                refine (rename_room e hroot hdx hname).imp_right fun p => ?_
                exact ⟨src, dst, id, e, .inr p⟩

/-- A name moves as a whole or not at all. -/
theorem rename_cases (h : t.Sound) (source target : String) :
    (∃ f, rename source target t = .error f t)
      ∨ ∃ src dst id, t.Ends source target src dst id
        ∧ ((dst.existing = some id ∧ rename source target t = .ok () t)
          ∨ (dst.existing = none ∧ validateName dst.leaf = .ok () ∧ ∃ u v,
            rename source target t = .ok () v ∧ reserveEntry dst.parent t = .ok () u
            ∧ ((∃ i, src.parent = dst.parent ∧ Relabeled t v src.parent id src.leaf dst.leaf i)
              ∨ ∃ i, Moved t v src.parent dst.parent id src.leaf dst.leaf i))) := by
  refine (rename_checks t source target).imp_right fun ⟨src, dst, id, e, hcase⟩ =>
    ⟨src, dst, id, e, hcase.imp_right fun p => ?_⟩
  obtain ⟨u, hr⟩ := reserveEntry_isOk p.target_kind p.has_room
  obtain ⟨v, hv, hmoved⟩ := rename_found h e p.target_new p.name_valid hr p.outside
  exact ⟨p.target_new, p.name_valid, u, v, hv, hr, hmoved⟩

end Tree

end SectorFs

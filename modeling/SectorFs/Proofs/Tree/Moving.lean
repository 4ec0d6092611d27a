import SectorFs.Proofs.Tree.Namespace

/-!
# Moving a subtree

What `rename` needs and all that it changes (`rename_of_calls`).  However it edits the
entries of the two directories, it changes two lookups of names that lead down and no other:
the old name is gone, and the new one is there (`Tree.Shifted`).  This is all that paths can
tell.  With `S` the path that the inode had and `D` the path that it gets, `D/r` now leads
where `S/r` led (`Shifted.resolve_target`), `S/r` leads nowhere (`Shifted.resolve_source`),
and every other path leads where it did (`Shifted.resolve_other`).  The three are apart
because `D` does not begin with `S`: the new directory is not within what moves.
-/

namespace SectorFs

open Attempt

namespace Tree

open Relation

variable {t u : Tree} {source target id : InodeId} {old new : String}

/-! ### Two lookups -/

/-- `u` looks names up as `t` does, but that `id` is found as `new` in `target` and no longer
as `old` in `source`. -/
structure Shifted (t u : Tree) (source target id : InodeId) (old new : String) : Prop where
  old_proper : old ≠ "." ∧ old ≠ ".."
  lookup_source : t.lookup source old = .ok id
  lookup_target : t.lookup target new = .error .notFound
  lookup_old : u.lookup source old = .error .notFound
  lookup_new : u.lookup target new = .ok id
  lookup_other : ∀ dir name, name ≠ "." ∧ name ≠ ".." → ¬(dir = source ∧ name = old) →
    ¬(dir = target ∧ name = new) → u.lookup dir name = t.lookup dir name
  outside : ¬ReflTransGen t.LiesIn target id

namespace Shifted

variable {above before names : List String}

theorem isPathTo (m : Shifted t u source target id old new) (hp : t.IsPathTo above source) :
    t.IsPathTo (above ++ [old]) id :=
  isPathTo_concat_iff.mpr ⟨source, hp, m.old_proper, m.lookup_source⟩

/-- Neither changed lookup is made on a path that does not come to the inode, -/
theorem follow_path (h : t.Sound) (m : Shifted t u source target id old new)
    (hp : t.IsPathTo above source) {dir : InodeId} (hq : t.IsPathTo before dir)
    (hoff : ¬above ++ [old] <+: before) : u.follow .root before = .ok dir := by
  rw [← hq.follow_eq]
  refine follow_congr fun pre name mid hpre hmid => ?_
  obtain ⟨next, hnext⟩ := hq.of_prefix hpre
  obtain ⟨mid', hmid', hname, hl⟩ := isPathTo_concat_iff.mp hnext
  obtain rfl : mid' = mid := Except.ok.inj (hmid'.follow_eq.symm.trans hmid)
  refine m.lookup_other _ _ hname ?_ ?_
  · rintro ⟨rfl, rfl⟩
    rw [h.path_unique hmid' hp] at hpre
    exact hoff hpre
  · rintro ⟨rfl, rfl⟩
    rw [m.lookup_target] at hl
    cases hl

theorem follow_source (h : t.Sound) (m : Shifted t u source target id old new)
    (hp : t.IsPathTo above source) : u.follow .root above = .ok source :=
  m.follow_path h hp hp fun hpre => absurd hpre.length_le (by simp)

theorem follow_target (h : t.Sound) (m : Shifted t u source target id old new)
    (hp : t.IsPathTo above source) (hq : t.IsPathTo before target) :
    u.follow .root before = .ok target :=
  m.follow_path h hp hq fun hpre => m.outside (h.below_of_prefix (m.isPathTo hp) hq hpre)

/-- nor below it. -/
theorem follow_moved (h : t.Sound) (m : Shifted t u source target id old new)
    (hn : Path.Plain names) : u.follow id names = t.follow id names := by
  refine follow_congr fun pre name mid hpre hmid => ?_
  have hbelow := h.below_of_follow
    (fun n hm => hn n (hpre.subset (List.mem_append_left _ hm))) hmid
  refine m.lookup_other _ _ (hn name (hpre.subset (by simp))) ?_ ?_
  · rintro ⟨rfl, -⟩
    exact h.not_below (h.liesIn_of_lookup m.old_proper m.lookup_source) hbelow
  · rintro ⟨rfl, -⟩
    exact m.outside hbelow

/-- Paths by the new name lead where paths by the old name led. -/
theorem resolve_target (h : t.Sound) (m : Shifted t u source target id old new)
    (hp : t.IsPathTo above source) (hq : t.IsPathTo before target) {path : String}
    (habs : Path.isAbsolute path = true) (hplain : Path.Plain (Path.components path))
    (hpath : Path.components path = before ++ [new] ++ names) :
    u.resolve path = t.follow .root (above ++ [old] ++ names) := by
  have hu : u.follow .root (before ++ [new]) = .ok id :=
    follow_concat_eq_ok_iff.mpr ⟨target, m.follow_target h hp hq, m.lookup_new⟩
  have hnames : Path.Plain names := fun n hn =>
    hplain n (hpath ▸ List.mem_append_right _ hn)
  rw [resolve_of_absolute _ habs, hpath, follow_of_append hu,
    follow_of_append (m.isPathTo hp).follow_eq, m.follow_moved h hnames]

/-- Paths by the old name lead nowhere. -/
theorem resolve_source (h : t.Sound) (m : Shifted t u source target id old new)
    (hp : t.IsPathTo above source) {path : String} (habs : Path.isAbsolute path = true)
    (hpath : Path.components path = above ++ [old] ++ names) :
    u.resolve path = .error .notFound := by
  rw [resolve_of_absolute _ habs, hpath, List.append_assoc,
    follow_of_append (m.follow_source h hp), List.singleton_append, follow, m.lookup_old]
  rfl

/-- A path that goes by neither name leads where it led. -/
theorem resolve_other (h : t.Sound) (m : Shifted t u source target id old new)
    (hp : t.IsPathTo above source) (hq : t.IsPathTo before target) {path : String}
    (habs : Path.isAbsolute path = true) (hplain : Path.Plain (Path.components path))
    (hold : ¬above ++ [old] <+: Path.components path)
    (hnew : ¬before ++ [new] <+: Path.components path) : u.resolve path = t.resolve path := by
  refine resolve_congr habs hplain fun pre name mid hpre hmid hname => ?_
  refine m.lookup_other _ _ hname ?_ ?_
  · rintro ⟨rfl, rfl⟩
    rw [h.path_unique hmid hp] at hpre
    exact hold hpre
  · rintro ⟨rfl, rfl⟩
    rw [h.path_unique hmid hq] at hpre
    exact hnew hpre

theorem lookup_up (hu : u.Sound) (m : Shifted t u source target id old new)
    (hn : new ≠ "." ∧ new ≠ "..") (hk : (u.view id).kind = .directory) :
    u.lookup id ".." = .ok target :=
  hu.lookup_up hk (hu.liesIn_of_lookup hn m.lookup_new)

end Shifted

/-- A name that comes once to a list of other names, in exchange for another one. -/
theorem not_mem_of_exchange {es es' : List Entry}
    (hperm : ((⟨old, id⟩ : Entry) :: es').Perm es) (hnodup : (es.map Entry.name).Nodup)
    (x : InodeId) : (⟨old, x⟩ : Entry) ∉ es' := by
  intro hx
  have hcons := (hperm.map Entry.name).nodup_iff.mpr hnodup
  exact (List.nodup_cons.mp hcons).1 (List.mem_map.mpr ⟨_, hx, rfl⟩)

theorem lookup_of_directory {dir : InodeId} {name : String}
    (hk : (t.view dir).kind = .directory) (hm : ∀ x, (⟨name, x⟩ : Entry) ∉ (t.view dir).entries) :
    t.lookup dir name = .error .notFound := by
  rw [lookup_of_not_mem hm, if_neg (by rw [hk]; decide)]

theorem Relabeled.shifted {i : Nat} (h : t.Sound) (a : Relabeled t u source id old new i) :
    Shifted t u source source id old new := by
  have hu := h.relabel a
  have hk := kind_of_liesIn a.liesIn_parent
  have hnodup : (((⟨new, id⟩ : Entry) :: (t.view source).entries).map Entry.name).Nodup := by
    refine List.nodup_cons.mpr ⟨fun hm => ?_, h.names_nodup source⟩
    obtain ⟨e, he, hn⟩ := List.mem_map.mp hm
    exact a.name_new e he hn
  refine ⟨a.proper, h.lookup_eq_ok_iff.mpr (List.mem_of_getElem? a.entry_eq),
    lookup_of_directory hk fun x hx => a.name_new _ hx rfl,
    lookup_of_directory ((a.kind_eq source).trans hk) (not_mem_of_exchange a.perm_entries hnodup),
    hu.lookup_eq_ok_iff.mpr ?_, fun dir name hn hold hnew => ?_, h.not_below a.liesIn_parent⟩
  · rw [a.view_parent]
    exact List.mem_set (List.getElem?_eq_some_iff.mp a.entry_eq).1 _
  · refine h.lookup_congr hu (a.kind_eq dir) fun x => ?_
    by_cases hd : dir = source
    · subst hd
      have hperm := a.perm_entries.mem_iff (a := ⟨name, x⟩)
      have h1 : name ≠ old := fun hn => hold ⟨rfl, hn⟩
      have h2 : name ≠ new := fun hn => hnew ⟨rfl, hn⟩
      simpa [h1, h2] using hperm
    · rw [a.view_other hd]

/-- The way up from the new directory goes around what moves. -/
theorem Moved.outside {i : Nat} (h : t.Sound) (a : Moved t u source target id old new i) :
    ¬ReflTransGen t.LiesIn target id := by
  have hroot := a.ne_root h
  have haround := a.around
  clear a
  induction haround using ReflTransGen.head_induction_on with
  | refl => exact fun hb => hroot (h.below_root_iff.mp hb).symm
  | head hcd _ ih => exact fun hb => ((h.below_iff hcd.1).mp hb).elim hcd.2 ih

theorem Moved.shifted {i : Nat} (h : t.Sound) (a : Moved t u source target id old new i) :
    Shifted t u source target id old new := by
  have hu := h.move a
  refine ⟨a.proper, h.lookup_eq_ok_iff.mpr (List.mem_of_getElem? a.entry_eq),
    lookup_of_directory a.target_kind fun x hx => a.name_new _ hx rfl,
    lookup_of_directory ((a.kind_eq source).trans a.source_kind)
      (not_mem_of_exchange a.perm_source.symm (h.names_nodup source)),
    hu.lookup_eq_ok_iff.mpr ?_, fun dir name hn hold hnew => ?_, a.outside h⟩
  · rw [a.view_target]
    exact List.mem_append_right _ (List.mem_singleton_self _)
  · refine h.lookup_congr hu (a.kind_eq dir) fun x => ?_
    by_cases hs : dir = source
    · subst hs
      have hperm := a.perm_source.mem_iff (a := ⟨name, x⟩)
      have h1 : name ≠ old := fun hn => hold ⟨rfl, hn⟩
      simpa [h1] using hperm.symm
    · by_cases ht : dir = target
      · subst ht
        have h2 : name ≠ new := fun hn => hnew ⟨rfl, hn⟩
        rw [a.view_target]
        show _ ∈ (t.view dir).entries ++ [⟨new, id⟩] ↔ _
        simp [h2]
      · by_cases hi : dir = id
        · subst hi
          by_cases hk : (t.view dir).kind = .directory
          · obtain ⟨below, hl, hb⟩ := a.entries_moved h hk
            rw [hb, hl.entries_eq]
            simp [hn.1, hn.2]
          · rw [a.view_moved, if_neg hk]
        · rw [a.view_other dir hs ht hi]

/-! ### Renaming -/

/-- What `rename` moves can be put at its other path: nothing is there yet, the name is
valid, the directory is not within what moves, and it has room for one more entry. -/
structure Movable (t : Tree) (dst : Place) (id : InodeId) : Prop where
  existing_eq : dst.existing = none
  name_valid : validateName dst.leaf = .ok ()
  outside : ¬ReflTransGen t.LiesIn dst.parent id
  has_room : (t.view dst.parent).entries.length < maxEntries

/-- `u` is `t` with an inode, and all that lies below it, moved from one place to another. -/
structure Renamed (t u : Tree) (src dst : Place) (id : InodeId) : Prop where
  resolve_eq : ∃ above before, t.IsPathTo above src.parent ∧ t.IsPathTo before dst.parent
    ∧ ∀ path, Path.isAbsolute path = true → Path.Plain (Path.components path) →
      (∀ names, Path.components path = before ++ [dst.leaf] ++ names →
        u.resolve path = t.follow .root (above ++ [src.leaf] ++ names))
      ∧ (∀ names, Path.components path = above ++ [src.leaf] ++ names →
        u.resolve path = .error .notFound)
      ∧ (¬above ++ [src.leaf] <+: Path.components path →
        ¬before ++ [dst.leaf] <+: Path.components path → u.resolve path = t.resolve path)
  kind_eq : ∀ x, (u.view x).kind = (t.view x).kind
  file_eq : ∀ x, (t.view x).kind = .file → u.view x = t.view x
  /-- A directory leads up to where it now lies, and counts there. -/
  up_eq : (t.view id).kind = .directory → u.lookup id ".." = .ok dst.parent
  links_eq : ∀ x, (u.view x).links.toNat
      + (if (t.view id).kind = .directory ∧ x = src.parent then 1 else 0)
    = (t.view x).links.toNat + if (t.view id).kind = .directory ∧ x = dst.parent then 1 else 0
  view_other : ∀ x, x ≠ src.parent → x ≠ dst.parent → x ≠ id → u.view x = t.view x
  cwd_eq : u.cwd = t.cwd

theorem Shifted.renamed {src dst : Place} (h : t.Sound) (hu : u.Sound)
    (m : Shifted t u src.parent dst.parent id src.leaf dst.leaf)
    (hn : dst.leaf ≠ "." ∧ dst.leaf ≠ "..")
    (hsource : (t.view src.parent).kind = .directory)
    (htarget : (t.view dst.parent).kind = .directory)
    (hkind : ∀ x, (u.view x).kind = (t.view x).kind)
    (hmoved : (t.view id).kind = .file → u.view id = t.view id)
    (hlinks : ∀ x, (u.view x).links.toNat
        + (if (t.view id).kind = .directory ∧ x = src.parent then 1 else 0)
      = (t.view x).links.toNat + if (t.view id).kind = .directory ∧ x = dst.parent then 1 else 0)
    (hother : ∀ x, x ≠ src.parent → x ≠ dst.parent → x ≠ id → u.view x = t.view x)
    (hcwd : u.cwd = t.cwd) : Renamed t u src dst id := by
  obtain ⟨above, hp⟩ := h.exists_path (hsource.trans_ne (by decide))
  obtain ⟨before, hq⟩ := h.exists_path (htarget.trans_ne (by decide))
  refine ⟨⟨above, before, hp, hq, fun path habs hplain => ⟨fun names hpath => ?_,
    fun names hpath => ?_, fun hold hnew => ?_⟩⟩, hkind, fun x hx => ?_,
    fun hk => m.lookup_up hu hn ((hkind id).trans hk), hlinks, hother, hcwd⟩
  · exact m.resolve_target h hp hq habs hplain hpath
  · exact m.resolve_source h hp habs hpath
  · exact m.resolve_other h hp hq habs hplain hold hnew
  · by_cases hi : x = id
    · exact hi ▸ hmoved (hi ▸ hx)
    · refine hother x ?_ ?_ hi
      · rintro rfl
        rw [hsource] at hx
        cases hx
      · rintro rfl
        rw [htarget] at hx
        cases hx

theorem Relabeled.renamed {src dst : Place} {i : Nat} (h : t.Sound)
    (hst : src.parent = dst.parent) (a : Relabeled t u src.parent id src.leaf dst.leaf i) :
    Renamed t u src dst id := by
  have m := a.shifted h
  have hk := kind_of_liesIn a.liesIn_parent
  have hne : id ≠ src.parent := fun he => h.not_liesIn_self (he ▸ a.liesIn_parent)
  rw [hst] at m
  refine Shifted.renamed h (h.relabel a) (hst ▸ m)
    (isProper_of_validateName (e := ⟨dst.leaf, id⟩) a.name_valid) hk (hst ▸ hk) a.kind_eq
    (fun _ => a.view_other hne) (fun x => ?_) (fun x hx _ _ => a.view_other hx) a.cwd_eq
  rw [a.links_same, hst]

theorem Moved.renamed {src dst : Place} {i : Nat} (h : t.Sound)
    (a : Moved t u src.parent dst.parent id src.leaf dst.leaf i) : Renamed t u src dst id := by
  refine Shifted.renamed h (h.move a) (a.shifted h)
    (isProper_of_validateName (e := ⟨dst.leaf, id⟩) a.name_valid) a.source_kind a.target_kind
    a.kind_eq (fun hk => ?_) (fun x => ?_) a.view_other a.cwd_eq
  · rw [a.view_moved, if_neg (by rw [hk]; decide)]
  · have hst := a.source_ne
    by_cases hs : x = src.parent
    · subst hs
      rw [a.view_source]
      by_cases hk : (t.view id).kind = .directory
      · have h1 := h.two_le_links_of_parent a.liesIn_source hk
        have h2 := (t.view src.parent).toNat_unlink
        simp [hk, hst]
        omega
      · simp [hk]
    · by_cases ht : x = dst.parent
      · subst ht
        rw [a.view_target]
        by_cases hk : (t.view id).kind = .directory
        · have h1 := InodeView.toNat_link (h.links_lt dst.parent)
          simp [hk, hst.symm]
          omega
        · simp [hk]
      · by_cases hi : x = id
        · subst hi
          rw [a.view_moved]
          split <;> simp [hs, ht]
        · rw [a.view_other x hs ht hi]
          simp [hs, ht]

/-- Whatever calls a tree comes from: `rename` changes nothing where both paths lead to one
inode, moves what can be moved, and fails without a trace on all other paths. -/
theorem rename_of_calls (calls : List Call) (source target : String) :
    let t := run calls .empty
    (∀ src dst id, t.Ends source target src dst id → dst.existing = some id →
        rename source target t = .ok () t)
      ∧ (∀ src dst id, t.Ends source target src dst id → t.Movable dst id →
        ∃ u, rename source target t = .ok () u ∧ Renamed t u src dst id)
      ∧ ((¬∃ src dst id, t.Ends source target src dst id
          ∧ (dst.existing = some id ∨ t.Movable dst id)) →
        ∃ f, rename source target t = .error f t) := by
  intro t
  have h : t.Sound := (sound_blank ..).calls calls
  refine ⟨fun src dst id e hx => ?_, fun src dst id e hm => ?_, fun hnone => ?_⟩
  · have hroot := e.ne_root h
    simp [rename, bind_apply, e.source_eq, e.leaf_eq, e.existing_eq, e.target_eq, hx, hroot]
  · obtain ⟨hdx, hname, hout, hroom⟩ := hm
    have hk := h.parent_kind_of_locate e.target_eq hdx
    obtain ⟨t₁, hr⟩ := reserveEntry_isOk hk hroom
    obtain ⟨b, hb, hwithin⟩ := h.isWithin_capacity id hk
    cases b with
    | true => exact absurd (hwithin.mp rfl) hout
    | false =>
      obtain ⟨u, hu, ⟨i, hst, hrel⟩ | ⟨i, hmov⟩⟩ :=
        rename_found h e hdx hname hr fun _ _ => hb
      · exact ⟨u, hu, hrel.renamed h hst⟩
      · exact ⟨u, hu, hmov.renamed h⟩
  · rcases rename_cases h source target with
      hf | ⟨src, dst, id, e, ⟨hx, -⟩ | ⟨hdx, hname, t₁, u, -, hr, hcase⟩⟩
    · exact hf
    · exact absurd ⟨src, dst, id, e, .inl hx⟩ hnone
    · obtain ⟨-, -, -, -, -, hroom⟩ := reserveEntry_ok hr
      refine absurd ⟨src, dst, id, e, .inr ⟨hdx, hname, ?_, hroom⟩⟩ hnone
      rcases hcase with ⟨i, hst, hrel⟩ | ⟨i, hmov⟩
      · exact hst ▸ h.not_below hrel.liesIn_parent
      · exact hmov.outside h

/-- A directory with a file in it is given its own name, moves below another directory, and
does not move below itself. -/
theorem rename_of_calls_directory :
    let t := run [.mkdir "/a", .mkdir "/b", .create "/a/f"] .empty
    rename "/a" "/a" t = .ok () t
      ∧ (∃ u, rename "/a" "/b/c" t = .ok () u
        ∧ Renamed t u ⟨.root, "a", some ⟨1⟩⟩ ⟨⟨2⟩, "c", none⟩ ⟨1⟩)
      ∧ ∃ f, rename "/a" "/a/d" t = .error f t := by
  intro t
  have h : t.Sound := (sound_blank ..).calls _
  have ha : t.locate "/a" = .ok ⟨.root, "a", some ⟨1⟩⟩ := by decide +kernel
  have hc : t.locate "/b/c" = .ok ⟨⟨2⟩, "c", none⟩ := by decide +kernel
  have hd : t.locate "/a/d" = .ok ⟨⟨1⟩, "d", none⟩ := by decide +kernel
  have hout : ¬ReflTransGen t.LiesIn ⟨2⟩ ⟨1⟩ := by
    have hk : (t.view ⟨2⟩).kind = .directory := by decide +kernel
    have hwalk : t.isWithin ⟨1⟩ (t.capacity + 1) ⟨2⟩ = .ok false := by decide +kernel
    obtain ⟨b, hb, hiff⟩ := h.isWithin_capacity ⟨1⟩ hk
    obtain rfl : b = false := Except.ok.inj (hb.symm.trans hwalk)
    exact fun hw => nomatch hiff.mpr hw
  refine ⟨(rename_of_calls _ "/a" "/a").1 _ _ _ ⟨ha, by decide, rfl, ha⟩ rfl,
    (rename_of_calls _ "/a" "/b/c").2.1 _ _ _ ⟨ha, by decide, rfl, hc⟩
      ⟨rfl, by decide, hout, by decide +kernel⟩,
    (rename_of_calls _ "/a" "/a/d").2.2 ?_⟩
  rintro ⟨src, dst, id, ⟨hs, -, hx, ht⟩, hcase⟩
  obtain rfl := Except.ok.inj (ha.symm.trans hs)
  obtain rfl := Except.ok.inj (hd.symm.trans ht)
  obtain rfl := Option.some.inj hx
  rcases hcase with hsame | hmov
  · cases hsame
  · exact hmov.outside .refl

end Tree

end SectorFs

import SectorFs.Proofs.Tree.Sound
import SectorFs.Tree.Edit

/-!
# Edits that keep a tree sound

Four changes of the view of a tree, each as a whole: a new inode gets a name
(`Sound.attach`), an inode loses its name and is freed (`Sound.detach`), a name is
replaced in the directory it is in (`Sound.relabel`), and a name moves to another
directory (`Sound.move`).  Each keeps soundness, and so does what changes neither names
nor kinds nor links (`Sound.of_same`).

Moving is where a loop could arise.  It does not when the way up from the new directory
to the root goes around the inode that moves; this way is the hypothesis of
`Sound.move`, and the walk along `..` that an edit makes beforehand finds it
(`avoids_of_isWithin`).
-/

namespace SectorFs

/-- What a new inode looks like once an entry names it. -/
def NewContent.view (self parent : InodeId) : NewContent → InodeView
  | .file bytes => ⟨1, .file bytes.items.toList⟩
  | .directory => ⟨2, .directory [⟨".", self⟩, ⟨"..", parent⟩]⟩

/-- Links that the directory above gets from a new inode. -/
def NewContent.linksUp : NewContent → UInt32
  | .file _ => 0
  | .directory => 1

namespace Tree

open Relation

variable {t u : Tree}

/-! ### The entries of one directory -/

namespace Lists

variable {dir up : InodeId} {below : List Entry}

theorem keep (hl : t.Lists dir up below) (hu : (u.view dir).entries = (t.view dir).entries)
    (hup : (u.view up).kind = .directory) (hin : dir ≠ .root → u.LiesIn dir up) :
    u.Lists dir up below :=
  ⟨hu.trans hl.entries_eq, hup, hl.of_root, hin, hl.names_nodup, hl.names_valid⟩

theorem append {e : Entry} (hl : t.Lists dir up below)
    (hu : (u.view dir).entries = (t.view dir).entries ++ [e])
    (hup : (u.view up).kind = .directory) (hin : dir ≠ .root → u.LiesIn dir up)
    (hvalid : validateName e.name = .ok ())
    (hnew : ∀ e' ∈ (t.view dir).entries, e'.name ≠ e.name) : u.Lists dir up (below ++ [e]) := by
  refine ⟨?_, hup, hl.of_root, hin, ?_, ?_⟩
  · rw [hu, hl.entries_eq]
    rfl
  · rw [List.map_append, List.nodup_append]
    refine ⟨hl.names_nodup, List.nodup_singleton _, ?_⟩
    rintro a ha b hb rfl
    obtain ⟨e', he, rfl⟩ := List.mem_map.mp ha
    exact hnew e' (hl.mem_entries he) (List.mem_singleton.mp hb)
  · intro e' he
    rcases List.mem_append.mp he with he | he
    · exact hl.names_valid e' he
    · rw [List.mem_singleton.mp he]
      exact hvalid

theorem takeOut {i : Nat} {e : Entry} (hl : t.Lists dir up below)
    (hi : (t.view dir).entries[i]? = some e) (hp : e.IsProper)
    (hu : (u.view dir).entries = SectorFs.takeOut (t.view dir).entries i)
    (hup : (u.view up).kind = .directory) (hin : dir ≠ .root → u.LiesIn dir up) :
    ∃ rest, u.Lists dir up rest := by
  obtain ⟨j, rfl, hj⟩ := hl.index_of_isProper hi hp
  have hlt := (List.getElem?_eq_some_iff.mp hj).1
  have hperm := perm_takeOut hj
  refine ⟨SectorFs.takeOut below j, ?_, hup, hl.of_root, hin, ?_, ?_⟩
  · rw [hu, hl.entries_eq, takeOut_cons (Nat.succ_lt_succ hlt), takeOut_cons hlt]
  · exact (List.nodup_cons.mp ((hperm.map Entry.name).nodup_iff.mp hl.names_nodup)).2
  · exact fun e' he => hl.names_valid e' (hperm.mem_iff.mpr (List.mem_cons_of_mem _ he))

theorem replace {i : Nat} {e : Entry} (hl : t.Lists dir up below) (e' : Entry)
    (hi : (t.view dir).entries[i]? = some e) (hp : e.IsProper)
    (hu : (u.view dir).entries = (t.view dir).entries.set i e')
    (hup : (u.view up).kind = .directory) (hin : dir ≠ .root → u.LiesIn dir up)
    (hvalid : validateName e'.name = .ok ())
    (hnew : ∀ x ∈ (t.view dir).entries, x.name ≠ e'.name) : ∃ rest, u.Lists dir up rest := by
  obtain ⟨j, rfl, hj⟩ := hl.index_of_isProper hi hp
  have hperm := perm_set hj e'
  have hnames : ((e' :: below).map Entry.name).Nodup := by
    refine List.nodup_cons.mpr ⟨fun hm => ?_, hl.names_nodup⟩
    obtain ⟨x, hx, hn⟩ := List.mem_map.mp hm
    exact hnew x (hl.mem_entries hx) hn
  refine ⟨below.set j e', ?_, hup, hl.of_root, hin, ?_, ?_⟩
  · rw [hu, hl.entries_eq]
    rfl
  · exact (List.nodup_cons.mp ((hperm.map Entry.name).nodup_iff.mpr hnames)).2
  · intro x hx
    rcases List.mem_cons.mp (hperm.mem_iff.mp (List.mem_cons_of_mem _ hx)) with rfl | hx
    · exact hvalid
    · exact hl.names_valid x hx

end Lists

/-! ### Nothing to see in the names -/

/-- The bytes of files, and the directory that paths start from, are nothing to the
names. -/
theorem Sound.of_same (h : t.Sound) (hcwd : (t.view u.cwd).kind = .directory)
    (hlinks : ∀ id, (u.view id).links = (t.view id).links)
    (hkind : ∀ id, (u.view id).kind = (t.view id).kind)
    (hentries : ∀ id, (u.view id).entries = (t.view id).entries) : u.Sound := by
  have hcount : ∀ p, countEntries u.view p = countEntries t.view p := fun p =>
    congrArg overSlots (funext fun id => by rw [hentries])
  have hlies : u.LiesIn = t.LiesIn := by
    funext c d
    rw [LiesIn, hentries]
    rfl
  refine Sound.of_lists ?_ ?_ ?_ ?_ ?_ ?_ ?_
  · rw [hkind, hcwd]
  · rw [hkind, h.root_kind]
  · intro dir hk
    obtain ⟨parent, below, hp⟩ := h.lists (hkind dir ▸ hk)
    refine ⟨parent, below, hp.keep (hentries dir) ((hkind parent).trans hp.parent_kind) ?_⟩
    rw [hlies]
    exact hp.liesIn
  · intro dir e he
    rw [hkind]
    exact h.named_kind dir e (hentries dir ▸ he)
  · intro id
    rw [hcount, hlinks, h.links_eq_timesNamed, timesNamed_eq]
  · intro id
    rw [hcount, hkind, ← h.timesOwned_eq_ite, timesOwned_eq]
  · intro id hk
    rw [hlies]
    exact h.reaches_root id (hkind id ▸ hk)

/-! ### A new name -/

/-- `u` is `t` with a new inode `id` named in `parent`. -/
structure Attached (t u : Tree) (parent id : InodeId) (name : String) (content : NewContent) :
    Prop where
  parent_kind : (t.view parent).kind = .directory
  was_free : (t.view id).kind = .free
  index_lt : id.index < maxSlots
  name_valid : validateName name = .ok ()
  name_new : ∀ e ∈ (t.view parent).entries, e.name ≠ name
  cwd_eq : u.cwd = t.cwd
  view_eq : u.view = Function.update (Function.update t.view id (content.view id parent)) parent
    ⟨(t.view parent).links + content.linksUp,
      .directory ((t.view parent).entries ++ [⟨name, id⟩])⟩

namespace Attached

variable {parent id : InodeId} {name : String} {content : NewContent}

theorem parent_ne (a : Attached t u parent id name content) : parent ≠ id := by
  rintro rfl
  have := a.was_free
  rw [a.parent_kind] at this
  cases this

theorem view_parent (a : Attached t u parent id name content) :
    u.view parent = ⟨(t.view parent).links + content.linksUp,
      .directory ((t.view parent).entries ++ [⟨name, id⟩])⟩ := by
  rw [a.view_eq, Function.update_self]

theorem view_new (a : Attached t u parent id name content) :
    u.view id = content.view id parent := by
  rw [a.view_eq, Function.update_of_ne a.parent_ne.symm, Function.update_self]

theorem view_other (a : Attached t u parent id name content) {x : InodeId} (hp : x ≠ parent)
    (hi : x ≠ id) : u.view x = t.view x := by
  rw [a.view_eq, Function.update_of_ne hp, Function.update_of_ne hi]

theorem new_in_use (a : Attached t u parent id name content) : (u.view id).kind ≠ .free := by
  rw [a.view_new]
  cases content <;> exact Kind.noConfusion

theorem kind_eq (a : Attached t u parent id name content) {x : InodeId} (hx : x ≠ id) :
    (u.view x).kind = (t.view x).kind := by
  by_cases hp : x = parent
  · rw [hp, a.view_parent, a.parent_kind]
    rfl
  · rw [a.view_other hp hx]

theorem kind_keep (a : Attached t u parent id name content) {x : InodeId}
    (hx : (t.view x).kind ≠ .free) : (u.view x).kind = (t.view x).kind :=
  a.kind_eq fun he => hx (he ▸ a.was_free)

theorem entries_keep (a : Attached t u parent id name content) {d : InodeId} {e : Entry}
    (he : e ∈ (t.view d).entries) : e ∈ (u.view d).entries := by
  by_cases hp : d = parent
  · rw [hp, a.view_parent]
    exact List.mem_append_left _ (hp ▸ he)
  · rw [a.view_other hp]
    · exact he
    · rintro rfl
      have := InodeView.kind_of_mem_entries he
      rw [a.was_free] at this
      cases this

theorem liesIn_keep (a : Attached t u parent id name content) {c d : InodeId}
    (h : t.LiesIn c d) : u.LiesIn c d := by
  obtain ⟨e, he, hp⟩ := h
  exact ⟨e, a.entries_keep he, hp⟩

theorem liesIn_parent (a : Attached t u parent id name content) : u.LiesIn id parent := by
  refine ⟨⟨name, id⟩, ?_, isProper_of_validateName a.name_valid, rfl⟩
  rw [a.view_parent]
  exact List.mem_append_right _ (List.mem_singleton_self _)

/-- The entries of the new inode are new, and the one that names it. -/
theorem count_eq (a : Attached t u parent id name content) (q : Entry → Bool) :
    countEntries u.view q = countEntries t.view q + (content.view id parent).entries.countP q
      + [(⟨name, id⟩ : Entry)].countP q := by
  have h1 := countEntries_update t.view a.index_lt (content.view id parent) q
  have h2 := countEntries_update (Function.update t.view id (content.view id parent))
    (index_lt_maxSlots (a.parent_kind.trans_ne (by decide))) (u.view parent) q
  have he : (u.view parent).entries = (t.view parent).entries ++ [⟨name, id⟩] := by
    rw [a.view_parent]
    rfl
  rw [InodeView.entries_of_kind_ne (a.was_free.trans_ne (by decide)), List.countP_nil] at h1
  rw [Function.update_of_ne a.parent_ne, he, List.countP_append] at h2
  rw [a.view_parent, ← a.view_eq] at h2
  omega

theorem lists (h : t.Sound) (a : Attached t u parent id name content) {d : InodeId}
    (hk : (u.view d).kind = .directory) : ∃ up below, u.Lists d up below := by
  by_cases hd : d = id
  · subst hd
    rw [a.view_new] at hk
    cases content with
    | file bytes => cases hk
    | directory =>
      refine ⟨parent, [], ?_, ?_, ?_, fun _ => a.liesIn_parent, List.nodup_nil, ?_⟩
      · rw [a.view_new]
        rfl
      · rw [a.kind_eq a.parent_ne, a.parent_kind]
      · rintro rfl
        exact absurd (a.was_free.symm.trans h.root_kind) (by decide)
      · exact fun e he => absurd he List.not_mem_nil
  · obtain ⟨up, below, hl⟩ := h.lists (a.kind_eq hd ▸ hk)
    have hup := (a.kind_keep (hl.parent_kind.trans_ne (by decide))).trans hl.parent_kind
    have hin : d ≠ .root → u.LiesIn d up := fun hr => a.liesIn_keep (hl.liesIn hr)
    by_cases hp : d = parent
    · subst hp
      refine ⟨up, _, hl.append (e := ⟨name, id⟩) ?_ hup hin a.name_valid a.name_new⟩
      rw [a.view_parent]
      rfl
    · exact ⟨up, below, hl.keep (by rw [a.view_other hp hd]) hup hin⟩

theorem named_kind (h : t.Sound) (a : Attached t u parent id name content) {d : InodeId}
    {e : Entry} (he : e ∈ (u.view d).entries) : (u.view e.inode).kind ≠ .free := by
  have keep : ∀ {x}, (t.view x).kind ≠ .free → (u.view x).kind ≠ .free := fun hx => by
    rwa [a.kind_keep hx]
  by_cases hp : d = parent
  · rw [hp, a.view_parent] at he
    rcases List.mem_append.mp he with he | he
    · exact keep (h.named_kind _ e he)
    · rw [List.mem_singleton.mp he]
      exact a.new_in_use
  · by_cases hd : d = id
    · rw [hd, a.view_new] at he
      cases content with
      | file bytes => exact absurd he List.not_mem_nil
      | directory =>
        rcases List.mem_cons.mp he with rfl | he
        · exact a.new_in_use
        · rw [List.mem_singleton.mp he]
          exact keep (a.parent_kind.trans_ne (by decide))
    · rw [a.view_other hp hd] at he
      exact keep (h.named_kind _ e he)

theorem links_eq (h : t.Sound) (a : Attached t u parent id name content) (x : InodeId) :
    (u.view x).links.toNat = countEntries u.view fun e => e.inode = x := by
  have hx := h.links_eq_timesNamed x
  rw [timesNamed_eq] at hx
  rw [a.count_eq, ← hx]
  by_cases hxi : x = id
  · subst hxi
    rw [a.view_new, h.links_free x a.was_free]
    cases content <;> simp [NewContent.view, InodeView.entries, Payload.entries, a.parent_ne]
  · by_cases hxp : x = parent
    · subst hxp
      have := InodeView.toNat_link (h.links_lt x)
      rw [a.view_parent]
      cases content with
      | file bytes =>
        simp [NewContent.view, NewContent.linksUp, InodeView.entries, Payload.entries,
          Ne.symm hxi]
      | directory =>
        simpa [NewContent.view, NewContent.linksUp, InodeView.entries, Payload.entries,
          Ne.symm hxi, InodeView.link] using this
    · rw [a.view_other hxp hxi]
      cases content <;>
        simp [NewContent.view, InodeView.entries, Payload.entries, Ne.symm hxi, Ne.symm hxp]

theorem owned_eq (h : t.Sound) (a : Attached t u parent id name content) (x : InodeId) :
    (countEntries u.view fun e => e.IsProper ∧ e.inode = x)
      = if (u.view x).kind = .free ∨ x = .root then 0 else 1 := by
  have hx := h.timesOwned_eq_ite x
  have hbare : (content.view id parent).entries.countP (fun e => e.IsProper ∧ e.inode = x)
      = 0 := by
    cases content <;>
      simp [NewContent.view, InodeView.entries, Payload.entries, Entry.IsProper]
  have hproper : (⟨name, id⟩ : Entry).IsProper := isProper_of_validateName a.name_valid
  rw [timesOwned_eq] at hx
  rw [a.count_eq, hx, hbare]
  by_cases hxi : x = id
  · subst hxi
    have hroot : x ≠ .root := fun he =>
      absurd (a.was_free.symm.trans (he ▸ h.root_kind)) (by decide)
    simp [hproper, a.was_free, a.new_in_use, hroot]
  · simp [a.kind_eq hxi, Ne.symm hxi]

end Attached

/-- A new name keeps the names of a tree together. -/
theorem Sound.attach {parent id : InodeId} {name : String} {content : NewContent} (h : t.Sound)
    (a : Attached t u parent id name content) : u.Sound := by
  refine Sound.of_lists ?_ ?_ (fun d hk => a.lists h hk) (fun d e he => a.named_kind h he)
    (a.links_eq h) (a.owned_eq h) ?_
  · rw [a.cwd_eq, a.kind_keep (h.cwd_kind.trans_ne (by decide)), h.cwd_kind]
  · rw [a.kind_keep (h.root_kind.trans_ne (by decide)), h.root_kind]
  · intro x hk
    have up : ∀ {y}, (t.view y).kind ≠ .free → ReflTransGen u.LiesIn y .root := fun hy =>
      ReflTransGen.mono (fun _ _ => a.liesIn_keep) _ _ (h.reaches_root _ hy)
    by_cases hxi : x = id
    · rw [hxi]
      exact .head a.liesIn_parent (up (a.parent_kind.trans_ne (by decide)))
    · exact up (a.kind_eq hxi ▸ hk)

/-! ### A name less -/

/-- `u` is `t` without the inode `id`, which nothing lies in, and without the name at
place `i` of `parent` that it had. -/
structure Detached (t u : Tree) (parent id : InodeId) (name : String) (i : Nat) : Prop where
  entry_eq : (t.view parent).entries[i]? = some ⟨name, id⟩
  proper : (⟨name, id⟩ : Entry).IsProper
  bare : ¬∃ child, t.LiesIn child id
  ne_cwd : id ≠ t.cwd
  cwd_eq : u.cwd = t.cwd
  view_eq : u.view = Function.update (Function.update t.view id .unused) parent
    ⟨if (t.view id).kind = .directory then (t.view parent).unlink.links
      else (t.view parent).links, .directory (takeOut (t.view parent).entries i)⟩

namespace Detached

variable {parent id : InodeId} {name : String} {i : Nat}

theorem liesIn_parent (a : Detached t u parent id name i) : t.LiesIn id parent :=
  ⟨_, List.mem_of_getElem? a.entry_eq, a.proper, rfl⟩

theorem parent_ne (h : t.Sound) (a : Detached t u parent id name i) : parent ≠ id := by
  rintro rfl
  exact h.not_liesIn_self a.liesIn_parent

theorem ne_root (h : t.Sound) (a : Detached t u parent id name i) : id ≠ .root := by
  rintro rfl
  exact h.root_not_liesIn a.liesIn_parent

theorem view_parent (a : Detached t u parent id name i) :
    u.view parent = ⟨if (t.view id).kind = .directory then (t.view parent).unlink.links
      else (t.view parent).links, .directory (takeOut (t.view parent).entries i)⟩ := by
  rw [a.view_eq, Function.update_self]

theorem view_gone (h : t.Sound) (a : Detached t u parent id name i) : u.view id = .unused := by
  rw [a.view_eq, Function.update_of_ne (a.parent_ne h).symm, Function.update_self]

theorem view_other (a : Detached t u parent id name i) {x : InodeId} (hp : x ≠ parent)
    (hi : x ≠ id) : u.view x = t.view x := by
  rw [a.view_eq, Function.update_of_ne hp, Function.update_of_ne hi]

theorem kind_eq (a : Detached t u parent id name i) {x : InodeId} (hx : x ≠ id) :
    (u.view x).kind = (t.view x).kind := by
  by_cases hp : x = parent
  · rw [hp, a.view_parent, kind_of_liesIn a.liesIn_parent]
    rfl
  · rw [a.view_other hp hx]

theorem perm_entries (a : Detached t u parent id name i) :
    (t.view parent).entries.Perm (⟨name, id⟩ :: (u.view parent).entries) := by
  rw [a.view_parent]
  exact perm_takeOut a.entry_eq

theorem liesIn_keep (a : Detached t u parent id name i) {c d : InodeId} (hl : t.LiesIn c d)
    (hc : c ≠ id) : u.LiesIn c d := by
  obtain ⟨e, he, hp, rfl⟩ := hl
  refine ⟨e, ?_, hp, rfl⟩
  by_cases hd : d = parent
  · subst hd
    rcases List.mem_cons.mp (a.perm_entries.mem_iff.mp he) with rfl | he
    · exact absurd rfl hc
    · exact he
  · rw [a.view_other hd]
    · exact he
    · rintro rfl
      exact a.bare ⟨e.inode, e, he, hp, rfl⟩

theorem mem_keep (h : t.Sound) (a : Detached t u parent id name i) {d : InodeId} {e : Entry}
    (he : e ∈ (u.view d).entries) : e ∈ (t.view d).entries := by
  by_cases hp : d = parent
  · subst hp
    exact a.perm_entries.mem_iff.mpr (List.mem_cons_of_mem _ he)
  · by_cases hi : d = id
    · rw [hi, a.view_gone h] at he
      exact absurd he List.not_mem_nil
    · rwa [a.view_other hp hi] at he

/-- The entries of the inode go with it, and the one that named it. -/
theorem count_eq (h : t.Sound) (a : Detached t u parent id name i) (q : Entry → Bool) :
    countEntries u.view q + (t.view id).entries.countP q + [(⟨name, id⟩ : Entry)].countP q
      = countEntries t.view q := by
  have hlt : ∀ {x}, (t.view x).kind ≠ .free → x.index < maxSlots := index_lt_maxSlots
  have h1 := countEntries_update t.view (hlt (h.inUse_of_liesIn a.liesIn_parent)) .unused q
  have h2 := countEntries_update (Function.update t.view id .unused)
    (hlt ((kind_of_liesIn a.liesIn_parent).trans_ne (by decide))) (u.view parent) q
  have hperm := a.perm_entries.countP_eq q
  rw [List.countP_cons] at hperm
  rw [InodeView.entries_unused, List.countP_nil] at h1
  rw [Function.update_of_ne (a.parent_ne h), a.view_parent, ← a.view_eq, ← a.view_parent] at h2
  rw [List.countP_cons, List.countP_nil]
  omega

/-- What the inode itself named, besides the entry that named it. -/
theorem entries_gone (h : t.Sound) (a : Detached t u parent id name i) :
    (t.view id).entries
      = if (t.view id).kind = .directory then [⟨".", id⟩, ⟨"..", parent⟩] else [] := by
  split
  · rename_i hk
    obtain ⟨up, below, hl⟩ := h.lists hk
    have hup : up = parent := h.liesIn_unique (hl.liesIn (a.ne_root h)) a.liesIn_parent
    rw [hl.entries_eq, hl.below_eq_nil_iff.mpr a.bare, hup]
  · rename_i hk
    exact InodeView.entries_of_kind_ne hk

theorem links_eq (h : t.Sound) (a : Detached t u parent id name i) (x : InodeId) :
    (u.view x).links.toNat = countEntries u.view fun e => e.inode = x := by
  have hx := h.links_eq_timesNamed x
  have hc := a.count_eq h fun e => e.inode = x
  rw [timesNamed_eq] at hx
  rw [a.entries_gone h] at hc
  by_cases hxi : x = id
  · subst hxi
    rw [a.view_gone h]
    show 0 = _
    by_cases hk : (t.view x).kind = .directory
    · rw [h.links_of_bare hk (a.ne_root h) a.bare, show (2 : UInt32).toNat = 2 from rfl] at hx
      simp [hk, a.parent_ne h] at hc
      omega
    · have hkf : (t.view x).kind = .file := by
        have := h.inUse_of_liesIn a.liesIn_parent
        cases hv : (t.view x).kind with
        | free => exact absurd hv this
        | file => rfl
        | directory => exact absurd hv hk
      rw [h.links_of_file hkf, show (1 : UInt32).toNat = 1 from rfl] at hx
      simp [hk] at hc
      omega
  · by_cases hxp : x = parent
    · subst hxp
      rw [a.view_parent]
      by_cases hk : (t.view id).kind = .directory
      · have := (t.view x).toNat_unlink
        simp [hk, Ne.symm hxi] at hc ⊢
        omega
      · simp [hk, Ne.symm hxi] at hc ⊢
        omega
    · rw [a.view_other hxp hxi, hx]
      by_cases hk : (t.view id).kind = .directory
      · simpa [hk, Ne.symm hxi, Ne.symm hxp] using hc.symm
      · simpa [hk, Ne.symm hxi] using hc.symm

theorem owned_eq (h : t.Sound) (a : Detached t u parent id name i) (x : InodeId) :
    (countEntries u.view fun e => e.IsProper ∧ e.inode = x)
      = if (u.view x).kind = .free ∨ x = .root then 0 else 1 := by
  have hx := h.timesOwned_eq_ite x
  have hc := a.count_eq h fun e => e.IsProper ∧ e.inode = x
  have hbare : (t.view id).entries.countP (fun e => e.IsProper ∧ e.inode = x) = 0 := by
    rw [a.entries_gone h]
    split <;> simp [Entry.IsProper]
  rw [timesOwned_eq] at hx
  rw [hbare, hx] at hc
  by_cases hxi : x = id
  · subst hxi
    have huse := h.inUse_of_liesIn a.liesIn_parent
    simp [a.proper, huse, a.ne_root h] at hc
    simpa [a.view_gone h] using hc
  · simpa [a.kind_eq hxi, Ne.symm hxi] using hc

theorem inode_ne (h : t.Sound) (a : Detached t u parent id name i) {d : InodeId} {e : Entry}
    (he : e ∈ (u.view d).entries) : e.inode ≠ id := by
  intro hi
  have hz := a.links_eq h id
  rw [a.view_gone h] at hz
  have := countEntries_pos (p := fun e => e.inode = id) he (by simpa using hi)
  rw [← hz] at this
  exact absurd this (Nat.lt_irrefl 0)

theorem lists (h : t.Sound) (a : Detached t u parent id name i) {d : InodeId}
    (hk : (u.view d).kind = .directory) : ∃ up below, u.Lists d up below := by
  have hd : d ≠ id := by
    rintro rfl
    rw [a.view_gone h] at hk
    cases hk
  obtain ⟨up, below, hl⟩ := h.lists (a.kind_eq hd ▸ hk)
  have hup : (u.view up).kind = .directory := by
    rw [a.kind_eq, hl.parent_kind]
    rintro rfl
    by_cases hr : d = .root
    · exact a.ne_root h (hl.of_root hr)
    · exact a.bare ⟨d, hl.liesIn hr⟩
  have hin : d ≠ .root → u.LiesIn d up := fun hr => a.liesIn_keep (hl.liesIn hr) hd
  by_cases hp : d = parent
  · subst hp
    refine ⟨up, hl.takeOut a.entry_eq a.proper ?_ hup hin⟩
    rw [a.view_parent]
    rfl
  · exact ⟨up, below, hl.keep (by rw [a.view_other hp hd]) hup hin⟩

end Detached

/-- A name less keeps the names of a tree together. -/
theorem Sound.detach {parent id : InodeId} {name : String} {i : Nat} (h : t.Sound)
    (a : Detached t u parent id name i) : u.Sound := by
  refine Sound.of_lists ?_ ?_ (fun d hk => a.lists h hk) ?_ (a.links_eq h) (a.owned_eq h) ?_
  · rw [a.cwd_eq, a.kind_eq a.ne_cwd.symm, h.cwd_kind]
  · rw [a.kind_eq (a.ne_root h).symm, h.root_kind]
  · intro d e he
    rw [a.kind_eq (a.inode_ne h he)]
    exact h.named_kind d e (a.mem_keep h he)
  · intro x hk
    have hx : x ≠ id := by
      rintro rfl
      rw [a.view_gone h] at hk
      exact hk rfl
    have hr := h.reaches_root x (a.kind_eq hx ▸ hk)
    -- the way up never comes to `id`, which nothing lies in
    clear hk
    induction hr using ReflTransGen.head_induction_on with
    | refl => exact .refl
    | head hcd _ ih =>
      exact .head (a.liesIn_keep hcd hx) (ih fun hd => a.bare ⟨_, hd ▸ hcd⟩)

/-! ### Another name in the same place -/

/-- `u` is `t` with another name at place `i` of `parent`. -/
structure Relabeled (t u : Tree) (parent id : InodeId) (old new : String) (i : Nat) : Prop where
  entry_eq : (t.view parent).entries[i]? = some ⟨old, id⟩
  proper : (⟨old, id⟩ : Entry).IsProper
  name_valid : validateName new = .ok ()
  name_new : ∀ e ∈ (t.view parent).entries, e.name ≠ new
  cwd_eq : u.cwd = t.cwd
  view_eq : u.view = Function.update t.view parent
    ⟨(t.view parent).links, .directory ((t.view parent).entries.set i ⟨new, id⟩)⟩

namespace Relabeled

variable {parent id : InodeId} {old new : String} {i : Nat}

theorem liesIn_parent (a : Relabeled t u parent id old new i) : t.LiesIn id parent :=
  ⟨_, List.mem_of_getElem? a.entry_eq, a.proper, rfl⟩

theorem view_parent (a : Relabeled t u parent id old new i) : u.view parent
    = ⟨(t.view parent).links, .directory ((t.view parent).entries.set i ⟨new, id⟩)⟩ := by
  rw [a.view_eq, Function.update_self]

theorem view_other (a : Relabeled t u parent id old new i) {x : InodeId} (hp : x ≠ parent) :
    u.view x = t.view x := by
  rw [a.view_eq, Function.update_of_ne hp]

theorem kind_eq (a : Relabeled t u parent id old new i) (x : InodeId) :
    (u.view x).kind = (t.view x).kind := by
  by_cases hp : x = parent
  · rw [hp, a.view_parent, kind_of_liesIn a.liesIn_parent]
    rfl
  · rw [a.view_other hp]

theorem links_same (a : Relabeled t u parent id old new i) (x : InodeId) :
    (u.view x).links = (t.view x).links := by
  by_cases hp : x = parent
  · rw [hp, a.view_parent]
  · rw [a.view_other hp]

theorem perm_entries (a : Relabeled t u parent id old new i) :
    ((⟨old, id⟩ : Entry) :: (u.view parent).entries).Perm
      (⟨new, id⟩ :: (t.view parent).entries) := by
  rw [a.view_parent]
  exact perm_set a.entry_eq _

/-- A question that both names answer alike has as many answers as before. -/
theorem count_eq (a : Relabeled t u parent id old new i) {q : Entry → Bool}
    (hq : q ⟨old, id⟩ = q ⟨new, id⟩) : countEntries u.view q = countEntries t.view q := by
  refine congrArg overSlots (funext fun x => ?_)
  by_cases hp : x = parent
  · have := a.perm_entries.countP_eq q
    rw [List.countP_cons, List.countP_cons, hq] at this
    rw [hp]
    omega
  · rw [a.view_other hp]

theorem liesIn_keep (a : Relabeled t u parent id old new i) {c d : InodeId}
    (hl : t.LiesIn c d) : u.LiesIn c d := by
  obtain ⟨e, he, hp, rfl⟩ := hl
  by_cases hd : d = parent
  · subst hd
    have hnew : (⟨new, id⟩ : Entry) ∈ (u.view d).entries := by
      rw [a.view_parent]
      exact List.mem_set (List.getElem?_eq_some_iff.mp a.entry_eq).1 _
    rcases List.mem_cons.mp (a.perm_entries.mem_iff.mpr (List.mem_cons_of_mem _ he)) with rfl | he
    · exact ⟨_, hnew, isProper_of_validateName a.name_valid, rfl⟩
    · exact ⟨e, he, hp, rfl⟩
  · refine ⟨e, ?_, hp, rfl⟩
    rwa [a.view_other hd]

theorem lists (h : t.Sound) (a : Relabeled t u parent id old new i) {d : InodeId}
    (hk : (u.view d).kind = .directory) : ∃ up below, u.Lists d up below := by
  obtain ⟨up, below, hl⟩ := h.lists (a.kind_eq d ▸ hk)
  have hup := (a.kind_eq up).trans hl.parent_kind
  have hin : d ≠ .root → u.LiesIn d up := fun hr => a.liesIn_keep (hl.liesIn hr)
  by_cases hp : d = parent
  · subst hp
    refine ⟨up, hl.replace ⟨new, id⟩ a.entry_eq a.proper ?_ hup hin a.name_valid
      a.name_new⟩
    rw [a.view_parent]
    rfl
  · exact ⟨up, below, hl.keep (by rw [a.view_other hp]) hup hin⟩

end Relabeled

/-- Another name keeps the names of a tree together. -/
theorem Sound.relabel {parent id : InodeId} {old new : String} {i : Nat} (h : t.Sound)
    (a : Relabeled t u parent id old new i) : u.Sound := by
  refine Sound.of_lists ?_ ?_ (fun d hk => a.lists h hk) ?_ ?_ ?_ ?_
  · rw [a.cwd_eq, a.kind_eq, h.cwd_kind]
  · rw [a.kind_eq, h.root_kind]
  · intro d e he
    rw [a.kind_eq]
    by_cases hd : d = parent
    · subst hd
      rcases List.mem_cons.mp (a.perm_entries.mem_iff.mp (List.mem_cons_of_mem _ he)) with
        rfl | he
      · exact h.inUse_of_liesIn a.liesIn_parent
      · exact h.named_kind d e he
    · exact h.named_kind d e (a.view_other hd ▸ he)
  · intro x
    rw [a.links_same, a.count_eq rfl, ← timesNamed_eq, h.links_eq_timesNamed]
  · intro x
    have hnew : (⟨new, id⟩ : Entry).IsProper := isProper_of_validateName a.name_valid
    rw [a.count_eq (by simp [a.proper, hnew]), ← timesOwned_eq, h.timesOwned_eq_ite, a.kind_eq]
  · intro x hk
    exact ReflTransGen.mono (fun _ _ => a.liesIn_keep) _ _ (h.reaches_root x (a.kind_eq x ▸ hk))

/-! ### A name in another directory -/

/-- A way up goes around an inode. -/
def Avoids (t : Tree) (id c d : InodeId) : Prop := t.LiesIn c d ∧ c ≠ id

theorem ne_of_around {id dir : InodeId} (hr : id ≠ .root)
    (h : ReflTransGen (t.Avoids id) dir .root) : id ≠ dir := by
  rintro rfl
  rcases ReflTransGen.cases_head h with he | ⟨_, hc, -⟩
  · exact hr he
  · exact hc.2 rfl

/-- `u` is `t` with the inode `id` named in `target`, no longer in `source`; a directory
also names the one that it now lies in. -/
structure Moved (t u : Tree) (source target id : InodeId) (old new : String) (i : Nat) :
    Prop where
  entry_eq : (t.view source).entries[i]? = some ⟨old, id⟩
  proper : (⟨old, id⟩ : Entry).IsProper
  target_kind : (t.view target).kind = .directory
  source_ne : source ≠ target
  name_valid : validateName new = .ok ()
  name_new : ∀ e ∈ (t.view target).entries, e.name ≠ new
  around : ReflTransGen (t.Avoids id) target .root
  cwd_eq : u.cwd = t.cwd
  view_source : u.view source
    = ⟨if (t.view id).kind = .directory then (t.view source).unlink.links
        else (t.view source).links, .directory (takeOut (t.view source).entries i)⟩
  view_target : u.view target
    = ⟨if (t.view id).kind = .directory then (t.view target).link.links
        else (t.view target).links, .directory ((t.view target).entries ++ [⟨new, id⟩])⟩
  view_moved : u.view id = if (t.view id).kind = .directory
    then ⟨(t.view id).links, .directory ((t.view id).entries.set 1 ⟨"..", target⟩)⟩
    else t.view id
  view_other : ∀ x, x ≠ source → x ≠ target → x ≠ id → u.view x = t.view x

namespace Moved

variable {source target id : InodeId} {old new : String} {i : Nat}

theorem liesIn_source (a : Moved t u source target id old new i) : t.LiesIn id source :=
  ⟨_, List.mem_of_getElem? a.entry_eq, a.proper, rfl⟩

theorem source_kind (a : Moved t u source target id old new i) :
    (t.view source).kind = .directory :=
  kind_of_liesIn a.liesIn_source

theorem ne_source (h : t.Sound) (a : Moved t u source target id old new i) : id ≠ source := by
  rintro rfl
  exact h.not_liesIn_self a.liesIn_source

theorem ne_root (h : t.Sound) (a : Moved t u source target id old new i) : id ≠ .root := by
  rintro rfl
  exact h.root_not_liesIn a.liesIn_source

theorem ne_target (h : t.Sound) (a : Moved t u source target id old new i) : id ≠ target :=
  ne_of_around (a.ne_root h) a.around

theorem liesIn_target (a : Moved t u source target id old new i) : u.LiesIn id target := by
  refine ⟨⟨new, id⟩, ?_, isProper_of_validateName a.name_valid, rfl⟩
  rw [a.view_target]
  exact List.mem_append_right _ (List.mem_singleton_self _)

theorem kind_eq (a : Moved t u source target id old new i) (x : InodeId) :
    (u.view x).kind = (t.view x).kind := by
  by_cases hs : x = source
  · rw [hs, a.view_source, a.source_kind]
    rfl
  · by_cases ht : x = target
    · rw [ht, a.view_target, a.target_kind]
      rfl
    · by_cases hi : x = id
      · rw [hi, a.view_moved]
        split
        · rename_i hk
          exact hk.symm
        · rfl
      · rw [a.view_other x hs ht hi]

theorem perm_source (a : Moved t u source target id old new i) :
    (t.view source).entries.Perm (⟨old, id⟩ :: (u.view source).entries) := by
  rw [a.view_source]
  exact perm_takeOut a.entry_eq

/-- The entries of the inode that moves, but for the way up. -/
theorem entries_moved (h : t.Sound) (a : Moved t u source target id old new i)
    (hk : (t.view id).kind = .directory) : ∃ below, t.Lists id source below
      ∧ (u.view id).entries = ⟨".", id⟩ :: ⟨"..", target⟩ :: below := by
  obtain ⟨up, below, hl⟩ := h.lists hk
  obtain rfl : up = source := h.liesIn_unique (hl.liesIn (a.ne_root h)) a.liesIn_source
  refine ⟨below, hl, ?_⟩
  rw [a.view_moved, if_pos hk]
  show (t.view id).entries.set 1 _ = _
  rw [hl.entries_eq]
  rfl

theorem liesIn_keep (h : t.Sound) (a : Moved t u source target id old new i) {c d : InodeId}
    (hl : t.LiesIn c d) (hc : c ≠ id) : u.LiesIn c d := by
  obtain ⟨e, he, hp, rfl⟩ := hl
  refine ⟨e, ?_, hp, rfl⟩
  by_cases hs : d = source
  · subst hs
    rcases List.mem_cons.mp (a.perm_source.mem_iff.mp he) with rfl | he
    · exact absurd rfl hc
    · exact he
  · by_cases ht : d = target
    · subst ht
      rw [a.view_target]
      exact List.mem_append_left _ he
    · by_cases hi : d = id
      · subst hi
        obtain ⟨below, hl, hu⟩ := a.entries_moved h (InodeView.kind_of_mem_entries he)
        rw [hu]
        exact List.mem_cons_of_mem _ (List.mem_cons_of_mem _ (hl.mem_below he hp))
      · rwa [a.view_other d hs ht hi]

/-- A directory that moves counts for `target` what it counted for `source`. -/
theorem count_eq (h : t.Sound) (a : Moved t u source target id old new i) (q : Entry → Bool) :
    countEntries u.view q + [(⟨old, id⟩ : Entry)].countP q
        + (if (t.view id).kind = .directory then [⟨"..", source⟩] else []).countP q
      = countEntries t.view q + [(⟨new, id⟩ : Entry)].countP q
        + (if (t.view id).kind = .directory then [⟨"..", target⟩] else []).countP q := by
  have hlt : ∀ {x}, (t.view x).kind ≠ .free → x.index < maxSlots := index_lt_maxSlots
  let v := Function.update t.view source (u.view source)
  let w := Function.update v target (u.view target)
  have hu : u.view = Function.update w id (u.view id) := by
    funext x
    by_cases hi : x = id
    · rw [hi, Function.update_self]
    · rw [Function.update_of_ne hi]
      by_cases ht : x = target
      · rw [ht]
        exact (Function.update_self target (u.view target) v).symm
      · rw [show w x = v x from Function.update_of_ne ht ..]
        by_cases hs : x = source
        · rw [hs]
          exact (Function.update_self source (u.view source) t.view).symm
        · rw [show v x = t.view x from Function.update_of_ne hs .., a.view_other x hs ht hi]
  have h1 := countEntries_update t.view (hlt (a.source_kind.trans_ne (by decide)))
    (u.view source) q
  have h2 := countEntries_update v (hlt (a.target_kind.trans_ne (by decide)))
    (u.view target) q
  have h3 := countEntries_update w (hlt (h.inUse_of_liesIn a.liesIn_source)) (u.view id) q
  rw [← hu, show w id = v id from Function.update_of_ne (a.ne_target h) ..,
    show v id = t.view id from Function.update_of_ne (a.ne_source h) ..] at h3
  rw [show v target = t.view target from Function.update_of_ne a.source_ne.symm .., a.view_target,
    show InodeView.entries ⟨_, .directory ((t.view target).entries ++ [⟨new, id⟩])⟩
      = (t.view target).entries ++ [⟨new, id⟩] from rfl, List.countP_append, ← a.view_target] at h2
  have hperm := a.perm_source.countP_eq q
  have hmoved : (u.view id).entries.countP q
        + (if (t.view id).kind = .directory then [⟨"..", source⟩] else []).countP q
      = (t.view id).entries.countP q
        + (if (t.view id).kind = .directory then [⟨"..", target⟩] else []).countP q := by
    by_cases hk : (t.view id).kind = .directory
    · obtain ⟨below, hl, hb⟩ := a.entries_moved h hk
      rw [if_pos hk, if_pos hk, hb, hl.entries_eq]
      simp only [List.countP_cons, List.countP_nil]
      omega
    · rw [if_neg hk, if_neg hk, a.view_moved, if_neg hk]
  rw [List.countP_cons] at hperm
  simp only [List.countP_cons, List.countP_nil] at h2 hmoved ⊢
  change countEntries v q + _ = _ at h1
  change countEntries w q + _ = _ at h2
  omega

theorem links_eq (h : t.Sound) (a : Moved t u source target id old new i) (x : InodeId) :
    (u.view x).links.toNat = countEntries u.view fun e => e.inode = x := by
  have hx := h.links_eq_timesNamed x
  have hc := a.count_eq h fun e => e.inode = x
  rw [timesNamed_eq] at hx
  have hst := a.source_ne
  by_cases hxs : x = source
  · subst hxs
    rw [a.view_source]
    by_cases hk : (t.view id).kind = .directory
    · have := (t.view x).toNat_unlink
      simp [hk, hst.symm] at hc ⊢
      omega
    · simp [hk] at hc ⊢
      omega
  · by_cases hxt : x = target
    · subst hxt
      rw [a.view_target]
      by_cases hk : (t.view id).kind = .directory
      · have := InodeView.toNat_link (h.links_lt x)
        simp [hk, hst] at hc ⊢
        omega
      · simp [hk] at hc ⊢
        omega
    · have hlinks : (u.view x).links = (t.view x).links := by
        by_cases hxi : x = id
        · rw [hxi, a.view_moved]
          split <;> rfl
        · rw [a.view_other x hxs hxt hxi]
      rw [hlinks]
      by_cases hk : (t.view id).kind = .directory
      · simp [hk, Ne.symm hxs, Ne.symm hxt] at hc
        omega
      · simp [hk] at hc
        omega

theorem owned_eq (h : t.Sound) (a : Moved t u source target id old new i) (x : InodeId) :
    (countEntries u.view fun e => e.IsProper ∧ e.inode = x)
      = if (u.view x).kind = .free ∨ x = .root then 0 else 1 := by
  have hx := h.timesOwned_eq_ite x
  have hc := a.count_eq h fun e => e.IsProper ∧ e.inode = x
  have hnew : (⟨new, id⟩ : Entry).IsProper := isProper_of_validateName a.name_valid
  have hup : ∀ d, ¬(⟨"..", d⟩ : Entry).IsProper := fun d hd => hd.2 rfl
  rw [timesOwned_eq] at hx
  rw [a.kind_eq, ← hx]
  by_cases hk : (t.view id).kind = .directory
  · simpa [hk, a.proper, hnew, hup] using hc
  · simpa [hk, a.proper, hnew] using hc

theorem lists (h : t.Sound) (a : Moved t u source target id old new i) {d : InodeId}
    (hk : (u.view d).kind = .directory) : ∃ up below, u.Lists d up below := by
  obtain ⟨up, below, hl⟩ := h.lists (a.kind_eq d ▸ hk)
  have hup := (a.kind_eq up).trans hl.parent_kind
  by_cases hi : d = id
  · subst hi
    obtain ⟨below, hl, hu⟩ := a.entries_moved h (a.kind_eq d ▸ hk)
    exact ⟨target, below, hu, (a.kind_eq _).trans a.target_kind,
      fun hr => absurd hr (a.ne_root h), fun _ => a.liesIn_target, hl.names_nodup,
      hl.names_valid⟩
  · have hin : d ≠ .root → u.LiesIn d up := fun hr => a.liesIn_keep h (hl.liesIn hr) hi
    by_cases hs : d = source
    · subst hs
      refine ⟨up, hl.takeOut a.entry_eq a.proper ?_ hup hin⟩
      rw [a.view_source]
      rfl
    · by_cases ht : d = target
      · subst ht
        refine ⟨up, _, hl.append (e := ⟨new, id⟩) ?_ hup hin a.name_valid a.name_new⟩
        rw [a.view_target]
        rfl
      · exact ⟨up, below, hl.keep (by rw [a.view_other d hs ht hi]) hup hin⟩

theorem named_kind (h : t.Sound) (a : Moved t u source target id old new i) {d : InodeId}
    {e : Entry} (he : e ∈ (u.view d).entries) : (u.view e.inode).kind ≠ .free := by
  rw [a.kind_eq]
  by_cases hs : d = source
  · subst hs
    exact h.named_kind d e (a.perm_source.mem_iff.mpr (List.mem_cons_of_mem _ he))
  · by_cases ht : d = target
    · subst ht
      rw [a.view_target] at he
      rcases List.mem_append.mp he with he | he
      · exact h.named_kind d e he
      · rw [List.mem_singleton.mp he]
        exact h.inUse_of_liesIn a.liesIn_source
    · by_cases hi : d = id
      · subst hi
        by_cases hk : (t.view d).kind = .directory
        · obtain ⟨below, hl, hu⟩ := a.entries_moved h hk
          rw [hu] at he
          rcases List.mem_cons.mp he with rfl | he
          · exact hk.trans_ne (by decide)
          · rcases List.mem_cons.mp he with rfl | he
            · exact a.target_kind.trans_ne (by decide)
            · exact h.named_kind d e (hl.mem_entries he)
        · rw [a.view_moved, if_neg hk] at he
          exact h.named_kind d e he
      · exact h.named_kind d e (a.view_other d hs ht hi ▸ he)

end Moved

/-- A name that moves keeps the names of a tree together. -/
theorem Sound.move {source target id : InodeId} {old new : String} {i : Nat} (h : t.Sound)
    (a : Moved t u source target id old new i) : u.Sound := by
  refine Sound.of_lists ?_ ?_ (fun d hk => a.lists h hk) (fun d e he => a.named_kind h he)
    (a.links_eq h) (a.owned_eq h) ?_
  · rw [a.cwd_eq, a.kind_eq, h.cwd_kind]
  · rw [a.kind_eq, h.root_kind]
  · intro x hk
    have hup : ReflTransGen u.LiesIn target .root :=
      ReflTransGen.mono (fun _ _ hc => a.liesIn_keep h hc.1 hc.2) _ _ a.around
    have hr := h.reaches_root x (a.kind_eq x ▸ hk)
    -- a way up that comes to `id` goes on from `target`
    clear hk
    induction hr using ReflTransGen.head_induction_on with
    | refl => exact .refl
    | @head c d hcd _ ih =>
      by_cases hc : c = id
      · rw [hc]
        exact .head a.liesIn_target hup
      · exact .head (a.liesIn_keep h hcd hc) ih

/-! ### The way around -/

/-- The walk along `..` that meets the root but not `id` is a way around `id`. -/
theorem avoids_of_isWithin (h : t.Sound) {id : InodeId} {steps : Nat} {node : InodeId}
    (hw : t.isWithin id steps node = .ok false) : ReflTransGen (t.Avoids id) node .root := by
  induction steps generalizing node with
  | zero => cases hw
  | succ steps ih =>
    unfold isWithin at hw
    split at hw
    · cases hw
    · rename_i hne
      split at hw
      · rename_i hroot
        exact hroot ▸ .refl
      · rename_i hroot
        obtain ⟨up, hup, hw⟩ := Attempt.except_bind_eq_ok_iff.mp hw
        obtain ⟨names, hn, hf⟩ := lookup_ok hup
        have hmem : ⟨"..", up⟩ ∈ (t.view node).entries := by
          rw [InodeView.entries, hn]
          exact List.mem_of_find?_eq_some hf
        obtain ⟨up', below, hl⟩ := h.lists (InodeView.kind_of_mem_entries hmem)
        have hin := hl.liesIn hroot
        rw [← h.parent_eq hmem hin] at hin
        exact .head ⟨hin, hne⟩ (ih hw)

/-- No way up from a directory comes to a file. -/
theorem avoids_of_file (h : t.Sound) {id node : InodeId} (hi : (t.view id).kind ≠ .directory)
    (hn : (t.view node).kind = .directory) : ReflTransGen (t.Avoids id) node .root := by
  have hr := h.reaches_root node (hn.trans_ne (by decide))
  induction hr using ReflTransGen.head_induction_on with
  | refl => exact .refl
  | head hcd _ ih => exact .head ⟨hcd, fun he => hi (he ▸ hn)⟩ (ih (kind_of_liesIn hcd))

end Tree

end SectorFs

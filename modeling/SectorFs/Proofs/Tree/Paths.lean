import Mathlib.Data.Fintype.Card
import SectorFs.Proofs.Tree.Sound

/-!
# Following names through a sound tree

`Tree.follow` looks names up one after the other, and a path resolves to where its names
lead (`resolve_eq_follow`).  In a sound tree every inode in use has exactly one path from
the root whose names are neither `.` nor `..` (`Sound.exists_path`, `Sound.path_unique`),
with fewer names than the table has slots (`Sound.length_path_lt`), since every name on
the way leads to another inode.

An edit changes a few lookups.  `follow_congr` says that a walk which makes none of them
leads where it led before.  For the walk of `isWithin`, which goes up by `..`, the length
of the path is what its number of steps is to be measured by (`Sound.isWithin_eq`).
-/

namespace SectorFs

open Attempt

/-- Names that only lead down. -/
def Path.Plain (names : List String) : Prop := ∀ name ∈ names, name ≠ "." ∧ name ≠ ".."

instance (names : List String) : Decidable (Path.Plain names) :=
  inferInstanceAs (Decidable (∀ name ∈ names, name ≠ "." ∧ name ≠ ".."))

namespace Tree

open Relation

variable {t u : Tree} {dir id : InodeId} {names : List String} {name : String}

/-! ### Following -/

/-- The inode that names lead to, each looked up where the one before it led. -/
def follow (t : Tree) (dir : InodeId) : List String → Except Failure InodeId
  | [] => .ok dir
  | name :: names => (t.lookup dir name).bind fun id => t.follow id names

theorem follow_append (t : Tree) (dir : InodeId) (above names : List String) :
    t.follow dir (above ++ names) = (t.follow dir above).bind fun id => t.follow id names := by
  induction above generalizing dir with
  | nil => rfl
  | cons name above ih =>
    rw [List.cons_append, follow, follow]
    cases t.lookup dir name with
    | error e => rfl
    | ok id => exact ih id

theorem follow_of_append {above : List String} (h : t.follow dir above = .ok id)
    (names : List String) : t.follow dir (above ++ names) = t.follow id names := by
  rw [follow_append, h]
  rfl

theorem follow_append_eq_ok_iff {above : List String} :
    t.follow dir (above ++ names) = .ok id
      ↔ ∃ mid, t.follow dir above = .ok mid ∧ t.follow mid names = .ok id := by
  rw [follow_append]
  exact except_bind_eq_ok_iff

/-- The last name leads on from where those before it do. -/
theorem follow_concat_eq_ok_iff {above : List String} :
    t.follow dir (above ++ [name]) = .ok id
      ↔ ∃ mid, t.follow dir above = .ok mid ∧ t.lookup mid name = .ok id := by
  refine follow_append_eq_ok_iff.trans (exists_congr fun mid => and_congr_right fun _ => ?_)
  rw [follow]
  cases t.lookup mid name <;> exact Iff.rfl

/-- A path resolves to where its names lead. -/
theorem resolve_eq_follow (t : Tree) (path : String) :
    t.resolve path = t.follow (t.start path) (Path.components path) := by
  have hdescend : ∀ (names : List String) (dir : InodeId),
      (t.descend dir names).bind (fun place => place.existing.elim (.error .notFound) .ok)
        = t.follow dir names := by
    intro names
    induction names with
    | nil => intro dir; rfl
    | cons name names ih =>
      intro dir
      cases names with
      | nil =>
        rw [descend, follow]
        cases t.lookup dir name with
        | ok id => rfl
        | error f => cases f <;> rfl
      | cons next rest =>
        rw [descend_cons _ _ _ (by simp), follow]
        cases t.lookup dir name with
        | ok id => exact ih id
        | error f => rfl
  rw [← hdescend]
  show (t.locate path).bind _ = (t.locate path).bind _
  refine congrArg _ (funext fun place => ?_)
  cases place.existing <;> rfl

theorem resolve_of_absolute (t : Tree) {path : String} (h : Path.isAbsolute path = true) :
    t.resolve path = t.follow .root (Path.components path) := by
  rw [resolve_eq_follow, start, if_pos h]

/-! ### Where a path leads -/

/-- A path without names leads to where it starts; the last name of any other is looked
up where the names before it lead. -/
theorem descend_cases {place : Place} (h : t.descend dir names = .ok place) :
    (names = [] ∧ place = ⟨dir, "", some dir⟩)
      ∨ ∃ above, names = above ++ [place.leaf] ∧ t.follow dir above = .ok place.parent
        ∧ ((∃ id, place.existing = some id ∧ t.lookup place.parent place.leaf = .ok id)
          ∨ (place.existing = none ∧ t.lookup place.parent place.leaf = .error .notFound)) := by
  induction names generalizing dir with
  | nil =>
    injection h with h
    exact .inl ⟨rfl, h.symm⟩
  | cons name names ih =>
    right
    cases names with
    | nil =>
      unfold descend at h
      split at h
      · rename_i id hl
        injection h with h
        subst h
        exact ⟨[], rfl, rfl, .inl ⟨id, rfl, hl⟩⟩
      · rename_i hl
        injection h with h
        subst h
        exact ⟨[], rfl, rfl, .inr ⟨rfl, hl⟩⟩
      · cases h
    | cons next rest =>
      rw [descend_cons _ _ _ (by simp)] at h
      obtain ⟨mid, hmid, h⟩ := except_bind_eq_ok_iff.mp h
      rcases ih h with ⟨hnames, -⟩ | ⟨above, hnames, hup, hcase⟩
      · cases hnames
      · refine ⟨name :: above, by rw [hnames]; rfl, ?_, hcase⟩
        rw [follow, hmid]
        exact hup

theorem entry_of_lookup (h : t.lookup dir name = .ok id) :
    ∃ i, (t.view dir).entries.findIdx? (·.name == name) = some i
      ∧ (t.view dir).entries[i]? = some ⟨name, id⟩ := by
  obtain ⟨names, hn, hf⟩ := lookup_ok h
  have he : (t.view dir).entries = names := by rw [InodeView.entries, hn]; rfl
  rw [he]
  obtain ⟨hp, i, hi, hget, hmin⟩ := List.find?_eq_some_iff_getElem.mp hf
  refine ⟨i, List.findIdx?_eq_some_iff_getElem.mpr ⟨hi, ?_, fun j hj => ?_⟩, ?_⟩
  · rw [hget]
    exact hp
  · simpa using hmin j hj
  · rw [List.getElem?_eq_getElem hi, hget]

theorem lookup_of_entry {i : Nat}
    (hfind : (t.view dir).entries.findIdx? (·.name == name) = some i)
    (hget : (t.view dir).entries[i]? = some ⟨name, id⟩) : t.lookup dir name = .ok id := by
  obtain ⟨es, hes⟩ := Payload.kind_eq_directory_iff.mp
    (InodeView.kind_of_mem_entries (List.mem_of_getElem? hget))
  have he : (t.view dir).entries = es := by rw [InodeView.entries, hes]; rfl
  rw [he] at hfind hget
  obtain ⟨hlt, hp, hmin⟩ := List.findIdx?_eq_some_iff_getElem.mp hfind
  have hfound : es.find? (·.name == name) = some ⟨name, id⟩ :=
    List.find?_eq_some_iff_getElem.mpr ⟨beq_self_eq_true name, i, hlt,
      Option.some.inj ((List.getElem?_eq_getElem hlt).symm.trans hget),
      fun j hj => by simpa using hmin j hj⟩
  rw [lookup_of_view name hes, hfound]

theorem lookup_of_locate {path : String} {place : Place}
    (h : t.locate path = .ok place) (hx : place.existing = some id)
    (hs : isSpecialName place.leaf = false) : t.lookup place.parent place.leaf = .ok id := by
  rcases descend_cases h with ⟨-, rfl⟩ | ⟨-, -, -, ⟨id', hx', hl⟩ | ⟨hn, -⟩⟩
  · cases hs
  · rwa [show id = id' from Option.some.inj (hx.symm.trans hx')]
  · rw [hx] at hn
    cases hn

theorem entry_of_locate {path : String} {place : Place}
    (h : t.locate path = .ok place) (hx : place.existing = some id)
    (hs : isSpecialName place.leaf = false) :
    ∃ i, (t.view place.parent).entries.findIdx? (·.name == place.leaf) = some i
      ∧ (t.view place.parent).entries[i]? = some ⟨place.leaf, id⟩ :=
  entry_of_lookup (lookup_of_locate h hx hs)

theorem name_new_of_locate {path : String} {place : Place} (h : t.locate path = .ok place)
    (hx : place.existing = none) (hk : (t.view place.parent).kind = .directory) :
    ∀ e ∈ (t.view place.parent).entries, e.name ≠ place.leaf := by
  rcases descend_cases h with ⟨-, rfl⟩ | ⟨-, -, -, ⟨id, hs, -⟩ | ⟨-, hl⟩⟩
  · cases hx
  · rw [hx] at hs
    cases hs
  · obtain ⟨names, hn⟩ := Payload.kind_eq_directory_iff.mp hk
    rw [lookup_of_view _ hn] at hl
    have he : (t.view place.parent).entries = names := by rw [InodeView.entries, hn]; rfl
    rw [he]
    intro e hm hname
    cases hf : names.find? (·.name == place.leaf) with
    | some e' => rw [hf] at hl; cases hl
    | none => exact absurd (List.find?_eq_none.mp hf e hm) (by simp [hname])

/-- Two trees lead to the same place by names that the one looks up as the other does,
wherever a walk through the first one comes to. -/
theorem follow_congr (h : ∀ above name mid, above ++ [name] <+: names →
      t.follow dir above = .ok mid → u.lookup mid name = t.lookup mid name) :
    u.follow dir names = t.follow dir names := by
  induction names generalizing dir with
  | nil => rfl
  | cons name names ih =>
    have hfirst := h [] name dir (by simp) rfl
    rw [follow, follow, hfirst]
    cases hl : t.lookup dir name with
    | error e => rfl
    | ok id =>
      refine ih fun above next mid hpre hmid => h (name :: above) next mid ?_ ?_
      · exact List.cons_prefix_cons.mpr ⟨rfl, hpre⟩
      · rw [follow, hl]
        exact hmid

/-! ### Lookups -/

theorem lookup_of_not_mem (h : ∀ x, (⟨name, x⟩ : Entry) ∉ (t.view dir).entries) :
    t.lookup dir name
      = .error (if (t.view dir).kind = .file then .notADirectory else .notFound) := by
  by_cases hk : (t.view dir).kind = .directory
  · obtain ⟨es, hes⟩ := Payload.kind_eq_directory_iff.mp hk
    rw [lookup_of_view name hes, if_neg (by rw [hk]; decide)]
    have hnone : es.find? (·.name == name) = none := by
      refine List.find?_eq_none.mpr fun e he hn => h e.inode ?_
      rw [InodeView.entries, hes, ← beq_iff_eq.mp hn]
      exact he
    rw [hnone]
  · rw [lookup, entries]
    by_cases hf : (t.view dir).kind = .free
    · rw [inode_of_kind_free hf, if_neg (by rw [hf]; decide)]
      rfl
    · obtain ⟨i, hi, hv⟩ := inode_of_kind hf
      have hfile : i.kind = .file := by
        rw [← hv, Inode.kind_view] at hk hf
        cases hik : i.kind with
        | free => exact absurd hik hf
        | file => rfl
        | directory => exact absurd hik hk
      obtain ⟨links, content⟩ := i
      cases content with
      | free => cases hfile
      | directory es => cases hfile
      | file bytes =>
        rw [hi, ← hv]
        rfl

namespace Sound

/-- A lookup finds the one entry of its name. -/
theorem lookup_eq_ok_iff (h : t.Sound) :
    t.lookup dir name = .ok id ↔ ⟨name, id⟩ ∈ (t.view dir).entries := by
  constructor
  · intro hl
    obtain ⟨es, hes, hf⟩ := lookup_ok hl
    rw [InodeView.entries, hes]
    exact List.mem_of_find?_eq_some hf
  · intro hm
    cases hl : t.lookup dir name with
    | error e =>
      obtain ⟨es, hes⟩ := Payload.kind_eq_directory_iff.mp (InodeView.kind_of_mem_entries hm)
      rw [lookup_of_view name hes] at hl
      cases hf : es.find? (·.name == name) with
      | some e => rw [hf] at hl; cases hl
      | none =>
        rw [InodeView.entries, hes] at hm
        exact absurd (List.find?_eq_none.mp hf _ hm) (by simp)
    | ok x =>
      obtain ⟨es, hes, hf⟩ := lookup_ok hl
      have hx : (⟨name, x⟩ : Entry) ∈ (t.view dir).entries := by
        rw [InodeView.entries, hes]
        exact List.mem_of_find?_eq_some hf
      have hnames := h.names_nodup dir
      have he := List.inj_on_of_nodup_map hnames hx hm rfl
      rw [show x = id from congrArg Entry.inode he]

/-- What a lookup finds is told by the kind of the inode and by its entries of the name. -/
theorem lookup_congr (ht : t.Sound) (hu : u.Sound) (hk : (u.view dir).kind = (t.view dir).kind)
    (hm : ∀ x, (⟨name, x⟩ : Entry) ∈ (u.view dir).entries ↔ ⟨name, x⟩ ∈ (t.view dir).entries) :
    u.lookup dir name = t.lookup dir name := by
  by_cases hx : ∃ x, (⟨name, x⟩ : Entry) ∈ (t.view dir).entries
  · obtain ⟨x, hx⟩ := hx
    rw [ht.lookup_eq_ok_iff.mpr hx, hu.lookup_eq_ok_iff.mpr ((hm x).mpr hx)]
  · rw [lookup_of_not_mem fun x hx' => hx ⟨x, hx'⟩,
      lookup_of_not_mem fun x hx' => hx ⟨x, (hm x).mp hx'⟩, hk]

theorem liesIn_of_lookup (h : t.Sound) (hn : name ≠ "." ∧ name ≠ "..")
    (hl : t.lookup dir name = .ok id) : t.LiesIn id dir :=
  ⟨_, h.lookup_eq_ok_iff.mp hl, hn, rfl⟩

theorem lookup_up (h : t.Sound) (hk : (t.view id).kind = .directory) (hl : t.LiesIn id dir) :
    t.lookup id ".." = .ok dir := by
  obtain ⟨up, below, hp⟩ := h.lists hk
  have hm : ⟨"..", up⟩ ∈ (t.view id).entries := by
    rw [hp.entries_eq]
    simp
  rw [← h.parent_eq hm hl]
  exact h.lookup_eq_ok_iff.mpr hm

theorem name_unique (h : t.Sound) {a b : String} (ha : (⟨a, id⟩ : Entry) ∈ (t.view dir).entries)
    (hb : (⟨b, id⟩ : Entry) ∈ (t.view dir).entries) (hpa : (⟨a, id⟩ : Entry).IsProper)
    (hpb : (⟨b, id⟩ : Entry).IsProper) : a = b := by
  have hone := h.owned_of_liesIn ⟨_, ha, hpa, rfl⟩
  have hlt := index_lt_maxSlots ((InodeView.kind_of_mem_entries ha).trans_ne (by decide))
  have hle := le_overSlots
    (fun d => (t.view d).entries.countP fun e => e.IsProper ∧ e.inode = id) hlt
  rw [timesOwned_eq, countEntries] at hone
  rw [hone, List.countP_eq_length_filter] at hle
  have hmem : ∀ {c : String}, (⟨c, id⟩ : Entry) ∈ (t.view dir).entries →
      (⟨c, id⟩ : Entry).IsProper → (⟨c, id⟩ : Entry)
        ∈ (t.view dir).entries.filter fun e => e.IsProper ∧ e.inode = id := fun hm hp =>
    List.mem_filter.mpr ⟨hm, by simpa using hp⟩
  have hma := hmem ha hpa
  have hmb := hmem hb hpb
  cases hf : (t.view dir).entries.filter fun e => e.IsProper ∧ e.inode = id with
  | nil =>
    rw [hf] at hma
    exact absurd hma List.not_mem_nil
  | cons e rest =>
    cases rest with
    | nil =>
      rw [hf] at hma hmb
      exact congrArg Entry.name
        ((List.mem_singleton.mp hma).trans (List.mem_singleton.mp hmb).symm)
    | cons e' rest =>
      simp only [hf, List.length_cons] at hle
      omega

/-! ### Going up -/

theorem not_below (h : t.Sound) (hl : t.LiesIn id dir) : ¬ReflTransGen t.LiesIn dir id := by
  intro hback
  have hr := h.reaches_root id (h.inUse_of_liesIn hl)
  -- a loop is carried up to the root, which lies in nothing
  induction hr using ReflTransGen.head_induction_on generalizing dir with
  | refl => exact h.root_not_liesIn hl
  | @head c d hcd _ ih =>
    obtain rfl := h.liesIn_unique hcd hl
    rcases ReflTransGen.cases_head hback with he | ⟨e, hde, hec⟩
    · exact h.not_liesIn_self (he ▸ hl)
    · exact ih hde (hec.tail hcd)

/-- What is within a directory besides itself is within where that directory lies. -/
theorem below_iff (h : t.Sound) (hl : t.LiesIn id dir) {anc : InodeId} :
    ReflTransGen t.LiesIn id anc ↔ id = anc ∨ ReflTransGen t.LiesIn dir anc := by
  constructor
  · intro hb
    rcases ReflTransGen.cases_head hb with he | ⟨d, hd, hb⟩
    · exact .inl he
    · exact .inr (h.liesIn_unique hd hl ▸ hb)
  · rintro (rfl | hb)
    · exact .refl
    · exact .head hl hb

theorem below_root_iff (h : t.Sound) {anc : InodeId} :
    ReflTransGen t.LiesIn .root anc ↔ InodeId.root = anc := by
  constructor
  · intro hb
    rcases ReflTransGen.cases_head hb with he | ⟨d, hd, -⟩
    · exact he
    · exact absurd hd h.root_not_liesIn
  · rintro rfl
    exact .refl

/-- Names that only lead down lead to what is below. -/
theorem below_of_follow (h : t.Sound) (hn : Path.Plain names)
    (hf : t.follow dir names = .ok id) : ReflTransGen t.LiesIn id dir := by
  induction names generalizing dir with
  | nil =>
    cases hf
    exact .refl
  | cons name names ih =>
    obtain ⟨mid, hmid, hf⟩ := except_bind_eq_ok_iff.mp hf
    have hlies := h.liesIn_of_lookup (hn name List.mem_cons_self) hmid
    exact (ih (fun n hm => hn n (List.mem_cons_of_mem _ hm)) hf).tail hlies

theorem inUse_of_follow (h : t.Sound) (hd : (t.view dir).kind ≠ .free)
    (hf : t.follow dir names = .ok id) : (t.view id).kind ≠ .free := by
  induction names generalizing dir with
  | nil =>
    cases hf
    exact hd
  | cons name names ih =>
    obtain ⟨mid, hmid, hf⟩ := except_bind_eq_ok_iff.mp hf
    exact ih (h.named_kind dir _ (h.lookup_eq_ok_iff.mp hmid)) hf

theorem start_kind (h : t.Sound) (path : String) : (t.view (t.start path)).kind = .directory := by
  rw [start]
  split
  · exact h.root_kind
  · exact h.cwd_kind

/-- Where a path finds no inode there is a directory that has none of the name. -/
theorem parent_kind_of_locate (h : t.Sound) {path : String} {place : Place}
    (hl : t.locate path = .ok place) (hx : place.existing = none) :
    (t.view place.parent).kind = .directory := by
  rcases descend_cases hl with ⟨-, rfl⟩ | ⟨above, -, hup, ⟨x, hs, -⟩ | ⟨-, hmiss⟩⟩
  · cases hx
  · rw [hx] at hs
    cases hs
  · have huse := h.inUse_of_follow ((h.start_kind path).trans_ne (by decide)) hup
    cases hk : (t.view place.parent).kind with
    | directory => rfl
    | free => exact absurd hk huse
    | file =>
      -- a lookup in a file fails otherwise than by not finding the name
      rw [lookup_of_not_mem fun x hm => ?_, if_pos hk] at hmiss
      · cases hmiss
      · rw [InodeView.kind_of_mem_entries hm] at hk
        cases hk

end Sound

/-! ### Paths from the root -/

/-- Names that lead down from the root to an inode. -/
structure IsPathTo (t : Tree) (names : List String) (id : InodeId) : Prop where
  plain : Path.Plain names
  follow_eq : t.follow .root names = .ok id

theorem isPathTo_nil (t : Tree) : t.IsPathTo [] .root := ⟨nofun, rfl⟩

theorem isPathTo_concat_iff : t.IsPathTo (names ++ [name]) id
    ↔ ∃ dir, t.IsPathTo names dir ∧ (name ≠ "." ∧ name ≠ "..") ∧ t.lookup dir name = .ok id := by
  constructor
  · rintro ⟨hp, hf⟩
    obtain ⟨dir, hdir, hl⟩ := follow_concat_eq_ok_iff.mp hf
    exact ⟨dir, ⟨fun n hn => hp n (List.mem_append_left _ hn), hdir⟩, hp name (by simp), hl⟩
  · rintro ⟨dir, ⟨hp, hf⟩, hn, hl⟩
    refine ⟨fun n hm => ?_, follow_concat_eq_ok_iff.mpr ⟨dir, hf, hl⟩⟩
    rcases List.mem_append.mp hm with hm | hm
    · exact hp n hm
    · rw [List.mem_singleton.mp hm]
      exact hn

theorem IsPathTo.of_prefix (h : t.IsPathTo names id) {above : List String} (ha : above <+: names) :
    ∃ mid, t.IsPathTo above mid := by
  obtain ⟨below, rfl⟩ := ha
  obtain ⟨mid, hmid, -⟩ := follow_append_eq_ok_iff.mp h.follow_eq
  exact ⟨mid, fun n hn => h.plain n (List.mem_append_left _ hn), hmid⟩

/-- A walk down from the root is as good in another tree that looks up what it looks up. -/
theorem resolve_congr {path : String} (habs : Path.isAbsolute path = true)
    (hplain : Path.Plain (Path.components path))
    (hsame : ∀ above name mid, above ++ [name] <+: Path.components path → t.IsPathTo above mid →
      name ≠ "." ∧ name ≠ ".." → u.lookup mid name = t.lookup mid name) :
    u.resolve path = t.resolve path := by
  rw [resolve_of_absolute _ habs, resolve_of_absolute _ habs]
  refine follow_congr fun above name mid hpre hmid => hsame above name mid hpre ⟨?_, hmid⟩ ?_
  · exact fun n hn => hplain n (hpre.subset (List.mem_append_left _ hn))
  · exact hplain name (hpre.subset (by simp))

namespace Sound

/-- Every inode in use has a path from the root, -/
theorem exists_path (h : t.Sound) (hk : (t.view id).kind ≠ .free) :
    ∃ names, t.IsPathTo names id := by
  have hr := h.reaches_root id hk
  clear hk
  induction hr using ReflTransGen.head_induction_on with
  | refl => exact ⟨[], t.isPathTo_nil⟩
  | head hcd _ ih =>
    obtain ⟨names, hnames⟩ := ih
    obtain ⟨e, he, hp, rfl⟩ := hcd
    exact ⟨names ++ [e.name], isPathTo_concat_iff.mpr
      ⟨_, hnames, hp, h.lookup_eq_ok_iff.mpr he⟩⟩

/-- and only one: the last name is the one that the inode has, and the others lead to where
it lies. -/
theorem path_unique (h : t.Sound) {names' : List String} (ha : t.IsPathTo names id)
    (hb : t.IsPathTo names' id) : names = names' := by
  induction names using List.reverseRecOn generalizing names' id with
  | nil =>
    rcases List.eq_nil_or_concat' names' with rfl | ⟨rest, last, rfl⟩
    · rfl
    · obtain ⟨dir, -, hn, hl⟩ := isPathTo_concat_iff.mp hb
      cases ha.follow_eq
      exact absurd (h.liesIn_of_lookup hn hl) h.root_not_liesIn
  | append_singleton names name ih =>
    obtain ⟨dir, hdir, hn, hl⟩ := isPathTo_concat_iff.mp ha
    rcases List.eq_nil_or_concat' names' with rfl | ⟨rest, last, rfl⟩
    · cases hb.follow_eq
      exact absurd (h.liesIn_of_lookup hn hl) h.root_not_liesIn
    · obtain ⟨dir', hdir', hn', hl'⟩ := isPathTo_concat_iff.mp hb
      obtain rfl : dir = dir' :=
        h.liesIn_unique (h.liesIn_of_lookup hn hl) (h.liesIn_of_lookup hn' hl')
      rw [ih hdir hdir', h.name_unique (h.lookup_eq_ok_iff.mp hl) (h.lookup_eq_ok_iff.mp hl') hn hn']

/-- The ways to two inodes are one when the one lies below the other. -/
theorem below_of_prefix (h : t.Sound) {above : List String} {anc : InodeId}
    (ha : t.IsPathTo above anc) (hn : t.IsPathTo names id) (hpre : above <+: names) :
    ReflTransGen t.LiesIn id anc := by
  obtain ⟨below, rfl⟩ := hpre
  have hf := hn.follow_eq
  rw [follow_of_append ha.follow_eq] at hf
  exact h.below_of_follow (fun n hm => hn.plain n (List.mem_append_right _ hm)) hf

/-- Every name on a path leads to another inode, so there are fewer names than slots. -/
theorem length_path_lt (h : t.Sound) (hn : t.IsPathTo names id) : names.length < t.capacity := by
  have hmid : ∀ i : Fin (names.length + 1), ∃ mid, t.IsPathTo (names.take i) mid :=
    fun i => hn.of_prefix (List.take_prefix _ _)
  choose mid hpath using hmid
  have hslot : ∀ i, (mid i).index < t.capacity := fun i =>
    index_lt_of_kind (h.inUse_of_follow (h.root_kind.trans_ne (by decide)) (hpath i).follow_eq)
  have hinj : Function.Injective fun i => (⟨(mid i).index, hslot i⟩ : Fin t.capacity) := by
    intro i j hij
    have hpi := hpath i
    rw [index_inj (Fin.mk.inj hij)] at hpi
    have hlen := congrArg List.length (h.path_unique hpi (hpath j))
    rw [List.length_take, List.length_take] at hlen
    omega
  have := Fintype.card_le_of_injective _ hinj
  simp only [Fintype.card_fin] at this
  omega

/-- Going up by `..` takes as many steps as there are names on the way down, and meets just
the directories that the start lies below. -/
theorem isWithin_eq (h : t.Sound) {anc : InodeId} {steps : Nat}
    (hn : t.IsPathTo names dir) (hk : (t.view dir).kind = .directory)
    (hsteps : names.length < steps) :
    ∃ b, t.isWithin anc steps dir = .ok b ∧ (b = true ↔ ReflTransGen t.LiesIn dir anc) := by
  induction names using List.reverseRecOn generalizing dir steps with
  | nil =>
    obtain ⟨steps, rfl⟩ := Nat.exists_eq_add_one_of_ne_zero (Nat.ne_zero_of_lt hsteps)
    cases hn.follow_eq
    rw [isWithin, h.below_root_iff]
    by_cases ha : InodeId.root = anc
    · exact ⟨true, if_pos ha, by simp [ha]⟩
    · exact ⟨false, by rw [if_neg ha, if_pos rfl], by simp [ha]⟩
  | append_singleton names name ih =>
    obtain ⟨steps, rfl⟩ := Nat.exists_eq_add_one_of_ne_zero (Nat.ne_zero_of_lt hsteps)
    obtain ⟨up, hup, hname, hl⟩ := isPathTo_concat_iff.mp hn
    have hlies := h.liesIn_of_lookup hname hl
    have hroot : dir ≠ .root := fun he => h.root_not_liesIn (he ▸ hlies)
    rw [isWithin, h.below_iff hlies]
    by_cases ha : dir = anc
    · exact ⟨true, if_pos ha, by simp [ha]⟩
    · have hless : names.length < steps := by
        rw [List.length_append] at hsteps
        exact Nat.lt_of_succ_lt_succ hsteps
      obtain ⟨b, hb, hiff⟩ := ih hup (kind_of_liesIn hlies) hless
      refine ⟨b, ?_, by simp [ha, hiff]⟩
      rw [if_neg ha, if_neg hroot, h.lookup_up hk hlies]
      exact hb

/-- Within as many steps as there are slots, `isWithin` tells whether a directory is another
one or lies below it. -/
theorem isWithin_capacity (h : t.Sound) (anc : InodeId) (hk : (t.view dir).kind = .directory) :
    ∃ b, t.isWithin anc (t.capacity + 1) dir = .ok b
      ∧ (b = true ↔ ReflTransGen t.LiesIn dir anc) := by
  obtain ⟨names, hn⟩ := h.exists_path (hk.trans_ne (by decide))
  exact h.isWithin_eq hn hk (Nat.lt_succ_of_lt (h.length_path_lt hn))

end Sound

end Tree

end SectorFs

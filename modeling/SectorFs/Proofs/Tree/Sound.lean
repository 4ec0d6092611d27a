import Mathlib.Data.List.Nodup
import Mathlib.Logic.Relation
import SectorFs.Proofs.Tree.Steps

/-!
# Sound trees

A tree is *sound* (`Tree.Sound`) when its directories form one tree of names below the
root: every directory starts with `.` and `..`, every other name in it is valid and
occurs once, every inode in use but the root has exactly one proper name, `..` leads to
the directory that holds this name, and going up from anywhere ends at the root.  Each
count of links is the number of entries that name the inode.

The parts support each other.  That a name is proper, and the only one of its inode,
makes the directory above an inode unique (`Sound.liesIn_unique`), and that the links
are counted makes them as many as an edit takes away: two of a directory that holds
nothing (`Sound.links_of_bare`), one of a file (`Sound.links_of_file`).
-/

namespace SectorFs

namespace Entry

/-- A name that stands for something below the directory it is in. -/
def IsProper (e : Entry) : Prop := e.name ≠ "." ∧ e.name ≠ ".."

instance (e : Entry) : Decidable e.IsProper := inferInstanceAs (Decidable (_ ∧ _))

end Entry

theorem of_validateName {name : String} (h : validateName name = .ok ()) :
    name ≠ "" ∧ name ≠ "." ∧ name ≠ ".." ∧ '/' ∉ name.toList := by
  unfold validateName at h
  split at h
  · cases h
  · rename_i hn
    simp only [not_or] at hn
    exact ⟨hn.1, hn.2.1, hn.2.2.1, hn.2.2.2.1⟩

theorem isProper_of_validateName {e : Entry} (h : validateName e.name = .ok ()) : e.IsProper :=
  have ⟨_, hdot, hdots, _⟩ := of_validateName h
  ⟨hdot, hdots⟩

namespace Tree

/-- Number of entries that name an inode. -/
def timesNamed (t : Tree) (id : InodeId) : Nat := t.allEntries.countP fun e => e.inode = id

/-- Number of proper names of an inode. -/
def timesOwned (t : Tree) (id : InodeId) : Nat :=
  t.allEntries.countP fun e => e.IsProper ∧ e.inode = id

/-- A directory holds a proper name of an inode. -/
def LiesIn (t : Tree) (child dir : InodeId) : Prop :=
  ∃ e ∈ (t.view dir).entries, e.IsProper ∧ e.inode = child

/-- A directory lies in `parent` and holds `below`, besides `.` and `..`. -/
structure Lists (t : Tree) (dir parent : InodeId) (below : List Entry) : Prop where
  entries_eq : (t.view dir).entries = ⟨".", dir⟩ :: ⟨"..", parent⟩ :: below
  parent_kind : (t.view parent).kind = .directory
  of_root : dir = .root → parent = .root
  liesIn : dir ≠ .root → t.LiesIn dir parent
  names_nodup : (below.map Entry.name).Nodup
  names_valid : ∀ e ∈ below, validateName e.name = .ok ()

/-- The names of a tree hang together. -/
structure Sound (t : Tree) : Prop where
  root_kind : (t.view .root).kind = .directory
  cwd_kind : (t.view t.cwd).kind = .directory
  /-- A directory names itself first. -/
  self_entry : ∀ dir, (t.view dir).kind = .directory →
    (t.view dir).entries[0]? = some ⟨".", dir⟩
  /-- A directory names the one above it second. -/
  parent_entry : ∀ dir, (t.view dir).kind = .directory →
    ∃ parent, (t.view dir).entries[1]? = some ⟨"..", parent⟩
      ∧ (t.view parent).kind = .directory
      ∧ (dir = .root → parent = .root) ∧ (dir ≠ .root → t.LiesIn dir parent)
  names_nodup : ∀ dir, ((t.view dir).entries.map Entry.name).Nodup
  names_valid : ∀ dir, ∀ e ∈ (t.view dir).entries.drop 2, validateName e.name = .ok ()
  named_kind : ∀ dir, ∀ e ∈ (t.view dir).entries, (t.view e.inode).kind ≠ .free
  links_eq : ∀ id, (t.view id).kind ≠ .free → (t.view id).links.toNat = t.timesNamed id
  links_free : ∀ id, (t.view id).kind = .free → (t.view id).links = 0
  /-- The root has no proper name, -/
  root_owned : t.timesOwned .root = 0
  /-- and everything else has one. -/
  owned_once : ∀ id, (t.view id).kind ≠ .free → id ≠ .root → t.timesOwned id = 1
  reaches_root : ∀ id, (t.view id).kind ≠ .free → Relation.ReflTransGen t.LiesIn id .root

/-! ### Counting names -/

theorem timesNamed_eq (t : Tree) (id : InodeId) :
    t.timesNamed id = countEntries t.view fun e => e.inode = id :=
  t.countP_allEntries _

theorem timesOwned_eq (t : Tree) (id : InodeId) :
    t.timesOwned id = countEntries t.view fun e => e.IsProper ∧ e.inode = id :=
  t.countP_allEntries _

/-- There are far fewer entries than a count of links can tell. -/
theorem timesNamed_lt (t : Tree) (id : InodeId) : t.timesNamed id + 1 < 2 ^ 32 := by
  rw [timesNamed_eq]
  have h : countEntries t.view (fun e => e.inode = id) ≤ maxSlots * maxEntries :=
    overSlots_le fun dir => Nat.le_trans List.countP_le_length (t.length_entries_le dir)
  have : maxSlots * maxEntries + 1 < 2 ^ 32 := by decide
  omega

theorem countEntries_pos {t : Tree} {p : Entry → Bool} {dir : InodeId} {e : Entry}
    (he : e ∈ (t.view dir).entries) (hp : p e = true) : 0 < countEntries t.view p := by
  have hk := InodeView.kind_of_mem_entries he
  have hlt : dir.index < maxSlots := index_lt_maxSlots (hk.trans_ne (by decide))
  have := le_overSlots (fun id => (t.view id).entries.countP p) hlt
  exact Nat.lt_of_lt_of_le (List.countP_pos_iff.mpr ⟨e, he, hp⟩) this

theorem exists_of_countEntries_pos {view : InodeId → InodeView} {p : Entry → Bool}
    (h : 0 < countEntries view p) : ∃ dir, ∃ e ∈ (view dir).entries, p e = true := by
  obtain ⟨dir, hd⟩ := exists_of_overSlots_pos h
  obtain ⟨e, he, hp⟩ := List.countP_pos_iff.mp hd
  exact ⟨dir, e, he, hp⟩

theorem timesOwned_pos {t : Tree} {id dir : InodeId} (h : t.LiesIn id dir) :
    0 < t.timesOwned id := by
  obtain ⟨e, he, hp, hi⟩ := h
  rw [timesOwned_eq]
  exact countEntries_pos he (by simpa using ⟨hp, hi⟩)

theorem kind_of_liesIn {t : Tree} {id dir : InodeId} (h : t.LiesIn id dir) :
    (t.view dir).kind = .directory := by
  obtain ⟨e, he, -⟩ := h
  exact InodeView.kind_of_mem_entries he

/-! ### The entries of one directory -/

namespace Lists

variable {t : Tree} {dir up : InodeId} {below : List Entry}

theorem isProper (h : t.Lists dir up below) {e : Entry} (he : e ∈ below) : e.IsProper :=
  isProper_of_validateName (h.names_valid e he)

theorem mem_entries (h : t.Lists dir up below) {e : Entry} (he : e ∈ below) :
    e ∈ (t.view dir).entries := by
  rw [h.entries_eq]
  exact List.mem_cons_of_mem _ (List.mem_cons_of_mem _ he)

theorem index_of_isProper (h : t.Lists dir up below) {i : Nat} {e : Entry}
    (hi : (t.view dir).entries[i]? = some e) (hp : e.IsProper) :
    ∃ j, i = j + 2 ∧ below[j]? = some e := by
  rw [h.entries_eq] at hi
  rcases i with _ | _ | j
  · obtain rfl : _ = e := Option.some.inj hi
    exact absurd rfl hp.1
  · obtain rfl : _ = e := Option.some.inj hi
    exact absurd rfl hp.2
  · exact ⟨j, rfl, hi⟩

theorem mem_below (h : t.Lists dir up below) {e : Entry} (he : e ∈ (t.view dir).entries)
    (hp : e.IsProper) : e ∈ below := by
  obtain ⟨i, hi⟩ := List.mem_iff_getElem?.mp he
  obtain ⟨j, -, hj⟩ := h.index_of_isProper hi hp
  exact List.mem_iff_getElem?.mpr ⟨j, hj⟩

theorem liesIn_iff (h : t.Lists dir up below) {child : InodeId} :
    t.LiesIn child dir ↔ ∃ e ∈ below, e.inode = child := by
  constructor
  · rintro ⟨e, he, hp, hi⟩
    exact ⟨e, h.mem_below he hp, hi⟩
  · rintro ⟨e, he, hi⟩
    exact ⟨e, h.mem_entries he, h.isProper he, hi⟩

/-- A directory that nothing lies in has two entries. -/
theorem below_eq_nil_iff (h : t.Lists dir up below) :
    below = [] ↔ ¬∃ child, t.LiesIn child dir := by
  constructor
  · rintro rfl ⟨child, hc⟩
    obtain ⟨e, he, -⟩ := h.liesIn_iff.mp hc
    exact absurd he List.not_mem_nil
  · intro hb
    refine List.eq_nil_iff_forall_not_mem.mpr fun e he => hb ⟨e.inode, ?_⟩
    exact h.liesIn_iff.mpr ⟨e, he, rfl⟩

end Lists

namespace Sound

variable {t : Tree} {id dir : InodeId}

/-- The entries of a directory: itself, the one above it, and what is below it. -/
theorem lists (h : t.Sound) (hk : (t.view dir).kind = .directory) :
    ∃ parent below, t.Lists dir parent below := by
  obtain ⟨parent, h1, hpk, hr, hl⟩ := h.parent_entry dir hk
  have h0 := h.self_entry dir hk
  have hn := h.names_nodup dir
  have hv := h.names_valid dir
  rcases hes : (t.view dir).entries with _ | ⟨a, _ | ⟨b, below⟩⟩
  · rw [hes] at h0; cases h0
  · rw [hes] at h1; cases h1
  · rw [hes] at h0 h1 hn hv
    obtain rfl : a = ⟨".", dir⟩ := Option.some.inj h0
    obtain rfl : b = ⟨"..", parent⟩ := Option.some.inj h1
    exact ⟨parent, below, hes, hpk, hr, hl,
      (List.nodup_cons.mp (List.nodup_cons.mp hn).2).2, hv⟩

theorem root_not_liesIn (h : t.Sound) : ¬t.LiesIn .root dir := by
  intro hl
  have := timesOwned_pos hl
  rw [h.root_owned] at this
  exact absurd this (Nat.lt_irrefl 0)

theorem inUse_of_liesIn (h : t.Sound) (hl : t.LiesIn id dir) : (t.view id).kind ≠ .free := by
  obtain ⟨e, he, -, rfl⟩ := hl
  exact h.named_kind dir e he

theorem owned_of_liesIn (h : t.Sound) (hl : t.LiesIn id dir) : t.timesOwned id = 1 :=
  h.owned_once id (h.inUse_of_liesIn hl) fun he => h.root_not_liesIn (he ▸ hl)

/-- One directory holds the proper name of an inode. -/
theorem liesIn_unique (h : t.Sound) {a b : InodeId} (ha : t.LiesIn id a) (hb : t.LiesIn id b) :
    a = b := by
  by_contra hab
  have h1 := h.owned_of_liesIn ha
  rw [timesOwned_eq] at h1
  have hlt : ∀ {d}, t.LiesIn id d → d.index < maxSlots := fun hd =>
    index_lt_maxSlots ((kind_of_liesIn hd).trans_ne (by decide))
  have hpos : ∀ {d}, t.LiesIn id d →
      0 < (t.view d).entries.countP fun e => e.IsProper ∧ e.inode = id := by
    rintro d ⟨e, he, hp, hi⟩
    exact List.countP_pos_iff.mpr ⟨e, he, by simpa using ⟨hp, hi⟩⟩
  have := add_le_overSlots
    (fun d => (t.view d).entries.countP fun e => e.IsProper ∧ e.inode = id) (hlt ha) (hlt hb) hab
  have := hpos ha
  have := hpos hb
  rw [countEntries] at h1
  omega

/-- The directory named by `..` is the one that holds the proper name. -/
theorem parent_eq (h : t.Sound) {parent : InodeId} (hd : ⟨"..", parent⟩ ∈ (t.view id).entries)
    (hl : t.LiesIn id dir) : parent = dir := by
  have hk := InodeView.kind_of_mem_entries hd
  obtain ⟨p, below, hp⟩ := h.lists hk
  have hroot : id ≠ .root := fun hr => h.root_not_liesIn (hr ▸ hl)
  rw [hp.entries_eq] at hd
  rcases List.mem_cons.mp hd with hd | hd
  · exact absurd (congrArg Entry.name hd) (show ¬".." = "." by decide)
  · rcases List.mem_cons.mp hd with hd | hd
    · rw [show parent = p from congrArg Entry.inode hd]
      exact h.liesIn_unique (hp.liesIn hroot) hl
    · exact absurd rfl (hp.isProper hd).2

theorem entry_cases (h : t.Sound) {e : Entry} (he : e ∈ (t.view dir).entries) :
    e = ⟨".", dir⟩
      ∨ (e.name = ".." ∧ (dir = .root → e.inode = .root) ∧ (dir ≠ .root → t.LiesIn dir e.inode))
      ∨ e.IsProper := by
  obtain ⟨p, below, hp⟩ := h.lists (InodeView.kind_of_mem_entries he)
  rw [hp.entries_eq] at he
  rcases List.mem_cons.mp he with rfl | he
  · exact .inl rfl
  · rcases List.mem_cons.mp he with rfl | he
    · exact .inr (.inl ⟨rfl, hp.of_root, hp.liesIn⟩)
    · exact .inr (.inr (hp.isProper he))

theorem view_of_free (h : t.Sound) (hk : (t.view id).kind = .free) : t.view id = .unused := by
  have hlinks := h.links_free id hk
  generalize t.view id = v at hk hlinks
  obtain ⟨links, payload⟩ := v
  cases payload with
  | free => exact congrArg (InodeView.mk · .free) hlinks
  | file bytes => cases hk
  | directory entries => cases hk

theorem not_liesIn_self (h : t.Sound) : ¬t.LiesIn id id := by
  intro hl
  have hr := h.reaches_root id (h.inUse_of_liesIn hl)
  have hroot : id = .root := by
    induction hr using Relation.ReflTransGen.head_induction_on with
    | refl => rfl
    | head hxy _ ih => exact h.liesIn_unique hxy hl ▸ ih (h.liesIn_unique hxy hl ▸ hl)
  exact h.root_not_liesIn (hroot ▸ hl)

theorem timesNamed_of_free (h : t.Sound) (hk : (t.view id).kind = .free) :
    t.timesNamed id = 0 := by
  rw [timesNamed_eq]
  by_contra hne
  obtain ⟨d, e, he, hp⟩ := exists_of_countEntries_pos (Nat.pos_of_ne_zero hne)
  exact h.named_kind d e he (of_decide_eq_true hp ▸ hk)

theorem timesOwned_of_free (h : t.Sound) (hk : (t.view id).kind = .free) :
    t.timesOwned id = 0 := by
  rw [timesOwned_eq]
  by_contra hne
  obtain ⟨d, e, he, hp⟩ := exists_of_countEntries_pos (Nat.pos_of_ne_zero hne)
  exact h.named_kind d e he ((of_decide_eq_true hp).2 ▸ hk)

/-- In use or not, the links of an inode are the entries that name it. -/
theorem links_eq_timesNamed (h : t.Sound) (id : InodeId) :
    (t.view id).links.toNat = t.timesNamed id := by
  by_cases hk : (t.view id).kind = .free
  · rw [h.links_free id hk, h.timesNamed_of_free hk]
    rfl
  · exact h.links_eq id hk

theorem links_lt (h : t.Sound) (id : InodeId) : (t.view id).links.toNat + 1 < 2 ^ 32 :=
  h.links_eq_timesNamed id ▸ t.timesNamed_lt id

theorem links_ne_zero (h : t.Sound) (hl : t.LiesIn id dir) : (t.view id).links ≠ 0 := by
  obtain ⟨e, he, -, hi⟩ := hl
  intro hz
  have hn := h.links_eq_timesNamed id
  have := countEntries_pos (p := fun e => e.inode = id) he (by simpa using hi)
  rw [← timesNamed_eq, ← hn, hz] at this
  exact absurd this (Nat.lt_irrefl 0)

/-- The root has no proper name, nothing free has one, and everything else has one. -/
theorem timesOwned_eq_ite (h : t.Sound) (id : InodeId) :
    t.timesOwned id = if (t.view id).kind = .free ∨ id = .root then 0 else 1 := by
  by_cases hk : (t.view id).kind = .free
  · rw [if_pos (.inl hk), h.timesOwned_of_free hk]
  · by_cases hr : id = .root
    · rw [if_pos (.inr hr), hr, h.root_owned]
    · rw [if_neg (by tauto), h.owned_once id hk hr]

/-- What is to be shown of a tree to see that it is sound. -/
theorem of_lists {t : Tree} (hcwd : (t.view t.cwd).kind = .directory)
    (hroot : (t.view .root).kind = .directory)
    (hdirs : ∀ dir, (t.view dir).kind = .directory → ∃ parent below, t.Lists dir parent below)
    (hnamed : ∀ dir, ∀ e ∈ (t.view dir).entries, (t.view e.inode).kind ≠ .free)
    (hlinks : ∀ id, (t.view id).links.toNat = countEntries t.view fun e => e.inode = id)
    (howned : ∀ id, (countEntries t.view fun e => e.IsProper ∧ e.inode = id)
      = if (t.view id).kind = .free ∨ id = .root then 0 else 1)
    (hreach : ∀ id, (t.view id).kind ≠ .free → Relation.ReflTransGen t.LiesIn id .root) :
    t.Sound where
  root_kind := hroot
  cwd_kind := hcwd
  self_entry dir hk := by
    obtain ⟨parent, below, hp⟩ := hdirs dir hk
    rw [hp.entries_eq]
    rfl
  parent_entry dir hk := by
    obtain ⟨parent, below, hp⟩ := hdirs dir hk
    rw [hp.entries_eq]
    exact ⟨parent, rfl, hp.parent_kind, hp.of_root, hp.liesIn⟩
  names_nodup dir := by
    by_cases hk : (t.view dir).kind = .directory
    · obtain ⟨parent, below, hp⟩ := hdirs dir hk
      rw [hp.entries_eq, List.map_cons, List.map_cons, List.nodup_cons, List.nodup_cons]
      refine ⟨?_, ?_, hp.names_nodup⟩
      · intro hm
        rcases List.mem_cons.mp hm with hm | hm
        · exact absurd hm (show ¬"." = ".." by decide)
        · obtain ⟨e, he, hn⟩ := List.mem_map.mp hm
          exact (hp.isProper he).1 hn
      · intro hm
        obtain ⟨e, he, hn⟩ := List.mem_map.mp hm
        exact (hp.isProper he).2 hn
    · rw [InodeView.entries_of_kind_ne hk]
      exact List.nodup_nil
  names_valid dir e he := by
    obtain ⟨parent, below, hp⟩ :=
      hdirs dir (InodeView.kind_of_mem_entries (List.mem_of_mem_drop he))
    rw [hp.entries_eq] at he
    exact hp.names_valid e he
  named_kind := hnamed
  links_eq id _ := (hlinks id).trans (timesNamed_eq t id).symm
  links_free id hk := by
    have hz : (countEntries t.view fun e => e.inode = id) = 0 := by
      by_contra hne
      obtain ⟨d, e, he, hp⟩ := exists_of_countEntries_pos (Nat.pos_of_ne_zero hne)
      exact hnamed d e he (of_decide_eq_true hp ▸ hk)
    exact UInt32.toNat_inj.mp ((hlinks id).trans hz)
  root_owned := by
    rw [timesOwned_eq, howned, if_pos (.inr rfl)]
  owned_once id hk hr := by
    rw [timesOwned_eq, howned, if_neg (by tauto)]
  reaches_root := hreach

/-! ### Links of what an edit takes away -/

/-- Whatever lies in a directory leaves the directory two links or more. -/
theorem two_le_links_of_parent (h : t.Sound) (hl : t.LiesIn id dir)
    (hk : (t.view id).kind = .directory) : 2 ≤ (t.view dir).links.toNat := by
  obtain ⟨up, below, hp⟩ := h.lists hk
  have hroot : id ≠ .root := fun hr => h.root_not_liesIn (hr ▸ hl)
  have hup : up = dir := h.liesIn_unique (hp.liesIn hroot) hl
  have hne : id ≠ dir := fun he => h.not_liesIn_self (he ▸ hl)
  have hdk := kind_of_liesIn hl
  obtain ⟨up', below', hq⟩ := h.lists hdk
  rw [h.links_eq_timesNamed, timesNamed_eq]
  have hsum := add_le_overSlots (fun d => (t.view d).entries.countP fun e => e.inode = dir)
    (index_lt_maxSlots (hk.trans_ne (by decide))) (index_lt_maxSlots (hdk.trans_ne (by decide)))
    hne
  have h1 : 0 < (t.view id).entries.countP fun e => e.inode = dir :=
    List.countP_pos_iff.mpr ⟨⟨"..", up⟩, by rw [hp.entries_eq]; simp, by simp [hup]⟩
  have h2 : 0 < (t.view dir).entries.countP fun e => e.inode = dir :=
    List.countP_pos_iff.mpr ⟨⟨".", dir⟩, by rw [hq.entries_eq]; simp, by simp⟩
  rw [countEntries]
  omega

/-- Only a directory is named by `.` and `..`. -/
theorem links_of_file (h : t.Sound) (hk : (t.view id).kind = .file) :
    (t.view id).links = 1 := by
  have hroot : id ≠ .root := by
    rintro rfl
    rw [h.root_kind] at hk
    cases hk
  have hone := h.owned_once id (hk.trans_ne (by decide)) hroot
  rw [timesOwned_eq] at hone
  apply UInt32.toNat_inj.mp
  rw [h.links_eq_timesNamed, timesNamed_eq]
  refine Eq.trans (congrArg overSlots (funext fun d => ?_)) hone
  refine List.countP_congr fun e he => ?_
  have hproper : e.inode = id → e.IsProper := by
    rintro rfl
    rcases h.entry_cases he with rfl | ⟨-, hr, hn⟩ | hp
    · rw [InodeView.kind_of_mem_entries he] at hk
      cases hk
    · by_cases hd : d = .root
      · exact absurd (hr hd) hroot
      · rw [kind_of_liesIn (hn hd)] at hk
        cases hk
    · exact hp
  simp only [decide_eq_true_eq]
  exact ⟨fun hi => ⟨hproper hi, hi⟩, And.right⟩

/-- A directory that holds nothing is named by itself and by the directory above. -/
theorem links_of_bare (h : t.Sound) (hk : (t.view id).kind = .directory) (hroot : id ≠ .root)
    (hb : ¬∃ child, t.LiesIn child id) : (t.view id).links = 2 := by
  have hone := h.owned_once id (hk.trans_ne (by decide)) hroot
  have hlt := index_lt_maxSlots (hk.trans_ne (by decide))
  obtain ⟨up, below, hp⟩ := h.lists hk
  have hbelow : below = [] := hp.below_eq_nil_iff.mpr hb
  have hup : up ≠ id := fun he => h.not_liesIn_self (he ▸ hp.liesIn hroot)
  -- all names but the `.` of the directory itself are proper ones
  have hsum := overSlots_update (g := fun d => (t.view d).entries.countP fun e => e.inode = id)
    hlt 0
  have hrest : Function.update (fun d => (t.view d).entries.countP fun e => e.inode = id) id 0
      = fun d => (t.view d).entries.countP fun e => e.IsProper ∧ e.inode = id := by
    funext d
    by_cases hd : d = id
    · subst hd
      rw [Function.update_self, hp.entries_eq, hbelow]
      simp [Entry.IsProper]
    · rw [Function.update_of_ne hd]
      refine List.countP_congr fun e he => ?_
      have hproper : e.inode = id → e.IsProper := by
        intro hi
        rcases h.entry_cases he with rfl | ⟨-, hr, hn⟩ | hp
        · exact absurd hi hd
        · by_cases hdr : d = .root
          · exact absurd (hi.symm.trans (hr hdr)) hroot
          · exact absurd ⟨d, hi ▸ hn hdr⟩ hb
        · exact hp
      simp only [decide_eq_true_eq]
      exact ⟨fun hi => ⟨hproper hi, hi⟩, And.right⟩
  have hself : ((t.view id).entries.countP fun e => e.inode = id) = 1 := by
    rw [hp.entries_eq, hbelow]
    simp [hup]
  rw [hrest] at hsum
  rw [timesOwned_eq, countEntries] at hone
  apply UInt32.toNat_inj.mp
  rw [h.links_eq_timesNamed, timesNamed_eq, countEntries, show (2 : UInt32).toNat = 2 from rfl]
  omega

end Sound

end Tree

end SectorFs

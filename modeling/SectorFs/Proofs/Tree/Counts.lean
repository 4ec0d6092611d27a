import SectorFs.Proofs.Tree.Namespace

/-!
# Counts of links under single entries

`addEntry`, `removeEntry` and `reparent` keep the links of inodes along with the entries that
name them.  An inode that loses its last link is freed with all that it holds, and the entries of
a directory that goes this way are taken out of no count: what they named still counts them.

`Tree.Counted` is the part of soundness that is about counts alone.  `Tree.Trades` says what one
entry that comes, goes or changes does to the entries of a counted tree and to the counts, and
`counted_iff_nothing_lost` that the counts stay right just when no entry was lost with a directory.
-/

namespace SectorFs

open Attempt

namespace Tree

variable {t u : Tree} {dir id : InodeId} {name : String}

/-- The links of all inodes are counted, and no entry names a free slot. -/
structure Counted (t : Tree) : Prop where
  links_eq : ∀ id, (t.view id).kind ≠ .free → (t.view id).links.toNat = t.timesNamed id
  named_kind : ∀ dir, ∀ e ∈ (t.view dir).entries, (t.view e.inode).kind ≠ .free

theorem Sound.counted (h : t.Sound) : t.Counted := ⟨h.links_eq, h.named_kind⟩

/-- `u` is `t` with the entries that came and without those that went, whose link to `id` was
dropped.  Entries are lost with `id` itself, and what they named still counts them. -/
structure Trades (t u : Tree) (id : InodeId) (came went lost : List Entry) : Prop where
  perm_entries : (came ++ t.allEntries).Perm (went ++ (lost ++ u.allEntries))
  links_eq : ∀ x, (u.view x).kind ≠ .free →
    (u.view x).links.toNat = u.timesNamed x + lost.countP (·.inode = x)
  named_kind : ∀ dir, ∀ e ∈ (u.view dir).entries, (u.view e.inode).kind ≠ .free
  lost_kind : ∀ e ∈ lost, (u.view e.inode).kind ≠ .free
  lost_eq : (u.view id).kind ≠ .free → lost = []
  lost_held : ∀ e ∈ lost, e ∈ came ++ (t.view id).entries

theorem Trades.counted_iff {came went lost : List Entry} (h : Trades t u id came went lost) :
    u.Counted ↔ lost = [] := by
  constructor
  · intro hu
    refine List.eq_nil_iff_forall_not_mem.mpr fun e he => ?_
    have hin := h.lost_kind e he
    have hpos : 0 < lost.countP (·.inode = e.inode) :=
      List.countP_pos_iff.mpr ⟨e, he, by simp⟩
    have := h.links_eq e.inode hin
    rw [hu.links_eq e.inode hin] at this
    omega
  · rintro rfl
    exact ⟨fun x hx => h.links_eq x hx, h.named_kind⟩

/-! ### Dropping a link -/

/-- A view that counts one entry more for `id` than there is, before the link is dropped. -/
structure Owes (view : InodeId → InodeView) (id : InodeId) : Prop where
  in_use : (view id).kind ≠ .free
  index_lt : ∀ x, (view x).kind ≠ .free → x.index < maxSlots
  links_eq : ∀ x, (view x).kind ≠ .free → (view x).links.toNat
    = (countEntries view fun e => e.inode = x) + if id = x then 1 else 0
  named_kind : ∀ dir, ∀ e ∈ (view dir).entries, (view e.inode).kind ≠ .free

namespace Owes

variable {view : InodeId → InodeView}

/-- Where the last link is dropped there is no entry left that names the inode. -/
theorem not_named (h : Owes view id) (hlast : (view id).unlink.links = 0) {e : Entry}
    (he : e ∈ (view dir).entries) : e.inode ≠ id := by
  intro hid
  have hlt := h.index_lt dir ((InodeView.kind_of_mem_entries he).trans_ne (by decide))
  have hpos : 0 < (view dir).entries.countP fun e => e.inode = id :=
    List.countP_pos_iff.mpr ⟨e, he, by simpa using hid⟩
  have hle := le_overSlots (fun d => (view d).entries.countP fun e => e.inode = id) hlt
  have hlinks := h.links_eq id h.in_use
  rw [if_pos rfl, countEntries] at hlinks
  have := InodeView.unlink_links_eq_zero_iff.mp hlast
  omega

/-- The inode stays, with a link less. -/
theorem drop_of_stays (h : Owes view id) (hstay : ¬((view id).unlink.links = 0 ∧ id ≠ .root))
    (hu : u.view = Function.update view id ((view id).drop id)) :
    (∀ p, countEntries u.view p = countEntries view p) ∧ u.Counted := by
  rw [InodeView.drop_of_kind_ne h.in_use, if_neg hstay] at hu
  have hcount : ∀ p, countEntries u.view p = countEntries view p := by
    intro p
    have := countEntries_update view (h.index_lt id h.in_use) (view id).unlink p
    rw [InodeView.entries_unlink, ← hu] at this
    exact Nat.add_right_cancel this
  have hsame : ∀ x, (u.view x).kind = (view x).kind ∧ (u.view x).entries = (view x).entries := by
    intro x
    rw [hu]
    by_cases hx : x = id
    · rw [hx, Function.update_self]
      exact ⟨InodeView.kind_unlink _, InodeView.entries_unlink _⟩
    · rw [Function.update_of_ne hx]
      exact ⟨rfl, rfl⟩
  refine ⟨hcount, fun x hx => ?_, fun d e he => ?_⟩
  · rw [(hsame x).1] at hx
    have hlinks := h.links_eq x hx
    rw [timesNamed_eq, hcount]
    by_cases hid : id = x
    · subst hid
      rw [if_pos rfl] at hlinks
      rw [hu, Function.update_self, InodeView.toNat_unlink]
      omega
    · rw [if_neg hid, Nat.add_zero] at hlinks
      rw [hu, Function.update_of_ne fun he => hid he.symm]
      exact hlinks
  · rw [(hsame d).2] at he
    rw [(hsame e.inode).1]
    exact h.named_kind d e he

/-- The inode goes, and its entries with it. -/
theorem drop_of_goes (h : Owes view id) (hgoes : (view id).unlink.links = 0 ∧ id ≠ .root)
    (hu : u.view = Function.update view id ((view id).drop id)) :
    (∀ p, countEntries u.view p + (view id).entries.countP p = countEntries view p)
      ∧ (∀ x, (u.view x).kind ≠ .free →
        (u.view x).links.toNat = u.timesNamed x + (view id).entries.countP (·.inode = x))
      ∧ (∀ d, ∀ e ∈ (u.view d).entries, (u.view e.inode).kind ≠ .free)
      ∧ (∀ e ∈ (view id).entries, (u.view e.inode).kind ≠ .free) ∧ (u.view id).kind = .free := by
  rw [InodeView.drop_of_kind_ne h.in_use, if_pos hgoes] at hu
  have hgone : u.view id = .unused := by rw [hu, Function.update_self]
  have hother : ∀ x, x ≠ id → u.view x = view x := fun x hx => by rw [hu, Function.update_of_ne hx]
  have hcount : ∀ p, countEntries u.view p + (view id).entries.countP p
      = countEntries view p := by
    intro p
    have := countEntries_update view (h.index_lt id h.in_use) .unused p
    rwa [InodeView.entries_unused, List.countP_nil, Nat.add_zero, ← hu] at this
  have hstill : ∀ d, ∀ e ∈ (view d).entries, (u.view e.inode).kind ≠ .free := by
    intro d e he
    rw [hother _ (h.not_named hgoes.1 he)]
    exact h.named_kind d e he
  refine ⟨hcount, fun x hx => ?_, fun d e he => ?_, hstill id, by rw [hgone]; rfl⟩
  · have hid : x ≠ id := by
      rintro rfl
      rw [hgone] at hx
      exact hx rfl
    rw [hother x hid] at hx ⊢
    rw [h.links_eq x hx, if_neg fun he => hid he.symm, Nat.add_zero, timesNamed_eq]
    exact (hcount _).symm
  · by_cases hd : d = id
    · rw [hd, hgone] at he
      exact absurd he List.not_mem_nil
    · rw [hother d hd] at he
      exact hstill d e he

/-- What the entries become when the link is dropped that no entry is for. -/
theorem trades (h : Owes view id) (hu : u.view = Function.update view id ((view id).drop id))
    {came went : List Entry}
    (hcount : ∀ p, countEntries view p + went.countP p = countEntries t.view p + came.countP p)
    (hheld : ∀ e ∈ (view id).entries, e ∈ came ++ (t.view id).entries) :
    ∃ lost, Trades t u id came went lost := by
  have perm {lost : List Entry}
      (hlost : ∀ p, countEntries u.view p + lost.countP p = countEntries view p) :
      (came ++ t.allEntries).Perm (went ++ (lost ++ u.allEntries)) := by
    refine List.perm_iff_count.mpr fun a => ?_
    have h1 := hcount (· == a)
    rw [← hlost, ← countP_allEntries, ← countP_allEntries] at h1
    rw [List.count_append, List.count_append, List.count_append]
    simp only [List.count]
    omega
  by_cases hgoes : (view id).unlink.links = 0 ∧ id ≠ .root
  · obtain ⟨hlost, hlinks, hnamed, hkind, hfree⟩ := h.drop_of_goes hgoes hu
    exact ⟨_, perm hlost, hlinks, hnamed, hkind, fun hk => absurd hfree hk, hheld⟩
  · obtain ⟨hsame, hcounted⟩ := h.drop_of_stays hgoes hu
    have hlost : ∀ p, countEntries u.view p + [].countP p = countEntries view p := by
      intro p
      rw [List.countP_nil, Nat.add_zero, hsame]
    exact ⟨[], perm hlost, hcounted.links_eq, hcounted.named_kind,
      fun e he => absurd he List.not_mem_nil, fun _ => rfl, fun e he => absurd he List.not_mem_nil⟩

end Owes

/-! ### Single entries -/

/-- A view of `t` with other names in a directory, and a link more for each that came. -/
structure Relists (t : Tree) (view : InodeId → InodeView) (dir : InodeId)
    (came went names : List Entry) : Prop where
  dir_kind : (t.view dir).kind = .directory
  kind_eq : ∀ x, (view x).kind = (t.view x).kind
  links_eq : ∀ x, (t.view x).kind ≠ .free →
    (view x).links.toNat = (t.view x).links.toNat + came.countP (·.inode = x)
  entries_eq : ∀ x, (view x).entries = if x = dir then names else (t.view x).entries
  perm_names : (came ++ (t.view dir).entries).Perm (went ++ names)
  came_kind : ∀ e ∈ came, (t.view e.inode).kind ≠ .free

namespace Relists

variable {view : InodeId → InodeView} {came went names : List Entry}

theorem countEntries_add (r : Relists t view dir came went names) (p : Entry → Bool) :
    countEntries view p + went.countP p = countEntries t.view p + came.countP p := by
  have hlt := index_lt_maxSlots (r.dir_kind.trans_ne (by decide))
  have hview : countEntries view p
      = countEntries (Function.update t.view dir ⟨0, .directory names⟩) p := by
    refine congrArg overSlots (funext fun x => congrArg (List.countP p) ?_)
    rw [r.entries_eq]
    by_cases hx : x = dir
    · rw [if_pos hx, hx, Function.update_self]
      rfl
    · rw [if_neg hx, Function.update_of_ne hx]
  have hset := countEntries_update t.view hlt ⟨0, .directory names⟩ p
  rw [← hview, show (⟨0, .directory names⟩ : InodeView).entries = names from rfl] at hset
  have hnames := r.perm_names.countP_eq p
  rw [List.countP_append, List.countP_append] at hnames
  omega

theorem links_of_counted (h : t.Counted) (r : Relists t view dir came went names) {x : InodeId}
    (hx : (view x).kind ≠ .free) : (view x).links.toNat
      = (countEntries view fun e => e.inode = x) + went.countP (·.inode = x) := by
  rw [r.kind_eq] at hx
  rw [r.links_eq x hx, h.links_eq x hx, timesNamed_eq]
  exact (r.countEntries_add _).symm

theorem mem_of_mem (r : Relists t view dir came went names) {x : InodeId} {e : Entry}
    (he : e ∈ (view x).entries) : e ∈ came ++ (t.view x).entries := by
  rw [r.entries_eq] at he
  split at he
  · rename_i hx
    rw [hx]
    exact r.perm_names.mem_iff.mpr (List.mem_append_right _ he)
  · exact List.mem_append_right _ he

theorem named_of_counted (h : t.Counted) (r : Relists t view dir came went names) :
    ∀ d, ∀ e ∈ (view d).entries, (view e.inode).kind ≠ .free := by
  intro d e he
  rw [r.kind_eq]
  rcases List.mem_append.mp (r.mem_of_mem he) with hc | ht
  · exact r.came_kind e hc
  · exact h.named_kind d e ht

theorem owes (h : t.Counted) {e : Entry} (r : Relists t view dir came [e] names)
    (hin : (t.view e.inode).kind ≠ .free) : Owes view e.inode where
  in_use := by rwa [r.kind_eq]
  index_lt x hx := by
    rw [r.kind_eq] at hx
    exact index_lt_maxSlots hx
  links_eq x hx := by
    rw [r.links_of_counted h hx, List.countP_singleton]
    simp
  named_kind := r.named_of_counted h

end Relists

theorem view_update_names (hk : (t.view dir).kind = .directory) {view : InodeId → InodeView}
    {names : List Entry}
    (hv : view = Function.update t.view dir ⟨(t.view dir).links, .directory names⟩) (x : InodeId) :
    (view x).kind = (t.view x).kind ∧ (view x).links = (t.view x).links
      ∧ (view x).entries = if x = dir then names else (t.view x).entries := by
  rw [hv]
  by_cases hx : x = dir
  · rw [if_pos hx, hx, Function.update_self, hk]
    exact ⟨rfl, rfl, rfl⟩
  · rw [if_neg hx, Function.update_of_ne hx]
    exact ⟨rfl, rfl, rfl⟩

/-- An entry goes, and its link is still there. -/
theorem relists_of_removed (hk : (t.view dir).kind = .directory) {view : InodeId → InodeView}
    {went names : List Entry}
    (hv : view = Function.update t.view dir ⟨(t.view dir).links, .directory names⟩)
    (hperm : (t.view dir).entries.Perm (went ++ names)) : Relists t view dir [] went names := by
  have hview := view_update_names hk hv
  refine ⟨hk, fun x => (hview x).1, fun x _ => ?_, fun x => (hview x).2.2, hperm,
    fun e he => absurd he List.not_mem_nil⟩
  rw [(hview x).2.1, List.countP_nil, Nat.add_zero]

/-- An entry comes, and a link with it. -/
theorem relists_of_linked (h : t.Counted) (hk : (t.view dir).kind = .directory)
    {view : InodeId → InodeView} {went names : List Entry} {e : Entry}
    (hv : view = Function.update t.view dir ⟨(t.view dir).links, .directory names⟩)
    (hin : (t.view e.inode).kind ≠ .free)
    (hperm : ([e] ++ (t.view dir).entries).Perm (went ++ names)) :
    Relists t (Function.update view e.inode (view e.inode).link) dir [e] went names := by
  have hview := view_update_names hk hv
  have hfits : (t.view e.inode).links.toNat + 1 < 2 ^ 32 :=
    h.links_eq e.inode hin ▸ t.timesNamed_lt e.inode
  refine ⟨hk, fun x => ?_, fun x _ => ?_, fun x => ?_, hperm, fun e' he => ?_⟩
  · rw [← (hview x).1]
    by_cases hx : x = e.inode
    · rw [hx, Function.update_self, InodeView.kind_link]
    · rw [Function.update_of_ne hx]
  · rw [List.countP_singleton, ← (hview x).2.1]
    by_cases hx : e.inode = x
    · subst hx
      rw [Function.update_self, InodeView.toNat_link (by rwa [(hview e.inode).2.1])]
      simp
    · rw [Function.update_of_ne fun he => hx he.symm]
      simp [hx]
  · rw [← (hview x).2.2]
    by_cases hx : x = e.inode
    · rw [hx, Function.update_self, InodeView.entries_link]
    · rw [Function.update_of_ne hx]
  · rwa [List.mem_singleton.mp he]

namespace Counted

theorem addEntry (h : t.Counted) {e : Entry} (hu : Tree.addEntry dir e t = .ok () u) :
    u.Counted := by
  obtain ⟨hk, hin, -, -, -, -, v, hv, huv⟩ := addEntry_ok hu
  have r : Relists t u.view dir [e] [] ((t.view dir).entries ++ [e]) :=
    huv ▸ relists_of_linked h hk hv hin List.perm_append_comm
  refine ⟨fun x hx => ?_, r.named_of_counted h⟩
  rw [r.links_of_counted h hx, List.countP_nil, Nat.add_zero, timesNamed_eq]

theorem removeEntry (h : t.Counted) (hu : Tree.removeEntry dir name t = .ok id u) :
    ∃ lost, Trades t u id [] [⟨name, id⟩] lost := by
  obtain ⟨hk, -, -, i, v, -, hget, hv, huv⟩ := removeEntry_ok hu
  have r : Relists t v dir [] [⟨name, id⟩] (takeOut (t.view dir).entries i) :=
    relists_of_removed hk hv (perm_takeOut hget)
  exact (r.owes h (h.named_kind dir _ (List.mem_of_getElem? hget))).trades huv r.countEntries_add
    fun e => r.mem_of_mem

theorem reparent (h : t.Counted) {parent : InodeId} (hu : Tree.reparent dir parent t = .ok () u) :
    ∃ old lost, t.lookup dir ".." = .ok old
      ∧ Trades t u old [⟨"..", parent⟩] [⟨"..", old⟩] lost := by
  obtain ⟨hpk, hk, -, -, i, old, v, w, hfind, hget, hv, hw, huw⟩ := reparent_ok hu
  have hin : (t.view parent).kind ≠ .free := hpk.trans_ne (by decide)
  have r : Relists t w dir [⟨"..", parent⟩] [⟨"..", old⟩]
      ((t.view dir).entries.set i ⟨"..", parent⟩) :=
    hw ▸ relists_of_linked (e := ⟨"..", parent⟩) h hk hv hin (perm_set hget ⟨"..", parent⟩).symm
  have hold := h.named_kind dir _ (List.mem_of_getElem? hget)
  obtain ⟨lost, htrades⟩ := (r.owes h hold).trades huw r.countEntries_add
    fun e => r.mem_of_mem
  exact ⟨old, lost, lookup_of_entry hfind hget, htrades⟩

end Counted

/-- Adding an entry keeps the counts right, and taking one out or changing `..` does just when the
inode that loses the link does not go with entries of its own. -/
theorem counted_iff_nothing_lost (h : t.Counted) :
    (∀ dir e u, addEntry dir e t = .ok () u → u.Counted)
      ∧ (∀ dir name id u, removeEntry dir name t = .ok id u →
        ∃ lost, Trades t u id [] [⟨name, id⟩] lost ∧ (u.Counted ↔ lost = []))
      ∧ ∀ dir parent u, reparent dir parent t = .ok () u →
        ∃ old lost, t.lookup dir ".." = .ok old
          ∧ Trades t u old [⟨"..", parent⟩] [⟨"..", old⟩] lost ∧ (u.Counted ↔ lost = []) := by
  refine ⟨fun dir e u => h.addEntry, fun dir name id u hu => ?_, fun dir parent u hu => ?_⟩
  · obtain ⟨lost, htrades⟩ := h.removeEntry hu
    exact ⟨lost, htrades, htrades.counted_iff⟩
  · obtain ⟨old, lost, hold, htrades⟩ := h.reparent hu
    exact ⟨old, lost, hold, htrades, htrades.counted_iff⟩

/-- A directory that lost its name keeps its `.` and `..`, and one link. -/
theorem counted_detached :
    ((Tree.removeEntry .root "a").after (run [.mkdir "/a"] .empty)).Counted := by
  have h : (run [.mkdir "/a"] .empty).Counted := ((sound_blank ..).calls _).counted
  obtain ⟨id, u, hu, hid⟩ := succeeds_iff.mp
    (show (Tree.removeEntry .root "a").succeeds (run [.mkdir "/a"] .empty)
      (fun id u => (u.view id).kind = .directory) = true by decide +kernel)
  obtain ⟨lost, htrades⟩ := h.removeEntry hu
  rw [after_of_ok hu]
  exact htrades.counted_iff.mpr (htrades.lost_eq ((of_decide_eq_true hid).trans_ne (by decide)))

theorem counted_iff_nothing_lost_detached :
    let t := (Tree.removeEntry .root "a").after (run [.mkdir "/a"] .empty)
    t.Counted ∧ ∃ u lost, Tree.removeEntry ⟨1⟩ "." t = .ok ⟨1⟩ u
      ∧ Trades t u ⟨1⟩ [] [⟨".", ⟨1⟩⟩] lost ∧ (u.Counted ↔ lost = []) := by
  intro t
  obtain ⟨id, u, hu, hid⟩ := succeeds_iff.mp
    (show (Tree.removeEntry ⟨1⟩ ".").succeeds t (fun id _ => id = ⟨1⟩) = true by decide +kernel)
  obtain rfl : id = ⟨1⟩ := of_decide_eq_true hid
  obtain ⟨lost, hlost⟩ := (counted_iff_nothing_lost counted_detached).2.1 ⟨1⟩ "." ⟨1⟩ u hu
  exact ⟨counted_detached, u, lost, hu, hlost⟩

/-- Once the `.` goes too the directory is freed with its `..`, and the root counts a link that
nothing is for. -/
theorem removeEntry_miscounts :
    let t := (Tree.removeEntry .root "a").after (run [.mkdir "/a"] .empty)
    t.Counted ∧ ∃ u, Tree.removeEntry ⟨1⟩ "." t = .ok ⟨1⟩ u
      ∧ (u.view .root).links = 3 ∧ u.timesNamed .root = 2 ∧ ¬u.Counted := by
  intro t
  obtain ⟨id, u, hu, hid⟩ := succeeds_iff.mp
    (show (Tree.removeEntry ⟨1⟩ ".").succeeds t (fun id u => id = ⟨1⟩
      && (u.view .root).kind = .directory && (u.view .root).links = 3
      && u.timesNamed .root = 2) = true by decide +kernel)
  simp only [Bool.and_eq_true, decide_eq_true_eq] at hid
  obtain ⟨⟨⟨rfl, hk⟩, hlinks⟩, htimes⟩ := hid
  refine ⟨counted_detached, u, hu, hlinks, htimes, fun h => ?_⟩
  have := h.links_eq .root (hk.trans_ne (by decide))
  rw [hlinks, htimes] at this
  exact absurd this (by decide)

end Tree

end SectorFs

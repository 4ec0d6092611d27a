import SectorFs.Proofs.Tree.Namespace

/-!
# The path of the working directory

`workingPath` goes up by `..` and asks each directory for the name of the one below.  In a
sound tree these are the names of the one path that leads down to the working directory
(`Sound.namesAbove_eq`), there are fewer of them than the walk may take steps, and each can be
put between slashes and found again (`Path.components_below`).  So the path that comes out
leads back to where it was asked for (`workingPath_of_calls`).
-/

namespace SectorFs

open Attempt

/-! ### Names between slashes -/

namespace Path

/-- A path from the root that goes straight down, and ends with a slash only if it is one. -/
structure Normal (path : String) : Prop where
  absolute : isAbsolute path = true
  parts : path ≠ "/" → ∀ part ∈ (path.toList.splitOn '/').tail,
    part ≠ [] ∧ part ≠ ['.'] ∧ part ≠ ['.', '.']
  last : path ≠ "/" → path.toList.getLast? ≠ some '/'

/-- The path of names that lead down from the root, with a slash before each. -/
def below (names : List String) : String := names.foldl (fun path name => path ++ "/" ++ name) ""

theorem below_concat (names : List String) (name : String) :
    below (names ++ [name]) = below names ++ "/" ++ name := by
  rw [below, List.foldl_append]
  rfl

theorem toList_below (names : List String) :
    (below names).toList = names.flatMap fun name => '/' :: name.toList := by
  induction names using List.reverseRecOn with
  | nil => rfl
  | append_singleton names name ih =>
    rw [below_concat, String.toList_append, String.toList_append, ih, List.flatMap_append,
      List.flatMap_singleton, List.append_assoc]
    rfl

theorem isAbsolute_below {names : List String} (h : names ≠ []) :
    isAbsolute (below names) = true := by
  obtain ⟨name, rest, rfl⟩ := List.exists_cons_of_ne_nil h
  rw [isAbsolute, toList_below, List.flatMap_cons]
  rfl

theorem splitOn_below {names : List String} (h : ∀ name ∈ names, '/' ∉ name.toList) :
    (below names).toList.splitOn '/' = [] :: names.map String.toList := by
  induction names using List.reverseRecOn with
  | nil => rfl
  | append_singleton names name ih =>
    have hname : ∀ c ∈ name.toList, (c == '/') = false := by
      intro c hc
      refine beq_false_of_ne fun he => h name (by simp) (he ▸ hc)
    have hlist : (below (names ++ [name])).toList
        = (below names).toList ++ '/' :: name.toList := by
      rw [below_concat, String.append_assoc, String.toList_append, String.toList_append]
      rfl
    have hbefore := ih fun n hn => h n (List.mem_append_left _ hn)
    rw [List.splitOn] at hbefore
    rw [hlist, List.splitOn, List.splitOnP_append_cons (p := (· == '/')) _ _ rfl, hbefore,
      List.splitOnP_eq_singleton hname, List.map_append]
    rfl

/-- Names that can be told apart by slashes are the names in their path. -/
theorem components_below {names : List String} (h : ∀ name ∈ names, validateName name = .ok ()) :
    components (below names) = names := by
  have hslash : ∀ name ∈ names, '/' ∉ name.toList := fun n hn => (of_validateName (h n hn)).2.2.2
  have hfilter : (names.map String.toList).filter (fun part => !part.isEmpty)
      = names.map String.toList := by
    refine List.filter_eq_self.mpr fun part hpart => ?_
    obtain ⟨name, hn, rfl⟩ := List.mem_map.mp hpart
    simpa using (of_validateName (h name hn)).1
  rw [components, splitOn_below hslash, List.filter_cons_of_neg (by simp), hfilter, List.map_map]
  simp [Function.comp_def]

theorem normal_root : Normal "/" where
  absolute := rfl
  parts h := absurd rfl h
  last h := absurd rfl h

theorem normal_below {names : List String} (hne : names ≠ [])
    (h : ∀ name ∈ names, validateName name = .ok ()) : Normal (below names) where
  absolute := isAbsolute_below hne
  parts _ part hpart := by
    rw [splitOn_below fun n hn => (of_validateName (h n hn)).2.2.2, List.tail_cons] at hpart
    obtain ⟨name, hn, rfl⟩ := List.mem_map.mp hpart
    obtain ⟨hempty, hdot, hdots, -⟩ := of_validateName (h name hn)
    have hto : ∀ s : String, name ≠ s → name.toList ≠ s.toList := fun s hs he =>
      hs (String.toList_injective he)
    exact ⟨hto "" hempty, hto "." hdot, hto ".." hdots⟩
  last _ := by
    obtain ⟨before, name, rfl⟩ := (List.eq_nil_or_concat' names).resolve_left hne
    obtain ⟨hempty, -, -, hslash⟩ := of_validateName (h name (by simp))
    rw [toList_below, List.flatMap_append, List.flatMap_singleton]
    intro hlast
    have hmem : '/' ∈ name.toList := by
      have hne : name.toList ≠ [] := fun he => hempty (String.toList_eq_nil_iff.mp he)
      rw [List.getLast?_append_of_ne_nil _ (by simp), List.getLast?_cons_of_ne_nil hne] at hlast
      exact List.mem_of_getLast? hlast
    exact hslash hmem

end Path

namespace Tree

variable {t : Tree} {dir node : InodeId} {names : List String} {name : String}

theorem namesAbove_root (t : Tree) (steps : Nat) (below : List String) :
    t.namesAbove steps .root below = .ok below := by
  unfold namesAbove
  exact if_pos rfl

namespace Sound

/-! ### Names on the way -/

theorem validateName_of_lookup (h : t.Sound) (hn : name ≠ "." ∧ name ≠ "..")
    (hl : t.lookup dir name = .ok node) : validateName name = .ok () := by
  have hm := h.lookup_eq_ok_iff.mp hl
  obtain ⟨up, below, hlist⟩ := h.lists (InodeView.kind_of_mem_entries hm)
  exact hlist.names_valid _ (hlist.mem_below hm hn)

theorem validateName_of_path (h : t.Sound) (hp : t.IsPathTo names node) :
    ∀ name ∈ names, validateName name = .ok () := by
  induction names using List.reverseRecOn generalizing node with
  | nil => exact fun _ hn => absurd hn List.not_mem_nil
  | append_singleton names last ih =>
    obtain ⟨up, hup, hlast, hl⟩ := isPathTo_concat_iff.mp hp
    intro name hn
    rcases List.mem_append.mp hn with hn | hn
    · exact ih hup name hn
    · rw [List.mem_singleton.mp hn]
      exact h.validateName_of_lookup hlast hl

/-- The name of an inode is found by its number, since it has no other one. -/
theorem nameIn_eq (h : t.Sound) (hn : name ≠ "." ∧ name ≠ "..")
    (hl : t.lookup dir name = .ok node) : t.nameIn dir node = .ok name := by
  obtain ⟨es, hes, -⟩ := lookup_ok hl
  obtain ⟨-, b, -, -, hb, rfl⟩ := entries_of_view hes
  have hentries : (t.view dir).entries = b.items.toList := by rw [InodeView.entries, hes]; rfl
  have hm := h.lookup_eq_ok_iff.mp hl
  have hspecial := not_special_of_validateName (h.validateName_of_lookup hn hl)
  have hlist : t.list dir = .ok b.items := by rw [list, hb]; rfl
  rw [nameIn, hlist, except_bind_ok, ← Array.find?_toList, ← hentries]
  cases hf : (t.view dir).entries.find? fun e => e.inode = node && !isSpecialName e.name with
  | none =>
    have hnot := List.find?_eq_none.mp hf _ hm
    simp [hspecial] at hnot
  | some e =>
    have hfound := List.find?_some hf
    simp only [Bool.and_eq_true, decide_eq_true_eq, Bool.not_eq_true'] at hfound
    obtain ⟨rfl, hspecial⟩ := hfound
    have hname := h.name_unique (List.mem_of_find?_eq_some hf) hm
      (isProper_of_not_special hspecial) hn
    exact congrArg Except.ok hname

/-! ### Going up -/

/-- The walk up finds the names of the way down, the last one first. -/
theorem namesAbove_eq (h : t.Sound) {steps : Nat} (hp : t.IsPathTo names node)
    (hk : (t.view node).kind = .directory) (hsteps : names.length ≤ steps) (below : List String) :
    t.namesAbove steps node below = .ok (names ++ below) := by
  induction names using List.reverseRecOn generalizing node steps below with
  | nil =>
    cases hp.follow_eq
    exact namesAbove_root t steps below
  | append_singleton names name ih =>
    obtain ⟨up, hup, hname, hl⟩ := isPathTo_concat_iff.mp hp
    have hlies := h.liesIn_of_lookup hname hl
    have hroot : node ≠ .root := fun he => h.root_not_liesIn (he ▸ hlies)
    rw [List.length_append] at hsteps
    obtain ⟨steps, rfl⟩ := Nat.exists_eq_add_one_of_ne_zero (Nat.ne_zero_of_lt hsteps)
    rw [namesAbove, if_neg hroot, h.lookup_up hk hlies, except_bind_ok, h.nameIn_eq hname hl,
      except_bind_ok, ih hup (kind_of_liesIn hlies) (Nat.le_of_succ_le_succ hsteps),
      List.append_assoc]
    rfl

/-- The path of the working directory is that of the names which lead down to it. -/
theorem workingPath_eq (h : t.Sound) (hp : t.IsPathTo names t.cwd) :
    t.workingPath = .ok (if names = [] then "/" else Path.below names) := by
  have hsteps := Nat.le_succ_of_le (h.length_path_lt hp).le
  rw [workingPath, h.namesAbove_eq hp h.cwd_kind hsteps, except_bind_ok, List.append_nil]
  cases names with
  | nil => rfl
  | cons name rest => rfl

theorem resolve_below (h : t.Sound) (hp : t.IsPathTo names node) (hne : names ≠ []) :
    t.resolve (Path.below names) = .ok node := by
  rw [resolve_of_absolute _ (Path.isAbsolute_below hne),
    Path.components_below (h.validateName_of_path hp), hp.follow_eq]

theorem changeDirectory_of_resolve (h : t.Sound) {path : String} (hr : t.resolve path = .ok t.cwd) :
    changeDirectory path t = .ok () t := by
  obtain ⟨i, hi, hv⟩ := inode_of_kind (h.cwd_kind.trans_ne (by decide))
  have hd : i.isDirectory = true := by
    rw [Inode.isDirectory, ← Inode.kind_view, hv, h.cwd_kind]
    rfl
  have henter : Tree.enter t.cwd t = .ok () t :=
    atomically_eq_ok_iff.mpr (except_bind_eq_ok_iff.mpr ⟨i, hi, if_pos hd⟩)
  simp [changeDirectory, bind_apply, hr, henter]

end Sound

/-- Whatever calls a tree comes from, the path of its working directory is found, goes straight
down from the root, and leads back to the working directory. -/
theorem workingPath_of_calls (calls : List Call) :
    let t := run calls .empty
    ∃ path, t.workingPath = .ok path ∧ Path.Normal path ∧ t.resolve path = .ok t.cwd
      ∧ changeDirectory path t = .ok () t := by
  intro t
  have h : t.Sound := (sound_blank ..).calls calls
  obtain ⟨names, hp⟩ := h.exists_path (h.cwd_kind.trans_ne (by decide))
  refine ⟨_, h.workingPath_eq hp, ?_⟩
  by_cases hne : names = []
  · subst hne
    have hr : t.resolve "/" = .ok t.cwd := hp.follow_eq
    exact ⟨Path.normal_root, hr, h.changeDirectory_of_resolve hr⟩
  · have hr := h.resolve_below hp hne
    rw [if_neg hne]
    exact ⟨Path.normal_below hne (h.validateName_of_path hp), hr, h.changeDirectory_of_resolve hr⟩

/-- The path is read off the tree, not remembered: a directory above that is renamed shows. -/
example : (run [.mkdir "/a", .mkdir "/a/b", .changeDirectory "/a/b", .rename "/a" "/c"]
    .empty).workingPath = .ok "/c/b" := by
  decide +kernel

end Tree

end SectorFs

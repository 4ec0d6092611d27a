import SectorFs.Proofs.Tree.Namespace

/-!
# Paths one after the other

A path followed by a slash and another path leads where the second one leads from where the
first one does, as if that were the working directory (`resolve_composes`).  This takes
nothing of the tree for granted.  The last name of a path is looked up like the ones before
it: that it is missing, or that it is not a directory, comes out at the same place whether
or not more names follow.  Slashes only part names, and the first character of a path is all
that tells where it starts: behind that one, it does not matter how many slashes there are.
-/

namespace SectorFs

open Attempt

namespace Path

def slashes (n : Nat) : String := String.ofList (List.replicate n '/')

theorem slashes_one : slashes 1 = "/" := rfl

theorem slashes_succ (n : Nat) : slashes (n + 1) = "/" ++ slashes n := by
  apply String.toList_injective
  simp [slashes, List.replicate_succ]

/-- Where a path starts does not depend on what is put behind it. -/
theorem isAbsolute_append {p : String} (hp : p ≠ "") (q : String) :
    isAbsolute (p ++ q) = isAbsolute p := by
  cases h : p.toList with
  | nil => exact absurd (String.toList_eq_nil_iff.mp h) hp
  | cons c cs => simp [isAbsolute, h]

theorem isAbsolute_slashes (n : Nat) (q : String) :
    isAbsolute (slashes (n + 1) ++ q) = true := by
  simp [isAbsolute, slashes, List.replicate_succ]

theorem components_slash (p : String) : components (p ++ "/") = components p := by
  have h := components_append p ""
  rw [String.append_empty] at h
  rw [h]
  exact List.append_nil _

theorem components_append_slashes (n : Nat) (p q : String) :
    components (p ++ slashes (n + 1) ++ q) = components p ++ components q := by
  induction n generalizing p with
  | zero => exact components_append p q
  | succ n ih =>
    rw [slashes_succ, ← String.append_assoc, ih, components_slash]

end Path

namespace Tree

variable {t : Tree} {p q : String}

/-- The tree with another working directory, whatever is there. -/
def workingIn (t : Tree) (dir : InodeId) : Tree := { t with cwd := dir }

/-! ### Names are looked up in the slots -/

theorem lookup_workingIn (t : Tree) (d : InodeId) : (t.workingIn d).lookup = t.lookup := rfl

theorem follow_workingIn (t : Tree) (d dir : InodeId) (names : List String) :
    (t.workingIn d).follow dir names = t.follow dir names :=
  follow_congr fun _ _ _ _ _ => rfl

theorem descend_workingIn (t : Tree) (d dir : InodeId) (names : List String) :
    (t.workingIn d).descend dir names = t.descend dir names := by
  induction names generalizing dir with
  | nil => rfl
  | cons name names ih =>
    cases names with
    | nil => rfl
    | cons next rest =>
      rw [descend_cons _ _ _ (by simp), descend_cons _ _ _ (by simp), lookup_workingIn]
      cases t.lookup dir name with
      | ok id => exact ih id
      | error f => rfl

theorem start_workingIn (hq : Path.isAbsolute q = false) (t : Tree) (d : InodeId) :
    (t.workingIn d).start q = d := by
  rw [start, hq]
  rfl

/-! ### One path behind another -/

theorem start_append (hp : p ≠ "") (t : Tree) (q : String) : t.start (p ++ q) = t.start p := by
  rw [start, start, Path.isAbsolute_append hp]

theorem resolve_append (hp : p ≠ "") (hq : Path.isAbsolute q = false) (t : Tree) :
    t.resolve (p ++ "/" ++ q) = (t.resolve p).bind fun d => (t.workingIn d).resolve q := by
  rw [resolve_eq_follow, String.append_assoc, start_append hp, ← String.append_assoc,
    Path.components_append, follow_append, ← resolve_eq_follow]
  refine congrArg _ (funext fun d => ?_)
  rw [resolve_eq_follow, start_workingIn hq, follow_workingIn]

/-- An inode that a path resolves to is what its last name was found to be. -/
theorem locate_of_resolve {d : InodeId} (h : t.resolve p = .ok d) :
    ∃ place, t.locate p = .ok place ∧ place.existing = some d := by
  obtain ⟨place, hl, h⟩ := except_bind_eq_ok_iff.mp h
  refine ⟨place, hl, ?_⟩
  split at h
  · rename_i id hx
    injection h with h
    rw [hx, h]
  · cases h

theorem locate_append (hp : p ≠ "") (hq : Path.isAbsolute q = false)
    (hnames : Path.components q ≠ []) {d : InodeId} (h : t.resolve p = .ok d) :
    t.locate (p ++ "/" ++ q) = (t.workingIn d).locate q := by
  obtain ⟨⟨parent, leaf, existing⟩, hl, hx⟩ := locate_of_resolve h
  obtain rfl : existing = some d := hx
  have hd : t.descend (t.start p) (Path.components p) = .ok ⟨parent, leaf, some d⟩ := hl
  rw [locate, String.append_assoc, start_append hp, ← String.append_assoc,
    Path.components_append, descend_append _ _ _ hnames, hd, locate, start_workingIn hq,
    descend_workingIn]
  rfl

/-! ### More slashes -/

/-- Two paths that start at the same place and have the same names lead to the same place. -/
theorem locate_congr {p' : String} (habs : Path.isAbsolute p' = Path.isAbsolute p)
    (hnames : Path.components p' = Path.components p) (t : Tree) : t.locate p' = t.locate p := by
  rw [locate, locate, start, start, habs, hnames]

theorem resolve_of_locate_eq {p' : String} (h : t.locate p' = t.locate p) :
    t.resolve p' = t.resolve p := by
  rw [resolve, resolve, h]

theorem locate_repeat_slash (a b : String) (n : Nat) (t : Tree) :
    t.locate (a ++ Path.slashes (n + 1) ++ b) = t.locate (a ++ "/" ++ b) := by
  refine locate_congr ?_ ?_ t
  · by_cases ha : a = ""
    · subst ha
      rw [String.empty_append, String.empty_append, ← Path.slashes_one]
      rw [Path.isAbsolute_slashes, Path.isAbsolute_slashes]
    · rw [String.append_assoc, String.append_assoc, Path.isAbsolute_append ha,
        Path.isAbsolute_append ha]
  · rw [Path.components_append_slashes, Path.components_append]

theorem locate_append_slashes (hp : p ≠ "") (n : Nat) (t : Tree) :
    t.locate (p ++ Path.slashes n) = t.locate p := by
  refine locate_congr (Path.isAbsolute_append hp _) ?_ t
  cases n with
  | zero => exact congrArg _ String.append_empty
  | succ n =>
    have h := Path.components_append_slashes n p ""
    rw [String.append_empty] at h
    rw [h]
    exact List.append_nil _

/-- In any tree, a path with a slash and a relative path behind it fails as it did before, or
leads where the second path leads from where the first one led; and slashes may be repeated,
and put at the end, without a difference. -/
theorem resolve_composes (t : Tree) {p : String} (hp : p ≠ "") :
    (∀ q, Path.isAbsolute q = false →
        (∀ f, t.resolve p = .error f → t.resolve (p ++ "/" ++ q) = .error f)
        ∧ ∀ d, t.resolve p = .ok d →
          t.resolve (p ++ "/" ++ q) = (t.workingIn d).resolve q
          ∧ (Path.components q ≠ [] → t.locate (p ++ "/" ++ q) = (t.workingIn d).locate q))
      ∧ (∀ a b n, p = a ++ "/" ++ b →
          t.locate (a ++ Path.slashes (n + 1) ++ b) = t.locate p
          ∧ t.resolve (a ++ Path.slashes (n + 1) ++ b) = t.resolve p)
      ∧ ∀ n, t.locate (p ++ Path.slashes n) = t.locate p
          ∧ t.resolve (p ++ Path.slashes n) = t.resolve p := by
  refine ⟨fun q hq => ⟨fun f hf => ?_, fun d hd => ⟨?_, fun hnames => ?_⟩⟩, ?_, fun n => ?_⟩
  · rw [resolve_append hp hq, hf]
    rfl
  · rw [resolve_append hp hq, hd]
    rfl
  · exact locate_append hp hq hnames hd
  · rintro a b n rfl
    have h := locate_repeat_slash a b n t
    exact ⟨h, resolve_of_locate_eq h⟩
  · have h := locate_append_slashes hp n t
    exact ⟨h, resolve_of_locate_eq h⟩

/-- An entry that names a free slot is followed like any other, up to the next name. -/
theorem resolve_composes_dangling :
    let t := (run [.mkdir "/a", .create "/a/f"] .empty).setSlot 2 .unused
    "/a/f" ≠ "" ∧ "/b" ≠ "" ∧ Path.isAbsolute "x" = false ∧ Path.components "x" ≠ []
      ∧ t.resolve "/a/f" = .ok ⟨2⟩
      ∧ t.resolve "/a/f/x" = (t.workingIn ⟨2⟩).resolve "x"
      ∧ t.locate "/a/f/x" = (t.workingIn ⟨2⟩).locate "x"
      ∧ t.resolve "/b" = .error .notFound ∧ t.resolve "/b/x" = .error .notFound
      ∧ t.locate "/a///f" = t.locate "/a/f" ∧ t.locate "/a/f//" = t.locate "/a/f" := by
  intro t
  have hf : t.resolve "/a/f" = .ok ⟨2⟩ := by decide +kernel
  have hb : t.resolve "/b" = .error .notFound := by decide +kernel
  obtain ⟨hbehind, hrepeat, hend⟩ := resolve_composes t (p := "/a/f") (by decide)
  obtain ⟨-, hok⟩ := hbehind "x" (by decide)
  obtain ⟨hresolve, hlocate⟩ := hok ⟨2⟩ hf
  obtain ⟨hmissing, -⟩ := (resolve_composes t (p := "/b") (by decide)).1 "x" (by decide)
  exact ⟨by decide, by decide, by decide, by decide, hf, hresolve, hlocate (by decide), hb,
    hmissing .notFound hb, (hrepeat "/a" "f" 2 (by decide)).1, (hend 2).1⟩

end Tree

end SectorFs

import SectorFs.Tree.Directory

/-!
# Paths

A path is a list of names between slashes; empty names are skipped.  It starts at
the root if its first character is a slash, else at the current directory, and `.`
and `..` are looked up like any other name.  `Tree.locate` follows all names but the
last, which need not exist.

* `Path.components_append`: a slash between two paths joins their names.
* `Tree.descend_append`: names are followed one part after the other, each part from
  where the one before it led.
-/

namespace SectorFs

namespace Path

def components (path : String) : List String :=
  ((path.toList.splitOn '/').filter fun part => !part.isEmpty).map String.ofList

def isAbsolute (path : String) : Bool := path.toList.head? == some '/'

theorem components_append (p q : String) :
    components (p ++ "/" ++ q) = components p ++ components q := by
  simp [components, List.splitOn, List.splitOnP_append_cons]

end Path

/-! ### Following names -/

/-- Where a path leads. -/
structure Place where
  /-- The directory that the last name is looked up in. -/
  parent : InodeId
  /-- The last name, empty when the path has none. -/
  leaf : String
  /-- The inode there, if there is one. -/
  existing : Option InodeId
deriving DecidableEq, Repr

namespace Tree

/-- Follows names from a directory on; the last one need not be there. -/
def descend (t : Tree) (dir : InodeId) : List String → Except Failure Place
  | [] => .ok ⟨dir, "", some dir⟩
  | [leaf] =>
    match t.lookup dir leaf with
    | .ok id => .ok ⟨dir, leaf, some id⟩
    | .error .notFound => .ok ⟨dir, leaf, none⟩
    | .error f => .error f
  | name :: next :: rest => do
    t.descend (← t.lookup dir name) (next :: rest)

/-- Where a path starts. -/
def start (t : Tree) (path : String) : InodeId :=
  if Path.isAbsolute path then .root else t.cwd

/-- Where a path leads. -/
def locate (t : Tree) (path : String) : Except Failure Place :=
  t.descend (t.start path) (Path.components path)

def resolve (t : Tree) (path : String) : Except Failure InodeId := do
  match (← t.locate path).existing with
  | some id => .ok id
  | none => .error .notFound

theorem descend_cons (t : Tree) (dir : InodeId) (name : String) {names : List String}
    (h : names ≠ []) :
    t.descend dir (name :: names) = (t.lookup dir name).bind fun id => t.descend id names := by
  cases names with
  | nil => exact absurd rfl h
  | cons next rest => rfl

theorem descend_append (t : Tree) (dir : InodeId) (above : List String) {names : List String}
    (h : names ≠ []) :
    t.descend dir (above ++ names) = (t.descend dir above).bind fun place =>
      match place.existing with
      | some id => t.descend id names
      | none => .error .notFound := by
  induction above generalizing dir with
  | nil => rfl
  | cons name above ih =>
    rw [List.cons_append, descend_cons _ _ _ (by simp [h])]
    cases above with
    | nil =>
      simp only [List.nil_append, descend]
      cases t.lookup dir name with
      | ok id => rfl
      | error f => cases f <;> rfl
    | cons next above =>
      rw [descend_cons _ _ _ (by simp)]
      cases t.lookup dir name with
      | ok id => exact ih id
      | error f => rfl

end Tree

end SectorFs

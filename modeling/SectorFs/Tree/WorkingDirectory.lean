import SectorFs.Tree.Edit

/-!
# The working directory

`Tree.changeDirectory` sets the directory that relative paths start from, and
`Tree.workingPath` finds its path again: it goes up by `..` and asks each parent
which of its names stands for the directory below.
-/

namespace SectorFs

namespace Tree

/-- Makes the directory at a path the one that relative paths start from. -/
def changeDirectory (path : String) : Attempt Tree Unit := do
  enter (← (← get).resolve path)

/-- The name that a directory has in another one. -/
def nameIn (t : Tree) (parent node : InodeId) : Except Failure String := do
  match (← t.list parent).find? fun entry => entry.inode = node && !isSpecialName entry.name with
  | some entry => .ok entry.name
  | none => .error .corrupted

/-- The names on the way from the root down to a directory, put before `below`.  The
bound on the number of steps ends a walk whose `..` entries form a loop. -/
def namesAbove (t : Tree) (steps : Nat) (node : InodeId) (below : List String) :
    Except Failure (List String) :=
  if node = .root then .ok below
  else
    match steps with
    | 0 => .error .corrupted
    | steps + 1 => do
      let parent ← t.lookup node ".."
      let name ← t.nameIn parent node
      t.namesAbove steps parent (name :: below)

/-- The absolute path of the working directory. -/
def workingPath (t : Tree) : Except Failure String := do
  match ← t.namesAbove (t.capacity + 1) t.cwd [] with
  | [] => .ok "/"
  | names => .ok (names.foldl (fun path name => path ++ "/" ++ name) "")

end Tree

end SectorFs

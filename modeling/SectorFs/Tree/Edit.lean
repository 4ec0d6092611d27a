import SectorFs.Tree.Path

/-!
# Editing a tree

Making, copying, removing and moving files and directories by path.  A new entry
gets its room in the parent (`reserveEntry`) before anything else changes, so the
steps after that can fail for want of a free inode only.

A directory holds `.` for itself and `..` for its parent.  Moving a directory below
itself is refused: `isWithin` follows `..` from the new parent up and meets the
directory.
-/

namespace SectorFs

/-- Whether a name may be given to a new entry. -/
def validateName (name : String) : Except Failure Unit :=
  if name = "" ∨ name = "." ∨ name = ".." ∨ '/' ∈ name.toList ∨ '\x00' ∈ name.toList then
    .error .invalidArgument
  else if maxNameSize < name.utf8ByteSize then .error .nameTooLong
  else .ok ()

/-- Names that no edit may touch: none at all, the directory itself, its parent. -/
def isSpecialName (name : String) : Bool := name == "" || name == "." || name == ".."

/-- What a new inode holds. -/
inductive NewContent where
  | file (bytes : Buffer filePolicy UInt8)
  | directory

namespace NewContent

def kind : NewContent → Kind
  | file _ => .file
  | directory => .directory

/-- A new inode before an entry names it; a directory names itself. -/
def inode (self parent : InodeId) : NewContent → Inode
  | file bytes => ⟨0, .file bytes⟩
  | directory => ⟨1, .directory (Tree.bareEntries self parent)⟩

end NewContent

namespace Tree

/-! ### New inodes -/

/-- Makes a new inode at a path whose last name is not taken. -/
def attach (path : String) (content : NewContent) : Attempt Tree InodeId := do
  let place ← (← get).locate path
  if place.existing.isSome then throw .alreadyExists
  validateName place.leaf
  reserveEntry place.parent
  let id ← allocate content.kind
  store id (content.inode id place.parent)
  if content.kind = .directory then modify fun t => t.addLink place.parent
  addEntry place.parent ⟨place.leaf, id⟩
  return id

def create (path : String) : Attempt Tree InodeId := attach path (.file Buffer.empty)

def mkdir (path : String) : Attempt Tree InodeId := attach path .directory

/-- Makes a new file with the bytes of another one. -/
def copy (source target : String) : Attempt Tree InodeId := do
  let t ← get
  let bytes ← (← t.inode (← t.resolve source)).bytes
  attach target (.file bytes.shrink)

/-! ### Removing -/

/-- Removes a file, or a directory that holds nothing. -/
def remove (path : String) : Attempt Tree Unit := do
  let t ← get
  let place ← t.locate path
  if isSpecialName place.leaf then throw .invalidArgument
  let some id := place.existing | throw .notFound
  if id = .root ∨ id = t.cwd then throw .invalidArgument
  let inode ← t.inode id
  if inode.isDirectory then
    if 2 < inode.size then throw .directoryNotEmpty
    let _ ← removeEntry id ".."
    let _ ← removeEntry id "."
  let _ ← removeEntry place.parent place.leaf

/-! ### Moving -/

/-- Whether `ancestor` is met going up from a directory, before the root is passed.
The bound on the number of steps ends a walk whose `..` entries form a loop. -/
def isWithin (t : Tree) (ancestor : InodeId) : Nat → InodeId → Except Failure Bool
  | 0, _ => .error .corrupted
  | steps + 1, node =>
    if node = ancestor then .ok true
    else if node = .root then .ok false
    else do t.isWithin ancestor steps (← t.lookup node "..")

/-- Moves the entry at one path to another path, where there must be nothing yet but
possibly the same inode. -/
def rename (source target : String) : Attempt Tree Unit := do
  let t ← get
  let src ← t.locate source
  if isSpecialName src.leaf then throw .invalidArgument
  let some id := src.existing | throw .notFound
  if id = .root then throw .invalidArgument
  let dst ← t.locate target
  match dst.existing with
  | some there => if there = id then return () else throw .alreadyExists
  | none =>
    validateName dst.leaf
    let changesParent := (← t.inode id).isDirectory && dst.parent != src.parent
    if changesParent then
      if ← t.isWithin id (t.capacity + 1) dst.parent then throw .invalidArgument
    reserveEntry dst.parent
    addEntry dst.parent ⟨dst.leaf, id⟩
    let _ ← removeEntry src.parent src.leaf
    if changesParent then reparent id dst.parent

end Tree

end SectorFs

import SectorFs.Tree.Basic

/-!
# Directories

The entries of the directories of a tree, and the count of links that each inode
keeps: `addEntry` adds one link to the inode that the new entry names,
`removeEntry` takes one off, and `reparent` moves one from the old parent of a
directory to the new one.  An inode other than the root that loses its last link is
freed.
-/

namespace SectorFs

namespace Tree

/-! ### Looking up -/

def entries (t : Tree) (dir : InodeId) : Except Failure (Buffer directoryPolicy Entry) := do
  (← t.inode dir).entries

/-- The inode that a name stands for in a directory. -/
def lookup (t : Tree) (dir : InodeId) (name : String) : Except Failure InodeId := do
  let entries ← t.entries dir
  match entries.items.find? (·.name == name) with
  | some entry => .ok entry.inode
  | none => .error .notFound

/-- The entries of a directory in the order they are stored in. -/
def list (t : Tree) (dir : InodeId) : Except Failure (Array Entry) :=
  return (← t.entries dir).items

/-! ### Links -/

def setEntries (t : Tree) (dir : InodeId) (entries : Buffer directoryPolicy Entry) : Tree :=
  t.modifySlot dir.index fun i => { i with content := .directory entries }

def addLink (t : Tree) (id : InodeId) : Tree := t.modifySlot id.index Inode.link

/-- The tree with one link less to an inode, which is freed with its last link. -/
def dropLink (t : Tree) (id : InodeId) : Tree :=
  match t.inode id with
  | .error _ => t
  | .ok i =>
    if i.unlink.links = 0 ∧ id ≠ .root then t.setSlot id.index .unused
    else t.setSlot id.index i.unlink

/-! ### Operations -/

/-- Makes room for one more entry in a directory. -/
def reserveEntry (dir : InodeId) : Attempt Tree Unit :=
  Attempt.atomically fun t => do
    let entries ← t.entries dir
    let entries ← Buffer.orFail .fileTooLarge (entries.reserve (entries.size + 1))
    return ((), t.setEntries dir entries)

/-- Adds an entry at the end of a directory; the name may be there already. -/
def addEntry (dir : InodeId) (entry : Entry) : Attempt Tree Unit :=
  Attempt.atomically fun t => do
    let _ ← t.inode entry.inode
    let entries ← t.entries dir
    let entries ← Buffer.orFail .fileTooLarge (entries.push entry)
    return ((), ((t.setEntries dir entries).addLink entry.inode).touch)

/-- Takes the first entry of a name out of a directory, whose last entry takes its
place, and tells the inode it named. -/
def removeEntry (dir : InodeId) (name : String) : Attempt Tree InodeId :=
  Attempt.atomically fun t => do
    let entries ← t.entries dir
    match entries.items.findFinIdx? (·.name == name) with
    | none => .error .notFound
    | some i =>
      let (removed, rest) := entries.swapRemove i i.isLt
      return (removed.inode, ((t.setEntries dir rest).dropLink removed.inode).touch)

/-- Makes `parent` the directory that `dir` lies in. -/
def reparent (dir parent : InodeId) : Attempt Tree Unit :=
  Attempt.atomically fun t => do
    if !(← t.inode parent).isDirectory then .error .notADirectory
    else
      let entries ← t.entries dir
      match entries.items.findFinIdx? (·.name == "..") with
      | none => .error .notFound
      | some i =>
        let up := entries.items[i]
        let moved := entries.withItems
          (entries.items.set i { up with inode := parent }) (by simp)
        return ((), (((t.setEntries dir moved).addLink parent).dropLink up.inode).touch)

end Tree

end SectorFs

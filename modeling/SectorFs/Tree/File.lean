import SectorFs.Tree.Path

/-!
# Files

Reading and writing the bytes of a file.  A file has at most `maxFileSize` bytes.
Writing or cutting past its end fills the gap with zeros, and a write of nothing
changes nothing, wherever it is made.
-/

namespace SectorFs

namespace Tree

def bytes (t : Tree) (id : InodeId) : Except Failure (Buffer filePolicy UInt8) := do
  (← t.inode id).bytes

def setBytes (t : Tree) (id : InodeId) (bytes : Buffer filePolicy UInt8) : Tree :=
  t.modifySlot id.index fun i => { i with content := .file bytes }

/-- At most `size` bytes of a file from `start` on. -/
def readAt (t : Tree) (id : InodeId) (start size : Nat) : Except Failure (Array UInt8) := do
  return (← t.bytes id).items.extract start (start + size)

/-- Reads into the front of a buffer, and tells how many bytes were read. -/
def readInto (t : Tree) (id : InodeId) (start : Nat) (buffer : Array UInt8) :
    Except Failure (Nat × Array UInt8) := do
  let found ← t.readAt id start buffer.size
  return (found.size, found ++ buffer.drop found.size)

/-- Writes bytes over those of a file from `start` on, and tells how many. -/
def writeAt (id : InodeId) (start : Nat) (data : Array UInt8) : Attempt Tree Nat :=
  Attempt.atomically fun t =>
    if maxFileSize < start + data.size then .error .fileTooLarge
    else do
      let bytes ← t.bytes id
      if data.isEmpty then return (0, t)
      let bytes ← Buffer.orFail .fileTooLarge (bytes.write start data 0)
      return (data.size, (t.setBytes id bytes).touch)

/-- Cuts a file, or adds zeros to it, so that it has `size` bytes. -/
def truncate (id : InodeId) (size : Nat) : Attempt Tree Unit :=
  Attempt.atomically fun t =>
    if maxFileSize < size then .error .fileTooLarge
    else do
      let bytes ← Buffer.orFail .fileTooLarge ((← t.bytes id).resize size 0)
      return ((), (t.setBytes id bytes).touch)

def readPath (t : Tree) (path : String) : Except Failure (Array UInt8) := do
  return (← t.bytes (← t.resolve path)).items

/-- Writes to the file at a path, which must exist. -/
def writePath (path : String) (start : Nat) (data : Array UInt8) : Attempt Tree Nat := do
  let id ← (← get).resolve path
  writeAt id start data

def listPath (t : Tree) (path : String) : Except Failure (Array Entry) := do
  t.list (← t.resolve path)

def stat (t : Tree) (id : InodeId) : Except Failure Stat :=
  return (← t.inode id).stat

end Tree

end SectorFs

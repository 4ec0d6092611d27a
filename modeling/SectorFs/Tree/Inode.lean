import SectorFs.Attempt
import SectorFs.Buffer

/-!
# Inodes

An inode is a file or a directory: a count of the entries that name it, and its
content.  A slot of the inode table that holds neither is free.  Content lives in
buffers whose limits are those of the disk format: 12 blocks named in the inode's
record and 128 in one further block, of 512 bytes each, and 32 bytes for an entry.
All content grows by these two policies, `filePolicy` and `directoryPolicy`, as it does
wherever it is made here or read from a disk; a buffer with a limit of its own, which
could hold more than a disk takes, is not considered.
-/

namespace SectorFs

/-! ### Limits -/

/-- Slots of a new inode table. -/
def initialSlots : Nat := 64

def maxSlots : Nat := 8192

def maxNameSize : Nat := 27

def maxFileSize : Nat := (12 + 128) * 512

def maxEntries : Nat := maxFileSize / 32

def filePolicy : Buffer.Policy := ⟨64, maxFileSize, 1⟩

def directoryPolicy : Buffer.Policy := ⟨8, maxEntries, 32⟩

def tablePolicy : Buffer.Policy := ⟨initialSlots, maxSlots, 64⟩

/-- What a buffer that did not grow means for the filesystem; a full one means
`atLimit`. -/
def Buffer.Error.failure (atLimit : Failure) : Buffer.Error → Failure
  | .limitReached => atLimit
  | .allocationTooLarge => .outOfMemory

/-- The result of an operation on a buffer, seen from the filesystem. -/
def Buffer.orFail {α : Type} (atLimit : Failure) (result : Except Buffer.Error α) :
    Except Failure α :=
  result.mapError (Buffer.Error.failure atLimit)

theorem Buffer.orFail_eq_ok_iff {α : Type} {f : Failure} {r : Except Buffer.Error α} {a : α} :
    Buffer.orFail f r = .ok a ↔ r = .ok a := by
  cases r with
  | ok b =>
    show (Except.ok b : Except Failure α) = .ok a ↔ _
    rw [Except.ok.injEq, Except.ok.injEq]
  | error e => exact ⟨nofun, nofun⟩

/-! ### Names of inodes -/

/-- The number of a slot in the inode table. -/
structure InodeId where
  number : UInt32
deriving DecidableEq, Repr, Inhabited

namespace InodeId

def root : InodeId := ⟨0⟩

def index (id : InodeId) : Nat := id.number.toNat

/-- The slot at a place in the table. -/
def ofIndex (i : Nat) : InodeId := ⟨UInt32.ofNat i⟩

/-- An inode number as it is shown. -/
def text (id : InodeId) : String := "#" ++ id.index.repr

theorem ofIndex_index (id : InodeId) : ofIndex id.index = id := by
  simp [ofIndex, index]

theorem index_ofIndex {i : Nat} (h : i ≤ maxSlots) : (ofIndex i).index = i := by
  have : i < 2 ^ 32 := Nat.lt_of_le_of_lt h (by decide)
  simpa [ofIndex, index] using this

end InodeId

/-! ### Content -/

/-- What a slot holds. -/
inductive Kind where
  | free
  | file
  | directory
deriving DecidableEq, Repr

namespace Kind

/-- The number that stands for a kind on a disk. -/
def code : Kind → UInt8
  | free => 0
  | file => 1
  | directory => 2

def ofCode? : UInt8 → Option Kind
  | 0 => some free
  | 1 => some file
  | 2 => some directory
  | _ => none

theorem ofCode?_code (k : Kind) : ofCode? k.code = some k := by
  cases k <;> rfl

end Kind

/-- A name in a directory and the inode it stands for. -/
structure Entry where
  name : String
  inode : InodeId
deriving DecidableEq, Repr, Inhabited

/-- What an inode owns. -/
inductive Content where
  | free
  | file (bytes : Buffer filePolicy UInt8)
  | directory (entries : Buffer directoryPolicy Entry)
deriving DecidableEq

namespace Content

/-- Content without bytes or entries. -/
def empty : Kind → Content
  | .free => free
  | .file => file Buffer.empty
  | .directory => directory Buffer.empty

/-- The kind of a content. -/
def kind : Content → Kind
  | free => .free
  | file _ => .file
  | directory _ => .directory

end Content

/-- A slot of the inode table. -/
structure Inode where
  /-- Number of entries that name it. -/
  links : UInt32
  content : Content
deriving DecidableEq

/-- What is told about an inode without opening it. -/
structure Stat where
  kind : Kind
  size : Nat
  links : UInt32
  capacity : Nat
deriving DecidableEq, Repr

namespace Inode

def unused : Inode := ⟨0, .free⟩

instance : Inhabited Inode := ⟨unused⟩

/-- What the inode is. -/
def kind (i : Inode) : Kind := i.content.kind

def isFree (i : Inode) : Bool := i.kind == .free

def isDirectory (i : Inode) : Bool := i.kind == .directory

/-- Bytes of a file, entries of a directory. -/
def size (i : Inode) : Nat :=
  match i.content with
  | .free => 0
  | .file bytes => bytes.size
  | .directory entries => entries.size

/-- Bytes or entries that there is room for. -/
def capacity (i : Inode) : Nat :=
  match i.content with
  | .free => 0
  | .file bytes => bytes.capacity
  | .directory entries => entries.capacity

def bytes (i : Inode) : Except Failure (Buffer filePolicy UInt8) :=
  match i.content with
  | .file bytes => .ok bytes
  | .directory _ => .error .isADirectory
  | .free => .error .notFound

def entries (i : Inode) : Except Failure (Buffer directoryPolicy Entry) :=
  match i.content with
  | .directory entries => .ok entries
  | .file _ => .error .notADirectory
  | .free => .error .notFound

def stat (i : Inode) : Stat := ⟨i.kind, i.size, i.links, i.capacity⟩

/-- One more entry names it. -/
def link (i : Inode) : Inode := { i with links := i.links + 1 }

/-- One entry fewer names it. -/
def unlink (i : Inode) : Inode := { i with links := if i.links = 0 then 0 else i.links - 1 }

theorem isDirectory_iff {i : Inode} :
    i.isDirectory = true ↔ ∃ entries, i.content = .directory entries := by
  cases h : i.content <;> simp [isDirectory, kind, h, Content.kind]

theorem entries_eq_ok_iff {i : Inode} {entries : Buffer directoryPolicy Entry} :
    i.entries = .ok entries ↔ i.content = .directory entries := by
  cases h : i.content <;> simp [Inode.entries, h]

theorem bytes_eq_ok_iff {i : Inode} {bytes : Buffer filePolicy UInt8} :
    i.bytes = .ok bytes ↔ i.content = .file bytes := by
  cases h : i.content <;> simp [Inode.bytes, h]

end Inode

end SectorFs

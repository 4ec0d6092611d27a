import SectorFs.Sector
import SectorFs.Tree.Inode

/-!
# Directory entries on disk

An entry takes a slot of 32 bytes: 28 for the name, zeros behind it, and the word of
the inode number.  A name that is written has at most 27 bytes, so there is a zero
behind it; a name that is read ends at the first zero or fills its field.
-/

namespace SectorFs

/-- Bytes of an entry on disk. -/
def entrySize : Nat := 32

/-- Bytes of the name of an entry on disk. -/
def nameFieldSize : Nat := 28

namespace Entry

def nameBytes (e : Entry) : List UInt8 := e.name.toUTF8.data.toList

def toSlot (e : Entry) : Except Failure (List UInt8) :=
  if e.nameBytes = [] ∨ 0 ∈ e.nameBytes then .error .invalidArgument
  else if nameFieldSize ≤ e.nameBytes.length then .error .nameTooLong
  else .ok (padTo 0 nameFieldSize e.nameBytes ++ Word.bytes e.inode.number)

def slotName (slot : List UInt8) : Except Failure String :=
  let name := (slot.take nameFieldSize).takeWhile (· != 0)
  if name = [] then .error .corrupted
  else
    match String.fromUTF8? ⟨name.toArray⟩ with
    | some text => .ok text
    | none => .error .corrupted

def ofSlot (slot : List UInt8) : Except Failure Entry := do
  return ⟨← slotName slot, ⟨(Word.parse (slot.drop nameFieldSize)).headD 0⟩⟩

/-- The entry at the front of a byte string; none if the string ends inside the name,
or inside the number behind a name that is fine. -/
def ofBytes? (bytes : List UInt8) : Option (Except Failure Entry) :=
  if bytes.length < nameFieldSize then none
  else if bytes.length < entrySize then
    match slotName bytes with
    | .ok _ => none
    | .error f => some (.error f)
  else some (ofSlot bytes)

end Entry

namespace Inode

/-- Bytes that the content of an inode takes on disk. -/
def payloadSize (i : Inode) : Nat :=
  match i.content with
  | .free => 0
  | .file bytes => bytes.size
  | .directory entries => entries.size * entrySize

/-- The content of an inode as it is on disk. -/
def payload (i : Inode) : Except Failure (List UInt8) :=
  match i.content with
  | .free => .ok []
  | .file bytes => .ok bytes.items.toList
  | .directory entries => return (← entries.items.toList.mapM Entry.toSlot).flatten

end Inode

end SectorFs

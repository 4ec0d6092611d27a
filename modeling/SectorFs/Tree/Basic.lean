import SectorFs.Tree.Inode

/-!
# Trees

A tree is what a filesystem holds in memory: a table of inodes with the root
directory in slot `0`, the directory that relative paths start from, and whether
anything changed since memory and disk last agreed.  The table has between 64 and
8192 slots and never shrinks.  Nothing else about it is taken for granted here: a
tree that was read from a damaged disk may name free slots or hold no way up.

The operations of this file work on single slots.  Each of them happens as a whole
or not at all.
-/

namespace SectorFs

/-- A filesystem in memory. -/
structure Tree where
  slots : Array Inode
  /-- The directory that relative paths start from. -/
  cwd : InodeId
  /-- Whether memory and disk may differ. -/
  dirty : Bool
  initial_le_size : initialSlots ≤ slots.size
  size_le_max : slots.size ≤ maxSlots
deriving DecidableEq

namespace Tree

open Attempt

/-! ### The empty tree -/

/-- The entries of a directory that holds nothing: the directory itself and the one
it lies in. -/
def bareEntries (self parent : InodeId) : Buffer directoryPolicy Entry where
  items := #[⟨".", self⟩, ⟨"..", parent⟩]
  capacity := 8
  size_le_capacity := by simp
  capacity_le_limit := by decide

/-- A root directory that holds nothing, and lies in itself. -/
def bareRoot : Inode := ⟨2, .directory (bareEntries .root .root)⟩

/-- The tree of a bare root in a table of `n` slots. -/
def blank (n : Nat) (hi : initialSlots ≤ n) (hn : n ≤ maxSlots) : Tree where
  slots := (Array.replicate n Inode.unused).setIfInBounds 0 bareRoot
  cwd := .root
  dirty := false
  initial_le_size := by simpa using hi
  size_le_max := by simpa using hn

/-- The tree of a bare root in a table of the same size. -/
def restart (t : Tree) : Tree := blank t.slots.size t.initial_le_size t.size_le_max

def empty : Tree := blank initialSlots (Nat.le_refl _) (by decide)

instance : Inhabited Tree := ⟨empty⟩

/-! ### Slots -/

def capacity (t : Tree) : Nat := t.slots.size

def slot? (t : Tree) (id : InodeId) : Option Inode := t.slots[id.index]?

/-- The inode of that number, which must be in use. -/
def inode (t : Tree) (id : InodeId) : Except Failure Inode :=
  match t.slot? id with
  | some i => if i.isFree then .error .notFound else .ok i
  | none => .error .notFound

/-- The tree with another inode in a slot; a slot past the table stays missing. -/
def setSlot (t : Tree) (i : Nat) (inode : Inode) : Tree :=
  { t with
    slots := t.slots.setIfInBounds i inode
    initial_le_size := by simpa using t.initial_le_size
    size_le_max := by simpa using t.size_le_max }

def modifySlot (t : Tree) (i : Nat) (f : Inode → Inode) : Tree :=
  { t with
    slots := t.slots.modify i f
    initial_le_size := by simpa using t.initial_le_size
    size_le_max := by simpa using t.size_le_max }

/-- The tree as changed since it was last on disk. -/
def touch (t : Tree) : Tree := { t with dirty := true }

/-- Memory and disk agree. -/
def settle (t : Tree) : Tree := { t with dirty := false }

/-- Puts an inode into a slot of the table, whatever was there. -/
def install (t : Tree) (id : InodeId) (inode : Inode) : Except Failure Tree :=
  if id.index < t.slots.size then .ok (t.setSlot id.index inode).touch else .error .outOfInodes

/-- The highest slot below `n` that is not free, or `0`. -/
def lastUsedBelow (slots : Array Inode) : Nat → Nat
  | 0 => 0
  | n + 1 => if (slots.getD n .unused).isFree then lastUsedBelow slots n else n

/-- The highest slot that is not free. -/
def lastUsed (t : Tree) : Nat := lastUsedBelow t.slots t.slots.size

/-- The first free slot above the root. -/
def firstFree? (t : Tree) : Option Nat :=
  ((t.slots.extract 1 t.slots.size).findIdx? Inode.isFree).map (· + 1)

/-- The tree in a table of at least `n` slots. -/
def withRoom (t : Tree) (n : Nat) : Except Failure Tree :=
  if h : n ≤ t.slots.size then .ok t
  else if hn : maxSlots < n then .error .outOfInodes
  else .ok { t with
    slots := t.slots ++
      Array.replicate (tablePolicy.target t.slots.size n - t.slots.size) Inode.unused
    initial_le_size := by have := t.initial_le_size; simp; omega
    size_le_max := by
      have h : tablePolicy.target t.slots.size n ≤ maxSlots := Buffer.Policy.target_le_limit ..
      have := t.size_le_max
      simp only [Array.size_append, Array.size_replicate]
      omega }

/-! ### Operations -/

/-- Drops everything and starts over with a bare root in a table of the same size. -/
def reset : Attempt Tree Unit := modify restart

/-- Makes the table hold at least `n` slots. -/
def reserveSlots (n : Nat) : Attempt Tree Unit :=
  Attempt.atomically fun t => return ((), ← t.withRoom n)

/-- A free slot, in a larger table if there is none. -/
def freeSlot (t : Tree) : Except Failure (Nat × Tree) :=
  match t.firstFree? with
  | some i => .ok (i, t)
  | none => do
    let t ← t.withRoom (t.slots.size + 1)
    match t.firstFree? with
    | some i => .ok (i, t)
    | none => .error .outOfInodes

/-- Takes the first free slot for an empty inode that no entry names yet. -/
def allocate (kind : Kind) : Attempt Tree InodeId :=
  Attempt.atomically fun t =>
    if kind = .free then .error .invalidArgument
    else do
      let (i, t) ← t.freeSlot
      return (.ofIndex i, (t.setSlot i ⟨0, .empty kind⟩).touch)

def release (id : InodeId) : Attempt Tree Unit :=
  Attempt.atomically fun t =>
    if id = .root then .error .invalidArgument
    else if id.index < t.slots.size then .ok ((), (t.setSlot id.index .unused).touch)
    else .error .notFound

/-- Puts an inode into a slot, whatever was there. -/
def store (id : InodeId) (inode : Inode) : Attempt Tree Unit :=
  Attempt.atomically fun t => return ((), ← t.install id inode)

/-- Makes a directory the one that relative paths start from. -/
def enter (id : InodeId) : Attempt Tree Unit :=
  Attempt.atomically fun t => do
    if (← t.inode id).isDirectory then .ok ((), { t with cwd := id }) else .error .notADirectory

/-! ### Lemmas on slots -/

theorem inode_eq_ok_iff {t : Tree} {id : InodeId} {i : Inode} :
    t.inode id = .ok i ↔ t.slot? id = some i ∧ i.isFree = false := by
  unfold inode
  cases t.slot? id with
  | none => simp
  | some j => by_cases hj : j.isFree <;> simp [hj] <;> grind

@[simp] theorem size_setSlot (t : Tree) (i : Nat) (inode : Inode) :
    (t.setSlot i inode).slots.size = t.slots.size := by
  simp [setSlot]

@[simp] theorem size_modifySlot (t : Tree) (i : Nat) (f : Inode → Inode) :
    (t.modifySlot i f).slots.size = t.slots.size := by
  simp [modifySlot]

@[simp] theorem size_restart (t : Tree) : t.restart.slots.size = t.slots.size := by
  simp [restart, blank]

theorem install_eq_ok_iff {t u : Tree} {id : InodeId} {i : Inode} :
    t.install id i = .ok u ↔ id.index < t.slots.size ∧ u = (t.setSlot id.index i).touch := by
  unfold install
  split <;> rename_i h
  · rw [Except.ok.injEq]
    exact ⟨fun hu => ⟨h, hu.symm⟩, fun hu => hu.2.symm⟩
  · exact ⟨nofun, fun hu => absurd hu.1 h⟩

theorem install_of_lt {t : Tree} {i : Nat} (h : i < t.slots.size) (inode : Inode) :
    t.install (.ofIndex i) inode = .ok (t.setSlot i inode).touch := by
  have hindex := InodeId.index_ofIndex (Nat.le_trans (Nat.le_of_lt h) t.size_le_max)
  rw [install, hindex, if_pos h]

theorem store_eq_ok_iff {t u : Tree} {id : InodeId} {i : Inode} :
    store id i t = .ok () u ↔ id.index < t.slots.size ∧ u = (t.setSlot id.index i).touch := by
  rw [← install_eq_ok_iff, store, atomically_eq_ok_iff, except_bind_eq_ok_iff]
  constructor
  · rintro ⟨w, hw, h⟩
    cases h
    exact hw
  · exact fun h => ⟨u, h, rfl⟩

theorem slot?_setSlot_self {t : Tree} {id : InodeId} (h : id.index < t.slots.size)
    (inode : Inode) : (t.setSlot id.index inode).slot? id = some inode := by
  simp [slot?, setSlot, h]

theorem slot?_setSlot_of_ne {t : Tree} {id : InodeId} {i : Nat} (h : i ≠ id.index)
    (inode : Inode) : (t.setSlot i inode).slot? id = t.slot? id := by
  simp [slot?, setSlot, h]

end Tree

end SectorFs

/-!
# Buffers

A buffer is a list of elements kept in an allocation of known capacity.  A
`Buffer.Policy` fixes how the allocation grows: the first one makes room for
`initial` elements, every later one doubles, and none passes `limit`.  The two
bounds `size ≤ capacity ≤ limit` are part of the type.

* `Policy.target`: the capacity that a buffer grows to.
* `push`, `append`, `resize`, `write`: the list operations, which fail when the
  elements would not fit under the limit and otherwise act on `items` as the plain
  operations do (`items_of_push`, `items_of_append`, …).  All of them go through
  `Buffer.refit`.

Memory is taken to suffice: an allocation fails when it is asked for more than
`maxAllocation` bytes, and never because an allocator has nothing left.
-/

namespace SectorFs

namespace Buffer

/-- How the allocation of a buffer grows. -/
structure Policy where
  /-- Elements that the first allocation makes room for. -/
  initial : Nat
  /-- The most elements that an allocation has room for. -/
  limit : Nat
  /-- Bytes that one element takes. -/
  width : Nat
deriving DecidableEq, Repr

/-- Why a buffer did not grow. -/
inductive Error where
  | limitReached
  | allocationTooLarge
deriving DecidableEq, Repr

/-- The text of an error; an allocation that is too large has none. -/
def Error.message? : Error → Option String
  | .limitReached => some "capacity limit reached"
  | .allocationTooLarge => none

/-- No allocation has more bytes than this. -/
def maxAllocation : Nat := 0x7fffffffffffffff

namespace Policy

/-- The capacity after growing from `current` so that `needed` elements fit,
`needed` being within the limit. -/
def target (p : Policy) (current needed : Nat) : Nat :=
  min (max (if current = 0 then p.initial else 2 * current) needed) p.limit

/-- The capacity to grow to, if the limit lets `needed` elements in at all. -/
def target? (p : Policy) (current needed : Nat) : Except Error Nat :=
  if p.limit < needed then .error .limitReached else .ok (p.target current needed)

theorem target_le_limit (p : Policy) (current needed : Nat) :
    p.target current needed ≤ p.limit :=
  Nat.min_le_right ..

theorem le_target {p : Policy} {current needed : Nat} (h : needed ≤ p.limit) :
    needed ≤ p.target current needed :=
  Nat.le_min.2 ⟨Nat.le_max_right .., h⟩

end Policy

end Buffer

/-- Elements in an allocation that grows by the policy `p`. -/
structure Buffer (p : Buffer.Policy) (α : Type) where
  items : Array α
  /-- Elements that the allocation has room for. -/
  capacity : Nat
  size_le_capacity : items.size ≤ capacity
  capacity_le_limit : capacity ≤ p.limit
deriving DecidableEq

namespace Buffer

variable {p : Policy} {α : Type}

/-- Nothing in no allocation. -/
def empty : Buffer p α where
  items := #[]
  capacity := 0
  size_le_capacity := Nat.le_refl 0
  capacity_le_limit := Nat.zero_le _

instance : Inhabited (Buffer p α) := ⟨empty⟩

/-- Nothing in an allocation for exactly `n` elements. -/
def withCapacity (n : Nat) : Except Error (Buffer p α) :=
  if h : p.limit < n then .error .limitReached
  else if maxAllocation < p.width * n then .error .allocationTooLarge
  else .ok { (empty : Buffer p α) with
    capacity := n
    size_le_capacity := Nat.zero_le n
    capacity_le_limit := Nat.le_of_not_lt h }

def size (b : Buffer p α) : Nat := b.items.size

/-! ### Room for more -/

/-- The capacity `b` has once it has room for `n` elements: its own if that is
enough, else the target of its policy. -/
def capacityFor (b : Buffer p α) (n : Nat) :
    Except Error { c : Nat // n ≤ c ∧ b.capacity ≤ c ∧ c ≤ p.limit } :=
  if h : n ≤ b.capacity then .ok ⟨b.capacity, h, Nat.le_refl _, b.capacity_le_limit⟩
  else if hl : p.limit < n then .error .limitReached
  else if maxAllocation < p.width * p.target b.capacity n then .error .allocationTooLarge
  else .ok ⟨p.target b.capacity n,
    have hn : n ≤ p.target b.capacity n := Policy.le_target (Nat.le_of_not_lt hl)
    ⟨hn, Nat.le_trans (Nat.le_of_not_le h) hn, p.target_le_limit ..⟩⟩

/-- The buffer with other elements, in an allocation with room for `n`.  They are not
worked out where there can be no room for them. -/
@[macro_inline]
def refit (b : Buffer p α) (n : Nat) (items : Array α) (h : items.size ≤ n) :
    Except Error (Buffer p α) :=
  match b.capacityFor n with
  | .ok c => .ok ⟨items, c.1, Nat.le_trans h c.2.1, c.2.2.2⟩
  | .error e => .error e

/-- Makes room for `n` elements in all. -/
def reserve (b : Buffer p α) (n : Nat) : Except Error (Buffer p α) :=
  b.refit (max n b.items.size) b.items (Nat.le_max_right ..)

/-! ### List operations -/

def push (b : Buffer p α) (a : α) : Except Error (Buffer p α) :=
  b.refit (b.items.size + 1) (b.items.push a) (by simp)

def append (b : Buffer p α) (as : Array α) : Except Error (Buffer p α) :=
  b.refit (b.items.size + as.size) (b.items ++ as) (by simp)

/-- Cuts to `n` elements or adds `f 0`, `f 1`, … up to `n` elements. -/
def resizeWith (b : Buffer p α) (n : Nat) (f : Nat → α) : Except Error (Buffer p α) :=
  b.refit n (b.items.take n ++ (Array.range (n - b.items.size)).map f) (by simp; omega)

/-- Cuts to `n` elements or adds copies of `a` up to `n` elements. -/
def resize (b : Buffer p α) (n : Nat) (a : α) : Except Error (Buffer p α) :=
  b.resizeWith n fun _ => a

/-- Writes `as` over the elements from `start` on and past the last one; a gap before
`start` is filled with `filler`. -/
def write (b : Buffer p α) (start : Nat) (as : Array α) (filler : α) :
    Except Error (Buffer p α) :=
  b.refit (max b.items.size (start + as.size))
    (b.items.take start ++ Array.replicate (start - b.items.size) filler ++ as
      ++ b.items.drop (start + as.size))
    (by simp; omega)

def truncate (b : Buffer p α) (n : Nat) : Buffer p α :=
  { b with
    items := b.items.take n
    size_le_capacity := by have := b.size_le_capacity; simp; omega }

def clear (b : Buffer p α) : Buffer p α := b.truncate 0

/-- Replaces the elements by as many others. -/
def withItems (b : Buffer p α) (items : Array α) (h : items.size = b.items.size) : Buffer p α :=
  { b with items, size_le_capacity := h ▸ b.size_le_capacity }

/-- Puts `a` in place `i`; nothing if there is no such place. -/
def set? (b : Buffer p α) (i : Nat) (a : α) : Option (Buffer p α) :=
  if h : i < b.items.size then some (b.withItems (b.items.set i a h) (by simp)) else none

def reverse (b : Buffer p α) : Buffer p α :=
  b.withItems b.items.reverse (by simp)

/-- Takes out element `i`, the last one moving into its place. -/
def swapRemove (b : Buffer p α) (i : Nat) (h : i < b.items.size) : α × Buffer p α :=
  (b.items[i], { b with
    items := (b.items.set i b.items.back h).pop
    size_le_capacity := by have := b.size_le_capacity; simp; omega })

/-- Takes out element `i` as `swapRemove` does, if there is one. -/
def swapRemove? (b : Buffer p α) (i : Nat) : Option (α × Buffer p α) :=
  if h : i < b.items.size then some (b.swapRemove i h) else none

/-- The same elements with no room to spare. -/
def shrink (b : Buffer p α) : Buffer p α :=
  { b with
    capacity := b.items.size
    size_le_capacity := Nat.le_refl _
    capacity_le_limit := Nat.le_trans b.size_le_capacity b.capacity_le_limit }

/-! ### What they do to the elements -/

theorem refit_eq_ok_iff {b c : Buffer p α} {n : Nat} {items : Array α} {h : items.size ≤ n} :
    b.refit n items h = .ok c ↔
      c.items = items ∧ ∃ r, b.capacityFor n = .ok r ∧ c.capacity = r.1 := by
  unfold refit
  cases b.capacityFor n with
  | error e => simp
  | ok r =>
    obtain ⟨citems, ccapacity, h1, h2⟩ := c
    simp only [Except.ok.injEq, mk.injEq, exists_eq_left']
    exact ⟨fun ⟨hi, hc⟩ => ⟨hi.symm, hc.symm⟩, fun ⟨hi, hc⟩ => ⟨hi.symm, hc.symm⟩⟩

theorem items_of_refit {b c : Buffer p α} {n : Nat} {items : Array α} {h : items.size ≤ n}
    (hc : b.refit n items h = .ok c) : c.items = items :=
  (refit_eq_ok_iff.mp hc).1

theorem items_of_reserve {b c : Buffer p α} {n : Nat} (h : b.reserve n = .ok c) :
    c.items = b.items :=
  items_of_refit h

theorem items_of_push {b c : Buffer p α} {a : α} (h : b.push a = .ok c) :
    c.items = b.items.push a :=
  items_of_refit h

theorem items_of_append {b c : Buffer p α} {as : Array α} (h : b.append as = .ok c) :
    c.items = b.items ++ as :=
  items_of_refit h

theorem items_of_resizeWith {b c : Buffer p α} {n : Nat} {f : Nat → α}
    (h : b.resizeWith n f = .ok c) :
    c.items = b.items.take n ++ (Array.range (n - b.items.size)).map f :=
  items_of_refit h

theorem items_of_write {b c : Buffer p α} {start : Nat} {as : Array α} {filler : α}
    (h : b.write start as filler = .ok c) :
    c.items = b.items.take start ++ Array.replicate (start - b.items.size) filler ++ as
      ++ b.items.drop (start + as.size) :=
  items_of_refit h

/-- Growing never gives room back. -/
theorem capacity_le_of_refit {b c : Buffer p α} {n : Nat} {items : Array α}
    {h : items.size ≤ n} (hc : b.refit n items h = .ok c) : b.capacity ≤ c.capacity := by
  obtain ⟨-, r, -, hr⟩ := refit_eq_ok_iff.mp hc
  exact hr ▸ r.2.2.1

end Buffer

end SectorFs

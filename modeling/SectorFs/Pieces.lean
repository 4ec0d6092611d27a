/-!
# Pieces of a list

A list is cut into pieces of a fixed size: a disk image into sectors, a directory
into entries, the words of a sector into records.  Pieces that were put together are
cut again where they meet (`pieces_flatten`).
-/

namespace SectorFs

/-- The least number of parts of size `part` that hold `n`. -/
def partsOf (n part : Nat) : Nat := (n + (part - 1)) / part

/-- The first `n` pieces of a list. -/
def pieces {α : Type} (size : Nat) : Nat → List α → List (List α)
  | 0, _ => []
  | n + 1, l => l.take size :: pieces size n (l.drop size)

/-- The first `n` elements of a list, and behind its end as many fillers as it takes. -/
def padTo {α : Type} (filler : α) : Nat → List α → List α
  | 0, _ => []
  | n + 1, [] => filler :: padTo filler n []
  | n + 1, a :: l => a :: padTo filler n l

section

variable {α : Type}

@[simp] theorem length_pieces (size n : Nat) (l : List α) : (pieces size n l).length = n := by
  induction n generalizing l with
  | zero => rfl
  | succ n ih => simp [pieces, ih]

theorem length_of_mem_pieces {size n : Nat} {l : List α} (h : size * n ≤ l.length) :
    ∀ piece ∈ pieces size n l, piece.length = size := by
  induction n generalizing l with
  | zero => exact fun _ hp => absurd hp List.not_mem_nil
  | succ n ih =>
    rw [Nat.mul_succ] at h
    intro piece hp
    rcases List.mem_cons.mp hp with rfl | hp
    · exact List.length_take_of_le (by omega)
    · exact ih (by rw [List.length_drop]; omega) piece hp

theorem pieces_flatten {size : Nat} {ls : List (List α)} (h : ∀ l ∈ ls, l.length = size) :
    pieces size ls.length ls.flatten = ls := by
  induction ls with
  | nil => rfl
  | cons l ls ih =>
    have hl := h l (by simp)
    rw [List.length_cons, pieces, List.flatten_cons, ← hl, List.take_left, List.drop_left, hl,
      ih fun l hl => h l (by simp [hl])]

@[simp] theorem length_padTo (filler : α) (n : Nat) (l : List α) :
    (padTo filler n l).length = n := by
  induction n generalizing l with
  | zero => rfl
  | succ n ih => cases l <;> simp [padTo, ih]

theorem padTo_eq_append (filler : α) (n : Nat) (l : List α) :
    padTo filler n l = l.take n ++ List.replicate (n - l.length) filler := by
  induction n generalizing l with
  | zero => simp [padTo]
  | succ n ih =>
    cases l with
    | nil => simp [padTo, ih, List.replicate_succ]
    | cons a l => simp [padTo, ih]

theorem padTo_of_length {filler : α} {n : Nat} {l : List α} (h : l.length = n) :
    padTo filler n l = l := by
  simp [padTo_eq_append, ← h]

end

end SectorFs

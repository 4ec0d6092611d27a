import Mathlib.Algebra.Group.Nat.Defs
import SectorFs.Proofs.Volume.Mirror

/-!
# Strict attempts

An `Attempt` is total: what stands past the end of a list is left out or replaced, and a
difference is never below zero.  A strict attempt stops there with a fault instead.  It reads
elements and parts of lists through `known` and `slice`, and works out numbers through `narrow`
and `minus`, so that one that comes to no fault has kept to its lists and widths all along.

`Strict.Agrees` compares it with an attempt that does the same without looking: both end in the
same way, hence without a fault, and all that the device is asked for are sectors that it has, or
sector `0`.
-/

namespace SectorFs

open Attempt

/-- Why a strict attempt stops. -/
inductive Stop where
  | failure (f : Failure)
  /-- A place that a list does not have, or a number that its width does not. -/
  | fault
deriving DecidableEq

/-- An action on a state `σ` that stops at its first fault. -/
abbrev Strict (σ α : Type) : Type := EStateM Stop σ α

/-! ### Words of a part of a byte string -/

theorem Word.parse_take (n : Nat) (bytes : List UInt8) :
    parse (bytes.take (4 * n)) = (parse bytes).take n := by
  induction n generalizing bytes with
  | zero => rfl
  | succ n ih =>
    match bytes with
    | [] | [_] | [_, _] | [_, _, _] => simp [parse, Nat.mul_succ]
    | a :: b :: c :: d :: rest =>
      rw [Nat.mul_succ]
      show ofBytes a b c d :: parse (rest.take (4 * n)) = ofBytes a b c d :: (parse rest).take n
      rw [ih]

theorem Word.parse_drop (n : Nat) (bytes : List UInt8) :
    parse (bytes.drop (4 * n)) = (parse bytes).drop n := by
  induction n generalizing bytes with
  | zero => rfl
  | succ n ih =>
    match bytes with
    | [] | [_] | [_, _] | [_, _, _] => simp [parse, Nat.mul_succ]
    | a :: b :: c :: d :: rest =>
      rw [Nat.mul_succ]
      exact ih rest

namespace Strict

variable {σ α β : Type}

/-! ### What may go wrong -/

/-- An attempt, taken as one that comes to no fault. -/
def of (x : Attempt σ α) : Strict σ α := fun s =>
  match x s with
  | .ok a t => .ok a t
  | .error f t => .error (.failure f) t

/-- The result of a computation that does not look at the state. -/
def lift : Except Failure α → Strict σ α
  | .ok a => pure a
  | .error f => throw (.failure f)

/-- What has to be there. -/
def known : Option α → Strict σ α
  | some a => pure a
  | none => throw .fault

/-- A number that has to fit in `bits` bits. -/
def narrow (bits n : Nat) : Strict σ Nat := known (if n < 2 ^ bits then some n else none)

/-- A difference that must not be below zero. -/
def minus (m n : Nat) : Strict σ Nat := known (if n ≤ m then some (m - n) else none)

/-- A part of a list, all of which has to be there. -/
def slice (l : List α) (start size : Nat) : Strict σ (List α) :=
  known (if start + size ≤ l.length then some ((l.drop start).take size) else none)

/-- The word at an offset of a byte string. -/
def word (bytes : List UInt8) (offset : Nat) : Strict σ UInt32 := do
  return (Word.parse (← slice bytes offset 4)).headD 0

/-- The first `n` words of a byte string. -/
def words (bytes : List UInt8) (n : Nat) : Strict σ (List UInt32) :=
  (List.range n).mapM fun k => word bytes (4 * k)

/-! ### Where nothing does -/

theorem of_apply_ok {x : Attempt σ α} {s t : σ} {a : α} (h : x s = .ok a t) :
    of x s = .ok a t := by
  rw [of, h]

theorem of_apply_error {x : Attempt σ α} {s t : σ} {f : Failure} (h : x s = .error f t) :
    of x s = .error (.failure f) t := by
  rw [of, h]

theorem narrow_of_lt {bits n : Nat} (h : n < 2 ^ bits) :
    (narrow bits n : Strict σ Nat) = pure n := by
  rw [narrow, if_pos h]
  rfl

theorem minus_of_le {m n : Nat} (h : n ≤ m) : (minus m n : Strict σ Nat) = pure (m - n) := by
  rw [minus, if_pos h]
  rfl

theorem slice_of_le {l : List α} {start size : Nat} (h : start + size ≤ l.length) :
    (slice l start size : Strict σ (List α)) = pure ((l.drop start).take size) := by
  rw [slice, if_pos h]
  rfl

/-- Words that a byte string has are those that parsing it finds. -/
theorem word_of_lt {bytes : List UInt8} {k : Nat} (h : k < (Word.parse bytes).length) :
    (word bytes (4 * k) : Strict σ UInt32) = pure (Word.parse bytes)[k] := by
  have hlen := Word.length_parse bytes
  have hparse : Word.parse ((bytes.drop (4 * k)).take (4 * 1)) = [(Word.parse bytes)[k]] := by
    rw [Word.parse_take, Word.parse_drop, List.drop_eq_getElem_cons h]
    rfl
  rw [word, slice_of_le (by omega), pure_bind, show 4 = 4 * 1 from rfl, hparse]
  rfl

theorem words_of_le {bytes : List UInt8} {n : Nat} (h : n ≤ (Word.parse bytes).length) :
    (words bytes n : Strict σ (List UInt32)) = pure ((Word.parse bytes).take n) := by
  unfold words
  induction n with
  | zero => rfl
  | succ n ih =>
    rw [List.range_succ, List.mapM_append, ih (by omega), pure_bind, List.mapM_cons,
      word_of_lt (by omega), List.take_add_one, List.getElem?_eq_getElem (by omega)]
    rfl

/-! ### Strict attempts that agree with others -/

section

variable {D : Type} [SectorDevice D]

/-- Reads of sectors that a disk of `total` sectors has, or of sector `0`. -/
def Within (total : UInt32) : Request → Prop
  | .read lba count => lba.toNat + count.toNat ≤ total.toNat ∨ lba = 0 ∧ count = 1
  | _ => False

/-- A strict attempt ends as another attempt does, and that asks for such sectors only. -/
structure Agrees (total : UInt32) (x : Strict D α) (y : Attempt D α) : Prop where
  eq_of : ∀ d, SectorDevice.totalSectors d = total → x d = of y d
  asks : ∀ d, SectorDevice.totalSectors d = total → Asked (Within total) d (y.after d)

namespace Agrees

variable {total : UInt32}

theorem pure (a : α) : Agrees (D := D) total (Pure.pure a) (Pure.pure a) where
  eq_of _ _ := rfl
  asks _ _ := .refl

theorem throw (f : Failure) :
    Agrees (D := D) (α := α) total (MonadExcept.throw (.failure f)) (MonadExcept.throw f) where
  eq_of _ _ := rfl
  asks _ _ := .refl

theorem lift (x : Except Failure α) : Agrees (D := D) total (Strict.lift x) (liftM x) :=
  match x with
  | .ok a => pure a
  | .error f => throw f

theorem requirePresent :
    Agrees (D := D) total (of Device.requirePresent) Device.requirePresent where
  eq_of _ _ := rfl
  asks d _ := Asks.query _ d

theorem totalSectors : Agrees (D := D) total (of Device.totalSectors) Device.totalSectors where
  eq_of _ _ := rfl
  asks d _ := Asks.query _ d

theorem readSectors {lba count : UInt32} (h : Within total (.read lba count)) :
    Agrees (D := D) total (of (Device.readSectors lba count)) (Device.readSectors lba count) where
  eq_of _ _ := rfl
  asks d _ := Asked.once (r := .read lba count) h d

variable [Backed D]

theorem totalSectors_eq {d e : D} (h : Asked (Within total) d e) :
    SectorDevice.totalSectors e = SectorDevice.totalSectors d := by
  have hread : Asked Request.IsRead d e := h.mono fun r hr => by
    cases r with
    | read lba count => trivial
    | write lba sectors => exact hr.elim
    | flush => exact hr.elim
  rw [Backed.totalSectors_eq, Backed.totalSectors_eq, hread.disk_eq]

/-- What comes second has to agree only where what came first may lead. -/
theorem bind {x : Strict D α} {y : Attempt D α} {f : α → Strict D β} {g : α → Attempt D β}
    (hx : Agrees total x y)
    (hf : ∀ a, (∃ d e, SectorDevice.totalSectors d = total ∧ y d = .ok a e) →
      Agrees total (f a) (g a)) : Agrees total (x >>= f) (y >>= g) where
  eq_of d hd := by
    have hasked := hx.asks d hd
    show EStateM.bind x f d = _
    unfold EStateM.bind
    rw [hx.eq_of d hd]
    cases hy : y d with
    | ok a e =>
      rw [of_apply_ok hy]
      rw [after_of_ok hy] at hasked
      refine ((hf a ⟨d, e, hd, hy⟩).eq_of e ((totalSectors_eq hasked).trans hd)).trans ?_
      unfold of
      rw [bind_apply, hy]
    | error e c =>
      rw [of_apply_error hy]
      exact (of_apply_error (bind_eq_error_iff.mpr (.inl hy))).symm
  asks d hd := by
    have hasked := hx.asks d hd
    unfold after
    rw [bind_apply]
    cases hy : y d with
    | ok a e =>
      rw [after_of_ok hy] at hasked
      exact hasked.trans ((hf a ⟨d, e, hd, hy⟩).asks e ((totalSectors_eq hasked).trans hd))
    | error e c =>
      rw [after_of_error hy] at hasked
      exact hasked

/-- A fold agrees with another while what it carries keeps an invariant. -/
theorem foldlM {ι : Type} {P : β → Prop} {f : β → ι → Strict D β} {g : β → ι → Attempt D β}
    {l : List ι} (h : ∀ b, ∀ i ∈ l, P b → Agrees total (f b i) (g b i))
    (hinv : ∀ b, ∀ i ∈ l, ∀ d c e, P b → g b i d = .ok c e → P c) {b : β} (hb : P b) :
    Agrees total (l.foldlM f b) (l.foldlM g b) := by
  induction l generalizing b with
  | nil => exact pure b
  | cons i l ih =>
    rw [List.foldlM_cons, List.foldlM_cons]
    refine bind (h b i List.mem_cons_self hb) fun c ⟨d, e, _, hc⟩ => ?_
    exact ih (fun b j hj => h b j (List.mem_cons_of_mem i hj))
      (fun b j hj => hinv b j (List.mem_cons_of_mem i hj))
      (hinv b i List.mem_cons_self d c e hb hc)

end Agrees

end

end Strict

end SectorFs

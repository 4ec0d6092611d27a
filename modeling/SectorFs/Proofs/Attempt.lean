import SectorFs.Attempt
import Mathlib.Order.Defs.Unbundled

/-!
# Where attempts lead

An attempt moves along a relation on states when, however it ends, the state that it leaves
behind is related to the one it started from (`Attempt.Moves`).  For a relation that can be
followed any number of times this goes from the parts of an attempt over to the whole.
-/

namespace SectorFs

namespace Attempt

variable {σ α β : Type} {r : σ → σ → Prop}

theorem except_bind_ok (a : α) (f : α → Except Failure β) : (Except.ok a >>= f) = f a := rfl

theorem except_bind_error (e : Failure) (f : α → Except Failure β) :
    (Except.error e >>= f) = .error e := rfl

theorem except_mapM_isOk_iff {f : α → Except Failure β} {l : List α} :
    (∃ r, l.mapM f = .ok r) ↔ ∀ a ∈ l, ∃ b, f a = .ok b := by
  induction l with
  | nil => exact ⟨fun _ a ha => absurd ha List.not_mem_nil, fun _ => ⟨[], rfl⟩⟩
  | cons a l ih =>
    rw [List.mapM_cons, List.forall_mem_cons, ← ih]
    constructor
    · rintro ⟨r, h⟩
      obtain ⟨b, hb, h⟩ := except_bind_eq_ok_iff.mp h
      obtain ⟨bs, hbs, -⟩ := except_bind_eq_ok_iff.mp h
      exact ⟨⟨b, hb⟩, bs, hbs⟩
    · rintro ⟨⟨b, hb⟩, bs, hbs⟩
      exact ⟨b :: bs, except_bind_eq_ok_iff.mpr ⟨b, hb, except_bind_eq_ok_iff.mpr ⟨bs, hbs, rfl⟩⟩⟩

/-- What each step of a fold keeps, the fold keeps. -/
theorem foldlM_of_ok {P : β → Prop} {f : β → α → Attempt σ β} {l : List α}
    (h : ∀ b, ∀ a ∈ l, ∀ s c t, P b → f b a s = .ok c t → P c) {b c : β} {s t : σ} (hb : P b)
    (hc : l.foldlM f b s = .ok c t) : P c := by
  induction l generalizing b s with
  | nil =>
    injection hc with hc _
    exact hc ▸ hb
  | cons a l ih =>
    rw [List.foldlM_cons] at hc
    obtain ⟨x, u, hx, hc⟩ := bind_eq_ok_iff.mp hc
    exact ih (fun b j hj => h b j (List.mem_cons_of_mem a hj))
      (h b a List.mem_cons_self s x u hb hx) hc

/-- Wherever an attempt starts and however it ends, it moves along a relation. -/
def Moves (r : σ → σ → Prop) (x : Attempt σ α) : Prop := ∀ s, r s (x.after s)

namespace Moves

theorem mono {q : σ → σ → Prop} {x : Attempt σ α} (hx : x.Moves r) (h : ∀ s t, r s t → q s t) :
    x.Moves q := fun s => h s _ (hx s)

theorem of_ok {x : Attempt σ α} (hx : x.Moves r) {s t : σ} {a : α} (h : x s = .ok a t) : r s t :=
  after_of_ok h ▸ hx s

theorem of_error {x : Attempt σ α} (hx : x.Moves r) {s t : σ} {f : Failure}
    (h : x s = .error f t) : r s t :=
  after_of_error h ▸ hx s

/-- What comes second may rely on what the first has done. -/
theorem bind_of_ok {x : Attempt σ α} {f : α → Attempt σ β}
    (herror : ∀ s e t, x s = .error e t → r s t)
    (hok : ∀ s a t, x s = .ok a t → r s ((f a).after t)) : (x >>= f).Moves r := by
  intro s
  rw [after, bind_apply]
  cases h : x s with
  | ok a t => exact hok s a t h
  | error e t => exact herror s e t h

theorem ite {c : Prop} [Decidable c] {x y : Attempt σ α} (hx : x.Moves r) (hy : y.Moves r) :
    (if c then x else y).Moves r := by
  split
  · exact hx
  · exact hy

variable [IsPreorder σ r]

theorem pure (a : α) : (Pure.pure a : Attempt σ α).Moves r := fun s => refl s

theorem throw (f : Failure) : (MonadExcept.throw f : Attempt σ α).Moves r := fun s => refl s

theorem get : (MonadState.get : Attempt σ σ).Moves r := fun s => refl s

theorem query (f : σ → Except Failure α) : (Attempt.query f).Moves r := by
  intro s
  unfold after Attempt.query
  cases f s with
  | ok a => exact refl s
  | error e => exact refl s

theorem lift (x : Except Failure α) : (liftM x : Attempt σ α).Moves r := query fun _ => x

theorem bind {x : Attempt σ α} {f : α → Attempt σ β} (hx : x.Moves r)
    (hf : ∀ a, (f a).Moves r) : (x >>= f).Moves r :=
  bind_of_ok (fun _ _ _ h => hx.of_error h) fun _ a _ h => IsTrans.trans _ _ _ (hx.of_ok h) (hf a _)

theorem check {c : Prop} [Decidable c] {e : Failure} {f : PUnit → Attempt σ α}
    (hf : ∀ a, (f a).Moves r) : (if c then MonadExcept.throw e >>= f else f ⟨⟩).Moves r :=
  ite (bind (throw e) hf) (hf _)

theorem forM {f : α → Attempt σ PUnit} (h : ∀ a, (f a).Moves r) (l : List α) :
    (l.forM f).Moves r := by
  induction l with
  | nil => exact pure _
  | cons a l ih => exact bind (h a) fun _ => ih

theorem atomically {f : σ → Except Failure (α × σ)} (h : ∀ s a t, f s = .ok (a, t) → r s t) :
    (Attempt.atomically f).Moves r := fun s =>
  after_atomically (refl s) (h s)

end Moves

end Attempt

end SectorFs

import SectorFs.Failure

/-!
# Attempts

An attempt acts on a state and ends with a value or a `Failure`.  Either way it
leaves a state behind: an operation made of several steps that fails at its third
has done the first two.  A step that is all or nothing is made with
`Attempt.atomically`, and `atomically_error` says that it changes nothing when it
fails.
-/

namespace SectorFs

/-- An action on a state `σ` that may fail, keeping what it did before. -/
abbrev Attempt (σ α : Type) : Type := EStateM Failure σ α

namespace Attempt

variable {σ α : Type}

/-- The result of a computation that does not look at the state. -/
def ofExcept : Except Failure α → Attempt σ α
  | .ok a, s => .ok a s
  | .error f, s => .error f s

instance : MonadLift (Except Failure) (EStateM Failure σ) := ⟨ofExcept⟩

/-- A question put to the state. -/
def query (f : σ → Except Failure α) : Attempt σ α := fun s =>
  ofExcept (f s) s

/-- A change of state that happens as a whole or not at all. -/
def atomically (f : σ → Except Failure (α × σ)) : Attempt σ α := fun s =>
  match f s with
  | .ok (a, t) => .ok a t
  | .error e => .error e s

/-- The state that an attempt leaves behind, however it ends. -/
def after (x : Attempt σ α) (s : σ) : σ :=
  match x s with
  | .ok _ t => t
  | .error _ t => t

/-- Whether an attempt succeeds, with a value and a state that pass a test. -/
def succeeds (x : Attempt σ α) (s : σ) (p : α → σ → Bool) : Bool :=
  match x s with
  | .ok a t => p a t
  | .error _ _ => false

/-- Whether an attempt fails, with a failure and a state that pass a test. -/
def fails (x : Attempt σ α) (s : σ) (p : Failure → σ → Bool) : Bool :=
  match x s with
  | .ok _ _ => false
  | .error e t => p e t

@[simp] theorem ofExcept_ok (a : α) (s : σ) : ofExcept (.ok a) s = .ok a s := rfl

@[simp] theorem ofExcept_error (f : Failure) (s : σ) :
    ofExcept (α := α) (.error f) s = .error f s := rfl

/-- An attempt only looks at the state: it leaves it alone when it succeeds. -/
def Keeps (x : Attempt σ α) : Prop := ∀ s a t, x s = .ok a t → t = s

/-! ### What they do from a given state -/

theorem bind_apply {β : Type} (x : Attempt σ α) (f : α → Attempt σ β) (s : σ) :
    (x >>= f) s = match x s with
      | .ok a t => f a t
      | .error e t => .error e t := by
  show EStateM.bind x f s = _
  unfold EStateM.bind
  cases x s <;> rfl

theorem map_apply {β : Type} (f : α → β) (x : Attempt σ α) (s : σ) :
    (f <$> x) s = match x s with
      | .ok a t => .ok (f a) t
      | .error e t => .error e t := by
  show EStateM.map f x s = _
  unfold EStateM.map
  cases x s <;> rfl

@[simp] theorem pure_apply (a : α) (s : σ) : (pure a : Attempt σ α) s = .ok a s := rfl

@[simp] theorem throw_apply (e : Failure) (s : σ) :
    (throw e : Attempt σ α) s = .error e s := rfl

@[simp] theorem get_apply (s : σ) : (get : Attempt σ σ) s = .ok s s := rfl

@[simp] theorem modify_apply (f : σ → σ) (s : σ) :
    (modify f : Attempt σ PUnit) s = .ok ⟨⟩ (f s) := rfl

@[simp] theorem lift_ok_apply (a : α) (s : σ) :
    (liftM (Except.ok a : Except Failure α) : Attempt σ α) s = .ok a s := rfl

@[simp] theorem lift_error_apply (e : Failure) (s : σ) :
    (liftM (Except.error e : Except Failure α) : Attempt σ α) s = .error e s := rfl

theorem after_of_ok {x : Attempt σ α} {s t : σ} {a : α} (h : x s = .ok a t) :
    x.after s = t := by
  rw [after, h]

theorem after_of_error {x : Attempt σ α} {s t : σ} {e : Failure} (h : x s = .error e t) :
    x.after s = t := by
  rw [after, h]

theorem succeeds_iff {x : Attempt σ α} {s : σ} {p : α → σ → Bool} :
    x.succeeds s p = true ↔ ∃ a t, x s = .ok a t ∧ p a t = true := by
  unfold succeeds
  cases x s with
  | ok a t =>
    refine ⟨fun h => ⟨a, t, rfl, h⟩, ?_⟩
    rintro ⟨_, _, h, hp⟩
    cases h
    exact hp
  | error e t => simp

theorem fails_iff {x : Attempt σ α} {s : σ} {p : Failure → σ → Bool} :
    x.fails s p = true ↔ ∃ e t, x s = .error e t ∧ p e t = true := by
  unfold fails
  cases x s with
  | ok a t => simp
  | error e t =>
    refine ⟨fun h => ⟨e, t, rfl, h⟩, ?_⟩
    rintro ⟨_, _, h, hp⟩
    cases h
    exact hp

theorem bind_eq_ok_iff {β : Type} {x : Attempt σ α} {f : α → Attempt σ β} {s u : σ} {b : β} :
    (x >>= f) s = .ok b u ↔ ∃ a t, x s = .ok a t ∧ f a t = .ok b u := by
  show EStateM.bind x f s = _ ↔ _
  unfold EStateM.bind
  cases x s with
  | ok a t =>
    constructor
    · exact fun h => ⟨a, t, rfl, h⟩
    · rintro ⟨_, _, h, hf⟩
      cases h
      exact hf
  | error e t => simp

theorem bind_eq_error_iff {β : Type} {x : Attempt σ α} {f : α → Attempt σ β} {s u : σ}
    {e : Failure} :
    (x >>= f) s = .error e u ↔ x s = .error e u ∨ ∃ a t, x s = .ok a t ∧ f a t = .error e u := by
  show EStateM.bind x f s = _ ↔ _
  unfold EStateM.bind
  cases x s with
  | ok a t =>
    constructor
    · exact fun h => .inr ⟨a, t, rfl, h⟩
    · rintro (h | ⟨_, _, h, hf⟩)
      · cases h
      · cases h
        exact hf
  | error e t => simp

theorem except_bind_eq_error_iff {β : Type} {x : Except Failure α} {f : α → Except Failure β}
    {e : Failure} : (x >>= f) = .error e ↔ x = .error e ∨ ∃ a, x = .ok a ∧ f a = .error e := by
  cases x with
  | ok a => simp [bind, Except.bind]
  | error e => simp [bind, Except.bind]

theorem lift_eq_ok_iff {x : Except Failure α} {s t : σ} {a : α} :
    (liftM x : Attempt σ α) s = .ok a t ↔ x = .ok a ∧ t = s := by
  cases x with
  | ok b =>
    constructor
    · intro h
      injection h with hb ht
      exact ⟨by rw [hb], ht.symm⟩
    · rintro ⟨h, rfl⟩
      rw [h]
      rfl
  | error e => exact ⟨nofun, fun h => nomatch h.1⟩

theorem lift_bind {β : Type} (x : Except Failure α) (f : α → Except Failure β) :
    (liftM (x >>= f) : Attempt σ β) = liftM x >>= fun a => liftM (f a) := by
  cases x with
  | ok a => rfl
  | error e => rfl

theorem atomically_eq_ok_iff {f : σ → Except Failure (α × σ)} {s t : σ} {a : α} :
    atomically f s = .ok a t ↔ f s = .ok (a, t) := by
  unfold atomically
  cases f s with
  | ok r => simp [Prod.ext_iff]
  | error e => simp

theorem except_bind_eq_ok_iff {β : Type} {x : Except Failure α} {f : α → Except Failure β}
    {b : β} : (x >>= f) = .ok b ↔ ∃ a, x = .ok a ∧ f a = .ok b := by
  cases x with
  | ok a => simp [bind, Except.bind]
  | error e => simp [bind, Except.bind]

theorem atomically_error {f : σ → Except Failure (α × σ)} {s t : σ} {e : Failure}
    (h : atomically f s = .error e t) : t = s := by
  unfold atomically at h
  split at h <;> simp_all

/-- What holds before a change that happens as a whole or not at all, and of what it makes
when it happens, holds afterwards. -/
theorem after_atomically {f : σ → Except Failure (α × σ)} {s : σ} {P : σ → Prop} (hs : P s)
    (hf : ∀ a t, f s = .ok (a, t) → P t) : P ((atomically f).after s) := by
  unfold after atomically
  cases hr : f s with
  | ok r => exact hf r.1 r.2 hr
  | error e => exact hs

end Attempt

end SectorFs

import Mathlib.Algebra.Group.Nat.Defs
import SectorFs.Proofs.Buffer

/-!
# Buffers are bounded lists

A buffer that is used by calls behaves as a list that no call may make longer than the limit of
its policy, as long as no allocation fails.  Every call puts other elements into the buffer and asks
for room, at most (`Call.exists_refit`), so three facts about room are enough: it is there, or the
buffer grows to the target of its policy, or the limit is passed.  From what one call does
(`Call.acts`) follows what a run of them does (`isBoundedList_of_run`).
-/

namespace SectorFs

namespace Buffer

/-! ### Calls -/

/-- A call that a buffer is used by. -/
inductive Call (α : Type) where
  | push (a : α)
  | append (as : List α)
  | resize (n : Nat) (a : α)
  | resizeWith (n : Nat) (f : Nat → α)
  | reserve (n : Nat)
  | truncate (n : Nat)
  | clear
  | swapRemove (i : Nat)
  /-- The elements are replaced by as many others. -/
  | edit (f : Array α → Array α) (size_eq : ∀ as, (f as).size = as.size)

variable {p : Policy} {α : Type}

namespace Call

/-- What a call makes of a buffer.  There is nothing to take out of a place that is not there. -/
def apply (b : Buffer p α) : Call α → Except Error (Buffer p α)
  | push a => b.push a
  | append as => b.append as.toArray
  | resize n a => b.resize n a
  | resizeWith n f => b.resizeWith n f
  | reserve n => b.reserve n
  | truncate n => .ok (b.truncate n)
  | clear => .ok b.clear
  | swapRemove i => .ok (if h : i < b.items.size then (b.swapRemove i h).2 else b)
  | edit f h => .ok (b.withItems (f b.items) (h b.items))

/-- The buffer after a call, which may have failed. -/
def after (b : Buffer p α) (c : Call α) : Buffer p α :=
  match c.apply b with
  | .ok b' => b'
  | .error _ => b

/-- The length, or the room, that a call asks for when there are `size` elements. -/
def wanted (size : Nat) : Call α → Nat
  | push _ => size + 1
  | append as => size + as.length
  | resize n _ => n
  | resizeWith n _ => n
  | reserve n => n
  | _ => 0

/-- What the call does to a list. -/
def plain (l : List α) : Call α → List α
  | push a => l ++ [a]
  | append as => l ++ as
  | resize n a => l.take n ++ List.replicate (n - l.length) a
  | resizeWith n f => l.take n ++ (List.range (n - l.length)).map f
  | reserve _ => l
  | truncate n => l.take n
  | clear => []
  | swapRemove i => if i < l.length then takeOut l i else l
  | edit f _ => (f l.toArray).toList

/-- What the call does to a list that may not become longer than `limit`. -/
def bounded (limit : Nat) (l : List α) (c : Call α) : List α :=
  if c.wanted l.length ≤ limit then c.plain l else l

/-- The allocation that a call asks for, if it asks for one, is not too large. -/
def Granted (b : Buffer p α) (c : Call α) : Prop :=
  b.capacity < c.wanted b.size → c.wanted b.size ≤ p.limit →
    p.width * p.target b.capacity (c.wanted b.size) ≤ maxAllocation

end Call

/-- The buffer after some calls, one after the other. -/
def run (calls : List (Call α)) (b : Buffer p α) : Buffer p α := calls.foldl Call.after b

/-- No call asks for an allocation that is too large. -/
def AllGranted : List (Call α) → Buffer p α → Prop
  | [], _ => True
  | c :: calls, b => c.Granted b ∧ AllGranted calls (c.after b)

/-- A buffer to begin with. -/
def IsNew (b : Buffer p α) : Prop := b = empty ∨ ∃ n, withCapacity n = .ok b

/-! ### Room -/

/-- A target is at least double what there was, as far as the limit goes. -/
theorem Policy.min_le_target (p : Policy) {current : Nat} (h : current ≠ 0) (needed : Nat) :
    min (2 * current) p.limit ≤ p.target current needed := by
  rw [Policy.target, if_neg h]
  omega

theorem refit_capacity (b : Buffer p α) (items : Array α) (h : items.size ≤ b.capacity) :
    b.refit b.capacity items h = .ok ⟨items, b.capacity, h, b.capacity_le_limit⟩ := by
  obtain ⟨r, hr, hcap⟩ := capacityFor_of_le (Nat.le_refl b.capacity)
  exact refit_eq_ok_iff.mpr ⟨rfl, r, hr, hcap.symm⟩

/-! ### One call -/

namespace Call

/-- A call puts other elements into the buffer.  The room that it makes sure of is what it asks
for, unless there is enough anyway. -/
theorem exists_refit (b : Buffer p α) (c : Call α) :
    ∃ (n : Nat) (items : Array α) (h : items.size ≤ n), c.apply b = b.refit n items h
      ∧ items.toList = c.plain b.items.toList
      ∧ (n = c.wanted b.size ∨ n ≤ b.capacity ∧ c.wanted b.size ≤ b.capacity) := by
  have hroom := b.size_le_capacity
  have hpos := Nat.zero_le b.capacity
  have hstay := Nat.le_refl b.capacity
  have hresized : ∀ (n : Nat) (f : Nat → α),
      (b.items.take n ++ (Array.range (n - b.items.size)).map f).size ≤ n := by
    intro n f
    simp
    omega
  cases c with
  | push a =>
    have hsize : (b.items.push a).size ≤ b.items.size + 1 := by simp
    exact ⟨_, _, hsize, rfl, by simp [plain], .inl rfl⟩
  | append as =>
    have hsize : (b.items ++ as.toArray).size ≤ b.items.size + as.toArray.size := by simp
    exact ⟨_, _, hsize, rfl, by simp [plain], .inl rfl⟩
  | resize n a =>
    exact ⟨_, _, hresized n fun _ => a, rfl, by simp [plain, List.map_const'], .inl rfl⟩
  | resizeWith n f => exact ⟨_, _, hresized n f, rfl, by simp [plain], .inl rfl⟩
  | reserve n =>
    refine ⟨_, _, Nat.le_max_right n b.items.size, rfl, rfl, ?_⟩
    show max n b.items.size = n ∨ max n b.items.size ≤ b.capacity ∧ n ≤ b.capacity
    omega
  | truncate n =>
    have hsize : (b.items.take n).size ≤ b.capacity := (b.truncate n).size_le_capacity
    exact ⟨_, _, hsize, (refit_capacity b _ hsize).symm, by simp [plain], .inr ⟨hstay, hpos⟩⟩
  | clear =>
    have hsize : (b.items.take 0).size ≤ b.capacity := b.clear.size_le_capacity
    exact ⟨_, _, hsize, (refit_capacity b _ hsize).symm, by simp [plain], .inr ⟨hstay, hpos⟩⟩
  | swapRemove i =>
    by_cases hi : i < b.items.size
    · have hsize := (b.swapRemove i hi).2.size_le_capacity
      refine ⟨_, _, hsize, ?_, ?_, .inr ⟨hstay, hpos⟩⟩
      · rw [apply, dif_pos hi]
        exact (refit_capacity b _ hsize).symm
      · rw [toList_swapRemove, plain, if_pos (by simpa using hi)]
    · refine ⟨_, _, hroom, ?_, ?_, .inr ⟨hstay, hpos⟩⟩
      · rw [apply, dif_neg hi]
        exact (refit_capacity b _ hroom).symm
      · rw [plain, if_neg (by simpa using hi)]
  | edit f hf =>
    have hsize : (f b.items).size ≤ b.capacity := hf b.items ▸ hroom
    exact ⟨_, _, hsize, (refit_capacity b _ hsize).symm, by simp [plain], .inr ⟨hstay, hpos⟩⟩

/-- What a call does to a buffer: it succeeds if what it asks for is within the limit, and then does
what it does to a list; the buffer grows to what is asked for, and to the double of what it had as
far as the limit goes.  Else it changes nothing. -/
structure Acts (b : Buffer p α) (c : Call α) : Prop where
  isOk_iff : (∃ b', c.apply b = .ok b') ↔ c.wanted b.size ≤ p.limit
  toList_eq : ∀ b', c.apply b = .ok b' → b'.items.toList = c.plain b.items.toList
  capacity_le : ∀ b', c.apply b = .ok b' → b.capacity ≤ b'.capacity
  grown : ∀ b', c.apply b = .ok b' → b'.capacity ≠ b.capacity →
    c.wanted b.size ≤ b'.capacity ∧ (b.capacity ≠ 0 → min (2 * b.capacity) p.limit ≤ b'.capacity)
  error_eq : ∀ e, c.apply b = .error e → e = .limitReached ∧ c.after b = b

theorem acts {b : Buffer p α} {c : Call α} (h : c.Granted b) : c.Acts b := by
  obtain ⟨n, items, hsize, happly, hitems, hn⟩ := c.exists_refit b
  have hcap := b.capacity_le_limit
  have hkept : ∀ b', c.apply b = .ok b' → b'.items.toList = c.plain b.items.toList := by
    intro b' hb'
    rw [items_of_refit (happly ▸ hb'), hitems]
  have hmono : ∀ b', c.apply b = .ok b' → b.capacity ≤ b'.capacity := by
    intro b' hb'
    exact capacity_le_of_refit (happly ▸ hb')
  have hleft : ∀ e, c.apply b = .error e → c.after b = b := by
    intro e he
    rw [after, he]
  rcases Nat.lt_or_ge p.limit (c.wanted b.size) with hlimit | hlimit
  · -- too much is asked for
    have hfail : c.apply b = .error .limitReached := by
      rw [happly, refit, capacityFor_of_limit_lt (by omega)]
    refine ⟨⟨?_, fun hle => absurd hle (Nat.not_le.mpr hlimit)⟩, hkept, hmono, ?_, ?_⟩
    · rintro ⟨b', hb'⟩
      cases hfail.symm.trans hb'
    · intro b' hb'
      cases hfail.symm.trans hb'
    · intro e he
      exact ⟨(Except.error.inj (hfail.symm.trans he)).symm, hleft e he⟩
  · have hok : ∃ r, b.capacityFor n = .ok r
        ∧ (r.1 = b.capacity ∨ n = c.wanted b.size ∧ r.1 = p.target b.capacity n) := by
      rcases Nat.lt_or_ge b.capacity n with hgrow | hroom
      · obtain rfl := hn.resolve_right fun hin => by omega
        obtain ⟨r, hr, htarget⟩ := capacityFor_of_lt hgrow hlimit (h hgrow hlimit)
        exact ⟨r, hr, .inr ⟨rfl, htarget⟩⟩
      · obtain ⟨r, hr, hstay⟩ := capacityFor_of_le hroom
        exact ⟨r, hr, .inl hstay⟩
    obtain ⟨r, hr, hgrown⟩ := hok
    have hsucc : c.apply b = .ok ⟨items, r.1, Nat.le_trans hsize r.2.1, r.2.2.2⟩ := by
      rw [happly, refit, hr]
    refine ⟨⟨fun _ => hlimit, fun _ => ⟨_, hsucc⟩⟩, hkept, hmono, ?_, ?_⟩
    · intro b' hb' hne
      obtain rfl := Except.ok.inj (hsucc.symm.trans hb')
      obtain ⟨rfl, htarget⟩ := hgrown.resolve_left hne
      refine ⟨r.2.1, fun hc => ?_⟩
      show min (2 * b.capacity) p.limit ≤ r.1
      rw [htarget]
      exact p.min_le_target hc _
    · intro e he
      cases hsucc.symm.trans he

theorem Acts.toList_after {b : Buffer p α} {c : Call α} (h : c.Acts b) :
    (c.after b).items.toList = c.bounded p.limit b.items.toList := by
  have hsize : b.items.toList.length = b.size := Array.length_toList
  cases happly : c.apply b with
  | ok b' =>
    rw [after, happly, bounded, hsize, if_pos (h.isOk_iff.mp ⟨b', happly⟩)]
    exact h.toList_eq b' happly
  | error e =>
    have hlimit : ¬c.wanted b.size ≤ p.limit := by
      intro hle
      obtain ⟨b', hb'⟩ := h.isOk_iff.mpr hle
      cases happly.symm.trans hb'
    rw [after, happly, bounded, hsize, if_neg hlimit]

theorem Acts.capacity_le_after {b : Buffer p α} {c : Call α} (h : c.Acts b) :
    b.capacity ≤ (c.after b).capacity := by
  cases happly : c.apply b with
  | ok b' =>
    rw [after, happly]
    exact h.capacity_le b' happly
  | error e => exact Nat.le_of_eq (congrArg capacity (h.error_eq e happly).2.symm)

end Call

/-! ### Runs -/

theorem items_of_isNew {b : Buffer p α} (h : b.IsNew) : b.items = #[] := by
  rcases h with rfl | ⟨n, hn⟩
  · rfl
  · exact items_of_withCapacity hn

theorem toList_run {calls : List (Call α)} {b : Buffer p α} (h : AllGranted calls b) :
    (run calls b).items.toList = calls.foldl (Call.bounded p.limit) b.items.toList
      ∧ b.capacity ≤ (run calls b).capacity := by
  induction calls generalizing b with
  | nil => exact ⟨rfl, Nat.le_refl _⟩
  | cons c calls ih =>
    obtain ⟨hitems, hcap⟩ := ih h.2
    have hacts := Call.acts h.1
    rw [List.foldl_cons, ← hacts.toList_after]
    exact ⟨hitems, Nat.le_trans hacts.capacity_le_after hcap⟩

/-- Where the limit itself is not too much, no allocation is. -/
theorem allGranted_of_limit (hp : p.width * p.limit ≤ maxAllocation) (calls : List (Call α))
    (b : Buffer p α) : AllGranted calls b := by
  induction calls generalizing b with
  | nil => trivial
  | cons c calls ih =>
    refine ⟨fun _ _ => ?_, ih _⟩
    exact Nat.le_trans (Nat.mul_le_mul_left _ (p.target_le_limit ..)) hp

/-- The capacity after growing, in words: doubling stops at the largest word, and the allocation
gets as many elements more as the target is above the elements that are there. -/
def grown? (b : Buffer p α) (n : Nat) : Option Nat :=
  let doubled := if b.capacity = 0 then p.initial else min (2 * b.capacity) (2 ^ 64 - 1)
  let target := min (max doubled n) p.limit
  if b.size ≤ target then some (b.size + (target - b.size)) else none

theorem size_le_target {b : Buffer p α} {n : Nat} (h : b.capacity < n) (hn : n ≤ p.limit) :
    b.size ≤ p.target b.capacity n :=
  Nat.le_trans b.size_le_capacity (Nat.le_trans (Nat.le_of_lt h) (Policy.le_target hn))

/-- With a limit that is a word, nothing is lost where doubling stops. -/
theorem grown?_eq {b : Buffer p α} {n : Nat} (h : b.capacity < n) (hn : n ≤ p.limit)
    (hlimit : p.limit < 2 ^ 64) : b.grown? n = some (p.target b.capacity n) := by
  have hsize := size_le_target h hn
  have htarget : min (max (if b.capacity = 0 then p.initial
      else min (2 * b.capacity) (2 ^ 64 - 1)) n) p.limit = p.target b.capacity n := by
    rw [Policy.target]
    split <;> omega
  unfold grown?
  simp only [htarget]
  rw [if_pos hsize, Nat.add_sub_cancel' hsize]

/-- A buffer that keeps to its bounds and holds a list.  Every call does to it what it does to a
list or reports the limit, and no difference is below zero when it grows. -/
structure IsBoundedList (b : Buffer p α) (l : List α) : Prop where
  toList_eq : b.items.toList = l
  size_le : b.size ≤ b.capacity
  capacity_le : b.capacity ≤ p.limit
  acts : ∀ c : Call α, c.Granted b → c.Acts b
  size_le_target : ∀ n, b.capacity < n → n ≤ p.limit → b.size ≤ p.target b.capacity n
  grown?_eq : ∀ n, b.capacity < n → n ≤ p.limit → p.limit < 2 ^ 64 →
    b.grown? n = some (p.target b.capacity n)

/-- A buffer that begins empty is a list of bounded length, whatever calls it is used by, and never
gives room back. -/
theorem isBoundedList_of_run {b : Buffer p α} (hnew : b.IsNew) {calls : List (Call α)}
    (h : AllGranted calls b) :
    (run calls b).IsBoundedList (calls.foldl (Call.bounded p.limit) [])
      ∧ b.capacity ≤ (run calls b).capacity := by
  obtain ⟨hitems, hcap⟩ := toList_run h
  rw [items_of_isNew hnew] at hitems
  refine ⟨⟨hitems, (run calls b).size_le_capacity, (run calls b).capacity_le_limit, ?_, ?_, ?_⟩,
    hcap⟩
  · intro c hc
    exact Call.acts hc
  · intro n hlt hn
    exact size_le_target hlt hn
  · intro n hlt hn hlimit
    exact grown?_eq hlt hn hlimit

/-- Room for three of at most five elements, of which a first allocation would have twenty: two are
put in, three more double what there is as far as the limit goes, and a sixth is refused. -/
theorem isBoundedList_of_run_five :
    ∃ b : Buffer ⟨20, 5, 1⟩ Nat, withCapacity 3 = .ok b
      ∧ AllGranted [.append [7, 8], .resize 5 0, .push 9, .swapRemove 0] b
      ∧ (run [.append [7, 8], .resize 5 0, .push 9, .swapRemove 0] b).IsBoundedList [0, 8, 0, 0]
      ∧ (run [.append [7, 8], .resize 5 0, .push 9, .swapRemove 0] b).capacity = 5 := by
  obtain ⟨b, hb⟩ : ∃ b : Buffer ⟨20, 5, 1⟩ Nat, withCapacity 3 = .ok b := ⟨_, rfl⟩
  have hgranted := allGranted_of_limit (by decide)
    [.append [7, 8], .resize 5 0, .push 9, .swapRemove 0] b
  obtain ⟨hlist, -⟩ := isBoundedList_of_run (.inr ⟨3, hb⟩) hgranted
  refine ⟨b, hb, hgranted, hlist, ?_⟩
  obtain rfl := Except.ok.inj hb
  decide +kernel

end Buffer

end SectorFs

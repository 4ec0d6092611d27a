import SectorFs.Buffer

/-!
# Buffers as lists

A buffer whose policy never asks for more than one allocation can hold grows exactly as
far as its limit: `push_isOk` and `capacityFor_isOk` give the room that is there, and
`limit_of_reserve` the room that was needed.  `takeOut` is the removal of an element whose
place the last one takes; `perm_takeOut` says that nothing else is lost, and `perm_set`
the same of an element that is replaced.
-/

namespace SectorFs

/-! ### Taking an element out -/

section

variable {α : Type}

/-- A list without its element `i`, whose place the last element takes. -/
def takeOut (l : List α) (i : Nat) : List α :=
  match l.getLast? with
  | some last => (l.set i last).dropLast
  | none => []

theorem takeOut_append_singleton {l : List α} {i : Nat} (h : i < l.length) (a : α) :
    takeOut (l ++ [a]) i = l.set i a := by
  rw [takeOut, List.getLast?_concat]
  simp only []
  rw [List.set_append_left _ _ h, List.dropLast_concat]

theorem takeOut_cons {l : List α} {i : Nat} (h : i < l.length) (a : α) :
    takeOut (a :: l) (i + 1) = a :: takeOut l i := by
  rcases List.eq_nil_or_concat l with rfl | ⟨l, b, rfl⟩
  · exact absurd h (Nat.not_lt_zero _)
  · rw [List.concat_eq_append]
    have hb : a :: (l ++ [b]) = (a :: l) ++ [b] := rfl
    rw [takeOut, takeOut, hb, List.getLast?_concat, List.getLast?_concat]
    simp only []
    rw [← hb, List.set_cons_succ, List.dropLast_cons_of_ne_nil (by simp)]

theorem perm_takeOut {l : List α} {i : Nat} {a : α} (h : l[i]? = some a) :
    l.Perm (a :: takeOut l i) := by
  induction l generalizing i with
  | nil => cases h
  | cons b l ih =>
    cases i with
    | succ i =>
      have hi : l[i]? = some a := h
      rw [takeOut_cons (List.getElem?_eq_some_iff.mp hi).1]
      exact ((ih hi).cons b).trans (.swap a b _)
    | zero =>
      obtain rfl : b = a := Option.some.inj h
      rcases List.eq_nil_or_concat l with rfl | ⟨l, c, rfl⟩
      · exact .refl _
      · rw [List.concat_eq_append]
        have : takeOut (b :: (l ++ [c])) 0 = c :: l := by
          rw [takeOut, show b :: (l ++ [c]) = (b :: l) ++ [c] from rfl, List.getLast?_concat]
          exact @List.dropLast_concat _ (c :: l) c
        rw [this]
        exact (List.perm_append_singleton c l).cons b

/-- Of two elements, taking out one that a search does not want is not noticed by it. -/
theorem find?_takeOut {l : List α} {i : Nat} {a : α} {p : α → Bool}
    (hle : l.length ≤ 2) (hget : l[i]? = some a) (hp : p a = false) :
    (takeOut l i).find? p = l.find? p := by
  match l, i, hget with
  | [b], 0, hget =>
    obtain rfl := Option.some.inj hget
    simp [takeOut, hp]
  | [b, c], 0, hget =>
    obtain rfl := Option.some.inj hget
    simp [takeOut, hp]
  | [b, c], 1, hget =>
    obtain rfl := Option.some.inj hget
    simp [takeOut, List.find?_cons, hp]
  | [b, c], i + 2, hget => cases hget
  | b :: c :: d :: l, i, hget => exact absurd hle (by simp)

theorem perm_set {l : List α} {i : Nat} {a : α} (h : l[i]? = some a) (b : α) :
    (a :: l.set i b).Perm (b :: l) := by
  have hlt := (List.getElem?_eq_some_iff.mp h).1
  have h1 : (l ++ [b])[i]? = some a := by rw [List.getElem?_append_left hlt, h]
  have h2 := perm_takeOut h1
  rw [takeOut_append_singleton hlt] at h2
  exact h2.symm.trans List.perm_append_comm

end

namespace Buffer

variable {p : Policy} {α : Type}

/-! ### Room -/

theorem capacityFor_of_le {b : Buffer p α} {n : Nat} (h : n ≤ b.capacity) :
    ∃ r, b.capacityFor n = .ok r ∧ r.1 = b.capacity := by
  rw [capacityFor, dif_pos h]
  exact ⟨_, rfl, rfl⟩

theorem capacityFor_of_lt {b : Buffer p α} {n : Nat} (h : b.capacity < n) (hn : n ≤ p.limit)
    (hgrant : p.width * p.target b.capacity n ≤ maxAllocation) :
    ∃ r, b.capacityFor n = .ok r ∧ r.1 = p.target b.capacity n := by
  rw [capacityFor, dif_neg (Nat.not_le.mpr h), dif_neg (Nat.not_lt.mpr hn),
    if_neg (Nat.not_lt.mpr hgrant)]
  exact ⟨_, rfl, rfl⟩

theorem capacityFor_of_limit_lt {b : Buffer p α} {n : Nat} (h : p.limit < n) :
    b.capacityFor n = .error .limitReached := by
  have hcap := b.capacity_le_limit
  rw [capacityFor, dif_neg (by omega), dif_pos h]

theorem capacityFor_isOk (hp : p.width * p.limit ≤ maxAllocation) (b : Buffer p α) {n : Nat}
    (h : n ≤ p.limit) : ∃ c, b.capacityFor n = .ok c := by
  rcases Nat.lt_or_ge b.capacity n with hgrow | hroom
  · have ht : p.width * p.target b.capacity n ≤ p.width * p.limit :=
      Nat.mul_le_mul_left _ (p.target_le_limit ..)
    obtain ⟨c, hc, -⟩ := capacityFor_of_lt hgrow h (Nat.le_trans ht hp)
    exact ⟨c, hc⟩
  · obtain ⟨c, hc, -⟩ := capacityFor_of_le hroom
    exact ⟨c, hc⟩

theorem limit_of_capacityFor {b : Buffer p α} {n : Nat}
    {c : { c : Nat // n ≤ c ∧ b.capacity ≤ c ∧ c ≤ p.limit }} (_ : b.capacityFor n = .ok c) :
    n ≤ p.limit :=
  Nat.le_trans c.2.1 c.2.2.2

theorem refit_isOk (hp : p.width * p.limit ≤ maxAllocation) (b : Buffer p α) {n : Nat}
    (hn : n ≤ p.limit) (items : Array α) (h : items.size ≤ n) :
    ∃ c, b.refit n items h = .ok c := by
  obtain ⟨c, hc⟩ := capacityFor_isOk hp b hn
  exact ⟨_, by rw [refit, hc]⟩

/-- Where no allocation is too large, only the limit keeps a buffer from growing. -/
theorem refit_error (hp : p.width * p.limit ≤ maxAllocation) {b : Buffer p α} {n : Nat}
    {items : Array α} {h : items.size ≤ n} {e : Error} (he : b.refit n items h = .error e) :
    e = .limitReached := by
  by_cases hn : n ≤ p.limit
  · obtain ⟨c, hc⟩ := refit_isOk hp b hn items h
    rw [hc] at he
    cases he
  · rw [refit, capacityFor_of_limit_lt (Nat.lt_of_not_le hn)] at he
    injection he with he
    exact he.symm

theorem append_error (hp : p.width * p.limit ≤ maxAllocation) {b : Buffer p α} {as : Array α}
    {e : Error} (h : b.append as = .error e) : e = .limitReached :=
  refit_error hp h

theorem resize_error (hp : p.width * p.limit ≤ maxAllocation) {b : Buffer p α} {n : Nat} {a : α}
    {e : Error} (h : b.resize n a = .error e) : e = .limitReached := by
  unfold resize resizeWith at h
  exact refit_error hp h

theorem push_isOk (hp : p.width * p.limit ≤ maxAllocation) (b : Buffer p α) (a : α)
    (h : b.items.size < p.limit) : ∃ c, b.push a = .ok c :=
  refit_isOk hp b h _ _

theorem resize_isOk (hp : p.width * p.limit ≤ maxAllocation) (b : Buffer p α) {n : Nat}
    (h : n ≤ p.limit) (a : α) : ∃ c, b.resize n a = .ok c := by
  unfold resize resizeWith
  exact refit_isOk hp b h _ _

theorem limit_of_reserve {b c : Buffer p α} {n : Nat} (h : b.reserve n = .ok c) :
    max n b.items.size ≤ p.limit := by
  obtain ⟨-, r, hr, -⟩ := refit_eq_ok_iff.mp h
  exact limit_of_capacityFor hr

theorem size_le_limit (b : Buffer p α) : b.items.size ≤ p.limit :=
  Nat.le_trans b.size_le_capacity b.capacity_le_limit

theorem write_isOk (hp : p.width * p.limit ≤ maxAllocation) (b : Buffer p α) {start : Nat}
    {as : Array α} (h : start + as.size ≤ p.limit) (a : α) : ∃ c, b.write start as a = .ok c :=
  refit_isOk hp b (Nat.max_le.mpr ⟨b.size_le_limit, h⟩) _ _

theorem withCapacity_isOk (hp : p.width * p.limit ≤ maxAllocation)
    {n : Nat} (h : n ≤ p.limit) :
    ∃ b : Buffer p α, withCapacity n = .ok b ∧ b.items = #[] := by
  unfold withCapacity
  rw [dif_neg (Nat.not_lt.mpr h),
    if_neg (Nat.not_lt.mpr (Nat.le_trans (Nat.mul_le_mul_left _ h) hp))]
  exact ⟨_, rfl, rfl⟩

theorem items_of_withCapacity {n : Nat} {b : Buffer p α} (h : withCapacity n = .ok b) :
    b.items = #[] := by
  unfold withCapacity at h
  split at h
  · cases h
  · split at h
    · cases h
    · injection h with h
      rw [← h]
      rfl

theorem withCapacity_error (hp : p.width * p.limit ≤ maxAllocation) {n : Nat} {e : Error}
    (h : (withCapacity n : Except Error (Buffer p α)) = .error e) : e = .limitReached := by
  by_cases hn : n ≤ p.limit
  · obtain ⟨b, hb, -⟩ := withCapacity_isOk (α := α) hp hn
    rw [hb] at h
    cases h
  · rw [withCapacity, dif_pos (Nat.lt_of_not_le hn)] at h
    injection h with h
    exact h.symm

theorem append_empty_isOk (hp : p.width * p.limit ≤ maxAllocation) {b : Buffer p α}
    (hb : b.items = #[]) (as : List α) (h : as.length ≤ p.limit) :
    ∃ c : Buffer p α, b.append as.toArray = .ok c ∧ c.items = as.toArray := by
  obtain ⟨c, hc⟩ := refit_isOk hp b (n := b.items.size + as.toArray.size)
    (by rw [hb]; simpa using h) (b.items ++ as.toArray) (by simp)
  refine ⟨c, hc, ?_⟩
  rw [items_of_append hc, hb, Array.empty_append]

theorem resize_same_isOk (hp : p.width * p.limit ≤ maxAllocation) (b : Buffer p α) (a : α) :
    ∃ c : Buffer p α, b.resize b.items.size a = .ok c ∧ c.items = b.items := by
  obtain ⟨c, hc⟩ := refit_isOk hp b (n := b.items.size) b.size_le_limit
    (b.items.take b.items.size ++ (Array.range (b.items.size - b.items.size)).map fun _ => a)
    (by simp)
  have hr : b.resize b.items.size a = .ok c := hc
  refine ⟨c, hr, ?_⟩
  rw [items_of_resizeWith hr]
  simp

theorem toList_of_push {b c : Buffer p α} {a : α} (h : b.push a = .ok c) :
    c.items.toList = b.items.toList ++ [a] := by
  rw [items_of_push h, Array.toList_push]

theorem toList_swapRemove (b : Buffer p α) (i : Nat) (h : i < b.items.size) :
    (b.swapRemove i h).2.items.toList = takeOut b.items.toList i := by
  have hb : b.items.toList.getLast? = some (b.items.back (by omega)) := by
    rw [List.getLast?_eq_some_getLast (by
      intro he
      rw [← Array.length_toList, he] at h
      exact absurd h (Nat.not_lt_zero _))]
    simp
  rw [takeOut, hb]
  simp [swapRemove]

end Buffer

end SectorFs

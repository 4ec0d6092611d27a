import SectorFs.Sector

/-!
# Bytes in sectors

A byte string that is cut into sectors and put together again has zeros behind it, as
many as fill its last sector (`Sector.join_map_ofBytes`); taking its own length gives it
back (`Sector.take_join_split`).  Where the bytes of a list of sectors are cut between two
sectors, the list is (`Sector.join_take`, `Sector.join_drop`).
-/

namespace SectorFs

theorem le_mul_partsOf (n : Nat) {part : Nat} (h : 0 < part) : n ≤ part * partsOf n part := by
  unfold partsOf
  have := Nat.div_add_mod (n + (part - 1)) part
  have := Nat.mod_lt (n + (part - 1)) h
  omega

namespace Sector

theorem join_map_ofBytes (n : Nat) (bytes : List UInt8) (h : bytes.length ≤ sectorSize * n) :
    join ((pieces sectorSize n bytes).map ofBytes)
      = bytes ++ List.replicate (sectorSize * n - bytes.length) 0 := by
  induction n generalizing bytes with
  | zero =>
    have : bytes = [] := List.eq_nil_of_length_eq_zero (by omega)
    subst this
    rfl
  | succ n ih =>
    rw [pieces, List.map_cons, join, List.flatMap_cons, ← join, Nat.mul_succ]
    show padTo 0 sectorSize (bytes.take sectorSize) ++ _ = _
    rw [Nat.mul_succ] at h
    have hd : (bytes.drop sectorSize).length = bytes.length - sectorSize := List.length_drop
    rw [padTo_eq_append, ih _ (by omega), List.take_take, Nat.min_self, List.length_take, hd]
    by_cases hlen : bytes.length ≤ sectorSize
    · rw [List.take_of_length_le hlen, List.drop_eq_nil_of_le hlen, List.nil_append,
        List.append_assoc, List.replicate_append_replicate,
        show sectorSize - min sectorSize bytes.length + (sectorSize * n - (bytes.length - sectorSize))
          = sectorSize * n + sectorSize - bytes.length by omega]
    · have hz : sectorSize - min sectorSize bytes.length = 0 := by omega
      rw [hz, List.replicate_zero, List.append_nil, ← List.append_assoc, List.take_append_drop,
        show sectorSize * n - (bytes.length - sectorSize)
          = sectorSize * n + sectorSize - bytes.length by omega]

@[simp] theorem length_split (bytes : List UInt8) :
    (split bytes).length = partsOf bytes.length sectorSize := by
  rw [split, List.length_map, length_pieces]

theorem take_join_split (bytes : List UInt8) : (join (split bytes)).take bytes.length = bytes := by
  rw [split, join_map_ofBytes _ _ (le_mul_partsOf _ (by decide)), List.take_left']
  rfl

/-! ### Sectors that lie one behind the other -/

theorem join_cons (s : Sector) (l : List Sector) : join (s :: l) = s.bytes ++ join l :=
  List.flatMap_cons

theorem join_append (l m : List Sector) : join (l ++ m) = join l ++ join m :=
  List.flatMap_append

theorem join_take (l : List Sector) (n : Nat) :
    join (l.take n) = (join l).take (sectorSize * n) := by
  induction l generalizing n with
  | nil => simp [join]
  | cons s l ih =>
    cases n with
    | zero => rfl
    | succ n =>
      rw [List.take_succ_cons, join_cons, join_cons, ih, Nat.mul_succ, Nat.add_comm, List.take_add,
        List.take_left' s.length_eq, List.drop_left' s.length_eq]

theorem join_drop (l : List Sector) (n : Nat) :
    join (l.drop n) = (join l).drop (sectorSize * n) := by
  have h : (join l).take (sectorSize * n) ++ join (l.drop n)
      = (join l).take (sectorSize * n) ++ (join l).drop (sectorSize * n) := by
    rw [List.take_append_drop, ← join_take, ← join_append, List.take_append_drop]
  exact List.append_cancel_left h

theorem take_drop_join {l : List Sector} {i : Nat} (h : i < l.length) :
    ((join l).drop (sectorSize * i)).take sectorSize = l[i].bytes := by
  rw [← join_drop, List.drop_eq_getElem_cons h, join_cons, List.take_left' l[i].length_eq]

theorem exists_join {bytes : List UInt8} {n : Nat} (h : bytes.length = sectorSize * n) :
    ∃ l : List Sector, l.length = n ∧ join l = bytes := by
  refine ⟨(pieces sectorSize n bytes).map ofBytes, ?_, ?_⟩
  · rw [List.length_map, length_pieces]
  · rw [join_map_ofBytes n bytes (Nat.le_of_eq h), h, Nat.sub_self, List.replicate_zero,
      List.append_nil]

end Sector

end SectorFs

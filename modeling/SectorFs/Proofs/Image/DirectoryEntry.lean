import Mathlib.Data.List.TakeWhile
import SectorFs.Image.DirectoryEntry

/-!
# Entries read back

A name that is written ends in a zero and has none inside, so its field tells where it
ends (`Entry.ofSlot_toSlot`), and the bytes up to there are the name again, whatever
letters it is made of.  No letter but the zero has a zero byte
(`zero_notMem_utf8EncodeChar`).

The other way round, a slot that is read is written again with zeros behind its name
(`Entry.cleared`), but a name that fills its field is read and cannot be written
(`Entry.toSlot_of_ofSlot`).  Which entries have a place on a disk is told by their names alone
(`Entry.toSlot_isOk_iff`).
-/

namespace SectorFs

theorem ofNat_byte_ne_zero {n : Nat} (hpos : 0 < n) (hlt : n < 256) : UInt8.ofNat n ≠ 0 := by
  intro h
  have : (UInt8.ofNat n).toNat = 0 := by rw [h]; rfl
  rw [UInt8.toNat_ofNat', Nat.mod_eq_of_lt hlt] at this
  omega

/-- Only the zero letter has a zero byte. -/
theorem zero_notMem_utf8EncodeChar {c : Char} (hc : c ≠ '\x00') : 0 ∉ String.utf8EncodeChar c := by
  have hpos : 0 < c.val.toNat := by
    refine Nat.pos_of_ne_zero fun h => hc (Char.ext (UInt32.toNat_inj.mp ?_))
    rw [h]
    rfl
  have hne : ∀ {n : Nat}, 0 < n → n < 256 → (0 : UInt8) ≠ UInt8.ofNat n := fun h1 h2 =>
    (ofNat_byte_ne_zero h1 h2).symm
  unfold String.utf8EncodeChar
  simp only []
  split
  · rw [List.mem_singleton]
    exact hne hpos (by omega)
  · split
    · simp only [List.mem_cons, List.not_mem_nil, or_false, not_or]
      exact ⟨hne (by omega) (by omega), hne (by omega) (by omega)⟩
    · split
      · simp only [List.mem_cons, List.not_mem_nil, or_false, not_or]
        exact ⟨hne (by omega) (by omega), hne (by omega) (by omega), hne (by omega) (by omega)⟩
      · simp only [List.mem_cons, List.not_mem_nil, or_false, not_or]
        exact ⟨hne (by omega) (by omega), hne (by omega) (by omega), hne (by omega) (by omega),
          hne (by omega) (by omega)⟩

namespace Entry

theorem nameBytes_eq (e : Entry) : e.nameBytes = e.name.toList.flatMap String.utf8EncodeChar := by
  have h : e.name.toUTF8 = (e.name.toList.flatMap String.utf8EncodeChar).toByteArray :=
    String.utf8Encode_toList.symm
  rw [nameBytes, h, List.data_toByteArray]

theorem length_nameBytes (e : Entry) : e.nameBytes.length = e.name.utf8ByteSize := rfl

theorem fromUTF8_nameBytes (e : Entry) :
    String.fromUTF8? ⟨e.nameBytes.toArray⟩ = some e.name := by
  have hb : (⟨e.nameBytes.toArray⟩ : ByteArray) = e.name.toUTF8 := by
    rw [nameBytes, Array.toArray_toList]
  rw [hb]
  have hv : e.name.toUTF8.IsValidUTF8 := e.name.isValidUTF8
  exact dif_pos hv

theorem ne_zero_of_notMem {bytes : List UInt8} (h : 0 ∉ bytes) :
    ∀ b ∈ bytes, (b != 0) = true := by
  intro b hb
  rw [bne_iff_ne]
  rintro rfl
  exact h hb

theorem takeWhile_nameField {name : List UInt8} (rest : List UInt8)
    (hlen : name.length < nameFieldSize) (hzero : 0 ∉ name) :
    ((padTo 0 nameFieldSize name ++ rest).take nameFieldSize).takeWhile (· != 0) = name := by
  obtain ⟨k, hk⟩ : ∃ k, nameFieldSize - name.length = k + 1 :=
    ⟨nameFieldSize - name.length - 1, by omega⟩
  rw [List.take_left' (length_padTo ..), padTo_eq_append, List.take_of_length_le (by omega), hk,
    List.takeWhile_append_of_pos (ne_zero_of_notMem hzero), List.replicate_succ,
    List.takeWhile_cons_of_neg (by simp), List.append_nil]

theorem ofSlot_toSlot {e : Entry} {slot : List UInt8} (h : e.toSlot = .ok slot) :
    ofSlot slot = .ok e ∧ slot.length = entrySize := by
  unfold toSlot at h
  split at h
  · cases h
  · rename_i hname
    split at h
    · cases h
    · rename_i hlen
      injection h with h
      subst h
      rw [not_or] at hname
      have htake := takeWhile_nameField (Word.bytes e.inode.number) (Nat.lt_of_not_le hlen) hname.2
      have hdrop : (padTo 0 nameFieldSize e.nameBytes ++ Word.bytes e.inode.number).drop
          nameFieldSize = Word.bytes e.inode.number := List.drop_left' (length_padTo ..)
      have hword : Word.parse (Word.bytes e.inode.number) = [e.inode.number] := by
        have := Word.parse_bytes_append e.inode.number []
        rwa [List.append_nil] at this
      refine ⟨?_, ?_⟩
      · rw [ofSlot, slotName, htake, hdrop, hword]
        simp only [hname.1, if_false, fromUTF8_nameBytes]
        rfl
      · rw [List.length_append, length_padTo, Word.length_bytes]
        rfl

theorem mapM_ofSlot {entries : List Entry} {slots : List (List UInt8)}
    (h : entries.mapM toSlot = .ok slots) :
    slots.mapM ofSlot = .ok entries ∧ slots.length = entries.length
      ∧ ∀ slot ∈ slots, slot.length = entrySize := by
  induction entries generalizing slots with
  | nil =>
    rw [List.mapM_nil] at h
    injection h with h
    subst h
    exact ⟨rfl, rfl, fun _ hs => absurd hs List.not_mem_nil⟩
  | cons e entries ih =>
    rw [List.mapM_cons] at h
    obtain ⟨slot, hslot, h⟩ := Attempt.except_bind_eq_ok_iff.mp h
    obtain ⟨rest, hrest, h⟩ := Attempt.except_bind_eq_ok_iff.mp h
    injection h with h
    subst h
    obtain ⟨hread, hlen⟩ := ofSlot_toSlot hslot
    obtain ⟨hr, hl, hall⟩ := ih hrest
    refine ⟨?_, by rw [List.length_cons, List.length_cons, hl], ?_⟩
    · rw [List.mapM_cons, hread, hr]
      rfl
    · intro s hs
      rcases List.mem_cons.mp hs with rfl | hs
      · exact hlen
      · exact hall s hs

/-! ### Written back -/

/-- The name that is read is what stands before the first zero of its field. -/
theorem ofSlot_eq_ok {slot : List UInt8} {e : Entry} (h : ofSlot slot = .ok e) :
    e.nameBytes = (slot.take nameFieldSize).takeWhile (· != 0) ∧ e.nameBytes ≠ []
      ∧ e.inode = ⟨(Word.parse (slot.drop nameFieldSize)).headD 0⟩ := by
  obtain ⟨name, hname, h⟩ := Attempt.except_bind_eq_ok_iff.mp h
  obtain rfl := Except.ok.inj h
  unfold slotName at hname
  simp only [] at hname
  generalize (slot.take nameFieldSize).takeWhile (· != 0) = bytes at hname ⊢
  split at hname
  · cases hname
  · rename_i hne
    split at hname
    · rename_i text htext
      obtain rfl := Except.ok.inj hname
      have hutf8 : text.toUTF8 = ⟨bytes.toArray⟩ := by
        unfold String.fromUTF8? at htext
        split at htext
        · rw [← Option.some.inj htext]
          rfl
        · cases htext
      have hbytes : nameBytes ⟨text, ⟨(Word.parse (slot.drop nameFieldSize)).headD 0⟩⟩ = bytes := by
        rw [nameBytes, hutf8, List.toList_toArray]
      exact ⟨hbytes, hbytes ▸ hne, rfl⟩
    · cases hname

theorem zero_notMem_nameBytes {slot : List UInt8} {e : Entry} (h : ofSlot slot = .ok e) :
    0 ∉ e.nameBytes := by
  intro h0
  rw [(ofSlot_eq_ok h).1] at h0
  simpa using List.mem_takeWhile_imp h0

theorem length_nameBytes_le {slot : List UInt8} {e : Entry} (h : ofSlot slot = .ok e) :
    e.nameBytes.length ≤ nameFieldSize := by
  rw [(ofSlot_eq_ok h).1]
  exact (List.takeWhile_prefix _).length_le.trans (List.length_take_le ..)

/-- A name fills its field just when there is no zero in it. -/
theorem length_nameBytes_lt_iff {slot : List UInt8} {e : Entry} (hlen : slot.length = entrySize)
    (h : ofSlot slot = .ok e) :
    e.nameBytes.length < nameFieldSize ↔ 0 ∈ slot.take nameFieldSize := by
  have hfield : (slot.take nameFieldSize).length = nameFieldSize := by
    rw [List.length_take, hlen]
    rfl
  have hle := length_nameBytes_le h
  rw [(ofSlot_eq_ok h).1] at hle ⊢
  constructor
  · intro hlt
    refine Decidable.byContradiction fun h0 => ?_
    rw [List.takeWhile_eq_self_iff.mpr (ne_zero_of_notMem h0), hfield] at hlt
    exact absurd hlt (Nat.lt_irrefl _)
  · intro h0
    refine Nat.lt_of_le_of_ne hle fun heq => ?_
    have hself := (List.takeWhile_prefix (· != 0)).eq_of_length (heq.trans hfield.symm)
    rw [← hself] at h0
    simpa using List.mem_takeWhile_imp h0

/-- A slot with zeros behind its name. -/
def cleared (slot : List UInt8) : List UInt8 :=
  slot.mapIdx fun j b => if j < nameFieldSize ∧ 0 ∈ slot.take j then 0 else b

theorem zero_mem_take_iff {name rest : List UInt8} (h : 0 ∉ name) (j : Nat) :
    0 ∈ (name ++ 0 :: rest).take j ↔ name.length < j := by
  rw [List.take_append, List.mem_append]
  constructor
  · rintro (hmem | hmem)
    · exact absurd (List.mem_of_mem_take hmem) h
    · refine Nat.lt_of_not_le fun hle => ?_
      rw [Nat.sub_eq_zero_of_le hle, List.take_zero] at hmem
      exact List.not_mem_nil hmem
  · intro hlt
    obtain ⟨k, hk⟩ : ∃ k, j - name.length = k + 1 := ⟨j - name.length - 1, by omega⟩
    exact .inr (by rw [hk, List.take_succ_cons]; exact List.mem_cons_self)

theorem cleared_eq {slot : List UInt8} (hlen : nameFieldSize ≤ slot.length)
    (h : 0 ∈ slot.take nameFieldSize) :
    cleared slot = padTo 0 nameFieldSize ((slot.take nameFieldSize).takeWhile (· != 0))
      ++ slot.drop nameFieldSize := by
  obtain ⟨name, tail, hsplit, hzero⟩ := List.eq_append_cons_of_mem h
  have hname : (slot.take nameFieldSize).takeWhile (· != 0) = name := by
    rw [hsplit, List.takeWhile_append_of_pos (ne_zero_of_notMem hzero),
      List.takeWhile_cons_of_neg (by simp), List.append_nil]
  have hslot : slot = name ++ 0 :: (tail ++ slot.drop nameFieldSize) := by
    rw [← List.cons_append, ← List.append_assoc, ← hsplit, List.take_append_drop]
  have hmem (j : Nat) : 0 ∈ slot.take j ↔ name.length < j := by
    rw [hslot]
    exact zero_mem_take_iff hzero j
  have hlt : name.length < nameFieldSize := (hmem nameFieldSize).mp h
  have hfield : (name ++ List.replicate (nameFieldSize - name.length) (0 : UInt8)).length
      = nameFieldSize := by
    rw [List.length_append, List.length_replicate]
    omega
  rw [hname, padTo_eq_append, List.take_of_length_le hlt.le]
  apply List.ext_getElem?
  intro j
  have hget : slot[j]? = (name ++ 0 :: (tail ++ slot.drop nameFieldSize))[j]? :=
    congrArg (·[j]?) hslot
  rw [cleared, List.getElem?_mapIdx]
  by_cases hbehind : j < nameFieldSize ∧ 0 ∈ slot.take j
  · have hj := (hmem j).mp hbehind.2
    simp only [hbehind, true_and, if_true]
    rw [List.getElem?_append_left (by rw [hfield]; exact hbehind.1),
      List.getElem?_append_right hj.le, List.getElem?_replicate, if_pos (by omega),
      List.getElem?_eq_getElem (Nat.lt_of_lt_of_le hbehind.1 hlen), Option.map_some]
  · simp only [hbehind, if_false, Option.map_id']
    rw [hmem] at hbehind
    rcases Nat.lt_trichotomy j name.length with hj | rfl | hj
    · rw [hget, List.getElem?_append_left hj, List.append_assoc, List.getElem?_append_left hj]
    · rw [hget, List.append_assoc, List.getElem?_append_right (Nat.le_refl _),
        List.getElem?_append_right (Nat.le_refl _), Nat.sub_self, List.getElem?_cons_zero,
        List.getElem?_append_left (by rw [List.length_replicate]; omega), List.getElem?_replicate,
        if_pos (by omega)]
    · have hout : nameFieldSize ≤ j := Nat.le_of_not_lt fun hin => hbehind ⟨hin, hj⟩
      rw [List.getElem?_append_right (by rw [hfield]; exact hout), hfield, List.getElem?_drop,
        Nat.add_sub_cancel' hout]

/-- What is read can be written back just when its name does not fill its field. -/
theorem toSlot_of_ofSlot {slot : List UInt8} {e : Entry} (hlen : slot.length = entrySize)
    (h : ofSlot slot = .ok e) :
    e.toSlot = if e.nameBytes.length < nameFieldSize then .ok (cleared slot)
      else .error .nameTooLong := by
  obtain ⟨hname, hne, hinode⟩ := ofSlot_eq_ok h
  rw [toSlot, if_neg (not_or.mpr ⟨hne, zero_notMem_nameBytes h⟩)]
  by_cases hlt : e.nameBytes.length < nameFieldSize
  · have hnumber : Word.bytes e.inode.number = slot.drop nameFieldSize := by
      rw [hinode]
      exact Word.bytes_headD_parse (by rw [List.length_drop, hlen]; rfl)
    have hcleared := cleared_eq (by rw [hlen]; decide) ((length_nameBytes_lt_iff hlen h).mp hlt)
    rw [if_pos hlt, if_neg (Nat.not_le_of_lt hlt), hnumber, hname, hcleared]
  · rw [if_neg hlt, if_pos (Nat.le_of_not_lt hlt)]

/-- A list of entries that is read can be written back just when all its names can. -/
theorem mapM_toSlot {slots : List (List UInt8)} {entries : List Entry}
    (hlen : ∀ slot ∈ slots, slot.length = entrySize) (h : slots.mapM ofSlot = .ok entries) :
    entries.mapM toSlot = if ∀ e ∈ entries, e.nameBytes.length < nameFieldSize
      then .ok (slots.map cleared) else .error .nameTooLong := by
  induction slots generalizing entries with
  | nil =>
    obtain rfl := Except.ok.inj h
    rfl
  | cons slot slots ih =>
    rw [List.mapM_cons] at h
    obtain ⟨e, hslot, h⟩ := Attempt.except_bind_eq_ok_iff.mp h
    obtain ⟨rest, hrest, h⟩ := Attempt.except_bind_eq_ok_iff.mp h
    obtain rfl := Except.ok.inj h
    have hhead := toSlot_of_ofSlot (hlen slot List.mem_cons_self) hslot
    have htail := ih (fun s hs => hlen s (List.mem_cons_of_mem _ hs)) hrest
    rw [List.mapM_cons, hhead, htail]
    simp only [List.forall_mem_cons]
    by_cases hlt : e.nameBytes.length < nameFieldSize
    · simp only [hlt, true_and, if_true]
      split
      · rfl
      · rfl
    · simp only [hlt, false_and, if_false]
      rfl

end Entry

/-! ### What can be written -/

/-- An entry that has a place on a disk. -/
def Entry.Writable (e : Entry) : Prop :=
  e.nameBytes ≠ [] ∧ 0 ∉ e.nameBytes ∧ e.nameBytes.length < nameFieldSize

instance (e : Entry) : Decidable e.Writable := inferInstanceAs (Decidable (_ ∧ _))

theorem Entry.toSlot_isOk_iff {e : Entry} : (∃ slot, e.toSlot = .ok slot) ↔ e.Writable := by
  unfold toSlot
  constructor
  · rintro ⟨slot, h⟩
    split at h
    · cases h
    · rename_i hname
      split at h
      · cases h
      · rename_i hlong
        exact ⟨fun he => hname (.inl he), fun hz => hname (.inr hz), Nat.lt_of_not_le hlong⟩
  · rintro ⟨hne, hz, hlt⟩
    rw [if_neg fun h => h.elim hne hz, if_neg (Nat.not_le.mpr hlt)]
    exact ⟨_, rfl⟩

end SectorFs

import Mathlib.Data.List.GetD
import SectorFs.Pieces
import SectorFs.Proofs.Tree.Namespace

/-!
# The bytes of a file

A new file holds nothing, and each edit of its bytes tells how many there are afterwards
(`FileEdit.sizeAfter`) and which of them it has put there (`FileEdit.byte?`): a write those
that it covers, and a cut zeros from where it is made on.  So a history of edits tells the
size of a file and the byte at each place: the last edit that put one there did so, and where
none did it is zero (`fileSize`, `fileByte`).  A byte that was cut off does not come back when
the file grows over its place, since the cut is the last edit to have put something there.

This is all that there is to see of a file through its number (`sparse_of_create`), whatever
tree it was made in and whatever is written to other files in between: an edit changes the
bytes of one inode and nothing else (`BytesOnly`).
-/

namespace SectorFs

open Attempt

/-! ### Bytes at places -/

theorem getD_padTo (n : Nat) (l : List UInt8) (p : Nat) :
    (padTo 0 n l).getD p 0 = if p < n then l.getD p 0 else 0 := by
  simp only [padTo_eq_append, List.getD_eq_getElem?_getD, List.getElem?_append,
    List.getElem?_take, List.getElem?_replicate, List.length_take]
  by_cases hp : p < n
  · by_cases hl : p < l.length
    · rw [if_pos (by omega), if_pos hp, if_pos hp]
    · rw [if_neg (by omega), if_pos (by omega), if_pos hp, List.getElem?_eq_none (by omega)]
      rfl
  · rw [if_neg (by omega), if_neg (by omega), if_neg hp]
    rfl

/-- Where nothing was written there is what was there, and zeros before what was written past
the end. -/
theorem getD_written (l d : List UInt8) (start p : Nat) :
    (padTo 0 start l ++ d ++ l.drop (start + d.length)).getD p 0
      = (if p < start then none else d[p - start]?).getD (l.getD p 0) := by
  rw [List.append_assoc]
  by_cases hp : p < start
  · rw [if_pos hp, List.getD_append _ _ _ _ (by simpa using hp), getD_padTo, if_pos hp]
    rfl
  · obtain ⟨k, rfl⟩ := Nat.exists_eq_add_of_le (Nat.le_of_not_lt hp)
    rw [if_neg hp, List.getD_append_right _ _ _ _ (by simp), length_padTo,
      Nat.add_sub_cancel_left]
    by_cases hd : k < d.length
    · rw [List.getD_append _ _ _ _ hd, List.getElem?_eq_getElem hd, List.getD_eq_getElem _ _ hd]
      rfl
    · have hk : start + d.length + (k - d.length) = start + k := by omega
      rw [List.getD_append_right _ _ _ _ (by omega), List.getElem?_eq_none (by omega),
        List.getD_eq_getElem?_getD, List.getElem?_drop, List.getD_eq_getElem?_getD, hk]
      rfl

/-! ### Edits -/

/-- A change of the bytes of a file. -/
inductive FileEdit where
  | write (start : Nat) (data : Array UInt8)
  | resize (size : Nat)

namespace FileEdit

/-- The call that makes an edit to an inode. -/
def call (id : InodeId) : FileEdit → Tree.Call
  | write start data => .writeAt id start data
  | resize size => .truncate id size

/-- Number of bytes after an edit of `n` bytes.  One that would make the file too large fails,
and changes nothing, as a write of nothing does. -/
def sizeAfter (n : Nat) : FileEdit → Nat
  | write start data =>
    if data.size = 0 ∨ maxFileSize < start + data.size then n else max n (start + data.size)
  | resize size => if maxFileSize < size then n else size

/-- The byte that an edit puts at a place: one that it writes, or zero where it cuts the
file off. -/
def byte? (p : Nat) : FileEdit → Option UInt8
  | write start data =>
    if p < start ∨ maxFileSize < start + data.size then none else data[p - start]?
  | resize size => if p < size ∨ maxFileSize < size then none else some 0

/-- What an edit makes of the bytes of a file. -/
def applyTo (bytes : List UInt8) : FileEdit → List UInt8
  | write start data =>
    if data.size = 0 ∨ maxFileSize < start + data.size then bytes
    else padTo 0 start bytes ++ data.toList ++ bytes.drop (start + data.size)
  | resize size => if maxFileSize < size then bytes else padTo 0 size bytes

theorem length_applyTo (bytes : List UInt8) (e : FileEdit) :
    (e.applyTo bytes).length = e.sizeAfter bytes.length := by
  cases e with
  | write start data =>
    rw [applyTo, sizeAfter]
    split
    · rfl
    · simp only [List.length_append, length_padTo, Array.length_toList, List.length_drop]
      omega
  | resize size =>
    rw [applyTo, sizeAfter]
    split
    · rfl
    · exact length_padTo ..

theorem getD_applyTo (bytes : List UInt8) (e : FileEdit) (p : Nat) :
    (e.applyTo bytes).getD p 0 = (e.byte? p).getD (bytes.getD p 0) := by
  cases e with
  | write start data =>
    rw [applyTo, byte?]
    by_cases hlarge : maxFileSize < start + data.size
    · rw [if_pos (.inr hlarge), if_pos (.inr hlarge)]
      rfl
    · have hw := getD_written bytes data.toList start p
      rw [Array.length_toList, Array.getElem?_toList] at hw
      simp only [hlarge, or_false]
      split
      · rename_i hempty
        rw [Array.getElem?_eq_none (by omega), ite_self]
        rfl
      · exact hw
  | resize size =>
    rw [applyTo, byte?]
    by_cases hlarge : maxFileSize < size
    · rw [if_pos hlarge, if_pos (.inr hlarge)]
      rfl
    · rw [if_neg hlarge, getD_padTo]
      simp only [hlarge, or_false]
      split <;> rfl

end FileEdit

/-! ### Histories of edits -/

/-- Number of bytes of a new file after some edits. -/
def fileSize (edits : List FileEdit) : Nat := edits.foldl FileEdit.sizeAfter 0

/-- The byte at a place in a new file after some edits: the one that the last edit to put
one there did. -/
def fileByte (edits : List FileEdit) (p : Nat) : UInt8 :=
  (edits.reverse.findSome? (FileEdit.byte? p)).getD 0

theorem fileSize_concat (edits : List FileEdit) (e : FileEdit) :
    fileSize (edits ++ [e]) = e.sizeAfter (fileSize edits) :=
  List.foldl_append ..

theorem fileByte_concat (edits : List FileEdit) (e : FileEdit) (p : Nat) :
    fileByte (edits ++ [e]) p = (e.byte? p).getD (fileByte edits p) := by
  rw [fileByte, List.reverse_append, List.reverse_singleton, List.singleton_append,
    List.findSome?_cons]
  cases e.byte? p <;> rfl

/-- The bytes that edits make of nothing. -/
def contents (edits : List FileEdit) : List UInt8 := edits.foldl FileEdit.applyTo []

theorem contents_concat (edits : List FileEdit) (e : FileEdit) :
    contents (edits ++ [e]) = e.applyTo (contents edits) :=
  List.foldl_append ..

theorem length_contents (edits : List FileEdit) : (contents edits).length = fileSize edits := by
  induction edits using List.reverseRecOn with
  | nil => rfl
  | append_singleton edits e ih =>
    rw [contents_concat, fileSize_concat, FileEdit.length_applyTo, ih]

theorem getD_contents (edits : List FileEdit) (p : Nat) :
    (contents edits).getD p 0 = fileByte edits p := by
  induction edits using List.reverseRecOn with
  | nil => rfl
  | append_singleton edits e ih =>
    rw [contents_concat, fileByte_concat, FileEdit.getD_applyTo, ih]

namespace Tree

variable {t u : Tree} {id : InodeId} {content : List UInt8}

/-! ### Nothing but bytes -/

/-- Whether an edit fails or not, all that it can change are the bytes of its inode. -/
theorem bytesOnly_edit (t : Tree) (id : InodeId) (e : FileEdit) :
    t.BytesOnly id ((e.call id).after t) := by
  cases e with
  | write start data => exact bytesOnly_writeAt id start data t
  | resize size => exact bytesOnly_truncate id size t

theorem bytesOnly_edits (t : Tree) (id : InodeId) (edits : List FileEdit) :
    t.BytesOnly id (run (edits.map (FileEdit.call id)) t) := by
  induction edits generalizing t with
  | nil => exact refl t
  | cons e edits ih => exact IsTrans.trans _ _ _ (bytesOnly_edit t id e) (ih _)

/-! ### Edits of a file -/

theorem writeAt_tooLarge {start : Nat} {data : Array UInt8}
    (h : maxFileSize < start + data.size) (t : Tree) (id : InodeId) :
    Tree.writeAt id start data t = .error .fileTooLarge t := by
  simp [Tree.writeAt, atomically, h]

theorem truncate_tooLarge {size : Nat} (h : maxFileSize < size) (t : Tree) (id : InodeId) :
    Tree.truncate id size t = .error .fileTooLarge t := by
  simp [Tree.truncate, atomically, h]

theorem writeAt_isOk (hf : (t.view id).payload = .file content) {start : Nat}
    {data : Array UInt8} (hfits : start + data.size ≤ maxFileSize) :
    ∃ u, Tree.writeAt id start data t = .ok data.size u ∧ (data.size = 0 → u = t)
      ∧ (u.view id).payload = .file ((FileEdit.write start data).applyTo content) := by
  obtain ⟨-, bytes, -, -, hb, rfl⟩ := bytes_of_view hf
  have hlarge : ¬maxFileSize < start + data.size := Nat.not_lt.mpr hfits
  -- a write of nothing may be anywhere below the limit, and fills no gap
  by_cases hempty : data.isEmpty = true
  · have hsize : data.size = 0 := Array.isEmpty_iff_size_eq_zero.mp hempty
    refine ⟨t, atomically_eq_ok_iff.mpr ?_, fun _ => rfl, ?_⟩
    · rw [if_neg hlarge, hb, except_bind_ok, if_pos hempty, hsize]
      rfl
    · rw [FileEdit.applyTo, if_pos (.inl hsize), hf]
  · have hsize : data.size ≠ 0 := fun hz => hempty (Array.isEmpty_iff_size_eq_zero.mpr hz)
    obtain ⟨new, hw⟩ := bytes.write_isOk filePolicy_width hfits 0
    refine ⟨(t.setBytes id new).touch, atomically_eq_ok_iff.mpr ?_, fun h => absurd h hsize, ?_⟩
    · rw [if_neg hlarge, hb, except_bind_ok, if_neg hempty, hw]
      rfl
    · rw [view_touch, view_setBytes hb, Function.update_self, Buffer.items_of_write hw,
        FileEdit.applyTo, if_neg (not_or.mpr ⟨hsize, hlarge⟩), padTo_eq_append]
      simp

theorem truncate_isOk (hf : (t.view id).payload = .file content) {size : Nat}
    (hfits : size ≤ maxFileSize) :
    ∃ u, Tree.truncate id size t = .ok () u
      ∧ (u.view id).payload = .file ((FileEdit.resize size).applyTo content) := by
  obtain ⟨-, bytes, -, -, hb, rfl⟩ := bytes_of_view hf
  obtain ⟨new, hr⟩ := bytes.resize_isOk filePolicy_width hfits 0
  refine ⟨(t.setBytes id new).touch, atomically_eq_ok_iff.mpr ?_, ?_⟩
  · rw [if_neg (Nat.not_lt.mpr hfits), hb, except_bind_ok, hr]
    rfl
  · rw [view_touch, view_setBytes hb, Function.update_self, Buffer.items_of_resizeWith hr,
      FileEdit.applyTo, if_neg (Nat.not_lt.mpr hfits), padTo_eq_append]
    simp

/-- What one edit leaves in the file that it is made to. -/
theorem payload_edit (hf : (t.view id).payload = .file content) (e : FileEdit) :
    (((e.call id).after t).view id).payload = .file (e.applyTo content) := by
  cases e with
  | write start data =>
    by_cases hlarge : maxFileSize < start + data.size
    · rw [FileEdit.call, Call.after, after_of_error (writeAt_tooLarge hlarge t id),
        FileEdit.applyTo, if_pos (.inr hlarge), hf]
    · obtain ⟨u, hu, -, hpayload⟩ := writeAt_isOk hf (Nat.le_of_not_lt hlarge)
      rw [FileEdit.call, Call.after, after_of_ok hu, hpayload]
  | resize size =>
    by_cases hlarge : maxFileSize < size
    · rw [FileEdit.call, Call.after, after_of_error (truncate_tooLarge hlarge t id),
        FileEdit.applyTo, if_pos hlarge, hf]
    · obtain ⟨u, hu, hpayload⟩ := truncate_isOk hf (Nat.le_of_not_lt hlarge)
      rw [FileEdit.call, Call.after, after_of_ok hu, hpayload]

/-! ### Edits of some files -/

/-- Edits, each of the inode that comes with it. -/
def editCalls (edits : List (InodeId × FileEdit)) : List Call := edits.map fun e => e.2.call e.1

def editsOf (id : InodeId) (edits : List (InodeId × FileEdit)) : List FileEdit :=
  (edits.filter fun e => e.1 = id).map Prod.snd

theorem payload_edits (hf : (t.view id).payload = .file content)
    (edits : List (InodeId × FileEdit)) :
    ((run (editCalls edits) t).view id).payload
      = .file ((editsOf id edits).foldl FileEdit.applyTo content) := by
  induction edits generalizing t content with
  | nil => exact hf
  | cons e edits ih =>
    obtain ⟨x, e⟩ := e
    by_cases hx : x = id
    · subst hx
      have hedits : editsOf x ((x, e) :: edits) = e :: editsOf x edits := by simp [editsOf]
      rw [hedits]
      exact ih (payload_edit hf e)
    · -- an edit of another inode leaves the bytes for the induction as they are
      have hedits : editsOf id ((x, e) :: edits) = editsOf id edits := by simp [editsOf, hx]
      rw [hedits]
      exact ih (by rwa [(bytesOnly_edit t x e).view_eq (Ne.symm hx)])

/-! ### What there is to see of a file -/

theorem stat_of_payload (hf : (t.view id).payload = .file content) :
    ∃ s, t.stat id = .ok s ∧ s.kind = .file ∧ s.size = content.length := by
  obtain ⟨i, bytes, hi, hc, -, rfl⟩ := bytes_of_view hf
  refine ⟨i.stat, by rw [Tree.stat, hi]; rfl, ?_, ?_⟩
  · rw [Inode.stat, Inode.kind, hc]
    rfl
  · rw [Inode.stat, Inode.size, hc]
    rfl

theorem readInto_of_payload (hf : (t.view id).payload = .file content) (start : Nat)
    (buffer : Array UInt8) :
    ∃ out, t.readInto id start buffer = .ok (min buffer.size (content.length - start), out)
      ∧ out.size = buffer.size
      ∧ ∀ i, out[i]? = if i < min buffer.size (content.length - start)
          then some (content.getD (start + i) 0) else buffer[i]? := by
  obtain ⟨-, bytes, -, -, hb, rfl⟩ := bytes_of_view hf
  let found := bytes.items.extract start (start + buffer.size)
  have hsize : found.size = min buffer.size (bytes.items.toList.length - start) := by
    simp [found]
    omega
  refine ⟨found ++ buffer.drop found.size, ?_, ?_, fun i => ?_⟩
  · rw [readInto, readAt, hb, ← hsize]
    rfl
  · simp
    omega
  · rw [Array.getElem?_append, ← hsize]
    split
    · rename_i hi
      have hlt : start + i < bytes.items.toList.length := by omega
      rw [Array.getElem?_eq_getElem hi, List.getD_eq_getElem _ _ hlt]
      simp [found]
    · rename_i hi
      have hback : found.size + (i - found.size) = i := Nat.add_sub_cancel' (Nat.le_of_not_lt hi)
      rw [Array.drop_eq_extract, Array.getElem?_extract, hback, Nat.min_self]
      split
      · rfl
      · exact (Array.getElem?_eq_none (by omega)).symm

/-! ### Files from new on -/

/-- All that the edits of a file, made since it was new, tell of it: how many bytes it has, what
each place that is read from holds, and that any other edit will be made unless the file gets
too large. -/
structure Sparse (t : Tree) (id : InodeId) (edits : List FileEdit) : Prop where
  stat_eq : ∃ s, t.stat id = .ok s ∧ s.kind = .file ∧ s.size = fileSize edits
  write_ok : ∀ start data, start + data.size < 2 ^ 64 ∧ start + data.size ≤ maxFileSize →
    ∃ u, Tree.writeAt id start data t = .ok data.size u ∧ (data.size = 0 → u = t)
  write_error : ∀ start data, ¬(start + data.size < 2 ^ 64 ∧ start + data.size ≤ maxFileSize) →
    Tree.writeAt id start data t = .error .fileTooLarge t
  truncate_ok : ∀ size, size ≤ maxFileSize → ∃ u, Tree.truncate id size t = .ok () u
  truncate_error : ∀ size, ¬size ≤ maxFileSize →
    Tree.truncate id size t = .error .fileTooLarge t
  read_eq : ∀ start (buffer : Array UInt8), ∃ out,
    t.readInto id start buffer = .ok (min buffer.size (fileSize edits - start), out)
      ∧ out.size = buffer.size
      ∧ ∀ i, out[i]? = if i < min buffer.size (fileSize edits - start)
          then some (fileByte edits (start + i)) else buffer[i]?

theorem sparse_of_payload {edits : List FileEdit}
    (hf : (t.view id).payload = .file (contents edits)) : t.Sparse id edits where
  stat_eq := length_contents edits ▸ stat_of_payload hf
  write_ok start data hfits := by
    obtain ⟨u, hu, hempty, -⟩ := writeAt_isOk hf hfits.2
    exact ⟨u, hu, hempty⟩
  write_error start data hlarge := by
    refine writeAt_tooLarge (Nat.lt_of_not_le fun hfits => hlarge ⟨?_, hfits⟩) t id
    exact Nat.lt_of_le_of_lt hfits (by decide)
  truncate_ok size hfits := by
    obtain ⟨u, hu, -⟩ := truncate_isOk hf hfits
    exact ⟨u, hu⟩
  truncate_error size hlarge := truncate_tooLarge (Nat.lt_of_not_le hlarge) t id
  read_eq start buffer := by
    obtain ⟨out, hread, hsize, hout⟩ := readInto_of_payload hf start buffer
    simp only [length_contents, getD_contents] at hread hout
    exact ⟨out, hread, hsize, hout⟩

theorem payload_of_create {path : String} (made : create path t = .ok id u) :
    (u.view id).payload = .file [] := by
  obtain ⟨parent, leaf, -, ha⟩ := attached_of_ok made
  rw [ha.view_new]
  rfl

/-- Whatever tree a file is made in, and whatever else is written or cut in between: the
edits of the file tell all that there is to see of it, and no edit changes an inode that it is
not made to. -/
theorem sparse_of_create {path : String} (made : create path t = .ok id u)
    (edits : List (InodeId × FileEdit)) :
    (run (editCalls edits) u).Sparse id (editsOf id edits)
      ∧ ∀ v : Tree, ∀ x y e, x ≠ y → ((FileEdit.call x e).after v).slot? y = v.slot? y :=
  ⟨sparse_of_payload (payload_edits (payload_of_create made) edits),
    fun v x y e hne => (bytesOnly_edit v x e).slot_eq y (Ne.symm hne)⟩

/-- What was cut off a file is zero when it grows again, and the root has no bytes. -/
theorem sparse_of_create_regrown :
    let edits : List (InodeId × FileEdit) := [(⟨1⟩, .write 0 #[1, 2, 3]), (.root, .write 0 #[9]),
      (⟨1⟩, .resize 1), (⟨1⟩, .write 4 #[5])]
    (∃ u, create "/a" .empty = .ok ⟨1⟩ u
        ∧ (run (editCalls edits) u).Sparse ⟨1⟩ (editsOf ⟨1⟩ edits))
      ∧ fileSize (editsOf ⟨1⟩ edits) = 5
      ∧ (List.range 5).map (fileByte (editsOf ⟨1⟩ edits)) = [1, 0, 0, 0, 5] := by
  intro edits
  obtain ⟨id, u, hu, hid⟩ := succeeds_iff.mp
    (show (create "/a").succeeds .empty (fun id _ => id = ⟨1⟩) = true by decide +kernel)
  obtain rfl : id = ⟨1⟩ := of_decide_eq_true hid
  exact ⟨⟨u, hu, (sparse_of_create hu edits).1⟩, by decide, by decide⟩

end Tree

end SectorFs

/-!
# Words

A word is an unsigned number of 32 bits.  On a disk it is four bytes, the lowest
first (`Word.bytes`).  `Word.parse` reads words from a byte string, and
`parse_flatMap_bytes` says that it reads back what was written.
-/

namespace SectorFs

namespace Word

/-- Byte `k` of a word, counted from the lowest. -/
def byte (w : UInt32) (k : Nat) : UInt8 :=
  UInt8.ofNat (w.toNat >>> (8 * k))

/-- The four bytes of a word. -/
def bytes (w : UInt32) : List UInt8 := [byte w 0, byte w 1, byte w 2, byte w 3]

/-- The word of four bytes. -/
def ofBytes (a b c d : UInt8) : UInt32 :=
  UInt32.ofNat (a.toNat + 256 * b.toNat + 65536 * c.toNat + 16777216 * d.toNat)

/-- The words that a byte string holds; up to three bytes at its end are left out. -/
def parse : List UInt8 → List UInt32
  | a :: b :: c :: d :: rest => ofBytes a b c d :: parse rest
  | _ => []

@[simp] theorem parse_nil : parse [] = [] := rfl

@[simp] theorem length_bytes (w : UInt32) : (bytes w).length = 4 := rfl

theorem toNat_byte (w : UInt32) (k : Nat) : (byte w k).toNat = w.toNat >>> (8 * k) % 256 := by
  simp [byte]

theorem ofBytes_byte (w : UInt32) : ofBytes (byte w 0) (byte w 1) (byte w 2) (byte w 3) = w := by
  have := w.toNat_lt
  apply UInt32.toNat_inj.mp
  rw [ofBytes, UInt32.toNat_ofNat']
  simp only [toNat_byte]
  omega

theorem bytes_ofBytes (a b c d : UInt8) : bytes (ofBytes a b c d) = [a, b, c, d] := by
  have ha := a.toNat_lt
  have hb := b.toNat_lt
  have hc := c.toNat_lt
  have hd := d.toNat_lt
  have hn : (ofBytes a b c d).toNat
      = a.toNat + 256 * b.toNat + 65536 * c.toNat + 16777216 * d.toNat := by
    rw [ofBytes, UInt32.toNat_ofNat']
    omega
  simp only [bytes, List.cons.injEq, and_true]
  refine ⟨?_, ?_, ?_, ?_⟩ <;>
  · apply UInt8.toNat_inj.mp
    rw [toNat_byte, hn, Nat.shiftRight_eq_div_pow]
    omega

/-- A byte string of one word is the bytes of that word. -/
theorem bytes_headD_parse {string : List UInt8} (h : string.length = 4) :
    bytes ((parse string).headD 0) = string := by
  match string, h with
  | [a, b, c, d], _ => exact bytes_ofBytes a b c d

theorem parse_bytes_append (w : UInt32) (rest : List UInt8) :
    parse (bytes w ++ rest) = w :: parse rest := by
  simp [bytes, parse, ofBytes_byte]

theorem parse_flatMap_bytes (ws : List UInt32) (rest : List UInt8) :
    parse (ws.flatMap bytes ++ rest) = ws ++ parse rest := by
  induction ws with
  | nil => rfl
  | cons w ws ih => rw [List.flatMap_cons, List.append_assoc, parse_bytes_append, ih]; rfl

theorem length_flatMap_bytes (ws : List UInt32) : (ws.flatMap bytes).length = 4 * ws.length := by
  induction ws with
  | nil => rfl
  | cons w ws ih =>
    rw [List.flatMap_cons, List.length_append, ih, length_bytes, List.length_cons]
    omega

theorem length_parse (string : List UInt8) : (parse string).length = string.length / 4 := by
  fun_induction parse string with
  | case1 a b c d rest ih => simp only [List.length_cons, ih]; omega
  | case2 string h =>
    match string with
    | [] | [_] | [_, _] | [_, _, _] => simp
    | a :: b :: c :: d :: rest => exact absurd rfl (h a b c d rest)

theorem flatMap_bytes_zero (n : Nat) :
    (List.replicate n (0 : UInt32)).flatMap bytes = List.replicate (4 * n) 0 := by
  induction n with
  | zero => rfl
  | succ n ih =>
    rw [List.replicate_succ, List.flatMap_cons, ih, show bytes 0 = List.replicate 4 0 from rfl,
      List.replicate_append_replicate, Nat.mul_succ, Nat.add_comm]

end Word

end SectorFs

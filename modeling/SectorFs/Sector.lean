import SectorFs.Pieces
import SectorFs.Word

/-!
# Sectors

A disk is read and written in sectors of 512 bytes, and a sector is also the block
in which the filesystem hands out space.  A sector is built from bytes
(`Sector.ofBytes`) or from words (`Sector.ofWords`), zeros filling what is left, and
`words_ofWords` reads the words back.  `Sector.split` cuts a byte string into sectors
and `Sector.join` puts sectors together.
-/

namespace SectorFs

def sectorSize : Nat := 512

def wordsPerSector : Nat := 128

/-- The bytes of one sector. -/
structure Sector where
  bytes : List UInt8
  length_eq : bytes.length = sectorSize
deriving DecidableEq

namespace Sector

/-- The sector that starts with the given bytes and goes on with zeros. -/
def ofBytes (bytes : List UInt8) : Sector := ⟨padTo 0 sectorSize bytes, by simp⟩

/-- The sector that starts with the given words and goes on with zeros. -/
def ofWords (words : List UInt32) : Sector := ofBytes (words.flatMap Word.bytes)

def zero : Sector := ofBytes []

instance : Inhabited Sector := ⟨zero⟩

def words (s : Sector) : List UInt32 := Word.parse s.bytes

def word (s : Sector) (k : Nat) : UInt32 := s.words.getD k 0

/-- The sectors that a byte string fills, the last one filled up with zeros. -/
def split (bytes : List UInt8) : List Sector :=
  (pieces sectorSize (partsOf bytes.length sectorSize) bytes).map ofBytes

/-- The bytes of sectors one after the other. -/
def join (sectors : List Sector) : List UInt8 := sectors.flatMap bytes

theorem ofBytes_bytes (s : Sector) : ofBytes s.bytes = s := by
  cases s with
  | mk bytes h => simp [ofBytes, padTo_of_length h]

@[simp] theorem length_join (sectors : List Sector) :
    (join sectors).length = sectorSize * sectors.length := by
  induction sectors with
  | nil => rfl
  | cons s sectors ih =>
    rw [join, List.flatMap_cons, List.length_append, s.length_eq, ← join, ih, List.length_cons,
      Nat.mul_succ, Nat.add_comm]

theorem split_join (sectors : List Sector) : split (join sectors) = sectors := by
  have hn : partsOf (join sectors).length sectorSize = sectors.length := by
    rw [length_join, partsOf, sectorSize]
    omega
  have hf : join sectors = (sectors.map bytes).flatten := by simp [join, List.flatMap_def]
  rw [split, hn, hf]
  have hs : ∀ l ∈ sectors.map bytes, l.length = sectorSize := by
    simp only [List.mem_map]
    rintro l ⟨s, -, rfl⟩
    exact s.length_eq
  have := pieces_flatten hs
  rw [List.length_map] at this
  simp [this, ofBytes_bytes, Function.comp_def]

@[simp] theorem length_words (s : Sector) : s.words.length = wordsPerSector := by
  rw [words, Word.length_parse, s.length_eq]; rfl

/-- The words of a list are read back, with zeros behind them. -/
theorem words_ofWords {ws : List UInt32} (h : ws.length ≤ wordsPerSector) :
    (ofWords ws).words = padTo 0 wordsPerSector ws := by
  have hw : (ws.flatMap Word.bytes).length = 4 * ws.length := Word.length_flatMap_bytes ws
  have hs : sectorSize = 4 * wordsPerSector := rfl
  have hr : sectorSize - 4 * ws.length = 4 * (wordsPerSector - ws.length) := by omega
  show Word.parse (padTo 0 sectorSize (ws.flatMap Word.bytes)) = _
  rw [padTo_eq_append, padTo_eq_append,
    List.take_of_length_le (by omega), List.take_of_length_le h, Word.parse_flatMap_bytes, hw, hr,
    ← Word.flatMap_bytes_zero]
  have := Word.parse_flatMap_bytes (List.replicate (wordsPerSector - ws.length) 0) []
  rw [List.append_nil] at this
  rw [this, Word.parse_nil, List.append_nil]

theorem word_ofWords {ws : List UInt32} (h : ws.length ≤ wordsPerSector) (k : Nat) :
    (ofWords ws).word k = ws.getD k 0 := by
  rw [word, words_ofWords h, padTo_eq_append, List.take_of_length_le h, List.getD_eq_getElem?_getD,
    List.getD_eq_getElem?_getD]
  by_cases hk : k < ws.length
  · rw [List.getElem?_append_left hk]
  · have hn : ws[k]? = none := List.getElem?_eq_none (by omega)
    rw [List.getElem?_append_right (by omega), hn, List.getElem?_replicate]
    split <;> rfl

end Sector

end SectorFs

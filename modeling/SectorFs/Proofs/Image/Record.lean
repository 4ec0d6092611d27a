import SectorFs.Image.Record
import SectorFs.Proofs.Attempt
import SectorFs.Proofs.Buffer
import SectorFs.Proofs.Image.DirectoryEntry
import SectorFs.Proofs.Sector
import SectorFs.Proofs.Tree.View

/-!
# Records read back

The record of an inode, and the blocks it leads to, give the inode back
(`Record.decode_describe`) when the placement serves its payload: there is a block for
each part of it, and none of those behind the first twelve is zero, which would end their
list (`Placement.Serves`).  Chunks of records are read back with free records behind the
last one (`Record.flatMap_ofChunk`).

The entries of a directory that is read can be written again unless one of them has a name
that fills its field (`Record.written_back`).
-/

namespace SectorFs

open Attempt

/-! ### Payloads -/

namespace Inode

theorem length_payload {i : Inode} {bytes : List UInt8} (h : i.payload = .ok bytes) :
    bytes.length = i.payloadSize := by
  unfold payload at h
  unfold payloadSize
  cases hc : i.content with
  | free =>
    rw [hc] at h
    injection h with h
    rw [← h]
    rfl
  | file buffer =>
    rw [hc] at h
    injection h with h
    rw [← h, Array.length_toList]
    rfl
  | directory entries =>
    rw [hc] at h
    obtain ⟨slots, hs, h⟩ := except_bind_eq_ok_iff.mp h
    injection h with h
    obtain ⟨-, hl, hall⟩ := Entry.mapM_ofSlot hs
    rw [← h, List.length_flatten, List.map_congr_left hall, List.map_const',
      List.sum_replicate_nat, hl, Array.length_toList]
    rfl

theorem payloadSize_le (i : Inode) : i.payloadSize ≤ maxPayloadBlocks * sectorSize := by
  unfold payloadSize
  cases i.content with
  | free => exact Nat.zero_le _
  | file buffer =>
    have h : buffer.items.size ≤ maxFileSize := buffer.size_le_limit
    exact h
  | directory entries =>
    have h : entries.items.size ≤ maxEntries := entries.size_le_limit
    exact Nat.mul_le_mul_right entrySize h

theorem size_lt (i : Inode) : i.size < 2 ^ 32 := by
  unfold size
  cases i.content with
  | free => exact Nat.two_pow_pos 32
  | file buffer =>
    have h : buffer.items.size ≤ maxFileSize := buffer.size_le_limit
    exact Nat.lt_of_le_of_lt h (by decide)
  | directory entries =>
    have h : entries.items.size ≤ maxEntries := entries.size_le_limit
    exact Nat.lt_of_le_of_lt h (by decide)

end Inode

/-- Only an entry of a directory keeps an inode from a disk. -/
theorem Inode.payload_isOk_iff {i : Inode} :
    (∃ bytes, i.payload = .ok bytes) ↔
      ∀ entries, i.content = .directory entries → ∀ e ∈ entries.items.toList, e.Writable := by
  obtain ⟨links, content⟩ := i
  cases content with
  | free => exact ⟨fun _ _ h => (by cases h), fun _ => ⟨[], rfl⟩⟩
  | file bytes => exact ⟨fun _ _ h => (by cases h), fun _ => ⟨_, rfl⟩⟩
  | directory entries =>
    have hmap : (∃ bytes, (⟨links, .directory entries⟩ : Inode).payload = .ok bytes)
        ↔ ∃ slots, entries.items.toList.mapM Entry.toSlot = .ok slots := by
      constructor
      · rintro ⟨bytes, h⟩
        obtain ⟨slots, hs, -⟩ := except_bind_eq_ok_iff.mp h
        exact ⟨slots, hs⟩
      · rintro ⟨slots, hs⟩
        exact ⟨_, except_bind_eq_ok_iff.mpr ⟨slots, hs, rfl⟩⟩
    rw [hmap, except_mapM_isOk_iff]
    constructor
    · intro h u hu e he
      cases hu
      exact Entry.toSlot_isOk_iff.mp (h e he)
    · intro h e he
      exact Entry.toSlot_isOk_iff.mpr (h entries rfl e he)

/-! ### Placements -/

/-- A placement has a block for each part of a payload, and a list of the blocks behind
the first twelve that can be told from its end. -/
structure Placement.Serves (p : Placement) (size : Nat) : Prop where
  length_eq : p.blocks.length = partsOf size sectorSize
  nonzero : ∀ b ∈ p.overflow, b ≠ 0
  listed : directBlocks < p.blocks.length → ∃ b, p.indirect = some b ∧ b ≠ 0

/-- The block that tells the others, where there are too many for the record. -/
def Placement.lists (p : Placement) : List UInt32 :=
  if directBlocks < p.blocks.length then p.indirect.toList else []

namespace Record

/-! ### Words -/

@[simp] theorem length_words (r : Record) : r.words.length = wordsPerRecord := by
  simp [words, wordsPerRecord]

theorem ofWords_words (r : Record) : ofWords r.words = r := by
  obtain ⟨kind, links, size, direct, indirect⟩ := r
  have hdirect : (Vector.ofFn fun k : Fin 12 =>
      (words ⟨kind, links, size, direct, indirect⟩).getD (3 + k) 0) = direct := by
    ext k hk
    rw [Vector.getElem_ofFn, words, List.getD_eq_getElem?_getD, List.append_assoc,
      List.getElem?_append_right (by simp), List.getElem?_append_left (by simpa using hk)]
    simp [hk]
  have hindirect : (words ⟨kind, links, size, direct, indirect⟩).getD 15 0 = indirect := by
    rw [words, List.getD_eq_getElem?_getD, List.append_assoc, List.getElem?_append_right (by simp),
      List.getElem?_append_right (by simp)]
    simp
  rw [ofWords, hdirect, hindirect]
  simp [words]

theorem ofWords_zero : ofWords (List.replicate wordsPerRecord 0) = free := by
  decide

/-! ### Chunks -/

theorem pieces_words (n : Nat) (records : List Record) :
    (pieces wordsPerRecord n (padTo 0 (wordsPerRecord * n) (records.flatMap words))).map ofWords
      = padTo free n records := by
  induction n generalizing records with
  | zero => rfl
  | succ n ih =>
    cases records with
    | nil =>
      have hz : ∀ k, padTo (0 : UInt32) k [] = List.replicate k 0 := fun k => by
        rw [padTo_eq_append]
        simp
      have := ih []
      rw [List.flatMap_nil, hz] at this
      rw [pieces, List.flatMap_nil, hz, Nat.mul_succ, List.take_replicate, List.drop_replicate,
        Nat.add_sub_cancel, List.map_cons, this, Nat.min_eq_left (Nat.le_add_left ..),
        ofWords_zero]
      rfl
    | cons r records =>
      have hsplit : padTo 0 (wordsPerRecord * (n + 1)) (words r ++ records.flatMap words)
          = words r ++ padTo 0 (wordsPerRecord * n) (records.flatMap words) := by
        rw [padTo_eq_append, padTo_eq_append, Nat.mul_succ, Nat.add_comm, List.length_append,
          length_words, ← length_words r, List.take_length_add_append, List.append_assoc,
          Nat.add_sub_add_left]
      rw [List.flatMap_cons, hsplit, pieces, List.take_left' (length_words r),
        List.drop_left' (length_words r), List.map_cons, ofWords_words, ih]
      rfl

theorem ofChunk_ofWords {records : List Record} (h : records.length ≤ recordsPerChunk) :
    ofChunk (.ofWords (records.flatMap words)) = padTo free recordsPerChunk records := by
  have hlen : (records.flatMap words).length = wordsPerRecord * records.length := by
    rw [List.length_flatMap, List.map_congr_left fun r _ => length_words r, List.map_const',
      List.sum_replicate_nat, Nat.mul_comm]
  have hle : wordsPerRecord * records.length ≤ wordsPerRecord * recordsPerChunk :=
    Nat.mul_le_mul_left _ h
  rw [ofChunk, Sector.words_ofWords (by rw [hlen]; exact hle)]
  exact pieces_words recordsPerChunk records

theorem padTo_take {α : Type} (filler : α) (n : Nat) (l : List α) :
    padTo filler n (l.take n) = padTo filler n l := by
  rw [padTo_eq_append, padTo_eq_append, List.take_take, Nat.min_self, List.length_take,
    show n - min n l.length = n - l.length by omega]

theorem padTo_add {α : Type} (filler : α) (m n : Nat) (l : List α) :
    padTo filler (m + n) l = padTo filler m l ++ padTo filler n (l.drop m) := by
  induction m generalizing l with
  | zero => simp [padTo]
  | succ m ih =>
    rw [show m + 1 + n = m + n + 1 by omega]
    cases l with
    | nil =>
      rw [padTo, padTo, ih]
      simp
    | cons a l =>
      rw [padTo, padTo, ih]
      rfl

/-- Chunks of records are read back with free records behind the last one. -/
theorem flatMap_ofChunk (records : List Record) (count : Nat) :
    (toChunks records count).flatMap ofChunk = padTo free (recordsPerChunk * count) records := by
  induction count generalizing records with
  | zero => rfl
  | succ count ih =>
    rw [toChunks, pieces, List.map_cons, List.flatMap_cons, ← toChunks, ih,
      ofChunk_ofWords (List.length_take_le ..), padTo_take, Nat.mul_succ,
      Nat.add_comm _ recordsPerChunk, padTo_add]

theorem padTo_append_replicate {α : Type} (filler : α) (n m : Nat) (l : List α) :
    padTo filler n (l ++ List.replicate m filler) = padTo filler n l := by
  induction n generalizing l m with
  | zero => rfl
  | succ n ih =>
    cases l with
    | nil =>
      cases m with
      | zero => rfl
      | succ m => exact congrArg (filler :: ·) (ih m [])
    | cons a l => exact congrArg (a :: ·) (ih m l)

/-- Free records behind the others leave a chunk as it is. -/
theorem ofWords_padTo (n : Nat) (records : List Record) :
    Sector.ofWords ((padTo free n records).flatMap words)
      = .ofWords ((records.take n).flatMap words) := by
  have hfree : words free = List.replicate wordsPerRecord 0 := by decide
  rw [padTo_eq_append, List.flatMap_append, List.flatMap_replicate, hfree,
    List.flatten_replicate_replicate, Sector.ofWords, List.flatMap_append,
    Word.flatMap_bytes_zero, Sector.ofBytes]
  simp only [padTo_append_replicate]
  rfl

theorem toChunks_padTo (records : List Record) (count : Nat) :
    toChunks (padTo free (recordsPerChunk * count) records) count = toChunks records count := by
  induction count generalizing records with
  | zero => rfl
  | succ count ih =>
    have hlen : (padTo free recordsPerChunk records).length = recordsPerChunk := length_padTo ..
    rw [toChunks, toChunks, pieces, pieces, List.map_cons, List.map_cons, ← toChunks, ← toChunks,
      Nat.mul_succ, Nat.add_comm _ recordsPerChunk, padTo_add, List.take_left' hlen,
      List.drop_left' hlen, ih, ofWords_padTo]

/-! ### What a record tells -/

theorem kind?_describe (i : Inode) (p : Placement) : (describe i p).kind? = .ok i.kind := by
  rw [kind?, show (describe i p).kind = i.kind.code from rfl, Kind.ofCode?_code]

theorem isFree_describe (i : Inode) (p : Placement) : (describe i p).isFree = i.isFree := by
  show (i.kind.code == 0) = (i.kind == .free)
  cases i.kind <;> rfl

theorem size_describe (i : Inode) (p : Placement) : (describe i p).size.toNat = i.size := by
  show (UInt32.ofNat i.size).toNat = i.size
  rw [UInt32.toNat_ofNat', Nat.mod_eq_of_lt i.size_lt]

theorem payloadSize_describe (i : Inode) (p : Placement) :
    (describe i p).payloadSize = .ok i.payloadSize := by
  have hle := i.payloadSize_le
  have hsize := size_describe i p
  have hk := kind?_describe i p
  unfold payloadSize
  rw [hk]
  obtain ⟨links, content⟩ := i
  cases content with
  | free => rfl
  | file buffer =>
    show (if maxPayloadBlocks * sectorSize < (describe _ p).size.toNat then _ else _) = _
    rw [hsize]
    exact if_neg (Nat.not_lt.mpr hle)
  | directory entries =>
    show (if maxPayloadBlocks * sectorSize < (describe _ p).size.toNat * entrySize then _
      else Except.ok ((describe _ p).size.toNat * entrySize)) = _
    rw [hsize]
    exact if_neg (Nat.not_lt.mpr hle)

theorem take_direct (i : Inode) (p : Placement) :
    (describe i p).direct.toList.take p.blocks.length = p.blocks.take directBlocks := by
  have hd : (describe i p).direct.toList = List.ofFn fun k : Fin 12 => p.blocks.getD k 0 := by
    show (Vector.ofFn _).toList = _
    exact Vector.toList_ofFn
  apply List.ext_getElem?
  intro k
  rw [List.getElem?_take, List.getElem?_take, hd, List.getElem?_ofFn]
  by_cases hk : k < p.blocks.length
  · by_cases h12 : k < directBlocks
    · rw [if_pos hk, if_pos h12, dif_pos (show k < 12 from h12), List.getElem?_eq_getElem hk]
      simp [hk]
    · rw [if_pos hk, if_neg h12, dif_neg (show ¬k < 12 from h12)]
  · rw [if_neg hk, List.getElem?_eq_none (Nat.le_of_not_lt hk)]
    split <;> rfl

theorem takeWhile_words {blocks : List UInt32} (hle : blocks.length ≤ wordsPerSector)
    (hnz : ∀ b ∈ blocks, b ≠ 0) :
    (Sector.ofWords blocks).words.takeWhile (· != 0) = blocks := by
  rw [Sector.words_ofWords hle, padTo_eq_append, List.take_of_length_le hle,
    List.takeWhile_append_of_pos fun b hb => bne_iff_ne.mpr (hnz b hb)]
  cases wordsPerSector - blocks.length with
  | zero => rw [List.replicate_zero, List.takeWhile_nil, List.append_nil]
  | succ k => rw [List.replicate_succ, List.takeWhile_cons_of_neg (by simp), List.append_nil]

section

variable {σ : Type} {readBlock : UInt32 → Attempt σ Sector} {s t u : σ}

/-- A record leads to all blocks of its placement. -/
theorem payloadBlocks_describe {i : Inode} {p : Placement} (hp : p.Serves i.payloadSize)
    (hread : p.lists.mapM readBlock s = .ok (p.lists.map fun _ => .ofWords p.overflow) t) :
    (describe i p).payloadBlocks readBlock s = .ok p.blocks t := by
  have hlen := hp.length_eq
  unfold payloadBlocks
  simp only [bind_apply, payloadSize_describe, lift_ok_apply, ← hlen, take_direct]
  by_cases hbig : directBlocks < p.blocks.length
  · obtain ⟨b, hb, hnz⟩ := hp.listed hbig
    have hind : (describe i p).indirect = b := by
      show p.indirect.getD 0 = b
      rw [hb]
      rfl
    have hover : p.overflow.length = p.blocks.length - directBlocks := List.length_drop
    have hle : p.overflow.length ≤ wordsPerSector := by
      have hmax := i.payloadSize_le
      rw [hover, hlen, partsOf]
      rw [maxPayloadBlocks, directBlocks, wordsPerSector, sectorSize] at hmax
      rw [directBlocks, wordsPerSector, sectorSize]
      omega
    have hlist : readBlock b s = .ok (.ofWords p.overflow) t := by
      rw [Placement.lists, if_pos hbig, hb] at hread
      obtain ⟨x, v, hx, h⟩ := bind_eq_ok_iff.mp hread
      injection h with h hv
      rw [hx, ← hv, (List.cons.inj h).1]
    rw [if_pos ⟨hbig, hind ▸ hnz⟩, hind]
    simp only [bind_apply, hlist, pure_apply, takeWhile_words hle hp.nonzero]
    rw [← hover, List.take_length, Placement.overflow, List.take_append_drop]
  · rw [Placement.lists, if_neg hbig] at hread
    injection hread with _ hst
    rw [if_neg fun h => hbig h.1, List.take_of_length_le (Nat.le_of_not_lt hbig), hst]
    rfl

theorem mapM_ok {α β : Type} {f : α → Attempt σ β} {l : List α} {r : List β}
    (h : List.Forall₂ (fun a b => f a s = .ok b s) l r) : l.mapM f s = .ok r s := by
  induction h with
  | nil => rfl
  | cons hab _ ih => simp [bind_apply, map_apply, hab, ih]

theorem readPayload_ok {bytes : List UInt8} {blocks : List UInt32}
    (h : blocks.mapM readBlock s = .ok (Sector.split bytes) t) :
    readPayload readBlock bytes.length blocks s = .ok bytes t := by
  simp only [readPayload, bind_apply, h, pure_apply, Sector.take_join_split]

end

/-! ### Inodes -/

/-- The bytes of a file are put into one buffer, wherever they are read from. -/
theorem decode_file {r : Record} {bytes : List UInt8} (hkind : r.kind? = .ok .file)
    (hsize : r.payloadSize = .ok bytes.length) (hle : bytes.length ≤ filePolicy.limit) :
    ∃ b : Buffer filePolicy UInt8, b.items = bytes.toArray
      ∧ ∀ {σ : Type} {readBlock : UInt32 → Attempt σ Sector} {s t u : σ} {blocks : List UInt32},
        r.payloadBlocks readBlock s = .ok blocks t →
        readPayload readBlock bytes.length blocks t = .ok bytes u →
        r.decode readBlock s = .ok ⟨r.links, .file b⟩ u := by
  obtain ⟨b₀, h₀, he₀⟩ := Buffer.withCapacity_isOk (α := UInt8) filePolicy_width hle
  obtain ⟨b₁, h₁, he₁⟩ := Buffer.append_empty_isOk filePolicy_width he₀ bytes hle
  obtain ⟨b₂, h₂, he₂⟩ := Buffer.resize_same_isOk filePolicy_width b₁ (0 : UInt8)
  rw [he₁, List.size_toArray] at h₂
  refine ⟨b₂, he₂.trans he₁, ?_⟩
  intro σ readBlock s t u blocks hblocks hpay
  simp only [decode, bind_apply, hsize, lift_ok_apply, hblocks, hkind, h₀, h₁, h₂, hpay,
    Buffer.orFail, Except.mapError, pure_apply]

/-- The slots of a directory are read back one by one, wherever they are read from. -/
theorem decode_directory {r : Record} {entries : List Entry} {slots : List (List UInt8)}
    (hslots : entries.mapM Entry.toSlot = .ok slots) (hkind : r.kind? = .ok .directory)
    (hsize : r.payloadSize = .ok (entries.length * entrySize))
    (hentries : r.size.toNat = entries.length)
    (hlen : slots.flatten.length = entries.length * entrySize)
    (hle : entries.length ≤ directoryPolicy.limit) :
    ∃ b : Buffer directoryPolicy Entry, b.items = entries.toArray
      ∧ ∀ {σ : Type} {readBlock : UInt32 → Attempt σ Sector} {s t u : σ} {blocks : List UInt32},
        r.payloadBlocks readBlock s = .ok blocks t →
        readPayload readBlock (entries.length * entrySize) blocks t = .ok slots.flatten u →
        r.decode readBlock s = .ok ⟨r.links, .directory b⟩ u := by
  obtain ⟨hof, hnum, hall⟩ := Entry.mapM_ofSlot hslots
  obtain ⟨b₀, h₀, he₀⟩ := Buffer.withCapacity_isOk (p := directoryPolicy) (α := Entry)
    directoryPolicy_width hle
  obtain ⟨b₁, h₁, he₁⟩ := Buffer.append_empty_isOk directoryPolicy_width he₀ entries hle
  have hdiv : slots.flatten.length / entrySize = slots.length := by
    rw [hlen, hnum]
    exact Nat.mul_div_cancel _ (by decide)
  refine ⟨b₁, he₁, ?_⟩
  intro σ readBlock s t u blocks hblocks hpay
  simp only [decode, bind_apply, hsize, lift_ok_apply, hblocks, hkind, hentries, h₀, hpay, hdiv,
    pieces_flatten hall, hof, h₁, Buffer.orFail, Except.mapError, pure_apply]

/-- The record of an inode and the blocks it leads to give the inode back, and the same one
wherever these are read from. -/
theorem decode_describe {i : Inode} {p : Placement} {bytes : List UInt8} (hfree : i.isFree = false)
    (hb : i.payload = .ok bytes) (hp : p.Serves i.payloadSize) :
    ∃ j : Inode, j.view = i.view
      ∧ ∀ {σ : Type} {readBlock : UInt32 → Attempt σ Sector} {s t u : σ},
        p.lists.mapM readBlock s = .ok (p.lists.map fun _ => .ofWords p.overflow) t →
        p.blocks.mapM readBlock t = .ok (Sector.split bytes) u →
        (describe i p).decode readBlock s = .ok j u := by
  have hblocks : ∀ {σ : Type} {readBlock : UInt32 → Attempt σ Sector} {s t : σ},
      p.lists.mapM readBlock s = .ok (p.lists.map fun _ => .ofWords p.overflow) t →
      (describe i p).payloadBlocks readBlock s = .ok p.blocks t := payloadBlocks_describe hp
  have hlen := Inode.length_payload hb
  have hentries := size_describe i p
  have hlinks : (describe i p).links = i.links := rfl
  have hsize := payloadSize_describe i p
  have hkind := kind?_describe i p
  generalize describe i p = r at *
  obtain ⟨links, content⟩ := i
  subst hlinks
  cases content with
  | free => cases hfree
  | file buffer =>
    have hbytes : bytes = buffer.items.toList := (Except.ok.inj hb).symm
    obtain ⟨b, hitems, hdecode⟩ := decode_file hkind (hlen ▸ hsize)
      (hlen.trans_le buffer.size_le_limit)
    refine ⟨⟨r.links, .file b⟩, ?_, fun hlist hdata => ?_⟩
    · rw [Inode.view, Inode.view, Content.payload, Content.payload, hitems, hbytes]
    · exact hdecode (hblocks hlist) (readPayload_ok hdata)
  | directory buffer =>
    obtain ⟨slots, hslots, hflat⟩ := except_bind_eq_ok_iff.mp hb
    obtain rfl : slots.flatten = bytes := Except.ok.inj hflat
    obtain ⟨b, hitems, hdecode⟩ := decode_directory hslots hkind hsize hentries hlen
      buffer.size_le_limit
    refine ⟨⟨r.links, .directory b⟩, ?_, fun hlist hdata => ?_⟩
    · rw [Inode.view, Inode.view, Content.payload, Content.payload, hitems]
    · have hpay := readPayload_ok hdata
      rw [hlen] at hpay
      exact hdecode (hblocks hlist) hpay

section

variable {σ : Type} {readBlock : UInt32 → Attempt σ Sector} {s : σ}

/-! ### Written back -/

theorem entries_of_decode {r : Record} {t : σ} {i : Inode}
    {entries : Buffer directoryPolicy Entry} (h : r.decode readBlock s = .ok i t)
    (hcontent : i.content = .directory entries) :
    ∃ slots : List (List UInt8), (∀ slot ∈ slots, slot.length = entrySize)
      ∧ slots.mapM Entry.ofSlot = .ok entries.items.toList := by
  obtain ⟨size, s₁, -, h⟩ := bind_eq_ok_iff.mp h
  obtain ⟨blocks, s₂, -, h⟩ := bind_eq_ok_iff.mp h
  obtain ⟨kind, s₃, -, h⟩ := bind_eq_ok_iff.mp h
  cases kind with
  | free =>
    injection h with h _
    rw [← h] at hcontent
    cases hcontent
  | file =>
    obtain ⟨b₁, s₄, -, h⟩ := bind_eq_ok_iff.mp h
    obtain ⟨payload, s₅, -, h⟩ := bind_eq_ok_iff.mp h
    obtain ⟨b₂, s₆, -, h⟩ := bind_eq_ok_iff.mp h
    obtain ⟨b₃, s₇, -, h⟩ := bind_eq_ok_iff.mp h
    injection h with h _
    rw [← h] at hcontent
    cases hcontent
  | directory =>
    obtain ⟨payload, s₄, -, h⟩ := bind_eq_ok_iff.mp h
    obtain ⟨b₁, s₅, h₁, h⟩ := bind_eq_ok_iff.mp h
    obtain ⟨found, s₆, hfound, h⟩ := bind_eq_ok_iff.mp h
    obtain ⟨b₂, s₇, h₂, h⟩ := bind_eq_ok_iff.mp h
    injection h with h _
    have hempty := Buffer.items_of_withCapacity
      (Buffer.orFail_eq_ok_iff.mp (lift_eq_ok_iff.mp h₁).1)
    have hitems := Buffer.items_of_append (Buffer.orFail_eq_ok_iff.mp (lift_eq_ok_iff.mp h₂).1)
    rw [← h] at hcontent
    obtain rfl : b₂ = entries := Content.directory.inj hcontent
    rw [hitems, hempty, Array.empty_append]
    exact ⟨_, length_of_mem_pieces (Nat.mul_div_le ..), (lift_eq_ok_iff.mp hfound).1⟩

end

/-- An entry that is read from a slot is written as this slot with zeros behind the name, which is
read as the same entry; only a name that fills its field cannot be written.  So a directory that is
read from a disk can be written back just when none of its names does. -/
theorem written_back {σ : Type} (readBlock : UInt32 → Attempt σ Sector) :
    (∀ (slot : List UInt8) (e : Entry), slot.length = entrySize → Entry.ofSlot slot = .ok e →
      (0 ∈ slot.take nameFieldSize →
        e.toSlot = .ok (Entry.cleared slot) ∧ Entry.ofSlot (Entry.cleared slot) = .ok e)
      ∧ (0 ∉ slot.take nameFieldSize →
        e.nameBytes.length = nameFieldSize ∧ e.toSlot = .error .nameTooLong))
    ∧ ∀ (r : Record) (s t : σ) (i : Inode) (entries : Buffer directoryPolicy Entry),
        r.decode readBlock s = .ok i t → i.content = .directory entries →
        ∃ slots : List (List UInt8), (∀ slot ∈ slots, slot.length = entrySize)
          ∧ slots.mapM Entry.ofSlot = .ok entries.items.toList
          ∧ i.payload = if ∀ e ∈ entries.items.toList, e.nameBytes.length < nameFieldSize
              then .ok (slots.flatMap Entry.cleared) else .error .nameTooLong := by
  refine ⟨fun slot e hlen h => ?_, fun r s t i entries h hcontent => ?_⟩
  · have hlt := Entry.length_nameBytes_lt_iff hlen h
    have hwrite := Entry.toSlot_of_ofSlot hlen h
    refine ⟨fun h0 => ?_, fun h0 => ?_⟩
    · rw [if_pos (hlt.mpr h0)] at hwrite
      exact ⟨hwrite, (Entry.ofSlot_toSlot hwrite).1⟩
    · have hge := Nat.le_of_not_lt fun hcon => h0 (hlt.mp hcon)
      rw [if_neg fun hcon => h0 (hlt.mp hcon)] at hwrite
      exact ⟨Nat.le_antisymm (Entry.length_nameBytes_le h) hge, hwrite⟩
  · obtain ⟨slots, hlen, hread⟩ := entries_of_decode h hcontent
    refine ⟨slots, hlen, hread, ?_⟩
    simp only [Inode.payload, hcontent, Entry.mapM_toSlot hlen hread]
    split
    · rfl
    · rfl

/-- A slot with a name of one letter, and behind its zero what an older name has left. -/
def reusedSlot : List UInt8 := [97, 0] ++ List.replicate 26 98 ++ [1, 0, 0, 0]

/-- The record of a directory with one entry, which is in block 5. -/
def oneEntry : Record := ⟨Kind.directory.code, 1, 1, Vector.replicate 12 5, 0⟩

/-- A directory with such a slot is read, and written with zeros in place of the rest. -/
theorem written_back_reused :
    (∃ e, Entry.ofSlot reusedSlot = .ok e
        ∧ e.toSlot = .ok ([97] ++ List.replicate 27 0 ++ [1, 0, 0, 0]))
      ∧ ∃ (i : Inode) (entries : Buffer directoryPolicy Entry) (bytes : List UInt8),
        oneEntry.decode (fun _ => pure (.ofBytes reusedSlot)) () = .ok i ()
          ∧ i.content = .directory entries ∧ i.payload = .ok bytes := by
  have hall := written_back (σ := Unit) fun _ => pure (.ofBytes reusedSlot)
  constructor
  · have hread : Entry.ofSlot reusedSlot = .ok ⟨"a", ⟨1⟩⟩ := by decide +kernel
    have hwrite := ((hall.1 _ _ rfl hread).1 (by decide)).1
    exact ⟨_, hread, hwrite⟩
  · have hgood : (oneEntry.decode (fun _ => pure (.ofBytes reusedSlot))).succeeds ()
        (fun i _ => i.isDirectory
          && i.view.entries.all fun e => e.nameBytes.length < nameFieldSize) = true := by
      decide +kernel
    obtain ⟨i, _, hdecode, hi⟩ := succeeds_iff.mp hgood
    obtain ⟨hdir, hshort⟩ := Bool.and_eq_true_iff.mp hi
    obtain ⟨entries, hcontent⟩ := Inode.isDirectory_iff.mp hdir
    have hentries : i.view.entries = entries.items.toList := by
      rw [Inode.view, hcontent]
      rfl
    rw [hentries] at hshort
    obtain ⟨slots, -, -, hpayload⟩ := hall.2 _ _ _ i entries hdecode hcontent
    rw [if_pos fun e he => of_decide_eq_true (List.all_eq_true.mp hshort e he)] at hpayload
    exact ⟨i, entries, _, hdecode, hcontent, hpayload⟩

/-- A name may be read that cannot be written. -/
theorem read_not_written :
    ¬∀ (slot : List UInt8) (e : Entry), slot.length = entrySize → Entry.ofSlot slot = .ok e →
      e.toSlot = .ok (Entry.cleared slot) ∧ Entry.ofSlot (Entry.cleared slot) = .ok e := by
  intro hall
  have hread : Entry.ofSlot (List.replicate 28 97 ++ [1, 0, 0, 0])
      = .ok ⟨"aaaaaaaaaaaaaaaaaaaaaaaaaaaa", ⟨1⟩⟩ := by decide +kernel
  have hwrite : Entry.toSlot ⟨"aaaaaaaaaaaaaaaaaaaaaaaaaaaa", ⟨1⟩⟩ = .error .nameTooLong := by
    decide +kernel
  have h := (hall _ _ rfl hread).1
  rw [hwrite] at h
  cases h

end Record

end SectorFs

import Mathlib.Data.List.Forall2
import SectorFs.Proofs.Image.Record

/-!
# The codec of inodes

An inode is written as 64 bytes that describe it, and as blocks that hold its payload and, if
there are too many of these, the list of those behind the first twelve.  Where the blocks are does
not matter: read back through any function that returns what was written to them, the 64 bytes
give an inode of the same kind, links and payload, and the blocks are asked for once each, the
list before the others (`Record.decode_toBytes`).

What a function is asked for is told by a second one that keeps a log (`Record.logged`).
-/

namespace SectorFs

open Attempt

/-! ### Blocks that hold a payload -/

/-- Whatever was read before, the blocks of a placement are read as the parts of a payload and the
list of what the record does not name. -/
structure Placement.ShownBy (p : Placement) (bytes : List UInt8) {σ : Type}
    (readBlock : UInt32 → Attempt σ Sector) : Prop where
  list : ∀ b ∈ p.lists, ∀ x ∈ p.indirectSector?, ∀ s, ∃ t, readBlock b s = .ok x t
  data : ∀ (k : Nat) (b : UInt32) (x : Sector), p.blocks[k]? = some b →
    (Sector.split bytes)[k]? = some x → ∀ s, ∃ t, readBlock b s = .ok x t

namespace Placement

theorem indirectSector?_of_mem_lists {p : Placement} {b : UInt32} (h : b ∈ p.lists) :
    p.indirectSector? = some (.ofWords p.overflow) := by
  rw [lists] at h
  split at h
  · rw [indirectSector?, Option.mem_toList.mp h]
    rfl
  · exact absurd h List.not_mem_nil

/-- Blocks that are told apart can hold any payload. -/
theorem exists_shownBy {p : Placement} (bytes : List UInt8) (h : (p.lists ++ p.blocks).Nodup) :
    ∃ readBlock : UInt32 → Attempt Unit Sector, p.ShownBy bytes readBlock := by
  obtain ⟨-, hblocks, hdisjoint⟩ := List.nodup_append'.mp h
  refine ⟨fun b => pure (if b ∈ p.lists then .ofWords p.overflow
    else (Sector.split bytes).getD (p.blocks.idxOf b) .zero), ?_, ?_⟩
  · intro b hb x hx s
    rw [indirectSector?_of_mem_lists hb] at hx
    exact ⟨s, by rw [if_pos hb, Option.mem_some_iff.mp hx]; rfl⟩
  · intro k b x hb hx s
    obtain ⟨hk, rfl⟩ := List.getElem?_eq_some_iff.mp hb
    have hnot : p.blocks[k] ∉ p.lists := fun hl => hdisjoint hl (List.getElem_mem hk)
    exact ⟨s, by
      rw [if_neg hnot, hblocks.idxOf_getElem, List.getD_eq_getElem?_getD, hx]
      rfl⟩

end Placement

namespace Record

/-! ### The bytes of a record -/

theorem ofBytes?_toBytes (r : Record) : ofBytes? r.toBytes = some r := by
  have hlen : r.toBytes.length = recordSize := by
    rw [toBytes, Word.length_flatMap_bytes, length_words]
    rfl
  have hparse : Word.parse r.toBytes = r.words := by
    have := Word.parse_flatMap_bytes r.words []
    rwa [List.append_nil, Word.parse_nil, List.append_nil] at this
  rw [ofBytes?, if_neg (by omega), hparse, ofWords_words]

/-! ### What is asked for -/

variable {σ : Type} {readBlock : UInt32 → Attempt σ Sector}

/-- Reads as another function does, and keeps the blocks that were asked for. -/
def logged (readBlock : UInt32 → Attempt σ Sector) (b : UInt32) :
    Attempt (σ × List UInt32) Sector := fun s =>
  match readBlock b s.1 with
  | .ok x t => .ok x (t, s.2 ++ [b])
  | .error f t => .error f (t, s.2 ++ [b])

/-- Blocks that can be read whatever was read before are read one after the other. -/
theorem mapM_logged {blocks : List UInt32} {sectors : List Sector}
    (h : List.Forall₂ (fun b x => ∀ s, ∃ t, readBlock b s = .ok x t) blocks sectors) (s : σ) :
    ∃ t, blocks.mapM readBlock s = .ok sectors t
      ∧ ∀ asked, blocks.mapM (logged readBlock) (s, asked) = .ok sectors (t, asked ++ blocks) := by
  induction h generalizing s with
  | nil => exact ⟨s, rfl, fun asked => by rw [List.append_nil]; rfl⟩
  | @cons b x blocks sectors hb _ ih =>
    obtain ⟨u, hu⟩ := hb s
    obtain ⟨t, hplain, hlogged⟩ := ih u
    refine ⟨t, ?_, fun asked => ?_⟩
    · rw [List.mapM_cons, bind_apply, hu]
      dsimp only
      rw [bind_apply, hplain]
      rfl
    · have hlog : logged readBlock b (s, asked) = .ok x (u, asked ++ [b]) := by
        simp only [logged, hu]
      rw [List.mapM_cons, bind_apply, hlog]
      dsimp only
      rw [bind_apply, hlogged, List.append_assoc]
      rfl

theorem forall₂_of_shownBy {p : Placement} {bytes : List UInt8} (h : p.ShownBy bytes readBlock)
    (hlen : p.blocks.length = (Sector.split bytes).length) :
    List.Forall₂ (fun b x => ∀ s, ∃ t, readBlock b s = .ok x t) p.lists
        (p.lists.map fun _ => .ofWords p.overflow)
      ∧ List.Forall₂ (fun b x => ∀ s, ∃ t, readBlock b s = .ok x t) p.blocks
        (Sector.split bytes) := by
  constructor
  · rw [List.forall₂_map_right_iff, List.forall₂_same]
    intro b hb
    exact h.list b hb _ (Placement.indirectSector?_of_mem_lists hb)
  · rw [List.forall₂_iff_get]
    refine ⟨hlen, fun k hk hk' => ?_⟩
    exact h.data k _ _ (List.getElem?_eq_getElem hk) (List.getElem?_eq_getElem hk')

/-- A file or a directory whose entries have a place on a disk comes back from the bytes of its
record, wherever its blocks are, and no block is asked for but these. -/
theorem decode_toBytes {i : Inode} (hfree : i.isFree = false)
    (hnames : ∀ e ∈ i.view.entries, ∃ slot, e.toSlot = .ok slot) :
    ∃ bytes, i.payload = .ok bytes ∧ ∀ p : Placement, p.Serves i.payloadSize →
      ∃ r j, ofBytes? (describe i p).toBytes = some r ∧ j.view = i.view
        ∧ ∀ {σ : Type} (readBlock : UInt32 → Attempt σ Sector), p.ShownBy bytes readBlock →
          ∀ s : σ,
            (∃ t, r.payloadBlocks readBlock s = .ok p.blocks t
              ∧ r.payloadBlocks (logged readBlock) (s, []) = .ok p.blocks (t, p.lists))
            ∧ ∃ t, r.decode readBlock s = .ok j t
              ∧ r.decode (logged readBlock) (s, []) = .ok j (t, p.lists ++ p.blocks) := by
  have hwritable : ∀ entries, i.content = .directory entries →
      ∀ e ∈ entries.items.toList, e.Writable := by
    intro entries hc e he
    refine Entry.toSlot_isOk_iff.mp (hnames e ?_)
    rw [Inode.view, hc]
    exact he
  obtain ⟨bytes, hb⟩ := Inode.payload_isOk_iff.mpr hwritable
  refine ⟨bytes, hb, fun p hp => ?_⟩
  obtain ⟨j, hview, hdecode⟩ := decode_describe hfree hb hp
  refine ⟨describe i p, j, ofBytes?_toBytes _, hview, fun readBlock hshown s => ?_⟩
  have hlen : p.blocks.length = (Sector.split bytes).length := by
    rw [hp.length_eq, Sector.length_split, Inode.length_payload hb]
  obtain ⟨hlists, hdata⟩ := forall₂_of_shownBy hshown hlen
  obtain ⟨t, hlist, hlistLog⟩ := mapM_logged hlists s
  obtain ⟨u, hpay, hpayLog⟩ := mapM_logged hdata t
  exact ⟨⟨t, payloadBlocks_describe hp hlist, payloadBlocks_describe hp (hlistLog [])⟩,
    u, hdecode hlist hpay, hdecode (hlistLog []) (hpayLog p.lists)⟩

/-- Thirteen blocks, of which the last is not named in the record. -/
def scattered : Placement := ⟨[5, 0, 9, 8, 30, 12, 77, 3, 41, 40, 2, 11, 600], some 7⟩

/-- A file of thirteen blocks comes back through its list, which is read first. -/
theorem decode_toBytes_scattered :
    ∃ (i : Inode) (bytes : List UInt8) (j : Inode) (readBlock : UInt32 → Attempt Unit Sector),
      i.payload = .ok bytes ∧ bytes.length = 6200 ∧ scattered.ShownBy bytes readBlock
        ∧ j.view = i.view
        ∧ ∃ r, ofBytes? (describe i scattered).toBytes = some r
          ∧ r.decode (logged readBlock) ((), []) = .ok j ((), 7 :: scattered.blocks) := by
  have hle : (List.replicate 6200 (1 : UInt8)).length ≤ filePolicy.limit := by
    rw [List.length_replicate]
    decide
  obtain ⟨b₀, -, hempty⟩ := Buffer.withCapacity_isOk (α := UInt8) filePolicy_width hle
  obtain ⟨b, -, hitems⟩ := Buffer.append_empty_isOk filePolicy_width hempty _ hle
  obtain ⟨i, hi⟩ : ∃ i : Inode, i = ⟨1, .file b⟩ := ⟨_, rfl⟩
  have hsize : i.payloadSize = 6200 := by
    rw [hi]
    show b.items.size = 6200
    rw [hitems, List.size_toArray, List.length_replicate]
  have hover : ∀ b ∈ scattered.overflow, b ≠ 0 := by
    have hlast : scattered.overflow = [600] := rfl
    rw [hlast]
    intro b hb
    rw [List.mem_singleton.mp hb]
    decide
  have hserves : scattered.Serves i.payloadSize := by
    rw [hsize]
    exact ⟨rfl, hover, fun _ => ⟨7, rfl, by decide⟩⟩
  obtain ⟨bytes, hb, hall⟩ := decode_toBytes (i := i) (by rw [hi]; rfl) (by
    rw [hi]
    exact fun e he => absurd he List.not_mem_nil)
  obtain ⟨r, j, hr, hview, hread⟩ := hall scattered hserves
  obtain ⟨readBlock, hshown⟩ := Placement.exists_shownBy (p := scattered) bytes (by decide)
  obtain ⟨-, t, -, hlog⟩ := hread readBlock hshown ()
  exact ⟨i, bytes, j, readBlock, hb, (Inode.length_payload hb).trans hsize, hshown, hview, r, hr,
    hlog⟩

end Record

end SectorFs

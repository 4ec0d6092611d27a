import SectorFs.Proofs.Recorder
import SectorFs.Proofs.Volume.Audit

/-!
# What loading reads

Loading goes through an image on its own, and an audit through the same image.  However loading
ends, it asks for each block of the pool at most as often as the image refers to it
(`Volume.load_readsAtMost`), that is, as the audit counts it.

How often an attempt asks for a sector of a disk, at most, is told by `ReadsAtMost`.  It goes
over from the parts of an attempt to the whole: what comes second needs a bound only for what the
first part finds on this disk.
-/

namespace SectorFs

open Attempt

open Backed (disk)

/-- A request that reads a sector. -/
def Request.Reads (s : Nat) : Request → Prop
  | read lba count => lba.toNat ≤ s ∧ s < lba.toNat + count.toNat
  | _ => False

instance (s : Nat) (r : Request) : Decidable (r.Reads s) :=
  match r with
  | .read .. => inferInstanceAs (Decidable (_ ∧ _))
  | .write .. => .isFalse id
  | .flush => .isFalse id

/-- How often a sector was asked for. -/
def Recorder.timesRead {D : Type} (s : Nat) (d : Recorder D) : Nat :=
  d.log.countP fun a => a.1.Reads s

/-- On devices that show a disk, an attempt asks for a sector at most `n` times. -/
def ReadsAtMost {D α : Type} [SectorDevice D] [Backed D] (s : Nat) (m : MemoryDisk) (n : Nat)
    (x : Attempt (Recorder D) α) : Prop :=
  ∀ d, disk d = m → (x.after d).timesRead s ≤ d.timesRead s + n

namespace ReadsAtMost

variable {D : Type} [SectorDevice D] [Backed D] {α β : Type} {s n k : Nat} {m : MemoryDisk}

theorem pure (a : α) : ReadsAtMost (D := D) s m n (Pure.pure a) := fun _ _ => Nat.le_add_right ..

theorem throw (f : Failure) : ReadsAtMost (D := D) (α := α) s m n (MonadExcept.throw f) :=
  fun _ _ => Nat.le_add_right ..

theorem query (f : Recorder D → Except Failure α) : ReadsAtMost s m n (Attempt.query f) := by
  intro d _
  unfold Attempt.after Attempt.query
  cases f d with
  | ok a => exact Nat.le_add_right ..
  | error e => exact Nat.le_add_right ..

theorem lift (x : Except Failure α) : ReadsAtMost (D := D) s m n (liftM x) :=
  match x with
  | .ok a => pure a
  | .error f => throw f

theorem mono {x : Attempt (Recorder D) α} (h : ReadsAtMost s m n x) (hle : n ≤ k) :
    ReadsAtMost s m k x :=
  fun d hd => (h d hd).trans (Nat.add_le_add_left hle _)

/-- What comes second starts with what the first part finds on the disk. -/
theorem bind {x : Attempt (Recorder D) α} {y : Attempt MemoryDisk α}
    {f : α → Attempt (Recorder D) β} (hxy : Mirrors x y) (hx : ReadsAtMost s m n x)
    (hf : ∀ a, y m = .ok a m → ReadsAtMost s m k (f a)) : ReadsAtMost s m (n + k) (x >>= f) := by
  intro d hd
  have hfirst := hx d hd
  unfold Attempt.after
  rw [bind_apply]
  cases h : x d with
  | ok a e =>
    rw [after_of_ok h] at hfirst
    have hdisk : disk e = m := (hxy.asks.of_ok h).disk_eq.trans hd
    have hsecond := hf a (hd ▸ hxy.of_ok h) e hdisk
    show (Attempt.after (f a) e).timesRead s ≤ _
    omega
  | error f e =>
    rw [after_of_error h] at hfirst
    show e.timesRead s ≤ _
    omega

theorem bind_quiet {x : Attempt (Recorder D) α} {y : Attempt MemoryDisk α}
    {f : α → Attempt (Recorder D) β} (hxy : Mirrors x y) (hx : ReadsAtMost s m 0 x)
    (hf : ∀ a, y m = .ok a m → ReadsAtMost s m n (f a)) : ReadsAtMost s m n (x >>= f) :=
  (bind hxy hx hf).mono (Nat.zero_add n).le

theorem lift_bind {x : Except Failure α} {f : α → Attempt (Recorder D) β}
    (hf : ∀ a, x = .ok a → ReadsAtMost s m n (f a)) : ReadsAtMost s m n (liftM x >>= f) :=
  bind_quiet (.lift x) (lift x) fun a ha => hf a (lift_eq_ok_iff.mp ha).1

theorem bind_pure {x : Attempt (Recorder D) α} {y : Attempt MemoryDisk α} (hxy : Mirrors x y)
    (hx : ReadsAtMost s m n x) (f : α → β) : ReadsAtMost s m n (x >>= fun a => Pure.pure (f a)) :=
  bind (k := 0) hxy hx fun _ _ => pure _

theorem check {c : Prop} [Decidable c] {e : Failure} {f : PUnit → Attempt (Recorder D) α}
    (hf : ReadsAtMost s m n (f ⟨⟩)) :
    ReadsAtMost s m n (if c then MonadExcept.throw e >>= f else f ⟨⟩) := by
  split
  · exact bind_quiet (.throw e) (throw e) fun _ ha => nomatch ha
  · exact hf

theorem mapM {f : α → Attempt (Recorder D) β} {y : α → Attempt MemoryDisk β} {c : α → Nat}
    (hy : ∀ a, Mirrors (f a) (y a)) (h : ∀ a, ReadsAtMost s m (c a) (f a)) (l : List α) :
    ReadsAtMost s m (l.map c).sum (l.mapM f) := by
  induction l with
  | nil => exact pure []
  | cons a l ih =>
    rw [List.mapM_cons, List.map_cons, List.sum_cons]
    exact bind (hy a) (h a) fun b _ => bind_pure (Mirrors.mapM hy l) ih fun bs => b :: bs

theorem foldlM {f : β → α → Attempt (Recorder D) β} {y : β → α → Attempt MemoryDisk β}
    {c : α → Nat} (hy : ∀ b a, Mirrors (f b a) (y b a)) {l : List α}
    (h : ∀ b, ∀ a ∈ l, ReadsAtMost s m (c a) (f b a)) (b : β) :
    ReadsAtMost s m (l.map c).sum (l.foldlM f b) := by
  induction l generalizing b with
  | nil => exact pure b
  | cons a l ih =>
    rw [List.foldlM_cons, List.map_cons, List.sum_cons]
    exact bind (hy b a) (h b a List.mem_cons_self) fun b' _ =>
      ih (fun b a ha => h b a (List.mem_cons_of_mem _ ha)) b'

theorem readSectors (lba count : UInt32) :
    ReadsAtMost (D := D) s m (if (Request.read lba count).Reads s then 1 else 0)
      (Device.readSectors lba count) := by
  intro d _
  obtain ⟨⟨granted, hlog⟩, -⟩ := Recorder.request_after (.read lba count) d
  have hafter : ((Device.readSectors lba count).after d).log
      = d.log ++ [(Request.read lba count, granted)] := hlog
  rw [Recorder.timesRead, hafter, List.countP_append, List.countP_singleton]
  simp only [decide_eq_true_eq]
  exact Nat.le_refl _

end ReadsAtMost

/-! ### Blocks of the pool -/

/-- How often a block occurs in a list. -/
def occurrences (b : Nat) (blocks : List UInt32) : Nat := (blocks.map UInt32.toNat).count b

theorem occurrences_append (b : Nat) (l₁ l₂ : List UInt32) :
    occurrences b (l₁ ++ l₂) = occurrences b l₁ + occurrences b l₂ := by
  rw [occurrences, List.map_append, List.count_append]
  rfl

theorem occurrences_cons (b : Nat) (c : UInt32) (l : List UInt32) :
    occurrences b (c :: l) = occurrences b [c] + occurrences b l :=
  occurrences_append b [c] l

theorem occurrences_flatMap {ι : Type} (b : Nat) (l : List ι) (f : ι → List UInt32) :
    occurrences b (l.flatMap f) = (l.map fun i => occurrences b (f i)).sum := by
  induction l with
  | nil => rfl
  | cons i l ih => rw [List.flatMap_cons, occurrences_append, ih, List.map_cons, List.sum_cons]

theorem occurrences_perm {l₁ l₂ : List UInt32} (h : l₁.Perm l₂) (b : Nat) :
    occurrences b l₁ = occurrences b l₂ :=
  (h.map UInt32.toNat).count_eq b

section

variable {D : Type} [SectorDevice D] [Backed D] {g : Geometry} {total : UInt32} {b : Nat}
  {m : MemoryDisk} (hg : g.Fits total)

include hg

theorem readBlock_readsAtMost (c : UInt32) :
    ReadsAtMost (D := D) (g.poolStart.toNat + b) m (occurrences b [c])
      (Reading.readBlock g c) := by
  refine .lift_bind fun lba hlba => .bind_pure (mirrors_readSectors _ _) ?_ _
  refine (ReadsAtMost.readSectors lba 1).mono ?_
  obtain ⟨hc, rfl⟩ := Geometry.runSector_eq_ok_iff.mp hlba
  have hone : (1 : UInt32).toNat = 1 := rfl
  have hsector : (g.poolStart + c).toNat = g.poolStart.toNat + c.toNat := hg.toNat_add (by omega)
  split
  · rename_i hreads
    have hreads : (g.poolStart + c).toNat ≤ g.poolStart.toNat + b
        ∧ g.poolStart.toNat + b < (g.poolStart + c).toNat + (1 : UInt32).toNat := hreads
    have hcb : c.toNat = b := by omega
    rw [occurrences, List.map_singleton, hcb, List.count_singleton_self]
  · exact Nat.zero_le _

/-- What lies before the pool is no block of it. -/
theorem readPoolMap_readsAtMost :
    ReadsAtMost (D := D) (g.poolStart.toNat + b) m 0 (Reading.readPoolMap g) := by
  have hend := hg.toNat_mapSectors
  refine .bind_quiet (mirrors_readSectors _ _) ?_ fun _ _ => .lift _
  refine (ReadsAtMost.readSectors g.mapStart g.mapSectors).mono (Nat.le_of_eq (if_neg ?_))
  rintro ⟨-, hlt⟩
  omega

theorem follow_readsAtMost {count steps : Nat} {block : UInt32} {found i : InodeMap}
    (h : InodeMap.follow (Reading.readBlock g) count steps block found m = .ok i m) :
    ∃ rest, i.chain.toList = found.chain.toList ++ rest
      ∧ ReadsAtMost (D := D) (g.poolStart.toNat + b) m (occurrences b rest)
        (InodeMap.follow (Reading.readBlock g) count steps block found) := by
  induction steps generalizing block found with
  | zero =>
    injection h with h _
    exact ⟨[], by rw [← h, List.append_nil], .pure _⟩
  | succ steps ih =>
    unfold InodeMap.follow at h ⊢
    split at h
    · rename_i henough
      injection h with h _
      rw [if_pos henough]
      exact ⟨[], by rw [← h, List.append_nil], .pure _⟩
    · rename_i hmore
      rw [if_neg hmore]
      obtain ⟨sector, u, hsector, h⟩ := bind_eq_ok_iff.mp h
      obtain rfl := (Reading.mirrors_readBlock g block).keeps _ _ _ hsector
      have hsame : ∀ x, Reading.readBlock g block u = .ok x u → x = sector := by
        intro x hx
        injection hx.symm.trans hsector
      have hblock := readBlock_readsAtMost (D := D) (b := b) (m := u) hg block
      split at h
      · rename_i hend
        injection h with h _
        refine ⟨[block], by rw [← h, Array.toList_push], ?_⟩
        refine .bind (k := 0) (Reading.mirrors_readBlock g block) hblock fun x hx => ?_
        rw [hsame x hx]
        dsimp only
        rw [if_pos hend]
        exact .pure _
      · rename_i hgo
        obtain ⟨rest, hchain, hrest⟩ := ih h
        refine ⟨block :: rest, by rw [hchain, Array.toList_push, List.append_assoc]; rfl, ?_⟩
        rw [occurrences_cons]
        refine .bind (Reading.mirrors_readBlock g block) hblock fun x hx => ?_
        rw [hsame x hx]
        dsimp only
        rw [if_neg hgo]
        exact hrest

theorem readInodeMap_readsAtMost {sb : Superblock} {i : InodeMap}
    (h : Reading.readInodeMap g sb m = .ok i m) :
    ReadsAtMost (D := D) (g.poolStart.toNat + b) m (occurrences b i.chain.toList)
      (Reading.readInodeMap g sb) := by
  obtain ⟨found, u, hfollow, h⟩ := bind_eq_ok_iff.mp h
  obtain rfl := (InodeMap.mirrors_follow (Reading.mirrors_readBlock g) _ _ _ _).keeps _ _ _ hfollow
  obtain rfl : found = i := by
    dsimp only at h
    split at h
    · cases h
    · injection h
  obtain ⟨rest, hchain, hrest⟩ := follow_readsAtMost (D := D) (b := b) hg hfollow
  rw [hchain]
  refine .bind (k := 0) (InodeMap.mirrors_follow (Reading.mirrors_readBlock g) _ _ _ _) hrest
    fun _ _ => .check (.pure _)

/-! ### Records -/

/-- To list the blocks of a record takes its indirect block at most. -/
theorem payloadBlocks_readsAtMost {r : Record} (hr : r.isFree = false) :
    ReadsAtMost (D := D) (g.poolStart.toNat + b) m (occurrences b (Audit.indirectOf r))
      (r.payloadBlocks (Reading.readBlock g)) := by
  unfold Record.payloadBlocks
  refine .lift_bind fun size _ => ?_
  dsimp only
  split
  · rename_i hlist
    have hnot : ¬(r.isFree = true ∨ r.indirect = 0) := by
      rw [hr]
      exact not_or.mpr ⟨Bool.false_ne_true, hlist.2⟩
    rw [Audit.indirectOf, if_neg hnot]
    exact .bind_pure (Reading.mirrors_readBlock g _) (readBlock_readsAtMost hg _) _
  · exact .pure _

theorem readPayload_readsAtMost (size : Nat) (blocks : List UInt32) :
    ReadsAtMost (D := D) (g.poolStart.toNat + b) m (occurrences b blocks)
      (Record.readPayload (Reading.readBlock g) size blocks) := by
  have hblocks : occurrences b blocks = (blocks.map fun c => occurrences b [c]).sum := by
    have := occurrences_flatMap b blocks fun c => [c]
    rwa [List.flatMap_singleton'] at this
  rw [hblocks]
  exact .bind_pure (.mapM (Reading.mirrors_readBlock g) blocks)
    (.mapM (Reading.mirrors_readBlock g) (readBlock_readsAtMost hg) blocks) _

/-- To bring back the inode of a record takes its indirect block and those of its payload. -/
theorem decode_readsAtMost {r : Record} (hr : r.isFree = false) :
    ReadsAtMost (D := D) (g.poolStart.toNat + b) m
      (occurrences b (Audit.payloadOf g m r ++ Audit.indirectOf r))
      (r.decode (Reading.readBlock g)) := by
  rw [occurrences_append, Nat.add_comm (occurrences _ _)]
  unfold Record.decode
  refine .lift_bind fun size _ => .bind (Record.mirrors_payloadBlocks (Reading.mirrors_readBlock g) r)
    (payloadBlocks_readsAtMost hg hr) fun blocks hblocks => .lift_bind fun kind _ => ?_
  have hpayload : Audit.payloadOf g m r = blocks := by
    rw [Audit.payloadOf, if_neg (by rw [hr]; decide), hblocks]
  have hread := fun size => readPayload_readsAtMost (D := D) (b := b) (m := m) hg size blocks
  have hmirrors := fun size => Record.mirrors_readPayload
    (Reading.mirrors_readBlock (D := Recorder D) g) size blocks
  rw [hpayload]
  cases kind with
  | free => exact .pure _
  | file =>
    refine .lift_bind fun _ _ => .bind (k := 0) (hmirrors _) (hread _) fun _ _ => ?_
    exact .lift_bind fun _ _ => .lift_bind fun _ _ => .pure _
  | directory =>
    refine .bind (k := 0) (hmirrors _) (hread _) fun _ _ => ?_
    exact .lift_bind fun _ _ => .lift_bind fun _ _ => .lift_bind fun _ _ => .pure _

theorem loadRecord_readsAtMost (t : Tree) (r : Record × Nat) :
    ReadsAtMost (D := D) (g.poolStart.toNat + b) m
      (occurrences b (Audit.payloadOf g m r.1 ++ Audit.indirectOf r.1))
      (Reading.loadRecord g t r) := by
  unfold Reading.loadRecord
  split
  · exact .pure _
  · rename_i huse
    exact .bind (k := 0) (Record.mirrors_decode (Reading.mirrors_readBlock g) _)
      (decode_readsAtMost hg (Bool.eq_false_iff.mpr huse)) fun _ _ => .lift _

theorem loadChunk_readsAtMost (t : Tree) (chunk : UInt32 × Nat) :
    ReadsAtMost (D := D) (g.poolStart.toNat + b) m
      (occurrences b (chunk.1 :: (Audit.recordsAt g m chunk.1).flatMap fun r =>
        Audit.payloadOf g m r ++ Audit.indirectOf r))
      (Reading.loadChunk g t chunk) := by
  rw [occurrences_cons, occurrences_flatMap]
  refine .bind (Reading.mirrors_readBlock g _) (readBlock_readsAtMost hg _) fun sector hs => ?_
  have hrecords : Audit.recordsAt g m chunk.1
      = ((Record.ofChunk sector).zipIdx (recordsPerChunk * chunk.2)).map Prod.fst := by
    rw [Audit.recordsAt, hs, List.zipIdx_map_fst]
  rw [hrecords, List.map_map]
  exact .foldlM (Reading.mirrors_loadRecord g) (fun t r _ => loadRecord_readsAtMost hg t r) t

theorem loadTree_readsAtMost (t : Tree) (i : InodeMap) :
    ReadsAtMost (D := D) (g.poolStart.toNat + b) m
      (occurrences b (i.chunks.toList.flatMap fun chunk =>
        chunk :: (Audit.recordsAt g m chunk).flatMap fun r =>
          Audit.payloadOf g m r ++ Audit.indirectOf r))
      (Reading.loadTree g t i) := by
  have hchunks : i.chunks.toList = i.chunks.toList.zipIdx.map Prod.fst := by
    rw [List.zipIdx_map_fst]
  rw [occurrences_flatMap, hchunks, List.map_map]
  refine .bind (k := 0) (.foldlM (Reading.mirrors_loadChunk g) t.restart _)
    (.foldlM (Reading.mirrors_loadChunk g) (fun t c _ => loadChunk_readsAtMost hg t c) t.restart)
    fun u _ => ?_
  split
  · exact .pure _
  · exact .throw _

end

/-- The superblock lies before everything else. -/
theorem readSuperblock_readsAtMost {D : Type} [SectorDevice D] [Backed D] {s : Nat}
    {m : MemoryDisk} (hs : 0 < s) : ReadsAtMost (D := D) s m 0 Reading.readSuperblock := by
  have hsector : ¬(Request.read 0 1).Reads s := by
    rintro ⟨-, hlt⟩
    have : s < 0 + 1 := hlt
    omega
  refine .bind_quiet mirrors_requirePresent (.query _) fun _ _ => .bind_quiet
    (mirrors_readSectors _ _) ((ReadsAtMost.readSectors 0 1).mono (Nat.le_of_eq (if_neg hsector)))
    fun _ _ => .lift_bind fun _ _ => .check (.pure _)

/-- The order in which loading comes across the blocks of an image. -/
theorem Audit.perm_loaded (g : Geometry) (d : MemoryDisk) (i : InodeMap) :
    (i.chain.toList ++ i.chunks.toList.flatMap fun chunk =>
        chunk :: (recordsAt g d chunk).flatMap fun r => payloadOf g d r ++ indirectOf r).Perm
      (inventory g d i).all := by
  have hsplit := List.flatMap_append_perm i.chunks.toList (fun chunk => [chunk]) fun chunk =>
    (recordsAt g d chunk).flatMap fun r => payloadOf g d r ++ indirectOf r
  rw [List.flatMap_singleton'] at hsplit
  refine (hsplit.symm.append_left i.chain.toList).trans (.trans ?_ (perm_all g d i))
  rw [← List.append_assoc]
  exact List.perm_append_comm.append_right _

namespace Volume

variable {D : Type} [SectorDevice D] [Backed D]

/-- Loading asks for no block more often than the image refers to it. -/
theorem load_readsAtMost {d : MemoryDisk} {s : Superblock} {g : Geometry} {i : InodeMap}
    (hs : Reading.readSuperblock d = .ok s d) (hg : s.geometryOn d.totalSectors = .ok g)
    (hi : Reading.readInodeMap g s d = .ok i d) (b : Nat) :
    ReadsAtMost (D := D) (g.poolStart.toNat + b) d
      (occurrences b (Audit.inventory g d i).all) load := by
  have hfits := Geometry.fits_of_geometryOn hg
  have hstart := UInt32.lt_iff_toNat_lt.mp hfits.2.1
  rw [← occurrences_perm (Audit.perm_loaded g d i), occurrences_append]
  refine .bind_quiet Reading.mirrors_readSuperblock (readSuperblock_readsAtMost (by omega))
    fun s' hs' => ?_
  obtain rfl : s' = s := by injection hs'.symm.trans hs
  refine .bind_quiet mirrors_totalSectors (.query _) fun total htotal => ?_
  obtain rfl : d.totalSectors = total := by injection htotal
  refine .lift_bind fun g' hg' => ?_
  obtain rfl := Except.ok.inj (hg'.symm.trans hg)
  refine .bind_quiet (Reading.mirrors_readPoolMap g') (readPoolMap_readsAtMost hfits) fun m _ =>
    .lift_bind fun t _ => .bind (Reading.mirrors_readInodeMap g' s')
      (readInodeMap_readsAtMost hfits hi) fun i' hi' => ?_
  obtain rfl : i' = i := by injection hi'.symm.trans hi
  exact .bind_pure (Reading.mirrors_loadTree g' t i') (loadTree_readsAtMost hfits t i') _

end Volume

end SectorFs

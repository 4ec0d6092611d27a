import SectorFs.Proofs.Requests
import SectorFs.Volume.Basic

/-!
# Reading through a device

A filesystem is read by asking for reads only, and what is found is what the disk in
memory behind the device would show, unless the device refuses a read, which ends the
attempt with an I/O error (`Mirrors`).  So a device in order shows just what is stored
(`Mirrors.ok_of_inOrder`, `Mirrors.error_of_inOrder`), and any other that or an I/O error
(`Mirrors.ok_or_ioError`).
-/

namespace SectorFs

open Attempt

open Backed (disk)

section

variable {D : Type} [SectorDevice D] [Backed D] {α β : Type}

/-- An attempt asks for reads only and ends as another one does on the disk in memory behind
the device, unless a device out of order ends it with an I/O error. -/
structure Mirrors (x : Attempt D α) (y : Attempt MemoryDisk α) : Prop where
  asks : x.Asks Request.IsRead
  of_ok : ∀ {d e : D} {a : α}, x d = .ok a e → y (disk d) = .ok a (disk d)
  of_error : ∀ {d e : D} {f : Failure}, x d = .error f e →
    f = .ioError ∧ ¬InOrder d ∨ y (disk d) = .error f (disk d)

namespace Mirrors

/-! ### Attempts made of parts -/

theorem pure (a : α) : Mirrors (Pure.pure a : Attempt D α) (Pure.pure a) where
  asks := .pure a
  of_ok h := by
    injection h with ha _
    rw [ha]
    rfl
  of_error h := nomatch h

theorem throw (f : Failure) : Mirrors (MonadExcept.throw f : Attempt D α) (MonadExcept.throw f) where
  asks := .throw f
  of_ok h := nomatch h
  of_error h := by
    injection h with hf _
    rw [hf]
    exact .inr rfl

theorem lift (x : Except Failure α) : Mirrors (liftM x : Attempt D α) (liftM x) :=
  match x with
  | .ok a => pure a
  | .error f => throw f

theorem bind {x : Attempt D α} {y : Attempt MemoryDisk α} {f : α → Attempt D β}
    {g : α → Attempt MemoryDisk β} (hx : Mirrors x y) (hf : ∀ a, Mirrors (f a) (g a)) :
    Mirrors (x >>= f) (y >>= g) where
  asks := .bind hx.asks fun a => (hf a).asks
  of_ok {d e b} h := by
    obtain ⟨a, c, ha, hb⟩ := bind_eq_ok_iff.mp h
    have hc := (hx.asks.of_ok ha).disk_eq
    exact bind_eq_ok_iff.mpr ⟨a, disk d, hx.of_ok ha, hc ▸ (hf a).of_ok hb⟩
  of_error {d e f'} h := by
    rcases bind_eq_error_iff.mp h with ha | ⟨a, c, ha, hb⟩
    · exact (hx.of_error ha).imp_right fun hy => bind_eq_error_iff.mpr (.inl hy)
    · have hasked := hx.asks.of_ok ha
      have hc := hasked.disk_eq
      rcases (hf a).of_error hb with ⟨hio, hord⟩ | hy
      · exact .inl ⟨hio, fun hd => hord (hd.of_asked hasked)⟩
      · exact .inr (bind_eq_error_iff.mpr (.inr ⟨a, disk d, hx.of_ok ha, hc ▸ hy⟩))

theorem mapM {f : α → Attempt D β} {g : α → Attempt MemoryDisk β}
    (h : ∀ a, Mirrors (f a) (g a)) (l : List α) : Mirrors (l.mapM f) (l.mapM g) := by
  induction l with
  | nil => exact pure []
  | cons a l ih =>
    rw [List.mapM_cons, List.mapM_cons]
    exact bind (h a) fun _ => bind ih fun _ => pure _

theorem foldlM {f : β → α → Attempt D β} {g : β → α → Attempt MemoryDisk β}
    (h : ∀ b a, Mirrors (f b a) (g b a)) (b : β) (l : List α) :
    Mirrors (l.foldlM f b) (l.foldlM g b) := by
  induction l generalizing b with
  | nil => exact pure b
  | cons a l ih =>
    rw [List.foldlM_cons, List.foldlM_cons]
    exact bind (h b a) ih

/-! ### What is found -/

variable {x : Attempt D α} {y : Attempt MemoryDisk α} {d : D}

theorem ok_or_ioError (h : Mirrors x y) {a : α} {m : MemoryDisk} (hy : y (disk d) = .ok a m) :
    (∃ e, x d = .ok a e) ∨ ¬InOrder d ∧ ∃ e, x d = .error .ioError e := by
  cases hx : x d with
  | ok b e =>
    have hb := hy.symm.trans (h.of_ok hx)
    injection hb with hb _
    exact .inl ⟨e, by rw [hb]⟩
  | error f e =>
    rcases h.of_error hx with ⟨rfl, hd⟩ | hf
    · exact .inr ⟨hd, e, rfl⟩
    · exact absurd (hy.symm.trans hf) nofun

theorem ok_of_inOrder (h : Mirrors x y) (hd : InOrder d) {a : α} {m : MemoryDisk}
    (hy : y (disk d) = .ok a m) : ∃ e, x d = .ok a e :=
  (h.ok_or_ioError hy).resolve_right fun hbad => hbad.1 hd

theorem error_of_inOrder (h : Mirrors x y) (hd : InOrder d) {f : Failure} {m : MemoryDisk}
    (hy : y (disk d) = .error f m) : ∃ e, x d = .error f e := by
  cases hx : x d with
  | ok b e => exact absurd (hy.symm.trans (h.of_ok hx)) nofun
  | error f' e =>
    have hf := (h.of_error hx).resolve_left fun hbad => hbad.2 hd
    injection hy.symm.trans hf with hf _
    exact ⟨e, by rw [hf]⟩

theorem keeps {x y : Attempt MemoryDisk α} (h : Mirrors x y) : x.Keeps :=
  fun _ _ _ hx => (h.asks.of_ok hx).disk_eq

end Mirrors

/-! ### Parts of an image -/

theorem requirePresent_apply {D : Type} [SectorDevice D] (d : D) :
    Device.requirePresent d
      = if SectorDevice.present d then .ok () d else .error .ioError d := by
  show ofExcept (if SectorDevice.present d then .ok () else .error .ioError) d = _
  split <;> rfl

theorem mirrors_requirePresent :
    Mirrors (Device.requirePresent : Attempt D Unit) Device.requirePresent where
  asks := .query _
  of_ok _ := rfl
  of_error h := by
    rw [requirePresent_apply] at h
    split at h
    · cases h
    · rename_i habsent
      injection h with hf _
      exact .inl ⟨hf.symm, fun hd => habsent hd.grants.present⟩

theorem mirrors_totalSectors :
    Mirrors (Device.totalSectors : Attempt D UInt32) Device.totalSectors where
  asks := .query _
  of_ok h := by
    injection h with ha _
    rw [← ha, Backed.totalSectors_eq]
    rfl
  of_error h := nomatch h

theorem mirrors_readSectors (lba count : UInt32) :
    Mirrors (Device.readSectors lba count : Attempt D _) (Device.readSectors lba count) where
  asks := asks_readSectors lba count
  of_ok h := (Device.readSectors_ok h).1
  of_error {d e f} h := by
    obtain ⟨rfl, -⟩ := Device.readSectors_error h
    cases hm : Device.readSectors lba count (disk d) with
    | ok bytes m =>
      refine .inl ⟨rfl, fun hd => ?_⟩
      obtain ⟨_, _, hr⟩ := hd.grants.granted (.read lba count) ⟨bytes, m, hm⟩
      rw [h] at hr
      cases hr
    | error f m =>
      obtain ⟨rfl, hm'⟩ := Device.readSectors_error hm
      rw [show m = disk d from hm']
      exact .inr rfl

end

namespace Record

variable {D : Type} [SectorDevice D] [Backed D] {rb : UInt32 → Attempt D Sector}
  {rm : UInt32 → Attempt MemoryDisk Sector}

theorem mirrors_payloadBlocks (h : ∀ b, Mirrors (rb b) (rm b)) (r : Record) :
    Mirrors (r.payloadBlocks rb) (r.payloadBlocks rm) := by
  unfold payloadBlocks
  refine .bind (.lift _) fun size => ?_
  simp only []
  split
  · exact .bind (h _) fun _ => .pure _
  · exact .pure _

theorem mirrors_readPayload (h : ∀ b, Mirrors (rb b) (rm b)) (size : Nat) (blocks : List UInt32) :
    Mirrors (readPayload rb size blocks) (readPayload rm size blocks) :=
  .bind (.mapM h blocks) fun _ => .pure _

theorem mirrors_decode (h : ∀ b, Mirrors (rb b) (rm b)) (r : Record) :
    Mirrors (r.decode rb) (r.decode rm) := by
  unfold decode
  refine .bind (.lift _) fun size => .bind (mirrors_payloadBlocks h r) fun blocks =>
    .bind (.lift _) fun kind => ?_
  cases kind with
  | free => exact .pure _
  | file =>
    exact .bind (.lift _) fun _ => .bind (mirrors_readPayload h _ _) fun _ => .bind (.lift _)
      fun _ => .bind (.lift _) fun _ => .pure _
  | directory =>
    exact .bind (mirrors_readPayload h _ _) fun _ => .bind (.lift _) fun _ => .bind (.lift _)
      fun _ => .bind (.lift _) fun _ => .pure _

end Record

namespace InodeMap

variable {D : Type} [SectorDevice D] [Backed D] {rb : UInt32 → Attempt D Sector}
  {rm : UInt32 → Attempt MemoryDisk Sector}

theorem mirrors_follow (h : ∀ b, Mirrors (rb b) (rm b)) (count steps : Nat) (block : UInt32)
    (found : InodeMap) :
    Mirrors (follow rb count steps block found) (follow rm count steps block found) := by
  induction steps generalizing block found with
  | zero => exact .pure _
  | succ steps ih =>
    unfold follow
    split
    · exact .pure _
    · refine .bind (h _) fun sector => ?_
      simp only []
      split
      · exact .pure _
      · exact ih _ _

theorem mirrors_read (h : ∀ b, Mirrors (rb b) (rm b)) (start : UInt32) (count : Nat) :
    Mirrors (read rb start count) (read rm start count) := by
  refine .bind (mirrors_follow h _ _ _ _) fun found => ?_
  simp only []
  split
  · exact .bind (.throw _) fun _ => .pure _
  · exact .bind (.pure _) fun _ => .pure _

end InodeMap

namespace Reading

variable {D : Type} [SectorDevice D] [Backed D]

theorem mirrors_readBlock (g : Geometry) (b : UInt32) :
    Mirrors (readBlock g b : Attempt D Sector) (readBlock g b) :=
  .bind (.lift _) fun _ => .bind (mirrors_readSectors _ _) fun _ => .pure _

theorem mirrors_readSuperblock :
    Mirrors (readSuperblock : Attempt D Superblock) readSuperblock := by
  refine .bind mirrors_requirePresent fun _ => .bind (mirrors_readSectors _ _) fun _ =>
    .bind (.lift _) fun s => ?_
  simp only []
  split
  · exact .bind (.throw _) fun _ => .pure _
  · exact .bind (.pure _) fun _ => .pure _

theorem mirrors_readPoolMap (g : Geometry) :
    Mirrors (readPoolMap g : Attempt D (PoolMap g)) (readPoolMap g) :=
  .bind (mirrors_readSectors _ _) fun _ => .lift _

theorem mirrors_readMap (g : Geometry) :
    Mirrors (readMap g : Attempt D BlockMap) (readMap g) :=
  .bind (mirrors_readPoolMap g) fun _ => .pure _

theorem mirrors_readInodeMap (g : Geometry) (s : Superblock) :
    Mirrors (readInodeMap g s : Attempt D InodeMap) (readInodeMap g s) :=
  InodeMap.mirrors_read (mirrors_readBlock g) _ _

theorem mirrors_loadRecord (g : Geometry) (t : Tree) (r : Record × Nat) :
    Mirrors (loadRecord g t r : Attempt D Tree) (loadRecord g t r) := by
  unfold loadRecord
  split
  · exact .pure _
  · exact .bind (Record.mirrors_decode (mirrors_readBlock g) _) fun _ => .lift _

theorem mirrors_loadChunk (g : Geometry) (t : Tree) (chunk : UInt32 × Nat) :
    Mirrors (loadChunk g t chunk : Attempt D Tree) (loadChunk g t chunk) :=
  .bind (mirrors_readBlock g _) fun _ => .foldlM (mirrors_loadRecord g) _ _

theorem mirrors_loadTree (g : Geometry) (t : Tree) (m : InodeMap) :
    Mirrors (loadTree g t m : Attempt D Tree) (loadTree g t m) := by
  refine .bind (.foldlM (mirrors_loadChunk g) _ _) fun u => ?_
  split
  · exact .pure _
  · exact .throw _

end Reading

namespace Audit

variable {D : Type} [SectorDevice D] [Backed D]

theorem mirrors_countRecord (g : Geometry) (counts : Array Nat) (r : Record) :
    Mirrors (countRecord g counts r : Attempt D (Array Nat)) (countRecord g counts r) := by
  unfold countRecord
  split
  · exact .pure _
  · refine .bind (Record.mirrors_payloadBlocks (Reading.mirrors_readBlock g) r) fun _ =>
      .bind (.lift _) fun _ => ?_
    split
    · exact .pure _
    · exact .lift _

theorem mirrors_run : Mirrors (run : Attempt D AuditReport) run :=
  .bind Reading.mirrors_readSuperblock fun _ => .bind mirrors_totalSectors fun _ =>
    .bind (.lift _) fun g => .bind (Reading.mirrors_readMap g) fun _ =>
    .bind (Reading.mirrors_readInodeMap g _) fun _ => .bind (.lift _) fun _ =>
    .bind (.foldlM (fun _ _ => .bind (Reading.mirrors_readBlock g _) fun _ =>
      .foldlM (mirrors_countRecord g) _ _) _ _) fun _ => .pure _

end Audit

/-- Loading reads only. -/
theorem Volume.mirrors_load {D : Type} [SectorDevice D] [Backed D] :
    Mirrors (load : Attempt D Volume) load :=
  .bind Reading.mirrors_readSuperblock fun _ => .bind mirrors_totalSectors fun _ =>
    .bind (.lift _) fun g => .bind (Reading.mirrors_readPoolMap g) fun _ =>
    .bind (.lift _) fun _ => .bind (Reading.mirrors_readInodeMap g _) fun _ =>
    .bind (Reading.mirrors_loadTree g _ _) fun _ => .pure _

end SectorFs

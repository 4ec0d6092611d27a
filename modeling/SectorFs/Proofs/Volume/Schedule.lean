import SectorFs.Proofs.Recorder
import SectorFs.Proofs.Volume.Space

/-!
# What a pass asks for

What a pass writes, and in which order, can be told from the tree alone (`Pass.schedule`): the
payloads of the inodes with their indirect blocks, in the order of the table, then the chunks,
the inode map, the block map and the superblock, and a flush at the end.  A pass takes these
steps one after the other up to the first that fails (`Volume.writes_of_sync`).  The parts lie
side by side in the pool, without a gap and without touching (`Step.Tiles`), so that a pass that
succeeds writes each block that its block map has in use once, and no other.
-/

namespace SectorFs

open Attempt

/-! ### Taking steps -/

namespace Step

/-- What a step asks of a device, if it asks for anything. -/
def request? : Step → Option Request
  | write lba sectors => some (.write lba sectors)
  | flush => some .flush
  | stop _ => none

/-- How a pass ends when the step fails. -/
def failure : Step → Failure
  | stop f => f
  | _ => .ioError

/-- The record of steps that were taken. -/
def taken (steps : List Step) : List (Request × Bool) := (steps.filterMap request?).map (·, true)

/-- The record of a step that failed. -/
def refused (s : Step) : List (Request × Bool) := s.request?.toList.map (·, false)

theorem taken_append (a b : List Step) : taken (a ++ b) = taken a ++ taken b := by
  rw [taken, List.filterMap_append, List.map_append]
  rfl

section

variable {D : Type} [SectorDevice D]

theorem run_recorded (s : Step) (d : Recorder D) :
    (∃ e, s.run d.device = .ok () e ∧ s.run d = .ok () ⟨e, d.log ++ taken [s]⟩
        ∧ s.request?.isSome = true)
      ∨ ∃ e, s.run d.device = .error s.failure e
        ∧ s.run d = .error s.failure ⟨e, d.log ++ s.refused⟩ := by
  have hpass : ∀ (r : Request) (t : Transfer D Unit),
      (∃ e, Device.attempt t d.device = .ok () e
          ∧ Device.attempt (Recorder.pass r t) d = .ok () ⟨e, d.log ++ [(r, true)]⟩)
        ∨ ∃ e, Device.attempt t d.device = .error .ioError e
          ∧ Device.attempt (Recorder.pass r t) d = .error .ioError ⟨e, d.log ++ [(r, false)]⟩ := by
    intro r t
    rw [Recorder.attempt_pass]
    cases ht : Device.attempt t d.device with
    | ok a e => exact .inl ⟨e, rfl, rfl⟩
    | error f e =>
      obtain ⟨rfl, -⟩ := Device.attempt_eq_error_iff.mp ht
      exact .inr ⟨e, rfl, rfl⟩
  cases s with
  | write lba sectors =>
    show (∃ e, _ ∧ Device.writeSectors lba sectors d = _ ∧ _)
      ∨ ∃ e, _ ∧ Device.writeSectors lba sectors d = _
    rw [Recorder.writeSectors_eq]
    exact (hpass (.write lba sectors) _).imp_left fun ⟨e, h, hr⟩ => ⟨e, h, hr, rfl⟩
  | flush => exact (hpass .flush _).imp_left fun ⟨e, h, hr⟩ => ⟨e, h, hr, rfl⟩
  | stop f =>
    refine .inr ⟨d.device, rfl, ?_⟩
    show .error f d = EStateM.Result.error f (⟨d.device, d.log ++ []⟩ : Recorder D)
    rw [List.append_nil]

/-- Steps are taken one after the other up to the first that fails. -/
theorem run_steps_recorded (steps : List Step) (d : Recorder D) :
    (∃ e, steps.forM run d.device = .ok () e ∧ steps.forM run d = .ok () ⟨e, d.log ++ taken steps⟩
        ∧ ∀ s ∈ steps, s.request?.isSome = true)
      ∨ ∃ done s rest e, steps = done ++ s :: rest ∧ (∀ r ∈ done, r.request?.isSome = true)
        ∧ steps.forM run d.device = .error s.failure e
        ∧ steps.forM run d = .error s.failure ⟨e, d.log ++ (taken done ++ s.refused)⟩ := by
  induction steps generalizing d with
  | nil =>
    refine .inl ⟨d.device, rfl, ?_, fun _ hs => absurd hs List.not_mem_nil⟩
    show .ok () d = EStateM.Result.ok () (⟨d.device, d.log ++ []⟩ : Recorder D)
    rw [List.append_nil]
  | cons s steps ih =>
    have hcons : ∀ {C : Type} [SectorDevice C] (c : C), (s :: steps).forM run c
        = (s.run >>= fun _ => steps.forM run : Attempt C PUnit) c := fun _ => rfl
    have hlog : ∀ steps, d.log ++ taken [s] ++ taken steps = d.log ++ taken (s :: steps) :=
      fun steps => by
        rw [List.append_assoc, ← taken_append]
        rfl
    rw [hcons, hcons, bind_apply, bind_apply]
    rcases run_recorded s d with ⟨c, hdevice, hrecord, hrequest⟩ | ⟨c, hdevice, hrecord⟩
    · rw [hdevice, hrecord]
      rcases ih ⟨c, d.log ++ taken [s]⟩ with
        ⟨e, hd, hr, hall⟩ | ⟨done, r, rest, e, rfl, hall, hd, hr⟩
      · simp only [hlog] at hr
        exact .inl ⟨e, hd, hr, List.forall_mem_cons.mpr ⟨hrequest, hall⟩⟩
      · simp only [← List.append_assoc, hlog] at hr
        simp only [← List.append_assoc]
        exact .inr ⟨s :: done, r, rest, e, rfl, List.forall_mem_cons.mpr ⟨hrequest, hall⟩, hd, hr⟩
    · rw [hdevice, hrecord]
      exact .inr ⟨[], s, steps, c, rfl, fun _ hs => absurd hs List.not_mem_nil, rfl, rfl⟩

/-- Steps that a device takes are what its recorder has on record then. -/
theorem run_new_of_ok {steps : List Step} {d e : D} (h : steps.forM run d = .ok () e) :
    steps.forM run (Recorder.new d) = .ok () ⟨e, taken steps⟩ := by
  rcases run_steps_recorded steps (Recorder.new d) with
    ⟨c, hc, hrecord, -⟩ | ⟨done, s, rest, c, -, -, hc, -⟩
  · have hce := h.symm.trans hc
    injection hce with _ hce
    rw [hrecord, hce]
    rfl
  · cases h.symm.trans hc

end

/-! ### Sectors side by side -/

instance (s : Step) (i : Nat) : Decidable (s.Touches i) :=
  match s with
  | write _ _ => inferInstanceAs (Decidable (_ ∧ _))
  | flush => .isFalse id
  | stop _ => .isFalse id

/-- Steps write each sector from `a` on, before `b`, once, and no other. -/
def Tiles (a b : Nat) (steps : List Step) : Prop :=
  ∀ i, steps.countP (·.Touches i) = if a ≤ i ∧ i < b then 1 else 0

namespace Tiles

theorem nil (a : Nat) : Tiles a a [] := fun i => (if_neg (by omega)).symm

theorem append {a b c : Nat} {steps rest : List Step} (hab : a ≤ b) (hbc : b ≤ c)
    (h : Tiles a b steps) (hr : Tiles b c rest) : Tiles a c (steps ++ rest) := by
  intro i
  rw [List.countP_append, h i, hr i]
  split <;> split <;> split <;> omega

theorem write {lba : UInt32} {sectors : List Sector} {a b : Nat} (ha : lba.toNat = a)
    (hb : a + sectors.length = b) : Tiles a b [.write lba sectors] := by
  intro i
  rw [List.countP_singleton]
  simp only [decide_eq_true_eq]
  exact if_congr (by rw [Touches, ha, hb]) rfl rfl

theorem flush (a : Nat) : Tiles a a [.flush] := fun i => by
  rw [if_neg (by omega)]
  rfl

end Tiles

end Step

/-! ### The schedule -/

namespace Pass

/-- What is written for an inode whose run starts at block `n`: its payload, and the list of the
blocks that its record does not name. -/
def payloadWrites (g : Geometry) (n : Nat) (i : Inode) : List Step :=
  match i.payload with
  | .error f => [.stop f]
  | .ok bytes => .write (g.poolStart + UInt32.ofNat n) (Sector.split bytes)
      :: if directBlocks < payloadBlocks i then
        [.write (g.poolStart + UInt32.ofNat (n + payloadBlocks i))
          [.ofWords ((blockRun n (payloadBlocks i)).drop directBlocks)]]
      else []

/-- What is written for the inodes of a list that are in use and have a payload, from block `n`
on. -/
def payloadsFrom (g : Geometry) (n : Nat) : List Inode → List Step
  | [] => []
  | i :: rest =>
    (if i.isFree = true ∨ i.payloadSize = 0 then [] else payloadWrites g n i)
      ++ payloadsFrom g (n + spaceOf i) rest

def mapOf (g : Geometry) (t : Tree) : BlockMap :=
  (BlockMap.empty g.blockCount.toNat).markRun 0 (blocksUsed t)

/-- All that a pass over a tree writes, in this order, and the flush at its end. -/
def schedule (g : Geometry) (t : Tree) : List Step :=
  payloadsFrom g (payloadStart t) t.slots.toList ++ [
    .write (g.poolStart + UInt32.ofNat 0) (chunksOf t),
    .write (g.poolStart + UInt32.ofNat (chunkCount t)) (inodeMapOf t),
    Step.writeMap g (mapOf g t),
    .write 0 [(superblockOf g t).toSector],
    .flush]

variable {g : Geometry} {total : UInt32}

theorem payloadBlocks_eq_zero_iff {i : Inode} :
    payloadBlocks i = 0 ↔ i.isFree = true ∨ i.payloadSize = 0 := by
  have hsize : payloadBlocks i = (i.payloadSize + 511) / 512 := rfl
  constructor
  · intro h
    exact .inr (by omega)
  · rintro (h | h)
    · exact payloadBlocks_of_isFree h
    · omega

theorem payloadSteps_placedFrom {n : Nat} {slots : List Inode}
    (hn : placedEnd n slots ≤ g.blockCount.toNat) :
    (placedFrom n slots).flatMap (payloadSteps g) = payloadsFrom g n slots := by
  induction slots generalizing n with
  | nil => rfl
  | cons i slots ih =>
    have hend : placedEnd n (i :: slots) = placedEnd (n + spaceOf i) slots := rfl
    rw [hend] at hn
    rw [placedFrom, List.flatMap_cons, payloadSteps_eq ((le_placedEnd ..).trans hn), ih hn,
      payloadsFrom]
    simp only [payloadBlocks_eq_zero_iff]
    rfl

theorem payloadsFrom_append (n : Nat) (a b : List Inode) :
    payloadsFrom g n (a ++ b) = payloadsFrom g n a ++ payloadsFrom g (placedEnd n a) b := by
  induction a generalizing n with
  | nil => rfl
  | cons i a ih =>
    rw [List.cons_append, payloadsFrom, payloadsFrom, ih, List.append_assoc]
    rfl

theorem payloadsFrom_of_isFree {n : Nat} {slots : List Inode} (h : ∀ i ∈ slots, i.isFree = true) :
    payloadsFrom g n slots = [] := by
  induction slots generalizing n with
  | nil => rfl
  | cons i slots ih =>
    rw [payloadsFrom, if_pos (.inl (h i List.mem_cons_self)),
      ih fun j hj => h j (List.mem_cons_of_mem i hj)]
    rfl

theorem payloadsFrom_slotsOf (t : Tree) :
    payloadsFrom g (payloadStart t) t.slots.toList
      = payloadsFrom g (payloadStart t) (slotsOf t) := by
  rw [← List.take_append_drop (chunkCount t * recordsPerChunk) t.slots.toList,
    payloadsFrom_append, payloadsFrom_of_isFree fun i hi => isFree_of_mem_drop hi,
    List.append_nil, slotsOf]

theorem firstUsed_mapOf {t : Tree} (h : blocksUsed t ≤ g.blockCount.toNat) :
    (mapOf g t).FirstUsed (blocksUsed t) := by
  have hroom : 0 + blocksUsed t ≤ (BlockMap.empty g.blockCount.toNat).blocks := by
    rw [Nat.zero_add]
    exact h
  have hmap := (BlockMap.firstUsed_empty g.blockCount.toNat).markRun hroom
  rwa [Nat.zero_add] at hmap

theorem Planned.map_eq {t : Tree} {p : Pass} {mapSectors : List Sector}
    (hp : Planned g t p mapSectors) : p.map = mapOf g t := by
  have hfirst := firstUsed_mapOf hp.end_le
  refine BlockMap.eq_of_bit ?_ fun b => by rw [hp.map_firstUsed.bit_eq, hfirst.bit_eq]
  rw [hp.map_blocks, mapOf, BlockMap.blocks_markRun]
  rfl

theorem Planned.steps_eq_schedule {t : Tree} {p : Pass} {mapSectors : List Sector}
    (hp : Planned g t p mapSectors) : p.steps = schedule g t := by
  have hmap : Step.writeMap g (mapOf g t) = .write g.mapStart mapSectors := by
    rw [← hp.map_eq, Step.writeMap, hp.map_sectors]
  rw [hp.steps_eq, schedule, payloadsFrom_slotsOf, hmap, ← payloadSteps_placedFrom hp.end_le]
  rfl

/-! ### Blocks of the pool -/

/-- The payload of an inode and the list of its blocks fill its run. -/
theorem tiles_payloadWrites (hg : g.Fits total) {n : Nat} {i : Inode}
    (hn : n + spaceOf i ≤ g.blockCount.toNat)
    (hok : ∀ s ∈ payloadWrites g n i, s.request?.isSome = true) :
    Step.Tiles (g.poolStart.toNat + n) (g.poolStart.toNat + (n + spaceOf i))
      (payloadWrites g n i) := by
  have hspace : payloadBlocks i ≤ spaceOf i := by
    rw [spaceOf]
    split <;> omega
  unfold payloadWrites at hok ⊢
  cases hp : i.payload with
  | error f =>
    rw [hp] at hok
    cases hok _ List.mem_cons_self
  | ok bytes =>
    have hlen : (Sector.split bytes).length = payloadBlocks i := by
      rw [Sector.length_split, Inode.length_payload hp]
      rfl
    have hdata : Step.Tiles (g.poolStart.toNat + n) (g.poolStart.toNat + (n + payloadBlocks i))
        [.write (g.poolStart + UInt32.ofNat n) (Sector.split bytes)] :=
      .write (Step.toNat_poolStart_add hg (by omega)) (by rw [hlen, Nat.add_assoc])
    simp only []
    split
    · rename_i hbig
      have hs : spaceOf i = payloadBlocks i + 1 := if_pos hbig
      rw [hs] at hn ⊢
      exact hdata.append (by omega) (by omega)
        (.write (Step.toNat_poolStart_add hg (by omega)) (by rw [List.length_singleton]; omega))
    · rename_i hsmall
      have hs : spaceOf i = payloadBlocks i := if_neg hsmall
      rwa [hs]

/-- The payloads of all inodes fill what is behind the inode map. -/
theorem tiles_payloadsFrom (hg : g.Fits total) {n : Nat} {slots : List Inode}
    (hn : placedEnd n slots ≤ g.blockCount.toNat)
    (hok : ∀ s ∈ payloadsFrom g n slots, s.request?.isSome = true) :
    Step.Tiles (g.poolStart.toNat + n) (g.poolStart.toNat + placedEnd n slots)
      (payloadsFrom g n slots) := by
  induction slots generalizing n with
  | nil => exact .nil _
  | cons i slots ih =>
    have hle := le_placedEnd (n + spaceOf i) slots
    have hend : placedEnd n (i :: slots) = placedEnd (n + spaceOf i) slots := rfl
    rw [payloadsFrom] at hok ⊢
    rw [hend] at hn ⊢
    have hrest := ih hn fun s hs => hok s (List.mem_append_right _ hs)
    refine Step.Tiles.append (Nat.add_le_add_left (Nat.le_add_right ..) _)
      (Nat.add_le_add_left hle _) ?_ hrest
    split
    · rename_i hskip
      have hnone : spaceOf i = 0 := by
        rw [spaceOf, payloadBlocks_eq_zero_iff.mpr hskip]
        rfl
      rw [hnone]
      exact .nil _
    · rename_i huse
      rw [if_neg huse] at hok
      exact tiles_payloadWrites hg (hle.trans hn) fun s hs => hok s (List.mem_append_left _ hs)

/-- The blocks in use are written once, and the others are not. -/
theorem Planned.countP_touches (hg : g.Fits total) {t : Tree} {p : Pass} {mapSectors : List Sector}
    (hp : Planned g t p mapSectors) (hok : ∀ s ∈ schedule g t, s.request?.isSome = true) (b : Nat) :
    (schedule g t).countP (·.Touches (g.poolStart.toNat + b))
      = if (mapOf g t).isAllocated b then 1 else 0 := by
  have hend := hp.end_le
  have hstart := payloadStart_le t
  have hsum : payloadStart t = chunkCount t + partsOf (chunkCount t) chunksPerMapBlock := rfl
  have hmap := hg.toNat_mapSectors
  have hfirst : 0 < g.mapStart.toNat := UInt32.lt_iff_toNat_lt.mp hg.1
  have hwrite : Step.writeMap g (mapOf g t) = .write g.mapStart mapSectors := by
    rw [← hp.map_eq, Step.writeMap, hp.map_sectors]
  have hpayloads : Step.Tiles (g.poolStart.toNat + payloadStart t)
      (g.poolStart.toNat + blocksUsed t) (payloadsFrom g (payloadStart t) t.slots.toList) := by
    rw [payloadsFrom_slotsOf]
    refine tiles_payloadsFrom hg hend fun s hs => hok s (List.mem_append_left _ ?_)
    rwa [payloadsFrom_slotsOf]
  have hchunks : Step.Tiles (g.poolStart.toNat + 0) (g.poolStart.toNat + chunkCount t)
      [.write (g.poolStart + UInt32.ofNat 0) (chunksOf t)] :=
    .write (Step.toNat_poolStart_add hg (Nat.zero_le _)) (by rw [length_chunksOf]; omega)
  have hinodes : Step.Tiles (g.poolStart.toNat + chunkCount t)
      (g.poolStart.toNat + payloadStart t)
      [.write (g.poolStart + UInt32.ofNat (chunkCount t)) (inodeMapOf t)] :=
    .write (Step.toNat_poolStart_add hg (by omega)) (by rw [length_inodeMapOf]; omega)
  have hbits : Step.Tiles g.mapStart.toNat g.poolStart.toNat [Step.writeMap g (mapOf g t)] := by
    rw [hwrite]
    exact .write rfl (by rw [hp.length_mapSectors]; exact hmap)
  have hsuper : Step.Tiles 0 1 [.write 0 [(superblockOf g t).toSector]] := .write rfl rfl
  have hparts : schedule g t = payloadsFrom g (payloadStart t) t.slots.toList
      ++ ([.write (g.poolStart + UInt32.ofNat 0) (chunksOf t)]
        ++ ([.write (g.poolStart + UInt32.ofNat (chunkCount t)) (inodeMapOf t)]
          ++ ([Step.writeMap g (mapOf g t)]
            ++ ([.write 0 [(superblockOf g t).toSector]] ++ [.flush])))) := rfl
  rw [hparts]
  simp only [List.countP_append, hpayloads _, hchunks _, hinodes _, hbits _, hsuper _,
    Step.Tiles.flush 0 _, (firstUsed_mapOf hend).isAllocated_eq, decide_eq_true_eq]
  -- the block map and the superblock lie before the pool, and the runs in it side by side
  split_ifs <;> omega

/-- Once sector `0` is asked for, there is nothing more to write. -/
theorem Planned.flush_of_touches (hg : g.Fits total) {t : Tree} {p : Pass}
    {mapSectors : List Sector} (hp : Planned g t p mapSectors) {first rest : List Step}
    (h : schedule g t = first ++ rest) (hr : ∃ r ∈ first, r.Touches 0) :
    ∀ s ∈ rest, s = .flush := by
  obtain ⟨r, hr, htouch⟩ := hr
  have hdisjoint := hp.disjoint_steps hg
  rw [hp.steps_eq_schedule, h] at hdisjoint
  have hnot : Step.write 0 [(superblockOf g t).toSector] ∉ rest := fun hs =>
    (List.pairwise_append.mp hdisjoint).2.2 r hr _ hs 0 htouch ⟨Nat.le_refl 0, Nat.one_pos⟩
  have hparts : schedule g t = (payloadsFrom g (payloadStart t) t.slots.toList ++ [
      .write (g.poolStart + UInt32.ofNat 0) (chunksOf t),
      .write (g.poolStart + UInt32.ofNat (chunkCount t)) (inodeMapOf t),
      Step.writeMap g (mapOf g t)]) ++ [.write 0 [(superblockOf g t).toSector], .flush] := by
    rw [schedule, List.append_assoc]
    rfl
  rcases List.append_eq_append_iff.mp (h.symm.trans hparts) with ⟨mid, -, hrest⟩ | ⟨mid, -, hlast⟩
  · rw [hrest] at hnot
    exact absurd (List.mem_append_right _ List.mem_cons_self) hnot
  · cases mid with
    | nil =>
      rw [← show _ = rest from hlast] at hnot
      exact absurd List.mem_cons_self hnot
    | cons a mid =>
      injection hlast with _ hlast
      intro s hs
      have hmem : s ∈ [Step.flush] := by
        rw [hlast]
        exact List.mem_append_right _ hs
      exact List.mem_singleton.mp hmem

end Pass

namespace Volume

/-- What a pass asks of a device, granted or not.  If the tree has no room on the disk, that is
nothing; else it takes the steps of its schedule up to the first that fails.  These write sectors
of the disk and none of them twice, and sector `0` after all others.  A pass that succeeds takes
all of them, and so writes the blocks that its block map has in use, each of them once. -/
theorem writes_of_sync {D : Type} [SectorDevice D] {v : Volume} {d : D}
    (hg : v.geometry.Fits (SectorDevice.totalSectors d)) :
    (∃ f, Pass.plan v.geometry v.poolMap v.tree = .error f ∧ v.sync d = .error f d
        ∧ v.sync (Recorder.new d) = .error f (Recorder.new d))
      ∨ (Pass.schedule v.geometry v.tree).Pairwise Step.Disjoint
        ∧ (∀ s ∈ Pass.schedule v.geometry v.tree,
          s.Within 0 (SectorDevice.totalSectors d).toNat)
        ∧ ((∃ w e, v.sync d = .ok w e
              ∧ v.sync (Recorder.new d) = .ok w ⟨e, Step.taken (Pass.schedule v.geometry v.tree)⟩
              ∧ (∀ s ∈ Pass.schedule v.geometry v.tree, s.request?.isSome = true)
              ∧ ∀ b, (Pass.schedule v.geometry v.tree).countP
                  (·.Touches (v.geometry.poolStart.toNat + b))
                = if w.map.isAllocated b then 1 else 0)
          ∨ ∃ done s rest e, Pass.schedule v.geometry v.tree = done ++ s :: rest
              ∧ (∀ r ∈ done, r.request?.isSome = true)
              ∧ v.sync d = .error s.failure e
              ∧ v.sync (Recorder.new d) = .error s.failure ⟨e, Step.taken done ++ s.refused⟩
              ∧ ((∃ r ∈ done ++ [s], r.Touches 0) → ∀ r ∈ rest, r = .flush)) := by
  obtain ⟨r, hplan⟩ : ∃ r, Pass.plan v.geometry v.poolMap v.tree = r := ⟨_, rfl⟩
  cases r with
  | error f =>
    have hsync : ∀ {C : Type} [SectorDevice C], (v.sync : Attempt C Volume) = throw f :=
      commit_of_plan_error hplan
    rw [hsync, hsync]
    exact .inl ⟨f, hplan, rfl, rfl⟩
  | ok p =>
    obtain ⟨mapSectors, hp⟩ := Pass.plan_ok hg hplan
    have hsteps := hp.steps_eq_schedule
    have hrun : ∀ {C : Type} [SectorDevice C] (c : C), v.sync c
        = ((Pass.schedule v.geometry v.tree).forM Step.run >>= fun _ =>
            pure ⟨v.geometry, p.map, p.superblock, v.tree.settle, Pass.blocks_of_plan hplan⟩ :
            Attempt C Volume) c := by
      intro C _ c
      rw [← hsteps]
      exact congrFun (commit_of_plan hplan) c
    refine .inr ⟨hsteps ▸ hp.disjoint_steps hg, hsteps ▸ hp.within_steps hg, ?_⟩
    rw [hrun, hrun, bind_apply, bind_apply]
    rcases Step.run_steps_recorded (Pass.schedule v.geometry v.tree) (Recorder.new d) with
      ⟨e, hdevice, hrecord, hall⟩ | ⟨done, s, rest, e, heq, hall, hdevice, hrecord⟩
    · rw [show (Recorder.new d).device = d from rfl] at hdevice
      rw [hdevice, hrecord]
      refine .inl ⟨_, e, rfl, rfl, hall, fun b => ?_⟩
      rw [hp.countP_touches hg hall b, ← hp.map_eq]
    · rw [show (Recorder.new d).device = d from rfl] at hdevice
      rw [hdevice, hrecord]
      refine .inr ⟨done, s, rest, e, heq, hall, rfl, rfl, hp.flush_of_touches hg ?_⟩
      rw [heq, List.append_assoc]
      rfl

def newFile : Volume := unsaved [.create "/a"]

/-- A disk that refuses all writes but the first two. -/
def twoWrites : FaultyDisk := ⟨.blank 8, { Faults.none with writesLeft := some 2 }, #[]⟩

/-- An empty disk of eight sectors takes the whole schedule of the new file, and one that
refuses its third write the two before. -/
theorem writes_of_sync_file :
    newFile.geometry.Fits (MemoryDisk.blank 8).totalSectors
      ∧ (∃ w e, newFile.sync (Recorder.new (MemoryDisk.blank 8))
          = .ok w ⟨e, Step.taken (Pass.schedule newFile.geometry newFile.tree)⟩)
      ∧ newFile.geometry.Fits (SectorDevice.totalSectors twoWrites)
      ∧ ∃ done s rest e, Pass.schedule newFile.geometry newFile.tree = done ++ s :: rest
          ∧ newFile.sync (Recorder.new twoWrites)
            = .error .ioError ⟨e, Step.taken done ++ s.refused⟩
          ∧ (Step.taken done ++ s.refused).map Prod.snd = [true, true, false] := by
  have hfits : newFile.geometry.Fits (MemoryDisk.blank 8).totalSectors := by decide
  have hfits' : newFile.geometry.Fits (SectorDevice.totalSectors twoWrites) := by decide
  have hok : newFile.sync.succeeds (MemoryDisk.blank 8) (fun _ _ => true) = true := by
    decide +kernel
  have hcut : newFile.sync.fails (Recorder.new twoWrites) (fun f c =>
      decide (f = .ioError ∧ c.log.map Prod.snd = [true, true, false])) = true := by
    decide +kernel
  obtain ⟨w, e, hsync, -⟩ := succeeds_iff.mp hok
  obtain ⟨f, c, herr, hcut⟩ := fails_iff.mp hcut
  obtain ⟨rfl, hlog⟩ := of_decide_eq_true hcut
  refine ⟨hfits, ?_, hfits', ?_⟩
  · rcases writes_of_sync (d := MemoryDisk.blank 8) hfits with
      ⟨f, -, hbad, -⟩ | ⟨-, -, ⟨w, e, -, hrecord, -⟩ | ⟨done, s, rest, e, -, -, hbad, -⟩⟩
    · rw [hsync] at hbad
      cases hbad
    · exact ⟨w, e, hrecord⟩
    · rw [hsync] at hbad
      cases hbad
  · rcases writes_of_sync (d := twoWrites) hfits' with
      ⟨f, -, -, hbad⟩ | ⟨-, -, ⟨w, e, -, hbad, -⟩ | ⟨done, s, rest, e, hparts, -, -, hrecord, -⟩⟩
    · rw [herr] at hbad
      injection hbad with _ hc
      rw [hc] at hlog
      cases hlog
    · rw [herr] at hbad
      cases hbad
    · rw [herr] at hrecord
      injection hrecord with hf hc
      rw [hc] at hlog
      exact ⟨done, s, rest, e, hparts, by rw [herr, hc], hlog⟩

end Volume

end SectorFs

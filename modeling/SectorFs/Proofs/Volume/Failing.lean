import SectorFs.Proofs.Volume.RoundTrip

/-!
# Passes that fail

A disk in order takes every write of a pass, so a pass fails there only before its first
step or at an entry that has no place on a disk, and then the payloads before that one are
written (`sync_error`).  A disk that refuses a write has taken the writes before it, and
what was on it before is still found just when the records it leads to are
(`load_of_refused`).
-/

namespace SectorFs

open Attempt

/-! ### Writes -/

namespace Step

/-- A step that writes. -/
def IsWrite : Step → Prop
  | write _ _ => True
  | _ => False

instance (s : Step) : Decidable s.IsWrite :=
  match s with
  | write _ _ => .isTrue trivial
  | flush => .isFalse id
  | stop _ => .isFalse id

theorem isWrite_iff {s : Step} : s.IsWrite ↔ ∃ lba sectors, s = write lba sectors := by
  cases s with
  | write lba sectors => exact ⟨fun _ => ⟨lba, sectors, rfl⟩, fun _ => trivial⟩
  | flush => exact ⟨False.elim, fun ⟨_, _, h⟩ => nomatch h⟩
  | stop f => exact ⟨False.elim, fun ⟨_, _, h⟩ => nomatch h⟩

theorem Within.fits {a b : Nat} {s : Step} {total : UInt32} (h : s.Within a b) (hw : s.IsWrite)
    (hb : b ≤ total.toNat) : s.Fits total := by
  obtain ⟨lba, sectors, rfl⟩ := isWrite_iff.mp hw
  exact Nat.le_trans h.2 hb

theorem flushes_applyAll {steps : List Step} (h : ∀ s ∈ steps, s.IsWrite) (d : MemoryDisk) :
    (applyAll steps d).flushes = d.flushes := by
  induction steps generalizing d with
  | nil => rfl
  | cons s steps ih =>
    obtain ⟨lba, sectors, rfl⟩ := isWrite_iff.mp (h s List.mem_cons_self)
    exact ih (fun r hr => h r (List.mem_cons_of_mem _ hr)) _

theorem applyAll_append (a b : List Step) (d : MemoryDisk) :
    applyAll (a ++ b) d = applyAll b (applyAll a d) :=
  List.foldl_append

/-- Disjoint writes change nothing just when all they write is there already. -/
theorem applyAll_eq_self_iff {steps : List Step} (hd : steps.Pairwise Disjoint) {d : MemoryDisk}
    (h : ∀ s ∈ steps, s.IsWrite ∧ s.Fits d.totalSectors) :
    applyAll steps d = d ↔ ∀ lba sectors, write lba sectors ∈ steps → d.Holds lba.toNat sectors := by
  constructor
  · intro he lba sectors hs
    have := holds_applyAll hd hs (h _ hs).2
    rwa [he] at this
  · intro hheld
    clear hd
    induction steps with
    | nil => rfl
    | cons s steps ih =>
      obtain ⟨lba, sectors, rfl⟩ := isWrite_iff.mp (h s List.mem_cons_self).1
      have hput : (write lba sectors).apply d = d :=
        MemoryDisk.put_of_holds (hheld lba sectors List.mem_cons_self)
      rw [applyAll, List.foldl_cons, hput]
      exact ih (fun r hr => h r (List.mem_cons_of_mem _ hr))
        fun lba sectors hs => hheld lba sectors (List.mem_cons_of_mem _ hs)

/-! ### A disk in order -/

theorem run_write {lba : UInt32} {sectors : List Sector} {d : MemoryDisk}
    (h : (write lba sectors).Fits d.totalSectors) :
    (write lba sectors).run d = .ok () ((write lba sectors).apply d) := by
  have hw : SectorDevice.write lba (UInt32.ofNat sectors.length) (Sector.join sectors) d
      = .ok () (d.put lba.toNat sectors) := MemoryDisk.write_join_ok_iff.mpr ⟨h, rfl⟩
  unfold run Device.writeSectors Device.attempt
  simp only [hw]
  rfl

/-- Writes that a disk in order has room for are made, and the next steps follow. -/
theorem run_writes_append {a b : List Step} {d : MemoryDisk}
    (h : ∀ s ∈ a, s.IsWrite ∧ s.Fits d.totalSectors) :
    (a ++ b).forM run d = b.forM run (applyAll a d) := by
  induction a generalizing d with
  | nil => rfl
  | cons s a ih =>
    obtain ⟨hw, hfit⟩ := h s List.mem_cons_self
    obtain ⟨lba, sectors, rfl⟩ := isWrite_iff.mp hw
    have hc : (write lba sectors :: (a ++ b)).forM run d
        = ((write lba sectors).run >>= fun _ => (a ++ b).forM run : Attempt MemoryDisk PUnit) d :=
      rfl
    rw [List.cons_append, hc, bind_apply, run_write hfit]
    refine ih fun r hr => ?_
    rw [totalSectors_apply]
    exact h r (List.mem_cons_of_mem _ hr)

/-! ### A disk that refuses a write -/

theorem run_write_left {lba : UInt32} {sectors : List Sector} {d : FaultyDisk} {n : Nat}
    (hf : d.faults = { Faults.none with writesLeft := some (n + 1) })
    (h : (write lba sectors).Fits d.disk.totalSectors) :
    ∃ e, (write lba sectors).run d = .ok () e ∧ e.disk = (write lba sectors).apply d.disk
      ∧ e.faults = { Faults.none with writesLeft := some n } := by
  have hw : MemoryDisk.write lba (UInt32.ofNat sectors.length) (Sector.join sectors) d.disk
      = .ok () (d.disk.put lba.toNat sectors) := MemoryDisk.write_join_ok_iff.mpr ⟨h, rfl⟩
  have hgo : ¬(d.faults.writesLeft == some 0
      || d.faults.touchesBad lba (UInt32.ofNat sectors.length)) = true := by
    rw [hf]
    simp [Faults.touchesBad, Faults.none]
  have hfw : SectorDevice.write lba (UInt32.ofNat sectors.length) (Sector.join sectors) d
      = .ok () ⟨d.disk.put lba.toNat sectors, d.faults.afterWrite,
        d.log.push (lba, UInt32.ofNat sectors.length)⟩ := by
    show FaultyDisk.write _ _ _ d = _
    rw [FaultyDisk.write, if_neg hgo, FaultyDisk.forward]
    simp only [hw]
  refine ⟨⟨d.disk.put lba.toNat sectors, d.faults.afterWrite,
    d.log.push (lba, UInt32.ofNat sectors.length)⟩, ?_, rfl, ?_⟩
  · unfold run Device.writeSectors Device.attempt
    simp only [hfw]
  · rw [hf]
    rfl

theorem run_write_refused {lba : UInt32} {sectors : List Sector} {d : FaultyDisk}
    (hf : d.faults.writesLeft = some 0) : (write lba sectors).run d = .error .ioError d := by
  have hfw : SectorDevice.write lba (UInt32.ofNat sectors.length) (Sector.join sectors) d
      = .error (.transfer lba) d := by
    show FaultyDisk.write _ _ _ d = _
    rw [FaultyDisk.write, if_pos (by rw [hf]; rfl)]
  unfold run Device.writeSectors Device.attempt
  simp only [hfw]

/-- A disk that refuses a write has taken the ones before it. -/
theorem run_steps_refused {done : List Step} (lba : UInt32) (sectors : List Sector)
    (rest : List Step) {d : FaultyDisk}
    (hf : d.faults = { Faults.none with writesLeft := some done.length })
    (h : ∀ s ∈ done, s.IsWrite ∧ s.Fits d.disk.totalSectors) :
    ∃ e, (done ++ write lba sectors :: rest).forM run d = .error .ioError e
      ∧ e.disk = applyAll done d.disk := by
  have hc : ∀ (s : Step) (steps : List Step), (s :: steps).forM run d
      = (s.run >>= fun _ => steps.forM run : Attempt FaultyDisk PUnit) d := fun _ _ => rfl
  induction done generalizing d with
  | nil =>
    refine ⟨d, ?_, rfl⟩
    rw [List.nil_append, hc, bind_apply, run_write_refused (by rw [hf]; rfl)]
  | cons s done ih =>
    obtain ⟨hw, hfit⟩ := h s List.mem_cons_self
    obtain ⟨lba, sectors, rfl⟩ := isWrite_iff.mp hw
    obtain ⟨m, hm, hdisk, hfm⟩ := run_write_left hf hfit
    obtain ⟨e, he, hed⟩ := ih hfm (fun r hr => by
      rw [hdisk, totalSectors_apply]
      exact h r (List.mem_cons_of_mem _ hr)) fun _ _ => rfl
    refine ⟨e, ?_, ?_⟩
    · rw [List.cons_append, hc, bind_apply, hm]
      exact he
    · rw [hed, hdisk]
      rfl

end Step

/-! ### Passes on a disk in order -/

namespace Pass

variable {g : Geometry} {total : UInt32} {t : Tree}

theorem isWrite_payloadSteps {n : Nat} {i : Inode} (hn : n + spaceOf i ≤ g.blockCount.toNat)
    {bytes : List UInt8} (hp : i.payload = .ok bytes) :
    ∀ s ∈ payloadSteps g (i, placementAt n i), s.IsWrite := by
  intro s hs
  rw [payloadSteps_eq hn, hp] at hs
  split at hs
  · cases hs
  · rcases List.mem_cons.mp hs with rfl | hs
    · trivial
    · split at hs
      · rw [List.mem_singleton.mp hs]
        trivial
      · cases hs

theorem writes_placedFrom (hg : g.Fits total) {n : Nat} {slots : List Inode}
    (hn : placedEnd n slots ≤ g.blockCount.toNat)
    (h : ∀ i ∈ slots, ∃ bytes, i.payload = .ok bytes) :
    ∀ s ∈ (placedFrom n slots).flatMap (payloadSteps g), s.IsWrite ∧ s.Fits total := by
  intro s hs
  obtain ⟨⟨i, p⟩, hi, hs'⟩ := List.mem_flatMap.mp hs
  obtain ⟨k, hk, -, hend⟩ := placementAt_of_mem hi
  obtain rfl : p = placementAt k i := hk
  have hmem : i ∈ slots := by
    have := List.mem_map_of_mem (f := Prod.fst) hi
    rwa [map_fst_placedFrom] at this
  obtain ⟨bytes, hb⟩ := h i hmem
  have hw := isWrite_payloadSteps (Nat.le_trans hend hn) hb s hs'
  exact ⟨hw, ((within_placedFrom hg hn).2 s hs).fits hw
    (Nat.le_trans (Nat.add_le_add_left hn _) hg.2.2.2)⟩

/-- Nothing behind the payloads fails on a disk in order. -/
theorem Planned.closing_ok {p : Pass} {mapSectors : List Sector} {d : MemoryDisk}
    (hg : g.Fits d.totalSectors) (hp : Planned g t p mapSectors) :
    ∃ e, (closingSteps g t mapSectors).forM Step.run d = .ok () e := by
  have hend := hp.end_le
  have hstart := payloadStart_le t
  have htotal := hg.2.2.2
  have hsplit : closingSteps g t mapSectors = [.write (g.poolStart + UInt32.ofNat 0) (chunksOf t),
      .write (g.poolStart + UInt32.ofNat (chunkCount t)) (inodeMapOf t),
      .write g.mapStart mapSectors, .write 0 [(superblockOf g t).toSector]] ++ [.flush] := rfl
  have hwithin := hp.within_closing hg
  rw [hsplit] at hwithin ⊢
  rw [Step.run_writes_append fun s hs => ?_]
  · exact ⟨_, rfl⟩
  · have hw : s.IsWrite := by
      simp only [List.mem_cons, List.not_mem_nil, or_false] at hs
      rcases hs with rfl | rfl | rfl | rfl <;> trivial
    exact ⟨hw, (hwithin s (List.mem_append_left _ hs)).fits hw (by omega)⟩

theorem placedEnd_append (n : Nat) (a b : List Inode) :
    placedEnd n (a ++ b) = placedEnd (placedEnd n a) b := by
  induction a generalizing n with
  | nil => rfl
  | cons i a ih => exact ih _

/-- Payloads fail at the first that has no place on a disk. -/
theorem payloads_error {n : Nat} {slots : List Inode} {rest : List Step} {d e : MemoryDisk}
    {f : Failure} (hg : g.Fits d.totalSectors) (hn : placedEnd n slots ≤ g.blockCount.toNat)
    (hrest : ∀ m : MemoryDisk, m.totalSectors = d.totalSectors → rest.forM Step.run m ≠ .error f e)
    (h : ((placedFrom n slots).flatMap (payloadSteps g) ++ rest).forM Step.run d = .error f e) :
    ∃ before i after, slots = before ++ i :: after ∧ i.payload = .error f
      ∧ (∀ j ∈ before, ∃ bytes, j.payload = .ok bytes)
      ∧ e = Step.applyAll ((placedFrom n before).flatMap (payloadSteps g)) d := by
  induction slots generalizing n d with
  | nil => exact absurd h (hrest d rfl)
  | cons i slots ih =>
    have hle := le_placedEnd (n + spaceOf i) slots
    have hn' : placedEnd (n + spaceOf i) slots ≤ g.blockCount.toNat := hn
    have hi : n + spaceOf i ≤ g.blockCount.toNat := Nat.le_trans hle hn'
    rw [placedFrom, List.flatMap_cons, List.append_assoc] at h
    cases hp : i.payload with
    | error f' =>
      have hz : payloadBlocks i ≠ 0 := fun hz => by
        rw [payload_of_no_blocks hz] at hp
        cases hp
      rw [payloadSteps_eq hi, if_neg hz, hp] at h
      injection h with hf he
      subst hf
      subst he
      exact ⟨[], i, slots, rfl, hp, fun j hj => absurd hj List.not_mem_nil, rfl⟩
    | ok bytes =>
      have hw : ∀ s ∈ payloadSteps g (i, placementAt n i), s.IsWrite ∧ s.Fits d.totalSectors :=
        fun s hs => by
          have hws := isWrite_payloadSteps hi hp s hs
          exact ⟨hws, ((within_payloadSteps hg hi).2 s hs).fits hws
            (Nat.le_trans (Nat.add_le_add_left hi _) hg.2.2.2)⟩
      rw [Step.run_writes_append hw] at h
      obtain ⟨before, j, after, rfl, hj, hbefore, he⟩ := ih (by
        rw [Step.totalSectors_applyAll]
        exact hg) hn' (fun m hm => hrest m (by rw [hm, Step.totalSectors_applyAll])) h
      refine ⟨i :: before, j, after, rfl, hj, fun k hk => ?_, ?_⟩
      · rcases List.mem_cons.mp hk with rfl | hk
        · exact ⟨bytes, hp⟩
        · exact hbefore k hk
      · rw [he, placedFrom, List.flatMap_cons, Step.applyAll_append]

end Pass

namespace Volume

open Pass

/-- The volume with another tree in memory. -/
def withTree (v : Volume) (t : Tree) : Volume := { v with tree := t }

/-- A pass that fails on a disk in order never flushes it, and has written the payloads
before the first that has no place on a disk.  It leaves the disk alone just when these
were there already, and certainly if every entry has a place. -/
theorem sync_error {v : Volume} {d e : MemoryDisk} {f : Failure}
    (hg : Divides v.geometry d.totalSectors) (h : v.sync d = .error f e) :
    e.flushes = d.flushes
      ∧ (Pass.plan v.geometry v.poolMap v.tree = .error f ∧ e = d
        ∨ ∃ before i after, slotsOf v.tree = before ++ i :: after ∧ i.payload = .error f
          ∧ (∀ j ∈ before, ∃ bytes, j.payload = .ok bytes)
          ∧ e = Step.applyAll ((placedFrom (payloadStart v.tree) before).flatMap
            (payloadSteps v.geometry)) d
          ∧ (e = d ↔ ∀ lba sectors, .write lba sectors ∈ (placedFrom (payloadStart v.tree)
            before).flatMap (payloadSteps v.geometry) → d.Holds lba.toNat sectors))
      ∧ ((∀ i ∈ v.tree.slots.toList, ∀ entries, i.content = .directory entries →
          ∀ x ∈ entries.items.toList, x.Writable) → e = d) := by
  have hg := hg.fits
  rcases commit_error h with ⟨hplan, rfl⟩ | ⟨p, hplan, hrun⟩
  · exact ⟨rfl, .inl ⟨hplan, rfl⟩, fun _ => rfl⟩
  · obtain ⟨mapSectors, hp⟩ := plan_ok hg hplan
    rw [hp.steps_eq] at hrun
    obtain ⟨before, i, after, hslots, hi, hbefore, he⟩ := payloads_error hg hp.end_le
      (fun m hm herr => by
        obtain ⟨k, hk⟩ := hp.closing_ok (d := m) (by rw [hm]; exact hg)
        rw [hk] at herr
        cases herr) hrun
    have hend : placedEnd (payloadStart v.tree) before ≤ v.geometry.blockCount.toNat := by
      have hle := hp.end_le
      rw [blocksUsed, hslots, placedEnd_append] at hle
      exact Nat.le_trans (le_placedEnd ..) hle
    have hwrites := writes_placedFrom hg hend hbefore
    refine ⟨?_, .inr ⟨before, i, after, hslots, hi, hbefore, he, ?_⟩, fun hall => ?_⟩
    · rw [he]
      exact Step.flushes_applyAll (fun s hs => (hwrites s hs).1) d
    · rw [he]
      exact Step.applyAll_eq_self_iff (within_placedFrom hg hend).1 hwrites
    · have hmem : i ∈ v.tree.slots.toList := by
        have : i ∈ slotsOf v.tree := by
          rw [hslots]
          exact List.mem_append_right _ List.mem_cons_self
        exact List.mem_of_mem_take this
      obtain ⟨bytes, hb⟩ := Inode.payload_isOk_iff.mpr (hall i hmem)
      rw [hi] at hb
      cases hb

/-- A new directory with an entry whose name fills its field. -/
def longNamed (t : Tree) : Tree :=
  (Tree.addEntry ⟨1⟩ ⟨"abcdefghijklmnopqrstuvwxyz01", .root⟩).after (Tree.run [.mkdir "/a"] t)

theorem sync_longNamed :
    ∃ (v : Volume) (d e : MemoryDisk), format (.blank 8) = .ok v d
      ∧ Geometry.format d.totalSectors = .ok v.geometry
      ∧ (v.withTree (longNamed v.tree)).sync d = .error .nameTooLong e ∧ e ≠ d := by
  have hrun : format.succeeds (MemoryDisk.blank 8) (fun v d =>
      (v.withTree (longNamed v.tree)).sync.fails d fun f e =>
        decide (Geometry.format d.totalSectors = .ok v.geometry ∧ f = .nameTooLong ∧ e ≠ d))
      = true := by
    decide +kernel
  obtain ⟨v, d, hv, hrun⟩ := succeeds_iff.mp hrun
  obtain ⟨f, e, h, hrun⟩ := fails_iff.mp hrun
  obtain ⟨hg, rfl, hne⟩ := of_decide_eq_true hrun
  exact ⟨v, d, e, hv, hg, h, hne⟩

/-- The name is refused without a flush, and the payload of the root is on the disk by then. -/
theorem sync_error_long_name :
    ∃ (v : Volume) (d e : MemoryDisk), format (.blank 8) = .ok v d
      ∧ (v.withTree (longNamed v.tree)).sync d = .error .nameTooLong e
      ∧ e.flushes = d.flushes
      ∧ ∃ before i after, slotsOf (longNamed v.tree) = before ++ i :: after
        ∧ i.payload = .error .nameTooLong ∧ (∀ j ∈ before, ∃ bytes, j.payload = .ok bytes)
        ∧ e = Step.applyAll ((placedFrom (payloadStart (longNamed v.tree)) before).flatMap
          (payloadSteps v.geometry)) d
        ∧ ∃ lba sectors, .write lba sectors ∈ (placedFrom (payloadStart (longNamed v.tree))
          before).flatMap (payloadSteps v.geometry) ∧ ¬d.Holds lba.toNat sectors := by
  obtain ⟨v, d, e, hv, hg, h, hne⟩ := sync_longNamed
  have hdiv : Divides (v.withTree (longNamed v.tree)).geometry d.totalSectors := .inl hg
  obtain ⟨hflushes, hcases, -⟩ := sync_error hdiv h
  refine ⟨v, d, e, hv, h, hflushes, ?_⟩
  rcases hcases with ⟨-, he⟩ | ⟨before, i, after, hslots, hi, hbefore, he, hsame⟩
  · exact absurd he hne
  · refine ⟨before, i, after, hslots, hi, hbefore, he, ?_⟩
    by_contra! hheld
    exact hne (hsame.mpr hheld)

/-- A pass that fails on a disk in order may have changed it. -/
theorem sync_error_changes :
    ¬∀ (v : Volume) (d e : MemoryDisk) (f : Failure), Divides v.geometry d.totalSectors →
      v.sync d = .error f e → e = d := by
  obtain ⟨v, d, e, -, hg, h, hne⟩ := sync_longNamed
  exact fun hall => hne (hall (v.withTree (longNamed v.tree)) d e _ (.inl hg) h)

/-! ### Passes on a disk that refuses a write -/

/-- Whatever is in the sectors of the block map, it is a block map. -/
theorem readMap_isOk {g : Geometry} {d : MemoryDisk} (hg : g.Fits d.totalSectors) :
    ∃ m, Reading.readMap g d = .ok m d := by
  have h1 := hg.toNat_mapSectors
  have h2 := hg.2.2.2
  have h3 : g.blockCount.toNat ≤ g.mapSectors.toNat * 4096 := hg.2.2.1
  have ha : Device.accept d.totalSectors g.mapStart g.mapSectors (sectorSize * g.mapSectors.toNat)
      = .ok () := Device.accept_eq_ok_iff.mpr ⟨rfl, by omega⟩
  have hr : SectorDevice.read g.mapStart g.mapSectors (sectorSize * g.mapSectors.toNat) d
      = .ok (Sector.join (d.run g.mapStart.toNat g.mapSectors.toNat)) d := by
    show MemoryDisk.read _ _ _ d = _
    rw [MemoryDisk.read, ha]
  have hread : Device.readSectors g.mapStart g.mapSectors d
      = .ok (Sector.join (d.run g.mapStart.toNat g.mapSectors.toNat)) d := by
    unfold Device.readSectors Device.attempt
    rw [hr]
  have hlen : ¬(Sector.join (d.run g.mapStart.toNat g.mapSectors.toNat)).length
      < partsOf g.blockCount.toNat 8 := by
    rw [Sector.length_join, MemoryDisk.run, List.length_map, List.length_range, sectorSize, partsOf]
    omega
  have hof : ∃ m, BlockMap.ofBytes (Sector.join (d.run g.mapStart.toNat g.mapSectors.toNat))
      g.blockCount.toNat = .ok m := by
    rw [BlockMap.ofBytes, dif_neg hlen]
    exact ⟨_, rfl⟩
  obtain ⟨m, hm⟩ := hof
  exact ⟨m, Reading.readMap_eq_ok_iff.mpr ⟨_, hread, hm⟩⟩

/-- The steps of a pass before a write leave sector `0` alone. -/
theorem not_touches_zero {g : Geometry} {t : Tree} {p : Pass} {mapSectors : List Sector}
    {total : UInt32} (hg : g.Fits total) (hp : Planned g t p mapSectors) {k : Nat}
    (hk : k < p.steps.length) (hw : p.steps[k].IsWrite) :
    ∀ s ∈ p.steps.take k, ¬s.Touches 0 := by
  have hpos : 0 < g.mapStart.toNat := UInt32.lt_iff_toNat_lt.mp hg.1
  have hlt : g.mapStart.toNat < g.poolStart.toNat := UInt32.lt_iff_toNat_lt.mp hg.2.1
  obtain ⟨hchunks, himap, hbits, -⟩ := hp.places hg
  -- the superblock comes after all other writes
  obtain ⟨body, hbody⟩ : ∃ body, body = (placedOf t).flatMap (payloadSteps g)
    ++ [.write (g.poolStart + UInt32.ofNat 0) (chunksOf t),
      .write (g.poolStart + UInt32.ofNat (chunkCount t)) (inodeMapOf t),
      .write g.mapStart mapSectors] := ⟨_, rfl⟩
  have hsteps : p.steps = body ++ [.write 0 [(superblockOf g t).toSector], .flush] := by
    rw [hp.steps_eq, hbody, List.append_assoc]
    rfl
  have hle : k ≤ body.length := by
    by_contra hlast
    have hkl : k = body.length + 1 := by
      rw [hsteps, List.length_append] at hk
      simp only [List.length_cons, List.length_nil] at hk
      omega
    have hflush : p.steps[k] = .flush := by
      simp only [hsteps, hkl]
      rw [List.getElem_append_right (by omega)]
      simp
    rw [hflush] at hw
    exact hw
  intro s hs ht
  rw [hsteps, List.take_append_of_le_length hle] at hs
  have hs := List.mem_of_mem_take hs
  rw [hbody] at hs
  rcases List.mem_append.mp hs with hs | hs
  · have := ((within_placedFrom hg hp.end_le).2 s hs).touches ht
    omega
  · simp only [List.mem_cons, List.not_mem_nil, or_false] at hs
    rcases hs with rfl | rfl | rfl
    · have := hchunks.touches ht
      omega
    · have := himap.touches ht
      omega
    · have := hbits.touches ht
      omega

/-- A pass on a disk that refuses a write fails, and leaves the writes before it on the disk.
The tree that was there before is found just when the records that its superblock leads to
bring it back, and certainly if these writes change no block of its image. -/
theorem load_of_refused {v₀ v : Volume} {d₀ d : FaultyDisk}
    (hg : Divides v₀.geometry (SectorDevice.totalSectors d₀))
    (hroot : (v₀.tree.view .root).kind = .directory) (h : v₀.sync d₀ = .ok v d) {t : Tree}
    {p : Pass} (hplan : Pass.plan v.geometry v.poolMap t = .ok p) {k : Nat}
    (hk : k < p.steps.length)
    (hwrites : ∀ s ∈ p.steps.take (k + 1), s.IsWrite) :
    ∃ e : FaultyDisk, (v.withTree t).sync
        { d with faults := { Faults.none with writesLeft := some k } } = .error .ioError e
      ∧ e.disk = Step.applyAll (p.steps.take k) d.disk
      ∧ ((∃ w, load e.disk = .ok w e.disk ∧ w.tree.Restores v₀.tree)
        ↔ Recovers v.geometry v₀.tree e.disk)
      ∧ ((∀ i, v.geometry.poolStart.toNat ≤ i →
          i < v.geometry.poolStart.toNat + blocksUsed v₀.tree →
            e.disk.sector? i = d.disk.sector? i) →
        ∃ w, load e.disk = .ok w e.disk ∧ w.tree.Restores v₀.tree) := by
  obtain ⟨hdisk, hgeometry, -⟩ := onDisk_of_commit hg.fits h
  rw [← hgeometry] at hdisk
  have hfits : v.geometry.Fits d.disk.totalSectors := hdisk.geometry_fits
  obtain ⟨mapSectors, hp⟩ := plan_ok hfits hplan
  have hlast : p.steps[k].IsWrite := hwrites _ (List.mem_take_iff_getElem.mpr ⟨k, by omega, rfl⟩)
  obtain ⟨lba, sectors, hwrite⟩ := Step.isWrite_iff.mp hlast
  have hsplit : p.steps = p.steps.take k ++ .write lba sectors :: p.steps.drop (k + 1) := by
    rw [← hwrite, List.cons_getElem_drop_succ, List.take_append_drop]
  have hdone : ∀ s ∈ p.steps.take k, s.IsWrite ∧ s.Fits d.disk.totalSectors := fun s hs => by
    have hw := hwrites s (List.take_subset_take_left _ (Nat.le_succ k) hs)
    exact ⟨hw, (hp.within_steps hfits s (List.mem_of_mem_take hs)).fits hw (Nat.le_refl _)⟩
  have hlen : (p.steps.take k).length = k := List.length_take_of_le hk.le
  obtain ⟨e, he, hed⟩ := Step.run_steps_refused lba sectors (p.steps.drop (k + 1))
    (d := { d with faults := { Faults.none with writesLeft := some k } }) (by rw [hlen]) hdone
  have hed : e.disk = Step.applyAll (p.steps.take k) d.disk := hed
  have hrun : (v.withTree t).sync
      { d with faults := { Faults.none with writesLeft := some k } } = .error .ioError e := by
    rw [← hsplit] at he
    exact (congrFun (commit_of_plan hplan) _).trans (bind_eq_error_iff.mpr (.inl he))
  have htotal : e.disk.totalSectors = d.disk.totalSectors := by
    rw [hed, Step.totalSectors_applyAll]
  have hfits' : v.geometry.Fits e.disk.totalSectors := by rw [htotal]; exact hfits
  have hsuper : e.disk.Holds 0 [(superblockOf v.geometry v₀.tree).toSector] := by
    refine hdisk.superblock_held.of_agree fun i _ hi => ?_
    obtain rfl : i = 0 := Nat.lt_one_iff.mp (Nat.zero_add 1 ▸ hi)
    rw [hed]
    exact Step.sector?_applyAll_of_not_touches (not_touches_zero hfits hp hk hlast) _
  obtain ⟨m, hm⟩ := readMap_isOk hfits'
  have hiff := load_iff_recovers hfits' hsuper hm hroot
  exact ⟨e, hrun, hed, hiff, fun hsame =>
    hiff.mpr ((hdisk.toInPool.of_agree htotal hsame).recovers hroot)⟩

/-- A tree with two more files. -/
def twoFiles (t : Tree) : Tree := Tree.run [.create "/a", .create "/b"] t

/-- The tree without the first of them. -/
def oneFile (t : Tree) : Tree := Tree.run [.remove "/a"] t

/-- Two files are brought to a disk, and one of them is removed.  The next pass stops at
its second write, and what is on the disk then cannot be read. -/
theorem sync_oneFile :
    ∃ (v₁ v : Volume) (d₁ d e : FaultyDisk), format (FaultyDisk.ofDisk (.blank 8)) = .ok v₁ d₁
      ∧ Geometry.format (SectorDevice.totalSectors d₁) = .ok v₁.geometry
      ∧ ((twoFiles v₁.tree).view .root).kind = .directory
      ∧ (v₁.withTree (twoFiles v₁.tree)).sync d₁ = .ok v d
      ∧ (∃ p, Pass.plan v.geometry v.poolMap (oneFile v.tree) = .ok p ∧ 1 < p.steps.length
        ∧ ∀ s ∈ p.steps.take 2, s.IsWrite)
      ∧ (v.withTree (oneFile v.tree)).sync
        { d with faults := { Faults.none with writesLeft := some 1 } } = .error .ioError e
      ∧ ∃ c, load e.disk = .error .corrupted c := by
  have hrun : format.succeeds (FaultyDisk.ofDisk (.blank 8)) (fun v₁ d₁ =>
      (v₁.withTree (twoFiles v₁.tree)).sync.succeeds d₁ fun v d =>
        (v.withTree (oneFile v.tree)).sync.fails
          { d with faults := { Faults.none with writesLeft := some 1 } } fun f e =>
            (load.fails e.disk fun f' _ =>
              decide (Geometry.format (SectorDevice.totalSectors d₁) = .ok v₁.geometry
                ∧ ((twoFiles v₁.tree).view .root).kind = .directory ∧ f = .ioError
                ∧ f' = .corrupted))
              && (Pass.plan v.geometry v.poolMap (oneFile v.tree)).toOption.any fun p =>
                decide (1 < p.steps.length ∧ ∀ s ∈ p.steps.take 2, s.IsWrite)) = true := by
    decide +kernel
  obtain ⟨v₁, d₁, hv₁, hrun⟩ := succeeds_iff.mp hrun
  obtain ⟨v, d, hv, hrun⟩ := succeeds_iff.mp hrun
  obtain ⟨f, e, he, hrun⟩ := fails_iff.mp hrun
  obtain ⟨hload, hplan⟩ := Bool.and_eq_true_iff.mp hrun
  obtain ⟨f', c, hc, hload⟩ := fails_iff.mp hload
  obtain ⟨hg, hroot, rfl, rfl⟩ := of_decide_eq_true hload
  cases hp : Pass.plan v.geometry v.poolMap (oneFile v.tree) with
  | error f =>
    rw [hp] at hplan
    cases hplan
  | ok p =>
    rw [hp] at hplan
    exact ⟨v₁, v, d₁, d, e, hv₁, hg, hroot, hv, ⟨p, hp, of_decide_eq_true hplan⟩, he, c, hc⟩

/-- The records that are left then do not bring the two files back. -/
theorem not_recovers_of_refused :
    ∃ (v₁ v : Volume) (d₁ d e : FaultyDisk), format (FaultyDisk.ofDisk (.blank 8)) = .ok v₁ d₁
      ∧ (v₁.withTree (twoFiles v₁.tree)).sync d₁ = .ok v d
      ∧ (v.withTree (oneFile v.tree)).sync
        { d with faults := { Faults.none with writesLeft := some 1 } } = .error .ioError e
      ∧ ¬Recovers v.geometry (twoFiles v₁.tree) e.disk := by
  obtain ⟨v₁, v, d₁, d, e, hv₁, hg, hroot, hv, ⟨p, hp, hlen, hw⟩, he, c, hc⟩ := sync_oneFile
  have hdiv : Divides (v₁.withTree (twoFiles v₁.tree)).geometry (SectorDevice.totalSectors d₁) :=
    .inl hg
  obtain ⟨e', he', -, hiff, -⟩ := load_of_refused hdiv hroot hv hp hlen hw
  have hsame : EStateM.Result.error Failure.ioError e' = .error .ioError e := he'.symm.trans he
  injection hsame with _ hsame
  subst hsame
  refine ⟨v₁, v, d₁, d, e', hv₁, hv, he', fun hr => ?_⟩
  obtain ⟨w, hw, -⟩ := hiff.mpr hr
  rw [hc] at hw
  cases hw

/-- A refused write may lose the tree that was on the disk. -/
theorem refused_loses_tree :
    ¬∀ (b : MemoryDisk) (before after : List Tree.Call) (k : Nat) (v₁ v : Volume)
      (d₁ d e : FaultyDisk), format (FaultyDisk.ofDisk b) = .ok v₁ d₁ →
      (v₁.withTree (Tree.run before v₁.tree)).sync d₁ = .ok v d →
      (v.withTree (Tree.run after v.tree)).sync
        { d with faults := { Faults.none with writesLeft := some k } } = .error .ioError e →
      ∃ w, load e.disk = .ok w e.disk ∧ w.tree.Restores (Tree.run before v₁.tree) := by
  intro hall
  obtain ⟨v₁, v, d₁, d, e, hv₁, -, -, hv, -, he, c, hc⟩ := sync_oneFile
  obtain ⟨w, hw, -⟩ := hall _ _ _ _ v₁ v d₁ d e hv₁ hv he
  rw [hc] at hw
  cases hw

end Volume

end SectorFs

import SectorFs.Proofs.Volume.Failing

/-!
# Damaged superblocks

A sector with the right magic and version may still be the superblock of no filesystem: it
tells of no chunks, its geometry does not fit the disk, or the inode map that it leads to
ends before it has listed all chunks (`Damaged`, with `InodeMap.EndsEarly` for the last).
Just then loading reports a corrupt superblock (`Volume.load_corruptSuperblock_iff`): what
the records of the chunks hold is never blamed on the superblock (`Attempt.Raises`).
-/

namespace SectorFs

open Attempt

/-! ### Ways to fail -/

namespace Attempt

variable {σ α β : Type} {P : σ → Prop} {p : Failure → Prop}

/-- From states of one kind an attempt fails in the given ways only, or else stays among
them. -/
def Raises (P : σ → Prop) (p : Failure → Prop) (x : Attempt σ α) : Prop :=
  ∀ s, P s → (∀ f t, x s = .error f t → p f) ∧ ∀ a t, x s = .ok a t → P t

theorem Raises.pure (a : α) : Raises P p (Pure.pure a) := by
  refine fun s hs => ⟨fun f t h => (nomatch h), fun b t h => ?_⟩
  injection h with _ h
  exact h ▸ hs

theorem Raises.throw {f : Failure} (hf : p f) : Raises P p (MonadExcept.throw f : Attempt σ α) := by
  refine fun s _ => ⟨fun f' t h => ?_, fun a t h => nomatch h⟩
  injection h with h _
  exact h ▸ hf

theorem Raises.lift {x : Except Failure α} (h : ∀ f, x = .error f → p f) :
    Raises P p (liftM x) :=
  match x, h with
  | .ok a, _ => .pure a
  | .error f, h => .throw (h f rfl)

/-- What comes second has to be of the kind only where what came first may lead. -/
theorem Raises.bind_of_ok {x : Attempt σ α} {f : α → Attempt σ β} (hx : x.Raises P p)
    (hf : ∀ a, (∃ s t, x s = .ok a t) → (f a).Raises P p) : (x >>= f).Raises P p := by
  refine fun s hs => ⟨fun e u h => ?_, fun b u h => ?_⟩
  · rcases bind_eq_error_iff.mp h with h | ⟨a, t, ha, h⟩
    · exact (hx s hs).1 e u h
    · exact (hf a ⟨s, t, ha⟩ t ((hx s hs).2 a t ha)).1 e u h
  · obtain ⟨a, t, ha, h⟩ := bind_eq_ok_iff.mp h
    exact (hf a ⟨s, t, ha⟩ t ((hx s hs).2 a t ha)).2 b u h

theorem Raises.bind {x : Attempt σ α} {f : α → Attempt σ β} (hx : x.Raises P p)
    (hf : ∀ a, (f a).Raises P p) : (x >>= f).Raises P p :=
  .bind_of_ok hx fun a _ => hf a

theorem Raises.mapM {f : α → Attempt σ β} (h : ∀ a, (f a).Raises P p) (l : List α) :
    (l.mapM f).Raises P p := by
  induction l with
  | nil => exact .pure _
  | cons a l ih =>
    rw [List.mapM_cons]
    exact .bind (h a) fun _ => .bind ih fun _ => .pure _

/-- A fold is of the kind while what it carries keeps an invariant. -/
theorem Raises.foldlM {I : β → Prop} {f : β → α → Attempt σ β} {l : List α}
    (h : ∀ b, ∀ a ∈ l, I b → (f b a).Raises P p)
    (hinv : ∀ b, ∀ a ∈ l, ∀ s c t, I b → f b a s = .ok c t → I c) {b : β} (hb : I b) :
    (l.foldlM f b).Raises P p := by
  induction l generalizing b with
  | nil => exact .pure b
  | cons a l ih =>
    rw [List.foldlM_cons]
    refine .bind_of_ok (h b a List.mem_cons_self hb) fun c ⟨s, t, hc⟩ => ?_
    exact ih (fun b j hj => h b j (List.mem_cons_of_mem a hj))
      (fun b j hj => hinv b j (List.mem_cons_of_mem a hj)) (hinv b a List.mem_cons_self s c t hb hc)

end Attempt

/-- How reading the records of an image can fail. -/
def Failure.InRecords (f : Failure) : Prop := f = .ioError ∨ f = .corrupted

theorem except_mapM_error {α β : Type} {p : Failure → Prop} {f : α → Except Failure β}
    (h : ∀ a e, f a = .error e → p e) (l : List α) : ∀ e, l.mapM f = .error e → p e := by
  induction l with
  | nil => exact fun e he => nomatch he
  | cons a l ih =>
    intro e he
    rw [List.mapM_cons] at he
    rcases except_bind_eq_error_iff.mp he with ha | ⟨b, -, he⟩
    · exact h a e ha
    · rcases except_bind_eq_error_iff.mp he with hl | ⟨bs, -, he⟩
      · exact ih e hl
      · cases he

theorem except_mapM_mem {α β : Type} {f : α → Except Failure β} {l : List α} {r : List β}
    (h : l.mapM f = .ok r) : ∀ b ∈ r, ∃ a ∈ l, f a = .ok b := by
  induction l generalizing r with
  | nil =>
    obtain rfl := Except.ok.inj h
    exact fun b hb => absurd hb List.not_mem_nil
  | cons a l ih =>
    rw [List.mapM_cons] at h
    obtain ⟨b, hb, h⟩ := except_bind_eq_ok_iff.mp h
    obtain ⟨bs, hbs, h⟩ := except_bind_eq_ok_iff.mp h
    obtain rfl := Except.ok.inj h
    intro c hc
    rcases List.mem_cons.mp hc with rfl | hc
    · exact ⟨a, List.mem_cons_self, hb⟩
    · obtain ⟨a', ha', hc⟩ := ih hbs c hc
      exact ⟨a', List.mem_cons_of_mem _ ha', hc⟩

theorem Buffer.orFail_error {α : Type} {f : Failure} {x : Except Buffer.Error α}
    (hx : ∀ e, x = .error e → e = .limitReached) : ∀ f', orFail f x = .error f' → f' = f := by
  intro f' h
  cases x with
  | ok a => cases h
  | error e =>
    obtain rfl := hx e rfl
    injection h with h
    exact h.symm

theorem Entry.corrupted_of_ofSlot {slot : List UInt8} {f : Failure} (h : ofSlot slot = .error f) :
    f = .corrupted := by
  rcases except_bind_eq_error_iff.mp h with h | ⟨name, -, h⟩
  · unfold slotName at h
    simp only [] at h
    split at h
    · exact (Except.error.inj h).symm
    · split at h
      · cases h
      · exact (Except.error.inj h).symm
  · cases h

namespace Record

theorem corrupted_of_kind? {r : Record} {f : Failure} (h : r.kind? = .error f) :
    f = .corrupted := by
  unfold kind? at h
  split at h
  · cases h
  · exact (Except.error.inj h).symm

theorem corrupted_of_payloadSize {r : Record} {f : Failure} (h : r.payloadSize = .error f) :
    f = .corrupted := by
  rcases except_bind_eq_error_iff.mp h with h | ⟨kind, -, h⟩
  · exact corrupted_of_kind? h
  · have hlimit : ∀ size : Nat, (if maxPayloadBlocks * sectorSize < size then
        Except.error Failure.corrupted else .ok size) = .error f → f = .corrupted := by
      intro size h
      split at h
      · exact (Except.error.inj h).symm
      · cases h
    exact hlimit _ h

variable {σ : Type} {P : σ → Prop} {p : Failure → Prop} {readBlock : UInt32 → Attempt σ Sector}

theorem raises_payloadBlocks (hp : p .corrupted) (h : ∀ b, (readBlock b).Raises P p) (r : Record) :
    (r.payloadBlocks readBlock).Raises P p := by
  unfold payloadBlocks
  refine .bind (.lift fun _ he => corrupted_of_payloadSize he ▸ hp) fun size => ?_
  simp only []
  split
  · exact .bind (h _) fun _ => .pure _
  · exact .pure _

theorem raises_decode (hp : p .corrupted) (h : ∀ b, (readBlock b).Raises P p) (r : Record) :
    (r.decode readBlock).Raises P p := by
  have hbuffer : ∀ {α : Type} {x : Except Buffer.Error α},
      (∀ e, x = .error e → e = .limitReached) →
        Raises P p (liftM (Buffer.orFail .corrupted x)) := fun hx =>
    .lift fun f hf => Buffer.orFail_error hx f hf ▸ hp
  have hpayload : ∀ size blocks, (readPayload readBlock size blocks).Raises P p :=
    fun size blocks => .bind (.mapM h blocks) fun _ => .pure _
  have hentries : ∀ slots : List (List UInt8),
      Raises P p (liftM (slots.mapM Entry.ofSlot : Except Failure _)) := fun slots =>
    .lift (except_mapM_error (fun _ _ he => Entry.corrupted_of_ofSlot he ▸ hp) slots)
  unfold decode
  refine .bind (.lift fun _ he => corrupted_of_payloadSize he ▸ hp) fun size =>
    .bind (raises_payloadBlocks hp h r) fun blocks =>
    .bind (.lift fun _ he => corrupted_of_kind? he ▸ hp) fun kind => ?_
  cases kind with
  | free => exact .pure _
  | file =>
    exact .bind (hbuffer fun _ => Buffer.withCapacity_error filePolicy_width) fun _ =>
      .bind (hpayload _ _) fun _ =>
      .bind (hbuffer fun _ => Buffer.append_error filePolicy_width) fun _ =>
      .bind (hbuffer fun _ => Buffer.resize_error filePolicy_width) fun _ => .pure _
  | directory =>
    exact .bind (hpayload _ _) fun _ =>
      .bind (hbuffer fun _ => Buffer.withCapacity_error directoryPolicy_width) fun _ =>
      .bind (hentries _) fun _ =>
      .bind (hbuffer fun _ => Buffer.append_error directoryPolicy_width) fun _ => .pure _

end Record

namespace Reading

variable {D : Type} [SectorDevice D] {P : D → Prop} {p : Failure → Prop} {g : Geometry}

theorem raises_readBlock (g : Geometry) (b : UInt32) :
    (readBlock g b : Attempt D Sector).Raises (fun _ => True) Failure.InRecords := by
  refine .bind (.lift fun f h => ?_) fun lba =>
    .bind (fun d _ => ⟨fun f e h => ?_, fun _ _ _ => trivial⟩) fun _ => .pure _
  · unfold Geometry.blockSector Geometry.runSector at h
    split at h
    · cases h
    · exact .inr (Except.error.inj h).symm
  · exact .inl (Device.attempt_eq_error_iff.mp h).1

theorem raises_loadRecord (hp : p .corrupted)
    (h : ∀ b, (readBlock g b : Attempt D Sector).Raises P p) {t : Tree} {r : Record × Nat}
    (hslot : r.2 < t.slots.size) : (loadRecord g t r : Attempt D Tree).Raises P p := by
  unfold loadRecord
  split
  · exact .pure _
  · refine .bind (Record.raises_decode hp h _) fun i => .lift fun f hf => ?_
    rw [Tree.install_of_lt hslot] at hf
    cases hf

theorem raises_loadChunk (hp : p .corrupted)
    (h : ∀ b, (readBlock g b : Attempt D Sector).Raises P p) {t : Tree} {chunk : UInt32 × Nat}
    (hslots : recordsPerChunk * (chunk.2 + 1) ≤ t.slots.size) :
    (loadChunk g t chunk : Attempt D Tree).Raises P p := by
  refine .bind (h _) fun sector => .foldlM (I := fun u => u.slots.size = t.slots.size)
    (fun u r hr hu => raises_loadRecord hp h ?_)
    (fun u r _ s v s' hu hv => (size_loadRecord hv).trans hu) rfl
  have hlt := List.snd_lt_add_of_mem_zipIdx hr
  rw [length_ofChunk] at hlt
  rw [Nat.mul_succ] at hslots
  omega

/-- What is wrong with the records of an image is no fault of its superblock. -/
theorem raises_loadTree (hp : p .corrupted)
    (h : ∀ b, (readBlock g b : Attempt D Sector).Raises P p) {t : Tree} {m : InodeMap}
    (hslots : recordsPerChunk * m.chunks.size ≤ t.slots.size) :
    (loadTree g t m : Attempt D Tree).Raises P p := by
  refine .bind (.foldlM (I := fun u => u.slots.size = t.slots.size)
    (fun u chunk hchunk hu => raises_loadChunk hp h ?_)
    (fun u c _ s v s' hu hv => (size_loadChunk hv).trans hu) (Tree.size_restart t)) fun u => ?_
  · have hlt := List.snd_lt_of_mem_zipIdx hchunk
    rw [Array.length_toList] at hlt
    rw [hu]
    exact (Nat.mul_le_mul_left _ hlt).trans hslots
  · split
    · exact .pure _
    · exact .throw hp

end Reading

/-! ### Inode maps that end early -/

/-- The elements before the first that fails a test are all elements, unless one fails it. -/
theorem length_takeWhile_lt_iff {α : Type} {p : α → Bool} {l : List α} :
    (l.takeWhile p).length < l.length ↔ ∃ a ∈ l, p a = false := by
  constructor
  · intro h
    by_contra hall
    have hself : l.takeWhile p = l := List.takeWhile_eq_self_iff.mpr fun a ha => by
      by_contra hp
      exact hall ⟨a, ha, Bool.eq_false_iff.mpr hp⟩
    rw [hself] at h
    exact Nat.lt_irrefl _ h
  · rintro ⟨a, ha, hp⟩
    refine Nat.lt_of_le_of_ne (List.takeWhile_prefix p).length_le fun he => ?_
    have hself := (List.takeWhile_prefix p).eq_of_length he
    have := List.takeWhile_eq_self_iff.mp hself a ha
    rw [hp] at this
    cases this

namespace InodeMap

/-- The inode map that starts at a block ends before it has listed `wanted` chunks; the blocks
that can be read are given, and whether the first of them is the very first of the map. -/
inductive EndsEarly (block : UInt32 → Option Sector) : Bool → Nat → UInt32 → Prop where
  /-- A chunk is missing. -/
  | gap {isFirst : Bool} {wanted k : Nat} {b : UInt32} {s : Sector} (hs : block b = some s)
      (hk : k < min wanted chunksPerMapBlock) (hfirst : isFirst = true → 0 < k)
      (hzero : s.word k = 0) : EndsEarly block isFirst wanted b
  /-- The next block is missing. -/
  | last {isFirst : Bool} {wanted : Nat} {b : UInt32} {s : Sector} (hs : block b = some s)
      (hw : chunksPerMapBlock < wanted) (hzero : s.word chunksPerMapBlock = 0) :
      EndsEarly block isFirst wanted b
  /-- The rest of the map ends early. -/
  | next {isFirst : Bool} {wanted : Nat} {b : UInt32} {s : Sector} (hs : block b = some s)
      (hw : chunksPerMapBlock < wanted) (hnext : s.word chunksPerMapBlock ≠ 0)
      (hrest : EndsEarly block false (wanted - chunksPerMapBlock) (s.word chunksPerMapBlock)) :
      EndsEarly block isFirst wanted b

theorem not_endsEarly_zero {block : UInt32 → Option Sector} {isFirst : Bool} {b : UInt32} :
    ¬EndsEarly block isFirst 0 b := by
  rintro (⟨-, hk, -, -⟩ | ⟨-, hw, -⟩ | ⟨-, hw, -, -⟩)
  · exact absurd hk (by rw [Nat.zero_min]; exact Nat.not_lt_zero _)
  · exact Nat.not_lt_zero _ hw
  · exact Nat.not_lt_zero _ hw

/-- The first chunk of a map is listed whatever it is, and the others up to the first zero. -/
theorem listed_eq (isFirst : Bool) (ws : List UInt32) :
    listed isFirst ws = ws.take isFirst.toNat ++ (ws.drop isFirst.toNat).takeWhile (· != 0) := by
  cases isFirst with
  | false => rfl
  | true => cases ws <;> rfl

theorem getElem_words {s : Sector} {k : Nat} (hk : k < s.words.length) : s.words[k] = s.word k := by
  rw [Sector.word, List.getD_eq_getElem?_getD, List.getElem?_eq_getElem hk, Option.getD_some]

/-- A block lists fewer chunks than it should just when one of them is zero. -/
theorem length_listed_lt_iff {isFirst : Bool} {s : Sector} {n : Nat} (hn : n ≤ chunksPerMapBlock) :
    (listed isFirst (s.words.take n)).length < n
      ↔ ∃ k < n, (isFirst = true → 0 < k) ∧ s.word k = 0 := by
  have hwords : s.words.length = chunksPerMapBlock + 1 := s.length_words
  have hlen : (s.words.take n).length = n := List.length_take_of_le (by omega)
  have hfirst : ∀ k, (isFirst = true → 0 < k) ↔ isFirst.toNat ≤ k := fun k => by
    cases isFirst with
    | false => exact ⟨fun _ => Nat.zero_le k, fun _ h => nomatch h⟩
    | true => exact ⟨fun h => h rfl, fun h _ => h⟩
  have hiff : (listed isFirst (s.words.take n)).length < n
      ↔ ∃ w ∈ (s.words.take n).drop isFirst.toNat, (w != 0) = false := by
    rw [← length_takeWhile_lt_iff, listed_eq, List.length_append, List.length_take,
      List.length_drop, hlen]
    omega
  rw [hiff]
  constructor
  · rintro ⟨w, hw, hz⟩
    obtain ⟨k, hk, rfl⟩ := List.mem_drop_iff_getElem.mp hw
    rw [hlen] at hk
    rw [List.getElem_take, getElem_words] at hz
    exact ⟨isFirst.toNat + k, by omega, (hfirst _).mpr (Nat.le_add_right ..), by simpa using hz⟩
  · rintro ⟨k, hk, hle, hz⟩
    have hle := (hfirst k).mp hle
    refine ⟨s.word k, List.mem_drop_iff_getElem.mpr ⟨k - isFirst.toNat, by omega, ?_⟩, ?_⟩
    · rw [List.getElem_take, getElem_words]
      congr 1
      omega
    · rw [hz]
      rfl

theorem endsEarly_iff {block : UInt32 → Option Sector} {isFirst : Bool} {wanted : Nat}
    {b : UInt32} :
    EndsEarly block isFirst wanted b ↔ ∃ s, block b = some s
      ∧ ((listed isFirst (s.words.take (min wanted chunksPerMapBlock))).length
          < min wanted chunksPerMapBlock
        ∨ chunksPerMapBlock < wanted ∧ (s.word chunksPerMapBlock = 0
          ∨ EndsEarly block false (wanted - chunksPerMapBlock) (s.word chunksPerMapBlock))) := by
  constructor
  · rintro (⟨hs, hk, hfirst, hzero⟩ | ⟨hs, hw, hzero⟩ | ⟨hs, hw, -, hrest⟩)
    · exact ⟨_, hs, .inl ((length_listed_lt_iff (Nat.min_le_right ..)).mpr
        ⟨_, hk, hfirst, hzero⟩)⟩
    · exact ⟨_, hs, .inr ⟨hw, .inl hzero⟩⟩
    · exact ⟨_, hs, .inr ⟨hw, .inr hrest⟩⟩
  · rintro ⟨s, hs, hshort | ⟨hw, hend⟩⟩
    · obtain ⟨k, hk, hfirst, hzero⟩ := (length_listed_lt_iff (Nat.min_le_right ..)).mp hshort
      exact .gap hs hk hfirst hzero
    · by_cases hzero : s.word chunksPerMapBlock = 0
      · exact .last hs hw hzero
      · exact .next hs hw hzero (hend.resolve_left hzero)

section

variable {block : UInt32 → Option Sector} {isFirst : Bool} {wanted : Nat} {b : UInt32} {s : Sector}

/-- A map whose last block is at hand ends early just when that lists too few chunks. -/
theorem endsEarly_last_iff (hs : block b = some s)
    (hend : (listed isFirst (s.words.take (min wanted chunksPerMapBlock))).length
      < min wanted chunksPerMapBlock ∨ s.word chunksPerMapBlock = 0) :
    EndsEarly block isFirst wanted b
      ↔ (listed isFirst (s.words.take (min wanted chunksPerMapBlock))).length < wanted := by
  have hle := length_listed_le isFirst (s.words.take (min wanted chunksPerMapBlock))
  rw [List.length_take] at hle
  rw [endsEarly_iff]
  simp only [hs, Option.some.injEq, exists_eq_left']
  generalize (listed isFirst (s.words.take (min wanted chunksPerMapBlock))).length = n at hend hle ⊢
  constructor
  · rintro (hshort | ⟨hw, -⟩) <;> omega
  · intro hlt
    by_cases hshort : n < min wanted chunksPerMapBlock
    · exact .inl hshort
    · exact .inr ⟨by omega, .inl (hend.resolve_left hshort)⟩

/-- A map whose first block is full ends early just when the rest of it does. -/
theorem endsEarly_next_iff (hs : block b = some s)
    (hfull : ¬(listed isFirst (s.words.take (min wanted chunksPerMapBlock))).length
      < min wanted chunksPerMapBlock) (hnext : s.word chunksPerMapBlock ≠ 0) :
    EndsEarly block isFirst wanted b
      ↔ EndsEarly block false (wanted - min wanted chunksPerMapBlock)
        (s.word chunksPerMapBlock) := by
  rw [endsEarly_iff]
  simp only [hs, Option.some.injEq, exists_eq_left']
  constructor
  · rintro (hshort | ⟨hw, hzero | hrest⟩)
    · exact absurd hshort hfull
    · exact absurd hzero hnext
    · rwa [Nat.min_eq_right hw.le]
  · intro hrest
    by_cases hw : chunksPerMapBlock < wanted
    · rw [Nat.min_eq_right hw.le] at hrest
      exact .inr ⟨hw, .inr hrest⟩
    · rw [Nat.min_eq_left (Nat.le_of_not_lt hw), Nat.sub_self] at hrest
      exact absurd hrest not_endsEarly_zero

end

section

variable {σ : Type} {readBlock : UInt32 → Attempt σ Sector}

theorem raises_follow {P : σ → Prop} {p : Failure → Prop} (h : ∀ b, (readBlock b).Raises P p)
    (count steps : Nat) (b : UInt32) (found : InodeMap) :
    (follow readBlock count steps b found).Raises P p := by
  induction steps generalizing b found with
  | zero => exact .pure _
  | succ steps ih =>
    unfold follow
    split
    · exact .pure _
    · refine .bind (h _) fun sector => ?_
      simp only []
      split
      · exact .pure _
      · exact ih _ _

variable {s : σ} {block : UInt32 → Option Sector} {f : Failure} {count : Nat}

/-- An attempt that finds fewer chunks than were asked for. -/
def FindsFew (count : Nat) (x : Attempt σ InodeMap) (s : σ) : Prop :=
  ∃ m, x s = .ok m s ∧ m.chunks.size < count

theorem findsFew_iff {x : Attempt σ InodeMap} {m : InodeMap} (h : x s = .ok m s) :
    FindsFew count x s ↔ m.chunks.size < count := by
  constructor
  · rintro ⟨n, hn, hlt⟩
    injection h.symm.trans hn with hm _
    rwa [hm]
  · exact fun hlt => ⟨m, h, hlt⟩

theorem findsFew_congr {x y : Attempt σ InodeMap} (h : x s = y s) :
    FindsFew count x s ↔ FindsFew count y s := by
  rw [FindsFew, FindsFew, h]

/-- Following the chain finds too few chunks just when the map ends early. -/
theorem findsFew_follow_iff
    (hread : ∀ b, readBlock b s = match block b with | some x => .ok x s | none => .error f s)
    {steps : Nat} {b : UInt32} {found : InodeMap} (hfound : found.chunks.size ≤ count)
    (hsteps : count - found.chunks.size ≤ chunksPerMapBlock * steps) :
    FindsFew count (follow readBlock count steps b found) s
      ↔ EndsEarly block found.chunks.isEmpty (count - found.chunks.size) b := by
  have hdone : ∀ {x : Attempt σ InodeMap} {b : UInt32} {found : InodeMap}, x s = .ok found s →
      count ≤ found.chunks.size → (FindsFew count x s
        ↔ EndsEarly block found.chunks.isEmpty (count - found.chunks.size) b) := by
    intro x b found hx hle
    rw [findsFew_iff hx, Nat.sub_eq_zero_of_le hle]
    exact ⟨fun hlt => absurd hlt (Nat.not_lt.mpr hle), fun h => absurd h not_endsEarly_zero⟩
  -- one block for each step of the walk, with fewer chunks left to find behind it
  induction steps generalizing b found with
  | zero => exact hdone rfl (by omega)
  | succ steps ih =>
    rcases Nat.lt_or_ge found.chunks.size count with hmore | hle
    · cases hb : block b with
      | none =>
        have hfail : follow readBlock count (steps + 1) b found s = .error f s := by
          rw [follow, if_neg (Nat.not_le.mpr hmore), bind_apply, hread, hb]
        rw [endsEarly_iff, hb]
        constructor
        · rintro ⟨m, hm, -⟩
          rw [hfail] at hm
          cases hm
        · rintro ⟨x, hx, -⟩
          cases hx
      | some sector =>
        have hsector : readBlock b s = .ok sector s := (hread b).trans (by rw [hb])
        obtain ⟨chunks, hchunks⟩ : ∃ l, listed found.chunks.isEmpty
            (sector.words.take (min (count - found.chunks.size) chunksPerMapBlock)) = l := ⟨_, rfl⟩
        have hle := length_listed_le found.chunks.isEmpty
          (sector.words.take (min (count - found.chunks.size) chunksPerMapBlock))
        rw [hchunks, List.length_take] at hle
        have hsize : (found.chunks ++ chunks.toArray).size = found.chunks.size + chunks.length :=
          Array.size_append
        by_cases hend : chunks.length < min (count - found.chunks.size) chunksPerMapBlock
            ∨ sector.word chunksPerMapBlock = 0
        · rw [findsFew_iff ((follow_succ hmore hsector hchunks).trans (if_pos hend)),
            endsEarly_last_iff hb (by rwa [hchunks]), hchunks, hsize]
          omega
        · obtain ⟨hfull, hnext⟩ := not_or.mp hend
          have hpos : 0 < chunksPerMapBlock := by decide
          have hrest : count - (found.chunks ++ chunks.toArray).size
              = count - found.chunks.size - min (count - found.chunks.size) chunksPerMapBlock := by
            rw [hsize]
            omega
          have hempty : (found.chunks ++ chunks.toArray).isEmpty = false := by
            rw [Array.isEmpty, hsize]
            exact decide_eq_false (by omega)
          have hih := @ih (sector.word chunksPerMapBlock)
            ⟨found.chunks ++ chunks.toArray, found.chain.push b⟩ (by dsimp only; omega)
            (by rw [Nat.mul_succ] at hsteps; dsimp only; omega)
          refine (findsFew_congr ((follow_succ hmore hsector hchunks).trans (if_neg hend))).trans
            (hih.trans ?_)
          dsimp only
          rw [hempty, hrest, endsEarly_next_iff hb (by rwa [hchunks]) hnext]
    · exact hdone (by rw [follow, if_pos hle]; rfl) hle

/-- Reading an inode map finds it damaged just when it ends early. -/
theorem read_corruptSuperblock_iff
    (hread : ∀ b, readBlock b s = match block b with | some x => .ok x s | none => .error f s)
    (hraises : ∀ b, (readBlock b).Raises (fun _ => True) Failure.InRecords) (start : UInt32)
    (count : Nat) :
    read readBlock start count s = .error .corruptSuperblock s
      ↔ EndsEarly block true count start := by
  have hsteps : count ≤ chunksPerMapBlock * partsOf count chunksPerMapBlock :=
    le_mul_partsOf count (by decide)
  have hnone : (⟨#[], #[]⟩ : InodeMap).chunks.size ≤ count := Nat.zero_le count
  have hiff := findsFew_follow_iff hread (b := start) hnone hsteps
  have hempty : (#[] : Array UInt32).isEmpty = true := rfl
  have hsize : (#[] : Array UInt32).size = 0 := rfl
  dsimp only at hiff
  rw [hempty, hsize, Nat.sub_zero] at hiff
  rw [← hiff, FindsFew, read, bind_eq_error_iff]
  constructor
  · rintro (h | ⟨m, t, hm, h⟩)
    · rcases (raises_follow hraises _ _ _ _ s trivial).1 _ _ h with h | h <;> cases h
    · simp only [] at h
      split at h
      · rename_i hlt
        injection h with _ ht
        exact ⟨m, ht ▸ hm, hlt⟩
      · cases h
  · rintro ⟨m, hm, hlt⟩
    refine .inr ⟨m, s, hm, ?_⟩
    simp only [if_pos hlt]
    rfl

end

end InodeMap

/-! ### Superblocks of no filesystem -/

/-- The content of a block of the pool. -/
def Geometry.blockAt (g : Geometry) (d : MemoryDisk) (b : UInt32) : Option Sector :=
  if b.toNat < g.blockCount.toNat then d.sector? (g.poolStart.toNat + b.toNat) else none

/-- A superblock that is that of no filesystem on the disk: it tells of no chunks, its parts do
not fit the disk, or its inode map lists too few chunks, although the table has room for what
they should hold. -/
def Damaged (s : Superblock) (d : MemoryDisk) : Prop :=
  s.chunkCount = 0 ∨ ¬s.geometry.Fits d.totalSectors
    ∨ (s.chunkCount.toNat * recordsPerChunk ≤ maxSlots
      ∧ InodeMap.EndsEarly (s.geometry.blockAt d) true s.chunkCount.toNat s.inodeMapStart)

namespace Reading

variable {g : Geometry} {d : MemoryDisk}

theorem readBlock_apply (hg : g.Fits d.totalSectors) (b : UInt32) :
    readBlock g b d = match g.blockAt d b with
      | some x => .ok x d
      | none => .error .corrupted d := by
  have htotal := hg.2.2.2
  have hle := d.toNat_totalSectors_le
  rw [Geometry.blockAt]
  by_cases hb : b.toNat < g.blockCount.toNat
  · have hlt : g.poolStart.toNat + b.toNat < d.sectors.size := by omega
    have hs : d.sector? (g.poolStart.toNat + b.toNat)
        = some d.sectors[g.poolStart.toNat + b.toNat] := Array.getElem?_eq_getElem hlt
    have hread := readBlock_ok hg hb hs
    rw [UInt32.ofNat_toNat] at hread
    rw [if_pos hb, hs, hread]
  · have hout : g.blockSector b = .error .corrupted := if_neg hb
    rw [if_neg hb]
    simp only [readBlock, bind_apply, hout, lift_error_apply]

/-- A sector with the right magic and version tells of chunks, or is no superblock. -/
theorem readSuperblock_apply {sector : Sector} (htotal : 0 < d.totalSectors.toNat)
    (hs : d.sector? 0 = some sector) (hcurrent : (Superblock.read sector).IsCurrent) :
    readSuperblock d = if (Superblock.read sector).chunkCount = 0
      then .error .corruptSuperblock d else .ok (Superblock.read sector) d := by
  have hheld : d.Holds (0 : UInt32).toNat [sector] := fun k hk => by
    obtain rfl : k = 0 := Nat.lt_one_iff.mp hk
    exact hs
  have hread : Device.readSectors 0 1 d = .ok (Sector.join [sector]) d :=
    MemoryDisk.readSectors_of_holds hheld rfl (by
      rw [show (0 : UInt32).toNat + (1 : UInt32).toNat = 1 from rfl]
      exact htotal)
  have hpresent : Device.requirePresent d = .ok () d := rfl
  have hjoin : Sector.ofBytes (Sector.join [sector]) = sector := by
    rw [Sector.join, List.flatMap_cons, List.flatMap_nil, List.append_nil, Sector.ofBytes_bytes]
  have hof : Superblock.ofSector sector = .ok (Superblock.read sector) := if_pos hcurrent
  simp only [readSuperblock, bind_apply, hpresent, hread, hjoin, hof, lift_ok_apply]
  split <;> rfl

end Reading

namespace Volume

variable {d : MemoryDisk} {sector : Sector}

/-- A sector that looks like a superblock is reported as corrupt just when it is that of no
filesystem. -/
theorem load_corruptSuperblock_iff (htotal : 0 < d.totalSectors.toNat)
    (hs : d.sector? 0 = some sector) (hcurrent : (Superblock.read sector).IsCurrent) :
    load d = .error .corruptSuperblock d ↔ Damaged (Superblock.read sector) d := by
  have hsuper := Reading.readSuperblock_apply htotal hs hcurrent
  generalize Superblock.read sector = s at hsuper
  by_cases hzero : s.chunkCount = 0
  · rw [if_pos hzero] at hsuper
    refine ⟨fun _ => .inl hzero, fun _ => ?_⟩
    simp only [load, bind_apply, hsuper]
  · rw [if_neg hzero] at hsuper
    have htotal : Device.totalSectors d = .ok d.totalSectors d := rfl
    by_cases hg : s.geometry.Fits d.totalSectors
    · have hgeometry : s.geometryOn d.totalSectors = .ok s.geometry := if_pos hg
      obtain ⟨m, hm⟩ := readMap_isOk hg
      by_cases hroom : s.chunkCount.toNat * recordsPerChunk ≤ maxSlots
      · obtain ⟨u, hu⟩ := Tree.withRoom_isOk .empty hroom
        have hends := InodeMap.read_corruptSuperblock_iff (Reading.readBlock_apply hg)
          (Reading.raises_readBlock s.geometry) s.inodeMapStart s.chunkCount.toNat
        rw [load_apply hsuper hg hm hu, bind_eq_error_iff]
        constructor
        · rintro (h | ⟨i, d', hi, h⟩)
          · exact .inr (.inr ⟨hroom, hends.mp h⟩)
          · rcases bind_eq_error_iff.mp h with h | ⟨w, d'', -, h⟩
            · have hraises := Reading.raises_loadTree (.inr rfl)
                (Reading.raises_readBlock (D := MemoryDisk) s.geometry)
                (InodeMap.slots_enough hu hi) d' trivial
              rcases hraises.1 _ _ h with h | h <;> cases h
            · cases h
        · rintro (h | h | ⟨-, h⟩)
          · exact absurd h hzero
          · exact absurd hg h
          · exact .inl (hends.mpr h)
      · have hu : Tree.empty.withRoom (s.chunkCount.toNat * recordsPerChunk)
            = .error .outOfInodes := by
          have hle := Tree.empty.size_le_max
          rw [Tree.withRoom, dif_neg (by omega), dif_pos (Nat.lt_of_not_le hroom)]
        have hload : (load : Attempt MemoryDisk Volume) d = .error .outOfInodes d := by
          simp only [load, bind_apply, hsuper, htotal, hgeometry, lift_ok_apply,
            Reading.readPoolMap_of_readMap hm, hu, lift_error_apply]
        rw [hload]
        constructor
        · intro h
          cases h
        · rintro (h | h | ⟨h, -⟩)
          · exact absurd h hzero
          · exact absurd hg h
          · exact absurd h hroom
    · have hgeometry : s.geometryOn d.totalSectors = .error .corruptSuperblock := if_neg hg
      refine ⟨fun _ => .inr (.inl hg), fun _ => ?_⟩
      simp only [load, bind_apply, hsuper, htotal, hgeometry, lift_error_apply]

end Volume

end SectorFs

import SectorFs.Proofs.Tree.Edits

/-!
# Every tree in use is sound

A tree starts empty and is changed by calls, each of which may fail.  The empty tree is
sound (`sound_blank`), and one call keeps a tree sound whether it succeeds or not
(`Sound.call`): those that make, remove or move names by the cases of
`Proofs/Tree/Edits.lean`, and the others because they change no name.  So the names hang
together after any run of calls.
-/

namespace SectorFs

open Attempt

namespace Tree

variable {t u : Tree}

/-! ### Calls -/

/-- A call that may change a tree. -/
inductive Call where
  | create (path : String)
  | mkdir (path : String)
  | remove (path : String)
  | rename (source target : String)
  | copy (source target : String)
  | writeAt (id : InodeId) (start : Nat) (data : Array UInt8)
  | writePath (path : String) (start : Nat) (data : Array UInt8)
  | truncate (id : InodeId) (size : Nat)
  | changeDirectory (path : String)
  | enter (id : InodeId)
  | reserveSlots (n : Nat)
  | reset

/-- The tree after a call, which may have failed. -/
def Call.after (t : Tree) : Call → Tree
  | create path => (Tree.create path).after t
  | mkdir path => (Tree.mkdir path).after t
  | remove path => (Tree.remove path).after t
  | rename source target => (Tree.rename source target).after t
  | copy source target => (Tree.copy source target).after t
  | writeAt id start data => (Tree.writeAt id start data).after t
  | writePath path start data => (Tree.writePath path start data).after t
  | truncate id size => (Tree.truncate id size).after t
  | changeDirectory path => (Tree.changeDirectory path).after t
  | enter id => (Tree.enter id).after t
  | reserveSlots n => (Tree.reserveSlots n).after t
  | reset => Tree.reset.after t

/-- The tree after some calls, one after the other. -/
def run (calls : List Call) (t : Tree) : Tree := calls.foldl Call.after t

/-! ### The empty tree -/

theorem view_blank (n : Nat) (hi : initialSlots ≤ n) (hn : n ≤ maxSlots) :
    (blank n hi hn).view = Function.update (fun _ => .unused) .root
      ⟨2, .directory [⟨".", .root⟩, ⟨"..", .root⟩]⟩ := by
  have hpos : 0 < n := Nat.lt_of_lt_of_le (by decide) hi
  funext id
  rw [view, slot?]
  by_cases hid : id = .root
  · subst hid
    have hs : (blank n hi hn).slots[InodeId.root.index]? = some bareRoot := by
      show ((Array.replicate n Inode.unused).setIfInBounds 0 bareRoot)[0]? = _
      rw [Array.getElem?_setIfInBounds_self_of_lt (by simpa using hpos)]
    rw [hs, Function.update_self]
    rfl
  · have hne : 0 ≠ id.index := fun he => hid (index_inj he.symm)
    have hs : (blank n hi hn).slots[id.index]? = (Array.replicate n Inode.unused)[id.index]? :=
      Array.getElem?_setIfInBounds_ne hne
    rw [hs, Function.update_of_ne hid, Array.getElem?_replicate]
    split <;> rfl

theorem countEntries_blank (n : Nat) (hi : initialSlots ≤ n) (hn : n ≤ maxSlots)
    (q : Entry → Bool) : countEntries (blank n hi hn).view q
      = [(⟨".", .root⟩ : Entry), ⟨"..", .root⟩].countP q := by
  have hzero : countEntries (fun _ => .unused) q = 0 := by
    have := overSlots_le (g := fun _ => (InodeView.unused.entries).countP q) (n := 0)
      fun _ => Nat.le_refl 0
    exact Nat.eq_zero_of_le_zero this
  have hlt : InodeId.root.index < maxSlots := by decide
  have := countEntries_update (fun _ => .unused) hlt
    ⟨2, .directory [⟨".", .root⟩, ⟨"..", .root⟩]⟩ q
  rw [hzero, InodeView.entries_unused, List.countP_nil, ← view_blank n hi hn] at this
  simpa [InodeView.entries, Payload.entries] using this

theorem sound_blank (n : Nat) (hi : initialSlots ≤ n) (hn : n ≤ maxSlots) :
    (blank n hi hn).Sound := by
  have hv := view_blank n hi hn
  have hroot : (blank n hi hn).view .root
      = ⟨2, .directory [⟨".", .root⟩, ⟨"..", .root⟩]⟩ := by
    rw [hv, Function.update_self]
  have hother : ∀ id, id ≠ .root → (blank n hi hn).view id = .unused := fun id hid => by
    rw [hv, Function.update_of_ne hid]
  have hrootOf : ∀ id, ((blank n hi hn).view id).kind ≠ .free → id = .root := fun id hk => by
    by_contra hid
    rw [hother id hid] at hk
    exact hk rfl
  refine Sound.of_lists ?_ ?_ ?_ ?_ ?_ ?_ ?_
  · rw [show (blank n hi hn).cwd = .root from rfl, hroot]
    rfl
  · rw [hroot]
    rfl
  · intro dir hk
    obtain rfl := hrootOf dir (hk.trans_ne (by decide))
    refine ⟨.root, [], ?_, hk, fun _ => rfl, fun hr => absurd rfl hr, List.nodup_nil,
      fun e he => absurd he List.not_mem_nil⟩
    rw [hroot]
    rfl
  · intro dir e he
    obtain rfl := hrootOf dir ((InodeView.kind_of_mem_entries he).trans_ne (by decide))
    rw [hroot] at he
    have hin : e.inode = .root := by
      rcases List.mem_cons.mp he with rfl | he
      · rfl
      · rw [List.mem_singleton.mp he]
    rw [hin, hroot]
    exact Kind.noConfusion
  · intro id
    rw [countEntries_blank]
    by_cases hid : id = .root
    · rw [hid, hroot]
      rfl
    · rw [hother id hid]
      simp [Ne.symm hid, InodeView.unused]
  · intro id
    rw [countEntries_blank]
    by_cases hid : id = .root
    · simp [hid, Entry.IsProper]
    · simp [hother id hid, Entry.IsProper]
  · intro id hk
    rw [hrootOf id hk]

/-! ### Calls that change no name -/

theorem view_setBytes {id : InodeId} {bytes : Buffer filePolicy UInt8} (h : t.bytes id = .ok bytes)
    (new : Buffer filePolicy UInt8) :
    (t.setBytes id new).view
      = Function.update t.view id ⟨(t.view id).links, .file new.items.toList⟩ := by
  obtain ⟨i, -, hi, -⟩ := bytes_of_view (view_of_bytes h)
  have hs := (inode_eq_ok_iff.mp hi).1
  rw [setBytes, view_modifySlot hs, view_of_slot hs]
  rfl

/-- Two trees differ in the bytes of one inode, if at all. -/
structure BytesOnly (id : InodeId) (t u : Tree) : Prop where
  slot_eq : ∀ x, x ≠ id → u.slot? x = t.slot? x
  links_eq : ∀ x, (u.view x).links = (t.view x).links
  kind_eq : ∀ x, (u.view x).kind = (t.view x).kind
  entries_eq : ∀ x, (u.view x).entries = (t.view x).entries
  cwd_eq : u.cwd = t.cwd
  size_eq : u.slots.size = t.slots.size

instance {id : InodeId} : IsPreorder Tree (BytesOnly id) where
  refl _ := ⟨fun _ _ => rfl, fun _ => rfl, fun _ => rfl, fun _ => rfl, rfl, rfl⟩
  trans _ _ _ h k := ⟨fun x hx => (k.slot_eq x hx).trans (h.slot_eq x hx),
    fun x => (k.links_eq x).trans (h.links_eq x), fun x => (k.kind_eq x).trans (h.kind_eq x),
    fun x => (k.entries_eq x).trans (h.entries_eq x), k.cwd_eq.trans h.cwd_eq,
    k.size_eq.trans h.size_eq⟩

theorem bytesOnly_setBytes {id : InodeId} {bytes : Buffer filePolicy UInt8}
    (h : t.bytes id = .ok bytes) (new : Buffer filePolicy UInt8) :
    t.BytesOnly id (t.setBytes id new).touch := by
  have hf := view_of_bytes h
  have hv : (t.setBytes id new).touch.view
      = Function.update t.view id ⟨(t.view id).links, .file new.items.toList⟩ := by
    rw [view_touch, view_setBytes h]
  refine ⟨fun x hx => ?_, fun x => ?_, fun x => ?_, fun x => ?_, rfl, size_modifySlot ..⟩
  · exact Array.getElem?_modify.trans (if_neg fun he => hx (index_inj he.symm))
  all_goals
    rw [hv]
    by_cases hx : x = id
    · subst hx
      simp [InodeView.kind, InodeView.entries, hf, Payload.kind, Payload.entries]
    · rw [Function.update_of_ne hx]

theorem bytesOnly_writeAt (id : InodeId) (start : Nat) (data : Array UInt8) :
    (Tree.writeAt id start data).Moves (BytesOnly id) := by
  refine .atomically fun t n u hw => ?_
  split at hw
  · cases hw
  · obtain ⟨bytes, hb, hw⟩ := except_bind_eq_ok_iff.mp hw
    split at hw
    · cases hw
      exact refl t
    · obtain ⟨new, -, hw⟩ := except_bind_eq_ok_iff.mp hw
      cases hw
      exact bytesOnly_setBytes hb new

theorem bytesOnly_truncate (id : InodeId) (size : Nat) :
    (Tree.truncate id size).Moves (BytesOnly id) := by
  refine .atomically fun t _ u hw => ?_
  split at hw
  · cases hw
  · obtain ⟨bytes, hb, hw⟩ := except_bind_eq_ok_iff.mp hw
    obtain ⟨new, -, hw⟩ := except_bind_eq_ok_iff.mp hw
    cases hw
    exact bytesOnly_setBytes hb new

theorem BytesOnly.view_eq {id : InodeId} (h : t.BytesOnly id u) {x : InodeId} (hx : x ≠ id) :
    u.view x = t.view x := by
  rw [view, view, h.slot_eq x hx]

/-- Other bytes in a file are nothing to the names. -/
theorem Sound.of_bytesOnly (h : t.Sound) {id : InodeId} (hb : t.BytesOnly id u) : u.Sound :=
  h.of_same (by rw [hb.cwd_eq, h.cwd_kind]) hb.links_eq hb.kind_eq hb.entries_eq

theorem Sound.writeAt (h : t.Sound) (id : InodeId) (start : Nat) (data : Array UInt8) :
    ((Tree.writeAt id start data).after t).Sound :=
  h.of_bytesOnly (bytesOnly_writeAt id start data t)

theorem Sound.truncate (h : t.Sound) (id : InodeId) (size : Nat) :
    ((Tree.truncate id size).after t).Sound :=
  h.of_bytesOnly (bytesOnly_truncate id size t)

theorem Sound.enter (h : t.Sound) (id : InodeId) : ((Tree.enter id).after t).Sound := by
  refine after_atomically h fun _ u hw => ?_
  obtain ⟨i, hi, hw⟩ := except_bind_eq_ok_iff.mp hw
  split at hw
  · rename_i hd
    cases hw
    refine h.of_same ?_ (fun _ => rfl) (fun _ => rfl) fun _ => rfl
    rw [(view_of_inode hi).1, Inode.kind_view]
    exact beq_iff_eq.mp hd
  · cases hw

theorem Sound.reserveSlots (h : t.Sound) (n : Nat) : ((Tree.reserveSlots n).after t).Sound := by
  refine after_atomically h fun _ u hw => ?_
  obtain ⟨v, hv, hw⟩ := except_bind_eq_ok_iff.mp hw
  cases hw
  obtain ⟨hview, hc, -⟩ := view_withRoom hv
  exact h.of_view_eq ⟨hview, hc⟩

/-! ### Calls that change names -/

theorem Sound.attempt_attach (h : t.Sound) (path : String) (content : NewContent) :
    ((Tree.attach path content).after t).Sound := by
  rcases attach_cases t path content with ⟨e, u, hu, hs⟩ | ⟨place, id, -, -, u, -, -, -, -, hu, ha⟩
  · rw [after_of_error hu]
    exact h.of_view_eq hs
  · rw [after_of_ok hu]
    exact h.attach ha

theorem Sound.attempt_copy (h : t.Sound) (source target : String) :
    ((Tree.copy source target).after t).Sound := by
  cases hr : t.resolve source with
  | error e =>
    rw [after_of_error (s := t) (t := t) (e := e) (by simp [Tree.copy, bind_apply, hr])]
    exact h
  | ok id =>
    cases hi : t.inode id with
    | error e =>
      rw [after_of_error (s := t) (t := t) (e := e) (by simp [Tree.copy, bind_apply, hr, hi])]
      exact h
    | ok i =>
      cases hb : i.bytes with
      | error e =>
        rw [after_of_error (s := t) (t := t) (e := e)
          (by simp [Tree.copy, bind_apply, hr, hi, hb])]
        exact h
      | ok bytes =>
        have hc : Tree.copy source target t = Tree.attach target (.file bytes.shrink) t := by
          simp [Tree.copy, bind_apply, hr, hi, hb]
        rw [after, hc]
        exact h.attempt_attach target (.file bytes.shrink)

theorem Sound.attempt_remove (h : t.Sound) (path : String) :
    ((Tree.remove path).after t).Sound := by
  rcases remove_cases h path with ⟨e, hu⟩ | ⟨place, id, i, u, -, -, -, hu, ha⟩
  · rw [after_of_error hu]
    exact h
  · rw [after_of_ok hu]
    exact h.detach ha

theorem Sound.attempt_rename (h : t.Sound) (source target : String) :
    ((Tree.rename source target).after t).Sound := by
  rcases rename_cases h source target with
    ⟨e, hu⟩ | ⟨src, dst, id, -, ⟨-, hu⟩ | ⟨-, -, -, v, hv, -, ⟨i, -, hr⟩ | ⟨i, hm⟩⟩⟩
  · rw [after_of_error hu]
    exact h
  · rw [after_of_ok hu]
    exact h
  · rw [after_of_ok hv]
    exact h.relabel hr
  · rw [after_of_ok hv]
    exact h.move hm

/-! ### All calls -/

/-- The calls that go by a path to an inode do what the call on the inode does. -/
theorem Sound.resolve_bind {α : Type} (h : t.Sound) {path : String} {f : InodeId → Attempt Tree α}
    (hf : ∀ id, ((f id).after t).Sound) :
    (((do f (← (← get).resolve path)) : Attempt Tree α).after t).Sound := by
  cases hr : t.resolve path with
  | error e =>
    rw [after_of_error (s := t) (t := t) (e := e) (by simp [bind_apply, hr])]
    exact h
  | ok id =>
    have hc : (do f (← (← get).resolve path) : Attempt Tree α) t = f id t := by
      simp [bind_apply, hr]
    rw [after, hc]
    exact hf id

/-- A call keeps the names of a tree together, whether it fails or not. -/
theorem Sound.call (h : t.Sound) (c : Call) : (c.after t).Sound := by
  cases c with
  | create path => exact h.attempt_attach path _
  | mkdir path => exact h.attempt_attach path _
  | remove path => exact h.attempt_remove path
  | rename source target => exact h.attempt_rename source target
  | copy source target => exact h.attempt_copy source target
  | writeAt id start data => exact h.writeAt id start data
  | writePath path start data => exact h.resolve_bind fun id => h.writeAt id start data
  | truncate id size => exact h.truncate id size
  | changeDirectory path => exact h.resolve_bind fun id => h.enter id
  | enter id => exact h.enter id
  | reserveSlots n => exact h.reserveSlots n
  | reset => exact sound_blank _ t.initial_le_size t.size_le_max

theorem Sound.calls (h : t.Sound) (calls : List Call) : (run calls t).Sound := by
  induction calls generalizing t with
  | nil => exact h
  | cons c calls ih => exact ih (h.call c)

/-- Whatever calls are made on a new tree, its names hang together. -/
theorem sound_of_calls (calls : List Call) : (run calls .empty).Sound :=
  (sound_blank ..).calls calls

end Tree

end SectorFs

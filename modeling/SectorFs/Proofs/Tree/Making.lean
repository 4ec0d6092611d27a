import SectorFs.Proofs.Tree.Namespace

/-!
# Making files and directories

What `create`, `mkdir` and `copy` need, and all that they change (`makes_of_calls`).  A path
admits something new when its directory is there and its last name is not, the name is
valid, the directory has room for one more entry and the table for one more inode
(`Tree.Admits`).  The room is looked for before the slot, and each is there or not whatever
the other is: `reserveEntry_isOk` and `allocate_isOk` give the steps from the numbers alone,
and `inUse_lt_iff` and `reserveEntry_ok` give the numbers back.
-/

namespace SectorFs

open Attempt

namespace Tree

variable {t u : Tree}

/-! ### Slots in use -/

/-- Number of slots that are not free. -/
def inUse (t : Tree) : Nat := t.slots.countP fun i => !i.isFree

theorem inUse_le_capacity (t : Tree) : t.inUse ≤ t.capacity := Array.countP_le_size

theorem inUse_eq_capacity_iff :
    t.inUse = t.capacity ↔ ∀ id : InodeId, id.index < t.capacity → (t.view id).kind ≠ .free := by
  refine Array.countP_eq_size.trans ⟨fun h id hid => ?_, fun h i hi => ?_⟩
  · have hs : t.slot? id = some t.slots[id.index] := Array.getElem?_eq_getElem hid
    rw [view_of_slot hs]
    exact Inode.isFree_eq_false_iff.mp (by simpa using h _ (Array.getElem_mem hid))
  · obtain ⟨j, hj, rfl⟩ := Array.mem_iff_getElem.mp hi
    have hidx : (InodeId.ofIndex j).index = j :=
      InodeId.index_ofIndex (Nat.le_trans hj.le t.size_le_max)
    have hs : t.slot? (.ofIndex j) = some t.slots[j] := by
      rw [slot?, hidx]
      exact Array.getElem?_eq_getElem hj
    have := h (.ofIndex j) (hidx.symm ▸ hj)
    rw [view_of_slot hs, ← Inode.isFree_eq_false_iff] at this
    simp [this]

theorem view_of_capacity_le {id : InodeId} (h : t.capacity ≤ id.index) :
    t.view id = .unused := by
  rw [view, slot?, Array.getElem?_eq_none h]
  rfl

theorem firstFree?_of_withRoom (h : t.withRoom (t.slots.size + 1) = .ok u) :
    ∃ i, u.firstFree? = some i := by
  obtain ⟨hv, -, hsize, -⟩ := view_withRoom h
  cases hf : u.firstFree? with
  | some i => exact ⟨i, rfl⟩
  | none =>
    -- the first slot past the old table is free
    have hidx : (InodeId.ofIndex t.slots.size).index = t.slots.size :=
      InodeId.index_ofIndex t.size_le_max
    have hfree : u.view (.ofIndex t.slots.size) = .unused := by
      rw [hv]
      exact view_of_capacity_le hidx.ge
    have hs : u.slot? (.ofIndex t.slots.size) = some u.slots[t.slots.size] := by
      rw [slot?, hidx]
      exact Array.getElem?_eq_getElem hsize
    have hpos : 0 < t.slots.size := Nat.lt_of_lt_of_le (by decide) t.initial_le_size
    have := Inode.isFree_eq_false_iff.mp (firstFree?_eq_none hf hsize hpos)
    rw [← view_of_slot hs, hfree] at this
    exact absurd rfl this

/-- The table has a free slot or can grow by one. -/
theorem freeSlot_isOk (hroot : (t.view .root).kind ≠ .free) (h : t.inUse < maxSlots) :
    ∃ i u, t.freeSlot = .ok (i, u) := by
  cases hf : t.firstFree? with
  | some i => exact ⟨i, t, by rw [freeSlot, hf]⟩
  | none =>
    have hall : t.inUse = t.capacity := by
      refine inUse_eq_capacity_iff.mpr fun id hid => ?_
      by_cases hr : id = .root
      · rwa [hr]
      · have hs : t.slot? id = some t.slots[id.index] := Array.getElem?_eq_getElem hid
        rw [view_of_slot hs]
        exact Inode.isFree_eq_false_iff.mp
          (firstFree?_eq_none hf hid (Nat.pos_of_ne_zero fun hz => hr (index_inj hz)))
    obtain ⟨w, hw⟩ := t.withRoom_isOk (n := t.slots.size + 1) (by rwa [hall] at h)
    obtain ⟨i, hi⟩ := firstFree?_of_withRoom hw
    refine ⟨i, w, ?_⟩
    simp only [freeSlot, hf, hw, hi, bind, Except.bind]

theorem allocate_isOk {kind : Kind} (hkind : kind ≠ .free) (hroot : (t.view .root).kind ≠ .free)
    (h : t.inUse < maxSlots) : ∃ id u, allocate kind t = .ok id u := by
  obtain ⟨i, w, hw⟩ := freeSlot_isOk hroot h
  refine ⟨.ofIndex i, (w.setSlot i ⟨0, .empty kind⟩).touch, atomically_eq_ok_iff.mpr ?_⟩
  rw [if_neg hkind, hw]
  rfl

/-- Fewer slots are in use than a table can have just when one of those is free. -/
theorem inUse_lt_iff :
    t.inUse < maxSlots ↔ ∃ id : InodeId, id.index < maxSlots ∧ (t.view id).kind = .free := by
  have hle := t.inUse_le_capacity
  have hmax : t.capacity ≤ maxSlots := t.size_le_max
  constructor
  · intro h
    by_cases hfull : t.inUse = t.capacity
    · have hidx : (InodeId.ofIndex t.capacity).index = t.capacity := InodeId.index_ofIndex hmax
      refine ⟨.ofIndex t.capacity, by omega, ?_⟩
      rw [view_of_capacity_le hidx.ge]
      rfl
    · rw [inUse_eq_capacity_iff] at hfull
      simp only [not_forall, not_not] at hfull
      obtain ⟨id, hlt, hfree⟩ := hfull
      exact ⟨id, Nat.lt_of_lt_of_le hlt hmax, hfree⟩
  · rintro ⟨id, hlt, hfree⟩
    by_contra hge
    have hfull : t.inUse = t.capacity := by omega
    exact inUse_eq_capacity_iff.mp hfull id (by omega) hfree

/-! ### New files and directories -/

/-- Something new named `leaf` can be made in `parent`, which is where a path leads. -/
structure Admits (t : Tree) (path : String) (parent : InodeId) (leaf : String) : Prop where
  locate_eq : t.locate path = .ok ⟨parent, leaf, none⟩
  name_valid : validateName leaf = .ok ()
  has_room : (t.view parent).entries.length < maxEntries
  has_slot : t.inUse < maxSlots

/-- `u` is `t` with a new inode in the lowest slot that was free, and the entry that names it
at the end of `parent`. -/
structure Made (t u : Tree) (parent id : InodeId) (leaf : String) (content : NewContent) :
    Prop where
  ne_root : id ≠ .root
  was_free : (t.view id).kind = .free
  lowest : ∀ j, j ≠ .root → j.index < id.index → (t.view j).kind ≠ .free
  of_full : t.inUse = t.capacity → id.index = t.capacity
  view_new : u.view id = content.view id parent
  kind_parent : (u.view parent).kind = .directory
  entries_parent : (u.view parent).entries = (t.view parent).entries ++ [⟨leaf, id⟩]
  links_parent : (u.view parent).links.toNat
    = (t.view parent).links.toNat + if content.kind = .directory then 1 else 0
  view_other : ∀ x, x ≠ id → x ≠ parent → u.view x = t.view x
  cwd_eq : u.cwd = t.cwd

/-- An attempt succeeds just where a path admits something new, and then makes it. -/
def Makes (t : Tree) (path : String) (content : NewContent) (x : Attempt Tree InodeId) : Prop :=
  ((∃ id u, x t = .ok id u) ↔ ∃ parent leaf, t.Admits path parent leaf)
    ∧ ∀ id u, x t = .ok id u → ∃ parent leaf, t.Admits path parent leaf
      ∧ Made t u parent id leaf content

theorem kind_ne_free (content : NewContent) : content.kind ≠ .free := by
  cases content <;> exact Kind.noConfusion

/-- A tree with all slots in use gets its next inode where the table ended. -/
theorem index_of_full {id : InodeId} (hfree : (t.view id).kind = .free)
    (hlowest : ∀ j, j ≠ .root → j.index < id.index → (t.view j).kind ≠ .free)
    (hfull : t.inUse = t.capacity) : id.index = t.capacity := by
  have hge : t.capacity ≤ id.index := by
    by_contra hlt
    exact inUse_eq_capacity_iff.mp hfull id (by omega) hfree
  refine Nat.le_antisymm ?_ hge
  by_contra hlt
  have hidx : (InodeId.ofIndex t.capacity).index = t.capacity :=
    InodeId.index_ofIndex t.size_le_max
  refine hlowest (.ofIndex t.capacity) ?_ (by omega) ?_
  · intro he
    have hz : t.capacity = 0 := hidx.symm.trans (congrArg InodeId.index he)
    have := t.initial_le_size
    exact absurd (Nat.le_trans this hz.le) (by decide)
  · rw [view_of_capacity_le hidx.ge]
    rfl

theorem Attached.made (h : t.Sound) {parent id : InodeId} {leaf : String} {content : NewContent}
    {t₁ t₂ : Tree} (ha : allocate content.kind t₁ = .ok id t₂) (hv : t₁.view = t.view)
    (a : Attached t u parent id leaf content) : Made t u parent id leaf content := by
  obtain ⟨-, hfree, hroot, -, hlowest, -, -⟩ := allocate_ok ha
  rw [hv] at hfree hlowest
  have hlow : ∀ j : InodeId, j ≠ .root → j.index < id.index → (t.view j).kind ≠ .free :=
    fun j hj => hlowest j (Nat.pos_of_ne_zero fun hz => hj (index_inj hz))
  refine ⟨hroot, hfree, hlow, index_of_full hfree hlow, a.view_new, ?_, ?_, ?_,
    fun x hx hp => a.view_other hp hx, a.cwd_eq⟩
  · rw [a.view_parent]
    rfl
  · rw [a.view_parent]
    rfl
  · rw [a.view_parent]
    cases content with
    | file bytes => exact congrArg UInt32.toNat (UInt32.add_zero _)
    | directory => exact InodeView.toNat_link (h.links_lt parent)

theorem Sound.makes (h : t.Sound) (path : String) (content : NewContent) :
    t.Makes path content (Tree.attach path content) := by
  have hok : ∀ id u, Tree.attach path content t = .ok id u → ∃ parent leaf, t.Admits path parent leaf
      ∧ Made t u parent id leaf content := by
    intro id u hu
    rcases attach_cases t path content with
      ⟨e, v, hv, -⟩ | ⟨⟨parent, leaf, existing⟩, id', t₁, t₂, v, hl, hx, hr, ha, hv, hatt⟩
    · rw [hu] at hv
      cases hv
    · rw [hu] at hv
      cases hv
      cases hx
      obtain ⟨hv₁, -, -, -, -, hroom⟩ := reserveEntry_ok hr
      exact ⟨parent, leaf, ⟨hl, hatt.name_valid, hroom,
        inUse_lt_iff.mpr ⟨id, hatt.index_lt, hatt.was_free⟩⟩, hatt.made h ha hv₁⟩
  refine ⟨⟨fun ⟨id, u, hu⟩ => ?_, fun ⟨parent, leaf, hl, hname, hroom, hslot⟩ => ?_⟩, hok⟩
  · obtain ⟨parent, leaf, hadmits, -⟩ := hok id u hu
    exact ⟨parent, leaf, hadmits⟩
  · obtain ⟨t₁, hr⟩ := reserveEntry_isOk (h.parent_kind_of_locate hl rfl) hroom
    obtain ⟨hv₁, -⟩ := reserveEntry_ok hr
    have hslot₁ : t₁.inUse < maxSlots := by
      rw [inUse_lt_iff, hv₁]
      exact inUse_lt_iff.mp hslot
    obtain ⟨id, t₂, ha⟩ := allocate_isOk (kind_ne_free content)
      (by rw [hv₁, h.root_kind]; decide) hslot₁
    obtain ⟨u, hu, -⟩ := attach_found hl rfl hname hr ha
    exact ⟨id, u, hu⟩

/-- Copying a file is making one with its bytes. -/
theorem copy_eq_attach {source : String} {s : InodeId} {bytes : Buffer filePolicy UInt8}
    (hs : t.resolve source = .ok s) (hb : t.bytes s = .ok bytes) (path : String) :
    copy source path t = attach path (.file bytes.shrink) t := by
  obtain ⟨i, hi, hbytes⟩ := except_bind_eq_ok_iff.mp hb
  simp [copy, bind_apply, hs, hi, hbytes]

/-- Whatever calls a tree comes from: `create`, `mkdir`, and `copy` from a path that leads to
a file, make something new just where the path admits it. -/
theorem makes_of_calls (calls : List Call) (path : String) :
    let t := run calls .empty
    t.Makes path (.file Buffer.empty) (create path) ∧ t.Makes path .directory (mkdir path)
      ∧ ∀ source s bytes, t.resolve source = .ok s → (t.view s).payload = .file bytes →
        ∃ b : Buffer filePolicy UInt8, b.items.toList = bytes
          ∧ t.Makes path (.file b) (copy source path) := by
  intro t
  have h : t.Sound := (sound_blank ..).calls calls
  refine ⟨h.makes path _, h.makes path _, fun source s bytes hs hfile => ?_⟩
  obtain ⟨-, b, -, -, hb, rfl⟩ := bytes_of_view hfile
  refine ⟨b.shrink, rfl, ?_⟩
  have hmakes := h.makes path (.file b.shrink)
  rwa [Makes, ← copy_eq_attach hs hb path] at hmakes

/-- A second file gets the bytes of the first. -/
theorem makes_of_calls_copy :
    let t := run [.create "/a", .writePath "/a" 0 #[7]] .empty
    t.resolve "/a" = .ok ⟨1⟩ ∧ (t.view ⟨1⟩).payload = .file [7] ∧ t.Admits "/b" .root "b"
      ∧ (∃ b : Buffer filePolicy UInt8, b.items.toList = [7]
        ∧ t.Makes "/b" (.file b) (copy "/a" "/b"))
      ∧ ∃ id u, copy "/a" "/b" t = .ok id u := by
  intro t
  have hs : t.resolve "/a" = .ok ⟨1⟩ := by decide +kernel
  have hfile : (t.view ⟨1⟩).payload = .file [7] := by decide +kernel
  have hadmits : t.Admits "/b" .root "b" :=
    ⟨by decide +kernel, by decide, by decide +kernel, by decide +kernel⟩
  obtain ⟨b, hb, hmakes⟩ := (makes_of_calls _ "/b").2.2 "/a" ⟨1⟩ [7] hs hfile
  exact ⟨hs, hfile, hadmits, ⟨b, hb, hmakes⟩, hmakes.1.mpr ⟨.root, "b", hadmits⟩⟩

end Tree

end SectorFs

import Mathlib.Algebra.BigOperators.Group.Finset.Piecewise
import Mathlib.Algebra.Order.BigOperators.Group.Finset
import Mathlib.Data.Nat.SuccPred
import SectorFs.Tree.File
import SectorFs.Tree.WorkingDirectory

/-!
# What there is to see of a tree

Two trees that differ only in the size of their tables and in the room that their
buffers keep for more cannot be told apart by the names in them.  `Tree.view` forgets
both: it is a function on all inode numbers, and a number past the table stands for a
free slot like any other.  The operations on single slots are updates of this function
(`view_setSlot`, `view_addLink`, …), and lookups read nothing else (`lookup_eq`).

The entries of all directories together are counted slot by slot:
`countP_allEntries` turns the count into a sum over inode numbers, which an update of
one slot changes by what it changes there (`countEntries_update`).
-/

namespace SectorFs

/-! ### No content is too large for one allocation -/

theorem filePolicy_width : filePolicy.width * filePolicy.limit ≤ Buffer.maxAllocation := by
  decide

theorem directoryPolicy_width :
    directoryPolicy.width * directoryPolicy.limit ≤ Buffer.maxAllocation := by
  decide

/-! ### Views -/

/-- What an inode owns, without the room that is kept for more. -/
inductive Payload where
  | free
  | file (bytes : List UInt8)
  | directory (entries : List Entry)
deriving DecidableEq

namespace Payload

def kind : Payload → Kind
  | free => .free
  | file _ => .file
  | directory _ => .directory

def entries : Payload → List Entry
  | directory entries => entries
  | _ => []

theorem kind_eq_directory_iff {p : Payload} :
    p.kind = .directory ↔ ∃ entries, p = .directory entries := by
  cases p <;> simp [kind]

end Payload

/-- What there is to see of a slot. -/
structure InodeView where
  links : UInt32
  payload : Payload
deriving DecidableEq

namespace InodeView

/-- The view of a free slot that no count was left in. -/
def unused : InodeView := ⟨0, .free⟩

def kind (v : InodeView) : Kind := v.payload.kind

def entries (v : InodeView) : List Entry := v.payload.entries

/-- One more entry names it. -/
def link (v : InodeView) : InodeView := { v with links := v.links + 1 }

/-- One entry fewer names it. -/
def unlink (v : InodeView) : InodeView := { v with links := if v.links = 0 then 0 else v.links - 1 }

@[simp] theorem kind_link (v : InodeView) : v.link.kind = v.kind := rfl

@[simp] theorem entries_link (v : InodeView) : v.link.entries = v.entries := rfl

@[simp] theorem kind_unlink (v : InodeView) : v.unlink.kind = v.kind := rfl

@[simp] theorem entries_unlink (v : InodeView) : v.unlink.entries = v.entries := rfl

@[simp] theorem kind_unused : unused.kind = .free := rfl

@[simp] theorem entries_unused : unused.entries = [] := rfl

theorem entries_of_kind_ne {v : InodeView} (h : v.kind ≠ .directory) : v.entries = [] := by
  obtain ⟨links, payload⟩ := v
  cases payload with
  | free => rfl
  | file bytes => rfl
  | directory entries => exact absurd rfl h

theorem kind_of_mem_entries {v : InodeView} {e : Entry} (h : e ∈ v.entries) :
    v.kind = .directory := by
  by_contra hv
  rw [entries_of_kind_ne hv] at h
  exact absurd h List.not_mem_nil

theorem eq_of_kind_directory {v : InodeView} (h : v.kind = .directory) :
    v = ⟨v.links, .directory v.entries⟩ := by
  obtain ⟨links, payload⟩ := v
  obtain ⟨entries, rfl⟩ := Payload.kind_eq_directory_iff.mp h
  rfl

theorem toNat_link {v : InodeView} (h : v.links.toNat + 1 < 2 ^ 32) :
    v.link.links.toNat = v.links.toNat + 1 := by
  rw [link, UInt32.toNat_add]
  exact Nat.mod_eq_of_lt h

theorem toNat_unlink (v : InodeView) : v.unlink.links.toNat = v.links.toNat - 1 := by
  unfold unlink
  split
  · rename_i h
    simp [h]
  · rename_i h
    have hp : 1 ≤ v.links.toNat := by
      have : v.links.toNat ≠ 0 := fun hz => h (UInt32.toNat_inj.mp hz)
      omega
    exact UInt32.toNat_sub_of_le _ _ (UInt32.le_iff_toNat_le.mpr hp)

theorem unlink_link {v : InodeView} (h : v.links.toNat + 1 < 2 ^ 32) : v.link.unlink = v := by
  obtain ⟨links, payload⟩ := v
  have h1 := toNat_unlink (link ⟨links, payload⟩)
  rw [toNat_link h] at h1
  have h2 : (link ⟨links, payload⟩).unlink.links = links := UInt32.toNat_inj.mp h1
  show (⟨(link ⟨links, payload⟩).unlink.links, payload⟩ : InodeView) = _
  rw [h2]

/-- What a slot holds when a link to it is dropped: an inode other than the root goes with its
last link. -/
def drop (v : InodeView) (id : InodeId) : InodeView :=
  if v.kind = .free then v
  else if v.unlink.links = 0 ∧ id ≠ .root then .unused
  else v.unlink

theorem drop_of_kind_ne {v : InodeView} (h : v.kind ≠ .free) (id : InodeId) :
    v.drop id = if v.unlink.links = 0 ∧ id ≠ .root then .unused else v.unlink := if_neg h

theorem unlink_links_eq_zero_iff {v : InodeView} : v.unlink.links = 0 ↔ v.links.toNat ≤ 1 := by
  have := v.toNat_unlink
  rw [← UInt32.toNat_inj, UInt32.toNat_zero]
  omega

end InodeView

namespace Content

/-- What a slot owns, without the room kept in its buffer. -/
def payload : Content → Payload
  | free => .free
  | file bytes => .file bytes.items.toList
  | directory entries => .directory entries.items.toList

@[simp] theorem kind_payload (c : Content) : c.payload.kind = c.kind := by
  cases c <;> rfl

end Content

namespace Inode

/-- What there is to see of a slot. -/
def view (i : Inode) : InodeView := ⟨i.links, i.content.payload⟩

@[simp] theorem kind_view (i : Inode) : i.view.kind = i.kind := i.content.kind_payload

@[simp] theorem view_unused : unused.view = .unused := rfl

theorem view_link (i : Inode) : i.link.view = i.view.link := rfl

theorem view_unlink (i : Inode) : i.unlink.view = i.view.unlink := rfl

theorem isFree_eq_false_iff {i : Inode} : i.isFree = false ↔ i.view.kind ≠ .free := by
  simp [isFree]

end Inode

namespace Tree

/-- What there is to see of the slot of a number; a slot past the table counts as
free. -/
def view (t : Tree) (id : InodeId) : InodeView := ((t.slot? id).map Inode.view).getD .unused

theorem view_of_slot {t : Tree} {id : InodeId} {i : Inode} (h : t.slot? id = some i) :
    t.view id = i.view := by
  rw [view, h]
  rfl

theorem index_lt_of_slot {t : Tree} {id : InodeId} {i : Inode} (h : t.slot? id = some i) :
    id.index < t.slots.size :=
  (Array.getElem?_eq_some_iff.mp h).1

theorem slot_of_kind {t : Tree} {id : InodeId} (h : (t.view id).kind ≠ .free) :
    ∃ i, t.slot? id = some i ∧ i.view = t.view id := by
  cases hs : t.slot? id with
  | none =>
    rw [view, hs] at h
    exact absurd rfl h
  | some i => exact ⟨i, rfl, (view_of_slot hs).symm⟩

theorem index_lt_of_kind {t : Tree} {id : InodeId} (h : (t.view id).kind ≠ .free) :
    id.index < t.slots.size := by
  obtain ⟨i, hi, -⟩ := slot_of_kind h
  exact index_lt_of_slot hi

theorem index_lt_maxSlots {t : Tree} {id : InodeId} (h : (t.view id).kind ≠ .free) :
    id.index < maxSlots :=
  Nat.lt_of_lt_of_le (index_lt_of_kind h) t.size_le_max

theorem index_inj {a b : InodeId} (h : a.index = b.index) : a = b := by
  rw [← a.ofIndex_index, h, b.ofIndex_index]

/-! ### Reading -/

theorem view_of_inode {t : Tree} {id : InodeId} {i : Inode} (h : t.inode id = .ok i) :
    t.view id = i.view ∧ (t.view id).kind ≠ .free := by
  obtain ⟨hs, hf⟩ := inode_eq_ok_iff.mp h
  rw [view_of_slot hs]
  exact ⟨rfl, Inode.isFree_eq_false_iff.mp hf⟩

theorem inode_of_kind {t : Tree} {id : InodeId} (h : (t.view id).kind ≠ .free) :
    ∃ i, t.inode id = .ok i ∧ i.view = t.view id := by
  obtain ⟨i, hs, hv⟩ := slot_of_kind h
  exact ⟨i, inode_eq_ok_iff.mpr ⟨hs, Inode.isFree_eq_false_iff.mpr (hv ▸ h)⟩, hv⟩

theorem inode_of_kind_free {t : Tree} {id : InodeId} (h : (t.view id).kind = .free) :
    t.inode id = .error .notFound := by
  rw [inode]
  cases hs : t.slot? id with
  | none => rfl
  | some i =>
    rw [view_of_slot hs, Inode.kind_view] at h
    simp [Inode.isFree, h]

theorem view_of_entries {t : Tree} {dir : InodeId} {es : Buffer directoryPolicy Entry}
    (h : t.entries dir = .ok es) : (t.view dir).payload = .directory es.items.toList := by
  unfold entries at h
  cases hi : t.inode dir with
  | error e => rw [hi] at h; cases h
  | ok i =>
    rw [hi] at h
    have hc : i.content = .directory es := Inode.entries_eq_ok_iff.mp h
    rw [(view_of_inode hi).1, Inode.view, hc]
    rfl

theorem entries_of_view {t : Tree} {dir : InodeId} {names : List Entry}
    (h : (t.view dir).payload = .directory names) :
    ∃ i es, t.inode dir = .ok i ∧ i.content = .directory es ∧ t.entries dir = .ok es
      ∧ es.items.toList = names := by
  have hk : (t.view dir).kind = .directory := by rw [InodeView.kind, h]; rfl
  obtain ⟨i, hi, hv⟩ := inode_of_kind (hk.trans_ne (by decide))
  cases hc : i.content with
  | free =>
    rw [← hv, Inode.view, hc] at h
    cases h
  | file bytes =>
    rw [← hv, Inode.view, hc] at h
    cases h
  | directory es =>
    rw [← hv, Inode.view, hc] at h
    have he : t.entries dir = .ok es := by
      rw [entries, hi]
      exact Inode.entries_eq_ok_iff.mpr hc
    exact ⟨i, es, hi, hc, he, Payload.directory.inj h⟩

theorem bytes_of_view {t : Tree} {id : InodeId} {content : List UInt8}
    (h : (t.view id).payload = .file content) :
    ∃ i bytes, t.inode id = .ok i ∧ i.content = .file bytes ∧ t.bytes id = .ok bytes
      ∧ bytes.items.toList = content := by
  have hk : (t.view id).kind = .file := by rw [InodeView.kind, h]; rfl
  obtain ⟨i, hi, hv⟩ := inode_of_kind (hk.trans_ne (by decide))
  cases hc : i.content with
  | free =>
    rw [← hv, Inode.view, hc] at h
    cases h
  | directory es =>
    rw [← hv, Inode.view, hc] at h
    cases h
  | file bytes =>
    rw [← hv, Inode.view, hc] at h
    have he : t.bytes id = .ok bytes := by
      rw [Tree.bytes, hi]
      exact Inode.bytes_eq_ok_iff.mpr hc
    exact ⟨i, bytes, hi, hc, he, Payload.file.inj h⟩

theorem view_of_bytes {t : Tree} {id : InodeId} {bytes : Buffer filePolicy UInt8}
    (h : t.bytes id = .ok bytes) : (t.view id).payload = .file bytes.items.toList := by
  unfold Tree.bytes at h
  cases hi : t.inode id with
  | error e => rw [hi] at h; cases h
  | ok i =>
    rw [hi] at h
    have hc : i.content = .file bytes := Inode.bytes_eq_ok_iff.mp h
    rw [(view_of_inode hi).1, Inode.view, hc]
    rfl

/-- A lookup goes through the entries of a directory in order. -/
theorem lookup_of_view {t : Tree} {dir : InodeId} {names : List Entry} (name : String)
    (h : (t.view dir).payload = .directory names) :
    t.lookup dir name = match names.find? (·.name == name) with
      | some entry => .ok entry.inode
      | none => .error .notFound := by
  obtain ⟨i, es, -, -, he, rfl⟩ := entries_of_view h
  rw [lookup, he, Array.find?_toList]
  rfl

theorem lookup_ok {t : Tree} {dir id : InodeId} {name : String}
    (h : t.lookup dir name = .ok id) :
    ∃ names, (t.view dir).payload = .directory names
      ∧ names.find? (·.name == name) = some ⟨name, id⟩ := by
  cases he : t.entries dir with
  | error e => rw [lookup, he] at h; cases h
  | ok es =>
    have hv := view_of_entries he
    refine ⟨_, hv, ?_⟩
    rw [lookup_of_view name hv] at h
    cases hf : es.items.toList.find? (·.name == name) with
    | none => rw [hf] at h; cases h
    | some e =>
      rw [hf] at h
      have hn : e.name = name := by simpa using List.find?_some hf
      injection h with h
      rw [← hn, ← h]

/-! ### Changing a slot -/

theorem view_setSlot {t : Tree} {id : InodeId} (h : id.index < t.slots.size) (i : Inode) :
    (t.setSlot id.index i).view = Function.update t.view id i.view := by
  funext x
  by_cases hx : x = id
  · subst hx
    rw [Function.update_self, view, slot?_setSlot_self h]
    rfl
  · rw [Function.update_of_ne hx, view, slot?_setSlot_of_ne fun he => hx (index_inj he.symm)]
    rfl

theorem view_modifySlot {t : Tree} {id : InodeId} {i : Inode} (h : t.slot? id = some i)
    (f : Inode → Inode) :
    (t.modifySlot id.index f).view = Function.update t.view id (f i).view := by
  funext x
  have hs : (t.modifySlot id.index f).slot? x
      = if id.index = x.index then (t.slot? x).map f else t.slot? x :=
    Array.getElem?_modify
  by_cases hx : x = id
  · subst hx
    rw [Function.update_self, view, hs, if_pos rfl, h]
    rfl
  · rw [Function.update_of_ne hx, view, hs, if_neg fun he => hx (index_inj he.symm)]
    rfl

theorem view_setEntries {t : Tree} {dir : InodeId} {i : Inode} (h : t.slot? dir = some i)
    (es : Buffer directoryPolicy Entry) :
    (t.setEntries dir es).view
      = Function.update t.view dir ⟨(t.view dir).links, .directory es.items.toList⟩ := by
  rw [setEntries, view_modifySlot h, view_of_slot h]
  rfl

theorem view_addLink {t : Tree} {id : InodeId} (h : (t.view id).kind ≠ .free) :
    (t.addLink id).view = Function.update t.view id (t.view id).link := by
  obtain ⟨i, hi, hv⟩ := slot_of_kind h
  rw [addLink, view_modifySlot hi, Inode.view_link, hv]

/-- An inode that is not freed with its link keeps everything else. -/
theorem view_dropLink (t : Tree) (id : InodeId) :
    (t.dropLink id).view = Function.update t.view id ((t.view id).drop id) := by
  by_cases h : (t.view id).kind = .free
  · rw [dropLink, inode_of_kind_free h, InodeView.drop, if_pos h, Function.update_eq_self]
  · obtain ⟨i, hi, hv⟩ := inode_of_kind h
    have hlt := index_lt_of_kind h
    rw [InodeView.drop_of_kind_ne h, ← hv]
    unfold dropLink
    rw [hi]
    show (if i.unlink.links = 0 ∧ id ≠ .root then t.setSlot id.index .unused
      else t.setSlot id.index i.unlink).view = _
    rw [show i.view.unlink.links = i.unlink.links from rfl]
    split
    · rw [view_setSlot hlt, Inode.view_unused]
    · rw [view_setSlot hlt, Inode.view_unlink]

@[simp] theorem view_touch (t : Tree) : t.touch.view = t.view := rfl

@[simp] theorem cwd_dropLink (t : Tree) (id : InodeId) : (t.dropLink id).cwd = t.cwd := by
  unfold dropLink
  split
  · rfl
  · split <;> rfl

theorem view_withRoom {t u : Tree} {n : Nat} (h : t.withRoom n = .ok u) :
    u.view = t.view ∧ u.cwd = t.cwd ∧ n ≤ u.slots.size ∧ t.slots.size ≤ u.slots.size := by
  unfold withRoom at h
  split at h
  · injection h with h
    subst h
    exact ⟨rfl, rfl, by assumption, Nat.le_refl _⟩
  · split at h
    · cases h
    · rename_i hn hm
      injection h with h
      subst h
      refine ⟨?_, rfl, ?_, by simp⟩
      · funext id
        show ((_ : Option Inode).map Inode.view).getD .unused = _
        rw [slot?]
        simp only []
        by_cases hid : id.index < t.slots.size
        · rw [Array.getElem?_append_left hid]
          rfl
        · have hnone : t.slots[id.index]? = none := Array.getElem?_eq_none (by omega)
          rw [Array.getElem?_append_right (by omega), view, slot?, hnone,
            Array.getElem?_replicate]
          split <;> rfl
      · have : n ≤ tablePolicy.target t.slots.size n :=
          Buffer.Policy.le_target (Nat.le_of_not_lt hm)
        simp only [Array.size_append, Array.size_replicate]
        omega

theorem withRoom_isOk (t : Tree) {n : Nat} (h : n ≤ maxSlots) : ∃ u, t.withRoom n = .ok u := by
  unfold withRoom
  split
  · exact ⟨_, rfl⟩
  · rw [dif_neg (Nat.not_lt.mpr h)]
    exact ⟨_, rfl⟩

theorem dirty_withRoom {t u : Tree} {n : Nat} (h : t.withRoom n = .ok u) : u.dirty = t.dirty := by
  unfold withRoom at h
  split at h
  · injection h with h
    rw [h]
  · split at h
    · cases h
    · injection h with h
      rw [← h]

theorem getElem?_blank {n : Nat} (hi : initialSlots ≤ n) (hn : n ≤ maxSlots) (k : Nat) :
    (blank n hi hn).slots[k]? = if k = 0 then some bareRoot
      else if k < n then some .unused else none := by
  show ((Array.replicate n Inode.unused).setIfInBounds 0 bareRoot)[k]? = _
  have hpos : 0 < n := Nat.lt_of_lt_of_le (by decide) hi
  rw [Array.getElem?_setIfInBounds, Array.getElem?_replicate, Array.size_replicate]
  by_cases hk : k = 0
  · rw [if_pos hk.symm, if_pos hpos, if_pos hk]
  · rw [if_neg (Ne.symm hk), if_neg hk]

theorem getElem?_withRoom_empty {t : Tree} {n : Nat} (h : Tree.empty.withRoom n = .ok t)
    (k : Nat) : t.slots[k]? = if k = 0 then some bareRoot
      else if k < t.slots.size then some .unused else none := by
  have hempty : Tree.empty.slots.size = initialSlots := rfl
  have hget := getElem?_blank (Nat.le_refl initialSlots) (by decide : initialSlots ≤ maxSlots)
  have hpos : 0 < initialSlots := by decide
  unfold withRoom at h
  split at h
  · injection h with h
    rw [← h, hempty]
    exact hget k
  · split at h
    · cases h
    · injection h with h
      rw [← h]
      simp only []
      rw [Array.size_append, hempty, Array.size_replicate]
      rcases Nat.lt_or_ge k initialSlots with hk | hk
      · rw [Array.getElem?_append_left (by rw [hempty]; exact hk)]
        refine (hget k).trans ?_
        rw [if_pos hk, if_pos (Nat.lt_of_lt_of_le hk (Nat.le_add_right ..))]
      · rw [Array.getElem?_append_right (by rw [hempty]; exact hk), Array.getElem?_replicate,
          hempty, if_neg (Nat.ne_of_gt (Nat.lt_of_lt_of_le hpos hk))]
        by_cases hin : k - initialSlots < tablePolicy.target initialSlots n - initialSlots
        · rw [if_pos hin, if_pos (by omega)]
        · rw [if_neg hin, if_neg (by omega)]

theorem restart_of_withRoom {t : Tree} {n : Nat} (h : Tree.empty.withRoom n = .ok t) :
    t.restart = t := by
  have hslots : t.restart.slots = t.slots := Array.ext_getElem? fun k => by
    rw [getElem?_withRoom_empty h]
    exact getElem?_blank t.initial_le_size t.size_le_max k
  have hcwd : t.cwd = .root := (view_withRoom h).2.1
  have hdirty : t.dirty = false := dirty_withRoom h
  obtain ⟨slots, cwd, dirty, _, _⟩ := t
  simp only [restart, blank, mk.injEq] at hslots ⊢
  exact ⟨hslots, hcwd.symm, hdirty.symm⟩

/-! ### Counting over all slots -/

/-- The sum of a number over all slots that a table can have. -/
def overSlots (g : InodeId → Nat) : Nat := ∑ i ∈ Finset.range maxSlots, g (.ofIndex i)

theorem overSlots_update {g : InodeId → Nat} {id : InodeId} (h : id.index < maxSlots) (n : Nat) :
    overSlots (Function.update g id n) + g id = overSlots g + n := by
  have hmem : id.index ∈ Finset.range maxSlots := Finset.mem_range.mpr h
  have hu : ∀ i ∈ Finset.range maxSlots, Function.update g id n (.ofIndex i)
      = Function.update (fun i => g (.ofIndex i)) id.index n i := by
    intro i hi
    by_cases hid : i = id.index
    · subst hid
      rw [InodeId.ofIndex_index, Function.update_self, Function.update_self]
    · have hne : InodeId.ofIndex i ≠ id := by
        intro he
        rw [← he, InodeId.index_ofIndex (Finset.mem_range.mp hi).le] at hid
        exact hid rfl
      rw [Function.update_of_ne hne, Function.update_of_ne hid]
  rw [overSlots, Finset.sum_congr rfl hu, Finset.sum_update_of_mem hmem, overSlots,
    ← Finset.sum_sdiff (Finset.singleton_subset_iff.mpr hmem), Finset.sum_singleton,
    InodeId.ofIndex_index]
  omega

theorem le_overSlots (g : InodeId → Nat) {id : InodeId} (h : id.index < maxSlots) :
    g id ≤ overSlots g := by
  have := overSlots_update (g := g) h 0
  omega

/-- Two different slots count separately. -/
theorem add_le_overSlots (g : InodeId → Nat) {a b : InodeId} (ha : a.index < maxSlots)
    (hb : b.index < maxSlots) (hab : a ≠ b) : g a + g b ≤ overSlots g := by
  have h1 := overSlots_update (g := g) ha 0
  have h2 := le_overSlots (Function.update g a 0) hb
  rw [Function.update_of_ne hab.symm] at h2
  omega

theorem exists_of_overSlots_pos {g : InodeId → Nat} (h : 0 < overSlots g) : ∃ id, 0 < g id := by
  obtain ⟨i, -, hi⟩ := Finset.exists_ne_zero_of_sum_ne_zero (Nat.ne_of_gt h)
  exact ⟨_, Nat.pos_of_ne_zero hi⟩

theorem overSlots_le {g : InodeId → Nat} {n : Nat} (h : ∀ id, g id ≤ n) :
    overSlots g ≤ maxSlots * n := by
  have := Finset.sum_le_card_nsmul (Finset.range maxSlots) (fun i => g (.ofIndex i)) n
    fun i _ => h _
  rwa [Finset.card_range] at this

/-- The number of entries with a property, over all directories. -/
def countEntries (view : InodeId → InodeView) (p : Entry → Bool) : Nat :=
  overSlots fun id => (view id).entries.countP p

/-- Changing one slot changes the count by what it changes there. -/
theorem countEntries_update (view : InodeId → InodeView) {id : InodeId} (h : id.index < maxSlots)
    (v : InodeView) (p : Entry → Bool) :
    countEntries (Function.update view id v) p + (view id).entries.countP p
      = countEntries view p + v.entries.countP p := by
  have hu : (fun x => (Function.update view id v x).entries.countP p)
      = Function.update (fun x => (view x).entries.countP p) id (v.entries.countP p) := by
    funext x
    by_cases hx : x = id
    · rw [hx, Function.update_self, Function.update_self]
    · rw [Function.update_of_ne hx, Function.update_of_ne hx]
  rw [countEntries, hu]
  exact overSlots_update h _

/-- The entries of all directories, table order first and then the order they are
stored in. -/
def allEntries (t : Tree) : List Entry := t.slots.toList.flatMap fun i => i.view.entries

theorem countP_allEntries (t : Tree) (p : Entry → Bool) :
    t.allEntries.countP p = countEntries t.view p := by
  have hsum : ∀ (l : List Inode) (m : Nat), l.length ≤ m →
      (l.map fun i => i.view.entries.countP p).sum = ∑ i ∈ Finset.range m,
        (((l[i]?).map Inode.view).getD .unused).entries.countP p := by
    intro l
    induction l with
    | nil => intro m _; simp
    | cons i l ih =>
      intro m hm
      obtain ⟨m, rfl⟩ : ∃ k, m = k + 1 := ⟨m - 1, by simp at hm; omega⟩
      rw [Finset.sum_range_succ', List.map_cons, List.sum_cons, ih m (by simpa using hm)]
      simp [Nat.add_comm]
  rw [allEntries, List.countP_flatMap]
  have := hsum t.slots.toList maxSlots (by simpa using t.size_le_max)
  simp only [Function.comp_def]
  rw [this, countEntries, overSlots]
  refine Finset.sum_congr rfl fun i hi => ?_
  simp only [view, slot?, InodeId.index_ofIndex (Finset.mem_range.mp hi).le, Array.getElem?_toList]

end Tree

end SectorFs

import SectorFs.Proofs.Buffer
import SectorFs.Proofs.Tree.View

/-!
# What the steps of an edit do

An edit of a tree is made of a few steps on single slots and single entries.  For each
step there is one lemma that says all it does to the view of the tree when it succeeds
(`reserveEntry_ok`, `addEntry_ok`, `removeEntry_ok`, `reparent_ok`, `allocate_ok`,
`store_ok`), and for those that an edit relies on, one that says when it does
(`addEntry_isOk`, …).  A step that fails leaves the tree alone, by
`Attempt.atomically_error`.
-/

namespace SectorFs

open Attempt

namespace Tree

theorem length_entries_le (t : Tree) (id : InodeId) :
    (t.view id).entries.length ≤ maxEntries := by
  by_cases hk : (t.view id).kind = .directory
  · obtain ⟨names, hn⟩ := Payload.kind_eq_directory_iff.mp hk
    obtain ⟨-, es, -, -, -, rfl⟩ := entries_of_view hn
    rw [InodeView.entries, hn]
    exact es.size_le_limit
  · rw [InodeView.entries_of_kind_ne hk]
    exact Nat.zero_le _

/-! ### Entries -/

theorem reserveEntry_ok {t u : Tree} {dir : InodeId} (h : reserveEntry dir t = .ok () u) :
    u.view = t.view ∧ u.cwd = t.cwd ∧ u.dirty = t.dirty ∧ u.slots.size = t.slots.size
      ∧ (t.view dir).kind = .directory ∧ (t.view dir).entries.length < maxEntries := by
  obtain ⟨es, he, h⟩ := except_bind_eq_ok_iff.mp (atomically_eq_ok_iff.mp h)
  obtain ⟨es', hr, h⟩ := except_bind_eq_ok_iff.mp h
  have hr := Buffer.orFail_eq_ok_iff.mp hr
  cases h
  have hv := view_of_entries he
  obtain ⟨i, -, hi, -, -, -⟩ := entries_of_view hv
  have hs := (inode_eq_ok_iff.mp hi).1
  have hl := Buffer.limit_of_reserve hr
  refine ⟨?_, rfl, rfl, size_modifySlot .., by rw [InodeView.kind, hv]; rfl, ?_⟩
  · rw [view_setEntries hs, Buffer.items_of_reserve hr, ← hv]
    exact Function.update_eq_self dir t.view
  · rw [InodeView.entries, hv]
    exact Nat.lt_of_lt_of_le (Nat.lt_succ_self _) (Nat.le_trans (Nat.le_max_left _ _) hl)

theorem reserveEntry_isOk {t : Tree} {dir : InodeId} (hdir : (t.view dir).kind = .directory)
    (hroom : (t.view dir).entries.length < maxEntries) : ∃ u, reserveEntry dir t = .ok () u := by
  obtain ⟨names, hn⟩ := Payload.kind_eq_directory_iff.mp hdir
  obtain ⟨-, es, -, -, he, rfl⟩ := entries_of_view hn
  rw [InodeView.entries, hn] at hroom
  have hlimit : max (es.size + 1) es.items.size ≤ directoryPolicy.limit :=
    Nat.max_le.mpr ⟨hroom, es.size_le_limit⟩
  obtain ⟨es', hr⟩ := Buffer.refit_isOk directoryPolicy_width es hlimit es.items
    (Nat.le_max_right _ _)
  exact ⟨_, atomically_eq_ok_iff.mpr (except_bind_eq_ok_iff.mpr ⟨es, he,
    except_bind_eq_ok_iff.mpr ⟨es', Buffer.orFail_eq_ok_iff.mpr hr, rfl⟩⟩)⟩

theorem addEntry_ok {t u : Tree} {dir : InodeId} {e : Entry} (h : addEntry dir e t = .ok () u) :
    (t.view dir).kind = .directory ∧ (t.view e.inode).kind ≠ .free
      ∧ (t.view dir).entries.length < maxEntries
      ∧ u.cwd = t.cwd ∧ u.dirty = true ∧ u.slots.size = t.slots.size
      ∧ ∃ v, v = Function.update t.view dir
          ⟨(t.view dir).links, .directory ((t.view dir).entries ++ [e])⟩
        ∧ u.view = Function.update v e.inode (v e.inode).link := by
  obtain ⟨i, hi, h⟩ := except_bind_eq_ok_iff.mp (atomically_eq_ok_iff.mp h)
  obtain ⟨es, he, h⟩ := except_bind_eq_ok_iff.mp h
  obtain ⟨es', hr, h⟩ := except_bind_eq_ok_iff.mp h
  have hr := Buffer.orFail_eq_ok_iff.mp hr
  cases h
  have hv := view_of_entries he
  obtain ⟨j, -, hj, -, -, -⟩ := entries_of_view hv
  have hes : (t.view dir).entries = es.items.toList := by rw [InodeView.entries, hv]; rfl
  have hset := view_setEntries (inode_eq_ok_iff.mp hj).1 es'
  rw [Buffer.toList_of_push hr, ← hes] at hset
  have hin : ((t.setEntries dir es').view e.inode).kind ≠ .free := by
    rw [hset]
    by_cases hd : e.inode = dir
    · rw [hd, Function.update_self]
      exact Kind.noConfusion
    · rw [Function.update_of_ne hd]
      exact (view_of_inode hi).2
  refine ⟨by rw [InodeView.kind, hv]; rfl, (view_of_inode hi).2, ?_, rfl, rfl, ?_, _, rfl, ?_⟩
  · have hl : es'.items.size ≤ maxEntries := es'.size_le_limit
    rw [Buffer.items_of_push hr, Array.size_push] at hl
    rw [hes]
    exact hl
  · simp [touch, addLink, setEntries]
  · rw [view_touch, view_addLink hin, hset]

theorem addEntry_isOk {t : Tree} {dir : InodeId} {e : Entry}
    (hdir : (t.view dir).kind = .directory) (hroom : (t.view dir).entries.length < maxEntries)
    (hchild : (t.view e.inode).kind ≠ .free) : ∃ u, addEntry dir e t = .ok () u := by
  obtain ⟨names, hn⟩ := Payload.kind_eq_directory_iff.mp hdir
  obtain ⟨-, es, -, -, he, rfl⟩ := entries_of_view hn
  obtain ⟨i, hi, -⟩ := inode_of_kind hchild
  rw [InodeView.entries, hn] at hroom
  obtain ⟨es', hr⟩ := Buffer.push_isOk directoryPolicy_width es e hroom
  exact ⟨_, atomically_eq_ok_iff.mpr (except_bind_eq_ok_iff.mpr ⟨i, hi,
    except_bind_eq_ok_iff.mpr ⟨es, he, except_bind_eq_ok_iff.mpr
      ⟨es', Buffer.orFail_eq_ok_iff.mpr hr, rfl⟩⟩⟩)⟩

theorem findIdx_of_findFinIdx {es : Array Entry} {name : String} {i : Fin es.size}
    (h : es.findFinIdx? (·.name == name) = some i) :
    es.toList.findIdx? (·.name == name) = some i.val ∧ es[i].name = name := by
  have hfind : es.findIdx? (·.name == name) = some i.val := by
    rw [Array.findIdx?_eq_map_findFinIdx?_val, h]
    rfl
  have hp := (Array.findFinIdx?_eq_some_iff.mp h).1
  refine ⟨?_, beq_iff_eq.mp hp⟩
  rw [← hfind]
  cases es
  exact List.findIdx?_toArray _ _ |>.symm

/-- The entry taken out is the first of its name, and the link it was is dropped. -/
theorem removeEntry_ok {t u : Tree} {dir id : InodeId} {name : String}
    (h : removeEntry dir name t = .ok id u) :
    (t.view dir).kind = .directory ∧ u.dirty = true ∧ u.cwd = t.cwd
      ∧ ∃ i v, (t.view dir).entries.findIdx? (·.name == name) = some i
        ∧ (t.view dir).entries[i]? = some ⟨name, id⟩
        ∧ v = Function.update t.view dir
            ⟨(t.view dir).links, .directory (takeOut (t.view dir).entries i)⟩
        ∧ u.view = Function.update v id ((v id).drop id) := by
  obtain ⟨es, he, h⟩ := except_bind_eq_ok_iff.mp (atomically_eq_ok_iff.mp h)
  have hv := view_of_entries he
  have hes : (t.view dir).entries = es.items.toList := by rw [InodeView.entries, hv]; rfl
  obtain ⟨j, -, hj, -, -, -⟩ := entries_of_view hv
  have hs := (inode_eq_ok_iff.mp hj).1
  split at h
  · cases h
  · rename_i i hi
    obtain ⟨hfind, hname⟩ := findIdx_of_findFinIdx hi
    have hset := view_setEntries hs (es.swapRemove i i.isLt).2
    rw [Buffer.toList_swapRemove, ← hes] at hset
    injection h with h
    obtain ⟨rfl, rfl⟩ := Prod.ext_iff.mp h
    refine ⟨by rw [InodeView.kind, hv]; rfl, rfl, cwd_dropLink .., i, _, ?_, ?_, rfl, ?_⟩
    · rw [hes, hfind]
    · rw [hes, Array.getElem?_toList, Array.getElem?_eq_getElem i.isLt]
      show some es.items[i] = some ⟨name, es.items[i].inode⟩
      rw [← hname]
    · rw [← hset]
      exact view_dropLink ..

theorem removeEntry_isOk {t : Tree} {dir : InodeId} {e : Entry} (h : e ∈ (t.view dir).entries) :
    ∃ id u, removeEntry dir e.name t = .ok id u := by
  obtain ⟨names, hn⟩ := Payload.kind_eq_directory_iff.mp (InodeView.kind_of_mem_entries h)
  obtain ⟨-, es, -, -, he, rfl⟩ := entries_of_view hn
  rw [InodeView.entries, hn] at h
  cases hf : es.items.findFinIdx? (·.name == e.name) with
  | none =>
    have hall := Array.findFinIdx?_eq_none_iff.mp hf e (Array.mem_toList_iff.mp h)
    simp at hall
  | some i =>
    have hrun : removeEntry dir e.name t = .ok es.items[i].inode
        ((t.setEntries dir (es.swapRemove i i.isLt).2).dropLink es.items[i].inode).touch :=
      atomically_eq_ok_iff.mpr (except_bind_eq_ok_iff.mpr ⟨es, he, by rw [hf]; rfl⟩)
    exact ⟨_, _, hrun⟩

/-- The first `..` of a directory moves from the old parent to the new one. -/
theorem reparent_ok {t u : Tree} {dir parent : InodeId} (h : reparent dir parent t = .ok () u) :
    (t.view parent).kind = .directory ∧ (t.view dir).kind = .directory
      ∧ u.dirty = true ∧ u.cwd = t.cwd
      ∧ ∃ i old v w, (t.view dir).entries.findIdx? (·.name == "..") = some i
        ∧ (t.view dir).entries[i]? = some ⟨"..", old⟩
        ∧ v = Function.update t.view dir
            ⟨(t.view dir).links, .directory ((t.view dir).entries.set i ⟨"..", parent⟩)⟩
        ∧ w = Function.update v parent (v parent).link
        ∧ u.view = Function.update w old ((w old).drop old) := by
  obtain ⟨p, hp, h⟩ := except_bind_eq_ok_iff.mp (atomically_eq_ok_iff.mp h)
  split at h
  · cases h
  · rename_i hdir
    obtain ⟨es, he, h⟩ := except_bind_eq_ok_iff.mp h
    have hv := view_of_entries he
    have hes : (t.view dir).entries = es.items.toList := by rw [InodeView.entries, hv]; rfl
    obtain ⟨j, -, hj, -, -, -⟩ := entries_of_view hv
    have hs := (inode_eq_ok_iff.mp hj).1
    split at h
    · cases h
    · rename_i i hi
      obtain ⟨hfind, hname⟩ := findIdx_of_findFinIdx hi
      have hpk : (t.view parent).kind = .directory := by
        rw [(view_of_inode hp).1, Inode.kind_view]
        simpa [Inode.isDirectory] using hdir
      let moved := es.withItems (es.items.set i { es.items[i] with inode := parent }) (by simp)
      have hset : (t.setEntries dir moved).view = Function.update t.view dir
          ⟨(t.view dir).links, .directory ((t.view dir).entries.set i ⟨"..", parent⟩)⟩ := by
        have hl : moved.items.toList = es.items.toList.set i ⟨es.items[i].name, parent⟩ := by
          simp [moved, Buffer.withItems]
        rw [view_setEntries hs, hl, hes, hname]
      have hpv : ((t.setEntries dir moved).view parent).kind ≠ .free := by
        rw [hset]
        by_cases hd : parent = dir
        · rw [hd, Function.update_self]
          exact Kind.noConfusion
        · rw [Function.update_of_ne hd, hpk]
          exact Kind.noConfusion
      have hlink := view_addLink hpv
      rw [hset] at hlink
      injection h with h
      obtain ⟨-, rfl⟩ := Prod.ext_iff.mp h
      refine ⟨hpk, by rw [InodeView.kind, hv]; rfl, rfl, cwd_dropLink .., i, es.items[i].inode,
        _, _, ?_, ?_, rfl, rfl, ?_⟩
      · rw [hes, hfind]
      · rw [hes, Array.getElem?_toList, Array.getElem?_eq_getElem i.isLt]
        show some es.items[i] = some ⟨"..", es.items[i].inode⟩
        rw [← hname]
      · rw [← hlink]
        exact view_dropLink ..

theorem reparent_isOk {t : Tree} {dir parent old : InodeId}
    (hparent : (t.view parent).kind = .directory) (h : ⟨"..", old⟩ ∈ (t.view dir).entries) :
    ∃ u, reparent dir parent t = .ok () u := by
  obtain ⟨names, hn⟩ := Payload.kind_eq_directory_iff.mp (InodeView.kind_of_mem_entries h)
  obtain ⟨-, es, -, -, he, rfl⟩ := entries_of_view hn
  obtain ⟨p, hp, hpv⟩ := inode_of_kind (hparent.trans_ne (by decide))
  rw [InodeView.entries, hn] at h
  have hpd : p.isDirectory = true := by
    rw [Inode.isDirectory, ← Inode.kind_view, hpv, hparent]
    rfl
  cases hf : es.items.findFinIdx? (·.name == "..") with
  | none =>
    have hall := Array.findFinIdx?_eq_none_iff.mp hf _ (Array.mem_toList_iff.mp h)
    simp at hall
  | some i =>
    let moved := es.withItems (es.items.set i { es.items[i] with inode := parent }) (by simp)
    have hrun : reparent dir parent t
        = .ok () (((t.setEntries dir moved).addLink parent).dropLink es.items[i].inode).touch :=
      atomically_eq_ok_iff.mpr (except_bind_eq_ok_iff.mpr ⟨p, hp, by
        rw [hpd]
        exact except_bind_eq_ok_iff.mpr ⟨es, he, by rw [hf]; rfl⟩⟩)
    exact ⟨_, hrun⟩

/-! ### Slots -/

theorem firstFree?_eq_some {t : Tree} {i : Nat} (h : t.firstFree? = some i) :
    0 < i ∧ (∃ hi : i < t.slots.size, t.slots[i].isFree = true)
      ∧ ∀ j (hj : j < t.slots.size), 0 < j → j < i → t.slots[j].isFree = false := by
  obtain ⟨k, hk, rfl⟩ := Option.map_eq_some_iff.mp h
  obtain ⟨hlt, hfree, hmin⟩ := Array.findIdx?_eq_some_iff_getElem.mp hk
  have hsize : k + 1 < t.slots.size := by
    rw [Array.size_extract] at hlt
    omega
  refine ⟨Nat.succ_pos _, ⟨hsize, ?_⟩, fun j hj hpos hji => ?_⟩
  · rw [Array.getElem_extract] at hfree
    simpa [Nat.add_comm] using hfree
  · obtain ⟨j, rfl⟩ : ∃ m, j = m + 1 := ⟨j - 1, by omega⟩
    have := hmin j (by omega)
    rw [Array.getElem_extract] at this
    simpa [Nat.add_comm] using this

theorem firstFree?_eq_none {t : Tree} (h : t.firstFree? = none) {j : Nat} (hj : j < t.slots.size)
    (hpos : 0 < j) : t.slots[j].isFree = false := by
  obtain ⟨k, rfl⟩ : ∃ k, j = k + 1 := ⟨j - 1, by omega⟩
  have hnone := Array.findIdx?_eq_none_iff.mp (Option.map_eq_none_iff.mp h)
  refine hnone _ (Array.mem_iff_getElem.mpr ⟨k, ?_, ?_⟩)
  · rw [Array.size_extract]
    omega
  · rw [Array.getElem_extract]
    simp [Nat.add_comm]

/-- The free slot is the lowest one above the root, past the table if there is none in
it. -/
theorem freeSlot_ok {t u : Tree} {i : Nat} (h : t.freeSlot = .ok (i, u)) :
    u.view = t.view ∧ u.cwd = t.cwd ∧ t.slots.size ≤ u.slots.size ∧ i < u.slots.size ∧ 0 < i
      ∧ (t.view (.ofIndex i)).kind = .free
      ∧ ∀ j : InodeId, 0 < j.index → j.index < i → (t.view j).kind ≠ .free := by
  have found : ∀ {w : Tree}, w.firstFree? = some i → i < w.slots.size ∧ 0 < i
      ∧ (w.view (.ofIndex i)).kind = .free
      ∧ ∀ j : InodeId, 0 < j.index → j.index < i → (w.view j).kind ≠ .free := by
    intro w hw
    obtain ⟨hpos, ⟨hi, hfree⟩, hmin⟩ := firstFree?_eq_some hw
    have hidx : (InodeId.ofIndex i).index = i :=
      InodeId.index_ofIndex (Nat.le_trans hi.le w.size_le_max)
    refine ⟨hi, hpos, ?_, fun j hj hji => ?_⟩
    · have hs : w.slot? (.ofIndex i) = some w.slots[i] := by
        rw [slot?, hidx, Array.getElem?_eq_getElem hi]
      rw [view_of_slot hs, Inode.kind_view]
      simpa [Inode.isFree] using hfree
    · have hjs : j.index < w.slots.size := by omega
      have hs : w.slot? j = some w.slots[j.index] := by
        rw [slot?, Array.getElem?_eq_getElem hjs]
      rw [view_of_slot hs]
      exact Inode.isFree_eq_false_iff.mp (hmin j.index hjs hj hji)
  unfold freeSlot at h
  split at h
  · rename_i k hk
    injection h with h
    obtain ⟨rfl, rfl⟩ := Prod.ext_iff.mp h
    obtain ⟨hi, hrest⟩ := found hk
    exact ⟨rfl, rfl, Nat.le_refl _, hi, hrest⟩
  · obtain ⟨w, hw, h⟩ := except_bind_eq_ok_iff.mp h
    obtain ⟨hv, hc, -, hsize⟩ := view_withRoom hw
    split at h
    · rename_i k hk
      injection h with h
      obtain ⟨rfl, rfl⟩ := Prod.ext_iff.mp h
      obtain ⟨hi, hrest⟩ := found hk
      rw [hv] at hrest
      exact ⟨hv, hc, hsize, hi, hrest⟩
    · cases h

theorem allocate_ok {t u : Tree} {kind : Kind} {id : InodeId} (h : allocate kind t = .ok id u) :
    kind ≠ .free ∧ (t.view id).kind = .free ∧ id ≠ .root ∧ id.index < u.slots.size
      ∧ (∀ j : InodeId, 0 < j.index → j.index < id.index → (t.view j).kind ≠ .free)
      ∧ u.view = Function.update t.view id ⟨0, (Content.empty kind).payload⟩
      ∧ u.cwd = t.cwd := by
  have h := atomically_eq_ok_iff.mp h
  split at h
  · cases h
  · rename_i hkind
    obtain ⟨⟨i, w⟩, hw, h⟩ := except_bind_eq_ok_iff.mp h
    obtain ⟨hv, hc, -, hi, hpos, hfree, hmin⟩ := freeSlot_ok hw
    have hidx : (InodeId.ofIndex i).index = i :=
      InodeId.index_ofIndex (Nat.le_trans hi.le w.size_le_max)
    cases h
    have hin : (InodeId.ofIndex i).index < w.slots.size := hidx.symm ▸ hi
    have hset := view_setSlot hin ⟨0, .empty kind⟩
    rw [hidx] at hset
    refine ⟨hkind, hfree, ?_, ?_, ?_, ?_, hc⟩
    · intro he
      rw [he] at hidx
      exact absurd hidx (Nat.ne_of_lt hpos)
    · rw [hidx]
      exact (size_setSlot ..).symm ▸ hi
    · rw [hidx]
      exact hmin
    · rw [view_touch, hset, hv]
      rfl

theorem store_ok {t u : Tree} {id : InodeId} {i : Inode} (h : store id i t = .ok () u) :
    u.view = Function.update t.view id i.view ∧ u.cwd = t.cwd
      ∧ u.slots.size = t.slots.size := by
  obtain ⟨hlt, rfl⟩ := store_eq_ok_iff.mp h
  exact ⟨view_setSlot hlt i, rfl, size_setSlot ..⟩

theorem store_isOk {t : Tree} {id : InodeId} (h : id.index < t.slots.size) (i : Inode) :
    ∃ u, store id i t = .ok () u :=
  ⟨_, store_eq_ok_iff.mpr ⟨h, rfl⟩⟩

end Tree

end SectorFs

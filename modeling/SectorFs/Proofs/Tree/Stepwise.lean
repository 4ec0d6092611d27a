import SectorFs.Proofs.Attempt
import SectorFs.Proofs.Tree.Making
import SectorFs.Proofs.Tree.Unchanged

/-!
# Operations one store at a time

`addEntry`, `reparent` and `allocate` change a tree as a whole or not at all, and `attach`
puts a new directory into its slot with its names already in it.  Each of them can be told as
a sequence of single stores with checks between them: a link is counted on an inode that is
looked up anew, a slot is looked for again in a table that was just made larger, and the two
names of a directory are added to content that has room for them.  Every check can end the
operation and leave what was stored so far.

`addEntry_eq`, `reparent_eq`, `allocate_eq` and `attach_eq` say that both tellings are the
same on every tree.  No check after the first store ever fails: what it asks for was there
before, and no store on the way took it away.  So a change that fails leaves the tree alone
(`unchanged_of_error`), other than removing and moving by path, which `Proofs/Tree/Torn.lean`
is about.
-/

namespace SectorFs

open Attempt

namespace Tree

variable {t : Tree}

namespace Stepwise

/-! ### The stores and checks -/

/-- One more link to an inode, which must be in use. -/
def countLink (id : InodeId) : Attempt Tree Unit := do
  let _ ← (← get).inode id
  modify fun t => t.addLink id

/-- Adds an entry before it counts the link. -/
def addEntry (dir : InodeId) (entry : Entry) : Attempt Tree Unit := do
  let t ← get
  let _ ← t.inode entry.inode
  let entries ← t.entries dir
  let entries ← Buffer.orFail .fileTooLarge (entries.push entry)
  modify fun t => t.setEntries dir entries
  countLink entry.inode
  modify touch

/-- What an entry names, and the entries once it names another inode. -/
def repoint (entries : Buffer directoryPolicy Entry) :
    Fin entries.items.size → InodeId → InodeId × Buffer directoryPolicy Entry
  | ⟨i, h⟩, id =>
    let old := entries.items[i]
    (old.inode, entries.withItems (entries.items.set i { old with inode := id })
      (Array.size_set h))

/-- Changes `..` before it counts the link that comes and drops the one that goes. -/
def reparent (dir parent : InodeId) : Attempt Tree Unit := do
  let t ← get
  if !(← t.inode parent).isDirectory then throw .notADirectory
  let entries ← t.entries dir
  let some i := entries.items.findFinIdx? (·.name == "..") | throw .notFound
  let (old, moved) := repoint entries i parent
  modify fun t => t.setEntries dir moved
  countLink parent
  modify fun t => t.dropLink old
  modify touch

/-- Makes the table larger when no slot in it is free, and looks again. -/
def allocate (kind : Kind) : Attempt Tree InodeId := do
  if kind = .free then throw .invalidArgument
  if (← get).firstFree?.isNone then reserveSlots ((← get).capacity + 1)
  let some i := (← get).firstFree? | throw .outOfInodes
  modify fun t => (t.setSlot i ⟨0, .empty kind⟩).touch
  return .ofIndex i

/-- What a new inode holds while it has no slot: a directory has no names yet. -/
def draft : NewContent → Except Failure Content
  | .file bytes => .ok (.file bytes)
  | .directory => do
    let entries ← Buffer.orFail .fileTooLarge (Buffer.withCapacity 8)
    return .directory entries

/-- Adds the two names that a directory starts with. -/
def addDots (self parent : InodeId) (entries : Buffer directoryPolicy Entry) :
    Except Failure (Buffer directoryPolicy Entry) := do
  let entries ← Buffer.orFail .fileTooLarge (entries.push ⟨".", self⟩)
  Buffer.orFail .fileTooLarge (entries.push ⟨"..", parent⟩)

/-- Finds out where something new goes, and takes the room and the slot that it needs. -/
def prepare (path : String) (kind : Kind) : Attempt Tree (Place × InodeId) := do
  let place ← (← get).locate path
  if place.existing.isSome then throw .alreadyExists
  validateName place.leaf
  reserveEntry place.parent
  let id ← allocate kind
  return (place, id)

/-- Puts a draft into the slot taken for it, and names it. -/
def finish (place : Place) (id : InodeId) (draft : Content) : Attempt Tree Unit := do
  match draft with
  | .directory entries =>
    match addDots id place.parent entries with
    | .ok entries =>
      store id ⟨1, .directory entries⟩
      countLink place.parent
    | .error f =>
      -- the slot goes back, and whether that works is not asked
      modify (release id).after
      throw f
  | content => store id ⟨0, content⟩
  addEntry place.parent ⟨place.leaf, id⟩

def attach (path : String) (content : NewContent) : Attempt Tree InodeId := do
  let draft ← draft content
  let (place, id) ← prepare path content.kind
  finish place id draft
  return id

def copy (source target : String) : Attempt Tree InodeId := do
  let t ← get
  let bytes ← (← t.inode (← t.resolve source)).bytes
  attach target (.file bytes.shrink)

/-! ### Both tellings agree -/

theorem countLink_run {id : InodeId} (h : (t.view id).kind ≠ .free) :
    countLink id t = .ok () (t.addLink id) := by
  obtain ⟨i, hi, -⟩ := inode_of_kind h
  simp [countLink, bind_apply, hi]

theorem kind_setEntries {dir id : InodeId} {es : Buffer directoryPolicy Entry}
    (he : t.entries dir = .ok es) (es' : Buffer directoryPolicy Entry)
    (h : (t.view id).kind ≠ .free) : ((t.setEntries dir es').view id).kind ≠ .free := by
  obtain ⟨i, -, hi, -⟩ := entries_of_view (view_of_entries he)
  rw [view_setEntries (inode_eq_ok_iff.mp hi).1]
  by_cases hd : id = dir
  · rw [hd, Function.update_self]
    exact Kind.noConfusion
  · rwa [Function.update_of_ne hd]

theorem addEntry_eq (dir : InodeId) (e : Entry) : addEntry dir e = Tree.addEntry dir e := by
  funext t
  cases hi : t.inode e.inode with
  | error f => simp [addEntry, Tree.addEntry, atomically, bind_apply, hi, except_bind_error]
  | ok i =>
    cases he : t.entries dir with
    | error f =>
      simp [addEntry, Tree.addEntry, atomically, bind_apply, hi, he, except_bind_ok,
        except_bind_error]
    | ok es =>
      cases hp : Buffer.orFail .fileTooLarge (es.push e) with
      | error f =>
        simp [addEntry, Tree.addEntry, atomically, bind_apply, hi, he, hp, except_bind_ok]
      | ok es' =>
        have hlink := countLink_run (kind_setEntries he es' (view_of_inode hi).2)
        simp [addEntry, Tree.addEntry, atomically, bind_apply, hi, he, hp, except_bind_ok, hlink]

theorem reparent_eq (dir parent : InodeId) : reparent dir parent = Tree.reparent dir parent := by
  funext t
  cases hp : t.inode parent with
  | error f => simp [reparent, Tree.reparent, atomically, bind_apply, hp, except_bind_error]
  | ok p =>
    cases hd : p.isDirectory with
    | false => simp [reparent, Tree.reparent, atomically, bind_apply, hp, hd, except_bind_ok]
    | true =>
      cases he : t.entries dir with
      | error f =>
        simp [reparent, Tree.reparent, atomically, bind_apply, hp, hd, he, except_bind_ok,
          except_bind_error]
      | ok es =>
        cases hf : es.items.findFinIdx? (·.name == "..") with
        | none =>
          simp [reparent, Tree.reparent, atomically, bind_apply, hp, hd, he, hf, except_bind_ok]
        | some i =>
          have hlink := countLink_run
            (kind_setEntries he (repoint es i parent).2 (view_of_inode hp).2)
          simp [reparent, Tree.reparent, atomically, bind_apply, hp, hd, he, hf, except_bind_ok,
            hlink]
          rfl

theorem allocate_eq (kind : Kind) : allocate kind = Tree.allocate kind := by
  funext t
  by_cases hk : kind = .free
  · simp [allocate, Tree.allocate, atomically, bind_apply, hk]
  · cases hf : t.firstFree? with
    | some i =>
      simp [allocate, Tree.allocate, atomically, freeSlot, bind_apply, hk, hf]
      rfl
    | none =>
      cases hw : t.withRoom (t.slots.size + 1) with
      | error f =>
        simp [allocate, Tree.allocate, reserveSlots, atomically, freeSlot, capacity, bind_apply, hk,
          hf, hw, except_bind_error]
      | ok w =>
        obtain ⟨i, hi⟩ := firstFree?_of_withRoom hw
        simp [allocate, Tree.allocate, reserveSlots, atomically, freeSlot, capacity, bind_apply, hk,
          hf, hw, hi, except_bind_ok]
        rfl

theorem draft_directory : ∃ es, draft .directory = .ok (.directory es)
    ∧ ∀ self parent, addDots self parent es = .ok (bareEntries self parent) :=
  ⟨_, rfl, fun _ _ => rfl⟩

theorem draft_isOk (content : NewContent) : ∃ d, draft content = .ok d := by
  cases content with
  | file bytes => exact ⟨_, rfl⟩
  | directory => exact ⟨_, rfl⟩

/-- Finding out where something new goes either fails, and then nothing was made but room for
an entry, or gives a place with room and a slot. -/
theorem prepare_cases (t : Tree) (path : String) (kind : Kind) :
    (∃ e u, prepare path kind t = .error e u ∧ t.Unchanged u
      ∧ ∀ content : NewContent, content.kind = kind → Tree.attach path content t = .error e u)
      ∨ ∃ place id t₁ u, prepare path kind t = .ok (place, id) u ∧ t.locate path = .ok place
        ∧ place.existing = none ∧ validateName place.leaf = .ok ()
        ∧ reserveEntry place.parent t = .ok () t₁ ∧ Tree.allocate kind t₁ = .ok id u := by
  cases hl : t.locate path with
  | error e =>
    exact .inl ⟨e, t, by simp [prepare, bind_apply, hl], .refl t, fun _ _ => by
      simp [Tree.attach, bind_apply, hl]⟩
  | ok place =>
    cases hx : place.existing with
    | some there =>
      exact .inl ⟨.alreadyExists, t, by simp [prepare, bind_apply, hl, hx], .refl t, fun _ _ => by
        simp [Tree.attach, bind_apply, hl, hx]⟩
    | none =>
      cases hv : validateName place.leaf with
      | error e =>
        exact .inl ⟨e, t, by simp [prepare, bind_apply, hl, hx, hv], .refl t, fun _ _ => by
          simp [Tree.attach, bind_apply, hl, hx, hv]⟩
      | ok _ =>
        cases hr : reserveEntry place.parent t with
        | error e u =>
          exact .inl ⟨e, u, by simp [prepare, bind_apply, hl, hx, hv, hr],
            atomically_error hr ▸ .refl t, fun _ _ => by
              simp [Tree.attach, bind_apply, hl, hx, hv, hr]⟩
        | ok _ t₁ =>
          cases ha : Tree.allocate kind t₁ with
          | error e u =>
            exact .inl ⟨e, u, by
              simp [prepare, bind_apply, map_apply, hl, hx, hv, hr, allocate_eq, ha],
              atomically_error ha ▸ reserveEntry_unchanged hr, fun content hk => by
                simp [Tree.attach, bind_apply, hl, hx, hv, hr, hk, ha]⟩
          | ok id u =>
            exact .inr ⟨place, id, t₁, u, by
              simp [prepare, bind_apply, map_apply, hl, hx, hv, hr, allocate_eq, ha], rfl, hx, hv,
              hr, ha⟩

/-- Once something new has its slot, nothing that is still to be done fails. -/
theorem finish_run {t₁ u : Tree} {path : String} {place : Place} {id : InodeId}
    {content : NewContent} {d : Content} (hd : draft content = .ok d)
    (hl : t.locate path = .ok place) (hx : place.existing = none)
    (hv : validateName place.leaf = .ok ()) (hr : reserveEntry place.parent t = .ok () t₁)
    (ha : Tree.allocate content.kind t₁ = .ok id u) :
    ∃ w, finish place id d u = .ok () w ∧ Tree.attach path content t = .ok id w := by
  obtain ⟨hv₁, -, -, -, hk, hroom⟩ := reserveEntry_ok hr
  obtain ⟨v, w, hs, hadd, -⟩ := finish_attach place.leaf ha (hv₁ ▸ hk) (hv₁ ▸ hroom)
  refine ⟨w, ?_⟩
  cases content with
  | file bytes =>
    cases hd
    have ha : Tree.allocate .file t₁ = .ok id u := ha
    have hs : store id ⟨0, .file bytes⟩ u = .ok () v := hs
    have hadd : Tree.addEntry place.parent ⟨place.leaf, id⟩ v = .ok () w := hadd
    constructor
    · simp [finish, bind_apply, hs, addEntry_eq, hadd]
    · simp [Tree.attach, bind_apply, map_apply, hl, hx, hv, hr, NewContent.kind, ha,
        NewContent.inode, hs, hadd]
  | directory =>
    obtain ⟨es, hes, hdots⟩ := draft_directory
    obtain rfl : d = .directory es := Except.ok.inj (hd.symm.trans hes)
    obtain ⟨-, hfree, -, -, -, hu, -⟩ := allocate_ok ha
    -- the directory above is in another slot than the new one
    have hne : place.parent ≠ id := by
      intro he
      rw [hv₁, ← he, hk] at hfree
      cases hfree
    have hlink : countLink place.parent v = .ok () (v.addLink place.parent) := by
      refine countLink_run ?_
      rw [(store_ok hs).1, Function.update_of_ne hne, hu, Function.update_of_ne hne, hv₁, hk]
      exact Kind.noConfusion
    have ha : Tree.allocate .directory t₁ = .ok id u := ha
    have hs : store id ⟨1, .directory (bareEntries id place.parent)⟩ u = .ok () v := hs
    have hadd : Tree.addEntry place.parent ⟨place.leaf, id⟩ (v.addLink place.parent) = .ok () w :=
      hadd
    constructor
    · simp [finish, bind_apply, hdots, hs, hlink, addEntry_eq, hadd]
    · simp [Tree.attach, bind_apply, map_apply, hl, hx, hv, hr, NewContent.kind, ha,
        NewContent.inode, hs, hadd]

theorem attach_eq (path : String) (content : NewContent) :
    attach path content = Tree.attach path content := by
  funext t
  obtain ⟨d, hd⟩ := draft_isOk content
  rcases prepare_cases t path content.kind with
    ⟨e, u, hp, -, hfails⟩ | ⟨place, id, t₁, u, hp, hl, hx, hv, hr, ha⟩
  · simp [attach, bind_apply, hd, hp, hfails content rfl]
  · obtain ⟨w, hf, hattach⟩ := finish_run hd hl hx hv hr ha
    simp [attach, bind_apply, map_apply, hd, hp, hf, hattach]

theorem copy_eq (source target : String) : copy source target = Tree.copy source target := by
  simp only [copy, Tree.copy, attach_eq]

end Stepwise

/-! ### Failures -/

/-- A change of a tree, other than removing and moving by path. -/
inductive Change where
  | create (path : String)
  | mkdir (path : String)
  | copy (source target : String)
  | writeAt (id : InodeId) (start : Nat) (data : Array UInt8)
  | writePath (path : String) (start : Nat) (data : Array UInt8)
  | truncate (id : InodeId) (size : Nat)
  | changeDirectory (path : String)
  | enter (id : InodeId)
  | addEntry (dir : InodeId) (entry : Entry)
  | removeEntry (dir : InodeId) (name : String)
  | reparent (dir parent : InodeId)
  | allocate (kind : Kind)
  | release (id : InodeId)
  | store (id : InodeId) (inode : Inode)
  | reserveSlots (n : Nat)

namespace Change

/-- The change, whatever value it ends with. -/
def attempt : Change → Attempt Tree Unit
  | create path => discard (Tree.create path)
  | mkdir path => discard (Tree.mkdir path)
  | copy source target => discard (Tree.copy source target)
  | writeAt id start data => discard (Tree.writeAt id start data)
  | writePath path start data => discard (Tree.writePath path start data)
  | truncate id size => Tree.truncate id size
  | changeDirectory path => Tree.changeDirectory path
  | enter id => Tree.enter id
  | addEntry dir entry => Tree.addEntry dir entry
  | removeEntry dir name => discard (Tree.removeEntry dir name)
  | reparent dir parent => Tree.reparent dir parent
  | allocate kind => discard (Tree.allocate kind)
  | release id => Tree.release id
  | store id inode => Tree.store id inode
  | reserveSlots n => Tree.reserveSlots n

/-- The change with a check before each of its stores; one that stores but once is told by
`attempt` already. -/
def stepwise : Change → Attempt Tree Unit
  | create path => discard (Stepwise.attach path (.file Buffer.empty))
  | mkdir path => discard (Stepwise.attach path .directory)
  | copy source target => discard (Stepwise.copy source target)
  | addEntry dir entry => Stepwise.addEntry dir entry
  | reparent dir parent => Stepwise.reparent dir parent
  | allocate kind => discard (Stepwise.allocate kind)
  | c => c.attempt

theorem stepwise_eq (c : Change) : c.stepwise = c.attempt := by
  cases c with
  | create path => exact congrArg discard (Stepwise.attach_eq path _)
  | mkdir path => exact congrArg discard (Stepwise.attach_eq path _)
  | copy source target => exact congrArg discard (Stepwise.copy_eq source target)
  | addEntry dir entry => exact Stepwise.addEntry_eq dir entry
  | reparent dir parent => exact Stepwise.reparent_eq dir parent
  | allocate kind => exact congrArg discard (Stepwise.allocate_eq kind)
  | _ => rfl

end Change

/-- Where an attempt fails it leaves the tree alone. -/
def Spares {α : Type} (x : Attempt Tree α) : Prop := ∀ t e u, x t = .error e u → t.Unchanged u

namespace Spares

variable {α β : Type}

theorem discard {x : Attempt Tree α} (hx : Spares x) : Spares (discard x) := by
  intro t e u h
  refine hx t e u ?_
  have h : ((fun _ => ()) <$> x) t = .error e u := h
  rw [map_apply] at h
  cases hr : x t with
  | ok a v => simp [hr] at h
  | error e' v => simpa [hr] using h

theorem atomically {f : Tree → Except Failure (α × Tree)} : Spares (Attempt.atomically f) :=
  fun t _ _ h => atomically_error h ▸ .refl t

theorem get {f : Tree → Attempt Tree β} (hf : ∀ t, Spares (f t)) :
    Spares (MonadState.get >>= f) :=
  fun t e u h => hf t t e u (by rwa [bind_apply] at h)

theorem lift {x : Except Failure α} {f : α → Attempt Tree β} (hf : ∀ a, Spares (f a)) :
    Spares (liftM x >>= f) := by
  intro t e u h
  cases x with
  | ok a => exact hf a t e u (by rwa [bind_apply] at h)
  | error e' =>
    rw [bind_apply, lift_error_apply] at h
    cases h
    exact .refl t

theorem attach (path : String) (content : NewContent) : Spares (Tree.attach path content) := by
  intro t e u h
  obtain ⟨d, hd⟩ := Stepwise.draft_isOk content
  rcases Stepwise.prepare_cases t path content.kind with
    ⟨e', v, -, hun, hfails⟩ | ⟨place, id, t₁, v, -, hl, hx, hv, hr, ha⟩
  · rw [hfails content rfl] at h
    cases h
    exact hun
  · obtain ⟨w, -, hattach⟩ := Stepwise.finish_run hd hl hx hv hr ha
    rw [hattach] at h
    cases h

end Spares

theorem Change.spares (c : Change) : Spares c.attempt := by
  cases c with
  | create path => exact .discard (.attach path _)
  | mkdir path => exact .discard (.attach path _)
  | copy source target => exact .discard (.get fun t => .lift fun id => .lift fun i =>
      .lift fun bytes => .attach target _)
  | writeAt id start data => exact .discard .atomically
  | writePath path start data => exact .discard (.get fun t => .lift fun id => .atomically)
  | truncate id size => exact .atomically
  | changeDirectory path => exact .get fun t => .lift fun id => .atomically
  | enter id => exact .atomically
  | addEntry dir entry => exact .atomically
  | removeEntry dir name => exact .discard .atomically
  | reparent dir parent => exact .atomically
  | allocate kind => exact .discard .atomically
  | release id => exact .atomically
  | store id inode => exact .atomically
  | reserveSlots n => exact .atomically

/-- On every tree, whatever its slots hold: the change and the sequence of its stores end alike,
and where they fail they leave the tree alone.  What is made by path cannot fail any more once
it has its slot. -/
theorem unchanged_of_error (t : Tree) :
    (∀ c : Change, c.stepwise t = c.attempt t ∧ ∀ e u, c.attempt t = .error e u → t.Unchanged u)
      ∧ ∀ path content d place id u, Stepwise.draft content = .ok d →
        Stepwise.prepare path content.kind t = .ok (place, id) u →
        ∃ w, Stepwise.finish place id d u = .ok () w ∧ attach path content t = .ok id w := by
  refine ⟨fun c => ⟨congrFun c.stepwise_eq t, c.spares t⟩, ?_⟩
  intro path content d place id u hd hp
  rcases Stepwise.prepare_cases t path content.kind with
    ⟨e, v, he, -, -⟩ | ⟨_, _, t₁, _, hok, hl, hx, hv, hr, ha⟩
  · rw [he] at hp
    cases hp
  · rw [hok] at hp
    cases hp
    exact Stepwise.finish_run hd hl hx hv hr ha

/-- A second directory of a name is refused, and one of another name gets the next slot. -/
theorem unchanged_of_error_mkdir :
    let t := run [.mkdir "/a"] .empty
    ∃ d place u, Change.attempt (.mkdir "/a") t = .error .alreadyExists t ∧ t.Unchanged t
      ∧ Stepwise.draft .directory = .ok d
      ∧ Stepwise.prepare "/b" .directory t = .ok (place, ⟨2⟩) u
      ∧ ∃ w, Stepwise.finish place ⟨2⟩ d u = .ok () w ∧ mkdir "/b" t = .ok ⟨2⟩ w := by
  intro t
  obtain ⟨e, u, hfails, hu⟩ := fails_iff.mp
    (show (Change.attempt (.mkdir "/a")).fails t (fun e u => e = .alreadyExists && u = t) = true by
      decide +kernel)
  obtain ⟨⟨place, id⟩, v, hp, hid⟩ := succeeds_iff.mp
    (show (Stepwise.prepare "/b" .directory).succeeds t (fun r _ => r.2 = ⟨2⟩) = true by
      decide +kernel)
  obtain ⟨rfl, rfl⟩ : e = .alreadyExists ∧ u = t := by simpa using hu
  obtain rfl : id = ⟨2⟩ := by simpa using hid
  obtain ⟨es, hes, -⟩ := Stepwise.draft_directory
  have h := unchanged_of_error t
  exact ⟨_, place, v, hfails, (h.1 (.mkdir "/a")).2 _ _ hfails, hes, hp,
    h.2 "/b" .directory _ place ⟨2⟩ v hes hp⟩

end Tree

end SectorFs

import SectorFs.Proofs.Tree.WorkingPath

/-!
# Going up by `..`

Two walks go up by `..`: `isWithin` looks for a directory on the way to the root, and `workingPath`
asks for names on it.  A tree that was read from a damaged disk may send either round in circles, so
both have a bound on their steps.  The bound is exact (`bounded_walks_exact`): every step starts
in a slot of the table, so a walk that takes more steps than there are slots has come through one
of them twice (`Trail.length_le`), and then it goes round however often it may
(`isWithin_of_cycles`).  No walk that ends without a bound is cut off by it.  In a tree that calls
have made, where `..` leads to the directory that a directory lies in, no walk goes round.
-/

namespace SectorFs

open Attempt

open Relation (ReflTransGen TransGen)

namespace Tree

/-! ### Walks that go round -/

section

variable {r s : InodeId → InodeId → Prop} {a b c : InodeId}

/-- The walk from `a` comes to a place to which it comes again. -/
def Cycles (r : InodeId → InodeId → Prop) (a : InodeId) : Prop :=
  ∃ b, ReflTransGen r a b ∧ TransGen r b b

theorem Cycles.mono (h : ∀ x y, r x y → s x y) (hc : Cycles r a) : Cycles s a := by
  obtain ⟨b, hab, hbb⟩ := hc
  exact ⟨b, ReflTransGen.mono h _ _ hab, TransGen.mono h _ _ hbb⟩

theorem Cycles.head (h : r a b) (hc : Cycles r b) : Cycles r a := by
  obtain ⟨c, hbc, hcc⟩ := hc
  exact ⟨c, hbc.head h, hcc⟩

theorem Cycles.exists_step (hc : Cycles r a) : ∃ b, r a b := by
  obtain ⟨b, hab, hbb⟩ := hc
  rcases ReflTransGen.cases_head hab with rfl | ⟨c, hac, -⟩
  · obtain ⟨c, hac, -⟩ := TransGen.head'_iff.mp hbb
    exact ⟨c, hac⟩
  · exact ⟨c, hac⟩

/-- Where each place has one next place, a step does not leave the circle. -/
theorem Cycles.of_step (hr : Relator.RightUnique r) (hc : Cycles r a) (h : r a b) :
    Cycles r b := by
  obtain ⟨c, hac, hcc⟩ := hc
  rcases ReflTransGen.cases_head hac with rfl | ⟨d, had, hdc⟩
  · obtain ⟨d, had, hda⟩ := TransGen.head'_iff.mp hcc
    obtain rfl := hr had h
    exact ⟨d, .refl, TransGen.tail' hda had⟩
  · obtain rfl := hr had h
    exact ⟨c, hdc, hcc⟩

/-- Different places that a walk has come through on its way to `a`. -/
structure Trail (r : InodeId → InodeId → Prop) (seen : List InodeId) (a : InodeId) : Prop where
  nodup : seen.Nodup
  reaches : ∀ s ∈ seen, TransGen r s a

theorem trail_nil : Trail r [] a where
  nodup := List.nodup_nil
  reaches _ hs := absurd hs List.not_mem_nil

/-- A step makes the trail longer, or goes round. -/
theorem Trail.step {seen : List InodeId} (h : Trail r seen a) (hab : r a b) :
    Trail r (a :: seen) b ∨ Cycles r a := by
  by_cases ha : a ∈ seen
  · exact .inr ⟨a, .refl, h.reaches a ha⟩
  · refine .inl ⟨List.nodup_cons.mpr ⟨ha, h.nodup⟩, fun s hs => ?_⟩
    rcases List.mem_cons.mp hs with rfl | hs
    · exact .single hab
    · exact (h.reaches s hs).tail hab

/-- A walk whose steps start in a table of `n` slots has no longer trail. -/
theorem Trail.length_le {seen : List InodeId} {n : Nat} (h : Trail r seen a)
    (hn : ∀ x y, r x y → x.index < n) : seen.length ≤ n := by
  have hnodup : (seen.map InodeId.index).Nodup := h.nodup.map fun x y hxy => index_inj hxy
  have hsub : seen.map InodeId.index ⊆ List.range n := by
    intro i hi
    obtain ⟨s, hs, rfl⟩ := List.mem_map.mp hi
    obtain ⟨x, hx, -⟩ := TransGen.head'_iff.mp (h.reaches s hs)
    exact List.mem_range.mpr (hn s x hx)
  have hle := (hnodup.subperm hsub).length_le
  rwa [List.length_map, List.length_range] at hle

end

variable {t : Tree} {anc node up : InodeId} {below : List String}

/-! ### The two walks without a bound -/

/-- A step up from a directory that is neither `anc` nor the root. -/
def Climbs (t : Tree) (anc node up : InodeId) : Prop :=
  node ≠ anc ∧ node ≠ .root ∧ t.lookup node ".." = .ok up

/-- A step up that finds the name of the directory it comes from. -/
def Rises (t : Tree) (node up : InodeId) : Prop :=
  t.Climbs .root node up ∧ ∃ name, t.nameIn up node = .ok name

/-- What the search for `anc` answers where it ends. -/
inductive Answer (t : Tree) (anc : InodeId) : InodeId → Except Failure Bool → Prop
  | met : Answer t anc anc (.ok true)
  | passed (h : InodeId.root ≠ anc) : Answer t anc .root (.ok false)
  | lost {node : InodeId} {f : Failure} (ha : node ≠ anc) (hr : node ≠ .root)
    (h : t.lookup node ".." = .error f) : Answer t anc node (.error f)

/-- The walk that asks for names, as it goes without a bound: from `node` up, the names `below` it
being known, it ends with a result. -/
inductive Ascends (t : Tree) : InodeId → List String → Except Failure (List String) → Prop
  | root {below : List String} : Ascends t .root below (.ok below)
  | lost {node : InodeId} {below : List String} {f : Failure} (hr : node ≠ .root)
    (h : t.lookup node ".." = .error f) : Ascends t node below (.error f)
  | nameless {node up : InodeId} {below : List String} {f : Failure}
    (hc : t.Climbs .root node up) (hn : t.nameIn up node = .error f) :
    Ascends t node below (.error f)
  | step {node up : InodeId} {below : List String} {name : String}
    {result : Except Failure (List String)} (hc : t.Climbs .root node up)
    (hn : t.nameIn up node = .ok name) (hup : Ascends t up (name :: below) result) :
    Ascends t node below result

theorem rightUnique_climbs (t : Tree) (anc : InodeId) : Relator.RightUnique (t.Climbs anc) := by
  intro node up up' h h'
  exact Except.ok.inj (h.2.2.symm.trans h'.2.2)

theorem rightUnique_rises (t : Tree) : Relator.RightUnique t.Rises := by
  intro node up up' h h'
  exact rightUnique_climbs t .root h.1 h'.1

theorem Climbs.index_lt (h : t.Climbs anc node up) : node.index < t.capacity := by
  obtain ⟨names, hn, -⟩ := lookup_ok h.2.2
  have hk : (t.view node).kind = .directory := Payload.kind_eq_directory_iff.mpr ⟨names, hn⟩
  exact index_lt_of_kind (hk.trans_ne (by decide))

theorem lookup_ne_corrupted (t : Tree) (dir : InodeId) (name : String) :
    t.lookup dir name ≠ .error .corrupted := by
  by_cases hk : (t.view dir).kind = .directory
  · obtain ⟨es, hes⟩ := Payload.kind_eq_directory_iff.mp hk
    rw [lookup_of_view name hes]
    split <;> exact nofun
  · rw [lookup_of_not_mem fun x hx => hk (InodeView.kind_of_mem_entries hx)]
    split <;> exact nofun

/-! ### The search for a directory -/

theorem isWithin_of_climbs (h : t.Climbs anc node up) (steps : Nat) :
    t.isWithin anc (steps + 1) node = t.isWithin anc steps up := by
  rw [isWithin, if_neg h.1, if_neg h.2.1, h.2.2, except_bind_ok]

/-- A walk that goes round is stopped by the bound, whatever it is. -/
theorem isWithin_of_cycles (hc : Cycles (t.Climbs anc) node) (steps : Nat) :
    t.isWithin anc steps node = .error .corrupted := by
  induction steps generalizing node with
  | zero => rfl
  | succ steps ih =>
    obtain ⟨up, hup⟩ := hc.exists_step
    rw [isWithin_of_climbs hup]
    exact ih (hc.of_step (rightUnique_climbs t anc) hup)

/-- With a step left for every slot that was not come through, a walk ends or goes round. -/
theorem isWithin_ends_or_cycles {steps : Nat} {seen : List InodeId}
    (h : Trail (t.Climbs anc) seen node) (hsteps : t.capacity < seen.length + steps) :
    (∃ last, ReflTransGen (t.Climbs anc) node last ∧ t.Answer anc last (t.isWithin anc steps node))
      ∨ Cycles (t.Climbs anc) node := by
  induction steps generalizing node seen with
  | zero =>
    have hle := h.length_le fun _ _ hc => hc.index_lt
    omega
  | succ steps ih =>
    by_cases ha : node = anc
    · refine .inl ⟨node, .refl, ?_⟩
      rw [isWithin, if_pos ha, ha]
      exact .met
    · by_cases hr : node = .root
      · refine .inl ⟨node, .refl, ?_⟩
        rw [isWithin, if_neg ha, if_pos hr]
        subst hr
        exact .passed ha
      · cases hl : t.lookup node ".." with
        | error f =>
          refine .inl ⟨node, .refl, ?_⟩
          rw [isWithin, if_neg ha, if_neg hr, hl, except_bind_error]
          exact .lost ha hr hl
        | ok up =>
          have hc : t.Climbs anc node up := ⟨ha, hr, hl⟩
          rcases h.step hc with htrail | hcycles
          · rw [isWithin_of_climbs hc]
            rcases ih htrail (by rw [List.length_cons]; omega) with ⟨last, hlast, hans⟩ | hcycles
            · exact .inl ⟨last, hlast.head hc, hans⟩
            · exact .inr (hcycles.head hc)
          · exact .inr hcycles

theorem isWithin_walk (t : Tree) (anc node : InodeId) :
    (∃ last, ReflTransGen (t.Climbs anc) node last
      ∧ t.Answer anc last (t.isWithin anc (t.capacity + 1) node)) ∨ Cycles (t.Climbs anc) node :=
  isWithin_ends_or_cycles trail_nil (by simp)

/-- A search that ends is not changed by a larger bound. -/
theorem isWithin_eventually {last : InodeId} {result : Except Failure Bool}
    (hlast : ReflTransGen (t.Climbs anc) node last) (h : t.Answer anc last result) :
    ∃ k, ∀ steps, k ≤ steps → t.isWithin anc steps node = result := by
  induction hlast using ReflTransGen.head_induction_on with
  | refl =>
    refine ⟨1, fun steps hsteps => ?_⟩
    obtain ⟨steps, rfl⟩ := Nat.exists_eq_add_of_le' hsteps
    cases h with
    | met => exact if_pos rfl
    | passed ha => rw [isWithin, if_neg ha, if_pos rfl]
    | lost ha hr hl => rw [isWithin, if_neg ha, if_neg hr, hl, except_bind_error]
  | head hc _ ih =>
    obtain ⟨k, hk⟩ := ih
    refine ⟨k + 1, fun steps hsteps => ?_⟩
    obtain ⟨steps, rfl⟩ := Nat.exists_eq_add_of_le' (Nat.le_of_add_left_le hsteps)
    rw [isWithin_of_climbs hc]
    exact hk steps (Nat.le_of_succ_le_succ hsteps)

/-- What the search comes to without a bound is what it answers with this one. -/
theorem isWithin_of_answer {last : InodeId} {result : Except Failure Bool}
    (hlast : ReflTransGen (t.Climbs anc) node last) (h : t.Answer anc last result) :
    t.isWithin anc (t.capacity + 1) node = result := by
  obtain ⟨k, hk⟩ := isWithin_eventually hlast h
  rcases t.isWithin_walk anc node with ⟨last', hlast', h'⟩ | hcycles
  · obtain ⟨k', hk'⟩ := isWithin_eventually hlast' h'
    rw [← hk' (max k k') (Nat.le_max_right ..)]
    exact hk _ (Nat.le_max_left ..)
  · rw [isWithin_of_cycles hcycles, ← hk k (Nat.le_refl k), isWithin_of_cycles hcycles]

theorem isWithin_eq_iff {result : Except Failure Bool} (hresult : result ≠ .error .corrupted) :
    t.isWithin anc (t.capacity + 1) node = result
      ↔ ∃ last, ReflTransGen (t.Climbs anc) node last ∧ t.Answer anc last result := by
  constructor
  · rintro rfl
    rcases t.isWithin_walk anc node with hends | hcycles
    · exact hends
    · exact absurd (isWithin_of_cycles hcycles _) hresult
  · rintro ⟨last, hlast, h⟩
    exact isWithin_of_answer hlast h

theorem isWithin_corrupted_iff :
    t.isWithin anc (t.capacity + 1) node = .error .corrupted ↔ Cycles (t.Climbs anc) node := by
  constructor
  · intro h
    rcases t.isWithin_walk anc node with ⟨last, -, hans⟩ | hcycles
    · rw [h] at hans
      cases hans with
      | lost _ _ hl => exact absurd hl (t.lookup_ne_corrupted _ _)
    · exact hcycles
  · intro hcycles
    exact isWithin_of_cycles hcycles _

/-! ### The names on the way -/

theorem Rises.index_lt (h : t.Rises node up) : node.index < t.capacity := h.1.index_lt

theorem namesAbove_of_climbs (h : t.Climbs .root node up) (steps : Nat) :
    t.namesAbove (steps + 1) node below
      = t.nameIn up node >>= fun name => t.namesAbove steps up (name :: below) := by
  rw [namesAbove, if_neg h.2.1, h.2.2, except_bind_ok]

theorem namesAbove_of_cycles (hc : Cycles t.Rises node) (steps : Nat) :
    t.namesAbove steps node below = .error .corrupted := by
  induction steps generalizing node below with
  | zero =>
    obtain ⟨up, hup, -⟩ := hc.exists_step
    rw [namesAbove, if_neg hup.2.1]
  | succ steps ih =>
    obtain ⟨up, hup⟩ := hc.exists_step
    have hnext := hc.of_step t.rightUnique_rises hup
    obtain ⟨hclimb, name, hname⟩ := hup
    rw [namesAbove_of_climbs hclimb, hname, except_bind_ok]
    exact ih hnext

/-- With a step left for every slot that was not come through, the names are found, or one cannot
be found, or the walk goes round. -/
theorem namesAbove_ascends_or_cycles {steps : Nat} {seen : List InodeId}
    (h : Trail t.Rises seen node) (hsteps : t.capacity < seen.length + steps) :
    t.Ascends node below (t.namesAbove steps node below) ∨ Cycles t.Rises node := by
  induction steps generalizing node seen below with
  | zero =>
    have hle := h.length_le fun _ _ hc => hc.index_lt
    omega
  | succ steps ih =>
    by_cases hr : node = .root
    · subst hr
      rw [namesAbove_root]
      exact .inl .root
    · cases hl : t.lookup node ".." with
      | error f =>
        rw [namesAbove, if_neg hr, hl, except_bind_error]
        exact .inl (.lost hr hl)
      | ok up =>
        have hc : t.Climbs .root node up := ⟨hr, hr, hl⟩
        rw [namesAbove_of_climbs hc]
        cases hn : t.nameIn up node with
        | error f =>
          rw [except_bind_error]
          exact .inl (.nameless hc hn)
        | ok name =>
          have hrise : t.Rises node up := ⟨hc, name, hn⟩
          rw [except_bind_ok]
          rcases h.step hrise with htrail | hcycles
          · have hwalk : t.Ascends up (name :: below) (t.namesAbove steps up (name :: below))
                ∨ Cycles t.Rises up := ih htrail (by rw [List.length_cons]; omega)
            rcases hwalk with hends | hcycles
            · exact .inl (.step hc hn hends)
            · exact .inr (hcycles.head hrise)
          · exact .inr hcycles

theorem namesAbove_walk (t : Tree) (node : InodeId) (below : List String) :
    t.Ascends node below (t.namesAbove (t.capacity + 1) node below) ∨ Cycles t.Rises node :=
  namesAbove_ascends_or_cycles trail_nil (by simp)

/-- A walk that ends is not changed by a larger bound. -/
theorem Ascends.eventually {result : Except Failure (List String)}
    (h : t.Ascends node below result) :
    ∃ k, ∀ steps, k ≤ steps → t.namesAbove steps node below = result := by
  induction h with
  | root => exact ⟨0, fun steps _ => namesAbove_root ..⟩
  | lost hr hl =>
    refine ⟨1, fun steps hsteps => ?_⟩
    obtain ⟨steps, rfl⟩ := Nat.exists_eq_add_of_le' hsteps
    rw [namesAbove, if_neg hr, hl, except_bind_error]
  | nameless hc hn =>
    refine ⟨1, fun steps hsteps => ?_⟩
    obtain ⟨steps, rfl⟩ := Nat.exists_eq_add_of_le' hsteps
    rw [namesAbove_of_climbs hc, hn, except_bind_error]
  | step hc hn _ ih =>
    obtain ⟨k, hk⟩ := ih
    refine ⟨k + 1, fun steps hsteps => ?_⟩
    obtain ⟨steps, rfl⟩ := Nat.exists_eq_add_of_le' (Nat.le_of_add_left_le hsteps)
    rw [namesAbove_of_climbs hc, hn, except_bind_ok]
    exact hk steps (Nat.le_of_succ_le_succ hsteps)

/-- What the walk comes to without a bound is what it ends with under this one. -/
theorem Ascends.namesAbove_eq {result : Except Failure (List String)}
    (h : t.Ascends node below result) :
    t.namesAbove (t.capacity + 1) node below = result := by
  obtain ⟨k, hk⟩ := h.eventually
  rcases t.namesAbove_walk node below with hends | hcycles
  · obtain ⟨k', hk'⟩ := hends.eventually
    rw [← hk' (max k k') (Nat.le_max_right ..)]
    exact hk _ (Nat.le_max_left ..)
  · rw [namesAbove_of_cycles hcycles, ← hk k (Nat.le_refl k), namesAbove_of_cycles hcycles]

end Tree

namespace Path

/-- The path that is told by the names on the way down. -/
def ofNames : List String → String
  | [] => "/"
  | names => below names

end Path

namespace Tree

variable {t : Tree} {anc node up : InodeId} {below : List String}

/-! ### Counting lookups -/

/-- A lookup of `..` that is counted. -/
def lookUp (t : Tree) (node : InodeId) : Attempt Nat InodeId := do
  modify (· + 1)
  t.lookup node ".."

/-- The search for a directory, which counts its lookups. -/
def countedWithin (t : Tree) (anc : InodeId) : Nat → InodeId → Attempt Nat Bool
  | 0, _ => throw .corrupted
  | steps + 1, node =>
    if node = anc then return true
    else if node = .root then return false
    else do t.countedWithin anc steps (← t.lookUp node)

/-- The walk that asks for names, which counts its lookups. -/
def countedNames (t : Tree) (steps : Nat) (node : InodeId) (below : List String) :
    Attempt Nat (List String) :=
  if node = .root then return below
  else
    match steps with
    | 0 => throw .corrupted
    | steps + 1 => do
      let parent ← t.lookUp node
      let name ← t.nameIn parent node
      t.countedNames steps parent (name :: below)

theorem lookUp_apply (t : Tree) (node : InodeId) (n : Nat) :
    t.lookUp node n = ofExcept (t.lookup node "..") (n + 1) := rfl

/-- The search does one lookup for each step, at most. -/
theorem countedWithin_apply (t : Tree) (anc : InodeId) (steps : Nat) (node : InodeId) (n : Nat) :
    ∃ k ≤ steps, t.countedWithin anc steps node n
      = ofExcept (t.isWithin anc steps node) (n + k) := by
  induction steps generalizing node n with
  | zero => exact ⟨0, Nat.le_refl 0, rfl⟩
  | succ steps ih =>
    by_cases ha : node = anc
    · refine ⟨0, Nat.zero_le _, ?_⟩
      rw [countedWithin, isWithin, if_pos ha, if_pos ha]
      rfl
    · by_cases hr : node = .root
      · refine ⟨0, Nat.zero_le _, ?_⟩
        rw [countedWithin, isWithin, if_neg ha, if_neg ha, if_pos hr, if_pos hr]
        rfl
      · rw [countedWithin, isWithin, if_neg ha, if_neg ha, if_neg hr, if_neg hr, bind_apply,
          lookUp_apply]
        cases hl : t.lookup node ".." with
        | error f => exact ⟨1, Nat.le_add_left .., rfl⟩
        | ok up =>
          obtain ⟨k, hk, hcount⟩ := ih up (n + 1)
          refine ⟨k + 1, Nat.succ_le_succ hk, ?_⟩
          rw [except_bind_ok, Nat.add_comm k 1, ← Nat.add_assoc]
          exact hcount

theorem countedNames_apply (t : Tree) (steps : Nat) (node : InodeId) (below : List String)
    (n : Nat) :
    ∃ k ≤ steps, t.countedNames steps node below n
      = ofExcept (t.namesAbove steps node below) (n + k) := by
  induction steps generalizing node below n with
  | zero =>
    refine ⟨0, Nat.le_refl 0, ?_⟩
    rw [countedNames, namesAbove]
    split <;> rfl
  | succ steps ih =>
    by_cases hr : node = .root
    · refine ⟨0, Nat.zero_le _, ?_⟩
      rw [countedNames, namesAbove, if_pos hr, if_pos hr]
      rfl
    · rw [countedNames, namesAbove, if_neg hr, if_neg hr, bind_apply, lookUp_apply]
      cases hl : t.lookup node ".." with
      | error f => exact ⟨1, Nat.le_add_left .., rfl⟩
      | ok up =>
        simp only [ofExcept_ok]
        rw [except_bind_ok]
        cases hn : t.nameIn up node with
        | error f => exact ⟨1, Nat.le_add_left .., rfl⟩
        | ok name =>
          obtain ⟨k, hk, hcount⟩ := ih up (name :: below) (n + 1)
          refine ⟨k + 1, Nat.succ_le_succ hk, ?_⟩
          rw [except_bind_ok, Nat.add_comm k 1, ← Nat.add_assoc]
          exact hcount

/-- The path of the working directory, asked for with lookups counted. -/
def countedPath (t : Tree) : Attempt Nat String := do
  return Path.ofNames (← t.countedNames (t.capacity + 1) t.cwd [])

theorem workingPath_map (t : Tree) :
    t.workingPath = (t.namesAbove (t.capacity + 1) t.cwd []).map Path.ofNames := by
  unfold workingPath
  cases t.namesAbove (t.capacity + 1) t.cwd [] with
  | error f => rfl
  | ok names =>
    rw [except_bind_ok]
    cases names with
    | nil => rfl
    | cons name names => rfl

theorem countedPath_apply (t : Tree) :
    ∃ k ≤ t.capacity + 1, t.countedPath 0 = ofExcept t.workingPath k := by
  obtain ⟨k, hk, hcount⟩ := t.countedNames_apply (t.capacity + 1) t.cwd [] 0
  refine ⟨k, hk, ?_⟩
  rw [countedPath, bind_apply, hcount, workingPath_map, Nat.zero_add]
  cases t.namesAbove (t.capacity + 1) t.cwd [] with
  | error f => rfl
  | ok names => rfl

/-! ### In a sound tree -/

namespace Sound

theorem liesIn_of_climbs (h : t.Sound) (hc : t.Climbs anc node up) : t.LiesIn node up := by
  have hm := h.lookup_eq_ok_iff.mp hc.2.2
  rcases h.entry_cases hm with hself | ⟨-, -, hlies⟩ | hproper
  · exact absurd (congrArg Entry.name hself) (show ¬".." = "." by decide)
  · exact hlies hc.2.1
  · exact absurd rfl hproper.2

/-- What a directory lies in does not lie below it. -/
theorem not_cycles (h : t.Sound) : ¬Cycles (t.Climbs anc) node := by
  rintro ⟨mid, -, hround⟩
  obtain ⟨up, hup, hback⟩ := TransGen.head'_iff.mp hround
  exact h.not_below (h.liesIn_of_climbs hup)
    (ReflTransGen.mono (fun _ _ hc => h.liesIn_of_climbs hc) _ _ hback)

theorem workingPath_isOk (h : t.Sound) : ∃ path, t.workingPath = .ok path := by
  obtain ⟨names, hp⟩ := h.exists_path (h.cwd_kind.trans_ne (by decide))
  exact ⟨_, h.workingPath_eq hp⟩

end Sound

/-! ### Both walks -/

/-- The search for `anc` from `node` up answers just what the way up says, and the bound is met by
walks that go round only. -/
structure SearchesUp (t : Tree) (anc node : InodeId) : Prop where
  lookups_le : ∃ k ≤ t.capacity + 1, t.countedWithin anc (t.capacity + 1) node 0
    = ofExcept (t.isWithin anc (t.capacity + 1) node) k
  ok_true_iff : t.isWithin anc (t.capacity + 1) node = .ok true
    ↔ ReflTransGen (t.Climbs anc) node anc
  ok_false_iff : t.isWithin anc (t.capacity + 1) node = .ok false
    ↔ anc ≠ .root ∧ ReflTransGen (t.Climbs anc) node .root
  error_iff : ∀ f, f ≠ .corrupted → (t.isWithin anc (t.capacity + 1) node = .error f
    ↔ ∃ last, ReflTransGen (t.Climbs anc) node last ∧ last ≠ anc ∧ last ≠ .root
      ∧ t.lookup last ".." = .error f)
  corrupted_iff : t.isWithin anc (t.capacity + 1) node = .error .corrupted
    ↔ Cycles (t.Climbs anc) node
  /-- No lookup reports what the bound does. -/
  lookup_ne : ∀ last, t.lookup last ".." ≠ .error .corrupted

theorem searchesUp (t : Tree) (anc node : InodeId) : t.SearchesUp anc node where
  lookups_le := by
    obtain ⟨k, hk, hcount⟩ := t.countedWithin_apply anc (t.capacity + 1) node 0
    rw [Nat.zero_add] at hcount
    exact ⟨k, hk, hcount⟩
  ok_true_iff := by
    rw [isWithin_eq_iff (by exact nofun)]
    constructor
    · rintro ⟨last, hlast, hans⟩
      cases hans with
      | met => exact hlast
    · intro hlast
      exact ⟨anc, hlast, .met⟩
  ok_false_iff := by
    rw [isWithin_eq_iff (by exact nofun)]
    constructor
    · rintro ⟨last, hlast, hans⟩
      cases hans with
      | passed ha => exact ⟨ha.symm, hlast⟩
    · rintro ⟨ha, hlast⟩
      exact ⟨.root, hlast, .passed ha.symm⟩
  error_iff f hf := by
    rw [isWithin_eq_iff fun he => hf (Except.error.inj he)]
    constructor
    · rintro ⟨last, hlast, hans⟩
      cases hans with
      | lost ha hr hl => exact ⟨last, hlast, ha, hr, hl⟩
    · rintro ⟨last, hlast, ha, hr, hl⟩
      exact ⟨last, hlast, .lost ha hr hl⟩
  corrupted_iff := isWithin_corrupted_iff
  lookup_ne last := t.lookup_ne_corrupted last ".."

/-- The path of the working directory is what the walk up comes to without a bound, and only a
walk that goes round comes to nothing. -/
structure AsksUp (t : Tree) : Prop where
  lookups_le : ∃ k ≤ t.capacity + 1, t.countedPath 0 = ofExcept t.workingPath k
  of_ascends : ∀ result, t.Ascends t.cwd [] result → t.workingPath = result.map Path.ofNames
  of_not_ascends : (∀ result, ¬t.Ascends t.cwd [] result) →
    t.workingPath = .error .corrupted ∧ Cycles (t.Climbs .root) t.cwd

theorem asksUp (t : Tree) : t.AsksUp where
  lookups_le := t.countedPath_apply
  of_ascends result h := by rw [workingPath_map, h.namesAbove_eq]
  of_not_ascends hnot := by
    have hcycles := (t.namesAbove_walk t.cwd []).resolve_left (hnot _)
    rw [workingPath_map, namesAbove_of_cycles hcycles]
    exact ⟨rfl, hcycles.mono fun _ _ hrise => hrise.1⟩

/-- Whatever a tree holds, both walks do at most one lookup more than there are slots, and cut off
no walk that would end.  In a tree that calls have made neither goes round. -/
theorem bounded_walks_exact :
    (∀ t : Tree, (∀ anc node, t.SearchesUp anc node) ∧ t.AsksUp)
      ∧ ∀ calls : List Call,
        (∀ anc node, (run calls .empty).isWithin anc ((run calls .empty).capacity + 1) node
          ≠ .error .corrupted)
        ∧ (run calls .empty).workingPath ≠ .error .corrupted := by
  constructor
  · intro t
    exact ⟨fun anc node => t.searchesUp anc node, t.asksUp⟩
  · intro calls
    have h : (run calls .empty).Sound := (sound_blank ..).calls calls
    refine ⟨fun anc node hcut => h.not_cycles (isWithin_corrupted_iff.mp hcut), fun hcut => ?_⟩
    obtain ⟨path, hpath⟩ := h.workingPath_isOk
    cases hpath.symm.trans hcut

/-- Two directories that lie in each other send a search for the root round and round. -/
example : ((Tree.empty.setSlot 1 ⟨2, .directory (bareEntries (.ofIndex 1) (.ofIndex 2))⟩).setSlot 2
    ⟨2, .directory (bareEntries (.ofIndex 2) (.ofIndex 1))⟩).isWithin .root 65 (.ofIndex 1)
      = .error .corrupted := by decide +kernel

end Tree

end SectorFs

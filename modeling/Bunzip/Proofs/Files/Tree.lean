import Bunzip.Files.Tree
import Mathlib

/-!
# What the operations on files do

A path that names an entry leads to a spot, be anything there or not. Each operation changes what is
at that spot and nothing else. None of them makes or removes a directory, so that every path leads to
the same spot afterwards.
-/

namespace Bunzip.Files

theorem Spot.child_names_ne_nil (dir : Spot) (name : String) : (dir.child name).names ≠ [] := by
  simp [child]

theorem Spot.child_injective {dir : Spot} {name other : String}
    (h : dir.child name = dir.child other) : name = other := by
  simpa [child] using h

namespace Tree

variable {tree before after : Tree} {spot other : Spot} {node : Node} {data : ByteArray}
  {path : String}

/-! ## What is at a spot -/

theorem lookup_filter (nodes : List (Spot × Node)) :
    (nodes.filter fun entry => entry.1 ≠ spot).lookup other
      = if other = spot then none else nodes.lookup other := by
  induction nodes with
  | nil => simp
  | cons entry nodes ih =>
    obtain ⟨key, held⟩ := entry
    by_cases hkey : key = spot
    · rw [List.filter_cons_of_neg (by simpa using hkey), ih, List.lookup_cons]
      by_cases hother : other = spot
      · rw [if_pos hother, if_pos hother]
      · rw [if_neg hother, if_neg hother, beq_false_of_ne (hkey ▸ hother)]
    · rw [List.filter_cons_of_pos (by simpa using hkey), List.lookup_cons, List.lookup_cons, ih]
      by_cases hother : other = spot
      · rw [if_pos hother, if_pos hother, beq_false_of_ne fun h => hkey (h.symm.trans hother)]
      · rw [if_neg hother, if_neg hother]

theorem node?_erase_self (h : spot.names ≠ []) : (tree.erase spot).node? spot = none := by
  rw [node?, if_neg h, erase, lookup_filter, if_pos rfl]

theorem node?_erase_of_ne (h : other ≠ spot) : (tree.erase spot).node? other = tree.node? other := by
  rw [node?, erase, lookup_filter, if_neg h, node?]

theorem node?_put_self (h : spot.names ≠ []) : (tree.put spot node).node? spot = some node := by
  simp [node?, if_neg h, put]

theorem node?_put_of_ne (h : other ≠ spot) :
    (tree.put spot node).node? other = tree.node? other := by
  rw [node?, put, List.lookup_cons, beq_false_of_ne h]
  exact node?_erase_of_ne h

theorem erase_of_node?_eq_none (h : spot.names ≠ []) (hnone : tree.node? spot = none) :
    tree.erase spot = tree := by
  rw [node?, if_neg h, List.lookup_eq_none_iff] at hnone
  have hall : tree.nodes.filter (fun entry => entry.1 ≠ spot) = tree.nodes := by
    refine List.filter_eq_self.mpr fun entry hentry => ?_
    have hne : spot ≠ entry.1 := by simpa using hnone entry hentry
    simpa using hne.symm
  rw [erase, hall]

theorem erase_put : (tree.put spot node).erase spot = tree.erase spot := by
  simp [erase, put, List.filter_filter]

theorem put_put {last : Node} : (tree.put spot node).put spot last = tree.put spot last := by
  rw [put, erase_put, put]
  simp only [put]

/-! ## The spot that a path leads to -/

/-- The spot of the entry that a path names; none if it leads nowhere, or only to a directory. -/
def spot? (tree : Tree) (path : String) : Option Spot :=
  match tree.target path with
  | .ok (.entry dir name false) =>
    if name.utf8ByteSize ≤ nameLimit then some (dir.child name) else none
  | _ => none

theorem spot?_eq_some_iff : tree.spot? path = some spot ↔ ∃ dir name,
    tree.target path = .ok (.entry dir name false) ∧ name.utf8ByteSize ≤ nameLimit
      ∧ spot = dir.child name := by
  rw [spot?]
  split
  · next dir name htarget =>
    split
    · next hshort =>
      constructor
      · intro h
        exact ⟨dir, name, htarget, hshort, (Option.some.inj h).symm⟩
      · rintro ⟨dir', name', htarget', -, rfl⟩
        rw [htarget] at htarget'
        cases htarget'
        rfl
    · next hlong =>
      constructor
      · intro h
        cases h
      · rintro ⟨dir', name', htarget', hshort, -⟩
        rw [htarget] at htarget'
        cases htarget'
        exact absurd hshort hlong
  · next hother =>
    constructor
    · intro h
      cases h
    · rintro ⟨dir, name, htarget, -⟩
      exact absurd htarget (hother dir name)

theorem names_of_spot? (h : tree.spot? path = some spot) : spot.names ≠ [] := by
  obtain ⟨dir, name, -, -, rfl⟩ := spot?_eq_some_iff.mp h
  exact dir.child_names_ne_nil name

/-! ## Following paths in a tree with the same directories -/

/-- The same directories, and the same one to work in. -/
structure SameDirectories (before after : Tree) : Prop where
  home : after.home = before.home
  directory : ∀ spot, after.node? spot = some .directory ↔ before.node? spot = some .directory

theorem SameDirectories.symm (h : SameDirectories before after) : SameDirectories after before :=
  ⟨h.home.symm, fun spot => (h.directory spot).symm⟩

/-- What is no directory can be replaced by a file. -/
theorem sameDirectories_put (h : spot.names ≠ []) (hnode : tree.node? spot ≠ some .directory) :
    SameDirectories tree (tree.put spot (.file data)) := by
  refine ⟨rfl, fun other => ?_⟩
  by_cases hother : other = spot
  · rw [hother, node?_put_self h]
    exact ⟨nofun, fun hdirectory => absurd hdirectory hnode⟩
  · rw [node?_put_of_ne hother]

/-- What is no directory can be removed. -/
theorem sameDirectories_erase (h : spot.names ≠ []) (hnode : tree.node? spot ≠ some .directory) :
    SameDirectories tree (tree.erase spot) := by
  refine ⟨rfl, fun other => ?_⟩
  by_cases hother : other = spot
  · rw [hother, node?_erase_self h]
    exact ⟨nofun, fun hdirectory => absurd hdirectory hnode⟩
  · rw [node?_erase_of_ne hother]

theorem find_eq_ok_iff {dir : Spot} {name : String} :
    tree.find dir name = .ok node
      ↔ name.utf8ByteSize ≤ nameLimit ∧ tree.node? (dir.child name) = some node := by
  rw [find]
  split
  · next hlong => exact ⟨nofun, fun h => absurd h.1 (Nat.not_le.mpr hlong)⟩
  · next hshort =>
    cases tree.node? (dir.child name) with
    | none => simp
    | some node => simpa using fun _ => Nat.not_lt.mp hshort

theorem node?_of_noSuchFile {dir : Spot} {name : String}
    (h : tree.find dir name = .error .noSuchFile) :
    name.utf8ByteSize ≤ nameLimit ∧ tree.node? (dir.child name) = none := by
  rw [find] at h
  split at h
  · cases h
  · next hshort =>
    cases hnode : tree.node? (dir.child name) with
    | none => exact ⟨Nat.not_lt.mp hshort, rfl⟩
    | some node => rw [hnode] at h; cases h

theorem step_eq_ok (h : SameDirectories before after) {dir last : Spot} {name : String}
    (hstep : before.step dir name = .ok last) : after.step dir name = .ok last := by
  rw [step] at hstep ⊢
  split at hstep
  · next hdot => rw [if_pos hdot]; exact hstep
  · next hdot =>
    rw [if_neg hdot]
    split at hstep
    · next hdots => rw [if_pos hdots]; exact hstep
    · next hdots =>
      rw [if_neg hdots]
      split at hstep
      · cases hstep
      · cases hstep
      · next hfind =>
        obtain ⟨hshort, hnode⟩ := find_eq_ok_iff.mp hfind
        rw [find_eq_ok_iff.mpr ⟨hshort, (h.directory _).mpr hnode⟩]
        exact hstep

theorem walk_eq_ok (h : SameDirectories before after) {dir : Spot} {names : List String}
    {reached : Spot × Option String} (hwalk : before.walk dir names = .ok reached) :
    after.walk dir names = .ok reached := by
  induction names generalizing dir with
  | nil => exact hwalk
  | cons name rest ih =>
    cases rest with
    | nil => exact hwalk
    | cons next rest =>
      rw [walk] at hwalk ⊢
      · cases hstep : before.step dir name with
        | error error => rw [hstep] at hwalk; cases hwalk
        | ok middle =>
          rw [hstep] at hwalk
          rw [step_eq_ok h hstep]
          exact ih hwalk
      · simp
      · simp

theorem target_eq_ok (h : SameDirectories before after) {target : Target}
    (htarget : before.target path = .ok target) : after.target path = .ok target := by
  rw [Tree.target] at htarget ⊢
  split at htarget
  · cases htarget
  · next parsed hparsed =>
    rw [h.home]
    split at htarget
    · cases htarget
    · next hwalk => rw [walk_eq_ok h hwalk]; exact htarget
    · next hwalk => rw [walk_eq_ok h hwalk]; exact htarget

/-- A path leads to the same spot in every tree with the same directories. -/
theorem SameDirectories.spot?_eq (h : SameDirectories before after) (path : String) :
    after.spot? path = before.spot? path := by
  ext spot
  rw [spot?_eq_some_iff, spot?_eq_some_iff]
  constructor
  · rintro ⟨dir, name, htarget, hname⟩
    exact ⟨dir, name, target_eq_ok h.symm htarget, hname⟩
  · rintro ⟨dir, name, htarget, hname⟩
    exact ⟨dir, name, target_eq_ok h htarget, hname⟩

/-! ## The operations -/

/-- What can be opened is a file, or a directory, which cannot be read. -/
theorem openFile_eq_ok {source : Source} (h : tree.openFile path = .ok source) :
    (∃ spot data, tree.spot? path = some spot ∧ tree.node? spot = some (.file data)
      ∧ source = .ofBytes data) ∨ source = ⟨[.fault .isDirectory]⟩ := by
  rw [openFile] at h
  split at h
  · cases h
  · cases h
    exact .inr rfl
  · next dir name slash htarget =>
    split at h
    · cases h
    · cases h
      exact .inr rfl
    · next data hfind =>
      obtain ⟨hshort, hnode⟩ := find_eq_ok_iff.mp hfind
      cases slash with
      | true => cases h
      | false =>
        cases h
        exact .inl ⟨_, data, spot?_eq_some_iff.mpr ⟨dir, name, htarget, hshort, rfl⟩, hnode, rfl⟩

/-- Only where there is nothing is a file created, or over another file if that is allowed. -/
theorem createFile_eq_ok {overwrite : Bool} (h : tree.createFile path overwrite = .ok after) :
    ∃ spot, tree.spot? path = some spot ∧ after = tree.put spot (.file ByteArray.empty)
      ∧ (tree.node? spot = none
        ∨ overwrite = true ∧ ∃ old, tree.node? spot = some (.file old)) := by
  rw [createFile] at h
  split at h
  · cases h
  · cases h
  · next dir name slash htarget =>
    split at h
    · cases h
    · next hslash =>
      rw [Bool.not_eq_true] at hslash
      subst hslash
      split at h
      · cases h
      · next old hfind =>
        obtain ⟨hshort, hnode⟩ := find_eq_ok_iff.mp hfind
        split at h
        · next hoverwrite =>
          cases h
          exact ⟨_, spot?_eq_some_iff.mpr ⟨dir, name, htarget, hshort, rfl⟩, rfl,
            .inr ⟨hoverwrite, old, hnode⟩⟩
        · cases h
      · next error hfind =>
        split at h
        · next hmissing =>
          obtain ⟨hshort, hnode⟩ := node?_of_noSuchFile (hmissing ▸ hfind)
          cases h
          exact ⟨_, spot?_eq_some_iff.mpr ⟨dir, name, htarget, hshort, rfl⟩, rfl, .inl hnode⟩
        · cases h

theorem fillFile_of_node? {old : ByteArray} (data : ByteArray) (h : tree.spot? path = some spot)
    (hnode : tree.node? spot = some (.file old)) :
    tree.fillFile path data = .ok (tree.put spot (.file data)) := by
  obtain ⟨dir, name, htarget, hshort, rfl⟩ := spot?_eq_some_iff.mp h
  simp only [fillFile, htarget, find_eq_ok_iff.mpr ⟨hshort, hnode⟩, Bool.false_eq_true, if_false]

theorem removeFile_of_node? (h : tree.spot? path = some spot)
    (hnode : tree.node? spot = some (.file data)) : tree.removeFile path = .ok (tree.erase spot) := by
  obtain ⟨dir, name, htarget, hshort, rfl⟩ := spot?_eq_some_iff.mp h
  simp only [removeFile, htarget, find_eq_ok_iff.mpr ⟨hshort, hnode⟩, Bool.false_eq_true, if_false]

end Tree

end Bunzip.Files

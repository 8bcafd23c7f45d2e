import Bunzip.Command.OutputName
import Bunzip.Proofs.Files.Tree

/-!
# An output stands beside its input

A name that may mean a file ends with a text that has no slash in it. The name of its output differs
from it in that text alone. So the two lead to different spots in one directory.
-/

namespace Bunzip

namespace Files

/-! ## The texts between slashes -/

theorem splitSlashes_ne_nil (chars : List Char) : splitSlashes chars ≠ [] := by
  cases chars with
  | nil => simp [splitSlashes]
  | cons c rest =>
    rw [splitSlashes]
    split
    · simp
    · split <;> simp

theorem splitSlashes_of_not_mem {chars : List Char} (h : '/' ∉ chars) :
    splitSlashes chars = [chars] := by
  induction chars with
  | nil => rfl
  | cons c rest ih =>
    rw [List.mem_cons, not_or] at h
    rw [splitSlashes, if_neg (Ne.symm h.1), ih h.2]

theorem splitSlashes_append_slash (front rest : List Char) :
    splitSlashes (front ++ '/' :: rest) = splitSlashes front ++ splitSlashes rest := by
  induction front with
  | nil => simp [splitSlashes]
  | cons c front ih =>
    by_cases hc : c = '/'
    · rw [List.cons_append, splitSlashes, if_pos hc, splitSlashes, if_pos hc, ih, List.cons_append]
    · rw [List.cons_append, splitSlashes, if_neg hc, ih, splitSlashes, if_neg hc]
      cases hfront : splitSlashes front with
      | nil => exact absurd hfront (splitSlashes_ne_nil front)
      | cons first others => rfl

/-- A directory in front of a name: nothing, or a text that ends with a slash. -/
def IsFront (front : List Char) : Prop := front = [] ∨ front.getLast? = some '/'

/-- The names that a path leads through before its last one. -/
def frontNames (front : List Char) : List (List Char) := (splitSlashes front).filter (· ≠ [])

theorem filter_splitSlashes {front last : List Char} (hfront : IsFront front) (hlast : last ≠ [])
    (hslash : '/' ∉ last) :
    (splitSlashes (front ++ last)).filter (· ≠ []) = frontNames front ++ [last] := by
  have hsplit := splitSlashes_of_not_mem hslash
  obtain rfl | hfront := hfront
  · simp [frontNames, hsplit, hlast, splitSlashes]
  · obtain ⟨dir, rfl⟩ := List.getLast?_eq_some_iff.mp hfront
    rw [List.append_assoc, List.singleton_append, splitSlashes_append_slash, frontNames,
      splitSlashes_append_slash, hsplit]
    simp [hlast, splitSlashes]

/-- Whether a path starts at the root shows in front of its last name. -/
theorem head?_front {front last : List Char} (hslash : '/' ∉ last) :
    ((front ++ last).head? == some '/') = (front.head? == some '/') := by
  cases front with
  | cons c front => rfl
  | nil =>
    cases last with
    | nil => rfl
    | cons c last =>
      rw [List.mem_cons, not_or] at hslash
      simpa using Ne.symm hslash.1

/-- A text that does not end with a slash ends with one that has none. -/
theorem exists_front {chars : List Char} (hsome : chars ≠ []) (hlast : chars.getLast? ≠ some '/') :
    ∃ front last, chars = front ++ last ∧ IsFront front ∧ last ≠ [] ∧ '/' ∉ last := by
  induction chars with
  | nil => exact absurd rfl hsome
  | cons c rest ih =>
    cases hrest : rest with
    | nil =>
      refine ⟨[], [c], rfl, .inl rfl, by simp, ?_⟩
      rintro hmem
      rw [List.mem_singleton] at hmem
      rw [hrest, ← hmem] at hlast
      exact hlast rfl
    | cons next others =>
      rw [← hrest]
      have hne : rest ≠ [] := by simp [hrest]
      have hend : rest.getLast? = (c :: rest).getLast? := by
        rw [hrest, List.getLast?_cons_cons]
      obtain ⟨front, last, heq, hfront, hlast', hslash⟩ := ih hne (hend ▸ hlast)
      by_cases hempty : front = []
      · -- no slash behind the first character, which decides by itself what stands in front
        rw [hempty, List.nil_append] at heq
        by_cases hc : c = '/'
        · exact ⟨[c], last, by rw [heq]; rfl, .inr (by rw [hc]; rfl), hlast', hslash⟩
        · refine ⟨[], c :: last, by rw [heq]; rfl, .inl rfl, by simp, ?_⟩
          rw [List.mem_cons, not_or]
          exact ⟨Ne.symm hc, hslash⟩
      · refine ⟨c :: front, last, by rw [heq]; rfl, .inr ?_, hlast', hslash⟩
        rw [List.getLast?_cons, hfront.resolve_left hempty]
        rfl

end Files

open Files

/-! ## The two names -/

theorem slash_not_mem_suffix : '/' ∉ suffix := by decide

theorem slash_not_mem_fallbackSuffix : '/' ∉ fallbackSuffix := by decide

theorem stem?_eq_some_iff {name stem : List Char} : stem? name = some stem ↔ name = stem ++ suffix := by
  rw [stem?]
  split
  · next h =>
    obtain ⟨front, rfl⟩ := List.isSuffixOf_iff_suffix.mp h
    simp
  · next h =>
    refine ⟨nofun, ?_⟩
    rintro rfl
    exact absurd (List.isSuffixOf_iff_suffix.mpr (List.suffix_append stem suffix)) h

/-- The end of a name that loses its suffix is longer than the suffix, unless nothing is left of it. -/
theorem exists_stem {front last stem : List Char} (hfront : IsFront front)
    (hsplit : front ++ last = stem ++ suffix) (hsome : stem ≠ [])
    (hslash : stem.getLast? ≠ some '/') : ∃ rest, rest ≠ [] ∧ stem = front ++ rest
      ∧ last = rest ++ suffix := by
  obtain ⟨rest, rfl, rfl⟩ | ⟨rest, rfl, hsuffix⟩ := List.append_eq_append_iff.mp hsplit
  · refine ⟨rest, ?_, rfl, rfl⟩
    rintro rfl
    rw [List.append_nil] at hsome hslash
    exact hslash (hfront.resolve_left hsome)
  · -- the front would end within the suffix, in which there is no slash
    by_cases hrest : rest = []
    · rw [hrest, List.append_nil] at hfront
      exact absurd (hfront.resolve_left hsome) hslash
    · have hend := hfront.resolve_left (by simp [hsome])
      rw [List.getLast?_append_of_ne_nil _ hrest] at hend
      have hmem : '/' ∈ suffix := by
        rw [hsuffix]
        exact List.mem_append_left _ (List.mem_of_getLast? hend)
      exact absurd hmem slash_not_mem_suffix

/-- The output's name differs from the input's in its last part, and only there. -/
theorem outputChars_eq {front last : List Char} (hfront : IsFront front) (hlast : last ≠ [])
    (hslash : '/' ∉ last) : ∃ other, outputChars (front ++ last) = front ++ other ∧ other ≠ []
      ∧ '/' ∉ other ∧ other ≠ last := by
  have hfallback : ∃ other, front ++ last ++ fallbackSuffix = front ++ other ∧ other ≠ []
      ∧ '/' ∉ other ∧ other ≠ last := by
    refine ⟨last ++ fallbackSuffix, List.append_assoc .., by simp [hlast], ?_, ?_⟩
    · rw [List.mem_append, not_or]
      exact ⟨hslash, slash_not_mem_fallbackSuffix⟩
    · exact fun h => absurd (List.append_right_eq_self.mp h) (by decide)
  rw [outputChars]
  cases hstem : stem? (front ++ last) with
  | none => exact hfallback
  | some stem =>
    simp only
    split
    · exact hfallback
    · next hkept =>
      rw [not_or] at hkept
      obtain ⟨rest, hrest, hfrontRest, rfl⟩ :=
        exists_stem hfront (stem?_eq_some_iff.mp hstem) hkept.1 hkept.2
      rw [List.mem_append, not_or] at hslash
      refine ⟨rest, hfrontRest, hrest, hslash.1, ?_⟩
      exact fun h => absurd (List.append_right_eq_self.mp h.symm) (by decide)

/-! ## The two spots -/

namespace Files

theorem Path.ofText_eq_ok {text : String} {path : Path} (h : Path.ofText text = .ok path) :
    text.toList ≠ [] ∧ path = ⟨text.toList.head? == some '/',
      ((splitSlashes text.toList).filter (· ≠ [])).map String.ofList,
      text.toList.getLast? == some '/'⟩ := by
  rw [Path.ofText] at h
  split at h
  · cases h
  · split at h
    · cases h
    · next hsome =>
      split at h
      · cases h
      · cases h
        exact ⟨hsome, rfl⟩

namespace Tree

variable {tree : Tree}

/-- More than one name is left, so the first of them has to be a directory. -/
theorem walk_cons_concat (dir : Spot) (first : String) (names : List String) (name : String) :
    tree.walk dir (first :: names ++ [name])
      = match tree.step dir first with
        | .error error => .error error
        | .ok dir => tree.walk dir (names ++ [name]) := by
  cases names <;> rfl

/-- The last name plays no part in following the names before it. -/
theorem walk_concat {dir reached : Spot} {names : List String} {name : String} {last : Option String}
    (h : tree.walk dir (names ++ [name]) = .ok (reached, last)) :
    last = some name ∧ ∀ other, tree.walk dir (names ++ [other]) = .ok (reached, some other) := by
  induction names generalizing dir with
  | nil =>
    cases h
    exact ⟨rfl, fun _ => rfl⟩
  | cons first names ih =>
    simp only [walk_cons_concat] at h ⊢
    cases hstep : tree.step dir first with
    | error error => rw [hstep] at h; cases h
    | ok middle =>
      rw [hstep] at h
      exact ih h

theorem target_eq_entry {text name : String} {dir : Spot} {slash : Bool}
    (h : tree.target text = .ok (.entry dir name slash)) :
    text.toList ≠ [] ∧ slash = (text.toList.getLast? == some '/') ∧
      tree.walk (if text.toList.head? == some '/' then ⟨.root, []⟩ else tree.home)
        (((splitSlashes text.toList).filter (· ≠ [])).map String.ofList)
          = .ok (dir, some name) := by
  rw [target] at h
  split at h
  · cases h
  · next path hpath =>
    obtain ⟨hsome, rfl⟩ := Path.ofText_eq_ok hpath
    split at h
    · cases h
    · cases h
    · next hwalk =>
      split at h
      · cases h
      · cases h
        exact ⟨hsome, rfl, hwalk⟩

/-- A file's output does not take the place of the file. -/
theorem spot?_outputName_ne {name : String} {source output : Spot}
    (hsource : tree.spot? name = some source)
    (houtput : tree.spot? (outputName name) = some output) : source ≠ output := by
  obtain ⟨dir, entry, htarget, -, rfl⟩ := spot?_eq_some_iff.mp hsource
  obtain ⟨dir', entry', htarget', -, rfl⟩ := spot?_eq_some_iff.mp houtput
  obtain ⟨hsome, hslash, hwalk⟩ := target_eq_entry htarget
  obtain ⟨-, -, hwalk'⟩ := target_eq_entry htarget'
  obtain ⟨front, last, hname, hfront, hlast, hfree⟩ :=
    exists_front hsome (by simpa using hslash.symm)
  obtain ⟨other, hother, hsomeOther, hfreeOther, hne⟩ := outputChars_eq hfront hlast hfree
  rw [outputName, String.toList_ofList, hname, hother] at hwalk'
  rw [hname] at hwalk
  rw [filter_splitSlashes hfront hlast hfree, List.map_append, List.map_singleton] at hwalk
  rw [filter_splitSlashes hfront hsomeOther hfreeOther, List.map_append, List.map_singleton] at hwalk'
  rw [head?_front hfree] at hwalk
  rw [head?_front hfreeOther] at hwalk'
  obtain ⟨hentry, hbeside⟩ := walk_concat hwalk
  -- the directory is the same, so the names decide
  rw [hbeside] at hwalk'
  cases hwalk'
  cases hentry
  exact fun h => hne (String.ofList_injective (Spot.child_injective h)).symm

end Tree

end Files

end Bunzip

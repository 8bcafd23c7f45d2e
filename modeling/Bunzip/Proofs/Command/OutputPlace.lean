import Bunzip.Proofs.Command.Reading
import Bunzip.Proofs.Command.Unzipping

/-!
# What an output may be called

A text is the name of a file if no directory goes by it: it is not empty, has no slash in it and is
neither `.` nor `..`. A file that has such a name has its output in the same directory, under another
name, so that it is never its own output and is not written to, whatever the options are.

The name of the output is again that of a file, but for two inputs. `..bz2` and `...bz2` are good names
for files, and what is left of them without the suffix is `.` and `..`. The two cases in which a suffix
stays on, that nothing is left or that a slash comes last, do not cover these (`outputName_dotted`).
Their outputs cannot be created, so they are given up and nothing happens to them.
-/

namespace Bunzip

open Files

/-! ## Names of files -/

/-- A text that can be the name of a file in a directory. -/
@[mk_iff]
structure IsFileName (last : List Char) : Prop where
  some : last ≠ []
  free : '/' ∉ last
  dot : last ≠ ['.']
  dots : last ≠ ['.', '.']

instance (last : List Char) : Decidable (IsFileName last) :=
  decidable_of_iff' _ (isFileName_iff last)

/-- A suffix is taken away, or one is added. -/
theorem outputChars_cases (name : List Char) :
    name = outputChars name ++ suffix ∨ outputChars name = name ++ fallbackSuffix := by
  rw [outputChars]
  cases hstem : stem? name with
  | none => exact .inr rfl
  | some stem =>
    simp only
    split
    · exact .inr rfl
    · exact .inl (stem?_eq_some_iff.mp hstem)

/-- The suffix is taken away if that leaves more than a directory. -/
theorem outputChars_append_suffix {stem : List Char} (hsome : stem ≠ [])
    (hslash : stem.getLast? ≠ some '/') : outputChars (stem ++ suffix) = stem := by
  rw [outputChars, stem?_eq_some_iff.mpr rfl]
  exact if_neg (not_or.mpr ⟨hsome, hslash⟩)

/-- A name that is one or two dots is left over just from these dots with the suffix. -/
theorem output_eq_dots_iff {front last other dots : List Char}
    (hother : outputChars (front ++ last) = front ++ other)
    (hdots : dots = ['.'] ∨ dots = ['.', '.']) : other = dots ↔ last = dots ++ suffix := by
  constructor
  · rintro rfl
    rcases outputChars_cases (front ++ last) with hcut | hadded
    · rw [hother, List.append_assoc] at hcut
      exact List.append_cancel_left hcut
    · -- a name that was added to is longer than two dots
      rw [hother, List.append_assoc] at hadded
      have hlength := congrArg List.length (List.append_cancel_left hadded)
      rw [List.length_append, fallbackSuffix] at hlength
      rcases hdots with rfl | rfl <;> simp at hlength
  · rintro rfl
    have hend : (front ++ dots).getLast? = some '.' := by
      rcases hdots with rfl | rfl <;> simp
    have hsome : front ++ dots ≠ [] := by
      rcases hdots with rfl | rfl <;> simp
    rw [← List.append_assoc, outputChars_append_suffix hsome (by rw [hend]; decide)] at hother
    exact (List.append_cancel_left hother).symm

/-! ## Where a path leads -/

namespace Files.Tree

variable {tree : Tree} {path : String} {front last : List Char}

/-- The last name of a path decides whether it leads to a directory or to a name in one. -/
theorem target_cases {target : Target} (h : tree.target path = .ok target)
    (hpath : path.toList = front ++ last) (hfront : IsFront front) (hlast : last ≠ [])
    (hfree : '/' ∉ last) :
    (IsFileName last ∧ ∃ dir, target = .entry dir (String.ofList last) false)
      ∨ (¬IsFileName last ∧ target = .directory) := by
  have hend : ((front ++ last).getLast? == some '/') = false := by
    rw [List.getLast?_append_of_ne_nil _ hlast]
    exact beq_false_of_ne fun hslash => hfree (List.mem_of_getLast? hslash)
  have hdots : String.ofList last = "." ∨ String.ofList last = ".." ↔ ¬IsFileName last := by
    simp [isFileName_iff, hlast, hfree, String.ext_iff, or_iff_not_imp_left]
  rw [Tree.target] at h
  split at h
  · cases h
  · next parsed hparsed =>
    obtain ⟨_, rfl⟩ := Path.ofText_eq_ok hparsed
    simp only [hpath, filter_splitSlashes hfront hlast hfree, List.map_append, List.map_singleton]
      at h
    split at h
    · cases h
    · next hwalk => cases (walk_concat hwalk).1
    · next dir name hwalk =>
      obtain rfl := Option.some.inj (walk_concat hwalk).1
      split at h
      · next hdotted =>
        cases h
        exact .inr ⟨hdots.mp hdotted, rfl⟩
      · next hproper =>
        cases h
        rw [hend]
        exact .inl ⟨not_not.mp fun hbad => hproper (hdots.mpr hbad), dir, rfl⟩

theorem createFile_of_directory (overwrite : Bool) (h : tree.target path = .ok .directory) :
    tree.createFile path overwrite = .error (if overwrite then .isDirectory else .fileExists) := by
  rw [createFile, h]

end Files.Tree

/-! ## What happens to the input -/

/-- The input has not been written to. It is as it was, or it was unzipped and not to be kept. -/
structure Spared (options : Options) (name : String) (before : World)
    (run : Except DecodeError StreamSummary × World) : Prop where
  input : ∀ source, before.files.spot? name = some source →
    run.2.files.node? source = before.files.node? source
      ∨ options.keep = false ∧ run.1.isOk ∧ run.2.files.node? source = none
  /-- What the output is written to is at another place. -/
  apart : ∀ source output, before.files.spot? name = some source →
    before.files.spot? (outputName name) = some output → output ≠ source

theorem spared_processFile (options : Options) (name : String) (world : World) :
    Spared options name world ((processFile options name : StateM World _) world) where
  apart source output hsource houtput := (Files.Tree.spot?_outputName_ne hsource houtput).symm
  input source hsource := by
    by_cases honly : options.mode = .test ∨ options.output = .stdout
    · obtain ⟨after, hprints, hrun⟩ := processFile_onlyReads honly name world
      rw [hrun, hprints.files]
      exact .inl rfl
    · have hmode : options.mode = .unzip := by
        cases hmode : options.mode with
        | unzip => rfl
        | test => exact absurd (.inl hmode) honly
      have hdestination : options.output = .file := by
        cases hdestination : options.output with
        | file => rfl
        | stdout => exact absurd (.inr hdestination) honly
      have hcomes := comes_processFile hmode hdestination name world
      cases hresult : ((processFile options name : StateM World _) world).1 with
      | error reason => exact .inl ((hcomes.error reason hresult).input source hsource)
      | ok summary =>
        obtain ⟨source', output, data, bytes, hunzipped⟩ := hcomes.ok summary hresult
        obtain rfl := Option.some.inj (hsource.symm.trans hunzipped.reads)
        rw [hunzipped.input, hunzipped.holds]
        cases options.keep with
        | true => exact .inl rfl
        | false => exact .inr ⟨rfl, rfl, rfl⟩

/-- An output that would be a directory is not created, and nothing else happens either. -/
theorem processFile_of_no_output {options : Options} {name : String} {world : World}
    (hmode : options.mode = .unzip) (hdestination : options.output = .file)
    (hnone : ∀ target, world.files.target (outputName name) = .ok target → target = .directory) :
    ∃ error, (processFile options name : StateM World _) world = (.error (.io error), world) := by
  have hcreate : ∃ error, world.files.createFile (outputName name) options.force = .error error := by
    cases htarget : world.files.target (outputName name) with
    | error error => exact ⟨error, by rw [Files.Tree.createFile, htarget]⟩
    | ok target =>
      rw [hnone target htarget] at htarget
      exact ⟨_, Files.Tree.createFile_of_directory options.force htarget⟩
  obtain ⟨error, hcreate⟩ := hcreate
  unfold processFile
  rw [World.bind_apply]
  simp only [Host.openFile]
  cases world.files.openFile name with
  | error error => exact ⟨error, rfl⟩
  | ok source =>
    rw [hmode, hdestination]
    refine ⟨creationError (outputName name) error, ?_⟩
    show (unzipSource options name source : StateM World _) world = _
    unfold unzipSource
    rw [World.bind_apply]
    simp only [Host.createFile, hcreate, World.update]
    rfl

/--
**An output stands beside its input.** Its path differs from that of the input in the last name and
nowhere else. That name is again one of a file, unless the input is called `..bz2` or `...bz2`. The
input is never written to. Where the path leads, it leads to a file; but for these two inputs it leads
to a directory, so that they are given up and nothing has happened.
-/
theorem outputName_beside {name : String} {front last : List Char} (hname : name.toList = front ++ last)
    (hfront : IsFront front) (hlast : IsFileName last) :
    ∃ other, (outputName name).toList = front ++ other ∧ other ≠ [] ∧ '/' ∉ other ∧ other ≠ last
      ∧ (IsFileName other ↔ last ≠ ['.'] ++ suffix ∧ last ≠ ['.', '.'] ++ suffix)
      ∧ ∀ (options : Options) (world : World),
        Spared options name world ((processFile options name : StateM World _) world)
        ∧ (IsFileName other → ∀ target, world.files.target (outputName name) = .ok target →
          ∃ dir, target = .entry dir (String.ofList other) false)
        ∧ (¬IsFileName other → options.mode = .unzip → options.output = .file →
          ∃ error, (processFile options name : StateM World _) world
            = (.error (.io error), world)) := by
  obtain ⟨other, hother, hsome, hfree, hne⟩ := outputChars_eq hfront hlast.some hlast.free
  have houtput : (outputName name).toList = front ++ other := by
    rw [outputName, String.toList_ofList, hname, hother]
  refine ⟨other, houtput, hsome, hfree, hne, ?_, fun options world => ⟨?_, ?_, ?_⟩⟩
  · rw [← (output_eq_dots_iff hother (.inl rfl)).ne, ← (output_eq_dots_iff hother (.inr rfl)).ne]
    exact ⟨fun h => ⟨h.dot, h.dots⟩, fun h => ⟨hsome, hfree, h.1, h.2⟩⟩
  · exact spared_processFile options name world
  · intro hproper target htarget
    rcases Files.Tree.target_cases htarget houtput hfront hsome hfree with ⟨_, hentry⟩ | ⟨hbad, _⟩
    · exact hentry
    · exact absurd hproper hbad
  · intro hbad hmode hdestination
    refine processFile_of_no_output hmode hdestination fun target htarget => ?_
    rcases Files.Tree.target_cases htarget houtput hfront hsome hfree with ⟨hproper, _⟩ | ⟨_, hdir⟩
    · exact absurd hproper hbad
    · exact hdir

theorem outputName_beside_b :
    "dir/b".toList = ['d', 'i', 'r', '/'] ++ ['b'] ∧ IsFront ['d', 'i', 'r', '/'] ∧ IsFileName ['b']
      ∧ ∃ other, (outputName "dir/b").toList = ['d', 'i', 'r', '/'] ++ other ∧ IsFileName other
        ∧ Spared unzipTwo "dir/b" twoFilesWorld
          ((processFile unzipTwo "dir/b" : StateM World _) twoFilesWorld) := by
  have hname : "dir/b".toList = ['d', 'i', 'r', '/'] ++ ['b'] := by decide
  have hfront : IsFront ['d', 'i', 'r', '/'] := .inr rfl
  have hlast : IsFileName ['b'] := by decide
  obtain ⟨other, hother, _, _, _, hproper, hsafe⟩ := outputName_beside hname hfront hlast
  exact ⟨hname, hfront, hlast, other, hother, hproper.mpr (by decide),
    (hsafe unzipTwo twoFilesWorld).1⟩

/-- A file with a stream that has no blocks, whose name is a dot and the suffix. -/
def dottedWorld : World :=
  ⟨Files.Tree.empty.withFile ["..bz2"]
    ⟨#[66, 90, 104, 57, 23, 114, 69, 56, 80, 144, 0, 0, 0, 0]⟩, ⟨[]⟩, ByteArray.empty, #[]⟩

/-- **The output of such a file would be the directory that it is in.** -/
theorem outputName_dotted :
    IsFileName "..bz2".toList ∧ outputName "..bz2" = "." ∧ ¬IsFileName (outputName "..bz2").toList
      ∧ dottedWorld.files.target (outputName "..bz2") = .ok .directory
      ∧ ((processFile { unzipTwo with force := true } "..bz2" : StateM World _) dottedWorld).1
        = .error (.io .isDirectory) := by
  refine ⟨by decide, by decide, by decide, by decide, by decide⟩

end Bunzip

import Bunzip.Proofs.Command.Effects
import Bunzip.Proofs.Command.OutputName
import Bunzip.Proofs.Stream.PullPush

/-!
# A file is unzipped, or nothing has happened to it

When a file is decoded into one beside it, one of two things comes of that. It was unzipped: its
output holds exactly the bytes that it decodes to, and the file itself is gone unless it is to be
kept. Or it was given up, and then the tree is as it was before, but for an older output that was to
be overwritten and is gone. The files of a command line are processed in order, and the first one
that is given up is the last one to be touched.
-/

namespace Bunzip

open Files

/-- A byte string that decodes without an error, and what to. -/
def DecodesTo (strict : Bool) (data bytes : ByteArray) : Prop :=
  ∃ summary, (decodeSource (.ofBytes data) strict .unbounded).result = .ok summary
    ∧ delivered strict (.ofBytes data) = bytes

/-- What unzipping a file does to a tree. -/
structure Unzipped (options : Options) (name : String) (source output : Spot)
    (data bytes : ByteArray) (before after : Tree) : Prop where
  reads : before.spot? name = some source
  holds : before.node? source = some (.file data)
  decodes : DecodesTo options.strict data bytes
  writes : before.spot? (outputName name) = some output
  /-- Only an output that is to be overwritten was there before. -/
  vacant : before.node? output = none
    ∨ options.force = true ∧ ∃ old, before.node? output = some (.file old)
  /-- Every path still leads where it did. -/
  paths : ∀ path, after.spot? path = before.spot? path
  result : after.node? output = some (.file bytes)
  input : after.node? source = if options.keep then some (.file data) else none
  others : ∀ spot, spot ≠ source → spot ≠ output → after.node? spot = before.node? spot

/-- Why a file is given up. -/
inductive Hindrance (options : Options) (name : String) (before : Tree) : DecodeError → Prop where
  | unopened {error : IoError} (h : before.openFile name = .error error) :
    Hindrance options name before (.io error)
  | uncreated {error : IoError} (h : before.createFile (outputName name) options.force = .error error) :
    Hindrance options name before (.io (creationError (outputName name) error))
  | undecoded {source : Source} {reason : DecodeError} (h : before.openFile name = .ok source)
    (fails : (decodeSource source options.strict .unbounded).result = .error reason) :
    Hindrance options name before reason

/-- What giving up a file does to a tree. -/
structure GivenUp (options : Options) (name : String) (reason : DecodeError)
    (before after : Tree) : Prop where
  hindrance : Hindrance options name before reason
  paths : ∀ path, after.spot? path = before.spot? path
  /-- Whatever stands at the place of the input is left alone. -/
  input : ∀ source, before.spot? name = some source → after.node? source = before.node? source
  unforced : options.force = false → after = before
  forced : after = before ∨ ∃ output old, before.spot? (outputName name) = some output
    ∧ before.node? output = some (.file old) ∧ after = before.erase output

/-- What comes of processing files in order: each is unzipped, up to one that is given up. -/
inductive Processed (options : Options) :
    List String → Tree → Except DecodeError Unit → Tree → Prop where
  | done (tree : Tree) : Processed options [] tree (.ok ()) tree
  | unzipped {name : String} {names : List String} {source output : Spot} {data bytes : ByteArray}
    {before middle after : Tree} {result : Except DecodeError Unit}
    (first : Unzipped options name source output data bytes before middle)
    (rest : Processed options names middle result after) :
    Processed options (name :: names) before result after
  | givenUp {name : String} {reason : DecodeError} {before after : Tree}
    (first : GivenUp options name reason before after) (names : List String) :
    Processed options (name :: names) before (.error reason) after

/-! ## One file -/

/-- The place of an output that could be created. -/
structure Created (options : Options) (name : String) (output : Spot) (before : Tree) : Prop where
  writes : before.spot? (outputName name) = some output
  vacant : before.node? output = none
    ∨ options.force = true ∧ ∃ old, before.node? output = some (.file old)

variable {options : Options} {name : String} {before : Tree} {output : Spot}

theorem Created.names (h : Created options name output before) : output.names ≠ [] :=
  Tree.names_of_spot? h.writes

theorem Created.not_directory (h : Created options name output before) :
    before.node? output ≠ some .directory := by
  rcases h.vacant with hnone | ⟨-, old, hold⟩
  · rw [hnone]
    exact nofun
  · rw [hold]
    exact nofun

/-- No path leads elsewhere once there is an output. -/
theorem Created.spot?_put (h : Created options name output before) (data : ByteArray)
    (path : String) : (before.put output (.file data)).spot? path = before.spot? path :=
  (Tree.sameDirectories_put h.names h.not_directory).spot?_eq path

/-- An output that is not finished is removed, and with it whatever it was to overwrite. -/
theorem Created.givenUp (h : Created options name output before) {reason : DecodeError}
    (hindrance : Hindrance options name before reason) :
    GivenUp options name reason before (before.erase output) where
  hindrance := hindrance
  paths := (Tree.sameDirectories_erase h.names h.not_directory).spot?_eq
  input := by
    intro source hsource
    exact Tree.node?_erase_of_ne (Tree.spot?_outputName_ne hsource h.writes)
  unforced := by
    intro hforce
    rcases h.vacant with hnone | ⟨hforced, -⟩
    · exact Tree.erase_of_node?_eq_none h.names hnone
    · rw [hforce] at hforced
      cases hforced
  forced := by
    rcases h.vacant with hnone | ⟨-, old, hold⟩
    · exact .inl (Tree.erase_of_node?_eq_none h.names hnone)
    · exact .inr ⟨output, old, h.writes, hold, rfl⟩

/-- A file that is kept beside its output. -/
theorem Created.unzipped_keep (h : Created options name output before) {source : Spot}
    {data bytes : ByteArray} (hreads : before.spot? name = some source)
    (hholds : before.node? source = some (.file data))
    (hdecodes : DecodesTo options.strict data bytes) (hkeep : options.keep = true) :
    Unzipped options name source output data bytes before (before.put output (.file bytes)) where
  reads := hreads
  holds := hholds
  decodes := hdecodes
  writes := h.writes
  vacant := h.vacant
  paths := h.spot?_put bytes
  result := Tree.node?_put_self h.names
  input := by
    rw [if_pos hkeep, Tree.node?_put_of_ne (Tree.spot?_outputName_ne hreads h.writes), hholds]
  others := by
    intro spot _ hspot
    exact Tree.node?_put_of_ne hspot

/-- A file that is removed when its output is finished. -/
theorem Created.unzipped_remove (h : Created options name output before) {source : Spot}
    {data bytes : ByteArray} (hreads : before.spot? name = some source)
    (hholds : before.node? source = some (.file data))
    (hdecodes : DecodesTo options.strict data bytes) (hkeep : options.keep = false) :
    Unzipped options name source output data bytes before
      ((before.put output (.file bytes)).erase source) where
  reads := hreads
  holds := hholds
  decodes := hdecodes
  writes := h.writes
  vacant := h.vacant
  paths := by
    intro path
    have hne := Tree.spot?_outputName_ne hreads h.writes
    have hfile : (before.put output (.file bytes)).node? source ≠ some .directory := by
      rw [Tree.node?_put_of_ne hne, hholds]
      exact nofun
    rw [(Tree.sameDirectories_erase (Tree.names_of_spot? hreads) hfile).spot?_eq path,
      h.spot?_put bytes path]
  result := by
    rw [Tree.node?_erase_of_ne (Tree.spot?_outputName_ne hreads h.writes).symm,
      Tree.node?_put_self h.names]
  input := by
    rw [if_neg (by simp [hkeep]), Tree.node?_erase_self (Tree.names_of_spot? hreads)]
  others := by
    intro spot hsource houtput
    rw [Tree.node?_erase_of_ne hsource, Tree.node?_put_of_ne houtput]

/-- A directory can be opened, but there is nothing to decode in it. -/
theorem decodeSource_directory (strict : Bool) (sink : Sink) :
    (decodeSource ⟨[.fault .isDirectory]⟩ strict sink).result = .error (.io .isDirectory) := rfl

/-- The file was unzipped or given up, as the result says, and only the tree has changed. -/
structure Comes (options : Options) (name : String) (before : World)
    (run : Except DecodeError StreamSummary × World) : Prop where
  input : run.2.input = before.input
  printed : run.2.printed = before.printed
  ok : ∀ summary, run.1 = .ok summary → ∃ source output data bytes,
    Unzipped options name source output data bytes before.files run.2.files
  error : ∀ reason, run.1 = .error reason → GivenUp options name reason before.files run.2.files

/-- A file that is given up before anything was created. -/
theorem Hindrance.comes {world : World} {reason : DecodeError}
    (h : Hindrance options name world.files reason) : Comes options name world (.error reason, world) where
  input := rfl
  printed := rfl
  ok := nofun
  error := by
    intro reason' hreason
    cases hreason
    exact ⟨h, fun _ => rfl, fun _ _ => rfl, fun _ => rfl, .inl rfl⟩

/-- What has been written of an output is of no use when the decoding fails. -/
theorem Created.comes_discard {world : World} (h : Created options name output world.files)
    {reason : DecodeError} (hindrance : Hindrance options name world.files reason)
    (notes : List Note) (written : ByteArray) :
    Comes options name world ((discard (outputName name) reason : StateM World _)
      ({ world with files := world.files.put output (.file written) }.hear options notes)) := by
  have hremove := Tree.removeFile_of_node? ((h.spot?_put written _).trans h.writes)
    (Tree.node?_put_self h.names)
  rw [Tree.erase_put] at hremove
  unfold discard
  rw [World.bind_apply]
  simp only [Host.removeFile, World.hear, hremove, World.update]
  refine ⟨rfl, rfl, ?_, ?_⟩
  · rintro _ ⟨⟩
  · rintro _ ⟨⟩
    exact h.givenUp hindrance

theorem comes_unzipSource (world : World) {source : Source}
    (hopen : world.files.openFile name = .ok source) :
    Comes options name world ((unzipSource options name source : StateM World _) world) := by
  unfold unzipSource
  rw [World.bind_apply]
  simp only [Host.createFile]
  cases hcreate : world.files.createFile (outputName name) options.force with
  | error error => exact (Hindrance.uncreated hcreate).comes
  | ok created =>
    obtain ⟨output, hwrites, rfl, hvacant⟩ := Tree.createFile_eq_ok hcreate
    have hcreated : Created options name output world.files := ⟨hwrites, hvacant⟩
    simp only [World.update]
    rw [World.bind_apply, decodeAndTell_apply]
    cases hdecode : (decodeSource source options.strict .unbounded).result with
    | error reason => exact hcreated.comes_discard (.undecoded hopen hdecode) _ _
    | ok summary =>
      -- only a file can have been decoded, and it is still there beside its output
      rcases Tree.openFile_eq_ok hopen with ⟨spot, data, hreads, hholds, rfl⟩ | rfl
      · have hdecodes : DecodesTo options.strict data (delivered options.strict (.ofBytes data)) :=
          ⟨summary, hdecode, rfl⟩
        have hfill := Tree.fillFile_of_node? (delivered options.strict (.ofBytes data))
          ((hcreated.spot?_put ByteArray.empty _).trans hwrites) (Tree.node?_put_self hcreated.names)
        rw [Tree.put_put] at hfill
        simp only
        rw [World.bind_apply]
        simp only [Host.fillFile, World.hear, hfill, World.update]
        cases hkeep : options.keep with
        | true =>
          rw [if_pos rfl]
          refine ⟨rfl, rfl, fun _ _ => ?_, by rintro _ ⟨⟩⟩
          exact ⟨spot, output, data, _, hcreated.unzipped_keep hreads hholds hdecodes hkeep⟩
        | false =>
          have hremove := Tree.removeFile_of_node?
            ((hcreated.spot?_put (delivered options.strict (.ofBytes data)) _).trans hreads)
            ((Tree.node?_put_of_ne (Tree.spot?_outputName_ne hreads hwrites)).trans hholds)
          rw [if_neg (by simp), World.bind_apply]
          simp only [Host.removeFile, hremove, World.update]
          refine ⟨rfl, rfl, fun _ _ => ?_, by rintro _ ⟨⟩⟩
          exact ⟨spot, output, data, _, hcreated.unzipped_remove hreads hholds hdecodes hkeep⟩
      · rw [decodeSource_directory] at hdecode
        cases hdecode

theorem comes_processFile (hmode : options.mode = .unzip) (hdestination : options.output = .file)
    (name : String) (world : World) :
    Comes options name world ((processFile options name : StateM World _) world) := by
  unfold processFile
  rw [World.bind_apply]
  simp only [Host.openFile]
  cases hopen : world.files.openFile name with
  | error error => exact (Hindrance.unopened hopen).comes
  | ok source =>
    rw [hmode, hdestination]
    exact comes_unzipSource world hopen

/-! ## All files -/

theorem processed_processFiles (hmode : options.mode = .unzip) (hdestination : options.output = .file)
    (names : List String) (world : World) :
    Processed options names world.files
        ((processFiles options names : StateM World _) world).1
        ((processFiles options names : StateM World _) world).2.files
      ∧ ((processFiles options names : StateM World _) world).2.input = world.input
      ∧ ((processFiles options names : StateM World _) world).2.printed = world.printed := by
  induction names generalizing world with
  | nil => exact ⟨.done _, rfl, rfl⟩
  | cons name names ih =>
    have hcomes := comes_processFile hmode hdestination name world
    obtain ⟨notes, hcons⟩ := processFiles_cons options world name names
    rw [hcons]
    cases hfile : (processFile options name : StateM World _) world with
    | mk result middle =>
      rw [hfile] at hcomes
      cases result with
      | error reason => exact ⟨.givenUp (hcomes.error reason rfl) names, hcomes.input, hcomes.printed⟩
      | ok summary =>
        obtain ⟨source, output, data, bytes, hunzipped⟩ := hcomes.ok summary rfl
        obtain ⟨hprocessed, hinput, hprinted⟩ := ih (middle.hear options notes)
        exact ⟨.unzipped hunzipped hprocessed, hinput.trans hcomes.input,
          hprinted.trans hcomes.printed⟩

/--
Each file is unzipped or given up, and the result says so. No file behind one that is given up is
touched, and neither are the standard streams.
-/
theorem decompress_processed (world : World) (hmode : options.mode = .unzip)
    (hdestination : options.output = .file) (hfiles : options.files ≠ []) :
    Processed options options.files world.files
        ((decompress options : StateM World _) world).1
        ((decompress options : StateM World _) world).2.files
      ∧ ((decompress options : StateM World _) world).2.input = world.input
      ∧ ((decompress options : StateM World _) world).2.printed = world.printed := by
  have hrun : (decompress options : StateM World _) = processFiles options options.files := by
    unfold decompress
    split
    · next hnone => exact absurd hnone hfiles
    · rfl
  rw [hrun]
  exact processed_processFiles hmode hdestination options.files world

/-- Asks for two files to be unzipped. -/
def unzipTwo : Options where
  files := ["a.bz2", "dir/b"]
  force := false
  keep := false
  mode := .unzip
  output := .file
  strict := true
  verbosity := .warnings

/-- A tree with a stream of one block, and a file that is no stream. -/
def twoFiles : Files.Tree :=
  (Files.Tree.empty.withFile ["a.bz2"] StreamDecoder.ababStream).withFile ["dir", "b"] ⟨#[66]⟩

/-- The world that the tree is in. -/
def twoFilesWorld : World := ⟨twoFiles, ⟨[]⟩, ByteArray.empty, #[]⟩

/-- The first file is unzipped, and the second one given up. -/
theorem decompress_processed_twoFiles :
    unzipTwo.mode = .unzip ∧ unzipTwo.output = .file ∧ unzipTwo.files ≠ []
      ∧ ((decompress unzipTwo : StateM World _) twoFilesWorld).1 = .error (.endOfStream 8)
      ∧ Processed unzipTwo ["a.bz2", "dir/b"] twoFiles
          ((decompress unzipTwo : StateM World _) twoFilesWorld).1
          ((decompress unzipTwo : StateM World _) twoFilesWorld).2.files
      ∧ ((decompress unzipTwo : StateM World _) twoFilesWorld).2.files.openFile "a"
        = .ok (.ofBytes ⟨#[97, 98, 97, 98]⟩)
      ∧ ((decompress unzipTwo : StateM World _) twoFilesWorld).2.files.openFile "a.bz2"
        = .error .noSuchFile
      ∧ ((decompress unzipTwo : StateM World _) twoFilesWorld).2.files.openFile "dir/b"
        = .ok (.ofBytes ⟨#[66]⟩) := by
  have hrun : ((decompress unzipTwo : StateM World _) twoFilesWorld).1 = .error (.endOfStream 8)
      ∧ ((decompress unzipTwo : StateM World _) twoFilesWorld).2.files.openFile "a"
        = .ok (.ofBytes ⟨#[97, 98, 97, 98]⟩)
      ∧ ((decompress unzipTwo : StateM World _) twoFilesWorld).2.files.openFile "a.bz2"
        = .error .noSuchFile
      ∧ ((decompress unzipTwo : StateM World _) twoFilesWorld).2.files.openFile "dir/b"
        = .ok (.ofBytes ⟨#[66]⟩) := by decide +kernel
  exact ⟨rfl, rfl, by decide, hrun.1, (decompress_processed twoFilesWorld rfl rfl (by decide)).1,
    hrun.2⟩

end Bunzip

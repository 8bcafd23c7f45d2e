import Bunzip.Proofs.Command.Effects
import Bunzip.Proofs.Stream.PullPush
import Bunzip.Proofs.Stream.Safety

/-!
# Inputs that are only read

Testing files, decoding them into standard output and decoding standard input have one thing in
common: nothing but standard output is written. What comes of them depends on the inputs alone, not
on where these are found or whether their bytes are wanted. All inputs are decoded in order, up to
the first that cannot be.
-/

namespace Bunzip

/-- An input that has been opened, or could not be. -/
abbrev Input := Except IoError Source

namespace Input

/-- The result of decoding an input. -/
def result (strict : Bool) : Input → Except DecodeError StreamSummary
  | .error error => .error (.io error)
  | .ok source => (decodeSource source strict .unbounded).result

/-- The bytes that an input is decoded to, up to a failure. -/
def bytes (strict : Bool) : Input → ByteArray
  | .error _ => ByteArray.empty
  | .ok source => delivered strict source

/-- An input that decodes without a failure. -/
def Decodes (strict : Bool) (input : Input) : Prop := ∃ summary, input.result strict = .ok summary

end Input

/-- Byte strings one after the other. -/
def concat (pieces : List ByteArray) : ByteArray := pieces.foldr (· ++ ·) ByteArray.empty

/-- The result of decoding inputs in order, up to the first that fails, and the bytes delivered. -/
inductive Settled (strict : Bool) (inputs : List Input) : Except DecodeError Unit → ByteArray → Prop
  | all (fine : ∀ input ∈ inputs, input.Decodes strict) :
    Settled strict inputs (.ok ()) (concat (inputs.map (·.bytes strict)))
  | upTo {earlier : List Input} {failing : Input} {later : List Input} {reason : DecodeError}
    (split : inputs = earlier ++ failing :: later)
    (fine : ∀ input ∈ earlier, input.Decodes strict)
    (fails : failing.result strict = .error reason) :
    Settled strict inputs (.error reason) (concat ((earlier ++ [failing]).map (·.bytes strict)))

/-- A failure for which the compressed data is to blame. -/
inductive DataFailure : DecodeError → Prop where
  | endOfStream (position : Nat) : DataFailure (.endOfStream position)
  | corrupt (position : Nat) (reason : Corruption) : DataFailure (.corrupt position reason)
  | unsupported (feature : String) : DataFailure (.unsupported feature)
  | blockChecksum (block : Nat) (stored computed : UInt32) :
    DataFailure (.blockChecksum block stored computed)
  | streamChecksum (stored computed : UInt32) : DataFailure (.streamChecksum stored computed)

/-- The exit status that is promised for a result. -/
inductive Promised : Except DecodeError Unit → Nat → Prop where
  | fine : Promised (.ok ()) 0
  | data {reason : DecodeError} (h : DataFailure reason) : Promised (.error reason) 2
  | io (error : IoError) : Promised (.error (.io error)) 1

namespace Options

/-- No file is written. -/
def OnlyReads (options : Options) : Prop :=
  options.files = [] ∨ options.mode = .test ∨ options.output = .stdout

/-- What is read, in order: the files, or standard input if there are none. -/
def inputs (options : Options) (world : World) : List Input :=
  match options.files with
  | [] => [.ok world.input]
  | files => files.map world.files.openFile

/-- The world when its inputs have been opened: standard input has been taken if it is one of them. -/
def opened (options : Options) (world : World) : World :=
  match options.files with
  | [] => { world with input := ⟨[]⟩ }
  | _ => world

/-- The part of the bytes delivered that is printed. -/
def shown (options : Options) (bytes : ByteArray) : ByteArray :=
  match options.mode with
  | .test => ByteArray.empty
  | .unzip => bytes

end Options

/-! ## Inputs in order -/

/-- Decodes inputs in order, up to the first that fails. -/
def decodeInOrder (strict : Bool) : List Input → Except DecodeError Unit × ByteArray
  | [] => (.ok (), ByteArray.empty)
  | input :: inputs => match input.result strict with
    | .error reason => (.error reason, input.bytes strict)
    | .ok _ =>
      let (result, bytes) := decodeInOrder strict inputs
      (result, input.bytes strict ++ bytes)

variable {strict : Bool} {options : Options}

theorem Settled.failed {input : Input} {reason : DecodeError}
    (h : input.result strict = .error reason) (inputs : List Input) :
    Settled strict (input :: inputs) (.error reason) (input.bytes strict) := by
  have hsplit : input :: inputs = [] ++ input :: inputs := rfl
  have hsettled := Settled.upTo hsplit nofun h
  rwa [List.nil_append, List.map_singleton, concat, List.foldr_cons, List.foldr_nil,
    ByteArray.append_empty] at hsettled

theorem Settled.cons {input : Input} {inputs : List Input} {result : Except DecodeError Unit}
    {bytes : ByteArray} (hinput : input.Decodes strict) (h : Settled strict inputs result bytes) :
    Settled strict (input :: inputs) result (input.bytes strict ++ bytes) := by
  cases h with
  | all fine => exact .all (List.forall_mem_cons.mpr ⟨hinput, fine⟩)
  | @upTo earlier failing later reason split fine fails =>
    have hsplit : input :: inputs = (input :: earlier) ++ failing :: later := by
      rw [split, List.cons_append]
    exact .upTo hsplit (List.forall_mem_cons.mpr ⟨hinput, fine⟩) fails

theorem settled_decodeInOrder (inputs : List Input) :
    Settled strict inputs (decodeInOrder strict inputs).1 (decodeInOrder strict inputs).2 := by
  induction inputs with
  | nil => exact .all nofun
  | cons input inputs ih =>
    unfold decodeInOrder
    cases hinput : input.result strict with
    | error reason => exact .failed hinput inputs
    | ok summary => exact .cons ⟨summary, hinput⟩ ih

/-! ## Failures -/

theorem blameless_decodeSource {source : Source} {sink : Sink} {reason : DecodeError}
    (h : (decodeSource source strict sink).result = .error reason) : reason.Blameless := by
  have hstart := StreamDecoder.safe_start source
  rw [decodeSource] at h
  cases hr : StreamDecoder.start source with
  | error reason' after notes =>
    rw [hr] at hstart h
    cases h
    exact hstart
  | ok fresh after notes =>
    rw [hr] at hstart h
    simp only [Outcome.result_after, Outcome.result_withState] at h
    have hsound : StreamDecoder.SoundWith (fresh.setStrict strict, sink) :=
      ⟨hstart.bench, hstart.current⟩
    intro what hwhat
    exact StreamDecoder.safe_decodeTo.result hsound what (hwhat ▸ h)

/-- No input fails for another reason than its data or the system it is on. -/
theorem promised_of_blameless {reason : DecodeError} (h : reason.Blameless) :
    Promised (.error reason) (exitStatus (.error reason)) := by
  cases reason with
  | io error => exact .io error
  | endOfStream position => exact .data (.endOfStream position)
  | corrupt position reason => exact .data (.corrupt position reason)
  | unsupported feature => exact .data (.unsupported feature)
  | blockChecksum block stored computed => exact .data (.blockChecksum block stored computed)
  | streamChecksum stored computed => exact .data (.streamChecksum stored computed)
  | defect what => exact absurd rfl (h what)

theorem blameless_result {input : Input} {reason : DecodeError}
    (h : input.result strict = .error reason) : reason.Blameless := by
  cases input with
  | ok source => exact blameless_decodeSource h
  | error error =>
    cases h
    exact nofun

theorem promised_decodeInOrder (inputs : List Input) :
    Promised (decodeInOrder strict inputs).1 (exitStatus (decodeInOrder strict inputs).1) := by
  induction inputs with
  | nil => exact .fine
  | cons input inputs ih =>
    unfold decodeInOrder
    cases hinput : input.result strict with
    | error reason => exact promised_of_blameless (blameless_result hinput)
    | ok summary => exact ih

/-! ## The command -/

/-- Nothing but standard output has changed, and there the given bytes were added. -/
structure Prints (before : World) (bytes : ByteArray) (after : World) : Prop where
  files : after.files = before.files
  input : after.input = before.input
  printed : after.printed = before.printed ++ bytes

theorem Prints.nothing (world : World) : Prints world ByteArray.empty world :=
  ⟨rfl, rfl, ByteArray.append_empty.symm⟩

theorem Prints.hear {before after : World} {bytes : ByteArray} (h : Prints before bytes after)
    (options : Options) (notes : List Note) : Prints before bytes (after.hear options notes) :=
  ⟨h.files, h.input, h.printed⟩

theorem Prints.trans {before middle after : World} {first second : ByteArray}
    (h : Prints before first middle) (hsecond : Prints middle second after) :
    Prints before (first ++ second) after where
  files := hsecond.files.trans h.files
  input := hsecond.input.trans h.input
  printed := by rw [hsecond.printed, h.printed, ByteArray.append_assoc]

theorem shown_empty : options.shown ByteArray.empty = ByteArray.empty := by
  unfold Options.shown
  cases options.mode <;> rfl

theorem shown_append (first second : ByteArray) :
    options.shown (first ++ second) = options.shown first ++ options.shown second := by
  unfold Options.shown
  cases options.mode with
  | test => exact ByteArray.append_empty.symm
  | unzip => rfl

theorem shown_test (h : options.mode = .test) (bytes : ByteArray) :
    options.shown bytes = ByteArray.empty := by
  rw [Options.shown, h]

theorem shown_unzip (h : options.mode = .unzip) (bytes : ByteArray) : options.shown bytes = bytes := by
  rw [Options.shown, h]

theorem prints_testSource (options : Options) (source : Source) (world : World) : ∃ after,
    Prints world ByteArray.empty after ∧ (testSource options source : StateM World _) world
      = ((decodeSource source options.strict .unbounded).result, after) :=
  ⟨_, (Prints.nothing world).hear options _, testSource_apply options world source⟩

theorem prints_printSource (options : Options) (source : Source) (world : World) : ∃ after,
    Prints world (delivered options.strict source) after
      ∧ (printSource options source : StateM World _) world
        = ((decodeSource source options.strict .unbounded).result, after) := by
  refine ⟨_, ?_, printSource_apply options world source⟩
  exact ⟨rfl, rfl, rfl⟩

theorem processFile_onlyReads (h : options.mode = .test ∨ options.output = .stdout) (name : String)
    (world : World) : ∃ after,
      Prints world (options.shown (Input.bytes options.strict (world.files.openFile name))) after
        ∧ (processFile options name : StateM World _) world
          = (Input.result options.strict (world.files.openFile name), after) := by
  unfold processFile
  rw [World.bind_apply]
  simp only [Host.openFile]
  cases world.files.openFile name with
  | error error =>
    refine ⟨world, ?_, rfl⟩
    rw [Input.bytes, shown_empty]
    exact .nothing world
  | ok source =>
    cases hmode : options.mode with
    | test =>
      rw [shown_test hmode]
      exact prints_testSource options source world
    | unzip =>
      have hdestination := h.resolve_left (by simp [hmode])
      rw [shown_unzip hmode, hdestination]
      exact prints_printSource options source world

theorem processInput_onlyReads (options : Options) (world : World) : ∃ after,
    Prints { world with input := ⟨[]⟩ } (options.shown (delivered options.strict world.input)) after
      ∧ (processInput options : StateM World _) world
        = ((decodeSource world.input options.strict .unbounded).result, after) := by
  unfold processInput
  rw [World.bind_apply]
  simp only [Host.input]
  cases hmode : options.mode with
  | test =>
    rw [shown_test hmode]
    exact prints_testSource options world.input _
  | unzip =>
    rw [shown_unzip hmode]
    exact prints_printSource options world.input _

theorem processFiles_onlyReads (h : options.mode = .test ∨ options.output = .stdout)
    (names : List String) (world : World) : ∃ after,
      Prints world
          (options.shown (decodeInOrder options.strict (names.map world.files.openFile)).2) after
        ∧ (processFiles options names : StateM World _) world
          = ((decodeInOrder options.strict (names.map world.files.openFile)).1, after) := by
  induction names generalizing world with
  | nil =>
    refine ⟨world, ?_, rfl⟩
    rw [List.map_nil, decodeInOrder, shown_empty]
    exact .nothing world
  | cons name names ih =>
    obtain ⟨middle, hfirst, hfile⟩ := processFile_onlyReads h name world
    obtain ⟨notes, hcons⟩ := processFiles_cons options world name names
    rw [hcons, hfile, List.map_cons, decodeInOrder]
    cases Input.result options.strict (world.files.openFile name) with
    | error reason => exact ⟨_, hfirst.hear options notes, rfl⟩
    | ok summary =>
      -- the files behind the first are found as they were before it
      obtain ⟨after, hrest, hrun⟩ := ih (middle.hear options notes)
      have hfiles : (middle.hear options notes).files = world.files := hfirst.files
      rw [hfiles] at hrest hrun
      refine ⟨after, ?_, hrun⟩
      rw [shown_append]
      exact (hfirst.hear options notes).trans hrest

theorem decodeInOrder_singleton (input : Input) :
    decodeInOrder strict [input] = ((input.result strict).map fun _ => (), input.bytes strict) := by
  unfold decodeInOrder
  cases input.result strict with
  | error reason => rfl
  | ok summary =>
    simp only [decodeInOrder, ByteArray.append_empty]
    rfl

theorem decompress_eq_decodeInOrder (h : options.OnlyReads) (world : World) : ∃ after,
    Prints (options.opened world)
        (options.shown (decodeInOrder options.strict (options.inputs world)).2) after
      ∧ (decompress options : StateM World _) world
        = ((decodeInOrder options.strict (options.inputs world)).1, after) := by
  unfold decompress Options.inputs Options.opened
  cases hfiles : options.files with
  | nil =>
    obtain ⟨middle, hprints, hinput⟩ := processInput_onlyReads options world
    obtain ⟨notes, hconclude⟩ := conclude_apply options middle inputName
      (decodeSource world.input options.strict .unbounded).result
    rw [decodeInOrder_singleton]
    refine ⟨middle.hear options notes, hprints.hear options notes, ?_⟩
    simp only
    rw [World.bind_apply, hinput, hconclude]
    rfl
  | cons name names =>
    have hreads : options.mode = .test ∨ options.output = .stdout := by
      rcases h with hnone | hreads
      · rw [hfiles] at hnone
        cases hnone
      · exact hreads
    exact processFiles_onlyReads hreads (name :: names) world

/--
However inputs are read, without a file to write to, all that changes is what was printed and told;
and standard input is taken if there are no files, and only then. The result is the same for the same
inputs, and so is the exit status, which tells a failure of the data from one of the system, whatever
parser has turned the command line into these options. Printed are the bytes of all inputs up to the
first that fails, with what was delivered of that one.
-/
theorem decompress_onlyReads (options : Options) (world : World) (h : options.OnlyReads) :
    ∃ result bytes after, (decompress options : StateM World _) world = (result, after)
      ∧ Settled options.strict (options.inputs world) result bytes
      ∧ after.files = world.files
      ∧ after.input = (match options.files with
          | [] => ⟨[]⟩
          | _ => world.input)
      ∧ after.printed = (match options.mode with
          | .test => world.printed
          | .unzip => world.printed ++ bytes)
      ∧ Promised result (exitStatus result)
      ∧ (∀ parse words, parse words = .ok options →
          (runCommandWith parse words : StateM World _) world = (exitStatus result, after))
      ∧ ∀ (other : Options) (elsewhere : World), other.OnlyReads → other.strict = options.strict →
          other.inputs elsewhere = options.inputs world →
          ((decompress other : StateM World _) elsewhere).1 = result := by
  obtain ⟨after, hprints, hrun⟩ := decompress_eq_decodeInOrder h world
  obtain ⟨hfiles, hinput, hprinted⟩ : (options.opened world).files = world.files
      ∧ (options.opened world).input = (match options.files with
        | [] => ⟨[]⟩
        | _ => world.input)
      ∧ (options.opened world).printed = world.printed := by
    unfold Options.opened
    cases options.files <;> exact ⟨rfl, rfl, rfl⟩
  refine ⟨_, _, after, hrun, settled_decodeInOrder _, hprints.files.trans hfiles,
    hprints.input.trans hinput, ?_, promised_decodeInOrder _, ?_, ?_⟩
  · rw [hprints.printed, hprinted]
    cases hmode : options.mode with
    | test => rw [shown_test hmode, ByteArray.append_empty]
    | unzip => rw [shown_unzip hmode]
  · intro parse words hwords
    unfold runCommandWith
    rw [hwords]
    simp only
    rw [World.bind_apply, hrun]
    rfl
  · intro other elsewhere hother hstrict hinputs
    obtain ⟨after', -, hrun'⟩ := decompress_eq_decodeInOrder hother elsewhere
    rw [hrun', hstrict, hinputs]

/-- Asks for two files to be decoded into standard output. -/
def printTwo : Options where
  files := ["abab.bz2", "short"]
  force := false
  keep := false
  mode := .unzip
  output := .stdout
  strict := true
  verbosity := .warnings

/-- A stream of one block and a file that is no stream. -/
def shelf : World where
  files := (Files.Tree.empty.withFile ["abab.bz2"] StreamDecoder.ababStream).withFile ["short"] ⟨#[66]⟩
  input := ⟨[]⟩
  printed := ByteArray.empty
  told := #[]

/-- The bytes of the first file are printed before the second one fails. -/
theorem decompress_onlyReads_shelf :
    printTwo.OnlyReads ∧ ∃ result bytes after,
      (decompress printTwo : StateM World _) shelf = (result, after)
        ∧ result = .error (.endOfStream 8) ∧ bytes = ⟨#[97, 98, 97, 98]⟩
        ∧ Settled true (printTwo.inputs shelf) result bytes
        ∧ after.files = shelf.files ∧ after.printed = bytes
        ∧ Promised result (exitStatus result) := by
  have hreads : printTwo.OnlyReads := .inr (.inr rfl)
  obtain ⟨result, bytes, after, hrun, hsettled, hfiles, -, hprinted, hpromised, -⟩ :=
    decompress_onlyReads printTwo shelf hreads
  obtain ⟨hresult, houtput⟩ : ((decompress printTwo : StateM World _) shelf).1 = .error (.endOfStream 8)
      ∧ ((decompress printTwo : StateM World _) shelf).2.printed = ⟨#[97, 98, 97, 98]⟩ := by
    decide +kernel
  rw [hrun] at hresult houtput
  have hbytes : after.printed = bytes := hprinted.trans ByteArray.empty_append
  exact ⟨hreads, result, bytes, after, hrun, hresult, hbytes.symm.trans houtput, hsettled, hfiles,
    hbytes, hpromised⟩

end Bunzip

import Bunzip.Command.Decompress
import Bunzip.Command.World
import Bunzip.Proofs.Outcome

/-!
# What a step of the command does to a world

Each step is a function of the world it runs in. Notes are shown to the user and change nothing else,
so a world can be told something at any time: what matters of it stays the same.
-/

namespace Bunzip

/-- The world after the user was shown the notes. -/
def World.hear (options : Options) (notes : List Note) (world : World) : World :=
  { world with told := world.told ++ (notes.filter (·.shownAt options.verbosity.limit)).toArray }

/-- The bytes that a source is decoded to, up to a failure. -/
def delivered (strict : Bool) (source : Source) : ByteArray :=
  (decodeSource source strict .unbounded).state.taken

theorem World.bind_apply {α β : Type} (x : StateM World α) (f : α → StateM World β)
    (world : World) : (x >>= f) world = f (x world).1 (x world).2 := rfl

variable (options : Options) (world : World)

theorem tellAll_apply (notes : List Note) :
    (tellAll options notes : StateM World Unit) world = ((), world.hear options notes) := by
  induction notes generalizing world with
  | nil => simp [tellAll, World.hear, pure, StateT.pure]
  | cons note notes ih =>
    rw [tellAll]
    by_cases hshown : note.shownAt options.verbosity.limit = true
    · rw [if_pos hshown]
      refine (ih _).trans ?_
      simp [World.hear, hshown]
    · rw [if_neg hshown]
      refine (ih _).trans ?_
      simp [World.hear, hshown]

theorem decodeAndTell_apply (source : Source) :
    (decodeAndTell options source : StateM World _) world
      = (((decodeSource source options.strict .unbounded).result, delivered options.strict source),
        world.hear options (decodeSource source options.strict .unbounded).notes) := by
  unfold decodeAndTell
  rw [World.bind_apply, tellAll_apply]
  rfl

theorem testSource_apply (source : Source) :
    (testSource options source : StateM World _) world
      = ((decodeSource source options.strict .unbounded).result,
        world.hear options (decodeSource source options.strict .unbounded).notes) := by
  unfold testSource
  rw [World.bind_apply, decodeAndTell_apply]
  rfl

/-- Everything that was delivered is printed, also if a failure came after it. -/
theorem printSource_apply (source : Source) :
    (printSource options source : StateM World _) world
      = ((decodeSource source options.strict .unbounded).result,
        { world.hear options (decodeSource source options.strict .unbounded).notes with
          printed := world.printed ++ delivered options.strict source }) := by
  unfold printSource
  rw [World.bind_apply, decodeAndTell_apply]
  cases (decodeSource source options.strict .unbounded).result <;> rfl

/-- How an input ended is told, and nothing else is done. -/
theorem conclude_apply (name : String) (result : Except DecodeError StreamSummary) :
    ∃ notes, (conclude options name result : StateM World _) world
      = (result.map fun _ => (), world.hear options notes) := by
  cases result with
  | ok summary =>
    refine ⟨[finishedNote options name summary], ?_⟩
    rw [conclude, World.bind_apply, tellAll_apply]
    rfl
  | error reason =>
    refine ⟨[.failed name reason], ?_⟩
    rw [conclude, World.bind_apply, tellAll_apply]
    rfl

/-- The files are processed up to the first that fails. -/
theorem processFiles_cons (name : String) (names : List String) :
    ∃ notes, (processFiles options (name :: names) : StateM World _) world
      = match (processFile options name : StateM World _) world with
        | (.error reason, after) => (.error reason, after.hear options notes)
        | (.ok _, after) => (processFiles options names : StateM World _) (after.hear options notes) := by
  obtain ⟨notes, hconclude⟩ := conclude_apply options
    ((processFile options name : StateM World _) world).2 name
    ((processFile options name : StateM World _) world).1
  refine ⟨notes, ?_⟩
  rw [processFiles, World.bind_apply, World.bind_apply, hconclude]
  cases hfile : (processFile options name : StateM World _) world with
  | mk result after => cases result <;> rfl

end Bunzip

import Bunzip.Block.Expansion
import Bunzip.RotationLinks
import Bunzip.RunLength

/-!
# Unrolling a block

What comes from a walk along the links is still coded in runs. Unrolling undoes that while bytes are
handed out: as many at a time as the caller has room for, so a run may be cut in two, and what is
still owed of it is kept for the next time.
-/

namespace Bunzip

/-- The bytes of a block that have not been handed out. -/
structure Unrolled where
  walk : Walk
  runs : RunLength
  /-- How many copies of `copied` come before anything else. -/
  owed : Nat
  copied : UInt8
  deriving DecidableEq

namespace Unrolled

/-- All bytes of a walk. -/
def start (walk : Walk) : Unrolled := ⟨walk, .start, 0, 0⟩

/-- A number of bytes that is certainly not exceeded by what is to come. -/
def bound (rest : Unrolled) : Nat := 256 * rest.walk.remaining + rest.owed

/-- Whether everything has been handed out. -/
def isExhausted (rest : Unrolled) : Bool := rest.owed == 0 && rest.walk.remaining == 0

/-- Hands out bytes until there is no more room or no more of them. -/
def fill (walk : Walk) (runs : RunLength) (owed : Nat) (copied : UInt8) (room : Nat)
    (out : ByteArray) : ByteArray × Unrolled :=
  if room = 0 then (out, ⟨walk, runs, owed, copied⟩)
  else if 0 < owed then
    let n := min owed room
    fill walk runs (owed - n) copied (room - n) (Expansion.pushMany copied n out)
  else match _step : walk.next with
    | none => (out, ⟨walk, runs, owed, copied⟩)
    | some (byte, walk) => match runs.push byte with
      | (.literal byte, runs) => fill walk runs 0 copied (room - 1) (out.push byte)
      | (.repeated byte count, runs) => fill walk runs count byte room out
termination_by walk.remaining + room
decreasing_by
  · omega
  · have := Walk.remaining_next _step
    omega
  · have := Walk.remaining_next _step
    omega

/-- Hands out up to `room` bytes, and fewer only at the end of the block. -/
def take (room : Nat) (rest : Unrolled) : ByteArray × Unrolled :=
  fill rest.walk rest.runs rest.owed rest.copied room ByteArray.empty

/-! ## The bound -/

theorem size_pushMany (byte : UInt8) (n : Nat) (out : ByteArray) :
    (Expansion.pushMany byte n out).size = out.size + n := by
  induction n generalizing out with
  | zero => rfl
  | succ n ih =>
    rw [Expansion.pushMany, ih, ByteArray.size_push]
    omega

/-- Whatever is handed out counts against the bound. -/
theorem fill_bound (walk : Walk) (runs : RunLength) (owed : Nat) (copied : UInt8) (room : Nat)
    (out : ByteArray) :
    (fill walk runs owed copied room out).1.size + (fill walk runs owed copied room out).2.bound
      ≤ out.size + (256 * walk.remaining + owed) := by
  fun_induction fill walk runs owed copied room out with
  | case1 => simp [bound]
  | case2 walk runs owed copied room out more waiting n ih =>
    rw [size_pushMany] at ih
    omega
  | case3 => simp [bound]
  | case4 walk runs owed copied room out more none byte after step literal runs' pushed ih =>
    have fewer := Walk.remaining_next step
    rw [ByteArray.size_push] at ih
    omega
  | case5 walk runs owed copied room out more none byte after step count repeated runs' pushed ih =>
    have fewer := Walk.remaining_next step
    obtain ⟨_, _, short⟩ := RunLength.run_of_repeated pushed
    omega

theorem take_bound (room : Nat) (rest : Unrolled) :
    (rest.take room).1.size + (rest.take room).2.bound ≤ rest.bound := by
  have h := fill_bound rest.walk rest.runs rest.owed rest.copied room ByteArray.empty
  simpa [take, bound] using h

end Unrolled

end Bunzip

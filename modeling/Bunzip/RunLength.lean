/-!
# Runs of bytes

The outermost coding of a block writes a run of four to 259 equal bytes as four of them and a byte
that counts the others. Undoing it needs the last byte and the length of the run that ends with it:
after four equal bytes the next one is a count, and after a count a new run starts.
-/

namespace Bunzip

/-- What one coded byte stands for. -/
inductive RunStep where
  /-- The byte itself. -/
  | literal (byte : UInt8)
  /-- Further copies of the byte that was just repeated. -/
  | repeated (byte : UInt8) (count : Nat)
  deriving DecidableEq, Repr

/-- The run that the bytes so far end with. -/
structure RunLength where
  last : UInt8
  run : Nat
  deriving DecidableEq, Repr

namespace RunLength

/-- No bytes yet. -/
def start : RunLength := ⟨0, 0⟩

/-- Takes in one coded byte. -/
@[inline] def push (runs : RunLength) (byte : UInt8) : RunStep × RunLength :=
  if runs.run = 4 then (.repeated runs.last byte.toNat, ⟨runs.last, 0⟩)
  else if 0 < runs.run ∧ byte = runs.last then (.literal byte, ⟨byte, runs.run + 1⟩)
  else (.literal byte, ⟨byte, 1⟩)

/-- A byte that stands for itself adds at most one to the run. -/
theorem run_of_literal {runs after : RunLength} {byte literal : UInt8}
    (h : runs.push byte = (.literal literal, after)) : after.run ≤ runs.run + 1 := by
  unfold push at h
  split at h
  · cases h
  · split at h
    · cases h
      exact Nat.le_refl _
    · cases h
      exact Nat.le_add_left 1 _

/-- A count comes after a run of four, ends it, and is a byte. -/
theorem run_of_repeated {runs after : RunLength} {byte repeated : UInt8} {count : Nat}
    (h : runs.push byte = (.repeated repeated count, after)) :
    runs.run = 4 ∧ after.run = 0 ∧ count ≤ 255 := by
  unfold push at h
  split at h
  · next hfour =>
    cases h
    exact ⟨hfour, rfl, Nat.le_of_lt_succ byte.toNat_lt⟩
  · split at h <;> cases h

end RunLength

end Bunzip

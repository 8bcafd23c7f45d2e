import Bunzip.Outcome

/-!
# Symbol maps

A block says which byte values it uses in two levels. An index word marks the ranges of sixteen
values in which at least one is used; for each of those a word of its own marks the values. In all
words the most significant bit of sixteen stands for the first range or value.
-/

namespace Bunzip.SymbolMap

/-- Whether the bit for place `i` of sixteen is set in a word. -/
def marked (word i : Nat) : Bool := word.testBit (15 - i)

/-- The places marked in a word, in ascending order. -/
def places (word : Nat) : List Nat := (List.range 16).filter (marked word)

/-- The values that the words mark, each word in its range; ends with the words or the ranges. -/
def valuesIn : (ranges words : List Nat) → List Nat
  | range :: ranges, word :: words => (places word).map (16 * range + ·) ++ valuesIn ranges words
  | _, _ => []

/-- The byte values that a map marks, in ascending order. The index word comes first. -/
def values : List Nat → List UInt8
  | [] => []
  | index :: words => (valuesIn (places index) words).map UInt8.ofNat

/-- Reads `n` words of sixteen bits. -/
def readWords : Nat → Read (List Nat)
  | 0 => pure []
  | n + 1 => do
    let word ← BitReader.number 16
    return word :: (← readWords n)

/-- Reads the index word and a word for each range that it marks. -/
def readMap : Read (List Nat) := do
  let index ← BitReader.number 16
  return index :: (← readWords (places index).length)

/-- Reads a map and gives the byte values it marks; at least one has to be marked. -/
def read : Op BitReader (List UInt8) := do
  let words ← Op.read readMap
  Op.noteAll (words.map Note.symbolWord)
  let found := values words
  if found.isEmpty then Op.read (BitReader.corrupt .noSymbols) else return found

/-! ## Bits spent -/

theorem spends_readWords (n : Nat) : Read.Spends (16 * n) (readWords n) := by
  induction n with
  | zero => exact Read.Spends.pure []
  | succ n ih =>
    rw [Nat.mul_succ, Nat.add_comm]
    exact (BitReader.spends_number 16).bind fun _ => ih.map _

theorem spends_readMap : Read.Spends 16 readMap :=
  (BitReader.spends_number 16).bind fun _ => ((spends_readWords _).map _).any

theorem spends_read : Op.Spends BitReader.bitsLeft 0 read := by
  refine (Op.Spends.read spends_readMap.any).andThen fun words =>
    (Op.Spends.noteAll _).andThen fun _ => ?_
  by_cases none : (values words).isEmpty
  · rw [if_pos none]
    exact Op.Spends.read (Read.Spends.corrupt 0 _)
  · rw [if_neg none]
    exact Op.Spends.pure _

end Bunzip.SymbolMap

import Bunzip.BitReader

/-!
# Canonical prefix codes

Only the length of each symbol's codeword is transmitted. The codewords follow from the lengths:
within a length they are consecutive numbers, handed out in the order of the symbols, and the first
codeword of a length continues from the last one of the length before. So one row per length is
enough to decode: the largest codeword of the length, and what to subtract from a codeword to get
its place among all symbols sorted by length.

Lengths that leave codewords unused are fine: reading one of those is a corruption. Lengths that
hand out more codewords than there are give a code in which some symbols are out of reach.
-/

namespace Bunzip

/-- What decoding needs to know about one length. -/
structure PrefixRow where
  /-- The largest codeword of this length; less than all codewords if there are none. -/
  limit : Int32
  /-- The first codeword of this length less the number of shorter ones. -/
  base : Int32
  deriving DecidableEq

/-- A canonical prefix code. -/
structure PrefixCode where
  minLength : Nat
  maxLength : Nat
  /-- One row for each length from the shortest to the longest. -/
  rows : List PrefixRow
  /-- The symbols by length, and by number within a length. -/
  symbols : Array UInt16
  deriving DecidableEq

namespace PrefixCode

/-- The longest codeword that the format allows. -/
def longest : Nat := 20

/-- The rows of `count` lengths from `length` on, where the first codeword is `first`. -/
def rowsFrom (lengths : List Nat) : (count length : Nat) → (first shorter : Int32) → List PrefixRow
  | 0, _, _, _ => []
  | count + 1, length, first, shorter =>
    let here := Int32.ofNat (lengths.count length)
    ⟨first + here - 1, first - shorter⟩ ::
      rowsFrom lengths count (length + 1) ((first + here) <<< 1) (shorter + here)

/-- The symbols whose codewords have the given length, in ascending order. -/
def symbolsOfLength (lengths : List Nat) (length : Nat) : List UInt16 :=
  lengths.zipIdx.filterMap fun (l, symbol) => if l = length then some (UInt16.ofNat symbol) else none

/-- The code with the given length for each symbol; none without symbols or with a length outside 1 to 20. -/
def ofLengths? (lengths : List Nat) : Option PrefixCode :=
  match lengths.min?, lengths.max? with
  | some minLength, some maxLength =>
    if 0 < minLength ∧ maxLength ≤ longest then
      let count := maxLength + 1 - minLength
      some {
        minLength, maxLength
        rows := rowsFrom lengths count minLength 0 0
        symbols := ((List.range' minLength count).flatMap (symbolsOfLength lengths)).toArray }
    else none
  | _, _ => none

/-- The symbol at a place among the sorted symbols. -/
def symbolAt (code : PrefixCode) (place : Int32) : Option UInt16 :=
  if place < 0 then none else code.symbols[place.toNatClampNeg]?

/-- Compares the bits so far with the rows of their length and of all longer ones, reading on. -/
def match? (code : PrefixCode) : List PrefixRow → Int32 → Read UInt16
  | [], _ => BitReader.corrupt .invalidCode
  | row :: longer, codeword =>
    if codeword ≤ row.limit then
      match code.symbolAt (codeword - row.base) with
      | some symbol => pure symbol
      | none => BitReader.corrupt .invalidCode
    else if longer.isEmpty then BitReader.corrupt .invalidCode
    else do
      let next ← BitReader.bit
      match? code longer ((codeword <<< 1) ||| (if next then 1 else 0))

/-- Reads one codeword. -/
def decode (code : PrefixCode) : Read UInt16 := do
  let codeword ← BitReader.bits code.minLength
  code.match? code.rows codeword.toInt32

end PrefixCode

end Bunzip

import Bunzip.MoveToFront
import Bunzip.Outcome
import Bunzip.PrefixCode

/-!
# Codes by group

A block has between two and six prefix codes. Its symbols come in groups of fifty, and each group
names the code it is written in by a selector. Selectors are transmitted as ranks in a recency list
of the codes, in unary; codes as the first length and the steps from each length to the next.
-/

namespace Bunzip

/-- The codes of a block and the groups still to come. -/
structure GroupCodes where
  tables : Array PrefixCode
  /-- The selectors of the groups that have not begun. -/
  pending : List Nat
  /-- How many symbols are left of the group that has begun. -/
  groupLeft : Nat
  /-- The selector of that group. -/
  current : Nat
  deriving DecidableEq

namespace GroupCodes

/-- How many symbols share a selector. -/
def groupSize : Nat := 50

/-- The fewest codes a block may have. -/
def minTables : Nat := 2

/-- The most codes a block may have. -/
def maxTables : Nat := 6

/-- The codes before the first symbol. -/
def start (tables : Array PrefixCode) (selectors : List Nat) : GroupCodes :=
  ⟨tables, selectors, 0, 0⟩

/-! ## Decoding symbols -/

/-- How many symbols the selectors are good for. -/
def symbolsLeft (codes : GroupCodes) : Nat := codes.groupLeft + groupSize * codes.pending.length

/-- Turns to the next symbol, in the same group or in a new one; none when the selectors are used up. -/
@[inline] def advance? (codes : GroupCodes) : Option GroupCodes :=
  if 0 < codes.groupLeft then some { codes with groupLeft := codes.groupLeft - 1 }
  else match codes.pending with
    | [] => none
    | selector :: pending =>
      some { codes with current := selector, pending, groupLeft := groupSize - 1 }

/-- Decodes a symbol with the code of the current group. -/
@[inline] def decode (codes : GroupCodes) : Read UInt16 :=
  match codes.tables[codes.current]? with
  | none => throw (.defect (.tableIndex codes.current))
  | some table => table.decode

/-- Decodes the next symbol. The turn is taken even if no codeword is found. -/
def next : EStateM DecodeError (GroupCodes × BitReader) UInt16 := fun (codes, reader) =>
  match codes.advance? with
  | none => .error (.corrupt reader.position .selectorsExhausted) (codes, reader)
  | some codes =>
    match codes.decode reader with
    | .ok symbol reader => .ok symbol (codes, reader)
    | .error reason reader => .error reason (codes, reader)

theorem symbolsLeft_advance {codes after : GroupCodes} (h : codes.advance? = some after) :
    after.symbolsLeft + 1 = codes.symbolsLeft := by
  unfold advance? at h
  by_cases inside : 0 < codes.groupLeft
  · rw [if_pos inside] at h
    cases h
    simp only [symbolsLeft]
    omega
  · rw [if_neg inside] at h
    cases hp : codes.pending with
    | nil => rw [hp] at h; cases h
    | cons selector pending =>
      rw [hp] at h
      cases h
      simp only [symbolsLeft, hp, List.length_cons, groupSize]
      omega

/-! ## Reading the codes -/

/-- Reads the ranks of `n` selectors, most recently used code first, and appends what they select. -/
def readSelectors (tables : Nat) : Nat → MoveToFront → Array Nat → Read (Array Nat)
  | 0, _, selectors => pure selectors
  | n + 1, recent, selectors => do
    let rank ← BitReader.ones tables
    if tables ≤ rank then BitReader.corrupt (.selectorRank rank)
    else match recent.promote rank with
      | none => throw (.defect (.rankIndex rank))
      | some (selector, recent) => readSelectors tables n recent (selectors.push selector.toNat)

/-- The length that a step of one leads to. -/
def stepped (length : Int) (down : Bool) : Int := if down then length - 1 else length + 1

/--
Follows the steps of one up or down to the length of a symbol. Each length on the way, the first one
included, has to lie between 1 and 20.
-/
def settleLength (table symbol : Nat) (length : Int) : Read Int := fun reader =>
  if length < 1 ∨ PrefixCode.longest < length then
    BitReader.corrupt (.codeLength table symbol length) reader
  else match flagged : BitReader.bit reader with
    | .error reason stopped => .error reason stopped
    | .ok false settled => .ok length settled
    | .ok true stepping => match directed : BitReader.bit stepping with
      | .error reason stopped => .error reason stopped
      | .ok down there =>
        have _flag := BitReader.spends_bit.of_ok flagged
        have _step := BitReader.spends_bit.of_ok directed
        settleLength table symbol (stepped length down) there
termination_by reader => reader.bitsLeft
decreasing_by omega

/-- Reads the lengths of the symbols from `symbol` on, where the one before had the given length. -/
def readLengthsFrom (table : Nat) : (count symbol : Nat) → Int → Array Nat → Read (Array Nat)
  | 0, _, _, lengths => pure lengths
  | count + 1, symbol, length, lengths => do
    let length ← settleLength table symbol length
    readLengthsFrom table count (symbol + 1) length (lengths.push length.toNat)

/-- Reads one length for each symbol of an alphabet. -/
def readLengths (table alphabet : Nat) : Read (List Nat) := do
  let first ← BitReader.number 5
  return (← readLengthsFrom table alphabet 0 first #[]).toList

/-- Reads one code for an alphabet. -/
def readTable (table alphabet : Nat) : Op BitReader PrefixCode := do
  let lengths ← Op.read (readLengths table alphabet)
  match PrefixCode.ofLengths? lengths with
  | none => Op.read (BitReader.corrupt .invalidCode)
  | some code =>
    Op.note (.table table code.minLength code.maxLength (← Op.get).position)
    return code

/-- Reads `count` codes, numbered from `table` on, and appends them. -/
def readTables (alphabet : Nat) : (count table : Nat) → Array PrefixCode →
    Op BitReader (Array PrefixCode)
  | 0, _, tables => pure tables
  | count + 1, table, tables => do
    let code ← readTable table alphabet
    readTables alphabet count (table + 1) (tables.push code)

/-- Reads the number of codes, the selectors and the codes for an alphabet of the given size. -/
def read (alphabet : Nat) : Op BitReader GroupCodes := do
  let tableCount ← Op.read (BitReader.number 3)
  if tableCount < minTables ∨ maxTables < tableCount then
    Op.read (BitReader.corrupt (.tableCount tableCount))
  else
    let selectorCount ← Op.read (BitReader.number 15)
    if selectorCount = 0 then Op.read (BitReader.corrupt (.selectorCount selectorCount))
    else
      let selectors ← Op.read (readSelectors tableCount selectorCount .start #[])
      let tables ← readTables alphabet tableCount 0 #[]
      Op.note (.selectors selectorCount tableCount alphabet)
      match selectors.find? (tables.size ≤ ·) with
      | some selector => Op.fail (.defect (.tableIndex selector))
      | none => return start tables selectors.toList

end GroupCodes

end Bunzip

import Bunzip.Histogram
import Bunzip.MoveToFront
import Bunzip.Source

/-!
# From symbols to the last column

The symbols of a block spell its last column. Those above 1 name a byte by its rank in a recency
list of the bytes in use, less one. Rank 0 never stands alone: the symbols 0 and 1 are the digits, of
value one and two, of the number of times the byte in front is repeated, lowest digit first. The
symbol after all ranks ends the block.

A column must not outgrow the limit of its stream. That is checked before anything is appended, also
while a run is still being counted. A symbol that is refused leaves the column as far as it got.
-/

namespace Bunzip

/-- Why an expansion came to a halt. -/
inductive Halt where
  /-- The column would outgrow its limit. -/
  | overflow
  /-- A promise of the library was broken. -/
  | defect (what : Defect)
  deriving DecidableEq, Repr

/-- The column so far, and the run that has been counted but not appended. -/
structure Expansion where
  column : ByteArray
  counts : Histogram
  recent : MoveToFront
  /-- The length of the run so far. -/
  run : Nat
  /-- What the next digit of the run counts for. -/
  weight : Nat
  deriving DecidableEq

namespace Expansion

/-- Goes on with a column that has been counted, with no run and all numbers in order. -/
def resume (column : ByteArray) (counts : Histogram) : Expansion := ⟨column, counts, .start, 0, 1⟩

/-- An empty column. -/
def start : Expansion := resume ByteArray.empty .empty

/-- The symbol that ends a block with so many bytes in use. -/
@[inline] def endSymbol (used : Nat) : Nat := used + 1

/-- Appends `n` copies of a byte. -/
def pushMany (byte : UInt8) : (n : Nat) → ByteArray → ByteArray
  | 0, out => out
  | n + 1, out => pushMany byte n (out.push byte)

/-- Runs and their digits are counted in words of 64 bits. -/
def runLimit : Nat := UInt64.size

/-- The occurrences of a byte are counted in words of 32 bits. -/
def countLimit : Nat := UInt32.size

/-- Takes in a digit of a run. -/
@[inline] def digit (limit symbol : Nat) (e : Expansion) : Except Halt Expansion :=
  let run := e.run + e.weight <<< symbol
  if runLimit ≤ run ∨ runLimit ≤ e.weight * 2 then .error (.defect (.runLength run))
  else if limit < run then .error .overflow else .ok { e with run, weight := e.weight * 2 }

/-- Counts `n` further occurrences of a byte. -/
@[inline] def tally (byte : UInt8) (n : Nat) (e : Expansion) : Except Halt Histogram :=
  if countLimit ≤ e.counts.count byte + n then .error (.defect (.byteCount (e.counts.count byte + n)))
  else .ok (e.counts.add byte n)

/-- The byte in use with the given number. -/
@[inline] def byteAt (used : Array UInt8) (number : UInt8) : Except Halt UInt8 :=
  match used[number.toNat]? with
  | none => .error (.defect (.symbolIndex number.toNat))
  | some byte => .ok byte

/-- Appends the run that has been counted. -/
@[inline] def settle (limit : Nat) (used : Array UInt8) (e : Expansion) : Except Halt Expansion :=
  if e.run = 0 then .ok e
  else if limit < e.column.size + e.run then .error .overflow
  else match e.recent.front with
    | none => .error (.defect (.rankIndex 0))
    | some number => match byteAt used number with
      | .error halt => .error halt
      | .ok byte => match e.tally byte e.run with
        | .error halt => .error halt
        | .ok counts => .ok { e with
            column := pushMany byte e.run e.column
            counts
            run := 0
            weight := 1 }

/-- Appends the byte with the given rank. -/
@[inline] def literal (limit : Nat) (used : Array UInt8) (rank : Nat) (e : Expansion) :
    Except Halt Expansion :=
  if limit ≤ e.column.size then .error .overflow
  else match e.recent.promote rank with
    | none => .error (.defect (.rankIndex rank))
    | some (number, recent) => match byteAt used number with
      | .error halt => .error halt
      | .ok byte => match e.tally byte 1 with
        | .error halt => .error halt
        | .ok counts => .ok { e with column := e.column.push byte, counts, recent }

/-- Takes a step, or leaves everything as it was. -/
@[inline] def step (f : Expansion → Except Halt Expansion) : EStateM Halt Expansion Unit := fun e =>
  match f e with
  | .error halt => .error halt e
  | .ok e => .ok () e

/-- Takes in a symbol. The one that ends the block only appends the last run. -/
@[inline] def push (limit : Nat) (used : Array UInt8) (symbol : Nat) :
    EStateM Halt Expansion Unit :=
  if symbol < 2 then step (digit limit symbol)
  else do
    step (settle limit used)
    if symbol = endSymbol used.size then pure () else step (literal limit used (symbol - 1))

end Expansion

end Bunzip

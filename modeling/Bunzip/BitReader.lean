import Bunzip.Source

/-!
# Reading bits

A reader takes bytes from a source, one buffer at a time, and hands out their bits, most significant
first. Bits that were pulled out of the buffer and not yet handed out are held in a word. A field of
up to 32 bits is read by pulling whole bytes until enough bits are held; so a word of 64 bits never
loses one.

A read that fails leaves the reader as it is, with what it has pulled so far: the position does not
move, and when the trouble is over the same read can be tried again.
-/

namespace Bunzip

/-- A place in the bit string of a source. -/
structure BitReader where
  /-- What the source has still to deliver. -/
  source : Source
  /-- The last delivery. -/
  buffer : ByteArray
  /-- How many bytes of the buffer have been pulled. -/
  cursor : Nat
  /-- Bits pulled and not handed out: the lowest `count` of the word. -/
  held : UInt64
  count : Nat
  /-- How many bytes have been pulled in all. -/
  pulled : Nat
  deriving DecidableEq

/-- A computation that reads bits and may fail; after a failure the reader stays usable. -/
abbrev Read := EStateM DecodeError BitReader

namespace BitReader

/-- A reader at the start of a source. -/
def ofSource (source : Source) : BitReader := ⟨source, ByteArray.empty, 0, 0, 0, 0⟩

/-- How many bits have been handed out. -/
def position (reader : BitReader) : Nat := reader.pulled * 8 - reader.count

/-- How many bits can still be handed out. -/
def bitsLeft (reader : BitReader) : Nat :=
  reader.count + 8 * (reader.buffer.size - reader.cursor + reader.source.size)

/-- Puts a byte below the bits held. -/
@[inline] def hold (reader : BitReader) (byte : UInt8) : BitReader :=
  { reader with
    held := (reader.held <<< 8) ||| byte.toUInt64
    count := reader.count + 8
    pulled := reader.pulled + 1 }

/-- Whether the word has room for one more byte below the bits held. -/
@[inline] def hasRoom (reader : BitReader) : Bool := reader.held < 0x100000000000000

/-- Pulls one byte, from the buffer or from the next delivery. -/
def pull : Read Unit := fun reader =>
  if !reader.hasRoom then .error (.defect (.heldBits reader.count)) reader
  else if h : reader.cursor < reader.buffer.size then
    .ok () { reader.hold (reader.buffer[reader.cursor]) with cursor := reader.cursor + 1 }
  else
    match Source.ask Source.pieceLimit reader.source.deliveries with
    | (.error error, deliveries) => .error (.io error) { reader with source := ⟨deliveries⟩ }
    | (.ok bytes, deliveries) =>
      if h : 0 < bytes.size then
        .ok () { reader.hold (bytes[0]) with
          buffer := bytes
          cursor := 1
          source := ⟨deliveries⟩ }
      else .error (.endOfStream reader.position) { reader with source := ⟨deliveries⟩ }

/-- Pulls that many bytes. -/
def pullMany : Nat → Read Unit
  | 0 => pure ()
  | n + 1 => do
    pull
    pullMany n

/-- Hands out the first `n` of the bits held. -/
@[inline] def take (n : Nat) : Read UInt32 := fun reader =>
  if reader.count < n ∨ 64 ≤ reader.count then .error (.defect (.heldBits reader.count)) reader
  else
  let rest := reader.count - n
  let field := (reader.held >>> UInt64.ofNat rest) &&& ((1 <<< UInt64.ofNat n) - 1)
  .ok field.toUInt32
    { reader with
      held := reader.held &&& ((1 <<< UInt64.ofNat rest) - 1)
      count := rest }

/-- How many bytes are missing before `n` bits are held. -/
@[inline] def missing (reader : BitReader) (n : Nat) : Nat := (n - reader.count + 7) / 8

/-- The next `n` bits, the first one most significant; `n` lies between 1 and 32. -/
def bits (n : Nat) : Read UInt32 := do
  if n = 0 ∨ 32 < n then throw (.defect (.fieldWidth n))
  pullMany ((← get).missing n)
  take n

/-- The next `n` bits as a number. -/
def number (n : Nat) : Read Nat := do
  return (← bits n).toNat

/-- The next bit. -/
def bit : Read Bool := do
  return (← bits 1) == 1

/-- Goes on counting ones after `count` of them, see `ones`. -/
def onesAfter (count : Nat) : (limit : Nat) → Read Nat
  | 0 => pure count
  | limit + 1 => do
    if ← bit then onesAfter (count + 1) limit else return count

/--
Counts ones up to the zero that ends them. Stops without reading on at `limit` ones, which is the
first count that is too many.
-/
def ones (limit : Nat) : Read Nat := onesAfter 0 limit

/-- A word of 32 bits, read as two halves. -/
def word : Read UInt32 := do
  let high ← bits 16
  let low ← bits 16
  return (high <<< 16) ||| low

/-- The next eight bits. -/
def byte : Read UInt8 := do
  return (← bits 8).toUInt8

/-- Appends the next `n` bytes to `out`. -/
def bytesOnto (out : ByteArray) : Nat → Read ByteArray
  | 0 => pure out
  | n + 1 => do
    let next ← byte
    bytesOnto (out.push next) n

/-- The next `n` bytes. -/
def bytes (n : Nat) : Read ByteArray := bytesOnto ByteArray.empty n

/-- Fails a check of the format at the place reached. -/
def corrupt {α : Type} (reason : Corruption) : Read α := fun reader =>
  .error (.corrupt reader.position reason) reader

end BitReader

end Bunzip

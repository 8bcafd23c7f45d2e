import Bunzip.Block.Unrolled
import Bunzip.Checksum
import Bunzip.Outcome
import Bunzip.Sink

/-!
# Decoded blocks

A decoded block hands out its bytes, either into a buffer of the caller's size or all at once into a
sink. It keeps the checksum and the number of all bytes that it has handed out, and knows the
checksum that was stored with it.

Draining into a sink goes by chunks. Bytes count as handed out when they have left the block, also if
the sink then refuses them.
-/

namespace Bunzip

/-- What a decoded block was like. -/
structure BlockReport where
  /-- The number of the block in its stream, from 1 on. -/
  index : Nat
  crc : UInt32
  /-- The length of the last column. -/
  columnLength : Nat
  /-- The number of bytes handed out. -/
  outputLength : Nat
  deriving DecidableEq, Repr

/-- A block whose bytes can be handed out. -/
structure DecodedBlock where
  rest : Unrolled
  /-- The checksum of the bytes handed out. -/
  crc : Crc
  /-- The checksum stored with the block. -/
  stored : UInt32
  index : Nat
  columnLength : Nat
  /-- How many bytes have been handed out. -/
  emitted : Nat
  deriving DecidableEq

namespace DecodedBlock

/-- The most bytes handed to a sink at a time. -/
def chunkLimit : Nat := 65536

/-- Hands out up to `room` bytes; none only when there is no room or nothing left. -/
def read (room : Nat) (block : DecodedBlock) : ByteArray × DecodedBlock :=
  let (bytes, rest) := block.rest.take room
  (bytes, { block with
    rest
    crc := block.crc.updateBytes bytes
    emitted := block.emitted + bytes.size })

/-- Whether everything has been handed out. -/
def isExhausted (block : DecodedBlock) : Bool := block.rest.isExhausted

/-- What the block was like so far. -/
def report (block : DecodedBlock) : BlockReport :=
  ⟨block.index, block.crc.value, block.columnLength, block.emitted⟩

/-- Compares the checksum of the bytes handed out with the stored one. -/
def verify {σ : Type} (block : DecodedBlock) : Op σ UInt32 := do
  let computed := block.crc.value
  Op.note (.checked block.index block.stored computed)
  if computed ≠ block.stored then Op.fail (.blockChecksum block.index block.stored computed)
  else return computed

theorem read_bound (room : Nat) (block : DecodedBlock) :
    (block.read room).1.size + (block.read room).2.rest.bound ≤ block.rest.bound :=
  block.rest.take_bound room

/-- Writes the rest of the block in chunks of the given size, after `written` bytes. -/
def drainBy (chunk written : Nat) (block : DecodedBlock) (sink : Sink) :
    EStateM.Result DecodeError (DecodedBlock × Sink) Nat :=
  match _taken : block.read chunk with
  | (bytes, after) =>
    if _some : 0 < bytes.size then
      match sink.write bytes with
      | (.error error, sink) => .error (.io error) (after, sink)
      | (.ok (), sink) => drainBy chunk (written + bytes.size) after sink
    else .ok written (after, sink)
termination_by block.rest.bound
decreasing_by
  have fewer := read_bound chunk block
  rw [_taken] at fewer
  simp only at fewer
  omega

/-- The size of the chunks in which the rest of a block is written. -/
def chunkSize (block : DecodedBlock) : Nat := max 1 (min chunkLimit (block.rest.walk.remaining + 255))

/-- Writes the rest of the block to a sink and gives the number of bytes written. -/
def drain : EStateM DecodeError (DecodedBlock × Sink) Nat := fun (block, sink) =>
  drainBy block.chunkSize 0 block sink

end DecodedBlock

end Bunzip

import Bunzip.Error

/-!
# Byte sources

A source is what it will deliver, in order: pieces of a byte string and failures. Nothing else can be
observed of a file, a pipe or a socket. A delivery of no bytes says that there are none now, which a
reader takes for the end of the data; a source that is asked again goes on with what comes next.
-/

namespace Bunzip

/-- Byte strings are compared as arrays of bytes. The priority settles which procedure is meant where
a library brings one of its own. -/
instance (priority := high) instDecidableEqByteString : DecidableEq ByteArray :=
  ByteArray.instDecidableEq

/-- What a source gives when it is asked for bytes. -/
inductive Delivery where
  | bytes (data : ByteArray)
  | fault (error : IoError)
  deriving DecidableEq

namespace Delivery

/-- How many bytes a delivery holds. -/
def size : Delivery → Nat
  | bytes data => data.size
  | fault _ => 0

end Delivery

/-- All that a source will deliver. -/
structure Source where
  deliveries : List Delivery
  deriving DecidableEq

namespace Source

/-- How many bytes a source will deliver in all. -/
def size (source : Source) : Nat :=
  source.deliveries.foldr (fun delivery n => delivery.size + n) 0

/-- Asks for up to `limit` bytes, and asks again as long as the answer is an interruption. -/
def ask (limit : Nat) : List Delivery → Except IoError ByteArray × List Delivery
  | [] => (.ok ByteArray.empty, [])
  | .bytes data :: rest =>
    if data.size ≤ limit then (.ok data, rest)
    else (.ok (data.extract 0 limit), .bytes (data.extract limit data.size) :: rest)
  | .fault error :: rest =>
    if error.kind = .interrupted then ask limit rest else (.error error, rest)

/-- The bytes from `start` to `stop` in pieces of `piece` bytes, the last one perhaps shorter. -/
def cut (piece : Nat) (data : ByteArray) (start stop : Nat) : List Delivery :=
  (List.range ((stop - start + (piece - 1)) / piece)).map fun i =>
    .bytes (data.extract (start + i * piece) (min (start + (i + 1) * piece) stop))

/--
The bytes from `start` on in pieces of `piece` bytes, with each mishap at its offset. The offsets
ascend; a mishap beyond the last byte never happens.
-/
def layOut (piece : Nat) (data : ByteArray) : Nat → List (Nat × Delivery) → List Delivery
  | start, [] => cut piece data start data.size
  | start, (offset, mishap) :: rest =>
    if data.size < offset then cut piece data start data.size
    else cut piece data start offset ++ mishap :: layOut piece data (max start offset) rest

/-- The most bytes that a reader asks for at a time. -/
def pieceLimit : Nat := 65536

/-- A source that delivers a byte string without any mishap. -/
def ofBytes (data : ByteArray) : Source := ⟨cut pieceLimit data 0 data.size⟩

/--
A source that delivers a byte string in small pieces, with mishaps on the way. The mishaps happen in
the order of their offsets, and those at the same offset in the order given. If pieces hold no bytes
at all, the source never gets beyond its start.
-/
def withMishaps (data : ByteArray) (piece : Nat) (mishaps : List (Nat × Delivery)) : Source :=
  let within := if piece = 0 then ByteArray.empty else data
  ⟨layOut (min piece pieceLimit) within 0 (mishaps.mergeSort fun a b => decide (a.1 ≤ b.1))⟩

end Source

end Bunzip

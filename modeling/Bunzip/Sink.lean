import Bunzip.Source

/-!
# Byte sinks

A sink holds what it has taken. It may have room for so many bytes only: a write that does not fit
is taken as far as it fits and then refused.
-/

namespace Bunzip

/-- Where decoded bytes go. -/
structure Sink where
  /-- The bytes taken so far. -/
  taken : ByteArray
  /-- How many more bytes fit; no bound if absent. -/
  room : Option Nat
  /-- What a write that does not fit fails with. -/
  refusal : IoError
  /-- What flushing fails with, if it fails. -/
  flushFault : Option IoError
  deriving DecidableEq

namespace Sink

/-- A sink that takes everything. -/
def unbounded : Sink := ⟨ByteArray.empty, none, ⟨.other, "sink full"⟩, none⟩

/-- Writes all the bytes, or as many as fit. -/
def write (sink : Sink) (bytes : ByteArray) : Except IoError Unit × Sink :=
  match sink.room with
  | none => (.ok (), { sink with taken := sink.taken ++ bytes })
  | some room =>
    if bytes.size ≤ room then
      (.ok (), { sink with taken := sink.taken ++ bytes, room := some (room - bytes.size) })
    else
      (.error sink.refusal,
        { sink with taken := sink.taken ++ bytes.extract 0 room, room := some 0 })

/-- Makes sure that what was taken has arrived. -/
def flush (sink : Sink) : Except IoError Unit :=
  match sink.flushFault with
  | none => .ok ()
  | some error => .error error

end Sink

end Bunzip

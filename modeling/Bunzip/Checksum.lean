/-!
# Checksums

The checksum of a byte string is a cyclic redundancy check of 32 bits: bytes are taken most
significant bit first, the register starts with all bits set, and the result is complemented. A
register takes a byte at a time through a table of 256 words, where each entry is what eight shifts
make of a byte at the top of the register.

A stream has a checksum too. It is folded out of the checksums of its blocks, not out of bytes.
-/

namespace Bunzip

namespace Crc

/-- The generator, without its leading term. -/
def polynomial : UInt32 := 0x04C11DB7

/-- One shift of the register: the bit that leaves at the top brings in the generator. -/
def shift (register : UInt32) : UInt32 :=
  if register &&& 0x80000000 ≠ 0 then (register <<< 1) ^^^ polynomial else register <<< 1

/-- That many shifts of the register. -/
def shifts : Nat → UInt32 → UInt32
  | 0, register => register
  | n + 1, register => shifts n (shift register)

/-- What eight shifts make of each byte at the top of an otherwise empty register. -/
def table : Vector UInt32 256 :=
  Vector.ofFn fun byte => shifts 8 (UInt32.ofNat byte.val <<< 24)

end Crc

/-- A running checksum: the register after the bytes so far. -/
structure Crc where
  register : UInt32
  deriving DecidableEq, Repr

namespace Crc

/-- The checksum of no bytes yet. -/
def start : Crc := ⟨0xFFFFFFFF⟩

/-- Takes in one byte. -/
@[inline] def update (crc : Crc) (byte : UInt8) : Crc :=
  ⟨(crc.register <<< 8) ^^^ table.get ((crc.register >>> 24).toUInt8 ^^^ byte).toFin⟩

/-- Takes in the bytes in order. -/
def updateBytes (crc : Crc) (bytes : ByteArray) : Crc := bytes.foldl update crc

/-- The checksum of the bytes so far. -/
def value (crc : Crc) : UInt32 := ~~~crc.register

/-- The checksum of a byte string. -/
def ofBytes (bytes : ByteArray) : UInt32 := (start.updateBytes bytes).value

/-- Folds a block's checksum into that of its stream: one rotation to the left, then exclusive or. -/
def foldStream (stream block : UInt32) : UInt32 :=
  ((stream <<< 1) ||| (stream >>> 31)) ^^^ block

end Crc

end Bunzip

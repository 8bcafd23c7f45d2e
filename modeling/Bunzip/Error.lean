/-!
# What can go wrong

Three layers of failure, each a type of its own. An `IoError` comes from the world: a source that
cannot be read, a sink that takes no more. A `Corruption` names the check of the format that a bit
string failed. A `DecodeError` is what a decoder hands to its caller: one of the two, with the bit
position where it matters, or a checksum that does not agree.

A `Defect` is different: it stands for a broken promise inside the library itself (an index that
should be in range and is not). No input leads to one; it is a value so that this can be stated.

What went wrong is told in words and numbers. Checksums and markers are shown as hexadecimal numbers
with leading zeros, words of a symbol map as sixteen binary digits, and places in a bit string as a
byte and a bit.
-/

namespace Bunzip

/-! ## Numbers of fixed width -/

namespace Text

/-- The digits of `n` in `base`, with zeros in front up to `width` of them. A number that needs more
is not cut. -/
def padded (base width n : Nat) : String :=
  let digits := Nat.toDigits base n
  String.ofList (List.replicate (width - digits.length) '0' ++ digits)

/-- A 32-bit word as eight hexadecimal digits. -/
def hex32 (w : UInt32) : String := padded 16 8 w.toNat

/-- A 48-bit marker as twelve hexadecimal digits. -/
def hex48 (w : UInt64) : String := padded 16 12 w.toNat

/-- A byte as two hexadecimal digits. -/
def hex8 (b : UInt8) : String := padded 16 2 b.toNat

/-- The lower sixteen bits of a word, most significant first. -/
def binary16 (w : Nat) : String := padded 2 16 w

/-- A place in a bit string: the byte it falls into and the bit within that byte. -/
def place (bits : Nat) : String := s!"[{bits / 8}.{bits % 8}]"

end Text

/-! ## Input and output -/

/-- The kinds of input and output failure. -/
inductive IoKind where
  | notFound
  | permissionDenied
  | connectionRefused
  | connectionReset
  | hostUnreachable
  | networkUnreachable
  | connectionAborted
  | notConnected
  | addrInUse
  | addrNotAvailable
  | networkDown
  | brokenPipe
  | alreadyExists
  | wouldBlock
  | notADirectory
  | isADirectory
  | directoryNotEmpty
  | readOnlyFilesystem
  | staleNetworkFileHandle
  | invalidInput
  | invalidData
  | timedOut
  | writeZero
  | storageFull
  | notSeekable
  | quotaExceeded
  | fileTooLarge
  | resourceBusy
  | executableFileBusy
  | deadlock
  | crossesDevices
  | tooManyLinks
  | invalidFilename
  | argumentListTooLong
  | interrupted
  | unsupported
  | unexpectedEof
  | outOfMemory
  | other
  deriving DecidableEq, Repr

namespace IoKind

/-- Every kind, in the order of their declaration. -/
def all : List IoKind :=
  [notFound, permissionDenied, connectionRefused, connectionReset, hostUnreachable,
   networkUnreachable, connectionAborted, notConnected, addrInUse, addrNotAvailable, networkDown,
   brokenPipe, alreadyExists, wouldBlock, notADirectory, isADirectory, directoryNotEmpty,
   readOnlyFilesystem, staleNetworkFileHandle, invalidInput, invalidData, timedOut, writeZero,
   storageFull, notSeekable, quotaExceeded, fileTooLarge, resourceBusy, executableFileBusy,
   deadlock, crossesDevices, tooManyLinks, invalidFilename, argumentListTooLong, interrupted,
   unsupported, unexpectedEof, outOfMemory, other]

/-- The name a kind goes by. -/
def name : IoKind → String
  | notFound => "NotFound"
  | permissionDenied => "PermissionDenied"
  | connectionRefused => "ConnectionRefused"
  | connectionReset => "ConnectionReset"
  | hostUnreachable => "HostUnreachable"
  | networkUnreachable => "NetworkUnreachable"
  | connectionAborted => "ConnectionAborted"
  | notConnected => "NotConnected"
  | addrInUse => "AddrInUse"
  | addrNotAvailable => "AddrNotAvailable"
  | networkDown => "NetworkDown"
  | brokenPipe => "BrokenPipe"
  | alreadyExists => "AlreadyExists"
  | wouldBlock => "WouldBlock"
  | notADirectory => "NotADirectory"
  | isADirectory => "IsADirectory"
  | directoryNotEmpty => "DirectoryNotEmpty"
  | readOnlyFilesystem => "ReadOnlyFilesystem"
  | staleNetworkFileHandle => "StaleNetworkFileHandle"
  | invalidInput => "InvalidInput"
  | invalidData => "InvalidData"
  | timedOut => "TimedOut"
  | writeZero => "WriteZero"
  | storageFull => "StorageFull"
  | notSeekable => "NotSeekable"
  | quotaExceeded => "QuotaExceeded"
  | fileTooLarge => "FileTooLarge"
  | resourceBusy => "ResourceBusy"
  | executableFileBusy => "ExecutableFileBusy"
  | deadlock => "Deadlock"
  | crossesDevices => "CrossesDevices"
  | tooManyLinks => "TooManyLinks"
  | invalidFilename => "InvalidFilename"
  | argumentListTooLong => "ArgumentListTooLong"
  | interrupted => "Interrupted"
  | unsupported => "Unsupported"
  | unexpectedEof => "UnexpectedEof"
  | outOfMemory => "OutOfMemory"
  | other => "Other"

/-- The kind with the given name. -/
def ofName? (name : String) : Option IoKind := all.find? fun kind => kind.name == name

end IoKind

/-- A failure of input or output: its kind, and what to tell the user. -/
structure IoError where
  kind : IoKind
  message : String
  deriving DecidableEq, Repr

/-! ## The format -/

/-- The checks of the format that a bit string can fail. -/
inductive Corruption where
  /-- The stream does not start with its three-letter signature. -/
  | badSignature
  /-- The byte after the signature is not a digit from 1 to 9. -/
  | badBlockSize (byte : UInt8)
  /-- Neither a block nor the footer starts here. -/
  | badBlockMagic (magic : UInt64)
  /-- The symbol map marks no byte value as used. -/
  | noSymbols
  /-- The number of code tables is not between 2 and 6. -/
  | tableCount (count : Nat)
  /-- There are no selectors. -/
  | selectorCount (count : Nat)
  /-- A selector's rank is not below the number of tables. -/
  | selectorRank (rank : Nat)
  /-- There are more groups of symbols than selectors. -/
  | selectorsExhausted
  /-- A code length left the range from 1 to 20. -/
  | codeLength (table symbol : Nat) (length : Int)
  /-- No codeword fits the next bits. -/
  | invalidCode
  /-- The block holds more bytes than its stream allows. -/
  | blockOverflow (limit : Nat)
  /-- The origin of the rotation does not lie in the block. -/
  | originPointer (origin length : Nat)
  deriving DecidableEq, Repr

/-- What a failed check is called in a message. -/
def Corruption.message : Corruption → String
  | badSignature => "missing BZh signature"
  | badBlockSize byte => s!"invalid block size byte 0x{Text.hex8 byte}"
  | badBlockMagic magic => s!"invalid block marker 0x{Text.hex48 magic}"
  | noSymbols => "block uses no symbols"
  | tableCount count => s!"invalid huffman table count {count}"
  | selectorCount count => s!"invalid selector count {count}"
  | selectorRank rank => s!"selector rank {rank} out of range"
  | selectorsExhausted => "ran out of selectors before end of block"
  | codeLength table symbol length =>
    s!"code length {length} for symbol {symbol} in table {table} is outside 1..=20"
  | invalidCode => "invalid huffman code"
  | blockOverflow limit => s!"block exceeds declared size of {limit} bytes"
  | originPointer origin length => s!"origin pointer {origin} outside block of {length} bytes"

/-! ## Decoding -/

/-- A promise that the library makes to itself, and that was broken. -/
inductive Defect where
  /-- A field of no bits, or of more than 32, was asked for. -/
  | fieldWidth (bits : Nat)
  /-- Held bits would be pushed out of their word, or fewer are held than are asked for. -/
  | heldBits (count : Nat)
  /-- A selector does not name one of the tables. -/
  | tableIndex (index : Nat)
  /-- A rank does not lie in the recency list. -/
  | rankIndex (index : Nat)
  /-- A recency list holds a value that is no symbol of the block. -/
  | symbolIndex (index : Nat)
  /-- The length of a run does not fit its word. -/
  | runLength (run : Nat)
  /-- The number of occurrences of a byte does not fit its word. -/
  | byteCount (count : Nat)
  /-- A histogram does not count the bytes of its block. -/
  | histogram
  /-- A block was handed back before its bytes were handed out. -/
  | undrained
  deriving DecidableEq, Repr

/-- Why a stream, or a part of one, was not decoded. -/
inductive DecodeError where
  /-- The source or the sink failed. -/
  | io (error : IoError)
  /-- The input ended inside a field, after `position` bits. -/
  | endOfStream (position : Nat)
  /-- A check of the format failed, noticed after `position` bits. -/
  | corrupt (position : Nat) (reason : Corruption)
  /-- The stream uses a part of the format that is not supported. -/
  | unsupported (feature : String)
  /-- The bytes of a block do not have the checksum stored with the block. -/
  | blockChecksum (block : Nat) (stored computed : UInt32)
  /-- The checksums of the blocks do not add up to the one stored with the stream. -/
  | streamChecksum (stored computed : UInt32)
  /-- The library broke a promise of its own. -/
  | defect (what : Defect)
  deriving DecidableEq, Repr

namespace DecodeError

/-- What to tell the user. -/
def message : DecodeError → String
  | io error => s!"I/O error: {error.message}"
  | endOfStream position => s!"unexpected end of compressed data at bit {position}"
  | corrupt position reason => s!"corrupt stream at bit {position}: {reason.message}"
  | unsupported feature => s!"unsupported feature: {feature}"
  | blockChecksum block stored computed =>
    s!"block {block} CRC mismatch: stored 0x{Text.hex32 stored}, computed 0x{Text.hex32 computed}"
  | streamChecksum stored computed =>
    s!"stream CRC mismatch: stored 0x{Text.hex32 stored}, computed 0x{Text.hex32 computed}"
  | defect _ => "internal error"

/-- Whether the compressed data is to blame. -/
def isDataError : DecodeError → Bool
  | io _ => false
  | defect _ => false
  | _ => true

/-- The failure of input or output behind this one, if there is one. -/
def cause : DecodeError → Option IoError
  | io error => some error
  | _ => none

/-- The same failure for a caller that only knows about input and output. -/
def toIoError : DecodeError → IoError
  | io error => error
  | endOfStream position => ⟨.unexpectedEof, (endOfStream position).message⟩
  | error => ⟨.invalidData, error.message⟩

end DecodeError

end Bunzip

import Bunzip.Error

/-!
# Notes

While it works, the decoder takes notes for whoever wants to follow it. A note is a value, and its
text is made only where notes are shown. Each has a level; who asks for a level gets the notes of all
graver levels as well. Nothing ever depends on a note.
-/

namespace Bunzip

/-- How grave a note is, the gravest first. -/
inductive Level where
  | error
  | warn
  | info
  | debug
  | trace
  deriving DecidableEq, Repr

namespace Level

/-- The name shown with a note. -/
def name : Level → String
  | error => "ERROR"
  | warn => "WARN"
  | info => "INFO"
  | debug => "DEBUG"
  | trace => "TRACE"

/-- The place of a level in the order from the gravest on. -/
def rank : Level → Nat
  | error => 0
  | warn => 1
  | info => 2
  | debug => 3
  | trace => 4

end Level

/-- Where the decoding of a block has got to. A block passes through the stages in this order, and the
one reached last tells where a failure happened. -/
inductive Stage where
  /-- Its checksum and its origin are being read. -/
  | header
  /-- The bytes that occur in it are being read. -/
  | symbolMap
  /-- Its codes are being read. -/
  | tables
  /-- Its symbols are being read and turned into the last column. -/
  | symbols
  /-- The links of its last column are being built. -/
  | links
  /-- Its bytes can be handed out. -/
  | output
  /-- Its links were taken back. -/
  | done
  deriving DecidableEq, Repr

/-- The name a stage goes by in notes. -/
def Stage.name : Stage → String
  | header => "ReadHeader"
  | symbolMap => "ReadSymbolMap"
  | tables => "ReadTables"
  | symbols => "DecodeMtfRle2"
  | links => "BuildBucketArray"
  | output => "EmitRle1Decoded"
  | done => "Done"

/-- Something the decoder took note of. -/
inductive Note where
  /-- A file (or standard input) was given up. -/
  | failed (name : String) (error : DecodeError)
  /-- The stream's stored checksum is not the one folded from its blocks, which is tolerated. -/
  | streamMismatch (stored computed : UInt32)
  /-- A block was drained and its checksum agreed; `stream` is the stream's checksum so far. -/
  | blockFinished (index : Nat) (crc stream : UInt32)
  /-- The footer was read. -/
  | footer (stored computed : UInt32) (blocks : Nat)
  /-- A file was tested and is fine. -/
  | tested (name : String)
  /-- A file was decoded. -/
  | decoded (name : String) (blocks bytes : Nat)
  /-- The header of a stream was read. -/
  | signature (digit : Nat)
  /-- The header of a block was read. -/
  | blockHeader (index : Nat) (stored : UInt32) (origin position : Nat)
  /-- The symbol map of a block was read. -/
  | symbols (count index : Nat)
  /-- One table of code lengths was read. -/
  | table (number minLength maxLength position : Nat)
  /-- All tables of a block were read. -/
  | selectors (count tables alphabet : Nat)
  /-- All symbols of a block were read. -/
  | expanded (index length : Nat)
  /-- A block's checksum is about to be compared. -/
  | checked (index : Nat) (stored computed : UInt32)
  /-- A block starts here. -/
  | blockFound (index position : Nat)
  /-- A block goes from one stage to the next. -/
  | stage (index : Nat) (before after : Stage)
  /-- One word of a symbol map. -/
  | symbolWord (word : Nat)
  deriving DecidableEq, Repr

namespace Note

/-- How grave a note is. -/
def level : Note → Level
  | failed _ _ => .error
  | streamMismatch _ _ => .warn
  | blockFinished _ _ _ | footer _ _ _ | tested _ | decoded _ _ _ => .info
  | signature _ | blockHeader _ _ _ _ | symbols _ _ | table _ _ _ _ | selectors _ _ _
  | expanded _ _ | checked _ _ _ => .debug
  | blockFound _ _ | stage _ _ _ | symbolWord _ => .trace

/-- The text of a note. -/
def text : Note → String
  | failed name error => s!"{name}: {error.message}"
  | streamMismatch stored computed =>
    s!"Stream CRC mismatch: stored 0x{Text.hex32 stored}, computed 0x{Text.hex32 computed}"
  | blockFinished index crc stream =>
    s!"Block {index}: block CRC 0x{Text.hex32 crc}, stream CRC 0x{Text.hex32 stream}"
  | footer stored computed blocks =>
    s!"Stream CRC: stored 0x{Text.hex32 stored}, computed 0x{Text.hex32 computed} ({blocks} blocks)"
  | tested name => s!"{name}: ok"
  | decoded name blocks bytes => s!"{name}: done, {blocks} blocks, {bytes} bytes"
  | signature digit => s!"Found a valid bzip2 signature, block size {digit}00k."
  | blockHeader index stored origin position =>
    s!"Block {index}: stored CRC 0x{Text.hex32 stored}, origin {origin} at {Text.place position}"
  | symbols count index => s!"Found {count} symbols for block {index}."
  | table number minLength maxLength position =>
    s!"Table {number}: code lengths {minLength}..={maxLength} at {Text.place position}"
  | selectors count tables alphabet =>
    s!"Decoded {count} selectors for {tables} tables ({alphabet} symbols)."
  | expanded index length => s!"Block {index}: {length} bytes before RLE1"
  | checked index stored computed =>
    s!"Block {index} CRC: stored 0x{Text.hex32 stored}, computed 0x{Text.hex32 computed}"
  | blockFound index position =>
    s!"Found a valid header for block {index} at {Text.place position}."
  | stage index before after => s!"Block {index}: {before.name} -> {after.name}"
  | symbolWord word => s!"\r\x1b[43m{Text.binary16 word}     \x1b[0m"

/-- A note as it is shown: its level and its text. -/
def render (note : Note) : String := s!"{note.level.name} {note.text}"

/-- Whether a note is shown to someone who asked for `limit`; `none` asks for silence. -/
def shownAt (limit : Option Level) (note : Note) : Bool :=
  match limit with
  | none => false
  | some limit => note.level.rank ≤ limit.rank

end Note

end Bunzip

import Bunzip.Block.Decoded
import Bunzip.GroupCodes
import Bunzip.SymbolMap

/-!
# Decoding blocks

A block starts with its checksum, a bit for a feature that is not supported, and the row of the
rotation matrix in which the block itself stands. Then come the symbol map, the codes and the symbols.
The decoder reads all of it, builds the links and gives a block whose bytes can be handed out.

The decoder keeps the storage of links that are no longer needed for the next block. It also keeps
the column and its histogram, which are cleared before the next column is expanded; until then they
hold what came of the last one, however far it got.
-/

namespace Bunzip

/-- What is kept from one block of a stream to the next. -/
structure BlockDecoder where
  /-- The longest column allowed. -/
  maxLength : Nat
  /-- The last column that was expanded. -/
  column : ByteArray
  /-- How often each byte stands in it. -/
  counts : Histogram
  /-- Links that are no longer needed. -/
  used : RotationLinks
  /-- The stage reached by the last block. -/
  stage : Stage
  /-- The number of the last block. -/
  index : Nat
  deriving DecidableEq

namespace BlockDecoder

/-- The decoder of a stream with the given digit for its block size. -/
def ofDigit (digit : Nat) : BlockDecoder := 
  ⟨digit * 100000, ByteArray.empty, .empty, .empty, .done, 0⟩

/-- Goes on to another stage. -/
def enter (stage : Stage) : Op BlockDecoder Unit := fun decoder =>
  .ok () { decoder with stage } [.stage decoder.index decoder.stage stage]

/-- Starts with the block of the given number. -/
def setIndex (index : Nat) : Op BlockDecoder Unit := Op.modify fun decoder => { decoder with index }

/-- Takes back the links of a block that is finished, for the next one. -/
def recycle (links : RotationLinks) : Op BlockDecoder Unit := do
  Op.modify fun decoder =>
    if decoder.used.size < links.size then { decoder with used := links } else decoder
  enter .done

/-! ## Reading a block -/

/-- What reading a block works on: the decoder and the bits. -/
abbrev Bench := BlockDecoder × BitReader

/-- Works on the bits only. -/
@[inline] def onReader {α : Type} (op : Op BitReader α) : Op Bench α := fun (decoder, reader) =>
  (op reader).withState fun reader => (decoder, reader)

/-- Works on the decoder only. -/
@[inline] def onDecoder {α : Type} (op : Op BlockDecoder α) : Op Bench α := fun (decoder, reader) =>
  (op decoder).withState fun decoder => (decoder, reader)

/-- Reads bits. -/
@[inline] def reading {α : Type} (x : Read α) : Op Bench α := onReader (Op.read x)

/-- The place reached in the bits. -/
def place : Op Bench Nat := do
  return (← Op.get).2.position

/-! ## Expanding a column -/

/-- Reads bits beside a column. -/
@[inline] def beside {α : Type} (x : Read α) : EStateM DecodeError (Expansion × BitReader) α :=
  fun (e, reader) =>
    match x reader with
    | .error reason reader => .error reason (e, reader)
    | .ok a reader => .ok a (e, reader)

/-- Takes in a symbol that has been read. -/
@[inline] def takeIn (limit : Nat) (used : Array UInt8) (symbol : Nat) :
    EStateM DecodeError (Expansion × BitReader) Unit := fun (e, reader) =>
  match Expansion.push limit used symbol e with
  | .error .overflow e => .error (.corrupt reader.position (.blockOverflow limit)) (e, reader)
  | .error (.defect what) e => .error (.defect what) (e, reader)
  | .ok _ e => .ok () (e, reader)

/-- Reads the symbols of a block up to the one that ends it, and takes in each of them. -/
def expandFrom (limit : Nat) (used : Array UInt8) (codes : GroupCodes) :
    EStateM DecodeError (Expansion × BitReader) Unit :=
  match _turn : codes.advance? with
  | none => beside (BitReader.corrupt .selectorsExhausted)
  | some codes => do
    let symbol ← beside codes.decode
    takeIn limit used symbol.toNat
    if symbol.toNat = Expansion.endSymbol used.size then pure ()
    else expandFrom limit used codes
termination_by codes.symbolsLeft
decreasing_by
  have := GroupCodes.symbolsLeft_advance _turn
  omega

/-- The column of the decoder, to be gone on with. -/
def expansion (decoder : BlockDecoder) : Expansion := .resume decoder.column decoder.counts

/-- Works on the column of the decoder and on the bits. -/
@[inline] def onColumn {α : Type} (op : Op (Expansion × BitReader) α) : Op Bench α :=
  fun (decoder, reader) => (op (decoder.expansion, reader)).withState fun (e, reader) =>
    ({ decoder with column := e.column, counts := e.counts }, reader)

/-- Makes the column empty. -/
def clear : Op BlockDecoder Unit := Op.modify fun decoder =>
  { decoder with column := ByteArray.empty, counts := .empty }

/-- Expands the column of a block. -/
def expand (used : Array UInt8) (codes : GroupCodes) : Op Bench Expansion := do
  onDecoder clear
  let limit := (← Op.get).1.maxLength
  onColumn (Op.read (expandFrom limit used codes))
  return (← Op.get).1.expansion

/-! ## The parts of a block -/

/-- Takes the storage for links out of the decoder. -/
def takeUsed : Op BlockDecoder RotationLinks := 
  fun ⟨maxLength, column, counts, used, stage, index⟩ =>
    .ok used ⟨maxLength, column, counts, .empty, stage, index⟩ []

/-- Builds the links of a column and starts at its origin. -/
def startWalk (e : Expansion) (origin : Nat) : Op Bench Walk := do
  let used ← onDecoder takeUsed
  match RotationLinks.build? e.column e.counts used with
  | none => Op.fail (.defect .histogram)
  | some links => match Walk.start? links origin with
    | none => reading (BitReader.corrupt (.originPointer origin e.column.size))
    | some walk => return walk

/-- Reads the stored checksum and the origin of a block. -/
def readHeader (index : Nat) : Op Bench (UInt32 × Nat) := do
  onDecoder (setIndex index)
  onDecoder (enter .header)
  let stored ← reading BitReader.word
  if ← reading BitReader.bit then Op.fail (.unsupported "randomized blocks")
  else
    let origin ← reading (BitReader.number 24)
    Op.note (.blockHeader index stored origin (← place))
    return (stored, origin)

/-- Reads the last column of a block. -/
def readColumn (index : Nat) : Op Bench Expansion := do
  onDecoder (enter .symbolMap)
  let symbols ← onReader SymbolMap.read
  Op.note (.symbols symbols.length index)
  onDecoder (enter .tables)
  let codes ← onReader (GroupCodes.read (symbols.length + 2))
  onDecoder (enter .symbols)
  let e ← expand symbols.toArray codes
  Op.note (.expanded index e.column.size)
  return e

/-- Reads a block after its marker. -/
def readBlock (index : Nat) : Op Bench DecodedBlock := do
  let (stored, origin) ← readHeader index
  let e ← readColumn index
  if e.column.size ≤ origin then
    reading (BitReader.corrupt (.originPointer origin e.column.size))
  else
    onDecoder (enter .links)
    let columnLength := e.column.size
    let walk ← startWalk e origin
    onDecoder (enter .output)
    return { rest := .start walk, crc := .start, stored, index, columnLength, emitted := 0 }

/-- Reads a block, writes it to a sink and compares its checksum. -/
def decode (index : Nat) : Op (Bench × Sink) BlockReport := fun (bench, sink) =>
  match readBlock index bench with
  | .error reason bench notes => .error reason (bench, sink) notes
  | .ok block bench notes =>
    match DecodedBlock.drain (block, sink) with
    | .error reason (_, sink) => .error reason (bench, sink) notes
    | .ok _ (block, sink) =>
      let close : Op Bench BlockReport := do
        let _ ← block.verify
        let report := block.report
        onDecoder (recycle block.rest.walk.links)
        return report
      ((close bench).withState fun bench => (bench, sink)).after notes

end BlockDecoder

end Bunzip

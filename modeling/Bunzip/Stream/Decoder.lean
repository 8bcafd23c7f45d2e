import Bunzip.Block.Spending

/-!
# Streams

A stream has a header with a digit for its block size, then blocks, each after a marker, and a footer
after a marker of its own. The footer holds a checksum that is folded from the checksums of the
blocks. A stream whose footer does not agree is refused in strict mode only; otherwise the
disagreement is noted and can be seen in the summary.

The decoder hands out one block at a time. Its bytes are drained by the caller, who then gives the
block back: only then is its checksum compared and counted for the stream. The footer counts as read
as soon as its checksum is there, also if that is then refused.
-/

namespace Bunzip

/-- What a decoded stream was like. -/
structure StreamSummary where
  blocks : List BlockReport
  /-- The checksum folded from the blocks. -/
  computed : UInt32
  /-- The checksum in the footer. -/
  stored : UInt32
  /-- The number of bytes in all blocks. -/
  outputLength : Nat
  deriving DecidableEq, Repr

/-- Whether the footer agrees with the blocks. -/
def StreamSummary.checksumAgrees (summary : StreamSummary) : Bool :=
  summary.computed == summary.stored

/-- The state of decoding a stream. -/
structure StreamDecoder where
  bench : BlockDecoder.Bench
  /-- The block that is being read piece by piece. -/
  current : Option DecodedBlock
  /-- The digit of the block size. -/
  digit : Nat
  /-- The checksum folded from the blocks so far. -/
  computed : UInt32
  /-- The checksum in the footer, once it has been read. -/
  stored : Option UInt32
  /-- The blocks so far. -/
  reports : Array BlockReport
  /-- The number of bytes in the blocks so far. -/
  outputLength : Nat
  /-- Whether a footer that does not agree is refused. -/
  strict : Bool
  deriving DecidableEq

namespace StreamDecoder

/-- Stands before every block. -/
def blockMarker : UInt64 := 0x314159265359

/-- Stands before the footer. -/
def footerMarker : UInt64 := 0x177245385090

/-- The letters that a stream starts with. -/
def signature : ByteArray := ⟨#[66, 90, 104]⟩

/-! ## The header -/

/-- Reads the signature and the digit of the block size. -/
def readHeader : Op BitReader Nat := do
  if (← Op.read (BitReader.bytes signature.size)) ≠ signature then
    Op.read (BitReader.corrupt .badSignature)
  else
    let digit ← Op.read BitReader.byte
    if digit < 49 ∨ 57 < digit then Op.read (BitReader.corrupt (.badBlockSize digit))
    else
      let size := (digit - 48).toNat
      Op.note (.signature size)
      return size

/-- Reads the header of a stream; what follows is not strict about the footer unless told to be. -/
def start (source : Source) : Outcome Unit StreamDecoder :=
  match readHeader (.ofSource source) with
  | .error reason _ notes => .error reason () notes
  | .ok digit reader notes =>
    .ok {
      bench := (.ofDigit digit, reader)
      current := none
      digit
      computed := 0
      stored := none
      reports := #[]
      outputLength := 0
      strict := false } () notes

/-- Makes the decoder strict about the footer, or not. -/
def setStrict (strict : Bool) (stream : StreamDecoder) : StreamDecoder := { stream with strict }

/-- Whether the footer has been read. -/
def isFinished (stream : StreamDecoder) : Bool := stream.stored.isSome

/-- The place reached in the bits. -/
def position (stream : StreamDecoder) : Nat := stream.bench.2.position

/-- The bits that are left. -/
def bitsLeft (stream : StreamDecoder) : Nat := stream.bench.bitsLeft

/-- What the stream was like, once the footer has been read. -/
def summary? (stream : StreamDecoder) : Option StreamSummary :=
  match stream.stored with
  | none => none
  | some stored => some ⟨stream.reports.toList, stream.computed, stored, stream.outputLength⟩

/-! ## Blocks -/

/-- Works on the bench only. -/
@[inline] def onBench {α : Type} (op : Op BlockDecoder.Bench α) : Op StreamDecoder α :=
  fun ⟨bench, current, digit, computed, stored, reports, outputLength, strict⟩ =>
    (op bench).withState fun bench =>
      ⟨bench, current, digit, computed, stored, reports, outputLength, strict⟩

/-- Reads bits. -/
@[inline] def reading {α : Type} (x : Read α) : Op StreamDecoder α :=
  onBench (BlockDecoder.reading x)

/-- Reads a marker. -/
def marker : Read UInt64 := do
  let high ← BitReader.bits 24
  let low ← BitReader.bits 24
  return (high.toUInt64 <<< 24) ||| low.toUInt64

/-- Reads the footer after its marker. -/
def readFooter : Op StreamDecoder Unit := do
  let stored ← reading BitReader.word
  Op.modify fun stream => { stream with stored := some stored }
  let stream ← Op.get
  Op.note (.footer stored stream.computed stream.reports.size)
  if stored = stream.computed then return ()
  else if stream.strict then Op.fail (.streamChecksum stored stream.computed)
  else Op.note (.streamMismatch stored stream.computed)

/-- Reads a marker and what follows it: a block, or the footer. -/
def readMarked : Op StreamDecoder (Option DecodedBlock) := do
  let magic ← reading marker
  if magic = blockMarker then
    let stream ← Op.get
    let index := stream.reports.size + 1
    Op.note (.blockFound index stream.position)
    return some (← onBench (BlockDecoder.readBlock index))
  else if magic = footerMarker then
    readFooter
    return none
  else reading (BitReader.corrupt (.badBlockMagic magic))

/-- The next block, or none at the footer and ever after. -/
def next : Op StreamDecoder (Option DecodedBlock) := fun stream =>
  if stream.isFinished then .ok none stream [] else readMarked stream

/-- Takes back a block that has been drained, and counts it if its checksum agrees. -/
def finish (block : DecodedBlock) : Op StreamDecoder BlockReport := do
  if !block.isExhausted then Op.fail (.defect .undrained)
  else
    let crc ← block.verify
    Op.modify fun stream => { stream with computed := Crc.foldStream stream.computed crc }
    Op.note (.blockFinished block.index crc (← Op.get).computed)
    let report := block.report
    Op.modify fun stream => { stream with
      outputLength := stream.outputLength + report.outputLength
      reports := stream.reports.push report }
    onBench (BlockDecoder.onDecoder (BlockDecoder.recycle block.rest.walk.links))
    return report

/-! ## Bits spent -/

theorem spends_onBench {α : Type} {n : Nat} {op : Op BlockDecoder.Bench α}
    (h : Op.Spends BlockDecoder.Bench.bitsLeft n op) : Op.Spends bitsLeft n (onBench op) := by
  intro stream
  have spent := h stream.bench
  simp only [onBench]
  cases hr : op stream.bench with
  | ok a after notes => rw [hr] at spent; exact spent
  | error e after notes => rw [hr] at spent; exact spent

theorem spends_reading {α : Type} {n : Nat} {x : Read α} (h : Read.Spends n x) :
    Op.Spends bitsLeft n (reading x) :=
  spends_onBench (BlockDecoder.spends_reading h)

theorem spends_marker : Read.Spends 48 marker :=
  (BitReader.spends_bits 24).bind fun _ => (BitReader.spends_bits 24).map _

theorem spends_readFooter : Op.Spends bitsLeft 0 readFooter := by
  refine (spends_reading BitReader.spends_word.any).andThen fun stored => ?_
  refine (Op.Spends.modify (by intro _; exact Nat.le_refl _)).andThen fun _ => ?_
  refine Op.Spends.get.andThen fun stream => (Op.Spends.note _).andThen fun _ => ?_
  split
  · exact Op.Spends.pure _
  · split
    · exact Op.Spends.fail 0 _
    · exact Op.Spends.note _

theorem spends_readMarked : Op.Spends bitsLeft 48 readMarked := by
  refine (spends_reading spends_marker).bind (n := 0) fun magic => ?_
  split
  · exact Op.Spends.get.andThen fun _ => (Op.Spends.note _).andThen fun _ =>
      (spends_onBench (BlockDecoder.spends_readBlock _)).andThen fun _ => Op.Spends.pure _
  · split
    · exact spends_readFooter.andThen fun _ => Op.Spends.pure _
    · exact spends_reading (Read.Spends.corrupt 0 _)

/-- Each block costs its marker. -/
theorem bitsLeft_next {stream after : StreamDecoder} {block : DecodedBlock} {notes : List Note}
    (h : next stream = .ok (some block) after notes) : after.bitsLeft + 48 ≤ stream.bitsLeft := by
  unfold next at h
  split at h
  · cases h
  · have spent := spends_readMarked stream
    rw [h] at spent
    exact spent

theorem spends_verify {σ : Type} {measure : σ → Nat} (block : DecodedBlock) :
    Op.Spends measure 0 (block.verify : Op σ UInt32) := by
  refine (Op.Spends.note _).andThen fun _ => ?_
  split
  · exact Op.Spends.fail 0 _
  · exact Op.Spends.pure _

theorem spends_finish (block : DecodedBlock) : Op.Spends bitsLeft 0 (finish block) := by
  unfold finish
  split
  · exact Op.Spends.fail 0 _
  · refine (spends_verify block).andThen fun _ => ?_
    refine (Op.Spends.modify (by intro _; exact Nat.le_refl _)).andThen fun _ => ?_
    refine Op.Spends.get.andThen fun _ => (Op.Spends.note _).andThen fun _ => ?_
    refine (Op.Spends.modify (by intro _; exact Nat.le_refl _)).andThen fun _ => ?_
    exact (spends_onBench (BlockDecoder.spends_onDecoder _)).andThen fun _ => Op.Spends.pure _

end StreamDecoder

end Bunzip

import Bunzip.Proofs.Block.Begun
import Bunzip.Proofs.Locality.Abreast

/-!
# Blocks do not leak into each other

A decoder goes through many blocks: some are decoded to the end, some are abandoned, and reading may
fail at any stage. What is left of them is the column as far as it was expanded, its histogram, and
the storage of links, which may have come from anywhere.

None of this can be told from the blocks that are read afterwards, and neither can the place where a
block begins, except from the places that failures report.
-/

namespace Bunzip.BlockDecoder

/-! ## The history of a decoder -/

/-- What may be done with a decoder. A block that is read may be drained or abandoned. -/
inductive Use where
  | read (index : Nat) (reader : BitReader)
  | decode (index : Nat) (reader : BitReader) (sink : Sink)
  | recycle (links : RotationLinks)

/-- The decoder afterwards, however it went. -/
def Use.leave (decoder : BlockDecoder) : Use → BlockDecoder
  | read index reader => (readBlock index (decoder, reader)).state.1
  | decode index reader sink => (BlockDecoder.decode index ((decoder, reader), sink)).state.1.1
  | recycle links => (BlockDecoder.recycle links decoder).state

/-- The decoder after it has been used like this. -/
def afterUses (uses : List Use) (decoder : BlockDecoder) : BlockDecoder :=
  uses.foldl Use.leave decoder

theorem keeps_limit_decode (index : Nat) :
    Op.Keeps (fun state : Bench × Sink => state.1.limit) (decode index) := by
  rintro ⟨bench, sink⟩
  have hread := keeps_limit_readBlock index bench
  have hclose : ∀ block : DecodedBlock, Op.Keeps Bench.limit (do
      let _ ← block.verify
      let report := block.report
      onDecoder (recycle block.rest.walk.links)
      return report) := fun block =>
    block.keeps_verify.bind fun _ =>
      (keeps_limit_onDecoder (keeps_maxLength_recycle _)).bind fun _ => .pure _
  rw [decode]
  cases hr : readBlock index bench with
  | error reason after notes =>
    rw [hr] at hread
    exact hread
  | ok block after notes =>
    rw [hr] at hread
    simp only
    cases DecodedBlock.drain (block, sink) with
    | error reason state => exact hread
    | ok written state =>
      simp only [Outcome.state_after, Outcome.state_withState]
      exact (hclose state.1 after).trans hread

theorem maxLength_leave (decoder : BlockDecoder) (use : Use) :
    (use.leave decoder).maxLength = decoder.maxLength := by
  cases use with
  | read index reader => exact keeps_limit_readBlock index (decoder, reader)
  | decode index reader sink => exact keeps_limit_decode index ((decoder, reader), sink)
  | recycle links => exact keeps_maxLength_recycle links decoder

theorem maxLength_afterUses (uses : List Use) (decoder : BlockDecoder) :
    (afterUses uses decoder).maxLength = decoder.maxLength := by
  induction uses generalizing decoder with
  | nil => rfl
  | cons use uses ih => exact (ih (use.leave decoder)).trans (maxLength_leave decoder use)

/-! ## Reading from the same bits -/

/-- How many bits reading a block hands out. -/
def bitsRead (index : Nat) (bench : Bench) : Nat :=
  (readBlock index bench).state.2.position - bench.2.position

/-- Only the size of columns matters of a decoder, and only the bits that are read of a reader. -/
theorem readBlock_sameResult {decoder decoder' : BlockDecoder}
    (hlimit : decoder.maxLength = decoder'.maxLength) (index : Nat) {p q : Nat}
    {bits bits' : List Bool} {reader reader' : BitReader} (h : reader.Stands p bits)
    (h' : reader'.Stands q bits')
    (hend : ∀ place, (readBlock index (decoder, reader)).result ≠ .error (.endOfStream place))
    (hbits : bits.take (bitsRead index (decoder, reader)) <+: bits') :
    bitsRead index (decoder', reader') = bitsRead index (decoder, reader)
      ∧ SameResult p q (readBlock index (decoder, reader)).result
        (readBlock index (decoder', reader')).result := by
  obtain ⟨⟨front, result, notes, rest⟩, later, rfl, hdecides⟩ :=
    local_readBlock index decoder p bits (decoder, reader) ⟨rfl, h⟩
  have hafter := (hdecides.agrees (decoder, reader) later (.inl rfl) ⟨rfl, h⟩).state.reader
  simp only [view] at hafter h
  have hread : bitsRead index (decoder, reader) = front.length := by
    rw [bitsRead, hafter.position, h.position, Nat.add_sub_cancel_left]
  rw [hread, List.take_left'] at hbits
  · obtain ⟨later', rfl⟩ := hbits
    have habreast : limitView.Abreast p q later.length (decoder, reader) (decoder', reader') :=
      ⟨hlimit, 0, front, later, later', h, h', rfl⟩
    rcases (inStep_readBlock index).step habreast with (⟨place, hfail⟩ | hlow) | ⟨hsame, hstates⟩
    · exact absurd hfail (hend place)
    · simp only [limitView] at hlow
      rw [BitReader.bitsLeft_eq, hafter.upcoming] at hlow
      exact absurd hlow (Nat.lt_irrefl _)
    · refine ⟨?_, hsame⟩
      obtain ⟨n, common, rest, rest', hfirst, hsecond, hedge⟩ := hstates.readers
      simp only [limitView] at hfirst hsecond
      have hplace : p + n = p + front.length := hfirst.position.symm.trans hafter.position
      rw [bitsRead, hsecond.position, h'.position, hread]
      omega
  · rfl

/--
**Blocks do not leak into each other.** Two decoders for the same size of blocks may have been used in
any way, and two readers may stand anywhere. If the bits that the first one reads of a block are also
those before the second one, then both read the same number of bits, and give the same block or fail
in the same way, at places as far apart as the readers stood.
-/
theorem readBlock_afterUses (digit : Nat) (uses uses' : List Use) (index : Nat) {p q : Nat}
    {bits bits' : List Bool} {reader reader' : BitReader} (h : reader.Stands p bits)
    (h' : reader'.Stands q bits')
    (hend : ∀ place, (readBlock index (afterUses uses (ofDigit digit), reader)).result
      ≠ .error (.endOfStream place))
    (hbits : bits.take (bitsRead index (afterUses uses (ofDigit digit), reader)) <+: bits') :
    bitsRead index (afterUses uses' (ofDigit digit), reader')
        = bitsRead index (afterUses uses (ofDigit digit), reader)
      ∧ SameResult p q (readBlock index (afterUses uses (ofDigit digit), reader)).result
        (readBlock index (afterUses uses' (ofDigit digit), reader')).result := by
  have hlimit : (afterUses uses (ofDigit digit)).maxLength
      = (afterUses uses' (ofDigit digit)).maxLength := by
    rw [maxLength_afterUses, maxLength_afterUses]
  exact readBlock_sameResult hlimit index h h' hend hbits

/-- A reader at the start of ten bytes of zeros. -/
def zeros : BitReader := .ofSource (.ofBytes ⟨#[0, 0, 0, 0, 0, 0, 0, 0, 0, 0]⟩)

/-- A reader that has three bits of them behind it. -/
def zerosBehind : BitReader :=
  ⟨.ofBytes ⟨#[0, 0, 0, 0, 0, 0, 0, 0, 0]⟩, ByteArray.empty, 0, 0, 5, 1⟩

/-- Zeros are a block without symbols. One decoder is fresh, the other one has failed before. -/
theorem readBlock_afterUses_zeros :
    (readBlock 1 (afterUses [] (ofDigit 1), zeros)).result = .error (.corrupt 73 .noSymbols)
      ∧ SameResult 0 3 (readBlock 1 (afterUses [] (ofDigit 1), zeros)).result
        (readBlock 1 (afterUses [.recycle ⟨#[1, 2, 3]⟩, .read 7 zeros] (ofDigit 1),
          zerosBehind)).result := by
  have hfirst : (readBlock 1 (afterUses [] (ofDigit 1), zeros)).result
      = .error (.corrupt 73 .noSymbols) := by decide +kernel
  have hread : bitsRead 1 (afterUses [] (ofDigit 1), zeros) = 73 := by decide +kernel
  have hbehind : zerosBehind.Stands 3 zerosBehind.upcoming :=
    ⟨⟨⟨⟨by decide, by decide⟩, by decide⟩, Source.smooth_ofBytes _, rfl⟩, rfl⟩
  have hfront : zeros.Stands 0 _ := BitReader.stands_ofSource _
  have hend : ∀ place, (readBlock 1 (afterUses [] (ofDigit 1), zeros)).result
      ≠ .error (.endOfStream place) := by
    rw [hfirst]
    exact fun _ => nofun
  have hbits : zeros.upcoming.take (bitsRead 1 (afterUses [] (ofDigit 1), zeros))
      <+: zerosBehind.upcoming := by
    rw [hread]
    decide
  exact ⟨hfirst, (readBlock_afterUses 1 [] [.recycle ⟨#[1, 2, 3]⟩, .read 7 zeros] 1 hfront hbehind
    hend hbits).2⟩

end Bunzip.BlockDecoder

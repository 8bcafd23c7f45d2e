import Bunzip.Proofs.Format.Block
import Bunzip.Proofs.Stream.PullPush

/-!
# Streams are decoded to what was written

A stream is written as a header, blocks after their markers and a footer after its own, without any
gaps between them. Whichever choices are made for the blocks, decoding gives the bytes of all blocks
in order, and a summary of what was written.
-/

namespace Bunzip

namespace Format

/-! ## Writing -/

variable {limit : Nat}

/-- The checksum folded from blocks, after those that came before. -/
def foldCrcs (computed : UInt32) (blocks : List (WrittenBlock limit)) : UInt32 :=
  blocks.foldl (fun computed block => Crc.foldStream computed (crcOf block.data)) computed

/-- The report on a block with the given number. -/
def WrittenBlock.report (written : WrittenBlock limit) (index : Nat) : BlockReport :=
  ⟨index, crcOf written.data, (encodeRuns written.data).length, written.data.length⟩

/-- The reports on blocks, the first of which has the given number. -/
def reportsFrom : (index : Nat) → List (WrittenBlock limit) → List BlockReport
  | _, [] => []
  | index, block :: blocks => block.report index :: reportsFrom (index + 1) blocks

/-- The bytes of all blocks. -/
def allData (blocks : List (WrittenBlock limit)) : List UInt8 := blocks.flatMap (·.data)

/-- Blocks and the footer. -/
def writeBlocks (computed : UInt32) : List (WrittenBlock limit) → List Bool
  | [] => bitsOf 48 StreamDecoder.footerMarker.toNat ++ bitsOf 32 computed.toNat
  | block :: blocks =>
    bitsOf 48 StreamDecoder.blockMarker.toNat
      ++ (block.bits ++ writeBlocks (Crc.foldStream computed (crcOf block.data)) blocks)

/-- A stream whose block size is given by a digit. -/
def writeStream (digit : Nat) (blocks : List (WrittenBlock (digit * 100000))) : List Bool :=
  bytesBits [66, 90, 104, UInt8.ofNat (48 + digit)] ++ writeBlocks 0 blocks

/-- A stream as bytes. -/
def encode (digit : Nat) (blocks : List (WrittenBlock (digit * 100000))) : ByteArray :=
  ⟨(pack (writeStream digit blocks)).toArray⟩

end Format

open Format

namespace StreamDecoder

variable {limit : Nat}

/-! ## The header -/

theorem reads_readHeader {digit : Nat} (hlow : 1 ≤ digit) (hhigh : digit ≤ 9) :
    Op.Reads BitReader.At readHeader (bytesBits [66, 90, 104, UInt8.ofNat (48 + digit)]) digit := by
  have hsplit : bytesBits [66, 90, 104, UInt8.ofNat (48 + digit)]
      = bytesBits [66, 90, 104] ++ (bitsOf 8 (UInt8.ofNat (48 + digit)).toNat ++ []) := rfl
  have hsignature : (BitReader.bytes signature.size).Reads (bytesBits [66, 90, 104]) signature :=
    BitReader.reads_bytesOnto [66, 90, 104] ByteArray.empty
  have hdigit : ¬(UInt8.ofNat (48 + digit) < 49 ∨ 57 < UInt8.ofNat (48 + digit))
      ∧ (UInt8.ofNat (48 + digit) - 48).toNat = digit := by
    have hnat : (UInt8.ofNat (48 + digit)).toNat = 48 + digit := by
      rw [UInt8.toNat_ofNat', Nat.mod_eq_of_lt (by omega)]
    have hle : (48 : UInt8) ≤ UInt8.ofNat (48 + digit) := by
      rw [UInt8.le_iff_toNat_le, hnat]
      exact Nat.le_add_right 48 digit
    rw [UInt8.lt_iff_toNat_lt, UInt8.lt_iff_toNat_lt, UInt8.toNat_sub_of_le _ _ hle, hnat]
    change ¬(48 + digit < 49 ∨ 57 < 48 + digit) ∧ 48 + digit - 48 = digit
    omega
  rw [hsplit]
  refine hsignature.op.bind ?_
  rw [if_neg (by simp)]
  refine (BitReader.reads_byte _).op.bind ?_
  rw [if_neg hdigit.1]
  simp only [hdigit.2]
  exact (Op.Reads.note _).then (Op.Reads.pure _)

/-! ## Between two blocks -/

/-- A strict decoder between two blocks, with what it has made of the blocks before. -/
structure Between (limit : Nat) (computed : UInt32) (reports : List BlockReport) (length : Nat)
    (bits : List Bool) (stream : StreamDecoder) : Prop where
  ready : BlockDecoder.Ready limit bits stream.bench
  computed : stream.computed = computed
  reports : stream.reports.toList = reports
  length : stream.outputLength = length
  unfinished : stream.stored = none
  strict : stream.strict = true

variable {computed : UInt32} {reports : List BlockReport} {length : Nat}

theorem reads_onBench {α : Type} {op : Op BlockDecoder.Bench α} {bits : List Bool} {a : α}
    (h : Op.Reads (BlockDecoder.Ready limit) op bits a) :
    Op.Reads (Between limit computed reports length) (onBench op) bits a := by
  intro stream rest hstream
  obtain ⟨after, notes, hrun, hafter⟩ := h stream.bench rest hstream.ready
  refine ⟨{ stream with bench := after }, notes, by simp only [onBench, hrun]; rfl, ?_⟩
  exact ⟨hafter, hstream.computed, hstream.reports, hstream.length, hstream.unfinished,
    hstream.strict⟩

theorem reads_reading {α : Type} {x : Read α} {bits : List Bool} {a : α} (h : x.Reads bits a) :
    Op.Reads (Between limit computed reports length) (reading x) bits a :=
  reads_onBench (BlockDecoder.reads_reading h)

/-- A marker is written as a whole, though it is read as two halves. -/
theorem reads_marker {magic : UInt64} (hmagic : magic.toNat < 2 ^ 48) :
    marker.Reads (bitsOf 48 magic.toNat) magic := by
  have hhigh : magic.toNat / 2 ^ 24 < 2 ^ 24 := by omega
  have hlow : magic.toNat % 2 ^ 24 < 2 ^ 24 := by omega
  have hjoin : ((UInt32.ofNat (magic.toNat / 2 ^ 24)).toUInt64 <<< 24)
      ||| (UInt32.ofNat (magic.toNat % 2 ^ 24)).toUInt64 = magic := by
    apply UInt64.toNat_inj.mp
    have hshift : ((UInt32.ofNat (magic.toNat / 2 ^ 24)).toUInt64 <<< 24).toNat
        = (magic.toNat / 2 ^ 24) <<< 24 := by
      rw [UInt64.toNat_shiftLeft, UInt32.toNat_toUInt64,
        BitReader.toNat_ofNat_lt (by decide) hhigh]
      apply Nat.mod_eq_of_lt
      rw [Nat.shiftLeft_eq]
      change magic.toNat / 2 ^ 24 * 2 ^ 24 < 2 ^ 64
      omega
    rw [UInt64.toNat_or, hshift, UInt32.toNat_toUInt64, BitReader.toNat_ofNat_lt (by decide) hlow,
      shiftLeft_or_mod]
  have h := (BitReader.reads_bits (by decide) (by decide) hhigh).bind
    (f := fun high : UInt32 => do
      let low ← BitReader.bits 24
      return (high.toUInt64 <<< 24) ||| low.toUInt64)
    ((BitReader.reads_bits (by decide) (by decide) hlow).map fun low =>
      ((UInt32.ofNat (magic.toNat / 2 ^ 24)).toUInt64 <<< 24) ||| low.toUInt64)
  rw [hjoin, bitsOf_mod (Nat.le_refl 24), ← bitsOf_add] at h
  exact h

/-- Behind its marker the next block is read. -/
theorem reads_block {written : WrittenBlock limit} {index : Nat} {block : DecodedBlock}
    (hblock : Op.Reads (BlockDecoder.Ready limit) (BlockDecoder.readBlock index) written.bits block)
    (hindex : index = reports.length + 1) :
    Op.Reads (Between limit computed reports length) next
      (bitsOf 48 blockMarker.toNat ++ written.bits) (some block) := by
  have hmarked : Op.Reads (Between limit computed reports length) readMarked
      (bitsOf 48 blockMarker.toNat ++ written.bits) (some block) := by
    refine (reads_reading (reads_marker (by decide))).bind ?_
    rw [if_pos rfl]
    refine Op.Reads.get fun stream _ hstream => ?_
    rw [← Array.length_toList, hstream.reports, ← hindex, ← List.append_nil written.bits]
    exact (Op.Reads.note _).then ((reads_onBench hblock).bind (Op.Reads.pure _))
  intro stream rest hstream
  have hunfinished : ¬stream.isFinished := by rw [isFinished, hstream.unfinished]; exact nofun
  rw [next, if_neg hunfinished]
  exact hmarked stream rest hstream

/-- Behind its marker a footer that agrees ends the stream. -/
theorem next_footer {rest : List Bool} {stream : StreamDecoder}
    (h : Between limit computed reports length
      (bitsOf 48 footerMarker.toNat ++ bitsOf 32 computed.toNat ++ rest) stream) :
    ∃ after notes, next stream = .ok none after notes
      ∧ after.summary? = some ⟨reports, computed, computed, length⟩ := by
  rw [List.append_assoc] at h
  obtain ⟨middle, first, hmarker, hmiddle⟩ :=
    reads_reading (reads_marker (by decide : footerMarker.toNat < 2 ^ 48)) stream _ h
  obtain ⟨last, second, hword, hlast⟩ :=
    reads_reading (BitReader.reads_word computed) middle _ hmiddle
  -- the stored checksum is the computed one, so nothing is refused
  have hfooter : ∃ notes, readFooter middle = .ok () { last with stored := some computed } notes := by
    refine ⟨(readFooter middle).notes, ?_⟩
    rw [readFooter, Op.bind_eq, hword]
    simp only [Op.bind_eq, Op.modify, Op.get, Op.note, hlast.computed, if_true]
    rfl
  obtain ⟨third, hfooter⟩ := hfooter
  have hunfinished : ¬stream.isFinished := by rw [isFinished, h.unfinished]; exact Bool.false_ne_true
  refine ⟨{ last with stored := some computed }, (next stream).notes, ?_, ?_⟩
  · rw [next, if_neg hunfinished, readMarked, Op.bind_eq, hmarker]
    simp only
    rw [if_neg (by decide), if_pos trivial, Op.bind_eq, hfooter]
    rfl
  · simp only [summary?, hlast.reports, hlast.computed, hlast.length]

/-! ## Giving a block back -/

theorem finish_eq {block : DecodedBlock} (hend : block.isExhausted = true)
    (hcrc : block.crc.value = block.stored) (stream : StreamDecoder) :
    ∃ decoder notes, decoder.maxLength = stream.bench.1.maxLength
      ∧ finish block stream = .ok block.report { stream with
          bench := (decoder, stream.bench.2)
          computed := Crc.foldStream stream.computed block.stored
          reports := stream.reports.push block.report
          outputLength := stream.outputLength + block.emitted } notes := by
  refine ⟨(BlockDecoder.recycle block.rest.walk.links stream.bench.1).state,
    (finish block stream).notes, ?_, ?_⟩
  · rw [BlockDecoder.recycle, Op.bind_eq]
    simp only [Op.modify, BlockDecoder.enter, Outcome.after, Outcome.state]
    split <;> rfl
  · have hverify : (block.verify : Op StreamDecoder UInt32) stream
        = .ok block.stored stream [.checked block.index block.stored block.stored] := by
      rw [DecodedBlock.verify, hcrc, Op.bind_eq]
      simp only [Op.note, ne_eq, not_true_eq_false, if_false]
      rfl
    simp only [finish, hend, Bool.not_true, Bool.false_eq_true, if_false, Op.bind_eq, hverify]
    rfl

/-- A block that has been drained of what was written is counted. -/
theorem Between.finish {written : WrittenBlock limit} {index : Nat} {walk : Walk} {rest : List Bool}
    {stream : StreamDecoder} (hstream : Between limit computed reports length rest stream)
    (hclosed : walk.Closed)
    (hdata : (written.decoded index walk).drained.1.data.toList = written.data) :
    ∃ after notes, finish (written.decoded index walk).drained.2 stream
        = .ok (written.report index) after notes
      ∧ Between limit (Crc.foldStream computed (crcOf written.data))
          (reports ++ [written.report index]) (length + written.data.length) rest after := by
  have hsound : (written.decoded index walk).Sound := hclosed
  have hend : (written.decoded index walk).drained.2.isExhausted = true :=
    (hsound.read _).isExhausted (DecodedBlock.atEnd_drained _)
  have hbytes : (written.decoded index walk).drained.1 = ⟨written.data.toArray⟩ :=
    ByteString.eq_of_toList hdata
  have hcrc : (written.decoded index walk).drained.2.crc.value = crcOf written.data := by
    rw [crcOf, ← hbytes]
    rfl
  have hemitted : (written.decoded index walk).drained.2.emitted = written.data.length := by
    rw [← hdata, ← ByteString.size_eq_length]
    exact Nat.zero_add _
  have hreport : (written.decoded index walk).drained.2.report = written.report index := by
    rw [DecodedBlock.report, hcrc, hemitted]
    rfl
  obtain ⟨decoder, notes, hlength, hfinish⟩ := finish_eq hend hcrc stream
  rw [hreport] at hfinish
  refine ⟨_, notes, hfinish, ⟨⟨hlength.trans hstream.ready.1, hstream.ready.2⟩, ?_, ?_, ?_,
    hstream.unfinished, hstream.strict⟩⟩
  · rw [← hstream.computed]
    rfl
  · rw [Array.toList_push, hstream.reports]
  · rw [← hstream.length, ← hemitted]

/-! ## All blocks -/

/-- Between two blocks, a stream still yields the bytes of the blocks that were written next. -/
theorem Between.yields (hlimit : limit < 2 ^ 24) {blocks : List (WrittenBlock limit)}
    {rest : List Bool} {stream : StreamDecoder}
    (h : Between limit computed reports length (writeBlocks computed blocks ++ rest) stream) :
    Yields none stream (allData blocks) (.ok ⟨reports ++ reportsFrom (reports.length + 1) blocks,
      foldCrcs computed blocks, foldCrcs computed blocks, length + (allData blocks).length⟩) := by
  -- on the blocks; what has been made of those before is in the state
  induction blocks generalizing computed reports length stream with
  | nil =>
    obtain ⟨after, notes, hnext, hsummary⟩ := next_footer h
    rw [reportsFrom, List.append_nil]
    exact .ended hnext hsummary
  | cons written blocks ih =>
    obtain ⟨walk, hread, hclosed, hdata⟩ :=
      BlockDecoder.reads_readBlock hlimit written (reports.length + 1)
    rw [writeBlocks, ← List.append_assoc, List.append_assoc] at h
    obtain ⟨begun, _, hnext, hbegun⟩ := reads_block hread rfl stream _ h
    obtain ⟨after, _, hfinish, hafter⟩ := hbegun.finish hclosed hdata
    have hrest := ih hafter
    rw [List.length_append, List.length_singleton, List.append_assoc,
      Nat.add_assoc length, ← List.length_append] at hrest
    have hyields := Yields.begun hnext (Yields.finished hfinish hrest)
    rw [hdata] at hyields
    exact hyields

/--
**Decoding undoes writing.** Whatever choices are made in writing the blocks of a stream, decoding it
strictly gives the bytes of all blocks in order, and a summary with a report on each.
-/
theorem decodeSource_encode {digit : Nat} (hlow : 1 ≤ digit) (hhigh : digit ≤ 9)
    (blocks : List (WrittenBlock (digit * 100000))) :
    (decodeSource (.ofBytes (encode digit blocks)) true .unbounded).state.taken.data.toList
        = allData blocks
      ∧ (decodeSource (.ofBytes (encode digit blocks)) true .unbounded).result
        = .ok ⟨reportsFrom 1 blocks, foldCrcs 0 blocks, foldCrcs 0 blocks,
            (allData blocks).length⟩ := by
  obtain ⟨zeros, hat⟩ := BitReader.at_ofSource (writeStream digit blocks)
  rw [writeStream, List.append_assoc] at hat
  obtain ⟨reader, notes, hheader, hreader⟩ := reads_readHeader hlow hhigh _ _ hat
  obtain ⟨fresh, hstart, hfresh⟩ : ∃ fresh, start (.ofBytes (encode digit blocks))
      = .ok fresh () notes ∧ (fresh.setStrict true).current = none
        ∧ Between (digit * 100000) 0 [] 0 (writeBlocks 0 blocks ++ List.replicate zeros false)
          (fresh.setStrict true) := by
    rw [start, encode, writeStream, hheader]
    exact ⟨_, rfl, rfl, ⟨rfl, hreader⟩, rfl, rfl, rfl, rfl, rfl⟩
  -- what the stream yields at its start is what a sink that takes everything is given
  have hyields := hfresh.2.yields (by omega)
  rw [List.nil_append, Nat.zero_add] at hyields
  have hremains := remains_of_current_none hfresh.1 hyields
  obtain ⟨hresult, hsink⟩ := hremains.decodeTo Sink.accepting_unbounded
  rw [decodeSource, hstart]
  simp only [Outcome.state_after, Outcome.state_withState, Outcome.result_after,
    Outcome.result_withState, hresult, hsink]
  refine ⟨?_, rfl⟩
  simp [Sink.push, Sink.unbounded, packed]

/-- Two blocks, the first of which has four bytes and the second one. -/
def twoBlocks : List (WrittenBlock (1 * 100000)) :=
  [.flat [97, 98, 97, 98] (by decide) (by decide) (by decide),
    .flat [99] (by decide) (by decide) (by decide)]

theorem decodeSource_encode_twoBlocks :
    1 ≤ 1 ∧ 1 ≤ 9
      ∧ (decodeSource (.ofBytes (encode 1 twoBlocks)) true .unbounded).state.taken.data.toList
        = [97, 98, 97, 98, 99]
      ∧ ∃ summary,
        (decodeSource (.ofBytes (encode 1 twoBlocks)) true .unbounded).result = .ok summary
          ∧ summary.outputLength = 5 := by
  obtain ⟨hbytes, hresult⟩ := decodeSource_encode (Nat.le_refl 1) (by decide) twoBlocks
  exact ⟨Nat.le_refl 1, by decide, hbytes, _, hresult, rfl⟩

end StreamDecoder

end Bunzip

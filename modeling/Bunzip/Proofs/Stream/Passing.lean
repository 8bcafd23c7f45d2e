import Bunzip.Proofs.Format.Stream
import Bunzip.Proofs.Stream.Moves

/-!
# Going from block to block

A stream that is delivered as a whole goes from block to block: it reads a block, drains it and takes
it back. Here such a step is a function, and what a stream yields is told by the blocks that are
passed on the way to the footer.
-/

namespace Bunzip.StreamDecoder

open Format

/-- A stream that has been written is opened right before its blocks. -/
theorem opened_encode {digit : Nat} (hlow : 1 ≤ digit) (hhigh : digit ≤ 9)
    (blocks : List (WrittenBlock (digit * 100000))) :
    ∃ reader notes zeros,
      readHeader (.ofSource (.ofBytes (encode digit blocks))) = .ok digit reader notes
        ∧ Between (digit * 100000) 0 [] 0 (writeBlocks 0 blocks ++ List.replicate zeros false)
          (opened true digit reader) := by
  obtain ⟨zeros, hat⟩ := BitReader.at_ofSource (writeStream digit blocks)
  rw [writeStream, List.append_assoc] at hat
  obtain ⟨reader, notes, hread, hreader⟩ := reads_readHeader hlow hhigh _ _ hat
  exact ⟨reader, notes, zeros, hread, ⟨rfl, hreader⟩, rfl, rfl, rfl, rfl, rfl⟩

/-! ## One block -/

/-- Reads a block, drains it and takes it back: the block, and the stream behind it. -/
def passBlock (stream : StreamDecoder) : Option (DecodedBlock × StreamDecoder) :=
  match next stream with
  | .ok (some block) begun _ =>
    match finish block.drained.2 begun with
    | .ok _ after _ => some (block, after)
    | .error _ _ _ => none
  | _ => none

/-- The stream behind so many blocks. -/
def passBlocks : Nat → StreamDecoder → Option StreamDecoder
  | 0, stream => some stream
  | n + 1, stream =>
    match passBlock stream with
    | none => none
    | some (_, after) => passBlocks n after

variable {stream after : StreamDecoder} {block : DecodedBlock}

theorem passBlock_eq_some : passBlock stream = some (block, after) ↔
    ∃ begun report notes more, next stream = .ok (some block) begun notes
      ∧ finish block.drained.2 begun = .ok report after more := by
  rw [passBlock]
  constructor
  · intro h
    split at h
    · next found begun notes hnext =>
      split at h
      · next hfinish =>
        cases h
        exact ⟨_, _, _, _, hnext, hfinish⟩
      · cases h
    · cases h
  · rintro ⟨begun, report, notes, more, hnext, hfinish⟩
    rw [hnext]
    simp only [hfinish]

/-- A marker and a block behind it are the next block. -/
theorem next_of_readBlock {behind : BitReader} {bench : BlockDecoder.Bench} {more : List Note}
    (hopen : stream.stored = none) (hmarker : marker stream.bench.2 = .ok blockMarker behind)
    (hread : BlockDecoder.readBlock (stream.reports.size + 1) (stream.bench.1, behind)
      = .ok block bench more) :
    ∃ notes, next stream = .ok (some block) { stream with bench } notes := by
  have hunfinished : ¬stream.isFinished = true := by simp [isFinished, hopen]
  rw [next, if_neg hunfinished, readMarked, Op.bind_eq, reading_eq, hmarker]
  simp only [if_pos, Op.bind_eq, Op.get, Op.note, onBench_eq, hread]
  exact ⟨_, rfl⟩

/-- What has been read of a block that was passed, and what has become of the stream. -/
structure Passed (stream : StreamDecoder) (block : DecodedBlock) (after : StreamDecoder)
    (behind : BitReader) (bench : BlockDecoder.Bench) : Prop where
  unfinished : stream.stored = none
  marker : marker stream.bench.2 = .ok blockMarker behind
  read : ∃ notes, BlockDecoder.readBlock (stream.reports.size + 1) (stream.bench.1, behind)
    = .ok block bench notes
  exhausted : block.drained.2.isExhausted = true
  crc : block.drained.2.crc.value = block.stored
  after : ∃ decoder : BlockDecoder, decoder.maxLength = bench.1.maxLength ∧ after =
    { stream with
      bench := (decoder, bench.2)
      computed := Crc.foldStream stream.computed block.stored
      outputLength := stream.outputLength + block.drained.2.emitted
      reports := stream.reports.push block.drained.2.report }

theorem passed_of_passBlock (h : passBlock stream = some (block, after)) :
    ∃ behind bench, Passed stream block after behind bench := by
  obtain ⟨begun, report, notes, more, hnext, hfinish⟩ := passBlock_eq_some.mp h
  have hasked := asked_next stream
  rw [hnext] at hasked
  cases hasked with
  | begun hopen hmarker hread =>
    next behind bench _ =>
    have htaken := takenBack_finish block.drained.2 { stream with bench }
    rw [hfinish] at htaken
    cases htaken with
    | counted hexhausted hcrc hdecoder =>
      exact ⟨behind, bench, hopen, hmarker, ⟨_, hread⟩, hexhausted, hcrc, _, hdecoder, rfl⟩

/-- A block that is read and agrees with its checksum is passed. -/
theorem passBlock_of_readBlock {behind : BitReader} {bench : BlockDecoder.Bench} {more : List Note}
    (hopen : stream.stored = none) (hmarker : marker stream.bench.2 = .ok blockMarker behind)
    (hread : BlockDecoder.readBlock (stream.reports.size + 1) (stream.bench.1, behind)
      = .ok block bench more)
    (hexhausted : block.drained.2.isExhausted = true)
    (hcrc : block.drained.2.crc.value = block.stored) :
    ∃ after, passBlock stream = some (block, after) ∧ Passed stream block after behind bench := by
  obtain ⟨notes, hnext⟩ := next_of_readBlock hopen hmarker hread
  obtain ⟨decoder, last, hdecoder, hfinish⟩ := finish_eq hexhausted hcrc { stream with bench }
  exact ⟨_, passBlock_eq_some.mpr ⟨_, _, _, _, hnext, hfinish⟩, hopen, hmarker, ⟨_, hread⟩,
    hexhausted, hcrc, decoder, hdecoder, rfl⟩

theorem bitsLeft_passBlock (h : passBlock stream = some (block, after)) :
    after.bitsLeft ≤ stream.bitsLeft := by
  obtain ⟨begun, report, notes, more, hnext, hfinish⟩ := passBlock_eq_some.mp h
  have hbegun := bitsLeft_next hnext
  have hdone := (spends_finish _).of_ok hfinish
  omega

/-! ## Blocks in a row -/

/-- The stream passes these blocks in order. -/
inductive Through : List DecodedBlock → StreamDecoder → StreamDecoder → Prop where
  | here (stream : StreamDecoder) : Through [] stream stream
  | on {stream middle after : StreamDecoder} {block : DecodedBlock} {blocks : List DecodedBlock} :
      passBlock stream = some (block, middle) → Through blocks middle after →
      Through (block :: blocks) stream after

variable {blocks : List DecodedBlock}

theorem Through.passBlocks (h : Through blocks stream after) :
    passBlocks blocks.length stream = some after := by
  induction h with
  | here => rfl
  | on hpass _ ih =>
    rw [List.length_cons, StreamDecoder.passBlocks, hpass]
    exact ih

theorem Through.split (h : Through blocks stream after) (n : Nat) :
    ∃ middle, Through (blocks.take n) stream middle ∧ Through (blocks.drop n) middle after := by
  induction h generalizing n with
  | here stream =>
    rw [List.take_nil, List.drop_nil]
    exact ⟨stream, .here stream, .here stream⟩
  | @on stream first after block blocks hpass hrest ih =>
    cases n with
    | zero => exact ⟨stream, .here stream, .on hpass hrest⟩
    | succ n =>
      obtain ⟨middle, hbefore, hbehind⟩ := ih n
      exact ⟨middle, .on hpass hbefore, hbehind⟩

theorem Through.bitsLeft_le (h : Through blocks stream after) : after.bitsLeft ≤ stream.bitsLeft := by
  induction h with
  | here => exact Nat.le_refl _
  | on hpass _ ih => exact Nat.le_trans ih (bitsLeft_passBlock hpass)

/-- Each block that is passed is reported. -/
theorem Through.reports (h : Through blocks stream after) :
    after.reports.toList
      = stream.reports.toList ++ blocks.map fun block => block.drained.2.report := by
  induction h with
  | here => rw [List.map_nil, List.append_nil]
  | on hpass _ ih =>
    obtain ⟨_, _, hpassed⟩ := passed_of_passBlock hpass
    obtain ⟨_, _, rfl⟩ := hpassed.after
    rw [ih, List.map_cons, Array.toList_push, List.append_assoc, List.singleton_append]

/-! ## What is yielded on the way -/

/-- All bytes of blocks, in order. -/
def output (blocks : List DecodedBlock) : List UInt8 :=
  blocks.flatMap fun block => block.drained.1.data.toList

variable {bytes : List UInt8} {result : Except DecodeError StreamSummary}

/-- What is yielded behind the blocks is yielded after their bytes. -/
theorem Through.yields (h : Through blocks stream after) (hy : Yields none after bytes result) :
    Yields none stream (output blocks ++ bytes) result := by
  induction h with
  | here => exact hy
  | on hpass _ ih =>
    obtain ⟨_, _, _, _, hnext, hfinish⟩ := passBlock_eq_some.mp hpass
    rw [output, List.flatMap_cons, List.append_assoc]
    exact .begun hnext (.finished hfinish (ih hy))

/-- The stream passes the blocks and then comes to the footer. -/
structure Completes (stream : StreamDecoder) (blocks : List DecodedBlock) (last : StreamDecoder)
    (summary : StreamSummary) : Prop where
  through : Through blocks stream last
  ended : ∃ after notes, next last = .ok none after notes ∧ after.summary? = some summary

/-- The bytes are those of blocks that are passed, the one at work first of all. -/
def CompletesFrom (stream : StreamDecoder) (bytes : List UInt8) (summary : StreamSummary) :
    Option DecodedBlock → Prop
  | none => ∃ blocks last, bytes = output blocks ∧ Completes stream blocks last summary
  | some block => ∃ report after notes, finish block.drained.2 stream = .ok report after notes
    ∧ ∃ blocks last, bytes = output (block :: blocks) ∧ Completes after blocks last summary

theorem Yields.completesFrom {work : Option DecodedBlock} (h : Yields work stream bytes result)
    {summary : StreamSummary} (hresult : result = .ok summary) :
    CompletesFrom stream bytes summary work := by
  induction h with
  | failed => cases hresult
  | refused => cases hresult
  | ended hnext hsummary =>
    cases hresult
    exact ⟨[], _, rfl, .here _, _, _, hnext, hsummary⟩
  | begun hnext _ ih =>
    obtain ⟨report, after, notes, hfinish, blocks, last, hbytes, hthrough, hended⟩ := ih hresult
    exact ⟨_, last, hbytes,
      .on (passBlock_eq_some.mpr ⟨_, _, _, _, hnext, hfinish⟩) hthrough, hended⟩
  | finished hfinish _ ih =>
    obtain ⟨blocks, last, hbytes, hcompletes⟩ := ih hresult
    refine ⟨_, _, _, hfinish, blocks, last, ?_, hcompletes⟩
    rw [hbytes, output, output, List.flatMap_cons]

/-- What a stream yields that comes to its footer are the bytes of the blocks that it passes. -/
theorem Yields.completes {summary : StreamSummary} (h : Yields none stream bytes (.ok summary)) :
    ∃ blocks last, bytes = output blocks ∧ Completes stream blocks last summary :=
  h.completesFrom rfl

end Bunzip.StreamDecoder

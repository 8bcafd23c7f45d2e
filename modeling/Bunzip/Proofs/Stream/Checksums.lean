import Bunzip.Proofs.Stream.Alongside

/-!
# Stored checksums influence nothing else

A stream is decoded twice, the second time with another word in place of one of its stored checksums.
If it is the checksum of a block, the second run still reads this block and hands out the same bytes,
and then refuses it. If it is the checksum in the footer, a strict run tells that it does not agree,
and another one only records it.
-/

namespace Bunzip.StreamDecoder

open Format

/-! ## Where checksums are stored -/

/--
The place of the checksum behind the first `n` blocks, which is that of the next block or of the
footer: right behind the marker.
-/
def checksumPlace (data : ByteArray) (n : Nat) : Option Nat :=
  match start (.ofBytes data) with
  | .error _ _ _ => none
  | .ok fresh _ _ => (passBlocks n (fresh.setStrict true)).map fun stream => stream.position + 48

theorem checksumPlace_of_through {data : ByteArray} {digit : Nat} {reader : BitReader}
    {notes : List Note} (hread : readHeader (.ofSource (.ofBytes data)) = .ok digit reader notes)
    {blocks : List DecodedBlock} {middle : StreamDecoder}
    (hthrough : Through blocks (opened true digit reader) middle) :
    checksumPlace data blocks.length = some (middle.position + 48) := by
  rw [checksumPlace, start_of_readHeader hread]
  simp only [setStrict_opened, hthrough.passBlocks, Option.map_some]

/-! ## Where a checksum is not the same -/

section

variable {word value : UInt32} {stream other after : StreamDecoder}

/-- A block whose checksum does not agree is not taken back. -/
theorem finish_refused (block : DecodedBlock) (hend : block.isExhausted = true)
    (hcrc : block.crc.value ≠ block.stored) (stream : StreamDecoder) :
    ∃ notes, finish block stream
      = .error (.blockChecksum block.index block.stored block.crc.value) stream notes := by
  rw [finish, hend, if_neg (by decide), Op.bind_eq, DecodedBlock.verify_eq, if_neg hcrc]
  exact ⟨_, rfl⟩

/-- The block behind another checksum is read all the same, hands out its bytes and is refused. -/
theorem Parted.refuses (h : Parted blockMarker word value stream other) (hne : value ≠ word)
    {block : DecodedBlock} (hpass : passBlock stream = some (block, after)) :
    block.stored = word
      ∧ Yields none other block.drained.1.data.toList (.error (.blockChecksum block.index value word)) := by
  obtain ⟨behind, bench, hpassed⟩ := passed_of_passBlock hpass
  obtain ⟨notes, hread⟩ := hpassed.read
  obtain ⟨edge, later, later', halong⟩ := h.alongside
  obtain ⟨place, rest, behind, behind', hmarker, hmarker', hbehind, hbehind'⟩ := h.markers
  rw [hpassed.marker] at hmarker
  cases hmarker
  have hstored : block.stored = word := by
    obtain ⟨_, hword⟩ := (BlockDecoder.begun_of_readBlock hread).1.stored
    obtain ⟨_, hsame, _⟩ := BitReader.word_of_stands hbehind
    rw [hword] at hsame
    cases hsame
    rfl
  obtain ⟨bench', notes', hread'⟩ := BlockDecoder.readBlock_of_other
    (a := (stream.bench.1, behind)) (b := (other.bench.1, behind')) halong.limit hbehind hbehind' hread
  rw [halong.reports] at hread'
  obtain ⟨more, hnext⟩ := next_of_readBlock halong.unfinished hmarker' hread'
  -- draining does not look at the stored checksum
  have hcrc : block.drained.2.crc.value = word := hpassed.crc.trans hstored
  obtain ⟨last, hfinish⟩ := finish_refused { block.drained.2 with stored := value }
    hpassed.exhausted (by simp only [hcrc]; exact hne.symm) { other with bench := bench' }
  simp only [hcrc] at hfinish
  rw [← show ({ block with stored := value } : DecodedBlock).drained.2
    = { block.drained.2 with stored := value } from rfl] at hfinish
  exact ⟨hstored, .begun hnext (.refused hfinish)⟩

theorem word_of_footerAhead (h : footerAhead stream.bench.2 = some word) :
    ∃ behind after, marker stream.bench.2 = .ok footerMarker behind
      ∧ BitReader.word behind = .ok word after := by
  rw [footerAhead] at h
  split at h
  · cases h
  · next magic behind hmarker =>
    split at h
    · next hmagic =>
      split at h
      · cases h
      · next stored after hword =>
        cases h
        exact ⟨behind, after, hmagic ▸ hmarker, hword⟩
    · cases h

/-- The word behind the marker of the footer is the checksum that is read there. -/
theorem Parted.footerAhead (h : Parted footerMarker word value stream other) :
    footerAhead stream.bench.2 = some word ∧ footerAhead other.bench.2 = some value := by
  obtain ⟨place, rest, behind, behind', hmarker, hmarker', hbehind, hbehind'⟩ := h.markers
  obtain ⟨_, hword, _⟩ := BitReader.word_of_stands hbehind
  obtain ⟨_, hword', _⟩ := BitReader.word_of_stands hbehind'
  rw [StreamDecoder.footerAhead, StreamDecoder.footerAhead, hmarker, hmarker']
  simp only [if_pos, hword, hword', and_self]

/-- Before a footer that does not agree, a strict stream fails, and another one only records it. -/
theorem yields_of_footerAhead (hopen : stream.stored = none)
    (hahead : footerAhead stream.bench.2 = some value) (hne : value ≠ stream.computed) :
    Yields none stream [] (if stream.strict then .error (.streamChecksum value stream.computed)
      else .ok ⟨stream.reports.toList, stream.computed, value, stream.outputLength⟩) := by
  have hasked := asked_next stream
  generalize hnext : next stream = outcome at hasked
  cases hasked with
  | finished hfinished =>
    rw [isFinished, hopen] at hfinished
    cases hfinished
  | begun _ hmarker _ =>
    rw [footerAhead_of_block hmarker] at hahead
    cases hahead
  | stopped _ hnone =>
    rw [hnone] at hahead
    cases hahead
  | ended _ hsome hagrees =>
    cases hsome.symm.trans hahead
    rw [if_neg fun hstrict => hne (hagrees hstrict)]
    exact .ended hnext rfl
  | refused _ hsome hstrict _ =>
    cases hsome.symm.trans hahead
    rw [if_pos hstrict]
    exact .failed hnext

end

/-! ## Accepted streams -/

theorem Through.keeps {blocks : List DecodedBlock} {stream after : StreamDecoder}
    (h : Through blocks stream after) : after.stored = stream.stored ∧ after.strict = stream.strict := by
  induction h with
  | here => exact ⟨rfl, rfl⟩
  | on hpass _ ih =>
    obtain ⟨_, _, hpassed⟩ := passed_of_passBlock hpass
    obtain ⟨_, _, rfl⟩ := hpassed.after
    exact ih

/-- A block that is passed has been read from its start, so all of its bytes are counted. -/
theorem Through.emitted {blocks : List DecodedBlock} {stream after : StreamDecoder}
    (h : Through blocks stream after) :
    ∀ block ∈ blocks, block.drained.2.emitted = block.drained.1.data.toList.length := by
  induction h with
  | here => exact fun _ hmem => nomatch hmem
  | @on stream middle after block blocks hpass _ ih =>
    intro other hmem
    rcases List.mem_cons.mp hmem with rfl | hmem
    · obtain ⟨_, _, hpassed⟩ := passed_of_passBlock hpass
      obtain ⟨notes, hread⟩ := hpassed.read
      have hfresh := (BlockDecoder.begun_of_readBlock hread).1.emitted
      have hcounted : other.drained.2.emitted = other.emitted + other.drained.1.size := rfl
      rw [hcounted, hfresh, Nat.zero_add, ByteString.size_eq_length]
    · exact ih other hmem

theorem length_output {blocks : List DecodedBlock}
    (h : ∀ block ∈ blocks, block.drained.2.emitted = block.drained.1.data.toList.length) :
    (output blocks).length
      = ((blocks.map fun block => block.drained.2.report).map BlockReport.outputLength).sum := by
  induction blocks with
  | nil => rfl
  | cons block blocks ih =>
    rw [output, List.flatMap_cons, List.length_append, ← h block List.mem_cons_self, List.map_cons,
      List.map_cons, List.sum_cons]
    exact congrArg (_ + ·) (ih fun other hmem => h other (List.mem_cons_of_mem block hmem))

theorem bytes_push_packed (bytes : List UInt8) : (Sink.unbounded.push (packed bytes)).bytes = bytes := by
  simp [Sink.bytes, Sink.push, Sink.unbounded, packed]

/-- A stream that is accepted passes its blocks and comes to a footer that agrees. -/
structure Accepted (data : ByteArray) (digit : Nat) (reader : BitReader)
    (blocks : List DecodedBlock) (last : StreamDecoder) (summary : StreamSummary) : Prop where
  header : ∃ notes, readHeader (.ofSource (.ofBytes data)) = .ok digit reader notes
  through : Through blocks (opened true digit reader) last
  footer : footerAhead last.bench.2 = some summary.stored
  agrees : summary.stored = last.computed
  told : summary = ⟨last.reports.toList, last.computed, summary.stored, last.outputLength⟩
  reports : summary.blocks = blocks.map fun block => block.drained.2.report
  state : (decodeSource (.ofBytes data) true .unbounded).state
    = Sink.unbounded.push (packed (output blocks))

theorem accepted_of_ok {data : ByteArray} {summary : StreamSummary}
    (h : (decodeSource (.ofBytes data) true .unbounded).result = .ok summary) :
    ∃ digit reader blocks last, Accepted data digit reader blocks last summary := by
  cases hread : readHeader (.ofSource (.ofBytes data)) with
  | error reason reader notes =>
    rw [decodeSource, start_eq, hread] at h
    cases h
  | ok digit reader notes =>
    obtain ⟨bytes, result, hy⟩ := exists_yields none (opened true digit reader)
    obtain ⟨hresult, hstate⟩ := decodeSource_of_yields hread hy
    obtain rfl : result = .ok summary := hresult.symm.trans h
    obtain ⟨blocks, last, rfl, hthrough, after, more, hnext, hsummary⟩ := hy.completes
    obtain ⟨hopen, hstrict⟩ := hthrough.keeps
    have hasked := asked_next last
    rw [hnext] at hasked
    have hreports := hthrough.reports
    cases hasked with
    | finished hfinished =>
      rw [isFinished, hopen] at hfinished
      cases hfinished
    | @ended stored _ _ _ hahead hagrees =>
      obtain rfl : _ = summary := Option.some.inj hsummary
      exact ⟨digit, reader, blocks, last, ⟨notes, hread⟩, hthrough, hahead, hagrees hstrict, rfl,
        hreports, hstate⟩

variable {data : ByteArray} {digit : Nat} {reader : BitReader} {blocks : List DecodedBlock}
  {last : StreamDecoder} {summary : StreamSummary}

/-- With another checksum a block is refused, and the bytes up to its end have been handed out. -/
theorem Accepted.block_refused (h : Accepted data digit reader blocks last summary) {n : Nat}
    (hn : n < blocks.length) :
    ∃ place, checksumPlace data n = some place ∧ WordAt data place blocks[n].stored
      ∧ blocks[n].drained.2.report.crc = blocks[n].stored
      ∧ ∀ (value : UInt32) (strict : Bool), value ≠ blocks[n].stored →
        (decodeSource (.ofBytes (replaceWord data place value)) strict .unbounded).result
            = .error (.blockChecksum (n + 1) value blocks[n].stored)
          ∧ (decodeSource (.ofBytes (replaceWord data place value)) strict .unbounded).state.bytes
            = output (blocks.take (n + 1)) := by
  obtain ⟨notes, hread⟩ := h.header
  obtain ⟨middle, hbefore, hbehind⟩ := h.through.split n
  rw [List.drop_eq_getElem_cons hn] at hbehind
  cases hbehind with
  | @on _ after _ _ _ hpass _ =>
    obtain ⟨behind, bench, hpassed⟩ := passed_of_passBlock hpass
    obtain ⟨more, hblock⟩ := hpassed.read
    obtain ⟨hbegun, _⟩ := BlockDecoder.begun_of_readBlock hblock
    obtain ⟨_, hword⟩ := hbegun.stored
    have hplace := checksumPlace_of_through hread hbefore
    obtain ⟨_, rfl, hat, hothers⟩ := parted_of_through hread hbefore (by decide) hpassed.marker hword
    have hlength : (blocks.take n).length = n := by
      rw [List.length_take, Nat.min_eq_left (Nat.le_of_lt hn)]
    have hindex : blocks[n].index = n + 1 := by
      have hreports := congrArg List.length hbefore.reports
      rw [List.length_append, List.length_map, hlength, Array.length_toList] at hreports
      rw [hbegun.index, hreports]
      exact congrArg (· + 1) (Nat.zero_add n)
    rw [hlength] at hplace
    refine ⟨_, hplace, hat, hpassed.crc, fun value strict hne => ?_⟩
    obtain ⟨reader', notes', middle', hread', hthrough', hparted⟩ := hothers value strict
    obtain ⟨_, hrefused⟩ := hparted.refuses hne hpass
    obtain ⟨hresult, hstate⟩ := decodeSource_of_yields hread' (hthrough'.yields hrefused)
    rw [hindex] at hresult
    refine ⟨hresult, ?_⟩
    rw [hstate, bytes_push_packed, List.take_succ_eq_append_getElem hn, output, output,
      List.flatMap_append, List.flatMap_cons, List.flatMap_nil, List.append_nil]

/-- With another checksum in the footer, strict decoding fails and other decoding records it. -/
theorem Accepted.footer_replaced (h : Accepted data digit reader blocks last summary) :
    ∃ place, checksumPlace data blocks.length = some place ∧ WordAt data place summary.stored
      ∧ ∀ (value : UInt32), value ≠ summary.stored →
        (decodeSource (.ofBytes (replaceWord data place value)) true .unbounded).result
            = .error (.streamChecksum value summary.stored)
          ∧ (decodeSource (.ofBytes (replaceWord data place value)) false .unbounded).result
            = .ok { summary with stored := value }
          ∧ ∀ strict,
            (decodeSource (.ofBytes (replaceWord data place value)) strict .unbounded).state
              = (decodeSource (.ofBytes data) true .unbounded).state := by
  obtain ⟨notes, hread⟩ := h.header
  obtain ⟨behind, after, hmarker, hword⟩ := word_of_footerAhead h.footer
  have hplace := checksumPlace_of_through hread h.through
  obtain ⟨place, rfl, hat, hothers⟩ := parted_of_through hread h.through (by decide) hmarker hword
  refine ⟨_, hplace, hat, fun value hne => ?_⟩
  have hdecode : ∀ strict,
      (decodeSource (.ofBytes (replaceWord data (last.position + 48) value)) strict
          .unbounded).result
          = (if strict then .error (.streamChecksum value summary.stored)
            else .ok { summary with stored := value })
        ∧ (decodeSource (.ofBytes (replaceWord data (last.position + 48) value)) strict
          .unbounded).state = (decodeSource (.ofBytes data) true .unbounded).state := by
    intro strict
    obtain ⟨reader', notes', last', hread', hthrough', hparted⟩ := hothers value strict
    obtain ⟨edge, later, later', halong⟩ := hparted.alongside
    have hcomputed : summary.stored = last'.computed := h.agrees.trans halong.computed
    have hstrict : last'.strict = strict := hthrough'.keeps.2
    have hsummary : ({ summary with stored := value } : StreamSummary)
        = ⟨last'.reports.toList, last'.computed, value, last'.outputLength⟩ := by
      rw [h.told, halong.reports, halong.computed, halong.outputLength]
    have hy := yields_of_footerAhead halong.unfinished hparted.footerAhead.2 (hcomputed ▸ hne)
    obtain ⟨hresult, hstate⟩ := decodeSource_of_yields hread' (hthrough'.yields hy)
    rw [List.append_nil] at hstate
    rw [hresult, hstate, hstrict, hsummary, hcomputed, h.state]
    exact ⟨rfl, rfl⟩
  exact ⟨(hdecode true).1, (hdecode false).1, fun strict => (hdecode strict).2⟩

/--
Stored checksums are checked, and nothing else depends on them. Where strict decoding accepts bytes,
each block has its checksum somewhere in them. With any other word in that place, and in no other,
decoding fails because the checksum of this block does not agree, strict or not, and the sink has
taken exactly the bytes of the blocks up to this one. With any other word in the place of the checksum
in the footer, the sink takes the same bytes as before; then strict decoding fails because of this
checksum, and other decoding gives the same summary, but for the word, and says that it does not agree.
-/
theorem checksums_only_checked (haccepted :
      (decodeSource (.ofBytes data) true .unbounded).result = .ok summary) :
    (∀ (n : Nat) (hn : n < summary.blocks.length), ∃ place,
      checksumPlace data n = some place ∧ WordAt data place summary.blocks[n].crc
        ∧ ∀ (value : UInt32) (strict : Bool), value ≠ summary.blocks[n].crc →
          (decodeSource (.ofBytes (replaceWord data place value)) strict .unbounded).result
              = .error (.blockChecksum (n + 1) value summary.blocks[n].crc)
            ∧ (decodeSource (.ofBytes (replaceWord data place value)) strict .unbounded).state.bytes
              <+: (decodeSource (.ofBytes data) true .unbounded).state.bytes
            ∧ (decodeSource (.ofBytes (replaceWord data place value)) strict
                .unbounded).state.bytes.length
              = ((summary.blocks.take (n + 1)).map BlockReport.outputLength).sum)
    ∧ ∃ place, checksumPlace data summary.blocks.length = some place
      ∧ WordAt data place summary.stored
      ∧ ∀ (value : UInt32), value ≠ summary.stored →
        (decodeSource (.ofBytes (replaceWord data place value)) true .unbounded).result
            = .error (.streamChecksum value summary.stored)
          ∧ (decodeSource (.ofBytes (replaceWord data place value)) false .unbounded).result
            = .ok { summary with stored := value }
          ∧ ({ summary with stored := value } : StreamSummary).checksumAgrees = false
          ∧ ∀ strict,
            (decodeSource (.ofBytes (replaceWord data place value)) strict .unbounded).state
              = (decodeSource (.ofBytes data) true .unbounded).state := by
  obtain ⟨digit, reader, blocks, last, h⟩ := accepted_of_ok haccepted
  have hlength : summary.blocks.length = blocks.length := by rw [h.reports, List.length_map]
  refine ⟨fun n hn => ?_, ?_⟩
  · obtain ⟨place, hplace, hat, hcrc, hothers⟩ := h.block_refused (hlength ▸ hn)
    have hstored : summary.blocks[n].crc = blocks[n].stored := by
      simp only [h.reports, List.getElem_map, hcrc]
    rw [hstored]
    refine ⟨place, hplace, hat, fun value strict hne => ?_⟩
    obtain ⟨hresult, hbytes⟩ := hothers value strict hne
    have hemitted := fun block (hmem : block ∈ blocks.take (n + 1)) =>
      h.through.emitted block (List.mem_of_mem_take hmem)
    refine ⟨hresult, ?_, ?_⟩
    · obtain ⟨rest, hrest⟩ := List.take_prefix (n + 1) blocks
      rw [hbytes, h.state, bytes_push_packed]
      exact ⟨output rest, by rw [output, output, ← List.flatMap_append, hrest, output]⟩
    · rw [hbytes, length_output hemitted, h.reports, List.map_take, List.map_take]
  · rw [hlength]
    obtain ⟨place, hplace, hat, hothers⟩ := h.footer_replaced
    refine ⟨place, hplace, hat, fun value hne => ?_⟩
    obtain ⟨hstrict, hlenient, hstate⟩ := hothers value hne
    have hcomputed : summary.computed = summary.stored := by rw [h.told, ← h.agrees]
    refine ⟨hstrict, hlenient, ?_, hstate⟩
    rw [StreamSummary.checksumAgrees, hcomputed]
    exact beq_false_of_ne hne.symm

/-- Another word in place of the checksum of the second block. -/
theorem checksums_only_checked_twoBlocks : ∃ summary,
    (decodeSource (.ofBytes (encode 1 twoBlocks)) true .unbounded).result = .ok summary
      ∧ ∃ place, checksumPlace (encode 1 twoBlocks) 1 = some place
        ∧ ∀ (value : UInt32) (strict : Bool), value ≠ crcOf [99] →
          (decodeSource (.ofBytes (replaceWord (encode 1 twoBlocks) place value)) strict
            .unbounded).result = .error (.blockChecksum 2 value (crcOf [99])) := by
  obtain ⟨reader, notes, zeros, hread, hopened⟩ := opened_encode (Nat.le_refl 1) (by decide) twoBlocks
  obtain ⟨haccepted, _⟩ := decodeSource_of_yields hread (hopened.yields (by decide))
  obtain ⟨hblocks, _⟩ := checksums_only_checked haccepted
  obtain ⟨place, hplace, _, hothers⟩ := hblocks 1 (Nat.lt_succ_self 1)
  exact ⟨_, haccepted, place, hplace, fun value strict hne => (hothers value strict hne).1⟩

end Bunzip.StreamDecoder

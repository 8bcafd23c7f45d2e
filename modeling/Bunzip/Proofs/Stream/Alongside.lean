import Bunzip.Proofs.Locality.Replaced
import Bunzip.Proofs.Locality.Source
import Bunzip.Proofs.Stream.Passing

/-!
# Two streams alongside each other

Two inputs begin with the same bits and differ from some place on. Up to this place, which may lie at
any alignment to bytes, the streams that are decoded from them go alongside each other: through the
same blocks, with the same books. If what differs is a word behind a marker, both come to the marker
and part there.
-/

namespace Bunzip.StreamDecoder

open Format

/-! ## Markers in the input -/

section

variable {place : Nat} {bits rest : List Bool} {reader after : BitReader} {magic : UInt64}

theorem marker_ahead (hreader : reader.Stands place bits) (hread : marker reader = .ok magic after) :
    ∃ rest, bits = bitsOf 48 magic.toNat ++ rest ∧ after.Stands (place + 48) rest := by
  have hfield : ∀ bits : List Bool, bits.length = 48 →
      ∃ magic : UInt64, bitsOf 48 magic.toNat = bits ∧ marker.Reads bits magic := by
    intro bits hlength
    obtain ⟨value, hvalue, hbits⟩ := exists_bitsOf bits
    rw [hlength] at hvalue hbits
    have hnat : (UInt64.ofNat value).toNat = value := by
      rw [UInt64.toNat_ofNat']
      exact Nat.mod_eq_of_lt (by omega)
    have hcode : bitsOf 48 (UInt64.ofNat value).toNat = bits := by rw [hnat, hbits]
    exact ⟨_, hcode, hcode ▸ reads_marker (by rw [hnat]; exact hvalue)⟩
  exact local_marker.ahead spends_marker hfield hreader hread

theorem marker_of_stands (hmagic : magic.toNat < 2 ^ 48)
    (hreader : reader.Stands place (bitsOf 48 magic.toNat ++ rest)) :
    ∃ after, marker reader = .ok magic after ∧ after.Stands (place + 48) rest := by
  obtain ⟨after, hread, hafter⟩ := local_marker.stands_of_reads (reads_marker hmagic) hreader
  rw [length_bitsOf] at hafter
  exact ⟨after, hread, hafter⟩

end

/-! ## Two streams alongside each other -/

/--
Both streams have come the same way and have the same bits before them, up to the edge. What comes
behind it may differ, and they need not be equally strict.
-/
structure Alongside (edge : Nat) (later later' : List Bool) (stream other : StreamDecoder) : Prop where
  readers : ∃ place common, place + common.length = edge
    ∧ stream.bench.2.Stands place (common ++ later) ∧ other.bench.2.Stands place (common ++ later')
  limit : stream.bench.1.maxLength = other.bench.1.maxLength
  unfinished : other.stored = none
  computed : stream.computed = other.computed
  reports : stream.reports = other.reports
  outputLength : stream.outputLength = other.outputLength

/-- What has been read ends before the edge if the bits behind the edge are all left. -/
theorem split_before {code rest common later : List Bool} (h : common ++ later = code ++ rest)
    (hleft : later.length ≤ rest.length) :
    ∃ middle, common = code ++ middle ∧ rest = middle ++ later := by
  rcases List.append_eq_append_iff.mp h with ⟨between, hcode, hlater⟩ | ⟨middle, hcommon, hrest⟩
  · have hlength := congrArg List.length hlater
    rw [List.length_append] at hlength
    obtain rfl : between = [] := List.length_eq_zero_iff.mp (by omega)
    rw [List.append_nil] at hcode
    exact ⟨[], by rw [hcode, List.append_nil], hlater.symm⟩
  · exact ⟨middle, hcommon, hrest⟩

/-- The same block is read by both readers if it ends before the edge, and then they stand alike. -/
theorem readBlock_alongside {index place : Nat} {decoder decoder' : BlockDecoder}
    {reader reader' : BitReader} {common later later' : List Bool} {block : DecodedBlock}
    {bench : BlockDecoder.Bench} {notes : List Note} (hlimit : decoder.maxLength = decoder'.maxLength)
    (ha : reader.Stands place (common ++ later)) (hb : reader'.Stands place (common ++ later'))
    (hread : BlockDecoder.readBlock index (decoder, reader) = .ok block bench notes)
    (hleft : later.length ≤ bench.2.bitsLeft) :
    ∃ front rest bench' notes', common = front ++ rest
      ∧ BlockDecoder.readBlock index (decoder', reader') = .ok block bench' notes'
      ∧ bench.1.maxLength = bench'.1.maxLength
      ∧ bench.2.Stands (place + front.length) (rest ++ later)
      ∧ bench'.2.Stands (place + front.length) (rest ++ later') := by
  have habreast : BlockDecoder.limitView.Abreast 0 0 later.length (decoder, reader)
      (decoder', reader') :=
    ⟨hlimit, place, common, later, later', by rw [Nat.zero_add]; exact ha,
      by rw [Nat.zero_add]; exact hb, rfl⟩
  obtain ⟨bench', notes', hread', hstates⟩ :=
    (BlockDecoder.inStep_readBlock index).ok_of_ok habreast hread hleft
  -- each reader has moved along its own bits, and both are now at the same place
  obtain ⟨front, last, hfront, hbench⟩ :=
    (BlockDecoder.local_readBlock index).moves (decoder, reader) ha
  obtain ⟨front', last', hfront', hbench'⟩ :=
    (BlockDecoder.local_readBlock index).moves (decoder', reader') hb
  rw [hread] at hbench
  rw [hread'] at hbench'
  have hsame : front.length = front'.length := by
    obtain ⟨n, _, _, _, hn, hn', _⟩ := hstates.readers
    have hplace : bench.2.position = place + front.length := hbench.position
    have hplace' : bench'.2.position = place + front'.length := hbench'.position
    have hcommon : bench.2.position = bench'.2.position := hn.position.trans hn'.position.symm
    omega
  have hlast : later.length ≤ last.length := by
    rw [← hbench.upcoming, ← BitReader.bitsLeft_eq]
    exact hleft
  obtain ⟨rest, rfl, rfl⟩ := split_before hfront hlast
  rw [List.append_assoc] at hfront'
  obtain ⟨rfl, rfl⟩ := List.append_inj hfront' hsame
  exact ⟨front, rest, bench', notes', rfl, hread', hstates.rest, hbench, hbench'⟩

section

variable {edge : Nat} {later later' : List Bool} {stream other after : StreamDecoder}

/-- **A block before the edge is passed by both.** -/
theorem Alongside.pass (h : Alongside edge later later' stream other) {block : DecodedBlock}
    (hpass : passBlock stream = some (block, after)) (hleft : later.length ≤ after.bitsLeft) :
    ∃ after', passBlock other = some (block, after') ∧ Alongside edge later later' after after' := by
  obtain ⟨place, common, hedge, ha, hb⟩ := h.readers
  obtain ⟨behind, bench, hpassed⟩ := passed_of_passBlock hpass
  obtain ⟨notes, hread⟩ := hpassed.read
  obtain ⟨decoder, hdecoder, rfl⟩ := hpassed.after
  -- the marker, and then the block, take bits from the front of the common ones
  obtain ⟨rest, hrest, hbehind⟩ := marker_ahead ha hpassed.marker
  have hmore : later.length ≤ rest.length := by
    have hspent := (BlockDecoder.spends_readBlock _).of_ok hread
    have hupcoming : behind.bitsLeft = rest.length := by
      rw [BitReader.bitsLeft_eq, hbehind.upcoming]
    exact hupcoming ▸ Nat.le_trans hleft hspent
  obtain ⟨middle, rfl, rfl⟩ := split_before hrest hmore
  rw [List.append_assoc] at hb
  obtain ⟨behind', hmarker', hbehind'⟩ := marker_of_stands (by decide) hb
  obtain ⟨front, common', bench', notes', rfl, hread', hlimit, hbench, hbench'⟩ :=
    readBlock_alongside h.limit hbehind hbehind' hread hleft
  rw [h.reports] at hread'
  obtain ⟨after', hpass', hpassed'⟩ := passBlock_of_readBlock h.unfinished hmarker' hread'
    hpassed.exhausted hpassed.crc
  obtain ⟨decoder', hdecoder', rfl⟩ := hpassed'.after
  refine ⟨_, hpass', ⟨place + 48 + front.length, common', ?_, hbench, hbench'⟩, ?_, h.unfinished,
    ?_, ?_, ?_⟩
  · rw [List.length_append, length_bitsOf, List.length_append] at hedge
    omega
  · exact hdecoder.trans (hlimit.trans hdecoder'.symm)
  · simp only [h.computed]
  · simp only [h.reports]
  · simp only [h.outputLength]

/-- **All blocks before the edge are passed by both.** -/
theorem Alongside.through (h : Alongside edge later later' stream other) {blocks : List DecodedBlock}
    (hthrough : Through blocks stream after) (hleft : later.length ≤ after.bitsLeft) :
    ∃ after', Through blocks other after' ∧ Alongside edge later later' after after' := by
  induction hthrough generalizing other with
  | here => exact ⟨other, .here other, h⟩
  | on hpass hrest ih =>
    obtain ⟨middle', hpass', hmiddle⟩ := h.pass hpass (Nat.le_trans hleft hrest.bitsLeft_le)
    obtain ⟨after', hrest', hafter⟩ := ih hmiddle hleft
    exact ⟨after', .on hpass' hrest', hafter⟩

end

/-! ## From the start of the input -/

/-- The header is read in the same way from all bytes that start with its bits. -/
theorem readHeader_ahead {data : ByteArray} {digit : Nat} {reader : BitReader} {notes : List Note}
    (hread : readHeader (.ofSource (.ofBytes data)) = .ok digit reader notes) :
    ∃ front later, bytesBits data.data.toList = front ++ later ∧ reader.Stands front.length later
      ∧ ∀ (other : ByteArray) (later' : List Bool), bytesBits other.data.toList = front ++ later' →
        ∃ reader' notes', readHeader (.ofSource (.ofBytes other)) = .ok digit reader' notes'
          ∧ reader'.Stands front.length later' := by
  have hall : ∀ other : ByteArray, View.alone.Stands () 0 (bytesBits other.data.toList)
      (.ofSource (.ofBytes other)) := fun other => ⟨rfl, BitReader.stands_ofSource other⟩
  obtain ⟨⟨front, result, taken, t⟩, later, hbits, hdecides⟩ := local_readHeader () 0 _ _ (hall data)
  have hstands := hall data
  rw [hbits] at hstands
  have hagrees := hdecides.agrees _ later (.inl rfl) hstands
  have hstate := hagrees.state.reader
  have hresult : result = .ok digit := hagrees.result.symm.trans (by rw [hread]; rfl)
  subst hresult
  rw [hread, Nat.zero_add] at hstate
  refine ⟨front, later, hbits, hstate, fun other later' hother => ?_⟩
  have hstands' := hall other
  rw [hother] at hstands'
  have hagrees' := hdecides.agrees _ later' (.inr fun _ => nofun) hstands'
  have hstate' := hagrees'.state.reader
  rw [Nat.zero_add] at hstate'
  cases hread' : readHeader (.ofSource (.ofBytes other)) with
  | error reason reader' notes' =>
    have hfailed := hagrees'.result
    rw [hread'] at hfailed
    cases hfailed
  | ok digit' reader' notes' =>
    have hsame := hagrees'.result
    rw [hread'] at hsame
    rw [hread'] at hstate'
    cases hsame
    exact ⟨reader', notes', rfl, hstate'⟩

theorem Through.moves {blocks : List DecodedBlock} {stream after : StreamDecoder}
    (h : Through blocks stream after) {place : Nat} {bits : List Bool}
    (hreader : stream.bench.2.Stands place bits) :
    ∃ front rest, bits = front ++ rest ∧ after.bench.2.Stands (place + front.length) rest := by
  induction h generalizing place bits with
  | here => exact ⟨[], bits, rfl, hreader⟩
  | @on stream middle after block blocks hpass _ ih =>
    obtain ⟨begun, report, notes, more, hnext, hfinish⟩ := passBlock_eq_some.mp hpass
    obtain ⟨first, later, rfl, hbegun⟩ := local_next.moves stream hreader
    rw [hnext] at hbegun
    obtain ⟨second, last, rfl, hmiddle⟩ := (local_finish block.drained.2).moves begun hbegun
    rw [hfinish] at hmiddle
    obtain ⟨front, rest, rfl, hafter⟩ := ih hmiddle
    refine ⟨first ++ (second ++ front), rest, by simp only [List.append_assoc], ?_⟩
    rw [List.length_append, List.length_append, ← Nat.add_assoc, ← Nat.add_assoc]
    exact hafter

/-! ## Where the streams part -/

/-- Behind the same marker each stream has a word of its own, and then both have the same bits. -/
structure Parted (magic : UInt64) (word value : UInt32) (stream other : StreamDecoder) : Prop where
  alongside : ∃ edge later later', Alongside edge later later' stream other
  markers : ∃ place later behind behind', marker stream.bench.2 = .ok magic behind
    ∧ marker other.bench.2 = .ok magic behind'
    ∧ behind.Stands place (bitsOf 32 word.toNat ++ later)
    ∧ behind'.Stands place (bitsOf 32 value.toNat ++ later)

/-- Streams alongside each other down to a marker part at the words behind it. -/
theorem Alongside.parted {magic : UInt64} {word value : UInt32} {stream other : StreamDecoder}
    {place : Nat} {last : List Bool}
    (h : Alongside (place + 48) (bitsOf 32 word.toNat ++ last) (bitsOf 32 value.toNat ++ last)
      stream other)
    (hmagic : magic.toNat < 2 ^ 48)
    (hreader : stream.bench.2.Stands place
      (bitsOf 48 magic.toNat ++ (bitsOf 32 word.toNat ++ last))) :
    Parted magic word value stream other := by
  obtain ⟨place', common, hedge, ha, hb⟩ := h.readers
  obtain rfl : common = bitsOf 48 magic.toNat :=
    List.append_cancel_right (ha.upcoming.symm.trans hreader.upcoming)
  obtain ⟨behind, hmarker, hbehind⟩ := marker_of_stands hmagic ha
  obtain ⟨behind', hmarker', hbehind'⟩ := marker_of_stands hmagic hb
  exact ⟨⟨_, _, _, h⟩, _, last, behind, behind', hmarker, hmarker', hbehind, hbehind'⟩

/-- Putting another word behind a marker parts the streams there. -/
theorem parted_of_through {data : ByteArray} {digit : Nat} {reader behind after : BitReader}
    {notes : List Note} (hread : readHeader (.ofSource (.ofBytes data)) = .ok digit reader notes)
    {blocks : List DecodedBlock} {middle : StreamDecoder}
    (hthrough : Through blocks (opened true digit reader) middle) {magic : UInt64}
    (hmagic : magic.toNat < 2 ^ 48) (hmarker : marker middle.bench.2 = .ok magic behind)
    {word : UInt32} (hword : BitReader.word behind = .ok word after) :
    ∃ place, place = middle.position + 48 ∧ WordAt data place word
      ∧ ∀ (value : UInt32) (strict : Bool), ∃ reader' notes' middle',
        readHeader (.ofSource (.ofBytes (replaceWord data place value))) = .ok digit reader' notes'
          ∧ Through blocks (opened strict digit reader') middle'
          ∧ Parted magic word value middle middle' := by
  -- all bits before the word: the header, the blocks and the marker
  obtain ⟨front, later, hbits, hreader, hothers⟩ := readHeader_ahead hread
  obtain ⟨moved, rest, rfl, hmiddle⟩ := hthrough.moves (show BitReader.Stands _ later _ from hreader)
  obtain ⟨rest, rfl, hbehind⟩ := marker_ahead hmiddle hmarker
  obtain ⟨last, rfl, _⟩ := BitReader.word_ahead hbehind hword
  obtain ⟨before, hbefore⟩ : ∃ before, before = front ++ (moved ++ bitsOf 48 magic.toNat) := ⟨_, rfl⟩
  have hsplit : ∀ w : UInt32, front ++ (moved ++ (bitsOf 48 magic.toNat ++ (bitsOf 32 w.toNat ++ last)))
      = before ++ (bitsOf 32 w.toNat ++ last) := by
    intro w
    rw [hbefore]
    simp only [List.append_assoc]
  have hlength : before.length = front.length + moved.length + 48 := by
    rw [hbefore, List.length_append, List.length_append, length_bitsOf, Nat.add_assoc]
  have hplace : before.length = middle.position + 48 := by
    have hposition : middle.position = front.length + moved.length := hmiddle.position
    rw [hlength, hposition]
  rw [hsplit] at hbits
  refine ⟨_, hplace, wordAt_of_bits hbits, fun value strict => ?_⟩
  have hreplaced := bytesBits_replaceWord hbits value
  rw [← hsplit] at hreplaced
  obtain ⟨reader', notes', hread', hreader'⟩ := hothers _ _ hreplaced
  have halong : Alongside before.length (bitsOf 32 word.toNat ++ last) (bitsOf 32 value.toNat ++ last)
      (opened true digit reader) (opened strict digit reader') := by
    refine ⟨⟨front.length, moved ++ bitsOf 48 magic.toNat, ?_, ?_, ?_⟩, rfl, rfl, rfl, rfl, rfl⟩
    · rw [hbefore]
      exact List.length_append.symm
    · rw [List.append_assoc]
      exact hreader
    · rw [List.append_assoc]
      exact hreader'
  have hleft : (bitsOf 32 word.toNat ++ last).length ≤ middle.bitsLeft := by
    have hbitsLeft : middle.bitsLeft = middle.bench.2.bitsLeft := rfl
    rw [hbitsLeft, BitReader.bitsLeft_eq, hmiddle.upcoming]
    exact (List.suffix_append _ _).length_le
  obtain ⟨middle', hthrough', hmiddle'⟩ := halong.through hthrough hleft
  rw [hlength] at hmiddle'
  exact ⟨reader', notes', middle', hread', hthrough', hmiddle'.parted hmagic hmiddle⟩

end Bunzip.StreamDecoder

import Bunzip.Proofs.Stream.Supply

/-!
# How much can come of an input

A caller may mix all calls on a stream decoder, hold as many blocks as it likes and go on after
failures. Every call stays within the budget that the decoder was given by its input, so the number of
bytes that all calls hand out is bounded by the size of the input alone.
-/

namespace Bunzip

open Format StreamDecoder

/-! ## What calls hand out -/

/-- The number of bytes that a call has handed out, to the caller or into a sink. -/
def Call.handedOut : Call → Answer → Nat
  | read _, .bytes (.ok bytes) => bytes.size
  | readHeld _, .bytes (.ok bytes) => bytes.size
  | decodeTo sink, .delivered _ last => last.taken.size - sink.taken.size
  | drainHeld sink, .drained _ last => last.taken.size - sink.taken.size
  | _, _ => 0

theorem Call.Gives.handedOut {call : Call} {answer : Answer} {out : ByteArray}
    (h : call.Gives answer out) : call.handedOut answer = out.size := by
  have hgain : ∀ {sink last : Sink}, last.taken = sink.taken ++ out →
      last.taken.size - sink.taken.size = out.size := by
    intro sink last htaken
    rw [htaken, ByteArray.size_append, Nat.add_sub_cancel_left]
  unfold Gives at h
  split at h
  case h_1 => exact congrArg ByteArray.size h.symm
  case h_2 => exact congrArg ByteArray.size h.symm
  case h_3 => exact hgain h
  case h_4 => exact hgain h
  case h_5 hread hheld hdelivered hdrained =>
    -- what is not given to the caller or a sink is not counted either
    rw [h, Call.handedOut.eq_5 call answer hread hheld hdelivered hdrained]
    rfl

namespace Session

/--
Where a caller gets with calls in a row: a decoder, the blocks that the caller has got, and how many
bytes have been handed out on the way. For each call the caller takes one of its blocks in hand, or
none; the others lie aside.
-/
inductive Obtained (fresh : StreamDecoder) : StreamDecoder → List DecodedBlock → Nat → Prop where
  | nothing : Obtained fresh fresh [] 0
  | called {stream : StreamDecoder} {before behind : List DecodedBlock}
      {inHand : Option DecodedBlock} {total : Nat} (call : Call) :
      Obtained fresh stream (before ++ (inHand.toList ++ behind)) total →
      Obtained fresh (perform call ⟨stream, inHand⟩).2.stream
        (before ++ ((perform call ⟨stream, inHand⟩).2.held.toList ++ behind))
        (total + call.handedOut (perform call ⟨stream, inHand⟩).1)

end Session

/-! ## Calls stay within the budget -/

namespace Session

variable {limit budget total : Nat} {others : List DecodedBlock} {stream : StreamDecoder}

/-- With all that the decoder and the caller have got, the supply is within the budget. -/
def Affords (limit budget total : Nat) (others : List DecodedBlock) (session : Session) : Prop :=
  Supplied limit budget total session.stream
    (session.stream.current.toList ++ (session.held.toList ++ others))

/-- What a call enters in the record keeps within the budget. -/
theorem Affords.entered {session : Session} (h : Affords limit budget total others session)
    {record last : Record} (hfits : record.Fits session) {call : Call}
    (hentered : Entered call session record last) :
    Affords limit budget (total + call.handedOut (perform call session).1) others
      (perform call session).2 := by
  obtain ⟨hlast, out, hgives, hmoved⟩ := hentered
  rw [hgives.handedOut, Affords, ← hlast.current, ← hlast.held]
  cases hsubject : call.subject with
  | current =>
    rw [hsubject] at hmoved
    obtain ⟨hmoves, hheld⟩ := hmoved
    have hfirst : (record.onCurrent session.stream).Supplied limit budget total
        (session.held.toList ++ others) := by
      rw [Working.Supplied, Record.onCurrent, hfits.current]
      exact Supplied.putBy h fun _ hnone => absurd hnone (Option.some_ne_none _).symm
    rw [hheld, hfits.held]
    refine Supplied.putBy (hmoves.supplied hfirst) fun block hblock => List.mem_append_left _ ?_
    rw [← hlast.current] at hblock
    exact Option.mem_toList.mpr hblock
  | next =>
    rw [hsubject] at hmoved
    obtain ⟨found, hmoves, hcurrent, hheld⟩ := hmoved
    have hfirst : Working.Supplied limit budget total
        ⟨session.stream, none, record.counted, record.footer⟩
        (session.stream.current.toList ++ (session.held.toList ++ others)) := h
    rw [hcurrent, hheld, hfits.current]
    refine (hmoves.supplied hfirst).mono ?_
    -- if a block was in hand and another one has been found, the first is lost
    cases found with
    | none =>
      rw [Option.none_or, hfits.held]
      exact List.Subperm.refl _
    | some pair =>
      refine (List.perm_append_comm_assoc _ [pair.2] _).subperm.trans ?_
      exact (((List.sublist_append_right _ _).append_left _).append_left _).subperm
  | held =>
    rw [hsubject] at hmoved
    obtain ⟨hmoves, hcurrent⟩ := hmoved
    have hfirst : (record.onHeld session.stream).Supplied limit budget total
        (session.stream.current.toList ++ others) := by
      rw [Working.Supplied, Record.onHeld, hfits.held]
      exact Supplied.mono h (List.perm_append_comm_assoc _ _ _).subperm
    rw [hcurrent, hfits.current]
    exact (hmoves.supplied hfirst).mono (List.perm_append_comm_assoc _ _ _).subperm

/-- **Every call stays within the budget**, be it allowed or not. -/
theorem Affords.perform {session : Session} (h : Affords limit budget total others session)
    (call : Call) :
    Affords limit budget (total + call.handedOut (perform call session).1) others
      (perform call session).2 := by
  obtain ⟨record, hfits⟩ := exists_fits session
  obtain ⟨last, hentered⟩ := exists_entered hfits call
  exact h.entered hfits hentered

/-- **All calls in a row stay within the budget**, with all blocks that the caller has got. -/
theorem Obtained.supplied {fresh : StreamDecoder} {held : List DecodedBlock} {total : Nat}
    (h : Obtained fresh stream held total) (hfresh : fresh.current = none)
    (hbudget : Supplied limit budget 0 fresh []) :
    Supplied limit budget total stream (stream.current.toList ++ held) := by
  induction h with
  | nothing =>
    rw [hfresh]
    exact hbudget
  | @called stream before behind inHand total call _ ih =>
    -- the blocks that lie aside are the others
    have haside : ∀ blocks : List DecodedBlock,
        (before ++ (blocks ++ behind)).Perm (blocks ++ (before ++ behind)) := by
      intro blocks
      rw [← List.append_assoc, ← List.append_assoc]
      exact List.perm_append_comm.append_right behind
    have hbefore : Affords limit budget total (before ++ behind) ⟨stream, inHand⟩ :=
      ih.mono ((haside _).symm.append_left _).subperm
    exact (hbefore.perform call).mono ((haside _).append_left _).subperm

/-- A decoder that has just been opened has the bits of its input to spend. -/
theorem supplied_opening {data : ByteArray} {fresh : StreamDecoder} {notes : List Note}
    (hstart : start (.ofBytes data) = .ok fresh () notes) (strict : Bool) :
    Supplied (fresh.digit * 100000)
      (8 * data.size / leastBits * mostUnrolled (fresh.digit * 100000)) 0
      (fresh.setStrict strict) [] := by
  have hsafe := safe_start (.ofBytes data)
  rw [hstart] at hsafe
  obtain ⟨digit, reader, hread, rfl⟩ := opened_of_start hstart
  obtain ⟨front, later, hbits, hreader, _⟩ := readHeader_ahead hread
  have hfew : reader.bitsLeft ≤ 8 * data.size := by
    have hlength := congrArg List.length hbits
    rw [length_bytesBits, ← ByteString.size_eq_length, List.length_append] at hlength
    rw [BitReader.bitsLeft_eq, hreader.upcoming]
    omega
  refine ⟨⟨hsafe.bench, hsafe.current⟩, fun _ => nofun, rfl, ⟨_, _, hreader⟩, ?_⟩
  rw [Nat.zero_add, ← supply_nil]
  exact supply_mono _ hfew []

/--
Growth is bounded. Take a stream of `data.size` bytes with its digit, and a caller who reads, delivers
into sinks, asks for blocks, drains them and gives them back, in any order and whatever comes of it.
A block that is found has been read from at least 174 bits, from the start of its marker on. Its
column is not empty and fits the digit. When it is drained, it hands out no less than the column
without the most counts that can be in it, and at most 259 bytes for every five of the column. So all
calls together hand out a bounded number of bytes for every 174 bits of the input.
-/
theorem growth_bounded {data : ByteArray} {fresh : StreamDecoder} {notes : List Note}
    (hstart : start (.ofBytes data) = .ok fresh () notes) (strict : Bool) {held : List DecodedBlock}
    {total : Nat} (hobtained : Obtained (fresh.setStrict strict) stream held total) :
    total ≤ 8 * data.size / 174 * fresh.digit * 5180000
      ∧ ∀ block begun more, StreamDecoder.next stream = .ok (some block) begun more →
        stream.position + 174 ≤ begun.position
          ∧ (1 ≤ block.columnLength ∧ block.columnLength ≤ fresh.digit * 100000)
          ∧ (∀ sink : Sink, sink.Accepting → DecodedBlock.drain (block, sink)
            = .ok block.drained.1.size (block.drained.2, sink.push block.drained.1))
          ∧ block.columnLength - block.columnLength / 5 ≤ block.drained.1.size
          ∧ block.drained.1.size ≤ 259 * (block.columnLength / 5) + block.columnLength % 5 := by
  have hcurrent : (fresh.setStrict strict).current = none := by
    obtain ⟨_, _, _, rfl⟩ := opened_of_start hstart
    rfl
  have hsupplied := hobtained.supplied hcurrent (supplied_opening hstart strict)
  refine ⟨?_, fun block begun more hnext => ?_⟩
  · have htotal := Nat.le_trans (Nat.le_add_right total _) hsupplied.budget
    rw [mostUnrolled_digit, ← Nat.mul_assoc] at htotal
    exact htotal
  · obtain ⟨place, bits, hreader⟩ := hsupplied.stands
    obtain ⟨hcolumn, hunrolled⟩ := found_of_next hsupplied.sound hsupplied.limited hnext
    exact ⟨position_begun hreader hnext, hcolumn, fun sink => block.drain_accepting, hunrolled⟩

/-- The first block, of four bytes, is asked for and drained into a sink. -/
theorem growth_bounded_twoBlocks : ∃ fresh notes block begun more left,
    start (.ofBytes (encode 1 twoBlocks)) = .ok fresh () notes
      ∧ StreamDecoder.next (fresh.setStrict true) = .ok (some block) begun more
      ∧ Obtained (fresh.setStrict true) begun [left] 4
      ∧ 4 ≤ 8 * (encode 1 twoBlocks).size / 174 * fresh.digit * 5180000
      ∧ (fresh.setStrict true).position + 174 ≤ begun.position
      ∧ block.columnLength - block.columnLength / 5 ≤ 4
      ∧ 4 ≤ 259 * (block.columnLength / 5) + block.columnLength % 5 := by
  obtain ⟨reader, notes, zeros, hread, hopened⟩ := opened_encode (Nat.le_refl 1) (by decide) twoBlocks
  obtain ⟨walk, hblock, _, hdata⟩ := BlockDecoder.reads_readBlock (by decide)
    (twoBlocks.head (List.cons_ne_nil _ _)) 1
  have hstart := start_of_readHeader hread
  rw [twoBlocks, writeBlocks, ← List.append_assoc, List.append_assoc] at hopened
  obtain ⟨begun, more, hnext, _⟩ := reads_block hblock rfl _ _ hopened
  have hsize : ((twoBlocks.head (List.cons_ne_nil _ _)).decoded 1 walk).drained.1.size = 4 := by
    rw [ByteString.size_eq_length, hdata]
    rfl
  generalize (twoBlocks.head (List.cons_ne_nil _ _)).decoded 1 walk = block at hnext hsize
  have hasked : Obtained (opened true 1 reader) begun [block] 0 := by
    have hcalled := @Obtained.called (opened true 1 reader) _ [] [] none 0 .next .nothing
    simp only [perform, hnext] at hcalled
    exact hcalled
  have hdrained : Obtained (opened true 1 reader) begun [block.drained.2] 4 := by
    have hcalled := @Obtained.called _ _ [] [] (some block) 0 (.drainHeld .unbounded) hasked
    simp only [perform, DecodedBlock.drain_accepting block Sink.accepting_unbounded] at hcalled
    have hgain : (Sink.unbounded.push block.drained.1).taken.size = 4 := by
      rw [Sink.push, ByteArray.size_append, hsize]
      rfl
    simp only [Call.handedOut, hgain] at hcalled
    exact hcalled
  obtain ⟨htotal, _⟩ := growth_bounded hstart true hdrained
  obtain ⟨_, hfound⟩ := growth_bounded hstart true .nothing
  obtain ⟨hposition, _, _, hleast, hmost⟩ := hfound block begun more hnext
  rw [hsize] at hleast hmost
  exact ⟨_, notes, block, begun, more, block.drained.2, hstart, hnext, hdrained, htotal, hposition,
    hleast, hmost⟩

end Session

end Bunzip

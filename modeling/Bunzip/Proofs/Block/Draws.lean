import Bunzip.Proofs.Block.Begun
import Bunzip.Proofs.Block.Remainder

/-!
# Drawing on a block

Whoever holds a block draws bytes from it: into buffers of any size, also of none, or all the rest into
a sink. However these draws are mixed, the bytes handed out so far are the first bytes of what the block
unrolls to, and the books of the block are about exactly these bytes. Every draw is a request for some
number of bytes, so it is enough to see what a request does to the books.
-/

namespace Bunzip

/-- What a block unrolls to that has handed out nothing: its walk, with the runs written out. -/
def DecodedBlock.expansion (block : DecodedBlock) : List UInt8 :=
  RunLength.start.unroll block.rest.walk.bytes

/-- A way to draw on a block. -/
inductive Draw where
  /-- Into a buffer with so much room. -/
  | read (room : Nat)
  /-- All the rest into a sink. -/
  | write (sink : Sink)

namespace Draw

/-- The sink, if there is one, never refuses a byte. -/
def Accepted : Draw → Prop
  | read _ => True
  | write sink => sink.room = none

/-- The bytes that are handed out by one draw, and the block behind it. -/
def perform : Draw → DecodedBlock → ByteArray × DecodedBlock
  | read room, block => block.read room
  | write sink, block =>
    -- what has come to the sink since
    match DecodedBlock.drain (block, sink) with
    | .ok _ (after, last) => (last.taken.extract sink.taken.size last.taken.size, after)
    | .error _ (after, last) => (last.taken.extract sink.taken.size last.taken.size, after)

/-- The bytes that are handed out by draws in a row. -/
def handedOut : List Draw → DecodedBlock → ByteArray
  | [], _ => ByteArray.empty
  | draw :: draws, block => (draw.perform block).1 ++ handedOut draws (draw.perform block).2

/-- The block that draws in a row leave behind. -/
def after : List Draw → DecodedBlock → DecodedBlock
  | [], block => block
  | draw :: draws, block => after draws (draw.perform block).2

end Draw

namespace Draw

theorem perform_write (block : DecodedBlock) {sink : Sink} (h : sink.room = none) :
    (write sink).perform block = block.drained := by
  have hbytes : (sink.push block.drained.1).taken.extract sink.taken.size
      (sink.push block.drained.1).taken.size = block.drained.1 :=
    ByteArray.extract_append_eq_right rfl ByteArray.size_append
  rw [perform, DecodedBlock.drain_taken (Sink.write_of_room_none h _)]
  simp only [hbytes]

/-- A draw is a request for some number of bytes. -/
theorem perform_eq_read {draw : Draw} (h : draw.Accepted) (block : DecodedBlock) :
    ∃ room, draw.perform block = block.read room := by
  cases draw with
  | read room => exact ⟨room, rfl⟩
  | write sink => exact ⟨block.rest.bound + 1, perform_write block h⟩

theorem accepted_reads (rooms : List Nat) : ∀ draw ∈ rooms.map Draw.read, draw.Accepted := by
  intro draw hdraw
  obtain ⟨room, _, rfl⟩ := List.mem_map.mp hdraw
  trivial

/--
What a single request keeps true of the bytes handed out so far and of the block behind them is true
after any draws in a row.
-/
theorem kept {motive : ByteArray → DecodedBlock → Prop} {block : DecodedBlock}
    (hstart : motive ByteArray.empty block)
    (hread : ∀ bytes now room, motive bytes now →
      motive (bytes ++ (DecodedBlock.read room now).1) (DecodedBlock.read room now).2)
    (draws : List Draw) (haccepted : ∀ draw ∈ draws, draw.Accepted) :
    motive (handedOut draws block) (after draws block) := by
  rw [← ByteArray.empty_append (b := handedOut draws block)]
  -- on the draws; what has been handed out before stands in front
  generalize ByteArray.empty = bytes at hstart ⊢
  induction draws generalizing bytes block with
  | nil =>
    rw [handedOut, after, ByteArray.append_empty]
    exact hstart
  | cons draw draws ih =>
    obtain ⟨hdraw, hdraws⟩ := List.forall_mem_cons.mp haccepted
    obtain ⟨room, hroom⟩ := perform_eq_read hdraw block
    rw [handedOut, after, hroom, ← ByteArray.append_assoc]
    exact ih hdraws _ (hread bytes block room hstart)

end Draw

/-- The block that is left of another one which has handed out these bytes. -/
structure HandedOut (block : DecodedBlock) (bytes : ByteArray) (now : DecodedBlock) : Prop where
  left : bytes.data.toList ++ now.left = block.left
  crc : now.crc = block.crc.updateBytes bytes
  emitted : now.emitted = block.emitted + bytes.size
  stored : now.stored = block.stored
  index : now.index = block.index

namespace HandedOut

variable {block now later : DecodedBlock} {bytes more : ByteArray}

/-- A request hands out bytes. -/
theorem read (block : DecodedBlock) (room : Nat) :
    HandedOut block (block.read room).1 (block.read room).2 :=
  ⟨block.read_left room, rfl, rfl, rfl, rfl⟩

theorem nothing (block : DecodedBlock) : HandedOut block ByteArray.empty block :=
  ⟨rfl, block.crc.updateBytes_empty.symm, rfl, rfl, rfl⟩

theorem trans (h : HandedOut block bytes now) (hmore : HandedOut now more later) :
    HandedOut block (bytes ++ more) later where
  left := by rw [ByteString.toList_append, List.append_assoc, hmore.left, h.left]
  crc := by rw [hmore.crc, h.crc, Crc.updateBytes_append]
  emitted := by rw [hmore.emitted, h.emitted, ByteArray.size_append, Nat.add_assoc]
  stored := hmore.stored.trans h.stored
  index := hmore.index.trans h.index

end HandedOut

/-- After any draws a block has handed out what was drawn. -/
theorem Draw.handedOut_after (draws : List Draw) (haccepted : ∀ draw ∈ draws, draw.Accepted)
    (block : DecodedBlock) : HandedOut block (handedOut draws block) (after draws block) := by
  refine kept (.nothing block) ?_ draws haccepted
  intro bytes now room h
  exact h.trans (.read now room)

/-! ## A block that has been read -/

/--
What is true of a block when it has handed out these bytes, having been read with nothing handed out.
-/
structure Accounted (block : DecodedBlock) (bytes : ByteArray) (now : DecodedBlock) : Prop where
  front : bytes.data.toList <+: block.expansion
  outputLength : now.report.outputLength = bytes.size
  crc : now.report.crc = Crc.ofBytes bytes
  /-- A buffer is filled unless the block ends within it. -/
  read : ∀ room, (now.read room).1.size = room ∨ (now.read room).1.size < room
    ∧ (bytes ++ (now.read room).1).data.toList = block.expansion
  /-- A buffer with room gets nothing only when everything has been handed out. -/
  ended : ∀ room, 0 < room → (now.read room).1.size = 0 → bytes.data.toList = block.expansion
  /-- A sink gets all that is missing, and it is told how much that was. -/
  write : ∀ sink : Sink, sink.room = none → ∃ more last,
    DecodedBlock.drain (now, sink) = .ok more.size (last, sink.push more)
      ∧ (Draw.write sink).perform now = (more, last)
      ∧ (bytes ++ more).data.toList = block.expansion
  /-- Verifying changes nothing, and compares the checksum of the bytes so far with the stored one. -/
  verify : ∀ {σ : Type} (state : σ), (now.verify state).state = state ∧ (now.verify state).result
    = if Crc.ofBytes bytes = block.stored then .ok (Crc.ofBytes bytes)
      else .error (.blockChecksum block.index block.stored (Crc.ofBytes bytes))

theorem BlockDecoder.left_of_readBlock {index : Nat} {bench bench' : Bench} {block : DecodedBlock}
    {notes : List Note} (h : readBlock index bench = .ok block bench' notes) :
    block.left = block.expansion := by
  obtain ⟨_, _, _, _, _, _⟩ := madeOf_readBlock h
  exact DecodedBlock.left_of_start rfl

theorem HandedOut.accounted {block now : DecodedBlock} {bytes : ByteArray}
    (h : HandedOut block bytes now) (hstart : block.left = block.expansion)
    (hcrc : block.crc = .start) (hemitted : block.emitted = 0) : Accounted block bytes now := by
  have hleft : bytes.data.toList ++ now.left = block.expansion := h.left.trans hstart
  have hvalue : now.crc.value = Crc.ofBytes bytes := by
    rw [h.crc, hcrc]
    rfl
  have hread : ∀ room, (now.read room).1.size = room ∨ (now.read room).1.size < room
      ∧ (bytes ++ (now.read room).1).data.toList = block.expansion := by
    intro room
    rcases now.read_short room with hfull | ⟨hshort, hend⟩
    · exact .inl hfull
    · have hnone : (now.read room).2.left = [] := hend.left
      have hmore := now.read_left room
      rw [hnone, List.append_nil] at hmore
      refine .inr ⟨hshort, ?_⟩
      rw [ByteString.toList_append, hmore, hleft]
  refine ⟨⟨now.left, hleft⟩, ?_, hvalue, hread, fun room hroom hzero => ?_, fun sink hsink => ?_,
    fun {σ} state => ?_⟩
  · rw [DecodedBlock.report, h.emitted, hemitted, Nat.zero_add]
  · rcases hread room with hfull | ⟨_, hall⟩
    · omega
    · rwa [ByteArray.size_eq_zero_iff.mp hzero, ByteArray.append_empty] at hall
  · refine ⟨now.drained.1, now.drained.2,
      DecodedBlock.drain_taken (Sink.write_of_room_none hsink _), Draw.perform_write now hsink, ?_⟩
    rw [ByteString.toList_append, now.toList_drained, hleft]
  · rw [DecodedBlock.verify_eq, hvalue, h.stored, h.index]
    by_cases hagrees : Crc.ofBytes bytes = block.stored
    · rw [if_pos hagrees, if_pos hagrees, hagrees]
      exact ⟨rfl, rfl⟩
    · rw [if_neg hagrees, if_neg hagrees]
      exact ⟨rfl, rfl⟩

/--
**How a block is cut does not matter.** Whatever draws have been made on a block that has been read,
the bytes handed out so far are the first ones of its expansion, the books are about these bytes, and
any further draw goes on right behind them.
-/
theorem BlockDecoder.accounted_of_readBlock {index : Nat} {bench bench' : Bench}
    {block : DecodedBlock} {notes : List Note} (h : readBlock index bench = .ok block bench' notes)
    (draws : List Draw) (haccepted : ∀ draw ∈ draws, draw.Accepted) :
    Accounted block (Draw.handedOut draws block) (Draw.after draws block) := by
  have hbegun := (begun_of_readBlock h).1
  exact (Draw.handedOut_after draws haccepted block).accounted (left_of_readBlock h) hbegun.crc
    hbegun.emitted

/-- A block of four equal bytes, which ends with the count of those that follow them: none. -/
def fourEqual : BitReader :=
  .ofSource (.ofBytes ⟨#[0x88, 0x12, 0x33, 0xA6, 0x00, 0x00, 0x02, 0x41, 0x00, 0x40, 0x00, 0x20, 0x00,
    0x20, 0x00, 0x21, 0x00, 0x82, 0x0B]⟩)

/-- What is read there. -/
def fourEqualBlock : DecodedBlock where
  rest := .start ⟨⟨#[0x400, 0x061, 0x161, 0x261, 0x361]⟩, 0x361, 5⟩
  crc := .start
  stored := 0x881233A6
  index := 1
  columnLength := 5
  emitted := 0

theorem BlockDecoder.readBlock_fourEqual :
    ∃ bench notes, readBlock 1 (.ofDigit 1, fourEqual) = .ok fourEqualBlock bench notes := by
  have hresult : (readBlock 1 (.ofDigit 1, fourEqual)).result = .ok fourEqualBlock := by
    decide +kernel
  exact ⟨_, _, Outcome.eq_ok_of_result hresult⟩

theorem fourEqualBlock_expansion : fourEqualBlock.expansion = [0x61, 0x61, 0x61, 0x61] := by
  decide +kernel

/-- Three bytes go into a buffer, none into another one, and the rest into a sink. -/
theorem BlockDecoder.accounted_fourEqual :
    Accounted fourEqualBlock (Draw.handedOut [.read 3, .read 0] fourEqualBlock)
        (Draw.after [.read 3, .read 0] fourEqualBlock)
      ∧ ∃ more last,
        DecodedBlock.drain (Draw.after [.read 3, .read 0] fourEqualBlock, .unbounded)
            = .ok more.size (last, Sink.unbounded.push more)
          ∧ (Draw.handedOut [.read 3, .read 0] fourEqualBlock ++ more).data.toList
            = [0x61, 0x61, 0x61, 0x61] := by
  obtain ⟨bench, notes, hread⟩ := readBlock_fourEqual
  have haccounted := accounted_of_readBlock hread [.read 3, .read 0] (Draw.accepted_reads [3, 0])
  obtain ⟨more, last, hdrain, _, hall⟩ := haccounted.write .unbounded rfl
  exact ⟨haccounted, more, last, hdrain, hall.trans fourEqualBlock_expansion⟩

end Bunzip

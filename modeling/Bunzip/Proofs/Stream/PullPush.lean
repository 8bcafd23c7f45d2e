import Bunzip.Proofs.Stream.Steps
import Bunzip.Proofs.Stream.Yields

/-!
# Pulling and pushing agree

The bytes of a stream are the same, and it ends the same, whether they are pushed into a sink or
pulled piece by piece. Neither way is described in terms of the other: both hand out what the stream
`Yields`.
-/

namespace Bunzip.StreamDecoder

variable {stream : StreamDecoder} {bytes : List UInt8} {result : Except DecodeError StreamSummary}

/-- What a stream still yields, the block that is being read piece by piece included. -/
def Remains (stream : StreamDecoder) (bytes : List UInt8)
    (result : Except DecodeError StreamSummary) : Prop :=
  Yields stream.current { stream with current := none } bytes result

theorem exists_remains (stream : StreamDecoder) : ∃ bytes result, stream.Remains bytes result :=
  exists_yields _ _

theorem current_none (h : stream.current = none) : { stream with current := none } = stream := by
  rw [← h]

theorem remains_of_current_none (h : stream.current = none) (hy : Yields none stream bytes result) :
    stream.Remains bytes result := by
  rw [Remains, current_none h, h]
  exact hy

/-! ## Pushing -/

/-- The outcome of a delivery that adds the bytes to the sink and comes to the given end. -/
def Delivers (outcome : Outcome (StreamDecoder × Sink) Unit) (sink : Sink) :
    Except DecodeError StreamSummary → Prop
  | .ok summary => ∃ after notes,
    outcome = .ok () (after, sink) notes ∧ after.summary? = some summary
  | .error reason => ∃ after notes, outcome = .error reason (after, sink) notes

theorem Delivers.after {outcome : Outcome (StreamDecoder × Sink) Unit} {sink : Sink}
    (h : Delivers outcome sink result) (earlier : List Note) :
    Delivers (outcome.after earlier) sink result := by
  cases result with
  | ok summary =>
    obtain ⟨after, notes, rfl, hsummary⟩ := h
    exact ⟨after, earlier ++ notes, rfl, hsummary⟩
  | error reason =>
    obtain ⟨after, notes, rfl⟩ := h
    exact ⟨after, earlier ++ notes, rfl⟩

/-- A block that is given to a sink which has room for it comes back drained. -/
theorem deliver_taken {block : DecodedBlock} {sink last : Sink}
    (h : sink.write block.drained.1 = (.ok (), last)) (stream : StreamDecoder) :
    deliver block (stream, sink)
      = (finish block.drained.2 stream).withState fun stream => (stream, last) := by
  rw [deliver, DecodedBlock.drain_taken h]

/-- A block that is given to a sink which refuses some of it does not come back. -/
theorem deliver_cut {block : DecodedBlock} {sink last : Sink} {error : IoError}
    (h : sink.write block.drained.1 = (.error error, last)) (stream : StreamDecoder) :
    deliver block (stream, sink) = .error (.io error) (stream, last) [] := by
  obtain ⟨after, hdrain⟩ := DecodedBlock.drain_cut h
  rw [deliver, hdrain]

/-- The bytes as a sink takes them. -/
def packed (bytes : List UInt8) : ByteArray := ⟨bytes.toArray⟩

theorem packed_append (front : ByteArray) (rest : List UInt8) :
    packed (front.data.toList ++ rest) = front ++ packed rest := by
  apply ByteString.eq_of_toList
  simp [packed]

/-- A sink that would take all that the stream yields at once is given exactly that. -/
theorem Yields.delivers {current : Option DecodedBlock} (h : Yields current stream bytes result)
    {sink last : Sink} (hwrite : sink.write (packed bytes) = (.ok (), last)) :
    Delivers (deliverFrom current (stream, sink)) last result := by
  induction h generalizing sink with
  | failed hnext =>
    obtain ⟨_, rfl⟩ := Prod.mk.inj (hwrite.symm.trans sink.write_empty)
    exact ⟨_, _, deliverBlocks_error hnext _⟩
  | ended hnext hsummary =>
    obtain ⟨_, rfl⟩ := Prod.mk.inj (hwrite.symm.trans sink.write_empty)
    exact ⟨_, _, deliverBlocks_ended hnext _, hsummary⟩
  | begun hnext _ ih =>
    rw [deliverFrom, deliverBlocks_begun hnext]
    exact (ih hwrite).after _
  | @refused stream after block reason notes hfinish =>
    rw [deliverFrom, Op.bind_eq, deliver_taken hwrite, hfinish]
    exact ⟨_, _, rfl⟩
  | @finished stream after block report notes bytes result hfinish _ ih =>
    rw [packed_append] at hwrite
    rcases hfirst : sink.write block.drained.1 with ⟨error | ⟨⟩, middle⟩
    · rw [Sink.write_append_of_error hfirst] at hwrite
      cases hwrite
    · rw [Sink.write_append_of_ok hfirst] at hwrite
      rw [deliverFrom, Op.bind_eq, deliver_taken hfirst, hfinish]
      exact (ih hwrite).after _

/--
A sink that would refuse some of what the stream yields refuses the same, however the blocks are cut.
Nothing else comes to light: not even a bad checksum of the block that is cut, which is found later.
-/
theorem Yields.stops {current : Option DecodedBlock} (h : Yields current stream bytes result)
    {sink last : Sink} {error : IoError}
    (hwrite : sink.write (packed bytes) = (.error error, last)) :
    ∃ after notes, deliverFrom current (stream, sink) = .error (.io error) (after, last) notes := by
  induction h generalizing sink with
  | failed => exact nomatch hwrite.symm.trans sink.write_empty
  | ended => exact nomatch hwrite.symm.trans sink.write_empty
  | begun hnext _ ih =>
    obtain ⟨after, notes, hrun⟩ := ih hwrite
    rw [deliverFrom, deliverBlocks_begun hnext, hrun]
    exact ⟨_, _, rfl⟩
  | refused =>
    rw [deliverFrom, Op.bind_eq, deliver_cut hwrite]
    exact ⟨_, _, rfl⟩
  | @finished stream after block report notes bytes result hfinish _ ih =>
    rw [packed_append] at hwrite
    rcases hfirst : sink.write block.drained.1 with ⟨error' | ⟨⟩, middle⟩
    · rw [Sink.write_append_of_error hfirst] at hwrite
      cases hwrite
      rw [deliverFrom, Op.bind_eq, deliver_cut hfirst]
      exact ⟨_, _, rfl⟩
    · rw [Sink.write_append_of_ok hfirst] at hwrite
      obtain ⟨after, notes, hrun⟩ := ih hwrite
      rw [deliverFrom, Op.bind_eq, deliver_taken hfirst, hfinish]
      simp only [Outcome.withState]
      rw [← deliverFrom, hrun]
      exact ⟨_, _, rfl⟩

/-- The result of a delivery in the end: a sink that cannot be flushed spoils a success. -/
def flushed (sink : Sink) (result : Except DecodeError StreamSummary) :
    Except DecodeError StreamSummary := do
  let summary ← result
  match sink.flush with
  | .ok () => .ok summary
  | .error error => .error (.io error)

/-- Whatever of the stream has been read before, a sink is given what remains of it, if it fits. -/
theorem Remains.decodeTo_taken (h : stream.Remains bytes result) {sink last : Sink}
    (hwrite : sink.write (packed bytes) = (.ok (), last)) :
    (StreamDecoder.decodeTo (stream, sink)).state.2 = last
      ∧ (StreamDecoder.decodeTo (stream, sink)).result = flushed last result := by
  have hdelivers := Yields.delivers h hwrite
  rw [decodeTo_apply, Op.bind_eq]
  cases result with
  | error reason =>
    obtain ⟨after, notes, hrun⟩ := hdelivers
    rw [hrun]
    exact ⟨rfl, rfl⟩
  | ok summary =>
    obtain ⟨after, notes, hrun, hsummary⟩ := hdelivers
    rw [hrun]
    simp only [Outcome.result_after, Outcome.state_after]
    unfold flushed
    rcases hflush : last.flush with error | ⟨⟩
    · rw [conclude_refused hflush]
      exact ⟨rfl, rfl⟩
    · rw [conclude_flushed hsummary hflush]
      exact ⟨rfl, rfl⟩

theorem Remains.decodeTo_cut (h : stream.Remains bytes result) {sink last : Sink} {error : IoError}
    (hwrite : sink.write (packed bytes) = (.error error, last)) :
    (StreamDecoder.decodeTo (stream, sink)).state.2 = last
      ∧ (StreamDecoder.decodeTo (stream, sink)).result = .error (.io error) := by
  obtain ⟨after, notes, hrun⟩ := Yields.stops h hwrite
  rw [decodeTo_apply, Op.bind_eq, hrun]
  exact ⟨rfl, rfl⟩

/-- Whatever of the stream has been read before, a sink is given what remains of it. -/
theorem Remains.decodeTo (h : stream.Remains bytes result) {sink : Sink} (hsink : sink.Accepting) :
    (decodeTo (stream, sink)).result = result
      ∧ (decodeTo (stream, sink)).state.2 = sink.push (packed bytes) := by
  obtain ⟨hstate, hresult⟩ := h.decodeTo_taken (hsink.write _)
  refine ⟨hresult.trans ?_, hstate⟩
  unfold flushed
  rw [(hsink.push _).flush]
  cases result <;> rfl

/-! ## Pulling -/

/-- The part of a block that is handed out is the front of what the stream yields. -/
theorem Yields.read {block : DecodedBlock} (h : Yields (some block) stream bytes result)
    (room : Nat) :
    ∃ rest, bytes = (block.read room).1.data.toList ++ rest
      ∧ Yields (some (block.read room).2) stream rest result := by
  have hdrained := block.drained_read room
  have hbytes : block.drained.1.data.toList
      = (block.read room).1.data.toList ++ (block.read room).2.drained.1.data.toList := by
    rw [hdrained, ByteString.toList_append]
  cases h with
  | refused hfinish =>
    rw [hdrained] at hfinish
    exact ⟨_, hbytes, .refused hfinish⟩
  | finished hfinish hrest =>
    rw [hdrained] at hfinish
    exact ⟨_, by rw [hbytes, List.append_assoc], .finished hfinish hrest⟩

/--
The outcome of a request for up to `room` bytes agrees with what the stream yields: it hands out a
front of the bytes and the others remain, or there are none and the end is reported.
-/
inductive Answers (room : Nat) : Outcome StreamDecoder ByteArray → List UInt8 →
    Except DecodeError StreamSummary → Prop where
  | served {front : ByteArray} {after : StreamDecoder} {notes : List Note} {rest : List UInt8}
      {result : Except DecodeError StreamSummary} :
      0 < front.size → front.size ≤ room → after.Remains rest result →
      Answers room (.ok front after notes) (front.data.toList ++ rest) result
  | ended {after : StreamDecoder} {notes : List Note} {summary : StreamSummary} :
      after.isFinished → after.current = none → after.summary? = some summary →
      Answers room (.ok ByteArray.empty after notes) [] (.ok summary)
  | failed {after : StreamDecoder} {notes : List Note} {reason : DecodeError} :
      Answers room (.error reason after notes) [] (.error reason)

theorem Answers.after {room : Nat} {outcome : Outcome StreamDecoder ByteArray}
    (h : Answers room outcome bytes result) (earlier : List Note) :
    Answers room (outcome.after earlier) bytes result := by
  cases h with
  | served hsome hle hrest => exact .served hsome hle hrest
  | ended hfinished hcurrent hsummary => exact .ended hfinished hcurrent hsummary
  | failed => exact .failed

/-- A block hands out what there is room for; it is kept if that is anything at all. -/
theorem answers_readFrom {room : Nat} {block : DecodedBlock}
    (h : Yields (some block) stream bytes result) (hcurrent : stream.current = none)
    (hsome : 0 < (block.read room).1.size) :
    Answers room (readFrom room block stream) bytes result := by
  obtain ⟨rest, rfl, hrest⟩ := h.read room
  rw [readFrom_some hsome]
  have hle : (block.read room).1.size ≤ room := by
    rcases block.read_short room with hfull | ⟨hless, _⟩ <;> omega
  refine .served hsome hle ?_
  rw [← current_none hcurrent] at hrest
  exact hrest

/-- Every request is answered as the stream yields, whether a block has been begun or not. -/
theorem Yields.answers {current : Option DecodedBlock} (h : Yields current stream bytes result)
    (hcurrent : stream.current = none) {room : Nat} (hroom : 0 < room) :
    Answers room (readOn room current stream) bytes result := by
  -- a block that has nothing left passes the request on to what comes after it
  induction h with
  | failed hnext =>
    rw [readOn, Op.bind_eq, hnext]
    exact .failed
  | ended hnext hsummary =>
    rw [readOn, Op.bind_eq, hnext]
    exact .ended (isFinished_of_next hnext) ((keeps_current_next.of_ok hnext).trans hcurrent)
      hsummary
  | begun hnext _ ih =>
    rw [readOn, Op.bind_eq, hnext]
    exact (ih ((keeps_current_next.of_ok hnext).trans hcurrent)).after _
  | @refused stream after block reason notes hfinish =>
    by_cases hsome : 0 < (block.read room).1.size
    · exact answers_readFrom (.refused hfinish) hcurrent hsome
    · have hnone : (block.read room).1.size = 0 := by omega
      have hdrained := DecodedBlock.drained_of_read_empty hroom hnone
      rw [hdrained] at hfinish
      rw [readOn, readFrom_none hnone, Op.bind_eq, hfinish, hdrained]
      exact .failed
  | @finished stream after block report notes bytes result hfinish hrest ih =>
    by_cases hsome : 0 < (block.read room).1.size
    · exact answers_readFrom (.finished hfinish hrest) hcurrent hsome
    · have hnone : (block.read room).1.size = 0 := by omega
      have hdrained := DecodedBlock.drained_of_read_empty hroom hnone
      rw [hdrained] at hfinish
      rw [readOn, readFrom_none hnone, Op.bind_eq, hfinish, hdrained]
      exact (ih ((keeps_current_finish _).of_ok hfinish |>.trans hcurrent)).after _

theorem Remains.answers (h : stream.Remains bytes result) {room : Nat} (hroom : 0 < room) :
    Answers room (read room stream) bytes result := by
  rw [read_eq hroom]
  exact (Yields.answers h rfl hroom).after []

/-! ## Requests in a row -/

/-- What a caller that only knows about input and output is told. -/
def told {α : Type} : Except DecodeError α → Except IoError α
  | .ok value => .ok value
  | .error reason => .error reason.toIoError

/--
The answers to requests in a row, and the stream after them. The requests go on after one that has
failed.
-/
def readAll : List Nat → StreamDecoder → List (Except IoError ByteArray) × StreamDecoder
  | [], stream => ([], stream)
  | room :: rooms, stream =>
    let outcome := read room stream
    let (answers, last) := readAll rooms outcome.state
    (told outcome.result :: answers, last)

/-- Each piece fits the room it was asked for, and is empty only if there was none. -/
def Fit : List Nat → List ByteArray → Prop
  | room :: rooms, piece :: pieces =>
    piece.size ≤ room ∧ (piece.size = 0 ↔ room = 0) ∧ Fit rooms pieces
  | _, [] => True
  | [], _ :: _ => False

/-- All bytes of the pieces in order. -/
def joined (pieces : List ByteArray) : List UInt8 := pieces.flatMap fun piece => piece.data.toList

/--
The answers that come when nothing is left: after a success none of them hands anything out, and
the summary stays; after a failure, the first one reports it.
-/
def Ends (reported : List (Except IoError ByteArray)) (last : StreamDecoder) :
    Except DecodeError StreamSummary → Prop
  | .ok summary => (∀ answer ∈ reported, answer = .ok ByteArray.empty)
    ∧ last.summary? = some summary
  | .error reason => reported.head? = some (.error reason.toIoError)

/-- After the footer every request finds the stream at its end and leaves it as it is. -/
theorem read_of_isFinished (hfinished : stream.isFinished) (hcurrent : stream.current = none)
    (room : Nat) : read room stream = .ok ByteArray.empty stream [] := by
  rcases Nat.eq_zero_or_pos room with rfl | hroom
  · exact read_zero stream
  · rw [read_eq hroom, current_none hcurrent, hcurrent, readOn, Op.bind_eq,
      next_of_isFinished hfinished]
    rfl

theorem readAll_of_isFinished (hfinished : stream.isFinished) (hcurrent : stream.current = none)
    (rooms : List Nat) :
    readAll rooms stream = (rooms.map fun _ => .ok ByteArray.empty, stream) := by
  induction rooms with
  | nil => rfl
  | cons room rooms ih =>
    rw [readAll, read_of_isFinished hfinished hcurrent]
    simp only [Outcome.state, Outcome.result, told, List.map_cons, ih]

/--
The answers to requests in a row agree with what the stream yields: they hand out the bytes in order,
and the end is only reported when there are no bytes left. Until then, what has not been handed out
remains.
-/
def Pulls (stream : StreamDecoder) (rooms : List Nat) (bytes : List UInt8)
    (result : Except DecodeError StreamSummary) : Prop :=
  ∃ pieces reported rest,
    (readAll rooms stream).1 = pieces.map .ok ++ reported ∧ Fit rooms pieces
      ∧ bytes = joined pieces ++ rest
      ∧ ((reported = [] ∧ (readAll rooms stream).2.Remains rest result)
        ∨ (reported ≠ [] ∧ rest = [] ∧ (∃ room, rooms[pieces.length]? = some room ∧ 0 < room)
          ∧ Ends reported (readAll rooms stream).2 result))

theorem Pulls.nil (h : stream.Remains bytes result) : stream.Pulls [] bytes result :=
  ⟨[], [], bytes, rfl, trivial, rfl, .inl ⟨rfl, h⟩⟩

/-- One more request in front, which is served. -/
theorem Pulls.cons {room : Nat} {rooms : List Nat} {front : ByteArray} {after : StreamDecoder}
    {notes : List Note} (hread : read room stream = .ok front after notes) (hle : front.size ≤ room)
    (hempty : front.size = 0 ↔ room = 0) (h : after.Pulls rooms bytes result) :
    stream.Pulls (room :: rooms) (front.data.toList ++ bytes) result := by
  obtain ⟨pieces, reported, rest, hanswers, hfit, hrest, hend⟩ := h
  refine ⟨front :: pieces, reported, rest, ?_, ⟨hle, hempty, hfit⟩, ?_, ?_⟩
  · rw [readAll, hread]
    simp only [Outcome.state, Outcome.result, told, hanswers, List.map_cons, List.cons_append]
  · rw [hrest, joined, joined, List.flatMap_cons, List.append_assoc]
  · rw [readAll, hread]
    exact hend

/-- One more request in front, which is told the end. -/
theorem Pulls.of_ends {room : Nat} {rooms : List Nat} (hroom : 0 < room)
    (h : Ends (readAll (room :: rooms) stream).1 (readAll (room :: rooms) stream).2 result) :
    stream.Pulls (room :: rooms) [] result := by
  refine ⟨[], (readAll (room :: rooms) stream).1, [], rfl, trivial, rfl,
    .inr ⟨?_, rfl, ⟨room, rfl, hroom⟩, h⟩⟩
  rw [readAll]
  exact List.cons_ne_nil _ _

theorem Remains.pulls (h : stream.Remains bytes result) (rooms : List Nat) :
    stream.Pulls rooms bytes result := by
  -- on the requests; what remains after one is what the others are made to
  induction rooms generalizing stream bytes with
  | nil => exact .nil h
  | cons room rooms ih =>
    rcases Nat.eq_zero_or_pos room with rfl | hroom
    · exact .cons (read_zero stream) (Nat.le_refl 0) ⟨fun _ => rfl, fun _ => rfl⟩ (ih h)
    · generalize hread : read room stream = outcome
      have hanswer := h.answers hroom
      rw [hread] at hanswer
      cases hanswer with
      | served hsome hle hrest => exact .cons hread hle ⟨by omega, by omega⟩ (ih hrest)
      | @ended after notes summary hfinished hcurrent hsummary =>
        apply Pulls.of_ends hroom
        rw [readAll, hread]
        simp only [Outcome.state, Outcome.result, told,
          readAll_of_isFinished hfinished hcurrent rooms]
        refine ⟨?_, hsummary⟩
        intro answer hmem
        rcases List.mem_cons.mp hmem with rfl | hmem
        · rfl
        · obtain ⟨_, _, rfl⟩ := List.mem_map.mp hmem
          rfl
      | failed =>
        apply Pulls.of_ends hroom
        rw [readAll, hread]
        rfl

/-! ## Agreement -/

/-- What a stream is decoded to as a whole is what remains of it at its start. -/
theorem remains_of_start {source : Source} {fresh : StreamDecoder} {notes : List Note}
    (hstart : start source = .ok fresh () notes) (strict : Bool) :
    (fresh.setStrict strict).Remains
      (decodeSource source strict .unbounded).state.taken.data.toList
      (decodeSource source strict .unbounded).result := by
  obtain ⟨bytes, result, h⟩ := (fresh.setStrict strict).exists_remains
  obtain ⟨hresult, hsink⟩ := h.decodeTo Sink.accepting_unbounded
  have hbytes : (Sink.unbounded.push (packed bytes)).taken.data.toList = bytes := by
    simp [Sink.push, Sink.unbounded, packed]
  rw [decodeSource, hstart]
  simp only [Outcome.state_after, Outcome.state_withState, Outcome.result_after,
    Outcome.result_withState, hresult, hsink, hbytes]
  exact h

/--
Pulling and pushing agree. The answers to any requests in a row, made to a stream that has just been
started, are pieces of what the source is decoded to, in order, each nonempty if there was room. As
long as nothing else has been reported, a sink that takes over is given exactly the rest, and the
result is the same. What is reported after the last piece is how decoding ends: nothing more and the
same summary ever after, or the same failure.
-/
theorem readAll_agrees_decodeSource {source : Source} {fresh : StreamDecoder} {notes : List Note}
    (hstart : start source = .ok fresh () notes) (strict : Bool) (rooms : List Nat) :
    (∀ reached : StreamDecoder, read 0 reached = .ok ByteArray.empty reached []) ∧
    ∃ pieces reported rest,
      (readAll rooms (fresh.setStrict strict)).1 = pieces.map .ok ++ reported ∧ Fit rooms pieces
      ∧ (decodeSource source strict .unbounded).state.taken.data.toList = joined pieces ++ rest
      ∧ (reported = [] → ∀ sink : Sink, sink.Accepting →
          (decodeTo ((readAll rooms (fresh.setStrict strict)).2, sink)).state.2
              = sink.push (packed rest)
            ∧ (decodeTo ((readAll rooms (fresh.setStrict strict)).2, sink)).result
              = (decodeSource source strict .unbounded).result)
      ∧ (reported ≠ [] → rest = [] ∧ (∃ room, rooms[pieces.length]? = some room ∧ 0 < room)
          ∧ Ends reported (readAll rooms (fresh.setStrict strict)).2
              (decodeSource source strict .unbounded).result) := by
  refine ⟨read_zero, ?_⟩
  obtain ⟨pieces, reported, rest, hanswers, hfit, hbytes, hend⟩ :=
    (remains_of_start hstart strict).pulls rooms
  refine ⟨pieces, reported, rest, hanswers, hfit, hbytes, ?_, ?_⟩
  · intro hnone sink hsink
    rcases hend with ⟨_, hremains⟩ | ⟨hsome, _⟩
    · obtain ⟨hresult, hstate⟩ := hremains.decodeTo hsink
      exact ⟨hstate, hresult⟩
    · exact absurd hnone hsome
  · intro hsome
    rcases hend with ⟨hnone, _⟩ | ⟨_, hend⟩
    · exact absurd hnone hsome
    · exact hend

/-- A stream with one block of four letters. -/
def ababStream : ByteArray :=
  ⟨#[66, 90, 104, 57, 49, 65, 89, 38, 83, 89, 135, 56, 224, 246, 0, 0, 0, 129, 0, 48, 0, 32, 0, 33,
    0, 130, 35, 23, 114, 69, 56, 80, 144, 135, 56, 224, 246]⟩

/-- The decoder that has read the header of that stream. -/
def ababStart : StreamDecoder where
  bench := (.ofDigit 9, ⟨⟨[]⟩, ababStream, 4, 0, 0, 4⟩)
  current := none
  digit := 9
  computed := 0
  stored := none
  reports := #[]
  outputLength := 0
  strict := false

theorem readHeader_abab : readHeader (.ofSource (.ofBytes ababStream))
    = .ok 9 ⟨⟨[]⟩, ababStream, 4, 0, 0, 4⟩ [.signature 9] := by cbv

theorem start_abab : start (.ofBytes ababStream) = .ok ababStart () [.signature 9] := by
  rw [start, readHeader_abab]
  rfl

theorem readAll_agrees_abab :
    start (.ofBytes ababStream) = .ok ababStart () [.signature 9] ∧
    ∃ pieces reported rest,
      (readAll [0, 3, 5, 1] (ababStart.setStrict true)).1 = pieces.map .ok ++ reported
      ∧ Fit [0, 3, 5, 1] pieces
      ∧ (decodeSource (.ofBytes ababStream) true .unbounded).state.taken.data.toList
        = joined pieces ++ rest := by
  obtain ⟨_, pieces, reported, rest, hanswers, hfit, hbytes, _⟩ :=
    readAll_agrees_decodeSource start_abab true [0, 3, 5, 1]
  exact ⟨start_abab, pieces, reported, rest, hanswers, hfit, hbytes⟩

end Bunzip.StreamDecoder

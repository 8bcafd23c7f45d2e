import Bunzip.Proofs.Block.Safety
import Bunzip.Proofs.Stream.PullPush

/-!
# What happens between a stream and its blocks

All that a stream decoder ever does is ask for the next block, hand out bytes of a block and take a
block back. Here is what each of these can do, once and for all. What they all keep up is then kept
up by reading piece by piece and by delivering into a sink, however many blocks these go through.
-/

namespace Bunzip.StreamDecoder

/-! ## Starting -/

/-- The decoder of a stream whose header has been read. -/
def opened (strict : Bool) (digit : Nat) (reader : BitReader) : StreamDecoder where
  bench := (.ofDigit digit, reader)
  current := none
  digit
  computed := 0
  stored := none
  reports := #[]
  outputLength := 0
  strict

theorem setStrict_opened (before strict : Bool) (digit : Nat) (reader : BitReader) :
    (opened before digit reader).setStrict strict = opened strict digit reader := rfl

/-- A stream is started by reading its header. -/
theorem start_eq (source : Source) :
    start source = match readHeader (.ofSource source) with
      | .error reason _ notes => .error reason () notes
      | .ok digit reader notes => .ok (opened false digit reader) () notes := rfl

theorem start_of_readHeader {source : Source} {digit : Nat} {reader : BitReader} {notes : List Note}
    (hread : readHeader (.ofSource source) = .ok digit reader notes) :
    start source = .ok (opened false digit reader) () notes := by rw [start_eq, hread]

theorem opened_of_start {source : Source} {fresh : StreamDecoder} {notes : List Note}
    (hstart : start source = .ok fresh () notes) :
    ∃ digit reader, readHeader (.ofSource source) = .ok digit reader notes
      ∧ fresh = opened false digit reader := by
  rw [start_eq] at hstart
  split at hstart <;> cases hstart
  next hread => exact ⟨_, _, hread, rfl⟩

/-- Decoding gives what the stream yields behind its header. -/
theorem decodeSource_of_yields {source : Source} {digit : Nat} {reader : BitReader}
    {notes : List Note} (hread : readHeader (.ofSource source) = .ok digit reader notes)
    {strict : Bool} {bytes : List UInt8} {result : Except DecodeError StreamSummary}
    (hy : Yields none (opened strict digit reader) bytes result) :
    (decodeSource source strict .unbounded).result = result
      ∧ (decodeSource source strict .unbounded).state = Sink.unbounded.push (packed bytes) := by
  have hremains : (opened strict digit reader).Remains bytes result :=
    remains_of_current_none rfl hy
  obtain ⟨hresult, hstate⟩ := hremains.decodeTo Sink.accepting_unbounded
  rw [decodeSource, start_of_readHeader hread]
  simp only [Outcome.result_after, Outcome.result_withState, Outcome.state_after,
    Outcome.state_withState, setStrict_opened]
  exact ⟨hresult, hstate⟩

/-- The reader behind the header of a stream that has been delivered as a whole. -/
def behindHeader (data : ByteArray) : BitReader := ⟨⟨[]⟩, data, 4, 0, 0, 4⟩

/-! ## Asking for the next block -/

/-- The checksum of the footer, if it is the footer that comes next and all of it is there. -/
def footerAhead (reader : BitReader) : Option UInt32 :=
  match marker reader with
  | .error _ _ => none
  | .ok magic behind =>
    if magic = footerMarker then
      match BitReader.word behind with
      | .error _ _ => none
      | .ok stored _ => some stored
    else none

/-- What can come of asking for the next block. -/
inductive Asked (stream : StreamDecoder) : Outcome StreamDecoder (Option DecodedBlock) → Prop where
  /-- The footer has been read before. -/
  | finished {notes : List Note} : stream.isFinished = true → Asked stream (.ok none stream notes)
  | begun {behind : BitReader} {block : DecodedBlock} {bench : BlockDecoder.Bench}
      {notes more : List Note} : stream.stored = none →
      marker stream.bench.2 = .ok blockMarker behind →
      BlockDecoder.readBlock (stream.reports.size + 1) (stream.bench.1, behind)
        = .ok block bench more →
      Asked stream (.ok (some block) { stream with bench } notes)
  | ended {stored : UInt32} {bench : BlockDecoder.Bench} {notes : List Note} :
      stream.stored = none → footerAhead stream.bench.2 = some stored →
      (stream.strict = true → stored = stream.computed) →
      Asked stream (.ok none { stream with bench, stored := some stored } notes)
  /-- The footer does not agree. It counts as read all the same. -/
  | refused {stored : UInt32} {bench : BlockDecoder.Bench} {notes : List Note} :
      stream.stored = none → footerAhead stream.bench.2 = some stored → stream.strict = true →
      stored ≠ stream.computed →
      Asked stream (.error (.streamChecksum stored stream.computed)
        { stream with bench, stored := some stored } notes)
  | stopped {reason : DecodeError} {bench : BlockDecoder.Bench} {notes : List Note} :
      stream.stored = none → footerAhead stream.bench.2 = none →
      Asked stream (.error reason { stream with bench } notes)

variable {stream : StreamDecoder}

theorem Asked.after {outcome : Outcome StreamDecoder (Option DecodedBlock)}
    (h : Asked stream outcome) (earlier : List Note) : Asked stream (outcome.after earlier) := by
  cases h with
  | finished hfinished => exact .finished hfinished
  | begun hopen hmarker hread => exact .begun hopen hmarker hread
  | ended hopen hahead hagrees => exact .ended hopen hahead hagrees
  | refused hopen hahead hstrict hne => exact .refused hopen hahead hstrict hne
  | stopped hopen hahead => exact .stopped hopen hahead

theorem onBench_eq {α : Type} (op : Op BlockDecoder.Bench α) (stream : StreamDecoder) :
    onBench op stream = (op stream.bench).withState fun bench => { stream with bench } := rfl

theorem reading_eq {α : Type} (x : Read α) (stream : StreamDecoder) :
    reading x stream = match x stream.bench.2 with
      | .ok a reader => .ok a { stream with bench := (stream.bench.1, reader) } []
      | .error reason reader =>
        .error reason { stream with bench := (stream.bench.1, reader) } [] := by
  rw [reading, onBench_eq, BlockDecoder.reading, BlockDecoder.onReader, Op.read]
  cases x stream.bench.2 <;> rfl

/-- Where a block comes next, the footer does not. -/
theorem footerAhead_of_block {reader behind : BitReader}
    (hmarker : marker reader = .ok blockMarker behind) : footerAhead reader = none := by
  rw [footerAhead, hmarker]
  exact if_neg (by decide)

/-- What can come of the footer once its marker has been read. -/
theorem asked_footer {behind : BitReader} (hopen : stream.stored = none)
    (hmarker : marker stream.bench.2 = .ok footerMarker behind) :
    Asked stream ((readFooter >>= fun _ => Pure.pure none)
      { stream with bench := (stream.bench.1, behind) }) := by
  rw [Op.bind_eq, readFooter, Op.bind_eq, reading_eq]
  cases hword : BitReader.word behind with
  | error reason reader =>
    refine .stopped hopen ?_
    simp only [footerAhead, hmarker, hword, if_pos]
  | ok stored reader =>
    have hahead : footerAhead stream.bench.2 = some stored := by
      simp only [footerAhead, hmarker, hword, if_pos]
    simp only [Op.bind_eq, Op.modify, Op.get, Op.note]
    by_cases hagrees : stored = stream.computed
    · simp only [if_pos hagrees]
      exact .ended hopen hahead fun _ => hagrees
    by_cases hstrict : stream.strict = true
    · simp only [if_neg hagrees, if_pos hstrict]
      exact .refused hopen hahead hstrict hagrees
    · simp only [if_neg hagrees, if_neg hstrict]
      exact .ended hopen hahead fun h => absurd h hstrict

/-- **Asking for the next block does one of these things.** -/
theorem asked_next (stream : StreamDecoder) : Asked stream (next stream) := by
  rw [next]
  by_cases hfinished : stream.isFinished = true
  · rw [if_pos hfinished]
    exact .finished hfinished
  rw [if_neg hfinished, readMarked, Op.bind_eq, reading_eq]
  have hopen : stream.stored = none := by simpa [isFinished] using hfinished
  cases hmarker : marker stream.bench.2 with
  | error reason reader => exact .stopped hopen (by simp only [footerAhead, hmarker])
  | ok magic behind =>
    by_cases hblock : magic = blockMarker
    · subst hblock
      simp only [if_pos, Op.bind_eq, Op.get, Op.note, onBench_eq]
      cases hread : BlockDecoder.readBlock (stream.reports.size + 1) (stream.bench.1, behind) with
      | error reason bench notes =>
        exact .stopped hopen (footerAhead_of_block hmarker)
      | ok block bench notes => exact .begun hopen hmarker hread
    · by_cases hfooter : magic = footerMarker
      · subst hfooter
        simp only [if_neg hblock, if_pos]
        exact (asked_footer hopen hmarker).after _
      · simp only [if_neg hblock, if_neg hfooter, reading_eq, BitReader.corrupt]
        exact .stopped hopen (by simp only [footerAhead, hmarker, if_neg hfooter])

/-! ## Taking a block back -/

/-- What can come of taking a block back. -/
inductive TakenBack (block : DecodedBlock) (stream : StreamDecoder) :
    Outcome StreamDecoder BlockReport → Prop where
  | counted {decoder : BlockDecoder} {notes : List Note} :
      block.isExhausted = true → block.crc.value = block.stored →
      decoder.maxLength = stream.bench.1.maxLength →
      TakenBack block stream (.ok block.report { stream with
        bench := (decoder, stream.bench.2)
        computed := Crc.foldStream stream.computed block.stored
        outputLength := stream.outputLength + block.emitted
        reports := stream.reports.push block.report } notes)
  /-- A block that is refused leaves no trace, and its refusal is not about the input. -/
  | refused {reason : DecodeError} {notes : List Note} : (∀ q, reason ≠ .endOfStream q) →
      TakenBack block stream (.error reason stream notes)

/-- **Taking a block back does one of these things.** -/
theorem takenBack_finish (block : DecodedBlock) (stream : StreamDecoder) :
    TakenBack block stream (finish block stream) := by
  rw [finish]
  by_cases hleft : (!block.isExhausted) = true
  · rw [if_pos hleft]
    exact .refused fun _ => nofun
  rw [if_neg hleft]
  have hexhausted : block.isExhausted = true := by simpa using hleft
  rw [Op.bind_eq, DecodedBlock.verify_eq]
  by_cases hagrees : block.crc.value = block.stored
  · rw [if_pos hagrees]
    exact .counted hexhausted hagrees
      (BlockDecoder.keeps_maxLength_recycle block.rest.walk.links stream.bench.1)
  · rw [if_neg hagrees]
    exact .refused fun _ => nofun

/-! ## What all moves keep up -/

/--
Something that all moves keep up, beside the bytes that have been handed out. It holds of these, of a
stream and of the block that is being worked on, if there is one. Where a move fails the block is gone,
and what is said of failures holds of the reason and of the stream that is left. Only those bytes count
that arrive: a sink may refuse the last of what has left the block.
-/
structure Metered (holds : ByteArray → StreamDecoder → Option DecodedBlock → Prop)
    (fails : ByteArray → DecodeError → StreamDecoder → Prop) : Prop where
  asked {out : ByteArray} {stream : StreamDecoder} : holds out stream none →
    match next stream with
    | .ok work after _ => holds out after work
    | .error reason after _ => fails out reason after
  handed {out arrived lost : ByteArray} {stream : StreamDecoder} {block : DecodedBlock} (room : Nat) :
    arrived ++ lost = (block.read room).1 → holds out stream (some block) →
    holds (out ++ arrived) stream (some (block.read room).2)
  takenBack {out : ByteArray} {stream : StreamDecoder} {block : DecodedBlock} :
    holds out stream (some block) →
    match finish block stream with
    | .ok _ after _ => holds out after none
    | .error reason after _ => fails out reason after
  sinkFailed {out : ByteArray} {stream : StreamDecoder} {work : Option DecodedBlock}
    (error : IoError) : holds out stream work → fails out (.io error) stream

/-- It holds of a stream with the block that is being read piece by piece. -/
def Holding (holds : StreamDecoder → Option DecodedBlock → Prop) (stream : StreamDecoder) : Prop :=
  holds { stream with current := none } stream.current

theorem Holding.of_current_none {holds : StreamDecoder → Option DecodedBlock → Prop}
    (hcurrent : stream.current = none) (h : holds stream none) : Holding holds stream := by
  rw [Holding, current_none hcurrent, hcurrent]
  exact h

/-- What is still to be done decreases from block to block, and when a block is taken back. -/
def toDo (work : Option DecodedBlock) (stream : StreamDecoder) : Nat :=
  2 * stream.bitsLeft + work.toList.length

theorem toDo_begun {after : StreamDecoder} {block : DecodedBlock} {notes : List Note}
    (hnext : next stream = .ok (some block) after notes) :
    toDo (some block) after < toDo none stream := by
  have hspent := bitsLeft_next hnext
  simp only [toDo, Option.toList, List.length_cons, List.length_nil]
  omega

theorem toDo_takenBack {after : StreamDecoder} {block : DecodedBlock} {report : BlockReport}
    {notes : List Note} (hfinish : finish block stream = .ok report after notes)
    (other : DecodedBlock) : toDo none after < toDo (some other) stream := by
  have hspent := (spends_finish block).of_ok hfinish
  simp only [toDo, Option.toList, List.length_cons, List.length_nil]
  omega

section

variable {holds : ByteArray → StreamDecoder → Option DecodedBlock → Prop}
  {fails : ByteArray → DecodeError → StreamDecoder → Prop} {out : ByteArray}

/-- A block with nothing to hand out is as it should be to be taken back. -/
theorem Metered.handed_nothing (h : Metered holds fails) {room : Nat} {block : DecodedBlock}
    (hnone : ¬0 < (block.read room).1.size) (hstream : holds out stream (some block)) :
    holds out stream (some (block.read room).2) := by
  have hempty : (block.read room).1 = ByteArray.empty := ByteArray.size_eq_zero_iff.mp (by omega)
  have hhanded := h.handed room (ByteArray.append_empty.trans hempty.symm) hstream
  rwa [ByteArray.append_empty] at hhanded

/-- A request keeps it up. Nothing is handed out only at the footer. -/
def ReadMetered (holds : ByteArray → StreamDecoder → Option DecodedBlock → Prop)
    (fails : ByteArray → DecodeError → StreamDecoder → Prop) (out : ByteArray) :
    Outcome StreamDecoder ByteArray → Prop
  | .ok bytes after _ => Holding (holds (out ++ bytes)) after
    ∧ (bytes.size = 0 → after.isFinished = true ∧ after.current = none)
  | .error reason after _ => fails out reason after ∧ after.current = none

/-- A delivery keeps it up, with what the sink takes. It succeeds only at the footer. -/
def DeliveryMetered {α : Type} (holds : ByteArray → StreamDecoder → Option DecodedBlock → Prop)
    (fails : ByteArray → DecodeError → StreamDecoder → Prop) :
    Outcome (StreamDecoder × Sink) α → Prop
  | .ok _ (after, last) _ =>
    holds last.taken after none ∧ after.isFinished = true ∧ after.current = none
  | .error reason (after, last) _ => fails last.taken reason after ∧ after.current = none

theorem ReadMetered.after {outcome : Outcome StreamDecoder ByteArray}
    (h : ReadMetered holds fails out outcome) (earlier : List Note) :
    ReadMetered holds fails out (outcome.after earlier) := by
  cases outcome <;> exact h

theorem DeliveryMetered.after {α : Type} {outcome : Outcome (StreamDecoder × Sink) α}
    (h : DeliveryMetered holds fails outcome) (earlier : List Note) :
    DeliveryMetered holds fails (outcome.after earlier) := by
  cases outcome <;> exact h

/-- A request goes from block to block until it is met. -/
theorem Metered.readOn (h : Metered holds fails) (room : Nat) {work : Option DecodedBlock}
    (hcurrent : stream.current = none) (hstream : holds out stream work) :
    ReadMetered holds fails out (readOn room work stream) := by
  induction hm : toDo work stream using Nat.strongRecOn generalizing work stream with
  | ind m ih =>
    subst hm
    cases work with
    | none =>
      have hasked := h.asked hstream
      rw [StreamDecoder.readOn, Op.bind_eq]
      cases hnext : next stream with
      | error reason after notes =>
        rw [hnext] at hasked
        exact ⟨hasked, (keeps_current_next.of_error hnext).trans hcurrent⟩
      | ok found after notes =>
        rw [hnext] at hasked
        have hcurrent' := (keeps_current_next.of_ok hnext).trans hcurrent
        cases found with
        | none =>
          refine ⟨.of_current_none hcurrent' ?_, fun _ => ⟨isFinished_of_next hnext, hcurrent'⟩⟩
          rwa [ByteArray.append_empty]
        | some block => exact (ih _ (toDo_begun hnext) hcurrent' hasked rfl).after notes
    | some block =>
      rw [StreamDecoder.readOn]
      by_cases hsome : 0 < (block.read room).1.size
      · have hhanded := h.handed room ByteArray.append_empty hstream
        rw [readFrom_some hsome]
        rw [← current_none hcurrent] at hhanded
        exact ⟨hhanded, fun hnone => by omega⟩
      · rw [readFrom_none (by omega), Op.bind_eq]
        have htaken := h.takenBack (h.handed_nothing hsome hstream)
        cases hfinish : finish (block.read room).2 stream with
        | error reason after notes =>
          rw [hfinish] at htaken
          exact ⟨htaken, ((keeps_current_finish _).of_error hfinish).trans hcurrent⟩
        | ok report after notes =>
          rw [hfinish] at htaken
          have hcurrent' := ((keeps_current_finish _).of_ok hfinish).trans hcurrent
          exact (ih _ (toDo_takenBack hfinish block) hcurrent' htaken rfl).after notes

theorem Metered.read (h : Metered holds fails) (out : ByteArray) {room : Nat} (hroom : 0 < room)
    (hstream : Holding (holds out) stream) : ReadMetered holds fails out (read room stream) := by
  rw [read_eq hroom]
  exact (h.readOn room rfl hstream).after []

/-- Draining only takes bytes out of the block, and fails only where the sink does. -/
theorem Metered.drainBy (h : Metered holds fails) (chunk written : Nat) {block : DecodedBlock}
    (sink : Sink) (hstream : holds sink.taken stream (some block)) :
    match DecodedBlock.drainBy chunk written block sink with
    | .ok _ (left, last) => holds last.taken stream (some left)
    | .error reason (left, last) =>
      holds last.taken stream (some left) ∧ ∃ error, reason = .io error := by
  induction hm : block.rest.bound using Nat.strongRecOn generalizing written block sink with
  | ind m ih =>
    by_cases hsome : 0 < (block.read chunk).1.size
    · obtain ⟨arrived, lost, hsplit, htaken⟩ := sink.exists_taken_write (block.read chunk).1
      have hhanded := h.handed chunk hsplit hstream
      rw [← htaken] at hhanded
      rcases hwrite : sink.write (block.read chunk).1 with ⟨error | _, sink'⟩
      · rw [hwrite] at hhanded
        rw [DecodedBlock.drainBy_refused written hsome hwrite]
        exact ⟨hhanded, error, rfl⟩
      · rw [hwrite] at hhanded
        have hbound := block.read_bound chunk
        rw [DecodedBlock.drainBy_some hsome hwrite]
        exact ih _ (by omega) _ sink' hhanded rfl
    · rw [DecodedBlock.drainBy_none written sink (by omega)]
      exact h.handed_nothing hsome hstream

theorem Metered.drain (h : Metered holds fails) {block : DecodedBlock} (sink : Sink)
    (hstream : holds sink.taken stream (some block)) :
    match DecodedBlock.drain (block, sink) with
    | .ok _ (left, last) => holds last.taken stream (some left)
    | .error reason (left, last) =>
      holds last.taken stream (some left) ∧ ∃ error, reason = .io error :=
  h.drainBy block.chunkSize 0 sink hstream

/-- A delivery goes from block to block up to the footer. -/
theorem Metered.deliverFrom (h : Metered holds fails) {work : Option DecodedBlock}
    (hcurrent : stream.current = none) (sink : Sink) (hstream : holds sink.taken stream work) :
    DeliveryMetered holds fails (deliverFrom work (stream, sink)) := by
  induction hm : toDo work stream using Nat.strongRecOn generalizing work stream sink with
  | ind m ih =>
    subst hm
    cases work with
    | none =>
      have hasked := h.asked hstream
      rw [StreamDecoder.deliverFrom]
      cases hnext : next stream with
      | error reason after notes =>
        rw [hnext] at hasked
        rw [deliverBlocks_error hnext]
        exact ⟨hasked, (keeps_current_next.of_error hnext).trans hcurrent⟩
      | ok found after notes =>
        rw [hnext] at hasked
        have hcurrent' := (keeps_current_next.of_ok hnext).trans hcurrent
        cases found with
        | none =>
          rw [deliverBlocks_ended hnext]
          exact ⟨hasked, isFinished_of_next hnext, hcurrent'⟩
        | some block =>
          rw [deliverBlocks_begun hnext]
          exact (ih _ (toDo_begun hnext) hcurrent' sink hasked rfl).after notes
    | some block =>
      have hdrained := h.drain sink hstream
      rw [StreamDecoder.deliverFrom, Op.bind_eq, deliver]
      cases hdrain : DecodedBlock.drain (block, sink) with
      | error reason left =>
        rw [hdrain] at hdrained
        obtain ⟨hleft, error, rfl⟩ := hdrained
        exact ⟨h.sinkFailed error hleft, hcurrent⟩
      | ok written left =>
        rw [hdrain] at hdrained
        have htaken := h.takenBack hdrained
        simp only
        cases hfinish : finish left.1 stream with
        | error reason after notes =>
          rw [hfinish] at htaken
          exact ⟨htaken, ((keeps_current_finish _).of_error hfinish).trans hcurrent⟩
        | ok report after notes =>
          rw [hfinish] at htaken
          have hcurrent' := ((keeps_current_finish _).of_ok hfinish).trans hcurrent
          exact (ih _ (toDo_takenBack hfinish block) hcurrent' left.2 htaken rfl).after notes

/-- A delivery only succeeds at the footer. -/
theorem isFinished_of_deliverFrom {work : Option DecodedBlock} (hcurrent : stream.current = none)
    {sink : Sink} (h : (deliverFrom work (stream, sink)).result = .ok ()) :
    (deliverFrom work (stream, sink)).state.1.isFinished = true := by
  have hnothing : Metered (fun _ _ _ => True) fun _ _ _ => True :=
    ⟨fun _ => by split <;> trivial, fun _ _ _ => trivial, fun _ => by split <;> trivial,
      fun _ _ => trivial⟩
  have hkept : DeliveryMetered _ _ (deliverFrom work (stream, sink)) :=
    hnothing.deliverFrom hcurrent sink trivial
  cases hdeliver : deliverFrom work (stream, sink) with
  | error reason after notes => rw [hdeliver] at h; cases h
  | ok _ after notes => rw [hdeliver] at hkept; exact hkept.2.1

theorem Metered.decodeTo (h : Metered holds fails) (sink : Sink)
    (hstream : Holding (holds sink.taken) stream) :
    DeliveryMetered holds fails (decodeTo (stream, sink)) := by
  have hdelivered := h.deliverFrom rfl sink hstream
  rw [decodeTo_apply, Op.bind_eq]
  cases hdeliver : StreamDecoder.deliverFrom stream.current ({ stream with current := none }, sink) with
  | error reason after notes => rw [hdeliver] at hdelivered; exact hdelivered
  | ok _ after notes =>
    rw [hdeliver] at hdelivered
    obtain ⟨summary, hsummary⟩ := summary?_of_isFinished hdelivered.2.1
    refine DeliveryMetered.after ?_ notes
    cases hflush : after.2.flush with
    | ok _ =>
      rw [conclude_flushed hsummary hflush]
      exact hdelivered
    | error error =>
      rw [conclude_refused hflush]
      exact ⟨h.sinkFailed error hdelivered.1, hdelivered.2.2⟩

end

/-! ## What all moves keep up, whatever bytes are handed out -/

/-- Something that all moves keep up, see `Metered`, and that holds without the block as well. -/
structure KeptUp (holds : StreamDecoder → Option DecodedBlock → Prop)
    (fails : DecodeError → StreamDecoder → Prop) : Prop where
  asked {stream : StreamDecoder} : holds stream none →
    match next stream with
    | .ok work after _ => holds after work
    | .error reason after _ => fails reason after
  handed {stream : StreamDecoder} {block : DecodedBlock} (room : Nat) :
    holds stream (some block) → holds stream (some (block.read room).2)
  takenBack {stream : StreamDecoder} {block : DecodedBlock} : holds stream (some block) →
    match finish block stream with
    | .ok _ after _ => holds after none
    | .error reason after _ => fails reason after
  sinkFailed {stream : StreamDecoder} {work : Option DecodedBlock} (error : IoError) :
    holds stream work → fails (.io error) stream
  letGo {stream : StreamDecoder} {block : DecodedBlock} :
    holds stream (some block) → holds stream none

section

variable {holds : StreamDecoder → Option DecodedBlock → Prop}
  {fails : DecodeError → StreamDecoder → Prop}

theorem KeptUp.metered (h : KeptUp holds fails) : Metered (fun _ => holds) fun _ => fails where
  asked := h.asked
  handed room _ := h.handed room
  takenBack := h.takenBack
  sinkFailed := h.sinkFailed

/-- A request keeps it up. Nothing is handed out only at the footer. -/
def ReadKept (holds : StreamDecoder → Option DecodedBlock → Prop)
    (fails : DecodeError → StreamDecoder → Prop) : Outcome StreamDecoder ByteArray → Prop
  | .ok bytes after _ =>
    Holding holds after ∧ (bytes.size = 0 → after.isFinished = true ∧ after.current = none)
  | .error reason after _ => fails reason after ∧ after.current = none

/-- A delivery keeps it up. It succeeds only at the footer. -/
def DeliveryKept {α : Type} (holds : StreamDecoder → Option DecodedBlock → Prop)
    (fails : DecodeError → StreamDecoder → Prop) : Outcome (StreamDecoder × Sink) α → Prop
  | .ok _ (after, _) _ => holds after none ∧ after.isFinished = true ∧ after.current = none
  | .error reason (after, _) _ => fails reason after ∧ after.current = none

theorem KeptUp.read (h : KeptUp holds fails) {room : Nat} (hroom : 0 < room)
    (hstream : Holding holds stream) : ReadKept holds fails (read room stream) := by
  have hread := h.metered.read ByteArray.empty hroom hstream
  generalize StreamDecoder.read room stream = outcome at hread
  cases outcome <;> exact hread

theorem KeptUp.drain (h : KeptUp holds fails) {block : DecodedBlock} (sink : Sink)
    (hstream : holds stream (some block)) :
    match DecodedBlock.drain (block, sink) with
    | .ok _ (left, _) => holds stream (some left)
    | .error reason (left, _) => holds stream (some left) ∧ ∃ error, reason = .io error :=
  h.metered.drain sink hstream

theorem KeptUp.decodeTo (h : KeptUp holds fails) (hstream : Holding holds stream) (sink : Sink) :
    DeliveryKept holds fails (decodeTo (stream, sink)) := by
  have hdelivered := h.metered.decodeTo sink hstream
  generalize StreamDecoder.decodeTo (stream, sink) = outcome at hdelivered
  cases outcome <;> exact hdelivered

end

end Bunzip.StreamDecoder

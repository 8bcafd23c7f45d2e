import Bunzip.Proofs.Stream.Calls

/-!
# What is on record of a session

To say that the books of a stream decoder are right, a record is kept besides, along the calls of a
session: where each block was begun and which bytes it has handed out, in which order the blocks were
counted, and which footer was met.

The record knows nothing of the books. A call is nothing but moves between the stream and its blocks,
which lead from the session before the call to the session after it and hand out what the call hands
out. What the call enters in the record is what these moves do.
-/

namespace Bunzip

namespace StreamDecoder

/-! ## Trails -/

/-- What is recorded of a block. -/
structure Trail where
  /-- The reader right behind its marker. -/
  behind : BitReader
  /-- The block as it was begun. -/
  fresh : DecodedBlock
  /-- The bytes that it has handed out. -/
  produced : ByteArray

/-- The same block, when it has handed out some more bytes. -/
def Trail.handing (trail : Trail) (bytes : ByteArray) : Trail :=
  { trail with produced := trail.produced ++ bytes }

/-- The block that is begun when the next one is asked for, if one is. -/
def begunBy (stream : StreamDecoder) : Option (Trail × DecodedBlock) :=
  match marker stream.bench.2, next stream with
  | .ok _ behind, .ok (some block) _ _ => some (⟨behind, block, ByteArray.empty⟩, block)
  | _, _ => none

/-- A block that is begun is recorded. -/
theorem begunBy_of_some {stream after : StreamDecoder} {block : DecodedBlock} {notes : List Note}
    (hnext : next stream = .ok (some block) after notes) :
    ∃ behind, marker stream.bench.2 = .ok blockMarker behind
      ∧ begunBy stream = some (⟨behind, block, ByteArray.empty⟩, block)
      ∧ ∃ bench more, BlockDecoder.readBlock (stream.reports.size + 1) (stream.bench.1, behind)
        = .ok block bench more := by
  have hasked := asked_next stream
  rw [hnext] at hasked
  cases hasked with
  | @begun behind _ bench _ more _ hmarker hread =>
    exact ⟨behind, hmarker, by rw [begunBy, hmarker, hnext], bench, more, hread⟩

theorem begunBy_of_none {stream : StreamDecoder}
    (h : ∀ block, (next stream).result ≠ .ok (some block)) : begunBy stream = none := by
  unfold begunBy
  split
  · next hnext => exact absurd (by rw [hnext]; rfl) (h _)
  · rfl

/-- The block that has been found, if one has. -/
def found : Outcome StreamDecoder (Option DecodedBlock) → Option DecodedBlock
  | .ok work _ _ => work
  | .error _ _ _ => none

/-- Just the block that is found is recorded. -/
theorem map_begunBy (stream : StreamDecoder) :
    (begunBy stream).map Prod.snd = found (next stream) := by
  cases hnext : next stream with
  | error reason after notes =>
    rw [begunBy_of_none (by intro block h; rw [hnext] at h; cases h)]
    rfl
  | ok work after notes =>
    cases work with
    | none =>
      rw [begunBy_of_none (by intro block h; rw [hnext] at h; cases h)]
      rfl
    | some block =>
      obtain ⟨behind, _, hbegun, _⟩ := begunBy_of_some hnext
      rw [hbegun]
      rfl

/-! ## Moves -/

/-- A stream that works on a block or on none, and what is on record. -/
structure Working where
  stream : StreamDecoder
  /-- The block that is worked on, with its trail. -/
  work : Option (Trail × DecodedBlock)
  /-- The blocks that have been counted, in order. -/
  counted : List Trail
  /-- The checksum of the footer, if it has been met. -/
  footer : Option UInt32

/--
Moves lead to this state of work and hand out these bytes. The bytes that leave a block are all
recorded with it. Of those that are handed out, a sink may refuse the last.
-/
inductive Moves (first : Working) : ByteArray → Working → Prop where
  | none : Moves first ByteArray.empty first
  | asked {out : ByteArray} {stream : StreamDecoder} {counted : List Trail} {footer : Option UInt32} :
      Moves first out ⟨stream, none, counted, footer⟩ →
      Moves first out ⟨(next stream).state, begunBy stream, counted,
        footer.or (footerAhead stream.bench.2)⟩
  | handed {out arrived lost : ByteArray} {stream : StreamDecoder} {trail : Trail}
      {block : DecodedBlock} {counted : List Trail} {footer : Option UInt32} (room : Nat) :
      Moves first out ⟨stream, some (trail, block), counted, footer⟩ →
      arrived ++ lost = (block.read room).1 →
      Moves first (out ++ arrived)
        ⟨stream, some (trail.handing (block.read room).1, (block.read room).2), counted, footer⟩
  | counted {out : ByteArray} {stream after : StreamDecoder} {trail : Trail} {block : DecodedBlock}
      {counted : List Trail} {footer : Option UInt32} {report : BlockReport} {notes : List Note} :
      Moves first out ⟨stream, some (trail, block), counted, footer⟩ →
      finish block stream = .ok report after notes →
      Moves first out ⟨after, none, counted ++ [trail], footer⟩
  | refused {out : ByteArray} {stream after : StreamDecoder} {trail : Trail} {block : DecodedBlock}
      {counted : List Trail} {footer : Option UInt32} {reason : DecodeError} {notes : List Note} :
      Moves first out ⟨stream, some (trail, block), counted, footer⟩ →
      finish block stream = .error reason after notes →
      Moves first out ⟨after, none, counted, footer⟩
  | dropped {out : ByteArray} {stream : StreamDecoder} {trail : Trail} {block : DecodedBlock}
      {counted : List Trail} {footer : Option UInt32} :
      Moves first out ⟨stream, some (trail, block), counted, footer⟩ →
      Moves first out ⟨stream, none, counted, footer⟩

/-- Moves lead to this stream and this block, and hand out what has been added to `base`. -/
def Led (first : Working) (base out : ByteArray) (stream : StreamDecoder)
    (work : Option DecodedBlock) : Prop :=
  ∃ given last, out = base ++ given ∧ Moves first given last ∧ last.stream = stream
    ∧ last.work.map Prod.snd = work

theorem Moves.led {first last : Working} {given : ByteArray} (h : Moves first given last)
    (base : ByteArray) :
    Led first base (base ++ given) last.stream (last.work.map Prod.snd) :=
  ⟨given, last, rfl, h, rfl, rfl⟩

theorem led_first (first : Working) (base : ByteArray) :
    Led first base base first.stream (first.work.map Prod.snd) := by
  have hled := (Moves.none : Moves first _ first).led base
  rwa [ByteArray.append_empty] at hled

/-- Where no block is worked on, moves have led there without one. -/
theorem Led.idle {first : Working} {base out : ByteArray} {stream : StreamDecoder}
    (h : Led first base out stream none) : ∃ given counted footer,
      out = base ++ given ∧ Moves first given ⟨stream, none, counted, footer⟩ := by
  obtain ⟨given, ⟨_, work, counted, footer⟩, rfl, hmoves, rfl, hwork⟩ := h
  obtain rfl : work = none := Option.map_eq_none_iff.mp hwork
  exact ⟨given, counted, footer, rfl, hmoves⟩

/-- Where a block is worked on, there is a trail of it. -/
theorem Led.busy {first : Working} {base out : ByteArray} {stream : StreamDecoder}
    {block : DecodedBlock} (h : Led first base out stream (some block)) :
    ∃ given trail counted footer,
      out = base ++ given ∧ Moves first given ⟨stream, some (trail, block), counted, footer⟩ := by
  obtain ⟨given, ⟨_, work, counted, footer⟩, rfl, hmoves, rfl, hwork⟩ := h
  obtain ⟨⟨trail, _⟩, rfl, rfl⟩ := Option.map_eq_some_iff.mp hwork
  exact ⟨given, trail, counted, footer, rfl, hmoves⟩

theorem Led.dropped {first : Working} {base out : ByteArray} {stream : StreamDecoder}
    {work : Option DecodedBlock} (h : Led first base out stream work) :
    Led first base out stream none := by
  cases work with
  | none => exact h
  | some block =>
    obtain ⟨given, trail, counted, footer, rfl, hmoves⟩ := h.busy
    exact hmoves.dropped.led base

/-- **Whatever is done is done by moves.** -/
theorem metered_led (first : Working) (base : ByteArray) :
    Metered (Led first base) fun out _ stream => Led first base out stream none where
  asked {out stream} h := by
    obtain ⟨given, counted, footer, rfl, hmoves⟩ := h.idle
    have hled := hmoves.asked.led base
    rw [map_begunBy] at hled
    cases hnext : next stream with
    | error reason after notes => rw [hnext] at hled; exact hled
    | ok work after notes => rw [hnext] at hled; exact hled
  handed room hsplit h := by
    obtain ⟨given, trail, counted, footer, rfl, hmoves⟩ := h.busy
    have hled := (hmoves.handed room hsplit).led base
    rwa [← ByteArray.append_assoc] at hled
  takenBack {out stream block} h := by
    obtain ⟨given, trail, counted, footer, rfl, hmoves⟩ := h.busy
    cases hfinish : finish block stream with
    | ok report after notes => exact (hmoves.counted hfinish).led base
    | error reason after notes => exact (hmoves.refused hfinish).led base
  sinkFailed _ h := h.dropped

end StreamDecoder

/-! ## Calls -/

/-- The block that a call works on. -/
inductive Call.Subject where
  /-- The one that is being read piece by piece. -/
  | current
  /-- One that is still to be found. -/
  | next
  /-- The one that the caller holds. -/
  | held

def Call.subject : Call → Subject
  | read _ | decodeTo _ => .current
  | next => .next
  | readHeld _ | drainHeld _ | finish | letGo => .held

/-- What a call has handed out, to its caller or into a sink. -/
def Call.Gives : Call → Answer → ByteArray → Prop
  | read _, .bytes (.ok bytes), out => out = bytes
  | readHeld _, .bytes (.ok bytes), out => out = bytes
  | decodeTo sink, .delivered _ last, out => last.taken = sink.taken ++ out
  | drainHeld sink, .drained _ last, out => last.taken = sink.taken ++ out
  | _, _, out => out = ByteArray.empty

namespace Session

open StreamDecoder

/-- What is on record of a session. -/
structure Record where
  /-- The block that is being read piece by piece, with its trail. -/
  current : Option (Trail × DecodedBlock)
  /-- The block that the caller holds, with its trail. -/
  held : Option (Trail × DecodedBlock)
  /-- The blocks that have been counted, in order. -/
  counted : List Trail
  /-- The checksum of the footer, if it has been met. -/
  footer : Option UInt32

namespace Record

/-- Nothing has happened yet. -/
def blank : Record := ⟨none, none, [], none⟩

/-- The blocks on record are those of the session. -/
structure Fits (record : Record) (session : Session) : Prop where
  current : record.current.map Prod.snd = session.stream.current
  held : record.held.map Prod.snd = session.held

/-- Work on the block that is being read piece by piece, which is taken out of the stream for that. -/
def onCurrent (record : Record) (stream : StreamDecoder) : Working :=
  ⟨{ stream with current := none }, record.current, record.counted, record.footer⟩

/-- Work on the block that the caller holds. -/
def onHeld (record : Record) (stream : StreamDecoder) : Working :=
  ⟨stream, record.held, record.counted, record.footer⟩

/--
Moves on its subject lead from the record before a call to the one after it, and hand out these bytes.
A block that is found takes the place of the one held.
-/
def Moved (record last : Record) (before : StreamDecoder) (out : ByteArray) (after : StreamDecoder) :
    Call.Subject → Prop
  | .current => Moves (record.onCurrent before) out (last.onCurrent after) ∧ last.held = record.held
  | .next => ∃ found,
    Moves ⟨before, none, record.counted, record.footer⟩ out
      ⟨after, found, last.counted, last.footer⟩
      ∧ last.current = record.current ∧ last.held = found.or record.held
  | .held => Moves (record.onHeld before) out (last.onHeld after) ∧ last.current = record.current

end Record

/-- What a call enters in the record. -/
structure Entered (call : Call) (session : Session) (record last : Record) : Prop where
  fits : last.Fits (perform call session).2
  moved : ∃ out, call.Gives (perform call session).1 out
    ∧ record.Moved last session.stream out (perform call session).2.stream call.subject

/-- What calls in a row enter in the record, each from the session that the ones before it have left. -/
def Recorded : List Call → Session → Record → Record → Prop
  | [], _, record, last => last = record
  | call :: calls, session, record, last => ∃ middle,
    Entered call session record middle ∧ Recorded calls (perform call session).2 middle last

/-! ## All calls go on record -/

variable {record : Record} {stream : StreamDecoder} {held : Option DecodedBlock}

theorem eq_of_append_empty {given : ByteArray} (h : ByteArray.empty = ByteArray.empty ++ given) :
    given = ByteArray.empty := by
  rw [h, ByteArray.empty_append]

theorem Record.Fits.holding (h : record.Fits ⟨stream, held⟩) (base : ByteArray) :
    Holding (Led (record.onCurrent stream) base base) stream := by
  have hled := led_first (record.onCurrent stream) base
  rwa [Record.onCurrent, h.current] at hled

/-- A call that works on the block that is being read piece by piece. -/
theorem Record.Fits.entered_current (h : record.Fits ⟨stream, held⟩) {call : Call}
    (hsubject : call.subject = .current) (hheld : (perform call ⟨stream, held⟩).2.held = held)
    {base out : ByteArray}
    (hled : Holding (Led (record.onCurrent stream) base out) (perform call ⟨stream, held⟩).2.stream)
    (hgives : ∀ given, out = base ++ given → call.Gives (perform call ⟨stream, held⟩).1 given) :
    ∃ last, Entered call ⟨stream, held⟩ record last := by
  obtain ⟨given, ⟨_, work, counted, footer⟩, hout, hmoves, rfl, hwork⟩ := hled
  refine ⟨⟨work, record.held, counted, footer⟩, ⟨hwork, h.held.trans hheld.symm⟩, given,
    hgives given hout, ?_⟩
  rw [hsubject]
  exact ⟨hmoves, rfl⟩

theorem Record.Fits.entered_read (h : record.Fits ⟨stream, held⟩) (room : Nat) :
    ∃ last, Entered (.read room) ⟨stream, held⟩ record last := by
  have hstart := h.holding ByteArray.empty
  obtain ⟨out, hled, hgives⟩ : ∃ out,
      Holding (Led (record.onCurrent stream) ByteArray.empty out) (StreamDecoder.read room stream).state
        ∧ (Call.read room).Gives (.bytes (StreamDecoder.read room stream).result) out := by
    rcases Nat.eq_zero_or_pos room with rfl | hroom
    · -- a read without room leaves even a block that is exhausted in its place
      rw [read_zero]
      exact ⟨_, hstart, rfl⟩
    have hread := (metered_led (record.onCurrent stream) ByteArray.empty).read ByteArray.empty hroom
      hstart
    cases hr : StreamDecoder.read room stream with
    | ok bytes after notes =>
      rw [hr] at hread
      exact ⟨_, hread.1, ByteArray.empty_append⟩
    | error reason after notes =>
      rw [hr] at hread
      exact ⟨_, .of_current_none hread.2 hread.1, rfl⟩
  refine h.entered_current rfl rfl hled fun given hout => ?_
  rw [ByteArray.empty_append] at hout
  exact hout ▸ hgives

theorem Record.Fits.entered_decodeTo (h : record.Fits ⟨stream, held⟩) (sink : Sink) :
    ∃ last, Entered (.decodeTo sink) ⟨stream, held⟩ record last := by
  have hdeliver := (metered_led (record.onCurrent stream) sink.taken).decodeTo sink
    (h.holding sink.taken)
  have hled : Holding (Led (record.onCurrent stream) sink.taken
      (StreamDecoder.decodeTo (stream, sink)).state.2.taken)
      (StreamDecoder.decodeTo (stream, sink)).state.1 := by
    cases hr : StreamDecoder.decodeTo (stream, sink) with
    | ok summary after notes =>
      rw [hr] at hdeliver
      exact .of_current_none hdeliver.2.2 hdeliver.1
    | error reason after notes =>
      rw [hr] at hdeliver
      exact .of_current_none hdeliver.2 hdeliver.1
  exact h.entered_current rfl rfl hled fun given hout => hout

/-- A block that is found takes the place of the one held. -/
theorem perform_next (stream : StreamDecoder) (held : Option DecodedBlock) : ∃ result,
    perform .next ⟨stream, held⟩ = (.found result,
      ⟨(StreamDecoder.next stream).state, (found (StreamDecoder.next stream)).or held⟩) := by
  simp only [perform]
  cases StreamDecoder.next stream with
  | error reason after notes => exact ⟨_, rfl⟩
  | ok work after notes => cases work <;> exact ⟨_, rfl⟩

theorem Record.Fits.entered_next (h : record.Fits ⟨stream, held⟩) :
    ∃ last, Entered .next ⟨stream, held⟩ record last := by
  obtain ⟨result, hperform⟩ := perform_next stream held
  refine ⟨⟨record.current, (begunBy stream).or record.held, record.counted,
    record.footer.or (footerAhead stream.bench.2)⟩, ?_, ByteArray.empty, ?_, begunBy stream, ?_, rfl, rfl⟩
  · rw [hperform]
    refine ⟨h.current.trans (keeps_current_next stream).symm, ?_⟩
    rw [Option.map_or, map_begunBy, h.held]
  · rw [hperform]
    rfl
  · rw [hperform]
    exact .asked .none

/-- A call that works on the block held. -/
theorem Record.Fits.entered_held (h : record.Fits ⟨stream, held⟩) {call : Call}
    (hsubject : call.subject = .held)
    (hcurrent : (perform call ⟨stream, held⟩).2.stream.current = stream.current)
    {base out : ByteArray}
    (hled : Led (record.onHeld stream) base out
      (perform call ⟨stream, held⟩).2.stream (perform call ⟨stream, held⟩).2.held)
    (hgives : ∀ given, out = base ++ given → call.Gives (perform call ⟨stream, held⟩).1 given) :
    ∃ last, Entered call ⟨stream, held⟩ record last := by
  obtain ⟨given, ⟨_, work, counted, footer⟩, hout, hmoves, rfl, hwork⟩ := hled
  refine ⟨⟨record.current, work, counted, footer⟩, ⟨h.current.trans hcurrent.symm, hwork⟩, given,
    hgives given hout, ?_⟩
  rw [hsubject]
  exact ⟨hmoves, rfl⟩

theorem Record.Fits.led_held (h : record.Fits ⟨stream, held⟩) (base : ByteArray) :
    Led (record.onHeld stream) base base stream held := by
  have hled := led_first (record.onHeld stream) base
  rwa [Record.onHeld, h.held] at hled

theorem Record.Fits.entered_drainHeld {block : DecodedBlock} (h : record.Fits ⟨stream, some block⟩)
    (sink : Sink) : ∃ last, Entered (.drainHeld sink) ⟨stream, some block⟩ record last := by
  have hdrained := (metered_led (record.onHeld stream) sink.taken).drain sink
    (h.led_held sink.taken)
  obtain ⟨result, left, last, hperform, hled⟩ : ∃ result left last,
      perform (.drainHeld sink) ⟨stream, some block⟩ = (.drained result last, ⟨stream, some left⟩)
        ∧ Led (record.onHeld stream) sink.taken last.taken stream (some left) := by
    -- whether or not the sink fails, the caller keeps what is left of the block
    simp only [perform]
    cases hd : DecodedBlock.drain (block, sink) with
    | ok written left =>
      rw [hd] at hdrained
      exact ⟨_, _, _, rfl, hdrained⟩
    | error reason left =>
      rw [hd] at hdrained
      exact ⟨_, _, _, rfl, hdrained.1⟩
  have hled' : Led (record.onHeld stream) sink.taken last.taken
      (perform (.drainHeld sink) ⟨stream, some block⟩).2.stream
      (perform (.drainHeld sink) ⟨stream, some block⟩).2.held := by
    rw [hperform]
    exact hled
  refine h.entered_held rfl (by rw [hperform]) hled' fun given hout => ?_
  rw [hperform]
  exact hout

theorem Record.Fits.entered_finish {block : DecodedBlock} (h : record.Fits ⟨stream, some block⟩) :
    ∃ last, Entered .finish ⟨stream, some block⟩ record last := by
  have htaken := (metered_led (record.onHeld stream) ByteArray.empty).takenBack
    (h.led_held ByteArray.empty)
  have hled : Led (record.onHeld stream) ByteArray.empty ByteArray.empty
      (StreamDecoder.finish block stream).state none := by
    cases hf : StreamDecoder.finish block stream with
    | ok report after notes => rw [hf] at htaken; exact htaken
    | error reason after notes => rw [hf] at htaken; exact htaken
  exact h.entered_held rfl (keeps_current_finish block stream) hled
    fun given hout => eq_of_append_empty hout

/-- Without a block held, the calls that work on it do nothing. -/
theorem Record.Fits.entered_nothing (h : record.Fits ⟨stream, none⟩) {call : Call}
    (hsubject : call.subject = .held)
    (hperform : perform call ⟨stream, none⟩ = (.nothing, ⟨stream, none⟩)) :
    ∃ last, Entered call ⟨stream, none⟩ record last := by
  have hled := h.led_held ByteArray.empty
  refine h.entered_held hsubject (by rw [hperform]) (by rw [hperform]; exact hled) fun given hout => ?_
  rw [hperform, eq_of_append_empty hout]
  cases call <;> rfl

/-- **Every call goes on record**, be it allowed or not. -/
theorem exists_entered {session : Session} (h : record.Fits session) (call : Call) :
    ∃ last, Entered call session record last := by
  obtain ⟨stream, held⟩ := session
  cases call with
  | read room => exact h.entered_read room
  | decodeTo sink => exact h.entered_decodeTo sink
  | next => exact h.entered_next
  | readHeld room =>
    cases held with
    | none => exact h.entered_nothing rfl rfl
    | some block =>
      have hled := (metered_led (record.onHeld stream) ByteArray.empty).handed room
        ByteArray.append_empty (h.led_held ByteArray.empty)
      refine h.entered_held rfl rfl hled fun given hout => ?_
      rw [ByteArray.empty_append, ByteArray.empty_append] at hout
      exact hout.symm
  | drainHeld sink =>
    cases held with
    | none => exact h.entered_nothing rfl rfl
    | some block => exact h.entered_drainHeld sink
  | finish =>
    cases held with
    | none => exact h.entered_nothing rfl rfl
    | some block => exact h.entered_finish
  | letGo =>
    cases held with
    | none => exact h.entered_nothing rfl rfl
    | some block =>
      exact h.entered_held rfl rfl (h.led_held ByteArray.empty).dropped
        fun given hout => eq_of_append_empty hout

/-- A record may be begun at any time, as if the blocks had just been begun. -/
theorem exists_fits (session : Session) : ∃ record : Record, record.Fits session := by
  have hbegun : ∀ block? : Option DecodedBlock, (block?.map fun block =>
      ((⟨session.stream.bench.2, block, ByteArray.empty⟩ : Trail), block)).map Prod.snd = block? := by
    intro block?
    cases block? <;> rfl
  exact ⟨⟨_, _, [], none⟩, hbegun _, hbegun _⟩

/-- All calls in a row go on record. -/
theorem exists_recorded {session : Session} (h : record.Fits session) (calls : List Call) :
    ∃ last, Recorded calls session record last := by
  induction calls generalizing session record with
  | nil => exact ⟨record, rfl⟩
  | cons call calls ih =>
    obtain ⟨middle, hentered⟩ := exists_entered h call
    obtain ⟨last, hrecorded⟩ := ih hentered.fits
    exact ⟨last, middle, hentered, hrecorded⟩

end Session

end Bunzip

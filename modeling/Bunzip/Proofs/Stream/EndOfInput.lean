import Bunzip.Proofs.Locality.Source
import Bunzip.Proofs.Stream.Calls

/-!
# The end of the input is final

A source without mishaps that has ended stays so. The call that notices leaves less than a field, and
the footer has not been read; so every later call that asks for more fails for the same reason, hands
out nothing and counts nothing.

Of other failures this does not hold. The block is gone, but the reader stands where it stood, and
the next call reads on from there.
-/

namespace Bunzip

/-- What a call is told when the input has ended at the given place. -/
def Call.atEnd (place : Nat) : Call → Answer
  | read 0 => .bytes (.ok ByteArray.empty)
  | read _ => .bytes (.error (.endOfStream place))
  | decodeTo sink => .delivered (.error (.endOfStream place)) sink
  | next => .found (.error (.endOfStream place))
  | _ => .nothing

namespace Session

open StreamDecoder

/-! ## Up to the end -/

/-- The reader stands somewhere, over a source without mishaps. -/
def Steady (stream : StreamDecoder) (_work : Option DecodedBlock) : Prop :=
  ∃ place bits, stream.bench.2.Stands place bits

/-- The reader stands somewhere; and where the input has ended, it is there, short of the footer. -/
def Stopped (reason : DecodeError) (stream : StreamDecoder) : Prop :=
  ∃ place bits, stream.bench.2.Stands place bits ∧ ∀ q, reason = .endOfStream q →
    q = place ∧ bits.length < fieldLimit ∧ stream.stored = none

theorem Steady.stopped {stream : StreamDecoder} {work : Option DecodedBlock} {reason : DecodeError}
    (h : Steady stream work) (hreason : ∀ q, reason ≠ .endOfStream q) : Stopped reason stream := by
  obtain ⟨place, bits, hstands⟩ := h
  exact ⟨place, bits, hstands, fun q hq => absurd hq (hreason q)⟩

theorem Stopped.steady {reason : DecodeError} {stream : StreamDecoder} (h : Stopped reason stream) :
    Steady stream none := by
  obtain ⟨place, bits, hstands, _⟩ := h
  exact ⟨place, bits, hstands⟩

/-- Only before the footer can the input end. -/
theorem stored_of_endOfStream {stream after : StreamDecoder} {q : Nat} {notes : List Note}
    (hnext : StreamDecoder.next stream = .error (.endOfStream q) after notes) :
    after.stored = none := by
  have hasked := asked_next stream
  rw [hnext] at hasked
  cases hasked with
  | stopped hopen => exact hopen

theorem keptUp_steady : KeptUp Steady Stopped where
  asked {stream} h := by
    obtain ⟨place, bits, hstands⟩ := h
    obtain ⟨place', bits', hafter, hended⟩ := local_next.stands
      (⟨rfl, hstands⟩ : view.Stands (withoutReader stream) place bits stream)
    cases hnext : StreamDecoder.next stream with
    | ok found after notes =>
      rw [hnext] at hafter
      exact ⟨place', bits', hafter⟩
    | error reason after notes =>
      rw [hnext] at hafter hended
      refine ⟨place', bits', hafter, fun q hq => ?_⟩
      subst hq
      obtain ⟨hplace, hfew⟩ := hended q rfl
      exact ⟨hplace, hfew, stored_of_endOfStream hnext⟩
  handed _ h := h
  takenBack {stream block} h := by
    have htaken := takenBack_finish block stream
    generalize StreamDecoder.finish block stream = outcome at htaken ⊢
    cases htaken with
    | counted => exact h
    | refused hreason => exact h.stopped hreason
  sinkFailed error h := h.stopped fun _ => nofun
  letGo h := h

/-! ## Behind the end -/

/-- The input has ended at this place, short of the footer, and no block is outstanding. -/
structure Ended (place : Nat) (session : Session) : Prop where
  idle : session.Idle
  stored : session.stream.stored = none
  stands : ∃ bits, session.stream.bench.2.Stands place bits ∧ bits.length < fieldLimit

/-- A session whose books are those of another one. -/
def SameBooks (a b : Session) : Prop :=
  a.stream.reports = b.stream.reports ∧ a.stream.computed = b.stream.computed
    ∧ a.stream.outputLength = b.stream.outputLength

/-- Less than a field is no marker. -/
theorem marker_short {place : Nat} {bits : List Bool} (hfew : bits.length < fieldLimit)
    {reader : BitReader} (h : reader.Stands place bits) :
    ∃ after, marker reader = .error (.endOfStream place) after ∧ after.Stands place bits := by
  obtain ⟨after, hread, hafter⟩ := BitReader.bits_short (by decide) (by decide) hfew h
  refine ⟨after, ?_, hafter⟩
  rw [fieldLimit] at hread
  simp only [marker, Bind.bind, EStateM.bind, hread]

/-- Asking for the next block fails again, and leaves everything but the reader. -/
theorem next_of_ended {place : Nat} {stream : StreamDecoder} (hstored : stream.stored = none)
    {bits : List Bool} (hfew : bits.length < fieldLimit) (h : stream.bench.2.Stands place bits) :
    ∃ reader, StreamDecoder.next stream
        = .error (.endOfStream place) { stream with bench := (stream.bench.1, reader) } []
      ∧ reader.Stands place bits := by
  obtain ⟨reader, hmarker, hreader⟩ := marker_short hfew h
  refine ⟨reader, ?_, hreader⟩
  have hopen : ¬stream.isFinished = true := by rw [isFinished, hstored]; exact Bool.false_ne_true
  rw [StreamDecoder.next, if_neg hopen, readMarked, Op.bind_eq, reading_eq]
  simp only [hmarker]

/-- Where the next block cannot be had, there is nothing to read. -/
theorem read_of_error {stream after : StreamDecoder} {reason : DecodeError} {notes : List Note}
    (hcurrent : stream.current = none)
    (hnext : StreamDecoder.next stream = .error reason after notes) {room : Nat} (hroom : 0 < room) :
    StreamDecoder.read room stream = .error reason after notes := by
  rw [read_eq hroom, hcurrent, current_none hcurrent, readOn, Op.bind_eq, hnext]
  rfl

/-- Nor is there anything to deliver. -/
theorem decodeTo_of_error {stream after : StreamDecoder} {reason : DecodeError} {notes : List Note}
    (hcurrent : stream.current = none)
    (hnext : StreamDecoder.next stream = .error reason after notes) (sink : Sink) :
    StreamDecoder.decodeTo (stream, sink) = .error reason (after, sink) notes := by
  rw [decodeTo_apply, hcurrent, current_none hcurrent, Op.bind_eq, deliverFrom,
    deliverBlocks_error hnext]

/-- **Once the input has ended, every call is told so, and it stays ended.** -/
theorem Ended.perform {place : Nat} {session : Session} (h : session.Ended place) (call : Call) :
    (perform call session).1 = call.atEnd place ∧ (perform call session).2.Ended place
      ∧ SameBooks (perform call session).2 session := by
  obtain ⟨stream, held⟩ := session
  obtain ⟨⟨hheld, hcurrent⟩, hstored, bits, hstands, hfew⟩ := h
  simp only at hheld hcurrent hstored hstands
  subst hheld
  obtain ⟨reader, hnext, hreader⟩ := next_of_ended hstored hfew hstands
  have hsame : Ended place ⟨stream, none⟩ := ⟨⟨rfl, hcurrent⟩, hstored, bits, hstands, hfew⟩
  have hafter : Ended place ⟨{ stream with bench := (stream.bench.1, reader) }, none⟩ :=
    ⟨⟨rfl, hcurrent⟩, hstored, bits, hreader, hfew⟩
  cases call with
  | read room =>
    cases room with
    | zero => exact ⟨rfl, hsame, rfl, rfl, rfl⟩
    | succ room =>
      rw [Session.perform, read_of_error hcurrent hnext (Nat.succ_pos room)]
      exact ⟨rfl, hafter, rfl, rfl, rfl⟩
  | decodeTo sink =>
    rw [Session.perform, decodeTo_of_error hcurrent hnext]
    exact ⟨rfl, hafter, rfl, rfl, rfl⟩
  | next =>
    rw [Session.perform, hnext]
    exact ⟨rfl, hafter, rfl, rfl, rfl⟩
  | readHeld room => exact ⟨rfl, hsame, rfl, rfl, rfl⟩
  | drainHeld sink => exact ⟨rfl, hsame, rfl, rfl, rfl⟩
  | finish => exact ⟨rfl, hsame, rfl, rfl, rfl⟩
  | letGo => exact ⟨rfl, hsame, rfl, rfl, rfl⟩

theorem Ended.after {place : Nat} {session : Session} (h : session.Ended place)
    (calls : List Call) :
    answers calls session = calls.map (Call.atEnd place) ∧ (after calls session).Ended place
      ∧ SameBooks (after calls session) session := by
  induction calls generalizing session with
  | nil => exact ⟨rfl, h, rfl, rfl, rfl⟩
  | cons call calls ih =>
    obtain ⟨hanswer, hended, hreports, hcomputed, houtput⟩ := h.perform call
    obtain ⟨hanswers, hlast, hreports', hcomputed', houtput'⟩ := ih hended
    refine ⟨?_, hlast, hreports'.trans hreports, hcomputed'.trans hcomputed,
      houtput'.trans houtput⟩
    rw [answers, hanswer, hanswers, List.map_cons]

/-! ## Sessions -/

/-- A call that has noticed the end of the input leaves the session there. -/
theorem ended_of_failure {call : Call} {session : Session} {q : Nat}
    (hallowed : call.Allowed session) (hsession : session.Keeps Steady)
    (hfailure : (perform call session).1.failure? = some (.endOfStream q)) :
    (perform call session).2.Ended q := by
  have hkept := kept_perform keptUp_steady hallowed hsession
  obtain ⟨⟨place, bits, hstands, hend⟩, hidle | ⟨_, error, hreason⟩⟩ := hkept.failed _ hfailure
  · obtain ⟨rfl, hfew, hstored⟩ := hend q rfl
    exact ⟨hidle, hstored, bits, hstands, hfew⟩
  · cases hreason

theorem steady_start {source : Source} (hsmooth : source.Smooth) {fresh : StreamDecoder}
    {notes : List Note} (hstart : start source = .ok fresh () notes) (strict : Bool) :
    (opening strict fresh).Keeps Steady := by
  have hopen : BitReader.Stands 0 (Format.bytesBits source.toList) (.ofSource source) :=
    ⟨⟨BitReader.sound_ofSource _, hsmooth, BitReader.upcoming_ofSource source⟩, rfl⟩
  obtain ⟨place, bits, hstands, _⟩ := local_readHeader.stands
    (⟨rfl, hopen⟩ : View.alone.Stands () 0 _ (BitReader.ofSource source))
  obtain ⟨digit, reader, hread, rfl⟩ := opened_of_start hstart
  rw [hread] at hstands
  have hsteady : Steady (opened strict digit reader) none := ⟨place, bits, hstands⟩
  exact .of_current_none rfl hsteady

/--
The end of the input is final. Over a source without mishaps, once a call has failed because the input
has ended, every later call that asks for more fails with the same place; it hands out nothing and
counts nothing, and there is no summary.
-/
theorem endOfStream_final {source : Source} (hsmooth : source.Smooth) {fresh : StreamDecoder}
    {notes : List Note} (hstart : start source = .ok fresh () notes) (strict : Bool)
    {before later : List Call} {call : Call} {q : Nat}
    (hdisciplined : Disciplined (before ++ call :: later) (opening strict fresh))
    (hfailure : (perform call (after before (opening strict fresh))).1.failure?
      = some (.endOfStream q)) :
    answers later (perform call (after before (opening strict fresh))).2
        = later.map (Call.atEnd q)
      ∧ SameBooks (after (before ++ call :: later) (opening strict fresh))
        (perform call (after before (opening strict fresh))).2
      ∧ (after (before ++ call :: later) (opening strict fresh)).stream.summary? = none := by
  obtain ⟨hbefore, hallowed, _⟩ := disciplined_append.mp hdisciplined
  have hsteady := keeps_after keptUp_steady Stopped.steady (steady_start hsmooth hstart strict)
    hbefore
  obtain ⟨hanswers, hended, hbooks⟩ := (ended_of_failure hallowed hsteady hfailure).after later
  rw [after_append, after]
  exact ⟨hanswers, hbooks, by rw [summary?, hended.stored]⟩

/-- A stream without blocks that is cut off inside its footer. -/
def cutFooter : ByteArray := ⟨#[66, 90, 104, 57, 23, 114, 69, 56, 80, 144, 0, 0]⟩

/-- The session that starts on it. -/
def cutFooterStart : Session := opening false (opened false 9 (behindHeader cutFooter))

theorem start_cutFooter : start (.ofBytes cutFooter)
    = .ok (opened false 9 (behindHeader cutFooter)) () [.signature 9] :=
  start_of_readHeader (by cbv)

theorem endOfStream_final_cutFooter :
    (perform (.decodeTo .unbounded) cutFooterStart).1.failure? = some (.endOfStream 96)
      ∧ answers [.next] (perform (.decodeTo .unbounded) cutFooterStart).2
        = [.found (.error (.endOfStream 96))] := by
  have hfailure : (perform (.decodeTo .unbounded) cutFooterStart).1.failure?
      = some (.endOfStream 96) := by decide +kernel
  have hcurrent : (perform (.decodeTo .unbounded) cutFooterStart).2.stream.current = none := by
    decide +kernel
  have hdisciplined : Disciplined ([] ++ .decodeTo .unbounded :: [.next]) cutFooterStart :=
    ⟨rfl, ⟨rfl, hcurrent⟩, trivial⟩
  exact ⟨hfailure, (endOfStream_final (Source.smooth_ofBytes cutFooter) start_cutFooter false
    hdisciplined hfailure).1⟩

/-! ## Other failures -/

/-- A delivery that does not fail has come to the end of the stream. -/
theorem ends_of_failure_none {sink : Sink} {session : Session}
    (h : (perform (.decodeTo sink) session).1.failure? = none) :
    (Call.decodeTo sink).EndsCleanly (perform (.decodeTo sink) session).1 := by
  obtain ⟨stream, held⟩ := session
  rw [perform] at h ⊢
  cases hr : (StreamDecoder.decodeTo (stream, sink)).result with
  | error reason => simp only [hr, Answer.failure?] at h; cases h
  | ok summary => trivial

/-- A stream whose first block has a feature that is not supported. A footer stands behind that. -/
def randomized : ByteArray :=
  ⟨#[66, 90, 104, 57, 49, 65, 89, 38, 83, 89, 0, 0, 0, 0, 139, 185, 34, 156, 40, 72, 0, 0, 0, 0, 0]⟩

/-- The session that starts on it. -/
def randomizedStart : Session := opening false (opened false 9 (behindHeader randomized))

/--
A failure that is not about the end of the input is not final. Here the first delivery fails because
of the first block; the second one reads on behind the bit that the first one failed for, finds a
footer there, and ends cleanly without any blocks.
-/
theorem randomized_goes_on :
    start (.ofBytes randomized) = .ok (opened false 9 (behindHeader randomized)) () [.signature 9]
    ∧ Disciplined [.decodeTo .unbounded, .decodeTo .unbounded] randomizedStart
    ∧ (perform (.decodeTo .unbounded) randomizedStart).1.failure?
      = some (.unsupported "randomized blocks")
    ∧ (Call.decodeTo .unbounded).EndsCleanly
      (perform (.decodeTo .unbounded) (perform (.decodeTo .unbounded) randomizedStart).2).1
    ∧ (after [.decodeTo .unbounded, .decodeTo .unbounded] randomizedStart).stream.summary?
      = some ⟨[], 0, 0, 0⟩ := by
  have hstart : start (.ofBytes randomized)
      = .ok (opened false 9 (behindHeader randomized)) () [.signature 9] :=
    start_of_readHeader (by cbv)
  have hfailure : (perform (.decodeTo .unbounded) randomizedStart).1.failure?
      = some (.unsupported "randomized blocks") := by decide +kernel
  have hclean : (perform (.decodeTo .unbounded)
      (perform (.decodeTo .unbounded) randomizedStart).2).1.failure? = none := by decide +kernel
  refine ⟨hstart, ⟨rfl, rfl, trivial⟩, hfailure, ?_, by decide +kernel⟩
  exact ends_of_failure_none hclean

end Session

end Bunzip

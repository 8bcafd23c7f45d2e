import Bunzip.Proofs.Stream.Calls

/-!
# A footer that does not agree

A strict decoder compares the checksum in the footer with the one that was folded from the blocks. If
they differ, the call that reads the footer fails, and no call before it has ended cleanly. But the
footer counts as read from then on: later calls find the stream at its end and do not compare again.
-/

namespace Bunzip

/-- The call asks how the stream goes on, and nothing else can go wrong with it. -/
def Call.Asks : Call → Prop
  | read room => 0 < room
  | decodeTo sink => sink.flushFault = none
  | next => True
  | _ => False

namespace Session

open StreamDecoder

/-! ## Behind the footer -/

theorem decodeTo_of_isFinished {stream : StreamDecoder} (hfinished : stream.isFinished = true)
    (hcurrent : stream.current = none) (sink : Sink) :
    StreamDecoder.decodeTo (stream, sink) = StreamDecoder.conclude (stream, sink) := by
  have hdeliver : deliverFrom none (stream, sink) = .ok () (stream, sink) [] :=
    deliverBlocks_ended (next_of_isFinished hfinished) sink
  rw [decodeTo_apply, hcurrent, current_none hcurrent, Op.bind_eq, hdeliver]
  simp only [Outcome.after_nil]

/-- Behind the footer a call changes nothing, and if it asks for more, it ends cleanly. -/
theorem perform_over {session : Session} (hidle : session.Idle)
    (hfinished : session.stream.isFinished = true) (call : Call) :
    (perform call session).2 = session
      ∧ (call.Asks → call.EndsCleanly (perform call session).1) := by
  obtain ⟨stream, held⟩ := session
  obtain ⟨hheld, hcurrent⟩ : held = none ∧ stream.current = none := hidle
  subst hheld
  cases call with
  | read room =>
    simp only [perform, read_of_isFinished hfinished hcurrent]
    exact ⟨rfl, fun hroom => ⟨hroom, rfl⟩⟩
  | decodeTo sink =>
    obtain ⟨summary, hsummary⟩ := summary?_of_isFinished hfinished
    simp only [perform, decodeTo_of_isFinished hfinished hcurrent]
    cases hflush : sink.flush with
    | ok _ =>
      rw [conclude_flushed hsummary hflush]
      exact ⟨rfl, fun _ => trivial⟩
    | error error =>
      rw [conclude_refused hflush]
      refine ⟨rfl, fun hnone => ?_⟩
      rw [Sink.flush, show sink.flushFault = none from hnone] at hflush
      cases hflush
  | next =>
    rw [perform, next_of_isFinished hfinished]
    exact ⟨rfl, fun _ => trivial⟩
  | readHeld room => exact ⟨rfl, False.elim⟩
  | drainHeld sink => exact ⟨rfl, False.elim⟩
  | finish => exact ⟨rfl, False.elim⟩
  | letGo => exact ⟨rfl, False.elim⟩

theorem after_over {session : Session} (hidle : session.Idle)
    (hfinished : session.stream.isFinished = true) (calls : List Call) :
    after calls session = session := by
  induction calls with
  | nil => rfl
  | cons call calls ih => rw [after, (perform_over hidle hfinished call).1, ih]

/-- All calls that ask for more end cleanly. -/
theorem ends_of_over {session : Session} (hidle : session.Idle)
    (hfinished : session.stream.isFinished = true) (calls : List Call) :
    ∀ pair ∈ calls.zip (answers calls session), pair.1.Asks → pair.1.EndsCleanly pair.2 := by
  induction calls with
  | nil => exact fun _ hmem => nomatch hmem
  | cons call calls ih =>
    obtain ⟨hsame, hclean⟩ := perform_over hidle hfinished call
    intro pair hmem
    rw [answers, hsame, List.zip_cons_cons] at hmem
    rcases List.mem_cons.mp hmem with rfl | hmem
    · exact hclean
    · exact ih pair hmem

/-! ## Up to the footer -/

/-- A strict stream whose footer agrees if it has been read; then no block is being worked on. -/
def Agreeing (stream : StreamDecoder) (work : Option DecodedBlock) : Prop :=
  stream.strict = true
    ∧ ∀ stored, stream.stored = some stored → stored = stream.computed ∧ work = none

/-- A footer that does not agree is why the call failed. -/
def Told (reason : DecodeError) (stream : StreamDecoder) : Prop :=
  stream.strict = true ∧ ∀ stored, stream.stored = some stored →
    stored = stream.computed ∨ reason = .streamChecksum stored stream.computed

theorem Agreeing.stored_none {stream : StreamDecoder} {block : DecodedBlock}
    (h : Agreeing stream (some block)) : stream.stored = none := by
  cases hstored : stream.stored with
  | none => rfl
  | some stored => exact nomatch (h.2 stored hstored).2

theorem agreeing_of_stored_none {stream : StreamDecoder} {work : Option DecodedBlock}
    (hstrict : stream.strict = true) (hstored : stream.stored = none) : Agreeing stream work :=
  ⟨hstrict, fun _ h => nomatch hstored.symm.trans h⟩

theorem told_of_stored_none {stream : StreamDecoder} {reason : DecodeError}
    (hstrict : stream.strict = true) (hstored : stream.stored = none) : Told reason stream :=
  ⟨hstrict, fun _ h => nomatch hstored.symm.trans h⟩

/-- **A strict stream keeps agreeing, or the one that reads the footer is told.** -/
theorem keptUp_agreeing : KeptUp Agreeing Told where
  asked {stream} h := by
    have hasked := asked_next stream
    generalize StreamDecoder.next stream = outcome at hasked ⊢
    cases hasked with
    | finished => exact h
    | begun hopen => exact agreeing_of_stored_none h.1 hopen
    | ended _ _ hagrees =>
      refine ⟨h.1, fun stored hstored => ?_⟩
      cases hstored
      exact ⟨hagrees h.1, rfl⟩
    | refused =>
      refine ⟨h.1, fun stored hstored => ?_⟩
      cases hstored
      exact .inr rfl
    | stopped hopen => exact told_of_stored_none h.1 hopen
  handed _ h := agreeing_of_stored_none h.1 h.stored_none
  takenBack {stream block} h := by
    have htaken := takenBack_finish block stream
    generalize StreamDecoder.finish block stream = outcome at htaken ⊢
    cases htaken with
    | counted => exact agreeing_of_stored_none h.1 h.stored_none
    | refused => exact told_of_stored_none h.1 h.stored_none
  sinkFailed _ h := ⟨h.1, fun stored hstored => .inl (h.2 stored hstored).1⟩
  letGo h := agreeing_of_stored_none h.1 h.stored_none

/-- After an allowed call the stream still agrees, or the call has failed because it does not. -/
theorem agreeing_or_told {call : Call} {session : Session} (hallowed : call.Allowed session)
    (hsession : session.Keeps Agreeing) :
    (perform call session).2.Keeps Agreeing
    ∨ ∃ stored, (perform call session).2.stream.stored = some stored
      ∧ (perform call session).1.failure?
        = some (.streamChecksum stored (perform call session).2.stream.computed)
      ∧ (perform call session).2.Idle := by
  have hkept := kept_perform keptUp_agreeing hallowed hsession
  cases hfailure : (perform call session).1.failure? with
  | none => exact .inl (hkept.kept hfailure)
  | some reason =>
    obtain ⟨⟨hstrict, htold⟩, hidle | ⟨hkeeps, _⟩⟩ := hkept.failed reason hfailure
    · by_cases hagrees : ∀ stored, (perform call session).2.stream.stored = some stored →
          stored = (perform call session).2.stream.computed
      · left
        have hholds : Agreeing (perform call session).2.stream none :=
          ⟨hstrict, fun stored hstored => ⟨hagrees stored hstored, rfl⟩⟩
        exact .of_held_none hidle.1 (.of_current_none hidle.2 hholds)
      · right
        obtain ⟨stored, hdiffers⟩ := Classical.not_forall.mp hagrees
        obtain ⟨hstored, hne⟩ := Classical.not_imp.mp hdiffers
        rcases htold stored hstored with heq | hreason
        · exact absurd heq hne
        · exact ⟨stored, hstored, by rw [hreason], hidle⟩
    · exact .inl hkeeps

/-- Where the footer does not agree at the end, one of the calls was told. -/
theorem told_of_disagreement {calls : List Call} {session : Session} {stored : UInt32}
    (hsession : session.Keeps Agreeing) (hdisciplined : Disciplined calls session)
    (hstored : (after calls session).stream.stored = some stored)
    (hne : stored ≠ (after calls session).stream.computed) :
    ∃ before call later, calls = before ++ call :: later
      ∧ (∀ pair ∈ before.zip (answers before session), ¬pair.1.EndsCleanly pair.2)
      ∧ (perform call (after before session)).1.failure?
        = some (.streamChecksum stored (after calls session).stream.computed)
      ∧ ∀ pair ∈ later.zip (answers later (perform call (after before session)).2),
        pair.1.Asks → pair.1.EndsCleanly pair.2 := by
  induction calls generalizing session with
  | nil =>
    -- a stream that agrees does not disagree
    have hstored' : ({ session.stream with current := none } : StreamDecoder).stored = some stored :=
      hstored
    exact absurd (hsession.holds.2 stored hstored').1 hne
  | cons call calls ih =>
    obtain ⟨hallowed, hdisciplined⟩ := hdisciplined
    rcases agreeing_or_told hallowed hsession with hkeeps | ⟨other, hother, hfailure, hidle⟩
    · obtain ⟨before, told, later, hcalls, hnone, htold, hlater⟩ :=
        ih hkeeps hdisciplined hstored hne
      refine ⟨call :: before, told, later, by rw [hcalls]; rfl, ?_, htold, hlater⟩
      intro pair hmem hclean
      rw [answers, List.zip_cons_cons] at hmem
      rcases List.mem_cons.mp hmem with rfl | hmem
      · -- had this call ended cleanly, the stream would be as it is now at the end, and agree
        obtain ⟨hfinished, hidle⟩ :=
          (kept_perform keptUp_agreeing hallowed hsession).ended hclean
        have hlast : after (call :: calls) session = (perform call session).2 :=
          after_over hidle hfinished calls
        rw [hlast] at hstored hne
        exact hne (hkeeps.holds.2 stored hstored).1
      · exact hnone pair hmem hclean
    · have hfinished : (perform call session).2.stream.isFinished = true := by
        rw [isFinished, hother]
        rfl
      have hlast : after (call :: calls) session = (perform call session).2 :=
        after_over hidle hfinished calls
      rw [hlast] at hstored ⊢
      rw [hother] at hstored
      cases hstored
      exact ⟨[], call, calls, rfl, fun _ hmem => absurd hmem List.not_mem_nil, hfailure,
        ends_of_over hidle hfinished calls⟩

/-- A strict session at its start. -/
theorem keeps_agreeing_start {source : Source} {fresh : StreamDecoder} {notes : List Note}
    (hstart : start source = .ok fresh () notes) :
    (opening true fresh).Keeps Agreeing := by
  obtain ⟨digit, reader, _, rfl⟩ := opened_of_start hstart
  have hagreeing : Agreeing (opened true digit reader) none := agreeing_of_stored_none rfl rfl
  exact .of_current_none rfl hagreeing

/--
A footer that does not agree is reported, once. Where a strict session has read a footer that differs
from the checksum of the blocks, one of its calls has failed with both of them, and no call before
that one ended cleanly. Every call behind it that asks for more does end cleanly.
-/
theorem told_once {source : Source} {fresh : StreamDecoder} {notes : List Note}
    (hstart : start source = .ok fresh () notes) {calls : List Call} {stored : UInt32}
    (hdisciplined : Disciplined calls (opening true fresh))
    (hstored : (after calls (opening true fresh)).stream.stored = some stored)
    (hne : stored ≠ (after calls (opening true fresh)).stream.computed) :
    ∃ before call later, calls = before ++ call :: later
      ∧ (∀ pair ∈ before.zip (answers before (opening true fresh)),
        ¬pair.1.EndsCleanly pair.2)
      ∧ (perform call (after before (opening true fresh))).1.failure?
        = some (.streamChecksum stored
          (after calls (opening true fresh)).stream.computed)
      ∧ ∀ pair ∈ later.zip
          (answers later (perform call (after before (opening true fresh))).2),
        pair.1.Asks → pair.1.EndsCleanly pair.2 :=
  told_of_disagreement (keeps_agreeing_start hstart) hdisciplined hstored hne

/-- A stream without blocks, whose footer does not agree with that. -/
def wrongFooter : ByteArray := ⟨#[66, 90, 104, 57, 23, 114, 69, 56, 80, 144, 0, 0, 0, 1]⟩

/-- The strict session that starts on it. -/
def wrongFooterStart : Session := opening true (opened false 9 (behindHeader wrongFooter))

theorem start_wrongFooter : start (.ofBytes wrongFooter)
    = .ok (opened false 9 (behindHeader wrongFooter)) () [.signature 9] :=
  start_of_readHeader (by cbv)

/-- The same session after a delivery. -/
def toldWrong : Session := (perform (.decodeTo .unbounded) wrongFooterStart).2

theorem toldWrong_over : toldWrong.stream.stored = some 1 ∧ toldWrong.stream.computed = 0
    ∧ toldWrong.Idle := by
  refine ⟨?_, ?_, rfl, ?_⟩ <;> decide +kernel

theorem told_once_wrongFooter : ∃ before call later,
    [Call.decodeTo .unbounded, .next] = before ++ call :: later
      ∧ (perform call (after before wrongFooterStart)).1.failure?
        = some (.streamChecksum 1 0) := by
  obtain ⟨hstored, hcomputed, hidle⟩ := toldWrong_over
  have hfinished : toldWrong.stream.isFinished = true := by rw [isFinished, hstored]; rfl
  have hlast : after [.decodeTo .unbounded, .next] wrongFooterStart = toldWrong :=
    after_over hidle hfinished [.next]
  have hdisciplined : Disciplined [.decodeTo .unbounded, .next] wrongFooterStart :=
    ⟨rfl, hidle, trivial⟩
  rw [← hlast] at hstored hcomputed
  have hne : 1 ≠ (after [.decodeTo .unbounded, .next] wrongFooterStart).stream.computed := by
    rw [hcomputed]
    decide
  obtain ⟨before, call, later, hcalls, _, htold, _⟩ :=
    told_once start_wrongFooter hdisciplined hstored hne
  refine ⟨before, call, later, hcalls, ?_⟩
  rw [← hcomputed]
  exact htold

/-- Behind the call that was told, every other one finds the stream at a clean end. -/
theorem wrongFooter_ends_cleanly :
    start (.ofBytes wrongFooter)
      = .ok (opened false 9 (behindHeader wrongFooter)) () [.signature 9]
    ∧ Disciplined [.decodeTo .unbounded, .decodeTo .unbounded, .read 1, .next] wrongFooterStart
    ∧ toldWrong.stream.stored = some 1 ∧ toldWrong.stream.computed = 0
    ∧ (Call.decodeTo .unbounded).EndsCleanly (perform (.decodeTo .unbounded) toldWrong).1
    ∧ (Call.read 1).EndsCleanly (perform (.read 1) toldWrong).1
    ∧ Call.next.EndsCleanly (perform .next toldWrong).1 := by
  obtain ⟨hstored, hcomputed, hidle⟩ := toldWrong_over
  have hfinished : toldWrong.stream.isFinished = true := by rw [isFinished, hstored]; rfl
  have hover := perform_over hidle hfinished
  have hdisciplined : Disciplined [.decodeTo .unbounded, .read 1, .next] toldWrong := by
    refine ⟨hidle.1, ?_, ?_⟩
    · rw [(hover _).1]
      exact .inr hidle.1
    · rw [(hover _).1, (hover _).1]
      exact ⟨hidle, trivial⟩
  exact ⟨start_wrongFooter, ⟨rfl, hdisciplined⟩, hstored, hcomputed, (hover _).2 rfl,
    (hover _).2 Nat.one_pos, (hover _).2 trivial⟩

end Session

end Bunzip

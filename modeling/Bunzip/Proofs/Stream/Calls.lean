import Bunzip.Proofs.Stream.Moves

/-!
# Calls in a row

A session is a sequence of calls on one stream decoder, which the caller goes on with whatever they
report. The caller reads piece by piece, has all the rest delivered into a sink, or asks for blocks,
holds one at a time and gives it back.
-/

namespace Bunzip

/-- A stream decoder, and the block that its caller holds, if there is one. -/
structure Session where
  stream : StreamDecoder
  held : Option DecodedBlock

/-- What a caller can do. -/
inductive Call where
  /-- Ask for up to `room` bytes. -/
  | read (room : Nat)
  /-- Have all that is left delivered. -/
  | decodeTo (sink : Sink)
  /-- Ask for the next block, to hold it. -/
  | next
  /-- Take up to `room` bytes out of the block held. -/
  | readHeld (room : Nat)
  /-- Write what is left of the block held into a sink. -/
  | drainHeld (sink : Sink)
  /-- Give back the block held. -/
  | finish
  /-- Forget about the block held. -/
  | letGo

/-- What a caller is told. -/
inductive Answer where
  | bytes (result : Except DecodeError ByteArray)
  | delivered (result : Except DecodeError StreamSummary) (sink : Sink)
  /-- The number of the block that has been found, or none at the footer. -/
  | found (result : Except DecodeError (Option Nat))
  | drained (result : Except DecodeError Nat) (sink : Sink)
  | report (result : Except DecodeError BlockReport)
  /-- There was no block to do it with, or nothing to tell. -/
  | nothing

/-- Why the call failed, if it did. -/
def Answer.failure? : Answer → Option DecodeError
  | bytes (.error reason) => some reason
  | delivered (.error reason) _ => some reason
  | found (.error reason) => some reason
  | drained (.error reason) _ => some reason
  | report (.error reason) => some reason
  | _ => none

/-- The call was told that the stream has come to its end, and that all is well. -/
def Call.EndsCleanly : Call → Answer → Prop
  | read room, .bytes (.ok bytes) => 0 < room ∧ bytes.size = 0
  | decodeTo _, .delivered (.ok _) _ => True
  | next, .found (.ok none) => True
  | _, _ => False

namespace Session

/-- One call. -/
def perform : Call → Session → Answer × Session
  | .read room, ⟨stream, held⟩ =>
    let outcome := StreamDecoder.read room stream
    (.bytes outcome.result, ⟨outcome.state, held⟩)
  | .decodeTo sink, ⟨stream, held⟩ =>
    let outcome := StreamDecoder.decodeTo (stream, sink)
    (.delivered outcome.result outcome.state.2, ⟨outcome.state.1, held⟩)
  | .next, ⟨stream, held⟩ =>
    match StreamDecoder.next stream with
    | .ok (some block) stream _ => (.found (.ok (some block.index)), ⟨stream, some block⟩)
    | .ok none stream _ => (.found (.ok none), ⟨stream, held⟩)
    | .error reason stream _ => (.found (.error reason), ⟨stream, held⟩)
  | .readHeld room, ⟨stream, some block⟩ =>
    (.bytes (.ok (block.read room).1), ⟨stream, some (block.read room).2⟩)
  | .drainHeld sink, ⟨stream, some block⟩ =>
    match DecodedBlock.drain (block, sink) with
    | .ok written (block, sink) => (.drained (.ok written) sink, ⟨stream, some block⟩)
    | .error reason (block, sink) => (.drained (.error reason) sink, ⟨stream, some block⟩)
  | .finish, ⟨stream, some block⟩ =>
    let outcome := StreamDecoder.finish block stream
    (.report outcome.result, ⟨outcome.state, none⟩)
  | .letGo, ⟨stream, some _⟩ => (.nothing, ⟨stream, none⟩)
  | _, ⟨stream, none⟩ => (.nothing, ⟨stream, none⟩)

/-- The session after calls in a row. -/
def after : List Call → Session → Session
  | [], session => session
  | call :: calls, session => after calls (perform call session).2

/-- The answers to calls in a row. -/
def answers : List Call → Session → List Answer
  | [], _ => []
  | call :: calls, session => (perform call session).1 :: answers calls (perform call session).2

/-- A session on a stream that has just been started. -/
def opening (strict : Bool) (fresh : StreamDecoder) : Session := ⟨fresh.setStrict strict, none⟩

/-- No block is held, and none is being read piece by piece. -/
def Idle (session : Session) : Prop := session.held = none ∧ session.stream.current = none

end Session

/--
The next block is asked for only when no block is outstanding, neither held by the caller nor being
read piece by piece. Reading and delivering ask for the next block, too. Before that they take back
the block that is being read piece by piece, so it is only a block held that must not be outstanding.
And a block is given back only when nothing is left of it.
-/
def Call.Allowed : Call → Session → Prop
  | read room, session => room = 0 ∨ session.held = none
  | decodeTo _, session => session.held = none
  | next, session => session.Idle
  | finish, session => ∀ block, session.held = some block → block.isExhausted = true
  | _, _ => True

namespace Session

/-- Each of the calls is allowed when its turn comes. -/
def Disciplined : List Call → Session → Prop
  | [], _ => True
  | call :: calls, session => call.Allowed session ∧ Disciplined calls (perform call session).2

theorem after_append (first second : List Call) (session : Session) :
    after (first ++ second) session = after second (after first session) := by
  induction first generalizing session with
  | nil => rfl
  | cons call first ih => exact ih _

theorem disciplined_append {first second : List Call} {session : Session} :
    Disciplined (first ++ second) session
      ↔ Disciplined first session ∧ Disciplined second (after first session) := by
  induction first generalizing session with
  | nil => exact ⟨fun h => ⟨trivial, h⟩, fun h => h.2⟩
  | cons call first ih =>
    simp only [List.cons_append, Disciplined, after, ih, and_assoc]

/-! ## What all calls keep up -/

open StreamDecoder

variable {holds : StreamDecoder → Option DecodedBlock → Prop}
  {fails : DecodeError → StreamDecoder → Prop}

/-- The block that is outstanding, if there is one. -/
def outstanding (session : Session) : Option DecodedBlock :=
  session.stream.current.or session.held

/-- It holds of the stream and the block that is outstanding, of which there is one at most. -/
structure Keeps (holds : StreamDecoder → Option DecodedBlock → Prop) (session : Session) : Prop where
  single : session.held = none ∨ session.stream.current = none
  holds : holds { session.stream with current := none } session.outstanding

theorem Keeps.of_held_none {session : Session} (hheld : session.held = none)
    (h : Holding holds session.stream) : session.Keeps holds := by
  refine ⟨.inl hheld, ?_⟩
  rw [outstanding, hheld, Option.or_none]
  exact h

theorem Keeps.of_current_none {stream : StreamDecoder} {held : Option DecodedBlock}
    (hcurrent : stream.current = none) (h : holds stream held) :
    Keeps holds ⟨stream, held⟩ := by
  refine ⟨.inr hcurrent, ?_⟩
  rw [outstanding, hcurrent, Option.none_or, current_none hcurrent]
  exact h

theorem Keeps.holding {session : Session} (h : session.Keeps holds) (hheld : session.held = none) :
    Holding holds session.stream := by
  have hall := h.holds
  rw [outstanding, hheld, Option.or_none] at hall
  exact hall

theorem Keeps.with_held {stream : StreamDecoder} {block : DecodedBlock}
    (h : Keeps holds ⟨stream, some block⟩) :
    stream.current = none ∧ holds stream (some block) := by
  rcases h.single with hnone | hcurrent
  · cases hnone
  · have hall := h.holds
    rw [outstanding, hcurrent, Option.none_or, current_none hcurrent] at hall
    exact ⟨hcurrent, hall⟩

/--
What an allowed call keeps up. If the call fails, then what is said of failures holds of the reason;
and no block is outstanding any more, unless a sink has failed for the block held. If the stream comes
to its end, the footer has been read.
-/
structure CallKept (holds : StreamDecoder → Option DecodedBlock → Prop)
    (fails : DecodeError → StreamDecoder → Prop) (call : Call) (answer : Answer)
    (last : Session) : Prop where
  kept : answer.failure? = none → last.Keeps holds
  failed : ∀ reason, answer.failure? = some reason →
    fails reason last.stream
      ∧ (last.Idle ∨ last.Keeps holds ∧ ∃ error, reason = .io error)
  ended : call.EndsCleanly answer → last.stream.isFinished = true ∧ last.Idle

theorem CallKept.of_keeps {call : Call} {answer : Answer} {last : Session}
    (hok : answer.failure? = none) (hclean : ¬call.EndsCleanly answer) (h : last.Keeps holds) :
    CallKept holds fails call answer last :=
  ⟨fun _ => h, fun _ hfail => (nomatch hok.symm.trans hfail), fun hend => absurd hend hclean⟩

theorem kept_read (h : KeptUp holds fails) {room : Nat} {session : Session}
    (hallowed : (Call.read room).Allowed session) (hsession : session.Keeps holds) :
    CallKept holds fails (.read room) (perform (.read room) session).1
      (perform (.read room) session).2 := by
  obtain ⟨stream, held⟩ := session
  rcases Nat.eq_zero_or_pos room with rfl | hroom
  · exact .of_keeps rfl (fun hend => absurd hend.1 (Nat.lt_irrefl 0)) hsession
  obtain rfl : held = none := by
    rcases hallowed with hzero | hheld
    · omega
    · exact hheld
  have hread := h.read hroom (hsession.holding rfl)
  simp only [perform]
  cases hr : StreamDecoder.read room stream with
  | error reason after notes =>
    rw [hr] at hread
    exact ⟨nofun, fun _ hfail => by cases hfail; exact ⟨hread.1, .inl ⟨rfl, hread.2⟩⟩, nofun⟩
  | ok bytes after notes =>
    rw [hr] at hread
    refine ⟨fun _ => .of_held_none rfl hread.1, nofun, fun hend => ?_⟩
    obtain ⟨hfinished, hcurrent⟩ := hread.2 hend.2
    exact ⟨hfinished, rfl, hcurrent⟩

theorem kept_decodeTo (h : KeptUp holds fails) {sink : Sink} {session : Session}
    (hallowed : (Call.decodeTo sink).Allowed session) (hsession : session.Keeps holds) :
    CallKept holds fails (.decodeTo sink) (perform (.decodeTo sink) session).1
      (perform (.decodeTo sink) session).2 := by
  obtain ⟨stream, held⟩ := session
  obtain rfl : held = none := hallowed
  have hdeliver := h.decodeTo (hsession.holding rfl) sink
  simp only [perform]
  cases hr : StreamDecoder.decodeTo (stream, sink) with
  | error reason after notes =>
    rw [hr] at hdeliver
    exact ⟨nofun, fun _ hfail => by cases hfail; exact ⟨hdeliver.1, .inl ⟨rfl, hdeliver.2⟩⟩, nofun⟩
  | ok summary after notes =>
    rw [hr] at hdeliver
    obtain ⟨hholds, hfinished, hcurrent⟩ := hdeliver
    exact ⟨fun _ => .of_current_none hcurrent hholds, nofun, fun _ => ⟨hfinished, rfl, hcurrent⟩⟩

theorem kept_next (h : KeptUp holds fails) {session : Session}
    (hallowed : Call.next.Allowed session) (hsession : session.Keeps holds) :
    CallKept holds fails .next (perform .next session).1 (perform .next session).2 := by
  obtain ⟨stream, held⟩ := session
  obtain ⟨hheld, hcurrent⟩ : held = none ∧ stream.current = none := hallowed
  subst hheld
  have hholds := hsession.holding rfl
  rw [Holding, current_none hcurrent, hcurrent] at hholds
  have hasked := h.asked hholds
  simp only [perform]
  cases hr : StreamDecoder.next stream with
  | error reason after notes =>
    rw [hr] at hasked
    have hcurrent' := (keeps_current_next.of_error hr).trans hcurrent
    refine ⟨fun hfine => ?_, fun _ hfail => ?_, fun hclean => ?_⟩
    · cases hfine
    · cases hfail
      exact ⟨hasked, .inl ⟨rfl, hcurrent'⟩⟩
    · cases hclean
  | ok found after notes =>
    rw [hr] at hasked
    have hcurrent' := (keeps_current_next.of_ok hr).trans hcurrent
    cases found with
    | none =>
      exact ⟨fun _ => .of_current_none hcurrent' hasked, fun _ hfail => (by cases hfail),
        fun _ => ⟨isFinished_of_next hr, rfl, hcurrent'⟩⟩
    | some block => exact .of_keeps rfl id (.of_current_none hcurrent' hasked)

theorem kept_drainHeld (h : KeptUp holds fails) {stream : StreamDecoder} {block : DecodedBlock}
    (hsession : Keeps holds ⟨stream, some block⟩) (sink : Sink) :
    CallKept holds fails (.drainHeld sink) (perform (.drainHeld sink) ⟨stream, some block⟩).1
      (perform (.drainHeld sink) ⟨stream, some block⟩).2 := by
  obtain ⟨hcurrent, hholds⟩ := hsession.with_held
  have hdrained := h.drain sink hholds
  simp only [perform]
  cases hd : DecodedBlock.drain (block, sink) with
  | ok written left =>
    rw [hd] at hdrained
    exact .of_keeps rfl id (.of_current_none hcurrent hdrained)
  | error reason left =>
    rw [hd] at hdrained
    obtain ⟨hleft, error, rfl⟩ := hdrained
    refine ⟨nofun, fun _ hfail => ?_, nofun⟩
    cases hfail
    exact ⟨h.sinkFailed error hleft, .inr ⟨.of_current_none hcurrent hleft, error, rfl⟩⟩

theorem kept_finish (h : KeptUp holds fails) {stream : StreamDecoder} {block : DecodedBlock}
    (hsession : Keeps holds ⟨stream, some block⟩) :
    CallKept holds fails .finish (perform .finish ⟨stream, some block⟩).1
      (perform .finish ⟨stream, some block⟩).2 := by
  obtain ⟨hcurrent, hholds⟩ := hsession.with_held
  have htaken := h.takenBack hholds
  simp only [perform]
  cases hf : StreamDecoder.finish block stream with
  | ok report after notes =>
    rw [hf] at htaken
    have hcurrent' := ((keeps_current_finish _).of_ok hf).trans hcurrent
    exact .of_keeps rfl id (.of_current_none hcurrent' htaken)
  | error reason after notes =>
    rw [hf] at htaken
    have hcurrent' := ((keeps_current_finish _).of_error hf).trans hcurrent
    refine ⟨nofun, fun _ hfail => ?_, nofun⟩
    cases hfail
    exact ⟨htaken, .inl ⟨rfl, hcurrent'⟩⟩

/-- **What all moves keep up, all allowed calls keep up.** -/
theorem kept_perform (h : KeptUp holds fails) {call : Call} {session : Session}
    (hallowed : call.Allowed session) (hsession : session.Keeps holds) :
    CallKept holds fails call (perform call session).1 (perform call session).2 := by
  obtain ⟨stream, held⟩ := session
  -- without a block held, the last four calls do nothing
  cases call with
  | read room => exact kept_read h hallowed hsession
  | decodeTo sink => exact kept_decodeTo h hallowed hsession
  | next => exact kept_next h hallowed hsession
  | readHeld room =>
    cases held with
    | none => exact .of_keeps rfl id hsession
    | some block =>
      obtain ⟨hcurrent, hholds⟩ := hsession.with_held
      exact .of_keeps rfl id (.of_current_none hcurrent (h.handed room hholds))
  | drainHeld sink =>
    cases held with
    | none => exact .of_keeps rfl id hsession
    | some block => exact kept_drainHeld h hsession sink
  | finish =>
    cases held with
    | none => exact .of_keeps rfl id hsession
    | some block => exact kept_finish h hsession
  | letGo =>
    cases held with
    | none => exact .of_keeps rfl id hsession
    | some block =>
      obtain ⟨hcurrent, hholds⟩ := hsession.with_held
      exact .of_keeps rfl id (.of_current_none hcurrent (h.letGo hholds))

/-- Where a failure leaves it, too, it is kept up by all allowed calls in a row. -/
theorem keeps_after (h : KeptUp holds fails)
    (hfails : ∀ {reason stream}, fails reason stream → holds stream none) {calls : List Call}
    {session : Session} (hsession : session.Keeps holds) (hdisciplined : Disciplined calls session) :
    (after calls session).Keeps holds := by
  induction calls generalizing session with
  | nil => exact hsession
  | cons call calls ih =>
    obtain ⟨hallowed, hdisciplined⟩ := hdisciplined
    refine ih ?_ hdisciplined
    have hkept := kept_perform h hallowed hsession
    cases hfailure : (perform call session).1.failure? with
    | none => exact hkept.kept hfailure
    | some reason =>
      obtain ⟨hfailed, hidle | ⟨hkeeps, _⟩⟩ := hkept.failed reason hfailure
      · exact .of_held_none hidle.1 (.of_current_none hidle.2 (hfails hfailed))
      · exact hkeeps

end Session

end Bunzip

import Bunzip.Proofs.Stream.Passing

/-!
# Sinks that take only so much

A stream is delivered in chunks, a block's checksum is looked at only when all of its bytes are out, and
a sink may stop in the middle of a chunk. Even so, what a sink gets and what is reported follow from
what a sink without a bound gets, as if it were written all at once: if that fits, the sink gets it and
the result is the same, and if not, the sink gets as much as fits and its refusal is reported, whatever
else is wrong with the stream behind that place.
-/

namespace Bunzip

namespace Sink

/-- The bytes fit into the sink. -/
def Holds (sink : Sink) (bytes : ByteArray) : Prop :=
  ∀ room, sink.room = some room → bytes.size ≤ room

theorem Holds.write {sink : Sink} {bytes : ByteArray} (h : sink.Holds bytes) :
    (sink.write bytes).1 = .ok () ∧ (sink.write bytes).2.taken = sink.taken ++ bytes := by
  unfold Sink.write
  cases hroom : sink.room with
  | none => exact ⟨rfl, rfl⟩
  | some room =>
    dsimp only
    rw [if_pos (h room hroom)]
    exact ⟨rfl, rfl⟩

theorem write_of_room_lt {sink : Sink} {bytes : ByteArray} {room : Nat} (hroom : sink.room = some room)
    (hlt : room < bytes.size) :
    (sink.write bytes).1 = .error sink.refusal
      ∧ (sink.write bytes).2.taken = sink.taken ++ bytes.extract 0 room := by
  unfold Sink.write
  rw [hroom]
  dsimp only
  rw [if_neg (Nat.not_le.mpr hlt)]
  exact ⟨rfl, rfl⟩

/-- Writing does not change how flushing turns out. -/
theorem flush_write (sink : Sink) (bytes : ByteArray) : (sink.write bytes).2.flush = sink.flush := by
  unfold Sink.write
  cases sink.room with
  | none => rfl
  | some room =>
    dsimp only
    split <;> rfl

end Sink

/-- Decoding into a sink is writing everything at once into it. -/
theorem decodeSource_write (source : Source) (strict : Bool) (sink : Sink) :
    let whole := decodeSource source strict .unbounded
    (decodeSource source strict sink).state = (sink.write whole.state.taken).2
      ∧ (decodeSource source strict sink).result
        = match (sink.write whole.state.taken).1 with
          | .ok () => StreamDecoder.flushed sink whole.result
          | .error error => .error (.io error) := by
  cases hstart : StreamDecoder.start source with
  | error reason fresh notes =>
    -- without a header there is nothing to write
    have hwhole : decodeSource source strict .unbounded = .error reason .unbounded notes := by
      rw [decodeSource, hstart]
    have hempty : sink.write Sink.unbounded.taken = (.ok (), sink) := sink.write_empty
    have hinto : decodeSource source strict sink = .error reason sink notes := by
      rw [decodeSource, hstart]
    rw [hwhole, hinto]
    dsimp only [Outcome.state]
    rw [hempty]
    exact ⟨rfl, rfl⟩
  | ok fresh started notes =>
    have hremains := StreamDecoder.remains_of_start hstart strict
    have hinto : decodeSource source strict sink
        = ((StreamDecoder.decodeTo (fresh.setStrict strict, sink)).withState Prod.snd).after notes := by
      rw [decodeSource, hstart]
    have hflush := sink.flush_write (decodeSource source strict .unbounded).state.taken
    simp only [hinto, Outcome.state_after, Outcome.state_withState, Outcome.result_after,
      Outcome.result_withState]
    rcases hwrite : sink.write (decodeSource source strict .unbounded).state.taken
      with ⟨error | ⟨⟩, last⟩
    · exact hremains.decodeTo_cut hwrite
    · rw [hwrite] at hflush
      obtain ⟨hstate, hresult⟩ := hremains.decodeTo_taken hwrite
      unfold StreamDecoder.flushed at hresult ⊢
      rw [hflush] at hresult
      exact ⟨hstate, hresult⟩

/--
**A short sink cuts the output and nothing else.** If a sink has room for what the source is decoded
to, it gets that, and the result is the same, except that a sink which cannot be flushed is reported
where nothing else is wrong. If it has not, it gets as many bytes as it has room for, and its refusal is
reported, even if the data is bad as well.
-/
theorem decodeSource_shortSink (source : Source) (strict : Bool) (sink : Sink) :
    let whole := decodeSource source strict .unbounded
    let into := decodeSource source strict sink
    (sink.Holds whole.state.taken →
        into.state.taken = sink.taken ++ whole.state.taken
          ∧ (sink.flushFault = none → into.result = whole.result)
          ∧ ∀ error, sink.flushFault = some error → into.result = match whole.result with
            | .ok _ => .error (.io error)
            | .error reason => .error reason)
      ∧ ∀ room, sink.room = some room → room < whole.state.taken.size →
        into.state.taken = sink.taken ++ whole.state.taken.extract 0 room
          ∧ into.result = .error (.io sink.refusal)
          ∧ (DecodeError.io sink.refusal).isDataError = false := by
  intro whole into
  obtain ⟨hstate, hresult⟩ := decodeSource_write source strict sink
  constructor
  · intro hholds
    obtain ⟨htaken, hbytes⟩ := hholds.write
    rw [htaken] at hresult
    refine ⟨(congrArg Sink.taken hstate).trans hbytes, ?_, ?_⟩
    · intro hfault
      refine hresult.trans ?_
      unfold StreamDecoder.flushed Sink.flush
      rw [hfault]
      cases whole.result <;> rfl
    · intro error hfault
      refine hresult.trans ?_
      unfold StreamDecoder.flushed Sink.flush
      rw [hfault]
      cases whole.result <;> rfl
  · intro room hroom hlt
    obtain ⟨hrefused, hbytes⟩ := Sink.write_of_room_lt hroom hlt
    rw [hrefused] at hresult
    exact ⟨(congrArg Sink.taken hstate).trans hbytes, hresult, rfl⟩

/-- Three of the five bytes of two blocks fit, so the first block is cut off before its end. -/
theorem decodeSource_shortSink_twoBlocks :
    let sink : Sink := ⟨ByteArray.empty, some 3, ⟨.storageFull, "full"⟩, none⟩
    let source : Source := .ofBytes (Format.encode 1 StreamDecoder.twoBlocks)
    (decodeSource source true sink).state.taken.data.toList = [97, 98, 97]
      ∧ (decodeSource source true sink).result = .error (.io ⟨.storageFull, "full"⟩) := by
  intro sink source
  obtain ⟨reader, notes, zeros, hread, hopened⟩ :=
    StreamDecoder.opened_encode (Nat.le_refl 1) (by decide) StreamDecoder.twoBlocks
  obtain ⟨_, hstate⟩ := StreamDecoder.decodeSource_of_yields hread (hopened.yields (by decide))
  have hwhole : (decodeSource source true .unbounded).state.taken = ⟨#[97, 98, 97, 98, 99]⟩ := by
    rw [hstate]
    rfl
  obtain ⟨_, hcut⟩ := decodeSource_shortSink source true sink
  obtain ⟨hbytes, hresult, _⟩ := hcut 3 rfl (by rw [hwhole]; decide)
  refine ⟨?_, hresult⟩
  rw [hbytes, hwhole]
  rfl

end Bunzip

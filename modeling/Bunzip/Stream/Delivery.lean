import Bunzip.Stream.Decoder

/-!
# Delivering a stream

There are two ways to get at the bytes of a stream. A sink is given all that is left of it; or the
caller asks for some bytes at a time, and the block they come from is kept in between. The two can be
mixed: what is left of a block that was read in part goes to the sink first.

A block that cannot be delivered is dropped. The decoder stays usable, and goes on behind it.
-/

namespace Bunzip

namespace StreamDecoder

/-! ## Into a sink -/

/-- Writes the rest of a block to a sink and gives the block back to the stream. -/
def deliver (block : DecodedBlock) : Op (StreamDecoder × Sink) BlockReport := fun (stream, sink) =>
  match DecodedBlock.drain (block, sink) with
  | .error reason (_, sink) => .error reason (stream, sink) []
  | .ok _ (block, sink) => (finish block stream).withState fun stream => (stream, sink)

theorem spends_deliver (block : DecodedBlock) :
    Op.Spends (fun state : StreamDecoder × Sink => state.1.bitsLeft) 0 (deliver block) := by
  intro ⟨stream, sink⟩
  simp only [deliver]
  cases DecodedBlock.drain (block, sink) with
  | error reason after => exact Nat.le_refl _
  | ok written after =>
    have spent := spends_finish after.1 stream
    simp only
    cases hf : finish after.1 stream with
    | ok report last notes => rw [hf] at spent; exact spent
    | error reason last notes => rw [hf] at spent; exact spent

/-- Delivers the blocks that have not been begun, up to the footer. -/
def deliverBlocks : Op (StreamDecoder × Sink) Unit := fun (stream, sink) =>
  match found : next stream with
  | .error reason stream notes => .error reason (stream, sink) notes
  | .ok none stream notes => .ok () (stream, sink) notes
  | .ok (some block) begun notes =>
    match delivered : deliver block (begun, sink) with
    | .error reason state more => .error reason state (notes ++ more)
    | .ok _ (done, sink) more =>
      have _begun := bitsLeft_next found
      have _done := (spends_deliver block).of_ok delivered
      (deliverBlocks (done, sink)).after (notes ++ more)
termination_by state => state.1.bitsLeft
decreasing_by
  simp only at _done ⊢
  omega

/-- Takes out the block that is being read piece by piece. -/
def takeCurrent : Op StreamDecoder (Option DecodedBlock) := fun stream =>
  .ok stream.current { stream with current := none } []

/-- Works on the stream only. -/
@[inline] def onStream {α : Type} (op : Op StreamDecoder α) : Op (StreamDecoder × Sink) α :=
  fun (stream, sink) => (op stream).withState fun stream => (stream, sink)

/-- Makes sure that what was delivered has arrived. -/
def flush : Op (StreamDecoder × Sink) Unit := fun (stream, sink) =>
  match sink.flush with
  | .ok () => .ok () (stream, sink) []
  | .error error => .error (.io error) (stream, sink) []

/-- Delivers all that is left of the stream. -/
def decodeTo : Op (StreamDecoder × Sink) StreamSummary := do
  match ← onStream takeCurrent with
  | none => pure ()
  | some block =>
    let _ ← deliver block
  deliverBlocks
  flush
  let (stream, _) ← Op.get
  match stream.summary? with
  | none => Op.fail (.endOfStream stream.position)
  | some summary => return summary

/-! ## Piece by piece -/

/-- Reads from a block, or from the ones after it if nothing is left in it. -/
def readFrom (room : Nat) (block : DecodedBlock) : Op StreamDecoder ByteArray := fun stream =>
  match block.read room with
  | (bytes, block) =>
    if 0 < bytes.size then .ok bytes { stream with current := some block } []
    else
      match finished : finish block stream with
      | .error reason stream notes => .error reason stream notes
      | .ok _ done notes =>
        match found : next done with
        | .error reason stream more => .error reason stream (notes ++ more)
        | .ok none stream more => .ok ByteArray.empty stream (notes ++ more)
        | .ok (some block) begun more =>
          have _done := (spends_finish _).of_ok finished
          have _begun := bitsLeft_next found
          (readFrom room block begun).after (notes ++ more)
termination_by stream => stream.bitsLeft
decreasing_by omega

/-- Reads up to `room` bytes; none only if there is no room or the stream is at its end. -/
def read (room : Nat) : Op StreamDecoder ByteArray := do
  if room = 0 then return ByteArray.empty
  else
    match ← takeCurrent with
    | some block => readFrom room block
    | none => match ← next with
      | none => return ByteArray.empty
      | some block => readFrom room block

end StreamDecoder

/-- Decodes a stream into a sink, and stands by its footer only if `strict`. -/
def decodeSource (source : Source) (strict : Bool) (sink : Sink) : Outcome Sink StreamSummary :=
  match StreamDecoder.start source with
  | .error reason _ notes => .error reason sink notes
  | .ok stream _ notes =>
    ((StreamDecoder.decodeTo (stream.setStrict strict, sink)).withState Prod.snd).after notes

/-- Decodes a stream that is given as a whole. -/
def decodeAll (data : ByteArray) : Outcome Unit ByteArray :=
  match decodeSource (.ofBytes data) false .unbounded with
  | .error reason _ notes => .error reason () notes
  | .ok _ sink notes => .ok sink.taken () notes

end Bunzip

import Bunzip.Proofs.Outcome
import Bunzip.Stream.Delivery

/-!
# One step of a delivery

Delivering into a sink and reading piece by piece both go from block to block. Here is what each of
them does in one step, for every way in which the step can turn out.
-/

namespace Bunzip.StreamDecoder

variable {stream : StreamDecoder}

/-! ## Into a sink -/

/-- Delivers a block that has been begun, if there is one, and then those that have not. -/
def deliverFrom : Option DecodedBlock → Op (StreamDecoder × Sink) Unit
  | none => deliverBlocks
  | some block => do
    let _ ← deliver block
    deliverBlocks

theorem deliverBlocks_error {after : StreamDecoder} {reason : DecodeError} {notes : List Note}
    (hnext : next stream = .error reason after notes) (sink : Sink) :
    deliverBlocks (stream, sink) = .error reason (after, sink) notes := by
  rw [deliverBlocks]
  split <;> rename_i h <;> rw [hnext] at h <;> cases h
  rfl

theorem deliverBlocks_ended {after : StreamDecoder} {notes : List Note}
    (hnext : next stream = .ok none after notes) (sink : Sink) :
    deliverBlocks (stream, sink) = .ok () (after, sink) notes := by
  rw [deliverBlocks]
  split <;> rename_i h <;> rw [hnext] at h <;> cases h
  rfl

theorem deliverBlocks_begun {after : StreamDecoder} {block : DecodedBlock} {notes : List Note}
    (hnext : next stream = .ok (some block) after notes) (sink : Sink) :
    deliverBlocks (stream, sink) = (deliverFrom (some block) (after, sink)).after notes := by
  rw [deliverBlocks, deliverFrom, Op.bind_eq]
  split <;> rename_i h <;> rw [hnext] at h <;> cases h
  split
  · next hdeliver => rw [hdeliver]; rfl
  · next hdeliver => simp only [hdeliver, Outcome.after_after]

/-- What is done once all blocks have been delivered. -/
def conclude : Op (StreamDecoder × Sink) StreamSummary := do
  flush
  let (stream, _) ← Op.get
  match stream.summary? with
  | none => Op.fail (.endOfStream stream.position)
  | some summary => return summary

theorem decodeTo_eq : decodeTo = onStream takeCurrent >>= fun current =>
    deliverFrom current >>= fun _ => conclude := by
  unfold StreamDecoder.decodeTo
  congr 1
  funext current
  cases current with
  | none => rfl
  | some block =>
    exact (Op.bind_assoc (deliver block) (fun _ => deliverBlocks) fun _ => conclude).symm

theorem decodeTo_apply (stream : StreamDecoder) (sink : Sink) :
    decodeTo (stream, sink)
      = (deliverFrom stream.current >>= fun _ => conclude)
          ({ stream with current := none }, sink) := by
  rw [decodeTo_eq, Op.bind_eq]
  simp only [onStream, takeCurrent, Outcome.withState, Outcome.after_nil]

/-- With the footer read, only the sink can still refuse. -/
theorem conclude_flushed {summary : StreamSummary} (h : stream.summary? = some summary) {sink : Sink}
    (hflush : sink.flush = .ok ()) :
    conclude (stream, sink) = .ok summary (stream, sink) [] := by
  rw [conclude, Op.bind_eq, flush]
  simp only [hflush, Op.bind_eq, Op.get, h]
  rfl

theorem conclude_refused {sink : Sink} {error : IoError} (hflush : sink.flush = .error error) :
    conclude (stream, sink) = .error (.io error) (stream, sink) [] := by
  rw [conclude, Op.bind_eq, flush]
  simp only [hflush]

/-! ## Piece by piece -/

/-- Reads from a block that has been begun, or else from the next one. -/
def readOn (room : Nat) : Option DecodedBlock → Op StreamDecoder ByteArray
  | some block => readFrom room block
  | none => do
    match ← next with
    | none => return ByteArray.empty
    | some block => readFrom room block

theorem read_zero (stream : StreamDecoder) : read 0 stream = .ok ByteArray.empty stream [] := rfl

theorem read_eq {room : Nat} (hroom : 0 < room) (stream : StreamDecoder) :
    read room stream
      = (readOn room stream.current { stream with current := none }).after [] := by
  rw [read, if_neg (by omega), Op.bind_eq]
  simp only [takeCurrent]
  cases stream.current <;> rfl

theorem readFrom_some {room : Nat} {block : DecodedBlock} (hsome : 0 < (block.read room).1.size)
    (stream : StreamDecoder) :
    readFrom room block stream
      = .ok (block.read room).1 { stream with current := some (block.read room).2 } [] := by
  rw [readFrom]
  split
  next bytes after taken =>
    simp only [taken] at hsome ⊢
    rw [if_pos hsome]

/-- A block with nothing left is given back, and reading goes on with the next one. -/
theorem readFrom_none {room : Nat} {block : DecodedBlock} (hnone : (block.read room).1.size = 0)
    (stream : StreamDecoder) :
    readFrom room block stream = (do
      let _ ← finish (block.read room).2
      readOn room none : Op StreamDecoder ByteArray) stream := by
  rw [readFrom]
  split
  next bytes after taken =>
    simp only [taken] at hnone ⊢
    rw [if_neg (by omega), Op.bind_eq]
    split
    · next hfinish => simp only [hfinish]
    · next done notes hfinish =>
      simp only [hfinish, readOn, Op.bind_eq]
      split
      · next hnext => simp only [hnext, Outcome.after]
      · next hnext => simp only [hnext, Outcome.after, Pure.pure, List.append_nil]
      · next hnext => simp only [hnext, Outcome.after_after]

end Bunzip.StreamDecoder

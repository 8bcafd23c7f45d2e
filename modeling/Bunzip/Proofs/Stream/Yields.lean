import Bunzip.Proofs.Block.Draining
import Bunzip.Stream.Delivery

/-!
# What a stream still yields

From any state of a stream it is settled which bytes are still to come and how it will end. The
relation `Yields` says so without mentioning how the bytes are asked for: it goes from block to block,
drains each and gives it back. Pushing the bytes into a sink and pulling them piece by piece are then
both compared with it.
-/

namespace Bunzip.StreamDecoder

/-! ## The open block stays out of the way -/

theorem keeps_onBench {τ α : Type} {part : StreamDecoder → τ}
    (h : ∀ stream bench, part { stream with bench } = part stream) (op : Op BlockDecoder.Bench α) :
    Op.Keeps part (onBench op) := by
  intro stream
  simp only [onBench, Outcome.state_withState]
  exact h stream _

theorem keeps_current_next : Op.Keeps current next := by
  have hbench : ∀ {α : Type} (op : Op BlockDecoder.Bench α), Op.Keeps current (onBench op) :=
    fun op => keeps_onBench (fun _ _ => rfl) op
  have hfooter : Op.Keeps current readFooter := by
    refine (hbench _).bind fun stored => (Op.Keeps.modify (by intro _; rfl)).bind fun _ =>
      Op.Keeps.get.bind fun stream => (Op.Keeps.note _).bind fun _ => ?_
    split
    · exact Op.Keeps.pure _
    · split
      · exact Op.Keeps.fail _
      · exact Op.Keeps.note _
  have hmarked : Op.Keeps current readMarked := by
    refine (hbench _).bind fun magic => ?_
    split
    · exact Op.Keeps.get.bind fun _ => (Op.Keeps.note _).bind fun _ =>
        (hbench _).bind fun _ => Op.Keeps.pure _
    · split
      · exact hfooter.bind fun _ => Op.Keeps.pure _
      · exact hbench _
  intro stream
  rw [next]
  split
  · rfl
  · exact hmarked stream

theorem keeps_current_finish (block : DecodedBlock) : Op.Keeps current (finish block) := by
  unfold finish
  split
  · exact Op.Keeps.fail _
  · refine block.keeps_verify.bind fun _ => ?_
    refine (Op.Keeps.modify (by intro _; rfl)).bind fun _ => ?_
    refine Op.Keeps.get.bind fun _ => (Op.Keeps.note _).bind fun _ => ?_
    refine (Op.Keeps.modify (by intro _; rfl)).bind fun _ => ?_
    exact (keeps_onBench (fun _ _ => rfl) _).bind fun _ => Op.Keeps.pure _

/-! ## The end of a stream -/

/-- The footer is on record as soon as its checksum has been read. -/
theorem isFinished_of_readFooter {stream after : StreamDecoder} {notes : List Note}
    (h : readFooter stream = .ok () after notes) : after.isFinished := by
  obtain ⟨stored, read, _, _, _, h, _⟩ := Op.ok_of_bind h
  obtain ⟨_, recorded, _, _, hrecorded, h, _⟩ := Op.ok_of_bind h
  cases hrecorded
  obtain ⟨_, _, _, _, hget, h, _⟩ := Op.ok_of_bind h
  cases hget
  obtain ⟨_, _, _, _, hnote, h, _⟩ := Op.ok_of_bind h
  cases hnote
  split at h
  · cases h
    rfl
  · split at h <;> cases h
    rfl

/-- There is no next block only once the footer has been read. -/
theorem isFinished_of_next {stream after : StreamDecoder} {notes : List Note}
    (h : next stream = .ok none after notes) : after.isFinished := by
  rw [next] at h
  split at h
  · next hfinished =>
    cases h
    exact hfinished
  · obtain ⟨magic, middle, _, _, _, h, _⟩ := Op.ok_of_bind h
    split at h
    · obtain ⟨_, _, _, _, _, h, _⟩ := Op.ok_of_bind h
      obtain ⟨_, _, _, _, _, h, _⟩ := Op.ok_of_bind h
      obtain ⟨_, _, _, _, _, h, _⟩ := Op.ok_of_bind h
      cases h
    · split at h
      · obtain ⟨_, _, _, _, hfooter, h, _⟩ := Op.ok_of_bind h
        cases h
        exact isFinished_of_readFooter hfooter
      · -- a bad marker is no success
        cases h

/-- Once the footer has been read, there is no next block, and asking changes nothing. -/
theorem next_of_isFinished {stream : StreamDecoder} (h : stream.isFinished) :
    next stream = .ok none stream [] := by
  rw [next, if_pos h]

theorem summary?_of_isFinished {stream : StreamDecoder} (h : stream.isFinished) :
    ∃ summary, stream.summary? = some summary := by
  obtain ⟨stored, hstored⟩ := Option.isSome_iff_exists.mp h
  exact ⟨_, by rw [summary?, hstored]⟩

/-! ## What is still to come -/

/--
What a stream still yields, with a block that has been begun or between two blocks: the bytes, and
how it ends.
-/
inductive Yields : Option DecodedBlock → StreamDecoder → List UInt8 →
    Except DecodeError StreamSummary → Prop where
  | failed {stream after : StreamDecoder} {reason : DecodeError} {notes : List Note} :
      next stream = .error reason after notes → Yields none stream [] (.error reason)
  | ended {stream after : StreamDecoder} {summary : StreamSummary} {notes : List Note} :
      next stream = .ok none after notes → after.summary? = some summary →
      Yields none stream [] (.ok summary)
  | begun {stream after : StreamDecoder} {block : DecodedBlock} {notes : List Note}
      {bytes : List UInt8} {result : Except DecodeError StreamSummary} :
      next stream = .ok (some block) after notes → Yields (some block) after bytes result →
      Yields none stream bytes result
  | refused {stream after : StreamDecoder} {block : DecodedBlock} {reason : DecodeError}
      {notes : List Note} :
      finish block.drained.2 stream = .error reason after notes →
      Yields (some block) stream block.drained.1.data.toList (.error reason)
  | finished {stream after : StreamDecoder} {block : DecodedBlock} {report : BlockReport}
      {notes : List Note} {bytes : List UInt8} {result : Except DecodeError StreamSummary} :
      finish block.drained.2 stream = .ok report after notes → Yields none after bytes result →
      Yields (some block) stream (block.drained.1.data.toList ++ bytes) result

/-- It is settled what a stream yields. Each block costs bits, so there are finitely many. -/
theorem exists_yields (current : Option DecodedBlock) (stream : StreamDecoder) :
    ∃ bytes result, Yields current stream bytes result := by
  induction hn : stream.bitsLeft using Nat.strongRecOn generalizing current stream with
  | ind n ih =>
    -- between two blocks: the next one leaves fewer bits
    have hnone : ∀ after : StreamDecoder, after.bitsLeft ≤ n →
        (∀ begun block notes, next after = .ok (some block) begun notes →
          ∃ bytes result, Yields (some block) begun bytes result) →
        ∃ bytes result, Yields none after bytes result := by
      intro after _ hblock
      cases hnext : next after with
      | error reason stopped notes => exact ⟨_, _, .failed hnext⟩
      | ok found done notes =>
        cases found with
        | none =>
          obtain ⟨summary, hsummary⟩ := summary?_of_isFinished (isFinished_of_next hnext)
          exact ⟨_, _, .ended hnext hsummary⟩
        | some block =>
          obtain ⟨bytes, result, h⟩ := hblock _ _ _ hnext
          exact ⟨bytes, result, .begun hnext h⟩
    have hbegun : ∀ (begun : StreamDecoder) (block : DecodedBlock), begun.bitsLeft < n →
        ∃ bytes result, Yields (some block) begun bytes result :=
      fun begun block hless => ih _ hless (some block) begun rfl
    have hbetween : ∀ after : StreamDecoder, after.bitsLeft ≤ n →
        ∃ bytes result, Yields none after bytes result := by
      intro after hle
      refine hnone after hle fun begun block notes hnext => hbegun begun block ?_
      have := bitsLeft_next hnext
      omega
    cases current with
    | none => exact hbetween stream (by omega)
    | some block =>
      cases hfinish : finish block.drained.2 stream with
      | error reason after notes => exact ⟨_, _, .refused hfinish⟩
      | ok report after notes =>
        have hspent := (spends_finish block.drained.2).of_ok hfinish
        obtain ⟨bytes, result, h⟩ := hbetween after (by omega)
        exact ⟨_, _, .finished hfinish h⟩

end Bunzip.StreamDecoder

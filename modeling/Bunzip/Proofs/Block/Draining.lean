import Bunzip.Block.Decoded
import Bunzip.Proofs.ByteString
import Bunzip.Proofs.Outcome

/-!
# Draining a block in pieces

A block may be handed out in pieces of any size, and a run may be cut in two on the way. What is
handed out in the end, and the block that is left, do not depend on how it was cut: two requests in a
row are one request for both together. So a block has one drained form, and every way of emptying it
leads there.
-/

namespace Bunzip

/-! ## Unrolling -/

theorem Expansion.pushMany_add (byte : UInt8) (m n : Nat) (out : ByteArray) :
    pushMany byte (m + n) out = pushMany byte n (pushMany byte m out) := by
  induction m generalizing out with
  | zero => rw [Nat.zero_add, pushMany]
  | succ m ih => rw [Nat.succ_add, pushMany, ih, pushMany]

theorem Expansion.toList_pushMany (byte : UInt8) (n : Nat) (out : ByteArray) :
    (pushMany byte n out).data.toList = out.data.toList ++ List.replicate n byte := by
  induction n generalizing out with
  | zero => rw [pushMany, List.replicate_zero, List.append_nil]
  | succ n ih =>
    rw [pushMany, ih, ByteString.toList_push, List.append_assoc, List.replicate_succ]
    rfl

namespace Unrolled

/-- Nothing is left: no copies are owed and the walk is at its end. -/
def AtEnd (rest : Unrolled) : Prop := rest.owed = 0 ∧ rest.walk.next = none

theorem fill_zero (walk : Walk) (runs : RunLength) (owed : Nat) (copied : UInt8) (out : ByteArray) :
    fill walk runs owed copied 0 out = (out, ⟨walk, runs, owed, copied⟩) := by
  rw [fill, if_pos rfl]

theorem fill_owed (walk : Walk) (runs : RunLength) {owed room : Nat} (copied : UInt8)
    (out : ByteArray) (hroom : room ≠ 0) (howed : 0 < owed) :
    fill walk runs owed copied room out
      = fill walk runs (owed - min owed room) copied (room - min owed room)
          (Expansion.pushMany copied (min owed room) out) := by
  rw [fill, if_neg hroom, if_pos howed]

theorem fill_atEnd {walk : Walk} (h : walk.next = none) (runs : RunLength) (copied : UInt8)
    (room : Nat) (out : ByteArray) :
    fill walk runs 0 copied room out = (out, ⟨walk, runs, 0, copied⟩) := by
  by_cases hroom : room = 0
  · rw [hroom, fill_zero]
  · rw [fill, if_neg hroom, if_neg (Nat.lt_irrefl 0)]
    split
    · rfl
    · next hnext => rw [h] at hnext; cases hnext

theorem fill_literal {walk after : Walk} {byte literal : UInt8} {runs runs' : RunLength} {room : Nat}
    (hnext : walk.next = some (byte, after)) (hpush : runs.push byte = (.literal literal, runs'))
    (copied : UInt8) (out : ByteArray) (hroom : room ≠ 0) :
    fill walk runs 0 copied room out = fill after runs' 0 copied (room - 1) (out.push literal) := by
  rw [fill, if_neg hroom, if_neg (Nat.lt_irrefl 0)]
  split
  · next hnone => rw [hnext] at hnone; cases hnone
  · next hsome =>
    rw [hnext] at hsome
    cases hsome
    rw [hpush]

theorem fill_repeated {walk after : Walk} {byte repeated : UInt8} {runs runs' : RunLength}
    {count room : Nat} (hnext : walk.next = some (byte, after))
    (hpush : runs.push byte = (.repeated repeated count, runs')) (copied : UInt8) (out : ByteArray)
    (hroom : room ≠ 0) :
    fill walk runs 0 copied room out = fill after runs' count repeated room out := by
  rw [fill, if_neg hroom, if_neg (Nat.lt_irrefl 0)]
  split
  · next hnone => rw [hnext] at hnone; cases hnone
  · next hsome =>
    rw [hnext] at hsome
    cases hsome
    rw [hpush]

/-- Filling for two requests together is filling for one after the other. -/
theorem fill_add (walk : Walk) (runs : RunLength) (owed : Nat) (copied : UInt8) (a b : Nat)
    (out : ByteArray) :
    fill walk runs owed copied (a + b) out
      = (let first := fill walk runs owed copied a out
         fill first.2.walk first.2.runs first.2.owed first.2.copied b first.1) := by
  -- along the first request; the second one only matters where the first one ends
  fun_induction fill walk runs owed copied a out with
  | case1 => rw [Nat.zero_add]
  | case2 walk runs owed copied room out more waiting n ih =>
    by_cases hle : owed ≤ room
    · have hn : n = owed := Nat.min_eq_left hle
      have hsum : min owed (room + b) = owed := Nat.min_eq_left (by omega)
      rw [hn] at ih
      rw [fill_owed walk runs copied out (by omega) waiting, hsum, hn, ← ih,
        show room + b - owed = room - owed + b by omega]
    · -- the first request ends inside the copies that are owed
      have hn : n = room := Nat.min_eq_right (by omega)
      rw [hn, Nat.sub_self, fill_zero]
      simp only
      by_cases hb : b = 0
      · rw [hb, Nat.add_zero, fill_zero, fill_owed walk runs copied out more waiting,
          Nat.min_eq_right (by omega), Nat.sub_self, fill_zero]
      · rw [fill_owed walk runs copied out (by omega) waiting,
          fill_owed walk runs copied _ hb (by omega), ← Expansion.pushMany_add,
          show room + min (owed - room) b = min owed (room + b) by omega,
          show owed - room - min (owed - room) b = owed - min owed (room + b) by omega,
          show b - min (owed - room) b = room + b - min owed (room + b) by omega]
  | case3 walk runs owed copied room out more none step =>
    obtain rfl : owed = 0 := by omega
    rw [fill_atEnd step, fill_atEnd step]
  | case4 walk runs owed copied room out more none byte after step literal runs' pushed ih =>
    obtain rfl : owed = 0 := by omega
    rw [fill_literal step pushed copied out (by omega), ← ih,
      show room + b - 1 = room - 1 + b by omega]
  | case5 walk runs owed copied room out more none byte after step count repeated runs' pushed ih =>
    obtain rfl : owed = 0 := by omega
    rw [fill_repeated step pushed copied out (by omega), ← ih]

theorem pushMany_append (byte : UInt8) (n : Nat) (before out : ByteArray) :
    Expansion.pushMany byte n (before ++ out) = before ++ Expansion.pushMany byte n out := by
  apply ByteString.eq_of_toList
  rw [ByteString.toList_append, Expansion.toList_pushMany, Expansion.toList_pushMany,
    ByteString.toList_append, List.append_assoc]

/-- What has been written before only stands in front. -/
theorem fill_append (walk : Walk) (runs : RunLength) (owed : Nat) (copied : UInt8) (room : Nat)
    (before out : ByteArray) :
    fill walk runs owed copied room (before ++ out)
      = (before ++ (fill walk runs owed copied room out).1,
          (fill walk runs owed copied room out).2) := by
  fun_induction fill walk runs owed copied room out with
  | case1 => rw [fill_zero]
  | case2 walk runs owed copied room out more waiting n ih =>
    rw [fill_owed walk runs copied _ more waiting, pushMany_append]
    exact ih
  | case3 walk runs owed copied room out more none step =>
    obtain rfl : owed = 0 := by omega
    rw [fill_atEnd step]
  | case4 walk runs owed copied room out more none byte after step literal runs' pushed ih =>
    obtain rfl : owed = 0 := by omega
    have hpush : (before ++ out).push literal = before ++ out.push literal := by
      apply ByteString.eq_of_toList
      simp
    rw [fill_literal step pushed copied _ more, hpush, ih]
  | case5 walk runs owed copied room out more none byte after step count repeated runs' pushed ih =>
    obtain rfl : owed = 0 := by omega
    rw [fill_repeated step pushed copied _ more, ih]

/-- A request is met in full, or the end is reached. -/
theorem fill_short (walk : Walk) (runs : RunLength) (owed : Nat) (copied : UInt8) (room : Nat)
    (out : ByteArray) :
    (fill walk runs owed copied room out).1.size = out.size + room
      ∨ (fill walk runs owed copied room out).1.size < out.size + room
        ∧ (fill walk runs owed copied room out).2.AtEnd := by
  fun_induction fill walk runs owed copied room out with
  | case1 => exact .inl rfl
  | case2 walk runs owed copied room out more waiting n ih =>
    rw [size_pushMany, show out.size + n + (room - n) = out.size + room by omega] at ih
    exact ih
  | case3 walk runs owed copied room out more none step =>
    exact .inr ⟨by simp only; omega, by simp only; omega, step⟩
  | case4 walk runs owed copied room out more none byte after step literal runs' pushed ih =>
    rw [ByteArray.size_push, show out.size + 1 + (room - 1) = out.size + room by omega] at ih
    exact ih
  | case5 walk runs owed copied room out more none byte after step count repeated runs' pushed ih =>
    exact ih

theorem take_add (a b : Nat) (rest : Unrolled) :
    rest.take (a + b)
      = ((rest.take a).1 ++ ((rest.take a).2.take b).1, ((rest.take a).2.take b).2) := by
  have h := fill_append (rest.take a).2.walk (rest.take a).2.runs (rest.take a).2.owed
    (rest.take a).2.copied b (rest.take a).1 ByteArray.empty
  rw [ByteArray.append_empty] at h
  rw [take, fill_add]
  exact h

theorem take_short (room : Nat) (rest : Unrolled) :
    (rest.take room).1.size = room
      ∨ (rest.take room).1.size < room ∧ (rest.take room).2.AtEnd := by
  have h := fill_short rest.walk rest.runs rest.owed rest.copied room ByteArray.empty
  rw [ByteArray.size_empty, Nat.zero_add] at h
  exact h

theorem AtEnd.take {rest : Unrolled} (h : rest.AtEnd) (room : Nat) :
    rest.take room = (ByteArray.empty, rest) := by
  obtain ⟨walk, runs, owed, copied⟩ := rest
  obtain ⟨howed, hnext⟩ := h
  simp only at howed hnext
  subst howed
  exact fill_atEnd hnext runs copied room ByteArray.empty

end Unrolled

/-! ## Blocks -/

theorem Crc.updateBytes_append (crc : Crc) (a b : ByteArray) :
    crc.updateBytes (a ++ b) = (crc.updateBytes a).updateBytes b := by
  rw [updateBytes, updateBytes, updateBytes, ByteString.foldl_eq, ByteString.foldl_eq,
    ByteString.foldl_eq, ByteString.toList_append, List.foldl_append]

theorem Crc.updateBytes_empty (crc : Crc) : crc.updateBytes ByteArray.empty = crc := by
  rw [updateBytes, ByteString.foldl_eq]
  rfl

namespace DecodedBlock

/-- Two requests in a row are one request for both together. -/
theorem read_add (a b : Nat) (block : DecodedBlock) :
    block.read (a + b)
      = ((block.read a).1 ++ ((block.read a).2.read b).1, ((block.read a).2.read b).2) := by
  simp only [read, Unrolled.take_add, Crc.updateBytes_append, ByteArray.size_append, Nat.add_assoc]

/-- A request that finds nothing left changes nothing. -/
theorem read_atEnd {block : DecodedBlock} (h : block.rest.AtEnd) (room : Nat) :
    block.read room = (ByteArray.empty, block) := by
  simp only [read, h.take, Crc.updateBytes_empty, ByteArray.size_empty, Nat.add_zero]

theorem read_short (room : Nat) (block : DecodedBlock) :
    (block.read room).1.size = room
      ∨ (block.read room).1.size < room ∧ (block.read room).2.rest.AtEnd :=
  block.rest.take_short room

/-- All bytes that a block has left, and the block without them. -/
def drained (block : DecodedBlock) : ByteArray × DecodedBlock := block.read (block.rest.bound + 1)

theorem atEnd_drained (block : DecodedBlock) : block.drained.2.rest.AtEnd := by
  rcases block.read_short (block.rest.bound + 1) with hfull | ⟨_, hend⟩
  · have hbound := block.read_bound (block.rest.bound + 1)
    omega
  · exact hend

/-- Asking for more than everything gives everything. -/
theorem read_of_bound_lt {block : DecodedBlock} {room : Nat} (h : block.rest.bound < room) :
    block.read room = block.drained := by
  obtain ⟨more, rfl⟩ : ∃ more, room = block.rest.bound + 1 + more :=
    ⟨room - (block.rest.bound + 1), by omega⟩
  have hend : (block.read (block.rest.bound + 1)).2.rest.AtEnd := atEnd_drained block
  rw [read_add, read_atEnd hend, ByteArray.append_empty]
  rfl

/-- Whatever has been handed out before, the rest is drained to the same end. -/
theorem drained_read (room : Nat) (block : DecodedBlock) :
    block.drained
      = ((block.read room).1 ++ (block.read room).2.drained.1, (block.read room).2.drained.2) := by
  have hbound := block.read_bound room
  have hmore : block.drained = block.read (room + (block.rest.bound + 1)) :=
    (read_of_bound_lt (by omega)).symm
  have hrest : (block.read room).2.read (block.rest.bound + 1) = (block.read room).2.drained :=
    read_of_bound_lt (by omega)
  rw [hmore, read_add, hrest]

theorem drained_of_atEnd {block : DecodedBlock} (h : block.rest.AtEnd) :
    block.drained = (ByteArray.empty, block) := read_atEnd h _

theorem atEnd_of_read_empty {room : Nat} {block : DecodedBlock} (hroom : 0 < room)
    (h : (block.read room).1.size = 0) : (block.read room).2.rest.AtEnd := by
  rcases block.read_short room with hfull | ⟨_, hend⟩
  · omega
  · exact hend

/-- A request that hands out nothing has drained the block. -/
theorem drained_of_read_empty {room : Nat} {block : DecodedBlock} (hroom : 0 < room)
    (h : (block.read room).1.size = 0) : block.drained = (ByteArray.empty, (block.read room).2) := by
  have hend := atEnd_of_read_empty hroom h
  have hnone : (block.read room).1 = ByteArray.empty := ByteArray.size_eq_zero_iff.mp h
  rw [drained_read room block, drained_of_atEnd hend, hnone, ByteArray.empty_append]

end DecodedBlock

/-! ## Into a sink -/

namespace Sink

/-- A sink that takes everything, and where flushing succeeds. -/
structure Accepting (sink : Sink) : Prop where
  room : sink.room = none
  flushFault : sink.flushFault = none

/-- The sink after it has taken some bytes. -/
def push (sink : Sink) (bytes : ByteArray) : Sink := { sink with taken := sink.taken ++ bytes }

theorem accepting_unbounded : unbounded.Accepting := ⟨rfl, rfl⟩

theorem Accepting.push {sink : Sink} (h : sink.Accepting) (bytes : ByteArray) :
    (sink.push bytes).Accepting := ⟨h.room, h.flushFault⟩

/-- A sink without a bound takes every write. -/
theorem write_of_room_none {sink : Sink} (h : sink.room = none) (bytes : ByteArray) :
    sink.write bytes = (.ok (), sink.push bytes) := by
  obtain ⟨taken, room, refusal, flushFault⟩ := sink
  obtain rfl : room = none := h
  rfl

theorem Accepting.write {sink : Sink} (h : sink.Accepting) (bytes : ByteArray) :
    sink.write bytes = (.ok (), sink.push bytes) := write_of_room_none h.room bytes

theorem Accepting.flush {sink : Sink} (h : sink.Accepting) : sink.flush = .ok () := by
  rw [Sink.flush, h.flushFault]

/-- A sink takes all bytes of a write, or the first of them and refuses the others. -/
theorem exists_taken_write (sink : Sink) (bytes : ByteArray) :
    ∃ arrived lost, arrived ++ lost = bytes ∧ (sink.write bytes).2.taken = sink.taken ++ arrived := by
  unfold write
  cases sink.room with
  | none => exact ⟨bytes, ByteArray.empty, ByteArray.append_empty, rfl⟩
  | some room =>
    by_cases hfits : bytes.size ≤ room
    · simp only [if_pos hfits]
      exact ⟨bytes, ByteArray.empty, ByteArray.append_empty, rfl⟩
    · simp only [if_neg hfits]
      refine ⟨bytes.extract 0 room, bytes.extract room bytes.size, ?_, rfl⟩
      rw [ByteArray.extract_append_extract, Nat.zero_min, Nat.max_eq_right (by omega),
        ByteArray.extract_zero_size]

/-- A write of no bytes always fits. -/
theorem write_empty (sink : Sink) : sink.write ByteArray.empty = (.ok (), sink) := by
  obtain ⟨taken, room, refusal, flushFault⟩ := sink
  cases room with
  | none => simp only [write, ByteArray.append_empty]
  | some room =>
    simp only [write, ByteArray.size_empty, Nat.zero_le, if_pos, ByteArray.append_empty,
      Nat.sub_zero]

/-- Once the first bytes have been taken, the others are written as if on their own. -/
theorem write_append_of_ok {sink mid : Sink} {a : ByteArray} (h : sink.write a = (.ok (), mid))
    (b : ByteArray) : sink.write (a ++ b) = mid.write b := by
  obtain ⟨taken, room, refusal, flushFault⟩ := sink
  cases room with
  | none =>
    cases h
    simp only [write, ByteArray.append_assoc]
  | some room =>
    simp only [write] at h
    by_cases hfits : a.size ≤ room
    · rw [if_pos hfits] at h
      cases h
      have hall : a.extract 0 room = a := by
        rw [← Nat.max_eq_left hfits, ByteArray.extract_zero_max_size]
      simp only [write, ByteArray.size_append, ByteArray.append_assoc, ByteArray.extract_append,
        Nat.zero_sub, hall, show a.size + b.size ≤ room ↔ b.size ≤ room - a.size by omega,
        Nat.sub_add_eq]
    · rw [if_neg hfits] at h
      cases h

/-- A sink that has refused some bytes does not get to those behind them. -/
theorem write_append_of_error {sink last : Sink} {a : ByteArray} {error : IoError}
    (h : sink.write a = (.error error, last)) (b : ByteArray) :
    sink.write (a ++ b) = (.error error, last) := by
  obtain ⟨taken, room, refusal, flushFault⟩ := sink
  cases room with
  | none => cases h
  | some room =>
    simp only [write] at h
    by_cases hfits : a.size ≤ room
    · rw [if_pos hfits] at h
      cases h
    · rw [if_neg hfits] at h
      have hnone : b.extract 0 (room - a.size) = ByteArray.empty := by
        rw [show room - a.size = 0 by omega, ByteArray.extract_same]
      simp only [write, ByteArray.size_append, ByteArray.extract_append, Nat.zero_sub, hnone,
        ByteArray.append_empty, if_neg (by omega : ¬a.size + b.size ≤ room)]
      exact h

end Sink

namespace DecodedBlock

theorem drainBy_some {chunk written : Nat} {block : DecodedBlock} {sink sink' : Sink}
    (hsome : 0 < (block.read chunk).1.size)
    (hwrite : sink.write (block.read chunk).1 = (.ok (), sink')) :
    drainBy chunk written block sink
      = drainBy chunk (written + (block.read chunk).1.size) (block.read chunk).2 sink' := by
  rw [drainBy]
  split
  next bytes after taken =>
    simp only [taken] at hsome hwrite ⊢
    rw [dif_pos hsome, hwrite]

theorem drainBy_refused {chunk : Nat} (written : Nat) {block : DecodedBlock} {sink sink' : Sink}
    {error : IoError} (hsome : 0 < (block.read chunk).1.size)
    (hwrite : sink.write (block.read chunk).1 = (.error error, sink')) :
    drainBy chunk written block sink = .error (.io error) ((block.read chunk).2, sink') := by
  rw [drainBy]
  split
  next bytes after taken =>
    simp only [taken] at hsome hwrite ⊢
    rw [dif_pos hsome, hwrite]

theorem drainBy_none {chunk : Nat} {block : DecodedBlock} (written : Nat) (sink : Sink)
    (hnone : (block.read chunk).1.size = 0) :
    drainBy chunk written block sink = .ok written ((block.read chunk).2, sink) := by
  rw [drainBy]
  split
  next bytes after taken =>
    simp only [taken] at hnone ⊢
    rw [dif_neg (by omega)]

/-- If a sink would take all that the block has left at once, it does so in chunks of whatever size. -/
theorem drainBy_taken {chunk : Nat} (hchunk : 0 < chunk) (written : Nat) {block : DecodedBlock}
    {sink last : Sink} (h : sink.write block.drained.1 = (.ok (), last)) :
    drainBy chunk written block sink
      = .ok (written + block.drained.1.size) (block.drained.2, last) := by
  induction hn : block.rest.bound using Nat.strongRecOn generalizing written block sink with
  | ind n ih =>
    by_cases hsome : 0 < (block.read chunk).1.size
    · have hless : (block.read chunk).2.rest.bound < n := by
        have hbound := block.read_bound chunk
        omega
      rw [drained_read chunk block] at h ⊢
      rcases hwrite : sink.write (block.read chunk).1 with ⟨error | ⟨⟩, mid⟩
      · rw [Sink.write_append_of_error hwrite] at h
        cases h
      · rw [Sink.write_append_of_ok hwrite] at h
        rw [drainBy_some hsome hwrite, ih _ hless _ h rfl, ByteArray.size_append, Nat.add_assoc]
    · have hnone : (block.read chunk).1.size = 0 := by omega
      rw [drainBy_none written sink hnone]
      rw [drained_of_read_empty hchunk hnone] at h ⊢
      rw [Sink.write_empty] at h
      cases h
      rfl

/-- If a sink would refuse some of what the block has left, it refuses the same in chunks. -/
theorem drainBy_cut {chunk : Nat} (hchunk : 0 < chunk) (written : Nat) {block : DecodedBlock}
    {sink last : Sink} {error : IoError} (h : sink.write block.drained.1 = (.error error, last)) :
    ∃ after, drainBy chunk written block sink = .error (.io error) (after, last) := by
  induction hn : block.rest.bound using Nat.strongRecOn generalizing written block sink with
  | ind n ih =>
    by_cases hsome : 0 < (block.read chunk).1.size
    · have hless : (block.read chunk).2.rest.bound < n := by
        have hbound := block.read_bound chunk
        omega
      rw [drained_read chunk block] at h
      rcases hwrite : sink.write (block.read chunk).1 with ⟨error' | ⟨⟩, mid⟩
      · rw [Sink.write_append_of_error hwrite] at h
        cases h
        exact ⟨_, drainBy_refused written hsome hwrite⟩
      · rw [Sink.write_append_of_ok hwrite] at h
        rw [drainBy_some hsome hwrite]
        exact ih _ hless _ h rfl
    · have hnone : (block.read chunk).1.size = 0 := by omega
      rw [drained_of_read_empty hchunk hnone, Sink.write_empty] at h
      cases h

theorem drain_taken {block : DecodedBlock} {sink last : Sink}
    (h : sink.write block.drained.1 = (.ok (), last)) :
    drain (block, sink) = .ok block.drained.1.size (block.drained.2, last) := by
  have hdrain := drainBy_taken (Nat.le_max_left 1 _ : 0 < block.chunkSize) 0 h
  rw [Nat.zero_add] at hdrain
  exact hdrain

theorem drain_cut {block : DecodedBlock} {sink last : Sink} {error : IoError}
    (h : sink.write block.drained.1 = (.error error, last)) :
    ∃ after, drain (block, sink) = .error (.io error) (after, last) :=
  drainBy_cut (Nat.le_max_left 1 _ : 0 < block.chunkSize) 0 h

/-- A sink that takes everything gets all that the block has left. -/
theorem drain_accepting (block : DecodedBlock) {sink : Sink} (hsink : sink.Accepting) :
    drain (block, sink)
      = .ok block.drained.1.size (block.drained.2, sink.push block.drained.1) :=
  drain_taken (hsink.write _)

/-! ## Comparing the checksums -/

theorem verify_eq {σ : Type} (block : DecodedBlock) (state : σ) :
    block.verify state = if block.crc.value = block.stored then
        .ok block.stored state [.checked block.index block.stored block.crc.value]
      else .error (.blockChecksum block.index block.stored block.crc.value) state
        [.checked block.index block.stored block.crc.value] := by
  rw [verify, Op.bind_eq]
  by_cases hagrees : block.crc.value = block.stored
  · rw [if_pos hagrees]
    simp only [Op.note, hagrees, ne_eq, not_true_eq_false, if_false]
    rfl
  · rw [if_neg hagrees]
    simp only [Op.note, ne_eq, hagrees, not_false_eq_true, if_true]
    rfl

/-- Comparing the checksums leaves everything as it is. -/
theorem keeps_verify {σ τ : Type} {part : σ → τ} (block : DecodedBlock) :
    Op.Keeps part (block.verify : Op σ UInt32) := by
  refine (Op.Keeps.note _).bind fun _ => ?_
  split
  · exact Op.Keeps.fail _
  · exact Op.Keeps.pure _

end DecodedBlock

end Bunzip

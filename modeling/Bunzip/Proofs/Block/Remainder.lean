import Bunzip.Proofs.Block.Draining
import Bunzip.Proofs.Format.RunLength
import Bunzip.Proofs.Rotation.Links

/-!
# What a block has left

What is left of a block are the copies that are owed and then whatever the rest of its walk unrolls to.
Handing out bytes takes them from the front of that, and nothing else: neither where a request ends, in
the middle of a run or in front of its count, nor how many requests there were makes a difference.
-/

namespace Bunzip

namespace Walk

/-- The bytes that a way still spells. -/
def bytes (walk : Walk) : List UInt8 :=
  match _step : walk.next with
  | none => []
  | some (byte, after) => byte :: after.bytes
termination_by walk.remaining
decreasing_by
  have := remaining_next _step
  omega

theorem bytes_of_none {walk : Walk} (h : walk.next = none) : walk.bytes = [] := by
  rw [bytes]
  split
  · rfl
  · next hsome => rw [h] at hsome; cases hsome

theorem bytes_of_next {walk after : Walk} {byte : UInt8} (h : walk.next = some (byte, after)) :
    walk.bytes = byte :: after.bytes := by
  rw [bytes]
  split
  · next hnone => rw [h] at hnone; cases hnone
  · next hsome =>
    rw [h] at hsome
    cases hsome
    rfl

/-- A way that can be followed to its end spells what is found there. -/
theorem bytes_of_follow {n : Nat} {walk last : Walk} {bytes : List UInt8}
    (h : walk.follow n = some (bytes, last)) (hlast : last.remaining = 0) : walk.bytes = bytes := by
  induction n generalizing walk bytes with
  | zero =>
    cases h
    exact bytes_of_none (next_of_remaining_eq_zero hlast)
  | succ n ih =>
    rw [follow] at h
    cases hnext : walk.next with
    | none => rw [hnext] at h; cases h
    | some found =>
      obtain ⟨byte, after⟩ := found
      rw [hnext] at h
      cases hrest : after.follow n with
      | none => simp only [hrest] at h; cases h
      | some found =>
        obtain ⟨later, last'⟩ := found
        simp only [hrest] at h
        cases h
        rw [bytes_of_next hnext, ih hrest]

end Walk

namespace Unrolled

/-- The bytes that have not been handed out. -/
def left (rest : Unrolled) : List UInt8 :=
  List.replicate rest.owed rest.copied ++ rest.runs.unroll rest.walk.bytes

/-- What is written and what is left make up what was there before. -/
theorem fill_left (walk : Walk) (runs : RunLength) (owed : Nat) (copied : UInt8) (room : Nat)
    (out : ByteArray) :
    (fill walk runs owed copied room out).1.data.toList
        ++ (fill walk runs owed copied room out).2.left
      = out.data.toList ++ (⟨walk, runs, owed, copied⟩ : Unrolled).left := by
  fun_induction fill walk runs owed copied room out with
  | case1 => rfl
  | case2 walk runs owed copied room out more waiting n ih =>
    have hcopies : List.replicate n copied ++ List.replicate (owed - n) copied
        = List.replicate owed copied := by
      rw [List.replicate_append_replicate, Nat.add_sub_of_le (Nat.min_le_left owed room)]
    rw [ih, Expansion.toList_pushMany, left, left, List.append_assoc,
      ← List.append_assoc (List.replicate n copied), hcopies]
  | case3 => rfl
  | case4 walk runs owed copied room out more none byte after step literal runs' pushed ih =>
    obtain rfl : owed = 0 := by omega
    rw [ih, ByteString.toList_push, left, left]
    simp only [List.replicate_zero, List.nil_append, Walk.bytes_of_next step, RunLength.unroll,
      pushed, List.append_assoc, List.singleton_append]
  | case5 walk runs owed copied room out more none byte after step count repeated runs' pushed ih =>
    obtain rfl : owed = 0 := by omega
    rw [ih, left, left]
    simp only [List.replicate_zero, List.nil_append, Walk.bytes_of_next step, RunLength.unroll,
      pushed]

theorem AtEnd.left {rest : Unrolled} (h : rest.AtEnd) : rest.left = [] := by
  rw [Unrolled.left, h.1, Walk.bytes_of_none h.2]
  rfl

theorem take_left (room : Nat) (rest : Unrolled) :
    (rest.take room).1.data.toList ++ (rest.take room).2.left = rest.left :=
  fill_left rest.walk rest.runs rest.owed rest.copied room ByteArray.empty

end Unrolled

namespace DecodedBlock

/-- The bytes that a block has not handed out. -/
def left (block : DecodedBlock) : List UInt8 := block.rest.left

theorem read_left (room : Nat) (block : DecodedBlock) :
    (block.read room).1.data.toList ++ (block.read room).2.left = block.left :=
  block.rest.take_left room

/-- Bytes are handed out from the front of what is left. -/
theorem toList_read (room : Nat) (block : DecodedBlock) :
    (block.read room).1.data.toList = block.left.take room := by
  have hleft := block.read_left room
  rcases block.read_short room with hfull | ⟨hshort, hend⟩
  · rw [← hleft, List.take_left' (by rw [← ByteString.size_eq_length]; exact hfull)]
  · have hnone : (block.read room).2.left = [] := hend.left
    rw [hnone, List.append_nil] at hleft
    rw [← hleft, List.take_of_length_le (by rw [← ByteString.size_eq_length]; omega)]

theorem left_read (room : Nat) (block : DecodedBlock) :
    (block.read room).2.left = block.left.drop room := by
  have hleft := block.read_left room
  rw [toList_read] at hleft
  exact List.append_cancel_left (hleft.trans (List.take_append_drop room block.left).symm)

theorem toList_drained (block : DecodedBlock) : block.drained.1.data.toList = block.left := by
  have hnone : block.drained.2.left = [] := block.atEnd_drained.left
  have hleft := block.read_left (block.rest.bound + 1)
  rw [drained] at hnone ⊢
  rw [hnone, List.append_nil] at hleft
  exact hleft

/-- What a block unrolls to that has handed out nothing yet. -/
theorem left_of_start {block : DecodedBlock} {walk : Walk} (h : block.rest = .start walk) :
    block.left = RunLength.start.unroll walk.bytes := by
  rw [left, h]
  rfl

end DecodedBlock

end Bunzip

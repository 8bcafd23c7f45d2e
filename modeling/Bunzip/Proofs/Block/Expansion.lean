import Bunzip.Block.Unrolled
import Bunzip.Proofs.Block.Draining
import Bunzip.Proofs.Histogram
import Bunzip.Proofs.MoveToFront

/-!
# Expanding symbols stays within bounds

Whatever symbols of the alphabet arrive, the column does not outgrow its limit, the histogram counts
exactly the bytes of the column, and the numbers that a run is counted with stay close to the limit.
So the counters do not overflow, and no rank or number is out of range.
-/

namespace Bunzip.Expansion

/-- What holds of every expansion whose ranks name bytes in use. -/
structure Sound (limit used : Nat) (e : Expansion) : Prop where
  recent : e.recent.Within used
  column : e.column.size ≤ limit
  counts : ∀ byte, e.counts.count byte = e.column.data.toList.count byte
  run : e.run ≤ limit
  weight : e.weight ≤ e.run + 1

variable {limit : Nat} {used : Array UInt8} {e : Expansion}

theorem sound_start {n : Nat} (hn : n ≤ 256) : start.Sound limit n :=
  ⟨MoveToFront.within_start hn, Nat.zero_le _, fun byte => Histogram.count_empty byte,
    Nat.zero_le _, Nat.le_refl 1⟩

theorem Sound.resume {n : Nat} (h : e.Sound limit n) (hn : n ≤ 256) :
    (resume e.column e.counts).Sound limit n :=
  ⟨MoveToFront.within_start hn, h.column, h.counts, Nat.zero_le _, Nat.le_refl 1⟩

/-- An expansion that goes wrong has overflowed; nothing worse happens. -/
def Fine (limit used : Nat) : Except Halt Expansion → Prop
  | .ok e => e.Sound limit used
  | .error halt => halt = .overflow

/-- Appending copies of a byte and counting them keeps the histogram true. -/
theorem count_pushMany {counts : Histogram} {column : ByteArray}
    (h : ∀ byte, counts.count byte = column.data.toList.count byte) (byte : UInt8) (n : Nat)
    (other : UInt8) :
    (counts.add byte n).count other = (pushMany byte n column).data.toList.count other := by
  rw [Histogram.count_add, toList_pushMany, List.count_append, List.count_replicate, h other]
  by_cases hb : other = byte
  · rw [if_pos hb, if_pos (by simp [hb])]
  · rw [if_neg hb, if_neg (by simpa using fun he => hb he.symm), Nat.add_zero]

/-- As the occurrences of a byte are no more than the bytes of the column, they can be counted. -/
theorem Sound.tally (h : e.Sound limit used.size) (hlimit : limit < 2 ^ 24) (byte : UInt8) {n : Nat}
    (hn : e.column.size + n ≤ limit) : e.tally byte n = .ok (e.counts.add byte n) := by
  have hcount : e.counts.count byte ≤ e.column.size := by
    rw [h.counts, ByteString.size_eq_length]
    exact List.count_le_length
  rw [Expansion.tally, if_neg]
  simp only [countLimit, UInt32.size]
  omega

theorem byteAt_eq {number : UInt8} (h : number.toNat < used.size) :
    byteAt used number = .ok used[number.toNat] := by
  rw [byteAt, Array.getElem?_eq_getElem h]

theorem Sound.digit (h : e.Sound limit used.size) (hlimit : limit < 2 ^ 24) {symbol : Nat}
    (hsymbol : symbol < 2) : Fine limit used.size (digit limit symbol e) := by
  have hrun := h.run
  have hweight := h.weight
  have hpow : 2 ^ symbol = 1 ∨ 2 ^ symbol = 2 := by
    rcases (by omega : symbol = 0 ∨ symbol = 1) with rfl | rfl <;> decide
  have hdigit : e.weight ≤ e.weight * 2 ^ symbol ∧ e.weight * 2 ^ symbol ≤ e.weight * 2 := by
    rcases hpow with hp | hp <;> rw [hp] <;> omega
  simp only [Expansion.digit, Nat.shiftLeft_eq]
  rw [if_neg (by simp only [runLimit, UInt64.size]; omega)]
  by_cases hover : limit < e.run + e.weight * 2 ^ symbol
  · rw [if_pos hover]
    rfl
  · rw [if_neg hover]
    exact ⟨h.recent, h.column, h.counts, by simp only; omega, by simp only; omega⟩

/-- The run has been appended, or there was none. -/
theorem Sound.settle (h : e.Sound limit used.size) (hlimit : limit < 2 ^ 24) (hused : 0 < used.size) :
    Fine limit used.size (settle limit used e) := by
  by_cases hnone : e.run = 0
  · rw [Expansion.settle, if_pos hnone]
    exact h
  rw [Expansion.settle, if_neg hnone]
  by_cases hover : limit < e.column.size + e.run
  · rw [if_pos hover]
    rfl
  obtain ⟨number, hfront, hnumber⟩ := h.recent.front hused
  simp only [if_neg hover, hfront, byteAt_eq hnumber, h.tally hlimit _ (Nat.le_of_not_lt hover)]
  refine ⟨h.recent, ?_, count_pushMany h.counts _ _, Nat.zero_le _, Nat.le_refl 1⟩
  simp only [Unrolled.size_pushMany]
  omega

theorem Sound.literal (h : e.Sound limit used.size) (hlimit : limit < 2 ^ 24) {rank : Nat}
    (hrank : rank < used.size) : Fine limit used.size (literal limit used rank e) := by
  by_cases full : limit ≤ e.column.size
  · rw [Expansion.literal, if_pos full]
    rfl
  obtain ⟨number, recent, hpromote, hnumber, hrecent⟩ := h.recent.promote hrank
  have htally := h.tally hlimit used[number.toNat] (by omega : e.column.size + 1 ≤ limit)
  simp only [Expansion.literal, if_neg full, hpromote, byteAt_eq hnumber, htally]
  refine ⟨hrecent, ?_, ?_, h.run, h.weight⟩
  · simp only [ByteArray.size_push]
    omega
  · exact count_pushMany h.counts _ 1

/-! ## Taking in symbols -/

theorem push_digit_eq {symbol : Nat} (hdigit : symbol < 2) (e : Expansion) :
    push limit used symbol e = step (Expansion.digit limit symbol) e := by
  rw [push, if_pos hdigit]

/-- A symbol that is not a digit settles the run before it. -/
theorem push_rank_eq {symbol : Nat} (hdigit : ¬symbol < 2) (e : Expansion) :
    push limit used symbol e = match Expansion.settle limit used e with
      | .error halt => .error halt e
      | .ok settled => if symbol = endSymbol used.size then .ok () settled
        else step (Expansion.literal limit used (symbol - 1)) settled := by
  rw [push, if_neg hdigit]
  simp only [Bind.bind, EStateM.bind, step]
  cases Expansion.settle limit used e with
  | error halt => rfl
  | ok settled =>
    simp only
    split <;> rfl

/-- A symbol that goes wrong has overflowed. Also then the column is within its limit. -/
def Taken (limit used : Nat) : EStateM.Result Halt Expansion Unit → Prop
  | .ok _ e => e.Sound limit used
  | .error halt e => halt = .overflow ∧ e.Sound limit used

theorem Sound.step {f : Expansion → Except Halt Expansion} (h : e.Sound limit used.size)
    (hfine : Fine limit used.size (f e)) : Taken limit used.size (step f e) := by
  unfold Expansion.step
  cases hf : f e with
  | error halt => rw [hf] at hfine; exact ⟨hfine, h⟩
  | ok after => rw [hf] at hfine; exact hfine

/-- Every symbol of the alphabet is taken in, or the column would outgrow its limit. -/
theorem Sound.push (h : e.Sound limit used.size) (hlimit : limit < 2 ^ 24) (hused : 0 < used.size)
    {symbol : Nat} (hsymbol : symbol < used.size + 2) :
    Taken limit used.size (push limit used symbol e) := by
  by_cases hdigit : symbol < 2
  · rw [push_digit_eq hdigit]
    exact h.step (h.digit hlimit hdigit)
  rw [push_rank_eq hdigit]
  have hsettle := h.settle hlimit hused
  cases hs : Expansion.settle limit used e with
  | error halt => rw [hs] at hsettle; exact ⟨hsettle, h⟩
  | ok settled =>
    rw [hs] at hsettle
    by_cases hend : symbol = endSymbol used.size
    · simp only [if_pos hend]
      exact hsettle
    · simp only [if_neg hend]
      simp only [endSymbol] at hend
      exact Sound.step hsettle (Sound.literal hsettle hlimit (by omega))

end Bunzip.Expansion

import Mathlib

/-!
# Numbers as bits

A number of so many bits is written with its most significant bit first, and the bits of bytes in a
row are one string, in which byte boundaries do not matter.
-/

namespace Bunzip.Format

/-! ## Writing numbers -/

/-- The lowest `n` bits of a number, the most significant first. -/
def bitsOf : (n value : Nat) → List Bool
  | 0, _ => []
  | n + 1, value => value.testBit n :: bitsOf n value

theorem length_bitsOf (n value : Nat) : (bitsOf n value).length = n := by
  induction n with
  | zero => rfl
  | succ n ih => rw [bitsOf, List.length_cons, ih]

theorem bitsOf_add (m n value : Nat) :
    bitsOf (m + n) value = bitsOf m (value / 2 ^ n) ++ bitsOf n value := by
  induction m with
  | zero => rw [Nat.zero_add, bitsOf, List.nil_append]
  | succ m ih =>
    rw [Nat.succ_add_eq_add_succ, Nat.add_succ, bitsOf, bitsOf, ih, List.cons_append,
      Nat.testBit_div_two_pow]

theorem bitsOf_mod {m n : Nat} (h : n ≤ m) (value : Nat) :
    bitsOf n (value % 2 ^ m) = bitsOf n value := by
  induction n with
  | zero => rfl
  | succ n ih =>
    rw [bitsOf, bitsOf, ih (by omega), Nat.testBit_mod_two_pow, decide_eq_true (by omega),
      Bool.true_and]

theorem bitsOf_one (bit : Bool) : bitsOf 1 bit.toNat = [bit] := by
  cases bit <;> rfl

/-- The leading bits of a number and the next one are its leading bits, one more. -/
theorem div_two_pow_succ (value n : Nat) :
    value / 2 ^ (n + 1) * 2 + (value.testBit n).toNat = value / 2 ^ n := by
  rw [Nat.testBit_eq_decide_div_mod_eq, Nat.pow_succ, ← Nat.div_div_eq_div_mul]
  by_cases hbit : value / 2 ^ n % 2 = 1
  · rw [decide_eq_true hbit, Bool.toNat_true]
    omega
  · rw [decide_eq_false hbit, Bool.toNat_false]
    omega

/-- A number is put together from its two halves. -/
theorem shiftLeft_or_mod (value n : Nat) : (value / 2 ^ n) <<< n ||| value % 2 ^ n = value := by
  rw [← Nat.shiftLeft_add_eq_or_of_lt (Nat.mod_lt _ (Nat.two_pow_pos n)), Nat.shiftLeft_eq,
    Nat.mul_comm, Nat.div_add_mod]

/-- The number that bits stand for, the first of them most significant. -/
def numberOf (bits : List Bool) : Nat := bits.foldl (fun value bit => 2 * value + bit.toNat) 0

theorem numberOf_bitsOf {n value : Nat} (h : value < 2 ^ n) :
    numberOf (bitsOf n value) = value := by
  have hfold : ∀ start, (bitsOf n value).foldl (fun value bit => 2 * value + bit.toNat) start
      = start * 2 ^ n + value % 2 ^ n := by
    clear h
    induction n with
    | zero => intro start; rw [bitsOf, List.foldl_nil]; omega
    | succ n ih =>
      intro start
      rw [bitsOf, List.foldl_cons, ih]
      have hdigit : value % 2 ^ (n + 1) = (value.testBit n).toNat * 2 ^ n + value % 2 ^ n := by
        rw [Nat.mod_pow_succ, Nat.toNat_testBit, Nat.mul_comm, Nat.add_comm]
      rw [hdigit, Nat.add_mul, Nat.pow_succ]
      ring
  rw [numberOf, hfold, Nat.zero_mul, Nat.zero_add, Nat.mod_eq_of_lt h]

/-- The bits of bytes in a row. -/
def bytesBits (bytes : List UInt8) : List Bool := bytes.flatMap fun byte => bitsOf 8 byte.toNat

theorem length_bytesBits (bytes : List UInt8) : (bytesBits bytes).length = 8 * bytes.length := by
  induction bytes with
  | nil => rfl
  | cons byte bytes ih =>
    rw [bytesBits, List.flatMap_cons, List.length_append, length_bitsOf, ← bytesBits, ih,
      List.length_cons]
    omega

end Bunzip.Format

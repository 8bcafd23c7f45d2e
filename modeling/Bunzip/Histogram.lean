/-!
# Histograms of bytes

How often each byte value occurs, and where the occurrences of a value start when equal bytes are
put next to each other in ascending order.
-/

namespace Bunzip

/-- A count for each byte value. -/
structure Histogram where
  counts : Vector Nat 256
  deriving DecidableEq

namespace Histogram

/-- No occurrences. -/
def empty : Histogram := ⟨Vector.replicate 256 0⟩

/-- The count of a byte value. -/
@[inline] def count (histogram : Histogram) (byte : UInt8) : Nat := histogram.counts.get byte.toFin

/-- Counts `n` further occurrences of a byte value. -/
@[inline] def add (histogram : Histogram) (byte : UInt8) (n : Nat) : Histogram :=
  let before := histogram.count byte
  ⟨histogram.counts.set byte.toNat (before + n) byte.toNat_lt⟩

/-- The occurrences in a byte string. -/
def ofBytes (bytes : ByteArray) : Histogram := bytes.foldl (fun histogram b => histogram.add b 1) empty

/-- How many occurrences there are in all. -/
def total (histogram : Histogram) : Nat := histogram.counts.toList.foldr (· + ·) 0

/-- The sums of the numbers before each place, and `sum`. -/
def sumsBefore : List Nat → (sum : Nat) → List Nat
  | [], _ => []
  | n :: rest, sum => sum :: sumsBefore rest (sum + n)

theorem length_sumsBefore (ns : List Nat) (sum : Nat) : (sumsBefore ns sum).length = ns.length := by
  induction ns generalizing sum with
  | nil => rfl
  | cons n rest ih => simp [sumsBefore, ih]

/-- For each byte value the number of occurrences of smaller ones. -/
def starts (histogram : Histogram) : Histogram :=
  ⟨⟨(sumsBefore histogram.counts.toList 0).toArray, by simp [length_sumsBefore]⟩⟩

end Histogram

end Bunzip

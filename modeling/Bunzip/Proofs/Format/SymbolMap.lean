import Bunzip.SymbolMap
import Bunzip.Proofs.Format.Reads
import Bunzip.Proofs.Histogram

/-!
# Symbol maps are read as they were written

A map marks the bytes that occur in a byte string, so reading it gives these bytes in ascending
order.
-/

namespace Bunzip

namespace Format

open Histogram

/-- The bytes that occur in a byte string, in ascending order. -/
def usedBytes (s : List UInt8) : List UInt8 := allBytes.filter fun byte => byte ∈ s

theorem length_usedBytes (s : List UInt8) : (usedBytes s).length ≤ 256 :=
  Nat.le_trans (List.length_filter_le _ _)
    (Nat.le_of_eq (by rw [allBytes, List.length_map, List.length_range]))

theorem mem_usedBytes {s : List UInt8} {byte : UInt8} : byte ∈ usedBytes s ↔ byte ∈ s := by
  rw [usedBytes, List.mem_filter, decide_eq_true_iff]
  exact ⟨And.right, fun h => ⟨mem_allBytes byte, h⟩⟩

/-- The word of `n` bits whose bit at place `i`, counted from the top, is flag `i`. -/
def wordOf : (n : Nat) → (flags : Nat → Bool) → Nat
  | 0, _ => 0
  | n + 1, flags => wordOf n flags * 2 + (flags n).toNat

/-- Whether a byte of the given range of sixteen occurs. -/
def rangeUsed (s : List UInt8) (range : Nat) : Bool :=
  (List.range 16).any fun i => UInt8.ofNat (16 * range + i) ∈ s

/-- The word for a range of sixteen bytes. -/
def rangeWord (s : List UInt8) (range : Nat) : Nat :=
  wordOf 16 fun i => UInt8.ofNat (16 * range + i) ∈ s

/-- The ranges of sixteen bytes in which one occurs. -/
def usedRanges (s : List UInt8) : List Nat := (List.range 16).filter (rangeUsed s)

/-- The symbol map for the bytes that occur. -/
def writeSymbolMap (s : List UInt8) : List Bool :=
  bitsOf 16 (wordOf 16 (rangeUsed s))
    ++ (usedRanges s).flatMap fun range => bitsOf 16 (rangeWord s range)

theorem wordOf_lt (n : Nat) (flags : Nat → Bool) : wordOf n flags < 2 ^ n := by
  induction n with
  | zero => exact Nat.one_pos
  | succ n ih =>
    have hbit : (flags n).toNat ≤ 1 := (flags n).toNat_le
    rw [wordOf, Nat.pow_succ]
    omega

theorem testBit_wordOf {n i : Nat} (h : i < n) (flags : Nat → Bool) :
    (wordOf n flags).testBit (n - 1 - i) = flags i := by
  induction n with
  | zero => omega
  | succ n ih =>
    have hbit : (flags n).toNat ≤ 1 := (flags n).toNat_le
    rw [wordOf]
    by_cases hlast : i = n
    · subst hlast
      rw [show i + 1 - 1 - i = 0 by omega, Nat.testBit_zero]
      cases flags i <;> simp only [Bool.toNat_false, Bool.toNat_true, decide_eq_true_eq,
        decide_eq_false_iff_not] <;> omega
    · rw [show n + 1 - 1 - i = (n - 1 - i) + 1 by omega, Nat.testBit_succ,
        show (wordOf n flags * 2 + (flags n).toNat) / 2 = wordOf n flags by omega,
        ih (by omega)]

end Format

open Format Histogram

namespace SymbolMap

theorem places_wordOf (flags : Nat → Bool) :
    places (wordOf 16 flags) = (List.range 16).filter flags := by
  rw [places]
  exact List.filter_congr fun i hi => testBit_wordOf (List.mem_range.mp hi) flags

theorem reads_readWords (words : List Nat) (h : ∀ word ∈ words, word < 2 ^ 16) :
    (readWords words.length).Reads (words.flatMap fun word => bitsOf 16 word) words := by
  induction words with
  | nil => exact Read.Reads.pure []
  | cons word words ih =>
    have hrest := ih fun other hmem => h other (List.mem_cons_of_mem _ hmem)
    exact (BitReader.reads_number (by decide) (by decide) (h word List.mem_cons_self)).bind
      (hrest.map (word :: ·))

theorem valuesIn_map (ranges : List Nat) (word : Nat → Nat) :
    valuesIn ranges (ranges.map word)
      = ranges.flatMap fun range => (places (word range)).map (16 * range + ·) := by
  induction ranges with
  | nil => rfl
  | cons range ranges ih => rw [List.map_cons, valuesIn, ih, List.flatMap_cons]

/-- What is left out contributes nothing. -/
theorem flatMap_filter {α β : Type} (p : α → Bool) (f : α → List β) (items : List α)
    (h : ∀ item, p item = false → f item = []) : (items.filter p).flatMap f = items.flatMap f := by
  induction items with
  | nil => rfl
  | cons item items ih =>
    rw [List.flatMap_cons]
    cases hp : p item with
    | true => rw [List.filter_cons_of_pos hp, List.flatMap_cons, ih]
    | false => rw [List.filter_cons_of_neg (by simp [hp]), ih, h item hp, List.nil_append]

theorem range_mul (m n : Nat) :
    List.range (m * n) = (List.range n).flatMap fun i => (List.range m).map (m * i + ·) := by
  induction n with
  | zero => rfl
  | succ n ih =>
    rw [Nat.mul_succ, List.range_add, ih, List.range_succ, List.flatMap_append, List.flatMap_cons,
      List.flatMap_nil, List.append_nil]

/-- The values that the written words mark are the bytes that occur. -/
theorem values_words (s : List UInt8) :
    values (wordOf 16 (rangeUsed s) :: (usedRanges s).map (rangeWord s)) = usedBytes s := by
  have hnone : ∀ range, rangeUsed s range = false →
      ((List.range 16).filter fun i => UInt8.ofNat (16 * range + i) ∈ s).map (16 * range + ·)
        = [] := by
    intro range hunused
    rw [rangeUsed, List.any_eq_false] at hunused
    rw [List.map_eq_nil_iff, List.filter_eq_nil_iff]
    exact hunused
  rw [values, places_wordOf, ← usedRanges, valuesIn_map]
  simp only [rangeWord, places_wordOf]
  rw [usedRanges, flatMap_filter _ _ _ hnone, usedBytes, allBytes,
    range_mul 16 16, List.map_flatMap, List.map_flatMap, List.filter_flatMap]
  congr 1
  funext range
  rw [List.map_map, List.map_map, List.filter_map]
  rfl

theorem reads_read {s : List UInt8} (hs : s ≠ []) :
    Op.Reads BitReader.At read (writeSymbolMap s) (usedBytes s) := by
  have hindex : wordOf 16 (rangeUsed s) < 2 ^ 16 := wordOf_lt 16 _
  have hwords := reads_readWords ((usedRanges s).map (rangeWord s)) (by
    intro word hmem
    obtain ⟨range, _, rfl⟩ := List.mem_map.mp hmem
    exact wordOf_lt 16 _)
  rw [List.length_map, List.flatMap_map] at hwords
  have hmap : readMap.Reads (writeSymbolMap s)
      (wordOf 16 (rangeUsed s) :: (usedRanges s).map (rangeWord s)) := by
    refine (BitReader.reads_number (by decide) (by decide) hindex).bind ?_
    rw [places_wordOf, ← usedRanges]
    exact hwords.map (wordOf 16 (rangeUsed s) :: ·)
  have hsome : (usedBytes s).isEmpty = false := by
    obtain ⟨byte, hbyte⟩ := List.exists_mem_of_ne_nil s hs
    exact List.isEmpty_eq_false_iff.mpr (List.ne_nil_of_mem (mem_usedBytes.mpr hbyte))
  have hlast : Op.Reads BitReader.At (do
      Op.noteAll ((wordOf 16 (rangeUsed s) :: (usedRanges s).map (rangeWord s)).map Note.symbolWord)
      let found := values (wordOf 16 (rangeUsed s) :: (usedRanges s).map (rangeWord s))
      if found.isEmpty then Op.read (BitReader.corrupt .noSymbols) else return found)
      [] (usedBytes s) := by
    refine (Op.Reads.noteAll _).then ?_
    simp only [values_words, hsome, Bool.false_eq_true, if_false]
    exact Op.Reads.pure _
  rw [← List.append_nil (writeSymbolMap s)]
  exact hmap.op.bind hlast

end SymbolMap

end Bunzip

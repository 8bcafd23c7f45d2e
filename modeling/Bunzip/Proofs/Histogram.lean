import Bunzip.Histogram
import Bunzip.Proofs.ByteString

/-!
# What a histogram counts

The histogram of a column holds the number of occurrences of each byte, and its running sums tell
where the occurrences of a byte start once equal bytes stand next to each other.
-/

namespace Bunzip.Histogram

theorem count_eq (histogram : Histogram) {byte : UInt8} (inside : byte.toNat < 256) :
    histogram.count byte = histogram.counts[byte.toNat] := rfl

theorem count_empty (byte : UInt8) : empty.count byte = 0 := by
  rw [count_eq _ byte.toNat_lt, empty, Vector.getElem_replicate]

theorem count_add (histogram : Histogram) (byte other : UInt8) (n : Nat) :
    (histogram.add byte n).count other
      = if other = byte then histogram.count other + n else histogram.count other := by
  by_cases h : other = byte
  · subst h
    rw [if_pos rfl, count_eq _ other.toNat_lt, add, Vector.getElem_set_self]
  · have hne : byte.toNat ≠ other.toNat := fun he => h (UInt8.toNat_inj.mp he.symm)
    rw [if_neg h, count_eq _ other.toNat_lt, add, Vector.getElem_set_ne _ _ hne,
      count_eq _ other.toNat_lt]

/-- Counting goes on from whatever has been counted. -/
theorem count_foldl_add (bytes : List UInt8) (histogram : Histogram) (byte : UInt8) :
    (bytes.foldl (fun histogram b => histogram.add b 1) histogram).count byte
      = histogram.count byte + bytes.count byte := by
  induction bytes generalizing histogram with
  | nil => rfl
  | cons b bytes ih =>
    rw [List.foldl_cons, ih, count_add, List.count_cons]
    by_cases h : byte = b
    · rw [if_pos h, h, if_pos (beq_self_eq_true b)]
      omega
    · rw [if_neg h, if_neg (by simpa using fun he => h he.symm), Nat.add_zero]

theorem count_ofBytes (bytes : ByteArray) (byte : UInt8) :
    (ofBytes bytes).count byte = bytes.data.toList.count byte := by
  rw [ofBytes, ByteString.foldl_eq, count_foldl_add, count_empty, Nat.zero_add]

/-- Every byte value, in ascending order. -/
def allBytes : List UInt8 := (List.range 256).map UInt8.ofNat

theorem mem_allBytes (byte : UInt8) : byte ∈ allBytes :=
  List.mem_map.mpr ⟨byte.toNat, List.mem_range.mpr byte.toNat_lt, UInt8.ofNat_toNat⟩

theorem sorted_allBytes : allBytes.Pairwise (· < ·) := by
  refine List.pairwise_map.mpr (List.pairwise_lt_range.imp_of_mem ?_)
  intro i j _ hj hij
  have hlt : j < UInt8.size := List.mem_range.mp hj
  rw [UInt8.lt_iff_toNat_lt, UInt8.toNat_ofNat_of_lt' hlt,
    UInt8.toNat_ofNat_of_lt' (Nat.lt_trans hij hlt)]
  exact hij

/-- A histogram is determined by its counts. -/
theorem counts_eq_map (histogram : Histogram) :
    histogram.counts.toList = allBytes.map histogram.count := by
  refine List.ext_getElem (by simp [allBytes]) fun i hi hj => ?_
  have hlt : i < 256 := by simpa using hi
  have hcount := histogram.count_eq (UInt8.ofNat i).toNat_lt
  simp only [UInt8.toNat_ofNat', Nat.reducePow, Nat.mod_eq_of_lt hlt] at hcount
  simp only [allBytes, List.map_map, List.getElem_map, List.getElem_range, Function.comp_apply,
    hcount, Vector.getElem_toList]

/-! ## Running sums -/

theorem getElem_sumsBefore (ns : List Nat) (sum i : Nat) (h : i < (sumsBefore ns sum).length) :
    (sumsBefore ns sum)[i] = sum + (ns.take i).sum := by
  induction ns generalizing sum i with
  | nil => simp [sumsBefore] at h
  | cons n ns ih =>
    cases i with
    | zero => simp [sumsBefore]
    | succ i =>
      simp only [sumsBefore, List.getElem_cons_succ, List.take_succ_cons, List.sum_cons]
      rw [ih]
      omega

theorem take_allBytes (n : Nat) (h : n ≤ 256) : allBytes.take n = (List.range n).map UInt8.ofNat := by
  rw [allBytes, ← List.map_take, List.take_range, Nat.min_eq_left h]

/-- The occurrences of a byte start after those of all smaller ones. -/
theorem count_starts (histogram : Histogram) (byte : UInt8) :
    histogram.starts.count byte
      = (((List.range byte.toNat).map UInt8.ofNat).map histogram.count).sum := by
  have hlt : byte.toNat < 256 := byte.toNat_lt
  have hinside : byte.toNat < (sumsBefore histogram.counts.toList 0).length := by
    rw [length_sumsBefore, Vector.length_toList]
    exact hlt
  have hget : histogram.starts.count byte
      = (sumsBefore histogram.counts.toList 0)[byte.toNat] := rfl
  rw [hget, getElem_sumsBefore, Nat.zero_add, counts_eq_map, ← List.map_take,
    take_allBytes _ (Nat.le_of_lt hlt)]

end Bunzip.Histogram

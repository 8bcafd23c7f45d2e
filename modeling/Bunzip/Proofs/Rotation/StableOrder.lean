import Bunzip.Proofs.Histogram
import Bunzip.RotationLinks

/-!
# The stable order of a column

Putting equal bytes of a column next to each other, in ascending order of the bytes and without
changing the order of equal ones, is a permutation of its rows. It is given here twice: as the list
of the rows in their new order, and as the slot that each row moves to. The counting sort works with
slots, the transform with the list.
-/

namespace Bunzip.RotationLinks

open Histogram

/-- The rows of a column that hold a byte, in ascending order. -/
def rowsOf (column : List UInt8) (byte : UInt8) : List Nat :=
  (List.range column.length).filter fun i => column[i]? = some byte

/-- All rows of a column in the stable order of their bytes. -/
def stableRows (column : List UInt8) : List Nat := allBytes.flatMap (rowsOf column)

/-- Row `i` comes before row `j` in the stable order. -/
def Before (column : List UInt8) (i j : Nat) : Prop :=
  ∃ a b, column[i]? = some a ∧ column[j]? = some b ∧ (a < b ∨ a = b ∧ i < j)

theorem mem_rowsOf {column : List UInt8} {byte : UInt8} {i : Nat} :
    i ∈ rowsOf column byte ↔ column[i]? = some byte := by
  rw [rowsOf, List.mem_filter, List.mem_range, decide_eq_true_iff]
  refine ⟨And.right, fun h => ⟨?_, h⟩⟩
  exact (List.getElem?_eq_some_iff.mp h).1

/-- The rows that hold a byte among the first `i` are as many as its occurrences there. -/
theorem length_filter_range (column : List UInt8) (byte : UInt8) (i : Nat) (h : i ≤ column.length) :
    ((List.range i).filter fun j => column[j]? = some byte).length
      = (column.take i).count byte := by
  induction i with
  | zero => simp
  | succ i ih =>
    have hlt : i < column.length := h
    rw [List.range_succ, List.filter_append, List.length_append, ih (Nat.le_of_lt hlt),
      List.take_succ_eq_append_getElem hlt, List.count_append, List.count_singleton]
    congr 1
    by_cases hb : column[i] = byte
    · rw [List.filter_cons_of_pos (by simp [hlt, hb]), if_pos (by simp [hb])]
      rfl
    · rw [List.filter_cons_of_neg (by simp [hlt, hb]), if_neg (by simp [hb])]
      rfl

theorem length_rowsOf (column : List UInt8) (byte : UInt8) :
    (rowsOf column byte).length = column.count byte := by
  rw [rowsOf, length_filter_range column byte _ (Nat.le_refl _), List.take_length]

theorem sorted_stableRows (column : List UInt8) : (stableRows column).Pairwise (Before column) := by
  rw [stableRows, List.pairwise_flatMap]
  constructor
  · intro byte _
    refine (List.pairwise_lt_range.filter _).imp_of_mem ?_
    intro i j hi hj hij
    exact ⟨byte, byte, mem_rowsOf.mp hi, mem_rowsOf.mp hj, .inr ⟨rfl, hij⟩⟩
  · refine sorted_allBytes.imp ?_
    intro a b hab i hi j hj
    exact ⟨a, b, mem_rowsOf.mp hi, mem_rowsOf.mp hj, .inl hab⟩

theorem Before.ne {column : List UInt8} {i j : Nat} (h : Before column i j) : i ≠ j := by
  rintro rfl
  obtain ⟨a, b, ha, hb, hab⟩ := h
  obtain rfl : a = b := Option.some.inj (ha.symm.trans hb)
  rcases hab with hlt | ⟨_, hlt⟩
  · exact absurd hlt (UInt8.lt_irrefl a)
  · exact absurd hlt (Nat.lt_irrefl i)

theorem nodup_stableRows (column : List UInt8) : (stableRows column).Nodup :=
  (sorted_stableRows column).imp Before.ne

theorem mem_stableRows {column : List UInt8} {i : Nat} :
    i ∈ stableRows column ↔ i < column.length := by
  rw [stableRows, List.mem_flatMap]
  constructor
  · rintro ⟨byte, _, hi⟩
    exact (List.getElem?_eq_some_iff.mp (mem_rowsOf.mp hi)).1
  · intro hi
    exact ⟨column[i], mem_allBytes _, mem_rowsOf.mpr (List.getElem?_eq_getElem hi)⟩

/-- The stable order is a permutation of the rows. -/
theorem perm_stableRows (column : List UInt8) :
    (stableRows column).Perm (List.range column.length) := by
  rw [List.perm_ext_iff_of_nodup (nodup_stableRows column) List.nodup_range]
  intro i
  rw [mem_stableRows, List.mem_range]

theorem length_stableRows (column : List UInt8) : (stableRows column).length = column.length := by
  rw [(perm_stableRows column).length_eq, List.length_range]

/-! ## Slots -/

/-- How many rows come before row `i` in the stable order. -/
def slot (column : List UInt8) (i : Nat) (byte : UInt8) : Nat :=
  (((List.range byte.toNat).map UInt8.ofNat).map (column.count ·)).sum + (column.take i).count byte

theorem allBytes_split (byte : UInt8) :
    ∃ larger, allBytes = (List.range byte.toNat).map UInt8.ofNat ++ byte :: larger := by
  have hlt : byte.toNat < allBytes.length := by simp [allBytes]; exact byte.toNat_lt
  have hget : allBytes[byte.toNat] = byte := by simp [allBytes]
  refine ⟨allBytes.drop (byte.toNat + 1), ?_⟩
  conv_lhs => rw [← List.take_append_drop byte.toNat allBytes, List.drop_eq_getElem_cons hlt, hget]
  rw [take_allBytes _ (Nat.le_of_lt byte.toNat_lt)]

/-- A row moves to its slot. -/
theorem getElem?_slot {column : List UInt8} {i : Nat} {byte : UInt8} (h : column[i]? = some byte) :
    (stableRows column)[slot column i byte]? = some i := by
  obtain ⟨hlt, hbyte⟩ := List.getElem?_eq_some_iff.mp h
  obtain ⟨larger, hsplit⟩ := allBytes_split byte
  -- in front of the row are all rows with smaller bytes, and the earlier ones with the same byte
  have hsmaller : (((List.range byte.toNat).map UInt8.ofNat).flatMap (rowsOf column)).length
      = (((List.range byte.toNat).map UInt8.ofNat).map (column.count ·)).sum := by
    rw [List.length_flatMap]
    congr 1
    exact List.map_congr_left fun b _ => length_rowsOf column b
  have hrows : (rowsOf column byte)[(column.take i).count byte]? = some i := by
    obtain ⟨m, hm⟩ : ∃ m, column.length = i + (m + 1) := ⟨column.length - (i + 1), by omega⟩
    have hrange : List.range column.length
        = List.range i ++ i :: (List.range m).map (i + Nat.succ ·) := by
      rw [hm, List.range_add, List.range_succ_eq_map, List.map_cons, Nat.add_zero, List.map_map]
      rfl
    rw [rowsOf, hrange, List.filter_append, List.filter_cons_of_pos (by simp [h]),
      ← length_filter_range column byte i (Nat.le_of_lt hlt),
      List.getElem?_append_right (Nat.le_refl _),
      Nat.sub_self]
    rfl
  rw [stableRows, hsplit, List.flatMap_append, List.flatMap_cons, slot, ← hsmaller,
    List.getElem?_append_right (Nat.le_add_right _ _), Nat.add_sub_cancel_left,
    List.getElem?_append_left ?_, hrows]
  exact (List.getElem?_eq_some_iff.mp hrows).1

theorem slot_lt {column : List UInt8} {i : Nat} {byte : UInt8} (h : column[i]? = some byte) :
    slot column i byte < column.length := by
  rw [← length_stableRows]
  exact (List.getElem?_eq_some_iff.mp (getElem?_slot h)).1

/-- Different rows have different slots. -/
theorem slot_injective {column : List UInt8} {i j : Nat} {a b : UInt8} (hi : column[i]? = some a)
    (hj : column[j]? = some b) (h : slot column i a = slot column j b) : i = j := by
  have hslot := getElem?_slot hi
  rw [h, getElem?_slot hj] at hslot
  exact (Option.some.inj hslot).symm

end Bunzip.RotationLinks

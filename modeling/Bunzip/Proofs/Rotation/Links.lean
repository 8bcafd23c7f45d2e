import Bunzip.Proofs.Rotation.StableOrder

/-!
# The links of a column are its stable order

Building the links never fails on a column that is counted right, whatever storage it is given: the
link in slot `p` leads to the row that the stable order puts there, and stands for that row's byte.
So every link leads to a row, and a walk that starts in one makes all its steps.
-/

namespace Bunzip.RotationLinks

open Histogram

/-! ## Packing -/

theorem toNat_pack {row : Nat} (byte : UInt8) (h : row < rowLimit) :
    (pack row byte).toNat = row * 256 + byte.toNat := by
  have hb : byte.toNat < 2 ^ 8 := byte.toNat_lt
  have hr : row < 2 ^ 24 := h
  have hshift : (UInt32.ofNat row <<< 8).toNat = row <<< 8 := by
    rw [UInt32.toNat_shiftLeft, UInt32.toNat_ofNat_of_lt' (by unfold UInt32.size; omega),
      Nat.mod_eq_of_lt]
    · rfl
    · show row <<< 8 < 2 ^ 32
      rw [Nat.shiftLeft_eq]
      omega
  rw [pack, UInt32.toNat_or, hshift, UInt8.toNat_toUInt32, ← Nat.shiftLeft_add_eq_or_of_lt hb,
    Nat.shiftLeft_eq]

/-- No bit of the row is lost in a link. -/
theorem row_pack {row : Nat} (byte : UInt8) (h : row < rowLimit) :
    RotationLinks.row (pack row byte) = row := by
  have hb : byte.toNat < 2 ^ 8 := byte.toNat_lt
  rw [RotationLinks.row, UInt32.toNat_shiftRight, toNat_pack byte h, Nat.shiftRight_eq_div_pow]
  show (row * 256 + byte.toNat) / 2 ^ 8 = row
  omega

theorem byte_pack {row : Nat} (byte : UInt8) (h : row < rowLimit) :
    RotationLinks.byte (pack row byte) = byte := by
  apply UInt8.toNat_inj.mp
  have hb : byte.toNat < 2 ^ 8 := byte.toNat_lt
  rw [RotationLinks.byte, UInt32.toNat_toUInt8, toNat_pack byte h]
  omega

/-! ## The counting sort -/

theorem size_blank (used : RotationLinks) (rows : Nat) : (used.blank rows).size = rows := by
  unfold blank size
  have h : ∀ entries : Array UInt32,
      (Nat.fold rows (fun _ _ entries => entries.push 0) entries).size = entries.size + rows := by
    intro entries
    induction rows with
    | zero => rfl
    | succ n ih => rw [Nat.fold_succ, Array.size_push, ih, Nat.add_assoc]
  rw [h, Array.size_shrink]
  omega

/-- The first `i` rows of a column have been sorted in. -/
structure Sorted (column : List UInt8) (i : Nat) (free : Histogram) (links : RotationLinks) :
    Prop where
  /-- There is a slot for each row. -/
  size : links.size = column.length
  /-- The next free slot of each byte follows those that are taken. -/
  free : ∀ byte, free.count byte
    = (((List.range byte.toNat).map UInt8.ofNat).map (column.count ·)).sum
        + (column.take i).count byte
  /-- Each row that has been sorted in stands in its slot. -/
  slots : ∀ j byte, j < i → column[j]? = some byte →
    links.entries[slot column j byte]? = some (pack j byte)

theorem sorted_start {column : List UInt8} {counts : Histogram}
    (hcounts : ∀ byte, counts.count byte = column.count byte) (used : RotationLinks) :
    Sorted column 0 counts.starts (used.blank column.length) where
  size := size_blank used _
  free byte := by
    rw [count_starts, List.take_zero, List.count_nil, Nat.add_zero]
    exact congrArg List.sum (List.map_congr_left fun b _ => hcounts b)
  slots j byte hj := absurd hj (Nat.not_lt_zero j)

/-- Sorting in one more row keeps the invariant: its slot is there, and no other row has it. -/
theorem sorted_step {column : List UInt8} {i : Nat} {free : Histogram} {links : RotationLinks}
    {byte : UInt8} (h : Sorted column i free links) (hi : column[i]? = some byte) :
    ∃ fits : free.count byte < links.entries.size,
      Sorted column (i + 1) (free.add byte 1)
        ⟨links.entries.set (free.count byte) (pack i byte) fits⟩ := by
  have hslot : free.count byte = slot column i byte := h.free byte
  have hsize : links.entries.size = column.length := h.size
  -- the first free slot for the byte is the slot of this row
  have fits : free.count byte < links.entries.size := by
    rw [hslot, hsize]
    exact slot_lt hi
  obtain ⟨hlt, hbyte⟩ := List.getElem?_eq_some_iff.mp hi
  refine ⟨fits, ⟨?_, ?_, ?_⟩⟩
  · rw [size, Array.size_set]
    exact hsize
  · intro b
    rw [count_add, List.take_succ_eq_append_getElem hlt, List.count_append, hbyte,
      List.count_singleton, h.free b]
    by_cases hb : b = byte
    · rw [if_pos hb, if_pos (by simp [hb]), Nat.add_assoc]
    · rw [if_neg hb, if_neg (by simpa using fun he => hb he.symm), Nat.add_zero]
  · intro j b hj hb
    rcases Nat.lt_succ_iff_lt_or_eq.mp hj with hlt' | heq
    · -- an earlier row keeps its link, because it has another slot
      have hne : free.count byte ≠ slot column j b := by
        rw [hslot]
        intro hsame
        exact absurd (slot_injective hi hb hsame) (Nat.ne_of_gt hlt')
      rw [Array.getElem?_set_ne fits hne]
      exact h.slots j b hlt' hb
    · subst heq
      obtain rfl : byte = b := Option.some.inj (hi.symm.trans hb)
      rw [← hslot, Array.getElem?_set_self]

theorem sortFrom_sorted {column : ByteArray} {i : Nat} {free : Histogram} {links : RotationLinks}
    (h : Sorted column.data.toList i free links) (hi : i ≤ column.size) :
    ∃ final free', sortFrom column i free links = some final
      ∧ Sorted column.data.toList column.size free' final := by
  fun_induction sortFrom column i free links with
  | case1 i free links inside byte slot fits ih =>
    obtain ⟨_, hstep⟩ := sorted_step h (ByteString.getElem?_toList inside)
    exact ih hstep inside
  | case2 i free links inside byte slot tooFar =>
    exact absurd (sorted_step h (ByteString.getElem?_toList inside)).1 tooFar
  | case3 i free links outside =>
    obtain rfl : i = column.size := by omega
    exact ⟨links, free, rfl, h⟩

/-- The links that the stable order of a column calls for. -/
def ofColumn (column : List UInt8) : RotationLinks :=
  ⟨((stableRows column).map fun i => pack i (column.getD i 0)).toArray⟩

theorem size_ofColumn (column : List UInt8) : (ofColumn column).size = column.length := by
  simp [ofColumn, size, length_stableRows]

theorem getElem?_ofColumn (column : List UInt8) (p : Nat) :
    (ofColumn column).entries[p]?
      = (stableRows column)[p]?.map fun i => pack i (column.getD i 0) := by
  simp [ofColumn]

/-- Links that have every row in its slot are the links of the column. -/
theorem eq_ofColumn {column : List UInt8} {free : Histogram} {links : RotationLinks}
    (h : Sorted column column.length free links) : links = ofColumn column := by
  have hentries : links.entries = (ofColumn column).entries := by
    refine Array.ext_getElem? fun p => ?_
    rw [getElem?_ofColumn]
    by_cases hp : p < column.length
    · have hp' : p < (stableRows column).length := by rw [length_stableRows]; exact hp
      have hrow : (stableRows column)[p] < column.length :=
        mem_stableRows.mp (List.getElem_mem hp')
      have hbyte := List.getElem?_eq_getElem hrow
      -- the row that the order puts here has this slot, since it stands here only once
      have hslot : slot column (stableRows column)[p] column[(stableRows column)[p]] = p := by
        obtain ⟨hs, hget⟩ := List.getElem?_eq_some_iff.mp (getElem?_slot hbyte)
        exact (nodup_stableRows column).getElem_inj_iff.mp hget
      have := h.slots _ _ hrow hbyte
      rw [hslot] at this
      rw [this, List.getElem?_eq_getElem hp', Option.map_some, List.getD_eq_getElem?_getD, hbyte]
      rfl
    · have hsize : links.entries.size = column.length := h.size
      rw [Array.getElem?_eq_none (by omega), List.getElem?_eq_none (by rw [length_stableRows]; omega)]
      rfl
  cases links
  exact congrArg _ hentries

theorem total_eq {column : List UInt8} {counts : Histogram}
    (hcounts : ∀ byte, counts.count byte = column.count byte) : counts.total = column.length := by
  have hlist : counts.counts.toList = allBytes.map fun b => (rowsOf column b).length := by
    rw [counts_eq_map]
    refine List.map_congr_left fun b _ => ?_
    rw [hcounts, length_rowsOf]
  rw [total, hlist, ← length_stableRows, stableRows, List.length_flatMap, List.sum]

/-- **The links of a column are its stable order**, whatever storage they are built in. -/
theorem build?_eq {column : ByteArray} {counts : Histogram} (used : RotationLinks)
    (hcounts : ∀ byte, counts.count byte = column.data.toList.count byte)
    (short : column.size < rowLimit) :
    build? column counts used = some (ofColumn column.data.toList) := by
  have hsize := ByteString.size_eq_length column
  have hstart := sorted_start hcounts used
  rw [← hsize] at hstart
  obtain ⟨final, free, hfinal, hsorted⟩ := sortFrom_sorted hstart (Nat.zero_le _)
  rw [hsize] at hsorted
  rw [build?, if_pos ⟨(total_eq hcounts).trans hsize.symm, short⟩, hfinal, eq_ofColumn hsorted]

end Bunzip.RotationLinks

namespace Bunzip.Walk

/-- The next `n` bytes on a way, and the way that is left after them. -/
def follow : (n : Nat) → Walk → Option (List UInt8 × Walk)
  | 0, walk => some ([], walk)
  | n + 1, walk =>
    match walk.next with
    | none => none
    | some (byte, walk) =>
      match follow n walk with
      | none => none
      | some (bytes, walk) => some (byte :: bytes, walk)

theorem next_of_remaining_eq_zero {walk : Walk} (h : walk.remaining = 0) : walk.next = none := by
  rw [next, if_pos h]

end Bunzip.Walk

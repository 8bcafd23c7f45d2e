import Bunzip.Proofs.Rotation.Links

/-!
# The rotation transform and its inverse

The transform sorts the rotations of a byte string and keeps the last byte of each. Sorting does not
fix the order of equal rotations, and a periodic string has some; what follows holds for every order
that is sorted.

Why the links undo the transform: move the last byte of every row to its front. The rows are then
rotations again, and the stable order of the last column sorts them, because rows with the same first
byte keep the order they had, which was sorted by what follows that byte. A list has one sorted form.
So row `p` of the matrix is row `T p` with its last byte in front, where `T` is the stable order, and
following the link of a row leads to that row rotated by one byte. The argument is about rows as byte
strings, so it does not matter how many cycles the links fall into.
-/

namespace Bunzip

/-! ## The transform -/

/-- The starts of all rotations of a byte string, in an order that sorts the rotations. -/
structure SortedRotations (s : List UInt8) where
  starts : List Nat
  perm : starts.Perm (List.range s.length)
  sorted : (starts.map s.rotate).Pairwise (· ≤ ·)

namespace SortedRotations

variable {s : List UInt8} (rotations : SortedRotations s)

/-- The rotations in order. -/
def rows : List (List UInt8) := rotations.starts.map s.rotate

/-- The last byte of each row. -/
def lastColumn : List UInt8 := rotations.rows.map (·.getLastD 0)

theorem length_starts : rotations.starts.length = s.length := by
  rw [rotations.perm.length_eq, List.length_range]

theorem length_rows : rotations.rows.length = s.length := by
  rw [rows, List.length_map, length_starts]

theorem length_lastColumn : rotations.lastColumn.length = s.length := by
  rw [lastColumn, List.length_map, length_rows]

theorem length_of_mem {row : List UInt8} (h : row ∈ rotations.rows) : row.length = s.length := by
  obtain ⟨i, _, rfl⟩ := List.mem_map.mp h
  exact List.length_rotate s i

theorem ne_nil_of_mem (hs : s ≠ []) {row : List UInt8} (h : row ∈ rotations.rows) : row ≠ [] := by
  intro hnil
  have hlength := rotations.length_of_mem h
  rw [hnil] at hlength
  exact hs (List.length_eq_zero_iff.mp hlength.symm)

end SortedRotations

/-! ## The last byte in front -/

/-- A row with its last byte in front: the rotation before it. -/
def turnBack (row : List UInt8) : List UInt8 := row.getLastD 0 :: row.dropLast

theorem dropLast_append_getLastD {row : List UInt8} (h : row ≠ []) :
    row.dropLast ++ [row.getLastD 0] = row := by
  rw [List.getLastD_eq_getLast?, List.getLast?_eq_some_getLast h]
  exact List.dropLast_concat_getLast h

theorem rotate_turnBack {row : List UInt8} (h : row ≠ []) : (turnBack row).rotate 1 = row := by
  rw [turnBack, List.rotate_cons_succ, List.rotate_zero, dropLast_append_getLastD h]

theorem turnBack_eq_rotate {row : List UInt8} (h : row ≠ []) :
    turnBack row = row.rotate (row.length - 1) := by
  have hlen : (turnBack row).length = row.length := by
    rw [turnBack, List.length_cons, List.length_dropLast]
    have := List.length_pos_iff.mpr h
    omega
  have hpos := List.length_pos_iff.mpr h
  have hback : ((turnBack row).rotate 1).rotate (row.length - 1) = turnBack row := by
    rw [List.rotate_rotate, show 1 + (row.length - 1) = (turnBack row).length by omega,
      List.rotate_length]
  rw [rotate_turnBack h] at hback
  exact hback.symm

/-- Rows of one length that end with the same byte compare as they do without it. -/
theorem le_of_append_singleton_le {xs ys : List UInt8} {a : UInt8} (hlen : xs.length = ys.length)
    (h : xs ++ [a] ≤ ys ++ [a]) : xs ≤ ys := by
  induction xs generalizing ys with
  | nil => exact List.nil_le ys
  | cons x xs ih =>
    cases ys with
    | nil => cases hlen
    | cons y ys =>
      rw [List.cons_append, List.cons_append, List.cons_le_cons_iff] at h
      rw [List.cons_le_cons_iff]
      rcases h with hlt | ⟨heq, hle⟩
      · exact .inl hlt
      · exact .inr ⟨heq, ih (Nat.succ.inj hlen) hle⟩

namespace SortedRotations

open RotationLinks

variable {s : List UInt8} (rotations : SortedRotations s)

/-- All rotations, each from the one before, are all rotations. -/
theorem perm_map_turnBack (hs : s ≠ []) : (rotations.rows.map turnBack).Perm rotations.rows := by
  have hall : ∀ t : List UInt8, t ≠ [] →
      (List.range t.length).map t.rotate = t.cyclicPermutations := by
    intro t ht
    refine List.ext_getElem ?_ fun i _ _ => ?_
    · rw [List.length_map, List.length_range, List.length_cyclicPermutations_of_ne_nil t ht]
    · rw [List.getElem_map, List.getElem_range, List.getElem_cyclicPermutations]
  have hrows : rotations.rows.Perm s.cyclicPermutations := by
    rw [← hall s hs]
    exact rotations.perm.map _
  have hturned : s.cyclicPermutations.map turnBack
      = (s.rotate (s.length - 1)).cyclicPermutations := by
    rw [← hall s hs, ← hall _ (by simpa using hs), List.map_map, List.length_rotate]
    refine List.map_congr_left fun i _ => ?_
    rw [Function.comp_apply, turnBack_eq_rotate (by simpa using hs), List.length_rotate,
      List.rotate_rotate, List.rotate_rotate, Nat.add_comm]
  refine (hrows.map turnBack).trans ?_
  rw [hturned, List.cyclicPermutations_rotate]
  exact (List.rotate_perm _ _).trans hrows.symm

/-- The row `p` of the matrix, seen as the row that the stable order puts there. -/
def turnedRows : List (List UInt8) :=
  (stableRows rotations.lastColumn).map fun i => turnBack (rotations.rows.getD i [])

theorem perm_turnedRows (hs : s ≠ []) : rotations.turnedRows.Perm rotations.rows := by
  have hrange : (List.range rotations.lastColumn.length).map
      (fun i => turnBack (rotations.rows.getD i [])) = rotations.rows.map turnBack := by
    refine List.ext_getElem ?_ fun i hi hj => ?_
    · rw [List.length_map, List.length_map, List.length_range, length_lastColumn, length_rows]
    · have hlt : i < rotations.rows.length := by simpa using hj
      rw [List.getElem_map, List.getElem_map, List.getElem_range, List.getD_eq_getElem?_getD,
        List.getElem?_eq_getElem hlt, Option.getD_some]
  have hperm := (perm_stableRows rotations.lastColumn).map
    fun i => turnBack (rotations.rows.getD i [])
  rw [hrange] at hperm
  exact hperm.trans (rotations.perm_map_turnBack hs)

/-- The stable order of the last column sorts the rows with their last bytes in front. -/
theorem sorted_turnedRows (hs : s ≠ []) : rotations.turnedRows.Pairwise (· ≤ ·) := by
  refine List.pairwise_map.mpr ((sorted_stableRows _).imp ?_)
  rintro i j ⟨a, b, hi, hj, hab⟩
  have hlast : ∀ {i : Nat} {a : UInt8}, rotations.lastColumn[i]? = some a →
      ∃ h : i < rotations.rows.length, rotations.rows[i].getLastD 0 = a := by
    intro i a hi
    rw [lastColumn, List.getElem?_map, Option.map_eq_some_iff] at hi
    obtain ⟨row, hrow, ha⟩ := hi
    obtain ⟨h, hget⟩ := List.getElem?_eq_some_iff.mp hrow
    exact ⟨h, by rw [hget, ha]⟩
  obtain ⟨hi, ha⟩ := hlast hi
  obtain ⟨hj, hb⟩ := hlast hj
  rw [List.getD_eq_getElem?_getD, List.getD_eq_getElem?_getD, List.getElem?_eq_getElem hi,
    List.getElem?_eq_getElem hj, Option.getD_some, Option.getD_some, turnBack, turnBack, ha, hb,
    List.cons_le_cons_iff]
  rcases hab with hlt | ⟨heq, hlt⟩
  · exact .inl hlt
  · -- the bytes are equal: what precedes them is in the order of the rows
    refine .inr ⟨heq, ?_⟩
    have hle : rotations.rows[i] ≤ rotations.rows[j] :=
      List.pairwise_iff_getElem.mp rotations.sorted i j hi hj hlt
    rw [← dropLast_append_getLastD (rotations.ne_nil_of_mem hs (List.getElem_mem hi)),
      ← dropLast_append_getLastD (rotations.ne_nil_of_mem hs (List.getElem_mem hj)), ha, hb,
      heq] at hle
    -- the last bytes are the same and can be left off
    refine le_of_append_singleton_le ?_ hle
    rw [List.length_dropLast, List.length_dropLast, rotations.length_of_mem (List.getElem_mem hi),
      rotations.length_of_mem (List.getElem_mem hj)]

/-- **Following a link turns a row by one byte.** -/
theorem turnedRows_eq (hs : s ≠ []) : rotations.turnedRows = rotations.rows :=
  List.Perm.eq_of_pairwise (fun _ _ _ _ => List.le_antisymm) (rotations.sorted_turnedRows hs)
    rotations.sorted (rotations.perm_turnedRows hs)

/-! ## Walking along the links -/

/-- The link of a row stands for the row's first byte and leads to the row turned by that byte. -/
theorem link_of_row (hs : s ≠ []) (short : s.length < rowLimit) {p : Nat} {row : List UInt8}
    (hp : rotations.rows[p]? = some row) :
    ∃ q link byte rest, (ofColumn rotations.lastColumn).entries[p]? = some link
      ∧ RotationLinks.row link = q ∧ RotationLinks.byte link = byte
      ∧ row = byte :: rest ∧ rotations.rows[q]? = some (rest ++ [byte]) := by
  -- row `p` is also row `p` of the turned rows, which says which row it was turned from
  have hturned := hp
  rw [← rotations.turnedRows_eq hs, turnedRows, List.getElem?_map, Option.map_eq_some_iff] at hturned
  obtain ⟨q, hq, hrow⟩ := hturned
  have hlt : q < s.length := by
    have := mem_stableRows.mp (List.mem_of_getElem? hq)
    rwa [length_lastColumn] at this
  have hlt' : q < rotations.rows.length := by rwa [length_rows]
  have hget := List.getElem?_eq_getElem hlt'
  rw [List.getD_eq_getElem?_getD, hget, Option.getD_some] at hrow
  have hne := rotations.ne_nil_of_mem hs (List.getElem_mem hlt')
  have hbyte : rotations.lastColumn.getD q 0 = rotations.rows[q].getLastD 0 := by
    rw [List.getD_eq_getElem?_getD, lastColumn, List.getElem?_map, hget]
    rfl
  refine ⟨q, _, rotations.rows[q].getLastD 0, rotations.rows[q].dropLast, ?_,
    row_pack _ (Nat.lt_trans hlt short), byte_pack _ (Nat.lt_trans hlt short), hrow.symm, ?_⟩
  · rw [getElem?_ofColumn, hq, Option.map_some, hbyte]
  · rw [hget, dropLast_append_getLastD hne]

/-- From the link of a row, the walk spells the row as far as there are steps. -/
theorem follow_row (hs : s ≠ []) (short : s.length < rowLimit) {p : Nat} {row : List UInt8}
    {link : UInt32} (hp : rotations.rows[p]? = some row)
    (hlink : (ofColumn rotations.lastColumn).entries[p]? = some link) (n left : Nat)
    (hn : n ≤ row.length) :
    ∃ after, Walk.follow n ⟨ofColumn rotations.lastColumn, link, n + left⟩ = some (row.take n, after)
      ∧ after.remaining = left := by
  -- on the steps, over all rows: each step turns the row and follows its link
  induction n generalizing p row link with
  | zero => exact ⟨_, rfl, Nat.zero_add left⟩
  | succ n ih =>
    obtain ⟨q, link', byte, rest, hlink', hq, hbyte, hrow, hturned⟩ :=
      rotations.link_of_row hs short hp
    obtain rfl : link = link' := Option.some.inj (hlink.symm.trans hlink')
    obtain ⟨_, next, _, _, hnext, _⟩ := rotations.link_of_row hs short hturned
    have hlen : n ≤ rest.length := by
      rw [hrow, List.length_cons] at hn
      omega
    obtain ⟨after, hafter, hleft⟩ := ih hturned hnext (by rw [List.length_append]; omega)
    refine ⟨after, ?_, hleft⟩
    have hstep : Walk.next ⟨ofColumn rotations.lastColumn, link, n + 1 + left⟩
        = some (byte, ⟨ofColumn rotations.lastColumn, next, n + left⟩) := by
      rw [Walk.next, if_neg (show ¬ n + 1 + left = 0 by omega)]
      simp only [hq, hnext, hbyte, show n + 1 + left - 1 = n + left by omega]
    rw [Walk.follow, hstep]
    simp only [hafter]
    rw [hrow, List.take_succ_cons, List.take_append_of_le_length hlen]

theorem links_of_lastColumn (short : s.length < rowLimit) (used : RotationLinks) :
    build? ⟨rotations.lastColumn.toArray⟩ (Histogram.ofBytes ⟨rotations.lastColumn.toArray⟩) used
      = some (ofColumn rotations.lastColumn) := by
  refine build?_eq used (Histogram.count_ofBytes _) ?_
  rw [ByteString.size_eq_length, ByteString.toList_mk, length_lastColumn]
  exact short

/-- The walk from a row that holds the string has a step for each byte and spells the string. -/
theorem start_of_row (hs : s ≠ []) (short : s.length < rowLimit) {origin : Nat}
    (horigin : rotations.rows[origin]? = some s) :
    ∃ walk after, Walk.start? (ofColumn rotations.lastColumn) origin = some walk
      ∧ walk.remaining = s.length
      ∧ walk.follow s.length = some (s, after) ∧ after.remaining = 0 := by
  obtain ⟨_, link, _, _, hlink, _⟩ := rotations.link_of_row hs short horigin
  have hsize : (ofColumn rotations.lastColumn).size = s.length := by
    rw [size_ofColumn, length_lastColumn]
  have hpos : 0 < s.length := List.length_pos_iff.mpr hs
  obtain ⟨after, hafter, hleft⟩ :=
    rotations.follow_row hs short horigin hlink s.length 0 (Nat.le_refl _)
  rw [List.take_length] at hafter
  refine ⟨⟨ofColumn rotations.lastColumn, link, s.length⟩, after, ?_, rfl, hafter, hleft⟩
  rw [Walk.start?, if_neg (by omega)]
  simp only [hlink, hsize]

/--
**The walk undoes the transform.** The links of the last column can be built in any storage; the walk
from any row that holds the string spells it and ends there.
-/
theorem walk_spells (hs : s ≠ []) (short : s.length < 2 ^ 24) {origin : Nat}
    (horigin : rotations.rows[origin]? = some s) (used : RotationLinks) :
    ∃ links walk after,
      build? ⟨rotations.lastColumn.toArray⟩ (Histogram.ofBytes ⟨rotations.lastColumn.toArray⟩) used
          = some links
        ∧ Walk.start? links origin = some walk
        ∧ walk.follow s.length = some (s, after)
        ∧ after.next = none := by
  obtain ⟨walk, after, hstart, _, hfollow, hleft⟩ := rotations.start_of_row hs short horigin
  exact ⟨_, walk, after, rotations.links_of_lastColumn short used, hstart, hfollow,
    Walk.next_of_remaining_eq_zero hleft⟩

/-- The rotations of `abab`, the two pairs of equal ones in descending order of their starts. -/
def abab : SortedRotations [97, 98, 97, 98] := ⟨[2, 0, 3, 1], by decide, by decide⟩

theorem walk_spells_abab :
    ([97, 98, 97, 98] : List UInt8) ≠ [] ∧ ([97, 98, 97, 98] : List UInt8).length < 2 ^ 24
      ∧ abab.rows[1]? = some [97, 98, 97, 98]
      ∧ ∃ links walk after,
        build? ⟨abab.lastColumn.toArray⟩ (Histogram.ofBytes ⟨abab.lastColumn.toArray⟩) ⟨#[7, 7, 7]⟩
            = some links
          ∧ Walk.start? links 1 = some walk
          ∧ walk.follow 4 = some ([97, 98, 97, 98], after)
          ∧ after.next = none :=
  ⟨by decide, by decide, by decide, abab.walk_spells (by decide) (by decide) (by decide) _⟩

/-! ## A stable sort -/

/-- The rotations by a stable sort of their starts. -/
def stable (s : List UInt8) : SortedRotations s where
  starts := (List.range s.length).mergeSort fun i j => s.rotate i ≤ s.rotate j
  perm := List.mergeSort_perm _ _
  sorted := by
    rw [List.pairwise_map]
    refine (List.pairwise_mergeSort ?_ ?_ _).imp of_decide_eq_true
    · intro i j k hij hjk
      exact decide_eq_true (List.le_trans (of_decide_eq_true hij) (of_decide_eq_true hjk))
    · intro i j
      rw [Bool.or_eq_true]
      exact (List.le_total (s.rotate i) (s.rotate j)).imp decide_eq_true decide_eq_true

/-- The row that holds the string itself. -/
def origin (s : List UInt8) : Nat := (stable s).starts.idxOf 0

theorem origin_lt (hs : s ≠ []) : origin s < s.length := by
  have hmem : 0 ∈ (stable s).starts :=
    (stable s).perm.mem_iff.mpr (List.mem_range.mpr (List.length_pos_iff.mpr hs))
  rw [← (stable s).length_starts]
  exact List.idxOf_lt_length_of_mem hmem

theorem rows_origin (hs : s ≠ []) : (stable s).rows[origin s]? = some s := by
  have hlt : origin s < (stable s).starts.length := by
    rw [length_starts]
    exact origin_lt hs
  rw [rows, List.getElem?_map, List.getElem?_eq_getElem hlt, Option.map_some]
  simp only [origin, List.getElem_idxOf, List.rotate_zero]

example : (stable [98, 97, 110, 97, 110, 97]).lastColumn = [110, 110, 98, 97, 97, 97]
    ∧ origin [98, 97, 110, 97, 110, 97] = 3 := by cbv

/-- The last bytes of the rotations are the bytes of the string in some order. -/
theorem mem_of_mem_lastColumn (hs : s ≠ []) {byte : UInt8} (h : byte ∈ (stable s).lastColumn) :
    byte ∈ s := by
  obtain ⟨row, hrow, rfl⟩ := List.mem_map.mp h
  obtain ⟨i, _, rfl⟩ := List.mem_map.mp hrow
  have hne : s.rotate i ≠ [] := fun hnil => hs (List.rotate_eq_nil_iff.mp hnil)
  rw [List.getLastD_eq_getLast?, List.getLast?_eq_some_getLast hne]
  exact List.mem_rotate.mp (List.getLast_mem hne)

end SortedRotations

end Bunzip

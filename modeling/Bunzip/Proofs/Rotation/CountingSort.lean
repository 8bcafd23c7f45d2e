import Bunzip.Proofs.Rotation.SingleCycle

/-!
# The links are the stable sort of a column

The links of a column, unpacked, are its rows with their bytes, in ascending order of the bytes and,
where these are the same, of the rows (`Sorts`). The sort does nothing but write one link for each row
(`sortFrom_eq_writeAll`), and the slots it writes to are those of the stable order, in the order of the
rows. No two rows have the same one, so that each slot is written once.

That makes the links a permutation of the rows. A walk that has a row to start from finds a link at
each of its steps. A permutation of finitely many rows comes back to each of them, after as many steps
as there are rows on the way; and a link determines its row, so the walk is back at the link that it
started with after just these steps.
-/

namespace Bunzip

namespace RotationLinks

/-! ## What is written -/

/-- What sorting in the rows from `i` on writes: for each row its slot, and its link. -/
def writesFrom (column : ByteArray) (i : Nat) (free : Histogram) : List (Nat × UInt32) :=
  if inside : i < column.size then
    (free.count column[i], pack i column[i]) :: writesFrom column (i + 1) (free.add column[i] 1)
  else []
termination_by column.size - i

/-- Writes links into slots one after the other; fails if a slot is not there. -/
def writeAll : (writes : List (Nat × UInt32)) → (links : RotationLinks) → Option RotationLinks
  | [], links => some links
  | (slot, link) :: writes, links =>
    if fits : slot < links.entries.size then writeAll writes ⟨links.entries.set slot link fits⟩
    else none

/-- The counting sort makes these writes and nothing else. -/
theorem sortFrom_eq_writeAll (column : ByteArray) (i : Nat) (free : Histogram)
    (links : RotationLinks) :
    sortFrom column i free links = writeAll (writesFrom column i free) links := by
  fun_induction sortFrom column i free links with
  | case1 i free links inside byte slot fits ih =>
    rw [writesFrom, dif_pos inside, writeAll, dif_pos fits, ih]
  | case2 i free links inside byte slot tooFar =>
    rw [writesFrom, dif_pos inside, writeAll, dif_neg tooFar]
  | case3 i free links outside => rw [writesFrom, dif_neg outside, writeAll]

/-- A row is written to its slot in the stable order. -/
theorem slots_writesFrom {column : ByteArray} {i : Nat} {free : Histogram} {links : RotationLinks}
    (h : Sorted column.data.toList i free links) :
    (writesFrom column i free).map Prod.fst = (List.range' i (column.size - i)).map fun j =>
      slot column.data.toList j (column.data.toList.getD j 0) := by
  fun_induction writesFrom column i free generalizing links with
  | case1 i free inside ih =>
    have hget := ByteString.getElem?_toList inside
    obtain ⟨_, hstep⟩ := sorted_step h hget
    have hcount : column.size - i = (column.size - (i + 1)) + 1 := by omega
    rw [List.map_cons, ih hstep, hcount, List.range'_succ, List.map_cons,
      List.getD_eq_getElem?_getD, hget, Option.getD_some, slot, ← h.free]
  | case2 i free outside =>
    rw [Nat.sub_eq_zero_of_le (Nat.le_of_not_lt outside)]
    rfl

/-- The slots of all rows, in the order of the rows. -/
def slots (column : List UInt8) : List Nat :=
  (List.range column.length).map fun j => slot column j (column.getD j 0)

/-- The slots of all rows are all slots, each of them once. -/
theorem perm_slots (column : List UInt8) : (slots column).Perm (List.range column.length) := by
  have hbyte : ∀ j ∈ List.range column.length, column[j]? = some (column.getD j 0) := by
    intro j hj
    have hlt := List.mem_range.mp hj
    rw [List.getD_eq_getElem?_getD, List.getElem?_eq_getElem hlt, Option.getD_some]
  have hnodup : (slots column).Nodup :=
    List.Nodup.map_on (fun i hi j hj => slot_injective (hbyte i hi) (hbyte j hj)) List.nodup_range
  have hinside : slots column ⊆ List.range column.length := by
    intro p hp
    obtain ⟨j, hj, rfl⟩ := List.mem_map.mp hp
    exact List.mem_range.mpr (slot_lt (hbyte j hj))
  refine (List.subperm_of_subset hnodup hinside).perm_of_length_le ?_
  rw [slots, List.length_map]

/-! ## What the links hold -/

/-- The rows that the links lead to, with the bytes that they stand for. -/
def pairs (links : RotationLinks) : List (Nat × UInt8) :=
  links.entries.toList.map fun link => (row link, byte link)

/-- The rows of a column with their bytes. -/
def numbered (column : List UInt8) : List (Nat × UInt8) := column.zipIdx.map Prod.swap

/-- Of two rows with their bytes, one comes first by its byte or, for the same byte, as a row. -/
def Precedes (a b : Nat × UInt8) : Prop := a.2 < b.2 ∨ a.2 = b.2 ∧ a.1 < b.1

/-- The links hold the rows of a column, sorted by their bytes and, within a byte, as rows. -/
structure Sorts (column : List UInt8) (links : RotationLinks) : Prop where
  size : links.size = column.length
  perm : links.pairs.Perm (numbered column)
  sorted : links.pairs.Pairwise Precedes

theorem numbered_eq (column : List UInt8) :
    numbered column = (List.range column.length).map fun i => (i, column.getD i 0) := by
  refine List.ext_getElem (by simp [numbered]) fun i hi _ => ?_
  have hlt : i < column.length := by simpa [numbered] using hi
  simp [numbered, hlt]

theorem pairs_ofColumn {column : List UInt8} (short : column.length < rowLimit) :
    (ofColumn column).pairs = (stableRows column).map fun i => (i, column.getD i 0) := by
  rw [pairs, ofColumn, List.map_map]
  refine List.map_congr_left fun i hi => ?_
  have hlt : i < rowLimit := Nat.lt_trans (mem_stableRows.mp hi) short
  rw [Function.comp_apply, row_pack _ hlt, byte_pack _ hlt]

theorem sorts_ofColumn {column : List UInt8} (short : column.length < rowLimit) :
    Sorts column (ofColumn column) where
  size := size_ofColumn column
  perm := by
    rw [pairs_ofColumn short, numbered_eq]
    exact (perm_stableRows column).map _
  sorted := by
    rw [pairs_ofColumn short, List.pairwise_map]
    refine (sorted_stableRows column).imp ?_
    rintro i j ⟨a, b, hi, hj, hab⟩
    simpa only [Precedes, List.getD_eq_getElem?_getD, hi, hj, Option.getD_some] using hab

/-- The links lead to every row once. -/
theorem Sorts.perm_rows {column : List UInt8} {links : RotationLinks} (h : Sorts column links) :
    (links.entries.toList.map row).Perm (List.range column.length) := by
  have hrows := h.perm.map Prod.fst
  rw [numbered_eq, List.map_map, pairs, List.map_map] at hrows
  simpa [Function.comp_def] using hrows

/-! ## Round the cycles -/

/-- The rows that the links lead to from a row, that row included. -/
def cycle (links : RotationLinks) (p : Nat) : Set Nat := {q | ∃ k, links.successor^[k] p = q}

namespace Follows

variable {column : List UInt8} {links : RotationLinks} (h : Follows column links) {p q : Nat}

include h

theorem successor_ne (hpq : p < q) (hq : q < column.length) :
    links.successor p ≠ links.successor q := by
  intro heq
  have hbyte : links.byteAt p = links.byteAt q := by
    have hstands := h.stands p (Nat.lt_trans hpq hq)
    rw [heq, h.stands q hq] at hstands
    exact (Option.some.inj hstands).symm
  -- so the earlier link would have to lead to an earlier row
  rcases h.ascends p q hpq hq with hlt | ⟨_, hlt⟩
  · rw [hbyte] at hlt
    exact UInt8.lt_irrefl _ hlt
  · rw [heq] at hlt
    exact Nat.lt_irrefl _ hlt

/-- No two links lead to the same row. -/
theorem successor_injective (hp : p < column.length) (hq : q < column.length)
    (heq : links.successor p = links.successor q) : p = q := by
  rcases Nat.lt_trichotomy p q with hlt | rfl | hlt
  · exact absurd heq (h.successor_ne hlt hq)
  · rfl
  · exact absurd heq.symm (h.successor_ne hlt hp)

/-- The links as a map of the rows of a column. -/
def turn (p : Fin column.length) : Fin column.length :=
  ⟨links.successor p, h.successor_lt p.isLt⟩

/-- The links come back to every row. -/
theorem mem_periodicPts (hp : p < column.length) :
    p ∈ Function.periodicPts links.successor := by
  have hinjective : Function.Injective h.turn := by
    intro p q heq
    exact Fin.ext (h.successor_injective p.isLt q.isLt (Fin.mk.inj heq))
  obtain ⟨k, hk, hback⟩ := hinjective.mem_periodicPts ⟨p, hp⟩
  exact ⟨k, hk, hback.map (g := Fin.val) fun _ => rfl⟩

/-- As many steps lead back to a row as there are rows on its cycle. -/
theorem ncard_cycle (hp : p < column.length) :
    (links.cycle p).ncard = Function.minimalPeriod links.successor p := by
  have himage : links.cycle p = (fun k => links.successor^[k] p)
      '' Set.Iio (Function.minimalPeriod links.successor p) := by
    have hpositive := Function.minimalPeriod_pos_of_mem_periodicPts (h.mem_periodicPts hp)
    ext q
    constructor
    · rintro ⟨k, rfl⟩
      exact ⟨k % Function.minimalPeriod links.successor p, Nat.mod_lt _ hpositive,
        Function.iterate_mod_minimalPeriod_eq⟩
    · rintro ⟨k, _, rfl⟩
      exact ⟨k, rfl⟩
  rw [himage, Function.iterate_injOn_Iio_minimalPeriod.ncard_image, ← Finset.coe_range,
    Set.ncard_coe_finset, Finset.card_range]

theorem ncard_cycle_pos (hp : p < column.length) : 0 < (links.cycle p).ncard := by
  rw [h.ncard_cycle hp]
  exact Function.minimalPeriod_pos_of_mem_periodicPts (h.mem_periodicPts hp)

theorem ncard_cycle_le (hp : p < column.length) : (links.cycle p).ncard ≤ column.length := by
  have hinside : links.cycle p ⊆ ↑(Finset.range column.length) := by
    rintro q ⟨k, rfl⟩
    exact Finset.mem_range.mpr (h.iterate_lt hp k)
  have hcard := Set.ncard_le_ncard hinside
  rwa [Set.ncard_coe_finset, Finset.card_range] at hcard

/-- The steps after which the links are back at a row are whole ways round its cycle. -/
theorem iterate_eq_iff (hp : p < column.length) (k : Nat) :
    links.successor^[k] p = p ↔ (links.cycle p).ncard ∣ k := by
  rw [h.ncard_cycle hp]
  exact Function.isPeriodicPt_iff_minimalPeriod_dvd

end Follows

/-! ## Walks -/

theorem row_of_getElem? {links : RotationLinks} {p : Nat} {link : UInt32}
    (h : links.entries[p]? = some link) : row link = links.successor p := by
  rw [successor, Array.getD_eq_getD_getElem?, h, Option.getD_some]

/--
A walk has a step for each row. Every link that it comes to before the last step leads to a row, and
it is back at its first link after whole ways round the cycle of the row that it starts from.
-/
structure Circles (links : RotationLinks) (origin : Nat) (walk : Walk) : Prop where
  starts : Walk.start? links origin = some walk
  steps : ∀ k ≤ links.size, ∃ bytes after, walk.follow k = some (bytes, after)
    ∧ after.remaining = links.size - k ∧ (k < links.size → row after.link < links.size)
    ∧ (after.link = walk.link ↔ (links.cycle origin).ncard ∣ k)

theorem Follows.circles {column : List UInt8} {links : RotationLinks} (h : Follows column links)
    {origin : Nat} (horigin : origin < column.length) : ∃ walk, links.Circles origin walk := by
  have hlt : origin < links.entries.size := Nat.lt_of_lt_of_eq horigin h.size.symm
  have hfirst := Array.getElem?_eq_getElem hlt
  refine ⟨_, by rw [Walk.start?, if_neg (by rw [h.size]; omega), hfirst], fun k hk => ?_⟩
  obtain ⟨after, hfollow, hremaining, hlink⟩ := h.follow_spelling horigin hfirst hk
  have hreached := h.iterate_lt horigin k
  refine ⟨_, after, hfollow, hremaining, fun _ => ?_, ?_⟩
  · rw [row_of_getElem? hlink, h.size]
    exact h.successor_lt hreached
  · -- equal links lead to the same row, so they are the link of one row
    rw [← h.iterate_eq_iff horigin]
    constructor
    · intro heq
      refine h.successor_injective hreached horigin ?_
      rw [← row_of_getElem? hlink, ← row_of_getElem? hfirst, heq]
    · intro hback
      rw [hback, hfirst] at hlink
      exact (Option.some.inj hlink).symm

/-- The only walk without links has no steps to make. -/
theorem circles_of_size_eq_zero {links : RotationLinks} (h : links.size = 0) :
    links.Circles 0 ⟨links, 0, 0⟩ where
  starts := by rw [Walk.start?, if_pos ⟨h, rfl⟩]
  steps k hk := by
    obtain rfl : k = 0 := by omega
    exact ⟨[], _, rfl, h.symm, fun hlt => by omega, by simp⟩

/--
**The links of a column are its stable sort**, whatever storage they are built in. Sorting does nothing
but write, once for each row, to slots that are all slots, each of them once. The links then hold the
rows with their bytes, sorted by byte and then by row, and lead to every row once. A walk from any row,
or in a column without rows from row 0, makes all its steps along links to rows, and comes back to its
first link after as many steps as its cycle has rows.
-/
theorem build?_sorts {column : ByteArray} (used : RotationLinks) (short : column.size < 2 ^ 24) :
    ∃ links, build? column (Histogram.ofBytes column) used = some links
      ∧ (∀ i free before, sortFrom column i free before = writeAll (writesFrom column i free) before)
      ∧ writeAll (writesFrom column 0 (Histogram.ofBytes column).starts) (used.blank column.size)
        = some links
      ∧ ((writesFrom column 0 (Histogram.ofBytes column).starts).map Prod.fst).Perm
        (List.range column.size)
      ∧ Sorts column.data.toList links
      ∧ (links.entries.toList.map row).Perm (List.range column.size)
      ∧ (∀ origin, origin < column.size ∨ column.size = 0 ∧ origin = 0 →
        ∃ walk, links.Circles origin walk)
      ∧ ∀ origin < column.size, 0 < (links.cycle origin).ncard
        ∧ (links.cycle origin).ncard ≤ column.size := by
  have hsize := ByteString.size_eq_length column
  have hshort : column.data.toList.length < rowLimit := by rw [← hsize]; exact short
  have hcounts := Histogram.count_ofBytes column
  have hbuilt := build?_eq used hcounts short
  have hsorts := sorts_ofColumn hshort
  have hlinks := follows_ofColumn hshort
  refine ⟨_, hbuilt, sortFrom_eq_writeAll column, ?_, ?_, hsorts, ?_, ?_, ?_⟩
  · rwa [build?, if_pos ⟨(total_eq hcounts).trans hsize.symm, short⟩, sortFrom_eq_writeAll] at hbuilt
  · have hstart := sorted_start hcounts used
    rw [slots_writesFrom hstart, Nat.sub_zero, hsize, ← List.range_eq_range']
    exact perm_slots _
  · rw [hsize]
    exact hsorts.perm_rows
  · rintro origin (horigin | ⟨hnone, rfl⟩)
    · exact hlinks.circles (by rwa [← hsize])
    · exact ⟨_, circles_of_size_eq_zero (by rw [hlinks.size, ← hsize, hnone])⟩
  · intro origin horigin
    rw [hsize] at horigin ⊢
    exact ⟨hlinks.ncard_cycle_pos horigin, hlinks.ncard_cycle_le horigin⟩

/-- The last column of the rotations of `abab`, whose links fall into two cycles of two rows. -/
theorem build?_sorts_bbaa :
    (⟨#[98, 98, 97, 97]⟩ : ByteArray).size < 2 ^ 24
      ∧ ∃ links, build? ⟨#[98, 98, 97, 97]⟩ (Histogram.ofBytes ⟨#[98, 98, 97, 97]⟩) ⟨#[7, 7]⟩
          = some links
        ∧ links.pairs = [(2, 97), (3, 97), (0, 98), (1, 98)]
        ∧ Sorts [98, 98, 97, 97] links
        ∧ (links.entries.toList.map row).Perm [0, 1, 2, 3]
        ∧ ∃ walk bytes after, Walk.start? links 1 = some walk ∧ walk.follow 2 = some (bytes, after)
          ∧ after.link = walk.link := by
  obtain ⟨links, hbuilt, _, _, _, hsorts, hrows, hwalks, _⟩ :=
    build?_sorts ⟨#[7, 7]⟩ (show (⟨#[98, 98, 97, 97]⟩ : ByteArray).size < 2 ^ 24 by decide)
  have hlinks := hbuilt.symm.trans (build?_eq ⟨#[7, 7]⟩ (Histogram.count_ofBytes _) (by decide))
  obtain rfl := Option.some.inj hlinks
  have hfollows : Follows [98, 98, 97, 97] _ := follows_ofColumn (by decide)
  obtain ⟨walk, hwalk⟩ := hwalks 1 (by decide)
  obtain ⟨bytes, after, hfollow, _, _, hback⟩ := hwalk.steps 2 (by decide)
  have hcycle := (hfollows.iterate_eq_iff (show 1 < 4 by decide) 2).mp (by decide)
  exact ⟨by decide, _, hbuilt, by decide, hsorts, hrows, walk, bytes, after, hwalk.starts, hfollow,
    hback.mpr hcycle⟩

end RotationLinks

end Bunzip

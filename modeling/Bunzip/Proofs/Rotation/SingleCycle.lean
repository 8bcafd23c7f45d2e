import Mathlib.Dynamics.PeriodicPts.Defs
import Bunzip.Proofs.Rotation.Inverse

/-!
# The transform undoes the walk

That the walk undoes the transform says nothing about a column that no transform has made. Here the
column is any column. Its links are a permutation of the rows. If they form a single cycle, the column
is the transform of the bytes that the walk spells, and the row that the walk starts from is the one
that holds them (`transform_undoes_walk`).

Row `p` is read along the links: it is what the walk from `p` spells. These rows ascend. Of two links,
the earlier one stands for a smaller byte, or for the same byte and leads to an earlier row. So of two
rows the earlier one is smaller, or they agree as far as they have been read, and the links have led to
two rows in the same order. The second cannot go on for ever: some way round the cycle the later row
has led to row 0, and no row is earlier than that one. So the rows differ, and the string is not
periodic. The cycle being a single one, the rows are all rotations of any of them. They are in order,
and each ends with its byte of the column.
-/

namespace Bunzip

/-! ## Along the links -/

namespace RotationLinks

/-- The row that the link of a row leads to. -/
def successor (links : RotationLinks) (p : Nat) : Nat := row (links.entries.getD p 0)

/-- The byte that the link of a row stands for. -/
def byteAt (links : RotationLinks) (p : Nat) : UInt8 := byte (links.entries.getD p 0)

/-- The links lead from every row to every other one. -/
def SingleCycle (links : RotationLinks) : Prop :=
  ∀ p q, p < links.size → q < links.size → ∃ k, links.successor^[k] p = q

/-- The bytes of the next `m` links from row `p` on. -/
def spelling (links : RotationLinks) (p m : Nat) : List UInt8 :=
  (List.range m).map fun k => links.byteAt (links.successor^[k] p)

section Spelling

variable (links : RotationLinks) (p m : Nat)

theorem length_spelling : (links.spelling p m).length = m := by
  rw [spelling, List.length_map, List.length_range]

theorem spelling_succ :
    links.spelling p (m + 1) = links.byteAt p :: links.spelling (links.successor p) m := by
  rw [spelling, List.range_succ_eq_map, List.map_cons, List.map_map]
  rfl

theorem spelling_concat :
    links.spelling p (m + 1) = links.spelling p m ++ [links.byteAt (links.successor^[m] p)] := by
  rw [spelling, List.range_succ, List.map_append]
  rfl

theorem take_spelling {k : Nat} (h : k ≤ m) :
    (links.spelling p m).take k = links.spelling p k := by
  rw [spelling, ← List.map_take, List.take_range, Nat.min_eq_left h, spelling]

/-- On a cycle, going on by some links turns what they spell. -/
theorem spelling_iterate (k : Nat) (hcycle : Function.IsPeriodicPt links.successor m p) :
    links.spelling (links.successor^[k] p) m = (links.spelling p m).rotate k := by
  refine List.ext_getElem (by rw [List.length_rotate, length_spelling, length_spelling]) ?_
  intro i _ _
  rw [List.getElem_rotate]
  simp only [spelling, List.getElem_map, List.getElem_range, List.length_map, List.length_range]
  rw [hcycle.iterate_mod_apply, Function.iterate_add_apply]

end Spelling

/-! ## Links in the order of a column -/

/-- The links of a column: each stands for the byte of the row that it leads to, and they ascend. -/
structure Follows (column : List UInt8) (links : RotationLinks) : Prop where
  size : links.size = column.length
  stands : ∀ p < column.length, column[links.successor p]? = some (links.byteAt p)
  ascends : ∀ p q, p < q → q < column.length → links.byteAt p < links.byteAt q
    ∨ links.byteAt p = links.byteAt q ∧ links.successor p < links.successor q

theorem link_ofColumn {column : List UInt8} (short : column.length < rowLimit) {p i : Nat}
    (h : (stableRows column)[p]? = some i) :
    (ofColumn column).successor p = i ∧ column[i]? = some ((ofColumn column).byteAt p) := by
  have hlt : i < column.length := mem_stableRows.mp (List.mem_of_getElem? h)
  have hlink : (ofColumn column).entries.getD p 0 = pack i column[i] := by
    rw [Array.getD_eq_getD_getElem?, getElem?_ofColumn, h, Option.map_some, Option.getD_some,
      List.getD_eq_getElem?_getD, List.getElem?_eq_getElem hlt, Option.getD_some]
  rw [successor, byteAt, hlink, row_pack _ (Nat.lt_trans hlt short),
    byte_pack _ (Nat.lt_trans hlt short)]
  exact ⟨rfl, List.getElem?_eq_getElem hlt⟩

theorem follows_ofColumn {column : List UInt8} (short : column.length < rowLimit) :
    Follows column (ofColumn column) where
  size := size_ofColumn column
  stands p hp := by
    rw [← length_stableRows column] at hp
    obtain ⟨hrow, hbyte⟩ := link_ofColumn short (List.getElem?_eq_getElem hp)
    rw [hrow, hbyte]
  ascends p q hpq hq := by
    rw [← length_stableRows column] at hq
    obtain ⟨hrow, hbyte⟩ := link_ofColumn short (List.getElem?_eq_getElem (Nat.lt_trans hpq hq))
    obtain ⟨hrow', hbyte'⟩ := link_ofColumn short (List.getElem?_eq_getElem hq)
    obtain ⟨a, b, ha, hb, hab⟩ :=
      List.pairwise_iff_getElem.mp (sorted_stableRows column) p q (Nat.lt_trans hpq hq) hq hpq
    obtain rfl := Option.some.inj (hbyte.symm.trans ha)
    obtain rfl := Option.some.inj (hbyte'.symm.trans hb)
    rw [hrow, hrow']
    exact hab

namespace Follows

variable {column : List UInt8} {links : RotationLinks} (h : Follows column links)

include h

theorem successor_lt {p : Nat} (hp : p < column.length) : links.successor p < column.length :=
  (List.getElem?_eq_some_iff.mp (h.stands p hp)).1

theorem iterate_lt {p : Nat} (hp : p < column.length) (k : Nat) :
    links.successor^[k] p < column.length := by
  induction k generalizing p with
  | zero => exact hp
  | succ k ih => exact ih (h.successor_lt hp)

/-- Of two rows, the earlier one is smaller, or they agree so far and lead on in the same order. -/
theorem spelling_lt_or {p q : Nat} (hpq : p < q) (hq : q < column.length) (m : Nat) :
    links.spelling p m < links.spelling q m
      ∨ links.spelling p m = links.spelling q m
        ∧ links.successor^[m] p < links.successor^[m] q := by
  induction m generalizing p q with
  | zero => exact .inr ⟨rfl, hpq⟩
  | succ m ih =>
    rw [spelling_succ, spelling_succ, List.cons_lt_cons_iff]
    rcases h.ascends p q hpq hq with hbyte | ⟨hbyte, hrow⟩
    · exact .inl (.inl hbyte)
    · rcases ih hrow (h.successor_lt hq) with hlt | ⟨heq, hlt⟩
      · exact .inl (.inr ⟨hbyte, hlt⟩)
      · exact .inr ⟨by rw [hbyte, heq], hlt⟩

/-- A row's walk spells what stands along the links, and then is at the link that they led to. -/
theorem follow_spelling {p : Nat} {link : UInt32} (hp : p < column.length)
    (hlink : links.entries[p]? = some link) {k m : Nat} (hk : k ≤ m) :
    ∃ after, Walk.follow k ⟨links, link, m⟩ = some (links.spelling p k, after)
      ∧ after.remaining = m - k ∧ links.entries[links.successor^[k] p]? = some after.link := by
  induction k generalizing p link m with
  | zero => exact ⟨_, rfl, rfl, hlink⟩
  | succ k ih =>
    obtain ⟨m, rfl⟩ := Nat.exists_eq_add_one_of_ne_zero (Nat.ne_of_gt (Nat.zero_lt_of_lt hk))
    have hget : links.entries.getD p 0 = link := by
      rw [Array.getD_eq_getD_getElem?, hlink, Option.getD_some]
    have hsucc : links.successor p < links.entries.size :=
      Nat.lt_of_lt_of_eq (h.successor_lt hp) h.size.symm
    have hnext := Array.getElem?_eq_getElem hsucc
    have hstep : Walk.next ⟨links, link, m + 1⟩
        = some (links.byteAt p, ⟨links, links.entries[links.successor p], m⟩) := by
      have hrow : row link = links.successor p := by rw [successor, hget]
      rw [Walk.next, if_neg (Nat.succ_ne_zero m)]
      simp only [hrow, hnext, byteAt, hget, Nat.add_sub_cancel]
    obtain ⟨after, hafter, hremaining, hlast⟩ :=
      ih (h.successor_lt hp) hnext (Nat.le_of_succ_le_succ hk)
    refine ⟨after, ?_, by rw [hremaining, Nat.add_sub_add_right], hlast⟩
    rw [Walk.follow, hstep]
    simp only [hafter]
    rw [spelling_succ]

/-- The walk from each row has a step for each byte of the column, and ends there. -/
theorem walk_spelling {p : Nat} (hp : p < column.length) :
    ∃ walk after, Walk.start? links p = some walk
      ∧ walk.follow column.length = some (links.spelling p column.length, after)
      ∧ after.next = none := by
  have hlt : p < links.entries.size := Nat.lt_of_lt_of_eq hp h.size.symm
  obtain ⟨after, hfollow, hremaining, _⟩ :=
    h.follow_spelling hp (Array.getElem?_eq_getElem hlt) (Nat.le_refl column.length)
  rw [Nat.sub_self] at hremaining
  refine ⟨_, after, ?_, hfollow, Walk.next_of_remaining_eq_zero hremaining⟩
  rw [Walk.start?, if_neg (by rw [h.size]; omega), Array.getElem?_eq_getElem hlt, h.size]

/-! ## On a single cycle -/

section Cycle

variable (single : links.SingleCycle) {p q : Nat}

include single

theorem perm_orbit (hp : p < column.length) :
    ((List.range (Function.minimalPeriod links.successor p)).map (links.successor^[·] p)).Perm
      (List.range column.length) := by
  have hsize := h.size
  obtain ⟨k, hk⟩ := single (links.successor p) p (by have := h.successor_lt hp; omega) (by omega)
  have hperiodic : p ∈ Function.periodicPts links.successor :=
    Function.mk_mem_periodicPts (Nat.succ_pos k) hk
  refine (List.perm_ext_iff_of_nodup (Cycle.nodup_coe_iff.mp Function.nodup_periodicOrbit)
    List.nodup_range).mpr fun q => ?_
  rw [← Cycle.mem_coe_iff, ← Function.periodicOrbit_def, Function.mem_periodicOrbit_iff hperiodic,
    List.mem_range]
  constructor
  · rintro ⟨k, rfl⟩
    exact h.iterate_lt hp k
  · intro hq
    exact single p q (by omega) (by omega)

/-- The cycle goes through every row once. -/
theorem minimalPeriod_eq (hp : p < column.length) :
    Function.minimalPeriod links.successor p = column.length := by
  have hlength := (h.perm_orbit single hp).length_eq
  rwa [List.length_map, List.length_range, List.length_range] at hlength

theorem isPeriodicPt (hp : p < column.length) :
    Function.IsPeriodicPt links.successor column.length p := by
  have hperiodic := Function.isPeriodicPt_minimalPeriod links.successor p
  rwa [h.minimalPeriod_eq single hp] at hperiodic

/-- **The rows along the links ascend.** -/
theorem spelling_lt (hpq : p < q) (hq : q < column.length) :
    links.spelling p column.length < links.spelling q column.length := by
  rcases h.spelling_lt_or hpq hq column.length with hlt | ⟨heq, _⟩
  · exact hlt
  · -- equal rows stay in order up to where the later one comes to row 0
    exfalso
    have hzero : 0 ∈ List.range column.length := List.mem_range.mpr (by omega)
    obtain ⟨k, hk, hback⟩ := List.mem_map.mp ((h.perm_orbit single hq).mem_iff.mpr hzero)
    rw [List.mem_range, h.minimalPeriod_eq single hq] at hk
    have hpart := congrArg (List.take k) heq
    rw [take_spelling _ _ _ (Nat.le_of_lt hk), take_spelling _ _ _ (Nat.le_of_lt hk)] at hpart
    rcases h.spelling_lt_or hpq hq k with hlt | ⟨_, hlt⟩
    · rw [hpart] at hlt
      exact List.lt_irrefl _ hlt
    · rw [hback] at hlt
      exact Nat.not_lt_zero _ hlt

theorem spelling_injective (hp : p < column.length) (hq : q < column.length)
    (heq : links.spelling p column.length = links.spelling q column.length) : p = q := by
  rcases Nat.lt_trichotomy p q with hlt | rfl | hlt
  · have := h.spelling_lt single hlt hq
    rw [heq] at this
    exact absurd this (List.lt_irrefl _)
  · rfl
  · have := h.spelling_lt single hlt hp
    rw [heq] at this
    exact absurd this (List.lt_irrefl _)

/-- A row ends with its byte of the column. -/
theorem getLastD_spelling (hp : p < column.length) :
    (links.spelling p column.length).getLastD 0 = column[p] := by
  obtain ⟨m, hm⟩ : ∃ m, column.length = m + 1 := ⟨column.length - 1, by omega⟩
  have hback : links.successor (links.successor^[m] p) = p := by
    have hperiodic := h.isPeriodicPt single hp
    rw [hm] at hperiodic
    rw [← Function.iterate_succ_apply' links.successor]
    exact hperiodic
  have hbyte := h.stands _ (h.iterate_lt hp m)
  rw [hback, List.getElem?_eq_getElem hp] at hbyte
  rw [hm, spelling_concat, List.getLastD_concat]
  exact (Option.some.inj hbyte).symm

/-- The rows along the links are the rotations of each of them, in order. -/
theorem rows_eq (hp : p < column.length)
    (rotations : SortedRotations (links.spelling p column.length)) :
    rotations.rows = (List.range column.length).map fun q => links.spelling q column.length := by
  refine List.Perm.eq_of_pairwise (fun _ _ _ _ => List.le_antisymm) rotations.sorted ?_ ?_
  · refine List.pairwise_map.mpr (List.pairwise_lt_range.imp_of_mem ?_)
    intro p q _ hq hpq
    exact List.le_of_lt (h.spelling_lt single hpq (List.mem_range.mp hq))
  · have hrotations : (List.range column.length).map (links.spelling p column.length).rotate
        = ((List.range column.length).map (links.successor^[·] p)).map
            fun q => links.spelling q column.length := by
      rw [List.map_map]
      refine List.map_congr_left fun k _ => ?_
      exact (links.spelling_iterate p _ k (h.isPeriodicPt single hp)).symm
    have horbit := h.perm_orbit single hp
    rw [h.minimalPeriod_eq single hp] at horbit
    have hperm := rotations.perm.map (links.spelling p column.length).rotate
    rw [length_spelling, hrotations] at hperm
    exact hperm.trans (horbit.map _)

theorem lastColumn_eq (hp : p < column.length)
    (rotations : SortedRotations (links.spelling p column.length)) :
    rotations.lastColumn = column := by
  rw [SortedRotations.lastColumn, h.rows_eq single hp, List.map_map]
  refine List.ext_getElem (by rw [List.length_map, List.length_range]) fun q _ hq => ?_
  rw [List.getElem_map, List.getElem_range]
  exact h.getLastD_spelling single hq

end Cycle

end Follows

end RotationLinks

/-! ## The transform of what is spelled -/

namespace SortedRotations

open RotationLinks

/-- The transform: the row that holds the string, and the last byte of each row. -/
def transform (s : List UInt8) : Nat × List UInt8 := (origin s, (stable s).lastColumn)

theorem transform_spelling {column : List UInt8} {links : RotationLinks} (h : Follows column links)
    (single : links.SingleCycle) {p : Nat} (hp : p < column.length) :
    transform (links.spelling p column.length) = (p, column) := by
  have hne : links.spelling p column.length ≠ [] := by
    intro hnil
    have hlength := links.length_spelling p column.length
    rw [hnil, List.length_nil] at hlength
    omega
  have hrow := rows_origin hne
  rw [h.rows_eq single hp, List.getElem?_map, Option.map_eq_some_iff] at hrow
  obtain ⟨q, hq, hsame⟩ := hrow
  obtain ⟨hlt, hget⟩ := List.getElem?_eq_some_iff.mp hq
  rw [List.length_range] at hlt
  rw [List.getElem_range] at hget
  subst hget
  rw [transform, h.lastColumn_eq single hp, h.spelling_injective single hlt hp hsame]

/--
The links of a column form a single cycle, and the walk from a row of the column along them spells
these bytes and ends there.
-/
structure CycleSpells (column : ByteArray) (place : Nat) (bytes : List UInt8) : Prop where
  short : column.size < 2 ^ 24
  inside : place < column.size
  walked : ∃ used links walk after, build? column (Histogram.ofBytes column) used = some links
    ∧ links.SingleCycle ∧ Walk.start? links place = some walk
    ∧ walk.follow column.size = some (bytes, after) ∧ after.next = none

theorem CycleSpells.transform_eq {column : ByteArray} {place : Nat} {bytes : List UInt8}
    (h : CycleSpells column place bytes) : transform bytes = (place, column.data.toList) := by
  obtain ⟨used, links, walk, after, hbuilt, single, hstart, hfollow, _⟩ := h.walked
  have hsize := ByteString.size_eq_length column
  have hinside : place < column.data.toList.length := by rw [← hsize]; exact h.inside
  have hshort : column.data.toList.length < rowLimit := by rw [← hsize]; exact h.short
  obtain rfl := Option.some.inj
    (hbuilt.symm.trans (build?_eq used (Histogram.count_ofBytes column) h.short))
  have hlinks := follows_ofColumn hshort
  obtain ⟨walk', after', hstart', hfollow', _⟩ := hlinks.walk_spelling hinside
  obtain rfl := Option.some.inj (hstart.symm.trans hstart')
  rw [hsize] at hfollow
  obtain ⟨rfl, _⟩ := Prod.mk.inj (Option.some.inj (hfollow.symm.trans hfollow'))
  exact transform_spelling hlinks single hinside

/--
**The inverse transform loses nothing.** The links of a column can be built in any storage. If they
form a single cycle, the walk from any row has a step for each byte of the column and ends there, and
the transform of the bytes that it spells is that row and the column. So no other row and no other
column of that kind spells them.
-/
theorem transform_undoes_walk :
    (∀ (column : ByteArray) (place : Nat) (used : RotationLinks), column.size < 2 ^ 24 →
      place < column.size →
      ∃ links, build? column (Histogram.ofBytes column) used = some links
        ∧ (links.SingleCycle → ∃ walk bytes after, Walk.start? links place = some walk
          ∧ walk.follow column.size = some (bytes, after) ∧ after.next = none
          ∧ transform bytes = (place, column.data.toList)))
    ∧ ∀ (column column' : ByteArray) (place place' : Nat) (bytes : List UInt8),
      CycleSpells column place bytes → CycleSpells column' place' bytes →
      column = column' ∧ place = place' := by
  constructor
  · intro column place used short inside
    have hsize := ByteString.size_eq_length column
    have hbuilt := build?_eq used (Histogram.count_ofBytes column) short
    refine ⟨_, hbuilt, fun single => ?_⟩
    have hinside : place < column.data.toList.length := by rw [← hsize]; exact inside
    have hlinks := follows_ofColumn (show column.data.toList.length < rowLimit by
      rw [← hsize]; exact short)
    obtain ⟨walk, after, hstart, hfollow, hended⟩ := hlinks.walk_spelling hinside
    rw [← hsize] at hfollow
    have hspells : CycleSpells column place _ :=
      ⟨short, inside, used, _, walk, after, hbuilt, single, hstart, hfollow, hended⟩
    exact ⟨walk, _, after, hstart, hfollow, hended, hspells.transform_eq⟩
  · intro column column' place place' bytes h h'
    have hsame := h.transform_eq.symm.trans h'.transform_eq
    obtain ⟨hplace, hcolumn⟩ := Prod.mk.inj hsame
    exact ⟨ByteArray.ext (Array.toList_inj.mp hcolumn), hplace⟩

/-- The last column of the rotations of `banana`, whose fourth one is the word itself. -/
theorem transform_undoes_walk_banana :
    (∃ links walk bytes after, build? ⟨#[110, 110, 98, 97, 97, 97]⟩
          (Histogram.ofBytes ⟨#[110, 110, 98, 97, 97, 97]⟩) ⟨#[7, 7]⟩ = some links
        ∧ links.SingleCycle ∧ Walk.start? links 3 = some walk
        ∧ walk.follow 6 = some (bytes, after) ∧ after.next = none
        ∧ transform bytes = (3, [110, 110, 98, 97, 97, 97]))
    ∧ CycleSpells ⟨#[110, 110, 98, 97, 97, 97]⟩ 3 [98, 97, 110, 97, 110, 97]
    ∧ ∀ column place, CycleSpells column place [98, 97, 110, 97, 110, 97] →
      column = ⟨#[110, 110, 98, 97, 97, 97]⟩ ∧ place = 3 := by
  have single : (ofColumn [110, 110, 98, 97, 97, 97]).SingleCycle := by
    intro p q hp hq
    have hreach : ∀ p < 6, ∀ q < 6, ∃ k < 6,
        (ofColumn [110, 110, 98, 97, 97, 97]).successor^[k] p = q := by decide
    obtain ⟨k, _, hk⟩ := hreach p hp q hq
    exact ⟨k, hk⟩
  have hbuilt := build?_eq ⟨#[7, 7]⟩ (Histogram.count_ofBytes ⟨#[110, 110, 98, 97, 97, 97]⟩)
    (by decide)
  have hlinks : Follows [110, 110, 98, 97, 97, 97] _ := follows_ofColumn (by decide)
  have hword : (ofColumn [110, 110, 98, 97, 97, 97]).spelling 3 6 = [98, 97, 110, 97, 110, 97] := by
    decide
  have hbanana : CycleSpells ⟨#[110, 110, 98, 97, 97, 97]⟩ 3 [98, 97, 110, 97, 110, 97] := by
    obtain ⟨walk, after, hstart, hfollow, hended⟩ := hlinks.walk_spelling (show 3 < 6 by decide)
    rw [← hword]
    exact ⟨by decide, by decide, _, _, walk, after, hbuilt, single, hstart, hfollow, hended⟩
  obtain ⟨hundone, honly⟩ := transform_undoes_walk
  obtain ⟨links, hlinks, hwalk⟩ :=
    hundone ⟨#[110, 110, 98, 97, 97, 97]⟩ 3 ⟨#[7, 7]⟩ (by decide) (by decide)
  obtain rfl := Option.some.inj (hlinks.symm.trans hbuilt)
  obtain ⟨walk, bytes, after, hstart, hfollow, hended, htransform⟩ := hwalk single
  exact ⟨⟨_, walk, bytes, after, hlinks, single, hstart, hfollow, hended, htransform⟩, hbanana,
    fun column place h => honly column _ place 3 _ h hbanana⟩

end SortedRotations

end Bunzip

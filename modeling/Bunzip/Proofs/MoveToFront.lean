import Bunzip.MoveToFront
import Mathlib

/-!
# What recency lists stand for

Ranks below `m` only ever bring numbers below `m` to the front: the first `m` places of the list hold
them at the start, and promoting one of these places rearranges them among themselves. So a rank that
is below the number of things ranked always names one of them.

A writer that keeps a list of the things themselves and moves them to the front in the same way stays
in step with the list of numbers.
-/

namespace Bunzip.MoveToFront

/-! ## The first numbers -/

/-- The first `m` places hold numbers below `m`. -/
structure Within (m : Nat) (list : MoveToFront) : Prop where
  length : m ≤ list.order.length
  below : ∀ (i : Nat) (value : UInt8), i < m → list.order[i]? = some value → value.toNat < m

theorem within_start {m : Nat} (hm : m ≤ 256) : start.Within m := by
  constructor
  · simpa [start] using hm
  · intro i value hi hvalue
    simp only [start, List.getElem?_map, Option.map_eq_some_iff] at hvalue
    obtain ⟨j, hj, rfl⟩ := hvalue
    obtain ⟨hlt, rfl⟩ := List.getElem?_eq_some_iff.mp hj
    rw [List.getElem_range, UInt8.toNat_ofNat']
    exact Nat.lt_of_le_of_lt (Nat.mod_le _ _) hi

theorem promote_eq {list : MoveToFront} {rank : Nat} (h : rank < list.order.length) :
    list.promote rank
      = some (list.order[rank], ⟨list.order[rank] :: list.order.eraseIdx rank⟩) := by
  rw [promote, List.getElem?_eq_getElem h]

/-- Promoting one of the first places gives one of their numbers and keeps them together. -/
theorem Within.promote {m rank : Nat} {list : MoveToFront} (h : list.Within m) (hrank : rank < m) :
    ∃ value after, list.promote rank = some (value, after) ∧ value.toNat < m
      ∧ after.Within m := by
  have hlt : rank < list.order.length := Nat.lt_of_lt_of_le hrank h.length
  have hvalue : list.order[rank].toNat < m := h.below rank _ hrank (List.getElem?_eq_getElem hlt)
  refine ⟨_, _, promote_eq hlt, hvalue, ?_, ?_⟩
  · rw [List.length_cons, List.length_eraseIdx_of_lt hlt]
    have hlength := h.length
    omega
  · intro i value hi hget
    cases i with
    | zero =>
      rw [List.getElem?_cons_zero] at hget
      cases hget
      exact hvalue
    | succ i =>
      -- the places in front of the rank have slid back by one, the others are where they were
      rw [List.getElem?_cons_succ, List.getElem?_eraseIdx] at hget
      split at hget
      · exact h.below i value (by omega) hget
      · exact h.below (i + 1) value hi hget

theorem Within.front {m : Nat} {list : MoveToFront} (h : list.Within m) (hm : 0 < m) :
    ∃ value, list.front = some value ∧ value.toNat < m := by
  have hlt : 0 < list.order.length := Nat.lt_of_lt_of_le hm h.length
  refine ⟨list.order[0], ?_, h.below 0 _ hm (List.getElem?_eq_getElem hlt)⟩
  rw [MoveToFront.front, List.head?_eq_getElem?, List.getElem?_eq_getElem hlt]

/-! ## Recency lists of other things -/

/-- The first places of the list stand for the things in order. -/
structure Tracks {α : Type} (thing : UInt8 → α) (list : MoveToFront) (order : List α) : Prop where
  length : order.length ≤ list.order.length
  first : (list.order.take order.length).map thing = order

theorem take_eraseIdx_of_le {α : Type} (items : List α) {rank n : Nat} (h : rank ≤ n) :
    (items.eraseIdx rank).take n = (items.take (n + 1)).eraseIdx rank := by
  apply List.ext_getElem?
  intro i
  simp only [List.getElem?_take, List.getElem?_eraseIdx]
  by_cases hi : i < n
  · rw [if_pos hi, if_pos (by omega : i < n + 1), if_pos (by omega : i + 1 < n + 1)]
  · rw [if_neg hi, if_neg (by omega : ¬i < rank), if_neg (by omega)]

/-- At the start the numbers are in ascending order. -/
theorem tracks_start {α : Type} {thing : UInt8 → α} {order : List α} (hlength : order.length ≤ 256)
    (h : ∀ (i : Nat) (hi : i < order.length), thing (UInt8.ofNat i) = order[i]) :
    start.Tracks thing order := by
  have hstart : start.order.length = 256 := by rw [start, List.length_map, List.length_range]
  refine ⟨by rwa [hstart], ?_⟩
  apply List.ext_getElem
  · rw [List.length_map, List.length_take, hstart, Nat.min_eq_left hlength]
  · intro i hi hi'
    simp only [start, List.getElem_map, List.getElem_take, List.getElem_range]
    exact h i hi'

/-- Promoting by the rank of a thing gives the number for it. -/
theorem Tracks.promote {α : Type} [BEq α] [LawfulBEq α] {thing : UInt8 → α} {list : MoveToFront}
    {order : List α} (h : list.Tracks thing order) {x : α} (hx : x ∈ order) :
    ∃ value after, list.promote (order.idxOf x) = some (value, after) ∧ thing value = x
      ∧ after.Tracks thing (x :: order.erase x) := by
  have hrank : order.idxOf x < order.length := List.idxOf_lt_length_of_mem hx
  have hlt : order.idxOf x < list.order.length := Nat.lt_of_lt_of_le hrank h.length
  have hthing : thing list.order[order.idxOf x] = x := by
    have hget : ((list.order.take order.length).map thing)[order.idxOf x]? = some x := by
      rw [h.first, List.getElem?_eq_getElem hrank, List.getElem_idxOf]
    rw [List.getElem?_map, List.getElem?_take_of_lt hrank, List.getElem?_eq_getElem hlt] at hget
    exact Option.some.inj hget
  have hlength : (order.erase x).length = order.length - 1 := List.length_erase_of_mem hx
  refine ⟨_, _, promote_eq hlt, hthing, ?_, ?_⟩
  · have := h.length
    rw [List.length_cons, List.length_cons, hlength, List.length_eraseIdx_of_lt hlt]
    omega
  · have hfirst : (list.order.take ((order.erase x).length + 1)).map thing = order := by
      rw [hlength, Nat.sub_add_cancel (by omega)]
      exact h.first
    rw [List.length_cons, List.take_succ_cons, List.map_cons, hthing,
      take_eraseIdx_of_le _ (by omega), ← List.eraseIdx_map, hfirst, List.eraseIdx_idxOf_eq_erase]

theorem Tracks.front {α : Type} {thing : UInt8 → α} {list : MoveToFront} {x : α} {order : List α}
    (h : list.Tracks thing (x :: order)) :
    ∃ value, list.front = some value ∧ thing value = x := by
  have hfirst := h.first
  cases hlist : list.order with
  | nil =>
    rw [hlist] at hfirst
    cases hfirst
  | cons value others =>
    rw [hlist, List.length_cons, List.take_succ_cons, List.map_cons, List.cons.injEq] at hfirst
    exact ⟨value, by rw [MoveToFront.front, hlist, List.head?_cons], hfirst.1⟩

end Bunzip.MoveToFront

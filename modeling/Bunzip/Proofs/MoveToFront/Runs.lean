import Bunzip.Proofs.MoveToFront

/-!
# Runs of promotions

One promotion takes a number out of the list and puts it in front. What stood before it slides back by
one place, what stands behind it stays, and so the others keep their order (`Promotes`). If the rank is
below `m`, all of this happens within the first `m` places. Those hold the numbers below `m` at the
start, and therefore after any ranks below `m`; the other places are never touched (`Arranged`).

A writer that keeps such a list of the things it names, and gives the rank of each, is undone by
promoting the ranks one after the other. What the numbers stand for plays no part in that.
-/

namespace Bunzip.MoveToFront

/-! ## One promotion -/

/-- What promoting a rank gives, and what it does to the list. -/
structure Promotes (rank : Nat) (list : MoveToFront) (value : UInt8) (after : MoveToFront) :
    Prop where
  names : list.order[rank]? = some value
  front : after.front = some value
  /-- What stood before the number slides back by one place. -/
  slides : ∀ i < rank, after.order[i + 1]? = list.order[i]?
  /-- What stands behind it stays where it is. -/
  stays : ∀ i, rank < i → after.order[i]? = list.order[i]?
  /-- The others keep their order. -/
  others : after.order.filter (· ≠ value) = list.order.filter (· ≠ value)

/-- A list is split at a rank, and promoting it moves the number there to the front. -/
theorem exists_split {list : MoveToFront} {rank : Nat} (h : rank < list.order.length) :
    ∃ before value behind, list.order = before ++ value :: behind ∧ before.length = rank
      ∧ list.promote rank = some (value, ⟨value :: (before ++ behind)⟩) := by
  refine ⟨list.order.take rank, list.order[rank], list.order.drop (rank + 1), ?_, ?_, ?_⟩
  · rw [← List.drop_eq_getElem_cons h, List.take_append_drop]
  · rw [List.length_take, Nat.min_eq_left (Nat.le_of_lt h)]
  · rw [promote_eq h, List.eraseIdx_eq_take_drop_succ]

/-- Every rank that is in the list can be promoted. -/
theorem promotes_of_lt {list : MoveToFront} {rank : Nat} (h : rank < list.order.length) :
    ∃ value after, list.promote rank = some (value, after) ∧ Promotes rank list value after := by
  obtain ⟨before, value, behind, horder, rfl, hpromote⟩ := exists_split h
  refine ⟨value, _, hpromote, ?_, rfl, ?_, ?_, ?_⟩
  · rw [horder, List.getElem?_append_right (Nat.le_refl _), Nat.sub_self]
    rfl
  · intro i hi
    rw [horder, List.getElem?_cons_succ, List.getElem?_append_left hi,
      List.getElem?_append_left hi]
  · intro i hi
    obtain ⟨k, rfl⟩ := Nat.exists_eq_add_of_lt hi
    rw [horder, List.getElem?_cons_succ, List.getElem?_append_right (by omega),
      List.getElem?_append_right (by omega), Nat.add_sub_cancel_left, Nat.add_assoc,
      Nat.add_sub_cancel_left, List.getElem?_cons_succ]
  · rw [horder]
    simp

/-! ## The places that ranks below a bound reach -/

/-- The numbers below `m` in ascending order. -/
def numbers (m : Nat) : List UInt8 := (List.range m).map UInt8.ofNat

theorem length_numbers (m : Nat) : (numbers m).length = m := by
  rw [numbers, List.length_map, List.length_range]

theorem mem_numbers {m : Nat} {value : UInt8} :
    value ∈ numbers m ↔ value.toNat < m := by
  rw [numbers, List.mem_map]
  constructor
  · rintro ⟨i, hi, rfl⟩
    rw [UInt8.toNat_ofNat']
    exact Nat.lt_of_le_of_lt (Nat.mod_le i _) (List.mem_range.mp hi)
  · intro hvalue
    exact ⟨value.toNat, List.mem_range.mpr hvalue, UInt8.ofNat_toNat⟩

theorem take_numbers {m n : Nat} (h : m ≤ n) : (numbers n).take m = numbers m := by
  rw [numbers, ← List.map_take, List.take_range, Nat.min_eq_left h, numbers]

/-- The numbers below `m` in some order, and behind them the others as they were at the start. -/
structure Arranged (m : Nat) (list : MoveToFront) : Prop where
  first : (list.order.take m).Perm (numbers m)
  rest : list.order.drop m = (numbers 256).drop m

theorem arranged_start {m : Nat} (hm : m ≤ 256) : start.Arranged m where
  first := by
    show ((numbers 256).take m).Perm (numbers m)
    rw [take_numbers hm]
  rest := rfl

namespace Arranged

variable {m : Nat} {list : MoveToFront}

/-- The list is a permutation of all numbers. -/
theorem perm (h : list.Arranged m) (hm : m ≤ 256) : list.order.Perm (numbers 256) := by
  rw [← List.take_append_drop m list.order, ← List.take_append_drop m (numbers 256), h.rest,
    take_numbers hm]
  exact h.first.append_right _

theorem lt_length (h : list.Arranged m) (hm : m ≤ 256) {rank : Nat} (hrank : rank < m) :
    rank < list.order.length := by
  rw [(h.perm hm).length_eq, length_numbers]
  exact Nat.lt_of_lt_of_le hrank hm

/-- A rank below `m` names a number below `m`, and only the first places are rearranged. -/
theorem promote (h : list.Arranged m) (hm : m ≤ 256) {rank : Nat} (hrank : rank < m) :
    ∃ value after, list.promote rank = some (value, after) ∧ value.toNat < m
      ∧ after.Arranged m := by
  obtain ⟨before, value, behind, horder, rfl, hpromote⟩ := exists_split (h.lt_length hm hrank)
  obtain ⟨k, rfl⟩ := Nat.exists_eq_add_of_lt hrank
  obtain ⟨hfirst, hrest⟩ := h
  -- the bound cuts the list behind the number, before the promotion and after it
  rw [horder, Nat.add_assoc, List.take_length_add_append, List.take_succ_cons] at hfirst
  rw [horder, Nat.add_assoc, List.drop_length_add_append, List.drop_succ_cons] at hrest
  refine ⟨value, _, hpromote, ?_, ?_, ?_⟩
  · rw [← mem_numbers]
    exact hfirst.mem_iff.mp (List.mem_append_right _ List.mem_cons_self)
  · rw [List.take_succ_cons, List.take_length_add_append]
    exact List.perm_middle.symm.trans hfirst
  · rw [List.drop_succ_cons, List.drop_length_add_append]
    exact hrest

end Arranged

/-! ## Many promotions -/

/-- Promotes some ranks one after the other, and gives their numbers and the list that is left. -/
def promoteAll : (ranks : List Nat) → (list : MoveToFront) → Option (List UInt8 × MoveToFront)
  | [], list => some ([], list)
  | rank :: ranks, list =>
    match list.promote rank with
    | none => none
    | some (value, after) =>
      match promoteAll ranks after with
      | none => none
      | some (values, last) => some (value :: values, last)

theorem promoteAll_cons {rank : Nat} {list after last : MoveToFront} {value : UInt8}
    {ranks : List Nat} {values : List UInt8} (h : list.promote rank = some (value, after))
    (hranks : promoteAll ranks after = some (values, last)) :
    promoteAll (rank :: ranks) list = some (value :: values, last) := by
  simp only [promoteAll, h, hranks]

/-- Ranks below `m` only ever rearrange the first `m` places. -/
theorem Arranged.promoteAll {m : Nat} {list : MoveToFront} (h : list.Arranged m) (hm : m ≤ 256)
    {ranks : List Nat} (hranks : ∀ rank ∈ ranks, rank < m) :
    ∃ values last, promoteAll ranks list = some (values, last)
      ∧ (∀ value ∈ values, value.toNat < m) ∧ last.Arranged m := by
  induction ranks generalizing list with
  | nil => exact ⟨[], list, rfl, fun _ hmem => (List.not_mem_nil hmem).elim, h⟩
  | cons rank ranks ih =>
    obtain ⟨hrank, hranks⟩ := List.forall_mem_cons.mp hranks
    obtain ⟨value, after, hpromote, hvalue, hafter⟩ := h.promote hm hrank
    obtain ⟨values, last, hrest, hvalues, hlast⟩ := ih hafter hranks
    exact ⟨value :: values, last, promoteAll_cons hpromote hrest,
      List.forall_mem_cons.mpr ⟨hvalue, hvalues⟩, hlast⟩

/-! ## Naming things by their ranks -/

/-- The ranks of some things; `order` lists the things, the one named last in front. -/
def ranksOf {α : Type} [BEq α] (order : List α) : (things : List α) → List Nat
  | [] => []
  | x :: xs => order.idxOf x :: ranksOf (x :: order.erase x) xs

section Ranks

variable {α : Type} [BEq α] [LawfulBEq α] {order : List α} {xs : List α}

/-- Naming a thing leaves the same things in the list. -/
theorem forall_mem_moved {x : α} (h : ∀ y ∈ x :: xs, y ∈ order) :
    x ∈ order ∧ (x :: order.erase x).Perm order ∧ ∀ y ∈ xs, y ∈ x :: order.erase x := by
  obtain ⟨hx, hxs⟩ := List.forall_mem_cons.mp h
  have hperm : (x :: order.erase x).Perm order := (List.perm_cons_erase hx).symm
  exact ⟨hx, hperm, fun y hy => hperm.mem_iff.mpr (hxs y hy)⟩

/-- There are as many ranks as there are things to be ranked. -/
theorem lt_of_mem_ranksOf (hxs : ∀ x ∈ xs, x ∈ order) {rank : Nat} (h : rank ∈ ranksOf order xs) :
    rank < order.length := by
  induction xs generalizing order with
  | nil => exact nomatch h
  | cons x xs ih =>
    obtain ⟨hx, hperm, hrest⟩ := forall_mem_moved hxs
    rcases List.mem_cons.mp h with rfl | h
    · exact List.idxOf_lt_length_of_mem hx
    · rw [← hperm.length_eq]
      exact ih hrest h

/-- Things that are never named may stand behind the others, and change no rank. -/
theorem ranksOf_append (hxs : ∀ x ∈ xs, x ∈ order) (others : List α) :
    ranksOf (order ++ others) xs = ranksOf order xs := by
  induction xs generalizing order with
  | nil => rfl
  | cons x xs ih =>
    obtain ⟨hx, _, hrest⟩ := forall_mem_moved hxs
    rw [ranksOf, ranksOf, List.idxOf_append_of_mem hx, List.erase_append_left others hx,
      ← List.cons_append, ih hrest]

/-- Promoting the ranks of some things gives the numbers that stand for them. -/
theorem Tracks.promoteAll {thing : UInt8 → α} {list : MoveToFront} (h : list.Tracks thing order)
    (hxs : ∀ x ∈ xs, x ∈ order) :
    ∃ values last, MoveToFront.promoteAll (ranksOf order xs) list = some (values, last)
      ∧ values.map thing = xs := by
  induction xs generalizing order list with
  | nil => exact ⟨[], list, rfl, rfl⟩
  | cons x xs ih =>
    obtain ⟨hx, _, hrest⟩ := forall_mem_moved hxs
    obtain ⟨value, after, hpromote, hvalue, hafter⟩ := h.promote hx
    obtain ⟨values, last, hvalues, hmap⟩ := ih hafter hrest
    refine ⟨value :: values, last, promoteAll_cons hpromote hvalues, ?_⟩
    rw [List.map_cons, hvalue, hmap]

end Ranks

/-- The numbers below `m` stand for themselves. -/
theorem tracks_numbers {m : Nat} (hm : m ≤ 256) : start.Tracks id (numbers m) :=
  tracks_start (by rwa [length_numbers]) fun i hi => by simp [numbers]

/--
**Ranks below `m` stay among the numbers below `m`.** After any of them, the list is a permutation of
all numbers, its first `m` places hold those below `m`, and the others are where they were at the
start. The next rank below `m` gives the number at its place and moves it to the front. Promoting the
ranks of any numbers below `m` gives these numbers again, whether the writer lists just the numbers
below `m` or more of them.
-/
theorem promotions_within {m : Nat} (hm : m ≤ 256) :
    (∀ ranks : List Nat, (∀ rank ∈ ranks, rank < m) →
      ∃ values list, promoteAll ranks start = some (values, list)
        ∧ (∀ value ∈ values, value.toNat < m)
        ∧ list.order.Perm (numbers 256) ∧ (list.order.take m).Perm (numbers m)
        ∧ list.order.drop m = (numbers 256).drop m
        ∧ ∀ rank < m, ∃ value after, list.promote rank = some (value, after)
          ∧ value.toNat < m ∧ Promotes rank list value after)
    ∧ ∀ values : List UInt8, (∀ value ∈ values, value.toNat < m) → ∀ n, m ≤ n →
      (∀ rank ∈ ranksOf (numbers n) values, rank < m)
        ∧ ∃ list, promoteAll (ranksOf (numbers n) values) start = some (values, list) := by
  constructor
  · intro ranks hranks
    obtain ⟨values, list, hlist, hvalues, harranged⟩ := (arranged_start hm).promoteAll hm hranks
    refine ⟨values, list, hlist, hvalues, harranged.perm hm, harranged.first, harranged.rest, ?_⟩
    intro rank hrank
    obtain ⟨value, after, hpromote, hpromotes⟩ := promotes_of_lt (harranged.lt_length hm hrank)
    obtain ⟨value', after', hpromote', hbelow, _⟩ := harranged.promote hm hrank
    obtain ⟨rfl, rfl⟩ := Prod.mk.inj (Option.some.inj (hpromote.symm.trans hpromote'))
    exact ⟨value, after, hpromote, hbelow, hpromotes⟩
  · intro values hvalues n hn
    have hmem : ∀ value ∈ values, value ∈ numbers m :=
      fun value hvalue => mem_numbers.mpr (hvalues value hvalue)
    rw [← List.take_append_drop m (numbers n), take_numbers hn, ranksOf_append hmem]
    refine ⟨fun rank hrank => ?_, ?_⟩
    · have hlt := lt_of_mem_ranksOf hmem hrank
      rwa [length_numbers] at hlt
    · obtain ⟨values', list, hlist, hmap⟩ := (tracks_numbers hm).promoteAll hmem
      rw [List.map_id] at hmap
      rw [hmap] at hlist
      exact ⟨list, hlist⟩

/-- The letters of `banana` by their numbers, and one promotion more. -/
theorem promotions_within_three :
    3 ≤ 256 ∧ (∀ rank ∈ [1, 1, 2, 1, 1, 1], rank < 3)
      ∧ (∀ value ∈ ([1, 0, 2, 0, 2, 0] : List UInt8), value.toNat < 3)
      ∧ ranksOf (numbers 3) [1, 0, 2, 0, 2, 0] = [1, 1, 2, 1, 1, 1]
      ∧ ∃ list, promoteAll [1, 1, 2, 1, 1, 1] start = some ([1, 0, 2, 0, 2, 0], list)
        ∧ (list.order.take 3).Perm (numbers 3) ∧ list.order.drop 3 = (numbers 256).drop 3
        ∧ ∃ value after, list.promote 2 = some (value, after) ∧ Promotes 2 list value after := by
  have hranks : ∀ rank ∈ [1, 1, 2, 1, 1, 1], rank < 3 := by decide
  have hvalues : ∀ value ∈ ([1, 0, 2, 0, 2, 0] : List UInt8), value.toNat < 3 := by simp
  have hbanana : ranksOf (numbers 3) [1, 0, 2, 0, 2, 0] = [1, 1, 2, 1, 1, 1] := by decide
  obtain ⟨hwithin, hundone⟩ := promotions_within (show 3 ≤ 256 by decide)
  obtain ⟨values, list, hlist, _, _, hfirst, hrest, hpromotes⟩ := hwithin _ hranks
  obtain ⟨_, last, hlast⟩ := hundone _ hvalues 3 (Nat.le_refl 3)
  rw [hbanana, hlist] at hlast
  obtain ⟨rfl, rfl⟩ := Prod.mk.inj (Option.some.inj hlast)
  obtain ⟨value, after, hpromote, _, hpromoted⟩ := hpromotes 2 (by decide)
  exact ⟨by decide, hranks, hvalues, hbanana, list, hlist, hfirst, hrest, value, after, hpromote,
    hpromoted⟩

end Bunzip.MoveToFront

import Bunzip.Proofs.Block.Draws
import Bunzip.Proofs.Block.Growth

/-!
# When a block is exhausted

A block calls itself exhausted when no copies are owed and its walk has made all its steps. That
everything has been handed out is not quite the same. The last byte of a walk may be the count behind
four equal bytes, and the count may be zero. When the four bytes have been handed out, nothing is left,
but the walk has a step to go until somebody asks for more. Apart from this, a block knows when it has
handed out everything.

This needs walks that make all their steps, whatever the state was in which the block was read.
-/

namespace Bunzip

/-! ## Every walk makes all its steps -/

namespace RotationLinks

theorem mem_blank {used : RotationLinks} {rows : Nat} {link : UInt32}
    (h : link ∈ (used.blank rows).entries) : link = 0 ∧ 0 < rows := by
  have hfold : ∀ entries : Array UInt32,
      link ∈ Nat.fold rows (fun _ _ entries => entries.push 0) entries →
      link ∈ entries ∨ link = 0 ∧ 0 < rows := by
    clear h
    intro entries
    induction rows with
    | zero => exact .inl
    | succ rows ih =>
      intro h
      rw [Nat.fold_succ, Array.mem_push] at h
      rcases h with h | rfl
      · rcases ih h with hmem | ⟨hzero, _⟩
        · exact .inl hmem
        · exact .inr ⟨hzero, Nat.succ_pos rows⟩
      · exact .inr ⟨rfl, Nat.succ_pos rows⟩
  rcases hfold _ h with hmem | hzero
  · have hnone : used.entries.shrink 0 = #[] := Array.eq_empty_of_size_eq_zero (by simp)
    rw [hnone] at hmem
    exact absurd hmem (Array.not_mem_empty link)
  · exact hzero

/-- Sorting in rows of a column adds links to rows of the column. -/
theorem row_of_mem_sortFrom {column : ByteArray} {i : Nat} {free : Histogram}
    {links sorted : RotationLinks} (hshort : column.size < rowLimit)
    (hlinks : ∀ link ∈ links.entries, row link < column.size)
    (h : sortFrom column i free links = some sorted) :
    ∀ link ∈ sorted.entries, row link < column.size := by
  fun_induction sortFrom column i free links with
  | case1 i free links inside byte slot fits ih =>
    refine ih ?_ h
    intro link hmem
    rcases Array.mem_or_eq_of_mem_set (w := fits) hmem with hmem | rfl
    · exact hlinks link hmem
    · rw [row_pack byte (Nat.lt_trans inside hshort)]
      exact inside
  | case2 => cases h
  | case3 =>
    cases h
    exact hlinks

theorem row_of_mem_build? {column : ByteArray} {counts : Histogram} {used links : RotationLinks}
    (h : build? column counts used = some links) :
    ∀ link ∈ links.entries, row link < links.size := by
  rw [size_build? h]
  unfold build? at h
  split at h
  · next hcounted =>
    refine row_of_mem_sortFrom hcounted.2 ?_ h
    intro link hmem
    obtain ⟨rfl, hsome⟩ := mem_blank hmem
    exact hsome
  · cases h

end RotationLinks

namespace Walk

theorem closed_start? {links : RotationLinks} {origin : Nat} {walk : Walk}
    (hrows : ∀ link ∈ links.entries, RotationLinks.row link < links.size)
    (h : start? links origin = some walk) : walk.Closed := by
  have hall : ∀ (p : Nat) (link : UInt32), links.entries[p]? = some link →
      RotationLinks.row link < links.size := by
    intro p link hlink
    exact hrows link (Array.mem_of_getElem? hlink)
  unfold start? at h
  split at h
  · cases h
    exact ⟨hall, fun hleft => absurd hleft (Nat.lt_irrefl 0)⟩
  · split at h
    · cases h
    · next link hlink =>
      cases h
      exact ⟨hall, fun _ => hall origin link hlink⟩

/-- A walk that stays among the rows spells a byte with each step. -/
theorem Closed.bytes_eq_nil_iff {walk : Walk} (h : walk.Closed) :
    walk.bytes = [] ↔ walk.remaining = 0 := by
  constructor
  · intro hbytes
    apply h.remaining
    cases hnext : walk.next with
    | none => rfl
    | some found =>
      obtain ⟨byte, after⟩ := found
      rw [bytes_of_next hnext] at hbytes
      cases hbytes
  · intro hzero
    exact bytes_of_none (next_of_remaining_eq_zero hzero)

end Walk

theorem BlockDecoder.closed_of_readBlock {index : Nat} {bench after : Bench} {block : DecodedBlock}
    {notes : List Note} (h : readBlock index bench = .ok block after notes) : block.Sound := by
  obtain ⟨_, _, _, _, hwalk, _⟩ := madeOf_readBlock h
  obtain ⟨_, links, hlinks, hstart⟩ := links_of_startWalk hwalk
  exact Walk.closed_start? (RotationLinks.row_of_mem_build? hlinks) hstart

/-! ## What unrolls to nothing -/

/-- Only a count of no copies adds nothing, and no two counts stand in a row. -/
theorem RunLength.unroll_eq_nil_iff {runs : RunLength} {bytes : List UInt8} :
    runs.unroll bytes = [] ↔ bytes = [] ∨ runs.run = 4 ∧ bytes = [0] := by
  have hliteral : ∀ (runs : RunLength) (byte : UInt8) (bytes : List UInt8), runs.run ≠ 4 →
      runs.unroll (byte :: bytes) ≠ [] := by
    intro runs byte bytes hrun
    rw [unroll]
    rcases hpush : runs.push byte with ⟨literal | ⟨repeated, count⟩, runs'⟩
    · exact List.cons_ne_nil _ _
    · exact absurd (run_of_repeated hpush).1 hrun
  rcases bytes with _ | ⟨byte, bytes⟩
  · exact ⟨fun _ => .inl rfl, fun _ => rfl⟩
  by_cases hrun : runs.run = 4
  · have hcount : runs.unroll (byte :: bytes)
        = List.replicate byte.toNat runs.last ++ (⟨runs.last, 0⟩ : RunLength).unroll bytes := by
      rw [unroll, push, if_pos hrun]
    rw [hcount, List.append_eq_nil_iff, List.replicate_eq_nil_iff]
    constructor
    · rintro ⟨hzero, hrest⟩
      rcases bytes with _ | ⟨next, bytes⟩
      · obtain rfl : byte = 0 := UInt8.toNat_inj.mp hzero
        exact .inr ⟨hrun, rfl⟩
      · exact absurd hrest (hliteral _ next bytes (by decide : 0 ≠ 4))
    · rintro (hnone | ⟨_, hlast⟩)
      · cases hnone
      · cases hlast
        exact ⟨rfl, rfl⟩
  · constructor
    · intro hnone
      exact absurd hnone (hliteral runs byte bytes hrun)
    · rintro (hnone | ⟨hfour, _⟩)
      · cases hnone
      · exact absurd hfour hrun

namespace Unrolled

/-- All that is left is to read a count, and the count is zero. -/
def CountPending (rest : Unrolled) : Prop :=
  rest.owed = 0 ∧ rest.runs.run = 4 ∧ rest.walk.bytes = [0]

theorem isExhausted_iff {rest : Unrolled} (h : rest.walk.Closed) :
    rest.isExhausted = true ↔ rest.left = [] ∧ ¬rest.CountPending := by
  have hparts : rest.isExhausted = true ↔ rest.owed = 0 ∧ rest.walk.bytes = [] := by
    rw [h.bytes_eq_nil_iff, isExhausted, Bool.and_eq_true, beq_iff_eq, beq_iff_eq]
  rw [hparts, left, List.append_eq_nil_iff, List.replicate_eq_nil_iff, RunLength.unroll_eq_nil_iff,
    CountPending]
  constructor
  · rintro ⟨howed, hnone⟩
    refine ⟨⟨howed, .inl hnone⟩, ?_⟩
    rintro ⟨_, _, hsome⟩
    rw [hnone] at hsome
    cases hsome
  · rintro ⟨⟨howed, hnone | ⟨hfour, hzero⟩⟩, hpending⟩
    · exact ⟨howed, hnone⟩
    · exact absurd ⟨howed, hfour, hzero⟩ hpending

/-- What is left of a walk are its last bytes. -/
theorem fill_bytes (walk : Walk) (runs : RunLength) (owed : Nat) (copied : UInt8) (room : Nat)
    (out : ByteArray) : (fill walk runs owed copied room out).2.walk.bytes <:+ walk.bytes := by
  fun_induction fill walk runs owed copied room out with
  | case1 => exact List.suffix_rfl
  | case2 walk runs owed copied room out more waiting n ih => exact ih
  | case3 => exact List.suffix_rfl
  | case4 walk runs owed copied room out more none byte after step literal runs' pushed ih =>
    rw [Walk.bytes_of_next step]
    exact ih.trans (List.suffix_cons byte after.bytes)
  | case5 walk runs owed copied room out more none byte after step count repeated runs' pushed ih =>
    rw [Walk.bytes_of_next step]
    exact ih.trans (List.suffix_cons byte after.bytes)

end Unrolled

/-! ## A block that has been read -/

/-- Draws on a block leave a walk that still stays among the rows and goes the same way. -/
theorem Draw.walk_after (draws : List Draw) (haccepted : ∀ draw ∈ draws, draw.Accepted)
    {block : DecodedBlock} (h : block.Sound) :
    (after draws block).Sound
      ∧ (after draws block).rest.walk.bytes <:+ block.rest.walk.bytes := by
  refine kept (motive := fun _ now => now.Sound
    ∧ now.rest.walk.bytes <:+ block.rest.walk.bytes) ⟨h, List.suffix_rfl⟩ ?_ draws haccepted
  rintro _ now room ⟨hsound, hbytes⟩
  exact ⟨hsound.read room, (Unrolled.fill_bytes _ _ _ _ _ _).trans hbytes⟩

/--
**A block knows when it has handed out everything, but for a count that is zero.** After any draws,
everything has been handed out if and only if no further read gives anything. The block calls itself
exhausted just then, except while it has yet to read that nothing follows four equal bytes. That can
only happen if its walk ends with a zero, and one more read with room settles it.
-/
theorem BlockDecoder.isExhausted_of_readBlock {index : Nat} {bench bench' : Bench}
    {block : DecodedBlock} {notes : List Note} (h : readBlock index bench = .ok block bench' notes)
    (draws : List Draw) (haccepted : ∀ draw ∈ draws, draw.Accepted) :
    ((Draw.handedOut draws block).data.toList = block.expansion
        ↔ ∀ room, ((Draw.after draws block).read room).1.size = 0)
      ∧ ((Draw.after draws block).isExhausted = true
        ↔ (Draw.handedOut draws block).data.toList = block.expansion
          ∧ ¬(Draw.after draws block).rest.CountPending)
      ∧ ((Draw.after draws block).rest.CountPending → block.rest.walk.bytes.getLast? = some 0)
      ∧ ∀ room, 0 < room → ((Draw.after draws block).read room).1.size = 0 →
        ((Draw.after draws block).read room).2.isExhausted = true := by
  obtain ⟨hsound, hbytes⟩ := Draw.walk_after draws haccepted (closed_of_readBlock h)
  have hleft := (Draw.handedOut_after draws haccepted block).left
  rw [left_of_readBlock h] at hleft
  generalize Draw.handedOut draws block = bytes at hleft ⊢
  generalize Draw.after draws block = now at hsound hbytes hleft ⊢
  have hnow : now.isExhausted = true ↔ now.left = [] ∧ ¬now.rest.CountPending :=
    Unrolled.isExhausted_iff hsound
  have hall : bytes.data.toList = block.expansion ↔ now.left = [] := by
    rw [← hleft]
    exact List.self_eq_append_right
  have hnone : ∀ room, (now.read room).1.size = (now.left.take room).length := by
    intro room
    rw [ByteString.size_eq_length, now.toList_read]
  refine ⟨?_, ?_, ?_, ?_⟩
  · rw [hall]
    constructor
    · intro hnil room
      rw [hnone, hnil, List.take_nil, List.length_nil]
    · intro hnothing
      have hfirst := hnothing now.left.length
      rw [hnone, List.take_length] at hfirst
      exact List.length_eq_zero_iff.mp hfirst
  · rw [hnow, hall]
  · rintro ⟨_, _, hzero⟩
    obtain ⟨front, hfront⟩ := hbytes
    rw [← hfront, hzero, List.getLast?_append]
    rfl
  · intro room hroom hempty
    exact (hsound.read room).isExhausted (DecodedBlock.atEnd_of_read_empty hroom hempty)

/-- All four bytes go into a buffer that has just room for them. -/
theorem left_after_four : (fourEqualBlock.read 4).2.left = [] := by
  have hleft : fourEqualBlock.left = fourEqualBlock.expansion := DecodedBlock.left_of_start rfl
  rw [DecodedBlock.left_read, hleft, fourEqualBlock_expansion]
  rfl

theorem size_after_four (room : Nat) : ((fourEqualBlock.read 4).2.read room).1.size = 0 := by
  rw [ByteString.size_eq_length, DecodedBlock.toList_read, left_after_four, List.take_nil,
    List.length_nil]

/-- With one more byte asked for, the block of four equal bytes is exhausted. -/
theorem BlockDecoder.isExhausted_fourEqual :
    ((Draw.after [.read 4] fourEqualBlock).read 1).2.isExhausted = true := by
  obtain ⟨bench, notes, hread⟩ := readBlock_fourEqual
  obtain ⟨_, _, _, hsettled⟩ :=
    isExhausted_of_readBlock hread [.read 4] (Draw.accepted_reads [4])
  exact hsettled 1 Nat.one_pos (size_after_four 1)

/-- **Before that, it is not**, though all of it has been handed out and no read gives anything. -/
theorem BlockDecoder.not_isExhausted_fourEqual :
    (∃ bench notes, readBlock 1 (.ofDigit 1, fourEqual) = .ok fourEqualBlock bench notes)
      ∧ (Draw.handedOut [.read 4] fourEqualBlock).data.toList = fourEqualBlock.expansion
      ∧ (∀ room, ((Draw.after [.read 4] fourEqualBlock).read room).1.size = 0)
      ∧ (Draw.after [.read 4] fourEqualBlock).isExhausted = false := by
  refine ⟨readBlock_fourEqual, ?_, size_after_four, ?_⟩
  · have hfront : (fourEqualBlock.read 4).1.data.toList ++ (fourEqualBlock.read 4).2.left
        = fourEqualBlock.expansion := (fourEqualBlock.read_left 4).trans (DecodedBlock.left_of_start rfl)
    rw [left_after_four, List.append_nil] at hfront
    rw [Draw.handedOut, Draw.handedOut, ByteArray.append_empty]
    exact hfront
  · -- a byte of the walk for each byte that is handed out
    have hfill : fourEqualBlock.rest.take 4 = (⟨#[0x61, 0x61, 0x61, 0x61]⟩,
        ⟨⟨⟨#[0x400, 0x061, 0x161, 0x261, 0x361]⟩, 0x400, 1⟩, ⟨0x61, 4⟩, 0, 0⟩) := by
      rw [Unrolled.take]
      refine (Unrolled.fill_literal (by rfl) (by rfl) _ _ (by decide)).trans ?_
      refine (Unrolled.fill_literal (by rfl) (by rfl) _ _ (by decide)).trans ?_
      refine (Unrolled.fill_literal (by rfl) (by rfl) _ _ (by decide)).trans ?_
      refine (Unrolled.fill_literal (by rfl) (by rfl) _ _ (by decide)).trans ?_
      exact Unrolled.fill_zero _ _ _ _ _
    rw [Draw.after, Draw.after, Draw.perform, DecodedBlock.isExhausted, DecodedBlock.read, hfill]
    rfl

end Bunzip

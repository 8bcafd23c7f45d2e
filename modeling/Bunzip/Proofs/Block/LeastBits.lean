import Bunzip.Proofs.Block.Begun

/-!
# The fewest bits that a block is read from

Most fields of a block have a fixed width, or a width that is never less than some number: a rank and
a length end with a zero, and a codeword is never empty. Two parts depend on what is read in them. A
map that marks a value marks a range, so there is a second word in it. And a block whose first symbol
ended it would have an empty column, in which no origin lies; so there is a second symbol.
-/

namespace Bunzip

/-- A map that marks no range marks no value. -/
theorem SymbolMap.values_of_unmarked {index : Nat} (h : places index = []) (words : List Nat) :
    values (index :: words) = [] := by
  rw [values, h, valuesIn]
  · rfl
  · intro range ranges word words hcons
    cases hcons

/-- An index word and one more: some range is marked, since some value is. -/
theorem SymbolMap.bitsLeft_read {reader after : BitReader} {symbols : List UInt8}
    {notes : List Note} (h : read reader = .ok symbols after notes) :
    symbols ≠ [] ∧ after.bitsLeft + 32 ≤ reader.bitsLeft := by
  obtain ⟨words, middle, _, _, hmap, h, _⟩ := Op.ok_of_bind h
  obtain ⟨_, noted, _, _, hnotes, h, _⟩ := Op.ok_of_bind h
  cases hnotes
  rw [readMap, Op.read_bind] at hmap
  obtain ⟨index, behind, _, _, hindex, hmap, _⟩ := Op.ok_of_bind hmap
  rw [Op.read_bind] at hmap
  obtain ⟨others, last, _, _, hothers, hmap, _⟩ := Op.ok_of_bind hmap
  cases hmap
  have hfirst := (Op.Spends.read (BitReader.spends_number 16)).of_ok hindex
  have hrest := (Op.Spends.read (spends_readWords _)).of_ok hothers
  dsimp only at h
  split at h
  · cases h
  · next hsome =>
    cases h
    have hmarked : places index ≠ [] := by
      intro hnone
      rw [values_of_unmarked hnone] at hsome
      exact hsome rfl
    have hrange := List.length_pos_iff.mpr hmarked
    refine ⟨fun hnone => hsome (by rw [hnone]; rfl), ?_⟩
    omega

namespace BlockDecoder

/-- The symbol that ends a block adds nothing to an empty column. -/
theorem push_end_start (limit : Nat) {used : Array UInt8} (hused : 0 < used.size) :
    Expansion.push limit used (Expansion.endSymbol used.size) .start = .ok () .start := by
  have hrank : ¬Expansion.endSymbol used.size < 2 := by
    rw [Expansion.endSymbol]
    omega
  have hsettle : Expansion.settle limit used .start = .ok .start := if_pos rfl
  rw [Expansion.push_rank_eq hrank, hsettle]
  exact if_pos rfl

theorem eq_of_beside {α : Type} {x : Read α} {e e' : Expansion} {reader after : BitReader} {a : α}
    {notes : List Note} (h : Op.read (beside x) (e, reader) = .ok a (e', after) notes) : e' = e := by
  simp only [Op.read, beside] at h
  cases hx : x reader with
  | error reason stopped => rw [hx] at h; cases h
  | ok b later => rw [hx] at h; cases h; rfl

theorem bitsLeft_expandFrom {limit : Nat} {used : Array UInt8} {codes : GroupCodes}
    {reader after : BitReader} {e : Expansion}
    (hused : 0 < used.size)
    (h : expandFrom limit used codes (.start, reader) = .ok () (e, after))
    (hsome : 0 < e.column.size) : after.bitsLeft + 2 ≤ reader.bitsLeft := by
  have hrun : Op.read (expandFrom limit used codes) (.start, reader) = .ok () (e, after) [] := by
    rw [Op.read, h]
  rw [expandFrom] at hrun
  split at hrun
  · cases hrun
  · next codes turn =>
    rw [Op.read_bind] at hrun
    obtain ⟨symbol, decoded, _, _, hsymbol, hrun, _⟩ := Op.ok_of_bind hrun
    rw [Op.read_bind] at hrun
    obtain ⟨_, taken, _, _, htaken, hrun, _⟩ := Op.ok_of_bind hrun
    have hfirst := (spends_beside (GroupCodes.spends_decode codes)).of_ok hsymbol
    have hnone := (spends_takeIn limit used symbol.toNat).of_ok htaken
    simp only at hfirst hnone
    split at hrun
    · next hend =>
      cases hrun
      obtain ⟨column, reader'⟩ := decoded
      obtain rfl := eq_of_beside hsymbol
      simp only [Op.read, takeIn, hend, push_end_start limit hused] at htaken
      cases htaken
      exact absurd hsome (Nat.lt_irrefl 0)
    · have hsecond := (spends_expandFrom limit used codes).of_ok hrun
      simp only at hsecond
      omega

theorem bitsLeft_expand {used : Array UInt8} {codes : GroupCodes} {bench after : Bench}
    {e : Expansion} {notes : List Note} (hused : 0 < used.size)
    (h : expand used codes bench = .ok e after notes) (hsome : 0 < e.column.size) :
    after.bitsLeft + 2 ≤ bench.bitsLeft := by
  obtain ⟨decoder, reader⟩ := bench
  rw [expand_eq] at h
  cases hrun : expandFrom decoder.maxLength used codes (.start, reader) with
  | error reason stopped => rw [hrun] at h; cases h
  | ok done expanded =>
    rw [hrun] at h
    cases h
    exact bitsLeft_expandFrom hused hrun hsome

/-- The map, two codes with a selector for one of them, and two symbols. -/
theorem bitsLeft_readColumn {index : Nat} {bench after : Bench} {e : Expansion} {notes : List Note}
    (h : readColumn index bench = .ok e after notes) (hsome : 0 < e.column.size) :
    after.bitsLeft + 69 ≤ bench.bitsLeft := by
  obtain ⟨_, mapping, _, _, hmap, h, _⟩ := Op.ok_of_bind h
  obtain ⟨symbols, mapped, _, _, hsymbols, h, _⟩ := Op.ok_of_bind h
  obtain ⟨_, noted, _, _, hnote, h, _⟩ := Op.ok_of_bind h
  obtain ⟨_, entered, _, _, htables, h, _⟩ := Op.ok_of_bind h
  obtain ⟨codes, coded, _, _, hcodes, h, _⟩ := Op.ok_of_bind h
  obtain ⟨_, expanding, _, _, hstage, h, _⟩ := Op.ok_of_bind h
  obtain ⟨expanded, last, _, _, hexpand, h, _⟩ := Op.ok_of_bind h
  obtain ⟨_, _, _, _, hlast, h, _⟩ := Op.ok_of_bind h
  cases hlast
  cases h
  obtain ⟨hmarked, hbits⟩ := SymbolMap.bitsLeft_read (ok_of_onReader hsymbols)
  have hmarked := List.length_pos_iff.mpr hmarked
  have hused : 0 < symbols.toArray.size := by
    rw [List.size_toArray]
    exact hmarked
  have hmapping := (spends_onDecoder _).of_ok hmap
  have hentered := (spends_onDecoder _).of_ok htables
  have hexpanding := (spends_onDecoder _).of_ok hstage
  have hcodesBits := (spends_onReader (GroupCodes.spends_read _)).of_ok hcodes
  have hexpanded := bitsLeft_expand hused hexpand hsome
  cases hnote
  simp only [GroupCodes.minTables] at hcodesBits
  simp only [Bench.bitsLeft] at *
  omega

/-- **A block is read from 126 bits at least.** -/
theorem bitsLeft_readBlock {index : Nat} {bench after : Bench} {block : DecodedBlock}
    {notes : List Note} (h : readBlock index bench = .ok block after notes) :
    after.bitsLeft + 126 ≤ bench.bitsLeft := by
  obtain ⟨hheader, hcolumn, hinside, hlinking, hwalk, hafter⟩ := madeOf_readBlock h
  have hfirst := (spends_readHeader index).of_ok hheader
  have hsecond := bitsLeft_readColumn hcolumn (Nat.zero_lt_of_lt hinside)
  have hthird := (spends_startWalk _ _).of_ok hwalk
  simp only [Bench.bitsLeft, hlinking, ← hafter] at *
  omega

end BlockDecoder

end Bunzip

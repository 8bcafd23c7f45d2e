import Bunzip.Proofs.Block.Safety

/-!
# Blocks that have just been begun

A block that has been read begins with its stored checksum, has handed out nothing yet, and its column
is neither empty nor longer than allowed.
-/

namespace Bunzip

namespace BlockDecoder

theorem ok_of_onReader {α : Type} {op : Op BitReader α} {bench after : Bench} {a : α}
    {notes : List Note} (h : onReader op bench = .ok a after notes) :
    op bench.2 = .ok a after.2 notes := by
  simp only [onReader] at h
  cases hop : op bench.2 with
  | error reason later more => rw [hop] at h; cases h
  | ok b later more => rw [hop] at h; cases h; rfl

theorem ok_of_reading {α : Type} {x : Read α} {bench after : Bench} {a : α} {notes : List Note}
    (h : reading x bench = .ok a after notes) : ∃ later, x bench.2 = .ok a later := by
  have hread := ok_of_onReader h
  rw [Op.read] at hread
  cases hx : x bench.2 with
  | error reason later => rw [hx] at hread; cases hread
  | ok b later => rw [hx] at hread; cases hread; exact ⟨_, rfl⟩

/-- The first thing that is read of a block is its stored checksum. -/
theorem word_of_readHeader {index origin : Nat} {stored : UInt32} {bench after : Bench}
    {notes : List Note} (h : readHeader index bench = .ok (stored, origin) after notes) :
    ∃ later, BitReader.word bench.2 = .ok stored later := by
  obtain ⟨_, first, _, _, hindex, h, _⟩ := Op.ok_of_bind h
  cases hindex
  obtain ⟨_, second, _, _, henter, h, _⟩ := Op.ok_of_bind h
  cases henter
  obtain ⟨word, third, _, _, hword, h, _⟩ := Op.ok_of_bind h
  obtain ⟨randomized, _, _, _, _, h, _⟩ := Op.ok_of_bind h
  split at h
  · cases h
  · obtain ⟨_, _, _, _, _, h, _⟩ := Op.ok_of_bind h
    obtain ⟨_, _, _, _, _, h, _⟩ := Op.ok_of_bind h
    obtain ⟨_, _, _, _, _, h, _⟩ := Op.ok_of_bind h
    cases h
    obtain ⟨later, hlater⟩ := ok_of_reading hword
    exact ⟨later, hlater⟩

/-- A walk starts at the origin of a column, along the links that were built for it. -/
theorem links_of_startWalk {e : Expansion} {origin : Nat} {bench after : Bench} {walk : Walk}
    {notes : List Note} (h : startWalk e origin bench = .ok walk after notes) :
    ∃ used links, RotationLinks.build? e.column e.counts used = some links
      ∧ Walk.start? links origin = some walk := by
  obtain ⟨used, taken, _, _, _, h, _⟩ := Op.ok_of_bind h
  cases hlinks : RotationLinks.build? e.column e.counts used with
  | none =>
    simp only [hlinks] at h
    cases h
  | some links =>
    simp only [hlinks] at h
    cases hwalk : Walk.start? links origin with
    | none =>
      simp only [hwalk] at h
      cases h
    | some walk =>
      simp only [hwalk] at h
      cases h
      exact ⟨used, links, hlinks, hwalk⟩

/-- What is known of a block that has just been begun. -/
structure Begun (bench : Bench) (index : Nat) (block : DecodedBlock) : Prop where
  index : block.index = index
  stored : ∃ later, BitReader.word bench.2 = .ok block.stored later
  crc : block.crc = .start
  emitted : block.emitted = 0
  column : 1 ≤ block.columnLength

/-- What a block is made of that has been read: a header, a column, and a walk from the origin. -/
inductive MadeOf (index : Nat) (bench : Bench) : DecodedBlock → Bench → Prop where
  | parts {stored : UInt32} {origin : Nat} {e : Expansion} {walk : Walk}
      {header column linking last after : Bench} {first second third : List Note} :
      readHeader index bench = .ok (stored, origin) header first →
      readColumn index header = .ok e column second → origin < e.column.size →
      linking.2 = column.2 → startWalk e origin linking = .ok walk last third → after.2 = last.2 →
      MadeOf index bench
        { rest := .start walk, crc := .start, stored, index, columnLength := e.column.size, emitted := 0 }
        after

theorem madeOf_readBlock {index : Nat} {bench after : Bench} {block : DecodedBlock}
    {notes : List Note} (h : readBlock index bench = .ok block after notes) :
    MadeOf index bench block after := by
  obtain ⟨⟨stored, origin⟩, header, _, _, hheader, h, _⟩ := Op.ok_of_bind h
  obtain ⟨e, column, _, _, hcolumn, h, _⟩ := Op.ok_of_bind h
  split at h
  · cases h
  · next hinside =>
    obtain ⟨_, linking, _, _, hlinks, h, _⟩ := Op.ok_of_bind h
    cases hlinks
    obtain ⟨walk, last, _, _, hwalk, h, _⟩ := Op.ok_of_bind h
    obtain ⟨_, _, _, _, houtput, h, _⟩ := Op.ok_of_bind h
    cases houtput
    cases h
    refine .parts hheader hcolumn (Nat.lt_of_not_le hinside) ?_ hwalk rfl
    rfl

theorem begun_of_readBlock {index : Nat} {bench after : Bench} {block : DecodedBlock}
    {notes : List Note} (h : readBlock index bench = .ok block after notes) :
    Begun bench index block ∧ (bench.Sound → block.columnLength ≤ bench.limit) := by
  obtain ⟨hheader, hcolumn, hinside, _, _, _⟩ := madeOf_readBlock h
  refine ⟨⟨rfl, word_of_readHeader hheader, rfl, rfl, Nat.zero_lt_of_lt hinside⟩, fun hbench => ?_⟩
  have hsound := ((safe_readHeader index).of_ok hbench hheader).1
  have hlimit := (keeps_limit_readHeader index).of_ok hheader
  exact ((safe_readColumn_limit index bench.limit).of_ok ⟨hsound, hlimit⟩ hcolumn).2.2

end BlockDecoder

end Bunzip

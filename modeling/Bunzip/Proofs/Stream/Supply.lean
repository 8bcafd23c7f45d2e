import Bunzip.Proofs.Block.Growth
import Bunzip.Proofs.Block.LeastBits
import Bunzip.Proofs.Stream.Alongside
import Bunzip.Proofs.Stream.Books

/-!
# The supply of a stream

A block that is found has been read from 174 bits at least, its marker included, and hands out no more
than its column unrolls to. So what a decoder can still hand out is bounded by the bits that it has
left and by the blocks that are out: a supply that finding a block does not raise, and from which
every byte is taken that is handed out.
-/

namespace Bunzip

namespace StreamDecoder

variable {stream after : StreamDecoder} {block : DecodedBlock} {notes : List Note}

/-! ## The bits of a block -/

/-- The fewest bits that a block is read from, with its marker. -/
def leastBits : Nat := 174

/-- **A block that is found has been read from that many bits.** -/
theorem bitsLeft_begun (hnext : next stream = .ok (some block) after notes) :
    after.bitsLeft + leastBits ≤ stream.bitsLeft := by
  have hasked := asked_next stream
  rw [hnext] at hasked
  cases hasked with
  | begun _ hmarker hread =>
    have hfirst := spends_marker.of_ok hmarker
    have hsecond := BlockDecoder.bitsLeft_readBlock hread
    simp only [bitsLeft, BlockDecoder.Bench.bitsLeft, leastBits] at *
    omega

/-- The reader has moved on by so much. -/
theorem position_begun {place : Nat} {bits : List Bool} (hreader : stream.bench.2.Stands place bits)
    (hnext : next stream = .ok (some block) after notes) :
    stream.position + leastBits ≤ after.position := by
  obtain ⟨front, rest, rfl, hafter⟩ := local_next.moves stream hreader
  rw [hnext] at hafter
  have hbits := bitsLeft_begun hnext
  have hbefore : stream.bitsLeft = (front ++ rest).length := by
    rw [← hreader.upcoming, ← BitReader.bitsLeft_eq]
    rfl
  have hleft : after.bitsLeft = rest.length := by
    rw [← hafter.upcoming, ← BitReader.bitsLeft_eq]
    rfl
  have hposition : stream.position = place := hreader.position
  have hmoved : after.position = place + front.length := hafter.position
  rw [hbefore, hleft, List.length_append] at hbits
  omega

theorem spends_next : Op.Spends bitsLeft 0 next := by
  intro stream
  rw [next]
  by_cases hfinished : stream.isFinished = true
  · rw [if_pos hfinished]
    exact Nat.le_refl _
  · rw [if_neg hfinished]
    exact spends_readMarked.any stream

/-! ## The supply -/

/-- The most bytes that can still come of so many bits and of the blocks that are out. -/
def supply (limit bits : Nat) (blocks : List DecodedBlock) : Nat :=
  bits / leastBits * mostUnrolled limit + (blocks.map fun block => block.drained.1.size).sum

theorem supply_nil (limit bits : Nat) :
    supply limit bits [] = bits / leastBits * mostUnrolled limit := Nat.add_zero _

theorem supply_cons (limit bits : Nat) (block : DecodedBlock) (blocks : List DecodedBlock) :
    supply limit bits (block :: blocks) = block.drained.1.size + supply limit bits blocks := by
  rw [supply, supply, List.map_cons, List.sum_cons]
  omega

theorem supply_mono (limit : Nat) {few many : Nat} (h : few ≤ many) (blocks : List DecodedBlock) :
    supply limit few blocks ≤ supply limit many blocks :=
  Nat.add_le_add_right (Nat.mul_le_mul_right _ (Nat.div_le_div_right h)) _

theorem supply_subperm {limit bits : Nat} {fewer blocks : List DecodedBlock}
    (h : fewer.Subperm blocks) : supply limit bits fewer ≤ supply limit bits blocks := by
  obtain ⟨between, hperm, hsublist⟩ := h
  refine Nat.add_le_add_left ?_ _
  rw [← (hperm.map _).sum_eq]
  exact (hsublist.map _).sum_le_sum fun _ _ => Nat.zero_le _

/-- A block is worth the bits that it is read from. -/
theorem supply_begun {limit few many : Nat} (hbits : few + leastBits ≤ many)
    (hblock : block.drained.1.size ≤ mostUnrolled limit) (blocks : List DecodedBlock) :
    supply limit few (block :: blocks) ≤ supply limit many blocks := by
  have hblocks : few / leastBits + 1 ≤ many / leastBits := by
    unfold leastBits at hbits ⊢
    omega
  have hworth := Nat.mul_le_mul_right (mostUnrolled limit) hblocks
  rw [Nat.add_mul, Nat.one_mul] at hworth
  rw [supply_cons, supply, supply]
  omega

/-- Bytes that are handed out are taken from the supply. -/
theorem supply_read (limit bits room : Nat) (block : DecodedBlock) (blocks : List DecodedBlock) :
    (block.read room).1.size + supply limit bits ((block.read room).2 :: blocks)
      = supply limit bits (block :: blocks) := by
  have hsize := congrArg (fun drained => drained.1.size) (block.drained_read room)
  simp only [ByteArray.size_append] at hsize
  rw [supply_cons, supply_cons, hsize, Nat.add_assoc]

/--
A stream decoder that is in order and stands somewhere in its input, with some blocks out. With the
bytes that have been handed out, its supply stays within a budget.
-/
structure Supplied (limit budget total : Nat) (stream : StreamDecoder) (blocks : List DecodedBlock) :
    Prop where
  sound : stream.Sound
  soundOut : ∀ block ∈ blocks, block.Sound
  limited : stream.bench.limit = limit
  stands : ∃ place bits, stream.bench.2.Stands place bits
  budget : total + supply limit stream.bitsLeft blocks ≤ budget

variable {limit budget total : Nat} {blocks : List DecodedBlock}

theorem Supplied.mono (h : Supplied limit budget total stream blocks) {fewer : List DecodedBlock}
    (hfewer : fewer.Subperm blocks) : Supplied limit budget total stream fewer where
  sound := h.sound
  soundOut block hmem := h.soundOut block (hfewer.subset hmem)
  limited := h.limited
  stands := h.stands
  budget := Nat.le_trans (Nat.add_le_add_left (supply_subperm hfewer) total) h.budget

/-- One of the blocks is put by, to go on with, or none is. -/
theorem Supplied.putBy (h : Supplied limit budget total stream blocks)
    {current : Option DecodedBlock} (hcurrent : ∀ block, current = some block → block ∈ blocks) :
    Supplied limit budget total { stream with current } blocks where
  sound := ⟨h.sound.bench, fun block hblock => h.soundOut block (hcurrent block hblock)⟩
  soundOut := h.soundOut
  limited := h.limited
  stands := h.stands
  budget := h.budget

/-! ### One move -/

/-- What is known of a block that is found. -/
theorem found_of_next (hsound : stream.Sound) (hlimit : stream.bench.limit = limit)
    (hnext : next stream = .ok (some block) after notes) :
    (1 ≤ block.columnLength ∧ block.columnLength ≤ limit)
      ∧ fewestUnrolled block.columnLength ≤ block.drained.1.size
      ∧ block.drained.1.size ≤ mostUnrolled block.columnLength := by
  have hasked := asked_next stream
  rw [hnext] at hasked
  cases hasked with
  | begun _ hmarker hread =>
    have hbench := hsound.behind hmarker
    obtain ⟨hbegun, hshort⟩ := BlockDecoder.begun_of_readBlock hread
    obtain ⟨hmost, hleast⟩ := BlockDecoder.drained_of_readBlock hread
    exact ⟨⟨hbegun.column, hlimit ▸ hshort hbench⟩, hleast hbench, hmost⟩

/-- Asking for the next block moves the reader on, and costs what the block is worth. -/
theorem Supplied.asked (h : Supplied limit budget total stream blocks) :
    match next stream with
    | .ok work after _ => Supplied limit budget total after (work.toList ++ blocks)
    | .error _ after _ => Supplied limit budget total after blocks := by
  obtain ⟨place, bits, hreader⟩ := h.stands
  obtain ⟨front, rest, _, hstands⟩ := local_next.moves stream hreader
  have hlimit := (keeps_limit_next stream).trans h.limited
  have hsafe := safe_next stream h.sound
  have hbits := spends_next stream
  cases hnext : next stream with
  | error reason after notes =>
    rw [hnext] at hstands hlimit hsafe hbits
    have hless := Nat.add_le_add_left (supply_mono limit hbits blocks) total
    exact ⟨hsafe.1, h.soundOut, hlimit, ⟨_, _, hstands⟩, Nat.le_trans hless h.budget⟩
  | ok work after notes =>
    rw [hnext] at hstands hlimit hsafe hbits
    have hfewer : after.bitsLeft ≤ stream.bitsLeft := hbits
    refine ⟨hsafe.1, ?_, hlimit, ⟨_, _, hstands⟩, ?_⟩
    · intro block hmem
      rcases List.mem_append.mp hmem with hnew | hold
      · exact hsafe.2 block (Option.mem_toList.mp hnew)
      · exact h.soundOut block hold
    · have hbudget := h.budget
      cases work with
      | none =>
        have hless := supply_mono limit hfewer blocks
        simp only [Option.toList, List.nil_append]
        omega
      | some block =>
        obtain ⟨⟨_, hcolumn⟩, _, hmost⟩ := found_of_next h.sound h.limited hnext
        have hworth := supply_begun (bitsLeft_begun hnext)
          (Nat.le_trans hmost (mostUnrolled_mono hcolumn)) blocks
        simp only [Option.toList, List.singleton_append]
        omega

theorem Supplied.handed (h : Supplied limit budget total stream (block :: blocks)) {arrived : Nat}
    (room : Nat) (harrived : arrived ≤ (block.read room).1.size) :
    Supplied limit budget (total + arrived) stream ((block.read room).2 :: blocks) where
  sound := h.sound
  soundOut := by
    obtain ⟨hblock, hothers⟩ := List.forall_mem_cons.mp h.soundOut
    exact List.forall_mem_cons.mpr ⟨hblock.read room, hothers⟩
  limited := h.limited
  stands := h.stands
  budget := by
    have hbudget := h.budget
    have htaken := supply_read limit stream.bitsLeft room block blocks
    omega

/-- Taking a block back, be it counted or refused, leaves the bits as they are. -/
theorem Supplied.takenBack (h : Supplied limit budget total stream (block :: blocks)) :
    Supplied limit budget total (finish block stream).state blocks := by
  have hothers := h.mono (List.sublist_cons_self block blocks).subperm
  have htaken := takenBack_finish block stream
  generalize finish block stream = outcome at htaken
  cases htaken with
  | counted _ _ hmaxLength =>
    exact ⟨⟨⟨Nat.le_trans (Nat.le_of_eq hmaxLength) h.sound.bench.maxLength, h.sound.bench.reader⟩,
      h.sound.current⟩, hothers.soundOut, hmaxLength.trans h.limited, h.stands, hothers.budget⟩
  | refused => exact hothers

/-- The supply of a state of work, with other blocks that are out. -/
def Working.Supplied (limit budget total : Nat) (working : Working) (others : List DecodedBlock) :
    Prop :=
  StreamDecoder.Supplied limit budget total working.stream
    ((working.work.map Prod.snd).toList ++ others)

/-- **All moves keep within the budget**, whatever has been handed out before and is out besides. -/
theorem Moves.supplied {first last : Working} {out : ByteArray} (h : Moves first out last)
    {others : List DecodedBlock} (hfirst : first.Supplied limit budget total others) :
    last.Supplied limit budget (total + out.size) others := by
  induction h with
  | none => exact hfirst
  | @asked out stream _ _ _ ih =>
    have hasked := StreamDecoder.Supplied.asked ih
    rw [Working.Supplied, map_begunBy]
    cases hnext : next stream with
    | error reason after notes => rw [hnext] at hasked; exact hasked
    | ok work after notes => rw [hnext] at hasked; exact hasked
  | @handed out arrived lost _ _ block _ _ room _ hsplit ih =>
    have hfew : arrived.size ≤ (block.read room).1.size := by
      rw [← hsplit, ByteArray.size_append]
      exact Nat.le_add_right _ _
    rw [ByteArray.size_append, ← Nat.add_assoc]
    exact StreamDecoder.Supplied.handed ih room hfew
  | counted _ hfinish ih =>
    have htaken := StreamDecoder.Supplied.takenBack ih
    rw [hfinish] at htaken
    exact htaken
  | refused _ hfinish ih =>
    have htaken := StreamDecoder.Supplied.takenBack ih
    rw [hfinish] at htaken
    exact htaken
  | dropped _ ih => exact StreamDecoder.Supplied.mono ih (List.sublist_cons_self _ _).subperm

end StreamDecoder

end Bunzip

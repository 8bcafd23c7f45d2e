import Bunzip.Proofs.Block.Begun
import Bunzip.Proofs.Block.Draining

/-!
# How much a block grows when it is unrolled

Only a byte behind four equal ones is a count, and after it a new run starts. So of the bytes that a
walk spells at most one in five is a count, and all others stand for themselves. A count hands out up
to 255 bytes, or none: a column unrolls to at most 259 bytes for every five of its own, and to no less
than what is left of it without the counts.
-/

namespace Bunzip

/-- The most bytes that so many bytes of a column unroll to. -/
def mostUnrolled (coded : Nat) : Nat := 259 * (coded / 5) + coded % 5

/-- The fewest bytes that so many bytes of a column unroll to. -/
def fewestUnrolled (coded : Nat) : Nat := coded - coded / 5

theorem mostUnrolled_mono {a b : Nat} (h : a ≤ b) : mostUnrolled a ≤ mostUnrolled b := by
  unfold mostUnrolled
  omega

theorem mostUnrolled_digit (digit : Nat) : mostUnrolled (digit * 100000) = digit * 5180000 := by
  unfold mostUnrolled
  omega

namespace Unrolled

/-- What is left to hand out if no further count adds anything. -/
def coded (rest : Unrolled) : Nat := rest.owed + rest.walk.remaining

/-- The most counts that can still come. The run that has begun is on its way to one of them. -/
def countsLeft (rest : Unrolled) : Nat := (rest.walk.remaining + rest.runs.run) / 5

/-- Each count that is used up pays for the bytes that it adds, and nothing is lost but the counts. -/
theorem fill_bounds (walk : Walk) (runs : RunLength) (owed : Nat) (copied : UInt8) (room : Nat)
    (out : ByteArray) :
    (fill walk runs owed copied room out).1.size + (fill walk runs owed copied room out).2.coded
        + 254 * (fill walk runs owed copied room out).2.countsLeft
      ≤ out.size + (owed + walk.remaining) + 254 * ((walk.remaining + runs.run) / 5)
    ∧ out.size + (owed + walk.remaining) + (fill walk runs owed copied room out).2.countsLeft
      ≤ (fill walk runs owed copied room out).1.size + (fill walk runs owed copied room out).2.coded
        + (walk.remaining + runs.run) / 5 := by
  fun_induction fill walk runs owed copied room out with
  | case1 => exact ⟨Nat.le_refl _, Nat.le_refl _⟩
  | case2 walk runs owed copied room out more waiting n ih =>
    rw [size_pushMany] at ih
    omega
  | case3 => exact ⟨Nat.le_refl _, Nat.le_refl _⟩
  | case4 walk runs owed copied room out more none byte after step literal runs' pushed ih =>
    have fewer := Walk.remaining_next step
    have longer := RunLength.run_of_literal pushed
    rw [ByteArray.size_push] at ih
    omega
  | case5 walk runs owed copied room out more none byte after step count repeated runs' pushed ih =>
    have fewer := Walk.remaining_next step
    obtain ⟨four, zero, short⟩ := RunLength.run_of_repeated pushed
    omega

/-- What a walk of so many steps has handed out by its end. -/
theorem size_take_start_of_end {walk : Walk} {room : Nat} (hend : ((start walk).take room).2.coded = 0) :
    fewestUnrolled walk.remaining ≤ ((start walk).take room).1.size := by
  obtain ⟨-, hleast⟩ := fill_bounds walk .start 0 0 room ByteArray.empty
  have hrun : RunLength.start.run = 0 := rfl
  rw [ByteArray.size_empty, hrun] at hleast
  unfold fewestUnrolled
  unfold take start at hend ⊢
  simp only at hend ⊢
  omega

theorem size_take_start (walk : Walk) (room : Nat) :
    ((start walk).take room).1.size ≤ mostUnrolled walk.remaining := by
  obtain ⟨hmost, -⟩ := fill_bounds walk .start 0 0 room ByteArray.empty
  have hrun : RunLength.start.run = 0 := rfl
  rw [ByteArray.size_empty, hrun] at hmost
  unfold mostUnrolled
  unfold take start
  simp only
  omega

end Unrolled

/-! ## A block that has been read -/

theorem RotationLinks.size_sortFrom {column : ByteArray} {i : Nat} {free : Histogram}
    {links sorted : RotationLinks} (h : sortFrom column i free links = some sorted) :
    sorted.size = links.size := by
  fun_induction sortFrom column i free links with
  | case1 i free links inside byte slot fits ih =>
    rw [ih h, size, Array.size_set]
    rfl
  | case2 => cases h
  | case3 => cases h; rfl

theorem RotationLinks.size_build? {column : ByteArray} {counts : Histogram}
    {used links : RotationLinks} (h : build? column counts used = some links) :
    links.size = column.size := by
  unfold build? at h
  split at h
  · rw [size_sortFrom h, size_blank]
  · cases h

/-- A walk makes as many steps as there are links. -/
theorem Walk.remaining_start? {links : RotationLinks} {origin : Nat} {walk : Walk}
    (h : start? links origin = some walk) : walk.remaining = links.size := by
  unfold start? at h
  split at h
  · next hempty =>
    cases h
    exact hempty.1.symm
  · split at h
    · cases h
    · cases h
      rfl

theorem DecodedBlock.Sound.coded_drained {block : DecodedBlock} (h : block.Sound) :
    block.drained.2.rest.coded = 0 := by
  obtain ⟨howed, hnext⟩ := block.atEnd_drained
  have hclosed : block.drained.2.rest.walk.Closed := h.read _
  rw [Unrolled.coded, howed, hclosed.remaining hnext]

namespace BlockDecoder

theorem remaining_startWalk {e : Expansion} {origin : Nat} {bench after : Bench} {walk : Walk}
    {notes : List Note} (h : startWalk e origin bench = .ok walk after notes) :
    walk.remaining = e.column.size := by
  obtain ⟨_, links, hlinks, hwalk⟩ := links_of_startWalk h
  rw [Walk.remaining_start? hwalk, RotationLinks.size_build? hlinks]

/-- **A block hands out a limited number of bytes for its column**, and not much less than that. -/
theorem drained_of_readBlock {index : Nat} {bench after : Bench} {block : DecodedBlock}
    {notes : List Note} (h : readBlock index bench = .ok block after notes) :
    block.drained.1.size ≤ mostUnrolled block.columnLength
      ∧ (bench.Sound → fewestUnrolled block.columnLength ≤ block.drained.1.size) := by
  obtain ⟨_, _, _, _, hwalk, _⟩ := madeOf_readBlock h
  rw [← remaining_startWalk hwalk]
  refine ⟨Unrolled.size_take_start _ _, fun hbench => Unrolled.size_take_start_of_end ?_⟩
  -- the walk has made all its steps, since it stays among the rows
  have hsound := ((safe_readBlock index).of_ok hbench h).2
  exact hsound.coded_drained

end BlockDecoder

end Bunzip

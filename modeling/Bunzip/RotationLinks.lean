import Bunzip.Histogram

/-!
# Undoing the rotation transform

A block is transformed by sorting all its rotations and keeping the last byte of each: the last
column of the sorted matrix. The first column holds the same bytes in ascending order, and equal
bytes come in the same order in both. So a stable counting sort of the last column tells, for each
row, in which row the rotation by one more byte stands. Following these links from the row of the
block itself spells the block.

A link is packed into a word: the row it leads to in the upper 24 bits, and the byte it stands for in
the lower eight.
-/

namespace Bunzip

/-- The links of a block, one for each row. -/
structure RotationLinks where
  entries : Array UInt32
  deriving DecidableEq

namespace RotationLinks

/-- No links. -/
def empty : RotationLinks := ⟨#[]⟩

/-- The number of rows. -/
@[inline] def size (links : RotationLinks) : Nat := links.entries.size

/-- Blocks have to be shorter than this for their rows to fit into the 24 bits of a link. -/
def rowLimit : Nat := 0x1000000

/-- The link to a row that stands for a byte. -/
@[inline] def pack (row : Nat) (byte : UInt8) : UInt32 := (UInt32.ofNat row <<< 8) ||| byte.toUInt32

/-- The row that a link leads to. -/
@[inline] def row (link : UInt32) : Nat := (link >>> 8).toNat

/-- The byte that a link stands for. -/
@[inline] def byte (link : UInt32) : UInt8 := link.toUInt8

/-- As many empty links as a column has rows, in the place of links that are no longer needed. -/
def blank (used : RotationLinks) (rows : Nat) : RotationLinks :=
  ⟨rows.fold (fun _ _ entries => entries.push 0) (used.entries.shrink 0)⟩

/--
Sorts the rows from `i` on into the links, each into the first free slot for its byte. Fails if a
slot is not there, which a true histogram of the column excludes.
-/
def sortFrom (column : ByteArray) (i : Nat) (free : Histogram) (links : RotationLinks) :
    Option RotationLinks :=
  if inside : i < column.size then
    let byte := column[i]
    let slot := free.count byte
    if fits : slot < links.entries.size then
      sortFrom column (i + 1) (free.add byte 1) ⟨links.entries.set slot (pack i byte) fits⟩
    else none
  else some links
termination_by column.size - i

/-- The links of a last column, given how often each byte occurs in it. -/
def build? (column : ByteArray) (counts : Histogram) (used : RotationLinks) :
    Option RotationLinks :=
  if counts.total = column.size ∧ column.size < rowLimit then
    sortFrom column 0 counts.starts (used.blank column.size)
  else none

end RotationLinks

/-- A way along the links that has so many steps to go. -/
structure Walk where
  links : RotationLinks
  /-- The link to follow next. -/
  link : UInt32
  remaining : Nat
  deriving DecidableEq

namespace Walk

/-- The way that starts in a row; an empty block has a row 0 to start from. -/
def start? (links : RotationLinks) (origin : Nat) : Option Walk :=
  if links.size = 0 ∧ origin = 0 then some ⟨links, 0, 0⟩
  else match links.entries[origin]? with
    | none => none
    | some link => some ⟨links, link, links.size⟩

/-- The next byte on the way, until all steps are made. -/
@[inline] def next (walk : Walk) : Option (UInt8 × Walk) :=
  if walk.remaining = 0 then none
  else match walk.links.entries[RotationLinks.row walk.link]? with
    | none => none
    | some link =>
      some (RotationLinks.byte walk.link, { walk with link, remaining := walk.remaining - 1 })

theorem remaining_next {walk after : Walk} {byte : UInt8} (h : walk.next = some (byte, after)) :
    after.remaining + 1 = walk.remaining := by
  unfold next at h
  by_cases finished : walk.remaining = 0
  · rw [if_pos finished] at h
    cases h
  · rw [if_neg finished] at h
    split at h
    · cases h
    · cases h
      simp only
      omega

end Walk

end Bunzip

import Bunzip.Proofs.Block.Remainder
import Bunzip.Proofs.Block.Safety
import Bunzip.Proofs.Format.SymbolMap
import Bunzip.Proofs.Format.Symbols
import Bunzip.Proofs.Rotation.Inverse

/-!
# Blocks are read as they were written

A block is written by shortening its runs, sorting the rotations of what is left, and writing the
last bytes of these rotations as ranks in a recency list. The writer is free in its choice of codes
and selectors. Whatever it chooses, reading gives a block that hands out the bytes.
-/

namespace Bunzip

namespace Format

/-! ## Writing -/

/-- The last bytes of the sorted rotations of the bytes with their runs shortened. -/
def lastColumnOf (data : List UInt8) : List UInt8 :=
  (SortedRotations.stable (encodeRuns data)).lastColumn

theorem length_lastColumnOf (data : List UInt8) :
    (lastColumnOf data).length = (encodeRuns data).length :=
  (SortedRotations.stable (encodeRuns data)).length_lastColumn

/-- The symbols of a block. -/
def symbolsOf (data : List UInt8) : List Nat :=
  encodeColumn (usedBytes (encodeRuns data)) (lastColumnOf data)

/-- Bytes and the choices that were made to write them as a block. -/
structure WrittenBlock (limit : Nat) where
  data : List UInt8
  codes : List (WrittenCode (usedBytes (encodeRuns data)).length)
  selectors : List Nat
  nonempty : data ≠ []
  fits : (encodeRuns data).length ≤ limit
  fewest : GroupCodes.minTables ≤ codes.length
  most : codes.length ≤ GroupCodes.maxTables
  selected : ∀ selector ∈ selectors, selector < codes.length
  enough : (symbolsOf data).length ≤ GroupCodes.groupSize * selectors.length
  few : selectors.length < 2 ^ 15

/-- The checksum of a byte string. -/
def crcOf (data : List UInt8) : UInt32 := Crc.ofBytes ⟨data.toArray⟩

namespace WrittenBlock

variable {limit : Nat}

/-- A block without its marker. -/
def bits (written : WrittenBlock limit) : List Bool :=
  bitsOf 32 (crcOf written.data).toNat ++ ([false]
    ++ (bitsOf 24 (SortedRotations.origin (encodeRuns written.data))
      ++ (writeSymbolMap (encodeRuns written.data)
        ++ (writeCodes written.codes written.selectors
          ++ writeSymbols written.codes written.selectors 0 (symbolsOf written.data)))))

theorem runs_ne_nil (written : WrittenBlock limit) : encodeRuns written.data ≠ [] := by
  intro hnil
  have hdata := RunLength.unroll_encodeRuns written.data
  rw [hnil] at hdata
  exact written.nonempty hdata.symm

theorem mem_usedBytes_of_mem_column (written : WrittenBlock limit) :
    ∀ byte ∈ lastColumnOf written.data, byte ∈ usedBytes (encodeRuns written.data) := by
  intro byte hbyte
  exact mem_usedBytes.mpr (SortedRotations.mem_of_mem_lastColumn written.runs_ne_nil hbyte)

theorem column_ne_nil (written : WrittenBlock limit) : lastColumnOf written.data ≠ [] := by
  rw [← List.length_pos_iff, length_lastColumnOf]
  exact List.length_pos_iff.mpr written.runs_ne_nil

theorem usedBytes_ne_nil (written : WrittenBlock limit) :
    usedBytes (encodeRuns written.data) ≠ [] := by
  obtain ⟨byte, hbyte⟩ := List.exists_mem_of_ne_nil _ written.column_ne_nil
  exact List.ne_nil_of_mem (written.mem_usedBytes_of_mem_column byte hbyte)

/-- The selectors are also enough for the symbol that ends the block. -/
theorem length_symbolsFrom_lt (written : WrittenBlock limit) :
    (symbolsFrom (usedBytes (encodeRuns written.data)) 0 (lastColumnOf written.data)).length
      < 50 * written.selectors.length := by
  have henough := written.enough
  rw [symbolsOf, encodeColumn, List.length_append, List.length_singleton,
    GroupCodes.groupSize] at henough
  omega

theorem selecting (written : WrittenBlock limit) :
    Selecting written.codes.length written.selectors where
  min := written.fewest
  max := written.most
  some := by
    by_contra hnone
    have hlength := written.length_symbolsFrom_lt
    omega
  many := Nat.le_of_lt_succ written.few
  below := written.selected

/-- What is read of a block, given the walk that spells it. -/
def decoded (written : WrittenBlock limit) (index : Nat) (walk : Walk) : DecodedBlock where
  rest := .start walk
  crc := .start
  stored := crcOf written.data
  index
  columnLength := (encodeRuns written.data).length
  emitted := 0

/-! ## All bytes can be written -/

/-- Selectors that always name the first code. -/
def firstOnly (length : Nat) : List Nat := List.replicate (length / GroupCodes.groupSize + 1) 0

theorem selected_firstOnly {length : Nat} : ∀ selector ∈ firstOnly length, selector < 2 := by
  intro selector hmem
  rw [List.eq_of_mem_replicate hmem]
  exact Nat.zero_lt_two

theorem enough_firstOnly (data : List UInt8) :
    (symbolsOf data).length
      ≤ GroupCodes.groupSize * (firstOnly (encodeRuns data).length).length := by
  have hsymbols := length_encodeColumn_le (usedBytes (encodeRuns data)) (lastColumnOf data)
  rw [length_lastColumnOf] at hsymbols
  rw [firstOnly, List.length_replicate, GroupCodes.groupSize, symbolsOf]
  omega

theorem few_firstOnly {length : Nat} (h : length ≤ 900000) :
    (firstOnly length).length < 2 ^ 15 := by
  rw [firstOnly, List.length_replicate, GroupCodes.groupSize]
  omega

/-- A block in which all codewords have nine bits, so that any alphabet fits. -/
def flat (data : List UInt8) (nonempty : data ≠ []) (fits : (encodeRuns data).length ≤ limit)
    (small : limit ≤ 900000) : WrittenBlock limit where
  data
  codes := [.flat (length_usedBytes _), .flat (length_usedBytes _)]
  selectors := firstOnly (encodeRuns data).length
  nonempty
  fits
  fewest := Nat.le_refl 2
  most := Nat.le_add_right 2 4
  selected := selected_firstOnly
  enough := enough_firstOnly data
  few := few_firstOnly (Nat.le_trans fits small)

end WrittenBlock

end Format

open Format

namespace BlockDecoder

variable {limit : Nat}

/-! ## Reading -/

/-- These bits come next, and columns are limited. -/
def Ready (limit : Nat) (bits : List Bool) (bench : Bench) : Prop :=
  bench.1.maxLength = limit ∧ bench.2.At bits

theorem reads_onReader {α : Type} {op : Op BitReader α} {bits : List Bool} {a : α}
    (h : Op.Reads BitReader.At op bits a) : Op.Reads (Ready limit) (onReader op) bits a := by
  intro ⟨decoder, reader⟩ rest ⟨hlimit, hat⟩
  obtain ⟨after, notes, hrun, hafter⟩ := h reader rest hat
  exact ⟨(decoder, after), notes, by simp only [onReader, hrun]; rfl, hlimit, hafter⟩

theorem reads_reading {α : Type} {x : Read α} {bits : List Bool} {a : α} (h : x.Reads bits a) :
    Op.Reads (Ready limit) (reading x) bits a := reads_onReader h.op

theorem reads_enter (stage : Stage) : Op.Reads (Ready limit) (onDecoder (enter stage)) [] () :=
  fun _ _ h => ⟨_, _, rfl, h⟩

theorem reads_setIndex (index : Nat) :
    Op.Reads (Ready limit) (onDecoder (setIndex index)) [] () := fun _ _ h => ⟨_, _, rfl, h⟩

theorem reads_readHeader (index : Nat) (stored : UInt32) {origin : Nat} (horigin : origin < 2 ^ 24) :
    Op.Reads (Ready limit) (readHeader index)
      (bitsOf 32 stored.toNat ++ ([false] ++ bitsOf 24 origin)) (stored, origin) := by
  refine (reads_setIndex index).then ((reads_enter _).then ?_)
  refine (reads_reading (BitReader.reads_word stored)).bind ?_
  refine (reads_reading (BitReader.reads_bit false)).bind ?_
  rw [if_neg Bool.false_ne_true, ← List.append_nil (bitsOf 24 origin)]
  refine (reads_reading (BitReader.reads_number (by decide) (by decide) horigin)).bind ?_
  exact Op.Reads.get fun _ _ _ => (Op.Reads.note _).then (Op.Reads.pure _)

/-- The symbols of a column are expanded from nothing, whatever the decoder has expanded before. -/
theorem reads_expand {used : Array UInt8} {codes : GroupCodes} {bits : List Bool} {e : Expansion}
    (h : Expands (expandFrom limit used codes) .start bits e) :
    Op.Reads (Ready limit) (expand used codes) bits (.resume e.column e.counts) := by
  rintro ⟨decoder, reader⟩ rest ⟨rfl, hat⟩
  obtain ⟨after, hrun, hafter⟩ := h reader rest hat
  refine ⟨({ decoder with column := e.column, counts := e.counts }, after), [], ?_, rfl, hafter⟩
  rw [expand_eq, hrun]

theorem reads_readColumn (hlimit : limit < 2 ^ 24) (written : WrittenBlock limit) (index : Nat) :
    ∃ e : Expansion, Op.Reads (Ready limit) (readColumn index)
        (writeSymbolMap (encodeRuns written.data) ++ (writeCodes written.codes written.selectors
          ++ writeSymbols written.codes written.selectors 0 (symbolsOf written.data))) e
      ∧ Column e ∧ e.column.data.toList = lastColumnOf written.data := by
  obtain ⟨e, hpush, he, hcolumn⟩ := Expansion.pushAll_encodeColumn hlimit
    (length_usedBytes (encodeRuns written.data)) written.usedBytes_ne_nil
    written.mem_usedBytes_of_mem_column (by rw [length_lastColumnOf]; exact written.fits)
  refine ⟨.resume e.column e.counts, ?_, ⟨Nat.lt_of_le_of_lt he.column hlimit, he.counts⟩,
    hcolumn⟩
  have hexpand : Expands (expandFrom limit (usedBytes (encodeRuns written.data)).toArray
      (.start (written.codes.map WrittenCode.code).toArray written.selectors)) .start
      (writeSymbols written.codes written.selectors 0 (symbolsOf written.data)) e :=
    expands_expandFrom (length_usedBytes _) written.selected
      (fun _ h => lt_of_mem_symbolsFrom written.mem_usedBytes_of_mem_column
        (List.length_pos_iff.mpr written.usedBytes_ne_nil) h)
      (by rw [Nat.zero_add]; exact written.length_symbolsFrom_lt)
      (GroupCodes.before_start _ written.selectors) rfl hpush
  -- the three parts of what is read, in the order in which they are written
  refine (reads_enter _).then ((reads_onReader (SymbolMap.reads_read written.runs_ne_nil)).bind ?_)
  refine (Op.Reads.note _).then ((reads_enter _).then ?_)
  refine (reads_onReader (GroupCodes.reads_writeCodes written.selecting)).bind ?_
  rw [← List.append_nil (writeSymbols _ _ _ _)]
  exact (reads_enter _).then
    ((reads_expand hexpand).bind ((Op.Reads.note _).then (Op.Reads.pure _)))

theorem reads_startWalk {e : Expansion} (he : Column e) {origin : Nat} {walk : Walk}
    (hwalk : Walk.start? (RotationLinks.ofColumn e.column.data.toList) origin = some walk) :
    Op.Reads (Ready limit) (startWalk e origin) [] walk := by
  intro ⟨decoder, reader⟩ rest ⟨hlimit, hat⟩
  refine ⟨({ decoder with used := .empty }, reader), [], ?_, hlimit, hat⟩
  rw [startWalk, Op.bind_eq]
  simp only [onDecoder, takeUsed, Outcome.withState,
    RotationLinks.build?_eq decoder.used he.counts he.short, hwalk]
  rfl

/-- **A block is read as it was written.** The walk that is read hands out the bytes. -/
theorem reads_readBlock (hlimit : limit < 2 ^ 24) (written : WrittenBlock limit) (index : Nat) :
    ∃ walk, Op.Reads (Ready limit) (readBlock index) written.bits (written.decoded index walk)
      ∧ walk.Closed
      ∧ (written.decoded index walk).drained.1.data.toList = written.data := by
  have hruns := written.runs_ne_nil
  have hshort : (encodeRuns written.data).length < RotationLinks.rowLimit :=
    Nat.lt_of_le_of_lt written.fits hlimit
  have horigin := SortedRotations.origin_lt hruns
  obtain ⟨e, hread, he, hcolumn⟩ := reads_readColumn hlimit written index
  obtain ⟨walk, last, hwalk, _, hfollow, hlast⟩ :=
    (SortedRotations.stable _).start_of_row hruns hshort (SortedRotations.rows_origin hruns)
  obtain ⟨_, hsame, hclosed⟩ := Walk.start?_ofColumn
    (by rw [length_lastColumnOf]; exact hshort : (lastColumnOf written.data).length < _)
    (by rw [length_lastColumnOf]; exact horigin)
  obtain rfl := Option.some.inj (hwalk.symm.trans hsame)
  -- the column that was read is the one that the walk was made for
  have hsize : e.column.size = (encodeRuns written.data).length := by
    rw [ByteString.size_eq_length, hcolumn, length_lastColumnOf]
  refine ⟨walk, ?_, hclosed, ?_⟩
  · have hheader : Op.Reads (Ready limit) _ _ _ := reads_readHeader index (crcOf written.data)
      (Nat.lt_trans horigin hshort)
    have hrest : Op.Reads (Ready limit) (do
        onDecoder (enter .links)
        let columnLength := e.column.size
        let walk ← startWalk e (SortedRotations.origin (encodeRuns written.data))
        onDecoder (enter .output)
        return {
          rest := .start walk, crc := .start, stored := crcOf written.data, index, columnLength
          emitted := 0 })
        [] (written.decoded index walk) := by
      refine (reads_enter _).then ((reads_startWalk he (by rw [hcolumn]; exact hwalk)).then
        ((reads_enter _).then ?_))
      rw [WrittenBlock.decoded, ← hsize]
      exact Op.Reads.pure _
    have hbits : written.bits = (bitsOf 32 (crcOf written.data).toNat
        ++ ([false] ++ bitsOf 24 (SortedRotations.origin (encodeRuns written.data))))
        ++ ((writeSymbolMap (encodeRuns written.data)
          ++ (writeCodes written.codes written.selectors
            ++ writeSymbols written.codes written.selectors 0 (symbolsOf written.data))) ++ []) := by
      simp only [WrittenBlock.bits, List.append_assoc, List.append_nil]
    rw [hbits]
    refine hheader.bind (hread.bind ?_)
    rw [if_neg (by rw [hsize]; omega)]
    exact hrest
  · rw [DecodedBlock.toList_drained, DecodedBlock.left_of_start rfl, Walk.bytes_of_follow hfollow hlast]
    exact RunLength.unroll_encodeRuns written.data

end BlockDecoder

end Bunzip

import Bunzip.Proofs.Block.Begun
import Bunzip.Proofs.Locality.Abreast
import Bunzip.Proofs.Locality.Stream

/-!
# A word in place of another

The checksum of a block is a word somewhere in the input, at any alignment to bytes. If another word
is put in its place, the block is read as before, from the same bits to the same bytes: the word is
kept with the block, and nothing else that is read depends on it.
-/

namespace Bunzip

open Format

/-! ## Replacing a word -/

namespace Format

/-- The bits with a word in place of the 32 bits from a place on. -/
def withWord (bits : List Bool) (place : Nat) (word : UInt32) : List Bool :=
  bits.take place ++ (bitsOf 32 word.toNat ++ bits.drop (place + 32))

theorem length_packFrom (bits : List Bool) {count : Nat} (hcount : count < 8) (held : Nat) :
    (packFrom count held bits).length = (count + bits.length + 7) / 8 := by
  induction bits generalizing count held with
  | nil =>
    rw [packFrom]
    split
    · simp only [List.length_nil]
      omega
    · simp only [List.length_singleton, List.length_nil]
      omega
  | cons bit bits ih =>
    rw [packFrom, List.length_cons]
    split
    · rw [List.length_cons, ih (by decide)]
      omega
    · rw [ih (by omega)]
      omega

/-- Bits that fill up bytes are packed without anything behind them. -/
theorem bytesBits_pack_of_dvd {bits : List Bool} (h : 8 ∣ bits.length) :
    bytesBits (pack bits) = bits := by
  obtain ⟨zeros, hpack⟩ := bytesBits_pack bits
  have hlength := congrArg List.length hpack
  rw [length_bytesBits, pack, length_packFrom bits (by decide), List.length_append,
    List.length_replicate] at hlength
  obtain rfl : zeros = 0 := by omega
  rw [hpack, List.replicate_zero, List.append_nil]

end Format

/-- Bytes with a word in place of the 32 bits from a place on. -/
def replaceWord (data : ByteArray) (place : Nat) (word : UInt32) : ByteArray :=
  ⟨(pack (withWord (bytesBits data.data.toList) place word)).toArray⟩

/-- The 32 bits from this place on are those of the word. -/
def WordAt (data : ByteArray) (place : Nat) (word : UInt32) : Prop :=
  bitsOf 32 word.toNat <+: (bytesBits data.data.toList).drop place

section

variable {data : ByteArray} {front later : List Bool} {word : UInt32}

theorem wordAt_of_bits (h : bytesBits data.data.toList = front ++ (bitsOf 32 word.toNat ++ later)) :
    WordAt data front.length word := by
  rw [WordAt, h, List.drop_left]
  exact List.prefix_append _ _

/-- Nothing but the word is replaced. -/
theorem bytesBits_replaceWord
    (h : bytesBits data.data.toList = front ++ (bitsOf 32 word.toNat ++ later)) (other : UInt32) :
    bytesBits (replaceWord data front.length other).data.toList
      = front ++ (bitsOf 32 other.toNat ++ later) := by
  have hbehind : (front ++ (bitsOf 32 word.toNat ++ later)).drop (front.length + 32) = later := by
    rw [← List.append_assoc]
    apply List.drop_left'
    rw [List.length_append, length_bitsOf]
  have hword : withWord (bytesBits data.data.toList) front.length other
      = front ++ (bitsOf 32 other.toNat ++ later) := by
    rw [withWord, h, List.take_left, hbehind]
  have hlength := congrArg List.length h
  rw [length_bytesBits, List.length_append, List.length_append, length_bitsOf] at hlength
  rw [replaceWord, ByteString.toList_mk, hword, bytesBits_pack_of_dvd]
  rw [List.length_append, List.length_append, length_bitsOf]
  omega

end

/-! ## What has been read -/

/-- A local operation moves its reader along the bits before it. -/
theorem Op.Local.moves {σ τ α : Type} {view : View σ τ} {op : Op σ α} (h : Op.Local view op)
    (state : σ) {place : Nat} {bits : List Bool} (hstate : (view.reader state).Stands place bits) :
    ∃ front rest, bits = front ++ rest
      ∧ (view.reader (op state).state).Stands (place + front.length) rest := by
  obtain ⟨reading, later, hbits, hdecides⟩ := h (view.rest state) place bits state ⟨rfl, hstate⟩
  have hstands : view.Stands (view.rest state) place (reading.front ++ later) state :=
    ⟨rfl, by rw [← hbits]; exact hstate⟩
  exact ⟨reading.front, later, hbits, (hdecides.agrees state later (.inl rfl) hstands).state.reader⟩

/-- What has been read in a field of fixed width stands in the bits that were before the reader. -/
theorem Read.Local.ahead {α : Type} {x : Read α} (hx : x.Local) {n : Nat} (hspends : Read.Spends n x)
    {code : α → List Bool}
    (hreads : ∀ bits : List Bool, bits.length = n → ∃ a, code a = bits ∧ x.Reads bits a)
    {place : Nat} {bits : List Bool} {reader after : BitReader} {a : α}
    (hreader : reader.Stands place bits) (hread : x reader = .ok a after) :
    ∃ rest, bits = code a ++ rest ∧ after.Stands (place + n) rest := by
  have henough : n ≤ bits.length := by
    have hspent := hspends.of_ok hread
    rw [BitReader.bitsLeft_eq reader, hreader.upcoming] at hspent
    omega
  have hlength : (bits.take n).length = n := by
    rw [List.length_take, Nat.min_eq_left henough]
  obtain ⟨b, hcode, hb⟩ := hreads (bits.take n) hlength
  rw [← List.take_append_drop n bits] at hreader
  obtain ⟨behind, hagain, hbehind⟩ := hx.stands_of_reads hb hreader
  rw [hread] at hagain
  cases hagain
  rw [hlength] at hbehind
  exact ⟨bits.drop n, by rw [hcode, List.take_append_drop], hbehind⟩

theorem BitReader.word_ahead {place : Nat} {bits : List Bool} {reader after : BitReader}
    {word : UInt32} (hreader : reader.Stands place bits) (hread : BitReader.word reader = .ok word after) :
    ∃ rest, bits = bitsOf 32 word.toNat ++ rest ∧ after.Stands (place + 32) rest := by
  have hfield : ∀ bits : List Bool, bits.length = 32 →
      ∃ word : UInt32, bitsOf 32 word.toNat = bits ∧ BitReader.word.Reads bits word := by
    intro bits hlength
    obtain ⟨value, hvalue, hbits⟩ := exists_bitsOf bits
    rw [hlength] at hvalue hbits
    have hcode : bitsOf 32 (UInt32.ofNat value).toNat = bits := by
      rw [toNat_ofNat_lt (Nat.le_refl 32) hvalue, hbits]
    exact ⟨_, hcode, hcode ▸ reads_word _⟩
  exact local_word.ahead spends_word hfield hreader hread

theorem BitReader.word_of_stands {place : Nat} {rest : List Bool} {reader : BitReader}
    {word : UInt32} (hreader : reader.Stands place (bitsOf 32 word.toNat ++ rest)) :
    ∃ after, BitReader.word reader = .ok word after ∧ after.Stands (place + 32) rest := by
  obtain ⟨after, hread, hafter⟩ := local_word.stands_of_reads (reads_word word) hreader
  rw [length_bitsOf] at hafter
  exact ⟨after, hread, hafter⟩

theorem Op.pure_bind {σ α β : Type} (a : α) (next : α → Op σ β) : Pure.pure a >>= next = next a := by
  funext state
  exact Outcome.after_nil (next a state)

/-! ## Blocks with another checksum -/

namespace BlockDecoder

/-- Reads the column of a block, and gives its length and the walk from the origin. -/
def readWalk (index origin : Nat) : Op Bench (Nat × Walk) := do
  let e ← readColumn index
  if e.column.size ≤ origin then
    reading (BitReader.corrupt (.originPointer origin e.column.size))
  else
    onDecoder (enter .links)
    let walk ← startWalk e origin
    onDecoder (enter .output)
    return (e.column.size, walk)

/-- Reads what comes behind the stored checksum of a block. -/
def readBehind (index : Nat) (stored : UInt32) : Op Bench (Nat × Walk) := do
  if ← reading BitReader.bit then Op.fail (.unsupported "randomized blocks")
  else
    let origin ← reading (BitReader.number 24)
    Op.note (.blockHeader index stored origin (← place))
    readWalk index origin

/-- The block that begins with this walk. -/
def blockOf (index : Nat) (stored : UInt32) : Nat × Walk → DecodedBlock
  | (columnLength, walk) =>
    { rest := .start walk, crc := .start, stored, index, columnLength, emitted := 0 }

/-- A block is its stored checksum, and what is read behind it. -/
theorem readBlock_eq (index : Nat) : readBlock index =
    onDecoder (setIndex index) >>= fun _ => onDecoder (enter .header) >>= fun _ =>
      reading BitReader.word >>= fun stored =>
        readBehind index stored >>= fun body => pure (blockOf index stored body) := by
  unfold readBlock readHeader readBehind readWalk
  simp only [Op.bind_assoc]
  refine bind_congr fun _ => bind_congr fun _ => bind_congr fun stored => bind_congr fun randomized => ?_
  cases randomized with
  | true => rfl
  | false =>
    simp only [Bool.false_eq_true, if_false, Op.bind_assoc, Op.pure_bind]
    refine bind_congr fun origin => bind_congr fun place => bind_congr fun _ => bind_congr fun e => ?_
    by_cases houtside : e.column.size ≤ origin
    · rw [if_pos houtside, if_pos houtside]
      rfl
    · rw [if_neg houtside, if_neg houtside]
      simp only [Op.bind_assoc, Op.pure_bind]
      rfl

theorem inStep_readWalk (index origin : Nat) : Op.InStep limitView (readWalk index origin) := by
  refine (inStep_readColumn index).bind fun e => ?_
  split
  · exact inStep_reading (.corrupt _)
  · exact (inStep_enter _).bind fun _ => (inStep_startWalk e origin).bind fun walk =>
      (inStep_enter _).bind fun _ => .pure _

theorem inStep_readBehind (index : Nat) (stored : UInt32) :
    Op.InStep limitView (readBehind index stored) := by
  refine (inStep_reading BitReader.inStep_bit).bind fun randomized => ?_
  split
  · exact .fail (fun _ => nofun) fun _ _ => nofun
  · exact (inStep_reading (BitReader.inStep_number 24)).bind fun origin =>
      .noteOf _ (inStep_readWalk index origin)

/-- The checksum only goes into a note. -/
theorem readBehind_other (index : Nat) (stored other : UInt32) (bench : Bench) :
    (readBehind index other bench).result = (readBehind index stored bench).result
      ∧ (readBehind index other bench).state = (readBehind index stored bench).state := by
  rw [readBehind, readBehind, Op.bind_eq, Op.bind_eq]
  cases reading BitReader.bit bench with
  | error reason after notes => exact ⟨rfl, rfl⟩
  | ok randomized middle notes =>
    cases randomized with
    | true => exact ⟨rfl, rfl⟩
    | false =>
      simp only [Bool.false_eq_true, if_false, Op.bind_eq (reading (BitReader.number 24))]
      cases reading (BitReader.number 24) middle with
      | error reason after more => exact ⟨rfl, rfl⟩
      | ok origin after more =>
        have hplace : place after = .ok after.2.position after [] := rfl
        simp only [Outcome.result_after, Outcome.state_after, Op.bind_eq, hplace, Op.note, and_self]

/-- Once the stored checksum has been read, the block is read behind it. -/
theorem readBlock_of_word (index : Nat) {stored : UInt32} {bench : Bench} {reader : BitReader}
    (hword : BitReader.word bench.2 = .ok stored reader) :
    ∃ decoder notes, decoder.maxLength = bench.1.maxLength
      ∧ readBlock index bench = ((readBehind index stored >>= fun body =>
          pure (blockOf index stored body)) (decoder, reader)).after notes := by
  obtain ⟨decoder, bits⟩ := bench
  refine ⟨{ decoder with index, stage := .header }, [.stage index decoder.stage .header], rfl, ?_⟩
  rw [readBlock_eq, Op.bind_eq]
  simp only [onDecoder, setIndex, Op.modify, enter, Outcome.withState, Op.bind_eq, reading, onReader,
    Op.read, hword, Outcome.after_after]
  rfl

/-- A block with another checksum in front is read as the same block, kept with that checksum. -/
theorem readBlock_of_other {index : Nat} {stored other : UInt32} {a b after : Bench}
    {block : DecodedBlock} {notes : List Note} (hlimit : a.1.maxLength = b.1.maxLength)
    {place : Nat} {later : List Bool} (ha : a.2.Stands place (bitsOf 32 stored.toNat ++ later))
    (hb : b.2.Stands place (bitsOf 32 other.toNat ++ later))
    (hread : readBlock index a = .ok block after notes) :
    ∃ after' notes', readBlock index b = .ok { block with stored := other } after' notes' := by
  obtain ⟨reader, hword, hreader⟩ := BitReader.word_of_stands ha
  obtain ⟨reader', hword', hreader'⟩ := BitReader.word_of_stands hb
  obtain ⟨decoder, first, hdecoder, hrun⟩ := readBlock_of_word index hword
  obtain ⟨decoder', first', hdecoder', hrun'⟩ := readBlock_of_word index hword'
  -- behind the words both readers have the same bits before them, down to the last one
  have hbehind : limitView.Abreast 0 0 0 (decoder, reader) (decoder', reader') :=
    ⟨hdecoder.trans (hlimit.trans hdecoder'.symm), place + 32, later, [], [],
      by rw [Nat.zero_add, List.append_nil]; exact hreader,
      by rw [Nat.zero_add, List.append_nil]; exact hreader', rfl⟩
  obtain ⟨hsame, _⟩ := readBehind_other index stored other (decoder', reader')
  rw [hread, Op.bind_eq] at hrun
  rw [Op.bind_eq] at hrun'
  cases hbody : readBehind index stored (decoder, reader) with
  | error reason stopped more =>
    rw [hbody] at hrun
    cases hrun
  | ok body middle more =>
    rw [hbody] at hrun
    have hblock : block = blockOf index stored body := by
      cases hrun
      rfl
    obtain ⟨_, _, hagain, _⟩ :=
      (inStep_readBehind index stored).ok_of_ok hbehind hbody (Nat.zero_le _)
    rw [hagain] at hsame
    cases hother : readBehind index other (decoder', reader') with
    | error reason stopped more' =>
      rw [hother] at hsame
      cases hsame
    | ok body' middle' more' =>
      rw [hother] at hsame hrun'
      cases hsame
      rw [hblock]
      exact ⟨_, _, hrun'⟩

end BlockDecoder

end Bunzip

import Bunzip.Block.Decoder

/-!
# How many bits a block spends

Reading a block hands out bits and never makes any appear. So a stream, which spends a marker on each
of its blocks, has only finitely many of them. The statements follow the parts of a block from the
inside out; the last one is about the block as a whole.
-/

namespace Bunzip

/-! ## Codes -/

theorem PrefixCode.spends_match? (code : PrefixCode) (rows : List PrefixRow) (codeword : Int32) :
    Read.Spends 0 (code.match? rows codeword) := by
  induction rows generalizing codeword with
  | nil => exact Read.Spends.corrupt 0 _
  | cons row longer ih =>
    unfold match?
    split
    · split
      · exact Read.Spends.pure _
      · exact Read.Spends.corrupt 0 _
    · split
      · exact Read.Spends.corrupt 0 _
      · exact BitReader.spends_bit.any.andThen fun _ => ih _

/-- There is no codeword without bits: fields of no width are refused. -/
theorem PrefixCode.spends_decode (code : PrefixCode) : Read.Spends 1 code.decode := by
  unfold decode
  rcases Nat.eq_zero_or_pos code.minLength with hzero | hpos
  · have hrefused : BitReader.bits code.minLength = throw (.defect (.fieldWidth 0)) := by
      rw [hzero]
      rfl
    rw [hrefused]
    exact (Read.Spends.throw 1 _).bind (n := 0) fun _ => code.spends_match? _ _
  · exact ((BitReader.spends_bits _).bind fun _ => code.spends_match? _ _).mono hpos

namespace GroupCodes

theorem spends_decode (codes : GroupCodes) : Read.Spends 1 codes.decode := by
  unfold decode
  split
  · exact Read.Spends.throw 1 _
  · exact PrefixCode.spends_decode _

/-- Each selector is at least the zero that ends its rank. -/
theorem spends_readSelectors {tables : Nat} (some : 0 < tables) (n : Nat) (recent : MoveToFront)
    (selectors : Array Nat) : Read.Spends n (readSelectors tables n recent selectors) := by
  induction n generalizing recent selectors with
  | zero => exact Read.Spends.pure _
  | succ n ih =>
    have rank := (BitReader.spends_ones tables).mono (Nat.le_min.mpr ⟨Nat.le_refl 1, some⟩)
    refine (rank.bind fun rank => ?_).mono (Nat.le_of_eq (Nat.add_comm n 1))
    split
    · exact Read.Spends.corrupt n _
    · split
      · exact Read.Spends.throw n _
      · exact ih _ _

/-- The length of a symbol is at least the zero that ends its steps. -/
theorem spends_settleLength (table symbol : Nat) (length : Int) :
    Read.Spends 1 (settleLength table symbol length) := by
  intro reader
  fun_induction settleLength table symbol length reader with
  | case1 => exact Nat.le_refl _
  | case2 length reader inside reason stopped flagged =>
    have flag := BitReader.spends_bit reader
    rw [flagged] at flag
    exact flag
  | case3 length reader inside settled flagged =>
    have flag := BitReader.spends_bit.of_ok flagged
    simp only
    omega
  | case4 length reader inside stepping flagged reason stopped stepped =>
    have flag := BitReader.spends_bit.of_ok flagged
    have step := BitReader.spends_bit stepping
    rw [stepped] at step
    simp only at step ⊢
    omega
  | case5 length reader inside stepping flagged down there directed flag step ih =>
    cases hs : settleLength table symbol (stepped length down) there with
    | ok settled after => rw [hs] at ih; simp only at ih ⊢; omega
    | error reason after => rw [hs] at ih; simp only at ih ⊢; omega

theorem spends_readLengthsFrom (table count symbol : Nat) (length : Int) (lengths : Array Nat) :
    Read.Spends count (readLengthsFrom table count symbol length lengths) := by
  induction count generalizing symbol length lengths with
  | zero => exact Read.Spends.pure _
  | succ count ih =>
    exact ((spends_settleLength table symbol length).bind fun _ => ih _ _ _).mono
      (Nat.le_of_eq (Nat.add_comm count 1))

theorem spends_readLengths (table alphabet : Nat) :
    Read.Spends (5 + alphabet) (readLengths table alphabet) :=
  (BitReader.spends_number 5).bind fun _ => (spends_readLengthsFrom _ _ _ _ _).map _

theorem spends_readTable (table alphabet : Nat) :
    Op.Spends BitReader.bitsLeft (5 + alphabet) (readTable table alphabet) := by
  refine (Op.Spends.read (spends_readLengths table alphabet)).bind (n := 0) fun lengths => ?_
  split
  · exact Op.Spends.read (Read.Spends.corrupt 0 _)
  · exact Op.Spends.get.andThen fun _ => (Op.Spends.note _).andThen fun _ => Op.Spends.pure _

theorem spends_readTables (alphabet count table : Nat) (tables : Array PrefixCode) :
    Op.Spends BitReader.bitsLeft (count * (5 + alphabet))
      (readTables alphabet count table tables) := by
  induction count generalizing table tables with
  | zero =>
    rw [Nat.zero_mul]
    exact Op.Spends.pure _
  | succ count ih =>
    rw [Nat.succ_mul, Nat.add_comm]
    exact (spends_readTable table alphabet).bind fun _ => ih _ _

/-- The two numbers, a selector and two codes: this much every block has. -/
theorem spends_read (alphabet : Nat) :
    Op.Spends BitReader.bitsLeft (3 + (15 + (1 + minTables * (5 + alphabet)))) (read alphabet) := by
  refine (Op.Spends.read (BitReader.spends_number 3)).bind fun tables => ?_
  split
  · exact Op.Spends.read (Read.Spends.corrupt _ _)
  · next some =>
    refine (Op.Spends.read (BitReader.spends_number 15)).bind fun count => ?_
    split
    · exact Op.Spends.read (Read.Spends.corrupt _ _)
    · have enough : minTables ≤ tables := by omega
      have positive : 0 < tables := Nat.lt_of_lt_of_le (by decide) enough
      refine ((Op.Spends.read (spends_readSelectors positive _ _ _)).mono (by omega)).bind fun _ =>
        ((spends_readTables _ _ _ _).mono (Nat.mul_le_mul_right _ enough)).bind (n := 0) fun _ =>
          (Op.Spends.note _).andThen fun _ => ?_
      split
      · exact Op.Spends.fail 0 _
      · exact Op.Spends.pure _

end GroupCodes

/-! ## The block -/

namespace BlockDecoder

/-- The bits that are left on a bench. -/
def Bench.bitsLeft (bench : Bench) : Nat := bench.2.bitsLeft

theorem spends_onReader {α : Type} {n : Nat} {op : Op BitReader α}
    (h : Op.Spends BitReader.bitsLeft n op) : Op.Spends Bench.bitsLeft n (onReader op) := by
  intro bench
  have spent := h bench.2
  simp only [onReader]
  cases hr : op bench.2 with
  | ok a after notes => rw [hr] at spent; exact spent
  | error e after notes => rw [hr] at spent; exact spent

theorem spends_onDecoder {α : Type} (op : Op BlockDecoder α) :
    Op.Spends Bench.bitsLeft 0 (onDecoder op) := by
  intro bench
  simp only [onDecoder]
  cases op bench.1 <;> exact Nat.le_refl _

theorem spends_reading {α : Type} {n : Nat} {x : Read α} (h : Read.Spends n x) :
    Op.Spends Bench.bitsLeft n (reading x) :=
  spends_onReader (Op.Spends.read h)

theorem spends_place : Op.Spends Bench.bitsLeft 0 place :=
  Op.Spends.get.andThen fun _ => Op.Spends.pure _

/-! ### Columns -/

theorem spends_beside {α : Type} {n : Nat} {x : Read α} (h : Read.Spends n x) :
    Op.Spends (fun state => state.2.bitsLeft) n (Op.read (beside x)) := by
  rintro ⟨e, reader⟩
  have spent := h reader
  simp only [Op.read, beside]
  cases hr : x reader with
  | error reason after => rw [hr] at spent; exact spent
  | ok a after => rw [hr] at spent; exact spent

theorem spends_takeIn (limit : Nat) (used : Array UInt8) (symbol : Nat) :
    Op.Spends (fun state => state.2.bitsLeft) 0 (Op.read (takeIn limit used symbol)) := by
  rintro ⟨e, reader⟩
  simp only [Op.read, takeIn]
  cases Expansion.push limit used symbol e with
  | error halt e => cases halt <;> exact Nat.le_refl _
  | ok done e => exact Nat.le_refl _

theorem spends_expandFrom (limit : Nat) (used : Array UInt8) (codes : GroupCodes) :
    Op.Spends (fun state => state.2.bitsLeft) 1 (Op.read (expandFrom limit used codes)) := by
  fun_induction expandFrom limit used codes with
  | case1 => exact spends_beside (Read.Spends.corrupt 1 _)
  | case2 codes after turn ih =>
    rw [Op.read_bind]
    refine (spends_beside (GroupCodes.spends_decode after)).bind (n := 0) fun symbol => ?_
    rw [Op.read_bind]
    refine (spends_takeIn limit used _).andThen fun _ => ?_
    split
    · exact Op.Spends.pure _
    · exact ih.any

theorem spends_onColumn {α : Type} {n : Nat} {op : Op (Expansion × BitReader) α}
    (h : Op.Spends (fun state => state.2.bitsLeft) n op) :
    Op.Spends Bench.bitsLeft n (onColumn op) := by
  rintro ⟨decoder, reader⟩
  have spent := h (decoder.expansion, reader)
  simp only [onColumn]
  cases hr : op (decoder.expansion, reader) with
  | ok a after notes => rw [hr] at spent; exact spent
  | error e after notes => rw [hr] at spent; exact spent

theorem spends_expand (used : Array UInt8) (codes : GroupCodes) :
    Op.Spends Bench.bitsLeft 0 (expand used codes) :=
  (spends_onDecoder _).andThen fun _ => Op.Spends.get.andThen fun _ =>
    (spends_onColumn (spends_expandFrom _ _ _)).any.andThen fun _ =>
      Op.Spends.get.andThen fun _ => Op.Spends.pure _

theorem spends_startWalk (e : Expansion) (origin : Nat) :
    Op.Spends Bench.bitsLeft 0 (startWalk e origin) := by
  refine (spends_onDecoder _).andThen fun used => ?_
  split
  · exact Op.Spends.fail 0 _
  · split
    · exact spends_reading (Read.Spends.corrupt 0 _)
    · exact Op.Spends.pure _

theorem spends_readHeader (index : Nat) :
    Op.Spends Bench.bitsLeft 57 (readHeader index) := by
  show Op.Spends Bench.bitsLeft (0 + (0 + (32 + (1 + 24)))) (readHeader index)
  refine (spends_onDecoder _).bind fun _ => (spends_onDecoder _).bind fun _ =>
    (spends_reading BitReader.spends_word).bind fun stored =>
      (spends_reading BitReader.spends_bit).bind fun randomized => ?_
  split
  · exact Op.Spends.fail 24 _
  · exact (spends_reading (BitReader.spends_number 24)).bind (n := 0) fun origin =>
      spends_place.andThen fun _ => (Op.Spends.note _).andThen fun _ => Op.Spends.pure _

theorem spends_readColumn (index : Nat) : Op.Spends Bench.bitsLeft 0 (readColumn index) :=
  (spends_onDecoder _).andThen fun _ => (spends_onReader SymbolMap.spends_read).andThen fun _ =>
    (Op.Spends.note _).andThen fun _ => (spends_onDecoder _).andThen fun _ =>
      (spends_onReader (GroupCodes.spends_read _)).any.andThen fun _ =>
        (spends_onDecoder _).andThen fun _ => (spends_expand _ _).andThen fun _ =>
          (Op.Spends.note _).andThen fun _ => Op.Spends.pure _

theorem spends_readBlock (index : Nat) : Op.Spends Bench.bitsLeft 0 (readBlock index) := by
  refine (spends_readHeader index).any.andThen fun header =>
    (spends_readColumn index).andThen fun e => ?_
  split
  · exact spends_reading (Read.Spends.corrupt 0 _)
  · exact (spends_onDecoder _).andThen fun _ => (spends_startWalk _ _).andThen fun _ =>
      (spends_onDecoder _).andThen fun _ => Op.Spends.pure _

end BlockDecoder

end Bunzip

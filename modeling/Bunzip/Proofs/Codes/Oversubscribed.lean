import Bunzip.Proofs.Codes.Canonical

/-!
# Codes with any lengths

A code is made of whatever lengths the input gives, as long as each of them is between 1 and 20. There
may be more codewords of a length than numbers, or numbers left over. Neither does any harm. When
reading comes to a row, the bits so far are not below the first codeword of the row, because they went
beyond all shorter ones; so as soon as they are within the row, the place of their symbol lies among
the symbols of that very length, and the symbol costs as many bits as it has.

Numbers left over are what makes a code fail. There are some if and only if the lengths stay below
Kraft's bound.
-/

namespace Bunzip

namespace Format

/-- Kraft's sum: the share of all bit strings that begin with a codeword, if there are enough of them. -/
def kraft (lengths : List Nat) : ℚ := (lengths.map fun length => (1 / 2 : ℚ) ^ length).sum

theorem kraftSum_eq_kraft {lengths : List Nat} (h : ∀ length ∈ lengths, length ≤ PrefixCode.longest) :
    (kraftSum lengths : ℚ) = kraft lengths * 2 ^ PrefixCode.longest := by
  induction lengths with
  | nil => simp [kraftSum, kraft]
  | cons length lengths ih =>
    obtain ⟨hlength, hothers⟩ := List.forall_mem_cons.mp h
    have hpow : (2 : ℚ) ^ (PrefixCode.longest - length)
        = (1 / 2 : ℚ) ^ length * 2 ^ PrefixCode.longest := by
      rw [pow_sub₀ _ two_ne_zero hlength, one_div, inv_pow, mul_comm]
    have hrest := ih hothers
    simp only [kraftSum, kraft, List.map_cons, List.sum_cons] at hrest ⊢
    rw [Nat.cast_add, hrest, add_mul, Nat.cast_pow, Nat.cast_ofNat, hpow]

theorem kraft_lt_one_iff {lengths : List Nat} (h : ∀ length ∈ lengths, length ≤ PrefixCode.longest) :
    kraft lengths < 1 ↔ kraftSum lengths < 2 ^ PrefixCode.longest := by
  have hpos : (0 : ℚ) < 2 ^ PrefixCode.longest := by positivity
  have hscaled : kraft lengths < 1
      ↔ kraft lengths * 2 ^ PrefixCode.longest < 1 * 2 ^ PrefixCode.longest :=
    (mul_lt_mul_iff_left₀ hpos).symm
  rw [hscaled, one_mul, ← kraftSum_eq_kraft h]
  exact_mod_cast Iff.rfl

/-- At the greatest length, every codeword counts. -/
theorem taken_mul_eq_kraftSum {lengths : List Nat} {most : Nat} (hmost : most ≤ PrefixCode.longest)
    (h : ∀ length ∈ lengths, length ≤ most) :
    taken lengths most * 2 ^ (PrefixCode.longest - most) = kraftSum lengths := by
  induction lengths with
  | nil => exact Nat.zero_mul _
  | cons length lengths ih =>
    obtain ⟨hlength, hothers⟩ := List.forall_mem_cons.mp h
    have hpow : 2 ^ (most - length) * 2 ^ (PrefixCode.longest - most)
        = 2 ^ (PrefixCode.longest - length) := by
      rw [← Nat.pow_add]
      congr 1
      omega
    have hrest := ih hothers
    simp only [taken, kraftSum, List.map_cons, List.sum_cons] at hrest ⊢
    rw [Nat.add_mul, hrest, if_pos hlength, hpow]

/-- There are numbers left over at the greatest length if and only if the lengths stay below the bound. -/
theorem taken_lt_iff {lengths : List Nat} {most : Nat} (hmost : most ≤ PrefixCode.longest)
    (h : ∀ length ∈ lengths, length ≤ most) :
    taken lengths most < 2 ^ most ↔ kraftSum lengths < 2 ^ PrefixCode.longest := by
  have hpow : 2 ^ PrefixCode.longest = 2 ^ most * 2 ^ (PrefixCode.longest - most) := by
    rw [← Nat.pow_add, Nat.add_sub_of_le hmost]
  rw [← taken_mul_eq_kraftSum hmost h, hpow, Nat.mul_lt_mul_right (Nat.two_pow_pos _)]

end Format

open Format

namespace PrefixCode

variable {lengths : List Nat} {code : PrefixCode} {bits : List Bool} {reader : BitReader}

/-! ## The branch without a symbol -/

/--
Compares as `match?` does. What is done if the bits are within a row and no symbol stands at their
place is a parameter.
-/
def matchOr (code : PrefixCode) (missing : Read UInt16) : List PrefixRow → Int32 → Read UInt16
  | [], _ => BitReader.corrupt .invalidCode
  | row :: longer, word =>
    if word ≤ row.limit then
      match code.symbolAt (word - row.base) with
      | some symbol => pure symbol
      | none => missing
    else if longer.isEmpty then BitReader.corrupt .invalidCode
    else do
      let next ← BitReader.bit
      matchOr code missing longer ((word <<< 1) ||| (if next then 1 else 0))

/-- Reads one codeword, see `matchOr`. -/
def decodeOr (code : PrefixCode) (missing : Read UInt16) : Read UInt16 := do
  let word ← BitReader.bits code.minLength
  code.matchOr missing code.rows word.toInt32

/-! ## Coming to a row -/

/--
Reading has come to the first of these rows, which is for words of `here` bits: they are not below the
first codeword, and the symbols of shorter codewords are those before.
-/
structure Reached (code : PrefixCode) (lengths : List Nat) (here : Nat) (before : List UInt16)
    (rows : List PrefixRow) (value : Nat) : Prop where
  ints : rows.map PrefixRow.toInts
    = exactRows lengths rows.length here (firstCodeword lengths here) before.length
  symbols : code.symbols.toList
    = before ++ (List.range' here rows.length).flatMap (symbolsOfLength lengths)
  bases : ∀ row ∈ rows.map PrefixRow.toInts, -2 ^ 30 ≤ row.2 ∧ row.2 ≤ 2 ^ 30
  low : firstCodeword lengths here ≤ value
  high : value < 2 ^ here
  few : here + rows.length ≤ 30

variable {here value : Nat} {before : List UInt16} {row : PrefixRow} {longer : List PrefixRow}
  {word : Int32}

theorem Reached.word_le_iff (h : Reached code lengths here before (row :: longer) value)
    (hword : word.toInt = value) :
    word ≤ row.limit ↔ value < firstCodeword lengths here + lengths.count here := by
  have hrow := (List.cons.inj h.ints).1
  simp only [PrefixRow.toInts, Prod.mk.injEq] at hrow
  rw [Int32.le_iff_toInt_le, hword, hrow.1]
  omega

/-- Within a row, there is a symbol, and it has as many bits as were read. -/
theorem Reached.symbolAt (h : Reached code lengths here before (row :: longer) value)
    (hword : word.toInt = value) (hlt : value < firstCodeword lengths here + lengths.count here) :
    ∃ symbol, lengths[symbol]? = some here ∧ codeword lengths here symbol = value
      ∧ code.symbolAt (word - row.base) = some (UInt16.ofNat symbol) := by
  have hlow := h.low
  obtain ⟨symbol, hsymbol, hcount⟩ := exists_codeword
    (by omega : value - firstCodeword lengths here < lengths.count here)
  have hvalue : codeword lengths here symbol = value := by
    rw [codeword, hcount]
    omega
  have hrow := (List.cons.inj h.ints).1
  simp only [PrefixRow.toInts, Prod.mk.injEq] at hrow
  obtain ⟨hbaseLow, hbaseHigh⟩ := h.bases row.toInts List.mem_cons_self
  simp only [PrefixRow.toInts] at hbaseLow hbaseHigh
  have hpow : (2 : Nat) ^ here ≤ 2 ^ 30 := Nat.pow_le_pow_right (by decide) (by have := h.few; omega)
  have hhigh := h.high
  have hplace : (word - row.base).toInt = (value : Int) - row.base.toInt := by
    rw [toInt_sub_of_fits (by rw [hword]; constructor <;> omega), hword]
  refine ⟨symbol, hsymbol, hvalue, ?_⟩
  rw [symbolAt_eq, hplace, hrow.2, ← hvalue]
  exact symbolAtExact_codeword hsymbol h.symbols

/-- Beyond a row, reading comes to the next one, whatever the next bit is. -/
theorem Reached.next (h : Reached code lengths here before (row :: longer) value)
    (hword : word.toInt = value) (hge : firstCodeword lengths here + lengths.count here ≤ value)
    (hsome : longer ≠ []) (next : Bool) :
    Reached code lengths (here + 1) (before ++ symbolsOfLength lengths here) longer
        (value * 2 + next.toNat)
      ∧ ((word <<< 1) ||| (if next then 1 else 0)).toInt = (value * 2 + next.toNat : Nat) := by
  have hrows := (List.cons.inj h.ints).2
  have hsymbols := h.symbols
  have hfew := h.few
  have hhigh := h.high
  have hnext : next.toNat ≤ 1 := next.toNat_le
  have hmore := List.length_pos_iff.mpr hsome
  rw [List.length_cons] at hfew hsymbols
  have hpow : (2 : Nat) ^ here ≤ 2 ^ 29 := Nat.pow_le_pow_right (by decide) (by omega)
  refine ⟨⟨?_, ?_, fun other hmem => h.bases other (List.mem_cons_of_mem _ hmem), ?_, ?_, ?_⟩, ?_⟩
  · rw [List.length_append, length_symbolsOfLength, firstCodeword]
    exact hrows
  · rw [hsymbols, List.range'_succ, List.flatMap_cons, List.append_assoc]
  · rw [firstCodeword]
    omega
  · rw [Nat.pow_succ]
    omega
  · omega
  · rw [toInt_appendBit (by rw [hword]; omega) (by rw [hword]; omega), hword]
    push_cast
    rfl

/-! ## Decoding -/

/--
What can come of reading one symbol at a place, given the bits that come next and the greatest length:
a symbol of the alphabet, for which exactly the bits of its codeword are read; or all bits of the
greatest length are read and are beyond its last codeword, which needs numbers left over; or the input
ends before that.
-/
inductive Decoded (lengths : List Nat) (most place : Nat) (bits : List Bool) :
    EStateM.Result DecodeError BitReader UInt16 → Prop where
  | symbol {symbol : UInt16} {after : BitReader} (inside : symbol.toNat < lengths.length) :
      writeCodeword lengths symbol.toNat <+: bits →
      after.Stands (place + lengths[symbol.toNat]) (bits.drop lengths[symbol.toNat]) →
      Decoded lengths most place bits (.ok symbol after)
  | invalid {after : BitReader} : taken lengths most < 2 ^ most → most ≤ bits.length →
      after.Stands (place + most) (bits.drop most) →
      Decoded lengths most place bits (.error (.corrupt (place + most) .invalidCode) after)
  | ended {consumed : Nat} {after : BitReader} : bits.length < most → consumed ≤ bits.length →
      after.Stands (place + consumed) (bits.drop consumed) →
      Decoded lengths most place bits (.error (.endOfStream (place + consumed)) after)

/-- From a row on, reading never asks for a symbol that is not there. -/
theorem Reached.matchOr_eq {rows : List PrefixRow} (missing : Read UInt16)
    (h : Reached code lengths here before rows value) (hword : word.toInt = value) :
    code.matchOr missing rows word = code.match? rows word := by
  induction rows generalizing here before value word with
  | nil => rfl
  | cons row longer ih =>
    rw [matchOr, match?]
    rcases Nat.lt_or_ge value (firstCodeword lengths here + lengths.count here) with hlt | hge
    · obtain ⟨symbol, _, _, hsymbol⟩ := h.symbolAt hword hlt
      have hwithin := (h.word_le_iff hword).mpr hlt
      rw [if_pos hwithin, if_pos hwithin, hsymbol]
    · have hbeyond : ¬word ≤ row.limit := fun hle =>
        absurd ((h.word_le_iff hword).mp hle) (Nat.not_lt.mpr hge)
      rw [if_neg hbeyond, if_neg hbeyond]
      cases longer with
      | nil => rfl
      | cons other longer =>
        have hlonger : ∀ next : Bool,
            code.matchOr missing (other :: longer) ((word <<< 1) ||| (if next then 1 else 0))
              = code.match? (other :: longer) ((word <<< 1) ||| (if next then 1 else 0)) := by
          intro next
          obtain ⟨hnext, hint⟩ := h.next hword hge (List.cons_ne_nil _ _) next
          exact ih hnext hint
        simp only [hlonger]

/-- Within a row, a symbol of its length has been read. -/
theorem Reached.decoded_within {place : Nat} (hfew : lengths.length ≤ 2 ^ 16)
    (h : Reached code lengths here before (row :: longer) value) (hword : word.toInt = value)
    (hlt : value < firstCodeword lengths here + lengths.count here)
    (hreader : reader.Stands (place + here) bits) (most : Nat) :
    Decoded lengths most place (bitsOf here value ++ bits)
      (code.match? (row :: longer) word reader) := by
  obtain ⟨symbol, hsymbol, hvalue, hplace⟩ := h.symbolAt hword hlt
  obtain ⟨hinside, hlength⟩ := List.getElem?_eq_some_iff.mp hsymbol
  have hnumber : (UInt16.ofNat symbol).toNat = symbol := by
    rw [UInt16.toNat_ofNat']
    omega
  have hrun : code.match? (row :: longer) word reader = .ok (UInt16.ofNat symbol) reader := by
    rw [match?, if_pos ((h.word_le_iff hword).mpr hlt), hplace]
    rfl
  have hwrite : writeCodeword lengths symbol = bitsOf here value := by
    rw [writeCodeword, hsymbol, ← hvalue]
  rw [hrun]
  refine .symbol (by rw [hnumber]; exact hinside) ?_ ?_
  · rw [hnumber, hwrite]
    exact List.prefix_append _ _
  · simp only [hnumber, hlength]
    rw [List.drop_left' (length_bitsOf here value)]
    exact hreader

/-- From a row on, reading comes to one of the three ends. -/
theorem Reached.decoded {place count : Nat} {rows : List PrefixRow} (hfew : lengths.length ≤ 2 ^ 16)
    (h : Reached code lengths here before rows value) (hcount : rows.length = count + 1)
    (hword : word.toInt = value) (hreader : reader.Stands (place + here) bits) :
    Decoded lengths (here + count) place (bitsOf here value ++ bits)
      (code.match? rows word reader) := by
  -- on the rows behind this one
  induction count generalizing here before rows value word bits reader with
  | zero =>
    obtain ⟨row, rfl⟩ := List.length_eq_one_iff.mp hcount
    rcases Nat.lt_or_ge value (firstCodeword lengths here + lengths.count here) with hlt | hge
    · exact h.decoded_within hfew hword hlt hreader _
    have hrun : code.match? [row] word reader
        = .error (.corrupt (place + here) .invalidCode) reader := by
      rw [match?, if_neg (mt (h.word_le_iff hword).mp (Nat.not_lt.mpr hge)), ← hreader.position]
      rfl
    rw [hrun]
    refine .invalid ?_ ?_ ?_
    · have hhigh := h.high
      rw [Nat.add_zero, ← firstCodeword_add_count]
      omega
    · rw [List.length_append, length_bitsOf]
      omega
    · rw [Nat.add_zero, List.drop_left' (length_bitsOf here value)]
      exact hreader
  | succ count ih =>
    obtain ⟨row, longer, rfl⟩ := List.exists_cons_of_length_eq_add_one hcount
    rcases Nat.lt_or_ge value (firstCodeword lengths here + lengths.count here) with hlt | hge
    · exact h.decoded_within hfew hword hlt hreader _
    rw [List.length_cons] at hcount
    have hsome : longer ≠ [] := List.length_pos_iff.mp (by omega)
    have hrun : code.match? (row :: longer) word
        = BitReader.bit >>= fun next =>
          code.match? longer ((word <<< 1) ||| (if next then 1 else 0)) := by
      rw [match?, if_neg (mt (h.word_le_iff hword).mp (Nat.not_lt.mpr hge)),
        if_neg (by rw [List.isEmpty_iff]; exact hsome)]
    rw [hrun]
    simp only [Bind.bind, EStateM.bind]
    cases bits with
    | nil =>
      obtain ⟨after, hread, hafter⟩ := BitReader.bits_short (n := 1) (by decide) (by decide)
        (by decide : ([] : List Bool).length < 1) hreader
      have hbit : BitReader.bit reader = .error (.endOfStream (place + here)) after := by
        simp only [BitReader.bit, Bind.bind, EStateM.bind, hread]
      have hlength : (bitsOf here value ++ []).length = here := by
        rw [List.append_nil, length_bitsOf]
      rw [hbit]
      refine .ended (by omega) (by omega) ?_
      rw [List.drop_left' (length_bitsOf here value)]
      exact hafter
    | cons next rest =>
      obtain ⟨after, hread, hafter⟩ := BitReader.stands_bit hreader
      obtain ⟨hnext, hint⟩ := h.next hword hge hsome next
      have hrest := ih hnext (by omega) hint (by rw [← Nat.add_assoc]; exact hafter)
      rw [bitsOf_snoc, List.append_assoc, List.singleton_append,
        Nat.add_right_comm here 1 count] at hrest
      rw [hread]
      exact hrest

/-! ## From the first row on -/

/-- Reading begins at the first row, with as many bits as the shortest codewords have. -/
theorem reached_start (hlengths : lengths.length ≤ maxAlphabet)
    (hcode : ofLengths? lengths = some code) (hvalue : value < 2 ^ code.minLength) :
    Reached code lengths code.minLength [] code.rows value := by
  obtain ⟨_, hle, hlong, hrows, hsymbols⟩ := ofLengths_spec hcode
  simp only [longest] at hlong
  have hfit : RowsFit lengths (code.maxLength + 1 - code.minLength) code.minLength 0 0 :=
    (small_start hlengths (by omega)).rowsFit _
  have hcount : code.rows.length = code.maxLength + 1 - code.minLength := by
    rw [hrows, length_rowsFrom]
  have hfirst : firstCodeword lengths code.minLength = 0 :=
    firstCodeword_eq_zero fun other hmem => (ofLengths_bounds hcode other hmem).1
  have hints : code.rows.map PrefixRow.toInts = code.rowsOfLengths lengths := by
    rw [hrows]
    exact toInts_rowsFrom hfit (by decide) (by decide)
  have hall : lengths.length * (code.maxLength + 1 - code.minLength) ≤ maxAlphabet * 20 :=
    Nat.mul_le_mul hlengths (by omega)
  refine ⟨?_, ?_, ?_, by omega, hvalue, by omega⟩
  · rw [hints, hcount, hfirst]
    rfl
  · rw [hsymbols, hcount]
    rfl
  · rw [hints]
    simp only [maxAlphabet] at hall
    exact hfit.base (by omega)

/-- The branch without a symbol is dead: whatever is done there makes no difference. -/
theorem decodeOr_eq (hlengths : lengths.length ≤ maxAlphabet)
    (hcode : ofLengths? lengths = some code) (hreader : reader.Sound) (missing : Read UInt16) :
    code.decodeOr missing reader = code.decode reader := by
  obtain ⟨hpos, hle, hlong, _, _⟩ := ofLengths_spec hcode
  simp only [longest] at hlong
  simp only [decodeOr, decode, Bind.bind, EStateM.bind]
  cases hread : BitReader.bits code.minLength reader with
  | error reason after => rfl
  | ok word after =>
    have hlt := ((BitReader.safe_bits hpos (by omega)).of_ok hreader hread).2
    have hpow : (2 : Nat) ^ code.minLength ≤ 2 ^ 20 := Nat.pow_le_pow_right (by decide) (by omega)
    have hword : word.toInt32.toInt = word.toNat := toInt_toInt32 (by omega)
    exact congrFun ((reached_start hlengths hcode hlt).matchOr_eq missing hword) after

/-- Whatever the lengths are, decoding comes to one of the three ends. -/
theorem decoded (hlengths : lengths.length ≤ maxAlphabet) (hcode : ofLengths? lengths = some code)
    {place : Nat} (hreader : reader.Stands place bits) :
    Decoded lengths code.maxLength place bits (code.decode reader) := by
  obtain ⟨hpos, hle, hlong, hrows, _⟩ := ofLengths_spec hcode
  simp only [longest] at hlong
  simp only [decode, Bind.bind, EStateM.bind]
  rcases Nat.lt_or_ge bits.length code.minLength with hshort | henough
  · obtain ⟨after, hread, hafter⟩ := BitReader.bits_short hpos (by omega) hshort hreader
    have hnone : Decoded lengths code.maxLength place bits (.error (.endOfStream (place + 0)) after) :=
      .ended (by omega) (Nat.zero_le _) hafter
    rw [hread]
    exact hnone
  · obtain ⟨value, hvalue, hbits⟩ := exists_field henough
    rw [← hbits] at hreader ⊢
    obtain ⟨after, hread, hafter⟩ := BitReader.stands_bits hpos (by omega) hvalue hreader
    have hpow : (2 : Nat) ^ code.minLength ≤ 2 ^ 20 := Nat.pow_le_pow_right (by decide) (by omega)
    have hnumber := BitReader.toNat_ofNat_lt (by omega : code.minLength ≤ 32) hvalue
    have hword : (UInt32.ofNat value).toInt32.toInt = value := by
      rw [toInt_toInt32 (by omega), hnumber]
    have hcount : code.rows.length = code.maxLength - code.minLength + 1 := by
      rw [hrows, length_rowsFrom]
      omega
    have hrest := (reached_start hlengths hcode hvalue).decoded
      (Nat.le_trans hlengths (by decide)) hcount hword hafter
    rw [Nat.add_sub_of_le hle] at hrest
    rw [hread]
    exact hrest

/-! ## Numbers left over -/

/-- With all bits set, a number is the last one of its length. -/
theorem mod_of_ones {n value : Nat} (h : ∀ bit ∈ bitsOf n value, bit = true) :
    value % 2 ^ n = 2 ^ n - 1 := by
  induction n with
  | zero => exact Nat.mod_one value
  | succ n ih =>
    rw [bitsOf, List.forall_mem_cons] at h
    obtain ⟨hbit, hlower⟩ := h
    rw [Nat.testBit_eq_decide_div_mod_eq, decide_eq_true_iff] at hbit
    have hpos : 0 < 2 ^ n := Nat.two_pow_pos n
    rw [Nat.mod_pow_succ, ih hlower, hbit, pow_succ]
    omega

/-- If the lengths stay below Kraft's bound, no codeword is the last number of its length. -/
theorem codeword_lt_ones (hkraft : kraftSum lengths < 2 ^ longest) {symbol length : Nat}
    (hlength : length ≤ longest) (hsymbol : lengths[symbol]? = some length) :
    codeword lengths length symbol < 2 ^ length - 1 := by
  have hcount := count_take_lt hsymbol
  have hpow : 2 ^ longest = 2 ^ length * 2 ^ (longest - length) := by
    rw [← Nat.pow_add, Nat.add_sub_of_le hlength]
  have htaken : taken lengths length < 2 ^ length := by
    apply Nat.lt_of_mul_lt_mul_right (a := 2 ^ (longest - length))
    rw [← hpow]
    exact Nat.lt_of_le_of_lt (taken_le_kraftSum hlength lengths) hkraft
  rw [← firstCodeword_add_count] at htaken
  rw [codeword]
  omega

/-- Then ones alone begin with no codeword. -/
theorem not_prefix_ones (hkraft : kraftSum lengths < 2 ^ longest)
    (hrange : ∀ length ∈ lengths, length ≤ longest) {symbol : Nat} (hsymbol : symbol < lengths.length)
    (n : Nat) : ¬writeCodeword lengths symbol <+: List.replicate n true := by
  intro hfront
  have hget : lengths[symbol]? = some lengths[symbol] := List.getElem?_eq_getElem hsymbol
  have hlong := hrange lengths[symbol] (List.getElem_mem hsymbol)
  have hones : ∀ bit ∈ writeCodeword lengths symbol, bit = true := fun bit hmem =>
    (List.mem_replicate.mp (hfront.subset hmem)).2
  rw [writeCodeword, hget] at hones
  have hmod := mod_of_ones hones
  have hlt := codeword_lt_ones hkraft hlong hget
  rw [Nat.mod_eq_of_lt (by omega)] at hmod
  omega

/-! ## Harmless codes -/

/-- What making a code and decoding with it come to, whatever the lengths are. -/
structure Harmless (code : PrefixCode) (lengths : List Nat) : Prop where
  /-- No integer overflows while the rows are computed, so they are what they would be in integers. -/
  fit : RowsFit lengths (code.maxLength + 1 - code.minLength) code.minLength 0 0
  ints : code.rows.map PrefixRow.toInts = code.rowsOfLengths lengths
  longest : lengths.max? = some code.maxLength
  /-- At every place, a symbol comes with exactly its bits, or all numbers are passed, or input ends. -/
  decoded : ∀ {place bits reader}, reader.Stands place bits →
    Decoded lengths code.maxLength place bits (code.decode reader)
  /-- The places that symbols are looked up at are places of symbols. -/
  dead : ∀ {place bits reader}, reader.Stands place bits → ∀ missing,
    code.decodeOr missing reader = code.decode reader
  /-- Some input is no codeword if and only if the lengths stay below Kraft's bound. -/
  fails : (∃ data place after,
      code.decode (.ofSource (.ofBytes data)) = .error (.corrupt place .invalidCode) after)
    ↔ kraft lengths < 1

/--
**Codes with any lengths are harmless.** For up to 258 lengths between 1 and 20, no matter how many
codewords that makes, there is a code, nothing overflows, and reading from any place on comes to a
symbol of the alphabet, to the end of the greatest length or to the end of the input.
-/
theorem exists_harmless (hsome : 0 < lengths.length) (hlengths : lengths.length ≤ maxAlphabet)
    (hrange : ∀ length ∈ lengths, 1 ≤ length ∧ length ≤ longest) :
    ∃ code, ofLengths? lengths = some code ∧ code.Harmless lengths := by
  obtain ⟨code, hcode⟩ := exists_ofLengths (List.length_pos_iff.mp hsome) hrange
  obtain ⟨_, hle, hlong, hrows, _⟩ := ofLengths_spec hcode
  have hupper : ∀ length ∈ lengths, length ≤ longest := fun length hmem => (hrange length hmem).2
  have hfit : RowsFit lengths (code.maxLength + 1 - code.minLength) code.minLength 0 0 :=
    (small_start hlengths (by simp only [longest] at hlong; omega)).rowsFit _
  refine ⟨code, hcode, hfit, ?_, maxLength_of_lengths hcode, fun h => decoded hlengths hcode h,
    fun h missing => decodeOr_eq hlengths hcode h.toSound missing, ?_, fun hkraft => ?_⟩
  · rw [hrows]
    exact toInts_rowsFrom hfit (by decide) (by decide)
  · rintro ⟨data, place, after, hrun⟩
    have hend := decoded hlengths hcode (BitReader.stands_ofSource data)
    rw [hrun] at hend
    cases hend with
    | invalid hleft =>
      exact (kraft_lt_one_iff hupper).mpr
        ((taken_lt_iff hlong fun length hmem => (ofLengths_bounds hcode length hmem).2).mp hleft)
  · have hsum := (kraft_lt_one_iff hupper).mp hkraft
    have hbits : bytesBits [0xFF, 0xFF, 0xFF] = List.replicate 24 true := by decide
    have hend := decoded hlengths hcode (BitReader.stands_ofSource ⟨#[0xFF, 0xFF, 0xFF]⟩)
    simp only [hbits] at hend
    refine ⟨⟨#[0xFF, 0xFF, 0xFF]⟩, 0 + code.maxLength, ?_⟩
    generalize code.decode (.ofSource (.ofBytes ⟨#[0xFF, 0xFF, 0xFF]⟩)) = result at hend ⊢
    cases hend with
    | symbol inside hfront => exact absurd hfront (not_prefix_ones hsum hupper inside 24)
    | invalid => exact ⟨_, rfl⟩
    | ended hshort =>
      rw [List.length_replicate] at hshort
      simp only [longest] at hlong
      omega

/-- Three codewords of one bit are one too many, and no input fails. -/
theorem exists_harmless_three_ones :
    ∃ code, ofLengths? [1, 1, 1] = some code ∧ code.Harmless [1, 1, 1]
      ∧ ∀ data place after,
        code.decode (.ofSource (.ofBytes data)) ≠ .error (.corrupt place .invalidCode) after := by
  obtain ⟨code, hcode, hharmless⟩ := exists_harmless
    (by decide : 0 < ([1, 1, 1] : List Nat).length) (by decide) (by decide)
  have hkraft : ¬kraft [1, 1, 1] < 1 := by norm_num [kraft]
  exact ⟨code, hcode, hharmless, fun data place after hrun =>
    hkraft (hharmless.fails.mp ⟨data, place, after, hrun⟩)⟩

end PrefixCode

end Bunzip

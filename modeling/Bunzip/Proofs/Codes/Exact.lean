import Bunzip.Proofs.Codes.Safety

/-!
# Codewords are computed without overflow

The rows of a code are computed in words of 32 bits, and so are the places of codewords. As long as
the rows fit, decoding is what it would be with integers of any size. The alphabet of a block has at
most 258 symbols, and then they fit whatever the lengths are.
-/

namespace Bunzip

/-! ## Words with sign -/

/-- Whether an integer can be held by a word of 32 bits with sign. -/
def FitsWord (n : Int) : Prop := -2 ^ 31 ≤ n ∧ n < 2 ^ 31

theorem toInt_add_of_fits {a b : Int32} (h : FitsWord (a.toInt + b.toInt)) :
    (a + b).toInt = a.toInt + b.toInt := by
  obtain ⟨hlow, hhigh⟩ := h
  rw [Int32.toInt_add, Int.bmod_eq_of_le (by omega) (by omega)]

theorem toInt_sub_of_fits {a b : Int32} (h : FitsWord (a.toInt - b.toInt)) :
    (a - b).toInt = a.toInt - b.toInt := by
  obtain ⟨hlow, hhigh⟩ := h
  rw [Int32.toInt_sub, Int.bmod_eq_of_le (by omega) (by omega)]

theorem toInt_double_of_fits {a : Int32} (h : FitsWord (a.toInt * 2)) :
    (a <<< 1).toInt = a.toInt * 2 := by
  have hdouble : a <<< 1 = a + a := by
    rw [← Int32.toBitVec_inj]
    apply BitVec.eq_of_toNat_eq
    simp [Int32.toBitVec_shiftLeft, Nat.shiftLeft_eq]
    omega
  have htwice : a.toInt + a.toInt = a.toInt * 2 := by omega
  rw [hdouble, toInt_add_of_fits (by rw [htwice]; exact h), htwice]

theorem or_one_of_even {a : Int32} (h : a.toBitVec.toNat % 2 = 0) : a ||| 1 = a + 1 := by
  rw [← Int32.toBitVec_inj]
  apply BitVec.eq_of_toNat_eq
  have hlt := a.toBitVec.isLt
  have hor : a.toBitVec.toNat ||| 1 = a.toBitVec.toNat + 1 := by
    have hshift := Nat.shiftLeft_add_eq_or_of_lt (i := 1) (b := 1) (by decide)
      (a.toBitVec.toNat / 2)
    rw [Nat.shiftLeft_eq] at hshift
    rw [show a.toBitVec.toNat = a.toBitVec.toNat / 2 * 2 ^ 1 by omega, ← hshift]
  simp only [Int32.toBitVec_or, Int32.toBitVec_add, BitVec.toNat_or, BitVec.toNat_add]
  show a.toBitVec.toNat ||| 1 = (a.toBitVec.toNat + 1) % 2 ^ 32
  rw [hor]
  omega

theorem toInt_toInt32 {a : UInt32} (h : a.toNat < 2 ^ 31) : a.toInt32.toInt = a.toNat := by
  show a.toBitVec.toInt = a.toBitVec.toNat
  exact BitVec.toInt_eq_toNat_of_lt (by rw [UInt32.toNat_toBitVec]; omega)

/-- A bit that is appended to a codeword becomes its last digit. -/
theorem toInt_appendBit {a : Int32} (hlow : 0 ≤ a.toInt) (hhigh : a.toInt < 2 ^ 30) (bit : Bool) :
    ((a <<< 1) ||| (if bit then 1 else 0)).toInt = a.toInt * 2 + bit.toNat := by
  have hdouble := toInt_double_of_fits (a := a) ⟨by omega, by omega⟩
  cases bit with
  | false =>
    have hzero : (a <<< 1) ||| (0 : Int32) = a <<< 1 := by simp
    simp only [Bool.false_eq_true, if_false, hzero, hdouble, Bool.toNat_false]
    omega
  | true =>
    have heven : (a <<< 1).toBitVec.toNat % 2 = 0 := by
      simp [Int32.toBitVec_shiftLeft, Nat.shiftLeft_eq]
    have hone : (1 : Int32).toInt = 1 := by decide
    simp only [if_true, or_one_of_even heven, Bool.toNat_true]
    rw [toInt_add_of_fits (by rw [hdouble, hone]; constructor <;> omega), hdouble, hone]
    rfl

/-- A row as a pair of integers. -/
def PrefixRow.toInts (row : PrefixRow) : Int × Int := (row.limit.toInt, row.base.toInt)

namespace PrefixCode

/-! ## Rows -/

/-- The most symbols that an alphabet has: 256 ranks with two digits for rank 0, and the end. -/
def maxAlphabet : Nat := 258

/-- The rows of `count` lengths from `length` on as pairs of integers: limit and base. -/
def exactRows (lengths : List Nat) : (count length first shorter : Nat) → List (Int × Int)
  | 0, _, _, _ => []
  | count + 1, length, first, shorter =>
    let here := lengths.count length
    ((first + here : Int) - 1, (first : Int) - shorter) ::
      exactRows lengths count (length + 1) ((first + here) * 2) (shorter + here)

theorem length_rowsFrom (lengths : List Nat) (count length : Nat) (first shorter : Int32) :
    (rowsFrom lengths count length first shorter).length = count := by
  induction count generalizing length first shorter with
  | zero => rfl
  | succ count ih => rw [rowsFrom, List.length_cons, ih]

/-- Every number that comes up while the rows are computed can be held by a word. -/
def RowsFit (lengths : List Nat) : (count length first shorter : Nat) → Prop
  | 0, _, _, _ => True
  | count + 1, length, first, shorter =>
    let here := lengths.count length
    (∀ n : Int, n ∈ [(here : Int), (first + here : Int), (first + here : Int) - 1,
        (first : Int) - shorter, (first + here : Int) * 2, (shorter + here : Int)] → FitsWord n)
      ∧ RowsFit lengths count (length + 1) ((first + here) * 2) (shorter + here)

/-- Bounds that are left for the first codeword and the number of shorter ones. -/
structure Small (lengths : List Nat) (count first shorter : Nat) : Prop where
  alphabet : lengths.length ≤ maxAlphabet
  first : (first + 2 * lengths.length) * 2 ^ count ≤ lengths.length * 2 ^ 21
  shorter : shorter + lengths.length * count ≤ lengths.length * 20

theorem Small.next {lengths : List Nat} {count first shorter : Nat}
    (h : Small lengths (count + 1) first shorter) (length : Nat) :
    Small lengths count ((first + lengths.count length) * 2) (shorter + lengths.count length) := by
  have hhere : lengths.count length ≤ lengths.length := List.count_le_length
  have hfirst := h.first
  have hshorter := h.shorter
  refine ⟨h.alphabet, ?_, ?_⟩
  · calc ((first + lengths.count length) * 2 + 2 * lengths.length) * 2 ^ count
        ≤ ((first + 2 * lengths.length) * 2) * 2 ^ count := Nat.mul_le_mul_right _ (by omega)
      _ = (first + 2 * lengths.length) * 2 ^ (count + 1) := by
        rw [Nat.mul_assoc, Nat.pow_succ, Nat.mul_comm (2 ^ count)]
      _ ≤ lengths.length * 2 ^ 21 := hfirst
  · rw [Nat.mul_succ] at hshorter
    omega

/-- Small numbers are far from the bounds of a word. -/
theorem Small.le {lengths : List Nat} {count first shorter : Nat}
    (h : Small lengths count first shorter) :
    first + 2 * lengths.length ≤ 2 ^ 30 ∧ shorter ≤ 2 ^ 13 := by
  have halphabet := h.alphabet
  have hfirst := h.first
  have hshorter := h.shorter
  have hpow : 1 ≤ 2 ^ count := Nat.one_le_two_pow
  have hle : first + 2 * lengths.length ≤ (first + 2 * lengths.length) * 2 ^ count :=
    Nat.le_mul_of_pos_right _ hpow
  simp only [maxAlphabet] at halphabet
  have := Nat.zero_le (lengths.length * count)
  omega

theorem small_start {lengths : List Nat} (h : lengths.length ≤ maxAlphabet) {count : Nat}
    (hcount : count ≤ 20) : Small lengths count 0 0 := by
  have hpow : 2 ^ count ≤ 2 ^ 20 := Nat.pow_le_pow_right (by decide) hcount
  refine ⟨h, ?_, ?_⟩
  · calc (0 + 2 * lengths.length) * 2 ^ count
        ≤ (0 + 2 * lengths.length) * 2 ^ 20 := Nat.mul_le_mul_left _ hpow
      _ = lengths.length * 2 ^ 21 := by omega
  · rw [Nat.zero_add]
    exact Nat.mul_le_mul_left _ hcount

theorem Small.rowsFit {lengths : List Nat} {count first shorter : Nat}
    (h : Small lengths count first shorter) (length : Nat) :
    RowsFit lengths count length first shorter := by
  induction count generalizing length first shorter with
  | zero => trivial
  | succ count ih =>
    have hhere : lengths.count length ≤ lengths.length := List.count_le_length
    obtain ⟨hfirst, hshorter⟩ := h.le
    obtain ⟨_, hshorter'⟩ := (h.next length).le
    refine ⟨?_, ih (h.next length) (length + 1)⟩
    intro n hn
    simp only [List.mem_cons, List.not_mem_nil, or_false] at hn
    unfold FitsWord
    rcases hn with rfl | rfl | rfl | rfl | rfl | rfl <;> omega

/-- The rows in words are the rows in integers. -/
theorem toInts_rowsFrom {lengths : List Nat} {count length first shorter : Nat}
    (h : RowsFit lengths count length first shorter) {first' shorter' : Int32}
    (hfirst : first'.toInt = first) (hshorter : shorter'.toInt = shorter) :
    (rowsFrom lengths count length first' shorter').map PrefixRow.toInts
      = exactRows lengths count length first shorter := by
  induction count generalizing length first shorter first' shorter' with
  | zero => rfl
  | succ count ih =>
    -- each number that comes up fits, so its word stands for it
    obtain ⟨hfits, hrest⟩ := h
    simp only [List.mem_cons, List.not_mem_nil, or_false, forall_eq_or_imp, forall_eq] at hfits
    obtain ⟨hhere, hsum, hlimit, hbase, hdouble, hmore⟩ := hfits
    have hword : (Int32.ofNat (lengths.count length)).toInt = lengths.count length :=
      Int32.toInt_ofNat_of_lt (by unfold FitsWord at hhere; omega)
    have hone : (1 : Int32).toInt = 1 := by decide
    have hadd : (first' + Int32.ofNat (lengths.count length)).toInt
        = (first : Int) + lengths.count length := by
      rw [toInt_add_of_fits (by rw [hfirst, hword]; exact hsum), hfirst, hword]
    have hsub : (first' + Int32.ofNat (lengths.count length) - 1).toInt
        = (first : Int) + lengths.count length - 1 := by
      rw [toInt_sub_of_fits (by rw [hadd, hone]; exact hlimit), hadd, hone]
    have hshift : ((first' + Int32.ofNat (lengths.count length)) <<< 1).toInt
        = ((first + lengths.count length) * 2 : Nat) := by
      rw [toInt_double_of_fits (by rw [hadd]; exact hdouble), hadd]
      push_cast
      rfl
    have hbase' : (first' - shorter').toInt = (first : Int) - shorter := by
      rw [toInt_sub_of_fits (by rw [hfirst, hshorter]; exact hbase), hfirst, hshorter]
    have hmore' : (shorter' + Int32.ofNat (lengths.count length)).toInt
        = (shorter + lengths.count length : Nat) := by
      rw [toInt_add_of_fits (by rw [hshorter, hword]; exact hmore), hshorter, hword]
      push_cast
      rfl
    rw [rowsFrom, exactRows, List.map_cons, ih hrest hshift hmore', PrefixRow.toInts, hsub,
      hbase']

/-! ## Decoding -/

/-- The symbol at a place, if the place is not negative. -/
def symbolAtExact (code : PrefixCode) (place : Int) : Option UInt16 :=
  if place < 0 then none else code.symbols[place.toNat]?

/-- What comparing a codeword with the rows would be in integers. -/
def matchExact? (code : PrefixCode) : List (Int × Int) → Int → Read UInt16
  | [], _ => BitReader.corrupt .invalidCode
  | (limit, base) :: longer, codeword =>
    if codeword ≤ limit then
      match code.symbolAtExact (codeword - base) with
      | some symbol => pure symbol
      | none => BitReader.corrupt .invalidCode
    else if longer.isEmpty then BitReader.corrupt .invalidCode
    else do
      let next ← BitReader.bit
      matchExact? code longer (codeword * 2 + next.toNat)

/-- The rows that a list of lengths calls for. -/
def rowsOfLengths (code : PrefixCode) (lengths : List Nat) : List (Int × Int) :=
  exactRows lengths (code.maxLength + 1 - code.minLength) code.minLength 0 0

/-- What decoding would be in integers. -/
def decodeExact (code : PrefixCode) (lengths : List Nat) : Read UInt16 := do
  let codeword ← BitReader.bits code.minLength
  code.matchExact? (code.rowsOfLengths lengths) codeword.toNat

theorem symbolAt_eq (code : PrefixCode) (place : Int32) :
    code.symbolAt place = code.symbolAtExact place.toInt := by
  have hzero : (0 : Int32).toInt = 0 := by decide
  rw [symbolAt, symbolAtExact, Int32.toNatClampNeg]
  by_cases h : place < 0
  · rw [if_pos h, if_pos (by rw [← hzero]; exact Int32.lt_iff_toInt_lt.mp h)]
  · rw [if_neg h, if_neg (by rw [← hzero]; exact fun h' => h (Int32.lt_iff_toInt_lt.mpr h'))]

/-- The bases are bounded, so the place of a codeword can be computed. -/
theorem RowsFit.base {lengths : List Nat} {count length first shorter : Nat}
    (h : RowsFit lengths count length first shorter)
    (hshorter : shorter + lengths.length * count ≤ 2 ^ 30) :
    ∀ row ∈ exactRows lengths count length first shorter, -2 ^ 30 ≤ row.2 ∧ row.2 ≤ 2 ^ 30 := by
  induction count generalizing length first shorter with
  | zero => exact fun _ hrow => nomatch hrow
  | succ count ih =>
    have hhere : lengths.count length ≤ lengths.length := List.count_le_length
    obtain ⟨hfits, hrest⟩ := h
    obtain ⟨_, hdouble⟩ : FitsWord ((first + lengths.count length : Int) * 2) := hfits _ (by simp)
    rw [Nat.mul_succ] at hshorter
    intro row hrow
    rcases List.mem_cons.mp hrow with rfl | hrow
    · simp only
      omega
    · exact ih hrest (by omega) row hrow

theorem match?_eq (code : PrefixCode) {rows : List PrefixRow} {codeword : Int32} {n : Nat}
    (hbase : ∀ row ∈ rows.map PrefixRow.toInts, -2 ^ 30 ≤ row.2 ∧ row.2 ≤ 2 ^ 30)
    (hn : n + rows.length ≤ 30) (hlow : 0 ≤ codeword.toInt) (hhigh : codeword.toInt < 2 ^ n) :
    code.match? rows codeword = code.matchExact? (rows.map PrefixRow.toInts) codeword.toInt := by
  -- the codeword grows by a bit with each row, and there are few rows
  induction rows generalizing codeword n with
  | nil => rfl
  | cons row longer ih =>
    obtain ⟨hbaseLow, hbaseHigh⟩ := hbase row.toInts List.mem_cons_self
    simp only [PrefixRow.toInts] at hbaseLow hbaseHigh
    have hpow : (2 : Int) ^ n ≤ 2 ^ 29 := by
      have hle : 2 ^ n ≤ 2 ^ 29 := Nat.pow_le_pow_right (by decide)
        (by rw [List.length_cons] at hn; omega)
      exact_mod_cast hle
    have hplace : (codeword - row.base).toInt = codeword.toInt - row.base.toInt :=
      toInt_sub_of_fits ⟨by omega, by omega⟩
    have hempty : (longer.map PrefixRow.toInts).isEmpty = longer.isEmpty := by
      cases longer <;> rfl
    have hlonger : ∀ next : Bool,
        code.match? longer ((codeword <<< 1) ||| (if next then 1 else 0))
          = code.matchExact? (longer.map PrefixRow.toInts) (codeword.toInt * 2 + next.toNat) := by
      intro next
      have hbit := toInt_appendBit hlow (by omega) next
      have hnext : next.toNat ≤ 1 := next.toNat_le
      have hpow' : (2 : Int) ^ (n + 1) = 2 ^ n * 2 := Int.pow_succ 2 n
      rw [← hbit]
      apply ih (n := n + 1) (fun other hmem => hbase other (List.mem_cons_of_mem _ hmem))
      · rw [List.length_cons] at hn
        omega
      · rw [hbit]
        omega
      · rw [hbit, hpow']
        omega
    rw [match?, List.map_cons, PrefixRow.toInts, matchExact?, symbolAt_eq, hplace, hempty]
    by_cases hle : codeword ≤ row.limit
    · exact (if_pos hle).trans (if_pos (Int32.le_iff_toInt_le.mp hle)).symm
    · have hle' : ¬codeword.toInt ≤ row.limit.toInt := fun h => hle (Int32.le_iff_toInt_le.mpr h)
      rw [if_neg hle, if_neg hle']
      simp only [hlonger]

/-- **Decoding is what it would be with integers of any size.** -/
theorem decode_eq {lengths : List Nat} {code : PrefixCode} (hlengths : lengths.length ≤ 2 ^ 16)
    (hcode : ofLengths? lengths = some code)
    (hfit : RowsFit lengths (code.maxLength + 1 - code.minLength) code.minLength 0 0)
    {reader : BitReader} (hreader : reader.Sound) :
    code.decode reader = code.decodeExact lengths reader := by
  obtain ⟨hmin, hle, hmax, hrows, _⟩ := ofLengths_spec hcode
  simp only [longest] at hmax
  have hints : code.rows.map PrefixRow.toInts = code.rowsOfLengths lengths := by
    rw [hrows]
    exact toInts_rowsFrom hfit (by decide) (by decide)
  have hall : lengths.length * (code.maxLength + 1 - code.minLength) ≤ 2 ^ 16 * 20 :=
    Nat.mul_le_mul hlengths (by omega)
  have hcount : code.rows.length = code.maxLength + 1 - code.minLength := by
    rw [hrows, length_rowsFrom]
  simp only [decode, decodeExact, Bind.bind, EStateM.bind]
  cases hr : BitReader.bits code.minLength reader with
  | error reason after => rfl
  | ok codeword after =>
    have hlt := ((BitReader.safe_bits hmin (by omega)).of_ok hreader hr).2
    have hpow : (2 : Nat) ^ code.minLength ≤ 2 ^ 20 := Nat.pow_le_pow_right (by decide) (by omega)
    have hword : codeword.toInt32.toInt = codeword.toNat := toInt_toInt32 (by omega)
    simp only
    rw [match?_eq code (n := code.minLength), hints, hword]
    · rw [hints]
      exact hfit.base (by omega)
    · omega
    · omega
    · rw [hword]
      exact_mod_cast hlt

/-- Nothing overflows while the code is made and while codewords are read with it. -/
def Exact (code : PrefixCode) : Prop :=
  ∃ lengths, ofLengths? lengths = some code
    ∧ RowsFit lengths (code.maxLength + 1 - code.minLength) code.minLength 0 0
    ∧ ∀ reader : BitReader, reader.Sound → code.decode reader = code.decodeExact lengths reader

theorem Sound.exact {alphabet : Nat} {code : PrefixCode} (h : code.Sound alphabet)
    (halphabet : alphabet ≤ maxAlphabet) : code.Exact := by
  obtain ⟨lengths, rfl, hcode⟩ := h
  obtain ⟨_, _, hmax, _, _⟩ := ofLengths_spec hcode
  simp only [longest] at hmax
  have hfit : RowsFit lengths (code.maxLength + 1 - code.minLength) code.minLength 0 0 :=
    (small_start halphabet (by omega)).rowsFit _
  have hfew : lengths.length ≤ 2 ^ 16 := Nat.le_trans halphabet (by decide)
  exact ⟨lengths, hcode, hfit, fun reader hreader => decode_eq hfew hcode hfit hreader⟩

end PrefixCode

end Bunzip

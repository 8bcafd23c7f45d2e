import Bunzip.Proofs.Codes.Exact
import Bunzip.Proofs.Format.Reads

/-!
# Codewords are read as they were written

The codewords of one length are consecutive numbers in the order of their symbols. They start at twice
the number that follows the last codeword of the length before, so a codeword is above all shorter
ones that it is compared with on the way: reading goes on until the length is right.

If the lengths obey Kraft's inequality then there are enough numbers of each length.
-/

namespace Bunzip

namespace Format

/-- The first codeword of a length. -/
def firstCodeword (lengths : List Nat) : (length : Nat) → Nat
  | 0 => 0
  | length + 1 => (firstCodeword lengths length + lengths.count length) * 2

/-- The codeword of a symbol, given its length. -/
def codeword (lengths : List Nat) (length symbol : Nat) : Nat :=
  firstCodeword lengths length + (lengths.take symbol).count length

/-- A symbol in the code with the given lengths. -/
def writeCodeword (lengths : List Nat) (symbol : Nat) : List Bool :=
  match lengths[symbol]? with
  | none => []
  | some length => bitsOf length (codeword lengths length symbol)

/-- Kraft's sum over the lengths, where a codeword of the greatest length counts for one. -/
def kraftSum (lengths : List Nat) : Nat :=
  (lengths.map fun length => 2 ^ (PrefixCode.longest - length)).sum

/-- The numbers of a length that begin with a codeword of this length or a shorter one. -/
def taken (lengths : List Nat) (length : Nat) : Nat :=
  (lengths.map fun other => if other ≤ length then 2 ^ (length - other) else 0).sum

theorem taken_succ (lengths : List Nat) (length : Nat) :
    taken lengths (length + 1) = taken lengths length * 2 + lengths.count (length + 1) := by
  induction lengths with
  | nil => rfl
  | cons other lengths ih =>
    simp only [taken, List.map_cons, List.sum_cons] at ih ⊢
    rw [ih, List.count_cons]
    rcases Nat.lt_trichotomy other (length + 1) with hlt | rfl | hgt
    · rw [if_pos (by omega), if_pos (by omega), if_neg (by simp only [beq_iff_eq]; omega),
        show length + 1 - other = length - other + 1 by omega, Nat.pow_succ]
      omega
    · rw [if_pos (Nat.le_refl _), if_neg (by omega), if_pos (beq_self_eq_true _), Nat.sub_self]
      omega
    · rw [if_neg (by omega), if_neg (by omega), if_neg (by simp only [beq_iff_eq]; omega)]
      omega

theorem firstCodeword_add_count (lengths : List Nat) (length : Nat) :
    firstCodeword lengths length + lengths.count length = taken lengths length := by
  induction length with
  | zero =>
    rw [firstCodeword, Nat.zero_add]
    induction lengths with
    | nil => rfl
    | cons other lengths ih =>
      rw [List.count_cons, ih, taken, taken, List.map_cons, List.sum_cons]
      by_cases h : other = 0
      · subst h
        rw [if_pos (beq_self_eq_true _), if_pos (Nat.le_refl _)]
        omega
      · rw [if_neg (by simpa using h), if_neg (by omega)]
        omega
  | succ length ih => rw [firstCodeword, ih, taken_succ]

theorem taken_le_kraftSum {length : Nat} (h : length ≤ PrefixCode.longest) (lengths : List Nat) :
    taken lengths length * 2 ^ (PrefixCode.longest - length) ≤ kraftSum lengths := by
  induction lengths with
  | nil => exact Nat.le_of_eq (Nat.zero_mul _)
  | cons other lengths ih =>
    simp only [taken, kraftSum, List.map_cons, List.sum_cons] at ih ⊢
    rw [Nat.add_mul]
    refine Nat.add_le_add ?_ ih
    by_cases hle : other ≤ length
    · have hpow : 2 ^ (length - other) * 2 ^ (PrefixCode.longest - length)
          = 2 ^ (PrefixCode.longest - other) := by
        rw [← Nat.pow_add]
        congr 1
        omega
      exact Nat.le_of_eq (by rw [if_pos hle, hpow])
    · rw [if_neg hle, Nat.zero_mul]
      exact Nat.zero_le _

/-- Under Kraft's inequality the codewords of a length are numbers of that length. -/
theorem firstCodeword_add_count_le {lengths : List Nat}
    (hkraft : kraftSum lengths ≤ 2 ^ PrefixCode.longest) {length : Nat}
    (h : length ≤ PrefixCode.longest) :
    firstCodeword lengths length + lengths.count length ≤ 2 ^ length := by
  have hpow : 2 ^ PrefixCode.longest = 2 ^ length * 2 ^ (PrefixCode.longest - length) := by
    rw [← Nat.pow_add, Nat.add_sub_of_le h]
  rw [firstCodeword_add_count]
  apply Nat.le_of_mul_le_mul_right _ (Nat.two_pow_pos (PrefixCode.longest - length))
  rw [← hpow]
  exact Nat.le_trans (taken_le_kraftSum h lengths) hkraft

/-- Under Kraft's inequality the rows fit for as many symbols as can be numbered. -/
theorem rowsFit_of_kraft {lengths : List Nat} (hlengths : lengths.length ≤ 2 ^ 16)
    (hkraft : kraftSum lengths ≤ 2 ^ PrefixCode.longest) {count length shorter : Nat}
    (hlong : length + count ≤ PrefixCode.longest + 1)
    (hshorter : shorter + lengths.length * count ≤ 2 ^ 30) :
    PrefixCode.RowsFit lengths count length (firstCodeword lengths length) shorter := by
  induction count generalizing length shorter with
  | zero => trivial
  | succ count ih =>
    have hhere : lengths.count length ≤ lengths.length := List.count_le_length
    have hall := firstCodeword_add_count_le hkraft (by omega : length ≤ PrefixCode.longest)
    have hpow : 2 ^ length ≤ 2 ^ 20 :=
      Nat.pow_le_pow_right (by decide) (by simp only [PrefixCode.longest] at hlong; omega)
    rw [Nat.mul_succ] at hshorter
    refine ⟨?_, ih (by omega) (by omega)⟩
    intro n hn
    simp only [List.mem_cons, List.not_mem_nil, or_false] at hn
    unfold FitsWord
    rcases hn with rfl | rfl | rfl | rfl | rfl | rfl <;> omega

/-- Codewords of one length are told apart by how many of them come before. -/
theorem count_take_lt {lengths : List Nat} {symbol length : Nat}
    (h : lengths[symbol]? = some length) :
    (lengths.take symbol).count length < lengths.count length := by
  obtain ⟨hlt, rfl⟩ := List.getElem?_eq_some_iff.mp h
  have hsplit : lengths.count lengths[symbol]
      = (lengths.take symbol).count lengths[symbol]
        + (lengths.drop symbol).count lengths[symbol] := by
    rw [← List.count_append, List.take_append_drop]
  have hmem : 0 < (lengths.drop symbol).count lengths[symbol] := by
    rw [List.count_pos_iff, List.drop_eq_getElem_cons hlt]
    exact List.mem_cons_self
  omega

theorem codeword_lt {lengths : List Nat} (hkraft : kraftSum lengths ≤ 2 ^ PrefixCode.longest)
    {symbol length : Nat} (hlength : length ≤ PrefixCode.longest)
    (h : lengths[symbol]? = some length) : codeword lengths length symbol < 2 ^ length := by
  have hcount := count_take_lt h
  have hall := firstCodeword_add_count_le hkraft hlength
  rw [codeword]
  omega

/-- Longer codewords begin with a number above all shorter codewords. -/
theorem le_firstCodeword (lengths : List Nat) (length more : Nat) :
    (firstCodeword lengths length + lengths.count length) * 2 ^ (more + 1)
      ≤ firstCodeword lengths (length + 1 + more) := by
  induction more with
  | zero => exact Nat.le_of_eq (by rw [Nat.add_zero, firstCodeword, Nat.pow_one])
  | succ more ih =>
    rw [← Nat.add_assoc, firstCodeword, Nat.pow_succ, ← Nat.mul_assoc]
    exact Nat.mul_le_mul_right _ (Nat.le_trans ih (Nat.le_add_right _ _))

/-- There are no codewords shorter than all lengths. -/
theorem firstCodeword_eq_zero {lengths : List Nat} {length : Nat}
    (h : ∀ other ∈ lengths, length ≤ other) : firstCodeword lengths length = 0 := by
  induction length with
  | zero => rfl
  | succ length ih =>
    have hcount : lengths.count length = 0 :=
      List.count_eq_zero.mpr fun hmem => absurd (h length hmem) (by omega)
    rw [firstCodeword, ih fun other hmem => Nat.le_of_succ_le (h other hmem), hcount]

end Format

open Format

namespace PrefixCode

/-! ## The symbols in order -/

/-- The symbols of a length, where the first symbol has the given number. -/
def numbered (length start : Nat) (lengths : List Nat) : List UInt16 :=
  (lengths.zipIdx start).filterMap fun (l, symbol) =>
    if l = length then some (UInt16.ofNat symbol) else none

theorem numbered_cons (length start other : Nat) (lengths : List Nat) :
    numbered length start (other :: lengths)
      = (if other = length then [UInt16.ofNat start] else [])
        ++ numbered length (start + 1) lengths := by
  rw [numbered, List.zipIdx_cons, List.filterMap_cons]
  by_cases h : other = length
  · simp only [if_pos h]
    rfl
  · simp only [if_neg h]
    rfl

theorem length_numbered (length start : Nat) (lengths : List Nat) :
    (numbered length start lengths).length = lengths.count length := by
  induction lengths generalizing start with
  | nil => rfl
  | cons other lengths ih =>
    rw [numbered_cons, List.length_append, ih, List.count_cons, Nat.add_comm]
    by_cases h : other = length
    · rw [if_pos h, if_pos (by simpa using h), List.length_singleton]
    · rw [if_neg h, if_neg (by simpa using h), List.length_nil]

/-- Among the symbols of a length, one comes right behind the earlier ones. -/
theorem numbered_getElem? {lengths : List Nat} {symbol length : Nat}
    (h : lengths[symbol]? = some length) (start : Nat) :
    (numbered length start lengths)[(lengths.take symbol).count length]?
      = some (UInt16.ofNat (start + symbol)) := by
  induction lengths generalizing symbol start with
  | nil => exact nomatch h
  | cons other lengths ih =>
    rw [numbered_cons]
    cases symbol with
    | zero =>
      rw [List.getElem?_cons_zero] at h
      cases h
      rw [if_pos rfl]
      rfl
    | succ symbol =>
      have hrest := ih (List.getElem?_cons_succ ▸ h) (start + 1)
      rw [show start + 1 + symbol = start + (symbol + 1) by omega] at hrest
      rw [List.take_succ_cons, List.count_cons]
      -- an earlier symbol of the same length moves this one back by a place
      by_cases hsame : other = length
      · rw [if_pos hsame, if_pos (by simpa using hsame), List.singleton_append,
          List.getElem?_cons_succ, hrest]
      · rw [if_neg hsame, if_neg (by simpa using hsame), List.nil_append]
        exact hrest

theorem length_symbolsOfLength (lengths : List Nat) (length : Nat) :
    (symbolsOfLength lengths length).length = lengths.count length :=
  length_numbered length 0 lengths

theorem symbolsOfLength_getElem? {lengths : List Nat} {symbol length : Nat}
    (h : lengths[symbol]? = some length) :
    (symbolsOfLength lengths length)[(lengths.take symbol).count length]?
      = some (UInt16.ofNat symbol) := by
  have hsymbol := numbered_getElem? h 0
  rwa [Nat.zero_add] at hsymbol

theorem ofLengths_bounds {lengths : List Nat} {code : PrefixCode}
    (h : ofLengths? lengths = some code) :
    ∀ length ∈ lengths, code.minLength ≤ length ∧ length ≤ code.maxLength := by
  unfold ofLengths? at h
  split at h
  · next minLength maxLength hmin hmax =>
    split at h
    · cases h
      intro length hmem
      exact ⟨(List.min?_eq_some_iff.mp hmin).2 length hmem,
        (List.max?_eq_some_iff.mp hmax).2 length hmem⟩
    · cases h
  · cases h

/-- Lengths between 1 and 20 give a code. -/
theorem exists_ofLengths {lengths : List Nat} (hsome : lengths ≠ [])
    (h : ∀ length ∈ lengths, 1 ≤ length ∧ length ≤ longest) :
    ∃ code, ofLengths? lengths = some code := by
  unfold ofLengths?
  cases hmin : lengths.min? with
  | none => exact absurd (List.min?_eq_none_iff.mp hmin) hsome
  | some minLength =>
    cases hmax : lengths.max? with
    | none => exact absurd (List.max?_eq_none_iff.mp hmax) hsome
    | some maxLength =>
      have hlow := (h _ (List.min?_eq_some_iff.mp hmin).1).1
      have hhigh := (h _ (List.max?_eq_some_iff.mp hmax).1).2
      exact ⟨_, if_pos ⟨hlow, hhigh⟩⟩

/-! ## Reading a codeword -/

variable {lengths : List Nat} {code : PrefixCode} {symbol length : Nat}

/-- Under Kraft's inequality decoding is what it would be with integers of any size. -/
theorem decode_eq_exact (hlengths : lengths.length ≤ 2 ^ 16) (hkraft : kraftSum lengths ≤ 2 ^ longest)
    (hcode : ofLengths? lengths = some code) {reader : BitReader} (hreader : reader.Sound) :
    code.decode reader = code.decodeExact lengths reader := by
  obtain ⟨hpos, hle, hlong, _, _⟩ := ofLengths_spec hcode
  have hfirst : firstCodeword lengths code.minLength = 0 :=
    firstCodeword_eq_zero fun other hmem => (ofLengths_bounds hcode other hmem).1
  have hall : lengths.length * (code.maxLength + 1 - code.minLength) ≤ 2 ^ 16 * 20 :=
    Nat.mul_le_mul hlengths (by simp only [longest] at hlong; omega)
  have hfit : RowsFit lengths (code.maxLength + 1 - code.minLength) code.minLength
      (firstCodeword lengths code.minLength) 0 :=
    rowsFit_of_kraft hlengths hkraft (by omega) (by omega)
  rw [hfirst] at hfit
  exact decode_eq hlengths hcode hfit hreader

/-- The whole codeword of a symbol leads to its place among the symbols. -/
theorem symbolAtExact_codeword (hsymbol : lengths[symbol]? = some length) {count : Nat}
    {before : List UInt16}
    (hsymbols : code.symbols.toList
      = before ++ (List.range' length (count + 1)).flatMap (symbolsOfLength lengths)) :
    code.symbolAtExact ((codeword lengths length symbol : Nat)
        - ((firstCodeword lengths length : Int) - before.length)) = some (UInt16.ofNat symbol) := by
  have hcount := count_take_lt hsymbol
  have hplace : ((codeword lengths length symbol : Nat)
      - ((firstCodeword lengths length : Int) - before.length))
      = ((before.length + (lengths.take symbol).count length : Nat) : Int) := by
    rw [codeword]
    push_cast
    omega
  -- behind the shorter ones and the earlier ones of the same length
  rw [symbolAtExact, hplace, if_neg (by omega), Int.toNat_natCast, ← Array.getElem?_toList,
    hsymbols, List.getElem?_append_right (Nat.le_add_right _ _), Nat.add_sub_cancel_left,
    List.range'_succ, List.flatMap_cons,
    List.getElem?_append_left (by rw [length_symbolsOfLength]; exact hcount)]
  exact symbolsOfLength_getElem? hsymbol

/-- The leading bits of a codeword are above all codewords that are as short. -/
theorem le_codeword_div (lengths : List Nat) (here more symbol : Nat) :
    firstCodeword lengths here + lengths.count here
      ≤ codeword lengths (here + 1 + more) symbol / 2 ^ (more + 1) := by
  rw [Nat.le_div_iff_mul_le (Nat.two_pow_pos _), codeword]
  exact Nat.le_trans (le_firstCodeword lengths here more) (Nat.le_add_right _ _)

/-- From the first bits of a codeword on, reading goes on to its end and finds its symbol. -/
theorem reads_matchExact (hsymbol : lengths[symbol]? = some length) (count : Nat) {here : Nat}
    {before : List UInt16}
    (hsymbols : code.symbols.toList
      = before ++ (List.range' here count).flatMap (symbolsOfLength lengths))
    (hle : here ≤ length) (hlt : length < here + count) :
    (code.matchExact? (exactRows lengths count here (firstCodeword lengths here) before.length)
        (codeword lengths length symbol / 2 ^ (length - here) : Nat)).Reads
      (bitsOf (length - here) (codeword lengths length symbol)) (UInt16.ofNat symbol) := by
  -- on the rows; what comes before the symbols of this length is what has been passed
  induction count generalizing here before with
  | zero => omega
  | succ count ih =>
    rw [exactRows, matchExact?]
    by_cases hend : here = length
    · subst hend
      have hcount := count_take_lt hsymbol
      rw [Nat.sub_self, Nat.pow_zero, Nat.div_one,
        if_pos (by rw [codeword]; push_cast; omega), symbolAtExact_codeword hsymbol hsymbols]
      exact Read.Reads.pure _
    · obtain ⟨more, rfl⟩ : ∃ more, length = here + 1 + more := ⟨length - here - 1, by omega⟩
      have habove := le_codeword_div lengths here more symbol
      have hlonger : (exactRows lengths count (here + 1)
          ((firstCodeword lengths here + lengths.count here) * 2)
          (before.length + lengths.count here)).isEmpty = false := by
        obtain ⟨count, rfl⟩ : ∃ m, count = m + 1 := ⟨count - 1, by omega⟩
        rfl
      have hrest := @ih (here + 1) (before ++ symbolsOfLength lengths here)
        (by rw [hsymbols, List.range'_succ, List.flatMap_cons, List.append_assoc])
        (by omega) (by omega)
      rw [List.length_append, length_symbolsOfLength, firstCodeword,
        show here + 1 + more - (here + 1) = more by omega,
        ← div_two_pow_succ (codeword lengths (here + 1 + more) symbol) more] at hrest
      rw [show here + 1 + more - here = more + 1 by omega, if_neg (by omega), hlonger]
      simp only [Bool.false_eq_true, if_false]
      refine (BitReader.reads_bit _).bind (v := [_]) ?_
      exact_mod_cast hrest

/-- **A codeword is read as the symbol it stands for.** -/
theorem reads_decode (hlengths : lengths.length ≤ 2 ^ 16)
    (hkraft : kraftSum lengths ≤ 2 ^ longest) (hcode : ofLengths? lengths = some code)
    (hsymbol : symbol < lengths.length) :
    code.decode.Reads (writeCodeword lengths symbol) (UInt16.ofNat symbol) := by
  obtain ⟨hpos, _, hlong, _, hsymbols⟩ := ofLengths_spec hcode
  have hget : lengths[symbol]? = some lengths[symbol] := List.getElem?_eq_getElem hsymbol
  obtain ⟨hmin, hmax⟩ := ofLengths_bounds hcode lengths[symbol] (List.getElem_mem hsymbol)
  have hword := codeword_lt hkraft (Nat.le_trans hmax hlong) hget
  generalize lengths[symbol] = length at *
  have hlonger := reads_matchExact hget (code.maxLength + 1 - code.minLength)
    (by rw [hsymbols, List.nil_append] : code.symbols.toList = [] ++ _) hmin (by omega)
  rw [firstCodeword_eq_zero fun other hmem => (ofLengths_bounds hcode other hmem).1,
    List.length_nil] at hlonger
  have hfirst : codeword lengths length symbol / 2 ^ (length - code.minLength)
      < 2 ^ code.minLength := by
    rw [Nat.div_lt_iff_lt_mul (Nat.two_pow_pos _), ← Nat.pow_add, Nat.add_sub_of_le hmin]
    exact hword
  simp only [longest] at hlong
  have hread := (BitReader.reads_bits hpos (by omega) hfirst).bind
    (f := fun word : UInt32 => code.matchExact? (code.rowsOfLengths lengths) word.toNat)
    (by rw [BitReader.toNat_ofNat_lt (by omega) hfirst]; exact hlonger)
  rw [← bitsOf_add, Nat.add_sub_of_le hmin] at hread
  intro reader rest h
  rw [writeCodeword, hget] at h
  obtain ⟨after, hrun, hafter⟩ := hread reader rest h
  exact ⟨after, by rw [decode_eq_exact hlengths hkraft hcode h.toSound]; exact hrun, hafter⟩

example : (List.range 3).map (writeCodeword [1, 2, 2])
    = [[false], [true, false], [true, true]] := by decide

end PrefixCode

end Bunzip

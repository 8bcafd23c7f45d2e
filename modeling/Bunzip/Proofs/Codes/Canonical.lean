import Bunzip.Proofs.Format.Codewords
import Bunzip.Proofs.Locality.Block

/-!
# Canonical codes are read exactly

A writer sorts the symbols by the length of their codewords, and by number within a length, and counts
up: each codeword is one more than the last one, with zeros appended where the length grows. These
are the codewords that the rows of a code stand for.

Under Kraft's inequality a code leaves no room for doubt. Reading stops at a length only if the bits so
far are a codeword, and goes on only if no codeword begins with fewer of them. So the symbol whose
codeword comes next is read, and where none comes next, all bits of the longest length are read before
this is noticed.
-/

namespace Bunzip

namespace Format

/-! ## Handing out codewords -/

/-- The symbols by the length of their codewords, and by number within a length. -/
def sortedSymbols (lengths : List Nat) : List Nat :=
  (List.range lengths.length).mergeSort fun a b =>
    decide (toLex (lengths.getD a 0, a) ≤ toLex (lengths.getD b 0, b))

/--
Hands out codewords to symbols in a row. The number that follows the last codeword is `next`, and that
codeword had `last` bits; zeros are appended to it where the length grows.
-/
def handOut (lengths : List Nat) : (next last : Nat) → List Nat → List (Nat × Nat)
  | _, _, [] => []
  | next, last, symbol :: later =>
    let length := lengths.getD symbol 0
    let word := next <<< (length - last)
    (symbol, word) :: handOut lengths (word + 1) length later

/-- The codeword of each symbol, as a number. -/
def canonicalCodes (lengths : List Nat) : List (Nat × Nat) :=
  handOut lengths 0 0 (sortedSymbols lengths)

/-- The codeword of a symbol, as bits. -/
def canonicalWord (lengths : List Nat) (symbol : Nat) : List Bool :=
  bitsOf (lengths.getD symbol 0) (((canonicalCodes lengths).lookup symbol).getD 0)

/-- The symbols with codewords of this length, in ascending order. -/
def symbolsWith (lengths : List Nat) (length : Nat) : List Nat :=
  (List.range lengths.length).filter fun symbol => lengths.getD symbol 0 == length

theorem mem_symbolsWith {lengths : List Nat} {length symbol : Nat} :
    symbol ∈ symbolsWith lengths length ↔ symbol < lengths.length ∧ lengths.getD symbol 0 = length := by
  rw [symbolsWith, List.mem_filter, List.mem_range, beq_iff_eq]

theorem symbolsWith_snoc (lengths : List Nat) (last length : Nat) :
    symbolsWith (lengths ++ [last]) length
      = symbolsWith lengths length ++ if last = length then [lengths.length] else [] := by
  have hbefore : (List.range lengths.length).filter
      (fun symbol => (lengths ++ [last]).getD symbol 0 == length) = symbolsWith lengths length := by
    apply List.filter_congr
    intro symbol hsymbol
    rw [List.getD_append _ _ _ _ (List.mem_range.mp hsymbol)]
  have hlast : (lengths ++ [last]).getD lengths.length 0 = last := by
    rw [List.getD_append_right _ _ _ _ (Nat.le_refl _), Nat.sub_self]
    rfl
  rw [symbolsWith, List.length_append, List.length_singleton, List.range_succ, List.filter_append,
    hbefore, List.filter_cons, List.filter_nil, hlast]
  by_cases h : last = length
  · rw [if_pos h, if_pos (beq_iff_eq.mpr h)]
  · rw [if_neg h, if_neg (by simpa using h)]

theorem length_symbolsWith (lengths : List Nat) (length : Nat) :
    (symbolsWith lengths length).length = lengths.count length := by
  induction lengths using List.reverseRecOn with
  | nil => rfl
  | append_singleton lengths last ih =>
    rw [symbolsWith_snoc, List.length_append, ih, List.count_append, List.count_singleton]
    by_cases h : last = length
    · rw [if_pos h, if_pos (beq_iff_eq.mpr h), List.length_singleton]
    · rw [if_neg h, if_neg (by simpa using h), List.length_nil]

/-- A symbol comes behind as many of its length as there are among the symbols before it. -/
theorem zipIdx_symbolsWith (lengths : List Nat) (length start : Nat) :
    (symbolsWith lengths length).zipIdx start
      = (symbolsWith lengths length).map fun symbol =>
        (symbol, start + (lengths.take symbol).count length) := by
  induction lengths using List.reverseRecOn with
  | nil => rfl
  | append_singleton lengths last ih =>
    have hbefore : (symbolsWith lengths length).map (fun symbol =>
          (symbol, start + ((lengths ++ [last]).take symbol).count length))
        = (symbolsWith lengths length).map fun symbol =>
          (symbol, start + (lengths.take symbol).count length) := by
      apply List.map_congr_left
      intro symbol hsymbol
      rw [List.take_append_of_le_length (Nat.le_of_lt (mem_symbolsWith.mp hsymbol).1)]
    rw [symbolsWith_snoc, List.zipIdx_append, List.map_append, ih, hbefore, length_symbolsWith]
    by_cases h : last = length
    · rw [if_pos h, List.zipIdx_singleton, List.map_singleton, List.take_left']
      rfl
    · rw [if_neg h]
      rfl

/-- Sorting by length and number is taking one length after the other. -/
theorem sortedSymbols_eq {lengths : List Nat} (h : ∀ length ∈ lengths, length ≤ PrefixCode.longest) :
    sortedSymbols lengths
      = (List.range' 0 (PrefixCode.longest + 1)).flatMap (symbolsWith lengths) := by
  let key : Nat → Nat ×ₗ Nat := fun symbol => toLex (lengths.getD symbol 0, symbol)
  have hsorted : (sortedSymbols lengths).Pairwise fun a b => key a ≤ key b := by
    have htotal : ∀ a b, (decide (key a ≤ key b) || decide (key b ≤ key a)) = true := by
      intro a b
      rw [Bool.or_eq_true, decide_eq_true_iff, decide_eq_true_iff]
      exact le_total (key a) (key b)
    have htrans : ∀ a b c, decide (key a ≤ key b) = true → decide (key b ≤ key c) = true →
        decide (key a ≤ key c) = true := by
      intro a b c hab hbc
      rw [decide_eq_true_iff] at hab hbc ⊢
      exact le_trans hab hbc
    exact (List.pairwise_mergeSort htrans htotal (List.range lengths.length)).imp
      fun hle => of_decide_eq_true hle
  have hblocks : ((List.range' 0 (PrefixCode.longest + 1)).flatMap (symbolsWith lengths)).Pairwise
      fun a b => key a < key b := by
    have hlengths : (List.range' 0 (PrefixCode.longest + 1)).Pairwise (· < ·) :=
      List.pairwise_lt_range'
    rw [List.pairwise_flatMap]
    refine ⟨fun length _ => ?_, hlengths.imp fun {a b} hlt x hx y hy => ?_⟩
    · have hrange : (symbolsWith lengths length).Pairwise (· < ·) :=
        List.pairwise_lt_range.sublist List.filter_sublist
      refine hrange.imp_of_mem fun {x y} hx hy hlt => ?_
      rw [mem_symbolsWith] at hx hy
      exact Prod.Lex.toLex_lt_toLex.mpr (.inr ⟨hx.2.trans hy.2.symm, hlt⟩)
    · rw [mem_symbolsWith] at hx hy
      exact Prod.Lex.toLex_lt_toLex.mpr (.inl (by rw [hx.2, hy.2]; exact hlt))
  have hperm : (sortedSymbols lengths).Perm
      ((List.range' 0 (PrefixCode.longest + 1)).flatMap (symbolsWith lengths)) := by
    refine (List.mergeSort_perm _ _).trans ?_
    rw [List.perm_ext_iff_of_nodup List.nodup_range (hblocks.imp fun hlt heq => by
      rw [heq] at hlt
      exact lt_irrefl _ hlt)]
    intro symbol
    rw [List.mem_range, List.mem_flatMap]
    constructor
    · intro hlt
      have hle := h lengths[symbol] (List.getElem_mem hlt)
      refine ⟨lengths[symbol], ?_, mem_symbolsWith.mpr ⟨hlt, List.getD_eq_getElem _ _ hlt⟩⟩
      rw [List.mem_range'_1]
      omega
    · rintro ⟨length, _, hmem⟩
      exact (mem_symbolsWith.mp hmem).1
  exact hperm.eq_of_pairwise (fun a b _ _ hab hba => (Prod.ext_iff.mp (toLex_inj.mp
    (le_antisymm hab hba))).2) hsorted (hblocks.imp le_of_lt)

/-- Within a length, codewords are consecutive. -/
theorem handOut_block {lengths block : List Nat} {length : Nat}
    (h : ∀ symbol ∈ block, lengths.getD symbol 0 = length) (next : Nat) (later : List Nat) :
    handOut lengths next length (block ++ later)
      = block.zipIdx next ++ handOut lengths (next + block.length) length later := by
  induction block generalizing next with
  | nil => rfl
  | cons symbol block ih =>
    have hsymbol := h symbol List.mem_cons_self
    rw [List.cons_append, handOut, hsymbol, Nat.sub_self, Nat.shiftLeft_zero,
      ih fun other hmem => h other (List.mem_cons_of_mem _ hmem)]
    simp only [List.zipIdx_cons, List.cons_append, List.length_cons, Nat.add_assoc,
      Nat.add_comm 1 block.length]

/-- From one length to the next, codewords go on where the last ones end. -/
theorem handOut_blocks (lengths : List Nat) (count : Nat) {length next last : Nat} (hle : last ≤ length)
    (hnext : next * 2 ^ (length - last) = firstCodeword lengths length) :
    handOut lengths next last ((List.range' length count).flatMap (symbolsWith lengths))
      = ((List.range' length count).flatMap (symbolsWith lengths)).map fun symbol =>
        (symbol, codeword lengths (lengths.getD symbol 0) symbol) := by
  -- on the lengths; with enough zeros, the next number is the first codeword of the length
  induction count generalizing length next last with
  | zero => rfl
  | succ count ih =>
    have hblock : (symbolsWith lengths length).zipIdx (firstCodeword lengths length)
        = (symbolsWith lengths length).map fun symbol =>
          (symbol, codeword lengths (lengths.getD symbol 0) symbol) := by
      rw [zipIdx_symbolsWith]
      apply List.map_congr_left
      intro symbol hsymbol
      rw [(mem_symbolsWith.mp hsymbol).2, codeword]
    have hcount := length_symbolsWith lengths length
    have hmem : ∀ symbol ∈ symbolsWith lengths length,
        symbol < lengths.length ∧ lengths.getD symbol 0 = length := fun _ => mem_symbolsWith.mp
    rw [List.range'_succ, List.flatMap_cons, List.map_append, ← hblock]
    cases hsymbols : symbolsWith lengths length with
    | nil =>
      rw [hsymbols, List.length_nil] at hcount
      have hsucc : next * 2 ^ (length + 1 - last) = firstCodeword lengths (length + 1) := by
        rw [firstCodeword, ← hcount, ← hnext, Nat.succ_sub hle, Nat.pow_succ, ← Nat.mul_assoc]
        rfl
      rw [List.nil_append, ih (Nat.le_succ_of_le hle) hsucc]
      rfl
    | cons symbol block =>
      rw [hsymbols] at hmem hcount
      have hfirst : next <<< (lengths.getD symbol 0 - last) = firstCodeword lengths length := by
        rw [(hmem symbol List.mem_cons_self).2, Nat.shiftLeft_eq, hnext]
      have hsucc : (firstCodeword lengths length + 1 + block.length) * 2 ^ (length + 1 - length)
          = firstCodeword lengths (length + 1) := by
        rw [firstCodeword, ← hcount, List.length_cons, Nat.add_sub_cancel_left, Nat.pow_one]
        omega
      rw [List.cons_append, handOut, hfirst, (hmem symbol List.mem_cons_self).2,
        handOut_block fun other hother => (hmem other (List.mem_cons_of_mem _ hother)).2,
        ih (Nat.le_succ length) hsucc, List.zipIdx_cons]
      rfl

/-- **The codewords that are handed out in order are the ones that the rows of a code stand for.** -/
theorem canonicalWord_eq {lengths : List Nat} (h : ∀ length ∈ lengths, length ≤ PrefixCode.longest)
    {symbol : Nat} (hsymbol : symbol < lengths.length) :
    canonicalWord lengths symbol = writeCodeword lengths symbol := by
  have hmem : symbol ∈ (List.range' 0 (PrefixCode.longest + 1)).flatMap (symbolsWith lengths) := by
    rw [← sortedSymbols_eq h]
    exact (List.mergeSort_perm _ _).mem_iff.mpr (List.mem_range.mpr hsymbol)
  rw [canonicalWord, canonicalCodes, sortedSymbols_eq h, handOut_blocks lengths _ (Nat.le_refl 0) rfl,
    List.lookup_graph _ hmem, Option.getD_some, writeCodeword, List.getElem?_eq_getElem hsymbol,
    List.getD_eq_getElem _ _ hsymbol]

/-- Every number that is handed out at a length is some symbol's codeword. -/
theorem exists_codeword {lengths : List Nat} {length n : Nat} (h : n < lengths.count length) :
    ∃ symbol, lengths[symbol]? = some length ∧ (lengths.take symbol).count length = n := by
  induction lengths generalizing n with
  | nil => exact absurd h (Nat.not_lt_zero n)
  | cons other lengths ih =>
    rw [List.count_cons] at h
    by_cases hsame : other = length
    · subst hsame
      rw [if_pos (beq_self_eq_true other)] at h
      cases n with
      | zero => exact ⟨0, rfl, rfl⟩
      | succ n =>
        obtain ⟨symbol, hsymbol, hcount⟩ := ih (by omega : n < lengths.count other)
        refine ⟨symbol + 1, hsymbol, ?_⟩
        rw [List.take_succ_cons, List.count_cons, hcount, if_pos (beq_self_eq_true other)]
    · rw [if_neg (by simpa using hsame)] at h
      obtain ⟨symbol, hsymbol, hcount⟩ := ih h
      refine ⟨symbol + 1, hsymbol, ?_⟩
      rw [List.take_succ_cons, List.count_cons, hcount, if_neg (by simpa using hsame), Nat.add_zero]

/-- Bits that stand for a number which is handed out begin with a codeword. -/
theorem exists_codeword_front {lengths : List Nat} {here value : Nat}
    (hlow : firstCodeword lengths here ≤ value)
    (hhigh : value < firstCodeword lengths here + lengths.count here) (bits : List Bool) :
    ∃ symbol length, lengths[symbol]? = some length
      ∧ bitsOf length (codeword lengths length symbol) <+: bitsOf here value ++ bits := by
  obtain ⟨symbol, hsymbol, hcount⟩ := exists_codeword
    (by omega : value - firstCodeword lengths here < lengths.count here)
  have hvalue : codeword lengths here symbol = value := by
    rw [codeword, hcount]
    omega
  exact ⟨symbol, here, hsymbol, by rw [hvalue]; exact List.prefix_append _ _⟩

end Format

open Format

namespace PrefixCode

variable {lengths : List Nat} {code : PrefixCode} {place : Nat} {bits : List Bool}
  {reader : BitReader}

/-! ## Where no codeword comes next -/

/--
From the first `here` bits on, which are not below the codewords of their length: they and the next
ones begin with a codeword, or else the walk goes through all rows, or the input ends before that.
-/
theorem matchExact_walk (code : PrefixCode) (count : Nat) {here value : Nat} (shorter : Nat)
    (hlow : firstCodeword lengths here ≤ value) (h : reader.Stands place bits) :
    (∃ symbol length, lengths[symbol]? = some length
        ∧ bitsOf length (codeword lengths length symbol) <+: bitsOf here value ++ bits)
      ∨ (count ≤ bits.length ∧ ∃ after,
        code.matchExact? (exactRows lengths (count + 1) here (firstCodeword lengths here) shorter) value
            reader = .error (.corrupt (place + count) .invalidCode) after
          ∧ after.Stands (place + count) (bits.drop count))
      ∨ (bits.length < count ∧ ∃ after,
        code.matchExact? (exactRows lengths (count + 1) here (firstCodeword lengths here) shorter) value
            reader = .error (.endOfStream (place + bits.length)) after
          ∧ after.Stands (place + bits.length) []) := by
  -- on the rows behind this one
  induction count generalizing here value shorter place bits reader with
  | zero =>
    rcases Nat.lt_or_ge value (firstCodeword lengths here + lengths.count here) with hlt | hge
    · exact .inl (exists_codeword_front hlow hlt bits)
    · have hstop : code.matchExact?
          (exactRows lengths 1 here (firstCodeword lengths here) shorter) value
          = BitReader.corrupt .invalidCode := by
        rw [exactRows, matchExact?, if_neg (by omega), exactRows]
        rfl
      refine .inr (.inl ⟨Nat.zero_le _, reader, ?_, h⟩)
      rw [hstop, ← h.position]
      rfl
  | succ count ih =>
    rcases Nat.lt_or_ge value (firstCodeword lengths here + lengths.count here) with hlt | hge
    · exact .inl (exists_codeword_front hlow hlt bits)
    have hnext : code.matchExact?
        (exactRows lengths (count + 2) here (firstCodeword lengths here) shorter) value
        = BitReader.bit >>= fun next => code.matchExact? (exactRows lengths (count + 1) (here + 1)
            (firstCodeword lengths (here + 1)) (shorter + lengths.count here))
          ((value * 2 + next.toNat : Nat) : Int) := by
      rw [exactRows, matchExact?, if_neg (by omega), exactRows, firstCodeword]
      push_cast
      rfl
    rw [hnext]
    simp only [Bind.bind, EStateM.bind]
    cases bits with
    | nil =>
      obtain ⟨after, hread, hafter⟩ := BitReader.bits_short (n := 1) (by decide) (by decide)
        (by decide : ([] : List Bool).length < 1) h
      have hbit : BitReader.bit reader = .error (.endOfStream place) after := by
        simp only [BitReader.bit, Bind.bind, EStateM.bind, hread]
      rw [hbit]
      exact .inr (.inr ⟨Nat.succ_pos count, after, rfl, hafter⟩)
    | cons next rest =>
      obtain ⟨after, hread, hafter⟩ := BitReader.stands_bit h
      have hlow' : firstCodeword lengths (here + 1) ≤ value * 2 + next.toNat := by
        rw [firstCodeword]
        omega
      have hrest := ih (shorter + lengths.count here) hlow' hafter
      rw [bitsOf_snoc, List.append_assoc, List.singleton_append] at hrest
      rw [hread]
      simp only [List.length_cons, List.drop_succ_cons, Nat.succ_lt_succ_iff, Nat.succ_le_succ_iff]
      simp only [Nat.add_assoc, Nat.add_comm 1] at hrest
      exact hrest

/-- One of three things happens: a codeword comes next, or all bits of the longest length are read
without meeting one, or the input ends before that. -/
theorem decode_walk (hlengths : lengths.length ≤ 2 ^ 16) (hkraft : kraftSum lengths ≤ 2 ^ longest)
    (hcode : ofLengths? lengths = some code) (h : reader.Stands place bits) :
    (∃ symbol < lengths.length, writeCodeword lengths symbol <+: bits)
      ∨ (code.maxLength ≤ bits.length ∧ ∃ after,
        code.decode reader = .error (.corrupt (place + code.maxLength) .invalidCode) after
          ∧ after.Stands (place + code.maxLength) (bits.drop code.maxLength))
      ∨ (bits.length < code.maxLength ∧ ∃ consumed after,
        code.decode reader = .error (.endOfStream (place + consumed)) after
          ∧ after.Stands (place + consumed) (bits.drop consumed)) := by
  obtain ⟨hpos, hle, hlong, _, _⟩ := ofLengths_spec hcode
  simp only [longest] at hlong
  rw [decode_eq_exact hlengths hkraft hcode h.toSound]
  simp only [decodeExact, Bind.bind, EStateM.bind]
  rcases Nat.lt_or_ge bits.length code.minLength with hshort | henough
  · obtain ⟨after, hread, hafter⟩ := BitReader.bits_short hpos (by omega) hshort h
    rw [hread]
    exact .inr (.inr ⟨by omega, 0, after, rfl, hafter⟩)
  · obtain ⟨value, hvalue, hbits⟩ := exists_field henough
    rw [← hbits] at h
    obtain ⟨middle, hread, hmiddle⟩ := BitReader.stands_bits hpos (by omega) hvalue h
    have hfirst : firstCodeword lengths code.minLength = 0 :=
      firstCodeword_eq_zero fun other hmem => (ofLengths_bounds hcode other hmem).1
    obtain ⟨count, hcount⟩ : ∃ count, code.maxLength = code.minLength + count :=
      ⟨code.maxLength - code.minLength, by omega⟩
    have hlow : firstCodeword lengths code.minLength ≤ value := by omega
    have hwalk := code.matchExact_walk count 0 hlow hmiddle
    rw [hread]
    simp only [BitReader.toNat_ofNat_lt (by omega : code.minLength ≤ 32) hvalue, rowsOfLengths]
    rw [hfirst, hbits, List.length_drop] at hwalk
    rw [show code.maxLength + 1 - code.minLength = count + 1 by omega]
    rcases hwalk with ⟨symbol, length, hsymbol, hword⟩ | ⟨hall, after, hrun, hafter⟩
      | ⟨hfew, after, hrun, hafter⟩
    · refine .inl ⟨symbol, (List.getElem?_eq_some_iff.mp hsymbol).1, ?_⟩
      rw [writeCodeword, hsymbol]
      exact hword
    · rw [List.drop_drop, Nat.add_assoc, ← hcount] at hafter
      rw [Nat.add_assoc, ← hcount] at hrun
      exact .inr (.inl ⟨by omega, after, hrun, hafter⟩)
    · have hlast : place + code.minLength + (bits.length - code.minLength) = place + bits.length := by
        omega
      rw [hlast] at hrun hafter
      exact .inr (.inr ⟨by omega, bits.length, after, hrun, by rw [List.drop_length]; exact hafter⟩)

/-! ## Where a codeword comes next -/

theorem local_decode_of_lengths (hcode : ofLengths? lengths = some code) : code.decode.Local :=
  Sound.local_decode (⟨lengths, rfl, hcode⟩ : code.Sound lengths.length)

/-- A codeword that comes next is read, and nothing else. -/
theorem decode_of_front (hlengths : lengths.length ≤ 2 ^ 16) (hkraft : kraftSum lengths ≤ 2 ^ longest)
    (hcode : ofLengths? lengths = some code) (h : reader.Stands place bits) {symbol : Nat}
    (hsymbol : symbol < lengths.length) (hfront : writeCodeword lengths symbol <+: bits) :
    ∃ after, code.decode reader = .ok (UInt16.ofNat symbol) after
      ∧ after.Stands (place + lengths[symbol]) (bits.drop lengths[symbol]) := by
  have hlength : (writeCodeword lengths symbol).length = lengths[symbol] := by
    rw [writeCodeword, List.getElem?_eq_getElem hsymbol]
    exact length_bitsOf _ _
  obtain ⟨rest, rfl⟩ := hfront
  obtain ⟨after, hread, hafter⟩ := (local_decode_of_lengths hcode).stands_of_reads
    (reads_decode hlengths hkraft hcode hsymbol) h
  rw [hlength] at hafter
  exact ⟨after, hread, by rw [List.drop_left' hlength]; exact hafter⟩

/-- Reads that many codewords in a row. -/
def decodeMany (code : PrefixCode) : Nat → Read (List UInt16)
  | 0 => pure []
  | n + 1 => do
    let symbol ← code.decode
    let later ← decodeMany code n
    return symbol :: later

theorem local_decodeMany (hcode : ofLengths? lengths = some code) (n : Nat) :
    (code.decodeMany n).Local := by
  induction n with
  | zero => exact .pure []
  | succ n ih => exact (local_decode_of_lengths hcode).bind fun symbol => ih.map (symbol :: ·)

/-- Codewords that are written in a row are read in a row. -/
theorem reads_decodeMany (hlengths : lengths.length ≤ 2 ^ 16) (hkraft : kraftSum lengths ≤ 2 ^ longest)
    (hcode : ofLengths? lengths = some code) {symbols : List Nat}
    (hsymbols : ∀ symbol ∈ symbols, symbol < lengths.length) :
    (code.decodeMany symbols.length).Reads (symbols.flatMap (writeCodeword lengths))
      (symbols.map UInt16.ofNat) := by
  induction symbols with
  | nil => exact Read.Reads.pure []
  | cons symbol symbols ih =>
    have hfirst := reads_decode hlengths hkraft hcode (hsymbols symbol List.mem_cons_self)
    have hlater := ih fun other hmem => hsymbols other (List.mem_cons_of_mem _ hmem)
    exact hfirst.bind (hlater.map (UInt16.ofNat symbol :: ·))

/-! ## Exact decoding -/

/-- What comes of reading one symbol at a place, given the bits that come next. -/
structure DecodesExactly (code : PrefixCode) (lengths : List Nat) (place : Nat) (bits : List Bool)
    (reader : BitReader) : Prop where
  /-- A symbol is read, with exactly the bits of its codeword, if and only if the codeword is next. -/
  symbol : ∀ symbol (h : symbol < lengths.length),
    (∃ after, code.decode reader = .ok (UInt16.ofNat symbol) after
      ∧ after.Stands (place + lengths[symbol]) (bits.drop lengths[symbol]))
    ↔ canonicalWord lengths symbol <+: bits
  /-- Without a codeword, as many bits are read as the longest ones have. -/
  invalid : (∀ symbol < lengths.length, ¬canonicalWord lengths symbol <+: bits) →
    code.maxLength ≤ bits.length → ∃ after,
      code.decode reader = .error (.corrupt (place + code.maxLength) .invalidCode) after
        ∧ after.Stands (place + code.maxLength) (bits.drop code.maxLength)
  /-- If there are not so many, the end of the input is reported. -/
  ended : (∀ symbol < lengths.length, ¬canonicalWord lengths symbol <+: bits) →
    bits.length < code.maxLength → ∃ consumed after,
      code.decode reader = .error (.endOfStream (place + consumed)) after
        ∧ after.Stands (place + consumed) (bits.drop consumed)

/-- Symbols are told apart by the words that stand for them. -/
theorem ofNat_inj_of_lt (hlengths : lengths.length ≤ 2 ^ 16) {a b : Nat} (ha : a < lengths.length)
    (hb : b < lengths.length) (h : UInt16.ofNat a = UInt16.ofNat b) : a = b := by
  have hnat := congrArg UInt16.toNat h
  rw [UInt16.toNat_ofNat', UInt16.toNat_ofNat'] at hnat
  omega

theorem decodesExactly (hlengths : lengths.length ≤ 2 ^ 16) (hkraft : kraftSum lengths ≤ 2 ^ longest)
    (hcode : ofLengths? lengths = some code) (h : reader.Stands place bits) :
    code.DecodesExactly lengths place bits reader := by
  obtain ⟨_, _, hlong, _, _⟩ := ofLengths_spec hcode
  have hword : ∀ {symbol}, symbol < lengths.length →
      canonicalWord lengths symbol = writeCodeword lengths symbol :=
    canonicalWord_eq fun other hmem => Nat.le_trans (ofLengths_bounds hcode other hmem).2 hlong
  have hwalk := decode_walk hlengths hkraft hcode h
  have hnone : (∀ symbol < lengths.length, ¬canonicalWord lengths symbol <+: bits) →
      ¬∃ symbol < lengths.length, writeCodeword lengths symbol <+: bits := by
    rintro hall ⟨symbol, hsymbol, hfront⟩
    rw [← hword hsymbol] at hfront
    exact hall symbol hsymbol hfront
  refine ⟨fun symbol hsymbol => ⟨?_, fun hfront => ?_⟩, fun hall henough => ?_, fun hall hshort => ?_⟩
  · -- some codeword comes next, as the walk does not fail, and it is read as its own symbol
    rintro ⟨after, hread, _⟩
    rcases hwalk with ⟨other, hother, hfront⟩ | ⟨_, _, hfail, _⟩ | ⟨_, _, _, hfail, _⟩
    · obtain ⟨_, hread', _⟩ := decode_of_front hlengths hkraft hcode h hother hfront
      rw [hread] at hread'
      obtain ⟨hsame, _⟩ := EStateM.Result.ok.inj hread'
      rw [ofNat_inj_of_lt hlengths hsymbol hother hsame, hword hother]
      exact hfront
    · rw [hread] at hfail
      cases hfail
    · rw [hread] at hfail
      cases hfail
  · rw [hword hsymbol] at hfront
    exact decode_of_front hlengths hkraft hcode h hsymbol hfront
  · rcases hwalk with hfound | ⟨_, after, hfail, hafter⟩ | ⟨hshort, _⟩
    · exact absurd hfound (hnone hall)
    · exact ⟨after, hfail, hafter⟩
    · omega
  · rcases hwalk with hfound | ⟨henough, _⟩ | ⟨_, consumed, after, hfail, hafter⟩
    · exact absurd hfound (hnone hall)
    · omega
    · exact ⟨consumed, after, hfail, hafter⟩

/--
**Canonical decoding is exact.** Lengths between 1 and 20 that obey Kraft's inequality give a code, for
as many symbols as can be numbered. At every place it reads the symbol whose codeword comes next; and
codewords in a row are read as the symbols that they were written for.
-/
theorem exists_decodesExactly (hsome : 0 < lengths.length) (hlengths : lengths.length ≤ 2 ^ 16)
    (hrange : ∀ length ∈ lengths, 1 ≤ length ∧ length ≤ longest)
    (hkraft : kraftSum lengths ≤ 2 ^ longest) :
    ∃ code, ofLengths? lengths = some code ∧ lengths.max? = some code.maxLength
      ∧ (∀ place bits reader, reader.Stands place bits →
        code.DecodesExactly lengths place bits reader)
      ∧ ∀ symbols : List Nat, (∀ symbol ∈ symbols, symbol < lengths.length) →
        ∀ place rest reader,
          reader.Stands place (symbols.flatMap (canonicalWord lengths) ++ rest) →
          ∃ after, code.decodeMany symbols.length reader = .ok (symbols.map UInt16.ofNat) after
            ∧ after.Stands (place + (symbols.flatMap (canonicalWord lengths)).length) rest := by
  obtain ⟨code, hcode⟩ := exists_ofLengths (List.length_pos_iff.mp hsome) hrange
  refine ⟨code, hcode, maxLength_of_lengths hcode, fun place bits reader h =>
    decodesExactly hlengths hkraft hcode h, fun symbols hsymbols place rest reader h => ?_⟩
  have hwords : symbols.flatMap (canonicalWord lengths) = symbols.flatMap (writeCodeword lengths) := by
    apply List.flatMap_congr
    intro symbol hmem
    exact canonicalWord_eq (fun other hother => (hrange other hother).2) (hsymbols symbol hmem)
  rw [hwords] at h ⊢
  exact (local_decodeMany hcode _).stands_of_reads (reads_decodeMany hlengths hkraft hcode hsymbols) h

/-- Three symbols, and codewords to spare: 0, 100 and 101. -/
theorem exists_decodesExactly_three :
    ∃ code, ofLengths? [1, 3, 3] = some code
      ∧ ∃ after, code.decode (.ofSource (.ofBytes ⟨#[0xA0]⟩)) = .ok 2 after
        ∧ after.Stands 3 [false, false, false, false, false] := by
  obtain ⟨code, hcode, _, hexact, _⟩ := exists_decodesExactly
    (by decide : 0 < ([1, 3, 3] : List Nat).length) (by decide) (by decide) (by decide)
  have hword : canonicalWord [1, 3, 3] 2 = [true, false, true] := by
    rw [canonicalWord_eq (by decide) (by decide)]
    decide
  obtain ⟨after, hread, hafter⟩ := ((hexact 0 _ _ (BitReader.stands_ofSource ⟨#[0xA0]⟩)).symbol 2
    (by decide)).mpr (by rw [hword]; decide)
  exact ⟨code, hcode, after, hread, hafter⟩

end PrefixCode

end Bunzip

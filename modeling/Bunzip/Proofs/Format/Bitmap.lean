import Bunzip.Proofs.Format.Parses
import Bunzip.Proofs.Format.SymbolMap

/-!
# What a symbol map marks

A map is described here by its bits alone. Its first sixteen bits say for which ranges of sixteen byte
values there is a word, and the words of these ranges follow in a row. So the word of a marked range
is found by counting the marked ranges up to it, and a byte value is marked if its range is marked and
its bit in the word of its range is set.

The reader counts the words first, and tells only afterwards which range a word belongs to. It comes
to the same: a map is read to its last word and no further, and gives the values that its bits mark
(`read_exactly`). A map that marks nothing is refused, also if it has words.
-/

namespace Bunzip

namespace Format

/-! ## Bits of a map -/

/-- How many bits a map has: sixteen for the index, and sixteen for each range that it marks. -/
def mapLength (bits : List Bool) : Nat := 16 * (1 + (bits.take 16).count true)

/-- A byte value is marked by a map that these bits begin with. -/
def Marks (bits : List Bool) (byte : UInt8) : Prop :=
  bits[byte.toNat / 16]? = some true
    ∧ bits[16 * (bits.take (byte.toNat / 16 + 1)).count true + byte.toNat % 16]? = some true

instance (bits : List Bool) (byte : UInt8) : Decidable (Marks bits byte) :=
  inferInstanceAs (Decidable (_ ∧ _))

/-- The words of sixteen bits that bits begin with. -/
def wordsOf : (n : Nat) → (bits : List Bool) → List Nat
  | 0, _ => []
  | n + 1, bits => numberOf (bits.take 16) :: wordsOf n (bits.drop 16)

/-- The words of a map that bits begin with. -/
def mapWords (bits : List Bool) : List Nat := wordsOf (1 + (bits.take 16).count true) bits

theorem getElem?_bitsOf {n i : Nat} (h : i < n) (value : Nat) :
    (bitsOf n value)[i]? = some (value.testBit (n - 1 - i)) := by
  induction n generalizing i with
  | zero => omega
  | succ n ih =>
    cases i with
    | zero => rw [bitsOf, List.getElem?_cons_zero, Nat.add_sub_cancel, Nat.sub_zero]
    | succ i =>
      rw [bitsOf, List.getElem?_cons_succ, ih (by omega)]
      congr 2
      omega

/-- A place of a word is marked if its bit is set. -/
theorem getElem?_marked {word : List Bool} (hword : word.length = 16) {i : Nat} (hi : i < 16) :
    word[i]? = some (SymbolMap.marked (numberOf word) i) := by
  obtain ⟨value, hvalue, hbits⟩ := exists_bitsOf word
  rw [hword] at hvalue hbits
  rw [← hbits, getElem?_bitsOf hi, numberOf_bitsOf hvalue, SymbolMap.marked]

theorem getElem?_wordsOf {n k : Nat} (h : k < n) (bits : List Bool) :
    (wordsOf n bits)[k]? = some (numberOf ((bits.drop (16 * k)).take 16)) := by
  induction n generalizing k bits with
  | zero => omega
  | succ n ih =>
    cases k with
    | zero => rw [wordsOf, List.getElem?_cons_zero, Nat.mul_zero, List.drop_zero]
    | succ k =>
      rw [wordsOf, List.getElem?_cons_succ, ih (by omega), List.drop_drop, Nat.mul_succ, Nat.add_comm]

/-- Words that are written are the words that the bits begin with. -/
theorem wordsOf_flatMap {words : List Nat} (h : ∀ word ∈ words, word < 2 ^ 16) (rest : List Bool) :
    wordsOf words.length ((words.flatMap fun word => bitsOf 16 word) ++ rest) = words := by
  induction words with
  | nil => rfl
  | cons word words ih =>
    obtain ⟨hfirst, hothers⟩ := List.forall_mem_cons.mp h
    rw [List.length_cons, wordsOf, List.flatMap_cons, List.append_assoc,
      List.take_left' (length_bitsOf 16 word), List.drop_left' (length_bitsOf 16 word),
      numberOf_bitsOf hfirst, ih hothers]

end Format

open Format

namespace SymbolMap

/-! ## Places -/

/-- A number that passes a test is found behind those below it that do. -/
theorem getElem?_filter_range {p : Nat → Bool} {n i : Nat} (hi : i < n) (hp : p i = true) :
    ((List.range n).filter p)[((List.range i).filter p).length]? = some i := by
  obtain ⟨m, rfl⟩ : ∃ m, n = i + (m + 1) := ⟨n - (i + 1), by omega⟩
  rw [List.range_add, List.range_succ_eq_map, List.map_cons, Nat.add_zero, List.filter_append,
    List.filter_cons_of_pos hp, List.getElem?_append_right (Nat.le_refl _), Nat.sub_self]
  rfl

theorem mem_places {word i : Nat} : i ∈ places word ↔ i < 16 ∧ marked word i = true := by
  rw [places, List.mem_filter, List.mem_range]

theorem sorted_places (word : Nat) : (places word).Pairwise (· < ·) :=
  List.pairwise_lt_range.filter _

/-- A place is found behind the marked places below it, and nowhere else. -/
theorem getElem?_places {word k i : Nat} :
    (places word)[k]? = some i
      ↔ i < 16 ∧ marked word i = true ∧ k = ((List.range i).filter (marked word)).length := by
  constructor
  · intro hget
    obtain ⟨hlt, _⟩ := List.getElem?_eq_some_iff.mp hget
    obtain ⟨hi, hmarked⟩ := mem_places.mp (List.mem_of_getElem? hget)
    have hnodup : (places word).Nodup := (sorted_places word).imp Nat.ne_of_lt
    exact ⟨hi, hmarked,
      (List.getElem?_inj hlt hnodup).mp (hget.trans (getElem?_filter_range hi hmarked).symm)⟩
  · rintro ⟨hi, hmarked, rfl⟩
    exact getElem?_filter_range hi hmarked

/-- As many places are marked below one as bits are set before its bit. -/
theorem length_filter_marked {word : List Bool} (hword : word.length = 16) {n : Nat} (hn : n ≤ 16) :
    ((List.range n).filter (marked (numberOf word))).length = (word.take n).count true := by
  induction n with
  | zero => rfl
  | succ n ih =>
    have hinside : n < word.length := by omega
    have hbit := getElem?_marked hword (Nat.lt_of_succ_le hn)
    rw [List.getElem?_eq_getElem hinside] at hbit
    rw [List.range_succ, List.filter_append, List.length_append, ih (by omega),
      List.take_succ_eq_append_getElem hinside, List.count_append, Option.some.inj hbit]
    cases hmarked : marked (numberOf word) n with
    | true => rw [List.filter_cons_of_pos hmarked]; rfl
    | false => rw [List.filter_cons_of_neg (by simp [hmarked])]; rfl

theorem length_places_numberOf {word : List Bool} (hword : word.length = 16) :
    (places (numberOf word)).length = word.count true := by
  rw [places, length_filter_marked hword (Nat.le_refl 16), List.take_of_length_le (by omega)]

/-! ## Values -/

/-- A value is in the list if its place is marked in the word that its range has. -/
theorem mem_valuesIn {ranges words : List Nat} {value : Nat} :
    value ∈ valuesIn ranges words
      ↔ ∃ k range word place : Nat, ranges[k]? = some range ∧ words[k]? = some word
        ∧ place ∈ places word ∧ value = 16 * range + place := by
  induction ranges generalizing words with
  | nil => simp [valuesIn]
  | cons range ranges ih =>
    cases words with
    | nil => simp [valuesIn]
    | cons word words =>
      rw [valuesIn, List.mem_append, List.mem_map, ih]
      constructor
      · rintro (⟨place, hplace, rfl⟩ | ⟨k, other, word', place, hrange, hword, hplace, rfl⟩)
        · exact ⟨0, range, word, place, rfl, rfl, hplace, rfl⟩
        · exact ⟨k + 1, other, word', place, hrange, hword, hplace, rfl⟩
      · rintro ⟨k, other, word', place, hrange, hword, hplace, rfl⟩
        cases k with
        | zero =>
          cases hrange
          cases hword
          exact .inl ⟨place, hplace, rfl⟩
        | succ k => exact .inr ⟨k, other, word', place, hrange, hword, hplace, rfl⟩

/-- The values of ascending ranges ascend. -/
theorem sorted_valuesIn {ranges : List Nat} (h : ranges.Pairwise (· < ·)) (words : List Nat) :
    (valuesIn ranges words).Pairwise (· < ·) := by
  induction ranges generalizing words with
  | nil => exact .nil
  | cons range ranges ih =>
    cases words with
    | nil => exact .nil
    | cons word words =>
      obtain ⟨hfirst, hothers⟩ := List.pairwise_cons.mp h
      rw [valuesIn, List.pairwise_append]
      refine ⟨?_, ih hothers words, ?_⟩
      · exact List.pairwise_map.mpr ((sorted_places word).imp (by omega))
      · intro value hvalue other hother
        obtain ⟨place, hplace, rfl⟩ := List.mem_map.mp hvalue
        obtain ⟨k, range', word', place', hrange, _, _, rfl⟩ := mem_valuesIn.mp hother
        have hlater := hfirst range' (List.mem_of_getElem? hrange)
        have hlt := (mem_places.mp hplace).1
        omega

theorem valuesIn_lt {index : Nat} {words : List Nat} {value : Nat}
    (h : value ∈ valuesIn (places index) words) : value < 256 := by
  obtain ⟨k, range, word, place, hrange, _, hplace, rfl⟩ := mem_valuesIn.mp h
  have hlt := (mem_places.mp (List.mem_of_getElem? hrange)).1
  have hlt' := (mem_places.mp hplace).1
  omega

/-- **The values of a map ascend.** -/
theorem sorted_values (words : List Nat) : (values words).Pairwise (· < ·) := by
  cases words with
  | nil => exact .nil
  | cons index words =>
    refine List.pairwise_map.mpr ((sorted_valuesIn (sorted_places index) words).imp_of_mem ?_)
    intro value other hvalue hother hlt
    rw [UInt8.lt_iff_toNat_lt, UInt8.toNat_ofNat_of_lt' (valuesIn_lt hvalue),
      UInt8.toNat_ofNat_of_lt' (valuesIn_lt hother)]
    exact hlt

theorem mem_values {index : Nat} {words : List Nat} {byte : UInt8} :
    byte ∈ values (index :: words) ↔ byte.toNat ∈ valuesIn (places index) words := by
  rw [values, List.mem_map]
  constructor
  · rintro ⟨value, hvalue, rfl⟩
    rwa [UInt8.toNat_ofNat_of_lt' (valuesIn_lt hvalue)]
  · intro hvalue
    exact ⟨_, hvalue, UInt8.ofNat_toNat⟩

/-- A value is marked in the word that comes behind those of the marked ranges below its own. -/
theorem mem_valuesIn_places {index value : Nat} {words : List Nat} :
    value ∈ valuesIn (places index) words
      ↔ value / 16 < 16 ∧ marked index (value / 16) = true
        ∧ ∃ word, words[((List.range (value / 16)).filter (marked index)).length]? = some word
          ∧ marked word (value % 16) = true := by
  rw [mem_valuesIn]
  constructor
  · rintro ⟨k, range, word, place, hrange, hword, hplace, rfl⟩
    obtain ⟨hlt, hmarked, rfl⟩ := getElem?_places.mp hrange
    obtain ⟨hplaceLt, hset⟩ := mem_places.mp hplace
    rw [show (16 * range + place) / 16 = range by omega,
      show (16 * range + place) % 16 = place by omega]
    exact ⟨hlt, hmarked, word, hword, hset⟩
  · rintro ⟨hlt, hmarked, word, hword, hset⟩
    exact ⟨_, value / 16, word, value % 16, getElem?_places.mpr ⟨hlt, hmarked, rfl⟩, hword,
      mem_places.mpr ⟨Nat.mod_lt _ (by decide), hset⟩, (Nat.div_add_mod value 16).symm⟩

section Index

variable {bits : List Bool} {range : Nat}

/-- The index of a map says whether it has a word for a range. -/
theorem getElem?_index (hindex : 16 ≤ bits.length) (hrange : range < 16) :
    bits[range]? = some (marked (numberOf (bits.take 16)) range) := by
  rw [← List.getElem?_take_of_lt hrange]
  exact getElem?_marked (by rw [List.length_take, Nat.min_eq_left hindex]) hrange

/-- The words of the ranges below one come before its own. -/
theorem length_filter_index (hindex : 16 ≤ bits.length) (hrange : range < 16) :
    ((List.range range).filter (marked (numberOf (bits.take 16)))).length
      = (bits.take range).count true := by
  rw [length_filter_marked (by rw [List.length_take, Nat.min_eq_left hindex]) (Nat.le_of_lt hrange),
    List.take_take, Nat.min_eq_left (Nat.le_of_lt hrange)]

theorem count_take_succ (hset : bits[range]? = some true) :
    (bits.take (range + 1)).count true = (bits.take range).count true + 1 := by
  obtain ⟨hinside, hbit⟩ := List.getElem?_eq_some_iff.mp hset
  rw [List.take_succ_eq_append_getElem hinside, List.count_append, hbit]
  rfl

/-- The word behind `before` others says which values of its range are marked. -/
theorem getElem?_word {before place : Nat} (hinside : 16 * (before + 2) ≤ bits.length)
    (hplace : place < 16) :
    bits[16 * (before + 1) + place]?
      = some (marked (numberOf (((bits.drop 16).drop (16 * before)).take 16)) place) := by
  have hword : (((bits.drop 16).drop (16 * before)).take 16).length = 16 := by
    rw [List.length_take, List.length_drop, List.length_drop]
    omega
  rw [← getElem?_marked hword hplace, List.getElem?_take_of_lt hplace, List.getElem?_drop,
    List.getElem?_drop]
  congr 1
  omega

end Index

/-- **The values of a map are those that its bits mark.** -/
theorem mem_values_mapWords {bits : List Bool} (henough : mapLength bits ≤ bits.length)
    (byte : UInt8) : byte ∈ values (mapWords bits) ↔ Marks bits byte := by
  have hrange : byte.toNat / 16 < 16 := Nat.div_lt_of_lt_mul byte.toNat_lt
  have hplace : byte.toNat % 16 < 16 := Nat.mod_lt _ (by decide)
  rw [mapLength] at henough
  have hindex : 16 ≤ bits.length := by omega
  have hmarked := getElem?_index hindex hrange
  rw [mapWords, Nat.add_comm 1, wordsOf, mem_values, mem_valuesIn_places,
    length_filter_index hindex hrange, Marks, hmarked, Option.some_inj, and_iff_right hrange]
  refine and_congr_right fun hset => ?_
  rw [hset] at hmarked
  -- the word of the range is there, because it is one of those that the index counts
  have hcounted := (List.take_sublist_take_left (l := bits) hrange).count_le true
  rw [count_take_succ hmarked] at hcounted ⊢
  rw [getElem?_wordsOf hcounted, getElem?_word (by omega) hplace, Option.some_inj]
  constructor
  · rintro ⟨word, hget, hplaced⟩
    obtain rfl := Option.some.inj hget
    exact hplaced
  · intro hplaced
    exact ⟨_, rfl, hplaced⟩

end SymbolMap

/-! ## Reading -/

namespace BitReader

variable {reader middle after : BitReader} {reason : DecodeError} {n : Nat}

/-- A read has failed. Where the source never does, fewer bits were left than were asked for. -/
structure Lacks (reader : BitReader) (n : Nat) (reason : DecodeError) (after : BitReader) : Prop where
  halted : Halted after.position reason
  short : reader.source.stops = 0 →
    reason = .endOfStream after.position ∧ reader.upcoming.length < n

/-- The reader has handed out the next `n` bits. -/
structure Skips (reader : BitReader) (n : Nat) (after : BitReader) : Prop where
  enough : n ≤ reader.upcoming.length
  passes : reader.Passes (reader.upcoming.take n) after

theorem Skips.upcoming (h : reader.Skips n after) : after.upcoming = reader.upcoming.drop n := by
  have hsplit := h.passes.upcoming
  conv_lhs at hsplit => rw [← List.take_append_drop n reader.upcoming]
  exact (List.append_cancel_left hsplit).symm

theorem Skips.trans {m : Nat} (hfirst : reader.Skips m middle) (hsecond : middle.Skips n after) :
    reader.Skips (m + n) after := by
  have hupcoming := hfirst.upcoming
  have henough := hsecond.enough
  have hlonger := hfirst.enough
  rw [hupcoming, List.length_drop] at henough
  refine ⟨by omega, ?_⟩
  rw [List.take_add, ← hupcoming]
  exact hfirst.passes.trans hsecond.passes

theorem Lacks.behind {m : Nat} (hfirst : reader.Skips m middle)
    (hsecond : middle.Lacks n reason after) : reader.Lacks (m + n) reason after := by
  refine ⟨hsecond.halted, fun hnone => ?_⟩
  obtain ⟨hreason, hshort⟩ := hsecond.short (Nat.le_zero.mp (hnone ▸ hfirst.passes.stops))
  rw [hfirst.upcoming, List.length_drop] at hshort
  exact ⟨hreason, by omega⟩

theorem Lacks.mono {m : Nat} (h : reader.Lacks m reason after) (le : m ≤ n) :
    reader.Lacks n reason after :=
  ⟨h.halted, fun hnone => ⟨(h.short hnone).1, Nat.lt_of_lt_of_le (h.short hnone).2 le⟩⟩

/-- A number is the next bits, unless the source lacks them. -/
theorem number_keeps (hpos : 0 < n) (hn : n ≤ 32) (h : reader.Sound) :
    match number n reader with
    | .ok value after => value = numberOf (reader.upcoming.take n) ∧ reader.Skips n after
    | .error reason after => reader.Lacks n reason after := by
  have hkeeps := bits_keeps hpos hn h
  simp only [number, Bind.bind, EStateM.bind]
  cases hr : bits n reader with
  | ok word after =>
    rw [hr] at hkeeps
    obtain ⟨hafter, henough, hword, hupcoming, hposition, hstops⟩ := hkeeps
    refine ⟨hword, henough, hafter, ?_, ?_, Nat.le_of_eq hstops⟩
    · rw [hupcoming, List.take_append_drop]
    · rw [hposition, List.length_take, Nat.min_eq_left henough]
  | error reason after =>
    rw [hr] at hkeeps
    obtain ⟨_, hpaused, hfew⟩ := hkeeps
    refine ⟨?_, fun hnone => ?_⟩
    · rw [hpaused.position]
      exact hpaused.halted
    · rw [hpaused.position]
      exact hpaused.short hfew hnone

end BitReader

namespace SymbolMap

theorem readWords_keeps (n : Nat) {reader : BitReader} (h : reader.Sound) :
    match readWords n reader with
    | .ok words after => words = wordsOf n reader.upcoming ∧ reader.Skips (16 * n) after
    | .error reason after => reader.Lacks (16 * n) reason after := by
  induction n generalizing reader with
  | zero => exact ⟨rfl, Nat.zero_le _, .refl h⟩
  | succ n ih =>
    have hfirst := BitReader.number_keeps (n := 16) (by decide) (by decide) h
    simp only [readWords, Bind.bind, EStateM.bind]
    cases hr : BitReader.number 16 reader with
    | error reason after =>
      rw [hr] at hfirst
      exact hfirst.mono (by omega)
    | ok word middle =>
      rw [hr] at hfirst
      obtain ⟨hword, hskips⟩ := hfirst
      have hothers := ih hskips.passes.sound
      simp only
      rw [show 16 * (n + 1) = 16 + 16 * n by omega]
      cases hs : readWords n middle with
      | error reason after =>
        rw [hs] at hothers
        exact hothers.behind hskips
      | ok words after =>
        rw [hs] at hothers
        obtain ⟨hwords, hrest⟩ := hothers
        rw [hskips.upcoming] at hwords
        refine ⟨?_, hskips.trans hrest⟩
        rw [wordsOf, hword, hwords]

/-- The words of a map are read, and nothing behind them. -/
theorem readMap_keeps {reader : BitReader} (h : reader.Sound) :
    match readMap reader with
    | .ok words after =>
      words = mapWords reader.upcoming ∧ reader.Skips (mapLength reader.upcoming) after
    | .error reason after => reader.Lacks (mapLength reader.upcoming) reason after := by
  have hfirst := BitReader.number_keeps (n := 16) (by decide) (by decide) h
  simp only [readMap, Bind.bind, EStateM.bind]
  cases hr : BitReader.number 16 reader with
  | error reason after =>
    rw [hr] at hfirst
    exact hfirst.mono (by rw [mapLength]; omega)
  | ok index middle =>
    rw [hr] at hfirst
    obtain ⟨rfl, hskips⟩ := hfirst
    -- as many words are read as the index has bits set
    have hindex : (reader.upcoming.take 16).length = 16 := by
      rw [List.length_take, Nat.min_eq_left hskips.enough]
    have hothers := readWords_keeps (places (numberOf (reader.upcoming.take 16))).length
      hskips.passes.sound
    rw [length_places_numberOf hindex] at hothers
    simp only [length_places_numberOf hindex]
    rw [mapLength, Nat.mul_add, Nat.mul_one, mapWords, Nat.add_comm 1, wordsOf]
    cases hs : readWords ((reader.upcoming.take 16).count true) middle with
    | error reason after =>
      rw [hs] at hothers
      exact hothers.behind hskips
    | ok words after =>
      rw [hs] at hothers
      obtain ⟨hwords, hrest⟩ := hothers
      rw [hskips.upcoming] at hwords
      exact ⟨by rw [hwords], hskips.trans hrest⟩

/-- What has been read is looked at as a whole: it is refused if it marks nothing. -/
theorem read_of_ok {reader after : BitReader} {words : List Nat}
    (h : readMap reader = .ok words after) : read reader = if values words = []
      then .error (.corrupt after.position .noSymbols) after (words.map Note.symbolWord)
      else .ok (values words) after (words.map Note.symbolWord) := by
  rw [read, Op.bind_eq]
  simp only [Op.read, h, Op.bind_eq, Op.noteAll, Outcome.after_nil]
  cases values words with
  | nil =>
    simp only [List.isEmpty_nil, if_true]
    exact congrArg (Outcome.error _ after) (List.append_nil _)
  | cons byte bytes =>
    simp only [List.isEmpty_cons, Bool.false_eq_true, if_false, List.cons_ne_nil]
    exact congrArg (Outcome.ok _ after) (List.append_nil _)

theorem read_of_error {reader after : BitReader} {reason : DecodeError}
    (h : readMap reader = .error reason after) : read reader = .error reason after [] := by
  rw [read, Op.bind_eq]
  simp only [Op.read, h]

/-! ## Maps that are written -/

theorem length_flatMap_bitsOf (words : List Nat) :
    (words.flatMap fun word => bitsOf 16 word).length = 16 * words.length := by
  induction words with
  | nil => rfl
  | cons word words ih =>
    rw [List.flatMap_cons, List.length_append, length_bitsOf, ih, List.length_cons]
    omega

/-- The words of the map that is written for some bytes. -/
def wordsFor (s : List UInt8) : List Nat :=
  wordOf 16 (rangeUsed s) :: (usedRanges s).map (rangeWord s)

theorem writeSymbolMap_eq (s : List UInt8) :
    writeSymbolMap s = (wordsFor s).flatMap fun word => bitsOf 16 word := by
  rw [writeSymbolMap, wordsFor, List.flatMap_cons, List.flatMap_map]

theorem wordsFor_lt (s : List UInt8) : ∀ word ∈ wordsFor s, word < 2 ^ 16 := by
  refine List.forall_mem_cons.mpr ⟨wordOf_lt 16 _, ?_⟩
  intro word hmem
  obtain ⟨range, _, rfl⟩ := List.mem_map.mp hmem
  exact wordOf_lt 16 _

/-- The index of a map that is written says how many words there are. -/
theorem length_wordsFor (s : List UInt8) (rest : List Bool) :
    1 + ((writeSymbolMap s ++ rest).take 16).count true = (wordsFor s).length := by
  have hindex : (writeSymbolMap s ++ rest).take 16 = bitsOf 16 (wordOf 16 (rangeUsed s)) := by
    rw [writeSymbolMap, List.append_assoc, List.take_left' (length_bitsOf 16 _)]
  rw [hindex, ← length_places_numberOf (length_bitsOf 16 _), numberOf_bitsOf (wordOf_lt 16 _),
    places_wordOf, wordsFor, List.length_cons, List.length_map, usedRanges, Nat.add_comm]

theorem mapWords_writeSymbolMap (s : List UInt8) (rest : List Bool) :
    mapWords (writeSymbolMap s ++ rest) = wordsFor s := by
  rw [mapWords, length_wordsFor, writeSymbolMap_eq, wordsOf_flatMap (wordsFor_lt s)]

theorem mapLength_writeSymbolMap (s : List UInt8) (rest : List Bool) :
    mapLength (writeSymbolMap s ++ rest) = (writeSymbolMap s).length := by
  rw [mapLength, length_wordsFor, writeSymbolMap_eq, length_flatMap_bitsOf]

/-! ## All strings -/

/-- A map has been read to its end, and this is what it marks. -/
structure MapRead (reader : BitReader) (found : List UInt8) (after : BitReader) : Prop where
  sorted : found.Pairwise (· < ·)
  mem_iff : ∀ byte, byte ∈ found ↔ Marks reader.upcoming byte
  skips : reader.Skips (mapLength reader.upcoming) after

theorem mapRead_of_ok {reader after : BitReader} {words : List Nat} (h : reader.Sound)
    (ran : readMap reader = .ok words after) : MapRead reader (values words) after := by
  have hkeeps := readMap_keeps h
  rw [ran] at hkeeps
  obtain ⟨rfl, hskips⟩ := hkeeps
  exact ⟨sorted_values _, mem_values_mapWords hskips.enough, hskips⟩

section Read

variable {reader : BitReader} (hreader : reader.Sound)

include hreader

/-- The map that is written for some bytes is read as these bytes. -/
theorem read_written {s : List UInt8} {rest : List Bool} (hs : s ≠ [])
    (hnone : reader.source.stops = 0) (hupcoming : reader.upcoming = writeSymbolMap s ++ rest) :
    ∃ found after notes, read reader = .ok found after notes
      ∧ found.Pairwise (· < ·) ∧ (∀ byte, byte ∈ found ↔ byte ∈ s)
      ∧ reader.Passes (writeSymbolMap s) after := by
  have hkeeps := readMap_keeps hreader
  rw [hupcoming, mapLength_writeSymbolMap, mapWords_writeSymbolMap] at hkeeps
  have hused : usedBytes s ≠ [] := by
    obtain ⟨byte, hbyte⟩ := List.exists_mem_of_ne_nil s hs
    exact List.ne_nil_of_mem (mem_usedBytes.mpr hbyte)
  cases hr : readMap reader with
  | error reason after =>
    rw [hr] at hkeeps
    have hshort := (hkeeps.short hnone).2
    rw [hupcoming, List.length_append] at hshort
    omega
  | ok words after =>
    rw [hr] at hkeeps
    obtain ⟨rfl, hskips⟩ := hkeeps
    have hread := read_of_ok hr
    rw [wordsFor, values_words, if_neg hused] at hread
    have hpasses := hskips.passes
    rw [hupcoming, List.take_left] at hpasses
    exact ⟨_, after, _, hread, Histogram.sorted_allBytes.filter _, fun _ => mem_usedBytes, hpasses⟩

/-- The source lacks the bits of a map, or the map is read, and refused if it marks nothing. -/
theorem read_cases :
    (∃ reason after, reader.Lacks (mapLength reader.upcoming) reason after
      ∧ read reader = .error reason after [])
    ∨ ∃ found after notes, MapRead reader found after
      ∧ read reader = if found = [] then .error (.corrupt after.position .noSymbols) after notes
        else .ok found after notes := by
  have hkeeps := readMap_keeps hreader
  cases hr : readMap reader with
  | error reason after =>
    rw [hr] at hkeeps
    exact .inl ⟨reason, after, hkeeps, read_of_error hr⟩
  | ok words after => exact .inr ⟨_, after, _, mapRead_of_ok hreader hr, read_of_ok hr⟩

theorem read_of_enough (hnone : reader.source.stops = 0)
    (henough : mapLength reader.upcoming ≤ reader.upcoming.length) :
    ∃ found after notes, MapRead reader found after
      ∧ read reader = if found = [] then .error (.corrupt after.position .noSymbols) after notes
        else .ok found after notes := by
  rcases read_cases hreader with ⟨reason, after, hlacks, _⟩ | hread
  · exact absurd (hlacks.short hnone).2 (Nat.not_lt.mpr henough)
  · exact hread

theorem read_of_few (hnone : reader.source.stops = 0)
    (hfew : reader.upcoming.length < mapLength reader.upcoming) :
    ∃ after notes, read reader = .error (.endOfStream after.position) after notes := by
  rcases read_cases hreader with ⟨reason, after, hlacks, hread⟩ | ⟨found, after, _, hmap, _⟩
  · obtain ⟨rfl, _⟩ := hlacks.short hnone
    exact ⟨after, [], hread⟩
  · exact absurd hmap.skips.enough (Nat.not_le.mpr hfew)

/-- Whatever the source does, what is found is all that a map marks. -/
theorem mapRead_of_read {found : List UInt8} {after : BitReader} {notes : List Note}
    (h : read reader = .ok found after notes) : found ≠ [] ∧ MapRead reader found after := by
  rcases read_cases hreader with ⟨reason, _, _, hread⟩ | ⟨marked, stopped, _, hmap, hread⟩
  · cases h.symm.trans hread
  · by_cases hnothing : marked = []
    · rw [if_pos hnothing] at hread
      cases h.symm.trans hread
    · rw [if_neg hnothing] at hread
      cases h.symm.trans hread
      exact ⟨hnothing, hmap⟩

/-- Whatever the source does, a map is refused only if it marks nothing. -/
theorem mapRead_of_noSymbols {place : Nat} {after : BitReader} {notes : List Note}
    (h : read reader = .error (.corrupt place .noSymbols) after notes) :
    place = after.position ∧ MapRead reader [] after := by
  rcases read_cases hreader with ⟨reason, _, hlacks, hread⟩ | ⟨marked, stopped, _, hmap, hread⟩
  · -- what a source fails with is another error
    cases h.symm.trans hread
    rcases hlacks.halted with hend | ⟨error, hio, _⟩
    · cases hend
    · cases hio
  · by_cases hnothing : marked = []
    · rw [if_pos hnothing] at hread
      cases h.symm.trans hread
      rw [hnothing] at hmap
      exact ⟨rfl, hmap⟩
    · rw [if_neg hnothing] at hread
      cases h.symm.trans hread

end Read

/--
**A symbol map is read exactly.** The map that is written for some bytes is read as these bytes, each
of them once and in ascending order. Of any bits, the index and a word for each range that it marks
are read, and what they mark is found; it is refused if that is nothing. Fewer bits than that are the
end of the input. And whatever the source does, nothing else is found, and no map that marks something
is refused.
-/
theorem read_exactly :
    (∀ s : List UInt8, s ≠ [] → ∀ (reader : BitReader) (rest : List Bool), reader.Sound →
      reader.source.stops = 0 → reader.upcoming = writeSymbolMap s ++ rest →
      ∃ found after notes, read reader = .ok found after notes
        ∧ found.Pairwise (· < ·) ∧ (∀ byte, byte ∈ found ↔ byte ∈ s)
        ∧ reader.Passes (writeSymbolMap s) after)
    ∧ (∀ reader : BitReader, reader.Sound → reader.source.stops = 0 →
      (mapLength reader.upcoming ≤ reader.upcoming.length →
        ∃ found after notes, MapRead reader found after
          ∧ read reader = if found = [] then .error (.corrupt after.position .noSymbols) after notes
            else .ok found after notes)
      ∧ (reader.upcoming.length < mapLength reader.upcoming →
        ∃ after notes, read reader = .error (.endOfStream after.position) after notes))
    ∧ ∀ reader : BitReader, reader.Sound → ∀ after notes,
      (∀ found, read reader = .ok found after notes → found ≠ [] ∧ MapRead reader found after)
      ∧ ∀ place, read reader = .error (.corrupt place .noSymbols) after notes →
        place = after.position ∧ MapRead reader [] after := by
  refine ⟨?_, ?_, ?_⟩
  · intro s hs reader rest hreader hnone hupcoming
    exact read_written hreader hs hnone hupcoming
  · intro reader hreader hnone
    exact ⟨read_of_enough hreader hnone, read_of_few hreader hnone⟩
  · intro reader hreader after notes
    exact ⟨fun found => mapRead_of_read hreader, fun place => mapRead_of_noSymbols hreader⟩

/-- The map of a word of five letters and a newline, one that marks a range without values, a cut one. -/
theorem read_exactly_hello :
    (∃ found after notes,
      read (.ofSource (.ofBytes ⟨#[0x82, 0x00, 0x00, 0x20, 0x04, 0x89]⟩)) = .ok found after notes
        ∧ found.Pairwise (· < ·) ∧ (∀ byte, byte ∈ found ↔ byte ∈ [104, 101, 108, 108, 111, 10])
        ∧ after.position = 48 ∧ found ≠ [])
    ∧ (∃ after notes, read (.ofSource (.ofBytes ⟨#[0x80, 0x00, 0x00, 0x00]⟩))
        = .error (.corrupt 32 .noSymbols) after notes)
    ∧ ∃ after notes, read (.ofSource (.ofBytes ⟨#[0xFF, 0xFF, 0x12]⟩))
        = .error (.endOfStream after.position) after notes := by
  obtain ⟨hwritten, hbits, honly⟩ := read_exactly
  refine ⟨?_, ?_, ?_⟩
  · have hreader := BitReader.stands_ofSource ⟨#[0x82, 0x00, 0x00, 0x20, 0x04, 0x89]⟩
    obtain ⟨found, after, notes, hread, hsorted, hmem, hpasses⟩ :=
      hwritten [104, 101, 108, 108, 111, 10] (by decide) _ [] hreader.toSound hreader.smooth.stops
        (hreader.upcoming.trans (by decide))
    have hsome := ((honly _ hreader.toSound after notes).1 found hread).1
    have hposition := hpasses.position
    rw [hreader.position] at hposition
    exact ⟨found, after, notes, hread, hsorted, hmem, hposition, hsome⟩
  · have hreader := BitReader.stands_ofSource ⟨#[0x80, 0x00, 0x00, 0x00]⟩
    obtain ⟨found, after, notes, hmap, hread⟩ := (hbits _ hreader.toSound hreader.smooth.stops).1
      (by rw [hreader.upcoming]; decide)
    -- the only bit that is set is the first one, so no word has any
    have hunset : ∀ i, (bytesBits [0x80, 0x00, 0x00, 0x00])[i]? = some true → i = 0 := by
      intro i hi
      have hlt : i < 32 := (List.getElem?_eq_some_iff.mp hi).1
      revert hi
      exact (by decide : ∀ i < 32, (bytesBits [0x80, 0x00, 0x00, 0x00])[i]? = some true → i = 0) i hlt
    have hnone : found = [] := by
      refine List.eq_nil_iff_forall_not_mem.mpr fun byte hbyte => ?_
      obtain ⟨hrange, hset⟩ := (hmap.mem_iff byte).mp hbyte
      rw [hreader.upcoming] at hrange hset
      rw [hunset _ hrange] at hset
      have hcount : ((bytesBits [0x80, 0x00, 0x00, 0x00]).take (0 + 1)).count true = 1 := by decide
      have hplace := hunset _ hset
      change 16 * ((bytesBits [0x80, 0x00, 0x00, 0x00]).take (0 + 1)).count true + _ = 0 at hplace
      rw [hcount] at hplace
      omega
    have hposition := hmap.skips.passes.position
    rw [hreader.position, hreader.upcoming] at hposition
    rw [hnone, if_pos rfl, hposition] at hread
    exact ⟨after, notes, hread⟩
  · have hreader := BitReader.stands_ofSource ⟨#[0xFF, 0xFF, 0x12]⟩
    exact (hbits _ hreader.toSound hreader.smooth.stops).2 (by rw [hreader.upcoming]; decide)

end SymbolMap

end Bunzip

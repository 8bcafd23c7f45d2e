import Bunzip.GroupCodes
import Bunzip.SymbolMap
import Bunzip.Proofs.BitReader.Safety
import Bunzip.Proofs.MoveToFront

/-!
# Reading the codes of a block is safe

A symbol map names at most 256 byte values. The selectors that are read name one of the codes, and
a codeword stands for a symbol of the alphabet the code was made for.
-/

namespace Bunzip

/-! ## Symbol maps -/

namespace SymbolMap

theorem length_places (word : Nat) : (places word).length ≤ 16 := by
  have h := List.length_filter_le (marked word) (List.range 16)
  rwa [List.length_range] at h

theorem length_valuesIn (ranges words : List Nat) :
    (valuesIn ranges words).length ≤ 16 * ranges.length := by
  induction ranges generalizing words with
  | nil => exact Nat.zero_le _
  | cons range ranges ih =>
    cases words with
    | nil => exact Nat.zero_le _
    | cons word words =>
      have hword := length_places word
      have hwords := ih words
      rw [valuesIn, List.length_append, List.length_map, List.length_cons]
      omega

theorem length_values (words : List Nat) : (values words).length ≤ 256 := by
  cases words with
  | nil => exact Nat.zero_le _
  | cons index words =>
    have hindex := length_places index
    have hwords := length_valuesIn (places index) words
    rw [values, List.length_map]
    omega

theorem safe_readWords (n : Nat) : (readWords n).Safe fun _ => True := by
  induction n with
  | zero => exact .pure trivial
  | succ n ih =>
    exact (BitReader.safe_number (by decide) (by decide)).bind fun _ _ => ih.map fun _ _ => trivial

theorem safe_readMap : readMap.Safe fun _ => True :=
  (BitReader.safe_number (by decide) (by decide)).bind fun _ _ =>
    (safe_readWords _).map fun _ _ => trivial

theorem safe_read :
    Op.Safe BitReader.Sound read fun symbols => symbols ≠ [] ∧ symbols.length ≤ 256 := by
  refine safe_readMap.op.bind fun words _ => (Op.Safe.noteAll _).bind fun _ _ => ?_
  by_cases none : (values words).isEmpty
  · rw [if_pos none]
    exact (Read.Safe.corrupt _).op
  · rw [if_neg none]
    exact .pure ⟨by simpa using none, length_values words⟩

end SymbolMap

/-! ## Prefix codes -/

namespace PrefixCode

/-- A code that has been made of one length for each symbol of an alphabet. -/
def Sound (alphabet : Nat) (code : PrefixCode) : Prop :=
  ∃ lengths, lengths.length = alphabet ∧ ofLengths? lengths = some code

theorem mem_symbolsOfLength {lengths : List Nat} {length : Nat} {symbol : UInt16}
    (h : symbol ∈ symbolsOfLength lengths length) : symbol.toNat < lengths.length := by
  obtain ⟨⟨l, number⟩, hmem, hsome⟩ := List.mem_filterMap.mp h
  have hlt := List.snd_lt_of_mem_zipIdx hmem
  simp only [Option.ite_none_right_eq_some, Option.some.injEq, Nat.add_zero] at hsome hlt
  obtain ⟨_, rfl⟩ := hsome
  rw [UInt16.toNat_ofNat']
  exact Nat.lt_of_le_of_lt (Nat.mod_le _ _) hlt

/-- What a code is that has been made of lengths. -/
theorem ofLengths_spec {lengths : List Nat} {code : PrefixCode}
    (h : ofLengths? lengths = some code) :
    0 < code.minLength ∧ code.minLength ≤ code.maxLength ∧ code.maxLength ≤ longest
      ∧ code.rows = rowsFrom lengths (code.maxLength + 1 - code.minLength) code.minLength 0 0
      ∧ code.symbols = ((List.range' code.minLength (code.maxLength + 1 - code.minLength)).flatMap
          (symbolsOfLength lengths)).toArray := by
  unfold ofLengths? at h
  split at h
  · next minLength maxLength hmin hmax =>
    split at h
    · next hrange =>
      cases h
      obtain ⟨hmem, _⟩ := List.max?_eq_some_iff.mp hmax
      obtain ⟨_, hle⟩ := List.min?_eq_some_iff.mp hmin
      exact ⟨hrange.1, hle _ hmem, hrange.2, rfl, rfl⟩
    · cases h
  · cases h

theorem maxLength_of_lengths {lengths : List Nat} {code : PrefixCode}
    (h : ofLengths? lengths = some code) : lengths.max? = some code.maxLength := by
  unfold ofLengths? at h
  split at h
  · next hmax =>
    split at h
    · cases h
      exact hmax
    · cases h
  · cases h

theorem Sound.symbols {alphabet : Nat} {code : PrefixCode} (h : code.Sound alphabet) :
    ∀ symbol ∈ code.symbols, symbol.toNat < alphabet := by
  obtain ⟨lengths, rfl, hcode⟩ := h
  obtain ⟨_, _, _, _, hsymbols⟩ := ofLengths_spec hcode
  intro symbol hmem
  rw [hsymbols] at hmem
  obtain ⟨length, _, hmem⟩ := List.mem_flatMap.mp (List.mem_toArray.mp hmem)
  exact mem_symbolsOfLength hmem

theorem symbolAt_mem {code : PrefixCode} {place : Int32} {symbol : UInt16}
    (h : code.symbolAt place = some symbol) : symbol ∈ code.symbols := by
  unfold symbolAt at h
  split at h
  · cases h
  · exact Array.mem_of_getElem? h

theorem safe_match? (code : PrefixCode) (rows : List PrefixRow) (codeword : Int32) :
    (code.match? rows codeword).Safe (· ∈ code.symbols) := by
  induction rows generalizing codeword with
  | nil => exact .corrupt _
  | cons row longer ih =>
    unfold match?
    split
    · split
      · next symbol hsymbol => exact .pure (symbolAt_mem hsymbol)
      · exact .corrupt _
    · split
      · exact .corrupt _
      · exact BitReader.safe_bit.bind fun _ _ => ih _

theorem Sound.decode {alphabet : Nat} {code : PrefixCode} (h : code.Sound alphabet) :
    code.decode.Safe fun symbol => symbol.toNat < alphabet := by
  have hsymbols := h.symbols
  obtain ⟨lengths, _, hcode⟩ := h
  obtain ⟨hmin, hle, hmax, _, _⟩ := ofLengths_spec hcode
  simp only [longest] at hmax
  exact (BitReader.safe_bits hmin (by omega)).bind fun codeword _ =>
    (code.safe_match? _ _).weaken hsymbols

end PrefixCode

/-! ## Codes by group -/

namespace GroupCodes

/-- All codes are for the alphabet, and every selector names one of them. -/
structure Sound (alphabet : Nat) (codes : GroupCodes) : Prop where
  tables : ∀ table ∈ codes.tables, table.Sound alphabet
  pending : ∀ selector ∈ codes.pending, selector < codes.tables.size
  current : 0 < codes.groupLeft → codes.current < codes.tables.size

theorem sound_start {alphabet : Nat} {tables : Array PrefixCode} {selectors : List Nat}
    (htables : ∀ table ∈ tables, table.Sound alphabet)
    (hselectors : ∀ selector ∈ selectors, selector < tables.size) :
    (start tables selectors).Sound alphabet :=
  ⟨htables, hselectors, fun h => absurd h (Nat.lt_irrefl 0)⟩

theorem Sound.advance? {alphabet : Nat} {codes after : GroupCodes} (h : codes.Sound alphabet)
    (hturn : codes.advance? = some after) :
    after.Sound alphabet ∧ after.current < after.tables.size := by
  unfold GroupCodes.advance? at hturn
  split at hturn
  · next hinside =>
    cases hturn
    exact ⟨⟨h.tables, h.pending, fun _ => h.current hinside⟩, h.current hinside⟩
  · split at hturn
    · cases hturn
    · next selector pending hpending =>
      cases hturn
      have hselector := h.pending selector (by rw [hpending]; exact List.mem_cons_self)
      refine ⟨⟨h.tables, ?_, fun _ => hselector⟩, hselector⟩
      intro other hother
      exact h.pending other (by rw [hpending]; exact List.mem_cons_of_mem _ hother)

/-- A turn that has been taken has a code to decode with. -/
theorem Sound.decode {alphabet : Nat} {codes : GroupCodes} (h : codes.Sound alphabet)
    (hcurrent : codes.current < codes.tables.size) :
    codes.decode.Safe fun symbol => symbol.toNat < alphabet := by
  rw [GroupCodes.decode, Array.getElem?_eq_getElem hcurrent]
  exact (h.tables _ (Array.getElem_mem hcurrent)).decode

theorem safe_readSelectors {tables : Nat} (n : Nat) {recent : MoveToFront}
    (hrecent : recent.Within tables) {selectors : Array Nat}
    (hselectors : ∀ selector ∈ selectors, selector < tables) :
    (readSelectors tables n recent selectors).Safe fun selectors =>
      ∀ selector ∈ selectors, selector < tables := by
  induction n generalizing recent selectors with
  | zero => exact .pure hselectors
  | succ n ih =>
    refine (BitReader.safe_onesAfter tables 0).bind fun rank _ => ?_
    by_cases high : tables ≤ rank
    · rw [if_pos high]
      exact .corrupt _
    · rw [if_neg high]
      obtain ⟨value, after, hpromote, hvalue, hafter⟩ := hrecent.promote (by omega : rank < tables)
      rw [hpromote]
      refine ih hafter fun selector hmem => ?_
      rcases Array.mem_push.mp hmem with hold | rfl
      · exact hselectors selector hold
      · exact hvalue

theorem safe_settleLength (table symbol : Nat) (length : Int) :
    (settleLength table symbol length).Safe fun length => 0 < length ∧ length ≤ 20 := by
  intro reader hreader
  fun_induction settleLength table symbol length reader with
  | case1 length reader outside => exact ⟨hreader, fun _ => nofun⟩
  | case2 length reader inside reason stopped flagged =>
    exact BitReader.safe_bit.of_error hreader flagged
  | case3 length reader inside settled flagged =>
    refine ⟨(BitReader.safe_bit.of_ok hreader flagged).1, ?_⟩
    simp only [PrefixCode.longest] at inside
    omega
  | case4 length reader inside stepping flagged reason stopped directed =>
    exact BitReader.safe_bit.of_error (BitReader.safe_bit.of_ok hreader flagged).1 directed
  | case5 length reader inside stepping flagged down there directed flag step ih =>
    exact ih (BitReader.safe_bit.of_ok (BitReader.safe_bit.of_ok hreader flagged).1 directed).1

/-- The lengths of a code as far as the format allows them. -/
def Allowed (lengths : Array Nat) : Prop := ∀ length ∈ lengths, 0 < length ∧ length ≤ 20

theorem safe_readLengthsFrom (table count symbol : Nat) (length : Int) {lengths : Array Nat}
    (hlengths : Allowed lengths) :
    (readLengthsFrom table count symbol length lengths).Safe fun all =>
      Allowed all ∧ all.size = lengths.size + count := by
  induction count generalizing symbol length lengths with
  | zero => exact .pure ⟨hlengths, rfl⟩
  | succ count ih =>
    refine (safe_settleLength table symbol length).bind fun settled hsettled => ?_
    have hpush : Allowed (lengths.push settled.toNat) := by
      intro length hmem
      rcases Array.mem_push.mp hmem with hold | rfl
      · exact hlengths length hold
      · omega
    refine (ih (symbol + 1) settled hpush).weaken fun all hall => ⟨hall.1, ?_⟩
    rw [hall.2, Array.size_push]
    omega

theorem safe_readLengths (table alphabet : Nat) :
    (readLengths table alphabet).Safe fun lengths =>
      (∀ length ∈ lengths, 0 < length ∧ length ≤ 20) ∧ lengths.length = alphabet := by
  refine (BitReader.safe_number (by decide) (by decide)).bind fun first _ => ?_
  refine (safe_readLengthsFrom table alphabet 0 first (fun _ h => by simp at h)).map
    fun lengths h => ⟨fun length hmem => h.1 length (Array.mem_toList_iff.mp hmem), ?_⟩
  simpa using h.2

theorem safe_readTable (table alphabet : Nat) :
    Op.Safe BitReader.Sound (readTable table alphabet) (PrefixCode.Sound alphabet) := by
  refine (safe_readLengths table alphabet).op.bind fun lengths hlengths => ?_
  split
  · exact (Read.Safe.corrupt _).op
  · next code hcode =>
    exact Op.Safe.get.bind fun _ _ => (Op.Safe.note _).bind fun _ _ =>
      .pure ⟨lengths, hlengths.2, hcode⟩

theorem safe_readTables (alphabet count table : Nat) {tables : Array PrefixCode}
    (htables : ∀ code ∈ tables, code.Sound alphabet) :
    Op.Safe BitReader.Sound (readTables alphabet count table tables) fun all =>
      (∀ code ∈ all, code.Sound alphabet) ∧ all.size = tables.size + count := by
  induction count generalizing table tables with
  | zero => exact .pure ⟨htables, rfl⟩
  | succ count ih =>
    refine (safe_readTable table alphabet).bind fun code hcode => ?_
    have hpush : ∀ other ∈ tables.push code, other.Sound alphabet := by
      intro other hmem
      rcases Array.mem_push.mp hmem with hold | rfl
      · exact htables other hold
      · exact hcode
    refine (ih (table + 1) hpush).weaken fun all hall => ⟨hall.1, ?_⟩
    rw [hall.2, Array.size_push]
    omega

theorem safe_read (alphabet : Nat) : Op.Safe BitReader.Sound (read alphabet) (Sound alphabet) := by
  refine (BitReader.safe_number (by decide) (by decide)).op.bind fun count _ => ?_
  by_cases bad : count < minTables ∨ maxTables < count
  · rw [if_pos bad]
    exact (Read.Safe.corrupt _).op
  rw [if_neg bad]
  refine (BitReader.safe_number (by decide) (by decide)).op.bind fun selectorCount _ => ?_
  by_cases zero : selectorCount = 0
  · rw [if_pos zero]
    exact (Read.Safe.corrupt _).op
  rw [if_neg zero]
  simp only [minTables, maxTables] at bad
  have hrecent : MoveToFront.start.Within count := MoveToFront.within_start (by omega)
  refine (safe_readSelectors selectorCount hrecent (fun _ h => by simp at h)).op.bind
    fun selectors hselectors => ?_
  refine (safe_readTables alphabet count 0 (fun _ h => by simp at h)).bind fun tables htables =>
    (Op.Safe.note _).bind fun _ _ => ?_
  have hsize : tables.size = count := by simpa using htables.2
  -- so the assertion about the selectors holds
  have hnone : selectors.find? (tables.size ≤ ·) = none := by
    rw [Array.find?_eq_none]
    intro selector hmem
    have := hselectors selector hmem
    simp only [decide_eq_true_eq]
    omega
  rw [hnone]
  refine .pure (sound_start htables.1 fun selector hmem => ?_)
  rw [hsize]
  exact hselectors selector (Array.mem_toList_iff.mp hmem)

end GroupCodes

end Bunzip

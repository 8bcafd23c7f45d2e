import Bunzip.Block.Decoder
import Bunzip.Proofs.Format.Ranks
import Bunzip.Proofs.Format.Tables

/-!
# Symbols are read in the codes of their groups

The symbol with number `i` is written in the code that the selector with number `i / 50` names. The
decoder does not number the symbols: it counts down what is left of a group and takes selectors off
a list, which comes to the same.
-/

namespace Bunzip

namespace Format

/-- The code that a symbol is written in, given its number. -/
def codeFor {used : Nat} (codes : List (WrittenCode used)) (selectors : List Nat) (number : Nat) :
    Option (WrittenCode used) :=
  selectors[number / GroupCodes.groupSize]?.bind (codes[·]?)

/-- Symbols, the first of which has the given number. -/
def writeSymbols {used : Nat} (codes : List (WrittenCode used)) (selectors : List Nat) :
    (number : Nat) → (symbols : List Nat) → List Bool
  | _, [] => []
  | number, symbol :: symbols =>
    (match codeFor codes selectors number with
      | none => []
      | some code => writeCodeword code.lengths symbol)
      ++ writeSymbols codes selectors (number + 1) symbols

end Format

open Format

namespace GroupCodes

/-! ## Turns -/

/-- The symbol with the given number is the next one. -/
structure Before (selectors : List Nat) (number : Nat) (codes : GroupCodes) : Prop where
  pending : codes.pending = selectors.drop ((number + 49) / 50)
  groupLeft : codes.groupLeft = (50 - number % 50) % 50
  current : number % 50 ≠ 0 → selectors[number / 50]? = some codes.current

theorem before_start (tables : Array PrefixCode) (selectors : List Nat) :
    (start tables selectors).Before selectors 0 := ⟨rfl, rfl, fun h => absurd rfl h⟩

/-- A turn goes on to the next symbol, with the code that is selected for this one. -/
theorem Before.advance? {selectors : List Nat} {number selector : Nat} {codes : GroupCodes}
    (h : codes.Before selectors number) (hselector : selectors[number / 50]? = some selector) :
    ∃ after, codes.advance? = some after ∧ after.Before selectors (number + 1)
      ∧ after.tables = codes.tables ∧ after.current = selector := by
  have hleft := h.groupLeft
  -- a new group begins, or the turn is taken inside one
  by_cases hinside : number % 50 = 0
  · -- the first of the selectors left is the one for this number
    obtain ⟨hlt, hget⟩ := List.getElem?_eq_some_iff.mp hselector
    have hpending : codes.pending = selector :: selectors.drop (number / 50 + 1) := by
      rw [h.pending, show (number + 49) / 50 = number / 50 by omega, List.drop_eq_getElem_cons hlt,
        hget]
    refine ⟨{ codes with
      current := selector
      pending := selectors.drop (number / 50 + 1)
      groupLeft := groupSize - 1 }, ?_, ⟨?_, ?_, fun _ => ?_⟩, rfl, rfl⟩
    · rw [GroupCodes.advance?, if_neg (by omega), hpending]
    · simp only
      rw [show (number + 1 + 49) / 50 = number / 50 + 1 by omega]
    · simp only [groupSize]
      omega
    · rw [show (number + 1) / 50 = number / 50 by omega]
      exact hselector
  · have hcurrent : codes.current = selector := by
      have hget := h.current hinside
      rw [hselector] at hget
      cases hget
      rfl
    refine ⟨{ codes with groupLeft := codes.groupLeft - 1 }, ?_, ⟨?_, ?_, fun hmore => ?_⟩, rfl,
      hcurrent⟩
    · rw [GroupCodes.advance?, if_pos (by omega)]
    · simp only
      rw [h.pending, show (number + 1 + 49) / 50 = (number + 49) / 50 by omega]
    · simp only
      omega
    · rw [show (number + 1) / 50 = number / 50 by omega]
      exact h.current hinside

end GroupCodes

namespace BlockDecoder

open Expansion

variable {used : Array UInt8} {written : List (WrittenCode used.size)} {selectors : List Nat}

/-- With its turn taken, a symbol is read in the code of its group. -/
theorem reads_decode (hused : used.size ≤ 256) {symbol selector : Nat}
    (hsymbol : symbol ≤ endSymbol used.size) (hselector : selector < written.length)
    {codes : GroupCodes} (htables : codes.tables = (written.map WrittenCode.code).toArray)
    (hcurrent : codes.current = selector) :
    codes.decode.Reads (writeCodeword written[selector].lengths symbol) (UInt16.ofNat symbol) := by
  have hget : codes.tables[codes.current]? = some written[selector].code := by
    rw [htables, hcurrent, List.getElem?_toArray, List.getElem?_map,
      List.getElem?_eq_getElem hselector]
    rfl
  have hsize := written[selector].size
  simp only [endSymbol] at hsymbol
  rw [GroupCodes.decode, hget]
  exact PrefixCode.reads_decode (by rw [hsize]; omega)
    written[selector].kraft written[selector].ofLengths_code (by omega)

theorem expandFrom_advance (limit : Nat) (used : Array UInt8) {codes next : GroupCodes}
    (hturn : codes.advance? = some next) :
    expandFrom limit used codes = beside next.decode >>= fun symbol =>
      takeIn limit used symbol.toNat >>= fun _ =>
        if symbol.toNat = endSymbol used.size then pure () else expandFrom limit used next := by
  rw [expandFrom]
  split
  · next hnone =>
    rw [hturn] at hnone
    cases hnone
  · next hsome =>
    rw [hturn] at hsome
    cases hsome
    rfl

/-- A symbol that has been read is taken in, and the block goes on unless it was the last one. -/
theorem expandFrom_step (limit : Nat) (used : Array UInt8) {codes next : GroupCodes}
    (hturn : codes.advance? = some next) {symbol : UInt16} {reader after : BitReader}
    (hdecode : next.decode reader = .ok symbol after) (e : Expansion) :
    expandFrom limit used codes (e, reader) = match push limit used symbol.toNat e with
      | .error .overflow e => .error (.corrupt after.position (.blockOverflow limit)) (e, after)
      | .error (.defect what) e => .error (.defect what) (e, after)
      | .ok _ e => if symbol.toNat = endSymbol used.size then .ok () (e, after)
        else expandFrom limit used next (e, after) := by
  rw [expandFrom_advance limit used hturn]
  simp only [Bind.bind, EStateM.bind, beside, takeIn, hdecode]
  cases push limit used symbol.toNat e with
  | error halt e => cases halt <;> rfl
  | ok done e =>
    simp only
    split <;> rfl

/-- The computation reads exactly these bits, and leads from one column to the other. -/
def Expands (x : EStateM DecodeError (Expansion × BitReader) Unit) (e : Expansion)
    (bits : List Bool) (after : Expansion) : Prop :=
  ∀ (reader : BitReader) (rest : List Bool), reader.At (bits ++ rest) →
    ∃ reader', x (e, reader) = .ok () (after, reader') ∧ reader'.At rest

/-- A symbol is read in the code for its number and taken in. -/
theorem expands_turn {limit number symbol : Nat} (hused : used.size ≤ 256)
    (hselectors : ∀ selector ∈ selectors, selector < written.length)
    (hnumber : number / 50 < selectors.length) (hsymbol : symbol ≤ endSymbol used.size)
    {codes : GroupCodes} (hcodes : codes.Before selectors number)
    (htables : codes.tables = (written.map WrittenCode.code).toArray) {e middle : Expansion}
    (hpush : push limit used symbol e = .ok () middle) :
    ∃ next, next.Before selectors (number + 1) ∧ next.tables = codes.tables
      ∧ ∀ (symbols : List Nat) (after : Expansion),
        Expands (if symbol = endSymbol used.size then pure () else expandFrom limit used next)
          middle (writeSymbols written selectors (number + 1) symbols) after →
        Expands (expandFrom limit used codes) e
          (writeSymbols written selectors number (symbol :: symbols)) after := by
  have hselector : selectors[number / 50]? = some selectors[number / 50] :=
    List.getElem?_eq_getElem hnumber
  have htable := hselectors selectors[number / 50] (List.getElem_mem hnumber)
  generalize selectors[number / 50] = selector at *
  obtain ⟨next, hnext, hbefore, hsame, hcurrent⟩ := hcodes.advance? hselector
  refine ⟨next, hbefore, hsame, ?_⟩
  intro symbols after hrest reader rest hat
  have hcode : codeFor written selectors number = some written[selector] := by
    rw [codeFor, GroupCodes.groupSize, hselector, Option.bind_some,
      List.getElem?_eq_getElem htable]
  have htoNat : (UInt16.ofNat symbol).toNat = symbol := by
    simp only [endSymbol] at hsymbol
    rw [UInt16.toNat_ofNat', Nat.mod_eq_of_lt (by omega)]
  rw [writeSymbols, hcode, List.append_assoc] at hat
  obtain ⟨middle', hdecode, hmiddle⟩ :=
    reads_decode hused hsymbol htable (hsame.trans htables) hcurrent reader _ hat
  obtain ⟨reader', hrun, hafter⟩ := hrest middle' rest hmiddle
  refine ⟨reader', ?_, hafter⟩
  rw [expandFrom_step limit used hnext hdecode, htoNat, hpush, ← hrun]
  simp only
  split <;> rfl

/-- **The written symbols are read and taken in one after the other.** -/
theorem expands_expandFrom {limit number : Nat} (hused : used.size ≤ 256)
    (hselectors : ∀ selector ∈ selectors, selector < written.length) {symbols : List Nat}
    (hsymbols : ∀ symbol ∈ symbols, symbol < endSymbol used.size)
    (hmany : number + symbols.length < 50 * selectors.length) {codes : GroupCodes}
    (hcodes : codes.Before selectors number)
    (htables : codes.tables = (written.map WrittenCode.code).toArray) {e after : Expansion}
    (hpush : pushAll limit used (symbols ++ [endSymbol used.size]) e = .ok () after) :
    Expands (expandFrom limit used codes) e
      (writeSymbols written selectors number (symbols ++ [endSymbol used.size])) after := by
  -- on the symbols; each takes one turn, and the last one ends the block
  induction symbols generalizing number codes e with
  | nil =>
    obtain ⟨middle, hmiddle, hend⟩ := pushAll_cons_ok hpush
    cases hend
    obtain ⟨next, _, _, hturn⟩ := expands_turn hused hselectors
      (by rw [List.length_nil] at hmany; omega) (Nat.le_refl _) hcodes htables hmiddle
    refine hturn [] after ?_
    rw [if_pos rfl]
    exact fun reader _ hat => ⟨reader, rfl, hat⟩
  | cons symbol symbols ih =>
    rw [List.length_cons] at hmany
    obtain ⟨middle, hmiddle, hrest⟩ := pushAll_cons_ok hpush
    have hinner := hsymbols symbol List.mem_cons_self
    obtain ⟨next, hbefore, hsame, hturn⟩ := expands_turn hused hselectors (by omega)
      (Nat.le_of_lt hinner) hcodes htables hmiddle
    refine hturn (symbols ++ [endSymbol used.size]) after ?_
    rw [if_neg (Nat.ne_of_lt hinner)]
    exact ih (fun other hmem => hsymbols other (List.mem_cons_of_mem _ hmem)) (by omega) hbefore
      (hsame.trans htables) hrest

end BlockDecoder

end Bunzip

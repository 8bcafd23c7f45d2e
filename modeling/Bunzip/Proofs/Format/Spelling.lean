import Bunzip.Proofs.Block.Safety
import Bunzip.Proofs.Format.Symbols

/-!
# Symbols spell columns, and columns are spelled by symbols

What a row of symbols stands for is said without a decoder: a run of digits in bijective base 2 stands
for so many copies of the byte in front, any other symbol for the byte with its rank, which moves to
the front. Every row of symbols stands for some column, and writing that column gives the row back; so
symbols and columns determine each other.

The decoder gives that column if it is within the limit. If not, it stops at the first symbol with
which the column would be too long, before appending anything.
-/

namespace Bunzip

namespace Format

/-! ## What symbols stand for -/

/-- The number that digits of value one and two stand for, the lowest first. -/
def runValue : List Nat → Nat
  | [] => 0
  | digit :: digits => digit + 1 + 2 * runValue digits

/-- The bytes that symbols stand for, where the next digit of a run counts for `weight`. -/
def spellFrom : (order : List UInt8) → (weight : Nat) → List Nat → List UInt8
  | _, _, [] => []
  | order, weight, symbol :: symbols =>
    if symbol < 2 then
      List.replicate ((symbol + 1) * weight) (order.headD 0) ++ spellFrom order (weight * 2) symbols
    else
      let byte := order.getD (symbol - 1) 0
      byte :: spellFrom (byte :: order.erase byte) 1 symbols

/-- The column that symbols stand for, with these bytes in use. -/
def spell (used : List UInt8) (symbols : List Nat) : List UInt8 := spellFrom used 1 symbols

/-- How many bytes symbols stand for, where the next digit of a run counts for `weight`. -/
def expandedLength : (weight : Nat) → List Nat → Nat
  | _, [] => 0
  | weight, symbol :: symbols =>
    if symbol < 2 then (symbol + 1) * weight + expandedLength (weight * 2) symbols
    else 1 + expandedLength 1 symbols

theorem length_spellFrom (order : List UInt8) (weight : Nat) (symbols : List Nat) :
    (spellFrom order weight symbols).length = expandedLength weight symbols := by
  induction symbols generalizing order weight with
  | nil => rfl
  | cons symbol symbols ih =>
    rw [spellFrom, expandedLength]
    by_cases h : symbol < 2
    · rw [if_pos h, if_pos h, List.length_append, List.length_replicate, ih]
    · rw [if_neg h, if_neg h, List.length_cons, ih, Nat.add_comm]

theorem runValue_snoc (digits : List Nat) (digit : Nat) :
    runValue (digits ++ [digit]) = runValue digits + (digit + 1) * 2 ^ digits.length := by
  induction digits with
  | nil => simp [runValue]
  | cons other digits ih =>
    rw [List.cons_append, runValue, ih, runValue, List.length_cons, Nat.pow_succ]
    ring

/-- A run is written with one row of digits only. -/
theorem runDigitsIn_runValue {digits : List Nat} (h : ∀ digit ∈ digits, digit < 2) {bound : Nat}
    (hbound : runValue digits ≤ bound) : runDigitsIn bound (runValue digits) = digits := by
  induction digits generalizing bound with
  | nil => cases bound <;> rfl
  | cons digit digits ih =>
    rw [runValue] at hbound
    obtain ⟨bound, rfl⟩ : ∃ m, bound = m + 1 := ⟨bound - 1, by omega⟩
    have hrest := ih (fun other hmem => h other (List.mem_cons_of_mem _ hmem))
      (by omega : runValue digits ≤ bound)
    rw [runValue, runDigitsIn, if_neg (by omega)]
    -- the parity of a run tells its first digit
    rcases (by have := h digit List.mem_cons_self; omega : digit = 0 ∨ digit = 1) with rfl | rfl
    · rw [if_pos (by omega), show (0 + 1 + 2 * runValue digits - 1) / 2 = runValue digits by omega, hrest]
    · rw [if_neg (by omega), show (1 + 1 + 2 * runValue digits - 2) / 2 = runValue digits by omega, hrest]

/-- Copies of the byte in front make the run longer. -/
theorem symbolsFrom_replicate (front : UInt8) (order : List UInt8) (zeros n : Nat)
    (bytes : List UInt8) :
    symbolsFrom (front :: order) zeros (List.replicate n front ++ bytes)
      = symbolsFrom (front :: order) (zeros + n) bytes := by
  induction n generalizing zeros with
  | zero => rfl
  | succ n ih =>
    rw [List.replicate_succ, List.cons_append, symbolsFrom, if_pos List.idxOf_cons_self, ih]
    congr 1
    omega

/-- The byte with a rank, and its move to the front. -/
theorem exists_ranked {order : List UInt8} (hnodup : order.Nodup) {rank : Nat}
    (hrank : rank < order.length) :
    ∃ byte, order.getD rank 0 = byte ∧ byte ∈ order ∧ order.idxOf byte = rank
      ∧ (byte :: order.erase byte).Perm order := by
  refine ⟨order[rank], List.getD_eq_getElem _ _ hrank, List.getElem_mem hrank,
    hnodup.idxOf_getElem rank hrank, (List.perm_cons_erase (List.getElem_mem hrank)).symm⟩

/-- **Writing what symbols stand for gives the symbols back.** -/
theorem symbolsFrom_spellFrom {front : UInt8} {order : List UInt8} (hnodup : (front :: order).Nodup)
    {digits : List Nat} (hdigits : ∀ digit ∈ digits, digit < 2) {symbols : List Nat}
    (hsymbols : ∀ symbol ∈ symbols, symbol < Expansion.endSymbol (front :: order).length) :
    symbolsFrom (front :: order) (runValue digits)
        (spellFrom (front :: order) (2 ^ digits.length) symbols)
      = digits ++ symbols := by
  -- on the symbols; the digits are those of the run that they continue
  induction symbols generalizing front order digits with
  | nil =>
    rw [spellFrom, symbolsFrom, runDigits, runDigitsIn_runValue hdigits (Nat.le_refl _),
      List.append_nil]
  | cons symbol symbols ih =>
    have hsymbol := hsymbols symbol List.mem_cons_self
    have hlater := fun other hmem => hsymbols other (List.mem_cons_of_mem symbol hmem)
    rw [spellFrom]
    by_cases hdigit : symbol < 2
    · have hmore : ∀ digit ∈ digits ++ [symbol], digit < 2 := by
        intro digit hmem
        rcases List.mem_append.mp hmem with hmem | hmem
        · exact hdigits digit hmem
        · rw [List.mem_singleton.mp hmem]
          exact hdigit
      have hrest := ih hnodup hmore hlater
      rw [runValue_snoc, List.length_append, List.length_singleton, Nat.pow_succ] at hrest
      rw [if_pos hdigit, List.headD_cons, symbolsFrom_replicate, hrest, List.append_assoc]
      rfl
    · simp only [Expansion.endSymbol] at hsymbol
      obtain ⟨byte, hget, _, hrank, hperm⟩ := exists_ranked hnodup
        (by omega : symbol - 1 < (front :: order).length)
      have hnone : ∀ digit ∈ ([] : List Nat), digit < 2 := List.forall_mem_nil _
      have hrest := ih (hperm.nodup_iff.mpr hnodup) hnone (by rw [hperm.length_eq]; exact hlater)
      rw [List.length_nil, Nat.pow_zero, runValue, List.nil_append] at hrest
      rw [if_neg hdigit]
      simp only [hget]
      rw [symbolsFrom, if_neg (by omega), hrank, hrest, runDigits,
        runDigitsIn_runValue hdigits (Nat.le_refl _), show symbol - 1 + 1 = symbol by omega]

/-- A column of the bytes that symbols stand for is written with these symbols. -/
theorem encodeColumn_spell {used : List UInt8} (hsome : used ≠ []) (hnodup : used.Nodup)
    {symbols : List Nat}
    (hsymbols : ∀ symbol ∈ symbols, symbol < Expansion.endSymbol used.length) :
    encodeColumn used (spell used symbols) = symbols ++ [Expansion.endSymbol used.length] := by
  obtain ⟨front, order, rfl⟩ := List.exists_cons_of_ne_nil hsome
  have hnone : ∀ digit ∈ ([] : List Nat), digit < 2 := List.forall_mem_nil _
  have h := symbolsFrom_spellFrom hnodup hnone hsymbols
  rw [encodeColumn, spell]
  exact congrArg (· ++ [Expansion.endSymbol (front :: order).length]) h

example : spell [97, 98, 110] [3, 0, 3, 3, 1] = [110, 110, 98, 97, 97, 97] := by decide

end Format

open Format

namespace Expansion

/-! ## Expanding up to the limit -/

variable {limit symbol : Nat} {used : Array UInt8} {front : UInt8} {order done : List UInt8}
  {e : Expansion}

theorem push_digit_over (h : e.Sound limit used.size) (hlimit : limit < 2 ^ 24) (hsymbol : symbol < 2)
    (hover : limit < e.run + e.weight * 2 ^ symbol) :
    push limit used symbol e = .error .overflow e := by
  have hfine := h.digit hlimit hsymbol
  rw [push_digit_eq hsymbol]
  simp only [step, Expansion.digit, Nat.shiftLeft_eq] at hfine ⊢
  split at hfine
  · cases hfine
  · next hfew => rw [if_neg hfew, if_pos hover]

theorem Follows.settle_over (h : Follows limit used order done e)
    (hover : limit < done.length + e.run) : Expansion.settle limit used e = .error .overflow := by
  have hsize : e.column.size = done.length := by rw [ByteString.size_eq_length, h.done]
  have hcolumn := h.column
  rw [Expansion.settle, if_neg (by omega), if_pos (by omega)]

/-- The symbol for a rank is not taken in if there is no room behind the run before it. -/
theorem Follows.push_rank_over (h : Follows limit used (front :: order) done e)
    (hlimit : limit < 2 ^ 24) (hused : used.size = (front :: order).length)
    (hunit : e.run = 0 → e.weight = 1) (hlow : ¬symbol < 2) (hhigh : symbol < endSymbol used.size)
    (hover : limit ≤ done.length + e.run) :
    ∃ after, push limit used symbol e = .error .overflow after := by
  rw [push_rank_eq hlow]
  rcases Nat.lt_or_ge limit (done.length + e.run) with hrun | hfull
  · rw [h.settle_over hrun]
    exact ⟨e, rfl⟩
  · obtain ⟨settled, hsettle, hsettled⟩ := h.settle hlimit hused hunit hfull
    have hsize : settled.column.size = done.length + e.run := by
      rw [ByteString.size_eq_length, hsettled.done, List.length_append, List.length_replicate]
    rw [hsettle]
    simp only [if_neg (Nat.ne_of_lt hhigh), step]
    rw [Expansion.literal, if_pos (by omega)]
    exact ⟨settled, rfl⟩

theorem Follows.push_end_over (h : Follows limit used (front :: order) done e)
    (hused : used.size = (front :: order).length) (hover : limit < done.length + e.run) :
    push limit used (endSymbol used.size) e = .error .overflow e := by
  have hlarge : ¬endSymbol used.size < 2 := by
    rw [hused, endSymbol, List.length_cons]
    omega
  rw [push_rank_eq hlarge, h.settle_over hover]

/--
What comes of the symbols of a block: the column that they stand for, behind what has been appended and
counted before, or an overflow if that is too long.
-/
theorem Follows.pushAll_spellFrom (h : Follows limit used (front :: order) done e)
    (hlimit : limit < 2 ^ 24) (hused : used.size = (front :: order).length)
    (hnodup : (front :: order).Nodup) (hpositive : 0 < e.weight) (hunit : e.run = 0 → e.weight = 1)
    {symbols : List Nat} (hsymbols : ∀ symbol ∈ symbols, symbol < endSymbol used.size) :
    if done.length + e.run + expandedLength e.weight symbols ≤ limit then
      ∃ after, pushAll limit used (symbols ++ [endSymbol used.size]) e = .ok () after
        ∧ after.Sound limit used.size
        ∧ after.column.data.toList = done ++ (List.replicate e.run front
          ++ spellFrom (front :: order) e.weight symbols)
    else ∃ after, pushAll limit used (symbols ++ [endSymbol used.size]) e
      = .error .overflow after := by
  induction symbols generalizing front order done e with
  | nil =>
    rw [expandedLength, Nat.add_zero, List.nil_append]
    split
    · next hfits =>
      obtain ⟨after, hpush, hsettled⟩ := h.push_end hlimit hused hunit hfits
      refine ⟨after, pushAll_cons hpush [], hsettled.toSound, ?_⟩
      rw [hsettled.done, spellFrom, List.append_nil]
    · exact ⟨e, pushAll_cons_error (h.push_end_over hused (by omega)) []⟩
  | cons symbol symbols ih =>
    have hsymbol := hsymbols symbol List.mem_cons_self
    have hlater := fun other hmem => hsymbols other (List.mem_cons_of_mem symbol hmem)
    rw [expandedLength, spellFrom, List.cons_append]
    by_cases hdigit : symbol < 2
    · have hvalue : (symbol + 1) * e.weight = e.weight * 2 ^ symbol := by
        rcases (by omega : symbol = 0 ∨ symbol = 1) with rfl | rfl <;> omega
      rw [if_pos hdigit, if_pos hdigit, hvalue, List.headD_cons]
      rcases Nat.lt_or_ge limit (e.run + e.weight * 2 ^ symbol) with hover | hfits
      · -- the run alone is too long already
        rw [if_neg (by omega)]
        exact ⟨e, pushAll_cons_error (push_digit_over h.toSound hlimit hdigit hover) _⟩
      · have hpush : push limit used symbol e = _ := push_digit hlimit hdigit hfits
        have hused' : 0 < used.size := by rw [hused]; exact Nat.succ_pos _
        have hsound := h.toSound.push hlimit hused' (by omega : symbol < used.size + 2)
        rw [hpush] at hsound
        have hrest := ih (e := { e with
            run := e.run + e.weight * 2 ^ symbol
            weight := e.weight * 2 })
          ⟨hsound, h.tracks, h.done⟩ hused hnodup (by simp only; omega)
          (by have := Nat.two_pow_pos symbol; have := Nat.mul_pos hpositive this; simp only; omega) hlater
        simp only [List.replicate_add, List.append_assoc] at hrest
        rw [pushAll_cons hpush]
        simp only [Nat.add_assoc] at hrest ⊢
        exact hrest
    · have hrank : symbol - 1 < (front :: order).length := by
        rw [hused] at hsymbol
        simp only [endSymbol] at hsymbol
        omega
      obtain ⟨byte, hget, hbyte, hidx, hperm⟩ := exists_ranked hnodup hrank
      rw [if_neg hdigit, if_neg hdigit]
      simp only [hget]
      rcases Nat.lt_or_ge (done.length + e.run) limit with hroom | hfull
      · obtain ⟨middle, hpush, hsettled⟩ :=
          h.push_rank hlimit hused hunit hroom hbyte (by omega : (front :: order).idxOf byte ≠ 0)
        rw [hidx, show symbol - 1 + 1 = symbol by omega] at hpush
        have hrest := ih hsettled.toFollows (by rw [hperm.length_eq]; exact hused)
          (hperm.nodup_iff.mpr hnodup) (by rw [hsettled.unit]; exact Nat.one_pos)
          (fun _ => hsettled.unit) hlater
        rw [hsettled.noRun, hsettled.unit, List.length_append, List.length_append,
          List.length_replicate, List.length_singleton] at hrest
        rw [pushAll_cons hpush]
        simpa only [Nat.add_assoc, Nat.zero_add, List.replicate_zero, List.nil_append,
          List.append_assoc, List.singleton_append] using hrest
      · obtain ⟨after, hpush⟩ := h.push_rank_over hlimit hused hunit hdigit hsymbol hfull
        rw [if_neg (by omega)]
        exact ⟨after, pushAll_cons_error hpush _⟩

/-- However far the symbols get, the column is within the limit. -/
theorem Sound.pushAll (h : e.Sound limit used.size) (hlimit : limit < 2 ^ 24) (hused : 0 < used.size)
    {symbols : List Nat} (hsymbols : ∀ symbol ∈ symbols, symbol < used.size + 2) :
    Taken limit used.size (pushAll limit used symbols e) := by
  induction symbols generalizing e with
  | nil => exact h
  | cons symbol symbols ih =>
    have hpush := h.push hlimit hused (hsymbols symbol List.mem_cons_self)
    cases hp : Expansion.push limit used symbol e with
    | error halt after =>
      rw [pushAll_cons_error hp]
      rw [hp] at hpush
      exact hpush
    | ok done middle =>
      rw [pushAll_cons hp]
      rw [hp] at hpush
      exact ih hpush fun other hmem => hsymbols other (List.mem_cons_of_mem _ hmem)

/-- A histogram that counts the bytes of a column is the histogram of the column. -/
theorem Sound.counts_eq (h : e.Sound limit used.size) : e.counts = Histogram.ofBytes e.column := by
  have hcounts : e.counts.counts.toList = (Histogram.ofBytes e.column).counts.toList := by
    rw [Histogram.counts_eq_map, Histogram.counts_eq_map]
    apply List.map_congr_left
    intro byte _
    rw [h.counts, Histogram.count_ofBytes]
  cases hc : e.counts with
  | mk counts =>
    cases ho : Histogram.ofBytes e.column with
    | mk others =>
      rw [hc, ho] at hcounts
      exact congrArg Histogram.mk (Vector.toList_inj.mp hcounts)

end Expansion

/-! ## Symbols as they are decoded -/

/-- Decodes the next `n` symbols. -/
def GroupCodes.nextMany : Nat → EStateM DecodeError (GroupCodes × BitReader) (List Nat)
  | 0 => pure []
  | n + 1 => do
    let symbol ← next
    let later ← nextMany n
    return symbol.toNat :: later

theorem GroupCodes.next_ok {symbol : UInt16} {codes after : GroupCodes} {reader stopped : BitReader}
    (h : next (codes, reader) = .ok symbol (after, stopped)) :
    codes.advance? = some after ∧ after.decode reader = .ok symbol stopped := by
  unfold next at h
  cases hturn : codes.advance? with
  | none =>
    simp only [hturn] at h
    cases h
  | some turned =>
    simp only [hturn] at h
    cases hdecode : turned.decode reader with
    | error reason middle =>
      rw [hdecode] at h
      cases h
    | ok word middle =>
      rw [hdecode] at h
      cases h
      exact ⟨rfl, hdecode⟩

/-- These symbols are decoded one after the other. -/
def GroupCodes.Supplies (symbols : List Nat) (start after : GroupCodes × BitReader) : Prop :=
  nextMany symbols.length start = .ok symbols after

/-- The first of the symbols is decoded, and then the others. -/
theorem GroupCodes.Supplies.cons {number : Nat} {symbols : List Nat}
    {start after : GroupCodes × BitReader} (h : Supplies (number :: symbols) start after) :
    ∃ (symbol : UInt16) (middle : GroupCodes × BitReader),
      symbol.toNat = number ∧ next start = .ok symbol middle ∧ Supplies symbols middle after := by
  simp only [Supplies, List.length_cons, nextMany, Bind.bind, EStateM.bind] at h
  cases hnext : next start with
  | error reason stopped =>
    rw [hnext] at h
    cases h
  | ok symbol middle =>
    rw [hnext] at h
    simp only at h
    cases hlater : nextMany symbols.length middle with
    | error reason stopped =>
      rw [hlater] at h
      cases h
    | ok later last =>
      rw [hlater] at h
      cases h
      exact ⟨symbol, middle, rfl, rfl, hlater⟩

theorem GroupCodes.supplies_cons {symbol : UInt16} {symbols : List Nat}
    {start middle after : GroupCodes × BitReader} (hnext : next start = .ok symbol middle)
    (hlater : Supplies symbols middle after) : Supplies (symbol.toNat :: symbols) start after := by
  unfold Supplies at hlater ⊢
  simp only [List.length_cons, nextMany, Bind.bind, EStateM.bind, hnext, hlater]
  rfl

namespace BlockDecoder

open Expansion

variable {limit : Nat} {used : Array UInt8} {codes codes' : GroupCodes} {reader reader' : BitReader}

/-- The symbols of a block are decoded and taken in by turns. -/
theorem expandFrom_supplied (limit : Nat) (used : Array UInt8) {symbols : List Nat}
    (hsymbols : ∀ symbol ∈ symbols, symbol < endSymbol used.size)
    (hsupplies : GroupCodes.Supplies (symbols ++ [endSymbol used.size]) (codes, reader)
      (codes', reader')) (e : Expansion) :
    match pushAll limit used (symbols ++ [endSymbol used.size]) e with
    | .ok _ after => expandFrom limit used codes (e, reader) = .ok () (after, reader')
    | .error .overflow after => ∃ first codes'' stopped, first <+: symbols ++ [endSymbol used.size]
        ∧ GroupCodes.Supplies first (codes, reader) (codes'', stopped)
        ∧ expandFrom limit used codes (e, reader)
          = .error (.corrupt stopped.position (.blockOverflow limit)) (after, stopped)
    | .error (.defect _) _ => True := by
  -- on the symbols; every one of them takes one turn
  induction symbols generalizing codes reader e with
  | nil =>
    obtain ⟨symbol, ⟨codes₁, reader₁⟩, hsymbol, hfirst, hlater⟩ := hsupplies.cons
    cases hlater
    obtain ⟨hturn, hdecode⟩ := GroupCodes.next_ok hfirst
    have hstep := expandFrom_step limit used hturn hdecode e
    rw [hsymbol] at hstep
    rw [List.nil_append]
    cases hpush : push limit used (endSymbol used.size) e with
    | error halt after =>
      rw [hpush] at hstep
      rw [pushAll_cons_error hpush]
      cases halt with
      | overflow => exact ⟨_, codes', reader', List.prefix_refl _, hsupplies, hstep⟩
      | defect what => trivial
    | ok done after =>
      rw [hpush] at hstep
      rw [pushAll_cons hpush]
      exact hstep.trans (if_pos rfl)
  | cons number symbols ih =>
    obtain ⟨symbol, ⟨codes₁, reader₁⟩, rfl, hfirst, hlater⟩ := hsupplies.cons
    have hinner := hsymbols symbol.toNat List.mem_cons_self
    obtain ⟨hturn, hdecode⟩ := GroupCodes.next_ok hfirst
    have hstep := expandFrom_step limit used hturn hdecode e
    rw [List.cons_append]
    cases hpush : push limit used symbol.toNat e with
    | error halt after =>
      rw [hpush] at hstep
      rw [pushAll_cons_error hpush]
      cases halt with
      | overflow =>
        exact ⟨[symbol.toNat], codes₁, reader₁, List.prefix_append [symbol.toNat] _,
          GroupCodes.supplies_cons hfirst rfl, hstep⟩
      | defect what => trivial
    | ok done middle =>
      rw [hpush] at hstep
      simp only [if_neg (Nat.ne_of_lt hinner)] at hstep
      have hrest := ih (fun other hmem => hsymbols other (List.mem_cons_of_mem _ hmem)) hlater middle
      rw [pushAll_cons hpush, hstep]
      cases hall : pushAll limit used (symbols ++ [endSymbol used.size]) middle with
      | error halt after =>
        rw [hall] at hrest
        cases halt with
        | overflow =>
          obtain ⟨first, codes₂, stopped, hfront, hmany, hrun⟩ := hrest
          exact ⟨symbol.toNat :: first, codes₂, stopped,
            (List.prefix_cons_inj symbol.toNat).mpr hfront, GroupCodes.supplies_cons hfirst hmany,
            hrun⟩
        | defect what => trivial
      | ok done after =>
        rw [hall] at hrest
        exact hrest

/-! ## Exact expansion -/

/-- What a decoder makes of the symbols of a block with these bytes in use, and what of columns. -/
structure ExpandsExactly (decoder : BlockDecoder) (used : List UInt8) : Prop where
  /-- How long the column is that symbols stand for can be told without spelling it. -/
  length : ∀ symbols : List Nat, (spell used symbols).length = expandedLength 1 symbols
  /-- However far the symbols get, and whether they are taken in or not: the column is no longer. -/
  within : ∀ symbols : List Nat, (∀ symbol ∈ symbols, symbol < used.length + 2) →
    match pushAll decoder.maxLength used.toArray symbols .start with
    | .ok _ e => e.column.size ≤ decoder.maxLength
    | .error _ e => e.column.size ≤ decoder.maxLength
  /-- If the column that they stand for is not too long, it is what the block contains. -/
  fits : ∀ (symbols : List Nat) (codes codes' : GroupCodes) (reader reader' : BitReader),
    (∀ symbol ∈ symbols, symbol < endSymbol used.length) →
    GroupCodes.Supplies (symbols ++ [endSymbol used.length]) (codes, reader) (codes', reader') →
    expandedLength 1 symbols ≤ decoder.maxLength →
    ∃ after, (expand used.toArray codes (decoder, reader)).result = .ok after.expansion
      ∧ (expand used.toArray codes (decoder, reader)).state = (after, reader')
      ∧ after.column.data.toList = spell used symbols ∧ after.counts = .ofBytes after.column
      ∧ encodeColumn used after.column.data.toList = symbols ++ [endSymbol used.length]
  /-- If it is too long, the block fails at one of them, and says what the limit is. -/
  overflows : ∀ (symbols : List Nat) (codes codes' : GroupCodes) (reader reader' : BitReader),
    (∀ symbol ∈ symbols, symbol < endSymbol used.length) →
    GroupCodes.Supplies (symbols ++ [endSymbol used.length]) (codes, reader) (codes', reader') →
    decoder.maxLength < expandedLength 1 symbols →
    ∃ first codes'' stopped after, first <+: symbols ++ [endSymbol used.length]
      ∧ GroupCodes.Supplies first (codes, reader) (codes'', stopped)
      ∧ (expand used.toArray codes (decoder, reader)).result
        = .error (.corrupt stopped.position (.blockOverflow decoder.maxLength))
      ∧ (expand used.toArray codes (decoder, reader)).state = (after, stopped)
      ∧ after.column.size ≤ decoder.maxLength
  /-- Every column of these bytes that is not too long is expanded from the symbols written for it. -/
  columns : ∀ (column : List UInt8) (codes codes' : GroupCodes) (reader reader' : BitReader),
    (∀ byte ∈ column, byte ∈ used) → column.length ≤ decoder.maxLength →
    GroupCodes.Supplies (encodeColumn used column) (codes, reader) (codes', reader') →
    ∃ after, (expand used.toArray codes (decoder, reader)).result = .ok after.expansion
      ∧ (expand used.toArray codes (decoder, reader)).state = (after, reader')
      ∧ after.column.data.toList = column

theorem nodup_of_sorted {used : List UInt8} (h : used.Pairwise (· < ·)) : used.Nodup := by
  refine h.imp fun hlt heq => ?_
  rw [heq] at hlt
  exact UInt8.lt_irrefl _ hlt

/-- There are no more distinct bytes than all of them. -/
theorem length_le_of_nodup {used : List UInt8} (h : used.Nodup) : used.length ≤ 256 := by
  have hlength : Histogram.allBytes.length = 256 := by
    rw [Histogram.allBytes, List.length_map, List.length_range]
  rw [← hlength]
  exact (h.subperm fun byte _ => Histogram.mem_allBytes byte).length_le

section

variable {decoder : BlockDecoder} {used : List UInt8} {symbols : List Nat}
  {codes codes' : GroupCodes} {reader reader' : BitReader}

/-- What has been expanded is within the limit, wherever the symbols are left off. -/
theorem taken_pushAll (hlimit : decoder.maxLength < 2 ^ 24) (hsome : used ≠ []) (hnodup : used.Nodup)
    (hsymbols : ∀ symbol ∈ symbols, symbol < used.length + 2) :
    Taken decoder.maxLength used.length (pushAll decoder.maxLength used.toArray symbols .start) :=
  (settled_start decoder.maxLength (length_le_of_nodup hnodup)).toSound.pushAll hlimit
    (List.length_pos_iff.mpr hsome) hsymbols

/-- The symbols of a block spell their column, or run past the limit. -/
theorem pushAll_spell (hlimit : decoder.maxLength < 2 ^ 24) (hsome : used ≠ []) (hnodup : used.Nodup)
    (hsymbols : ∀ symbol ∈ symbols, symbol < endSymbol used.length) :
    if expandedLength 1 symbols ≤ decoder.maxLength then
      ∃ after, pushAll decoder.maxLength used.toArray (symbols ++ [endSymbol used.length]) .start
          = .ok () after
        ∧ after.Sound decoder.maxLength used.length
        ∧ after.column.data.toList = spell used symbols
    else ∃ after, pushAll decoder.maxLength used.toArray (symbols ++ [endSymbol used.length])
      .start = .error .overflow after := by
  have hstart := settled_start decoder.maxLength (length_le_of_nodup hnodup)
  obtain ⟨front, order, rfl⟩ := List.exists_cons_of_ne_nil hsome
  have hall := hstart.pushAll_spellFrom hlimit rfl hnodup Nat.one_pos (fun _ => rfl) hsymbols
  rw [hstart.noRun, hstart.unit, List.length_nil, Nat.add_zero, Nat.zero_add] at hall
  exact hall

theorem expand_of_fits (hlimit : decoder.maxLength < 2 ^ 24) (hsome : used ≠ []) (hnodup : used.Nodup)
    (hsymbols : ∀ symbol ∈ symbols, symbol < endSymbol used.length)
    (hsupplies : GroupCodes.Supplies (symbols ++ [endSymbol used.length]) (codes, reader)
      (codes', reader'))
    (hfits : expandedLength 1 symbols ≤ decoder.maxLength) :
    ∃ after, (expand used.toArray codes (decoder, reader)).result = .ok after.expansion
      ∧ (expand used.toArray codes (decoder, reader)).state = (after, reader')
      ∧ after.column.data.toList = spell used symbols ∧ after.counts = .ofBytes after.column
      ∧ encodeColumn used after.column.data.toList = symbols ++ [endSymbol used.length] := by
  have hall := pushAll_spell hlimit hsome hnodup hsymbols
  rw [if_pos hfits] at hall
  obtain ⟨e, hpush, hsound, hcolumn⟩ := hall
  have hrun := expandFrom_supplied decoder.maxLength used.toArray hsymbols hsupplies .start
  rw [List.size_toArray, hpush] at hrun
  rw [expand_eq, hrun]
  refine ⟨_, rfl, rfl, hcolumn, hsound.counts_eq, ?_⟩
  rw [hcolumn, encodeColumn_spell hsome hnodup hsymbols]

theorem expand_of_over (hlimit : decoder.maxLength < 2 ^ 24) (hsome : used ≠ []) (hnodup : used.Nodup)
    (hsymbols : ∀ symbol ∈ symbols, symbol < endSymbol used.length)
    (hsupplies : GroupCodes.Supplies (symbols ++ [endSymbol used.length]) (codes, reader)
      (codes', reader'))
    (hover : decoder.maxLength < expandedLength 1 symbols) :
    ∃ first codes'' stopped after, first <+: symbols ++ [endSymbol used.length]
      ∧ GroupCodes.Supplies first (codes, reader) (codes'', stopped)
      ∧ (expand used.toArray codes (decoder, reader)).result
        = .error (.corrupt stopped.position (.blockOverflow decoder.maxLength))
      ∧ (expand used.toArray codes (decoder, reader)).state = (after, stopped)
      ∧ after.column.size ≤ decoder.maxLength := by
  have hall := pushAll_spell hlimit hsome hnodup hsymbols
  rw [if_neg (by omega)] at hall
  obtain ⟨e, hpush⟩ := hall
  have hbounds : ∀ symbol ∈ symbols ++ [endSymbol used.length], symbol < used.length + 2 := by
    intro symbol hmem
    simp only [endSymbol] at hsymbols hmem
    rcases List.mem_append.mp hmem with hmem | hmem
    · have := hsymbols symbol hmem
      omega
    · rw [List.mem_singleton.mp hmem]
      omega
  have htaken := taken_pushAll hlimit hsome hnodup hbounds
  rw [hpush] at htaken
  have hrun := expandFrom_supplied decoder.maxLength used.toArray hsymbols hsupplies .start
  rw [List.size_toArray, hpush] at hrun
  obtain ⟨first, codes'', stopped, hfront, hmany, hrun⟩ := hrun
  rw [expand_eq, hrun]
  exact ⟨first, codes'', stopped, _, hfront, hmany, rfl, rfl, htaken.2.column⟩

theorem expand_encodeColumn (hlimit : decoder.maxLength < 2 ^ 24) (hsome : used ≠ [])
    (hnodup : used.Nodup) {column : List UInt8} (hcolumn : ∀ byte ∈ column, byte ∈ used)
    (hfits : column.length ≤ decoder.maxLength)
    (hsupplies : GroupCodes.Supplies (encodeColumn used column) (codes, reader) (codes', reader')) :
    ∃ after, (expand used.toArray codes (decoder, reader)).result = .ok after.expansion
      ∧ (expand used.toArray codes (decoder, reader)).state = (after, reader')
      ∧ after.column.data.toList = column := by
  have hsymbols : ∀ symbol ∈ symbolsFrom used 0 column, symbol < endSymbol used.length :=
    fun symbol hmem => lt_of_mem_symbolsFrom hcolumn (List.length_pos_iff.mpr hsome) hmem
  obtain ⟨e, hpush, _, hafter⟩ :=
    pushAll_encodeColumn hlimit (length_le_of_nodup hnodup) hsome hcolumn hfits
  have hrun := expandFrom_supplied decoder.maxLength used.toArray hsymbols hsupplies .start
  rw [List.size_toArray] at hrun
  rw [encodeColumn] at hpush
  rw [hpush] at hrun
  rw [expand_eq, hrun]
  exact ⟨_, rfl, rfl, hafter⟩

end

/--
**Symbols and columns within the limit determine each other.** The symbols of a block are expanded to
the column that they stand for if it fits, and fail with an overflow if not; what is written for a
column is expanded to the column. It does not matter what the decoder has expanded before.
-/
theorem expandsExactly {decoder : BlockDecoder} (hlimit : decoder.maxLength < 2 ^ 24)
    {used : List UInt8} (hsome : used ≠ []) (hsorted : used.Pairwise (· < ·)) :
    ExpandsExactly decoder used := by
  have hnodup := nodup_of_sorted hsorted
  refine ⟨length_spellFrom used 1, ?_, ?_, ?_, ?_⟩
  · intro symbols hsymbols
    have htaken := taken_pushAll hlimit hsome hnodup hsymbols
    cases hp : pushAll decoder.maxLength used.toArray symbols .start with
    | ok done e =>
      rw [hp] at htaken
      exact htaken.column
    | error halt e =>
      rw [hp] at htaken
      exact htaken.2.column
  · intro symbols codes codes' reader reader' hsymbols hsupplies hfits
    exact expand_of_fits hlimit hsome hnodup hsymbols hsupplies hfits
  · intro symbols codes codes' reader reader' hsymbols hsupplies hover
    exact expand_of_over hlimit hsome hnodup hsymbols hsupplies hover
  · intro column codes codes' reader reader' hcolumn hfits hsupplies
    exact expand_encodeColumn hlimit hsome hnodup hcolumn hfits hsupplies

/-- Two bytes in use, and a code of two bits for each of the four symbols. -/
def fourSymbols : GroupCodes := .start #[⟨2, 2, [⟨3, 0⟩], #[0, 1, 2, 3]⟩] [0]

theorem supplies_fourSymbols : ∃ after,
    GroupCodes.Supplies [1, 2, 3] (fourSymbols, .ofSource ⟨[.bytes ⟨#[0x6C]⟩]⟩) after := by
  have hdecoded : (match GroupCodes.nextMany 3 (fourSymbols, .ofSource ⟨[.bytes ⟨#[0x6C]⟩]⟩) with
      | .ok symbols _ => symbols == [1, 2, 3]
      | .error _ _ => false) = true := by decide +kernel
  unfold GroupCodes.Supplies
  cases hmany : GroupCodes.nextMany 3 (fourSymbols, .ofSource ⟨[.bytes ⟨#[0x6C]⟩]⟩) with
  | error reason stopped =>
    rw [hmany] at hdecoded
    cases hdecoded
  | ok symbols after =>
    rw [hmany] at hdecoded
    exact ⟨after, by rw [beq_iff_eq.mp hdecoded]⟩

theorem expandsExactly_aab :
    ∃ after rest, (expand #[97, 98] fourSymbols
        (.ofDigit 1, .ofSource ⟨[.bytes ⟨#[0x6C]⟩]⟩)).state = (after, rest)
      ∧ after.column.data.toList = [97, 97, 98] := by
  have hexact := expandsExactly (by decide : (ofDigit 1).maxLength < 2 ^ 24)
    (List.cons_ne_nil (97 : UInt8) [98]) (by decide)
  obtain ⟨⟨codes, rest⟩, hsupplies⟩ := supplies_fourSymbols
  obtain ⟨after, _, hstate, hcolumn⟩ := hexact.columns [97, 97, 98] fourSymbols codes _ rest
    (by simp) (by decide) hsupplies
  exact ⟨after, rest, hstate, hcolumn⟩

end BlockDecoder

end Bunzip

import Bunzip.Proofs.Block.Expansion

/-!
# Ranks and runs are expanded as they were written

The writer keeps a recency list of the things it ranks; the decoder keeps one of numbers, whose first
places stand for these things in the same order. Runs of rank 0 are counted and written in digits of
value one and two, which add up to the length of the run.
-/

namespace Bunzip

namespace Format

/-! ## Writing -/

/-- The digits of a run of `n`, lowest first; `bound` is at least the number of digits. -/
def runDigitsIn : (bound n : Nat) → List Nat
  | 0, _ => []
  | bound + 1, n =>
    if n = 0 then []
    else if n % 2 = 1 then 0 :: runDigitsIn bound ((n - 1) / 2)
    else 1 :: runDigitsIn bound ((n - 2) / 2)

/-- The digits of a run of `n`, lowest first. -/
def runDigits (n : Nat) : List Nat := runDigitsIn n n

/-- The symbols for some bytes behind a run of `zeros` bytes that have rank 0. -/
def symbolsFrom (order : List UInt8) (zeros : Nat) : List UInt8 → List Nat
  | [] => runDigits zeros
  | byte :: bytes =>
    if order.idxOf byte = 0 then symbolsFrom order (zeros + 1) bytes
    else runDigits zeros
      ++ (order.idxOf byte + 1) :: symbolsFrom (byte :: order.erase byte) 0 bytes

/-- The symbols of a column, closed by the one that ends a block. -/
def encodeColumn (used column : List UInt8) : List Nat :=
  symbolsFrom used 0 column ++ [Expansion.endSymbol used.length]

theorem lt_two_of_mem_runDigitsIn {bound n symbol : Nat} (h : symbol ∈ runDigitsIn bound n) :
    symbol < 2 := by
  induction bound generalizing n with
  | zero => exact nomatch h
  | succ bound ih =>
    rw [runDigitsIn] at h
    split at h
    · exact nomatch h
    · split at h <;> rcases List.mem_cons.mp h with rfl | h
      · decide
      · exact ih h
      · decide
      · exact ih h

theorem length_runDigitsIn_le (bound n : Nat) : (runDigitsIn bound n).length ≤ n := by
  induction bound generalizing n with
  | zero => exact Nat.zero_le n
  | succ bound ih =>
    rw [runDigitsIn]
    split
    · exact Nat.zero_le n
    · split <;> rw [List.length_cons]
      · have := ih ((n - 1) / 2)
        omega
      · have := ih ((n - 2) / 2)
        omega

theorem length_symbolsFrom_le (order : List UInt8) (zeros : Nat) (bytes : List UInt8) :
    (symbolsFrom order zeros bytes).length ≤ zeros + bytes.length := by
  induction bytes generalizing order zeros with
  | nil => exact length_runDigitsIn_le zeros zeros
  | cons byte bytes ih =>
    rw [symbolsFrom, List.length_cons]
    split
    · have := ih order (zeros + 1)
      omega
    · have hdigits := length_runDigitsIn_le zeros zeros
      have hrest := ih (byte :: order.erase byte) 0
      rw [List.length_append, List.length_cons, runDigits]
      omega

/-- A column has at most one symbol for each byte, and the one that ends it. -/
theorem length_encodeColumn_le (used column : List UInt8) :
    (encodeColumn used column).length ≤ column.length + 1 := by
  have hsymbols := length_symbolsFrom_le used 0 column
  rw [encodeColumn, List.length_append, List.length_singleton]
  omega

/-- Only the last symbol of a column is the one that ends a block. -/
theorem lt_of_mem_symbolsFrom {order : List UInt8} {zeros : Nat} {bytes : List UInt8} {symbol : Nat}
    (hbytes : ∀ byte ∈ bytes, byte ∈ order) (hsome : 0 < order.length)
    (h : symbol ∈ symbolsFrom order zeros bytes) : symbol < Expansion.endSymbol order.length := by
  induction bytes generalizing order zeros with
  | nil =>
    have hdigit := lt_two_of_mem_runDigitsIn h
    simp only [Expansion.endSymbol]
    omega
  | cons byte bytes ih =>
    have hbyte := hbytes byte List.mem_cons_self
    have hrest : ∀ other ∈ bytes, other ∈ order :=
      fun other hmem => hbytes other (List.mem_cons_of_mem _ hmem)
    rw [symbolsFrom] at h
    split at h
    · exact ih hrest hsome h
    · have hperm : (byte :: order.erase byte).Perm order := (List.perm_cons_erase hbyte).symm
      rcases List.mem_append.mp h with hdigit | h
      · have := lt_two_of_mem_runDigitsIn hdigit
        simp only [Expansion.endSymbol]
        omega
      · rcases List.mem_cons.mp h with rfl | h
        · have := List.idxOf_lt_length_of_mem hbyte
          simp only [Expansion.endSymbol]
          omega
        · rw [← hperm.length_eq]
          refine ih (fun other hmem => hperm.mem_iff.mpr (hrest other hmem)) ?_ h
          rw [hperm.length_eq]
          exact hsome

end Format

/-! ## Expanding -/

namespace Expansion

/-- Takes in symbols one after the other. -/
def pushAll (limit : Nat) (used : Array UInt8) : List Nat → EStateM Halt Expansion Unit
  | [] => pure ()
  | symbol :: symbols => do
    push limit used symbol
    pushAll limit used symbols

theorem pushAll_cons {limit : Nat} {used : Array UInt8} {symbol : Nat} {e after : Expansion}
    (h : push limit used symbol e = .ok () after) (symbols : List Nat) :
    pushAll limit used (symbol :: symbols) e = pushAll limit used symbols after := by
  simp only [pushAll, Bind.bind, EStateM.bind, h]

theorem pushAll_cons_error {limit : Nat} {used : Array UInt8} {symbol : Nat} {e after : Expansion}
    {halt : Halt} (h : push limit used symbol e = .error halt after) (symbols : List Nat) :
    pushAll limit used (symbol :: symbols) e = .error halt after := by
  simp only [pushAll, Bind.bind, EStateM.bind, h]

theorem pushAll_cons_ok {limit symbol : Nat} {used : Array UInt8} {symbols : List Nat}
    {e after : Expansion} (h : pushAll limit used (symbol :: symbols) e = .ok () after) :
    ∃ middle, push limit used symbol e = .ok () middle
      ∧ pushAll limit used symbols middle = .ok () after := by
  cases hpush : push limit used symbol e with
  | error halt middle => rw [pushAll_cons_error hpush] at h; cases h
  | ok done middle => rw [pushAll_cons hpush] at h; exact ⟨middle, rfl, h⟩

/-- The byte in use that a number of a recency list stands for. -/
def thing (used : Array UInt8) (number : UInt8) : UInt8 := used.getD number.toNat 0

theorem byteAt_thing {used : Array UInt8} {number : UInt8} (h : number.toNat < used.size) :
    byteAt used number = .ok (thing used number) := by
  rw [byteAt_eq h, thing, Array.getD_eq_getD_getElem?, Array.getElem?_eq_getElem h]
  rfl

/-- The recency list and the column so far; a run may have been counted. -/
structure Follows (limit : Nat) (used : Array UInt8) (order done : List UInt8) (e : Expansion) :
    Prop extends e.Sound limit used.size where
  tracks : e.recent.Tracks (thing used) order
  done : e.column.data.toList = done

/-- No run is being counted. -/
structure Settled (limit : Nat) (used : Array UInt8) (order done : List UInt8) (e : Expansion) :
    Prop extends Follows limit used order done e where
  noRun : e.run = 0
  unit : e.weight = 1

variable {limit : Nat} {used : Array UInt8} {order done : List UInt8} {e : Expansion}

/-- A digit adds its value to the run. -/
theorem push_digit (hlimit : limit < 2 ^ 24) {symbol : Nat} (hsymbol : symbol < 2)
    (hfits : e.run + e.weight * 2 ^ symbol ≤ limit) :
    push limit used symbol e
      = .ok () { e with run := e.run + e.weight * 2 ^ symbol, weight := e.weight * 2 } := by
  have hweight : e.weight ≤ e.weight * 2 ^ symbol :=
    Nat.le_mul_of_pos_right _ (Nat.two_pow_pos symbol)
  have hfew : ¬(runLimit ≤ e.run + e.weight * 2 ^ symbol ∨ runLimit ≤ e.weight * 2) := by
    simp only [runLimit, UInt64.size]
    omega
  rw [push_digit_eq hsymbol]
  simp only [step, Expansion.digit, Nat.shiftLeft_eq]
  rw [if_neg hfew, if_neg (Nat.not_lt.mpr hfits)]

/-- The digits of a run add up to its length. -/
theorem pushAll_digits (hlimit : limit < 2 ^ 24) {bound n : Nat} (hbound : n ≤ bound)
    (hfits : e.run + e.weight * n ≤ limit) (symbols : List Nat) :
    ∃ weight, e.weight ≤ weight ∧ weight ≤ e.weight + e.weight * n
      ∧ pushAll limit used (Format.runDigitsIn bound n ++ symbols) e
        = pushAll limit used symbols { e with run := e.run + e.weight * n, weight } := by
  induction bound generalizing n e with
  | zero =>
    obtain rfl : n = 0 := by omega
    exact ⟨e.weight, Nat.le_refl _, Nat.le_add_right _ _, rfl⟩
  | succ bound ih =>
    by_cases hzero : n = 0
    · subst hzero
      refine ⟨e.weight, Nat.le_refl _, Nat.le_add_right _ _, ?_⟩
      rw [Format.runDigitsIn, if_pos rfl]
      rfl
    -- the first digit is the one of the same parity; what is left counts twice as much
    have hdigit : ∀ symbol m : Nat, symbol < 2 → n = 2 ^ symbol + 2 * m →
        ∃ weight, e.weight ≤ weight ∧ weight ≤ e.weight + e.weight * n
          ∧ pushAll limit used (symbol :: Format.runDigitsIn bound m ++ symbols) e
            = pushAll limit used symbols { e with run := e.run + e.weight * n, weight } := by
      intro symbol m hsymbol hn
      have hsum : e.weight * n = e.weight * 2 ^ symbol + e.weight * 2 * m := by
        rw [hn, Nat.mul_add, Nat.mul_assoc]
      have hpow : 0 < 2 ^ symbol := Nat.two_pow_pos symbol
      have hweight : e.weight ≤ e.weight * 2 ^ symbol := Nat.le_mul_of_pos_right _ hpow
      have hfirst : push limit used symbol e
          = .ok () { e with run := e.run + e.weight * 2 ^ symbol, weight := e.weight * 2 } :=
        push_digit hlimit hsymbol (by omega)
      obtain ⟨weight, hge, hle, hrest⟩ := ih
        (e := { e with run := e.run + e.weight * 2 ^ symbol, weight := e.weight * 2 })
        (by omega : m ≤ bound) (by simp only; omega)
      simp only at hge hle
      refine ⟨weight, by omega, by omega, ?_⟩
      rw [List.cons_append, pushAll_cons hfirst, hrest]
      simp only
      rw [Nat.add_assoc, ← hsum]
    rw [Format.runDigitsIn, if_neg hzero]
    by_cases hodd : n % 2 = 1
    · rw [if_pos hodd]
      exact hdigit 0 ((n - 1) / 2) (by decide) (by omega)
    · rw [if_neg hodd]
      exact hdigit 1 ((n - 2) / 2) (by decide) (by omega)

/-- A run is appended as copies of the thing in front. -/
theorem Follows.settle {front : UInt8} (h : Follows limit used (front :: order) done e)
    (hlimit : limit < 2 ^ 24) (hused : used.size = (front :: order).length)
    (hunit : e.run = 0 → e.weight = 1) (hfits : done.length + e.run ≤ limit) :
    ∃ after, Expansion.settle limit used e = .ok after
      ∧ Settled limit used (front :: order) (done ++ List.replicate e.run front) after := by
  have hsize : e.column.size = done.length := by rw [ByteString.size_eq_length, h.done]
  by_cases hnone : e.run = 0
  · refine ⟨e, by rw [Expansion.settle, if_pos hnone], ⟨?_, hnone, hunit hnone⟩⟩
    rw [hnone, List.replicate_zero, List.append_nil]
    exact h
  -- the number in front stands for the thing in front, and is the number of a byte in use
  obtain ⟨number, hfront, hthing⟩ := h.tracks.front
  have hinside : number.toNat < used.size := by
    obtain ⟨value, hvalue, hlt⟩ := h.recent.front (by rw [hused]; exact Nat.succ_pos _)
    rw [hfront] at hvalue
    cases hvalue
    exact hlt
  have hbyte : byteAt used number = .ok front := by rw [byteAt_thing hinside, hthing]
  have htally := h.toSound.tally hlimit front (by omega : e.column.size + e.run ≤ limit)
  have hsettle : Expansion.settle limit used e = .ok { e with
      column := pushMany front e.run e.column
      counts := e.counts.add front e.run
      run := 0
      weight := 1 } := by
    rw [Expansion.settle, if_neg hnone, if_neg (by omega)]
    simp only [hfront, hbyte, htally]
  have hsound := h.toSound.settle hlimit (by rw [hused]; exact Nat.succ_pos _)
  rw [hsettle] at hsound
  exact ⟨_, hsettle, ⟨hsound, h.tracks, by rw [toList_pushMany, h.done]⟩, rfl, rfl⟩

/-- The symbol for a rank appends the run before it and the thing with that rank. -/
theorem Follows.push_rank {front x : UInt8} (h : Follows limit used (front :: order) done e)
    (hlimit : limit < 2 ^ 24) (hused : used.size = (front :: order).length)
    (hunit : e.run = 0 → e.weight = 1) (hfits : done.length + e.run < limit)
    (hx : x ∈ front :: order) (hrank : (front :: order).idxOf x ≠ 0) :
    ∃ after, push limit used ((front :: order).idxOf x + 1) e = .ok () after
      ∧ Settled limit used (x :: (front :: order).erase x)
          (done ++ List.replicate e.run front ++ [x]) after := by
  have hlt : (front :: order).idxOf x < used.size := by
    rw [hused]
    exact List.idxOf_lt_length_of_mem hx
  -- first the run before it, and then the thing itself
  obtain ⟨settled, hsettle, hsettled⟩ := h.settle hlimit hused hunit (Nat.le_of_lt hfits)
  obtain ⟨number, recent, hpromote, hthing, htracks⟩ := hsettled.tracks.promote hx
  have hinside : number.toNat < used.size := by
    obtain ⟨value, after, hvalue, hbelow, _⟩ := hsettled.recent.promote hlt
    rw [hpromote] at hvalue
    cases hvalue
    exact hbelow
  have hbyte : byteAt used number = .ok x := by rw [byteAt_thing hinside, hthing]
  have hsize : settled.column.size = done.length + e.run := by
    rw [ByteString.size_eq_length, hsettled.done, List.length_append, List.length_replicate]
  have htally := hsettled.toSound.tally hlimit x (by omega : settled.column.size + 1 ≤ limit)
  have hpush : push limit used ((front :: order).idxOf x + 1) e = .ok () { settled with
      column := settled.column.push x
      counts := settled.counts.add x 1
      recent } := by
    have hinner : (front :: order).idxOf x + 1 ≠ endSymbol used.size := by
      rw [endSymbol]
      omega
    rw [push_rank_eq (by omega), hsettle]
    simp only [if_neg hinner, Nat.add_sub_cancel, step]
    rw [Expansion.literal, if_neg (by omega)]
    simp only [hpromote, hbyte, htally]
  have hsound := h.toSound.push hlimit (by omega : 0 < used.size)
    (by omega : (front :: order).idxOf x + 1 < used.size + 2)
  rw [hpush] at hsound
  refine ⟨_, hpush, ⟨hsound, htracks, ?_⟩, hsettled.noRun, hsettled.unit⟩
  rw [ByteString.toList_push, hsettled.done]

/-- The symbol that ends a block only appends the run before it. -/
theorem Follows.push_end {front : UInt8} (h : Follows limit used (front :: order) done e)
    (hlimit : limit < 2 ^ 24) (hused : used.size = (front :: order).length)
    (hunit : e.run = 0 → e.weight = 1) (hfits : done.length + e.run ≤ limit) :
    ∃ after, push limit used (endSymbol used.size) e = .ok () after
      ∧ Settled limit used (front :: order) (done ++ List.replicate e.run front) after := by
  obtain ⟨settled, hsettle, hsettled⟩ := h.settle hlimit hused hunit hfits
  refine ⟨settled, ?_, hsettled⟩
  have hlarge : ¬endSymbol used.size < 2 := by
    rw [hused, endSymbol, List.length_cons]
    omega
  rw [push_rank_eq hlarge, hsettle]
  simp only [if_true]

/-- After the digits of a run it has been counted, but not appended. -/
theorem Settled.pushAll_run (h : Settled limit used order done e) (hlimit : limit < 2 ^ 24)
    {zeros : Nat} (hfits : zeros ≤ limit) (symbols : List Nat) :
    ∃ counted, pushAll limit used (Format.runDigits zeros ++ symbols) e
        = pushAll limit used symbols counted
      ∧ Follows limit used order done counted ∧ counted.run = zeros
      ∧ (counted.run = 0 → counted.weight = 1) := by
  obtain ⟨weight, hpositive, hweight, hdigits⟩ := pushAll_digits (e := e) hlimit
    (Nat.le_refl zeros) (by rw [h.noRun, h.unit, Nat.zero_add, Nat.one_mul]; exact hfits) symbols
  rw [h.noRun, h.unit, Nat.zero_add, Nat.one_mul] at hdigits
  rw [h.unit] at hpositive
  rw [h.unit, Nat.one_mul, Nat.add_comm] at hweight
  refine ⟨_, hdigits, ⟨⟨h.recent, h.column, h.counts, hfits, hweight⟩, h.tracks, h.done⟩, rfl, ?_⟩
  simp only
  omega

/-- The symbols for some bytes behind a run append the run and the bytes. -/
theorem Settled.pushAll_symbols {front : UInt8} (h : Settled limit used (front :: order) done e)
    (hlimit : limit < 2 ^ 24) (hused : used.size = (front :: order).length) (zeros : Nat)
    {bytes : List UInt8} (hbytes : ∀ byte ∈ bytes, byte ∈ front :: order)
    (hfits : done.length + zeros + bytes.length ≤ limit) :
    ∃ after, pushAll limit used
        (Format.symbolsFrom (front :: order) zeros bytes ++ [endSymbol used.size]) e = .ok () after
      ∧ after.Sound limit used.size
      ∧ after.column.data.toList = done ++ (List.replicate zeros front ++ bytes) := by
  -- on the bytes; the writer counts the run, the decoder has not seen any of it yet
  induction bytes generalizing front order zeros done e with
  | nil =>
    rw [List.length_nil] at hfits
    obtain ⟨counted, hrun, hcounted, hzeros, hunit⟩ :=
      h.pushAll_run hlimit (by omega : zeros ≤ limit) [endSymbol used.size]
    obtain ⟨after, hpush, hsettled⟩ := hcounted.push_end hlimit hused hunit (by omega)
    refine ⟨after, ?_, hsettled.toSound, ?_⟩
    · rw [Format.symbolsFrom, hrun, pushAll_cons hpush]
      rfl
    · rw [hsettled.done, hzeros, List.append_nil]
  | cons byte bytes ih =>
    rw [List.length_cons] at hfits
    have hbyte := hbytes byte List.mem_cons_self
    have hrest : ∀ other ∈ bytes, other ∈ front :: order :=
      fun other hmem => hbytes other (List.mem_cons_of_mem _ hmem)
    by_cases hzero : (front :: order).idxOf byte = 0
    · -- the byte is the one in front, and only makes the run longer
      have hfront : byte = front := by
        have hget := List.getElem_idxOf (List.idxOf_lt_length_of_mem hbyte)
        simp only [hzero, List.getElem_cons_zero] at hget
        exact hget.symm
      obtain ⟨after, hpush, hsound, hcolumn⟩ := ih h hused (zeros + 1) hrest (by omega)
      rw [Format.symbolsFrom, if_pos hzero]
      refine ⟨after, hpush, hsound, ?_⟩
      rw [hcolumn, List.replicate_succ', hfront, List.append_assoc, List.singleton_append]
    · -- the run ends here; the byte goes to the front of both lists
      obtain ⟨counted, hrun, hcounted, hzeros, hunit⟩ := h.pushAll_run hlimit
        (by omega : zeros ≤ limit) (((front :: order).idxOf byte + 1)
          :: (Format.symbolsFrom (byte :: (front :: order).erase byte) 0 bytes
            ++ [endSymbol used.size]))
      obtain ⟨middle, hpush, hsettled⟩ :=
        hcounted.push_rank hlimit hused hunit (by omega) hbyte hzero
      have hperm : (byte :: (front :: order).erase byte).Perm (front :: order) :=
        (List.perm_cons_erase hbyte).symm
      obtain ⟨after, hafter, hsound, hcolumn⟩ := ih hsettled
        (by rw [hperm.length_eq]; exact hused) 0
        (fun other hmem => hperm.mem_iff.mpr (hrest other hmem)) (by
          simp only [List.length_append, List.length_replicate, List.length_singleton]
          omega)
      rw [Format.symbolsFrom, if_neg hzero]
      refine ⟨after, ?_, hsound, ?_⟩
      · rw [List.append_assoc, List.cons_append, hrun, pushAll_cons hpush]
        exact hafter
      · rw [hcolumn, hzeros]
        simp

/-- At the start the numbers are in ascending order, so they stand for the bytes in use in order. -/
theorem settled_start (limit : Nat) {used : List UInt8} (hused : used.length ≤ 256) :
    Settled limit used.toArray used [] start := by
  have hsound : start.Sound limit used.toArray.size := sound_start (by rwa [List.size_toArray])
  refine ⟨⟨hsound, MoveToFront.tracks_start hused fun i h => ?_, rfl⟩, rfl, rfl⟩
  rw [thing, UInt8.toNat_ofNat', Nat.mod_eq_of_lt (by omega), Array.getD_eq_getD_getElem?]
  simp [h]

/-- **The symbols of a column expand to the column.** -/
theorem pushAll_encodeColumn (hlimit : limit < 2 ^ 24) {used column : List UInt8}
    (hused : used.length ≤ 256) (hsome : used ≠ []) (hcolumn : ∀ byte ∈ column, byte ∈ used)
    (hfits : column.length ≤ limit) :
    ∃ after, pushAll limit used.toArray (Format.encodeColumn used column) start = .ok () after
      ∧ after.Sound limit used.length ∧ after.column.data.toList = column := by
  obtain ⟨front, order, rfl⟩ := List.exists_cons_of_ne_nil hsome
  exact (settled_start limit hused).pushAll_symbols hlimit rfl 0 hcolumn
    (by rw [List.length_nil]; omega)

example : Format.encodeColumn [97, 98, 110] [110, 110, 98, 97, 97, 97] = [3, 0, 3, 3, 1, 4] := by
  decide

end Expansion

end Bunzip

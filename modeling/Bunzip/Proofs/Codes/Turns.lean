import Bunzip.Proofs.Format.Symbols

/-!
# Every turn is decoded with the code of its group

The codes of a block take turns by a countdown and a list of selectors. Both are moved on before a
codeword is looked for, so a turn is taken even if nothing comes of it. What a turn does depends on
its number alone: turn `i` is decoded with the code that selector `i / 50` names, whatever the turns
before it came to and whatever reader they had, and there are no turns past the last group.

So decoding symbols one after the other is decoding them in groups of fifty, each with a code of its
own (`turns_by_group`).
-/

namespace Bunzip

/-! ## Operations in a row -/

namespace Op

variable {σ α : Type}

/--
Runs operations one after the other and goes on after failures: what came of each of them, and the
state at the end.
-/
def runEach : List (Op σ α) → σ → List (Except DecodeError α) × σ
  | [], state => ([], state)
  | op :: ops, state =>
    let rest := runEach ops (op state).state
    ((op state).result :: rest.1, rest.2)

theorem runEach_append (first second : List (Op σ α)) (state : σ) :
    runEach (first ++ second) state
      = ((runEach first state).1 ++ (runEach second (runEach first state).2).1,
          (runEach second (runEach first state).2).2) := by
  induction first generalizing state with
  | nil => rfl
  | cons op first ih => rw [List.cons_append, runEach, ih, runEach, List.cons_append]

/-- Operations that fail and leave the state as it is. -/
theorem runEach_stuck {op : Op σ α} {state : σ} {reason : DecodeError} {notes : List Note}
    (h : op state = .error reason state notes) (n : Nat) :
    runEach (List.replicate n op) state = (List.replicate n (.error reason), state) := by
  induction n with
  | zero => rfl
  | succ n ih =>
    rw [List.replicate_succ, List.replicate_succ, runEach, h]
    simp only [Outcome.state, Outcome.result, ih]

end Op

namespace GroupCodes

variable {tables : Array PrefixCode} {selectors : List Nat}

/-! ## Turns -/

/-- A turn: the next symbol is decoded. -/
def turn : Op (GroupCodes × BitReader) UInt16 := Op.read next

/-- The codes after a turn on each of these readers, whatever came of it. -/
def afterTurns (codes : GroupCodes) (readers : List BitReader) : GroupCodes :=
  readers.foldl (fun codes reader => (turn (codes, reader)).state.1) codes

/-- What a turn comes to is what the code of its group comes to. -/
theorem turn_of_advance {codes next : GroupCodes} {code : PrefixCode}
    (hadvance : codes.advance? = some next) (hcode : next.tables[next.current]? = some code)
    (reader : BitReader) :
    turn (codes, reader) = (Op.read code.decode reader).withState fun after => (next, after) := by
  have hdecode : next.decode = code.decode := by rw [GroupCodes.decode, hcode]
  simp only [turn, Op.read, GroupCodes.next, hadvance, hdecode]
  cases code.decode reader <;> rfl

theorem turn_of_advance_none {codes : GroupCodes} (h : codes.advance? = none) (reader : BitReader) :
    turn (codes, reader)
      = .error (.corrupt reader.position .selectorsExhausted) (codes, reader) [] := by
  simp only [turn, Op.read, GroupCodes.next, h]

/-- There is no turn past the last group. -/
theorem Before.advance?_none {codes : GroupCodes}
    (h : codes.Before selectors (50 * selectors.length)) : codes.advance? = none := by
  have hpending := h.pending
  have hleft := h.groupLeft
  rw [List.drop_eq_nil_of_le (by omega)] at hpending
  rw [GroupCodes.advance?, if_neg (by omega), hpending]

/-- So many turns have been taken. Those past the last group leave the codes as they are. -/
structure Turned (tables : Array PrefixCode) (selectors : List Nat) (taken : Nat)
    (codes : GroupCodes) : Prop where
  before : codes.Before selectors (min taken (50 * selectors.length))
  tables : codes.tables = tables

theorem turned_start (tables : Array PrefixCode) (selectors : List Nat) :
    Turned tables selectors 0 (start tables selectors) where
  before := by
    rw [Nat.zero_min]
    exact before_start tables selectors
  tables := rfl

/-! ## The code of a turn -/

/-- The codes of the groups in order. -/
def selected (tables : Array PrefixCode) (selectors : List Nat) : List PrefixCode :=
  selectors.filterMap (tables[·]?)

theorem getElem?_selected (valid : ∀ selector ∈ selectors, selector < tables.size) (k : Nat) :
    (selected tables selectors)[k]? = selectors[k]?.bind (tables[·]?) := by
  induction selectors generalizing k with
  | nil => rfl
  | cons selector selectors ih =>
    obtain ⟨hfirst, hothers⟩ := List.forall_mem_cons.mp valid
    rw [selected, List.filterMap_cons_some (Array.getElem?_eq_getElem hfirst), ← selected]
    cases k with
    | zero => exact (Array.getElem?_eq_getElem hfirst).symm
    | succ k => exact ih hothers k

/-- Decodes one codeword with the code for the turn of the given number, if there is one. -/
def decodeNth (codes : List PrefixCode) (number : Nat) : Op BitReader UInt16 :=
  match codes[number / groupSize]? with
  | some code => Op.read code.decode
  | none => Op.read (BitReader.corrupt .selectorsExhausted)

theorem decodeNth_of_some {codes : List PrefixCode} {number : Nat} {code : PrefixCode}
    (h : codes[number / groupSize]? = some code) :
    decodeNth codes number = Op.read code.decode := by
  rw [decodeNth, h]

theorem decodeNth_of_none {codes : List PrefixCode} {number : Nat}
    (h : codes[number / groupSize]? = none) :
    decodeNth codes number = Op.read (BitReader.corrupt .selectorsExhausted) := by
  rw [decodeNth, h]

/-- While there are groups, a turn has a selector, and that names a code. -/
theorem exists_selected (valid : ∀ selector ∈ selectors, selector < tables.size) {number : Nat}
    (h : number < groupSize * selectors.length) :
    ∃ selector code, selectors[number / groupSize]? = some selector
      ∧ tables[selector]? = some code
      ∧ (selected tables selectors)[number / groupSize]? = some code := by
  have hinside : number / groupSize < selectors.length := Nat.div_lt_of_lt_mul h
  have hselector := List.getElem?_eq_getElem hinside
  have hcode := Array.getElem?_eq_getElem (valid _ (List.getElem_mem hinside))
  refine ⟨_, _, hselector, hcode, ?_⟩
  rw [getElem?_selected valid, hselector, Option.bind_some, hcode]

theorem selected_eq_none (valid : ∀ selector ∈ selectors, selector < tables.size) {number : Nat}
    (h : groupSize * selectors.length ≤ number) :
    (selected tables selectors)[number / groupSize]? = none := by
  have houtside : selectors.length ≤ number / groupSize :=
    (Nat.le_div_iff_mul_le (by decide)).mpr (by rwa [Nat.mul_comm])
  rw [getElem?_selected valid, List.getElem?_eq_none houtside, Option.bind_none]

/-- A turn is decoded by its number, and the turn after it has the next number. -/
theorem Turned.step (valid : ∀ selector ∈ selectors, selector < tables.size) {taken : Nat}
    {codes : GroupCodes} (h : Turned tables selectors taken codes) (reader : BitReader) :
    (turn (codes, reader)).withState Prod.snd = decodeNth (selected tables selectors) taken reader
      ∧ Turned tables selectors (taken + 1) (turn (codes, reader)).state.1 := by
  have hbefore := h.before
  rcases Nat.lt_or_ge taken (50 * selectors.length) with hinside | houtside
  · obtain ⟨selector, code, hselector, hcode, hselected⟩ := exists_selected valid hinside
    rw [Nat.min_eq_left (Nat.le_of_lt hinside)] at hbefore
    obtain ⟨next, hadvance, hnext, htables, hcurrent⟩ := hbefore.advance? hselector
    have hturn := turn_of_advance hadvance (by rw [htables, h.tables, hcurrent, hcode]) reader
    rw [hturn, decodeNth_of_some hselected, Outcome.state_withState]
    refine ⟨?_, ?_, htables.trans h.tables⟩
    · cases Op.read code.decode reader <;> rfl
    · rw [Nat.min_eq_left hinside]
      exact hnext
  · rw [Nat.min_eq_right houtside] at hbefore
    rw [turn_of_advance_none hbefore.advance?_none, decodeNth_of_none (selected_eq_none valid houtside)]
    refine ⟨rfl, ?_, h.tables⟩
    rw [Nat.min_eq_right (Nat.le_succ_of_le houtside)]
    exact hbefore

theorem Turned.afterTurns (valid : ∀ selector ∈ selectors, selector < tables.size)
    (readers : List BitReader) {taken : Nat} {codes : GroupCodes}
    (h : Turned tables selectors taken codes) :
    Turned tables selectors (taken + readers.length) (codes.afterTurns readers) := by
  induction readers generalizing taken codes with
  | nil => exact h
  | cons reader readers ih =>
    have hrest := ih (h.step valid reader).2
    rw [Nat.add_right_comm] at hrest
    exact hrest

/-! ## Groups -/

/--
Decodes `n` symbols in groups: up to fifty with the first of the codes, and what is left with the
others. Without a code there is nothing to decode with.
-/
def decodeGroups : (n : Nat) → (codes : List PrefixCode) → BitReader →
    List (Except DecodeError UInt16) × BitReader
  | n, [], reader =>
    (List.replicate n (.error (.corrupt reader.position .selectorsExhausted)), reader)
  | n, code :: codes, reader =>
    let group := Op.runEach (List.replicate (min n groupSize) (Op.read code.decode)) reader
    let others := decodeGroups (n - groupSize) codes group.2
    (group.1 ++ others.1, others.2)

/-- The turns of a first group, and the others as they are numbered behind it. -/
theorem map_decodeNth_cons (n : Nat) (code : PrefixCode) (codes : List PrefixCode) :
    (List.range n).map (decodeNth (code :: codes))
      = List.replicate (min n groupSize) (Op.read code.decode)
        ++ (List.range (n - groupSize)).map (decodeNth codes) := by
  have hsplit : n = min n groupSize + (n - groupSize) := by omega
  have hfirst : ∀ i ∈ List.range (min n groupSize),
      decodeNth (code :: codes) i = Op.read code.decode := by
    intro i hi
    have hlt : i < groupSize := Nat.lt_of_lt_of_le (List.mem_range.mp hi) (Nat.min_le_right _ _)
    exact decodeNth_of_some (by rw [Nat.div_eq_of_lt hlt, List.getElem?_cons_zero])
  have hothers : ∀ i ∈ List.range (n - groupSize),
      decodeNth (code :: codes) (min n groupSize + i) = decodeNth codes i := by
    intro i hi
    have hlt := List.mem_range.mp hi
    have hnumber : (min n groupSize + i) / groupSize = i / groupSize + 1 := by
      rw [Nat.min_eq_right (by omega), Nat.add_div_left i (by decide)]
    rw [decodeNth, hnumber, List.getElem?_cons_succ, decodeNth]
  conv_lhs => rw [hsplit, List.range_add, List.map_append, List.map_map]
  rw [List.map_congr_left hfirst, List.map_const', List.length_range]
  exact congrArg _ (List.map_congr_left hothers)

/-- Decoding in groups is decoding each symbol with the code for its number. -/
theorem decodeGroups_eq (n : Nat) (codes : List PrefixCode) (reader : BitReader) :
    decodeGroups n codes reader = Op.runEach ((List.range n).map (decodeNth codes)) reader := by
  induction codes generalizing n reader with
  | nil =>
    have hall : (List.range n).map (decodeNth [])
        = List.replicate n (Op.read (BitReader.corrupt .selectorsExhausted)) := by
      refine List.eq_replicate_iff.mpr ⟨by rw [List.length_map, List.length_range], ?_⟩
      intro op hop
      obtain ⟨i, _, rfl⟩ := List.mem_map.mp hop
      exact decodeNth_of_none rfl
    have hstuck : Op.read (BitReader.corrupt .selectorsExhausted : Read UInt16) reader
        = .error (.corrupt reader.position .selectorsExhausted) reader [] := rfl
    rw [hall, Op.runEach_stuck hstuck, decodeGroups]
  | cons code codes ih => rw [decodeGroups, ih, map_decodeNth_cons, Op.runEach_append]

/-- Turns in a row on one reader, by their numbers. -/
theorem Turned.runEach (valid : ∀ selector ∈ selectors, selector < tables.size) (n : Nat)
    {taken : Nat} {codes : GroupCodes} (h : Turned tables selectors taken codes)
    (reader : BitReader) :
    ((Op.runEach (List.replicate n turn) (codes, reader)).1,
        (Op.runEach (List.replicate n turn) (codes, reader)).2.2)
      = Op.runEach ((List.range' taken n).map (decodeNth (selected tables selectors))) reader := by
  induction n generalizing taken codes reader with
  | zero => rfl
  | succ n ih =>
    obtain ⟨hturn, hnext⟩ := h.step valid reader
    have hrest := ih hnext (turn (codes, reader)).state.2
    rw [List.replicate_succ, List.range'_succ, List.map_cons, Op.runEach, Op.runEach, ← hturn,
      Outcome.result_withState, Outcome.state_withState, ← hrest]

/--
**Symbols are decoded in groups of fifty, each with its own code.** The turns before a turn, on any
readers, successful or not, make no difference but by how many they are: it comes to what the selected
code comes to at the place of the reader, and past the last group it fails and reads nothing. So any
number of turns in a row is so many codewords decoded group by group.
-/
theorem turns_by_group (valid : ∀ selector ∈ selectors, selector < tables.size) :
    (∀ (readers : List BitReader) (reader : BitReader),
      let outcome := turn ((start tables selectors).afterTurns readers, reader)
      (readers.length < groupSize * selectors.length →
        ∃ selector code, selectors[readers.length / groupSize]? = some selector
          ∧ tables[selector]? = some code
          ∧ outcome.withState Prod.snd = Op.read code.decode reader)
      ∧ (groupSize * selectors.length ≤ readers.length →
        outcome.withState Prod.snd
          = .error (.corrupt reader.position .selectorsExhausted) reader []))
    ∧ ∀ (n : Nat) (reader : BitReader),
      let run := Op.runEach (List.replicate n turn) (start tables selectors, reader)
      let groups := decodeGroups n (selected tables selectors) reader
      run.1 = groups.1 ∧ run.2.2 = groups.2 := by
  have hstart := turned_start tables selectors
  constructor
  · intro readers reader
    have hturned := hstart.afterTurns valid readers
    rw [Nat.zero_add] at hturned
    have hstep := (hturned.step valid reader).1
    constructor
    · intro hinside
      obtain ⟨selector, code, hselector, hcode, hselected⟩ := exists_selected valid hinside
      rw [decodeNth_of_some hselected] at hstep
      exact ⟨selector, code, hselector, hcode, hstep⟩
    · intro houtside
      rw [decodeNth_of_none (selected_eq_none valid houtside)] at hstep
      exact hstep
  · intro n reader
    have hrun := hstart.runEach valid n reader
    rw [← List.range_eq_range', ← decodeGroups_eq] at hrun
    exact ⟨congrArg Prod.fst hrun, congrArg Prod.snd hrun⟩

/-- Two codes, one for two symbols of the same length and one for two of different lengths. -/
def twoCodes : Array PrefixCode :=
  #[⟨1, 1, [⟨1, 0⟩], #[0, 1]⟩, ⟨1, 2, [⟨0, 0⟩, ⟨2, 1⟩], #[1, 0]⟩]

/--
The second group after fifty turns that have all failed for want of bits, the end of the second group,
and both in a row.
-/
theorem turns_by_group_two :
    (∀ selector ∈ [1, 0], selector < twoCodes.size)
      ∧ (∀ reader, (turn ((start twoCodes [1, 0]).afterTurns
            (List.replicate 50 (.ofSource ⟨[]⟩)), reader)).withState Prod.snd
          = Op.read (PrefixCode.decode ⟨1, 1, [⟨1, 0⟩], #[0, 1]⟩) reader)
      ∧ (∀ reader, (turn ((start twoCodes [1, 0]).afterTurns
            (List.replicate 100 (.ofSource ⟨[]⟩)), reader)).withState Prod.snd
          = .error (.corrupt reader.position .selectorsExhausted) reader [])
      ∧ (Op.runEach (List.replicate 101 turn)
            (start twoCodes [1, 0], .ofSource (.ofBytes ⟨#[0xA5, 0x3C]⟩))).1
          = (decodeGroups 101 (selected twoCodes [1, 0])
              (.ofSource (.ofBytes ⟨#[0xA5, 0x3C]⟩))).1 := by
  have hvalid : ∀ selector ∈ [1, 0], selector < twoCodes.size := by decide
  obtain ⟨hturn, hrun⟩ := turns_by_group hvalid
  refine ⟨hvalid, ?_, ?_, ?_⟩
  · intro reader
    obtain ⟨selector, code, hselector, hcode, hdecoded⟩ :=
      (hturn (List.replicate 50 (.ofSource ⟨[]⟩)) reader).1 (by decide)
    obtain rfl : 0 = selector := Option.some.inj hselector
    obtain rfl := Option.some.inj hcode
    exact hdecoded
  · intro reader
    exact (hturn (List.replicate 100 (.ofSource ⟨[]⟩)) reader).2 (by decide)
  · exact (hrun 101 _).1

end GroupCodes

end Bunzip

import Bunzip.Proofs.Format.Parses
import Bunzip.Proofs.Format.Tables
import Bunzip.Proofs.Locality.Block

/-!
# The language of codes and selectors

The codes and the selectors of a block are three layers of variable length: ranks in unary, a walk to
each length, and a list of such walks. `WritesGroupCodes` says how they are written, and `Deviates`
where and how a string first leaves what can be written. Reading accepts the one, whatever the source
does (`GroupCodes.parses_read`), and refuses the other; and both cover every string that is not cut
short (`GroupCodes.reads_exactly`).
-/

namespace Bunzip

namespace Format

/-! ## Deviations -/

/-- The bits lead from one length, over lengths that are allowed, to one that is not. -/
inductive Strays : (length : Nat) → List Bool → (off : Nat) → Prop
  | off {length : Nat} (here : ¬AllowedLength length) : Strays length [] length
  | up {length off : Nat} {bits : List Bool} (here : AllowedLength length)
      (more : Strays (length + 1) bits off) : Strays length (true :: false :: bits) off
  | down {length off : Nat} {bits : List Bool} (here : AllowedLength (length + 1))
      (more : Strays length bits off) : Strays (length + 1) (true :: true :: bits) off

/-- The bits lead along the lengths of some symbols, and stray on the way to that of the next one. -/
inductive StraysAlong : (length count symbol : Nat) → List Bool → (off : Nat) → Prop
  | here {length count off : Nat} {bits : List Bool} (strays : Strays length bits off) :
      StraysAlong length (count + 1) 0 bits off
  | later {length target count symbol off : Nat} {v w : List Bool} (first : Steps length target v)
      (more : StraysAlong target count symbol w off) :
      StraysAlong length (count + 1) (symbol + 1) (v ++ w) off

/-- The bits start like a code for the alphabet, up to a length that is not allowed. -/
inductive CodeStrays (alphabet symbol : Nat) : List Bool → (off : Nat) → Prop
  | intro {first off : Nat} {steps : List Bool} (first_lt : first < 2 ^ 5)
      (along : StraysAlong first alphabet symbol steps off) :
      CodeStrays alphabet symbol (bitsOf 5 first ++ steps) off

/-- The bits start like codes and selectors, up to the first field that deviates. -/
inductive Deviates (alphabet : Nat) : List Bool → Corruption → Prop
  /-- There are too few codes, or too many. -/
  | tableCount {count : Nat} (few : count < 8) (outside : count < 2 ∨ 6 < count) :
      Deviates alphabet (bitsOf 3 count) (.tableCount count)
  /-- There are no selectors. -/
  | selectorCount {count : Nat} (min : 2 ≤ count) (max : count ≤ 6) :
      Deviates alphabet (bitsOf 3 count ++ bitsOf 15 0) (.selectorCount 0)
  /-- There are as many ones as there are codes, where a rank should end. -/
  | selectorRank {count selectorCount : Nat} {selectors : List Nat} (min : 2 ≤ count) (max : count ≤ 6)
      (many : selectorCount ≤ 32767) (fewer : selectors.length < selectorCount)
      (below : ∀ selector ∈ selectors, selector < count) :
      Deviates alphabet (bitsOf 3 count ++ (bitsOf 15 selectorCount
        ++ (writeSelectors (List.range count) selectors ++ List.replicate count true)))
        (.selectorRank count)
  /-- A code strays, behind others that do not. -/
  | codeLength {count symbol off : Nat} {selectors : List Nat} {tables : List (List Nat)}
      {v w : List Bool} (selecting : Selecting count selectors) (fewer : tables.length < count)
      (written : WritesCodes alphabet tables v) (strays : CodeStrays alphabet symbol w off) :
      Deviates alphabet (bitsOf 3 count ++ (bitsOf 15 selectors.length
        ++ (writeSelectors (List.range count) selectors ++ (v ++ w))))
        (.codeLength tables.length symbol off)

theorem Strays.not_allowed {length off : Nat} {bits : List Bool} (h : Strays length bits off) :
    ¬AllowedLength off := by
  induction h with
  | off here => exact here
  | up _ _ ih => exact ih
  | down _ _ ih => exact ih

theorem StraysAlong.spec {length count symbol off : Nat} {bits : List Bool}
    (h : StraysAlong length count symbol bits off) : symbol < count ∧ ¬AllowedLength off := by
  induction h with
  | here strays => exact ⟨Nat.succ_pos _, strays.not_allowed⟩
  | later _ _ ih => exact ⟨Nat.succ_lt_succ ih.1, ih.2⟩

end Format

open Format

namespace GroupCodes

/-- The codes have been made of these lengths, and the selectors are these. -/
def MadeOf (tables : List (List Nat)) (selectors : List Nat) (codes : GroupCodes) : Prop :=
  ∃ made : List PrefixCode, tables.map PrefixCode.ofLengths? = made.map some
    ∧ codes = start made.toArray selectors

/-! ## What is parsed -/

/-- Every rank that is read names a selector. -/
theorem parses_readSelectors {tables : Nat} (n : Nat) {order : List Nat} {recent : MoveToFront}
    (hrecent : recent.Tracks UInt8.toNat order) (horder : order.length = tables)
    (hnodup : order.Nodup) (before : Array Nat) :
    Op.Parses (Op.read (readSelectors tables n recent before))
      (fun bits selectors => ∃ chosen, chosen.length = n ∧ (∀ selector ∈ chosen, selector ∈ order)
        ∧ bits = writeSelectors order chosen ∧ selectors = before ++ chosen.toArray)
      (fun bits why => ∃ chosen, chosen.length < n ∧ (∀ selector ∈ chosen, selector ∈ order)
        ∧ bits = writeSelectors order chosen ++ List.replicate tables true
        ∧ why = .selectorRank tables) := by
  induction n generalizing order recent before with
  | zero =>
    exact .pure ⟨[], rfl, List.forall_mem_nil _, rfl, Array.append_empty.symm⟩
  | succ n ih =>
    rw [readSelectors, Op.read_bind]
    refine (BitReader.parses_onesAfter 0 tables).bind (fun _ _ h => h.elim) ?_
    rintro front rank ⟨more, hmore, hrank⟩
    rw [Nat.zero_add] at hmore
    subst hmore
    rcases hrank with ⟨hless, rfl⟩ | ⟨rfl, rfl⟩
    · have hlt : rank < order.length := by omega
      have hselector : order[rank] ∈ order := List.getElem_mem hlt
      have hidx : order.idxOf order[rank] = rank := hnodup.idxOf_getElem rank hlt
      obtain ⟨value, after, hpromote, hvalue, hafter⟩ := hrecent.promote hselector
      have hperm : (order[rank] :: order.erase order[rank]).Perm order :=
        (List.perm_cons_erase hselector).symm
      rw [hidx] at hpromote
      rw [if_neg (by omega), hpromote]
      simp only [hvalue]
      refine (ih hafter (by rw [hperm.length_eq, horder]) (hperm.nodup_iff.mpr hnodup) _).mono ?_ ?_
      · rintro bits selectors ⟨chosen, hlength, hchosen, rfl, rfl⟩
        refine ⟨order[rank] :: chosen, by rw [List.length_cons, hlength], ?_, ?_, by simp⟩
        · exact List.forall_mem_cons.mpr
            ⟨hselector, fun other hmem => hperm.mem_iff.mp (hchosen other hmem)⟩
        · rw [writeSelectors, hidx]
      · rintro bits why ⟨chosen, hlength, hchosen, rfl, rfl⟩
        refine ⟨order[rank] :: chosen, by rw [List.length_cons]; omega, ?_, ?_, rfl⟩
        · exact List.forall_mem_cons.mpr
            ⟨hselector, fun other hmem => hperm.mem_iff.mp (hchosen other hmem)⟩
        · rw [writeSelectors, hidx]
          simp only [List.append_assoc]
    · rw [if_pos (Nat.le_refl _)]
      refine .corrupt ⟨[], Nat.succ_pos n, List.forall_mem_nil _, ?_, rfl⟩
      rw [List.append_nil]
      rfl

/-- The walk to a length ends there or strays. -/
theorem parses_settleLength (table symbol length : Nat) :
    Op.Parses (Op.read (settleLength table symbol length))
      (fun bits settled => ∃ target : Nat, settled = target ∧ Steps length target bits)
      (fun bits why => ∃ off : Nat, Strays length bits off ∧ why = .codeLength table symbol off) := by
  intro reader hreader
  -- every step of the walk spends bits, so on those that are left
  induction hn : reader.bitsLeft using Nat.strongRecOn generalizing length reader with
  | ind n ih =>
    rw [settleLength_eq]
    by_cases here : AllowedLength length
    · have hrange : ¬((length : Int) < 1 ∨ (PrefixCode.longest : Int) < length) := by
        simp only [AllowedLength] at here
        omega
      rw [if_neg hrange, Op.read_bind]
      refine Op.Parsed.bind (BitReader.parses_bit reader hreader) (fun _ _ h => h.elim) ?_
      rintro _ more stepping _ hflag rfl hstepping
      cases more with
      | false => exact Op.Parses.pure ⟨length, rfl, .stop here⟩ stepping hstepping
      | true =>
        rw [if_pos rfl, Op.read_bind]
        refine Op.Parsed.bind (BitReader.parses_bit stepping hstepping) (fun _ _ h => h.elim) ?_
        rintro _ down there _ hdown rfl hthere
        have hless : there.bitsLeft < n := by
          have hfirst := (Op.Spends.read BitReader.spends_bit).of_ok hflag
          have hsecond := (Op.Spends.read BitReader.spends_bit).of_ok hdown
          omega
        cases down with
        | false =>
          refine (ih _ hless (length + 1) there hthere rfl).mono ?_ ?_
          · rintro bits settled ⟨target, rfl, hsteps⟩
            exact ⟨target, rfl, .up here hsteps⟩
          · rintro bits why ⟨off, hstrays, rfl⟩
            exact ⟨off, .up here hstrays, rfl⟩
        | true =>
          obtain ⟨lower, rfl⟩ : ∃ lower, length = lower + 1 := ⟨length - 1, by
            simp only [AllowedLength] at here
            omega⟩
          rw [stepped_down]
          refine (ih _ hless lower there hthere rfl).mono ?_ ?_
          · rintro bits settled ⟨target, rfl, hsteps⟩
            exact ⟨target, rfl, .down here hsteps⟩
          · rintro bits why ⟨off, hstrays, rfl⟩
            exact ⟨off, .down here hstrays, rfl⟩
    · have hrange : (length : Int) < 1 ∨ (PrefixCode.longest : Int) < length := by
        simp only [AllowedLength] at here
        omega
      rw [if_pos hrange]
      exact Op.Parses.corrupt ⟨length, .off here, rfl⟩ reader hreader

theorem parses_readLengthsFrom (table count symbol length : Nat) (before : Array Nat) :
    Op.Parses (Op.read (readLengthsFrom table count symbol length before))
      (fun bits lengths => ∃ targets, targets.length = count ∧ StepsAlong length targets bits
        ∧ lengths = before ++ targets.toArray)
      (fun bits why => ∃ more off : Nat, StraysAlong length count more bits off
        ∧ why = .codeLength table (symbol + more) off) := by
  induction count generalizing symbol length before with
  | zero => exact .pure ⟨[], rfl, .nil, Array.append_empty.symm⟩
  | succ count ih =>
    rw [readLengthsFrom, Op.read_bind]
    refine (parses_settleLength table symbol length).bind ?_ ?_
    · rintro bits why ⟨off, hstrays, rfl⟩
      exact ⟨0, off, .here hstrays, rfl⟩
    · rintro front settled ⟨target, rfl, hsteps⟩
      refine (ih (symbol + 1) target _).mono ?_ ?_
      · rintro bits lengths ⟨targets, hlength, hmore, rfl⟩
        refine ⟨target :: targets, by rw [List.length_cons, hlength], .cons hsteps hmore, ?_⟩
        simp
      · rintro bits why ⟨more, off, hstrays, rfl⟩
        exact ⟨more + 1, off, .later hsteps hstrays, by rw [Nat.add_right_comm, Nat.add_assoc]⟩

theorem parses_readLengths (table alphabet : Nat) (hsome : 0 < alphabet) :
    Op.Parses (Op.read (readLengths table alphabet))
      (fun bits lengths => WritesCode alphabet lengths bits)
      (fun bits why => ∃ symbol off : Nat, CodeStrays alphabet symbol bits off
        ∧ why = .codeLength table symbol off) := by
  rw [readLengths, Op.read_bind]
  refine (BitReader.parses_number (by decide) (by decide)).bind (fun _ _ h => h.elim) ?_
  rintro _ first ⟨hfirst, rfl⟩
  rw [Op.read_bind]
  refine (parses_readLengthsFrom table alphabet 0 first #[]).bind ?_ ?_
  · rintro bits why ⟨symbol, off, hstrays, rfl⟩
    exact ⟨symbol, off, .intro hfirst hstrays, by rw [Nat.zero_add]⟩
  · rintro steps lengths ⟨targets, hlength, halong, rfl⟩
    refine .pure ?_
    have hallowed : AllowedLength first := by
      cases halong with
      | nil => exact absurd hlength (Nat.ne_of_lt hsome)
      | cons steps _ => exact steps.allowed.1
    rw [List.append_nil, Array.empty_append]
    exact .intro hlength hallowed halong

/-- The lengths that are read always make a code. -/
theorem parses_readTable (table alphabet : Nat) (hsome : 0 < alphabet) :
    Op.Parses (readTable table alphabet)
      (fun bits code => ∃ lengths, WritesCode alphabet lengths bits
        ∧ PrefixCode.ofLengths? lengths = some code)
      (fun bits why => ∃ symbol off : Nat, CodeStrays alphabet symbol bits off
        ∧ why = .codeLength table symbol off) := by
  refine (parses_readLengths table alphabet hsome).bind (fun _ _ h => h) ?_
  intro front lengths hlengths
  obtain ⟨code, hcode⟩ := hlengths.exists_code hsome
  rw [hcode]
  refine Op.Parses.get.then fun _ => (Op.Parses.note _).then fun _ => .pure ?_
  rw [List.append_nil]
  exact ⟨lengths, hlengths, hcode⟩

theorem parses_readTables (alphabet count table : Nat) (hsome : 0 < alphabet)
    (before : Array PrefixCode) :
    Op.Parses (readTables alphabet count table before)
      (fun bits codes => ∃ (tables : List (List Nat)) (made : List PrefixCode),
        tables.length = count ∧ WritesCodes alphabet tables bits
        ∧ tables.map PrefixCode.ofLengths? = made.map some ∧ codes = before ++ made.toArray)
      (fun bits why => ∃ (tables : List (List Nat)) (v w : List Bool) (symbol off : Nat),
        tables.length < count ∧ WritesCodes alphabet tables v ∧ CodeStrays alphabet symbol w off
        ∧ bits = v ++ w ∧ why = .codeLength (table + tables.length) symbol off) := by
  induction count generalizing table before with
  | zero => exact .pure ⟨[], [], rfl, .nil, rfl, Array.append_empty.symm⟩
  | succ count ih =>
    refine (parses_readTable table alphabet hsome).bind ?_ ?_
    · rintro bits why ⟨symbol, off, hstrays, rfl⟩
      exact ⟨[], [], bits, symbol, off, Nat.succ_pos count, .nil, hstrays, rfl, rfl⟩
    · rintro front code ⟨lengths, hlengths, hcode⟩
      refine (ih (table + 1) _).mono ?_ ?_
      · rintro bits codes ⟨tables, made, hcount, hwritten, hmade, rfl⟩
        refine ⟨lengths :: tables, code :: made, by rw [List.length_cons, hcount],
          .cons hlengths hwritten, ?_, by simp⟩
        rw [List.map_cons, List.map_cons, hcode, hmade]
      · rintro bits why ⟨tables, v, w, symbol, off, hcount, hwritten, hstrays, rfl, rfl⟩
        refine ⟨lengths :: tables, front ++ v, w, symbol, off, ?_, .cons hlengths hwritten, hstrays,
          by rw [List.append_assoc], ?_⟩
        · rw [List.length_cons]
          omega
        · rw [List.length_cons, Nat.add_right_comm, Nat.add_assoc]

/-- **Only what can be written is accepted**, and what is not is noticed in the field that deviates. -/
theorem parses_read {alphabet : Nat} (hsome : 0 < alphabet) :
    Op.Parses (read alphabet)
      (fun bits codes => ∃ tables selectors, WritesGroupCodes alphabet tables selectors bits
        ∧ MadeOf tables selectors codes)
      (Deviates alphabet) := by
  refine (BitReader.parses_number (by decide) (by decide)).bind (fun _ _ h => h.elim) ?_
  rintro _ count ⟨hcount, rfl⟩
  by_cases outside : count < minTables ∨ maxTables < count
  · rw [if_pos outside]
    refine .corrupt ?_
    rw [List.append_nil]
    exact .tableCount hcount outside
  rw [if_neg outside]
  simp only [minTables, maxTables] at outside
  refine (BitReader.parses_number (by decide) (by decide)).bind (fun _ _ h => h.elim) ?_
  rintro _ selectorCount ⟨hselectorCount, rfl⟩
  by_cases none : selectorCount = 0
  · subst none
    rw [if_pos rfl]
    refine .corrupt ?_
    rw [List.append_nil]
    exact .selectorCount (by omega) (by omega)
  rw [if_neg none]
  have hrecent : MoveToFront.start.Tracks UInt8.toNat (List.range count) :=
    tracks_range (by omega)
  refine (parses_readSelectors selectorCount hrecent List.length_range List.nodup_range #[]).bind
    ?_ ?_
  · rintro bits why ⟨chosen, hfewer, hchosen, rfl, rfl⟩
    exact .selectorRank (by omega) (by omega) (by omega) hfewer
      fun selector hmem => List.mem_range.mp (hchosen selector hmem)
  rintro _ _ ⟨chosen, rfl, hchosen, rfl, rfl⟩
  have hselecting : Selecting count chosen :=
    ⟨by omega, by omega, by omega, by omega,
      fun selector hmem => List.mem_range.mp (hchosen selector hmem)⟩
  refine (parses_readTables alphabet count 0 hsome #[]).bind ?_ ?_
  · rintro bits why ⟨tables, v, w, symbol, off, hfewer, hwritten, hstrays, rfl, rfl⟩
    rw [Nat.zero_add]
    exact .codeLength hselecting hfewer hwritten hstrays
  rintro codes _ ⟨tables, made, rfl, hwritten, hmade, rfl⟩
  refine (Op.Parses.note _).then fun _ => ?_
  rw [Array.empty_append, Array.empty_append, find?_selectors hselecting hmade]
  refine .pure ⟨tables, chosen, ?_, made, hmade, rfl⟩
  rw [List.append_nil]
  exact .intro hselecting hwritten

/-! ## What is refused -/

theorem refuses_readSelectors {tables : Nat} {chosen order : List Nat} {recent : MoveToFront}
    (hrecent : recent.Tracks UInt8.toNat order) (horder : order.length = tables)
    (hchosen : ∀ selector ∈ chosen, selector ∈ order) {n : Nat} (hfewer : chosen.length < n)
    (before : Array Nat) :
    Op.Refuses (Op.read (readSelectors tables n recent before))
      (writeSelectors order chosen ++ List.replicate tables true) (.selectorRank tables) := by
  -- on the selectors before the rank that is too high
  induction chosen generalizing order recent n before with
  | nil =>
    obtain ⟨n, rfl⟩ := Nat.exists_eq_succ_of_ne_zero (Nat.ne_zero_of_lt hfewer)
    rw [writeSelectors, List.nil_append, readSelectors, Op.read_bind, ← List.append_nil (.replicate _ _)]
    refine (BitReader.reads_ones_limit tables).op.refuses ?_
    rw [if_pos (Nat.le_refl _)]
    exact .corrupt _
  | cons selector chosen ih =>
    obtain ⟨n, rfl⟩ := Nat.exists_eq_succ_of_ne_zero (Nat.ne_zero_of_lt hfewer)
    have hselector := hchosen selector List.mem_cons_self
    have hrank : order.idxOf selector < tables := by
      rw [← horder]
      exact List.idxOf_lt_length_of_mem hselector
    have hperm : (selector :: order.erase selector).Perm order :=
      (List.perm_cons_erase hselector).symm
    obtain ⟨value, after, hpromote, _, hafter⟩ := hrecent.promote hselector
    rw [writeSelectors, List.append_assoc, readSelectors, Op.read_bind]
    refine (BitReader.reads_ones hrank).op.refuses ?_
    rw [if_neg (by omega), hpromote]
    exact ih hafter (by rw [hperm.length_eq, horder])
      (fun other hmem => hperm.mem_iff.mpr (hchosen other (List.mem_cons_of_mem _ hmem)))
      (Nat.lt_of_succ_lt_succ hfewer) _

theorem refuses_settleLength {length off : Nat} {bits : List Bool} (h : Strays length bits off)
    (table symbol : Nat) :
    Op.Refuses (Op.read (settleLength table symbol length)) bits (.codeLength table symbol off) := by
  induction h with
  | off here =>
    simp only [AllowedLength] at here
    rw [settleLength_eq, if_pos (by omega)]
    exact .corrupt _
  | up here _ ih =>
    simp only [AllowedLength] at here
    rw [settleLength_eq, if_neg (by omega), Op.read_bind]
    refine (BitReader.reads_bit true).op.refuses (w := false :: _) ?_
    rw [if_pos rfl, Op.read_bind]
    exact (BitReader.reads_bit false).op.refuses ih
  | down here _ ih =>
    simp only [AllowedLength] at here
    rw [settleLength_eq, if_neg (by omega), Op.read_bind]
    refine (BitReader.reads_bit true).op.refuses (w := true :: _) ?_
    rw [if_pos rfl, Op.read_bind]
    refine (BitReader.reads_bit true).op.refuses ?_
    rw [stepped_down]
    exact ih

theorem refuses_readLengthsFrom {length count more off : Nat} {bits : List Bool}
    (h : StraysAlong length count more bits off) (table symbol : Nat) (before : Array Nat) :
    Op.Refuses (Op.read (readLengthsFrom table count symbol length before)) bits
      (.codeLength table (symbol + more) off) := by
  induction h generalizing symbol before with
  | here strays =>
    rw [readLengthsFrom, Op.read_bind]
    exact (refuses_settleLength strays table symbol).bind _
  | @later length target count more off v w first _ ih =>
    have hrest := ih (symbol + 1) (before.push target)
    rw [Nat.add_right_comm] at hrest
    rw [readLengthsFrom, Op.read_bind]
    exact (reads_settleLength first table symbol).op.refuses hrest

theorem refuses_readTable {alphabet symbol off : Nat} {bits : List Bool}
    (h : CodeStrays alphabet symbol bits off) (table : Nat) :
    Op.Refuses (readTable table alphabet) bits (.codeLength table symbol off) := by
  obtain ⟨hfirst, along⟩ := h
  have hsteps := refuses_readLengthsFrom along table 0 #[]
  rw [Nat.zero_add] at hsteps
  refine .bind ?_ _
  rw [readLengths, Op.read_bind]
  refine (BitReader.reads_number (by decide) (by decide) hfirst).op.refuses ?_
  rw [Op.read_bind]
  exact hsteps.bind _

theorem refuses_readTables {alphabet : Nat} (hsome : 0 < alphabet) {tables : List (List Nat)}
    {v w : List Bool} {symbol off count : Nat} (hwritten : WritesCodes alphabet tables v)
    (hstrays : CodeStrays alphabet symbol w off) (hfewer : tables.length < count) (table : Nat)
    (before : Array PrefixCode) :
    Op.Refuses (readTables alphabet count table before) (v ++ w)
      (.codeLength (table + tables.length) symbol off) := by
  induction hwritten generalizing count table before with
  | nil =>
    obtain ⟨count, rfl⟩ := Nat.exists_eq_succ_of_ne_zero (Nat.ne_zero_of_lt hfewer)
    exact (refuses_readTable hstrays table).bind _
  | cons first _ ih =>
    obtain ⟨count, rfl⟩ := Nat.exists_eq_succ_of_ne_zero (Nat.ne_zero_of_lt hfewer)
    obtain ⟨code, hcode⟩ := first.exists_code hsome
    rw [List.append_assoc, List.length_cons, Nat.add_comm _ 1, ← Nat.add_assoc]
    exact (reads_readTable first hcode table).refuses
      (ih (Nat.lt_of_succ_lt_succ hfewer) (table + 1) _)

/-- **What deviates is refused** where it does. -/
theorem refuses_read {alphabet : Nat} (hsome : 0 < alphabet) {bits : List Bool} {why : Corruption}
    (h : Deviates alphabet bits why) : Op.Refuses (read alphabet) bits why := by
  rw [read]
  cases h with
  | @tableCount count few outside =>
    rw [← List.append_nil (bitsOf 3 count)]
    refine (BitReader.reads_number (by decide) (by decide) few).op.refuses ?_
    rw [if_pos (show count < minTables ∨ maxTables < count from outside)]
    exact .corrupt _
  | @selectorCount count min max =>
    refine (BitReader.reads_number (by decide) (by decide) (by omega)).op.refuses ?_
    rw [if_neg (by simp only [minTables, maxTables]; omega), ← List.append_nil (bitsOf 15 0)]
    refine (BitReader.reads_number (by decide) (by decide) (by decide)).op.refuses ?_
    rw [if_pos rfl]
    exact .corrupt _
  | @selectorRank count selectorCount selectors min max many fewer below =>
    refine (BitReader.reads_number (by decide) (by decide) (by omega)).op.refuses ?_
    rw [if_neg (by simp only [minTables, maxTables]; omega)]
    refine (BitReader.reads_number (by decide) (by decide) (by omega)).op.refuses ?_
    rw [if_neg (by omega)]
    exact (refuses_readSelectors (tracks_range (by omega)) List.length_range
      (fun selector hmem => List.mem_range.mpr (below selector hmem)) fewer #[]).bind _
  | @codeLength count symbol off selectors tables v w selecting fewer written strays =>
    obtain ⟨min, max, some, many, below⟩ := id selecting
    refine (BitReader.reads_number (by decide) (by decide) (by omega)).op.refuses ?_
    rw [if_neg (by simp only [minTables, maxTables]; omega)]
    refine (BitReader.reads_number (by decide) (by decide) (by omega)).op.refuses ?_
    rw [if_neg (by omega)]
    have hranks := reads_readSelectors (tracks_range (by omega)) List.length_range
      (fun selector hmem => List.mem_range.mpr (below selector hmem)) #[]
    rw [Array.empty_append] at hranks
    have hcodes := refuses_readTables hsome written strays fewer 0 #[]
    rw [Nat.zero_add] at hcodes
    exact hranks.op.refuses (hcodes.bind _)

/-! ## All strings -/

/-- Whatever the codes and the selectors are, there are bits for them. -/
theorem exists_written {alphabet : Nat} (hsome : 0 < alphabet) {tables : List (List Nat)}
    (htables : ∀ lengths ∈ tables,
      lengths.length = alphabet ∧ ∀ length ∈ lengths, AllowedLength length)
    {selectors : List Nat} (hselecting : Selecting tables.length selectors) :
    ∃ bits, WritesGroupCodes alphabet tables selectors bits := by
  have hcodes : ∃ bits, WritesCodes alphabet tables bits := by
    clear hselecting
    induction tables with
    | nil => exact ⟨[], .nil⟩
    | cons lengths others ih =>
      obtain ⟨⟨hsize, hallowed⟩, hothers⟩ := List.forall_mem_cons.mp htables
      obtain ⟨bits, hbits⟩ := ih hothers
      cases lengths with
      | nil => exact absurd hsize (Nat.ne_of_lt hsome)
      | cons first lengths =>
        have hfirst := hallowed first List.mem_cons_self
        exact ⟨_, .cons (.intro hsize hfirst (stepsAlong_straight hfirst hallowed)) hbits⟩
  obtain ⟨bits, hbits⟩ := hcodes
  exact ⟨_, .intro hselecting hbits⟩

/--
**The codes and the selectors of a block are read exactly if they are written.** There are bits for
all of them, and any bits for them are read as what they are for, and no bit behind them. Whatever the
source does, nothing else is accepted. And if the source does not fail, the first field that deviates
is the reason for the failure, or the end of the input if nothing deviates before it.
-/
theorem reads_exactly {alphabet : Nat} (hsome : 0 < alphabet) :
    (∀ (tables : List (List Nat)) selectors, Selecting tables.length selectors →
      (∀ lengths ∈ tables, lengths.length = alphabet ∧ ∀ length ∈ lengths, AllowedLength length) →
      (∃ bits, WritesGroupCodes alphabet tables selectors bits)
      ∧ ∀ bits, WritesGroupCodes alphabet tables selectors bits →
        ∀ place rest (reader : BitReader), reader.Stands place (bits ++ rest) →
        ∃ codes after notes, read alphabet reader = .ok codes after notes
          ∧ MadeOf tables selectors codes ∧ after.Stands (place + bits.length) rest)
    ∧ (∀ reader : BitReader, reader.Sound →
      ∀ codes after notes, read alphabet reader = .ok codes after notes →
      ∃ tables selectors bits, WritesGroupCodes alphabet tables selectors bits
        ∧ MadeOf tables selectors codes ∧ reader.Passes bits after
        ∧ ∀ selector ∈ codes.pending, selector < codes.tables.size)
    ∧ (∀ place bits (reader : BitReader), reader.Stands place bits →
      ∀ front why, Deviates alphabet front why → front <+: bits →
      ∃ after notes, read alphabet reader = .error (.corrupt (place + front.length) why) after notes)
    ∧ ∀ place bits (reader : BitReader), reader.Stands place bits →
      (∀ tables selectors front, WritesGroupCodes alphabet tables selectors front → ¬front <+: bits) →
      (∀ front why, Deviates alphabet front why → ¬front <+: bits) →
      ∃ front after notes, front <+: bits
        ∧ read alphabet reader = .error (.endOfStream (place + front.length)) after notes := by
  have hparses := parses_read hsome
  refine ⟨fun tables selectors hselecting htables => ⟨exists_written hsome htables hselecting, ?_⟩,
    ?_, ?_, ?_⟩
  · intro bits hwritten place rest reader hreader
    obtain ⟨made, hmade⟩ := hwritten.exists_codes hsome
    obtain ⟨after, notes, hrun, hafter⟩ := (reads_read hwritten hmade).stands hparses hreader
    exact ⟨_, after, notes, hrun, ⟨made, hmade, rfl⟩, hafter⟩
  · intro reader hreader codes after notes hrun
    obtain ⟨bits, ⟨tables, selectors, hwritten, hmade⟩, hpasses⟩ := hparses.of_ok hreader hrun
    exact ⟨tables, selectors, bits, hwritten, hmade, hpasses,
      ((safe_read alphabet).of_ok hreader hrun).2.pending⟩
  · rintro place _ reader hreader front why hdeviates ⟨rest, rfl⟩
    obtain ⟨after, notes, hrun, _⟩ := (refuses_read hsome hdeviates).stands hparses hreader
    exact ⟨after, notes, hrun⟩
  · intro place bits reader hreader hunwritten hstraight
    cases hrun : read alphabet reader with
    | ok codes after notes =>
      obtain ⟨front, ⟨tables, selectors, hwritten, _⟩, hpasses⟩ :=
        hparses.of_ok hreader.toSound hrun
      exact absurd ⟨_, hpasses.upcoming.symm.trans hreader.upcoming⟩
        (hunwritten tables selectors front hwritten)
    | error reason after notes =>
      obtain ⟨front, hpasses, hfails⟩ := hparses.of_error hreader.toSound hrun
      have hfront : front <+: bits := ⟨_, hpasses.upcoming.symm.trans hreader.upcoming⟩
      cases hfails with
      | strays h => exact absurd hfront (hstraight front _ h)
      | halted h last =>
        rw [last hreader.smooth.stops, hpasses.position, hreader.position]
        exact ⟨front, after, notes, hfront, rfl⟩

/-- Two codes for three symbols and three selectors; a length of zero; nothing at all. -/
theorem reads_exactly_three :
    (∃ codes after notes,
      read 3 (.ofSource (.ofBytes ⟨#[0x40, 0x00, 0xD0, 0x40, 0x28]⟩)) = .ok codes after notes
        ∧ MadeOf [[2, 2, 2], [1, 2, 2]] [0, 1, 1] codes ∧ after.position = 40
        ∧ ∀ selector ∈ codes.pending, selector < codes.tables.size)
    ∧ (∃ after notes, read 3 (.ofSource (.ofBytes ⟨#[0x40, 0x00, 0x40]⟩))
        = .error (.corrupt 24 (.codeLength 0 0 0)) after notes)
    ∧ ∃ after notes, read 3 (.ofSource (.ofBytes ByteArray.empty))
        = .error (.endOfStream 0) after notes := by
  obtain ⟨haccepts, honly, hrefuses, hends⟩ := reads_exactly (by decide : 0 < 3)
  refine ⟨?_, ?_, ?_⟩
  · have hselecting : Selecting 2 [0, 1, 1] :=
      ⟨by decide, by decide, by decide, by decide, by decide⟩
    have hfirst : WritesCode 3 [2, 2, 2] (bitsOf 5 2 ++ straightAlong 2 [2, 2, 2]) :=
      .intro rfl (by decide) (stepsAlong_straight (by decide) (by decide))
    have hsecond : WritesCode 3 [1, 2, 2] (bitsOf 5 1 ++ straightAlong 1 [1, 2, 2]) :=
      .intro rfl (by decide) (stepsAlong_straight (by decide) (by decide))
    have hwritten : WritesGroupCodes 3 [[2, 2, 2], [1, 2, 2]] [0, 1, 1] _ :=
      .intro hselecting (.cons hfirst (.cons hsecond .nil))
    have hreader := BitReader.stands_ofSource ⟨#[0x40, 0x00, 0xD0, 0x40, 0x28]⟩
    obtain ⟨codes, after, notes, hrun, hmade, hafter⟩ :=
      (haccepts [[2, 2, 2], [1, 2, 2]] [0, 1, 1] hselecting (by decide)).2 _ hwritten 0 [] _ hreader
    obtain ⟨_, _, _, _, _, _, hpending⟩ := honly _ hreader.toSound codes after notes hrun
    exact ⟨codes, after, notes, hrun, hmade, hafter.position, hpending⟩
  · have hselecting : Selecting 2 [0] :=
      ⟨by decide, by decide, by decide, by decide, by decide⟩
    have hstrays : StraysAlong 0 3 0 [] 0 := .here (.off (by decide))
    have hdeviates : Deviates 3 _ (.codeLength 0 0 0) :=
      .codeLength hselecting (by decide) .nil (.intro (by decide) hstrays)
    exact hrefuses 0 _ _ (BitReader.stands_ofSource _) _ _ hdeviates (by decide)
  · have hreader := BitReader.stands_ofSource ByteArray.empty
    obtain ⟨front, after, notes, hfront, hrun⟩ := hends 0 _ _ hreader
      (fun _ _ _ hwritten hfront => by
        cases hwritten
        cases List.prefix_nil.mp hfront)
      (fun _ _ hdeviates hfront => by
        cases hdeviates <;> cases List.prefix_nil.mp hfront)
    cases List.prefix_nil.mp hfront
    exact ⟨after, notes, hrun⟩

end GroupCodes

end Bunzip

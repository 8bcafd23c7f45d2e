import Bunzip.Proofs.Format.Codewords
import Bunzip.Proofs.MoveToFront

/-!
# Codes and selectors are read as they were written

The lengths of a code may be reached by any steps that stay within what the format allows: straight
up or down to each length, or with detours. Selectors are written as ranks in a recency list of the
codes.
-/

namespace Bunzip

namespace Format

/-! ## Writing -/

/-- A length that the format allows. -/
def AllowedLength (length : Nat) : Prop := 1 ≤ length ∧ length ≤ PrefixCode.longest

instance (length : Nat) : Decidable (AllowedLength length) :=
  inferInstanceAs (Decidable (1 ≤ length ∧ length ≤ PrefixCode.longest))

/-- The bits lead from one length to another and end there, over lengths that are allowed. -/
inductive Steps : (length target : Nat) → List Bool → Prop
  | stop {length : Nat} (here : AllowedLength length) : Steps length length [false]
  | up {length target : Nat} {bits : List Bool} (here : AllowedLength length)
      (more : Steps (length + 1) target bits) : Steps length target (true :: false :: bits)
  | down {length target : Nat} {bits : List Bool} (here : AllowedLength (length + 1))
      (more : Steps length target bits) : Steps (length + 1) target (true :: true :: bits)

/-- The bits lead from one length along the targets, one after the other. -/
inductive StepsAlong : (length : Nat) → (targets : List Nat) → List Bool → Prop
  | nil {length : Nat} : StepsAlong length [] []
  | cons {length target : Nat} {targets : List Nat} {v w : List Bool}
      (first : Steps length target v) (more : StepsAlong target targets w) :
      StepsAlong length (target :: targets) (v ++ w)

/-- The ranks of the selectors in unary; `order` lists the codes, most recently used first. -/
def writeSelectors (order : List Nat) : (selectors : List Nat) → List Bool
  | [] => []
  | selector :: selectors =>
    (List.replicate (order.idxOf selector) true ++ [false])
      ++ writeSelectors (selector :: order.erase selector) selectors

/-- A code of these lengths is written as the length that the steps start from, and the steps. -/
inductive WritesCode (alphabet : Nat) (lengths : List Nat) : List Bool → Prop
  | intro {first : Nat} {steps : List Bool} (size : lengths.length = alphabet)
      (here : AllowedLength first) (along : StepsAlong first lengths steps) :
      WritesCode alphabet lengths (bitsOf 5 first ++ steps)

/-- Codes for one alphabet are written one after the other. -/
inductive WritesCodes (alphabet : Nat) : (tables : List (List Nat)) → List Bool → Prop
  | nil : WritesCodes alphabet [] []
  | cons {lengths : List Nat} {others : List (List Nat)} {v w : List Bool}
      (first : WritesCode alphabet lengths v) (more : WritesCodes alphabet others w) :
      WritesCodes alphabet (lengths :: others) (v ++ w)

/-- The selectors choose among so many codes, as the format allows it. -/
structure Selecting (tables : Nat) (selectors : List Nat) : Prop where
  min : 2 ≤ tables
  max : tables ≤ 6
  some : 1 ≤ selectors.length
  many : selectors.length ≤ 32767
  below : ∀ selector ∈ selectors, selector < tables

/-- The codes of a block, given by their lengths, and the selectors. -/
inductive WritesGroupCodes (alphabet : Nat) (tables : List (List Nat)) (selectors : List Nat) :
    List Bool → Prop
  | intro {codes : List Bool} (selecting : Selecting tables.length selectors)
      (written : WritesCodes alphabet tables codes) :
      WritesGroupCodes alphabet tables selectors
        (bitsOf 3 tables.length ++ (bitsOf 15 selectors.length
          ++ (writeSelectors (List.range tables.length) selectors ++ codes)))

/-- A code for an alphabet with so many bytes in use, and how its lengths are written. -/
structure WrittenCode (used : Nat) where
  lengths : List Nat
  /-- The length that the steps start from. -/
  first : Nat
  steps : List Bool
  size : lengths.length = used + 2
  along : StepsAlong first lengths steps
  kraft : kraftSum lengths ≤ 2 ^ PrefixCode.longest

/-- The codes and the selectors. -/
def writeCodes {used : Nat} (codes : List (WrittenCode used)) (selectors : List Nat) : List Bool :=
  bitsOf 3 codes.length ++ (bitsOf 15 selectors.length
    ++ (writeSelectors (List.range codes.length) selectors
      ++ codes.flatMap fun code => bitsOf 5 code.first ++ code.steps))

/-! ## All lengths can be written -/

theorem Steps.allowed {length target : Nat} {bits : List Bool} (h : Steps length target bits) :
    AllowedLength length ∧ AllowedLength target := by
  induction h with
  | stop here => exact ⟨here, here⟩
  | up here _ ih => exact ⟨here, ih.2⟩
  | down here _ ih => exact ⟨here, ih.2⟩

/-- The steps that lead straight from one length to another. -/
def straight (length target : Nat) : List Bool :=
  (List.replicate (target - length) [true, false]).flatten
    ++ ((List.replicate (length - target) [true, true]).flatten ++ [false])

/-- The steps that lead straight from each length to the next. -/
def straightAlong : (length : Nat) → (targets : List Nat) → List Bool
  | _, [] => []
  | length, target :: targets => straight length target ++ straightAlong target targets

theorem steps_straight {length target : Nat} (hlength : AllowedLength length)
    (htarget : AllowedLength target) : Steps length target (straight length target) := by
  obtain ⟨hlow, hhigh⟩ := hlength
  obtain ⟨htlow, hthigh⟩ := htarget
  rcases Nat.le_total length target with hle | hle
  · obtain ⟨distance, rfl⟩ := Nat.exists_eq_add_of_le hle
    rw [straight, Nat.add_sub_cancel_left, Nat.sub_eq_zero_of_le hle]
    clear hle htlow
    induction distance generalizing length with
    | zero => exact .stop ⟨hlow, hhigh⟩
    | succ distance ih =>
      rw [show length + (distance + 1) = length + 1 + distance by omega] at hthigh ⊢
      exact .up ⟨hlow, hhigh⟩ (ih (by omega) (by omega) hthigh)
  · obtain ⟨distance, rfl⟩ := Nat.exists_eq_add_of_le hle
    rw [straight, Nat.add_sub_cancel_left, Nat.sub_eq_zero_of_le hle]
    clear hle hlow hthigh
    induction distance with
    | zero => exact .stop ⟨htlow, hhigh⟩
    | succ distance ih => exact .down ⟨by omega, hhigh⟩ (ih (by omega))

/-- There are steps along any lengths that are allowed. -/
theorem stepsAlong_straight {length : Nat} (hlength : AllowedLength length) {targets : List Nat}
    (htargets : ∀ target ∈ targets, AllowedLength target) :
    StepsAlong length targets (straightAlong length targets) := by
  induction targets generalizing length with
  | nil => exact .nil
  | cons target targets ih =>
    have htarget := htargets target List.mem_cons_self
    exact .cons (steps_straight hlength htarget)
      (ih htarget fun other hmem => htargets other (List.mem_cons_of_mem _ hmem))

theorem StepsAlong.allowed {length : Nat} {targets : List Nat} {bits : List Bool}
    (h : StepsAlong length targets bits) : ∀ target ∈ targets, AllowedLength target := by
  induction h with
  | nil => exact fun _ hmem => nomatch hmem
  | cons first _ ih =>
    intro target hmem
    rcases List.mem_cons.mp hmem with rfl | hmem
    · exact first.allowed.2
    · exact ih target hmem

/-- Lengths that can be written make a code. -/
theorem WritesCode.exists_code {alphabet : Nat} (hsome : 0 < alphabet) {lengths : List Nat}
    {bits : List Bool} (h : WritesCode alphabet lengths bits) :
    ∃ code, PrefixCode.ofLengths? lengths = some code := by
  obtain ⟨size, _, along⟩ := h
  exact PrefixCode.exists_ofLengths (List.length_pos_iff.mp (by omega)) along.allowed

theorem WritesGroupCodes.exists_codes {alphabet : Nat} (hsome : 0 < alphabet)
    {tables : List (List Nat)} {selectors : List Nat} {bits : List Bool}
    (h : WritesGroupCodes alphabet tables selectors bits) :
    ∃ codes : List PrefixCode, tables.map PrefixCode.ofLengths? = codes.map some := by
  obtain ⟨selecting, written⟩ := h
  clear selecting
  induction written with
  | nil => exact ⟨[], rfl⟩
  | cons first _ ih =>
    obtain ⟨code, hcode⟩ := first.exists_code hsome
    obtain ⟨codes, hcodes⟩ := ih
    exact ⟨code :: codes, by rw [List.map_cons, List.map_cons, hcode, hcodes]⟩

namespace WrittenCode

variable {used : Nat} (written : WrittenCode used)

theorem writesCode :
    WritesCode (used + 2) written.lengths (bitsOf 5 written.first ++ written.steps) := by
  obtain ⟨lengths, first, steps, size, along, _⟩ := written
  have hfirst : AllowedLength first := by
    cases along with
    | nil => rw [List.length_nil] at size; omega
    | cons steps _ => exact steps.allowed.1
  exact .intro size hfirst along

theorem isSome_code : (PrefixCode.ofLengths? written.lengths).isSome :=
  Option.isSome_iff_exists.mpr (written.writesCode.exists_code (Nat.succ_pos _))

/-- The code itself. -/
def code : PrefixCode := (PrefixCode.ofLengths? written.lengths).get written.isSome_code

theorem ofLengths_code : PrefixCode.ofLengths? written.lengths = some written.code :=
  (Option.some_get _).symm

theorem writesCodes {used : Nat} (codes : List (WrittenCode used)) :
    WritesCodes (used + 2) (codes.map lengths)
      (codes.flatMap fun code => bitsOf 5 code.first ++ code.steps) := by
  induction codes with
  | nil => exact .nil
  | cons written codes ih => exact .cons written.writesCode ih

/-- Any code, written straight from each length to the next. -/
def ofLengths {used : Nat} (lengths : List Nat) (size : lengths.length = used + 2)
    (allowed : ∀ length ∈ lengths, AllowedLength length)
    (kraft : kraftSum lengths ≤ 2 ^ PrefixCode.longest) : WrittenCode used where
  lengths
  first := lengths.headD 1
  steps := straightAlong (lengths.headD 1) lengths
  size
  along := by
    refine stepsAlong_straight ?_ allowed
    cases lengths with
    | nil => decide
    | cons length lengths => exact allowed length List.mem_cons_self
  kraft

theorem allowed_flat {count : Nat} : ∀ length ∈ List.replicate count 9, AllowedLength length := by
  intro length hmem
  rw [List.eq_of_mem_replicate hmem]
  decide

/-- There are 512 codewords of nine bits. -/
theorem kraftSum_flat {count : Nat} (h : count ≤ 512) :
    kraftSum (List.replicate count 9) ≤ 2 ^ PrefixCode.longest := by
  rw [kraftSum, List.map_replicate, List.sum_replicate_nat, PrefixCode.longest]
  omega

/-- A code in which all codewords have nine bits. -/
def flat {used : Nat} (h : used ≤ 256) : WrittenCode used :=
  ofLengths (List.replicate (used + 2) 9) List.length_replicate allowed_flat
    (kraftSum_flat (Nat.le_trans (Nat.add_le_add_right h 2) (Nat.le_add_right 258 254)))

end WrittenCode

end Format

open Format

namespace GroupCodes

/-! ## Reading selectors -/

theorem reads_readSelectors {tables : Nat} {selectors order : List Nat} {recent : MoveToFront}
    (hrecent : recent.Tracks UInt8.toNat order) (horder : order.length = tables)
    (hselectors : ∀ selector ∈ selectors, selector ∈ order) (before : Array Nat) :
    (readSelectors tables selectors.length recent before).Reads (writeSelectors order selectors)
      (before ++ selectors.toArray) := by
  -- on the selectors; both lists move the code that is named to the front
  induction selectors generalizing order recent before with
  | nil =>
    rw [Array.append_empty]
    exact Read.Reads.pure before
  | cons selector selectors ih =>
    have hselector := hselectors selector List.mem_cons_self
    have hrank : order.idxOf selector < tables := by
      rw [← horder]
      exact List.idxOf_lt_length_of_mem hselector
    have hperm : (selector :: order.erase selector).Perm order :=
      (List.perm_cons_erase hselector).symm
    obtain ⟨value, after, hpromote, hvalue, hafter⟩ := hrecent.promote hselector
    have hrest := ih hafter (by rw [hperm.length_eq, horder])
      (fun other hmem => hperm.mem_iff.mpr (hselectors other (List.mem_cons_of_mem _ hmem)))
      (before.push selector)
    rw [show before.push selector ++ selectors.toArray = before ++ (selector :: selectors).toArray by
      simp] at hrest
    rw [writeSelectors, List.length_cons, readSelectors]
    refine (BitReader.reads_ones hrank).bind ?_
    rw [if_neg (by omega), hpromote]
    simp only [hvalue]
    exact hrest

/-! ## Reading lengths -/

theorem settleLength_stop {table symbol length : Nat} (hlength : AllowedLength length)
    {reader after : BitReader} (hbit : BitReader.bit reader = .ok false after) :
    settleLength table symbol length reader = .ok (length : Int) after := by
  simp only [AllowedLength] at hlength
  rw [settleLength, if_neg (by omega)]
  split
  · next hflag => rw [hbit] at hflag; cases hflag
  · next hflag => rw [hbit] at hflag; cases hflag; rfl
  · next hflag => rw [hbit] at hflag; cases hflag

theorem settleLength_step {table symbol length : Nat} (hlength : AllowedLength length)
    {reader stepping there : BitReader} {down : Bool}
    (hflag : BitReader.bit reader = .ok true stepping)
    (hstep : BitReader.bit stepping = .ok down there) :
    settleLength table symbol length reader
      = settleLength table symbol (stepped length down) there := by
  simp only [AllowedLength] at hlength
  rw [settleLength, if_neg (by omega)]
  split
  · next h => rw [hflag] at h; cases h
  · next h => rw [hflag] at h; cases h
  · next h =>
    rw [hflag] at h
    cases h
    split
    · next h => rw [hstep] at h; cases h
    · next h => rw [hstep] at h; cases h; rfl

theorem stepped_down (length : Nat) : stepped ((length + 1 : Nat) : Int) true = (length : Int) := by
  rw [stepped, if_pos rfl]
  push_cast
  omega

/-- Steps lead where they lead. -/
theorem reads_settleLength {length target : Nat} {bits : List Bool}
    (h : Steps length target bits) (table symbol : Nat) :
    (settleLength table symbol length).Reads bits (target : Int) := by
  -- each case is one turn of the reading loop
  induction h with
  | stop here =>
    intro reader rest hat
    obtain ⟨after, hbit, hafter⟩ := BitReader.reads_bit false reader rest hat
    exact ⟨after, settleLength_stop here hbit, hafter⟩
  | up here _ ih =>
    intro reader rest hat
    obtain ⟨stepping, hflag, hstepping⟩ := BitReader.reads_bit true reader _ hat
    obtain ⟨there, hstep, hthere⟩ := BitReader.reads_bit false stepping _ hstepping
    obtain ⟨after, hread, hafter⟩ := ih there rest hthere
    refine ⟨after, ?_, hafter⟩
    rw [settleLength_step here hflag hstep]
    exact hread
  | @down length target bits here _ ih =>
    intro reader rest hat
    obtain ⟨stepping, hflag, hstepping⟩ := BitReader.reads_bit true reader _ hat
    obtain ⟨there, hstep, hthere⟩ := BitReader.reads_bit true stepping _ hstepping
    obtain ⟨after, hread, hafter⟩ := ih there rest hthere
    refine ⟨after, ?_, hafter⟩
    rw [settleLength_step here hflag hstep, stepped_down]
    exact hread

theorem reads_readLengthsFrom {length : Nat} {targets : List Nat} {bits : List Bool}
    (h : StepsAlong length targets bits) (table symbol : Nat) (before : Array Nat) :
    (readLengthsFrom table targets.length symbol length before).Reads bits
      (before ++ targets.toArray) := by
  induction h generalizing symbol before with
  | nil =>
    rw [Array.append_empty]
    exact Read.Reads.pure before
  | @cons length target targets v w first _ ih =>
    have hrest := ih (symbol + 1) (before.push target)
    rw [show before.push target ++ targets.toArray = before ++ (target :: targets).toArray by
      simp] at hrest
    exact (reads_settleLength first table symbol).bind hrest

theorem reads_readTable {alphabet : Nat} {lengths : List Nat} {bits : List Bool} {code : PrefixCode}
    (h : WritesCode alphabet lengths bits) (hcode : PrefixCode.ofLengths? lengths = some code)
    (table : Nat) : Op.Reads BitReader.At (readTable table alphabet) bits code := by
  obtain @⟨first, steps, size, here, along⟩ := h
  have hfirst : first < 2 ^ 5 := by
    simp only [AllowedLength, PrefixCode.longest] at here
    omega
  have hlengths : (readLengths table alphabet).Reads (bitsOf 5 first ++ steps) lengths := by
    have hsteps := (reads_readLengthsFrom along table 0 #[]).map Array.toList
    rw [size, Array.empty_append] at hsteps
    exact (BitReader.reads_number (by decide) (by decide) hfirst).bind hsteps
  rw [← List.append_nil (bitsOf 5 first ++ steps)]
  refine hlengths.op.bind ?_
  rw [hcode]
  exact Op.Reads.get fun _ _ _ => (Op.Reads.note _).then (Op.Reads.pure _)

theorem reads_readTables {alphabet : Nat} {tables : List (List Nat)} {bits : List Bool}
    (h : WritesCodes alphabet tables bits) {codes : List PrefixCode}
    (hcodes : tables.map PrefixCode.ofLengths? = codes.map some) (table : Nat)
    (before : Array PrefixCode) :
    Op.Reads BitReader.At (readTables alphabet tables.length table before) bits
      (before ++ codes.toArray) := by
  induction h generalizing codes table before with
  | nil =>
    obtain rfl := List.map_eq_nil_iff.mp hcodes.symm
    rw [Array.append_empty]
    exact Op.Reads.pure before
  | cons first _ ih =>
    obtain ⟨code, codes, rfl, hcode, hcodes⟩ := List.map_eq_cons_iff.mp hcodes.symm
    have hrest := ih hcodes.symm (table + 1) (before.push code)
    rw [show before.push code ++ codes.toArray = before ++ (code :: codes).toArray by simp] at hrest
    exact (reads_readTable first hcode.symm table).bind hrest

theorem tracks_range {tables : Nat} (h : tables ≤ 256) :
    MoveToFront.start.Tracks UInt8.toNat (List.range tables) := by
  refine MoveToFront.tracks_start (by rwa [List.length_range]) fun i hi => ?_
  rw [List.length_range] at hi
  rw [UInt8.toNat_ofNat', Nat.mod_eq_of_lt (by omega), List.getElem_range]

/-- Every selector names a code. -/
theorem find?_selectors {tables : List (List Nat)} {selectors : List Nat}
    (h : Selecting tables.length selectors) {codes : List PrefixCode}
    (hcodes : tables.map PrefixCode.ofLengths? = codes.map some) :
    selectors.toArray.find? (codes.toArray.size ≤ ·) = none := by
  have hsize : codes.toArray.size = tables.length := by
    have hlength := congrArg List.length hcodes
    rw [List.length_map, List.length_map] at hlength
    rw [List.size_toArray, hlength]
  rw [Array.find?_eq_none]
  intro selector hmem
  have := h.below selector (List.mem_toArray.mp hmem)
  rw [hsize, decide_eq_true_eq]
  omega

/-- **The codes and the selectors are read as they were written.** -/
theorem reads_read {alphabet : Nat} {tables : List (List Nat)} {selectors : List Nat}
    {bits : List Bool} (h : WritesGroupCodes alphabet tables selectors bits) {codes : List PrefixCode}
    (hcodes : tables.map PrefixCode.ofLengths? = codes.map some) :
    Op.Reads BitReader.At (read alphabet) bits (start codes.toArray selectors) := by
  obtain @⟨v, selecting, written⟩ := h
  obtain ⟨hmin, hmax, hsome, hmany, hbelow⟩ := id selecting
  have htables := reads_readTables written hcodes 0 #[]
  rw [Array.empty_append] at htables
  rw [read]
  refine (BitReader.reads_number (by decide) (by decide) (by omega)).op.bind ?_
  rw [if_neg (by simp only [minTables, maxTables]; omega)]
  refine (BitReader.reads_number (by decide) (by decide) (by omega)).op.bind ?_
  rw [if_neg (by omega)]
  have hranks := reads_readSelectors (tracks_range (by omega)) List.length_range
    (fun selector hmem => List.mem_range.mpr (hbelow selector hmem)) #[]
  rw [Array.empty_append] at hranks
  refine hranks.op.bind ?_
  rw [← List.append_nil v]
  refine htables.bind ((Op.Reads.note _).then ?_)
  rw [find?_selectors selecting hcodes]
  exact Op.Reads.pure _

/-- Codes with a way to write them are read as they were written. -/
theorem reads_writeCodes {used : Nat} {codes : List (WrittenCode used)} {selectors : List Nat}
    (h : Selecting codes.length selectors) :
    Op.Reads BitReader.At (read (used + 2)) (writeCodes codes selectors)
      (start (codes.map WrittenCode.code).toArray selectors) := by
  have hwritten : WritesGroupCodes (used + 2) (codes.map WrittenCode.lengths) selectors
      (writeCodes codes selectors) := by
    have hselecting : Selecting (codes.map WrittenCode.lengths).length selectors := by
      rwa [List.length_map]
    have h := WritesGroupCodes.intro hselecting (WrittenCode.writesCodes codes)
    rwa [List.length_map] at h
  refine reads_read hwritten ?_
  rw [List.map_map, List.map_map]
  exact List.map_congr_left fun written _ => written.ofLengths_code

end GroupCodes

end Bunzip

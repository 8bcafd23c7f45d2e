import Bunzip.Proofs.Block.Safety
import Bunzip.Proofs.Locality.Fields

/-!
# Reading a block is local

A block is read field by field: its header, its symbol map, its codes and its symbols. Which field
comes next, and when a loop over fields ends, depends on the fields before and on nothing else.
-/

namespace Bunzip

/-- Reading as an operation on a reader alone. -/
theorem Read.Local.op {α : Type} {x : Read α} (h : x.Local) : Op.Local .alone (Op.read x) := h

/-! ## Symbol maps -/

namespace SymbolMap

theorem local_readWords (n : Nat) : (readWords n).Local := by
  induction n with
  | zero => exact .pure []
  | succ n ih => exact (BitReader.local_number (by decide) (by decide)).bind fun _ => ih.map _

theorem local_readMap : readMap.Local :=
  (BitReader.local_number (by decide) (by decide)).bind fun _ => (local_readWords _).map _

theorem local_read : Op.Local .alone read := by
  refine local_readMap.op.bind fun words => (Op.Local.noteAll _).bind fun _ => ?_
  by_cases none : (values words).isEmpty
  · rw [if_pos none]
    exact (Read.Local.corrupt _).op
  · rw [if_neg none]
    exact .pure _

end SymbolMap

/-! ## Codes -/

namespace PrefixCode

theorem local_match? (code : PrefixCode) (rows : List PrefixRow) (codeword : Int32) :
    (code.match? rows codeword).Local := by
  induction rows generalizing codeword with
  | nil => exact .corrupt _
  | cons row longer ih =>
    unfold match?
    split
    · split
      · exact .pure _
      · exact .corrupt _
    · split
      · exact .corrupt _
      · exact BitReader.local_bit.bind fun _ => ih _

/-- A codeword is begun with a field as long as the shortest one, which is not too wide. -/
theorem Sound.local_decode {alphabet : Nat} {code : PrefixCode} (h : code.Sound alphabet) :
    code.decode.Local := by
  obtain ⟨lengths, _, hcode⟩ := h
  obtain ⟨hmin, hle, hmax, _, _⟩ := ofLengths_spec hcode
  simp only [longest] at hmax
  exact (BitReader.local_bits hmin (by simp only [fieldLimit]; omega)).bind fun codeword =>
    code.local_match? _ _

end PrefixCode

namespace GroupCodes

theorem Sound.local_decode {alphabet : Nat} {codes : GroupCodes} (h : codes.Sound alphabet) :
    codes.decode.Local := by
  unfold GroupCodes.decode
  split
  · exact .throw fun _ => nofun
  · next table htable => exact (h.tables table (Array.mem_of_getElem? htable)).local_decode

theorem local_readSelectors (tables n : Nat) (recent : MoveToFront) (selectors : Array Nat) :
    (readSelectors tables n recent selectors).Local := by
  induction n generalizing recent selectors with
  | zero => exact .pure selectors
  | succ n ih =>
    refine (BitReader.local_onesAfter 0 tables).bind fun rank => ?_
    split
    · exact .corrupt _
    · split
      · exact .throw fun _ => nofun
      · exact ih _ _

/-- The walk to a length is one step, and then the walk from there. -/
theorem settleLength_eq (table symbol : Nat) (length : Int) :
    settleLength table symbol length =
      if length < 1 ∨ PrefixCode.longest < length then
        BitReader.corrupt (.codeLength table symbol length)
      else do
        if ← BitReader.bit then
          let down ← BitReader.bit
          settleLength table symbol (stepped length down)
        else return length := by
  funext reader
  rw [settleLength]
  split
  · rfl
  · simp only [Bind.bind, EStateM.bind]
    split
    · next hflag => rw [hflag]
    · next hflag =>
      rw [hflag]
      rfl
    · next hflag =>
      rw [hflag]
      simp only [if_true, EStateM.bind]
      split
      · next hdown => rw [hdown]
      · next hdown => rw [hdown]

theorem local_settleLength (table symbol : Nat) (length : Int) :
    (settleLength table symbol length).Local := by
  intro t place bits reader hreader
  -- every step of the walk spends bits, so on those that are left
  induction hn : reader.bitsLeft using Nat.strongRecOn generalizing length t place bits reader with
  | ind n ih =>
    rw [settleLength_eq]
    by_cases outside : length < 1 ∨ PrefixCode.longest < length
    · rw [if_pos outside]
      exact (Read.Local.corrupt _).op t place bits reader hreader
    rw [if_neg outside, Op.read_bind]
    refine (BitReader.local_bit t place bits reader hreader).bind hreader ?_
    intro more t' place' bits' hmore hmiddle
    cases more with
    | false => exact (Read.Local.pure length) t' place' bits' _ hmiddle
    | true =>
      rw [if_pos rfl, Op.read_bind]
      refine (BitReader.local_bit t' place' bits' _ hmiddle).bind hmiddle ?_
      intro down t'' place'' bits'' hdown hafter
      refine ih _ ?_ _ t'' place'' bits'' _ hafter rfl
      have hfirst := (Op.Spends.read BitReader.spends_bit).of_result hmore
      have hsecond := (Op.Spends.read BitReader.spends_bit).of_result hdown
      omega

theorem local_readLengthsFrom (table count symbol : Nat) (length : Int) (lengths : Array Nat) :
    (readLengthsFrom table count symbol length lengths).Local := by
  induction count generalizing symbol length lengths with
  | zero => exact .pure lengths
  | succ count ih => exact (local_settleLength table symbol length).bind fun settled => ih _ _ _

theorem local_readTable (table alphabet : Nat) : Op.Local .alone (readTable table alphabet) := by
  have hlengths : (readLengths table alphabet).Local :=
    (BitReader.local_number (by decide) (by decide)).bind fun first =>
      (local_readLengthsFrom table alphabet 0 first #[]).map _
  refine hlengths.op.bind fun lengths => ?_
  split
  · exact (Read.Local.corrupt _).op
  · refine Op.Local.get (fun a b _ hplace => ?_) fun _ => (Op.Local.note _).bind fun _ => .pure _
    simp only [View.alone, id_eq] at hplace
    simp only [hplace]

theorem local_readTables (alphabet count table : Nat) (tables : Array PrefixCode) :
    Op.Local .alone (readTables alphabet count table tables) := by
  induction count generalizing table tables with
  | zero => exact .pure tables
  | succ count ih => exact (local_readTable table alphabet).bind fun code => ih _ _

theorem local_read (alphabet : Nat) : Op.Local .alone (read alphabet) := by
  refine (BitReader.local_number (by decide) (by decide)).op.bind fun count => ?_
  split
  · exact (Read.Local.corrupt _).op
  refine (BitReader.local_number (by decide) (by decide)).op.bind fun selectorCount => ?_
  split
  · exact (Read.Local.corrupt _).op
  refine (local_readSelectors count selectorCount .start #[]).op.bind fun selectors =>
    (local_readTables alphabet count 0 #[]).bind fun tables => (Op.Local.note _).bind fun _ => ?_
  split
  · exact .fail fun _ => nofun
  · exact .pure _

end GroupCodes

/-! ## Blocks -/

namespace BlockDecoder

/-- A bench, seen as its decoder and its reader. -/
def view : View Bench BlockDecoder where
  reader := Prod.snd
  rest := Prod.fst
  le _ _ := True
  le_refl _ := trivial
  le_trans _ _ := trivial

/-- The reader on a bench. -/
def readerPart : view.Part .alone where
  get := Prod.snd
  set bench reader := (bench.1, reader)
  rest _ := ()
  put decoder _ := decoder
  reader_get _ := rfl
  reader_set _ _ := rfl
  rest_get _ := rfl
  rest_set _ _ := rfl
  le_put _ _ _ := trivial
  put_le _ _ _ _ := trivial

/-- A bench, seen as the length of its columns and its reader. Nothing else of the decoder matters. -/
def limitView : View Bench Nat where
  reader := Prod.snd
  rest bench := bench.1.maxLength
  le _ _ := True
  le_refl _ := trivial
  le_trans _ _ := trivial

/-- The reader on a bench of which only the length of its columns is seen. -/
def limitPart : limitView.Part .alone where
  get := Prod.snd
  set bench reader := (bench.1, reader)
  rest _ := ()
  put limit _ := limit
  reader_get _ := rfl
  reader_set _ _ := rfl
  rest_get _ := rfl
  rest_set _ _ := rfl
  le_put _ _ _ := trivial
  put_le _ _ _ _ := trivial

theorem local_onReader {α : Type} {op : Op BitReader α} (h : Op.Local .alone op) :
    Op.Local view (onReader op) := h.lift readerPart

theorem local_reading {α : Type} {x : Read α} (h : x.Local) : Op.Local view (reading x) :=
  local_onReader h.op

/-- What happens on the decoder alone reads nothing. -/
theorem local_onDecoder {α : Type} {op : Op BlockDecoder α}
    (h : ∀ decoder q, (op decoder).result ≠ .error (.endOfStream q)) :
    Op.Local view (onDecoder op) := by
  intro decoder _ _ _ _
  refine .still (op decoder).result (op decoder).notes (op decoder).state trivial (h decoder) ?_
  rintro ⟨_, reader⟩ rfl _
  exact ⟨Outcome.result_withState _ _, Outcome.notes_withState _ _, by
    rw [onDecoder, Outcome.state_withState]
    rfl, by
    rw [onDecoder, Outcome.state_withState]
    rfl⟩

theorem local_setIndex (index : Nat) : Op.Local view (onDecoder (setIndex index)) :=
  local_onDecoder fun _ _ h => nomatch (h : Except.ok () = _)

theorem local_takeUsed : Op.Local view (onDecoder takeUsed) :=
  local_onDecoder fun decoder _ h => nomatch (h : Except.ok decoder.used = _)

theorem local_enter (stage : Stage) : Op.Local view (onDecoder (enter stage)) :=
  local_onDecoder fun _ _ => nofun

theorem local_place : Op.Local view place := by
  refine Op.Local.get (fun a b _ hplace => ?_) fun _ => .pure _
  exact congrArg (Pure.pure : Nat → Op Bench Nat) hplace

/-! ### Columns -/

/-- A column beside a reader. -/
def columnView : View (Expansion × BitReader) Expansion where
  reader := Prod.snd
  rest := Prod.fst
  le _ _ := True
  le_refl _ := trivial
  le_trans _ _ := trivial

/-- The reader beside a column. -/
def besidePart : columnView.Part .alone where
  get := Prod.snd
  set state reader := (state.1, reader)
  rest _ := ()
  put e _ := e
  reader_get _ := rfl
  reader_set _ _ := rfl
  rest_get _ := rfl
  rest_set _ _ := rfl
  le_put _ _ _ := trivial
  put_le _ _ _ _ := trivial

/-- The column of the decoder on a bench, and its reader. -/
def columnPart : view.Part columnView where
  get bench := (bench.1.expansion, bench.2)
  set bench state := ({ bench.1 with column := state.1.column, counts := state.1.counts }, state.2)
  rest := expansion
  put decoder e := { decoder with column := e.column, counts := e.counts }
  reader_get _ := rfl
  reader_set _ _ := rfl
  rest_get _ := rfl
  rest_set _ _ := rfl
  le_put _ _ _ := trivial
  put_le _ _ _ _ := trivial

theorem read_beside {α : Type} (x : Read α) :
    Op.read (beside x) = besidePart.lift (Op.read x) := by
  funext ⟨e, reader⟩
  simp only [Op.read, beside, View.Part.lift, besidePart]
  cases x reader <;> rfl

/-- A symbol is taken in the same way whichever reader stands at this place. -/
theorem takeIn_elsewhere (limit : Nat) (used : Array UInt8) (symbol : Nat) (e : Expansion)
    {reader reader' : BitReader} (h : reader.position = reader'.position) :
    Op.read (takeIn limit used symbol) (e, reader)
      = (Op.read (takeIn limit used symbol) (e, reader')).withState fun state =>
        (state.1, reader) := by
  simp only [Op.read, takeIn, h]
  cases Expansion.push limit used symbol e with
  | error halt e => cases halt <;> rfl
  | ok done e => rfl

theorem local_takeIn (limit : Nat) (used : Array UInt8) (symbol : Nat) :
    Op.Local columnView (Op.read (takeIn limit used symbol)) := by
  rintro e place _ ⟨_, before⟩ ⟨-, hstands⟩
  have hcomplete : ∀ q, (Op.read (takeIn limit used symbol) (e, before)).result
      ≠ .error (.endOfStream q) := by
    intro q
    simp only [Op.read, takeIn]
    cases Expansion.push limit used symbol e with
    | error halt e => cases halt <;> rintro ⟨⟩
    | ok done e => rintro ⟨⟩
  have hsame : ∀ reader : BitReader, reader.position = place →
      Op.read (takeIn limit used symbol) (e, reader)
        = (Op.read (takeIn limit used symbol) (e, before)).withState fun state =>
          (state.1, reader) := fun reader hplace =>
    takeIn_elsewhere limit used symbol e (hplace.trans hstands.position.symm)
  generalize Op.read (takeIn limit used symbol) (e, before) = outcome at hcomplete hsame
  refine .still outcome.result outcome.notes outcome.state.1 trivial hcomplete ?_
  rintro ⟨other, reader⟩ hrest hplace
  obtain rfl : other = e := hrest
  rw [hsame reader hplace]
  refine ⟨Outcome.result_withState _ _, Outcome.notes_withState _ _, ?_, ?_⟩ <;>
    rw [Outcome.state_withState] <;> rfl

theorem local_expandFrom {limit : Nat} {used : Array UInt8} {codes : GroupCodes} {alphabet : Nat}
    (hcodes : codes.Sound alphabet) :
    Op.Local columnView (Op.read (expandFrom limit used codes)) := by
  fun_induction expandFrom limit used codes with
  | case1 =>
    rw [read_beside]
    exact (Read.Local.corrupt _).op.lift besidePart
  | case2 codes after turn ih =>
    have hafter := (hcodes.advance? turn).1
    rw [Op.read_bind, read_beside]
    refine (hafter.local_decode.op.lift besidePart).bind fun symbol => ?_
    rw [Op.read_bind]
    refine (local_takeIn limit used _).bind fun _ => ?_
    split
    · exact .pure _
    · exact ih hafter

theorem local_expand {used : Array UInt8} {codes : GroupCodes} {alphabet : Nat}
    (hcodes : codes.Sound alphabet) : Op.Local view (expand used codes) := by
  have hclear : Op.Local view (onDecoder clear) :=
    local_onDecoder fun _ _ h => nomatch (h : Except.ok () = _)
  refine hclear.bind fun _ => Op.Local.get (fun a b hrest _ => ?_) fun bench => ?_
  · have hdecoder : a.1 = b.1 := hrest
    rw [hdecoder]
  · refine ((local_expandFrom hcodes).lift columnPart).bind fun _ =>
      Op.Local.get (fun a b hrest _ => ?_) fun bench => .pure _
    have hdecoder : a.1 = b.1 := hrest
    rw [hdecoder]

theorem local_readHeader (index : Nat) : Op.Local view (readHeader index) := by
  refine (local_setIndex index).bind fun _ => (local_enter _).bind fun _ =>
    (local_reading BitReader.local_word).bind fun stored =>
      (local_reading BitReader.local_bit).bind fun randomized => ?_
  split
  · exact .fail fun _ => nofun
  · exact (local_reading (BitReader.local_number (by decide) (by decide))).bind fun origin =>
      local_place.bind fun _ => (Op.Local.note _).bind fun _ => .pure _

theorem local_readColumn (index : Nat) : Op.Local view (readColumn index) := by
  refine (local_enter _).bind fun _ => (local_onReader SymbolMap.local_read).bind fun symbols =>
    (Op.Local.note _).bind fun _ => (local_enter _).bind fun _ => ?_
  have hsafe : Op.Safe (fun bench : Bench => bench.2.Sound)
      (onReader (GroupCodes.read (symbols.length + 2))) (GroupCodes.Sound (symbols.length + 2)) := by
    intro bench hbench
    have safe := GroupCodes.safe_read (symbols.length + 2) bench.2 hbench
    simp only [onReader]
    cases hr : GroupCodes.read (symbols.length + 2) bench.2 with
    | ok codes after notes => rw [hr] at safe; exact safe
    | error reason after notes => rw [hr] at safe; exact safe
  -- the codes are for symbols of the alphabet, so none of their codewords is too long for a field
  refine (local_onReader (GroupCodes.local_read _)).bind_safe hsafe
    (fun _ _ _ _ hstands => hstands.reader.toSound) fun codes hcodes => ?_
  exact (local_enter _).bind fun _ => (local_expand hcodes).bind fun e =>
    (Op.Local.note _).bind fun _ => .pure _

theorem local_startWalk (e : Expansion) (origin : Nat) : Op.Local view (startWalk e origin) := by
  refine local_takeUsed.bind fun used => ?_
  split
  · exact .fail fun _ => nofun
  · split
    · exact local_reading (.corrupt _)
    · exact .pure _

theorem local_readBlock (index : Nat) : Op.Local view (readBlock index) := by
  refine (local_readHeader index).bind fun ⟨stored, origin⟩ =>
    (local_readColumn index).bind fun e => ?_
  simp only
  split
  · exact local_reading (.corrupt _)
  · exact (local_enter _).bind fun _ => (local_startWalk e origin).bind fun walk =>
      (local_enter _).bind fun _ => .pure _

end BlockDecoder

end Bunzip

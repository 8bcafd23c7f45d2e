import Bunzip.Proofs.Block.LeastBits
import Bunzip.Proofs.Block.Reuse
import Bunzip.Proofs.Codes.Grammar
import Bunzip.Proofs.Format.Symbols

/-!
# What a failing block says

A block that is not read fails in the stage that the decoder names afterwards, at the place that the
reader has reached, and each stage has failures of its own. `GivenUp` lists them; what it does not list
cannot happen. So the checks that are made a second time never fail: the lengths that have been read
make a code, every selector names one, and the origin of a column is looked up within its bounds
(`BlockDecoder.readBlock_tells`).
-/

namespace Bunzip

open Format

/-! ## How operations end -/

/-- A value in a state that fits it, or a failure that fits the state. -/
def Outcome.Ends {σ α : Type} (done : α → σ → Prop) (failed : DecodeError → σ → Prop) :
    Outcome σ α → Prop
  | .ok a after _ => done a after
  | .error reason after _ => failed reason after

namespace Outcome.Ends

variable {σ α β : Type} {done : α → σ → Prop} {failed : DecodeError → σ → Prop}

theorem mono {outcome : Outcome σ α} {wider : α → σ → Prop} {wide : DecodeError → σ → Prop}
    (h : outcome.Ends done failed) (hdone : ∀ a after, done a after → wider a after)
    (hfailed : ∀ reason after, failed reason after → wide reason after) :
    outcome.Ends wider wide := by
  cases outcome with
  | ok a after notes => exact hdone a after h
  | error reason after notes => exact hfailed reason after h

/-- The second operation may build on what has become of the first one. -/
theorem bind {op : Op σ α} {next : α → Op σ β} {last : β → σ → Prop} {state : σ}
    (hop : (op state).Ends done failed)
    (hnext : ∀ a middle notes, op state = .ok a middle notes → done a middle →
      (next a middle).Ends last failed) : ((op >>= next) state).Ends last failed := by
  rw [Op.bind_eq]
  cases hr : op state with
  | error reason after notes =>
    rw [hr] at hop
    exact hop
  | ok a middle notes =>
    rw [hr] at hop
    have hsecond := hnext a middle notes hr hop
    simp only
    cases hs : next a middle with
    | error reason after more => rw [hs] at hsecond; exact hsecond
    | ok b after more => rw [hs] at hsecond; exact hsecond

end Outcome.Ends

/-- A failure at a place of the bits: a check of the format that failed there, or the source. -/
inductive Reported (strays : Corruption → Prop) (place : Nat) : DecodeError → Prop
  | corrupt {why : Corruption} (h : strays why) : Reported strays place (.corrupt place why)
  | halted {reason : DecodeError} (h : BitReader.Halted place reason) : Reported strays place reason

theorem BitReader.Fails.reported {reader after : BitReader} {strays : Corruption → Prop}
    {reason : DecodeError} (h : reader.Fails strays after reason) :
    Reported strays after.position reason := by
  cases h with
  | strays h => exact .corrupt h
  | halted h _ => exact .halted h

theorem Reported.mono {strays wider : Corruption → Prop} {place : Nat} {reason : DecodeError}
    (h : Reported strays place reason) (hwider : ∀ why, strays why → wider why) :
    Reported wider place reason := by
  cases h with
  | corrupt h => exact .corrupt (hwider _ h)
  | halted h => exact .halted h

/-! ## What is refused where -/

theorem BitReader.parses_word :
    Op.Parses (Op.read word) (fun _ _ => True) fun _ _ => False := by
  rw [word, Op.read_bind]
  refine (parses_bits (by decide) (by decide)).bind (fun _ _ h => h) fun _ high _ => ?_
  rw [Op.read_bind]
  exact (parses_bits (by decide) (by decide)).bind (fun _ _ h => h) fun _ _ _ => .pure trivial

theorem SymbolMap.parses_readWords (n : Nat) :
    Op.Parses (Op.read (readWords n)) (fun _ _ => True) fun _ _ => False := by
  induction n with
  | zero => exact .pure trivial
  | succ n ih =>
    rw [readWords, Op.read_bind]
    refine (BitReader.parses_number (by decide) (by decide)).bind (fun _ _ h => h) fun _ _ _ => ?_
    rw [Op.read_bind]
    exact ih.bind (fun _ _ h => h) fun _ _ _ => .pure trivial

/-- A symbol map is refused only when it marks nothing. -/
theorem SymbolMap.parses_read :
    Op.Parses read (fun _ _ => True) fun _ why => why = .noSymbols := by
  have hmap : Op.Parses (Op.read readMap) (fun _ _ => True) fun _ _ => False := by
    rw [readMap, Op.read_bind]
    refine (BitReader.parses_number (by decide) (by decide)).bind (fun _ _ h => h) fun _ _ _ => ?_
    rw [Op.read_bind]
    exact (parses_readWords _).bind (fun _ _ h => h) fun _ _ _ => .pure trivial
  refine hmap.bind (fun _ _ h => h.elim) fun _ words _ => (Op.Parses.noteAll _).then fun _ => ?_
  by_cases none : (values words).isEmpty
  · rw [if_pos none]
    exact .corrupt rfl
  · rw [if_neg none]
    exact .pure trivial

theorem PrefixCode.parses_match? (code : PrefixCode) (rows : List PrefixRow) (codeword : Int32) :
    Op.Parses (Op.read (code.match? rows codeword)) (fun _ _ => True)
      fun _ why => why = .invalidCode := by
  induction rows generalizing codeword with
  | nil => exact .corrupt rfl
  | cons row longer ih =>
    unfold match?
    split
    · split
      · exact .pure trivial
      · exact .corrupt rfl
    · split
      · exact .corrupt rfl
      · rw [Op.read_bind]
        exact BitReader.parses_bit.bind (fun _ _ h => h.elim) fun _ _ _ => ih _

/-- Only a codeword that there is not is refused. -/
theorem PrefixCode.Sound.parses_decode {alphabet : Nat} {code : PrefixCode} (h : code.Sound alphabet) :
    Op.Parses (Op.read code.decode) (fun _ _ => True) fun _ why => why = .invalidCode := by
  obtain ⟨lengths, _, hcode⟩ := h
  obtain ⟨hmin, hle, hmax, _, _⟩ := ofLengths_spec hcode
  simp only [longest] at hmax
  rw [PrefixCode.decode, Op.read_bind]
  exact (BitReader.parses_bits hmin (by omega)).bind (fun _ _ h => h.elim) fun _ codeword _ =>
    code.parses_match? _ _

/--
What may be wrong with the codes of a block: `used` byte values are marked in its map, and `tables` is
how many codes it says it has.
-/
inductive CodesRefused (used tables : Nat) : Corruption → Prop
  | tableCount (count : tables = 0 ∨ tables = 1 ∨ tables = 7) :
      CodesRefused used tables (.tableCount tables)
  | selectorCount : CodesRefused used tables (.selectorCount 0)
  | selectorRank : CodesRefused used tables (.selectorRank tables)
  | codeLength {table symbol : Nat} {length : Int} (table_lt : table < tables)
      (symbol_lt : symbol < used + 2) (outside : length < 1 ∨ 20 < length) :
      CodesRefused used tables (.codeLength table symbol length)

/-- What may be wrong with the symbols of a block, for columns up to a limit. -/
inductive SymbolsRefused (limit : Nat) : Corruption → Prop
  | invalidCode : SymbolsRefused limit .invalidCode
  | selectorsExhausted : SymbolsRefused limit .selectorsExhausted
  | blockOverflow : SymbolsRefused limit (.blockOverflow limit)

/-- A deviation is one of the things that may be wrong with codes, and the codes have been counted. -/
theorem Format.Deviates.refused {used : Nat} {bits : List Bool} {why : Corruption}
    (h : Deviates (used + 2) bits why) :
    ∃ tables, bitsOf 3 tables <+: bits ∧ CodesRefused used tables why := by
  cases h with
  | @tableCount count few outside =>
    exact ⟨count, List.prefix_rfl, .tableCount (by omega)⟩
  | selectorCount min max => exact ⟨_, List.prefix_append _ _, .selectorCount⟩
  | selectorRank min max many fewer below => exact ⟨_, List.prefix_append _ _, .selectorRank⟩
  | codeLength selecting fewer written strays =>
    obtain ⟨_, along⟩ := strays
    obtain ⟨hsymbol, hoff⟩ := along.spec
    refine ⟨_, List.prefix_append _ _, .codeLength fewer hsymbol ?_⟩
    simp only [AllowedLength, PrefixCode.longest] at hoff
    omega

namespace BlockDecoder

/-! ## Symbols -/

theorem ends_beside {α : Type} {x : Read α} {strays : List Bool → Corruption → Prop}
    {written : List Bool → α → Prop} (h : Op.Parses (Op.read x) written strays) (e : Expansion)
    {reader : BitReader} (hreader : reader.Sound) :
    (Op.read (beside x) (e, reader)).Ends (fun _ _ => True)
      fun reason after => Reported (fun why => ∃ bits, strays bits why) after.2.position reason := by
  have hparsed := h reader hreader
  simp only [Op.read, beside] at hparsed ⊢
  cases hr : x reader with
  | ok a after => trivial
  | error reason after =>
    rw [hr] at hparsed
    obtain ⟨bits, _, hfails⟩ := hparsed
    exact hfails.reported.mono fun why h => ⟨bits, h⟩

theorem ends_takeIn {limit symbol : Nat} {used : Array UInt8} (hlimit : limit < 2 ^ 24)
    (hused : 0 < used.size) (hsymbol : symbol < used.size + 2) {state : Expansion × BitReader}
    (hstate : Expanding limit used.size state) :
    (Op.read (takeIn limit used symbol) state).Ends (fun _ _ => True)
      fun reason after => Reported (SymbolsRefused limit) after.2.position reason := by
  have hpush := hstate.1.push hlimit hused hsymbol
  simp only [Op.read, takeIn]
  cases hp : Expansion.push limit used symbol state.1 with
  | ok done after => trivial
  | error halt after =>
    rw [hp] at hpush
    obtain ⟨rfl, _⟩ := hpush
    exact .corrupt .blockOverflow

/-- Whatever symbols a block has, only three things may be wrong with them. -/
theorem ends_expandFrom {limit : Nat} {used : Array UInt8} {codes : GroupCodes}
    (hlimit : limit < 2 ^ 24) (hused : 0 < used.size) (hcodes : codes.Sound (used.size + 2))
    {state : Expansion × BitReader} (hstate : Expanding limit used.size state) :
    (Op.read (expandFrom limit used codes) state).Ends (fun _ _ => True)
      fun reason after => Reported (SymbolsRefused limit) after.2.position reason := by
  fun_induction expandFrom limit used codes generalizing state with
  | case1 => exact .corrupt .selectorsExhausted
  | case2 codes after turn ih =>
    obtain ⟨e, reader⟩ := state
    obtain ⟨hafter, hcurrent⟩ := hcodes.advance? turn
    have hdecode : Op.Parses (Op.read after.decode) (fun _ _ => True)
        fun _ why => why = .invalidCode := by
      rw [GroupCodes.decode, Array.getElem?_eq_getElem hcurrent]
      exact (hafter.tables _ (Array.getElem_mem hcurrent)).parses_decode
    have hinvalid : ∀ why, (∃ _bits : List Bool, why = .invalidCode) → SymbolsRefused limit why := by
      rintro _ ⟨_, rfl⟩
      exact .invalidCode
    have hsymbol := (ends_beside hdecode e hstate.2).mono (fun _ _ h => h)
      fun reason last h => h.mono hinvalid
    rw [Op.read_bind]
    refine hsymbol.bind fun symbol middle _ hrun _ => ?_
    obtain ⟨hmiddle, hlt⟩ := (safe_beside (hafter.decode hcurrent) limit used.size).of_ok hstate hrun
    rw [Op.read_bind]
    refine (ends_takeIn hlimit hused hlt hmiddle).bind fun _ last _ hrun _ => ?_
    split
    · trivial
    · exact ih hafter ((safe_takeIn hlimit hused hlt).of_ok hmiddle hrun).1

/-! ## Stages -/

/-- The decoder is in this stage, over a reader in order. -/
structure Standing (limit : Nat) (stage : Stage) (bench : Bench) : Prop where
  maxLength : bench.1.maxLength = limit
  stage : bench.1.stage = stage
  reader : bench.2.Sound

theorem Standing.enter {limit : Nat} {old : Stage} {bench : Bench} (h : Standing limit old bench)
    (stage : Stage) {failed : DecodeError → Bench → Prop} :
    (onDecoder (BlockDecoder.enter stage) bench).Ends
      (fun _ after => Standing limit stage after ∧ after.2 = bench.2) failed :=
  ⟨⟨h.maxLength, rfl, h.reader⟩, rfl⟩

/--
What a block that is not read is given up for, by the stage that the decoder is in and the place that
the reader has reached.
-/
inductive GivenUp (limit index : Nat) (bench : Bench) (place : Nat) : Stage → DecodeError → Prop
  /-- The source has come to its end or has failed. -/
  | halted {stage : Stage} {reason : DecodeError}
      (reads : stage = .header ∨ stage = .symbolMap ∨ stage = .tables ∨ stage = .symbols)
      (h : BitReader.Halted place reason) : GivenUp limit index bench place stage reason
  | randomized : GivenUp limit index bench place .header (.unsupported "randomized blocks")
  | noSymbols : GivenUp limit index bench place .symbolMap (.corrupt place .noSymbols)
  /-- There are this many symbols in the map, and the codes start with this count of them. -/
  | codes {header : Bench} {stored : UInt32} {origin tables : Nat} {symbols : List UInt8}
      {mapped : BitReader} {first second : List Note} {why : Corruption}
      (header_read : readHeader index bench = .ok (stored, origin) header first)
      (map_read : SymbolMap.read header.2 = .ok symbols mapped second)
      (count : bitsOf 3 tables <+: mapped.upcoming)
      (refused : CodesRefused symbols.length tables why) :
      GivenUp limit index bench place .tables (.corrupt place why)
  | symbols {why : Corruption} (refused : SymbolsRefused limit why) :
      GivenUp limit index bench place .symbols (.corrupt place why)
  /-- The origin that the header names is none of the rows. -/
  | originPointer {header : Bench} {stored : UInt32} {origin length : Nat} {notes : List Note}
      (header_read : readHeader index bench = .ok (stored, origin) header notes)
      (outside : length ≤ origin) (within : length ≤ limit) :
      GivenUp limit index bench place .symbols (.corrupt place (.originPointer origin length))

/-- A block is given up while bits are read. -/
theorem GivenUp.reads {limit index place : Nat} {bench : Bench} {stage : Stage}
    {reason : DecodeError} (h : GivenUp limit index bench place stage reason) :
    stage = .header ∨ stage = .symbolMap ∨ stage = .tables ∨ stage = .symbols := by
  cases h with
  | halted reads _ => exact reads
  | randomized => exact .inl rfl
  | noSymbols => exact .inr (.inl rfl)
  | codes => exact .inr (.inr (.inl rfl))
  | symbols => exact .inr (.inr (.inr rfl))
  | originPointer => exact .inr (.inr (.inr rfl))

/-- The failure of a block in the state of the bench that is left behind. -/
def Fails (limit index : Nat) (bench : Bench) (reason : DecodeError) (after : Bench) : Prop :=
  GivenUp limit index bench after.2.position after.1.stage reason

/--
What works on the bits only stays in its stage. If it fails, it is for what the source does or for what
it refuses.
-/
theorem Standing.onReader {limit index : Nat} {stage : Stage} {bench middle : Bench}
    (h : Standing limit stage middle)
    (reads : stage = .header ∨ stage = .symbolMap ∨ stage = .tables ∨ stage = .symbols)
    {α : Type} {op : Op BitReader α} {written : List Bool → α → Prop}
    {strays : List Bool → Corruption → Prop} (hop : op.Parses written strays)
    (hstrays : ∀ bits why place, strays bits why → bits <+: middle.2.upcoming →
      GivenUp limit index bench place stage (.corrupt place why)) :
    (BlockDecoder.onReader op middle).Ends (fun _ after => Standing limit stage after)
      (Fails limit index bench) := by
  have hparsed := hop middle.2 h.reader
  simp only [BlockDecoder.onReader]
  cases hr : op middle.2 with
  | ok a after notes =>
    rw [hr] at hparsed
    obtain ⟨bits, _, hpasses⟩ := hparsed
    exact ⟨h.maxLength, h.stage, hpasses.sound⟩
  | error reason after notes =>
    rw [hr] at hparsed
    obtain ⟨bits, hpasses, hfails⟩ := hparsed
    show GivenUp limit index bench after.position middle.1.stage reason
    rw [h.stage]
    cases hfails with
    | strays hwhy => exact hstrays bits _ _ hwhy ⟨_, hpasses.upcoming.symm⟩
    | halted hhalted _ => exact .halted reads hhalted

theorem ends_readHeader {bench : Bench} (hreader : bench.2.Sound) (index : Nat) :
    (readHeader index bench).Ends (fun _ after => Standing bench.limit .header after)
      (Fails bench.limit index bench) := by
  have hindex : (onDecoder (setIndex index) bench).Ends
      (fun _ after => Standing bench.limit bench.1.stage after) (Fails bench.limit index bench) :=
    ⟨rfl, rfl, hreader⟩
  -- the three fields of a header are not refused, whatever they are
  have hfield : ∀ {α : Type} {x : Read α} {written : List Bool → α → Prop},
      Op.Parses (Op.read x) written (fun _ _ => False) → ∀ {middle : Bench},
      Standing bench.limit .header middle →
      (reading x middle).Ends (fun _ after => Standing bench.limit .header after)
        (Fails bench.limit index bench) := by
    intro α x written hx middle hmiddle
    exact hmiddle.onReader (.inl rfl) hx fun _ _ _ h _ => h.elim
  refine hindex.bind fun _ opened _ _ hopened =>
    (hopened.enter .header).bind fun _ entered _ _ hentered =>
      (hfield BitReader.parses_word hentered.1).bind fun stored middle _ _ hmiddle =>
        (hfield BitReader.parses_bit hmiddle).bind fun randomized behind _ _ hbehind => ?_
  split
  · show Fails bench.limit index bench (.unsupported "randomized blocks") behind
    rw [Fails, hbehind.stage]
    exact .randomized
  · exact (hfield (BitReader.parses_number (by decide) (by decide)) hbehind).bind
      fun origin last _ _ hlast => hlast

theorem ends_expand {limit : Nat} (hlimit : limit < 2 ^ 24) {used : Array UInt8} {codes : GroupCodes}
    (hused : 0 < used.size) (hfew : used.size ≤ 256) (hcodes : codes.Sound (used.size + 2))
    {bench : Bench} (h : Standing limit .symbols bench) :
    (expand used codes bench).Ends (fun _ after => Standing limit .symbols after)
      fun reason after => Standing limit .symbols after
        ∧ Reported (SymbolsRefused limit) after.2.position reason := by
  obtain ⟨decoder, reader⟩ := bench
  obtain ⟨rfl, hstage, hreader⟩ := h
  have hstart : Expanding decoder.maxLength used.size (.start, reader) :=
    ⟨Expansion.sound_start hfew, hreader⟩
  have hsafe := safe_expandFrom hlimit hused hcodes (.start, reader) hstart
  have hends := ends_expandFrom hlimit hused hcodes hstart
  rw [expand_eq]
  simp only [Op.read] at hsafe hends
  cases hr : expandFrom decoder.maxLength used codes (.start, reader) with
  | ok done after =>
    rw [hr] at hsafe
    exact ⟨rfl, hstage, hsafe.1.2⟩
  | error reason after =>
    rw [hr] at hsafe hends
    exact ⟨⟨rfl, hstage, hsafe.1.2⟩, hends⟩

theorem ends_readColumn {limit index : Nat} (hlimit : limit < 2 ^ 24) {bench header : Bench}
    {stored : UInt32} {origin : Nat} {notes : List Note}
    (hheader : readHeader index bench = .ok (stored, origin) header notes)
    (h : Standing limit .header header) :
    (readColumn index header).Ends (fun _ after => Standing limit .symbols after)
      (Fails limit index bench) := by
  refine (h.enter .symbolMap).bind fun _ mapping _ _ ⟨hmapping, hsame⟩ => ?_
  have hmap : (onReader SymbolMap.read mapping).Ends
      (fun _ after => Standing limit .symbolMap after) (Fails limit index bench) := by
    refine hmapping.onReader (.inr (.inl rfl)) SymbolMap.parses_read ?_
    rintro _ _ place rfl _
    exact .noSymbols
  refine hmap.bind fun symbols mapped _ hsymbols hmapped => ?_
  have hread := ok_of_onReader hsymbols
  obtain ⟨_, hsome, hfew⟩ := SymbolMap.safe_read.of_ok hmapping.reader hread
  rw [hsame] at hread
  have hnoted : (Op.note (.symbols symbols.length index) mapped).Ends
      (fun _ after => after = mapped) (Fails limit index bench) := rfl
  refine hnoted.bind fun _ _ _ _ hmapped' => ?_
  subst hmapped'
  refine (hmapped.enter .tables).bind fun _ coding _ _ ⟨hcoding, hsame⟩ => ?_
  have htables : (onReader (GroupCodes.read (symbols.length + 2)) coding).Ends
      (fun _ after => Standing limit .tables after) (Fails limit index bench) := by
    refine hcoding.onReader (.inr (.inr (.inl rfl))) (GroupCodes.parses_read (Nat.succ_pos _)) ?_
    intro bits why place hdeviates hbits
    obtain ⟨tables, hcount, hrefused⟩ := hdeviates.refused
    rw [hsame] at hbits
    exact .codes hheader hread (hcount.trans hbits) hrefused
  refine htables.bind fun codes coded _ hcodes hcoded =>
    (hcoded.enter .symbols).bind fun _ expanding _ _ ⟨hexpanding, _⟩ => ?_
  have hsound := ((GroupCodes.safe_read _).of_ok hcoding.reader (ok_of_onReader hcodes)).2
  have hexpand := (ends_expand hlimit (List.length_pos_iff.mpr hsome) hfew hsound hexpanding).mono
    (fun _ _ h => h) fun reason after ⟨hafter, hreason⟩ => by
      show Fails limit index bench reason after
      rw [Fails, hafter.stage]
      cases hreason with
      | corrupt h => exact .symbols h
      | halted h => exact .halted (.inr (.inr (.inr rfl))) h
  exact hexpand.bind fun e after _ _ hafter => hafter

/-- A column has a walk from each of its rows. -/
theorem ends_startWalk {e : Expansion} (he : Column e) {origin : Nat} (horigin : origin < e.column.size)
    {limit : Nat} {stage : Stage} {bench : Bench} (h : Standing limit stage bench)
    {failed : DecodeError → Bench → Prop} :
    (startWalk e origin bench).Ends (fun _ after => Standing limit stage after) failed := by
  have hshort := he.short
  rw [ByteString.size_eq_length] at hshort horigin
  obtain ⟨walk, hwalk, _⟩ := Walk.start?_ofColumn hshort horigin
  have htake : (onDecoder takeUsed bench).Ends (fun _ after => Standing limit stage after) failed :=
    ⟨h.maxLength, h.stage, h.reader⟩
  refine htake.bind fun used taken _ _ htaken => ?_
  simp only [RotationLinks.build?_eq used he.counts he.short, hwalk]
  exact htaken

/-- A block is read in its last stage, or it is given up. -/
theorem ends_readBlock {bench : Bench} (hbench : Bench.Sound bench) (index : Nat) :
    (readBlock index bench).Ends (fun _ after => after.1.stage = .output)
      (Fails bench.limit index bench) := by
  have hlimit : bench.limit < 2 ^ 24 := Nat.lt_of_le_of_lt hbench.maxLength (by decide)
  refine (ends_readHeader hbench.reader index).bind fun ⟨stored, origin⟩ header _ hheader hstanding =>
    (ends_readColumn hlimit hheader hstanding).bind fun e column _ hcolumn hexpanded => ?_
  have hsound : Bench.Sound header :=
    ⟨hstanding.maxLength.trans_le hbench.maxLength, hstanding.reader⟩
  obtain ⟨_, hcounts, hsize⟩ :=
    (safe_readColumn_limit index bench.limit).of_ok ⟨hsound, hstanding.maxLength⟩ hcolumn
  by_cases outside : e.column.size ≤ origin
  · simp only [if_pos outside]
    show Fails bench.limit index bench
      (.corrupt column.2.position (.originPointer origin e.column.size)) column
    rw [Fails, hexpanded.stage]
    exact .originPointer hheader outside hsize
  · simp only [if_neg outside]
    have he : Column e := ⟨Nat.lt_of_le_of_lt hsize hlimit, hcounts⟩
    exact (hexpanded.enter .links).bind fun _ linking _ _ hlinking =>
      (ends_startWalk he (Nat.lt_of_not_le outside) hlinking.1).bind fun walk walked _ _ hwalked =>
        (hwalked.enter .output).bind fun _ after _ _ hafter => hafter.1.stage

/-! ## Blocks without bytes -/

/-- A block that is read up to its first symbol, which ends it. -/
inductive EndsAtOnce (index : Nat) (bench : Bench) : (origin : Nat) → (last : BitReader) → Prop
  | intro {header : Bench} {stored : UInt32} {origin : Nat} {symbols : List UInt8}
      {mapped coded last : BitReader} {codes after : GroupCodes} {symbol : UInt16}
      {first second third : List Note}
      (header_read : readHeader index bench = .ok (stored, origin) header first)
      (map_read : SymbolMap.read header.2 = .ok symbols mapped second)
      (codes_read : GroupCodes.read (symbols.length + 2) mapped = .ok codes coded third)
      (decoded : GroupCodes.next (codes, coded) = .ok symbol (after, last))
      (ends : symbol.toNat = Expansion.endSymbol symbols.length) :
      EndsAtOnce index bench origin last

/-- A turn, and then a codeword. -/
theorem advance_of_next {codes after : GroupCodes} {reader last : BitReader} {symbol : UInt16}
    (h : GroupCodes.next (codes, reader) = .ok symbol (after, last)) :
    codes.advance? = some after ∧ after.decode reader = .ok symbol last := by
  rw [GroupCodes.next] at h
  cases hturn : codes.advance? with
  | none => simp only [hturn] at h; cases h
  | some turned =>
    simp only [hturn] at h
    cases hdecode : turned.decode reader with
    | error reason stopped => simp only [hdecode] at h; cases h
    | ok found behind => simp only [hdecode] at h; cases h; exact ⟨rfl, hdecode⟩

/-- Nothing is expanded when the first symbol ends the block. -/
theorem expand_ends {used : Array UInt8} (hused : 0 < used.size) {codes after : GroupCodes}
    {reader last : BitReader} {symbol : UInt16}
    (hnext : GroupCodes.next (codes, reader) = .ok symbol (after, last))
    (hends : symbol.toNat = Expansion.endSymbol used.size) (decoder : BlockDecoder) :
    expand used codes (decoder, reader) = .ok .start
      ({ decoder with column := Expansion.start.column, counts := Expansion.start.counts }, last)
      [] := by
  obtain ⟨hturn, hdecode⟩ := advance_of_next hnext
  have hrun : expandFrom decoder.maxLength used codes (.start, reader) = .ok () (.start, last) := by
    rw [expandFrom_step _ _ hturn hdecode, hends, push_end_start _ hused]
    exact if_pos rfl
  rw [expand_eq, hrun]
  rfl

theorem onReader_of_ok {α : Type} {op : Op BitReader α} {reader after : BitReader} {a : α}
    {notes : List Note} (h : op reader = .ok a after notes) (decoder : BlockDecoder) :
    onReader op (decoder, reader) = .ok a (decoder, after) notes := by
  simp only [onReader, h]
  rfl

/-- The column of a block that ends at once is empty. -/
theorem readColumn_ends (index : Nat) (decoder : BlockDecoder) {reader mapped coded last : BitReader}
    {symbols : List UInt8} {codes after : GroupCodes} {symbol : UInt16} {first second : List Note}
    (map_read : SymbolMap.read reader = .ok symbols mapped first)
    (codes_read : GroupCodes.read (symbols.length + 2) mapped = .ok codes coded second)
    (decoded : GroupCodes.next (codes, coded) = .ok symbol (after, last))
    (ends : symbol.toNat = Expansion.endSymbol symbols.length) (hsome : 0 < symbols.length) :
    ∃ left notes, readColumn index (decoder, reader) = .ok .start (left, last) notes := by
  have hmap := onReader_of_ok map_read { decoder with stage := .symbolMap }
  have hcodes := onReader_of_ok codes_read { decoder with stage := .tables }
  have hexpand := @expand_ends symbols.toArray hsome codes after coded last symbol decoded ends
    { decoder with stage := .symbols }
  have henter : ∀ (stage : Stage) (bench : Bench), onDecoder (enter stage) bench
      = .ok () ({ bench.1 with stage }, bench.2) [.stage bench.1.index bench.1.stage stage] :=
    fun _ _ => rfl
  have hnote : ∀ (note : Note) (bench : Bench), Op.note note bench = .ok () bench [note] :=
    fun _ _ => rfl
  simp only [readColumn, Op.bind_of_eq_ok (henter _ _), Op.bind_of_eq_ok (hnote _ _),
    Op.bind_of_eq_ok hmap, Op.bind_of_eq_ok hcodes, Op.bind_of_eq_ok hexpand]
  exact ⟨_, _, rfl⟩

/-- A block without bytes has no row for its origin. -/
theorem EndsAtOnce.readBlock {index origin : Nat} {bench : Bench} {last : BitReader}
    (h : EndsAtOnce index bench origin last) (hreader : bench.2.Sound) :
    ∃ left notes, BlockDecoder.readBlock index bench
        = .error (.corrupt last.position (.originPointer origin 0)) (left, last) notes := by
  obtain @⟨header, stored, _, symbols, mapped, coded, _, codes, after, symbol, first, second, third,
    header_read, map_read, codes_read, decoded, ends⟩ := h
  have hheader := ends_readHeader hreader index
  rw [header_read] at hheader
  have hsome := (SymbolMap.safe_read.of_ok hheader.reader map_read).2.1
  obtain ⟨left, notes, hcolumn⟩ : ∃ left notes,
      readColumn index header = .ok .start (left, last) notes :=
    readColumn_ends index header.1 map_read codes_read decoded ends (List.length_pos_iff.mpr hsome)
  have houtside : Expansion.start.column.size ≤ origin := Nat.zero_le origin
  rw [BlockDecoder.readBlock, Op.bind_of_eq_ok header_read]
  simp only
  rw [Op.bind_of_eq_ok hcolumn]
  simp only [if_pos houtside]
  exact ⟨left, _, rfl⟩

/--
**A failing block says where and why.** Whatever the decoder has been used for and whatever the source
does, a block is read if and only if the decoder is in its last stage afterwards. If it is not, its
stage and the place of the reader go with the reason. A block whose first symbol ends it is never read:
the row that it starts in is none of no rows.
-/
theorem readBlock_tells {digit : Nat} (hdigit : digit ≤ 9) (uses : List Use) {reader : BitReader}
    (hreader : reader.Sound) (index : Nat) :
    ((∃ block after notes, readBlock index (afterUses uses (ofDigit digit), reader)
        = .ok block after notes)
      ↔ (readBlock index (afterUses uses (ofDigit digit), reader)).state.1.stage = .output)
    ∧ (∀ reason after notes,
      readBlock index (afterUses uses (ofDigit digit), reader) = .error reason after notes →
      after.1.stage ≠ .links
        ∧ GivenUp (digit * 100000) index (afterUses uses (ofDigit digit), reader) after.2.position
          after.1.stage reason)
    ∧ ∀ origin last, EndsAtOnce index (afterUses uses (ofDigit digit), reader) origin last →
      ∃ left notes, readBlock index (afterUses uses (ofDigit digit), reader)
          = .error (.corrupt last.position (.originPointer origin 0)) (left, last) notes := by
  have hmaxLength : (afterUses uses (ofDigit digit)).maxLength = digit * 100000 :=
    maxLength_afterUses uses _
  have hbench : Bench.Sound (afterUses uses (ofDigit digit), reader) :=
    ⟨by rw [hmaxLength]; omega, hreader⟩
  have hends := ends_readBlock hbench index
  simp only [Bench.limit, hmaxLength] at hends
  refine ⟨?_, ?_, fun origin last h => h.readBlock hreader⟩
  · cases hrun : readBlock index (afterUses uses (ofDigit digit), reader) with
    | ok block after notes =>
      rw [hrun] at hends
      exact ⟨fun _ => hends, fun _ => ⟨block, after, notes, rfl⟩⟩
    | error reason after notes =>
      rw [hrun] at hends
      constructor
      · rintro ⟨_, _, _, h⟩
        cases h
      · intro (houtput : after.1.stage = .output)
        rcases GivenUp.reads hends with h | h | h | h <;> rw [houtput] at h <;> cases h
  · intro reason after notes hrun
    rw [hrun] at hends
    refine ⟨fun hlinks => ?_, hends⟩
    rcases GivenUp.reads hends with h | h | h | h <;> rw [hlinks] at h <;> cases h

/-- A block for one byte value that ends with its first symbol. -/
def emptyBlock : BitReader :=
  .ofSource (.ofBytes ⟨#[0x00, 0x00, 0x00, 0x00, 0x00, 0x00, 0x00, 0x40, 0x00, 0x40, 0x00, 0x20, 0x00,
    0x20, 0xA0, 0x28, 0xC0]⟩)

/-- Its codes: the same one twice, with codewords of one and of two bits, and a single group. -/
def emptyBlockCodes : GroupCodes :=
  .start #[⟨1, 2, [⟨0, 0⟩, ⟨3, 1⟩], #[0, 1, 2]⟩, ⟨1, 2, [⟨0, 0⟩, ⟨3, 1⟩], #[0, 1, 2]⟩] [0]

theorem emptyBlock_endsAtOnce :
    ∃ last, last.position = 130 ∧ EndsAtOnce 1 (ofDigit 1, emptyBlock) 0 last := by
  let header := readHeader 1 (ofDigit 1, emptyBlock)
  let map := SymbolMap.read header.state.2
  let codes := GroupCodes.read 3 map.state
  have hheader : header.result = .ok (0, 0) := by decide +kernel
  have hmap : map.result = .ok [0] := by decide +kernel
  have hcodes : codes.result = .ok emptyBlockCodes := by decide +kernel
  have hnext : (match GroupCodes.next (emptyBlockCodes, codes.state) with
      | .ok symbol after => decide (symbol = 2 ∧ after.2.position = 130)
      | .error _ _ => false) = true := by decide +kernel
  cases hdecoded : GroupCodes.next (emptyBlockCodes, codes.state) with
  | error reason stopped =>
    rw [hdecoded] at hnext
    cases hnext
  | ok symbol after =>
    rw [hdecoded] at hnext
    obtain ⟨rfl, hposition⟩ := of_decide_eq_true hnext
    exact ⟨after.2, hposition, .intro (Outcome.eq_ok_of_result hheader)
      (Outcome.eq_ok_of_result hmap) (Outcome.eq_ok_of_result hcodes) hdecoded rfl⟩

/--
Zeros mark no byte value, also before a decoder that has failed with them. The block that ends at once
is given up with its last bit.
-/
theorem readBlock_tells_zeros :
    (readBlock 1 (afterUses [.recycle ⟨#[1, 2, 3]⟩, .read 7 zeros] (ofDigit 1), zeros)).result
        = .error (.corrupt 73 .noSymbols)
      ∧ (readBlock 1 (afterUses [.recycle ⟨#[1, 2, 3]⟩, .read 7 zeros] (ofDigit 1),
          zeros)).state.1.stage = .symbolMap
      ∧ GivenUp 100000 1
        (afterUses [.recycle ⟨#[1, 2, 3]⟩, .read 7 zeros] (ofDigit 1), zeros) 73 .symbolMap
        (.corrupt 73 .noSymbols)
      ∧ (readBlock 1 (afterUses [] (ofDigit 1), emptyBlock)).result
        = .error (.corrupt 130 (.originPointer 0 0)) := by
  have hresult : (readBlock 1 (afterUses [.recycle ⟨#[1, 2, 3]⟩, .read 7 zeros] (ofDigit 1),
      zeros)).result = .error (.corrupt 73 .noSymbols) := by decide +kernel
  have hstate : (readBlock 1 (afterUses [.recycle ⟨#[1, 2, 3]⟩, .read 7 zeros] (ofDigit 1),
      zeros)).state.1.stage = .symbolMap ∧ (readBlock 1 (afterUses [.recycle ⟨#[1, 2, 3]⟩,
        .read 7 zeros] (ofDigit 1), zeros)).state.2.position = 73 := by decide +kernel
  have hsound : zeros.Sound := BitReader.sound_ofSource _
  have hempty : emptyBlock.Sound := BitReader.sound_ofSource _
  have hzeros := (readBlock_tells (by decide : 1 ≤ 9) [.recycle ⟨#[1, 2, 3]⟩, .read 7 zeros]
    hsound 1).2.1 _ _ _ (Outcome.eq_error_of_result hresult)
  rw [hstate.1, hstate.2] at hzeros
  obtain ⟨last, hlast, hends⟩ := emptyBlock_endsAtOnce
  obtain ⟨left, notes, hrun⟩ := (readBlock_tells (by decide : 1 ≤ 9) []
    hempty 1).2.2 0 last hends
  refine ⟨hresult, hstate.1, hzeros.2, ?_⟩
  rw [hrun, hlast]
  rfl

end BlockDecoder

end Bunzip

import Bunzip.Proofs.Locality.Fields

/-!
# What computations accept and what they refuse

Two questions about a computation are answered here from the bits before the reader. What has it read
when it succeeds, and what when it fails? A computation parses a language if its success leaves the
reader behind a string of the language; its failure is then a deviation, found right where the reader
stands, or the fault of the source. And which strings does it refuse? A string is refused if the
computation fails behind it wherever it comes next.

Nothing is assumed of the source for the first question. For the second it delivers all its bytes.
-/

namespace Bunzip

open Format

namespace BitReader

/-- The reader that has handed out these bits is this one now. -/
structure Passes (reader : BitReader) (bits : List Bool) (after : BitReader) : Prop where
  sound : after.Sound
  upcoming : reader.upcoming = bits ++ after.upcoming
  position : after.position = reader.position + bits.length
  stops : after.source.stops ≤ reader.source.stops

/--
A failure at the place of the reader: a deviation of this kind, or the fault of the source. Only the
end of the input is left as the fault of a source that never fails.
-/
inductive Fails (reader : BitReader) (strays : Corruption → Prop) (after : BitReader) :
    DecodeError → Prop
  | strays {why : Corruption} (h : strays why) :
      Fails reader strays after (.corrupt after.position why)
  | halted {reason : DecodeError} (h : Halted after.position reason)
      (last : reader.source.stops = 0 → reason = .endOfStream after.position) :
      Fails reader strays after reason

variable {reader middle after : BitReader} {v w : List Bool}

theorem Passes.refl (h : reader.Sound) : reader.Passes [] reader :=
  ⟨h, rfl, rfl, Nat.le_refl _⟩

theorem Passes.trans (hv : reader.Passes v middle) (hw : middle.Passes w after) :
    reader.Passes (v ++ w) after where
  sound := hw.sound
  upcoming := by rw [hv.upcoming, hw.upcoming, List.append_assoc]
  position := by rw [hw.position, hv.position, List.length_append, Nat.add_assoc]
  stops := Nat.le_trans hw.stops hv.stops

/-- Bits that are left tell which ones have been passed. -/
theorem Passes.stands {place : Nat} {rest : List Bool} (h : reader.Passes v after)
    (hreader : reader.Stands place (w ++ rest)) (hafter : after.At rest) :
    after.Stands (place + w.length) rest := by
  have hsplit := h.upcoming
  rw [hreader.upcoming, hafter.upcoming] at hsplit
  obtain rfl := List.append_cancel_right hsplit
  exact ⟨hafter, by rw [h.position, hreader.position]⟩

theorem Fails.mono {strays wider : Corruption → Prop} {reason : DecodeError}
    (h : reader.Fails strays after reason) (hwider : ∀ why, strays why → wider why) :
    reader.Fails wider after reason := by
  cases h with
  | strays h => exact .strays (hwider _ h)
  | halted h last => exact .halted h last

/-- A failure after some bits. -/
theorem Fails.of_passes {strays : Corruption → Prop} {reason : DecodeError}
    (h : middle.Fails strays after reason) (hpasses : reader.Passes v middle) :
    reader.Fails strays after reason := by
  cases h with
  | strays h => exact .strays h
  | halted h last =>
    exact .halted h fun hnone => last (Nat.le_zero.mp (hnone ▸ hpasses.stops))

end BitReader

/-- The reader is behind bits that are written so; or it is behind others, and what fails fits them. -/
def Outcome.Parsed {α : Type} (reader : BitReader) (written : List Bool → α → Prop)
    (strays : List Bool → Corruption → Prop) : Outcome BitReader α → Prop
  | .ok a after _ => ∃ bits, written bits a ∧ reader.Passes bits after
  | .error reason after _ => ∃ bits, reader.Passes bits after ∧ reader.Fails (strays bits) after reason

theorem Outcome.Parsed.mono {α : Type} {reader : BitReader} {written written' : List Bool → α → Prop}
    {strays strays' : List Bool → Corruption → Prop} {outcome : Outcome BitReader α}
    (h : outcome.Parsed reader written strays)
    (hwritten : ∀ bits a, written bits a → written' bits a)
    (hstrays : ∀ bits why, strays bits why → strays' bits why) :
    outcome.Parsed reader written' strays' := by
  cases outcome with
  | ok a after notes =>
    obtain ⟨bits, hbits, hpasses⟩ := h
    exact ⟨bits, hwritten bits a hbits, hpasses⟩
  | error reason after notes =>
    obtain ⟨bits, hpasses, hfails⟩ := h
    exact ⟨bits, hpasses, hfails.mono (hstrays bits)⟩

namespace Op

variable {α β : Type} {written : List Bool → α → Prop} {strays : List Bool → Corruption → Prop}

/-- The bits that are read are written so for the value, or stray so. -/
def Parses (op : Op BitReader α) (written : List Bool → α → Prop)
    (strays : List Bool → Corruption → Prop) : Prop :=
  ∀ reader, reader.Sound → (op reader).Parsed reader written strays

/-- The computation fails right behind these bits, for this reason. -/
def Refuses (op : Op BitReader α) (bits : List Bool) (why : Corruption) : Prop :=
  ∀ (reader : BitReader) (rest : List Bool), reader.At (bits ++ rest) →
    ∃ after notes, op reader = .error (.corrupt after.position why) after notes ∧ after.At rest

/-! ## What is parsed -/

theorem Parses.of_ok {op : Op BitReader α} (h : op.Parses written strays) {reader after : BitReader}
    {a : α} {notes : List Note} (hreader : reader.Sound) (ran : op reader = .ok a after notes) :
    ∃ bits, written bits a ∧ reader.Passes bits after := by
  have parsed := h reader hreader
  rw [ran] at parsed
  exact parsed

theorem Parses.of_error {op : Op BitReader α} (h : op.Parses written strays)
    {reader after : BitReader} {reason : DecodeError} {notes : List Note} (hreader : reader.Sound)
    (ran : op reader = .error reason after notes) :
    ∃ bits, reader.Passes bits after ∧ reader.Fails (strays bits) after reason := by
  have parsed := h reader hreader
  rw [ran] at parsed
  exact parsed

theorem Parses.pure {a : α} (h : written [] a) : Parses (Pure.pure a) written strays :=
  fun _ hreader => ⟨[], h, .refl hreader⟩

theorem Parses.corrupt {why : Corruption} (h : strays [] why) :
    Parses (Op.read (BitReader.corrupt why)) written strays :=
  fun _ hreader => ⟨[], .refl hreader, .strays h⟩

theorem Parses.note (n : Note) : Parses (Op.note n) (fun bits _ => bits = []) strays :=
  fun _ hreader => ⟨[], rfl, .refl hreader⟩

theorem Parses.noteAll (ns : List Note) : Parses (Op.noteAll ns) (fun bits _ => bits = []) strays :=
  fun _ hreader => ⟨[], rfl, .refl hreader⟩

theorem Parses.get : Parses Op.get (fun bits _ => bits = []) strays :=
  fun _ hreader => ⟨[], rfl, .refl hreader⟩

theorem Parses.mono {op : Op BitReader α} (h : op.Parses written strays)
    {written' : List Bool → α → Prop} {strays' : List Bool → Corruption → Prop}
    (hwritten : ∀ bits a, written bits a → written' bits a)
    (hstrays : ∀ bits why, strays bits why → strays' bits why) : op.Parses written' strays' :=
  fun reader hreader => (h reader hreader).mono hwritten hstrays

/-- From a given reader: the second operation is parsed behind the bits of the first one. -/
theorem Parsed.bind {op : Op BitReader α} {next : α → Op BitReader β}
    {last : List Bool → β → Prop} {wider : List Bool → Corruption → Prop} {reader : BitReader}
    (hop : (op reader).Parsed reader written strays)
    (hstrays : ∀ bits why, strays bits why → wider bits why)
    (hnext : ∀ front a middle notes, op reader = .ok a middle notes → written front a → middle.Sound →
      (next a middle).Parsed middle (fun bits b => last (front ++ bits) b)
        (fun bits why => wider (front ++ bits) why)) :
    ((op >>= next) reader).Parsed reader last wider := by
  rw [bind_eq]
  cases hr : op reader with
  | error reason after notes =>
    rw [hr] at hop
    obtain ⟨bits, hpasses, hfails⟩ := hop
    exact ⟨bits, hpasses, hfails.mono (hstrays bits)⟩
  | ok a middle notes =>
    rw [hr] at hop
    obtain ⟨front, hwritten, hfront⟩ := hop
    have hsecond := hnext front a middle notes hr hwritten hfront.sound
    simp only
    cases hs : next a middle with
    | error reason after more =>
      rw [hs] at hsecond
      obtain ⟨bits, hbits, hfails⟩ := hsecond
      exact ⟨front ++ bits, hfront.trans hbits, hfails.of_passes hfront⟩
    | ok b after more =>
      rw [hs] at hsecond
      obtain ⟨bits, hwritten, hbits⟩ := hsecond
      exact ⟨front ++ bits, hwritten, hfront.trans hbits⟩

theorem Parses.bind {op : Op BitReader α} {next : α → Op BitReader β}
    {last : List Bool → β → Prop} {wider : List Bool → Corruption → Prop}
    (hop : op.Parses written strays) (hstrays : ∀ bits why, strays bits why → wider bits why)
    (hnext : ∀ front a, written front a → (next a).Parses (fun bits b => last (front ++ bits) b)
      (fun bits why => wider (front ++ bits) why)) :
    (op >>= next).Parses last wider := fun reader hreader =>
  Parsed.bind (hop reader hreader) hstrays fun front a middle _ _ hwritten hmiddle =>
    hnext front a hwritten middle hmiddle

/-- The case of `Parses.bind` where the first operation reads nothing. -/
theorem Parses.then {op : Op BitReader α} {next : α → Op BitReader β}
    {last : List Bool → β → Prop} {wider : List Bool → Corruption → Prop}
    (hop : op.Parses (fun bits _ => bits = []) fun _ _ => False)
    (hnext : ∀ a, (next a).Parses last wider) : (op >>= next).Parses last wider := by
  refine hop.bind (fun _ _ h => h.elim) ?_
  rintro _ a rfl
  exact hnext a

/-! ## What is refused -/

theorem Refuses.corrupt (why : Corruption) :
    Refuses (Op.read (BitReader.corrupt why) : Op BitReader α) [] why :=
  fun reader _ h => ⟨reader, [], rfl, h⟩

theorem Refuses.bind {op : Op BitReader α} {bits : List Bool} {why : Corruption}
    (h : op.Refuses bits why) (next : α → Op BitReader β) : (op >>= next).Refuses bits why := by
  intro reader rest hreader
  obtain ⟨after, notes, hrun, hafter⟩ := h reader rest hreader
  exact ⟨after, notes, by rw [bind_eq, hrun], hafter⟩

/-- What comes after bits that are read may be refused. -/
theorem Reads.refuses {op : Op BitReader α} {next : α → Op BitReader β} {v w : List Bool} {a : α}
    {why : Corruption} (hop : Reads BitReader.At op v a) (hnext : (next a).Refuses w why) :
    (op >>= next).Refuses (v ++ w) why := by
  intro reader rest h
  rw [List.append_assoc] at h
  obtain ⟨middle, first, hfirst, hmiddle⟩ := hop.front next h
  obtain ⟨after, second, hsecond, hafter⟩ := hnext middle rest hmiddle
  exact ⟨after, first ++ second, by rw [hfirst, hsecond]; rfl, hafter⟩

/-! ## Places -/

theorem Reads.stands {op : Op BitReader α} {bits rest : List Bool} {a : α}
    (hreads : Reads BitReader.At op bits a) (hparses : op.Parses written strays) {place : Nat}
    {reader : BitReader} (h : reader.Stands place (bits ++ rest)) :
    ∃ after notes, op reader = .ok a after notes ∧ after.Stands (place + bits.length) rest := by
  obtain ⟨after, notes, hrun, hafter⟩ := hreads reader rest h.toAt
  obtain ⟨front, _, hpasses⟩ := hparses.of_ok h.toSound hrun
  exact ⟨after, notes, hrun, hpasses.stands h hafter⟩

theorem Refuses.stands {op : Op BitReader α} {bits rest : List Bool} {why : Corruption}
    (hrefuses : op.Refuses bits why) (hparses : op.Parses written strays) {place : Nat}
    {reader : BitReader} (h : reader.Stands place (bits ++ rest)) :
    ∃ after notes, op reader = .error (.corrupt (place + bits.length) why) after notes
      ∧ after.Stands (place + bits.length) rest := by
  obtain ⟨after, notes, hrun, hafter⟩ := hrefuses reader rest h.toAt
  obtain ⟨front, hpasses, _⟩ := hparses.of_error h.toSound hrun
  have hstands := hpasses.stands h hafter
  exact ⟨after, notes, by rw [hrun, hstands.position], hstands⟩

end Op

/-! ## Fields -/

namespace BitReader

/-- A field is read, unless the source fails. -/
theorem parses_bits {n : Nat} (hpos : 0 < n) (hn : n ≤ 32) :
    Op.Parses (Op.read (bits n))
      (fun bits word => word.toNat < 2 ^ n ∧ bits = bitsOf n word.toNat) fun _ _ => False := by
  intro reader hreader
  have hkeeps := bits_keeps hpos hn hreader
  simp only [Op.read]
  cases hr : bits n reader with
  | ok word after =>
    rw [hr] at hkeeps
    obtain ⟨hafter, henough, hword, hupcoming, hposition, hstops⟩ := hkeeps
    obtain ⟨value, hvalue, hbits⟩ := exists_field henough
    have hfield : word.toNat = value := by
      rw [hword, ← hbits, List.take_left' (length_bitsOf n value), numberOf_bitsOf hvalue]
    subst hfield
    refine ⟨_, ⟨hvalue, rfl⟩, hafter, ?_, ?_, Nat.le_of_eq hstops⟩
    · rw [hupcoming, hbits]
    · rw [hposition, length_bitsOf]
  | error reason after =>
    rw [hr] at hkeeps
    obtain ⟨hafter, hpaused, hfew⟩ := hkeeps
    refine ⟨[], ⟨hafter, hpaused.upcoming.symm, hpaused.position, hpaused.stops_le⟩, .halted ?_ ?_⟩
    · rw [hpaused.position]
      exact hpaused.halted
    · intro hnone
      rw [hpaused.position]
      exact (hpaused.short hfew hnone).1

theorem parses_number {n : Nat} (hpos : 0 < n) (hn : n ≤ 32) :
    Op.Parses (Op.read (number n)) (fun bits value => value < 2 ^ n ∧ bits = bitsOf n value)
      fun _ _ => False := by
  rw [number, Op.read_bind]
  refine (parses_bits hpos hn).bind (fun _ _ h => h) fun front word hfront => ?_
  refine .pure ?_
  rw [List.append_nil]
  exact hfront

theorem parses_bit :
    Op.Parses (Op.read bit) (fun bits value => bits = [value]) fun _ _ => False := by
  rw [bit, Op.read_bind]
  refine (parses_bits (by decide) (by decide)).bind (fun _ _ h => h) fun front word hfront => ?_
  refine .pure ?_
  obtain ⟨hlt, rfl⟩ := hfront
  have hbit : word.toNat = (word == 1).toNat := by
    by_cases hone : word = 1
    · rw [hone]
      rfl
    · have hne : word.toNat ≠ 1 := fun h => hone (UInt32.toNat_inj.mp h)
      rw [beq_eq_false_iff_ne.mpr hone, Bool.toNat_false]
      omega
  rw [List.append_nil, hbit, bitsOf_one]

/-- Ones are counted up to the limit or to the zero before it. -/
theorem parses_onesAfter (count limit : Nat) :
    Op.Parses (Op.read (onesAfter count limit))
      (fun bits ones => ∃ more, ones = count + more ∧ (more < limit
        ∧ bits = List.replicate more true ++ [false] ∨ more = limit ∧ bits = List.replicate limit true))
      fun _ _ => False := by
  induction limit generalizing count with
  | zero => exact .pure ⟨0, rfl, .inr ⟨rfl, rfl⟩⟩
  | succ limit ih =>
    rw [onesAfter, Op.read_bind]
    refine parses_bit.bind (fun _ _ h => h) ?_
    rintro _ more rfl
    cases more with
    | false => exact .pure ⟨0, rfl, .inl ⟨Nat.succ_pos limit, rfl⟩⟩
    | true =>
      refine (ih (count + 1)).mono ?_ fun _ _ h => h
      rintro bits ones ⟨more, rfl, hmore⟩
      refine ⟨more + 1, by omega, ?_⟩
      rcases hmore with ⟨hless, rfl⟩ | ⟨rfl, rfl⟩
      · exact .inl ⟨by omega, rfl⟩
      · exact .inr ⟨rfl, rfl⟩

end BitReader

end Bunzip

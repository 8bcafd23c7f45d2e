import Bunzip.Proofs.Locality.Block

/-!
# Two runs on the same bits

Two readers may stand at different places of different bit strings, at any alignment to bytes, and
still have the same bits before them for a while. An operation is in step if it runs from both in the
same way as long as these bits last: with the same value, or with the same failure, noticed at places
that are as far apart as the places of the start.

The first run may well read on beyond the common bits, and then nothing is said. So the relation has
to tell when this happens: fewer bits are left to the first reader than there are behind the common
ones. As no operation makes bits appear, a run that has gone too far stays there.
-/

namespace Bunzip

open Format

variable {σ τ ρ υ α β : Type}

/-- The same failure, noticed at places as far apart as `p` and `q`. -/
inductive DecodeError.Displaced (p q : Nat) : DecodeError → DecodeError → Prop where
  | corrupt {place place' : Nat} (reason : Corruption) (apart : place' + p = place + q) :
    Displaced p q (.corrupt place reason) (.corrupt place' reason)
  | same {reason : DecodeError} (noEnd : ∀ place, reason ≠ .endOfStream place)
      (noPlace : ∀ place what, reason ≠ .corrupt place what) : Displaced p q reason reason

/-- A defect tells no place. -/
theorem DecodeError.displaced_defect (p q : Nat) (what : Defect) :
    (DecodeError.defect what).Displaced p q (.defect what) :=
  .same (by rintro _ ⟨⟩) (by rintro _ _ ⟨⟩)

/-- The same value, or the same failure at displaced places. -/
inductive SameResult (p q : Nat) : Except DecodeError α → Except DecodeError α → Prop where
  | ok (a : α) : SameResult p q (.ok a) (.ok a)
  | error {reason reason' : DecodeError} (displaced : reason.Displaced p q reason') :
    SameResult p q (.error reason) (.error reason')

/--
Both readers have come the same way from `p` and from `q`, and have the same bits before them, behind
which the first one has `edge` more. The rest of the states is the same.
-/
structure View.Abreast (view : View σ τ) (p q edge : Nat) (first second : σ) : Prop where
  rest : view.rest first = view.rest second
  readers : ∃ n common later later', (view.reader first).Stands (p + n) (common ++ later)
    ∧ (view.reader second).Stands (q + n) (common ++ later') ∧ later.length = edge

namespace Outcome

variable {view : View σ τ} {p q edge : Nat} {first second : Outcome σ α}

/-- The first run has read beyond the common bits, or to the end of the input. -/
def Overrun (view : View σ τ) (edge : Nat) (first : Outcome σ α) : Prop :=
  (∃ place, first.result = .error (.endOfStream place)) ∨ (view.reader first.state).bitsLeft < edge

/-- Two runs that have come out the same way, unless the first one has gone too far. -/
def InStep (view : View σ τ) (p q edge : Nat) (first second : Outcome σ α) : Prop :=
  first.Overrun view edge
    ∨ SameResult p q first.result second.result ∧ view.Abreast p q edge first.state second.state

/-- Notes play no part in this. -/
theorem InStep.of_eq {first' second' : Outcome σ α} (h : InStep view p q edge first second)
    (hresult : first'.result = first.result) (hstate : first'.state = first.state)
    (hresult' : second'.result = second.result) (hstate' : second'.state = second.state) :
    InStep view p q edge first' second' := by
  unfold InStep Overrun at h ⊢
  rw [hresult, hstate, hresult', hstate']
  exact h

end Outcome

/-- How many bits are left to the reader of a state. -/
def View.bitsLeft (view : View σ τ) (state : σ) : Nat := (view.reader state).bitsLeft

namespace Op

variable {view : View σ τ} {p q edge : Nat} {op op' : Op σ α}

theorem Spends.state_le {measure : σ → Nat} {n : Nat} (h : Spends measure n op) (state : σ) :
    measure (op state).state ≤ measure state := by
  have spent := h state
  cases hr : op state with
  | ok a after notes =>
    rw [hr] at spent
    exact Nat.le_of_add_right_le spent
  | error reason after notes =>
    rw [hr] at spent
    exact spent

theorem Spends.of_state_le {measure : σ → Nat} (h : ∀ state, measure (op state).state ≤ measure state) :
    Spends measure 0 op := by
  intro state
  have spent := h state
  cases hr : op state with
  | ok a after notes =>
    rw [hr] at spent
    exact spent
  | error reason after notes =>
    rw [hr] at spent
    exact spent

/-- Two runs in step are continued in step, also by operations that are not quite the same. -/
theorem inStep_bind {next next' : α → Op σ β} {a b : σ}
    (h : Outcome.InStep view p q edge (op a) (op' b))
    (hspends : ∀ value, Spends view.bitsLeft 0 (next value))
    (hnext : ∀ value, (op a).result = .ok value →
      view.Abreast p q edge (op a).state (op' b).state →
      Outcome.InStep view p q edge (next value (op a).state) (next' value (op' b).state)) :
    Outcome.InStep view p q edge ((op >>= next) a) ((op' >>= next') b) := by
  rcases h with hover | ⟨hresult, hstates⟩
  · left
    cases hr : (op a).result with
    | error reason =>
      obtain ⟨hbind, _, hstate⟩ := bind_of_error next hr
      unfold Outcome.Overrun at hover ⊢
      rw [hr] at hover
      rw [hbind, hstate]
      exact hover.imp_left fun ⟨place, hend⟩ => ⟨place, by rw [Except.error.inj hend]⟩
    | ok value =>
      rcases hover with ⟨place, hend⟩ | hlow
      · rw [hr] at hend
        cases hend
      · right
        rw [bind_of_ok hr, Outcome.state_after]
        exact Nat.lt_of_le_of_lt ((hspends value).state_le _) hlow
  · cases hr : (op a).result with
    | error reason =>
      cases hr' : (op' b).result with
      | ok value =>
        rw [hr, hr'] at hresult
        cases hresult
      | error reason' =>
        obtain ⟨hbind, _, hstate⟩ := bind_of_error next hr
        obtain ⟨hbind', _, hstate'⟩ := bind_of_error next' hr'
        right
        rw [hbind, hbind', hstate, hstate']
        rw [hr, hr'] at hresult
        cases hresult with
        | error displaced => exact ⟨.error displaced, hstates⟩
    | ok value =>
      cases hr' : (op' b).result with
      | error reason =>
        rw [hr, hr'] at hresult
        cases hresult
      | ok value' =>
        rw [hr, hr'] at hresult
        cases hresult
        refine (hnext value hr hstates).of_eq ?_ ?_ ?_ ?_
        · rw [bind_of_ok hr, Outcome.result_after]
        · rw [bind_of_ok hr, Outcome.state_after]
        · rw [bind_of_ok hr', Outcome.result_after]
        · rw [bind_of_ok hr', Outcome.state_after]

/-- From states abreast the operation runs in step, and it never makes bits appear. -/
structure InStep (view : View σ τ) (op : Op σ α) : Prop where
  spends : Spends view.bitsLeft 0 op
  step : ∀ {p q edge : Nat} {a b : σ}, view.Abreast p q edge a b →
    Outcome.InStep view p q edge (op a) (op b)

theorem InStep.bind {next : α → Op σ β} (hop : InStep view op) (hnext : ∀ a, InStep view (next a)) :
    InStep view (op >>= next) where
  spends := hop.spends.andThen fun a => (hnext a).spends
  step h := inStep_bind (hop.step h) (fun a => (hnext a).spends) fun a _ hstates =>
    (hnext a).step hstates

/-- What succeeds for the first reader within the common bits, succeeds for the second one. -/
theorem InStep.ok_of_ok {a b after : σ} {value : α} {notes : List Note} (h : InStep view op)
    (hab : view.Abreast p q edge a b) (hrun : op a = .ok value after notes)
    (hleft : edge ≤ (view.reader after).bitsLeft) :
    ∃ after' notes', op b = .ok value after' notes' ∧ view.Abreast p q edge after after' := by
  have hstep := h.step hab
  rw [hrun] at hstep
  rcases hstep with (⟨_, hend⟩ | hlow) | ⟨hresult, hstates⟩
  · cases hend
  · exact absurd hlow (Nat.not_lt.mpr hleft)
  · cases hrun' : op b with
    | error reason after' notes' =>
      rw [hrun'] at hresult
      cases hresult
    | ok value' after' notes' =>
      rw [hrun'] at hresult hstates
      cases hresult
      exact ⟨after', notes', rfl, hstates⟩

/-! ## Operations that read nothing -/

/-- An operation that leaves the reader alone, and comes out in the same way for the same rest. -/
theorem InStep.still (h : ∀ s, view.reader (op s).state = view.reader s)
    (hsame : ∀ {p q : Nat} {a b : σ}, view.rest a = view.rest b →
      SameResult p q (op a).result (op b).result
        ∧ view.rest (op a).state = view.rest (op b).state) : InStep view op where
  spends := .of_state_le fun s => Nat.le_of_eq (congrArg BitReader.bitsLeft (h s))
  step hab := by
    obtain ⟨hresult, hrest⟩ := hsame hab.rest
    exact .inr ⟨hresult, hrest, by rw [h, h]; exact hab.readers⟩

theorem InStep.pure (a : α) : InStep view (Pure.pure a : Op σ α) :=
  .still (fun _ => rfl) fun hrest => ⟨.ok a, hrest⟩

theorem InStep.fail {reason : DecodeError} (noEnd : ∀ place, reason ≠ .endOfStream place)
    (noPlace : ∀ place what, reason ≠ .corrupt place what) :
    InStep view (Op.fail reason : Op σ α) :=
  .still (fun _ => rfl) fun hrest => ⟨.error (.same noEnd noPlace), hrest⟩

theorem InStep.noteAll (notes : List Note) : InStep view (Op.noteAll notes) :=
  .still (fun _ => rfl) fun hrest => ⟨.ok (), hrest⟩

theorem InStep.note (n : Note) : InStep view (Op.note n) := .noteAll [n]

/-- A note may tell the place, which is not the same in both runs. -/
theorem InStep.noteOf {next : Op σ β} (f : σ → Note) (hnext : InStep view next) :
    InStep view (Op.get >>= fun s => Op.note (f s) >>= fun _ => next) where
  spends := Spends.get.andThen fun s => (Spends.note (f s)).andThen fun _ => hnext.spends
  step hab := by
    have hrun : ∀ s, ((Op.get >>= fun s => Op.note (f s) >>= fun _ => next : Op σ β) s)
        = ((next s).after [f s]).after [] := fun _ => rfl
    refine (hnext.step hab).of_eq ?_ ?_ ?_ ?_
    · rw [hrun, Outcome.result_after, Outcome.result_after]
    · rw [hrun, Outcome.state_after, Outcome.state_after]
    · rw [hrun, Outcome.result_after, Outcome.result_after]
    · rw [hrun, Outcome.state_after, Outcome.state_after]

/-! ## Parts of a state -/

theorem InStep.lift {wide : View ρ υ} {view : View σ τ} (part : wide.Part view) {op : Op σ α}
    (h : InStep view op) : InStep wide (part.lift op) where
  spends := .of_state_le fun s => by
    have hspent := h.spends.state_le (part.get s)
    unfold View.bitsLeft at hspent ⊢
    rw [part.reader_get] at hspent
    rw [View.Part.lift, Outcome.state_withState, part.reader_set]
    exact hspent
  step := by
    intro p q edge a b hab
    have hparts : view.Abreast p q edge (part.get a) (part.get b) := by
      refine ⟨?_, ?_⟩
      · rw [part.rest_get, part.rest_get, hab.rest]
      · rw [part.reader_get, part.reader_get]
        exact hab.readers
    rcases h.step hparts with hover | ⟨hresult, hstates⟩
    · left
      unfold Outcome.Overrun at hover ⊢
      rw [View.Part.lift, Outcome.result_withState, Outcome.state_withState, part.reader_set]
      exact hover
    · right
      rw [View.Part.lift, View.Part.lift, Outcome.result_withState, Outcome.result_withState,
        Outcome.state_withState, Outcome.state_withState]
      refine ⟨hresult, ?_, ?_⟩
      · rw [part.rest_set, part.rest_set, hab.rest, hstates.rest]
      · rw [part.reader_set, part.reader_set]
        exact hstates.readers

end Op

/-! ## Fields -/

namespace BitReader

theorem size_source (source : Source) : source.size = source.toList.length := by
  cases source with
  | mk deliveries =>
    induction deliveries with
    | nil => rfl
    | cons delivery rest ih =>
      have hsize : delivery.size = delivery.toList.length := by
        cases delivery with
        | bytes data => exact ByteString.size_eq_length data
        | fault error => rfl
      rw [Source.toList, List.flatMap_cons, List.length_append, ← hsize]
      exact congrArg (delivery.size + ·) ih

/-- The bits that are left are those that are before the reader. -/
theorem bitsLeft_eq (reader : BitReader) : reader.bitsLeft = reader.upcoming.length := by
  rw [length_upcoming, bitsLeft, size_source, pending, List.length_append, List.length_drop,
    ByteString.size_eq_length]

end BitReader

namespace Read

variable {x : Read α}

/-- From readers abreast the computation runs in step. -/
def InStep (x : Read α) : Prop := Op.InStep .alone (Op.read x)

theorem InStep.bind {f : α → Read β} (hx : x.InStep) (hf : ∀ a, (f a).InStep) : (x >>= f).InStep := by
  rw [InStep, Op.read_bind]
  exact Op.InStep.bind hx hf

theorem InStep.pure (a : α) : (Pure.pure a : Read α).InStep := Op.InStep.pure a

theorem InStep.map (hx : x.InStep) (f : α → β) : (x >>= fun a => Pure.pure (f a)).InStep :=
  hx.bind fun a => .pure (f a)

theorem InStep.throw {reason : DecodeError} (noEnd : ∀ place, reason ≠ .endOfStream place)
    (noPlace : ∀ place what, reason ≠ .corrupt place what) :
    (MonadExcept.throw reason : Read α).InStep := Op.InStep.fail noEnd noPlace

/-- A failed check is noticed where the readers stand. -/
theorem InStep.corrupt (reason : Corruption) : (BitReader.corrupt reason : Read α).InStep where
  spends := Op.Spends.read (Spends.corrupt 0 reason)
  step := by
    intro p q edge a b hab
    obtain ⟨n, common, later, later', ha, hb, hedge⟩ := hab.readers
    have hplace : a.position = p + n := ha.position
    have hplace' : b.position = q + n := hb.position
    exact .inr ⟨.error (.corrupt reason (by rw [hplace, hplace']; omega)), hab⟩

end Read

namespace BitReader

/-- A field is the same for both readers if it lies within the common bits. -/
theorem inStep_bits (n : Nat) : (bits n).InStep where
  spends := (Op.Spends.read (spends_bits n)).any
  step := by
    intro p q edge a b hab
    obtain ⟨m, common, later, later', ha, hb, hedge⟩ := hab.readers
    simp only [View.alone, id_eq] at ha hb
    by_cases hwidth : n = 0 ∨ 32 < n
    · have hrefused : ∀ reader, Op.read (bits n) reader
          = .error (.defect (.fieldWidth n)) reader [] := by
        intro reader
        rw [bits, if_pos hwidth]
        rfl
      rw [hrefused, hrefused]
      exact .inr ⟨.error (DecodeError.displaced_defect p q _), hab⟩
    rcases Nat.lt_or_ge common.length n with hbeyond | hwithin
    · -- the first reader goes beyond the common bits, or there are not even bits enough for it
      left
      rcases Nat.lt_or_ge (common ++ later).length n with hshort | henough
      · obtain ⟨after, hread, _⟩ := bits_short (by omega) (by omega) hshort ha
        exact .inl ⟨p + m, by simp only [Op.read, hread, Outcome.result]⟩
      · obtain ⟨value, hvalue, hbits⟩ := exists_field henough
        rw [← hbits] at ha
        obtain ⟨after, hread, hafter⟩ := stands_bits (by omega) (by omega) hvalue ha
        right
        simp only [Op.read, hread, Outcome.state, View.alone, id_eq]
        rw [List.length_append] at henough
        rw [bitsLeft_eq, hafter.upcoming, List.length_drop, List.length_append]
        omega
    · obtain ⟨value, hvalue, hbits⟩ := exists_field hwithin
      rw [← hbits, List.append_assoc] at ha hb
      obtain ⟨after, hread, hafter⟩ := stands_bits (by omega) (by omega) hvalue ha
      obtain ⟨after', hread', hafter'⟩ := stands_bits (by omega) (by omega) hvalue hb
      right
      simp only [Op.read, hread, hread', Outcome.result, Outcome.state]
      rw [Nat.add_assoc] at hafter hafter'
      exact ⟨.ok _, rfl, m + n, _, later, later', hafter, hafter', hedge⟩

theorem inStep_number (n : Nat) : (number n).InStep := (inStep_bits n).map _

theorem inStep_bit : bit.InStep := (inStep_bits 1).map _

theorem inStep_onesAfter (count limit : Nat) : (onesAfter count limit).InStep := by
  induction limit generalizing count with
  | zero => exact .pure count
  | succ limit ih =>
    refine inStep_bit.bind fun more => ?_
    cases more with
    | true => exact ih (count + 1)
    | false => exact .pure count

theorem inStep_word : word.InStep :=
  (inStep_bits 16).bind fun _ => (inStep_bits 16).map _

end BitReader

theorem Read.InStep.op {x : Read α} (h : x.InStep) : Op.InStep .alone (Op.read x) := h

/-! ## Symbol maps and codes -/

namespace SymbolMap

theorem inStep_readWords (n : Nat) : (readWords n).InStep := by
  induction n with
  | zero => exact .pure []
  | succ n ih => exact (BitReader.inStep_number 16).bind fun _ => ih.map _

theorem inStep_readMap : readMap.InStep :=
  (BitReader.inStep_number 16).bind fun _ => (inStep_readWords _).map _

theorem inStep_read : Op.InStep .alone read := by
  refine inStep_readMap.op.bind fun words => (Op.InStep.noteAll _).bind fun _ => ?_
  by_cases none : (values words).isEmpty
  · rw [if_pos none]
    exact (Read.InStep.corrupt _).op
  · rw [if_neg none]
    exact .pure _

end SymbolMap

namespace PrefixCode

theorem inStep_match? (code : PrefixCode) (rows : List PrefixRow) (codeword : Int32) :
    (code.match? rows codeword).InStep := by
  induction rows generalizing codeword with
  | nil => exact .corrupt _
  | cons row longer ih =>
    unfold match?
    split
    · split
      · exact .pure _
      · exact .corrupt _
    · split
      · exact .corrupt _
      · exact BitReader.inStep_bit.bind fun _ => ih _

theorem inStep_decode (code : PrefixCode) : code.decode.InStep :=
  (BitReader.inStep_bits _).bind fun _ => code.inStep_match? _ _

end PrefixCode

namespace GroupCodes

theorem inStep_decode (codes : GroupCodes) : codes.decode.InStep := by
  unfold GroupCodes.decode
  split
  · exact .throw (fun _ => nofun) fun _ _ => nofun
  · next table _ => exact table.inStep_decode

theorem inStep_readSelectors (tables n : Nat) (recent : MoveToFront) (selectors : Array Nat) :
    (readSelectors tables n recent selectors).InStep := by
  induction n generalizing recent selectors with
  | zero => exact .pure selectors
  | succ n ih =>
    refine (BitReader.inStep_onesAfter 0 tables).bind fun rank => ?_
    split
    · exact .corrupt _
    · split
      · exact .throw (fun _ => nofun) fun _ _ => nofun
      · exact ih _ _

theorem inStep_settleLength (table symbol : Nat) (length : Int) :
    (settleLength table symbol length).InStep where
  spends := Op.Spends.read (spends_settleLength table symbol length).any
  step := by
    intro p q edge a b hab
    -- every step of the walk spends bits, so on those that are left to the first reader
    induction hn : a.bitsLeft using Nat.strongRecOn generalizing length a b with
    | ind n ih =>
      rw [settleLength_eq]
      by_cases outside : length < 1 ∨ PrefixCode.longest < length
      · rw [if_pos outside]
        exact (Read.InStep.corrupt _).op.step hab
      rw [if_neg outside, Op.read_bind]
      refine Op.inStep_bind (BitReader.inStep_bit.op.step hab) ?_ fun more hmore hmiddle => ?_
      · intro more
        cases more with
        | false => exact Op.Spends.read (Read.Spends.pure length)
        | true => exact Op.Spends.read (BitReader.spends_bit.any.andThen fun down =>
            (spends_settleLength table symbol (stepped length down)).any)
      cases more with
      | false => exact (Read.InStep.pure length).op.step hmiddle
      | true =>
        rw [if_pos rfl, Op.read_bind]
        refine Op.inStep_bind (BitReader.inStep_bit.op.step hmiddle)
          (fun down => Op.Spends.read (spends_settleLength table symbol (stepped length down)).any)
          fun down hdown hafter => ih _ ?_ (stepped length down) hafter rfl
        have hfirst := (Op.Spends.read BitReader.spends_bit).of_result hmore
        have hsecond := (Op.Spends.read BitReader.spends_bit).of_result hdown
        omega

theorem inStep_readLengthsFrom (table count symbol : Nat) (length : Int) (lengths : Array Nat) :
    (readLengthsFrom table count symbol length lengths).InStep := by
  induction count generalizing symbol length lengths with
  | zero => exact .pure lengths
  | succ count ih => exact (inStep_settleLength table symbol length).bind fun settled => ih _ _ _

theorem inStep_readTable (table alphabet : Nat) : Op.InStep .alone (readTable table alphabet) := by
  have hlengths : (readLengths table alphabet).InStep :=
    (BitReader.inStep_number 5).bind fun first =>
      (inStep_readLengthsFrom table alphabet 0 first #[]).map _
  refine hlengths.op.bind fun lengths => ?_
  split
  · exact (Read.InStep.corrupt _).op
  · exact .noteOf _ (.pure _)

theorem inStep_readTables (alphabet count table : Nat) (tables : Array PrefixCode) :
    Op.InStep .alone (readTables alphabet count table tables) := by
  induction count generalizing table tables with
  | zero => exact .pure tables
  | succ count ih => exact (inStep_readTable table alphabet).bind fun code => ih _ _

theorem inStep_read (alphabet : Nat) : Op.InStep .alone (read alphabet) := by
  refine (BitReader.inStep_number 3).op.bind fun count => ?_
  split
  · exact (Read.InStep.corrupt _).op
  refine (BitReader.inStep_number 15).op.bind fun selectorCount => ?_
  split
  · exact (Read.InStep.corrupt _).op
  refine (inStep_readSelectors count selectorCount .start #[]).op.bind fun selectors =>
    (inStep_readTables alphabet count 0 #[]).bind fun tables => (Op.InStep.note _).bind fun _ => ?_
  split
  · exact .fail (fun _ => nofun) fun _ _ => nofun
  · exact .pure _

end GroupCodes

/-! ## Blocks -/

/-- It does not matter which storage links are built in. -/
theorem RotationLinks.build?_storage (column : ByteArray) (counts : Histogram) (used : RotationLinks) :
    build? column counts used = build? column counts .empty := by
  have hshrink : used.entries.shrink 0 = (#[] : Array UInt32) := by simp
  have hshrink' : empty.entries.shrink 0 = (#[] : Array UInt32) := by simp
  rw [build?, build?, blank, blank, hshrink, hshrink']

namespace BlockDecoder

theorem inStep_onReader {α : Type} {op : Op BitReader α} (h : Op.InStep .alone op) :
    Op.InStep limitView (onReader op) := h.lift limitPart

theorem inStep_reading {α : Type} {x : Read α} (h : x.InStep) : Op.InStep limitView (reading x) :=
  inStep_onReader h.op

/-- What is set on the decoder plays no part, as long as columns may be as long as before. -/
theorem inStep_onDecoder {op : Op BlockDecoder Unit} (hok : ∀ decoder, (op decoder).result = .ok ())
    (hkeeps : Op.Keeps maxLength op) : Op.InStep limitView (onDecoder op) := by
  refine .still (fun bench => ?_) fun {p q a b} hrest => ?_
  · rw [onDecoder, Outcome.state_withState]
    rfl
  · rw [onDecoder, onDecoder, Outcome.result_withState, Outcome.result_withState,
      Outcome.state_withState, Outcome.state_withState, hok, hok]
    exact ⟨.ok (), (hkeeps a.1).trans (hrest.trans (hkeeps b.1).symm)⟩

theorem inStep_enter (stage : Stage) : Op.InStep limitView (onDecoder (enter stage)) :=
  inStep_onDecoder (fun _ => rfl) fun _ => rfl

/-! ### Columns -/

theorem inStep_takeIn (limit : Nat) (used : Array UInt8) (symbol : Nat) :
    Op.InStep columnView (Op.read (takeIn limit used symbol)) where
  spends := spends_takeIn limit used symbol
  step := by
    rintro p q edge ⟨e, reader⟩ ⟨e', reader'⟩ hab
    obtain rfl : e = e' := hab.rest
    obtain ⟨n, common, later, later', ha, hb, hedge⟩ := hab.readers
    have hplace : reader.position = p + n := ha.position
    have hplace' : reader'.position = q + n := hb.position
    right
    simp only [Op.read, takeIn]
    cases Expansion.push limit used symbol e with
    | error halt after =>
      cases halt with
      | overflow => exact ⟨.error (.corrupt _ (by rw [hplace, hplace']; omega)), rfl, hab.readers⟩
      | defect what => exact ⟨.error (DecodeError.displaced_defect p q what), rfl, hab.readers⟩
    | ok done after => exact ⟨.ok (), rfl, hab.readers⟩

theorem inStep_expandFrom (limit : Nat) (used : Array UInt8) (codes : GroupCodes) :
    Op.InStep columnView (Op.read (expandFrom limit used codes)) := by
  fun_induction expandFrom limit used codes with
  | case1 =>
    rw [read_beside]
    exact (Read.InStep.corrupt _).op.lift besidePart
  | case2 codes after turn ih =>
    rw [Op.read_bind, read_beside]
    refine (after.inStep_decode.op.lift besidePart).bind fun symbol => ?_
    rw [Op.read_bind]
    refine (inStep_takeIn limit used _).bind fun _ => ?_
    split
    · exact .pure _
    · exact ih

/-- Whatever columns the decoders have expanded before, they now expand the same one. -/
theorem inStep_expand (used : Array UInt8) (codes : GroupCodes) :
    Op.InStep limitView (expand used codes) where
  spends := spends_expand used codes
  step := by
    rintro p q edge ⟨decoder, reader⟩ ⟨decoder', reader'⟩ hab
    have hlimit : decoder.maxLength = decoder'.maxLength := hab.rest
    have hstart : columnView.Abreast p q edge (.start, reader) (.start, reader') :=
      ⟨rfl, hab.readers⟩
    have hstep := (inStep_expandFrom decoder.maxLength used codes).step hstart
    rw [expand_eq, expand_eq, ← hlimit]
    unfold Op.read at hstep
    rcases hr : expandFrom decoder.maxLength used codes (.start, reader) with
      ⟨done, e, after⟩ | ⟨reason, e, after⟩
    · rw [hr] at hstep
      rcases hstep with (⟨_, hend⟩ | hlow) | ⟨hresult, hstates⟩
      · cases hend
      · exact .inl (.inr hlow)
      rcases hr' : expandFrom decoder.maxLength used codes (.start, reader') with
        ⟨done', e', after'⟩ | ⟨reason', e', after'⟩
      · rw [hr'] at hstates
        obtain rfl : e = e' := hstates.rest
        exact .inr ⟨.ok _, rfl, hstates.readers⟩
      · rw [hr'] at hresult
        cases hresult
    · rw [hr] at hstep
      rcases hstep with (⟨place, hend⟩ | hlow) | ⟨hresult, hstates⟩
      · cases hend
        exact .inl (.inl ⟨place, rfl⟩)
      · exact .inl (.inr hlow)
      rcases hr' : expandFrom decoder.maxLength used codes (.start, reader') with
        ⟨done', e', after'⟩ | ⟨reason', e', after'⟩
      · rw [hr'] at hresult
        cases hresult
      · rw [hr'] at hresult hstates
        cases hresult with
        | error displaced => exact .inr ⟨.error displaced, rfl, hstates.readers⟩

theorem inStep_readHeader (index : Nat) : Op.InStep limitView (readHeader index) := by
  refine (inStep_onDecoder (fun _ => rfl) fun _ => rfl).bind fun _ => (inStep_enter _).bind fun _ =>
    (inStep_reading BitReader.inStep_word).bind fun stored =>
      (inStep_reading BitReader.inStep_bit).bind fun randomized => ?_
  split
  · exact .fail (fun _ => nofun) fun _ _ => nofun
  · refine (inStep_reading (BitReader.inStep_number 24)).bind fun origin => ?_
    exact .noteOf _ (.pure (stored, origin))

theorem inStep_readColumn (index : Nat) : Op.InStep limitView (readColumn index) :=
  (inStep_enter _).bind fun _ => (inStep_onReader SymbolMap.inStep_read).bind fun _ =>
    (Op.InStep.note _).bind fun _ => (inStep_enter _).bind fun _ =>
      (inStep_onReader (GroupCodes.inStep_read _)).bind fun _ => (inStep_enter _).bind fun _ =>
        (inStep_expand _ _).bind fun _ => (Op.InStep.note _).bind fun _ => .pure _

/-- The links are built in the storage of earlier ones, whose entries are dropped first. -/
theorem startWalk_eq (e : Expansion) (origin : Nat) :
    startWalk e origin =
      onDecoder (Op.modify fun decoder => { decoder with used := .empty }) >>= fun _ =>
        match RotationLinks.build? e.column e.counts .empty with
        | none => Op.fail (.defect .histogram)
        | some links => match Walk.start? links origin with
          | none => reading (BitReader.corrupt (.originPointer origin e.column.size))
          | some walk => pure walk := by
  funext ⟨decoder, reader⟩
  have hlinks := RotationLinks.build?_storage e.column e.counts decoder.used
  rw [startWalk, Op.bind_eq, Op.bind_eq]
  simp only [onDecoder, takeUsed, Op.modify, Outcome.withState]
  generalize RotationLinks.build? e.column e.counts decoder.used = built at hlinks ⊢
  subst hlinks
  rfl

theorem inStep_startWalk (e : Expansion) (origin : Nat) :
    Op.InStep limitView (startWalk e origin) := by
  rw [startWalk_eq]
  refine (inStep_onDecoder (fun _ => rfl) fun _ => rfl).bind fun _ => ?_
  split
  · exact .fail (fun _ => nofun) fun _ _ => nofun
  · split
    · exact inStep_reading (.corrupt _)
    · exact .pure _

/-- **Blocks are read in step.** -/
theorem inStep_readBlock (index : Nat) : Op.InStep limitView (readBlock index) := by
  refine (inStep_readHeader index).bind fun ⟨stored, origin⟩ =>
    (inStep_readColumn index).bind fun e => ?_
  simp only
  split
  · exact inStep_reading (.corrupt _)
  · exact (inStep_enter _).bind fun _ => (inStep_startWalk e origin).bind fun walk =>
      (inStep_enter _).bind fun _ => .pure _

end BlockDecoder

end Bunzip

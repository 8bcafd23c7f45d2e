import Bunzip.Proofs.Locality.Stream
import Bunzip.Proofs.Stream.PullPush

/-!
# Only the bits that are consumed matter

Decoding a source is local from its first bit on. What comes behind the bits that were read makes no
difference. Where the input is cut off inside those bits, decoding says that it has ended, less than
one field before its end, and a sink is given no more than a front of what it is given of the whole
input.
-/

namespace Bunzip

open Format

namespace StreamDecoder

/-! ## Decoding as one operation -/

theorem local_readHeader : Op.Local .alone readHeader := by
  refine (BitReader.local_bytesOnto _ _).op.bind fun letters => ?_
  split
  · exact (Read.Local.corrupt _).op
  · refine BitReader.local_byte.op.bind fun digit => ?_
    split
    · exact (Read.Local.corrupt _).op
    · exact (Op.Local.note _).bind fun _ => .pure _

/-- A reader and a sink; what the sink has taken only grows. -/
def viewSink : View (BitReader × Sink) Sink where
  reader := Prod.fst
  rest := Prod.snd
  le before after := before.bytes <+: after.bytes
  le_refl _ := List.prefix_rfl
  le_trans := List.IsPrefix.trans

/-- The reader, without the sink. -/
def readerPart : viewSink.Part .alone where
  get := Prod.fst
  set state reader := (reader, state.2)
  rest _ := ()
  put sink _ := sink
  reader_get _ := rfl
  reader_set _ _ := rfl
  rest_get _ := rfl
  rest_set _ _ := rfl
  le_put _ _ _ := List.prefix_rfl
  put_le _ _ _ _ := List.prefix_rfl

/-- A stream decoder that is opened on the reader, and closed again. -/
def openedPart (strict : Bool) (digit : Nat) : viewSink.Part viewWith where
  get state := (opened strict digit state.1, state.2)
  set _ state := (state.1.bench.2, state.2)
  rest sink := (opened strict digit (.ofSource ⟨[]⟩), sink)
  put _ state := state.2
  reader_get _ := rfl
  reader_set _ _ := rfl
  rest_get _ := rfl
  rest_set _ _ := rfl
  le_put _ _ h := h
  put_le _ _ _ h := h

/-- Decoding from the first bit on, as one operation on the reader and the sink. -/
def decoding (strict : Bool) : Op (BitReader × Sink) StreamSummary :=
  readerPart.lift readHeader >>= fun digit => (openedPart strict digit).lift decodeTo

theorem local_decoding (strict : Bool) : Op.Local viewSink (decoding strict) :=
  (local_readHeader.lift readerPart).bind fun _ => local_decodeTo.lift _

end StreamDecoder

/-- The number of bits that decoding a source has handed out when it returns. -/
def bitsRead (source : Source) (strict : Bool) (sink : Sink) : Nat :=
  match StreamDecoder.readHeader (.ofSource source) with
  | .error _ reader _ => reader.position
  | .ok digit reader _ =>
    (StreamDecoder.decodeTo (StreamDecoder.opened strict digit reader, sink)).state.1.position

namespace StreamDecoder

theorem decoding_eq (source : Source) (strict : Bool) (sink : Sink) :
    (decoding strict (.ofSource source, sink)).withState Prod.snd = decodeSource source strict sink
      ∧ (decoding strict (.ofSource source, sink)).state.1.position
        = bitsRead source strict sink := by
  rw [decoding, Op.bind_eq, decodeSource, start_eq, bitsRead]
  simp only [View.Part.lift, readerPart]
  cases readHeader (.ofSource source) with
  | error reason reader notes => exact ⟨rfl, rfl⟩
  | ok digit reader notes =>
    simp only [Outcome.withState, openedPart, setStrict_opened]
    cases decodeTo (opened strict digit reader, sink) with
    | error reason last more => exact ⟨rfl, rfl⟩
    | ok summary last more => exact ⟨rfl, rfl⟩

/-! ## Decoding bytes -/

variable {data : ByteArray} {strict : Bool} {sink : Sink}

/-- An outcome that agrees with a reading has handed out its bits and leaves its sink. -/
theorem left_of_agrees {outcome : Outcome (BitReader × Sink) StreamSummary}
    {reading : Reading Sink StreamSummary} {later : List Bool}
    (h : Op.Agrees viewSink outcome 0 later reading) :
    outcome.state.1.position = reading.front.length
      ∧ (outcome.withState Prod.snd).state = reading.rest := by
  rw [Outcome.state_withState]
  exact ⟨h.state.reader.position.trans (Nat.zero_add _), h.state.rest⟩

theorem bytes_of_le {outcome : Outcome (BitReader × Sink) StreamSummary} {last : Sink}
    (h : viewSink.le (viewSink.rest outcome.state) last) :
    (outcome.withState Prod.snd).state.bytes <+: last.bytes := by
  rw [Outcome.state_withState]
  exact h

/-- Some reading of the first bits decides how bytes are decoded, and those are the bits consumed. -/
theorem decided_decoding (data : ByteArray) (strict : Bool) (sink : Sink) :
    ∃ reading later, bytesBits data.data.toList = reading.front ++ later
      ∧ reading.front.length = bitsRead (.ofBytes data) strict sink
      ∧ (decodeSource (.ofBytes data) strict sink).result = reading.result
      ∧ (decodeSource (.ofBytes data) strict sink).state = reading.rest
      ∧ Op.Decides viewSink (decoding strict) sink 0 later reading := by
  have hstands : viewSink.Stands sink 0 (bytesBits data.data.toList)
      (.ofSource (.ofBytes data), sink) := ⟨rfl, BitReader.stands_ofSource data⟩
  obtain ⟨reading, later, hbits, hdecides⟩ := local_decoding strict sink 0 _ _ hstands
  rw [hbits] at hstands
  have hagrees := hdecides.agrees _ later (.inl rfl) hstands
  obtain ⟨hrun, hplace⟩ := decoding_eq (.ofBytes data) strict sink
  obtain ⟨hposition, hrest⟩ := left_of_agrees hagrees
  refine ⟨reading, later, hbits, ?_, ?_, ?_, hdecides⟩
  · rw [← hplace, hposition]
  · rw [← hrun, Outcome.result_withState, hagrees.result]
  · rw [← hrun, hrest]

/-- Bytes that start with the bits consumed are decoded alike. -/
theorem decodeSource_eq_of_take_eq
    (hcomplete : ∀ q, (decodeSource (.ofBytes data) strict sink).result ≠ .error (.endOfStream q))
    {other : ByteArray}
    (hsame : (bytesBits other.data.toList).take (bitsRead (.ofBytes data) strict sink)
      = (bytesBits data.data.toList).take (bitsRead (.ofBytes data) strict sink)) :
    decodeSource (.ofBytes other) strict sink = decodeSource (.ofBytes data) strict sink := by
  obtain ⟨reading, later, hbits, hlength, hresult, _, hdecides⟩ := decided_decoding data strict sink
  have hother : bytesBits other.data.toList
      = reading.front ++ (bytesBits other.data.toList).drop reading.front.length := by
    conv_lhs => rw [← List.take_append_drop reading.front.length (bytesBits other.data.toList)]
    rw [hlength, hsame, hbits, ← hlength, List.take_left']
    rfl
  have hdata : viewSink.Stands sink 0 (reading.front ++ later)
      (.ofSource (.ofBytes data), sink) :=
    ⟨rfl, by rw [← hbits]; exact BitReader.stands_ofSource data⟩
  have hstands : viewSink.Stands sink 0
      (reading.front ++ (bytesBits other.data.toList).drop reading.front.length)
      (.ofSource (.ofBytes other), sink) :=
    ⟨rfl, by rw [← hother]; exact BitReader.stands_ofSource other⟩
  have hagrees := hdecides.agrees _ later (.inl rfl) hdata
  have hagrees' := hdecides.agrees _ _ (.inr fun q => by rw [← hresult]; exact hcomplete q) hstands
  rw [← (decoding_eq (.ofBytes other) strict sink).1, ← (decoding_eq (.ofBytes data) strict sink).1]
  refine Outcome.ext ?_ ?_ ?_
  · rw [Outcome.result_withState, Outcome.result_withState, hagrees.result, hagrees'.result]
  · rw [Outcome.notes_withState, Outcome.notes_withState, hagrees.notes, hagrees'.notes]
  · rw [(left_of_agrees hagrees).2, (left_of_agrees hagrees').2]

theorem bitsRead_le (data : ByteArray) (strict : Bool) (sink : Sink) :
    bitsRead (.ofBytes data) strict sink ≤ 8 * data.size := by
  obtain ⟨reading, later, hbits, hlength, _⟩ := decided_decoding data strict sink
  have hsize := congrArg List.length hbits
  rw [length_bytesBits, List.length_append] at hsize
  rw [← hlength, ByteString.size_eq_length, hsize]
  exact Nat.le_add_right _ _

theorem bytesBits_take (bytes : List UInt8) (n : Nat) :
    bytesBits (bytes.take n) = (bytesBits bytes).take (8 * n) := by
  induction bytes generalizing n with
  | nil => rw [List.take_nil, bytesBits, List.flatMap_nil, List.take_nil]
  | cons byte bytes ih =>
    cases n with
    | zero => rfl
    | succ n =>
      have hwidth : 8 * (n + 1) = (bitsOf 8 byte.toNat).length + 8 * n := by
        rw [length_bitsOf]
        omega
      have hcons : ∀ rest, bytesBits (byte :: rest) = bitsOf 8 byte.toNat ++ bytesBits rest :=
        fun _ => List.flatMap_cons
      rw [List.take_succ_cons, hcons, hcons, hwidth, List.take_length_add_append, ih]

/-- Bytes that are cut off inside the bits consumed end too early. -/
theorem decodeSource_of_cut {n : Nat} (hcut : 8 * n < bitsRead (.ofBytes data) strict sink) :
    ∃ q, (decodeSource (.ofBytes (data.extract 0 n)) strict sink).result = .error (.endOfStream q)
      ∧ q ≤ 8 * n ∧ 8 * n < q + fieldLimit
      ∧ (decodeSource (.ofBytes (data.extract 0 n)) strict sink).state.bytes
        <+: (decodeSource (.ofBytes data) strict sink).state.bytes := by
  obtain ⟨reading, later, hbits, hlength, _, hstate, hdecides⟩ := decided_decoding data strict sink
  have hn : 8 * n ≤ reading.front.length := by omega
  have hbefore : bytesBits (data.extract 0 n).data.toList = reading.front.take (8 * n) := by
    rw [ByteArray.data_extract, Array.toList_extract, List.extract_eq_take_drop, Nat.sub_zero,
      List.drop_zero, bytesBits_take, hbits, List.take_append_of_le_length hn]
  have hmore : reading.front.drop (8 * n) ≠ [] := by
    rw [Ne, List.drop_eq_nil_iff]
    omega
  have hstands : viewSink.Stands sink 0 (reading.front.take (8 * n))
      (.ofSource (.ofBytes (data.extract 0 n)), sink) :=
    ⟨rfl, by rw [← hbefore]; exact BitReader.stands_ofSource _⟩
  obtain ⟨q, hq, hle, hlt, hgrows⟩ := hdecides.cut _ _ _
    (List.take_append_drop (8 * n) reading.front).symm hmore hstands
  rw [List.length_take, Nat.min_eq_left hn, Nat.zero_add] at hle hlt
  refine ⟨q, ?_, hle, hlt, ?_⟩
  · rw [← (decoding_eq _ strict sink).1, Outcome.result_withState, hq]
  · rw [← (decoding_eq _ strict sink).1, hstate]
    exact bytes_of_le hgrows

/--
The result of decoding depends on the bits consumed only. Unless the input has ended, all bytes that
start with those bits are decoded alike: the outcome is the same one, with its summary or its error
and with what the sink has taken. And however decoding turns out, the bytes cut off inside the bits
consumed end too early: decoding says so, at a place less than 24 bits before the cut and not behind
it, and the sink has taken a front of what it takes of all the bytes.
-/
theorem decodeSource_local (data : ByteArray) (strict : Bool) (sink : Sink) :
    bitsRead (.ofBytes data) strict sink ≤ 8 * data.size
    ∧ ((∀ q, (decodeSource (.ofBytes data) strict sink).result ≠ .error (.endOfStream q)) →
      ∀ other : ByteArray,
        (bytesBits other.data.toList).take (bitsRead (.ofBytes data) strict sink)
          = (bytesBits data.data.toList).take (bitsRead (.ofBytes data) strict sink) →
        decodeSource (.ofBytes other) strict sink = decodeSource (.ofBytes data) strict sink)
    ∧ ∀ n, 8 * n < bitsRead (.ofBytes data) strict sink →
      ∃ q, (decodeSource (.ofBytes (data.extract 0 n)) strict sink).result
          = .error (.endOfStream q)
        ∧ q ≤ 8 * n ∧ 8 * n < q + 24
        ∧ (decodeSource (.ofBytes (data.extract 0 n)) strict sink).state.bytes
          <+: (decodeSource (.ofBytes data) strict sink).state.bytes :=
  ⟨bitsRead_le data strict sink, fun hcomplete _ hsame => decodeSource_eq_of_take_eq hcomplete hsame,
    fun _ hcut => decodeSource_of_cut hcut⟩

/-- A stream of one block, with something behind it, and cut off inside its footer. -/
theorem decodeSource_local_abab :
    bitsRead (.ofBytes ababStream) true .unbounded = 296
    ∧ (decodeSource (.ofBytes ababStream) true .unbounded).state.bytes = [97, 98, 97, 98]
    ∧ decodeSource (.ofBytes (ababStream ++ ⟨#[66, 90, 104]⟩)) true .unbounded
      = decodeSource (.ofBytes ababStream) true .unbounded
    ∧ ∃ q, (decodeSource (.ofBytes (ababStream.extract 0 30)) true .unbounded).result
        = .error (.endOfStream q) ∧ q ≤ 240 ∧ 240 < q + 24
      ∧ (decodeSource (.ofBytes (ababStream.extract 0 30)) true .unbounded).state.bytes
        <+: [97, 98, 97, 98] := by
  have hbits : bitsRead (.ofBytes ababStream) true .unbounded = 296 := by decide +kernel
  obtain ⟨hbytes, hok⟩ : (decodeSource (.ofBytes ababStream) true .unbounded).state.bytes
        = [97, 98, 97, 98]
      ∧ (decodeSource (.ofBytes ababStream) true .unbounded).result.isOk = true := by
    decide +kernel
  obtain ⟨_, hsame, hcut⟩ := decodeSource_local ababStream true .unbounded
  refine ⟨hbits, hbytes, hsame ?_ _ ?_, ?_⟩
  · intro q hq
    rw [hq] at hok
    cases hok
  · rw [hbits]
    decide +kernel
  · rw [← hbytes]
    exact hcut 30 (by rw [hbits]; decide)

end StreamDecoder

end Bunzip

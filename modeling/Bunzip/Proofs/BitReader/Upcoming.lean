import Bunzip.Proofs.BitReader.Safety
import Bunzip.Proofs.ByteString
import Bunzip.Proofs.Format.Bits

/-!
# The bits before a reader

A reader has a string of bits before it: those it holds, and then the bits of the bytes that are
still to be pulled. A field is the front of that string, wherever byte boundaries lie and however the
source cuts its bytes into pieces.

Nothing is assumed of the source: it may be interrupted, fail, or say that there are no bytes when
there are. A read that fails for such a reason does not move the place. The bytes that were pulled
before it stay in the word, where the next request finds them; so it is enough to look at one pulled
byte, and then at all bytes pulled for a field. Over a source without mishaps a field fails only if
there are not that many bits.
-/

namespace Bunzip

open Format

/-! ## What a source delivers -/

/-- The bytes of a delivery. -/
def Delivery.toList : Delivery → List UInt8
  | bytes data => data.data.toList
  | fault _ => []

/-- A delivery of at least one byte. -/
def Delivery.Smooth : Delivery → Prop
  | bytes data => 0 < data.size
  | fault _ => False

/-- The bytes of all deliveries. -/
def Source.toList (source : Source) : List UInt8 := source.deliveries.flatMap Delivery.toList

/-- A source that delivers until all its bytes are delivered. -/
def Source.Smooth (source : Source) : Prop := ∀ delivery ∈ source.deliveries, delivery.Smooth

theorem toList_extract (data : ByteArray) (start stop : Nat) :
    (data.extract start stop).data.toList = (data.data.toList.take stop).drop start := by
  rw [ByteArray.data_extract, Array.toList_extract]
  simp [List.extract, List.drop_take]

/-- Whether a read stops at a delivery: a failure that is no interruption, or a read of no bytes. -/
def Delivery.stops : Delivery → Bool
  | bytes data => data.size == 0
  | fault error => error.kind != .interrupted

/-- How many times a source can make a read stop that is not at the end of the bytes. -/
def Source.stops (source : Source) : Nat := source.deliveries.countP Delivery.stops

/-- The ways in which a source answers, and what it has still to deliver then. -/
inductive Source.Answers (deliveries : List Delivery) :
    Except IoError ByteArray × List Delivery → Prop where
  /-- It gives the next of its bytes. -/
  | some {bytes : ByteArray} {rest : List Delivery} (size : 0 < bytes.size)
      (toList : bytes.data.toList ++ Source.toList ⟨rest⟩ = Source.toList ⟨deliveries⟩)
      (stops : Source.stops ⟨rest⟩ = Source.stops ⟨deliveries⟩) : Answers deliveries (.ok bytes, rest)
  /-- It gives no bytes, or fails, this once. -/
  | stop {answer : Except IoError ByteArray} {rest : List Delivery}
      (answer_eq : answer = .ok ByteArray.empty
        ∨ ∃ error : IoError, answer = .error error ∧ error.kind ≠ .interrupted)
      (toList : Source.toList ⟨rest⟩ = Source.toList ⟨deliveries⟩)
      (stops : Source.stops ⟨rest⟩ + 1 = Source.stops ⟨deliveries⟩) : Answers deliveries (answer, rest)
  /-- It has come to its end. -/
  | ended (toList : Source.toList ⟨deliveries⟩ = []) (stops : Source.stops ⟨deliveries⟩ = 0) :
      Answers deliveries (.ok ByteArray.empty, [])

namespace Source

theorem toList_cons (delivery : Delivery) (rest : List Delivery) :
    toList ⟨delivery :: rest⟩ = delivery.toList ++ toList ⟨rest⟩ := rfl

theorem stops_cons (delivery : Delivery) (rest : List Delivery) :
    stops ⟨delivery :: rest⟩ = stops ⟨rest⟩ + if delivery.stops then 1 else 0 := List.countP_cons

/-- Asking passes over the interruptions and takes what comes first behind them. -/
theorem answers_ask {limit : Nat} (hlimit : 0 < limit) (deliveries : List Delivery) :
    Answers deliveries (ask limit deliveries) := by
  induction deliveries with
  | nil => exact .ended rfl rfl
  | cons delivery rest ih =>
    cases delivery with
    | fault error =>
      by_cases again : error.kind = .interrupted
      · have hstops : stops ⟨.fault error :: rest⟩ = stops ⟨rest⟩ := by
          rw [stops_cons, Delivery.stops, again]
          rfl
        have htoList : toList ⟨.fault error :: rest⟩ = toList ⟨rest⟩ := rfl
        rw [ask, if_pos again]
        generalize ask limit rest = result at ih
        cases ih with
        | some size toList stops => exact .some size (toList.trans htoList.symm) (stops.trans hstops.symm)
        | stop answer toList stops =>
          exact .stop answer (toList.trans htoList.symm) (stops.trans hstops.symm)
        | ended toList stops => exact .ended (htoList.trans toList) (hstops.trans stops)
      · rw [ask, if_neg again]
        refine .stop (.inr ⟨error, rfl, again⟩) rfl ?_
        rw [stops_cons, Delivery.stops, bne_iff_ne.mpr again]
        rfl
    | bytes data =>
      by_cases some : 0 < data.size
      · have hstops : stops ⟨.bytes data :: rest⟩ = stops ⟨rest⟩ := by
          rw [stops_cons, Delivery.stops, beq_eq_false_iff_ne.mpr (by omega)]
          rfl
        by_cases fits : data.size ≤ limit
        · rw [ask, if_pos fits]
          exact .some some rfl hstops.symm
        · -- the delivery is cut in two, and there is something in both parts
          rw [ask, if_neg fits]
          refine .some ?_ ?_ ?_
          · rw [ByteArray.size_extract]
            omega
          · have hall : data.data.toList.take data.size = data.data.toList := by
              rw [ByteString.size_eq_length, List.take_length]
            rw [toList_cons, toList_cons, Delivery.toList, Delivery.toList, toList_extract,
              toList_extract, List.drop_zero, hall, ← List.append_assoc, List.take_append_drop]
          · rw [hstops, stops_cons, Delivery.stops, ByteArray.size_extract,
              beq_eq_false_iff_ne.mpr (by omega)]
            rfl
      · have hempty : data = ByteArray.empty := by
          apply ByteString.eq_of_toList
          apply List.length_eq_zero_iff.mp
          rw [← ByteString.size_eq_length]
          omega
        rw [ask, if_pos (by omega), hempty]
        refine .stop (.inl rfl) rfl ?_
        rw [stops_cons]
        rfl

/-- A source without mishaps goes on without them. -/
theorem smooth_ask (limit : Nat) {deliveries : List Delivery}
    (smooth : Smooth ⟨deliveries⟩) : Smooth ⟨(ask limit deliveries).2⟩ := by
  cases deliveries with
  | nil => exact smooth
  | cons delivery rest =>
    obtain ⟨hfirst, hrest⟩ := List.forall_mem_cons.mp smooth
    cases delivery with
    | fault error => exact absurd hfirst id
    | bytes data =>
      by_cases fits : data.size ≤ limit
      · rw [ask, if_pos fits]
        exact hrest
      · -- something is left of the delivery that is cut in two
        have hleft : Delivery.Smooth (.bytes (data.extract limit data.size)) := by
          show 0 < (data.extract limit data.size).size
          rw [ByteArray.size_extract]
          omega
        rw [ask, if_neg fits]
        exact List.forall_mem_cons.mpr ⟨hleft, hrest⟩

/-- It never makes a read stop but at its end. -/
theorem Smooth.stops {source : Source} (smooth : source.Smooth) : source.stops = 0 := by
  apply List.countP_eq_zero.mpr
  intro delivery hmem
  have hsmooth := smooth delivery hmem
  cases delivery with
  | fault error => exact absurd hsmooth id
  | bytes data =>
    have hpos : 0 < data.size := hsmooth
    rw [Delivery.stops, beq_iff_eq]
    omega

end Source

namespace BitReader

variable {reader after middle : BitReader} {reason : DecodeError} {n : Nat}

/-! ## The bits before a reader -/

/-- The bytes that have not been pulled. -/
def pending (reader : BitReader) : List UInt8 :=
  reader.buffer.data.toList.drop reader.cursor ++ reader.source.toList

/-- The bits that have not been handed out. -/
def upcoming (reader : BitReader) : List Bool :=
  bitsOf reader.count reader.held.toNat ++ bytesBits reader.pending

/-- A reader in order, over a source without mishaps, that has exactly these bits before it. -/
structure At (bits : List Bool) (reader : BitReader) : Prop extends reader.Sound where
  smooth : reader.source.Smooth
  upcoming : reader.upcoming = bits

/-- A byte that is pulled comes to stand behind the bits held. -/
theorem bitsOf_hold {reader : BitReader} (h : reader.Intact) (few : reader.count ≤ 56)
    (byte : UInt8) :
    bitsOf (reader.hold byte).count (reader.hold byte).held.toNat
      = bitsOf reader.count reader.held.toNat ++ bitsOf 8 byte.toNat := by
  have hbyte : byte.toNat < 2 ^ 8 := byte.toNat_lt
  simp only [hold]
  rw [toNat_hold _ _ (h.hasRoom few), bitsOf_add, ← bitsOf_mod (Nat.le_refl 8),
    show (reader.held.toNat * 2 ^ 8 + byte.toNat) / 2 ^ 8 = reader.held.toNat by omega,
    show (reader.held.toNat * 2 ^ 8 + byte.toNat) % 2 ^ 8 = byte.toNat by omega]

/-- Holding the next byte does not change which bits are before the reader. -/
theorem upcoming_hold {reader after : BitReader} {byte : UInt8} {tail : List UInt8}
    (h : reader.Intact) (few : reader.count ≤ 56) (hpending : reader.pending = byte :: tail)
    (hcount : after.count = (reader.hold byte).count)
    (hheld : after.held = (reader.hold byte).held) (htail : after.pending = tail) :
    after.upcoming = reader.upcoming := by
  rw [upcoming, upcoming, hpending, hcount, hheld, htail, bitsOf_hold h few, List.append_assoc]
  rfl

theorem length_upcoming (reader : BitReader) :
    reader.upcoming.length = reader.count + 8 * reader.pending.length := by
  rw [upcoming, List.length_append, length_bitsOf, length_bytesBits]

/-- The bits before a reader are those of the field that is handed out next, and what comes then. -/
theorem upcoming_field {reader : BitReader} (few : reader.count < 64) {n : Nat}
    (enough : n ≤ reader.count) :
    reader.upcoming = bitsOf n (reader.field n) ++ (reader.dropField n).upcoming := by
  have hleft : (reader.dropField n).count = reader.count - n := rfl
  have hsplit : bitsOf reader.count reader.held.toNat
      = bitsOf n (reader.field n)
        ++ bitsOf (reader.dropField n).count (reader.dropField n).held.toNat := by
    rw [toNat_held_dropField few, hleft, bitsOf_mod (Nat.le_refl _), field, ← bitsOf_add,
      show n + (reader.count - n) = reader.count by omega]
  rw [upcoming, hsplit, List.append_assoc]
  rfl

/-! ## Places -/

theorem position_hold (reader : BitReader) (byte : UInt8) :
    (reader.hold byte).position = reader.position := by
  simp only [position, hold]
  omega

/-- Pulling a byte does not hand out any bits. -/
theorem position_pull (reader : BitReader) :
    match pull reader with
    | .ok _ after => after.position = reader.position
    | .error _ after => after.position = reader.position := by
  unfold pull
  by_cases full : !reader.hasRoom
  · rw [if_pos full]
  rw [if_neg full]
  by_cases ready : reader.cursor < reader.buffer.size
  · rw [dif_pos ready]
    exact position_hold reader (reader.buffer[reader.cursor])
  rw [dif_neg ready]
  rcases Source.ask Source.pieceLimit reader.source.deliveries with ⟨_ | bytes, deliveries⟩
  · rfl
  · by_cases more : 0 < bytes.size
    · simp only [dif_pos more]
      exact position_hold reader (bytes[0])
    · simp only [dif_neg more]
      rfl

theorem position_pullMany (n : Nat) (reader : BitReader) :
    match pullMany n reader with
    | .ok _ after => after.position = reader.position
    | .error _ after => after.position = reader.position := by
  induction n generalizing reader with
  | zero => rfl
  | succ n ih =>
    have first := position_pull reader
    simp only [pullMany, Bind.bind, EStateM.bind]
    cases hp : pull reader with
    | error reason after => rw [hp] at first; exact first
    | ok u after =>
      rw [hp] at first
      have others := ih after
      simp only
      cases hq : pullMany n after with
      | error reason last => rw [hq] at others; exact others.trans first
      | ok v last => rw [hq] at others; exact others.trans first

/-- Bits that are handed out are behind the place. -/
theorem position_dropField (h : reader.Intact) (enough : n ≤ reader.count) :
    (reader.dropField n).position = reader.position + n := by
  have hpulled := h.pulled
  simp only [position, dropField]
  omega

/-! ## One pulled byte -/

/-- The failures that a source causes: it has come to its end, or fails and is not interrupted. -/
def Halted (place : Nat) (reason : DecodeError) : Prop :=
  reason = .endOfStream place ∨ ∃ error, reason = .io error ∧ error.kind ≠ .interrupted

/--
A read has failed and the reader has lost nothing: it stands where it stood, before the same bits.
The source is past one of its stops; if there was none, it has come to its end.
-/
structure Paused (reader : BitReader) (reason : DecodeError) (after : BitReader) : Prop where
  position : after.position = reader.position
  upcoming : after.upcoming = reader.upcoming
  halted : Halted reader.position reason
  stops : after.source.stops + 1 = reader.source.stops
    ∨ after.source.stops = reader.source.stops ∧ reader.source.stops = 0
      ∧ reason = .endOfStream reader.position ∧ after.pending = []

/-- What comes before a failure may lose nothing either. -/
theorem Paused.of_middle (h : middle.Paused reason after) (position : middle.position = reader.position)
    (upcoming : middle.upcoming = reader.upcoming)
    (stops : middle.source.stops = reader.source.stops) : reader.Paused reason after := by
  obtain ⟨hposition, hupcoming, hhalted, hstops⟩ := h
  rw [position] at hposition hhalted hstops
  rw [stops] at hstops
  exact ⟨hposition, hupcoming.trans upcoming, hhalted, hstops⟩

theorem Paused.stops_le (h : reader.Paused reason after) :
    after.source.stops ≤ reader.source.stops := by
  rcases h.stops with hless | ⟨hsame, _⟩ <;> omega

/-- Pulling a byte loses no bit, whatever the source answers. -/
theorem pull_keeps (h : reader.Intact) (few : reader.count ≤ 56) :
    match pull reader with
    | .ok _ after =>
      after.upcoming = reader.upcoming ∧ after.source.stops = reader.source.stops
    | .error reason after => reader.Paused reason after := by
  have hroom := (hasRoom_iff reader).mpr (h.hasRoom few)
  simp only [pull, hroom, Bool.not_true, Bool.false_eq_true, if_false]
  by_cases ready : reader.cursor < reader.buffer.size
  · -- the next byte comes out of the buffer
    have hinside : reader.cursor < reader.buffer.data.toList.length := by
      rw [← ByteString.size_eq_length]
      exact ready
    have hpending : reader.pending = reader.buffer[reader.cursor] ::
        (reader.buffer.data.toList.drop (reader.cursor + 1) ++ reader.source.toList) := by
      rw [pending, List.drop_eq_getElem_cons hinside]
      rfl
    rw [dif_pos ready]
    exact ⟨upcoming_hold h few hpending rfl rfl rfl, rfl⟩
  · -- the buffer is used up, so that only the source has bytes
    have hempty : reader.buffer.data.toList.drop reader.cursor = [] := by
      rw [List.drop_eq_nil_iff, ← ByteString.size_eq_length]
      omega
    have hpending : ∀ source : Source,
        ({ reader with source := source } : BitReader).pending = source.toList := by
      intro source
      rw [pending, hempty, List.nil_append]
    have hanswer := Source.answers_ask (by decide : 0 < Source.pieceLimit) reader.source.deliveries
    rw [dif_neg ready]
    generalize Source.ask Source.pieceLimit reader.source.deliveries = result at hanswer
    cases hanswer with
    | @some bytes rest size toList stops =>
      have hinside : 0 < bytes.data.toList.length := by
        rw [← ByteString.size_eq_length]
        exact size
      have hsplit : reader.pending = bytes[0] ::
          (bytes.data.toList.drop 1 ++ Source.toList ⟨rest⟩) := by
        rw [hpending reader.source]
        refine toList.symm.trans ?_
        conv_lhs => rw [← List.drop_zero (l := bytes.data.toList)]
        rw [List.drop_eq_getElem_cons hinside]
        rfl
      simp only [dif_pos size]
      exact ⟨upcoming_hold h few hsplit rfl rfl rfl, stops⟩
    | @stop answer rest answer_eq toList stops =>
      have hupcoming : ({ reader with source := ⟨rest⟩ } : BitReader).upcoming = reader.upcoming := by
        rw [upcoming, upcoming, hpending, toList, ← hpending reader.source]
      rcases answer_eq with rfl | ⟨error, rfl, hkind⟩
      · exact ⟨rfl, hupcoming, .inl rfl, .inl stops⟩
      · exact ⟨rfl, hupcoming, .inr ⟨error, rfl, hkind⟩, .inl stops⟩
    | ended toList stops =>
      have hnone : ({ reader with source := ⟨[]⟩ } : BitReader).pending = [] := hpending ⟨[]⟩
      have hupcoming : ({ reader with source := ⟨[]⟩ } : BitReader).upcoming = reader.upcoming := by
        rw [upcoming, upcoming, hnone, hpending reader.source]
        exact congrArg (fun bytes => _ ++ bytesBits bytes) toList.symm
      exact ⟨rfl, hupcoming, .inl rfl, .inr ⟨stops.symm, stops, rfl, hnone⟩⟩

/-! ## The bytes pulled for a field -/

theorem pullMany_keeps (n : Nat) (h : reader.Intact) (few : reader.count + 8 * n ≤ 64) :
    match pullMany n reader with
    | .ok _ after =>
      after.upcoming = reader.upcoming ∧ after.source.stops = reader.source.stops
    | .error reason after => reader.Paused reason after := by
  induction n generalizing reader with
  | zero => exact ⟨rfl, rfl⟩
  | succ n ih =>
    have hintact := pull_intact h (by omega)
    have hkeeps := pull_keeps h (by omega)
    have hplace := position_pull reader
    simp only [pullMany, Bind.bind, EStateM.bind]
    cases hp : pull reader with
    | error reason after =>
      rw [hp] at hkeeps
      exact hkeeps
    | ok u middle =>
      rw [hp] at hintact hkeeps hplace
      obtain ⟨hmiddle, hcount⟩ := hintact
      obtain ⟨hupcoming, hstops⟩ := hkeeps
      have hothers := ih hmiddle (by omega)
      simp only
      cases hq : pullMany n middle with
      | error reason after =>
        rw [hq] at hothers
        exact hothers.of_middle hplace hupcoming hstops
      | ok v after =>
        rw [hq] at hothers
        exact ⟨hothers.1.trans hupcoming, hothers.2.trans hstops⟩

/-! ## Fields -/

/-- **A field is read as it is written, or not at all.** -/
theorem bits_keeps (hpos : 0 < n) (hn : n ≤ 32) (h : reader.Sound) :
    match bits n reader with
    | .ok word after => after.Sound ∧ n ≤ reader.upcoming.length
      ∧ word.toNat = numberOf (reader.upcoming.take n) ∧ after.upcoming = reader.upcoming.drop n
      ∧ after.position = reader.position + n ∧ after.source.stops = reader.source.stops
    | .error reason after => after.Sound ∧ reader.Paused reason after ∧ after.count < n := by
  obtain ⟨henough, hmost, hfew, htight⟩ := missing_bounds h.count hn
  have hintact := pullMany_intact (reader.missing n) h.toIntact (by omega)
  have hkeeps := pullMany_keeps (reader.missing n) h.toIntact (by omega)
  have hplace := position_pullMany (reader.missing n) reader
  cases hp : pullMany (reader.missing n) reader with
  | error reason after =>
    rw [hp] at hintact hkeeps
    obtain ⟨hafter, hcount, _⟩ := hintact
    rw [bits_eq hpos hn, hp]
    have hsome : 0 < reader.missing n := by
      rcases Nat.eq_zero_or_pos (reader.missing n) with hzero | hsome
      · rw [hzero] at hp
        cases hp
      · exact hsome
    have hlast := htight hsome
    exact ⟨⟨hafter, by omega⟩, hkeeps, by omega⟩
  | ok u middle =>
    rw [hp] at hintact hkeeps hplace
    obtain ⟨hmiddle, hcount⟩ := hintact
    obtain ⟨hupcoming, hstops⟩ := hkeeps
    obtain ⟨word, htake, hword⟩ := take_eq hmiddle hn (by omega) (by omega : middle.count < 64)
    have hread : bits n reader = .ok word (middle.dropField n) := by
      rw [bits_eq hpos hn, hp]
      exact htake
    have hsplit := upcoming_field (by omega) (by omega : n ≤ middle.count)
    rw [hupcoming] at hsplit
    have hlength : (bitsOf n (middle.field n)).length = n := length_bitsOf _ _
    rw [hread]
    refine ⟨⟨hmiddle.dropField (by omega) n, ?_⟩, ?_, ?_, ?_, ?_, hstops⟩
    · show middle.count - n ≤ 31
      omega
    · rw [hsplit, List.length_append, hlength]
      omega
    · rw [hsplit, List.take_left' hlength, numberOf_bitsOf (hmiddle.field_lt (by omega)), hword]
    · rw [hsplit, List.drop_left' hlength]
    · rw [position_dropField hmiddle (by omega), hplace]

/-- If nothing but the end can make a read fail, it fails for want of bits. -/
theorem Paused.short (h : reader.Paused reason after) (few : after.count < n)
    (last : reader.source.stops = 0) :
    reason = .endOfStream reader.position ∧ reader.upcoming.length < n := by
  rcases h.stops with hless | ⟨_, _, hreason, hpending⟩
  · omega
  · have hlength := after.length_upcoming
    rw [h.upcoming, hpending, List.length_nil] at hlength
    exact ⟨hreason, by omega⟩

/-! ## Sources without mishaps -/

theorem smooth_pull (smooth : reader.source.Smooth) : match pull reader with
    | .ok _ after | .error _ after => after.source.Smooth := by
  have hask := Source.smooth_ask Source.pieceLimit smooth
  unfold pull
  by_cases full : !reader.hasRoom
  · rw [if_pos full]
    exact smooth
  rw [if_neg full]
  by_cases ready : reader.cursor < reader.buffer.size
  · rw [dif_pos ready]
    exact smooth
  rw [dif_neg ready]
  generalize Source.ask Source.pieceLimit reader.source.deliveries = answer at hask
  rcases answer with ⟨_ | bytes, deliveries⟩
  · exact hask
  · by_cases more : 0 < bytes.size
    · simp only [dif_pos more]
      exact hask
    · simp only [dif_neg more]
      exact hask

theorem smooth_pullMany (n : Nat) (smooth : reader.source.Smooth) : match pullMany n reader with
    | .ok _ after | .error _ after => after.source.Smooth := by
  induction n generalizing reader with
  | zero => exact smooth
  | succ n ih =>
    have hfirst := smooth_pull smooth
    simp only [pullMany, Bind.bind, EStateM.bind]
    cases hp : pull reader with
    | error reason after =>
      rw [hp] at hfirst
      exact hfirst
    | ok u middle =>
      rw [hp] at hfirst
      exact ih hfirst

theorem smooth_bits (hpos : 0 < n) (hn : n ≤ 32) (smooth : reader.source.Smooth) :
    match bits n reader with
    | .ok _ after | .error _ after => after.source.Smooth := by
  have hpull := smooth_pullMany (reader.missing n) smooth
  rw [bits_eq hpos hn]
  cases hp : pullMany (reader.missing n) reader with
  | error reason after =>
    rw [hp] at hpull
    exact hpull
  | ok u middle =>
    rw [hp] at hpull
    by_cases bad : middle.count < n ∨ 64 ≤ middle.count
    · simp only [take, if_pos bad]
      exact hpull
    · simp only [take, if_neg bad]
      exact hpull

/-- **A field reads the number that is written next.** -/
theorem bits_at {value : Nat} (hpos : 0 < n) (hn : n ≤ 32) (hvalue : value < 2 ^ n)
    {rest : List Bool} (h : reader.At (bitsOf n value ++ rest)) :
    ∃ word after, bits n reader = .ok word after ∧ word.toNat = value ∧ after.At rest := by
  have hlength : (bitsOf n value).length = n := length_bitsOf n value
  have hread := bits_keeps hpos hn h.toSound
  have hsmooth := smooth_bits hpos hn h.smooth
  cases hb : bits n reader with
  | error reason after =>
    rw [hb] at hread
    obtain ⟨_, hpaused, hfew⟩ := hread
    have hshort := (hpaused.short hfew h.smooth.stops).2
    rw [h.upcoming, List.length_append] at hshort
    omega
  | ok word after =>
    rw [hb] at hread hsmooth
    obtain ⟨hafter, _, hword, hupcoming, _⟩ := hread
    rw [h.upcoming, List.take_left' hlength, numberOf_bitsOf hvalue] at hword
    rw [h.upcoming, List.drop_left' hlength] at hupcoming
    exact ⟨word, after, rfl, hword, hafter, hsmooth, hupcoming⟩

end BitReader

end Bunzip

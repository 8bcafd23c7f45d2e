import Bunzip.Proofs.Format.Reads

/-!
# A reader over any source

A reader is asked for one field after the other, and is asked on after a failure. The source may
deliver its bytes in pieces of any size, be interrupted, fail, or say that there are no bytes when
there are. All the same, what the reader hands out is the bit string of the source, in order and
without a gap, and a request that is made again is granted in the end if there are enough bits.
-/

namespace Bunzip

open Format

namespace BitReader

variable {reader : BitReader} {n : Nat}

/-! ## Requests in a row -/

/-- The reader that requests for fields of these widths leave behind. After a failure the next
request is made all the same. -/
def afterRequests : List Nat → BitReader → BitReader
  | [], reader => reader
  | n :: widths, reader =>
    match bits n reader with
    | .ok _ after => afterRequests widths after
    | .error _ after => afterRequests widths after

/-- How many bits are handed out by those of the requests that succeed. -/
def granted : List Nat → BitReader → Nat
  | [], _ => 0
  | n :: widths, reader =>
    match bits n reader with
    | .ok _ after => n + granted widths after
    | .error _ after => granted widths after

/-- After any requests the reader stands behind the bits that were handed out. -/
theorem afterRequests_keeps (widths : List Nat) (hwidths : ∀ n ∈ widths, 0 < n ∧ n ≤ 32)
    (h : reader.Sound) :
    (afterRequests widths reader).Sound
      ∧ (afterRequests widths reader).upcoming = reader.upcoming.drop (granted widths reader)
      ∧ (afterRequests widths reader).position = reader.position + granted widths reader
      ∧ (afterRequests widths reader).source.stops ≤ reader.source.stops
      ∧ granted widths reader ≤ reader.upcoming.length := by
  induction widths generalizing reader with
  | nil => exact ⟨h, rfl, rfl, Nat.le_refl _, Nat.zero_le _⟩
  | cons n widths ih =>
    obtain ⟨hpos, hn⟩ := hwidths n List.mem_cons_self
    have hothers := fun {middle : BitReader} =>
      @ih middle fun m hm => hwidths m (List.mem_cons_of_mem n hm)
    have hfirst := bits_keeps hpos hn h
    rw [afterRequests, granted]
    cases hb : bits n reader with
    | error reason middle =>
      rw [hb] at hfirst
      obtain ⟨hmiddle, hpaused, _⟩ := hfirst
      obtain ⟨hafter, hupcoming, hposition, hstops, hgranted⟩ := hothers hmiddle
      rw [hpaused.upcoming] at hupcoming hgranted
      rw [hpaused.position] at hposition
      exact ⟨hafter, hupcoming, hposition, hstops.trans hpaused.stops_le, hgranted⟩
    | ok word middle =>
      rw [hb] at hfirst
      obtain ⟨hmiddle, henough, _, hdrop, hplace, hsame⟩ := hfirst
      obtain ⟨hafter, hupcoming, hposition, hstops, hgranted⟩ := hothers hmiddle
      rw [hdrop, List.drop_drop] at hupcoming
      rw [hdrop, List.length_drop] at hgranted
      refine ⟨hafter, hupcoming, by rw [hposition, hplace, Nat.add_assoc], hstops.trans_eq hsame, ?_⟩
      show n + granted widths middle ≤ reader.upcoming.length
      omega

/-- A request that is made again and again is granted in the end if there are enough bits. -/
theorem granted_again (hpos : 0 < n) (hn : n ≤ 32) (h : reader.Sound)
    (enough : n ≤ reader.upcoming.length) :
    ∃ k ≤ reader.source.stops, granted (List.replicate k n) reader = 0
      ∧ ∃ word after, bits n (afterRequests (List.replicate k n) reader) = .ok word after
        ∧ word.toNat = numberOf (reader.upcoming.take n) := by
  -- on the stops that are left: every failure uses up one of them
  induction hs : reader.source.stops generalizing reader with
  | zero =>
    have hfirst := bits_keeps hpos hn h
    cases hb : bits n reader with
    | error reason middle =>
      rw [hb] at hfirst
      obtain ⟨_, hpaused, hfew⟩ := hfirst
      have hshort := (hpaused.short hfew hs).2
      omega
    | ok word after =>
      rw [hb] at hfirst
      exact ⟨0, Nat.le_refl 0, rfl, word, after, hb, hfirst.2.2.1⟩
  | succ stops ih =>
    have hfirst := bits_keeps hpos hn h
    cases hb : bits n reader with
    | error reason middle =>
      rw [hb] at hfirst
      obtain ⟨hmiddle, hpaused, _⟩ := hfirst
      have hfewer : middle.source.stops = stops := by
        rcases hpaused.stops with hless | ⟨_, hzero, _⟩ <;> omega
      have henough := enough
      rw [← hpaused.upcoming] at henough
      obtain ⟨k, hk, hgranted, word, after, hread, hword⟩ := ih hmiddle henough hfewer
      rw [hpaused.upcoming] at hword
      refine ⟨k + 1, by omega, ?_, word, after, ?_, hword⟩
      · rw [List.replicate_succ, granted, hb]
        exact hgranted
      · rw [List.replicate_succ, afterRequests, hb]
        exact hread
    | ok word after =>
      rw [hb] at hfirst
      exact ⟨0, Nat.zero_le _, rfl, word, after, hb, hfirst.2.2.1⟩

/-! ## What a reader owes to its bytes -/

/--
What is asked of a reader that has handed out the first `place` bits of these bytes, when `n` more are
requested from it.
-/
structure Serves (bytes : List UInt8) (place n : Nat) (reader : BitReader) : Prop where
  position : reader.position = place
  /-- At every byte that is pulled on the way, nothing stands above the bits held, there are at most
  39 of them, and all that has not been handed out is still to come. -/
  pulling : ∀ k ≤ reader.missing n, match pullMany k reader with
    | .ok _ middle | .error _ middle => middle.held.toNat < 2 ^ middle.count ∧ middle.count ≤ 39
      ∧ middle.upcoming = (bytesBits bytes).drop place
  success : ∀ word after, bits n reader = .ok word after → place + n ≤ 8 * bytes.length
    ∧ word.toNat = numberOf (((bytesBits bytes).drop place).take n) ∧ after.position = place + n
  /-- Interruptions are not among the failures that are told. -/
  failure : ∀ reason after, bits n reader = .error reason after → Halted place reason
    ∧ after.position = place ∧ after.upcoming = (bytesBits bytes).drop place
  /-- If the bits are there, the request fails at most once for each stop that is left. -/
  again : place + n ≤ 8 * bytes.length → ∃ k ≤ reader.source.stops,
    granted (List.replicate k n) reader = 0
      ∧ ∃ word after, bits n (afterRequests (List.replicate k n) reader) = .ok word after
        ∧ word.toNat = numberOf (((bytesBits bytes).drop place).take n)
  /-- Behind the last stop, it fails only where the bytes end. -/
  last : reader.source.stops = 0 →
    ((∃ reason after, bits n reader = .error reason after) ↔ 8 * bytes.length < place + n)
      ∧ ∀ reason after, bits n reader = .error reason after → reason = .endOfStream place

/-- A reader in order serves the bits that are before it. -/
theorem Sound.serves {bytes : List UInt8} {place : Nat} (h : reader.Sound) (hpos : 0 < n) (hn : n ≤ 32)
    (hposition : reader.position = place) (hplace : place ≤ 8 * bytes.length)
    (hupcoming : reader.upcoming = (bytesBits bytes).drop place) :
    reader.Serves bytes place n := by
  have hlength : reader.upcoming.length + place = 8 * bytes.length := by
    rw [hupcoming, List.length_drop, length_bytesBits]
    omega
  have hread := bits_keeps hpos hn h
  obtain ⟨_, _, hfew, _⟩ := missing_bounds h.count hn
  refine ⟨hposition, ?_, ?_, ?_, ?_, ?_⟩
  · intro k hk
    have hintact := pullMany_intact k h.toIntact (by omega)
    have hkeeps := pullMany_keeps k h.toIntact (by omega)
    cases hp : pullMany k reader with
    | error reason middle =>
      rw [hp] at hintact hkeeps
      exact ⟨hintact.1.held, by omega, hkeeps.upcoming.trans hupcoming⟩
    | ok u middle =>
      rw [hp] at hintact hkeeps
      exact ⟨hintact.1.held, by omega, hkeeps.1.trans hupcoming⟩
  · intro word after hok
    rw [hok, hupcoming] at hread
    obtain ⟨_, henough, hword, _, hafter, _⟩ := hread
    rw [← hupcoming] at henough
    exact ⟨by omega, hword, by rw [hafter, hposition]⟩
  · intro reason after herror
    rw [herror] at hread
    obtain ⟨_, hpaused, _⟩ := hread
    have hhalted := hpaused.halted
    rw [hposition] at hhalted
    exact ⟨hhalted, hpaused.position.trans hposition, hpaused.upcoming.trans hupcoming⟩
  · intro henough
    have hagain := granted_again hpos hn h (by omega)
    rwa [hupcoming] at hagain
  · intro hstops
    have hshort : ∀ reason after, bits n reader = .error reason after →
        reason = .endOfStream place ∧ 8 * bytes.length < place + n := by
      intro reason after herror
      rw [herror] at hread
      obtain ⟨_, hpaused, hfew⟩ := hread
      obtain ⟨hreason, hless⟩ := hpaused.short hfew hstops
      rw [hposition] at hreason
      exact ⟨hreason, by omega⟩
    refine ⟨⟨fun ⟨reason, after, herror⟩ => (hshort reason after herror).2, fun hless => ?_⟩,
      fun reason after herror => (hshort reason after herror).1⟩
    cases hb : bits n reader with
    | error reason after => exact ⟨reason, after, rfl⟩
    | ok word after =>
      rw [hb] at hread
      have henough := hread.2.1
      omega

/--
**A reader refines the bit string of its source.** Whatever the source does on the way, and whatever
has been requested before, with or without success: the reader stands behind the bits that were
handed out, and serves the next request from there.
-/
theorem serves_afterRequests (source : Source) (widths : List Nat)
    (hwidths : ∀ n ∈ widths, 0 < n ∧ n ≤ 32) {n : Nat} (hpos : 0 < n) (hn : n ≤ 32) :
    (afterRequests widths (ofSource source)).source.stops ≤ source.stops
      ∧ (afterRequests widths (ofSource source)).Serves source.toList
        (granted widths (ofSource source)) n := by
  obtain ⟨hsound, hupcoming, hposition, hstops, hgranted⟩ :=
    afterRequests_keeps widths hwidths (sound_ofSource source)
  rw [upcoming_ofSource] at hupcoming hgranted
  rw [length_bytesBits] at hgranted
  have hstart : (ofSource source).position = 0 := rfl
  rw [hstart, Nat.zero_add] at hposition
  exact ⟨hstops, hsound.serves hpos hn hposition hgranted hupcoming⟩

/-- Three bytes, with an interruption and a failure behind the first of them. -/
def interrupted : Source :=
  ⟨[.bytes ⟨#[0xDE]⟩, .fault ⟨.interrupted, "again"⟩, .fault ⟨.timedOut, "later"⟩,
    .bytes ⟨#[0xAD, 0xBE]⟩]⟩

theorem serves_afterRequests_interrupted :
    granted [4, 16] (ofSource interrupted) = 4
      ∧ (afterRequests [4, 16] (ofSource interrupted)).Serves interrupted.toList 4 16 := by
  have hgranted : granted [4, 16] (ofSource interrupted) = 4 := by decide +kernel
  obtain ⟨_, hserves⟩ := serves_afterRequests interrupted [4, 16] (by decide) (n := 16) (by decide)
    (by decide)
  rw [hgranted] at hserves
  exact ⟨hgranted, hserves⟩

end BitReader

end Bunzip

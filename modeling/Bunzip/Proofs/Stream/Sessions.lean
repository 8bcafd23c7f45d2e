import Bunzip.Proofs.Codes.Exact
import Bunzip.Proofs.Stream.PullPush
import Bunzip.Proofs.Stream.Safety

/-!
# No session comes across a defect

A session is any sequence of calls on a stream decoder and on the blocks that it has handed out. The
states that sessions reach are in order, so no call on one of them fails with a defect: no index is
out of range, no bit is lost, no counter overflows and no assertion fails.
-/

namespace Bunzip

/--
A caller has seen that a block has nothing left: a request that had room was answered with nothing,
or everything went into a sink.
-/
inductive DecodedBlock.SeenEmpty : DecodedBlock → DecodedBlock → Prop where
  | read {block : DecodedBlock} {room : Nat} : 0 < room → (block.read room).1.size = 0 →
      SeenEmpty block (block.read room).2
  | drain {block after : DecodedBlock} {sink sink' : Sink} {written : Nat} :
      DecodedBlock.drain (block, sink) = .ok written (after, sink') → SeenEmpty block after

namespace StreamDecoder

/-- The block that a request for the next one has handed out, if it has. -/
def offered : Outcome StreamDecoder (Option DecodedBlock) → List DecodedBlock
  | .ok (some block) _ _ => [block]
  | _ => []

/-- What is left of a block after an attempt to write it into a sink. -/
def leftOver : EStateM.Result DecodeError (DecodedBlock × Sink) Nat → DecodedBlock
  | .ok _ (block, _) => block
  | .error _ (block, _) => block

/--
The states that sessions on a source reach: a stream decoder, and blocks that the caller holds. Calls
are made in any order, also after failures. A block is given back once the caller has seen that
nothing is left of it.
-/
inductive Reached (source : Source) : StreamDecoder → List DecodedBlock → Prop where
  | start {stream : StreamDecoder} {notes : List Note} :
      start source = .ok stream () notes → Reached source stream []
  | setStrict {stream : StreamDecoder} {held : List DecodedBlock} (strict : Bool) :
      Reached source stream held → Reached source (stream.setStrict strict) held
  | read {stream : StreamDecoder} {held : List DecodedBlock} (room : Nat) :
      Reached source stream held → Reached source (read room stream).state held
  | decodeTo {stream : StreamDecoder} {held : List DecodedBlock} (sink : Sink) :
      Reached source stream held → Reached source (decodeTo (stream, sink)).state.1 held
  | next {stream : StreamDecoder} {held : List DecodedBlock} :
      Reached source stream held →
      Reached source (next stream).state (offered (next stream) ++ held)
  | readHeld {stream : StreamDecoder} {held : List DecodedBlock} {block : DecodedBlock}
      (room : Nat) : Reached source stream held → block ∈ held →
      Reached source stream ((block.read room).2 :: held)
  | drainHeld {stream : StreamDecoder} {held : List DecodedBlock} {block : DecodedBlock}
      (sink : Sink) : Reached source stream held → block ∈ held →
      Reached source stream (leftOver (DecodedBlock.drain (block, sink)) :: held)
  | finish {stream : StreamDecoder} {held : List DecodedBlock} {block after : DecodedBlock} :
      Reached source stream held → block ∈ held → block.SeenEmpty after →
      Reached source (finish after stream).state held

/-- A block that was seen empty is in order and at its end. -/
theorem seenEmpty_atEnd {block after : DecodedBlock} (hblock : block.Sound)
    (h : block.SeenEmpty after) : after.Sound ∧ after.rest.AtEnd := by
  cases h with
  | read hroom hnone => exact ⟨hblock.read _, DecodedBlock.atEnd_of_read_empty hroom hnone⟩
  | @drain _ sink _ _ hdrain =>
    have hleft := hblock.drain sink
    rw [hdrain] at hleft
    exact hleft

/-- **Everything that a session reaches is in order.** -/
theorem Reached.sound {source : Source} {stream : StreamDecoder} {held : List DecodedBlock}
    (h : Reached source stream held) : stream.Sound ∧ ∀ block ∈ held, block.Sound := by
  -- one case for each call; only `next` and the calls on held blocks change what is held
  induction h with
  | start hstart =>
    have hsafe := safe_start source
    rw [hstart] at hsafe
    exact ⟨hsafe, fun _ hmem => nomatch hmem⟩
  | setStrict strict _ ih => exact ⟨⟨ih.1.bench, ih.1.current⟩, ih.2⟩
  | read room _ ih => exact ⟨(safe_read room).state ih.1, ih.2⟩
  | decodeTo sink _ ih => exact ⟨safe_decodeTo.state (show SoundWith (_, sink) from ih.1), ih.2⟩
  | @next stream held _ ih =>
    have hsafe := safe_next stream ih.1
    refine ⟨safe_next.state ih.1, ?_⟩
    intro block hmem
    rcases List.mem_append.mp hmem with hnew | hold
    · cases hnext : StreamDecoder.next stream with
      | error reason after notes => rw [hnext] at hnew; cases hnew
      | ok found after notes =>
        rw [hnext] at hnew hsafe
        cases found with
        | none => cases hnew
        | some found =>
          rw [offered, List.mem_singleton] at hnew
          rw [hnew]
          exact hsafe.2 found rfl
    · exact ih.2 block hold
  | readHeld room _ hmem ih =>
    refine ⟨ih.1, fun block hblock => ?_⟩
    rcases List.mem_cons.mp hblock with rfl | hold
    · exact (ih.2 _ hmem).read room
    · exact ih.2 block hold
  | @drainHeld stream held given sink _ hmem ih =>
    refine ⟨ih.1, fun block hblock => ?_⟩
    rcases List.mem_cons.mp hblock with rfl | hold
    · have hleft := (ih.2 _ hmem).drain sink
      cases hdrain : DecodedBlock.drain (given, sink) with
      | ok written after => rw [hdrain] at hleft; exact hleft.1
      | error reason after => rw [hdrain] at hleft; exact hleft.1
    · exact ih.2 block hold
  | finish _ hmem hempty ih =>
    obtain ⟨hafter, hend⟩ := seenEmpty_atEnd (ih.2 _ hmem) hempty
    exact ⟨(safe_finish hafter hend).state ih.1, ih.2⟩

/--
No call of any session on any source comes across a defect. What holds of the states reached is part
of this: the word of the reader holds no stray bits, and the links of every block lead to rows of it.
So is that a symbol map leaves at most 258 symbols, and that the words in which the codes for so many
are computed do not overflow.
-/
theorem no_defect (source : Source) :
    (∀ what, (start source).result ≠ .error (.defect what))
    ∧ (∀ (stream : StreamDecoder) (held : List DecodedBlock), Reached source stream held →
        (∀ room what, (read room stream).result ≠ .error (.defect what))
        ∧ (∀ sink what, (decodeTo (stream, sink)).result ≠ .error (.defect what))
        ∧ (∀ what, (next stream).result ≠ .error (.defect what))
        ∧ (∀ block ∈ held, ∀ sink what left,
            DecodedBlock.drain (block, sink) ≠ .error (.defect what) left)
        ∧ (∀ block ∈ held, ∀ after, block.SeenEmpty after →
            after.isExhausted = true ∧ ∀ what, (finish after stream).result ≠ .error (.defect what))
        ∧ stream.Sound ∧ ∀ block ∈ held, block.Sound)
    ∧ (∀ (reader last : BitReader) (symbols : List UInt8) (notes : List Note), reader.Sound →
        SymbolMap.read reader = .ok symbols last notes →
        symbols.length + 2 ≤ PrefixCode.maxAlphabet)
    ∧ (∀ (reader last : BitReader) (alphabet : Nat) (codes : GroupCodes) (notes : List Note),
        reader.Sound → alphabet ≤ PrefixCode.maxAlphabet →
        GroupCodes.read alphabet reader = .ok codes last notes →
        ∀ code ∈ codes.tables, code.Exact) := by
  refine ⟨?_, ?_, ?_, ?_⟩
  -- the header
  · intro what hdefect
    have hsafe := safe_start source
    cases hstart : start source with
    | ok stream _ notes => rw [hstart] at hdefect; cases hdefect
    | error reason _ notes =>
      rw [hstart] at hdefect hsafe
      exact hsafe what (Except.error.inj hdefect)
  -- the calls
  · intro stream held hreached
    obtain ⟨hstream, hheld⟩ := hreached.sound
    refine ⟨fun room => (safe_read room).result hstream,
      fun sink => safe_decodeTo.result (show SoundWith (stream, sink) from hstream),
      safe_next.result hstream, ?_, ?_, hstream, hheld⟩
    · intro block hblock sink what left hdefect
      have hdrain := (hheld block hblock).drain sink
      rw [hdefect] at hdrain
      exact hdrain.2 what rfl
    · intro block hblock after hempty
      obtain ⟨hafter, hend⟩ := seenEmpty_atEnd (hheld block hblock) hempty
      exact ⟨hafter.isExhausted hend, (safe_finish hafter hend).result hstream⟩
  -- the alphabets
  · intro reader last symbols notes hreader hread
    obtain ⟨_, _, hlength⟩ := SymbolMap.safe_read.of_ok hreader hread
    simp only [PrefixCode.maxAlphabet]
    omega
  -- the codes
  · intro reader last alphabet codes notes hreader halphabet hread code hcode
    obtain ⟨_, hcodes⟩ := (GroupCodes.safe_read alphabet).of_ok hreader hread
    exact (hcodes.tables code hcode).exact halphabet

/-- The first block is asked for and held, drained into a sink and given back. -/
theorem no_defect_abab : ∃ block begun notes,
    next ababStart = .ok (some block) begun notes
    ∧ Reached (.ofBytes ababStream) begun [block]
    ∧ (∀ room what, (read room begun).result ≠ .error (.defect what))
    ∧ (∀ sink what left, DecodedBlock.drain (block, sink) ≠ .error (.defect what) left)
    ∧ block.SeenEmpty block.drained.2
    ∧ block.drained.2.isExhausted = true
    ∧ ∀ what, (finish block.drained.2 begun).result ≠ .error (.defect what) := by
  have hfound : (offered (next ababStart)).isEmpty = false := by decide +kernel
  obtain ⟨block, begun, notes, hnext⟩ : ∃ block begun notes,
      next ababStart = .ok (some block) begun notes := by
    cases hnext : next ababStart with
    | error reason after notes => rw [hnext] at hfound; cases hfound
    | ok found after notes =>
      cases found with
      | none => rw [hnext] at hfound; cases hfound
      | some block => exact ⟨block, after, notes, rfl⟩
  have hreached : Reached (.ofBytes ababStream) begun [block] := by
    have hasked := Reached.next (.start start_abab)
    rw [hnext] at hasked
    exact hasked
  have hempty : block.SeenEmpty block.drained.2 :=
    .drain (block.drain_accepting Sink.accepting_unbounded)
  have hmem : block ∈ [block] := List.mem_cons_self
  obtain ⟨-, hcalls, -⟩ := no_defect (.ofBytes ababStream)
  obtain ⟨hread, -, -, hdrain, hfinish, -⟩ := hcalls begun [block] hreached
  obtain ⟨hexhausted, hback⟩ := hfinish block hmem block.drained.2 hempty
  exact ⟨block, begun, notes, hnext, hreached, hread, hdrain block hmem, hempty, hexhausted, hback⟩

end StreamDecoder

end Bunzip

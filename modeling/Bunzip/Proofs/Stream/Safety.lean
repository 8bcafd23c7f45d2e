import Bunzip.Proofs.Block.Safety
import Bunzip.Proofs.Stream.Steps

/-!
# Decoding a stream is safe

A caller may read, deliver the rest into a sink, or take the blocks one by one, drain them and give
them back, in any order and also after a failure. Whatever the source delivers, no such call comes
across a defect.
-/

namespace Bunzip.StreamDecoder

/-- A stream decoder in order: its bench is, and so is the block it reads from. -/
structure Sound (stream : StreamDecoder) : Prop where
  bench : stream.bench.Sound
  current : ∀ block, stream.current = some block → block.Sound

variable {stream : StreamDecoder}

/-- A value that is a block in order, if it is a block. -/
def SoundIfSome (found : Option DecodedBlock) : Prop := ∀ block, found = some block → block.Sound

/-! ## The header -/

theorem safe_readHeader :
    Op.Safe BitReader.Sound readHeader fun digit => 1 ≤ digit ∧ digit ≤ 9 := by
  refine (BitReader.safe_bytesOnto 3 ByteArray.empty).op.bind fun letters _ => ?_
  by_cases bad : letters ≠ signature
  · rw [if_pos bad]
    exact (Read.Safe.corrupt _).op
  rw [if_neg bad]
  refine BitReader.safe_byte.op.bind fun digit _ => ?_
  by_cases outside : digit < 49 ∨ 57 < digit
  · rw [if_pos outside]
    exact (Read.Safe.corrupt _).op
  rw [if_neg outside]
  refine (Op.Safe.note _).bind fun _ _ => .pure ?_
  simp only [UInt8.lt_iff_toNat_lt, UInt8.reduceToNat] at outside
  have hle : (48 : UInt8) ≤ digit := by
    simp only [UInt8.le_iff_toNat_le, UInt8.reduceToNat]
    omega
  simp only [UInt8.toNat_sub_of_le digit 48 hle, UInt8.reduceToNat]
  omega

/-- Whatever the source, a stream starts in order or fails for a blameless reason. -/
theorem safe_start (source : Source) :
    match start source with
    | .ok stream _ _ => stream.Sound
    | .error reason _ _ => reason.Blameless := by
  have safe := safe_readHeader (.ofSource source) (BitReader.sound_ofSource source)
  rw [start]
  cases hr : readHeader (.ofSource source) with
  | error reason reader notes =>
    rw [hr] at safe
    exact safe.2
  | ok digit reader notes =>
    rw [hr] at safe
    obtain ⟨hreader, _, hdigit⟩ := safe
    refine ⟨⟨?_, hreader⟩, fun _ => nofun⟩
    simp only [BlockDecoder.ofDigit]
    omega

/-! ## Blocks -/

theorem safe_onBench {α : Type} {op : Op BlockDecoder.Bench α} {post : α → Prop}
    (h : Op.Safe BlockDecoder.Bench.Sound op post) : Op.Safe Sound (onBench op) post := by
  intro stream hstream
  have safe := h stream.bench hstream.bench
  simp only [onBench]
  cases hr : op stream.bench with
  | ok a after notes => rw [hr] at safe; exact ⟨⟨safe.1, hstream.current⟩, safe.2⟩
  | error reason after notes => rw [hr] at safe; exact ⟨⟨safe.1, hstream.current⟩, safe.2⟩

theorem safe_reading {α : Type} {x : Read α} {post : α → Prop} (h : x.Safe post) :
    Op.Safe Sound (reading x) post := safe_onBench (BlockDecoder.safe_reading h)

theorem safe_marker : marker.Safe fun _ => True :=
  (BitReader.safe_bits (by decide) (by decide)).bind fun _ _ =>
    (BitReader.safe_bits (by decide) (by decide)).map fun _ _ => trivial

/-- Behind a marker that has been read, the bench is in order. -/
theorem Sound.behind (h : stream.Sound) {magic : UInt64} {behind : BitReader}
    (hmarker : marker stream.bench.2 = .ok magic behind) :
    BlockDecoder.Bench.Sound (stream.bench.1, behind) := by
  have hrun : Op.read marker stream.bench.2 = .ok magic behind [] := by rw [Op.read, hmarker]
  exact ⟨h.bench.maxLength, (safe_marker.op.of_ok h.bench.reader hrun).1⟩

theorem safe_readFooter : Op.Safe Sound readFooter fun _ => True := by
  refine (safe_reading BitReader.safe_word).bind fun stored _ =>
    (Op.Safe.modify fun stream h => ⟨h.bench, h.current⟩).bind fun _ _ =>
      Op.Safe.get.bind fun stream _ => (Op.Safe.note _).bind fun _ _ => ?_
  split
  · exact .pure trivial
  · split
    · exact .fail fun _ => nofun
    · exact Op.Safe.note _

theorem safe_readMarked : Op.Safe Sound readMarked SoundIfSome := by
  refine (safe_reading safe_marker).bind fun magic _ => ?_
  split
  · refine Op.Safe.get.bind fun stream _ => (Op.Safe.note _).bind fun _ _ =>
      (safe_onBench (BlockDecoder.safe_readBlock _)).bind fun block hblock => .pure ?_
    intro other hother
    cases hother
    exact hblock
  · split
    · exact safe_readFooter.bind fun _ _ => .pure fun _ => nofun
    · exact safe_reading (.corrupt _)

theorem safe_next : Op.Safe Sound next SoundIfSome := by
  intro stream hstream
  by_cases hfinished : stream.isFinished
  · rw [next, if_pos hfinished]
    exact ⟨hstream, fun _ => nofun⟩
  · rw [next, if_neg hfinished]
    exact safe_readMarked stream hstream

/-- A block that is given back when nothing is left of it passes the check for that. -/
theorem safe_finish {block : DecodedBlock} (hblock : block.Sound) (hend : block.rest.AtEnd) :
    Op.Safe Sound (finish block) fun _ => True := by
  have hexhausted := hblock.isExhausted hend
  unfold finish
  simp only [hexhausted, Bool.not_true, Bool.false_eq_true, if_false]
  have hverify : Op.Safe Sound (block.verify : Op StreamDecoder UInt32) fun _ => True := by
    refine (Op.Safe.note _).bind fun _ _ => ?_
    split
    · exact .fail fun _ => nofun
    · exact .pure trivial
  exact hverify.bind fun _ _ => (Op.Safe.modify fun _ h => ⟨h.bench, h.current⟩).bind fun _ _ =>
    Op.Safe.get.bind fun _ _ => (Op.Safe.note _).bind fun _ _ =>
      (Op.Safe.modify fun _ h => ⟨h.bench, h.current⟩).bind fun _ _ =>
        (safe_onBench (BlockDecoder.safe_onDecoder (BlockDecoder.safe_recycle _))).bind
          fun _ _ => .pure trivial

/-! ## Into a sink -/

/-- A stream in order that is delivered into whatever sink. -/
def SoundWith (state : StreamDecoder × Sink) : Prop := state.1.Sound

theorem safe_deliver {block : DecodedBlock} (hblock : block.Sound) :
    Op.Safe SoundWith (deliver block) fun _ => True := by
  intro ⟨stream, sink⟩ hstream
  have hdrain := hblock.drain sink
  rw [deliver]
  cases hd : DecodedBlock.drain (block, sink) with
  | error reason after =>
    rw [hd] at hdrain
    exact ⟨hstream, hdrain.2⟩
  | ok written after =>
    rw [hd] at hdrain
    have safe := safe_finish hdrain.1 hdrain.2 stream hstream
    simp only
    cases hf : finish after.1 stream with
    | ok report last notes => rw [hf] at safe; exact safe
    | error reason last notes => rw [hf] at safe; exact safe

theorem safe_deliverBlocks : Op.Safe SoundWith deliverBlocks fun _ => True := by
  intro ⟨stream, sink⟩ hstream
  -- every block costs its marker, so fewer bits are left behind it
  induction hn : stream.bitsLeft using Nat.strongRecOn generalizing stream sink with
  | ind n ih =>
    cases hnext : next stream with
    | error reason after notes =>
      rw [deliverBlocks_error hnext]
      exact safe_next.of_error hstream hnext
    | ok found begun notes =>
      obtain ⟨hbegun, hfound⟩ := safe_next.of_ok hstream hnext
      cases found with
      | none =>
        rw [deliverBlocks_ended hnext]
        exact ⟨hbegun, trivial⟩
      | some block =>
        rw [deliverBlocks_begun hnext, deliverFrom, Op.bind_eq]
        apply Outcome.Safe.after
        have hdeliver := safe_deliver (hfound block rfl) (begun, sink) hbegun
        cases hd : deliver block (begun, sink) with
        | error reason after more =>
          rw [hd] at hdeliver
          exact hdeliver
        | ok report done more =>
          rw [hd] at hdeliver
          have hbits := bitsLeft_next hnext
          have hbits' := (spends_deliver block).of_ok hd
          simp only at hbits'
          exact (ih done.1.bitsLeft (by omega) done.1 done.2 hdeliver.1 rfl).after more

theorem safe_takeCurrent : Op.Safe Sound takeCurrent SoundIfSome :=
  fun _ hstream => ⟨⟨hstream.bench, fun _ => nofun⟩, hstream.current⟩

theorem safe_onStream {α : Type} {op : Op StreamDecoder α} {post : α → Prop}
    (h : Op.Safe Sound op post) : Op.Safe SoundWith (onStream op) post := by
  intro ⟨stream, sink⟩ hstream
  have safe := h stream hstream
  simp only [onStream]
  cases hr : op stream with
  | ok a after notes => rw [hr] at safe; exact safe
  | error reason after notes => rw [hr] at safe; exact safe

theorem safe_flush : Op.Safe SoundWith flush fun _ => True := by
  intro ⟨stream, sink⟩ hstream
  rw [flush]
  cases sink.flush with
  | ok u => exact ⟨hstream, trivial⟩
  | error error => exact ⟨hstream, fun _ h => by cases h⟩

theorem safe_deliverFrom {current : Option DecodedBlock} (hcurrent : SoundIfSome current) :
    Op.Safe SoundWith (deliverFrom current) fun _ => True := by
  cases current with
  | none => exact safe_deliverBlocks
  | some block => exact (safe_deliver (hcurrent block rfl)).bind fun _ _ => safe_deliverBlocks

theorem safe_conclude : Op.Safe SoundWith conclude fun _ => True := by
  refine safe_flush.bind fun _ _ => Op.Safe.get.bind fun state _ => ?_
  obtain ⟨stream, _⟩ := state
  simp only
  split
  · exact .fail fun _ h => by cases h
  · exact .pure trivial

theorem safe_decodeTo : Op.Safe SoundWith decodeTo fun _ => True := by
  rw [decodeTo_eq]
  exact (safe_onStream safe_takeCurrent).bind fun _ hcurrent =>
    (safe_deliverFrom hcurrent).bind fun _ _ => safe_conclude

/-! ## Piece by piece -/

/-- A block is put back, or it has handed out everything and the next one takes its place. -/
theorem safe_readFrom {room : Nat} (hroom : 0 < room) {block : DecodedBlock}
    (hblock : block.Sound) : Op.Safe Sound (readFrom room block) fun _ => True := by
  intro stream hstream
  induction hn : stream.bitsLeft using Nat.strongRecOn generalizing block stream with
  | ind n ih =>
    have hafter := hblock.read room
    by_cases hsome : 0 < (block.read room).1.size
    · rw [readFrom_some hsome]
      refine ⟨⟨hstream.bench, ?_⟩, trivial⟩
      intro other hother
      cases hother
      exact hafter
    -- nothing is left of the block: it is given back, which is why it has to be in order
    have hnone : (block.read room).1.size = 0 := by omega
    rw [readFrom_none hnone, Op.bind_eq]
    have hfinish := safe_finish hafter (DecodedBlock.atEnd_of_read_empty hroom hnone) stream hstream
    cases hf : finish (block.read room).2 stream with
    | error reason after notes =>
      rw [hf] at hfinish
      exact hfinish
    | ok report done notes =>
      rw [hf] at hfinish
      apply Outcome.Safe.after
      rw [readOn, Op.bind_eq]
      cases hnext : next done with
      | error reason after more => exact safe_next.of_error hfinish.1 hnext
      | ok found begun more =>
        obtain ⟨hbegun, hfound⟩ := safe_next.of_ok hfinish.1 hnext
        apply Outcome.Safe.after
        cases found with
        | none => exact ⟨hbegun, trivial⟩
        | some next =>
          have hbits := (spends_finish _).of_ok hf
          have hbits' := bitsLeft_next hnext
          exact ih begun.bitsLeft (by omega) (hfound next rfl) begun hbegun rfl

theorem safe_read (room : Nat) : Op.Safe Sound (read room) fun _ => True := by
  rw [read]
  by_cases hroom : room = 0
  · rw [if_pos hroom]
    exact .pure trivial
  rw [if_neg hroom]
  refine safe_takeCurrent.bind fun current hcurrent => ?_
  cases current with
  | some block => exact safe_readFrom (by omega) (hcurrent block rfl)
  | none =>
    refine safe_next.bind fun found hfound => ?_
    cases found with
    | none => exact .pure trivial
    | some block => exact safe_readFrom (by omega) (hfound block rfl)

end Bunzip.StreamDecoder

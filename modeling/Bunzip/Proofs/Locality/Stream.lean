import Bunzip.Proofs.Locality.Block
import Bunzip.Proofs.Stream.Moves

/-!
# Delivering a stream is local

A stream is delivered block by block: a marker, the block behind it, and then the sink. The sink sees
no bits, and the bits do not depend on the sink, so the delivery is decided by the bits that are read
for its blocks and for the footer.
-/

namespace Bunzip

/-! ## Sinks -/

/-- The bytes that a sink has taken. -/
def Sink.bytes (sink : Sink) : List UInt8 := sink.taken.data.toList

/-- What a sink has taken stays with it. -/
theorem Sink.write_grows (sink : Sink) (bytes : ByteArray) :
    sink.bytes <+: (sink.write bytes).2.bytes := by
  have hgrow : ∀ more : ByteArray, sink.bytes <+: (sink.taken ++ more).data.toList := by
    intro more
    rw [ByteString.toList_append]
    exact List.prefix_append _ _
  unfold write
  split
  · exact hgrow bytes
  · split <;> exact hgrow _

namespace DecodedBlock

/-- Draining only adds to what a sink has taken, and fails only where the sink does. -/
theorem drainBy_grows (chunk written : Nat) (block : DecodedBlock) (sink : Sink) :
    match drainBy chunk written block sink with
    | .ok _ (_, last) => sink.bytes <+: last.bytes
    | .error reason (_, last) => sink.bytes <+: last.bytes ∧ ∃ error, reason = .io error := by
  induction hn : block.rest.bound using Nat.strongRecOn generalizing written block sink with
  | ind n ih =>
    by_cases hsome : 0 < (block.read chunk).1.size
    · have hwrite := sink.write_grows (block.read chunk).1
      rcases hw : sink.write (block.read chunk).1 with ⟨error | _, sink'⟩
      · rw [hw] at hwrite
        rw [drainBy_refused written hsome hw]
        exact ⟨hwrite, error, rfl⟩
      · rw [hw] at hwrite
        have hbound := block.read_bound chunk
        have hrest := ih _ (by omega) (written + (block.read chunk).1.size)
          (block.read chunk).2 sink' rfl
        rw [drainBy_some hsome hw]
        cases hd : drainBy chunk (written + (block.read chunk).1.size) (block.read chunk).2 sink' with
        | ok count last => rw [hd] at hrest; exact hwrite.trans hrest
        | error reason last => rw [hd] at hrest; exact ⟨hwrite.trans hrest.1, hrest.2⟩
    · have hnone : (block.read chunk).1.size = 0 := by omega
      simp only [drainBy_none written sink hnone, List.prefix_rfl]

end DecodedBlock

namespace StreamDecoder

/-! ## The stream -/

/-- All of a stream decoder except its reader. -/
def withoutReader (stream : StreamDecoder) : StreamDecoder :=
  { stream with bench := (stream.bench.1, .ofSource ⟨[]⟩) }

/-- A stream decoder, seen as its reader and all the rest. -/
def view : View StreamDecoder StreamDecoder where
  reader stream := stream.bench.2
  rest := withoutReader
  le _ _ := True
  le_refl _ := trivial
  le_trans _ _ := trivial

/-- The bench of a stream decoder. -/
def benchPart : view.Part BlockDecoder.view where
  get := bench
  set stream bench := { stream with bench }
  rest stream := stream.bench.1
  put stream decoder := { stream with bench := (decoder, .ofSource ⟨[]⟩) }
  reader_get _ := rfl
  reader_set _ _ := rfl
  rest_get _ := rfl
  rest_set _ _ := rfl
  le_put _ _ _ := trivial
  put_le _ _ _ _ := trivial

theorem local_onBench {α : Type} {op : Op BlockDecoder.Bench α}
    (h : Op.Local BlockDecoder.view op) : Op.Local view (onBench op) := h.lift benchPart

theorem local_reading {α : Type} {x : Read α} (h : x.Local) : Op.Local view (reading x) :=
  local_onBench (BlockDecoder.local_reading h)

/-- A change that neither touches nor minds the reader. -/
theorem local_modify (f : StreamDecoder → StreamDecoder)
    (hrest : ∀ stream, withoutReader (f stream) = f (withoutReader stream))
    (hreader : ∀ stream, (f stream).bench.2 = stream.bench.2) : Op.Local view (Op.modify f) :=
  .modify hrest hreader fun _ => trivial

theorem local_marker : marker.Local :=
  (BitReader.local_bits (by decide) (by decide)).bind fun _ =>
    (BitReader.local_bits (by decide) (by decide)).map _

/-- A field of two stream decoders with the same rest. -/
theorem field_eq {τ : Type} {a b : StreamDecoder} (h : withoutReader a = withoutReader b)
    (field : StreamDecoder → τ) (hfield : ∀ stream, field (withoutReader stream) = field stream) :
    field a = field b := by
  rw [← hfield a, h, hfield b]

theorem local_readFooter : Op.Local view readFooter := by
  refine (local_reading BitReader.local_word).bind fun stored => ?_
  refine (local_modify (fun stream => { stream with stored := some stored }) (fun _ => rfl)
    fun _ => rfl).bind fun _ => ?_
  refine Op.Local.get (fun a b hrest _ => ?_) fun stream => (Op.Local.note _).bind fun _ => ?_
  · rw [field_eq hrest computed fun _ => rfl, field_eq hrest reports fun _ => rfl,
      field_eq hrest strict fun _ => rfl]
  · split
    · exact .pure ()
    · split
      · exact .fail fun _ => nofun
      · exact .note _

theorem local_readMarked : Op.Local view readMarked := by
  refine (local_reading local_marker).bind fun magic => ?_
  split
  · refine Op.Local.get (fun a b hrest hplace => ?_) fun stream => (Op.Local.note _).bind fun _ =>
      (local_onBench (BlockDecoder.local_readBlock _)).bind fun _ => .pure _
    have hposition : a.position = b.position := hplace
    rw [field_eq hrest reports fun _ => rfl, hposition]
  · split
    · exact local_readFooter.bind fun _ => .pure none
    · exact local_reading (.corrupt _)

theorem next_eq : next = Op.get >>= fun stream =>
    if stream.isFinished then Pure.pure none else readMarked := by
  funext stream
  rw [next, Op.bind_eq]
  simp only [Op.get]
  split
  · rfl
  · cases readMarked stream <;> rfl

theorem local_next : Op.Local view next := by
  rw [next_eq]
  refine Op.Local.get (fun a b hrest _ => ?_) fun stream => ?_
  · rw [field_eq hrest isFinished fun _ => rfl]
  · split
    · exact .pure none
    · exact local_readMarked

theorem local_finish (block : DecodedBlock) : Op.Local view (finish block) := by
  have hverify : Op.Local view (block.verify : Op StreamDecoder UInt32) := by
    refine (Op.Local.note _).bind fun _ => ?_
    split
    · exact .fail fun _ => nofun
    · exact .pure _
  have hrecycle : Op.Local view
      (onBench (BlockDecoder.onDecoder (BlockDecoder.recycle block.rest.walk.links))) :=
    local_onBench (BlockDecoder.local_onDecoder fun _ _ => nofun)
  unfold finish
  split
  · exact .fail fun _ => nofun
  · refine hverify.bind fun crc => ?_
    refine (local_modify (fun stream =>
      { stream with computed := Crc.foldStream stream.computed crc }) (fun _ => rfl)
      fun _ => rfl).bind fun _ => ?_
    refine Op.Local.get (fun a b hrest _ => ?_) fun stream => (Op.Local.note _).bind fun _ => ?_
    · rw [field_eq hrest computed fun _ => rfl]
    · exact (local_modify (fun stream => { stream with
        outputLength := stream.outputLength + block.report.outputLength
        reports := stream.reports.push block.report }) (fun _ => rfl) fun _ => rfl).bind fun _ =>
          hrecycle.bind fun _ => .pure _

/-! ## Delivery -/

/-- A stream decoder and a sink; what the sink has taken only grows. -/
def viewWith : View (StreamDecoder × Sink) (StreamDecoder × Sink) where
  reader state := state.1.bench.2
  rest state := (withoutReader state.1, state.2)
  le before after := before.2.bytes <+: after.2.bytes
  le_refl _ := List.prefix_rfl
  le_trans := List.IsPrefix.trans

/-- The stream decoder, without the sink. -/
def streamPart : viewWith.Part view where
  get := Prod.fst
  set state stream := (stream, state.2)
  rest := Prod.fst
  put state stream := (stream, state.2)
  reader_get _ := rfl
  reader_set _ _ := rfl
  rest_get _ := rfl
  rest_set _ _ := rfl
  le_put _ _ _ := List.prefix_rfl
  put_le _ _ _ _ := List.prefix_rfl

theorem local_onStream {α : Type} {op : Op StreamDecoder α} (h : Op.Local view op) :
    Op.Local viewWith (onStream op) := h.lift streamPart

/-- The part of a delivery that drains the block into the sink. -/
def drainInto (block : DecodedBlock) : Op (StreamDecoder × Sink) DecodedBlock := fun (stream, sink) =>
  match DecodedBlock.drain (block, sink) with
  | .error reason (_, sink) => .error reason (stream, sink) []
  | .ok _ (block, sink) => .ok block (stream, sink) []

theorem deliver_eq (block : DecodedBlock) :
    deliver block = drainInto block >>= fun block => onStream (finish block) := by
  funext ⟨stream, sink⟩
  rw [deliver, Op.bind_eq, drainInto]
  cases DecodedBlock.drain (block, sink) with
  | error reason left => rfl
  | ok written left =>
    simp only [onStream]
    cases finish left.1 stream <;> rfl

/-- Draining has to do with the block and the sink only. -/
theorem local_drainInto (block : DecodedBlock) : Op.Local viewWith (drainInto block) := by
  rintro ⟨stream, sink⟩ _ _ _ _
  have hgrows := DecodedBlock.drainBy_grows block.chunkSize 0 block sink
  cases hd : DecodedBlock.drainBy block.chunkSize 0 block sink with
  | error reason left =>
    rw [hd] at hgrows
    obtain ⟨hgrow, error, rfl⟩ := hgrows
    refine .still (.error (.io error)) [] (stream, left.2) hgrow (fun _ h => by cases h) ?_
    rintro ⟨other, _⟩ hrest _
    obtain ⟨hother, rfl⟩ := Prod.mk.inj hrest
    simp only [drainInto, DecodedBlock.drain, hd]
    exact ⟨rfl, rfl, congrArg (·, left.2) hother, rfl⟩
  | ok written left =>
    rw [hd] at hgrows
    refine .still (.ok left.1) [] (stream, left.2) hgrows (fun _ h => by cases h) ?_
    rintro ⟨other, _⟩ hrest _
    obtain ⟨hother, rfl⟩ := Prod.mk.inj hrest
    simp only [drainInto, DecodedBlock.drain, hd]
    exact ⟨rfl, rfl, congrArg (·, left.2) hother, rfl⟩

theorem local_deliver (block : DecodedBlock) : Op.Local viewWith (deliver block) := by
  rw [deliver_eq]
  exact (local_drainInto block).bind fun block => local_onStream (local_finish block)

theorem deliverBlocks_eq : deliverBlocks = onStream next >>= fun found =>
    match found with
    | none => Pure.pure ()
    | some block => deliver block >>= fun _ => deliverBlocks := by
  funext ⟨stream, sink⟩
  rw [Op.bind_eq, onStream]
  cases hnext : next stream with
  | error reason after notes => exact deliverBlocks_error hnext sink
  | ok found after notes =>
    cases found with
    | none =>
      rw [deliverBlocks_ended hnext]
      simp only [Outcome.withState, Pure.pure, Outcome.after, List.append_nil]
    | some block => exact deliverBlocks_begun hnext sink

/-- A block that has been begun leaves fewer bits. -/
theorem spends_begun {stream : StreamDecoder} {block : DecodedBlock}
    (h : (next stream).result = .ok (some block)) :
    (next stream).state.bitsLeft + 48 ≤ stream.bitsLeft := by
  cases hnext : next stream with
  | error reason after notes => rw [hnext] at h; cases h
  | ok found after notes =>
    rw [hnext] at h
    cases h
    exact bitsLeft_next hnext

theorem local_deliverBlocks : Op.Local viewWith deliverBlocks := by
  intro t place bits state hstate
  -- every block costs bits, so on those that are left
  induction hn : state.1.bitsLeft using Nat.strongRecOn generalizing t place bits state with
  | ind n ih =>
    rw [deliverBlocks_eq]
    refine (local_onStream local_next t place bits state hstate).bind hstate ?_
    intro found t' place' bits' hfound hbegun
    cases found with
    | none => exact Op.Local.pure () t' place' bits' _ hbegun
    | some block =>
      refine (local_deliver block t' place' bits' _ hbegun).bind hbegun ?_
      intro report t'' place'' bits'' hreport hdone
      refine ih _ ?_ t'' place'' bits'' _ hdone rfl
      rw [onStream, Outcome.result_withState] at hfound
      have hbegin := spends_begun hfound
      have hspent := (spends_deliver block).of_result hreport
      simp only [onStream, Outcome.state_withState] at hspent ⊢
      omega

/-- Behind the footer nothing is read any more. -/
theorem decided_conclude {t : StreamDecoder × Sink} {place : Nat} {bits : List Bool}
    (hfinished : t.1.isFinished) : Op.Decided viewWith conclude t place bits := by
  obtain ⟨summary, hsummary⟩ := summary?_of_isFinished hfinished
  cases hflush : t.2.flush with
  | ok _ =>
    refine .still (.ok summary) [] t (viewWith.le_refl t) (fun _ h => by cases h) ?_
    rintro ⟨stream, sink⟩ rfl _
    have hstored : stream.summary? = some summary := hsummary
    have hrun : conclude (stream, sink) = .ok summary (stream, sink) [] :=
      conclude_flushed hstored hflush
    rw [hrun]
    exact ⟨rfl, rfl, rfl, rfl⟩
  | error error =>
    refine .still (.error (.io error)) [] t (viewWith.le_refl t) (fun _ h => by cases h) ?_
    rintro ⟨stream, sink⟩ rfl _
    have hrun : conclude (stream, sink) = .error (.io error) (stream, sink) [] :=
      conclude_refused hflush
    rw [hrun]
    exact ⟨rfl, rfl, rfl, rfl⟩

theorem local_takeCurrent : Op.Local view takeCurrent := by
  intro t _ _ _ _
  refine .still (.ok t.current) [] { t with current := none } trivial (fun _ => nofun) ?_
  rintro stream rfl _
  exact ⟨rfl, rfl, rfl, rfl⟩

theorem local_deliverFrom (current : Option DecodedBlock) :
    Op.Local viewWith (deliverFrom current) := by
  cases current with
  | none => exact local_deliverBlocks
  | some block => exact (local_deliver block).bind fun _ => local_deliverBlocks

theorem local_decodeTo : Op.Local viewWith decodeTo := by
  intro t place bits state hstate
  rw [decodeTo_eq]
  refine (local_onStream local_takeCurrent t place bits state hstate).bind hstate ?_
  intro current t' place' bits' _ hbegun
  refine (local_deliverFrom current t' place' bits' _ hbegun).bind hbegun ?_
  intro _ t'' place'' bits'' hresult hafter
  refine decided_conclude ?_
  rw [← hafter.rest]
  exact isFinished_of_deliverFrom rfl hresult

end StreamDecoder

end Bunzip

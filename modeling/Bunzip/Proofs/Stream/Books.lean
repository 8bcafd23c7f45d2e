import Bunzip.Proofs.Block.Begun
import Bunzip.Proofs.Stream.Record
import Bunzip.Proofs.Stream.Safety

/-!
# The books of a stream decoder

A stream decoder keeps books: a report of every block that it has taken back, the checksum folded from
them, the number of their bytes, and the checksum of the footer. They agree with the record that is
kept along the calls: no move upsets the books, so no call does.
-/

namespace Bunzip

namespace StreamDecoder

/-! ## The books -/

/-- A report tells what is recorded of the block. -/
structure Trail.Reported (digit : Nat) (trail : Trail) (report : BlockReport) : Prop where
  /-- All bytes of the block have been handed out. -/
  whole : trail.produced = trail.fresh.drained.1
  crc : report.crc = Crc.ofBytes trail.produced
  stored : ∃ later, BitReader.word trail.behind = .ok report.crc later
  outputLength : report.outputLength = trail.produced.size
  column : 1 ≤ report.columnLength ∧ report.columnLength ≤ digit * 100000

/-- A stage of the block that is recorded. -/
structure Trail.Stage (digit : Nat) (trail : Trail) (block : DecodedBlock) : Prop where
  sound : block.Sound
  drained : trail.fresh.drained = (trail.produced ++ block.drained.1, block.drained.2)
  crc : block.crc = Crc.start.updateBytes trail.produced
  stored : ∃ later, BitReader.word trail.behind = .ok block.stored later
  emitted : block.emitted = trail.produced.size
  column : 1 ≤ block.columnLength ∧ block.columnLength ≤ digit * 100000

/-- The books agree with what has happened. -/
structure Booked (stream : StreamDecoder) (unfinished : List (Trail × DecodedBlock))
    (counted : List Trail) (footer : Option UInt32) : Prop where
  sound : stream.Sound
  limit : stream.bench.limit = stream.digit * 100000
  stages : ∀ pair ∈ unfinished, pair.1.Stage stream.digit pair.2
  reports : List.Forall₂ (Trail.Reported stream.digit) counted stream.reports.toList
  computed : stream.computed = (stream.reports.toList.map BlockReport.crc).foldl Crc.foldStream 0
  outputLength : stream.outputLength = (stream.reports.toList.map BlockReport.outputLength).sum
  stored : stream.stored = footer

/-! ### Blocks -/

theorem Trail.Stage.handing {digit : Nat} {trail : Trail} {block : DecodedBlock}
    (h : trail.Stage digit block) (room : Nat) :
    (trail.handing (block.read room).1).Stage digit (block.read room).2 where
  sound := h.sound.read room
  drained := by
    rw [Trail.handing, h.drained, block.drained_read room, ByteArray.append_assoc]
  crc := by
    rw [Trail.handing, Crc.updateBytes_append, ← h.crc]
    rfl
  stored := h.stored
  emitted := by
    rw [Trail.handing, ByteArray.size_append, ← h.emitted]
    rfl
  column := h.column

theorem atEnd_of_isExhausted {block : DecodedBlock} (h : block.isExhausted = true) :
    block.rest.AtEnd := by
  rw [DecodedBlock.isExhausted, Unrolled.isExhausted, Bool.and_eq_true, beq_iff_eq, beq_iff_eq] at h
  refine ⟨h.1, ?_⟩
  rw [Walk.next, if_pos h.2]

/-- A block that is counted is reported as it was recorded. -/
theorem Trail.Stage.reported {digit : Nat} {trail : Trail} {block : DecodedBlock}
    (h : trail.Stage digit block) (hexhausted : block.isExhausted = true)
    (hagrees : block.crc.value = block.stored) : trail.Reported digit block.report where
  whole := by
    rw [h.drained, DecodedBlock.drained_of_atEnd (atEnd_of_isExhausted hexhausted),
      ByteArray.append_empty]
  crc := by
    rw [Crc.ofBytes, ← h.crc]
    rfl
  stored := by
    obtain ⟨later, hword⟩ := h.stored
    exact ⟨later, by rw [DecodedBlock.report, hagrees]; exact hword⟩
  outputLength := h.emitted
  column := h.column

/-! ### Moves -/

theorem keeps_limit_onBench {α : Type} {op : Op BlockDecoder.Bench α}
    (h : Op.Keeps BlockDecoder.Bench.limit op) :
    Op.Keeps (fun stream : StreamDecoder => stream.bench.limit) (onBench op) := by
  intro stream
  rw [onBench_eq, Outcome.state_withState]
  exact h stream.bench

theorem keeps_limit_readFooter :
    Op.Keeps (fun stream : StreamDecoder => stream.bench.limit) readFooter := by
  refine (keeps_limit_onBench (BlockDecoder.keeps_limit_onReader _)).bind fun stored =>
    (Op.Keeps.modify (by intro _; rfl)).bind fun _ => Op.Keeps.get.bind fun stream =>
      (Op.Keeps.note _).bind fun _ => ?_
  split
  · exact .pure _
  · split
    · exact .fail _
    · exact .note _

theorem keeps_limit_next :
    Op.Keeps (fun stream : StreamDecoder => stream.bench.limit) next := by
  have hreading : ∀ {α : Type} (x : Read α),
      Op.Keeps (fun stream : StreamDecoder => stream.bench.limit) (reading x) :=
    fun x => keeps_limit_onBench (BlockDecoder.keeps_limit_onReader _)
  have hmarked : Op.Keeps (fun stream : StreamDecoder => stream.bench.limit) readMarked := by
    refine (hreading _).bind fun magic => ?_
    split
    · exact Op.Keeps.get.bind fun _ => (Op.Keeps.note _).bind fun _ =>
        (keeps_limit_onBench (BlockDecoder.keeps_limit_readBlock _)).bind fun _ => .pure _
    · split
      · exact keeps_limit_readFooter.bind fun _ => .pure _
      · exact hreading _
  intro stream
  rw [next]
  split
  · rfl
  · exact hmarked stream

/-- A block that has just been begun is at its first stage. -/
theorem stage_of_begunBy {stream : StreamDecoder} (hsound : stream.Sound)
    (hlimit : stream.bench.limit = stream.digit * 100000) {trail : Trail} {block : DecodedBlock}
    (hbegun : begunBy stream = some (trail, block)) : trail.Stage stream.digit block := by
  by_cases hsome : ∃ found, (next stream).result = .ok (some found)
  · obtain ⟨found, hfound⟩ := hsome
    have hnext := Outcome.eq_ok_of_result hfound
    obtain ⟨behind, hmarker, hfresh, bench, more, hread⟩ := begunBy_of_some hnext
    cases hbegun.symm.trans hfresh
    obtain ⟨hfirst, hsize⟩ := BlockDecoder.begun_of_readBlock hread
    refine ⟨(safe_next.of_ok hsound hnext).2 block rfl, ?_, hfirst.crc, hfirst.stored, hfirst.emitted,
      hfirst.column, ?_⟩
    · rw [ByteArray.empty_append]
    · rw [← hlimit]
      exact hsize (hsound.behind hmarker)
  · rw [begunBy_of_none fun found hfound => hsome ⟨found, hfound⟩] at hbegun
    cases hbegun

/-- Asking for the next block leaves the books, except that the footer is entered when it is met. -/
theorem books_of_next (stream : StreamDecoder) :
    (next stream).state.digit = stream.digit ∧ (next stream).state.reports = stream.reports
      ∧ (next stream).state.computed = stream.computed
      ∧ (next stream).state.outputLength = stream.outputLength
      ∧ (next stream).state.stored = stream.stored.or (footerAhead stream.bench.2) := by
  have hasked := asked_next stream
  generalize next stream = outcome at hasked
  cases hasked with
  | finished hfinished =>
    obtain ⟨stored, hstored⟩ := Option.isSome_iff_exists.mp hfinished
    exact ⟨rfl, rfl, rfl, rfl, by rw [hstored]; exact hstored⟩
  | begun _ hmarker =>
    exact ⟨rfl, rfl, rfl, rfl, by rw [footerAhead_of_block hmarker, Option.or_none]; rfl⟩
  | ended hopen hahead => exact ⟨rfl, rfl, rfl, rfl, by rw [hopen, hahead]; rfl⟩
  | refused hopen hahead => exact ⟨rfl, rfl, rfl, rfl, by rw [hopen, hahead]; rfl⟩
  | stopped _ hahead => exact ⟨rfl, rfl, rfl, rfl, by rw [hahead, Option.or_none]; rfl⟩

variable {stream after : StreamDecoder} {unfinished : List (Trail × DecodedBlock)}
  {counted : List Trail} {footer : Option UInt32} {trail : Trail} {block : DecodedBlock}

theorem Booked.asked (h : Booked stream unfinished counted footer) :
    Booked (next stream).state ((begunBy stream).toList ++ unfinished) counted
      (footer.or (footerAhead stream.bench.2)) := by
  obtain ⟨hdigit, hreports, hcomputed, houtput, hstored⟩ := books_of_next stream
  refine ⟨safe_next.state h.sound, ?_, ?_, ?_, ?_, ?_, ?_⟩
  · rw [hdigit, ← h.limit]
    exact keeps_limit_next stream
  · intro pair hmem
    rw [hdigit]
    rcases List.mem_append.mp hmem with hnew | hold
    · exact stage_of_begunBy h.sound h.limit (Option.mem_toList.mp hnew)
    · exact h.stages pair hold
  · rw [hdigit, hreports]
    exact h.reports
  · rw [hreports, hcomputed]
    exact h.computed
  · rw [hreports, houtput]
    exact h.outputLength
  · rw [hstored, h.stored]

theorem Booked.handed (h : Booked stream ((trail, block) :: unfinished) counted footer)
    (room : Nat) :
    Booked stream ((trail.handing (block.read room).1, (block.read room).2) :: unfinished)
      counted footer := by
  obtain ⟨hstage, hothers⟩ := List.forall_mem_cons.mp h.stages
  exact { h with stages := List.forall_mem_cons.mpr ⟨hstage.handing room, hothers⟩ }

/-- The order of unfinished blocks does not matter, and a block may be given up at any time. -/
theorem Booked.mono (h : Booked stream unfinished counted footer)
    {fewer : List (Trail × DecodedBlock)} (hsub : fewer ⊆ unfinished) :
    Booked stream fewer counted footer :=
  { h with stages := fun pair hmem => h.stages pair (hsub hmem) }

/-- A block that is taken back is entered. -/
theorem Booked.entered (h : Booked stream ((trail, block) :: unfinished) counted footer)
    {report : BlockReport} {notes : List Note}
    (hfinish : finish block stream = .ok report after notes) :
    Booked after unfinished (counted ++ [trail]) footer := by
  have htaken := takenBack_finish block stream
  rw [hfinish] at htaken
  cases htaken with
  | counted hexhausted hagrees hlimit =>
    obtain ⟨hstage, hothers⟩ := List.forall_mem_cons.mp h.stages
    have hreported := hstage.reported hexhausted hagrees
    refine ⟨⟨⟨?_, h.sound.bench.reader⟩, h.sound.current⟩, ?_, hothers, ?_, ?_, ?_, h.stored⟩
    · rw [hlimit]
      exact h.sound.bench.maxLength
    · exact hlimit.trans h.limit
    · rw [Array.toList_push]
      exact List.rel_append h.reports (.cons hreported .nil)
    · rw [Array.toList_push, List.map_append, List.foldl_append, ← h.computed]
      simp only [List.map_cons, List.map_nil, List.foldl_cons, List.foldl_nil, DecodedBlock.report,
        hagrees]
    · rw [Array.toList_push, List.map_append, List.sum_append, ← h.outputLength]
      simp only [List.map_cons, List.map_nil, List.sum_cons, List.sum_nil, DecodedBlock.report,
        Nat.add_zero]

/-- A block that is refused leaves the decoder as it was. -/
theorem eq_of_finish_error {reason : DecodeError} {notes : List Note}
    (hfinish : finish block stream = .error reason after notes) : after = stream := by
  have htaken := takenBack_finish block stream
  rw [hfinish] at htaken
  cases htaken with
  | refused => rfl

/-- A block that is on record may be put by, to be read piece by piece. -/
theorem Booked.putBy (h : Booked stream unfinished counted footer) {current : Option DecodedBlock}
    (hcurrent : ∀ block, current = some block → ∃ trail, (trail, block) ∈ unfinished) :
    Booked { stream with current } unfinished counted footer := by
  refine { h with sound := ⟨h.sound.bench, fun block hblock => ?_⟩ }
  obtain ⟨trail, hmem⟩ := hcurrent block hblock
  exact (h.stages _ hmem).sound

/-- The books of a state of work, with other blocks that are not worked on. -/
def Working.Booked (working : Working) (others : List (Trail × DecodedBlock)) : Prop :=
  StreamDecoder.Booked working.stream (working.work.toList ++ others) working.counted working.footer

/-- **No move upsets the books.** -/
theorem Moves.booked {first last : Working} {out : ByteArray} (h : Moves first out last)
    {others : List (Trail × DecodedBlock)} (hfirst : first.Booked others) : last.Booked others := by
  induction h with
  | none => exact hfirst
  | asked _ ih => exact ih.asked
  | handed room _ _ ih => exact ih.handed room
  | counted _ hfinish ih => exact ih.entered hfinish
  | refused _ hfinish ih =>
    rw [eq_of_finish_error hfinish]
    exact ih.mono (List.subset_cons_self _ _)
  | dropped _ ih => exact ih.mono (List.subset_cons_self _ _)

/-- Blocks are numbered in the order in which they are taken back. -/
def Numbered (stream : StreamDecoder) (work : Option DecodedBlock) : Prop :=
  (∀ (i : Nat) (report : BlockReport), stream.reports[i]? = some report → report.index = i + 1)
    ∧ ∀ block, work = some block → block.index = stream.reports.size + 1

theorem keptUp_numbered : KeptUp Numbered fun _ stream => Numbered stream none where
  asked {stream} h := by
    have hasked := asked_next stream
    generalize next stream = outcome at hasked
    cases hasked with
    | finished => exact h
    | begun _ _ hread =>
      refine ⟨h.1, fun block hblock => ?_⟩
      cases hblock
      exact (BlockDecoder.begun_of_readBlock hread).1.index
    | ended => exact ⟨h.1, fun _ => nofun⟩
    | refused => exact ⟨h.1, fun _ => nofun⟩
    | stopped => exact ⟨h.1, fun _ => nofun⟩
  handed {stream block} room h := by
    have hindex := h.2 block rfl
    refine ⟨h.1, fun other hother => ?_⟩
    cases hother
    exact hindex
  takenBack {stream block} h := by
    have htaken := takenBack_finish block stream
    generalize finish block stream = outcome at htaken
    cases htaken with
    | counted =>
      refine ⟨fun i report hreport => ?_, fun _ => nofun⟩
      rw [Array.getElem?_push] at hreport
      split at hreport
      · next hlast =>
        cases hreport
        rw [hlast]
        exact h.2 block rfl
      · exact h.1 i report hreport
    | refused => exact ⟨h.1, fun _ => nofun⟩
  sinkFailed _ h := ⟨h.1, fun _ => nofun⟩
  letGo h := ⟨h.1, fun _ => nofun⟩

end StreamDecoder

namespace Session

open StreamDecoder

/-- The books agree with the record, which has the blocks that the session has. -/
structure Record.Booked (record : Record) (session : Session) : Prop where
  fits : record.Fits session
  books : StreamDecoder.Booked session.stream (record.current.toList ++ record.held.toList)
    record.counted record.footer

variable {record last : Record} {session : Session}

/-- A block that is read piece by piece can be found in the record. -/
theorem Record.Fits.exists_trail (h : record.Fits session) {block : DecodedBlock}
    (hcurrent : session.stream.current = some block) (others : List (Trail × DecodedBlock)) :
    ∃ trail, (trail, block) ∈ record.current.toList ++ others := by
  obtain ⟨⟨trail, _⟩, hpair, rfl⟩ := Option.map_eq_some_iff.mp (h.current.trans hcurrent)
  exact ⟨trail, List.mem_append_left _ (Option.mem_toList.mpr hpair)⟩

/-- **No call upsets the books**, be it allowed or not. -/
theorem Record.Booked.entered (h : record.Booked session) {call : Call}
    (hentered : Entered call session record last) : last.Booked (perform call session).2 := by
  obtain ⟨hfits, out, _, hmoved⟩ := hentered
  refine ⟨hfits, ?_⟩
  cases hsubject : call.subject with
  | current =>
    rw [hsubject] at hmoved
    obtain ⟨hmoves, hheld⟩ := hmoved
    have hfirst : (record.onCurrent session.stream).Booked record.held.toList :=
      h.books.putBy fun _ => nofun
    rw [hheld]
    exact (hmoves.booked hfirst).putBy fun block hblock => hfits.exists_trail hblock _
  | next =>
    rw [hsubject] at hmoved
    obtain ⟨found, hmoves, hcurrent, hheld⟩ := hmoved
    have hfirst : Working.Booked ⟨session.stream, none, record.counted, record.footer⟩
        (record.current.toList ++ record.held.toList) := h.books
    refine (hmoves.booked hfirst).mono ?_
    -- if a block was held and another one has been found, the first is lost
    rw [hcurrent, hheld]
    cases found with
    | none => exact List.Subset.refl _
    | some pair =>
      refine List.append_subset.mpr ⟨?_, List.subset_append_left _ _⟩
      exact List.subset_append_of_subset_right _ (List.subset_append_left _ _)
  | held =>
    rw [hsubject] at hmoved
    obtain ⟨hmoves, hcurrent⟩ := hmoved
    have hfirst : (record.onHeld session.stream).Booked record.current.toList :=
      h.books.mono List.perm_append_comm.subset
    rw [hcurrent]
    exact (hmoves.booked hfirst).mono List.perm_append_comm.subset

theorem Record.Booked.recorded (h : record.Booked session) {calls : List Call}
    (hrecorded : Recorded calls session record last) : last.Booked (after calls session) := by
  induction calls generalizing session record with
  | nil =>
    cases hrecorded
    exact h
  | cons call calls ih =>
    obtain ⟨middle, hentered, hrest⟩ := hrecorded
    exact ih (h.entered hentered) hrest

/-- The books of a stream that has just been started are empty. -/
theorem booked_opening {source : Source} {fresh : StreamDecoder} {notes : List Note}
    (hstart : start source = .ok fresh () notes) (strict : Bool) :
    Record.blank.Booked (opening strict fresh) := by
  have hsafe := safe_start source
  rw [hstart] at hsafe
  obtain ⟨digit, reader, _, rfl⟩ := opened_of_start hstart
  exact ⟨⟨rfl, rfl⟩, ⟨hsafe.bench, hsafe.current⟩, rfl, fun _ => nofun, .nil, rfl, rfl, rfl⟩

theorem numbered_opening {source : Source} {fresh : StreamDecoder} {notes : List Note}
    (hstart : start source = .ok fresh () notes) (strict : Bool) :
    (opening strict fresh).Keeps Numbered := by
  obtain ⟨digit, reader, _, rfl⟩ := opened_of_start hstart
  have hnumbered : Numbered (opened strict digit reader) none := ⟨fun _ _ => nofun, fun _ => nofun⟩
  exact .of_current_none rfl hnumbered

/--
The books are right in every state that a session reaches. All calls go on record; and whatever record
is kept of them, the reports tell of the blocks that were counted, in order: each of all the bytes that
its block has produced in these calls, of their number and of their checksum, which is also the one
read behind the marker of the block, and of a column that is not empty and fits the digit of the
stream. There is a summary just when a footer has been met, and it has the checksum of that footer.
The number of bytes is the sum over the reports, and the checksum is folded from theirs. A block that
is refused leaves the decoder as it was. If moreover the next block was only asked for when none was
outstanding, then the reports are numbered from one on.
-/
theorem books_right {source : Source} {fresh : StreamDecoder} {notes : List Note}
    (hstart : start source = .ok fresh () notes) (strict : Bool) (calls : List Call) :
    let stream := (after calls (opening strict fresh)).stream
    (∃ record, Recorded calls (opening strict fresh) .blank record)
      ∧ (∀ record, Recorded calls (opening strict fresh) .blank record →
        List.Forall₂ (Trail.Reported stream.digit) record.counted stream.reports.toList
          ∧ stream.summary?.map StreamSummary.stored = record.footer)
      ∧ stream.outputLength = (stream.reports.toList.map BlockReport.outputLength).sum
      ∧ stream.computed = (stream.reports.toList.map BlockReport.crc).foldl Crc.foldStream 0
      ∧ (∀ block reason last more,
        StreamDecoder.finish block stream = .error reason last more → last = stream)
      ∧ (Disciplined calls (opening strict fresh) →
        ∀ (i : Nat) (report : BlockReport), stream.reports[i]? = some report →
          report.index = i + 1) := by
  intro stream
  have hopening := booked_opening hstart strict
  obtain ⟨record, hrecorded⟩ := exists_recorded hopening.fits calls
  have hbooked := (hopening.recorded hrecorded).books
  refine ⟨⟨record, hrecorded⟩, fun other hother => ?_, hbooked.outputLength, hbooked.computed,
    fun block reason last more => eq_of_finish_error, fun hdisciplined => ?_⟩
  · have hbooks := (hopening.recorded hother).books
    refine ⟨hbooks.reports, ?_⟩
    rw [← hbooks.stored, summary?]
    cases stream.stored <;> rfl
  · exact (keeps_after keptUp_numbered id (numbered_opening hstart strict) hdisciplined).holds.1

/-- A block is read in part first and then delivered. There is one report, and one trail behind it. -/
theorem books_right_abab :
    start (.ofBytes ababStream) = .ok ababStart () [.signature 9]
    ∧ Disciplined [.read 3, .decodeTo .unbounded] (opening true ababStart)
    ∧ ∃ record trail report,
      Recorded [.read 3, .decodeTo .unbounded] (opening true ababStart) .blank record
      ∧ record.counted = [trail] ∧ record.footer = some 0x8738E0F6
      ∧ (after [.read 3, .decodeTo .unbounded] (opening true ababStart)).stream.reports.toList
        = [report]
      ∧ report.index = 1 ∧ report.outputLength = 4 ∧ trail.produced.size = 4
      ∧ report.crc = 0x8738E0F6 ∧ Crc.ofBytes trail.produced = 0x8738E0F6 := by
  have hdisciplined : Disciplined [.read 3, .decodeTo .unbounded] (opening true ababStart) :=
    ⟨.inr rfl, rfl, trivial⟩
  obtain ⟨⟨record, hrecorded⟩, hbooks, _, _, _, hnumbers⟩ :=
    books_right start_abab true [.read 3, .decodeTo .unbounded]
  obtain ⟨hreports, hfooter⟩ := hbooks record hrecorded
  obtain ⟨hreport, hsummary⟩ : (after [.read 3, .decodeTo .unbounded]
        (opening true ababStart)).stream.reports = #[⟨1, 0x8738E0F6, 4, 4⟩]
      ∧ (after [.read 3, .decodeTo .unbounded]
        (opening true ababStart)).stream.summary?.map StreamSummary.stored = some 0x8738E0F6 := by
    decide +kernel
  have hindex := hnumbers hdisciplined 0 ⟨1, 0x8738E0F6, 4, 4⟩ (by rw [hreport]; rfl)
  rw [hreport] at hreports ⊢
  generalize hcounted : record.counted = counted at hreports
  cases hreports with
  | @cons trail _ _ _ htrail hnone =>
    cases hnone
    exact ⟨start_abab, hdisciplined, record, trail, _, hrecorded, hcounted,
      hfooter.symm.trans hsummary, rfl, hindex, rfl, htrail.outputLength.symm, rfl, htrail.crc.symm⟩

end Session

end Bunzip

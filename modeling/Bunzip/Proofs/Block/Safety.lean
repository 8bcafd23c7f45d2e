import Bunzip.Block.Spending
import Bunzip.Proofs.Block.Expansion
import Bunzip.Proofs.Codes.Safety
import Bunzip.Proofs.Rotation.Links

/-!
# Reading and draining a block is safe

The links of a column lead from row to row, so a walk along them only ends when all its steps are
made. A block that has nothing more to hand out is therefore one that has been handed out in full.

How long a column may be does not change from block to block.
-/

namespace Bunzip

/-! ## Walks that stay among the rows -/

/-- Every link leads to a row. -/
structure Walk.Closed (walk : Walk) : Prop where
  links : ∀ (p : Nat) (link : UInt32), walk.links.entries[p]? = some link →
    RotationLinks.row link < walk.links.size
  link : 0 < walk.remaining → RotationLinks.row walk.link < walk.links.size

theorem Walk.Closed.next {walk : Walk} (h : walk.Closed) (hleft : 0 < walk.remaining) :
    ∃ byte after, walk.next = some (byte, after) ∧ after.Closed := by
  obtain ⟨link, hget⟩ : ∃ link, walk.links.entries[RotationLinks.row walk.link]? = some link :=
    ⟨_, Array.getElem?_eq_getElem (h.link hleft)⟩
  have hnext : walk.next = some (RotationLinks.byte walk.link,
      { walk with link, remaining := walk.remaining - 1 }) := by
    rw [Walk.next, if_neg (by omega)]
    simp only [hget]
  exact ⟨_, _, hnext, ⟨h.links, fun _ => h.links _ _ hget⟩⟩

theorem Walk.Closed.of_next {walk after : Walk} {byte : UInt8} (h : walk.Closed)
    (hnext : walk.next = some (byte, after)) : after.Closed := by
  have hleft := Walk.remaining_next hnext
  obtain ⟨byte', after', hsome, hclosed⟩ := h.next (by omega)
  rw [hnext] at hsome
  cases hsome
  exact hclosed

theorem Walk.Closed.remaining {walk : Walk} (h : walk.Closed) (hnone : walk.next = none) :
    walk.remaining = 0 := by
  rcases Nat.eq_zero_or_pos walk.remaining with hzero | hleft
  · exact hzero
  · obtain ⟨byte, after, hsome, _⟩ := h.next hleft
    rw [hnone] at hsome
    cases hsome

/-- The rows that the links of a column lead to are rows of the column. -/
theorem RotationLinks.row_lt_of_ofColumn {column : List UInt8} (short : column.length < rowLimit)
    {p : Nat} {link : UInt32} (h : (ofColumn column).entries[p]? = some link) :
    row link < (ofColumn column).size := by
  rw [getElem?_ofColumn, Option.map_eq_some_iff] at h
  obtain ⟨i, hi, rfl⟩ := h
  have hlt : i < column.length := mem_stableRows.mp (List.mem_of_getElem? hi)
  rw [row_pack _ (Nat.lt_trans hlt short), size_ofColumn]
  exact hlt

/-- A walk along the links of a column can start in each of its rows. -/
theorem Walk.start?_ofColumn {column : List UInt8} (short : column.length < RotationLinks.rowLimit)
    {origin : Nat} (horigin : origin < column.length) :
    ∃ walk, Walk.start? (RotationLinks.ofColumn column) origin = some walk ∧ walk.Closed := by
  have hsize : (RotationLinks.ofColumn column).size = column.length :=
    RotationLinks.size_ofColumn column
  have hinside : origin < (RotationLinks.ofColumn column).entries.size := by
    rw [← RotationLinks.size, hsize]
    exact horigin
  have hget := Array.getElem?_eq_getElem hinside
  have hstart : Walk.start? (RotationLinks.ofColumn column) origin
      = some ⟨RotationLinks.ofColumn column, (RotationLinks.ofColumn column).entries[origin],
          (RotationLinks.ofColumn column).size⟩ := by
    rw [Walk.start?, if_neg (by omega)]
    simp only [hget]
  exact ⟨_, hstart, ⟨fun p link => RotationLinks.row_lt_of_ofColumn short,
    fun _ => RotationLinks.row_lt_of_ofColumn short hget⟩⟩

/-! ## Handing out -/

theorem Unrolled.closed_fill {walk : Walk} (h : walk.Closed) (runs : RunLength) (owed : Nat)
    (copied : UInt8) (room : Nat) (out : ByteArray) :
    (fill walk runs owed copied room out).2.walk.Closed := by
  fun_induction fill walk runs owed copied room out with
  | case1 => exact h
  | case2 walk runs owed copied room out more waiting n ih => exact ih h
  | case3 => exact h
  | case4 walk runs owed copied room out more none byte after step literal runs' pushed ih =>
    exact ih (h.of_next step)
  | case5 walk runs owed copied room out more none byte after step count repeated runs' pushed ih =>
    exact ih (h.of_next step)

namespace DecodedBlock

/-- A block whose walk stays among the rows. -/
def Sound (block : DecodedBlock) : Prop := block.rest.walk.Closed

theorem Sound.read {block : DecodedBlock} (h : block.Sound) (room : Nat) :
    (block.read room).2.Sound :=
  Unrolled.closed_fill h _ _ _ _ _

/-- What has nothing more to hand out has been handed out in full. -/
theorem Sound.isExhausted {block : DecodedBlock} (h : block.Sound) (hend : block.rest.AtEnd) :
    block.isExhausted = true := by
  have hleft := Walk.Closed.remaining h hend.2
  simp [DecodedBlock.isExhausted, Unrolled.isExhausted, hend.1, hleft]

/-- Draining fails only as the sink does; once it succeeds, nothing is left. -/
theorem Sound.drainBy {chunk : Nat} (hchunk : 0 < chunk) (written : Nat) {block : DecodedBlock}
    (h : block.Sound) (sink : Sink) :
    match drainBy chunk written block sink with
    | .ok _ (block, _) => block.Sound ∧ block.rest.AtEnd
    | .error reason (block, _) => block.Sound ∧ reason.Blameless := by
  induction hn : block.rest.bound using Nat.strongRecOn generalizing written block sink with
  | ind n ih =>
    by_cases hsome : 0 < (block.read chunk).1.size
    · rcases hwrite : sink.write (block.read chunk).1 with ⟨_ | _, sink'⟩
      · rw [drainBy_refused written hsome hwrite]
        exact ⟨h.read chunk, fun _ => nofun⟩
      · have hless : (block.read chunk).2.rest.bound < n := by
          have hbound := block.read_bound chunk
          omega
        rw [drainBy_some hsome hwrite]
        exact ih _ hless _ (h.read chunk) sink' rfl
    · have hnone : (block.read chunk).1.size = 0 := by omega
      rw [drainBy_none written sink hnone]
      exact ⟨h.read chunk, atEnd_of_read_empty hchunk hnone⟩

theorem Sound.drain {block : DecodedBlock} (h : block.Sound) (sink : Sink) :
    match drain (block, sink) with
    | .ok _ (block, _) => block.Sound ∧ block.rest.AtEnd
    | .error reason (block, _) => block.Sound ∧ reason.Blameless :=
  Sound.drainBy (Nat.le_max_left 1 _ : 0 < block.chunkSize) 0 h sink

end DecodedBlock

namespace BlockDecoder

/-- The longest column allowed on a bench. -/
def Bench.limit (bench : Bench) : Nat := bench.1.maxLength

/-! ## The limit stays -/

theorem keeps_limit_onReader {α : Type} (op : Op BitReader α) :
    Op.Keeps Bench.limit (onReader op) := by
  intro bench
  rw [onReader, Outcome.state_withState]
  rfl

theorem keeps_limit_onDecoder {α : Type} {op : Op BlockDecoder α} (h : Op.Keeps maxLength op) :
    Op.Keeps Bench.limit (onDecoder op) := by
  intro bench
  rw [onDecoder, Outcome.state_withState]
  exact h bench.1

theorem keeps_limit_enter (stage : Stage) : Op.Keeps Bench.limit (onDecoder (enter stage)) :=
  keeps_limit_onDecoder fun _ => rfl

theorem keeps_limit_readHeader (index : Nat) : Op.Keeps Bench.limit (readHeader index) := by
  refine (keeps_limit_onDecoder fun _ => rfl).bind fun _ => (keeps_limit_enter _).bind fun _ =>
    (keeps_limit_onReader _).bind fun stored => (keeps_limit_onReader _).bind fun randomized => ?_
  split
  · exact .fail _
  · exact (keeps_limit_onReader _).bind fun origin => (Op.Keeps.get.bind fun _ => .pure _).bind
      fun _ => (Op.Keeps.note _).bind fun _ => .pure _

theorem keeps_limit_onColumn {α : Type} (op : Op (Expansion × BitReader) α) :
    Op.Keeps Bench.limit (onColumn op) := by
  intro bench
  rw [onColumn, Outcome.state_withState]
  rfl

theorem keeps_limit_expand (used : Array UInt8) (codes : GroupCodes) :
    Op.Keeps Bench.limit (expand used codes) :=
  (keeps_limit_onDecoder fun _ => rfl).bind fun _ => Op.Keeps.get.bind fun _ =>
    (keeps_limit_onColumn _).bind fun _ => Op.Keeps.get.bind fun _ => .pure _

theorem keeps_limit_readColumn (index : Nat) : Op.Keeps Bench.limit (readColumn index) :=
  (keeps_limit_enter _).bind fun _ => (keeps_limit_onReader _).bind fun _ =>
    (Op.Keeps.note _).bind fun _ => (keeps_limit_enter _).bind fun _ =>
      (keeps_limit_onReader _).bind fun _ => (keeps_limit_enter _).bind fun _ =>
        (keeps_limit_expand _ _).bind fun _ => (Op.Keeps.note _).bind fun _ => .pure _

theorem keeps_limit_startWalk (e : Expansion) (origin : Nat) :
    Op.Keeps Bench.limit (startWalk e origin) := by
  refine (keeps_limit_onDecoder fun _ => rfl).bind fun used => ?_
  split
  · exact .fail _
  · split
    · exact keeps_limit_onReader _
    · exact .pure _

theorem keeps_limit_readBlock (index : Nat) : Op.Keeps Bench.limit (readBlock index) := by
  refine (keeps_limit_readHeader index).bind fun ⟨stored, origin⟩ =>
    (keeps_limit_readColumn index).bind fun e => ?_
  simp only
  split
  · exact keeps_limit_onReader _
  · exact (keeps_limit_enter _).bind fun _ => (keeps_limit_startWalk e origin).bind fun _ =>
      (keeps_limit_enter _).bind fun _ => .pure _

/-- The storage that is taken back does not change the longest column allowed. -/
theorem keeps_maxLength_recycle (links : RotationLinks) : Op.Keeps maxLength (recycle links) := by
  refine (Op.Keeps.modify fun decoder => ?_).bind fun _ => fun _ => rfl
  split <;> rfl

/-! ## Reading -/

/-- A decoder as the digit of a stream sets it up, over a reader in order. -/
structure Bench.Sound (bench : Bench) : Prop where
  maxLength : bench.1.maxLength ≤ 900000
  reader : bench.2.Sound

theorem safe_onReader {α : Type} {op : Op BitReader α} {post : α → Prop}
    (h : Op.Safe BitReader.Sound op post) : Op.Safe Bench.Sound (onReader op) post := by
  intro bench hbench
  have safe := h bench.2 hbench.reader
  simp only [onReader]
  cases hr : op bench.2 with
  | ok a after notes => rw [hr] at safe; exact ⟨⟨hbench.maxLength, safe.1⟩, safe.2⟩
  | error reason after notes => rw [hr] at safe; exact ⟨⟨hbench.maxLength, safe.1⟩, safe.2⟩

theorem safe_reading {α : Type} {x : Read α} {post : α → Prop} (h : x.Safe post) :
    Op.Safe Bench.Sound (reading x) post := safe_onReader h.op

theorem safe_onDecoder {α : Type} {op : Op BlockDecoder α} {post : α → Prop}
    (h : Op.Safe (fun decoder => decoder.maxLength ≤ 900000) op post) :
    Op.Safe Bench.Sound (onDecoder op) post := by
  intro bench hbench
  have safe := h bench.1 hbench.maxLength
  simp only [onDecoder]
  cases hr : op bench.1 with
  | ok a after notes => rw [hr] at safe; exact ⟨⟨safe.1, hbench.reader⟩, safe.2⟩
  | error reason after notes => rw [hr] at safe; exact ⟨⟨safe.1, hbench.reader⟩, safe.2⟩

theorem safe_enter (stage : Stage) :
    Op.Safe Bench.Sound (onDecoder (enter stage)) fun _ => True :=
  safe_onDecoder fun _ h => ⟨h, trivial⟩

theorem safe_recycle (links : RotationLinks) :
    Op.Safe (fun decoder => decoder.maxLength ≤ 900000) (recycle links) fun _ => True := by
  refine (Op.Safe.modify fun decoder h => ?_).bind fun _ _ => fun _ h => ⟨h, trivial⟩
  split <;> exact h

/-! ### Columns -/

/-- A column within its limit beside a reader in order. -/
def Expanding (limit used : Nat) (state : Expansion × BitReader) : Prop :=
  state.1.Sound limit used ∧ state.2.Sound

theorem safe_beside {α : Type} {x : Read α} {post : α → Prop} (h : x.Safe post) (limit used : Nat) :
    Op.Safe (Expanding limit used) (Op.read (beside x)) post := by
  rintro ⟨e, reader⟩ ⟨he, hreader⟩
  have safe := h reader hreader
  simp only [Op.read, beside]
  cases hr : x reader with
  | ok a after => rw [hr] at safe; exact ⟨⟨he, safe.1⟩, safe.2⟩
  | error reason after => rw [hr] at safe; exact ⟨⟨he, safe.1⟩, safe.2⟩

theorem safe_takeIn {limit symbol : Nat} {used : Array UInt8} (hlimit : limit < 2 ^ 24)
    (hused : 0 < used.size) (hsymbol : symbol < used.size + 2) :
    Op.Safe (Expanding limit used.size) (Op.read (takeIn limit used symbol)) fun _ => True := by
  rintro ⟨e, reader⟩ ⟨he, hreader⟩
  have hpush := he.push hlimit hused hsymbol
  simp only [Op.read, takeIn]
  cases hp : Expansion.push limit used symbol e with
  | ok done after => rw [hp] at hpush; exact ⟨⟨hpush, hreader⟩, trivial⟩
  | error halt after =>
    rw [hp] at hpush
    obtain ⟨rfl, hafter⟩ := hpush
    refine ⟨⟨hafter, hreader⟩, ?_⟩
    rintro _ ⟨⟩

theorem safe_expandFrom {limit : Nat} {used : Array UInt8} {codes : GroupCodes}
    (hlimit : limit < 2 ^ 24) (hused : 0 < used.size) (hcodes : codes.Sound (used.size + 2)) :
    Op.Safe (Expanding limit used.size) (Op.read (expandFrom limit used codes)) fun _ => True := by
  fun_induction expandFrom limit used codes with
  | case1 => exact safe_beside (.corrupt _) limit used.size
  | case2 codes after turn ih =>
    obtain ⟨hafter, hcurrent⟩ := hcodes.advance? turn
    rw [Op.read_bind]
    refine (safe_beside (hafter.decode hcurrent) limit used.size).bind fun symbol hsymbol => ?_
    rw [Op.read_bind]
    refine (safe_takeIn hlimit hused hsymbol).bind fun _ _ => ?_
    split
    · exact .pure trivial
    · exact ih hafter

/-- A column is expanded from nothing, whatever has become of the last one. -/
theorem expand_eq (used : Array UInt8) (codes : GroupCodes) (decoder : BlockDecoder)
    (reader : BitReader) :
    expand used codes (decoder, reader)
      = match expandFrom decoder.maxLength used codes (.start, reader) with
        | .ok _ (e, reader) => .ok (.resume e.column e.counts)
            ({ decoder with column := e.column, counts := e.counts }, reader) []
        | .error reason (e, reader) => .error reason
            ({ decoder with column := e.column, counts := e.counts }, reader) [] := by
  have hcleared : ∀ limit, onColumn (Op.read (expandFrom limit used codes))
      ({ decoder with column := ByteArray.empty, counts := .empty }, reader)
        = (Op.read (expandFrom limit used codes) (.start, reader)).withState fun state =>
          ({ decoder with column := state.1.column, counts := state.1.counts }, state.2) :=
    fun _ => rfl
  rw [expand, Op.bind_eq]
  simp only [onDecoder, clear, Op.modify, Op.get, Outcome.withState, Op.bind_eq, hcleared, Op.read]
  cases expandFrom decoder.maxLength used codes (.start, reader) <;> rfl

/-- A column that has been expanded is within its limit, and counted. -/
theorem safe_expand {used : Array UInt8} {codes : GroupCodes} (hused : 0 < used.size)
    (hfew : used.size ≤ 256) (hcodes : codes.Sound (used.size + 2)) (limit : Nat) :
    Op.Safe (fun bench => Bench.Sound bench ∧ bench.limit = limit) (expand used codes)
      fun e => e.Sound limit used.size := by
  rintro ⟨decoder, reader⟩ ⟨⟨hmost, hreader⟩, rfl⟩
  have hlimit : decoder.maxLength < 2 ^ 24 := Nat.lt_of_le_of_lt hmost (by decide)
  have safe := safe_expandFrom hlimit hused hcodes (.start, reader)
    ⟨Expansion.sound_start hfew, hreader⟩
  rw [expand_eq]
  simp only [Op.read] at safe
  cases hr : expandFrom decoder.maxLength used codes (.start, reader) with
  | ok done after =>
    rw [hr] at safe
    exact ⟨⟨⟨hmost, safe.1.2⟩, rfl⟩, safe.1.1.resume hfew⟩
  | error reason after =>
    rw [hr] at safe
    exact ⟨⟨⟨hmost, safe.1.2⟩, rfl⟩, safe.2⟩

/-- A column that links can be built for. -/
structure Column (e : Expansion) : Prop where
  short : e.column.size < RotationLinks.rowLimit
  counts : ∀ byte, e.counts.count byte = e.column.data.toList.count byte

theorem safe_readHeader (index : Nat) : Op.Safe Bench.Sound (readHeader index) fun _ => True := by
  have hindex : Op.Safe Bench.Sound (onDecoder (setIndex index)) fun _ => True :=
    safe_onDecoder fun _ h => ⟨h, trivial⟩
  refine hindex.bind fun _ _ => (safe_enter _).bind fun _ _ =>
    (safe_reading BitReader.safe_word).bind fun stored _ =>
      (safe_reading BitReader.safe_bit).bind fun randomized _ => ?_
  split
  · exact .fail fun _ => nofun
  · exact (safe_reading (BitReader.safe_number (by decide) (by decide))).bind fun origin _ =>
      (Op.Safe.get.bind fun _ _ => Op.Safe.pure trivial : Op.Safe _ place fun _ => True).bind
        fun _ _ => (Op.Safe.note _).bind fun _ _ => .pure trivial

/-- A column is counted, and no longer than allowed. -/
theorem safe_readColumn_limit (index limit : Nat) :
    Op.Safe (fun bench => Bench.Sound bench ∧ bench.limit = limit) (readColumn index)
      fun e => (∀ byte, e.counts.count byte = e.column.data.toList.count byte)
        ∧ e.column.size ≤ limit :=
  ((safe_enter _).keeping (keeps_limit_enter _)).bind fun _ _ =>
    ((safe_onReader SymbolMap.safe_read).keeping (keeps_limit_onReader _)).bind
      fun symbols hsymbols => (Op.Safe.note _).bind fun _ _ =>
        ((safe_enter _).keeping (keeps_limit_enter _)).bind fun _ _ =>
          ((safe_onReader (GroupCodes.safe_read (symbols.length + 2))).keeping
            (keeps_limit_onReader _)).bind fun _ hcodes =>
              ((safe_enter _).keeping (keeps_limit_enter _)).bind fun _ _ =>
                (safe_expand (List.length_pos_iff.mpr hsymbols.1) hsymbols.2 hcodes limit).bind
                  fun _ he => (Op.Safe.note _).bind fun _ _ => .pure ⟨he.counts, he.column⟩

theorem safe_readColumn (index : Nat) : Op.Safe Bench.Sound (readColumn index) Column := by
  refine Op.Safe.for_each (safe_readColumn_limit index) fun bench hbench e he => ⟨?_, he.1⟩
  exact Nat.lt_of_le_of_lt (Nat.le_trans he.2 hbench.maxLength) (by decide)

theorem safe_startWalk {e : Expansion} (he : Column e) {origin : Nat}
    (horigin : origin < e.column.size) :
    Op.Safe Bench.Sound (startWalk e origin) Walk.Closed := by
  have htake : Op.Safe Bench.Sound (onDecoder takeUsed) fun _ => True :=
    safe_onDecoder fun _ h => ⟨h, trivial⟩
  have hsize := ByteString.size_eq_length e.column
  have hshort := he.short
  rw [hsize] at hshort horigin
  obtain ⟨walk, hwalk, hclosed⟩ := Walk.start?_ofColumn hshort horigin
  refine htake.bind fun used _ => ?_
  simp only [RotationLinks.build?_eq used he.counts he.short, hwalk]
  exact .pure hclosed

theorem safe_readBlock (index : Nat) :
    Op.Safe Bench.Sound (readBlock index) DecodedBlock.Sound := by
  refine (safe_readHeader index).bind fun ⟨stored, origin⟩ _ =>
    (safe_readColumn index).bind fun e he => ?_
  by_cases outside : e.column.size ≤ origin
  · simp only [if_pos outside]
    exact safe_reading (.corrupt _)
  · simp only [if_neg outside]
    exact (safe_enter _).bind fun _ _ =>
      (safe_startWalk he (Nat.lt_of_not_le outside)).bind fun walk hwalk =>
        (safe_enter _).bind fun _ _ => .pure hwalk

end BlockDecoder

end Bunzip

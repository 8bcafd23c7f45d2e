import Bunzip.Proofs.Locality.Basic

/-!
# Reading fields is local

A field of bits is read if there are that many, and otherwise the reader stays at its place and says
that the input has ended. So a field is decided by its own bits, and the computations that are put
together from fields by their bits.
-/

namespace Bunzip

open Format

namespace BitReader

/-- A field that is there is read as it is written, and the reader is behind it then. -/
theorem stands_bits {n place value : Nat} (hpos : 0 < n) (hn : n ≤ 32) (hvalue : value < 2 ^ n)
    {rest : List Bool} {reader : BitReader} (h : reader.Stands place (bitsOf n value ++ rest)) :
    ∃ after, bits n reader = .ok (UInt32.ofNat value) after ∧ after.Stands (place + n) rest := by
  obtain ⟨after, hread, hafter⟩ := reads_bits hpos hn hvalue reader rest h.toAt
  have hkeeps := bits_keeps hpos hn h.toSound
  rw [hread] at hkeeps
  obtain ⟨_, _, _, _, hplace, _⟩ := hkeeps
  rw [h.position] at hplace
  exact ⟨after, hread, hafter, hplace⟩

theorem stands_bit {place : Nat} {next : Bool} {rest : List Bool} {reader : BitReader}
    (h : reader.Stands place (next :: rest)) :
    ∃ after, bit reader = .ok next after ∧ after.Stands (place + 1) rest := by
  rw [← List.singleton_append, ← bitsOf_one] at h
  obtain ⟨after, hread, hafter⟩ := stands_bits (by decide) (by decide) next.toNat_lt h
  refine ⟨after, ?_, hafter⟩
  simp only [bit, Bind.bind, EStateM.bind, hread]
  cases next <;> rfl

/-! ## The end of the input -/

/-- **A field that is not there in full is not read at all.** -/
theorem bits_short {n place : Nat} (hpos : 0 < n) (hn : n ≤ 32) {rest : List Bool}
    (hshort : rest.length < n) {reader : BitReader} (h : reader.Stands place rest) :
    ∃ after, bits n reader = .error (.endOfStream place) after ∧ after.Stands place rest := by
  have hread := bits_keeps hpos hn h.toSound
  have hsmooth := smooth_bits hpos hn h.smooth
  cases hb : bits n reader with
  | ok word after =>
    rw [hb] at hread
    have henough := hread.2.1
    rw [h.upcoming] at henough
    omega
  | error reason after =>
    rw [hb] at hread hsmooth
    obtain ⟨hafter, hpaused, hfew⟩ := hread
    obtain ⟨rfl, _⟩ := hpaused.short hfew h.smooth.stops
    refine ⟨after, by rw [h.position], ⟨⟨hafter, hsmooth, ?_⟩, ?_⟩⟩
    · exact hpaused.upcoming.trans h.upcoming
    · exact hpaused.position.trans h.position

end BitReader

/-- Every string of bits stands for a number. -/
theorem Format.exists_bitsOf (bits : List Bool) :
    ∃ value, value < 2 ^ bits.length ∧ bitsOf bits.length value = bits := by
  induction bits using List.reverseRecOn with
  | nil => exact ⟨0, Nat.one_pos, rfl⟩
  | append_singleton bits bit ih =>
    obtain ⟨value, hlt, hbits⟩ := ih
    have hbit : bit.toNat ≤ 1 := bit.toNat_le
    refine ⟨value * 2 + bit.toNat, ?_, ?_⟩
    · rw [List.length_append, List.length_singleton, Nat.pow_succ]
      omega
    · rw [List.length_append, List.length_singleton, bitsOf_snoc, hbits]

/-- A string of bits begins with a number for every width up to its length. -/
theorem Format.exists_field {n : Nat} {bits : List Bool} (h : n ≤ bits.length) :
    ∃ value, value < 2 ^ n ∧ bitsOf n value ++ bits.drop n = bits := by
  obtain ⟨value, hvalue, hbits⟩ := exists_bitsOf (bits.take n)
  rw [List.length_take, Nat.min_eq_left h] at hvalue hbits
  exact ⟨value, hvalue, by rw [hbits, List.take_append_drop]⟩

/-! ## Computations -/

namespace Read

variable {α β : Type} {x : Read α}

/-- Wherever the computation starts, the bits that it reads decide its outcome. -/
def Local (x : Read α) : Prop := Op.Local .alone (Op.read x)

theorem Local.bind {f : α → Read β} (hx : x.Local) (hf : ∀ a, (f a).Local) : (x >>= f).Local := by
  rw [Local, Op.read_bind]
  exact Op.Local.bind hx hf

/-- What a local computation reads, it reads at every place, and then it is behind it. -/
theorem Local.stands_of_reads (hx : x.Local) {bits rest : List Bool} {a : α} (hreads : x.Reads bits a)
    {place : Nat} {reader : BitReader} (h : reader.Stands place (bits ++ rest)) :
    ∃ after, x reader = .ok a after ∧ after.Stands (place + bits.length) rest := by
  obtain ⟨after, hread, hafter⟩ := hreads reader rest h.toAt
  obtain ⟨⟨front, result, notes, t⟩, later, hbits, hdecides⟩ := hx () place _ reader ⟨rfl, h⟩
  have hagrees := hdecides.agrees reader later (.inl rfl) ⟨rfl, by rw [← hbits]; exact h⟩
  have hstate : after.Stands (place + front.length) later := by
    have hreader := hagrees.state.reader
    simp only [Op.read, hread] at hreader
    exact hreader
  -- the bits that are left afterwards tell how many were read
  have hlater : later = rest := hstate.upcoming.symm.trans hafter.upcoming
  have hlength := congrArg List.length hbits
  rw [hlater, List.length_append, List.length_append] at hlength
  rw [hlater] at hstate
  refine ⟨after, hread, ?_⟩
  rwa [show bits.length = front.length by simpa using hlength]

theorem Local.pure (a : α) : (Pure.pure a : Read α).Local := Op.Local.pure a

theorem Local.map (hx : x.Local) (f : α → β) : (x >>= fun a => Pure.pure (f a)).Local :=
  hx.bind fun a => .pure (f a)

theorem Local.throw {reason : DecodeError} (h : ∀ q, reason ≠ .endOfStream q) :
    (MonadExcept.throw reason : Read α).Local := Op.Local.fail h

theorem Local.corrupt (reason : Corruption) : (BitReader.corrupt reason : Read α).Local :=
  fun _ place _ _ _ => .still (.error (.corrupt place reason)) [] () trivial (fun _ => nofun)
    fun _ _ hplace => ⟨by rw [← hplace]; rfl, rfl, rfl, rfl⟩

end Read

namespace BitReader

/-- The reading of a field that is there. -/
def fieldReading (front : List Bool) (word : UInt32) : Reading Unit UInt32 := ⟨front, .ok word, [], ()⟩

/-- A field that is there is decided by its bits. -/
theorem decides_bits {n place value : Nat} (hpos : 0 < n) (hn : n ≤ fieldLimit)
    (hvalue : value < 2 ^ n) (later : List Bool) :
    Op.Decides .alone (Op.read (bits n)) () place later
      (fieldReading (bitsOf n value) (UInt32.ofNat value)) := by
  have hn32 : n ≤ 32 := Nat.le_trans hn (by decide)
  refine ⟨trivial, ?_, fun q => nofun, ?_⟩
  · intro reader others _ hreader
    have hstands : reader.Stands place (bitsOf n value ++ others) := hreader.reader
    obtain ⟨after, hread, hafter⟩ := stands_bits hpos hn32 hvalue hstands
    have hrun : Op.read (bits n) reader = .ok (UInt32.ofNat value) after [] := by
      simp only [Op.read, hread]
    rw [hrun]
    refine ⟨rfl, rfl, rfl, ?_⟩
    simp only [fieldReading, length_bitsOf]
    exact hafter
  · intro reader before more hsplit hmore hreader
    have hshort : before.length < n := by
      have hlength := congrArg List.length hsplit
      rw [fieldReading, length_bitsOf, List.length_append] at hlength
      have := List.length_pos_iff.mpr hmore
      omega
    have hstands : reader.Stands place before := hreader.reader
    obtain ⟨after, hread, _⟩ := bits_short hpos hn32 hshort hstands
    refine ⟨place, ?_, by omega, by omega, trivial⟩
    simp only [Op.read, hread]
    rfl

/-- A field that is not there in full reports the end of the input. -/
theorem decides_bits_short {n place : Nat} (hpos : 0 < n) (hn : n ≤ fieldLimit) {later : List Bool}
    (hshort : later.length < n) :
    Op.Decides .alone (Op.read (bits n)) () place later
      ⟨[], .error (.endOfStream place), [], ()⟩ := by
  refine ⟨trivial, ?_, ?_, ?_⟩
  · intro reader others hothers hreader
    obtain rfl : others = later := by
      rcases hothers with h | h
      · exact h
      · exact absurd rfl (h place)
    have hstands : reader.Stands place others := hreader.reader
    obtain ⟨after, hread, hafter⟩ := bits_short hpos (Nat.le_trans hn (by decide)) hshort hstands
    have hrun : Op.read (bits n) reader = .error (.endOfStream place) after [] := by
      simp only [Op.read, hread]
    rw [hrun]
    exact ⟨rfl, rfl, rfl, hafter⟩
  · intro q hq
    cases hq
    exact ⟨rfl, Nat.lt_of_lt_of_le hshort hn⟩
  · intro _ before more hsplit hmore
    exact absurd (List.append_eq_nil_iff.mp hsplit.symm).2 hmore

theorem local_bits {n : Nat} (hpos : 0 < n) (hn : n ≤ fieldLimit) : (bits n).Local := by
  intro _ place rest _ _
  rcases Nat.lt_or_ge rest.length n with hshort | henough
  · exact ⟨_, rest, rfl, decides_bits_short hpos hn hshort⟩
  · obtain ⟨value, hvalue, hbits⟩ := exists_field henough
    exact ⟨_, rest.drop n, hbits.symm, decides_bits hpos hn hvalue (rest.drop n)⟩

theorem local_number {n : Nat} (hpos : 0 < n) (hn : n ≤ fieldLimit) : (number n).Local :=
  (local_bits hpos hn).map _

theorem local_bit : bit.Local := (local_bits (by decide) (by decide)).map _

theorem local_onesAfter (count limit : Nat) : (onesAfter count limit).Local := by
  induction limit generalizing count with
  | zero => exact .pure count
  | succ limit ih =>
    refine local_bit.bind fun more => ?_
    cases more with
    | true => exact ih (count + 1)
    | false => exact .pure count

/-- A word is read as two fields, none of which is too wide. -/
theorem local_word : word.Local :=
  (local_bits (by decide) (by decide)).bind fun _ => (local_bits (by decide) (by decide)).map _

theorem local_byte : byte.Local := (local_bits (by decide) (by decide)).map _

theorem local_bytesOnto (out : ByteArray) (n : Nat) : (bytesOnto out n).Local := by
  induction n generalizing out with
  | zero => exact .pure out
  | succ n ih => exact local_byte.bind fun next => ih (out.push next)

/-- A reader at the start of bytes stands before all of their bits. -/
theorem stands_ofSource (data : ByteArray) :
    (ofSource (.ofBytes data)).Stands 0 (bytesBits data.data.toList) :=
  ⟨⟨sound_ofSource _, Source.smooth_ofBytes data, by
    rw [upcoming_ofSource, Source.toList_ofBytes]⟩, rfl⟩

end BitReader

end Bunzip

import Bunzip.Proofs.BitReader.Upcoming

/-!
# What computations read

A computation reads a string of bits if it succeeds wherever that string comes next, and leaves the
reader right behind it. Strings that are read one after the other are read in a row, so what a
computation reads follows its parts, and packing bits into bytes undoes itself when they are read.
-/

namespace Bunzip

open Format

/-- The computation reads exactly these bits, whatever comes after them, and gives this value. -/
def Read.Reads {α : Type} (x : Read α) (bits : List Bool) (a : α) : Prop :=
  ∀ (reader : BitReader) (rest : List Bool), reader.At (bits ++ rest) →
    ∃ after, x reader = .ok a after ∧ after.At rest

/--
The operation reads exactly these bits and gives this value. What it means for bits to come next is
said by `next`, which may say more about the state.
-/
def Op.Reads {σ α : Type} (next : List Bool → σ → Prop) (op : Op σ α) (bits : List Bool) (a : α) :
    Prop :=
  ∀ (state : σ) (rest : List Bool), next (bits ++ rest) state →
    ∃ after notes, op state = .ok a after notes ∧ next rest after

namespace Read

variable {α β : Type}

theorem Reads.pure (a : α) : Reads (Pure.pure a) [] a := fun reader _ h => ⟨reader, rfl, h⟩

theorem Reads.bind {x : Read α} {f : α → Read β} {v w : List Bool} {a : α} {b : β}
    (hx : x.Reads v a) (hf : (f a).Reads w b) : Reads (x >>= f) (v ++ w) b := by
  intro reader rest h
  rw [List.append_assoc] at h
  obtain ⟨middle, hfirst, hmiddle⟩ := hx reader (w ++ rest) h
  obtain ⟨after, hsecond, hafter⟩ := hf middle rest hmiddle
  refine ⟨after, ?_, hafter⟩
  simp only [Bind.bind, EStateM.bind, hfirst, hsecond]

theorem Reads.map {x : Read α} {w : List Bool} {a : α} (hx : x.Reads w a) (f : α → β) :
    Reads (x >>= fun a => Pure.pure (f a)) w (f a) := by
  have h := hx.bind (f := fun a => Pure.pure (f a)) (Reads.pure (f a))
  rwa [List.append_nil] at h

theorem Reads.op {x : Read α} {w : List Bool} {a : α} (hx : x.Reads w a) :
    Op.Reads BitReader.At (Op.read x) w a := by
  intro reader rest h
  obtain ⟨after, hread, hafter⟩ := hx reader rest h
  refine ⟨after, [], ?_, hafter⟩
  simp only [Op.read, hread]

end Read

namespace Op

variable {σ α β : Type} {next : List Bool → σ → Prop}

theorem Reads.pure (a : α) : Reads next (Pure.pure a : Op σ α) [] a :=
  fun state _ h => ⟨state, [], rfl, h⟩

theorem Reads.note (n : Note) : Reads next (Op.note n) [] () := fun state _ h => ⟨state, [n], rfl, h⟩

theorem Reads.noteAll (ns : List Note) : Reads next (Op.noteAll ns) [] () :=
  fun state _ h => ⟨state, ns, rfl, h⟩

/-- What comes behind bits that are read is left to the next operation. -/
theorem Reads.front {op : Op σ α} {v : List Bool} {a : α} (hop : Reads next op v a)
    (f : α → Op σ β) {state : σ} {rest : List Bool} (h : next (v ++ rest) state) :
    ∃ middle first, (op >>= f) state = (f a middle).after first ∧ next rest middle := by
  obtain ⟨middle, first, hrun, hmiddle⟩ := hop state rest h
  exact ⟨middle, first, bind_of_eq_ok hrun f, hmiddle⟩

theorem Reads.bind {op : Op σ α} {f : α → Op σ β} {v w : List Bool} {a : α} {b : β}
    (hop : Reads next op v a) (hf : Reads next (f a) w b) : Reads next (op >>= f) (v ++ w) b := by
  intro state rest h
  rw [List.append_assoc] at h
  obtain ⟨middle, first, hfirst, hmiddle⟩ := hop.front f h
  obtain ⟨after, second, hsecond, hafter⟩ := hf middle rest hmiddle
  exact ⟨after, first ++ second, by rw [hfirst, hsecond]; rfl, hafter⟩

/-- The case of `Reads.bind` where the first operation reads nothing. -/
theorem Reads.then {op : Op σ α} {f : α → Op σ β} {w : List Bool} {a : α} {b : β}
    (hop : Reads next op [] a) (hf : Reads next (f a) w b) : Reads next (op >>= f) w b := by
  have h := hop.bind hf
  rwa [List.nil_append] at h

/-- An operation whose argument is the state. -/
theorem Reads.get {f : σ → Op σ β} {w : List Bool} {b : β}
    (hf : ∀ state bits, next bits state → Reads next (f state) w b) :
    Reads next (Op.get >>= f) w b := by
  intro state rest h
  obtain ⟨after, notes, hrun, hafter⟩ := hf state _ h state rest h
  refine ⟨after, notes, ?_, hafter⟩
  rw [bind_eq]
  simp only [Op.get, hrun, Outcome.after, List.nil_append]

end Op

namespace BitReader

/-! ## Fields -/

theorem reads_bits {n value : Nat} (hpos : 0 < n) (hn : n ≤ 32) (hvalue : value < 2 ^ n) :
    (bits n).Reads (bitsOf n value) (UInt32.ofNat value) := by
  intro reader rest h
  obtain ⟨word, after, hread, hword, hafter⟩ := bits_at hpos hn hvalue h
  have hofNat : word = UInt32.ofNat value := by rw [← hword, UInt32.ofNat_toNat]
  rw [hofNat] at hread
  exact ⟨after, hread, hafter⟩

theorem toNat_ofNat_lt {n value : Nat} (hn : n ≤ 32) (hvalue : value < 2 ^ n) :
    (UInt32.ofNat value).toNat = value := by
  rw [UInt32.toNat_ofNat']
  exact Nat.mod_eq_of_lt (Nat.lt_of_lt_of_le hvalue (Nat.pow_le_pow_right (by decide) hn))

theorem reads_number {n value : Nat} (hpos : 0 < n) (hn : n ≤ 32) (hvalue : value < 2 ^ n) :
    (number n).Reads (bitsOf n value) value := by
  have h := (reads_bits hpos hn hvalue).map UInt32.toNat
  rwa [toNat_ofNat_lt hn hvalue] at h

theorem reads_bit (bit : Bool) : BitReader.bit.Reads [bit] bit := by
  have hlt : bit.toNat < 2 ^ 1 := bit.toNat_lt
  have h := (reads_bits (by decide) (by decide) hlt).map fun word => word == 1
  rw [bitsOf_one] at h
  cases bit <;> exact h

theorem reads_onesAfter {ones limit : Nat} (h : ones < limit) (count : Nat) :
    (onesAfter count limit).Reads (List.replicate ones true ++ [false]) (count + ones) := by
  induction ones generalizing count limit with
  | zero =>
    obtain ⟨limit, rfl⟩ : ∃ m, limit = m + 1 := ⟨limit - 1, by omega⟩
    exact (reads_bit false).bind (Read.Reads.pure count)
  | succ ones ih =>
    obtain ⟨limit, rfl⟩ : ∃ m, limit = m + 1 := ⟨limit - 1, by omega⟩
    have hrest := ih (by omega : ones < limit) (count + 1)
    rw [Nat.add_right_comm] at hrest
    exact (reads_bit true).bind hrest

theorem reads_ones {count limit : Nat} (h : count < limit) :
    (ones limit).Reads (List.replicate count true ++ [false]) count := by
  have hread := reads_onesAfter h 0
  rwa [Nat.zero_add] at hread

/-- As many ones as are counted at most are read without the zero behind them. -/
theorem reads_onesAfter_limit (count limit : Nat) :
    (onesAfter count limit).Reads (List.replicate limit true) (count + limit) := by
  induction limit generalizing count with
  | zero => exact Read.Reads.pure count
  | succ limit ih =>
    have hrest := ih (count + 1)
    rw [Nat.add_right_comm] at hrest
    exact (reads_bit true).bind hrest

theorem reads_ones_limit (limit : Nat) : (ones limit).Reads (List.replicate limit true) limit := by
  have hread := reads_onesAfter_limit 0 limit
  rwa [Nat.zero_add] at hread

/-- A word is written as a whole, though it is read as two halves. -/
theorem reads_word (word : UInt32) : BitReader.word.Reads (bitsOf 32 word.toNat) word := by
  have hlt : word.toNat < 2 ^ 32 := word.toNat_lt
  have hhigh : word.toNat / 2 ^ 16 < 2 ^ 16 := by omega
  have hlow : word.toNat % 2 ^ 16 < 2 ^ 16 := by omega
  have hjoin : (UInt32.ofNat (word.toNat / 2 ^ 16) <<< 16) ||| UInt32.ofNat (word.toNat % 2 ^ 16)
      = word := by
    apply UInt32.toNat_inj.mp
    have hshift : (UInt32.ofNat (word.toNat / 2 ^ 16) <<< 16).toNat
        = (word.toNat / 2 ^ 16) <<< 16 := by
      rw [UInt32.toNat_shiftLeft, toNat_ofNat_lt (by decide) hhigh]
      apply Nat.mod_eq_of_lt
      rw [Nat.shiftLeft_eq]
      change word.toNat / 2 ^ 16 * 2 ^ 16 < 2 ^ 32
      omega
    rw [UInt32.toNat_or, hshift, toNat_ofNat_lt (by decide) hlow, shiftLeft_or_mod]
  have h := (reads_bits (by decide) (by decide) hhigh).bind
    (f := fun high : UInt32 => do
      let low ← bits 16
      return (high <<< 16) ||| low)
    ((reads_bits (by decide) (by decide) hlow).map fun low =>
      (UInt32.ofNat (word.toNat / 2 ^ 16) <<< 16) ||| low)
  rw [hjoin, bitsOf_mod (Nat.le_refl 16), ← bitsOf_add] at h
  exact h

theorem reads_byte (byte : UInt8) : BitReader.byte.Reads (bitsOf 8 byte.toNat) byte := by
  have hlt : byte.toNat < 2 ^ 8 := byte.toNat_lt
  have h := (reads_bits (by decide) (by decide) hlt).map UInt32.toUInt8
  have hbyte : (UInt32.ofNat byte.toNat).toUInt8 = byte := by
    apply UInt8.toNat_inj.mp
    rw [UInt32.toNat_toUInt8, toNat_ofNat_lt (n := 8) (by decide) hlt]
    exact Nat.mod_eq_of_lt hlt
  rw [hbyte] at h
  exact h

theorem reads_bytesOnto (bytes : List UInt8) (out : ByteArray) :
    (bytesOnto out bytes.length).Reads (bytesBits bytes) ⟨(out.data.toList ++ bytes).toArray⟩ := by
  induction bytes generalizing out with
  | nil =>
    have hout : (⟨(out.data.toList ++ []).toArray⟩ : ByteArray) = out := by
      apply ByteString.eq_of_toList
      simp
    rw [hout]
    exact Read.Reads.pure out
  | cons byte bytes ih =>
    have hpush : ((out.push byte).data.toList ++ bytes) = out.data.toList ++ byte :: bytes := by
      rw [ByteString.toList_push, List.append_assoc]
      rfl
    have hrest := ih (out.push byte)
    rw [hpush] at hrest
    exact (reads_byte byte).bind hrest

end BitReader

/-! ## Packing -/

namespace Format

/-- Packs bits into bytes, behind `count` bits that stand for `held`. Zeros fill up the last byte. -/
def packFrom (count held : Nat) : List Bool → List UInt8
  | [] => if count = 0 then [] else [UInt8.ofNat (held * 2 ^ (8 - count))]
  | bit :: bits =>
    if count = 7 then UInt8.ofNat (held * 2 + bit.toNat) :: packFrom 0 0 bits
    else packFrom (count + 1) (held * 2 + bit.toNat) bits

/-- Packs bits into bytes. -/
def pack (bits : List Bool) : List UInt8 := packFrom 0 0 bits

theorem bitsOf_snoc (n value : Nat) (bit : Bool) :
    bitsOf (n + 1) (value * 2 + bit.toNat) = bitsOf n value ++ [bit] := by
  have hbit : bit.toNat ≤ 1 := bit.toNat_le
  rw [bitsOf_add, ← bitsOf_mod (Nat.le_refl 1), Nat.pow_one,
    show (value * 2 + bit.toNat) / 2 = value by omega,
    show (value * 2 + bit.toNat) % 2 = bit.toNat by omega, bitsOf_one]

theorem bitsOf_mul_two_pow (n k value : Nat) :
    bitsOf (n + k) (value * 2 ^ k) = bitsOf n value ++ List.replicate k false := by
  induction k with
  | zero => simp
  | succ k ih =>
    have h := bitsOf_snoc (n + k) (value * 2 ^ k) false
    simp only [Bool.toNat_false, Nat.add_zero, Nat.mul_assoc, ← Nat.pow_succ, ih] at h
    rw [← Nat.add_assoc, h, List.replicate_succ', List.append_assoc]

theorem bitsOf_byte {value : Nat} (h : value < 2 ^ 8) :
    bitsOf 8 (UInt8.ofNat value).toNat = bitsOf 8 value := by
  rw [UInt8.toNat_ofNat', Nat.mod_eq_of_lt h]

/-- The bits of the bytes are the bits that were packed, up to zeros at the end. -/
theorem bytesBits_packFrom (bits : List Bool) {count held : Nat} (hcount : count < 8)
    (hheld : held < 2 ^ count) :
    ∃ zeros, bytesBits (packFrom count held bits)
      = bitsOf count held ++ bits ++ List.replicate zeros false := by
  -- on the bits; the number held stands for those since the last whole byte
  induction bits generalizing count held with
  | nil =>
    by_cases hzero : count = 0
    · subst hzero
      exact ⟨0, by rw [packFrom, if_pos rfl]; rfl⟩
    · refine ⟨8 - count, ?_⟩
      have hlt : held * 2 ^ (8 - count) < 2 ^ 8 := by
        calc held * 2 ^ (8 - count) < 2 ^ count * 2 ^ (8 - count) :=
              Nat.mul_lt_mul_of_pos_right hheld (Nat.two_pow_pos _)
          _ = 2 ^ 8 := by rw [← Nat.pow_add, show count + (8 - count) = 8 by omega]
      have hbits := bitsOf_mul_two_pow count (8 - count) held
      rw [show count + (8 - count) = 8 by omega] at hbits
      rw [packFrom, if_neg hzero, bytesBits, List.flatMap_cons, List.flatMap_nil, List.append_nil,
        bitsOf_byte hlt, hbits, List.append_nil]
  | cons bit bits ih =>
    have hbit : bit.toNat ≤ 1 := bit.toNat_le
    have hlt : held * 2 + bit.toNat < 2 ^ (count + 1) := by
      rw [Nat.pow_succ]
      omega
    by_cases hfull : count = 7
    · subst hfull
      obtain ⟨zeros, hrest⟩ := ih (by decide : 0 < 8) (by decide : 0 < 2 ^ 0)
      refine ⟨zeros, ?_⟩
      rw [packFrom, if_pos rfl, bytesBits, List.flatMap_cons, ← bytesBits, hrest, bitsOf_byte hlt,
        bitsOf_snoc]
      simp only [bitsOf, List.nil_append, List.cons_append]
    · obtain ⟨zeros, hrest⟩ := ih (by omega : count + 1 < 8) hlt
      refine ⟨zeros, ?_⟩
      rw [packFrom, if_neg hfull, hrest, bitsOf_snoc]
      simp only [List.append_assoc, List.cons_append, List.nil_append]

theorem bytesBits_pack (bits : List Bool) :
    ∃ zeros, bytesBits (pack bits) = bits ++ List.replicate zeros false :=
  bytesBits_packFrom bits (by decide) (by decide)

end Format

/-! ## The start of a source -/

namespace Source

/-- The pieces of a byte string, one after the other, are the byte string. -/
theorem flatMap_pieces (bytes : List UInt8) (piece n : Nat) :
    ((List.range n).flatMap fun i =>
        (bytes.take (min ((i + 1) * piece) bytes.length)).drop (i * piece))
      = bytes.take (n * piece) := by
  induction n with
  | zero => simp
  | succ n ih =>
    have htake : bytes.take (min ((n + 1) * piece) bytes.length) = bytes.take ((n + 1) * piece) :=
      List.take_eq_take_iff.mpr (by omega)
    have hfront : bytes.take (n * piece) = (bytes.take ((n + 1) * piece)).take (n * piece) := by
      rw [List.take_take, Nat.min_eq_left (Nat.mul_le_mul_right _ (Nat.le_succ n))]
    rw [List.range_succ, List.flatMap_append, ih, List.flatMap_cons, List.flatMap_nil,
      List.append_nil, htake, hfront, List.take_append_drop]

theorem toList_cut {piece : Nat} (hpiece : 0 < piece) (data : ByteArray) :
    toList ⟨cut piece data 0 data.size⟩ = data.data.toList := by
  have henough : data.data.toList.length
      ≤ (data.data.toList.length - 0 + (piece - 1)) / piece * piece := by
    have hdiv := Nat.div_add_mod (data.data.toList.length - 0 + (piece - 1)) piece
    have hmod := Nat.mod_lt (data.data.toList.length - 0 + (piece - 1)) hpiece
    rw [Nat.mul_comm] at hdiv
    omega
  rw [toList, cut, List.flatMap_map]
  simp only [Delivery.toList, toList_extract, Nat.zero_add, ByteString.size_eq_length]
  rw [flatMap_pieces, List.take_of_length_le henough]

theorem smooth_cut {piece : Nat} (hpiece : 0 < piece) (data : ByteArray) :
    Smooth ⟨cut piece data 0 data.size⟩ := by
  intro delivery hmem
  obtain ⟨i, hi, rfl⟩ := List.mem_map.mp hmem
  have hlt : i * piece < data.size := by
    have hdiv := Nat.div_add_mod (data.size - 0 + (piece - 1)) piece
    have hle := Nat.mul_le_mul_right piece (Nat.succ_le_of_lt (List.mem_range.mp hi))
    rw [Nat.succ_mul, Nat.mul_comm (_ / piece)] at hle
    omega
  have hstep : (i + 1) * piece = i * piece + piece := Nat.succ_mul i piece
  show 0 < (data.extract (0 + i * piece) (min (0 + (i + 1) * piece) data.size)).size
  rw [ByteArray.size_extract]
  omega

theorem toList_ofBytes (data : ByteArray) : (ofBytes data).toList = data.data.toList :=
  toList_cut (by decide) data

theorem smooth_ofBytes (data : ByteArray) : (ofBytes data).Smooth := smooth_cut (by decide) data

end Source

theorem BitReader.upcoming_ofSource (source : Source) :
    (ofSource source).upcoming = bytesBits source.toList := by
  rw [upcoming, pending, ofSource, bitsOf, List.nil_append]
  rfl

/-- A reader that starts on packed bits has these bits before it, and then some zeros. -/
theorem BitReader.at_ofSource (bits : List Bool) :
    ∃ zeros, (ofSource (.ofBytes ⟨(pack bits).toArray⟩)).At (bits ++ List.replicate zeros false) := by
  obtain ⟨zeros, hzeros⟩ := bytesBits_pack bits
  refine ⟨zeros, ⟨sound_ofSource _, Source.smooth_ofBytes _, ?_⟩⟩
  rw [upcoming_ofSource, Source.toList_ofBytes, ByteString.toList_mk, hzeros]

end Bunzip

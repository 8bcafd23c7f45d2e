import Bunzip.Proofs.Format.Bits
import Bunzip.Proofs.Block.Draining

/-!
# The checksum as a remainder

Bits are the coefficients of a polynomial over the field of two elements, the first of them that of
the highest power. Modulo the generator, a shift of the register multiplies by `X`
(`Crc.residue_shift`), so an entry of the table is what its byte comes to at the top of the register
(`Crc.residue_table`), and taking in bytes multiplies the register by a power of `X` and adds the
bytes, 32 places up (`Crc.residue_updateBytes`). A register is the only one of its residue
(`Crc.residue_injective`): it has fewer bits than the generator has powers.

So the checksum of bytes is the complement of a remainder of polynomials
(`Crc.ofBytes_eq_remainder`), and equations between registers are equations between residues.
-/

namespace Bunzip

open Polynomial

namespace Format

/-! ## Bits as polynomials -/

/-- A bit as a coefficient. -/
def coefficient (bit : Bool) : ZMod 2 := if bit then 1 else 0

theorem coefficient_xor (a b : Bool) :
    coefficient (a ^^ b) = coefficient a + coefficient b := by
  cases a <;> cases b <;> decide

theorem coefficient_injective : Function.Injective coefficient := by
  intro a b h
  cases a <;> cases b <;> first | rfl | exact absurd h (by decide)

/-- Bits as a polynomial: the first bit is the coefficient of the highest power. -/
noncomputable def polynomialOf : List Bool → (ZMod 2)[X]
  | [] => 0
  | bit :: bits => C (coefficient bit) * X ^ bits.length + polynomialOf bits

theorem polynomialOf_append (a b : List Bool) :
    polynomialOf (a ++ b) = polynomialOf a * X ^ b.length + polynomialOf b := by
  induction a with
  | nil => rw [List.nil_append, polynomialOf, zero_mul, zero_add]
  | cons bit a ih =>
    rw [List.cons_append, polynomialOf, polynomialOf, ih, List.length_append, pow_add]
    ring

theorem polynomialOf_singleton (bit : Bool) : polynomialOf [bit] = C (coefficient bit) := by
  rw [polynomialOf, polynomialOf, List.length_nil, pow_zero, mul_one, add_zero]

theorem degree_polynomialOf_lt (bits : List Bool) : (polynomialOf bits).degree < bits.length := by
  induction bits with
  | nil => rw [polynomialOf, degree_zero]; exact WithBot.bot_lt_coe 0
  | cons bit bits ih =>
    have hlt : (bits.length : WithBot ℕ) < ((bit :: bits).length : ℕ) := by
      exact_mod_cast Nat.lt_succ_self bits.length
    refine (degree_add_le _ _).trans_lt (max_lt ?_ (ih.trans hlt))
    exact (degree_C_mul_X_pow_le _ _).trans_lt hlt

/-- The first bit is the coefficient of the highest power. -/
theorem coeff_polynomialOf_cons (bit : Bool) (bits : List Bool) :
    (polynomialOf (bit :: bits)).coeff bits.length = coefficient bit := by
  rw [polynomialOf, coeff_add, coeff_C_mul, coeff_X_pow_self, mul_one,
    coeff_eq_zero_of_degree_lt (degree_polynomialOf_lt bits), add_zero]

/-- As many bits with the same polynomial are the same bits. -/
theorem eq_of_polynomialOf : ∀ {a b : List Bool}, a.length = b.length →
    polynomialOf a = polynomialOf b → a = b
  | [], [], _, _ => rfl
  | a :: as, b :: bs, hlength, h => by
    rw [List.length_cons, List.length_cons, Nat.add_right_cancel_iff] at hlength
    have hfirst : a = b := by
      apply coefficient_injective
      rw [← coeff_polynomialOf_cons a as, ← coeff_polynomialOf_cons b bs, h, hlength]
    rw [polynomialOf, polynomialOf, hfirst, hlength] at h
    rw [hfirst, eq_of_polynomialOf hlength (add_left_cancel h)]

theorem polynomialOf_bitsOf_xor (n a b : Nat) :
    polynomialOf (bitsOf n (a ^^^ b)) = polynomialOf (bitsOf n a) + polynomialOf (bitsOf n b) := by
  induction n with
  | zero => rw [bitsOf, bitsOf, bitsOf, polynomialOf, zero_add]
  | succ n ih =>
    simp only [bitsOf, polynomialOf, length_bitsOf, Nat.testBit_xor, ih]
    rw [coefficient_xor, C_add]
    ring

theorem polynomialOf_bitsOf_zero (n : Nat) : polynomialOf (bitsOf n 0) = 0 := by
  have h := polynomialOf_bitsOf_xor n 0 0
  rw [Nat.xor_self] at h
  exact left_eq_add.mp h

/-- A number moved up is its polynomial times a power. -/
theorem polynomialOf_bitsOf_mul (m n value : Nat) :
    polynomialOf (bitsOf (m + n) (value * 2 ^ n)) = polynomialOf (bitsOf m value) * X ^ n := by
  have hlow : bitsOf n (value * 2 ^ n) = bitsOf n 0 := by
    rw [← bitsOf_mod (Nat.le_refl n), Nat.mul_mod_left]
  rw [bitsOf_add, Nat.mul_div_cancel _ (Nat.two_pow_pos n), polynomialOf_append, length_bitsOf,
    hlow, polynomialOf_bitsOf_zero, add_zero]

end Format

open Format

namespace Crc

/-! ## Registers as residues -/

/-- A register as a polynomial. -/
noncomputable def word (register : UInt32) : (ZMod 2)[X] := polynomialOf (bitsOf 32 register.toNat)

/-- The generator, with its leading term. -/
noncomputable def generator : (ZMod 2)[X] := X ^ 32 + word polynomial

theorem degree_word_lt (register : UInt32) : (word register).degree < (32 : ℕ) := by
  have h := degree_polynomialOf_lt (bitsOf 32 register.toNat)
  rwa [length_bitsOf] at h

theorem monic_generator : generator.Monic := monic_X_pow_add (degree_word_lt polynomial)

theorem degree_generator : generator.degree = (32 : ℕ) := by
  rw [generator, degree_add_eq_left_of_degree_lt, degree_X_pow]
  rw [degree_X_pow]
  exact degree_word_lt polynomial

/-- Bits modulo the generator. -/
noncomputable def message (bits : List Bool) : AdjoinRoot generator :=
  AdjoinRoot.mk generator (polynomialOf bits)

/-- A register modulo the generator. -/
noncomputable def residue (register : UInt32) : AdjoinRoot generator :=
  AdjoinRoot.mk generator (word register)

/-- Polynomials below the generator are remainders. -/
theorem modByMonic_polynomialOf {bits : List Bool} (hshort : bits.length ≤ 32) :
    polynomialOf bits %ₘ generator = polynomialOf bits := by
  rw [modByMonic_eq_self_iff monic_generator, degree_generator]
  exact (degree_polynomialOf_lt bits).trans_le (by exact_mod_cast hshort)

/-- Bits are the remainder of the polynomials that they are congruent to. -/
theorem polynomialOf_eq_modByMonic_iff {bits : List Bool} (hshort : bits.length ≤ 32)
    {p : (ZMod 2)[X]} :
    polynomialOf bits = p %ₘ generator ↔ message bits = AdjoinRoot.mk generator p := by
  rw [message, AdjoinRoot.mk_eq_mk, ← modByMonic_eq_zero_iff_dvd monic_generator, sub_modByMonic,
    modByMonic_polynomialOf hshort, sub_eq_zero]

/-- As many bits, no more than a register has, are the same bits where they are congruent. -/
theorem eq_of_message {a b : List Bool} (hlength : a.length = b.length) (hshort : a.length ≤ 32)
    (h : message a = message b) : a = b := by
  apply eq_of_polynomialOf hlength
  rw [(polynomialOf_eq_modByMonic_iff hshort).mpr h, modByMonic_polynomialOf (hlength ▸ hshort)]

/-- Registers that are congruent are the same register. -/
theorem residue_injective : Function.Injective residue := by
  intro a b h
  have hbits : bitsOf 32 a.toNat = bitsOf 32 b.toNat :=
    eq_of_message (by rw [length_bitsOf, length_bitsOf]) (length_bitsOf _ _).le h
  apply UInt32.toNat_inj.mp
  rw [← numberOf_bitsOf a.toNat_lt, hbits, numberOf_bitsOf b.toNat_lt]

/-- The class of `X`. -/
noncomputable def x : AdjoinRoot generator := AdjoinRoot.root generator

theorem message_append (a b : List Bool) :
    message (a ++ b) = message a * x ^ b.length + message b := by
  rw [message, polynomialOf_append, map_add, map_mul, map_pow, AdjoinRoot.mk_X]
  rfl

theorem residue_xor (a b : UInt32) : residue (a ^^^ b) = residue a + residue b := by
  rw [residue, word, UInt32.toNat_xor, polynomialOf_bitsOf_xor, map_add]
  rfl

/-- The generator itself vanishes, and signs do not matter. -/
theorem residue_polynomial : residue polynomial = x ^ 32 := by
  have h : x ^ 32 + residue polynomial = 0 := by
    rw [x, residue, ← AdjoinRoot.mk_X, ← map_pow, ← map_add, ← generator, AdjoinRoot.mk_self]
  have hchar : x ^ 32 + x ^ 32 = 0 := by
    rw [← two_mul, show (2 : AdjoinRoot generator) = AdjoinRoot.of generator 2 by
      rw [map_ofNat], show (2 : ZMod 2) = 0 by rfl, map_zero, zero_mul]
  exact (add_left_cancel (h.trans hchar.symm)).trans rfl

/-- A shift moves the polynomial up, and what leaves at the top stands 32 places up. -/
theorem word_shiftLeft (register places : UInt32) (hplaces : places.toNat < 32) :
    X ^ places.toNat * word register
      = polynomialOf (bitsOf places.toNat (register.toNat / 2 ^ (32 - places.toNat))) * X ^ 32
        + word (register <<< places) := by
  have hsum : places.toNat + (32 - places.toNat) = 32 := by omega
  have hword : word register
      = polynomialOf (bitsOf places.toNat (register.toNat / 2 ^ (32 - places.toNat)))
          * X ^ (32 - places.toNat)
        + polynomialOf (bitsOf (32 - places.toNat) register.toNat) := by
    have h := bitsOf_add places.toNat (32 - places.toNat) register.toNat
    rw [hsum] at h
    rw [word, h, polynomialOf_append, length_bitsOf]
  have hshifted : word (register <<< places)
      = polynomialOf (bitsOf (32 - places.toNat) register.toNat) * X ^ places.toNat := by
    have h := polynomialOf_bitsOf_mul (32 - places.toNat) places.toNat register.toNat
    rw [Nat.sub_add_cancel hplaces.le] at h
    rw [word, UInt32.toNat_shiftLeft, Nat.mod_eq_of_lt hplaces, bitsOf_mod (Nat.le_refl 32),
      Nat.shiftLeft_eq, h]
  have hpow : (X : (ZMod 2)[X]) ^ 32 = X ^ places.toNat * X ^ (32 - places.toNat) := by
    rw [← pow_add, hsum]
  rw [hword, hshifted, hpow]
  ring

theorem residue_shiftLeft (register places : UInt32) (hplaces : places.toNat < 32) :
    x ^ places.toNat * residue register
      = message (bitsOf places.toNat (register.toNat / 2 ^ (32 - places.toNat))) * x ^ 32
        + residue (register <<< places) := by
  have h := congrArg (AdjoinRoot.mk generator) (word_shiftLeft register places hplaces)
  rwa [map_mul, map_add, map_mul, map_pow, map_pow, AdjoinRoot.mk_X] at h

/-! ## One bit at a time -/

/-- Takes in one bit, the most significant of what is to come: the shift brings in the generator
where the bit that leaves at the top and the bit that comes differ. -/
def feed (register : UInt32) (bit : Bool) : UInt32 :=
  if decide (register &&& 0x80000000 ≠ 0) ^^ bit then (register <<< 1) ^^^ polynomial
  else register <<< 1

theorem shift_eq_feed (register : UInt32) : shift register = feed register false := by
  simp only [shift, feed, Bool.xor_false, decide_eq_true_eq]

theorem decide_top (register : UInt32) :
    decide (register &&& 0x80000000 ≠ 0) = register.toNat.testBit 31 := by
  have hand : (register &&& 0x80000000).toNat = (register.toNat.testBit 31).toNat * 2 ^ 31 := by
    rw [UInt32.toNat_and, ← Nat.and_two_pow]
    rfl
  rw [Bool.eq_iff_iff, decide_eq_true_eq, ne_eq, ← UInt32.toNat_inj, hand]
  cases register.toNat.testBit 31 <;> simp

theorem message_xor (a b : Bool) : message [a ^^ b] = message [a] + message [b] := by
  simp only [message, polynomialOf_singleton, coefficient_xor, map_add]

theorem message_nil : message [] = 0 := by
  rw [message, polynomialOf, map_zero]

theorem message_true : message [true] = 1 := by
  rw [message, polynomialOf_singleton, coefficient, if_pos rfl, C_1, map_one]

theorem message_false : message [false] = 0 := by
  rw [message, polynomialOf_singleton, coefficient, if_neg Bool.false_ne_true, C_0, map_zero]

theorem residue_feed (register : UInt32) (bit : Bool) :
    residue (feed register bit) = x * residue register + message [bit] * x ^ 32 := by
  have hshift := residue_shiftLeft register 1 (by decide)
  rw [show (1 : UInt32).toNat = 1 from rfl, pow_one, bitsOf, bitsOf, Nat.testBit_div_two_pow]
    at hshift
  have hfeed : residue (feed register bit)
      = residue (register <<< 1) + message [register.toNat.testBit 31 ^^ bit] * x ^ 32 := by
    rw [feed, decide_top]
    cases register.toNat.testBit 31 ^^ bit with
    | true => rw [if_pos rfl, residue_xor, residue_polynomial, message_true, one_mul]
    | false => rw [if_neg Bool.false_ne_true, message_false, zero_mul, add_zero]
  rw [hfeed, hshift, message_xor]
  ring

theorem residue_shift (register : UInt32) : residue (shift register) = x * residue register := by
  rw [shift_eq_feed, residue_feed, message_false, zero_mul, add_zero]

theorem residue_shifts (n : Nat) (register : UInt32) :
    residue (shifts n register) = x ^ n * residue register := by
  induction n generalizing register with
  | zero => rw [shifts, pow_zero, one_mul]
  | succ n ih => rw [shifts, ih, residue_shift, pow_succ, mul_assoc]

theorem residue_foldl_feed (bits : List Bool) (register : UInt32) :
    residue (bits.foldl feed register)
      = x ^ bits.length * residue register + message bits * x ^ 32 := by
  induction bits generalizing register with
  | nil => rw [List.foldl_nil, List.length_nil, pow_zero, one_mul, message_nil, zero_mul, add_zero]
  | cons bit bits ih =>
    have hmessage := message_append [bit] bits
    rw [List.singleton_append] at hmessage
    rw [List.foldl_cons, ih, residue_feed, hmessage, List.length_cons, pow_succ]
    ring

/-! ## One byte at a time -/

/-- An entry of the table is what its byte comes to at the top of the register. -/
theorem residue_table (byte : Fin 256) :
    residue (table.get byte) = message (bitsOf 8 byte.val) * x ^ 32 := by
  have hentry : table.get byte = shifts 8 (UInt32.ofNat byte.val <<< 24) := by
    rw [table, Vector.get_eq_getElem, Vector.getElem_ofFn]
  have hbyte : byte.val < 2 ^ 32 := by omega
  have hword : word (UInt32.ofNat byte.val <<< 24) = polynomialOf (bitsOf 8 byte.val) * X ^ 24 := by
    rw [word, UInt32.toNat_shiftLeft, UInt32.toNat_ofNat_of_lt' hbyte, bitsOf_mod (Nat.le_refl 32),
      Nat.shiftLeft_eq]
    exact polynomialOf_bitsOf_mul 8 24 byte.val
  rw [hentry, residue_shifts, residue, hword, map_mul, map_pow, AdjoinRoot.mk_X, ← message]
  change x ^ 8 * (_ * x ^ 24) = _
  ring

theorem residue_update (crc : Crc) (byte : UInt8) :
    residue (crc.update byte).register
      = x ^ 8 * residue crc.register + message (bitsOf 8 byte.toNat) * x ^ 32 := by
  have hshift := residue_shiftLeft crc.register 8 (by decide)
  have hindex : bitsOf 8 ((crc.register >>> 24).toUInt8 ^^^ byte).toFin.val
      = bitsOf 8 (crc.register.toNat / 2 ^ 24 ^^^ byte.toNat) := by
    change bitsOf 8 ((crc.register >>> 24).toUInt8 ^^^ byte).toNat = _
    rw [UInt8.toNat_xor, UInt32.toNat_toUInt8, UInt32.toNat_shiftRight,
      Nat.shiftRight_eq_div_pow, ← bitsOf_mod (Nat.le_refl 8), Nat.xor_mod_two_pow,
      Nat.mod_mod, ← Nat.xor_mod_two_pow, bitsOf_mod (Nat.le_refl 8)]
    rfl
  rw [show (8 : UInt32).toNat = 8 from rfl] at hshift
  rw [update, residue_xor, residue_table, hindex, message, polynomialOf_bitsOf_xor, map_add,
    ← message, ← message, hshift]
  ring

/-- A byte through the table is its eight bits, one after another. -/
theorem update_eq_feed (crc : Crc) (byte : UInt8) :
    crc.update byte = ⟨(bitsOf 8 byte.toNat).foldl feed crc.register⟩ := by
  have h : (crc.update byte).register = (bitsOf 8 byte.toNat).foldl feed crc.register := by
    apply residue_injective
    rw [residue_update, residue_foldl_feed, length_bitsOf]
  rw [← h]

theorem updateBytes_eq_feed (crc : Crc) (bytes : ByteArray) :
    crc.updateBytes bytes = ⟨(bytesBits bytes.data.toList).foldl feed crc.register⟩ := by
  rw [updateBytes, ByteString.foldl_eq]
  induction bytes.data.toList generalizing crc with
  | nil => rfl
  | cons byte bytes ih =>
    have hcons : bytesBits (byte :: bytes) = bitsOf 8 byte.toNat ++ bytesBits bytes :=
      List.flatMap_cons
    rw [List.foldl_cons, ih, update_eq_feed, hcons, List.foldl_append]

theorem residue_updateBytes (crc : Crc) (bytes : ByteArray) :
    residue (crc.updateBytes bytes).register
      = x ^ (8 * bytes.size) * residue crc.register
        + message (bytesBits bytes.data.toList) * x ^ 32 := by
  rw [updateBytes_eq_feed, residue_foldl_feed, length_bytesBits, ← ByteString.size_eq_length]

/-! ## Whole byte strings -/

theorem updateBytes_foldl (crc : Crc) (pieces : List ByteArray) (bytes : ByteArray) :
    pieces.foldl updateBytes (crc.updateBytes bytes)
      = crc.updateBytes (pieces.foldl (· ++ ·) bytes) := by
  induction pieces generalizing bytes with
  | nil => rfl
  | cons piece pieces ih => rw [List.foldl_cons, List.foldl_cons, ← updateBytes_append, ih]

/-- **The checksum of bytes is the complement of a remainder.** Through the table, a byte is eight
single bits, and it does not matter into what pieces the bytes are cut. -/
theorem ofBytes_eq_remainder :
    (∀ bytes register, ofBytes bytes = ~~~register ↔
      word register
        = (word 0xFFFFFFFF * X ^ (8 * bytes.size)
            + polynomialOf (bytesBits bytes.data.toList) * X ^ 32) %ₘ generator)
    ∧ (∀ (crc : Crc) byte, crc.update byte = ⟨(bitsOf 8 byte.toNat).foldl feed crc.register⟩)
    ∧ ∀ pieces : List ByteArray,
      (pieces.foldl updateBytes start).value = ofBytes (pieces.foldl (· ++ ·) ByteArray.empty) := by
  refine ⟨fun bytes register => ?_, update_eq_feed, fun pieces => ?_⟩
  · have hregister : residue (start.updateBytes bytes).register = AdjoinRoot.mk generator
        (word 0xFFFFFFFF * X ^ (8 * bytes.size)
          + polynomialOf (bytesBits bytes.data.toList) * X ^ 32) := by
      rw [residue_updateBytes, map_add, map_mul, map_mul, map_pow, map_pow, AdjoinRoot.mk_X,
        mul_comm (x ^ _)]
      rfl
    rw [word, polynomialOf_eq_modByMonic_iff (length_bitsOf _ _).le, ← hregister, ofBytes, value,
      UInt32.not_inj, eq_comm]
    exact residue_injective.eq_iff.symm
  · rw [ofBytes, ← updateBytes_foldl, updateBytes_empty]

end Crc

end Bunzip

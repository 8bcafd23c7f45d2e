import Bunzip.Proofs.Block.Draws
import Bunzip.Proofs.Checksum.Remainder
import Bunzip.Proofs.Locality.Replaced

/-!
# What the checksum notices

The class of `X` is a unit modulo the generator, since the generator ends in one (`Crc.isUnit_x`). So
taking in bytes can be undone (`Crc.updateBytes_injective`), and as long as the bytes have no more
bits than the register, which of them were taken in can be told from the register before and behind
(`Crc.eq_of_updateBytes`).

So two byte strings that differ within four bytes in a row have different checksums, and a block that
hands out such bytes in place of those that its stored checksum is about is noticed when it is
verified (`Crc.notices_windows`).
-/

namespace Bunzip

namespace Format

/-- Bytes are known from their bits. -/
theorem eq_of_bytesBits : ∀ {a b : List UInt8}, bytesBits a = bytesBits b → a = b
  | [], [], _ => rfl
  | [], y :: ys, h => by
    have hlength := congrArg List.length h
    rw [length_bytesBits, length_bytesBits, List.length_nil, List.length_cons] at hlength
    omega
  | x :: xs, [], h => by
    have hlength := congrArg List.length h
    rw [length_bytesBits, length_bytesBits, List.length_nil, List.length_cons] at hlength
    omega
  | x :: xs, y :: ys, h => by
    have hsplit : bitsOf 8 x.toNat ++ bytesBits xs = bitsOf 8 y.toNat ++ bytesBits ys := h
    obtain ⟨hfirst, hrest⟩ := List.append_inj hsplit (by rw [length_bitsOf, length_bitsOf])
    have hbyte : x = y := by
      apply UInt8.toNat_inj.mp
      rw [← numberOf_bitsOf x.toNat_lt, hfirst, numberOf_bitsOf y.toNat_lt]
    rw [hbyte, eq_of_bytesBits hrest]

end Format

open Format

namespace Crc

/-! ## Going back -/

/-- The generator ends in one. -/
theorem isUnit_x : IsUnit x := by
  have hlast : bitsOf 32 polynomial.toNat = bitsOf 31 (polynomial.toNat / 2) ++ [true] := by decide
  have hgenerator : x ^ 32 = message (bitsOf 31 (polynomial.toNat / 2)) * x + 1 := by
    rw [← residue_polynomial, ← message_true, ← pow_one x, ← List.length_singleton (a := true),
      ← message_append, ← hlast]
    rfl
  refine IsUnit.of_mul_eq_one (x ^ 31 - message (bitsOf 31 (polynomial.toNat / 2))) ?_
  rw [mul_sub, ← pow_succ', hgenerator]
  ring

/-- Registers that are told apart stay apart, whatever comes. -/
theorem updateBytes_injective (bytes : ByteArray) :
    Function.Injective fun crc : Crc => crc.updateBytes bytes := by
  intro a b h
  have hresidue := congrArg (fun crc : Crc => residue crc.register) h
  simp only [residue_updateBytes] at hresidue
  have hregister : a.register = b.register :=
    residue_injective ((isUnit_x.pow _).mul_left_cancel (add_right_cancel hresidue))
  exact congrArg mk hregister

instance : Finite Crc :=
  Finite.of_injective (fun crc : Crc => crc.register.toBitVec.toFin) (by
    rintro ⟨⟨⟨a⟩⟩⟩ ⟨⟨⟨b⟩⟩⟩ h
    cases h
    rfl)

theorem updateBytes_bijective (bytes : ByteArray) :
    Function.Bijective fun crc : Crc => crc.updateBytes bytes :=
  Finite.injective_iff_bijective.mp (updateBytes_injective bytes)

/-- What a register becomes tells what it took in, as long as it has room for that. -/
theorem eq_of_updateBytes {crc : Crc} {a b : ByteArray} (hsize : a.size = b.size)
    (hshort : a.size ≤ 4) (h : crc.updateBytes a = crc.updateBytes b) : a = b := by
  have hresidue := congrArg (fun crc : Crc => residue crc.register) h
  simp only [residue_updateBytes, hsize] at hresidue
  have hbits : bytesBits a.data.toList = bytesBits b.data.toList := by
    refine eq_of_message ?_ ?_ ((isUnit_x.pow 32).mul_right_cancel (add_left_cancel hresidue))
    · rw [length_bytesBits, length_bytesBits, ← ByteString.size_eq_length,
        ← ByteString.size_eq_length, hsize]
    · rw [length_bytesBits, ← ByteString.size_eq_length]
      omega
  exact ByteString.eq_of_toList (eq_of_bytesBits hbits)

/-- The four bytes that a word is written with. -/
def bytesOf (register : UInt32) : ByteArray := ⟨(pack (bitsOf 32 register.toNat)).toArray⟩

theorem bytesBits_bytesOf (register : UInt32) :
    bytesBits (bytesOf register).data.toList = bitsOf 32 register.toNat :=
  bytesBits_pack_of_dvd (by rw [length_bitsOf]; decide)

theorem size_bytesOf (register : UInt32) : (bytesOf register).size = 4 := by
  have h := congrArg List.length (bytesBits_bytesOf register)
  rw [length_bytesBits, length_bitsOf, ← ByteString.size_eq_length] at h
  omega

/-- Four bytes are taken in like clear ones, once they are part of the register. -/
theorem updateBytes_bytesOf (crc : Crc) (register : UInt32) :
    crc.updateBytes (bytesOf register)
      = (Crc.mk (crc.register ^^^ register)).updateBytes (bytesOf 0) := by
  have hclear : message (bitsOf 32 (0 : UInt32).toNat) = 0 := by
    rw [message, UInt32.toNat_zero, polynomialOf_bitsOf_zero, map_zero]
  have h : (crc.updateBytes (bytesOf register)).register
      = ((Crc.mk (crc.register ^^^ register)).updateBytes (bytesOf 0)).register := by
    apply residue_injective
    rw [residue_updateBytes, residue_updateBytes, size_bytesOf, size_bytesOf, bytesBits_bytesOf,
      bytesBits_bytesOf, residue_xor, hclear]
    change _ + residue register * x ^ 32 = _
    ring
  exact congrArg mk h

/-- Every register can be reached by four bytes, and by one choice of them. -/
theorem updateBytes_four_bijective (crc : Crc) :
    Function.Bijective fun bytes : { bytes : ByteArray // bytes.size = 4 } =>
      crc.updateBytes bytes := by
  refine ⟨fun a b h => ?_, fun goal => ?_⟩
  · exact Subtype.ext (eq_of_updateBytes (a.2.trans b.2.symm) a.2.le h)
  · obtain ⟨before, hbefore⟩ := (updateBytes_bijective (bytesOf 0)).2 goal
    refine ⟨⟨bytesOf (crc.register ^^^ before.register), size_bytesOf _⟩, ?_⟩
    change crc.updateBytes (bytesOf _) = goal
    rw [updateBytes_bytesOf, ← UInt32.xor_assoc, UInt32.xor_self, UInt32.zero_xor]
    exact hbefore

/-! ## Windows -/

/-- What stands around a window of four bytes does not hide a difference in it. -/
theorem ofBytes_window_ne {w v : ByteArray} (hsize : w.size = v.size) (hshort : w.size ≤ 4)
    (hne : w ≠ v) (p s : ByteArray) : ofBytes (p ++ w ++ s) ≠ ofBytes (p ++ v ++ s) := by
  intro h
  apply hne
  have hcut : ∀ m, start.updateBytes (p ++ m ++ s)
      = ((start.updateBytes p).updateBytes m).updateBytes s := fun m => by
    rw [updateBytes_append, updateBytes_append]
  have hcrc : start.updateBytes (p ++ w ++ s) = start.updateBytes (p ++ v ++ s) :=
    congrArg mk (UInt32.not_inj.mp h)
  rw [hcut, hcut] at hcrc
  exact eq_of_updateBytes hsize hshort (updateBytes_injective s hcrc)

/--
**The checksum notices every change within four bytes in a row**, whatever stands before and behind
them: taking in four bytes goes through all registers, once each, and taking in any bytes permutes
them. So a block is refused when the bytes that it has handed out differ like that from those that its
stored checksum belongs to.
-/
theorem notices_windows :
    (∀ p w v s : ByteArray, w.size = 4 → v.size = 4 → w ≠ v →
      ofBytes (p ++ w ++ s) ≠ ofBytes (p ++ v ++ s))
    ∧ (∀ crc : Crc, Function.Bijective fun bytes : { bytes : ByteArray // bytes.size = 4 } =>
      crc.updateBytes bytes)
    ∧ (∀ bytes : ByteArray, Function.Bijective fun crc : Crc => crc.updateBytes bytes)
    ∧ ∀ index bench block bench' notes (draws : List Draw) (p w v s : ByteArray),
      BlockDecoder.readBlock index bench = .ok block bench' notes →
      (∀ draw ∈ draws, draw.Accepted) →
      w.size = v.size → w.size ≤ 4 → w ≠ v →
      block.stored = ofBytes (p ++ w ++ s) →
      Draw.handedOut draws block = p ++ v ++ s →
      ∀ {σ : Type} (state : σ), ((Draw.after draws block).verify state).result
        = .error (.blockChecksum block.index block.stored (ofBytes (p ++ v ++ s))) := by
  refine ⟨fun p w v s hw hv hne => ofBytes_window_ne (hw.trans hv.symm) hw.le hne p s,
    updateBytes_four_bijective, updateBytes_bijective, ?_⟩
  intro index bench block bench' notes draws p w v s hread haccepted hsize hshort hne hstored hout σ
    state
  have hverify := ((BlockDecoder.accounted_of_readBlock hread draws haccepted).verify state).2
  have hdiffer : ofBytes (p ++ v ++ s) ≠ block.stored := by
    rw [hstored]
    exact (ofBytes_window_ne hsize hshort hne p s).symm
  rwa [hout, if_neg hdiffer] at hverify

/-- Four equal bytes with the checksum of bytes of which the third is another one. -/
def misstored : BitReader :=
  .ofSource (.ofBytes ⟨#[0xFA, 0xF9, 0x6C, 0x75, 0x00, 0x00, 0x02, 0x41, 0x00, 0x40, 0x00, 0x20, 0x00,
    0x20, 0x00, 0x21, 0x00, 0x82, 0x0B]⟩)

/-- What is read there. -/
def misstoredBlock : DecodedBlock := { fourEqualBlock with stored := 0xFAF96C75 }

/-- One byte in four is another one; all of the block goes into a sink, and then it is verified. -/
theorem notices_misstored :
    ofBytes (ByteArray.empty ++ ⟨#[0x61, 0x61, 0x62, 0x61]⟩ ++ ⟨#[0x0A]⟩)
        ≠ ofBytes (ByteArray.empty ++ ⟨#[0x61, 0x61, 0x61, 0x61]⟩ ++ ⟨#[0x0A]⟩)
      ∧ ofBytes (⟨#[0x61, 0x61]⟩ ++ ⟨#[0x62, 0x61]⟩ ++ ByteArray.empty) = misstoredBlock.stored
      ∧ (∃ bench notes,
        BlockDecoder.readBlock 1 (.ofDigit 1, misstored) = .ok misstoredBlock bench notes)
      ∧ ((Draw.after [.write .unbounded] misstoredBlock).verify ()).result
        = .error (.blockChecksum 1 0xFAF96C75 0x881233A6) := by
  have hstored : ofBytes (⟨#[0x61, 0x61]⟩ ++ ⟨#[0x62, 0x61]⟩ ++ ByteArray.empty)
      = misstoredBlock.stored := by decide +kernel
  have hvalue : ofBytes (⟨#[0x61, 0x61]⟩ ++ ⟨#[0x61, 0x61]⟩ ++ ByteArray.empty)
      = 0x881233A6 := by decide +kernel
  have hresult : (BlockDecoder.readBlock 1 (.ofDigit 1, misstored)).result = .ok misstoredBlock := by
    decide +kernel
  have hexpansion : misstoredBlock.expansion = [0x61, 0x61, 0x61, 0x61] := by decide +kernel
  have haccepted : ∀ draw ∈ [Draw.write .unbounded], draw.Accepted :=
    List.forall_mem_singleton.mpr rfl
  have hread := Outcome.eq_ok_of_result hresult
  have hout : Draw.handedOut [.write .unbounded] misstoredBlock
      = ⟨#[0x61, 0x61]⟩ ++ ⟨#[0x61, 0x61]⟩ ++ ByteArray.empty := by
    rw [Draw.handedOut, Draw.handedOut, Draw.perform_write _ rfl, ByteArray.append_empty]
    apply ByteString.eq_of_toList
    rw [DecodedBlock.toList_drained, BlockDecoder.left_of_readBlock hread, hexpansion]
    rfl
  have hnotices := notices_windows.2.2.2 1 _ misstoredBlock _ _ [.write .unbounded]
    ⟨#[0x61, 0x61]⟩ ⟨#[0x62, 0x61]⟩ ⟨#[0x61, 0x61]⟩ ByteArray.empty hread haccepted rfl
    (by decide) (by decide) hstored.symm hout ()
  rw [hvalue] at hnotices
  exact ⟨notices_windows.1 _ _ _ _ rfl rfl (by decide), hstored, ⟨_, _, hread⟩, hnotices⟩

end Crc

end Bunzip

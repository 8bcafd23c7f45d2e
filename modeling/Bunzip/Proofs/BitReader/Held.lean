import Bunzip.Proofs.Safety

/-!
# The bits held by a reader

The bits that were pulled and not yet handed out are the lowest ones of a word, and nothing stands
above them. As fields have at most 32 bits, there are never more than 39 of them, so pulling a byte
pushes none of them out. The operations on the word are ordinary arithmetic under these conditions.
-/

namespace Bunzip

/-! ## Words -/

theorem toNat_mask {n : Nat} (h : n < 64) :
    ((1 <<< UInt64.ofNat n) - 1 : UInt64).toNat = 2 ^ n - 1 := by
  have hshift : (1 <<< UInt64.ofNat n : UInt64).toNat = 2 ^ n := by
    rw [UInt64.toNat_shiftLeft, UInt64.toNat_one, UInt64.toNat_ofNat', Nat.shiftLeft_eq,
      Nat.one_mul, show n % 2 ^ 64 % 64 = n by omega,
      Nat.mod_eq_of_lt (Nat.pow_lt_pow_right (by decide) h)]
  have hle : (1 : UInt64) ≤ 1 <<< UInt64.ofNat n := by
    rw [UInt64.le_iff_toNat_le, hshift]
    exact Nat.one_le_two_pow
  rw [UInt64.toNat_sub_of_le _ _ hle, hshift, UInt64.toNat_one]

theorem toNat_and_mask (word : UInt64) {n : Nat} (h : n < 64) :
    (word &&& ((1 <<< UInt64.ofNat n) - 1)).toNat = word.toNat % 2 ^ n := by
  rw [UInt64.toNat_and, toNat_mask h, Nat.and_two_pow_sub_one_eq_mod]

theorem toNat_shiftRight_ofNat (word : UInt64) {n : Nat} (h : n < 64) :
    (word >>> UInt64.ofNat n).toNat = word.toNat / 2 ^ n := by
  rw [UInt64.toNat_shiftRight, UInt64.toNat_ofNat', show n % 2 ^ 64 % 64 = n by omega,
    Nat.shiftRight_eq_div_pow]

/-- A byte fits below a word whose upper eight bits are free. -/
theorem toNat_hold (word : UInt64) (byte : UInt8) (h : word.toNat < 2 ^ 56) :
    ((word <<< 8) ||| byte.toUInt64).toNat = word.toNat * 2 ^ 8 + byte.toNat := by
  have hbyte : byte.toNat < 2 ^ 8 := byte.toNat_lt
  have hshift : (word <<< 8).toNat = word.toNat <<< 8 := by
    rw [UInt64.toNat_shiftLeft]
    apply Nat.mod_eq_of_lt
    rw [Nat.shiftLeft_eq]
    change word.toNat * 2 ^ 8 < 2 ^ 64
    omega
  rw [UInt64.toNat_or, hshift, UInt8.toNat_toUInt64, ← Nat.shiftLeft_add_eq_or_of_lt hbyte,
    Nat.shiftLeft_eq]

namespace BitReader

/-! ## Readers in order -/

/-- Nothing stands above the bits held, and all of them have been pulled. -/
structure Intact (reader : BitReader) : Prop where
  held : reader.held.toNat < 2 ^ reader.count
  pulled : reader.count ≤ 8 * reader.pulled

/-- A reader as it is between two fields. -/
structure Sound (reader : BitReader) : Prop extends reader.Intact where
  count : reader.count ≤ 31

theorem sound_ofSource (source : Source) : (ofSource source).Sound :=
  ⟨⟨Nat.one_pos, Nat.le_refl 0⟩, Nat.zero_le 31⟩

theorem Intact.hasRoom {reader : BitReader} (h : reader.Intact) (few : reader.count ≤ 56) :
    reader.held.toNat < 2 ^ 56 :=
  Nat.lt_of_lt_of_le h.held (Nat.pow_le_pow_right (by decide) few)

theorem hasRoom_iff (reader : BitReader) : reader.hasRoom = true ↔ reader.held.toNat < 2 ^ 56 := by
  rw [hasRoom, decide_eq_true_iff, UInt64.lt_iff_toNat_lt]
  exact Iff.rfl

theorem Intact.hold {reader : BitReader} (h : reader.Intact) (few : reader.count ≤ 56)
    (byte : UInt8) : (reader.hold byte).Intact := by
  have hbyte : byte.toNat < 2 ^ 8 := byte.toNat_lt
  have hheld := h.held
  have hpulled := h.pulled
  constructor
  · simp only [BitReader.hold]
    rw [toNat_hold _ _ (h.hasRoom few), Nat.pow_add]
    omega
  · simp only [BitReader.hold]
    omega

/-- Pulling a byte pushes no bit out of the word. -/
theorem pull_intact {reader : BitReader} (h : reader.Intact) (few : reader.count ≤ 56) :
    match pull reader with
    | .ok _ after => after.Intact ∧ after.count = reader.count + 8
    | .error reason after => after.Intact ∧ after.count = reader.count ∧ reason.Blameless := by
  have hroom := (hasRoom_iff reader).mpr (h.hasRoom few)
  simp only [pull, hroom, Bool.not_true, Bool.false_eq_true, if_false]
  have hheld : ∀ byte, (reader.hold byte).held.toNat < 2 ^ (reader.count + 8) :=
    fun byte => (h.hold few byte).held
  have hpulled : reader.count + 8 ≤ 8 * (reader.pulled + 1) := (h.hold few 0).pulled
  by_cases ready : reader.cursor < reader.buffer.size
  · rw [dif_pos ready]
    exact ⟨⟨hheld _, hpulled⟩, rfl⟩
  · rw [dif_neg ready]
    rcases Source.ask Source.pieceLimit reader.source.deliveries with ⟨_ | bytes, deliveries⟩
    · exact ⟨⟨h.held, h.pulled⟩, rfl, fun _ => nofun⟩
    · by_cases more : 0 < bytes.size
      · simp only [dif_pos more]
        exact ⟨⟨hheld _, hpulled⟩, rfl⟩
      · simp only [dif_neg more]
        exact ⟨⟨h.held, h.pulled⟩, trivial, fun _ => nofun⟩

theorem pullMany_intact (n : Nat) {reader : BitReader} (h : reader.Intact)
    (few : reader.count + 8 * n ≤ 64) :
    match pullMany n reader with
    | .ok _ after => after.Intact ∧ after.count = reader.count + 8 * n
    | .error reason after =>
      after.Intact ∧ after.count + 8 ≤ reader.count + 8 * n ∧ reason.Blameless := by
  induction n generalizing reader with
  | zero => exact ⟨h, rfl⟩
  | succ n ih =>
    have first := pull_intact h (by omega)
    simp only [pullMany, Bind.bind, EStateM.bind]
    cases hp : pull reader with
    | error reason after =>
      rw [hp] at first
      obtain ⟨hafter, hcount, hreason⟩ := first
      exact ⟨hafter, by omega, hreason⟩
    | ok u after =>
      rw [hp] at first
      obtain ⟨hafter, hcount⟩ := first
      -- a byte is held now, and there is still room for the others
      have others := ih hafter (by omega)
      simp only
      cases hq : pullMany n after with
      | error reason last =>
        rw [hq] at others
        obtain ⟨hlast, hlastCount, hreason⟩ := others
        exact ⟨hlast, by omega, hreason⟩
      | ok v last =>
        rw [hq] at others
        obtain ⟨hlast, hlastCount⟩ := others
        exact ⟨hlast, by omega⟩

/-! ## Handing out a field -/

/-- The number that the first `n` bits held stand for. -/
def field (reader : BitReader) (n : Nat) : Nat := reader.held.toNat / 2 ^ (reader.count - n)

theorem Intact.field_lt {reader : BitReader} (h : reader.Intact) {n : Nat}
    (enough : n ≤ reader.count) : reader.field n < 2 ^ n := by
  have hheld := h.held
  rw [show reader.count = (reader.count - n) + n by omega, Nat.pow_add] at hheld
  exact Nat.div_lt_of_lt_mul hheld

/-- The reader without the first `n` of the bits held. -/
def dropField (reader : BitReader) (n : Nat) : BitReader :=
  { reader with
    held := reader.held &&& ((1 <<< UInt64.ofNat (reader.count - n)) - 1)
    count := reader.count - n }

theorem toNat_held_dropField {reader : BitReader} (few : reader.count < 64) (n : Nat) :
    (reader.dropField n).held.toNat = reader.held.toNat % 2 ^ (reader.count - n) :=
  toNat_and_mask _ (by omega)

theorem Intact.dropField {reader : BitReader} (h : reader.Intact) (few : reader.count < 64)
    (n : Nat) : (reader.dropField n).Intact := by
  constructor
  · rw [toNat_held_dropField few]
    exact Nat.mod_lt _ (Nat.two_pow_pos _)
  · have hpulled := h.pulled
    simp only [BitReader.dropField]
    omega

/-- Handing out bits that are held splits the number they stand for. -/
theorem take_eq {reader : BitReader} (h : reader.Intact) {n : Nat} (hn : n ≤ 32)
    (enough : n ≤ reader.count) (few : reader.count < 64) :
    ∃ value : UInt32, take n reader = .ok value (reader.dropField n)
      ∧ value.toNat = reader.field n := by
  have hlt : reader.field n < 2 ^ n := h.field_lt enough
  have hword : ((reader.held >>> UInt64.ofNat (reader.count - n))
      &&& ((1 <<< UInt64.ofNat n) - 1)).toNat = reader.field n := by
    rw [toNat_and_mask _ (by omega), toNat_shiftRight_ofNat _ (by omega)]
    exact Nat.mod_eq_of_lt hlt
  refine ⟨_, if_neg (by omega), ?_⟩
  rw [UInt64.toNat_toUInt32, hword]
  exact Nat.mod_eq_of_lt (Nat.lt_of_lt_of_le hlt (Nat.pow_le_pow_right (by decide) hn))

end BitReader

end Bunzip

import Bunzip.Proofs.BitReader.Held

/-!
# Reading bits is safe

Every field leaves a reader that is in order, also when the source fails or ends in the middle of it,
and its value has no more bits than were asked for.
-/

namespace Bunzip

/--
From a reader in order the computation reaches a reader in order; its value satisfies the condition,
or its failure is blameless.
-/
def Read.Safe {α : Type} (x : Read α) (post : α → Prop) : Prop :=
  ∀ reader : BitReader, reader.Sound → match x reader with
    | .ok a after => after.Sound ∧ post a
    | .error reason after => after.Sound ∧ reason.Blameless

namespace Read

variable {α β : Type} {post : α → Prop}

theorem Safe.of_ok {x : Read α} (h : x.Safe post) {reader after : BitReader} {a : α}
    (hreader : reader.Sound) (ran : x reader = .ok a after) : after.Sound ∧ post a := by
  have safe := h reader hreader
  rw [ran] at safe
  exact safe

theorem Safe.of_error {x : Read α} (h : x.Safe post) {reader after : BitReader}
    {reason : DecodeError} (hreader : reader.Sound) (ran : x reader = .error reason after) :
    after.Sound ∧ reason.Blameless := by
  have safe := h reader hreader
  rw [ran] at safe
  exact safe

theorem Safe.weaken {x : Read α} {weaker : α → Prop} (h : x.Safe post)
    (himp : ∀ a, post a → weaker a) : x.Safe weaker := by
  intro reader hreader
  have safe := h reader hreader
  cases hr : x reader with
  | ok a after => rw [hr] at safe; exact ⟨safe.1, himp a safe.2⟩
  | error reason after => rw [hr] at safe; exact safe

theorem Safe.pure {a : α} (ha : post a) : Safe (Pure.pure a) post :=
  fun _ hreader => ⟨hreader, ha⟩

theorem Safe.corrupt (reason : Corruption) : Safe (BitReader.corrupt reason : Read α) post :=
  fun _ hreader => ⟨hreader, fun _ => nofun⟩

theorem Safe.bind {x : Read α} {f : α → Read β} {last : β → Prop} (hx : x.Safe post)
    (hf : ∀ a, post a → (f a).Safe last) : Safe (x >>= f) last := by
  intro reader hreader
  simp only [Bind.bind, EStateM.bind]
  cases hr : x reader with
  | error reason after => exact hx.of_error hreader hr
  | ok a after =>
    obtain ⟨hafter, ha⟩ := hx.of_ok hreader hr
    exact hf a ha after hafter

theorem Safe.map {x : Read α} {f : α → β} {last : β → Prop} (hx : x.Safe post)
    (hf : ∀ a, post a → last (f a)) : Safe (x >>= fun a => Pure.pure (f a)) last :=
  hx.bind fun a ha => Safe.pure (hf a ha)

theorem Safe.op {x : Read α} (h : x.Safe post) : Op.Safe BitReader.Sound (Op.read x) post := by
  intro reader hreader
  simp only [Op.read]
  cases hr : x reader with
  | error reason after => exact h.of_error hreader hr
  | ok a after => exact h.of_ok hreader hr

end Read

namespace BitReader

theorem bits_eq {n : Nat} (hpos : 0 < n) (hle : n ≤ 32) (reader : BitReader) :
    bits n reader = match pullMany (reader.missing n) reader with
      | .ok _ after => take n after
      | .error reason after => .error reason after := by
  rw [bits, if_neg (by omega)]
  simp only [Bind.bind, EStateM.bind, MonadState.get, getThe, MonadStateOf.get, EStateM.get]
  cases pullMany (reader.missing n) reader <;> rfl

/-- How far the word is filled for a field. -/
theorem missing_bounds {reader : BitReader} {n : Nat} (hcount : reader.count ≤ 31) (hn : n ≤ 32) :
    n ≤ reader.count + 8 * reader.missing n ∧ reader.count + 8 * reader.missing n ≤ n + 31
      ∧ reader.count + 8 * reader.missing n ≤ 39
      ∧ (0 < reader.missing n → reader.count + 8 * reader.missing n ≤ n + 7) := by
  simp only [missing]
  omega

/-- A field of at most 32 bits never needs more than 39 bits in the word. -/
theorem safe_bits {n : Nat} (hpos : 0 < n) (hle : n ≤ 32) :
    (bits n).Safe fun value => value.toNat < 2 ^ n := by
  intro reader hreader
  rw [bits_eq hpos hle]
  obtain ⟨henough, hmost, hfew, _⟩ := missing_bounds hreader.count hle
  have hpull := pullMany_intact (reader.missing n) hreader.toIntact (by omega)
  cases hp : pullMany (reader.missing n) reader with
  | error reason after =>
    rw [hp] at hpull
    obtain ⟨hafter, hcount, hreason⟩ := hpull
    exact ⟨⟨hafter, by omega⟩, hreason⟩
  | ok u after =>
    rw [hp] at hpull
    obtain ⟨hafter, hcount⟩ := hpull
    obtain ⟨value, htake, hvalue⟩ := take_eq hafter hle (by omega) (by omega : after.count < 64)
    simp only [htake]
    refine ⟨⟨hafter.dropField (by omega) n, ?_⟩, ?_⟩
    · simp only [dropField]
      omega
    · rw [hvalue]
      exact hafter.field_lt (by omega)

theorem safe_number {n : Nat} (hpos : 0 < n) (hle : n ≤ 32) :
    (number n).Safe fun value => value < 2 ^ n :=
  (safe_bits hpos hle).map fun _ h => h

theorem safe_bit : bit.Safe fun _ => True :=
  (safe_bits (by decide) (by decide)).map fun _ _ => trivial

theorem safe_onesAfter (limit count : Nat) :
    (onesAfter count limit).Safe fun ones => ones ≤ count + limit := by
  induction limit generalizing count with
  | zero => exact .pure (Nat.le_refl count)
  | succ limit ih =>
    refine safe_bit.bind fun more _ => ?_
    cases more with
    | true => exact (ih (count + 1)).weaken fun ones h => by omega
    | false => exact .pure (by omega)

theorem safe_word : word.Safe fun _ => True :=
  (safe_bits (by decide) (by decide)).bind fun _ _ =>
    (safe_bits (by decide) (by decide)).map fun _ _ => trivial

theorem safe_byte : byte.Safe fun _ => True :=
  (safe_bits (by decide) (by decide)).map fun _ _ => trivial

theorem safe_bytesOnto (n : Nat) (out : ByteArray) : (bytesOnto out n).Safe fun _ => True := by
  induction n generalizing out with
  | zero => exact .pure trivial
  | succ n ih => exact safe_byte.bind fun next _ => ih (out.push next)

end BitReader

end Bunzip

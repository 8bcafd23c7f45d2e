import Bunzip.BitReader

/-!
# How many bits a computation spends

`x.Spends n` says that `x` never makes bits appear, and that it has handed out at least `n` bits
whenever it succeeds. It holds of a field by its width and of a longer computation by the sum of its
parts, so a loop that spends a bit in every round comes to an end.
-/

namespace Bunzip

/-! ## Sources lose nothing -/

/-- What an answer of a source holds and what is left after it. -/
theorem Source.ask_size (limit : Nat) (deliveries : List Delivery) :
    (match (Source.ask limit deliveries).1 with | .ok bytes => bytes.size | .error _ => 0) +
      Source.size ⟨(Source.ask limit deliveries).2⟩ = Source.size ⟨deliveries⟩ := by
  induction deliveries with
  | nil => rfl
  | cons delivery rest ih =>
    cases delivery with
    | bytes data =>
      by_cases fits : data.size ≤ limit
      · simp [Source.ask, fits, Source.size, Delivery.size]
      · have cut : (data.extract 0 limit).size = limit := by
          simp only [ByteArray.size_extract]
          omega
        simp only [Source.ask, if_neg fits, cut, Source.size, Delivery.size, List.foldr_cons,
          ByteArray.size_extract]
        omega
    | fault error =>
      by_cases again : error.kind = .interrupted
      · simp only [Source.ask, if_pos again]
        rw [ih]
        simp [Source.size, Delivery.size]
      · simp [Source.ask, again, Source.size, Delivery.size]

/-! ## Spending -/

namespace Read

/-- At least `n` bits are handed out by every success, and no bits appear in any case. -/
def Spends {α : Type} (n : Nat) (x : Read α) : Prop :=
  ∀ reader, match x reader with
    | .ok _ after => after.bitsLeft + n ≤ reader.bitsLeft
    | .error _ after => after.bitsLeft ≤ reader.bitsLeft

theorem Spends.of_ok {α : Type} {n : Nat} {x : Read α} (h : Spends n x) {reader after : BitReader}
    {a : α} (ran : x reader = .ok a after) : after.bitsLeft + n ≤ reader.bitsLeft := by
  have spent := h reader
  rw [ran] at spent
  exact spent

theorem Spends.mono {α : Type} {m n : Nat} {x : Read α} (h : Spends n x) (le : m ≤ n) :
    Spends m x := by
  intro reader
  have spent := h reader
  cases hr : x reader with
  | error e after => rw [hr] at spent; exact spent
  | ok a after => rw [hr] at spent; exact Nat.le_trans (Nat.add_le_add_left le _) spent

theorem Spends.pure {α : Type} (a : α) : Spends 0 (Pure.pure a : Read α) :=
  fun _ => Nat.le_refl _

theorem Spends.throw {α : Type} (n : Nat) (e : DecodeError) :
    Spends n (MonadExcept.throw e : Read α) :=
  fun _ => Nat.le_refl _

theorem Spends.corrupt {α : Type} (n : Nat) (reason : Corruption) :
    Spends n (BitReader.corrupt reason : Read α) :=
  fun _ => Nat.le_refl _

theorem Spends.bind {α β : Type} {m n : Nat} {x : Read α} {f : α → Read β}
    (hx : Spends m x) (hf : ∀ a, Spends n (f a)) : Spends (m + n) (x >>= f) := by
  intro reader
  have first := hx reader
  simp only [Bind.bind, EStateM.bind]
  cases hr : x reader with
  | error e after => simpa [hr] using first
  | ok a after =>
    rw [hr] at first
    have second := hf a after
    simp only at first ⊢
    cases hs : f a after with
    | error e last => rw [hs] at second; simp only at second ⊢; omega
    | ok b last => rw [hs] at second; simp only at second ⊢; omega

theorem Spends.any {α : Type} {n : Nat} {x : Read α} (h : Spends n x) : Spends 0 x :=
  h.mono (Nat.zero_le n)

/-- The case of `Spends.bind` that only says that no bits appear. -/
theorem Spends.andThen {α β : Type} {x : Read α} {f : α → Read β}
    (hx : Spends 0 x) (hf : ∀ a, Spends 0 (f a)) : Spends 0 (x >>= f) :=
  hx.bind hf

theorem Spends.map {α β : Type} {n : Nat} {x : Read α} (f : α → β) (hx : Spends n x) :
    Spends n (x >>= fun a => Pure.pure (f a)) :=
  hx.bind fun a => Spends.pure (f a)

end Read

/-! ## Fields -/

namespace BitReader

/-- Pulling a byte moves it from the source into the word, and hands out nothing. -/
theorem pull_bitsLeft (reader : BitReader) :
    match pull reader with
    | .ok _ after => after.bitsLeft = reader.bitsLeft ∧ after.count = reader.count + 8
    | .error _ after => after.bitsLeft = reader.bitsLeft := by
  unfold pull
  by_cases full : !reader.hasRoom
  · simp only [if_pos full]
  simp only [if_neg full]
  by_cases ready : reader.cursor < reader.buffer.size
  · simp only [dif_pos ready, bitsLeft, hold, and_true]
    omega
  · simp only [dif_neg ready]
    have answer := Source.ask_size Source.pieceLimit reader.source.deliveries
    rcases hask : Source.ask Source.pieceLimit reader.source.deliveries with ⟨result, deliveries⟩
    rw [hask, show (⟨reader.source.deliveries⟩ : Source) = reader.source from rfl] at answer
    cases result with
    | error e =>
      simp only [bitsLeft] at answer ⊢
      omega
    | ok bytes =>
      simp only at answer
      by_cases more : 0 < bytes.size
      · simp only [dif_pos more, bitsLeft, hold, and_true]
        omega
      · simp only [dif_neg more, bitsLeft]
        omega

theorem pullMany_bitsLeft (n : Nat) (reader : BitReader) :
    match pullMany n reader with
    | .ok _ after => after.bitsLeft = reader.bitsLeft ∧ after.count = reader.count + 8 * n
    | .error _ after => after.bitsLeft = reader.bitsLeft := by
  induction n generalizing reader with
  | zero => exact ⟨rfl, rfl⟩
  | succ n ih =>
    have first := pull_bitsLeft reader
    simp only [pullMany, Bind.bind, EStateM.bind]
    cases hp : pull reader with
    | error e after => simpa [hp] using first
    | ok u after =>
      rw [hp] at first
      have others := ih after
      simp only at first ⊢
      cases hq : pullMany n after with
      | error e last => rw [hq] at others; simp only at others ⊢; omega
      | ok v last => rw [hq] at others; simp only at others ⊢; omega

theorem spends_bits (n : Nat) : Read.Spends n (bits n) := by
  unfold bits
  by_cases bad : n = 0 ∨ 32 < n
  · rw [if_pos bad]
    exact Read.Spends.throw n _
  · rw [if_neg bad]
    intro reader
    have pulled := pullMany_bitsLeft (reader.missing n) reader
    simp only [Bind.bind, EStateM.bind, MonadState.get, getThe, MonadStateOf.get]
    delta EStateM.get
    simp only
    cases hp : pullMany (reader.missing n) reader with
    | error e after => rw [hp] at pulled; simp only at pulled ⊢; omega
    | ok u after =>
      rw [hp] at pulled
      simp only [take] at pulled ⊢
      by_cases few : after.count < n ∨ 64 ≤ after.count
      · rw [if_pos few]
        exact Nat.le_of_eq pulled.1
      · rw [if_neg few]
        simp only [bitsLeft, missing] at pulled ⊢
        omega

theorem spends_number (n : Nat) : Read.Spends n (number n) := (spends_bits n).map _

theorem spends_bit : Read.Spends 1 bit := (spends_bits 1).map _

theorem spends_onesAfter (count limit : Nat) : Read.Spends (min 1 limit) (onesAfter count limit) := by
  induction limit generalizing count with
  | zero => exact Read.Spends.pure count
  | succ limit ih =>
    rw [Nat.min_eq_left (Nat.le_add_left 1 limit)]
    refine spends_bit.bind (n := 0) fun more => ?_
    cases more with
    | true => exact (ih (count + 1)).any
    | false => exact Read.Spends.pure count

/-- Counting ones spends a bit, unless already none of them is one too many. -/
theorem spends_ones (limit : Nat) : Read.Spends (min 1 limit) (ones limit) := spends_onesAfter 0 limit

theorem spends_word : Read.Spends 32 word :=
  (spends_bits 16).bind fun _ => (spends_bits 16).map _

end BitReader

end Bunzip

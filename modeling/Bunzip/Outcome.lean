import Bunzip.Note
import Bunzip.BitReader.Spending

/-!
# Operations that take notes

An operation changes a state, succeeds or fails, and takes notes on the way. The notes are an output
and nothing else: no operation can look at those taken before it. After a failure the state is the
one reached, and the notes are those taken until then.
-/

namespace Bunzip

/-- What came of an operation. -/
inductive Outcome (σ α : Type) where
  | ok (value : α) (state : σ) (notes : List Note)
  | error (reason : DecodeError) (state : σ) (notes : List Note)

namespace Outcome

variable {σ τ α β : Type}

/-- The value or the reason. -/
def result : Outcome σ α → Except DecodeError α
  | ok value _ _ => .ok value
  | error reason _ _ => .error reason

/-- The state reached. -/
def state : Outcome σ α → σ
  | ok _ state _ => state
  | error _ state _ => state

/-- The notes taken, in order. -/
def notes : Outcome σ α → List Note
  | ok _ _ notes => notes
  | error _ _ notes => notes

/-- The same outcome, with notes that were taken before. -/
@[inline] def after (earlier : List Note) : Outcome σ α → Outcome σ α
  | ok value state notes => ok value state (earlier ++ notes)
  | error reason state notes => error reason state (earlier ++ notes)

/-- The same outcome, seen in another state. -/
@[inline] def withState (f : σ → τ) : Outcome σ α → Outcome τ α
  | ok value state notes => ok value (f state) notes
  | error reason state notes => error reason (f state) notes

end Outcome

/-- An operation on a state that may fail and takes notes. -/
def Op (σ α : Type) : Type := σ → Outcome σ α

namespace Op

variable {σ τ α β : Type}

@[always_inline]
instance : Monad (Op σ) where
  pure value := fun state => .ok value state []
  bind op next := fun state =>
    match op state with
    | .ok value state notes => (next value state).after notes
    | .error reason state notes => .error reason state notes

/-- Takes a note. -/
@[inline] def note (note : Note) : Op σ Unit := fun state => .ok () state [note]

/-- Takes notes. -/
@[inline] def noteAll (notes : List Note) : Op σ Unit := fun state => .ok () state notes

/-- Fails. -/
@[inline] def fail (reason : DecodeError) : Op σ α := fun state => .error reason state []

/-- The state. -/
@[inline] def get : Op σ σ := fun state => .ok state state []

/-- Changes the state. -/
@[inline] def modify (f : σ → σ) : Op σ Unit := fun state => .ok () (f state) []

/-- Runs a computation that takes no notes, like one that reads bits. -/
@[inline] def read (x : EStateM DecodeError σ α) : Op σ α := fun state =>
  match x state with
  | .ok value state => .ok value state []
  | .error reason state => .error reason state []

theorem read_bind (x : EStateM DecodeError σ α) (f : α → EStateM DecodeError σ β) :
    read (x >>= f) = read x >>= fun a => read (f a) := by
  funext state
  simp only [read, Bind.bind, EStateM.bind]
  cases x state with
  | error reason after => rfl
  | ok a after =>
    simp only
    cases f a after <;> rfl

/-! ## Spending -/

/--
An operation on a state with a measure spends `n` if it never raises the measure, and lowers it by
at least `n` whenever it succeeds.
-/
def Spends (measure : σ → Nat) (n : Nat) (op : Op σ α) : Prop :=
  ∀ state, match op state with
    | .ok _ after _ => measure after + n ≤ measure state
    | .error _ after _ => measure after ≤ measure state

variable {measure : σ → Nat}

theorem Spends.of_ok {n : Nat} {op : Op σ α} (h : Spends measure n op) {state after : σ} {a : α}
    {notes : List Note} (ran : op state = .ok a after notes) :
    measure after + n ≤ measure state := by
  have spent := h state
  rw [ran] at spent
  exact spent

theorem Spends.mono {m n : Nat} {op : Op σ α} (h : Spends measure n op) (le : m ≤ n) :
    Spends measure m op := by
  intro state
  have spent := h state
  cases hr : op state with
  | error e after notes => rw [hr] at spent; exact spent
  | ok a after notes => rw [hr] at spent; exact Nat.le_trans (Nat.add_le_add_left le _) spent

theorem Spends.pure (a : α) : Spends measure 0 (Pure.pure a : Op σ α) :=
  fun _ => Nat.le_refl _

theorem Spends.fail (n : Nat) (reason : DecodeError) :
    Spends measure n (Op.fail reason : Op σ α) :=
  fun _ => Nat.le_refl _

theorem Spends.note (n : Note) : Spends measure 0 (Op.note n : Op σ Unit) :=
  fun _ => Nat.le_refl _

theorem Spends.noteAll (ns : List Note) : Spends measure 0 (Op.noteAll ns : Op σ Unit) :=
  fun _ => Nat.le_refl _

theorem Spends.get : Spends measure 0 (Op.get : Op σ σ) :=
  fun _ => Nat.le_refl _

theorem Spends.modify {f : σ → σ} (h : ∀ state, measure (f state) ≤ measure state) :
    Spends measure 0 (Op.modify f) :=
  fun state => h state

theorem Spends.bind {m n : Nat} {op : Op σ α} {next : α → Op σ β}
    (hop : Spends measure m op) (hnext : ∀ a, Spends measure n (next a)) :
    Spends measure (m + n) (op >>= next) := by
  intro state
  have first := hop state
  simp only [Bind.bind]
  cases hr : op state with
  | error e after notes => rw [hr] at first; exact first
  | ok a after notes =>
    rw [hr] at first
    have second := hnext a after
    simp only at first ⊢
    cases hs : next a after with
    | error e last _ => rw [hs] at second; simp only [Outcome.after] at second ⊢; omega
    | ok b last _ => rw [hs] at second; simp only [Outcome.after] at second ⊢; omega

theorem Spends.any {n : Nat} {op : Op σ α} (h : Spends measure n op) : Spends measure 0 op :=
  h.mono (Nat.zero_le n)

/-- The case of `Spends.bind` that only says that the measure does not rise. -/
theorem Spends.andThen {op : Op σ α} {next : α → Op σ β}
    (hop : Spends measure 0 op) (hnext : ∀ a, Spends measure 0 (next a)) :
    Spends measure 0 (op >>= next) :=
  hop.bind hnext

theorem Spends.read {n : Nat} {x : Read α} (h : Read.Spends n x) :
    Spends BitReader.bitsLeft n (Op.read x) := by
  intro reader
  have spent := h reader
  simp only [Op.read]
  cases hr : x reader with
  | error e after => rw [hr] at spent; exact spent
  | ok a after => rw [hr] at spent; exact spent

end Op

end Bunzip

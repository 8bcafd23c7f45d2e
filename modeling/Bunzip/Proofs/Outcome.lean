import Bunzip.Outcome
import Mathlib

/-!
# What operations leave alone

An operation keeps a part of its state if the part is the same afterwards, whether it succeeds or
fails. That holds of a longer operation if it holds of each part.
-/

namespace Bunzip

namespace Outcome

variable {σ τ α β : Type}

/-- An outcome is made up of its result, its notes and its state. -/
theorem ext {a b : Outcome σ α} (hresult : a.result = b.result) (hnotes : a.notes = b.notes)
    (hstate : a.state = b.state) : a = b := by
  cases a <;> cases b <;> simp_all [result, notes, state]

/-- A value has come with the state that was reached and the notes that were taken. -/
theorem eq_ok_of_result {outcome : Outcome σ α} {a : α} (h : outcome.result = .ok a) :
    outcome = .ok a outcome.state outcome.notes :=
  ext h rfl rfl

theorem eq_error_of_result {outcome : Outcome σ α} {reason : DecodeError}
    (h : outcome.result = .error reason) :
    outcome = .error reason outcome.state outcome.notes :=
  ext h rfl rfl

@[simp] theorem result_after (earlier : List Note) (outcome : Outcome σ α) :
    (outcome.after earlier).result = outcome.result := by
  cases outcome <;> rfl

@[simp] theorem state_after (earlier : List Note) (outcome : Outcome σ α) :
    (outcome.after earlier).state = outcome.state := by
  cases outcome <;> rfl

@[simp] theorem notes_after (earlier : List Note) (outcome : Outcome σ α) :
    (outcome.after earlier).notes = earlier ++ outcome.notes := by
  cases outcome <;> rfl

@[simp] theorem notes_withState (f : σ → τ) (outcome : Outcome σ α) :
    (outcome.withState f).notes = outcome.notes := by
  cases outcome <;> rfl

@[simp] theorem result_withState (f : σ → τ) (outcome : Outcome σ α) :
    (outcome.withState f).result = outcome.result := by
  cases outcome <;> rfl

@[simp] theorem state_withState (f : σ → τ) (outcome : Outcome σ α) :
    (outcome.withState f).state = f outcome.state := by
  cases outcome <;> rfl

theorem after_nil (outcome : Outcome σ α) : outcome.after [] = outcome := by
  cases outcome <;> rfl

theorem after_after (first second : List Note) (outcome : Outcome σ α) :
    (outcome.after second).after first = outcome.after (first ++ second) := by
  cases outcome <;> simp only [after, List.append_assoc]

end Outcome

namespace Op

variable {σ τ α β γ : Type}

theorem bind_eq (op : Op σ α) (next : α → Op σ β) (state : σ) :
    (op >>= next) state = match op state with
      | .ok value state notes => (next value state).after notes
      | .error reason state notes => .error reason state notes := rfl

theorem bind_assoc (op : Op σ α) (next : α → Op σ β) (last : β → Op σ γ) :
    op >>= next >>= last = op >>= fun a => next a >>= last := by
  funext state
  simp only [bind_eq]
  cases op state with
  | error reason stopped first => rfl
  | ok a middle first =>
    simp only
    cases hs : next a middle with
    | error reason stopped second => rfl
    | ok b after second => exact (Outcome.after_after first second (last b after)).symm

/-- A success of two operations in a row is a success of each. -/
theorem ok_of_bind {op : Op σ α} {next : α → Op σ β} {state last : σ} {b : β} {notes : List Note}
    (h : (op >>= next) state = .ok b last notes) :
    ∃ a middle first second, op state = .ok a middle first ∧ next a middle = .ok b last second
      ∧ notes = first ++ second := by
  rw [bind_eq] at h
  cases hr : op state with
  | error reason after first => rw [hr] at h; cases h
  | ok a middle first =>
    rw [hr] at h
    cases hs : next a middle with
    | error reason after second => simp only [hs] at h; cases h
    | ok b' last' second =>
      simp only [hs] at h
      cases h
      exact ⟨a, middle, first, second, rfl, hs, rfl⟩

/-- Once the first of two operations has succeeded, it is the second one that matters. -/
theorem bind_of_eq_ok {op : Op σ α} {state middle : σ} {a : α} {first : List Note}
    (h : op state = .ok a middle first) (next : α → Op σ β) :
    (op >>= next) state = (next a middle).after first := by rw [bind_eq, h]

theorem Spends.of_result {measure : σ → Nat} {n : Nat} {op : Op σ α} (h : Spends measure n op)
    {state : σ} {a : α} (hresult : (op state).result = .ok a) :
    measure (op state).state + n ≤ measure state :=
  h.of_ok (Outcome.eq_ok_of_result hresult)

/-- A part of the state is the same after the operation. -/
def Keeps (part : σ → τ) (op : Op σ α) : Prop := ∀ state, part (op state).state = part state

variable {part : σ → τ}

theorem Keeps.of_ok {op : Op σ α} (h : Keeps part op) {state after : σ} {a : α} {notes : List Note}
    (ran : op state = .ok a after notes) : part after = part state := by
  have kept := h state
  rw [ran] at kept
  exact kept

theorem Keeps.of_error {op : Op σ α} (h : Keeps part op) {state after : σ} {reason : DecodeError}
    {notes : List Note} (ran : op state = .error reason after notes) : part after = part state := by
  have kept := h state
  rw [ran] at kept
  exact kept

theorem Keeps.pure (a : α) : Keeps part (Pure.pure a : Op σ α) := fun _ => rfl

theorem Keeps.fail (reason : DecodeError) : Keeps part (Op.fail reason : Op σ α) := fun _ => rfl

theorem Keeps.note (n : Note) : Keeps part (Op.note n) := fun _ => rfl

theorem Keeps.get : Keeps part (Op.get : Op σ σ) := fun _ => rfl

theorem Keeps.modify {f : σ → σ} (h : ∀ state, part (f state) = part state) :
    Keeps part (Op.modify f) := h

theorem Keeps.bind {op : Op σ α} {next : α → Op σ β} (hop : Keeps part op)
    (hnext : ∀ a, Keeps part (next a)) : Keeps part (op >>= next) := by
  intro state
  rw [bind_eq]
  cases hr : op state with
  | error reason after notes => exact hop.of_error hr
  | ok a after notes =>
    simp only [Outcome.state_after]
    exact (hnext a after).trans (hop.of_ok hr)

end Op

end Bunzip

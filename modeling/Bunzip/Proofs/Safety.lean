import Bunzip.Proofs.Outcome

/-!
# Computations without defects

A computation is safe if it leads from states that are in order to states that are in order, and if
it never fails with a defect, which is what stands for an index out of range, an overflow or a failed
assertion. What is known about its result is part of the statement, since the computations after it
may be safe for no other reason.
-/

namespace Bunzip

/-- A failure that the library is not to blame for. -/
def DecodeError.Blameless (reason : DecodeError) : Prop := ∀ what, reason ≠ .defect what

/-- A state that satisfies the invariant was reached, with a fitting value or a blameless failure. -/
def Outcome.Safe {σ α : Type} (inv : σ → Prop) (post : α → Prop) : Outcome σ α → Prop
  | .ok a after _ => inv after ∧ post a
  | .error reason after _ => inv after ∧ reason.Blameless

theorem Outcome.Safe.after {σ α : Type} {inv : σ → Prop} {post : α → Prop} {outcome : Outcome σ α}
    (h : outcome.Safe inv post) (earlier : List Note) : (outcome.after earlier).Safe inv post := by
  cases outcome <;> exact h

/-- The outcome is safe from every state that satisfies the invariant. -/
def Op.Safe {σ α : Type} (inv : σ → Prop) (op : Op σ α) (post : α → Prop) : Prop :=
  ∀ state, inv state → (op state).Safe inv post

namespace Op

variable {σ α β : Type} {inv : σ → Prop} {post : α → Prop}

theorem Safe.of_ok {op : Op σ α} (h : Safe inv op post) {state after : σ} {a : α}
    {notes : List Note} (hstate : inv state) (ran : op state = .ok a after notes) :
    inv after ∧ post a := by
  have safe := h state hstate
  rw [ran] at safe
  exact safe

theorem Safe.of_error {op : Op σ α} (h : Safe inv op post) {state after : σ} {reason : DecodeError}
    {notes : List Note} (hstate : inv state) (ran : op state = .error reason after notes) :
    inv after ∧ reason.Blameless := by
  have safe := h state hstate
  rw [ran] at safe
  exact safe

theorem Safe.state {op : Op σ α} (h : Safe inv op post) {state : σ} (hstate : inv state) :
    inv (op state).state := by
  have safe := h state hstate
  cases hr : op state <;> rw [hr] at safe <;> exact safe.1

theorem Safe.result {op : Op σ α} (h : Safe inv op post) {state : σ} (hstate : inv state)
    (what : Defect) : (op state).result ≠ .error (.defect what) := by
  have safe := h state hstate
  cases hr : op state with
  | ok a after notes => exact fun h => nomatch h
  | error reason after notes =>
    rw [hr] at safe
    intro heq
    exact safe.2 what (Except.error.inj heq)

theorem Safe.weaken {op : Op σ α} {weaker : α → Prop} (h : Safe inv op post)
    (himp : ∀ a, post a → weaker a) : Safe inv op weaker := by
  intro state hstate
  have safe := h state hstate
  cases hr : op state with
  | ok a after notes => rw [hr] at safe; exact ⟨safe.1, himp a safe.2⟩
  | error reason after notes => rw [hr] at safe; exact safe

/-- What is known for each value that a part of the state may have. -/
theorem Safe.for_each {τ : Type} {part : σ → τ} {op : Op σ α} {post : τ → α → Prop}
    {weaker : α → Prop} (h : ∀ t, Safe (fun state => inv state ∧ part state = t) op (post t))
    (himp : ∀ state, inv state → ∀ a, post (part state) a → weaker a) : Safe inv op weaker := by
  intro state hstate
  have safe := h (part state) state ⟨hstate, rfl⟩
  cases hr : op state with
  | ok a after notes => rw [hr] at safe; exact ⟨safe.1.1, himp state hstate a safe.2⟩
  | error reason after notes => rw [hr] at safe; exact ⟨safe.1.1, safe.2⟩

/-- What the operation leaves alone can be part of the invariant. -/
theorem Safe.keeping {τ : Type} {part : σ → τ} {op : Op σ α} {t : τ} (h : Safe inv op post)
    (hkeeps : Keeps part op) : Safe (fun state => inv state ∧ part state = t) op post := by
  rintro state ⟨hstate, hpart⟩
  have safe := h state hstate
  have kept := (hkeeps state).trans hpart
  cases hr : op state with
  | ok a after notes => rw [hr] at safe kept; exact ⟨⟨safe.1, kept⟩, safe.2⟩
  | error reason after notes => rw [hr] at safe kept; exact ⟨⟨safe.1, kept⟩, safe.2⟩

theorem Safe.pure {a : α} (ha : post a) : Safe inv (Pure.pure a : Op σ α) post :=
  fun _ hstate => ⟨hstate, ha⟩

theorem Safe.fail {reason : DecodeError} (h : reason.Blameless) :
    Safe inv (Op.fail reason : Op σ α) post :=
  fun _ hstate => ⟨hstate, h⟩

theorem Safe.note (n : Note) : Safe inv (Op.note n) fun _ => True :=
  fun _ hstate => ⟨hstate, trivial⟩

theorem Safe.noteAll (ns : List Note) : Safe inv (Op.noteAll ns) fun _ => True :=
  fun _ hstate => ⟨hstate, trivial⟩

theorem Safe.get : Safe inv (Op.get : Op σ σ) inv :=
  fun _ hstate => ⟨hstate, hstate⟩

theorem Safe.modify {f : σ → σ} (h : ∀ state, inv state → inv (f state)) :
    Safe inv (Op.modify f) fun _ => True :=
  fun state hstate => ⟨h state hstate, trivial⟩

theorem Safe.bind {op : Op σ α} {next : α → Op σ β} {last : β → Prop} (hop : Safe inv op post)
    (hnext : ∀ a, post a → Safe inv (next a) last) : Safe inv (op >>= next) last := by
  intro state hstate
  rw [bind_eq]
  cases hr : op state with
  | error reason after notes => exact hop.of_error hstate hr
  | ok a after notes =>
    obtain ⟨hafter, ha⟩ := hop.of_ok hstate hr
    exact (hnext a ha after hafter).after notes

end Op

end Bunzip

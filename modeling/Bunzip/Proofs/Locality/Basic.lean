import Bunzip.Proofs.Format.Reads

/-!
# Only the bits that are read matter

Over a source without mishaps, an operation reads a front of the bits before it, and that front
decides everything: how the operation turns out, what it notes and which state it reaches. Whatever
bits come later make no difference, and neither does it matter how far ahead bytes have been pulled.
If the source ends inside that front, the operation fails because the input has ended, and the place
it reports is less than one field away from the end.

An operation with this property is called local. Reading a field is local, and a longer operation is
local if its parts are.
-/

namespace Bunzip

/-- More bits than this are never asked for at once. -/
def fieldLimit : Nat := 24

/-- A reader that has handed out `place` bits and has exactly these before it. -/
structure BitReader.Stands (place : Nat) (bits : List Bool) (reader : BitReader) : Prop extends
    reader.At bits where
  position : reader.position = place

/--
How a state is seen: a reader, and the rest. Of the rest it is known what can only grow, which is
what cannot be taken back any more.
-/
structure View (σ τ : Type) where
  reader : σ → BitReader
  rest : σ → τ
  le : τ → τ → Prop
  le_refl : ∀ t, le t t
  le_trans : ∀ {a b c}, le a b → le b c → le a c

variable {σ τ ρ υ α β : Type}

namespace View

/-- The rest is this, and the reader stands at this place before these bits. -/
structure Stands (view : View σ τ) (t : τ) (place : Nat) (bits : List Bool) (state : σ) : Prop where
  rest : view.rest state = t
  reader : (view.reader state).Stands place bits

/-- A reader on its own. -/
def alone : View BitReader Unit where
  reader := id
  rest _ := ()
  le _ _ := True
  le_refl _ := trivial
  le_trans _ _ := trivial

end View

/-- What comes of an operation: the bits that it reads, how it turns out and the rest it leaves. -/
structure Reading (τ α : Type) where
  front : List Bool
  result : Except DecodeError α
  notes : List Note
  rest : τ

/-- The reading did not run into the end of the input. -/
def Reading.Complete (reading : Reading τ α) : Prop := ∀ q, reading.result ≠ .error (.endOfStream q)

namespace Op

variable {view : View σ τ} {op : Op σ α} {t : τ} {place : Nat} {later : List Bool}

/-- The outcome is what the reading says, and the reader stands right behind its bits. -/
structure Agrees (view : View σ τ) (outcome : Outcome σ α) (place : Nat) (later : List Bool)
    (reading : Reading τ α) : Prop where
  result : outcome.result = reading.result
  notes : outcome.notes = reading.notes
  state : view.Stands reading.rest (place + reading.front.length) later outcome.state

/--
The reading decides the outcome of the operation. It does so whatever comes after its bits, unless it
is about the end of the input; and where the input ends inside its bits, the operation says so.
-/
structure Decides (view : View σ τ) (op : Op σ α) (t : τ) (place : Nat) (later : List Bool)
    (reading : Reading τ α) : Prop where
  grows : view.le t reading.rest
  agrees : ∀ state others, (others = later ∨ reading.Complete) →
    view.Stands t place (reading.front ++ others) state → Agrees view (op state) place others reading
  ended : ∀ q, reading.result = .error (.endOfStream q) →
    q = place + reading.front.length ∧ later.length < fieldLimit
  cut : ∀ state before more, reading.front = before ++ more → more ≠ [] →
    view.Stands t place before state →
    ∃ q, (op state).result = .error (.endOfStream q) ∧ q ≤ place + before.length
      ∧ place + before.length < q + fieldLimit ∧ view.le (view.rest (op state).state) reading.rest

/-- With these bits before the reader, some reading of a front of them decides the outcome. -/
def Decided (view : View σ τ) (op : Op σ α) (t : τ) (place : Nat) (bits : List Bool) : Prop :=
  ∃ reading later, bits = reading.front ++ later ∧ Decides view op t place later reading

/-- Wherever the operation starts, some reading decides its outcome. -/
def Local (view : View σ τ) (op : Op σ α) : Prop :=
  ∀ t place bits state, view.Stands t place bits state → Decided view op t place bits

/-! ## Operations in a row -/

theorem bind_of_error (next : α → Op σ β) {state : σ} {reason : DecodeError}
    (h : (op state).result = .error reason) :
    ((op >>= next) state).result = .error reason
      ∧ ((op >>= next) state).notes = (op state).notes
      ∧ ((op >>= next) state).state = (op state).state := by
  rw [bind_eq]
  cases hr : op state with
  | ok a after notes => rw [hr] at h; cases h
  | error e after notes =>
    rw [hr] at h
    cases h
    exact ⟨rfl, rfl, rfl⟩

theorem bind_of_ok {next : α → Op σ β} {state : σ} {a : α} (h : (op state).result = .ok a) :
    (op >>= next) state = (next a (op state).state).after (op state).notes :=
  bind_of_eq_ok (Outcome.eq_ok_of_result h) next

/-- A failure of the first operation is one of both. -/
theorem Decides.bind_error {next : α → Op σ β} {front : List Bool} {reason : DecodeError}
    {notes : List Note} {t' : τ}
    (h : Decides view op t place later ⟨front, .error reason, notes, t'⟩) :
    Decides view (op >>= next) t place later ⟨front, .error reason, notes, t'⟩ where
  grows := h.grows
  agrees state others hothers hstate := by
    have hop := h.agrees state others
      (hothers.imp_right fun hcomplete q hq => hcomplete q (by cases hq; rfl)) hstate
    obtain ⟨hresult, hnotes, hafter⟩ := bind_of_error next hop.result
    exact ⟨hresult, hnotes.trans hop.notes, by rw [hafter]; exact hop.state⟩
  ended q hq := h.ended q (by cases hq; rfl)
  cut state before more hsplit hmore hstate := by
    obtain ⟨q, hq, hle, hlt, hrest⟩ := h.cut state before more hsplit hmore hstate
    obtain ⟨hresult, _, hafter⟩ := bind_of_error next hq
    exact ⟨q, hresult, hle, hlt, by rw [hafter]; exact hrest⟩

section

variable {next : α → Op σ β} {first second : List Bool} {a : α} {result : Except DecodeError β}
  {notes more : List Note} {t' t'' : τ}

/-- A success of the first operation leads to where the second one starts. -/
theorem Decides.runs (hop : Decides view op t place later ⟨first, .ok a, notes, t'⟩)
    (next : α → Op σ β) {state : σ} {others : List Bool}
    (hstate : view.Stands t place (first ++ others) state) :
    (op >>= next) state = (next a (op state).state).after notes
      ∧ view.Stands t' (place + first.length) others (op state).state := by
  have hcomplete : Reading.Complete (⟨first, .ok a, notes, t'⟩ : Reading τ α) := fun _ => nofun
  have hrun := hop.agrees state others (.inr hcomplete) hstate
  refine ⟨?_, hrun.state⟩
  rw [bind_of_ok hrun.result, hrun.notes]

/-- Where the input ends behind the bits of the first operation, the second one says so. -/
theorem Decides.cut_second (hop : Decides view op t place (second ++ later) ⟨first, .ok a, notes, t'⟩)
    (hnext : Decides view (next a) t' (place + first.length) later ⟨second, result, more, t''⟩)
    {state : σ} {middle rest : List Bool} (hsplit : second = middle ++ rest) (hrest : rest ≠ [])
    (hstate : view.Stands t place (first ++ middle) state) :
    ∃ q, ((op >>= next) state).result = .error (.endOfStream q)
      ∧ q ≤ place + (first ++ middle).length ∧ place + (first ++ middle).length < q + fieldLimit
      ∧ view.le (view.rest ((op >>= next) state).state) t'' := by
  obtain ⟨hrun, hafter⟩ := hop.runs next hstate
  obtain ⟨q, hq, hle, hlt, hgrows⟩ := hnext.cut (op state).state middle rest hsplit hrest hafter
  rw [hrun, Outcome.result_after, Outcome.state_after, List.length_append, ← Nat.add_assoc]
  exact ⟨q, hq, hle, hlt, hgrows⟩

/-- After a success the second operation reads on, right behind the bits of the first. -/
theorem Decides.bind_ok (hop : Decides view op t place (second ++ later) ⟨first, .ok a, notes, t'⟩)
    (hnext : Decides view (next a) t' (place + first.length) later ⟨second, result, more, t''⟩) :
    Decides view (op >>= next) t place later ⟨first ++ second, result, notes ++ more, t''⟩ := by
  refine ⟨view.le_trans hop.grows hnext.grows, ?_, ?_, ?_⟩
  · intro state others hothers hstate
    simp only [List.append_assoc] at hstate
    obtain ⟨hrun, hafter⟩ := hop.runs next hstate
    have hsecond := hnext.agrees (op state).state others hothers hafter
    rw [hrun]
    refine ⟨?_, ?_, ?_⟩
    · rw [Outcome.result_after]
      exact hsecond.result
    · rw [Outcome.notes_after, hsecond.notes]
    · rw [Outcome.state_after]
      simp only [List.length_append, ← Nat.add_assoc]
      exact hsecond.state
  · intro q hq
    simp only [List.length_append, ← Nat.add_assoc]
    exact hnext.ended q hq
  · intro state before rest hsplit hrest hstate
    -- the input ends inside the bits of the first operation, or else inside those of the second
    rcases List.append_eq_append_iff.mp hsplit with ⟨middle, hbefore, hsecond⟩ | ⟨middle, hfirst, hmore⟩
    · subst hbefore
      exact hop.cut_second hnext hsecond hrest hstate
    · by_cases hmiddle : middle = []
      · -- it ends just where the second operation begins
        subst hmiddle
        rw [List.append_nil] at hfirst
        rw [← hfirst, ← List.append_nil first] at hstate ⊢
        exact hop.cut_second hnext hmore.symm hrest hstate
      · obtain ⟨q, hq, hle, hlt, hgrows⟩ := hop.cut state before middle hfirst hmiddle hstate
        obtain ⟨hresult, _, hafter⟩ := bind_of_error next hq
        exact ⟨q, hresult, hle, hlt, by rw [hafter]; exact view.le_trans hgrows hnext.grows⟩

end

/-- The second operation only has to be decided where the first one leads to. -/
theorem Decided.bind {next : α → Op σ β} {bits : List Bool} {state : σ}
    (hop : Decided view op t place bits) (hstate : view.Stands t place bits state)
    (hnext : ∀ a t' place' bits', (op state).result = .ok a →
      view.Stands t' place' bits' (op state).state → Decided view (next a) t' place' bits') :
    Decided view (op >>= next) t place bits := by
  obtain ⟨⟨first, result, notes, t'⟩, later, rfl, hfirst⟩ := hop
  cases result with
  | error reason => exact ⟨_, later, rfl, hfirst.bind_error⟩
  | ok a =>
    have hrun := hfirst.agrees state later (.inl rfl) hstate
    obtain ⟨⟨second, result, more, t''⟩, last, hlater, hsecond⟩ :=
      hnext a t' _ later hrun.result hrun.state
    simp only at hlater
    subst hlater
    exact ⟨_, last, (List.append_assoc first second last).symm, hfirst.bind_ok hsecond⟩

theorem Local.bind {next : α → Op σ β} (hop : Local view op) (hnext : ∀ a, Local view (next a)) :
    Local view (op >>= next) := fun t place bits state hstate =>
  (hop t place bits state hstate).bind hstate fun a t' place' bits' _ hafter =>
    hnext a t' place' bits' _ hafter

/-- A safe operation gives what its condition says, if the states seen satisfy the invariant. -/
theorem Local.bind_safe {next : α → Op σ β} {inv : σ → Prop} {post : α → Prop} (hop : Local view op)
    (hsafe : Safe inv op post) (hinv : ∀ t place bits state, view.Stands t place bits state → inv state)
    (hnext : ∀ a, post a → Local view (next a)) : Local view (op >>= next) := by
  intro t place bits state hstate
  refine (hop t place bits state hstate).bind hstate fun a t' place' bits' hresult hafter => ?_
  refine hnext a ?_ t' place' bits' _ hafter
  have safe := hsafe state (hinv t place bits state hstate)
  cases hr : op state with
  | ok b after notes => rw [hr] at safe hresult; cases hresult; exact safe.2
  | error reason after notes => rw [hr] at hresult; cases hresult

/--
A local operation leaves the reader at some place. If it has failed because the input has ended, that
is the place it reports, and there is less than a field before it.
-/
theorem Local.stands (h : Local view op) {bits : List Bool} {state : σ}
    (hstate : view.Stands t place bits state) :
    ∃ place' bits', (view.reader (op state).state).Stands place' bits'
      ∧ ∀ q, (op state).result = .error (.endOfStream q) → q = place' ∧ bits'.length < fieldLimit := by
  obtain ⟨reading, later, rfl, hdecides⟩ := h t place bits state hstate
  have hagrees := hdecides.agrees state later (.inl rfl) hstate
  exact ⟨_, _, hagrees.state.reader, fun q hq => hdecides.ended q (hagrees.result.symm.trans hq)⟩

/-! ## Operations that read nothing -/

/-- The reading of an operation that reads no bits. -/
def unread (result : Except DecodeError α) (notes : List Note) (t : τ) : Reading τ α :=
  ⟨[], result, notes, t⟩

/-- An operation that leaves the reader alone, and looks at no more of it than its place. -/
theorem Decided.still {bits : List Bool} (result : Except DecodeError α) (notes : List Note) (t' : τ)
    (hle : view.le t t') (hcomplete : ∀ q, result ≠ .error (.endOfStream q))
    (hrun : ∀ state, view.rest state = t → (view.reader state).position = place →
      (op state).result = result ∧ (op state).notes = notes ∧ view.rest (op state).state = t'
        ∧ view.reader (op state).state = view.reader state) : Decided view op t place bits := by
  refine ⟨unread result notes t', bits, rfl, hle, ?_, ?_, ?_⟩
  · intro state others _ hstate
    obtain ⟨hresult, hnotes, hrest, hreader⟩ := hrun state hstate.rest hstate.reader.position
    exact ⟨hresult, hnotes, hrest, by rw [hreader]; exact hstate.reader⟩
  · exact fun q hq => absurd hq (hcomplete q)
  · intro _ before more hsplit hmore
    exact absurd (List.append_eq_nil_iff.mp hsplit.symm).2 hmore

theorem Local.pure (a : α) : Local view (Pure.pure a : Op σ α) := fun t _ _ _ _ =>
  .still (.ok a) [] t (view.le_refl t) (fun _ => nofun) fun _ hrest _ => ⟨rfl, rfl, hrest, rfl⟩

theorem Local.fail {reason : DecodeError} (h : ∀ q, reason ≠ .endOfStream q) :
    Local view (Op.fail reason : Op σ α) := fun t _ _ _ _ =>
  .still (.error reason) [] t (view.le_refl t) (fun q hq => h q (Except.error.inj hq))
    fun _ hrest _ => ⟨rfl, rfl, hrest, rfl⟩

theorem Local.noteAll (notes : List Note) : Local view (Op.noteAll notes : Op σ Unit) :=
  fun t _ _ _ _ =>
  .still (.ok ()) notes t (view.le_refl t) (fun _ => nofun) fun _ hrest _ => ⟨rfl, rfl, hrest, rfl⟩

theorem Local.note (n : Note) : Local view (Op.note n : Op σ Unit) := Local.noteAll [n]

/-- A change of the rest only. -/
theorem Local.modify {f : σ → σ} {g : τ → τ} (hrest : ∀ s, view.rest (f s) = g (view.rest s))
    (hreader : ∀ s, view.reader (f s) = view.reader s) (hle : ∀ t, view.le t (g t)) :
    Local view (Op.modify f) := fun t _ _ _ _ =>
  .still (.ok ()) [] (g t) (hle t) (fun _ => nofun) fun s hs _ =>
    ⟨rfl, rfl, (hrest s).trans (by rw [hs]), hreader s⟩

/-- What is done with the state only depends on the rest and on the place of the reader. -/
theorem Local.get {next : σ → Op σ β}
    (hsame : ∀ a b, view.rest a = view.rest b →
      (view.reader a).position = (view.reader b).position → next a = next b)
    (hnext : ∀ a, Local view (next a)) : Local view (Op.get >>= next) := by
  intro t place bits state hstate
  obtain ⟨reading, later, hbits, hdecides⟩ := hnext state t place bits state hstate
  have heq : ∀ other bits', view.Stands t place bits' other →
      ((Op.get >>= next : Op σ β) other) = next state other := by
    intro other bits' hother
    have hrun : (Op.get >>= next : Op σ β) other = next other other := by
      rw [bind_eq]
      simp only [Op.get]
      cases next other other <;> rfl
    rw [hrun, hsame other state (hother.rest.trans hstate.rest.symm)
      (hother.reader.position.trans hstate.reader.position.symm)]
  refine ⟨reading, later, hbits, hdecides.grows, ?_, hdecides.ended, ?_⟩
  · intro other others hothers hother
    rw [heq other _ hother]
    exact hdecides.agrees other others hothers hother
  · intro other before more hsplit hmore hother
    rw [heq other _ hother]
    exact hdecides.cut other before more hsplit hmore hother

end Op

/-! ## Parts of a state -/

/-- A state that contains another one, with the same reader. -/
structure View.Part (wide : View ρ υ) (view : View σ τ) where
  get : ρ → σ
  set : ρ → σ → ρ
  rest : υ → τ
  put : υ → τ → υ
  reader_get : ∀ s, view.reader (get s) = wide.reader s
  reader_set : ∀ s a, wide.reader (set s a) = view.reader a
  rest_get : ∀ s, view.rest (get s) = rest (wide.rest s)
  rest_set : ∀ s a, wide.rest (set s a) = put (wide.rest s) (view.rest a)
  le_put : ∀ u t, view.le (rest u) t → wide.le u (put u t)
  put_le : ∀ u t t', view.le t t' → wide.le (put u t) (put u t')

/-- The operation works on a part of the state only. -/
def View.Part.lift {wide : View ρ υ} {view : View σ τ} (part : wide.Part view) (op : Op σ α) :
    Op ρ α := fun s => (op (part.get s)).withState (part.set s)

theorem Op.Local.lift {wide : View ρ υ} {view : View σ τ} (part : wide.Part view) {op : Op σ α}
    (h : Local view op) : Local wide (part.lift op) := by
  have hstands : ∀ {u place bits s}, wide.Stands u place bits s →
      view.Stands (part.rest u) place bits (part.get s) := by
    intro u place bits s hs
    refine ⟨?_, ?_⟩
    · rw [part.rest_get, hs.rest]
    · rw [part.reader_get]
      exact hs.reader
  intro u place bits s hs
  obtain ⟨⟨front, result, notes, t⟩, later, hbits, hdecides⟩ :=
    h (part.rest u) place bits (part.get s) (hstands hs)
  refine ⟨⟨front, result, notes, part.put u t⟩, later, hbits, part.le_put u t hdecides.grows, ?_,
    hdecides.ended, ?_⟩
  · intro s others hothers hs
    have hagrees := hdecides.agrees (part.get s) others hothers (hstands hs)
    refine ⟨?_, ?_, ?_, ?_⟩
    · rw [View.Part.lift, Outcome.result_withState, hagrees.result]
    · rw [View.Part.lift, Outcome.notes_withState, hagrees.notes]
    · rw [View.Part.lift, Outcome.state_withState, part.rest_set, hagrees.state.rest, hs.rest]
    · rw [View.Part.lift, Outcome.state_withState, part.reader_set]
      exact hagrees.state.reader
  · intro s before more hsplit hmore hs
    obtain ⟨q, hq, hle, hlt, hrest⟩ := hdecides.cut (part.get s) before more hsplit hmore (hstands hs)
    refine ⟨q, ?_, hle, hlt, ?_⟩
    · rw [View.Part.lift, Outcome.result_withState, hq]
    · rw [View.Part.lift, Outcome.state_withState, part.rest_set, hs.rest]
      exact part.put_le u _ _ hrest

end Bunzip

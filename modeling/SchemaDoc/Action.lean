import SchemaDoc.Log.Record

/-!
# Actions

An action works on a state, reports records and answers or fails. The state and the records so far
stay when it fails.
-/

namespace SchemaDoc

/-- What an action leaves behind. -/
structure Outcome (σ ε α : Type) where
  /-- The answer, or why there is none. -/
  answer : Except ε α
  /-- The state afterwards. -/
  state : σ
  /-- What was reported, oldest first. -/
  records : List Record

/-- A step on a state `σ` that answers an `α` or fails with an `ε`. -/
def Action (σ ε α : Type) : Type := σ → Outcome σ ε α

namespace Action

variable {σ τ ε α β : Type}

/-- Runs an action on a state. -/
def run (x : Action σ ε α) (s : σ) : Outcome σ ε α := x s

/-- Answers and does nothing. -/
protected def pure (a : α) : Action σ ε α := fun s ↦ ⟨.ok a, s, []⟩

/-- Goes on with an answer, and stops at a failure. -/
protected def bind (x : Action σ ε α) (f : α → Action σ ε β) : Action σ ε β := fun s ↦
  match x s with
  | ⟨.ok a, s', records⟩ =>
    let next := f a s'
    ⟨next.answer, next.state, records ++ next.records⟩
  | ⟨.error e, s', records⟩ => ⟨.error e, s', records⟩

instance : Monad (Action σ ε) where
  pure := Action.pure
  bind := Action.bind

/-- Fails. -/
def fail (e : ε) : Action σ ε α := fun s ↦ ⟨.error e, s, []⟩

/-- Answers the state. -/
def state : Action σ ε σ := fun s ↦ ⟨.ok s, s, []⟩

/-- Puts another state in place. -/
def become (s : σ) : Action σ ε Unit := fun _ ↦ ⟨.ok (), s, []⟩

/-- Reports a record. -/
def report (r : Record) : Action σ ε Unit := fun s ↦ ⟨.ok (), s, [r]⟩

/-- Reports an event. -/
def reportEvent (e : Event) (fields : List (String × String)) : Action σ ε Unit :=
  report (.ofEvent e fields)

/-- Answers what was found, or fails with it. -/
def ofExcept : Except ε α → Action σ ε α
  | .ok a => Action.pure a
  | .error e => fail e

/-- Works on a part of the state. -/
def onPart (get : τ → σ) (put : τ → σ → τ) (x : Action σ ε α) : Action τ ε α := fun t ↦
  let o := x (get t)
  ⟨o.answer, put t o.state, o.records⟩

/-! ## Laws -/

@[simp] theorem run_pure (a : α) (s : σ) :
    (pure a : Action σ ε α).run s = ⟨.ok a, s, []⟩ := rfl

@[simp] theorem run_fail (e : ε) (s : σ) :
    (fail e : Action σ ε α).run s = ⟨.error e, s, []⟩ := rfl

@[simp] theorem run_state (s : σ) : (state : Action σ ε σ).run s = ⟨.ok s, s, []⟩ := rfl

@[simp] theorem run_become (s t : σ) :
    (become t : Action σ ε Unit).run s = ⟨.ok (), t, []⟩ := rfl

@[simp] theorem run_reportEvent (e : Event) (fields : List (String × String)) (s : σ) :
    (reportEvent e fields : Action σ ε Unit).run s = ⟨.ok (), s, [.ofEvent e fields]⟩ := rfl

@[simp] theorem run_ofExcept_ok (a : α) (s : σ) :
    (ofExcept (.ok a) : Action σ ε α).run s = ⟨.ok a, s, []⟩ := rfl

@[simp] theorem run_ofExcept_error (e : ε) (s : σ) :
    (ofExcept (.error e) : Action σ ε α).run s = ⟨.error e, s, []⟩ := rfl

@[simp] theorem run_onPart (get : τ → σ) (put : τ → σ → τ) (x : Action σ ε α) (t : τ) :
    (x.onPart get put).run t =
      ⟨(x.run (get t)).answer, put t (x.run (get t)).state, (x.run (get t)).records⟩ := rfl

/-- After an answer the next action runs on the state that is left. -/
theorem run_bind_ok {x : Action σ ε α} {f : α → Action σ ε β} {s s' : σ} {a : α}
    {records : List Record} (h : x.run s = ⟨.ok a, s', records⟩) :
    (x >>= f).run s =
      ⟨((f a).run s').answer, ((f a).run s').state, records ++ ((f a).run s').records⟩ := by
  simp only [run] at h
  simp [run, bind, Action.bind, h]

/-- After a failure nothing more runs. -/
theorem run_bind_error {x : Action σ ε α} {f : α → Action σ ε β} {s s' : σ} {e : ε}
    {records : List Record} (h : x.run s = ⟨.error e, s', records⟩) :
    (x >>= f).run s = ⟨.error e, s', records⟩ := by
  simp only [run] at h
  simp [run, bind, Action.bind, h]

end Action

end SchemaDoc

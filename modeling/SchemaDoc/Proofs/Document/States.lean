import SchemaDoc.Proofs.Document.Atomicity
import SchemaDoc.Proofs.Document.Reachable

/-!
# States of the cache

Which sides of a document are there once an operation is done, by what the operation is about. That
the sides that are there agree is the invariant of reachable documents.
-/

namespace SchemaDoc

variable {s : Shape}

namespace Document

private theorem state_afterReading {d : Document s} {p : s.Payload} (h : d.reading = .ok p) :
    d.afterReading.state = .decoded ∨ d.afterReading.state = .both := by
  cases d with
  | decoded q => exact .inl rfl
  | both bytes q => exact .inr rfl
  | raw bytes =>
    cases hd : Payload.decode s bytes with
    | ok q =>
      rw [afterReading_raw_ok hd]
      exact .inr rfl
    | error e => simp [reading_raw_error hd] at h

private theorem state_afterEncoding (d : Document s) :
    d.afterEncoding.state = .raw ∨ d.afterEncoding.state = .both := by
  cases d with
  | raw bytes => exact .inl rfl
  | decoded p => exact .inl rfl
  | both bytes p => exact .inr rfl

end Document

/-- What an operation about something makes of a document, once it has answered. -/
def Effect.Settles : Effect → Answer → Document s → Document s → Prop
  | look, _, d, d' => d' = d
  | read, _, _, d' => d'.state = .decoded ∨ d'.state = .both
  | encode, _, _, d' => d'.state = .raw ∨ d'.state = .both
  | scan, _, _, d' => d'.state = .raw
  | change, _, _, d' => d'.state = .decoded
  | remove, .value? none, d, d' => d.Undisturbed d'
  | remove, _, _, d' => d'.state = .decoded

private theorem Document.Leaves.settles {d d' : Document s} {effect : Effect} {a : Answer}
    (h : d.Leaves effect (some a) d') : effect.Settles a d d' := by
  cases h with
  | looked => rfl
  | read hp => exact state_afterReading hp
  | encoded => exact state_afterEncoding d
  | scanned | changed | removed => rfl
  | missed => exact undisturbed_afterReading d

private theorem CheckedDocument.answer_remove (key : String) (c : CheckedDocument .table) :
    (perform (.ask (.remove key)) c).1 = c.document.reading.toOption.map
      fun (members : Dictionary Value) ↦ .value? (Dictionary.find? key members) := by
  simp only [perform, reply, Action.reply, result_remove]
  cases c.document.reading with
  | error e => rfl
  | ok members =>
    dsimp only
    cases h : Dictionary.find? key members with
    | none => simp [Except.toOption, Except.map, h]
    | some v => simp [Except.toOption, Except.map, h]

/-- Whatever was done with a document or a checked document, its raw bytes start with the byte of
the shape and say the payload beside them. An operation that answers leaves the sides that it is
about, a look leaves the document, and so does the removal of a key that is not there, which at most
decodes it. -/
theorem caches_stay_in_step :
    (∀ d : Document s, d.Reachable → d.InStep ∧
      (∀ op a, (Document.perform op d).1 = some a →
        op.effect.Settles a d (Document.perform op d).2) ∧
      ∀ look, (Document.perform (.look look) d).2 = d) ∧
    (∀ c : CheckedDocument s, c.Reachable → c.document.InStep ∧
      (∀ op a, (CheckedDocument.perform op c).1 = some a →
        op.effect.Settles a c.document (CheckedDocument.perform op c).2.document) ∧
      ∀ look, (CheckedDocument.perform (.look look) c).2 = c) ∧
    ∀ (key : String) (c : CheckedDocument .table),
      (CheckedDocument.perform (.ask (.remove key)) c).1 = c.document.reading.toOption.map
        fun (members : Dictionary Value) ↦ .value? (Dictionary.find? key members) := by
  refine ⟨?_, ?_, CheckedDocument.answer_remove⟩
  · intro d reached
    refine ⟨reached.inStep, ?_, fun look ↦ rfl⟩
    intro op a answered
    have left := Document.perform_leaves op d
    rw [answered] at left
    exact left.settles
  · intro c reached
    refine ⟨reached.inStep, ?_, fun look ↦ rfl⟩
    intro op a answered
    have left := CheckedDocument.perform_leaves op c
    rw [answered] at left
    exact left.settles

/-- Raw bytes with a payload beside them, and the key that is not in it. -/
theorem missing_key_stays_in_step :
    ∃ c : CheckedDocument .table, c.Reachable ∧ c.document.state = .both ∧
      Payload.decode .table c.document.bytes = .ok [] ∧
      (CheckedDocument.perform (.ask (.remove "a")) c).2.document.raw? =
        some (Json.asciiBytes ['\x7b', ' ', '\x7d']) := by
  have made : Document.Reachable (.raw (Json.asciiBytes ['\x7b', ' ', '\x7d']) : Document .table) :=
    @Document.Reachable.ofRaw .table (Json.asciiBytes ['\x7b', ' ', '\x7d']) _ (by rfl)
  have read := CheckedDocument.Reachable.perform (.ask .decode) (.asTypeUnchecked (.table []) made)
  have inStep := (caches_stay_in_step (s := .table)).2.1 _ read
  have missed := inStep.2.1 (.ask (.remove "a")) (.value? none) (by rfl)
  exact ⟨_, read, by rfl, inStep.1.agree _ _ (by rfl), missed.raw _ (by rfl)⟩

end SchemaDoc

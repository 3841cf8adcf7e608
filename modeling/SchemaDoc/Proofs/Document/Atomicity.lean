import SchemaDoc.Proofs.Document.Operations

/-!
# Failing operations disturb nothing

An operation that fails leaves all that was cached. At most it adds to raw bytes the payload that
they say, which no later answer shows.
-/

namespace SchemaDoc

variable {s : Shape}

namespace Document

/-- What was cached is still cached, and nothing else but a payload that the raw bytes say. -/
structure Undisturbed (d d' : Document s) : Prop where
  /-- Raw bytes are still there. -/
  raw : ∀ bytes, d.raw? = some bytes → d'.raw? = some bytes
  /-- A payload is still there. -/
  payload : ∀ p, d.payload? = some p → d'.payload? = some p
  /-- Nothing changed, or raw bytes were decoded and kept. -/
  states : d' = d ∨
    ∃ bytes p, d = .raw bytes ∧ d' = .both bytes p ∧ Payload.decode s bytes = .ok p
  /-- Encoding answers as before. -/
  encode : (Document.encode.run d').answer = (Document.encode.run d).answer
  /-- Decoding answers as before. -/
  decode : (Document.decode.run d').answer = (Document.decode.run d).answer

/-- A document as it was. -/
theorem undisturbed_self (d : Document s) : Undisturbed d d :=
  ⟨fun _ h ↦ h, fun _ h ↦ h, .inl rfl, rfl, rfl⟩

private theorem undisturbed_both {bytes : Bytes} {p : s.Payload}
    (h : Payload.decode s bytes = .ok p) :
    Undisturbed (raw bytes) (both bytes p) := by
  constructor
  · intro bytes' hb
    exact hb
  · intro q hq
    cases hq
  · exact .inr ⟨bytes, p, rfl, rfl, h⟩
  · rfl
  · rw [run_decode_raw_ok h, run_decode_of_payload? rfl]

/-- Reading disturbs nothing. -/
theorem undisturbed_afterReading (d : Document s) : Undisturbed d d.afterReading := by
  cases d with
  | decoded p | both bytes p => exact undisturbed_self _
  | raw bytes =>
    cases h : Payload.decode s bytes with
    | ok p =>
      rw [afterReading_raw_ok h]
      exact undisturbed_both h
    | error e =>
      rw [afterReading_of_error (reading_raw_error h)]
      exact undisturbed_self _

private theorem Leaves.undisturbed {d d' : Document s} {effect : Effect}
    (h : d.Leaves effect none d') : Undisturbed d d' := by
  cases h with
  | failed => exact undisturbed_self d
  | failedBehind => exact undisturbed_afterReading d

end Document

/-- Whatever fails on a document or on a checked document, in any state and with any arguments,
disturbs nothing, and a checked document keeps its schema. -/
theorem failed_operations_disturb_nothing :
    (∀ (op : Document.Operation s) (d : Document s), (Document.perform op d).1 = none →
      d.Undisturbed (Document.perform op d).2) ∧
    ∀ (op : CheckedDocument.Operation s) (c : CheckedDocument s),
      (CheckedDocument.perform op c).1 = none →
        c.document.Undisturbed (CheckedDocument.perform op c).2.document ∧
          (CheckedDocument.perform op c).2.schema = c.schema := by
  constructor
  · intro op d failed
    have left := Document.perform_leaves op d
    rw [failed] at left
    exact left.undisturbed
  · intro op c failed
    have left := CheckedDocument.perform_leaves op c
    rw [failed] at left
    exact ⟨left.undisturbed, CheckedDocument.schema_perform op c⟩

/-- An item that is refused once the raw bytes have been decoded, and raw bytes that cannot be. -/
theorem refused_item_disturbs_nothing :
    (CheckedDocument.perform (.ask (.append .null))
      (⟨.raw (Json.asciiBytes ['[', ' ', ']']), .list .bool 0⟩ :
        CheckedDocument .list)).2.document.raw? = some (Json.asciiBytes ['[', ' ', ']']) ∧
    (Document.perform (.ask .length) (.raw (Json.asciiBytes ['[', ',']) : Document .list)).2.raw? =
      some (Json.asciiBytes ['[', ',']) := by
  have refused := (failed_operations_disturb_nothing (s := .list)).2 (.ask (.append .null))
    ⟨.raw (Json.asciiBytes ['[', ' ', ']']), .list .bool 0⟩ (by rfl)
  have undecodable := (failed_operations_disturb_nothing (s := .list)).1 (.ask .length)
    (.raw (Json.asciiBytes ['[', ','])) (by rfl)
  exact ⟨refused.1.raw _ rfl, undecodable.raw _ rfl⟩

end SchemaDoc

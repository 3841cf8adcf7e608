import SchemaDoc.Embedding.Splice
import SchemaDoc.Proofs.Document.Conforming
import SchemaDoc.Store.Column

/-!
# Operations

Everything that can be done with a document that is there: requests, copies under a schema and looks
by shared reference. What an operation may answer and leave is said once, by what the operation is
about; that it fails, and how far it got before, is a part of it.
-/

namespace SchemaDoc

/-! ## Operations -/

/-- A look at a document by shared reference. -/
inductive Document.Look where
  /-- Its text as a part of a compact text. -/
  | splice
  /-- Its text as a part of a pretty text. -/
  | splicePretty (level : Nat)
  /-- Its value. -/
  | toValue
  /-- What a column gets. -/
  | toColumn
  /-- A copy under a schema. -/
  | asTypeUnchecked (schema : Schema)

/-- What can be done with a document. -/
inductive Document.Operation (s : Shape) : Type where
  /-- A request. -/
  | ask (request : Document.Request s)
  /-- A copy under a schema, if there is no violation. -/
  | asType (schema : Schema)
  /-- A look. -/
  | look (look : Document.Look)

/-- What can be done with a checked document. -/
inductive CheckedDocument.Operation : Shape → Type where
  /-- A request. -/
  | ask {s : Shape} (request : CheckedDocument.Request s) : Operation s
  /-- The items as integers. -/
  | int64Values : Operation .list
  /-- The items as texts. -/
  | stringValues : Operation .list
  /-- A look. -/
  | look {s : Shape} (look : Document.Look) : Operation s

variable {s : Shape}

/-- Whether a look finds what it looks for. -/
def Document.Look.finds : Look → Document s → Bool
  | splice, d => d.splice.isOk
  | splicePretty level, d => (d.splicePretty level).isOk
  | toValue, d => d.toValue.isOk
  | toColumn, d => d.toColumn.isOk
  | asTypeUnchecked _, _ => true

/-- Looks at a document: that it was done, if it was, and the same document. -/
def Document.Look.perform (look : Look) (d : Document s) : Option Answer × Document s :=
  (if look.finds d then some .done else none, d)

/-- Carries out an operation: the answer, if it does not fail, and the document behind it. -/
def Document.perform : Operation s → Document s → Option Answer × Document s
  | .ask request, d => ((reply request d).1.toOption, (reply request d).2)
  | .asType schema, d =>
    (((asType schema).result d).1.toOption.map fun _ ↦ .done, ((asType schema).result d).2)
  | .look look, d => look.perform d

/-- Carries out an operation: the answer, if it does not fail, and the document behind it. -/
def CheckedDocument.perform {s : Shape} :
    Operation s → CheckedDocument s → Option Answer × CheckedDocument s
  | .ask request, c => ((reply request c).1.toOption, (reply request c).2)
  | .int64Values, c => ((int64Values.result c).1.toOption.map fun _ ↦ .done,
      (int64Values.result c).2)
  | .stringValues, c => ((stringValues.result c).1.toOption.map fun _ ↦ .done,
      (stringValues.result c).2)
  | .look look, c => ((look.perform c.document).1, c)

/-! ## What operations leave -/

/-- What an operation is about. -/
inductive Effect where
  /-- To look at the document. -/
  | look
  /-- To read the payload. -/
  | read
  /-- To get the bytes. -/
  | encode
  /-- To take raw bytes. -/
  | scan
  /-- To change the payload. -/
  | change
  /-- To take away a part of the payload, if it is there. -/
  | remove

/-- What a request is about. -/
def Document.Request.effect {s : Shape} : Document.Request s → Effect
  | .scan _ => .scan
  | .decode | .length | .isEmpty | .get _ => .read
  | .encode | .marshal | .bind => .encode
  | .unmarshal _ => .change

/-- What a request is about. -/
def CheckedDocument.Request.effect {s : Shape} : CheckedDocument.Request s → Effect
  | .decode | .length | .isEmpty | .values | .get _ => .read
  | .encode | .marshal | .bind => .encode
  | .unmarshal _ | .append _ | .set _ _ => .change
  | .remove _ => .remove

/-- What an operation is about. -/
def Document.Operation.effect : Document.Operation s → Effect
  | ask request => request.effect
  | asType _ => .read
  | look _ => .look

/-- What an operation is about. -/
def CheckedDocument.Operation.effect {s : Shape} : CheckedDocument.Operation s → Effect
  | ask request => request.effect
  | int64Values | stringValues => .read
  | look _ => .look

namespace Document

/-- A payload is normal if the one that a document reads as is. -/
def Normalizes (d : Document s) (p : s.Payload) : Prop :=
  (∀ q, d.reading = .ok q → Payload.Normal q) → Payload.Normal p

/-- What an operation may answer and leave of a document. -/
inductive Leaves (d : Document s) : Effect → Option Answer → Document s → Prop where
  /-- It failed. -/
  | failed {effect : Effect} : Leaves d effect none d
  /-- It failed after the payload was read. -/
  | failedBehind {effect : Effect} {p : s.Payload} (h : d.reading = .ok p) :
    Leaves d effect none d.afterReading
  /-- It looked at the document. -/
  | looked {a : Answer} : Leaves d .look (some a) d
  /-- It read the payload. -/
  | read {a : Answer} {p : s.Payload} (h : d.reading = .ok p) :
    Leaves d .read (some a) d.afterReading
  /-- It got the bytes. -/
  | encoded {a : Answer} : Leaves d .encode (some a) d.afterEncoding
  /-- It took raw bytes. -/
  | scanned {a : Answer} {bytes : Bytes} (h : bytes.head? = some s.opening) :
    Leaves d .scan (some a) (raw bytes)
  /-- It put a payload in place. -/
  | changed {a : Answer} {p : s.Payload} (h : d.Normalizes p) :
    Leaves d .change (some a) (decoded p)
  /-- It took a part of the payload away. -/
  | removed {v : Value} {p : s.Payload} (h : d.Normalizes p) :
    Leaves d .remove (some (.value? (some v))) (decoded p)
  /-- It found nothing to take away. -/
  | missed {p : s.Payload} (h : d.reading = .ok p) :
    Leaves d .remove (some (.value? none)) d.afterReading

private theorem leaves_reading (d : Document s) {answer : Option Answer}
    (h : ∀ e, d.reading = .error e → answer = none) : d.Leaves .read answer d.afterReading := by
  cases hr : d.reading with
  | ok p =>
    cases answer with
    | none => exact .failedBehind hr
    | some a => exact .read hr
  | error e =>
    rw [h e hr, afterReading_of_error hr]
    exact .failed

private theorem Look.leaves (look : Look) (d : Document s) :
    d.Leaves .look (look.perform d).1 (look.perform d).2 := by
  unfold perform
  split
  · exact .looked
  · exact .failed

private theorem leaves_scan (source : Source) (d : Document s) :
    d.Leaves .scan (perform (.ask (.scan source)) d).1 (perform (.ask (.scan source)) d).2 := by
  simp only [perform, reply, Action.reply, result_scan]
  cases source.bytes? with
  | none => exact .failed
  | some bytes =>
    simp only [result_scanBytes]
    by_cases h : bytes.head? = some s.opening
    · rw [if_pos h]
      exact .scanned h
    · rw [if_neg h]
      exact .failed

private theorem leaves_unmarshal (text : Bytes) (d : Document s) :
    d.Leaves .change (perform (.ask (.unmarshal text)) d).1
      (perform (.ask (.unmarshal text)) d).2 := by
  simp only [perform, reply, Action.reply, result_unmarshal]
  cases h : Payload.decode s text with
  | error e => exact .failed
  | ok p =>
    apply Leaves.changed
    intro _
    exact Payload.normal_of_decode h

private theorem leaves_asType (schema : Schema) (d : Document s) :
    d.Leaves .read (perform (.asType schema) d).1 (perform (.asType schema) d).2 := by
  simp only [perform, result_asType]
  cases h : d.reading with
  | error e => exact .failed
  | ok p =>
    apply leaves_reading
    intro e he
    simp [h] at he

/-- What an operation leaves of a document. -/
theorem perform_leaves (op : Operation s) (d : Document s) :
    d.Leaves op.effect (perform op d).1 (perform op d).2 := by
  cases op with
  | look look => exact look.leaves d
  | asType schema => exact leaves_asType schema d
  | ask request =>
    cases request with
    | scan source => exact leaves_scan source d
    | unmarshal text => exact leaves_unmarshal text d
    | encode | marshal | bind =>
      simp only [perform, reply, Action.reply, marshal, result_encode, result_bind]
      exact .encoded
    | decode | length | isEmpty | get =>
      simp only [perform, reply, Action.reply, result_decode, result_length, result_isEmpty,
        result_get]
      apply leaves_reading
      intro e he
      rw [he]
      rfl

end Document

namespace CheckedDocument

private theorem leaves_append (v : Value) (c : CheckedDocument .list) :
    c.document.Leaves .change (perform (.ask (.append v)) c).1
      (perform (.ask (.append v)) c).2.document := by
  simp only [perform, reply, Action.reply, result_append]
  cases h : c.document.reading with
  | error e => exact .failed
  | ok items =>
    dsimp only
    cases checkAppend c.schema (List.length items) v.normalize with
    | error violation => exact .failedBehind h
    | ok u =>
      apply Document.Leaves.changed
      intro hn
      exact (hn items h).append (Value.normal_normalize v)

private theorem leaves_set (key : String) (v : Value) (c : CheckedDocument .table) :
    c.document.Leaves .change (perform (.ask (.set key v)) c).1
      (perform (.ask (.set key v)) c).2.document := by
  simp only [perform, reply, Action.reply, result_set]
  cases checkSet c.schema key v.normalize with
  | error violation => exact .failed
  | ok u =>
    dsimp only
    cases h : c.document.reading with
    | error e => exact .failed
    | ok members =>
      apply Document.Leaves.changed
      intro hn
      exact (hn members h).insert key (Value.normal_normalize v)

private theorem leaves_remove (key : String) (c : CheckedDocument .table) :
    c.document.Leaves .remove (perform (.ask (.remove key)) c).1
      (perform (.ask (.remove key)) c).2.document := by
  simp only [perform, reply, Action.reply, result_remove]
  cases h : c.document.reading with
  | error e => exact .failed
  | ok members =>
    dsimp only
    cases Dictionary.find? key members with
    | none => exact .missed h
    | some v =>
      apply Document.Leaves.removed
      intro hn
      exact (hn members h).erase key

private theorem leaves_unmarshal (text : Bytes) (c : CheckedDocument s) :
    c.document.Leaves .change (perform (.ask (.unmarshal text)) c).1
      (perform (.ask (.unmarshal text)) c).2.document := by
  simp only [perform, reply, Action.reply, result_unmarshal]
  cases h : Payload.decode s text with
  | error e => exact .failed
  | ok p =>
    dsimp only
    cases Payload.check c.schema p with
    | error violation => exact .failed
    | ok u =>
      apply Document.Leaves.changed
      intro _
      exact Payload.normal_of_decode h

/-- What an operation leaves of the document. -/
theorem perform_leaves (op : Operation s) (c : CheckedDocument s) :
    c.document.Leaves op.effect (perform op c).1 (perform op c).2.document := by
  cases op with
  | look look => exact look.leaves c.document
  | int64Values | stringValues =>
    simp only [perform, result_int64Values, result_stringValues]
    cases h : c.document.reading with
    | error e => exact .failed
    | ok items =>
      apply Document.leaves_reading
      intro e he
      simp [h] at he
  | ask request =>
    cases request with
    | unmarshal text => exact leaves_unmarshal text c
    | append v => exact leaves_append v c
    | set key v => exact leaves_set key v c
    | remove key => exact leaves_remove key c
    | encode | marshal | bind =>
      simp only [perform, reply, Action.reply, encode, marshal, bind, Document.marshal,
        result_onDocument, Document.result_encode, Document.result_bind]
      exact .encoded
    | decode | length | isEmpty | get | values =>
      simp only [perform, reply, Action.reply, result_decode, result_values, length, isEmpty, get,
        result_onDocument, Document.result_length, Document.result_isEmpty, Document.result_get]
      apply Document.leaves_reading
      intro e he
      rw [he]
      rfl

/-- An operation leaves the schema. -/
theorem schema_perform (op : Operation s) (c : CheckedDocument s) :
    (perform op c).2.schema = c.schema := by
  cases op with
  | look look => rfl
  | ask request => exact schema_reply request c
  | int64Values | stringValues =>
    simp only [perform, result_int64Values, result_stringValues]
    split <;> rfl

end CheckedDocument

end SchemaDoc

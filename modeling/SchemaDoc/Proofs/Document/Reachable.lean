import SchemaDoc.Proofs.Document.Operations

/-!
# Reachable documents

The documents that any run of operations ends in, failing ones included: made from nothing, from
bytes, from a payload, from JSON or from a column, and then worked on in any order. Raw bytes of
such a document start as its shape demands, and a payload beside them is the one that they say.
-/

namespace SchemaDoc

variable {s : Shape}

/-! ## Documents in step -/

namespace Document

/-- Raw bytes start as the shape demands and say the payload beside them, which is normal. -/
structure InStep (d : Document s) : Prop where
  /-- Raw bytes start with the byte of the shape. -/
  opening : ∀ bytes, d.raw? = some bytes → bytes.head? = some s.opening
  /-- Raw bytes say the payload beside them. -/
  agree : ∀ bytes p, d = both bytes p → Payload.decode s bytes = .ok p
  /-- A payload is normal. -/
  normal : ∀ p, d.payload? = some p → Payload.Normal p

private theorem inStep_raw {bytes : Bytes} (h : bytes.head? = some s.opening) :
    (raw bytes : Document s).InStep := by
  constructor
  · intro bytes' he
    cases he
    exact h
  · intro bytes' p he
    cases he
  · intro p he
    cases he

private theorem inStep_decoded {p : s.Payload} (h : Payload.Normal p) : (decoded p).InStep := by
  constructor
  · intro bytes he
    cases he
  · intro bytes q he
    cases he
  · intro q he
    cases he
    exact h

namespace InStep

variable {d : Document s}

/-- What is read is normal. -/
theorem normal_of_reading (h : d.InStep) {p : s.Payload} (hp : d.reading = .ok p) :
    Payload.Normal p := by
  cases d with
  | decoded q | both bytes q =>
    cases hp
    exact h.normal p rfl
  | raw bytes =>
    cases hd : Payload.decode s bytes with
    | error e => simp [reading_raw_error hd] at hp
    | ok q =>
      rw [reading_raw_ok hd] at hp
      cases hp
      exact Payload.normal_of_decode hd

private theorem afterReading (h : d.InStep) : d.afterReading.InStep := by
  cases d with
  | decoded p | both bytes p => exact h
  | raw bytes =>
    cases hd : Payload.decode s bytes with
    | error e =>
      rw [afterReading_of_error (reading_raw_error hd)]
      exact h
    | ok p =>
      rw [afterReading_raw_ok hd]
      constructor
      · intro bytes' he
        exact h.opening bytes' he
      · intro bytes' q he
        cases he
        exact hd
      · intro q he
        cases he
        exact Payload.normal_of_decode hd

private theorem afterEncoding (h : d.InStep) : d.afterEncoding.InStep := by
  cases d with
  | raw bytes | both bytes p => exact h
  | decoded p => exact inStep_raw (Payload.head?_encode p)

private theorem of_leaves (h : d.InStep) {effect : Effect} {answer : Option Answer}
    {d' : Document s} (left : d.Leaves effect answer d') : d'.InStep := by
  cases left with
  | failed | looked => exact h
  | failedBehind | read | missed => exact h.afterReading
  | encoded => exact h.afterEncoding
  | scanned head => exact inStep_raw head
  | changed hp | removed hp =>
    apply inStep_decoded
    exact hp fun q hq ↦ h.normal_of_reading hq

end InStep

end Document

/-! ## Runs -/

-- Reading a document out of a larger text may be limited in any way and leave any rest.
mutual
/-- A document that some run of operations ends in. -/
inductive Document.Reachable {s : Shape} : Document s → Prop where
  /-- The empty document. -/
  | empty : Document.Reachable .empty
  /-- The document of raw bytes. -/
  | ofRaw {bytes : Bytes} {d : Document s}
    (h : ((Document.ofRaw s bytes).run ()).answer = .ok d) : Document.Reachable d
  /-- The document of a payload. -/
  | ofPayload (p : s.Payload) : Document.Reachable (.ofPayload p)
  /-- The document that a text says. -/
  | ofJson {input : Bytes} {d : Document s} (h : Document.ofJson s input = .ok d) :
    Document.Reachable d
  /-- The document that a part of a text says. -/
  | read {limit depth : Nat} {bs left : Bytes} {d : Document s}
    (h : Document.read s limit depth bs = .ok (d, left)) : Document.Reachable d
  /-- The document that a value is. -/
  | ofValue {v : Value} {d : Document s} (h : Document.ofValue s v = .ok d) :
    Document.Reachable d
  /-- The document in a column. -/
  | ofColumn {column : Column} {d : Document s}
    (h : ((Document.ofColumn s column).run ()).answer = .ok d) : Document.Reachable d
  /-- The document behind an operation. -/
  | perform {d : Document s} (op : Document.Operation s) (h : Document.Reachable d) :
    Document.Reachable (Document.perform op d).2
  /-- The document of a checked document. -/
  | unchecked {c : CheckedDocument s} (h : CheckedDocument.Reachable c) :
    Document.Reachable c.document
/-- A checked document that some run of operations ends in. -/
inductive CheckedDocument.Reachable {s : Shape} : CheckedDocument s → Prop where
  /-- The empty document under a schema. -/
  | empty (schema : Schema) : CheckedDocument.Reachable (.empty schema)
  /-- A copy under a schema that has no violation. -/
  | asType {d : Document s} {schema : Schema} {c : CheckedDocument s} (h : Document.Reachable d)
    (hc : ((Document.asType schema).run d).answer = .ok c) : CheckedDocument.Reachable c
  /-- A copy under a schema. -/
  | asTypeUnchecked {d : Document s} (schema : Schema) (h : Document.Reachable d) :
    CheckedDocument.Reachable (d.asTypeUnchecked schema)
  /-- The checked document behind an operation. -/
  | perform {c : CheckedDocument s} (op : CheckedDocument.Operation s)
    (h : CheckedDocument.Reachable c) : CheckedDocument.Reachable (CheckedDocument.perform op c).2
end

namespace Document

private theorem inStep_ofRaw {bytes : Bytes} {d : Document s}
    (h : ((ofRaw s bytes).run ()).answer = .ok d) : d.InStep := by
  rw [answer_ofRaw] at h
  split at h
  · next head =>
    cases h
    exact inStep_raw head
  · cases h

private theorem inStep_ofJson {input : Bytes} {d : Document s} (h : ofJson s input = .ok d) :
    d.InStep := by
  obtain ⟨p, hp, rfl⟩ := Json.eq_ok_of_map_eq_ok h
  exact inStep_decoded (Payload.normal_of_decode hp)

private theorem inStep_read {limit depth : Nat} {bs left : Bytes} {d : Document s}
    (h : Document.read s limit depth bs = .ok (d, left)) : d.InStep := by
  unfold Document.read at h
  cases hr : Payload.read s limit depth bs with
  | error f =>
    rw [hr] at h
    cases h
  | ok r =>
    rw [hr] at h
    cases h
    exact inStep_decoded (Payload.normal_normalize _)

private theorem inStep_ofValue {v : Value} {d : Document s} (h : ofValue s v = .ok d) :
    d.InStep := by
  obtain ⟨p, hp, rfl⟩ := Json.eq_ok_of_map_eq_ok h
  obtain ⟨q, -, hp⟩ := Json.eq_ok_of_bind_eq_ok hp
  obtain ⟨r, -, hp⟩ := Json.eq_ok_of_bind_eq_ok hp
  obtain rfl := Except.ok.inj hp
  exact inStep_decoded (Payload.normal_normalize r)

private theorem inStep_ofColumn {column : Column} {d : Document s}
    (h : ((ofColumn s column).run ()).answer = .ok d) : d.InStep := by
  have left := perform_leaves (.ask (.scan column.source)) (empty : Document s)
  have state : d = ((scan column.source).run (empty : Document s)).state := by
    simp only [ofColumn, Action.run] at h ⊢
    cases ha : (scan column.source (empty : Document s)).answer with
    | ok u =>
      rw [ha] at h
      cases h
      rfl
    | error e =>
      rw [ha] at h
      cases h
  rw [state]
  exact (inStep_decoded Payload.normal_empty).of_leaves left

private theorem InStep.of_asType {d : Document s} (h : d.InStep) {schema : Schema}
    {c : CheckedDocument s} (hc : ((asType schema).run d).answer = .ok c) : c.document.InStep := by
  have result := congrArg Prod.fst (result_asType schema d)
  rw [Action.result, hc] at result
  cases hr : d.reading with
  | error e => simp [hr] at result
  | ok p =>
    rw [hr] at result
    dsimp only at result
    cases hv : Payload.check schema p with
    | error v =>
      rw [hv] at result
      cases result
    | ok u =>
      rw [hv] at result
      cases result
      exact h.afterReading

end Document

mutual
/-- A reachable document is in step. -/
theorem Document.Reachable.inStep {s : Shape} : ∀ {d : Document s}, d.Reachable → d.InStep
  | _, .empty => Document.inStep_decoded Payload.normal_empty
  | _, .ofRaw h => Document.inStep_ofRaw h
  | _, .ofPayload p => Document.inStep_decoded (Payload.normal_normalize p)
  | _, .ofJson h => Document.inStep_ofJson h
  | _, .read h => Document.inStep_read h
  | _, .ofValue h => Document.inStep_ofValue h
  | _, .ofColumn h => Document.inStep_ofColumn h
  | _, .perform op h => h.inStep.of_leaves (Document.perform_leaves op _)
  | _, .unchecked h => h.inStep
/-- The document of a reachable checked document is in step. -/
theorem CheckedDocument.Reachable.inStep {s : Shape} :
    ∀ {c : CheckedDocument s}, c.Reachable → c.document.InStep
  | _, .empty schema => Document.inStep_decoded Payload.normal_empty
  | _, .asType h hc => h.inStep.of_asType hc
  | _, .asTypeUnchecked schema h => h.inStep
  | _, .perform op h => h.inStep.of_leaves (CheckedDocument.perform_leaves op _)
end

end SchemaDoc

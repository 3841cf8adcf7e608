import SchemaDoc.Action
import SchemaDoc.Document.Error

/-!
# Documents

A document holds one JSON array or object as raw bytes, as a decoded payload, or as both in step.
Raw bytes are taken on the word of their first byte and decoded when the payload is first asked
for; a payload is encoded when the bytes are asked for. Whatever would leave the two out of step
drops the one that is stale.

Values are normalized as they enter a payload, so every payload is normal.
-/

namespace SchemaDoc

/-- A document of a shape. -/
inductive Document (s : Shape) where
  /-- Only raw bytes. -/
  | raw (bytes : Bytes)
  /-- Only a payload. -/
  | decoded (payload : s.Payload)
  /-- Raw bytes and the payload that they say. -/
  | both (bytes : Bytes) (payload : s.Payload)

/-- Which sides of a document are there. -/
inductive CacheState where
  /-- The raw bytes only. -/
  | raw
  /-- The payload only. -/
  | decoded
  /-- Both. -/
  | both
deriving DecidableEq, Repr

/-- A step on a document or on something that holds one. -/
abbrev DocumentAction (σ : Type) := Action σ DocumentError

namespace Document

variable {s : Shape} {σ : Type}

/-- Which sides of a document are there. -/
def state : Document s → CacheState
  | raw _ => .raw
  | decoded _ => .decoded
  | both _ _ => .both

/-- The empty document. -/
def empty : Document s := decoded (Payload.empty s)

/-- The document of a payload. -/
def ofPayload (p : s.Payload) : Document s := decoded (Payload.normalize p)

/-- The raw bytes, if they are there. -/
def raw? : Document s → Option Bytes
  | raw bytes | both bytes _ => some bytes
  | decoded _ => none

/-- The payload, if it is there. -/
def payload? : Document s → Option s.Payload
  | decoded p | both _ p => some p
  | raw _ => none

/-- The bytes of a document without touching it: the raw bytes, or else the text of the
payload. -/
def bytes : Document s → Bytes
  | raw bytes | both bytes _ => bytes
  | decoded p => Payload.encode p

/-! ## Reports -/

/-- Decodes raw bytes, and reports a failure. -/
def parse (s : Shape) (bytes : Bytes) : DocumentAction σ s.Payload :=
  match Payload.decode s bytes with
  | .ok p => pure p
  | .error e => do
    Action.reportEvent .decodeFailed [("reason", e.message), ("shape", s.name)]
    Action.fail (.undecodable s e)

/-- Lets pass what starts with the byte of the shape, and reports all else. -/
def sniff (s : Shape) (bytes : Bytes) : DocumentAction σ Unit :=
  if bytes.head? = some s.opening then pure ()
  else do
    Action.reportEvent .shapeMismatch
      [("found", DocumentError.describeOpening bytes.head?), ("shape", s.name)]
    Action.fail (.wrongOpening s bytes.head?)

/-- Fails with a violation, and reports it. -/
def reject {α : Type} (v : Violation) : DocumentAction σ α := do
  Action.reportEvent .schemaViolation [("details", v.message)]
  Action.fail (.violation v)

/-- Lets pass what has no violation. -/
def require : Verdict → DocumentAction σ Unit
  | .ok () => pure ()
  | .error v => reject v

/-! ## Steps -/

/-- Puts raw bytes in place of a document, after a look at the first. -/
def scanBytes (bytes : Bytes) : DocumentAction (Document s) Unit := do
  sniff s bytes
  Action.become (raw bytes)
  Action.reportEvent .documentScanned
    [("bytes", toString bytes.length), ("shape", s.name)]

/-- The document of raw bytes, after a look at the first. -/
def ofRaw (s : Shape) (bytes : Bytes) : DocumentAction σ (Document s) := fun t ↦
  let o := scanBytes bytes (empty : Document s)
  ⟨o.answer.map fun () ↦ o.state, t, o.records⟩

/-- The payload, decoded from the raw bytes if need be; these are kept. -/
def decode : DocumentAction (Document s) s.Payload := do
  match ← Action.state with
  | decoded p | both _ p => return p
  | raw bytes =>
    let p ← parse s bytes
    Action.become (both bytes p)
    Action.reportEvent .documentDecoded [("shape", s.name)]
    return p

/-- Changes the payload, decoded from the raw bytes if need be; these are dropped. -/
def edit (f : s.Payload → s.Payload) : DocumentAction (Document s) Unit := do
  match ← Action.state with
  | decoded p | both _ p => Action.become (decoded (f p))
  | raw bytes =>
    let p ← parse s bytes
    Action.become (decoded (f p))
    Action.reportEvent .documentDecoded [("shape", s.name)]

/-- The bytes, encoded from the payload if need be; this is dropped. -/
def encode : DocumentAction (Document s) Bytes := do
  match ← Action.state with
  | raw bytes | both bytes _ => return bytes
  | decoded p =>
    Action.become (raw (Payload.encode p))
    Action.reportEvent .documentEncoded [("shape", s.name)]
    return Payload.encode p

/-- The number of items or members. -/
def length : DocumentAction (Document s) Nat := do
  return Payload.length (← decode)

/-- Whether there are no items or members. -/
def isEmpty : DocumentAction (Document s) Bool := do
  return (← length) = 0

/-- The JSON text of the document. -/
def marshal : DocumentAction (Document s) Bytes := encode

/-- Puts the payload that a text says in place of the document. -/
def unmarshal (bytes : Bytes) : DocumentAction (Document s) Unit := do
  Action.become (decoded (← parse s bytes))

/-- The value of a key. -/
def get (key : String) : DocumentAction (Document .table) (Option Value) := do
  return Dictionary.find? key (← decode)

/-! ## Laws -/

/-- Parsing answers the payload that the bytes say. -/
theorem run_parse_ok {bytes : Bytes} {p : s.Payload} (h : Payload.decode s bytes = .ok p)
    (t : σ) : (parse s bytes).run t = ⟨.ok p, t, []⟩ := by
  simp [parse, h]

/-- Parsing reports why the bytes say no payload. -/
theorem run_parse_error {bytes : Bytes} {e : Json.Error} (h : Payload.decode s bytes = .error e)
    (t : σ) : (parse s bytes).run t = ⟨.error (.undecodable s e), t,
      [.ofEvent .decodeFailed [("reason", e.message), ("shape", s.name)]]⟩ := by
  simp [parse, h]
  rfl

/-- A payload that is there is answered, and nothing changes. -/
theorem run_decode_of_payload? {d : Document s} {p : s.Payload} (h : d.payload? = some p) :
    decode.run d = ⟨.ok p, d, []⟩ := by
  cases d <;> simp_all [payload?] <;> rfl

private theorem run_decode_raw (bytes : Bytes) : decode.run (raw bytes) =
    (parse s bytes >>= fun p ↦ do
      Action.become (both bytes p)
      Action.reportEvent .documentDecoded [("shape", s.name)]
      return p : DocumentAction (Document s) s.Payload).run (raw bytes) := rfl

/-- Raw bytes that say a payload are kept beside it. -/
theorem run_decode_raw_ok {bytes : Bytes} {p : s.Payload} (h : Payload.decode s bytes = .ok p) :
    decode.run (raw bytes) =
      ⟨.ok p, both bytes p, [.ofEvent .documentDecoded [("shape", s.name)]]⟩ := by
  rw [run_decode_raw, Action.run_bind_ok (run_parse_ok h _)]
  rfl

/-- Raw bytes that say no payload are kept as they are. -/
theorem run_decode_raw_error {bytes : Bytes} {e : Json.Error}
    (h : Payload.decode s bytes = .error e) :
    decode.run (raw bytes : Document s) = ⟨.error (.undecodable s e), raw bytes,
      [.ofEvent .decodeFailed [("reason", e.message), ("shape", s.name)]]⟩ := by
  rw [run_decode_raw, Action.run_bind_error (run_parse_error h _)]

/-- The text of a payload takes its place. -/
theorem run_encode_decoded (p : s.Payload) :
    encode.run (decoded p) = ⟨.ok (Payload.encode p), raw (Payload.encode p),
      [.ofEvent .documentEncoded [("shape", s.name)]]⟩ := rfl

/-- Encoding answers the bytes of the document. -/
theorem answer_encode (d : Document s) : (encode.run d).answer = .ok d.bytes := by
  cases d <;> rfl

end Document

end SchemaDoc

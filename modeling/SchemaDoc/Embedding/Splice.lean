import SchemaDoc.Document.Basic
import SchemaDoc.Json.Skim

/-!
# Splicing documents into JSON

A document can be a part of a larger JSON text. Its raw bytes are spliced in as they are, once
they are known to be one JSON value with nothing around it but blanks; otherwise the payload is
printed. The document stays as it is.
-/

namespace SchemaDoc.Document

variable {s : Shape}

/-- The text of the document as a part of a compact text. -/
def splice (d : Document s) : Except Json.Error Bytes :=
  match d with
  | raw bytes | both bytes _ => Json.textOf bytes
  | decoded p => .ok (Payload.encode p)

/-- The text of the document as a part of a pretty text, at a level of indentation. Raw bytes are
not laid out anew. -/
def splicePretty (level : Nat) (d : Document s) : Except Json.Error Bytes :=
  match d with
  | raw bytes | both bytes _ => Json.textOf bytes
  | decoded p => .ok (Json.printPretty level (Payload.toValue p))

/-- The document as a value. Raw bytes are cut to the text of their value, and that is read for
itself. -/
def toValue (d : Document s) : Except Json.Error Value :=
  match d with
  | raw bytes | both bytes _ => do
    let kept ← Json.textOf bytes
    return (← Json.unbox kept).normalize
  | decoded p => .ok (Payload.toValue p)

/-- Reads a document as a part of a larger text, with a limit on the brackets in it. -/
def read (s : Shape) (limit depth : Nat) : Json.Reader (Document s) := fun bs ↦ do
  let (p, rest) ← Payload.read s limit depth bs
  return (ofPayload p, rest)

/-- The document that a whole text says. -/
def ofJson (s : Shape) (input : Bytes) : Except Json.Error (Document s) :=
  (Payload.decode s input).map decoded

/-- The document that a value is. -/
def ofValue (s : Shape) (v : Value) : Except Json.Error (Document s) :=
  (Payload.ofValue s v).map decoded

end SchemaDoc.Document

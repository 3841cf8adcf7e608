import SchemaDoc.Document.Checked

/-!
# Stores

What a store hands over to a document and what it gets back. Only text and bytes are taken.
-/

namespace SchemaDoc

/-- A value that a store hands over. -/
inductive Source where
  /-- No value. -/
  | null
  /-- An integer. -/
  | integer (i : Int)
  /-- A floating point number. -/
  | real (n : Number)
  /-- A text. -/
  | text (s : String)
  /-- Bytes. -/
  | bytes (bs : Bytes)
deriving DecidableEq, Repr

namespace Source

/-- What a store handed over, in a word. -/
def name : Source → String
  | null => "null"
  | integer _ => "integer"
  | real _ => "real"
  | text _ => "text"
  | bytes _ => "bytes"

/-- The bytes of a text or of bytes. -/
def bytes? : Source → Option Bytes
  | text s => some (Utf8.encode s)
  | bytes bs => some bs
  | null | integer _ | real _ => none

end Source

/-- What a store gets: the JSON text of a document. -/
structure Bound where
  /-- The text as bytes. -/
  bytes : Bytes
deriving DecidableEq, Repr

/-- The text as text. It fails only if raw bytes were not UTF-8. -/
def Bound.text (b : Bound) : Except Utf8.Fault String := Utf8.decode b.bytes

namespace Document

variable {s : Shape}

/-- Puts what a store hands over in place of the document. -/
def scan (source : Source) : DocumentAction (Document s) Unit :=
  match source.bytes? with
  | some bs => scanBytes bs
  | none => Action.fail (.unscannable source.name)

/-- What a store gets from the document. -/
def bind : DocumentAction (Document s) Bound := do
  return ⟨← encode⟩

end Document

/-- What a store gets from a checked document. -/
def CheckedDocument.bind {s : Shape} : DocumentAction (CheckedDocument s) Bound :=
  onDocument Document.bind

end SchemaDoc

import SchemaDoc.Store.Source

/-!
# Database columns

A document is stored in a column as text, and is read from text and blobs alike.
-/

namespace SchemaDoc

/-- The value of a column. -/
inductive Column where
  /-- No value. -/
  | null
  /-- An integer. -/
  | integer (i : Int)
  /-- A floating point number. -/
  | real (n : Number)
  /-- Text, of which it is not known whether it is UTF-8. -/
  | text (bs : Bytes)
  /-- Bytes. -/
  | blob (bs : Bytes)
deriving DecidableEq, Repr

/-- What a document takes from a column. -/
def Column.source : Column → Source
  | null => .null
  | integer i => .integer i
  | real n => .real n
  | text bs | blob bs => .bytes bs

/-- Why a column is no document. -/
inductive ColumnError where
  /-- The column is neither text nor a blob. -/
  | wrongType
  /-- The document refuses it. -/
  | refused (e : DocumentError)
deriving DecidableEq, Repr

/-- The column error for a document error. -/
def ColumnError.ofDocumentError : DocumentError → ColumnError
  | .unscannable _ => wrongType
  | e => refused e

/-- What a column gets: the raw bytes of the document, or a text made for it. -/
inductive ColumnOutput where
  /-- The raw bytes. -/
  | shared (bs : Bytes)
  /-- The text of the payload. -/
  | made (s : String)
deriving DecidableEq, Repr

namespace Document

variable {s : Shape} {σ : Type}

/-- The document in a column. -/
def ofColumn (s : Shape) (column : Column) : Action σ ColumnError (Document s) := fun t ↦
  let o := scan column.source (empty : Document s)
  ⟨(o.answer.map fun () ↦ o.state).mapError .ofDocumentError, t, o.records⟩

/-- What a column gets from the document, which stays as it is. -/
def toColumn (d : Document s) : Except Utf8.Fault ColumnOutput :=
  match d.raw? with
  | some bs => .ok (.shared bs)
  | none => (Utf8.decode d.bytes).map .made

end Document

end SchemaDoc

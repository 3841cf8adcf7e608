import SchemaDoc.Document.Basic

/-!
# Checked documents

A checked document carries a schema, and every change is checked before it is made. An added item
and a set field are checked by themselves, at the place where they will stand.
-/

namespace SchemaDoc

/-- A document and the schema that its changes are checked against. -/
structure CheckedDocument (s : Shape) where
  /-- The document. -/
  document : Document s
  /-- The schema. -/
  schema : Schema

namespace CheckedDocument

variable {s : Shape}

/-- The empty document under a schema. -/
def empty (schema : Schema) : CheckedDocument s := ⟨.empty, schema⟩

/-- Works on the document alone. -/
def onDocument {α : Type} (x : DocumentAction (Document s) α) :
    DocumentAction (CheckedDocument s) α :=
  x.onPart document fun d doc ↦ { d with document := doc }

/-- The payload, decoded if need be. -/
def decode : DocumentAction (CheckedDocument s) s.Payload := onDocument Document.decode

/-- The bytes, encoded if need be. -/
def encode : DocumentAction (CheckedDocument s) Bytes := onDocument Document.encode

/-- The number of items or members. -/
def length : DocumentAction (CheckedDocument s) Nat := onDocument Document.length

/-- Whether there are no items or members. -/
def isEmpty : DocumentAction (CheckedDocument s) Bool := onDocument Document.isEmpty

/-- The JSON text of the document. -/
def marshal : DocumentAction (CheckedDocument s) Bytes := onDocument Document.marshal

/-- Puts the payload that a text says in place of the document, if it has no violation. -/
def unmarshal (bytes : Bytes) : DocumentAction (CheckedDocument s) Unit := do
  let p ← Document.parse s bytes
  let d ← Action.state
  Document.require (Payload.check d.schema p)
  Action.become { d with document := .decoded p }

/-! ## Lists -/

/-- Finds the first violation in adding an item behind `length` others: in the item, then in the
length. -/
def checkAppend (schema : Schema) (length : Nat) (v : Value) : Verdict :=
  match schema with
  | .list element bound => do
    element.checkAt v (Path.item Path.root length)
    match Schema.effective? bound with
    | some max =>
      if max ≤ length then .error (.tooLong Path.root max (length + 1)) else .ok ()
    | none => .ok ()
  | .any => .ok ()
  | .table _ | .number | .string _ | .bool =>
    .error (.wrongType Path.root schema.kind.name Kind.list.name)

/-- Adds an item, if it has no violation. -/
def append (v : Value) : DocumentAction (CheckedDocument .list) Unit := do
  let v := v.normalize
  let items : List Value ← decode
  let d ← Action.state
  Document.require (checkAppend d.schema items.length v)
  onDocument (Document.edit fun (items : List Value) ↦ items ++ [v])

/-- The items. -/
def values : DocumentAction (CheckedDocument .list) (List Value) := decode

/-- What each item is in the eyes of `convert`, or the first item that is not what was
`expected`; the first of them all is at `index`. -/
def convertItems {α : Type} (convert : Value → Option α) (expected : String) :
    Nat → List Value → Except DocumentError (List α)
  | _, [] => .ok []
  | index, v :: items =>
    match convert v with
    | none => .error (.wrongItem index expected v.typeName)
    | some a => (convertItems convert expected (index + 1) items).map (a :: ·)

/-- The number of a value, as a signed integer. -/
def int64? : Value → Option Int
  | .number n => some n.toInt64
  | _ => none

/-- The text of a value. -/
def string? : Value → Option String
  | .string s => some s
  | _ => none

/-- Every item as a signed integer. -/
def int64Values : DocumentAction (CheckedDocument .list) (List Int) := do
  Action.ofExcept (convertItems int64? "number" 0 (← decode))

/-- Every item as a text. -/
def stringValues : DocumentAction (CheckedDocument .list) (List String) := do
  Action.ofExcept (convertItems string? "string" 0 (← decode))

/-! ## Tables -/

/-- Finds the violation in setting a field. -/
def checkSet (schema : Schema) (key : String) (v : Value) : Verdict :=
  match schema with
  | .table fields =>
    match Dictionary.find? key fields with
    | none => .error (.extraField (Path.field Path.root key))
    | some field => field.checkAt v (Path.field Path.root key)
  | .any => .ok ()
  | .list _ _ | .number | .string _ | .bool =>
    .error (.wrongType Path.root schema.kind.name Kind.table.name)

/-- Sets a field, if that makes no violation. -/
def set (key : String) (v : Value) : DocumentAction (CheckedDocument .table) Unit := do
  let v := v.normalize
  let d ← Action.state
  Document.require (checkSet d.schema key v)
  onDocument (Document.edit fun (members : Dictionary Value) ↦ Dictionary.insert key v members)

/-- The value of a key. -/
def get (key : String) : DocumentAction (CheckedDocument .table) (Option Value) :=
  onDocument (Document.get key)

/-- Removes a key and answers its value. A key that is not there changes nothing. -/
def remove (key : String) : DocumentAction (CheckedDocument .table) (Option Value) := do
  let members : Dictionary Value ← decode
  match Dictionary.find? key members with
  | none => return none
  | some v =>
    onDocument (Document.edit fun (members : Dictionary Value) ↦ Dictionary.erase key members)
    return some v

end CheckedDocument

namespace Document

variable {s : Shape}

/-- A copy of the document under a schema, without a check. -/
def asTypeUnchecked (schema : Schema) (d : Document s) : CheckedDocument s := ⟨d, schema⟩

/-- A copy of the document under a schema, if it has no violation. -/
def asType (schema : Schema) : DocumentAction (Document s) (CheckedDocument s) := do
  require (Payload.check schema (← decode))
  return asTypeUnchecked schema (← Action.state)

end Document

end SchemaDoc

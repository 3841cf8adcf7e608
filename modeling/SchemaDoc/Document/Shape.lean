import SchemaDoc.Json.Box
import SchemaDoc.Json.Printer
import SchemaDoc.Schema.Check

/-!
# Shapes

A document is a JSON array or a JSON object. Its shape fixes the byte that its text starts with,
what its payload is and how a schema is checked against that.
-/

namespace SchemaDoc

/-- What a document is. -/
inductive Shape where
  /-- An array. -/
  | list
  /-- An object. -/
  | table
deriving DecidableEq, Repr

namespace Shape

/-- The name of a shape. -/
def name : Shape → String
  | list => "list"
  | table => "table"

/-- The byte that a text of this shape starts with. -/
def opening : Shape → UInt8
  | list => Json.ascii '['
  | table => Json.ascii '\x7b'

/-- The contents of a document: the items of an array, or the members of an object by key. -/
abbrev Payload : Shape → Type
  | list => List Value
  | table => Dictionary Value

end Shape

namespace Payload

variable {s : Shape}

/-- The payload without items or members. -/
def empty : (s : Shape) → s.Payload
  | .list => []
  | .table => []

/-- The number of items or members. -/
def length : {s : Shape} → s.Payload → Nat
  | .list, items => List.length items
  | .table, members => List.length members

/-- The payload as a value. -/
def toValue : {s : Shape} → s.Payload → Value
  | .list, items => .list items
  | .table, members => .table members

/-- The payload with every table in it made a dictionary. -/
def normalize : {s : Shape} → s.Payload → s.Payload
  | .list, items => Value.normalizeItems items
  | .table, members => Dictionary.ofList (Value.normalizeMembers members)

/-- Finds the first violation of a schema in the payload. -/
def check (schema : Schema) : {s : Shape} → s.Payload → Verdict
  | .list, items => schema.checkList items
  | .table, members => schema.checkTable members

/-- The compact text of the payload. -/
def encode (p : s.Payload) : Bytes := Json.print (toValue p)

/-- Opens every box in the items or in the values of the members. -/
def opened (unbox : Bytes → Except Json.Error Value) :
    {s : Shape} → s.Payload → Except Json.Error s.Payload
  | .list, items => Value.openedItems unbox items
  | .table, members => Value.openedMembers unbox members

/-- Reads a payload as it is written, except that every box in it is opened. -/
def read (s : Shape) (limit depth : Nat) : Json.Reader s.Payload :=
  match s with
  | .list => Json.readListOnly limit (Json.partReader? limit depth)
  | .table => Json.readTableOnly limit (Json.partReader? limit depth)

/-- The payload that a text says. -/
def decode (s : Shape) (input : Bytes) : Except Json.Error s.Payload :=
  (Json.readWhole (fun limit ↦ read s limit Json.depthLimit) input).map normalize

/-- The payload of a value, if that has the shape. -/
def ofShape : (s : Shape) → Value → Except Json.Error s.Payload
  | .list, .list items => .ok items
  | .table, .table members => .ok members
  | .list, v => .error (.unplaced (.wrongType (.ofValue v) "a sequence"))
  | .table, v => .error (.unplaced (.wrongType (.ofValue v) "a map"))

/-- The payload that a value is, if it has the shape and once every box in it is opened. What is
wrong with the value has no place. -/
def ofValue (s : Shape) (v : Value) : Except Json.Error s.Payload := do
  let p ← ofShape s v.normalize
  return normalize (← opened Json.unbox p)

end Payload

end SchemaDoc

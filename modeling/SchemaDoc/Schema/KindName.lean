import SchemaDoc.Json.Reader
import SchemaDoc.Schema.Error
import SchemaDoc.Schema.Kind

/-!
# Kinds by name

A kind is looked up by its exact name, given as a text or as a JSON string.
-/

namespace SchemaDoc.Kind

/-- The kind of a name, which has to be one. -/
def parse (name : String) : Except SchemaError Kind :=
  match ofName? name with
  | some k => .ok k
  | none => .error (.unknownKind name)

/-- The kind that a JSON text names. -/
def ofJson (input : Bytes) : Except Json.Error Kind :=
  Json.readWholeAs (fun _ ↦ Json.readStringOnly "a string")
    (fun s ↦ (parse s).mapError fun e ↦ .other e.text) input

end SchemaDoc.Kind

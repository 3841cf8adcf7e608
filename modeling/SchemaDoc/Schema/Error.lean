import SchemaDoc.Files.Error
import SchemaDoc.Json.Error

/-!
# Schema errors

Everything that can go wrong with the definitions of schemas and their registry. A value that
violates its schema is no error here.
-/

namespace SchemaDoc

/-- What is wrong with a definition or with what was asked of a registry. -/
inductive SchemaError where
  /-- There is no kind of this name. -/
  | unknownKind (name : String)
  /-- A definition is no good for a reason. -/
  | malformed (origin reason : String)
  /-- A definition could not be read. -/
  | unreadable (origin : String) (cause : Files.Error)
  /-- A definition is not a schema. -/
  | unparsable (origin : String) (cause : Json.Error)
  /-- There is a schema of this name already. -/
  | alreadyThere (name : String)
  /-- A schema has too many levels. -/
  | tooDeep (name : String) (depth limit : Nat)
  /-- A name that cannot be that of a file. -/
  | badName (name : String)
  /-- A definition could not be written. -/
  | unwritable (origin : String) (cause : Files.Error)
deriving DecidableEq, Repr

namespace SchemaError

/-- The code of an error. -/
def code : SchemaError → String
  | unknownKind _ => "JSONSHAPE_UNKNOWN_KIND"
  | malformed _ _ | unreadable _ _ | unparsable _ _ => "JSONSHAPE_MALFORMED_TYPE"
  | alreadyThere _ => "JSONSHAPE_DUPLICATE_TYPE"
  | tooDeep _ _ _ => "JSONSHAPE_SCHEMA_TOO_DEEP"
  | badName _ => "JSONSHAPE_INVALID_TYPE_NAME"
  | unwritable _ _ => "JSONSHAPE_TYPE_WRITE_FAILED"

/-- The wording of a malformed definition. -/
def malformedMessage (origin reason : String) : String :=
  s!"Malformed type definition '{origin}': {reason}"

/-- The wording of an error, without its cause. -/
def message : SchemaError → String
  | unknownKind name => s!"No such kind '{name}'"
  | malformed origin reason => malformedMessage origin reason
  | unreadable origin _ => malformedMessage origin "failed to read"
  | unparsable origin _ => malformedMessage origin "invalid JSON type definition"
  | alreadyThere name => s!"Type '{name}' is already registered"
  | tooDeep name depth limit => s!"Type '{name}' has depth {depth} (limit {limit})"
  | badName name => s!"Type name '{name}' must be a plain file stem"
  | unwritable origin _ => s!"Failed to write type definition '{origin}'"

/-- The wording of the cause, if there is one. -/
def cause? : SchemaError → Option String
  | unreadable _ e | unwritable _ e => some e.message
  | unparsable _ e => some e.message
  | _ => none

/-- The code, the wording and the cause on one line. -/
def text (e : SchemaError) : String :=
  match e.cause? with
  | some cause => s!"{e.code}: {e.message} (caused by: {cause})"
  | none => s!"{e.code}: {e.message}"

end SchemaError

end SchemaDoc
